import SmartOS.Lib.Loop
import SmartOS.Lib.Cells
import SmartOS.Lib.Memory

/-!
# Numbers as strings

`uitoa` and `itoa` of `SmartOS.cpp`: the digits of a number, the lowest one first,
are written to a static buffer, which is then reversed in place. Both count the
digits before, and do not use the count.

The two are for numbers of different types, and go through the same loops with the
arithmetic of their own (`Numeral`). `uitoa` computes in 64 bits. `itoa` has an `int`
of 32 bits, which is extended to 64 bits with its sign for every division by `base`
and remainder, and the result is cut off to 32 bits again.
-/

namespace SmartOS

open Prog

/-! ## Reversal -/

def swap (str : Cells Byte) (a b : ℕ) : Cells Byte :=
  let c := str.vals a
  (str.set a (str.vals b)).set b c

/-- A round of the loop of `reverse`, with `start` and `end`. -/
def reverseRound : Cells Byte × ℕ × ℕ → (Cells Byte × ℕ × ℕ) ⊕ (Cells Byte × ℕ × ℕ) :=
  whileDo (fun (_, start, last) => start < last) fun (str, start, last) =>
    (swap str start last, start + 1, last - 1)

/-- `reverse(str, length)`. For a length of 0, `end` is -1 in the source, and the loop does nothing
    either way. -/
def reverse (str : Cells Byte) (length n : ℕ) : Option (Cells Byte) :=
  (loop reverseRound n (str, 0, length - 1)).map (·.1)

/-! ## The loops over the digits -/

/-- The arithmetic of a loop over the digits of numbers in `ν`. -/
structure Numeral (ν : Type) where
  isZero : ν → Bool
  digit : ν → Byte
  rest : ν → ν

namespace Numeral

variable {ν : Type} (N : Numeral ν)

/-- A round of the loop that counts the digits, with `len` and `n`. -/
def countRound : ℕ × ν → (ℕ × ν) ⊕ (ℕ × ν) :=
  whileDo (fun (_, num) => !N.isZero num) fun (len, num) => (len + 1, N.rest num)

def countDigits (num : ν) (n : ℕ) : Option (ℕ × ν) := loop N.countRound n (0, num)

/-- A round of the loop that writes the digits, with `str`, `i` and `num`. -/
def writeRound : Cells Byte × ℕ × ν → (Cells Byte × ℕ × ν) ⊕ (Cells Byte × ℕ × ν) :=
  whileDo (fun (_, _, num) => !N.isZero num) fun (str, i, num) =>
    (str.set i (N.digit num), i + 1, N.rest num)

def writeDigits (num : ν) (str : Cells Byte) (n : ℕ) : Option (Cells Byte × ℕ × ν) :=
  loop N.writeRound n (str, 0, num)

end Numeral

/-! ## `uitoa` -/

/-- `(rem > 9) ? (rem-10) + 'a' : rem + '0'` -/
def digitChar (rem : ℕ) : Byte :=
  if rem > 9 then BitVec.ofNat 8 (rem - 10 + 0x61) else BitVec.ofNat 8 (rem + 0x30)

def sizeNumeral (base : ℕ) : Numeral ℕ where
  isZero num := num == 0
  digit num := digitChar (num % base)
  rest num := num / base

def uitoa (num base : ℕ) (str : Cells Byte) (n : ℕ) : Option (Cells Byte) :=
  if num = 0 then some ((str.set 0 0x30).set 1 0)
  else
    ((sizeNumeral base).countDigits num n).bind fun _ =>
      ((sizeNumeral base).writeDigits num str n).bind fun (str, i, _) =>
        reverse (str.set i 0) i n

/-! ## `itoa` -/

/-- An `int` in an expression with a `size_t`. -/
def intSize (num : BitVec 32) : ℕ := (num.signExtend 64).toNat

/-- The same of an `int`. -/
def intDigitChar (rem : BitVec 32) : Byte :=
  if rem.toInt > 9 then (rem - 10 + 0x61).setWidth 8 else (rem + 0x30).setWidth 8

def intNumeral (base : ℕ) : Numeral (BitVec 32) where
  isZero num := num == 0
  digit num := intDigitChar (BitVec.ofNat 32 (intSize num % base))
  rest num := BitVec.ofNat 32 (intSize num / base)

def itoa (num : BitVec 32) (base : ℕ) (str : Cells Byte) (n : ℕ) : Option (Cells Byte) :=
  if num = 0 then some ((str.set 0 0x30).set 1 0)
  else
    let isNegative := num.toInt < 0 ∧ base = 10
    let num := if isNegative then -num else num
    ((intNumeral base).countDigits num n).bind fun _ =>
      ((intNumeral base).writeDigits num str n).bind fun (str, i, _) =>
        let (str, i) := if isNegative then (str.set i 0x2D, i + 1) else (str, i)
        reverse (str.set i 0) i n

/-! ## Strings -/

/-- The buffer holds the string, and the NUL that ends it. -/
structure HoldsString (str : Cells Byte) (s : List Byte) : Prop where
  chars : str.Holds s
  terminated : str.vals s.length = 0
  ne_zero : 0 ∉ s

theorem HoldsString.unique {str : Cells Byte} {s s' : List Byte} (h : HoldsString str s)
    (h' : HoldsString str s') : s = s' :=
  h.chars.unique h'.chars h.terminated h'.terminated h.ne_zero h'.ne_zero

/-! ## What `reverse` does -/

theorem vals_swap (str : Cells Byte) (a b : ℕ) : (swap str a b).vals =
    Function.update (Function.update str.vals a (str.vals b)) b (str.vals a) := rfl

theorem mem_written_swap {str : Cells Byte} {a b i : ℕ} :
    i ∈ (swap str a b).written ↔ i ∈ str.written ∨ i = a ∨ i = b := by
  rw [swap, Cells.mem_written_set, Cells.mem_written_set, or_assoc]

/-- What `reverse` makes of a buffer. -/
structure Reverses (str r : Cells Byte) (length : ℕ) : Prop where
  vals : ∀ i < length, r.vals i = str.vals (length - 1 - i)
  frame : ∀ i, length ≤ i → r.vals i = str.vals i
  written : ∀ i ∈ r.written, i ∈ str.written ∨ i < length
  kept : ∀ i ∈ str.written, i ∈ r.written

/-- The invariant of the loop: so many pairs have been exchanged as `start` has gone up. -/
structure Reversing (str : Cells Byte) (length : ℕ) (s : Cells Byte × ℕ × ℕ) : Prop where
  sum : s.2.1 + s.2.2 = length - 1
  vals : s.1.vals = mirror str.vals length s.2.1
  written : ∀ i ∈ s.1.written, i ∈ str.written ∨ i < length
  kept : ∀ i ∈ str.written, i ∈ s.1.written

theorem returns_reverse (str : Cells Byte) (length : ℕ) :
    ∃ r, Returns (fun n => reverse str length n) r ∧ Reverses str r length := by
  have hloop : ∃ s, Returns (fun n => loop reverseRound n (str, 0, length - 1)) s ∧
      Reverses str s.1 length := by
    refine returns_loop_of_measure (Reversing str length) (fun s => s.2.2 - s.2.1) ?_
      ⟨Nat.zero_add _, mirror_zero.symm, fun i hi => .inl hi, fun i hi => hi⟩
    rintro ⟨r, start, last⟩ ⟨hsum, hvals, hwritten, hkept⟩
    dsimp only at hsum hvals hwritten hkept
    obtain rfl : last = length - 1 - start := by omega
    by_cases hlt : start < length - 1 - start
    · refine .inl ⟨_, if_pos (decide_eq_true hlt), ⟨?_, ?_, fun i hi => ?_, fun i hi => ?_⟩, ?_⟩
      · dsimp only
        omega
      · dsimp only
        rw [vals_swap, hvals, mirror_succ hlt]
      · rcases mem_written_swap.1 hi with hi | rfl | rfl
        · exact hwritten i hi
        · exact .inr (by omega)
        · exact .inr (by omega)
      · exact mem_written_swap.2 (.inl (hkept i hi))
      · dsimp only
        omega
    · refine .inr ⟨_, if_neg fun h => hlt (of_decide_eq_true h), fun i hi => ?_, fun i hi => ?_,
        hwritten, hkept⟩
      · exact (congrFun hvals i).trans (mirror_of_le (by omega) hi)
      · exact (congrFun hvals i).trans (mirror_of_ge hi)
  obtain ⟨s, hreturns, hreverses⟩ := hloop
  exact ⟨s.1, hreturns.map _, hreverses⟩

end SmartOS
