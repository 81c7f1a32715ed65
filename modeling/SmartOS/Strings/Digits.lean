import SmartOS.Strings.Basic

/-!
# The digits of a number

What the loops of `uitoa` and `itoa` write: the characters that a number spells
(`Numeral.Spells`), if its rests come to zero, and otherwise nothing, since the count
of the digits does not end then. A `size_t` always spells its digits (`spells_size`),
an `int` that is not negative, too (`spells_int`).

* `returns_reversed`: how either function ends;
* `returns_uitoa`, `returns_itoa_of_spells`: the strings, and the indices written.
-/

namespace SmartOS

open Prog

/-! ## The loops -/

namespace Numeral

variable {ν : Type} {N : Numeral ν}

/-- The characters of a number, the one of the lowest digit first. -/
inductive Spells (N : Numeral ν) : ν → List Byte → Prop
  | zero {num : ν} : N.isZero num = true → Spells N num []
  | digit {num : ν} {cs : List Byte} : N.isZero num = false → Spells N (N.rest num) cs →
      Spells N num (N.digit num :: cs)

variable {num : ν} {cs : List Byte}

theorem Spells.returns_count (h : N.Spells num cs) (len : ℕ) :
    ∃ r, Returns (fun n => loop N.countRound n (len, num)) r := by
  induction h generalizing len with
  | @zero num hzero =>
    have hround : N.countRound (len, num) = .inr (len, num) := by
      simp [countRound, whileDo, hzero]
    exact ⟨_, returns_loop_exit hround⟩
  | @digit num cs hzero _ ih =>
    have hround : N.countRound (len, num) = .inl (len + 1, N.rest num) := by
      simp [countRound, whileDo, hzero]
    obtain ⟨r, hr⟩ := ih (len + 1)
    exact ⟨r, (returns_loop_next hround).2 hr⟩

theorem Spells.returns_write (h : N.Spells num cs) (str : Cells Byte) (i : ℕ) :
    ∃ r, Returns (fun n => loop N.writeRound n (str, i, num))
      (str.puts i cs, i + cs.length, r) := by
  induction h generalizing str i with
  | @zero num hzero =>
    have hround : N.writeRound (str, i, num) = .inr (str, i, num) := by
      simp [writeRound, whileDo, hzero]
    exact ⟨num, returns_loop_exit hround⟩
  | @digit num cs hzero _ ih =>
    have hround : N.writeRound (str, i, num) =
        .inl (str.set i (N.digit num), i + 1, N.rest num) := by
      simp [writeRound, whileDo, hzero]
    obtain ⟨r, hr⟩ := ih (str.set i (N.digit num)) (i + 1)
    refine ⟨r, (returns_loop_next hround).2 ?_⟩
    rw [List.length_cons, Nat.add_comm cs.length, ← Nat.add_assoc]
    exact hr

/-- The digits are never counted to the end where no rest is zero. -/
theorem diverges_countDigits (I : ν → Prop)
    (hI : ∀ num, I num → N.isZero num = false ∧ I (N.rest num)) (h : I num) :
    Diverges (N.countDigits num) :=
  diverges_loop (fun s => I s.2)
    (fun s hs => ⟨(s.1 + 1, N.rest s.2), by simp [countRound, whileDo, (hI _ hs).1],
      (hI _ hs).2⟩) h

end Numeral

/-! ## The end of the string -/

/-- The characters are ended by NUL, and reversed. -/
theorem returns_reversed (str : Cells Byte) {cs : List Byte} (hcs : 0 ∉ cs) :
    ∃ r, Returns (fun n => reverse ((str.puts 0 cs).set cs.length 0) cs.length n) r ∧
      HoldsString r cs.reverse ∧ ∀ i, i ∈ r.written ↔ i ∈ str.written ∨ i ≤ cs.length := by
  obtain ⟨r, hreturns, hr⟩ := returns_reverse ((str.puts 0 cs).set cs.length 0) cs.length
  have hholds : ((str.puts 0 cs).set cs.length 0).Holds cs :=
    (Cells.holds_puts str cs).set_of_le le_rfl
  have hwritten : ∀ i, i ∈ ((str.puts 0 cs).set cs.length 0).written ↔
      i ∈ str.written ∨ i ≤ cs.length := fun i => by
    rw [Cells.mem_written_set, Cells.mem_written_puts, or_assoc]
    exact or_congr Iff.rfl (by omega)
  refine ⟨r, hreturns, ⟨fun i hi => ?_, ?_, fun h => hcs (List.mem_reverse.1 h)⟩, fun i => ?_⟩
  · rw [List.length_reverse] at hi
    rw [List.getElem?_reverse hi, hr.vals i hi, hholds _ (by omega)]
  · rw [List.length_reverse, hr.frame _ le_rfl, Cells.vals_set_self]
  · constructor
    · intro hi
      rcases hr.written i hi with hi | hi
      · exact (hwritten i).1 hi
      · exact .inr hi.le
    · exact fun hi => hr.kept i ((hwritten i).2 hi)

/-! ## Numerals -/

/-- The characters for the digits, in any base. -/
def symbols : List Byte :=
  "0123456789abcdefghijklmnopqrstuvwxyz".toList.map fun c => BitVec.ofNat 8 c.toNat

def symbol (d : ℕ) : Byte := symbols[d]?.getD 0

/-- The representation of a number in a base, without leading zeros. -/
def numeral (base num : ℕ) : List Byte :=
  if num = 0 then [symbol 0] else (Nat.digits base num).reverse.map symbol

section

variable {base num : ℕ} {str : Cells Byte}

theorem digitChar_eq_symbol : ∀ d < 36, digitChar d = symbol d := by decide

theorem symbol_ne_zero : ∀ d < 36, symbol d ≠ 0 := by decide

/-- What is written for the digits is the representation, backwards. -/
theorem map_digitChar (hbase : 2 ≤ base) (hbase' : base ≤ 36) (num : ℕ) :
    (Nat.digits base num).map digitChar = (Nat.digits base num).map symbol :=
  List.map_congr_left fun d hd =>
    digitChar_eq_symbol d ((Nat.digits_lt_base hbase hd).trans_le hbase')

theorem zero_not_mem_digits (hbase : 2 ≤ base) (hbase' : base ≤ 36) (num : ℕ) :
    0 ∉ (Nat.digits base num).map symbol := fun h => by
  obtain ⟨d, hd, hzero⟩ := List.mem_map.1 h
  exact symbol_ne_zero d ((Nat.digits_lt_base hbase hd).trans_le hbase') hzero

theorem spells_size (hbase : 2 ≤ base) (hbase' : base ≤ 36) (num : ℕ) :
    (sizeNumeral base).Spells num ((Nat.digits base num).map symbol) := by
  rw [← map_digitChar hbase hbase']
  induction num using Nat.strongRecOn with
  | ind num ih =>
    rcases Nat.eq_zero_or_pos num with rfl | hpos
    · rw [Nat.digits_zero]
      exact .zero rfl
    · rw [Nat.digits_def' hbase hpos, List.map_cons]
      exact .digit (by simp [sizeNumeral, hpos.ne']) (ih _ (Nat.div_lt_self hpos hbase))

/-- The number zero, which both functions treat apart. -/
theorem holdsString_zero (str : Cells Byte) : HoldsString ((str.set 0 0x30).set 1 0) [0x30] :=
  ⟨((Cells.holds_puts str [0x30]).set_of_le le_rfl), Cells.vals_set_self, by decide⟩

theorem mem_written_zero {i : ℕ} :
    i ∈ ((str.set 0 0x30).set 1 0).written ↔ i ∈ str.written ∨ i ≤ 1 := by
  rw [Cells.mem_written_set, Cells.mem_written_set, or_assoc]
  exact or_congr Iff.rfl (by omega)

theorem returns_uitoa (hbase : 2 ≤ base) (hbase' : base ≤ 36) (num : ℕ) (str : Cells Byte) :
    ∃ r, Returns (fun n => uitoa num base str n) r ∧ HoldsString r (numeral base num) ∧
      ∀ i, i ∈ r.written ↔ i ∈ str.written ∨ i ≤ (numeral base num).length := by
  simp only [uitoa, numeral]
  by_cases hnum : num = 0
  · simp only [if_pos hnum]
    exact ⟨_, .pure _, holdsString_zero str, fun i => mem_written_zero⟩
  · simp only [if_neg hnum]
    have hspells := spells_size hbase hbase' num
    obtain ⟨k, hcount⟩ := hspells.returns_count 0
    obtain ⟨z, hwrite⟩ := hspells.returns_write str 0
    obtain ⟨r, hreverse, hr, hwritten⟩ :=
      returns_reversed str (zero_not_mem_digits hbase hbase' num)
    rw [Nat.zero_add] at hwrite
    rw [← List.map_reverse] at hr
    refine ⟨r, hcount.bind (hwrite.bind hreverse), hr, fun i => ?_⟩
    rw [List.length_map, List.length_reverse, ← List.length_map symbol]
    exact hwritten i

end

/-! ## Numbers with a sign -/

section

variable {base : ℕ} {num : BitVec 32} {str : Cells Byte}

theorem intSize_of_lt (h : num.toNat < 2 ^ 31) : intSize num = num.toNat := by
  have hmsb : num.msb = false := by
    rw [BitVec.msb_eq_decide]
    exact decide_eq_false (by omega)
  rw [intSize, BitVec.toNat_signExtend, hmsb, BitVec.toNat_setWidth, Nat.mod_eq_of_lt (by omega)]
  rfl

theorem intSize_of_ge (h : 2 ^ 31 ≤ num.toNat) : intSize num = num.toNat + (2 ^ 64 - 2 ^ 32) := by
  have hmsb : num.msb = true := by
    rw [BitVec.msb_eq_decide]
    exact decide_eq_true (by omega)
  rw [intSize, BitVec.toNat_signExtend, hmsb, BitVec.toNat_setWidth, Nat.mod_eq_of_lt (by omega)]
  rfl

theorem intDigitChar_eq : ∀ d < 36, intDigitChar (BitVec.ofNat 32 d) = digitChar d := by decide

/-- A number that is not negative spells its digits. -/
theorem spells_int (hbase : 2 ≤ base) (hbase' : base ≤ 36) (h : num.toNat < 2 ^ 31) :
    (intNumeral base).Spells num ((Nat.digits base num.toNat).map symbol) := by
  rw [← map_digitChar hbase hbase']
  induction hn : num.toNat using Nat.strongRecOn generalizing num with
  | ind n ih =>
    subst hn
    rcases Nat.eq_zero_or_pos num.toNat with hzero | hpos
    · rw [hzero, Nat.digits_zero]
      exact .zero (by simpa [intNumeral] using BitVec.eq_of_toNat_eq hzero)
    · have hlt := Nat.div_lt_self hpos hbase
      have hrest : ((intNumeral base).rest num).toNat = num.toNat / base := by
        show (BitVec.ofNat 32 (intSize num / base)).toNat = _
        rw [intSize_of_lt h, BitVec.toNat_ofNat, Nat.mod_eq_of_lt (by omega)]
      have hdigit : (intNumeral base).digit num = digitChar (num.toNat % base) := by
        show intDigitChar (BitVec.ofNat 32 (intSize num % base)) = _
        rw [intSize_of_lt h]
        exact intDigitChar_eq _ ((Nat.mod_lt _ (by omega)).trans_le hbase')
      rw [Nat.digits_def' hbase hpos, List.map_cons, ← hdigit]
      refine .digit (beq_eq_false_iff_ne.2 fun hzero => ?_) (ih _ hlt (hrest ▸ hlt.trans h) hrest)
      rw [hzero] at hpos
      exact absurd hpos (by decide)

/-- `itoa` of a number that is not zero, whose digits, of its opposite when it is negative and in
base 10, are spelled. -/
theorem returns_itoa_of_spells (hnum : num ≠ 0) {cs : List Byte} (hcs : 0 ∉ cs)
    (h : (intNumeral base).Spells (if num.toInt < 0 ∧ base = 10 then -num else num) cs) :
    ∃ r, Returns (fun n => itoa num base str n) r ∧
      HoldsString r (if num.toInt < 0 ∧ base = 10 then 0x2D :: cs.reverse else cs.reverse) ∧
      ∀ i, i ∈ r.written ↔ i ∈ str.written ∨
        i ≤ cs.length + if num.toInt < 0 ∧ base = 10 then 1 else 0 := by
  obtain ⟨k, hcount⟩ := h.returns_count 0
  obtain ⟨z, hwrite⟩ := h.returns_write str 0
  rw [Nat.zero_add] at hwrite
  simp only [itoa, if_neg hnum]
  by_cases hneg : num.toInt < 0 ∧ base = 10
  · simp only [if_pos hneg] at hcount hwrite ⊢
    have hsign : (str.puts 0 cs).set cs.length 0x2D = str.puts 0 (cs ++ [0x2D]) := by
      rw [Cells.puts_append, Nat.zero_add]
      rfl
    obtain ⟨r, hreverse, hr, hwritten⟩ :=
      returns_reversed str (show 0 ∉ cs ++ [0x2D] by simpa using hcs)
    rw [List.reverse_append] at hr
    rw [List.length_append, List.length_singleton] at hreverse hwritten
    exact ⟨r, hcount.bind (hwrite.bind (by simpa only [hsign] using hreverse)), hr, hwritten⟩
  · simp only [if_neg hneg] at hcount hwrite ⊢
    obtain ⟨r, hreverse, hr, hwritten⟩ := returns_reversed str hcs
    exact ⟨r, hcount.bind (hwrite.bind hreverse), hr, hwritten⟩

end

end SmartOS
