import SmartOS.Lib.Memory

/-!
# Bytes and machine words

The functions of `SmartOS.cpp` on ranges of bytes, as the loops they are
(`memset`, `memcpy`), and what they amount to: a range filled, a range copied.
`memcpy` goes forward, byte by byte, so it is a copy when the range it reads is
not overwritten by its own earlier bytes; between two objects (a buffer and the
data of a caller) it always is (`memcpyFrom`).

Machine words are natural numbers, reduced modulo `2 ^ 64` where the program
computes in 64 bits (`wrap`).
-/

namespace SmartOS

open Prog

/-- A value computed in 64 bits. -/
@[irreducible]
def wrap (n : ℕ) : ℕ := n % 2 ^ 64

theorem wrap_eq_mod (n : ℕ) : wrap n = n % 2 ^ 64 := by rw [wrap]

theorem wrap_of_lt {n : ℕ} (h : n < 2 ^ 64) : wrap n = n := by
  rw [wrap_eq_mod, Nat.mod_eq_of_lt h]

theorem wrap_lt (n : ℕ) : wrap n < 2 ^ 64 := by
  rw [wrap_eq_mod]
  exact Nat.mod_lt n (by decide)

/-- A difference computed in 64 bits, wrapping around below zero. -/
@[irreducible]
def wrapSub (a b : ℕ) : ℕ := (a + (2 ^ 64 - b % 2 ^ 64)) % 2 ^ 64

theorem wrapSub_eq_mod (a b : ℕ) : wrapSub a b = (a + (2 ^ 64 - b % 2 ^ 64)) % 2 ^ 64 := by
  rw [wrapSub]

theorem wrapSub_lt (a b : ℕ) : wrapSub a b < 2 ^ 64 := by
  rw [wrapSub_eq_mod]
  exact Nat.mod_lt _ (by decide)

theorem wrapSub_of_le {a b : ℕ} (hb : b ≤ a) (ha : a < 2 ^ 64) : wrapSub a b = a - b := by
  rw [wrapSub_eq_mod]
  omega

/-- The multiples of `d`, from any on, go up to `2 ^ 64` less what divides both. -/
theorem exists_le_wrap_mul_iff {a d i : ℕ} :
    (∃ k, i ≤ k ∧ a ≤ wrap (k * d)) ↔ a ≤ 2 ^ 64 - Nat.gcd d (2 ^ 64) := by
  have hdvd := Nat.gcd_dvd_right d (2 ^ 64)
  have hdvd' := Nat.gcd_dvd_left d (2 ^ 64)
  have hgcd := @Nat.exists_mul_mod_eq_gcd (2 ^ 64) d
  generalize Nat.gcd d (2 ^ 64) = g at *
  constructor
  · rintro ⟨k, -, ha⟩
    have hlt := wrap_lt (k * d)
    have hmul : g ∣ 2 ^ 64 - wrap (k * d) := by
      rw [wrap_eq_mod]
      exact Nat.dvd_sub hdvd ((Nat.dvd_mod_iff hdvd).2 (hdvd'.mul_left k))
    have hle := Nat.le_of_dvd (Nat.sub_pos_of_lt hlt) hmul
    omega
  · intro ha
    rcases (Nat.le_of_dvd (by decide) hdvd).lt_or_eq with hlt | rfl
    · obtain ⟨m, -, hm⟩ := hgcd hlt
      obtain ⟨q, hq⟩ := hdvd
      -- `m` times `d` is `g`, and `q - 1` times that is the last multiple.
      refine ⟨m * (q - 1) + i * 2 ^ 64, ?_, ?_⟩
      · have := Nat.le_mul_of_pos_right i (by decide : 0 < 2 ^ 64)
        omega
      · have hmul : (m * (q - 1) + i * 2 ^ 64) * d = d * m * (q - 1) + i * d * 2 ^ 64 := by ring
        have hlast : g * (q - 1) = 2 ^ 64 - g := by rw [Nat.mul_sub, Nat.mul_one, ← hq]
        have hpos : 0 < g := Nat.pos_of_ne_zero fun h => by simp [h] at hq
        rw [wrap_eq_mod, hmul, Nat.add_mul_mod_self_right, Nat.mul_mod, hm, Nat.mul_mod_mod, hlast,
          Nat.mod_eq_of_lt (by omega)]
        exact ha
    · exact ⟨i, le_rfl, by omega⟩

def memset (m : Mem) (dest : ℕ) (val : Byte) (size : ℕ) : Mem :=
  (List.range size).foldl (fun m i => m.set (dest + i) val) m

def memcpy (m : Mem) (dest src len : ℕ) : Mem :=
  (List.range len).foldl (fun m i => m.set (dest + i) (m (src + i))) m

/-- `memcpy` from another object, whose bytes are those of `from`. -/
def memcpyFrom (m : Mem) (dest : ℕ) (from' : Mem) (src len : ℕ) : Mem :=
  (List.range len).foldl (fun m i => m.set (dest + i) (from' (src + i))) m

theorem memset_eq_fill (m : Mem) (dest : ℕ) (val : Byte) (size : ℕ) :
    memset m dest val size = m.fill dest size val := by
  induction size with
  | zero => funext x; simp [memset, Mem.fill]
  | succ n ih =>
    rw [memset, List.range_succ, List.foldl_append, ← memset, ih]
    funext x
    simp only [List.foldl_cons, List.foldl_nil, Mem.set, Mem.fill]
    grind

theorem memcpyFrom_eq_copy (m : Mem) (dest : ℕ) (from' : Mem) (src len : ℕ) :
    memcpyFrom m dest from' src len = m.copy dest from' src len := by
  induction len with
  | zero => funext x; simp [memcpyFrom, Mem.copy]
  | succ n ih =>
    rw [memcpyFrom, List.range_succ, List.foldl_append, ← memcpyFrom, ih]
    funext x
    simp only [List.foldl_cons, List.foldl_nil, Mem.set, Mem.copy]
    grind

/-- `memcpy` writes nothing but its destination. -/
theorem memcpy_of_not_mem {m : Mem} {dest src len x : ℕ} (hx : x ∉ Set.Ico dest (dest + len)) :
    memcpy m dest src len x = m x := by
  induction len with
  | zero => rfl
  | succ n ih =>
    rw [Set.mem_Ico] at hx
    rw [memcpy, List.range_succ, List.foldl_append, ← memcpy, List.foldl_cons, List.foldl_nil,
      Mem.set_of_ne (by omega), ih (by rw [Set.mem_Ico]; omega)]

/-- Within one memory, `memcpy` is a copy unless it reads a byte that it has already written. -/
theorem memcpy_eq_copy {m : Mem} {dest src len : ℕ} (h : dest ≤ src ∨ src + len ≤ dest) :
    memcpy m dest src len = m.copy dest m src len := by
  induction len with
  | zero => funext x; simp [memcpy, Mem.copy]
  | succ n ih =>
    rw [memcpy, List.range_succ, List.foldl_append, ← memcpy, ih (by omega)]
    -- The byte read in the last round is not among the `n` bytes written before.
    have hread : m.copy dest m src n (src + n) = m (src + n) :=
      Mem.copy_of_not_mem (by omega)
    funext x
    simp only [List.foldl_cons, List.foldl_nil, hread]
    simp only [Mem.set, Mem.copy]
    grind

end SmartOS
