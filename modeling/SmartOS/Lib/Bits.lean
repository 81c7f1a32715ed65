import Mathlib.Tactic

/-!
# Bit fields of natural numbers

What masks, shifts and disjoint `or`s are in arithmetic, so that the words of a
program can be reasoned about with division and remainder, and what a test of a bit
says.
-/

namespace Prog

variable {a b e k n : ℕ}

/-- Keeping the field of `n` bits from bit `k` on. -/
theorem and_field (e k n : ℕ) : e &&& (2 ^ n - 1) * 2 ^ k = e / 2 ^ k % 2 ^ n * 2 ^ k := by
  apply Nat.eq_of_testBit_eq
  intro i
  simp only [Nat.testBit_and, Nat.testBit_mul_two_pow, Nat.testBit_two_pow_sub_one,
    Nat.testBit_mod_two_pow, Nat.testBit_div_two_pow]
  by_cases hk : k ≤ i
  · rw [Nat.sub_add_cancel hk]
    simp [hk, Bool.and_comm]
  · simp [hk]

/-- The field of `n` bits from bit `k` on, moved to bit `0`. -/
theorem shift_and_field (e k n : ℕ) : e >>> k &&& 2 ^ n - 1 = e / 2 ^ k % 2 ^ n := by
  rw [Nat.and_two_pow_sub_one_eq_mod, Nat.shiftRight_eq_div_pow]

/-- The same, first kept and then moved. -/
theorem and_field_shift (e k n : ℕ) : (e &&& (2 ^ n - 1) * 2 ^ k) >>> k = e / 2 ^ k % 2 ^ n := by
  rw [and_field, Nat.shiftRight_eq_div_pow, Nat.mul_div_cancel _ (Nat.two_pow_pos k)]

/-- An `or` of numbers without common bits is a sum. -/
theorem or_eq_add (ha : a % 2 ^ k = 0) (hb : b < 2 ^ k) : a ||| b = a + b := by
  obtain ⟨c, rfl⟩ := Nat.dvd_of_mod_eq_zero ha
  exact (Nat.two_pow_add_eq_or_of_lt hb c).symm

/-- A byte is tested for its bit `j`, in 32 bits: it has none from bit 8 on. -/
theorem byte_and_shift {j : ℕ} (c : BitVec 8) (hj : j < 32) :
    (c.setWidth 32 &&& 1#32 <<< j != 0) = c.getLsbD j := by
  have hne : BitVec.twoPow 32 j ≠ 0#32 := fun h => by
    simpa [BitVec.getLsbD_twoPow, hj] using congrArg (·.getLsbD j) h
  rw [← BitVec.twoPow_eq, BitVec.and_twoPow, BitVec.getLsbD_setWidth]
  cases c.getLsbD j <;> simp [hne, hj]

end Prog
