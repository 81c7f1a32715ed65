import Mathlib.Tactic

/-!
# Cells

The cells of an array that a program writes to, together with the indices it has
written (`Cells`), so that bounds on the indices can be stated. Where it has not been
written, what it holds is arbitrary.

* `puts`: values written one after another, and `Holds`: the values from the start
  on;
* `mirror`: an array of which the outer pairs have been exchanged, up to one, which
  is reversed when the pairs meet (`mirror_of_le`).
-/

namespace Prog

variable {α : Type*}

structure Cells (α : Type*) where
  vals : ℕ → α
  written : List ℕ

namespace Cells

def set (b : Cells α) (i : ℕ) (x : α) : Cells α := ⟨Function.update b.vals i x, b.written ++ [i]⟩

/-- Values written from the index `i` on. -/
def puts (b : Cells α) : ℕ → List α → Cells α
  | _, [] => b
  | i, x :: xs => (b.set i x).puts (i + 1) xs

/-- The buffer starts with these values. -/
def Holds (b : Cells α) (xs : List α) : Prop := ∀ i < xs.length, xs[i]? = some (b.vals i)

variable {b : Cells α} {i j : ℕ} {x : α} {xs ys : List α}

@[simp]
theorem vals_set_self : (b.set i x).vals i = x := by
  simp [set]

theorem vals_set_of_ne (h : j ≠ i) : (b.set i x).vals j = b.vals j := by
  simp [set, h]

theorem mem_written_set : j ∈ (b.set i x).written ↔ j ∈ b.written ∨ j = i := by
  rw [set, List.mem_append, List.mem_singleton]

theorem vals_puts_of_lt (h : j < i) : (b.puts i xs).vals j = b.vals j := by
  induction xs generalizing b i with
  | nil => rfl
  | cons x xs ih => rw [puts, ih (by omega), vals_set_of_ne (by omega)]

theorem vals_puts (h : j < xs.length) : xs[j]? = some ((b.puts i xs).vals (i + j)) := by
  induction xs generalizing b i j with
  | nil => exact absurd h (Nat.not_lt_zero j)
  | cons x xs ih =>
    rw [puts]
    cases j with
    | zero =>
      have hfirst : ((b.set i x).puts (i + 1) xs).vals i = x := by
        rw [vals_puts_of_lt (Nat.lt_succ_self i), vals_set_self]
      exact congrArg some hfirst.symm
    | succ j =>
      rw [List.getElem?_cons_succ, ih (b := b.set i x) (i := i + 1) (Nat.lt_of_succ_lt_succ h)]
      congr 2
      omega

theorem mem_written_puts :
    j ∈ (b.puts i xs).written ↔ j ∈ b.written ∨ i ≤ j ∧ j < i + xs.length := by
  induction xs generalizing b i with
  | nil => simp [puts]
  | cons x xs ih =>
    rw [puts, ih, mem_written_set, List.length_cons, or_assoc]
    exact or_congr Iff.rfl (by omega)

theorem puts_append : b.puts i (xs ++ ys) = (b.puts i xs).puts (i + xs.length) ys := by
  induction xs generalizing b i with
  | nil => rfl
  | cons x xs ih =>
    rw [List.cons_append, puts, puts, ih, List.length_cons]
    congr 1
    omega

theorem holds_puts (b : Cells α) (xs : List α) : (b.puts 0 xs).Holds xs := fun i h => by
  rw [vals_puts h, Nat.zero_add]

theorem Holds.set_of_le (h : b.Holds xs) (hi : xs.length ≤ i) : (b.set i x).Holds xs :=
  fun j hj => by rw [vals_set_of_ne (by omega), h j hj]

/-- What a buffer starts with, up to a value that is not among them. -/
theorem Holds.unique (h : b.Holds xs) (h' : b.Holds ys) (hlast : b.vals xs.length = x)
    (hlast' : b.vals ys.length = x) (hx : x ∉ xs) (hy : x ∉ ys) : xs = ys := by
  have hlen : xs.length = ys.length := by
    rcases lt_trichotomy xs.length ys.length with hlt | heq | hlt
    · exact absurd (List.mem_of_getElem? (hlast ▸ h' _ hlt)) hy
    · exact heq
    · exact absurd (List.mem_of_getElem? (hlast' ▸ h _ hlt)) hx
  refine List.ext_getElem? fun i => ?_
  rcases Nat.lt_or_ge i xs.length with hlt | hge
  · rw [h i hlt, h' i (hlen ▸ hlt)]
  · rw [List.getElem?_eq_none hge, List.getElem?_eq_none (hlen ▸ hge)]

end Cells

/-! ## Reversal in place -/

/-- The first `len` values of an array, of which the outer `k` pairs have been exchanged. -/
def mirror (m : ℕ → α) (len k : ℕ) : ℕ → α := fun i =>
  if i < len ∧ (i < k ∨ len - 1 - i < k) then m (len - 1 - i) else m i

section

variable {m : ℕ → α} {len k i : ℕ}

@[simp]
theorem mirror_zero : mirror m len 0 = m := by
  funext i
  simp [mirror]

/-- One more pair exchanged. -/
theorem mirror_succ (h : k < len - 1 - k) :
    Function.update (Function.update (mirror m len k) k (mirror m len k (len - 1 - k)))
      (len - 1 - k) (mirror m len k k) = mirror m len (k + 1) := by
  funext i
  have hinner : ¬(len - 1 - k < len ∧ (len - 1 - k < k ∨ len - 1 - (len - 1 - k) < k)) := by omega
  have hk : ¬(k < len ∧ (k < k ∨ len - 1 - k < k)) := by omega
  simp only [Function.update_apply, mirror, if_neg hinner, if_neg hk]
  split_ifs <;> first | rfl | omega | (congr 1; omega)

/-- When the pairs meet, the values are reversed. -/
theorem mirror_of_le (h : len - 1 - k ≤ k) (hi : i < len) : mirror m len k i = m (len - 1 - i) := by
  rw [mirror]
  split_ifs with hpair
  · rfl
  · congr 1
    omega

theorem mirror_of_ge (hi : len ≤ i) : mirror m len k i = m i := if_neg fun h => by omega

end

end Prog
