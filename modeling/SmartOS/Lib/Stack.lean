import Mathlib.Tactic

/-!
# Stacks of words

A stack that grows downwards through a memory of 64-bit words, which are 8 bytes
apart: `Holds m a ws` says that the words `ws` lie from the address `a` on, the
last one pushed first.

* `Holds.push`: one more word, below;
* `Holds.pop`: what the topmost word is, and what lies above it.
-/

namespace Prog

/-- The word at each address. -/
abbrev WordMem := ℕ → ℕ

/-- The words `ws` lie from `a` on. -/
def Holds (m : WordMem) : ℕ → List ℕ → Prop
  | _, [] => True
  | a, w :: ws => m a = w ∧ Holds m (a + 8) ws

variable {m : WordMem} {a b w : ℕ} {ws : List ℕ}

/-- A word changed below. -/
theorem Holds.update_of_lt (h : Holds m a ws) (hb : b < a) :
    Holds (Function.update m b w) a ws := by
  induction ws generalizing a with
  | nil => exact trivial
  | cons w' ws ih =>
    obtain ⟨hw, hws⟩ := h
    exact ⟨by rw [Function.update_of_ne hb.ne', hw], ih hws (by omega)⟩

theorem Holds.push (h : Holds m a ws) (ha : 8 ≤ a) :
    Holds (Function.update m (a - 8) w) (a - 8) (w :: ws) := by
  refine ⟨Function.update_self _ _ _, ?_⟩
  rw [Nat.sub_add_cancel ha]
  exact h.update_of_lt (by omega)

theorem Holds.pop (h : Holds m a (w :: ws)) : m a = w ∧ Holds m (a + 8) ws := h

/-- The words are those that lie there. -/
theorem Holds.eq {ws' : List ℕ} (h : Holds m a ws) (h' : Holds m a ws')
    (hlength : ws.length = ws'.length) : ws = ws' := by
  induction ws generalizing a ws' with
  | nil => exact (List.length_eq_zero_iff.1 hlength.symm).symm
  | cons w ws ih =>
    cases ws' with
    | nil => simp at hlength
    | cons w' ws' =>
      rw [h.1.symm.trans h'.1, ih h.2 h'.2 (by simpa using hlength)]

end Prog
