import Mathlib.Tactic

/-!
# Pools

A state may hold things that calls take out of it, one at a time and in order,
until it holds none (`TakesFirst`). Repeated calls (`outputs`) then return all of
them, each once, before they say that there is none (`TakesFirst.outputs_eq`).
-/

namespace Prog

variable {σ α β : Type*}

/-- What `n` calls return, one after the other. -/
def outputs (take : σ → α × σ) : ℕ → σ → List α
  | 0, _ => []
  | n + 1, s => (take s).1 :: outputs take n (take s).2

/-- From a state with `I`, which holds `held s`, a call takes out the first thing and returns its
    `name`; when there is none, it returns `none` and changes nothing. -/
structure TakesFirst (take : σ → α × σ) (I : σ → Prop) (held : σ → List β) (name : β → α)
    (none : α) : Prop where
  first : ∀ s b l, I s → held s = b :: l →
    (take s).1 = name b ∧ held (take s).2 = l ∧ I (take s).2
  empty : ∀ s, I s → held s = [] → take s = (none, s)

namespace TakesFirst

variable {take : σ → α × σ} {I : σ → Prop} {held : σ → List β} {name : β → α} {none : α} {n : ℕ}
  {s : σ}

theorem invariant (h : TakesFirst take I held name none) (hs : I s) : I (take s).2 := by
  cases hheld : held s with
  | nil => rwa [h.empty s hs hheld]
  | cons b l => exact (h.first s b l hs hheld).2.2

/-- Calls return what the state holds, and then that there is nothing. -/
theorem outputs_eq (h : TakesFirst take I held name none) (hs : I s) :
    outputs take n s = ((held s).map name ++ List.replicate n none).take n := by
  induction n generalizing s with
  | zero => rfl
  | succ n ih =>
    rw [outputs, ih (h.invariant hs)]
    cases hheld : held s with
    | nil =>
      rw [h.empty s hs hheld, hheld, List.map_nil, List.nil_append, List.nil_append,
        List.replicate_succ, List.take_succ_cons]
    | cons b l =>
      obtain ⟨hfst, hrest, -⟩ := h.first s b l hs hheld
      rw [hfst, hrest, List.map_cons, List.cons_append, List.take_succ_cons]
      congr 1
      -- One more of what is not reached is not reached either.
      rw [List.take_append, List.take_append, List.take_replicate, List.take_replicate]
      congr 2
      omega

end TakesFirst

end Prog
