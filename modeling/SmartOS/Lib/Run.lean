import Mathlib.Tactic

/-!
# Runs of a transition system

A system steps from a state to another under an event, which says what was done
and what was observed. A *run* is a sequence of steps, the last event last
(`Run`), so that what a state has seen is the list of the events before it.

* `Run.invariant`: what holds at the start, and is kept by every step, holds in
  every state reached;
* `Run.history`: the same for what relates a state to the events before it;
* `Run.simulation`: a system whose every step is matched, under a relation `R`,
  by the same event of another system, only has runs that the other one has;
* `Run.project`: a run of a system is one of a part of it, whose events are some of
  the system's;
* `Run.expand`: the same where each step is a run of the other system;
* `Since`: an event has happened, and none of some others after it.
-/

namespace Prog

variable {σ τ ε δ : Type*}

/-- `Run step s₀ es s`: the events `es` may lead from `s₀` to `s`. -/
inductive Run (step : σ → ε → σ → Prop) (s₀ : σ) : List ε → σ → Prop
  | nil : Run step s₀ [] s₀
  | snoc {es : List ε} {s s' : σ} {e : ε} : Run step s₀ es s → step s e s' →
      Run step s₀ (es ++ [e]) s'

namespace Run

variable {step : σ → ε → σ → Prop} {s₀ s : σ} {es : List ε}

theorem eq_of_nil (hr : Run step s₀ [] s) : s = s₀ := by
  generalize hes : ([] : List ε) = es at hr
  cases hr with
  | nil => rfl
  | snoc _ _ => simp at hes

/-- The last step of a run. -/
theorem exists_last {e : ε} (hr : Run step s₀ (es ++ [e]) s) :
    ∃ s', Run step s₀ es s' ∧ step s' e s := by
  generalize hes : es ++ [e] = es' at hr
  cases hr with
  | nil => simp at hes
  | snoc hr hs =>
    obtain ⟨rfl, he⟩ := List.append_inj' hes rfl
    cases he
    exact ⟨_, hr, hs⟩

/-- The step of a run of a single step. -/
theorem step_of_singleton {e : ε} (hr : Run step s₀ [e] s) : step s₀ e s := by
  obtain ⟨s', hr', hs⟩ := exists_last (show Run step s₀ ([] ++ [e]) s from hr)
  rwa [hr'.eq_of_nil] at hs

/-- A run passes through a state between any two parts of it. -/
theorem exists_mid {es' : List ε} (hr : Run step s₀ (es ++ es') s) :
    ∃ m, Run step s₀ es m ∧ Run step m es' s := by
  induction es' using List.reverseRecOn generalizing s with
  | nil => exact ⟨s, List.append_nil es ▸ hr, .nil⟩
  | append_singleton es' e ih =>
    rw [← List.append_assoc] at hr
    obtain ⟨s', hr, hs⟩ := hr.exists_last
    obtain ⟨m, hm, hm'⟩ := ih hr
    exact ⟨m, hm, hm'.snoc hs⟩

/-- The first step of a run. -/
theorem exists_first {e : ε} (hr : Run step s₀ (e :: es) s) :
    ∃ m, step s₀ e m ∧ Run step m es s := by
  obtain ⟨m, hm, hr⟩ := exists_mid (show Run step s₀ ([e] ++ es) s from hr)
  exact ⟨m, hm.step_of_singleton, hr⟩

/-- A run goes on where another one has ended. -/
theorem append {es' : List ε} {m : σ} (hr : Run step s₀ es m) (hr' : Run step m es' s) :
    Run step s₀ (es ++ es') s := by
  induction hr' with
  | nil => rwa [List.append_nil]
  | snoc _ hs ih =>
    rw [← List.append_assoc]
    exact ih.snoc hs

/-- What relates the state to the events before it. -/
theorem history (I : List ε → σ → Prop) (h₀ : I [] s₀)
    (hstep : ∀ es s e s', I es s → step s e s' → I (es ++ [e]) s') (hr : Run step s₀ es s) :
    I es s := by
  induction hr with
  | nil => exact h₀
  | snoc _ hs ih => exact hstep _ _ _ _ ih hs

/-- What every step keeps holds in every state reached. -/
theorem invariant (I : σ → Prop) (h₀ : I s₀) (hstep : ∀ s e s', I s → step s e s' → I s')
    (hr : Run step s₀ es s) : I s :=
  hr.history (fun _ s => I s) h₀ fun _ s e s' => hstep s e s'

/-- A run of a system whose steps are all matched by another is one of the other. -/
theorem simulation {step' : τ → ε → τ → Prop} {t₀ : τ} (R : σ → τ → Prop) (h₀ : R s₀ t₀)
    (hstep : ∀ s t e s', R s t → step s e s' → ∃ t', step' t e t' ∧ R s' t')
    (hr : Run step s₀ es s) : ∃ t, Run step' t₀ es t ∧ R s t := by
  induction hr with
  | nil => exact ⟨t₀, .nil, h₀⟩
  | snoc _ hs ih =>
    obtain ⟨t, ht, hR⟩ := ih
    obtain ⟨t', ht', hR'⟩ := hstep _ _ _ _ hR hs
    exact ⟨t', .snoc ht ht', hR'⟩

/-- A part of the system, of which every step is one of its own, or none. -/
theorem project {step' : τ → δ → τ → Prop} (π : σ → τ) (f : ε → Option δ)
    (hstep : ∀ s e s', step s e s' →
      (f e = none ∧ π s' = π s) ∨ ∃ d, f e = some d ∧ step' (π s) d (π s'))
    (hr : Run step s₀ es s) : Run step' (π s₀) (es.filterMap f) (π s) := by
  induction hr with
  | nil => exact .nil
  | snoc _ hs ih =>
    rw [List.filterMap_append]
    rcases hstep _ _ _ hs with ⟨hnone, hsame⟩ | ⟨d, hsome, hd⟩
    · rw [List.filterMap_cons_none hnone, List.filterMap_nil, List.append_nil, hsame]
      exact ih
    · rw [List.filterMap_cons_some hsome, List.filterMap_nil]
      exact ih.snoc hd

/-- A system each of whose steps is a run of another one. -/
theorem expand {step' : τ → δ → τ → Prop} (π : σ → τ) (f : ε → List δ)
    (hstep : ∀ s e s', step s e s' → Run step' (π s) (f e) (π s'))
    (hr : Run step s₀ es s) : Run step' (π s₀) (es.flatMap f) (π s) := by
  induction hr with
  | nil => exact .nil
  | snoc _ hs ih =>
    rw [List.flatMap_append, List.flatMap_singleton]
    exact ih.append (hstep _ _ _ hs)

end Run

/-! ## Since -/

/-- The event `e` has happened, and nothing of `Q` since. -/
def Since (e : ε) (Q : ε → Prop) (es : List ε) : Prop :=
  ∃ before after, es = before ++ e :: after ∧ ∀ e' ∈ after, ¬Q e'

theorem not_since_nil (e : ε) (Q : ε → Prop) : ¬Since e Q [] := by
  rintro ⟨before, after, hes, -⟩
  simp at hes

theorem since_snoc {e e' : ε} {Q : ε → Prop} {es : List ε} :
    Since e Q (es ++ [e']) ↔ e' = e ∨ (Since e Q es ∧ ¬Q e') := by
  constructor
  · rintro ⟨before, after, hes, hafter⟩
    induction after using List.reverseRecOn with
    | nil => exact .inl (List.cons.inj (List.append_inj' hes rfl).2).1
    | append_singleton after last _ =>
      rw [← List.cons_append, ← List.append_assoc] at hes
      obtain ⟨rfl, hlast⟩ := List.append_inj' hes rfl
      obtain rfl := (List.cons.inj hlast).1
      exact .inr ⟨⟨before, after, rfl, fun e h => hafter e (List.mem_append_left _ h)⟩,
        hafter e' (List.mem_append_right _ List.mem_cons_self)⟩
  · rintro (rfl | ⟨⟨before, after, rfl, hafter⟩, he⟩)
    · exact ⟨es, [], rfl, fun _ h => absurd h List.not_mem_nil⟩
    · refine ⟨before, after ++ [e'], by rw [List.append_assoc, List.cons_append], fun e h => ?_⟩
      rcases List.mem_append.1 h with h | h
      · exact hafter e h
      · rwa [List.mem_singleton.1 h]

end Prog
