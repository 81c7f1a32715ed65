import SmartOS.Lib.Loop

/-!
# Programs on two levels

A program that runs on a machine of its own should do what the same program does on an
ideal one. Their results are related (`Option.Rel`): with the same fuel, both have none,
or results that are. Programs that are put together of related parts, in the same way,
are related:

* `rel_loop`: loops, whose rounds go on or leave together;
* `rel_bind`, `rel_andThen`: one program after another.

What comes back from a machine is paired with its state. `Over view x` says that the
state shows `x` on the ideal one.
-/

namespace Prog

variable {σ σ' τ τ' α α' β β' δ : Type*}

/-- The first one is the second one, on a machine in a state that shows `x`. -/
def Over (view : δ → σ) (x : σ) (a : α × δ) (b : α) : Prop := a.1 = b ∧ view a.2 = x

theorem over_mk {view : δ → σ} {x : σ} {a : α} {d : δ} (h : view d = x) : Over view x (a, d) a :=
  ⟨rfl, h⟩

section

variable {R : σ' → σ → Prop} {Q : α' → α → Prop} {S : β' → β → Prop}

/-- Loops that go on together, from related states, and leave together. -/
theorem rel_loop {body' : σ' → σ' ⊕ α'} {body : σ → σ ⊕ α}
    (h : ∀ s' s, R s' s → Sum.LiftRel R Q (body' s') (body s)) {s' : σ'} {s : σ} (hs : R s' s)
    (n : ℕ) : Option.Rel Q (loop body' n s') (loop body n s) := by
  induction n generalizing s' s with
  | zero => exact .none
  | succ n ih =>
    have hbody := h s' s hs
    cases hb' : body' s' with
    | inl t' =>
      cases hb : body s with
      | inl t =>
        rw [hb', hb, Sum.liftRel_inl_inl] at hbody
        rw [loop_next hb', loop_next hb]
        exact ih hbody
      | inr a => simp [hb', hb] at hbody
    | inr a' =>
      cases hb : body s with
      | inl t => simp [hb', hb] at hbody
      | inr a =>
        rw [hb', hb, Sum.liftRel_inr_inr] at hbody
        rw [loop_exit hb', loop_exit hb]
        exact .some hbody

/-- The same of `while` loops. -/
theorem rel_while {cond' : σ' → Bool} {cond : σ → Bool} {next' : σ' → σ'} {next : σ → σ}
    (hcond : ∀ s' s, R s' s → cond' s' = cond s) (hnext : ∀ s' s, R s' s → R (next' s') (next s))
    {s' : σ'} {s : σ} (hs : R s' s) (n : ℕ) :
    Option.Rel R (loop (whileDo cond' next') n s') (loop (whileDo cond next) n s) := by
  refine rel_loop (fun s' s hs => ?_) hs n
  rw [whileDo, whileDo, hcond s' s hs]
  split
  · exact .inl (hnext s' s hs)
  · exact .inr hs

theorem rel_bind {x' : Option α'} {x : Option α} {f' : α' → Option β'} {f : α → Option β}
    (hx : Option.Rel Q x' x) (hf : ∀ a' a, Q a' a → Option.Rel S (f' a') (f a)) :
    Option.Rel S (x'.bind f') (x.bind f) := by
  cases hx with
  | none => exact .none
  | some h => exact hf _ _ h

theorem rel_andThen {x' : Option (Option α')} {x : Option (Option α)}
    {f' : α' → Option (Option β')} {f : α → Option (Option β)}
    (hx : Option.Rel (Option.Rel Q) x' x)
    (hf : ∀ a' a, Q a' a → Option.Rel (Option.Rel S) (f' a') (f a)) :
    Option.Rel (Option.Rel S) (andThen x' f') (andThen x f) := by
  refine rel_bind hx fun a' a ha => ?_
  cases ha with
  | none => exact .some .none
  | some h => exact hf _ _ h

end

end Prog
