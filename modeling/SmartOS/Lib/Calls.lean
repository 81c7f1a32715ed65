import Mathlib.Tactic

/-!
# Programs that call an environment

A program that calls an environment (`Caller`) is done with a result, gives up
with an error, or makes a call and goes on with the reply. Run in an environment
that replies to every call (`Caller.run`), it makes some calls, in order, and
ends one way or the other.

A program is *checked* (`Checked`) when a bad reply makes it give up at once, with
an error that the reply determines. Checked programs compose (`Checked.bind`), and
none of their runs goes on after a bad reply (`Checked.run`). `Makes` is the
specification of a program that gives up exactly when there is a bad reply, or
something else is wrong.
-/

namespace Prog

universe u

variable {κ ρ ε : Type*} {α β : Type u}

/-- A program with results in `α` that makes calls in `κ`, with replies in `ρ`. -/
inductive Caller (κ ρ ε : Type*) (α : Type u)
  | done (a : α)
  | fail (e : ε)
  | call (c : κ) (next : ρ → Caller κ ρ ε α)

namespace Caller

/-- One program after another. -/
def bind : Caller κ ρ ε α → (α → Caller κ ρ ε β) → Caller κ ρ ε β
  | done a, f => f a
  | fail e, _ => fail e
  | call c next, f => call c fun r => (next r).bind f

instance : Monad (Caller κ ρ ε) where
  pure := done
  bind := bind

/-- The calls that a program makes, and how it ends. -/
def run (env : κ → ρ) : Caller κ ρ ε α → List κ × Except ε α
  | done a => ([], .ok a)
  | fail e => ([], .error e)
  | call c next =>
    let (calls, result) := (next (env c)).run env
    (c :: calls, result)

/-- A bad reply is the end of the program, with the error `err`. -/
def Checked (bad : ρ → Prop) (err : ρ → ε) : Caller κ ρ ε α → Prop
  | done _ => True
  | fail _ => True
  | call _ next => ∀ r, (bad r → next r = fail (err r)) ∧ (¬bad r → (next r).Checked bad err)

variable {env : κ → ρ} {bad : ρ → Prop} {err : ρ → ε} {p : Caller κ ρ ε α}
  {f : α → Caller κ ρ ε β}

theorem run_bind : (p.bind f).run env =
    match p.run env with
    | (calls, .ok a) => (calls ++ ((f a).run env).1, ((f a).run env).2)
    | (calls, .error e) => (calls, .error e) := by
  induction p with
  | done a => rfl
  | fail e => rfl
  | call c next ih =>
    simp only [bind, run, ih]
    rcases (next (env c)).run env with ⟨calls, _ | a⟩ <;> rfl

/-- A part that gives a result. -/
theorem run_bind_of_ok {calls : List κ} {a : α} (h : p.run env = (calls, .ok a)) :
    (p.bind f).run env = (calls ++ ((f a).run env).1, ((f a).run env).2) := by
  rw [run_bind, h]

/-- A part that gives up. -/
theorem run_bind_of_error {calls : List κ} {e : ε} (h : p.run env = (calls, .error e)) :
    (p.bind f).run env = (calls, .error e) := by
  rw [run_bind, h]

theorem Checked.bind (hp : p.Checked bad err) (hf : ∀ a, (f a).Checked bad err) :
    (p.bind f).Checked bad err := by
  induction p with
  | done a => exact hf a
  | fail e => exact trivial
  | call c next ih =>
    refine fun r => ⟨fun hr => ?_, fun hr => ih r ((hp r).2 hr)⟩
    show (next r).bind f = _
    rw [(hp r).1 hr]
    rfl

/-- A bad reply is the last one, and makes the program give up. -/
def Stops (bad : ρ → Prop) (err : ρ → ε) (env : κ → ρ) (p : Caller κ ρ ε α) : Prop :=
  ∀ before c after, (p.run env).1 = before ++ c :: after → bad (env c) →
    after = [] ∧ (p.run env).2 = .error (err (env c))

/-- In a run of a checked program, a bad reply is the last one. -/
theorem Checked.run (hp : p.Checked bad err) : p.Stops bad err env := by
  induction p with
  | done a => exact fun before c after h => by simp [Caller.run] at h
  | fail e => exact fun before c after h => by simp [Caller.run] at h
  | call c' next ih =>
    intro before c after h hbad
    simp only [Caller.run] at h ⊢
    cases before with
    | nil =>
      obtain ⟨rfl, hafter⟩ := List.cons.inj h
      rw [(hp _).1 hbad] at hafter ⊢
      exact ⟨hafter.symm, rfl⟩
    | cons b before =>
      obtain ⟨rfl, hafter⟩ := List.cons.inj h
      by_cases hbad' : bad (env c')
      · rw [(hp _).1 hbad'] at hafter
        simp [Caller.run] at hafter
      · exact ih _ ((hp _).2 hbad') before c after hafter hbad

/-- If `good` and no reply is bad, the program makes `calls`, with the result `a`. Else it gives
    up. -/
structure Makes (bad : ρ → Prop) (env : κ → ρ) (p : Caller κ ρ ε α) (calls : List κ) (good : Prop)
    (a : α) : Prop where
  ok : (∀ c ∈ calls, ¬bad (env c)) → good → p.run env = (calls, .ok a)
  error : ¬((∀ c ∈ calls, ¬bad (env c)) ∧ good) → ∃ calls e, p.run env = (calls, .error e)

theorem Makes.bind {calls calls' : List κ} {good good' : Prop} {a : α} {b : β}
    (hp : p.Makes bad env calls good a) (hf : (f a).Makes bad env calls' good' b) :
    (p.bind f).Makes bad env (calls ++ calls') (good ∧ good') b where
  ok hcalls hgood := by
    rw [List.forall_mem_append] at hcalls
    rw [run_bind_of_ok (hp.ok hcalls.1 hgood.1), hf.ok hcalls.2 hgood.2]
  error hnot := by
    rw [List.forall_mem_append] at hnot
    by_cases h : (∀ c ∈ calls, ¬bad (env c)) ∧ good
    · obtain ⟨calls', e, hrun⟩ := hf.error fun h' => hnot ⟨⟨h.1, h'.1⟩, h.2, h'.2⟩
      exact ⟨_, _, by rw [run_bind_of_ok (hp.ok h.1 h.2), hrun]⟩
    · obtain ⟨calls', e, hrun⟩ := hp.error h
      exact ⟨_, _, run_bind_of_error hrun⟩

theorem makes_done (a : α) : (done a : Caller κ ρ ε α).Makes bad env [] True a where
  ok _ _ := rfl
  error h := absurd ⟨fun _ h => absurd h List.not_mem_nil, trivial⟩ h

/-- A test that makes the program give up. -/
theorem makes_ite {good : Prop} [Decidable good] (e : ε) (a : α) :
    (if ¬good then fail e else done a : Caller κ ρ ε α).Makes bad env [] good a where
  ok _ h := by rw [if_neg (not_not.2 h)]; rfl
  error h := by
    rw [if_pos fun hgood => h ⟨fun _ h => absurd h List.not_mem_nil, hgood⟩]
    exact ⟨_, _, rfl⟩

end Caller

end Prog
