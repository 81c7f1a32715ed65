import Mathlib.Tactic

/-!
# Loops

A program that may go round for ever is run with *fuel*: given `n`, it does at
most `n` rounds of each of its loops, and has no result (`none`) when they do
not suffice. Its meaning is what it does with enough fuel:

* `Returns f a`: from some fuel on, `f` has the result `a`;
* `Diverges f`: no fuel gives a result.

A loop is given by its body, which from a state either goes round again, in a
new state, or leaves with a result (`loop`); a loop with back jumps and a
`while` loop (`whileDo`) are both of this form.

* `Returns.bind` composes programs, `returns_loop_exit` and `returns_loop_next`
  unroll a loop;
* `returns_loop_of_measure` is total correctness: an invariant and a measure
  that decreases;
* `diverges_loop` is divergence: an invariant under which the loop always goes
  round again;
* `returns_whileDo_iff` says how often a `while` loop goes round.

More fuel does not change the result of a program made of loops (`Steady`), so
that a program that returns does so part by part (`Steady.of_bind`). A program
that may also fail has the result `none` then (`andThen`, and `forEach` for a loop
over a list). What a loop does on its way, also when it never returns, is its log
(`loopLog`).
-/

namespace Prog

variable {σ α β : Type*}

/-- With enough fuel, `f` has the result `a`. -/
def Returns (f : ℕ → Option α) (a : α) : Prop := ∃ N, ∀ n, N ≤ n → f n = some a

/-- No fuel gives `f` a result. -/
def Diverges (f : ℕ → Option α) : Prop := ∀ n, f n = none

namespace Returns

theorem pure (a : α) : Returns (fun _ => some a) a := ⟨0, fun _ _ => rfl⟩

/-- A program has at most one result. -/
theorem unique {f : ℕ → Option α} {a b : α} (ha : Returns f a) (hb : Returns f b) : a = b := by
  obtain ⟨N, hN⟩ := ha
  obtain ⟨M, hM⟩ := hb
  have h := (hN _ (le_max_left N M)).symm.trans (hM _ (le_max_right N M))
  exact Option.some.inj h

/-- One program after another. -/
theorem bind {f : ℕ → Option α} {g : α → ℕ → Option β} {a : α} {b : β} (hf : Returns f a)
    (hg : Returns (g a) b) : Returns (fun n => (f n).bind fun x => g x n) b := by
  obtain ⟨N, hN⟩ := hf
  obtain ⟨M, hM⟩ := hg
  refine ⟨max N M, fun n hn => ?_⟩
  show (f n).bind _ = some b
  rw [hN n ((le_max_left N M).trans hn), Option.bind_some, hM n ((le_max_right N M).trans hn)]

theorem map {f : ℕ → Option α} {a : α} (g : α → β) (hf : Returns f a) :
    Returns (fun n => (f n).map g) (g a) := by
  obtain ⟨N, hN⟩ := hf
  refine ⟨N, fun n hn => ?_⟩
  show (f n).map g = some (g a)
  rw [hN n hn, Option.map_some]

/-- After a program that returns `a`, the rest runs from `a`. -/
theorem bind_iff {f : ℕ → Option α} {g : α → ℕ → Option β} {a : α} {b : β} (hf : Returns f a) :
    Returns (fun n => (f n).bind fun x => g x n) b ↔ Returns (g a) b := by
  refine ⟨fun ⟨M, hM⟩ => ?_, hf.bind⟩
  obtain ⟨N, hN⟩ := hf
  refine ⟨max N M, fun n hn => ?_⟩
  have hbind : (f n).bind (fun x => g x n) = some b := hM n ((le_max_right N M).trans hn)
  rwa [hN n ((le_max_left N M).trans hn), Option.bind_some] at hbind

/-- A program that returns does so with some fuel. -/
theorem exists_fuel {f : ℕ → Option α} {a : α} (h : Returns f a) : ∃ n, f n = some a :=
  let ⟨N, hN⟩ := h; ⟨N, hN N le_rfl⟩

/-- One unit of fuel more or less does not matter. -/
theorem succ_iff {f : ℕ → Option α} {a : α} : Returns (fun n => f (n + 1)) a ↔ Returns f a := by
  constructor
  · rintro ⟨N, hN⟩
    refine ⟨N + 1, fun n hn => ?_⟩
    obtain ⟨n, rfl⟩ : ∃ k, n = k + 1 := ⟨n - 1, by omega⟩
    exact hN n (Nat.le_of_succ_le_succ hn)
  · rintro ⟨N, hN⟩
    exact ⟨N, fun n hn => hN (n + 1) (Nat.le_succ_of_le hn)⟩

end Returns

theorem Diverges.not_returns {f : ℕ → Option α} (h : Diverges f) (a : α) : ¬Returns f a :=
  fun ⟨N, hN⟩ => by simpa [h N] using hN N le_rfl

/-- What comes after a program that diverges never runs. -/
theorem Diverges.bind {f : ℕ → Option α} (g : α → ℕ → Option β) (h : Diverges f) :
    Diverges fun n => (f n).bind fun x => g x n := fun n => by
  show (f n).bind _ = none
  rw [h n, Option.bind_none]

/-- What comes after a program that returns `a` decides whether the whole diverges: with the fuel
    on which `f` has its result, it runs from `a`. -/
theorem Diverges.after {f : ℕ → Option α} {g : α → ℕ → Option β} {a : α}
    (hf : ∀ n x, f n = some x → x = a) (hg : Diverges (g a)) :
    Diverges fun n => (f n).bind fun x => g x n := fun n => by
  show (f n).bind _ = none
  cases hx : f n with
  | none => rfl
  | some x => rw [hf n x hx]; exact hg n

/-! ## Loops -/

/-- The loop with the given body, going round at most `n` times. -/
def loop (body : σ → σ ⊕ α) : ℕ → σ → Option α
  | 0, _ => none
  | n + 1, s =>
    match body s with
    | .inl s' => loop body n s'
    | .inr a => some a

/-- The body of a `while` loop. -/
def whileDo (cond : σ → Bool) (body : σ → σ) (s : σ) : σ ⊕ σ :=
  if cond s then .inl (body s) else .inr s

section

variable {body : σ → σ ⊕ α} {s s' : σ} {a : α}

@[simp]
theorem loop_zero : loop body 0 s = none := rfl

theorem loop_exit (h : body s = .inr a) (n : ℕ) : loop body (n + 1) s = some a := by
  simp [loop, h]

theorem loop_next (h : body s = .inl s') (n : ℕ) : loop body (n + 1) s = loop body n s' := by
  simp [loop, h]

/-- More fuel gives the same result. -/
theorem loop_mono {n m : ℕ} (hn : n ≤ m) (h : loop body n s = some a) :
    loop body m s = some a := by
  induction n generalizing m s with
  | zero => simp at h
  | succ n ih =>
    obtain ⟨m, rfl⟩ : ∃ k, m = k + 1 := ⟨m - 1, by omega⟩
    cases hb : body s with
    | inl s' =>
      rw [loop_next hb] at h ⊢
      exact ih (by omega) h
    | inr b =>
      rw [loop_exit hb] at h ⊢
      exact h

theorem returns_loop_iff : Returns (fun n => loop body n s) a ↔ ∃ n, loop body n s = some a :=
  ⟨Returns.exists_fuel, fun ⟨N, hN⟩ => ⟨N, fun _ hn => loop_mono hn hN⟩⟩

theorem returns_loop_exit (h : body s = .inr a) : Returns (fun n => loop body n s) a :=
  returns_loop_iff.2 ⟨1, loop_exit h 0⟩

theorem returns_loop_next (h : body s = .inl s') :
    Returns (fun n => loop body n s) a ↔ Returns (fun n => loop body n s') a := by
  rw [returns_loop_iff, returns_loop_iff]
  constructor
  · rintro ⟨n, hn⟩
    obtain _ | n := n
    · simp at hn
    · exact ⟨n, loop_next h n ▸ hn⟩
  · rintro ⟨n, hn⟩
    exact ⟨n + 1, (loop_next h n).trans hn⟩

/-- Whatever result a loop has at some fuel is its result with enough fuel. -/
theorem loop_eq_of_returns {n : ℕ} {b : α} (h : Returns (fun n => loop body n s) a)
    (hn : loop body n s = some b) : b = a :=
  (returns_loop_iff.2 ⟨n, hn⟩).unique h

/-- Total correctness: under the invariant `I`, every round either goes on, keeping the invariant
    and decreasing the measure `m`, or leaves with a result that satisfies `Q`. -/
theorem returns_loop_of_measure (I : σ → Prop) (m : σ → ℕ) {Q : α → Prop}
    (h : ∀ s, I s → (∃ s', body s = .inl s' ∧ I s' ∧ m s' < m s) ∨ ∃ a, body s = .inr a ∧ Q a)
    (hs : I s) : ∃ a, Returns (fun n => loop body n s) a ∧ Q a := by
  induction hm : m s using Nat.strongRecOn generalizing s with
  | ind k ih =>
    rcases h s hs with ⟨s', hb, hI, hlt⟩ | ⟨a, hb, hQ⟩
    · obtain ⟨a, ha, hQ⟩ := ih (m s') (hm ▸ hlt) hI rfl
      exact ⟨a, (returns_loop_next hb).2 ha, hQ⟩
    · exact ⟨a, returns_loop_exit hb, hQ⟩

/-- Partial correctness: what holds of every result that a round leaves with, under an invariant
    that every round keeps, holds of the result of the loop. -/
theorem loop_induction (I : σ → Prop) {Q : α → Prop} (hnext : ∀ s s', I s → body s = .inl s' → I s')
    (hexit : ∀ s a, I s → body s = .inr a → Q a) {n : ℕ} (hs : I s) (h : loop body n s = some a) :
    Q a := by
  induction n generalizing s with
  | zero => simp at h
  | succ n ih =>
    cases hb : body s with
    | inl s' => exact ih (hnext s s' hs hb) (loop_next hb n ▸ h)
    | inr b =>
      rw [loop_exit hb] at h
      exact Option.some.inj h ▸ hexit s b hs hb

/-- Divergence: under the invariant `I`, every round goes on and keeps the invariant. -/
theorem diverges_loop (I : σ → Prop) (h : ∀ s, I s → ∃ s', body s = .inl s' ∧ I s') (hs : I s) :
    Diverges fun n => loop body n s := fun n => by
  induction n generalizing s with
  | zero => rfl
  | succ n ih =>
    obtain ⟨s', hb, hI⟩ := h s hs
    exact (loop_next hb n).trans (ih hI)

/-- A loop ends if its rounds, of which only `π` matters, come to a state in which it leaves. -/
theorem exists_returns_loop_iff {τ : Type*} {π : σ → τ} {f : τ → τ} {P : τ → Prop} (I : σ → Prop)
    (hnext : ∀ s, I s → P (π s) → ∃ s', body s = .inl s' ∧ π s' = f (π s) ∧ I s')
    (hexit : ∀ s, I s → ¬P (π s) → ∃ a, body s = .inr a) (hs : I s) :
    (∃ a, Returns (fun n => loop body n s) a) ↔ ∃ n, ¬P (f^[n] (π s)) := by
  constructor
  · rintro ⟨a, ha⟩
    obtain ⟨n, hn⟩ := ha.exists_fuel
    clear ha
    induction n generalizing s with
    | zero => cases hn
    | succ n ih =>
      by_cases hP : P (π s)
      · obtain ⟨s', hb, hπ, hI⟩ := hnext s hs hP
        obtain ⟨m, hm⟩ := ih hI (loop_next hb n ▸ hn)
        exact ⟨m + 1, by rwa [Function.iterate_succ_apply, ← hπ]⟩
      · exact ⟨0, hP⟩
  · rintro ⟨n, hn⟩
    induction n generalizing s with
    | zero =>
      obtain ⟨a, hb⟩ := hexit s hs hn
      exact ⟨a, returns_loop_exit hb⟩
    | succ n ih =>
      by_cases hP : P (π s)
      · obtain ⟨s', hb, hπ, hI⟩ := hnext s hs hP
        obtain ⟨a, ha⟩ := ih hI (by rwa [hπ, ← Function.iterate_succ_apply])
        exact ⟨a, (returns_loop_next hb).2 ha⟩
      · obtain ⟨a, hb⟩ := hexit s hs hP
        exact ⟨a, returns_loop_exit hb⟩

end

/-- A `while` loop ends in the first state in which its condition fails. -/
theorem returns_whileDo_iff {cond : σ → Bool} {next : σ → σ} {s t : σ} :
    Returns (fun n => loop (whileDo cond next) n s) t ↔
      ∃ k, IsLeast {k | cond (next^[k] s) = false} k ∧ next^[k] s = t := by
  have hround {s : σ} (hc : cond s = true) : whileDo cond next s = .inl (next s) := if_pos hc
  constructor
  · intro h
    obtain ⟨n, hn⟩ := h.exists_fuel
    clear h
    induction n generalizing s with
    | zero => cases hn
    | succ n ih =>
      by_cases hc : cond s = true
      · obtain ⟨k, ⟨hk, hmin⟩, rfl⟩ := ih (loop_next (hround hc) n ▸ hn)
        refine ⟨k + 1, ⟨hk, fun m hm => ?_⟩, rfl⟩
        cases m with
        | zero => exact absurd (hc.symm.trans hm) (by decide)
        | succ m => exact Nat.succ_le_succ (hmin hm)
      · have hexit : whileDo cond next s = .inr s := if_neg hc
        rw [loop_exit hexit] at hn
        exact ⟨0, ⟨by simpa using hc, fun _ _ => Nat.zero_le _⟩, Option.some.inj hn⟩
  · rintro ⟨k, ⟨hk, hmin⟩, rfl⟩
    induction k generalizing s with
    | zero => exact returns_loop_exit (if_neg fun hc => absurd (hc.symm.trans hk) (by decide))
    | succ k ih =>
      have hc : cond s = true := by
        by_contra hc
        exact absurd (hmin (show cond (next^[0] s) = false by simpa using hc)) (by omega)
      refine (returns_loop_next (hround hc)).2 (ih hk fun m hm => ?_)
      exact Nat.le_of_succ_le_succ (hmin (show cond (next^[m + 1] s) = false from hm))

/-! ## What a loop logs -/

/-- The log of at most `n` rounds of a loop, and of what comes after it. A round from `s` adds
    `log s`. -/
def loopLog {ε : Type*} (body : σ → σ ⊕ α) (log : σ → List ε) (after : α → List ε) :
    ℕ → σ → List ε
  | 0, _ => []
  | n + 1, s => log s ++ (body s).elim (loopLog body log after n) after

section

variable {ε : Type*} {body : σ → σ ⊕ α} {log : σ → List ε} {after : α → List ε} {s : σ} {n : ℕ}

/-- What holds of everything that is logged, under an invariant that every round keeps. -/
theorem forall_loopLog (I : σ → Prop) {P : ε → Prop} (hlog : ∀ s, I s → ∀ e ∈ log s, P e)
    (hnext : ∀ s s', I s → body s = .inl s' → I s')
    (hafter : ∀ s a, I s → body s = .inr a → ∀ e ∈ after a, P e) (hs : I s) :
    ∀ e ∈ loopLog body log after n s, P e := by
  induction n generalizing s with
  | zero => exact fun e he => absurd he List.not_mem_nil
  | succ n ih =>
    rw [loopLog]
    cases hb : body s with
    | inl s' => exact List.forall_mem_append.2 ⟨hlog s hs, ih (hnext s s' hs hb)⟩
    | inr a => exact List.forall_mem_append.2 ⟨hlog s hs, hafter s a hs hb⟩

/-- What the first round logs, what the rounds after it log, and what comes after the loop. -/
theorem mem_loopLog_first {e : ε} (he : e ∈ log s) : e ∈ loopLog body log after (n + 1) s := by
  rw [loopLog]
  exact List.mem_append_left _ he

theorem mem_loopLog_next {s' : σ} {e : ε} (h : body s = .inl s')
    (he : e ∈ loopLog body log after n s') : e ∈ loopLog body log after (n + 1) s := by
  rw [loopLog, h]
  exact List.mem_append_right _ he

theorem mem_loopLog_exit {a : α} {e : ε} (h : body s = .inr a) (he : e ∈ after a) :
    e ∈ loopLog body log after (n + 1) s := by
  rw [loopLog, h]
  exact List.mem_append_right _ he

/-- What comes after a loop that ends is in the log. -/
theorem mem_loopLog {a : α} {e : ε} (h : loop body n s = some a) (he : e ∈ after a) :
    e ∈ loopLog body log after n s := by
  induction n generalizing s with
  | zero => cases h
  | succ n ih =>
    cases hb : body s with
    | inl s' => exact mem_loopLog_next hb (ih (loop_next hb n ▸ h))
    | inr b =>
      rw [loop_exit hb, Option.some.injEq] at h
      exact mem_loopLog_exit hb (h ▸ he)

end

/-! ## Programs made of loops -/

/-- More fuel gives the same result. -/
def Steady (f : ℕ → Option α) : Prop := ∀ n m a, n ≤ m → f n = some a → f m = some a

theorem steady_pure (r : Option α) : Steady fun _ => r := fun _ _ _ _ h => h

theorem steady_loop (body : σ → σ ⊕ α) (s : σ) : Steady fun n => loop body n s :=
  fun _ _ _ hle h => loop_mono hle h

section

variable {f : ℕ → Option α} {g : α → ℕ → Option β}

theorem Steady.bind (hf : Steady f) (hg : ∀ a, Steady (g a)) :
    Steady fun n => (f n).bind fun x => g x n := by
  intro n m b hle h
  obtain ⟨a, ha, hb⟩ := Option.bind_eq_some_iff.1 h
  exact Option.bind_eq_some_iff.2 ⟨a, hf n m a hle ha, hg a n m b hle hb⟩

theorem Steady.returns (hf : Steady f) {n : ℕ} {a : α} (h : f n = some a) : Returns f a :=
  ⟨n, fun m hle => hf n m a hle h⟩

/-- What returns has returned at every part. -/
theorem Steady.of_bind (hf : Steady f) (hg : ∀ a, Steady (g a)) {b : β}
    (h : Returns (fun n => (f n).bind fun x => g x n) b) :
    ∃ a, Returns f a ∧ Returns (g a) b := by
  obtain ⟨n, hn⟩ := h.exists_fuel
  obtain ⟨a, ha, hb⟩ := Option.bind_eq_some_iff.1 hn
  exact ⟨a, hf.returns ha, (hg a).returns hb⟩

end

/-! ## Programs that may fail -/

/-- One program that may fail after another. -/
def andThen (r : Option (Option α)) (g : α → Option (Option β)) : Option (Option β) :=
  r.bind fun a => a.elim (some none) g

theorem andThen_assoc {γ : Type*} (r : Option (Option α)) (g : α → Option (Option β))
    (h : β → Option (Option γ)) : andThen (andThen r g) h = andThen r fun a => andThen (g a) h := by
  obtain _ | _ | a := r <;> rfl

section

variable {f : ℕ → Option (Option α)} {g : α → ℕ → Option (Option β)} {r : Option β}

theorem Returns.andThen {a : α} (hf : Returns f (some a)) (hg : Returns (g a) r) :
    Returns (fun n => Prog.andThen (f n) fun x => g x n) r :=
  hf.bind hg

theorem Returns.andThen_none (hf : Returns f none) :
    Returns (fun n => Prog.andThen (f n) fun x => g x n) none :=
  hf.bind (.pure none)

theorem Steady.andThen (hf : Steady f) (hg : ∀ a, Steady (g a)) :
    Steady fun n => Prog.andThen (f n) fun x => g x n := by
  refine hf.bind fun a => ?_
  cases a with
  | none => exact steady_pure _
  | some a => exact hg a

theorem Steady.of_andThen (hf : Steady f) (hg : ∀ a, Steady (g a)) {b : β}
    (h : Returns (fun n => Prog.andThen (f n) fun x => g x n) (some b)) :
    ∃ a, Returns f (some a) ∧ Returns (g a) (some b) := by
  obtain ⟨n, hn⟩ := h.exists_fuel
  obtain ⟨a, ha, hb⟩ := Option.bind_eq_some_iff.1 hn
  cases a with
  | none => cases hb
  | some a => exact ⟨a, hf.returns ha, (hg a).returns hb⟩

end

/-- A `for` loop over a list. -/
def forEach {ι : Type*} (f : ι → σ → Option (Option σ)) : List ι → σ → Option (Option σ)
  | [], s => some (some s)
  | x :: l, s => andThen (f x s) (forEach f l)

section

variable {ι κ : Type*} {f : ι → σ → Option (Option σ)} {s : σ}

theorem forEach_singleton (x : ι) : forEach f [x] s = f x s := by
  rw [forEach]
  rcases f x s with _ | _ | _ <;> rfl

theorem forEach_append (l l' : List ι) :
    forEach f (l ++ l') s = andThen (forEach f l s) (forEach f l') := by
  induction l generalizing s with
  | nil => rfl
  | cons x l ih =>
    rw [List.cons_append, forEach, forEach, andThen_assoc]
    exact congrArg _ (funext fun s => ih)

/-- A loop whose rounds are loops themselves. -/
theorem forEach_flatMap {g : κ → σ → Option (Option σ)} {out : ι → List κ} (l : List ι)
    (h : ∀ x ∈ l, ∀ s, f x s = forEach g (out x) s) :
    forEach f l s = forEach g (l.flatMap out) s := by
  induction l generalizing s with
  | nil => rfl
  | cons x l ih =>
    rw [List.forall_mem_cons] at h
    rw [List.flatMap_cons, forEach_append, forEach, h.1]
    exact congrArg _ (funext fun s => ih h.2)

/-- A loop over a list, with an invariant about the elements that it has gone through. -/
theorem returns_forEach {f : ℕ → ι → σ → Option (Option σ)} (P : List ι → σ → Prop) (l : List ι)
    (h : ∀ before x after s, l = before ++ x :: after → P before s →
      ∃ s', Returns (fun n => f n x s) (some s') ∧ P (before ++ [x]) s') (hs : P [] s) :
    ∃ s', Returns (fun n => forEach (f n) l s) (some s') ∧ P l s' := by
  have hrest (rest before : List ι) (s : σ) (hl : l = before ++ rest) (hP : P before s) :
      ∃ s', Returns (fun n => forEach (f n) rest s) (some s') ∧ P l s' := by
    induction rest generalizing before s with
    | nil =>
      rw [List.append_nil] at hl
      exact ⟨s, .pure _, hl ▸ hP⟩
    | cons x rest ih =>
      obtain ⟨s', hround, hP'⟩ := h before x rest s hl hP
      obtain ⟨s'', hloop, hP''⟩ := ih (before ++ [x]) s'
        (by rw [hl, List.append_assoc, List.singleton_append]) hP'
      exact ⟨s'', hround.andThen hloop, hP''⟩
  exact hrest l [] s rfl hs

end

end Prog
