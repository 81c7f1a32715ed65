import SmartOS.Scheduler.Basic
import SmartOS.Lib.Linked
import SmartOS.Lib.Run

/-!
# Runs of the scheduler

The threads share one processor, but each should find its registers as it left
them. A run is made of calls of `schedule`, with whatever registers the running
thread has at the time, of threads that are made and queued, and of other code
that sets the flags of threads (`SystemStep`).

* `Scheduler.Queue` is the invariant: the queue is a list, and the running thread
  is in it;
* `findThread_spec`: going round the queue only clears flags, and ends at a thread
  of the queue;
* `faithful_of_run`: so a thread is resumed with the registers that `schedule` was
  passed when it last preempted that thread (`Resumes`), in its own directory and
  with its own heap, and nothing else touches the state it has saved.
-/

namespace SmartOS

open Prog

/-! ## The system -/

/-- What happens: with a call of `schedule`, the thread that was running and its registers, and the
    thread that runs then with the registers written back. -/
inductive SystemOp
  | create (thread : ℕ) (initial : CPURegisters)
  | addThread (thread : ℕ)
  | schedule (preempted : ℕ) (regs : CPURegisters) (dispatched : ℕ) (out : CPURegisters)
  | other
  deriving Repr, DecidableEq

/-- The scheduler, and the threads that are made but not queued yet. -/
structure System where
  scheduler : Scheduler
  waiting : List ℕ

/-- A thread with other flags, or another time or thread to wait for. -/
structure Thread.SameSaved (t t' : Thread) : Prop where
  entry : t'.entry = t.entry
  dpl : t'.dpl = t.dpl
  state : t'.state = t.state
  pid : t'.pid = t.pid
  name : t'.name = t.name
  next : t'.next = t.next
  dir : t'.dir = t.dir
  heap : t'.heap = t.heap

/-- The steps of the system. A thread is made where there is none, and queued once. -/
inductive SystemStep (kill : ℕ) (s : System) : SystemOp → System → Prop
  | create {this entry name : ℕ} {user : Bool} : this ≠ 0 →
      ¬Reach s.scheduler.next s.scheduler.queue this → this ∉ s.waiting →
      SystemStep kill s
        (.create this ((Thread.new kill this entry name user s.scheduler).threads this).state)
        ⟨Thread.new kill this entry name user s.scheduler, this :: s.waiting⟩
  | addThread {thread : ℕ} {s' : Scheduler} : thread ∈ s.waiting →
      Returns (fun n => addThread thread s.scheduler n) s' →
      SystemStep kill s (.addThread thread) ⟨s', s.waiting.erase thread⟩
  | schedule {regs out : CPURegisters} {s' : Scheduler} :
      Returns (fun n => schedule regs s.scheduler n) (out, s') →
      SystemStep kill s (.schedule s.scheduler.running regs s'.running out) ⟨s', s.waiting⟩
  | other {threads : ℕ → Thread} : (∀ t, (s.scheduler.threads t).SameSaved (threads t)) →
      SystemStep kill s .other ⟨{ s.scheduler with threads := threads }, s.waiting⟩

/-! ## Specification -/

/-- The operation preempts the thread. -/
def SystemOp.Preempts (t : ℕ) : SystemOp → Prop
  | .schedule preempted _ _ _ => preempted = t
  | _ => False

/-- The operation makes the thread. -/
def SystemOp.Makes (t : ℕ) : SystemOp → Prop
  | .create thread _ => thread = t
  | _ => False

/-- The registers with which the thread `t` has to run on, after the operations `ops`: those passed
    to `schedule` when it last preempted `t` or, if it never did, those that `t` was made with. -/
inductive Resumes (s₀ : Scheduler) (ops : List SystemOp) (t : ℕ) (regs : CPURegisters) : Prop
  | preempted {before after : List SystemOp} {t' : ℕ} {out : CPURegisters} :
      ops = before ++ .schedule t regs t' out :: after → (∀ op ∈ after, ¬op.Preempts t) →
      Resumes s₀ ops t regs
  | initial : (∀ op ∈ ops, ¬op.Preempts t) →
      (t = s₀.queue ∧ regs = (s₀.threads t).state) ∨ .create t regs ∈ ops → Resumes s₀ ops t regs

/-- What an operation `op` has to do, after the operations `ops`. -/
structure Faithful (s₀ : Scheduler) (ops : List SystemOp) (op : SystemOp) (s s' : Scheduler) :
    Prop where
  frame : ∀ t, ¬op.Preempts t → ¬op.Makes t → (s'.threads t).state = (s.threads t).state
  dispatch : ∀ {preempted dispatched : ℕ} {regs out : CPURegisters},
    op = .schedule preempted regs dispatched out →
    preempted = s.running ∧ dispatched = s'.running ∧
      Resumes s₀ (ops ++ [op]) dispatched out ∧
      s'.mmu.currentDirectory = (s'.threads dispatched).dir ∧
      s'.mmu.cr3 = (s'.threads dispatched).dir ∧
      s'.currentHeap = (s'.threads dispatched).heap

/-! ## The queue -/

variable {kill : ℕ} {s s' s₀ : Scheduler} {t p : ℕ} {l : List ℕ} {regs out : CPURegisters}
  {ops : List SystemOp} {op : SystemOp}

/-- The queue is the list `l`, and the running thread is in it. -/
structure Scheduler.Queue (s : Scheduler) (l : List ℕ) : Prop where
  linked : Linked s.next s.queue l
  running : s.running ∈ l

/-- Only flags of threads, and the thread that is running, differ. -/
structure Scheduler.SameSaved (s s' : Scheduler) : Prop where
  queue : s'.queue = s.queue
  threads : ∀ t, (s.threads t).SameSaved (s'.threads t)

theorem Thread.SameSaved.refl (t : Thread) : t.SameSaved t :=
  ⟨rfl, rfl, rfl, rfl, rfl, rfl, rfl, rfl⟩

theorem Thread.SameSaved.trans {t t' t'' : Thread} (h : t.SameSaved t') (h' : t'.SameSaved t'') :
    t.SameSaved t'' where
  entry := h'.entry.trans h.entry
  dpl := h'.dpl.trans h.dpl
  state := h'.state.trans h.state
  pid := h'.pid.trans h.pid
  name := h'.name.trans h.name
  next := h'.next.trans h.next
  dir := h'.dir.trans h.dir
  heap := h'.heap.trans h.heap

theorem Scheduler.SameSaved.refl (s : Scheduler) : s.SameSaved s := ⟨rfl, fun _ => .refl _⟩

theorem Scheduler.SameSaved.trans {s s' s'' : Scheduler} (h : s.SameSaved s')
    (h' : s'.SameSaved s'') : s.SameSaved s'' :=
  ⟨h'.queue.trans h.queue, fun t => (h.threads t).trans (h'.threads t)⟩

@[simp]
theorem modify_self {f : Thread → Thread} : (s.modify t f).threads t = f (s.threads t) :=
  Function.update_self _ _ _

theorem modify_of_ne {f : Thread → Thread} {q : ℕ} (hq : q ≠ t) :
    (s.modify t f).threads q = s.threads q := Function.update_of_ne hq _ _

theorem Scheduler.sameSaved_modify {f : Thread → Thread}
    (hf : (s.threads t).SameSaved (f (s.threads t))) : s.SameSaved (s.modify t f) where
  queue := rfl
  threads q := by
    by_cases hq : q = t
    · subst hq
      rwa [modify_self]
    · rw [modify_of_ne hq]
      exact .refl _

theorem Scheduler.SameSaved.linked (h : s.SameSaved s') (hl : Linked s.next s.queue l) :
    Linked s'.next s'.queue l :=
  h.queue.symm ▸ hl.congr fun t _ => (h.threads t).next

theorem next_modify {f : Thread → Thread} :
    (s.modify t f).next = Function.update s.next t (f (s.threads t)).next := by
  funext q
  by_cases hq : q = t
  · subst hq
    rw [Function.update_self, Scheduler.next, modify_self]
  · rw [Function.update_of_ne hq, Scheduler.next, modify_of_ne hq, Scheduler.next]

/-! ## Going round the queue -/

theorem queue_advance (h : s.Queue l) : s.advance.Queue l where
  linked := h.linked
  running := by
    simp only [Scheduler.advance]
    split_ifs with hnext
    · exact h.linked.next_mem h.running hnext
    · exact h.linked.head_mem

/-- The same thread is running, and only its flags may have changed. -/
def Scheduler.Tested (s s' : Scheduler) : Prop := s.SameSaved s' ∧ s'.running = s.running

theorem tested_modify {f : Thread → Thread}
    (hf : (s.threads t).SameSaved (f (s.threads t))) : s.Tested (s.modify t f) :=
  ⟨Scheduler.sameSaved_modify hf, rfl⟩

section

variable (R : Scheduler → Scheduler → Prop) (hrefl : ∀ s, R s s)
  (hjoined : ∀ s : Scheduler, (s.threads (s.threads s.running).joinTarget).done = true →
    R s (s.modify s.running fun x => { x with joined := false }))
  (hasleep : ∀ s : Scheduler, (s.threads s.running).sleepTimeout ≤ s.scheduledCounter →
    R s (s.modify s.running fun x => { x with asleep := false }))

include hrefl hjoined in
theorem checkJoined_rel (hs : s.checkJoined = .inl s' ∨ s.checkJoined = .inr s') : R s s' := by
  have helim : s.checkJoined.elim (R s) (R s) := by
    simp only [Scheduler.checkJoined]
    split_ifs with _ hdone
    · exact hjoined s hdone
    all_goals exact hrefl s
  rcases hs with hs | hs <;> rwa [hs] at helim

include hrefl hasleep in
theorem checkAsleep_rel (hs : s.checkAsleep = .inl s' ∨ s.checkAsleep = .inr s') : R s s' := by
  have helim : s.checkAsleep.elim (R s) (R s) := by
    simp only [Scheduler.checkAsleep]
    split_ifs with _ htime
    · exact hasleep s htime
    all_goals exact hrefl s
  rcases hs with hs | hs <;> rwa [hs] at helim

include hrefl hjoined hasleep in
/-- Whether they go back or go on, the two tests only clear a flag: what the states before and after
    that are related by is what one round does, after the cursor has moved on. -/
theorem findThread_rel (htrans : ∀ s s' s'', R s s' → R s' s'' → R s s'')
    (hs : findThread s = .inl s' ∨ findThread s = .inr s') : R s.advance s' := by
  have hround : (findThread s).elim (R s.advance) (R s.advance) := by
    rw [findThread]
    cases hjoin : s.advance.checkJoined with
    | inl s₁ => exact checkJoined_rel R hrefl hjoined (.inl hjoin)
    | inr s₁ =>
      have hj := checkJoined_rel R hrefl hjoined (.inr hjoin)
      dsimp only
      cases hsleep : s₁.checkAsleep with
      | inl s₂ => exact htrans _ _ _ hj (checkAsleep_rel R hrefl hasleep (.inl hsleep))
      | inr s₂ =>
        have ha := checkAsleep_rel R hrefl hasleep (.inr hsleep)
        dsimp only
        split_ifs <;> exact htrans _ _ _ hj ha
  rcases hs with hs | hs <;> rwa [hs] at hround

end

theorem findThread_tested (hs : findThread s = .inl s' ∨ findThread s = .inr s') :
    s.advance.Tested s' := by
  refine findThread_rel Scheduler.Tested (fun s => ⟨.refl s, rfl⟩) ?_ ?_
    (fun _ _ _ h h' => ⟨h.1.trans h'.1, h'.2.trans h.2⟩) hs <;>
  · intro s _
    exact tested_modify ⟨rfl, rfl, rfl, rfl, rfl, rfl, rfl, rfl⟩

/-- One round. -/
theorem findThread_step (h : s.Queue l) (hs : findThread s = .inl s' ∨ findThread s = .inr s') :
    s.SameSaved s' ∧ s'.Queue l := by
  have htested := findThread_tested hs
  have hqueue := queue_advance h
  exact ⟨⟨htested.1.queue, htested.1.threads⟩, htested.1.linked hqueue.linked,
    htested.2 ▸ hqueue.running⟩

/-- All rounds. -/
theorem findThread_spec {n : ℕ} (h : s.Queue l) (hr : loop findThread n s = some s') :
    s.SameSaved s' ∧ s'.Queue l := by
  refine loop_induction (fun s' => s.SameSaved s' ∧ s'.Queue l)
    (Q := fun s' => s.SameSaved s' ∧ s'.Queue l) ?_ ?_ ⟨.refl s, h⟩ hr
  · intro s₁ s₂ ⟨hsame, hqueue⟩ hbody
    have hstep := findThread_step hqueue (.inl hbody)
    exact ⟨hsame.trans hstep.1, hstep.2⟩
  · intro s₁ s₂ ⟨hsame, hqueue⟩ hbody
    have hstep := findThread_step hqueue (.inr hbody)
    exact ⟨hsame.trans hstep.1, hstep.2⟩

/-- What a call of `schedule` that returns has done. -/
structure Scheduled (s : Scheduler) (regs : CPURegisters) (out : CPURegisters) (s' : Scheduler) :
    Prop where
  queue : s'.queue = s.queue
  threads : ∀ t, ((s.modify s.running fun x => { x with state := regs }).threads t).SameSaved
    (s'.threads t)
  out : out = (s'.threads s'.running).state
  currentDirectory : s'.mmu.currentDirectory = (s'.threads s'.running).dir
  cr3 : s'.mmu.cr3 = (s'.threads s'.running).dir
  currentHeap : s'.currentHeap = (s'.threads s'.running).heap

/-- The running thread saves its registers. -/
theorem queue_save (h : s.Queue l) :
    (s.modify s.running fun x => { x with state := regs }).Queue l := by
  refine ⟨?_, h.running⟩
  rw [next_modify]
  exact (Function.update_eq_self _ s.next).symm ▸ h.linked

theorem schedule_spec (h : s.Queue l) (hr : Returns (fun n => schedule regs s n) (out, s')) :
    Scheduled s regs out s' ∧ s'.Queue l := by
  obtain ⟨n, hn⟩ := hr.exists_fuel
  simp only [schedule, Option.bind_eq_some_iff, Option.some.injEq] at hn
  obtain ⟨s₁, hfind, hdispatch⟩ := hn
  obtain ⟨rfl, rfl⟩ := Prod.mk.inj hdispatch
  obtain ⟨hsame, hqueue⟩ := findThread_spec (queue_save h) hfind
  exact ⟨⟨hsame.queue, hsame.threads, rfl, rfl, rfl, rfl⟩, ⟨hqueue.linked, hqueue.running⟩⟩

theorem addThread_spec (h : s.Queue l) (hr : Returns (fun n => addThread p s n) s') :
    ∃ t ∈ l, s.next t = 0 ∧ s' = s.modify t fun x => { x with next := p } := by
  obtain ⟨t, ht, hlast, hreturns⟩ := returns_tail h.linked
  exact ⟨t, ht, hlast, hr.unique (hreturns.bind (.pure _))⟩

theorem exists_addThread (h : s.Queue l) : ∃ s', Returns (fun n => addThread p s n) s' := by
  obtain ⟨_, -, -, hreturns⟩ := returns_tail h.linked
  exact ⟨_, hreturns.bind (.pure _)⟩

/-! ## The queue in a run -/

/-- The threads that wait to be queued are apart from the queue. -/
structure System.Queued (s : System) (l : List ℕ) : Prop where
  queue : s.scheduler.Queue l
  waiting : ∀ t ∈ s.waiting, t ∉ l ∧ t ≠ 0 ∧ s.scheduler.next t = 0
  nodup : s.waiting.Nodup

/-- Making a thread changes no other one. -/
theorem new_of_ne {this entry name q : ℕ} {user : Bool} (hq : q ≠ this) :
    (Thread.new kill this entry name user s).threads q = s.threads q :=
  Function.update_of_ne hq _ _

theorem state_new (kill this entry name : ℕ) (user : Bool) (s : Scheduler) :
    ((Thread.new kill this entry name user s).threads this).state =
      initialState user entry (newStack kill s.mmu).1 := by
  simp only [Thread.new, Function.update_self]

/-- The thread that the scheduler starts with is alone in the queue, and may run. -/
theorem initializeScheduler_thread {name : ℕ} {s t : Scheduler}
    (ht : t = initializeScheduler kill name s) :
    t.running = t.queue ∧ t.next t.queue = 0 ∧ (t.threads t.queue).joined = false ∧
      (t.threads t.queue).asleep = false ∧ (t.threads t.queue).done = false := by
  subst ht
  simp only [Scheduler.next, initializeScheduler, Function.update_self, and_self]

namespace System.Queued

variable {s : System} {s' : Scheduler}

theorem create {this entry name : ℕ} {user : Bool} (h : s.Queued l) (h0 : this ≠ 0)
    (hqueue : ¬Reach s.scheduler.next s.scheduler.queue this) (hwaiting : this ∉ s.waiting) :
    System.Queued ⟨Thread.new kill this entry name user s.scheduler, this :: s.waiting⟩ l := by
  have hl : this ∉ l := fun hmem => hqueue (h.queue.linked.reach hmem)
  have hnext : ∀ t ≠ this,
      (Thread.new kill this entry name user s.scheduler).next t = s.scheduler.next t :=
    fun t ht => congrArg Thread.next (new_of_ne ht)
  refine ⟨⟨?_, h.queue.running⟩, fun t ht => ?_, List.nodup_cons.2 ⟨hwaiting, h.nodup⟩⟩
  · exact h.queue.linked.congr fun t ht => hnext t fun heq => hl (heq ▸ ht)
  · rcases List.mem_cons.1 ht with rfl | ht
    · refine ⟨hl, h0, ?_⟩
      rw [Scheduler.next, Thread.new]
      simp only [Function.update_self]
    · have hne : t ≠ this := fun heq => hwaiting (heq ▸ ht)
      exact (hnext t hne).symm ▸ h.waiting t ht

theorem addThread {thread : ℕ} (h : s.Queued l) (hmem : thread ∈ s.waiting)
    (hr : Returns (fun n => SmartOS.addThread thread s.scheduler n) s') :
    System.Queued ⟨s', s.waiting.erase thread⟩ (l ++ [thread]) := by
  obtain ⟨tail, htail, hlast, rfl⟩ := addThread_spec h.queue hr
  obtain ⟨hl, h0, hnext⟩ := h.waiting thread hmem
  refine ⟨⟨?_, List.mem_append_left _ h.queue.running⟩, fun t ht => ?_, h.nodup.erase thread⟩
  · rw [next_modify]
    exact h.queue.linked.snoc htail hlast hl h0 hnext
  · obtain ⟨hne, ht⟩ := h.nodup.mem_erase_iff.1 ht
    obtain ⟨htl, ht0, htnext⟩ := h.waiting t ht
    have hne' : t ≠ tail := fun heq => htl (heq ▸ htail)
    refine ⟨by simp [htl, hne], ht0, ?_⟩
    rw [next_modify, Function.update_of_ne hne']
    exact htnext

theorem schedule (h : s.Queued l) (hs : Scheduled s.scheduler regs out s') (hqueue : s'.Queue l) :
    System.Queued ⟨s', s.waiting⟩ l := by
  refine ⟨hqueue, fun t ht => ?_, h.nodup⟩
  obtain ⟨hl, h0, hnext⟩ := h.waiting t ht
  refine ⟨hl, h0, (hs.threads t).next.trans ?_⟩
  have hne : t ≠ s.scheduler.running := fun heq => hl (heq ▸ h.queue.running)
  rwa [modify_of_ne hne]

theorem other {threads : ℕ → Thread} (h : s.Queued l)
    (hsame : ∀ t, (s.scheduler.threads t).SameSaved (threads t)) :
    System.Queued ⟨{ s.scheduler with threads := threads }, s.waiting⟩ l where
  queue := ⟨h.queue.linked.congr fun t _ => (hsame t).next, h.queue.running⟩
  waiting t ht := by
    obtain ⟨hl, h0, hnext⟩ := h.waiting t ht
    exact ⟨hl, h0, (hsame t).next.trans hnext⟩
  nodup := h.nodup

/-- The thread that the scheduler starts with is alone in the queue. -/
theorem initializeScheduler {name : ℕ} {s : Scheduler} :
    System.Queued ⟨SmartOS.initializeScheduler kill name s, []⟩
      [(SmartOS.initializeScheduler kill name s).queue] where
  queue := ⟨.last (initializeScheduler_thread rfl).2.1, List.mem_singleton_self _⟩
  waiting _ ht := absurd ht List.not_mem_nil
  nodup := List.nodup_nil

end System.Queued

/-! ## Runs -/

/-- The invariant: the threads that wait are apart from the queue, and every thread has saved the
    registers with which it has to run on. -/
structure System.Inv (s₀ : Scheduler) (ops : List SystemOp) (s : System) (l : List ℕ) : Prop where
  queue : s.scheduler.Queue l
  waiting : ∀ t ∈ s.waiting, t ∉ l ∧ t ≠ 0 ∧ s.scheduler.next t = 0
  nodup : s.waiting.Nodup
  preempted : ∀ op ∈ ops, ∀ t, op.Preempts t → t ∈ l
  resumes : ∀ t, t ∈ l ∨ t ∈ s.waiting → Resumes s₀ ops t (s.scheduler.threads t).state

/-- An operation that does not preempt a thread does not change how it has to run on. -/
theorem Resumes.snoc (h : Resumes s₀ ops t regs) (hop : ¬op.Preempts t) :
    Resumes s₀ (ops ++ [op]) t regs := by
  have hlast (after : List SystemOp) (hafter : ∀ op ∈ after, ¬op.Preempts t) :
      ∀ op' ∈ after ++ [op], ¬op'.Preempts t := by
    intro op' hmem
    rcases List.mem_append.1 hmem with hmem | hmem
    · exact hafter op' hmem
    · rwa [List.mem_singleton.1 hmem]
  cases h with
  | preempted hops hafter =>
    exact .preempted (by rw [hops, List.append_assoc]; rfl) (hlast _ hafter)
  | initial hnever hinit =>
    exact .initial (hlast _ hnever) (hinit.imp_right (List.mem_append_left _))

variable {s s' : System}

theorem System.Inv.queued (hI : s.Inv s₀ ops l) : s.Queued l := ⟨hI.queue, hI.waiting, hI.nodup⟩

theorem preempted_snoc {l l' : List ℕ} (hI : s.Inv s₀ ops l) (hl : l ⊆ l')
    (hop : ∀ t, op.Preempts t → t ∈ l') : ∀ op' ∈ ops ++ [op], ∀ t, op'.Preempts t → t ∈ l' := by
  intro op' hmem t ht
  rcases List.mem_append.1 hmem with hmem | hmem
  · exact hl (hI.preempted op' hmem t ht)
  · exact hop t (List.mem_singleton.1 hmem ▸ ht)

theorem inv_create {this entry name : ℕ} {user : Bool} (hI : s.Inv s₀ ops l) (h0 : this ≠ 0)
    (hqueue : ¬Reach s.scheduler.next s.scheduler.queue this) (hwaiting : this ∉ s.waiting) :
    System.Inv s₀ (ops ++ [.create this
        ((Thread.new kill this entry name user s.scheduler).threads this).state])
      ⟨Thread.new kill this entry name user s.scheduler, this :: s.waiting⟩ l := by
  have hqueued := @System.Queued.create kill l s this entry name user hI.queued h0 hqueue hwaiting
  have hl : this ∉ l := fun hmem => hqueue (hI.queue.linked.reach hmem)
  refine ⟨hqueued.queue, hqueued.waiting, hqueued.nodup,
    preempted_snoc hI (List.Subset.refl l) fun _ h => h.elim, fun t ht => ?_⟩
  by_cases hne : t = this
  · subst hne
    refine .initial (fun op hop hpre => ?_) (.inr (by simp))
    rcases List.mem_append.1 hop with hop | hop
    · exact hl (hI.preempted op hop t hpre)
    · rw [List.mem_singleton.1 hop] at hpre
      exact hpre
  · rw [new_of_ne hne]
    exact (hI.resumes t (ht.imp_right (List.mem_of_ne_of_mem hne))).snoc id

theorem inv_addThread {thread : ℕ} {s' : Scheduler} (hI : s.Inv s₀ ops l)
    (hmem : thread ∈ s.waiting) (hr : Returns (fun n => addThread thread s.scheduler n) s') :
    System.Inv s₀ (ops ++ [.addThread thread]) ⟨s', s.waiting.erase thread⟩ (l ++ [thread]) := by
  have hqueued := hI.queued.addThread hmem hr
  refine ⟨hqueued.queue, hqueued.waiting, hqueued.nodup,
    preempted_snoc hI (List.subset_append_left l _) fun _ h => h.elim, fun t ht => ?_⟩
  obtain ⟨tail, -, -, rfl⟩ := addThread_spec hI.queue hr
  have hstate : ((s.scheduler.modify tail fun x => { x with next := thread }).threads t).state =
      (s.scheduler.threads t).state := by
    by_cases heq : t = tail
    · rw [heq, modify_self]
    · rw [modify_of_ne heq]
  rw [hstate]
  refine (hI.resumes t ?_).snoc id
  rcases ht with ht | ht
  · rcases List.mem_append.1 ht with ht | ht
    · exact .inl ht
    · exact .inr (List.mem_singleton.1 ht ▸ hmem)
  · exact .inr (List.mem_of_mem_erase ht)

theorem state_of_scheduled {s' : Scheduler} (h : Scheduled s.scheduler regs out s') :
    (s'.threads s.scheduler.running).state = regs ∧
      ∀ t ≠ s.scheduler.running, (s'.threads t).state = (s.scheduler.threads t).state := by
  refine ⟨(h.threads _).state.trans (by rw [modify_self]), fun t ht => ?_⟩
  exact (h.threads t).state.trans (by rw [modify_of_ne ht])

theorem inv_schedule {s' : Scheduler} (hI : s.Inv s₀ ops l)
    (h : Scheduled s.scheduler regs out s') (hqueue : s'.Queue l) :
    System.Inv s₀ (ops ++ [.schedule s.scheduler.running regs s'.running out])
      ⟨s', s.waiting⟩ l := by
  have hqueued := hI.queued.schedule h hqueue
  obtain ⟨hself, hother⟩ := state_of_scheduled h
  refine ⟨hqueued.queue, hqueued.waiting, hqueued.nodup,
    preempted_snoc hI (List.Subset.refl l) ?_, fun t ht => ?_⟩
  · rintro t rfl
    exact hI.queue.running
  · by_cases heq : t = s.scheduler.running
    · subst heq
      exact .preempted (by rw [hself] : _ = ops ++ _ :: []) fun _ h => absurd h List.not_mem_nil
    · rw [hother t heq]
      exact (hI.resumes t ht).snoc fun h => heq h.symm

theorem inv_other {threads : ℕ → Thread} (hI : s.Inv s₀ ops l)
    (h : ∀ t, (s.scheduler.threads t).SameSaved (threads t)) :
    System.Inv s₀ (ops ++ [.other]) ⟨{ s.scheduler with threads := threads }, s.waiting⟩ l where
  queue := (hI.queued.other h).queue
  waiting := (hI.queued.other h).waiting
  nodup := hI.nodup
  preempted := preempted_snoc hI (List.Subset.refl l) fun _ h => h.elim
  resumes t ht := by
    rw [show (threads t).state = _ from (h t).state]
    exact (hI.resumes t ht).snoc id

theorem inv_step (hI : s.Inv s₀ ops l) (hs : SystemStep kill s op s') :
    ∃ l', s'.Inv s₀ (ops ++ [op]) l' := by
  cases hs with
  | create h0 hqueue hwaiting => exact ⟨l, inv_create hI h0 hqueue hwaiting⟩
  | addThread hmem hr => exact ⟨_, inv_addThread hI hmem hr⟩
  | schedule hr =>
    obtain ⟨h, hqueue⟩ := schedule_spec hI.queue hr
    exact ⟨l, inv_schedule hI h hqueue⟩
  | other h => exact ⟨l, inv_other hI h⟩

theorem faithful_step (hI : s.Inv s₀ ops l) (hs : SystemStep kill s op s') :
    Faithful s₀ ops op s.scheduler s'.scheduler := by
  cases hs with
  | create _ _ _ =>
    refine ⟨fun t _ ht => ?_, nofun⟩
    have hne : t ≠ _ := fun heq => ht heq.symm
    exact congrArg Thread.state (Function.update_of_ne hne _ _)
  | addThread _ hr =>
    obtain ⟨tail, -, -, rfl⟩ := addThread_spec hI.queue hr
    refine ⟨fun t _ _ => ?_, nofun⟩
    by_cases heq : t = tail
    · rw [heq, modify_self]
    · rw [modify_of_ne heq]
  | schedule hr =>
    obtain ⟨h, hqueue⟩ := schedule_spec hI.queue hr
    refine ⟨fun t ht _ => (state_of_scheduled h).2 t fun heq => ht heq.symm, ?_⟩
    rintro p t regs out ⟨⟩
    exact ⟨rfl, rfl, h.out ▸ (inv_schedule hI h hqueue).resumes _ (.inl hqueue.running),
      h.currentDirectory, h.cr3, h.currentHeap⟩
  | other h => exact ⟨fun t _ _ => (h t).state, nofun⟩

variable {name : ℕ}

theorem inv_initializeScheduler {s : Scheduler} :
    System.Inv (initializeScheduler kill name s) [] ⟨initializeScheduler kill name s, []⟩
      [(initializeScheduler kill name s).queue] where
  queue := System.Queued.initializeScheduler.queue
  waiting t ht := absurd ht List.not_mem_nil
  nodup := List.nodup_nil
  preempted op hop := absurd hop List.not_mem_nil
  resumes t ht := by
    have htq := List.mem_singleton.1 (ht.resolve_right List.not_mem_nil)
    exact .initial (fun op hop => absurd hop List.not_mem_nil) (.inl ⟨htq, htq ▸ rfl⟩)

/-- In every run, every operation does what it has to do: threads are resumed as they were when
    they were last preempted. -/
theorem faithful_of_run {s₀ : Scheduler}
    (hr : Run (SystemStep kill) ⟨initializeScheduler kill name s₀, []⟩ ops s)
    (hs : SystemStep kill s op s') :
    Faithful (initializeScheduler kill name s₀) ops op s.scheduler s'.scheduler := by
  obtain ⟨l, hI⟩ := hr.history (fun ops s => ∃ l, s.Inv (initializeScheduler kill name s₀) ops l)
    ⟨_, inv_initializeScheduler⟩ fun _ _ _ _ ⟨_, hI⟩ hs => inv_step hI hs
  exact faithful_step hI hs

/-! ## Threads without flags -/

theorem systemStep_schedule {s s' : Scheduler} {t' : ℕ} {waiting : List ℕ}
    (hr : Returns (fun n => schedule regs s n) (out, s')) (ht : s.running = t)
    (ht' : s'.running = t') :
    SystemStep kill ⟨s, waiting⟩ (.schedule t regs t' out) ⟨s', waiting⟩ := by
  subst ht ht'
  exact .schedule hr

/-- No flag keeps the thread from running. -/
structure Thread.Ready (t : Thread) : Prop where
  joined : t.joined = false
  asleep : t.asleep = false
  done : t.done = false

/-- The next thread is found, when no flag keeps it from running. -/
theorem findThread_of_ready {s : Scheduler} (ht : (s.threads s.advance.running).Ready) :
    findThread s = .inr s.advance := by
  have hthreads : s.advance.threads = s.threads := rfl
  simp only [findThread, Scheduler.checkJoined, Scheduler.checkAsleep, hthreads, ht.joined,
    ht.asleep, ht.done, Bool.false_eq_true, if_false]

/-- A call of `schedule`, when no flag keeps the next thread from running. -/
theorem exists_schedule {s : Scheduler} (regs : CPURegisters)
    (ht : (s.threads s.advance.running).Ready) : ∃ s',
    Returns (fun n => schedule regs s n) ((s'.threads s.advance.running).state, s') ∧
      s'.running = s.advance.running ∧ s'.queue = s.queue ∧
      s'.threads = (s.modify s.running fun x => { x with state := regs }).threads := by
  obtain ⟨saved, hsaved⟩ : ∃ saved, saved = s.modify s.running fun x => { x with state := regs } :=
    ⟨_, rfl⟩
  have hthread (t : ℕ) : (s.threads t).joined = (saved.threads t).joined ∧
      (s.threads t).asleep = (saved.threads t).asleep ∧
      (s.threads t).done = (saved.threads t).done ∧ s.next t = saved.next t := by
    by_cases heq : t = s.running
    · rw [heq, hsaved, Scheduler.next, Scheduler.next, modify_self]
      exact ⟨rfl, rfl, rfl, rfl⟩
    · rw [hsaved, Scheduler.next, Scheduler.next, modify_of_ne heq]
      exact ⟨rfl, rfl, rfl, rfl⟩
  have hrunning : saved.advance.running = s.advance.running := by
    simp only [Scheduler.advance, ← (hthread _).2.2.2]
    rw [hsaved]
    rfl
  have hready : (saved.threads saved.advance.running).Ready := by
    obtain ⟨hjoined, hasleep, hdone, -⟩ := hthread saved.advance.running
    rw [hrunning] at hjoined hasleep hdone ⊢
    exact ⟨hjoined ▸ ht.joined, hasleep ▸ ht.asleep, hdone ▸ ht.done⟩
  have hreturns : Returns (fun n => schedule regs s n) saved.advance.dispatch := by
    simp only [schedule, ← hsaved]
    exact (returns_loop_exit (findThread_of_ready hready)).bind (.pure _)
  refine ⟨saved.advance.dispatch.2, hrunning ▸ hreturns, hrunning, ?_, ?_⟩ <;> rw [hsaved] <;> rfl

/-- Two threads without flags. -/
structure Scheduler.Pair (s : Scheduler) (a b : ℕ) : Prop where
  queue : s.queue = a
  running : s.running = a ∨ s.running = b
  first : s.next a = b
  last : s.next b = 0
  ne : b ≠ a
  ne_zero : b ≠ 0
  ready : (s.threads a).Ready ∧ (s.threads b).Ready

namespace Scheduler.Pair

variable {s : Scheduler} {a b : ℕ}

theorem linked (h : s.Pair a b) : s.Queue [a, b] := by
  refine ⟨?_, by simpa using h.running⟩
  rw [h.queue]
  refine .cons (h.first.trans_ne h.ne_zero) ?_
  rw [h.first]
  exact .last h.last

theorem advance_of_first (h : s.Pair a b) (ha : s.running = a) : s.advance.running = b := by
  rw [Scheduler.advance, ha, h.first, if_pos h.ne_zero]

theorem advance_of_last (h : s.Pair a b) (hb : s.running = b) : s.advance.running = a := by
  rw [Scheduler.advance, hb, h.last, if_neg (not_not.2 rfl), h.queue]

/-- They run in turn. -/
theorem schedule (h : s.Pair a b) (regs : CPURegisters) : ∃ s',
    Returns (fun n => SmartOS.schedule regs s n) ((s'.threads s.advance.running).state, s') ∧
      s'.Pair a b ∧ s'.running = s.advance.running ∧ (s'.threads s.running).state = regs ∧
      ∀ t ≠ s.running, (s'.threads t).state = (s.threads t).state := by
  have hready : (s.threads s.advance.running).Ready := by
    rcases h.running with ha | hb
    · rw [h.advance_of_first ha]
      exact h.ready.2
    · rw [h.advance_of_last hb]
      exact h.ready.1
  have hadvance : s.advance.running = a ∨ s.advance.running = b :=
    h.running.elim (fun ha => .inr (h.advance_of_first ha)) fun hb => .inl (h.advance_of_last hb)
  obtain ⟨s', hreturns, hrunning, hqueue, hthreads⟩ := exists_schedule regs hready
  have hother (t : ℕ) (ht : t ≠ s.running) : s'.threads t = s.threads t := by
    rw [hthreads, modify_of_ne ht]
  have hself : s'.threads s.running = { s.threads s.running with state := regs } := by
    rw [hthreads, modify_self]
  have hflags (t : ℕ) : s'.next t = s.next t ∧ ((s.threads t).Ready → (s'.threads t).Ready) := by
    by_cases heq : t = s.running
    · rw [Scheduler.next, Scheduler.next, heq, hself]
      exact ⟨rfl, fun h => ⟨h.joined, h.asleep, h.done⟩⟩
    · rw [Scheduler.next, Scheduler.next, hother t heq]
      exact ⟨rfl, id⟩
  refine ⟨s', hreturns, ⟨hqueue.trans h.queue, hrunning ▸ hadvance, (hflags a).1.trans h.first,
    (hflags b).1.trans h.last, h.ne, h.ne_zero, (hflags a).2 h.ready.1, (hflags b).2 h.ready.2⟩,
    hrunning, by rw [hself], fun t ht => by rw [hother t ht]⟩

end Scheduler.Pair

/-- A thread made and queued behind the only one that there is. -/
theorem exists_pair {s : Scheduler} {a b : ℕ} (entry name : ℕ) (user : Bool) (hq : s.Queue [a])
    (ha : (s.threads a).Ready) (hb : b ≠ a) (h0 : b ≠ 0) :
    ¬Reach s.next s.queue b ∧ ∃ s',
      Returns (fun n => addThread b (Thread.new kill b entry name user s) n) s' ∧ s'.Pair a b ∧
      s'.running = a ∧ (s'.threads b).dpl = (if user then 3 else 0) ∧
      (s'.threads b).state = initialState user entry (newStack kill s.mmu).1 := by
  have hreach : ¬Reach s.next s.queue b := fun h =>
    hb (List.mem_singleton.1 (hq.linked.mem_of_reach h))
  obtain ⟨s₁, hs₁⟩ : ∃ s₁, s₁ = Thread.new kill b entry name user s := ⟨_, rfl⟩
  have hqueued : s₁.Queue [a] := by
    rw [hs₁]
    exact (System.Queued.create (s := ⟨s, []⟩) ⟨hq, fun _ h => absurd h List.not_mem_nil, .nil⟩ h0
      hreach List.not_mem_nil).queue
  have hrunning := List.mem_singleton.1 hqueued.running
  have hqueue := List.mem_singleton.1 hqueued.linked.head_mem
  obtain ⟨s', hreturns⟩ := exists_addThread (p := b) hqueued
  obtain ⟨tail, htail, -, rfl⟩ := addThread_spec hqueued hreturns
  obtain rfl := List.mem_singleton.1 htail
  have hfirst : s₁.threads tail = s.threads tail := by
    rw [hs₁]
    exact new_of_ne hb.symm
  have hnew : (s₁.threads b).Ready ∧ s₁.next b = 0 ∧ (s₁.threads b).dpl = (if user then 3 else 0) ∧
      (s₁.threads b).state = initialState user entry (newStack kill s.mmu).1 := by
    refine ⟨⟨?_, ?_, ?_⟩, ?_, ?_, ?_⟩ <;>
      simp only [hs₁, Scheduler.next, Thread.new, Function.update_self]
  rw [← hs₁]
  refine ⟨hreach, _, hreturns, ⟨hqueue, .inl hrunning, ?_, ?_, hb, h0, ?_, ?_⟩, hrunning, ?_⟩
  · rw [Scheduler.next, modify_self]
  · rw [Scheduler.next, modify_of_ne hb]
    exact hnew.2.1
  · rw [modify_self, hfirst]
    exact ⟨ha.joined, ha.asleep, ha.done⟩
  · rw [modify_of_ne hb]
    exact hnew.1
  · rw [modify_of_ne hb]
    exact hnew.2.2

/-- All is zero. -/
def zeroScheduler : Scheduler :=
  ⟨0, 0, 0, 0, 0, fun _ => ⟨0, 0, .zero, false, false, false, 0, 0, 0, 0, 0, 0, 0⟩, zeroMMU 0x1000⟩

/-- A scheduler just initialized. -/
def bootScheduler : Scheduler := initializeScheduler 0x100 0x200 zeroScheduler

/-- Its only thread may run. -/
theorem queue_bootScheduler :
    bootScheduler.Queue [0x1000] ∧ (bootScheduler.threads 0x1000).Ready := by
  obtain ⟨hrunning, -, hjoined, hasleep, hdone⟩ :=
    initializeScheduler_thread (t := bootScheduler) rfl
  have hqueue : bootScheduler.queue = 0x1000 := by decide +kernel
  rw [← hqueue]
  exact ⟨System.Queued.initializeScheduler.queue, hjoined, hasleep, hdone⟩

/-- Another thread is made, runs, and is preempted with registers of its own: the first one goes on
    with those that it had. -/
theorem faithful_of_run_pair : ∃ s s' ops initial,
    ops = [.create 0x500 initial, .addThread 0x500,
      .schedule 0x1000 { CPURegisters.zero with rax := 7 } 0x500 initial] ∧
    Run (SystemStep 0x100) ⟨bootScheduler, []⟩ ops s ∧
    Faithful bootScheduler ops (.schedule 0x500 { CPURegisters.zero with rax := 8 } 0x1000
      { CPURegisters.zero with rax := 7 }) s.scheduler s' := by
  obtain ⟨hqueue, hready⟩ := queue_bootScheduler
  obtain ⟨hreach, s₂, hadd, hpair, hrunning, -, hstate⟩ :=
    @exists_pair 0x100 bootScheduler 0x1000 0x500 0x600 0x700 false hqueue hready (by decide)
      (by decide)
  obtain ⟨regs, hregs⟩ : ∃ regs, regs = { CPURegisters.zero with rax := 7 } := ⟨_, rfl⟩
  rw [← hregs]
  -- From the first thread to the second one
  obtain ⟨s₃, hr₃, hpair₃, hrunning₃, hself₃, hother₃⟩ := hpair.schedule regs
  rw [hpair.advance_of_first hrunning] at hr₃ hrunning₃
  rw [hrunning] at hself₃ hother₃
  -- and back
  obtain ⟨s₄, hr₄, -, hrunning₄, -, hother₄⟩ := hpair₃.schedule { CPURegisters.zero with rax := 8 }
  rw [hpair₃.advance_of_last hrunning₃] at hr₄ hrunning₄
  rw [hother₄ _ (by rw [hrunning₃]; decide), hself₃] at hr₄
  have hcreate := @SystemStep.create 0x100 ⟨bootScheduler, []⟩ 0x500 0x600 0x700 false (by decide)
    hreach List.not_mem_nil
  rw [state_new, ← hstate, ← hother₃ 0x500 (by decide)] at hcreate
  have hrun := ((Run.nil.snoc hcreate).snoc (.addThread List.mem_cons_self hadd)).snoc
    (systemStep_schedule hr₃ hrunning hrunning₃)
  exact ⟨_, s₄, _, _, rfl, hrun,
    faithful_of_run hrun (systemStep_schedule hr₄ hrunning₃ hrunning₄)⟩

end SmartOS
