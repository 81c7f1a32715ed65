import SmartOS.Scheduler.Fair

/-!
# What `schedule` selects

`schedule` takes the first thread after the one that was running that may run
(`Scheduler.Eligible`), round the queue. On its way it clears flags, but only of
threads that need not wait any more, so that the threads that may run are the
same at every point of the search (`Scheduler.Released.eligible_iff`).

* `eligible_of_findThread`: a thread that may not run is passed over;
* `selects_of_schedule`: what a call that returns has selected;
* `System.Live.step`: the search needs a head of the queue that has not ended. Where
  only other threads execute `_kill`, no step ends it (`LiveStep`);
* `schedule_selects`: the two together.
-/

namespace SmartOS

open Prog

/-! ## Specification -/

/-- A thread with flags cleared: `joined` only if `joinDone`, and `asleep` only if `awake`. -/
structure Thread.Released (joinDone awake : Prop) (x x' : Thread) : Prop where
  done : x'.done = x.done
  joinTarget : x'.joinTarget = x.joinTarget
  sleepTimeout : x'.sleepTimeout = x.sleepTimeout
  joined : x'.joined = x.joined ∨ x'.joined = false ∧ joinDone
  asleep : x'.asleep = x.asleep ∨ x'.asleep = false ∧ awake

/-- Flags of threads are cleared only where what the thread waits for has come. -/
def Scheduler.ReleasesThreads (s s' : Scheduler) : Prop :=
  ∀ t, (s.threads t).Released ((s.threads (s.threads t).joinTarget).done = true)
    ((s.threads t).sleepTimeout ≤ s.scheduledCounter) (s'.threads t)

/-- The running thread of `s'` is the first one, going round the queue `l` from that of `s`, that
    may run. -/
structure Scheduler.Selects (s : Scheduler) (l : List ℕ) (s' : Scheduler) : Prop where
  mem : s'.running ∈ l
  eligible : s.Eligible s'.running
  first : ∀ t ∈ l, s.Eligible t → steps l s.running s'.running ≤ steps l s.running t
  released : s.ReleasesThreads s'

/-- What sets flags of threads: `_kill` in a thread that is not the head of the queue,
    `isr_handler`, `sleep`, and other code, which ends no thread. -/
inductive Scheduler.SetsFlags (s : Scheduler) : Scheduler → Prop
  | _kill : s.running ≠ s.queue → SetsFlags s (_kill s)
  | isrHandler : SetsFlags s (isrHandler s)
  | sleep (millis : ℕ) : SetsFlags s (sleep millis s)
  | other {threads : ℕ → Thread} : (∀ t, (s.threads t).SameSaved (threads t)) →
      (∀ t, (threads t).done = true → (s.threads t).done = true) →
      SetsFlags s { s with threads := threads }

/-- A step of the system in which flags are only set so. -/
structure LiveStep (kill : ℕ) (s : System) (op : SystemOp) (s' : System) : Prop where
  step : SystemStep kill s op s'
  flags : op = .other → s.scheduler.SetsFlags s'.scheduler

/-! ## Flags that are cleared -/

variable {kill : ℕ} {s s' s'' : Scheduler} {t : ℕ} {l : List ℕ} {regs out : CPURegisters}

/-- The search has cleared flags, and gone on. -/
structure Scheduler.Released (s s' : Scheduler) : Prop where
  queue : s'.queue = s.queue
  scheduledCounter : s'.scheduledCounter = s.scheduledCounter
  threads : s.ReleasesThreads s'

theorem Thread.Released.refl {P Q : Prop} (x : Thread) : x.Released P Q x :=
  ⟨rfl, rfl, rfl, .inl rfl, .inl rfl⟩

theorem Thread.Released.trans {P Q : Prop} {x x' x'' : Thread} (h : x.Released P Q x')
    (h' : x'.Released P Q x'') : x.Released P Q x'' where
  done := h'.done.trans h.done
  joinTarget := h'.joinTarget.trans h.joinTarget
  sleepTimeout := h'.sleepTimeout.trans h.sleepTimeout
  joined := by
    rcases h'.joined with heq | hmet
    · exact heq ▸ h.joined
    · exact .inr hmet
  asleep := by
    rcases h'.asleep with heq | hmet
    · exact heq ▸ h.asleep
    · exact .inr hmet

namespace Scheduler.Released

theorem refl (s : Scheduler) : s.Released s := ⟨rfl, rfl, fun _ => .refl _⟩

theorem trans (h : s.Released s') (h' : s'.Released s'') : s.Released s'' where
  queue := h'.queue.trans h.queue
  scheduledCounter := h'.scheduledCounter.trans h.scheduledCounter
  threads t := by
    have ht := h'.threads t
    rw [(h.threads t).joinTarget, (h.threads _).done, (h.threads t).sleepTimeout,
      h.scheduledCounter] at ht
    exact (h.threads t).trans ht

theorem modify {f : Thread → Thread} (hf : (s.threads t).Released
      ((s.threads (s.threads t).joinTarget).done = true)
      ((s.threads t).sleepTimeout ≤ s.scheduledCounter) (f (s.threads t))) :
    s.Released (s.modify t f) where
  queue := rfl
  scheduledCounter := rfl
  threads q := by
    by_cases hq : q = t
    · subst hq
      rwa [modify_self]
    · rw [modify_of_ne hq]
      exact .refl _

theorem joined_iff (h : s.Released s') :
    ((s'.threads t).joined = true → (s'.threads (s'.threads t).joinTarget).done = true) ↔
      ((s.threads t).joined = true → (s.threads (s.threads t).joinTarget).done = true) := by
  rw [(h.threads t).joinTarget, (h.threads _).done]
  rcases (h.threads t).joined with heq | ⟨hcleared, hdone⟩
  · rw [heq]
  · simp [hcleared, hdone]

theorem asleep_iff (h : s.Released s') :
    ((s'.threads t).asleep = true → (s'.threads t).sleepTimeout ≤ s'.scheduledCounter) ↔
      ((s.threads t).asleep = true → (s.threads t).sleepTimeout ≤ s.scheduledCounter) := by
  rw [(h.threads t).sleepTimeout, h.scheduledCounter]
  rcases (h.threads t).asleep with heq | ⟨hcleared, htime⟩
  · rw [heq]
  · simp [hcleared, htime]

/-- The same threads may run. -/
theorem eligible_iff (h : s.Released s') : s'.Eligible t ↔ s.Eligible t := by
  have hdone := (h.threads t).done
  constructor
  · rintro ⟨hnot, hready⟩
    refine ⟨hdone.symm.trans hnot, hready.imp (fun heq => heq.trans h.queue) fun hwaits => ?_⟩
    exact ⟨h.joined_iff.1 hwaits.1, h.asleep_iff.1 hwaits.2⟩
  · rintro ⟨hnot, hready⟩
    refine ⟨hdone.trans hnot, hready.imp (fun heq => heq.trans h.queue.symm) fun hwaits => ?_⟩
    exact ⟨h.joined_iff.2 hwaits.1, h.asleep_iff.2 hwaits.2⟩

end Scheduler.Released

/-- The running thread saves its registers. -/
theorem released_save : s.Released (s.modify s.running fun x => { x with state := regs }) :=
  .modify ⟨rfl, rfl, rfl, .inl rfl, .inl rfl⟩

theorem released_joined (hdone : (s.threads (s.threads s.running).joinTarget).done = true) :
    s.Released (s.modify s.running fun x => { x with joined := false }) :=
  .modify ⟨rfl, rfl, rfl, .inr ⟨rfl, hdone⟩, .inl rfl⟩

theorem released_asleep (htime : (s.threads s.running).sleepTimeout ≤ s.scheduledCounter) :
    s.Released (s.modify s.running fun x => { x with asleep := false }) :=
  .modify ⟨rfl, rfl, rfl, .inl rfl, .inr ⟨rfl, htime⟩⟩

/-- What one round clears. -/
theorem findThread_released (hs : findThread s = .inl s' ∨ findThread s = .inr s') :
    s.Released s' := by
  have hround : s.advance.Released s' := findThread_rel Scheduler.Released .refl
    (fun _ => released_joined) (fun _ => released_asleep) (fun _ _ _ => .trans) hs
  exact ⟨hround.queue, hround.scheduledCounter, hround.threads⟩

/-! ## Threads that are passed over -/

/-- A thread that passes the first test waits for no other thread, or is the head of the queue. -/
theorem ready_of_checkJoined (h : s.checkJoined = .inr s') : s.running = s.queue ∨
    ((s.threads s.running).joined = true →
      (s.threads (s.threads s.running).joinTarget).done = true) := by
  simp only [Scheduler.checkJoined] at h
  split_ifs at h with hjoined hdone hhead
  · exact .inr fun _ => hdone
  · exact .inl (not_not.1 hhead)
  · exact .inr fun hj => absurd hj hjoined

/-- So does one that passes the second test, with the time. -/
theorem ready_of_checkAsleep (h : s.checkAsleep = .inr s') : s.running = s.queue ∨
    ((s.threads s.running).asleep = true →
      (s.threads s.running).sleepTimeout ≤ s.scheduledCounter) := by
  simp only [Scheduler.checkAsleep] at h
  split_ifs at h with hasleep htime hhead
  · exact .inr fun _ => htime
  · exact .inl (not_not.1 hhead)
  · exact .inr fun ha => absurd ha hasleep

/-- A thread that may not run is passed over. -/
theorem eligible_of_findThread (h : findThread s = .inr s') : s.Eligible s'.running := by
  have hcleared := findThread_cleared (.inr h)
  rw [findThread] at h
  cases hjoin : s.advance.checkJoined with
  | inl s₁ =>
    rw [hjoin] at h
    cases h
  | inr s₁ =>
    have hreleased := checkJoined_rel Scheduler.Released .refl (fun _ => released_joined)
      (.inr hjoin)
    have hrunning := checkJoined_rel Scheduler.Cleared .refl (fun _ _ => cleared_joined)
      (.inr hjoin)
    rw [hjoin] at h
    dsimp only at h
    cases hsleep : s₁.checkAsleep with
    | inl s₂ =>
      rw [hsleep] at h
      cases h
    | inr s₂ =>
      rw [hsleep] at h
      dsimp only at h
      split_ifs at h with hdone
      obtain rfl := Sum.inr.inj h
      rw [hcleared.running]
      refine ⟨?_, ?_⟩
      · rw [hcleared.running, hcleared.done, Bool.not_eq_true] at hdone
        exact hdone
      · -- What the second test reads, the first one may have changed.
        rcases ready_of_checkAsleep hsleep with hhead | hwakes
        · exact .inl (hrunning.running.symm.trans (hhead.trans hrunning.queue))
        · rw [hreleased.asleep_iff, hrunning.running] at hwakes
          exact (ready_of_checkJoined hjoin).imp_right fun hjoins => ⟨hjoins, hwakes⟩

theorem search_released {n : ℕ} (hs : loop findThread n s = some s') :
    s.Released s' ∧ s.Eligible s'.running := by
  refine loop_induction (fun x => s.Released x)
    (Q := fun x : Scheduler => s.Released x ∧ s.Eligible x.running) ?_ ?_ (.refl s) hs
  · exact fun x x' hx hround => hx.trans (findThread_released (.inl hround))
  · exact fun x x' hx hround => ⟨hx.trans (findThread_released (.inr hround)),
      hx.eligible_iff.1 (eligible_of_findThread hround)⟩

/-- What a call of `schedule` that returns has selected. -/
theorem selects_of_schedule (hq : s.Queue l)
    (hr : Returns (fun n => schedule regs s n) (out, s')) : s.Selects l s' := by
  obtain ⟨-, hqueue⟩ := schedule_spec hq hr
  have hfirst : ∀ t ∈ l, s.Eligible t → steps l s.running s'.running ≤ steps l s.running t := by
    -- A thread before the selected one was passed over, so it may not run.
    intro t ht heligible
    by_contra hlt
    rcases schedule_before hq heligible ht hqueue.running (Nat.not_le.1 hlt) hr with heq | hne
    · exact hlt (heq ▸ le_rfl)
    · exact hne.1 rfl
  obtain ⟨n, hn⟩ := hr.exists_fuel
  simp only [schedule, Option.bind_eq_some_iff, Option.some.injEq] at hn
  obtain ⟨s₁, hfind, hdispatch⟩ := hn
  obtain ⟨-, rfl⟩ := Prod.mk.inj hdispatch
  obtain ⟨hreleased, heligible⟩ := search_released hfind
  exact ⟨hqueue.running, released_save.eligible_iff.1 heligible, hfirst,
    (released_save.trans hreleased).threads⟩

/-! ## The head of the queue -/

variable {s s' : System} {op : SystemOp} {ops : List SystemOp}

/-- The queue is the list `l`, and its head has not ended. -/
structure System.Live (s : System) (l : List ℕ) : Prop where
  queued : s.Queued l
  head : (s.scheduler.threads s.scheduler.queue).done = false

/-- Setting flags does not touch what a thread has saved, -/
theorem Scheduler.SetsFlags.step {s : System} {s' : Scheduler} (h : s.scheduler.SetsFlags s') :
    SystemStep kill s .other ⟨s', s.waiting⟩ := by
  have hself {f : Thread → Thread} (hf : ∀ x : Thread, x.SameSaved (f x)) :
      SystemStep kill s .other ⟨s.scheduler.modify s.scheduler.running f, s.waiting⟩ :=
    .other (Scheduler.sameSaved_modify (hf _)).threads
  cases h with
  | _kill _ => exact hself fun _ => ⟨rfl, rfl, rfl, rfl, rfl, rfl, rfl, rfl⟩
  | isrHandler =>
    rw [SmartOS.isrHandler]
    split_ifs
    · exact hself fun _ => ⟨rfl, rfl, rfl, rfl, rfl, rfl, rfl, rfl⟩
    · exact .other fun _ => .refl _
  | sleep millis => exact hself fun _ => ⟨rfl, rfl, rfl, rfl, rfl, rfl, rfl, rfl⟩
  | other hsame _ => exact .other hsame

theorem head_modify {s : Scheduler} {f : Thread → Thread}
    (hf : s.queue ≠ t ∨ (f (s.threads t)).done = (s.threads t).done) :
    ((s.modify t f).threads (s.modify t f).queue).done = (s.threads s.queue).done := by
  rw [show (s.modify t f).queue = s.queue from rfl]
  by_cases heq : s.queue = t
  · rw [heq, modify_self]
    exact hf.resolve_left fun hne => hne heq
  · rw [modify_of_ne heq]

/-- nor does it end the head of the queue. -/
theorem Scheduler.SetsFlags.head {s s' : Scheduler} (h : s.SetsFlags s')
    (hdone : (s.threads s.queue).done = false) : (s'.threads s'.queue).done = false := by
  cases h with
  | _kill hne => exact (head_modify (.inl hne.symm)).trans hdone
  | isrHandler =>
    rw [SmartOS.isrHandler]
    split_ifs with hne
    · exact (head_modify (.inl (Ne.symm hne))).trans hdone
    · exact hdone
  | sleep millis => exact (head_modify (.inr rfl)).trans hdone
  | other _ hends => exact Bool.eq_false_iff.2 fun hend => Bool.eq_false_iff.1 hdone (hends _ hend)

/-- One step. -/
theorem System.Live.step (h : s.Live l) (hs : LiveStep kill s op s') : ∃ l', s'.Live l' := by
  obtain ⟨l', hqueued⟩ := h.queued.step hs.step
  refine ⟨l', hqueued, ?_⟩
  have hflags := hs.flags
  cases hs.step with
  | create _ hqueue _ =>
    -- A new thread is not in the queue.
    have hne : s.scheduler.queue ≠ _ := fun heq => hqueue (heq ▸ Reach.refl)
    exact (congrArg Thread.done (new_of_ne hne)).trans h.head
  | addThread _ hr =>
    obtain ⟨tail, -, -, rfl⟩ := addThread_spec h.queued.queue hr
    exact (head_modify (.inr rfl)).trans h.head
  | schedule hr =>
    -- What is cleared on the way ends no thread.
    obtain ⟨hscheduled, -⟩ := schedule_spec h.queued.queue hr
    have hdone := ((selects_of_schedule h.queued.queue hr).released s.scheduler.queue).done
    exact hscheduled.queue.symm ▸ hdone.trans h.head
  | other _ => exact (hflags rfl).head h.head

theorem live_initializeScheduler {name : ℕ} {s : Scheduler} :
    System.Live ⟨initializeScheduler kill name s, []⟩
      [(initializeScheduler kill name s).queue] where
  queued := .initializeScheduler
  head := (initializeScheduler_thread rfl).2.2.2.2

/-- `schedule` returns and dispatches the first thread that may run, as long as the head of the
    queue has not ended; and it never has in a run in which it does not execute `_kill`. -/
theorem schedule_selects :
    (∀ (s : Scheduler) (l : List ℕ) (regs : CPURegisters), s.Queue l →
      (s.threads s.queue).done = false → ∃ out s', Returns (fun n => schedule regs s n) (out, s') ∧
        Scheduled s regs out s' ∧ s.Selects l s') ∧
    ∀ (kill name : ℕ) (s₀ : Scheduler) (ops : List SystemOp) (s : System),
      Run (LiveStep kill) ⟨initializeScheduler kill name s₀, []⟩ ops s →
      (∃ l, s.scheduler.Queue l) ∧ (s.scheduler.threads s.scheduler.queue).done = false := by
  refine ⟨fun s l regs hq hdone => ?_, fun kill name s₀ ops s hr => ?_⟩
  · obtain ⟨⟨out, s'⟩, hr⟩ := @returns_schedule s l regs hq hdone
    exact ⟨out, s', hr, (schedule_spec hq hr).1, selects_of_schedule hq hr⟩
  · obtain ⟨l, hlive⟩ := hr.invariant (fun s : System => ∃ l, s.Live l)
      ⟨_, live_initializeScheduler⟩ fun _ _ _ ⟨_, hlive⟩ hs => hlive.step hs
    exact ⟨⟨l, hlive.queued.queue⟩, hlive.head⟩

/-- Two threads in turn; and the head of the queue after it has gone to sleep and then faulted. -/
theorem schedule_selects_twoThreads :
    (∃ out s', Returns (fun n => schedule .zero twoThreads n) (out, s') ∧
      Scheduled twoThreads .zero out s' ∧ twoThreads.Selects [1, 2] s') ∧
    ((isrHandler (sleep 5 bootScheduler)).threads
      (isrHandler (sleep 5 bootScheduler)).queue).done = false := by
  have hstep {s : System} {s' : Scheduler} (h : s.scheduler.SetsFlags s') :
      LiveStep 0x100 s .other ⟨s', s.waiting⟩ := ⟨h.step, fun _ => h⟩
  have hsleep := hstep (s := ⟨bootScheduler, []⟩) (.sleep 5)
  have hfault := hstep (s := ⟨sleep 5 bootScheduler, []⟩) .isrHandler
  have hrun := Run.snoc (Run.snoc .nil hsleep) hfault
  refine ⟨schedule_selects.1 twoThreads [1, 2] .zero ⟨.cons (by decide) (.last rfl), by decide⟩ rfl,
    (schedule_selects.2 _ _ _ _ _ hrun).2⟩

end SmartOS
