import SmartOS.Scheduler.Select

/-!
# Threads that end and threads that sleep

What `_kill`, `isr_handler` and `sleep` are for, over whole runs. A thread that has
ended is in the queue for ever; it should never run again. A thread that calls
`sleep(millis)` waits, in a loop or because it is passed over, until
`scheduledCounter` has come to the time that it has set; the call should not return
before there have been as many calls of `schedule`, which are the ticks of the timer.

The counter and the time wrap around at 2^64.

* `ThreadStep`: threads made, queued, scheduled, ended and put to sleep, and calls of
  `sleep` that return;
* `Sleepers.Inv` is the invariant: who has ended is marked so, and who sleeps is marked
  so until its time has come (`Sleeping`);
* `not_dispatched_of_ended`: a thread that has ended is never dispatched again;
* `sleeps_of_run`: no call of `sleep` returns early.
-/

namespace SmartOS

open Prog

/-! ## The system -/

/-- What happens. `wake` is the end of the loop of `sleep`. -/
inductive ThreadOp
  | create (thread : ℕ)
  | addThread (thread : ℕ)
  | schedule (preempted dispatched : ℕ)
  | kill (thread : ℕ)
  | fault (thread : ℕ)
  | sleep (thread millis : ℕ)
  | wake (thread : ℕ)
  deriving Repr, DecidableEq

/-- The system, and the threads that are in a call of `sleep`. -/
structure Sleepers where
  system : System
  sleeping : List ℕ

/-- The steps. A thread in the loop of `sleep` does nothing else. A fault of the head of the queue
    is none of them, for it leaves the interrupts off. -/
inductive ThreadStep (kill : ℕ) (s : Sleepers) : ThreadOp → Sleepers → Prop
  | create {this entry name : ℕ} {user : Bool} : this ≠ 0 →
      ¬Reach s.system.scheduler.next s.system.scheduler.queue this → this ∉ s.system.waiting →
      ThreadStep kill s (.create this)
        { s with system :=
          ⟨Thread.new kill this entry name user s.system.scheduler, this :: s.system.waiting⟩ }
  | addThread {thread : ℕ} {s' : Scheduler} : thread ∈ s.system.waiting →
      Returns (fun n => addThread thread s.system.scheduler n) s' →
      ThreadStep kill s (.addThread thread)
        { s with system := ⟨s', s.system.waiting.erase thread⟩ }
  | schedule {regs out : CPURegisters} {s' : Scheduler} :
      Returns (fun n => schedule regs s.system.scheduler n) (out, s') →
      ThreadStep kill s (.schedule s.system.scheduler.running s'.running)
        { s with system := ⟨s', s.system.waiting⟩ }
  | kill : s.system.scheduler.running ∉ s.sleeping →
      ThreadStep kill s (.kill s.system.scheduler.running)
        { s with system := ⟨_kill s.system.scheduler, s.system.waiting⟩ }
  | fault : s.system.scheduler.running ≠ s.system.scheduler.queue →
      ThreadStep kill s (.fault s.system.scheduler.running)
        { s with system := ⟨isrHandler s.system.scheduler, s.system.waiting⟩ }
  | sleep {millis : ℕ} : s.system.scheduler.running ∉ s.sleeping →
      ThreadStep kill s (.sleep s.system.scheduler.running millis)
        ⟨⟨sleep millis s.system.scheduler, s.system.waiting⟩,
          s.system.scheduler.running :: s.sleeping⟩
  | wake : s.system.scheduler.running ∈ s.sleeping →
      ¬(s.system.scheduler.threads s.system.scheduler.running).sleepTimeout >
        s.system.scheduler.scheduledCounter →
      ThreadStep kill s (.wake s.system.scheduler.running)
        { s with sleeping := s.sleeping.erase s.system.scheduler.running }

/-- The system when the scheduler has just been initialized. -/
def bootSleepers (kill name : ℕ) (s₀ : Scheduler) : Sleepers :=
  ⟨⟨initializeScheduler kill name s₀, []⟩, []⟩

/-! ## Specification -/

/-- The operation is a tick: a call of `schedule`. -/
def ThreadOp.isTick : ThreadOp → Bool
  | .schedule _ _ => true
  | _ => false

/-- How many ticks there have been. -/
def ticks (ops : List ThreadOp) : ℕ := ops.countP ThreadOp.isTick

/-- The operation ends the thread. -/
def ThreadOp.Ends (t : ℕ) : ThreadOp → Prop
  | .kill thread => thread = t
  | .fault thread => thread = t
  | _ => False

/-- The thread `t` is in a call of `sleep(millis)`, which it made when there had been `since`
    ticks. -/
def Sleeping (ops : List ThreadOp) (t millis since : ℕ) : Prop :=
  ∃ before mid, ops = before ++ .sleep t millis :: mid ∧ .wake t ∉ mid ∧ since = ticks before

/-! ## Steps -/

variable {kill : ℕ} {s s' : Sleepers} {s₀ : Scheduler} {op : ThreadOp} {ops : List ThreadOp}
  {t millis since : ℕ} {l : List ℕ} {regs out : CPURegisters}

/-- Every call of `schedule` is counted. -/
theorem scheduledCounter_of_schedule {s s' : Scheduler}
    (hr : Returns (fun n => schedule regs s n) (out, s')) :
    s'.scheduledCounter = wrap (s.scheduledCounter + 1) := by
  obtain ⟨n, hn⟩ := hr.exists_fuel
  simp only [SmartOS.schedule, Option.bind_eq_some_iff, Option.some.injEq] at hn
  obtain ⟨s₁, hfind, hdispatch⟩ := hn
  obtain ⟨-, rfl⟩ := Prod.mk.inj hdispatch
  exact congrArg (fun n => wrap (n + 1)) (search_released hfind).1.scheduledCounter

theorem ticks_append (ops ops' : List ThreadOp) : ticks (ops ++ ops') = ticks ops + ticks ops' :=
  List.countP_append

/-- A call of `sleep` goes on, or begins. -/
theorem sleeping_snoc : Sleeping (ops ++ [op]) t millis since ↔
    (op = .sleep t millis ∧ since = ticks ops) ∨
      (Sleeping ops t millis since ∧ op ≠ .wake t) := by
  constructor
  · rintro ⟨before, mid, hops, hmid, rfl⟩
    induction mid using List.reverseRecOn with
    | nil =>
      obtain ⟨rfl, hop⟩ := List.append_inj' hops rfl
      exact .inl ⟨(List.cons.inj hop).1, rfl⟩
    | append_singleton mid op' _ =>
      rw [← List.cons_append, ← List.append_assoc] at hops
      obtain ⟨rfl, hop⟩ := List.append_inj' hops rfl
      obtain rfl := (List.cons.inj hop).1
      refine .inr ⟨⟨before, mid, rfl, fun h => hmid (List.mem_append_left _ h), rfl⟩, fun h => ?_⟩
      exact hmid (List.mem_append_right _ (h ▸ List.mem_cons_self))
  · rintro (⟨rfl, rfl⟩ | ⟨⟨before, mid, rfl, hmid, rfl⟩, hop⟩)
    · exact ⟨ops, [], rfl, List.not_mem_nil, rfl⟩
    · refine ⟨before, mid ++ [op], by rw [List.append_assoc, List.cons_append], fun h => ?_, rfl⟩
      rcases List.mem_append.1 h with h | h
      · exact hmid h
      · exact hop (List.mem_singleton.1 h).symm

/-! ## The invariant -/

/-- Threads that have ended are marked so, and threads that sleep, until their time has come, as
    long as nothing has wrapped around. -/
structure Sleepers.Inv (ops : List ThreadOp) (s : Sleepers) (l : List ℕ) : Prop where
  queued : s.system.Queued l
  counter : s.system.scheduler.scheduledCounter = wrap (ticks ops)
  ended : ∀ t, (∃ op ∈ ops, op.Ends t) → t ∈ l ∧ (s.system.scheduler.threads t).done = true
  sleeping : ∀ t millis since, Sleeping ops t millis since → t ∈ l ∧ t ∈ s.sleeping ∧
    (millis + since < 2 ^ 64 → ticks ops < 2 ^ 64 →
      (s.system.scheduler.threads t).sleepTimeout = millis + since ∧
      ((s.system.scheduler.threads t).asleep = true ∨ millis + since ≤ ticks ops))

/-- The thread sleeps as before, and has not come back to life. -/
structure Thread.SleepsAlike (x x' : Thread) : Prop where
  sleepTimeout : x'.sleepTimeout = x.sleepTimeout
  asleep : x'.asleep = x.asleep
  done : x.done = true → x'.done = true

theorem Thread.SleepsAlike.refl (x : Thread) : x.SleepsAlike x := ⟨rfl, rfl, id⟩

theorem sleepsAlike_modify {s : Scheduler} {p : ℕ} {f : Thread → Thread}
    (hf : ∀ x : Thread, x.SleepsAlike (f x)) (t : ℕ) :
    (s.threads t).SleepsAlike ((s.modify p f).threads t) := by
  by_cases heq : t = p
  · subst heq
    rw [modify_self]
    exact hf _
  · rw [modify_of_ne heq]
    exact .refl _

theorem queued_modify {s : System} {p : ℕ} {f : Thread → Thread} (h : s.Queued l)
    (hf : ∀ x : Thread, x.SameSaved (f x)) :
    System.Queued ⟨s.scheduler.modify p f, s.waiting⟩ l := by
  have hsame : ∀ t, (s.scheduler.threads t).SameSaved ((s.scheduler.modify p f).threads t) :=
    (Scheduler.sameSaved_modify (hf _)).threads
  exact h.other hsame

/-- An operation that is none of sleeping. -/
theorem Sleepers.Inv.keep {l' : List ℕ} (hI : s.Inv ops l) (hqueued : s'.system.Queued l')
    (hl : l ⊆ l')
    (hcounter : s'.system.scheduler.scheduledCounter = s.system.scheduler.scheduledCounter)
    (hop : op.isTick = false ∧ (∀ t millis, op ≠ .sleep t millis))
    (hsleeping : ∀ t ∈ s.sleeping, op ≠ .wake t → t ∈ s'.sleeping)
    (halike : ∀ t ∈ l,
      (s.system.scheduler.threads t).SleepsAlike (s'.system.scheduler.threads t))
    (hended : ∀ t, op.Ends t → t ∈ l' ∧ (s'.system.scheduler.threads t).done = true) :
    s'.Inv (ops ++ [op]) l' := by
  have hticks : ticks (ops ++ [op]) = ticks ops := by
    rw [ticks_append, ticks, ticks, List.countP_singleton, hop.1, if_neg Bool.false_ne_true,
      Nat.add_zero]
  refine ⟨hqueued, ?_, fun t hends => ?_, fun t millis since hsleep => ?_⟩
  · rw [hcounter, hI.counter, hticks]
  · obtain ⟨op', hmem, hop'⟩ := hends
    rcases List.mem_append.1 hmem with hmem | hmem
    · obtain ⟨hmem', hdone⟩ := hI.ended t ⟨op', hmem, hop'⟩
      exact ⟨hl hmem', (halike t hmem').done hdone⟩
    · exact hended t (List.mem_singleton.1 hmem ▸ hop')
  · rcases sleeping_snoc.1 hsleep with ⟨heq, -⟩ | ⟨hsleep, hwake⟩
    · exact absurd heq (hop.2 t millis)
    · obtain ⟨hmem, hin, htime⟩ := hI.sleeping t millis since hsleep
      refine ⟨hl hmem, hsleeping t hin hwake, ?_⟩
      rw [hticks, (halike t hmem).sleepTimeout, (halike t hmem).asleep]
      exact htime

/-- A tick: `schedule` only wakes threads whose time has come. -/
theorem Sleepers.Inv.tick {s' : Scheduler} (hI : s.Inv ops l)
    (hr : Returns (fun n => SmartOS.schedule regs s.system.scheduler n) (out, s')) :
    Sleepers.Inv (ops ++ [.schedule s.system.scheduler.running s'.running])
      { s with system := ⟨s', s.system.waiting⟩ } l := by
  obtain ⟨hscheduled, hqueue⟩ := schedule_spec hI.queued.queue hr
  have hselects := selects_of_schedule hI.queued.queue hr
  have hticks : ticks (ops ++ [.schedule s.system.scheduler.running s'.running]) =
      ticks ops + 1 := by
    rw [ticks_append]
    rfl
  refine ⟨hI.queued.schedule hscheduled hqueue, ?_, fun t hends => ?_,
    fun t millis since hsleep => ?_⟩
  · rw [hticks]
    dsimp only
    rw [scheduledCounter_of_schedule hr, hI.counter, wrap_eq_mod, wrap_eq_mod, wrap_eq_mod,
      Nat.mod_add_mod]
  · obtain ⟨op, hmem, hop⟩ := hends
    rcases List.mem_append.1 hmem with hmem | hmem
    · obtain ⟨hmem', hdone⟩ := hI.ended t ⟨op, hmem, hop⟩
      exact ⟨hmem', (hselects.released t).done.trans hdone⟩
    · rw [List.mem_singleton.1 hmem] at hop
      exact hop.elim
  · rcases sleeping_snoc.1 hsleep with ⟨heq, -⟩ | ⟨hsleep, -⟩
    · cases heq
    · obtain ⟨hmem, hin, htime⟩ := hI.sleeping t millis since hsleep
      refine ⟨hmem, hin, fun hlt hlt' => ?_⟩
      rw [hticks] at hlt' ⊢
      obtain ⟨htimeout, hasleep⟩ := htime hlt (by omega)
      refine ⟨(hselects.released t).sleepTimeout.trans htimeout, ?_⟩
      rcases (hselects.released t).asleep with heq | ⟨-, hle⟩
      · exact hasleep.imp (fun h => heq.trans h) fun h => h.trans (Nat.le_succ _)
      · rw [htimeout, hI.counter, wrap_of_lt (by omega)] at hle
        exact .inr (hle.trans (Nat.le_succ _))

/-- A call of `sleep` begins. -/
theorem Sleepers.Inv.sleep (hI : s.Inv ops l) (hnot : s.system.scheduler.running ∉ s.sleeping) :
    Sleepers.Inv (ops ++ [.sleep s.system.scheduler.running millis])
      ⟨⟨SmartOS.sleep millis s.system.scheduler, s.system.waiting⟩,
        s.system.scheduler.running :: s.sleeping⟩ l := by
  have hticks : ticks (ops ++ [.sleep s.system.scheduler.running millis]) = ticks ops := by
    rw [ticks_append]
    rfl
  refine ⟨queued_modify hI.queued fun _ => ⟨rfl, rfl, rfl, rfl, rfl, rfl, rfl, rfl⟩, ?_,
    fun t hends => ?_, fun t millis' since hsleep => ?_⟩
  · rw [hticks]
    exact hI.counter
  · obtain ⟨op, hmem, hop⟩ := hends
    rcases List.mem_append.1 hmem with hmem | hmem
    · obtain ⟨hmem', hdone⟩ := hI.ended t ⟨op, hmem, hop⟩
      refine ⟨hmem', ?_⟩
      rw [SmartOS.sleep]
      by_cases heq : t = s.system.scheduler.running
      · subst heq
        rw [modify_self]
        exact hdone
      · rw [modify_of_ne heq]
        exact hdone
    · rw [List.mem_singleton.1 hmem] at hop
      exact hop.elim
  · rw [hticks]
    rcases sleeping_snoc.1 hsleep with ⟨heq, rfl⟩ | ⟨hsleep, -⟩
    · obtain ⟨rfl, rfl⟩ := ThreadOp.sleep.inj heq
      refine ⟨hI.queued.queue.running, List.mem_cons_self, fun hlt hlt' => ?_⟩
      rw [SmartOS.sleep]
      dsimp only
      rw [modify_self, hI.counter, wrap_of_lt hlt', wrap_of_lt hlt]
      exact ⟨rfl, .inl rfl⟩
    · obtain ⟨hmem, hin, htime⟩ := hI.sleeping t millis' since hsleep
      have hne : t ≠ s.system.scheduler.running := fun heq => hnot (heq ▸ hin)
      refine ⟨hmem, List.mem_cons_of_mem _ hin, ?_⟩
      rw [SmartOS.sleep]
      dsimp only
      rw [modify_of_ne hne]
      exact htime

/-- A thread ends. -/
theorem Sleepers.Inv.end_running (hI : s.Inv ops l)
    (hop : op = .kill s.system.scheduler.running ∨ op = .fault s.system.scheduler.running) :
    Sleepers.Inv (ops ++ [op])
      { s with system := ⟨s.system.scheduler.modify s.system.scheduler.running
        fun x => { x with done := true }, s.system.waiting⟩ } l := by
  have hnot : op.isTick = false ∧ (∀ t millis, op ≠ .sleep t millis) := by
    rcases hop with rfl | rfl <;> exact ⟨rfl, nofun⟩
  refine hI.keep (queued_modify hI.queued fun _ => ⟨rfl, rfl, rfl, rfl, rfl, rfl, rfl, rfl⟩)
    (List.Subset.refl l) rfl hnot (fun t ht _ => ht) (fun t _ => ?_) fun t ht => ?_
  · dsimp only
    refine sleepsAlike_modify (fun _ => ?_) t
    exact ⟨rfl, rfl, fun _ => rfl⟩
  · obtain rfl : s.system.scheduler.running = t := by
      rcases hop with rfl | rfl <;> exact ht
    dsimp only
    rw [modify_self]
    exact ⟨hI.queued.queue.running, rfl⟩

theorem Sleepers.Inv.step (hI : s.Inv ops l) (hs : ThreadStep kill s op s') :
    ∃ l', s'.Inv (ops ++ [op]) l' := by
  cases hs with
  | @create this _ _ _ h0 hqueue hwaiting =>
    refine ⟨l, hI.keep (hI.queued.create h0 hqueue hwaiting) (List.Subset.refl l) rfl
      ⟨rfl, by simp⟩ (fun t ht _ => ht) (fun t ht => ?_) fun _ => False.elim⟩
    -- A new thread is not in the queue.
    have hne : t ≠ this := fun heq => hqueue (hI.queued.queue.linked.reach (heq ▸ ht))
    rw [new_of_ne hne]
    exact .refl _
  | addThread hmem hr =>
    have hqueued := hI.queued.addThread hmem hr
    obtain ⟨tail, -, -, rfl⟩ := addThread_spec hI.queued.queue hr
    refine ⟨_, hI.keep hqueued (List.subset_append_left l _) rfl
      ⟨rfl, by simp⟩ (fun t ht _ => ht) (fun t _ => ?_) fun _ => False.elim⟩
    dsimp only
    refine sleepsAlike_modify (fun _ => ?_) t
    exact ⟨rfl, rfl, id⟩
  | schedule hr => exact ⟨l, hI.tick hr⟩
  | kill _ => exact ⟨l, hI.end_running (.inl rfl)⟩
  | fault hne =>
    rw [isrHandler, if_pos hne]
    exact ⟨l, hI.end_running (.inr rfl)⟩
  | sleep hnot => exact ⟨l, hI.sleep hnot⟩
  | wake _ _ =>
    refine ⟨l, hI.keep hI.queued (List.Subset.refl l) rfl
      ⟨rfl, by simp⟩ (fun t ht hwake => ?_) (fun t _ => .refl _) fun _ => False.elim⟩
    have hne : t ≠ s.system.scheduler.running := fun heq => hwake (congrArg _ heq.symm)
    exact (List.mem_erase_of_ne hne).2 ht

/-! ## Runs -/

variable {name : ℕ}

theorem inv_bootSleepers : (bootSleepers kill name s₀).Inv []
    [(initializeScheduler kill name s₀).queue] where
  queued := .initializeScheduler
  counter := (wrap_of_lt (Nat.two_pow_pos 64)).symm
  ended t h := by
    obtain ⟨op, hmem, -⟩ := h
    exact absurd hmem List.not_mem_nil
  sleeping t millis since h := by
    obtain ⟨before, mid, hops, -⟩ := h
    simp at hops

/-- The head of the queue stays where it is. -/
theorem queue_of_step (hI : s.Inv ops l) (hs : ThreadStep kill s op s') :
    s'.system.scheduler.queue = s.system.scheduler.queue := by
  cases hs with
  | addThread _ hr =>
    obtain ⟨tail, -, -, rfl⟩ := addThread_spec hI.queued.queue hr
    rfl
  | schedule hr => exact (schedule_spec hI.queued.queue hr).1.queue
  | fault hne =>
    rw [isrHandler, if_pos hne]
    rfl
  | _ => rfl

/-- A run stopped in the middle. -/
theorem exists_inv_before {before after : List ThreadOp}
    (hr : Run (ThreadStep kill) (bootSleepers kill name s₀) (before ++ op :: after) s) :
    ∃ s₁ l s₂, s₁.Inv before l ∧ ThreadStep kill s₁ op s₂ ∧
      s₁.system.scheduler.queue = (initializeScheduler kill name s₀).queue := by
  obtain ⟨s₁, hr₁, hr₂⟩ := hr.exists_mid
  obtain ⟨s₂, hs, -⟩ := hr₂.exists_first
  obtain ⟨l, hI, hhead⟩ := hr₁.history (fun ops s => ∃ l, s.Inv ops l ∧
    s.system.scheduler.queue = (initializeScheduler kill name s₀).queue)
    ⟨_, inv_bootSleepers, rfl⟩ fun ops s op s' ⟨l, hI, hhead⟩ hs => by
      obtain ⟨l', hI'⟩ := hI.step hs
      exact ⟨l', hI', (queue_of_step hI hs).trans hhead⟩
  exact ⟨s₁, l, s₂, hI, hs, hhead⟩

/-- A thread that has ended, by itself or by a fault, is never dispatched again. -/
theorem not_dispatched_of_ended {before after : List ThreadOp}
    (hr : Run (ThreadStep kill) (bootSleepers kill name s₀) (before ++ op :: after) s)
    (hends : op.Ends t) : ∀ p, .schedule p t ∉ after := by
  intro p hmem
  obtain ⟨mid, rest, rfl⟩ := List.append_of_mem hmem
  rw [← List.cons_append, ← List.append_assoc] at hr
  obtain ⟨s₁, l, s₂, hI, hs, -⟩ := exists_inv_before hr
  have hdone := (hI.ended t ⟨op, by simp, hends⟩).2
  cases hs with
  | schedule hreturns =>
    have heligible := (selects_of_schedule hI.queued.queue hreturns).eligible
    rw [heligible.done] at hdone
    cases hdone

/-- A call of `sleep(millis)` returns when there have been as many ticks since, and until then the
    thread is not even dispatched, unless it is the head of the queue. -/
theorem sleeps_of_run {before mid after : List ThreadOp}
    (hr : Run (ThreadStep kill) (bootSleepers kill name s₀)
      (before ++ .sleep t millis :: mid ++ op :: after) s)
    (hmid : .wake t ∉ mid) (hmillis : millis + ticks before < 2 ^ 64)
    (hticks : ticks (before ++ .sleep t millis :: mid ++ op :: after) < 2 ^ 64) :
    (op = .wake t → millis ≤ ticks mid) ∧
      ∀ p, op = .schedule p t → t ≠ (initializeScheduler kill name s₀).queue →
        millis ≤ ticks mid := by
  obtain ⟨s₁, l, s₂, hI, hs, hhead⟩ := exists_inv_before hr
  have hcount : ticks (before ++ .sleep t millis :: mid) = ticks before + ticks mid := by
    rw [ticks_append]
    rfl
  rw [ticks_append] at hticks
  have hlt : ticks (before ++ .sleep t millis :: mid) < 2 ^ 64 := by omega
  obtain ⟨-, -, htime⟩ := hI.sleeping t millis (ticks before) ⟨before, mid, rfl, hmid, rfl⟩
  obtain ⟨htimeout, hasleep⟩ := htime hmillis hlt
  have hcounter := hI.counter
  rw [wrap_of_lt hlt] at hcounter
  constructor
  · rintro rfl
    cases hs with
    | wake _ hle =>
      rw [htimeout, hcounter] at hle
      omega
  · rintro p rfl hne
    cases hs with
    | schedule hreturns =>
      rcases hasleep with hasleep | hle
      · have heligible := (selects_of_schedule hI.queued.queue hreturns).eligible
        have hready := (heligible.ready.resolve_left (hhead ▸ hne)).2 hasleep
        rw [htimeout, hcounter] at hready
        omega
      · omega

/-- A scheduler just initialized, in which no thread sleeps. -/
def bootedSleepers : Sleepers := bootSleepers 0x100 0x200 zeroScheduler

theorem threadStep_schedule {s s' : Scheduler} {p d : ℕ} {waiting sleeping : List ℕ}
    (hr : Returns (fun n => schedule regs s n) (out, s')) (hp : s.running = p)
    (hd : s'.running = d) :
    ThreadStep kill ⟨⟨s, waiting⟩, sleeping⟩ (.schedule p d) ⟨⟨s', waiting⟩, sleeping⟩ := by
  subst hp hd
  exact .schedule hr

/-- Another thread is made, runs and ends. It comes next in the queue then, but is passed over. -/
theorem not_dispatched_of_ended_pair : ∃ s, Run (ThreadStep 0x100) bootedSleepers
      ([.create 0x500, .addThread 0x500, .schedule 0x1000 0x500] ++
        .kill 0x500 :: [.schedule 0x500 0x1000, .schedule 0x1000 0x1000]) s ∧
    s.system.scheduler.next 0x1000 = 0x500 ∧
    ∀ p, ThreadOp.schedule p 0x500 ∉ [ThreadOp.schedule 0x500 0x1000, .schedule 0x1000 0x1000] := by
  obtain ⟨hqueue, hready⟩ := queue_bootScheduler
  obtain ⟨hreach, s₂, hadd, hpair, hrunning, -, -⟩ :=
    @exists_pair 0x100 bootScheduler 0x1000 0x500 0x600 0x700 false hqueue hready (by decide)
      (by decide)
  have hcreate := @ThreadStep.create 0x100 bootedSleepers 0x500 0x600 0x700 false (by decide)
    hreach List.not_mem_nil
  obtain ⟨s₃, hr₃, hpair₃, hrunning₃, -, -⟩ := hpair.schedule .zero
  rw [hpair.advance_of_first hrunning] at hrunning₃
  have hkill : ThreadStep 0x100 ⟨⟨s₃, []⟩, []⟩ (.kill 0x500) ⟨⟨_kill s₃, []⟩, []⟩ :=
    hrunning₃ ▸ .kill List.not_mem_nil
  -- The thread at the head is dispatched,
  have hq₃ : System.Queued ⟨s₃, []⟩ [0x1000, 0x500] :=
    ⟨hpair₃.linked, fun _ h => absurd h List.not_mem_nil, .nil⟩
  have hq₄ : (_kill s₃).Queue [0x1000, 0x500] :=
    (queued_modify (f := fun x => { x with done := true }) hq₃
      fun _ => ⟨rfl, rfl, rfl, rfl, rfl, rfl, rfl, rfl⟩).queue
  have hne : 0x1000 ≠ s₃.running := by
    rw [hrunning₃]
    decide
  have hfirst : (_kill s₃).threads 0x1000 = s₃.threads 0x1000 := modify_of_ne hne
  have hadvance : (_kill s₃).advance.running = 0x1000 := by
    have hlast : (_kill s₃).next (_kill s₃).running = 0 := by
      show ((_kill s₃).threads s₃.running).next = 0
      rw [_kill, modify_self, hrunning₃]
      exact hpair₃.last
    rw [Scheduler.advance, hlast, if_neg (not_not.2 rfl)]
    exact hpair₃.queue
  obtain ⟨s₅, hr₅, hrunning₅, hqueue₅, hthreads₅⟩ :=
    @exists_schedule (_kill s₃) .zero (by rw [hadvance, hfirst]; exact hpair₃.ready.1)
  rw [hadvance] at hrunning₅
  have hq₅ := (schedule_spec hq₄ hr₅).2
  -- and the next one is passed over.
  have hdone₅ : (s₅.threads s₅.queue).done = false := by
    have hqueue : s₅.queue = 0x1000 := hqueue₅.trans hpair₃.queue
    have hthread : s₅.threads 0x1000 = s₃.threads 0x1000 := by
      rw [hthreads₅, ← hfirst]
      exact modify_of_ne hne
    rw [hqueue, hthread]
    exact hpair₃.ready.1.done
  obtain ⟨⟨out, s₆⟩, hr₆⟩ := @returns_schedule s₅ _ .zero hq₅ hdone₅
  have hq₆ := (schedule_spec hq₅ hr₆).2
  have hboot : Run (ThreadStep 0x100) bootedSleepers [] _ := .nil
  have hrun := (((((hboot.snoc hcreate).snoc (.addThread List.mem_cons_self hadd)).snoc
    (threadStep_schedule hr₃ hrunning hrunning₃)).snoc hkill).snoc
    (threadStep_schedule hr₅ hrunning₃ hrunning₅)).snoc
    (threadStep_schedule hr₆ hrunning₅ rfl)
  have hnot := not_dispatched_of_ended (show Run _ _ ([_, _, _] ++ ThreadOp.kill 0x500 :: [_, _]) _
    from hrun) rfl
  have hrunning₆ : s₆.running = 0x1000 := by
    have hor : s₆.running = 0x1000 ∨ s₆.running = 0x500 := by simpa using hq₆.running
    exact hor.resolve_right fun heq => hnot 0x1000 (by simp [heq])
  rw [hrunning₆] at hrun hnot
  have hnext : s₆.next 0x1000 = 0x500 := by
    have hlinked := hq₆.linked
    generalize s₆.queue = a at hlinked
    cases hlinked with
    | cons _ hrest => exact List.mem_singleton.1 hrest.head_mem
  exact ⟨_, hrun, hnext, hnot⟩

/-- A call of `sleep(1)` of the kernel's thread, and one tick. -/
theorem sleeps_of_run_tick :
    (ThreadOp.wake bootScheduler.running = .wake bootScheduler.running →
      1 ≤ ticks [.schedule bootScheduler.running bootScheduler.running]) ∧
      ∀ p, ThreadOp.wake bootScheduler.running = .schedule p bootScheduler.running →
        bootScheduler.running ≠ bootScheduler.queue →
        1 ≤ ticks [.schedule bootScheduler.running bootScheduler.running] := by
  obtain ⟨hrunning, -, -, -, hdone⟩ := initializeScheduler_thread (t := bootScheduler) rfl
  have hinit : bootedSleepers.Inv [] [bootScheduler.queue] := inv_bootSleepers
  have hI₁ : Sleepers.Inv [.sleep bootScheduler.running 1]
      ⟨⟨sleep 1 bootScheduler, []⟩, [bootScheduler.running]⟩ [bootScheduler.queue] :=
    hinit.sleep List.not_mem_nil
  obtain ⟨⟨out, s'⟩, hr⟩ : ∃ r, Returns (fun n => schedule .zero (sleep 1 bootScheduler) n) r :=
    returns_schedule hI₁.queued.queue ((head_modify (.inr rfl)).trans hdone)
  have hI₂ := hI₁.tick hr
  have hsame : s'.running = bootScheduler.running :=
    (List.mem_singleton.1 hI₂.queued.queue.running).trans hrunning.symm
  -- The time has come after one tick.
  have hsleeping : Sleeping ([.sleep bootScheduler.running 1] ++
      [ThreadOp.schedule bootScheduler.running s'.running]) bootScheduler.running 1 0 :=
    ⟨[], [.schedule bootScheduler.running s'.running], rfl, by simp, rfl⟩
  have hone : 1 < 2 ^ 64 := by decide
  obtain ⟨htimeout, -⟩ := (hI₂.sleeping _ 1 0 hsleeping).2.2 hone hone
  have hcounter : s'.scheduledCounter = 1 := hI₂.counter.trans (wrap_of_lt hone)
  have hrun : Run (ThreadStep 0x100) bootedSleepers ([] ++ .sleep bootScheduler.running 1 ::
      [.schedule bootScheduler.running s'.running] ++ .wake s'.running :: [])
      ⟨⟨s', []⟩, [bootScheduler.running].erase s'.running⟩ :=
    ((Run.nil.snoc (.sleep List.not_mem_nil)).snoc (.schedule hr)).snoc
      (.wake (hsame ▸ List.mem_cons_self) (by
        rw [hsame, htimeout, hcounter]
        decide))
  rw [hsame] at hrun
  exact sleeps_of_run hrun (by simp) hone hone

end SmartOS
