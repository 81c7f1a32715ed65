import SmartOS.Lib.Cycle
import SmartOS.Scheduler.Run

/-!
# No thread starves

`schedule` goes round the queue from the thread that was running, and takes the
first thread that it finds eligible (`Scheduler.Eligible`); threads that are
queued meanwhile come last. So a thread that stays eligible has its turn before
any other thread has its next one.

* `findThread_of_eligible`: a thread that is eligible is taken when the search
  reaches it, whatever flags the search has cleared on its way;
* `Scheduler.Turn` is the invariant after a dispatch of `u`: going round, `t`
  comes before `u` (`Turn.step`);
* `dispatched_between`: between two dispatches of `u`, `t` is dispatched;
* `returns_schedule`: while the head of the queue has not ended, the search ends.
-/

namespace SmartOS

open Prog

/-! ## Specification -/

/-- The thread may run: it has not ended, and it is the head of the queue, or waits neither for a
    thread that has not ended nor for a time to come. -/
structure Scheduler.Eligible (s : Scheduler) (t : ℕ) : Prop where
  done : (s.threads t).done = false
  ready : t = s.queue ∨
    ((s.threads t).joined = true → (s.threads (s.threads t).joinTarget).done = true) ∧
      ((s.threads t).asleep = true → (s.threads t).sleepTimeout ≤ s.scheduledCounter)

/-- The operation dispatches the thread. -/
def SystemOp.Dispatches (t : ℕ) : SystemOp → Prop
  | .schedule _ _ dispatched _ => dispatched = t
  | _ => False

theorem dispatches_inj {op : SystemOp} {t u : ℕ} (ht : op.Dispatches t) (hu : op.Dispatches u) :
    t = u := by
  cases op with
  | schedule _ _ dispatched _ => exact Eq.trans (Eq.symm ht) hu
  | _ => exact ht.elim

/-- A step before which, if it is a call of `schedule`, the thread `t` is in the queue and may
    run. -/
structure EligibleStep (kill t : ℕ) (s : System) (op : SystemOp) (s' : System) : Prop where
  step : SystemStep kill s op s'
  eligible : ∀ {preempted dispatched : ℕ} {regs out : CPURegisters},
    op = .schedule preempted regs dispatched out →
    Reach s.scheduler.next s.scheduler.queue t ∧ s.scheduler.Eligible t

/-! ## What a search changes -/

variable {kill : ℕ} {s s' : Scheduler} {t u : ℕ} {l : List ℕ} {regs out : CPURegisters}

/-- What threads wait for is the same, but flags of theirs may have been cleared. -/
structure Scheduler.Cleared (s s' : Scheduler) : Prop where
  queue : s'.queue = s.queue
  running : s'.running = s.running
  scheduledCounter : s'.scheduledCounter = s.scheduledCounter
  done : ∀ t, (s'.threads t).done = (s.threads t).done
  joinTarget : ∀ t, (s'.threads t).joinTarget = (s.threads t).joinTarget
  sleepTimeout : ∀ t, (s'.threads t).sleepTimeout = (s.threads t).sleepTimeout
  joined : ∀ t, (s'.threads t).joined = true → (s.threads t).joined = true
  asleep : ∀ t, (s'.threads t).asleep = true → (s.threads t).asleep = true

namespace Scheduler.Cleared

theorem refl (s : Scheduler) : s.Cleared s :=
  ⟨rfl, rfl, rfl, fun _ => rfl, fun _ => rfl, fun _ => rfl, fun _ => id, fun _ => id⟩

theorem trans {s s' s'' : Scheduler} (h : s.Cleared s') (h' : s'.Cleared s'') : s.Cleared s'' where
  queue := h'.queue.trans h.queue
  running := h'.running.trans h.running
  scheduledCounter := h'.scheduledCounter.trans h.scheduledCounter
  done t := (h'.done t).trans (h.done t)
  joinTarget t := (h'.joinTarget t).trans (h.joinTarget t)
  sleepTimeout t := (h'.sleepTimeout t).trans (h.sleepTimeout t)
  joined t ht := h.joined t (h'.joined t ht)
  asleep t ht := h.asleep t (h'.asleep t ht)

theorem modify {f : Thread → Thread} (hdone : ∀ x, (f x).done = x.done)
    (hjoin : ∀ x, (f x).joinTarget = x.joinTarget)
    (hsleep : ∀ x, (f x).sleepTimeout = x.sleepTimeout)
    (hjoined : ∀ x, (f x).joined = true → x.joined = true)
    (hasleep : ∀ x, (f x).asleep = true → x.asleep = true) : s.Cleared (s.modify t f) := by
  have hthread (P : Thread → Thread → Prop) (hrefl : ∀ x, P x x) (hf : ∀ x, P x (f x)) (q : ℕ) :
      P (s.threads q) ((s.modify t f).threads q) := by
    by_cases hq : q = t
    · rw [hq, modify_self]
      exact hf _
    · rw [modify_of_ne hq]
      exact hrefl _
  exact ⟨rfl, rfl, rfl, hthread (fun x y => y.done = x.done) (fun _ => rfl) hdone,
    hthread (fun x y => y.joinTarget = x.joinTarget) (fun _ => rfl) hjoin,
    hthread (fun x y => y.sleepTimeout = x.sleepTimeout) (fun _ => rfl) hsleep,
    hthread (fun x y => y.joined = true → x.joined = true) (fun _ => id) hjoined,
    hthread (fun x y => y.asleep = true → x.asleep = true) (fun _ => id) hasleep⟩

/-- A thread that may run still may when flags have been cleared. -/
theorem eligible (h : s.Cleared s') (ht : s.Eligible t) : s'.Eligible t where
  done := (h.done t).trans ht.done
  ready := by
    refine ht.ready.imp (fun heq => heq.trans h.queue.symm) fun ⟨hjoin, hsleep⟩ => ⟨?_, ?_⟩
    · intro hjoined
      rw [h.done, h.joinTarget]
      exact hjoin (h.joined t hjoined)
    · intro hasleep
      rw [h.sleepTimeout, h.scheduledCounter]
      exact hsleep (h.asleep t hasleep)

end Scheduler.Cleared

theorem cleared_joined : s.Cleared (s.modify t fun x => { x with joined := false }) :=
  .modify (fun _ => rfl) (fun _ => rfl) (fun _ => rfl) (fun _ h => absurd h Bool.false_ne_true)
    fun _ => id

theorem cleared_asleep : s.Cleared (s.modify t fun x => { x with asleep := false }) :=
  .modify (fun _ => rfl) (fun _ => rfl) (fun _ => rfl) (fun _ => id)
    fun _ h => absurd h Bool.false_ne_true

theorem findThread_cleared (hs : findThread s = .inl s' ∨ findThread s = .inr s') :
    s.advance.Cleared s' :=
  findThread_rel Scheduler.Cleared .refl (fun _ _ => cleared_joined) (fun _ _ => cleared_asleep)
    (fun _ _ _ => .trans) hs

/-! ## The search -/

theorem checkJoined_of_eligible (h : s.Eligible s.running) :
    ∃ s', s.checkJoined = .inr s' ∧ s.Cleared s' := by
  simp only [Scheduler.checkJoined]
  split_ifs with hjoined hdone hhead
  · exact ⟨_, rfl, cleared_joined⟩
  · have hready := h.ready.resolve_left hhead
    exact absurd (hready.1 hjoined) hdone
  · exact ⟨_, rfl, .refl s⟩
  · exact ⟨_, rfl, .refl s⟩

theorem checkAsleep_of_eligible (h : s.Eligible s.running) :
    ∃ s', s.checkAsleep = .inr s' ∧ s.Cleared s' := by
  simp only [Scheduler.checkAsleep]
  split_ifs with hasleep htime hhead
  · exact ⟨_, rfl, cleared_asleep⟩
  · have hready := h.ready.resolve_left hhead
    exact absurd (hready.2 hasleep) htime
  · exact ⟨_, rfl, .refl s⟩
  · exact ⟨_, rfl, .refl s⟩

/-- A thread that may run is taken when the search reaches it. -/
theorem findThread_of_eligible (h : s.Eligible s.advance.running) :
    ∃ s', findThread s = .inr s' := by
  have h : s.advance.Eligible s.advance.running := ⟨h.done, h.ready⟩
  obtain ⟨s₁, hjoined, hcleared⟩ := checkJoined_of_eligible h
  have h₁ : s₁.Eligible s₁.running := hcleared.running ▸ hcleared.eligible h
  obtain ⟨s₂, hasleep, hcleared⟩ := checkAsleep_of_eligible h₁
  have h₂ : s₂.Eligible s₂.running := hcleared.running ▸ hcleared.eligible h₁
  rw [findThread, hjoined]
  dsimp only
  rw [hasleep]
  dsimp only
  rw [h₂.done]
  exact ⟨s₂, rfl⟩

/-- One round of the search, when `t` comes before `u`: it takes `t`, or is at a thread that is not
    `u`, from which `t` still comes before `u`. -/
theorem findThread_before (hq : s.Queue l) (ht : s.Eligible t) (htl : t ∈ l) (hul : u ∈ l)
    (h : Before l s.running t u) (hs : findThread s = .inl s' ∨ findThread s = .inr s') :
    findThread s = .inr s' ∧ s'.running = t ∨ s'.running ≠ u ∧ Before l s'.running t u := by
  have hrunning : s'.running = goRound s.next s.queue s.running := (findThread_cleared hs).running
  rw [hrunning]
  rcases h.goRound hq.linked hq.running htl hul with heq | hbefore
  · have hadvance : s.advance.running = t := heq
    obtain ⟨s'', hexit⟩ := findThread_of_eligible (hadvance ▸ ht)
    rw [hexit] at hs
    rw [hexit, hs.resolve_left (by nofun)]
    exact .inl ⟨rfl, heq⟩
  · exact .inr hbefore

/-- So does the whole search. -/
theorem search_before (hq : s.Queue l) (ht : s.Eligible t) (htl : t ∈ l) (hul : u ∈ l)
    (h : Before l s.running t u) {n : ℕ} (hs : loop findThread n s = some s') :
    s'.running = t ∨ s'.running ≠ u ∧ Before l s'.running t u := by
  refine loop_induction (fun x : Scheduler => x.Queue l ∧ x.Eligible t ∧ Before l x.running t u)
    (Q := fun x => x.running = t ∨ x.running ≠ u ∧ Before l x.running t u) ?_ ?_ ⟨hq, ht, h⟩ hs
  · rintro x x' ⟨hq, ht, h⟩ hx
    have hcleared := findThread_cleared (.inl hx)
    refine ⟨(findThread_step hq (.inl hx)).2, hcleared.eligible ⟨ht.done, ht.ready⟩, ?_⟩
    rcases findThread_before hq ht htl hul h (.inl hx) with ⟨hexit, -⟩ | ⟨-, hbefore⟩
    · rw [hexit] at hx
      cases hx
    · exact hbefore
  · rintro x x' ⟨hq, ht, h⟩ hx
    exact (findThread_before hq ht htl hul h (.inr hx)).imp_left And.right

theorem eligible_save (h : s.Eligible t) :
    (s.modify u fun x => { x with state := regs }).Eligible t := by
  refine Scheduler.Cleared.eligible (.modify ?_ ?_ ?_ ?_ ?_) h
  · exact fun _ => rfl
  · exact fun _ => rfl
  · exact fun _ => rfl
  · exact fun _ => id
  · exact fun _ => id

theorem schedule_before (hq : s.Queue l) (ht : s.Eligible t) (htl : t ∈ l) (hul : u ∈ l)
    (h : Before l s.running t u) (hr : Returns (fun n => schedule regs s n) (out, s')) :
    s'.running = t ∨ s'.running ≠ u ∧ Before l s'.running t u := by
  obtain ⟨n, hn⟩ := hr.exists_fuel
  simp only [schedule, Option.bind_eq_some_iff, Option.some.injEq] at hn
  obtain ⟨s₁, hfind, hdispatch⟩ := hn
  obtain ⟨-, rfl⟩ := Prod.mk.inj hdispatch
  have hsearch := search_before (queue_save hq) (eligible_save ht) htl hul h hfind
  exact hsearch

/-- While the head of the queue has not ended, `schedule` returns. -/
theorem returns_schedule (hq : s.Queue l) (hdone : (s.threads s.queue).done = false) :
    ∃ r, Returns (fun n => schedule regs s n) r := by
  obtain ⟨s', hs'⟩ : ∃ s', s' = s.modify s.running fun x => { x with state := regs } := ⟨_, rfl⟩
  have hhead : s'.Eligible s'.queue := hs' ▸ eligible_save ⟨hdone, .inl rfl⟩
  have hqueue : s'.Queue l := hs' ▸ queue_save hq
  have hsearch : ∃ s₁, Returns (fun n => loop findThread n s') s₁ ∧ True := by
    refine returns_loop_of_measure (fun x : Scheduler => x.Queue l ∧ x.Eligible x.queue)
      (fun x => steps l x.running x.queue) ?_ ⟨hqueue, hhead⟩
    rintro x ⟨hq, hx⟩
    rcases hround : findThread x with x' | x'
    · -- The search is one step nearer to the head, at which it would stop.
      have hcleared := findThread_cleared (.inl hround)
      have hrunning : x'.running = goRound x.next x.queue x.running := hcleared.running
      have hqueue : x'.queue = x.queue := hcleared.queue
      refine .inl ⟨x', rfl, ⟨(findThread_step hq (.inl hround)).2, ?_⟩, ?_⟩
      · exact hqueue ▸ hcleared.eligible ⟨hx.done, hx.ready⟩
      · rw [hrunning, hqueue]
        rcases hq.linked.steps_goRound hq.running hq.linked.head_mem with ⟨heq, -⟩ | ⟨-, hsteps⟩
        · have hadvance : x.advance.running = x.queue := heq.symm
          obtain ⟨s'', hexit⟩ := findThread_of_eligible (hadvance ▸ hx)
          rw [hexit] at hround
          cases hround
        · rw [hsteps]
          exact Nat.lt_succ_self _
    · exact .inr ⟨x', rfl, trivial⟩
  obtain ⟨s₁, hs₁, -⟩ := hsearch
  refine ⟨s₁.dispatch, ?_⟩
  simp only [schedule, ← hs']
  exact hs₁.bind (.pure _)

/-! ## Runs -/

/-- Going round the queue from the running thread, `t` comes before `u`. -/
structure System.Turn (s : System) (t u : ℕ) (l : List ℕ) : Prop where
  queued : s.Queued l
  left_mem : t ∈ l
  right_mem : u ∈ l
  before : Before l s.scheduler.running t u

variable {s s' : System} {op : SystemOp} {ops between : List SystemOp}

/-- After a dispatch of `u`, every other thread that was in the queue comes before it. -/
theorem turn_of_dispatches (h : s.Queued l) (hs : EligibleStep kill t s op s')
    (hop : op.Dispatches u) (hne : t ≠ u) : s'.Turn t u l := by
  have heligible := @hs.eligible
  cases hs.step with
  | schedule hr =>
    obtain ⟨hscheduled, hqueue⟩ := schedule_spec h.queue hr
    have ht : t ∈ l := h.queue.linked.mem_of_reach (heligible rfl).1
    obtain rfl := hop
    exact ⟨h.schedule hscheduled hqueue, ht, hqueue.running, .self ht hne⟩
  | _ => exact hop.elim

theorem System.Queued.step (h : s.Queued l) (hs : SystemStep kill s op s') :
    ∃ l', s'.Queued l' := by
  cases hs with
  | create h0 hqueue hwaiting => exact ⟨l, h.create h0 hqueue hwaiting⟩
  | addThread hmem hr => exact ⟨_, h.addThread hmem hr⟩
  | schedule hr =>
    obtain ⟨hs, hqueue⟩ := schedule_spec h.queue hr
    exact ⟨l, h.schedule hs hqueue⟩
  | other hsame => exact ⟨l, h.other hsame⟩

/-- A step dispatches `t`, or it does not dispatch `u` and the turn is still that of `t`. -/
theorem System.Turn.step (h : s.Turn t u l) (hs : EligibleStep kill t s op s') :
    op.Dispatches t ∨ ¬op.Dispatches u ∧ ∃ l', s'.Turn t u l' := by
  have heligible := @hs.eligible
  cases hs.step with
  | create h0 hqueue hwaiting =>
    exact .inr ⟨id, l, h.queued.create h0 hqueue hwaiting, h.left_mem, h.right_mem, h.before⟩
  | addThread hmem hr =>
    obtain ⟨tail, -, -, rfl⟩ := addThread_spec h.queued.queue hr
    exact .inr ⟨id, _, h.queued.addThread hmem hr, List.mem_append_left _ h.left_mem,
      List.mem_append_left _ h.right_mem,
      h.before.append h.queued.queue.running h.left_mem h.right_mem⟩
  | schedule hr =>
    obtain ⟨hscheduled, hqueue⟩ := schedule_spec h.queued.queue hr
    obtain ⟨-, ht⟩ := heligible rfl
    refine (schedule_before h.queued.queue ht h.left_mem h.right_mem h.before hr).imp_right ?_
    rintro ⟨hne, hbefore⟩
    exact ⟨hne, l, h.queued.schedule hscheduled hqueue, h.left_mem, h.right_mem, hbefore⟩
  | other hsame => exact .inr ⟨id, l, h.queued.other hsame, h.left_mem, h.right_mem, h.before⟩

/-- What is between a dispatch of `u` and the next one: a dispatch of `t`. -/
theorem dispatched_of_turn (h : s.Turn t u l)
    (hr : Run (EligibleStep kill t) s (between ++ [op]) s') (hop : op.Dispatches u) (hne : t ≠ u) :
    ∃ op ∈ between, op.Dispatches t := by
  obtain ⟨s₁, hr, hs⟩ := hr.exists_last
  have hturn := hr.history
    (fun ops s => (∃ op ∈ ops, op.Dispatches t) ∨ ∃ l, s.Turn t u l) (.inr ⟨l, h⟩) ?_
  · refine hturn.resolve_right fun ⟨l, hturn⟩ => ?_
    rcases hturn.step hs with hdispatch | ⟨hnot, -⟩
    · exact hne (dispatches_inj hdispatch hop)
    · exact hnot hop
  · rintro ops x op x' (⟨op', hmem, hdispatch⟩ | ⟨l, hturn⟩) hs
    · exact .inl ⟨op', List.mem_append_left _ hmem, hdispatch⟩
    · refine (hturn.step hs).imp (fun hdispatch => ?_) And.right
      exact ⟨op, List.mem_append_right _ (List.mem_singleton_self op), hdispatch⟩

variable {s₀ s₁ s₂ : System} {before after : List SystemOp} {op' : SystemOp}

/-- In every run, in an interval of which every call of `schedule` finds `t` in the queue and
    eligible, `t` is dispatched between any two dispatches of another thread. -/
theorem dispatched_between (h₀ : s₀.Queued l) (hr : Run (SystemStep kill) s₀ ops s₁)
    (hi : Run (EligibleStep kill t) s₁ (before ++ op :: (between ++ op' :: after)) s₂)
    (hop : op.Dispatches u) (hop' : op'.Dispatches u) (hne : t ≠ u) :
    ∃ op ∈ between, op.Dispatches t := by
  obtain ⟨m₁, hbefore, hi⟩ := hi.exists_mid
  obtain ⟨m₂, hfirst, hi⟩ := hi.exists_first
  rw [List.append_cons] at hi
  obtain ⟨m₃, hbetween, -⟩ := hi.exists_mid
  obtain ⟨l₁, h₁⟩ := hr.invariant (fun s : System => ∃ l, s.Queued l) ⟨l, h₀⟩
    fun _ _ _ ⟨_, hq⟩ hs => hq.step hs
  obtain ⟨l₂, h₂⟩ := hbefore.invariant (fun s : System => ∃ l, s.Queued l) ⟨l₁, h₁⟩
    fun _ _ _ ⟨_, hq⟩ hs => hq.step hs.step
  exact dispatched_of_turn (turn_of_dispatches h₂ hfirst hop hne) hbetween hop' hne

theorem schedule_of_findThread {s s' : Scheduler}
    (h : findThread (s.modify s.running fun x => { x with state := regs }) = .inr s') :
    Returns (fun n => schedule regs s n) s'.dispatch :=
  (returns_loop_exit h).bind (.pure _)

theorem eligibleStep_schedule {s' : Scheduler}
    (h : findThread (s.scheduler.modify s.scheduler.running fun x => { x with state := regs }) =
      .inr s')
    (hreach : Reach s.scheduler.next s.scheduler.queue t) (ht : s.scheduler.Eligible t) :
    EligibleStep kill t s (.schedule s.scheduler.running regs s'.running s'.dispatch.1)
      ⟨s'.dispatch.2, s.waiting⟩ :=
  ⟨.schedule (schedule_of_findThread h), fun _ => ⟨hreach, ht⟩⟩

/-- Two threads without flags, of which the second one is running. -/
def twoThreads : Scheduler :=
  ⟨2, 1, 0, 2, 0, fun t => ⟨0, 0, .zero, false, false, false, 0, 0, t, 0, if t = 1 then 2 else 0,
    0, 0⟩, zeroMMU 0x1000⟩

/-- They are dispatched in turn. -/
theorem dispatched_between_twoThreads :
    ∃ op ∈ [SystemOp.schedule 1 .zero 2 .zero], op.Dispatches 2 := by
  let turn (s : Scheduler) : Scheduler :=
    (s.modify s.running fun x => { x with state := .zero }).advance
  let next (s : Scheduler) : Scheduler := (turn s).dispatch.2
  have hstep (s : Scheduler)
      (h : findThread (s.modify s.running fun x => { x with state := .zero }) = .inr (turn s))
      (hreach : Reach s.next s.queue 2) (ht : s.Eligible 2) :
      EligibleStep 0 2 ⟨s, []⟩ (.schedule s.running .zero (turn s).running (turn s).dispatch.1)
        ⟨next s, []⟩ := eligibleStep_schedule (s := ⟨s, []⟩) h hreach ht
  have h₁ := hstep twoThreads rfl (.next .refl (by decide))
    ⟨rfl, .inr ⟨by simp [twoThreads], by simp [twoThreads]⟩⟩
  have h₂ := hstep (next twoThreads) rfl (.next .refl (by decide)) ⟨rfl, .inr ⟨nofun, nofun⟩⟩
  have h₃ := hstep (next (next twoThreads)) rfl (.next .refl (by decide))
    ⟨rfl, .inr ⟨nofun, nofun⟩⟩
  have hqueue : System.Queued ⟨twoThreads, []⟩ [1, 2] :=
    ⟨⟨.cons (by decide) (.last rfl), by decide⟩, fun _ h => absurd h List.not_mem_nil,
      List.nodup_nil⟩
  exact dispatched_between hqueue .nil
    (show Run _ _ ([] ++ _ :: ([_] ++ _ :: [])) _ from ((Run.nil.snoc h₁).snoc h₂).snoc h₃)
    rfl rfl (by decide)

end SmartOS
