import SmartOS.Scheduler.Select
import SmartOS.Scheduler.Switch
import SmartOS.Interrupt.Segments

/-!
# Threads of users

Threads are made for the kernel or for a user (`dpl`). Those of users start with
selectors of their own, but the table of segments has no entries for these. So the
processor refuses them on the way back from the timer interrupt that dispatches the
thread, before it has left the kernel, and `isr_handler` ends the thread.

* `RingStep`: the steps of the threads as in `KernelStep`, but the processor checks what
  it loads (`Machine.runChecked`), and goes into `isr_handler` where it faults;
* `kernelRun_of_step`: a fault is a switch to the thread, which then does what the handler
  does;
* `Kernel.Rings` is the invariant: the processor is in the segments of the kernel, and so
  are all threads of the kernel; those of users have never run, or have ended;
* `rings_of_run`: no thread of a user is ever entered, each is ended when it is
  dispatched for the first time, and the threads of the kernel go on as ever.
-/

namespace SmartOS

open Prog

/-! ## The system -/

/-- What happens: what `KernelOp` says, or a timer interrupt whose way back faults. With that come
    also the registers in the loop of `isr_handler`. -/
inductive RingOp
  | kernel (op : KernelOp)
  | fault (preempted : ℕ) (before : Registers) (dispatched : ℕ) (out : CPURegisters)
    (after : Registers)
  deriving Repr, DecidableEq

/-- A timer interrupt, up to the return of `irq_handler` in the state `m`: it leaves `out` in the
    structure, for the thread that `s'` runs. -/
structure TimerInterrupt (image : Image) (k : Kernel) (m : Machine) (out : CPURegisters)
    (s' : Scheduler) (counter : ℕ) : Prop where
  preempts : ∃ p : Interrupted, p.regs = k.regs ∧
    Returns (fun n => pitHandler ((Interrupt.device 0).passed image p) k.system.scheduler k.counter
      n) (out, s', counter) ∧
    m.regs.rsp = ((Interrupt.device 0).enter image p).regs.rdi ∧
    ((Interrupt.device 0).enter image p).regs.SameSegments m.regs
  read : CPURegisters.read m.mem m.regs.rsp = out

/-- The operation makes a thread, or queues one. -/
def KernelOp.OfThread : KernelOp → Prop
  | .create _ _ _ _ | .addThread _ => True
  | _ => False

/-- The steps. Programs and handlers load no segments, and no thread that has ended is marked as one
    that has not. -/
inductive RingStep (kill : ℕ) (image : Image) (k : Kernel) : RingOp → Kernel → Prop
  | run {regs : Registers} : k.regs.SameSegments regs →
      RingStep kill image k (.kernel (.run regs)) { k with regs := regs }
  | thread {op : KernelOp} {k' : Kernel} : op.OfThread → KernelStep kill image k op k' →
      RingStep kill image k (.kernel op) k'
  | flags {s' : Scheduler} : k.system.scheduler.SetsFlags s' →
      (∀ t, (k.system.scheduler.threads t).done = true → (s'.threads t).done = true) →
      RingStep kill image k (.kernel .flags) { k with system := ⟨s', k.system.waiting⟩ }
  | timer {m m' : Machine} {out : CPURegisters} {s' : Scheduler} {counter : ℕ} :
      TimerInterrupt image k m out s' counter →
      m.runChecked gdtEntries commonExit = .ok m' →
      RingStep kill image k
        (.kernel (.timer k.system.scheduler.running k.regs s'.running out m'.regs))
        ⟨⟨s', k.system.waiting⟩, counter, m'.regs⟩
  | fault {m m' : Machine} {out : CPURegisters} {s' : Scheduler} {counter : ℕ} {f : Fault}
      {q : Interrupted} {regs : Registers} : TimerInterrupt image k m out s' counter →
      m.runChecked gdtEntries commonExit = .error (f, m') →
      q.regs = { m'.regs with rip := q.regs.rip } →
      ((Interrupt.exception f.vector f.errorCode).enter image q).regs.SameSegments regs →
      RingStep kill image k
        (.fault k.system.scheduler.running k.regs s'.running out regs)
        ⟨⟨isrHandler s', k.system.waiting⟩, counter, regs⟩

/-! ## Specification -/

namespace RingOp

/-- The operation dispatches the thread. -/
def Dispatches (t : ℕ) : RingOp → Prop
  | kernel (.timer _ _ dispatched _ _) => dispatched = t
  | fault _ _ dispatched _ _ => dispatched = t
  | _ => False

/-- The operation is a fault. -/
def Faults : RingOp → Prop
  | fault _ _ _ _ _ => True
  | _ => False

/-- The operations that it is without the checks. -/
def kernelOps : RingOp → List KernelOp
  | kernel op => [op]
  | fault preempted before dispatched out after =>
    [.timer preempted before dispatched out out.restored, .run after, .flags]

end RingOp

/-- A thread of a user. -/
def Kernel.User (k : Kernel) (t : ℕ) : Prop := (k.system.scheduler.threads t).dpl = 3

/-- How the threads have run after the operations `ops`. -/
structure RingSound (image : Image) (ops : List RingOp) (k : Kernel) : Prop where
  supervisor : k.regs.Supervisor
  faults : ∀ op ∈ ops, ∀ t, op.Dispatches t → (op.Faults ↔ k.User t)
  once : ops.Pairwise fun op op' => ∀ t, k.User t → op.Dispatches t → ¬op'.Dispatches t
  ended : ∀ op ∈ ops, ∀ t, op.Dispatches t → k.User t →
    (k.system.scheduler.threads t).done = true
  continues : ∀ {before after : List RingOp} {t t' : ℕ} {r r' : Registers} {out : CPURegisters},
    ops = before ++ .kernel (.timer t r t' out r') :: after →
    Continues (before.flatMap RingOp.kernelOps ++ [.timer t r t' out r']) t' r'
  next : ∀ {m : Machine} {out : CPURegisters} {s' : Scheduler} {counter : ℕ},
    TimerInterrupt image k m out s' counter →
    m.runChecked gdtEntries commonExit =
      if (s'.threads s'.running).dpl = 3 then .error (⟨13, 0x20⟩, m.step (.pop .rax))
      else .ok (m.run commonExit)

/-! ## Without the checks -/

variable {kill name : ℕ} {image : Image} {k k' : Kernel} {ops : List RingOp} {op : RingOp}
  {t : ℕ} {l : List ℕ} {m m' : Machine} {out : CPURegisters} {s' : Scheduler} {counter : ℕ}

theorem TimerInterrupt.step (h : TimerInterrupt image k m out s' counter) :
    KernelStep kill image k
      (.timer k.system.scheduler.running k.regs s'.running out out.restored)
      ⟨⟨s', k.system.waiting⟩, counter, out.restored⟩ := by
  obtain ⟨⟨p, hp, hr, hrsp, -⟩, hread⟩ := h
  have hstep : KernelStep kill image k _ _ := .timer hp hr hrsp hread
  rwa [exit_spec, hread] at hstep

/-- What a timer interrupt calls. -/
theorem TimerInterrupt.schedules (h : TimerInterrupt image k m out s' counter) :
    Returns (fun n => schedule (k.regs.swapped.frame 0 0) k.system.scheduler n) (out, s') := by
  obtain ⟨⟨p, hp, hr, -, -⟩, -⟩ := h
  rw [passed_device, hp] at hr
  exact (returns_pitHandler_iff.1 hr).1

/-- Where the processor accepts what it loads, the checks make no difference. -/
theorem runChecked_ok {table : List GDTEntry} {code : List Instr}
    (h : m.runChecked table code = .ok m') : m' = m.run code := by
  induction code generalizing m with
  | nil => exact (Except.ok.inj h).symm
  | cons i code ih =>
    rw [Machine.runChecked] at h
    cases hi : m.fault table i with
    | none =>
      rw [hi] at h
      exact ih h
    | some f =>
      rw [hi] at h
      cases h

theorem Scheduler.SetsFlags.kernelStep (h : k.system.scheduler.SetsFlags s') :
    KernelStep kill image k .flags { k with system := ⟨s', k.system.waiting⟩ } := by
  have hs : SystemStep kill k.system .other ⟨s', k.system.waiting⟩ := h.step
  cases hs with
  | other hsame => exact .flags hsame

/-- A step is one without checks, or three. -/
theorem kernelRun_of_step (hs : RingStep kill image k op k') :
    Run (KernelStep kill image) k op.kernelOps k' := by
  cases hs with
  | run _ => exact .snoc .nil .run
  | thread _ hs => exact .snoc .nil hs
  | flags h _ => exact .snoc .nil h.kernelStep
  | timer h hm =>
    have hregs := exit_spec.trans (congrArg _ h.read)
    rw [runChecked_ok hm, hregs]
    exact .snoc .nil h.step
  | fault h _ _ _ =>
    exact .snoc (.snoc (.snoc .nil h.step) .run) (Scheduler.SetsFlags.isrHandler.kernelStep)

/-! ## The invariant -/

/-- The thread has been made: it is queued, or waits to be. -/
def Kernel.Known (k : Kernel) (l : List ℕ) (t : ℕ) : Prop := t ∈ l ∨ t ∈ k.system.waiting

/-- A thread with what it has been made with, or with what it has saved: the processor accepts what
    a thread of the kernel has saved, and refuses that of a user. -/
structure Thread.Guarded (x : Thread) : Prop where
  kernel : x.dpl ≠ 3 → x.state.restored.Supervisor
  user : x.dpl = 3 → dataFault gdtEntries 0 x.state.gs = some ⟨13, 0x20⟩

/-- The processor is in the segments of the kernel. So are the threads of the kernel; a thread of a
    user has never been dispatched, or has been once, and has ended. -/
structure Kernel.Rings (k : Kernel) (ops : List RingOp) (l : List ℕ) : Prop where
  queued : k.system.Queued l
  regs : k.regs.Supervisor
  head : ¬k.User k.system.scheduler.queue
  kernel : ∀ t, k.Known l t → ¬k.User t → (k.system.scheduler.threads t).state.restored.Supervisor
  user : ∀ t, k.Known l t → k.User t → (k.system.scheduler.threads t).done = true ∨
    (dataFault gdtEntries 0 (k.system.scheduler.threads t).state.gs = some ⟨13, 0x20⟩ ∧
      t ≠ k.system.scheduler.running ∧ ∀ op ∈ ops, ¬op.Dispatches t)
  dispatched : ∀ op ∈ ops, ∀ t, op.Dispatches t → t ∈ l
  faults : ∀ op ∈ ops, ∀ t, op.Dispatches t → (op.Faults ↔ k.User t)
  once : ops.Pairwise fun op op' => ∀ t, k.User t → op.Dispatches t → ¬op'.Dispatches t

/-- What no step changes of a thread that is not running. -/
structure Thread.Stays (x x' : Thread) : Prop where
  dpl : x'.dpl = x.dpl
  state : x'.state = x.state
  done : x.done = true → x'.done = true

namespace Kernel.Rings

variable {l' : List ℕ}

/-- A step that dispatches no thread. New threads are as they have been made. -/
theorem keep (hI : k.Rings ops l) (hqueued : k'.system.Queued l') (hl : l ⊆ l')
    (hregs : k'.regs.Supervisor) (hqueue : k'.system.scheduler.queue = k.system.scheduler.queue)
    (hrunning : k'.system.scheduler.running = k.system.scheduler.running)
    (hthreads : ∀ t, k'.Known l' t → k.Known l t ∧
        (k.system.scheduler.threads t).Stays (k'.system.scheduler.threads t) ∨
      t ∉ l ∧ (k'.system.scheduler.threads t).Guarded)
    (hop : ∀ t, ¬op.Dispatches t) : k'.Rings (ops ++ [op]) l' := by
  -- Threads of the queue are those of users that they were.
  have huser {t : ℕ} (ht : t ∈ l) : k'.User t ↔ k.User t := by
    rcases hthreads t (.inl (hl ht)) with ⟨-, hstays⟩ | ⟨hnot, -⟩
    · rw [User, hstays.dpl, User]
    · exact absurd ht hnot
  have hnew {t : ℕ} {op' : RingOp} (hmem : op' ∈ ops ++ [op]) (hd : op'.Dispatches t) :
      op' ∈ ops := by
    rcases List.mem_append.1 hmem with hmem | hmem
    · exact hmem
    · exact absurd (List.mem_singleton.1 hmem ▸ hd) (hop t)
  refine ⟨hqueued, hregs, ?_, fun t ht hnot => ?_, fun t ht hu => ?_, fun op' hmem t hd => ?_,
    fun op' hmem t hd => ?_, ?_⟩
  · rw [hqueue, huser hI.queued.queue.linked.head_mem]
    exact hI.head
  · rcases hthreads t ht with ⟨hknown, hstays⟩ | ⟨-, hguarded⟩
    · rw [hstays.state]
      refine hI.kernel t hknown fun hu => hnot ?_
      rwa [User, hstays.dpl]
    · exact hguarded.kernel hnot
  · rcases hthreads t ht with ⟨hknown, hstays⟩ | ⟨hnot, hguarded⟩
    · rw [User, hstays.dpl] at hu
      refine (hI.user t hknown hu).imp hstays.done fun ⟨hfault, hne, hnever⟩ => ?_
      exact ⟨hstays.state ▸ hfault, hrunning ▸ hne, fun op' hmem hd =>
        hnever op' (hnew hmem hd) hd⟩
    · refine .inr ⟨hguarded.user hu, ?_, fun op' hmem hd => hnot ?_⟩
      · rintro rfl
        exact hnot (hrunning ▸ hI.queued.queue.running)
      · exact hI.dispatched op' (hnew hmem hd) t hd
  · exact hl (hI.dispatched op' (hnew hmem hd) t hd)
  · rw [huser (hI.dispatched op' (hnew hmem hd) t hd)]
    exact hI.faults op' (hnew hmem hd) t hd
  · refine List.pairwise_append.2 ⟨hI.once.imp_of_mem fun hmem _ h t hu hd => ?_,
      List.pairwise_singleton _ _, fun op₁ _ op₂ hmem t _ _ => ?_⟩
    · exact h t ((huser (hI.dispatched _ hmem t hd)).1 hu) hd
    · exact List.mem_singleton.1 hmem ▸ hop t

/-- A thread that is made, or queued. -/
theorem thread {kop : KernelOp} (hI : k.Rings ops l) (hop : kop.OfThread)
    (hs : KernelStep kill image k kop k') : ∃ l', k'.Rings (ops ++ [.kernel kop]) l' := by
  cases hs with
  | @create this entry name user h0 hqueue hwaiting =>
    have hl : this ∉ l := fun hmem => hqueue (hI.queued.queue.linked.reach hmem)
    refine ⟨l, hI.keep (hI.queued.create h0 hqueue hwaiting) (List.Subset.refl l) hI.regs rfl rfl
      (fun t ht => ?_) fun _ => id⟩
    by_cases hne : t = this
    · subst hne
      refine .inr ⟨hl, ?_⟩
      simp only [Thread.new, Function.update_self]
      cases user with
      | false =>
        refine ⟨fun _ => ⟨rfl, rfl, rfl, rfl, rfl, rfl⟩, fun h => ?_⟩
        exact absurd (show 0 = 3 from h) (by decide)
      | true => exact ⟨fun h => absurd rfl h, fun _ => dataFault_user entry _⟩
    · refine .inl ⟨ht.imp_right fun ht => (List.mem_cons.1 ht).resolve_left hne, ?_⟩
      rw [new_of_ne hne]
      exact ⟨rfl, rfl, id⟩
  | @addThread thread s' hmem hr =>
    have hqueued := hI.queued.addThread hmem hr
    obtain ⟨tail, -, -, rfl⟩ := addThread_spec hI.queued.queue hr
    refine ⟨_, hI.keep hqueued (List.subset_append_left l _) hI.regs rfl rfl (fun t ht => .inl ⟨?_,
      ?_⟩) fun _ => id⟩
    · rcases ht with ht | ht
      · rcases List.mem_append.1 ht with ht | ht
        · exact .inl ht
        · exact .inr (List.mem_singleton.1 ht ▸ hmem)
      · exact .inr (List.mem_of_mem_erase ht)
    · by_cases hne : t = tail
      · subst hne
        rw [modify_self]
        exact ⟨rfl, rfl, id⟩
      · rw [modify_of_ne hne]
        exact ⟨rfl, rfl, id⟩
  | _ => exact hop.elim

/-- Flags of threads that are set. -/
theorem flags (hI : k.Rings ops l) (hs : k.system.scheduler.SetsFlags s')
    (hdone : ∀ t, (k.system.scheduler.threads t).done = true → (s'.threads t).done = true) :
    Kernel.Rings { k with system := ⟨s', k.system.waiting⟩ } (ops ++ [.kernel .flags]) l := by
  have hstep : SystemStep 0 k.system .other ⟨s', k.system.waiting⟩ := hs.step
  cases hstep with
  | other hsame =>
    exact hI.keep (hI.queued.other hsame) (List.Subset.refl l) hI.regs rfl rfl
      (fun t ht => .inl ⟨ht, (hsame t).dpl, (hsame t).state, hdone t⟩) fun _ => id

/-- The registers that a timer interrupt saves are those of the kernel. -/
theorem saved (hI : k.Rings ops l) : (k.regs.swapped.frame 0 0).restored.Supervisor := by
  rw [restored_frame]
  exact hI.regs

/-- The thread dispatched is one that has not ended, and the others are as they were. -/
theorem scheduled (hI : k.Rings ops l) (h : TimerInterrupt image k m out s' counter) :
    Scheduled k.system.scheduler (k.regs.swapped.frame 0 0) out s' ∧ s'.Queue l ∧
      (k.system.scheduler.threads s'.running).done = false ∧
      ∀ t, (s'.threads t).done = (k.system.scheduler.threads t).done := by
  obtain ⟨hscheduled, hqueue⟩ := schedule_spec hI.queued.queue h.schedules
  have hselects := selects_of_schedule hI.queued.queue h.schedules
  exact ⟨hscheduled, hqueue, hselects.eligible.1, fun t => (hselects.released t).done⟩

/-- `schedule` does not change whom a thread is for, -/
theorem dpl_scheduled (hI : k.Rings ops l) (h : TimerInterrupt image k m out s' counter) (t : ℕ) :
    (s'.threads t).dpl = (k.system.scheduler.threads t).dpl := by
  rw [((hI.scheduled h).1.threads t).dpl]
  by_cases hne : t = k.system.scheduler.running
  · subst hne
    rw [modify_self]
  · rw [modify_of_ne hne]

/-- and only the running thread saves anything. -/
theorem state_scheduled (hI : k.Rings ops l) (h : TimerInterrupt image k m out s' counter) (t : ℕ) :
    (s'.threads t).state = if t = k.system.scheduler.running then k.regs.swapped.frame 0 0
      else (k.system.scheduler.threads t).state := by
  rw [((hI.scheduled h).1.threads t).state]
  split_ifs with hne
  · subst hne
    rw [modify_self]
  · rw [modify_of_ne hne]

/-- A thread of the kernel that is dispatched goes on in the segments of the kernel. -/
theorem next_kernel (hI : k.Rings ops l) (h : TimerInterrupt image k m out s' counter)
    (hnot : ¬k.User s'.running) : out.restored.Supervisor := by
  obtain ⟨hscheduled, hqueue, -, -⟩ := hI.scheduled h
  rw [hscheduled.out, hI.state_scheduled h]
  split_ifs
  · exact hI.saved
  · exact hI.kernel _ (.inl hqueue.running) hnot

/-- A thread of a user that is dispatched has never been before, and the processor refuses its
    segments. -/
theorem next_user (hI : k.Rings ops l) (h : TimerInterrupt image k m out s' counter)
    (hu : k.User s'.running) : dataFault gdtEntries 0 out.gs = some ⟨13, 0x20⟩ ∧
      ∀ op ∈ ops, ¬op.Dispatches s'.running := by
  obtain ⟨hscheduled, hqueue, hdone, -⟩ := hI.scheduled h
  obtain ⟨hfault, hne, hnever⟩ := (hI.user _ (.inl hqueue.running) hu).resolve_left
    (by rw [hdone]; exact Bool.false_ne_true)
  rw [hscheduled.out, hI.state_scheduled h, if_neg hne]
  exact ⟨hfault, hnever⟩

/-- The handler returns at the privilege of the kernel. -/
theorem supervisor (hI : k.Rings ops l) (h : TimerInterrupt image k m out s' counter) :
    m.regs.Supervisor := by
  obtain ⟨⟨p, hp, -, -, hsame⟩, -⟩ := h
  have hregs : p.regs.Supervisor := hp ▸ hI.regs
  exact (hregs.enter image _).congr hsame

/-- The way back from a timer interrupt. -/
theorem exit (hI : k.Rings ops l) (h : TimerInterrupt image k m out s' counter) :
    m.runChecked gdtEntries commonExit =
      if (s'.threads s'.running).dpl = 3 then .error (⟨13, 0x20⟩, m.step (.pop .rax))
      else .ok (m.run commonExit) := by
  have hcpl : m.cpl = 0 := by
    rw [Machine.cpl, (hI.supervisor h).cs]
    rfl
  rw [hI.dpl_scheduled h]
  split_ifs with hu
  · refine exit_fault ?_
    rw [hcpl, h.read]
    exact (hI.next_user h hu).1
  · refine exit_ok ?_
    rw [hcpl, h.read]
    exact (hI.next_kernel h hu).accepted

/-- A timer interrupt: of what is left by `schedule`, only that the thread dispatched has ended may
    be changed, and has to be if it is one of a user. -/
theorem timer {s'' : Scheduler} {regs : Registers} (hI : k.Rings ops l)
    (h : TimerInterrupt image k m out s' counter) (hregs : regs.Supervisor)
    (hsame : s'.SameSaved s'') (hrunning : s''.running = s'.running)
    (hdone : ∀ t, (s'.threads t).done = true → (s''.threads t).done = true)
    (hended : k.User s'.running → (s''.threads s'.running).done = true)
    (hop : ∀ t, op.Dispatches t ↔ t = s'.running) (hfaults : op.Faults ↔ k.User s'.running) :
    Kernel.Rings ⟨⟨s'', k.system.waiting⟩, counter, regs⟩ (ops ++ [op]) l := by
  obtain ⟨hscheduled, hqueue, -, hkept⟩ := hI.scheduled h
  have hqueued := hI.queued.schedule hscheduled hqueue
  have huser (t : ℕ) : (s''.threads t).dpl = (k.system.scheduler.threads t).dpl :=
    (hsame.threads t).dpl.trans (hI.dpl_scheduled h t)
  have hstate (t : ℕ) := (hsame.threads t).state.trans (hI.state_scheduled h t)
  have hnever (hu : k.User s'.running) := (hI.next_user h hu).2
  refine ⟨⟨⟨hsame.linked hqueue.linked, hrunning ▸ hqueue.running⟩, fun t ht => ?_, hqueued.nodup⟩,
    hregs, ?_, fun t ht hnot => ?_, fun t ht hu => ?_, fun op' hmem t hd => ?_,
    fun op' hmem t hd => ?_, ?_⟩
  · obtain ⟨hl, h0, hnext⟩ := hqueued.waiting t ht
    exact ⟨hl, h0, (hsame.threads t).next.trans hnext⟩
  · rw [User, huser]
    exact (hsame.queue.trans hscheduled.queue).symm ▸ hI.head
  · rw [User, huser] at hnot
    rw [hstate]
    split_ifs
    · exact hI.saved
    · exact hI.kernel t ht hnot
  · rw [User, huser] at hu
    rcases hI.user t ht hu with hend | ⟨hfault, hne, hbefore⟩
    · exact .inl (hdone t ((hkept t).trans hend))
    · by_cases hrun : t = s'.running
      · subst hrun
        exact .inl (hended hu)
      · rw [hstate, if_neg hne]
        refine .inr ⟨hfault, hrunning.symm ▸ hrun, fun op' hmem hd => ?_⟩
        rcases List.mem_append.1 hmem with hmem | hmem
        · exact hbefore op' hmem hd
        · exact hrun ((hop t).1 (List.mem_singleton.1 hmem ▸ hd))
  · rcases List.mem_append.1 hmem with hmem | hmem
    · exact hI.dispatched op' hmem t hd
    · obtain rfl := (hop t).1 (List.mem_singleton.1 hmem ▸ hd)
      exact hqueue.running
  · rw [User, huser]
    rcases List.mem_append.1 hmem with hmem | hmem
    · exact hI.faults op' hmem t hd
    · obtain rfl := List.mem_singleton.1 hmem
      obtain rfl := (hop t).1 hd
      exact hfaults
  · refine List.pairwise_append.2 ⟨hI.once.imp fun hpair t hu => hpair t ((huser t).symm.trans hu),
      List.pairwise_singleton _ _, fun op₁ hmem₁ op₂ hmem₂ t hu hd hd' => ?_⟩
    rw [User, huser] at hu
    obtain rfl := (hop t).1 (List.mem_singleton.1 hmem₂ ▸ hd')
    exact hnever hu op₁ hmem₁ hd

/-- One step. -/
theorem step (hI : k.Rings ops l) (hs : RingStep kill image k op k') :
    ∃ l', k'.Rings (ops ++ [op]) l' := by
  cases hs with
  | run hregs =>
    exact ⟨l, hI.keep hI.queued (List.Subset.refl l) (hI.regs.congr hregs) rfl rfl
      (fun t ht => .inl ⟨ht, rfl, rfl, id⟩) fun _ => id⟩
  | thread hop hs => exact hI.thread hop hs
  | flags hflags hdone => exact ⟨l, hI.flags hflags hdone⟩
  | @timer m m' out s' counter h hm =>
    have hexit := hI.exit h
    rw [hm] at hexit
    split_ifs at hexit with hu
    have hnot : ¬k.User s'.running := fun hu' => hu ((hI.dpl_scheduled h _).trans hu')
    obtain rfl := Except.ok.inj hexit
    have hregs : (m.run commonExit).regs.Supervisor := by
      rw [exit_spec, h.read]
      exact hI.next_kernel h hnot
    exact ⟨l, hI.timer h hregs (.refl _) rfl (fun _ => id) (fun hu' => absurd hu' hnot)
      (fun t => eq_comm) ⟨False.elim, hnot⟩⟩
  | @fault m m' out s' counter f q regs h hm hq hregs =>
    have hexit := hI.exit h
    rw [hm] at hexit
    split_ifs at hexit with hdpl
    have hu : k.User s'.running := (hI.dpl_scheduled h _).symm.trans hdpl
    obtain rfl := (Prod.mk.inj (Except.error.inj hexit)).2
    have hpop : (m.step (.pop .rax)).regs.Supervisor :=
      (hI.supervisor h).congr (sameSegments_step rfl)
    have hq' : q.regs.Supervisor := hq ▸ ⟨hpop.cs, hpop.ds, hpop.es, hpop.fs, hpop.gs, hpop.ss⟩
    -- The head of the queue is no thread of a user, so the handler ends the thread.
    have hne : s'.running ≠ s'.queue := fun heq =>
      hI.head ((hI.scheduled h).1.queue ▸ heq ▸ hu)
    have hended : isrHandler s' = s'.modify s'.running fun x => { x with done := true } :=
      if_pos hne
    refine ⟨l, hI.timer h ((hq'.enter image _).congr hregs) ?_ ?_ (fun t ht => ?_) (fun _ => ?_)
      (fun t => eq_comm) ⟨fun _ => hu, fun _ => trivial⟩⟩ <;> rw [hended]
    · exact Scheduler.sameSaved_modify ⟨rfl, rfl, rfl, rfl, rfl, rfl, rfl, rfl⟩
    · rfl
    · by_cases heq : t = s'.running
      · subst heq
        rw [modify_self]
      · rwa [modify_of_ne heq]
    · rw [modify_self]

end Kernel.Rings

/-! ## Runs -/

section

variable {s₀ : Scheduler} {counter₀ address caller label : ℕ} {regs₀ : Registers}
  {m₀ m₁ : Machine}

theorem rings_bootKernel (hregs : regs₀.Supervisor) :
    (bootKernel kill name s₀ counter₀ regs₀).Rings []
      [(initializeScheduler kill name s₀).queue] := by
  have hthread : ((initializeScheduler kill name s₀).threads
      (initializeScheduler kill name s₀).queue).dpl = 0 ∧
      ((initializeScheduler kill name s₀).threads
        (initializeScheduler kill name s₀).queue).state.restored.Supervisor := by
    simp only [initializeScheduler, Function.update_self, true_and]
    exact ⟨rfl, rfl, rfl, rfl, rfl, rfl⟩
  have honly {t : ℕ} (ht : (bootKernel kill name s₀ counter₀ regs₀).Known
      [(initializeScheduler kill name s₀).queue] t) :
      t = (initializeScheduler kill name s₀).queue :=
    List.mem_singleton.1 (ht.resolve_right List.not_mem_nil)
  refine ⟨.initializeScheduler, hregs, fun hu => ?_, fun t ht _ => honly ht ▸ hthread.2,
    fun t ht hu => ?_, fun _ h => absurd h List.not_mem_nil, fun _ h => absurd h List.not_mem_nil,
    .nil⟩
  · exact absurd (hthread.1.symm.trans hu) (by decide)
  · rw [honly ht] at hu
    exact absurd (hthread.1.symm.trans hu) (by decide)

/-- In every run from where `initializeGDT` has returned, the processor stays in the kernel: a
    thread of a user that is dispatched faults before it is entered, has ended then, and is never
    dispatched again. A thread of the kernel never faults on its way back, and goes on with the
    registers that it had. -/
theorem rings_of_run (hroom : 64 ≤ m₀.regs.rsp) (hcpl : m₀.cpl = 0)
    (hgdt : initializeGDT address caller label m₀ = .ok m₁) (hregs : m₁.regs.SameSegments regs₀)
    (hr : Run (RingStep kill image) (bootKernel kill name s₀ counter₀ regs₀) ops k) :
    RingSound image ops k := by
  obtain ⟨m', hm', hsupervisor, -⟩ := @initializeGDT_spec m₀ address caller label hroom hcpl
  obtain rfl := Except.ok.inj (hgdt.symm.trans hm')
  obtain ⟨l, hI⟩ := hr.history (fun ops k => ∃ l, k.Rings ops l)
    ⟨_, rings_bootKernel (hsupervisor.congr hregs)⟩ fun _ _ _ _ ⟨_, hI⟩ hs => hI.step hs
  refine ⟨hI.regs, hI.faults, hI.once, fun op hmem t hd hu => ?_, ?_, fun h => hI.exit h⟩
  · refine (hI.user t (.inl (hI.dispatched op hmem t hd)) hu).resolve_right fun hnever => ?_
    exact hnever.2.2 op hmem hd
  · rintro before after t t' r r' out rfl
    obtain ⟨k₁, hbefore, hrest⟩ := hr.exists_mid
    obtain ⟨k₂, hs, -⟩ := hrest.exists_first
    have hkernel := hbefore.expand id RingOp.kernelOps fun _ _ _ => kernelRun_of_step
    exact ((inv_of_run hkernel).switches (kernelRun_of_step hs).step_of_singleton).continues

/-- The processor when `initializeGDT` is called. -/
def bootMachine : Machine :=
  ⟨⟨0, 0, 0, 0, 0, 0, 0, 0, 0, 0, 0, 0, 0, 0, 0, 0, 0, 0, 0, 0, 0, 2, 0x1000, 0⟩, fun _ => 0⟩

/-- A timer interrupt, when `schedule` returns. -/
theorem exists_timerInterrupt {s' : Scheduler} (hflags : k.regs.rflags.testBit 1 = true)
    (hr : Returns (fun n => schedule (k.regs.swapped.frame 0 0) k.system.scheduler n) (out, s')) :
    ∃ m : Machine, m.regs.rflags = 2 ∧ TimerInterrupt image k m out s' (wrap (k.counter + 1)) := by
  obtain ⟨p, m, hp, hreturns, hregs, hrsp, hread⟩ := exists_interrupted image hflags hr
  refine ⟨m, by rw [hregs], ⟨p, hp, hreturns, hrsp, ?_⟩, hread⟩
  rw [hregs]
  exact ⟨rfl, rfl, rfl, rfl, rfl, rfl⟩

/-- A thread of a user, made and queued, at the first timer interrupt. -/
theorem rings_of_run_user : ∃ ops k, RingSound smallImage ops k ∧ ∃ op ∈ ops, op.Faults := by
  obtain ⟨m₁, hgdt, hsupervisor, -, -, hflags, -⟩ := @initializeGDT_spec bootMachine 0x100 0x200
    0x300 (by decide) rfl
  obtain ⟨hqueue, hready⟩ := queue_bootScheduler
  obtain ⟨hreach, s₂, hadd, hpair, hrunning, hdpl, -⟩ :=
    @exists_pair 0x100 bootScheduler 0x1000 0x500 0x600 0x700 true hqueue hready (by decide)
      (by decide)
  have hcreate := @KernelStep.create 0x100 smallImage ⟨⟨bootScheduler, []⟩, 0, m₁.regs⟩
    0x500 0x600 0x700 true (by decide) hreach List.not_mem_nil
  have hboot : Run (RingStep 0x100 smallImage) (bootKernel 0x100 0x200 zeroScheduler 0 m₁.regs) []
      _ := .nil
  have hmake : RingStep 0x100 smallImage _ (.kernel (.create 0x500 0x600 _ true)) _ :=
    .thread trivial hcreate
  have hadd' : RingStep 0x100 smallImage
      ⟨⟨Thread.new 0x100 0x500 0x600 0x700 true bootScheduler, [0x500]⟩, 0, m₁.regs⟩
      (.kernel (.addThread 0x500)) _ := .thread trivial (.addThread List.mem_cons_self hadd)
  have hr := (hboot.snoc hmake).snoc hadd'
  obtain ⟨l, hI⟩ := hr.history (fun ops k => ∃ l, k.Rings ops l) ⟨_, rings_bootKernel hsupervisor⟩
    fun _ _ _ _ ⟨_, hI⟩ hs => hI.step hs
  -- The first thread saves its registers, and the search ends at the next one.
  obtain ⟨s₃, hr₃, -, hrunning₃, -, -⟩ := hpair.schedule (m₁.regs.swapped.frame 0 0)
  rw [hpair.advance_of_first hrunning] at hrunning₃
  have hbit : m₁.regs.rflags.testBit 1 = true := hflags ▸ rfl
  obtain ⟨m, hm, h⟩ := @exists_timerInterrupt smallImage ⟨⟨s₂, []⟩, 0, m₁.regs⟩ _ s₃ hbit hr₃
  have huser : (s₃.threads s₃.running).dpl = 3 := by
    rw [hI.dpl_scheduled h, hrunning₃]
    exact hdpl
  have hexit := (hI.exit h).trans (if_pos huser)
  have hflags' : (m.step (.pop .rax)).regs.rflags.testBit 1 = true := by
    show m.regs.rflags.testBit 1 = true
    rw [hm]
    decide
  have hfault : RingStep 0x100 smallImage ⟨⟨s₂, []⟩, 0, m₁.regs⟩ _ _ :=
    .fault h hexit (q := interruptedProgram (m.step (.pop .rax)).regs hflags') rfl (.refl _)
  exact ⟨_, _, rings_of_run (by decide) rfl hgdt (.refl _) (hr.snoc hfault), _,
    List.mem_append_right _ List.mem_cons_self, trivial⟩

end

end SmartOS
