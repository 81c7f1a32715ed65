import SmartOS.Scheduler.Run
import SmartOS.Interrupt.PIC

/-!
# Switching between threads

The timer interrupt, from the registers of the processor that it interrupts to those
with which the processor goes on: the stub pushes the registers, `pitHandler` has
`schedule` write those of another thread over them, and the code after the handler
pops these. In between, the programs run and do what they like with the registers.

A thread should not notice that it has been interrupted (`Continues`). The stubs push
`es` and `fs` in an order of their own, but what is pushed is popped in the same order,
by whichever interrupt, so the exchange comes to nothing.

* `KernelStep`: programs that run, threads that are made, and timer interrupts;
* `systemStep_of_step`: a step is one of the scheduler, or none;
* `continues_of_run`: the processor goes on with the very registers with which the
  thread was interrupted last, or enters it at its entry, on the top of its stack.
-/

namespace SmartOS

open Prog

/-! ## The timer -/

/-- `pitHandler(regs)`: what it leaves in `regs`, and `counter`. -/
def pitHandler (regs : CPURegisters) (s : Scheduler) (counter fuel : ℕ) :
    Option (CPURegisters × Scheduler × ℕ) :=
  (schedule regs s fuel).bind fun (regs, s) => some (regs, s, wrap (counter + 1))

/-! ## The system -/

/-- The scheduler with its threads, `counter` of the timer, and the registers of the processor. -/
structure Kernel where
  system : System
  counter : ℕ
  regs : Registers

/-- What happens. A timer interrupt comes with the thread that it interrupts and its registers, the
    thread that runs then, what the handler leaves in the structure, and the registers after it. -/
inductive KernelOp
  | run (regs : Registers)
  | create (thread entry stack : ℕ) (user : Bool)
  | addThread (thread : ℕ)
  | flags
  | timer (preempted : ℕ) (before : Registers) (dispatched : ℕ) (out : CPURegisters)
    (after : Registers)
  deriving Repr, DecidableEq

/-- The part of an operation that the scheduler has to do with. -/
def KernelOp.system? : KernelOp → Option SystemOp
  | run _ => none
  | create thread entry stack user => some (.create thread (initialState user entry stack))
  | addThread thread => some (.addThread thread)
  | flags => some .other
  | timer preempted before dispatched out _ =>
    some (.schedule preempted (before.swapped.frame 0 0) dispatched out)

/-- The steps. The stack that is interrupted is anywhere, and what has been pushed on it is there
    when the handler returns, but for what the handler has written. -/
inductive KernelStep (kill : ℕ) (image : Image) (k : Kernel) : KernelOp → Kernel → Prop
  | run {regs : Registers} : KernelStep kill image k (.run regs) { k with regs := regs }
  | create {this entry name : ℕ} {user : Bool} : this ≠ 0 →
      ¬Reach k.system.scheduler.next k.system.scheduler.queue this → this ∉ k.system.waiting →
      KernelStep kill image k
        (.create this entry (newStack kill k.system.scheduler.mmu).1 user)
        { k with system :=
          ⟨Thread.new kill this entry name user k.system.scheduler, this :: k.system.waiting⟩ }
  | addThread {thread : ℕ} {s' : Scheduler} : thread ∈ k.system.waiting →
      Returns (fun n => addThread thread k.system.scheduler n) s' →
      KernelStep kill image k (.addThread thread)
        { k with system := ⟨s', k.system.waiting.erase thread⟩ }
  | flags {threads : ℕ → Thread} : (∀ t, (k.system.scheduler.threads t).SameSaved (threads t)) →
      KernelStep kill image k .flags
        { k with system := ⟨{ k.system.scheduler with threads := threads }, k.system.waiting⟩ }
  | timer {p : Interrupted} {m : Machine} {out : CPURegisters} {s' : Scheduler} {counter : ℕ} :
      p.regs = k.regs →
      Returns (fun n => pitHandler ((Interrupt.device 0).passed image p) k.system.scheduler
        k.counter n) (out, s', counter) →
      m.regs.rsp = ((Interrupt.device 0).enter image p).regs.rdi →
      CPURegisters.read m.mem m.regs.rsp = out →
      KernelStep kill image k
        (.timer k.system.scheduler.running k.regs s'.running out (m.run commonExit).regs)
        ⟨⟨s', k.system.waiting⟩, counter, (m.run commonExit).regs⟩

/-! ## Specification -/

/-- The operation interrupts the thread. -/
def KernelOp.Preempts (t : ℕ) : KernelOp → Prop
  | .timer preempted _ _ _ _ => preempted = t
  | _ => False

/-- The registers with which the thread `t` has to go on, after the operations `ops`: those it was
    interrupted with or, if it never was, those for entering it. -/
inductive Continues (ops : List KernelOp) (t : ℕ) (regs : Registers) : Prop
  | interrupted {before after : List KernelOp} {t' : ℕ} {out : CPURegisters} {regs' : Registers} :
      ops = before ++ .timer t regs t' out regs' :: after →
      (∀ op ∈ after, ¬op.Preempts t) → Continues ops t regs
  | entered {entry stack : ℕ} {user : Bool} : (∀ op ∈ ops, ¬op.Preempts t) →
      .create t entry stack user ∈ ops →
      regs = (initialState user entry stack).restored → Continues ops t regs

/-- What a timer interrupt of the thread `t` does, after the operations `ops` and from `k` to `k'`:
    the thread `t'` goes on. -/
structure Switches (ops : List KernelOp) (k : Kernel) (t : ℕ) (r : Registers) (t' : ℕ)
    (r' : Registers) (k' : Kernel) : Prop where
  preempted : t = k.system.scheduler.running
  before : r = k.regs
  dispatched : t' = k'.system.scheduler.running
  after : r' = k'.regs
  cr3 : k'.system.scheduler.mmu.cr3 = (k'.system.scheduler.threads t').dir
  continues : Continues ops t' r'

/-- The kernel when the scheduler has just been initialized. -/
def bootKernel (kill name : ℕ) (s₀ : Scheduler) (counter : ℕ) (regs : Registers) : Kernel :=
  ⟨⟨initializeScheduler kill name s₀, []⟩, counter, regs⟩

/-! ## Steps -/

variable {kill name : ℕ} {image : Image} {k k' : Kernel} {ops : List KernelOp} {op : KernelOp}
  {t t' : ℕ} {regs regs' : Registers} {out : CPURegisters}

/-- The exchange of `es` and `fs` is undone when they are popped. -/
theorem restored_frame (r : Registers) (num code : ℕ) :
    (r.swapped.frame num code).restored = r := rfl

theorem returns_pitHandler_iff {s s' : Scheduler} {regs : CPURegisters} {counter counter' : ℕ} :
    Returns (fun n => pitHandler regs s counter n) (out, s', counter') ↔
      Returns (fun n => schedule regs s n) (out, s') ∧ counter' = wrap (counter + 1) := by
  have hbind (r : Option (CPURegisters × Scheduler)) :
      (r.bind fun (regs, s) => some (regs, s, wrap (counter + 1))) = some (out, s', counter') ↔
        r = some (out, s') ∧ counter' = wrap (counter + 1) := by
    cases r with
    | none => simp
    | some r =>
      obtain ⟨out', s''⟩ := r
      simp only [Option.bind_some, Option.some.injEq, Prod.mk.injEq, and_assoc, eq_comm]
  simp only [Returns, pitHandler, hbind]
  constructor
  · rintro ⟨N, h⟩
    exact ⟨⟨N, fun n hn => (h n hn).1⟩, (h N le_rfl).2⟩
  · rintro ⟨⟨N, h⟩, hcounter⟩
    exact ⟨N, fun n hn => ⟨h n hn, hcounter⟩⟩

/-- What a timer interrupt does. -/
theorem KernelStep.timer_inv {before after : Registers}
    (hs : KernelStep kill image k (.timer t before t' out after) k') :
    before = k.regs ∧ k'.regs = after ∧ k'.counter = wrap (k.counter + 1) ∧ after = out.restored ∧
      SystemStep kill k.system (.schedule t (before.swapped.frame 0 0) t' out) k'.system := by
  cases hs with
  | @timer p m _ s' counter hp hr hrsp hread =>
    obtain ⟨hr, hcounter⟩ := returns_pitHandler_iff.1 hr
    rw [passed_device, hp] at hr
    refine ⟨rfl, rfl, hcounter, ?_, .schedule hr⟩
    rw [exit_spec, hread]

/-- A step is one of the scheduler, or leaves it alone. -/
theorem systemStep_of_step (hs : KernelStep kill image k op k') :
    (op.system? = none ∧ k'.system = k.system) ∨
      ∃ sop, op.system? = some sop ∧ SystemStep kill k.system sop k'.system := by
  cases op with
  | run regs =>
    cases hs
    exact .inl ⟨rfl, rfl⟩
  | create thread entry stack user =>
    cases hs with
    | create h0 hqueue hwaiting =>
      refine .inr ⟨_, rfl, ?_⟩
      rw [← state_new]
      exact .create h0 hqueue hwaiting
  | addThread thread =>
    cases hs with
    | addThread hmem hr => exact .inr ⟨_, rfl, .addThread hmem hr⟩
  | flags =>
    cases hs with
    | flags h => exact .inr ⟨_, rfl, .other h⟩
  | timer preempted before dispatched out after => exact .inr ⟨_, rfl, hs.timer_inv.2.2.2.2⟩

/-! ## Runs -/

section

variable {s₀ : Scheduler} {counter₀ : ℕ} {regs₀ : Registers}

/-- A run is one of the scheduler. -/
theorem systemRun_of_run (hr : Run (KernelStep kill image) (bootKernel kill name s₀ counter₀ regs₀)
    ops k) : Run (SystemStep kill) ⟨initializeScheduler kill name s₀, []⟩
      (ops.filterMap KernelOp.system?) k.system :=
  hr.project Kernel.system KernelOp.system? fun _ _ _ hs => systemStep_of_step hs

/-- Only `schedule` changes which thread is running. -/
theorem running_of_step (hs : KernelStep kill image k op k')
    (hop : ¬op.Preempts k.system.scheduler.running) :
    k'.system.scheduler.running = k.system.scheduler.running := by
  cases hs with
  | run => rfl
  | create _ _ _ => rfl
  | addThread _ hr =>
    obtain ⟨n, hn⟩ := hr.exists_fuel
    obtain ⟨tail, -, htail⟩ := Option.bind_eq_some_iff.1 hn
    rw [← Option.some.inj htail]
    rfl
  | flags _ => rfl
  | timer _ _ _ _ => exact absurd rfl hop

/-- The thread that the scheduler starts with runs until it is interrupted. -/
theorem running_or_preempted (hr : Run (KernelStep kill image)
    (bootKernel kill name s₀ counter₀ regs₀) ops k) :
    k.system.scheduler.running = (initializeScheduler kill name s₀).queue ∨
      ∃ op ∈ ops, op.Preempts (initializeScheduler kill name s₀).queue := by
  induction hr with
  | nil => exact .inl (initializeScheduler_thread rfl).1
  | @snoc ops k k' op _ hs ih =>
    rcases ih with hrunning | ⟨op', hmem, hpre⟩
    · by_cases hop : op.Preempts k.system.scheduler.running
      · exact .inr ⟨op, List.mem_append_right _ List.mem_cons_self, hrunning ▸ hop⟩
      · exact .inl ((running_of_step hs hop).trans hrunning)
    · exact .inr ⟨op', List.mem_append_left _ hmem, hpre⟩

/-- The operations that preempt a thread are those by which the scheduler does. -/
theorem preempts_system? {sop : SystemOp} (h : op.system? = some sop) :
    sop.Preempts t ↔ op.Preempts t := by
  cases op <;> simp only [KernelOp.system?, reduceCtorEq, Option.some.injEq] at h <;> subst h <;>
    rfl

/-- How a thread has to run on, for the scheduler and for the processor. -/
theorem continues_of_resumes {s₀ : Scheduler} {sout : CPURegisters}
    (h : Resumes s₀ (ops.filterMap KernelOp.system?) t sout)
    (hqueue : t = s₀.queue → ∃ op ∈ ops, op.Preempts t) : Continues ops t sout.restored := by
  have hnever {ops' : List KernelOp}
      (hops : ∀ sop ∈ ops'.filterMap KernelOp.system?, ¬sop.Preempts t) :
      ∀ op ∈ ops', ¬op.Preempts t := by
    intro op hmem hpre
    cases hsys : op.system? with
    | none =>
      cases op <;> first | exact hpre | cases hsys
    | some sop =>
      exact hops sop (List.mem_filterMap.2 ⟨op, hmem, hsys⟩) ((preempts_system? hsys).2 hpre)
  cases h with
  | @preempted before after t' out hops hafter =>
    obtain ⟨before', rest, rfl, -, hrest⟩ := List.filterMap_eq_append_iff.1 hops
    obtain ⟨skipped, op, after', rfl, -, hop, rfl⟩ := List.filterMap_eq_cons_iff.1 hrest
    cases op with
    | timer preempted regs dispatched out' regs' =>
      simp only [KernelOp.system?, Option.some.injEq, SystemOp.schedule.injEq] at hop
      obtain ⟨rfl, rfl, -, -⟩ := hop
      exact .interrupted (List.append_assoc before' skipped _).symm
        (hnever hafter)
    | _ => simp [KernelOp.system?] at hop
  | initial hops hinit =>
    have hops' := hnever hops
    rcases hinit with ⟨ht, -⟩ | hcreate
    · obtain ⟨op, hmem, hpre⟩ := hqueue ht
      exact absurd hpre (hops' op hmem)
    · obtain ⟨op, hmem, hop⟩ := List.mem_filterMap.1 hcreate
      cases op with
      | create thread entry stack user =>
        simp only [KernelOp.system?, Option.some.injEq, SystemOp.create.injEq] at hop
        obtain ⟨rfl, rfl⟩ := hop
        exact .entered hops' hmem rfl
      | _ => simp [KernelOp.system?] at hop

/-- The invariant: that of the scheduler, and the thread that the scheduler starts with runs until
    it is interrupted. -/
structure Kernel.Inv (s₀ : Scheduler) (ops : List KernelOp) (k : Kernel) : Prop where
  scheduler : ∃ l, k.system.Inv s₀ (ops.filterMap KernelOp.system?) l
  first : k.system.scheduler.running = s₀.queue ∨ ∃ op ∈ ops, op.Preempts s₀.queue

theorem inv_of_run
    (hr : Run (KernelStep kill image) (bootKernel kill name s₀ counter₀ regs₀) ops k) :
    k.Inv (initializeScheduler kill name s₀) ops where
  scheduler := (systemRun_of_run hr).history
    (fun ops s => ∃ l, s.Inv (initializeScheduler kill name s₀) ops l)
    ⟨_, inv_initializeScheduler⟩ fun _ _ _ _ ⟨_, hI⟩ hs => inv_step hI hs
  first := running_or_preempted hr

/-- A timer interrupt saves the registers of the thread that it interrupts, and restores those that
    the next thread had. -/
theorem Kernel.Inv.switches {before after : Registers} (hI : k.Inv s₀ ops)
    (hs : KernelStep kill image k (.timer t before t' out after) k') :
    Switches (ops ++ [.timer t before t' out after]) k t before t' after k' := by
  obtain ⟨hbefore, hafter, -, rfl, hstep⟩ := hs.timer_inv
  obtain ⟨l, hscheduler⟩ := hI.scheduler
  obtain ⟨ht, ht', hresumes, -, hcr3, -⟩ := (faithful_step hscheduler hstep).dispatch rfl
  have hresumes' : Resumes s₀ ((ops ++
      [KernelOp.timer t before t' out out.restored]).filterMap KernelOp.system?) t' out := by
    rw [List.filterMap_append]
    exact hresumes
  refine ⟨ht, hbefore, ht', hafter.symm, hcr3, continues_of_resumes hresumes' fun heq => ?_⟩
  -- The thread that runs first is interrupted before any other runs.
  rcases hI.first with hrunning | ⟨op, hmem, hpre⟩
  · exact ⟨_, List.mem_append_right _ List.mem_cons_self, ht.trans (hrunning.trans heq.symm)⟩
  · exact ⟨op, List.mem_append_left _ hmem, heq ▸ hpre⟩

/-- In every run, whatever the programs do, a timer interrupt saves the registers of the thread that
    it interrupts, and the processor goes on with those that the next thread had. -/
theorem continues_of_run {before after : Registers}
    (hr : Run (KernelStep kill image) (bootKernel kill name s₀ counter₀ regs₀) ops k)
    (hs : KernelStep kill image k (.timer t before t' out after) k') :
    Switches (ops ++ [.timer t before t' out after]) k t before t' after k' :=
  (inv_of_run hr).switches hs

/-- A structure in memory. -/
theorem read_words (a : ℕ) (c : CPURegisters) :
    CPURegisters.read (fun x => c.words.getD ((x - a) / 8) 0) a = c := by
  cases c
  simp [CPURegisters.read, CPURegisters.words]

/-- A timer interrupt, up to the return of `irq_handler`, when `schedule` returns. -/
theorem exists_interrupted (image : Image) {s' : Scheduler}
    (hflags : k.regs.rflags.testBit 1 = true)
    (hr : Returns (fun n => schedule (k.regs.swapped.frame 0 0) k.system.scheduler n) (out, s')) :
    ∃ (p : Interrupted) (m : Machine), p.regs = k.regs ∧
      Returns (fun n => pitHandler ((Interrupt.device 0).passed image p) k.system.scheduler
        k.counter n) (out, s', wrap (k.counter + 1)) ∧
      m.regs = { ((Interrupt.device 0).enter image p).regs with rflags := 2 } ∧
      m.regs.rsp = ((Interrupt.device 0).enter image p).regs.rdi ∧
      CPURegisters.read m.mem m.regs.rsp = out := by
  let p := interruptedProgram k.regs hflags
  let entered := (Interrupt.device 0).enter image p
  let stored : WordMem := fun x => out.words.getD ((x - entered.regs.rsp) / 8) 0
  refine ⟨p, ⟨{ entered.regs with rflags := 2 }, stored⟩, rfl, returns_pitHandler_iff.2 ⟨?_, rfl⟩,
    rfl, (enter_spec image (.device 0) p).1.symm, read_words _ _⟩
  rw [passed_device]
  exact hr

/-- The step of the interrupt. -/
theorem exists_timer {s' : Scheduler} (hflags : k.regs.rflags.testBit 1 = true)
    (hr : Returns (fun n => schedule (k.regs.swapped.frame 0 0) k.system.scheduler n) (out, s'))
    (ht : k.system.scheduler.running = t) (ht' : s'.running = t') :
    KernelStep kill image k (.timer t k.regs t' out out.restored)
      ⟨⟨s', k.system.waiting⟩, wrap (k.counter + 1), out.restored⟩ := by
  obtain ⟨p, m, hp, hreturns, -, hrsp, hread⟩ := exists_interrupted image hflags hr
  subst ht ht' hread
  rw [← exit_spec]
  exact .timer hp hreturns hrsp rfl

/-- The registers of a program in the kernel. -/
def programRegs (rax : ℕ) : Registers :=
  ⟨0, 0, 0, 0, 0, 0, 0, 0, 0, 0, 0, 0, 0, 0, 0, 0, 0, 0, rax, 0, 8, 2, 0x2000, 0x10⟩

theorem testBit_programRegs (rax : ℕ) : (programRegs rax).rflags.testBit 1 = true := by
  show Nat.testBit 2 1 = true
  decide

/-- Another thread is made, runs, and is interrupted with registers of its own: the processor goes
    on with those that it had at the first interrupt. -/
theorem continues_of_run_pair : ∃ k k' ops stack,
    ops = [.create 0x500 0x600 stack false, .addThread 0x500,
      .timer 0x1000 (programRegs 7) 0x500 (initialState false 0x600 stack)
        (initialState false 0x600 stack).restored,
      .run (programRegs 8)] ∧
    Run (KernelStep 0x100 smallImage) ⟨⟨bootScheduler, []⟩, 0, programRegs 7⟩ ops k ∧
    Switches (ops ++ [.timer 0x500 (programRegs 8) 0x1000 ((programRegs 7).swapped.frame 0 0)
      (programRegs 7)]) k 0x500 (programRegs 8) 0x1000 (programRegs 7) k' := by
  obtain ⟨hqueue, hready⟩ := queue_bootScheduler
  obtain ⟨hreach, s₂, hadd, hpair, hrunning, -, hstate⟩ :=
    @exists_pair 0x100 bootScheduler 0x1000 0x500 0x600 0x700 false hqueue hready (by decide)
      (by decide)
  obtain ⟨s₃, hr₃, hpair₃, hrunning₃, hself₃, hother₃⟩ :=
    hpair.schedule ((programRegs 7).swapped.frame 0 0)
  rw [hpair.advance_of_first hrunning] at hr₃ hrunning₃
  rw [hrunning] at hself₃ hother₃
  rw [hother₃ 0x500 (by decide), hstate] at hr₃
  obtain ⟨s₄, hr₄, -, hrunning₄, -, hother₄⟩ :=
    hpair₃.schedule ((programRegs 8).swapped.frame 0 0)
  rw [hpair₃.advance_of_last hrunning₃] at hr₄ hrunning₄
  rw [hother₄ _ (by rw [hrunning₃]; decide), hself₃] at hr₄
  have hrun : Run (KernelStep 0x100 smallImage)
      (bootKernel 0x100 0x200 zeroScheduler 0 (programRegs 7)) [] _ := .nil
  have hcreate := @KernelStep.create 0x100 smallImage ⟨⟨bootScheduler, []⟩, 0, programRegs 7⟩
    0x500 0x600 0x700 false (by decide) hreach List.not_mem_nil
  have htimer : KernelStep 0x100 smallImage ⟨⟨s₂, []⟩, 0, programRegs 7⟩ _ _ :=
    exists_timer (testBit_programRegs 7) hr₃ hrunning hrunning₃
  have hback : KernelStep 0x100 smallImage ⟨⟨s₃, []⟩, wrap (0 + 1), programRegs 8⟩ _ _ :=
    exists_timer (testBit_programRegs 8) hr₄ hrunning₃ hrunning₄
  have hrun' := (((hrun.snoc hcreate).snoc (.addThread List.mem_cons_self hadd)).snoc htimer).snoc
    (@KernelStep.run _ _ _ (programRegs 8))
  exact ⟨_, _, _, _, rfl, hrun', continues_of_run hrun' hback⟩

end

end SmartOS
