import SmartOS.Interrupt.Frame
import SmartOS.Lib.Controller
import SmartOS.Lib.Run

/-!
# Interrupts of devices

`IRQ.cpp`, and the pair of interrupt controllers that it sets up. A device raises its
line at any time; the processor takes the vector that the controllers answer with
through the table to a stub, and `irq_handler` ends the interrupt and calls the
handler that is registered for its number (`IRQStep`).

Between two interrupts, the lines that are pending should be those that were raised
since they were last served (`Asked`): no request is lost, and none is served twice.

* `ready_initializePIC`: what `initializePIC` makes of the controllers, whatever they
  were doing;
* `irqHandler_spec`: an interrupt of a line, from the controllers to the handler;
* `interrupts_of_run`: in every run, each interrupt is that of the line of the highest
  priority that was raised, and leaves nothing in service.
-/

namespace SmartOS

open Prog

/-! ## The source -/

/-- The globals of `IRQ.cpp`, and the controllers. A handler is its address, or 0 for none. -/
structure IRQ where
  handlers : ℕ → ℕ
  apicEnabled : Bool
  pic : Controllers

/-- `outb(port, data)`, with a port of the controllers. -/
def IRQ.outb (s : IRQ) (port data : ℕ) : IRQ :=
  match port with
  | 0x20 => { s with pic := { s.pic with master := s.pic.master.command data } }
  | 0x21 => { s with pic := { s.pic with master := s.pic.master.data data } }
  | 0xA0 => { s with pic := { s.pic with slave := s.pic.slave.command data } }
  | 0xA1 => { s with pic := { s.pic with slave := s.pic.slave.data data } }
  | _ => s

def initializePIC (s : IRQ) : IRQ :=
  let s := { s with apicEnabled := false, handlers := fun i => if i < 16 then 0 else s.handlers i }
  let s := s.outb 0x20 0x11
  let s := s.outb 0xA0 0x11
  let s := s.outb 0x21 0x20
  let s := s.outb 0xA1 0x28
  let s := s.outb 0x21 0x04
  let s := s.outb 0xA1 0x02
  let s := s.outb 0x21 0x01
  let s := s.outb 0xA1 0x01
  let s := s.outb 0x21 0x0
  s.outb 0xA1 0x0

def registerIRQHandler (irqNum handler : ℕ) (s : IRQ) : IRQ :=
  { s with handlers := Function.update s.handlers irqNum handler }

/-- `irq_handler(regs)`, up to the call of the handler that it returns. -/
def irqHandler (regs : CPURegisters) (s : IRQ) : Option ℕ × IRQ :=
  let s := if !s.apicEnabled then
      let s := if regs.num ≥ 8 then s.outb 0xA0 0x20 else s
      s.outb 0x20 0x20
    else s
  (if s.handlers regs.num ≠ 0 then some (s.handlers regs.num) else none, s)

/-! ## The system -/

/-- What happens. An interrupt comes with the registers of the interrupted program, those that the
    handler receives, and the handler that is called. -/
inductive IRQOp
  | request (line : Fin 16)
  | registerIRQHandler (irqNum handler : ℕ)
  | interrupt (program : Registers) (regs : CPURegisters) (called : Option ℕ)
  deriving Repr, DecidableEq

/-- What the stub of a device passes to `irq_handler`. -/
def Interrupt.passed (i : Interrupt) (image : Image) (p : Interrupted) : CPURegisters :=
  CPURegisters.read (i.enter image p).mem (i.enter image p).regs.rdi

/-- No device is on the line 2, which the slave is on. An interrupt takes the vector that the
    controllers answer with. -/
inductive IRQStep (image : Image) (s : IRQ) : IRQOp → IRQ → Prop
  | request {line : Fin 16} : line ≠ 2 →
      IRQStep image s (.request line) { s with pic := s.pic.request line }
  | registerIRQHandler {irqNum handler : ℕ} : irqNum < 16 →
      IRQStep image s (.registerIRQHandler irqNum handler) (registerIRQHandler irqNum handler s)
  | interrupt {irq : Fin 16} {p : Interrupted} {vector : ℕ} {pic : Controllers} {called : Option ℕ}
      {s' : IRQ} :
      s.pic.acknowledge = some (vector, pic) → (Interrupt.device irq).vector = vector →
      irqHandler ((Interrupt.device irq).passed image p) { s with pic := pic } = (called, s') →
      IRQStep image s (.interrupt p.regs ((Interrupt.device irq).passed image p) called) s'

/-! ## Specification -/

/-- The operation is the interrupt of a line. -/
def IRQOp.Serves (line : Fin 16) : IRQOp → Prop
  | .interrupt _ regs _ => regs.num = line
  | _ => False

/-- The line was raised, and has not been served since. -/
def Asked (ops : List IRQOp) (line : Fin 16) : Prop :=
  ∃ before after, ops = before ++ .request line :: after ∧ ∀ op ∈ after, ¬op.Serves line

/-- The handler that was registered last for every number. -/
def registered (ops : List IRQOp) : ℕ → ℕ :=
  ops.foldl (fun handlers op => match op with
    | .registerIRQHandler irqNum handler => Function.update handlers irqNum handler
    | _ => handlers) fun _ => 0

/-- What an interrupt has to do, after the operations `ops`. -/
structure Served (ops : List IRQOp) (program : Registers) (regs : CPURegisters)
    (called : Option ℕ) (line : Fin 16) : Prop where
  asked : Asked ops line
  first : ∀ other, Asked ops other → Controllers.priority line ≤ Controllers.priority other
  regs : regs = program.swapped.frame line 0
  called : called = if registered ops line ≠ 0 then some (registered ops line) else none

/-- The system, after the operations `ops`: nothing stays in service, the lines that are pending are
    those that were raised since they were last served, an interrupt is that of the first one of
    these, and there can be one as long as there is a line to be served, whatever program runs. -/
structure IRQ.Serving (image : Image) (ops : List IRQOp) (s : IRQ) : Prop where
  idle : s.pic.Idle
  pending : ∀ line, line ∈ s.pic.pending ↔ Asked ops line
  served : ∀ {program : Registers} {regs : CPURegisters} {called : Option ℕ} {s' : IRQ},
    IRQStep image s (.interrupt program regs called) s' →
    ∃ line, Served ops program regs called line
  progress : ∀ line, Asked ops line → ∀ p : Interrupted, ∃ regs called s',
    IRQStep image s (.interrupt p.regs regs called) s'

/-! ## Steps -/

variable {image : Image} {s s' s₀ : IRQ} {ops : List IRQOp} {line : Fin 16}

/-- The controllers, when they are set up for the table. -/
def IRQ.Ready (s : IRQ) : Prop := s.apicEnabled = false ∧ s.pic.Ready 0x20 0x28 ∧ s.pic.Idle

theorem ready_initializePIC (s : IRQ) :
    (initializePIC s).Ready ∧ (initializePIC s).pic.pending = ∅ ∧
      ∀ i < 16, (initializePIC s).handlers i = 0 := by
  have hmask : (Finset.univ.filter fun n : Fin 8 => (0x0).testBit n) = ∅ := by decide
  refine ⟨⟨rfl, ⟨⟨hmask, rfl, rfl, rfl⟩, ⟨hmask, rfl, rfl, rfl⟩, Finset.notMem_empty _⟩, rfl, rfl⟩,
    ?_, fun i hi => if_pos hi⟩
  refine Finset.eq_empty_of_forall_notMem fun n hn => ?_
  by_cases hlt : n.val < 8
  · exact Finset.notMem_empty _ ((Controllers.mem_pending_master hlt).1 hn)
  · exact Finset.notMem_empty _ ((Controllers.mem_pending_slave hlt).1 hn)

/-- The stub passes the number of its line. -/
theorem passed_device (image : Image) (irq : Fin 16) (p : Interrupted) :
    (Interrupt.device irq).passed image p = p.regs.swapped.frame irq 0 :=
  read_enter_of_not_mem (by
    simp only [Interrupt.vector, unknownErrorCodes, List.mem_cons, List.not_mem_nil, or_false]
    omega)

/-- The vectors lead to the stubs of the lines. -/
theorem vectorOf_eq (line : Fin 16) :
    Controllers.vectorOf 0x20 0x28 line = (Interrupt.device line).vector := by
  rw [Controllers.vectorOf, Interrupt.vector]
  split_ifs <;> omega

/-- `irq_handler` ends the interrupt of its number. -/
theorem irqHandler_eq (s : IRQ) (line : Fin 16) {regs : CPURegisters}
    (happ : s.apicEnabled = false) (hnum : regs.num = line) : irqHandler regs s =
      (if s.handlers line ≠ 0 then some (s.handlers line) else none,
        { s with pic := s.pic.finish line }) := by
  obtain ⟨handlers, apicEnabled, pic⟩ := s
  obtain rfl : apicEnabled = false := happ
  rw [irqHandler, hnum, Controllers.finish]
  by_cases hge : 8 ≤ line.val <;> simp [hge, IRQ.outb]

/-- An interrupt: it is that of the first line that is pending. -/
theorem IRQStep.interrupt_inv {program : Registers} {regs : CPURegisters} {called : Option ℕ}
    (h : s.Ready) (hs : IRQStep image s (.interrupt program regs called) s') :
    ∃ line ∈ s.pic.pending,
      (∀ other ∈ s.pic.pending, Controllers.priority line ≤ Controllers.priority other) ∧
      regs = program.swapped.frame line 0 ∧
      called = (if s.handlers line ≠ 0 then some (s.handlers line) else none) ∧
      s' = { s with pic := (s.pic.served line).finish line } := by
  obtain ⟨happ, hready, hidle⟩ := h
  cases hs with
  | @interrupt irq p vector pic _ _ hack hvector hhandler =>
    rcases Controllers.acknowledge_spec hready hidle with ⟨-, hnone⟩ | ⟨line, hmem, hmin, hsome⟩
    · rw [hnone] at hack
      cases hack
    · obtain ⟨rfl, rfl⟩ := Prod.mk.inj (Option.some.inj (hsome.symm.trans hack))
      -- Different lines have different vectors.
      obtain rfl : irq = line := by
        rw [vectorOf_eq, Interrupt.vector, Interrupt.vector] at hvector
        exact Fin.ext (Nat.add_left_cancel hvector)
      have hpassed := passed_device image irq p
      have hnum : ((Interrupt.device irq).passed image p).num = irq := by
        rw [hpassed]
        rfl
      rw [irqHandler_eq { s with pic := s.pic.served irq } irq happ hnum] at hhandler
      obtain ⟨rfl, rfl⟩ := Prod.mk.inj hhandler
      exact ⟨irq, hmem, hmin, hpassed, rfl, rfl⟩

/-- Whatever program runs, the first line that is pending can interrupt it. -/
theorem exists_interrupt (h : s.Ready) (hmem : line ∈ s.pic.pending) (p : Interrupted) :
    ∃ regs called s', IRQStep image s (.interrupt p.regs regs called) s' := by
  obtain ⟨-, hready, hidle⟩ := h
  rcases Controllers.acknowledge_spec hready hidle with ⟨hempty, -⟩ | ⟨first, -, -, hsome⟩
  · rw [hempty] at hmem
    exact absurd hmem (Finset.notMem_empty _)
  · exact ⟨_, _, _, .interrupt (p := p) hsome (vectorOf_eq first).symm rfl⟩

/-! ## Runs -/

theorem asked_snoc {op : IRQOp} : Asked (ops ++ [op]) line ↔
    op = .request line ∨ (Asked ops line ∧ ¬op.Serves line) := since_snoc

/-- The invariant: the lines that are pending are those that have to be served. -/
structure IRQ.Inv (ops : List IRQOp) (s : IRQ) : Prop where
  ready : s.Ready
  pending : ∀ line, line ∈ s.pic.pending ↔ Asked ops line
  handlers : ∀ line : Fin 16, s.handlers line = registered ops line

theorem registered_snoc (op : IRQOp) : registered (ops ++ [op]) =
    match op with
    | .registerIRQHandler irqNum handler => Function.update (registered ops) irqNum handler
    | _ => registered ops := by
  rw [registered, List.foldl_append]
  rfl

theorem IRQ.inv_initializePIC (s : IRQ) : IRQ.Inv [] (initializePIC s) := by
  obtain ⟨hready, hempty, hhandlers⟩ := ready_initializePIC s
  refine ⟨hready, fun line => ?_, fun line => hhandlers line line.isLt⟩
  rw [hempty]
  exact iff_of_false (Finset.notMem_empty _) (not_since_nil _ _)

/-- An interrupt is what it has to be. -/
theorem IRQ.Inv.served (h : s.Inv ops) {program : Registers} {regs : CPURegisters}
    {called : Option ℕ} (hs : IRQStep image s (.interrupt program regs called) s') :
    ∃ line, Served ops program regs called line ∧
      s' = { s with pic := (s.pic.served line).finish line } := by
  obtain ⟨line, hmem, hmin, hregs, hcalled, rfl⟩ := hs.interrupt_inv h.ready
  exact ⟨line, ⟨(h.pending line).1 hmem, fun other ho => hmin other ((h.pending other).2 ho), hregs,
    by rwa [← h.handlers line]⟩, rfl⟩

theorem IRQ.Inv.step {op : IRQOp} (h : s.Inv ops) (hs : IRQStep image s op s') :
    s'.Inv (ops ++ [op]) := by
  obtain ⟨happ, hready, hidle⟩ := h.ready
  cases op with
  | request line =>
    cases hs with
    | request hne =>
      refine ⟨⟨happ, hready.request hne, hidle.request line⟩, fun other => ?_, fun other => ?_⟩
      · rw [Controllers.mem_pending_request, h.pending other, asked_snoc]
        simp only [IRQOp.request.injEq, IRQOp.Serves, not_false_eq_true, and_true, eq_comm]
      · rw [registered_snoc]
        exact h.handlers other
  | registerIRQHandler irqNum handler =>
    cases hs with
    | registerIRQHandler _ =>
      refine ⟨⟨happ, hready, hidle⟩, fun other => ?_, fun other => ?_⟩
      · rw [asked_snoc]
        simp only [reduceCtorEq, IRQOp.Serves, not_false_eq_true, and_true, false_or]
        exact h.pending other
      · rw [registered_snoc, registerIRQHandler]
        simp only [Function.update_apply, h.handlers other]
  | interrupt program regs called =>
    obtain ⟨line, hserved, rfl⟩ := h.served hs
    refine ⟨⟨happ, hready.served_finish, hidle.served_finish⟩, fun other => ?_, fun other => ?_⟩
    · rw [Controllers.mem_pending_finish hready, h.pending other, asked_snoc, IRQOp.Serves,
        hserved.regs]
      simp only [reduceCtorEq, Registers.frame, false_or, and_comm, ne_eq, Fin.ext_iff, eq_comm]
    · rw [registered_snoc]
      exact h.handlers other

/-- In every run, from whatever state of the controllers, each request is served exactly once, by
    the handler that was registered for its line last. -/
theorem interrupts_of_run (hr : Run (IRQStep image) (initializePIC s₀) ops s) :
    s.Serving image ops := by
  have hI : s.Inv ops := hr.history (fun ops s => s.Inv ops) (IRQ.inv_initializePIC s₀)
    fun _ _ _ _ h hs => h.step hs
  refine ⟨hI.ready.2.2, hI.pending, fun hs => ?_, fun line hasked p => ?_⟩
  · obtain ⟨line, hserved, -⟩ := hI.served hs
    exact ⟨line, hserved⟩
  · exact exists_interrupt hI.ready ((hI.pending line).2 hasked) p

/-- Two controllers that have been reset, and no handlers. -/
def resetIRQ : IRQ :=
  ⟨fun _ => 0, false, ⟨⟨∅, ∅, ∅, 0, 0, 0, []⟩, ⟨∅, ∅, ∅, 0, 0, 0, []⟩⟩⟩

/-- The mouse and the keyboard, before either is served. -/
theorem interrupts_of_run_requests : ∃ s, IRQ.Serving smallImage [.request 12, .request 1] s := by
  have hmouse : Run (IRQStep smallImage) (initializePIC resetIRQ) ([] ++ [.request 12]) _ :=
    Run.nil.snoc (.request (by decide))
  exact ⟨_, interrupts_of_run (hmouse.snoc (.request (by decide)))⟩

end SmartOS
