import SmartOS.Interrupt.PIC
import SmartOS.Keyboard.Typing
import SmartOS.Mouse.Packets

/-!
# The keyboard and the mouse on one port

Both send their bytes through the same controller, which has room for a single one:
a device waits until the last byte has been read from port 0x60, and the byte that it
then sends raises the line of the device. The other devices raise theirs at any time,
and the interrupts come one after another, in the order of their priorities.

So no handler should read what the other device has sent, and no byte should be read
twice, or never, in whatever order everything happens. Each part of the system then
behaves as it does alone.

* `Devices.Inv.step`: the line of a device is pending exactly when its byte is to be
  read;
* `devices_of_run`: a run of the system is one of the interrupts, one of the keyboard
  and one of the mouse, each of which gets the bytes of its own device in their order;
* `prints_typed_of_devices`: what is typed is printed, whatever the mouse does.
-/

namespace SmartOS

open Prog

/-! ## The system -/

inductive PS2Port
  | keyboard
  | mouse
  deriving Repr, DecidableEq

/-- The line that a device is on. -/
def PS2Port.line : PS2Port → Fin 16
  | keyboard => 1
  | mouse => 12

/-- Where the handlers of the keyboard and the mouse are, and `handleKey`. -/
structure Drivers where
  keyboardIRQ : ℕ
  mouseInterrupt : ℕ
  handleKey : ℕ
  keyboardIRQ_ne_zero : keyboardIRQ ≠ 0
  mouseInterrupt_ne_zero : mouseInterrupt ≠ 0

/-- The interrupts and the drivers, with what the next read of port 0x60 gives, and the device that
    has sent it, if it has not been read yet. -/
structure Devices where
  irq : IRQ
  data : Byte
  full : Option PS2Port
  keyboard : Keyboard
  mouse : Mouse

/-- What happens. An interrupt comes with the registers of the interrupted program, and those that
    the handler receives. -/
inductive DeviceOp
  | send (port : PS2Port) (byte : Byte)
  | request (line : Fin 16)
  | registerIRQHandler (irqNum handler : ℕ)
  | addKeyboardHandler (handler node : ℕ)
  | keyboardIRQ (program : Registers) (regs : CPURegisters) (byte : Byte) (calls : List KeyCall)
    (out : List Byte)
  | mouseInterrupt (program : Registers) (regs : CPURegisters) (byte : Byte)
  | interrupt (program : Registers) (regs : CPURegisters) (called : Option ℕ)
  deriving Repr, DecidableEq

/-- Nothing but the controller is on the lines of the keyboard and the mouse, and nothing else is
    registered for them. The handlers run without being interrupted. -/
inductive DeviceStep (d : Drivers) (image : Image) (s : Devices) : DeviceOp → Devices → Prop
  | send {port : PS2Port} {byte : Byte} : s.full = none →
      DeviceStep d image s (.send port byte) { s with
        irq := { s.irq with pic := s.irq.pic.request port.line }, data := byte, full := some port }
  | request {line : Fin 16} {irq' : IRQ} : (∀ port : PS2Port, line ≠ port.line) →
      IRQStep image s.irq (.request line) irq' →
      DeviceStep d image s (.request line) { s with irq := irq' }
  | registerIRQHandler {irqNum handler : ℕ} {irq' : IRQ} : (∀ port : PS2Port, irqNum ≠ port.line) →
      handler ≠ d.keyboardIRQ → handler ≠ d.mouseInterrupt →
      IRQStep image s.irq (.registerIRQHandler irqNum handler) irq' →
      DeviceStep d image s (.registerIRQHandler irqNum handler) { s with irq := irq' }
  | addKeyboardHandler {handler node : ℕ} {keyboard' : Keyboard} :
      KeyboardStep d.handleKey s.keyboard (.addKeyboardHandler handler node) keyboard' →
      DeviceStep d image s (.addKeyboardHandler handler node) { s with keyboard := keyboard' }
  | keyboardIRQ {program : Registers} {regs : CPURegisters} {calls : List KeyCall}
      {out : List Byte} {irq' : IRQ} {keyboard' : Keyboard} :
      IRQStep image s.irq (.interrupt program regs (some d.keyboardIRQ)) irq' →
      KeyboardStep d.handleKey s.keyboard (.keyboardIRQ s.data calls out) keyboard' →
      DeviceStep d image s (.keyboardIRQ program regs s.data calls out)
        { s with irq := irq', full := none, keyboard := keyboard' }
  | mouseInterrupt {program : Registers} {regs : CPURegisters} {irq' : IRQ} :
      IRQStep image s.irq (.interrupt program regs (some d.mouseInterrupt)) irq' →
      DeviceStep d image s (.mouseInterrupt program regs s.data) { s with
        irq := irq'
        -- In no other state does the handler read the byte.
        full := if s.mouse.mouseCycle < 3 then none else s.full
        mouse := SmartOS.mouseInterrupt s.mouse s.data }
  | interrupt {program : Registers} {regs : CPURegisters} {called : Option ℕ} {irq' : IRQ} :
      IRQStep image s.irq (.interrupt program regs called) irq' →
      called ≠ some d.keyboardIRQ → called ≠ some d.mouseInterrupt →
      DeviceStep d image s (.interrupt program regs called) { s with irq := irq' }

/-! ## The parts of a run -/

/-- What the interrupt controllers have to do with. -/
def DeviceOp.irq? (d : Drivers) : DeviceOp → Option IRQOp
  | send port _ => some (.request port.line)
  | request line => some (.request line)
  | registerIRQHandler irqNum handler => some (.registerIRQHandler irqNum handler)
  | addKeyboardHandler _ _ => none
  | keyboardIRQ program regs _ _ _ => some (.interrupt program regs (some d.keyboardIRQ))
  | mouseInterrupt program regs _ => some (.interrupt program regs (some d.mouseInterrupt))
  | interrupt program regs called => some (.interrupt program regs called)

def DeviceOp.keyboard? : DeviceOp → Option KeyboardOp
  | addKeyboardHandler handler node => some (.addKeyboardHandler handler node)
  | keyboardIRQ _ _ byte calls out => some (.keyboardIRQ byte calls out)
  | _ => none

def DeviceOp.mouse? : DeviceOp → Option Byte
  | mouseInterrupt _ _ byte => some byte
  | _ => none

/-- The byte that a device sends. -/
def DeviceOp.sent? (port : PS2Port) : DeviceOp → Option Byte
  | send port' byte => if port' = port then some byte else none
  | _ => none

/-- The byte that the handler of a device reads. -/
def DeviceOp.read? : PS2Port → DeviceOp → Option Byte
  | .keyboard, keyboardIRQ _ _ byte _ _ => some byte
  | .mouse, mouseInterrupt _ _ byte => some byte
  | _, _ => none

/-- The drivers, when they are set up: no byte is on its way. -/
structure Devices.Booted (d : Drivers) (s : Devices) : Prop where
  irq : ∃ ops, s.irq.Inv ops
  keyboard : ∃ nodes, s.keyboard = bootKeyboard nodes
  mouse : s.mouse = initialMouse
  full : s.full = none
  idle : ∀ port : PS2Port, port.line ∉ s.irq.pic.pending
  keyboardIRQ : ∀ line : Fin 16,
    s.irq.handlers line = d.keyboardIRQ ↔ line = PS2Port.keyboard.line
  mouseInterrupt : ∀ line : Fin 16,
    s.irq.handlers line = d.mouseInterrupt ↔ line = PS2Port.mouse.line

/-- The system after the operations `ops`, from `s₀` on. -/
structure Devices.Serving (d : Drivers) (image : Image) (s₀ : Devices) (ops : List DeviceOp)
    (s : Devices) : Prop where
  irq : Run (IRQStep image) s₀.irq (ops.filterMap (DeviceOp.irq? d)) s.irq
  keyboard : Run (KeyboardStep d.handleKey) s₀.keyboard (ops.filterMap DeviceOp.keyboard?)
    s.keyboard
  mouse : s.mouse = mouseAfter (ops.filterMap DeviceOp.mouse?)
  /-- What a device has sent is what its handler has read, and the byte that is to be read. -/
  sent : ∀ port, ops.filterMap (DeviceOp.sent? port) =
    ops.filterMap (DeviceOp.read? port) ++ if s.full = some port then [s.data] else []
  /-- Its line is raised for that byte, so the interrupt will come. -/
  pending : ∀ port : PS2Port, port.line ∈ s.irq.pic.pending ↔ s.full = some port

/-! ## Steps -/

variable {d : Drivers} {image : Image} {s s' s₀ : Devices} {ops : List DeviceOp} {op : DeviceOp}

theorem PS2Port.line_inj {port port' : PS2Port} : port.line = port'.line ↔ port = port' := by
  cases port <;> cases port' <;> decide

/-- The invariant: a byte is to be read exactly when the line of its device is pending. -/
structure Devices.Inv (d : Drivers) (s : Devices) : Prop where
  ready : s.irq.Ready
  keyboardIRQ : ∀ line : Fin 16,
    s.irq.handlers line = d.keyboardIRQ ↔ line = PS2Port.keyboard.line
  mouseInterrupt : ∀ line : Fin 16,
    s.irq.handlers line = d.mouseInterrupt ↔ line = PS2Port.mouse.line
  pending : ∀ port : PS2Port, port.line ∈ s.irq.pic.pending ↔ s.full = some port
  mouseCycle : s.mouse.mouseCycle < 3

theorem Devices.Booted.inv (h : s.Booted d) : s.Inv d where
  ready := h.irq.elim fun _ hI => hI.ready
  keyboardIRQ := h.keyboardIRQ
  mouseInterrupt := h.mouseInterrupt
  pending port := iff_of_false (h.idle port) fun hfull => by
    rw [h.full] at hfull
    cases hfull
  mouseCycle := by
    rw [h.mouse]
    decide

/-- What an interrupt does to the controllers, and which handler it calls. -/
theorem IRQStep.interrupt_spec {irq irq' : IRQ} {program : Registers} {regs : CPURegisters}
    {called : Option ℕ} (h : irq.Ready)
    (hs : IRQStep image irq (.interrupt program regs called) irq') :
    ∃ line ∈ irq.pic.pending,
      called = (if irq.handlers line ≠ 0 then some (irq.handlers line) else none) ∧
      irq'.Ready ∧ irq'.handlers = irq.handlers ∧
      ∀ other, other ∈ irq'.pic.pending ↔ other ≠ line ∧ other ∈ irq.pic.pending := by
  obtain ⟨line, hmem, -, -, hcalled, rfl⟩ := hs.interrupt_inv h
  exact ⟨line, hmem, hcalled, ⟨h.1, h.2.1.served_finish, h.2.2.served_finish⟩, rfl,
    fun other => Controllers.mem_pending_finish h.2.1⟩

/-- A handler that is called for one line only. -/
theorem line_eq_of_called {irq : IRQ} {line : Fin 16} {handler : ℕ} {p : Fin 16}
    (hhandlers : ∀ line : Fin 16, irq.handlers line = handler ↔ line = p)
    (hcalled : some handler = if irq.handlers line ≠ 0 then some (irq.handlers line) else none) :
    line = p := by
  split at hcalled
  · exact (hhandlers line).1 (Option.some.inj hcalled).symm
  · cases hcalled

/-- The interrupt of a device, for which its byte is read. -/
theorem Devices.Inv.read (h : s.Inv d) {irq' : IRQ} {program : Registers} {regs : CPURegisters}
    {port : PS2Port} {handler : ℕ}
    (hhandlers : ∀ line : Fin 16, s.irq.handlers line = handler ↔ line = port.line)
    (hs : IRQStep image s.irq (.interrupt program regs (some handler)) irq') :
    s.full = some port ∧ irq'.Ready ∧ irq'.handlers = s.irq.handlers ∧
      ∀ port' : PS2Port, port'.line ∉ irq'.pic.pending := by
  obtain ⟨line, hmem, hcalled, hready, hsame, hpending⟩ := hs.interrupt_spec h.ready
  obtain rfl := line_eq_of_called hhandlers hcalled
  have hfull := (h.pending port).1 hmem
  refine ⟨hfull, hready, hsame, fun port' hmem' => ?_⟩
  -- Only one byte is to be read, so the other device waits.
  obtain ⟨hne, hmem'⟩ := (hpending port'.line).1 hmem'
  have hfull' := (h.pending port').1 hmem'
  rw [hfull] at hfull'
  exact hne (congrArg PS2Port.line (Option.some.inj hfull').symm)

theorem mouseCycle_mouseInterrupt {m : Mouse} (h : m.mouseCycle < 3) (byte : Byte) :
    (mouseInterrupt m byte).mouseCycle < 3 := by
  obtain ⟨x, y, c, b⟩ := m
  have hc : c < 3 := h
  interval_cases c <;> simp [mouseInterrupt]

theorem Devices.Inv.step (h : s.Inv d) (hs : DeviceStep d image s op s') : s'.Inv d := by
  obtain ⟨happ, hready, hidle⟩ := h.ready
  cases hs with
  | @send port byte hnone =>
    have hne : port.line ≠ 2 := by cases port <;> decide
    refine ⟨⟨happ, hready.request hne, hidle.request _⟩, h.keyboardIRQ, h.mouseInterrupt,
      fun port' => ?_, h.mouseCycle⟩
    have hpending := h.pending port'
    rw [hnone] at hpending
    rw [Controllers.mem_pending_request, hpending, PS2Port.line_inj]
    simp only [reduceCtorEq, or_false, Option.some.injEq, eq_comm]
  | @request line irq' hother hirq =>
    cases hirq with
    | request hne =>
      refine ⟨⟨happ, hready.request hne, hidle.request _⟩, h.keyboardIRQ, h.mouseInterrupt,
        fun port => ?_, h.mouseCycle⟩
      rw [Controllers.mem_pending_request, or_iff_right fun heq => hother port heq.symm]
      exact h.pending port
  | @registerIRQHandler irqNum handler irq' hother hkeyboard hmouse hirq =>
    cases hirq with
    | registerIRQHandler hlt =>
      -- The number is that of neither device, and the handler is neither of theirs.
      have hhandlers (a : ℕ) (port : PS2Port) (ha : handler ≠ a)
          (hiff : ∀ line : Fin 16, s.irq.handlers line = a ↔ line = port.line) (line : Fin 16) :
          Function.update s.irq.handlers irqNum handler line = a ↔ line = port.line := by
        by_cases hline : line = irqNum
        · rw [hline, Function.update_self]
          exact iff_of_false ha fun heq => hother port (hline ▸ congrArg Fin.val heq)
        · rw [Function.update_of_ne hline]
          exact hiff line
      exact ⟨⟨happ, hready, hidle⟩, hhandlers _ _ hkeyboard h.keyboardIRQ,
        hhandlers _ _ hmouse h.mouseInterrupt, h.pending, h.mouseCycle⟩
  | addKeyboardHandler _ =>
    exact ⟨h.ready, h.keyboardIRQ, h.mouseInterrupt, h.pending, h.mouseCycle⟩
  | keyboardIRQ hirq _ =>
    obtain ⟨-, hready', hsame, hnone⟩ := h.read h.keyboardIRQ hirq
    exact ⟨hready', fun line => by rw [hsame]; exact h.keyboardIRQ line,
      fun line => by rw [hsame]; exact h.mouseInterrupt line,
      fun port => iff_of_false (hnone port) (by simp), h.mouseCycle⟩
  | mouseInterrupt hirq =>
    obtain ⟨-, hready', hsame, hnone⟩ := h.read h.mouseInterrupt hirq
    exact ⟨hready', fun line => by rw [hsame]; exact h.keyboardIRQ line,
      fun line => by rw [hsame]; exact h.mouseInterrupt line,
      fun port => iff_of_false (hnone port) (by simp [h.mouseCycle]),
      mouseCycle_mouseInterrupt h.mouseCycle _⟩
  | @interrupt program regs called irq' hirq hkeyboard hmouse =>
    obtain ⟨line, -, hcalled, hready', hsame, hpending⟩ := hirq.interrupt_spec h.ready
    -- It is not the interrupt of either device.
    have hother (port : PS2Port) (handler : ℕ) (h0 : handler ≠ 0) (hne : called ≠ some handler)
        (hiff : ∀ line : Fin 16, s.irq.handlers line = handler ↔ line = port.line) :
        line ≠ port.line := fun heq => by
      rw [(hiff line).2 heq, if_pos h0] at hcalled
      exact hne hcalled
    refine ⟨hready', fun line => by rw [hsame]; exact h.keyboardIRQ line,
      fun line => by rw [hsame]; exact h.mouseInterrupt line, fun port => ?_, h.mouseCycle⟩
    rw [hpending, and_iff_right]
    · exact h.pending port
    · cases port with
      | keyboard => exact (hother _ _ d.keyboardIRQ_ne_zero hkeyboard h.keyboardIRQ).symm
      | mouse => exact (hother _ _ d.mouseInterrupt_ne_zero hmouse h.mouseInterrupt).symm

/-! ## Runs -/

theorem irqStep_of_step (hs : DeviceStep d image s op s') :
    (op.irq? d = none ∧ s'.irq = s.irq) ∨
      ∃ iop, op.irq? d = some iop ∧ IRQStep image s.irq iop s'.irq := by
  cases hs with
  | @send port byte _ => exact .inr ⟨_, rfl, .request (by cases port <;> decide)⟩
  | request _ hirq => exact .inr ⟨_, rfl, hirq⟩
  | registerIRQHandler _ _ _ hirq => exact .inr ⟨_, rfl, hirq⟩
  | addKeyboardHandler _ => exact .inl ⟨rfl, rfl⟩
  | keyboardIRQ hirq _ => exact .inr ⟨_, rfl, hirq⟩
  | mouseInterrupt hirq => exact .inr ⟨_, rfl, hirq⟩
  | interrupt hirq _ _ => exact .inr ⟨_, rfl, hirq⟩

theorem keyboardStep_of_step (hs : DeviceStep d image s op s') :
    (op.keyboard? = none ∧ s'.keyboard = s.keyboard) ∨
      ∃ kop, op.keyboard? = some kop ∧ KeyboardStep d.handleKey s.keyboard kop s'.keyboard := by
  cases hs with
  | addKeyboardHandler hkeyboard => exact .inr ⟨_, rfl, hkeyboard⟩
  | keyboardIRQ _ hkeyboard => exact .inr ⟨_, rfl, hkeyboard⟩
  | _ => exact .inl ⟨rfl, rfl⟩

theorem mouse_of_step (hs : DeviceStep d image s op s') :
    s'.mouse = op.mouse?.elim s.mouse (mouseInterrupt s.mouse) := by
  cases hs <;> rfl

/-- What a step reads has been sent by the device whose handler reads it. -/
theorem Devices.Inv.sent_step (h : s.Inv d) (hs : DeviceStep d image s op s') (port : PS2Port) :
    (if s.full = some port then [s.data] else []) ++ (op.sent? port).toList =
      (op.read? port).toList ++ if s'.full = some port then [s'.data] else [] := by
  cases hs with
  | @send port' byte hnone =>
    rw [hnone]
    by_cases heq : port' = port <;> cases port <;> simp [DeviceOp.sent?, DeviceOp.read?, heq]
  | keyboardIRQ hirq _ =>
    rw [(h.read h.keyboardIRQ hirq).1]
    cases port <;> rfl
  | mouseInterrupt hirq =>
    dsimp only
    rw [(h.read h.mouseInterrupt hirq).1, if_pos h.mouseCycle]
    cases port <;> rfl
  | _ => cases port <;> exact List.append_nil _

theorem filterMap_snoc {α β : Type*} (f : α → Option β) (xs : List α) (x : α) :
    (xs ++ [x]).filterMap f = xs.filterMap f ++ (f x).toList := by
  rw [List.filterMap_append]
  cases h : f x <;> simp [h]

/-- What the mouse, and what each of the handlers, has read. -/
structure Devices.Received (ops : List DeviceOp) (s : Devices) : Prop where
  mouse : s.mouse = mouseAfter (ops.filterMap DeviceOp.mouse?)
  sent : ∀ port, ops.filterMap (DeviceOp.sent? port) =
    ops.filterMap (DeviceOp.read? port) ++ if s.full = some port then [s.data] else []

theorem Devices.Received.step (h : s.Received ops) (hI : s.Inv d)
    (hs : DeviceStep d image s op s') : s'.Received (ops ++ [op]) where
  mouse := by
    rw [mouse_of_step hs, filterMap_snoc, mouseAfter, List.foldl_append, ← mouseAfter, ← h.mouse]
    cases op.mouse? <;> rfl
  sent port := by
    rw [filterMap_snoc, filterMap_snoc, h.sent, List.append_assoc, List.append_assoc,
      hI.sent_step hs port]

theorem Devices.Booted.received (h : s₀.Booted d) (hr : Run (DeviceStep d image) s₀ ops s) :
    s.Inv d ∧ s.Received ops :=
  hr.history (fun ops s => s.Inv d ∧ s.Received ops)
    ⟨h.inv, h.mouse, fun port => by rw [h.full]; rfl⟩
    fun _ _ _ _ hI hs => ⟨hI.1.step hs, hI.2.step hI.1 hs⟩

/-- In every run, each part of the system runs as it does alone, and each handler reads what its
    device has sent, in the order in which it was sent. -/
theorem devices_of_run (h : s₀.Booted d) (hr : Run (DeviceStep d image) s₀ ops s) :
    Devices.Serving d image s₀ ops s := by
  obtain ⟨hI, hreceived⟩ := h.received hr
  exact ⟨hr.project Devices.irq (DeviceOp.irq? d) fun _ _ _ hs => irqStep_of_step hs,
    hr.project Devices.keyboard DeviceOp.keyboard? fun _ _ _ hs => keyboardStep_of_step hs,
    hreceived.mouse, hreceived.sent, hI.pending⟩

/-! ## Typing -/

theorem sentBytes_filterMap (ops : List DeviceOp) :
    sentBytes (ops.filterMap DeviceOp.keyboard?) = ops.filterMap (DeviceOp.read? .keyboard) := by
  induction ops with
  | nil => rfl
  | cons op ops ih =>
    cases op <;> simp only [List.filterMap_cons, DeviceOp.keyboard?, DeviceOp.read?] <;>
      first | exact ih | exact congrArg _ ih

/-- When no byte of the keyboard is to be read, its handler has read all that it has sent. -/
theorem Devices.Received.sentBytes_eq (h : s.Received ops) (hfull : s.full ≠ some .keyboard) :
    sentBytes (ops.filterMap DeviceOp.keyboard?) = ops.filterMap (DeviceOp.sent? .keyboard) := by
  rw [sentBytes_filterMap, h.sent, if_neg hfull, List.append_nil]

/-- What is typed is printed, in every run in which the mouse and the other devices do what they
    like: the keyboard sends the keystrokes of a text, from when the shift is not held to when they
    all have been read. -/
theorem prints_typed_of_devices {text : List Byte} {ops' : List DeviceOp} (h : s₀.Booted d)
    (hr : Run (DeviceStep d image) s₀ ops s) (hr' : Run (DeviceStep d image) s ops' s')
    (hone : (addedHandlers (ops.filterMap DeviceOp.keyboard?)).count d.handleKey = 1)
    (hadd : d.handleKey ∉ addedHandlers (ops'.filterMap DeviceOp.keyboard?))
    (hread : s.full ≠ some .keyboard) (hread' : s'.full ≠ some .keyboard)
    (hup : ¬ShiftHeld (ops.filterMap (DeviceOp.sent? .keyboard)))
    (htext : ∀ c ∈ text, TypedChar c)
    (hsent : (ops'.filterMap (DeviceOp.sent? .keyboard)).filter isStroke = keystrokes false text) :
    printedText (ops'.filterMap DeviceOp.keyboard?) = text ∧
      ¬ShiftHeld ((ops ++ ops').filterMap (DeviceOp.sent? .keyboard)) := by
  obtain ⟨nodes, hboot⟩ := h.keyboard
  have hkeyboard : Run (KeyboardStep d.handleKey) (bootKeyboard nodes)
      (ops.filterMap DeviceOp.keyboard?) s.keyboard :=
    hboot ▸ hr.project Devices.keyboard DeviceOp.keyboard? fun _ _ _ hs => keyboardStep_of_step hs
  have hkeyboard' : Run (KeyboardStep d.handleKey) s.keyboard (ops'.filterMap DeviceOp.keyboard?)
      s'.keyboard :=
    hr'.project Devices.keyboard DeviceOp.keyboard? fun _ _ _ hs => keyboardStep_of_step hs
  have hall := (h.received (hr.append hr')).2.sentBytes_eq hread'
  have hbefore := (h.received hr).2.sentBytes_eq hread
  have hbytes : sentBytes (ops'.filterMap DeviceOp.keyboard?) =
      ops'.filterMap (DeviceOp.sent? .keyboard) := by
    rw [List.filterMap_append, sentBytes_append, hbefore, List.filterMap_append] at hall
    exact List.append_cancel_left hall
  have htyped := prints_typed hkeyboard hone (hbefore ▸ hup) hkeyboard' hadd htext (hbytes ▸ hsent)
  rwa [← hall, List.filterMap_append]

/-! ## A run -/

/-- The interrupt of a device that has sent a byte, when no other line is pending. -/
theorem Devices.Inv.exists_interrupt (h : s.Inv d) (hnone : s.full = none)
    (hidle : s.irq.pic.pending = ∅) (p : Interrupted) {port : PS2Port} {byte : Byte} {handler : ℕ}
    (hhandler : s.irq.handlers port.line = handler) (hne : handler ≠ 0) :
    ∃ s₁ regs irq', DeviceStep d image s (.send port byte) s₁ ∧ s₁.data = byte ∧
      s₁.keyboard = s.keyboard ∧ s₁.mouse = s.mouse ∧
      IRQStep image s₁.irq (.interrupt p.regs regs (some handler)) irq' ∧ irq'.pic.pending = ∅ := by
  have hsend : DeviceStep d image s (.send port byte) _ := .send hnone
  have hinv := h.step hsend
  have hmem : port.line ∈ (s.irq.pic.request port.line).pending :=
    Controllers.mem_pending_request.2 (.inl rfl)
  obtain ⟨regs, called, irq', hirq⟩ := @SmartOS.exists_interrupt image _ _ hinv.ready hmem p
  obtain ⟨line, hline, hcalled, -, -, hpending⟩ := hirq.interrupt_spec hinv.ready
  obtain rfl : line = port.line :=
    (Controllers.mem_pending_request.1 hline).resolve_right fun hmem => by
      rw [hidle] at hmem
      exact absurd hmem (Finset.notMem_empty _)
  rw [hhandler, if_pos hne] at hcalled
  obtain rfl := hcalled
  refine ⟨_, regs, irq', hsend, rfl, rfl, rfl, hirq, ?_⟩
  refine Finset.eq_empty_of_forall_notMem fun other hother => ?_
  obtain ⟨hother', hother⟩ := (hpending other).1 hother
  rcases Controllers.mem_pending_request.1 hother with rfl | hother
  · exact hother' rfl
  · rw [hidle] at hother
    exact Finset.notMem_empty _ hother

/-- A byte of the keyboard is sent and read, -/
theorem Devices.Inv.exists_keyboardIRQ (h : s.Inv d) (hnone : s.full = none)
    (hidle : s.irq.pic.pending = ∅) (p : Interrupted) {byte : Byte} {calls : List KeyCall}
    {out : List Byte} {keyboard' : Keyboard}
    (hstep : KeyboardStep d.handleKey s.keyboard (.keyboardIRQ byte calls out) keyboard') :
    ∃ regs s', Run (DeviceStep d image) s
        [.send .keyboard byte, .keyboardIRQ p.regs regs byte calls out] s' ∧
      s'.full = none ∧ s'.irq.pic.pending = ∅ ∧ s'.keyboard = keyboard' := by
  obtain ⟨s₁, regs, irq', hsend, rfl, hkeyboard, -, hirq, hidle'⟩ :=
    @exists_interrupt d image s h hnone hidle p .keyboard byte _ ((h.keyboardIRQ _).2 rfl)
      d.keyboardIRQ_ne_zero
  rw [← hkeyboard] at hstep
  exact ⟨regs, _, (Run.nil.snoc hsend).snoc (.keyboardIRQ hirq hstep), rfl, hidle', rfl⟩

/-- and so is one of the mouse. -/
theorem Devices.Inv.exists_mouseInterrupt (h : s.Inv d) (hnone : s.full = none)
    (hidle : s.irq.pic.pending = ∅) (p : Interrupted) (byte : Byte) :
    ∃ regs s', Run (DeviceStep d image) s
        [.send .mouse byte, .mouseInterrupt p.regs regs byte] s' ∧
      s'.full = none ∧ s'.irq.pic.pending = ∅ ∧ s'.keyboard = s.keyboard := by
  obtain ⟨s₁, regs, irq', hsend, rfl, hkeyboard, hmouse, hirq, hidle'⟩ :=
    @exists_interrupt d image s h hnone hidle p .mouse byte _ ((h.mouseInterrupt _).2 rfl)
      d.mouseInterrupt_ne_zero
  refine ⟨regs, _, (Run.nil.snoc hsend).snoc (.mouseInterrupt hirq), ?_, hidle', hkeyboard⟩
  rw [hmouse]
  exact if_pos h.mouseCycle

/-- Any bytes of keys in the tables can be sent and read, one after another. -/
theorem Devices.Inv.exists_run (h : s.Inv d) (hnone : s.full = none)
    (hidle : s.irq.pic.pending = ∅) {kops : List KeyboardOp} (hkeyboard : s.keyboard.Inv kops)
    (p : Interrupted) {bytes : List Byte} (hbytes : ∀ byte ∈ bytes, byte.msb ∨ byte.toNat < 0x76) :
    ∃ ops s', Run (DeviceStep d image) s ops s' ∧ s'.full = none ∧
      ops.filterMap (DeviceOp.sent? .keyboard) = bytes ∧
      addedHandlers (ops.filterMap DeviceOp.keyboard?) = [] := by
  induction bytes generalizing s kops with
  | nil => exact ⟨[], s, .nil, hnone, rfl, rfl⟩
  | cons byte bytes ih =>
    obtain ⟨calls, out, keyboard', hstep⟩ :=
      (@Keyboard.Inv.progress_iff d.handleKey _ _ hkeyboard byte).2
        fun _ => hbytes byte List.mem_cons_self
    obtain ⟨regs, t, hr, hnone', hidle', rfl⟩ :=
      @exists_keyboardIRQ d image s h hnone hidle p _ _ _ _ hstep
    have hinv := hr.invariant (Devices.Inv d) h fun _ _ _ hI hs => hI.step hs
    obtain ⟨ops, s', hr', hnone'', hsent, hadd⟩ := ih hinv hnone' hidle' (hkeyboard.step hstep)
      fun b hb => hbytes b (List.mem_cons_of_mem byte hb)
    exact ⟨_, s', hr.append hr', hnone'', congrArg (byte :: ·) hsent, hadd⟩

/-- The drivers at some addresses, and the system when they have just been set up. -/
def someDrivers : Drivers := ⟨0x3000, 0x2000, 0x1000, by decide, by decide⟩

def bootDevices : Devices :=
  ⟨registerIRQHandler 12 0x2000 (registerIRQHandler 1 0x3000 (initializePIC resetIRQ)), 0, none,
    bootKeyboard fun _ => none, initialMouse⟩

theorem pending_bootDevices : bootDevices.irq.pic.pending = ∅ := (ready_initializePIC resetIRQ).2.1

theorem booted_bootDevices : bootDevices.Booted someDrivers where
  irq := by
    have hkeyboard : IRQStep smallImage (initializePIC resetIRQ) (.registerIRQHandler 1 0x3000) _ :=
      .registerIRQHandler (by decide)
    have hmouse : IRQStep smallImage _ (.registerIRQHandler 12 0x2000) bootDevices.irq :=
      .registerIRQHandler (by decide)
    exact ⟨_, ((IRQ.inv_initializePIC resetIRQ).step hkeyboard).step hmouse⟩
  keyboard := ⟨_, rfl⟩
  mouse := rfl
  full := rfl
  idle port := by
    rw [pending_bootDevices]
    exact Finset.notMem_empty _
  keyboardIRQ := by decide
  mouseInterrupt := by decide

/-- A program that is interrupted with its interrupts enabled. -/
def someProgram : Interrupted := interruptedProgram
  ⟨0, 0, 0, 0, 0, 0, 0, 0, 0, 0, 0, 0, 0, 0, 0, 0, 0, 0, 7, 0, 8, 2, 0x2000, 0x10⟩ rfl

/-- `handleKey` is added. -/
theorem exists_listening : ∃ s, Run (DeviceStep someDrivers smallImage) bootDevices
      [.addKeyboardHandler 0x1000 0x20] s ∧
    s.Inv someDrivers ∧ s.full = none ∧ s.irq.pic.pending = ∅ ∧
    s.keyboard.Inv [.addKeyboardHandler 0x1000 0x20] ∧ s.keyboard.keyboardState = ⟨0⟩ := by
  obtain ⟨keyboard, hstep, hstate, -⟩ := exists_added
  have hadded : DeviceStep someDrivers smallImage bootDevices (.addKeyboardHandler 0x1000 0x20)
      { bootDevices with keyboard := keyboard } := .addKeyboardHandler hstep
  exact ⟨_, Run.nil.snoc hadded, booted_bootDevices.inv.step hadded, rfl, pending_bootDevices,
    (inv_bootKeyboard _).step hstep, hstate⟩

/-- A key is pressed between two bytes of the mouse. -/
theorem devices_of_run_between : ∃ s regs regs' regs'', Devices.Serving someDrivers smallImage
    bootDevices [.addKeyboardHandler 0x1000 0x20,
      .send .mouse 0x18, .mouseInterrupt someProgram.regs regs 0x18,
      .send .keyboard 0x23,
      .keyboardIRQ someProgram.regs regs' 0x23 [⟨0x1000, 0x23, 1⟩] [ascii 'h'],
      .send .mouse 0x05, .mouseInterrupt someProgram.regs regs'' 0x05] s := by
  obtain ⟨s, hr, hinv, hnone, hidle, hkeyboard, hstate⟩ := exists_listening
  obtain ⟨regs, s₁, hr₁, hnone₁, hidle₁, hsame⟩ :=
    @Devices.Inv.exists_mouseInterrupt _ smallImage _ hinv hnone hidle someProgram 0x18
  have hinv₁ := hr₁.invariant (Devices.Inv someDrivers) hinv fun _ _ _ hI hs => hI.step hs
  have hkey := @Keyboard.Inv.keyboardIRQ_of_handleKey 0x1000 _ _ hkeyboard 0x23 [ascii 'h'] (by
    rw [hstate]
    rfl)
  rw [← hsame] at hkey
  obtain ⟨regs', s₂, hr₂, hnone₂, hidle₂, -⟩ :=
    @Devices.Inv.exists_keyboardIRQ someDrivers smallImage _ hinv₁ hnone₁ hidle₁ someProgram
      _ _ _ _ hkey
  have hinv₂ := hr₂.invariant (Devices.Inv someDrivers) hinv₁ fun _ _ _ hI hs => hI.step hs
  obtain ⟨regs'', s₃, hr₃, -⟩ :=
    @Devices.Inv.exists_mouseInterrupt _ smallImage _ hinv₂ hnone₂ hidle₂ someProgram 0x05
  exact ⟨s₃, regs, regs', regs'',
    devices_of_run booted_bootDevices (((hr.append hr₁).append hr₂).append hr₃)⟩

/-- A greeting, of which the first and the last character need the shift. -/
theorem prints_typed_of_devices_greeting : ∃ ops ops' : List DeviceOp,
    ops'.filterMap (DeviceOp.sent? .keyboard) =
      [0x2A, 0x23, 0xA3, 0xAA, 0x17, 0x2A, 0x97, 0x02, 0x82, 0xAA] ∧
    printedText (ops'.filterMap DeviceOp.keyboard?) = [ascii 'H', ascii 'i', ascii '!'] ∧
    ¬ShiftHeld ((ops ++ ops').filterMap (DeviceOp.sent? .keyboard)) := by
  obtain ⟨s, hr, hinv, hnone, hidle, hkeyboard, -⟩ := exists_listening
  obtain ⟨ops', s', hr', hnone', hsent, hadd⟩ :=
    hinv.exists_run hnone hidle hkeyboard someProgram
      (by decide : ∀ byte ∈ ([0x2A, 0x23, 0xA3, 0xAA, 0x17, 0x2A, 0x97, 0x02, 0x82, 0xAA] :
        List Byte), byte.msb ∨ byte.toNat < 0x76)
  have htext : ∀ c ∈ [ascii 'H', ascii 'i', ascii '!'], TypedChar c := by decide
  have htyped := prints_typed_of_devices booted_bootDevices hr hr' (by decide) (by simp [hadd])
    (by simp [hnone]) (by simp [hnone']) (not_since_nil _ _) htext (by rw [hsent]; decide)
  exact ⟨_, ops', hsent, htyped.1, htyped.2⟩

end SmartOS
