import SmartOS.Lib.Stack
import SmartOS.Scheduler.Basic

/-!
# Interrupts

The entry stubs of `x86-64.asm` and the code that they jump to, instruction by
instruction (`Instr`), what the processor does before and after, and the table
that leads it to the stubs (`IDT`).

The processor pushes `ss`, `rsp`, `rflags`, `cs` and `rip`, for some exceptions an
error code, and loads the address of the stub from the table. The stubs push what
is missing for a number and an error code, and `isr_common` and `irq_common` all
other registers; the handler gets the address of what has been pushed, which it
takes for a `CPURegisters`. When it returns, everything is popped again.
-/

namespace SmartOS

open Prog

/-! ## The processor -/

/-- The registers of the processor. -/
structure Registers where
  (gs es fs ds : ℕ)
  (r15 r14 r13 r12 r11 r10 r9 r8 rbp rdi rsi rdx rcx rbx rax : ℕ)
  (rip cs rflags rsp ss : ℕ)
  deriving Repr, DecidableEq

/-- The registers that instructions name. -/
inductive Reg
  | gs | es | fs | ds
  | r15 | r14 | r13 | r12 | r11 | r10 | r9 | r8 | rbp | rdi | rsi | rdx | rcx | rbx | rax
  | rsp
  deriving Repr, DecidableEq

namespace Registers

def get (r : Registers) : Reg → ℕ
  | .gs => r.gs
  | .es => r.es
  | .fs => r.fs
  | .ds => r.ds
  | .r15 => r.r15
  | .r14 => r.r14
  | .r13 => r.r13
  | .r12 => r.r12
  | .r11 => r.r11
  | .r10 => r.r10
  | .r9 => r.r9
  | .r8 => r.r8
  | .rbp => r.rbp
  | .rdi => r.rdi
  | .rsi => r.rsi
  | .rdx => r.rdx
  | .rcx => r.rcx
  | .rbx => r.rbx
  | .rax => r.rax
  | .rsp => r.rsp

def set (r : Registers) (reg : Reg) (v : ℕ) : Registers :=
  match reg with
  | .gs => { r with gs := v }
  | .es => { r with es := v }
  | .fs => { r with fs := v }
  | .ds => { r with ds := v }
  | .r15 => { r with r15 := v }
  | .r14 => { r with r14 := v }
  | .r13 => { r with r13 := v }
  | .r12 => { r with r12 := v }
  | .r11 => { r with r11 := v }
  | .r10 => { r with r10 := v }
  | .r9 => { r with r9 := v }
  | .r8 => { r with r8 := v }
  | .rbp => { r with rbp := v }
  | .rdi => { r with rdi := v }
  | .rsi => { r with rsi := v }
  | .rdx => { r with rdx := v }
  | .rcx => { r with rcx := v }
  | .rbx => { r with rbx := v }
  | .rax => { r with rax := v }
  | .rsp => { r with rsp := v }

end Registers

/-- The processor and the memory. The stack is aligned, so the words of memory do not overlap. -/
structure Machine where
  regs : Registers
  mem : WordMem

/-- The instructions of the stubs, of the common code and of the way back. -/
inductive Instr
  | cli
  | pushImm (n : ℕ)
  | push (r : Reg)
  | pop (r : Reg)
  | mov (dst src : Reg)
  | addImm (dst : Reg) (n : ℕ)
  | iretq
  deriving Repr, DecidableEq

namespace Machine

def push (w : ℕ) (m : Machine) : Machine where
  regs := { m.regs with rsp := m.regs.rsp - 8 }
  mem := Function.update m.mem (m.regs.rsp - 8) w

/-- One instruction. (The flags that an addition sets are popped before anything looks at them.) -/
def step (m : Machine) : Instr → Machine
  | .cli => { m with regs := { m.regs with rflags := m.regs.rflags &&& 0xFFFFFFFFFFFFFDFF } }
  | .pushImm n => m.push n
  | .push r => m.push (m.regs.get r)
  | .pop r => { m with regs := { m.regs.set r (m.mem m.regs.rsp) with rsp := m.regs.rsp + 8 } }
  | .mov dst src => { m with regs := m.regs.set dst (m.regs.get src) }
  | .addImm dst n => { m with regs := m.regs.set dst (m.regs.get dst + n) }
  | .iretq =>
    let a := m.regs.rsp
    { m with regs := { m.regs with
        rip := m.mem a
        cs := m.mem (a + 8)
        rflags := m.mem (a + 16)
        rsp := m.mem (a + 24)
        ss := m.mem (a + 32) } }

def run (m : Machine) (code : List Instr) : Machine := code.foldl step m

end Machine

/-! ## The stubs -/

/-- The macro `ISR`. -/
def isr (n : ℕ) : List Instr := [.cli, .pushImm 0, .pushImm n]

/-- The macro `ISR_ERR`. -/
def isrErr (n : ℕ) : List Instr := [.cli, .pushImm n]

/-- The macro `IRQ`. -/
def irq (n : ℕ) : List Instr := [.cli, .pushImm 0, .pushImm n]

/-- `isr_common` and `irq_common`, which are the same code, up to the call of the handler. -/
def commonEntry : List Instr :=
  [.push .rax, .push .rbx, .push .rcx, .push .rdx, .push .rsi, .push .rdi, .push .rbp,
    .push .r8, .push .r9, .push .r10, .push .r11, .push .r12, .push .r13, .push .r14, .push .r15,
    .mov .rax .ds, .push .rax, .mov .rax .es, .push .rax, .mov .rax .fs, .push .rax,
    .mov .rax .gs, .push .rax, .mov .rdi .rsp]

/-- What they do when the handler returns. -/
def commonExit : List Instr :=
  [.pop .rax, .mov .gs .rax, .pop .rax, .mov .fs .rax, .pop .rax, .mov .es .rax,
    .pop .rax, .mov .ds .rax,
    .pop .r15, .pop .r14, .pop .r13, .pop .r12, .pop .r11, .pop .r10, .pop .r9, .pop .r8,
    .pop .rbp, .pop .rdi, .pop .rsi, .pop .rdx, .pop .rcx, .pop .rbx, .pop .rax,
    .addImm .rsp 16, .iretq]

/-- The labels of the stubs. -/
inductive Stub
  | isr (n : Fin 32)
  | irq (n : Fin 16)
  deriving Repr, DecidableEq

/-- The code of a stub, with the common code that it jumps to. -/
def Stub.code : Stub → List Instr
  | .isr n =>
    (if n.val ∈ [8, 10, 11, 12, 13, 14] then SmartOS.isrErr n else SmartOS.isr n) ++ commonEntry
  | .irq n => SmartOS.irq n ++ commonEntry

/-! ## The table -/

structure IDTEntry where
  offset0 : ℕ
  selector : ℕ
  ist : ℕ
  rsv0 : ℕ
  type : ℕ
  dpl : ℕ
  p : ℕ
  offset1 : ℕ
  offset2 : ℕ
  rsv1 : ℕ
  deriving Repr, DecidableEq

/-- `IDTEntry(offset, selector, type, dpl, ist)` -/
def IDTEntry.new (offset selector type dpl ist : ℕ) : IDTEntry where
  offset0 := offset &&& 0xFFFF
  selector := selector
  ist := ist
  rsv0 := 0
  type := type
  dpl := dpl
  p := 1
  offset1 := (offset >>> 16) &&& 0xFFFF
  offset2 := (offset >>> 32) &&& 0xFFFFFFFF
  rsv1 := 0

/-- Where an entry leads the processor. -/
def IDTEntry.offset (e : IDTEntry) : ℕ := e.offset0 + 2 ^ 16 * e.offset1 + 2 ^ 32 * e.offset2

/-- `IDTEntry()` -/
def IDTEntry.empty : IDTEntry := ⟨0, 0, 0, 0, 0, 0, 0, 0, 0, 0⟩

/-- The code in memory: where the stubs are. -/
structure Image where
  address : Stub → ℕ
  code : ℕ → List Instr
  address_lt : ∀ stub, address stub < 2 ^ 64
  code_address : ∀ stub, code (address stub) = stub.code

/-- The entries of the table. -/
def idt (image : Image) (vector : ℕ) : IDTEntry :=
  if h : vector < 32 then IDTEntry.new (image.address (.isr ⟨vector, h⟩)) 0x8 0b1110 0 0
  else if h : vector - 32 < 16 then
    IDTEntry.new (image.address (.irq ⟨vector - 32, h⟩)) 0x8 0b1110 0 0
  else IDTEntry.empty

/-! ## Interrupts -/

/-- An exception, with the error code if there is one, or an interrupt of a device. -/
inductive Interrupt
  | exception (vector : Fin 32) (errorCode : ℕ)
  | device (irq : Fin 16)
  deriving Repr, DecidableEq

/-- The exceptions for which the processor pushes an error code. -/
def hasErrorCode (vector : ℕ) : Prop := vector ∈ [8, 10, 11, 12, 13, 14, 17, 21, 29, 30]

instance (vector : ℕ) : Decidable (hasErrorCode vector) :=
  inferInstanceAs (Decidable (vector ∈ [8, 10, 11, 12, 13, 14, 17, 21, 29, 30]))

namespace Interrupt

/-- The interrupts of devices come as the vectors from 32 on, to which `initializePIC` moves
    them. -/
def vector : Interrupt → ℕ
  | exception vector _ => vector
  | device irq => 32 + irq

/-- The number that the handler is to get: that of the exception or the device. -/
def num : Interrupt → ℕ
  | exception vector _ => vector
  | device irq => irq

/-- The error code that the handler is to get. -/
def code : Interrupt → ℕ
  | exception vector errorCode => if hasErrorCode vector then errorCode else 0
  | device _ => 0

/-- The words that the processor pushes, the last one first. -/
def pushed (i : Interrupt) (r : Registers) : List ℕ :=
  (match i with
    | exception vector errorCode => if hasErrorCode vector then [errorCode] else []
    | device _ => []) ++ [r.rip, r.cs, r.rflags, r.rsp, r.ss]

end Interrupt

/-- The processor when it is interrupted, about to push below `top`: the stack pointer, aligned, or
    that of the kernel's stack. Bit 1 of the flags is always set. -/
structure Interrupted where
  regs : Registers
  mem : WordMem
  top : ℕ
  room : 27 * 8 ≤ top
  flags : regs.rflags.testBit 1 = true

/-- The processor after it has pushed what it pushes. -/
def Interrupt.deliver (i : Interrupt) (s : Interrupted) : Machine :=
  (i.pushed s.regs).reverse.foldl (fun m w => m.push w)
    { regs := { s.regs with
        rsp := s.top
        cs := 0x8
        rflags := s.regs.rflags &&& 0xFFFFFFFFFFFFFDFF }
      mem := s.mem }

/-- The processor when the handler is called. -/
def Interrupt.enter (i : Interrupt) (image : Image) (s : Interrupted) : Machine :=
  (i.deliver s).run (image.code (idt image i.vector).offset)

/-- The structure at an address. -/
def CPURegisters.read (m : WordMem) (a : ℕ) : CPURegisters where
  gs := m a
  es := m (a + 8)
  fs := m (a + 16)
  ds := m (a + 24)
  r15 := m (a + 32)
  r14 := m (a + 40)
  r13 := m (a + 48)
  r12 := m (a + 56)
  r11 := m (a + 64)
  r10 := m (a + 72)
  r9 := m (a + 80)
  r8 := m (a + 88)
  rbp := m (a + 96)
  rdi := m (a + 104)
  rsi := m (a + 112)
  rdx := m (a + 120)
  rcx := m (a + 128)
  rbx := m (a + 136)
  rax := m (a + 144)
  num := m (a + 152)
  code := m (a + 160)
  rip := m (a + 168)
  cs := m (a + 176)
  rflags := m (a + 184)
  rsp := m (a + 192)
  ss := m (a + 200)

end SmartOS
