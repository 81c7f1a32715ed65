import SmartOS.Heap.Basic

/-!
# The scheduler

The functions of `Scheduler.cpp`, and `isr_handler` of `IDT.cpp`. Threads lie in memory as objects
of their own (`Scheduler.threads`), queued by their `next` pointers from `queue` on. The timer
interrupt calls `schedule` with the registers of the thread that it interrupts; `schedule` saves
them in that thread, goes round the queue for one that may run, and writes that one's registers over
them.

`schedule` goes round until it finds a thread, and `addThread` walks to the end
of the queue, so both take fuel (`Lib.Loop`).
-/

namespace SmartOS

open Prog

/-! ## Threads -/

/-- The registers that an interrupt saves and restores. -/
structure CPURegisters where
  (gs es fs ds : ℕ)
  (r15 r14 r13 r12 r11 r10 r9 r8 rbp rdi rsi rdx rcx rbx rax : ℕ)
  (num code : ℕ)
  (rip cs rflags rsp ss : ℕ)
  deriving Repr, DecidableEq

/-- `memset(&state, 0, sizeof(state))` -/
def CPURegisters.zero : CPURegisters :=
  ⟨0, 0, 0, 0, 0, 0, 0, 0, 0, 0, 0, 0, 0, 0, 0, 0, 0, 0, 0, 0, 0, 0, 0, 0, 0, 0⟩

structure Thread where
  entry : ℕ
  dpl : ℕ
  state : CPURegisters
  joined : Bool
  asleep : Bool
  done : Bool
  joinTarget : ℕ
  sleepTimeout : ℕ
  pid : ℕ
  name : ℕ
  next : ℕ
  dir : ℕ
  heap : ℕ
  deriving Repr, DecidableEq

/-- The globals that the scheduler works on. `threads` are the thread objects, by address. -/
structure Scheduler where
  running : ℕ
  queue : ℕ
  scheduledCounter : ℕ
  nextPID : ℕ
  currentHeap : ℕ
  threads : ℕ → Thread
  mmu : MMU

namespace Scheduler

/-- `t->next` -/
def next (s : Scheduler) (t : ℕ) : ℕ := (s.threads t).next

/-- A thread changed. -/
def modify (s : Scheduler) (t : ℕ) (f : Thread → Thread) : Scheduler :=
  { s with threads := Function.update s.threads t (f (s.threads t)) }

end Scheduler

/-! ## New threads -/

/-- A new stack, with the address of `_kill` on it for the thread to return to. -/
def newStack (kill : ℕ) (s : MMU) : ℕ × MMU :=
  let (page, s) := kmallocA 0x1000 s
  let rsp := wrap (page + 0xFF8)
  (rsp, { s with mem := s.mem.set64 rsp kill })

/-- A new heap, and the object `Heap` for it. -/
def newHeap (s : MMU) : ℕ × MMU :=
  let (heap, s) := kmalloc 16 s
  let (value, s) := Heap.new 0x10000 s
  (heap, { s with mem := (s.mem.set64 heap value.first).set64 (heap + 8) value.size })

/-- The registers a thread starts with. -/
def initialState (user : Bool) (rip rsp : ℕ) : CPURegisters :=
  let segment := if user then 0x23 else 0x10
  { CPURegisters.zero with
    rsp := rsp, cs := if user then 0x1B else 0x8, ds := segment, es := segment, fs := segment,
    gs := segment, ss := segment, rip := rip, rflags := 0x202 }

/-- The constructor of the thread at `this`. It leaves `joinTarget` and `sleepTimeout` as they
    are. -/
def Thread.new (kill this entry name : ℕ) (user : Bool) (s : Scheduler) : Scheduler :=
  let (rsp, mmu) := newStack kill s.mmu
  let dir := mmu.kernelDirectory
  let (heap, mmu) := newHeap mmu
  { s with
    nextPID := wrap (s.nextPID + 1)
    mmu := mmu
    threads := Function.update s.threads this { s.threads this with
      pid := s.nextPID, dpl := if user then 3 else 0, entry := entry, name := name,
      state := initialState user entry rsp, asleep := false, joined := false, done := false,
      dir := dir, heap := heap, next := 0 } }

/-- `name` is the address of the text "KERNEL". -/
def initializeScheduler (kill name : ℕ) (s : Scheduler) : Scheduler :=
  let (this, mmu) := kmalloc 288 s.mmu
  let (rsp, mmu) := newStack kill mmu
  let (dir, mmu) := clone mmu.kernelDirectory mmu
  let (heap, mmu) := newHeap mmu
  { s with
    scheduledCounter := 0
    nextPID := 1
    queue := this
    running := this
    mmu := mmu
    threads := Function.update s.threads this { s.threads this with
      pid := 0, dpl := 0, entry := 0, name := name,
      state := initialState false 0 rsp, asleep := false, joined := false, done := false,
      dir := dir, heap := heap, next := 0 } }

def addThread (thread : ℕ) (s : Scheduler) (fuel : ℕ) : Option Scheduler :=
  (loop (whileDo (s.next · != 0) s.next) fuel s.queue).bind fun t =>
    some (s.modify t fun x => { x with next := thread })

/-! ## Scheduling -/

/-- The next thread, round the queue. -/
def Scheduler.advance (s : Scheduler) : Scheduler :=
  { s with running := if s.next s.running ≠ 0 then s.next s.running else s.queue }

/-- A thread that waits for another to end is passed over, unless it is the head of the queue. -/
def Scheduler.checkJoined (s : Scheduler) : Scheduler ⊕ Scheduler :=
  let t := s.threads s.running
  if t.joined then
    if (s.threads t.joinTarget).done then
      .inr (s.modify s.running fun x => { x with joined := false })
    else if s.running ≠ s.queue then .inl s
    else .inr s
  else .inr s

/-- A thread that sleeps is passed over, unless it is the head of the queue. -/
def Scheduler.checkAsleep (s : Scheduler) : Scheduler ⊕ Scheduler :=
  let t := s.threads s.running
  if t.asleep then
    if t.sleepTimeout ≤ s.scheduledCounter then
      .inr (s.modify s.running fun x => { x with asleep := false })
    else if s.running ≠ s.queue then .inl s
    else .inr s
  else .inr s

/-- `schedule` from the label `find_thread` on: back to the label, or past the last `goto`. -/
def findThread (s : Scheduler) : Scheduler ⊕ Scheduler :=
  match s.advance.checkJoined with
  | .inl s => .inl s
  | .inr s =>
    match s.checkAsleep with
    | .inl s => .inl s
    | .inr s => if (s.threads s.running).done then .inl s else .inr s

/-- What `schedule` does with the thread found. -/
def Scheduler.dispatch (s : Scheduler) : CPURegisters × Scheduler :=
  let t := s.threads s.running
  (t.state, { s with
    scheduledCounter := wrap (s.scheduledCounter + 1)
    mmu := switchDirectory t.dir s.mmu
    currentHeap := t.heap })

/-- `schedule(regs)`: what it leaves in `regs`. -/
def schedule (regs : CPURegisters) (s : Scheduler) (fuel : ℕ) : Option (CPURegisters × Scheduler) :=
  let s := s.modify s.running fun x => { x with state := regs }
  (loop findThread fuel s).bind fun s => some s.dispatch

/-! ## Flags

Each of these is what the running thread does before the loop in which it waits. -/

/-- `_kill()`: the end of a thread. -/
def _kill (s : Scheduler) : Scheduler := s.modify s.running fun x => { x with done := true }

/-- `isr_handler(regs)`: a fault ends the thread, unless it is the head of the queue. -/
def isrHandler (s : Scheduler) : Scheduler :=
  if s.running ≠ s.queue then s.modify s.running fun x => { x with done := true } else s

def sleep (millis : ℕ) (s : Scheduler) : Scheduler :=
  s.modify s.running fun x =>
    { x with sleepTimeout := wrap (millis + s.scheduledCounter), asleep := true }

end SmartOS
