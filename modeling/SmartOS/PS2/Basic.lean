import SmartOS.Bytes
import SmartOS.Lib.Polling

/-!
# The keyboard controller

The parts of `Keyboard.cpp` and `Mouse.cpp` that set up the keyboard and the mouse,
through the ports of their controller: 0x64, for its status and for commands, and
0x60, for data. A program (`Driver`) appends to the list of its accesses to the
ports; `device k` is what the read number `k` gives, of either port, so that the
controller may do anything.

The bit 1 of the status says that the controller has not taken the last byte that
was written yet, and the bit 0 that it has one to be read. `keyWaitSignal` and
`mouseWaitSignal` wait for the bit 1 to be *set*.

The registration of the handlers, the message of `initializeKeyboard` and the state
of the keyboard, which it clears, are left out.
-/

namespace SmartOS

open Prog

/-- What a function of the driver waits for. -/
inductive Wait
  | signal
  | data
  deriving Repr, DecidableEq

/-- An access to a port. -/
inductive PortAccess
  /-- A read of port 0x64, in one of the functions that wait. -/
  | status (wait : Wait) (value : Byte)
  /-- A read of port 0x60. -/
  | read (value : Byte)
  | write (port : ℕ) (data : Byte)
  deriving Repr, DecidableEq

def PortAccess.isRead : PortAccess → Bool
  | .write _ _ => false
  | _ => true

/-- How many bytes have been read. -/
def readCount (accesses : List PortAccess) : ℕ := accesses.countP PortAccess.isRead

abbrev Driver := StateM (List PortAccess)

/-- How often a function reads the status, at most. -/
def timeout : ℕ := 100000

section

variable (device : ℕ → Byte)

/-- `inb(0x64)` -/
def inStatus (wait : Wait) : Driver Byte := fun accesses =>
  let value := device (readCount accesses)
  (value, accesses ++ [.status wait value])

/-- `inb(0x60)` -/
def inData : Driver Byte := fun accesses =>
  let value := device (readCount accesses)
  (value, accesses ++ [.read value])

def outb (port : ℕ) (data : Byte) : Driver Unit := fun accesses =>
  ((), accesses ++ [.write port data])

/-- `while (timeout-- && !(inb(0x64) & mask))` -/
def waitLoop (wait : Wait) (mask : Byte) : ℕ → Driver Unit
  | 0 => pure ()
  | timeout + 1 => do
    let status ← inStatus device wait
    if status &&& mask ≠ 0 then pure () else waitLoop wait mask timeout

/-! ## `Keyboard.cpp` -/

def keyWaitSignal : Driver Unit := waitLoop device .signal 2 timeout

def keyWaitData : Driver Unit := waitLoop device .data 1 timeout

/-- It waits as for a write. -/
def keyRead : Driver Byte := do
  keyWaitSignal device
  inData device

def keyWrite (cmd data : Byte) : Driver Unit := do
  keyWaitSignal device
  outb 0x64 0xD2
  keyWaitSignal device
  outb 0x60 cmd
  let _ ← keyRead device
  keyWaitSignal device
  outb 0x64 0xD2
  keyWaitSignal device
  outb 0x60 data
  let _ ← keyRead device

def initializeKeyboard : Driver Unit := do
  keyWaitSignal device
  outb 0x64 0xAE
  keyWaitSignal device
  outb 0x64 0x20
  keyWaitData device
  let status := (← inData device) ||| 1
  keyWaitSignal device
  outb 0x64 0x60
  keyWaitSignal device
  outb 0x60 status
  keyWrite device 0xF6 0
  let _ ← keyRead device

/-! ## `Mouse.cpp` -/

def mouseWaitSignal : Driver Unit := waitLoop device .signal 2 timeout

def mouseWaitData : Driver Unit := waitLoop device .data 1 timeout

def mouseWrite (data : Byte) : Driver Unit := do
  mouseWaitSignal device
  outb 0x64 0xD4
  mouseWaitSignal device
  outb 0x60 data

def mouseRead : Driver Byte := do
  mouseWaitData device
  inData device

def initializeMouse : Driver Unit := do
  mouseWaitSignal device
  outb 0x64 0xA8
  mouseWaitSignal device
  outb 0x64 0x20
  mouseWaitData device
  let status := (← inData device) ||| 2
  mouseWaitSignal device
  outb 0x64 0x60
  mouseWaitSignal device
  outb 0x60 status
  mouseWrite device 0xF6
  let _ ← mouseRead device
  mouseWrite device 0xF4
  let _ ← mouseRead device

/-! ## Calls -/

/-- The functions that set up the controller. -/
inductive SetUpCall
  | initializeKeyboard
  | keyWrite (cmd data : Byte)
  | initializeMouse
  | mouseWrite (data : Byte)
  deriving Repr, DecidableEq

def SetUpCall.driver : SetUpCall → Driver Unit
  | .initializeKeyboard => SmartOS.initializeKeyboard device
  | .keyWrite cmd data => SmartOS.keyWrite device cmd data
  | .initializeMouse => SmartOS.initializeMouse device
  | .mouseWrite data => SmartOS.mouseWrite device data

/-- All accesses of some calls, one after another. -/
def accessesOf (calls : List SetUpCall) : List PortAccess :=
  calls.foldl (fun accesses c => (c.driver device accesses).2) []

end

end SmartOS
