import SmartOS.Strings.Printf
import SmartOS.Vector.Basic

/-!
# The keyboard

`Keyboard.cpp`, the tables of `Keyboard.h`, and `handleKey` of `kernel.cpp`, which
prints what is typed. The keyboard sends one byte with every interrupt: the code of
a key that is pressed, or that of one that is released, with the highest bit set.
`keyboardIRQ` keeps in mind whether the left shift is held, and calls the handlers.

* `keyboardIRQ_eq`: all the handlers are called for a byte, in their order;
* `Keyboard.Inv.step`: the vector is the list of the handlers, and the shift is held
  since it was pressed;
* `keyboard_of_run`: in every run, each byte reaches every handler that has been
  added, once and in the order in which they were added.
-/

namespace SmartOS

open Prog

/-! ## The source -/

/-- `KEY_SHIFT` -/
def keyShift : Byte := 0x2A

def nul : Char := '\x00'

/-- The entries that are not given are 0. -/
def keycodesShiftASCII : List Byte :=
  ([nul, nul, '!', '@', '#', '$', '%', '^', '&', '*', '(', ')', '_', '+', nul, nul, 'Q', 'W', 'E',
    'R', 'T', 'Y', 'U', 'I', 'O', 'P', '\x7b', '\x7d', '\n', nul, 'A', 'S', 'D', 'F', 'G', 'H', 'J',
    'K', 'L', ':', '\x22', '~', nul, '|', 'Z', 'X', 'C', 'V', 'B', 'N', 'M', '<', '>', '?', nul,
    nul, nul, ' '].map ascii).takeD 0x76 0

def keycodesASCII : List Byte :=
  ([nul, nul, '1', '2', '3', '4', '5', '6', '7', '8', '9', '0', '-', '=', nul, nul, 'q', 'w', 'e',
    'r', 't', 'y', 'u', 'i', 'o', 'p', '[', ']', '\n', nul, 'a', 's', 'd', 'f', 'g', 'h', 'j', 'k',
    'l', ';', '\x27', '\x60', nul, '\x5c', 'z', 'x', 'c', 'v', 'b', 'n', 'm', ',', '.', '/', nul,
    nul, nul, ' '].map ascii).takeD 0x76 0

structure KeyboardState where
  leftShift : BitVec 1
  deriving Repr, DecidableEq

/-- A call of a handler, which is its address. -/
structure KeyCall where
  handler : ℕ
  key : Byte
  pressed : Byte
  deriving Repr, DecidableEq

/-- The globals of `Keyboard.cpp`, and the memory with the nodes of the vector. -/
structure Keyboard where
  nodes : Nodes ℕ
  keyHandlers : Vector ℕ
  keyboardState : KeyboardState

/-- The key of a byte, and whether it is pressed. -/
def keyOfByte (byte : Byte) : Byte × Byte :=
  if byte &&& 0x80 ≠ 0 then (byte &&& 0x7F, 0) else (byte, 1)

/-- `keyboardIRQ(regs)`, when `byte` is read from port 0x60, with the calls that it makes. No
    handler of the program adds another one. -/
def keyboardIRQ (s : Keyboard) (byte : Byte) : Option (List KeyCall × Keyboard) :=
  let (key, pressed) := keyOfByte byte
  let s := if key = keyShift then { s with keyboardState := ⟨pressed.setWidth 1⟩ } else s
  ((List.range s.keyHandlers.size).mapM fun i =>
    (s.keyHandlers.get s.nodes i).map fun handler => ⟨handler, key, pressed⟩).map (·, s)

/-- `addKeyboardHandler(handler)`, when `new` allocates `node`. -/
def addKeyboardHandler (handler node : ℕ) (s : Keyboard) (n : ℕ) : Option (Option Keyboard) :=
  andThen (s.keyHandlers.push s.nodes handler node n) fun (nodes, v) =>
    some (some { s with nodes := nodes, keyHandlers := v })

/-- The string that `handleKey(key, pressed)` prints. A key beyond the tables fails. -/
def handleKey (k : KeyboardState) (key pressed : Byte) : Option (List Byte) :=
  if pressed ≠ 0 then
    keycodesASCII[key.toNat]?.bind fun c =>
      (if k.leftShift ≠ 0 then keycodesShiftASCII[key.toNat]? else some c).map fun c =>
        if c ≠ 0 then [c] else []
  else some []

/-! ## The system -/

/-- What happens, with the calls for a byte, and what is printed. -/
inductive KeyboardOp
  | addKeyboardHandler (handler node : ℕ)
  | keyboardIRQ (byte : Byte) (calls : List KeyCall) (out : List Byte)
  deriving Repr, DecidableEq

/-- What a call prints. The handler at `debugHandler` is `handleKey`, and others do not print. -/
def KeyCall.out (debugHandler : ℕ) (k : KeyboardState) (c : KeyCall) : Option (List Byte) :=
  if c.handler = debugHandler then handleKey k c.key c.pressed else some []

def printedBy (debugHandler : ℕ) (k : KeyboardState) (calls : List KeyCall) :
    Option (List Byte) :=
  (calls.mapM (KeyCall.out debugHandler k)).map List.flatten

/-- The node of a handler is memory that is free. -/
inductive KeyboardStep (debugHandler : ℕ) (s : Keyboard) : KeyboardOp → Keyboard → Prop
  | addKeyboardHandler {handler node : ℕ} {s' : Keyboard} :
      node ≠ 0 → node < 2 ^ 64 → s.nodes node = none →
      Returns (fun n => addKeyboardHandler handler node s n) (some s') →
      KeyboardStep debugHandler s (.addKeyboardHandler handler node) s'
  | keyboardIRQ {byte : Byte} {calls : List KeyCall} {out : List Byte} {s' : Keyboard} :
      keyboardIRQ s byte = some (calls, s') →
      printedBy debugHandler s'.keyboardState calls = some out →
      KeyboardStep debugHandler s (.keyboardIRQ byte calls out) s'

/-- What `initializeKeyboard` leaves. -/
def bootKeyboard (nodes : Nodes ℕ) : Keyboard := ⟨nodes, .new, ⟨0⟩⟩

/-! ## Specification -/

/-- The handlers that have been added. -/
def addedHandlers (ops : List KeyboardOp) : List ℕ :=
  ops.flatMap fun op => match op with
    | .addKeyboardHandler handler _ => [handler]
    | .keyboardIRQ _ _ _ => []

/-- The bytes that the keyboard has sent. -/
def sentBytes (ops : List KeyboardOp) : List Byte :=
  ops.flatMap fun op => match op with
    | .addKeyboardHandler _ _ => []
    | .keyboardIRQ byte _ _ => [byte]

def printedText (ops : List KeyboardOp) : List Byte :=
  ops.flatMap fun op => match op with
    | .addKeyboardHandler _ _ => []
    | .keyboardIRQ _ _ out => out

/-- The left shift was pressed, and has not been released since. -/
def ShiftHeld (bytes : List Byte) : Prop := Since 0x2A (· = 0xAA) bytes

/-- The call of a handler for a byte. -/
def callFor (byte : Byte) (handler : ℕ) : KeyCall :=
  ⟨handler, byte &&& 0x7F, if byte.msb then 0 else 1⟩

/-- The keyboard, after the operations `ops`. -/
structure Keyboard.Serving (debugHandler : ℕ) (ops : List KeyboardOp) (s : Keyboard) : Prop where
  handlers : VectorState.Refines (s.nodes, s.keyHandlers) (addedHandlers ops)
  shift : s.keyboardState.leftShift = 1 ↔ ShiftHeld (sentBytes ops)
  calls : ∀ {byte calls out s'}, KeyboardStep debugHandler s (.keyboardIRQ byte calls out) s' →
    calls = (addedHandlers ops).map (callFor byte)
  /-- The only bytes that cannot be handled are those of keys beyond the tables. -/
  progress : ∀ byte,
    (∃ calls out s', KeyboardStep debugHandler s (.keyboardIRQ byte calls out) s') ↔
      (debugHandler ∈ addedHandlers ops → byte.msb ∨ byte.toNat < 0x76)

/-! ## Steps -/

variable {debugHandler : ℕ} {s s' : Keyboard} {xs : List ℕ} {l : List (ℕ × ℕ)}

theorem keyOfByte_eq : ∀ byte : Byte,
    keyOfByte byte = (byte &&& 0x7F, if byte.msb then 0 else 1) := by decide

/-- The state of the keys, after a byte. -/
def KeyboardState.after (k : KeyboardState) (byte : Byte) : KeyboardState :=
  if byte = 0x2A then ⟨1⟩ else if byte = 0xAA then ⟨0⟩ else k

theorem KeyboardState.after_eq (k : KeyboardState) (byte : Byte) :
    (if byte &&& 0x7F = keyShift then ⟨(if byte.msb then 0 else 1 : Byte).setWidth 1⟩ else k) =
      k.after byte := by
  have hcases : ∀ b : Byte, b &&& 0x7F = keyShift ↔ b = 0x2A ∨ b = 0xAA := by decide
  rw [after]
  by_cases hpress : byte = 0x2A
  · rw [if_pos hpress, if_pos ((hcases byte).2 (.inl hpress)), hpress]
    rfl
  · rw [if_neg hpress]
    by_cases hrelease : byte = 0xAA
    · rw [if_pos hrelease, if_pos ((hcases byte).2 (.inr hrelease)), hrelease]
      rfl
    · rw [if_neg hrelease, if_neg fun h => ((hcases byte).1 h).elim hpress hrelease]

/-- All the handlers are called, in their order. -/
theorem keyboardIRQ_eq (h : s.keyHandlers.Represents s.nodes xs l) (byte : Byte) :
    keyboardIRQ s byte =
      some (xs.map (callFor byte), { s with keyboardState := s.keyboardState.after byte }) := by
  have hmap : ∀ n ≤ xs.length, ((List.range n).mapM fun i =>
      (s.keyHandlers.get s.nodes i).map (callFor byte)) =
        some ((xs.take n).map (callFor byte)) := by
    intro n hn
    induction n with
    | zero => rfl
    | succ n ih =>
      have hlt : n < xs.length := hn
      rw [List.range_succ, List.mapM_append, ih (Nat.le_of_succ_le hn), List.take_add_one,
        List.mapM_cons, h.get (h.size_eq ▸ hlt), List.getElem?_eq_getElem hlt, List.map_append]
      rfl
  have hcalls := hmap s.keyHandlers.size h.size_eq.le
  rw [h.size_eq, List.take_length] at hcalls
  rw [keyboardIRQ, keyOfByte_eq]
  dsimp only
  have hstate := KeyboardState.after_eq s.keyboardState byte
  by_cases hshift : byte &&& 0x7F = keyShift
  · rw [if_pos hshift] at hstate
    rw [if_pos hshift, hstate]
    dsimp only
    rw [h.size_eq]
    exact congrArg (Option.map (·, _)) hcalls
  · rw [if_neg hshift] at hstate
    rw [if_neg hshift, h.size_eq, ← hstate]
    exact congrArg (Option.map (·, _)) hcalls

theorem printedBy_cons (k : KeyboardState) (c : KeyCall) (calls : List KeyCall) :
    printedBy debugHandler k (c :: calls) = (c.out debugHandler k).bind fun cs =>
      (printedBy debugHandler k calls).map (cs ++ ·) := by
  rw [printedBy, printedBy, List.mapM_cons]
  cases c.out debugHandler k with
  | none => rfl
  | some cs => cases calls.mapM (KeyCall.out debugHandler k) <;> rfl

theorem out_callFor_self (k : KeyboardState) (byte : Byte) :
    (callFor byte debugHandler).out debugHandler k =
      handleKey k (byte &&& 0x7F) (if byte.msb then 0 else 1) := if_pos rfl

theorem out_callFor_of_ne (k : KeyboardState) (byte : Byte) {handler : ℕ}
    (h : handler ≠ debugHandler) : (callFor byte handler).out debugHandler k = some [] := if_neg h

/-- What `handleKey` prints is printed as often as it has been added. -/
theorem printedBy_of_some {k : KeyboardState} {byte : Byte} {cs : List Byte}
    (h : handleKey k (byte &&& 0x7F) (if byte.msb then 0 else 1) = some cs) :
    printedBy debugHandler k (xs.map (callFor byte)) =
      some (List.replicate (xs.count debugHandler) cs).flatten := by
  induction xs with
  | nil => rfl
  | cons handler xs ih =>
    rw [List.map_cons, printedBy_cons, ih]
    by_cases heq : handler = debugHandler
    · rw [heq, out_callFor_self, h, List.count_cons_self, List.replicate_succ, List.flatten_cons]
      rfl
    · rw [out_callFor_of_ne k byte heq, List.count_cons_of_ne heq]
      rfl

/-- Where it fails, nothing is printed unless it has not been added. -/
theorem printedBy_of_none {k : KeyboardState} {byte : Byte}
    (h : handleKey k (byte &&& 0x7F) (if byte.msb then 0 else 1) = none) :
    printedBy debugHandler k (xs.map (callFor byte)) =
      if debugHandler ∈ xs then none else some [] := by
  induction xs with
  | nil => rfl
  | cons handler xs ih =>
    rw [List.map_cons, printedBy_cons, ih]
    by_cases heq : handler = debugHandler
    · rw [heq, out_callFor_self, h, if_pos List.mem_cons_self]
      rfl
    · rw [out_callFor_of_ne k byte heq]
      simp only [List.mem_cons, Ne.symm heq, false_or]
      split <;> rfl

theorem length_keycodes :
    keycodesASCII.length = 0x76 ∧ keycodesShiftASCII.length = 0x76 := by decide

/-- A key that is released is not looked up, and one that is pressed has to be in the tables. -/
theorem handleKey_eq_none_iff (k : KeyboardState) (byte : Byte) :
    handleKey k (byte &&& 0x7F) (if byte.msb then 0 else 1) = none ↔
      ¬(byte.msb ∨ byte.toNat < 0x76) := by
  have hkey : ∀ b : Byte, b.msb = false → b &&& 0x7F = b := by decide
  obtain ⟨hlength, hshift⟩ := length_keycodes
  cases hmsb : byte.msb with
  | true => simp [handleKey]
  | false =>
    rw [hkey byte hmsb, handleKey]
    by_cases hlt : byte.toNat < 0x76
    · rw [List.getElem?_eq_getElem (hlength ▸ hlt), List.getElem?_eq_getElem (hshift ▸ hlt)]
      by_cases hk : k.leftShift = 0
      · simp [hlt, hk]
      · have hne : k.leftShift ≠ 0#1 := hk
        simp [hlt, hne]
    · rw [List.getElem?_eq_none (by omega)]
      simp [hlt]

/-! ## Runs -/

variable {ops ops' : List KeyboardOp}

/-- The invariant. -/
structure Keyboard.Inv (ops : List KeyboardOp) (s : Keyboard) : Prop where
  handlers : ∃ l, s.keyHandlers.Represents s.nodes (addedHandlers ops) l
  shift : s.keyboardState.leftShift = 1 ↔ ShiftHeld (sentBytes ops)

theorem inv_bootKeyboard (nodes : Nodes ℕ) : (bootKeyboard nodes).Inv [] :=
  ⟨⟨[], Vector.represents_new nodes⟩,
    iff_of_false (fun h : (0 : BitVec 1) = 1 => by cases h) (not_since_nil _ _)⟩

theorem KeyboardState.after_shift {k : KeyboardState} {bytes : List Byte}
    (h : k.leftShift = 1 ↔ ShiftHeld bytes) (byte : Byte) :
    (k.after byte).leftShift = 1 ↔ ShiftHeld (bytes ++ [byte]) := by
  rw [ShiftHeld, since_snoc, after]
  split_ifs with hpress hrelease
  · exact iff_of_true rfl (.inl hpress)
  · refine iff_of_false (by decide) ?_
    rintro (heq | ⟨-, hne⟩)
    · exact hpress heq
    · exact hne hrelease
  · rw [h]
    exact ⟨fun hheld => .inr ⟨hheld, hrelease⟩, fun hor => (hor.resolve_left hpress).1⟩

theorem addedHandlers_append :
    addedHandlers (ops ++ ops') = addedHandlers ops ++ addedHandlers ops' := List.flatMap_append

theorem sentBytes_append : sentBytes (ops ++ ops') = sentBytes ops ++ sentBytes ops' :=
  List.flatMap_append

theorem printedText_append : printedText (ops ++ ops') = printedText ops ++ printedText ops' :=
  List.flatMap_append

/-- A byte, in a state of the invariant. -/
theorem Keyboard.Inv.keyboardIRQ_inv (h : s.Inv ops) {byte : Byte} {calls : List KeyCall}
    {out : List Byte} (hs : KeyboardStep debugHandler s (.keyboardIRQ byte calls out) s') :
    calls = (addedHandlers ops).map (callFor byte) ∧
      s' = { s with keyboardState := s.keyboardState.after byte } ∧
      printedBy debugHandler (s.keyboardState.after byte)
        ((addedHandlers ops).map (callFor byte)) = some out := by
  obtain ⟨l, hl⟩ := h.handlers
  cases hs with
  | keyboardIRQ hirq hout =>
    rw [keyboardIRQ_eq hl] at hirq
    obtain ⟨rfl, rfl⟩ := Prod.mk.inj (Option.some.inj hirq)
    exact ⟨rfl, rfl, hout⟩

theorem Keyboard.Inv.step {op : KeyboardOp} (h : s.Inv ops)
    (hs : KeyboardStep debugHandler s op s') : s'.Inv (ops ++ [op]) := by
  cases op with
  | addKeyboardHandler handler node =>
    obtain ⟨l, hl⟩ := h.handlers
    cases hs with
    | addKeyboardHandler hne hlt hfree hreturns =>
      obtain ⟨nodes', v', hpush, hl', -⟩ := Vector.represents_push hl handler hne hlt hfree
      cases hreturns.unique (hpush.andThen (.pure _))
      refine ⟨⟨_, by rw [addedHandlers_append]; exact hl'⟩, ?_⟩
      rw [sentBytes_append]
      exact (List.append_nil (sentBytes ops)).symm ▸ h.shift
  | keyboardIRQ byte calls out =>
    obtain ⟨-, rfl, -⟩ := h.keyboardIRQ_inv hs
    refine ⟨?_, ?_⟩
    · rw [addedHandlers_append]
      exact (List.append_nil (addedHandlers ops)).symm ▸ h.handlers
    · rw [sentBytes_append]
      exact KeyboardState.after_shift h.shift byte

/-- A byte whose key is in the tables can be handled, -/
theorem Keyboard.Inv.keyboardIRQ_of_handleKey (h : s.Inv ops) {byte : Byte} {cs : List Byte}
    (hkey : handleKey (s.keyboardState.after byte) (byte &&& 0x7F) (if byte.msb then 0 else 1) =
      some cs) :
    KeyboardStep debugHandler s
      (.keyboardIRQ byte ((addedHandlers ops).map (callFor byte))
        (List.replicate ((addedHandlers ops).count debugHandler) cs).flatten)
      { s with keyboardState := s.keyboardState.after byte } :=
  let ⟨_, hl⟩ := h.handlers
  .keyboardIRQ (keyboardIRQ_eq hl byte) (printedBy_of_some hkey)

/-- and every handler can be added. -/
theorem Keyboard.Inv.exists_addKeyboardHandler (h : s.Inv ops) (handler : ℕ) {node : ℕ}
    (hne : node ≠ 0) (hlt : node < 2 ^ 64) (hfree : s.nodes node = none) :
    ∃ s', KeyboardStep debugHandler s (.addKeyboardHandler handler node) s' ∧
      s'.keyboardState = s.keyboardState ∧
      ∀ c, c ≠ node → s.nodes c = none → s'.nodes c = none := by
  obtain ⟨l, hl⟩ := h.handlers
  obtain ⟨nodes', v', hpush, -, hnodes⟩ := Vector.represents_push hl handler hne hlt hfree
  exact ⟨_, .addKeyboardHandler hne hlt hfree (hpush.andThen (.pure _)), rfl, hnodes⟩

/-- A byte can be handled unless it is looked up beyond the tables. -/
theorem Keyboard.Inv.progress_iff (h : s.Inv ops) (byte : Byte) :
    (∃ calls out s', KeyboardStep debugHandler s (.keyboardIRQ byte calls out) s') ↔
      (debugHandler ∈ addedHandlers ops → byte.msb ∨ byte.toNat < 0x76) := by
  rcases hkey : handleKey (s.keyboardState.after byte) (byte &&& 0x7F) (if byte.msb then 0 else 1)
    with _ | cs
  · have hbeyond := (handleKey_eq_none_iff _ byte).1 hkey
    have hprinted := @printedBy_of_none debugHandler (addedHandlers ops) _ _ hkey
    constructor
    · rintro ⟨calls, out, s', hs⟩ hmem
      obtain ⟨-, -, hout⟩ := h.keyboardIRQ_inv hs
      rw [hprinted, if_pos hmem] at hout
      cases hout
    · intro himp
      rw [if_neg fun hmem => hbeyond (himp hmem)] at hprinted
      obtain ⟨l, hl⟩ := h.handlers
      exact ⟨_, _, _, .keyboardIRQ (keyboardIRQ_eq hl byte) hprinted⟩
  · refine iff_of_true ⟨_, _, _, h.keyboardIRQ_of_handleKey hkey⟩ fun _ => ?_
    by_contra hbeyond
    rw [(handleKey_eq_none_iff _ byte).2 hbeyond] at hkey
    cases hkey

/-- In every run, each byte reaches every handler once, in the order in which they were added, and
    the shift counts as held from when it is pressed to when it is released. -/
theorem keyboard_of_run {nodes : Nodes ℕ}
    (hr : Run (KeyboardStep debugHandler) (bootKeyboard nodes) ops s) :
    s.Serving debugHandler ops := by
  have hI : s.Inv ops := hr.history (fun ops s => s.Inv ops) (inv_bootKeyboard nodes)
    fun _ _ _ _ h hs => h.step hs
  obtain ⟨l, hl⟩ := hI.handlers
  exact ⟨Vector.Represents.refines (s := (s.nodes, s.keyHandlers)) hl, hI.shift,
    fun hs => (hI.keyboardIRQ_inv hs).1, hI.progress_iff⟩

/-- The handler at 0x1000 is added to none. -/
theorem exists_added : ∃ s, KeyboardStep 0x1000 (bootKeyboard fun _ => none)
    (.addKeyboardHandler 0x1000 0x20) s ∧ s.keyboardState = ⟨0⟩ ∧ s.nodes 0x40 = none := by
  obtain ⟨s, hstep, hstate, hnodes⟩ := @Keyboard.Inv.exists_addKeyboardHandler 0x1000 _ _
    (inv_bootKeyboard fun _ => none) 0x1000 0x20 (by decide) (by decide) rfl
  exact ⟨s, hstep, hstate, hnodes 0x40 (by decide) rfl⟩

/-- The shift is pressed, another handler is added behind `handleKey`, and then a key is pressed. -/
theorem keyboard_of_run_shifted : ∃ s, Keyboard.Serving 0x1000
    [.addKeyboardHandler 0x1000 0x20, .keyboardIRQ 0x2A [⟨0x1000, 0x2A, 1⟩] [],
      .addKeyboardHandler 0x4000 0x40,
      .keyboardIRQ 0x23 [⟨0x1000, 0x23, 1⟩, ⟨0x4000, 0x23, 1⟩] [ascii 'H']] s := by
  obtain ⟨s, hadd, hstate, hnode⟩ := exists_added
  have hinv := (inv_bootKeyboard _).step hadd
  have hshift := @Keyboard.Inv.keyboardIRQ_of_handleKey 0x1000 _ _ hinv 0x2A [] (by
    rw [hstate]
    decide)
  have hinv' := hinv.step hshift
  obtain ⟨s', hadd', hstate', -⟩ := @Keyboard.Inv.exists_addKeyboardHandler 0x1000 _ _ hinv' 0x4000
    0x40 (by decide) (by decide) hnode
  have hkey := @Keyboard.Inv.keyboardIRQ_of_handleKey 0x1000 _ _ (hinv'.step hadd') 0x23
    [ascii 'H'] (by
      rw [hstate', hstate]
      rfl)
  exact ⟨_, keyboard_of_run ((((Run.nil.snoc hadd).snoc hshift).snoc hadd').snoc hkey)⟩

end SmartOS
