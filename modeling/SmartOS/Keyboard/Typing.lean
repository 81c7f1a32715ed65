import SmartOS.Keyboard.Basic

/-!
# Typing

What `handleKey` prints while a text is typed. A character is a key, and some need
the shift (`keystrokes`); the other keys may be released at any time, before or after
the next ones are pressed (`isStroke`).

* `typed`: what is printed for some bytes, as a function of them;
* `typed_keystrokes`: the keystrokes of a text print it, by induction on the text,
  whether the shift is held before or not;
* `prints_typed`: the same of every run from a state in which the shift is not held
  (`SmartOS.Interrupt.Devices` has it of the whole system).
-/

namespace SmartOS

open Prog

/-! ## Specification -/

/-- The shift is needed for a character. -/
def needsShift (c : Byte) : Bool := c ∉ keycodesASCII

/-- The code of the key of a character. -/
def makeCode (c : Byte) : Byte :=
  BitVec.ofNat 8 (if needsShift c then keycodesShiftASCII.idxOf c else keycodesASCII.idxOf c)

/-- The keys that are pressed for a text, when the shift is held or not, with the shift pressed and
    released where that is needed, and released at the end. -/
def keystrokes : Bool → List Byte → List Byte
  | shift, [] => if shift then [0xAA] else []
  | shift, c :: text =>
    (if needsShift c = shift then [] else [if needsShift c then 0x2A else 0xAA]) ++
      makeCode c :: keystrokes (needsShift c) text

/-- The byte is not that of a key that is released, but for the shift. -/
def isStroke (byte : Byte) : Bool := !byte.msb || byte = 0xAA

/-- A printable character, or the end of a line. -/
def TypedChar (c : Byte) : Prop := (0x20 ≤ c.toNat ∧ c.toNat ≤ 0x7E) ∨ c = 0x0A

instance (c : Byte) : Decidable (TypedChar c) :=
  inferInstanceAs (Decidable ((0x20 ≤ c.toNat ∧ c.toNat ≤ 0x7E) ∨ c = 0x0A))

variable {debugHandler : ℕ} {s s' : Keyboard} {ops ops' : List KeyboardOp}

/-! ## What is printed -/

/-- What is printed for these bytes, when `handleKey` is a handler. -/
def typed : KeyboardState → List Byte → Option (List Byte)
  | _, [] => some []
  | k, byte :: bytes =>
    (handleKey (k.after byte) (byte &&& 0x7F) (if byte.msb then 0 else 1)).bind fun cs =>
      (typed (k.after byte) bytes).map (cs ++ ·)

theorem typed_snoc (k : KeyboardState) (bytes : List Byte) (byte : Byte) :
    typed k (bytes ++ [byte]) = (typed k bytes).bind fun cs =>
      (handleKey ((bytes.foldl KeyboardState.after k).after byte) (byte &&& 0x7F)
        (if byte.msb then 0 else 1)).map (cs ++ ·) := by
  induction bytes generalizing k with
  | nil =>
    rw [List.nil_append, typed, typed]
    dsimp only [List.foldl_nil, Option.bind_some]
    cases handleKey (k.after byte) (byte &&& 0x7F) (if byte.msb then 0 else 1) <;> simp [typed]
  | cons b bytes ih =>
    rw [List.cons_append, typed, typed, ih, List.foldl_cons]
    cases handleKey (k.after b) (b &&& 0x7F) (if b.msb then 0 else 1) with
    | none => rfl
    | some cs =>
      cases typed (k.after b) bytes with
      | none => rfl
      | some cs' =>
        dsimp only [Option.bind_some, Option.map_some]
        rw [Option.map_map]
        congr 1
        funext out
        exact (List.append_assoc cs cs' out).symm

/-- Where `handleKey` is added once, it prints what is typed. -/
theorem typed_of_run (h : s.Inv ops) (hone : (addedHandlers ops).count debugHandler = 1)
    (hr : Run (KeyboardStep debugHandler) s ops' s') (hadd : debugHandler ∉ addedHandlers ops') :
    typed s.keyboardState (sentBytes ops') = some (printedText ops') ∧
      s'.keyboardState = (sentBytes ops').foldl KeyboardState.after s.keyboardState ∧
      s'.Inv (ops ++ ops') := by
  induction hr with
  | nil => exact ⟨rfl, rfl, (List.append_nil ops).symm ▸ h⟩
  | @snoc es t t' op _ hs ih =>
    rw [addedHandlers_append, List.mem_append, not_or] at hadd
    obtain ⟨htyped, hstate, hinv⟩ := ih hadd.1
    have hinv' := hinv.step hs
    rw [List.append_assoc] at hinv'
    rw [sentBytes_append, printedText_append]
    cases op with
    | addKeyboardHandler handler node =>
      have hkeep : t'.keyboardState = t.keyboardState := by
        cases hs with
        | addKeyboardHandler hne hlt hfree hreturns =>
          obtain ⟨l, hl⟩ := hinv.handlers
          obtain ⟨nodes', v', hpush, -⟩ := Vector.represents_push hl handler hne hlt hfree
          cases hreturns.unique (hpush.andThen (.pure _))
          rfl
      have hsent : sentBytes [.addKeyboardHandler handler node] = [] := rfl
      have hprinted : printedText [.addKeyboardHandler handler node] = [] := rfl
      rw [hsent, hprinted, List.append_nil, List.append_nil, hkeep]
      exact ⟨htyped, hstate, hinv'⟩
    | keyboardIRQ byte calls out =>
      obtain ⟨-, rfl, hout⟩ := hinv.keyboardIRQ_inv hs
      have hsent : sentBytes [.keyboardIRQ byte calls out] = [byte] := rfl
      have hprinted : printedText [.keyboardIRQ byte calls out] = out := List.append_nil out
      have hcount : (addedHandlers (ops ++ es)).count debugHandler = 1 := by
        rw [addedHandlers_append, List.count_append, hone, List.count_eq_zero_of_not_mem hadd.1]
      have hmem : debugHandler ∈ addedHandlers (ops ++ es) :=
        List.count_pos_iff.1 (hcount ▸ Nat.one_pos)
      rw [hsent, hprinted, typed_snoc, htyped, List.foldl_append, List.foldl_cons, List.foldl_nil,
        ← hstate]
      refine ⟨?_, rfl, hinv'⟩
      rcases hkey : handleKey (t.keyboardState.after byte) (byte &&& 0x7F)
        (if byte.msb then 0 else 1) with _ | cs
      · rw [printedBy_of_none hkey, if_pos hmem] at hout
        cases hout
      · rw [printedBy_of_some hkey, hcount] at hout
        have hcs : cs = out := by simpa using hout
        rw [hcs]
        rfl

/-- Other keys may be released at any time. -/
theorem typed_filter (k : KeyboardState) (bytes : List Byte) :
    typed k bytes = typed k (bytes.filter isStroke) ∧
      bytes.foldl KeyboardState.after k = (bytes.filter isStroke).foldl KeyboardState.after k := by
  induction bytes generalizing k with
  | nil => exact ⟨rfl, rfl⟩
  | cons byte bytes ih =>
    obtain ⟨htyped, hstate⟩ := ih (k.after byte)
    cases hstroke : isStroke byte with
    | true =>
      rw [List.filter_cons_of_pos hstroke, typed, typed, List.foldl_cons, List.foldl_cons]
      exact ⟨by rw [htyped], hstate⟩
    | false =>
      have hother : byte.msb = true ∧ byte ≠ 0xAA := by simpa [isStroke] using hstroke
      have hpress : byte ≠ 0x2A := by
        rintro rfl
        exact absurd hother.1 (by decide)
      have hafter : k.after byte = k := by
        rw [KeyboardState.after, if_neg hpress, if_neg hother.2]
      rw [hafter] at htyped hstate
      rw [List.filter_cons_of_neg (by simp [hstroke]), typed, List.foldl_cons, hafter, hother.1]
      refine ⟨?_, hstate⟩
      rw [← htyped]
      cases typed k bytes <;> rfl

/-- The key of a character is not the shift, and is pressed. -/
theorem makeCode_spec : ∀ c : Byte, TypedChar c →
    isStroke (makeCode c) ∧ makeCode c ≠ 0x2A ∧ makeCode c ≠ 0xAA ∧
      handleKey ⟨if needsShift c then 1 else 0⟩ (makeCode c &&& 0x7F)
        (if (makeCode c).msb then 0 else 1) = some [c] := by decide +kernel

/-- The shift prints nothing itself. -/
theorem typed_shift (k : KeyboardState) (shift : Bool) (bytes : List Byte) :
    typed k ((if shift then 0x2A else 0xAA) :: bytes) =
      typed ⟨if shift then 1 else 0⟩ bytes := by
  have hpress : handleKey ⟨1⟩ (0x2A &&& 0x7F) (if (0x2A : Byte).msb then 0 else 1) = some [] := by
    decide
  cases shift with
  | true =>
    have hafter : k.after 0x2A = ⟨1⟩ := if_pos rfl
    rw [if_pos rfl, if_pos rfl, typed, hafter, hpress]
    cases typed ⟨1⟩ bytes <;> rfl
  | false =>
    have hafter : k.after 0xAA = ⟨0⟩ := (if_neg (by decide)).trans (if_pos rfl)
    rw [if_neg Bool.false_ne_true, if_neg Bool.false_ne_true, typed, hafter]
    cases typed ⟨0⟩ bytes <;> rfl

theorem after_shift_eq (k : KeyboardState) (shift : Bool) :
    k.after (if shift then 0x2A else 0xAA) = ⟨if shift then 1 else 0⟩ := by
  cases shift <;> rfl

theorem typed_keystrokes {text : List Byte} (htext : ∀ c ∈ text, TypedChar c) (shift : Bool) :
    typed ⟨if shift then 1 else 0⟩ (keystrokes shift text) = some text ∧
      (keystrokes shift text).foldl KeyboardState.after ⟨if shift then 1 else 0⟩ = ⟨0⟩ := by
  induction text generalizing shift with
  | nil => cases shift <;> exact ⟨rfl, rfl⟩
  | cons c text ih =>
    obtain ⟨-, hpress, hrelease, hkey⟩ := makeCode_spec c (htext c List.mem_cons_self)
    obtain ⟨htyped, hstate⟩ := ih (fun d hd => htext d (List.mem_cons_of_mem c hd)) (needsShift c)
    have hafter (k : KeyboardState) : k.after (makeCode c) = k := by
      rw [KeyboardState.after, if_neg hpress, if_neg hrelease]
    -- The key itself, when the shift is as it is needed.
    have hchar : typed ⟨if needsShift c then 1 else 0⟩
        (makeCode c :: keystrokes (needsShift c) text) = some (c :: text) := by
      rw [typed, hafter, hkey, htyped]
      rfl
    rw [keystrokes]
    by_cases hshift : needsShift c = shift
    · rw [if_pos hshift, List.nil_append, List.foldl_cons, hafter]
      exact hshift ▸ ⟨hchar, hstate⟩
    · rw [if_neg hshift, List.singleton_append, typed_shift, List.foldl_cons, after_shift_eq,
        List.foldl_cons, hafter]
      exact ⟨hchar, hstate⟩

/-- A text that is typed from a state in which the shift is not held, with the other keys released
    at any time, is what is printed, and the shift is not held at its end. -/
theorem prints_typed {nodes : Nodes ℕ} {text : List Byte}
    (hr : Run (KeyboardStep debugHandler) (bootKeyboard nodes) ops s)
    (hone : (addedHandlers ops).count debugHandler = 1) (hup : ¬ShiftHeld (sentBytes ops))
    (hr' : Run (KeyboardStep debugHandler) s ops' s') (hadd : debugHandler ∉ addedHandlers ops')
    (htext : ∀ c ∈ text, TypedChar c)
    (hsent : (sentBytes ops').filter isStroke = keystrokes false text) :
    printedText ops' = text ∧ ¬ShiftHeld (sentBytes (ops ++ ops')) := by
  have hI : s.Inv ops := hr.history (fun ops s => s.Inv ops) (inv_bootKeyboard nodes)
    fun _ _ _ _ h hs => h.step hs
  have hzero : s.keyboardState = ⟨0⟩ := by
    obtain ⟨nodes, keyHandlers, ⟨leftShift⟩⟩ := s
    have hne : leftShift ≠ 1 := fun h => hup (hI.shift.1 h)
    have hall : ∀ b : BitVec 1, b ≠ 1 → b = 0 := by decide
    rw [hall leftShift hne]
  obtain ⟨hprinted, hstate, hI'⟩ := typed_of_run hI hone hr' hadd
  obtain ⟨htyped, hfinal⟩ := typed_filter s.keyboardState (sentBytes ops')
  obtain ⟨hkeys, hend⟩ := typed_keystrokes htext false
  rw [hzero, hsent] at htyped hfinal
  refine ⟨?_, fun hheld => ?_⟩
  · rw [hzero, htyped] at hprinted
    exact (Option.some.inj (hkeys.symm.trans hprinted)).symm
  · have hone := hI'.shift.2 hheld
    rw [hstate, hzero, hfinal] at hone
    exact absurd ((congrArg KeyboardState.leftShift hend).symm.trans hone) (by decide)

end SmartOS
