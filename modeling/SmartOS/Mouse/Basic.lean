import SmartOS.Bytes

/-!
# The mouse

The interrupt handler of `Mouse.cpp`. The mouse sends packets of three bytes, one
with every interrupt: `mouseCycle` counts them, and the second and the third one
move the position. A byte read as `int8_t` is signed (`BitVec.toInt`).

`mouse_clamped` is where the mouse can be, whatever it sends.
-/

namespace SmartOS

open Prog

structure Mouse where
  mouseX : ℤ
  mouseY : ℤ
  mouseCycle : ℕ
  byte0 : Byte
  deriving Repr, DecidableEq

/-- `mouseInterrupt(regs)`, when `byte` is read from port 0x60. -/
def mouseInterrupt (m : Mouse) (byte : Byte) : Mouse :=
  match m.mouseCycle with
  | 0 => { m with byte0 := byte, mouseCycle := m.mouseCycle + 1 }
  | 1 => { m with
      mouseX := min (max (m.mouseX + byte.toInt) 0) 1920, mouseCycle := m.mouseCycle + 1 }
  | 2 => { m with mouseY := min (max (m.mouseY - byte.toInt) 0) 1080, mouseCycle := 0 }
  | _ => m

/-- The mouse, as `initializeMouse` leaves it. -/
def initialMouse : Mouse := ⟨50, 50, 0, 0⟩

/-- The mouse, when it has sent these bytes. -/
def mouseAfter (bytes : List Byte) : Mouse := bytes.foldl mouseInterrupt initialMouse

/-- The position is on the screen, or just beyond its right or its lower edge. -/
structure Mouse.Clamped (m : Mouse) : Prop where
  left : 0 ≤ m.mouseX
  right : m.mouseX ≤ 1920
  top : 0 ≤ m.mouseY
  bottom : m.mouseY ≤ 1080

theorem clamped_mouseInterrupt {m : Mouse} (h : m.Clamped) (byte : Byte) :
    (mouseInterrupt m byte).Clamped := by
  have hclamp (a b : ℤ) (hb : 0 ≤ b) : 0 ≤ min (max a 0) b ∧ min (max a 0) b ≤ b :=
    ⟨le_min (le_max_right a 0) hb, min_le_right _ b⟩
  rw [mouseInterrupt]
  split
  · exact ⟨h.left, h.right, h.top, h.bottom⟩
  · exact ⟨(hclamp _ 1920 (by decide)).1, (hclamp _ 1920 (by decide)).2, h.top, h.bottom⟩
  · exact ⟨h.left, h.right, (hclamp _ 1080 (by decide)).1, (hclamp _ 1080 (by decide)).2⟩
  · exact h

theorem mouse_clamped (bytes : List Byte) : (mouseAfter bytes).Clamped := by
  rw [mouseAfter]
  induction bytes using List.reverseRecOn with
  | nil => exact ⟨by decide, by decide, by decide, by decide⟩
  | append_singleton bytes byte ih =>
    rw [List.foldl_append]
    exact clamped_mouseInterrupt ih byte

end SmartOS
