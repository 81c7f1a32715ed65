import SmartOS.Mouse.Basic

/-!
# The packets of the mouse

A packet is three bytes: flags, and the low eight bits of the movement along each
axis. The ninth bits, the signs, are two of the flags (`Packet`), so that a movement
goes from -256 to 255 (`Packet.dx`, `Packet.dy`). The last pixel of the screen is
(1919, 1079).

The handler reads the second and the third byte as signed bytes, and never looks
at the flags, and it clamps to 1920 and 1080, one beyond the last pixel. From where
`mouse_clamped` keeps the mouse, no sum that it computes overflows an `int`.

* `mouse_packet`: what the handler does with a whole packet;
* `EndsRight`: what of a movement makes the position come out right all the same;
* `mouse_follows_iff`: the position follows a stream of packets when every packet
  of it is such a movement, from where the mouse is then.
-/

namespace SmartOS

open Prog

/-- A packet of the mouse, without an overflow of either movement. -/
structure Packet where
  byte0 : Byte
  byte1 : Byte
  byte2 : Byte
  /-- The bits 6 and 7, for an overflow, are clear. -/
  no_overflow : byte0 &&& 0xC0 = 0

namespace Packet

/-- A movement of nine bits in two's complement, of its sign and its low byte. -/
def movement (sign : Bool) (low : Byte) : ℤ := low.toNat - if sign then 256 else 0

def dx (p : Packet) : ℤ := movement (p.byte0.getLsbD 4) p.byte1

def dy (p : Packet) : ℤ := movement (p.byte0.getLsbD 5) p.byte2

/-- The bytes, in the order in which they are sent. -/
def bytes (p : Packet) : List Byte := [p.byte0, p.byte1, p.byte2]

/-- A movement, and its low byte as a signed one, which is all that the handler reads. -/
theorem movement_cases (sign : Bool) (low : Byte) :
    (-128 ≤ movement sign low ∧ movement sign low < 128 ∧ low.toInt = movement sign low) ∨
    (128 ≤ movement sign low ∧ low.toInt = movement sign low - 256) ∨
    (movement sign low < -128 ∧ low.toInt = movement sign low + 256) := by
  have hlt := low.isLt
  rw [BitVec.toInt_eq_toNat_cond, movement]
  cases sign <;> simp only [if_true, if_false, Bool.false_eq_true] <;> split <;> omega

end Packet

/-- The mouse, when it has sent these packets. -/
def receive (m : Mouse) (ps : List Packet) : Mouse :=
  (ps.flatMap Packet.bytes).foldl mouseInterrupt m

/-- After every packet, the position is the one before it, moved and clamped to the screen. -/
def FollowsPackets (m : Mouse) (ps : List Packet) : Prop :=
  ∀ before p after, ps = before ++ p :: after →
    (receive m (before ++ [p])).mouseX = min (max ((receive m before).mouseX + p.dx) 0) 1919 ∧
    (receive m (before ++ [p])).mouseY = min (max ((receive m before).mouseY - p.dy) 0) 1079

/-- A movement by `move`, which the packet gives as `d`, from `x`, of an axis up to `last`:

* one that a signed byte can hold does not go beyond the last pixel;
* one that it cannot is taken for the one 256 further, against the direction. This comes
  out right where both end at the first pixel, or where it leads to the last one. -/
def EndsRight (d move x last : ℤ) : Prop :=
  (-128 ≤ d ∧ d < 128 ∧ x + move ≤ last) ∨
  ((d < -128 ∨ 128 ≤ d) ∧ 0 < move ∧ (x + move ≤ 0 ∨ x + move = last + 256)) ∨
  ((d < -128 ∨ 128 ≤ d) ∧ move < 0 ∧ x + move ≤ -256)

/-- The packet moves the mouse right, when it is where `m` says. -/
def Packet.EndsRight (p : Packet) (m : Mouse) : Prop :=
  SmartOS.EndsRight p.dx p.dx m.mouseX 1919 ∧ SmartOS.EndsRight p.dy (-p.dy) m.mouseY 1079

theorem receive_append (m : Mouse) (ps qs : List Packet) :
    receive m (ps ++ qs) = receive (receive m ps) qs := by
  rw [receive, List.flatMap_append, List.foldl_append, ← receive, ← receive]

/-- What the handler does with a whole packet. -/
theorem mouse_packet (p : Packet) {m : Mouse} (hm : m.mouseCycle = 0) :
    receive m [p] = ⟨min (max (m.mouseX + p.byte1.toInt) 0) 1920,
      min (max (m.mouseY - p.byte2.toInt) 0) 1080, 0, p.byte0⟩ := by
  obtain ⟨x, y, c, b⟩ := m
  obtain rfl : c = 0 := hm
  simp [receive, Packet.bytes, mouseInterrupt]

/-- Between packets, the handler waits for the first byte of one. -/
theorem mouseCycle_receive {m : Mouse} (hm : m.mouseCycle = 0) (ps : List Packet) :
    (receive m ps).mouseCycle = 0 := by
  induction ps using List.reverseRecOn with
  | nil => exact hm
  | append_singleton ps p ih => rw [receive_append, mouse_packet p ih]

/-- Two movements that are clamped one pixel apart. -/
theorem clamp_eq_clamp_iff (a b last : ℤ) (hlast : 0 < last) :
    min (max a 0) (last + 1) = min (max b 0) last ↔
      (a ≤ 0 ∧ b ≤ 0) ∨ (a = b ∧ a ≤ last) ∨ (a = last ∧ last ≤ b) := by
  omega

theorem moveX_right_iff (p : Packet) (x : ℤ) :
    min (max (x + p.byte1.toInt) 0) 1920 = min (max (x + p.dx) 0) 1919 ↔
      EndsRight p.dx p.dx x 1919 := by
  refine (clamp_eq_clamp_iff _ _ 1919 (by decide)).trans ?_
  rw [EndsRight]
  rcases Packet.movement_cases (p.byte0.getLsbD 4) p.byte1 with h | h | h <;>
    rw [← Packet.dx] at h <;> omega

theorem moveY_right_iff (p : Packet) (y : ℤ) :
    min (max (y - p.byte2.toInt) 0) 1080 = min (max (y - p.dy) 0) 1079 ↔
      EndsRight p.dy (-p.dy) y 1079 := by
  refine (clamp_eq_clamp_iff _ _ 1079 (by decide)).trans ?_
  rw [EndsRight]
  rcases Packet.movement_cases (p.byte0.getLsbD 5) p.byte2 with h | h | h <;>
    rw [← Packet.dy] at h <;> omega

/-- The mouse follows a stream of packets exactly when every one of them is a movement that a
signed byte can hold, and that stays on the screen, or comes out right by chance. -/
theorem mouse_follows_iff (m : Mouse) (hm : m.mouseCycle = 0) (ps : List Packet) :
    FollowsPackets m ps ↔
      ∀ before p after, ps = before ++ p :: after → p.EndsRight (receive m before) := by
  refine forall₄_congr fun before p after _ => ?_
  rw [receive_append, mouse_packet p (mouseCycle_receive hm before)]
  exact and_congr (moveX_right_iff p _) (moveY_right_iff p _)

/-- Slow movements, a little to the left and up, and then to the right and down. -/
def slowPackets : List Packet :=
  [⟨0x18, 0xF6, 0x05, by decide⟩, ⟨0x28, 0x14, 0xFC, by decide⟩]

theorem mouse_follows_slow :
    initialMouse.mouseCycle = 0 ∧ FollowsPackets initialMouse slowPackets := by
  refine ⟨rfl, (mouse_follows_iff initialMouse rfl slowPackets).2 fun before p after h => ?_⟩
  cases before with
  | nil =>
    obtain ⟨rfl, -⟩ := List.cons.inj h
    exact ⟨.inl (by decide), .inl (by decide)⟩
  | cons q before =>
    obtain ⟨rfl, htail⟩ := List.cons.inj h
    cases before with
    | nil =>
      obtain ⟨rfl, -⟩ := List.cons.inj htail
      exact ⟨.inl (by decide), .inl (by decide)⟩
    | cons r before => simp at htail

/-- A packet of a slow movement, and one of a fast movement to the right, which is read as one by
56 to the left. -/
def slowAndFast : List Packet :=
  [⟨0x18, 0xF6, 0x05, by decide⟩, ⟨0x08, 0xC8, 0x00, by decide⟩]

theorem mouse_goes_astray :
    ¬ ∀ (m : Mouse) (ps : List Packet), m.mouseCycle = 0 → FollowsPackets m ps := by
  intro h
  have hpacket := (h initialMouse slowAndFast rfl [⟨0x18, 0xF6, 0x05, by decide⟩]
    ⟨0x08, 0xC8, 0x00, by decide⟩ [] rfl).1
  revert hpacket
  decide

end SmartOS
