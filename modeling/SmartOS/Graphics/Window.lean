import SmartOS.MMU.Basic
import SmartOS.Graphics.Compose

/-!
# Drawing in a window

`Window::fillRect` and `Window::drawChar` (`Graphics.cpp`) go through the rows of a
box with an offset in the framebuffer, as `graphicsUpdate` does, and clip it neither:
a pixel beyond the right edge of the window is the first one of the next row, and one
below the lower edge lies behind the framebuffer.

* `fillRows_eq_draw`: the loops draw the pixels of the box that are to be drawn;
* `confined_of_inside`: calls that draw within the window only draw there, and in
  their own boxes;
* `forall_pixelIn_fillRect`: a rectangle that crosses an edge is always drawn
  elsewhere, too.
-/

namespace SmartOS

open Prog

/-! ## Functions -/

structure Font where
  glyphs : Mem
  fontSizeX : ℕ
  fontSizeY : ℕ
  bytesPerGlyph : ℕ

/-- The bytes from `&glyphs[idx]` on. -/
def Font.getCharacterGlyph (font : Font) (c : Byte) : Mem := fun i =>
  font.glyphs (wrap (c.toNat * font.bytesPerGlyph) + i)

/-- `glyph[i] & (1 << j)`, as a condition. -/
def glyphBit (undef : ℕ → BitVec 32) (glyph : Mem) (i j : ℕ) : Bool :=
  (glyph i).setWidth 32 &&& intShift undef j != 0

/-- A row: the pixels that are `shown` are coloured, from index `dest` on. -/
def Buffer.fillRow (color : ℕ) (shown : ℕ → Bool) (w dest : ℕ) (b : Buffer) : Buffer :=
  (List.range w).foldl (fun b j => if shown j then b.store (wrap (dest + j)) color else b) b

/-- As many rows: the offset goes on by the width of the window. -/
def Buffer.fillRows (width color : ℕ) (shown : ℕ → ℕ → Bool) (w h dest : ℕ) (b : Buffer) : Buffer :=
  ((List.range h).foldl (fun (b, dest) i =>
    (b.fillRow color (shown i) w dest, wrap (dest + width))) (b, dest)).1

/-- `framebuffer[where + j] = color` -/
def Window.fillRect (win : Window) (x y w h color : ℕ) (b : Buffer) : Buffer :=
  b.fillRows win.width color (fun _ _ => true) w h (wrap (y * win.width + x))

/-- `if (glyph[i] & (1 << j)) framebuffer[where + j] = color` -/
def Window.drawChar (undef : ℕ → BitVec 32) (win : Window) (x y : ℕ) (c : Byte) (color : ℕ)
    (font : Font) (b : Buffer) : Buffer :=
  b.fillRows win.width color (glyphBit undef (font.getCharacterGlyph c)) font.fontSizeX
    font.fontSizeY (wrap (y * win.width + x))

/-! ## Calls -/

inductive DrawCall
  | fillRect (x y w h color : ℕ)
  | drawChar (x y : ℕ) (c : Byte) (color : ℕ) (font : Font)

variable (undef : ℕ → BitVec 32)

def DrawCall.draw (win : Window) (b : Buffer) : DrawCall → Buffer
  | fillRect x y w h color => win.fillRect x y w h color b
  | drawChar x y c color font => win.drawChar undef x y c color font b

/-- The framebuffer after some calls. -/
def Window.drawAll (win : Window) (calls : List DrawCall) : Buffer :=
  calls.foldl (DrawCall.draw undef win) ⟨win.framebuffer, []⟩

/-- The rectangle of the call, or the box of its glyph. -/
def DrawCall.Box (px py : ℕ) : DrawCall → Prop
  | fillRect x y w h _ => x ≤ px ∧ px < x + w ∧ y ≤ py ∧ py < y + h
  | drawChar x y _ _ font => x ≤ px ∧ px < x + font.fontSizeX ∧ y ≤ py ∧ py < y + font.fontSizeY

/-- The index is that of a pixel of the window that has the property. -/
def Window.PixelIn (win : Window) (box : ℕ → ℕ → Prop) (k : ℕ) : Prop :=
  ∃ px < win.width, ∃ py < win.height, box px py ∧ k = py * win.width + px

/-- Calls write only to the framebuffer, each to the pixels of its own box. -/
structure Confined (win : Window) (calls : List DrawCall) : Prop where
  written : ∀ k ∈ (win.drawAll undef calls).written, k < win.width * win.height
  box : ∀ before call after, calls = before ++ call :: after → ∀ k,
    k ∈ (call.draw undef win ⟨(win.drawAll undef before).words, []⟩).written ∨
        (win.drawAll undef (before ++ [call])).words k ≠ (win.drawAll undef before).words k →
      win.PixelIn call.Box k

/-- A rectangle within the edges of the window, or a glyph none of whose pixels that are drawn is
    beyond them. -/
def DrawCall.Inside (win : Window) : DrawCall → Prop
  | fillRect x y w h _ => w = 0 ∨ h = 0 ∨ x + w ≤ win.width ∧ y + h ≤ win.height
  | drawChar x y c _ font => ∀ i < font.fontSizeY, ∀ j < font.fontSizeX,
      glyphBit undef (font.getCharacterGlyph c) i j →
        x + j < win.width ∧ y + i < win.height

variable {undef} {win : Window} {b : Buffer} {width color w h x y i j k dest : ℕ}
  {shown : ℕ → ℕ → Bool} {calls : List DrawCall} {call : DrawCall}

/-! ## Boxes -/

/-- The pixels that are drawn in row `i` of a box. -/
def boxRow (width color : ℕ) (shown : ℕ → ℕ → Bool) (x y w i : ℕ) : List Stroke :=
  ((List.range w).filter (shown i)).map fun j =>
    ⟨x + j, y + i, wrap ((y + i) * width + (x + j)), color⟩

theorem fillRow_eq_draw : b.fillRow color (shown i) w (wrap ((y + i) * width + x)) =
    b.draw (boxRow width color shown x y w i) := by
  rw [Buffer.fillRow, Buffer.draw, boxRow, List.foldl_map, List.foldl_filter]
  congr 1
  funext b j
  rw [wrap_wrap_add, add_assoc]

/-- The loops draw the pixels of the box. -/
theorem fillRows_eq_draw : b.fillRows width color shown w h (wrap (y * width + x)) =
    b.draw ((List.range h).flatMap (boxRow width color shown x y w)) := by
  -- After each row, the offset is that of the next one.
  have hrows : (List.range h).foldl (fun (b, dest) i =>
      (b.fillRow color (shown i) w dest, wrap (dest + width))) (b, wrap (y * width + x)) =
      (b.draw ((List.range h).flatMap (boxRow width color shown x y w)),
        wrap ((y + h) * width + x)) := by
    induction h with
    | zero => rfl
    | succ h ih =>
      have hdest : wrap (wrap ((y + h) * width + x) + width) =
          wrap ((y + (h + 1)) * width + x) := by
        rw [wrap_wrap_add]
        ring_nf
      rw [List.range_succ, List.foldl_append, ih, List.foldl_cons, List.foldl_nil]
      dsimp only
      rw [fillRow_eq_draw, hdest, List.flatMap_append, List.flatMap_singleton, draw_append]
  rw [Buffer.fillRows, hrows]

/-- The index is that of a pixel which is drawn. -/
def FilledAt (width : ℕ) (shown : ℕ → ℕ → Bool) (x y w h k : ℕ) : Prop :=
  ∃ i < h, ∃ j < w, shown i j ∧ wrap ((y + i) * width + (x + j)) = k

instance : Decidable (FilledAt width shown x y w h k) :=
  inferInstanceAs (Decidable (∃ i < h, ∃ j < w, _ ∧ _))

theorem exists_mem_box : (∃ s ∈ (List.range h).flatMap (boxRow width color shown x y w),
    s.index = k) ↔ FilledAt width shown x y w h k := by
  simp only [boxRow, List.mem_flatMap, List.mem_map, List.mem_filter, List.mem_range, FilledAt]
  constructor
  · rintro ⟨-, ⟨i, hi, j, ⟨hj, hshown⟩, rfl⟩, hindex⟩
    exact ⟨i, hi, j, hj, hshown, hindex⟩
  · rintro ⟨i, hi, j, hj, hshown, hindex⟩
    exact ⟨_, ⟨i, hi, j, ⟨hj, hshown⟩, rfl⟩, hindex⟩

theorem mem_written_fillRows :
    k ∈ (b.fillRows width color shown w h (wrap (y * width + x))).written ↔
      FilledAt width shown x y w h k ∨ k ∈ b.written := by
  rw [fillRows_eq_draw, mem_written_draw, exists_mem_box]

theorem words_fillRows : (b.fillRows width color shown w h (wrap (y * width + x))).words k =
    if FilledAt width shown x y w h k then color else b.words k := by
  rw [fillRows_eq_draw, words_draw]
  split_ifs with hfilled
  · refine paint_of_unique (exists_mem_box.2 hfilled) fun s hs _ => ?_
    obtain ⟨i, -, hs⟩ := List.mem_flatMap.1 hs
    obtain ⟨j, -, rfl⟩ := List.mem_map.1 hs
    rfl
  · exact paint_of_ne fun s hs hindex => hfilled (exists_mem_box.1 ⟨s, hs, hindex⟩)

/-! ## Calls within the window -/

/-- The index is that of a pixel which the call draws. -/
def DrawCall.FilledAt (undef : ℕ → BitVec 32) (win : Window) (k : ℕ) : DrawCall → Prop
  | fillRect x y w h _ => SmartOS.FilledAt win.width (fun _ _ => true) x y w h k
  | drawChar x y c _ font => SmartOS.FilledAt win.width
      (glyphBit undef (font.getCharacterGlyph c)) x y font.fontSizeX font.fontSizeY k

theorem mem_written_call :
    k ∈ (call.draw undef win b).written ↔ call.FilledAt undef win k ∨ k ∈ b.written := by
  cases call <;> exact mem_written_fillRows

theorem words_call (hk : ¬call.FilledAt undef win k) :
    (call.draw undef win b).words k = b.words k := by
  cases call with
  | fillRect x y w h color => exact words_fillRows.trans (if_neg hk)
  | drawChar x y c color font => exact words_fillRows.trans (if_neg hk)

theorem drawAll_concat (calls : List DrawCall) (call : DrawCall) :
    win.drawAll undef (calls ++ [call]) = call.draw undef win (win.drawAll undef calls) := by
  rw [Window.drawAll, List.foldl_append, ← Window.drawAll, List.foldl_cons, List.foldl_nil]

/-- What is written by all calls. -/
theorem mem_written_drawAll : k ∈ (win.drawAll undef calls).written ↔
    ∃ call ∈ calls, call.FilledAt undef win k := by
  induction calls using List.reverseRecOn with
  | nil => simp [Window.drawAll]
  | append_singleton calls call ih =>
    rw [drawAll_concat, mem_written_call, ih]
    simp [or_and_right, exists_or, or_comm]

theorem Window.PixelIn.lt {box : ℕ → ℕ → Prop} (hk : win.PixelIn box k) :
    k < win.width * win.height := by
  obtain ⟨px, hpx, py, hpy, -, rfl⟩ := hk
  exact place_lt hpx hpy

/-- Two pixels of a box have two indices. -/
theorem box_inj {i' j' : ℕ} (hj : x + j < width) (hj' : x + j' < width)
    (hindex : (y + i) * width + (x + j) = (y + i') * width + (x + j')) : i = i' ∧ j = j' := by
  obtain ⟨hx, hy⟩ := place_inj hj hj' hindex
  exact ⟨Nat.add_left_cancel hy, Nat.add_left_cancel hx⟩

section

variable (hsize : win.width * win.height ≤ 2 ^ 64)
include hsize

/-- A pixel of a box within the edges is drawn at its own index, and at no other one. -/
theorem filledAt_place (hright : x + w ≤ win.width) (hbottom : y + h ≤ win.height) (hi : i < h)
    (hj : j < w) :
    FilledAt win.width shown x y w h ((y + i) * win.width + (x + j)) ↔ shown i j := by
  constructor
  · rintro ⟨i', hi', j', hj', hshown, hindex⟩
    rw [wrap_place hsize (by omega) (by omega)] at hindex
    obtain ⟨rfl, rfl⟩ := box_inj (by omega) (by omega) hindex
    exact hshown
  · intro hshown
    exact ⟨i, hi, j, hj, hshown, wrap_place hsize (by omega) (by omega)⟩

/-- What is drawn of a box is in it, if it is within the edges. -/
theorem FilledAt.pixelIn (hk : FilledAt win.width shown x y w h k)
    (hfit : ∀ i < h, ∀ j < w, shown i j → x + j < win.width ∧ y + i < win.height) :
    win.PixelIn (fun px py => x ≤ px ∧ px < x + w ∧ y ≤ py ∧ py < y + h) k := by
  obtain ⟨i, hi, j, hj, hshown, rfl⟩ := hk
  obtain ⟨hx, hy⟩ := hfit i hi j hj hshown
  exact ⟨x + j, hx, y + i, hy, ⟨by omega, by omega, by omega, by omega⟩, wrap_place hsize hx hy⟩

theorem pixelIn_of_filledAt (hinside : call.Inside undef win) (hk : call.FilledAt undef win k) :
    win.PixelIn call.Box k := by
  cases call with
  | fillRect x y w h color =>
    refine FilledAt.pixelIn hsize hk fun i hi j hj _ => ?_
    obtain ⟨hright, hbottom⟩ := (hinside.resolve_left (by omega)).resolve_left (by omega)
    exact ⟨by omega, by omega⟩
  | drawChar x y c color font => exact FilledAt.pixelIn hsize hk hinside

/-- Whatever is drawn within the window is confined to it, and to its own box. -/
theorem confined_of_inside (hinside : ∀ call ∈ calls, call.Inside undef win) :
    Confined undef win calls := by
  constructor
  · intro k hk
    obtain ⟨call, hcall, hk⟩ := mem_written_drawAll.1 hk
    exact (pixelIn_of_filledAt hsize (hinside call hcall) hk).lt
  · rintro before call after rfl k hk
    refine pixelIn_of_filledAt hsize (hinside call (by simp)) ?_
    rcases hk with hk | hk
    · exact (mem_written_call.1 hk).resolve_right List.not_mem_nil
    · rw [drawAll_concat] at hk
      by_contra hfilled
      exact hk (words_call hfilled)

end

/-- A font of squares, eight pixels wide. -/
def squareFont : Font := ⟨fun _ => 0xFF, 8, 8, 8⟩

/-- A window that is filled, with a square in its lower right corner. -/
theorem confined_square : Confined (fun _ => 0) ⟨fun _ => 0xFFFFFFFF, 0, 0, 20, 10⟩
    [.fillRect 0 0 20 10 0, .drawChar 12 2 72 0xFF squareFont] := by
  refine confined_of_inside (by decide)
    (List.forall_mem_cons.2 ⟨?_, List.forall_mem_singleton.2 ?_⟩)
  · exact .inr (.inr ⟨le_rfl, le_rfl⟩)
  · intro i hi j hj _
    exact ⟨Nat.add_lt_add_left hj 12, Nat.add_lt_add_left hi 2⟩

/-- A rectangle of two pixels in the upper right corner of a window of four: the second one is
    drawn at the start of the next row. -/
theorem not_confined : ¬∀ (undef : ℕ → BitVec 32) (win : Window) (calls : List DrawCall),
    win.width * win.height ≤ 2 ^ 64 → Confined undef win calls := by
  intro hall
  have hbox := (hall (fun _ => 0) ⟨fun _ => 0xFFFFFFFF, 0, 0, 2, 2⟩ [.fillRect 1 0 2 1 0]
    (by decide)).box [] _ [] rfl 2
  have hfilled : FilledAt 2 (fun _ _ => true) 1 0 2 1 2 := ⟨0, by decide, 1, by decide, rfl,
    wrap_of_lt (by decide)⟩
  obtain ⟨px, hpx, py, hpy, hin, hindex⟩ := hbox (.inl (mem_written_call.2 (.inl hfilled)))
  obtain ⟨-, -, -, hrow⟩ := hin
  dsimp only at hpx hindex
  omega

/-- A rectangle that is not within the edges is drawn elsewhere, too: below the last row, or at the
    start of the row under its own last one. -/
theorem forall_pixelIn_fillRect (hsize : 2 * (win.width * win.height) ≤ 2 ^ 64) :
    (∀ k, (DrawCall.fillRect x y w h color).FilledAt undef win k →
        win.PixelIn (DrawCall.fillRect x y w h color).Box k) ↔
      (DrawCall.fillRect x y w h color).Inside undef win := by
  refine ⟨fun hall => ?_, fun hinside k hk => pixelIn_of_filledAt (by omega) hinside hk⟩
  by_cases hempty : w = 0 ∨ h = 0
  · exact hempty.elim .inl fun h => .inr (.inl h)
  have hpixel (i : ℕ) (hi : i < h) (j : ℕ) (hj : j < w) :=
    hall _ ⟨i, hi, j, hj, rfl, rfl⟩
  obtain ⟨px, hpx, py, hpy, ⟨hx, -, hy, -⟩, -⟩ := hpixel 0 (by omega) 0 (by omega)
  have hxw : x < win.width := hx.trans_lt hpx
  have hyh : y < win.height := hy.trans_lt hpy
  have hbottom : y + h ≤ win.height := by
    by_contra hbottom
    have hlt := (hpixel (win.height - y) (by omega) 0 (by omega)).lt
    have hindex : (y + (win.height - y)) * win.width + (x + 0) =
        win.width * win.height + x := by
      rw [Nat.add_sub_cancel' hyh.le, Nat.mul_comm, Nat.add_zero]
    have hle := Nat.le_mul_of_pos_right win.width (Nat.zero_lt_of_lt hyh)
    rw [hindex, wrap_of_lt (by omega)] at hlt
    omega
  refine .inr (.inr ⟨?_, hbottom⟩)
  by_contra hright
  obtain ⟨px, hpx, py, -, ⟨-, -, -, hbelow⟩, hindex⟩ :=
    hpixel (h - 1) (by omega) (win.width - x) (by omega)
  have hrow : (y + (h - 1)) * win.width + (x + (win.width - x)) = (y + h) * win.width := by
    rw [Nat.add_sub_cancel' hxw.le, ← Nat.succ_mul]
    congr 1
    omega
  have hle : (y + h) * win.width ≤ win.width * win.height :=
    Nat.mul_comm win.width _ ▸ Nat.mul_le_mul_left win.width hbottom
  rw [hrow, wrap_of_lt (by omega)] at hindex
  obtain ⟨-, rfl⟩ := place_inj (Nat.zero_lt_of_lt hxw) hpx hindex
  exact lt_irrefl _ hbelow

end SmartOS
