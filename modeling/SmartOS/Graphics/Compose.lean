import SmartOS.Lib.Paint
import SmartOS.Graphics.Basic

/-!
# The picture on the screen

A window and the cursor are rectangles of pixels in the plane of the screen
(`Sprite`). What should be seen at a place is the cursor, where it has a pixel
there that is visible, or else the last window there is (`shownAt`); what is
drawn is all of their pixels, one after another (`Sprite.strokes`). Nothing is
clipped: a pixel that lies beyond an edge is drawn at its index all the same,
which may be that of another place, or of none.

* `draw_blit`: the loops draw the strokes of a sprite;
* `paint_sprites`: those of its strokes that lie on the screen show what should
  be seen;
* `composed_iff`: so the picture is right if and only if the other ones do no
  harm (`Harmless`).
-/

namespace SmartOS

open Prog

/-! ## Specification -/

/-- A rectangle of pixels, with its place in the plane of the screen. -/
structure Sprite where
  x : ℕ
  y : ℕ
  width : ℕ
  height : ℕ
  pixel : ℕ → Option ℕ

def Window.sprite (w : Window) : Sprite :=
  ⟨w.windowX, w.windowY, w.width, w.height, fun i => some (w.framebuffer i)⟩

def Icon.sprite (icon : Icon) (mouse : Mouse) : Sprite :=
  ⟨mouse.mouseX.toNat, mouse.mouseY.toNat, icon.width, icon.height, icon.visible⟩

/-- The pixel of the sprite that covers `(x, y)`. -/
def Sprite.pixelAt (s : Sprite) (x y : ℕ) : Option ℕ :=
  if s.x ≤ x ∧ x < s.x + s.width ∧ s.y ≤ y ∧ y < s.y + s.height then
    s.pixel (wrap ((y - s.y) * s.width + (x - s.x)))
  else none

/-- The pixel of the last window that covers `(x, y)`. -/
def windowAt (g : Graphics) (x y : ℕ) : Option ℕ :=
  (g.windows.filterMap fun w => w.sprite.pixelAt x y).getLast?

/-- The visible pixel of the cursor that covers `(x, y)`. -/
def cursorAt (mouse : Mouse) (g : Graphics) (x y : ℕ) : Option ℕ :=
  if g.cursorInitialized then (g.cursor.sprite mouse).pixelAt x y else none

/-- What should be seen at `(x, y)`. -/
def shownAt (mouse : Mouse) (g : Graphics) (x y : ℕ) : ℕ :=
  ((cursorAt mouse g x y).or (windowAt g x y)).getD 0

/-- A pass writes only to the framebuffers, and shows what should be seen. -/
structure Composed (mouse : Mouse) (g : Graphics) : Prop where
  secondary : ∀ i ∈ (graphicsUpdate mouse g).secondary.written,
    i < g.graphicsWidth * g.graphicsHeight
  framebuffer : ∀ i ∈ (graphicsUpdate mouse g).framebuffer.written,
    i < g.graphicsWidth * g.graphicsHeight
  picture : ∀ x < g.graphicsWidth, ∀ y < g.graphicsHeight,
    (graphicsUpdate mouse g).framebuffer.words (y * g.graphicsWidth + x) = shownAt mouse g x y

/-! ## Strokes -/

/-- A pixel that is drawn: its place in the plane, and the index that it is written at. -/
structure Stroke where
  x : ℕ
  y : ℕ
  index : ℕ
  colour : ℕ
  deriving DecidableEq

def Sprite.rowStrokes (graphicsWidth : ℕ) (s : Sprite) (j : ℕ) : List Stroke :=
  (List.range s.width).filterMap fun k => (s.pixel (wrap (j * s.width + k))).map fun c =>
    ⟨s.x + k, s.y + j, wrap ((s.y + j) * graphicsWidth + (s.x + k)), c⟩

/-- The pixels of the sprite, row by row. -/
def Sprite.strokes (graphicsWidth : ℕ) (s : Sprite) : List Stroke :=
  (List.range' 0 s.height).flatMap (s.rowStrokes graphicsWidth)

/-- What is drawn over a screen that has been cleared. -/
def sprites (mouse : Mouse) (g : Graphics) : List Sprite :=
  g.windows.map Window.sprite ++ if g.cursorInitialized then [g.cursor.sprite mouse] else []

def strokes (mouse : Mouse) (g : Graphics) : List Stroke :=
  (sprites mouse g).flatMap (Sprite.strokes g.graphicsWidth)

/-- The pixel lies within the edges of the screen. -/
def Stroke.OnScreen (s : Stroke) (g : Graphics) : Prop :=
  s.x < g.graphicsWidth ∧ s.y < g.graphicsHeight

instance (s : Stroke) (g : Graphics) : Decidable (s.OnScreen g) := instDecidableAnd

/-- Every pixel that is drawn beyond an edge falls on an index of the framebuffer where it is drawn
    over, or has the colour that should be seen there. -/
def Harmless (mouse : Mouse) (g : Graphics) : Prop :=
  ∀ before s after, strokes mouse g = before ++ s :: after → ¬s.OnScreen g →
    s.index < g.graphicsWidth * g.graphicsHeight ∧
      ((∃ s' ∈ after, s'.index = s.index) ∨
        s.colour = shownAt mouse g (s.index % g.graphicsWidth) (s.index / g.graphicsWidth))

def Buffer.draw (b : Buffer) (l : List Stroke) : Buffer :=
  l.foldl (fun b s => b.store s.index s.colour) b

variable {mouse : Mouse} {g : Graphics} {b : Buffer} {s : Sprite} {st : Stroke} {l l' : List Stroke}
  {graphicsWidth x y i : ℕ}

theorem draw_append : b.draw (l ++ l') = (b.draw l).draw l' := List.foldl_append

theorem words_draw : (b.draw l).words = paint Stroke.index Stroke.colour b.words l := by
  induction l generalizing b with
  | nil => rfl
  | cons s l ih => exact ih

theorem mem_written_draw : i ∈ (b.draw l).written ↔ (∃ s ∈ l, s.index = i) ∨ i ∈ b.written := by
  induction l generalizing b with
  | nil => simp [Buffer.draw]
  | cons s l ih =>
    have hdraw : b.draw (s :: l) = (b.store s.index s.colour).draw l := rfl
    rw [hdraw, ih, Buffer.store, List.mem_cons, List.exists_mem_cons_iff]
    constructor
    · rintro (h | rfl | h)
      · exact .inl (.inr h)
      · exact .inl (.inl rfl)
      · exact .inr h
    · rintro ((rfl | h) | h)
      · exact .inr (.inl rfl)
      · exact .inl h
      · exact .inr (.inr h)

theorem wrap_wrap_add (a c : ℕ) : wrap (wrap a + c) = wrap (a + c) := by
  rw [wrap_eq_mod, wrap_eq_mod, wrap_eq_mod, Nat.mod_add_mod]

theorem row_eq_draw (j : ℕ) :
    b.row s.width s.pixel (wrap ((s.y + j) * graphicsWidth + s.x)) (wrap (j * s.width)) =
      b.draw (s.rowStrokes graphicsWidth j) := by
  rw [Buffer.row, Buffer.draw, Sprite.rowStrokes, List.foldl_filterMap]
  congr 1
  funext b k
  rw [wrap_wrap_add, wrap_wrap_add, add_assoc]
  cases s.pixel (wrap (j * s.width + k)) <;> rfl

theorem blit_eq_draw (height j : ℕ) :
    b.blit graphicsWidth s.width s.pixel height (wrap ((s.y + j) * graphicsWidth + s.x))
        (wrap (j * s.width)) =
      b.draw ((List.range' j height).flatMap (s.rowStrokes graphicsWidth)) := by
  induction height generalizing j b with
  | zero => rfl
  | succ height ih =>
    have hdest : wrap (wrap ((s.y + j) * graphicsWidth + s.x) + graphicsWidth) =
        wrap ((s.y + (j + 1)) * graphicsWidth + s.x) := by
      rw [wrap_wrap_add]
      ring_nf
    have hsrc : wrap (wrap (j * s.width) + s.width) = wrap ((j + 1) * s.width) := by
      rw [wrap_wrap_add, Nat.succ_mul]
    rw [Buffer.blit, hdest, hsrc, ih, row_eq_draw, List.range'_succ, List.flatMap_cons, draw_append]

/-- The loops draw the strokes of the sprite. -/
theorem draw_blit : b.blit graphicsWidth s.width s.pixel s.height
    (wrap (s.y * graphicsWidth + s.x)) 0 = b.draw (s.strokes graphicsWidth) := by
  have hzero : wrap 0 = 0 := wrap_of_lt (by decide)
  have h := @blit_eq_draw b s graphicsWidth s.height 0
  rwa [Nat.add_zero, Nat.zero_mul, hzero] at h

theorem mem_strokes : st ∈ s.strokes graphicsWidth ↔
    s.pixelAt st.x st.y = some st.colour ∧ st.index = wrap (st.y * graphicsWidth + st.x) := by
  simp only [Sprite.strokes, Sprite.rowStrokes, List.mem_flatMap, List.mem_range'_1,
    List.mem_filterMap, List.mem_range, Option.map_eq_some_iff, Sprite.pixelAt]
  constructor
  · rintro ⟨j, ⟨-, hj⟩, k, hk, c, hc, rfl⟩
    dsimp only
    rw [if_pos (by omega), Nat.add_sub_cancel_left, Nat.add_sub_cancel_left]
    exact ⟨hc, rfl⟩
  · rintro ⟨hat, hindex⟩
    split_ifs at hat with hcover
    obtain ⟨hx, hxlt, hy, hylt⟩ := hcover
    refine ⟨st.y - s.y, by omega, st.x - s.x, by omega, st.colour, hat, ?_⟩
    rw [Nat.add_sub_cancel' hx, Nat.add_sub_cancel' hy, ← hindex]

/-! ## What the strokes on the screen show -/

/-- The place of an index. -/
theorem place_div_mod (hx : x < graphicsWidth) :
    (y * graphicsWidth + x) % graphicsWidth = x ∧ (y * graphicsWidth + x) / graphicsWidth = y := by
  rw [Nat.mul_comm, Nat.mul_add_mod, Nat.mod_eq_of_lt hx,
    Nat.mul_add_div (Nat.zero_lt_of_lt hx), Nat.div_eq_of_lt hx]
  exact ⟨rfl, Nat.add_zero y⟩

/-- An index has one place. -/
theorem place_inj {x' y' : ℕ} (hx : x < graphicsWidth) (hx' : x' < graphicsWidth)
    (h : y * graphicsWidth + x = y' * graphicsWidth + x') : x = x' ∧ y = y' := by
  obtain ⟨hmod, hdiv⟩ := place_div_mod (y := y) hx
  obtain ⟨hmod', hdiv'⟩ := place_div_mod (y := y') hx'
  exact ⟨by rw [← hmod, h, hmod'], by rw [← hdiv, h, hdiv']⟩

theorem place_lt {w h : ℕ} (hx : x < w) (hy : y < h) : y * w + x < w * h := by
  calc y * w + x < y * w + w := by gcongr
    _ = w * (y + 1) := by ring
    _ ≤ w * h := Nat.mul_le_mul_left w hy

/-- A place within the edges has an index of its own in 64 bits. -/
theorem wrap_place {w h : ℕ} (hsize : w * h ≤ 2 ^ 64) (hx : x < w) (hy : y < h) :
    wrap (y * w + x) = y * w + x :=
  wrap_of_lt ((place_lt hx hy).trans_le hsize)

/-- The strokes of a sprite that lie on the screen show its pixels, each at its place. -/
theorem paint_sprite (hsize : g.graphicsWidth * g.graphicsHeight ≤ 2 ^ 64) {f : ℕ → ℕ}
    (hx : x < g.graphicsWidth) (hy : y < g.graphicsHeight) :
    paint Stroke.index Stroke.colour f ((s.strokes g.graphicsWidth).filter (·.OnScreen g))
        (y * g.graphicsWidth + x) =
      (s.pixelAt x y).getD (f (y * g.graphicsWidth + x)) := by
  -- On the screen, only the pixel at a place has its index.
  have hplace : ∀ st ∈ (s.strokes g.graphicsWidth).filter (·.OnScreen g),
      st.index = y * g.graphicsWidth + x → s.pixelAt x y = some st.colour := by
    intro st hst hindex
    obtain ⟨hst, hon⟩ := List.mem_filter.1 hst
    obtain ⟨hstx, hsty⟩ := of_decide_eq_true hon
    obtain ⟨hpixel, hwrap⟩ := mem_strokes.1 hst
    rw [wrap_place hsize hstx hsty, hindex] at hwrap
    obtain ⟨rfl, rfl⟩ := place_inj hx hstx hwrap
    exact hpixel
  cases hpixel : s.pixelAt x y with
  | none =>
    refine paint_of_ne fun st hst hindex => ?_
    rw [hplace st hst hindex] at hpixel
    cases hpixel
  | some c =>
    refine paint_of_unique ⟨⟨x, y, wrap (y * g.graphicsWidth + x), c⟩, ?_, ?_⟩
      fun st hst hindex => ?_
    · exact List.mem_filter.2 ⟨mem_strokes.2 ⟨hpixel, rfl⟩, decide_eq_true ⟨hx, hy⟩⟩
    · exact wrap_place hsize hx hy
    · rw [hplace st hst hindex] at hpixel
      exact Option.some.inj hpixel

/-- So do those of many sprites: the last one that has a pixel at a place. -/
theorem paint_sprites (hsize : g.graphicsWidth * g.graphicsHeight ≤ 2 ^ 64) {f : ℕ → ℕ}
    (hx : x < g.graphicsWidth) (hy : y < g.graphicsHeight) (ss : List Sprite) :
    paint Stroke.index Stroke.colour f
        ((ss.flatMap (Sprite.strokes g.graphicsWidth)).filter (·.OnScreen g))
        (y * g.graphicsWidth + x) =
      (ss.filterMap (·.pixelAt x y)).getLast?.getD (f (y * g.graphicsWidth + x)) := by
  induction ss using List.reverseRecOn with
  | nil => rfl
  | append_singleton ss s ih =>
    rw [List.flatMap_append, List.flatMap_singleton, List.filter_append, paint_append,
      paint_sprite hsize hx hy, ih, List.filterMap_append]
    cases hpixel : s.pixelAt x y with
    | none => simp [hpixel]
    | some c => simp [hpixel]

/-- What the sprites show is what should be seen. -/
theorem getLast?_sprites : (((sprites mouse g).filterMap (·.pixelAt x y)).getLast?).getD 0 =
    shownAt mouse g x y := by
  have hwindows : (g.windows.map Window.sprite).filterMap (·.pixelAt x y) =
      g.windows.filterMap fun w => w.sprite.pixelAt x y := List.filterMap_map
  rw [sprites, List.filterMap_append, hwindows, shownAt, cursorAt, windowAt]
  split_ifs
  · cases hpixel : (g.cursor.sprite mouse).pixelAt x y <;> simp [hpixel]
  · simp

/-! ## A pass -/

/-- A whole screen is written at the indices of the framebuffer, each with its own word. -/
theorem blit_screen (hsize : g.graphicsWidth * g.graphicsHeight ≤ 2 ^ 64) (word : ℕ → ℕ)
    (hb : b.written = []) :
    (∀ i ∈ (b.blit g.graphicsWidth g.graphicsWidth (fun i => some (word i)) g.graphicsHeight
        0 0).written, i < g.graphicsWidth * g.graphicsHeight) ∧
      ∀ x < g.graphicsWidth, ∀ y < g.graphicsHeight,
        (b.blit g.graphicsWidth g.graphicsWidth (fun i => some (word i)) g.graphicsHeight
          0 0).words (y * g.graphicsWidth + x) = word (y * g.graphicsWidth + x) := by
  -- The screen is drawn like a sprite at its origin.
  obtain ⟨s, hs⟩ : ∃ s : Sprite, s =
    ⟨0, 0, g.graphicsWidth, g.graphicsHeight, fun i => some (word i)⟩ := ⟨_, rfl⟩
  have hpixel : ∀ x y, s.pixelAt x y = if x < g.graphicsWidth ∧ y < g.graphicsHeight then
      some (word (wrap (y * g.graphicsWidth + x))) else none := by
    intro x y
    rw [hs]
    simp [Sprite.pixelAt]
  have hon : ∀ st ∈ s.strokes g.graphicsWidth, st.OnScreen g := by
    intro st hst
    have hat := (mem_strokes.1 hst).1
    rw [hpixel] at hat
    split_ifs at hat with hplace
    exact hplace
  have hzero : wrap (0 * g.graphicsWidth + 0) = 0 := by
    rw [Nat.zero_mul]
    exact wrap_of_lt (by decide)
  have hdraw := @draw_blit b s g.graphicsWidth
  rw [hs, hzero] at hdraw
  rw [hdraw, ← hs]
  refine ⟨fun i hi => ?_, fun x hx y hy => ?_⟩
  · rw [mem_written_draw, hb] at hi
    obtain ⟨st, hst, rfl⟩ := hi.resolve_right List.not_mem_nil
    obtain ⟨hx, hy⟩ := hon st hst
    rw [(mem_strokes.1 hst).2, wrap_place hsize hx hy]
    exact place_lt hx hy
  · have hfilter : (s.strokes g.graphicsWidth).filter (·.OnScreen g) = s.strokes g.graphicsWidth :=
      List.filter_eq_self.2 fun st hst => decide_eq_true (hon st hst)
    have hpaint := @paint_sprite g s x y hsize b.words hx hy
    rw [hfilter, hpixel, if_pos ⟨hx, hy⟩, wrap_place hsize hx hy] at hpaint
    rw [words_draw]
    exact hpaint

theorem cursor_index (hm : mouse.Clamped) :
    ((mouse.mouseY * g.graphicsWidth + mouse.mouseX) % 2 ^ 64).toNat =
      wrap (mouse.mouseY.toNat * g.graphicsWidth + mouse.mouseX.toNat) := by
  obtain ⟨x, hx⟩ := Int.eq_ofNat_of_zero_le hm.left
  obtain ⟨y, hy⟩ := Int.eq_ofNat_of_zero_le hm.top
  rw [hx, hy, Int.toNat_natCast, Int.toNat_natCast, wrap_eq_mod]
  norm_cast

/-- The second framebuffer is cleared, and all strokes are drawn. -/
theorem secondary_eq_draw (hm : mouse.Clamped) :
    (graphicsUpdate mouse g).secondary =
      (clearSecondary g ⟨g.graphicsSecondary, []⟩).draw (strokes mouse g) := by
  have hwindow (b : Buffer) (w : Window) :
      drawWindow g b w = b.draw (w.sprite.strokes g.graphicsWidth) :=
    @draw_blit b w.sprite g.graphicsWidth
  have hcursor (b : Buffer) :
      drawCursor mouse g b = b.draw ((g.cursor.sprite mouse).strokes g.graphicsWidth) := by
    rw [drawCursor, cursor_index hm]
    exact @draw_blit b (g.cursor.sprite mouse) g.graphicsWidth
  have hwindows (ws : List Window) (b : Buffer) : ws.foldl (drawWindow g) b =
      b.draw ((ws.map Window.sprite).flatMap (Sprite.strokes g.graphicsWidth)) := by
    induction ws generalizing b with
    | nil => rfl
    | cons w ws ih =>
      rw [List.foldl_cons, ih, hwindow, List.map_cons, List.flatMap_cons, draw_append]
  simp only [graphicsUpdate, strokes, sprites]
  split_ifs
  · rw [hcursor, hwindows, List.flatMap_append, List.flatMap_singleton, draw_append]
  · rw [hwindows, List.append_nil]

/-- What is on the screen: the last strokes, over a screen of zeros. -/
theorem framebuffer_words (hsize : g.graphicsWidth * g.graphicsHeight ≤ 2 ^ 64)
    (hm : mouse.Clamped) (hx : x < g.graphicsWidth) (hy : y < g.graphicsHeight) :
    (graphicsUpdate mouse g).framebuffer.words (y * g.graphicsWidth + x) =
      paint Stroke.index Stroke.colour (clearSecondary g ⟨g.graphicsSecondary, []⟩).words
        (strokes mouse g) (y * g.graphicsWidth + x) := by
  rw [← words_draw, ← secondary_eq_draw hm]
  exact (blit_screen hsize (graphicsUpdate mouse g).secondary.words rfl).2 x hx y hy

/-- The strokes on the screen are what should be seen. -/
theorem paint_onScreen (hsize : g.graphicsWidth * g.graphicsHeight ≤ 2 ^ 64)
    (hx : x < g.graphicsWidth) (hy : y < g.graphicsHeight) :
    paint Stroke.index Stroke.colour (clearSecondary g ⟨g.graphicsSecondary, []⟩).words
      ((strokes mouse g).filter (·.OnScreen g)) (y * g.graphicsWidth + x) =
        shownAt mouse g x y := by
  have hclear := (blit_screen (b := ⟨g.graphicsSecondary, []⟩) hsize (fun _ => 0) rfl).2 x hx y hy
  rw [strokes, paint_sprites hsize hx hy, ← getLast?_sprites]
  exact congrArg _ hclear

theorem strokes_index (hst : st ∈ strokes mouse g) :
    st.index = wrap (st.y * g.graphicsWidth + st.x) := by
  obtain ⟨s, -, hst⟩ := List.mem_flatMap.1 hst
  exact (mem_strokes.1 hst).2

/-- All strokes are written. -/
theorem Composed.index_lt (h : Composed mouse g) (hm : mouse.Clamped)
    (hst : st ∈ strokes mouse g) : st.index < g.graphicsWidth * g.graphicsHeight := by
  refine h.secondary st.index ?_
  rw [secondary_eq_draw hm, mem_written_draw]
  exact .inl ⟨st, hst, rfl⟩

/-- A pass is right if and only if what it draws beyond the edges does no harm. -/
theorem composed_iff (hsize : g.graphicsWidth * g.graphicsHeight ≤ 2 ^ 64) (hm : mouse.Clamped) :
    Composed mouse g ↔ Harmless mouse g := by
  constructor
  · intro h before st after hsplit hoff
    have hst : st ∈ strokes mouse g := by simp [hsplit]
    have hlt := h.index_lt hm hst
    refine ⟨hlt, ?_⟩
    have hpos : 0 < g.graphicsWidth := Nat.pos_of_mul_pos_right (Nat.zero_lt_of_lt hlt)
    have hx := Nat.mod_lt st.index hpos
    have hy : st.index / g.graphicsWidth < g.graphicsHeight := Nat.div_lt_of_lt_mul hlt
    have hindex := Nat.div_add_mod' st.index g.graphicsWidth
    have hshown := h.picture _ hx _ hy
    rw [framebuffer_words hsize hm hx hy, ← paint_onScreen hsize hx hy, hindex] at hshown
    -- A pixel beyond the edges lands on one of the screen, where it must not show.
    have hlast := paint_eq_filter_iff.1 hshown before st after hsplit rfl (decide_eq_false hoff)
    rwa [← paint_onScreen hsize hx hy, hindex]
  · intro h
    refine ⟨fun i hi => ?_, (blit_screen hsize _ rfl).1, fun x hx y hy => ?_⟩
    · rw [secondary_eq_draw hm, mem_written_draw] at hi
      rcases hi with ⟨st, hst, rfl⟩ | hi
      · by_cases hon : st.OnScreen g
        · rw [strokes_index hst, wrap_place hsize hon.1 hon.2]
          exact place_lt hon.1 hon.2
        · obtain ⟨before, after, hsplit⟩ := List.append_of_mem hst
          exact (h before st after hsplit hon).1
      · exact (blit_screen hsize (fun _ => 0) rfl).1 i hi
    · rw [framebuffer_words hsize hm hx hy, ← paint_onScreen hsize hx hy]
      refine paint_eq_filter_iff.2 fun before st after hsplit hindex hoff => ?_
      obtain ⟨hmod, hdiv⟩ := place_div_mod (y := y) hx
      have hharm := (h before st after hsplit (of_decide_eq_false hoff)).2
      rwa [hindex, hmod, hdiv, ← paint_onScreen hsize hx hy] at hharm

theorem harmless_of_onScreen (h : ∀ st ∈ strokes mouse g, st.OnScreen g) :
    Harmless mouse g := by
  intro before st after hsplit hoff
  have hmem : st ∈ strokes mouse g := by
    rw [hsplit]
    exact List.mem_append_right _ List.mem_cons_self
  exact absurd (h st hmem) hoff

/-- So it is when nothing is drawn beyond them. -/
theorem composed_of_onScreen (hsize : g.graphicsWidth * g.graphicsHeight ≤ 2 ^ 64)
    (hm : mouse.Clamped) (h : ∀ st ∈ strokes mouse g, st.OnScreen g) : Composed mouse g :=
  (composed_iff hsize hm).2 (harmless_of_onScreen h)

/-! ## The screen of the mouse -/

/-- Whatever the mouse has sent, on the screen of 1920 x 1080 that its position is clamped to: the
    pass is right if and only if what it draws beyond the edges does no harm. -/
theorem composed_iff_harmless (bytes : List Byte) (hwidth : g.graphicsWidth = 1920)
    (hheight : g.graphicsHeight = 1080) :
    Composed (mouseAfter bytes) g ↔ Harmless (mouseAfter bytes) g :=
  composed_iff (by rw [hwidth, hheight]; decide) (mouse_clamped bytes)

/-- A screen with a cursor of a single pixel, and no windows. -/
def cursorOnly : Graphics :=
  ⟨[], fun _ => 0, fun _ => 0, 1920, 1080, ⟨1, 1, fun _ => 0xFFFFFFFF⟩, true⟩

/-- There are two windows besides, of which the second covers a part of the first. -/
def twoWindows : Graphics :=
  { cursorOnly with windows := [⟨fun _ => 0xFF, 48, 48, 4, 3⟩, ⟨fun _ => 0xFF00, 50, 49, 4, 3⟩] }

/-- The mouse has been moved to the second window. -/
theorem composed_iff_harmless_twoWindows : Composed (mouseAfter [0x08, 3, 0]) twoWindows :=
  (composed_iff_harmless [0x08, 3, 0] rfl rfl).2 (harmless_of_onScreen (by decide +kernel))

/-- Fifteen packets that move the mouse to the lower right corner. -/
def cornerPackets : List Byte := (List.replicate 15 [0x28, 0x7F, 0x80]).flatten

/-- There, the cursor is drawn beyond the end of the framebuffer. -/
theorem not_composed_corner : ¬Composed (mouseAfter cornerPackets) cursorOnly := by
  intro h
  have hmouse : mouseAfter cornerPackets = ⟨1920, 1080, 0, 0x28⟩ := by decide +kernel
  have hstrokes : (⟨1920, 1080, 2075520, 0xFFFFFFFF⟩ : Stroke) ∈
      strokes (mouseAfter cornerPackets) cursorOnly := by
    rw [hmouse]
    decide +kernel
  exact absurd (h.index_lt (mouse_clamped _) hstrokes) (by decide)

end SmartOS
