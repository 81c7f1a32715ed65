import SmartOS.Mouse.Basic

/-!
# The screen

One pass of `graphicsUpdate` (`Graphics.cpp`): a second framebuffer is cleared,
the windows are drawn on it in their order and the cursor last, and then it is
copied to the screen. Framebuffers are arrays of 32-bit words, indexed with
64-bit numbers (`Buffer`).

The four loops over the rows of a rectangle are the same but for what they write
(`Buffer.blit`), with offsets that run along in the framebuffer and in what is
drawn. Each has its own definition, under what the source says of it.
-/

namespace SmartOS

/-- A framebuffer, with the indices at which it has been written. -/
structure Buffer where
  words : ℕ → ℕ
  written : List ℕ

/-- `buffer[i] = v` -/
def Buffer.store (b : Buffer) (i v : ℕ) : Buffer :=
  ⟨Function.update b.words i v, i :: b.written⟩

structure Icon where
  width : ℕ
  height : ℕ
  data : ℕ → ℕ

structure Window where
  framebuffer : ℕ → ℕ
  windowX : ℕ
  windowY : ℕ
  width : ℕ
  height : ℕ

/-- The globals that `graphicsUpdate` works on, but for the mouse. -/
structure Graphics where
  windows : List Window
  graphicsFramebuffer : ℕ → ℕ
  graphicsSecondary : ℕ → ℕ
  graphicsWidth : ℕ
  graphicsHeight : ℕ
  cursor : Icon
  cursorInitialized : Bool

/-- What a pass leaves in the two framebuffers. -/
structure Screen where
  secondary : Buffer
  framebuffer : Buffer

/-- A row: the words `pixel`, from index `src` on, are written from index `dest` on. -/
def Buffer.row (width : ℕ) (pixel : ℕ → Option ℕ) (dest src : ℕ) (b : Buffer) : Buffer :=
  (List.range width).foldl (fun b k =>
    match pixel (wrap (src + k)) with
    | some c => b.store (wrap (dest + k)) c
    | none => b) b

/-- As many rows: the offsets go on by the width of the screen, and by that of what is drawn. -/
def Buffer.blit (graphicsWidth width : ℕ) (pixel : ℕ → Option ℕ) : ℕ → ℕ → ℕ → Buffer → Buffer
  | 0, _, _, b => b
  | height + 1, dest, src, b =>
    blit graphicsWidth width pixel height (wrap (dest + graphicsWidth)) (wrap (src + width))
      (b.row width pixel dest src)

/-- `graphicsSecondary[where + j] = 0` -/
def clearSecondary (g : Graphics) (b : Buffer) : Buffer :=
  b.blit g.graphicsWidth g.graphicsWidth (fun _ => some 0) g.graphicsHeight 0 0

/-- `graphicsSecondary[where0 + k] = windows[i]->framebuffer[where1 + k]` -/
def drawWindow (g : Graphics) (b : Buffer) (w : Window) : Buffer :=
  b.blit g.graphicsWidth w.width (fun i => some (w.framebuffer i)) w.height
    (wrap (w.windowY * g.graphicsWidth + w.windowX)) 0

/-- A pixel of the cursor that is to be seen. -/
def Icon.visible (icon : Icon) (i : ℕ) : Option ℕ :=
  if icon.data i &&& 0xFF000000 ≠ 0 then some (icon.data i) else none

/-- `graphicsSecondary[where + j] = cursorData[whereIcon + j]` -/
def drawCursor (mouse : Mouse) (g : Graphics) (b : Buffer) : Buffer :=
  b.blit g.graphicsWidth g.cursor.width g.cursor.visible g.cursor.height
    ((mouse.mouseY * g.graphicsWidth + mouse.mouseX) % 2 ^ 64).toNat 0

/-- `graphicsFramebuffer[where + j] = graphicsSecondary[where + j]` -/
def copySecondary (g : Graphics) (secondary b : Buffer) : Buffer :=
  b.blit g.graphicsWidth g.graphicsWidth (fun i => some (secondary.words i)) g.graphicsHeight 0 0

/-- One pass. -/
def graphicsUpdate (mouse : Mouse) (g : Graphics) : Screen :=
  let secondary := clearSecondary g ⟨g.graphicsSecondary, []⟩
  let secondary := g.windows.foldl (drawWindow g) secondary
  let secondary := if g.cursorInitialized then drawCursor mouse g secondary else secondary
  ⟨secondary, copySecondary g secondary ⟨g.graphicsFramebuffer, []⟩⟩

end SmartOS
