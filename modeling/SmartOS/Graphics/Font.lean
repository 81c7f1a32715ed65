import SmartOS.Lib.Bits
import SmartOS.Graphics.Window

/-!
# Glyphs

A font file is a header, the size of which it says itself, and the glyphs. The rows
of a glyph take as many bytes as are needed for its width, and the highest bit of a
byte is the leftmost pixel. `Font::Font` (`Graphics.cpp`) takes the header to be of 32
bytes; `drawChar` takes every row to be one byte, and its lowest bit to be the
leftmost pixel.

* `glyphBit_eq_iff`: when the test of a pixel gives what it should;
* `drawsFile_iff`: the glyphs that are drawn as they are in the file.
-/

namespace SmartOS

open Prog

/-! ## Fonts -/

/-- The fields of the header that matter. -/
structure PSFHeader where
  magic : ℕ
  headersize : ℕ
  numglyph : ℕ
  bytesperglyph : ℕ
  height : ℕ
  width : ℕ
  deriving Repr, DecidableEq

def sizeofPSFHeader : ℕ := 8 * 4

def psfFontMagic : ℕ := 0x864ab572

def PSFHeader.read (file : Mem) : PSFHeader where
  magic := file.get32 0
  headersize := file.get32 8
  numglyph := file.get32 16
  bytesperglyph := file.get32 20
  height := file.get32 24
  width := file.get32 28

/-- `Font::Font`, where `uninit` is what the font and its glyphs hold before. -/
def Font.new (ptr : Mem) (uninit : Font) : Font :=
  let psfHeader := PSFHeader.read ptr
  if psfHeader.magic = psfFontMagic then
    ⟨memcpyFrom uninit.glyphs 0 ptr sizeofPSFHeader (256 * psfHeader.bytesperglyph),
      psfHeader.width, psfHeader.height, psfHeader.bytesperglyph⟩
  else uninit

/-! ## Specification -/

def PSFHeader.rowBytes (header : PSFHeader) : ℕ := (header.width + 7) / 8

/-- A font file with at least 256 glyphs. -/
structure IsPSF2 (file : Mem) : Prop where
  magic : (PSFHeader.read file).magic = psfFontMagic
  bytesperglyph : (PSFHeader.read file).bytesperglyph =
    (PSFHeader.read file).height * (PSFHeader.read file).rowBytes
  numglyph : 256 ≤ (PSFHeader.read file).numglyph

/-- The pixel in row `i` and column `j` of a glyph in the file. -/
def filePixelSet (file : Mem) (c : Byte) (i j : ℕ) : Bool :=
  let header := PSFHeader.read file
  (file (header.headersize + c.toNat * header.bytesperglyph +
    (i * header.rowBytes + j / 8))).getLsbD (7 - j % 8)

/-- `b'` is `b` with the glyph drawn at `(x, y)`. -/
structure DrawsFile (file : Mem) (win : Window) (x y : ℕ) (c : Byte) (color : ℕ)
    (b b' : Buffer) : Prop where
  coloured : ∀ i < (PSFHeader.read file).height, ∀ j < (PSFHeader.read file).width,
    filePixelSet file c i j → b'.words ((y + i) * win.width + (x + j)) = color
  unchanged : ∀ k, (∀ i < (PSFHeader.read file).height, ∀ j < (PSFHeader.read file).width,
    filePixelSet file c i j → k ≠ (y + i) * win.width + (x + j)) → b'.words k = b.words k

/-- The byte that is tested for the pixels of row `i`. -/
def testedByte (file : Mem) (c : Byte) (i : ℕ) : Byte :=
  file (sizeofPSFHeader + (c.toNat * (PSFHeader.read file).bytesperglyph + i))

/-- The test of a pixel gives what the file says, whatever a shift beyond the width of an `int`
    gives. A byte has no bits from 8 on. -/
structure TestsPixel (file : Mem) (c : Byte) (i j : ℕ) : Prop where
  bit : (testedByte file c i).getLsbD j = filePixelSet file c i j
  undef : 32 ≤ j → testedByte file c i = 0

variable {undef : ℕ → BitVec 32} {file glyph : Mem} {uninit : Font} {win : Window} {b b' : Buffer}
  {c : Byte} {color x y i j k w h : ℕ} {set : Bool} {shown shown' : ℕ → ℕ → Bool}

/-! ## Pixels -/

theorem glyphBit_of_lt (hj : j < 32) : glyphBit undef glyph i j = (glyph i).getLsbD j := by
  rw [glyphBit, intShift, if_pos hj]
  exact byte_and_shift _ hj

/-- A bit is tested right for all shifts that are undefined only if there is none. -/
theorem glyphBit_eq_iff : (∀ undef, glyphBit undef glyph i j = set) ↔
    (glyph i).getLsbD j = set ∧ (32 ≤ j → glyph i = 0) := by
  rcases Nat.lt_or_ge j 32 with hj | hj
  · simp only [glyphBit_of_lt hj, forall_const]
    exact (and_iff_left fun h => absurd hj (Nat.not_lt.2 h)).symm
  · have hbit : (glyph i).getLsbD j = false := BitVec.getLsbD_of_ge _ _ (by omega)
    simp only [glyphBit, intShift, if_neg (Nat.not_lt.2 hj), hbit, hj, true_imp_iff]
    constructor
    · intro h
      have hzero : false = set := by simpa using h fun _ => 0
      have hones := h fun _ => BitVec.allOnes 32
      rw [BitVec.and_allOnes, ← hzero, bne_eq_false_iff_eq] at hones
      refine ⟨hzero, BitVec.eq_of_toNat_eq ?_⟩
      have hlt := (glyph i).isLt
      have hnat := congrArg BitVec.toNat hones
      rwa [BitVec.toNat_setWidth, Nat.mod_eq_of_lt (by omega)] at hnat
    · rintro ⟨rfl, hzero⟩ undef
      simp [hzero]

/-! ## Glyphs -/

theorem new_of_magic (hfile : IsPSF2 file) : Font.new file uninit =
    ⟨memcpyFrom uninit.glyphs 0 file sizeofPSFHeader (256 * (PSFHeader.read file).bytesperglyph),
      (PSFHeader.read file).width, (PSFHeader.read file).height,
      (PSFHeader.read file).bytesperglyph⟩ :=
  if_pos hfile.magic

/-- The byte of a row is among those that have been copied. -/
theorem getCharacterGlyph_new (hfile : IsPSF2 file) (hi : i < (PSFHeader.read file).height)
    (hj : j < (PSFHeader.read file).width) :
    (Font.new file uninit).getCharacterGlyph c i = testedByte file c i := by
  have hbytes : (PSFHeader.read file).bytesperglyph < 2 ^ 32 := Mem.get32_lt
  have hc : c.toNat < 256 := c.isLt
  have hrow : 0 < (PSFHeader.read file).rowBytes := by
    rw [PSFHeader.rowBytes]
    omega
  have hle : (PSFHeader.read file).height ≤ (PSFHeader.read file).bytesperglyph :=
    hfile.bytesperglyph ▸ Nat.le_mul_of_pos_right _ hrow
  rw [new_of_magic hfile, Font.getCharacterGlyph, memcpyFrom_eq_copy, testedByte]
  dsimp only
  generalize (PSFHeader.read file).bytesperglyph = n at hbytes hle
  have hend : c.toNat * n + n ≤ 256 * n := by
    rw [← Nat.succ_mul]
    exact Nat.mul_le_mul_right n hc
  rw [wrap_of_lt (by omega), Mem.copy_of_mem ⟨Nat.zero_le _, by omega⟩, Nat.sub_zero]

theorem words_drawChar (hfile : IsPSF2 file) :
    (win.drawChar undef x y c color (Font.new file uninit) b).words k =
      if FilledAt win.width (glyphBit undef ((Font.new file uninit).getCharacterGlyph c)) x y
        (PSFHeader.read file).width (PSFHeader.read file).height k then color else b.words k := by
  have hsizeX : (Font.new file uninit).fontSizeX = (PSFHeader.read file).width := by
    rw [new_of_magic hfile]
  have hsizeY : (Font.new file uninit).fontSizeY = (PSFHeader.read file).height := by
    rw [new_of_magic hfile]
  rw [Window.drawChar, words_fillRows, hsizeX, hsizeY]

section

variable (hfile : IsPSF2 file) (hright : x + (PSFHeader.read file).width ≤ win.width)
  (hbottom : y + (PSFHeader.read file).height ≤ win.height)
  (hsize : win.width * win.height ≤ 2 ^ 64)
include hfile hright hbottom hsize

/-- The glyph is drawn as it is in the file if the tests of its pixels agree with it. -/
theorem drawsFile_of_glyphBit
    (hbit : ∀ i < (PSFHeader.read file).height, ∀ j < (PSFHeader.read file).width,
      glyphBit undef ((Font.new file uninit).getCharacterGlyph c) i j = filePixelSet file c i j) :
    DrawsFile file win x y c color b
      (win.drawChar undef x y c color (Font.new file uninit) b) := by
  constructor
  · intro i hi j hj hset
    rw [words_drawChar hfile, if_pos]
    exact (filledAt_place hsize hright hbottom hi hj).2 (hbit i hi j hj ▸ hset)
  · intro k hk
    rw [words_drawChar hfile, if_neg]
    rintro ⟨i, hi, j, hj, hshown, rfl⟩
    refine hk i hi j hj (hbit i hi j hj ▸ hshown) (wrap_place hsize ?_ ?_)
    · exact (Nat.add_lt_add_left hj x).trans_le hright
    · exact (Nat.add_lt_add_left hi y).trans_le hbottom

/-- Only then: over a framebuffer of zeros, with another colour, each pixel can be told apart. -/
theorem DrawsFile.glyphBit_eq (hi : i < (PSFHeader.read file).height)
    (hj : j < (PSFHeader.read file).width)
    (h : DrawsFile file win x y c 1 ⟨fun _ => 0, []⟩
      (win.drawChar undef x y c 1 (Font.new file uninit) ⟨fun _ => 0, []⟩)) :
    glyphBit undef ((Font.new file uninit).getCharacterGlyph c) i j = filePixelSet file c i j := by
  have hword := @words_drawChar undef file uninit win ⟨fun _ => 0, []⟩ c 1 x y
    ((y + i) * win.width + (x + j)) hfile
  simp only [filledAt_place hsize hright hbottom hi hj] at hword
  cases hset : filePixelSet file c i j with
  | true =>
    rw [h.coloured i hi j hj hset] at hword
    by_contra hclear
    rw [if_neg hclear] at hword
    exact one_ne_zero hword
  | false =>
    have hother : ∀ i' < (PSFHeader.read file).height, ∀ j' < (PSFHeader.read file).width,
        filePixelSet file c i' j' →
          (y + i) * win.width + (x + j) ≠ (y + i') * win.width + (x + j') := by
      intro i' hi' j' hj' hset' hindex
      obtain ⟨rfl, rfl⟩ := box_inj (by omega) (by omega) hindex
      exact absurd hset' (Bool.eq_false_iff.1 hset)
    rw [h.unchanged _ hother] at hword
    rw [← Bool.not_eq_true]
    intro hshown
    rw [if_pos hshown] at hword
    exact zero_ne_one hword

/-- A glyph is drawn as it is in the file exactly if the byte that is tested for each of its rows
    has the bits of the row, from the lowest one on, and none if the row is longer than an `int`. -/
theorem drawsFile_iff : (∀ undef uninit color b, DrawsFile file win x y c color b
      (win.drawChar undef x y c color (Font.new file uninit) b)) ↔
    ∀ i < (PSFHeader.read file).height, ∀ j < (PSFHeader.read file).width,
      TestsPixel file c i j := by
  constructor
  · intro h i hi j hj
    have hbit (undef : ℕ → BitVec 32) :=
      (h undef ⟨fun _ => 0, 0, 0, 0⟩ 1 ⟨fun _ => 0, []⟩).glyphBit_eq hfile hright hbottom hsize
        hi hj
    obtain ⟨hbit, hundef⟩ := glyphBit_eq_iff.1 hbit
    rw [getCharacterGlyph_new hfile hi hj] at hbit hundef
    exact ⟨hbit, hundef⟩
  · intro h undef uninit color b
    refine drawsFile_of_glyphBit hfile hright hbottom hsize fun i hi j hj => ?_
    refine glyphBit_eq_iff.2 ?_ undef
    rw [getCharacterGlyph_new hfile hi hj]
    exact ⟨(h i hi j hj).bit, (h i hi j hj).undef⟩

end

/-- With a header of 32 bytes and no more than eight columns, as in the font of the kernel, these
    are the glyphs whose rows are the same in a mirror. -/
theorem testsPixel_iff_of_narrow (hheader : (PSFHeader.read file).headersize = sizeofPSFHeader)
    (hwidth : (PSFHeader.read file).width ≤ 8) (hj : j < (PSFHeader.read file).width) :
    TestsPixel file c i j ↔
      (testedByte file c i).getLsbD j = (testedByte file c i).getLsbD (7 - j) := by
  have hrow : (PSFHeader.read file).rowBytes = 1 := by
    rw [PSFHeader.rowBytes]
    omega
  have hset : filePixelSet file c i j = (testedByte file c i).getLsbD (7 - j) := by
    rw [filePixelSet, testedByte, hheader, hrow, Nat.div_eq_of_lt (by omega),
      Nat.mod_eq_of_lt (by omega), Nat.mul_one, Nat.add_zero, Nat.add_assoc]
  rw [← hset]
  exact ⟨TestsPixel.bit, fun h => ⟨h, fun hwide => by omega⟩⟩

/-- A font of 256 glyphs of a single row, all of them the same. -/
def rowFont (row : Byte) : Mem := fun i =>
  match i with
  | 0 => 0x72
  | 1 => 0xB5
  | 2 => 0x4A
  | 3 => 0x86
  | 8 => 32
  | 17 => 1
  | 20 => 1
  | 24 => 1
  | 28 => 8
  | i => if 32 ≤ i then row else 0

theorem read_rowFont (row : Byte) :
    PSFHeader.read (rowFont row) = ⟨psfFontMagic, 32, 256, 1, 1, 8⟩ := by
  simp [PSFHeader.read, Mem.get32, rowFont, psfFontMagic]

theorem isPSF2_rowFont (row : Byte) : IsPSF2 (rowFont row) := by
  constructor
  · rw [read_rowFont]
  · rw [read_rowFont]
    decide
  · rw [read_rowFont]

/-- A window of eight pixels. -/
def rowWindow : Window := ⟨fun _ => 0xFFFFFFFF, 0, 0, 8, 1⟩

/-- A full row, over zeros. -/
theorem drawsFile_full : DrawsFile (rowFont 0xFF) rowWindow 0 0 0 1 ⟨fun _ => 0, []⟩
    (rowWindow.drawChar (fun _ => 0) 0 0 0 1 (Font.new (rowFont 0xFF) squareFont)
      ⟨fun _ => 0, []⟩) := by
  refine (drawsFile_iff (isPSF2_rowFont 0xFF) (by decide) (by decide) (by decide)).2
    (fun i hi j hj => (testsPixel_iff_of_narrow rfl (by decide) hj).2 ?_) _ _ _ _
  have hi' : i < 1 := hi
  have hj' : j < 8 := hj
  interval_cases i
  interval_cases j <;> rfl

/-- A row whose leftmost pixel is the only one: the rightmost is drawn. -/
theorem not_drawsFile : ¬∀ (file : Mem) (win : Window) (x y : ℕ) (c : Byte), IsPSF2 file →
    x + (PSFHeader.read file).width ≤ win.width →
    y + (PSFHeader.read file).height ≤ win.height → win.width * win.height ≤ 2 ^ 64 →
    ∀ undef uninit color b, DrawsFile file win x y c color b
      (win.drawChar undef x y c color (Font.new file uninit) b) := by
  intro hall
  have hfile := isPSF2_rowFont 0x80
  have hdraws := hall (rowFont 0x80) rowWindow 0 0 0 hfile (by decide) (by decide) (by decide)
    (fun _ => 0) ⟨fun _ => 0, 0, 0, 0⟩ 1 ⟨fun _ => 0, []⟩
  have hi : 0 < (PSFHeader.read (rowFont 0x80)).height := by decide
  have hj : 0 < (PSFHeader.read (rowFont 0x80)).width := by decide
  have hbit := hdraws.glyphBit_eq hfile (by decide) (by decide) (by decide) hi hj
  rw [glyphBit_of_lt (by decide), getCharacterGlyph_new hfile hi hj] at hbit
  exact absurd hbit (by decide)

end SmartOS
