import SmartOS.Lib.Bits
import SmartOS.Graphics.Compose

/-!
# Targa images

`parseTGA` (`Targa.cpp`) makes an icon of a file in memory. The rows of the file go
from the bottom to the top. The pixels of a true-colour image are four bytes each:
blue, green, red and the one for transparency; the parser puts the first of them in
the highest byte of a word, which is the one that `graphicsUpdate` tests. It takes
the pixels to lie right behind the header, and uses neither the length of the
identification that comes between, nor that of the file.

* `words_parsePixels`: the word of every pixel;
* `showsFile_iff`: the images whose icon is right;
* `parsesInBounds_iff`: the files that are read within their bounds, and to the last
  pixel.
-/

namespace SmartOS

open Prog

/-! ## Parsing -/

/-- The fields of the header that matter. The four lower bits of the last byte are `alphaDepth`. -/
structure TargaHeader where
  idLength : ℕ
  colorMapType : ℕ
  imageType : ℕ
  imageWidth : ℕ
  imageHeight : ℕ
  pixelDepth : ℕ
  pixelOrdering : ℕ
  deriving Repr, DecidableEq

def sizeofTargaHeader : ℕ := [1, 1, 1, 5, 2, 2, 2, 2, 1, 1].sum

def TargaHeader.read (file : Mem) : TargaHeader where
  idLength := (file 0).toNat
  colorMapType := (file 1).toNat
  imageType := (file 2).toNat
  imageWidth := file.get16 12
  imageHeight := file.get16 14
  pixelDepth := (file 16).toNat
  pixelOrdering := (file 17).toNat / 2 ^ 4

/-- `(a << 24) | (b << 16) | (c << 8) | d`, in 32 bits. -/
def word32 (a b c d : Byte) : ℕ := a.toNat <<< 24 ||| b.toNat <<< 16 ||| c.toNat <<< 8 ||| d.toNat

/-- A pixel of a grey image. -/
def greyPixel (targaData : Mem) (k : ℕ) : ℕ :=
  (targaData k).toNat ||| (targaData k).toNat <<< 8 ||| (targaData k).toNat <<< 16

/-- A pixel of a true-colour image. -/
def trueColorPixel (targaData : Mem) (k : ℕ) : ℕ :=
  word32 (targaData (k * 4)) (targaData (k * 4 + 1)) (targaData (k * 4 + 2))
    (targaData (k * 4 + 3))

/-- The loops over the rows and columns of the icon. -/
def parsePixels (w h : ℕ) (pixel : ℕ → ℕ) (data : Buffer) : Buffer :=
  (List.range h).foldl (fun data i =>
    (List.range w).foldl (fun data j =>
      data.store (i * w + j) (pixel ((h - i - 1) * w + j))) data) data

/-- `data`, which is not initialized, with what is written to it. -/
def parseData (file : Mem) (uninit : ℕ → ℕ) : Buffer :=
  let header := TargaHeader.read file
  let targaData : Mem := fun k => file (sizeofTargaHeader + k)
  if header.imageType = 3 then
    parsePixels header.imageWidth header.imageHeight (greyPixel targaData) ⟨uninit, []⟩
  else if header.imageType = 2 then
    parsePixels header.imageWidth header.imageHeight (trueColorPixel targaData) ⟨uninit, []⟩
  else ⟨uninit, []⟩

def parseTGA (file : Mem) (uninit : ℕ → ℕ) : Icon :=
  let header := TargaHeader.read file
  ⟨header.imageWidth, header.imageHeight, (parseData file uninit).words⟩

variable {file : Mem} {uninit : ℕ → ℕ} {w h x y k i p : ℕ} {pixel : ℕ → ℕ} {data : Buffer}
  {a b c d a' b' c' d' : Byte}

/-! ## Words -/

theorem word32_eq (a b c d : Byte) : word32 a b c d =
    a.toNat * 2 ^ 24 + b.toNat * 2 ^ 16 + c.toNat * 2 ^ 8 + d.toNat := by
  have hlt (x : Byte) : x.toNat < 2 ^ 8 := x.isLt
  have hb := hlt b
  have hc := hlt c
  have hd := hlt d
  have hab : a.toNat * 2 ^ 24 ||| b.toNat * 2 ^ 16 = a.toNat * 2 ^ 24 + b.toNat * 2 ^ 16 :=
    or_eq_add (k := 24) (by omega) (by omega)
  have habc : (a.toNat * 2 ^ 24 + b.toNat * 2 ^ 16) ||| c.toNat * 2 ^ 8 =
      a.toNat * 2 ^ 24 + b.toNat * 2 ^ 16 + c.toNat * 2 ^ 8 :=
    or_eq_add (k := 16) (by omega) (by omega)
  rw [word32, Nat.shiftLeft_eq, Nat.shiftLeft_eq, Nat.shiftLeft_eq, hab, habc]
  exact or_eq_add (k := 8) (by omega) hd

theorem word32_inj : word32 a b c d = word32 a' b' c' d' ↔
    a = a' ∧ b = b' ∧ c = c' ∧ d = d' := by
  have hlt (x : Byte) : x.toNat < 2 ^ 8 := x.isLt
  have ha := hlt a; have hb := hlt b; have hc := hlt c; have hd := hlt d
  have ha' := hlt a'; have hb' := hlt b'; have hc' := hlt c'; have hd' := hlt d'
  simp only [word32_eq, ← BitVec.toNat_inj]
  omega

/-- The highest byte is the one that `graphicsUpdate` tests. -/
theorem word32_visible : word32 a b c d &&& 0xFF000000 ≠ 0 ↔ a ≠ 0 := by
  have hlt (x : Byte) : x.toNat < 2 ^ 8 := x.isLt
  have ha := hlt a
  have hb := hlt b
  have hc := hlt c
  have hd := hlt d
  have hmask : word32 a b c d &&& 0xFF000000 = word32 a b c d / 2 ^ 24 % 2 ^ 8 * 2 ^ 24 :=
    and_field _ 24 8
  have hzero : a = 0 ↔ a.toNat = 0 := BitVec.toNat_inj.symm
  rw [hmask, word32_eq, Ne, Ne, hzero]
  omega

/-! ## Pixels -/

/-- Every pixel of the file is in one row of the icon, counted from the bottom. -/
theorem row_lt (hx : x < w) (hy : y < h) : (h - y - 1) * w + x < w * h :=
  place_lt hx (by omega)

theorem exists_row (hp : p < w * h) : ∃ y < h, ∃ x < w, (h - y - 1) * w + x = p := by
  have hw : 0 < w := Nat.pos_of_mul_pos_right (Nat.zero_lt_of_lt hp)
  have hrow : p / w < h := Nat.div_lt_of_lt_mul hp
  have hle := Nat.le_sub_one_of_lt hrow
  refine ⟨h - 1 - p / w, (Nat.sub_le _ _).trans_lt (Nat.sub_one_lt_of_lt hrow), p % w,
    Nat.mod_lt p hw, ?_⟩
  rw [Nat.sub_right_comm, Nat.sub_sub_self hle, Nat.div_add_mod']

/-- The loops draw a stroke for each pixel. -/
theorem parsePixels_eq_draw : parsePixels w h pixel data =
    data.draw ((List.range h).flatMap fun i => (List.range w).map fun j =>
      ⟨j, i, i * w + j, pixel ((h - i - 1) * w + j)⟩) := by
  rw [parsePixels, Buffer.draw, List.foldl_flatMap]
  simp only [List.foldl_map]

/-- The word of every pixel. -/
theorem words_parsePixels (hx : x < w) (hy : y < h) :
    (parsePixels w h pixel data).words (y * w + x) = pixel ((h - y - 1) * w + x) := by
  rw [parsePixels_eq_draw, words_draw]
  refine paint_of_unique ⟨⟨x, y, y * w + x, pixel ((h - y - 1) * w + x)⟩, ?_, rfl⟩
    fun s hs hindex => ?_
  · exact List.mem_flatMap.2
      ⟨y, List.mem_range.2 hy, List.mem_map.2 ⟨x, List.mem_range.2 hx, rfl⟩⟩
  · obtain ⟨i, -, hs⟩ := List.mem_flatMap.1 hs
    obtain ⟨j, hj, rfl⟩ := List.mem_map.1 hs
    dsimp only at hindex ⊢
    obtain ⟨rfl, rfl⟩ := place_inj (List.mem_range.1 hj) hx hindex
    rfl

/-! ## True colour -/

/-- An image of true colours in 32 bits, with the origin at the bottom left and no colour map. -/
structure TargaHeader.TrueColor32 (header : TargaHeader) : Prop where
  imageType : header.imageType = 2
  pixelDepth : header.pixelDepth = 32
  colorMapType : header.colorMapType = 0
  pixelOrdering : header.pixelOrdering % 4 = 0

/-- Where the pixel in column `x` and row `y` from the top lies in the file: behind the header and
    the identification. -/
def pixelOffset (file : Mem) (x y : ℕ) : ℕ :=
  let header := TargaHeader.read file
  sizeofTargaHeader + header.idLength +
    4 * ((header.imageHeight - y - 1) * header.imageWidth + x)

/-- The byte for its transparency, which comes last. -/
def filePixelAlpha (file : Mem) (x y : ℕ) : Byte := file (pixelOffset file x y + 3)

/-- The word that it should be packed in: blue, green and red come first in the file. -/
def filePixel (file : Mem) (x y : ℕ) : ℕ :=
  let offset := pixelOffset file x y
  word32 (filePixelAlpha file x y) (file (offset + 2)) (file (offset + 1)) (file offset)

/-- The icon has the pixels of the file, and those that are not transparent are to be seen. -/
structure ShowsFile (file : Mem) (icon : Icon) : Prop where
  width : icon.width = (TargaHeader.read file).imageWidth
  height : icon.height = (TargaHeader.read file).imageHeight
  pixel : ∀ x < icon.width, ∀ y < icon.height, icon.data (y * icon.width + x) = filePixel file x y
  visible : ∀ x < icon.width, ∀ y < icon.height, icon.visible (y * icon.width + x) =
    if filePixelAlpha file x y ≠ 0 then some (filePixel file x y) else none

theorem parseTGA_trueColor (hheader : (TargaHeader.read file).TrueColor32)
    (hx : x < (TargaHeader.read file).imageWidth) (hy : y < (TargaHeader.read file).imageHeight) :
    (parseTGA file uninit).data (y * (TargaHeader.read file).imageWidth + x) =
      trueColorPixel (fun k => file (sizeofTargaHeader + k))
        (((TargaHeader.read file).imageHeight - y - 1) * (TargaHeader.read file).imageWidth +
          x) := by
  have htype := hheader.imageType
  rw [parseTGA, parseData]
  dsimp only
  rw [if_neg (by omega), if_pos htype, words_parsePixels hx hy]

/-- What is drawn of an icon whose pixels are those of the file. -/
theorem visible_of_data {icon : Icon} (hdata : icon.data i = filePixel file x y) :
    icon.visible i = if filePixelAlpha file x y ≠ 0 then some (filePixel file x y) else none := by
  have hiff : icon.data i &&& 0xFF000000 ≠ 0 ↔ filePixelAlpha file x y ≠ 0 :=
    hdata ▸ word32_visible
  rw [Icon.visible]
  by_cases hvisible : filePixelAlpha file x y = 0
  · rw [if_neg (not_not.2 hvisible), if_neg fun h => hiff.1 h hvisible]
  · rw [if_pos hvisible, if_pos (hiff.2 hvisible), hdata]

/-- The bytes that the parser takes for pixel `p` are those of the pixel, the other way round. -/
def Reversed (file : Mem) (p : ℕ) : Prop :=
  ∀ k < 4, file (sizeofTargaHeader + 4 * p + k) =
    file (sizeofTargaHeader + (TargaHeader.read file).idLength + 4 * p + (3 - k))

instance (file : Mem) (p : ℕ) : Decidable (Reversed file p) :=
  inferInstanceAs (Decidable (∀ k < 4, file (sizeofTargaHeader + 4 * p + k) =
    file (sizeofTargaHeader + (TargaHeader.read file).idLength + 4 * p + (3 - k))))

theorem trueColorPixel_eq_iff (file : Mem) (x y : ℕ) :
    trueColorPixel (fun k => file (sizeofTargaHeader + k))
        (((TargaHeader.read file).imageHeight - y - 1) * (TargaHeader.read file).imageWidth + x) =
      filePixel file x y ↔
    Reversed file
      (((TargaHeader.read file).imageHeight - y - 1) * (TargaHeader.read file).imageWidth + x) := by
  rw [trueColorPixel, filePixel, filePixelAlpha, pixelOffset, word32_inj, Reversed]
  generalize ((TargaHeader.read file).imageHeight - y - 1) * (TargaHeader.read file).imageWidth +
    x = p
  rw [Nat.mul_comm p 4]
  constructor
  · rintro ⟨h0, h1, h2, h3⟩ k hk
    interval_cases k
    · exact h0
    · exact h1
    · exact h2
    · exact h3
  · intro h
    exact ⟨h 0 (by decide), h 1 (by decide), h 2 (by decide), h 3 (by decide)⟩

section

variable (hheader : (TargaHeader.read file).TrueColor32)
include hheader

theorem ShowsFile.reversed (hshows : ShowsFile file (parseTGA file uninit))
    (hp : p < (TargaHeader.read file).imageWidth * (TargaHeader.read file).imageHeight) :
    Reversed file p := by
  obtain ⟨y, hy, x, hx, rfl⟩ := exists_row hp
  rw [← trueColorPixel_eq_iff, ← parseTGA_trueColor hheader hx hy]
  exact hshows.pixel x hx y hy

theorem showsFile_of_reversed
    (hreversed : ∀ p < (TargaHeader.read file).imageWidth * (TargaHeader.read file).imageHeight,
      Reversed file p) : ShowsFile file (parseTGA file uninit) := by
  have hpixel (x : ℕ) (hx : x < (TargaHeader.read file).imageWidth) (y : ℕ)
      (hy : y < (TargaHeader.read file).imageHeight) :
      (parseTGA file uninit).data (y * (TargaHeader.read file).imageWidth + x) =
        filePixel file x y := by
    rw [parseTGA_trueColor hheader hx hy, trueColorPixel_eq_iff]
    exact hreversed _ (row_lt hx hy)
  exact ⟨rfl, rfl, hpixel, fun x hx y hy => visible_of_data (hpixel x hx y hy)⟩

/-- The icon is right exactly for images whose pixels are the same when their bytes are reversed,
    and moved by the length of the identification. -/
theorem showsFile_iff : (∀ uninit, ShowsFile file (parseTGA file uninit)) ↔
    ∀ p < (TargaHeader.read file).imageWidth * (TargaHeader.read file).imageHeight,
      Reversed file p :=
  ⟨fun hshows _ hp => (hshows fun _ => 0).reversed hheader hp,
    fun hreversed _ => showsFile_of_reversed hheader hreversed⟩

end

/-- An image of one pixel, with these bytes. -/
def onePixel (pixel : ℕ → Byte) : Mem := fun i =>
  match i with
  | 2 => 2
  | 12 => 1
  | 14 => 1
  | 16 => 32
  | i => if 18 ≤ i then pixel (i - 18) else 0

theorem trueColor32_onePixel (pixel : ℕ → Byte) :
    (TargaHeader.read (onePixel pixel)).TrueColor32 :=
  ⟨rfl, rfl, rfl, show (0 : Byte).toNat / 2 ^ 4 % 4 = 0 by decide⟩

/-- A white pixel. -/
theorem showsFile_white : ShowsFile (onePixel fun _ => 0xFF)
    (parseTGA (onePixel fun _ => 0xFF) fun _ => 0) :=
  (showsFile_iff (trueColor32_onePixel _)).2 (by decide +kernel) _

/-- A black pixel that is not transparent. -/
theorem not_showsFile : ¬∀ file : Mem, (TargaHeader.read file).TrueColor32 → ∀ uninit,
    ShowsFile file (parseTGA file uninit) := by
  intro hall
  set file := onePixel fun k => if k = 3 then 0xFF else 0 with hfile
  have hreversed := (hall file (trueColor32_onePixel _) fun _ => 0).reversed
    (trueColor32_onePixel _) (by decide : 0 < _) 0 (by decide)
  exact absurd hreversed (by decide)

/-! ## Bounds -/

/-- The offsets that the loops read. -/
def pixelReads (w h : ℕ) (reads : ℕ → List ℕ) : List ℕ :=
  (List.range h).flatMap fun i => (List.range w).flatMap fun j => reads ((h - i - 1) * w + j)

/-- The offsets in the file that `parseTGA` reads. -/
def parseTGAReads (file : Mem) : List ℕ :=
  let header := TargaHeader.read file
  [12, 13, 14, 15, 2] ++
    if header.imageType = 3 then
      pixelReads header.imageWidth header.imageHeight fun k =>
        [sizeofTargaHeader + k, sizeofTargaHeader + k, sizeofTargaHeader + k]
    else
      2 :: if header.imageType = 2 then
        pixelReads header.imageWidth header.imageHeight fun k =>
          [sizeofTargaHeader + k * 4, sizeofTargaHeader + (k * 4 + 1),
            sizeofTargaHeader + (k * 4 + 2), sizeofTargaHeader + (k * 4 + 3)]
      else []

/-- A file of `targaSize` bytes is read within its bounds, and every pixel is written. -/
structure ParsesInBounds (file : Mem) (targaSize : ℕ) : Prop where
  reads : ∀ offset ∈ parseTGAReads file, offset < targaSize
  written : ∀ uninit,
    ∀ i < (parseTGA file uninit).width * (parseTGA file uninit).height,
      i ∈ (parseData file uninit).written

theorem forall_pixelReads {P : ℕ → Prop} {reads : ℕ → List ℕ} :
    (∀ offset ∈ pixelReads w h reads, P offset) ↔
      ∀ p < w * h, ∀ offset ∈ reads p, P offset := by
  constructor
  · intro hall p hp offset hoffset
    obtain ⟨y, hy, x, hx, rfl⟩ := exists_row hp
    exact hall offset (List.mem_flatMap.2 ⟨y, List.mem_range.2 hy,
      List.mem_flatMap.2 ⟨x, List.mem_range.2 hx, hoffset⟩⟩)
  · intro hall offset hoffset
    obtain ⟨y, hy, hoffset⟩ := List.mem_flatMap.1 hoffset
    obtain ⟨x, hx, hoffset⟩ := List.mem_flatMap.1 hoffset
    exact hall _ (row_lt (List.mem_range.1 hx) (List.mem_range.1 hy)) offset hoffset

/-- All pixels are written by the loops. -/
theorem mem_written_parsePixels (hi : i < w * h) : i ∈ (parsePixels w h pixel data).written := by
  have hw : 0 < w := Nat.pos_of_mul_pos_right (Nat.zero_lt_of_lt hi)
  rw [parsePixels_eq_draw, mem_written_draw]
  refine .inl ⟨_, List.mem_flatMap.2 ⟨i / w, List.mem_range.2 (Nat.div_lt_of_lt_mul hi),
    List.mem_map.2 ⟨i % w, List.mem_range.2 (Nat.mod_lt i hw), rfl⟩⟩, ?_⟩
  exact Nat.div_add_mod' i w

theorem parseTGAReads_iff {targaSize : ℕ} : (∀ offset ∈ parseTGAReads file, offset < targaSize) ↔
    16 ≤ targaSize ∧ ∀ p < (TargaHeader.read file).imageWidth * (TargaHeader.read file).imageHeight,
      ((TargaHeader.read file).imageType = 3 → 18 + p < targaSize) ∧
        ((TargaHeader.read file).imageType = 2 → 18 + 4 * p + 3 < targaSize) := by
  have hheader : (∀ offset ∈ [12, 13, 14, 15, 2], offset < targaSize) ↔ 16 ≤ targaSize := by
    simp only [List.forall_mem_cons, List.not_mem_nil, false_imp_iff, implies_true, and_true]
    omega
  have htype (h : 16 ≤ targaSize) : 2 < targaSize := by omega
  rw [parseTGAReads, List.forall_mem_append, hheader]
  refine and_congr_right fun hle => ?_
  generalize (TargaHeader.read file).imageType = imageType
  split_ifs with hgrey htrue
  · rw [forall_pixelReads]
    refine forall₂_congr fun p _ => ?_
    simp only [List.forall_mem_cons, List.not_mem_nil, false_imp_iff, implies_true, and_true,
      show sizeofTargaHeader = 18 from rfl]
    omega
  · rw [List.forall_mem_cons, and_iff_right (htype hle), forall_pixelReads]
    refine forall₂_congr fun p _ => ?_
    simp only [List.forall_mem_cons, List.not_mem_nil, false_imp_iff, implies_true, and_true,
      show sizeofTargaHeader = 18 from rfl]
    omega
  · rw [List.forall_mem_singleton, iff_true_left (htype hle)]
    exact fun p _ => ⟨fun h => absurd h hgrey, fun h => absurd h htrue⟩

/-- The pixels are written for the two types of images that are parsed. -/
theorem parseData_written_iff :
    (∀ uninit, ∀ i < (parseTGA file uninit).width * (parseTGA file uninit).height,
      i ∈ (parseData file uninit).written) ↔
    (TargaHeader.read file).imageWidth * (TargaHeader.read file).imageHeight = 0 ∨
      (TargaHeader.read file).imageType = 3 ∨ (TargaHeader.read file).imageType = 2 := by
  simp only [parseTGA, parseData]
  split_ifs with hgrey htrue
  · exact iff_of_true (fun _ i hi => mem_written_parsePixels hi) (.inr (.inl hgrey))
  · exact iff_of_true (fun _ i hi => mem_written_parsePixels hi) (.inr (.inr htrue))
  · rw [or_iff_left (not_or.2 ⟨hgrey, htrue⟩)]
    constructor
    · intro h
      by_contra hpos
      exact absurd (h (fun _ => 0) 0 (Nat.pos_of_ne_zero hpos)) List.not_mem_nil
    · intro hzero _ i hi
      omega

/-- The files that are read within their bounds and give an icon without gaps: those that hold the
    header and all pixels of a grey or true-colour image. -/
theorem parsesInBounds_iff {targaSize : ℕ} : ParsesInBounds file targaSize ↔
    16 ≤ targaSize ∧
      ((TargaHeader.read file).imageWidth * (TargaHeader.read file).imageHeight = 0 ∨
        (TargaHeader.read file).imageType = 3 ∧
          18 + (TargaHeader.read file).imageWidth * (TargaHeader.read file).imageHeight ≤
            targaSize ∨
        (TargaHeader.read file).imageType = 2 ∧
          18 + 4 * ((TargaHeader.read file).imageWidth * (TargaHeader.read file).imageHeight) ≤
            targaSize) := by
  have hsplit : ParsesInBounds file targaSize ↔ _ ∧ _ :=
    ⟨fun h => ⟨parseTGAReads_iff.1 h.reads, parseData_written_iff.1 h.written⟩,
      fun h => ⟨parseTGAReads_iff.2 h.1, parseData_written_iff.2 h.2⟩⟩
  rw [hsplit]
  generalize (TargaHeader.read file).imageWidth * (TargaHeader.read file).imageHeight = n
  generalize (TargaHeader.read file).imageType = imageType
  constructor
  · rintro ⟨⟨hle, hpixels⟩, htype⟩
    refine ⟨hle, ?_⟩
    rcases Nat.eq_zero_or_pos n with hzero | hpos
    · exact .inl hzero
    · -- The last pixel is the one that is farthest from the header.
      have hlast := hpixels (n - 1) (by omega)
      omega
  · rintro ⟨hle, h⟩
    refine ⟨⟨hle, fun p hp => ?_⟩, ?_⟩
    · omega
    · omega

/-- The header of an image without its only pixel. -/
theorem not_parsesInBounds : ¬∀ (file : Mem) (targaSize : ℕ), ParsesInBounds file targaSize := by
  intro hall
  have hreads := (parseTGAReads_iff.1 (hall (onePixel fun _ => 0) 18).reads).2 0 (by decide)
  exact absurd (hreads.2 rfl) (by decide)

end SmartOS
