import SmartOS.Boot.Status

/-!
# The kernel in memory

What the loops of `efi_main` over the program headers leave in memory. The first one
finds where the segments start and end, and the pages in between are allocated; the
second one copies every segment to its place, and clears the rest of it. The loops
read the headers from the buffer of the file, while they write to memory.

* `Firmware.Loadable`: a file that can be loaded, and a buffer for it that is apart
  from the pages;
* `loadSegment_eq`: what is done for one segment;
* `LoadedUpTo`: the invariant of the second loop, which `loadedUpTo_loadSegments`
  shows, with where it writes (`loadWritten`);
* `covered_range`: the pages allocated have all of the segments;
* `loadKernel_loads`: the kernel, when it is started.
-/

namespace SmartOS

open Prog Caller

/-! ## A file that can be loaded -/

namespace ProgramHeader

/-- The addresses of a segment. -/
def Covers (p : ProgramHeader) (x : ℕ) : Prop := p.vaddr ≤ x ∧ x < p.vaddr + p.memsz

/-- The segment is in its place: its bytes of the file, and zeros after them. -/
def Loaded (p : ProgramHeader) (file mem : Mem) : Prop :=
  (∀ k < p.filesz, mem (p.vaddr + k) = file (p.offset + k)) ∧
    ∀ k, p.filesz ≤ k → k < p.memsz → mem (p.vaddr + k) = 0

end ProgramHeader

namespace Firmware

/-- The program headers of the file. -/
def header (fw : Firmware) (i : ℕ) : ProgramHeader :=
  programHeader fw.kernel (elfPhoff fw.kernel 0) i

def headers (fw : Firmware) : List ProgramHeader :=
  (List.range (elfPhnum fw.kernel 0)).map fw.header

/-- The segments of the file that are to be loaded. -/
def segments (fw : Firmware) : List ProgramHeader := fw.headers.filter (·.type = ptLoad)

/-- Where the file is in memory. -/
abbrev kernelBuffer (fw : Firmware) : ℕ := fw.allocatePool fw.kernelSize

/-- The addresses of the pages that are allocated. -/
def InPages (fw : Firmware) (x : ℕ) : Prop :=
  fw.range.2 ≤ x ∧ x < fw.range.2 + kernelPages fw.range * 0x1000

/-- A kernel that can be loaded: its headers and the data of its segments are in the file, and no
address wraps around, also when the whole is rounded up to pages. -/
structure Loadable (fw : Firmware) : Prop where
  header_le : 64 ≤ fw.kernelSize
  headers_le : elfPhoff fw.kernel 0 + 56 * elfPhnum fw.kernel 0 ≤ fw.kernelSize
  data_lt : ∀ p ∈ fw.segments, ∀ k < p.filesz, p.offset + k < fw.kernelSize
  segments_ne : fw.segments ≠ []
  filesz_le : ∀ p ∈ fw.segments, p.filesz ≤ p.memsz
  end_lt : ∀ p ∈ fw.segments, p.vaddr + p.memsz < 2 ^ 64
  pages_lt : ∀ p ∈ fw.segments, ∀ q ∈ fw.segments, p.vaddr + p.memsz - q.vaddr + 0xFFF < 2 ^ 64
  aligned : ∀ p ∈ fw.segments, (∀ q ∈ fw.segments, p.vaddr ≤ q.vaddr) → 0x1000 ∣ p.vaddr
  disjoint : fw.segments.Pairwise fun p q => ∀ x, p.Covers x → ¬q.Covers x
  buffer_le : fw.kernelBuffer + fw.kernelSize ≤ 2 ^ 64
  buffer_free : ∀ x, fw.InPages x → ¬(fw.kernelBuffer ≤ x ∧ x < fw.kernelBuffer + fw.kernelSize)

end Firmware

/-! ## Where the loop writes -/

/-- What `loadSegment` writes, with `memcpy` and with `memset`. -/
def segmentWritten (p : ProgramHeader) : Set ℕ :=
  Set.Ico p.vaddr (p.vaddr + p.filesz) ∪
    Set.Ico (wrap (p.vaddr + p.filesz)) (wrap (p.vaddr + p.filesz) + wrapSub p.memsz p.filesz)

/-- What `loadSegments` writes. -/
def loadWritten (kernelBuffer programHeaders : ℕ) : ℕ → ℕ → Mem → Set ℕ
  | 0, _, _ => ∅
  | n + 1, i, mem =>
    if i < elfPhnum mem kernelBuffer then
      let p := programHeader mem programHeaders i
      (if p.type = ptLoad then segmentWritten p else ∅) ∪
        loadWritten kernelBuffer programHeaders n (i + 1)
          (if p.type = ptLoad then loadSegment kernelBuffer p mem else mem)
    else ∅

/-- What `efi_main` writes in its loops. -/
def Firmware.written (fw : Firmware) : Set ℕ :=
  loadWritten fw.kernelBuffer (wrap (fw.kernelBuffer + elfPhoff fw.kernelMem fw.kernelBuffer))
    (2 ^ 16) 0 fw.kernelMem

/-! ## One segment -/

section

variable {p : ProgramHeader} {buf : ℕ} {mem : Mem}

/-- Nothing else is changed. -/
theorem loadSegment_of_not_mem {x : ℕ} (hx : x ∉ segmentWritten p) :
    loadSegment buf p mem x = mem x := by
  rw [segmentWritten, Set.mem_union, not_or] at hx
  rw [loadSegment, memset_eq_fill, Mem.fill_of_not_mem hx.2, memcpy_of_not_mem hx.1]

/-- A segment that does not wrap around is written where it is. -/
theorem covers_of_mem_segmentWritten (hsize : p.filesz ≤ p.memsz)
    (hend : p.vaddr + p.memsz < 2 ^ 64) {x : ℕ} (hx : x ∈ segmentWritten p) : p.Covers x := by
  rw [segmentWritten, wrap_of_lt (by omega), wrapSub_of_le hsize (by omega)] at hx
  rcases hx with ⟨hle, hlt⟩ | ⟨hle, hlt⟩
  · exact ⟨hle, by omega⟩
  · exact ⟨by omega, by omega⟩

/-- What is done for one segment, when the memory that it is copied from is elsewhere. -/
theorem loadSegment_eq (hsize : p.filesz ≤ p.memsz) (hend : p.vaddr + p.memsz < 2 ^ 64)
    (hsrc : ∀ k < p.filesz, buf + p.offset + k < 2 ^ 64 ∧ ¬p.Covers (buf + p.offset + k)) :
    loadSegment buf p mem = (mem.copy p.vaddr mem (buf + p.offset) p.filesz).fill
      (p.vaddr + p.filesz) (p.memsz - p.filesz) 0 := by
  have hcopy : memcpy mem p.vaddr (wrap (buf + p.offset)) p.filesz =
      mem.copy p.vaddr mem (buf + p.offset) p.filesz := by
    rcases Nat.eq_zero_or_pos p.filesz with hzero | hpos
    · rw [hzero, Mem.copy_zero]
      rfl
    · have hlt : buf + p.offset < 2 ^ 64 := (hsrc 0 hpos).1
      rw [wrap_of_lt hlt]
      refine memcpy_eq_copy (not_not.1 fun hover => ?_)
      -- The first byte of the segment would be one of those copied.
      refine (hsrc (p.vaddr - (buf + p.offset)) (by omega)).2 ⟨?_, ?_⟩ <;> omega
  rw [loadSegment, hcopy, memset_eq_fill, wrap_of_lt (by omega), wrapSub_of_le hsize (by omega)]

/-- A segment that is copied from the file is loaded. -/
theorem loaded_loadSegment {file : Mem} (hsize : p.filesz ≤ p.memsz)
    (hend : p.vaddr + p.memsz < 2 ^ 64)
    (hsrc : ∀ k < p.filesz, buf + p.offset + k < 2 ^ 64 ∧ ¬p.Covers (buf + p.offset + k))
    (hfile : ∀ k < p.filesz, mem (buf + p.offset + k) = file (p.offset + k)) :
    p.Loaded file (loadSegment buf p mem) := by
  rw [loadSegment_eq hsize hend hsrc]
  refine ⟨fun k hk => ?_, fun k hle hlt => ?_⟩
  · rw [Mem.fill_of_not_mem (by omega), Mem.copy_of_mem ⟨by omega, by omega⟩,
      Nat.add_sub_cancel_left]
    exact hfile k hk
  · rw [Mem.fill_of_mem ⟨by omega, by omega⟩]

/-- It stays so while none of it is changed. -/
theorem ProgramHeader.Loaded.congr {file mem' : Mem} (h : p.Loaded file mem)
    (hsize : p.filesz ≤ p.memsz) (hmem : ∀ k < p.memsz, mem' (p.vaddr + k) = mem (p.vaddr + k)) :
    p.Loaded file mem' :=
  ⟨fun k hk => (hmem k (hk.trans_le hsize)).trans (h.1 k hk),
    fun k hle hlt => (hmem k hlt).trans (h.2 k hle hlt)⟩

/-- What the second loop changes is what it writes. -/
theorem loadSegments_of_not_mem {n i ph x : ℕ} (hx : x ∉ loadWritten buf ph n i mem) :
    loadSegments buf ph n i mem x = mem x := by
  induction n generalizing i mem with
  | zero => rfl
  | succ n ih =>
    rw [loadWritten] at hx
    rw [loadSegments]
    split_ifs at hx ⊢ with hlt
    · rw [Set.mem_union, not_or] at hx
      refine (ih hx.2).trans ?_
      split_ifs with htype
      · rw [if_pos htype] at hx
        exact loadSegment_of_not_mem hx.1
      · rfl
    · rfl

end

/-! ## The second loop -/

namespace Firmware

variable {fw : Firmware} {mem : Mem} {i j n : ℕ}

/-- The file is in the buffer. -/
def HoldsFile (fw : Firmware) (mem : Mem) : Prop :=
  ∀ k < fw.kernelSize, mem (fw.kernelBuffer + k) = fw.kernel k

theorem holdsFile_kernelMem (fw : Firmware) : fw.HoldsFile fw.kernelMem := fun k hk => by
  rw [kernelMem, Mem.copy_of_mem ⟨Nat.le_add_right _ _, Nat.add_lt_add_left hk _⟩, Nat.zero_add,
    Nat.add_sub_cancel_left]

theorem HoldsFile.phnum (h : fw.HoldsFile mem) (hfw : fw.Loadable) :
    elfPhnum mem fw.kernelBuffer = elfPhnum fw.kernel 0 := by
  have := hfw.header_le
  exact @Mem.get16_congr (fun x => mem (fw.kernelBuffer + x)) fw.kernel 56
    fun x _ hx => h x (by omega)

theorem HoldsFile.phoff (h : fw.HoldsFile mem) (hfw : fw.Loadable) :
    elfPhoff mem fw.kernelBuffer = elfPhoff fw.kernel 0 := by
  have := hfw.header_le
  exact @Mem.get64_congr (fun x => mem (fw.kernelBuffer + x)) fw.kernel 32
    fun x _ hx => h x (by omega)

/-- The headers that are read from the buffer are those of the file. -/
theorem HoldsFile.header (h : fw.HoldsFile mem) (hfw : fw.Loadable)
    (hi : i < elfPhnum fw.kernel 0) :
    programHeader mem (fw.kernelBuffer + elfPhoff fw.kernel 0) i = fw.header i := by
  have hle := hfw.headers_le
  have hassoc : fw.kernelBuffer + elfPhoff fw.kernel 0 + 56 * i =
      fw.kernelBuffer + (elfPhoff fw.kernel 0 + 56 * i) := Nat.add_assoc _ _ _
  have h64 : ∀ field, field + 8 ≤ 56 →
      mem.get64 (fw.kernelBuffer + elfPhoff fw.kernel 0 + 56 * i + field) =
        fw.kernel.get64 (elfPhoff fw.kernel 0 + 56 * i + field) := fun field hfield => by
    rw [hassoc, Nat.add_assoc fw.kernelBuffer]
    exact @Mem.get64_congr (fun x => mem (fw.kernelBuffer + x)) fw.kernel _
      fun x _ hx => h x (by omega)
  have h32 : mem.get32 (fw.kernelBuffer + elfPhoff fw.kernel 0 + 56 * i) =
      fw.kernel.get32 (elfPhoff fw.kernel 0 + 56 * i) := by
    rw [hassoc]
    exact @Mem.get32_congr (fun x => mem (fw.kernelBuffer + x)) fw.kernel _
      fun x _ hx => h x (by omega)
  rw [Firmware.header, programHeader, programHeader, h32, h64 8 (by decide), h64 16 (by decide),
    h64 32 (by decide), h64 40 (by decide)]

theorem mem_segments : j < elfPhnum fw.kernel 0 → (fw.header j).type = ptLoad →
    fw.header j ∈ fw.segments := fun hj htype =>
  List.mem_filter.2 ⟨List.mem_map.2 ⟨j, List.mem_range.2 hj, rfl⟩, by simp [htype]⟩

theorem exists_of_mem_segments {p : ProgramHeader} (hp : p ∈ fw.segments) :
    ∃ j < elfPhnum fw.kernel 0, fw.header j = p ∧ p.type = ptLoad := by
  obtain ⟨hp, htype⟩ := List.mem_filter.1 hp
  obtain ⟨j, hj, rfl⟩ := List.mem_map.1 hp
  exact ⟨j, List.mem_range.1 hj, rfl, by simpa using htype⟩

/-- A segment is apart from those of the headers before its own. -/
theorem Loadable.disjoint_of_lt (hfw : fw.Loadable) (hji : j < i) (hi : i < elfPhnum fw.kernel 0)
    (hj : (fw.header j).type = ptLoad) (htype : (fw.header i).type = ptLoad) {x : ℕ}
    (hx : (fw.header j).Covers x) : ¬(fw.header i).Covers x := by
  have hdisjoint := hfw.disjoint
  rw [segments, headers, List.pairwise_filter, List.pairwise_map] at hdisjoint
  have hget := List.pairwise_iff_getElem.1 hdisjoint j i (by rw [List.length_range]; omega)
    (by rwa [List.length_range]) hji
  simp only [List.getElem_range, hj, htype, decide_true, forall_const] at hget
  exact hget x hx

/-- The headers before `i` are done: the file is still in the buffer, and their segments are in
their places. -/
structure LoadedUpTo (fw : Firmware) (mem : Mem) (i : ℕ) : Prop where
  file : fw.HoldsFile mem
  loaded : ∀ j < i, (fw.header j).type = ptLoad → (fw.header j).Loaded fw.kernel mem

/-- A segment is loaded, and nothing else changed. -/
theorem LoadedUpTo.step (h : fw.LoadedUpTo mem i) (hfw : fw.Loadable)
    (hpages : ∀ p ∈ fw.segments, ∀ x, p.Covers x → fw.InPages x)
    (hi : i < elfPhnum fw.kernel 0) (htype : (fw.header i).type = ptLoad) :
    fw.LoadedUpTo (loadSegment fw.kernelBuffer (fw.header i) mem) (i + 1) := by
  have hseg := mem_segments hi htype
  have hsize := hfw.filesz_le _ hseg
  have hend := hfw.end_lt _ hseg
  have hbuffer := hfw.buffer_le
  -- The file is apart from the segment.
  have hapart : ∀ k < fw.kernelSize, ¬(fw.header i).Covers (fw.kernelBuffer + k) :=
    fun k hk hcovers => hfw.buffer_free _ (hpages _ hseg _ hcovers)
      ⟨Nat.le_add_right _ _, Nat.add_lt_add_left hk _⟩
  have hframe : ∀ x, ¬(fw.header i).Covers x →
      loadSegment fw.kernelBuffer (fw.header i) mem x = mem x := fun x hx =>
    loadSegment_of_not_mem fun hmem => hx (covers_of_mem_segmentWritten hsize hend hmem)
  refine ⟨fun k hk => (hframe _ (hapart k hk)).trans (h.file k hk), fun j hj hjtype => ?_⟩
  rcases Nat.lt_succ_iff_lt_or_eq.1 hj with hlt | rfl
  · -- An earlier segment is apart from this one.
    refine (h.loaded j hlt hjtype).congr (hfw.filesz_le _ (mem_segments (hlt.trans hi) hjtype))
      fun k hk => hframe _ (hfw.disjoint_of_lt hlt hi hjtype htype ?_)
    exact ⟨Nat.le_add_right _ _, Nat.add_lt_add_left hk _⟩
  · refine loaded_loadSegment hsize hend (fun k hk => ?_) fun k hk => ?_
    · have hdata := hfw.data_lt _ hseg k hk
      rw [Nat.add_assoc]
      exact ⟨by omega, hapart _ hdata⟩
    · rw [Nat.add_assoc]
      exact h.file _ (hfw.data_lt _ hseg k hk)

/-- The second loop, from header `i` on: it loads the rest of the segments, and writes to segments
only. -/
theorem loadedUpTo_loadSegments (hfw : fw.Loadable)
    (hpages : ∀ p ∈ fw.segments, ∀ x, p.Covers x → fw.InPages x)
    (hn : elfPhnum fw.kernel 0 ≤ i + n) (hi : i ≤ elfPhnum fw.kernel 0) (h : fw.LoadedUpTo mem i) :
    fw.LoadedUpTo (loadSegments fw.kernelBuffer (fw.kernelBuffer + elfPhoff fw.kernel 0) n i mem)
      (elfPhnum fw.kernel 0) ∧
    ∀ x ∈ loadWritten fw.kernelBuffer (fw.kernelBuffer + elfPhoff fw.kernel 0) n i mem,
      ∃ p ∈ fw.segments, p.Covers x := by
  induction n generalizing i mem with
  | zero =>
    obtain rfl : i = elfPhnum fw.kernel 0 := by omega
    exact ⟨h, fun x hx => absurd hx (Set.notMem_empty x)⟩
  | succ n ih =>
    rw [loadSegments, loadWritten, h.file.phnum hfw]
    rcases hi.lt_or_eq with hlt | rfl
    · rw [if_pos hlt, if_pos hlt]
      dsimp only
      rw [h.file.header hfw hlt]
      by_cases htype : (fw.header i).type = ptLoad
      · rw [if_pos htype, if_pos htype]
        have hseg := mem_segments hlt htype
        obtain ⟨hloaded, hwritten⟩ := ih (by omega) hlt (h.step hfw hpages hlt htype)
        refine ⟨hloaded, fun x hx => hx.elim (fun hx => ⟨_, hseg, ?_⟩) (hwritten x)⟩
        exact covers_of_mem_segmentWritten (hfw.filesz_le _ hseg) (hfw.end_lt _ hseg) hx
      · rw [if_neg htype, if_neg htype, Set.empty_union]
        refine ih (by omega) hlt ⟨h.file, fun j hj hjtype => ?_⟩
        rcases Nat.lt_succ_iff_lt_or_eq.1 hj with hj | rfl
        · exact h.loaded j hj hjtype
        · exact absurd hjtype htype
    · rw [if_neg (lt_irrefl _), if_neg (lt_irrefl _)]
      exact ⟨h, fun x hx => absurd hx (Set.notMem_empty x)⟩

end Firmware

/-! ## The pages -/

/-- A round of the first loop. -/
def widen (r : ℕ × ℕ) (p : ProgramHeader) : ℕ × ℕ :=
  if p.type = ptLoad then
    (if wrap (p.vaddr + p.memsz) > r.1 then wrap (p.vaddr + p.memsz) else r.1,
      if p.vaddr < r.2 then p.vaddr else r.2)
  else r

theorem segmentRange_eq (mem : Mem) (header programHeaders : ℕ) :
    segmentRange mem header programHeaders =
      ((List.range (elfPhnum mem header)).map (programHeader mem programHeaders)).foldl widen
        (0, wrapSub 0 1) := by
  rw [List.foldl_map]
  rfl

/-- What the first loop finds: bounds of all segments, which are those of one each. -/
structure Bounds (ps : List ProgramHeader) (r : ℕ × ℕ) : Prop where
  end_le : ∀ p ∈ ps, p.type = ptLoad → wrap (p.vaddr + p.memsz) ≤ r.1
  le_vaddr : ∀ p ∈ ps, p.type = ptLoad → r.2 ≤ p.vaddr
  highest : r.1 = 0 ∨ ∃ p ∈ ps, p.type = ptLoad ∧ r.1 = wrap (p.vaddr + p.memsz)
  lowest : r.2 = wrapSub 0 1 ∨ ∃ p ∈ ps, p.type = ptLoad ∧ r.2 = p.vaddr

theorem bounds_foldl_widen (ps : List ProgramHeader) :
    Bounds ps (ps.foldl widen (0, wrapSub 0 1)) := by
  induction ps using List.reverseRecOn with
  | nil => exact ⟨by simp, by simp, .inl rfl, .inl rfl⟩
  | append_singleton ps p ih =>
    rw [List.foldl_append, List.foldl_cons, List.foldl_nil]
    generalize ps.foldl widen (0, wrapSub 0 1) = r at ih
    obtain ⟨hend, hvaddr, hhighest, hlowest⟩ := ih
    rw [widen]
    constructor <;> grind

namespace Firmware

variable {fw : Firmware}

/-- The program headers are behind the start of the file, in the buffer. -/
theorem programHeaders_eq (hfw : fw.Loadable) :
    wrap (fw.kernelBuffer + elfPhoff fw.kernelMem fw.kernelBuffer) =
      fw.kernelBuffer + elfPhoff fw.kernel 0 := by
  obtain ⟨p, hp⟩ := List.exists_mem_of_ne_nil _ hfw.segments_ne
  obtain ⟨j, hj, -⟩ := exists_of_mem_segments hp
  have hheaders := hfw.headers_le
  have hbuffer := hfw.buffer_le
  rw [fw.holdsFile_kernelMem.phoff hfw, wrap_of_lt (by omega)]

/-- The first loop reads the headers of the file. -/
theorem range_eq (hfw : fw.Loadable) : fw.range = fw.headers.foldl widen (0, wrapSub 0 1) := by
  rw [range, programHeaders_eq hfw, segmentRange_eq, fw.holdsFile_kernelMem.phnum hfw, headers]
  rw [List.map_congr_left fun i hi => fw.holdsFile_kernelMem.header hfw (List.mem_range.1 hi)]

/-- The pages have all of the segments. -/
theorem covered_range (hfw : fw.Loadable) {p : ProgramHeader} (hp : p ∈ fw.segments) {x : ℕ}
    (hx : p.Covers x) : fw.InPages x := by
  obtain ⟨hend, hvaddr, hhighest, hlowest⟩ := range_eq hfw ▸ bounds_foldl_widen fw.headers
  have hload : ∀ q, q ∈ fw.segments ↔ q ∈ fw.headers ∧ q.type = ptLoad := fun q => by
    simp [segments]
  have hp' := (hload p).1 hp
  have hle := hvaddr p hp'.1 hp'.2
  have hge := hend p hp'.1 hp'.2
  have hlt := hfw.end_lt p hp
  obtain ⟨hxle, hxlt⟩ := hx
  rw [wrap_of_lt hlt] at hge
  obtain ⟨q, hq, hqtype, hlow⟩ := hlowest.resolve_left fun h => by
    rw [h, wrapSub_eq_mod] at hle
    omega
  obtain ⟨t, ht, httype, hhigh⟩ := hhighest.resolve_left (by omega)
  have htlt := hfw.end_lt t ((hload t).2 ⟨ht, httype⟩)
  have hspan := hfw.pages_lt t ((hload t).2 ⟨ht, httype⟩) q ((hload q).2 ⟨hq, hqtype⟩)
  rw [wrap_of_lt htlt] at hhigh
  rw [InPages, kernelPages, wrapSub_of_le (by omega) (by omega), wrap_of_lt (by omega)]
  omega

end Firmware

/-! ## The kernel, when it is started -/

/-- When `efi_main` gets as far as that, every segment of the kernel is in its place, and all that
was written, and may have changed, is in the pages that were allocated for it. -/
theorem loadKernel_loads {fw : Firmware} (hfw : fw.Loadable) {status : BootCall → ℕ} {entry : ℕ}
    {mem : Mem} (hrun : ((loadKernel fw).run status).2 = .ok (entry, mem)) :
    (∀ p ∈ fw.segments, p.Loaded fw.kernel mem) ∧
    .allocatePages (kernelPages fw.range) fw.range.2 ∈ ((loadKernel fw).run status).1 ∧
    (∀ x ∈ fw.written, fw.InPages x) ∧ ∀ x ∉ fw.written, mem x = fw.kernelMem x := by
  have hmakes := @loadKernel_makes fw status
  -- A call that had failed would have ended it.
  obtain ⟨hcalls, hallocates⟩ := not_not.1 fun hnot => by
    obtain ⟨calls, e, herror⟩ := hmakes.error hnot
    rw [herror] at hrun
    cases hrun
  have hphnum : elfPhnum fw.kernel 0 ≤ 0 + 2 ^ 16 := by
    rw [Nat.zero_add]
    exact Mem.get16_lt.le
  have hloads := Firmware.loadedUpTo_loadSegments hfw
    (fun p hp x => Firmware.covered_range hfw hp) hphnum (Nat.zero_le _)
    ⟨fw.holdsFile_kernelMem, fun j hj => absurd hj (Nat.not_lt_zero j)⟩
  rw [← Firmware.programHeaders_eq hfw] at hloads
  rw [hmakes.ok hcalls hallocates] at hrun ⊢
  obtain rfl : fw.loaded.2 = mem := congrArg Prod.snd (Except.ok.inj hrun)
  refine ⟨fun p hp => ?_, by simp, fun x hx => ?_, fun x => loadSegments_of_not_mem⟩
  · obtain ⟨j, hj, rfl, htype⟩ := Firmware.exists_of_mem_segments hp
    exact hloads.1.loaded j hj htype
  · obtain ⟨p, hp, hx⟩ := hloads.2 x hx
    exact Firmware.covered_range hfw hp hx

/-- A file with two segments, at 0x101800 and at 0x100000, each of which has four bytes in the
file and more in memory. -/
def smallKernel : Mem := fun x =>
  if x = 32 then 64 else if x = 56 then 2 else          -- The file header.
  if x = 64 then 1 else if x = 72 then 176 else         -- The type and the offset of the first,
  if x = 81 then 0x18 else if x = 82 then 0x10 else     -- its address,
  if x = 96 then 4 else if x = 104 then 16 else         -- its sizes.
  if x = 120 then 1 else if x = 128 then 180 else       -- The same of the second.
  if x = 138 then 0x10 else
  if x = 152 then 4 else if x = 160 then 8 else
  if 176 ≤ x ∧ x < 184 then BitVec.ofNat 8 x else 0     -- The bytes of both.

def smallFirmware : Firmware :=
  { emptyFirmware with kernel := smallKernel, kernelSize := 184, allocatePool := fun _ => 0x10000 }

theorem segments_smallFirmware : smallFirmware.segments =
    [⟨ptLoad, 176, 0x101800, 4, 16⟩, ⟨ptLoad, 180, 0x100000, 4, 8⟩] := by decide

theorem range_smallFirmware : smallFirmware.range = (0x101810, 0x100000) := by
  have hphoff : elfPhoff smallFirmware.kernelMem smallFirmware.kernelBuffer = 64 := by decide
  have hphnum : elfPhnum smallFirmware.kernelMem smallFirmware.kernelBuffer = 2 := by decide
  have hheaders : (List.range 2).map (programHeader smallFirmware.kernelMem (0x10000 + 64)) =
      [⟨ptLoad, 176, 0x101800, 4, 16⟩, ⟨ptLoad, 180, 0x100000, 4, 8⟩] := by decide
  have hbuffer : smallFirmware.allocatePool smallFirmware.kernelSize = 0x10000 := rfl
  rw [Firmware.range, hphoff, segmentRange_eq, hphnum, hbuffer, wrap_of_lt (by decide), hheaders,
    List.foldl_cons, List.foldl_cons, List.foldl_nil, widen, widen]
  simp [wrap_of_lt, wrapSub_eq_mod]

theorem loadable_smallFirmware : smallFirmware.Loadable := by
  have hseg {P : ProgramHeader → Prop} (hfirst : P ⟨ptLoad, 176, 0x101800, 4, 16⟩)
      (hsecond : P ⟨ptLoad, 180, 0x100000, 4, 8⟩) : ∀ p ∈ smallFirmware.segments, P p := by
    rw [segments_smallFirmware]
    exact List.forall_mem_cons.2 ⟨hfirst, List.forall_mem_singleton.2 hsecond⟩
  refine ⟨by decide, by decide, ?_, ?_, ?_, ?_, ?_, ?_, ?_, by decide, fun x hx => ?_⟩
  · exact hseg (by decide) (by decide)
  · rw [segments_smallFirmware]
    exact List.cons_ne_nil _ _
  · exact hseg (by decide) (by decide)
  · exact hseg (by decide) (by decide)
  · exact hseg (hseg (by decide) (by decide)) (hseg (by decide) (by decide))
  · -- The first one is not aligned, but it does not come first in memory.
    refine hseg (fun hle => ?_) fun _ => ⟨0x100, rfl⟩
    have hmem : (⟨ptLoad, 180, 0x100000, 4, 8⟩ : ProgramHeader) ∈ smallFirmware.segments := by
      rw [segments_smallFirmware]
      exact List.mem_cons_of_mem _ (List.mem_singleton_self _)
    exact absurd (hle _ hmem) (by decide)
  · rw [segments_smallFirmware]
    refine List.pairwise_pair.2 fun x hx => ?_
    simp only [ProgramHeader.Covers] at hx ⊢
    omega
  · rw [Firmware.InPages, range_smallFirmware] at hx
    have hbuffer : smallFirmware.kernelBuffer + smallFirmware.kernelSize = 0x100B8 := rfl
    omega

/-- Both segments are loaded, and the rest of each in memory is zero. -/
theorem loadKernel_small : ∃ entry mem,
    ((loadKernel smallFirmware).run fun _ => 0).2 = .ok (entry, mem) ∧
    (∀ p ∈ smallFirmware.segments, p.Loaded smallFirmware.kernel mem) ∧
    .allocatePages (kernelPages smallFirmware.range) smallFirmware.range.2 ∈
      ((loadKernel smallFirmware).run fun _ => 0).1 ∧
    (∀ x ∈ smallFirmware.written, smallFirmware.InPages x) ∧
    ∀ x ∉ smallFirmware.written, mem x = smallFirmware.kernelMem x := by
  have hrun := (@loadKernel_makes smallFirmware fun _ => 0).ok
    (fun _ _ => not_not.2 rfl) rfl
  exact ⟨_, _, by rw [hrun], loadKernel_loads loadable_smallFirmware (by rw [hrun])⟩

end SmartOS
