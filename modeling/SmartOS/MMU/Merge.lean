import SmartOS.MMU.Frames

/-!
# The block table

`initializeMMU` merges the descriptors of the memory map into blocks: a descriptor
that goes on where the last one ends, with the same type, extends the last block,
and any other starts the next one (`addDescriptor`). The table has 64 blocks, but
the loop goes on as long as there are descriptors.

* `MergedFrom`: which descriptors each block is merged from. `mergedFrom_foldl` is
  what the loop makes of a memory map.
* `tableHolds_iff`: the loop stays in the table, and all usable memory is in it,
  when there are at most 64 runs of descriptors to merge (`runsFrom`).
-/

namespace SmartOS

open Prog

/-! ## Descriptors and blocks -/

/-- The addresses that a descriptor describes. -/
def MemoryDescriptor.covers (d : MemoryDescriptor) (a : ℕ) : Prop :=
  d.physicalStart ≤ a ∧ a < d.physicalStart + d.numberOfPages * 0x1000

def MemoryBlock.covers (b : MemoryBlock) (a : ℕ) : Prop := b.physAddr ≤ a ∧ a < b.page b.numPages

/-- The descriptor `d'` goes on where `d` ends, with the same type. -/
def MemoryDescriptor.precedes (d d' : MemoryDescriptor) : Bool :=
  d'.type == d.type && d'.physicalStart == d.physicalStart + d.numberOfPages * 0x1000

/-- The number of runs of adjacent descriptors of the same type that start in a list, after the
    descriptor `last`, if any. -/
def runsFrom : Option MemoryDescriptor → List MemoryDescriptor → ℕ
  | _, [] => 0
  | last, d :: ds => (if last.any (·.precedes d) then 0 else 1) + runsFrom (some d) ds

/-- What a descriptor describes ends below `2 ^ 64`. -/
def MemoryDescriptor.Bounded (d : MemoryDescriptor) : Prop :=
  d.physicalStart + d.numberOfPages * 0x1000 < 2 ^ 64

instance (d : MemoryDescriptor) : Decidable d.Bounded :=
  inferInstanceAs (Decidable (d.physicalStart + d.numberOfPages * 0x1000 < 2 ^ 64))

/-- The block `b` is merged from the descriptors `ds`. -/
structure Merges (b : MemoryBlock) (ds : List MemoryDescriptor) : Prop where
  ne_nil : ds ≠ []
  present : b.present = true
  type : ∀ d ∈ ds, d.type = b.type
  covers : ∀ a, b.covers a ↔ ∃ d ∈ ds, d.covers a
  starts : ∀ d ∈ ds.head?, b.physAddr = d.physicalStart
  ends : ∀ d ∈ ds.getLast?, b.page b.numPages = d.physicalStart + d.numberOfPages * 0x1000

/-- The first `k` blocks are merged from the descriptors `ds`: block `i` from `g i`. -/
structure MergedFrom (blocks : ℕ → MemoryBlock) (k : ℕ) (g : ℕ → List MemoryDescriptor)
    (ds : List MemoryDescriptor) : Prop where
  flatMap : (List.range k).flatMap g = ds
  merges : ∀ i < k, Merges (blocks i) (g i)
  absent : ∀ i, k ≤ i → i < 64 → (blocks i).present = false

variable {blocks : ℕ → MemoryBlock} {k : ℕ} {d e : MemoryDescriptor} {b : MemoryBlock}
  {g : ℕ → List MemoryDescriptor} {ds ds' memoryMap : List MemoryDescriptor}

/-! ## The loop -/

theorem merges_singleton {frames : ℕ} :
    Merges ⟨true, d.physicalStart, d.numberOfPages, d.type, frames⟩ [d] where
  ne_nil := List.cons_ne_nil d []
  present := rfl
  type _ h := congrArg _ (List.mem_singleton.1 h)
  covers a := by simp [MemoryBlock.covers, MemoryDescriptor.covers, MemoryBlock.page]
  starts _ h := by cases h; rfl
  ends _ h := by cases h; rfl

/-- A block that is extended. -/
theorem Merges.append (h : Merges b ds) (he : e ∈ ds.getLast?) (hd : e.precedes d = true) :
    Merges { b with numPages := b.numPages + d.numberOfPages } (ds ++ [d]) := by
  have hend := h.ends e he
  obtain ⟨htype, hstart⟩ : d.type = e.type ∧ d.physicalStart = b.page b.numPages := by
    rw [hend]
    simpa [MemoryDescriptor.precedes] using hd
  rw [MemoryBlock.page] at hstart
  refine ⟨by simp, h.present, ?_, fun a => ?_, ?_, ?_⟩
  · rintro d' hd'
    rcases List.mem_append.1 hd' with h' | h'
    · exact h.type d' h'
    · rw [List.mem_singleton.1 h', htype]
      exact h.type e (List.mem_of_getLast? he)
  · simp only [List.mem_append, List.mem_singleton, or_and_right, exists_or, exists_eq_left,
      ← h.covers a]
    simp only [MemoryBlock.covers, MemoryDescriptor.covers, MemoryBlock.page]
    omega
  · rw [List.head?_append_of_ne_nil _ h.ne_nil]
    exact h.starts
  · rw [List.getLast?_concat]
    rintro _ ⟨⟩
    rw [MemoryBlock.page]
    dsimp only
    omega

theorem MergedFrom.eq_nil (h : MergedFrom blocks 0 g ds) : ds = [] := h.flatMap.symm

/-- The last descriptor is that of the last block. -/
theorem MergedFrom.getLast? (h : MergedFrom blocks (k + 1) g ds) :
    ds.getLast? = (g k).getLast? := by
  obtain ⟨e, he⟩ := Option.ne_none_iff_exists'.1
    (fun hn => (h.merges k k.lt_succ_self).ne_nil (List.getLast?_eq_none_iff.1 hn))
  rw [← h.flatMap, List.range_succ, List.flatMap_append, List.flatMap_singleton, he,
    List.getLast?_append, he, Option.some_or]

/-- The test of the loop is whether the descriptor goes on where the last one ends. -/
theorem MergedFrom.extends_iff (h : MergedFrom blocks k g ds) (hds : ∀ d ∈ ds, d.Bounded) :
    (k ≠ 0 ∧ d.type = (blocks (k - 1)).type ∧
      d.physicalStart = wrap ((blocks (k - 1)).physAddr + (blocks (k - 1)).numPages * 0x1000)) ↔
    ds.getLast?.any (·.precedes d) = true := by
  cases k with
  | zero => simp [h.eq_nil]
  | succ k =>
    have hk := h.merges k k.lt_succ_self
    obtain ⟨e, he⟩ := Option.ne_none_iff_exists'.1
      (fun hn => hk.ne_nil (List.getLast?_eq_none_iff.1 hn))
    have hbound : e.physicalStart + e.numberOfPages * 0x1000 < 2 ^ 64 :=
      hds e (List.mem_of_getLast? (h.getLast?.trans he))
    have hend := hk.ends e he
    rw [MemoryBlock.page] at hend
    rw [h.getLast?, he, Nat.add_sub_cancel, hend, wrap_of_lt hbound,
      ← hk.type e (List.mem_of_getLast? he)]
    simp [MemoryDescriptor.precedes]

/-- The block at `i` replaced, or added after the last one. -/
theorem MergedFrom.update {i : ℕ} (h : MergedFrom blocks k g ds) (hi : i ≤ k) (hk : k ≤ i + 1)
    {c : List MemoryDescriptor} (hb : Merges b c)
    (hc : (List.range i).flatMap g ++ c = ds ++ [d]) :
    MergedFrom (Function.update blocks i b) (i + 1) (Function.update g i c) (ds ++ [d]) := by
  refine ⟨?_, fun j hj => ?_, fun j hj hj' => ?_⟩
  · rw [List.range_succ, List.flatMap_append, List.flatMap_singleton, Function.update_self, ← hc]
    congr 1
    refine List.flatMap_congr fun j hj => ?_
    rw [Function.update_of_ne (List.mem_range.1 hj).ne]
  · by_cases hji : j = i
    · rw [hji, Function.update_self, Function.update_self]
      exact hb
    · rw [Function.update_of_ne hji, Function.update_of_ne hji]
      exact h.merges j (by omega)
  · rw [Function.update_of_ne (by omega)]
    exact h.absent j (by omega) hj'

/-- One descriptor. -/
theorem MergedFrom.addDescriptor (h : MergedFrom blocks k g ds) (hds : ∀ d ∈ ds, d.Bounded)
    (hd : d.Bounded) :
    (∃ g', MergedFrom (SmartOS.addDescriptor (blocks, k) d).1
      (SmartOS.addDescriptor (blocks, k) d).2 g' (ds ++ [d])) ∧
    (SmartOS.addDescriptor (blocks, k) d).2 =
      k + if ds.getLast?.any (·.precedes d) then 0 else 1 := by
  by_cases hext : ds.getLast?.any (·.precedes d) = true
  · -- The last block goes on.
    have htest := (h.extends_iff hds).2 hext
    rw [SmartOS.addDescriptor, if_pos htest, if_pos hext]
    obtain ⟨k, rfl⟩ := Nat.exists_eq_succ_of_ne_zero htest.1
    have hk := h.merges k k.lt_succ_self
    rw [h.getLast?] at hext
    obtain ⟨e, he, hprecedes⟩ := (Option.any_eq_true _ _).1 hext
    have hmerges := hk.append he hprecedes
    have hend := hmerges.ends d List.getLast?_concat
    rw [MemoryBlock.page] at hend
    have hsum : wrap ((blocks k).numPages + d.numberOfPages) =
        (blocks k).numPages + d.numberOfPages := by
      rw [MemoryDescriptor.Bounded] at hd
      refine wrap_of_lt ?_
      dsimp only at hend
      omega
    refine ⟨⟨_, h.update (i := k) (Nat.le_succ k) le_rfl (hsum ▸ hmerges) ?_⟩, rfl⟩
    rw [← List.append_assoc, ← h.flatMap, List.range_succ, List.flatMap_append,
      List.flatMap_singleton]
  · rw [SmartOS.addDescriptor, if_neg fun hn => hext ((h.extends_iff hds).1 hn), if_neg hext]
    exact ⟨⟨_, h.update le_rfl (Nat.le_succ k) merges_singleton (by rw [h.flatMap])⟩, rfl⟩

/-- All descriptors. -/
theorem mergedFrom_foldl (ds' : List MemoryDescriptor) (h : MergedFrom blocks k g ds)
    (hds : ∀ d ∈ ds ++ ds', d.Bounded) :
    (∃ g', MergedFrom (ds'.foldl addDescriptor (blocks, k)).1
      (ds'.foldl addDescriptor (blocks, k)).2 g' (ds ++ ds')) ∧
    (ds'.foldl addDescriptor (blocks, k)).2 = k + runsFrom ds.getLast? ds' := by
  induction ds' generalizing blocks k g ds with
  | nil => exact ⟨⟨g, by rwa [List.append_nil]⟩, rfl⟩
  | cons d ds' ih =>
    obtain ⟨⟨g₁, h₁⟩, hk⟩ := h.addDescriptor (fun e he => hds e (List.mem_append_left _ he))
      (hds d (List.mem_append_right _ List.mem_cons_self))
    rw [List.append_cons] at hds ⊢
    obtain ⟨hfold, hk'⟩ := ih h₁ hds
    refine ⟨hfold, ?_⟩
    rw [List.foldl_cons, hk', hk, List.getLast?_concat, runsFrom, Nat.add_assoc]

/-! ## What the loop writes -/

/-- The index of the block that the loop changes for a descriptor. -/
def writtenIndex (bk : (ℕ → MemoryBlock) × ℕ) (d : MemoryDescriptor) : ℕ :=
  let (blocks, k) := bk
  let last := blocks (k - 1)
  if k ≠ 0 ∧ d.type = last.type ∧
      d.physicalStart = wrap (last.physAddr + last.numPages * 0x1000) then k - 1
  else k

/-- The indices of the blocks that the loop changes, in order. -/
def mergeWrites : (ℕ → MemoryBlock) × ℕ → List MemoryDescriptor → List ℕ
  | _, [] => []
  | bk, d :: ds => writtenIndex bk d :: mergeWrites (addDescriptor bk d) ds

variable {bk : (ℕ → MemoryBlock) × ℕ} {n : ℕ}

/-- It is the last block that changes. -/
theorem addDescriptor_count (bk : (ℕ → MemoryBlock) × ℕ) (d : MemoryDescriptor) :
    bk.2 ≤ (addDescriptor bk d).2 ∧ (addDescriptor bk d).2 = writtenIndex bk d + 1 := by
  rw [addDescriptor, writtenIndex]
  dsimp only
  split_ifs with h
  · exact ⟨le_rfl, by omega⟩
  · exact ⟨Nat.le_succ _, rfl⟩

/-- The indices are in bounds when there are few enough blocks in the end. -/
theorem mergeWrites_lt_iff :
    (∀ i ∈ mergeWrites bk ds, i < n) ∧ bk.2 ≤ n ↔ (ds.foldl addDescriptor bk).2 ≤ n := by
  induction ds generalizing bk with
  | nil => simp [mergeWrites]
  | cons d ds ih =>
    obtain ⟨hle, hwritten⟩ := addDescriptor_count bk d
    rw [List.foldl_cons, ← ih, mergeWrites, List.forall_mem_cons, hwritten]
    constructor
    · rintro ⟨⟨hlt, hrest⟩, -⟩
      exact ⟨hrest, hlt⟩
    · rintro ⟨hrest, hlt⟩
      exact ⟨⟨hlt, hrest⟩, by omega⟩

/-! ## The table -/

/-- The blocks when the loop starts. -/
def clearTable (blocks : ℕ → MemoryBlock) : ℕ → MemoryBlock :=
  fun i => if i < 64 then { blocks i with present := false } else blocks i

theorem mergedFrom_clearTable (blocks : ℕ → MemoryBlock) :
    MergedFrom (clearTable blocks) 0 (fun _ => []) [] :=
  ⟨rfl, fun _ hi => absurd hi (Nat.not_lt_zero _), fun i _ hi => by rw [clearTable, if_pos hi]⟩

/-- The loop writes entries of the table only, and every page of a usable descriptor is in the
    block of some entry in the end. -/
structure TableHolds (blocks : ℕ → MemoryBlock) (memoryMap : List MemoryDescriptor) : Prop where
  writes : ∀ i ∈ mergeWrites (clearTable blocks, 0) memoryMap, i < 64
  pages : ∀ d ∈ memoryMap, isUsable d.type = true → ∀ j < d.numberOfPages, ∃ i < 64,
    ((memoryMap.foldl addDescriptor (clearTable blocks, 0)).1 i).present = true ∧
    ∀ a, d.physicalStart + j * 0x1000 ≤ a → a < d.physicalStart + (j + 1) * 0x1000 →
      ((memoryMap.foldl addDescriptor (clearTable blocks, 0)).1 i).covers a

/-- A descriptor is in one block. -/
theorem MergedFrom.covers_page (h : MergedFrom blocks k g ds) (hd : d ∈ ds) :
    ∃ i < k, (blocks i).present = true ∧ ∀ a, d.covers a → (blocks i).covers a := by
  rw [← h.flatMap, List.mem_flatMap] at hd
  obtain ⟨i, hi, hdi⟩ := hd
  have hik := List.mem_range.1 hi
  exact ⟨i, hik, (h.merges i hik).present, fun a ha => ((h.merges i hik).covers a).2 ⟨d, hdi, ha⟩⟩

/-- The table holds the memory map when the loop merges it into 64 blocks or fewer: there are at
    most 64 runs of adjacent descriptors of the same type. -/
theorem tableHolds_iff (hbounded : ∀ d ∈ memoryMap, d.Bounded) :
    TableHolds blocks memoryMap ↔ runsFrom none memoryMap ≤ 64 := by
  obtain ⟨⟨g, hmerged⟩, hcount⟩ := mergedFrom_foldl memoryMap
    (mergedFrom_clearTable blocks) (by rwa [List.nil_append])
  rw [List.getLast?_nil, Nat.zero_add] at hcount
  rw [← hcount, ← mergeWrites_lt_iff]
  refine ⟨fun h => ⟨h.writes, Nat.zero_le 64⟩, fun h => ⟨h.1, fun d hd _ j hj => ?_⟩⟩
  rw [mergeWrites_lt_iff] at h
  obtain ⟨i, hi, hpresent, hcovers⟩ := hmerged.covers_page hd
  refine ⟨i, hi.trans_le h, hpresent, fun a ha ha' => hcovers a ⟨le_of_add_le_left ha, ?_⟩⟩
  have hend : (j + 1) * 0x1000 ≤ d.numberOfPages * 0x1000 := Nat.mul_le_mul_right _ hj
  exact ha'.trans_le (Nat.add_le_add_left hend _)

/-- Two descriptors in one block. -/
theorem tableHolds_twoDescriptors :
    TableHolds (zeroMMU 0).blocks [⟨7, 0x100000, 16⟩, ⟨7, 0x110000, 16⟩] :=
  (tableHolds_iff (by decide)).2 (by decide)

/-- `n` pages with gaps between them. -/
def scatteredPages (n : ℕ) : List MemoryDescriptor :=
  (List.range n).map fun i => ⟨7, 0x100000 + i * 0x2000, 1⟩

theorem not_tableHolds_scatteredPages :
    ¬TableHolds (zeroMMU 0).blocks (scatteredPages 65) := fun h => by
  have hbounded : ∀ d ∈ [] ++ scatteredPages 65, d.Bounded := by decide +kernel
  have hcount := (mergedFrom_foldl _ (mergedFrom_clearTable (zeroMMU 0).blocks) hbounded).2
  have hruns : runsFrom none (scatteredPages 65) = 65 := by decide +kernel
  have hle := mergeWrites_lt_iff.1 ⟨h.writes, Nat.zero_le 64⟩
  rw [hcount, List.getLast?_nil, hruns] at hle
  exact absurd hle (by decide)

end SmartOS
