import SmartOS.MMU.Rights
import SmartOS.MMU.Merge

/-!
# The initial directory

After `initializeMMU`, the kernel's directory maps the memory that the firmware
describes to itself, present and writable, and nothing else.

* `blocksOf_described`: the blocks that the descriptors are merged into cover the
  same memory, and there are as many as there are runs of adjacent descriptors of
  the same type (`runsFrom`).
* `allocateFrames_spec`: the bitmaps lie in the memory that the bump allocator hands
  out, and are then all that `reservePage` changes (`reserveKernel_mem`).
* `mapBlocks_refines`: the blocks are mapped one after the other, in an address space
  that is empty at first.
* `translate_initializeMMU` puts these together.
-/

namespace SmartOS

open Prog

/-! ## Descriptors and blocks -/

/-- Page-aligned memory below `2 ^ 48`. -/
structure MemoryDescriptor.Valid (d : MemoryDescriptor) : Prop where
  align : d.physicalStart % 0x1000 = 0
  bound : d.physicalStart + d.numberOfPages * 0x1000 ≤ 2 ^ 48

structure MemoryBlock.Valid (b : MemoryBlock) : Prop where
  align : b.physAddr % 0x1000 = 0
  bound : b.page b.numPages ≤ 2 ^ 48

/-- The state of the loop that merges the descriptors: the first `k` blocks cover the addresses
    `C`, and the last of them ends with the descriptor `last`. -/
structure BlocksOf (blocks : ℕ → MemoryBlock) (k : ℕ) (last : Option MemoryDescriptor) (C : Set ℕ) :
    Prop where
  present : ∀ i < k, (blocks i).present = true
  absent : ∀ i, k ≤ i → i < 64 → (blocks i).present = false
  valid : ∀ i < k, (blocks i).Valid
  covers : ∀ a, (∃ i < k, (blocks i).covers a) ↔ a ∈ C
  empty : last = none → k = 0
  ends : ∀ d, last = some d → k ≠ 0 ∧ (blocks (k - 1)).type = d.type ∧
    (blocks (k - 1)).page (blocks (k - 1)).numPages = d.physicalStart + d.numberOfPages * 0x1000

variable {blocks : ℕ → MemoryBlock} {k : ℕ} {last : Option MemoryDescriptor} {C : Set ℕ}
  {d : MemoryDescriptor} {ds memoryMap : List MemoryDescriptor}

theorem MemoryDescriptor.Valid.bounded (h : d.Valid) : d.Bounded := h.bound.trans_lt (by decide)

/-- Blocks merged from valid descriptors. -/
theorem MergedFrom.blocksOf {g : ℕ → List MemoryDescriptor} (h : MergedFrom blocks k g ds)
    (hds : ∀ d ∈ ds, d.Valid) :
    BlocksOf blocks k ds.getLast? {a | ∃ d ∈ ds, d.covers a} where
  present i hi := (h.merges i hi).present
  absent := h.absent
  valid i hi := by
    -- A block starts with its first descriptor, and ends with its last one.
    have hi' := h.merges i hi
    have hmem (d : MemoryDescriptor) (hd : d ∈ g i) : d ∈ ds := by
      rw [← h.flatMap]
      exact List.mem_flatMap.2 ⟨i, List.mem_range.2 hi, hd⟩
    obtain ⟨e, he⟩ := Option.ne_none_iff_exists'.1 (mt List.getLast?_eq_none_iff.1 hi'.ne_nil)
    obtain ⟨d, hd⟩ := Option.ne_none_iff_exists'.1 (mt List.head?_eq_none_iff.1 hi'.ne_nil)
    exact ⟨hi'.starts d hd ▸ (hds d (hmem d (List.mem_of_head? hd))).align,
      hi'.ends e he ▸ (hds e (hmem e (List.mem_of_getLast? he))).bound⟩
  covers a := by
    rw [← h.flatMap]
    constructor
    · rintro ⟨i, hi, ha⟩
      obtain ⟨d, hd, hda⟩ := ((h.merges i hi).covers a).1 ha
      exact ⟨d, List.mem_flatMap.2 ⟨i, List.mem_range.2 hi, hd⟩, hda⟩
    · rintro ⟨d, hd, hda⟩
      obtain ⟨i, hi, hdi⟩ := List.mem_flatMap.1 hd
      have hik := List.mem_range.1 hi
      exact ⟨i, hik, ((h.merges i hik).covers a).2 ⟨d, hdi, hda⟩⟩
  empty hn := by
    by_contra hk
    obtain ⟨i, rfl⟩ := Nat.exists_eq_succ_of_ne_zero hk
    rw [h.getLast?] at hn
    exact (h.merges i i.lt_succ_self).ne_nil (List.getLast?_eq_none_iff.1 hn)
  ends d hd := by
    cases k with
    | zero => simp [h.eq_nil] at hd
    | succ i =>
      have hi := h.merges i i.lt_succ_self
      rw [h.getLast?] at hd
      exact ⟨i.succ_ne_zero, (hi.type d (List.mem_of_getLast? hd)).symm, hi.ends d hd⟩

/-! ## The block table -/

variable {n i : ℕ} {s s' : MMU} {b : MemoryBlock} {bs : List MemoryBlock}

/-- The blocks up to the first that is not present. -/
def presentBlocks (bs : List MemoryBlock) : List MemoryBlock := bs.takeWhile fun b => b.present

theorem presentBlocks_cons : presentBlocks (b :: bs) =
    if !b.present then [] else b :: presentBlocks bs := by
  cases hp : b.present <;> simp [presentBlocks, hp]

theorem mem_presentBlocks_of_usable (h : b ∈ usableBlocks bs) :
    b ∈ presentBlocks bs ∧ isUsable b.type = true := List.mem_filter.1 h

/-- The part of a list before the first index at which `p` fails. -/
theorem takeWhile_map_range {α : Type*} {f : ℕ → α} {p : α → Bool} (hkn : k ≤ n)
    (h : ∀ i < k, p (f i) = true) (h' : ∀ i, k ≤ i → i < n → p (f i) = false) :
    ((List.range n).map f).takeWhile p = (List.range k).map f := by
  obtain ⟨m, rfl⟩ := Nat.exists_eq_add_of_le hkn
  rw [List.range_add, List.map_append, List.takeWhile_append_of_pos]
  · cases m with
    | zero => simp
    | succ m => simp [List.range_succ_eq_map, h' k le_rfl (by omega)]
  · intro x hx
    obtain ⟨i, hi, rfl⟩ := List.mem_map.1 hx
    exact h i (List.mem_range.1 hi)

/-- That part, when it is not known where it ends. -/
theorem takeWhile_map_range_eq {α : Type*} (f : ℕ → α) (p : α → Bool) (n : ℕ) :
    ∃ m ≤ n, ((List.range n).map f).takeWhile p = (List.range m).map f ∧
      ∀ i < m, p (f i) = true := by
  have hprefix := List.prefix_iff_eq_take.1 (List.takeWhile_prefix p (l := (List.range n).map f))
  generalize hl : ((List.range n).map f).takeWhile p = l at hprefix
  rw [← List.map_take, List.take_range] at hprefix
  refine ⟨min l.length n, min_le_right _ _, hprefix, fun i hi => ?_⟩
  have hmem : f i ∈ ((List.range n).map f).takeWhile p := by
    rw [hl, hprefix]
    exact List.mem_map_of_mem (List.mem_range.2 hi)
  exact List.all_eq_true.1 List.all_takeWhile _ hmem

theorem BlocksOf.presentBlocks_eq (h : BlocksOf s.blocks k last C) (hk : k ≤ 64) :
    presentBlocks s.table = (List.range k).map s.blocks :=
  takeWhile_map_range hk h.present h.absent

theorem BlocksOf.mem_presentBlocks (h : BlocksOf s.blocks k last C) (hk : k ≤ 64) :
    b ∈ presentBlocks s.table ↔ ∃ i < k, b = s.blocks i := by
  simp only [h.presentBlocks_eq hk, List.mem_map, List.mem_range, eq_comm]

/-! ## The bitmaps -/

/-- What `allocateFrames` does, from block `i` on: it sets the bitmaps only, those of usable blocks
    to memory handed out. -/
structure FramesAllocated (n i : ℕ) (s s' : MMU) : Prop where
  le : s.kmallocAddr ≤ s'.kmallocAddr
  same : ∀ j, s'.blocks j = { s.blocks j with frames := (s'.blocks j).frames }
  before : ∀ j < i, s'.blocks j = s.blocks j
  frames : ∀ j, i ≤ j → j < i + n → (∀ l, i ≤ l → l ≤ j → (s.blocks l).present = true) →
    isUsable (s.blocks j).type = true →
    (s'.blocks j).frames + ((s.blocks j).numPages + 7) / 8 ≤ s'.kmallocAddr

/-- One block. -/
theorem FramesAllocated.cons {s₁ : MMU} {frames : ℕ} (h : FramesAllocated n (i + 1) s₁ s')
    (hblocks : s₁.blocks = Function.update s.blocks i { s.blocks i with frames := frames })
    (hle : s.kmallocAddr ≤ s₁.kmallocAddr)
    (hframes : isUsable (s.blocks i).type = true →
      frames + ((s.blocks i).numPages + 7) / 8 ≤ s₁.kmallocAddr) :
    FramesAllocated (n + 1) i s s' := by
  have hself : s₁.blocks i = { s.blocks i with frames := frames } := by
    rw [hblocks, Function.update_self]
  have hother {j : ℕ} (hj : j ≠ i) : s₁.blocks j = s.blocks j := by
    rw [hblocks, Function.update_of_ne hj]
  refine ⟨hle.trans h.le, fun j => ?_, fun j hj => ?_, fun j hij hjn hpresent husable => ?_⟩
  · by_cases hji : j = i
    · rw [h.same j, hji, hself]
    · rw [h.same j, hother hji]
  · rw [h.before j (by omega), hother (by omega)]
  · by_cases hji : j = i
    · subst hji
      rw [h.before j (Nat.lt_succ_self j), hself]
      exact (hframes husable).trans h.le
    · have hj := h.frames j (by omega) (by omega) (fun l hl hl' => ?_) (by rwa [hother hji])
      · rwa [hother hji] at hj
      · rw [hother (by omega)]
        exact hpresent l (by omega) hl'

/-- The state after block `i`. -/
def giveFrames (i : ℕ) (s : MMU) : MMU :=
  if isUsable (s.blocks i).type then
    { s with
      blocks := Function.update s.blocks i { s.blocks i with frames := wrap s.kmallocAddr }
      mem := memset s.mem (wrap s.kmallocAddr) 0 (wrap ((s.blocks i).numPages + 7) / 8)
      kmallocAddr := s.kmallocAddr + wrap ((s.blocks i).numPages + 7) / 8 }
  else { s with blocks := Function.update s.blocks i { s.blocks i with frames := 0 } }

theorem allocateFrames_succ : allocateFrames (n + 1) i s =
    if !(s.blocks i).present then s else allocateFrames n (i + 1) (giveFrames i s) := by
  rw [allocateFrames, giveFrames]
  split_ifs <;> rfl

theorem le_giveFrames_kmallocAddr : s.kmallocAddr ≤ (giveFrames i s).kmallocAddr := by
  rw [giveFrames]
  split_ifs
  · exact Nat.le_add_right _ _
  · exact le_rfl

theorem le_allocateFrames_kmallocAddr : s.kmallocAddr ≤ (allocateFrames n i s).kmallocAddr := by
  induction n generalizing i s with
  | zero => exact le_rfl
  | succ n ih =>
    rw [allocateFrames_succ]
    split_ifs
    · exact le_rfl
    · exact le_giveFrames_kmallocAddr.trans ih

theorem giveFrames_same (j : ℕ) : (giveFrames i s).blocks j =
    { s.blocks j with frames := ((giveFrames i s).blocks j).frames } := by
  by_cases hji : j = i
  · subst hji
    rw [giveFrames]
    split_ifs <;> simp only [Function.update_self]
  · rw [giveFrames]
    split_ifs <;> simp only [Function.update_of_ne hji]

/-- The blocks keep their sizes. -/
theorem giveFrames_pages {lim : ℕ} (hpages : ∀ j < i + (n + 1), (s.blocks j).present = true →
      (s.blocks j).numPages + 7 < lim) :
    ∀ j < i + 1 + n, ((giveFrames i s).blocks j).present = true →
      ((giveFrames i s).blocks j).numPages + 7 < lim := fun j hj hpresent => by
  rw [giveFrames_same j] at hpresent ⊢
  exact hpages j (by omega) hpresent

/-- All blocks, up to the first that is not present. -/
theorem allocateFrames_spec (hpages : ∀ j < i + n, (s.blocks j).present = true →
      (s.blocks j).numPages + 7 < 2 ^ 64)
    (hlim : (allocateFrames n i s).kmallocAddr < 2 ^ 64) :
    FramesAllocated n i s (allocateFrames n i s) := by
  induction n generalizing i s with
  | zero => exact ⟨le_rfl, fun _ => rfl, fun _ _ => rfl, fun j hj hj' => absurd hj' (by omega)⟩
  | succ n ih =>
    rw [allocateFrames_succ] at hlim ⊢
    split_ifs at hlim ⊢ with hp
    · refine ⟨le_rfl, fun _ => rfl, fun _ _ => rfl, fun j hij hj hpresent => ?_⟩
      simp [hpresent i le_rfl hij] at hp
    · have hp' : (s.blocks i).present = true := by simpa using hp
      have hpages' : wrap ((s.blocks i).numPages + 7) = (s.blocks i).numPages + 7 :=
        wrap_of_lt (hpages i (by omega) hp')
      have hk : wrap s.kmallocAddr = s.kmallocAddr :=
        wrap_of_lt ((le_giveFrames_kmallocAddr.trans le_allocateFrames_kmallocAddr).trans_lt hlim)
      have hrest := ih (giveFrames_pages hpages) hlim
      by_cases hu : isUsable (s.blocks i).type = true
      · rw [giveFrames, if_pos hu, hpages', hk] at hrest ⊢
        exact hrest.cons rfl (Nat.le_add_right _ _) fun _ => le_rfl
      · rw [giveFrames, if_neg hu] at hrest ⊢
        exact hrest.cons rfl le_rfl fun h => absurd h hu

/-! ## The blocks mapped -/

variable {this lo virt phys count flags addr x a page : ℕ} {dirs : List ℕ} {A : ℕ → AddressSpace}
  {v : AddressSpace} {undef : ℕ → BitVec 32} {q : List ℕ}

/-- A block mapped to itself. -/
def AddressSpace.mapBlock (v : AddressSpace) (b : MemoryBlock) : AddressSpace :=
  v.map b.physAddr b.physAddr b.numPages (mmuPresent ||| mmuRW)

theorem le_mapBlocks_kmallocAddr : s.kmallocAddr ≤ (mapBlocks this bs s).kmallocAddr := by
  induction bs generalizing s with
  | nil => exact le_rfl
  | cons b bs ih =>
    rw [mapBlocks]
    split_ifs
    · exact le_rfl
    · exact le_map_kmallocAddr.trans ih

theorem MemoryBlock.Valid.lt (h : b.Valid) (hi : i < b.numPages) :
    b.physAddr + i * 0x1000 < 2 ^ 48 := by
  have hend := h.bound
  rw [MemoryBlock.page] at hend
  omega

/-- `mapBlocks` maps the blocks in the address space of its directory. -/
theorem mapBlocks_refines (h : Refines s lo dirs A) (hthis : this ∈ dirs)
    (hvalid : ∀ b ∈ presentBlocks bs, b.Valid)
    (hlim : (mapBlocks this bs s).kmallocAddr ≤ 2 ^ 52) :
    Refines (mapBlocks this bs s) lo dirs
      (Function.update A this ((presentBlocks bs).foldl AddressSpace.mapBlock (A this))) := by
  induction bs generalizing s A with
  | nil =>
    rw [mapBlocks, presentBlocks, List.takeWhile_nil, List.foldl_nil, Function.update_eq_self]
    exact h
  | cons b bs ih =>
    rw [mapBlocks] at hlim ⊢
    rw [presentBlocks_cons] at hvalid ⊢
    split_ifs at hlim hvalid ⊢ with hp
    · rwa [List.foldl_nil, Function.update_eq_self]
    · have hb := hvalid b List.mem_cons_self
      have hmap := map_refines h hthis (by decide) (by decide) hb.align
        (fun i hi => (hb.lt hi).trans (by decide)) (le_mapBlocks_kmallocAddr.trans hlim)
      have hrest := ih hmap (fun b' hb' => hvalid b' (List.mem_cons_of_mem b hb')) hlim
      rwa [Function.update_self, Function.update_idem] at hrest

/-! ### What mapping leaves alone -/

/-- The same block table and kernel directory. -/
def SameTable (s s' : MMU) : Prop :=
  s'.blocks = s.blocks ∧ s'.kernelDirectory = s.kernelDirectory

theorem SameTable.trans {s₁ s₂ s₃ : MMU} (h : SameTable s₁ s₂) (h' : SameTable s₂ s₃) :
    SameTable s₁ s₃ := ⟨h'.1.trans h.1, h'.2.trans h.2⟩

theorem sameTable_nextTable {t : ℕ} : SameTable s (nextTable t i flags s).2 := by
  simp only [nextTable]
  split_ifs <;> exact ⟨rfl, rfl⟩

theorem sameTable_mapPage : SameTable s (mapPage this virt phys flags s) := by
  have hdescend : SameTable s (descend this virt flags s).2 :=
    sameTable_nextTable.trans (sameTable_nextTable.trans sameTable_nextTable)
  refine hdescend.trans ?_
  rw [mapPage_eq]
  dsimp only
  split_ifs <;> exact ⟨rfl, rfl⟩

theorem sameTable_map : SameTable s (map this virt phys count flags s) := by
  induction count with
  | zero => exact ⟨rfl, rfl⟩
  | succ n ih =>
    rw [map_succ]
    exact ih.trans sameTable_mapPage

theorem sameTable_mapBlocks : SameTable s (mapBlocks this bs s) := by
  induction bs generalizing s with
  | nil => exact ⟨rfl, rfl⟩
  | cons b bs ih =>
    rw [mapBlocks]
    split_ifs
    · exact ⟨rfl, rfl⟩
    · exact sameTable_map.trans ih

/-! ## The kernel's pages reserved -/

/-- `reservePage` only changes bytes of bitmaps. -/
theorem updateFrames_of_le {update : Byte → ℕ → Byte} {m : Mem}
    (h : ∀ b ∈ usableBlocks bs, b.frames + (b.numPages + 7) / 8 ≤ lo) (hx : lo ≤ x) :
    updateFrames update addr bs m x = m x := by
  induction bs generalizing m with
  | nil => rfl
  | cons b bs ih =>
    rw [usableBlocks_cons] at h
    rw [updateFrames]
    split_ifs at h ⊢ with hp hu hb
    · rfl
    · exact ih h
    · have hframes := h b List.mem_cons_self
      have hindex : (addr - b.physAddr) >>> 12 < b.numPages := by
        rw [MemoryBlock.holds, Bool.and_eq_true, decide_eq_true_eq, decide_eq_true_eq] at hb
        have hwrap : wrap (b.physAddr + b.numPages * 0x1000) ≤
            b.physAddr + b.numPages * 0x1000 := by
          rw [wrap_eq_mod]
          exact Nat.mod_le _ _
        rw [Nat.shiftRight_eq_div_pow]
        omega
      rw [ih fun b' hb' => h b' (List.mem_cons_of_mem b hb')]
      exact Mem.set_of_ne (by omega)
    · exact ih fun b' hb' => h b' (List.mem_cons_of_mem b hb')

theorem sameTable_reserveKernel {kernelStart kernelEnd : ℕ} :
    SameTable s (reserveKernel undef kernelStart kernelEnd s) := by
  rw [reserveKernel]
  generalize List.range ((kernelEnd - kernelStart + 0xFFF) / 0x1000) = l
  induction l generalizing s with
  | nil => exact ⟨rfl, rfl⟩
  | cons i l ih =>
    have hpage : SameTable s (reservePage undef (kernelStart + i * 0x1000) s) := ⟨rfl, rfl⟩
    exact hpage.trans ih

/-- The same but for the memory below `lo`, where the bitmaps are. -/
structure SameAbove (lo : ℕ) (s s' : MMU) : Prop where
  table : SameTable s s'
  kmallocAddr : s'.kmallocAddr = s.kmallocAddr
  mem : ∀ x, lo ≤ x → s'.mem x = s.mem x

theorem reserveKernel_kmallocAddr {kernelStart kernelEnd : ℕ} :
    (reserveKernel undef kernelStart kernelEnd s).kmallocAddr = s.kmallocAddr := by
  rw [reserveKernel]
  generalize List.range ((kernelEnd - kernelStart + 0xFFF) / 0x1000) = l
  induction l generalizing s with
  | nil => rfl
  | cons i l ih => exact ih

theorem sameAbove_reserveKernel {kernelStart kernelEnd : ℕ}
    (h : ∀ b ∈ usableBlocks s.table, b.frames + (b.numPages + 7) / 8 ≤ lo) :
    SameAbove lo s (reserveKernel undef kernelStart kernelEnd s) := by
  rw [reserveKernel]
  generalize List.range ((kernelEnd - kernelStart + 0xFFF) / 0x1000) = l
  induction l generalizing s with
  | nil => exact ⟨⟨rfl, rfl⟩, rfl, fun _ _ => rfl⟩
  | cons i l ih =>
    obtain ⟨htable, hk, hmem⟩ := ih (s := reservePage undef (kernelStart + i * 0x1000) s) h
    exact ⟨htable, hk, fun x hx => (hmem x hx).trans (updateFrames_of_le h hx)⟩

/-! ## Identity maps -/

/-- The pages of the addresses `C`, and no others, are mapped to themselves, present and writable,
    through tables that are present and writable. -/
structure Identity (v : AddressSpace) (C : Set ℕ) : Prop where
  flags : ∀ q e, v q = some e → e.2 = mmuPresent ||| mmuRW
  tables : ∀ virt, v (virtPath virt) ≠ none → ∀ q ∈ tablePaths (virtPath virt), v q ≠ none
  page : ∀ page < 2 ^ 36, page * 0x1000 ∈ C →
    v.pages page = some (page * 0x1000, mmuPresent ||| mmuRW)
  absent : ∀ page < 2 ^ 36, page * 0x1000 ∉ C → v.pages page = none

theorem identity_empty : Identity (fun _ => none) ∅ :=
  ⟨nofun, fun _ h => absurd rfl h, fun _ _ h => h.elim, fun _ _ _ => rfl⟩

/-- All words keep the flags that all mappings have. -/
theorem AddressSpace.map_flags (h : ∀ q e, v q = some e → e.2 = flags) (q : List ℕ) (e : ℕ × ℕ)
    (he : v.map virt phys count flags q = some e) : e.2 = flags := by
  induction count generalizing q e with
  | zero => exact h q e (by rwa [map_zero] at he)
  | succ n ih =>
    rw [map_succ] at he
    by_cases hq : q.length = 4
    · rw [mapPage_of_length hq] at he
      split_ifs at he
      · cases he
        rfl
      · exact ih q e he
    · exact (eq_or_of_mapPage hq he).elim (ih q e) id

/-- All pages keep the tables on the way to them. -/
theorem AddressSpace.map_tables {virt' : ℕ}
    (h : ∀ virt, v (virtPath virt) ≠ none → ∀ q ∈ tablePaths (virtPath virt), v q ≠ none)
    (hpage : v.map virt' phys count flags (virtPath virt) ≠ none)
    (hq : q ∈ tablePaths (virtPath virt)) : v.map virt' phys count flags q ≠ none := by
  induction count with
  | zero =>
    rw [map_zero] at hpage ⊢
    exact h virt hpage q hq
  | succ n ih =>
    rw [map_succ] at hpage ⊢
    have hlen := length_of_mem_tablePaths hq
    rw [mapPage_of_length length_virtPath] at hpage
    cases hold : v.map virt' phys n flags q with
    | some e => simp [mapPage_of_some hlen hold]
    | none =>
      -- A table that was missing is on the way to the page that is mapped now.
      split_ifs at hpage with hvirt
      · rw [mapPage_of_length_ne hlen, if_pos ⟨hold, hvirt ▸ hq⟩]
        simp
      · exact absurd hold (ih hpage)

theorem Identity.mapBlock (h : Identity v C) (hb : b.Valid) :
    Identity (v.mapBlock b) (C ∪ {a | b.covers a}) := by
  have hvirt : ∀ i < b.numPages, b.physAddr + i * 0x1000 < 2 ^ 48 := fun i hi => hb.lt hi
  have hphys : ∀ i < b.numPages, b.physAddr + i * 0x1000 < 2 ^ 52 := fun i hi =>
    (hb.lt hi).trans (by decide)
  have halign := hb.align
  -- The pages of the block are those of its range.
  have hcovers (page : ℕ) : b.covers (page * 0x1000) ↔
      b.physAddr / 0x1000 ≤ page ∧ page < b.physAddr / 0x1000 + b.numPages := by
    simp only [MemoryBlock.covers, MemoryBlock.page]
    omega
  refine ⟨AddressSpace.map_flags h.flags,
    fun virt hpage q hq => AddressSpace.map_tables h.tables hpage hq,
    fun page hpage hC => ?_, fun page hpage hC => ?_⟩
  · rw [AddressSpace.mapBlock, pages_map hpage hvirt hphys, PageMap.setRange]
    split_ifs with hrange
    · congr 2
      omega
    · refine h.page page hpage (hC.resolve_right fun hb => hrange ((hcovers page).1 hb))
  · rw [AddressSpace.mapBlock, pages_map hpage hvirt hphys, PageMap.setRange, if_neg]
    · exact h.absent page hpage fun h => hC (.inl h)
    · exact fun hrange => hC (.inr ((hcovers page).2 hrange))

theorem Identity.foldl_mapBlock (h : Identity v C) (hbs : ∀ b ∈ bs, b.Valid) :
    Identity (bs.foldl AddressSpace.mapBlock v) (C ∪ {a | ∃ b ∈ bs, b.covers a}) := by
  induction bs generalizing v C with
  | nil => simpa using h
  | cons b bs ih =>
    have hC : C ∪ {a | ∃ b' ∈ b :: bs, b'.covers a} =
        C ∪ {a | b.covers a} ∪ {a | ∃ b ∈ bs, b.covers a} := by
      ext a
      simp [or_assoc]
    rw [hC, List.foldl_cons]
    exact ih (h.mapBlock (hbs b List.mem_cons_self)) fun b' hb' =>
      hbs b' (List.mem_cons_of_mem b hb')

/-! ## The whole -/

/-- The bitmaps do not matter for what the blocks cover. -/
theorem BlocksOf.congr (h : BlocksOf blocks k last C) {blocks' : ℕ → MemoryBlock}
    (hsame : ∀ j, blocks' j = { blocks j with frames := (blocks' j).frames }) :
    BlocksOf blocks' k last C := by
  have hpresent (j : ℕ) : (blocks' j).present = (blocks j).present := by rw [hsame j]
  have htype (j : ℕ) : (blocks' j).type = (blocks j).type := by rw [hsame j]
  have hphys (j : ℕ) : (blocks' j).physAddr = (blocks j).physAddr := by rw [hsame j]
  have hpages (j : ℕ) : (blocks' j).numPages = (blocks j).numPages := by rw [hsame j]
  have hend (j : ℕ) :
      (blocks' j).page (blocks' j).numPages = (blocks j).page (blocks j).numPages := by
    rw [MemoryBlock.page, MemoryBlock.page, hphys, hpages]
  have hcovers (j a : ℕ) : (blocks' j).covers a ↔ (blocks j).covers a := by
    rw [MemoryBlock.covers, MemoryBlock.covers, hend, hphys]
  exact
    { present := fun j hj => (hpresent j).trans (h.present j hj)
      absent := fun j hj hj' => (hpresent j).trans (h.absent j hj hj')
      valid := fun j hj => ⟨hphys j ▸ (h.valid j hj).align, hend j ▸ (h.valid j hj).bound⟩
      covers := fun a => by simp only [hcovers, h.covers a]
      empty := h.empty
      ends := fun d hd => by
        simp only [htype, hend, h.ends d hd, ne_eq, not_false_eq_true, and_self] }

/-- The state of `initializeMMU` after its loops over the memory map. -/
def described (uninit : ℕ) (memoryMap : List MemoryDescriptor) (s : MMU) : MMU :=
  let blocks := fun i => if i < 64 then { s.blocks i with present := false } else s.blocks i
  { s with
    mmuEnabled := false
    kmallocStart := (largestUsable uninit memoryMap).1
    kmallocAddr := (largestUsable uninit memoryMap).1
    blocks := (memoryMap.foldl addDescriptor (blocks, 0)).1 }

/-- Its state when it has a directory, still empty. -/
def beforeMapping (uninit : ℕ) (memoryMap : List MemoryDescriptor) (s : MMU) : MMU :=
  let (kernelDirectory, s) := kmallocA 0x1000 (allocateFrames 64 0 (described uninit memoryMap s))
  { s with
    kernelDirectory := kernelDirectory
    mem := memset s.mem kernelDirectory 0 0x1000 }

theorem initializeMMU_eq {uninit kernelStart kernelEnd : ℕ} :
    initializeMMU undef uninit kernelStart kernelEnd memoryMap s =
      let s := beforeMapping uninit memoryMap s
      let s := reserveKernel undef kernelStart kernelEnd (mapBlocks s.kernelDirectory s.table s)
      switchDirectory s.kernelDirectory s := rfl

/-- The directory that `initializeMMU` has made by then: it is empty, and the bitmaps lie below. -/
structure DirectoryReady (s : MMU) : Prop where
  frames : ∀ b ∈ usableBlocks s.table, b.frames + (b.numPages + 7) / 8 ≤ s.kernelDirectory
  refines : Refines s s.kernelDirectory [s.kernelDirectory] fun _ _ => none

/-- What `initializeMMU` has done by then. -/
structure ReadyToMap (s : MMU) (k : ℕ) (last : Option MemoryDescriptor) (C : Set ℕ) : Prop where
  blocks : BlocksOf s.blocks k last C
  frames : ∀ b ∈ usableBlocks s.table, b.frames + (b.numPages + 7) / 8 ≤ s.kernelDirectory
  refines : Refines s s.kernelDirectory [s.kernelDirectory] fun _ _ => none

/-- The bitmaps lie below the bump pointer. -/
theorem FramesAllocated.below {s₁ : MMU} (hs : FramesAllocated 64 0 s s₁)
    (hb : b ∈ usableBlocks s₁.table) : b.frames + (b.numPages + 7) / 8 ≤ s₁.kmallocAddr := by
  obtain ⟨hpresent, husable⟩ := mem_presentBlocks_of_usable hb
  obtain ⟨k, hk, heq, hl⟩ := takeWhile_map_range_eq s₁.blocks (fun b => b.present) 64
  rw [presentBlocks, MMU.table, heq] at hpresent
  obtain ⟨j, hj, rfl⟩ := List.mem_map.1 hpresent
  have hjk := List.mem_range.1 hj
  have htype : (s₁.blocks j).type = (s.blocks j).type := by rw [hs.same j]
  have hpages : (s₁.blocks j).numPages = (s.blocks j).numPages := by rw [hs.same j]
  rw [hpages]
  refine hs.frames j (Nat.zero_le j) (by omega) (fun l _ hlj => ?_) (htype ▸ husable)
  have hl' := hl l (by omega)
  rwa [hs.same l] at hl'

theorem directoryReady_of_framesAllocated {s₁ : MMU} (hs : FramesAllocated 64 0 s s₁)
    (hlim : pageAlign s₁.kmallocAddr + 0x1000 ≤ 2 ^ 52) :
    DirectoryReady { (kmallocA 0x1000 s₁).2 with
      kernelDirectory := (kmallocA 0x1000 s₁).1
      mem := memset (kmallocA 0x1000 s₁).2.mem (kmallocA 0x1000 s₁).1 0 0x1000 } := by
  have hpa := pageAlign_spec s₁.kmallocAddr
  have hdir : (kmallocA 0x1000 s₁).1 = pageAlign s₁.kmallocAddr :=
    kmallocA_fst (by rw [kmallocA_kmallocAddr]; omega)
  rw [hdir, memset_eq_fill]
  refine ⟨fun b hb => (hs.below hb).trans hpa.2.1, .of_zero (fun j hj => ?_) hpa.1 le_rfl le_rfl⟩
  exact Mem.get64_fill (by simp only [slot]; omega) (by simp only [slot]; omega)

/-- The blocks that the loops over the table find have as many pages as fit below `2 ^ 64`. -/
theorem described_pages (uninit : ℕ) (s : MMU) (hbounded : ∀ d ∈ memoryMap, d.Bounded) :
    ∀ j < 0 + 64, ((described uninit memoryMap s).blocks j).present = true →
      ((described uninit memoryMap s).blocks j).numPages + 7 < 2 ^ 64 := fun j hj hpresent => by
  obtain ⟨⟨g, hmerged⟩, hk⟩ := mergedFrom_foldl memoryMap (mergedFrom_clearTable s.blocks) hbounded
  have hblocks : (described uninit memoryMap s).blocks =
      (memoryMap.foldl addDescriptor (clearTable s.blocks, 0)).1 := rfl
  rw [hblocks] at hpresent ⊢
  -- A block that is present is one of those merged from the descriptors.
  by_cases hjk : j < (memoryMap.foldl addDescriptor (clearTable s.blocks, 0)).2
  · obtain ⟨e, he⟩ := Option.ne_none_iff_exists'.1
      (mt List.getLast?_eq_none_iff.1 (hmerged.merges j hjk).ne_nil)
    have hmem : e ∈ [] ++ memoryMap := hmerged.flatMap ▸
      List.mem_flatMap.2 ⟨j, List.mem_range.2 hjk, List.mem_of_getLast? he⟩
    have hend := (hmerged.merges j hjk).ends e he
    have hlt : e.physicalStart + e.numberOfPages * 0x1000 < 2 ^ 64 := hbounded e hmem
    rw [← hend, MemoryBlock.page] at hlt
    omega
  · rw [hmerged.absent j (by omega) (by omega)] at hpresent
    cases hpresent

theorem framesAllocated_described (uninit : ℕ) (s : MMU) (hbounded : ∀ d ∈ memoryMap, d.Bounded)
    (hlim : (allocateFrames 64 0 (described uninit memoryMap s)).kmallocAddr < 2 ^ 64) :
    FramesAllocated 64 0 (described uninit memoryMap s)
      (allocateFrames 64 0 (described uninit memoryMap s)) :=
  allocateFrames_spec (described_pages uninit s hbounded) hlim

theorem directoryReady_beforeMapping {uninit : ℕ} (hbounded : ∀ d ∈ memoryMap, d.Bounded)
    (hlim : (beforeMapping uninit memoryMap s).kmallocAddr ≤ 2 ^ 52) :
    DirectoryReady (beforeMapping uninit memoryMap s) := by
  have hlim' : pageAlign (allocateFrames 64 0 (described uninit memoryMap s)).kmallocAddr + 0x1000 ≤
      2 ^ 52 := hlim
  have hle := (pageAlign_spec (allocateFrames 64 0 (described uninit memoryMap s)).kmallocAddr).2.1
  exact directoryReady_of_framesAllocated (framesAllocated_described uninit s hbounded (by omega))
    hlim'

theorem blocksOf_described (uninit : ℕ) (s : MMU) (hvalid : ∀ d ∈ memoryMap, d.Valid) :
    ∃ last, BlocksOf (described uninit memoryMap s).blocks (runsFrom none memoryMap) last
      {a | ∃ d ∈ memoryMap, d.covers a} := by
  obtain ⟨⟨g, hmerged⟩, hk⟩ := mergedFrom_foldl memoryMap
    (mergedFrom_clearTable s.blocks) fun d hd => (hvalid d hd).bounded
  rw [List.getLast?_nil, Nat.zero_add] at hk
  rw [hk, List.nil_append] at hmerged
  exact ⟨_, hmerged.blocksOf hvalid⟩

theorem beforeMapping_spec {uninit : ℕ} (hvalid : ∀ d ∈ memoryMap, d.Valid)
    (hlim : (beforeMapping uninit memoryMap s).kmallocAddr ≤ 2 ^ 52) :
    ∃ last, ReadyToMap (beforeMapping uninit memoryMap s) (runsFrom none memoryMap) last
      {a | ∃ d ∈ memoryMap, d.covers a} := by
  obtain ⟨last, hB⟩ := blocksOf_described uninit s hvalid
  have hbounded : ∀ d ∈ memoryMap, d.Bounded := fun d hd => (hvalid d hd).bounded
  have hready := directoryReady_beforeMapping hbounded hlim
  have hlim' : pageAlign (allocateFrames 64 0 (described uninit memoryMap s)).kmallocAddr + 0x1000 ≤
      2 ^ 52 := hlim
  have hle := (pageAlign_spec (allocateFrames 64 0 (described uninit memoryMap s)).kmallocAddr).2.1
  have hsame := (framesAllocated_described uninit s hbounded (by omega)).same
  exact ⟨last, hB.congr hsame, hready.frames, hready.refines⟩

/-- What lies below the tables does not concern them. -/
theorem Refines.congr_above (h : Refines s lo dirs A) (hs : SameAbove lo s s') :
    Refines s' lo dirs A where
  forest := hs.kmallocAddr ▸ h.forest.congr (fun x hx _ => hs.mem x hx) le_rfl
  bound := hs.kmallocAddr ▸ h.bound
  view_eq r hr := (view_congr fun _ _ hp hj =>
    h.forest.entryAt_congr (fun x hx _ => hs.mem x hx) hr hp hj).trans (h.view_eq r hr)

/-- What the words of an identity map are. -/
theorem Identity.entryAt_page {m : Mem} {r : ℕ} (h : Identity (view m r) C) (ha : a % 0x1000 = 0)
    (ha' : a < 2 ^ 48) (hC : a ∈ C) : entryAt m r (virtPath a) = some (a, mmuPresent ||| mmuRW) ∧
      ∀ q ∈ tablePaths (virtPath a), ∃ t, entryAt m r q = some (t, mmuPresent ||| mmuRW) := by
  have hpage : a / 0x1000 * 0x1000 = a := by omega
  have hview : view m r (virtPath a) = some (a, mmuPresent ||| mmuRW) := by
    have := h.page (a / 0x1000) (by omega) (hpage.symm ▸ hC)
    rwa [AddressSpace.pages, pagePath, hpage] at this
  refine ⟨?_, fun q hq => ?_⟩
  · have hpath : IsPath 4 (virtPath a) := ⟨le_rfl, virtPath_lt⟩
    rw [view, if_pos hpath] at hview
    simpa using hview
  · obtain ⟨e, he⟩ := Option.ne_none_iff_exists'.1 (h.tables a (by simp [hview]) q hq)
    have hflags := view_flags (m := m) (r := r) (isPath_tablePaths hq)
    rw [he, Option.map_some, h.flags q e he, eq_comm, Option.map_eq_some_iff] at hflags
    obtain ⟨⟨t, f⟩, ht, rfl⟩ := hflags
    exact ⟨t, ht⟩

theorem Identity.entryAt_absent {m : Mem} {r : ℕ} (h : Identity (view m r) C) (ha : a % 0x1000 = 0)
    (ha' : a < 2 ^ 48) (hC : a ∉ C) : entryAt m r (virtPath a) = none := by
  have hpage : a / 0x1000 * 0x1000 = a := by omega
  have hview : view m r (virtPath a) = none := by
    have := h.absent (a / 0x1000) (by omega) (hpage.symm ▸ hC)
    rwa [AddressSpace.pages, pagePath, hpage] at this
  have hpath : IsPath 4 (virtPath a) := ⟨le_rfl, virtPath_lt⟩
  rwa [view, if_pos hpath, Option.map_eq_none_iff] at hview

/-- The last part of `initializeMMU`, from the empty directory on. -/
theorem ReadyToMap.identity {kernelStart kernelEnd : ℕ} (h : ReadyToMap s k last C) (hk : k ≤ 64)
    (hs : s' = reserveKernel undef kernelStart kernelEnd (mapBlocks s.kernelDirectory s.table s))
    (hlim : s'.kmallocAddr ≤ 2 ^ 52) :
    Identity (view s'.mem s.kernelDirectory) C ∧ s'.kernelDirectory = s.kernelDirectory := by
  have hsame : SameTable s (mapBlocks s.kernelDirectory s.table s) := sameTable_mapBlocks
  generalize hs₁ : mapBlocks s.kernelDirectory s.table s = s₁ at hs hsame
  have htable : s₁.table = s.table := by rw [MMU.table, hsame.1, MMU.table]
  -- The bitmaps lie below the directory, so reserving pages does not change the tables.
  have habove : SameAbove s.kernelDirectory s₁ s' := by
    rw [hs]
    exact sameAbove_reserveKernel (htable ▸ h.frames)
  have hlim₁ : (mapBlocks s.kernelDirectory s.table s).kmallocAddr ≤ 2 ^ 52 := by
    rw [hs₁, ← habove.kmallocAddr]
    exact hlim
  have hvalid : ∀ b ∈ presentBlocks s.table, b.Valid := fun b hb => by
    obtain ⟨i, hi, rfl⟩ := (h.blocks.mem_presentBlocks hk).1 hb
    exact h.blocks.valid i hi
  have hR := mapBlocks_refines h.refines (List.mem_singleton_self _) hvalid hlim₁
  rw [hs₁] at hR
  have hview := (hR.congr_above habove).view_eq _ (List.mem_singleton_self _)
  rw [Function.update_self] at hview
  have hC : ∅ ∪ {a | ∃ b ∈ presentBlocks s.table, b.covers a} = C := by
    ext a
    rw [Set.empty_union, ← h.blocks.covers a, Set.mem_ofPred_eq]
    constructor
    · rintro ⟨b, hb, ha⟩
      obtain ⟨i, hi, rfl⟩ := (h.blocks.mem_presentBlocks hk).1 hb
      exact ⟨i, hi, ha⟩
    · rintro ⟨i, hi, ha⟩
      exact ⟨_, (h.blocks.mem_presentBlocks hk).2 ⟨i, hi, rfl⟩, ha⟩
  refine ⟨?_, habove.table.2.trans hsame.2⟩
  rw [hview, ← hC]
  exact identity_empty.foldl_mapBlock hvalid

theorem initializeMMU_kmallocAddr {uninit kernelStart kernelEnd : ℕ} :
    (initializeMMU undef uninit kernelStart kernelEnd memoryMap s).kmallocAddr =
      (mapBlocks (beforeMapping uninit memoryMap s).kernelDirectory
        (beforeMapping uninit memoryMap s).table
        (beforeMapping uninit memoryMap s)).kmallocAddr := by
  rw [initializeMMU_eq]
  dsimp only [switchDirectory]
  rw [reserveKernel_kmallocAddr]

/-- After `initializeMMU`, the kernel's directory is an identity map of the memory map. -/
theorem identity_initializeMMU {uninit kernelStart kernelEnd : ℕ} {s s' : MMU}
    (hvalid : ∀ d ∈ memoryMap, d.Valid) (hruns : runsFrom none memoryMap ≤ 64)
    (hs : s' = initializeMMU undef uninit kernelStart kernelEnd memoryMap s)
    (hlim : s'.kmallocAddr ≤ 2 ^ 52) :
    Identity (view s'.mem s'.kernelDirectory) {a | ∃ d ∈ memoryMap, d.covers a} := by
  have hlim₁ : (beforeMapping uninit memoryMap s).kmallocAddr ≤ 2 ^ 52 := by
    rw [hs, initializeMMU_kmallocAddr] at hlim
    exact le_mapBlocks_kmallocAddr.trans hlim
  obtain ⟨last, hready⟩ := beforeMapping_spec hvalid hlim₁
  rw [initializeMMU_eq] at hs
  generalize beforeMapping uninit memoryMap s = s₁ at hs hready
  set s₂ := reserveKernel undef kernelStart kernelEnd
    (mapBlocks s₁.kernelDirectory s₁.table s₁) with hs₂
  have hlim₂ : s₂.kmallocAddr ≤ 2 ^ 52 := by
    rw [hs] at hlim
    exact hlim
  obtain ⟨hI, hdir⟩ := hready.identity hruns hs₂ hlim₂
  rw [← hdir] at hI
  have hmem : s'.mem = s₂.mem := by rw [hs]; rfl
  have hdir' : s'.kernelDirectory = s₂.kernelDirectory := by rw [hs]; rfl
  rwa [hmem, hdir']

/-- After `initializeMMU`, the kernel's directory maps every page of the memory map to itself,
    present and writable at all four levels, and no other page. (The globals of the kernel's image
    are no part of the memory: this is that the memory handed out is disjoint from them.) -/
theorem translate_initializeMMU {uninit kernelStart kernelEnd : ℕ} {s s' : MMU}
    (hvalid : ∀ d ∈ memoryMap, d.Valid) (hruns : runsFrom none memoryMap ≤ 64)
    (hs : s' = initializeMMU undef uninit kernelStart kernelEnd memoryMap s)
    (hlim : s'.kmallocAddr ≤ 2 ^ 52) (ha : a % 0x1000 = 0) (ha' : a < 2 ^ 48) :
    ((∃ d ∈ memoryMap, d.covers a) →
      entryAt s'.mem s'.kernelDirectory (virtPath a) = some (a, mmuPresent ||| mmuRW) ∧
      ∀ q ∈ tablePaths (virtPath a), ∃ t,
        entryAt s'.mem s'.kernelDirectory q = some (t, mmuPresent ||| mmuRW)) ∧
    ((¬∃ d ∈ memoryMap, d.covers a) → entryAt s'.mem s'.kernelDirectory (virtPath a) = none) := by
  have hI := identity_initializeMMU hvalid hruns hs hlim
  exact ⟨hI.entryAt_page ha ha', hI.entryAt_absent ha ha'⟩

/-! ### A memory map of one descriptor -/

theorem mapBlocks_eq : mapBlocks this bs s = (presentBlocks bs).foldl
    (fun s b => map this b.physAddr b.physAddr b.numPages (mmuPresent ||| mmuRW) s) s := by
  induction bs generalizing s with
  | nil => rfl
  | cons b bs ih =>
    rw [mapBlocks, presentBlocks_cons]
    split_ifs
    · rfl
    · rw [ih, List.foldl_cons]

/-- 16 pages of conventional memory. -/
def sixteenPages : List MemoryDescriptor := [⟨7, 0x100000, 16⟩]

theorem valid_sixteenPages : ∀ d ∈ sixteenPages, d.Valid := fun d hd => by
  rw [sixteenPages, List.mem_singleton] at hd
  subst hd
  exact ⟨by decide, by decide⟩

theorem beforeMapping_sixteenPages :
    presentBlocks (beforeMapping 0 sixteenPages oneBlock).table =
        [⟨true, 0x100000, 16, 7, 0x100000⟩] ∧
      (beforeMapping 0 sixteenPages oneBlock).kmallocAddr = 0x102000 := by decide +kernel

/-- The pages of the first two megabytes are in one table. -/
theorem map_low {phys count : ℕ} (h : Refines s lo dirs A) (hthis : this ∈ dirs)
    (hphys : phys % 0x1000 = 0) (hend : phys + (count + 1) * 0x1000 ≤ 0x200000)
    (hlim : s.kmallocAddr + 0x6000 ≤ 2 ^ 52) :
    (map this phys phys (count + 1) (mmuPresent ||| mmuRW) s).kmallocAddr ≤ s.kmallocAddr + 0x6000 ∧
      ∃ A, Refines (map this phys phys (count + 1) (mmuPresent ||| mmuRW) s) lo dirs A := by
  have hphys' : ∀ i < count + 1, phys + i * 0x1000 < 2 ^ 52 := fun i hi => by omega
  have hpath : ∀ i < count + 1, (virtPath (wrap (phys + i * 0x1000))).drop 1 = [0, 0, 0] := by
    intro i hi
    rw [wrap_of_lt (by omega)]
    simp only [virtPath, index_eq, List.drop_succ_cons, List.drop_zero, List.cons.injEq, and_true]
    omega
  have hflags : mmuPresent ||| mmuRW < 0x1000 := by decide
  have hle := (map_kmallocAddr_le h hthis hflags (by decide) hphys hphys' hpath hlim).1
  exact ⟨hle, _, map_refines h hthis hflags (by decide) hphys hphys' (hle.trans hlim)⟩

theorem kmallocAddr_sixteenPages :
    (initializeMMU undef 0 0 0 sixteenPages oneBlock).kmallocAddr ≤ 0x108000 := by
  obtain ⟨hblocks, hk⟩ := beforeMapping_sixteenPages
  have hready : DirectoryReady (beforeMapping 0 sixteenPages oneBlock) :=
    directoryReady_beforeMapping (fun d hd => (valid_sixteenPages d hd).bounded)
      (hk.trans_le (by decide))
  rw [initializeMMU_kmallocAddr, mapBlocks_eq, hblocks, List.foldl_cons, List.foldl_nil]
  exact (map_low hready.refines (List.mem_singleton_self _) (by decide) (by decide)
    (by rw [hk]; decide)).1.trans (by rw [hk])

theorem translate_initializeMMU_sixteenPages :
    entryAt (initializeMMU (fun _ => 0) 0 0 0 sixteenPages oneBlock).mem
      (initializeMMU (fun _ => 0) 0 0 0 sixteenPages oneBlock).kernelDirectory (virtPath 0x102000) =
        some (0x102000, mmuPresent ||| mmuRW) := by
  refine ((translate_initializeMMU valid_sixteenPages (by decide) rfl
    (kmallocAddr_sixteenPages.trans (by decide)) (by decide) (by decide)).1
    ⟨_, List.mem_singleton_self _, ?_⟩).1
  exact ⟨by decide, by decide⟩

end SmartOS
