import SmartOS.Lib.Bits
import SmartOS.Lib.Run
import SmartOS.MMU.Basic

/-!
# Page frames

The bitmaps of the block table are meant to be a set of taken pages: `reservePage`
adds the page that contains an address, `freePage` removes it, and `kmallocPage`
adds a page that is not in the set and returns it (`TakenStep`).

`kmallocPage` finds the bit of a page as bit `j % 8` of byte `j / 8`; the other two
shift by `j`, not by `j % 8`, in the same byte. From page 8 of a block on, the bit
is shifted out of the byte, and from page 32 on the shift is undefined.

* `updateFrames_eq`, `kmallocPageIn_spec`: the bytes that the functions change.
* `frames_refine`: the bitmaps are the set of taken pages in every run where
  `reservePage` and `freePage` are called on one of the first 8 pages of a block, or
  on one of the first 32 that is already as they want it (`FrameOp.Fits`).
* `not_framesRefine`: not in all runs.
-/

namespace SmartOS

open Prog

/-! ## Bits -/

variable {undef : ℕ → BitVec 32} {c : Byte} {i j k n addr : ℕ} {m : Mem} {b b' : MemoryBlock}
  {bs : List MemoryBlock} {s s₀ s' : MMU}

theorem frameBit_eq (m : Mem) (frames j : ℕ) : frameBit m frames j = m.bit frames j := by
  rw [frameBit, Mem.bit]
  exact byte_and_shift _ (by omega)

theorem getLsbD_orInt (hj : j < 32) (hk : k < 8) :
    (orInt c (1#32 <<< j)).getLsbD k = (c.getLsbD k || decide (k = j)) := by
  rw [orInt, ← BitVec.twoPow_eq]
  simp [BitVec.getLsbD_twoPow, hj, hk, eq_comm]

theorem getLsbD_andNotInt (hj : j < 32) (hk : k < 8) :
    (andNotInt c (1#32 <<< j)).getLsbD k = (c.getLsbD k && !decide (k = j)) := by
  rw [andNotInt, ← BitVec.twoPow_eq]
  simp [BitVec.getLsbD_twoPow, hj, hk, eq_comm]

/-- The byte `c'` is `c` with bit `i` made `x`. -/
def SetsBit (c c' : Byte) (i : ℕ) (x : Bool) : Prop :=
  ∀ k < 8, c'.getLsbD k = if k = i then x else c.getLsbD k

/-- The shift that `kmallocPage` makes. -/
theorem setsBit_orInt_mod : SetsBit c (orInt c (1#32 <<< (j % 8))) (j % 8) true := fun k hk => by
  rw [getLsbD_orInt (by omega) hk]
  by_cases h : k = j % 8 <;> simp [h]

/-- The shift that `reservePage` makes sets the right bit in the first byte only. In the next three
    it changes nothing. -/
theorem setsBit_orInt (h : j < 8 ∨ j < 32 ∧ c.getLsbD (j % 8) = true) :
    SetsBit c (orInt c (intShift undef j)) (j % 8) true := fun k hk => by
  rw [intShift, if_pos (by omega), getLsbD_orInt (by omega) hk]
  by_cases hkj : k = j % 8
  · rcases h with h | ⟨_, hbit⟩
    · simp [hkj, Nat.mod_eq_of_lt h]
    · simp [hkj, hbit]
  · have hne : k ≠ j := by omega
    simp [hkj, hne]

theorem setsBit_andNotInt (h : j < 8 ∨ j < 32 ∧ c.getLsbD (j % 8) = false) :
    SetsBit c (andNotInt c (intShift undef j)) (j % 8) false := fun k hk => by
  rw [intShift, if_pos (by omega), getLsbD_andNotInt (by omega) hk]
  by_cases hkj : k = j % 8
  · rcases h with h | ⟨_, hbit⟩
    · simp [hkj, Nat.mod_eq_of_lt h]
    · simp [hkj, hbit]
  · have hne : k ≠ j := by omega
    simp [hkj, hne]

/-! ## Blocks and pages -/

/-- The blocks that have a bitmap: the usable ones, up to the first that is not present. -/
def usableBlocks (bs : List MemoryBlock) : List MemoryBlock :=
  (bs.takeWhile fun b => b.present).filter fun b => isUsable b.type

theorem usableBlocks_cons : usableBlocks (b :: bs) =
    if !b.present then []
    else if !isUsable b.type then usableBlocks bs
    else b :: usableBlocks bs := by
  cases hp : b.present <;> cases hu : isUsable b.type <;> simp [usableBlocks, hp, hu]

def MemoryBlock.page (b : MemoryBlock) (j : ℕ) : ℕ := b.physAddr + j * 0x1000

theorem page_lt (h : i < j) : b.page i < b.page j := by
  simp only [MemoryBlock.page]
  omega

/-- Blocks without a common page. -/
def MemoryBlock.Disjoint (b b' : MemoryBlock) : Prop :=
  b.page b.numPages ≤ b'.physAddr ∨ b'.page b'.numPages ≤ b.physAddr

/-- Blocks whose bitmaps have no common byte. -/
def MemoryBlock.FramesDisjoint (b b' : MemoryBlock) : Prop :=
  b.frames + (b.numPages + 7) / 8 ≤ b'.frames ∨ b'.frames + (b'.numPages + 7) / 8 ≤ b.frames

instance : Std.Symm MemoryBlock.Disjoint := ⟨fun _ _ => Or.symm⟩

instance : Std.Symm MemoryBlock.FramesDisjoint := ⟨fun _ _ => Or.symm⟩

/-- Changing the bit of a page changes no other page's. -/
theorem bit_set_of_disjoint {c : Byte} {x : Bool} (hbb : b ≠ b' → b.FramesDisjoint b')
    (hi : i < b.numPages) (hj : j < b'.numPages)
    (hc : SetsBit (m (b.frames + i / 8)) c (i % 8) x) :
    (m.set (b.frames + i / 8) c).bit b'.frames j =
      if b' = b ∧ j = i then x else m.bit b'.frames j := by
  by_cases h : b = b'
  · subst h
    rw [Mem.bit_set hc]
    simp only [true_and]
  · have hdisj := hbb h
    simp only [MemoryBlock.FramesDisjoint] at hdisj
    rw [Mem.bit_set_of_ne (by omega), if_neg fun h' => h h'.1.symm]

/-- Blocks that are disjoint, in the physical memory below `2 ^ 64`, with disjoint bitmaps. -/
structure FrameTable (bs : List MemoryBlock) : Prop where
  physical : bs.Pairwise MemoryBlock.Disjoint
  bitmaps : bs.Pairwise MemoryBlock.FramesDisjoint
  bound : ∀ b ∈ bs, b.page b.numPages < 2 ^ 64

/-- The index of the page of a block that contains an address, as the functions compute it. -/
def MemoryBlock.index (b : MemoryBlock) (addr : ℕ) : ℕ := (addr - b.physAddr) >>> 12

theorem index_block_eq : b.index addr = (addr - b.physAddr) / 0x1000 :=
  Nat.shiftRight_eq_div_pow _ 12

section

variable (hT : FrameTable bs) (hb : b ∈ bs) (hb' : b' ∈ bs) (hi : i < b.numPages)
  (hj : j < b'.numPages)

include hT hb in
/-- What the functions test is that the address is in one of the pages. -/
theorem FrameTable.holds_iff :
    b.holds addr = true ↔ b.physAddr ≤ addr ∧ addr < b.page b.numPages := by
  have hwrap : wrap (b.physAddr + b.numPages * 0x1000) = b.page b.numPages :=
    wrap_of_lt (hT.bound b hb)
  rw [MemoryBlock.holds, Bool.and_eq_true, decide_eq_true_eq, decide_eq_true_eq, hwrap]

include hT hb in
theorem FrameTable.index_spec (h : b.holds addr = true) :
    b.index addr < b.numPages ∧ b.page (b.index addr) ≤ addr ∧
      addr < b.page (b.index addr) + 0x1000 := by
  rw [hT.holds_iff hb, MemoryBlock.page] at h
  rw [index_block_eq, MemoryBlock.page]
  omega

include hT hb hb' hi hj in
/-- An address is in one page of one block. -/
theorem FrameTable.page_inj (h : b.page i ≤ addr ∧ addr < b.page i + 0x1000)
    (h' : b'.page j ≤ addr ∧ addr < b'.page j + 0x1000) : b = b' ∧ i = j := by
  simp only [MemoryBlock.page] at h h'
  by_cases hbb : b = b'
  · subst hbb
    exact ⟨rfl, by omega⟩
  · have := hT.physical.forall hb hb' hbb
    simp only [MemoryBlock.Disjoint, MemoryBlock.page] at this
    omega

include hT hb hb' hi hj in
/-- Changing the bit of a page changes no other page's. -/
theorem FrameTable.bit_set {c : Byte} {x : Bool}
    (hc : SetsBit (m (b.frames + i / 8)) c (i % 8) x) :
    (m.set (b.frames + i / 8) c).bit b'.frames j =
      if b' = b ∧ j = i then x else m.bit b'.frames j :=
  bit_set_of_disjoint (hT.bitmaps.forall hb hb') hi hj hc

end

/-! ## The bytes that change -/

theorem updateFrames_of_not_holds {update : Byte → ℕ → Byte}
    (h : ∀ b ∈ usableBlocks bs, b.holds addr = false) : updateFrames update addr bs m = m := by
  induction bs with
  | nil => rfl
  | cons b bs ih =>
    rw [usableBlocks_cons] at h
    rw [updateFrames]
    split_ifs at h ⊢ with hp hu hb
    · rfl
    · exact ih h
    · exact absurd (h b List.mem_cons_self) (by simp [hb])
    · exact ih fun b' hb' => h b' (List.mem_cons_of_mem b hb')

theorem FrameTable.tail (hT : FrameTable (b :: bs)) : FrameTable bs :=
  ⟨hT.physical.tail, hT.bitmaps.tail, fun b' hb' => hT.bound b' (List.mem_cons_of_mem b hb')⟩

/-- At most one byte changes: that of the page that contains the address, if there is one. -/
theorem updateFrames_eq (update : Byte → ℕ → Byte) (addr : ℕ) (m : Mem)
    (hT : FrameTable (usableBlocks bs)) :
    (∃ b ∈ usableBlocks bs, b.holds addr = true ∧
      updateFrames update addr bs m = m.set (b.frames + b.index addr / 8)
        (update (m (b.frames + b.index addr / 8)) (b.index addr))) ∨
    (∀ b ∈ usableBlocks bs, b.holds addr = false) ∧ updateFrames update addr bs m = m := by
  induction bs with
  | nil => exact .inr ⟨fun _ hb => absurd hb List.not_mem_nil, rfl⟩
  | cons b bs ih =>
    rw [updateFrames]
    rw [usableBlocks_cons] at hT ⊢
    split_ifs at hT ⊢ with hp hu hb
    · exact .inr ⟨fun _ hb => absurd hb List.not_mem_nil, rfl⟩
    · exact ih hT
    · refine .inl ⟨b, List.mem_cons_self, hb, updateFrames_of_not_holds fun b' hb' => ?_⟩
      -- A later block is disjoint from this one.
      have hdisj : b.Disjoint b' := (List.pairwise_cons.1 hT.physical).1 b' hb'
      rw [hT.holds_iff List.mem_cons_self] at hb
      rw [Bool.eq_false_iff, ne_eq, hT.holds_iff (List.mem_cons_of_mem b hb')]
      simp only [MemoryBlock.Disjoint, MemoryBlock.page] at hdisj hb ⊢
      omega
    · rcases ih hT.tail with ⟨b', hb', h⟩ | ⟨hnone, heq⟩
      · exact .inl ⟨b', List.mem_cons_of_mem b hb', h⟩
      · refine .inr ⟨fun b' hb' => ?_, heq⟩
        rcases List.mem_cons.1 hb' with rfl | hb'
        · exact Bool.eq_false_iff.2 hb
        · exact hnone b' hb'

/-- `kmallocPage` takes a page whose bit is clear, unless there is none. -/
theorem kmallocPageIn_spec (bs : List MemoryBlock) (m : Mem) :
    (∃ b ∈ usableBlocks bs, ∃ j < b.numPages, m.bit b.frames j = false ∧
      kmallocPageIn bs m = (wrap (b.page j), m.set (b.frames + j / 8)
        (orInt (m (b.frames + j / 8)) (1#32 <<< (j % 8))))) ∨
    (∀ b ∈ usableBlocks bs, ∀ j < b.numPages, m.bit b.frames j = true) ∧
      kmallocPageIn bs m = (wrapSub 0 1, m) := by
  induction bs with
  | nil => exact .inr ⟨fun _ hb => absurd hb List.not_mem_nil, rfl⟩
  | cons b bs ih =>
    rw [kmallocPageIn, usableBlocks_cons]
    split_ifs with hp hu
    · exact .inr ⟨fun _ hb => absurd hb List.not_mem_nil, rfl⟩
    · exact ih
    · cases hfind : (List.range b.numPages).find? fun j => !frameBit m b.frames j with
      | some j =>
        have hclear := List.find?_some hfind
        have hj := List.mem_of_find?_eq_some hfind
        rw [frameBit_eq, Bool.not_eq_true'] at hclear
        exact .inl ⟨b, List.mem_cons_self, j, List.mem_range.1 hj, hclear, rfl⟩
      | none =>
        have hset : ∀ j < b.numPages, m.bit b.frames j = true := fun j hj => by
          have := List.find?_eq_none.1 hfind j (List.mem_range.2 hj)
          rwa [frameBit_eq, Bool.not_eq_true', Bool.not_eq_false] at this
        rcases ih with ⟨b', hb', h⟩ | ⟨hfull, heq⟩
        · exact .inl ⟨b', List.mem_cons_of_mem b hb', h⟩
        · refine .inr ⟨fun b' hb' => ?_, heq⟩
          rcases List.mem_cons.1 hb' with rfl | hb'
          · exact hset
          · exact hfull b' hb'

/-! ## The set of taken pages -/

/-- An operation; for `kmallocPage`, with what it returned. -/
inductive FrameOp
  | reservePage (addr : ℕ)
  | freePage (addr : ℕ)
  | kmallocPage (page : ℕ)

/-- The pages of a set that contain an address. -/
def pagesAt (pages : Set ℕ) (addr : ℕ) : Set ℕ := {a ∈ pages | a ≤ addr ∧ addr < a + 0x1000}

/-- What the operations do to the set of taken pages, among the given pages. When all are taken,
    `kmallocPage` returns `-1`. -/
inductive TakenStep (pages : Set ℕ) : Set ℕ → FrameOp → Set ℕ → Prop
  | reservePage {T : Set ℕ} {addr : ℕ} :
    TakenStep pages T (.reservePage addr) (T ∪ pagesAt pages addr)
  | freePage {T : Set ℕ} {addr : ℕ} : TakenStep pages T (.freePage addr) (T \ pagesAt pages addr)
  | kmallocPage {T : Set ℕ} {page : ℕ} (hpage : page ∈ pages) (hfree : page ∉ T) :
    TakenStep pages T (.kmallocPage page) (insert page T)
  | full {T : Set ℕ} (hfull : pages ⊆ T) : TakenStep pages T (.kmallocPage (wrapSub 0 1)) T

/-- The pages of the usable blocks. -/
def MMU.pages (s : MMU) : Set ℕ :=
  {a | ∃ b ∈ usableBlocks s.table, ∃ j < b.numPages, a = b.page j}

/-- Those whose bit is set. -/
def MMU.taken (s : MMU) : Set ℕ :=
  {a | ∃ b ∈ usableBlocks s.table, ∃ j < b.numPages,
    a = b.page j ∧ frameBit s.mem b.frames j = true}

/-- The operations of the kernel. -/
inductive FrameStep (undef : ℕ → BitVec 32) : MMU → FrameOp → MMU → Prop
  | reservePage {s : MMU} {addr : ℕ} :
    FrameStep undef s (.reservePage addr) (reservePage undef addr s)
  | freePage {s : MMU} {addr : ℕ} : FrameStep undef s (.freePage addr) (freePage undef addr s)
  | kmallocPage {s : MMU} : FrameStep undef s (.kmallocPage (kmallocPage s).1) (kmallocPage s).2

/-- The page that contains the address is one of the first 8 of its block, or one of the first 32
    and its bit is already `x`. -/
def FitsFirst (s : MMU) (addr : ℕ) (x : Bool) : Prop :=
  ∀ b ∈ usableBlocks s.table, b.holds addr = true →
    b.index addr < 8 ∨ b.index addr < 32 ∧ frameBit s.mem b.frames (b.index addr) = x

/-- The pages that the operation may be called on. -/
def FrameOp.Fits (s : MMU) : FrameOp → Prop
  | reservePage addr => FitsFirst s addr true
  | freePage addr => FitsFirst s addr false
  | kmallocPage _ => True

section

variable (hT : FrameTable (usableBlocks s.table)) (hb : b ∈ usableBlocks s.table)
  (hj : j < b.numPages) {x : Bool}

include hT hb hj in
/-- Making the bit of a page `x` adds or removes that page. -/
theorem mem_taken_set {c : Byte} {a : ℕ}
    (hc : SetsBit (s.mem (b.frames + j / 8)) c (j % 8) x) :
    a ∈ MMU.taken { s with mem := s.mem.set (b.frames + j / 8) c } ↔
      if a = b.page j then x = true else a ∈ s.taken := by
  constructor
  · rintro ⟨b', hb', j', hj', rfl, hbit⟩
    rw [frameBit_eq, hT.bit_set hb hb' hj hj' hc] at hbit
    by_cases h : b' = b ∧ j' = j
    · rw [if_pos h] at hbit
      obtain ⟨rfl, rfl⟩ := h
      rwa [if_pos rfl]
    · rw [if_neg h] at hbit
      rw [if_neg fun he => h (hT.page_inj hb' hb hj' hj ⟨le_rfl, by omega⟩ (by omega))]
      exact ⟨b', hb', j', hj', rfl, by rwa [frameBit_eq]⟩
  · intro h
    by_cases ha : a = b.page j
    · rw [if_pos ha] at h
      refine ⟨b, hb, j, hj, ha, ?_⟩
      rw [frameBit_eq, hT.bit_set hb hb hj hj hc, if_pos ⟨rfl, rfl⟩, h]
    · rw [if_neg ha] at h
      obtain ⟨b', hb', j', hj', rfl, hbit⟩ := h
      refine ⟨b', hb', j', hj', rfl, ?_⟩
      rw [frameBit_eq] at hbit ⊢
      rw [hT.bit_set hb hb' hj hj' hc, if_neg, hbit]
      rintro ⟨rfl, rfl⟩
      exact ha rfl

include hT hb hj in
/-- An address in a page is in no other. -/
theorem pagesAt_eq (h : b.page j ≤ addr ∧ addr < b.page j + 0x1000) :
    pagesAt s.pages addr = {b.page j} := by
  ext a
  constructor
  · rintro ⟨⟨b', hb', j', hj', rfl⟩, ha⟩
    obtain ⟨rfl, rfl⟩ := hT.page_inj hb hb' hj hj' h ha
    exact rfl
  · rintro rfl
    exact ⟨⟨b, hb, j, hj, rfl⟩, h⟩

include hT in
theorem pagesAt_eq_empty (h : ∀ b ∈ usableBlocks s.table, b.holds addr = false) :
    pagesAt s.pages addr = ∅ := by
  rw [Set.eq_empty_iff_forall_notMem]
  rintro a ⟨⟨b, hb, j, hj, rfl⟩, ha⟩
  have := h b hb
  rw [Bool.eq_false_iff, ne_eq, hT.holds_iff hb] at this
  simp only [MemoryBlock.page] at ha this
  omega

include hT in
/-- `reservePage` and `freePage`, when the byte they compute for a page has the bit they want. -/
theorem taken_updateFrames (update : Byte → ℕ → Byte)
    (hfits : ∀ b ∈ usableBlocks s.table, b.holds addr = true →
      SetsBit (s.mem (b.frames + b.index addr / 8))
        (update (s.mem (b.frames + b.index addr / 8)) (b.index addr)) (b.index addr % 8) x) :
    MMU.taken { s with mem := updateFrames update addr s.table s.mem } =
      if x then s.taken ∪ pagesAt s.pages addr else s.taken \ pagesAt s.pages addr := by
  ext a
  rcases updateFrames_eq update addr s.mem hT with
    ⟨b, hb, hholds, heq⟩ | ⟨hnone, heq⟩
  · obtain ⟨hj, hpage⟩ := hT.index_spec hb hholds
    rw [heq, mem_taken_set hT hb hj (hfits b hb hholds), pagesAt_eq hT hb hj hpage]
    by_cases ha : a = b.page (b.index addr) <;> cases x <;> simp [ha]
  · rw [heq, pagesAt_eq_empty hT hnone]
    cases x <;> simp

include hT in
/-- One operation. -/
theorem takenStep_of_frameStep {op : FrameOp} (hs : FrameStep undef s op s') (hfits : op.Fits s) :
    TakenStep s.pages s.taken op s'.taken ∧ s'.blocks = s.blocks := by
  cases hs with
  | @reservePage addr =>
    have h := taken_updateFrames hT (fun c index => orInt c (intShift undef index))
      fun b hb hholds =>
      setsBit_orInt ((hfits b hb hholds).imp_right fun h => by rwa [frameBit_eq] at h)
    refine ⟨?_, rfl⟩
    rw [if_pos rfl] at h
    rw [reservePage, h]
    exact .reservePage
  | @freePage addr =>
    have h := taken_updateFrames hT (fun c index => andNotInt c (intShift undef index))
      fun b hb hholds =>
        setsBit_andNotInt ((hfits b hb hholds).imp_right fun h => by rwa [frameBit_eq] at h)
    refine ⟨?_, rfl⟩
    rw [if_neg Bool.false_ne_true] at h
    rw [freePage, h]
    exact .freePage
  | kmallocPage =>
    refine ⟨?_, rfl⟩
    rcases kmallocPageIn_spec s.table s.mem with ⟨b, hb, j, hj, hclear, h⟩ | ⟨hfull, h⟩
    · have hbound : b.page j < 2 ^ 64 := (page_lt hj).trans (hT.bound b hb)
      have htaken : (kmallocPage s).2.taken = insert (b.page j) s.taken := by
        ext a
        simp only [kmallocPage, h]
        rw [mem_taken_set hT hb hj setsBit_orInt_mod]
        by_cases ha : a = b.page j <;> simp [ha]
      have hfst : (kmallocPage s).1 = b.page j := by
        simp only [kmallocPage, h, wrap_of_lt hbound]
      rw [htaken, hfst]
      refine .kmallocPage ⟨b, hb, j, hj, rfl⟩ ?_
      -- A page is in one block only, at one index.
      rintro ⟨b', hb', j', hj', hpage, hbit⟩
      obtain ⟨rfl, rfl⟩ := hT.page_inj hb hb' hj hj' ⟨le_rfl, Nat.lt_add_of_pos_right (by decide)⟩
        ⟨hpage.ge, hpage ▸ Nat.lt_add_of_pos_right (by decide)⟩
      rw [frameBit_eq, hclear] at hbit
      cases hbit
    · have heq : kmallocPage s = (wrapSub 0 1, s) := by simp only [kmallocPage, h]
      rw [heq]
      refine .full ?_
      rintro a ⟨b, hb, j, hj, rfl⟩
      exact ⟨b, hb, j, hj, rfl, by rw [frameBit_eq, hfull b hb j hj]⟩

end

/-! ## Runs -/

/-- A page that is taken stays taken, and is not returned, until it is freed. -/
theorem not_returned_of_taken {pages T T' : Set ℕ} {a : ℕ} (hr : Run (TakenStep pages) T ops T')
    (ha : a ∈ T) (hne : a ≠ wrapSub 0 1)
    (hkeep : ∀ addr, .freePage addr ∈ ops → ¬(a ≤ addr ∧ addr < a + 0x1000)) :
    a ∈ T' ∧ .kmallocPage a ∉ ops := by
  refine hr.history
    (fun ops T' => (∀ addr, .freePage addr ∈ ops → ¬(a ≤ addr ∧ addr < a + 0x1000)) →
      a ∈ T' ∧ .kmallocPage a ∉ ops) (fun _ => ⟨ha, List.not_mem_nil⟩) ?_ hkeep
  intro ops T op T' ih hs hkeep
  obtain ⟨hT, hops⟩ := ih fun addr h => hkeep addr (List.mem_append_left _ h)
  have hlast : FrameOp.kmallocPage a ∈ ops ++ [op] ↔ FrameOp.kmallocPage a = op := by
    simp [hops]
  rw [hlast]
  cases hs with
  | reservePage => exact ⟨.inl hT, by simp⟩
  | @freePage addr =>
    exact ⟨⟨hT, fun h => hkeep addr (by simp) h.2⟩, by simp⟩
  | @kmallocPage page hpage hfree =>
    refine ⟨.inr hT, fun h => hfree ?_⟩
    cases h
    exact hT
  | full _ => exact ⟨hT, fun h => hne (by simpa using h)⟩

/-- In a run whose operations are on pages that they may be called on, the bitmaps are the set of
    taken pages; so a page that is taken is not returned before it is freed. -/
theorem frames_refine (hT : FrameTable (usableBlocks s₀.table))
    (hr : Run (fun s op s' => FrameStep undef s op s' ∧ op.Fits s) s₀ ops s) :
    Run (TakenStep s₀.pages) s₀.taken ops s.taken ∧
      ∀ a ∈ s₀.taken, (∀ addr, .freePage addr ∈ ops → ¬(a ≤ addr ∧ addr < a + 0x1000)) →
        .kmallocPage a ∉ ops := by
  obtain ⟨_, hrun⟩ := hr.history
    (fun ops s => s.blocks = s₀.blocks ∧ Run (TakenStep s₀.pages) s₀.taken ops s.taken)
    ⟨rfl, .nil⟩ fun ops s op s' ⟨hblocks, hrun⟩ ⟨hs, hfits⟩ => by
      have htable : s.table = s₀.table := by rw [MMU.table, hblocks, MMU.table]
      have hpages : s.pages = s₀.pages := by rw [MMU.pages, htable, MMU.pages]
      obtain ⟨hstep, hblocks'⟩ := takenStep_of_frameStep (htable ▸ hT) hs hfits
      exact ⟨hblocks'.trans hblocks, .snoc hrun (hpages ▸ hstep)⟩
  refine ⟨hrun, fun a ha hkeep => (not_returned_of_taken hrun ha ?_ hkeep).2⟩
  obtain ⟨b, hb, j, hj, rfl, _⟩ := ha
  have hnext : b.page j < b.page b.numPages := page_lt hj
  exact ((Nat.lt_of_lt_of_le hnext (Nat.le_pred_of_lt (hT.bound b hb))).trans_eq
    (by rw [wrapSub_eq_mod]; decide)).ne

/-- A table of one block of 16 pages. -/
def oneBlock : MMU where
  mem := fun _ => 0
  blocks := fun i => if i = 0 then ⟨true, 0x100000, 16, 7, 0x1000⟩ else ⟨false, 0, 0, 0, 0⟩
  kmallocStart := 0
  kmallocAddr := 0
  currentDirectory := 0
  kernelDirectory := 0
  mmuEnabled := false
  cr3 := 0

theorem oneBlock_blocks : usableBlocks oneBlock.table = [⟨true, 0x100000, 16, 7, 0x1000⟩] := by
  decide

theorem frameTable_oneBlock : FrameTable (usableBlocks oneBlock.table) := by
  rw [oneBlock_blocks]
  exact ⟨List.pairwise_singleton _ _, List.pairwise_singleton _ _, by decide⟩

theorem mem_usableBlocks_oneBlock {b : MemoryBlock} {s : MMU} (hs : s.table = oneBlock.table) :
    b ∈ usableBlocks s.table ↔ b = ⟨true, 0x100000, 16, 7, 0x1000⟩ := by
  rw [hs, oneBlock_blocks, List.mem_singleton]

/-- Its first pages are such that all operations may be called on them. -/
theorem fitsFirst_oneBlock {addr : ℕ} {x : Bool} {s : MMU} (hs : s.table = oneBlock.table)
    (haddr : (⟨true, 0x100000, 16, 7, 0x1000⟩ : MemoryBlock).index addr < 8) :
    FitsFirst s addr x := fun b hb _ => by
  rw [mem_usableBlocks_oneBlock hs] at hb
  exact .inl (hb ▸ haddr)

theorem frameStep_kmallocPage {page : ℕ} (h : (kmallocPage s).1 = page) :
    FrameStep undef s (.kmallocPage page) (kmallocPage s).2 := h ▸ .kmallocPage

/-- The same table, of which the third page is taken. -/
def oneTaken : MMU := reservePage (fun _ => 0) 0x102000 oneBlock

/-- Pages are handed out, around one that is reserved and later freed. -/
def aroundOps : List FrameOp :=
  [.reservePage 0x101000, .kmallocPage 0x100000, .kmallocPage 0x103000, .freePage 0x101000,
    .kmallocPage 0x101000, .kmallocPage 0x104000]

theorem exists_run_aroundOps : ∃ s,
    Run (fun s op s' => FrameStep (fun _ => 0) s op s' ∧ op.Fits s) oneTaken aroundOps s :=
  ⟨_, (((((Run.nil.snoc ⟨.reservePage, fitsFirst_oneBlock rfl (by decide)⟩).snoc
    ⟨frameStep_kmallocPage (by decide +kernel), trivial⟩).snoc
    ⟨frameStep_kmallocPage (by decide +kernel), trivial⟩).snoc
    ⟨.freePage, fitsFirst_oneBlock rfl (by decide)⟩).snoc
    ⟨frameStep_kmallocPage (by decide +kernel), trivial⟩).snoc
    ⟨frameStep_kmallocPage (by decide +kernel), trivial⟩⟩

theorem frames_refine_aroundOps : ∃ s,
    Run (fun s op s' => FrameStep (fun _ => 0) s op s' ∧ op.Fits s) oneTaken aroundOps s ∧
      Run (TakenStep oneTaken.pages) oneTaken.taken aroundOps s.taken ∧
      0x102000 ∈ oneTaken.taken ∧ .kmallocPage 0x102000 ∉ aroundOps := by
  have htaken : 0x102000 ∈ oneTaken.taken :=
    ⟨_, (mem_usableBlocks_oneBlock rfl).2 rfl, 2, by decide, rfl, by decide +kernel⟩
  have hT : FrameTable (usableBlocks oneTaken.table) := frameTable_oneBlock
  obtain ⟨s, hr⟩ := exists_run_aroundOps
  obtain ⟨hrefines, hnot⟩ := frames_refine hT hr
  refine ⟨s, hr, hrefines, htaken, hnot _ htaken fun addr hmem => ?_⟩
  -- Only the page that has been reserved is freed.
  obtain rfl : addr = 0x101000 := by simpa [aroundOps] using hmem
  decide

/-- What `frames_refine` says, of all runs. -/
def FramesRefine : Prop :=
  ∀ {undef : ℕ → BitVec 32} {s₀ s : MMU} {ops : List FrameOp},
    FrameTable (usableBlocks s₀.table) → Run (FrameStep undef) s₀ ops s →
    Run (TakenStep s₀.pages) s₀.taken ops s.taken

/-- Reserving the ninth page of a block reserves nothing. -/
theorem not_framesRefine : ¬FramesRefine := by
  intro h
  set s := reservePage (fun _ => 0) 0x108000 oneBlock with hs
  have hstep : TakenStep oneBlock.pages oneBlock.taken (.reservePage 0x108000) s.taken :=
    (h frameTable_oneBlock (.snoc .nil .reservePage)).step_of_singleton
  have hmem : 0x108000 ∈ s.taken := by
    generalize s.taken = T at hstep
    cases hstep
    exact .inr ⟨⟨_, oneBlock_blocks ▸ List.mem_singleton_self _, 8, by decide, rfl⟩, by decide⟩
  obtain ⟨b, hb, j, hj, hpage, hbit⟩ := hmem
  have hb' : b = ⟨true, 0x100000, 16, 7, 0x1000⟩ :=
    List.mem_singleton.1 (oneBlock_blocks ▸ (show b ∈ usableBlocks oneBlock.table from hb))
  subst hb'
  obtain rfl : j = 8 := by
    simp only [MemoryBlock.page] at hpage
    omega
  exact absurd hbit (by decide +kernel)

end SmartOS
