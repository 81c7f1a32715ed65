import SmartOS.MMU.Frames
import SmartOS.Lib.Pool

/-!
# The search for a page

`kmallocPage` goes through the pages of all usable blocks, block by block, and takes
the first that is not marked in its block's bitmap. With the usable blocks disjoint
(`BlockTable`), the pages that are not marked are a pool that calls empty in order.

* `kmallocPageIn_eq`: the nested loops are a search in the list of all pages;
* `takesFirst_kmallocPage`: a call marks the page that it returns, and no other;
* `findsPages`: what calls return and change, and what they access.
-/

namespace SmartOS

open Prog

variable {s : MMU} {m : Mem} {b : MemoryBlock} {bs : List MemoryBlock} {p q : MemoryBlock × ℕ}
  {n : ℕ}

/-! ## Pages -/

/-- The pages of blocks, in order: a block and an index. -/
def pagesOf (bs : List MemoryBlock) : List (MemoryBlock × ℕ) :=
  bs.flatMap fun b => (List.range b.numPages).map fun j => (b, j)

/-- The address of a page. -/
def pageAddr (p : MemoryBlock × ℕ) : ℕ := p.1.page p.2

theorem mem_pagesOf : p ∈ pagesOf bs ↔ p.1 ∈ bs ∧ p.2 < p.1.numPages := by
  rw [pagesOf, List.mem_flatMap]
  constructor
  · rintro ⟨b, hb, hp⟩
    obtain ⟨j, hj, rfl⟩ := List.mem_map.1 hp
    exact ⟨hb, List.mem_range.1 hj⟩
  · rintro ⟨hb, hj⟩
    exact ⟨p.1, hb, List.mem_map.2 ⟨p.2, List.mem_range.2 hj, rfl⟩⟩

theorem pagesOf_cons :
    pagesOf (b :: bs) = ((List.range b.numPages).map fun j => (b, j)) ++ pagesOf bs := rfl

/-- Pages of disjoint blocks have addresses of their own. -/
theorem nodup_pageAddr (h : bs.Pairwise MemoryBlock.Disjoint) :
    ((pagesOf bs).map pageAddr).Nodup := by
  induction bs with
  | nil => exact List.nodup_nil
  | cons b bs ih =>
    obtain ⟨hb, hbs⟩ := List.pairwise_cons.1 h
    rw [pagesOf_cons, List.map_append, List.map_map, List.nodup_append]
    refine ⟨List.nodup_range.map fun i j hij => ?_, ih hbs, ?_⟩
    · simpa [pageAddr, MemoryBlock.page] using hij
    · -- A page of a later block is not in this one.
      rintro a ha a' ha' rfl
      obtain ⟨i, hi, rfl⟩ := List.mem_map.1 ha
      obtain ⟨q, hq, hqa⟩ := List.mem_map.1 ha'
      obtain ⟨hqb, hqj⟩ := mem_pagesOf.1 hq
      have hdisj := hb q.1 hqb
      rw [List.mem_range] at hi
      simp only [MemoryBlock.Disjoint, MemoryBlock.page, pageAddr, Function.comp_apply]
        at hdisj hqa
      omega

/-! ## The table -/

namespace MMU

/-- The usable blocks: all entries of the table that are present, and of a usable type. -/
def usable (s : MMU) : List MemoryBlock :=
  s.table.filter fun b => b.present && isUsable b.type

/-- All pages of usable blocks, block by block. -/
def pageList (s : MMU) : List (MemoryBlock × ℕ) := pagesOf s.usable

/-- The bit of a page in the bitmap of its block. -/
def marked (s : MMU) (p : MemoryBlock × ℕ) : Bool := frameBit s.mem p.1.frames p.2

/-- The pages that are not marked, in the same order. -/
def unmarked (s : MMU) : List (MemoryBlock × ℕ) := s.pageList.filter fun p => !s.marked p

end MMU

/-- A table whose present entries come first and whose usable blocks are disjoint, in the physical
    memory of `2 ^ 64` bytes, each with a bitmap of its own. -/
structure BlockTable (s : MMU) : Prop where
  presentFirst : s.table.Pairwise fun b b' => b'.present = true → b.present = true
  physical : s.usable.Pairwise MemoryBlock.Disjoint
  bitmaps : s.usable.Pairwise MemoryBlock.FramesDisjoint
  bound : ∀ b ∈ s.usable, b.page b.numPages ≤ 2 ^ 64

/-- The search stops at the first entry that is not present, and misses none after it. -/
theorem usableBlocks_eq_filter
    (h : bs.Pairwise fun b b' => b'.present = true → b.present = true) :
    usableBlocks bs = bs.filter fun b => b.present && isUsable b.type := by
  induction bs with
  | nil => rfl
  | cons b bs ih =>
    obtain ⟨hb, hbs⟩ := List.pairwise_cons.1 h
    rw [usableBlocks_cons, ih hbs, List.filter_cons]
    cases hp : b.present with
    | true => cases isUsable b.type <;> rfl
    | false =>
      have hnone : bs.filter (fun b => b.present && isUsable b.type) = [] :=
        List.filter_eq_nil_iff.2 fun b' hb' hpresent => by
          have := hb b' hb' (by simp_all)
          rw [hp] at this
          cases this
      simp [hnone]

theorem BlockTable.usableBlocks_eq (hT : BlockTable s) : usableBlocks s.table = s.usable :=
  usableBlocks_eq_filter hT.presentFirst

/-! ## The search -/

/-- The search of `kmallocPage`, as one in the list of all pages. -/
theorem kmallocPageIn_eq (bs : List MemoryBlock) (m : Mem) : kmallocPageIn bs m =
    match (pagesOf (usableBlocks bs)).find? fun p => !frameBit m p.1.frames p.2 with
    | some p => (wrap (pageAddr p), m.set (p.1.frames + p.2 / 8)
        (orInt (m (p.1.frames + p.2 / 8)) (1#32 <<< (p.2 % 8))))
    | none => (wrapSub 0 1, m) := by
  induction bs with
  | nil => rfl
  | cons b bs ih =>
    rw [kmallocPageIn, usableBlocks_cons]
    split_ifs with hp hu
    · rfl
    · exact ih
    · rw [pagesOf_cons, List.find?_append, List.find?_map]
      have hcomp : (fun p : MemoryBlock × ℕ => !frameBit m p.1.frames p.2) ∘ (fun j => (b, j)) =
          fun j => !frameBit m b.frames j := rfl
      rw [hcomp]
      cases (List.range b.numPages).find? fun j => !frameBit m b.frames j with
      | some j => rfl
      | none => exact ih

theorem kmallocPage_eq (hT : BlockTable s) : kmallocPage s =
    match s.unmarked.head? with
    | some p => (wrap (pageAddr p), { s with
        mem := s.mem.set (p.1.frames + p.2 / 8)
          (orInt (s.mem (p.1.frames + p.2 / 8)) (1#32 <<< (p.2 % 8))) })
    | none => (wrapSub 0 1, s) := by
  rw [MMU.unmarked, List.head?_filter, MMU.pageList, ← hT.usableBlocks_eq, kmallocPage,
    kmallocPageIn_eq]
  unfold MMU.marked
  cases (pagesOf (usableBlocks s.table)).find? fun p => !frameBit s.mem p.1.frames p.2 <;> rfl

/-- The bytes of bitmaps that the search accesses: a block, and an index in its bitmap. -/
def searchAccesses : List MemoryBlock → Mem → List (MemoryBlock × ℕ)
  | [], _ => []
  | b :: bs, m =>
    if !b.present then []
    else if !isUsable b.type then searchAccesses bs m
    else
      match (List.range b.numPages).find? fun j => !frameBit m b.frames j with
      | some j => (List.range (j + 1)).map (fun i => (b, i / 8)) ++ [(b, j / 8)]
      | none => (List.range b.numPages).map (fun i => (b, i / 8)) ++ searchAccesses bs m

theorem searchAccesses_lt {a : MemoryBlock × ℕ} (ha : a ∈ searchAccesses bs m) :
    a.1 ∈ usableBlocks bs ∧ a.2 < (a.1.numPages + 7) / 8 := by
  induction bs with
  | nil => exact absurd ha List.not_mem_nil
  | cons b bs ih =>
    have hrange {k : ℕ} (hk : k ≤ b.numPages)
        (h : a ∈ (List.range k).map fun i => (b, i / 8)) :
        a.1 ∈ b :: usableBlocks bs ∧ a.2 < (a.1.numPages + 7) / 8 := by
      obtain ⟨i, hi, rfl⟩ := List.mem_map.1 h
      rw [List.mem_range] at hi
      exact ⟨List.mem_cons_self, by dsimp only; omega⟩
    rw [searchAccesses] at ha
    rw [usableBlocks_cons]
    split_ifs at ha ⊢ with hp hu
    · exact absurd ha List.not_mem_nil
    · exact ih ha
    · cases hfind : (List.range b.numPages).find? fun j => !frameBit m b.frames j with
      | some j =>
        have hj : j < b.numPages := List.mem_range.1 (List.mem_of_find?_eq_some hfind)
        rw [hfind] at ha
        rcases List.mem_append.1 ha with ha | ha
        · exact hrange hj ha
        · rw [List.mem_singleton.1 ha]
          exact ⟨List.mem_cons_self, by dsimp only; omega⟩
      | none =>
        rw [hfind] at ha
        rcases List.mem_append.1 ha with ha | ha
        · exact hrange le_rfl ha
        · obtain ⟨hmem, hlt⟩ := ih ha
          exact ⟨List.mem_cons_of_mem b hmem, hlt⟩

/-! ## One call -/

theorem mem_unmarked : p ∈ s.unmarked ↔ p ∈ s.pageList ∧ s.marked p = false := by
  rw [MMU.unmarked, List.mem_filter, Bool.not_eq_true']

theorem BlockTable.pageAddr_lt (hT : BlockTable s) (hp : p ∈ s.pageList) :
    pageAddr p + 0x1000 ≤ 2 ^ 64 := by
  obtain ⟨hb, hj⟩ := mem_pagesOf.1 hp
  have hbound := hT.bound p.1 hb
  simp only [pageAddr, MemoryBlock.page] at hbound ⊢
  omega

theorem BlockTable.nodup (hT : BlockTable s) : (s.pageList.map pageAddr).Nodup :=
  nodup_pageAddr hT.physical

/-- The state with the bit of a page set. -/
def MMU.mark (s : MMU) (p : MemoryBlock × ℕ) : MMU :=
  { s with
    mem := s.mem.set (p.1.frames + p.2 / 8)
      (orInt (s.mem (p.1.frames + p.2 / 8)) (1#32 <<< (p.2 % 8))) }

theorem BlockTable.mark (hT : BlockTable s) (p : MemoryBlock × ℕ) : BlockTable (s.mark p) :=
  ⟨hT.presentFirst, hT.physical, hT.bitmaps, hT.bound⟩

/-- The mark of one page. -/
theorem BlockTable.marked_mark (hT : BlockTable s) (hp : p ∈ s.pageList) (hq : q ∈ s.pageList) :
    (s.mark p).marked q = if q = p then true else s.marked q := by
  obtain ⟨hpb, hpj⟩ := mem_pagesOf.1 hp
  obtain ⟨hqb, hqj⟩ := mem_pagesOf.1 hq
  rw [MMU.marked, MMU.marked, frameBit_eq, frameBit_eq, MMU.mark,
    bit_set_of_disjoint (hT.bitmaps.forall hpb hqb) hpj hqj setsBit_orInt_mod]
  simp only [Prod.ext_iff]

/-- What is not marked, once the first of it is. -/
theorem BlockTable.unmarked_mark (hT : BlockTable s) {l : List (MemoryBlock × ℕ)}
    (h : s.unmarked = p :: l) : (s.mark p).unmarked = l := by
  have hp : p ∈ s.pageList := (mem_unmarked.1 (h ▸ List.mem_cons_self)).1
  have hnodup : (p :: l).Nodup := h ▸ hT.nodup.of_map.filter _
  calc (s.mark p).unmarked
      = s.pageList.filter fun q => (q != p) && !s.marked q := by
        refine List.filter_congr fun q hq => ?_
        rw [hT.marked_mark hp hq]
        by_cases hqp : q = p <;> simp [hqp]
    _ = (p :: l).filter (· != p) := by rw [← h, MMU.unmarked, List.filter_filter]
    _ = l := by
        rw [List.filter_cons_of_neg (by simp), List.filter_eq_self]
        intro q hq
        have hqp : q ≠ p := fun hqp => (List.nodup_cons.1 hnodup).1 (hqp ▸ hq)
        simpa using hqp

theorem kmallocPage_of_cons (hT : BlockTable s) {l : List (MemoryBlock × ℕ)}
    (h : s.unmarked = p :: l) : kmallocPage s = (pageAddr p, s.mark p) := by
  have hlt := hT.pageAddr_lt (mem_unmarked.1 (h ▸ List.mem_cons_self)).1
  rw [kmallocPage_eq hT, h, ← wrap_of_lt (by omega : pageAddr p < 2 ^ 64)]
  rfl

theorem kmallocPage_of_nil (hT : BlockTable s) (h : s.unmarked = []) :
    kmallocPage s = (wrapSub 0 1, s) := by
  rw [kmallocPage_eq hT, h]
  rfl

/-- The pages that are not marked are taken in order. -/
theorem takesFirst_kmallocPage :
    TakesFirst kmallocPage BlockTable MMU.unmarked pageAddr (wrapSub 0 1) where
  first s p l hT h := by
    rw [kmallocPage_of_cons hT h]
    exact ⟨rfl, hT.unmarked_mark h, hT.mark p⟩
  empty s hT h := kmallocPage_of_nil hT h

theorem BlockTable.ne_minusOne (hT : BlockTable s) (hp : p ∈ s.pageList) :
    pageAddr p ≠ wrapSub 0 1 := by
  have hlt := hT.pageAddr_lt hp
  rw [wrapSub_eq_mod]
  omega

theorem unmarked_eq_nil : s.unmarked = [] ↔ ∀ p ∈ s.pageList, s.marked p = true := by
  rw [MMU.unmarked, List.filter_eq_nil_iff]
  simp

/-! ## All calls -/

/-- `kmallocPage` finds the first page that is not marked, and with it all of them. -/
structure FindsPages (s : MMU) : Prop where
  /-- It fails only when all pages are marked, -/
  full : (kmallocPage s).1 = wrapSub 0 1 ↔ ∀ p ∈ s.pageList, s.marked p = true
  /-- and then changes nothing. -/
  unchanged : (∀ p ∈ s.pageList, s.marked p = true) → (kmallocPage s).2 = s
  /-- Else it returns the first page that is not marked, and only marks this one. -/
  first : ∀ before p after, s.pageList = before ++ p :: after →
    (∀ q ∈ before, s.marked q = true) → s.marked p = false →
    (kmallocPage s).1 = pageAddr p ∧
      (∀ q ∈ s.pageList, (kmallocPage s).2.marked q = if q = p then true else s.marked q) ∧
      ∃ c, (kmallocPage s).2 = { s with mem := s.mem.set (p.1.frames + p.2 / 8) c }
  /-- It accesses the bitmaps of usable blocks, in bounds. -/
  bounds : ∀ a ∈ searchAccesses s.table s.mem, a.1 ∈ s.usable ∧ a.2 < (a.1.numPages + 7) / 8
  /-- Calls return the pages that are not marked before they fail, -/
  outputs : ∀ n, outputs kmallocPage n s =
    (s.unmarked.map pageAddr ++ List.replicate n (wrapSub 0 1)).take n
  /-- each once. -/
  once : (s.unmarked.map pageAddr).Nodup ∧ wrapSub 0 1 ∉ s.unmarked.map pageAddr

/-- The search is right for every table and all contents of the bitmaps. -/
theorem findsPages (hT : BlockTable s) : FindsPages s where
  full := by
    rw [← unmarked_eq_nil]
    cases h : s.unmarked with
    | nil => simp [kmallocPage_of_nil hT h]
    | cons p l =>
      have hp : p ∈ s.pageList := (mem_unmarked.1 (h ▸ List.mem_cons_self)).1
      simp [kmallocPage_of_cons hT h, hT.ne_minusOne hp]
  unchanged h := by rw [kmallocPage_of_nil hT (unmarked_eq_nil.2 h)]
  first before p after hsplit hbefore hp := by
    have hmem : p ∈ s.pageList := by simp [hsplit]
    have hunmarked : s.unmarked = p :: after.filter fun q => !s.marked q := by
      have hnil : before.filter (fun q => !s.marked q) = [] :=
        List.filter_eq_nil_iff.2 fun q hq => by simp [hbefore q hq]
      rw [MMU.unmarked, hsplit, List.filter_append, hnil, List.nil_append,
        List.filter_cons_of_pos (by simp [hp])]
    rw [kmallocPage_of_cons hT hunmarked]
    exact ⟨rfl, fun q hq => hT.marked_mark hmem hq, _, rfl⟩
  bounds a ha := hT.usableBlocks_eq ▸ searchAccesses_lt ha
  outputs n := takesFirst_kmallocPage.outputs_eq hT
  once := by
    refine ⟨(hT.nodup.sublist (List.filter_sublist.map _)), fun h => ?_⟩
    obtain ⟨p, hp, heq⟩ := List.mem_map.1 h
    exact hT.ne_minusOne (mem_unmarked.1 hp).1 heq

theorem blockTable_oneBlock : BlockTable oneBlock := by
  have husable : oneBlock.usable = [⟨true, 0x100000, 16, 7, 0x1000⟩] := by decide
  refine ⟨by decide, ?_, ?_, ?_⟩
  · rw [husable]
    exact List.pairwise_singleton _ _
  · rw [husable]
    exact List.pairwise_singleton _ _
  · rw [husable]
    decide

theorem findsPages_oneBlock : FindsPages oneBlock := findsPages blockTable_oneBlock

end SmartOS
