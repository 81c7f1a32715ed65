import SmartOS.Heap.Operations

/-!
# Allocating on a heap

What a call of `malloc` does to a well-formed heap (`Heap.WellFormed`: its
entries are blocks that tile the arena, and record their sizes).

* `splits_iff`: when an entry is split as it should be. `split` computes the size
  of the entry that is split off the wrong way round, which is only right in one
  case modulo `2 ^ 64`;
* `firstFits_iff`: when the entry taken is the first that is free and large enough.
  The search ends at the last entry if there is none, and what follows does not
  look whether that entry is in use.
-/

namespace SmartOS

open Prog

/-! ## Well-formed heaps -/

/-- The entries are the blocks `bs`, which tile the arena. -/
structure Heap.WellFormed (h : Heap) (m : Mem) (bs : List Block) : Prop where
  seg : Seg True m h.first bs 0
  ne_nil : bs ≠ []
  tiles : extent bs = h.size
  bound : h.first + h.size ≤ 2 ^ 64

variable {h : Heap} {m m' : Mem} {a size : ℕ} {b : Block} {bs pre post : List Block}

/-- An entry is written. -/
def withEntry (m : Mem) (a : ℕ) (b : Block) (next : ℕ) : Mem :=
  setEntryNext (setEntrySize (setEntryFree m a b.free) a b.size) a next

/-- All blocks can be laid out. -/
theorem exists_seg (bs : List Block) {a : ℕ} (hbound : a + extent bs ≤ 2 ^ 64) :
    ∃ m, Seg True m a bs 0 := by
  induction bs generalizing a with
  | nil => exact ⟨fun _ => 0, trivial⟩
  | cons b bs ih =>
    rw [extent_cons] at hbound
    obtain ⟨m, hm⟩ := @ih (a + 24 + b.size) (by omega)
    obtain ⟨next, hnext⟩ : ∃ next, next = if bs = [] then 0 else a + 24 + b.size := ⟨_, rfl⟩
    refine ⟨withEntry m a b next, hnext ▸ ?_, hm.congr_of_mem fun x _ _ => ?_⟩
    · -- The header is written over a memory in which the blocks after it are laid out.
      have hlt : next < 2 ^ 64 := by
        by_cases hnil : bs = []
        · rw [hnext, if_pos hnil]
          decide
        · obtain ⟨c, cs, rfl⟩ := List.exists_cons_of_ne_nil hnil
          rw [extent_cons] at hbound
          rw [hnext, if_neg hnil]
          omega
      exact ((header_self.setFree).setSize (by omega)).setNext hlt
    · rw [withEntry, setEntryNext_of_not_mem (by omega), setEntrySize_of_not_mem (by omega),
        setEntryFree_of_not_mem (by omega)]

/-- A heap laid out with these blocks. -/
theorem exists_wellFormed (hne : bs ≠ []) (hbound : a + extent bs ≤ 2 ^ 64) :
    ∃ m, Heap.WellFormed ⟨a, extent bs⟩ m bs :=
  let ⟨m, hm⟩ := exists_seg bs hbound; ⟨m, hm, hne, rfl, hbound⟩

namespace Heap.WellFormed

/-- An entry in the middle. -/
theorem header (hw : h.WellFormed m (pre ++ b :: post)) :
    Header True m (h.first + extent pre) b
      (if post = [] then 0 else h.first + extent pre + 24 + b.size) :=
  (Seg.middle_iff.1 hw.seg).2.1

theorem entry_le (hw : h.WellFormed m (pre ++ b :: post)) :
    h.first + extent pre + 24 + b.size + extent post ≤ 2 ^ 64 := by
  have htiles := hw.tiles
  have := hw.bound
  rw [extent_append, extent_cons] at htiles
  omega

/-- What `malloc` does at the first entry that is free and large enough, or at the last one. -/
theorem returns_malloc (hw : h.WellFormed m (pre ++ b :: post)) (hsize : 1 ≤ size)
    (hpre : ∀ c ∈ pre, ¬c.Fits size) (hb : b.Fits size ∨ post = []) :
    Returns (fun n => h.malloc size m n) (Heap.take (h.first + extent pre) size m) := by
  simp only [Heap.malloc, if_neg (by omega : size ≠ 0)]
  exact (returns_firstFit hw.seg (hw.tiles ▸ hw.bound) hpre hb).bind (.pure _)

end Heap.WellFormed

/-! ## Splitting -/

/-- `malloc(size)` splits the entry of the block `b`: a block in use comes in its place, and one
    that is free and takes the rest. -/
def Heap.Splits (h : Heap) (m : Mem) (pre : List Block) (b : Block) (post : List Block)
    (size : ℕ) : Prop :=
  ∃ m', Returns (fun n => h.malloc size m n) (h.first + extent pre + 24, m') ∧
    h.WellFormed m' (pre ++ ⟨size, false⟩ :: ⟨b.size - size - 24, true⟩ :: post) ∧
    ∀ x, ¬(h.first + extent pre ≤ x ∧ x < h.first + extent pre + 24 + b.size) → m' x = m x

section

variable (hw : h.WellFormed m (pre ++ b :: post)) (hsize : size + 24 < b.size)
include hw hsize

/-- The blocks are there after `split`, but for the size that the free one records. -/
theorem returns_split (hpos : 1 ≤ size) (hpre : ∀ c ∈ pre, ¬c.Fits size) (hfree : b.free = true) :
    Returns (fun n => h.malloc size m n)
      (h.first + extent pre + 24, Heap.split (h.first + extent pre) size m) := by
  have hle := hw.entry_le
  have hreturns := hw.returns_malloc hpos hpre (.inl ⟨hfree, by omega⟩)
  have hentry : entrySize m (h.first + extent pre) = b.size := hw.header.size (.inr trivial)
  rwa [take_eq_split (by rw [hentry, wrap_of_lt] <;> omega), wrap_of_lt (by omega)] at hreturns

/-- What `split` records. -/
theorem split_recorded :
    Header True (Heap.split (h.first + extent pre) size m) (h.first + extent pre) ⟨size, false⟩
        (h.first + extent pre + 24 + size) ∧
      Header True (Heap.split (h.first + extent pre) size m) (h.first + extent pre + 24 + size)
        ⟨wrapSub size (wrap (b.size + 24)), true⟩
        (if post = [] then 0 else h.first + extent pre + 24 + b.size) ∧
      ∀ x, ¬(h.first + extent pre ≤ x ∧ x < h.first + extent pre + 24 + b.size) →
        Heap.split (h.first + extent pre) size m x = m x := by
  have hle := hw.entry_le
  have hentry : entrySize m (h.first + extent pre) = b.size := hw.header.size (.inr trivial)
  obtain ⟨hused, hrest, hframe⟩ := split_spec hw.header
    (show h.first + extent pre + 24 + size < 2 ^ 64 by omega)
    fun _ => congrArg (fun s => wrapSub size (wrap (s + 24))) hentry
  exact ⟨hused, hrest, fun x hx => hframe x (by omega) (by omega)⟩

theorem size_of_splits (hpos : 1 ≤ size) (hpre : ∀ c ∈ pre, ¬c.Fits size) (hfree : b.free = true)
    (hsplits : h.Splits m pre b post size) : b.size = size + 2 ^ 63 := by
  have hle := hw.entry_le
  obtain ⟨m', hreturns, hw', -⟩ := hsplits
  obtain ⟨-, rfl⟩ := Prod.mk.inj (hreturns.unique (returns_split hw hsize hpos hpre hfree))
  obtain ⟨-, hrest, -⟩ := split_recorded hw hsize
  rw [← List.singleton_append, ← List.append_assoc] at hw'
  have hrecorded := hw'.header.size (.inr trivial)
  -- `split` subtracts the sizes the wrong way round, which agrees modulo `2 ^ 64` when they are
  -- `2 ^ 63` apart, and only then.
  rw [extent_append, extent_cons, extent_nil, Nat.add_zero, ← Nat.add_assoc, ← Nat.add_assoc,
    hrest.size (.inr trivial)] at hrecorded
  dsimp only at hrecorded
  rw [wrapSub_eq_mod, wrap_eq_mod] at hrecorded
  omega

theorem splits_of_size (hpos : 1 ≤ size) (hpre : ∀ c ∈ pre, ¬c.Fits size) (hfree : b.free = true)
    (hb : b.size = size + 2 ^ 63) : h.Splits m pre b post size := by
  obtain ⟨hused, hrest, hframe⟩ := split_recorded hw hsize
  have hrecorded : wrapSub size (wrap (b.size + 24)) = b.size - size - 24 := by
    rw [wrapSub_eq_mod, wrap_eq_mod]
    omega
  rw [hrecorded] at hrest
  have hextent : extent [⟨size, false⟩, ⟨b.size - size - 24, true⟩] = 24 + b.size := by
    simp only [extent_cons, extent_nil]
    omega
  refine ⟨_, returns_split hw hsize hpos hpre hfree, ⟨?_, by simp, ?_, hw.bound⟩, hframe⟩
  · exact hw.seg.replace (List.cons_ne_nil _ _) hextent hframe ⟨hused, hrest, trivial⟩
  · rw [← hw.tiles]
    simp only [extent_append, extent_cons]
    omega

/-- An entry is split as it should be only when its two parts are `2 ^ 63` bytes apart. -/
theorem splits_iff (hpos : 1 ≤ size) (hpre : ∀ c ∈ pre, ¬c.Fits size) (hfree : b.free = true) :
    h.Splits m pre b post size ↔ b.size = size + 2 ^ 63 :=
  ⟨size_of_splits hw hsize hpos hpre hfree, splits_of_size hw hsize hpos hpre hfree⟩

end

/-- The one entry of a new arena of `2 ^ 63 + 56` bytes, split at 32. -/
theorem splits_new : ∃ m, Heap.Splits ⟨0x1000, extent [⟨2 ^ 63 + 32, true⟩]⟩ m []
    ⟨2 ^ 63 + 32, true⟩ [] 32 := by
  obtain ⟨m, hw⟩ := @exists_wellFormed 0x1000 [⟨2 ^ 63 + 32, true⟩] (List.cons_ne_nil _ _)
    (by decide)
  have hpre : ∀ c ∈ ([] : List Block), ¬c.Fits 32 := fun c hc => absurd hc List.not_mem_nil
  exact ⟨m, (@splits_iff _ m 32 ⟨2 ^ 63 + 32, true⟩ [] [] hw (by decide) (by decide) hpre rfl).2
    (by decide)⟩

/-- What `Heap.Splits` says, of all well-formed heaps. -/
def AllSplit : Prop :=
  ∀ {h : Heap} {m : Mem} {size : ℕ} {b : Block} {pre post : List Block},
    h.WellFormed m (pre ++ b :: post) → size + 24 < b.size → 1 ≤ size →
    (∀ c ∈ pre, ¬c.Fits size) → b.free = true → h.Splits m pre b post size

/-- Eight bytes of an arena of 128. -/
theorem not_allSplit : ¬AllSplit := by
  intro hall
  obtain ⟨m, hw⟩ := @exists_wellFormed 0x1000 [⟨104, true⟩] (List.cons_ne_nil _ _) (by decide)
  have hpre : ∀ c ∈ ([] : List Block), ¬c.Fits 8 := fun c hc => absurd hc List.not_mem_nil
  have hsplits := @hall _ m 8 ⟨104, true⟩ [] [] hw (by decide) (by decide) hpre rfl
  have hsize := @size_of_splits _ m 8 ⟨104, true⟩ [] [] hw (by decide) (by decide) hpre rfl hsplits
  exact absurd hsize (by decide)

/-! ## First fit -/

/-- `malloc(size)` returns no pointer exactly when no free block is large enough, and leaves the
    heap alone then; otherwise it returns the payload of the first one. -/
def Heap.FirstFits (h : Heap) (m : Mem) (bs : List Block) (size : ℕ) : Prop :=
  ∃ ptr m', Returns (fun n => h.malloc size m n) (ptr, m') ∧
    (ptr = 0 ↔ ∀ b ∈ bs, ¬b.Fits size) ∧ (ptr = 0 → m' = m) ∧
    (ptr ≠ 0 → ptr = h.first + extent (bs.takeWhile fun b => ¬b.Fits size) + 24)

/-- A block that fits is taken as it is, or split. -/
theorem exists_take (hw : h.WellFormed m (pre ++ b :: post)) (hsize : 1 ≤ size)
    (hle : size ≤ b.size ∨ wrap (size + 24) < b.size) :
    ∃ m', Heap.take (h.first + extent pre) size m = (h.first + extent pre + 24, m') := by
  have hentry : entrySize m (h.first + extent pre) = b.size := hw.header.size (.inr trivial)
  have hbound := hw.entry_le
  have hptr : wrap (h.first + extent pre + 24) = h.first + extent pre + 24 :=
    wrap_of_lt (by omega)
  rw [← hptr]
  by_cases hwrap : wrap (size + 24) < b.size
  · exact ⟨_, take_eq_split (hentry ▸ hwrap)⟩
  · exact ⟨_, take_eq_exact (hentry ▸ hle.resolve_right hwrap) (hentry ▸ Nat.not_lt.1 hwrap)⟩

theorem firstFits_of_fits (hw : h.WellFormed m bs) (hsize : 1 ≤ size)
    (hfits : ∃ b ∈ bs, b.Fits size) : h.FirstFits m bs size := by
  obtain ⟨pre, b, post, rfl, hpre, hb⟩ := exists_firstFit size hw.ne_nil
  have hb : b.Fits size := by
    obtain ⟨c, hc, hfits⟩ := hfits
    rcases hb with hb | rfl
    · exact hb
    · rcases List.mem_append.1 hc with hc | hc
      · exact absurd hfits (hpre c hc)
      · exact List.mem_singleton.1 hc ▸ hfits
  obtain ⟨m', hm'⟩ := exists_take hw hsize (.inl hb.2)
  have hreturns := hw.returns_malloc hsize hpre (.inl hb)
  have hwhile : (pre ++ b :: post).takeWhile (fun b => ¬b.Fits size) = pre := by
    rw [List.takeWhile_append_of_pos (by simpa using hpre), List.takeWhile_cons, if_neg (by simpa),
      List.append_nil]
  refine ⟨_, m', hm' ▸ hreturns, iff_of_false (by omega) fun hnone => ?_, fun h0 => by omega,
    fun _ => by rw [hwhile]⟩
  exact hnone b (by simp) hb

/-- When no block fits, the last one decides. -/
theorem firstFits_of_last (hw : h.WellFormed m (pre ++ [b])) (hsize : 1 ≤ size)
    (hnone : ∀ c ∈ pre ++ [b], ¬c.Fits size) :
    h.FirstFits m (pre ++ [b]) size ↔ b.size < size ∧ b.size ≤ wrap (size + 24) := by
  have hpre : ∀ c ∈ pre, ¬c.Fits size := fun c hc => hnone c (List.mem_append_left _ hc)
  have hreturns := hw.returns_malloc hsize hpre (.inr rfl)
  have hentry : entrySize m (h.first + extent pre) = b.size := hw.header.size (.inr trivial)
  constructor
  · rintro ⟨ptr, m', hr, hnull, -⟩
    by_contra hlast
    -- The last block would be handed out, although it does not fit.
    obtain ⟨m₁, hm₁⟩ := exists_take hw hsize (by omega)
    rw [hm₁] at hreturns
    have hptr := (Prod.mk.inj (hr.unique hreturns)).1
    have := hnull.2 hnone
    omega
  · rintro ⟨hlt, hwrap⟩
    rw [take_eq_null (hentry ▸ hlt) (hentry ▸ hwrap)] at hreturns
    exact ⟨0, m, hreturns, iff_of_true rfl hnone, fun _ => rfl, fun h0 => absurd rfl h0⟩

/-- `malloc` is a first fit when a block fits, or when the last one is smaller than what is asked
    for, whether in use or not. -/
theorem firstFits_iff (hw : h.WellFormed m (pre ++ [b])) (hsize : 1 ≤ size) :
    h.FirstFits m (pre ++ [b]) size ↔
      (∃ c ∈ pre ++ [b], c.Fits size) ∨ b.size < size ∧ b.size ≤ wrap (size + 24) := by
  by_cases hfits : ∃ c ∈ pre ++ [b], c.Fits size
  · exact iff_of_true (firstFits_of_fits hw hsize hfits) (.inl hfits)
  · rw [or_iff_right hfits]
    exact firstFits_of_last hw hsize fun c hc hc' => hfits ⟨c, hc, hc'⟩

/-- An arena in use is not handed out for a larger size. -/
theorem firstFits_used : ∃ m, Heap.FirstFits ⟨0x1000, extent [⟨8, false⟩]⟩ m [⟨8, false⟩] 16 := by
  obtain ⟨m, hw⟩ := @exists_wellFormed 0x1000 [⟨8, false⟩] (List.cons_ne_nil _ _) (by decide)
  exact ⟨m, (@firstFits_iff _ m 16 ⟨8, false⟩ [] hw (by decide)).2
    (.inr ⟨by decide, (wrap_of_lt (by decide : 16 + 24 < 2 ^ 64)).symm ▸ by decide⟩)⟩

/-- What `Heap.FirstFits` says, of all well-formed heaps and all sizes. -/
def AllFirstFit : Prop :=
  ∀ {h : Heap} {m : Mem} {bs : List Block} {size : ℕ}, h.WellFormed m bs → 1 ≤ size →
    size < 2 ^ 64 → h.FirstFits m bs size

/-- The last entry is in use, and handed out again. -/
theorem not_allFirstFit : ¬AllFirstFit := by
  intro hall
  obtain ⟨m, hw⟩ := @exists_wellFormed 0x1000 [⟨8, false⟩] (List.cons_ne_nil _ _) (by decide)
  have hnone : ∀ c ∈ ([] : List Block) ++ [⟨8, false⟩], ¬c.Fits 8 := by decide
  have hlast := (firstFits_of_last hw (by decide) hnone).1 (hall hw (by decide) (by decide))
  exact absurd hlast.1 (by decide)

end SmartOS
