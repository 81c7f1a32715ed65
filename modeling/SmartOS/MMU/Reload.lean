import SmartOS.MMU.Init

/-!
# Reloading the directory

The processor keeps translations of the directory in use until `cr3` is loaded. A
word of its tables that was present must not change before that: `mapPage` loads
`cr3` again for the directory in use, but only when `mmuEnabled` is set, and
nothing sets it.

* `nextTable_unchanged`: on the way to a page, no word changes that was present.
* `noStale_of_run`: in every run where `mapPage` finds the words of the directory in
  use absent, or as it would write them, no translation goes stale.
* `not_noStale`: a page of the kernel's directory that is mapped again is stale.
-/

namespace SmartOS

open Prog

variable {m m' m'' : Mem} {a f i j t u w lo lim n r root virt phys count flags : ℕ} {p q : List ℕ}
  {dirs : List ℕ} {s s' s₀ : MMU}

/-! ## Words that do not change -/

/-- The words of the tables of `root` that are present keep their values. -/
def Unchanged (m m' : Mem) (root : ℕ) : Prop :=
  ∀ q t i, IsPath 3 q → i < 512 → tableAt m root q = some t →
    m.get64 (slot t i) &&& mmuPresent ≠ 0 → m'.get64 (slot t i) = m.get64 (slot t i)

theorem Unchanged.rfl : Unchanged m m root := fun _ _ _ _ _ _ _ => Eq.refl _

/-- The tables stay where they are. -/
theorem Unchanged.tableAt (h : Unchanged m m' root) :
    ∀ {p : List ℕ} {t : ℕ}, IsPath 4 p → tableAt m root p = some t → tableAt m' root p = some t
  | [], _, _, ht => ht
  | i :: q, t, hp, ht => by
    obtain ⟨hi, hq⟩ := isPath_cons.1 hp
    rw [SmartOS.tableAt, Option.bind_eq_some_iff] at ht ⊢
    obtain ⟨u, hu, hentry⟩ := ht
    refine ⟨u, h.tableAt (hq.mono (Nat.le_succ 3)) hu, ?_⟩
    rw [entry_congr (h q u i hq hi hu fun habs => ?_), hentry]
    simp [entry_eq_none_iff.2 habs] at hentry

theorem Unchanged.trans (h : Unchanged m m' root) (h' : Unchanged m' m'' root) :
    Unchanged m m'' root := fun q t i hq hi ht hpresent => by
  have hword := h q t i hq hi ht hpresent
  rw [← hword] at hpresent ⊢
  exact h' q t i hq hi (h.tableAt (hq.mono (Nat.le_succ 3)) ht) hpresent

/-- What is written above the tables does not concern them. -/
theorem Forest.unchanged (hF : Forest m lo lim dirs) (h : ∀ x < lim, m' x = m x) (hr : r ∈ dirs) :
    Unchanged m m' r := fun _ _ _ hq hi ht _ =>
  hF.get64_congr (fun x _ hx => h x hx) hr hq ht hi

/-- A word of a page that is written, where no other value was present. -/
theorem Forest.unchanged_set64 (hF : Forest m lo lim dirs) (ht : t % 0x1000 = 0) (hi : i < 512)
    (hr : r ∈ dirs) (h : ∀ q, IsPath 3 q → tableAt m r q = some t →
      m.get64 (slot t i) &&& mmuPresent ≠ 0 → w = m.get64 (slot t i)) :
    Unchanged m (m.set64 (slot t i) w) r := fun q u j hq hj hu hpresent => by
  by_cases hslot : u = t ∧ j = i
  · obtain ⟨rfl, rfl⟩ := hslot
    rw [h q hq hu hpresent]
    exact Mem.get64_set64 Mem.get64_lt
  · exact Mem.get64_set64_of_disjoint
      (slot_disjoint (hF.page hr hq hu).1 ht hj hi hslot).symm

/-- Tables that are all reached as before. -/
theorem Forest.of_tableAt_eq (hF : Forest m lo lim dirs)
    (h : ∀ r ∈ dirs, ∀ p, IsPath 3 p → tableAt m' r p = tableAt m r p) : Forest m' lo lim dirs where
  page hr hp ht := hF.page hr hp (h _ hr _ hp ▸ ht)
  inj hr hr' hp hp' ht ht' := hF.inj hr hr' hp hp' (h _ hr _ hp ▸ ht) (h _ hr' _ hp' ▸ ht')

/-- A word of a page that no directory reaches. -/
theorem Forest.tableAt_set64_of_not (hF : Forest m lo lim dirs) (ht : t % 0x1000 = 0)
    (hi : i < 512) (hnot : ∀ r ∈ dirs, ∀ p, IsPath 3 p → tableAt m r p ≠ some t) (hr : r ∈ dirs)
    (hp : IsPath 3 p) : tableAt (m.set64 (slot t i) w) r p = tableAt m r p := by
  refine SmartOS.tableAt_congr (n := 2) (fun p u hp hu j hj => ?_) hp
  have hp' := hp.mono (show 2 ≤ 3 by omega)
  refine Mem.get64_set64_of_disjoint (slot_disjoint (hF.page hr hp' hu).1 ht hj hi ?_).symm
  rintro ⟨rfl, _⟩
  exact hnot r hr p hp' hu

/-! ## On the way to a page -/

/-- The table that `mapPage` has come to from the state `s₀`: one that was there, before anything
    has changed, or a new page of zeros. When the flags make no word present, the new page hangs on
    a word that is not, and no directory reaches it. -/
inductive Reached (s₀ s : MMU) (dirs : List ℕ) (root : ℕ) (q : List ℕ) (t : ℕ) : Prop
  | old (hs : s = s₀) (ht : tableAt s.mem root q = some t)
  | new (hzero : ∀ j < 512, s.mem.get64 (slot t j) = 0) (halign : t % 0x1000 = 0)
    (habove : s₀.kmallocAddr ≤ t) (hlim : t + 0x1000 ≤ s.kmallocAddr)
    (ht : tableAt s.mem root q = some t ∨
      ∀ r ∈ dirs, ∀ p, IsPath 3 p → tableAt s.mem r p ≠ some t)

theorem Reached.page (h : Reached s₀ s dirs root q t) (hF : Forest s.mem lo s.kmallocAddr dirs)
    (hroot : root ∈ dirs) (hq : IsPath 3 q) : t % 0x1000 = 0 ∧ t + 0x1000 ≤ s.kmallocAddr := by
  cases h with
  | old _ ht =>
    obtain ⟨halign, _, hlim⟩ := hF.page hroot hq ht
    exact ⟨halign, hlim⟩
  | new _ halign _ hlim _ => exact ⟨halign, hlim⟩

theorem Reached.le (h : Reached s₀ s dirs root q t) : s₀.kmallocAddr ≤ s.kmallocAddr := by
  cases h with
  | old hs _ => rw [hs]
  | new _ _ habove hlim _ => exact habove.trans (by omega)

theorem Reached.lo_le (h : Reached s₀ s dirs root q t) (hF : Forest s.mem lo s.kmallocAddr dirs)
    (hroot : root ∈ dirs) (hq : IsPath 3 q) (hlo : lo ≤ s₀.kmallocAddr) : lo ≤ t := by
  cases h with
  | old _ ht => exact (hF.page hroot hq ht).2.1
  | new _ _ habove _ _ => exact hlo.trans habove

theorem Reached.reaches (h : Reached s₀ s dirs root q t) : tableAt s.mem root q = some t ∨
    ∀ r ∈ dirs, ∀ p, IsPath 3 p → tableAt s.mem r p ≠ some t := by
  cases h with
  | old _ ht => exact .inl ht
  | new _ _ _ _ ht => exact ht

section

variable (hF : Forest s.mem lo s.kmallocAddr dirs) (hroot : root ∈ dirs) (hq : IsPath 3 (i :: q))
  (ht : Reached s₀ s dirs root q t) (habs : s.mem.get64 (slot t i) &&& mmuPresent = 0)
  (hf : IsFlags f)

include hF hroot hq ht habs

theorem hang_unchanged (hr : r ∈ dirs) : Unchanged s.mem (hang t i f s).mem r := by
  obtain ⟨hi, hq₂⟩ := isPath_cons.1 hq
  obtain ⟨halign, hlim⟩ := ht.page hF hroot (hq₂.mono (by omega))
  have hpage := pageAlign_spec s.kmallocAddr
  have hslot : slot t i + 8 ≤ pageAlign s.kmallocAddr := by
    simp only [slot]
    omega
  have hfill : Forest (s.mem.fill (pageAlign s.kmallocAddr) 0x1000 0) lo s.kmallocAddr dirs :=
    hF.congr fill_below le_rfl
  refine (hF.unchanged (fun x hx => Mem.fill_of_not_mem (by omega)) hr).trans
    (hfill.unchanged_set64 halign hi hr fun _ _ _ hpresent => absurd ?_ hpresent)
  rwa [Mem.get64_fill_of_disjoint (.inr hslot)]

include hf in
/-- A table that no directory reaches, or flags that make no word present: the directories do not
    notice. -/
theorem tableAt_hang_of_not (hlim : pageAlign s.kmallocAddr + 0x1000 ≤ 2 ^ 52)
    (hnot : f % 2 = 0 ∨ ∀ r ∈ dirs, ∀ p, IsPath 3 p → tableAt s.mem r p ≠ some t) (hr : r ∈ dirs)
    (hp : IsPath 3 p) : tableAt (hang t i f s).mem r p = tableAt s.mem r p := by
  obtain ⟨hi, hq₂⟩ := isPath_cons.1 hq
  obtain ⟨halign, hle⟩ := ht.page hF hroot (hq₂.mono (by omega))
  have hpage := pageAlign_spec s.kmallocAddr
  refine tableAt_congr_entry (n := 2) (fun p u hp hu j hj => ?_) hp
  have hp' := hp.mono (show 2 ≤ 3 by omega)
  have hu' := hF.page hr hp' hu
  by_cases hslot : u = t ∧ j = i
  · -- The word is written with flags that do not make it present.
    obtain ⟨rfl, rfl⟩ := hslot
    have heven := hnot.resolve_right fun h => h r hr p hp' hu
    obtain ⟨hlt, _, _, hpresent⟩ := or_flags_spec hpage.1 (by omega) hf
    rw [entry_eq_none_iff.2 habs, entry_eq_none_iff, hang_mem, Mem.get64_set64 hlt, hpresent,
      and_mmuPresent, heven]
  · have hd := slot_disjoint hu'.1 halign hj hi hslot
    refine entry_congr ?_
    rw [hang_mem, Mem.get64_set64_of_disjoint hd.symm]
    refine Mem.get64_fill_of_disjoint (.inr ?_)
    simp only [slot]
    omega

include hf in
theorem hang_reached (hlo : lo ≤ s.kmallocAddr)
    (hlim : pageAlign s.kmallocAddr + 0x1000 ≤ 2 ^ 52) :
    Forest (hang t i f s).mem lo (hang t i f s).kmallocAddr dirs ∧
      Reached s₀ (hang t i f s) dirs root (i :: q) (pageAlign s.kmallocAddr) := by
  obtain ⟨hi, hq₂⟩ := isPath_cons.1 hq
  obtain ⟨-, hle⟩ := ht.page hF hroot (hq₂.mono (by omega))
  have hpage := pageAlign_spec s.kmallocAddr
  have habove : s₀.kmallocAddr ≤ pageAlign s.kmallocAddr := ht.le.trans hpage.2.1
  have hzero : ∀ j < 512, (hang t i f s).mem.get64 (slot (pageAlign s.kmallocAddr) j) = 0 := by
    intro j hj
    rw [hang_mem, Mem.get64_set64_of_disjoint (.inl (by simp only [slot]; omega))]
    exact Mem.get64_fill (by simp only [slot]; omega) (by simp only [slot]; omega)
  by_cases hlink : tableAt s.mem root q = some t ∧ f % 2 = 1
  · obtain ⟨ht', hodd⟩ := hlink
    have hnone := entry_eq_none_iff.2 habs
    refine ⟨forest_hang hF hroot hq ht' hnone hf hodd hlim hlo,
      .new hzero hpage.1 habove le_rfl (.inl ?_)⟩
    rw [tableAt_hang hF hroot hq ht' hnone hf hodd hlim hroot hq, if_pos ⟨rfl, rfl⟩]
  · -- The word is not present, or in a page that no directory reaches.
    have hnot : f % 2 = 0 ∨ ∀ r ∈ dirs, ∀ p, IsPath 3 p → tableAt s.mem r p ≠ some t := by
      rcases ht.reaches with ht' | ht'
      · exact .inl ((Nat.mod_two_eq_zero_or_one f).resolve_right fun hodd => hlink ⟨ht', hodd⟩)
      · exact .inr ht'
    have htab := fun r hr p hp => tableAt_hang_of_not hF hroot hq ht habs hf hlim hnot
      (r := r) (p := p) hr hp
    have hlim' : s.kmallocAddr ≤ (hang t i f s).kmallocAddr := by
      rw [hang_kmallocAddr]
      omega
    have hF' : Forest s.mem lo (hang t i f s).kmallocAddr dirs := hF.congr (fun _ _ _ => rfl) hlim'
    refine ⟨hF'.of_tableAt_eq htab,
      .new hzero hpage.1 habove le_rfl (.inr fun r hr p hp hreach => ?_)⟩
    rw [htab r hr p hp] at hreach
    have := (hF.page hr hp hreach).2.2
    omega

end

/-- What mapping keeps: the tables are a forest, and nothing changes below them. -/
structure Mapped (lo : ℕ) (dirs : List ℕ) (s s' : MMU) : Prop where
  forest : Forest s'.mem lo s'.kmallocAddr dirs
  bound : lo ≤ s'.kmallocAddr
  below : ∀ x < lo, s'.mem x = s.mem x

theorem Mapped.trans {s₁ s₂ s₃ : MMU} (h : Mapped lo dirs s₁ s₂) (h' : Mapped lo dirs s₂ s₃) :
    Mapped lo dirs s₁ s₃ :=
  ⟨h'.forest, h'.bound, fun x hx => (h'.below x hx).trans (h.below x hx)⟩

/-- One table on the way. -/
theorem nextTable_unchanged (hF : Forest s.mem lo s.kmallocAddr dirs) (hlo : lo ≤ s₀.kmallocAddr)
    (hroot : root ∈ dirs) (hq : IsPath 3 (i :: q)) (ht : Reached s₀ s dirs root q t)
    (hf : IsFlags f) (hlim : (nextTable t i f s).2.kmallocAddr ≤ 2 ^ 52) :
    Mapped lo dirs s (nextTable t i f s).2 ∧
      Reached s₀ (nextTable t i f s).2 dirs root (i :: q) (nextTable t i f s).1 ∧
      ∀ r ∈ dirs, Unchanged s.mem (nextTable t i f s).2.mem r := by
  have hlo' := hlo.trans ht.le
  have hlot := ht.lo_le hF hroot ((isPath_cons.1 hq).2.mono (by omega)) hlo
  have hbound : lo ≤ (nextTable t i f s).2.kmallocAddr := hlo'.trans le_nextTable_kmallocAddr
  by_cases habs : s.mem.get64 (slot t i) &&& mmuPresent = 0
  · have hpage := pageAlign_spec s.kmallocAddr
    have hlim' : pageAlign s.kmallocAddr + 0x1000 ≤ 2 ^ 52 := by
      simpa only [nextTable, if_pos habs, kmallocA_kmallocAddr] using hlim
    have hword : (hang t i f s).mem.get64 (slot t i) &&& mmuAddr = pageAlign s.kmallocAddr := by
      obtain ⟨hlt, haddr, -, -⟩ := or_flags_spec hpage.1 (by omega) hf
      rw [hang_mem, Mem.get64_set64 hlt, haddr]
    rw [nextTable_of_absent habs (by omega)] at hbound ⊢
    rw [hword]
    obtain ⟨hforest, hreached⟩ := hang_reached hF hroot hq ht habs hf hlo' hlim'
    refine ⟨⟨hforest, hbound, fun x hx => ?_⟩, hreached,
      fun r hr => hang_unchanged hF hroot hq ht habs hr⟩
    rw [hang_mem, Mem.set64_of_not_mem (by simp only [slot]; omega),
      Mem.fill_of_not_mem (by omega)]
  · -- Only a table that was there has words that are present.
    rw [nextTable_of_present habs]
    cases ht with
    | old hs ht =>
      refine ⟨⟨hF, hlo', fun _ _ => rfl⟩, .old hs ?_, fun r _ => .rfl⟩
      rw [tableAt, ht, Option.bind_some, entry, if_neg habs, Option.map_some]
    | new hzero _ _ _ _ =>
      rw [hzero i (isPath_cons.1 hq).1] at habs
      exact absurd rfl habs

/-! ## A page -/

/-- All tables on the way. -/
theorem descend_unchanged (hF : Forest s.mem lo s.kmallocAddr dirs) (hlo : lo ≤ s.kmallocAddr)
    (hroot : root ∈ dirs) (hf : IsFlags f) (hlim : (descend root virt f s).2.kmallocAddr ≤ 2 ^ 52) :
    Mapped lo dirs s (descend root virt f s).2 ∧
      Reached s (descend root virt f s).2 dirs root ((virtPath virt).drop 1)
        (descend root virt f s).1 ∧
      ∀ r ∈ dirs, Unchanged s.mem (descend root virt f s).2.mem r := by
  have hlim₂ := le_nextTable_kmallocAddr.trans hlim
  obtain ⟨hm₁, ht₁, hu₁⟩ := nextTable_unchanged hF hlo hroot
    (isPath_drop_virtPath (show 1 ≤ 3 by decide)) (.old rfl rfl) hf
    (le_nextTable_kmallocAddr.trans hlim₂)
  obtain ⟨hm₂, ht₂, hu₂⟩ := nextTable_unchanged hm₁.forest hlo hroot
    (isPath_drop_virtPath (show 1 ≤ 2 by decide)) ht₁ hf hlim₂
  obtain ⟨hm₃, ht₃, hu₃⟩ := nextTable_unchanged hm₂.forest hlo hroot
    (isPath_drop_virtPath le_rfl) ht₂ hf hlim
  exact ⟨(hm₁.trans hm₂).trans hm₃, ht₃, fun r hr => ((hu₁ r hr).trans (hu₂ r hr)).trans (hu₃ r hr)⟩

/-- The word of the page of `virt` is absent, or it is `w`. -/
def Fits (m : Mem) (root virt w : ℕ) : Prop :=
  ∀ t, tableAt m root ((virtPath virt).drop 1) = some t →
    m.get64 (slot t (virt >>> 12 &&& 0x1FF)) &&& mmuPresent ≠ 0 →
    m.get64 (slot t (virt >>> 12 &&& 0x1FF)) = w

/-- `mapPage` keeps the words of all directories when the word of the page fits, and in any case
    those of the other directories. -/
theorem mapPage_unchanged (hF : Forest s.mem lo s.kmallocAddr dirs) (hlo : lo ≤ s.kmallocAddr)
    (hroot : root ∈ dirs) (hf : IsFlags f)
    (hlim : (mapPage root virt phys f s).kmallocAddr ≤ 2 ^ 52) :
    Mapped lo dirs s (mapPage root virt phys f s) ∧
      ∀ r ∈ dirs, (r = root → Fits s.mem root virt (phys ||| f)) →
        Unchanged s.mem (mapPage root virt phys f s).mem r := by
  have hk : (mapPage root virt phys f s).kmallocAddr = (descend root virt f s).2.kmallocAddr :=
    mapPage_kmallocAddr
  have hmem : (mapPage root virt phys f s).mem = (descend root virt f s).2.mem.set64
      (slot (descend root virt f s).1 (virt >>> 12 &&& 0x1FF)) (phys ||| f) := mapPage_mem
  generalize mapPage root virt phys f s = s' at hlim hk hmem ⊢
  rw [hk] at hlim
  obtain ⟨⟨hF', hlo', hbelow⟩, ht, hu⟩ := descend_unchanged hF hlo hroot hf hlim
  have hpath : IsPath 3 ((virtPath virt).drop 1) := isPath_drop_virtPath le_rfl
  have hi := index_lt (virt >>> 12)
  obtain ⟨halign, -⟩ := ht.page hF' hroot hpath
  have hlot := ht.lo_le hF' hroot hpath hlo
  generalize descend root virt f s = c at *
  rw [← hk] at hF' hlo'
  refine ⟨⟨hF'.of_tableAt_eq fun r hr p hp => ?_, hlo', fun x hx => ?_⟩, fun r hr hfits => ?_⟩
  · rw [hmem]
    rcases ht.reaches with ht' | ht'
    · exact hF'.tableAt_set64_leaf hroot hpath hi ht' rfl hr hp
    · exact hF'.tableAt_set64_of_not halign hi ht' hr hp
  · rw [hmem, Mem.set64_of_not_mem (by simp only [slot]; omega), hbelow x hx]
  · rw [hmem]
    refine (hu r hr).trans (hF'.unchanged_set64 halign hi hr fun q hq hreach hpresent => ?_)
    cases ht with
    | old hs ht' =>
      obtain ⟨rfl, rfl⟩ := hF'.inj hr hroot hq hpath hreach ht'
      rw [hs] at ht' hpresent ⊢
      exact (hfits rfl _ ht' hpresent).symm
    | new hzero _ _ _ _ =>
      -- No word of a new table is present.
      rw [hzero _ hi] at hpresent
      exact absurd rfl hpresent

/-! ## The directory in use -/

/-- The globals that mapping leaves alone, while `mmuEnabled` is not set. -/
structure SameGlobals (s s' : MMU) : Prop where
  mmuEnabled : s'.mmuEnabled = s.mmuEnabled
  cr3 : s'.cr3 = s.cr3
  kmallocStart : s'.kmallocStart = s.kmallocStart

theorem SameGlobals.rfl : SameGlobals s s := ⟨Eq.refl _, Eq.refl _, Eq.refl _⟩

theorem SameGlobals.trans {s₁ s₂ s₃ : MMU} (h : SameGlobals s₁ s₂) (h' : SameGlobals s₂ s₃) :
    SameGlobals s₁ s₃ :=
  ⟨h'.mmuEnabled.trans h.mmuEnabled, h'.cr3.trans h.cr3, h'.kmallocStart.trans h.kmallocStart⟩

theorem sameGlobals_nextTable : SameGlobals s (nextTable t i f s).2 := by
  simp only [nextTable]
  split_ifs <;> exact ⟨rfl, rfl, rfl⟩

/-- `mapPage` does not load a directory that it does not think is in use. -/
theorem sameGlobals_mapPage (h : s.mmuEnabled = false) :
    SameGlobals s (mapPage root virt phys f s) := by
  have hdescend : SameGlobals s (descend root virt f s).2 :=
    sameGlobals_nextTable.trans (sameGlobals_nextTable.trans sameGlobals_nextTable)
  rw [mapPage_eq]
  generalize descend root virt f s = c at hdescend
  have hno : ¬(c.2.mmuEnabled && c.2.currentDirectory == root) = true := by
    simp [hdescend.mmuEnabled, h]
  dsimp only
  rw [if_neg hno]
  exact ⟨hdescend.mmuEnabled, hdescend.cr3, hdescend.kmallocStart⟩

theorem sameGlobals_map (h : s.mmuEnabled = false) :
    SameGlobals s (map root virt phys count f s) := by
  induction count with
  | zero => exact .rfl
  | succ n ih =>
    rw [map_succ]
    exact ih.trans (sameGlobals_mapPage (ih.mmuEnabled.trans h))

theorem sameGlobals_cloneTable {level old new : ℕ} :
    SameGlobals s (cloneTable level old new s) := by
  induction level generalizing old new s with
  | zero =>
    rw [cloneTable_zero]
    exact ⟨rfl, rfl, rfl⟩
  | succ level ih =>
    rw [cloneTable_succ]
    generalize 512 = n
    induction n with
    | zero => exact .rfl
    | succ n ihn =>
      rw [cloneUpTo_succ]
      refine ihn.trans ?_
      by_cases habs : (cloneUpTo level old new n s).mem.get64 (slot old n) &&& mmuPresent = 0
      · rw [cloneEntry_of_absent habs]
        exact ⟨rfl, rfl, rfl⟩
      · rw [cloneEntry_of_present habs]
        refine SameGlobals.trans ?_ ih
        exact ⟨rfl, rfl, rfl⟩

theorem sameGlobals_clone : SameGlobals s (clone root s).2 := by
  have htake : SameGlobals s (kmallocA 0x1000 s).2 := ⟨rfl, rfl, rfl⟩
  have hclone : (clone root s).2 =
      cloneTable 3 root (kmallocA 0x1000 s).1 (kmallocA 0x1000 s).2 := by rw [clone]
  rw [hclone]
  exact htake.trans sameGlobals_cloneTable

/-! ## Runs -/

/-- The memory manager, its directories, and the memory as it was when `cr3` was loaded and after
    every call since, the last one first. -/
structure Loaded where
  s : MMU
  dirs : List ℕ
  since : List Mem

namespace Loaded

/-- `mapPage` changes the memory, and then loads `cr3` if it takes the directory for the one in
    use. -/
def mapPage (dir virt phys flags : ℕ) (c : Loaded) : Loaded :=
  let s := SmartOS.mapPage dir virt phys flags c.s
  { c with
    s := s
    since := if c.s.mmuEnabled && c.s.currentDirectory == dir then [s.mem] else s.mem :: c.since }

def map (dir virt phys count flags : ℕ) (c : Loaded) : Loaded :=
  (List.range count).foldl
    (fun c i => c.mapPage dir (wrap (virt + i * 0x1000)) (wrap (phys + i * 0x1000)) flags) c

def clone (dir : ℕ) (c : Loaded) : Loaded where
  s := (SmartOS.clone dir c.s).2
  dirs := (SmartOS.clone dir c.s).1 :: c.dirs
  since := (SmartOS.clone dir c.s).2.mem :: c.since

def switchDirectory (dir : ℕ) (c : Loaded) : Loaded :=
  { c with s := SmartOS.switchDirectory dir c.s, since := [c.s.mem] }

/-- No word of the directory in use that was present since `cr3` was loaded has changed after
    that. -/
def NoStale (c : Loaded) : Prop :=
  c.since.Pairwise fun newer older => Unchanged older newer c.s.cr3

end Loaded

/-- The state that `initializeMMU` returns with: it loads the kernel's directory last. -/
def initialized (s : MMU) : Loaded := ⟨s, [s.kernelDirectory], [s.mem]⟩

inductive LoadCall
  | mapPage (dir virt phys flags : ℕ)
  | map (dir virt phys count flags : ℕ)
  | clone (dir : ℕ)
  | switchDirectory (dir : ℕ)

/-- The calls, on the directories there are, with flags that leave the address of a word alone, as
    long as the tables lie below `2 ^ 52`. -/
inductive LoadStep : Loaded → LoadCall → Loaded → Prop
  | mapPage {c : Loaded} {dir virt phys flags : ℕ} (hdir : dir ∈ c.dirs) (hflags : IsFlags flags)
    (hlim : (c.mapPage dir virt phys flags).s.kmallocAddr ≤ 2 ^ 52) :
    LoadStep c (.mapPage dir virt phys flags) (c.mapPage dir virt phys flags)
  | map {c : Loaded} {dir virt phys count flags : ℕ} (hdir : dir ∈ c.dirs) (hflags : IsFlags flags)
    (hlim : (c.map dir virt phys count flags).s.kmallocAddr ≤ 2 ^ 52) :
    LoadStep c (.map dir virt phys count flags) (c.map dir virt phys count flags)
  | clone {c : Loaded} {dir : ℕ} (hdir : dir ∈ c.dirs)
    (hlim : (c.clone dir).s.kmallocAddr ≤ 2 ^ 52) : LoadStep c (.clone dir) (c.clone dir)
  | switchDirectory {c : Loaded} {dir : ℕ} (hdir : dir ∈ c.dirs) :
    LoadStep c (.switchDirectory dir) (c.switchDirectory dir)

/-- Every page that is mapped in the directory in use is absent from it, or mapped there already in
    the same way. -/
def LoadCall.Quiet (c : Loaded) : LoadCall → Prop
  | mapPage dir virt phys flags => dir = c.s.cr3 → Fits c.s.mem dir virt (phys ||| flags)
  | map dir virt phys count flags => ∀ n < count, dir = c.s.cr3 →
    Fits (SmartOS.map dir virt phys n flags c.s).mem dir (wrap (virt + n * 0x1000))
      (wrap (phys + n * 0x1000) ||| flags)
  | clone _ => True
  | switchDirectory _ => True

/-! ### The invariant -/

/-- What holds after every call. -/
structure Loaded.Inv (lo : ℕ) (c : Loaded) : Prop where
  forest : Forest c.s.mem lo c.s.kmallocAddr c.dirs
  bound : lo ≤ c.s.kmallocAddr
  notEnabled : c.s.mmuEnabled = false
  cr3 : c.s.cr3 ∈ c.dirs
  last : c.since.head? = some c.s.mem
  noStale : c.NoStale

namespace Loaded

variable {c c' : Loaded} {dir : ℕ}

/-- What a call leaves unchanged is not stale. -/
theorem Inv.snoc (h : c.Inv lo) (hu : Unchanged c.s.mem m' c.s.cr3) :
    (m' :: c.since).Pairwise fun newer older => Unchanged older newer c.s.cr3 := by
  refine List.pairwise_cons.2 ⟨fun older holder => ?_, h.noStale⟩
  obtain ⟨since, hsince⟩ := List.head?_eq_some_iff.1 h.last
  rw [hsince] at holder
  rcases List.mem_cons.1 holder with rfl | holder
  · exact hu
  · have hpairwise := h.noStale
    rw [NoStale, hsince] at hpairwise
    exact ((List.pairwise_cons.1 hpairwise).1 older holder).trans hu

theorem mapPage_eq_of_not (h : c.s.mmuEnabled = false) : c.mapPage dir virt phys flags =
    { c with
      s := SmartOS.mapPage dir virt phys flags c.s
      since := (SmartOS.mapPage dir virt phys flags c.s).mem :: c.since } := by
  have hno : ¬(c.s.mmuEnabled && c.s.currentDirectory == dir) = true := by simp [h]
  rw [mapPage, if_neg hno]

theorem Inv.mapPage (h : c.Inv lo) (hdir : dir ∈ c.dirs) (hflags : IsFlags flags)
    (hlim : (c.mapPage dir virt phys flags).s.kmallocAddr ≤ 2 ^ 52)
    (hquiet : dir = c.s.cr3 → Fits c.s.mem dir virt (phys ||| flags)) :
    (c.mapPage dir virt phys flags).Inv lo := by
  obtain ⟨hmapped, hu⟩ := mapPage_unchanged h.forest h.bound hdir hflags hlim
  have hsame : SameGlobals c.s (SmartOS.mapPage dir virt phys flags c.s) :=
    sameGlobals_mapPage h.notEnabled
  rw [mapPage_eq_of_not h.notEnabled]
  refine ⟨hmapped.forest, hmapped.bound, hsame.mmuEnabled.trans h.notEnabled,
    hsame.cr3 ▸ h.cr3, rfl, ?_⟩
  rw [NoStale]
  dsimp only
  rw [hsame.cr3]
  exact h.snoc (hu _ h.cr3 fun heq => heq ▸ hquiet heq.symm)

theorem map_succ : c.map dir virt phys (n + 1) flags =
    (c.map dir virt phys n flags).mapPage dir (wrap (virt + n * 0x1000)) (wrap (phys + n * 0x1000))
      flags := by
  simp only [map, List.range_succ, List.foldl_append, List.foldl_cons, List.foldl_nil]

theorem map_s : (c.map dir virt phys n flags).s = SmartOS.map dir virt phys n flags c.s := by
  induction n with
  | zero => rfl
  | succ n ih =>
    rw [map_succ, SmartOS.map_succ, ← ih]
    rfl

theorem map_dirs : (c.map dir virt phys n flags).dirs = c.dirs := by
  induction n with
  | zero => rfl
  | succ n ih =>
    rw [map_succ]
    exact ih

theorem Inv.map (h : c.Inv lo) (hdir : dir ∈ c.dirs) (hflags : IsFlags flags)
    (hlim : (c.map dir virt phys count flags).s.kmallocAddr ≤ 2 ^ 52)
    (hquiet : (LoadCall.map dir virt phys count flags).Quiet c) :
    (c.map dir virt phys count flags).Inv lo := by
  induction count with
  | zero => exact h
  | succ n ih =>
    rw [map_succ] at hlim ⊢
    have hn := ih (le_mapPage_kmallocAddr.trans hlim) fun k hk => hquiet k (hk.trans n.lt_succ_self)
    refine hn.mapPage (by rwa [map_dirs]) hflags hlim fun heq => ?_
    rw [map_s] at heq ⊢
    rw [(sameGlobals_map h.notEnabled).cr3] at heq
    exact hquiet n n.lt_succ_self heq

theorem Inv.clone (h : c.Inv lo) (hdir : dir ∈ c.dirs)
    (hlim : (c.clone dir).s.kmallocAddr ≤ 2 ^ 52) : (c.clone dir).Inv lo := by
  have hR : Refines c.s lo c.dirs fun r => view c.s.mem r := ⟨h.forest, h.bound, fun _ _ => rfl⟩
  have hsame : SameGlobals c.s (SmartOS.clone dir c.s).2 := sameGlobals_clone
  have hframe := clone_frame h.forest hdir hlim
  obtain ⟨-, hR'⟩ := clone_refines hR hdir hlim
  rw [Loaded.clone]
  generalize SmartOS.clone dir c.s = new at *
  refine ⟨hR'.forest, hR'.bound, hsame.mmuEnabled.trans h.notEnabled,
    List.mem_cons_of_mem _ (hsame.cr3 ▸ h.cr3), rfl, ?_⟩
  rw [NoStale]
  dsimp only
  rw [hsame.cr3]
  exact h.snoc (h.forest.unchanged hframe h.cr3)

theorem Inv.switchDirectory (h : c.Inv lo) (hdir : dir ∈ c.dirs) :
    (c.switchDirectory dir).Inv lo :=
  ⟨h.forest, h.bound, h.notEnabled, hdir, rfl, List.pairwise_singleton _ _⟩

theorem Inv.step (h : c.Inv lo) {call : LoadCall} (hs : LoadStep c call c')
    (hquiet : call.Quiet c) : c'.Inv lo := by
  cases hs with
  | mapPage hdir hflags hlim => exact h.mapPage hdir hflags hlim hquiet
  | map hdir hflags hlim => exact h.map hdir hflags hlim hquiet
  | clone hdir hlim => exact h.clone hdir hlim
  | switchDirectory hdir => exact h.switchDirectory hdir

end Loaded

/-! ### After `initializeMMU` -/

variable {bs : List MemoryBlock} {memoryMap : List MemoryDescriptor} {undef : ℕ → BitVec 32}
  {uninit kernelStart kernelEnd : ℕ} {c c₀ : Loaded} {calls : List LoadCall}

theorem map_mapped (hF : Forest s.mem lo s.kmallocAddr dirs) (hlo : lo ≤ s.kmallocAddr)
    (hroot : root ∈ dirs) (hf : IsFlags f)
    (hlim : (map root virt phys count f s).kmallocAddr ≤ 2 ^ 52) :
    Mapped lo dirs s (map root virt phys count f s) := by
  induction count with
  | zero => exact ⟨hF, hlo, fun _ _ => rfl⟩
  | succ n ih =>
    rw [map_succ] at hlim ⊢
    have hn := ih (le_mapPage_kmallocAddr.trans hlim)
    exact hn.trans (mapPage_unchanged hn.forest hn.bound hroot hf hlim).1

theorem mapBlocks_mapped (hF : Forest s.mem lo s.kmallocAddr dirs) (hlo : lo ≤ s.kmallocAddr)
    (hroot : root ∈ dirs) (hlim : (mapBlocks root bs s).kmallocAddr ≤ 2 ^ 52) :
    Mapped lo dirs s (mapBlocks root bs s) := by
  induction bs generalizing s with
  | nil => exact ⟨hF, hlo, fun _ _ => rfl⟩
  | cons b bs ih =>
    rw [mapBlocks] at hlim ⊢
    split_ifs at hlim ⊢
    · exact ⟨hF, hlo, fun _ _ => rfl⟩
    · have hb := map_mapped hF hlo hroot (isFlags_of_lt (by decide))
        (le_mapBlocks_kmallocAddr.trans hlim)
      exact hb.trans (ih hb.forest hb.bound hlim)

theorem sameGlobals_mapBlocks (h : s.mmuEnabled = false) :
    SameGlobals s (mapBlocks root bs s) := by
  induction bs generalizing s with
  | nil => exact .rfl
  | cons b bs ih =>
    rw [mapBlocks]
    split_ifs
    · exact .rfl
    · have hmap : SameGlobals s
          (map root b.physAddr b.physAddr b.numPages (mmuPresent ||| mmuRW) s) := sameGlobals_map h
      exact hmap.trans (ih (hmap.mmuEnabled.trans h))

theorem sameGlobals_allocateFrames : SameGlobals s (allocateFrames n i s) := by
  induction n generalizing i s with
  | zero => exact .rfl
  | succ n ih =>
    rw [allocateFrames_succ]
    split_ifs
    · exact .rfl
    · refine SameGlobals.trans ?_ ih
      rw [giveFrames]
      split_ifs <;> exact ⟨rfl, rfl, rfl⟩

theorem sameGlobals_reserveKernel :
    SameGlobals s (reserveKernel undef kernelStart kernelEnd s) := by
  rw [reserveKernel]
  generalize List.range ((kernelEnd - kernelStart + 0xFFF) / 0x1000) = l
  induction l generalizing s with
  | nil => exact .rfl
  | cons i l ih =>
    have hpage : SameGlobals s (reservePage undef (kernelStart + i * 0x1000) s) := ⟨rfl, rfl, rfl⟩
    exact hpage.trans ih

/-- Before the blocks are mapped, paging is not enabled, and the pointer starts at the largest block
    that is usable. -/
theorem beforeMapping_globals : (beforeMapping uninit memoryMap s).mmuEnabled = false ∧
    (beforeMapping uninit memoryMap s).kmallocStart = (largestUsable uninit memoryMap).1 := by
  have hframes : SameGlobals (described uninit memoryMap s)
      (allocateFrames 64 0 (described uninit memoryMap s)) := sameGlobals_allocateFrames
  rw [beforeMapping]
  exact ⟨hframes.mmuEnabled, hframes.kmallocStart⟩

/-- The blocks are mapped, and the pages of the kernel reserved. -/
theorem sameGlobals_reserved (h : s.mmuEnabled = false) :
    SameGlobals s (reserveKernel undef kernelStart kernelEnd (mapBlocks root bs s)) :=
  (sameGlobals_mapBlocks h).trans sameGlobals_reserveKernel

/-- So the invariant holds when `initializeMMU` returns. -/
theorem inv_initialized (hbounded : ∀ d ∈ memoryMap, d.Bounded)
    (hs : s' = initializeMMU undef uninit kernelStart kernelEnd memoryMap s)
    (hlim : s'.kmallocAddr ≤ 2 ^ 52) : (initialized s').Inv s'.kernelDirectory := by
  have hlim₁ : (mapBlocks (beforeMapping uninit memoryMap s).kernelDirectory
      (beforeMapping uninit memoryMap s).table (beforeMapping uninit memoryMap s)).kmallocAddr ≤
      2 ^ 52 := by
    rwa [hs, initializeMMU_kmallocAddr] at hlim
  have hready := directoryReady_beforeMapping hbounded (le_mapBlocks_kmallocAddr.trans hlim₁)
  have hdisabled := (@beforeMapping_globals s memoryMap uninit).1
  rw [initializeMMU_eq] at hs
  generalize beforeMapping uninit memoryMap s = s₁ at hs hready hdisabled hlim₁
  dsimp only at hs
  have hmapped := mapBlocks_mapped hready.refines.forest hready.refines.bound
    (List.mem_singleton_self _) hlim₁
  have hsame : SameTable s₁ (mapBlocks s₁.kernelDirectory s₁.table s₁) := sameTable_mapBlocks
  have hglobals : SameGlobals s₁ (reserveKernel undef kernelStart kernelEnd
      (mapBlocks s₁.kernelDirectory s₁.table s₁)) := sameGlobals_reserved hdisabled
  generalize mapBlocks s₁.kernelDirectory s₁.table s₁ = s₂ at hs hmapped hsame hglobals
  have htable : s₂.table = s₁.table := by rw [MMU.table, hsame.1, MMU.table]
  -- The bitmaps lie below the directory, so reserving pages does not change the tables.
  have habove : SameAbove s₁.kernelDirectory s₂ (reserveKernel undef kernelStart kernelEnd s₂) :=
    sameAbove_reserveKernel (htable ▸ hready.frames)
  generalize reserveKernel undef kernelStart kernelEnd s₂ = s₃ at hs habove hglobals
  have hkernel : s₃.kernelDirectory = s₁.kernelDirectory := habove.table.2.trans hsame.2
  subst hs
  refine ⟨?_, ?_, ?_, List.mem_singleton_self _, rfl, List.pairwise_singleton _ _⟩
  · show Forest s₃.mem s₃.kernelDirectory s₃.kmallocAddr [s₃.kernelDirectory]
    rw [hkernel, habove.kmallocAddr]
    exact hmapped.forest.congr (fun x hx _ => habove.mem x hx) le_rfl
  · show s₃.kernelDirectory ≤ s₃.kmallocAddr
    rw [hkernel, habove.kmallocAddr]
    exact hmapped.bound
  · exact hglobals.mmuEnabled.trans hdisabled

/-- In every run of the calls after `initializeMMU` in which every page that is mapped in the
    directory in use is absent from it, or mapped there already in the same way, no word of that
    directory that was present has changed since `cr3` was loaded. -/
theorem noStale_of_run (hbounded : ∀ d ∈ memoryMap, d.Bounded)
    (hs : s' = initializeMMU undef uninit kernelStart kernelEnd memoryMap s)
    (hlim : s'.kmallocAddr ≤ 2 ^ 52)
    (hr : Run (fun c call c' => LoadStep c call c' ∧ call.Quiet c) (initialized s') calls c) :
    c.NoStale :=
  (hr.invariant (Loaded.Inv s'.kernelDirectory) (inv_initialized hbounded hs hlim)
    fun _ _ _ h hstep => h.step hstep.1 hstep.2).noStale

/-! ### Pages that are mapped again -/

theorem fits_of_absent (h : entryAt m root (virtPath virt) = none) : Fits m root virt w :=
  fun t ht hpresent => by
    have hcons : virtPath virt = (virt >>> 12 &&& 0x1FF) :: (virtPath virt).drop 1 := rfl
    rw [hcons, entryAt_cons_of_tableAt ht, entry_eq_none_iff] at h
    exact absurd h hpresent

/-- The word of a page that does not fit is overwritten. -/
theorem not_unchanged_mapPage (hlt : phys ||| f < 2 ^ 64)
    (hnot : ¬Fits s.mem root virt (phys ||| f)) :
    ¬Unchanged s.mem (mapPage root virt phys f s).mem root := fun h => by
  refine hnot fun t ht hpresent => ?_
  have hword := h _ t _ (isPath_drop_virtPath le_rfl) (index_lt (virt >>> 12)) ht hpresent
  rw [← hword, mapPage_mem, descend_of_tableAt ht]
  exact Mem.get64_set64 hlt

/-- So the processor may go on with the old one. -/
theorem Loaded.Inv.not_noStale_mapPage (h : c.Inv lo) (hlt : phys ||| flags < 2 ^ 64)
    (hnot : ¬Fits c.s.mem c.s.cr3 virt (phys ||| flags)) :
    ¬(c.mapPage c.s.cr3 virt phys flags).NoStale := fun hstale => by
  have hsame : SameGlobals c.s (SmartOS.mapPage c.s.cr3 virt phys flags c.s) :=
    sameGlobals_mapPage h.notEnabled
  obtain ⟨since, hsince⟩ := List.head?_eq_some_iff.1 h.last
  rw [mapPage_eq_of_not h.notEnabled, NoStale, hsince] at hstale
  dsimp only at hstale
  rw [hsame.cr3] at hstale
  exact not_unchanged_mapPage hlt hnot
    ((List.pairwise_cons.1 hstale).1 c.s.mem List.mem_cons_self)

theorem not_fits {e : ℕ × ℕ} (h : entryAt m root (virtPath virt) = some e)
    (hne : w &&& mmuAddr ≠ e.1) : ¬Fits m root virt w := fun hfits => by
  have hcons : virtPath virt = (virt >>> 12 &&& 0x1FF) :: (virtPath virt).drop 1 := rfl
  rw [hcons, entryAt, Option.bind_eq_some_iff] at h
  obtain ⟨t, ht, he⟩ := h
  have hword := hfits t ht fun habs => by
    rw [entry_eq_none_iff.2 habs] at he
    cases he
  exact hne (hword ▸ entry_eq_some he)

/-- The state after `initializeMMU`, on 16 pages of memory from `0x100000` on. -/
def sixteenPagesMMU : MMU := initializeMMU (fun _ => 0) 0 0 0 sixteenPages oneBlock

theorem sixteenPagesMMU_mapPage_le : ((initialized sixteenPagesMMU).mapPage root virt phys
    flags).s.kmallocAddr ≤ 2 ^ 52 := by
  have hlim : sixteenPagesMMU.kmallocAddr ≤ 0x108000 := kmallocAddr_sixteenPages
  generalize sixteenPagesMMU = s at hlim
  have hpage : (mapPage root virt phys flags s).kmallocAddr ≤ s.kmallocAddr + 0x6000 :=
    mapPage_kmallocAddr_le
  exact hpage.trans (by omega)

theorem identity_sixteenPagesMMU :
    Identity (view sixteenPagesMMU.mem sixteenPagesMMU.kernelDirectory)
      {a | ∃ d ∈ sixteenPages, d.covers a} :=
  identity_initializeMMU valid_sixteenPages (by decide) rfl
    (kmallocAddr_sixteenPages.trans (by decide))

/-- A page that was not mapped before. -/
theorem noStale_of_run_mapPage :
    ((initialized sixteenPagesMMU).mapPage sixteenPagesMMU.kernelDirectory 0x200000 0x5000
      mmuPresent).NoStale := by
  have habsent : entryAt sixteenPagesMMU.mem sixteenPagesMMU.kernelDirectory (virtPath 0x200000) =
      none := by
    refine identity_sixteenPagesMMU.entryAt_absent (by decide) (by decide) ?_
    rintro ⟨d, hd, -, hlt⟩
    rw [sixteenPages, List.mem_singleton] at hd
    subst hd
    exact absurd hlt (by decide)
  exact noStale_of_run (fun d hd => (valid_sixteenPages d hd).bounded) rfl
    (kmallocAddr_sixteenPages.trans (by decide)) (.snoc .nil
      ⟨.mapPage (List.mem_singleton_self _) (isFlags_of_lt (by decide)) sixteenPagesMMU_mapPage_le,
        fun _ => fits_of_absent habsent⟩)

/-- A page of the kernel's directory that is mapped again. -/
theorem not_noStale : ¬∀ {calls : List LoadCall} {c : Loaded},
    Run LoadStep (initialized sixteenPagesMMU) calls c → c.NoStale := fun h => by
  have hlim : sixteenPagesMMU.kmallocAddr ≤ 0x108000 := kmallocAddr_sixteenPages
  have hinv : (initialized sixteenPagesMMU).Inv sixteenPagesMMU.kernelDirectory :=
    inv_initialized (fun d hd => (valid_sixteenPages d hd).bounded) rfl (hlim.trans (by decide))
  have hmapped : entryAt sixteenPagesMMU.mem sixteenPagesMMU.kernelDirectory (virtPath 0x102000) =
      some (0x102000, mmuPresent ||| mmuRW) :=
    (identity_sixteenPagesMMU.entryAt_page (by decide) (by decide)
      ⟨_, List.mem_singleton_self _, by decide, by decide⟩).1
  have hno : ¬((initialized sixteenPagesMMU).mapPage sixteenPagesMMU.kernelDirectory 0x102000 0x5000
      mmuPresent).NoStale :=
    hinv.not_noStale_mapPage (by decide) (not_fits hmapped (by decide))
  exact hno (h (.snoc .nil (.mapPage (List.mem_singleton_self _) (isFlags_of_lt (by decide))
    sixteenPagesMMU_mapPage_le)))

end SmartOS
