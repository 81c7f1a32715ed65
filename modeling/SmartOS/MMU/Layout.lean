import SmartOS.MMU.Reload
import SmartOS.Lib.Region

/-!
# Tables among other memory

The pages of the tables come from the same pointer as all other memory of the kernel: the
stacks and the heaps of the threads, and the framebuffers of the windows. What is stored
there must not change a translation.

* `TablesGrow`: a table that is reached was reached before, or lies in memory that has been
  handed out since;
* `Laid`: the directories are address spaces, and the regions that have been handed out
  otherwise lie apart from each other and from the tables. Handing out memory, mapping,
  cloning and storing keep it (`Laid.take`, `Laid.map`, `Laid.clone`, `Laid.store`).
-/

namespace SmartOS

open Prog

/-! ## Tables -/

/-- A table of one of the directories. -/
def IsTable (m : Mem) (dirs : List ℕ) (t : ℕ) : Prop :=
  ∃ r ∈ dirs, ∃ p, IsPath 3 p ∧ tableAt m r p = some t

/-- From `s` to `s'`, memory may be handed out, and tables put in it. -/
structure TablesGrow (s : MMU) (dirs : List ℕ) (s' : MMU) (dirs' : List ℕ) : Prop where
  le : s.kmallocAddr ≤ s'.kmallocAddr
  tables : ∀ t, IsTable s'.mem dirs' t → IsTable s.mem dirs t ∨ s.kmallocAddr ≤ t

variable {m m' : Mem} {a f i lo r root t virt phys count size x : ℕ} {p q : List ℕ}
  {dirs dirs' dirs'' : List ℕ} {A : ℕ → AddressSpace} {s s' s'' : MMU} {given : List Region}
  {g : Region}

theorem TablesGrow.refl (s : MMU) (dirs : List ℕ) : TablesGrow s dirs s dirs :=
  ⟨le_rfl, fun _ => .inl⟩

theorem TablesGrow.trans (h : TablesGrow s dirs s' dirs') (h' : TablesGrow s' dirs' s'' dirs'') :
    TablesGrow s dirs s'' dirs'' where
  le := h.le.trans h'.le
  tables t ht := (h'.tables t ht).elim (h.tables t) fun hle => .inr (h.le.trans hle)

/-- The same tables are reached in the same ways. -/
theorem TablesGrow.of_tableAt_eq (hle : s.kmallocAddr ≤ s'.kmallocAddr)
    (h : ∀ r ∈ dirs, ∀ p, IsPath 3 p → tableAt s'.mem r p = tableAt s.mem r p) :
    TablesGrow s dirs s' dirs where
  le := hle
  tables := fun _ ⟨r, hr, p, hp, ht⟩ => .inl ⟨r, hr, p, hp, h r hr p hp ▸ ht⟩

/-- One table on the way. -/
theorem nextTable_grows (h : Refines s lo dirs A) (hroot : root ∈ dirs) (hq : IsPath 3 (i :: q))
    (ht : tableAt s.mem root q = some t) (hf : f < 0x1000) (hodd : f % 2 = 1)
    (hlim : (nextTable t i f s).2.kmallocAddr ≤ 2 ^ 52) :
    TablesGrow s dirs (nextTable t i f s).2 dirs := by
  by_cases habs : s.mem.get64 (slot t i) &&& mmuPresent = 0
  · have hlim' : pageAlign s.kmallocAddr + 0x1000 ≤ 2 ^ 52 := by
      simpa only [nextTable, if_pos habs, kmallocA_kmallocAddr] using hlim
    have habove := (pageAlign_spec s.kmallocAddr).2.1
    rw [nextTable_of_absent habs (by omega)]
    refine ⟨by rw [hang_kmallocAddr]; omega, ?_⟩
    rintro u ⟨r, hr, p, hp, hu⟩
    rw [tableAt_hang h.forest hroot hq ht (entry_eq_none_iff.2 habs) (isFlags_of_lt hf) hodd hlim'
      hr hp] at hu
    -- The table is the new one, or was there.
    split_ifs at hu
    · cases hu
      exact .inr habove
    · exact .inl ⟨r, hr, p, hp, hu⟩
  · rw [nextTable_of_present habs]
    exact .refl s dirs

theorem descend_grows (h : Refines s lo dirs A) (hroot : root ∈ dirs) (hf : f < 0x1000)
    (hodd : f % 2 = 1) (hlim : (descend root virt f s).2.kmallocAddr ≤ 2 ^ 52) :
    TablesGrow s dirs (descend root virt f s).2 dirs := by
  have hlim₂ := le_nextTable_kmallocAddr.trans hlim
  have hlim₁ := le_nextTable_kmallocAddr.trans hlim₂
  have hpath {n : ℕ} (hn : 1 ≤ n) : IsPath 3 ((virtPath virt).drop n) := isPath_drop_virtPath hn
  obtain ⟨h₁, ht₁⟩ := nextTable_refines h hroot (q := []) (hpath (n := 3) (by omega)) rfl hf hodd
    hlim₁
  obtain ⟨h₂, ht₂⟩ := nextTable_refines h₁ hroot (hpath (n := 2) (by omega)) ht₁ hf hodd hlim₂
  have hg₁ := nextTable_grows h hroot (q := []) (hpath (n := 3) (by omega)) rfl hf hodd hlim₁
  have hg₂ := nextTable_grows h₁ hroot (hpath (n := 2) (by omega)) ht₁ hf hodd hlim₂
  exact (hg₁.trans hg₂).trans (nextTable_grows h₂ hroot (hpath le_rfl) ht₂ hf hodd hlim)

theorem mapPage_grows (h : Refines s lo dirs A) (hroot : root ∈ dirs) (hf : f < 0x1000)
    (hodd : f % 2 = 1) (hlim : (mapPage root virt phys f s).kmallocAddr ≤ 2 ^ 52) :
    TablesGrow s dirs (mapPage root virt phys f s) dirs := by
  rw [mapPage_kmallocAddr] at hlim
  obtain ⟨hR, ht⟩ := descend_refines h hroot hf hodd hlim
  refine (descend_grows h hroot hf hodd hlim).trans (.of_tableAt_eq ?_ fun r hr p hp => ?_)
  · rw [mapPage_kmallocAddr]
  · -- The word of the page is in a lowest table.
    rw [mapPage_mem]
    exact hR.forest.tableAt_set64_leaf hroot (isPath_drop_virtPath le_rfl) (index_lt (virt >>> 12))
      ht rfl hr hp

theorem map_grows (h : Refines s lo dirs A) (hroot : root ∈ dirs) (hf : f < 0x1000)
    (hodd : f % 2 = 1) (hphys : phys % 0x1000 = 0)
    (hphys' : ∀ i < count, phys + i * 0x1000 < 2 ^ 52)
    (hlim : (map root virt phys count f s).kmallocAddr ≤ 2 ^ 52) :
    TablesGrow s dirs (map root virt phys count f s) dirs := by
  induction count with
  | zero => exact .refl s dirs
  | succ n ih =>
    have hphys'' : ∀ i < n, phys + i * 0x1000 < 2 ^ 52 := fun i hi => hphys' i (by omega)
    rw [map_succ] at hlim ⊢
    have hlim' := le_mapPage_kmallocAddr.trans hlim
    exact (ih hphys'' hlim').trans
      (mapPage_grows (map_refines h hroot hf hodd hphys hphys'' hlim') hroot hf hodd hlim)

theorem clone_grows (h : Refines s lo dirs A) (hroot : root ∈ dirs)
    (hlim : (clone root s).2.kmallocAddr ≤ 2 ^ 52) :
    TablesGrow s dirs (clone root s).2 ((clone root s).1 :: dirs) := by
  have hpa := pageAlign_spec s.kmallocAddr
  have hframe := clone_frame h.forest hroot hlim
  obtain ⟨hnew, hC, hk⟩ := clone_cloned h.forest hroot hlim
  have hk' : (pageTaken s).kmallocAddr = pageAlign s.kmallocAddr + 0x1000 := rfl
  rw [hnew]
  refine ⟨by omega, ?_⟩
  rintro t ⟨r, hr, p, hp, ht⟩
  by_cases hrnew : r = pageAlign s.kmallocAddr
  · subst hrnew
    right
    by_cases hnil : p = []
    · subst hnil
      cases ht
      exact hpa.2.1
    · have := (hC.copy.page hp hnil ht).2.1
      omega
  · have hr' := (List.mem_cons.1 hr).resolve_left hrnew
    exact .inl ⟨r, hr', p, hp, h.forest.tableAt_congr (fun x _ hx => hframe x hx) hr' hp ▸ ht⟩

/-! ## The other globals -/

/-- Only the memory and the pointer change. -/
def OnlyMemory (s s' : MMU) : Prop := ∃ m k, s' = { s with mem := m, kmallocAddr := k }

theorem OnlyMemory.refl (s : MMU) : OnlyMemory s s := ⟨s.mem, s.kmallocAddr, rfl⟩

theorem OnlyMemory.trans (h : OnlyMemory s s') (h' : OnlyMemory s' s'') : OnlyMemory s s'' := by
  obtain ⟨m, k, rfl⟩ := h
  obtain ⟨m', k', rfl⟩ := h'
  exact ⟨m', k', rfl⟩

theorem onlyMemory_nextTable : OnlyMemory s (nextTable t i f s).2 := by
  simp only [nextTable]
  split_ifs
  · exact ⟨_, _, rfl⟩
  · exact .refl s

/-- A directory is not loaded again as long as `mmuEnabled` is not set. -/
theorem onlyMemory_mapPage (h : s.mmuEnabled = false) :
    OnlyMemory s (mapPage root virt phys f s) := by
  have hdescend : OnlyMemory s (descend root virt f s).2 :=
    onlyMemory_nextTable.trans (onlyMemory_nextTable.trans onlyMemory_nextTable)
  rw [mapPage_eq]
  generalize descend root virt f s = c at hdescend
  obtain ⟨t, s'⟩ := c
  obtain ⟨m, k, rfl⟩ := hdescend
  dsimp only
  rw [if_neg (by simp [h])]
  exact ⟨_, _, rfl⟩

theorem onlyMemory_map (h : s.mmuEnabled = false) :
    OnlyMemory s (map root virt phys count f s) := by
  induction count with
  | zero => exact .refl s
  | succ n ih =>
    rw [map_succ]
    refine ih.trans (onlyMemory_mapPage ?_)
    obtain ⟨m, k, heq⟩ := ih
    rw [heq]
    exact h

theorem onlyMemory_cloneTable {level old new : ℕ} :
    OnlyMemory s (cloneTable level old new s) := by
  induction level generalizing old new s with
  | zero =>
    rw [cloneTable_zero]
    exact ⟨_, _, rfl⟩
  | succ level ih =>
    rw [cloneTable_succ]
    generalize 512 = n
    induction n with
    | zero => exact .refl s
    | succ n ihn =>
      rw [cloneUpTo_succ]
      refine ihn.trans ?_
      by_cases habs : (cloneUpTo level old new n s).mem.get64 (slot old n) &&& mmuPresent = 0
      · rw [cloneEntry_of_absent habs]
        exact ⟨_, _, rfl⟩
      · rw [cloneEntry_of_present habs]
        refine OnlyMemory.trans ?_ ih
        exact ⟨_, _, rfl⟩

theorem onlyMemory_clone : OnlyMemory s (clone root s).2 := by
  have htake : OnlyMemory s (kmallocA 0x1000 s).2 := ⟨s.mem, _, rfl⟩
  rw [clone_snd]
  exact htake.trans onlyMemory_cloneTable

/-! ## Regions -/

/-- The directories `dirs`, whose tables lie above `lo`, are the address spaces `A`; the regions
    `given`, which have been handed out, lie apart from each other and from the tables. -/
structure Laid (s : MMU) (lo : ℕ) (dirs : List ℕ) (A : ℕ → AddressSpace) (given : List Region) :
    Prop where
  refines : Refines s lo dirs A
  within : ∀ g ∈ given, lo ≤ g.1 ∧ g.1 + g.2 ≤ s.kmallocAddr
  apart : given.Pairwise Region.Apart
  tables : ∀ g ∈ given, ∀ t, IsTable s.mem dirs t → Region.Apart g (t, 0x1000)

/-- What has been handed out since, from `s` to `s'`. -/
def handedOut (s s' : MMU) : Region := (s.kmallocAddr, s'.kmallocAddr - s.kmallocAddr)

/-- Nothing changes in the memory that has been handed out. -/
structure Extends (s s' : MMU) : Prop where
  le : s.kmallocAddr ≤ s'.kmallocAddr
  mem : ∀ x < s.kmallocAddr, s'.mem x = s.mem x

theorem Extends.trans (h : Extends s s') (h' : Extends s' s'') : Extends s s'' where
  le := h.le.trans h'.le
  mem x hx := (h'.mem x (hx.trans_le h.le)).trans (h.mem x hx)

theorem Refines.extend (h : Refines s lo dirs A) (hs : Extends s s') : Refines s' lo dirs A where
  forest := h.forest.congr (fun x _ hx => hs.mem x hx) hs.le
  bound := h.bound.trans hs.le
  view_eq r hr := (view_congr fun _ _ hp hj =>
    h.forest.entryAt_congr (fun x _ hx => hs.mem x hx) hr hp hj).trans (h.view_eq r hr)

/-- A table lies below the pointer. -/
theorem Refines.isTable_lt (h : Refines s lo dirs A) (ht : IsTable s.mem dirs t) :
    lo ≤ t ∧ t + 0x1000 ≤ s.kmallocAddr := by
  obtain ⟨r, hr, p, hp, ht⟩ := ht
  exact (h.forest.page hr hp ht).2

theorem Laid.of_refines (h : Refines s lo dirs A) : Laid s lo dirs A [] :=
  ⟨h, nofun, .nil, nofun⟩

/-- More tables in memory that has been handed out since. -/
theorem Laid.grow {A' : ℕ → AddressSpace} (h : Laid s lo dirs A given)
    (hR : Refines s' lo dirs' A') (hg : TablesGrow s dirs s' dirs') :
    Laid s' lo dirs' A' given where
  refines := hR
  within g hgiven := ⟨(h.within g hgiven).1, (h.within g hgiven).2.trans hg.le⟩
  apart := h.apart
  tables g hgiven t ht := (hg.tables t ht).elim (h.tables g hgiven t) fun hle =>
    .inl ((h.within g hgiven).2.trans hle)

/-- One more region. -/
theorem Laid.take (h : Laid s lo dirs A given) (hs : Extends s s') :
    Laid s' lo dirs A (handedOut s s' :: given) := by
  have hgrow : TablesGrow s dirs s' dirs := .of_tableAt_eq hs.le fun r hr p hp =>
    h.refines.forest.tableAt_congr (fun x _ hx => hs.mem x hx) hr hp
  have h' := h.grow (h.refines.extend hs) hgrow
  have hbound := h.refines.bound
  have hle := hs.le
  refine ⟨h'.refines, ?_, List.pairwise_cons.2 ⟨fun g hg => ?_, h.apart⟩, ?_⟩
  · refine List.forall_mem_cons.2 ⟨?_, h'.within⟩
    simp only [handedOut]
    omega
  · exact .inr (h.within g hg).2
  · refine List.forall_mem_cons.2 ⟨fun t ht => ?_, h'.tables⟩
    -- All tables were there before, below the region.
    obtain ⟨r, hr, p, hp, ht⟩ := ht
    rw [h.refines.forest.tableAt_congr (fun x _ hx => hs.mem x hx) hr hp] at ht
    exact .inr (h.refines.isTable_lt ⟨r, hr, p, hp, ht⟩).2

theorem Laid.map (h : Laid s lo dirs A given) (hroot : root ∈ dirs) (hf : f < 0x1000)
    (hodd : f % 2 = 1) (hphys : phys % 0x1000 = 0)
    (hphys' : ∀ i < count, phys + i * 0x1000 < 2 ^ 52)
    (hlim : (map root virt phys count f s).kmallocAddr ≤ 2 ^ 52) :
    Laid (SmartOS.map root virt phys count f s) lo dirs
      (Function.update A root ((A root).map virt phys count f)) given :=
  h.grow (map_refines h.refines hroot hf hodd hphys hphys' hlim)
    (map_grows h.refines hroot hf hodd hphys hphys' hlim)

/-- A block of memory mapped to itself. -/
theorem Laid.mapBlock {b : MemoryBlock} (h : Laid s lo dirs A given) (hroot : root ∈ dirs)
    (hb : b.Valid) (hlim : (SmartOS.map root b.physAddr b.physAddr b.numPages
      (mmuPresent ||| mmuRW) s).kmallocAddr ≤ 2 ^ 52) :
    Laid (SmartOS.map root b.physAddr b.physAddr b.numPages (mmuPresent ||| mmuRW) s) lo dirs
      (Function.update A root ((A root).mapBlock b)) given :=
  h.map hroot (by decide) (by decide) hb.align (fun _ hi => (hb.lt hi).trans (by decide)) hlim

theorem Laid.clone (h : Laid s lo dirs A given) (hroot : root ∈ dirs)
    (hlim : (clone root s).2.kmallocAddr ≤ 2 ^ 52) :
    Laid (SmartOS.clone root s).2 lo ((SmartOS.clone root s).1 :: dirs)
      (Function.update A (SmartOS.clone root s).1 (A root).clone) given :=
  h.grow (clone_refines h.refines hroot hlim).2 (clone_grows h.refines hroot hlim)

/-- The regions may be written, and so may all memory that the pointer has not passed. -/
def Writable (s : MMU) (lo : ℕ) (given : List Region) (x : ℕ) : Prop :=
  (∃ g ∈ given, g.Has x) ∨ x < lo ∨ s.kmallocAddr ≤ x

/-- What is stored in the regions does not concern the tables. -/
theorem Laid.store (h : Laid s lo dirs A given)
    (hm : ∀ x, ¬Writable s lo given x → m x = s.mem x) :
    Laid { s with mem := m } lo dirs A given := by
  have hword {q : List ℕ} {r t i : ℕ} (hr : r ∈ dirs) (hq : IsPath 3 q)
      (ht : tableAt s.mem r q = some t) (hi : i < 512) :
      m.get64 (slot t i) = s.mem.get64 (slot t i) := by
    have htable : IsTable s.mem dirs t := ⟨r, hr, q, hq, ht⟩
    have hpage := h.refines.isTable_lt htable
    refine Mem.get64_congr fun x hx hx' => hm x ?_
    obtain ⟨hxt, hxt'⟩ := mem_page_of_mem_slot hi hx hx'
    rintro (⟨g, hg, hhas⟩ | hx | hx)
    · exact (h.tables g hg t htable).not_has hhas ⟨hxt, hxt'⟩
    · omega
    · omega
  have htab {r : ℕ} (hr : r ∈ dirs) {p : List ℕ} (hp : IsPath 3 p) :
      tableAt m r p = tableAt s.mem r p :=
    tableAt_congr (fun _ _ hq ht _ hi => hword hr (hq.mono (by omega)) ht hi) hp
  refine h.grow ⟨h.refines.forest.of_tableAt_eq fun r hr p hp => htab hr hp, h.refines.bound,
    fun r hr => ?_⟩ (.of_tableAt_eq le_rfl fun r hr p hp => htab hr hp)
  exact (view_congr fun _ _ hp hj =>
    entryAt_congr (fun _ _ hq ht _ hi => hword hr hq ht hi) hp hj).trans (h.refines.view_eq r hr)

end SmartOS
