import SmartOS.MMU.Tables

/-!
# Directories as address spaces

What a page directory is for, without its tables: an `AddressSpace` gives the
page and the flags of every path of four indices, and the flags of the table at
every shorter path, wherever there is one. `mapPage` adds the tables that are
missing on the way to a page, with the flags of the page, and sets the page
(`AddressSpace.mapPage`).

`Refines s lo dirs A` says that the tables of the directories `dirs` are a
forest above `lo` and that each directory `r` is the address space `A r`
(`view`). The kernel's `mapPage` and `map` are those of the address space of
their directory, and leave those of the others alone (`mapPage_refines`,
`map_refines`), as long as the bump pointer stays below `2 ^ 52`: the address
field of a word holds no more.
-/

namespace SmartOS

open Prog

/-! ## Address spaces -/

/-- The page and flags at every path of four indices; at a shorter path, the flags of the table
    (the first component is `0`). -/
abbrev AddressSpace := List ℕ → Option (ℕ × ℕ)

namespace AddressSpace

/-- A table at `p` with the given flags, unless there is one. -/
def addTable (v : AddressSpace) (p : List ℕ) (flags : ℕ) : AddressSpace := fun p' =>
  if p' = p ∧ v p = none then some (0, flags) else v p'

/-- The page `page` at `p`, with the given flags. -/
def setPage (v : AddressSpace) (p : List ℕ) (page flags : ℕ) : AddressSpace := fun p' =>
  if p' = p then some (page, flags) else v p'

/-- The page at `p` set, after adding the tables missing on the way. -/
def mapPage (v : AddressSpace) (p : List ℕ) (page flags : ℕ) : AddressSpace :=
  (((v.addTable (p.drop 3) flags).addTable (p.drop 2) flags).addTable (p.drop 1) flags).setPage
    p page flags

end AddressSpace

/-- The path of a virtual address: its four indices, that of the page first. -/
def virtPath (virt : ℕ) : List ℕ :=
  [virt >>> 12 &&& 0x1FF, virt >>> 21 &&& 0x1FF, virt >>> 30 &&& 0x1FF, virt >>> 39 &&& 0x1FF]

variable {m m' : Mem} {f i j t u lo r root : ℕ} {p q : List ℕ} {dirs : List ℕ} {s : MMU}

theorem index_lt (n : ℕ) : n &&& 0x1FF < 512 := by
  have : n &&& 0x1FF = n % 2 ^ 9 := Nat.and_two_pow_sub_one_eq_mod n 9
  omega

theorem virtPath_lt {virt : ℕ} : ∀ i ∈ virtPath virt, i < 512 := by
  simp only [virtPath, List.mem_cons, List.not_mem_nil, or_false]
  rintro i (rfl | rfl | rfl | rfl) <;> exact index_lt _

/-- On the way to a page, a virtual address goes through tables. -/
theorem isPath_drop_virtPath {virt n : ℕ} (hn : 1 ≤ n) : IsPath 3 ((virtPath virt).drop n) :=
  ⟨by simp [virtPath]; omega, fun i hi => virtPath_lt i (List.mem_of_mem_drop hi)⟩

/-! ## What a directory is -/

/-- The address space of the directory `root`: where the tables lie is forgotten. -/
def view (m : Mem) (root : ℕ) : AddressSpace := fun p =>
  if IsPath 4 p then (entryAt m root p).map fun e => if p.length = 4 then e else (0, e.2)
  else none

@[simp]
theorem view_nil : view m root [] = none := by simp [view, entryAt]

theorem view_cons (hp : IsPath 3 p) (hj : j < 512) : view m root (j :: p) =
    (entryAt m root (j :: p)).map fun e => if (j :: p).length = 4 then e else (0, e.2) :=
  if_pos (isPath_cons.2 ⟨hj, hp⟩)

theorem view_of_not_isPath (hp : ¬IsPath 4 p) : view m root p = none := if_neg hp

theorem view_eq_none_iff (hp : IsPath 3 p) (hj : j < 512) :
    view m root (j :: p) = none ↔ entryAt m root (j :: p) = none := by
  rw [view_cons hp hj, Option.map_eq_none_iff]

/-- Address spaces agree when they agree on the words of the tables. -/
theorem eq_view_of_cons {v : AddressSpace} (hnone : ∀ p, ¬IsPath 4 p → v p = none)
    (hnil : v [] = none) (h : ∀ j p, IsPath 3 p → j < 512 → view m root (j :: p) = v (j :: p)) :
    view m root = v := by
  funext p
  by_cases hp : IsPath 4 p
  · cases p with
    | nil => rw [view_nil, hnil]
    | cons j p =>
      obtain ⟨hj, hp⟩ := isPath_cons.1 hp
      exact h j p hp hj
  · rw [view_of_not_isPath hp, hnone p hp]

theorem view_congr (h : ∀ j p, IsPath 3 p → j < 512 →
    entryAt m' root (j :: p) = entryAt m root (j :: p)) : view m' root = view m root :=
  eq_view_of_cons (fun _ => view_of_not_isPath) view_nil fun j p hp hj => by
    rw [view_cons hp hj, view_cons hp hj, h j p hp hj]

/-- The directories `dirs` of `s`, whose tables lie above `lo`, are the address spaces `A`. -/
structure Refines (s : MMU) (lo : ℕ) (dirs : List ℕ) (A : ℕ → AddressSpace) : Prop where
  forest : Forest s.mem lo s.kmallocAddr dirs
  bound : lo ≤ s.kmallocAddr
  view_eq : ∀ r ∈ dirs, view s.mem r = A r

/-- A directory of zeros is the empty address space. -/
theorem Refines.of_zero (hz : ∀ j < 512, s.mem.get64 (slot r j) = 0) (hr : r % 0x1000 = 0)
    (hlo : lo ≤ r) (hlim : r + 0x1000 ≤ s.kmallocAddr) : Refines s lo [r] fun _ _ => none where
  forest := .of_zero hz hr hlo hlim
  bound := by omega
  view_eq r' hr' := by
    rw [List.mem_singleton.1 hr']
    refine eq_view_of_cons (fun _ _ => rfl) rfl fun j p hp hj => ?_
    rw [view_eq_none_iff hp hj]
    exact entryAt_of_zero hz (isPath_cons.2 ⟨hj, hp⟩ : IsPath 4 (j :: p)).2

/-! ## The bump allocator -/

theorem pageAlign_spec (a : ℕ) :
    pageAlign a % 0x1000 = 0 ∧ a ≤ pageAlign a ∧ pageAlign a < a + 0x1000 := by
  rw [pageAlign, and_flags]
  split_ifs <;> omega

@[simp]
theorem kmallocA_kmallocAddr (n : ℕ) :
    (kmallocA n s).2.kmallocAddr = pageAlign s.kmallocAddr + n := rfl

theorem kmallocA_fst {n : ℕ} (h : (kmallocA n s).2.kmallocAddr < 2 ^ 64) :
    (kmallocA n s).1 = pageAlign s.kmallocAddr := by
  rw [kmallocA_kmallocAddr] at h
  exact wrap_of_lt (show pageAlign s.kmallocAddr < 2 ^ 64 by omega)

/-! ## A table on the way -/

/-- The word at `i` of the table at `t` gets a zeroed page. -/
def hang (t i f : ℕ) (s : MMU) : MMU :=
  { s with
    mem := (s.mem.fill (pageAlign s.kmallocAddr) 0x1000 0).set64 (slot t i)
      (pageAlign s.kmallocAddr ||| f)
    kmallocAddr := pageAlign s.kmallocAddr + 0x1000 }

theorem nextTable_of_present (h : s.mem.get64 (slot t i) &&& mmuPresent ≠ 0) :
    nextTable t i f s = (s.mem.get64 (slot t i) &&& mmuAddr, s) := by
  simp only [nextTable, if_neg h]

theorem nextTable_of_absent (h : s.mem.get64 (slot t i) &&& mmuPresent = 0)
    (hlim : pageAlign s.kmallocAddr + 0x1000 < 2 ^ 64) :
    nextTable t i f s = ((hang t i f s).mem.get64 (slot t i) &&& mmuAddr, hang t i f s) := by
  have hfst := kmallocA_fst (s := s) (n := 0x1000) (by rw [kmallocA_kmallocAddr]; exact hlim)
  simp only [nextTable, if_pos h]
  rw [hfst, memset_eq_fill]
  rfl

theorem le_nextTable_kmallocAddr : s.kmallocAddr ≤ (nextTable t i f s).2.kmallocAddr := by
  by_cases h : s.mem.get64 (slot t i) &&& mmuPresent = 0
  · simp only [nextTable, if_pos h, kmallocA_kmallocAddr]
    exact (pageAlign_spec s.kmallocAddr).2.1.trans (Nat.le_add_right _ _)
  · rw [nextTable_of_present h]

/-- A table takes a page and what is lost to its alignment. -/
theorem nextTable_kmallocAddr_le : (nextTable t i f s).2.kmallocAddr ≤ s.kmallocAddr + 0x2000 := by
  have := (pageAlign_spec s.kmallocAddr).2.2
  by_cases h : s.mem.get64 (slot t i) &&& mmuPresent = 0
  · simp only [nextTable, if_pos h, kmallocA_kmallocAddr]
    omega
  · rw [nextTable_of_present h]
    exact Nat.le_add_right _ _

theorem entry_eq_some {e : ℕ × ℕ} (h : entry m t i = some e) :
    m.get64 (slot t i) &&& mmuAddr = e.1 := by
  simp only [entry] at h
  split_ifs at h
  cases h
  rfl

theorem AddressSpace.addTable_of_some {v : AddressSpace} (h : v p ≠ none) :
    v.addTable p f = v := by
  funext p'
  simp [AddressSpace.addTable, h]

@[simp]
theorem hang_kmallocAddr : (hang t i f s).kmallocAddr = pageAlign s.kmallocAddr + 0x1000 := rfl

theorem hang_mem : (hang t i f s).mem =
    (s.mem.fill (pageAlign s.kmallocAddr) 0x1000 0).set64 (slot t i)
      (pageAlign s.kmallocAddr ||| f) := rfl

section

variable (hF : Forest s.mem lo s.kmallocAddr dirs) (hroot : root ∈ dirs) (hq : IsPath 3 (i :: q))
  (ht : tableAt s.mem root q = some t) (habs : entry s.mem t i = none) (hf : IsFlags f)
  (hodd : f % 2 = 1) (hlim : pageAlign s.kmallocAddr + 0x1000 ≤ 2 ^ 52)

/-- Filling the next page changes nothing below the bump pointer, where the tables are. -/
theorem fill_below (x : ℕ) (_ : lo ≤ x) (hx : x < s.kmallocAddr) :
    s.mem.fill (pageAlign s.kmallocAddr) 0x1000 0 x = s.mem x :=
  Mem.fill_of_not_mem (by have := pageAlign_spec s.kmallocAddr; omega)

include hF hroot hq ht habs hf hodd hlim

theorem link_fill : Forest.Link (s.mem.fill (pageAlign s.kmallocAddr) 0x1000 0) t i
    (pageAlign s.kmallocAddr) f s.kmallocAddr (pageAlign s.kmallocAddr + 0x1000) where
  absent := (entry_congr (hF.get64_congr fill_below hroot ((isPath_cons.1 hq).2.mono (by omega)) ht
    (isPath_cons.1 hq).1)).trans habs
  zero j hj := Mem.get64_fill (by simp only [slot]; omega) (by simp only [slot]; omega)
  above := (pageAlign_spec s.kmallocAddr).2.1
  align := (pageAlign_spec s.kmallocAddr).1
  below := le_rfl
  addr := by omega
  flags := hf
  present := hodd

theorem tableAt_hang (hr : r ∈ dirs) (hp : IsPath 3 p) : tableAt (hang t i f s).mem r p =
    if r = root ∧ p = i :: q then some (pageAlign s.kmallocAddr) else tableAt s.mem r p := by
  obtain ⟨hi, hq₂⟩ := isPath_cons.1 hq
  have hq' := hq₂.mono (show 2 ≤ 3 by omega)
  rw [hang_mem, (hF.congr fill_below le_rfl).tableAt_link hroot hq' hi
    ((hF.tableAt_congr fill_below hroot hq').trans ht)
    (link_fill hF hroot hq ht habs hf hodd hlim) hr hp, hF.tableAt_congr fill_below hr hp]

theorem entryAt_hang (hr : r ∈ dirs) (hp : IsPath 3 p) (hj : j < 512) :
    entryAt (hang t i f s).mem r (j :: p) =
      if r = root ∧ j :: p = i :: q then some (pageAlign s.kmallocAddr, f &&& 0xFFF)
      else entryAt s.mem r (j :: p) := by
  obtain ⟨hi, hq₂⟩ := isPath_cons.1 hq
  have hq' := hq₂.mono (show 2 ≤ 3 by omega)
  rw [hang_mem, (hF.congr fill_below le_rfl).entryAt_link hr hroot hp hq' hi hj
    ((hF.tableAt_congr fill_below hroot hq').trans ht)
    (link_fill hF hroot hq ht habs hf hodd hlim), hF.entryAt_congr fill_below hr hp hj]

theorem forest_hang (hlo : lo ≤ s.kmallocAddr) :
    Forest (hang t i f s).mem lo (hang t i f s).kmallocAddr dirs := by
  obtain ⟨hi, hq₂⟩ := isPath_cons.1 hq
  have hq' := hq₂.mono (show 2 ≤ 3 by omega)
  have habove := (pageAlign_spec s.kmallocAddr).2.1
  exact (hF.congr fill_below le_rfl).link hroot hq' hi
    ((hF.tableAt_congr fill_below hroot hq').trans ht)
    (link_fill hF hroot hq ht habs hf hodd hlim) (by rw [hang_kmallocAddr]; omega) hlo

/-- `hang` adds a table to the address space of its directory, and to no other. -/
theorem view_hang (hr : r ∈ dirs) : view (hang t i f s).mem r =
    if r = root then (view s.mem r).addTable (i :: q) (f &&& 0xFFF) else view s.mem r := by
  obtain ⟨hi, hq₂⟩ := isPath_cons.1 hq
  have hq' := hq₂.mono (show 2 ≤ 3 by omega)
  have hentry {j : ℕ} {p : List ℕ} (hp : IsPath 3 p) (hj : j < 512) :=
    entryAt_hang hF hroot hq ht habs hf hodd hlim hr hp hj
  by_cases hrr : r = root
  · subst hrr
    have hnone : view s.mem r (i :: q) = none := by
      rw [view_eq_none_iff hq' hi, entryAt_cons_of_tableAt ht, habs]
    rw [if_pos rfl]
    refine eq_view_of_cons (fun p hp => ?_) (by simp [AddressSpace.addTable]) fun j p hp hj => ?_
    · rw [AddressSpace.addTable, if_neg, view_of_not_isPath hp]
      rintro ⟨rfl, _⟩
      exact hp (isPath_cons.2 ⟨hi, hq'⟩)
    · rw [view_cons hp hj, hentry hp hj, AddressSpace.addTable, view_cons hp hj]
      by_cases hjp : j :: p = i :: q
      · rw [if_pos ⟨rfl, hjp⟩, if_pos ⟨hjp, hnone⟩, Option.map_some, hjp, if_neg]
        have := hq.1
        omega
      · rw [if_neg fun h => hjp h.2, if_neg fun h => hjp h.1]
  · rw [if_neg hrr]
    exact view_congr fun j p hp hj => (hentry hp hj).trans (if_neg fun h => hrr h.1)

end

variable {A : ℕ → AddressSpace}

/-- At each upper level, `mapPage` adds the table on the way if it is missing, and goes on from
    it. -/
theorem nextTable_refines (h : Refines s lo dirs A) (hroot : root ∈ dirs) (hq : IsPath 3 (i :: q))
    (ht : tableAt s.mem root q = some t) (hf : f < 0x1000) (hp : f % 2 = 1)
    (hlim : (nextTable t i f s).2.kmallocAddr ≤ 2 ^ 52) :
    Refines (nextTable t i f s).2 lo dirs
        (Function.update A root ((A root).addTable (i :: q) f)) ∧
      tableAt (nextTable t i f s).2.mem root (i :: q) = some (nextTable t i f s).1 := by
  obtain ⟨hi, hq₂⟩ := isPath_cons.1 hq
  have hq' := hq₂.mono (show 2 ≤ 3 by omega)
  by_cases habs : s.mem.get64 (slot t i) &&& mmuPresent = 0
  · -- The table is a new page, filled with zeros and hung on the word.
    have hlim' : pageAlign s.kmallocAddr + 0x1000 ≤ 2 ^ 52 := by
      simpa only [nextTable, if_pos habs, kmallocA_kmallocAddr] using hlim
    have hnone := entry_eq_none_iff.2 habs
    have hf' := isFlags_of_lt hf
    rw [nextTable_of_absent habs (by omega)]
    refine ⟨⟨forest_hang h.forest hroot hq ht hnone hf' hp hlim' h.bound, ?_, fun r hr => ?_⟩, ?_⟩
    · have := h.bound
      have := (pageAlign_spec s.kmallocAddr).2.1
      rw [hang_kmallocAddr]
      omega
    · rw [view_hang h.forest hroot hq ht hnone hf' hp hlim' hr, and_flags_of_lt hf]
      by_cases hrr : r = root
      · rw [if_pos hrr, hrr, Function.update_self, h.view_eq root hroot]
      · rw [if_neg hrr, Function.update_of_ne hrr, h.view_eq r hr]
    · have hself := entry_set64_self (m := s.mem.fill (pageAlign s.kmallocAddr) 0x1000 0) (t := t)
        (i := i) (pageAlign_spec s.kmallocAddr).1 (by omega) hf hp
      rw [tableAt_hang h.forest hroot hq ht hnone hf' hp hlim' hroot hq, if_pos ⟨rfl, rfl⟩]
      exact congrArg some (entry_eq_some hself).symm
  · -- The table is there, and nothing is added.
    have hsome : entry s.mem t i =
        some (s.mem.get64 (slot t i) &&& mmuAddr, s.mem.get64 (slot t i) &&& 0xFFF) := by
      simp only [entry, if_neg habs]
    have hentry : entryAt s.mem root (i :: q) = entry s.mem t i := entryAt_cons_of_tableAt ht
    rw [nextTable_of_present habs]
    refine ⟨?_, by rw [tableAt_cons, hentry, hsome, Option.map_some]⟩
    have hne : A root (i :: q) ≠ none := by
      rw [← h.view_eq root hroot, ne_eq, view_eq_none_iff hq' hi, hentry, hsome]
      simp
    rwa [AddressSpace.addTable_of_some hne, Function.update_eq_self]

/-! ## A page -/

/-- Writing a word of a lowest table refines setting a page. -/
theorem setPage_refines {phys : ℕ} (h : Refines s lo dirs A) (hroot : root ∈ dirs) (hq : IsPath 3 q)
    (hlen : q.length = 3) (hi : i < 512) (ht : tableAt s.mem root q = some t)
    (hphys : phys % 0x1000 = 0) (hphys' : phys < 2 ^ 52) (hf : f < 0x1000) (hodd : f % 2 = 1) :
    Refines { s with mem := s.mem.set64 (slot t i) (phys ||| f) } lo dirs
      (Function.update A root ((A root).setPage (i :: q) phys f)) := by
  have htab {r : ℕ} (hr : r ∈ dirs) {p : List ℕ} (hp : IsPath 3 p) :
      tableAt (s.mem.set64 (slot t i) (phys ||| f)) r p = tableAt s.mem r p :=
    h.forest.tableAt_set64_leaf hroot hq hi ht hlen hr hp
  have hentry {r : ℕ} (hr : r ∈ dirs) {j : ℕ} {p : List ℕ} (hp : IsPath 3 p) (hj : j < 512) :=
    (h.forest.entryAt_set64 hr hroot hp hq hi hj ht (htab hr hp)).trans
      (by rw [entry_set64_self hphys hphys' hf hodd])
  refine ⟨⟨fun hr hp hu => ?_, fun hr hr' hp hp' hu hu' => ?_⟩, h.bound, fun r hr => ?_⟩
  · exact h.forest.page hr hp (htab hr hp ▸ hu)
  · exact h.forest.inj hr hr' hp hp' (htab hr hp ▸ hu) (htab hr' hp' ▸ hu')
  · by_cases hrr : r = root
    · subst hrr
      rw [Function.update_self, ← h.view_eq r hr]
      refine eq_view_of_cons (fun p hp => ?_) (by simp [AddressSpace.setPage]) fun j p hp hj => ?_
      · rw [AddressSpace.setPage, if_neg, view_of_not_isPath hp]
        rintro rfl
        exact hp (isPath_cons.2 ⟨hi, hq⟩)
      · rw [view_cons hp hj, hentry hr hp hj, AddressSpace.setPage, view_cons hp hj]
        by_cases hjp : j :: p = i :: q
        · rw [if_pos ⟨rfl, hjp⟩, if_pos hjp, Option.map_some, hjp, if_pos (by simp [hlen])]
        · rw [if_neg fun h => hjp h.2, if_neg hjp]
    · rw [Function.update_of_ne hrr, ← h.view_eq r hr]
      exact view_congr fun j p hp hj => (hentry hr hp hj).trans (if_neg fun h => hrr h.1)

/-! ## `mapPage` and `map` -/

variable {this virt phys count : ℕ}

/-- The tables that `mapPage` goes through, before it writes the word of the page. -/
def descend (this virt f : ℕ) (s : MMU) : ℕ × MMU :=
  let pdpt := nextTable this (virt >>> 39 &&& 0x1FF) f s
  let pd := nextTable pdpt.1 (virt >>> 30 &&& 0x1FF) f pdpt.2
  nextTable pd.1 (virt >>> 21 &&& 0x1FF) f pd.2

/-- `mapPage` writes the word of the page in the table it has come to; reloading the directory in
    use changes no table. -/
theorem mapPage_eq : mapPage this virt phys f s =
    let (pt, s') := descend this virt f s
    let s' := { s' with mem := s'.mem.set64 (slot pt (virt >>> 12 &&& 0x1FF)) (phys ||| f) }
    if s'.mmuEnabled && s'.currentDirectory == this then switchDirectory this s' else s' := rfl

theorem mapPage_mem : (mapPage this virt phys f s).mem =
    (descend this virt f s).2.mem.set64
      (slot (descend this virt f s).1 (virt >>> 12 &&& 0x1FF)) (phys ||| f) := by
  rw [mapPage_eq]
  dsimp only
  split_ifs <;> rfl

theorem mapPage_kmallocAddr :
    (mapPage this virt phys f s).kmallocAddr = (descend this virt f s).2.kmallocAddr := by
  rw [mapPage_eq]
  dsimp only
  split_ifs <;> rfl

theorem le_descend_kmallocAddr : s.kmallocAddr ≤ (descend this virt f s).2.kmallocAddr :=
  le_nextTable_kmallocAddr.trans (le_nextTable_kmallocAddr.trans le_nextTable_kmallocAddr)

theorem le_mapPage_kmallocAddr : s.kmallocAddr ≤ (mapPage this virt phys f s).kmallocAddr :=
  le_descend_kmallocAddr.trans_eq mapPage_kmallocAddr.symm

theorem mapPage_kmallocAddr_le :
    (mapPage this virt phys f s).kmallocAddr ≤ s.kmallocAddr + 0x6000 := by
  rw [mapPage_kmallocAddr, descend]
  refine nextTable_kmallocAddr_le.trans ?_
  have h₁ := nextTable_kmallocAddr_le (t := this) (i := virt >>> 39 &&& 0x1FF) (f := f) (s := s)
  generalize nextTable this (virt >>> 39 &&& 0x1FF) f s = pdpt at h₁ ⊢
  have h₂ := nextTable_kmallocAddr_le (t := pdpt.1) (i := virt >>> 30 &&& 0x1FF) (f := f)
    (s := pdpt.2)
  omega

theorem Refines.of_eq {s' : MMU} (h : Refines s lo dirs A) (hm : s'.mem = s.mem)
    (hk : s'.kmallocAddr = s.kmallocAddr) : Refines s' lo dirs A :=
  ⟨by rw [hm, hk]; exact h.forest, by rw [hk]; exact h.bound, by rw [hm]; exact h.view_eq⟩

/-- Reaching the table of a page refines adding the tables on the way. -/
theorem descend_refines (h : Refines s lo dirs A) (hthis : this ∈ dirs) (hf : f < 0x1000)
    (hodd : f % 2 = 1) (hlim : (descend this virt f s).2.kmallocAddr ≤ 2 ^ 52) :
    Refines (descend this virt f s).2 lo dirs (Function.update A this
        ((((A this).addTable ((virtPath virt).drop 3) f).addTable
          ((virtPath virt).drop 2) f).addTable ((virtPath virt).drop 1) f)) ∧
      tableAt (descend this virt f s).2.mem this ((virtPath virt).drop 1) =
        some (descend this virt f s).1 := by
  -- The bump pointer only goes up, so it is within its bound on the way.
  have hlim₂ := le_nextTable_kmallocAddr.trans hlim
  obtain ⟨h₁, ht₁⟩ := nextTable_refines h hthis (q := [])
    (isPath_drop_virtPath (n := 3) (by omega)) rfl hf hodd (le_nextTable_kmallocAddr.trans hlim₂)
  obtain ⟨h₂, ht₂⟩ := nextTable_refines h₁ hthis
    (isPath_drop_virtPath (n := 2) (by omega)) ht₁ hf hodd hlim₂
  obtain ⟨h₃, ht₃⟩ := nextTable_refines h₂ hthis
    (isPath_drop_virtPath (n := 1) le_rfl) ht₂ hf hodd hlim
  simp only [Function.update_idem, Function.update_self] at h₃
  exact ⟨h₃, ht₃⟩

/-- `mapPage` is that of the address space of its directory, and leaves the others alone. -/
theorem mapPage_refines (h : Refines s lo dirs A) (hthis : this ∈ dirs) (hf : f < 0x1000)
    (hodd : f % 2 = 1) (hphys : phys % 0x1000 = 0) (hphys' : phys < 2 ^ 52)
    (hlim : (mapPage this virt phys f s).kmallocAddr ≤ 2 ^ 52) :
    Refines (mapPage this virt phys f s) lo dirs
      (Function.update A this ((A this).mapPage (virtPath virt) phys f)) := by
  obtain ⟨hR, ht⟩ := descend_refines h hthis hf hodd (mapPage_kmallocAddr ▸ hlim)
  have hS := setPage_refines hR hthis (isPath_drop_virtPath le_rfl) rfl (index_lt (virt >>> 12)) ht
    hphys hphys' hf hodd
  simp only [Function.update_idem, Function.update_self] at hS
  exact hS.of_eq mapPage_mem mapPage_kmallocAddr

/-- `count` consecutive pages, one after the other. -/
def AddressSpace.map (v : AddressSpace) (virt phys count flags : ℕ) : AddressSpace :=
  (List.range count).foldl (fun v i =>
    v.mapPage (virtPath (wrap (virt + i * 0x1000))) (wrap (phys + i * 0x1000)) flags) v

theorem map_succ : map this virt phys (count + 1) f s =
    mapPage this (wrap (virt + count * 0x1000)) (wrap (phys + count * 0x1000)) f
      (map this virt phys count f s) := by
  simp only [map, List.range_succ, List.foldl_append, List.foldl_cons, List.foldl_nil]

@[simp]
theorem AddressSpace.map_zero (v : AddressSpace) : v.map virt phys 0 f = v := by
  rw [AddressSpace.map, List.range_zero, List.foldl_nil]

theorem AddressSpace.map_succ (v : AddressSpace) : v.map virt phys (count + 1) f =
    (v.map virt phys count f).mapPage (virtPath (wrap (virt + count * 0x1000)))
      (wrap (phys + count * 0x1000)) f := by
  simp only [AddressSpace.map, List.range_succ, List.foldl_append, List.foldl_cons, List.foldl_nil]

theorem le_map_kmallocAddr : s.kmallocAddr ≤ (map this virt phys count f s).kmallocAddr := by
  induction count with
  | zero => exact le_rfl
  | succ n ih =>
    rw [map_succ]
    exact ih.trans le_mapPage_kmallocAddr

/-- `map` is that of the address space of its directory, and leaves the others alone. -/
theorem map_refines (h : Refines s lo dirs A) (hthis : this ∈ dirs) (hf : f < 0x1000)
    (hodd : f % 2 = 1) (hphys : phys % 0x1000 = 0)
    (hphys' : ∀ i < count, phys + i * 0x1000 < 2 ^ 52)
    (hlim : (map this virt phys count f s).kmallocAddr ≤ 2 ^ 52) :
    Refines (map this virt phys count f s) lo dirs
      (Function.update A this ((A this).map virt phys count f)) := by
  induction count with
  | zero => rwa [AddressSpace.map_zero, Function.update_eq_self]
  | succ n ih =>
    rw [map_succ] at hlim ⊢
    have hR := ih (fun i hi => hphys' i (by omega)) (le_mapPage_kmallocAddr.trans hlim)
    have hn := hphys' n (by omega)
    have hwrap : wrap (phys + n * 0x1000) = phys + n * 0x1000 := wrap_of_lt (by omega)
    rw [hwrap] at hlim ⊢
    have hS := mapPage_refines hR hthis hf hodd (by omega) hn hlim
    simp only [Function.update_idem, Function.update_self] at hS
    rwa [AddressSpace.map_succ, hwrap]

/-! ## Tables that are there -/

theorem nextTable_of_tableAt (ht : tableAt s.mem root q = some t)
    (hu : tableAt s.mem root (i :: q) = some u) : nextTable t i f s = (u, s) := by
  rw [tableAt, ht, Option.bind_some, Option.map_eq_some_iff] at hu
  obtain ⟨e, he, rfl⟩ := hu
  have hpresent : s.mem.get64 (slot t i) &&& mmuPresent ≠ 0 := fun habs => by
    rw [entry_eq_none_iff.2 habs] at he
    cases he
  rw [nextTable_of_present hpresent, entry_eq_some he]

/-- On the way to a page whose tables are all there, nothing changes. -/
theorem descend_of_tableAt (ht : tableAt s.mem root ((virtPath virt).drop 1) = some t) :
    descend root virt f s = (t, s) := by
  have htail {q : List ℕ} {i t : ℕ} (h : tableAt s.mem root (i :: q) = some t) :
      ∃ u, tableAt s.mem root q = some u := by
    rw [tableAt, Option.bind_eq_some_iff] at h
    exact ⟨h.choose, h.choose_spec.1⟩
  obtain ⟨pd, hpd⟩ := htail ht
  obtain ⟨pdpt, hpdpt⟩ := htail hpd
  rw [descend, nextTable_of_tableAt (q := []) rfl hpdpt]
  dsimp only
  rw [nextTable_of_tableAt hpdpt hpd, nextTable_of_tableAt hpd ht]

/-- `mapPage` leaves the table of its page. -/
theorem mapPage_tableAt (h : Refines s lo dirs A) (hthis : this ∈ dirs) (hf : f < 0x1000)
    (hodd : f % 2 = 1) (hlim : (mapPage this virt phys f s).kmallocAddr ≤ 2 ^ 52) :
    ∃ t, tableAt (mapPage this virt phys f s).mem this ((virtPath virt).drop 1) = some t := by
  obtain ⟨hR, ht⟩ := descend_refines h hthis hf hodd (mapPage_kmallocAddr ▸ hlim)
  have hpath : IsPath 3 ((virtPath virt).drop 1) := isPath_drop_virtPath le_rfl
  refine ⟨(descend this virt f s).1, ?_⟩
  rw [mapPage_mem, hR.forest.tableAt_set64_leaf hthis hpath (index_lt (virt >>> 12)) ht rfl hthis
    hpath]
  exact ht

/-- Pages of one table need no more than that table and those on the way to it. -/
theorem map_kmallocAddr_le (h : Refines s lo dirs A) (hthis : this ∈ dirs) (hf : f < 0x1000)
    (hodd : f % 2 = 1) (hphys : phys % 0x1000 = 0)
    (hphys' : ∀ i < count + 1, phys + i * 0x1000 < 2 ^ 52)
    (hq : ∀ i < count + 1, (virtPath (wrap (virt + i * 0x1000))).drop 1 = q)
    (hlim : s.kmallocAddr + 0x6000 ≤ 2 ^ 52) :
    (map this virt phys (count + 1) f s).kmallocAddr ≤ s.kmallocAddr + 0x6000 ∧
      ∃ t, tableAt (map this virt phys (count + 1) f s).mem this q = some t := by
  induction count with
  | zero =>
    rw [map_succ, ← hq 0 Nat.one_pos]
    have hle : (mapPage this (wrap (virt + 0 * 0x1000)) (wrap (phys + 0 * 0x1000)) f
        (map this virt phys 0 f s)).kmallocAddr ≤ s.kmallocAddr + 0x6000 := mapPage_kmallocAddr_le
    exact ⟨hle, mapPage_tableAt h hthis hf hodd (hle.trans hlim)⟩
  | succ n ih =>
    obtain ⟨hle, t, ht⟩ := ih (fun i hi => hphys' i (by omega)) fun i hi => hq i (by omega)
    have hR := map_refines h hthis hf hodd hphys (fun i hi => hphys' i (by omega)) (hle.trans hlim)
    rw [map_succ]
    have hqn := hq (n + 1) (by omega)
    have hk : (mapPage this (wrap (virt + (n + 1) * 0x1000)) (wrap (phys + (n + 1) * 0x1000)) f
        (map this virt phys (n + 1) f s)).kmallocAddr =
          (map this virt phys (n + 1) f s).kmallocAddr := by
      rw [mapPage_kmallocAddr, descend_of_tableAt (by rwa [hqn])]
    refine ⟨hk.trans_le hle, ?_⟩
    rw [← hqn]
    exact mapPage_tableAt hR hthis hf hodd (hk.trans_le (hle.trans hlim))

end SmartOS
