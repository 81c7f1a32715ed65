import SmartOS.MMU.Paging

/-!
# Access rights

The processor grants an access to a page when all four words on the way to it
do: the *rights* of a page are the `and` of their `RW` and `USER` bits.
`mapPage` gives the tables that it adds the flags of the page it maps, and
leaves those that are there; `clone` makes all tables writable and none
accessible to users. So the rights of a page are those it was last mapped with
in the runs where

* `mapPage` and `map` find no table on the way that lacks a right they ask for,
* and `clone` finds no page for users (`Grants`, `rights_eq_of_run`),

and need not be in others: the first page in a table decides for those that
follow (`not_rightsFollow`).
-/

namespace SmartOS

open Prog

/-- The bits of the flags that grant rights. -/
def accessBits (flags : ℕ) : ℕ := flags &&& (mmuRW ||| mmuUser)

/-- The rights of a page, given the flags of the words on the way: what all four grant. -/
def rightsOf (flagsAt : List ℕ → Option ℕ) (page : ℕ) : Option ℕ := do
  let f₃ ← flagsAt ((pagePath page).drop 3)
  let f₂ ← flagsAt ((pagePath page).drop 2)
  let f₁ ← flagsAt ((pagePath page).drop 1)
  let f₀ ← flagsAt (pagePath page)
  return accessBits (f₃ &&& f₂ &&& f₁ &&& f₀)

/-- The rights of a page of a directory. -/
def rights (m : Mem) (root page : ℕ) : Option ℕ :=
  rightsOf (fun q => (entryAt m root q).map Prod.snd) page

variable {a f g lo r page virt phys count flags : ℕ} {p q : List ℕ} {v : AddressSpace}
  {s s₀ : MMU} {dirs dirs₀ : List ℕ} {A : ℕ → AddressSpace} {P : ℕ → PageMap} {ops : List PagingOp}

/-! ## Flags that grant rights -/

/-- The flags `g` of a table grant the rights of a page with flags `f`. -/
def Allows (g f : ℕ) : Prop := accessBits f &&& g = accessBits f

theorem accessBits_eq (f : ℕ) : accessBits f = f / 2 % 4 * 2 := and_field f 1 2

theorem allows_self (f : ℕ) : Allows f f := by
  rw [Allows, accessBits, Nat.and_assoc, Nat.and_comm _ f, ← Nat.and_assoc, Nat.and_self]

/-- What all tables grant is granted. -/
theorem accessBits_and_of_allows {g₁ g₂ g₃ : ℕ} (h₁ : Allows g₁ f) (h₂ : Allows g₂ f)
    (h₃ : Allows g₃ f) : accessBits (g₃ &&& g₂ &&& g₁ &&& f) = accessBits f :=
  calc accessBits (g₃ &&& g₂ &&& g₁ &&& f)
      = accessBits f &&& g₁ &&& g₂ &&& g₃ := by
        simp only [accessBits]
        ac_rfl
    _ = accessBits f := by rw [h₁, h₂, h₃]

/-- The tables of a clone grant all rights but those of users. -/
theorem allows_clone (hf : f &&& mmuUser = 0) : Allows (mmuRW ||| mmuPresent) f := by
  have huser : f / 4 % 2 * 4 = 0 := (and_field f 2 1).symm.trans hf
  have hlt : f / 2 % 4 < 2 := by omega
  rw [Allows, accessBits_eq]
  generalize f / 2 % 4 = x at hlt
  interval_cases x <;> rfl

/-! ## Rights in an address space -/

/-- The paths of the tables on the way to a page. -/
def tablePaths (p : List ℕ) : List (List ℕ) := [p.drop 1, p.drop 2, p.drop 3]

namespace AddressSpace

def rights (v : AddressSpace) (page : ℕ) : Option ℕ := rightsOf (fun q => (v q).map Prod.snd) page

/-- The tables on the way to a page, as far as there are any, grant the rights of the flags `f`. -/
def TablesAllow (v : AddressSpace) (p : List ℕ) (f : ℕ) : Prop :=
  ∀ q ∈ tablePaths p, ∀ e, v q = some e → Allows e.2 f

/-- The page is mapped with the flags `f`, whose rights all tables on the way grant. -/
structure Granted (v : AddressSpace) (p : List ℕ) (f : ℕ) : Prop where
  page : ∃ phys, v p = some (phys, f)
  tables : ∀ q ∈ tablePaths p, ∃ e, v q = some e ∧ Allows e.2 f

theorem drop_mem_tablePaths (k : ℕ) (hk : k ∈ [1, 2, 3]) : p.drop k ∈ tablePaths p := by
  simp only [List.mem_cons, List.not_mem_nil, or_false] at hk
  rcases hk with rfl | rfl | rfl <;> simp [tablePaths]

theorem length_of_mem_tablePaths (hq : q ∈ tablePaths (virtPath virt)) : q.length ≠ 4 := by
  simp only [tablePaths, List.mem_cons, List.not_mem_nil, or_false] at hq
  rcases hq with rfl | rfl | rfl <;> simp

theorem Granted.rights_eq (h : v.Granted (pagePath page) f) :
    v.rights page = some (accessBits f) := by
  obtain ⟨phys, hpage⟩ := h.page
  obtain ⟨e₁, he₁, h₁⟩ := h.tables _ (drop_mem_tablePaths 1 (by decide))
  obtain ⟨e₂, he₂, h₂⟩ := h.tables _ (drop_mem_tablePaths 2 (by decide))
  obtain ⟨e₃, he₃, h₃⟩ := h.tables _ (drop_mem_tablePaths 3 (by decide))
  simp only [rights, rightsOf, hpage, he₁, he₂, he₃, Option.map_some, Option.bind_eq_bind,
    Option.bind_some]
  exact congrArg some (accessBits_and_of_allows h₁ h₂ h₃)

/-! ### `mapPage` -/

/-- Of the words above the pages, `mapPage` sets those on the way that are missing. -/
theorem mapPage_of_length_ne (hq : q.length ≠ 4) : v.mapPage (virtPath virt) phys f q =
    if v q = none ∧ q ∈ tablePaths (virtPath virt) then some (0, f) else v q := by
  have h₂ : (v.addTable ((virtPath virt).drop 3) f) ((virtPath virt).drop 2) =
      v ((virtPath virt).drop 2) := addTable_of_length_ne (by simp)
  have h₁ : ((v.addTable ((virtPath virt).drop 3) f).addTable ((virtPath virt).drop 2) f)
      ((virtPath virt).drop 1) = v ((virtPath virt).drop 1) := by
    rw [addTable_of_length_ne (by simp), addTable_of_length_ne (by simp)]
  rw [mapPage, setPage, if_neg fun h => hq (by rw [h, length_virtPath]), addTable, h₁, addTable, h₂,
    addTable]
  simp only [tablePaths, List.mem_cons, List.not_mem_nil, or_false]
  grind

/-- A table that is there keeps its flags. -/
theorem mapPage_of_some {e : ℕ × ℕ} (hq : q.length ≠ 4) (h : v q = some e) :
    v.mapPage (virtPath virt) phys f q = some e := by
  rw [mapPage_of_length_ne hq, if_neg, h]
  rintro ⟨hnone, _⟩
  rw [hnone] at h
  cases h

/-- A table is one that was there, or has the flags of the page. -/
theorem eq_or_of_mapPage {e : ℕ × ℕ} (hq : q.length ≠ 4)
    (h : v.mapPage (virtPath virt) phys f q = some e) : v q = some e ∨ e.2 = f := by
  rw [mapPage_of_length_ne hq] at h
  split_ifs at h
  · cases h
    exact .inr rfl
  · exact .inl h

/-- After `mapPage`, the tables that grant the rights of the flags `f` still do. -/
theorem TablesAllow.mapPage (h : v.TablesAllow (virtPath page) f) :
    (v.mapPage (virtPath virt) phys f).TablesAllow (virtPath page) f := fun q hq e he => by
  rcases eq_or_of_mapPage (length_of_mem_tablePaths hq) he with he | he
  · exact h q hq e he
  · exact he ▸ allows_self f

/-- The page that is mapped has the rights it is mapped with, if the tables that are there grant
    them. -/
theorem TablesAllow.granted (h : v.TablesAllow (virtPath virt) f) :
    (v.mapPage (virtPath virt) phys f).Granted (virtPath virt) f := by
  refine ⟨⟨phys, by rw [mapPage_of_length rfl, if_pos rfl]⟩, fun q hq => ?_⟩
  cases he : v q with
  | none =>
    refine ⟨(0, f), ?_, allows_self f⟩
    rw [mapPage_of_length_ne (length_of_mem_tablePaths hq), if_pos ⟨he, hq⟩]
  | some e => exact ⟨e, mapPage_of_some (length_of_mem_tablePaths hq) he, h q hq e he⟩

/-- Other pages keep their rights. -/
theorem Granted.mapPage (h : v.Granted (virtPath page) f) (hne : virtPath page ≠ virtPath virt) :
    (v.mapPage (virtPath virt) phys g).Granted (virtPath page) f := by
  obtain ⟨hpage, htables⟩ := h
  refine ⟨?_, fun q hq => ?_⟩
  · rwa [mapPage_of_length rfl, if_neg hne]
  · obtain ⟨e, he, hallows⟩ := htables q hq
    exact ⟨e, mapPage_of_some (length_of_mem_tablePaths hq) he, hallows⟩

/-! ### `map` and `clone` -/

/-- What `map` keeps: the tables that grant the rights of its flags, -/
theorem TablesAllow.map (h : v.TablesAllow (virtPath page) f) :
    (v.map virt phys count f).TablesAllow (virtPath page) f := by
  induction count with
  | zero => rwa [map_zero]
  | succ n ih => exact map_succ v ▸ ih.mapPage

/-- and the rights of the pages outside its range. -/
theorem Granted.map (h : v.Granted (virtPath page) g)
    (hne : ∀ i < count, virtPath page ≠ virtPath (wrap (virt + i * 0x1000))) :
    (v.map virt phys count f).Granted (virtPath page) g := by
  induction count with
  | zero => rwa [map_zero]
  | succ n ih =>
    exact map_succ v ▸ (ih fun i hi => hne i (by omega)).mapPage (hne n (by omega))

/-- The pages of its range have the rights they are mapped with. -/
theorem TablesAllow.granted_map {i : ℕ} (hi : i < count)
    (h : v.TablesAllow (virtPath (virt + i * 0x1000)) f)
    (hvirt : ∀ i < count, virt + i * 0x1000 < 2 ^ 48) :
    (v.map virt phys count f).Granted (virtPath (virt + i * 0x1000)) f := by
  induction count with
  | zero => omega
  | succ n ih =>
    have hi' := hvirt i hi
    have hn := hvirt n (by omega)
    have hwrap : wrap (virt + n * 0x1000) = virt + n * 0x1000 :=
      wrap_of_lt (hn.trans (by decide))
    rw [map_succ, hwrap]
    by_cases hin : i = n
    · exact hin ▸ h.map.granted
    · refine (ih (by omega) fun i hi => hvirt i (by omega)).mapPage ?_
      rw [ne_eq, virtPath_eq_iff hi' hn]
      omega

theorem Granted.clone (h : v.Granted (virtPath page) f) (huser : f &&& mmuUser = 0) :
    v.clone.Granted (virtPath page) f := by
  obtain ⟨hpage, htables⟩ := h
  refine ⟨?_, fun q hq => ?_⟩
  · rwa [clone_of_length rfl]
  · obtain ⟨e, he, _⟩ := htables q hq
    refine ⟨(0, mmuRW ||| mmuPresent), ?_, allows_clone huser⟩
    rw [AddressSpace.clone, if_neg (length_of_mem_tablePaths hq), he, Option.map_some]

end AddressSpace

theorem view_flags {m : Mem} (hq : IsPath 4 q) :
    (view m r q).map Prod.snd = (entryAt m r q).map Prod.snd := by
  rw [view, if_pos hq, Option.map_map]
  congr 1
  funext e
  rw [Function.comp_apply]
  split_ifs <;> rfl

theorem isPath_tablePaths (hq : q ∈ tablePaths (virtPath virt)) : IsPath 4 q := by
  simp only [tablePaths, List.mem_cons, List.not_mem_nil, or_false] at hq
  rcases hq with rfl | rfl | rfl <;> exact (isPath_drop_virtPath (by decide)).mono (Nat.le_succ 3)

theorem isPath_drop_pagePath (k : ℕ) : IsPath 4 ((pagePath page).drop k) :=
  ⟨by simp, fun i hi => virtPath_lt i (List.mem_of_mem_drop hi)⟩

/-- The rights that the tables grant are those of the address space of their directory. -/
theorem rights_eq (h : Refines s lo dirs A) (hr : r ∈ dirs) :
    rights s.mem r page = (A r).rights page := by
  have hflags (k : ℕ) : (entryAt s.mem r ((pagePath page).drop k)).map Prod.snd =
      (A r ((pagePath page).drop k)).map Prod.snd := by
    rw [← h.view_eq r hr, view_flags (isPath_drop_pagePath k)]
  have h₀ := hflags 0
  rw [List.drop_zero] at h₀
  simp only [rights, AddressSpace.rights, rightsOf, hflags, h₀]

/-! ## Runs -/

/-- The flags of the most recent mapping of every page, in its directory or, before that was made by
    `clone`, in the one it was cloned from. -/
def mostRecent (ops : List PagingOp) : ℕ → PageMap := ops.foldl PagingOp.act fun _ _ => none

theorem mostRecent_append (op : PagingOp) : mostRecent (ops ++ [op]) = op.act (mostRecent ops) := by
  simp [mostRecent]

/-- The tables on the way to a page, as far as there are any, grant the rights of the flags. -/
def WordsAllow (m : Mem) (root virt flags : ℕ) : Prop :=
  ∀ q ∈ tablePaths (virtPath virt), ∀ e, entryAt m root q = some e → Allows e.2 flags

/-- No table lacks a right that the operation asks for. -/
def PagingOp.Grants (s : MMU) : PagingOp → Prop
  | mapPage dir virt _ flags => WordsAllow s.mem dir virt flags
  | map dir virt _ count flags => ∀ i < count, WordsAllow s.mem dir (virt + i * 0x1000) flags
  | clone dir _ => ∀ page < 2 ^ 36, ∀ e, translate s.mem dir page = some e → e.2 &&& mmuUser = 0

/-- A step that meets its condition, with all tables below `2 ^ 52`. -/
def GrantingStep (c : MMU × List ℕ) (op : PagingOp) (c' : MMU × List ℕ) : Prop :=
  PagingStep (2 ^ 52) c op c' ∧ op.Grants c.1

/-- Every page of the page maps is granted the rights of its flags. -/
def AllGranted (dirs : List ℕ) (A : ℕ → AddressSpace) (P : ℕ → PageMap) : Prop :=
  ∀ r ∈ dirs, ∀ page < 2 ^ 36, ∀ e, P r page = some e → (A r).Granted (pagePath page) e.2

/-- An operation that changes one directory. -/
theorem AllGranted.update {d : ℕ} {dirs' : List ℕ} {Q : PageMap} (h : AllGranted dirs A P)
    (hdirs : ∀ r ∈ dirs', r = d ∨ r ∈ dirs)
    (hv : ∀ page < 2 ^ 36, ∀ e, Q page = some e → v.Granted (pagePath page) e.2) :
    AllGranted dirs' (Function.update A d v) (Function.update P d Q) := by
  intro r hr page hpage e he
  by_cases hrd : r = d
  · rw [hrd, Function.update_self] at he ⊢
    exact hv page hpage e he
  · rw [Function.update_of_ne hrd] at he ⊢
    exact h r ((hdirs r hr).resolve_left hrd) page hpage e he

theorem wordsAllow_iff (hA : Refines s lo dirs A) (hr : r ∈ dirs) :
    WordsAllow s.mem r virt flags ↔ (A r).TablesAllow (virtPath virt) flags := by
  refine forall₂_congr fun q hq => ?_
  have hflags := view_flags (m := s.mem) (r := r) (isPath_tablePaths hq)
  rw [hA.view_eq r hr] at hflags
  cases he : A r q <;> cases he' : entryAt s.mem r q <;> simp_all

/-- A step that meets its condition keeps all rights, and grants those it asks for. -/
theorem GrantingStep.allGranted {c c' : MMU × List ℕ} {op : PagingOp} (hs : GrantingStep c op c')
    (hA : Refines c.1 lo c.2 A) (hP : AllGranted c.2 A P) :
    ∃ A', Refines c'.1 lo c'.2 A' ∧ AllGranted c'.2 A' (op.act P) := by
  obtain ⟨hs, hgrants⟩ := hs
  cases hs with
  | @mapPage s dirs dir virt phys flags hdir hvirt hphys hphys' hflags hpresent hlim =>
    refine ⟨_, mapPage_refines hA hdir hflags hpresent hphys hphys' hlim,
      hP.update (fun _ hr => .inr hr) fun page hpage e he => ?_⟩
    rw [PageMap.setPage, Function.update_apply] at he
    split_ifs at he with hvp
    · cases he
      rw [(pagePath_eq_iff hpage hvirt).2 hvp]
      exact ((wordsAllow_iff hA hdir).1 hgrants).granted
    · exact (hP dir hdir page hpage e he).mapPage fun h => hvp ((pagePath_eq_iff hpage hvirt).1 h)
  | @map s dirs dir virt phys count flags hdir hvirt hphys hphys' hflags hpresent hlim =>
    refine ⟨_, map_refines hA hdir hflags hpresent hphys hphys' hlim,
      hP.update (fun _ hr => .inr hr) fun page hpage e he => ?_⟩
    rw [PageMap.setRange] at he
    split_ifs at he with hvp
    · cases he
      obtain ⟨i, rfl⟩ := Nat.exists_eq_add_of_le hvp.1
      have hi : i < count := by omega
      rw [(pagePath_eq_iff hpage (hvirt i hi)).2 (by omega)]
      exact ((wordsAllow_iff hA hdir).1 (hgrants i hi)).granted_map hi hvirt
    · refine (hP dir hdir page hpage e he).map fun i hi h => hvp ?_
      have hvi := hvirt i hi
      rw [wrap_of_lt (hvi.trans (by decide))] at h
      have := (pagePath_eq_iff hpage hvi).1 h
      omega
  | @clone s dirs dir hdir hlim =>
    obtain ⟨_, hR⟩ := clone_refines hA hdir hlim
    generalize SmartOS.clone dir s = c at hR ⊢
    refine ⟨_, hR, hP.update (fun _ => List.mem_cons.1) fun page hpage e he => ?_⟩
    have hG := hP dir hdir page hpage e he
    obtain ⟨phys, hphys⟩ := hG.page
    exact hG.clone (hgrants page hpage (phys, e.2) ((translate_eq hA hdir).trans hphys))

/-- In a run whose steps all meet their condition, every page has the rights it was last mapped
    with. -/
theorem rights_eq_of_run (hF : Forest s₀.mem lo s₀.kmallocAddr dirs₀) (hlo : lo ≤ s₀.kmallocAddr)
    (hr : Run GrantingStep (s₀, dirs₀) ops (s, dirs)) :
    ∀ r ∈ dirs, ∀ page < 2 ^ 36, ∀ phys flags, mostRecent ops r page = some (phys, flags) →
      rights s.mem r page = some (accessBits flags) := by
  obtain ⟨A, hA, hP⟩ := hr.history
    (fun ops c => ∃ A, Refines c.1 lo c.2 A ∧ AllGranted c.2 A (mostRecent ops))
    ⟨fun r => view s₀.mem r, ⟨hF, hlo, fun _ _ => rfl⟩, fun _ _ _ _ _ he => by cases he⟩
    fun ops c op c' ⟨A, hA, hP⟩ hs => mostRecent_append op ▸ hs.allGranted hA hP
  intro r hr page hpage phys flags he
  rw [rights_eq hA hr]
  exact (hP r hr page hpage _ he).rights_eq

/-- Two writable pages of the kernel that share their tables, and a copy of the directory. -/
def copyOps (new : ℕ) : List PagingOp :=
  [.mapPage 0x1000 0 0x5000 (mmuPresent ||| mmuRW),
    .mapPage 0x1000 0x1000 0x6000 (mmuPresent ||| mmuRW), .clone 0x1000 new]

theorem exists_run_copyOps : ∃ s new, Run GrantingStep (zeroMMU 0x2000, [0x1000]) (copyOps new)
    (s, [new, 0x1000]) := by
  have hmem : 0x1000 ∈ [0x1000] := List.mem_singleton_self _
  have h₀ := zeroMMU_refines (r := 0x1000) (k := 0x2000) (by decide) (by decide)
  have hallow (virt : ℕ) :
      AddressSpace.TablesAllow (fun _ => none) (virtPath virt) (mmuPresent ||| mmuRW) :=
    fun _ _ _ he => by cases he
  -- The first page
  have hk₁ : (mapPage 0x1000 0 0x5000 (mmuPresent ||| mmuRW) (zeroMMU 0x2000)).kmallocAddr ≤
      0x8000 := mapPage_kmallocAddr_le
  have hs₁ : GrantingStep (zeroMMU 0x2000, [0x1000])
      (.mapPage 0x1000 0 0x5000 (mmuPresent ||| mmuRW)) (mapPage 0x1000 0 0x5000 _ _, _) :=
    ⟨.mapPage hmem (by decide) (by decide) (by decide) (by decide) (by decide)
      (hk₁.trans (by decide)), (wordsAllow_iff h₀ hmem).2 (hallow 0)⟩
  have h₁ : Refines (mapPage 0x1000 0 0x5000 (mmuPresent ||| mmuRW) (zeroMMU 0x2000)) 0
      [0x1000] _ :=
    mapPage_refines h₀ hmem (by decide) (by decide) (by decide) (by decide) (hk₁.trans (by decide))
  generalize mapPage 0x1000 0 0x5000 (mmuPresent ||| mmuRW) (zeroMMU 0x2000) = s₁ at hk₁ hs₁ h₁
  -- The second one, in the same table
  have hk₂ : (mapPage 0x1000 0x1000 0x6000 (mmuPresent ||| mmuRW) s₁).kmallocAddr ≤ 0xE000 :=
    mapPage_kmallocAddr_le.trans (by omega)
  have hs₂ : GrantingStep (s₁, [0x1000]) (.mapPage 0x1000 0x1000 0x6000 (mmuPresent ||| mmuRW))
      (mapPage 0x1000 0x1000 0x6000 (mmuPresent ||| mmuRW) s₁, [0x1000]) := by
    refine ⟨.mapPage hmem (by decide) (by decide) (by decide) (by decide) (by decide)
      (hk₂.trans (by decide)), (wordsAllow_iff h₁ hmem).2 ?_⟩
    rw [Function.update_self]
    exact (hallow 0x1000).mapPage
  have h₂ : Refines (mapPage 0x1000 0x1000 0x6000 (mmuPresent ||| mmuRW) s₁) 0 [0x1000] _ :=
    mapPage_refines h₁ hmem (by decide) (by decide) (by decide) (by decide) (hk₂.trans (by decide))
  generalize mapPage 0x1000 0x1000 0x6000 (mmuPresent ||| mmuRW) s₁ = s₂ at hk₂ hs₂ h₂
  -- No page is for users.
  have hs₃ : GrantingStep (s₂, [0x1000]) (.clone 0x1000 (clone 0x1000 s₂).1)
      ((clone 0x1000 s₂).2, [(clone 0x1000 s₂).1, 0x1000]) := by
    refine ⟨.clone hmem ?_, fun page hpage e he => ?_⟩
    · exact clone_kmallocAddr_le.trans ((Nat.add_le_add_right hk₂ _).trans (by decide))
    · rw [translate_eq h₂ hmem, Function.update_self, Function.update_self,
        pages_mapPage hpage (by decide), PageMap.setPage, Function.update_apply,
        pages_mapPage hpage (by decide), PageMap.setPage, Function.update_apply] at he
      split_ifs at he <;> cases he <;> decide
  exact ⟨_, _, .snoc (.snoc (.snoc .nil hs₁) hs₂) hs₃⟩

theorem rights_eq_of_run_clone : ∃ s new,
    Run GrantingStep (zeroMMU 0x2000, [0x1000]) (copyOps new) (s, [new, 0x1000]) ∧
      ∀ r ∈ [new, 0x1000], rights s.mem r 0 = some mmuRW ∧ rights s.mem r 1 = some mmuRW := by
  obtain ⟨s, new, hr⟩ := exists_run_copyOps
  have hzero := zeroMMU_refines (r := 0x1000) (k := 0x2000) (by decide) (by decide)
  have hrights := rights_eq_of_run hzero.forest hzero.bound hr
  have hrecent (r : ℕ) (hr : r ∈ [new, 0x1000]) :
      mostRecent (copyOps new) r 0 = some (0x5000, mmuPresent ||| mmuRW) ∧
        mostRecent (copyOps new) r 1 = some (0x6000, mmuPresent ||| mmuRW) := by
    simp [copyOps, mostRecent, PagingOp.act, PageMap.setPage, Function.update_apply] at hr ⊢
    split_ifs <;> simp_all
  refine ⟨s, new, hr, fun r hr => ?_⟩
  exact ⟨hrights r hr 0 (by decide) _ _ (hrecent r hr).1,
    hrights r hr 1 (by decide) _ _ (hrecent r hr).2⟩

/-! ## The first page decides -/

/-- What `rights_eq_of_run` says, of all runs. -/
def RightsFollow : Prop :=
  ∀ {s₀ s : MMU} {lo : ℕ} {dirs₀ dirs : List ℕ} {ops : List PagingOp},
    Forest s₀.mem lo s₀.kmallocAddr dirs₀ → lo ≤ s₀.kmallocAddr →
    Run (PagingStep (2 ^ 52)) (s₀, dirs₀) ops (s, dirs) →
    ∀ r ∈ dirs, ∀ page < 2 ^ 36, ∀ phys flags, mostRecent ops r page = some (phys, flags) →
      rights s.mem r page = some (accessBits flags)

/-- A page for the kernel, read-only, then one for users, writable, in the same table. -/
def twoPages : MMU :=
  mapPage 0x1000 0x1000 0x6000 (mmuPresent ||| mmuRW ||| mmuUser)
    (mapPage 0x1000 0 0x5000 mmuPresent (zeroMMU 0x2000))

theorem twoPages_kmallocAddr :
    (mapPage 0x1000 0 0x5000 mmuPresent (zeroMMU 0x2000)).kmallocAddr ≤ 0x8000 ∧
      twoPages.kmallocAddr ≤ 0xE000 := by
  have h : (mapPage 0x1000 0 0x5000 mmuPresent (zeroMMU 0x2000)).kmallocAddr ≤ 0x8000 :=
    mapPage_kmallocAddr_le
  exact ⟨h, mapPage_kmallocAddr_le.trans (Nat.add_le_add_right h 0x6000)⟩

/-- The second page has no rights: the tables have been made for the first one. -/
theorem rights_twoPages : rights twoPages.mem 0x1000 1 = some 0 := by
  have hzero := zeroMMU_refines (r := 0x1000) (k := 0x2000) (by decide) (by decide)
  have hmem : 0x1000 ∈ [0x1000] := List.mem_singleton_self _
  obtain ⟨hk, hk'⟩ := twoPages_kmallocAddr
  have h₁ : Refines (mapPage 0x1000 0 0x5000 mmuPresent (zeroMMU 0x2000)) 0 [0x1000] _ :=
    mapPage_refines hzero hmem (by decide) (by decide) (by decide) (by decide)
      (hk.trans (by decide))
  have h₂ : Refines twoPages 0 [0x1000] _ :=
    mapPage_refines h₁ hmem (by decide) (by decide) (by decide) (by decide) (hk'.trans (by decide))
  rw [rights_eq h₂ hmem]
  simp only [Function.update_self]
  decide

theorem not_rightsFollow : ¬RightsFollow := by
  intro h
  have hzero := zeroMMU_refines (r := 0x1000) (k := 0x2000) (by decide) (by decide)
  have hmem : 0x1000 ∈ [0x1000] := List.mem_singleton_self _
  obtain ⟨hk, hk'⟩ := twoPages_kmallocAddr
  have hrun : Run (PagingStep (2 ^ 52)) (zeroMMU 0x2000, [0x1000])
      [.mapPage 0x1000 0 0x5000 mmuPresent,
        .mapPage 0x1000 0x1000 0x6000 (mmuPresent ||| mmuRW ||| mmuUser)] (twoPages, [0x1000]) :=
    .snoc (.snoc .nil (.mapPage hmem (by decide) (by decide) (by decide) (by decide) (by decide)
      (hk.trans (by decide)))) (.mapPage hmem (by decide) (by decide) (by decide) (by decide)
      (by decide) (hk'.trans (by decide)))
  have := h hzero.forest hzero.bound hrun 0x1000 hmem 1 (by decide) 0x6000
    (mmuPresent ||| mmuRW ||| mmuUser) (by decide)
  rw [rights_twoPages] at this
  exact absurd this (by decide)

end SmartOS
