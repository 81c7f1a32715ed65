import SmartOS.MMU.Clone
import SmartOS.Lib.Run

/-!
# Runs of the paging operations

The operations `mapPage`, `map` and `clone` on a growing set of directories
(`PagingStep`), against what they are for: one partial map from page numbers to
physical pages and flags for every directory (`PageMap`), of which `mapPage` sets
one page, `map` a range, and which `clone` duplicates (`PageMapStep`).

`paging_refines`: every run in which the bump pointer stays below `2 ^ 52`, so that
the address field of a word can hold the address of every table, is a run of the
page maps, and the tables translate as these say.
-/

namespace SmartOS

open Prog

/-! ## Page maps -/

/-- The page and flags of every page number, where it is mapped. -/
abbrev PageMap := ℕ → Option (ℕ × ℕ)

/-- `count` pages from page number `page` on, mapped to consecutive pages from `phys` on. -/
def PageMap.setRange (P : PageMap) (page phys count flags : ℕ) : PageMap := fun n =>
  if page ≤ n ∧ n < page + count then some (phys + (n - page) * 0x1000, flags) else P n

/-- One page. -/
def PageMap.setPage (P : PageMap) (page phys flags : ℕ) : PageMap :=
  Function.update P page (some (phys, flags))

/-- An operation on a directory, and for `clone` the new directory it returned. -/
inductive PagingOp
  | mapPage (dir virt phys flags : ℕ)
  | map (dir virt phys count flags : ℕ)
  | clone (dir new : ℕ)

/-- What an operation does to the page maps of the directories. -/
def PagingOp.act (P : ℕ → PageMap) : PagingOp → ℕ → PageMap
  | mapPage dir virt phys flags =>
    Function.update P dir ((P dir).setPage (virt / 0x1000) phys flags)
  | map dir virt phys count flags =>
    Function.update P dir ((P dir).setRange (virt / 0x1000) phys count flags)
  | clone dir new => Function.update P new (P dir)

/-- The operations on the directories `dirs`: the directory made by `clone` is a new one. -/
inductive PageMapStep : (ℕ → PageMap) × List ℕ → PagingOp → (ℕ → PageMap) × List ℕ → Prop
  | mapPage {P : ℕ → PageMap} {dirs : List ℕ} {dir virt phys flags : ℕ} (hdir : dir ∈ dirs) :
    PageMapStep (P, dirs) (.mapPage dir virt phys flags)
      (PagingOp.act P (.mapPage dir virt phys flags), dirs)
  | map {P : ℕ → PageMap} {dirs : List ℕ} {dir virt phys count flags : ℕ} (hdir : dir ∈ dirs) :
    PageMapStep (P, dirs) (.map dir virt phys count flags)
      (PagingOp.act P (.map dir virt phys count flags), dirs)
  | clone {P : ℕ → PageMap} {dirs : List ℕ} {dir new : ℕ} (hdir : dir ∈ dirs) (hnew : new ∉ dirs) :
    PageMapStep (P, dirs) (.clone dir new) (PagingOp.act P (.clone dir new), new :: dirs)

/-! ## The operations of the kernel -/

/-- The path of a page number. -/
def pagePath (page : ℕ) : List ℕ := virtPath (page * 0x1000)

/-- The translation of a page: what the word of the lowest table holds. -/
def translate (m : Mem) (root page : ℕ) : Option (ℕ × ℕ) := entryAt m root (pagePath page)

/-- The operations on the directories `dirs`, in the domain they are meant for, as long as the bump
    pointer stays below `lim`. -/
inductive PagingStep (lim : ℕ) : MMU × List ℕ → PagingOp → MMU × List ℕ → Prop
  | mapPage {s : MMU} {dirs : List ℕ} {dir virt phys flags : ℕ} (hdir : dir ∈ dirs)
    (hvirt : virt < 2 ^ 48) (hphys : phys % 0x1000 = 0) (hphys' : phys < 2 ^ 52)
    (hflags : flags < 0x1000) (hpresent : flags % 2 = 1)
    (hlim : (mapPage dir virt phys flags s).kmallocAddr ≤ lim) :
    PagingStep lim (s, dirs) (.mapPage dir virt phys flags) (mapPage dir virt phys flags s, dirs)
  | map {s : MMU} {dirs : List ℕ} {dir virt phys count flags : ℕ} (hdir : dir ∈ dirs)
    (hvirt : ∀ i < count, virt + i * 0x1000 < 2 ^ 48) (hphys : phys % 0x1000 = 0)
    (hphys' : ∀ i < count, phys + i * 0x1000 < 2 ^ 52)
    (hflags : flags < 0x1000) (hpresent : flags % 2 = 1)
    (hlim : (map dir virt phys count flags s).kmallocAddr ≤ lim) :
    PagingStep lim (s, dirs) (.map dir virt phys count flags)
      (map dir virt phys count flags s, dirs)
  | clone {s : MMU} {dirs : List ℕ} {dir : ℕ} (hdir : dir ∈ dirs)
    (hlim : (clone dir s).2.kmallocAddr ≤ lim) :
    PagingStep lim (s, dirs) (.clone dir (clone dir s).1)
      ((clone dir s).2, (clone dir s).1 :: dirs)

/-- Every page of every directory is translated as its page map says. -/
def Translates (s : MMU) (dirs : List ℕ) (P : ℕ → PageMap) : Prop :=
  ∀ r ∈ dirs, ∀ page < 2 ^ 36, translate s.mem r page = P r page

/-! ## Pages and paths -/

variable {virt virt' page phys count flags lo : ℕ} {p q : List ℕ} {s : MMU} {dirs : List ℕ}
  {A : ℕ → AddressSpace} {v : AddressSpace}

theorem index_eq (k : ℕ) : virt >>> k &&& 0x1FF = virt / 2 ^ k % 512 := shift_and_field virt k 9

/-- Virtual addresses have the same path when they lie in the same page. -/
theorem virtPath_eq_iff (h : virt < 2 ^ 48) (h' : virt' < 2 ^ 48) :
    virtPath virt = virtPath virt' ↔ virt / 0x1000 = virt' / 0x1000 := by
  simp only [virtPath, index_eq, List.cons.injEq, and_true]
  omega

@[simp]
theorem length_virtPath : (virtPath virt).length = 4 := rfl

@[simp]
theorem length_pagePath : (pagePath page).length = 4 := rfl

theorem pagePath_eq_iff (hpage : page < 2 ^ 36) (hvirt : virt < 2 ^ 48) :
    pagePath page = virtPath virt ↔ page = virt / 0x1000 := by
  rw [pagePath, virtPath_eq_iff (by omega) hvirt]
  omega

theorem pagePath_cons (page : ℕ) : ∃ j p, pagePath page = j :: p ∧ IsPath 3 p ∧ j < 512 :=
  ⟨_, _, rfl, isPath_drop_virtPath le_rfl, index_lt _⟩

namespace AddressSpace

theorem addTable_of_length_ne (h : q.length ≠ p.length) : v.addTable p flags q = v q := by
  rw [addTable, if_neg]
  rintro ⟨rfl, _⟩
  exact h rfl

/-- Of the pages, `mapPage` only sets the one it names. -/
theorem mapPage_of_length (hq : q.length = 4) : v.mapPage (virtPath virt) phys flags q =
    if q = virtPath virt then some (phys, flags) else v q := by
  rw [mapPage, setPage]
  split_ifs with h
  · rfl
  · rw [addTable_of_length_ne, addTable_of_length_ne, addTable_of_length_ne] <;>
      simp only [List.length_drop, length_virtPath] <;> omega

theorem clone_of_length (hq : q.length = 4) : v.clone q = v q := if_pos hq

end AddressSpace

/-- The page map of an address space. -/
def AddressSpace.pages (v : AddressSpace) : PageMap := fun page => v (pagePath page)

theorem translate_eq (h : Refines s lo dirs A) {r : ℕ} (hr : r ∈ dirs) :
    translate s.mem r page = (A r).pages page := by
  obtain ⟨j, p, hjp, hp, hj⟩ := pagePath_cons page
  rw [AddressSpace.pages, ← h.view_eq r hr, translate, hjp, view_cons hp hj, ← hjp]
  simp

theorem pages_mapPage (hpage : page < 2 ^ 36) (hvirt : virt < 2 ^ 48) :
    (v.mapPage (virtPath virt) phys flags).pages page =
      v.pages.setPage (virt / 0x1000) phys flags page := by
  rw [AddressSpace.pages, AddressSpace.mapPage_of_length length_pagePath, PageMap.setPage,
    Function.update_apply]
  simp only [pagePath_eq_iff hpage hvirt]
  rfl

/-- `map` sets the pages of its range. -/
theorem pages_map (hpage : page < 2 ^ 36) (hvirt : ∀ i < count, virt + i * 0x1000 < 2 ^ 48)
    (hphys : ∀ i < count, phys + i * 0x1000 < 2 ^ 52) :
    (v.map virt phys count flags).pages page =
      v.pages.setRange (virt / 0x1000) phys count flags page := by
  induction count with
  | zero => rw [AddressSpace.map_zero, PageMap.setRange, if_neg (by omega)]
  | succ n ih =>
    have hv := hvirt n (by omega)
    have hp := hphys n (by omega)
    rw [AddressSpace.map_succ, wrap_of_lt (by omega), wrap_of_lt (by omega), pages_mapPage hpage hv,
      PageMap.setPage, Function.update_apply,
      ih (fun i hi => hvirt i (by omega)) fun i hi => hphys i (by omega)]
    have hdiv : (virt + n * 0x1000) / 0x1000 = virt / 0x1000 + n := by omega
    simp only [PageMap.setRange, hdiv]
    -- The page is the last one of the range, or one of the others.
    by_cases hlast : page = virt / 0x1000 + n
    · rw [if_pos hlast, if_pos (by omega), hlast, Nat.add_sub_cancel_left]
    · have hiff : (virt / 0x1000 ≤ page ∧ page < virt / 0x1000 + (n + 1)) ↔
          (virt / 0x1000 ≤ page ∧ page < virt / 0x1000 + n) := by omega
      simp only [if_neg hlast, hiff]

theorem pages_clone : v.clone.pages = v.pages :=
  funext fun _ => AddressSpace.clone_of_length length_pagePath

/-! ## Refinement -/

variable {s₀ : MMU} {dirs₀ : List ℕ} {P P₀ : ℕ → PageMap} {ops : List PagingOp} {lim r : ℕ}

/-- The directories are address spaces, whose pages are those of the page maps. -/
def PagesOf (s : MMU) (lo : ℕ) (dirs : List ℕ) (P : ℕ → PageMap) : Prop :=
  ∃ A, Refines s lo dirs A ∧ ∀ r ∈ dirs, ∀ page < 2 ^ 36, (A r).pages page = P r page

/-- An operation that changes one directory, whose pages become those of `Q`. -/
theorem PagesOf.update {s' : MMU} {d : ℕ} {dirs' : List ℕ} {Q : PageMap} {A : ℕ → AddressSpace}
    (hP : ∀ r ∈ dirs, ∀ page < 2 ^ 36, (A r).pages page = P r page)
    (hdirs : ∀ r ∈ dirs', r = d ∨ r ∈ dirs)
    (h : Refines s' lo dirs' (Function.update A d v))
    (hv : ∀ page < 2 ^ 36, v.pages page = Q page) :
    PagesOf s' lo dirs' (Function.update P d Q) := by
  refine ⟨_, h, fun r hr page hpage => ?_⟩
  by_cases hrd : r = d
  · rw [hrd, Function.update_self, Function.update_self, hv page hpage]
  · rw [Function.update_of_ne hrd, Function.update_of_ne hrd]
    exact hP r ((hdirs r hr).resolve_left hrd) page hpage

/-- The relation of the simulation: the same directories, with their pages. -/
def Simulates (lo : ℕ) (c : MMU × List ℕ) (t : (ℕ → PageMap) × List ℕ) : Prop :=
  t.2 = c.2 ∧ PagesOf c.1 lo c.2 t.1

/-- Every step is one of the page maps. -/
theorem PagingStep.simulates {c c' : MMU × List ℕ} {t : (ℕ → PageMap) × List ℕ} {op : PagingOp}
    (h : Simulates lo c t) (hs : PagingStep (2 ^ 52) c op c') :
    ∃ t', PageMapStep t op t' ∧ Simulates lo c' t' := by
  obtain ⟨P, _⟩ := t
  obtain ⟨rfl, A, hA, hP⟩ := h
  cases hs with
  | @mapPage s dirs dir virt phys flags hdir hvirt hphys hphys' hflags hpresent hlim =>
    refine ⟨_, .mapPage hdir, rfl, .update hP (fun _ hr => .inr hr)
      (mapPage_refines hA hdir hflags hpresent hphys hphys' hlim) fun page hpage => ?_⟩
    rw [pages_mapPage hpage hvirt]
    simp only [PageMap.setPage, Function.update_apply, hP dir hdir page hpage]
  | @map s dirs dir virt phys count flags hdir hvirt hphys hphys' hflags hpresent hlim =>
    refine ⟨_, .map hdir, rfl, .update hP (fun _ hr => .inr hr)
      (map_refines hA hdir hflags hpresent hphys hphys' hlim) fun page hpage => ?_⟩
    rw [pages_map hpage hvirt hphys']
    simp only [PageMap.setRange, hP dir hdir page hpage]
  | @clone s dirs dir hdir hlim =>
    obtain ⟨hnew, hR⟩ := clone_refines hA hdir hlim
    generalize SmartOS.clone dir s = c at hnew hR ⊢
    refine ⟨_, .clone hdir hnew, rfl, .update hP (fun _ => List.mem_cons.1) hR fun page hpage => ?_⟩
    rw [pages_clone, hP dir hdir page hpage]

/-- From directories whose tables are a forest, every run of the operations is a run of their page
    maps, as long as the tables lie below `2 ^ 52`. -/
theorem paging_refines (hF : Forest s₀.mem lo s₀.kmallocAddr dirs₀) (hlo : lo ≤ s₀.kmallocAddr)
    (hP₀ : Translates s₀ dirs₀ P₀) (hr : Run (PagingStep (2 ^ 52)) (s₀, dirs₀) ops (s, dirs)) :
    ∃ P, Run PageMapStep (P₀, dirs₀) ops (P, dirs) ∧ Translates s dirs P := by
  have h₀ : Refines s₀ lo dirs₀ fun r => view s₀.mem r := ⟨hF, hlo, fun _ _ => rfl⟩
  have hsim : Simulates lo (s₀, dirs₀) (P₀, dirs₀) :=
    ⟨rfl, _, h₀, fun r hr page hpage => (translate_eq h₀ hr).symm.trans (hP₀ r hr page hpage)⟩
  obtain ⟨⟨P, _⟩, hP, rfl, A, hA, hAP⟩ :=
    hr.simulation (Simulates lo) hsim fun _ _ _ _ h hs => hs.simulates h
  exact ⟨P, hP, fun r hr page hpage => (translate_eq hA hr).trans (hAP r hr page hpage)⟩

theorem get64_zeroMMU (k a : ℕ) : (zeroMMU k).mem.get64 a = 0 := by simp [zeroMMU, Mem.get64]

theorem zeroMMU_refines {k : ℕ} (hr : r % 0x1000 = 0) (hk : r + 0x1000 ≤ k) :
    Refines (zeroMMU k) 0 [r] fun _ _ => none :=
  .of_zero (fun _ _ => get64_zeroMMU k _) hr (Nat.zero_le r) hk

theorem translates_zeroMMU {k : ℕ} (hr : r % 0x1000 = 0) (hk : r + 0x1000 ≤ k) :
    Translates (zeroMMU k) [r] fun _ _ => none := fun _ hmem _ _ =>
  translate_eq (zeroMMU_refines hr hk) hmem

/-- The page maps that a run ends in. -/
theorem pageMaps_eq_foldl {t : (ℕ → PageMap) × List ℕ} (hr : Run PageMapStep (P₀, dirs₀) ops t) :
    t.1 = ops.foldl PagingOp.act P₀ := by
  refine hr.history (fun ops t => t.1 = ops.foldl PagingOp.act P₀) rfl fun ops t op t' h hs => ?_
  rw [List.foldl_append, ← h]
  cases hs <;> rfl

/-- No directory goes. -/
theorem mem_dirs_of_run {t : (ℕ → PageMap) × List ℕ} (hr : Run PageMapStep (P₀, dirs₀) ops t)
    (hmem : r ∈ dirs₀) : r ∈ t.2 := by
  refine hr.invariant (fun t => r ∈ t.2) hmem fun t op t' h hs => ?_
  cases hs with
  | mapPage _ | map _ => exact h
  | clone _ _ => exact List.mem_cons_of_mem _ h

/-- Two pages that share their tables, a copy of the directory, and one of the pages mapped
    elsewhere in the copy. -/
def forkOps (new : ℕ) : List PagingOp :=
  [.mapPage 0x1000 0x400000 0x5000 mmuPresent, .mapPage 0x1000 0x401000 0x6000 mmuPresent,
    .clone 0x1000 new, .mapPage new 0x401000 0x7000 mmuPresent]

theorem exists_run_forkOps : ∃ s new, Run (PagingStep (2 ^ 52)) (zeroMMU 0x2000, [0x1000])
    (forkOps new) (s, [new, 0x1000]) := by
  have h₁ : (mapPage 0x1000 0x400000 0x5000 mmuPresent (zeroMMU 0x2000)).kmallocAddr ≤ 0x8000 :=
    mapPage_kmallocAddr_le
  have hr₁ : Run (PagingStep (2 ^ 52)) (zeroMMU 0x2000, [0x1000]) _ (_, [0x1000]) :=
    .snoc .nil (.mapPage (List.mem_singleton_self 0x1000) (by decide) (by decide) (by decide)
      (by decide) (by decide) (h₁.trans (by decide)))
  generalize mapPage 0x1000 0x400000 0x5000 mmuPresent (zeroMMU 0x2000) = s₁ at h₁ hr₁
  have h₂ : (mapPage 0x1000 0x401000 0x6000 mmuPresent s₁).kmallocAddr ≤ s₁.kmallocAddr + 0x6000 :=
    mapPage_kmallocAddr_le
  have hs₂ : PagingStep (2 ^ 52) (s₁, [0x1000]) (.mapPage 0x1000 0x401000 0x6000 mmuPresent) _ :=
    .mapPage (List.mem_singleton_self 0x1000) (by decide) (by decide) (by decide) (by decide)
      (by decide) (h₂.trans (by omega))
  have hr₂ := hr₁.snoc hs₂
  generalize mapPage 0x1000 0x401000 0x6000 mmuPresent s₁ = s₂ at h₂ hs₂ hr₂
  have h₃ : (clone 0x1000 s₂).2.kmallocAddr ≤ s₂.kmallocAddr + 2 ^ 41 :=
    clone_kmallocAddr_le.trans (Nat.add_le_add_left (by decide) _)
  have hr₃ := hr₂.snoc (.clone (List.mem_singleton_self 0x1000) (h₃.trans (by omega)))
  generalize clone 0x1000 s₂ = c at h₃ hr₃
  have h₄ : (mapPage c.1 0x401000 0x7000 mmuPresent c.2).kmallocAddr ≤ c.2.kmallocAddr + 0x6000 :=
    mapPage_kmallocAddr_le
  exact ⟨_, c.1, hr₃.snoc (.mapPage List.mem_cons_self (by decide) (by decide) (by decide)
    (by decide) (by decide) (h₄.trans (by omega)))⟩

theorem paging_refines_clone :
    ∃ s new, Run (PagingStep (2 ^ 52)) (zeroMMU 0x2000, [0x1000]) (forkOps new) (s, [new, 0x1000]) ∧
      translate s.mem 0x1000 0x400 = some (0x5000, mmuPresent) ∧
      translate s.mem 0x1000 0x401 = some (0x6000, mmuPresent) ∧
      translate s.mem new 0x400 = some (0x5000, mmuPresent) ∧
      translate s.mem new 0x401 = some (0x7000, mmuPresent) := by
  obtain ⟨s, new, hr⟩ := exists_run_forkOps
  have hzero := zeroMMU_refines (r := 0x1000) (k := 0x2000) (by decide) (by decide)
  obtain ⟨P, hP, htrans⟩ := paging_refines hzero.forest hzero.bound
    (translates_zeroMMU (by decide) (by decide)) hr
  -- The directory of the copy is a new one.
  have hnew : new ≠ 0x1000 := by
    obtain ⟨t, ht, hlast⟩ := Run.exists_mid
      (show Run _ _ ((forkOps new).take 2 ++ (forkOps new).drop 2) _ from hP)
    have hmem := mem_dirs_of_run ht (List.mem_singleton_self 0x1000)
    obtain ⟨_, hs, -⟩ := hlast.exists_first
    cases hs with
    | clone _ hnew => exact fun h => hnew (h ▸ hmem)
  have hPs : P = (forkOps new).foldl PagingOp.act fun _ _ => none := pageMaps_eq_foldl hP
  refine ⟨s, new, hr, ?_⟩
  rw [htrans 0x1000 (by simp) 0x400 (by decide), htrans 0x1000 (by simp) 0x401 (by decide),
    htrans new (by simp) 0x400 (by decide), htrans new (by simp) 0x401 (by decide), hPs]
  simp [forkOps, PagingOp.act, PageMap.setPage, hnew.symm]

end SmartOS
