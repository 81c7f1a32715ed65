import SmartOS.Heap.Run
import SmartOS.Lib.Region
import SmartOS.MMU.Directory
import SmartOS.Scheduler.Basic

/-!
# Many heaps

Every thread has a heap, and so has the kernel. `operator new` and `operator delete`
work on the heap that `currentHeap` points to, which `schedule` changes with every
thread, so that memory may be given back when another heap than its own is current:
`free` marks the entry as free, and merges free entries of the current heap.

* `Heaps` is the memory and `currentHeap`; the heaps that there are, and what has been
  allocated from each of them and is still held, are recorded with it;
* `Heaps.Inv` is the invariant: heaps lie apart, and each of them is as it has to be
  (`Heap.Holds`), with what is held of it;
* `Heaps.Inv.update`: a change of the memory of one heap keeps it, if that heap is as it has
  to be;
* `heaps_safe_of_run`: whatever heap is current when, what is held lies apart, in the
  heaps that it was allocated from.
-/

namespace SmartOS

open Prog

/-! ## The source -/

/-- The object `Heap` at an address. -/
def Heap.read (m : Mem) (a : ℕ) : Heap := ⟨m.get64 a, m.get64 (a + 8)⟩

/-- `operator new(size)`, and also `new[]` and `malloc`. -/
def operatorNew (currentHeap size : ℕ) (m : Mem) (fuel : ℕ) : Option (ℕ × Mem) :=
  (Heap.read m currentHeap).malloc size m fuel

/-- `operator delete(ptr)`, and also `delete[]` and `free`. -/
def operatorDelete (currentHeap ptr : ℕ) (m : Mem) (fuel : ℕ) : Option Mem :=
  (Heap.read m currentHeap).free ptr m fuel

/-- `initializeHeap()`, with the object `kernelHeap` at its address. -/
def initializeHeap (kernelHeap : ℕ) (s : MMU) : ℕ × MMU :=
  let (value, s) := Heap.new 0x10000 s
  let s := { s with
    mem := (s.mem.set64 kernelHeap value.first).set64 (kernelHeap + 8) value.size }
  (kernelHeap, s)

/-! ## The system -/

/-- What happens, with the address of the heap that is made or the allocation is from. -/
inductive HeapsOp
  | newHeap (heap : ℕ)
  | kmalloc (size : ℕ)
  | kmallocA (size : ℕ)
  | setCurrentHeap (heap : ℕ)
  | new (size ptr : ℕ)
  | delete (heap ptr : ℕ)
  | write (heap ptr : ℕ)
  | other
  deriving Repr, DecidableEq

/-- The memory and `currentHeap`; the heaps with the addresses of their objects, and what is held of
    each: the addresses, and the sizes that were asked for. -/
structure Heaps where
  mmu : MMU
  currentHeap : ℕ
  heaps : List (ℕ × Heap)
  live : ℕ → List (ℕ × ℕ)

/-- The region of the object `Heap`. -/
def heapObject (h : ℕ × Heap) : Region := (h.1, 16)

/-- The region of the arena. -/
def heapArena (h : ℕ × Heap) : Region := (h.2.first, h.2.size)

/-- The steps, in an address space that the bump allocator does not exhaust. What is held may be
    given back at any time; other code writes to memory that is of no heap. -/
inductive HeapsStep (s : Heaps) : HeapsOp → Heaps → Prop
  | newHeap : s.mmu.kmallocAddr + 16 + 0x10000 ≤ 2 ^ 64 →
      HeapsStep s (.newHeap (newHeap s.mmu).1)
        { s with
          mmu := (newHeap s.mmu).2
          heaps := ((newHeap s.mmu).1, (Heap.new 0x10000 (kmalloc 16 s.mmu).2).1) :: s.heaps }
  | kmalloc {size : ℕ} : s.mmu.kmallocAddr + size ≤ 2 ^ 64 →
      HeapsStep s (.kmalloc size) { s with mmu := (kmalloc size s.mmu).2 }
  | kmallocA {size : ℕ} : pageAlign s.mmu.kmallocAddr + size ≤ 2 ^ 64 →
      HeapsStep s (.kmallocA size) { s with mmu := (kmallocA size s.mmu).2 }
  | setCurrentHeap {h : ℕ × Heap} : h ∈ s.heaps →
      HeapsStep s (.setCurrentHeap h.1) { s with currentHeap := h.1 }
  | new {size ptr : ℕ} {m : Mem} :
      Returns (fun n => operatorNew s.currentHeap size s.mmu.mem n) (ptr, m) →
      HeapsStep s (.new size ptr)
        { s with
          mmu := { s.mmu with mem := m }
          live := if ptr = 0 then s.live else
            Function.update s.live s.currentHeap ((ptr, size) :: s.live s.currentHeap) }
  | delete {h : ℕ × Heap} {p : ℕ × ℕ} {m : Mem} : h ∈ s.heaps → p ∈ s.live h.1 →
      Returns (fun n => operatorDelete s.currentHeap p.1 s.mmu.mem n) m →
      HeapsStep s (.delete h.1 p.1)
        { s with
          mmu := { s.mmu with mem := m }
          live := Function.update s.live h.1 ((s.live h.1).erase p) }
  | write {h : ℕ × Heap} {p : ℕ × ℕ} {m : Mem} : h ∈ s.heaps → p ∈ s.live h.1 →
      (∀ x, ¬Region.Has p x → m x = s.mmu.mem x) →
      HeapsStep s (.write h.1 p.1) { s with mmu := { s.mmu with mem := m } }
  | other {m : Mem} :
      (∀ h ∈ s.heaps, ∀ x, (heapObject h).Has x ∨ (heapArena h).Has x → m x = s.mmu.mem x) →
      HeapsStep s .other { s with mmu := { s.mmu with mem := m } }

/-- The heaps when `initializeHeap` has made the first one. -/
def bootHeaps (kernelHeap : ℕ) (mmu : MMU) : Heaps where
  mmu := (initializeHeap kernelHeap mmu).2
  currentHeap := (initializeHeap kernelHeap mmu).1
  heaps := [(kernelHeap, (Heap.new 0x10000 mmu).1)]
  live _ := []

/-- The condition on each call of `new`, that of the heap that is current. -/
def HeapsOp.Sound (s : Heaps) : HeapsOp → Prop
  | .new size ptr => (HeapOp.malloc size ptr).Sound (Heap.read s.mmu.mem s.currentHeap)
      ⟨s.mmu.mem, s.live s.currentHeap⟩
  | _ => True

/-- A step in which `new` comes to an entry that `malloc` is right to take. -/
def SoundHeapsStep (s : Heaps) (op : HeapsOp) (s' : Heaps) : Prop := HeapsStep s op s' ∧ op.Sound s

/-- What is held lies in the arena that it is from, apart from all else that is held, from the
    objects of the heaps and from their headers; and every call returns. -/
structure Heaps.Safe (s : Heaps) : Prop where
  inside : ∀ h ∈ s.heaps, ∀ p ∈ s.live h.1, Region.Within p (heapArena h)
  disjoint : ∀ h ∈ s.heaps, ∀ h' ∈ s.heaps, ∀ p ∈ s.live h.1, ∀ q ∈ s.live h'.1,
    h ≠ h' ∨ p ≠ q → Region.Apart p q
  objects : ∀ h ∈ s.heaps, ∀ h' ∈ s.heaps, ∀ p ∈ s.live h.1, Region.Apart p (heapObject h')
  headers : ∀ h ∈ s.heaps, ∀ h' ∈ s.heaps, ∀ p ∈ s.live h.1, ∀ e,
    Reach (entryNext s.mmu.mem) h'.2.first e → Region.Apart p (e, 24)
  current : ∃ h ∈ s.heaps, s.currentHeap = h.1 ∧ Heap.read s.mmu.mem s.currentHeap = h.2
  new : ∀ size, ∃ r, Returns (fun n => operatorNew s.currentHeap size s.mmu.mem n) r
  delete : ∀ h ∈ s.heaps, ∀ p ∈ s.live h.1, ∃ m,
    Returns (fun n => operatorDelete s.currentHeap p.1 s.mmu.mem n) m

/-! ## One heap -/

section

variable {h : Heap} {m : Mem} {s : HeapState} {bs : List Block} {p : ℕ × ℕ} {size ptr x : ℕ}

/-- A heap depends on the bytes of its arena only. -/
theorem Heap.Holds.congr (hI : h.Holds bs s) (hm : ∀ x, h.first ≤ x → x < h.first + h.size →
    m x = s.mem x) : h.Holds bs ⟨m, s.live⟩ where
  seg := hI.seg.congr_of_mem fun x hx hx' => hm x hx (hI.tiles ▸ hx')
  ne_nil := hI.ne_nil
  tiles := hI.tiles
  used := hI.used
  nodup := hI.nodup

theorem Heap.Fresh.congr {pre : List Block} {k r : ℕ} (hF : h.Fresh pre k r s)
    (hm : ∀ x, h.first ≤ x → x < h.first + h.size → m x = s.mem x) :
    h.Fresh pre k r ⟨m, s.live⟩ where
  holds := hF.holds.congr hm
  used := hF.used
  recorded := by
    have htiles := hF.holds.tiles
    simp only [extent_append, extent_cons, extent_nil] at htiles
    rw [← hF.recorded]
    exact Mem.get64_congr fun x hx hx' => hm x (by omega) (by omega)

theorem split_of_not_mem {entry size : ℕ} (hentry : ¬(entry ≤ x ∧ x < entry + 24))
    (hnext : ¬(wrap (entry + size + 24) ≤ x ∧ x < wrap (entry + size + 24) + 24)) :
    Heap.split entry size m x = m x := by
  rw [Heap.split, setEntryFree_of_not_mem hentry, setEntrySize_of_not_mem hentry,
    setEntryNext_of_not_mem hentry, setEntrySize_of_not_mem hnext, setEntryNext_of_not_mem hnext,
    setEntryFree_of_not_mem hnext]

/-- A sound call of `malloc` changes nothing outside of the arena. -/
theorem malloc_outside (hI : h.Holds bs s) (hfirst : h.first + h.size ≤ 2 ^ 64)
    (hr : Returns (fun n => h.malloc size s.mem n) (ptr, m))
    (hsound : (HeapOp.malloc size ptr).Sound h s) (hx : ¬(h.first ≤ x ∧ x < h.first + h.size)) :
    m x = s.mem x := by
  by_cases hsize : size = 0
  · simp only [Heap.malloc, if_pos hsize] at hr
    obtain ⟨rfl, rfl⟩ := Prod.mk.inj (hr.unique (.pure _))
    rfl
  · obtain ⟨pre, b, post, rfl, hpre, hb, hreturns⟩ :=
      search_spec size hI.seg hI.ne_nil (hI.tiles ▸ hfirst)
    simp only [Heap.malloc, if_neg hsize] at hr
    have htake := hr.unique (hreturns.bind (.pure _))
    have he := hsound.resolve_left hsize _ (firstFit_of_blocks hI.seg hpre hb)
    obtain ⟨-, hhead, -⟩ := Seg.middle_iff.1 hI.seg
    have htiles := hI.tiles
    rw [extent_append, extent_cons] at htiles
    generalize he' : h.first + extent pre = e at *
    have hentry : ¬(e ≤ x ∧ x < e + 24) := by omega
    rw [Heap.take] at htake
    split_ifs at htake with hexact hsplit
    · rw [(Prod.mk.inj htake).2]
      exact setEntryFree_of_not_mem hentry
    · -- The entry that is split off lies in the arena, too.
      rw [(Prod.mk.inj htake).2]
      have hend : e + size + 24 + 24 ≤ h.first + h.size := by
        rcases he with ⟨_, hwrap⟩ | ⟨_, _, hroom⟩
        · omega
        · by_cases hnext : entryNext s.mem e = 0
          · rw [if_pos hnext, if_neg (by omega)] at hroom
            omega
          · rw [if_neg hnext] at hroom
            have hbsize := hhead.size (.inl (hhead.next ▸ hnext))
            have := hroom.resolve_left (by omega)
            omega
      refine split_of_not_mem hentry ?_
      rw [wrap_of_lt (by omega)]
      omega
    · rw [(Prod.mk.inj htake).2]

/-- The entry of an allocation marked as free. -/
theorem exists_holds_marked (hI : h.Holds bs s) (hp : p ∈ s.live) : ∃ bs,
    h.Holds bs ⟨setEntryFree s.mem (p.1 - 24) true, s.live.erase p⟩ := by
  obtain ⟨k, hk, hpos, hle⟩ := hI.used p hp
  obtain ⟨pre, b, post, rfl, hb, hpk⟩ := exists_of_mem_used hk
  obtain ⟨hptr, rfl⟩ := Prod.mk.inj hpk
  have hentry : p.1 - 24 = h.first + extent pre := by omega
  obtain ⟨-, hhead, -⟩ := Seg.middle_iff.1 hI.seg
  have htiles := hI.tiles
  rw [extent_append, extent_cons] at htiles
  refine ⟨pre ++ ([⟨b.size, true⟩] ++ post), ?_, by simp, ?_, fun q hq => ?_, ?_⟩
  · refine hI.seg.replace (List.cons_ne_nil _ _) (Nat.add_zero _)
      (fun x hx => setEntryFree_of_not_mem (by omega)) ⟨?_, trivial⟩
    rw [hentry]
    exact hhead.setFree
  · rw [← htiles]
    simp
  · have hnodup := hI.nodup.of_map Prod.fst
    obtain ⟨hne, hq⟩ := hnodup.mem_erase_iff.1 hq
    obtain ⟨l, hl, hle'⟩ := hI.used q hq
    have hptr' : q.1 ≠ p.1 := fun heq => hne (List.inj_on_of_nodup_map hI.nodup hq hp heq)
    refine ⟨l, ?_, hle'⟩
    rw [List.singleton_append, used_freed hb, ← hptr]
    exact List.mem_filter.2 ⟨hl, decide_eq_true hptr'⟩
  · exact hI.nodup.sublist (List.erase_sublist.map _)

/-- Free entries merged: nothing changes outside of the arena, or that is held. -/
theorem exists_holds_clean (hI : h.Holds bs s) (hfirst : h.first + h.size ≤ 2 ^ 64) :
    ∃ m bs, Returns (fun n => h.clean s.mem n) m ∧ h.Holds bs ⟨m, s.live⟩ ∧
      ∀ x, ¬(h.first ≤ x ∧ x < h.first + h.size) → m x = s.mem x := by
  obtain ⟨m, hreturns, hclean⟩ := clean_spec hI.seg hI.ne_nil (hI.tiles ▸ hfirst)
  refine ⟨m, _, hreturns, ⟨hclean.seg, pass_ne_nil hI.ne_nil, extent_pass.trans hI.tiles, ?_,
    hI.nodup⟩, fun x hx => hclean.outside x (hI.tiles ▸ hx)⟩
  rw [used_pass]
  exact hI.used

end

/-! ## The invariant -/

/-- Two heaps lie apart, with their objects. -/
structure HeapsApart (h h' : ℕ × Heap) : Prop where
  objects : (heapObject h).Apart (heapObject h')
  objectArena : (heapObject h).Apart (heapArena h')
  arenaObject : (heapArena h).Apart (heapObject h')
  arenas : (heapArena h).Apart (heapArena h')

theorem HeapsApart.symm {h h' : ℕ × Heap} (hd : HeapsApart h h') : HeapsApart h' h :=
  ⟨hd.objects.symm, hd.arenaObject.symm, hd.objectArena.symm, hd.arenas.symm⟩

/-- The heaps lie apart, below what the bump allocator hands out next, and each of them is as it has
    to be. -/
structure Heaps.Inv (s : Heaps) : Prop where
  bound : s.mmu.kmallocAddr ≤ 2 ^ 64
  apart : s.heaps.Pairwise HeapsApart
  self : ∀ h ∈ s.heaps, (heapObject h).Apart (heapArena h)
  below : ∀ h ∈ s.heaps,
    h.1 + 16 ≤ s.mmu.kmallocAddr ∧ h.2.first + h.2.size ≤ s.mmu.kmallocAddr
  read : ∀ h ∈ s.heaps, Heap.read s.mmu.mem h.1 = h.2
  holds : ∀ h ∈ s.heaps, ∃ bs, h.2.Holds bs ⟨s.mmu.mem, s.live h.1⟩
  empty : ∀ a, (∀ h ∈ s.heaps, h.1 ≠ a) → s.live a = []
  current : ∃ h ∈ s.heaps, h.1 = s.currentHeap

variable {s s' : Heaps} {g h h' : ℕ × Heap} {m : Mem} {live : ℕ → List (ℕ × ℕ)} {bs : List Block}
  {mmu : MMU} {a size ptr kernelHeap : ℕ} {p : ℕ × ℕ} {op : HeapsOp} {ops : List HeapsOp}

theorem Heap.read_congr (hm : ∀ x, (heapObject h).Has x → m x = s.mmu.mem x) :
    Heap.read m h.1 = Heap.read s.mmu.mem h.1 := by
  have hfirst : m.get64 h.1 = s.mmu.mem.get64 h.1 := Mem.get64_congr fun x hx hx' => hm x
    ⟨hx, show x < h.1 + 16 by omega⟩
  have hsize : m.get64 (h.1 + 8) = s.mmu.mem.get64 (h.1 + 8) := Mem.get64_congr fun x hx hx' =>
    hm x ⟨show h.1 ≤ x by omega, show x < h.1 + 16 by omega⟩
  rw [Heap.read, Heap.read, hfirst, hsize]

theorem Heaps.Inv.apart_of_ne (hI : s.Inv) (hh : h ∈ s.heaps) (hg : g ∈ s.heaps) (hne : h ≠ g) :
    HeapsApart h g := by
  have : Std.Symm HeapsApart := ⟨fun _ _ => HeapsApart.symm⟩
  exact hI.apart.forall hh hg hne

/-- Heaps have different objects. -/
theorem Heaps.Inv.eq_of_object (hI : s.Inv) (hh : h ∈ s.heaps) (hg : g ∈ s.heaps)
    (heq : h.1 = g.1) : h = g := by
  by_contra hne
  have := (hI.apart_of_ne hh hg hne).objects
  simp only [Region.Apart, heapObject, heq] at this
  omega

/-- The memory of one heap changes, and what is held of it. -/
theorem Heaps.Inv.update (hI : s.Inv) (hg : g ∈ s.heaps)
    (hm : ∀ x, ¬(g.2.first ≤ x ∧ x < g.2.first + g.2.size) → m x = s.mmu.mem x)
    (hholds : ∃ bs, g.2.Holds bs ⟨m, live g.1⟩) (hlive : ∀ a ≠ g.1, live a = s.live a) :
    Heaps.Inv { s with mmu := { s.mmu with mem := m }, live := live } where
  bound := hI.bound
  apart := hI.apart
  self := hI.self
  below := hI.below
  read h hh := by
    rw [← hI.read h hh]
    refine Heap.read_congr fun x hx => hm x ?_
    by_cases heq : h = g
    · subst heq
      exact (hI.self h hh).not_has hx
    · exact (hI.apart_of_ne hh hg heq).objectArena.not_has hx
  holds h hh := by
    by_cases heq : h = g
    · subst heq
      exact hholds
    · obtain ⟨cs, hcs⟩ := hI.holds h hh
      have hne : h.1 ≠ g.1 := fun h1 => heq (hI.eq_of_object hh hg h1)
      refine ⟨cs, ?_⟩
      dsimp only
      rw [hlive h.1 hne]
      exact hcs.congr fun x hx hx' => hm x
        ((hI.apart_of_ne hh hg heq).arenas.not_has (x := x) ⟨hx, hx'⟩)
  empty a ha := (hlive a fun heq => ha g hg heq.symm).trans (hI.empty a ha)
  current := hI.current

/-- The heap that is current. -/
theorem Heaps.Inv.read_current (hI : s.Inv) : ∃ g ∈ s.heaps, g.1 = s.currentHeap ∧
    Heap.read s.mmu.mem s.currentHeap = g.2 ∧ g.2.first + g.2.size ≤ 2 ^ 64 := by
  obtain ⟨g, hg, heq⟩ := hI.current
  exact ⟨g, hg, heq, heq ▸ hI.read g hg, (hI.below g hg).2.trans hI.bound⟩

/-! ## The operations keep it -/

theorem Heaps.Inv.new (hI : s.Inv)
    (hr : Returns (fun n => operatorNew s.currentHeap size s.mmu.mem n) (ptr, m))
    (hsound : (HeapsOp.new size ptr).Sound s) :
    Heaps.Inv { s with
      mmu := { s.mmu with mem := m }
      live := if ptr = 0 then s.live else
        Function.update s.live s.currentHeap ((ptr, size) :: s.live s.currentHeap) } := by
  obtain ⟨g, hg, heq, hread, hfirst⟩ := hI.read_current
  obtain ⟨bs, hbs⟩ := hI.holds g hg
  simp only [operatorNew, hread] at hr
  rw [HeapsOp.Sound, hread] at hsound
  rw [heq] at hbs
  obtain ⟨cs, hcs⟩ := holds_malloc hbs hfirst hr hsound
  refine hI.update hg (fun x hx => malloc_outside hbs hfirst hr hsound hx) ?_ fun a ha => ?_
  · refine ⟨cs, ?_⟩
    rw [heq]
    split_ifs at hcs ⊢
    · exact hcs
    · rw [Function.update_self]
      exact hcs
  · split_ifs
    · rfl
    · exact Function.update_of_ne (heq ▸ ha) _ _

/-- What is given back need not be of the current heap. -/
theorem Heaps.Inv.delete (hI : s.Inv) (hh : h ∈ s.heaps) (hp : p ∈ s.live h.1) : ∃ m,
    Returns (fun n => operatorDelete s.currentHeap p.1 s.mmu.mem n) m ∧
    Heaps.Inv { s with
      mmu := { s.mmu with mem := m }
      live := Function.update s.live h.1 ((s.live h.1).erase p) } := by
  obtain ⟨g, hg, heq, hread, hfirst⟩ := hI.read_current
  obtain ⟨bs, hbs⟩ := hI.holds h hh
  have hinside := hbs.safe.inside p hp
  have hbelow := (hI.below h hh).2.trans hI.bound
  obtain ⟨k, hk, hpos, hle⟩ := hbs.used p hp
  have hheader := mem_used hk
  dsimp only at hheader
  -- The entry is marked in the heap that the allocation is from,
  obtain ⟨cs, hcs⟩ := exists_holds_marked hbs hp
  obtain ⟨m₁, hm₁⟩ : ∃ m₁, m₁ = setEntryFree s.mmu.mem (p.1 - 24) true := ⟨_, rfl⟩
  obtain ⟨live, hlive⟩ : ∃ live, live = Function.update s.live h.1 ((s.live h.1).erase p) :=
    ⟨_, rfl⟩
  rw [← hm₁] at hcs
  rw [← hlive]
  have hI₁ : Heaps.Inv { s with mmu := { s.mmu with mem := m₁ }, live := live } := hI.update hh
    (fun x hx => hm₁ ▸ setEntryFree_of_not_mem (by omega))
    ⟨cs, by rw [hlive, Function.update_self]; exact hcs⟩
    fun a ha => hlive ▸ Function.update_of_ne ha _ _
  -- and the entries of the current heap are merged.
  obtain ⟨ds, hds⟩ := hI₁.holds g hg
  obtain ⟨m₂, es, hreturns, hes, houtside⟩ := exists_holds_clean hds hfirst
  refine ⟨m₂, ?_, hI₁.update hg houtside ⟨es, hes⟩ fun _ _ => rfl⟩
  have hentry : wrapSub p.1 24 = p.1 - 24 := wrapSub_of_le (by omega) (by omega)
  simp only [operatorDelete, hread, Heap.free, hentry, ← hm₁]
  exact hreturns

theorem Heaps.Inv.write (hI : s.Inv) (hh : h ∈ s.heaps) (hp : p ∈ s.live h.1)
    (hm : ∀ x, ¬Region.Has p x → m x = s.mmu.mem x) :
    Heaps.Inv { s with mmu := { s.mmu with mem := m } } := by
  obtain ⟨bs, hbs⟩ := hI.holds h hh
  have hinside := hbs.safe.inside p hp
  refine hI.update hh (fun x hx => hm x fun hhas => hx ?_) ⟨bs, holds_write hbs hp hm⟩
    fun _ _ => rfl
  exact ⟨hinside.1.trans hhas.1, hhas.2.trans_le hinside.2⟩

theorem Heaps.Inv.other (hI : s.Inv)
    (hm : ∀ h ∈ s.heaps, ∀ x, (heapObject h).Has x ∨ (heapArena h).Has x → m x = s.mmu.mem x) :
    Heaps.Inv { s with mmu := { s.mmu with mem := m } } where
  bound := hI.bound
  apart := hI.apart
  self := hI.self
  below := hI.below
  read h hh := by
    rw [← hI.read h hh]
    exact Heap.read_congr fun x hx => hm h hh x (.inl hx)
  holds h hh := by
    obtain ⟨bs, hbs⟩ := hI.holds h hh
    exact ⟨bs, hbs.congr fun x hx hx' => hm h hh x (.inr ⟨hx, hx'⟩)⟩
  empty := hI.empty
  current := hI.current

/-- The bump allocator hands out memory above all heaps. -/
theorem Heaps.Inv.kmalloc {addr : ℕ} (hI : s.Inv) (hle : s.mmu.kmallocAddr ≤ addr)
    (hbound : addr ≤ 2 ^ 64) :
    Heaps.Inv { s with mmu := { s.mmu with kmallocAddr := addr } } where
  bound := hbound
  apart := hI.apart
  self := hI.self
  below h hh := ⟨(hI.below h hh).1.trans hle, (hI.below h hh).2.trans hle⟩
  read := hI.read
  holds := hI.holds
  empty := hI.empty
  current := hI.current

theorem Heaps.Inv.setCurrentHeap (hI : s.Inv) (hh : h ∈ s.heaps) :
    Heaps.Inv { s with currentHeap := h.1 } :=
  { hI with current := ⟨h, hh, rfl⟩ }

/-! ## New heaps -/

/-- A heap just made, whose object is stored at `a`. -/
theorem fresh_stored (hbound : mmu.kmallocAddr + 0x10000 ≤ 2 ^ 64) (ha : a + 16 ≤ mmu.kmallocAddr)
    (hm : m = ((Heap.new 0x10000 mmu).2.mem.set64 a (Heap.new 0x10000 mmu).1.first).set64 (a + 8)
      (Heap.new 0x10000 mmu).1.size) :
    (Heap.new 0x10000 mmu).1 = ⟨mmu.kmallocAddr, 0x10000⟩ ∧
      Heap.read m a = (Heap.new 0x10000 mmu).1 ∧
      (Heap.new 0x10000 mmu).1.Fresh [] (0x10000 - 24) (0x10000 - 24) ⟨m, []⟩ ∧
      ∀ x < mmu.kmallocAddr, ¬(a ≤ x ∧ x < a + 16) → m x = mmu.mem x := by
  have hfirst : (Heap.new 0x10000 mmu).1 = ⟨mmu.kmallocAddr, 0x10000⟩ := by
    simp only [Heap.new, kmalloc, wrap_of_lt (show mmu.kmallocAddr < 2 ^ 64 by omega)]
  have hfresh := fresh_new (n := 0x10000) (by decide) (by decide) hbound
  rw [hfirst] at hm hfresh ⊢
  dsimp only at hm
  have hframe (x : ℕ) (hx : ¬(a ≤ x ∧ x < a + 16)) : m x = (Heap.new 0x10000 mmu).2.mem x := by
    rw [hm, Mem.set64_of_not_mem (by omega), Mem.set64_of_not_mem (by omega)]
  refine ⟨rfl, ?_, hfresh.congr fun x hx _ => hframe x (by dsimp only at hx; omega),
    fun x hx hx' => ?_⟩
  · rw [Heap.read, hm, Mem.get64_set64_of_disjoint (.inr le_rfl), Mem.get64_set64 (by omega),
      Mem.get64_set64 (by decide)]
  · rw [hframe x hx', Heap.new, kmalloc]
    have hentry : ¬(mmu.kmallocAddr ≤ x ∧ x < mmu.kmallocAddr + 24) := by omega
    simp only [wrap_of_lt (show mmu.kmallocAddr < 2 ^ 64 by omega),
      setEntryNext_of_not_mem hentry, setEntrySize_of_not_mem hentry,
      setEntryFree_of_not_mem hentry]

/-- A heap above all others. -/
theorem Heaps.Inv.snoc (hI : s.Inv) (mmu : MMU)
    (ha : s.mmu.kmallocAddr ≤ a ∧ a + 16 ≤ mmu.kmallocAddr)
    (hbound : mmu.kmallocAddr + 0x10000 ≤ 2 ^ 64) (hmem : mmu.mem = s.mmu.mem)
    (hm : m = ((Heap.new 0x10000 mmu).2.mem.set64 a (Heap.new 0x10000 mmu).1.first).set64 (a + 8)
      (Heap.new 0x10000 mmu).1.size) :
    Heaps.Inv ⟨{ (Heap.new 0x10000 mmu).2 with mem := m }, s.currentHeap,
      (a, (Heap.new 0x10000 mmu).1) :: s.heaps, s.live⟩ := by
  obtain ⟨hnew, hread, hfresh, hframe⟩ := fresh_stored hbound ha.2 hm
  have haddr : (Heap.new 0x10000 mmu).2.kmallocAddr = mmu.kmallocAddr + 0x10000 := rfl
  rw [hmem] at hframe
  have hne : ∀ h ∈ s.heaps, h.1 ≠ a := fun h hh => by
    have := hI.below h hh
    omega
  have hframe' : ∀ h ∈ s.heaps, ∀ x, (heapObject h).Has x ∨ (heapArena h).Has x →
      m x = s.mmu.mem x := fun h hh x hx => by
    have := hI.below h hh
    have hlt : x < s.mmu.kmallocAddr := by
      rcases hx with ⟨-, hx⟩ | ⟨-, hx⟩ <;> simp only [heapObject, heapArena] at hx <;> omega
    exact hframe x (by omega) (by omega)
  rw [hnew] at hread hfresh ⊢
  refine ⟨hbound, List.pairwise_cons.2 ⟨fun h hh => ?_, hI.apart⟩, ?_, ?_, ?_, ?_, ?_, ?_⟩
  · have := hI.below h hh
    refine ⟨.inr ?_, .inr ?_, .inr ?_, .inr ?_⟩ <;>
      simp only [heapObject, heapArena] <;> omega
  all_goals simp only [List.forall_mem_cons]
  · exact ⟨.inl ha.2, hI.self⟩
  · refine ⟨⟨by omega, by omega⟩, fun h hh => ?_⟩
    have := hI.below h hh
    exact ⟨by omega, by omega⟩
  · refine ⟨hread, fun h hh => ?_⟩
    rw [← hI.read h hh]
    exact Heap.read_congr fun x hx => hframe' h hh x (.inl hx)
  · refine ⟨?_, fun h hh => ?_⟩
    · rw [hI.empty a hne]
      exact ⟨_, hfresh.holds⟩
    · obtain ⟨bs, hbs⟩ := hI.holds h hh
      exact ⟨bs, hbs.congr fun x hx hx' => hframe' h hh x (.inr ⟨hx, hx'⟩)⟩
  · exact fun b hb => hI.empty b hb.2
  · obtain ⟨g, hg, heq⟩ := hI.current
    exact ⟨g, List.mem_cons_of_mem _ hg, heq⟩

theorem newHeap_snd (hbound : mmu.kmallocAddr < 2 ^ 64) :
    (newHeap mmu).2 = { (Heap.new 0x10000 (kmalloc 16 mmu).2).2 with
      mem := ((Heap.new 0x10000 (kmalloc 16 mmu).2).2.mem.set64 mmu.kmallocAddr
        (Heap.new 0x10000 (kmalloc 16 mmu).2).1.first).set64 (mmu.kmallocAddr + 8)
          (Heap.new 0x10000 (kmalloc 16 mmu).2).1.size } := by
  simp only [newHeap, kmalloc, wrap_of_lt hbound]

theorem Heaps.Inv.newHeap (hI : s.Inv) (hbound : s.mmu.kmallocAddr + 16 + 0x10000 ≤ 2 ^ 64) :
    Heaps.Inv { s with
      mmu := (SmartOS.newHeap s.mmu).2
      heaps := ((SmartOS.newHeap s.mmu).1, (Heap.new 0x10000 (SmartOS.kmalloc 16 s.mmu).2).1) ::
        s.heaps } := by
  have hfirst : (SmartOS.newHeap s.mmu).1 = s.mmu.kmallocAddr :=
    wrap_of_lt (by omega : s.mmu.kmallocAddr < 2 ^ 64)
  have hI' := hI.snoc (SmartOS.kmalloc 16 s.mmu).2 ⟨le_rfl, le_rfl⟩ hbound rfl rfl
  rw [hfirst]
  rw [newHeap_snd (by omega)]
  exact hI'

theorem inv_bootHeaps (hkernel : kernelHeap + 16 ≤ mmu.kmallocAddr)
    (hbound : mmu.kmallocAddr + 0x10000 ≤ 2 ^ 64) : (bootHeaps kernelHeap mmu).Inv := by
  obtain ⟨hnew, hread, hfresh, -⟩ := fresh_stored hbound hkernel rfl
  have hlast : (Heap.new 0x10000 mmu).2.kmallocAddr = mmu.kmallocAddr + 0x10000 := rfl
  refine ⟨hbound, List.pairwise_singleton _ _, ?_, ?_, ?_, ?_, fun _ _ => rfl, ?_⟩
  all_goals simp only [bootHeaps, List.forall_mem_cons, List.not_mem_nil, false_imp_iff,
    implies_true, and_true]
  · rw [hnew]
    exact .inl hkernel
  · rw [hnew]
    exact ⟨hkernel.trans (Nat.le_add_right _ _), le_rfl⟩
  · exact hread
  · exact ⟨_, hfresh.holds⟩
  · exact ⟨_, List.mem_singleton_self _, rfl⟩

/-! ## Runs -/

theorem Heaps.Inv.step (hI : s.Inv) (hs : SoundHeapsStep s op s') : s'.Inv := by
  obtain ⟨hs, hsound⟩ := hs
  cases hs with
  | newHeap hbound => exact hI.newHeap hbound
  | kmalloc hbound => exact hI.kmalloc (Nat.le_add_right _ _) hbound
  | kmallocA hbound =>
    exact hI.kmalloc ((pageAlign_spec _).2.1.trans (Nat.le_add_right _ _)) hbound
  | setCurrentHeap hh => exact hI.setCurrentHeap hh
  | new hr => exact hI.new hr hsound
  | delete hh hp hr =>
    obtain ⟨m, hreturns, hI'⟩ := hI.delete hh hp
    rwa [hr.unique hreturns]
  | write hh hp hm => exact hI.write hh hp hm
  | other hm => exact hI.other hm

theorem Heaps.Inv.within (hI : s.Inv) (hh : h ∈ s.heaps) (hp : p ∈ s.live h.1) :
    Region.Within p (heapArena h) := by
  obtain ⟨bs, hbs⟩ := hI.holds h hh
  exact hbs.safe.inside p hp

/-- Entries lie in the arena of their heap. -/
theorem Heaps.Inv.header_within (hI : s.Inv) (hh : h ∈ s.heaps) {e : ℕ}
    (he : Reach (entryNext s.mmu.mem) h.2.first e) : Region.Within (e, 24) (heapArena h) := by
  obtain ⟨bs, hbs⟩ := hI.holds h hh
  have hmem := mem_headers ((hbs.seg.linked hbs.ne_nil).mem_of_reach he)
  rw [hbs.tiles] at hmem
  exact hmem

theorem Heaps.Inv.safe (hI : s.Inv) : s.Safe where
  inside h hh p hp := hI.within hh hp
  disjoint h hh h' hh' p hp q hq hne := by
    by_cases heq : h = h'
    · subst heq
      obtain ⟨bs, hbs⟩ := hI.holds h hh
      have : Std.Symm fun p q : ℕ × ℕ => p.1 + p.2 ≤ q.1 ∨ q.1 + q.2 ≤ p.1 := ⟨fun _ _ => Or.symm⟩
      exact hbs.safe.disjoint.forall hp hq (hne.resolve_left fun h => h rfl)
    · exact (hI.apart_of_ne hh hh' heq).arenas.within (hI.within hh hp) (hI.within hh' hq)
  objects h hh h' hh' p hp := by
    have hobject : (heapArena h).Apart (heapObject h') := by
      by_cases heq : h = h'
      · exact heq ▸ (hI.self h hh).symm
      · exact (hI.apart_of_ne hh hh' heq).arenaObject
    exact hobject.within (hI.within hh hp) ⟨le_rfl, le_rfl⟩
  headers h hh h' hh' p hp e he := by
    by_cases heq : h = h'
    · subst heq
      obtain ⟨bs, hbs⟩ := hI.holds h hh
      exact (hbs.safe.headers p hp e he).symm
    · exact (hI.apart_of_ne hh hh' heq).arenas.within (hI.within hh hp) (hI.header_within hh' he)
  current := by
    obtain ⟨g, hg, heq, hread, -⟩ := hI.read_current
    exact ⟨g, hg, heq.symm, hread⟩
  new size := by
    obtain ⟨g, hg, -, hread, hfirst⟩ := hI.read_current
    obtain ⟨bs, hbs⟩ := hI.holds g hg
    simp only [operatorNew, hread]
    exact @exists_malloc g.2 size bs ⟨s.mmu.mem, s.live g.1⟩ hbs hfirst
  delete h hh p hp := by
    obtain ⟨m, hreturns, -⟩ := hI.delete hh hp
    exact ⟨m, hreturns⟩

/-- In every run in which `new` is only called where `malloc` is sound, however the current heap
    changes, everything that is held is safe, and every call returns. -/
theorem heaps_safe_of_run (hkernel : kernelHeap + 16 ≤ mmu.kmallocAddr)
    (hbound : mmu.kmallocAddr + 0x10000 ≤ 2 ^ 64)
    (hr : Run SoundHeapsStep (bootHeaps kernelHeap mmu) ops s) : s.Safe :=
  (hr.invariant Heaps.Inv (inv_bootHeaps hkernel hbound) fun _ _ _ hI hs => hI.step hs).safe

/-- A heap of which only the last block is free, whose entry records a size of `r`. -/
def Heaps.FreshAt (s : Heaps) (g : ℕ × Heap) (pre : List Block) (k r : ℕ) : Prop :=
  g ∈ s.heaps ∧ g.2.Fresh pre k r ⟨s.mmu.mem, s.live g.1⟩

/-- An allocation from a heap from which nothing has been freed. -/
theorem Heaps.Inv.exists_new {pre : List Block} {k r : ℕ} (size ptr : ℕ) (hI : s.Inv)
    (hF : s.FreshAt g pre k r) (hcurrent : s.currentHeap = g.1) (hsize : size ≠ 0)
    (hroom : size + 24 ≤ k) (hr : size + 24 < r) (hptr : g.2.first + extent pre + 24 = ptr) :
    ∃ s', SoundHeapsStep s (.new size ptr) s' ∧ s'.currentHeap = g.1 ∧ s'.heaps = s.heaps ∧
      s'.live = Function.update s.live g.1 ((ptr, size) :: s.live g.1) ∧
      s'.mmu.kmallocAddr = s.mmu.kmallocAddr ∧
      s'.FreshAt g (pre ++ [⟨size, false⟩]) (k - size - 24) (wrapSub size (wrap (r + 24))) := by
  obtain ⟨hg, hF⟩ := hF
  have hread : Heap.read s.mmu.mem s.currentHeap = g.2 := hcurrent ▸ hI.read g hg
  obtain ⟨m, hreturns, hsound, hF'⟩ :=
    hF.malloc size ptr ((hI.below g hg).2.trans hI.bound) hsize hroom hr hptr
  have hstep := HeapsStep.new (s := s) (by simpa only [operatorNew, hread] using hreturns)
  rw [if_neg (by omega), hcurrent] at hstep
  refine ⟨_, ⟨hstep, by rwa [HeapsOp.Sound, hread, hcurrent]⟩, rfl, rfl, rfl, rfl, hg, ?_⟩
  dsimp only
  rwa [Function.update_self]

/-- A heap just made. -/
theorem Heaps.Inv.exists_newHeap (heap : ℕ) (hI : s.Inv) (haddr : s.mmu.kmallocAddr = heap)
    (hbound : heap + 16 + 0x10000 ≤ 2 ^ 64) :
    ∃ s', SoundHeapsStep s (.newHeap heap) s' ∧
      s'.heaps = (heap, ⟨heap + 16, 0x10000⟩) :: s.heaps ∧ s'.live = s.live ∧
      s'.FreshAt (heap, ⟨heap + 16, 0x10000⟩) [] (0x10000 - 24) (0x10000 - 24) := by
  subst haddr
  have hfirst : (SmartOS.newHeap s.mmu).1 = s.mmu.kmallocAddr := wrap_of_lt (by omega)
  have hstep := HeapsStep.newHeap hbound
  obtain ⟨hnew, -, hF, -⟩ := @fresh_stored _ (SmartOS.kmalloc 16 s.mmu).2 _ hbound le_rfl rfl
  have hempty := hI.empty s.mmu.kmallocAddr fun h hh => by
    have := hI.below h hh
    omega
  rw [hfirst, hnew, newHeap_snd (by omega)] at hstep
  rw [hnew] at hF
  refine ⟨_, ⟨hstep, trivial⟩, rfl, rfl, List.mem_cons_self, ?_⟩
  dsimp only
  rwa [hempty, hnew]

/-- Two allocations from the heap of the kernel and one from that of a thread, through which one of
    the others is then given back. -/
theorem heaps_safe_of_run_thread : ∃ s, Run SoundHeapsStep (bootHeaps 0x800 (zeroMMU 0x1000))
      [.new 16 0x1018, .new 16 0x1040, .newHeap 0x11000, .setCurrentHeap 0x11000, .new 32 0x11028,
        .delete 0x800 0x1018] s ∧
    s.live 0x800 = [(0x1040, 16)] ∧ s.live 0x11000 = [(0x11028, 32)] ∧ s.Safe := by
  have hkernel : 0x800 + 16 ≤ (zeroMMU 0x1000).kmallocAddr := by decide
  have hbound : (zeroMMU 0x1000).kmallocAddr + 0x10000 ≤ 2 ^ 64 := by decide
  have hI₀ := inv_bootHeaps hkernel hbound
  obtain ⟨hnew, -, hF₀, -⟩ := fresh_stored hbound hkernel rfl
  have hF₀ : (bootHeaps 0x800 (zeroMMU 0x1000)).FreshAt (0x800, ⟨0x1000, 0x10000⟩) []
      (0x10000 - 24) (0x10000 - 24) := by
    refine ⟨?_, hnew ▸ hF₀⟩
    rw [bootHeaps, hnew]
    exact List.mem_cons_self
  have haddr₀ : (bootHeaps 0x800 (zeroMMU 0x1000)).mmu.kmallocAddr = 0x11000 := rfl
  -- From the heap of the kernel
  obtain ⟨s₁, hs₁, hcurrent₁, -, hlive₁, haddr₁, hF₁⟩ := hI₀.exists_new 16 0x1018 hF₀ rfl
    (by decide) (by decide) (by decide) rfl
  have hI₁ := hI₀.step hs₁
  obtain ⟨s₂, hs₂, -, -, hlive₂, haddr₂, hF₂⟩ := hI₁.exists_new 16 0x1040 hF₁ hcurrent₁
    (by decide) (by decide) (by decide +kernel) rfl
  have hI₂ := hI₁.step hs₂
  -- From that of the thread
  obtain ⟨s₃, hs₃, hheaps₃, hlive₃, hF₃⟩ := hI₂.exists_newHeap 0x11000
    (haddr₂.trans (haddr₁.trans haddr₀)) (by decide)
  have hI₃ := hI₂.step hs₃
  have hs₄ : SoundHeapsStep s₃ (.setCurrentHeap 0x11000) { s₃ with currentHeap := 0x11000 } :=
    ⟨.setCurrentHeap hF₃.1, trivial⟩
  have hI₄ := hI₃.step hs₄
  obtain ⟨s₅, hs₅, -, hheaps₅, hlive₅, -, -⟩ := hI₄.exists_new 32 0x11028 hF₃ rfl (by decide)
    (by decide) (by decide) rfl
  have hI₅ := hI₄.step hs₅
  -- One of the first two is given back.
  have hlive : s₅.live 0x800 = [(0x1040, 16), (0x1018, 16)] ∧
      s₅.live 0x11000 = [(0x11028, 32)] := by
    simp [hlive₅, hlive₃, hlive₂, hlive₁, bootHeaps]
  have hh : (0x800, ⟨0x1000, 0x10000⟩) ∈ s₅.heaps := by
    rw [hheaps₅]
    show _ ∈ s₃.heaps
    rw [hheaps₃]
    exact List.mem_cons_of_mem _ hF₂.1
  have hp : (0x1018, 16) ∈ s₅.live 0x800 := by simp [hlive.1]
  obtain ⟨m, hdelete, -⟩ := hI₅.delete hh hp
  have hr := (((((Run.nil.snoc hs₁).snoc hs₂).snoc hs₃).snoc hs₄).snoc hs₅).snoc
    ⟨.delete hh hp hdelete, trivial⟩
  refine ⟨_, hr, ?_, ?_, heaps_safe_of_run hkernel hbound hr⟩
  · simp [hlive.1]
  · simp [hlive.2]

end SmartOS
