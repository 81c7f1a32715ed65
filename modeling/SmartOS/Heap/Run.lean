import SmartOS.Heap.Operations
import SmartOS.Lib.Linked
import SmartOS.Lib.Run

/-!
# Runs of a heap

A program allocates, frees what it has allocated, and writes to what it has
allocated, in any order (`HeapStep`). What it may rely on (`HeapState.Safe`) is
that the allocations it holds lie in the arena, apart from each other and from
the headers.

`malloc` does not always keep this. It takes the last entry even when that one is
in use, and `split` records a wrong size for what it splits off (the difference
is the wrong way round), so that the entries after it are lost, and the last
entry may be handed out beyond the end of the arena. The theorem is about runs in
which every `malloc` comes to an entry where neither matters (`Heap.Sound`).

* `Heap.Holds` is the invariant: the entries are blocks that tile the arena, and
  each allocation lies in one that is in use;
* `holds_malloc`, `holds_free`, `holds_write`: each operation keeps it;
* `safe_of_run`: so the allocations are safe in every state reached.
-/

namespace SmartOS

open Prog

/-! ## Programs that use a heap -/

/-- What a program does with a heap, with the pointer that `malloc` returns. -/
inductive HeapOp
  | malloc (size ptr : ℕ)
  | free (ptr : ℕ)
  | write (ptr : ℕ)
  deriving Repr, DecidableEq

/-- The memory, and the allocations that the program holds: their addresses, and the sizes it asked
    for. -/
structure HeapState where
  mem : Mem
  live : List (ℕ × ℕ)

/-- A program that uses a heap. It frees, and writes to, what it holds. -/
inductive HeapStep (h : Heap) (s : HeapState) : HeapOp → HeapState → Prop
  | malloc {size ptr : ℕ} {m : Mem} : Returns (h.malloc size s.mem) (ptr, m) →
      HeapStep h s (.malloc size ptr) ⟨m, if ptr = 0 then s.live else (ptr, size) :: s.live⟩
  | free {p : ℕ × ℕ} {m : Mem} : p ∈ s.live → Returns (h.free p.1 s.mem) m →
      HeapStep h s (.free p.1) ⟨m, s.live.erase p⟩
  | write {p : ℕ × ℕ} {m : Mem} : p ∈ s.live →
      (∀ x, ¬(p.1 ≤ x ∧ x < p.1 + p.2) → m x = s.mem x) → HeapStep h s (.write p.1) ⟨m, s.live⟩

/-- The allocations lie in the arena, apart from each other and from the headers. -/
structure HeapState.Safe (h : Heap) (s : HeapState) : Prop where
  inside : ∀ p ∈ s.live, h.first ≤ p.1 ∧ p.1 + p.2 ≤ h.first + h.size
  disjoint : s.live.Pairwise fun p q => p.1 + p.2 ≤ q.1 ∨ q.1 + q.2 ≤ p.1
  headers : ∀ p ∈ s.live, ∀ e, Reach (entryNext s.mem) h.first e → e + 24 ≤ p.1 ∨ p.1 + p.2 ≤ e

/-! ## When `malloc` is sound -/

/-- A first fit of `size` bytes, from an entry on, ends at an entry: the first that is free and
    large enough, or the last. -/
inductive FirstFit (m : Mem) (size : ℕ) : ℕ → ℕ → Prop
  | here {e : ℕ} : (entryFree m e = true ∧ size ≤ entrySize m e) ∨ entryNext m e = 0 →
      FirstFit m size e e
  | next {e e' : ℕ} : ¬(entryFree m e = true ∧ size ≤ entrySize m e) → entryNext m e ≠ 0 →
      FirstFit m size (entryNext m e) e' → FirstFit m size e e'

/-- Asked for `size` bytes, `malloc` is right to give up at the entry `e`, or to take it: it is free
    and, if it has to be split and others follow, is so by a size that `split` gets right; if it is
    the last one, the arena has room for what is taken. -/
def Heap.Sound (h : Heap) (m : Mem) (size e : ℕ) : Prop :=
  (entrySize m e < size ∧ entrySize m e ≤ wrap (size + 24)) ∨
    (entryFree m e = true ∧ size ≤ entrySize m e ∧
      if entryNext m e = 0 then
        e + 24 + size + (if entrySize m e ≤ wrap (size + 24) then 0 else 24) ≤ h.first + h.size
      else entrySize m e ≤ wrap (size + 24) ∨ entrySize m e = size + 2 ^ 63)

/-- The condition on each call. -/
def HeapOp.Sound (h : Heap) (s : HeapState) : HeapOp → Prop
  | .malloc size _ => size = 0 ∨ ∀ e, FirstFit s.mem size h.first e → h.Sound s.mem size e
  | _ => True

/-! ## The invariant -/

variable {trust : Prop} {h : Heap} {m m' : Mem} {a e last size k : ℕ} {p q : ℕ × ℕ}
  {b : Block} {bs cs pre post : List Block} {s s' : HeapState}

/-- Two payloads in use lie apart. -/
theorem used_disjoint (hp : p ∈ used a bs) (hq : q ∈ used a bs) (hne : p.1 ≠ q.1) :
    p.1 + p.2 ≤ q.1 ∨ q.1 + q.2 ≤ p.1 := by
  have hpair : (used a bs).Pairwise fun p q => p.1 + p.2 ≤ q.1 ∨ q.1 + q.2 ≤ p.1 :=
    used_pairwise.imp fun h => .inl (by omega)
  have : Std.Symm fun p q : ℕ × ℕ => p.1 + p.2 ≤ q.1 ∨ q.1 + q.2 ≤ p.1 := ⟨fun _ _ => Or.symm⟩
  exact hpair.forall hp hq fun heq => hne (heq ▸ rfl)

/-- The entries of a heap are a linked list. -/
theorem Seg.linked (hS : Seg trust m a bs 0) (hne : bs ≠ []) :
    Linked (entryNext m) a (headers a bs) := by
  induction bs generalizing a with
  | nil => exact absurd rfl hne
  | cons b bs ih =>
    obtain ⟨hb, hbs⟩ := hS
    by_cases hnil : bs = []
    · subst hnil
      exact .last (hb.next.trans (if_pos rfl))
    · rw [if_neg hnil] at hb
      exact .cons (by rw [hb.next]; omega) (hb.next.symm ▸ ih hbs hnil)

/-- A first fit over the entries is one over the blocks. -/
theorem firstFit_of_blocks (hS : Seg trust m a (pre ++ b :: post) 0)
    (hpre : ∀ c ∈ pre, ¬c.Fits size) (hb : b.Fits size ∨ post = []) :
    FirstFit m size a (a + extent pre) := by
  induction pre generalizing a with
  | nil =>
    refine .here (Classical.or_iff_not_imp_right.2 fun hnext => ?_)
    have hhead := hS.1
    have hpost : post ≠ [] := fun hnil => hnext (hhead.next.trans (if_pos hnil))
    rw [if_neg hpost] at hhead
    have hfits := hb.resolve_right hpost
    exact ⟨hhead.free.trans hfits.1, (hhead.size (.inl (by omega))).symm ▸ hfits.2⟩
  | cons c pre ih =>
    obtain ⟨hhead, hrest⟩ := hS
    rw [if_neg (by simp)] at hhead
    have hne : entryNext m a ≠ 0 := by
      rw [hhead.next]
      omega
    refine .next ?_ hne ?_
    · rw [hhead.free, hhead.size (.inl (hhead.next ▸ hne))]
      exact hpre c List.mem_cons_self
    · rw [hhead.next, extent_cons, ← Nat.add_assoc, ← Nat.add_assoc]
      exact ih hrest fun d hd => hpre d (List.mem_cons_of_mem c hd)

/-- The entries are blocks that tile the arena, and every allocation has one of its own. -/
structure Heap.Holds (h : Heap) (bs : List Block) (s : HeapState) : Prop where
  seg : Seg False s.mem h.first bs 0
  ne_nil : bs ≠ []
  tiles : extent bs = h.size
  used : ∀ p ∈ s.live, ∃ k, (p.1, k) ∈ used h.first bs ∧ 0 < p.2 ∧ p.2 ≤ k
  nodup : (s.live.map Prod.fst).Nodup

theorem Heap.Holds.safe (hI : h.Holds bs s) : s.Safe h where
  inside p hp := by
    obtain ⟨k, hk, -, hle⟩ := hI.used p hp
    have := mem_used hk
    have := hI.tiles
    dsimp only at *
    omega
  disjoint := by
    refine (List.pairwise_map.1 hI.nodup).imp_of_mem fun hp hq hne => ?_
    obtain ⟨k, hk, -, hle⟩ := hI.used _ hp
    obtain ⟨l, hl, -, hle'⟩ := hI.used _ hq
    have := used_disjoint hk hl hne
    dsimp only at this
    omega
  headers p hp e he := by
    obtain ⟨k, hk, -, hle⟩ := hI.used p hp
    have := headers_used_disjoint ((hI.seg.linked hI.ne_nil).mem_of_reach he) hk
    dsimp only at this
    omega

/-! ## The operations keep it -/

/-- A program that writes to what it holds leaves the headers alone. -/
theorem holds_write (hI : h.Holds bs s) (hp : p ∈ s.live)
    (hm : ∀ x, ¬(p.1 ≤ x ∧ x < p.1 + p.2) → m x = s.mem x) : h.Holds bs ⟨m, s.live⟩ where
  seg := by
    obtain ⟨k, hk, -, hle⟩ := hI.used p hp
    refine hI.seg.congr fun e he x hx hx' => hm x ?_
    have := headers_used_disjoint he hk
    dsimp only at this
    omega
  ne_nil := hI.ne_nil
  tiles := hI.tiles
  used := hI.used
  nodup := hI.nodup

/-- A free block replaced by one in use, which is handed out, and others that are free. -/
theorem holds_take (cs : List Block) (hI : h.Holds (pre ++ b :: post) s) (hfree : b.free = true)
    (hcs : used (h.first + extent pre + 24 + k) cs = []) (hextent : k + extent cs = b.size)
    (hpos : 0 < size) (hsize : size ≤ k)
    (hm : ∀ x, ¬(h.first + extent pre ≤ x ∧ x < h.first + extent pre + 24 + b.size) →
      m x = s.mem x)
    (hseg : Seg False m (h.first + extent pre) (⟨k, false⟩ :: cs)
      (if post = [] then 0 else h.first + extent pre + 24 + b.size)) :
    h.Holds (pre ++ (⟨k, false⟩ :: cs ++ post))
      ⟨m, (h.first + extent pre + 24, size) :: s.live⟩ := by
  have hextent' : extent (⟨k, false⟩ :: cs) = 24 + b.size := by
    rw [extent_cons]
    dsimp only
    omega
  have hused : ∀ p, p ∈ used h.first (pre ++ (⟨k, false⟩ :: cs ++ post)) ↔
      p = (h.first + extent pre + 24, k) ∨ p ∈ used h.first (pre ++ b :: post) := by
    intro p
    simp only [Nat.add_assoc] at hcs
    simp only [used_append, used, hcs, hfree, hextent', List.mem_append, List.nil_append,
      Bool.false_eq_true, if_false, if_true, List.append_nil, List.mem_singleton, Nat.add_assoc]
    tauto
  refine ⟨hI.seg.replace (List.cons_ne_nil _ _) hextent' hm hseg, by simp, ?_, ?_, ?_⟩
  · rw [extent_append, extent_append, hextent', ← hI.tiles, extent_append, extent_cons]
  · intro p hp
    rcases List.mem_cons.1 hp with rfl | hp
    · exact ⟨k, (hused _).2 (.inl rfl), hpos, hsize⟩
    · obtain ⟨l, hl, hle⟩ := hI.used p hp
      exact ⟨l, (hused _).2 (.inr hl), hle⟩
  · refine List.nodup_cons.2 ⟨fun hmem => ?_, hI.nodup⟩
    -- The payload of a free block is no allocation.
    obtain ⟨p, hp, hptr⟩ := List.mem_map.1 hmem
    obtain ⟨l, hl, -⟩ := hI.used p hp
    rw [used_append, used, if_pos hfree, List.nil_append, List.mem_append] at hl
    rcases hl with hl | hl <;> have := mem_used hl <;> dsimp only at * <;> omega

/-- A block that is taken as it is. -/
theorem exists_holds_exact (hI : h.Holds (pre ++ b :: post) s) (hfree : b.free = true)
    (hsize : size ≠ 0) (hk : size ≤ b.size) : ∃ bs, h.Holds bs
      ⟨setEntryFree s.mem (h.first + extent pre) false,
        (h.first + extent pre + 24, size) :: s.live⟩ := by
  obtain ⟨-, hb, -⟩ := Seg.middle_iff.1 hI.seg
  exact ⟨_, holds_take [] hI hfree rfl (Nat.add_zero b.size) (Nat.pos_of_ne_zero hsize) hk
    (fun x hx => setEntryFree_of_not_mem (by omega)) ⟨hb.setFree, trivial⟩⟩

/-- A block that is split. The size recorded for the rest matters only if other blocks follow. -/
theorem holds_split (hI : h.Holds (pre ++ b :: post) s) (hfirst : h.first + h.size ≤ 2 ^ 64)
    (hfree : b.free = true) (hsize : size ≠ 0) (hk : size + 24 ≤ b.size)
    (hrecorded : post ≠ [] →
      wrapSub size (wrap (entrySize s.mem (h.first + extent pre) + 24)) = b.size - size - 24) :
    h.Holds (pre ++ (⟨size, false⟩ :: [⟨b.size - size - 24, true⟩] ++ post))
      ⟨Heap.split (h.first + extent pre) size s.mem,
        (h.first + extent pre + 24, size) :: s.live⟩ := by
  obtain ⟨-, hb, -⟩ := Seg.middle_iff.1 hI.seg
  have htiles := hI.tiles
  rw [extent_append, extent_cons] at htiles
  obtain ⟨hused, hrest, hframe⟩ := split_spec hb (by omega) fun h =>
    hrecorded fun hnil => h.elim (fun h => h (if_pos hnil)) id
  refine holds_take [⟨b.size - size - 24, true⟩] hI hfree (by simp [used]) ?_
    (Nat.pos_of_ne_zero hsize) le_rfl (fun x hx => hframe x (by omega) (by omega))
    ⟨hused, hrest, trivial⟩
  simp only [extent_cons, extent_nil]
  omega

/-- Taking a block that `malloc` is right to take. -/
theorem holds_sound (hI : h.Holds (pre ++ b :: post) s) (hfirst : h.first + h.size ≤ 2 ^ 64)
    (hsize : size ≠ 0) (he : e = h.first + extent pre)
    (hsound : h.Sound s.mem size e) :
    (∃ m, Heap.take e size s.mem = (0, m) ∧ m = s.mem) ∨
      ∃ m bs, Heap.take e size s.mem = (e + 24, m) ∧ h.Holds bs ⟨m, (e + 24, size) :: s.live⟩ := by
  subst he
  obtain ⟨-, hb, -⟩ := Seg.middle_iff.1 hI.seg
  have htiles := hI.tiles
  rw [extent_append, extent_cons] at htiles
  rcases hsound with ⟨hlt, hwrap⟩ | ⟨hfree, hle, hroom⟩
  · exact .inl ⟨_, take_eq_null hlt hwrap, rfl⟩
  · right
    rw [hb.free] at hfree
    have hptr (hk : size ≤ b.size) : wrap (h.first + extent pre + 24) = h.first + extent pre + 24 :=
      wrap_of_lt (by omega)
    -- The size that the entry records is that of its block, or else it is the last one.
    by_cases hwrap : entrySize s.mem (h.first + extent pre) ≤ wrap (size + 24)
    · have hk : size ≤ b.size := by
        by_cases hpost : post = []
        · subst hpost
          rw [if_pos (hb.next.trans (if_pos rfl)), if_pos hwrap] at hroom
          simp only [extent_nil] at htiles
          omega
        · rw [if_neg hpost] at hb
          exact hb.size (.inl (by omega)) ▸ hle
      obtain ⟨bs, hholds⟩ := exists_holds_exact hI hfree hsize hk
      exact ⟨_, bs, (take_eq_exact hle hwrap).trans (by rw [hptr hk]), hholds⟩
    · have hk : size + 24 ≤ b.size ∧ (post ≠ [] →
          wrapSub size (wrap (entrySize s.mem (h.first + extent pre) + 24)) =
            b.size - size - 24) := by
        by_cases hpost : post = []
        · subst hpost
          rw [if_pos (hb.next.trans (if_pos rfl)), if_neg hwrap] at hroom
          simp only [extent_nil] at htiles
          exact ⟨by omega, fun h => absurd rfl h⟩
        · rw [if_neg hpost] at hb
          have hbsize := hb.size (.inl (by omega))
          rw [hb.next, if_neg (by omega), hbsize] at hroom
          rw [hbsize] at hwrap
          refine ⟨by omega, fun _ => ?_⟩
          rw [hbsize, wrapSub_eq_mod, wrap_eq_mod]
          omega
      have hholds := holds_split hI hfirst hfree hsize hk.1 hk.2
      exact ⟨_, _, (take_eq_split (by omega)).trans (by rw [hptr (by omega)]), hholds⟩

/-- `malloc` returns, -/
theorem exists_malloc (hI : h.Holds bs s) (hfirst : h.first + h.size ≤ 2 ^ 64) :
    ∃ r, Returns (fun n => h.malloc size s.mem n) r := by
  by_cases hsize : size = 0
  · exact ⟨_, by simpa only [Heap.malloc, if_pos hsize] using Returns.pure (0, s.mem)⟩
  · obtain ⟨pre, b, post, -, -, -, hreturns⟩ :=
      search_spec size hI.seg hI.ne_nil (hI.tiles ▸ hfirst)
    simp only [Heap.malloc, if_neg hsize]
    exact ⟨_, hreturns.bind (.pure _)⟩

/-- and keeps the invariant. -/
theorem holds_malloc {ptr : ℕ} (hI : h.Holds bs s) (hfirst : h.first + h.size ≤ 2 ^ 64)
    (hr : Returns (fun n => h.malloc size s.mem n) (ptr, m))
    (hsound : (HeapOp.malloc size ptr).Sound h s) :
    ∃ bs, h.Holds bs ⟨m, if ptr = 0 then s.live else (ptr, size) :: s.live⟩ := by
  by_cases hsize : size = 0
  · simp only [Heap.malloc, if_pos hsize] at hr
    obtain ⟨rfl, rfl⟩ := Prod.mk.inj (hr.unique (.pure _))
    exact ⟨bs, hI⟩
  · obtain ⟨pre, b, post, rfl, hpre, hb, hreturns⟩ :=
      search_spec size hI.seg hI.ne_nil (hI.tiles ▸ hfirst)
    simp only [Heap.malloc, if_neg hsize] at hr
    have heq := hr.unique (hreturns.bind (.pure _))
    have he := hsound.resolve_left hsize _ (firstFit_of_blocks hI.seg hpre hb)
    rcases holds_sound hI hfirst hsize rfl he with ⟨m', hm', rfl⟩ | ⟨m', bs, hm', hI'⟩
    · rw [hm'] at heq
      obtain ⟨rfl, rfl⟩ := Prod.mk.inj heq
      exact ⟨_, hI⟩
    · rw [hm'] at heq
      obtain ⟨rfl, rfl⟩ := Prod.mk.inj heq
      exact ⟨bs, by rwa [if_neg (by omega)]⟩

/-- `free` returns, and keeps the invariant. -/
theorem holds_free (hI : h.Holds bs s) (hfirst : h.first + h.size ≤ 2 ^ 64) (hp : p ∈ s.live) :
    ∃ m bs, Returns (fun n => h.free p.1 s.mem n) m ∧ h.Holds bs ⟨m, s.live.erase p⟩ := by
  obtain ⟨k, hk, hpos, hle⟩ := hI.used p hp
  obtain ⟨pre, b, post, rfl, hb, hpk⟩ := exists_of_mem_used hk
  obtain ⟨hptr, rfl⟩ := Prod.mk.inj hpk
  have htiles := hI.tiles
  rw [extent_append, extent_cons] at htiles
  obtain ⟨m', hreturns, hclean⟩ := free_spec hI.seg (hI.tiles ▸ hfirst)
  have hextent : extent (pre ++ ⟨b.size, true⟩ :: post) = h.size := by
    simp only [extent_append, extent_cons]
    omega
  refine ⟨m', _, hptr ▸ hreturns, hclean.seg, pass_ne_nil (by simp), extent_pass.trans hextent,
    fun q hq => ?_, ?_⟩
  · have hnodup := hI.nodup.of_map Prod.fst
    obtain ⟨hne, hq⟩ := hnodup.mem_erase_iff.1 hq
    obtain ⟨l, hl, hle'⟩ := hI.used q hq
    have hptr' : q.1 ≠ p.1 := fun heq => hne (List.inj_on_of_nodup_map hI.nodup hq hp heq)
    rw [used_pass, used_freed hb, ← hptr]
    exact ⟨l, List.mem_filter.2 ⟨hl, decide_eq_true hptr'⟩, hle'⟩
  · exact hI.nodup.sublist (List.erase_sublist.map _)

/-! ## Runs -/

variable {n : ℕ} {mmu : MMU} {ops : List HeapOp}

theorem holds_step {op : HeapOp} (hI : h.Holds bs s) (hfirst : h.first + h.size ≤ 2 ^ 64)
    (hs : HeapStep h s op s') (hsound : op.Sound h s) : ∃ bs, h.Holds bs s' := by
  cases hs with
  | malloc hr => exact holds_malloc hI hfirst hr hsound
  | free hp hr =>
    obtain ⟨m, bs, hreturns, hI'⟩ := holds_free hI hfirst hp
    exact ⟨bs, hr.unique hreturns ▸ hI'⟩
  | write hp hm => exact ⟨bs, holds_write hI hp hm⟩

theorem holds_new (hn : 24 < n) (hbound : mmu.kmallocAddr + n ≤ 2 ^ 64) :
    (Heap.new n mmu).1.Holds [⟨n - 24, true⟩] ⟨(Heap.new n mmu).2.mem, []⟩ where
  seg := by
    refine ⟨?_, trivial⟩
    have hself : Header True (setEntryFree mmu.mem mmu.kmallocAddr true) mmu.kmallocAddr _ _ :=
      header_self.setFree
    have hnew := (hself.setSize (wrapSub_lt n 24)).setNext (v := 0) (by omega)
    simp only [Heap.new, kmalloc, wrap_of_lt (show mmu.kmallocAddr < 2 ^ 64 by omega)]
    exact ⟨hnew.free, hnew.next, fun h => h.elim (absurd rfl) False.elim⟩
  ne_nil := List.cons_ne_nil _ _
  tiles := by
    simp only [extent_cons, extent_nil, Heap.new, kmalloc]
    omega
  used p hp := absurd hp List.not_mem_nil
  nodup := List.nodup_nil

/-! ## Heaps from which nothing has been freed -/

/-- The search has one outcome. -/
theorem FirstFit.unique {e e' : ℕ} (h : FirstFit m size a e) (h' : FirstFit m size a e') :
    e = e' := by
  induction h with
  | here hstop =>
    cases h' with
    | here _ => rfl
    | next hfits hnext _ => exact absurd hstop (not_or.2 ⟨hfits, hnext⟩)
  | next hfits hnext _ ih =>
    cases h' with
    | here hstop => exact absurd hstop (not_or.2 ⟨hfits, hnext⟩)
    | next _ _ h' => exact ih h'

/-- All blocks but the last one, of `k` bytes, are in use; the entry of the last one records a size
    of `r`. -/
structure Heap.Fresh (h : Heap) (pre : List Block) (k r : ℕ) (s : HeapState) : Prop where
  holds : h.Holds (pre ++ [⟨k, true⟩]) s
  used : ∀ c ∈ pre, c.free = false
  recorded : entrySize s.mem (h.first + extent pre) = r

theorem fresh_new (hn : 24 < n) (hlt : n < 2 ^ 64) (hbound : mmu.kmallocAddr + n ≤ 2 ^ 64) :
    (Heap.new n mmu).1.Fresh [] (n - 24) (n - 24) ⟨(Heap.new n mmu).2.mem, []⟩ where
  holds := holds_new hn hbound
  used _ h := absurd h List.not_mem_nil
  recorded := by
    simp only [Heap.new, kmalloc, wrap_of_lt (show mmu.kmallocAddr < 2 ^ 64 by omega)]
    rw [extent_nil, Nat.add_zero, wrapSub_of_le hn.le hlt, entrySize, setEntryNext,
      Mem.get64_set64_of_disjoint (.inr (by omega)), setEntrySize, Mem.get64_set64 (by omega)]

/-- `malloc` splits the last block, as long as what its entry records allows for it. -/
theorem Heap.Fresh.malloc {r : ℕ} (size ptr : ℕ) (hF : h.Fresh pre k r s)
    (hfirst : h.first + h.size ≤ 2 ^ 64) (hsize : size ≠ 0) (hroom : size + 24 ≤ k)
    (hr : size + 24 < r) (hptr : h.first + extent pre + 24 = ptr) :
    ∃ m, Returns (fun n => h.malloc size s.mem n) (ptr, m) ∧ (HeapOp.malloc size ptr).Sound h s ∧
      h.Fresh (pre ++ [⟨size, false⟩]) (k - size - 24) (wrapSub size (wrap (r + 24)))
        ⟨m, (ptr, size) :: s.live⟩ := by
  subst hptr
  have htiles := hF.holds.tiles
  simp only [extent_append, extent_cons, extent_nil] at htiles
  obtain ⟨-, hlast, -⟩ := Seg.middle_iff.1 hF.holds.seg
  have hnone : ∀ c ∈ pre, ¬c.Fits size := fun c hc hfits =>
    absurd hfits.1 (by rw [hF.used c hc]; decide)
  have hreturns := returns_firstFit hF.holds.seg (hF.holds.tiles ▸ hfirst) hnone (.inr rfl)
  have hfit := firstFit_of_blocks hF.holds.seg hnone (.inr rfl)
  have hholds := holds_split hF.holds hfirst rfl hsize hroom fun h => absurd rfl h
  have hrecorded := hF.recorded
  generalize he : h.first + extent pre = e at *
  have hwrap : wrap (size + 24) < entrySize s.mem e := by
    rw [wrap_of_lt (by omega)]
    omega
  refine ⟨Heap.split e size s.mem, ?_, .inr fun e' he' => ?_, ⟨?_, ?_, ?_⟩⟩
  · have htake := take_eq_split hwrap
    rw [wrap_of_lt (by omega : e + 24 < 2 ^ 64)] at htake
    simp only [Heap.malloc, if_neg hsize]
    rw [← htake]
    exact hreturns.bind (.pure _)
  · rw [← hfit.unique he']
    refine .inr ⟨hlast.free, by omega, ?_⟩
    rw [if_pos (hlast.next.trans (if_pos rfl)), if_neg (by omega)]
    omega
  · simpa using hholds
  · intro c hc
    rcases List.mem_append.1 hc with hc | hc
    · exact hF.used c hc
    · rw [List.mem_singleton.1 hc]
  · -- The size that is recorded for the rest is the difference the wrong way round.
    obtain ⟨-, hrest, -⟩ :=
      split_spec hlast.recorded (by omega : e + 24 + size < 2 ^ 64) fun _ => rfl
    have hend : h.first + extent (pre ++ [⟨size, false⟩]) = e + 24 + size := by
      simp only [extent_append, extent_cons, extent_nil]
      omega
    rw [hend, ← hrecorded]
    exact hrest.size (.inr trivial)

/-- In a run in which every `malloc` is sound, the allocations are safe in every state reached, and
    all calls return. -/
theorem safe_of_run (hn : 24 < n) (hbound : mmu.kmallocAddr + n ≤ 2 ^ 64)
    (hr : Run (fun s op s' => HeapStep (Heap.new n mmu).1 s op s' ∧ op.Sound (Heap.new n mmu).1 s)
      ⟨(Heap.new n mmu).2.mem, []⟩ ops s) :
    s.Safe (Heap.new n mmu).1 ∧
      (∀ size, ∃ r, Returns (fun k => (Heap.new n mmu).1.malloc size s.mem k) r) ∧
      ∀ p ∈ s.live, ∃ m, Returns (fun k => (Heap.new n mmu).1.free p.1 s.mem k) m := by
  have hfirst : (Heap.new n mmu).1.first + (Heap.new n mmu).1.size ≤ 2 ^ 64 := by
    simpa only [Heap.new, kmalloc, wrap_of_lt (show mmu.kmallocAddr < 2 ^ 64 by omega)]
  obtain ⟨bs, hI⟩ := hr.invariant (fun s => ∃ bs, (Heap.new n mmu).1.Holds bs s)
    ⟨_, holds_new hn hbound⟩ fun _ _ _ ⟨_, hI⟩ ⟨hs, hsound⟩ => holds_step hI hfirst hs hsound
  refine ⟨hI.safe, fun size => exists_malloc hI hfirst, fun p hp => ?_⟩
  obtain ⟨m, -, hreturns, -⟩ := holds_free hI hfirst hp
  exact ⟨m, hreturns⟩

/-- Three allocations, of which the first is given back. -/
theorem exists_run_fresh (hF : Heap.Fresh ⟨0x1000, 0x100⟩ [] 232 232 ⟨m, []⟩) :
    ∃ s, Run (fun s op s' => HeapStep ⟨0x1000, 0x100⟩ s op s' ∧ op.Sound ⟨0x1000, 0x100⟩ s) ⟨m, []⟩
        [.malloc 16 0x1018, .malloc 32 0x1040, .malloc 16 0x1078, .free 0x1018] s ∧
      s.live = [(0x1078, 16), (0x1040, 32)] := by
  obtain ⟨m₁, hr₁, hs₁, hF₁⟩ := hF.malloc 16 0x1018 (by decide) (by decide) (by decide) (by decide)
    rfl
  obtain ⟨m₂, hr₂, hs₂, hF₂⟩ := hF₁.malloc 32 0x1040 (by decide) (by decide) (by decide)
    (by decide +kernel) rfl
  obtain ⟨m₃, hr₃, hs₃, hF₃⟩ := hF₂.malloc 16 0x1078 (by decide) (by decide) (by decide)
    (by decide +kernel) rfl
  have hmem : (0x1018, 16) ∈ [(0x1078, 16), (0x1040, 32), (0x1018, 16)] := by decide
  obtain ⟨m₄, -, hr₄, -⟩ := holds_free hF₃.holds (by decide) hmem
  exact ⟨_, .snoc (.snoc (.snoc (.snoc .nil ⟨.malloc hr₁, hs₁⟩) ⟨.malloc hr₂, hs₂⟩)
    ⟨.malloc hr₃, hs₃⟩) ⟨.free hmem hr₄, trivial⟩, rfl⟩

theorem safe_of_run_free : ∃ s, Run (fun s op s' =>
      HeapStep (Heap.new 0x100 (zeroMMU 0x1000)).1 s op s' ∧
        op.Sound (Heap.new 0x100 (zeroMMU 0x1000)).1 s)
      ⟨(Heap.new 0x100 (zeroMMU 0x1000)).2.mem, []⟩
      [.malloc 16 0x1018, .malloc 32 0x1040, .malloc 16 0x1078, .free 0x1018] s ∧
    s.live = [(0x1078, 16), (0x1040, 32)] ∧ s.Safe (Heap.new 0x100 (zeroMMU 0x1000)).1 := by
  have hbound : (zeroMMU 0x1000).kmallocAddr + 0x100 ≤ 2 ^ 64 := by decide
  have hF := fresh_new (by decide) (by decide) hbound
  have hheap : (Heap.new 0x100 (zeroMMU 0x1000)).1 = ⟨0x1000, 0x100⟩ := by decide +kernel
  rw [hheap] at hF
  obtain ⟨s, hr, hlive⟩ := exists_run_fresh hF
  rw [← hheap] at hr
  exact ⟨s, hr, hlive, (safe_of_run (by decide) hbound hr).1⟩

/-- `malloc` at a first entry that is the only one, and of the right size, be it in use or not. -/
theorem step_malloc_of_last (size : ℕ) (hnext : entryNext s.mem h.first = 0)
    (hsize : size ≠ 0) (hle : size ≤ entrySize s.mem h.first)
    (hwrap : entrySize s.mem h.first ≤ wrap (size + 24)) (hptr : h.first + 24 < 2 ^ 64) :
    HeapStep h s (.malloc size (h.first + 24))
      ⟨setEntryFree s.mem h.first false, (h.first + 24, size) :: s.live⟩ := by
  have hreturns : Returns (fun k => h.malloc size s.mem k) (Heap.take h.first size s.mem) := by
    simp only [Heap.malloc, if_neg hsize]
    refine Returns.bind (returns_loop_exit ?_) (.pure _)
    rw [Heap.searchBody, hnext, if_neg (by simp)]
  rw [take_eq_exact hle hwrap, wrap_of_lt hptr] at hreturns
  have hstep := HeapStep.malloc (s := s) hreturns
  rwa [if_neg (by omega)] at hstep

/-- A heap of 32 bytes, that is of one entry of 8. -/
def heap32 : Heap := (Heap.new 32 (zeroMMU 0x1000)).1

/-- Its memory. -/
def mem32 : Mem := (Heap.new 32 (zeroMMU 0x1000)).2.mem

theorem heap32_eq : heap32 = ⟨0x1000, 32⟩ := by decide +kernel

theorem mem32_eq : entryFree mem32 0x1000 = true ∧ entrySize mem32 0x1000 = 8 ∧
    entryNext mem32 0x1000 = 0 := by decide +kernel

theorem le_wrap_32 : 8 ≤ wrap (8 + 24) := by decide +kernel

/-- All of it allocated. -/
theorem heap32_malloc : HeapStep heap32 ⟨mem32, []⟩ (.malloc 8 0x1018)
    ⟨setEntryFree mem32 0x1000 false, [(0x1018, 8)]⟩ := by
  obtain ⟨-, hsize, hnext⟩ := mem32_eq
  rw [heap32_eq]
  exact step_malloc_of_last 8 (h := ⟨0x1000, 32⟩) (s := ⟨mem32, []⟩) hnext (by decide) hsize.ge
    (hsize ▸ le_wrap_32) (by decide)

/-- What `safe_of_run` says, of all runs. -/
def AllocationsSafe : Prop :=
  ∀ {n : ℕ} {mmu : MMU} {ops : List HeapOp} {s : HeapState}, 24 < n →
    mmu.kmallocAddr + n ≤ 2 ^ 64 →
    Run (HeapStep (Heap.new n mmu).1) ⟨(Heap.new n mmu).2.mem, []⟩ ops s →
    s.Safe (Heap.new n mmu).1

/-- Allocated again, the entry is handed out a second time. -/
theorem not_allocationsSafe : ¬AllocationsSafe := by
  intro hall
  obtain ⟨-, hsize, hnext⟩ := mem32_eq
  have hsize' : entrySize (setEntryFree mem32 0x1000 false) 0x1000 = 8 :=
    (Mem.get64_set_of_disjoint (.inl (by decide))).trans hsize
  have hnext' : entryNext (setEntryFree mem32 0x1000 false) 0x1000 = 0 :=
    (Mem.get64_set_of_disjoint (.inl (by decide))).trans hnext
  have hagain := step_malloc_of_last 8 (h := heap32)
    (s := ⟨setEntryFree mem32 0x1000 false, [(0x1018, 8)]⟩) (heap32_eq ▸ hnext') (by decide)
    (heap32_eq ▸ hsize'.ge) (heap32_eq ▸ hsize' ▸ le_wrap_32) (heap32_eq ▸ by decide)
  have hsafe := hall (by decide) (by decide : (zeroMMU 0x1000).kmallocAddr + 32 ≤ 2 ^ 64)
    (.snoc (.snoc .nil heap32_malloc) hagain)
  have hdisjoint := (List.pairwise_cons.1 hsafe.disjoint).1 (0x1018, 8) (List.mem_singleton_self _)
  rw [heap32_eq] at hdisjoint
  exact absurd hdisjoint (by decide)

end SmartOS
