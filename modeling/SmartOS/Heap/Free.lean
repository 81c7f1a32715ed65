import SmartOS.Heap.Malloc
import SmartOS.Lib.Run

/-!
# Freeing on a heap

What a call of `free` does to a well-formed heap. It merges free blocks pairwise
(`pass`), and goes on after a merge from the header that it has merged away, so
that of three free blocks in a row the last one is left.

* `exists_freed`: the other payloads in use stay, and the bytes of the block are
  free (`freeBytes`);
* `coalesced_pass_iff`: when no two adjacent blocks are free afterwards;
* `free_coalesces`: it is so unless the blocks before and after are both free, and
  after a run of such calls the whole arena is one free block.
-/

namespace SmartOS

open Prog

variable {h : Heap} {m m' : Mem} {a k p x : ℕ} {b c d : Block} {bs cs pre post : List Block}

/-! ## What is free -/

/-- The bytes of the free blocks, with their headers. -/
def freeBytes : ℕ → List Block → Set ℕ
  | _, [] => ∅
  | a, b :: bs =>
    {x | b.free = true ∧ a ≤ x ∧ x < a + 24 + b.size} ∪ freeBytes (a + 24 + b.size) bs

theorem freeBytes_append :
    freeBytes a (bs ++ cs) = freeBytes a bs ∪ freeBytes (a + extent bs) cs := by
  induction bs generalizing a with
  | nil => rw [List.nil_append, freeBytes, Set.empty_union, extent_nil, Nat.add_zero]
  | cons b bs ih =>
    rw [List.cons_append, freeBytes, ih, freeBytes, Set.union_assoc, extent_cons]
    simp only [Nat.add_assoc]

/-- Merged blocks take the same bytes. -/
theorem freeBytes_pass : freeBytes a (pass bs) = freeBytes a bs := by
  fun_induction pass bs generalizing a with
  | case1 => rfl
  | case2 => rfl
  | case3 b c bs hfree ih =>
    -- The header of the second block goes to the first one.
    obtain ⟨hb, hc⟩ := (Bool.and_eq_true _ _).mp hfree
    have hend : a + 24 + (b.size + c.size + 24) = a + 24 + b.size + 24 + c.size := by omega
    rw [freeBytes, freeBytes, freeBytes, ih, hb, hc, hend, ← Set.union_assoc]
    congr 1
    ext x
    simp only [Set.mem_ofPred_eq, Set.mem_union, true_and]
    omega
  | case4 b c bs _ ih => rw [freeBytes, ih, freeBytes.eq_2 a b]

/-- The bytes of a block that is freed. -/
theorem freeBytes_freed (hb : b.free = false) : freeBytes a (pre ++ ⟨b.size, true⟩ :: post) =
    freeBytes a (pre ++ b :: post) ∪
      {x | a + extent pre ≤ x ∧ x < a + extent pre + 24 + b.size} := by
  rw [freeBytes_append, freeBytes_append, freeBytes, freeBytes, hb]
  ext x
  simp only [Set.mem_union, Set.mem_ofPred_eq, true_and, Bool.false_eq_true, false_and, false_or]
  tauto

/-! ## A call -/

/-- What `free(p)` has to do to the blocks `bs`, of which that of `p` has `k` bytes: they become the
    blocks `bs'`. -/
structure Heap.Freed (h : Heap) (m m' : Mem) (bs bs' : List Block) (p k : ℕ) : Prop where
  wellFormed : h.WellFormed m' bs'
  used : used h.first bs' = (used h.first bs).filter (·.1 ≠ p)
  payload : ∀ q ∈ SmartOS.used h.first bs', ∀ x, q.1 ≤ x → x < q.1 + q.2 → m' x = m x
  free : freeBytes h.first bs' = freeBytes h.first bs ∪ {x | p ≤ x + 24 ∧ x < p + k}

theorem freed_middle (hw : h.WellFormed m (pre ++ b :: post)) (hb : b.free = false) :
    ∃ m', Returns (fun n => h.free (h.first + extent pre + 24) m n) m' ∧
      h.Freed m m' (pre ++ b :: post) (pass (pre ++ ⟨b.size, true⟩ :: post))
        (h.first + extent pre + 24) b.size := by
  obtain ⟨m', hreturns, hclean⟩ := free_spec hw.seg (hw.tiles ▸ hw.bound)
  have htiles := hw.tiles
  refine ⟨m', hreturns, ⟨hclean.seg, pass_ne_nil (by simp), ?_, hw.bound⟩, ?_, fun q hq => ?_, ?_⟩
  · rw [extent_pass, ← htiles]
    simp only [extent_append, extent_cons]
  · rw [used_pass, used_freed hb]
  · exact hclean.payload q (used_pass ▸ hq)
  · rw [freeBytes_pass, freeBytes_freed hb]
    congr 1
    ext x
    simp only [Set.mem_ofPred_eq]
    omega

/-- `free` of a payload in use returns, and frees its block only. -/
theorem exists_freed (hw : h.WellFormed m bs) (hp : (p, k) ∈ used h.first bs) :
    ∃ m' bs', Returns (fun n => h.free p m n) m' ∧ h.Freed m m' bs bs' p k := by
  obtain ⟨pre, b, post, rfl, hb, hpk⟩ := exists_of_mem_used hp
  obtain ⟨rfl, rfl⟩ := Prod.mk.inj hpk
  obtain ⟨m', hreturns, hfreed⟩ := freed_middle hw hb
  exact ⟨m', _, hreturns, hfreed⟩

/-! ## Adjacent blocks -/

/-- No two adjacent blocks are both free. -/
def Coalesced : List Block → Prop := List.IsChain fun b c => ¬(b.free = true ∧ c.free = true)

/-- Blocks of which none can be merged stay as they are. -/
theorem pass_eq_self (hbs : Coalesced bs) : pass bs = bs := by
  fun_induction pass bs with
  | case1 => rfl
  | case2 => rfl
  | case3 b c bs hfree _ =>
    exact absurd ((Bool.and_eq_true _ _).mp hfree) (List.isChain_cons_cons.1 hbs).1
  | case4 b c bs _ ih => rw [ih (List.isChain_cons_cons.1 hbs).2]

/-- The first block is merged into, but keeps its flag. -/
theorem exists_pass_cons (b : Block) (bs : List Block) :
    ∃ c cs, pass (b :: bs) = c :: cs ∧ c.free = b.free := by
  cases bs with
  | nil => exact ⟨b, [], rfl, rfl⟩
  | cons c bs =>
    rw [pass]
    split_ifs with hfree
    · exact ⟨_, _, rfl, ((Bool.and_eq_true _ _).mp hfree).1.symm⟩
    · exact ⟨b, _, rfl, rfl⟩

/-- The blocks before and after are both free. -/
def BetweenFree (pre post : List Block) : Prop :=
  (∃ c ∈ pre.getLast?, c.free = true) ∧ ∃ d ∈ post.head?, d.free = true

theorem coalesced_cons_free (hb : b.free = true) :
    Coalesced (b :: post) ↔ ¬(∃ d ∈ post.head?, d.free = true) ∧ Coalesced post := by
  rw [Coalesced, List.isChain_cons, hb]
  simp

/-- A block that is freed is merged with what is after it, or else with the one before. -/
theorem coalesced_pass_cons (hpost : Coalesced post) : Coalesced (pass (⟨k, true⟩ :: post)) := by
  cases post with
  | nil => exact List.isChain_singleton _
  | cons c post =>
    have hrest : Coalesced post := (List.isChain_cons.1 hpost).2
    rw [pass]
    split_ifs with hfree
    · rw [pass_eq_self hrest, coalesced_cons_free rfl]
      exact (coalesced_cons_free (by simpa using hfree)).1 hpost
    · rw [pass_eq_self hpost]
      exact List.isChain_cons_cons.2 ⟨by simpa using hfree, hpost⟩

theorem coalesced_pass_iff (hpre : Coalesced pre) (hpost : Coalesced post) :
    Coalesced (pass (pre ++ ⟨k, true⟩ :: post)) ↔ ¬BetweenFree pre post := by
  induction pre with
  | nil => exact iff_of_true (coalesced_pass_cons hpost) fun ⟨⟨c, hc, _⟩, _⟩ => by simp at hc
  | cons d pre ih =>
    cases pre with
    | nil =>
      rw [List.singleton_append, pass]
      by_cases hd : d.free = true
      · rw [if_pos (by simpa using hd), pass_eq_self hpost, coalesced_cons_free rfl, BetweenFree]
        simp [hd, hpost]
      · -- The first block stays, and the freed one is merged with what is after it.
        obtain ⟨c, cs, hcons, -⟩ := exists_pass_cons ⟨k, true⟩ post
        have hrest := @coalesced_pass_cons k post hpost
        rw [if_neg (by simpa using hd), BetweenFree]
        rw [hcons] at hrest ⊢
        refine iff_of_true (List.isChain_cons_cons.2 ⟨fun h => hd h.1, hrest⟩) ?_
        simp [hd]
    | cons e pre =>
      obtain ⟨hde, hpre⟩ := List.isChain_cons_cons.1 hpre
      obtain ⟨c, cs, hcons, hc⟩ := exists_pass_cons e (pre ++ ⟨k, true⟩ :: post)
      have ih := ih hpre
      rw [List.cons_append, hcons] at ih
      rw [List.cons_append, List.cons_append, pass, if_neg (by simpa using hde), hcons, Coalesced,
        List.isChain_cons_cons, hc, BetweenFree, List.getLast?_cons_cons]
      exact (and_iff_right hde).trans ih

/-! ## The blocks of a heap -/

/-- The entries decide the blocks. -/
theorem seg_unique (hbound : a + extent bs ≤ 2 ^ 64) (hS : Seg True m a bs 0)
    (hS' : Seg True m a cs 0) (hbs : bs ≠ []) (hcs : cs ≠ []) : bs = cs := by
  induction bs generalizing a cs with
  | nil => exact absurd rfl hbs
  | cons b bs ih =>
    obtain ⟨c, cs, rfl⟩ := List.exists_cons_of_ne_nil hcs
    obtain ⟨hb, hrest⟩ := hS
    obtain ⟨hc, hrest'⟩ := hS'
    obtain rfl : b = c := by
      have hsize := (hb.size (.inr trivial)).symm.trans (hc.size (.inr trivial))
      have hfree := hb.free.symm.trans hc.free
      obtain ⟨size, free⟩ := b
      exact Block.mk.injEq .. ▸ ⟨hsize, hfree⟩
    -- The first blocks are the same, and their header says whether there are more.
    have hnext := hb.next.symm.trans hc.next
    by_cases hnil : bs = []
    · rw [if_pos hnil] at hnext
      split_ifs at hnext with hnil'
      · rw [hnil, hnil']
      · omega
    · rw [if_neg hnil] at hnext
      split_ifs at hnext with hnil'
      · omega
      · rw [extent_cons] at hbound
        rw [ih (by omega) hrest hrest' hnil hnil']

theorem Heap.WellFormed.unique (hw : h.WellFormed m bs) (hw' : h.WellFormed m cs) : bs = cs :=
  seg_unique (hw.tiles ▸ hw.bound) hw.seg hw'.seg hw.ne_nil hw'.ne_nil

/-- A block is found by its address. -/
theorem eq_of_extent_eq {pre' post' : List Block} (h : pre ++ b :: post = pre' ++ c :: post')
    (hextent : extent pre = extent pre') : pre = pre' ∧ b = c ∧ post = post' := by
  induction pre generalizing pre' with
  | nil =>
    cases pre' with
    | nil => exact ⟨rfl, List.cons.inj h⟩
    | cons d pre' =>
      rw [extent_cons, extent_nil] at hextent
      omega
  | cons d pre ih =>
    cases pre' with
    | nil =>
      rw [extent_cons, extent_nil] at hextent
      omega
    | cons e pre' =>
      obtain ⟨rfl, htail⟩ := List.cons.inj h
      rw [extent_cons, extent_cons] at hextent
      obtain ⟨rfl, hrest⟩ := ih htail (by omega)
      exact ⟨rfl, hrest⟩

/-! ## When `free` coalesces -/

/-- After `free(p)`, no two adjacent blocks are both free. -/
def Heap.Coalesces (h : Heap) (m : Mem) (p : ℕ) : Prop :=
  ∃ m' bs, Returns (fun n => h.free p m n) m' ∧ h.WellFormed m' bs ∧ Coalesced bs

/-- The payload `p` lies between two free blocks. -/
def Heap.Between (h : Heap) (bs : List Block) (p : ℕ) : Prop :=
  ∃ pre b post, bs = pre ++ b :: post ∧ p = h.first + extent pre + 24 ∧ BetweenFree pre post

/-- A call of `free(p)`, for a payload that does not lie between two free blocks. -/
def Heap.FreeStep (h : Heap) (m : Mem) (p : ℕ) (m' : Mem) : Prop :=
  Returns (fun n => h.free p m n) m' ∧ ∀ bs, h.WellFormed m bs → ¬h.Between bs p

theorem coalesces_iff_of_mem (hw : h.WellFormed m bs) (hc : Coalesced bs)
    (hp : (p, k) ∈ used h.first bs) : h.Coalesces m p ↔ ¬h.Between bs p := by
  obtain ⟨pre, b, post, rfl, hb, hpk⟩ := exists_of_mem_used hp
  obtain ⟨rfl, rfl⟩ := Prod.mk.inj hpk
  obtain ⟨m', hreturns, hfreed⟩ := freed_middle hw hb
  have hpre : Coalesced pre := (List.isChain_append.1 hc).1
  have hpost : Coalesced post := (List.isChain_cons.1 (List.isChain_append.1 hc).2.1).2
  have hbetween : h.Between (pre ++ b :: post) (h.first + extent pre + 24) ↔
      BetweenFree pre post := by
    constructor
    · -- The address tells which block is freed, and so what its neighbours are.
      rintro ⟨pre', b', post', heq, haddr, hfree⟩
      obtain ⟨rfl, -, rfl⟩ := eq_of_extent_eq heq (by omega)
      exact hfree
    · exact fun hfree => ⟨pre, b, post, rfl, rfl, hfree⟩
  rw [hbetween, ← coalesced_pass_iff hpre hpost]
  constructor
  · rintro ⟨m₁, bs, hr, hw₁, hc₁⟩
    obtain rfl := hr.unique hreturns
    exact hw₁.unique hfreed.wellFormed ▸ hc₁
  · exact fun hc' => ⟨m', _, hreturns, hfreed.wellFormed, hc'⟩

/-- Blocks of which none is in use are one block when they are coalesced. -/
theorem eq_singleton_of_used (hc : Coalesced bs) (hne : bs ≠ []) (hused : used a bs = []) :
    bs = [⟨extent bs - 24, true⟩] := by
  obtain ⟨b, bs, rfl⟩ := List.exists_cons_of_ne_nil hne
  have hfree {a : ℕ} {b : Block} {bs : List Block} (h : used a (b :: bs) = []) :
      b.free = true ∧ used (a + 24 + b.size) bs = [] := by
    rw [used, List.append_eq_nil_iff] at h
    refine ⟨?_, h.2⟩
    by_contra hb
    simp [hb] at h
  obtain ⟨hb, hrest⟩ := hfree hused
  cases bs with
  | nil =>
    obtain ⟨size, free⟩ := b
    obtain rfl : free = true := hb
    simp
  | cons c bs => exact absurd ⟨hb, (hfree hrest).1⟩ (List.isChain_cons_cons.1 hc).1

/-! ## Freeing all -/

/-- A step that coalesces, from blocks that are. -/
theorem exists_of_freeStep (hw : h.WellFormed m bs) (hc : Coalesced bs)
    (hp : (p, k) ∈ used h.first bs) (hs : h.FreeStep m p m') :
    ∃ bs', h.WellFormed m' bs' ∧ Coalesced bs' ∧
      used h.first bs' = (used h.first bs).filter (·.1 ≠ p) := by
  obtain ⟨hr, hbetween⟩ := hs
  obtain ⟨m₁, bs₁, hr₁, hw₁, hc₁⟩ := (coalesces_iff_of_mem hw hc hp).2 (hbetween bs hw)
  obtain ⟨pre, b, post, rfl, hb, hpk⟩ := exists_of_mem_used hp
  obtain ⟨rfl, rfl⟩ := Prod.mk.inj hpk
  obtain ⟨m₂, hr₂, hfreed⟩ := freed_middle hw hb
  obtain rfl := hr₁.unique hr
  obtain rfl := hr₂.unique hr
  exact ⟨bs₁, hw₁, hc₁, hw₁.unique hfreed.wellFormed ▸ hfreed.used⟩

/-- What is in use after some of the payloads are freed. -/
theorem exists_of_freeRun {ps : List ℕ} (hw : h.WellFormed m bs) (hc : Coalesced bs)
    (hr : Run h.FreeStep m ps m') (hnodup : ps.Nodup)
    (hps : ∀ p ∈ ps, p ∈ (used h.first bs).map Prod.fst) :
    ∃ bs', h.WellFormed m' bs' ∧ Coalesced bs' ∧
      used h.first bs' = (used h.first bs).filter (·.1 ∉ ps) := by
  induction hr with
  | nil => exact ⟨bs, hw, hc, by simp⟩
  | @snoc ps m₁ m' p _ hs ih =>
    obtain ⟨hnodup, -, hnew⟩ := List.nodup_append.1 hnodup
    obtain ⟨bs₁, hw₁, hc₁, hused₁⟩ := ih hnodup fun q hq => hps q (List.mem_append_left _ hq)
    obtain ⟨⟨q, k⟩, hq, rfl⟩ := List.mem_map.1 (hps p (by simp))
    -- A payload that is still to be freed has stayed in use.
    have hmem : (q, k) ∈ used h.first bs₁ := by
      rw [hused₁]
      exact List.mem_filter.2 ⟨hq, decide_eq_true fun hq' => hnew q hq' q (by simp) rfl⟩
    obtain ⟨bs₂, hw₂, hc₂, hused₂⟩ := exists_of_freeStep hw₁ hc₁ hmem hs
    refine ⟨bs₂, hw₂, hc₂, ?_⟩
    rw [hused₂, hused₁, List.filter_filter]
    simp [and_comm]

/-- `free` coalesces exactly when it does not free a block between two free ones; and when all the
    payloads in use are freed by such calls, in any order, the arena is one free block. -/
theorem free_coalesces (hw : h.WellFormed m bs) (hc : Coalesced bs) :
    (∀ p k, (p, k) ∈ used h.first bs → (h.Coalesces m p ↔ ¬h.Between bs p)) ∧
      ∀ ps m', ps.Perm ((used h.first bs).map Prod.fst) → Run h.FreeStep m ps m' →
        h.WellFormed m' [⟨h.size - 24, true⟩] := by
  refine ⟨fun p k => coalesces_iff_of_mem hw hc, fun ps m' hperm hr => ?_⟩
  have hnodup : ((used h.first bs).map Prod.fst).Nodup := by
    refine List.pairwise_map.2 (used_pairwise.imp fun hlt => ?_)
    omega
  obtain ⟨bs', hw', hc', hused⟩ := exists_of_freeRun hw hc hr (hperm.nodup_iff.2 hnodup)
    fun p hp => hperm.mem_iff.1 hp
  -- In the end nothing is in use, and free blocks that are coalesced are only one.
  have hnone : used h.first bs' = [] := by
    rw [hused, List.filter_eq_nil_iff]
    exact fun q hq => by simpa using hperm.mem_iff.2 (List.mem_map_of_mem hq)
  have hone := eq_singleton_of_used hc' hw'.ne_nil hnone
  rw [hw'.tiles] at hone
  exact hone ▸ hw'

/-! ## Three blocks -/

/-- A block in use between two free ones, -/
def threeBlocks : List Block := [⟨8, true⟩, ⟨8, false⟩, ⟨8, true⟩]

/-- and before one. -/
def twoBlocks : List Block := [⟨8, false⟩, ⟨8, true⟩]

theorem exists_freed_twoBlocks : ∃ m m' bs',
    Returns (fun n => Heap.free ⟨0x1000, extent twoBlocks⟩ 0x1018 m n) m' ∧
      Heap.Freed ⟨0x1000, extent twoBlocks⟩ m m' twoBlocks bs' 0x1018 8 := by
  obtain ⟨m, hw⟩ := @exists_wellFormed 0x1000 twoBlocks (List.cons_ne_nil _ _) (by decide)
  exact ⟨m, exists_freed hw (by decide)⟩

theorem free_coalesces_twoBlocks :
    ∃ m, Heap.Coalesces ⟨0x1000, extent twoBlocks⟩ m 0x1018 := by
  obtain ⟨m, hw⟩ := @exists_wellFormed 0x1000 twoBlocks (List.cons_ne_nil _ _) (by decide)
  have hc : Coalesced twoBlocks := by simp [Coalesced, twoBlocks]
  refine ⟨m, ((free_coalesces hw hc).1 0x1018 8 (by decide)).2 ?_⟩
  rintro ⟨pre, b, post, heq, haddr, ⟨c, hc, -⟩, -⟩
  cases pre with
  | nil => cases hc
  | cons d pre =>
    rw [extent_cons] at haddr
    dsimp only at haddr
    omega

/-- What `free_coalesces` says of a call, of all well-formed heaps. -/
def AllCoalesce : Prop :=
  ∀ {h : Heap} {m : Mem} {bs : List Block} {p k : ℕ}, h.WellFormed m bs → Coalesced bs →
    (p, k) ∈ used h.first bs → h.Coalesces m p

/-- Of three blocks, the last one is left. -/
theorem not_allCoalesce : ¬AllCoalesce := by
  intro hall
  obtain ⟨m, hw⟩ := @exists_wellFormed 0x1000 threeBlocks (List.cons_ne_nil _ _) (by decide)
  have hc : Coalesced threeBlocks := by simp [Coalesced, threeBlocks]
  have hmem : (0x1038, 8) ∈ used 0x1000 threeBlocks := by decide
  refine (coalesces_iff_of_mem hw hc hmem).1 (hall hw hc hmem) ?_
  exact ⟨[⟨8, true⟩], ⟨8, false⟩, [⟨8, true⟩], rfl, rfl, ⟨_, rfl, rfl⟩, _, rfl, rfl⟩

end SmartOS
