import SmartOS.Heap.Blocks

/-!
# What the heap's functions do to the blocks

On a well-formed heap (`Seg`), with an arena that does not wrap around:

* `search_spec`: the search of `malloc` comes to the first block that is free and
  large enough or, if there is none, to the last block, whatever that is;
* `take_eq_exact`, `split_spec`: `malloc` then takes the block as it is, splits it, or
  gives up;
* `clean_spec`: `clean` merges blocks pairwise (`pass`). After a merge it goes on
  from the header that it has just merged away, and may even merge what follows
  into that one; this only changes bytes of a free block.
-/

namespace SmartOS

open Prog

variable {trust : Prop} {m m' : Mem} {a e x next last size k : ℕ} {b c d : Block}
  {bs cs pre post rest : List Block}

/-! ## Replacing a block -/

/-- A block replaced by blocks of the same extent, in its own bytes. -/
theorem Seg.replace (h : Seg trust m a (pre ++ b :: post) last) (hcs : cs ≠ [])
    (hextent : extent cs = 24 + b.size)
    (hm : ∀ x, ¬(a + extent pre ≤ x ∧ x < a + extent pre + 24 + b.size) → m' x = m x)
    (hseg : Seg trust m' (a + extent pre) cs
      (if post = [] then last else a + extent pre + 24 + b.size)) :
    Seg trust m' a (pre ++ (cs ++ post)) last := by
  obtain ⟨hpre, _, hpost⟩ := Seg.middle_iff.1 h
  have hend : a + extent pre + extent cs = a + extent pre + 24 + b.size := by omega
  rw [Seg.append_iff, if_neg (by simp [hcs]), Seg.append_iff, hend]
  refine ⟨hpre.congr_of_mem fun x _ hx => hm x (by omega), hseg, ?_⟩
  exact hpost.congr_of_mem fun x hx _ => hm x (by omega)

/-! ## The search -/

/-- The block is free and has room for `size` bytes. -/
def Block.Fits (b : Block) (size : ℕ) : Prop := b.free = true ∧ size ≤ b.size

instance (b : Block) (size : ℕ) : Decidable (b.Fits size) :=
  inferInstanceAs (Decidable (b.free = true ∧ size ≤ b.size))

theorem searchBody_of_last (h : Header trust m e b 0) : Heap.searchBody size m e = .inr e := by
  rw [Heap.searchBody, h.next, if_neg (by simp)]

theorem searchBody_of_next (h : Header trust m e b next) (hn : next ≠ 0) :
    Heap.searchBody size m e =
      if b.Fits size then .inr e else .inl (wrap (e + 24 + b.size)) := by
  rw [Heap.searchBody, entryEnd, h.free, h.size (.inl hn), h.next]
  by_cases hfits : b.Fits size
  · rw [if_pos hfits, if_neg (by simp [hfits.1, hfits.2])]
  · rw [if_neg hfits, if_pos]
    simp only [Block.Fits, not_and_or, not_le, Bool.not_eq_true] at hfits
    rcases hfits with hfree | hsize
    · simp [hfree, hn]
    · simp [hsize, hn]

/-- The search comes to the first block that fits, or to the last one. -/
theorem returns_firstFit (hS : Seg trust m a (pre ++ b :: post) 0)
    (hbound : a + extent (pre ++ b :: post) ≤ 2 ^ 64) (hpre : ∀ c ∈ pre, ¬c.Fits size)
    (hb : b.Fits size ∨ post = []) :
    Returns (fun n => loop (Heap.searchBody size m) n a) (a + extent pre) := by
  induction pre generalizing a with
  | nil =>
    obtain ⟨hhead, -⟩ := hS
    refine returns_loop_exit ?_
    rw [extent_nil, Nat.add_zero]
    by_cases hpost : post = []
    · exact searchBody_of_last (if_pos hpost ▸ hhead)
    · rw [if_neg hpost] at hhead
      rw [searchBody_of_next hhead (by omega), if_pos (hb.resolve_right hpost)]
  | cons c pre ih =>
    obtain ⟨hhead, hrest⟩ := hS
    rw [if_neg (by simp)] at hhead
    rw [List.cons_append, extent_cons] at hbound
    have hend : wrap (a + 24 + c.size) = a + 24 + c.size := by
      rw [extent_append, extent_cons] at hbound
      exact wrap_of_lt (by omega)
    have hbody : Heap.searchBody size m a = .inl (a + 24 + c.size) := by
      rw [searchBody_of_next hhead (by omega), if_neg (hpre c List.mem_cons_self), hend]
    rw [returns_loop_next hbody, extent_cons, ← Nat.add_assoc, ← Nat.add_assoc]
    exact ih hrest (by omega) fun d hd => hpre d (List.mem_cons_of_mem c hd)

/-- There is a first block that fits, or else a last one. -/
theorem exists_firstFit (size : ℕ) (hne : bs ≠ []) :
    ∃ pre b post, bs = pre ++ b :: post ∧ (∀ c ∈ pre, ¬c.Fits size) ∧
      (b.Fits size ∨ post = []) := by
  induction bs with
  | nil => exact absurd rfl hne
  | cons b bs ih =>
    by_cases hstop : b.Fits size ∨ bs = []
    · exact ⟨[], b, bs, rfl, fun _ h => absurd h List.not_mem_nil, hstop⟩
    · obtain ⟨hfits, hnil⟩ := not_or.1 hstop
      obtain ⟨pre, d, post, rfl, hpre, hd⟩ := ih hnil
      exact ⟨b :: pre, d, post, rfl, List.forall_mem_cons.2 ⟨hfits, hpre⟩, hd⟩

/-- A first fit, or else the last block. -/
theorem search_spec (size : ℕ) (hS : Seg trust m a bs 0) (hne : bs ≠ [])
    (hbound : a + extent bs ≤ 2 ^ 64) :
    ∃ pre b post, bs = pre ++ b :: post ∧ (∀ c ∈ pre, ¬c.Fits size) ∧ (b.Fits size ∨ post = []) ∧
      Returns (fun n => loop (Heap.searchBody size m) n a) (a + extent pre) := by
  obtain ⟨pre, b, post, rfl, hpre, hb⟩ := exists_firstFit size hne
  exact ⟨pre, b, post, rfl, hpre, hb, returns_firstFit hS hbound hpre hb⟩

/-! ## Taking a block -/

theorem take_eq_null (hsize : entrySize m e < size) (hwrap : entrySize m e ≤ wrap (size + 24)) :
    Heap.take e size m = (0, m) := by
  rw [Heap.take, if_neg (by simp; omega), if_neg (by omega)]

theorem take_eq_exact (hsize : size ≤ entrySize m e) (hwrap : entrySize m e ≤ wrap (size + 24)) :
    Heap.take e size m = (wrap (e + 24), setEntryFree m e false) := by
  rw [Heap.take, if_pos (by simp [hsize, hwrap])]

theorem take_eq_split (hwrap : wrap (size + 24) < entrySize m e) :
    Heap.take e size m = (wrap (e + 24), Heap.split e size m) := by
  rw [Heap.take, if_neg (by simp; omega), if_pos hwrap]

/-- The block is split in two, whose headers are all that changes. The size that the second one
    records is as `split` computes it. -/
theorem split_spec (h : Header trust m e b next) (hend : e + 24 + size < 2 ^ 64)
    (hrest : next ≠ 0 ∨ trust → wrapSub size (wrap (entrySize m e + 24)) = k) :
    Header trust (Heap.split e size m) e ⟨size, false⟩ (e + 24 + size) ∧
      Header trust (Heap.split e size m) (e + 24 + size) ⟨k, true⟩ next ∧
      ∀ x, ¬(e ≤ x ∧ x < e + 24) → ¬(e + 24 + size ≤ x ∧ x < e + 24 + size + 24) →
        Heap.split e size m x = m x := by
  obtain ⟨t, ht⟩ : ∃ t, t = e + 24 + size := ⟨_, rfl⟩
  have hwrap : wrap (e + size + 24) = t := by
    rw [wrap_of_lt (by omega)]
    omega
  -- The new entry is written first, with what the old one still holds.
  set m₁ := setEntryFree m t true with hm₁
  have h₁ : Header True m₁ e ⟨entrySize m e, b.free⟩ next :=
    h.recorded.congr fun x _ _ => setEntryFree_of_not_mem (by omega)
  have t₁ : Header True m₁ t ⟨entrySize m t, true⟩ (entryNext m t) := header_self.setFree
  set m₂ := setEntryNext m₁ t next with hm₂
  have h₂ : Header True m₂ e ⟨entrySize m e, b.free⟩ next :=
    h₁.congr fun x _ _ => setEntryNext_of_not_mem (by omega)
  have t₂ : Header True m₂ t ⟨entrySize m t, true⟩ next := t₁.setNext h.next_lt
  set m₃ := setEntrySize m₂ t (wrapSub size (wrap (entrySize m e + 24))) with hm₃
  have h₃ : Header True m₃ e ⟨entrySize m e, b.free⟩ next :=
    h₂.congr fun x _ _ => setEntrySize_of_not_mem (by omega)
  have t₃ : Header trust m₃ t ⟨k, true⟩ next := (t₂.setSize (wrapSub_lt _ _)).of_recorded hrest
  have hsplit : Heap.split e size m =
      setEntryFree (setEntrySize (setEntryNext m₃ e t) e size) e false := by
    rw [Heap.split]
    simp only [hwrap, ← hm₁, h₁.next, ← hm₂, h₂.size (.inr trivial), ← hm₃]
  have hframe : ∀ x, ¬(e ≤ x ∧ x < e + 24) → Heap.split e size m x = m₃ x := fun x hx => by
    rw [hsplit, setEntryFree_of_not_mem hx, setEntrySize_of_not_mem hx, setEntryNext_of_not_mem hx]
  rw [← ht]
  refine ⟨?_, t₃.congr fun x hx hx' => hframe x (by omega), fun x hx hx' => ?_⟩
  · rw [hsplit]
    exact (((h₃.setNext (by omega)).setSize (by omega)).setFree).of_recorded fun _ => rfl
  · rw [hframe x hx, hm₃, setEntrySize_of_not_mem hx', hm₂, setEntryNext_of_not_mem hx', hm₁,
      setEntryFree_of_not_mem hx']

/-! ## Merging -/

/-- Blocks merged pairwise, from the first one on. -/
def pass : List Block → List Block
  | [] => []
  | [b] => [b]
  | b :: c :: bs =>
    if b.free && c.free then ⟨b.size + c.size + 24, true⟩ :: pass bs else b :: pass (c :: bs)

theorem pass_ne_nil (h : bs ≠ []) : pass bs ≠ [] := by
  fun_cases pass bs <;> simp_all

@[simp]
theorem extent_pass : extent (pass bs) = extent bs := by
  fun_induction pass bs with
  | case1 => rfl
  | case2 => rfl
  | case3 b c bs _ ih =>
    simp only [extent_cons, ih]
    omega
  | case4 b c bs _ ih => rw [extent_cons, ih, ← extent_cons]

/-- The payloads in use stay where they are. -/
@[simp]
theorem used_pass : used a (pass bs) = used a bs := by
  fun_induction pass bs generalizing a with
  | case1 => rfl
  | case2 => rfl
  | case3 b c bs h ih =>
    obtain ⟨hb, hc⟩ := (Bool.and_eq_true _ _).mp h
    have hend : a + 24 + (b.size + c.size + 24) = a + 24 + b.size + 24 + c.size := by omega
    simp only [used, ih, hb, hc, if_true, List.nil_append, hend]
  | case4 b c bs _ ih => rw [used, ih, used.eq_2 a b]

/-- The body of the loop at the last entry. -/
theorem cleanBody_of_last (h : Header trust m e b 0) : Heap.cleanBody (e, m) = .inr m := by
  rw [Heap.cleanBody, if_pos h.next]

/-- An entry merged with the one after it: it records `size`, and points to `next`. -/
def merge (e size next : ℕ) (m : Mem) : Mem := setEntryNext (setEntrySize m e size) e next

theorem merge_of_not_mem (hx : ¬(e ≤ x ∧ x < e + 24)) : merge e size next m x = m x := by
  rw [merge, setEntryNext_of_not_mem hx, setEntrySize_of_not_mem hx]

/-- The size that `clean` records for an entry at `e` merged with the one at `n`. -/
def mergedSize (m : Mem) (e n : ℕ) : ℕ := wrap (entrySize m e + wrap (entrySize m n + 24))

theorem merge_header {n : ℕ} (hb : Header trust m e b n) (hn : n = e + 24 + b.size)
    (hc : Header trust m n c next) (hbound : n + 24 + c.size ≤ 2 ^ 64) :
    Header trust (merge e (mergedSize m e n) next m) e ⟨b.size + c.size + 24, b.free⟩ next := by
  have hstep := (hb.recorded.setSize (v := mergedSize m e n) (wrap_lt _)).setNext hc.next_lt
  refine hstep.of_recorded fun htrust => ?_
  have hc' : wrap (c.size + 24) = c.size + 24 := wrap_of_lt (by omega)
  dsimp only
  rw [mergedSize, hb.size (.inl (by omega)), hc.size htrust, hc', wrap_of_lt (by omega),
    Nat.add_assoc]

/-- The body of the loop at an entry that has another one after it. -/
theorem cleanBody_of_next {n : ℕ} (hb : Header trust m e b n) (hn : n = e + 24 + b.size)
    (hc : Header trust m n c next) (hbound : n < 2 ^ 64) : Heap.cleanBody (e, m) =
      if b.free = true ∧ c.free = true then
        if next = 0 then .inr (merge e (mergedSize m e n) next m)
        else .inl (n, merge e (mergedSize m e n) next m)
      else .inl (n, m) := by
  have hn0 : n ≠ 0 := by omega
  have hend : entryEnd m e = n := by
    rw [entryEnd, hb.size (.inl hn0), ← hn, wrap_of_lt hbound]
  rw [Heap.cleanBody, if_neg (by rw [hb.next]; exact hn0)]
  simp only [hend, hb.free, hc.free, Bool.and_eq_true]
  by_cases hfree : b.free = true ∧ c.free = true
  · have hsize : wrap (entrySize m e + wrap (entrySize m n + 24)) = mergedSize m e n := rfl
    have hnext : entryNext (setEntrySize m e (mergedSize m e n)) n = next :=
      (hc.congr fun x _ _ => setEntrySize_of_not_mem (by omega)).next
    have hself : entryNext (merge e (mergedSize m e n) next m) e = next :=
      Mem.get64_set64 hc.next_lt
    simp only [if_pos hfree, hsize, hnext]
    rw [← merge, hself]
  · simp only [if_neg hfree]
    rw [if_neg (by rw [hb.next]; exact hn0)]

/-- What `clean` does to the blocks `bs` from `a` on. -/
structure Cleaned (trust : Prop) (a : ℕ) (bs : List Block) (m m' : Mem) : Prop where
  seg : Seg trust m' a (pass bs) 0
  outside : ∀ x, ¬(a ≤ x ∧ x < a + extent bs) → m' x = m x
  payload : ∀ p ∈ used a bs, ∀ x, p.1 ≤ x → x < p.1 + p.2 → m' x = m x

/-- The first two blocks are merged, in the memory `m₁`, and then the blocks after them. -/
theorem Cleaned.merged {m₁ : Mem} (hfree : (b.free && c.free) = true)
    (hnext : next = if bs = [] then 0 else a + 24 + b.size + 24 + c.size)
    (hself : Header trust m₁ a ⟨b.size + c.size + 24, true⟩ next)
    (hframe : ∀ x, ¬(a ≤ x ∧ x < a + 24) → m₁ x = m x)
    (hseg : Seg trust m' (a + 24 + b.size + 24 + c.size) (pass bs) 0)
    (houtside : ∀ x, ¬(a + 24 + b.size ≤ x ∧ x < a + 24 + b.size + 24 + c.size + extent bs) →
      m' x = m₁ x)
    (hpayload : ∀ p ∈ used (a + 24 + b.size + 24 + c.size) bs, ∀ x, p.1 ≤ x → x < p.1 + p.2 →
      m' x = m₁ x) :
    Cleaned trust a (b :: c :: bs) m m' where
  seg := by
    have hend : a + 24 + (b.size + c.size + 24) = a + 24 + b.size + 24 + c.size := by omega
    have hiff : pass bs = [] ↔ bs = [] := ⟨fun h => by_contra fun hne => pass_ne_nil hne h,
      fun h => by rw [h, pass]⟩
    rw [pass, if_pos hfree]
    refine ⟨?_, by rwa [hend]⟩
    simp only [hiff, hend, ← hnext]
    exact hself.congr fun x _ _ => houtside x (by omega)
  outside x hx := by
    simp only [extent_cons] at hx
    rw [houtside x (by omega), hframe x (by omega)]
  payload p hp x hx hx' := by
    -- Neither of the two is in use.
    obtain ⟨hb, hc⟩ := (Bool.and_eq_true _ _).mp hfree
    rw [used, used, hb, hc, if_pos rfl, if_pos rfl, List.nil_append, List.nil_append] at hp
    have := mem_used hp
    rw [hpayload p hp x hx hx', hframe x (by omega)]

/-- The first block stays as it is. -/
theorem Cleaned.skipped (hb : Header trust m a b (a + 24 + b.size))
    (hfree : ¬(b.free && c.free) = true) (h : Cleaned trust (a + 24 + b.size) (c :: bs) m m') :
    Cleaned trust a (b :: c :: bs) m m' where
  seg := by
    rw [pass, if_neg hfree]
    refine ⟨?_, h.seg⟩
    rw [if_neg (pass_ne_nil (List.cons_ne_nil c bs))]
    exact hb.congr fun x _ _ => h.outside x (by omega)
  outside x hx := by
    rw [extent_cons] at hx
    exact h.outside x (by omega)
  payload p hp x hx hx' := by
    rw [used, List.mem_append] at hp
    rcases hp with hp | hp
    · split_ifs at hp
      · exact absurd hp List.not_mem_nil
      · rw [List.mem_singleton.1 hp] at hx hx'
        exact h.outside x (by dsimp only at hx'; omega)
    · exact h.payload p hp x hx hx'

/-- The round after a merge, which starts from the header that has been merged away: it leaves that
    header's block `c` alone but for the header. -/
theorem cleaned_of_merged (hc : Header trust m e c a) (ha : a = e + 24 + c.size)
    (hS : Seg trust m a bs 0) (hne : bs ≠ []) (hbound : a + extent bs ≤ 2 ^ 64)
    (ih : ∀ m, Seg trust m a bs 0 → ∃ m', Returns (fun n => loop Heap.cleanBody n (a, m)) m' ∧
      Cleaned trust a bs m m') :
    ∃ m', Returns (fun n => loop Heap.cleanBody n (e, m)) m' ∧ Seg trust m' a (pass bs) 0 ∧
      (∀ x, ¬(e ≤ x ∧ x < a + extent bs) → m' x = m x) ∧
      ∀ p ∈ used a bs, ∀ x, p.1 ≤ x → x < p.1 + p.2 → m' x = m x := by
  obtain ⟨d, rest, rfl⟩ := List.exists_cons_of_ne_nil hne
  rw [extent_cons] at hbound
  have hbody := cleanBody_of_next hc ha hS.1 (by omega)
  obtain ⟨next, hnext⟩ : ∃ next, next = if rest = [] then 0 else a + 24 + d.size := ⟨_, rfl⟩
  rw [← hnext] at hbody
  by_cases hfree : c.free = true ∧ d.free = true
  · -- What is merged into the header does not concern the blocks after it.
    obtain ⟨m₁, hm₁⟩ : ∃ m₁, m₁ = merge e (mergedSize m e a) next m := ⟨_, rfl⟩
    have hframe : ∀ x, ¬(e ≤ x ∧ x < e + 24) → m₁ x = m x := fun x hx => by
      rw [hm₁, merge_of_not_mem hx]
    have hS₁ : Seg trust m₁ a (d :: rest) 0 := hS.congr_of_mem fun x hx _ => hframe x (by omega)
    rw [if_pos hfree, ← hm₁] at hbody
    by_cases hrest : rest = []
    · subst hrest
      rw [if_pos rfl] at hnext
      rw [if_pos hnext] at hbody
      refine ⟨m₁, returns_loop_exit hbody, hS₁,
        fun x hx => hframe x (by rw [extent_cons] at hx; omega), fun p hp x hx _ => hframe x ?_⟩
      have := mem_used hp
      omega
    · rw [if_neg hrest] at hnext
      rw [if_neg (by omega)] at hbody
      obtain ⟨m', hreturns, hclean⟩ := ih m₁ hS₁
      refine ⟨m', (returns_loop_next hbody).2 hreturns, hclean.seg, fun x hx => ?_,
        fun p hp x hx hx' => ?_⟩
      · rw [hclean.outside x (by omega), hframe x (by omega)]
      · have := mem_used hp
        rw [hclean.payload p hp x hx hx', hframe x (by omega)]
  · -- Nothing is merged, and the loop goes on at `a`.
    rw [if_neg hfree] at hbody
    obtain ⟨m', hreturns, hclean⟩ := ih m hS
    exact ⟨m', (returns_loop_next hbody).2 hreturns, hclean.seg,
      fun x hx => hclean.outside x (by omega), hclean.payload⟩

/-- `clean` merges the blocks pairwise, and changes nothing outside the arena and no payload in
    use. -/
theorem clean_spec (hS : Seg trust m a bs 0) (hne : bs ≠ []) (hbound : a + extent bs ≤ 2 ^ 64) :
    ∃ m', Returns (fun n => loop Heap.cleanBody n (a, m)) m' ∧ Cleaned trust a bs m m' := by
  fun_induction pass bs generalizing a m with
  | case1 => exact absurd rfl hne
  | case2 b =>
    exact ⟨m, returns_loop_exit (cleanBody_of_last hS.1), hS, fun _ _ => rfl, fun _ _ _ _ _ => rfl⟩
  | case3 b c bs hfree ih =>
    obtain ⟨hb, hc, hbs⟩ := hS
    rw [if_neg (List.cons_ne_nil c bs)] at hb
    simp only [extent_cons] at hbound
    have hbody := cleanBody_of_next hb rfl hc (by omega)
    have hfree' : b.free = true ∧ c.free = true := by simpa using hfree
    obtain ⟨next, hnext⟩ :
        ∃ next, next = if bs = [] then 0 else a + 24 + b.size + 24 + c.size := ⟨_, rfl⟩
    rw [← hnext] at hc hbody
    rw [if_pos hfree'] at hbody
    set m₁ := merge a (mergedSize m a (a + 24 + b.size)) next m with hm₁
    have hframe : ∀ x, ¬(a ≤ x ∧ x < a + 24) → m₁ x = m x := fun x hx => merge_of_not_mem hx
    have hself : Header trust m₁ a ⟨b.size + c.size + 24, true⟩ next :=
      hfree'.1 ▸ merge_header hb rfl hc (by omega)
    by_cases hbs' : bs = []
    · subst hbs'
      rw [if_pos rfl] at hnext
      rw [if_pos hnext] at hbody
      exact ⟨m₁, returns_loop_exit hbody, .merged hfree hnext hself hframe trivial
        (fun _ _ => rfl) fun _ _ _ _ _ => rfl⟩
    · -- The loop goes on from the header of `c`, which still points to what is after it.
      have hnext' := hnext.trans (if_neg hbs')
      rw [if_neg (by omega)] at hbody
      have hc₁ : Header trust m₁ (a + 24 + b.size) c next :=
        hc.congr fun x _ _ => hframe x (by omega)
      have hbs₁ : Seg trust m₁ next bs 0 :=
        hnext' ▸ hbs.congr_of_mem fun x _ _ => hframe x (by omega)
      obtain ⟨m', hreturns, hseg, houtside, hpayload⟩ := cleaned_of_merged hc₁ hnext' hbs₁ hbs'
        (by omega) fun m hm => ih hm hbs' (by omega)
      subst hnext'
      exact ⟨m', (returns_loop_next hbody).2 hreturns,
        .merged hfree hnext hself hframe hseg houtside hpayload⟩
  | case4 b c bs hfree ih =>
    obtain ⟨hb, hcs⟩ := hS
    rw [if_neg (List.cons_ne_nil c bs)] at hb
    rw [extent_cons] at hbound
    have hbody := cleanBody_of_next hb rfl hcs.1 (by rw [extent_cons] at hbound; omega)
    rw [if_neg (by simpa using hfree)] at hbody
    obtain ⟨m', hreturns, hclean⟩ := ih hcs (List.cons_ne_nil c bs) (by omega)
    exact ⟨m', (returns_loop_next hbody).2 hreturns, hclean.skipped hb hfree⟩

/-! ## Freeing -/

/-- The payloads in use when one of them is freed. -/
theorem used_freed (hb : b.free = false) : used a (pre ++ ⟨b.size, true⟩ :: post) =
    (used a (pre ++ b :: post)).filter (·.1 ≠ a + extent pre + 24) := by
  have hpre : (used a pre).filter (·.1 ≠ a + extent pre + 24) = used a pre := by
    refine List.filter_eq_self.2 fun q hq => decide_eq_true ?_
    have := mem_used hq
    omega
  have hpost : (used (a + extent pre + 24 + b.size) post).filter (·.1 ≠ a + extent pre + 24) =
      used (a + extent pre + 24 + b.size) post := by
    refine List.filter_eq_self.2 fun q hq => decide_eq_true ?_
    have := mem_used hq
    omega
  rw [used_append, used_append, List.filter_append, hpre, used, used, List.filter_append, hpost, hb]
  simp

/-- `free` marks the block of a pointer as free, and merges blocks. -/
theorem free_spec {h : Heap} (hS : Seg trust m h.first (pre ++ b :: post) 0)
    (hbound : h.first + extent (pre ++ b :: post) ≤ 2 ^ 64) :
    ∃ m', Returns (fun n => h.free (h.first + extent pre + 24) m n) m' ∧
      Cleaned trust h.first (pre ++ ⟨b.size, true⟩ :: post) m m' := by
  have hextent : extent (pre ++ ⟨b.size, true⟩ :: post) =
      extent pre + (24 + b.size + extent post) := by
    rw [extent_append, extent_cons]
  rw [extent_append, extent_cons] at hbound
  have hentry : wrapSub (h.first + extent pre + 24) 24 = h.first + extent pre := by
    rw [wrapSub_eq_mod]
    omega
  obtain ⟨m₁, hm₁⟩ : ∃ m₁, m₁ = setEntryFree m (h.first + extent pre) true := ⟨_, rfl⟩
  have hframe : ∀ x, ¬(h.first + extent pre ≤ x ∧ x < h.first + extent pre + 24) → m₁ x = m x :=
    fun x hx => by rw [hm₁, setEntryFree_of_not_mem hx]
  -- The block is marked as free, and its size and its successor stay.
  have hseg : Seg trust m₁ h.first (pre ++ ([⟨b.size, true⟩] ++ post)) 0 :=
    hS.replace (List.cons_ne_nil _ _) (by simp) (fun x hx => hframe x (by omega))
      ⟨hm₁ ▸ (Seg.middle_iff.1 hS).2.1.setFree, trivial⟩
  obtain ⟨m', hreturns, hclean⟩ := clean_spec hseg (by simp) (by
    rw [List.singleton_append, hextent]; omega)
  refine ⟨m', ?_, hclean.seg, fun x hx => ?_, fun p hp x hx hx' => ?_⟩
  · simpa only [Heap.free, Heap.clean, hentry, ← hm₁] using hreturns
  · have houtside := hclean.outside x hx
    rw [hextent] at hx
    rw [houtside, hframe x (by omega)]
  · -- The header that is marked is no payload.
    have hheader : h.first + extent pre ∈ headers h.first (pre ++ ⟨b.size, true⟩ :: post) := by
      rw [headers_append, headers]
      simp
    have := headers_used_disjoint hheader hp
    rw [hclean.payload p hp x hx hx', hframe x (by omega)]

end SmartOS
