import SmartOS.MMU.Directory

/-!
# Cloning a directory

`clone` copies the tree of tables under a directory, into pages taken from the
bump allocator on the way. The copy is described from the root down: a `Copy`
has a table wherever the original has one, with the flags present and writable,
and the same words in the lowest tables; its tables are pages of their own, taken
between two values `k` and `k'` of the bump pointer.

* `Copy.of_children`: a table all of whose words are copied (`Child`), in
  successive ranges of the memory handed out, is a copy.
* `cloneTable_spec`: the nested loops make a copy, by induction on the level, and
  change nothing of what was handed out before, except the page they fill.
* `clone_refines`: the new directory is the address space `AddressSpace.clone` of
  the directory it is cloned from, and no other directory changes.
-/

namespace SmartOS

open Prog

/-- The tables become present and writable, the pages stay as they are. -/
def AddressSpace.clone (v : AddressSpace) : AddressSpace := fun p =>
  if p.length = 4 then v p else (v p).map fun _ => (0, mmuRW ||| mmuPresent)

variable {m m' m'' : Mem} {b i j k k' t u x level old new root : ℕ} {p q : List ℕ} {s : MMU}

/-! ## From the root down -/

theorem tableAt_append : ∀ {p : List ℕ},
    tableAt m root (p ++ q) = (tableAt m root q).bind fun t => tableAt m t p
  | [] => by simp [tableAt]
  | i :: p => by
    simp only [List.cons_append, tableAt, tableAt_append (p := p), Option.bind_assoc]

theorem tableAt_singleton : tableAt m root [i] = (entry m root i).map Prod.fst := by
  simp [tableAt]

theorem entryAt_append : entryAt m root (j :: (p ++ [i])) =
    (tableAt m root [i]).bind fun t => entryAt m t (j :: p) := by
  simp only [entryAt, tableAt_append (q := [i]), Option.bind_assoc]

/-! ## Copies -/

/-- The tables at `new` in `m'` are a copy, down to the given level, of those at `old` in `m`. All
    but `new` itself are pages between `k` and `k'`. -/
structure Copy (m : Mem) (old : ℕ) (m' : Mem) (new level k k' : ℕ) : Prop where
  page : ∀ {p t}, IsPath level p → p ≠ [] → tableAt m' new p = some t →
    t % 0x1000 = 0 ∧ k ≤ t ∧ t + 0x1000 ≤ k'
  inj : ∀ {p p' t}, IsPath level p → IsPath level p' → tableAt m' new p = some t →
    tableAt m' new p' = some t → p = p'
  table : ∀ {j p}, IsPath level p → p.length < level → j < 512 →
    (entryAt m' new (j :: p)).map Prod.snd =
      (entryAt m old (j :: p)).map fun _ => mmuRW ||| mmuPresent
  leaf : ∀ {j p}, IsPath level p → p.length = level → j < 512 →
    entryAt m' new (j :: p) = entryAt m old (j :: p)

/-- The word at `i` of the table `new` of `m'` is a copy of that of `old` in `m`, with the tables
    below it between `k` and `k'`. -/
inductive Child (m : Mem) (old : ℕ) (m' : Mem) (new level i k k' : ℕ) : Prop
  | absent (h : entry m old i = none) (h' : entry m' new i = none)
  | present {e : ℕ × ℕ} {u : ℕ} (h : entry m old i = some e)
    (h' : entry m' new i = some (u, mmuRW ||| mmuPresent)) (align : u % 0x1000 = 0) (lower : k ≤ u)
    (upper : u + 0x1000 ≤ k') (copy : Copy m e.1 m' u level (u + 0x1000) k')

/-- The tables at `old`, down to the given level, are pages below `b`. -/
def Below (m : Mem) (old level b : ℕ) : Prop :=
  ∀ p t, IsPath level p → tableAt m old p = some t → t % 0x1000 = 0 ∧ t + 0x1000 ≤ b

theorem get64_slot_congr (h : ∀ x, t ≤ x → x < t + 0x1000 → m' x = m x) (hi : i < 512) :
    m'.get64 (slot t i) = m.get64 (slot t i) :=
  Mem.get64_congr fun x hx hx' =>
    let ⟨hxt, hxt'⟩ := mem_page_of_mem_slot hi hx hx'
    h x hxt hxt'

theorem Below.get64_eq (hB : Below m old level b) (h : ∀ x < b, m' x = m x) (q : List ℕ) (t : ℕ)
    (hq : IsPath level q) (ht : tableAt m old q = some t) (i : ℕ) (hi : i < 512) :
    m'.get64 (slot t i) = m.get64 (slot t i) :=
  get64_slot_congr (fun x _ hx => h x (hx.trans_le (hB q t hq ht).2)) hi

theorem Below.congr (hB : Below m old level b) (h : ∀ x < b, m' x = m x) :
    Below m' old level b := fun p t hp ht =>
  hB p t hp (tableAt_congr (hB.get64_eq h) (hp.mono (Nat.le_succ level)) ▸ ht)

/-- The tables under a word of a table. -/
theorem Below.child {e : ℕ × ℕ} (hB : Below m old (level + 1) b) (hi : i < 512)
    (he : entry m old i = some e) : Below m e.1 level b := fun p t hp ht =>
  hB (p ++ [i]) t ⟨by simpa using hp.1, fun j hj => by
      rcases List.mem_append.1 hj with hj | hj
      · exact hp.2 j hj
      · rw [List.mem_singleton.1 hj]; exact hi⟩
    (by rw [tableAt_append, tableAt_singleton, he]; exact ht)

theorem Copy.get64_eq (hC : Copy m old m' new level k k')
    (h : ∀ x, (new ≤ x ∧ x < new + 0x1000) ∨ (k ≤ x ∧ x < k') → m'' x = m' x) (q : List ℕ) (t : ℕ)
    (hq : IsPath level q) (ht : tableAt m' new q = some t) (i : ℕ) (hi : i < 512) :
    m''.get64 (slot t i) = m'.get64 (slot t i) := by
  refine get64_slot_congr (fun x hx hx' => h x ?_) hi
  cases q with
  | nil =>
    cases ht
    exact .inl ⟨hx, hx'⟩
  | cons i q =>
    have := hC.page hq (List.cons_ne_nil i q) ht
    exact .inr ⟨by omega, by omega⟩

/-- A copy is in its own pages. -/
theorem Copy.congr (hC : Copy m old m' new level k k')
    (h : ∀ x, (new ≤ x ∧ x < new + 0x1000) ∨ (k ≤ x ∧ x < k') → m'' x = m' x) :
    Copy m old m'' new level k k' := by
  have htab {p : List ℕ} (hp : IsPath level p) : tableAt m'' new p = tableAt m' new p :=
    tableAt_congr (hC.get64_eq h) (hp.mono (Nat.le_succ level))
  have hentry {j : ℕ} {p : List ℕ} (hp : IsPath level p) (hj : j < 512) :
      entryAt m'' new (j :: p) = entryAt m' new (j :: p) := entryAt_congr (hC.get64_eq h) hp hj
  exact
    { page := fun hp hne ht => hC.page hp hne (htab hp ▸ ht)
      inj := fun hp hp' ht ht' => hC.inj hp hp' (htab hp ▸ ht) (htab hp' ▸ ht')
      table := fun hp hlen hj => hentry hp hj ▸ hC.table hp hlen hj
      leaf := fun hp hlen hj => hentry hp hj ▸ hC.leaf hp hlen hj }

/-- What is copied only depends on the tables that are copied. -/
theorem Copy.congr_left (hC : Copy m old m' new level k k') (hB : Below m'' old level b)
    (h : ∀ x < b, m x = m'' x) : Copy m'' old m' new level k k' where
  page := hC.page
  inj := hC.inj
  table hp hlen hj := by
    rw [hC.table hp hlen hj, entryAt_congr (hB.get64_eq h) hp hj]
  leaf hp hlen hj := by
    rw [hC.leaf hp hlen hj, entryAt_congr (hB.get64_eq h) hp hj]

theorem Child.congr (hC : Child m old m' new level i k k')
    (h : ∀ x, k ≤ x → x < k' → m'' x = m' x)
    (hw : m''.get64 (slot new i) = m'.get64 (slot new i)) :
    Child m old m'' new level i k k' := by
  cases hC with
  | absent ha ha' => exact .absent ha ((entry_congr hw).trans ha')
  | present ha ha' halign hlower hupper hcopy =>
    exact .present ha ((entry_congr hw).trans ha') halign hlower hupper
      (hcopy.congr fun x hx => h x (by omega) (by omega))

/-- The tables under a copied word. -/
theorem Child.reach (hC : Child m old m' new level i k k')
    (ht : tableAt m' new (p ++ [i]) = some t) :
    ∃ e u, entry m old i = some e ∧ entry m' new i = some (u, mmuRW ||| mmuPresent) ∧
      u % 0x1000 = 0 ∧ k ≤ u ∧ u + 0x1000 ≤ k' ∧ Copy m e.1 m' u level (u + 0x1000) k' ∧
      tableAt m' u p = some t := by
  rw [tableAt_append, tableAt_singleton] at ht
  cases hC with
  | absent _ ha' => simp [ha'] at ht
  | present ha ha' halign hlower hupper hcopy =>
    rw [ha'] at ht
    exact ⟨_, _, ha, ha', halign, hlower, hupper, hcopy, ht⟩

/-- They lie in the range of the word. -/
theorem Child.page (hC : Child m old m' new level i k k') (hp : IsPath level p)
    (ht : tableAt m' new (p ++ [i]) = some t) :
    t % 0x1000 = 0 ∧ k ≤ t ∧ t + 0x1000 ≤ k' := by
  obtain ⟨_, u, _, _, halign, hlower, hupper, hcopy, hu⟩ := hC.reach ht
  by_cases hne : p = []
  · subst hne
    cases hu
    exact ⟨halign, hlower, hupper⟩
  · have := hcopy.page hp hne hu
    omega

/-- A table is under one word only: the ranges of different words do not meet. -/
theorem Child.path_unique {k : ℕ → ℕ} {i' : ℕ} (hk : Monotone k)
    (hC : Child m old m' new level i (k i) (k (i + 1)))
    (hC' : Child m old m' new level i' (k i') (k (i' + 1))) (hp : IsPath level p)
    (hq : IsPath level q) (ht : tableAt m' new (p ++ [i]) = some t)
    (ht' : tableAt m' new (q ++ [i']) = some t) : i = i' ∧ p = q := by
  have hpage := hC.page hp ht
  have hpage' := hC'.page hq ht'
  obtain rfl : i = i' := by
    rcases Nat.lt_trichotomy i i' with hlt | rfl | hlt
    · have := hk (show i + 1 ≤ i' from hlt)
      omega
    · rfl
    · have := hk (show i' + 1 ≤ i from hlt)
      omega
  obtain ⟨_, u, _, hu, _, _, _, hcopy, hpu⟩ := hC.reach ht
  obtain ⟨_, u', _, hu', _, _, _, _, hqu⟩ := hC.reach ht'
  obtain rfl : u = u' := by simpa [hu] using hu'
  exact ⟨rfl, hcopy.inj hp hq hpu hqu⟩

/-- A path of at most `level + 1` indices, from the root down. -/
theorem isPath_cases (hp : IsPath (level + 1) p) :
    p = [] ∨ ∃ q i, p = q ++ [i] ∧ IsPath level q ∧ i < 512 := by
  rcases List.eq_nil_or_concat' p with rfl | ⟨q, i, rfl⟩
  · exact .inl rfl
  · refine .inr ⟨q, i, rfl, ⟨?_, fun j hj => hp.2 j (by simp [hj])⟩, hp.2 i (by simp)⟩
    have := hp.1
    simp only [List.length_append, List.length_singleton] at this
    omega

/-- At the lowest level, a copy is a page with the same words. -/
theorem Copy.of_words (h : ∀ j < 512, m'.get64 (slot new j) = m.get64 (slot old j)) :
    Copy m old m' new 0 k k' := by
  have hnil {p : List ℕ} (hp : IsPath 0 p) : p = [] :=
    List.length_eq_zero_iff.1 (by simpa using hp.1)
  exact
    { page := fun hp hne => absurd (hnil hp) hne
      inj := fun hp hp' _ _ => (hnil hp).trans (hnil hp').symm
      table := fun _ hlen => absurd hlen (Nat.not_lt_zero _)
      leaf := fun {j p} hp _ hj => by
        rw [hnil hp]
        simp only [entryAt, tableAt, Option.bind_some, entry, h j hj] }

/-- A table whose words are copied, each with its own range of pages, is a copy. -/
theorem Copy.of_children {k : ℕ → ℕ} (hk : Monotone k) (hnew : new + 0x1000 ≤ k 0)
    (h : ∀ i < 512, Child m old m' new level i (k i) (k (i + 1))) :
    Copy m old m' new (level + 1) (k 0) (k 512) where
  page {p t} hp hne ht := by
    obtain rfl | ⟨q, i, rfl, hq, hi⟩ := isPath_cases hp
    · exact absurd rfl hne
    · have := (h i hi).page hq ht
      have := hk (Nat.zero_le i)
      have := hk (show i + 1 ≤ 512 from hi)
      omega
  inj {p p' t} hp hp' ht ht' := by
    obtain rfl | ⟨q, i, rfl, hq, hi⟩ := isPath_cases hp <;>
      obtain rfl | ⟨q', i', rfl, hq', hi'⟩ := isPath_cases hp'
    · rfl
    · -- The root is below all other tables.
      cases ht
      have := (h i' hi').page hq' ht'
      have := hk (Nat.zero_le i')
      omega
    · cases ht'
      have := (h i hi).page hq ht
      have := hk (Nat.zero_le i)
      omega
    · obtain ⟨rfl, rfl⟩ := (h i hi).path_unique hk (h i' hi') hq hq' ht ht'
      rfl
  table {j p} hp hlen hj := by
    obtain rfl | ⟨q, i, rfl, hq, hi⟩ := isPath_cases hp
    · cases h j hj with
      | absent ha ha' => simp [entryAt, tableAt, ha, ha']
      | present ha ha' => simp [entryAt, tableAt, ha, ha']
    · rw [entryAt_append, entryAt_append, tableAt_singleton, tableAt_singleton]
      cases h i hi with
      | absent ha ha' => simp [ha, ha']
      | present ha ha' _ _ _ hcopy =>
        rw [ha, ha']
        exact hcopy.table hq (by simpa using hlen) hj
  leaf {j p} hp hlen hj := by
    obtain rfl | ⟨q, i, rfl, hq, hi⟩ := isPath_cases hp
    · simp at hlen
    · rw [entryAt_append, entryAt_append, tableAt_singleton, tableAt_singleton]
      cases h i hi with
      | absent ha ha' => simp [ha, ha']
      | present ha ha' _ _ _ hcopy =>
        rw [ha, ha']
        exact hcopy.leaf hq (by simpa using hlen) hj

/-! ## The loops of `clone` -/

/-- The round of the loops of `clone` for the word at `i`. -/
def cloneEntry (level old new : ℕ) (s : MMU) (i : ℕ) : MMU :=
  if s.mem.get64 (slot old i) &&& mmuPresent ≠ 0 then
    let below := s.mem.get64 (slot old i) &&& mmuAddr
    let (phys, s) := kmallocA 0x1000 s
    let s := { s with mem := s.mem.set64 (slot new i) (phys ||| mmuRW ||| mmuPresent) }
    cloneTable level below (s.mem.get64 (slot new i) &&& mmuAddr) s
  else { s with mem := s.mem.set64 (slot new i) 0 }

/-- The first `n` rounds. -/
def cloneUpTo (level old new n : ℕ) (s : MMU) : MMU :=
  (List.range n).foldl (cloneEntry level old new) s

theorem cloneTable_zero :
    cloneTable 0 old new s = { s with mem := memcpy s.mem new old 0x1000 } := rfl

theorem cloneTable_succ : cloneTable (level + 1) old new s = cloneUpTo level old new 512 s := rfl

theorem cloneUpTo_succ {n : ℕ} : cloneUpTo level old new (n + 1) s =
    cloneEntry level old new (cloneUpTo level old new n s) n := by
  simp only [cloneUpTo, List.range_succ, List.foldl_append, List.foldl_cons, List.foldl_nil]

/-- A word that is present gets a new page, which the loops of the level below fill. -/
theorem cloneEntry_of_present (h : s.mem.get64 (slot old i) &&& mmuPresent ≠ 0) :
    cloneEntry level old new s i =
      let mem := s.mem.set64 (slot new i) ((kmallocA 0x1000 s).1 ||| mmuRW ||| mmuPresent)
      cloneTable level (s.mem.get64 (slot old i) &&& mmuAddr) (mem.get64 (slot new i) &&& mmuAddr)
        { s with mem := mem, kmallocAddr := pageAlign s.kmallocAddr + 0x1000 } := by
  rw [cloneEntry, if_pos h]
  rfl

theorem cloneEntry_of_absent (h : s.mem.get64 (slot old i) &&& mmuPresent = 0) :
    cloneEntry level old new s i = { s with mem := s.mem.set64 (slot new i) 0 } := by
  rw [cloneEntry, if_neg (not_not.2 h)]

theorem le_cloneEntry_of_le (h : ∀ {old new : ℕ} {s : MMU},
      s.kmallocAddr ≤ (cloneTable level old new s).kmallocAddr) :
    s.kmallocAddr ≤ (cloneEntry level old new s i).kmallocAddr := by
  by_cases habs : s.mem.get64 (slot old i) &&& mmuPresent = 0
  · rw [cloneEntry_of_absent habs]
  · rw [cloneEntry_of_present habs]
    refine le_trans ?_ h
    exact (pageAlign_spec s.kmallocAddr).2.1.trans (Nat.le_add_right _ _)

theorem le_cloneUpTo_of_le {n : ℕ} (h : ∀ {old new : ℕ} {s : MMU},
      s.kmallocAddr ≤ (cloneTable level old new s).kmallocAddr) :
    s.kmallocAddr ≤ (cloneUpTo level old new n s).kmallocAddr := by
  induction n with
  | zero => exact le_rfl
  | succ n ih =>
    rw [cloneUpTo_succ]
    exact ih.trans (le_cloneEntry_of_le h)

theorem le_cloneTable_kmallocAddr : s.kmallocAddr ≤ (cloneTable level old new s).kmallocAddr := by
  induction level generalizing old new s with
  | zero => rw [cloneTable_zero]
  | succ level ih =>
    rw [cloneTable_succ]
    exact le_cloneUpTo_of_le ih

theorem le_cloneEntry_kmallocAddr : s.kmallocAddr ≤ (cloneEntry level old new s i).kmallocAddr :=
  le_cloneEntry_of_le le_cloneTable_kmallocAddr

theorem monotone_cloneUpTo_kmallocAddr :
    Monotone fun n => (cloneUpTo level old new n s).kmallocAddr :=
  monotone_nat_of_le_succ fun _ => cloneUpTo_succ ▸ le_cloneEntry_kmallocAddr

/-- What the loops take at most, with a page for every word that is present. -/
def cloneCost : ℕ → ℕ
  | 0 => 0
  | level + 1 => 512 * (0x2000 + cloneCost level)

theorem cloneEntry_kmallocAddr_le (h : ∀ {old new : ℕ} {s : MMU},
      (cloneTable level old new s).kmallocAddr ≤ s.kmallocAddr + cloneCost level) :
    (cloneEntry level old new s i).kmallocAddr ≤ s.kmallocAddr + (0x2000 + cloneCost level) := by
  by_cases habs : s.mem.get64 (slot old i) &&& mmuPresent = 0
  · rw [cloneEntry_of_absent habs]
    exact Nat.le_add_right _ _
  · rw [cloneEntry_of_present habs]
    refine h.trans ?_
    have := (pageAlign_spec s.kmallocAddr).2.2
    show pageAlign s.kmallocAddr + 0x1000 + cloneCost level ≤ _
    omega

theorem cloneTable_kmallocAddr_le :
    (cloneTable level old new s).kmallocAddr ≤ s.kmallocAddr + cloneCost level := by
  induction level generalizing old new s with
  | zero => exact le_rfl
  | succ level ih =>
    have hupTo (n : ℕ) : (cloneUpTo level old new n s).kmallocAddr ≤
        s.kmallocAddr + n * (0x2000 + cloneCost level) := by
      induction n with
      | zero => exact Nat.le_add_right _ _
      | succ n ihn =>
        rw [cloneUpTo_succ, Nat.add_one_mul, ← Nat.add_assoc]
        exact (cloneEntry_kmallocAddr_le ih).trans (Nat.add_le_add_right ihn _)
    exact hupTo 512

/-- What the loop that fills the page `new` does: nothing of the memory handed out before changes
    but that page, and it is a copy. -/
structure Cloned (level old new : ℕ) (s s' : MMU) : Prop where
  frame : ∀ x < s.kmallocAddr, ¬(new ≤ x ∧ x < new + 0x1000) → s'.mem x = s.mem x
  copy : Copy s.mem old s'.mem new level s.kmallocAddr s'.kmallocAddr

/-- What the loops do, for tables below `b` and a page above. -/
def ClonesTables (level : ℕ) : Prop := ∀ old new b s, Below s.mem old level b → b ≤ new →
  new % 0x1000 = 0 → new + 0x1000 ≤ s.kmallocAddr →
  (cloneTable level old new s).kmallocAddr ≤ 2 ^ 52 →
  Cloned level old new s (cloneTable level old new s)

theorem or_flags : (u ||| mmuRW ||| mmuPresent) = u ||| (mmuRW ||| mmuPresent) := Nat.or_assoc u 2 1

/-- The loops of the level below fill the page that the new word leads to. -/
theorem cloneEntry_eq_cloneTable (h : s.mem.get64 (slot old i) &&& mmuPresent ≠ 0)
    (hlim : pageAlign s.kmallocAddr + 0x1000 ≤ 2 ^ 52) :
    cloneEntry level old new s i =
      cloneTable level (s.mem.get64 (slot old i) &&& mmuAddr) (pageAlign s.kmallocAddr) { s with
        mem := s.mem.set64 (slot new i) (pageAlign s.kmallocAddr ||| (mmuRW ||| mmuPresent))
        kmallocAddr := pageAlign s.kmallocAddr + 0x1000 } := by
  have hself := entry_set64_self (m := s.mem) (t := new) (i := i) (pageAlign_spec s.kmallocAddr).1
    (by omega) (show mmuRW ||| mmuPresent < 0x1000 by decide) (by decide)
  have hphys : (kmallocA 0x1000 s).1 = pageAlign s.kmallocAddr :=
    kmallocA_fst (by rw [kmallocA_kmallocAddr]; omega)
  rw [cloneEntry_of_present h, hphys]
  simp only [or_flags]
  exact congrArg (cloneTable level _ · _) (entry_eq_some hself)

/-- One round: the word is copied, and of the memory handed out before nothing else changes. `m` is
    the memory before the loop. -/
theorem cloneEntry_spec (ih : ClonesTables level) (hB : Below m old (level + 1) b)
    (hm : ∀ x < b, s.mem x = m x) (hb : b ≤ new) (halign : new % 0x1000 = 0)
    (hnew : new + 0x1000 ≤ s.kmallocAddr) (hi : i < 512)
    (hlim : (cloneEntry level old new s i).kmallocAddr ≤ 2 ^ 52) :
    (∀ x < s.kmallocAddr, ¬(slot new i ≤ x ∧ x < slot new i + 8) →
        (cloneEntry level old new s i).mem x = s.mem x) ∧
      Child m old (cloneEntry level old new s i).mem new level i s.kmallocAddr
        (cloneEntry level old new s i).kmallocAddr := by
  have hold : old + 0x1000 ≤ b := (hB [] old isPath_nil rfl).2
  have hentry : entry s.mem old i = entry m old i :=
    entry_congr (get64_slot_congr (fun x _ hx => hm x (by omega)) hi)
  by_cases habs : s.mem.get64 (slot old i) &&& mmuPresent = 0
  · rw [cloneEntry_of_absent habs]
    refine ⟨fun x _ hx => Mem.set64_of_not_mem hx, .absent ?_ ?_⟩
    · rw [← hentry, entry_eq_none_iff]
      exact habs
    · exact entry_of_zero (Mem.get64_set64 (by omega))
  · have hpa := pageAlign_spec s.kmallocAddr
    have hu52 : pageAlign s.kmallocAddr + 0x1000 ≤ 2 ^ 52 := by
      refine le_trans ?_ hlim
      rw [cloneEntry_of_present habs]
      exact le_cloneTable_kmallocAddr.trans' le_rfl
    have heq := @cloneEntry_eq_cloneTable i level old new s habs hu52
    set u := pageAlign s.kmallocAddr with hu
    set below := s.mem.get64 (slot old i) &&& mmuAddr with hbelow
    set s₁ : MMU := { s with
      mem := s.mem.set64 (slot new i) (u ||| (mmuRW ||| mmuPresent)), kmallocAddr := u + 0x1000 }
      with hs₁
    have hself : entry s₁.mem new i = some (u, mmuRW ||| mmuPresent) :=
      entry_set64_self hpa.1 (by omega) (by decide) (by decide)
    have hsome : entry m old i = some (below, s.mem.get64 (slot old i) &&& 0xFFF) := by
      rw [← hentry]
      simp only [entry, if_neg habs]
      rfl
    have hagree : ∀ x < b, s₁.mem x = m x := fun x hx =>
      (Mem.set64_of_not_mem (by simp only [slot]; omega)).trans (hm x hx)
    have hchild : Below m below level b := hB.child hi hsome
    obtain ⟨hframe, hcopy⟩ := ih below u b s₁ (hchild.congr hagree) (hb.trans (by omega)) hpa.1
      le_rfl (heq ▸ hlim)
    rw [heq]
    refine ⟨fun x hx hne => ?_, .present hsome ?_ hpa.1 hpa.2.1 ?_ ?_⟩
    · have hx' : x < s₁.kmallocAddr := by show x < u + 0x1000; omega
      exact (hframe x hx' (by omega)).trans (Mem.set64_of_not_mem hne)
    · -- The page `new`, below the pages of the tables under the word, has not changed.
      refine (entry_congr (get64_slot_congr (fun x hx hx' => hframe x ?_ ?_) hi)).trans hself
      · show x < u + 0x1000
        omega
      · omega
    · exact le_cloneTable_kmallocAddr.trans' le_rfl
    · exact hcopy.congr_left hchild hagree

/-- The first `n` rounds change nothing that was handed out before but the page `new`, whose first
    `n` words are copied. -/
structure ClonedUpTo (level old new n : ℕ) (s : MMU) : Prop where
  frame : ∀ x < s.kmallocAddr, ¬(new ≤ x ∧ x < new + 0x1000) →
    (cloneUpTo level old new n s).mem x = s.mem x
  children : ∀ i < n, Child s.mem old (cloneUpTo level old new n s).mem new level i
    (cloneUpTo level old new i s).kmallocAddr (cloneUpTo level old new (i + 1) s).kmallocAddr

/-- The round for word `n` leaves the words before it, and the tables under them, as they are. -/
theorem ClonedUpTo.succ {n : ℕ} (h : ClonedUpTo level old new n s) (ih : ClonesTables level)
    (hB : Below s.mem old (level + 1) b) (hb : b ≤ new) (halign : new % 0x1000 = 0)
    (hnew : new + 0x1000 ≤ s.kmallocAddr) (hn : n < 512)
    (hlim : (cloneUpTo level old new (n + 1) s).kmallocAddr ≤ 2 ^ 52) :
    ClonedUpTo level old new (n + 1) s := by
  have hmono : Monotone fun n => (cloneUpTo level old new n s).kmallocAddr :=
    monotone_cloneUpTo_kmallocAddr
  have hk : s.kmallocAddr ≤ (cloneUpTo level old new n s).kmallocAddr := hmono (Nat.zero_le n)
  obtain ⟨hstep, hchild⟩ := cloneEntry_spec ih (s := cloneUpTo level old new n s) (i := n) hB
    (fun x hx => h.frame x (by omega) (by omega)) hb halign (by omega) hn (cloneUpTo_succ ▸ hlim)
  rw [← cloneUpTo_succ] at hstep hchild
  refine ⟨fun x hx hne => ?_, fun i hi => ?_⟩
  · refine (hstep x (by omega) fun hx' => hne ?_).trans (h.frame x hx hne)
    exact mem_page_of_mem_slot hn hx'.1 hx'.2
  · rcases Nat.lt_succ_iff_lt_or_eq.1 hi with hi | rfl
    · have hki : (cloneUpTo level old new (i + 1) s).kmallocAddr ≤
          (cloneUpTo level old new n s).kmallocAddr := hmono hi
      have hk0 : s.kmallocAddr ≤ (cloneUpTo level old new i s).kmallocAddr :=
        hmono (Nat.zero_le i)
      refine (h.children i hi).congr (fun x hx hx' => hstep x (by omega) ?_)
        (Mem.get64_congr fun x hx hx' => hstep x ?_ ?_)
      · simp only [slot]
        omega
      · simp only [slot] at hx'
        omega
      · simp only [slot] at hx hx' ⊢
        omega
    · exact hchild

/-- The loops copy the tables. -/
theorem cloneTable_spec : ∀ level, ClonesTables level
  | 0 => fun old new b s hB hb _ _ _ => by
    have hold : old + 0x1000 ≤ b := (hB [] old isPath_nil rfl).2
    have hmem : (cloneTable 0 old new s).mem = s.mem.copy new s.mem old 0x1000 := by
      rw [cloneTable_zero, ← memcpy_eq_copy (.inr (show old + 0x1000 ≤ new by omega))]
    refine ⟨fun x _ hx => ?_, .of_words fun j hj => ?_⟩
    · rw [hmem]
      exact Mem.copy_of_not_mem hx
    · rw [hmem]
      exact Mem.get64_copy (by omega)
  | level + 1 => fun old new b s hB hb halign hnew hlim => by
    have hmono : Monotone fun n => (cloneUpTo level old new n s).kmallocAddr :=
      monotone_cloneUpTo_kmallocAddr
    have hrounds : ∀ n ≤ 512, ClonedUpTo level old new n s := by
      intro n hn
      induction n with
      | zero => exact ⟨fun _ _ _ => rfl, fun i hi => absurd hi (Nat.not_lt_zero i)⟩
      | succ n ihn =>
        exact (ihn (Nat.le_of_succ_le hn)).succ (cloneTable_spec level) hB hb halign hnew hn
          ((hmono hn).trans hlim)
    obtain ⟨hframe, hchildren⟩ := hrounds 512 le_rfl
    rw [cloneTable_succ]
    exact ⟨hframe, .of_children hmono hnew hchildren⟩

/-! ## `clone` -/

variable {this lo r lim : ℕ} {dirs : List ℕ} {A : ℕ → AddressSpace}

/-- The state after a page has been handed out. -/
def pageTaken (s : MMU) : MMU := { s with kmallocAddr := pageAlign s.kmallocAddr + 0x1000 }

theorem clone_eq (hlim : (clone this s).2.kmallocAddr ≤ 2 ^ 52) :
    clone this s =
      (pageAlign s.kmallocAddr, cloneTable 3 this (pageAlign s.kmallocAddr) (pageTaken s)) := by
  have hsnd : (kmallocA 0x1000 s).2 = pageTaken s := rfl
  have hk : (kmallocA 0x1000 s).2.kmallocAddr ≤ (clone this s).2.kmallocAddr :=
    le_cloneTable_kmallocAddr
  have hpage : kmallocA 0x1000 s = (pageAlign s.kmallocAddr, pageTaken s) :=
    Prod.ext (kmallocA_fst (by omega)) hsnd
  simp only [clone, hpage]

theorem clone_snd : (clone this s).2 =
    cloneTable 3 this (kmallocA 0x1000 s).1 (kmallocA 0x1000 s).2 := by rw [clone]

theorem le_clone_kmallocAddr : s.kmallocAddr ≤ (clone this s).2.kmallocAddr := by
  have hpa := pageAlign_spec s.kmallocAddr
  have htake : s.kmallocAddr ≤ (kmallocA 0x1000 s).2.kmallocAddr := by
    rw [kmallocA_kmallocAddr]
    omega
  rw [clone_snd]
  exact htake.trans le_cloneTable_kmallocAddr

theorem clone_kmallocAddr_le :
    (clone this s).2.kmallocAddr ≤ s.kmallocAddr + (0x2000 + cloneCost 3) := by
  have hpa := pageAlign_spec s.kmallocAddr
  have htables := @cloneTable_kmallocAddr_le 3 this (kmallocA 0x1000 s).1 (kmallocA 0x1000 s).2
  rw [kmallocA_kmallocAddr] at htables
  rw [clone_snd]
  omega

/-- The address space of a copy. -/
theorem Copy.view_eq (hC : Copy m old m' new 3 k k') : view m' new = (view m old).clone := by
  refine eq_view_of_cons (fun p hp => ?_) (by simp [AddressSpace.clone]) fun j p hp hj => ?_
  · simp [AddressSpace.clone, view_of_not_isPath hp]
  · simp only [AddressSpace.clone, view_cons hp hj, List.length_cons]
    by_cases hlen : p.length = 3
    · rw [hC.leaf hp hlen hj, if_pos (by omega)]
    · have htable := hC.table hp (lt_of_le_of_ne hp.1 hlen) hj
      rw [if_neg (by omega)]
      cases ho : entryAt m old (j :: p) <;> cases hn : entryAt m' new (j :: p) <;>
        simp_all

/-- The tables of a directory and those of a copy above them. -/
theorem Forest.cons_copy (hF : Forest m lo lim dirs) (hm : ∀ x < lim, m' x = m x)
    (hC : Copy m old m' new 3 k k') (hnew : lim ≤ new) (halign : new % 0x1000 = 0)
    (hk : new + 0x1000 ≤ k) (hk' : k ≤ k') (hlo : lo ≤ lim) : Forest m' lo k' (new :: dirs) := by
  have hF' : Forest m' lo lim dirs := hF.congr (fun x _ hx => hm x hx) le_rfl
  have hpage {p : List ℕ} {t : ℕ} (hp : IsPath 3 p) (ht : tableAt m' new p = some t) :
      t % 0x1000 = 0 ∧ lim ≤ t ∧ t + 0x1000 ≤ k' := by
    by_cases hne : p = []
    · subst hne
      cases ht
      omega
    · have := hC.page hp hne ht
      omega
  refine ⟨fun hr hp ht => ?_, fun hr hr' hp hp' ht ht' => ?_⟩
  · rcases List.mem_cons.1 hr with rfl | hr
    · have := hpage hp ht
      omega
    · have := hF'.page hr hp ht
      omega
  · rcases List.mem_cons.1 hr with rfl | hd <;> rcases List.mem_cons.1 hr' with rfl | hd'
    · exact ⟨rfl, hC.inj hp hp' ht ht'⟩
    · have := (hpage hp ht).2.1
      have := (hF'.page hd' hp' ht').2.2
      omega
    · have := (hpage hp' ht').2.1
      have := (hF'.page hd hp ht).2.2
      omega
    · exact hF'.inj hd hd' hp hp' ht ht'

theorem Refines.kmallocAddr_lt (h : Refines s lo dirs A) (hr : r ∈ dirs) :
    r % 0x1000 = 0 ∧ r + 0x1000 ≤ s.kmallocAddr :=
  let ⟨halign, _, hle⟩ := h.forest.page hr (p := []) isPath_nil rfl
  ⟨halign, hle⟩

/-- A copy in pages above the tables adds a directory. -/
theorem Refines.cons_copy {s' : MMU} (h : Refines s lo dirs A) (hthis : this ∈ dirs)
    (hm : ∀ x < s.kmallocAddr, s'.mem x = s.mem x)
    (hC : Copy s.mem this s'.mem new 3 k s'.kmallocAddr)
    (hnew : s.kmallocAddr ≤ new) (halign : new % 0x1000 = 0) (hk : new + 0x1000 ≤ k)
    (hk' : k ≤ s'.kmallocAddr) :
    new ∉ dirs ∧ Refines s' lo (new :: dirs) (Function.update A new (A this).clone) := by
  have hbound := h.bound
  refine ⟨fun hmem => ?_, h.forest.cons_copy hm hC hnew halign hk hk' hbound, by omega,
    fun r hr => ?_⟩
  · have := (h.kmallocAddr_lt hmem).2
    omega
  · by_cases hrd : r = new
    · rw [hrd, Function.update_self, hC.view_eq, h.view_eq this hthis]
    · have hr' : r ∈ dirs := (List.mem_cons.1 hr).resolve_left hrd
      rw [Function.update_of_ne hrd, ← h.view_eq r hr']
      exact view_congr fun j p hp hj =>
        h.forest.entryAt_congr (fun x _ hx => hm x hx) hr' hp hj

/-- What `clone` does, whatever its loops: the new directory is the next page, and the tables above
    it are a copy. -/
theorem clone_cloned (hF : Forest s.mem lo s.kmallocAddr dirs) (hthis : this ∈ dirs)
    (hlim : (clone this s).2.kmallocAddr ≤ 2 ^ 52) :
    (clone this s).1 = pageAlign s.kmallocAddr ∧
      Cloned 3 this (pageAlign s.kmallocAddr) (pageTaken s) (clone this s).2 ∧
      (pageTaken s).kmallocAddr ≤ (clone this s).2.kmallocAddr := by
  have hpa := pageAlign_spec s.kmallocAddr
  have hB : Below s.mem this 3 s.kmallocAddr := fun p t hp ht =>
    let ⟨halign, _, hle⟩ := hF.page hthis hp ht
    ⟨halign, hle⟩
  have heq := clone_eq hlim
  rw [heq] at hlim ⊢
  have hk : (pageTaken s).kmallocAddr ≤
      (cloneTable 3 this (pageAlign s.kmallocAddr) (pageTaken s)).kmallocAddr :=
    le_cloneTable_kmallocAddr
  have hC := cloneTable_spec 3 this (pageAlign s.kmallocAddr) s.kmallocAddr (pageTaken s) hB hpa.2.1
    hpa.1 le_rfl hlim
  -- How the loops have made the copy does not matter any more.
  generalize cloneTable 3 this (pageAlign s.kmallocAddr) (pageTaken s) = s' at hC hk ⊢
  exact ⟨rfl, hC, hk⟩

/-- The memory handed out before keeps its contents. -/
theorem clone_frame (hF : Forest s.mem lo s.kmallocAddr dirs) (hthis : this ∈ dirs)
    (hlim : (clone this s).2.kmallocAddr ≤ 2 ^ 52) :
    ∀ x < s.kmallocAddr, (clone this s).2.mem x = s.mem x := fun x hx => by
  have hpa := pageAlign_spec s.kmallocAddr
  obtain ⟨-, hC, -⟩ := clone_cloned hF hthis hlim
  exact hC.frame x (show x < pageAlign s.kmallocAddr + 0x1000 by omega) (by omega)

/-- `clone` makes a new directory, the clone of the address space of the old one, and leaves the
    others alone. -/
theorem clone_refines (h : Refines s lo dirs A) (hthis : this ∈ dirs)
    (hlim : (clone this s).2.kmallocAddr ≤ 2 ^ 52) :
    (clone this s).1 ∉ dirs ∧ Refines (clone this s).2 lo ((clone this s).1 :: dirs)
      (Function.update A (clone this s).1 (A this).clone) := by
  have hpa := pageAlign_spec s.kmallocAddr
  have hframe := clone_frame h.forest hthis hlim
  obtain ⟨hnew, hC, hk⟩ := clone_cloned h.forest hthis hlim
  rw [hnew]
  exact h.cons_copy hthis hframe hC.copy hpa.2.1 hpa.1 le_rfl hk

end SmartOS
