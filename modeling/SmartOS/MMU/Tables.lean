import SmartOS.MMU.Basic
import SmartOS.Lib.Bits

/-!
# Trees of page tables

The tables under a directory are addressed by the indices followed from it. A
path lists them *last index first*: `[]` is the directory itself, and `i :: q`
the word at index `i` of the table at `q`, or the table it points to.

* `entryAt m root p`: the word at the end of the path `p`, when all words on the
  way are present: the address and the flags it holds.
* `tableAt m root p`: the table at `p`.

The tables of a set of directories form a `Forest` when every table is a page of
its own, within the memory handed out: no table is reached in two ways. What
the kernel writes into a table then changes the word at a single path of a
single directory (`entryAt_set64`), and hanging a zeroed page on a word that is
not present only adds a table (`Forest.link`, `entryAt_link`).
-/

namespace SmartOS

open Prog

variable {m m' : Mem} {a f i j t u w lo lim lim' : ℕ}

/-! ## Words -/

theorem and_mmuPresent (w : ℕ) : w &&& mmuPresent = w % 2 := Nat.and_one_is_mod w

theorem and_mmuAddr (w : ℕ) : w &&& mmuAddr = w / 2 ^ 12 % 2 ^ 40 * 2 ^ 12 := and_field w 12 40

theorem and_flags (w : ℕ) : w &&& 0xFFF = w % 2 ^ 12 := Nat.and_two_pow_sub_one_eq_mod w 12

/-- What a word holds, when it is present: an address and flags. -/
def entry (m : Mem) (table index : ℕ) : Option (ℕ × ℕ) :=
  let w := m.get64 (slot table index)
  if w &&& mmuPresent = 0 then none else some (w &&& mmuAddr, w &&& 0xFFF)

theorem entry_congr (h : m'.get64 (slot t i) = m.get64 (slot t i)) :
    entry m' t i = entry m t i := by
  simp only [entry, h]

theorem entry_of_zero (h : m.get64 (slot t i) = 0) : entry m t i = none := by
  simp [entry, h]

theorem entry_eq_none_iff : entry m t i = none ↔ m.get64 (slot t i) &&& mmuPresent = 0 := by
  simp [entry]

/-- Flags: nothing in the field of the address. -/
structure IsFlags (f : ℕ) : Prop where
  lt : f < 2 ^ 64
  addr : f &&& mmuAddr = 0

theorem and_flags_of_lt (hf : f < 0x1000) : f &&& 0xFFF = f :=
  (and_flags f).trans (Nat.mod_eq_of_lt hf)

theorem isFlags_of_lt (hf : f < 0x1000) : IsFlags f := by
  refine ⟨hf.trans (by decide), ?_⟩
  rw [and_mmuAddr]
  omega

/-- A word made of a page-aligned address below `2 ^ 52` and flags. -/
theorem or_flags_spec (ha : a % 0x1000 = 0) (ha' : a < 2 ^ 52) (hf : IsFlags f) :
    a ||| f < 2 ^ 64 ∧ (a ||| f) &&& mmuAddr = a ∧ (a ||| f) &&& 0xFFF = f &&& 0xFFF ∧
      (a ||| f) &&& mmuPresent = f &&& mmuPresent := by
  have haddr : a &&& mmuAddr = a := by rw [and_mmuAddr]; omega
  have hlow : a &&& 0xFFF = 0 := by rw [and_flags]; omega
  have hpresent : a &&& mmuPresent = 0 := by rw [and_mmuPresent]; omega
  refine ⟨Nat.or_lt_two_pow (ha'.trans (by decide)) hf.lt, ?_, ?_, ?_⟩
  · rw [Nat.and_or_distrib_right, haddr, hf.addr, Nat.or_zero]
  · rw [Nat.and_or_distrib_right, hlow, Nat.zero_or]
  · rw [Nat.and_or_distrib_right, hpresent, Nat.zero_or]

/-- The address and the flags are both read back. -/
theorem entry_set64_or (ha : a % 0x1000 = 0) (ha' : a < 2 ^ 52) (hf : IsFlags f) (hp : f % 2 = 1) :
    entry (m.set64 (slot t i) (a ||| f)) t i = some (a, f &&& 0xFFF) := by
  obtain ⟨hlt, haddr, hlow, hpresent⟩ := or_flags_spec ha ha' hf
  have hne : f &&& mmuPresent ≠ 0 := by rw [and_mmuPresent, hp]; decide
  simp only [entry, Mem.get64_set64 hlt, haddr, hlow, hpresent, if_neg hne]

theorem entry_set64_self (ha : a % 0x1000 = 0) (ha' : a < 2 ^ 52) (hf : f < 0x1000)
    (hp : f % 2 = 1) : entry (m.set64 (slot t i) (a ||| f)) t i = some (a, f) := by
  rw [entry_set64_or ha ha' (isFlags_of_lt hf) hp, and_flags_of_lt hf]

/-- The words of a page of 512 words are disjoint. -/
theorem slot_disjoint (ht : t % 0x1000 = 0) (hu : u % 0x1000 = 0) (hi : i < 512) (hj : j < 512)
    (h : ¬(t = u ∧ i = j)) : slot t i + 8 ≤ slot u j ∨ slot u j + 8 ≤ slot t i := by
  simp only [slot]
  omega

/-- A word of a page lies in the page. -/
theorem mem_page_of_mem_slot {x : ℕ} (hi : i < 512) (hx : slot t i ≤ x) (hx' : x < slot t i + 8) :
    t ≤ x ∧ x < t + 0x1000 := by
  simp only [slot] at hx hx'
  omega

/-! ## Paths -/

variable {r root : ℕ} {p q : List ℕ}

/-- The table at the end of a path. -/
def tableAt (m : Mem) (root : ℕ) : List ℕ → Option ℕ
  | [] => some root
  | i :: q => (tableAt m root q).bind fun t => (entry m t i).map Prod.fst

/-- What the word at the end of a path holds. -/
def entryAt (m : Mem) (root : ℕ) : List ℕ → Option (ℕ × ℕ)
  | [] => none
  | i :: q => (tableAt m root q).bind fun t => entry m t i

/-- The table at the end of a path is what the last word of the path points to. -/
theorem tableAt_cons : tableAt m root (i :: q) = (entryAt m root (i :: q)).map Prod.fst := by
  simp only [tableAt, entryAt, Option.map_bind, Function.comp_def]

theorem entryAt_cons_of_tableAt (h : tableAt m root q = some t) :
    entryAt m root (i :: q) = entry m t i := by
  simp [entryAt, h]

theorem entryAt_cons_of_none (h : tableAt m root q = none) : entryAt m root (i :: q) = none := by
  simp [entryAt, h]

/-- A path of at most `n` indices. Those of at most three lead to tables, those of at most four to
    words. -/
def IsPath (n : ℕ) (p : List ℕ) : Prop := p.length ≤ n ∧ ∀ i ∈ p, i < 512

instance (n : ℕ) : DecidablePred (IsPath n) := fun p =>
  inferInstanceAs (Decidable (p.length ≤ n ∧ ∀ i ∈ p, i < 512))

variable {n k : ℕ}

theorem isPath_nil : IsPath n [] := by simp [IsPath]

theorem isPath_cons : IsPath (n + 1) (i :: q) ↔ i < 512 ∧ IsPath n q := by
  simp only [IsPath, List.length_cons, List.mem_cons, forall_eq_or_imp, Nat.add_le_add_iff_right]
  tauto

theorem IsPath.mono (h : IsPath n p) (hnk : n ≤ k) : IsPath k p := ⟨h.1.trans hnk, h.2⟩

/-- Tables are reached as before as long as the words of the tables hold the same. -/
theorem tableAt_congr_entry (h : ∀ q t, IsPath n q → tableAt m root q = some t → ∀ i < 512,
    entry m' t i = entry m t i) :
    ∀ {p : List ℕ}, IsPath (n + 1) p → tableAt m' root p = tableAt m root p
  | [], _ => rfl
  | i :: q, hp => by
    obtain ⟨hi, hq⟩ := isPath_cons.1 hp
    rw [tableAt, tableAt, tableAt_congr_entry h (hq.mono (Nat.le_succ n))]
    cases ht : tableAt m root q with
    | none => rfl
    | some t => rw [Option.bind_some, Option.bind_some, h q t hq ht i hi]

theorem tableAt_congr (h : ∀ q t, IsPath n q → tableAt m root q = some t → ∀ i < 512,
    m'.get64 (slot t i) = m.get64 (slot t i)) (hp : IsPath (n + 1) p) :
    tableAt m' root p = tableAt m root p :=
  tableAt_congr_entry (fun q t hq ht i hi => entry_congr (h q t hq ht i hi)) hp

theorem entryAt_congr (h : ∀ q t, IsPath n q → tableAt m root q = some t → ∀ i < 512,
    m'.get64 (slot t i) = m.get64 (slot t i)) (hq : IsPath n q) (hi : i < 512) :
    entryAt m' root (i :: q) = entryAt m root (i :: q) := by
  have hq' := tableAt_congr h (hq.mono (Nat.le_succ n))
  cases ht : tableAt m root q with
  | none => rw [entryAt_cons_of_none ht, entryAt_cons_of_none (hq'.trans ht)]
  | some t =>
    rw [entryAt_cons_of_tableAt ht, entryAt_cons_of_tableAt (hq'.trans ht)]
    exact entry_congr (h q t hq ht i hi)

/-! ## Forests -/

variable {dirs : List ℕ}

/-- The tables of the directories `dirs` are pages of their own, between `lo` and `lim`. -/
structure Forest (m : Mem) (lo lim : ℕ) (dirs : List ℕ) : Prop where
  page : ∀ {r p t}, r ∈ dirs → IsPath 3 p → tableAt m r p = some t →
    t % 0x1000 = 0 ∧ lo ≤ t ∧ t + 0x1000 ≤ lim
  inj : ∀ {r r' p p' t}, r ∈ dirs → r' ∈ dirs → IsPath 3 p → IsPath 3 p' → tableAt m r p = some t →
    tableAt m r' p' = some t → r = r' ∧ p = p'

/-- From a page of zeros no other table is reached. -/
theorem tableAt_of_zero (hz : ∀ j < 512, m.get64 (slot r j) = 0) (hp : ∀ i ∈ p, i < 512) :
    tableAt m r p = if p = [] then some r else none := by
  induction p with
  | nil => rfl
  | cons i p ih =>
    rw [tableAt, ih fun j hj => hp j (List.mem_cons_of_mem i hj), if_neg (List.cons_ne_nil i p)]
    by_cases hnil : p = []
    · rw [if_pos hnil, Option.bind_some, entry_of_zero (hz i (hp i List.mem_cons_self)),
        Option.map_none]
    · rw [if_neg hnil, Option.bind_none]

theorem entryAt_of_zero (hz : ∀ j < 512, m.get64 (slot r j) = 0) (hp : ∀ i ∈ p, i < 512) :
    entryAt m r p = none := by
  cases p with
  | nil => rfl
  | cons i p =>
    rw [entryAt, tableAt_of_zero hz fun j hj => hp j (List.mem_cons_of_mem i hj)]
    by_cases hnil : p = []
    · rw [if_pos hnil, Option.bind_some, entry_of_zero (hz i (hp i List.mem_cons_self))]
    · rw [if_neg hnil, Option.bind_none]

/-- A directory of zeros has no table but itself. -/
theorem Forest.of_zero (hz : ∀ j < 512, m.get64 (slot r j) = 0) (hr : r % 0x1000 = 0) (hlo : lo ≤ r)
    (hlim : r + 0x1000 ≤ lim) : Forest m lo lim [r] := by
  have hroot {r' : ℕ} {p : List ℕ} {t : ℕ} (hr' : r' ∈ [r]) (hp : IsPath 3 p)
      (ht : tableAt m r' p = some t) : r' = r ∧ p = [] ∧ t = r := by
    rw [List.mem_singleton.1 hr', tableAt_of_zero hz hp.2] at ht
    split_ifs at ht with hnil
    exact ⟨List.mem_singleton.1 hr', hnil, (Option.some.inj ht).symm⟩
  refine ⟨fun hr' hp ht => ?_, fun hr₁ hr₂ hp₁ hp₂ ht₁ ht₂ => ?_⟩
  · obtain ⟨_, _, rfl⟩ := hroot hr' hp ht
    exact ⟨hr, hlo, hlim⟩
  · obtain ⟨rfl, rfl, _⟩ := hroot hr₁ hp₁ ht₁
    obtain ⟨rfl, rfl, _⟩ := hroot hr₂ hp₂ ht₂
    exact ⟨rfl, rfl⟩

namespace Forest

variable (hF : Forest m lo lim dirs)

/-! ### Changes elsewhere -/

include hF in
theorem get64_congr (h : ∀ x, lo ≤ x → x < lim → m' x = m x) (hr : r ∈ dirs) (hq : IsPath 3 q)
    (ht : tableAt m r q = some t) (hi : i < 512) :
    m'.get64 (slot t i) = m.get64 (slot t i) := by
  obtain ⟨_, hlo, hlim⟩ := hF.page hr hq ht
  refine Mem.get64_congr fun x hx hx' => ?_
  obtain ⟨hxt, hxt'⟩ := mem_page_of_mem_slot hi hx hx'
  exact h x (hlo.trans hxt) (hxt'.trans_le hlim)

include hF in
theorem tableAt_congr (h : ∀ x, lo ≤ x → x < lim → m' x = m x) (hr : r ∈ dirs)
    (hp : IsPath 3 p) : tableAt m' r p = tableAt m r p :=
  SmartOS.tableAt_congr (fun _ _ hq ht _ hi => hF.get64_congr h hr (hq.mono (by omega)) ht hi) hp

include hF in
theorem entryAt_congr (h : ∀ x, lo ≤ x → x < lim → m' x = m x) (hr : r ∈ dirs) (hq : IsPath 3 q)
    (hi : i < 512) : entryAt m' r (i :: q) = entryAt m r (i :: q) :=
  SmartOS.entryAt_congr (fun _ _ hq ht _ hi => hF.get64_congr h hr hq ht hi) hq hi

include hF in
/-- What is written outside the tables does not concern them. -/
theorem congr (h : ∀ x, lo ≤ x → x < lim → m' x = m x) (hlim : lim ≤ lim') :
    Forest m' lo lim' dirs where
  page hr hp ht := by
    rw [hF.tableAt_congr h hr hp] at ht
    have := hF.page hr hp ht
    omega
  inj hr hr' hp hp' ht ht' := by
    rw [hF.tableAt_congr h hr hp] at ht
    rw [hF.tableAt_congr h hr' hp'] at ht'
    exact hF.inj hr hr' hp hp' ht ht'

/-! ### A word written in a table -/

variable (hr : r ∈ dirs) (hroot : root ∈ dirs) (hp : IsPath 3 p) (hq : IsPath 3 q) (hi : i < 512)
  (hj : j < 512) (ht : tableAt m root q = some t)

include hF hr hroot hp hq hi hj ht in
/-- Writing the word at index `i` of the table at `q` changes no other word of the tables. -/
theorem entryAt_set64 (hpt : tableAt (m.set64 (slot t i) w) r p = tableAt m r p) :
    entryAt (m.set64 (slot t i) w) r (j :: p) =
      if r = root ∧ j :: p = i :: q then entry (m.set64 (slot t i) w) t i
      else entryAt m r (j :: p) := by
  cases hu : tableAt m r p with
  | none =>
    rw [entryAt_cons_of_none (hpt.trans hu), entryAt_cons_of_none hu, if_neg]
    rintro ⟨rfl, h⟩
    cases h
    simp [ht] at hu
  | some u =>
    rw [entryAt_cons_of_tableAt (hpt.trans hu), entryAt_cons_of_tableAt hu]
    by_cases h : u = t ∧ j = i
    · obtain ⟨rfl, rfl⟩ := h
      obtain ⟨rfl, rfl⟩ := hF.inj hr hroot hp hq hu ht
      rw [if_pos ⟨rfl, rfl⟩]
    · rw [if_neg]
      · have hd := slot_disjoint (hF.page hr hp hu).1 (hF.page hroot hq ht).1 hj hi h
        exact entry_congr (Mem.get64_set64_of_disjoint hd.symm)
      · rintro ⟨rfl, e⟩
        cases e
        exact h ⟨Option.some.inj (hu.symm.trans ht), rfl⟩

include hF hroot hq hi ht in
/-- A word of a lowest table is no part of the way to another table. -/
theorem tableAt_set64_leaf (hlen : q.length = 3) (hr : r ∈ dirs) :
    ∀ {p : List ℕ}, IsPath 3 p → tableAt (m.set64 (slot t i) w) r p = tableAt m r p
  | [], _ => rfl
  | j :: p, hp => by
    obtain ⟨hj, hp₂⟩ := isPath_cons.1 hp
    have hp' := hp₂.mono (show 2 ≤ 3 by omega)
    have ih := tableAt_set64_leaf hlen hr hp'
    rw [tableAt_cons, tableAt_cons, hF.entryAt_set64 hr hroot hp' hq hi hj ht ih, if_neg]
    rintro ⟨_, h⟩
    cases h
    have := hp₂.1
    omega

/-! ### A new table -/

/-- A page of zeros at `a`, above the tables, is hung on a word that is not present. -/
structure Link (m : Mem) (t i a f lim lim' : ℕ) : Prop where
  absent : entry m t i = none
  zero : ∀ j < 512, m.get64 (slot a j) = 0
  above : lim ≤ a
  align : a % 0x1000 = 0
  below : a + 0x1000 ≤ lim'
  addr : a < 2 ^ 52
  flags : IsFlags f
  present : f % 2 = 1

variable (hL : Link m t i a f lim lim')

include hF hr hroot hp hq hi hj ht hL in
theorem entryAt_link_of_tableAt
    (hpt : tableAt (m.set64 (slot t i) (a ||| f)) r p =
      if r = root ∧ p = i :: q then some a else tableAt m r p) :
    entryAt (m.set64 (slot t i) (a ||| f)) r (j :: p) =
      if r = root ∧ j :: p = i :: q then some (a, f &&& 0xFFF) else entryAt m r (j :: p) := by
  by_cases h : r = root ∧ p = i :: q
  · -- A word of the new table is zero, and its path led nowhere before.
    obtain ⟨rfl, rfl⟩ := h
    rw [if_pos ⟨rfl, rfl⟩] at hpt
    have hold : tableAt m r (i :: q) = none := by
      rw [tableAt_cons, entryAt_cons_of_tableAt ht, hL.absent, Option.map_none]
    have hd : slot t i + 8 ≤ slot a j := by
      have := (hF.page hr hq ht).2.2
      have := hL.above
      simp only [slot]
      omega
    rw [entryAt_cons_of_tableAt hpt, entryAt_cons_of_none hold, if_neg (by simp)]
    exact entry_of_zero ((Mem.get64_set64_of_disjoint (.inl hd)).trans (hL.zero j hj))
  · rw [if_neg h] at hpt
    rw [hF.entryAt_set64 hr hroot hp hq hi hj ht hpt,
      entry_set64_or hL.align hL.addr hL.flags hL.present]

include hF hroot hq hi ht hL in
theorem tableAt_link (hr : r ∈ dirs) : ∀ {p : List ℕ}, IsPath 3 p →
    tableAt (m.set64 (slot t i) (a ||| f)) r p =
      if r = root ∧ p = i :: q then some a else tableAt m r p
  | [], _ => by simp [tableAt]
  | j :: p, hp => by
    obtain ⟨hj, hp₂⟩ := isPath_cons.1 hp
    have hp' := hp₂.mono (show 2 ≤ 3 by omega)
    have ih := tableAt_link hr hp'
    rw [tableAt_cons, hF.entryAt_link_of_tableAt hr hroot hp' hq hi hj ht hL ih, tableAt_cons]
    split_ifs <;> rfl

include hF hr hroot hp hq hi hj ht hL in
/-- The only new word is the one that the page hangs on. -/
theorem entryAt_link : entryAt (m.set64 (slot t i) (a ||| f)) r (j :: p) =
    if r = root ∧ j :: p = i :: q then some (a, f &&& 0xFFF) else entryAt m r (j :: p) :=
  hF.entryAt_link_of_tableAt hr hroot hp hq hi hj ht hL (hF.tableAt_link hroot hq hi ht hL hr hp)

include hF hroot hq hi ht hL in
/-- The new table is a page of its own. -/
theorem link (hlim : lim ≤ lim') (hlo : lo ≤ lim) :
    Forest (m.set64 (slot t i) (a ||| f)) lo lim' dirs where
  page {r p u} hr hp hu := by
    rw [hF.tableAt_link hroot hq hi ht hL hr hp] at hu
    split_ifs at hu with h
    · have := hL.above; have := hL.align; have := hL.below
      cases hu
      omega
    · have := hF.page hr hp hu
      omega
  inj {r r' p p' u} hr hr' hp hp' hu hu' := by
    rw [hF.tableAt_link hroot hq hi ht hL hr hp] at hu
    rw [hF.tableAt_link hroot hq hi ht hL hr' hp'] at hu'
    have habove := hL.above
    split_ifs at hu hu' with h h' h'
    · exact ⟨h.1.trans h'.1.symm, h.2.trans h'.2.symm⟩
    · cases hu
      have := (hF.page hr' hp' hu').2.2
      omega
    · cases hu'
      have := (hF.page hr hp hu).2.2
      omega
    · exact hF.inj hr hr' hp hp' hu hu'

end Forest

end SmartOS
