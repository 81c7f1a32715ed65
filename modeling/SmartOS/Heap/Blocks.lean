import SmartOS.Heap.Basic

/-!
# Well-formed heaps

What the arena of a heap is for: a list of *blocks*, each of a size and either
free or in use, that tile it. `Seg m a bs last` says that the entries of the
memory `m` from address `a` on are the blocks `bs`: each entry points to the next
one, at its own end, and the last one to `last`. Walking by pointer and walking
by address are then the same.

The size that the very last entry records is never used to walk on. Whether it
has to be right is a parameter (`trust`).

* `Seg.append_iff`, `Seg.middle_iff`: a heap is cut anywhere into heaps;
* `Seg.congr`: a heap depends on the bytes of its headers only;
* `headers_used_disjoint`, `used_pairwise`: payloads in use lie apart from each
  other and from the headers.
-/

namespace SmartOS

open Prog

variable {trust : Prop} {m m' : Mem} {a e x next last v k : ℕ} {f : Bool}

/-- An entry, without its place. -/
structure Block where
  size : ℕ
  free : Bool
  deriving Repr, DecidableEq

variable {b c : Block} {bs cs pre post : List Block}

/-! ## Headers -/

/-- The entry at `e` is the block `b`, and `n` is after it. The size that an entry with none after
    it records counts only if `trust`. -/
structure Header (trust : Prop) (m : Mem) (e : ℕ) (b : Block) (n : ℕ) : Prop where
  free : entryFree m e = b.free
  next : entryNext m e = n
  size : n ≠ 0 ∨ trust → entrySize m e = b.size

theorem Header.congr (h : Header trust m e b next) (hm : ∀ x, e ≤ x → x < e + 24 → m' x = m x) :
    Header trust m' e b next where
  free := by rw [← h.free, entryFree, entryFree, hm e le_rfl (by omega)]
  next := by
    rw [← h.next]
    exact Mem.get64_congr fun x hx hx' => hm x (by omega) (by omega)
  size hn := by
    rw [← h.size hn]
    exact Mem.get64_congr fun x hx hx' => hm x (by omega) (by omega)

theorem Header.next_lt (h : Header trust m e b next) : next < 2 ^ 64 := h.next ▸ Mem.get64_lt

theorem Header.setFree (h : Header trust m e b next) :
    Header trust (setEntryFree m e f) e { b with free := f } next where
  free := by cases f <;> simp [entryFree, setEntryFree]
  next := (Mem.get64_set_of_disjoint (.inl (by omega))).trans h.next
  size hn := (Mem.get64_set_of_disjoint (.inl (by omega))).trans (h.size hn)

/-- An entry, with the size that it records, whether that counts or not. -/
theorem Header.recorded (h : Header trust m e b next) :
    Header True m e ⟨entrySize m e, b.free⟩ next := ⟨h.free, h.next, fun _ => rfl⟩

theorem Header.of_recorded (h : Header True m e b next) (hk : next ≠ 0 ∨ trust → b.size = k) :
    Header trust m e ⟨k, b.free⟩ next :=
  ⟨h.free, h.next, fun hn => (h.size (.inr trivial)).trans (hk hn)⟩

theorem Header.setSize (h : Header True m e b next) (hv : v < 2 ^ 64) :
    Header True (setEntrySize m e v) e { b with size := v } next where
  free := by
    rw [← h.free, entryFree, entryFree, setEntrySize, Mem.set64_of_not_mem (by omega)]
  next := (Mem.get64_set64_of_disjoint (.inl (by omega))).trans h.next
  size _ := Mem.get64_set64 hv

theorem Header.setNext (h : Header True m e b next) (hv : v < 2 ^ 64) :
    Header True (setEntryNext m e v) e b v where
  free := by
    rw [← h.free, entryFree, entryFree, setEntryNext, Mem.set64_of_not_mem (by omega)]
  next := Mem.get64_set64 hv
  size _ := (Mem.get64_set64_of_disjoint (.inr (by omega))).trans (h.size (.inr trivial))

theorem setEntryFree_of_not_mem (hx : ¬(e ≤ x ∧ x < e + 24)) : setEntryFree m e f x = m x :=
  Mem.set_of_ne (by omega)

theorem setEntrySize_of_not_mem (hx : ¬(e ≤ x ∧ x < e + 24)) : setEntrySize m e v x = m x :=
  Mem.set64_of_not_mem (by omega)

theorem setEntryNext_of_not_mem (hx : ¬(e ≤ x ∧ x < e + 24)) : setEntryNext m e v x = m x :=
  Mem.set64_of_not_mem (by omega)

/-- Whatever a header holds. -/
theorem header_self : Header True m e ⟨entrySize m e, entryFree m e⟩ (entryNext m e) :=
  ⟨rfl, rfl, fun _ => rfl⟩

/-! ## Blocks that tile -/

/-- The bytes that blocks take, with their headers. -/
def extent : List Block → ℕ
  | [] => 0
  | b :: bs => 24 + b.size + extent bs

@[simp]
theorem extent_nil : extent [] = 0 := rfl

@[simp]
theorem extent_cons : extent (b :: bs) = 24 + b.size + extent bs := rfl

@[simp]
theorem extent_append : extent (bs ++ cs) = extent bs + extent cs := by
  induction bs with
  | nil => simp
  | cons b bs ih => simp [ih, Nat.add_assoc]

/-- The entries from `a` on are the blocks `bs`; the last one points to `last`. -/
def Seg (trust : Prop) (m : Mem) : ℕ → List Block → ℕ → Prop
  | _, [], _ => True
  | a, b :: bs, last =>
    Header trust m a b (if bs = [] then last else a + 24 + b.size) ∧
      Seg trust m (a + 24 + b.size) bs last

/-- The addresses of the entries. -/
def headers : ℕ → List Block → List ℕ
  | _, [] => []
  | a, b :: bs => a :: headers (a + 24 + b.size) bs

/-- The payloads in use: their addresses and sizes. -/
def used : ℕ → List Block → List (ℕ × ℕ)
  | _, [] => []
  | a, b :: bs => (if b.free then [] else [(a + 24, b.size)]) ++ used (a + 24 + b.size) bs

theorem Seg.append_iff : Seg trust m a (bs ++ cs) last ↔
    Seg trust m a bs (if cs = [] then last else a + extent bs) ∧
      Seg trust m (a + extent bs) cs last := by
  induction bs generalizing a with
  | nil => simp [Seg]
  | cons b bs ih =>
    have hend : a + 24 + b.size + extent bs = a + extent (b :: bs) := by
      rw [extent_cons]
      omega
    rw [List.cons_append, Seg, Seg, ih, hend, and_assoc]
    by_cases hbs : bs = []
    · subst hbs
      simp [Nat.add_assoc]
    · simp [hbs]

theorem Seg.middle_iff : Seg trust m a (pre ++ b :: post) last ↔
    Seg trust m a pre (a + extent pre) ∧
      Header trust m (a + extent pre) b
        (if post = [] then last else a + extent pre + 24 + b.size) ∧
      Seg trust m (a + extent pre + 24 + b.size) post last := by
  rw [Seg.append_iff, if_neg (List.cons_ne_nil b post), Seg]

theorem headers_append : headers a (bs ++ cs) = headers a bs ++ headers (a + extent bs) cs := by
  induction bs generalizing a with
  | nil => simp [headers]
  | cons b bs ih => simp [headers, ih, Nat.add_assoc]

theorem used_append : used a (bs ++ cs) = used a bs ++ used (a + extent bs) cs := by
  induction bs generalizing a with
  | nil => simp [used]
  | cons b bs ih => simp [used, ih, Nat.add_assoc]

/-- Headers lie in the arena, -/
theorem mem_headers (h : e ∈ headers a bs) : a ≤ e ∧ e + 24 ≤ a + extent bs := by
  induction bs generalizing a with
  | nil => exact absurd h List.not_mem_nil
  | cons b bs ih =>
    rw [extent_cons]
    rcases List.mem_cons.1 h with rfl | h
    · omega
    · have := ih h
      omega

/-- and so do payloads, -/
theorem mem_used {p : ℕ × ℕ} (h : p ∈ used a bs) : a + 24 ≤ p.1 ∧ p.1 + p.2 ≤ a + extent bs := by
  induction bs generalizing a with
  | nil => exact absurd h List.not_mem_nil
  | cons b bs ih =>
    rw [extent_cons]
    rw [used, List.mem_append] at h
    rcases h with h | h
    · split_ifs at h
      · exact absurd h List.not_mem_nil
      · rw [List.mem_singleton.1 h]
        dsimp only
        omega
    · have := ih h
      omega

/-- apart from each other. -/
theorem headers_used_disjoint {p : ℕ × ℕ} (he : e ∈ headers a bs) (hp : p ∈ used a bs) :
    e + 24 ≤ p.1 ∨ p.1 + p.2 ≤ e := by
  induction bs generalizing a with
  | nil => exact absurd he List.not_mem_nil
  | cons b bs ih =>
    rw [used, List.mem_append] at hp
    rcases List.mem_cons.1 he with rfl | he
    · rcases hp with hp | hp
      · split_ifs at hp
        · exact absurd hp List.not_mem_nil
        · rw [List.mem_singleton.1 hp]
          exact .inl le_rfl
      · have := mem_used hp
        omega
    · rcases hp with hp | hp
      · split_ifs at hp
        · exact absurd hp List.not_mem_nil
        · rw [List.mem_singleton.1 hp]
          have := mem_headers he
          dsimp only
          omega
      · exact ih he hp

/-- Payloads go up, with a header between any two. -/
theorem used_pairwise : (used a bs).Pairwise fun p q => p.1 + p.2 + 24 ≤ q.1 := by
  induction bs generalizing a with
  | nil => exact .nil
  | cons b bs ih =>
    rw [used, List.pairwise_append]
    refine ⟨by split_ifs <;> simp, ih, fun p hp q hq => ?_⟩
    split_ifs at hp
    · exact absurd hp List.not_mem_nil
    · rw [List.mem_singleton.1 hp]
      have := mem_used hq
      dsimp only
      omega

/-- A block in use, with those before and after it. -/
theorem exists_of_mem_used {p : ℕ × ℕ} (h : p ∈ used a bs) :
    ∃ pre b post, bs = pre ++ b :: post ∧ b.free = false ∧ p = (a + extent pre + 24, b.size) := by
  induction bs generalizing a with
  | nil => exact absurd h List.not_mem_nil
  | cons b bs ih =>
    rw [used, List.mem_append] at h
    rcases h with h | h
    · split_ifs at h with hfree
      · exact absurd h List.not_mem_nil
      · exact ⟨[], b, bs, rfl, by simpa using hfree, by simpa using h⟩
    · obtain ⟨pre, c, post, rfl, hc, rfl⟩ := ih h
      refine ⟨b :: pre, c, post, rfl, hc, ?_⟩
      rw [extent_cons]
      congr 1
      omega

/-- A heap depends on its headers only. -/
theorem Seg.congr (h : Seg trust m a bs last)
    (hm : ∀ e ∈ headers a bs, ∀ x, e ≤ x → x < e + 24 → m' x = m x) : Seg trust m' a bs last := by
  induction bs generalizing a with
  | nil => trivial
  | cons b bs ih =>
    exact ⟨h.1.congr (hm a List.mem_cons_self),
      ih h.2 fun e he => hm e (List.mem_cons_of_mem a he)⟩

/-- In particular, on its own bytes. -/
theorem Seg.congr_of_mem (h : Seg trust m a bs last)
    (hm : ∀ x, a ≤ x → x < a + extent bs → m' x = m x) : Seg trust m' a bs last := by
  refine h.congr fun e he x hx hx' => ?_
  have := mem_headers he
  exact hm x (by omega) (by omega)

end SmartOS
