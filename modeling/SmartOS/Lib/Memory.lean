import Mathlib.Tactic

/-!
# Byte memories

A memory is a map from addresses to bytes (`Mem`), total: what it holds where
nothing has been stored is arbitrary. Stores are `set` (a byte), `set64` and `set16` (a
word, the lowest byte first), `fill` (a range, with one byte) and `copy`
(a range, from another memory); `get64` reads a word, `get32` and `get16` one of
32 and 16 bits.

Every store has two lemmas: what it stores where it stores (`get64_set64`,
`get64_fill`, `get64_copy`), and its *frame*, that it changes nothing elsewhere
(`set64_of_not_mem`, `get64_set64_of_disjoint`, ...). `get64_congr` says what a
word depends on: a memory that agrees on its eight bytes. A range of bytes may
also be taken for a bitmap (`bit`).
-/

namespace Prog

/-- A byte. -/
abbrev Byte := BitVec 8

/-- A memory: the byte at each address. -/
abbrev Mem := ℕ → Byte

namespace Mem

/-- The byte at `a` set to `c`. -/
def set (m : Mem) (a : ℕ) (c : Byte) : Mem := fun x => if x = a then c else m x

/-- The `n` bytes from `a` on set to `c`. -/
def fill (m : Mem) (a n : ℕ) (c : Byte) : Mem := fun x => if a ≤ x ∧ x < a + n then c else m x

/-- The `n` bytes from `a` on set to those of `src` from `b` on. -/
def copy (m : Mem) (a : ℕ) (src : Mem) (b n : ℕ) : Mem := fun x =>
  if a ≤ x ∧ x < a + n then src (b + (x - a)) else m x

/-- The 16-bit word at `a`, its lowest byte first. -/
def get16 (m : Mem) (a : ℕ) : ℕ := (m a).toNat + 2 ^ 8 * (m (a + 1)).toNat

/-- The 32-bit word at `a`, its lowest byte first. -/
def get32 (m : Mem) (a : ℕ) : ℕ :=
  (m a).toNat + 2 ^ 8 * (m (a + 1)).toNat + 2 ^ 16 * (m (a + 2)).toNat +
    2 ^ 24 * (m (a + 3)).toNat

/-- The 64-bit word at `a`, its lowest byte first. -/
def get64 (m : Mem) (a : ℕ) : ℕ :=
  (m a).toNat + 2 ^ 8 * (m (a + 1)).toNat + 2 ^ 16 * (m (a + 2)).toNat +
    2 ^ 24 * (m (a + 3)).toNat + 2 ^ 32 * (m (a + 4)).toNat + 2 ^ 40 * (m (a + 5)).toNat +
    2 ^ 48 * (m (a + 6)).toNat + 2 ^ 56 * (m (a + 7)).toNat

/-- The 16-bit word at `a` set to `v` (modulo `2 ^ 16`). -/
def set16 (m : Mem) (a v : ℕ) : Mem :=
  (m.set a (BitVec.ofNat 8 v)).set (a + 1) (BitVec.ofNat 8 (v / 2 ^ 8))

/-- The 64-bit word at `a` set to `v` (modulo `2 ^ 64`). -/
def set64 (m : Mem) (a v : ℕ) : Mem := fun x =>
  if a ≤ x ∧ x < a + 8 then BitVec.ofNat 8 (v / 2 ^ (8 * (x - a))) else m x

/-! ## What is stored -/

variable {m m' src : Mem} {a b n v : ℕ} {c : Byte}

@[simp]
theorem set_self : m.set a c a = c := by simp [set]

theorem fill_of_mem {x : ℕ} (hx : a ≤ x ∧ x < a + n) : m.fill a n c x = c := by
  simp [fill, hx]

theorem copy_of_mem {x : ℕ} (hx : a ≤ x ∧ x < a + n) : m.copy a src b n x = src (b + (x - a)) := by
  simp [copy, hx]

/-- A word only depends on its eight bytes. -/
theorem get64_congr (h : ∀ x, a ≤ x → x < a + 8 → m x = m' x) : m.get64 a = m'.get64 a := by
  simp only [get64]
  rw [h a (by omega) (by omega), h (a + 1) (by omega) (by omega), h (a + 2) (by omega) (by omega),
    h (a + 3) (by omega) (by omega), h (a + 4) (by omega) (by omega),
    h (a + 5) (by omega) (by omega), h (a + 6) (by omega) (by omega),
    h (a + 7) (by omega) (by omega)]

theorem get32_congr (h : ∀ x, a ≤ x → x < a + 4 → m x = m' x) : m.get32 a = m'.get32 a := by
  simp only [get32]
  rw [h a (by omega) (by omega), h (a + 1) (by omega) (by omega), h (a + 2) (by omega) (by omega),
    h (a + 3) (by omega) (by omega)]

theorem get16_congr (h : ∀ x, a ≤ x → x < a + 2 → m x = m' x) : m.get16 a = m'.get16 a := by
  simp only [get16]
  rw [h a (by omega) (by omega), h (a + 1) (by omega) (by omega)]

theorem get64_lt : m.get64 a < 2 ^ 64 := by
  have h (x : ℕ) : (m x).toNat < 256 := (m x).isLt
  have := h a; have := h (a + 1); have := h (a + 2); have := h (a + 3)
  have := h (a + 4); have := h (a + 5); have := h (a + 6); have := h (a + 7)
  simp only [get64]
  omega

theorem get16_lt : m.get16 a < 2 ^ 16 := by
  have h (x : ℕ) : (m x).toNat < 256 := (m x).isLt
  have := h a; have := h (a + 1)
  simp only [get16]
  omega

theorem get32_lt : m.get32 a < 2 ^ 32 := by
  have h (x : ℕ) : (m x).toNat < 256 := (m x).isLt
  have := h a; have := h (a + 1); have := h (a + 2); have := h (a + 3)
  simp only [get32]
  omega

theorem get64_set64 (hv : v < 2 ^ 64) : (m.set64 a v).get64 a = v := by
  simp only [get64, set64]
  simp only [le_refl, Nat.le_add_right, Nat.add_lt_add_iff_left, Nat.add_sub_cancel_left, true_and]
  norm_num
  omega

theorem get16_set16 : (m.set16 a v).get16 a = v % 2 ^ 16 := by
  simp only [get16, set16, set]
  norm_num
  omega

/-- A range of zeros holds zero words. -/
theorem get64_fill (ha : a ≤ b) (hb : b + 8 ≤ a + n) : (m.fill a n 0).get64 b = 0 := by
  have h (x : ℕ) (hx : b ≤ x) (hx' : x < b + 8) : m.fill a n 0 x = 0 :=
    fill_of_mem ⟨by omega, by omega⟩
  rw [@get64_congr _ (fun _ => 0) _ h]
  simp [get64]

theorem get64_copy (hx : v + 8 ≤ n) : (m.copy a src b n).get64 (a + v) = src.get64 (b + v) := by
  have h (k : ℕ) (hk : k < 8) : m.copy a src b n (a + v + k) = src (b + v + k) := by
    rw [copy_of_mem ⟨by omega, by omega⟩]
    congr 1
    omega
  simp only [get64]
  rw [h 1 (by omega), h 2 (by omega), h 3 (by omega), h 4 (by omega), h 5 (by omega),
    h 6 (by omega), h 7 (by omega), show m.copy a src b n (a + v) = src (b + v) from h 0 (by omega)]

/-! ## Frames -/

theorem set_of_ne {x : ℕ} (hx : x ≠ a) : m.set a c x = m x := by simp [set, hx]

theorem fill_of_not_mem {x : ℕ} (hx : ¬(a ≤ x ∧ x < a + n)) : m.fill a n c x = m x := by
  simp [fill, hx]

theorem copy_of_not_mem {x : ℕ} (hx : ¬(a ≤ x ∧ x < a + n)) : m.copy a src b n x = m x := by
  simp [copy, hx]

theorem set64_of_not_mem {x : ℕ} (hx : ¬(a ≤ x ∧ x < a + 8)) : m.set64 a v x = m x := by
  simp [set64, hx]

theorem set16_of_not_mem {x : ℕ} (hx : ¬(a ≤ x ∧ x < a + 2)) : m.set16 a v x = m x := by
  rw [set16, set_of_ne (by omega), set_of_ne (by omega)]

theorem get16_set16_of_disjoint (h : a + 2 ≤ b ∨ b + 2 ≤ a) :
    (m.set16 a v).get16 b = m.get16 b := by
  rw [get16, get16, set16_of_not_mem (by omega), set16_of_not_mem (by omega)]

theorem get64_set_of_disjoint (h : a < b ∨ b + 8 ≤ a) : (m.set a c).get64 b = m.get64 b :=
  get64_congr fun _ _ _ => set_of_ne (by omega)

theorem get64_set64_of_disjoint (h : a + 8 ≤ b ∨ b + 8 ≤ a) :
    (m.set64 a v).get64 b = m.get64 b :=
  get64_congr fun _ _ _ => set64_of_not_mem (by omega)

theorem get64_fill_of_disjoint (h : a + n ≤ b ∨ b + 8 ≤ a) :
    (m.fill a n c).get64 b = m.get64 b :=
  get64_congr fun _ _ _ => fill_of_not_mem (by omega)

/-! ## Copies -/

/-- A copy only depends on the bytes copied. -/
theorem copy_congr {src' : Mem} {b' : ℕ} (h : ∀ i < n, src (b + i) = src' (b' + i)) :
    m.copy a src b n = m.copy a src' b' n := by
  funext x
  by_cases hx : a ≤ x ∧ x < a + n
  · rw [copy_of_mem hx, copy_of_mem hx, h (x - a) (by omega)]
  · rw [copy_of_not_mem hx, copy_of_not_mem hx]

/-- Copies are the same only if the bytes copied are. -/
theorem copy_eq_copy_iff {src' : Mem} {b' : ℕ} :
    m.copy a src b n = m.copy a src' b' n ↔ ∀ i < n, src (b + i) = src' (b' + i) := by
  refine ⟨fun h i hi => ?_, copy_congr⟩
  have hi' := congrFun h (a + i)
  rw [copy_of_mem ⟨by omega, by omega⟩, copy_of_mem ⟨by omega, by omega⟩] at hi'
  rwa [Nat.add_sub_cancel_left] at hi'

/-- One copy after another, of the bytes that follow. -/
theorem copy_append {k : ℕ} :
    (m.copy a src b n).copy (a + n) src (b + n) k = m.copy a src b (n + k) := by
  funext x
  by_cases hx : a + n ≤ x ∧ x < a + n + k
  · rw [copy_of_mem hx, copy_of_mem ⟨by omega, by omega⟩]
    congr 1
    omega
  · rw [copy_of_not_mem hx]
    by_cases hx' : a ≤ x ∧ x < a + n
    · rw [copy_of_mem hx', copy_of_mem ⟨by omega, by omega⟩]
    · rw [copy_of_not_mem hx', copy_of_not_mem (by omega)]

@[simp]
theorem copy_zero : m.copy a src b 0 = m := by
  funext x
  exact copy_of_not_mem (by omega)

/-! ## Bitmaps -/

/-- Bit `j` of the bitmap at `a`. -/
def bit (m : Mem) (a j : ℕ) : Bool := (m (a + j / 8)).getLsbD (j % 8)

variable {i j : ℕ}

/-- A byte of a bitmap set to a value that only differs in one bit. -/
theorem bit_set {x : Bool}
    (hc : ∀ k < 8, c.getLsbD k = if k = i % 8 then x else (m (a + i / 8)).getLsbD k) :
    (m.set (a + i / 8) c).bit a j = if j = i then x else m.bit a j := by
  by_cases hbyte : j / 8 = i / 8
  · rw [bit, bit, hbyte, set_self, hc (j % 8) (Nat.mod_lt j (by decide))]
    have hiff : j % 8 = i % 8 ↔ j = i := by omega
    simp only [hiff]
  · rw [bit, bit, set_of_ne (by omega), if_neg fun h => hbyte (by rw [h])]

/-- A byte elsewhere. -/
theorem bit_set_of_ne (h : b ≠ a + j / 8) : (m.set b c).bit a j = m.bit a j := by
  rw [bit, bit, set_of_ne fun h' => h h'.symm]

end Mem

end Prog
