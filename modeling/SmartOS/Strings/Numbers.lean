import SmartOS.Strings.Digits

/-!
# `uitoa` and `itoa`

What the two functions return for the bases from 2 to 36, and where they write.

* `uitoa_numeral`: `uitoa` returns the digits of the number, and so tells all numbers
  apart;
* `itoa_decimal_iff`: `itoa` returns the decimal representation of every `int` but
  the lowest one. The opposite of that is itself, and it never comes to zero;
* `fitsBuffer_iff`: when they return, and write to the first 50 characters only, which are
  all that their buffers have. `uitoa` does not for numbers of 50 binary digits, and
  `itoa` never returns for a negative number in most bases other than 10: its first
  quotient is cut off to 32 bits, and negative again (`Wraps`).
-/

namespace SmartOS

open Prog

/-! ## `uitoa` -/

/-- What the digits stand for, the highest one first. -/
def readDigits (base : ℕ) (ds : List ℕ) : ℕ := ds.foldl (fun v d => v * base + d) 0

theorem readDigits_reverse (base : ℕ) (ds : List ℕ) :
    readDigits base ds.reverse = Nat.ofDigits base ds := by
  rw [readDigits, List.foldl_reverse, Nat.ofDigits_eq_foldr]
  simp only [Nat.cast_id, Nat.mul_comm base, Nat.add_comm]

/-- The digits of a number, the highest one first. -/
def digitsOf (base num : ℕ) : List ℕ := if num = 0 then [0] else (Nat.digits base num).reverse

section

variable {base num : ℕ}

theorem numeral_eq (base num : ℕ) : numeral base num = (digitsOf base num).map symbol := by
  rw [numeral, digitsOf]
  split <;> rfl

theorem digitsOf_ne_nil (base num : ℕ) : digitsOf base num ≠ [] := by
  rw [digitsOf]
  split_ifs with hnum
  · exact List.cons_ne_nil _ _
  · exact mt List.reverse_eq_nil_iff.1 (Nat.digits_ne_nil_iff_ne_zero.2 hnum)

theorem lt_of_mem_digitsOf (hbase : 2 ≤ base) {d : ℕ} (hd : d ∈ digitsOf base num) : d < base := by
  rw [digitsOf] at hd
  split_ifs at hd with hnum
  · rw [List.mem_singleton.1 hd]
    omega
  · exact Nat.digits_lt_base hbase (List.mem_reverse.1 hd)

theorem head?_digitsOf (hhead : (digitsOf base num).head? = some 0) : num = 0 := by
  by_contra hnum
  rw [digitsOf, if_neg hnum, List.head?_reverse,
    List.getLast?_eq_getLast_of_ne_nil (Nat.digits_ne_nil_iff_ne_zero.2 hnum)] at hhead
  exact Nat.getLast_digit_ne_zero base hnum (Option.some.inj hhead)

theorem readDigits_digitsOf (base num : ℕ) : readDigits base (digitsOf base num) = num := by
  rw [digitsOf]
  split_ifs with hnum
  · simp [readDigits, hnum]
  · rw [readDigits_reverse, Nat.ofDigits_digits]

theorem idxOf_symbol : ∀ d < 36, symbols.idxOf (symbol d) = d := by decide

/-- The digits can be read off their characters. -/
theorem map_idxOf_numeral (hbase : 2 ≤ base) (hbase' : base ≤ 36) (num : ℕ) :
    (numeral base num).map symbols.idxOf = digitsOf base num := by
  rw [numeral_eq, List.map_map]
  refine (List.map_congr_left fun d hd => ?_).trans (List.map_id _)
  exact idxOf_symbol d ((lt_of_mem_digitsOf hbase hd).trans_le hbase')

/-- A number is known by its representation. -/
theorem numeral_injective (hbase : 2 ≤ base) (hbase' : base ≤ 36) :
    Function.Injective (numeral base) := fun num num' h => by
  rw [← readDigits_digitsOf base num, ← map_idxOf_numeral hbase hbase' num, h,
    map_idxOf_numeral hbase hbase', readDigits_digitsOf]

/-- `uitoa` returns the digits of the number, as a string: it has at least one, it does not start
with 0 unless that is all of it, and it stands for the number. So two numbers never have the same
string. -/
theorem uitoa_numeral (hbase : 2 ≤ base) (hbase' : base ≤ 36) (num : ℕ) (str : Cells Byte) :
    (∃ r ds, Returns (fun n => uitoa num base str n) r ∧ HoldsString r (ds.map symbol) ∧
      ds ≠ [] ∧ (∀ d ∈ ds, d < base) ∧ (ds.head? = some 0 → num = 0 ∧ ds = [0]) ∧
      readDigits base ds = num) ∧
    ∀ num' str' r r' s, Returns (fun n => uitoa num base str n) r →
      Returns (fun n => uitoa num' base str' n) r' → HoldsString r s → HoldsString r' s →
        num = num' := by
  obtain ⟨r, hreturns, hr, -⟩ := returns_uitoa hbase hbase' num str
  refine ⟨⟨r, digitsOf base num, hreturns, numeral_eq base num ▸ hr, digitsOf_ne_nil base num,
    fun d => lt_of_mem_digitsOf hbase, fun hhead => ?_, readDigits_digitsOf base num⟩, ?_⟩
  · have hnum := head?_digitsOf hhead
    exact ⟨hnum, by rw [digitsOf, if_pos hnum]⟩
  · intro num' str' r₁ r₂ s h₁ h₂ hs₁ hs₂
    obtain ⟨r', hreturns', hr', -⟩ := returns_uitoa hbase hbase' num' str'
    rw [h₁.unique hreturns] at hs₁
    rw [h₂.unique hreturns'] at hs₂
    exact numeral_injective hbase hbase' ((hr.unique hs₁).trans (hs₂.unique hr'))

theorem uitoa_numeral_hex :
    (∃ r ds, Returns (fun n => uitoa 0xCAFE 16 ⟨fun _ => 0, []⟩ n) r ∧
      HoldsString r (ds.map symbol) ∧ ds ≠ [] ∧ (∀ d ∈ ds, d < 16) ∧
      (ds.head? = some 0 → 0xCAFE = 0 ∧ ds = [0]) ∧ readDigits 16 ds = 0xCAFE) ∧
    ∀ num' str' r r' s, Returns (fun n => uitoa 0xCAFE 16 ⟨fun _ => 0, []⟩ n) r →
      Returns (fun n => uitoa num' 16 str' n) r' → HoldsString r s → HoldsString r' s →
        0xCAFE = num' :=
  uitoa_numeral (by decide) (by decide) 0xCAFE ⟨fun _ => 0, []⟩

end

/-! ## `itoa`, in base 10 -/

/-- The decimal representation of a number with a sign. -/
def signedDecimal (z : ℤ) : List Byte := (if z < 0 then [0x2D] else []) ++ numeral 10 z.natAbs

section

variable {num : BitVec 32} {base : ℕ}

/-- The first quotient of -1 by `base`, and with it that of every negative number, is negative again
when it is cut off to 32 bits. -/
def Wraps (base : ℕ) : Prop := 2 ^ 31 ≤ (2 ^ 64 - 1) / base % 2 ^ 32

instance (base : ℕ) : Decidable (Wraps base) := inferInstanceAs (Decidable (_ ≤ _))

theorem toInt_neg_iff : num.toInt < 0 ↔ 2 ^ 31 ≤ num.toNat := by
  have := num.isLt
  rw [BitVec.toInt_eq_toNat_cond]
  split <;> omega

/-- All negative numbers have quotients with the same sign. -/
theorem rest_of_neg (hbase : 2 ≤ base) (hbase' : base ≤ 36) (h : 2 ^ 31 ≤ num.toNat) :
    2 ^ 31 ≤ ((intNumeral base).rest num).toNat ↔ Wraps base := by
  have hlt := num.isLt
  show 2 ^ 31 ≤ (BitVec.ofNat 32 (intSize num / base)).toNat ↔ _
  rw [intSize_of_ge h, BitVec.toNat_ofNat, Wraps]
  generalize num.toNat = v at h hlt
  interval_cases base <;> omega

/-- A number that is not negative. -/
theorem returns_itoa_of_nonneg (hbase : 2 ≤ base) (hbase' : base ≤ 36) (h : num.toNat < 2 ^ 31)
    (str : Cells Byte) : ∃ r, Returns (fun n => itoa num base str n) r ∧
      HoldsString r (numeral base num.toNat) ∧
      ∀ i, i ∈ r.written ↔ i ∈ str.written ∨ i ≤ (numeral base num.toNat).length := by
  have hneg : ¬(num.toInt < 0 ∧ base = 10) := fun hneg => by
    have := toInt_neg_iff.1 hneg.1
    omega
  by_cases hnum : num = 0
  · subst hnum
    simp only [itoa, if_true]
    exact ⟨_, .pure _, holdsString_zero str, fun i => mem_written_zero⟩
  · have hspells := spells_int hbase hbase' h
    obtain ⟨r, hreturns, hr, hwritten⟩ := @returns_itoa_of_spells base num str hnum _
      (zero_not_mem_digits hbase hbase' num.toNat) (by rwa [if_neg hneg])
    have hnat : num.toNat ≠ 0 := fun hzero => hnum (BitVec.eq_of_toNat_eq hzero)
    rw [if_neg hneg] at hr hwritten
    rw [numeral, if_neg hnat, List.map_reverse]
    refine ⟨r, hreturns, hr, fun i => ?_⟩
    rw [List.length_reverse]
    exact hwritten i

/-- A negative number in base 10, whose opposite is not itself. -/
theorem returns_itoa_of_neg_ten (h : 2 ^ 31 < num.toNat) (str : Cells Byte) :
    ∃ r, Returns (fun n => itoa num 10 str n) r ∧
      HoldsString r (0x2D :: numeral 10 (2 ^ 32 - num.toNat)) ∧
      ∀ i, i ∈ r.written ↔ i ∈ str.written ∨ i ≤ (numeral 10 (2 ^ 32 - num.toNat)).length + 1 := by
  have hlt := num.isLt
  have hneg : num.toInt < 0 ∧ 10 = 10 := ⟨toInt_neg_iff.2 h.le, rfl⟩
  have hopposite : (-num).toNat = 2 ^ 32 - num.toNat := by
    rw [BitVec.toNat_neg, Nat.mod_eq_of_lt (by omega)]
  have hnum : num ≠ 0 := fun hzero => by
    rw [hzero] at h
    exact absurd h (by decide)
  have hspells := @spells_int 10 (-num) (by decide) (by decide) (by omega)
  have hchars := @zero_not_mem_digits 10 (by decide) (by decide) (-num).toNat
  obtain ⟨r, hreturns, hr, hwritten⟩ :=
    @returns_itoa_of_spells 10 num str hnum _ hchars (by rwa [if_pos hneg])
  rw [if_pos hneg, hopposite] at hr hwritten
  rw [numeral, if_neg (by omega), List.map_reverse]
  refine ⟨r, hreturns, hr, fun i => ?_⟩
  rw [List.length_reverse]
  exact hwritten i

/-- A negative number in another base, whose first quotient is not negative. -/
theorem returns_itoa_of_neg (hbase : 2 ≤ base) (hbase' : base ≤ 36) (hten : base ≠ 10)
    (h : 2 ^ 31 ≤ num.toNat) (hwraps : ¬Wraps base) (str : Cells Byte) :
    ∃ r, Returns (fun n => itoa num base str n) r ∧
      ∀ i ∈ r.written, i ∈ str.written ∨ i ≤ 32 := by
  have hrest := Nat.lt_of_not_le (mt (rest_of_neg hbase hbase' h).1 hwraps)
  have hneg : ¬(num.toInt < 0 ∧ base = 10) := fun hneg => hten hneg.2
  have hnum : num ≠ 0 := fun hzero => by
    rw [hzero] at h
    exact absurd h (by decide)
  have hdigit : (intNumeral base).digit num ≠ 0 := by
    have hlt : intSize num % base < 36 := (Nat.mod_lt _ (by omega)).trans_le hbase'
    show intDigitChar (BitVec.ofNat 32 (intSize num % base)) ≠ 0
    rw [intDigitChar_eq _ hlt, digitChar_eq_symbol _ hlt]
    exact symbol_ne_zero _ hlt
  have hspells : (intNumeral base).Spells num _ :=
    .digit (beq_eq_false_iff_ne.2 hnum) (spells_int hbase hbase' hrest)
  obtain ⟨r, hreturns, -, hwritten⟩ := @returns_itoa_of_spells base num str hnum _
    (fun h => (List.mem_cons.1 h).elim (fun h => hdigit h.symm)
      (zero_not_mem_digits hbase hbase' _)) (by rwa [if_neg hneg])
  refine ⟨r, hreturns, fun i hi => ((hwritten i).1 hi).imp_right fun hle => hle.trans ?_⟩
  have hlen := (Nat.digits_length_le_iff hbase (k := 31) ((intNumeral base).rest num).toNat).2
    (hrest.trans_le (Nat.pow_le_pow_left hbase 31))
  rw [if_neg hneg, List.length_cons, List.length_map]
  omega

/-- A number that is negative for the loops, in a base in which it stays so. -/
theorem diverges_itoa (hbase : 2 ≤ base) (hbase' : base ≤ 36) (hwraps : Wraps base)
    (h : 2 ^ 31 ≤ (if num.toInt < 0 ∧ base = 10 then -num else num).toNat) (str : Cells Byte) :
    Diverges fun n => itoa num base str n := by
  have hnum : num ≠ 0 := fun hzero => by
    rw [hzero] at h
    split at h <;> exact absurd h (by decide)
  simp only [itoa, if_neg hnum]
  refine Diverges.bind _ (Numeral.diverges_countDigits (2 ^ 31 ≤ ·.toNat) (fun k hk => ?_) h)
  refine ⟨beq_eq_false_iff_ne.2 fun hzero => ?_, (rest_of_neg hbase hbase' hk).2 hwraps⟩
  rw [hzero] at hk
  exact absurd hk (by decide)

/-- The lowest `int` is its own opposite. -/
theorem diverges_itoa_intMin (hnum : num.toInt = -2 ^ 31) (str : Cells Byte) :
    Diverges fun n => itoa num 10 str n := by
  have hmin : num = 0x80000000 := BitVec.eq_of_toInt_eq hnum
  subst hmin
  exact diverges_itoa (by decide) (by decide) (by decide) (by decide) str

/-- Every other `int` is represented. -/
theorem returns_itoa_ten (hnum : num.toInt ≠ -2 ^ 31) (str : Cells Byte) :
    ∃ r, Returns (fun n => itoa num 10 str n) r ∧ HoldsString r (signedDecimal num.toInt) ∧
      ∀ i, i ∈ r.written ↔ i ∈ str.written ∨ i ≤ (signedDecimal num.toInt).length := by
  have hlt := num.isLt
  rcases Nat.lt_or_ge num.toNat (2 ^ 31) with h | h
  · have htoInt : num.toInt = num.toNat := by
      rw [BitVec.toInt_eq_toNat_cond, if_pos (by omega)]
    obtain ⟨r, hreturns, hr, hwritten⟩ :=
      returns_itoa_of_nonneg (by decide : 2 ≤ 10) (by decide) h str
    have hrep : signedDecimal num.toInt = numeral 10 num.toNat := by
      rw [signedDecimal, htoInt, if_neg (by omega), List.nil_append, Int.natAbs_natCast]
    rw [hrep]
    exact ⟨r, hreturns, hr, hwritten⟩
  · have htoInt : num.toInt = num.toNat - 2 ^ 32 := by
      rw [BitVec.toInt_eq_toNat_cond, if_neg (by omega)]
      rfl
    obtain ⟨r, hreturns, hr, hwritten⟩ := @returns_itoa_of_neg_ten num (by omega) str
    have hrep : signedDecimal num.toInt = 0x2D :: numeral 10 (2 ^ 32 - num.toNat) := by
      rw [signedDecimal, if_pos (by omega), htoInt, List.singleton_append]
      congr 2
      omega
    rw [hrep]
    exact ⟨r, hreturns, hr, hwritten⟩

/-- In base 10, `itoa` returns the representation of every `int` but the lowest one. -/
theorem itoa_decimal_iff (num : BitVec 32) (str : Cells Byte) :
    (∃ r, Returns (fun n => itoa num 10 str n) r ∧ HoldsString r (signedDecimal num.toInt)) ↔
      num.toInt ≠ -2 ^ 31 := by
  constructor
  · rintro ⟨r, hreturns, -⟩ hnum
    exact (diverges_itoa_intMin hnum str).not_returns r hreturns
  · intro hnum
    obtain ⟨r, hreturns, hr, -⟩ := returns_itoa_ten hnum str
    exact ⟨r, hreturns, hr⟩

theorem itoa_intMin : ¬∀ (num : BitVec 32) (str : Cells Byte), ∃ r,
    Returns (fun n => itoa num 10 str n) r ∧ HoldsString r (signedDecimal num.toInt) := by
  intro h
  obtain ⟨r, hreturns, -⟩ := h 0x80000000 ⟨fun _ => 0, []⟩
  exact (diverges_itoa_intMin rfl _).not_returns r hreturns

/-! ## The buffers -/

/-- The call returns, and everything that it writes is within a buffer of 50 characters. -/
def FitsBuffer (call : ℕ → Option (Cells Byte)) : Prop :=
  ∃ r, Returns call r ∧ ∀ i ∈ r.written, i < 50

theorem length_numeral_le_iff (hbase : 2 ≤ base) {u k : ℕ} (hk : 0 < k) :
    (numeral base u).length ≤ k ↔ u < base ^ k := by
  rw [← Nat.digits_length_le_iff hbase, numeral]
  split_ifs with hu
  · simp [hu, Nat.one_le_iff_ne_zero.2 hk.ne']
  · rw [List.length_map, List.length_reverse]

theorem length_signedDecimal_le (num : BitVec 32) : (signedDecimal num.toInt).length ≤ 11 := by
  have hle := @BitVec.toInt_lt 32 num
  have hge := @BitVec.le_toInt 32 num
  have hnat : num.toInt.natAbs < 10 ^ 10 := by omega
  have hlen := (@length_numeral_le_iff 10 (by decide) _ 10 (by decide)).2 hnat
  rw [signedDecimal, List.length_append]
  split_ifs <;> simp only [List.length_singleton, List.length_nil] <;> omega

/-- `uitoa` writes beyond its buffer only in base 2, and for numbers of at least 50 digits. -/
theorem fitsBuffer_uitoa_iff (hbase : 2 ≤ base) (hbase' : base ≤ 36) {u : ℕ} (hu : u < 2 ^ 64)
    (m : ℕ → Byte) : FitsBuffer (fun n => uitoa u base ⟨m, []⟩ n) ↔ base ≠ 2 ∨ u < 2 ^ 49 := by
  obtain ⟨r, hreturns, -, hwritten⟩ := returns_uitoa hbase hbase' u ⟨m, []⟩
  have hfits : FitsBuffer (fun n => uitoa u base ⟨m, []⟩ n) ↔ u < base ^ 49 := by
    rw [← length_numeral_le_iff hbase (by decide)]
    constructor
    · rintro ⟨r', hreturns', hr'⟩
      rw [hreturns'.unique hreturns] at hr'
      exact Nat.le_of_lt_succ (hr' _ ((hwritten _).2 (.inr le_rfl)))
    · refine fun hle => ⟨r, hreturns, fun i hi => ?_⟩
      exact Nat.lt_succ_of_le ((((hwritten i).1 hi).resolve_left List.not_mem_nil).trans hle)
  rw [hfits]
  rcases hbase.eq_or_lt with rfl | hlt
  · simp
  · refine iff_of_true (hu.trans_le ?_) (.inl hlt.ne')
    exact (by decide : 2 ^ 64 ≤ 3 ^ 49).trans (Nat.pow_le_pow_left hlt 49)

/-- `itoa` returns, for a negative number, in base 10 unless it is the lowest one, and in the bases
in which its first quotient is not negative. Then it needs no more than its buffer. -/
theorem fitsBuffer_itoa_iff (hbase : 2 ≤ base) (hbase' : base ≤ 36) (num : BitVec 32)
    (m : ℕ → Byte) : FitsBuffer (fun n => itoa num base ⟨m, []⟩ n) ↔
      0 ≤ num.toInt ∨ (base = 10 ∧ num.toInt ≠ -2 ^ 31) ∨ ¬Wraps base := by
  have hdiverges : (Diverges fun n => itoa num base ⟨m, []⟩ n) →
      ¬FitsBuffer (fun n => itoa num base ⟨m, []⟩ n) :=
    fun h ⟨r, hreturns, _⟩ => h.not_returns r hreturns
  have hnum := @toInt_neg_iff num
  rcases Nat.lt_or_ge num.toNat (2 ^ 31) with h | h
  · obtain ⟨r, hreturns, -, hwritten⟩ := returns_itoa_of_nonneg hbase hbase' h ⟨m, []⟩
    refine iff_of_true ⟨r, hreturns, fun i hi => ?_⟩ (.inl (by omega))
    have hlen := (length_numeral_le_iff hbase (by decide)).2
      (h.trans_le (Nat.pow_le_pow_left hbase 31))
    have hle := ((hwritten i).1 hi).resolve_left List.not_mem_nil
    omega
  · by_cases hten : base = 10
    · subst hten
      by_cases hmin : num.toInt = -2 ^ 31
      · refine iff_of_false (hdiverges (diverges_itoa_intMin hmin _)) ?_
        rw [not_or, not_or, not_and_not_right]
        exact ⟨by omega, fun _ => hmin, not_not.2 (by decide)⟩
      · obtain ⟨r, hreturns, -, hwritten⟩ := returns_itoa_ten hmin ⟨m, []⟩
        refine iff_of_true ⟨r, hreturns, fun i hi => ?_⟩ (.inr (.inl ⟨rfl, hmin⟩))
        have hle := ((hwritten i).1 hi).resolve_left List.not_mem_nil
        exact (hle.trans (length_signedDecimal_le num)).trans_lt (by decide)
    · by_cases hwraps : Wraps base
      · refine iff_of_false (hdiverges (diverges_itoa hbase hbase' hwraps ?_ _)) ?_
        · rwa [if_neg fun h => hten h.2]
        · rw [not_or, not_or]
          exact ⟨by omega, fun h => hten h.1, not_not.2 hwraps⟩
      · obtain ⟨r, hreturns, hwritten⟩ := returns_itoa_of_neg hbase hbase' hten h hwraps ⟨m, []⟩
        refine iff_of_true ⟨r, hreturns, fun i hi => ?_⟩ (.inr (.inr hwraps))
        have hle := (hwritten i hi).resolve_left List.not_mem_nil
        omega

/-- When both functions return, and keep to their buffers, for all bases from 2 to 36. -/
theorem fitsBuffer_iff (hbase : 2 ≤ base) (hbase' : base ≤ 36) {u : ℕ} (hu : u < 2 ^ 64)
    (num : BitVec 32) (m m' : ℕ → Byte) :
    (FitsBuffer (fun n => uitoa u base ⟨m, []⟩ n) ↔ base ≠ 2 ∨ u < 2 ^ 49) ∧
    (FitsBuffer (fun n => itoa num base ⟨m', []⟩ n) ↔
      0 ≤ num.toInt ∨ (base = 10 ∧ num.toInt ≠ -2 ^ 31) ∨ ¬Wraps base) :=
  ⟨fitsBuffer_uitoa_iff hbase hbase' hu m, fitsBuffer_itoa_iff hbase hbase' num m'⟩

/-- The largest number of `uitoa`, and a negative one. -/
theorem fitsBuffer_decimal :
    FitsBuffer (fun n => uitoa (2 ^ 64 - 1) 10 ⟨fun _ => 0, []⟩ n) ∧
    FitsBuffer (fun n => itoa (-0xCAFE) 10 ⟨fun _ => 0, []⟩ n) := by
  obtain ⟨huitoa, hitoa⟩ := @fitsBuffer_iff 10 (by decide) (by decide) (2 ^ 64 - 1) (by decide)
    (-0xCAFE) (fun _ => 0) fun _ => 0
  exact ⟨huitoa.2 (.inl (by decide)), hitoa.2 (.inr (.inl ⟨rfl, by decide⟩))⟩

/-- The number -1 in base 2 never comes to zero. -/
theorem not_fitsBuffer : ¬∀ (base u : ℕ) (num : BitVec 32) (m m' : ℕ → Byte), 2 ≤ base →
    base ≤ 36 → u < 2 ^ 64 → FitsBuffer (fun n => uitoa u base ⟨m, []⟩ n) ∧
      FitsBuffer (fun n => itoa num base ⟨m', []⟩ n) := by
  intro h
  have hfits := (h 2 0 (-1) (fun _ => 0) (fun _ => 0) (by decide) (by decide) (by decide)).2
  exact absurd ((fitsBuffer_itoa_iff (by decide) (by decide) _ _).1 hfits) (by decide)

end

end SmartOS
