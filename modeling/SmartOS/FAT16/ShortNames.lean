import SmartOS.FAT16.Names
import Mathlib.Data.List.TakeWhile

/-!
# 8.3 names

Names with a base of one to eight characters and an extension of up to three are one
thing, and their eleven bytes in a directory entry another: the two conversions are
inverse to each other (`conversions_inverse`).

A string that is no such name should not become the eleven bytes of one. It does,
when what the loops of `filenameToFAT` read of it is a base and an extension
(`not_isFATName_iff`): a ninth character of the base is skipped, whatever it is, and what
is behind the third of the extension is not read.
-/

namespace SmartOS

open Prog

variable {n : ℕ} {s base ext name fatname : List Byte} {c : Byte}

/-- A base or an extension of up to `n` characters, none of them a zero, a space or a dot. -/
structure IsPart (n : ℕ) (s : List Byte) : Prop where
  le : s.length ≤ n
  chars : ∀ c ∈ s, c ≠ 0 ∧ c ≠ 0x20 ∧ c ≠ 0x2E

/-- The string is an 8.3 name. -/
def IsName (name : List Byte) : Prop :=
  ∃ base ext, base ≠ [] ∧ IsPart 8 base ∧ IsPart 3 ext ∧ name = joinName base ext

/-- The eleven bytes are those of an 8.3 name. -/
def IsFATName (fatname : List Byte) : Prop :=
  ∃ base ext, base ≠ [] ∧ IsPart 8 base ∧ IsPart 3 ext ∧ fatname = padded 8 base ++ padded 3 ext

/-! ## Names and back -/

namespace IsPart

theorem dot_not_mem (h : IsPart n s) : 0x2E ∉ s := fun hmem => (h.chars _ hmem).2.2 rfl

/-- Without its spaces, a padded part is what it was. -/
theorem filter_padded (h : IsPart n s) : (padded n s).filter (· ≠ 0x20) = s := by
  have hs : s.filter (· ≠ 0x20) = s :=
    List.filter_eq_self.2 fun c hc => decide_eq_true (h.chars c hc).2.1
  have hspaces : (List.replicate (n - s.length) (0x20 : Byte)).filter (· ≠ 0x20) = [] :=
    List.filter_eq_nil_iff.2 fun c hc => by simp [List.eq_of_mem_replicate hc]
  rw [padded, List.filter_append, hs, hspaces, List.append_nil]

end IsPart

theorem filenameToFAT_of_parts (hbase : IsPart 8 base) (hext : IsPart 3 ext) :
    filenameToFAT (joinName base ext) = padded 8 base ++ padded 3 ext :=
  filenameToFAT_joinName hbase.le hext.le hbase.dot_not_mem

theorem fatToFilename_of_parts (hbase : IsPart 8 base) (hext : IsPart 3 ext) :
    fatToFilename (padded 8 base ++ padded 3 ext) = joinName base ext := by
  have hlen : (padded 8 base).length = 8 := length_padded hbase.le
  rw [fatToFilename, List.take_left' hlen, List.drop_left' hlen, hbase.filter_padded,
    hext.filter_padded, List.getD_eq_getElem?_getD, List.getElem?_append_right hlen.le, hlen,
    joinName]
  -- The byte behind the base says whether there is an extension.
  cases ext with
  | nil => rfl
  | cons c ext =>
    have hc : c ≠ 0x20 := (hext.chars c List.mem_cons_self).2.1
    simpa [padded] using hc

/-- The conversions are inverse to each other, on 8.3 names and on their eleven bytes. -/
theorem conversions_inverse :
    (∀ name, IsName name → fatToFilename (filenameToFAT name) = name) ∧
      ∀ fatname, IsFATName fatname → filenameToFAT (fatToFilename fatname) = fatname := by
  constructor
  · rintro name ⟨base, ext, -, hbase, hext, rfl⟩
    rw [filenameToFAT_of_parts hbase hext, fatToFilename_of_parts hbase hext]
  · rintro fatname ⟨base, ext, -, hbase, hext, rfl⟩
    rw [fatToFilename_of_parts hbase hext, filenameToFAT_of_parts hbase hext]

/-- `KERNEL.ELF`, and a base of eight characters without an extension. -/
theorem conversions_inverse_kernel :
    fatToFilename (filenameToFAT [0x4B, 0x45, 0x52, 0x4E, 0x45, 0x4C, 0x2E, 0x45, 0x4C, 0x46]) =
        [0x4B, 0x45, 0x52, 0x4E, 0x45, 0x4C, 0x2E, 0x45, 0x4C, 0x46] ∧
      filenameToFAT (fatToFilename (List.replicate 8 0x41 ++ List.replicate 3 0x20)) =
        List.replicate 8 0x41 ++ List.replicate 3 0x20 := by
  refine ⟨conversions_inverse.1 _ ⟨[0x4B, 0x45, 0x52, 0x4E, 0x45, 0x4C], [0x45, 0x4C, 0x46],
    by decide, ⟨by decide, by decide⟩, ⟨by decide, by decide⟩, rfl⟩,
    conversions_inverse.2 _ ⟨List.replicate 8 0x41, [], by decide, ⟨by decide, by decide⟩,
      ⟨by decide, by decide⟩, rfl⟩⟩

/-! ## Other strings -/

/-- A base that is too long, or an extension, or more than one dot. -/
def Malformed (s : List Byte) : Prop :=
  8 < (s.takeWhile (· ≠ 0x2E)).length ∨ 3 < (s.dropWhile (· ≠ 0x2E)).tail.length ∨
    1 < s.count 0x2E

instance (s : List Byte) : Decidable (Malformed s) :=
  inferInstanceAs (Decidable (8 < (s.takeWhile (· ≠ 0x2E)).length ∨
    3 < (s.dropWhile (· ≠ 0x2E)).tail.length ∨ 1 < s.count 0x2E))

/-- Such a string is no 8.3 name. -/
theorem Malformed.not_isName (h : Malformed s) : ¬IsName s := by
  rintro ⟨base, ext, -, hbase, hext, rfl⟩
  have hpos (c : Byte) (hc : c ∈ base) : decide (c ≠ 0x2E) = true :=
    decide_eq_true (hbase.chars c hc).2.2
  have hle := hbase.le
  have hle' := hext.le
  rw [Malformed, joinName] at h
  split_ifs at h with hnil
  · rw [List.takeWhile_eq_self_iff.2 hpos, List.dropWhile_eq_nil_iff.2 hpos,
      List.count_eq_zero_of_not_mem hbase.dot_not_mem] at h
    simp at h
    omega
  · rw [List.takeWhile_append_of_pos hpos, List.dropWhile_append_of_pos hpos, List.count_append,
      List.count_eq_zero_of_not_mem hbase.dot_not_mem, List.count_cons_self,
      List.count_eq_zero_of_not_mem hext.dot_not_mem] at h
    simp at h
    omega

/-- Behind a space there are only spaces. -/
def Justified (s : List Byte) : Prop := ∀ c ∈ s.dropWhile (· ≠ 0x20), c = 0x20

theorem takeWhile_padded (s : List Byte) :
    (padded n s).takeWhile (· ≠ 0x20) = s.takeWhile (· ≠ 0x20) := by
  have hspaces : (List.replicate (n - s.length) (0x20 : Byte)).takeWhile (· ≠ 0x20) = [] := by
    cases n - s.length <;> rfl
  rw [padded, List.takeWhile_append, hspaces, List.append_nil]
  split_ifs with hlen
  · exact ((List.takeWhile_prefix _).eq_of_length hlen).symm
  · rfl

theorem IsPart.takeWhile_eq (h : IsPart n s) : s.takeWhile (· ≠ 0x20) = s :=
  List.takeWhile_eq_self_iff.2 fun c hc => decide_eq_true (h.chars c hc).2.1

/-- What is padded to the same bytes as a part. -/
theorem isPart_iff (hle : s.length ≤ n) (h0 : 0 ∉ s) :
    (IsPart n (s.takeWhile (· ≠ 0x20)) ∧ padded n s = padded n (s.takeWhile (· ≠ 0x20))) ↔
      Justified s ∧ 0x2E ∉ s := by
  have hsplit := List.takeWhile_append_dropWhile (p := (· ≠ (0x20 : Byte))) (l := s)
  have hplain (c : Byte) (hc : c ∈ s.takeWhile (· ≠ 0x20)) : c ≠ 0x20 := by
    simpa using List.mem_takeWhile_imp hc
  rw [Justified]
  generalize s.takeWhile (· ≠ 0x20) = part at hsplit hplain ⊢
  generalize s.dropWhile (· ≠ 0x20) = spaces at hsplit ⊢
  subst hsplit
  rw [List.length_append] at hle
  constructor
  · rintro ⟨hpart, heq⟩
    rw [padded, padded, List.append_assoc, List.append_cancel_left_eq] at heq
    have hspaces : ∀ c ∈ spaces, c = 0x20 := fun c hc =>
      List.eq_of_mem_replicate (heq ▸ List.mem_append_left _ hc)
    refine ⟨hspaces, fun hdot => ?_⟩
    rcases List.mem_append.1 hdot with hdot | hdot
    · exact hpart.dot_not_mem hdot
    · exact absurd (hspaces _ hdot) (by decide)
  · rintro ⟨hspaces, hdot⟩
    refine ⟨⟨by omega, fun c hc => ⟨?_, hplain c hc, ?_⟩⟩, ?_⟩
    · exact fun heq => h0 (heq ▸ List.mem_append_left _ hc)
    · exact fun heq => hdot (heq ▸ List.mem_append_left _ hc)
    · rw [padded, padded, List.eq_replicate_of_mem hspaces, List.append_assoc,
        List.replicate_append_replicate, List.length_append, List.length_replicate]
      congr 2
      omega

/-- What the loops read of a string is a base and an extension. -/
theorem isFATName_iff (h0 : 0 ∉ s) : IsFATName (filenameToFAT s) ↔
    (readBase s).takeWhile (· ≠ 0x20) ≠ [] ∧ Justified (readBase s) ∧
      Justified (readExtension s) ∧ 0x2E ∉ readExtension s := by
  have hbase := @length_readBase s
  have hext : (readExtension s).length ≤ 3 := List.length_take_le 3 _
  have hbase0 : 0 ∉ readBase s := fun h =>
    h0 ((List.takeWhile_sublist _).subset (List.mem_of_mem_take h))
  have hext0 : 0 ∉ readExtension s := fun h => h0 (List.mem_of_mem_drop (List.mem_of_mem_take h))
  rw [filenameToFAT_eq, ← isPart_iff hext hext0]
  have hbase_iff := isPart_iff hbase hbase0
  rw [and_iff_left dot_not_mem_readBase] at hbase_iff
  rw [← hbase_iff]
  constructor
  · rintro ⟨base, ext, hne, hpart, hpart', heq⟩
    -- The parts are what comes before the spaces.
    obtain ⟨heq, heq'⟩ := List.append_inj heq
      ((length_padded hbase).trans (length_padded hpart.le).symm)
    have hread : (readBase s).takeWhile (· ≠ 0x20) = base := by
      rw [← takeWhile_padded, heq, takeWhile_padded, hpart.takeWhile_eq]
    have hread' : (readExtension s).takeWhile (· ≠ 0x20) = ext := by
      rw [← takeWhile_padded, heq', takeWhile_padded, hpart'.takeWhile_eq]
    rw [hread, hread']
    exact ⟨hne, ⟨hpart, heq⟩, hpart', heq'⟩
  · rintro ⟨hne, ⟨hpart, heq⟩, hpart', heq'⟩
    exact ⟨_, _, hne, hpart, hpart', by rw [heq, heq']⟩

/-- A string does not become the eleven bytes of an 8.3 name exactly if it starts with a space or a
    dot, or has a space before something else or a second dot where the loops read. -/
theorem not_isFATName_iff (h0 : 0 ∉ s) : ¬IsFATName (filenameToFAT s) ↔
    s.head? ∈ [none, some 0x2E, some 0x20] ∨ ¬Justified (readBase s) ∨
      ¬Justified (readExtension s) ∨ 0x2E ∈ readExtension s := by
  have hfirst : (readBase s).takeWhile (· ≠ 0x20) = [] ↔
      s.head? ∈ [none, some 0x2E, some 0x20] := by
    cases s with
    | nil => decide
    | cons c s =>
      rw [readBase]
      by_cases hdot : c = 0x2E
      · simp [hdot]
      · by_cases hspace : c = 0x20
        · simp [hspace]
        · rw [List.takeWhile_cons_of_pos (by simpa using hdot), List.take_succ_cons,
            List.takeWhile_cons_of_pos (by simpa using hspace)]
          simpa using ⟨hdot, hspace⟩
  rw [isFATName_iff h0, not_and_or, not_and_or, not_and_or, not_not, not_not, hfirst]

/-- `A.B.C` is a file that no entry can be. -/
theorem not_isFATName_twoDots : ¬IsFATName (filenameToFAT [0x41, 0x2E, 0x42, 0x2E, 0x43]) :=
  (not_isFATName_iff (by decide)).2 (.inr (.inr (.inr (by decide))))

/-- `ABCDEFGHI` becomes `ABCDEFGH`. -/
theorem exists_malformed_isFATName : ¬∀ s : List Byte, 0 ∉ s → Malformed s →
    ¬IsFATName (filenameToFAT s) := by
  intro hall
  refine hall [0x41, 0x42, 0x43, 0x44, 0x45, 0x46, 0x47, 0x48, 0x49] (by decide) (by decide)
    ⟨[0x41, 0x42, 0x43, 0x44, 0x45, 0x46, 0x47, 0x48], [], by decide, ⟨by decide, by decide⟩,
      ⟨by decide, by decide⟩, by decide⟩

end SmartOS
