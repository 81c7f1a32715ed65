import SmartOS.Bytes

/-!
# File names

The two functions of `FAT16.cpp` that convert names: from a string such as
`KERNEL.ELF` to the eleven bytes of a directory entry (`filenameToFAT`), and back
(`fatToFilename`). A string is the bytes before its terminating zero. `ShortName`
says which strings are names on a volume, and which bytes an entry has for them.
-/

namespace SmartOS

open Prog

/-- The characters of a string, up to the first zero. -/
def cString (bytes : List Byte) : List Byte := bytes.takeWhile (· ≠ 0)

/-- The first loop of `filenameToFAT`, with `i = 8 - n`: at a dot, `i` goes on alone. It leaves what
    is not read of the name. -/
def baseToFAT : ℕ → List Byte → List Byte → List Byte × List Byte
  | 0, name, fatname => (name, fatname)
  | _ + 1, [], fatname => ([], fatname)
  | n + 1, c :: name, fatname =>
    if c ≠ 0x2E then baseToFAT n name (fatname.set (8 - (n + 1)) c)
    else baseToFAT n (c :: name) fatname

/-- The second loop. -/
def extensionToFAT : ℕ → List Byte → List Byte → List Byte
  | _, [], fatname => fatname
  | i, c :: name, fatname =>
    if i < 11 then extensionToFAT (i + 1) name (fatname.set i c) else fatname

def filenameToFAT (name : List Byte) : List Byte :=
  match baseToFAT 8 name (List.replicate 11 0x20) with
  | ([], fatname) => fatname
  | (_ :: name, fatname) => extensionToFAT 8 name fatname

/-- What `fatToFilename` writes before the zero. -/
def fatToFilename (fatname : List Byte) : List Byte :=
  let base := (fatname.take 8).filter (· ≠ 0x20)
  if fatname.getD 8 0 = 0x20 then base
  else base ++ 0x2E :: (fatname.drop 8).filter (· ≠ 0x20)

/-- A character of a base or of an extension: no terminating zero, space, dot or slash. -/
def IsNameChar (c : Byte) : Prop := c ≠ 0 ∧ c ≠ 0x20 ∧ c ≠ 0x2E ∧ c ≠ 0x2F

/-- A base or an extension of up to `n` characters. -/
structure IsNamePart (n : ℕ) (s : List Byte) : Prop where
  pos : 1 ≤ s.length
  le : s.length ≤ n
  chars : ∀ c ∈ s, IsNameChar c

/-- Spaces fill up the `n` bytes. -/
def padded (n : ℕ) (s : List Byte) : List Byte := s ++ List.replicate (n - s.length) 0x20

/-- The string is an 8.3 name, and these are the eleven bytes of an entry with it. -/
inductive ShortName : List Byte → List Byte → Prop
  | base {base : List Byte} : IsNamePart 8 base → ShortName base (padded 8 base ++ padded 3 [])
  | extension {base ext : List Byte} : IsNamePart 8 base → IsNamePart 3 ext →
      ShortName (base ++ 0x2E :: ext) (padded 8 base ++ padded 3 ext)

/-! ## The bytes of an entry -/

variable {name fatname : List Byte} {n i : ℕ}

theorem length_baseToFAT : (baseToFAT n name fatname).2.length = fatname.length := by
  fun_induction baseToFAT n name fatname with
  | case1 => rfl
  | case2 => rfl
  | case3 _ _ _ _ _ ih => rw [ih, List.length_set]
  | case4 _ _ _ _ _ ih => exact ih

theorem length_extensionToFAT : (extensionToFAT i name fatname).length = fatname.length := by
  fun_induction extensionToFAT i name fatname with
  | case1 => rfl
  | case2 _ _ _ _ _ ih => rw [ih, List.length_set]
  | case3 => rfl

theorem length_filenameToFAT : (filenameToFAT name).length = 11 := by
  have hbase := @length_baseToFAT name (List.replicate 11 0x20) 8
  rw [filenameToFAT]
  split
  · next heq => rwa [heq] at hbase
  · next heq =>
    rw [heq] at hbase
    rwa [length_extensionToFAT]

theorem not_mem_set {c : Byte} (hc : c ≠ 0) (h : 0 ∉ fatname) : 0 ∉ fatname.set i c :=
  fun hmem => (List.mem_or_eq_of_mem_set hmem).elim h fun heq => hc heq.symm

theorem baseToFAT_ne_zero (hname : 0 ∉ name) (h : 0 ∉ fatname) :
    0 ∉ (baseToFAT n name fatname).1 ∧ 0 ∉ (baseToFAT n name fatname).2 := by
  fun_induction baseToFAT n name fatname with
  | case1 => exact ⟨hname, h⟩
  | case2 => exact ⟨hname, h⟩
  | case3 _ c name _ _ ih =>
    obtain ⟨hc, hname⟩ := List.ne_and_not_mem_of_not_mem_cons hname
    exact ih hname (not_mem_set (Ne.symm hc) h)
  | case4 _ _ _ _ _ ih => exact ih hname h

theorem extensionToFAT_ne_zero (hname : 0 ∉ name) (h : 0 ∉ fatname) :
    0 ∉ extensionToFAT i name fatname := by
  fun_induction extensionToFAT i name fatname with
  | case1 => exact h
  | case2 _ c name _ _ ih =>
    obtain ⟨hc, hname⟩ := List.ne_and_not_mem_of_not_mem_cons hname
    exact ih hname (not_mem_set (Ne.symm hc) h)
  | case3 => exact h

theorem filenameToFAT_ne_zero (hname : 0 ∉ name) : 0 ∉ filenameToFAT name := by
  obtain ⟨hrest, hbase⟩ := @baseToFAT_ne_zero name (List.replicate 11 0x20) 8 hname (by decide)
  rw [filenameToFAT]
  split
  · next heq => rwa [heq] at hbase
  · next heq =>
    rw [heq] at hrest hbase
    exact extensionToFAT_ne_zero (List.not_mem_of_not_mem_cons hrest) hbase

/-! ## 8.3 names -/

variable {s rest pre : List Byte} {k : ℕ}

theorem set_space {c : Byte} : (pre ++ List.replicate (k + 1) 0x20).set pre.length c =
    (pre ++ [c]) ++ List.replicate k 0x20 := by
  rw [List.set_append_right _ _ le_rfl, Nat.sub_self, List.replicate_succ, List.set_cons_zero,
    List.append_assoc, List.singleton_append]

/-- At a dot, the first loop only counts. -/
theorem baseToFAT_dot : baseToFAT n (0x2E :: rest) fatname = (0x2E :: rest, fatname) := by
  induction n with
  | zero => rfl
  | succ n ih => rw [baseToFAT, if_neg (not_not.2 rfl), ih]

/-- A base goes to where the first loop has come. -/
theorem baseToFAT_append (hpre : pre.length + n = 8) (hs : s.length ≤ n) (hdot : 0x2E ∉ s) :
    baseToFAT n (s ++ rest) (pre ++ List.replicate (k + s.length) 0x20) =
      baseToFAT (n - s.length) rest (pre ++ s ++ List.replicate k 0x20) := by
  induction s generalizing n pre with
  | nil => simp
  | cons c s ih =>
    obtain ⟨hc, hdot⟩ := List.ne_and_not_mem_of_not_mem_cons hdot
    rw [List.length_cons] at hs
    obtain ⟨m, rfl⟩ := Nat.exists_eq_succ_of_ne_zero (by omega : n ≠ 0)
    have hlen : 8 - (m + 1) = pre.length := by omega
    rw [List.cons_append, baseToFAT, if_pos (Ne.symm hc), hlen, List.length_cons, ← Nat.add_assoc,
      set_space, ih (by rw [List.length_append, List.length_singleton]; omega) (by omega) hdot,
      Nat.succ_sub_succ, List.append_assoc pre, List.singleton_append]

/-- The second loop puts as much as fits over the spaces. -/
theorem extensionToFAT_take (hpre : pre.length + k = 11) :
    extensionToFAT pre.length s (pre ++ List.replicate k 0x20) = pre ++ padded k (s.take k) := by
  induction k generalizing pre s with
  | zero =>
    cases s with
    | nil => simp [extensionToFAT, padded]
    | cons c s => rw [extensionToFAT, if_neg (by omega)]; simp [padded]
  | succ k ih =>
    cases s with
    | nil => simp [extensionToFAT, padded]
    | cons c s =>
      have hlen : pre.length + 1 = (pre ++ [c]).length := by simp
      rw [extensionToFAT, if_pos (by omega), set_space, hlen, ih (by rw [← hlen]; omega)]
      simp [padded]

/-- What the first loop reads: up to eight characters before the first dot. -/
def readBase (name : List Byte) : List Byte := (name.takeWhile (· ≠ 0x2E)).take 8

/-- What the second loop reads: up to three of the characters behind the one that is skipped. -/
def readExtension (name : List Byte) : List Byte := (name.drop ((readBase name).length + 1)).take 3

theorem length_readBase : (readBase name).length ≤ 8 := List.length_take_le 8 _

theorem dot_not_mem_readBase : 0x2E ∉ readBase name := fun h => by
  have hne := List.all_eq_true.1 List.all_takeWhile _ (List.mem_of_mem_take h)
  simp at hne

/-- The name ends there, or goes on with a dot, or with a ninth character. -/
theorem exists_readBase (name : List Byte) : ∃ rest, name = readBase name ++ rest ∧
    (rest = [] ∨ (∃ tail, rest = 0x2E :: tail) ∨ (readBase name).length = 8) := by
  have hsplit := List.takeWhile_append_dropWhile (p := (· ≠ (0x2E : Byte))) (l := name)
  have hhead := List.head?_dropWhile_not (· ≠ (0x2E : Byte)) name
  rw [readBase]
  by_cases hle : (name.takeWhile (· ≠ 0x2E)).length ≤ 8
  · rw [List.take_of_length_le hle]
    refine ⟨_, hsplit.symm, ?_⟩
    cases hrest : name.dropWhile (· ≠ 0x2E) with
    | nil => exact .inl rfl
    | cons c tail =>
      rw [hrest] at hhead
      obtain rfl : c = 0x2E := by simpa using hhead
      exact .inr (.inl ⟨tail, rfl⟩)
  · refine ⟨(name.takeWhile (· ≠ 0x2E)).drop 8 ++ name.dropWhile (· ≠ 0x2E), ?_, .inr (.inr ?_)⟩
    · rw [← List.append_assoc, List.take_append_drop, hsplit]
    · rw [List.length_take]
      omega

theorem length_padded {m : ℕ} (h : s.length ≤ m) : (padded m s).length = m := by
  rw [padded, List.length_append, List.length_replicate]
  omega

/-- The conversion of any string. -/
theorem filenameToFAT_eq (name : List Byte) :
    filenameToFAT name = padded 8 (readBase name) ++ padded 3 (readExtension name) := by
  obtain ⟨rest, hname, hrest⟩ := exists_readBase name
  have hext : readExtension name = rest.tail.take 3 := by
    rw [readExtension]
    nth_rewrite 2 [hname]
    rw [List.drop_append, List.drop_of_length_le (by omega), List.nil_append,
      Nat.add_sub_cancel_left, List.drop_one]
  have hbase := @length_readBase name
  have hdot := @dot_not_mem_readBase name
  rw [hext]
  generalize readBase name = base at hname hrest hbase hdot
  subst hname
  have hloop := @baseToFAT_append 8 base rest [] (11 - base.length) rfl hbase hdot
  rw [Nat.sub_add_cancel (by omega), List.nil_append, List.nil_append] at hloop
  have hpadded : base ++ List.replicate (11 - base.length) 0x20 =
      padded 8 base ++ List.replicate 3 0x20 := by
    rw [padded, List.append_assoc, List.replicate_append_replicate]
    congr 2
    omega
  -- The second loop starts behind the character where the first one stops.
  have hstop : baseToFAT (8 - base.length) rest (padded 8 base ++ List.replicate 3 0x20) =
      (rest, padded 8 base ++ List.replicate 3 0x20) := by
    rcases hrest with rfl | ⟨tail, rfl⟩ | hlen
    · cases 8 - base.length <;> rfl
    · exact baseToFAT_dot
    · rw [hlen]
      cases rest <;> rfl
  rw [filenameToFAT, hloop, hpadded, hstop]
  cases rest with
  | nil => rfl
  | cons c tail =>
    have hsecond := @extensionToFAT_take tail (padded 8 base) 3 (by rw [length_padded hbase])
    rwa [length_padded hbase] at hsecond

/-- A base is read to its end. -/
theorem readBase_append (hs : s.length ≤ 8) (hdot : 0x2E ∉ s)
    (hrest : rest = [] ∨ ∃ tail, rest = 0x2E :: tail) : readBase (s ++ rest) = s := by
  have hne (c : Byte) (hc : c ∈ s) : decide (c ≠ 0x2E) = true :=
    decide_eq_true fun heq => hdot (heq ▸ hc)
  have hstop : rest.takeWhile (· ≠ 0x2E) = [] := by
    rcases hrest with rfl | ⟨tail, rfl⟩ <;> rfl
  rw [readBase, List.takeWhile_append_of_pos hne, hstop, List.append_nil,
    List.take_of_length_le hs]

/-- A base, and an extension behind a dot unless it is empty. -/
def joinName (base ext : List Byte) : List Byte := if ext = [] then base else base ++ 0x2E :: ext

/-- The conversion of a name of a base and an extension. -/
theorem filenameToFAT_joinName {base ext : List Byte} (hbase : base.length ≤ 8)
    (hext : ext.length ≤ 3) (hdot : 0x2E ∉ base) :
    filenameToFAT (joinName base ext) = padded 8 base ++ padded 3 ext := by
  rw [filenameToFAT_eq, readExtension, joinName]
  split_ifs with hnil
  · have hread : readBase base = base := by
      simpa using @readBase_append base [] hbase hdot (.inl rfl)
    rw [hread, hnil, List.drop_of_length_le (by omega), List.take_nil]
  · rw [readBase_append hbase hdot (.inr ⟨ext, rfl⟩), List.drop_append,
      List.drop_of_length_le (by omega), List.nil_append, Nat.add_sub_cancel_left, List.drop_one,
      List.tail_cons, List.take_of_length_le hext]

/-- An 8.3 name is converted as it should be. -/
theorem filenameToFAT_of_shortName (h : ShortName name fatname) : filenameToFAT name = fatname := by
  have hdot {n : ℕ} {s : List Byte} (hs : IsNamePart n s) : 0x2E ∉ s :=
    fun hmem => (hs.chars _ hmem).2.2.1 rfl
  cases h with
  | base hbase => exact @filenameToFAT_joinName name [] hbase.le (by decide) (hdot hbase)
  | extension hbase hext =>
    have hne := List.ne_nil_of_length_pos hext.pos
    have hjoin := filenameToFAT_joinName hbase.le hext.le (hdot hbase)
    rwa [joinName, if_neg hne] at hjoin

/-- A name with an extension, and back. -/
example : filenameToFAT [0x41, 0x2E, 0x42] =
    [0x41, 0x20, 0x20, 0x20, 0x20, 0x20, 0x20, 0x20, 0x42, 0x20, 0x20] ∧
    fatToFilename (filenameToFAT [0x41, 0x2E, 0x42]) = [0x41, 0x2E, 0x42] := by decide

end SmartOS
