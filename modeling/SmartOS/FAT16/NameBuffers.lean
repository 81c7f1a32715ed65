import SmartOS.FAT16.Accesses
import SmartOS.FAT16.Termination

/-!
# Buffers for names

What `open` and `list` do with the buffers that they hold names in: a component of
the path in `filename`, of 13 bytes, its conversion in `fatFilename`, the name of an
entry in `fname`, of 12 bytes, and a path that is made of it in `newPath`. A call
goes on to its first access out of bounds (`NameAccess`); behind it, what it does is
undefined.

A component with 12 characters or more overflows, as does the name of an entry whose
eleven bytes are all used, for which `fname` has no zero at the end.

* `inBounds_component_iff`, `inBounds_entries_iff`: a component, and the entries of a
  cluster;
* `namesInBounds_iff`: the calls that stay within their buffers (`FAT16.NamesFit`).
-/

namespace SmartOS

open Prog

/-- The buffers. -/
inductive NameBuffer
  | filename
  | fatFilename
  | fname
  | newPath
  deriving Repr, DecidableEq

/-- An access to `count` bytes from `index` on, in a buffer of `size` bytes. -/
structure NameAccess where
  buffer : NameBuffer
  size : ℕ
  index : ℕ
  count : ℕ
  deriving Repr, DecidableEq

/-- All indices are below the size. -/
def NameAccess.InBounds (a : NameAccess) : Prop := a.count = 0 ∨ a.index + a.count ≤ a.size

instance (a : NameAccess) : Decidable a.InBounds :=
  inferInstanceAs (Decidable (a.count = 0 ∨ a.index + a.count ≤ a.size))

/-! ## Conversions -/

/-- The first loop of `filenameToFAT`, from the index `j` of `name` on. -/
def baseAccesses (size : ℕ) : ℕ → ℕ → List Byte → List NameAccess
  | 0, j, _ => [⟨.filename, 13, j, 1⟩]
  | _ + 1, j, [] => [⟨.filename, 13, j, 1⟩]
  | n + 1, j, c :: name =>
    ⟨.filename, 13, j, 1⟩ ::
      if c ≠ 0x2E then
        ⟨.fatFilename, size, 8 - (n + 1), 1⟩ :: baseAccesses size n (j + 1) name
      else baseAccesses size n j (c :: name)

/-- The second loop. -/
def extensionAccesses (size : ℕ) : ℕ → ℕ → List Byte → List NameAccess
  | _, j, [] => [⟨.filename, 13, j, 1⟩]
  | i, j, _ :: name =>
    ⟨.filename, 13, j, 1⟩ ::
      if i < 11 then ⟨.fatFilename, size, i, 1⟩ :: extensionAccesses size (i + 1) (j + 1) name
      else []

/-- `filenameToFAT(fatFilename, filename)`, with a `fatFilename` of `size` bytes. -/
def filenameToFATAccesses (size : ℕ) (name : List Byte) : List NameAccess :=
  ⟨.fatFilename, size, 0, 11⟩ :: baseAccesses size 8 0 name ++
    match (baseToFAT 8 name (List.replicate 11 0x20)).1 with
    | [] => [⟨.filename, 13, name.length, 1⟩]
    | _ :: rest =>
      ⟨.filename, 13, name.length - (rest.length + 1), 1⟩ ::
        extensionAccesses size 8 (name.length - rest.length) rest

/-- A loop of `fatToFilename`, from the index `j` of `name` on. -/
def copyAccesses : ℕ → List Byte → List NameAccess
  | _, [] => []
  | j, c :: fatname =>
    if c ≠ 0x20 then ⟨.fname, 12, j, 1⟩ :: copyAccesses (j + 1) fatname
    else copyAccesses j fatname

/-- `fatToFilename(fname, fatname)` -/
def fatToFilenameAccesses (fatname : List Byte) : List NameAccess :=
  let j := ((fatname.take 8).filter (· ≠ 0x20)).length
  copyAccesses 0 (fatname.take 8) ++
    (if fatname.getD 8 0 = 0x20 then []
      else ⟨.fname, 12, j, 1⟩ :: copyAccesses (j + 1) (fatname.drop 8)) ++
    [⟨.fname, 12, (fatToFilename fatname).length, 1⟩]

/-! ## Components -/

/-- What `open` and `list` do with a component, up to the search for it. -/
def componentAccesses (size : ℕ) (tail : Byte) (component : List Byte) : List NameAccess :=
  ⟨.filename, 13, 12, 1⟩ :: ⟨.filename, 13, 0, component.length⟩ ::
    ⟨.filename, 13, component.length, wrapSub 11 component.length⟩ ::
      match localName tail component with
      | none => []
      | some name => filenameToFATAccesses size name

/-! ## Entries -/

/-- What `list` does with the name of an entry, when it is in `fname`. -/
def newPathAccesses (path fname : List Byte) : List NameAccess :=
  let size := path.length + fname.length + 2
  [⟨.fname, 12, 0, fname.length + 1⟩, ⟨.newPath, size, 0, path.length⟩,
    ⟨.newPath, size, path.length, 1⟩, ⟨.newPath, size, path.length, fname.length + 1⟩,
    ⟨.fname, 12, 0, fname.length + 1⟩]

/-- The loop of `list` on a cluster. -/
def entriesAccesses (path : List Byte) : List DirectoryEntry → List NameAccess
  | [] => []
  | e :: es =>
    if e.mark = 0 then []
    else if e.mark.toInt = 0xE5 then entriesAccesses path es
    else
      fatToFilenameAccesses e.name ++
        if (fatToFilename e.name).length < 12 then
          newPathAccesses path (cString (fatToFilename e.name)) ++ entriesAccesses path es
        else []

/-! ## Calls -/

/-- A call of `open` or `list`. -/
inductive NameQuery
  | open (junk : ℕ → Junk) (lastSize : ℕ) (path : List Byte)
  | list (junk : ℕ → Junk) (entries : Mem) (lastSize : ℕ) (path : List Byte)

namespace FAT16

variable (fs : FAT16) (disk : Disk)

/-- Of `walk`, and of what comes after it. -/
def walkNames (junk : ℕ → Junk) (fuel : ℕ) (after : Walk → List NameAccess) :
    List Byte → Walk → List NameAccess
  | [], w => after w
  | c :: path, w =>
    if c = 0x2F then
      componentAccesses 11 (junk w.searches).tail w.component ++
        match fs.lookUp disk junk w fuel with
        | some (some w) => walkNames junk fuel after path w
        | _ => []
    else walkNames junk fuel after path { w with component := w.component ++ [c] }

/-- A round of the loop of `list`. -/
def listNames (path : List Byte) : ℕ × Mem × List NamedFile → List NameAccess
  | (cluster, entries, _) =>
    if cluster < 0xFFF7 then
      entriesAccesses path (fs.directoryEntries (fs.readCluster disk cluster entries))
    else []

/-- What a call does with names in at most `fuel` rounds of each of its loops on clusters. -/
def nameAccesses (fuel : ℕ) : NameQuery → List NameAccess
  | .open junk lastSize path =>
    fs.walkNames disk junk fuel
      (fun w => ⟨.fatFilename, 12, 11, 1⟩ ::
        componentAccesses 12 (junk w.searches).tail w.component)
      (stripSlash path) ⟨0, [], 1, lastSize⟩
  | .list junk entries lastSize path =>
    fs.walkNames disk junk fuel
      (fun w => loopLog (fs.listBody disk (stripSlash path)) (fs.listNames disk (stripSlash path))
        (fun _ => []) fuel (w.cluster, entries, []))
      (stripSlash path) ⟨0, [], 1, lastSize⟩

/-- A call stays within its buffers for names, as far as it goes. -/
def NamesInBounds (q : NameQuery) : Prop :=
  ∀ fuel, ∀ a ∈ fs.nameAccesses disk fuel q, a.InBounds

/-- The components before a slash that are looked up have at most 11 characters. -/
def PathFits (junk : ℕ → Junk) (path : List Byte) (w : Walk) : Prop :=
  ∀ p q w', path = p ++ 0x2F :: q → fs.Leads disk junk p w (some w') → w'.component.length ≤ 11

/-- The loop of `list` comes to the cluster behind `n` others, from `cluster` on. -/
def ListsTo (cluster n : ℕ) : Prop := ∀ k ≤ n, (fs.readFAT disk)^[k] cluster < 0xFFF7

/-- The names that `list` finds from a cluster on fit in `fname`. -/
def ListFits (entries : Mem) (cluster : ℕ) : Prop :=
  ∀ n, fs.ListsTo disk cluster n →
    ∀ e ∈ fs.scanned disk entries ((fs.readFAT disk)^[n] cluster),
      (fatToFilename e.name).length < 12

/-- The components have at most 11 characters, and so have the names of the entries that are
    listed. -/
def NamesFit : NameQuery → Prop
  | .open junk lastSize path =>
    fs.PathFits disk junk (stripSlash path) ⟨0, [], 1, lastSize⟩ ∧
      ∀ w, fs.Leads disk junk (stripSlash path) ⟨0, [], 1, lastSize⟩ (some w) →
        w.component.length ≤ 11
  | .list junk entries lastSize path =>
    fs.PathFits disk junk (stripSlash path) ⟨0, [], 1, lastSize⟩ ∧
      ∀ w, fs.Leads disk junk (stripSlash path) ⟨0, [], 1, lastSize⟩ (some w) →
        fs.ListFits disk entries w.cluster

end FAT16

variable {fs : FAT16} {disk : Disk} {n i j k c size : ℕ} {name rest component path : List Byte}
  {es : List DirectoryEntry} {e : DirectoryEntry} {junk : ℕ → Junk} {w w' : Walk} {tail : Byte}
  {entries buffer : Mem} {files : List NamedFile}

/-! ## Conversions -/

theorem inBounds_singleton {buffer : NameBuffer} (h : i < size) :
    (⟨buffer, size, i, 1⟩ : NameAccess).InBounds := .inr h

theorem inBounds_baseAccesses (hn : n ≤ 8) (hj : j + name.length ≤ 12) (hsize : 11 ≤ size) :
    ∀ a ∈ baseAccesses size n j name, a.InBounds := by
  fun_induction baseAccesses size n j name with
  | case1 j name =>
    exact List.forall_mem_singleton.2 (inBounds_singleton (by omega))
  | case2 _ j =>
    exact List.forall_mem_singleton.2 (inBounds_singleton (by simp at hj; omega))
  | case3 n j c name ih ih' =>
    rw [List.length_cons] at hj
    refine List.forall_mem_cons.2 ⟨inBounds_singleton (by omega), ?_⟩
    split_ifs
    · exact List.forall_mem_cons.2 ⟨inBounds_singleton (by omega), ih (by omega) (by omega)⟩
    · exact ih' (by omega) (by rw [List.length_cons]; omega)

theorem inBounds_extensionAccesses (hj : j + name.length ≤ 12) (hsize : 11 ≤ size) :
    ∀ a ∈ extensionAccesses size i j name, a.InBounds := by
  fun_induction extensionAccesses size i j name with
  | case1 _ j => exact List.forall_mem_singleton.2 (inBounds_singleton (by simp at hj; omega))
  | case2 i j c name ih =>
    rw [List.length_cons] at hj
    refine List.forall_mem_cons.2 ⟨inBounds_singleton (by omega), ?_⟩
    split_ifs
    · exact List.forall_mem_cons.2 ⟨inBounds_singleton (by omega), ih (by omega)⟩
    · exact fun a ha => absurd ha List.not_mem_nil

theorem length_baseToFAT_fst {fatname : List Byte} :
    (baseToFAT n name fatname).1.length ≤ name.length := by
  fun_induction baseToFAT n name fatname with
  | case1 => exact le_rfl
  | case2 => exact le_rfl
  | case3 _ _ _ _ _ ih => exact ih.trans (Nat.le_succ _)
  | case4 _ _ _ _ _ ih => exact ih

/-- A name of up to 12 characters is converted in bounds. -/
theorem inBounds_filenameToFAT (hname : name.length ≤ 12) (hsize : 11 ≤ size) :
    ∀ a ∈ filenameToFATAccesses size name, a.InBounds := by
  have hrest := @length_baseToFAT_fst 8 name (List.replicate 11 0x20)
  rw [filenameToFATAccesses]
  refine List.forall_mem_append.2 ⟨List.forall_mem_cons.2 ⟨.inr hsize,
    inBounds_baseAccesses le_rfl (by omega) hsize⟩, ?_⟩
  split
  · exact List.forall_mem_singleton.2 (inBounds_singleton (by omega))
  · next heq =>
    rw [heq, List.length_cons] at hrest
    exact List.forall_mem_cons.2 ⟨inBounds_singleton (by omega),
      inBounds_extensionAccesses (by omega) hsize⟩

theorem inBounds_copyAccesses {fatname : List Byte}
    (h : j + (fatname.filter (· ≠ 0x20)).length ≤ 12) :
    ∀ a ∈ copyAccesses j fatname, a.InBounds := by
  induction fatname generalizing j with
  | nil => exact fun a ha => absurd ha List.not_mem_nil
  | cons c fatname ih =>
    rw [copyAccesses]
    split_ifs with hc
    · rw [List.filter_cons_of_pos (by simpa using hc), List.length_cons] at h
      exact List.forall_mem_cons.2 ⟨inBounds_singleton (by omega), ih (by omega)⟩
    · rw [List.filter_cons_of_neg (by simpa using hc)] at h
      exact ih h

/-- The zero at the end of a name is the last access. -/
theorem inBounds_fatToFilename_iff {fatname : List Byte} :
    (∀ a ∈ fatToFilenameAccesses fatname, a.InBounds) ↔ (fatToFilename fatname).length < 12 := by
  rw [fatToFilenameAccesses]
  constructor
  · intro h
    have hlast := h _ (List.mem_append_right _ (List.mem_singleton_self _))
    exact hlast.resolve_left Nat.one_ne_zero
  · intro h
    refine List.forall_mem_append.2 ⟨?_, List.forall_mem_singleton.2 (inBounds_singleton h)⟩
    rw [fatToFilename] at h
    split_ifs at h ⊢
    · rw [List.append_nil]
      exact inBounds_copyAccesses (by omega)
    · rw [List.length_append, List.length_cons] at h
      exact List.forall_mem_append.2 ⟨inBounds_copyAccesses (by omega),
        List.forall_mem_cons.2 ⟨inBounds_singleton (by omega), inBounds_copyAccesses (by omega)⟩⟩

/-! ## Components and entries -/

theorem length_localName (h : localName tail component = some name) : name.length ≤ 12 := by
  rw [localName] at h
  split_ifs at h with hle heq
  · cases h
    omega
  · cases h
    have hle := (List.takeWhile_sublist (fun c : Byte => decide (c ≠ 0))
      (l := component ++ [tail])).length_le
    rw [List.length_append, List.length_singleton] at hle
    exact hle.trans (by omega)

/-- A component with 12 characters is copied, but filled up with almost `2 ^ 64` zeros. -/
theorem inBounds_component_iff (hsize : 11 ≤ size) :
    (∀ a ∈ componentAccesses size tail component, a.InBounds) ↔ component.length ≤ 11 := by
  rw [componentAccesses, List.forall_mem_cons, List.forall_mem_cons, List.forall_mem_cons]
  constructor
  · rintro ⟨-, hcopy, hfill, -⟩
    by_contra! hgt
    simp only [NameAccess.InBounds] at hcopy hfill
    rw [wrapSub_eq_mod] at hfill
    omega
  · intro hle
    refine ⟨inBounds_singleton (by decide), .inr (by dsimp only; omega), .inr ?_, ?_⟩
    · rw [wrapSub_of_le (by omega) (by decide)]
      dsimp only
      omega
    · split
      · exact fun a ha => absurd ha List.not_mem_nil
      · next name hname => exact inBounds_filenameToFAT (length_localName hname) hsize

theorem inBounds_newPath {fname : List Byte} (h : fname.length < 12) :
    ∀ a ∈ newPathAccesses path fname, a.InBounds := by
  simp only [newPathAccesses, List.forall_mem_cons, List.not_mem_nil, false_imp_iff, implies_true,
    and_true, NameAccess.InBounds]
  omega

theorem length_cString (s : List Byte) : (cString s).length ≤ s.length :=
  (List.takeWhile_sublist _).length_le

/-- The entries before an end marker have names that fit. -/
theorem inBounds_entries_iff : (∀ a ∈ entriesAccesses path es, a.InBounds) ↔
    ∀ e ∈ FAT16.beforeEnd es, (fatToFilename e.name).length < 12 := by
  induction es with
  | nil => simp [entriesAccesses, FAT16.beforeEnd]
  | cons e es ih =>
    rw [entriesAccesses, beforeEnd_cons, if_neg (toInt_ne e.mark)]
    by_cases hmark : e.mark = 0
    · simp [hmark]
    · rw [if_neg hmark, if_neg hmark, List.forall_mem_append, List.forall_mem_cons,
        inBounds_fatToFilename_iff]
      refine and_congr_right fun hfits => ?_
      rw [if_pos hfits, List.forall_mem_append, ih]
      exact and_iff_right (inBounds_newPath ((length_cString _).trans_lt hfits))

/-! ## Paths -/

theorem pathFits_char {b : Byte} (hb : b ≠ 0x2F) : fs.PathFits disk junk (b :: path) w ↔
    fs.PathFits disk junk path { w with component := w.component ++ [b] } :=
  @forall_slash_char _ _ _ _ _ (fun w => w.component.length ≤ 11) _ hb

theorem pathFits_slash : fs.PathFits disk junk (0x2F :: path) w ↔
    w.component.length ≤ 11 ∧
      ∀ w', fs.LooksUp disk junk w (some w') → fs.PathFits disk junk path w' :=
  @forall_slash_slash _ _ _ _ _ fun w => w.component.length ≤ 11

section

variable {after : Walk → List NameAccess}

/-- A path whose components fit is looked up in bounds. -/
theorem inBounds_walkNames (hfits : fs.PathFits disk junk path w)
    (hafter : ∀ w', fs.Leads disk junk path w (some w') → ∀ a ∈ after w', a.InBounds) :
    ∀ a ∈ fs.walkNames disk junk n after path w, a.InBounds := by
  induction path generalizing w with
  | nil => exact hafter w .done
  | cons b path ih =>
    rw [FAT16.walkNames]
    split_ifs with hb
    · subst hb
      obtain ⟨hle, hrest⟩ := pathFits_slash.1 hfits
      refine List.forall_mem_append.2 ⟨(inBounds_component_iff le_rfl).2 hle, ?_⟩
      split
      · next w' hlook =>
        have hlook := returns_lookUp_iff.1 (steady_lookUp.returns hlook)
        exact ih (hrest w' hlook) fun w'' hleads => hafter w'' (.slash hlook hleads)
      · exact fun a ha => absurd ha List.not_mem_nil
    · exact ih ((pathFits_char hb).1 hfits) fun w' hleads => hafter w' (.char hb hleads)

end

/-- Conversely, with enough rounds for all searches. -/
theorem pathFits_of_inBounds {after : ℕ → Walk → List NameAccess}
    (h : ∃ N, ∀ n ≥ N, ∀ a ∈ fs.walkNames disk junk n (after n) path w, a.InBounds) :
    fs.PathFits disk junk path w ∧ ∀ w', fs.Leads disk junk path w (some w') →
      ∃ N, ∀ n ≥ N, ∀ a ∈ after n w', a.InBounds := by
  induction path generalizing w with
  | nil =>
    refine ⟨fun p q w' hpath _ => absurd hpath.symm
      (List.append_ne_nil_of_right_ne_nil p (List.cons_ne_nil _ q)), fun w' hleads => ?_⟩
    cases hleads with
    | done => exact h
  | cons b path ih =>
    obtain ⟨N, hN⟩ := h
    simp only [FAT16.walkNames] at hN
    by_cases hb : b = 0x2F
    · subst hb
      simp only [if_true, List.forall_mem_append] at hN
      have hrest (w' : Walk) (hlook : fs.LooksUp disk junk w (some w')) := @ih w' <| by
        obtain ⟨N', hN'⟩ := returns_lookUp_iff.2 hlook
        refine ⟨max N N', fun n hn => ?_⟩
        have hrest := (hN n (le_of_max_le_left hn)).2
        have hlook' : fs.lookUp disk junk w n = some (some w') := hN' n (le_of_max_le_right hn)
        rwa [hlook'] at hrest
      refine ⟨pathFits_slash.2 ⟨(inBounds_component_iff le_rfl).1 (hN N le_rfl).1,
        fun w' hlook => (hrest w' hlook).1⟩, fun w' hleads => ?_⟩
      cases hleads with
      | char hb _ => exact absurd rfl hb
      | slash hlook hleads => exact (hrest _ hlook).2 w' hleads
    · simp only [if_neg hb] at hN
      obtain ⟨hfits, hafter⟩ := ih ⟨N, hN⟩
      refine ⟨(pathFits_char hb).2 hfits, fun w' hleads => ?_⟩
      cases hleads with
      | char _ hleads => exact hafter w' hleads
      | slash _ _ => exact absurd rfl hb

/-! ## Listing -/

/-- A round of `list` stays in bounds if the names that are scanned fit. -/
theorem inBounds_listNames_iff (hbuffer : fs.restEntries buffer = fs.restEntries entries) :
    (∀ a ∈ fs.listNames disk path (c, buffer, files), a.InBounds) ↔
      (c < 0xFFF7 → ∀ e ∈ fs.scanned disk entries c, (fatToFilename e.name).length < 12) := by
  rw [FAT16.listNames]
  split_ifs with hlt
  · rw [inBounds_entries_iff, directoryEntries_readCluster, hbuffer, FAT16.scanned]
    exact ⟨fun h _ => h, fun h => h hlt⟩
  · exact iff_of_true (fun a ha => absurd ha List.not_mem_nil) fun h => absurd h hlt

theorem listsTo_succ : fs.ListsTo disk c (n + 1) ↔
    c < 0xFFF7 ∧ fs.ListsTo disk (fs.readFAT disk c) n := by
  constructor
  · exact fun h => ⟨h 0 (Nat.zero_le _), fun k hk => h (k + 1) (Nat.succ_le_succ hk)⟩
  · rintro ⟨hlt, h⟩ k hk
    cases k with
    | zero => exact hlt
    | succ k => exact h k (Nat.le_of_succ_le_succ hk)

theorem listFits_iff : fs.ListFits disk entries c ↔ (c < 0xFFF7 →
    (∀ e ∈ fs.scanned disk entries c, (fatToFilename e.name).length < 12) ∧
      fs.ListFits disk entries (fs.readFAT disk c)) := by
  constructor
  · refine fun h hlt => ⟨h 0 fun k hk => ?_, fun n hn => h (n + 1) (listsTo_succ.2 ⟨hlt, hn⟩)⟩
    rwa [Nat.le_zero.1 hk]
  · intro h n hn
    have hlt : c < 0xFFF7 := hn 0 (Nat.zero_le n)
    cases n with
    | zero => exact (h hlt).1
    | succ n => exact (h hlt).2 n (listsTo_succ.1 hn).2

section

variable (hbuffer : fs.restEntries buffer = fs.restEntries entries)
include hbuffer

theorem inBounds_listLoop (hfits : fs.ListFits disk entries c) :
    ∀ a ∈ loopLog (fs.listBody disk path) (fs.listNames disk path) (fun _ => []) n
      (c, buffer, files), a.InBounds := by
  induction n generalizing c buffer files with
  | zero => exact fun a ha => absurd ha List.not_mem_nil
  | succ n ih =>
    rw [loopLog]
    refine List.forall_mem_append.2 ⟨(inBounds_listNames_iff hbuffer).2 fun hlt =>
      (listFits_iff.1 hfits hlt).1, ?_⟩
    by_cases hlt : c < 0xFFF7
    · obtain ⟨hscanned, hrest⟩ := listFits_iff.1 hfits hlt
      rw [listBody_eq hlt, if_pos (by rwa [scanned_congr hbuffer])]
      exact ih (restEntries_readCluster.trans hbuffer) hrest
    · rw [FAT16.listBody, if_neg hlt]
      exact fun a ha => absurd ha List.not_mem_nil

theorem listFits_of_inBounds (h : ∃ N, ∀ n ≥ N,
    ∀ a ∈ loopLog (fs.listBody disk path) (fs.listNames disk path) (fun _ => []) n
      (c, buffer, files), a.InBounds) : fs.ListFits disk entries c := by
  intro n hn
  induction n generalizing c buffer files with
  | zero =>
    obtain ⟨N, hN⟩ := h
    have hscanned := (inBounds_listNames_iff hbuffer).1
      fun a ha => hN (N + 1) (Nat.le_succ N) a (mem_loopLog_first ha)
    exact hscanned (hn 0 le_rfl)
  | succ n ih =>
    obtain ⟨N, hN⟩ := h
    obtain ⟨hlt, hn⟩ := listsTo_succ.1 hn
    -- The first round stays in bounds, so there is a next one.
    have hscanned := (inBounds_listNames_iff hbuffer).1
      (fun a ha => hN (N + 1) (Nat.le_succ N) a (mem_loopLog_first ha)) hlt
    have hbody := @listBody_eq fs disk c buffer path files hlt
    rw [if_pos (by rwa [scanned_congr hbuffer])] at hbody
    have hnext (m : ℕ) (hm : m ≥ N) := fun a ha =>
      hN (m + 1) (hm.trans (Nat.le_succ m)) a (mem_loopLog_next hbody ha)
    exact ih (restEntries_readCluster.trans hbuffer) ⟨N, hnext⟩ hn

end

/-! ## Calls -/

/-- The calls that stay within their buffers for names. -/
theorem namesInBounds_iff (fs : FAT16) (disk : Disk) (q : NameQuery) :
    fs.NamesInBounds disk q ↔ fs.NamesFit disk q := by
  cases q with
  | «open» junk lastSize path =>
    have hlast (w : Walk) : (∀ a ∈ (⟨.fatFilename, 12, 11, 1⟩ : NameAccess) ::
        componentAccesses 12 (junk w.searches).tail w.component, a.InBounds) ↔
          w.component.length ≤ 11 := by
      rw [List.forall_mem_cons, inBounds_component_iff (by decide)]
      exact and_iff_right (inBounds_singleton (by decide))
    constructor
    · intro h
      obtain ⟨hfits, hafter⟩ := pathFits_of_inBounds ⟨0, fun n _ => h n⟩
      refine ⟨hfits, fun w hleads => ?_⟩
      obtain ⟨N, hN⟩ := hafter w hleads
      exact (hlast w).1 (hN N le_rfl)
    · rintro ⟨hfits, hafter⟩ n
      exact inBounds_walkNames hfits fun w hleads => (hlast w).2 (hafter w hleads)
  | list junk entries lastSize path =>
    constructor
    · intro h
      obtain ⟨hfits, hafter⟩ := pathFits_of_inBounds ⟨0, fun n _ => h n⟩
      exact ⟨hfits, fun w hleads => listFits_of_inBounds rfl (hafter w hleads)⟩
    · rintro ⟨hfits, hafter⟩ n
      exact inBounds_walkNames hfits fun w hleads => inBounds_listLoop rfl (hafter w hleads)

/-- `ABCDEFGH.TXT` has 12 characters. -/
theorem not_namesInBounds : ¬∀ (fs : FAT16) (disk : Disk) (q : NameQuery),
    fs.NamesInBounds disk q := by
  intro hall
  have hlog := hall (FAT16.new (bootSector 1) 0) (bootSector 1) (.open (fun _ => ⟨0, fun _ => 0⟩) 0
    [0x41, 0x42, 0x43, 0x44, 0x45, 0x46, 0x47, 0x48, 0x2E, 0x54, 0x58, 0x54]) 0
  have hcomponent := (List.forall_mem_cons.1 hlog).2
  exact absurd ((inBounds_component_iff (by decide)).1 hcomponent) (by decide)

end SmartOS
