import Mathlib.Data.List.TakeWhile
import SmartOS.FAT16.Files
import SmartOS.FAT16.Names

/-!
# Directories

The functions of `FAT16.cpp` on directories. A directory is a chain of clusters,
full of entries of 32 bytes. `searchDirectory` and `list` go through 32 entries
for each sector of a cluster, but a sector has 16: behind the entries of a
cluster come those that the new buffer happens to hold, which are part of the
input here (`Junk`), as is the last byte of a local variable for a name. Every `new`
gives a fresh buffer of the size asked for.

A path that is looked up goes through `walk`, a component at a time. A component
that does not fit in its local variable is no result (`none`).

* `directoryEntries_readCluster`: the entries that are looked at;
* `returns_searchDirectory_iff`: how a search ends (`FAT16.Search`);
* `returns_walk_iff`: where a path leads (`FAT16.Leads`).
-/

namespace SmartOS

open Prog

/-! ## Entries -/

/-- The fields of `DirectoryEntry` that are used. -/
structure DirectoryEntry where
  name : List Byte
  clusterLow : ℕ
  size : ℕ
  deriving Repr, DecidableEq

/-- They lie packed in 32 bytes each. -/
def DirectoryEntry.read (entries : Mem) (i : ℕ) : DirectoryEntry where
  name := (List.range 11).map fun k => entries (32 * i + k)
  clusterLow := entries.get16 (32 * i + 26)
  size := entries.get32 (32 * i + 28)

/-- `name[0]`, which is 0 after the last entry, and 0xE5 when the entry is deleted. -/
def DirectoryEntry.mark (e : DirectoryEntry) : Byte := e.name.headD 0

/-- A file, and its path. -/
structure NamedFile extends File where
  path : List Byte
  deriving Repr, DecidableEq

/-- What local variables and new buffers hold before anything is written to them: the byte at the
    end of `filename`, and the buffer `entries`. -/
structure Junk where
  tail : Byte
  entries : Mem

/-- Where a path has led: the cluster and the size found last, how many components were looked up,
    and what has been read of the next one. -/
structure Walk where
  searches : ℕ
  component : List Byte
  cluster : ℕ
  lastSize : ℕ
  deriving Repr, DecidableEq

/-- After a component is looked up: `lastSize` is only written when it is found. -/
def Walk.next (w : Walk) : Option DirectoryEntry → Walk
  | some e => ⟨w.searches + 1, [], e.clusterLow, e.size⟩
  | none => ⟨w.searches + 1, [], 0xFFF8, w.lastSize⟩

/-- The contents of `filename` with a component in it. The 13 bytes are filled up to the eleventh,
    and the last one is zero; a longer component overflows. -/
def localName (tail : Byte) (component : List Byte) : Option (List Byte) :=
  if component.length ≤ 10 then some component
  else if component.length = 11 then some (cString (component ++ [tail]))
  else none

/-- `if (path[0] == '/') path++;` -/
def stripSlash : List Byte → List Byte
  | [] => []
  | c :: path => if c = 0x2F then path else c :: path

namespace FAT16

variable (fs : FAT16) (disk : Disk)

/-! ## Searching -/

/-- The entries that the loops on a cluster go through. -/
def directoryEntries (entries : Mem) : List DirectoryEntry :=
  (List.range (32 * fs.sectorsPerCluster)).map (DirectoryEntry.read entries)

/-- The loop of `searchDirectory` on a cluster: the entry found, or `none` inside for the end of the
    directory. The comparison with 0xE5 is one of a signed character. -/
def searchEntries (fatname : List Byte) : List DirectoryEntry → Option (Option DirectoryEntry)
  | [] => none
  | e :: es =>
    if e.mark = 0 then some none
    else if e.mark.toInt = 0xE5 then searchEntries fatname es
    else if e.name = fatname then some (some e)
    else searchEntries fatname es

/-- The body of the loop of `searchDirectory`. -/
def searchBody (fatname : List Byte) : ℕ × Mem → (ℕ × Mem) ⊕ Option DirectoryEntry
  | (cluster, entries) =>
    if cluster < 0xFFF7 then
      let entries := fs.readCluster disk cluster entries
      match searchEntries fatname (fs.directoryEntries entries) with
      | some r => .inr r
      | none => .inl (fs.readFAT disk cluster, entries)
    else .inr none

/-- `searchDirectory(cluster, fatname, size)`: the entry found, or `none` when it returns 0xFFF8. -/
def searchDirectory (cluster : ℕ) (fatname : List Byte) (entries : Mem) (fuel : ℕ) :
    Option (Option DirectoryEntry) :=
  loop (fs.searchBody disk fatname) fuel (cluster % 2 ^ 16, entries)

/-- `cluster = searchDirectory(cluster, fatFilename, &lastSize);` for the next component. -/
def lookUp (junk : ℕ → Junk) (w : Walk) (fuel : ℕ) : Option (Option Walk) :=
  match localName (junk w.searches).tail w.component with
  | none => some none
  | some name =>
    (fs.searchDirectory disk w.cluster (filenameToFAT name) (junk w.searches).entries fuel).bind
      fun r => some (some (w.next r))

/-- The loop of `open` and `list` on their path: the component before every slash is looked up. -/
def walk (junk : ℕ → Junk) (fuel : ℕ) : List Byte → Walk → Option (Option Walk)
  | [], w => some (some w)
  | c :: path, w =>
    if c = 0x2F then andThen (fs.lookUp disk junk w fuel) (walk junk fuel path)
    else walk junk fuel path { w with component := w.component ++ [c] }

/-- `open(path)` -/
def «open» (junk : ℕ → Junk) (lastSize : ℕ) (path : List Byte) (fuel : ℕ) :
    Option (Option NamedFile) :=
  let path := stripSlash path
  andThen (fs.walk disk junk fuel path ⟨0, [], 1, lastSize⟩) fun w =>
    andThen (fs.lookUp disk junk w fuel) fun w =>
      some (some ⟨⟨0, w.lastSize, w.cluster⟩, path⟩)

/-! ## Listing -/

/-- The file for an entry. The slash behind the path is overwritten by the name. -/
def newFile (path : List Byte) (cluster : ℕ) (e : DirectoryEntry) : NamedFile :=
  ⟨⟨0, e.size, cluster⟩, path ++ cString (fatToFilename e.name)⟩

/-- The loop of `list` on a cluster: the files of its entries, or `none` when a name does not fit in
    `fname`. -/
def listEntries (path : List Byte) (cluster : ℕ) : List DirectoryEntry → Option (List NamedFile)
  | [] => some []
  | e :: es =>
    if e.mark = 0 then some []
    else if e.mark.toInt = 0xE5 then listEntries path cluster es
    else if (fatToFilename e.name).length < 12 then
      (listEntries path cluster es).map (newFile path cluster e :: ·)
    else none

/-- The body of the loop of `list`. -/
def listBody (path : List Byte) :
    ℕ × Mem × List NamedFile → (ℕ × Mem × List NamedFile) ⊕ Option (List NamedFile)
  | (cluster, entries, files) =>
    if cluster < 0xFFF7 then
      let entries := fs.readCluster disk cluster entries
      match listEntries path cluster (fs.directoryEntries entries) with
      | some new => .inl (fs.readFAT disk cluster, entries, files ++ new)
      | none => .inr none
    else .inr (some files)

/-- `list(path)`, with `entries` that its own buffer held. -/
def list (junk : ℕ → Junk) (entries : Mem) (lastSize : ℕ) (path : List Byte) (fuel : ℕ) :
    Option (Option (List NamedFile)) :=
  let path := stripSlash path
  andThen (fs.walk disk junk fuel path ⟨0, [], 1, lastSize⟩) fun w =>
    loop (fs.listBody disk path) fuel (w.cluster, entries, [])

/-! ## What is on the disk -/

/-- The entries in a cluster. -/
def clusterEntries (cluster : ℕ) : List DirectoryEntry :=
  (List.range (16 * fs.sectorsPerCluster)).map
    (DirectoryEntry.read (fs.readCluster disk cluster fun _ => 0))

/-- The entries that follow them in a buffer. -/
def restEntries (entries : Mem) : List DirectoryEntry :=
  (List.range' (16 * fs.sectorsPerCluster) (16 * fs.sectorsPerCluster)).map
    (DirectoryEntry.read entries)

/-- The entries before the first that marks the end. -/
def beforeEnd (es : List DirectoryEntry) : List DirectoryEntry := es.takeWhile (·.mark ≠ 0)

/-- There is an entry that marks the end. -/
def HasEnd (es : List DirectoryEntry) : Prop := ∃ e ∈ es, e.mark = 0

instance (es : List DirectoryEntry) : Decidable (HasEnd es) := List.decidableBEx _ es

/-- The entries that the loops find in their buffer with a cluster in it, up to an end. -/
def scanned (entries : Mem) (cluster : ℕ) : List DirectoryEntry :=
  beforeEnd (fs.clusterEntries disk cluster ++ fs.restEntries entries)

/-- The search for a name in a buffer with this cluster finds nothing, nor an end. -/
def Passes (fatname : List Byte) (entries : Mem) (cluster : ℕ) : Prop :=
  cluster < 0xFFF7 ∧ ¬HasEnd (fs.clusterEntries disk cluster ++ fs.restEntries entries) ∧
    (fs.scanned disk entries cluster).find? (·.name = fatname) = none

/-- What the search finds in a cluster that it does not pass. -/
def foundIn (fatname : List Byte) (entries : Mem) (cluster : ℕ) : Option DirectoryEntry :=
  if cluster < 0xFFF7 then (fs.scanned disk entries cluster).find? (·.name = fatname) else none

/-- The search for a name in the directory at a cluster ends, with this entry. -/
inductive Search (fatname : List Byte) (entries : Mem) : ℕ → Option DirectoryEntry → Prop
  | ends {cluster : ℕ} : ¬fs.Passes disk fatname entries cluster →
      Search fatname entries cluster (fs.foundIn disk fatname entries cluster)
  | next {cluster : ℕ} {r : Option DirectoryEntry} : fs.Passes disk fatname entries cluster →
      Search fatname entries (fs.readFAT disk cluster) r → Search fatname entries cluster r

/-- The first entry with the name, if it is in the first cluster of the directory. -/
def firstMatch (cluster : ℕ) (fatname : List Byte) : Option DirectoryEntry :=
  if cluster < 0xFFF7 then
    (beforeEnd (fs.clusterEntries disk cluster)).find? (·.name = fatname)
  else none

/-- What comes of the next component: no result when it does not fit in `filename`. -/
inductive LooksUp (junk : ℕ → Junk) (w : Walk) : Option Walk → Prop
  | overflow : localName (junk w.searches).tail w.component = none → LooksUp junk w none
  | search {name : List Byte} {r : Option DirectoryEntry} :
      localName (junk w.searches).tail w.component = some name →
      fs.Search disk (filenameToFAT name) (junk w.searches).entries (w.cluster % 2 ^ 16) r →
      LooksUp junk w (some (w.next r))

/-- Where a path leads. -/
inductive Leads (junk : ℕ → Junk) : List Byte → Walk → Option Walk → Prop
  | done {w : Walk} : Leads junk [] w (some w)
  | char {b : Byte} {path : List Byte} {w : Walk} {r : Option Walk} : b ≠ 0x2F →
      Leads junk path { w with component := w.component ++ [b] } r → Leads junk (b :: path) w r
  | overflow {path : List Byte} {w : Walk} : fs.LooksUp disk junk w none →
      Leads junk (0x2F :: path) w none
  | slash {path : List Byte} {w w' : Walk} {r : Option Walk} : fs.LooksUp disk junk w (some w') →
      Leads junk path w' r → Leads junk (0x2F :: path) w r

end FAT16

variable {fs : FAT16} {disk : Disk} {c cluster i : ℕ} {fatname : List Byte}
  {buffer buffer' m m' : Mem} {es rest : List DirectoryEntry}

/-! ## The entries that are looked at -/

theorem read_congr (h : ∀ k < 32, m (32 * i + k) = m' (32 * i + k)) :
    DirectoryEntry.read m i = DirectoryEntry.read m' i := by
  have hname : (List.range 11).map (fun k => m (32 * i + k)) =
      (List.range 11).map fun k => m' (32 * i + k) :=
    List.map_congr_left fun k hk => h k (by have := List.mem_range.1 hk; omega)
  simp only [DirectoryEntry.read, hname, Mem.get16, Mem.get32, Nat.add_assoc]
  simp only [h 26 (by decide), h 27 (by decide), h 28 (by decide), h 29 (by decide),
    h 30 (by decide), h 31 (by decide), Nat.reduceAdd]

/-- When a cluster is read, the rest of the buffer stays. -/
theorem restEntries_readCluster :
    fs.restEntries (fs.readCluster disk cluster buffer) = fs.restEntries buffer := by
  refine List.map_congr_left fun i hi => read_congr fun k _ => ?_
  have hle := (List.mem_range'_1.1 hi).1
  rw [FAT16.readCluster, Disk.readSectors, Mem.copy_of_not_mem (by omega)]

/-- Then its entries come first in the buffer. -/
theorem directoryEntries_readCluster :
    fs.directoryEntries (fs.readCluster disk cluster buffer) =
      fs.clusterEntries disk cluster ++ fs.restEntries buffer := by
  have hsplit : 32 * fs.sectorsPerCluster =
      16 * fs.sectorsPerCluster + 16 * fs.sectorsPerCluster := by
    omega
  have hentries : fs.directoryEntries (fs.readCluster disk cluster buffer) =
      (List.range (16 * fs.sectorsPerCluster)).map
        (DirectoryEntry.read (fs.readCluster disk cluster buffer)) ++
      fs.restEntries (fs.readCluster disk cluster buffer) := by
    rw [FAT16.directoryEntries, hsplit, List.range_add, List.map_append, FAT16.restEntries,
      List.range'_eq_map_range]
  rw [hentries, restEntries_readCluster, FAT16.clusterEntries]
  congr 1
  refine List.map_congr_left fun i hi => read_congr fun k hk => ?_
  have hlt : 32 * i + k < fs.clusterSize := by
    rw [FAT16.clusterSize]
    have := List.mem_range.1 hi
    omega
  rw [readCluster_eq hlt, readCluster_eq hlt]

/-! ## Going through them -/

/-- A signed character is never 0xE5, so deleted entries are not passed over. -/
theorem toInt_ne (c : Byte) : c.toInt ≠ 0xE5 := by
  have h : ∀ c : Byte, c.toInt < 128 := by decide
  have := h c
  omega

theorem beforeEnd_cons (e : DirectoryEntry) : FAT16.beforeEnd (e :: es) =
    if e.mark = 0 then [] else e :: FAT16.beforeEnd es := by
  rw [FAT16.beforeEnd, List.takeWhile_cons]
  split_ifs with h <;> simp_all [FAT16.beforeEnd]

theorem beforeEnd_of_not_hasEnd (h : ¬FAT16.HasEnd es) : FAT16.beforeEnd es = es := by
  rw [FAT16.beforeEnd, List.takeWhile_eq_self_iff]
  exact fun e he => decide_eq_true fun hmark => h ⟨e, he, hmark⟩

theorem beforeEnd_append : FAT16.HasEnd es → FAT16.beforeEnd (es ++ rest) = FAT16.beforeEnd es := by
  rintro ⟨e, he, hmark⟩
  induction es with
  | nil => exact absurd he List.not_mem_nil
  | cons e' es ih =>
    rw [List.cons_append, beforeEnd_cons, beforeEnd_cons]
    split_ifs with h
    · rfl
    · rcases List.mem_cons.1 he with rfl | he
      · exact absurd hmark h
      · rw [ih he]

theorem beforeEnd_append_of_not (h : ¬FAT16.HasEnd es) :
    FAT16.beforeEnd (es ++ rest) = es ++ FAT16.beforeEnd rest := by
  rw [FAT16.beforeEnd, List.takeWhile_append_of_pos]
  · rfl
  · exact fun e he => decide_eq_true fun hmark => h ⟨e, he, hmark⟩

theorem hasEnd_cons {e : DirectoryEntry} :
    FAT16.HasEnd (e :: es) ↔ e.mark = 0 ∨ FAT16.HasEnd es := List.exists_mem_cons_iff _ _ _

/-- A search finds the first entry with the name before the end, or else the end. -/
theorem searchEntries_eq : FAT16.searchEntries fatname es =
    match (FAT16.beforeEnd es).find? (·.name = fatname) with
    | some e => some (some e)
    | none => if FAT16.HasEnd es then some none else none := by
  induction es with
  | nil => rfl
  | cons e es ih =>
    rw [FAT16.searchEntries, beforeEnd_cons, if_neg (toInt_ne e.mark)]
    by_cases hmark : e.mark = 0
    · rw [if_pos hmark, if_pos hmark, List.find?_nil, if_pos (hasEnd_cons.2 (.inl hmark))]
    · rw [if_neg hmark, if_neg hmark]
      by_cases hname : e.name = fatname
      · simp only [hname, if_true, List.find?_cons, decide_true]
      · simp only [hname, if_false, List.find?_cons, decide_false, ih, hasEnd_cons, hmark, false_or]

/-! ## Searching -/

theorem scanned_readCluster : fs.scanned disk (fs.readCluster disk c buffer) cluster =
    fs.scanned disk buffer cluster := by
  rw [FAT16.scanned, restEntries_readCluster, FAT16.scanned]

theorem searchBody_of_passes (h : fs.Passes disk fatname buffer cluster) :
    fs.searchBody disk fatname (cluster, buffer) =
      .inl (fs.readFAT disk cluster, fs.readCluster disk cluster buffer) := by
  obtain ⟨hlt, hend, hfind⟩ := h
  rw [FAT16.scanned] at hfind
  rw [FAT16.searchBody, if_pos hlt]
  dsimp only
  rw [searchEntries_eq, directoryEntries_readCluster, hfind, if_neg hend]

theorem searchBody_of_not_passes (h : ¬fs.Passes disk fatname buffer cluster) :
    fs.searchBody disk fatname (cluster, buffer) =
      .inr (fs.foundIn disk fatname buffer cluster) := by
  rw [FAT16.searchBody, FAT16.foundIn]
  split_ifs with hlt
  · dsimp only
    rw [searchEntries_eq, directoryEntries_readCluster]
    cases hfind : (fs.scanned disk buffer cluster).find? (·.name = fatname) with
    | some e => rw [FAT16.scanned] at hfind; rw [hfind]
    | none =>
      have hend : FAT16.HasEnd (fs.clusterEntries disk cluster ++ fs.restEntries buffer) := by
        by_contra hend
        exact h ⟨hlt, hend, hfind⟩
      rw [FAT16.scanned] at hfind
      rw [hfind, if_pos hend]
  · rfl

section

variable (hrest : fs.restEntries buffer = fs.restEntries buffer')
include hrest

/-- What is gone through depends only on the rest of the buffer. -/
theorem scanned_congr (c : ℕ) : fs.scanned disk buffer c = fs.scanned disk buffer' c := by
  rw [FAT16.scanned, FAT16.scanned, hrest]

theorem passes_congr : fs.Passes disk fatname buffer c ↔ fs.Passes disk fatname buffer' c := by
  rw [FAT16.Passes, FAT16.Passes, scanned_congr hrest, hrest]

theorem foundIn_congr :
    fs.foundIn disk fatname buffer c = fs.foundIn disk fatname buffer' c := by
  rw [FAT16.foundIn, FAT16.foundIn, scanned_congr hrest]

theorem search_congr {r : Option DirectoryEntry} (h : fs.Search disk fatname buffer c r) :
    fs.Search disk fatname buffer' c r := by
  induction h with
  | ends h => exact foundIn_congr hrest ▸ .ends fun h' => h ((passes_congr hrest).2 h')
  | next h _ ih => exact .next ((passes_congr hrest).1 h) ih

theorem returns_search {r : Option DirectoryEntry} (h : fs.Search disk fatname buffer c r) :
    Returns (fun n => loop (fs.searchBody disk fatname) n (c, buffer')) r := by
  induction h generalizing buffer' with
  | ends h =>
    rw [foundIn_congr hrest]
    exact returns_loop_exit (searchBody_of_not_passes fun h' => h ((passes_congr hrest).2 h'))
  | next h _ ih =>
    refine (returns_loop_next (searchBody_of_passes ((passes_congr hrest).1 h))).2 (ih ?_)
    rw [hrest, restEntries_readCluster]

end

/-- The loop of `searchDirectory` ends as the search does. -/
theorem returns_searchDirectory_iff {r : Option DirectoryEntry} :
    Returns (fun n => fs.searchDirectory disk cluster fatname buffer n) r ↔
      fs.Search disk fatname buffer (cluster % 2 ^ 16) r := by
  simp only [FAT16.searchDirectory]
  generalize cluster % 2 ^ 16 = c
  constructor
  · intro h
    obtain ⟨n, hn⟩ := h.exists_fuel
    clear h
    induction n generalizing c buffer with
    | zero => cases hn
    | succ n ih =>
      by_cases hpasses : fs.Passes disk fatname buffer c
      · rw [loop_next (searchBody_of_passes hpasses)] at hn
        exact .next hpasses (search_congr restEntries_readCluster (ih _ hn))
      · rw [loop_exit (searchBody_of_not_passes hpasses)] at hn
        exact Option.some.inj hn ▸ .ends hpasses
  · exact returns_search rfl

/-- A search ends in one way. -/
theorem search_unique {r r' : Option DirectoryEntry} (h : fs.Search disk fatname buffer c r)
    (h' : fs.Search disk fatname buffer c r') : r = r' :=
  (returns_search rfl h).unique (returns_search rfl h')

/-- What is in the first cluster of a directory is found, whatever the buffer holds. -/
theorem search_of_firstMatch {e : DirectoryEntry} (h : fs.firstMatch disk c fatname = some e) :
    fs.Search disk fatname buffer c (some e) := by
  rw [FAT16.firstMatch] at h
  split_ifs at h with hlt
  have hfind : (fs.scanned disk buffer c).find? (·.name = fatname) = some e := by
    rw [FAT16.scanned]
    by_cases hend : FAT16.HasEnd (fs.clusterEntries disk c)
    · rw [beforeEnd_append hend, h]
    · rw [beforeEnd_of_not_hasEnd hend] at h
      rw [beforeEnd_append_of_not hend, List.find?_append, h]
      rfl
  have hfound : fs.foundIn disk fatname buffer c = some e := by
    rw [FAT16.foundIn, if_pos hlt, hfind]
  refine hfound ▸ .ends fun hpasses => ?_
  rw [hpasses.2.2] at hfind
  cases hfind

theorem mark_restEntries {b : Byte} {e : DirectoryEntry}
    (he : e ∈ fs.restEntries fun _ => b) : e.mark = b := by
  obtain ⟨i, -, rfl⟩ := List.mem_map.1 he
  rfl

theorem restEntries_ne_nil (hspc : 1 ≤ fs.sectorsPerCluster) : fs.restEntries buffer ≠ [] := by
  rw [FAT16.restEntries, ne_eq, List.map_eq_nil_iff, List.range'_eq_nil_iff]
  omega

/-- A buffer of zeros: the end of a cluster marks the end of the directory. -/
theorem beforeEnd_append_zero (hspc : 1 ≤ fs.sectorsPerCluster) :
    FAT16.beforeEnd (es ++ fs.restEntries fun _ => 0) = FAT16.beforeEnd es ∧
      FAT16.HasEnd (es ++ fs.restEntries fun _ => 0) := by
  obtain ⟨e, rest, hrest⟩ :=
    List.exists_cons_of_ne_nil (@restEntries_ne_nil fs (fun _ => 0) hspc)
  have hmark : e.mark = 0 := mark_restEntries (hrest ▸ List.mem_cons_self)
  rw [hrest]
  refine ⟨?_, e, List.mem_append_right _ List.mem_cons_self, hmark⟩
  by_cases hend : FAT16.HasEnd es
  · exact beforeEnd_append hend
  · rw [beforeEnd_append_of_not hend, beforeEnd_cons, if_pos hmark, List.append_nil,
      beforeEnd_of_not_hasEnd hend]

/-- A search with a buffer of zeros does not leave the first cluster. -/
theorem search_zero (hspc : 1 ≤ fs.sectorsPerCluster) :
    fs.Search disk fatname (fun _ => 0) c (fs.firstMatch disk c fatname) := by
  obtain ⟨hbefore, hend⟩ := @beforeEnd_append_zero fs (fs.clusterEntries disk c) hspc
  have hfound : fs.foundIn disk fatname (fun _ => 0) c = fs.firstMatch disk c fatname := by
    rw [FAT16.foundIn, FAT16.scanned, hbefore, FAT16.firstMatch]
  exact hfound ▸ .ends fun hpasses => hpasses.2.1 hend

/-! ## Paths -/

variable {junk : ℕ → Junk} {w : Walk} {path : List Byte} {r : Option Walk}

theorem steady_lookUp : Steady fun n => fs.lookUp disk junk w n := by
  simp only [FAT16.lookUp]
  split
  · exact steady_pure _
  · exact (steady_loop _ _).bind fun _ => steady_pure _

theorem steady_walk : Steady fun n => fs.walk disk junk n path w := by
  induction path generalizing w with
  | nil => exact steady_pure _
  | cons c path ih =>
    simp only [FAT16.walk]
    split_ifs
    · exact steady_lookUp.andThen fun _ => ih
    · exact ih

theorem returns_lookUp_iff : Returns (fun n => fs.lookUp disk junk w n) r ↔
    fs.LooksUp disk junk w r := by
  simp only [FAT16.lookUp]
  constructor
  · intro h
    split at h
    · next hname => exact (Returns.pure none).unique h ▸ .overflow hname
    · next name hname =>
      obtain ⟨e, he, hr⟩ := Steady.of_bind (steady_loop _ _) (fun _ => steady_pure _) h
      exact (Returns.pure _).unique hr ▸ .search hname (returns_searchDirectory_iff.1 he)
  · rintro (hname | ⟨hname, hsearch⟩)
    · simp only [hname]
      exact .pure none
    · simp only [hname]
      exact (returns_searchDirectory_iff.2 hsearch).bind (.pure _)

theorem looksUp_unique {r r' : Option Walk} (h : fs.LooksUp disk junk w r)
    (h' : fs.LooksUp disk junk w r') : r = r' :=
  (returns_lookUp_iff.2 h).unique (returns_lookUp_iff.2 h')

theorem returns_walk_iff : Returns (fun n => fs.walk disk junk n path w) r ↔
    fs.Leads disk junk path w r := by
  constructor
  · intro h
    induction path generalizing w with
    | nil => exact (Returns.pure (some w)).unique h ▸ .done
    | cons b path ih =>
      simp only [FAT16.walk] at h
      split_ifs at h with hslash
      · -- With more fuel, the rest of the walk returns the same.
        subst hslash
        have hsteady (o : Option Walk) :
            Steady fun n => o.elim (some none) (fs.walk disk junk n path) := by
          cases o with
          | none => exact steady_pure _
          | some w' => exact steady_walk
        obtain ⟨o, hlook, hrest⟩ := steady_lookUp.of_bind hsteady h
        have hlook := returns_lookUp_iff.1 hlook
        cases o with
        -- `filename` overflows, and the walk is not gone on with.
        | none => exact (Returns.pure none).unique hrest ▸ .overflow hlook
        | some w' => exact .slash hlook (ih hrest)
      · exact .char hslash (ih h)
  · intro h
    induction h with
    | done => exact .pure _
    | char hslash _ ih =>
      simp only [FAT16.walk, if_neg hslash]
      exact ih
    | overflow hlook =>
      simp only [FAT16.walk, if_true]
      exact (returns_lookUp_iff.2 hlook).andThen_none
    | slash hlook _ ih =>
      simp only [FAT16.walk, if_true]
      exact (returns_lookUp_iff.2 hlook).andThen ih

end SmartOS
