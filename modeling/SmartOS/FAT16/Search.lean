import SmartOS.FAT16.Directory
import SmartOS.FAT16.Layout

/-!
# Searching directories

What `searchDirectory` returns, whatever its new buffer holds. On disk, the root
directory has as many entries as the boot sector says, and any other one those of
the clusters of its chain (`DirectoryHas`). The search looks at the sectors that
`readCluster` takes for the first cluster, and unless it ends there, at what the
buffer holds behind them.

* `search_of_decides`: what the first cluster decides (`FAT16.Decides`);
* `search_decided_iff`: nothing else is decided, as behind the cluster there may be
  an entry with any name that can be searched for (`junkEntry`);
* `finds_iff`: when a search returns what is on disk (`FAT16.Finds`).
-/

namespace SmartOS

open Prog

/-! ## Specification -/

/-- The entries of the root directory. -/
def Disk.rootEntries (disk : Disk) (offset : ℕ) : List DirectoryEntry :=
  (List.range (disk.bpb offset).numberOfRootEntries).map
    (DirectoryEntry.read (disk.readSectors ((disk.bpb offset).rootStart offset) (fun _ => 0)
      (disk.bpb offset).rootSectors))

/-- The entries of a cluster. -/
def Disk.entriesAt (disk : Disk) (offset c : ℕ) : List DirectoryEntry :=
  (List.range (16 * (disk.bpb offset).sectorsPerCluster)).map
    (DirectoryEntry.read (disk.readSectors ((disk.bpb offset).clusterStart offset c) (fun _ => 0)
      (disk.bpb offset).sectorsPerCluster))

/-- The directory at cluster `c`, where 1 stands for the root directory, has the entries `es` before
    its end. -/
inductive DirectoryHas (disk : Disk) (offset : ℕ) : ℕ → List DirectoryEntry → Prop
  | root : DirectoryHas disk offset 1 (FAT16.beforeEnd (disk.rootEntries offset))
  | nil {c : ℕ} : 0xFFF7 ≤ c → DirectoryHas disk offset c []
  | last {c : ℕ} : 2 ≤ c → c < 0xFFF7 → FAT16.HasEnd (disk.entriesAt offset c) →
      DirectoryHas disk offset c (FAT16.beforeEnd (disk.entriesAt offset c))
  | next {c : ℕ} {es : List DirectoryEntry} : 2 ≤ c → c < 0xFFF7 →
      ¬FAT16.HasEnd (disk.entriesAt offset c) →
      DirectoryHas disk offset ((FAT16.new disk offset).readFAT disk c) es →
      DirectoryHas disk offset c (disk.entriesAt offset c ++ es)

/-- The entries that are not deleted. -/
def FAT16.live (es : List DirectoryEntry) : List DirectoryEntry := es.filter (·.mark ≠ 0xE5)

/-- The first entry with the name, of those that are not deleted. -/
def entryFor (fatname : List Byte) (es : List DirectoryEntry) : Option DirectoryEntry :=
  (FAT16.live es).find? (·.name = fatname)

/-- In the directory at cluster `c`, that is the entry with the name. -/
inductive HasEntry (disk : Disk) (offset : ℕ) (fatname : List Byte) : ℕ → DirectoryEntry → Prop
  | root {e : DirectoryEntry} :
      entryFor fatname (FAT16.beforeEnd (disk.rootEntries offset)) = some e →
      HasEntry disk offset fatname 1 e
  | here {c : ℕ} {e : DirectoryEntry} : 2 ≤ c → c < 0xFFF7 →
      entryFor fatname (FAT16.beforeEnd (disk.entriesAt offset c)) = some e →
      HasEntry disk offset fatname c e
  | next {c : ℕ} {e : DirectoryEntry} : 2 ≤ c → c < 0xFFF7 →
      ¬FAT16.HasEnd (disk.entriesAt offset c) →
      entryFor fatname (disk.entriesAt offset c) = none →
      HasEntry disk offset fatname ((FAT16.new disk offset).readFAT disk c) e →
      HasEntry disk offset fatname c e

/-- What is returned is right: the cluster and the size of the entry, or 0xFFF8 if there is none. -/
def Answers (r : Option DirectoryEntry) : Option DirectoryEntry → Prop
  | some e => r.map (fun e => (e.clusterLow, e.size)) = some (e.clusterLow, e.size)
  | none => r.elim 0xFFF8 (·.clusterLow) = 0xFFF8

namespace FAT16

variable (fs : FAT16) (disk : Disk)

/-- In the clusters that `readCluster` reads, the directory at `c` has the entries `es` before its
    end. -/
inductive EntriesOf : ℕ → List DirectoryEntry → Prop
  | nil {c : ℕ} : 0xFFF7 ≤ c → EntriesOf c []
  | last {c : ℕ} : c < 0xFFF7 → HasEnd (fs.clusterEntries disk c) →
      EntriesOf c (beforeEnd (fs.clusterEntries disk c))
  | next {c : ℕ} {es : List DirectoryEntry} : c < 0xFFF7 → ¬HasEnd (fs.clusterEntries disk c) →
      EntriesOf (fs.readFAT disk c) es → EntriesOf c (fs.clusterEntries disk c ++ es)

/-- In the directory at cluster `c`, with the entries `es` before its end, the search for the name
    returns what it has to, and the same whatever its new buffer holds. -/
def Finds (c : ℕ) (es : List DirectoryEntry) (fatname : List Byte) : Prop :=
  ∃ r, (∀ entries, Returns (fun n => fs.searchDirectory disk c fatname entries n) r) ∧
    Answers r (entryFor fatname es)

/-- The first cluster decides the search: there is an entry with the name in it before an end, or at
    least an end. -/
def Decides (c : ℕ) (fatname : List Byte) : Prop :=
  0xFFF7 ≤ c ∨ HasEnd (fs.clusterEntries disk c) ∨ ∃ e, fs.firstMatch disk c fatname = some e

end FAT16

variable {fs : FAT16} {disk : Disk} {c i offset : ℕ} {fatname : List Byte} {b : Byte} {buffer : Mem}
  {es : List DirectoryEntry} {e : DirectoryEntry} {r : Option DirectoryEntry}

/-! ## Entries on disk -/

theorem entryFor_append {es' : List DirectoryEntry} :
    entryFor fatname (es ++ es') = (entryFor fatname es).or (entryFor fatname es') := by
  rw [entryFor, FAT16.live, List.filter_append, List.find?_append]
  rfl

/-- The entry with a name is the first one in the directory. -/
theorem hasEntry_iff {disk : Disk} (h : DirectoryHas disk offset c es) :
    HasEntry disk offset fatname c e ↔ entryFor fatname es = some e := by
  constructor
  · -- Both follow the chain, and at each cluster only one case fits.
    intro he
    induction he generalizing es with
    | root he =>
      cases h with
      | root => exact he
      | nil hge => exact absurd hge (by decide)
      | last h2 _ _ => exact absurd h2 (by decide)
      | next h2 _ _ _ => exact absurd h2 (by decide)
    | here h2 hlt he =>
      cases h with
      | root => exact absurd h2 (by decide)
      | nil hge => exact absurd hlt (Nat.not_lt.2 hge)
      | last _ _ _ => exact he
      | next _ _ hend _ =>
        rw [beforeEnd_of_not_hasEnd hend] at he
        rw [entryFor_append, he, Option.some_or]
    | next h2 hlt hend hnone _ ih =>
      cases h with
      | root => exact absurd h2 (by decide)
      | nil hge => exact absurd hlt (Nat.not_lt.2 hge)
      | last _ _ hend' => exact absurd hend' hend
      | next _ _ _ hrest =>
        rw [entryFor_append, hnone, Option.none_or]
        exact ih hrest
  · intro he
    induction h with
    | root => exact .root he
    | nil _ => cases he
    | last h2 hlt _ => exact .here h2 hlt he
    | next h2 hlt hend _ ih =>
      rw [entryFor_append] at he
      cases hfirst : entryFor fatname (disk.entriesAt offset _) with
      | none =>
        rw [hfirst, Option.none_or] at he
        exact .next h2 hlt hend hfirst (ih he)
      | some e' =>
        rw [hfirst, Option.some_or] at he
        exact .here h2 hlt (by rw [beforeEnd_of_not_hasEnd hend, hfirst, he])

/-! ## What the first cluster decides -/

theorem scanned_of_hasEnd (h : FAT16.HasEnd (fs.clusterEntries disk c)) :
    fs.scanned disk buffer c = FAT16.beforeEnd (fs.clusterEntries disk c) := beforeEnd_append h

theorem search_of_decides (h : fs.Decides disk c fatname) :
    fs.Search disk fatname buffer c (fs.firstMatch disk c fatname) := by
  rcases h with hge | hend | ⟨e, hfirst⟩
  · have hnot : ¬c < 0xFFF7 := Nat.not_lt.2 hge
    have hfound : fs.foundIn disk fatname buffer c = fs.firstMatch disk c fatname := by
      rw [FAT16.foundIn, FAT16.firstMatch, if_neg hnot, if_neg hnot]
    exact hfound ▸ .ends fun hpasses => hnot hpasses.1
  · have hfound : fs.foundIn disk fatname buffer c = fs.firstMatch disk c fatname := by
      rw [FAT16.foundIn, FAT16.firstMatch, scanned_of_hasEnd hend]
    obtain ⟨e, he, hmark⟩ := hend
    exact hfound ▸ .ends fun hpasses => hpasses.2.1 ⟨e, List.mem_append_left _ he, hmark⟩
  · exact hfirst ▸ search_of_firstMatch hfirst

/-- An entry as it lies in 32 bytes. -/
def DirectoryEntry.byte (e : DirectoryEntry) (k : ℕ) : Byte :=
  if k < 11 then e.name.getD k 0
  else if k < 26 then 0
  else if k < 28 then BitVec.ofNat 8 (e.clusterLow / 2 ^ (8 * (k - 26)))
  else BitVec.ofNat 8 (e.size / 2 ^ (8 * (k - 28)))

theorem read_of_byte (hlen : e.name.length = 11) (hlow : e.clusterLow < 2 ^ 16)
    (hsize : e.size < 2 ^ 32) (h : ∀ k < 32, buffer (32 * i + k) = e.byte k) :
    DirectoryEntry.read buffer i = e := by
  have hname : (List.range 11).map (fun k => buffer (32 * i + k)) = e.name := by
    refine List.ext_getElem (by rw [List.length_map, List.length_range, hlen]) fun k hk hk' => ?_
    rw [List.getElem_map, List.getElem_range, h k (by omega), DirectoryEntry.byte,
      if_pos (hlen ▸ hk'), List.getD_eq_getElem?_getD, List.getElem?_eq_getElem hk',
      Option.getD_some]
  have hcluster : buffer.get16 (32 * i + 26) = e.clusterLow := by
    rw [Mem.get16, Nat.add_assoc, h 26 (by decide), h 27 (by decide)]
    simp only [DirectoryEntry.byte, Nat.reduceLT, if_false, if_true, Nat.reduceSub, Nat.reduceMul,
      BitVec.toNat_ofNat]
    omega
  have hbytes : buffer.get32 (32 * i + 28) = e.size := by
    rw [Mem.get32]
    simp only [Nat.add_assoc, Nat.reduceAdd]
    rw [h 28 (by decide), h 29 (by decide), h 30 (by decide), h 31 (by decide)]
    simp only [DirectoryEntry.byte, Nat.reduceLT, if_false, Nat.reduceSub, Nat.reduceMul,
      BitVec.toNat_ofNat]
    omega
  rw [DirectoryEntry.read, hname, hcluster, hbytes]

/-- A buffer full of this entry. -/
def junkEntry (e : DirectoryEntry) : Mem := fun x => e.byte (x % 32)

theorem read_junkEntry (hlen : e.name.length = 11) (hlow : e.clusterLow < 2 ^ 16)
    (hsize : e.size < 2 ^ 32) : DirectoryEntry.read (junkEntry e) i = e :=
  read_of_byte hlen hlow hsize fun k hk => by rw [junkEntry, Nat.mul_add_mod, Nat.mod_eq_of_lt hk]

/-- Where the first cluster decides nothing, anything may be found behind it. -/
theorem search_junkEntry (hspc : 1 ≤ fs.sectorsPerCluster) (hlen : e.name.length = 11)
    (hlow : e.clusterLow < 2 ^ 16) (hsize : e.size < 2 ^ 32) (hmark : e.mark ≠ 0)
    (h : ¬fs.Decides disk c e.name) : fs.Search disk e.name (junkEntry e) c (some e) := by
  simp only [FAT16.Decides, not_or, not_exists] at h
  obtain ⟨hlt, hend, hfirst⟩ := h
  have hlt : c < 0xFFF7 := Nat.not_le.1 hlt
  obtain ⟨e', rest, hrest⟩ :=
    List.exists_cons_of_ne_nil (@restEntries_ne_nil fs (junkEntry e) hspc)
  have he' : e' ∈ fs.restEntries (junkEntry e) := hrest ▸ List.mem_cons_self
  obtain ⟨i, -, rfl⟩ := List.mem_map.1 he'
  rw [read_junkEntry hlen hlow hsize] at hrest
  -- No entry of the cluster has the name, so the first one behind it is found.
  have hnone : (fs.clusterEntries disk c).find? (·.name = e.name) = none := by
    rw [FAT16.firstMatch, if_pos hlt, beforeEnd_of_not_hasEnd hend] at hfirst
    exact Option.eq_none_iff_forall_ne_some.2 hfirst
  have hfound : fs.foundIn disk e.name (junkEntry e) c = some e := by
    rw [FAT16.foundIn, if_pos hlt, FAT16.scanned, beforeEnd_append_of_not hend, List.find?_append,
      hnone, Option.none_or, hrest, beforeEnd_cons, if_neg hmark]
    simp
  refine hfound ▸ .ends fun hpasses => ?_
  have hscanned := hpasses.2.2
  rw [FAT16.foundIn, if_pos hlt, hscanned] at hfound
  cases hfound

/-- What is found whatever the buffer holds. -/
theorem search_decided_iff (hspc : 1 ≤ fs.sectorsPerCluster) (hlen : fatname.length = 11)
    (hmark : fatname.headD 0 ≠ 0) : (∀ buffer, fs.Search disk fatname buffer c r) ↔
      fs.Decides disk c fatname ∧ r = fs.firstMatch disk c fatname := by
  constructor
  · intro h
    by_contra hnot
    have hdecides : ¬fs.Decides disk c fatname := fun hdecides =>
      hnot ⟨hdecides, search_unique (h fun _ => 0) (search_of_decides hdecides)⟩
    have hjunk (size : ℕ) (hsize : size < 2 ^ 32) : r = some ⟨fatname, 0xFFF8, size⟩ :=
      search_unique (h _) (search_junkEntry (e := ⟨fatname, 0xFFF8, size⟩) hspc hlen
        (show 0xFFF8 < 2 ^ 16 by decide) hsize hmark hdecides)
    -- Two buffers have the entry with different sizes.
    have hsizes := (hjunk 0 (by decide)).symm.trans (hjunk 1 (by decide))
    simp at hsizes
  · rintro ⟨hdecides, rfl⟩
    exact fun _ => search_of_decides hdecides

/-! ## Names that cannot be found -/

theorem mark_ne_of_beforeEnd (he : e ∈ FAT16.beforeEnd es) : e.mark ≠ 0 := by
  have := List.mem_takeWhile_imp he
  exact of_decide_eq_true this

theorem mark_ne_of_directoryHas {disk : Disk} (h : DirectoryHas disk offset c es) (he : e ∈ es) :
    e.mark ≠ 0 := by
  induction h with
  | root => exact mark_ne_of_beforeEnd he
  | nil _ => exact absurd he List.not_mem_nil
  | last _ _ _ => exact mark_ne_of_beforeEnd he
  | next _ _ hend _ ih =>
    rcases List.mem_append.1 he with he | he
    · exact fun hmark => hend ⟨e, he, hmark⟩
    · exact ih he

theorem find?_of_mark (hes : ∀ e ∈ es, e.mark ≠ 0) (hmark : fatname.headD 0 = 0) :
    es.find? (·.name = fatname) = none := by
  refine List.find?_eq_none.2 fun e he hname => hes e he ?_
  rw [DirectoryEntry.mark, of_decide_eq_true hname]
  exact hmark

section

variable (hmark : fatname.headD 0 = 0)
include hmark

theorem firstMatch_of_mark : fs.firstMatch disk c fatname = none := by
  rw [FAT16.firstMatch]
  split_ifs
  · exact find?_of_mark (fun _ => mark_ne_of_beforeEnd) hmark
  · rfl

theorem entryFor_of_mark {disk : Disk} (h : DirectoryHas disk offset c es) :
    entryFor fatname es = none :=
  find?_of_mark (fun _ he => mark_ne_of_directoryHas h (List.mem_filter.1 he).1) hmark

theorem foundIn_of_mark : fs.foundIn disk fatname buffer c = none := by
  rw [FAT16.foundIn]
  split_ifs
  · exact find?_of_mark (fun _ => mark_ne_of_beforeEnd) hmark
  · rfl

/-- The search for such a name ends at the end of a directory. -/
theorem search_of_entriesOf (h : fs.EntriesOf disk c es) :
    fs.Search disk fatname buffer c none := by
  induction h with
  | nil hge => exact firstMatch_of_mark hmark ▸ search_of_decides (.inl hge)
  | last _ hend => exact firstMatch_of_mark hmark ▸ search_of_decides (.inr (.inl hend))
  | @next c _ _ _ _ ih =>
    by_cases hpasses : fs.Passes disk fatname buffer c
    · exact .next hpasses ih
    · exact foundIn_of_mark hmark ▸ .ends hpasses

/-- With a buffer of ones, it ends nowhere else. -/
theorem entriesOf_of_search (h : fs.Search disk fatname (fun _ => 1) c r) :
    ∃ es, fs.EntriesOf disk c es := by
  have hend (c : ℕ) : FAT16.HasEnd (fs.clusterEntries disk c ++ fs.restEntries fun _ => 1) →
      FAT16.HasEnd (fs.clusterEntries disk c) := by
    rintro ⟨e, he, hmark⟩
    refine ⟨e, (List.mem_append.1 he).resolve_right fun he => ?_, hmark⟩
    rw [mark_restEntries he] at hmark
    exact absurd hmark (by decide)
  induction h with
  | @ends c h =>
    by_cases hlt : c < 0xFFF7
    · refine ⟨_, .last hlt (hend c ?_)⟩
      by_contra hnot
      have hfound := @foundIn_of_mark fs disk c fatname (fun _ => 1) hmark
      rw [FAT16.foundIn, if_pos hlt] at hfound
      exact h ⟨hlt, hnot, hfound⟩
    · exact ⟨_, .nil (Nat.not_lt.1 hlt)⟩
  | @next c r hpasses _ ih =>
    obtain ⟨es, hes⟩ := ih
    refine ⟨_, .next hpasses.1 (fun h => hpasses.2.1 ?_) hes⟩
    obtain ⟨e, he, hmark⟩ := h
    exact ⟨e, List.mem_append_left _ he, hmark⟩

end

/-! ## When a search finds what it has to -/

theorem finds_iff_search (hc : c < 0xFFF7) : fs.Finds disk c es fatname ↔
    ∃ r, (∀ buffer, fs.Search disk fatname buffer c r) ∧ Answers r (entryFor fatname es) := by
  refine exists_congr fun r => and_congr_left' (forall_congr' fun buffer => ?_)
  rw [returns_searchDirectory_iff, Nat.mod_eq_of_lt (by omega)]

/-- A search finds what it has to exactly when its first cluster decides it, with the right entry;
    or when the name starts with a zero, so that it is found nowhere, and the search ends. -/
theorem finds_iff {disk : Disk} (hspc : 1 ≤ (FAT16.new disk offset).sectorsPerCluster)
    (hc : c < 0xFFF7) (hlen : fatname.length = 11) (h : DirectoryHas disk offset c es) :
    (FAT16.new disk offset).Finds disk c es fatname ↔
      (fatname.headD 0 = 0 ∧ ∃ es, (FAT16.new disk offset).EntriesOf disk c es) ∨
      (fatname.headD 0 ≠ 0 ∧ (FAT16.new disk offset).Decides disk c fatname ∧
        Answers ((FAT16.new disk offset).firstMatch disk c fatname) (entryFor fatname es)) := by
  rw [finds_iff_search hc]
  by_cases hmark : fatname.headD 0 = 0
  · simp only [hmark, true_and, ne_eq, not_true, false_and, or_false]
    constructor
    · rintro ⟨r, hsearch, -⟩
      exact entriesOf_of_search hmark (hsearch _)
    · rintro ⟨es', hes⟩
      refine ⟨none, fun _ => search_of_entriesOf hmark hes, ?_⟩
      rw [entryFor_of_mark hmark h]
      rfl
  · simp only [hmark, false_and, false_or, ne_eq, not_false_eq_true, true_and,
      search_decided_iff hspc hlen hmark]
    constructor
    · rintro ⟨r, ⟨hdecides, rfl⟩, hanswers⟩
      exact ⟨hdecides, hanswers⟩
    · rintro ⟨hdecides, hanswers⟩
      exact ⟨_, ⟨hdecides, rfl⟩, hanswers⟩

/-! ## A name that is not found -/

/-- A volume with these entries in its root directory, clusters of one sector and one reserved
    sector. -/
def rootDisk (es : List DirectoryEntry) : Disk := fun x =>
  if x = 514 ∨ x = 515 then 0xFF
  else if 66048 ≤ x ∧ x < 66048 + 32 * es.length then
    (es.getD ((x - 66048) / 32) ⟨[], 0, 0⟩).byte ((x - 66048) % 32)
  else bootSector 1 x

/-- A file that starts in cluster 2. -/
def fileOf (name : Byte) : DirectoryEntry := ⟨name :: List.replicate 10 0x20, 2, 10⟩

/-- A sector full of entries, and one more. -/
def longRoot : Disk := rootDisk (List.replicate 16 (fileOf 0x42) ++ [fileOf 0x41])

theorem longRoot_facts : 1 ≤ (FAT16.new longRoot 0).sectorsPerCluster ∧
    (FAT16.new longRoot 0).firstMatch longRoot 1 (fileOf 0x41).name = none ∧
    (FAT16.new longRoot 0).firstMatch longRoot 1 (fileOf 0x42).name = some (fileOf 0x42) ∧
    ¬FAT16.HasEnd ((FAT16.new longRoot 0).clusterEntries longRoot 1) ∧
    entryFor (fileOf 0x42).name (FAT16.beforeEnd (longRoot.rootEntries 0)) = some (fileOf 0x42) ∧
    entryFor (fileOf 0x41).name (FAT16.beforeEnd (longRoot.rootEntries 0)) =
      some (fileOf 0x41) := by
  decide +kernel

/-- The first of them is found. -/
theorem finds_longRoot : (FAT16.new longRoot 0).Finds longRoot 1
    (FAT16.beforeEnd (longRoot.rootEntries 0)) (fileOf 0x42).name := by
  obtain ⟨hspc, -, hfirst, -, hentry, -⟩ := longRoot_facts
  refine (finds_iff hspc (by decide) rfl .root).2 (.inr ⟨by decide, .inr (.inr ⟨_, hfirst⟩), ?_⟩)
  rw [hfirst, hentry]
  rfl

/-- What `FAT16.Finds` says, of all directories. -/
def AllFind : Prop :=
  ∀ {disk : Disk} {offset c : ℕ} {es : List DirectoryEntry} {fatname : List Byte},
    let fs := FAT16.new disk offset
    1 ≤ fs.sectorsPerCluster → c < 0xFFF7 → fatname.length = 11 → DirectoryHas disk offset c es →
      fs.Finds disk c es fatname

/-- The last one is not. -/
theorem not_allFind : ¬AllFind := by
  intro hall
  obtain ⟨hspc, hfirst, -, hend, -, -⟩ := longRoot_facts
  obtain ⟨r, hsearch, -⟩ := (finds_iff_search (by decide)).1
    (@hall _ _ _ _ (fileOf 0x41).name hspc (by decide) rfl .root)
  rcases ((search_decided_iff hspc rfl (by decide)).1 hsearch).1 with hge | hend' | ⟨e, hfirst'⟩
  · exact absurd hge (by decide)
  · exact hend hend'
  · rw [hfirst] at hfirst'
    cases hfirst'

end SmartOS
