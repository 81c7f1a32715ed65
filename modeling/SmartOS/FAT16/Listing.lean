import SmartOS.FAT16.Search

/-!
# Listing directories

`list` goes through a directory as `searchDirectory` does, but it does not stop
at the end marker of the directory, only at that of a cluster; both go on into
what the buffer holds behind a cluster without one, and pass no deleted entry
over. And the file that `list` makes has the cluster of the *directory* where
`open` has that of the entry. So a file that is listed is the file that is opened
only when its path leads back to the directory that it is in. The directory is the
one on disk (`DirectoryHas`), which need not lie where `readCluster` reads it.

* `returns_list_iff`: the files of the clusters of a chain;
* `returns_open_iff`: where a path leads, whatever the buffers hold (`leadsTo`);
* `listsDirectory_iff`: when `list` does what it has to do (`ListsDirectory`).
-/

namespace SmartOS

open Prog

/-! ## Specification -/

/-- In the directory at cluster `c`, the path leads to the directory at `c'`: it is empty or ends
    with a slash, and all its components exist. -/
inductive PathTo (disk : Disk) (offset : ℕ) : ℕ → List Byte → ℕ → Prop
  | here {c : ℕ} : PathTo disk offset c [] c
  | sub {c c' : ℕ} {component path : List Byte} {e : DirectoryEntry} : 0x2F ∉ component →
      HasEntry disk offset (filenameToFAT component) c e →
      PathTo disk offset e.clusterLow path c' → PathTo disk offset c (component ++ 0x2F :: path) c'

namespace FAT16

variable (fs : FAT16) (disk : Disk)

/-- The path and the size that a file in the directory with this path should have. -/
def listedAs (path : List Byte) (e : DirectoryEntry) : List Byte × ℕ :=
  (path ++ cString (fatToFilename e.name), e.size)

/-- `list(d)` returns the files for the entries, in their order, and `open` of the path of a file
    the same file; whatever local variables and new buffers hold. -/
def Lists (d : List Byte) (es : List DirectoryEntry) : Prop :=
  ∀ junk entries lastSize, ∃ files,
    Returns (fun n => fs.list disk junk entries lastSize d n) (some files) ∧
    files.map (fun f => (f.path, f.size)) = (live es).map (listedAs (stripSlash d)) ∧
    ∀ f ∈ files, ∀ junk lastSize, ∃ f',
      Returns (fun n => fs.open disk junk lastSize f.path n) (some f') ∧
        f'.cluster = f.cluster ∧ f'.size = f.size

/-- The path is that of a directory on disk, whose files are listed. -/
def ListsDirectory (disk : Disk) (offset : ℕ) (d : List Byte) : Prop :=
  ∃ c es, PathTo disk offset 1 (stripSlash d) c ∧ DirectoryHas disk offset c es ∧
    (FAT16.new disk offset).Lists disk d es

/-! ## Where paths lead -/

/-- The entry for a component, if it is in the first cluster of the directory at `c`. -/
def componentEntry (tail : Byte) (component : List Byte) (c : ℕ) : Option DirectoryEntry :=
  (localName tail component).bind fun name => fs.firstMatch disk c (filenameToFAT name)

/-- The entry that the path leads to from `c`, with `component` read before, when all its
    components are in the first clusters of their directories. `tails` are the bytes at the end of
    `filename`. -/
def leadsTo (tails : ℕ → Byte) : List Byte → ℕ → List Byte → ℕ → Option DirectoryEntry
  | [], k, component, c => fs.componentEntry disk (tails k) component c
  | b :: path, k, component, c =>
    if b = 0x2F then
      (fs.componentEntry disk (tails k) component c).bind fun e =>
        leadsTo tails path (k + 1) [] e.clusterLow
    else leadsTo tails path k (component ++ [b]) c

/-- The clusters from `c` to the end of the chain. -/
inductive Chained : ℕ → List ℕ → Prop
  | nil {c : ℕ} : 0xFFF7 ≤ c → Chained c []
  | cons {c : ℕ} {cs : List ℕ} : c < 0xFFF7 → Chained (fs.readFAT disk c) cs → Chained c (c :: cs)

/-- Whatever local variables and new buffers hold, the search for the directory ends at a chain of
    clusters, which all have an end marker where they are read. The entries before those are in name
    and size the ones of the directory, `es`, and the path of each leads to an entry with the
    cluster that it lies in and its size. -/
def LeadsBack (d : List Byte) (es : List DirectoryEntry) : Prop :=
  ∀ junk lastSize, ∃ w cs,
    fs.Leads disk junk (stripSlash d) ⟨0, [], 1, lastSize⟩ (some w) ∧
    Chained fs disk w.cluster cs ∧ (∀ c ∈ cs, HasEnd (fs.clusterEntries disk c)) ∧
    (cs.flatMap fun c => beforeEnd (fs.clusterEntries disk c)).map (listedAs (stripSlash d)) =
      (live es).map (listedAs (stripSlash d)) ∧
    ∀ c ∈ cs, ∀ e ∈ beforeEnd (fs.clusterEntries disk c),
      (fatToFilename e.name).length < 12 ∧
        ∀ tails, ∃ e', fs.leadsTo disk tails (stripSlash (listedAs (stripSlash d) e).1) 0 [] 1 =
          some e' ∧ e'.clusterLow = c ∧ e'.size = e.size

end FAT16

variable {fs : FAT16} {disk : Disk} {c c' k : ℕ} {buffer : Mem} {path d component : List Byte}
  {cs : List ℕ} {es : List DirectoryEntry} {e : DirectoryEntry} {files files' : List NamedFile}
  {tails : ℕ → Byte} {junk : ℕ → Junk} {w w' : Walk}

theorem componentEntry_beyond {tail : Byte} (h : 0xFFF7 ≤ c) :
    fs.componentEntry disk tail component c = none := by
  rw [FAT16.componentEntry]
  cases localName tail component with
  | none => rfl
  | some name => exact if_neg (Nat.not_lt.2 h)

theorem leadsTo_beyond (h : 0xFFF7 ≤ c) : fs.leadsTo disk tails path k component c = none := by
  induction path generalizing component with
  | nil => exact componentEntry_beyond h
  | cons b path ih =>
    rw [FAT16.leadsTo]
    split_ifs
    · rw [componentEntry_beyond h, Option.bind_none]
    · exact ih

theorem firstMatch_lt {fatname : List Byte} (h : fs.firstMatch disk c fatname = some e) :
    c < 0xFFF7 := by
  rw [FAT16.firstMatch] at h
  split_ifs at h with hlt
  exact hlt

/-- A component that is in the first cluster is found, whatever the buffer holds. -/
theorem looksUp_some
    (h : fs.componentEntry disk (junk w.searches).tail w.component w.cluster = some e) :
    fs.LooksUp disk junk w (some (w.next (some e))) := by
  rw [FAT16.componentEntry, Option.bind_eq_some_iff] at h
  obtain ⟨name, hname, hfirst⟩ := h
  have hlt := firstMatch_lt hfirst
  rw [← Nat.mod_eq_of_lt (by omega : w.cluster < 2 ^ 16)] at hfirst
  exact .search hname (search_of_firstMatch hfirst)

/-- With a buffer of zeros, no other component is found. -/
theorem looksUp_zero (hspc : 1 ≤ fs.sectorsPerCluster) (hw : w.cluster < 2 ^ 16)
    (hzero : (junk w.searches).entries = fun _ => 0) (h : fs.LooksUp disk junk w (some w')) :
    w' = w.next (fs.componentEntry disk (junk w.searches).tail w.component w.cluster) := by
  cases h with
  | search hname hsearch =>
    rw [hzero, Nat.mod_eq_of_lt hw] at hsearch
    rw [FAT16.componentEntry, hname, Option.bind_some, search_unique hsearch (search_zero hspc)]

theorem firstMatch_clusterLow_lt {fatname : List Byte}
    (h : fs.firstMatch disk c fatname = some e) : e.clusterLow < 2 ^ 16 := by
  rw [FAT16.firstMatch] at h
  split_ifs at h
  have hmem := List.mem_of_find?_eq_some h
  obtain ⟨i, -, rfl⟩ := List.mem_map.1 ((List.takeWhile_sublist _).mem hmem)
  exact Mem.get16_lt

theorem componentEntry_clusterLow_lt {tail : Byte}
    (h : fs.componentEntry disk tail component c = some e) : e.clusterLow < 2 ^ 16 := by
  obtain ⟨name, -, hfirst⟩ := Option.bind_eq_some_iff.1 h
  exact firstMatch_clusterLow_lt hfirst

/-- What `open` does with a path, from where it has come. -/
theorem returns_of_leadsTo (htails : ∀ k, (junk k).tail = tails k)
    (h : fs.leadsTo disk tails path w.searches w.component w.cluster = some e) :
    ∃ w', Returns (fun n => andThen (fs.walk disk junk n path w) fun w => fs.lookUp disk junk w n)
      (some w') ∧ w'.cluster = e.clusterLow ∧ w'.lastSize = e.size := by
  induction path generalizing w with
  | nil =>
    rw [FAT16.leadsTo, ← htails] at h
    exact ⟨_, (Returns.pure (some w)).andThen (returns_lookUp_iff.2 (looksUp_some h)), rfl, rfl⟩
  | cons b path ih =>
    rw [FAT16.leadsTo] at h
    simp only [FAT16.walk]
    split_ifs at h ⊢ with hslash
    · rw [← htails, Option.bind_eq_some_iff] at h
      obtain ⟨e', hentry, hrest⟩ := h
      obtain ⟨w', hr, hw'⟩ := @ih (w.next (some e')) hrest
      refine ⟨w', ?_, hw'⟩
      simp only [andThen_assoc]
      exact (returns_lookUp_iff.2 (looksUp_some hentry)).andThen hr
    · exact @ih { w with component := w.component ++ [b] } h

/-- With buffers of zeros, it comes to nothing else but 0xFFF8. -/
theorem leadsTo_of_returns (hspc : 1 ≤ fs.sectorsPerCluster)
    (hjunk : ∀ k, junk k = ⟨tails k, fun _ => 0⟩) (hw : w.cluster < 2 ^ 16)
    (hr : Returns (fun n => andThen (fs.walk disk junk n path w) fun w => fs.lookUp disk junk w n)
      (some w')) (hne : w'.cluster ≠ 0xFFF8) :
    ∃ e, fs.leadsTo disk tails path w.searches w.component w.cluster = some e ∧
      w'.cluster = e.clusterLow ∧ w'.lastSize = e.size := by
  have hzero : (junk w.searches).entries = fun _ => 0 := by rw [hjunk]
  have htail : (junk w.searches).tail = tails w.searches := by rw [hjunk]
  induction path generalizing w with
  | nil =>
    have hnext := looksUp_zero hspc hw hzero (returns_lookUp_iff.1 hr)
    rw [htail] at hnext
    rw [FAT16.leadsTo]
    cases hentry : fs.componentEntry disk (tails w.searches) w.component w.cluster with
    | none =>
      rw [hnext, hentry] at hne
      exact absurd rfl hne
    | some e =>
      rw [hnext, hentry]
      exact ⟨e, rfl, rfl, rfl⟩
  | cons b path ih =>
    simp only [FAT16.walk] at hr
    rw [FAT16.leadsTo]
    split_ifs at hr ⊢ with hslash
    · simp only [andThen_assoc] at hr
      obtain ⟨w₁, hlook, hrest⟩ := steady_lookUp.of_andThen
        (fun _ => steady_walk.andThen fun _ => steady_lookUp) hr
      have hnext := looksUp_zero hspc hw hzero (returns_lookUp_iff.1 hlook)
      rw [htail] at hnext
      cases hentry : fs.componentEntry disk (tails w.searches) w.component w.cluster with
      | none =>
        -- The search goes on from 0xFFF8, and finds nothing.
        rw [hentry] at hnext
        subst hnext
        obtain ⟨e, he, -⟩ := ih (by decide : 0xFFF8 < 2 ^ 16) hrest (by rw [hjunk]) (by rw [hjunk])
        have he : fs.leadsTo disk tails path (w.searches + 1) [] 0xFFF8 = some e := he
        rw [leadsTo_beyond (by decide)] at he
        cases he
      | some e =>
        rw [hentry] at hnext
        subst hnext
        exact ih (componentEntry_clusterLow_lt hentry) hrest (by rw [hjunk]) (by rw [hjunk])
    · exact @ih { w with component := w.component ++ [b] } hw hr hzero htail

/-! ## The files of a directory -/

theorem listEntries_eq : FAT16.listEntries path c es =
    if ∀ e ∈ FAT16.beforeEnd es, (fatToFilename e.name).length < 12 then
      some ((FAT16.beforeEnd es).map (FAT16.newFile path c))
    else none := by
  induction es with
  | nil => simp [FAT16.listEntries, FAT16.beforeEnd]
  | cons e es ih =>
    rw [FAT16.listEntries, beforeEnd_cons, if_neg (toInt_ne e.mark)]
    by_cases hmark : e.mark = 0
    · rw [if_pos hmark, if_pos hmark, if_pos fun e he => absurd he List.not_mem_nil]
      rfl
    · rw [if_neg hmark, if_neg hmark, ih]
      by_cases hfits : (fatToFilename e.name).length < 12
      · simp only [List.forall_mem_cons, hfits, true_and, if_true]
        split_ifs <;> rfl
      · rw [if_neg hfits, if_neg fun h => hfits (h e List.mem_cons_self)]

theorem listBody_eq (hlt : c < 0xFFF7) : fs.listBody disk path (c, buffer, files) =
    if ∀ e ∈ fs.scanned disk buffer c, (fatToFilename e.name).length < 12 then
      .inl (fs.readFAT disk c, fs.readCluster disk c buffer,
        files ++ (fs.scanned disk buffer c).map (FAT16.newFile path c))
    else .inr none := by
  rw [FAT16.listBody, if_pos hlt]
  dsimp only
  rw [listEntries_eq, directoryEntries_readCluster, FAT16.scanned]
  split_ifs <;> rfl

/-- The loop of `list` returns the files of the clusters, if the chain ends and all names fit. -/
theorem list_loop_iff :
    Returns (fun n => loop (fs.listBody disk path) n (c, buffer, files)) (some files') ↔
      ∃ cs, fs.Chained disk c cs ∧
        (∀ c ∈ cs, ∀ e ∈ fs.scanned disk buffer c, (fatToFilename e.name).length < 12) ∧
        files' = files ++ cs.flatMap fun c =>
          (fs.scanned disk buffer c).map (FAT16.newFile path c) := by
  constructor
  · intro hr
    obtain ⟨n, hn⟩ := hr.exists_fuel
    clear hr
    induction n generalizing c buffer files with
    | zero => cases hn
    | succ n ih =>
      by_cases hlt : c < 0xFFF7
      · have hbody := @listBody_eq fs disk c buffer path files hlt
        -- The round returns a file for each entry, unless a name overflows.
        split_ifs at hbody with hfits
        · rw [loop_next hbody] at hn
          obtain ⟨cs, hchain, hall, hfiles⟩ := ih hn
          simp only [scanned_readCluster] at hall hfiles
          refine ⟨c :: cs, .cons hlt hchain, List.forall_mem_cons.2 ⟨hfits, hall⟩, ?_⟩
          rw [hfiles, List.flatMap_cons, List.append_assoc]
        · rw [loop_exit hbody] at hn
          cases hn
      · have hbody : fs.listBody disk path (c, buffer, files) = .inr (some files) := by
          rw [FAT16.listBody, if_neg hlt]
        rw [loop_exit hbody, Option.some.injEq, Option.some.injEq] at hn
        exact ⟨[], .nil (Nat.not_lt.1 hlt), fun c hc => absurd hc List.not_mem_nil,
          by rw [← hn, List.flatMap_nil, List.append_nil]⟩
  · rintro ⟨cs, hchain, hall, rfl⟩
    induction hchain generalizing buffer files with
    | nil hge =>
      refine returns_loop_exit ?_
      rw [FAT16.listBody, if_neg (Nat.not_lt.2 hge), List.flatMap_nil, List.append_nil]
    | @cons c cs hlt _ ih =>
      obtain ⟨hfits, hall⟩ := List.forall_mem_cons.1 hall
      refine (returns_loop_next ((listBody_eq hlt).trans (if_pos hfits))).2 ?_
      have hrest := @ih (fs.readCluster disk c buffer)
        (files ++ (fs.scanned disk buffer c).map (FAT16.newFile path c))
      simp only [scanned_readCluster] at hrest
      rw [List.flatMap_cons, ← List.append_assoc]
      exact hrest hall

theorem chained_unique {cs cs' : List ℕ} (h : fs.Chained disk c cs) (h' : fs.Chained disk c cs') :
    cs = cs' := by
  induction h generalizing cs' with
  | nil hge =>
    cases h' with
    | nil _ => rfl
    | cons hlt _ => exact absurd hlt (Nat.not_lt.2 hge)
  | cons hlt _ ih =>
    cases h' with
    | nil hge => exact absurd hlt (Nat.not_lt.2 hge)
    | cons _ hrest => rw [ih hrest]

theorem chained_lt (h : fs.Chained disk c cs) : ∀ c' ∈ cs, c' < 0xFFF7 := by
  induction h with
  | nil _ => exact fun c' hc' => absurd hc' List.not_mem_nil
  | cons hlt _ ih => exact List.forall_mem_cons.2 ⟨hlt, ih⟩

/-! ## What the buffer holds -/

theorem scanned_zero (hspc : 1 ≤ fs.sectorsPerCluster) :
    fs.scanned disk (fun _ => 0) c = FAT16.beforeEnd (fs.clusterEntries disk c) :=
  (beforeEnd_append_zero hspc).1

/-- A buffer of ones: a cluster without an end marker has more entries. -/
theorem length_scanned_one (hspc : 1 ≤ fs.sectorsPerCluster)
    (h : ¬FAT16.HasEnd (fs.clusterEntries disk c)) :
    (FAT16.beforeEnd (fs.clusterEntries disk c)).length <
      (fs.scanned disk (fun _ => 1) c).length := by
  have hrest : ¬FAT16.HasEnd (fs.restEntries fun _ => 1) := by
    rintro ⟨e, he, hmark⟩
    rw [mark_restEntries he] at hmark
    exact absurd hmark (by decide)
  have hne := List.length_pos_of_ne_nil (@restEntries_ne_nil fs (fun _ => 1) hspc)
  rw [FAT16.scanned, beforeEnd_append_of_not h, beforeEnd_of_not_hasEnd h,
    beforeEnd_of_not_hasEnd hrest, List.length_append]
  exact Nat.lt_add_of_pos_right hne

theorem length_scanned_le (hspc : 1 ≤ fs.sectorsPerCluster) :
    (FAT16.beforeEnd (fs.clusterEntries disk c)).length ≤
      (fs.scanned disk (fun _ => 1) c).length := by
  by_cases h : FAT16.HasEnd (fs.clusterEntries disk c)
  · rw [scanned_of_hasEnd h]
  · exact (length_scanned_one hspc h).le

theorem length_flatMap_le {α : Type*} {f g : ℕ → List α}
    (hle : ∀ c, (f c).length ≤ (g c).length) :
    (cs.flatMap f).length ≤ (cs.flatMap g).length := by
  rw [List.length_flatMap, List.length_flatMap]
  exact List.sum_le_sum fun c _ => hle c

/-- If as many entries are gone through with ones as with zeros in the buffer, the clusters all have
    an end marker. -/
theorem hasEnd_of_length (hspc : 1 ≤ fs.sectorsPerCluster)
    (h : (cs.flatMap (fs.scanned disk fun _ => 1)).length ≤
      (cs.flatMap fun c => FAT16.beforeEnd (fs.clusterEntries disk c)).length) :
    ∀ c ∈ cs, FAT16.HasEnd (fs.clusterEntries disk c) := by
  induction cs with
  | nil => exact fun c hc => absurd hc List.not_mem_nil
  | cons c cs ih =>
    rw [List.flatMap_cons, List.flatMap_cons, List.length_append, List.length_append] at h
    have hrest : (cs.flatMap fun c => FAT16.beforeEnd (fs.clusterEntries disk c)).length ≤
        (cs.flatMap (fs.scanned disk fun _ => 1)).length :=
      length_flatMap_le fun _ => length_scanned_le hspc
    have hfirst := @length_scanned_le fs disk c hspc
    refine List.forall_mem_cons.2 ⟨?_, ih (by omega)⟩
    by_contra hend
    have := length_scanned_one hspc hend
    omega

/-! ## The whole -/

theorem map_files : (cs.flatMap fun c => (fs.scanned disk buffer c).map (FAT16.newFile path c)).map
      (fun f => (f.path, f.size)) =
    (cs.flatMap (fs.scanned disk buffer)).map (FAT16.listedAs path) := by
  rw [List.map_flatMap, List.map_flatMap]
  congr 1
  funext c
  rw [List.map_map]
  rfl

/-- Where `open` comes to with a path, whatever local variables and new buffers hold. -/
theorem returns_open_iff (hspc : 1 ≤ fs.sectorsPerCluster) {size : ℕ} (hc : c ≠ 0xFFF8) :
    (∀ junk lastSize, ∃ f, Returns (fun n => fs.open disk junk lastSize path n) (some f) ∧
        f.cluster = c ∧ f.size = size) ↔
      ∀ tails, ∃ e, fs.leadsTo disk tails (stripSlash path) 0 [] 1 = some e ∧
        e.clusterLow = c ∧ e.size = size := by
  simp only [FAT16.open, ← andThen_assoc]
  constructor
  · intro h tails
    obtain ⟨f, hr, hcluster, hsize⟩ := h (fun k => ⟨tails k, fun _ => 0⟩) 0
    obtain ⟨w, hw, hf⟩ := (steady_walk.andThen fun _ => steady_lookUp).of_andThen
      (fun _ => steady_pure _) hr
    have hf := (Returns.pure _).unique hf
    simp only [Option.some.injEq] at hf
    subst hf
    obtain ⟨e, he, hlow, hlast⟩ := leadsTo_of_returns hspc (fun _ => rfl) (by decide) hw
      fun heq => hc (hcluster.symm.trans heq)
    exact ⟨e, he, hlow.symm.trans hcluster, hlast.symm.trans hsize⟩
  · intro h junk lastSize
    obtain ⟨e, he, hlow, hsize⟩ := h fun k => (junk k).tail
    obtain ⟨w, hw, hcluster, hlast⟩ :=
      @returns_of_leadsTo fs disk (stripSlash path) e _ junk ⟨0, [], 1, lastSize⟩ (fun _ => rfl) he
    exact ⟨_, hw.andThen (.pure _), hcluster.trans hlow, hlast.trans hsize⟩

/-- What `list` returns. -/
theorem returns_list_iff {entries : Mem} {lastSize : ℕ} :
    Returns (fun n => fs.list disk junk entries lastSize d n) (some files) ↔
      ∃ w cs, fs.Leads disk junk (stripSlash d) ⟨0, [], 1, lastSize⟩ (some w) ∧
        fs.Chained disk w.cluster cs ∧
        (∀ c ∈ cs, ∀ e ∈ fs.scanned disk entries c, (fatToFilename e.name).length < 12) ∧
        files = cs.flatMap fun c =>
          (fs.scanned disk entries c).map (FAT16.newFile (stripSlash d) c) := by
  constructor
  · intro h
    obtain ⟨w, hw, hloop⟩ := steady_walk.of_andThen (fun _ => steady_loop _ _) h
    obtain ⟨cs, hchain, hfits, heq⟩ := list_loop_iff.1 hloop
    rw [List.nil_append] at heq
    exact ⟨w, cs, returns_walk_iff.1 hw, hchain, hfits, heq⟩
  · rintro ⟨w, cs, hw, hchain, hfits, rfl⟩
    exact (returns_walk_iff.2 hw).andThen
      (list_loop_iff.2 ⟨cs, hchain, hfits, (List.nil_append _).symm⟩)

section

variable (hspc : 1 ≤ fs.sectorsPerCluster)
include hspc

theorem leadsBack_of_lists (h : fs.Lists disk d es) : fs.LeadsBack disk d es := by
  intro junk lastSize
  -- What is listed with zeros and with ones in the buffer has one length.
  obtain ⟨files, hr, hzero, hopen⟩ := h junk (fun _ => 0) lastSize
  obtain ⟨files', hr', hone, -⟩ := h junk (fun _ => 1) lastSize
  obtain ⟨w, cs, hw, hchain, hfits, rfl⟩ := returns_list_iff.1 hr
  obtain ⟨w', cs', hw', hchain', -, rfl⟩ := returns_list_iff.1 hr'
  obtain rfl := Option.some.inj ((returns_walk_iff.2 hw).unique (returns_walk_iff.2 hw'))
  obtain rfl := chained_unique hchain hchain'
  rw [map_files] at hzero hone
  have hscan : (cs.flatMap (fs.scanned disk fun _ => 0)) =
      cs.flatMap fun c => FAT16.beforeEnd (fs.clusterEntries disk c) :=
    congrArg cs.flatMap (funext fun _ => scanned_zero hspc)
  rw [hscan] at hzero
  have hlength := congrArg List.length (hone.trans hzero.symm)
  rw [List.length_map, List.length_map] at hlength
  simp only [scanned_zero hspc] at hfits hopen
  refine ⟨w, cs, hw, hchain, hasEnd_of_length hspc hlength.le, hzero, fun c hc e he =>
    ⟨hfits c hc e he, ?_⟩⟩
  have hne : c ≠ 0xFFF8 := by
    have := chained_lt hchain c hc
    omega
  exact (returns_open_iff hspc hne).1
    (hopen _ (List.mem_flatMap.2 ⟨c, hc, List.mem_map.2 ⟨e, he, rfl⟩⟩))

theorem lists_of_leadsBack (h : fs.LeadsBack disk d es) : fs.Lists disk d es := by
  intro junk entries lastSize
  obtain ⟨w, cs, hw, hchain, hend, hlisted, hback⟩ := h junk lastSize
  have hscan : ∀ c ∈ cs, fs.scanned disk entries c =
      FAT16.beforeEnd (fs.clusterEntries disk c) := fun c hc => scanned_of_hasEnd (hend c hc)
  have hfits : ∀ c ∈ cs, ∀ e ∈ fs.scanned disk entries c, (fatToFilename e.name).length < 12 :=
    fun c hc e he => (hback c hc e (hscan c hc ▸ he)).1
  refine ⟨_, returns_list_iff.2 ⟨w, cs, hw, hchain, hfits, rfl⟩, ?_, fun f hf => ?_⟩
  · rw [map_files, ← hlisted]
    congr 1
    exact List.flatMap_congr hscan
  · obtain ⟨c, hc, hf⟩ := List.mem_flatMap.1 hf
    obtain ⟨e, he, rfl⟩ := List.mem_map.1 hf
    have hne : c ≠ 0xFFF8 := by
      have := chained_lt hchain c hc
      omega
    exact (returns_open_iff hspc hne).2 (hback c hc e (hscan c hc ▸ he)).2

end

/-- `list` and `open` do what they have to do with a directory on disk exactly when the clusters
    that they read have its entries, and its files lead back (`FAT16.LeadsBack`) to the clusters
    that list them. -/
theorem listsDirectory_iff {offset : ℕ} (hspc : 1 ≤ (FAT16.new disk offset).sectorsPerCluster) :
    FAT16.ListsDirectory disk offset d ↔ ∃ c es, PathTo disk offset 1 (stripSlash d) c ∧
      DirectoryHas disk offset c es ∧ (FAT16.new disk offset).LeadsBack disk d es :=
  exists_congr fun _ => exists_congr fun _ => and_congr_right fun _ => and_congr_right fun _ =>
    ⟨leadsBack_of_lists hspc, lists_of_leadsBack hspc⟩

/-- A volume with a directory `A` at cluster 2, which has these entries. -/
def subdirectory (es : List DirectoryEntry) : Disk := fun x =>
  if x = 516 ∨ x = 517 then 0xFF
  else if 82432 ≤ x ∧ x < 82432 + 32 * es.length then
    (es.getD ((x - 82432) / 32) ⟨[], 0, 0⟩).byte ((x - 82432) % 32)
  else rootDisk [⟨(fileOf 0x41).name, 2, 0⟩] x

/-- An entry `B` for the directory itself. -/
def selfEntry : DirectoryEntry := ⟨(fileOf 0x42).name, 2, 0⟩

theorem subdirectory_facts : ∀ es ∈ [[], [selfEntry]],
    let disk := subdirectory es
    let fs := FAT16.new disk 0
    1 ≤ fs.sectorsPerCluster ∧
      entryFor (filenameToFAT [0x41]) (FAT16.beforeEnd (disk.rootEntries 0)) =
        some ⟨(fileOf 0x41).name, 2, 0⟩ ∧
      FAT16.HasEnd (disk.entriesAt 0 2) ∧ FAT16.beforeEnd (disk.entriesAt 0 2) = es ∧
      FAT16.HasEnd (fs.clusterEntries disk 2) ∧ FAT16.beforeEnd (fs.clusterEntries disk 2) = es ∧
      0xFFF7 ≤ fs.readFAT disk 2 ∧
      fs.firstMatch disk 1 (filenameToFAT [0x41]) = some ⟨(fileOf 0x41).name, 2, 0⟩ ∧
      ∀ e ∈ es, fs.firstMatch disk 2 (filenameToFAT [0x42]) = some e ∧
        (fatToFilename e.name).length < 12 ∧ e.mark ≠ 0xE5 ∧ e.clusterLow = 2 ∧
        stripSlash (FAT16.listedAs [0x41, 0x2F] e).1 = [0x41, 0x2F, 0x42] := by
  decide +kernel

/-- The path of an entry for the directory leads back to it. -/
theorem leadsBack_subdirectory : ∀ es ∈ [[], [selfEntry]],
    1 ≤ (FAT16.new (subdirectory es) 0).sectorsPerCluster ∧
      PathTo (subdirectory es) 0 1 (stripSlash [0x41, 0x2F]) 2 ∧
      DirectoryHas (subdirectory es) 0 2 es ∧
      (FAT16.new (subdirectory es) 0).LeadsBack (subdirectory es) [0x41, 0x2F] es := by
  intro es hes
  obtain ⟨hspc, hentry, hend, hbefore, hend', hbefore', hfat, hfirst, hes⟩ :=
    subdirectory_facts es hes
  have hpath : PathTo (subdirectory es) 0 1 (stripSlash [0x41, 0x2F]) 2 :=
    @PathTo.sub _ _ _ _ [0x41] [] _ (by decide) (.root hentry) .here
  have hdirectory := DirectoryHas.last (by decide) (by decide) hend
  rw [hbefore] at hdirectory
  refine ⟨hspc, hpath, hdirectory, fun junk lastSize => ?_⟩
  have hlook := @looksUp_some _ _ _ junk ⟨0, [0x41], 1, lastSize⟩ hfirst
  refine ⟨_, [2], .char (by decide) (.slash hlook .done),
    .cons (show 2 < 0xFFF7 by decide) (.nil hfat), ?_, ?_, ?_⟩
  all_goals simp only [List.forall_mem_singleton, List.flatMap_singleton, hbefore']
  · exact hend'
  · rw [FAT16.live, List.filter_eq_self.2 fun e he => decide_eq_true (hes e he).2.2.1]
  · intro e he
    obtain ⟨hfirst', hlen, -, hlow, hstrip⟩ := hes e he
    refine ⟨hlen, fun tails => ⟨e, ?_, hlow, rfl⟩⟩
    -- The path goes through `A`.
    show FAT16.leadsTo _ _ tails (stripSlash (FAT16.listedAs [0x41, 0x2F] e).1) 0 [] 1 = _
    rw [hstrip]
    show ((FAT16.firstMatch _ _ 1 (filenameToFAT [0x41])).bind _) = _
    rw [hfirst]
    exact hfirst'

/-- A directory without files, and one in which there is only an entry for itself. -/
theorem listsDirectory_subdirectory :
    FAT16.ListsDirectory (subdirectory []) 0 [0x41, 0x2F] ∧
      FAT16.ListsDirectory (subdirectory [selfEntry]) 0 [0x41, 0x2F] := by
  obtain ⟨hspc, hback⟩ := leadsBack_subdirectory [] (by simp)
  obtain ⟨hspc', hback'⟩ := leadsBack_subdirectory [selfEntry] (by simp)
  exact ⟨(listsDirectory_iff hspc).2 ⟨_, _, hback⟩, (listsDirectory_iff hspc').2 ⟨_, _, hback'⟩⟩

/-! ## A file that is not opened -/

/-- A volume with a file `A` in its root directory. -/
def oneFile : Disk := rootDisk [fileOf 0x41]

theorem oneFile_entries : let fs := FAT16.new oneFile 0
    1 ≤ fs.sectorsPerCluster ∧
      FAT16.beforeEnd (fs.clusterEntries oneFile 1) = [fileOf 0x41] ∧
      fs.firstMatch oneFile 1 (filenameToFAT [0x41]) = some (fileOf 0x41) := by decide +kernel

/-- What `FAT16.ListsDirectory` says, of all directories. -/
def DirectoriesListed : Prop :=
  ∀ {disk : Disk} {offset c : ℕ} {d : List Byte} {es : List DirectoryEntry},
    1 ≤ (FAT16.new disk offset).sectorsPerCluster → PathTo disk offset 1 (stripSlash d) c →
      DirectoryHas disk offset c es → FAT16.ListsDirectory disk offset d

/-- The file is listed with the cluster of the root directory. -/
theorem not_directoriesListed : ¬DirectoriesListed := by
  intro hall
  obtain ⟨hspc, hentries, hfirst⟩ := oneFile_entries
  obtain ⟨c, es, -, -, hlists⟩ := @hall oneFile 0 1 [] _ hspc .here .root
  obtain ⟨w, cs, hw, hchain, -, -, hback⟩ :=
    leadsBack_of_lists hspc hlists (fun _ => ⟨0, fun _ => 0⟩) 0
  cases hw with
  | done =>
    cases hchain with
    | nil hge => exact absurd hge (by decide)
    | cons hlt hchain =>
      have hmem : fileOf 0x41 ∈ FAT16.beforeEnd
          ((FAT16.new oneFile 0).clusterEntries oneFile 1) := by
        rw [hentries]
        exact List.mem_singleton_self _
      obtain ⟨e, he, hlow, -⟩ := (hback 1 List.mem_cons_self _ hmem).2 fun _ => 0
      cases hfirst.symm.trans he
      exact absurd hlow (by decide)

end SmartOS
