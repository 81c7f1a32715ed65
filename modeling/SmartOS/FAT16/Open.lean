import SmartOS.FAT16.Listing

/-!
# Opening files

`open` looks up a component of its path after the other. When one is not found,
`searchDirectory` returns 0xFFF8, the next search is in a directory without
clusters, and the size is still that of the component found last, or what a local
variable happened to hold.

* `returns_open_iff_arrives`: where `open` arrives, component by component;
* `opens_iff_decidesPath`: what holds of all files that `open` may return, whatever
  local variables and new buffers hold, is what the first clusters of the directories
  decide (`FAT16.DecidesPath`);
* `opened_iff`, `failsIfMissing_iff`: when paths that exist are opened, and when
  others are reported.
-/

namespace SmartOS

open Prog

/-! ## Specification -/

/-- In the directory at cluster `c`, the path leads to the entry: it is made of 8.3 names, and all
    of its components exist. -/
inductive Resolves (disk : Disk) (offset : ℕ) : ℕ → List Byte → DirectoryEntry → Prop
  | last {c : ℕ} {component fatname : List Byte} {e : DirectoryEntry} :
      ShortName component fatname → HasEntry disk offset fatname c e →
      Resolves disk offset c component e
  | sub {c : ℕ} {component fatname path : List Byte} {e e' : DirectoryEntry} :
      ShortName component fatname → HasEntry disk offset fatname c e →
      Resolves disk offset e.clusterLow path e' →
      Resolves disk offset c (component ++ 0x2F :: path) e'

/-- In the directory at cluster `c`, no entry has the name. -/
def NoEntry (disk : Disk) (offset c : ℕ) (component : List Byte) : Prop :=
  ∀ fatname e, ShortName component fatname → ¬HasEntry disk offset fatname c e

/-- In the directory at cluster `c`, a component of the path is missing in the directory that the
    components before it lead to. -/
inductive Missing (disk : Disk) (offset : ℕ) : ℕ → List Byte → Prop
  | last {c : ℕ} {component : List Byte} : 0x2F ∉ component → NoEntry disk offset c component →
      Missing disk offset c component
  | here {c : ℕ} {component path : List Byte} : 0x2F ∉ component →
      NoEntry disk offset c component → Missing disk offset c (component ++ 0x2F :: path)
  | next {c : ℕ} {component fatname path : List Byte} {e : DirectoryEntry} :
      ShortName component fatname → HasEntry disk offset fatname c e →
      Missing disk offset e.clusterLow path → Missing disk offset c (component ++ 0x2F :: path)

namespace FAT16

variable (fs : FAT16) (disk : Disk)

/-- `open` returns a file for the entry, whatever local variables and new buffers hold. -/
def Opens (path : List Byte) (e : DirectoryEntry) : Prop :=
  ∀ junk lastSize, ∃ f, Returns (fun n => fs.open disk junk lastSize path n) (some f) ∧
    f.cluster = e.clusterLow ∧ f.size = e.size

/-- `open` reports a failure, with a file of size 0. -/
def Fails (path : List Byte) : Prop :=
  ∀ junk lastSize, ∃ f, Returns (fun n => fs.open disk junk lastSize path n) (some f) ∧ f.size = 0

/-- It does if a component of the path is missing. -/
def FailsIfMissing (offset : ℕ) (path : List Byte) : Prop :=
  Missing disk offset 1 (stripSlash path) → fs.Fails disk path

/-- The next component fits in `filename`, where a component of eleven characters is followed by a
    byte of `tails`, and the first cluster of its directory decides what comes of it. -/
def DecidesNext (tails : ℕ → Byte) (w w' : Walk) : Prop :=
  ∃ name, localName (tails w.searches) w.component = some name ∧
    fs.Decides disk (w.cluster % 2 ^ 16) (filenameToFAT name) ∧
    w' = w.next (fs.firstMatch disk (w.cluster % 2 ^ 16) (filenameToFAT name))

/-- So do those of all directories on the path. -/
inductive DecidesPath (tails : ℕ → Byte) : List Byte → Walk → Walk → Prop
  | last {w w' : Walk} : fs.DecidesNext disk tails w w' → DecidesPath tails [] w w'
  | char {b : Byte} {path : List Byte} {w w' : Walk} : b ≠ 0x2F →
      DecidesPath tails path { w with component := w.component ++ [b] } w' →
      DecidesPath tails (b :: path) w w'
  | slash {path : List Byte} {w w₁ w' : Walk} : fs.DecidesNext disk tails w w₁ →
      DecidesPath tails path w₁ w' → DecidesPath tails (0x2F :: path) w w'

/-- All components of the path are looked up, the last one too. -/
def Arrives (junk : ℕ → Junk) (path : List Byte) (w w' : Walk) : Prop :=
  ∃ w₁, fs.Leads disk junk path w (some w₁) ∧ fs.LooksUp disk junk w₁ (some w')

end FAT16

variable {fs : FAT16} {disk : Disk} {c offset size lastSize : ℕ} {b : Byte} {path : List Byte}
  {e : DirectoryEntry} {junk : ℕ → Junk} {tails : ℕ → Byte} {w w' w₁ : Walk}

/-! ## Where `open` arrives -/

theorem arrives_nil : fs.Arrives disk junk [] w w' ↔ fs.LooksUp disk junk w (some w') := by
  constructor
  · rintro ⟨w₁, hleads, hlook⟩
    cases hleads
    exact hlook
  · exact fun hlook => ⟨w, .done, hlook⟩

theorem arrives_char (hb : b ≠ 0x2F) : fs.Arrives disk junk (b :: path) w w' ↔
    fs.Arrives disk junk path { w with component := w.component ++ [b] } w' := by
  constructor
  · rintro ⟨w₁, hleads, hlook⟩
    cases hleads with
    | char _ hleads => exact ⟨w₁, hleads, hlook⟩
    | slash _ _ => exact absurd rfl hb
  · rintro ⟨w₁, hleads, hlook⟩
    exact ⟨w₁, .char hb hleads, hlook⟩

theorem arrives_slash : fs.Arrives disk junk (0x2F :: path) w w' ↔
    ∃ w₁, fs.LooksUp disk junk w (some w₁) ∧ fs.Arrives disk junk path w₁ w' := by
  constructor
  · rintro ⟨w₂, hleads, hlook⟩
    cases hleads with
    | char hb _ => exact absurd rfl hb
    | slash hfirst hleads => exact ⟨_, hfirst, w₂, hleads, hlook⟩
  · rintro ⟨w₁, hfirst, w₂, hleads, hlook⟩
    exact ⟨w₂, .slash hfirst hleads, hlook⟩

theorem returns_open_iff_arrives {f : NamedFile} :
    Returns (fun n => fs.open disk junk lastSize path n) (some f) ↔
      ∃ w, fs.Arrives disk junk (stripSlash path) ⟨0, [], 1, lastSize⟩ w ∧
        f = ⟨⟨0, w.lastSize, w.cluster⟩, stripSlash path⟩ := by
  simp only [FAT16.open]
  constructor
  · intro h
    obtain ⟨w₁, hwalk, hrest⟩ := steady_walk.of_andThen
      (fun _ => steady_lookUp.andThen fun _ => steady_pure _) h
    obtain ⟨w, hlook, hfile⟩ := steady_lookUp.of_andThen (fun _ => steady_pure _) hrest
    have hfile := Option.some.inj ((Returns.pure _).unique hfile)
    exact ⟨w, ⟨w₁, returns_walk_iff.1 hwalk, returns_lookUp_iff.1 hlook⟩, hfile.symm⟩
  · rintro ⟨w, ⟨w₁, hleads, hlook⟩, rfl⟩
    exact (returns_walk_iff.2 hleads).andThen ((returns_lookUp_iff.2 hlook).andThen (.pure _))

/-! ## What is decided -/

/-- What the first cluster decides comes of the component, whatever the buffer holds. -/
theorem looksUp_of_decidesNext (htails : ∀ k, (junk k).tail = tails k)
    (h : fs.DecidesNext disk tails w w') : fs.LooksUp disk junk w (some w') := by
  obtain ⟨name, hname, hdecides, rfl⟩ := h
  exact .search (htails w.searches ▸ hname) (search_of_decides hdecides)

theorem arrives_of_decidesPath (htails : ∀ k, (junk k).tail = tails k)
    (h : fs.DecidesPath disk tails path w w') : fs.Arrives disk junk path w w' := by
  induction h with
  | last h => exact arrives_nil.2 (looksUp_of_decidesNext htails h)
  | char hb _ ih => exact (arrives_char hb).2 ih
  | slash h _ ih => exact arrives_slash.2 ⟨_, looksUp_of_decidesNext htails h, ih⟩

theorem arrives_unique (h : fs.Arrives disk junk path w w') (h' : fs.Arrives disk junk path w w₁) :
    w' = w₁ := by
  induction path generalizing w with
  | nil => exact Option.some.inj (looksUp_unique (arrives_nil.1 h) (arrives_nil.1 h'))
  | cons b path ih =>
    by_cases hb : b = 0x2F
    · subst hb
      obtain ⟨w₂, hlook, hrest⟩ := arrives_slash.1 h
      obtain ⟨w₃, hlook', hrest'⟩ := arrives_slash.1 h'
      obtain rfl := Option.some.inj (looksUp_unique hlook hlook')
      exact ih hrest hrest'
    · exact ih ((arrives_char hb).1 h) ((arrives_char hb).1 h')

/-! ## What is not decided -/

theorem looksUp_beyond (hw : w.cluster = 0xFFF8) (h : fs.LooksUp disk junk w (some w')) :
    w'.cluster = 0xFFF8 ∧ w'.lastSize = w.lastSize := by
  cases h with
  | @search name r _ hsearch =>
    rw [hw] at hsearch
    have hnone : r = none := (search_unique hsearch (search_of_decides (.inl (by decide)))).trans
      (if_neg (by decide))
    exact hnone ▸ ⟨rfl, rfl⟩

/-- After a component that is not found, no other one is. -/
theorem arrives_beyond (hw : w.cluster = 0xFFF8) (h : fs.Arrives disk junk path w w') :
    w'.cluster = 0xFFF8 ∧ w'.lastSize = w.lastSize := by
  induction path generalizing w with
  | nil => exact looksUp_beyond hw (arrives_nil.1 h)
  | cons b path ih =>
    by_cases hb : b = 0x2F
    · subst hb
      obtain ⟨w₁, hlook, hrest⟩ := arrives_slash.1 h
      obtain ⟨hcluster, hsize⟩ := looksUp_beyond hw hlook
      obtain ⟨hcluster', hsize'⟩ := ih hcluster hrest
      exact ⟨hcluster', hsize'.trans hsize⟩
    · exact @ih { w with component := w.component ++ [b] } hw ((arrives_char hb).1 h)

theorem localName_ne_zero {tail : Byte} {component name : List Byte} (h0 : 0 ∉ component)
    (h : localName tail component = some name) : 0 ∉ name := by
  rw [localName] at h
  split_ifs at h
  · exact Option.some.inj h ▸ h0
  · obtain rfl := Option.some.inj h
    intro hmem
    have := List.mem_takeWhile_imp hmem
    simp at this

section

variable (hspc : 1 ≤ fs.sectorsPerCluster) (hsize : size < 2 ^ 32)
include hspc hsize

/-- What comes of a component that is not decided may be an entry with any size, behind which
    nothing is found. -/
theorem exists_junk_looksUp (h0 : 0 ∉ w.component) (h : ¬∃ w', fs.DecidesNext disk tails w w') :
    ∃ junk : ℕ → Junk, (∀ k, (junk k).tail = tails k) ∧
      ∀ w', fs.LooksUp disk junk w (some w') → w'.cluster = 0xFFF8 ∧ w'.lastSize = size := by
  cases hname : localName (tails w.searches) w.component with
  | none =>
    -- The component does not fit in `filename`, and nothing is looked up.
    refine ⟨fun k => ⟨tails k, fun _ => 0⟩, fun _ => rfl, fun w' hlook => ?_⟩
    cases hlook with
    | search hname' _ => cases hname.symm.trans hname'
  | some name =>
    have hdecides : ¬fs.Decides disk (w.cluster % 2 ^ 16) (filenameToFAT name) :=
      fun hdecides => h ⟨_, name, hname, hdecides, rfl⟩
    -- An entry with the name is no end mark.
    have hmark : (filenameToFAT name).headD 0 ≠ 0 := by
      intro hmark
      have hlen := @length_filenameToFAT name
      have hne := filenameToFAT_ne_zero (localName_ne_zero h0 hname)
      cases hfat : filenameToFAT name with
      | nil =>
        rw [hfat] at hlen
        cases hlen
      | cons b rest =>
        rw [hfat] at hmark hne
        exact hne (List.mem_cons.2 (.inl hmark.symm))
    refine ⟨fun k => ⟨tails k, junkEntry ⟨filenameToFAT name, 0xFFF8, size⟩⟩, fun _ => rfl,
      fun w' hlook => ?_⟩
    cases hlook with
    | search hname' hsearch =>
      cases hname.symm.trans hname'
      have hjunk := search_junkEntry (e := ⟨filenameToFAT name, 0xFFF8, size⟩) hspc
        length_filenameToFAT (show 0xFFF8 < 2 ^ 16 by decide) hsize hmark hdecides
      rw [search_unique hsearch hjunk]
      exact ⟨rfl, rfl⟩

/-- A path that is not decided may lead to such an entry. -/
theorem exists_junk_arrives {Q : ℕ → ℕ → Prop} (hQ : ¬Q 0xFFF8 size) (h0 : 0 ∉ w.component)
    (hpath : 0 ∉ path)
    (h : ¬∃ w', fs.DecidesPath disk tails path w w' ∧ Q w'.cluster w'.lastSize) :
    ∃ junk : ℕ → Junk, (∀ k, (junk k).tail = tails k) ∧
      ∀ w', fs.Arrives disk junk path w w' → ¬Q w'.cluster w'.lastSize := by
  induction path generalizing w with
  | nil =>
    by_cases hnext : ∃ w', fs.DecidesNext disk tails w w'
    · obtain ⟨w₁, hnext⟩ := hnext
      refine ⟨fun k => ⟨tails k, fun _ => 0⟩, fun _ => rfl, fun w' harrives hq => ?_⟩
      have hlook := @looksUp_of_decidesNext fs disk (fun k => ⟨tails k, fun _ => 0⟩) _ _ _
        (fun _ => rfl) hnext
      obtain rfl := arrives_unique harrives (arrives_nil.2 hlook)
      exact h ⟨_, .last hnext, hq⟩
    · obtain ⟨junk, htails, hlook⟩ := exists_junk_looksUp hspc hsize h0 hnext
      refine ⟨junk, htails, fun w' harrives hq => ?_⟩
      obtain ⟨hcluster, hlast⟩ := hlook w' (arrives_nil.1 harrives)
      rw [hcluster, hlast] at hq
      exact hQ hq
  | cons b path ih =>
    obtain ⟨hb0, htail0⟩ := List.ne_and_not_mem_of_not_mem_cons hpath
    by_cases hb : b = 0x2F
    · subst hb
      by_cases hnext : ∃ w', fs.DecidesNext disk tails w w'
      · -- The component is decided, and the rest may lead on to such an entry.
        obtain ⟨w₁, hnext⟩ := hnext
        have hcomponent : 0 ∉ w₁.component := by
          obtain ⟨name, -, -, rfl⟩ := hnext
          cases fs.firstMatch disk (w.cluster % 2 ^ 16) (filenameToFAT name) <;>
            exact List.not_mem_nil
        obtain ⟨junk, htails, hrest⟩ := @ih w₁ hcomponent htail0
          fun ⟨w', hdecides, hq⟩ => h ⟨w', .slash hnext hdecides, hq⟩
        refine ⟨junk, htails, fun w' harrives => ?_⟩
        obtain ⟨w₂, hlook, harrives⟩ := arrives_slash.1 harrives
        obtain rfl := Option.some.inj (looksUp_unique hlook (looksUp_of_decidesNext htails hnext))
        exact hrest w' harrives
      · -- What is found is no directory, so that nothing is found in it.
        obtain ⟨junk, htails, hlook⟩ := exists_junk_looksUp hspc hsize h0 hnext
        refine ⟨junk, htails, fun w' harrives hq => ?_⟩
        obtain ⟨w₁, hfirst, harrives⟩ := arrives_slash.1 harrives
        obtain ⟨hcluster, hlast⟩ := hlook w₁ hfirst
        obtain ⟨hcluster', hlast'⟩ := arrives_beyond hcluster harrives
        rw [hcluster', hlast', hlast] at hq
        exact hQ hq
    · have hcomponent : 0 ∉ w.component ++ [b] :=
        List.not_mem_append h0 fun hmem => hb0 (List.mem_singleton.1 hmem)
      obtain ⟨junk, htails, hrest⟩ := @ih { w with component := w.component ++ [b] } hcomponent
        htail0 fun ⟨w', hdecides, hq⟩ => h ⟨w', .char hb hdecides, hq⟩
      exact ⟨junk, htails, fun w' harrives => hrest w' ((arrives_char hb).1 harrives)⟩

end

/-! ## What `open` returns -/

theorem zero_not_mem_stripSlash (h : 0 ∉ path) : 0 ∉ stripSlash path := by
  cases path with
  | nil => exact h
  | cons b path =>
    rw [stripSlash]
    split_ifs
    · exact List.not_mem_of_not_mem_cons h
    · exact h

/-- What holds of the cluster and the size of all files that `open` may return, if it does not hold
    of just any size when nothing is found, holds of what the first clusters decide. -/
theorem opens_iff_decidesPath (hspc : 1 ≤ fs.sectorsPerCluster) (hpath : 0 ∉ path)
    {Q : ℕ → ℕ → Prop} (hsize : size < 2 ^ 32) (hQ : ¬Q 0xFFF8 size) :
    (∀ junk lastSize, ∃ f, Returns (fun n => fs.open disk junk lastSize path n) (some f) ∧
        Q f.cluster f.size) ↔
      ∀ tails lastSize, ∃ w, fs.DecidesPath disk tails (stripSlash path) ⟨0, [], 1, lastSize⟩ w ∧
        Q w.cluster w.lastSize := by
  constructor
  · intro h tails lastSize
    by_contra hnot
    obtain ⟨junk, -, hjunk⟩ := exists_junk_arrives hspc hsize hQ
      (List.not_mem_nil : (0 : Byte) ∉ []) (zero_not_mem_stripSlash hpath) hnot
    obtain ⟨f, hr, hq⟩ := h junk lastSize
    obtain ⟨w, harrives, rfl⟩ := returns_open_iff_arrives.1 hr
    exact hjunk w harrives hq
  · intro h junk lastSize
    obtain ⟨w, hdecides, hq⟩ := h (fun k => (junk k).tail) lastSize
    have harrives := @arrives_of_decidesPath _ _ _ junk _ _ _ (fun _ => rfl) hdecides
    exact ⟨_, returns_open_iff_arrives.2 ⟨w, harrives, rfl⟩, hq⟩

theorem zero_not_mem_shortName {component fatname : List Byte} (h : ShortName component fatname) :
    0 ∉ component := by
  cases h with
  | base hbase => exact fun hmem => (hbase.chars 0 hmem).1 rfl
  | extension hbase hext =>
    intro hmem
    rcases List.mem_append.1 hmem with hmem | hmem
    · exact (hbase.chars 0 hmem).1 rfl
    · rcases List.mem_cons.1 hmem with heq | hmem
      · exact absurd heq (by decide)
      · exact (hext.chars 0 hmem).1 rfl

theorem zero_not_mem_of_resolves {disk : Disk} (h : Resolves disk offset c path e) : 0 ∉ path := by
  induction h with
  | last hname _ => exact zero_not_mem_shortName hname
  | sub hname _ _ ih =>
    refine List.not_mem_append (zero_not_mem_shortName hname) fun hmem => ?_
    rcases List.mem_cons.1 hmem with heq | hmem
    · exact absurd heq (by decide)
    · exact ih hmem

/-- The last component of a path. -/
theorem decidesPath_component {component : List Byte} (h : 0x2F ∉ component) :
    fs.DecidesPath disk tails component w w' ↔
      fs.DecidesNext disk tails { w with component := w.component ++ component } w' := by
  induction component generalizing w with
  | nil =>
    rw [List.append_nil]
    constructor
    · intro hd
      cases hd with
      | last hnext => exact hnext
    · exact .last
  | cons b component ih =>
    obtain ⟨hb, hrest⟩ := List.ne_and_not_mem_of_not_mem_cons h
    have hstep := @ih { w with component := w.component ++ [b] } hrest
    rw [List.append_assoc, List.singleton_append] at hstep
    rw [← hstep]
    constructor
    · intro hd
      cases hd with
      | char _ hd => exact hd
      | slash _ _ => exact absurd rfl hb
    · exact .char (Ne.symm hb)

/-- A path that exists is opened exactly when the first clusters decide that it leads to the cluster
    and the size of its entry, whatever byte comes behind a component of eleven characters. -/
theorem opened_iff {disk : Disk} (hspc : 1 ≤ (FAT16.new disk offset).sectorsPerCluster)
    (h : Resolves disk offset 1 (stripSlash path) e) :
    (FAT16.new disk offset).Opens disk path e ↔ ∀ tails lastSize, ∃ w,
      (FAT16.new disk offset).DecidesPath disk tails (stripSlash path) ⟨0, [], 1, lastSize⟩ w ∧
        w.cluster = e.clusterLow ∧ w.lastSize = e.size := by
  have hpath : 0 ∉ path := by
    cases path with
    | nil => exact List.not_mem_nil
    | cons b path =>
      have h0 := zero_not_mem_of_resolves h
      rw [stripSlash] at h0
      split_ifs at h0 with hslash
      · refine fun hmem => (List.mem_cons.1 hmem).elim (fun heq => ?_) h0
        exact absurd (heq.trans hslash) (by decide)
      · exact h0
  -- The new buffer may give a size that the entry does not have.
  have hsize : (if e.size = 0 then 1 else 0) ≠ e.size := by
    split_ifs with h0
    · omega
    · exact Ne.symm h0
  have hlt : (if e.size = 0 then 1 else 0) < 2 ^ 32 := by split_ifs <;> decide
  exact opens_iff_decidesPath hspc hpath (Q := fun c s => c = e.clusterLow ∧ s = e.size) hlt
    fun hq => hsize hq.2

theorem decidesNext_of_length {r : Option DirectoryEntry} (hlen : w.component.length ≤ 10)
    (hw : w.cluster < 2 ^ 16) (hdecides : fs.Decides disk w.cluster (filenameToFAT w.component))
    (hr : fs.firstMatch disk w.cluster (filenameToFAT w.component) = r) :
    fs.DecidesNext disk tails w (w.next r) := by
  refine ⟨w.component, if_pos hlen, ?_, ?_⟩ <;> rw [Nat.mod_eq_of_lt hw]
  · exact hdecides
  · rw [hr]

/-- A file in the root directory. -/
theorem opens_longRoot : (FAT16.new longRoot 0).Opens longRoot [0x42] (fileOf 0x42) := by
  obtain ⟨hspc, -, hfirst, -, hentry, -⟩ := longRoot_facts
  have hpart : IsNamePart 8 [0x42] := ⟨by decide, by decide, by simp [IsNameChar]⟩
  have hresolves : Resolves longRoot 0 1 (stripSlash [0x42]) (fileOf 0x42) :=
    .last (.base hpart) (.root hentry)
  refine (opened_iff hspc hresolves).2 fun tails lastSize => ?_
  have hnext := @decidesNext_of_length _ longRoot tails ⟨0, [0x42], 1, lastSize⟩ _
    (show 1 ≤ 10 by decide) (show 1 < 2 ^ 16 by decide) (.inr (.inr ⟨_, hfirst⟩)) hfirst
  exact ⟨_, (decidesPath_component (by decide)).2 hnext, rfl, rfl⟩

/-- What `FAT16.Opens` says, of all paths that exist. -/
def AllOpen : Prop :=
  ∀ {disk : Disk} {offset : ℕ} {path : List Byte} {e : DirectoryEntry},
    let fs := FAT16.new disk offset
    1 ≤ fs.sectorsPerCluster → Resolves disk offset 1 (stripSlash path) e → fs.Opens disk path e

/-- A name with a base of eight characters. -/
def longBase : List Byte := [0x41, 0x42, 0x43, 0x44, 0x45, 0x46, 0x47, 0x48]

/-- A file with such a name, and an extension of three. -/
def longName : DirectoryEntry := ⟨longBase ++ [0x49, 0x4A, 0x4B], 2, 10⟩

theorem longName_facts : 1 ≤ (FAT16.new (rootDisk [longName]) 0).sectorsPerCluster ∧
    entryFor longName.name (FAT16.beforeEnd ((rootDisk [longName]).rootEntries 0)) =
      some longName := by decide +kernel

/-- Its twelve characters do not fit in `filename`. -/
theorem not_allOpen : ¬AllOpen := by
  intro hall
  obtain ⟨hspc, hentry⟩ := longName_facts
  have hbase : IsNamePart 8 longBase := ⟨by decide, by decide, by simp [IsNameChar, longBase]⟩
  have hext : IsNamePart 3 [0x49, 0x4A, 0x4B] := ⟨by decide, by decide, by simp [IsNameChar]⟩
  have hresolves : Resolves (rootDisk [longName]) 0 1
      (stripSlash (longBase ++ 0x2E :: [0x49, 0x4A, 0x4B])) longName :=
    .last (.extension hbase hext) (.root hentry)
  -- If it were opened, the component would be decided, but it does not fit.
  obtain ⟨w, hdecides, -⟩ := (opens_iff_decidesPath (Q := fun c s => c = 2 ∧ s = 10) hspc
    (by decide) (show 0 < 2 ^ 32 by decide) (by decide)).1 (hall hspc hresolves) (fun _ => 0) 0
  obtain ⟨name, hname, -⟩ := (decidesPath_component (by decide)).1 hdecides
  cases hname

/-- A path is reported, if a component of it is missing, exactly when the first clusters decide that
    something is found on it, and that found last has size 0. -/
theorem failsIfMissing_iff {disk : Disk} (hspc : 1 ≤ (FAT16.new disk offset).sectorsPerCluster)
    (hpath : 0 ∉ path) : (FAT16.new disk offset).FailsIfMissing disk offset path ↔
      (Missing disk offset 1 (stripSlash path) → ∀ tails lastSize, ∃ w,
        (FAT16.new disk offset).DecidesPath disk tails (stripSlash path) ⟨0, [], 1, lastSize⟩ w ∧
          w.lastSize = 0) :=
  imp_congr_right fun _ => opens_iff_decidesPath hspc hpath (Q := fun _ s => s = 0)
    (show 1 < 2 ^ 32 by decide) one_ne_zero

theorem noEntry_of_directoryHas {disk : Disk} {es : List DirectoryEntry} {component : List Byte}
    (h : DirectoryHas disk offset c es) (hnone : entryFor (filenameToFAT component) es = none) :
    NoEntry disk offset c component := by
  intro fatname e hname he
  rw [hasEntry_iff h, ← filenameToFAT_of_shortName hname, hnone] at he
  cases he

/-- A volume with a directory `A` and nothing in it. -/
def emptyDirectory : Disk := rootDisk [⟨(fileOf 0x41).name, 2, 0⟩]

theorem emptyDirectory_facts : 1 ≤ (FAT16.new emptyDirectory 0).sectorsPerCluster ∧
    entryFor (fileOf 0x41).name (FAT16.beforeEnd (emptyDirectory.rootEntries 0)) =
      some ⟨(fileOf 0x41).name, 2, 0⟩ ∧
    (FAT16.new emptyDirectory 0).firstMatch emptyDirectory 1 (fileOf 0x41).name =
      some ⟨(fileOf 0x41).name, 2, 0⟩ ∧
    FAT16.HasEnd (emptyDirectory.entriesAt 0 2) ∧
    FAT16.beforeEnd (emptyDirectory.entriesAt 0 2) = [] ∧
    FAT16.HasEnd ((FAT16.new emptyDirectory 0).clusterEntries emptyDirectory 2) ∧
    (FAT16.new emptyDirectory 0).firstMatch emptyDirectory 2 (fileOf 0x42).name = none := by
  decide +kernel

/-- A file that is missing in it. -/
theorem fails_emptyDirectory :
    (FAT16.new emptyDirectory 0).Fails emptyDirectory [0x41, 0x2F, 0x42] := by
  obtain ⟨hspc, hentry, hfirst, hend, hempty, hend', hnone⟩ := emptyDirectory_facts
  have hpart : IsNamePart 8 [0x41] := ⟨by decide, by decide, by simp [IsNameChar]⟩
  have hdirectory := DirectoryHas.last (by decide) (by decide) hend
  refine (failsIfMissing_iff hspc (by decide)).2 (fun _ tails lastSize => ?_) ?_
  · have hnext := @decidesNext_of_length _ emptyDirectory tails ⟨0, [0x41], 1, lastSize⟩ _
      (show 1 ≤ 10 by decide) (show 1 < 2 ^ 16 by decide) (.inr (.inr ⟨_, hfirst⟩)) hfirst
    have hlast := @decidesNext_of_length _ emptyDirectory tails ⟨1, [0x42], 2, 0⟩ _
      (by decide) (by decide) (.inr (.inl hend')) hnone
    exact ⟨_, .char (by decide) (.slash hnext (.char (by decide) (.last hlast))), rfl⟩
  · refine @Missing.next _ _ _ [0x41] _ _ _ (.base hpart) (.root hentry) (.last (by decide) ?_)
    exact noEntry_of_directoryHas hdirectory (hempty ▸ rfl)

/-- What `FAT16.FailsIfMissing` says, of all paths. -/
def AllFail : Prop :=
  ∀ {disk : Disk} {offset : ℕ} {path : List Byte}, let fs := FAT16.new disk offset
    1 ≤ fs.sectorsPerCluster → 0 ∉ path → fs.FailsIfMissing disk offset path

theorem oneFile_facts : 1 ≤ (FAT16.new oneFile 0).sectorsPerCluster ∧
    entryFor (fileOf 0x42).name (FAT16.beforeEnd (oneFile.rootEntries 0)) = none ∧
    (FAT16.new oneFile 0).firstMatch oneFile 1 (fileOf 0x42).name = none := by
  decide +kernel

/-- A file that is missing in the root directory gets whatever size `lastSize` had. -/
theorem not_allFail : ¬AllFail := by
  intro hall
  obtain ⟨hspc, hentry, hnone⟩ := oneFile_facts
  have hmissing : Missing oneFile 0 1 (stripSlash [0x42]) :=
    .last (by decide) (noEntry_of_directoryHas .root hentry)
  obtain ⟨w, hdecides, hzero⟩ := (opens_iff_decidesPath (Q := fun _ s => s = 0) hspc (by decide)
    (show 1 < 2 ^ 32 by decide) one_ne_zero).1 (hall hspc (by decide) hmissing) (fun _ => 0) 1
  obtain ⟨name, hname, -, rfl⟩ := (decidesPath_component (by decide)).1 hdecides
  cases hname
  have hnext := congrArg (fun r => (Walk.next ⟨0, [0x42], 1, 1⟩ r).lastSize) hnone
  exact one_ne_zero (hnext.symm.trans hzero)

end SmartOS
