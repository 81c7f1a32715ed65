import SmartOS.FAT16.Accesses
import SmartOS.FAT16.Listing

/-!
# Termination

The loops of `open` and `list` follow links on the disk, those of `read` count
clusters in 64 bits. Either may go on for ever: a chain may be cyclic, and a
position may be beyond all multiples of the size of a cluster, modulo `2 ^ 64`
(with clusters of no sectors, every position but 0 is). And `read` divides by
the size of a cluster.

A call that goes beyond one of its buffers does not count as one that ends: what a
component that is too long is filled up with, and what is copied from a position that
is beyond the end, are almost `2 ^ 64` bytes.

* `exists_returns_search_iff`, `list_loop_iff`: the loops on directories that end;
* `returns_read_iff`: the clusters between which `read` copies;
* `completes_iff`: the calls that end without a division by zero (`FAT16.Settled`).
-/

namespace SmartOS

open Prog

/-- A call of `open`, `list` or `read`. -/
inductive Query
  | open (junk : ℕ → Junk) (lastSize : ℕ) (path : List Byte)
  | list (junk : ℕ → Junk) (entries : Mem) (lastSize : ℕ) (path : List Byte)
  | read (file : File) (dest size : ℕ) (buffer m : Mem)

def Query.operation : Query → Operation
  | .open junk lastSize path => .open junk lastSize path
  | .list junk entries lastSize path => .list junk entries lastSize path
  | .read file dest size buffer m => .read file dest size buffer m

namespace FAT16

variable (fs : FAT16) (disk : Disk)

/-- The call ends, and has not gone beyond a buffer. -/
def Terminates : Query → Prop
  | .open junk lastSize path =>
    ∃ file, Returns (fun n => fs.open disk junk lastSize path n) (some file)
  | .list junk entries lastSize path =>
    ∃ files, Returns (fun n => fs.list disk junk entries lastSize path n) (some files)
  | .read file dest size buffer m =>
    ∃ m', Returns (fun n => fs.read disk file dest size buffer m n) (some m')

/-- The call ends, and nothing is divided by zero. -/
def Completes (q : Query) : Prop :=
  fs.Terminates disk q ∧ ∀ fuel, .divide 0 ∉ fs.accesses disk fuel q.operation

/-- The chain of a directory comes to an end, or to a cluster with the name or an end marker. -/
def Settles (fatname : List Byte) (entries : Mem) (cluster : ℕ) : Prop :=
  ∃ n, ¬fs.Passes disk fatname entries ((fs.readFAT disk)^[n] cluster)

/-- The next component fits in `filename`, and is looked up in a chain that settles. -/
def WalkSettles (junk : ℕ → Junk) (w : Walk) : Prop :=
  ∃ name, localName (junk w.searches).tail w.component = some name ∧
    fs.Settles disk (filenameToFAT name) (junk w.searches).entries (w.cluster % 2 ^ 16)

/-- So does every component before a slash. -/
def PathSettles (junk : ℕ → Junk) (path : List Byte) (w : Walk) : Prop :=
  ∀ p q w', path = p ++ 0x2F :: q → fs.Leads disk junk p w (some w') → fs.WalkSettles disk junk w'

/-- The chain of a directory comes to its end, and all names in it fit in `fname`. -/
def ListSettles (entries : Mem) (cluster : ℕ) : Prop :=
  ∃ cs, fs.Chained disk cluster cs ∧
    ∀ c ∈ cs, ∀ e ∈ fs.scanned disk entries c, (fatToFilename e.name).length < 12

/-- The largest multiple of the size of a cluster, modulo `2 ^ 64`. -/
def lastMultiple : ℕ := 2 ^ 64 - Nat.gcd fs.clusterSize (2 ^ 64)

/-- The index, from `i` on, of the first cluster that does not end before the position, where the
    ends are taken modulo `2 ^ 64`. -/
def IndexOf (i position j : ℕ) : Prop :=
  IsLeast {j | i ≤ j ∧ position ≤ wrap ((j + 1) * fs.clusterSize)} j

/-- In the chain at `cluster`, that of the index `j` is first met `k` links behind that of `i`. -/
def LinksTo (cluster i j k : ℕ) : Prop :=
  IsLeast {k | (fs.readFAT disk)^[k + i] cluster = (fs.readFAT disk)^[j] cluster} k

/-- The last piece of a request, which is `k` clusters behind the first, lies within a cluster. -/
def LastFits (position endPos k : ℕ) : Prop :=
  fs.nextPos^[k] position % fs.clusterSize + wrapSub endPos (fs.nextPos^[k] position) ≤
    fs.clusterSize

/-- The calls that complete: the directories on the path settle, and what is listed comes to an end;
    the positions are not beyond all clusters, which are not empty, and what is left to be copied
    in the end lies within a cluster. -/
def Settled : Query → Prop
  | .open junk lastSize path =>
    fs.PathSettles disk junk (stripSlash path) ⟨0, [], 1, lastSize⟩ ∧
      ∀ w, fs.Leads disk junk (stripSlash path) ⟨0, [], 1, lastSize⟩ (some w) →
        fs.WalkSettles disk junk w
  | .list junk entries lastSize path =>
    fs.PathSettles disk junk (stripSlash path) ⟨0, [], 1, lastSize⟩ ∧
      ∀ w, fs.Leads disk junk (stripSlash path) ⟨0, [], 1, lastSize⟩ (some w) →
        fs.ListSettles disk entries w.cluster
  | .read file _ size _ _ =>
    1 ≤ fs.sectorsPerCluster ∧ file.position ≤ fs.lastMultiple ∧
      wrap (size + file.position) ≤ fs.lastMultiple ∧
      ∀ i j k, fs.IndexOf 0 file.position i → fs.IndexOf i (wrap (size + file.position)) j →
        fs.LinksTo disk file.cluster i j k →
          fs.LastFits file.position (wrap (size + file.position)) k

end FAT16

variable {fs : FAT16} {disk : Disk} {c cluster clusterIdx position size : ℕ}
  {fatname path : List Byte} {buffer entries m : Mem} {junk : ℕ → Junk} {w : Walk}

/-! ## Directories -/

theorem exists_returns_search_iff :
    (∃ r, Returns (fun n => fs.searchDirectory disk cluster fatname buffer n) r) ↔
      fs.Settles disk fatname buffer (cluster % 2 ^ 16) := by
  have hpasses {b : Mem} (h : fs.restEntries b = fs.restEntries buffer) (c : ℕ) :
      fs.Passes disk fatname b c ↔ fs.Passes disk fatname buffer c := passes_congr h
  refine @exists_returns_loop_iff _ _ _ (cluster % 2 ^ 16, buffer) _ Prod.fst (fs.readFAT disk)
    (fs.Passes disk fatname buffer) (fun s => fs.restEntries s.2 = fs.restEntries buffer)
    (fun s hs hP => ?_) (fun s hs hP => ?_) rfl
  · exact ⟨_, searchBody_of_passes ((hpasses hs s.1).2 hP), rfl,
      restEntries_readCluster.trans hs⟩
  · exact ⟨_, searchBody_of_not_passes fun h => hP ((hpasses hs s.1).1 h)⟩

theorem exists_returns_lookUp_iff :
    (∃ w', Returns (fun n => fs.lookUp disk junk w n) (some w')) ↔
      fs.WalkSettles disk junk w := by
  constructor
  · rintro ⟨w', hr⟩
    cases returns_lookUp_iff.1 hr with
    | search hname hsearch =>
      exact ⟨_, hname, exists_returns_search_iff.1 ⟨_, returns_searchDirectory_iff.2 hsearch⟩⟩
  · rintro ⟨name, hname, h⟩
    obtain ⟨r, hr⟩ := exists_returns_search_iff.2 h
    exact ⟨_, returns_lookUp_iff.2 (.search hname (returns_searchDirectory_iff.1 hr))⟩

/-- What holds of all components before a slash that are looked up: a character is part of one, -/
theorem forall_slash_char {Q : Walk → Prop} {b : Byte} (hb : b ≠ 0x2F) :
    (∀ p q w', b :: path = p ++ 0x2F :: q → fs.Leads disk junk p w (some w') → Q w') ↔
      ∀ p q w', path = p ++ 0x2F :: q →
        fs.Leads disk junk p { w with component := w.component ++ [b] } (some w') → Q w' := by
  constructor
  · intro h p q w' hpath hleads
    exact h (b :: p) q w' (by rw [hpath, List.cons_append]) (.char hb hleads)
  · intro h p q w' hpath hleads
    cases p with
    | nil => exact absurd (List.cons.inj hpath).1 hb
    | cons b' p =>
      obtain ⟨rfl, htail⟩ := List.cons.inj hpath
      cases hleads with
      | char _ hleads => exact h p q w' htail hleads
      | slash _ _ => exact absurd rfl hb

/-- and a slash is the end of one. -/
theorem forall_slash_slash {Q : Walk → Prop} :
    (∀ p q w', 0x2F :: path = p ++ 0x2F :: q → fs.Leads disk junk p w (some w') → Q w') ↔
      Q w ∧ ∀ w', fs.LooksUp disk junk w (some w') →
        ∀ p q w'', path = p ++ 0x2F :: q → fs.Leads disk junk p w' (some w'') → Q w'' := by
  constructor
  · refine fun h => ⟨h [] path w rfl .done, fun w' hlook p q w'' hpath hleads => ?_⟩
    exact h (0x2F :: p) q w'' (by rw [hpath, List.cons_append]) (.slash hlook hleads)
  · rintro ⟨hw, hrest⟩ p q w' hpath hleads
    cases p with
    | nil =>
      cases hleads with
      | done => exact hw
    | cons b p =>
      obtain ⟨rfl, htail⟩ := List.cons.inj hpath
      cases hleads with
      | char hb _ => exact absurd rfl hb
      | slash hlook hleads => exact hrest _ hlook p q w' htail hleads

theorem pathSettles_char {b : Byte} (hb : b ≠ 0x2F) : fs.PathSettles disk junk (b :: path) w ↔
    fs.PathSettles disk junk path { w with component := w.component ++ [b] } :=
  forall_slash_char hb

theorem pathSettles_slash : fs.PathSettles disk junk (0x2F :: path) w ↔
    fs.WalkSettles disk junk w ∧
      ∀ w', fs.LooksUp disk junk w (some w') → fs.PathSettles disk junk path w' :=
  forall_slash_slash

theorem exists_returns_walk_iff :
    (∃ w', Returns (fun n => fs.walk disk junk n path w) (some w')) ↔
      fs.PathSettles disk junk path w := by
  simp only [returns_walk_iff]
  induction path generalizing w with
  | nil =>
    exact iff_of_true ⟨_, .done⟩ fun p q w' hpath _ => absurd hpath.symm
      (List.append_ne_nil_of_right_ne_nil p (List.cons_ne_nil _ q))
  | cons b path ih =>
    by_cases hb : b = 0x2F
    · subst hb
      rw [pathSettles_slash, ← exists_returns_lookUp_iff]
      simp only [returns_lookUp_iff, ← ih]
      constructor
      · rintro ⟨w', h⟩
        cases h with
        | char hb _ => exact absurd rfl hb
        | slash hlook hleads =>
          exact ⟨⟨_, hlook⟩, fun w₁ hlook' =>
            ⟨w', Option.some.inj (looksUp_unique hlook hlook') ▸ hleads⟩⟩
      · rintro ⟨⟨w₁, hlook⟩, hrest⟩
        obtain ⟨w', hleads⟩ := hrest w₁ hlook
        exact ⟨w', .slash hlook hleads⟩
    · rw [pathSettles_char hb, ← ih]
      constructor
      · rintro ⟨w', h⟩
        cases h with
        | char _ h => exact ⟨w', h⟩
        | slash _ _ => exact absurd rfl hb
      · rintro ⟨w', h⟩
        exact ⟨w', .char hb h⟩

/-- What is done after a path is looked up ends, if that does. -/
theorem exists_returns_path_iff {α : Type} {g : Walk → ℕ → Option (Option α)}
    (hg : ∀ w, Steady (g w)) :
    (∃ a, Returns (fun n => andThen (fs.walk disk junk n path w) fun w => g w n) (some a)) ↔
      fs.PathSettles disk junk path w ∧
        ∀ w', fs.Leads disk junk path w (some w') → ∃ a, Returns (g w') (some a) := by
  constructor
  · rintro ⟨a, h⟩
    obtain ⟨w₁, hw, hr⟩ := steady_walk.of_andThen hg h
    refine ⟨exists_returns_walk_iff.1 ⟨w₁, hw⟩, fun w' hleads => ?_⟩
    obtain rfl := Option.some.inj (hw.unique (returns_walk_iff.2 hleads))
    exact ⟨a, hr⟩
  · rintro ⟨hpath, hafter⟩
    obtain ⟨w', hw⟩ := exists_returns_walk_iff.2 hpath
    obtain ⟨a, ha⟩ := hafter w' (returns_walk_iff.1 hw)
    exact ⟨a, hw.andThen ha⟩

/-! ## Reading -/

/-- How far the loops of `read` have counted. -/
theorem iterate_count (n i d : ℕ) :
    wrap (((fun i => wrap (i + 1))^[n] i + 1) * d) = wrap ((i + n + 1) * d) := by
  induction n generalizing i with
  | zero => rfl
  | succ n ih =>
    rw [Function.iterate_succ_apply, ih]
    simp only [wrap_eq_mod]
    rw [← Nat.mod_mul_mod, Nat.add_assoc _ n 1, Nat.mod_add_mod, Nat.mod_mul_mod]
    congr 2
    omega

theorem iterate_follow (n : ℕ) (s : ℕ × ℕ) : (fs.follow disk)^[n] s =
    ((fs.readFAT disk)^[n] s.1, (fun i => wrap (i + 1))^[n] s.2) := by
  induction n generalizing s with
  | zero => rfl
  | succ n ih => exact ih _

theorem beyond_iterate (n : ℕ) : fs.beyond position ((fs.follow disk)^[n] (cluster, 0)) = false ↔
    position ≤ wrap ((n + 1) * fs.clusterSize) := by
  rw [iterate_follow, FAT16.beyond, iterate_count, Nat.zero_add, decide_eq_false_iff_not,
    gt_iff_lt, Nat.not_lt]

/-- A loop that goes along the chain stops at the first cluster that does not end too early. -/
theorem returns_follow_iff {i : ℕ} {t : ℕ × ℕ} :
    Returns (fun n => loop (whileDo (fs.beyond position) (fs.follow disk)) n
        ((fs.follow disk)^[i] (cluster, 0))) t ↔
      ∃ j, fs.IndexOf i position j ∧ t = (fs.follow disk)^[j] (cluster, 0) := by
  rw [returns_whileDo_iff]
  simp only [← Function.iterate_add_apply, beyond_iterate]
  constructor
  · rintro ⟨d, ⟨hd, hmin⟩, rfl⟩
    refine ⟨d + i, ⟨⟨Nat.le_add_left i d, hd⟩, fun j ⟨hij, hj⟩ => ?_⟩, rfl⟩
    have := hmin (show position ≤ wrap ((j - i + i + 1) * fs.clusterSize) by
      rwa [Nat.sub_add_cancel hij])
    omega
  · rintro ⟨j, ⟨⟨hij, hj⟩, hmin⟩, rfl⟩
    refine ⟨j - i, ⟨?_, fun d hd => ?_⟩, by rw [Nat.sub_add_cancel hij]⟩
    · show position ≤ _
      rwa [Nat.sub_add_cancel hij]
    · have := hmin ⟨Nat.le_add_left i d, hd⟩
      omega

theorem iterate_readStep_cluster (k dest : ℕ) (s : FAT16.CopyState) :
    ((fs.readStep disk dest)^[k] s).cluster = (fs.readFAT disk)^[k] s.cluster := by
  induction k generalizing s with
  | zero => rfl
  | succ k ih => exact ih _

theorem iterate_readStep_readPos (k dest : ℕ) (s : FAT16.CopyState) :
    ((fs.readStep disk dest)^[k] s).readPos = fs.nextPos^[k] s.readPos := by
  induction k generalizing s with
  | zero => rfl
  | succ k ih => exact ih _

/-- The clusters from which and to which `read` copies, and how many links lie between them. -/
theorem returns_read_iff {file : File} {dest : ℕ} {r : Option Mem} :
    Returns (fun n => fs.read disk file dest size buffer m n) r ↔
      ∃ i j k, fs.IndexOf 0 file.position i ∧ fs.IndexOf i (wrap (size + file.position)) j ∧
        fs.LinksTo disk file.cluster i j k ∧
        r = fs.readLast disk dest (wrap (size + file.position)) ((fs.readStep disk dest)^[k]
          ⟨(fs.readFAT disk)^[i] file.cluster, file.position, 0, buffer, m⟩) := by
  have hcopy (start last : ℕ) (t : FAT16.CopyState) :
      Returns (fun n => loop (whileDo (·.cluster != last) (fs.readStep disk dest)) n
          ⟨start, file.position, 0, buffer, m⟩) t ↔
        ∃ k, IsLeast {k | (fs.readFAT disk)^[k] start = last} k ∧
          (fs.readStep disk dest)^[k] ⟨start, file.position, 0, buffer, m⟩ = t := by
    rw [returns_whileDo_iff]
    simp only [bne_eq_false_iff_eq, iterate_readStep_cluster]
  simp only [FAT16.read]
  constructor
  · intro h
    have hsteady (start last : ℕ × ℕ) := (steady_loop
      (whileDo (·.cluster != last.1) (fs.readStep disk dest))
      ⟨start.1, file.position, 0, buffer, m⟩).bind fun s =>
        steady_pure (some (fs.readLast disk dest (wrap (size + file.position)) s))
    obtain ⟨start, hstart, h⟩ :=
      (steady_loop _ _).of_bind (fun start => (steady_loop _ _).bind (hsteady start)) h
    obtain ⟨last, hlast, h⟩ := (steady_loop _ _).of_bind (hsteady start) h
    obtain ⟨s, hs, h⟩ := (steady_loop _ _).of_bind (fun _ => steady_pure _) h
    obtain ⟨i, hi, rfl⟩ := (@returns_follow_iff fs disk file.cluster _ 0 _).1 hstart
    obtain ⟨j, hj, rfl⟩ := returns_follow_iff.1 hlast
    simp only [iterate_follow] at hs
    obtain ⟨k, hk, rfl⟩ := (hcopy _ _ _).1 hs
    simp only [← Function.iterate_add_apply] at hk
    exact ⟨i, j, k, hi, hj, hk, (Returns.pure _).unique h |>.symm⟩
  · rintro ⟨i, j, k, hi, hj, hk, rfl⟩
    have hstart := (@returns_follow_iff fs disk file.cluster _ 0 _).2 ⟨i, hi, rfl⟩
    have hlast := (@returns_follow_iff fs disk file.cluster _ i _).2 ⟨j, hj, rfl⟩
    have hfirst : (fs.readFAT disk)^[i] file.cluster =
        ((fs.follow disk)^[i] (file.cluster, 0)).1 := by rw [iterate_follow]
    rw [hfirst]
    refine hstart.bind (hlast.bind (((hcopy _ _ _).2 ⟨k, ?_, rfl⟩).bind (.pure _)))
    simp only [iterate_follow, ← Function.iterate_add_apply]
    exact hk

theorem exists_indexOf_iff {i : ℕ} :
    (∃ j, fs.IndexOf i position j) ↔ position ≤ fs.lastMultiple := by
  rw [FAT16.lastMultiple, ← @exists_le_wrap_mul_iff position fs.clusterSize (i + 1)]
  constructor
  · rintro ⟨j, ⟨hij, hj⟩, -⟩
    exact ⟨j + 1, Nat.succ_le_succ hij, hj⟩
  · rintro ⟨j, hij, hj⟩
    obtain ⟨j, rfl⟩ : ∃ j', j = j' + 1 := ⟨j - 1, by omega⟩
    exact ⟨_, isLeast_csInf ⟨j, Nat.le_of_succ_le_succ hij, hj⟩⟩

theorem exists_returns_read_iff {file : File} {dest : ℕ} :
    (∃ m', Returns (fun n => fs.read disk file dest size buffer m n) (some m')) ↔
      file.position ≤ fs.lastMultiple ∧ wrap (size + file.position) ≤ fs.lastMultiple ∧
        ∀ i j k, fs.IndexOf 0 file.position i → fs.IndexOf i (wrap (size + file.position)) j →
          fs.LinksTo disk file.cluster i j k →
            fs.LastFits file.position (wrap (size + file.position)) k := by
  simp only [returns_read_iff, FAT16.readLast, iterate_readStep_readPos]
  constructor
  · rintro ⟨m', i, j, k, hi, hj, hk, heq⟩
    refine ⟨exists_indexOf_iff.1 ⟨i, hi⟩, exists_indexOf_iff.1 ⟨j, hj⟩,
      fun i' j' k' hi' hj' hk' => ?_⟩
    obtain rfl := hi.unique hi'
    obtain rfl := hj.unique hj'
    obtain rfl := hk.unique hk'
    by_contra hfits
    exact nomatch heq.trans (if_neg hfits)
  · rintro ⟨hposition, hend, hfits⟩
    obtain ⟨i, hi⟩ := (@exists_indexOf_iff fs _ 0).2 hposition
    obtain ⟨j, hj⟩ := (@exists_indexOf_iff fs _ i).2 hend
    -- At the latest, the last cluster is met where it has been found.
    obtain ⟨k, hk⟩ : ∃ k, fs.LinksTo disk file.cluster i j k :=
      ⟨_, isLeast_csInf ⟨j - i, congrArg (fun n => (fs.readFAT disk)^[n] file.cluster)
        (Nat.sub_add_cancel hj.1.1)⟩⟩
    exact ⟨_, i, j, k, hi, hj, hk, (if_pos (hfits i j k hi hj hk)).symm⟩

/-! ## Divisions -/

theorem divide_ne_readFAT (entry : ℕ) : ∀ a ∈ FAT16.readFATAccesses entry, a ≠ .divide 0 := by
  rw [FAT16.readFATAccesses, List.forall_mem_cons, List.forall_mem_singleton]
  exact ⟨Access.noConfusion, Access.noConfusion⟩

/-- A call of `read` that ends divides by the size of a cluster. -/
theorem divide_mem_read {file : File} {dest : ℕ} {r : Option Mem}
    (h : Returns (fun n => fs.read disk file dest size buffer m n) r) :
    ∃ n, .divide fs.clusterSize ∈ fs.readAccesses disk file dest size buffer m n := by
  obtain ⟨n, hn⟩ := h.exists_fuel
  simp only [FAT16.read] at hn
  obtain ⟨start, hstart, hn⟩ := Option.bind_eq_some_iff.1 hn
  obtain ⟨last, hlast, hn⟩ := Option.bind_eq_some_iff.1 hn
  obtain ⟨s, hs, -⟩ := Option.bind_eq_some_iff.1 hn
  exact ⟨n, mem_loopLog hstart (mem_loopLog hlast (mem_loopLog hs
    (List.mem_append_right _ (List.mem_singleton_self _))))⟩

/-! ## The whole -/

theorem divide_ne_entries : ∀ a ∈ fs.clusterAccesses fs.entriesSize, a ≠ .divide 0 :=
  List.forall_mem_singleton.2 Access.noConfusion

/-- The last component is looked up after the walk. -/
theorem completes_open_iff {lastSize : ℕ} : fs.Completes disk (.open junk lastSize path) ↔
    fs.Settled disk (.open junk lastSize path) := by
  have hdivide (n : ℕ) : .divide 0 ∉ fs.openAccesses disk junk lastSize path n := fun h =>
    forall_walk divide_ne_readFAT divide_ne_entries
      (fun _ => forall_lookUp divide_ne_readFAT divide_ne_entries) _ h rfl
  have hopen (w : Walk) : Steady fun n => andThen (fs.lookUp disk junk w n) fun w =>
      some (some (⟨⟨0, w.lastSize, w.cluster⟩, stripSlash path⟩ : NamedFile)) :=
    steady_lookUp.andThen fun _ => steady_pure _
  refine (and_iff_left hdivide).trans ((exists_returns_path_iff hopen).trans ?_)
  refine and_congr_right fun _ => forall₂_congr fun w _ => ?_
  rw [← exists_returns_lookUp_iff]
  constructor
  · rintro ⟨file, hr⟩
    obtain ⟨w', hlook, -⟩ := steady_lookUp.of_andThen (fun _ => steady_pure _) hr
    exact ⟨w', hlook⟩
  · rintro ⟨w', hlook⟩
    exact ⟨_, hlook.andThen (.pure _)⟩

/-- The directory is listed after the walk. -/
theorem completes_list_iff {entries : Mem} {lastSize : ℕ} :
    fs.Completes disk (.list junk entries lastSize path) ↔
      fs.Settled disk (.list junk entries lastSize path) := by
  have hdivide (n : ℕ) : .divide 0 ∉ fs.listAccesses disk junk entries lastSize path n := fun h =>
    forall_walk divide_ne_readFAT divide_ne_entries
      (fun _ => forall_directoryLoop divide_ne_readFAT divide_ne_entries) _ h rfl
  refine (and_iff_left hdivide).trans
    ((exists_returns_path_iff fun w => steady_loop _ _).trans ?_)
  refine and_congr_right fun _ => forall₂_congr fun w _ => ?_
  simp only [list_loop_iff]
  constructor
  · rintro ⟨files, cs, hchain, hfits, -⟩
    exact ⟨cs, hchain, hfits⟩
  · rintro ⟨cs, hchain, hfits⟩
    exact ⟨_, cs, hchain, hfits, rfl⟩

theorem completes_read_iff {file : File} {dest size : ℕ} :
    fs.Completes disk (.read file dest size buffer m) ↔
      fs.Settled disk (.read file dest size buffer m) := by
  have hends : fs.Terminates disk (.read file dest size buffer m) ↔ _ := exists_returns_read_iff
  constructor
  · rintro ⟨h, hdivide⟩
    -- A read that ends has divided by the size of a cluster.
    obtain ⟨m', hr⟩ := h
    obtain ⟨n, hn⟩ := divide_mem_read hr
    refine ⟨Nat.pos_of_ne_zero fun hzero => hdivide n ?_, hends.1 ⟨m', hr⟩⟩
    rwa [FAT16.clusterSize, hzero, Nat.zero_mul] at hn
  · rintro ⟨hspc, hpositions⟩
    have hcluster : ∀ a ∈ fs.readAccesses₁, a ≠ .divide 0 := by
      refine List.forall_mem_append.2 ⟨List.forall_mem_singleton.2 Access.noConfusion,
        List.forall_mem_singleton.2 fun h => ?_⟩
      rw [Access.divide.injEq, FAT16.clusterSize] at h
      omega
    exact ⟨hends.2 hpositions, fun n h => forall_read divide_ne_readFAT hcluster _ h rfl⟩

/-- The calls that end without a division by zero. -/
theorem completes_iff (fs : FAT16) (disk : Disk) (q : Query) :
    fs.Completes disk q ↔ fs.Settled disk q := by
  cases q with
  | «open» junk lastSize path => exact completes_open_iff
  | list junk entries lastSize path => exact completes_list_iff
  | read file dest size buffer m => exact completes_read_iff

/-- What `FAT16.Completes` says, of all calls on all disks. -/
def AllComplete : Prop :=
  ∀ (disk : Disk) (offset : ℕ) (q : Query), (FAT16.new disk offset).Completes disk q

/-- With clusters of no sectors, the second loop of `read` never ends. -/
theorem not_allComplete : ¬AllComplete := by
  intro hall
  have h := (hall (fun _ => 0) 0 (.read ⟨0, 0, 2⟩ 0 1 (fun _ => 0) fun _ => 0)).1
  have hle := (exists_returns_read_iff.1 h).2.1
  rw [wrap_of_lt (by decide)] at hle
  exact absurd hle (by decide)

end SmartOS
