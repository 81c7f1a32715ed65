import SmartOS.FAT16.Files

/-!
# Links that are followed

`read` follows the links of a file as far as the position and the size of the
request say, and does not look at what they are: behind the last cluster of the
file, the value that marks the end is taken for a cluster, read, and followed.

* `FAT16.readClusters`: the clusters that `read` passes to `readFAT` and
  `readCluster`, whether it returns or not;
* `followsLinks_of_le`: they are those of the file up to that of the last byte;
* `end_mem_followClusters`, `end_mem_readClusters`: beyond the last cluster, the walks
  come to the end of the chain;
* `followsLinks_iff`: so `read` keeps to the file exactly when the request does.
-/

namespace SmartOS

open Prog

namespace FAT16

variable (fs : FAT16) (disk : Disk)

/-! ## Specification -/

/-- The numbers of data clusters. Others are for free and bad clusters, and for the end. -/
def IsDataCluster (c : ℕ) : Prop := 2 ≤ c ∧ c < 0xFFF7

/-- The value that the `i`-th link from the cluster `first` leads to. -/
def chainFrom (first i : ℕ) : ℕ := (fs.readFAT disk)^[i] first

/-- The file that starts in the cluster `first` has a chain of `n` data clusters. -/
structure FileChain (first n : ℕ) : Prop where
  data : ∀ i < n, IsDataCluster (fs.chainFrom disk first i)
  ends : ¬IsDataCluster (fs.chainFrom disk first n)

/-- The first or the second loop of `read`, and what comes `after` it. -/
def followClusters (position : ℕ) (after : ℕ × ℕ → List ℕ) (fuel : ℕ) (s : ℕ × ℕ) : List ℕ :=
  loopLog (whileDo (fs.beyond position) (fs.follow disk))
    (fun s => if fs.beyond position s then [s.1] else []) after fuel s

/-- The copy loop of `read`, and the last cluster. -/
def copyClusters (dest last fuel : ℕ) (s : CopyState) : List ℕ :=
  loopLog (whileDo (·.cluster != last) (fs.readStep disk dest))
    (fun s => if s.cluster != last then [s.cluster, s.cluster] else []) (fun s => [s.cluster])
    fuel s

/-- The clusters that `read` passes to `readFAT` and `readCluster`, in at most `fuel` rounds of each
    of its loops. -/
def readClusters (file : File) (dest size : ℕ) (buffer m : Mem) (fuel : ℕ) : List ℕ :=
  fs.followClusters disk file.position (fun start =>
    fs.followClusters disk (wrap (size + file.position)) (fun last =>
      fs.copyClusters disk dest last.1 fuel ⟨start.1, file.position, 0, buffer, m⟩) fuel start)
    fuel (file.cluster, 0)

/-- All of them are clusters of the file, which has `n`. -/
def FollowsLinks (file : File) (n dest size : ℕ) (buffer m : Mem) : Prop :=
  ∀ fuel, ∀ c ∈ fs.readClusters disk file dest size buffer m fuel,
    ∃ i < n, c = fs.chainFrom disk file.cluster i

end FAT16

variable {fs : FAT16} {disk : Disk} {n i j k dest size position endPos fuel last : ℕ} {file : File}
  {buffer m : Mem} {s : FAT16.CopyState}

theorem chainFrom_succ {first : ℕ} :
    fs.chainFrom disk first (i + 1) = fs.readFAT disk (fs.chainFrom disk first i) :=
  Function.iterate_succ_apply' _ _ _

theorem FAT16.FileChain.ne {first : ℕ} (h : fs.FileChain disk first n) (hij : i < j) (hj : j ≤ n) :
    fs.chainFrom disk first i ≠ fs.chainFrom disk first j := by
  intro heq
  -- From equal clusters on, the rest of the chain is the same, but it ends only once.
  have hends := h.ends
  have hdata := h.data (n - j + i) (by omega)
  rw [FAT16.chainFrom, Function.iterate_add_apply] at hdata
  rw [FAT16.chainFrom, show n = n - j + j by omega, Function.iterate_add_apply] at hends
  rw [FAT16.chainFrom, FAT16.chainFrom] at heq
  rw [heq] at hdata
  exact hends hdata

/-- It is a chain of its clusters. -/
theorem FAT16.FileChain.chain {first : ℕ} (h : fs.FileChain disk first n) :
    fs.Chain disk (fs.chainFrom disk first) n where
  next _ _ := chainFrom_succ.symm
  inj i hi j hj heq := by
    rcases Nat.lt_trichotomy i j with hlt | rfl | hlt
    · exact absurd heq (h.ne hlt hj.le)
    · rfl
    · exact absurd heq.symm (h.ne hlt hi.le)
  lt i hi := (h.data i hi).2.trans (by decide)

/-! ## Within the file -/

section

variable (h : fs.FileChain disk file.cluster n)
include h

/-- Where a walk goes on, it is not at the end of its position. -/
theorem succ_lt_of_beyond (hle : position ≤ n * fs.clusterSize) (hi : i < n)
    (hbeyond : fs.beyond position (fs.chainFrom disk file.cluster i, i) = true) : i + 1 < n := by
  rw [FAT16.beyond, wrap_of_lt (h.chain.mul_lt (by omega)), decide_eq_true_eq] at hbeyond
  by_contra hnot
  have := Nat.mul_le_mul_right fs.clusterSize (by omega : n ≤ i + 1)
  omega

/-- A step of a walk. -/
theorem whileDo_follow (hi : i ≤ n)
    (hbeyond : fs.beyond position (fs.chainFrom disk file.cluster i, i) = true) :
    whileDo (fs.beyond position) (fs.follow disk) (fs.chainFrom disk file.cluster i, i) =
      .inl (fs.chainFrom disk file.cluster (i + 1), i + 1) := by
  have hn := h.chain.length_le
  rw [whileDo, if_pos hbeyond, FAT16.follow, chainFrom_succ, wrap_of_lt (by omega)]

/-- The walk to a position in the file. -/
theorem forall_followClusters {P : ℕ → Prop} {after : ℕ × ℕ → List ℕ}
    (hle : position ≤ n * fs.clusterSize) (hi : i < n)
    (hchain : ∀ j < n, P (fs.chainFrom disk file.cluster j))
    (hafter : ∀ j, i ≤ j → j < n → ∀ c ∈ after (fs.chainFrom disk file.cluster j, j), P c) :
    ∀ c ∈ fs.followClusters disk position after fuel (fs.chainFrom disk file.cluster i, i),
      P c := by
  -- The index that a walk counts up is that of its cluster in the chain.
  refine forall_loopLog
    (fun s : ℕ × ℕ => ∃ j, i ≤ j ∧ j < n ∧ s = (fs.chainFrom disk file.cluster j, j))
    ?_ ?_ ?_ ⟨i, le_rfl, hi, rfl⟩
  · rintro _ ⟨j, -, hj, rfl⟩
    split_ifs
    · exact List.forall_mem_singleton.2 (hchain j hj)
    · exact fun c hc => absurd hc List.not_mem_nil
  · rintro _ s' ⟨j, hij, hj, rfl⟩ hbody
    by_cases hbeyond : fs.beyond position (fs.chainFrom disk file.cluster j, j) = true
    · rw [whileDo_follow h hj.le hbeyond] at hbody
      cases hbody
      exact ⟨j + 1, by omega, succ_lt_of_beyond h hle hj hbeyond, rfl⟩
    · rw [whileDo, if_neg hbeyond] at hbody
      cases hbody
  · rintro _ s' ⟨j, hij, hj, rfl⟩ hbody
    rw [whileDo] at hbody
    split_ifs at hbody
    cases hbody
    exact hafter j hij hj

omit h in
/-- The copy loop, up to a cluster of the file. -/
theorem forall_copyClusters {P : ℕ → Prop} (hij : i ≤ j) (hj : j < n)
    (hchain : ∀ j < n, P (fs.chainFrom disk file.cluster j))
    (hs : s.cluster = fs.chainFrom disk file.cluster i) :
    ∀ c ∈ fs.copyClusters disk dest (fs.chainFrom disk file.cluster j) fuel s, P c := by
  -- The copy loop does not go beyond the cluster that it is to stop at.
  refine forall_loopLog
    (fun s : FAT16.CopyState => ∃ k, k ≤ j ∧ s.cluster = fs.chainFrom disk file.cluster k)
    ?_ ?_ ?_ ⟨i, hij, hs⟩
  · rintro s ⟨k, hk, hs⟩
    have hP := hchain k (by omega)
    rw [hs]
    split_ifs
    · exact List.forall_mem_cons.2 ⟨hP, List.forall_mem_singleton.2 hP⟩
    · exact fun c hc => absurd hc List.not_mem_nil
  · rintro s s' ⟨k, hk, hs⟩ hbody
    rw [whileDo] at hbody
    split_ifs at hbody with hne
    cases hbody
    rw [hs, bne_iff_ne] at hne
    have hkj : k ≠ j := fun heq => hne (heq ▸ rfl)
    refine ⟨k + 1, by omega, ?_⟩
    rw [chainFrom_succ, ← hs]
    rfl
  · rintro s s' ⟨k, hk, hs⟩ hbody
    rw [whileDo] at hbody
    split_ifs at hbody
    cases hbody
    exact List.forall_mem_singleton.2 (hs ▸ hchain k (by omega))

theorem followsLinks_of_le (hn : 0 < n) (hposition : file.position ≤ n * fs.clusterSize)
    (hendPos : wrap (size + file.position) ≤ n * fs.clusterSize) :
    fs.FollowsLinks disk file n dest size buffer m := by
  intro fuel
  have hchain : ∀ j < n, ∃ i < n, fs.chainFrom disk file.cluster j =
      fs.chainFrom disk file.cluster i := fun j hj => ⟨j, hj, rfl⟩
  refine forall_followClusters h hposition hn hchain fun i _ hi => ?_
  refine forall_followClusters h hendPos hi hchain fun j hij hj => ?_
  exact forall_copyClusters hij hj hchain rfl

end

/-! ## Beyond the file -/

section

variable (h : fs.FileChain disk file.cluster n)
include h

/-- The copy loop that is to go to the end of the chain does so, and reads it for a cluster. -/
theorem end_mem_copyClusters (hi : i ≤ n) (hfuel : n - i < fuel)
    (hs : s.cluster = fs.chainFrom disk file.cluster i) :
    fs.chainFrom disk file.cluster n ∈
      fs.copyClusters disk dest (fs.chainFrom disk file.cluster n) fuel s := by
  -- By induction on the links that are left: no cluster before the end is the end.
  induction hd : n - i generalizing i s fuel with
  | zero =>
    obtain rfl : i = n := by omega
    obtain ⟨fuel, rfl⟩ := Nat.exists_eq_succ_of_ne_zero (by omega : fuel ≠ 0)
    have hbody : whileDo (·.cluster != fs.chainFrom disk file.cluster i) (fs.readStep disk dest) s =
        .inr s := by rw [whileDo, hs, bne_self_eq_false, if_neg Bool.false_ne_true]
    exact mem_loopLog_exit hbody (List.mem_singleton.2 hs.symm)
  | succ d ih =>
    obtain ⟨fuel, rfl⟩ := Nat.exists_eq_succ_of_ne_zero (by omega : fuel ≠ 0)
    have hne := h.ne (by omega : i < n) le_rfl
    have hbody : whileDo (·.cluster != fs.chainFrom disk file.cluster n) (fs.readStep disk dest) s =
        .inl (fs.readStep disk dest s) := by rw [whileDo, hs, if_pos (bne_iff_ne.2 hne)]
    refine mem_loopLog_next hbody (ih (i := i + 1) (by omega) (by omega) ?_ (by omega))
    rw [chainFrom_succ, ← hs]
    rfl

/-- A walk to a position beyond the file comes to the end of the chain, and follows it or leaves it
    to what comes after. -/
theorem end_mem_followClusters {after : ℕ × ℕ → List ℕ} (hi : i ≤ n) (hfuel : n - i < fuel)
    (hposition : i = n ∨ n * fs.clusterSize < position)
    (hafter : fs.chainFrom disk file.cluster n ∈ after (fs.chainFrom disk file.cluster n, n)) :
    fs.chainFrom disk file.cluster n ∈
      fs.followClusters disk position after fuel (fs.chainFrom disk file.cluster i, i) := by
  induction hd : n - i generalizing i fuel with
  | zero =>
    obtain rfl : i = n := by omega
    obtain ⟨fuel, rfl⟩ := Nat.exists_eq_succ_of_ne_zero (by omega : fuel ≠ 0)
    by_cases hbeyond : fs.beyond position (fs.chainFrom disk file.cluster i, i) = true
    · refine mem_loopLog_first ?_
      rw [if_pos hbeyond]
      exact List.mem_singleton_self _
    · exact mem_loopLog_exit (if_neg hbeyond) hafter
  | succ d ih =>
    obtain ⟨fuel, rfl⟩ := Nat.exists_eq_succ_of_ne_zero (by omega : fuel ≠ 0)
    have hlt := hposition.resolve_left (by omega)
    have hmul := Nat.mul_le_mul_right fs.clusterSize (by omega : i + 1 ≤ n)
    have hbeyond : fs.beyond position (fs.chainFrom disk file.cluster i, i) = true := by
      rw [FAT16.beyond, wrap_of_lt (h.chain.mul_lt (by omega)), decide_eq_true_eq]
      omega
    exact mem_loopLog_next (whileDo_follow h hi hbeyond)
      (ih (by omega) (by omega) (.inr hlt) (by omega))

/-- A walk within the file leaves it to what comes after. -/
theorem mem_followClusters {a : ℕ} {after : ℕ × ℕ → List ℕ} (hle : position ≤ n * fs.clusterSize)
    (hi : i < n) (hfuel : n - i < fuel)
    (hafter : ∀ j < n, a ∈ after (fs.chainFrom disk file.cluster j, j)) :
    a ∈ fs.followClusters disk position after fuel (fs.chainFrom disk file.cluster i, i) := by
  induction hd : n - i generalizing i fuel with
  | zero => omega
  | succ d ih =>
    obtain ⟨fuel, rfl⟩ := Nat.exists_eq_succ_of_ne_zero (by omega : fuel ≠ 0)
    by_cases hbeyond : fs.beyond position (fs.chainFrom disk file.cluster i, i) = true
    · exact mem_loopLog_next (whileDo_follow h hi.le hbeyond)
        (ih (succ_lt_of_beyond h hle hi hbeyond) (by omega) (by omega))
    · exact mem_loopLog_exit (if_neg hbeyond) (hafter i hi)

theorem end_mem_readClusters (hbeyond : n = 0 ∨ n * fs.clusterSize < file.position ∨
      n * fs.clusterSize < wrap (size + file.position)) :
    fs.chainFrom disk file.cluster n ∈
      fs.readClusters disk file dest size buffer m (n + 1) := by
  have hsecond (i : ℕ) (hi : i ≤ n)
      (hposition : i = n ∨ n * fs.clusterSize < wrap (size + file.position)) :
      fs.chainFrom disk file.cluster n ∈
        fs.followClusters disk (wrap (size + file.position)) (fun last =>
          fs.copyClusters disk dest last.1 (n + 1)
            ⟨fs.chainFrom disk file.cluster i, file.position, 0, buffer, m⟩) (n + 1)
          (fs.chainFrom disk file.cluster i, i) :=
    end_mem_followClusters h hi (by omega) hposition
      (end_mem_copyClusters h hi (by omega) rfl)
  have hfirst : n = 0 ∨ n * fs.clusterSize < file.position →
      fs.chainFrom disk file.cluster n ∈
        fs.readClusters disk file dest size buffer m (n + 1) := fun hposition =>
    end_mem_followClusters h (Nat.zero_le n) (by omega) (hposition.imp_left Eq.symm)
      (hsecond n le_rfl (.inl rfl))
  -- The request starts beyond the file, or it starts in it and ends beyond.
  rcases hbeyond with hn | hposition | hendPos
  · exact hfirst (.inl hn)
  · exact hfirst (.inr hposition)
  · by_cases hposition : n = 0 ∨ n * fs.clusterSize < file.position
    · exact hfirst hposition
    · rw [not_or] at hposition
      exact mem_followClusters h (Nat.not_lt.1 hposition.2) (Nat.pos_of_ne_zero hposition.1)
        (by omega) fun j hj => hsecond j hj.le (.inr hendPos)

/-- The clusters that `read` follows and reads are those of the file exactly when the file has any,
    and neither the position nor the end of the request is beyond the last one. -/
theorem followsLinks_iff : fs.FollowsLinks disk file n dest size buffer m ↔
    0 < n ∧ file.position ≤ n * fs.clusterSize ∧
      wrap (size + file.position) ≤ n * fs.clusterSize := by
  constructor
  · intro hfollows
    by_contra hnot
    obtain ⟨i, hi, heq⟩ := hfollows (n + 1) _ (end_mem_readClusters h (by omega))
    exact h.ne hi le_rfl heq.symm
  · exact fun ⟨hn, hposition, hendPos⟩ => followsLinks_of_le h hn hposition hendPos

end

/-- A volume with clusters of one sector, on which a file ends with cluster 2. -/
def oneCluster : Disk := fun x =>
  match x with
  | 13 => 1
  | 14 => 1
  | 516 => 0xFF
  | 517 => 0xFF
  | _ => 0

theorem fileChain_oneCluster : (FAT16.new oneCluster 0).FileChain oneCluster 2 1 where
  data i hi := by
    obtain rfl : i = 0 := by omega
    exact ⟨le_rfl, by decide⟩
  ends h := by
    have hend : (FAT16.new oneCluster 0).readFAT oneCluster 2 = 0xFFFF := by decide +kernel
    have hlt := h.2
    rw [FAT16.chainFrom, Function.iterate_one, hend] at hlt
    exact absurd hlt (by decide)

/-- The whole file. -/
theorem followsLinks_oneCluster : (FAT16.new oneCluster 0).FollowsLinks oneCluster ⟨0, 512, 2⟩ 1 0
    512 (fun _ => 0) (fun _ => 0) := by
  refine (@followsLinks_iff _ _ 1 0 512 ⟨0, 512, 2⟩ (fun _ => 0) (fun _ => 0)
    fileChain_oneCluster).2 ⟨by decide, by decide, ?_⟩
  rw [wrap_of_lt (by decide)]
  decide

/-- What `FAT16.FollowsLinks` says, of all files and all requests. -/
def AllFollowLinks : Prop :=
  ∀ {disk : Disk} {offset n dest size : ℕ} {file : File} {buffer m : Mem},
    let fs := FAT16.new disk offset
    1 ≤ fs.sectorsPerCluster → 0 < n → fs.FileChain disk file.cluster n →
      fs.FollowsLinks disk file n dest size buffer m

/-- One byte more. -/
theorem not_allFollowLinks : ¬AllFollowLinks := by
  intro hall
  have hbeyond : 1 * (FAT16.new oneCluster 0).clusterSize < wrap (513 + 0) := by
    rw [wrap_of_lt (by decide)]
    decide
  have hend := @end_mem_readClusters _ oneCluster 1 0 513 ⟨0, 512, 2⟩ (fun _ => 0) (fun _ => 0)
    fileChain_oneCluster (.inr (.inr hbeyond))
  obtain ⟨i, hi, heq⟩ := hall (by decide) (by decide) fileChain_oneCluster _ _ hend
  exact fileChain_oneCluster.ne hi le_rfl heq.symm

end SmartOS
