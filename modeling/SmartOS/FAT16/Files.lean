import SmartOS.FAT16.Basic

/-!
# Files

The contents of a file: the bytes of its clusters, in the order of its chain
(`FAT16.Chain`, `FAT16.contents`), as `readCluster` returns them. Clusters are
counted from 0 along the chain.

* `readCluster_eq`: a cluster as a piece of the disk;
* `contents_add`: the bytes of a file that lie in one cluster;
* `returns_follow`: the walk of `read` to the cluster of a position.
-/

namespace SmartOS

open Prog

variable {fs : FAT16} {disk : Disk} {c : ℕ → ℕ} {n i j k idx position : ℕ} {buffer : Mem}

namespace FAT16

/-- The chain of the `n` clusters `c 0`, `c 1`, ... -/
structure Chain (fs : FAT16) (disk : Disk) (c : ℕ → ℕ) (n : ℕ) : Prop where
  next : ∀ i, i + 1 < n → fs.readFAT disk (c i) = c (i + 1)
  inj : ∀ i < n, ∀ j < n, c i = c j → i = j
  lt : ∀ i < n, c i < 2 ^ 16

/-- The bytes of a file with the clusters `c`. -/
def contents (fs : FAT16) (disk : Disk) (c : ℕ → ℕ) : Mem := fun position =>
  fs.readCluster disk (c (position / fs.clusterSize)) (fun _ => 0) (position % fs.clusterSize)

end FAT16

/-- A cluster, as it lies on the disk. -/
theorem readCluster_eq (hk : k < fs.clusterSize) :
    fs.readCluster disk idx buffer k = disk (512 * fs.clusterSector (idx % 2 ^ 16) + k) := by
  rw [FAT16.clusterSize] at hk
  rw [FAT16.readCluster, Disk.readSectors, Mem.copy_of_mem ⟨by omega, by omega⟩, Nat.sub_zero]

/-- The bytes of a file that lie in its cluster `i`. -/
theorem contents_add (disk : Disk) (c : ℕ → ℕ) (i : ℕ) (buffer : Mem) (hk : k < fs.clusterSize) :
    fs.contents disk c (i * fs.clusterSize + k) = fs.readCluster disk (c i) buffer k := by
  have hpos : 0 < fs.clusterSize := by omega
  have hdiv : (i * fs.clusterSize + k) / fs.clusterSize = i := by
    rw [Nat.mul_comm, Nat.mul_add_div hpos, Nat.div_eq_of_lt hk, Nat.add_zero]
  have hmod : (i * fs.clusterSize + k) % fs.clusterSize = k := by
    rw [Nat.mul_comm, Nat.mul_add_mod, Nat.mod_eq_of_lt hk]
  rw [FAT16.contents, hdiv, hmod, readCluster_eq hk, readCluster_eq hk]

theorem clusterSize_le (fs : FAT16) : fs.clusterSize ≤ 255 * 512 := by
  have := fs.sectorsPerCluster_lt
  rw [FAT16.clusterSize]
  omega

namespace FAT16.Chain

variable (hc : fs.Chain disk c n)
include hc

/-- There are not more clusters than numbers. -/
theorem length_le : n ≤ 2 ^ 16 := by
  have h := Finset.card_le_card_of_injOn (s := Finset.range n) (t := Finset.range (2 ^ 16)) c
    (fun i hi => by
      rw [Finset.mem_coe, Finset.mem_range] at hi ⊢
      exact hc.lt i hi)
    (fun i hi j hj heq => hc.inj i (Finset.mem_range.1 hi) j (Finset.mem_range.1 hj) heq)
  rwa [Finset.card_range, Finset.card_range] at h

/-- Positions in the file, and up to two clusters beyond, are far below `2 ^ 64`. -/
theorem mul_lt (hk : k ≤ n + 2) : k * fs.clusterSize < 2 ^ 64 := by
  have hn := hc.length_le
  exact (Nat.mul_le_mul (by omega : k ≤ 2 ^ 16 + 2) (clusterSize_le fs)).trans_lt (by decide)

/-- The walk to the cluster of the byte before `position`, or no further than `c i`. -/
theorem returns_follow (hpos : 0 < fs.clusterSize) (hi : i < n)
    (hposition : position ≤ n * fs.clusterSize)
    (hj : j = max i ((position - 1) / fs.clusterSize)) :
    Returns (fun m => loop (whileDo (fs.beyond position) (fs.follow disk)) m (c i, i))
      (c j, j) := by
  have hlt : (position - 1) / fs.clusterSize < n := by
    have hmul := Nat.mul_comm n fs.clusterSize ▸ hposition
    have hn : 0 < fs.clusterSize * n := Nat.mul_pos hpos (by omega)
    exact Nat.div_lt_of_lt_mul (by omega)
  -- By induction on the links that are left to follow.
  induction hd : j - i generalizing i with
  | zero =>
    obtain rfl : j = i := by omega
    have hle : (position - 1) / fs.clusterSize < j + 1 := by omega
    have hle' := (Nat.div_lt_iff_lt_mul hpos).1 hle
    refine returns_loop_exit ?_
    rw [whileDo, if_neg]
    rw [FAT16.beyond, wrap_of_lt (hc.mul_lt (by omega)), decide_eq_true_eq]
    omega
  | succ d ih =>
    have hge : i + 1 ≤ (position - 1) / fs.clusterSize := by omega
    have hge' := (Nat.le_div_iff_mul_le hpos).1 hge
    have hmul : 0 < (i + 1) * fs.clusterSize := Nat.mul_pos (by omega) hpos
    have hbody : whileDo (fs.beyond position) (fs.follow disk) (c i, i) =
        .inl (c (i + 1), i + 1) := by
      rw [whileDo, if_pos, FAT16.follow, hc.next i (by omega), wrap_of_lt]
      · have := hc.length_le
        omega
      · rw [FAT16.beyond, wrap_of_lt (hc.mul_lt (by omega)), decide_eq_true_eq]
        omega
    exact (returns_loop_next hbody).2 (ih (by omega) (by omega) (by omega))

end FAT16.Chain

end SmartOS
