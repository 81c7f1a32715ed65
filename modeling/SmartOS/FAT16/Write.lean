import SmartOS.FAT16.Files
import SmartOS.FAT16.Layout

/-!
# Writing to files

The first two loops of `write` go along the chain while the position, or the end
of the request, is beyond the cluster with the index `clusterIdx`, which they
never count up. So `write` goes round for ever unless the request lies in the
first cluster of the file. Besides, the buffer for a cluster has 512 bytes for
each *byte* of the request; and as clusters are not where they belong
(`SmartOS.FAT16.Layout`), one may overlap the FATs.

`write_iff` says when `write` does what it has to do (`Written`).
-/

namespace SmartOS

open Prog

variable {fs : FAT16} {disk disk' boot : Disk} {c : ℕ → ℕ} {n i j k idx offset size : ℕ}
  {src buffer : Mem} {file : File}

/-! ## Clusters apart -/

theorem clusterSector_add_le (hfits : boot.Fits offset)
    (hspc : 1 ≤ (boot.bpb offset).sectorsPerCluster) (hi : 2 ≤ i) (hij : i < j)
    (hj : j < 2 ^ 16) :
    (FAT16.new boot offset).clusterSector i + (FAT16.new boot offset).sectorsPerCluster ≤
      (FAT16.new boot offset).clusterSector j := by
  have hi' := clusterSector_new hfits hspc hi (by omega)
  have hj' := clusterSector_new hfits hspc (by omega) hj
  have hmul : (i + 1) * (boot.bpb offset).sectorsPerCluster ≤
    j * (boot.bpb offset).sectorsPerCluster := Nat.mul_le_mul_right _ hij
  rw [Nat.succ_mul] at hmul
  show _ + (boot.bpb offset).sectorsPerCluster ≤ _
  omega

/-- The bytes of two clusters lie apart. -/
theorem cluster_ne (hfits : boot.Fits offset) (hspc : 1 ≤ (boot.bpb offset).sectorsPerCluster)
    (hi : 2 ≤ i) (hi' : i < 2 ^ 16) (hj : 2 ≤ j) (hj' : j < 2 ^ 16) (hne : i ≠ j) {k l : ℕ}
    (hk : k < (FAT16.new boot offset).clusterSize) (hl : l < (FAT16.new boot offset).clusterSize) :
    512 * (FAT16.new boot offset).clusterSector i + k ≠
      512 * (FAT16.new boot offset).clusterSector j + l := by
  rw [FAT16.clusterSize] at hk hl
  rcases Nat.lt_or_gt_of_ne hne with hlt | hgt
  · have := clusterSector_add_le hfits hspc hi hlt hj'
    omega
  · have := clusterSector_add_le hfits hspc hj hgt hi'
    omega

/-! ## Writing a piece of a cluster -/

/-- A cluster read, changed in one piece and written back. -/
theorem writeCluster_memcpyFrom {position : ℕ} (hend : position + size ≤ fs.clusterSize) :
    fs.writeCluster disk idx
        (memcpyFrom (fs.readCluster disk idx buffer) position src 0 size) =
      disk.copy (512 * fs.clusterSector (idx % 2 ^ 16) + position) src 0 size := by
  rw [FAT16.writeCluster, Disk.writeSectors, memcpyFrom_eq_copy]
  have hsize : 512 * fs.sectorsPerCluster = fs.clusterSize := Nat.mul_comm _ _
  rw [hsize]
  funext x
  generalize hS : 512 * fs.clusterSector (idx % 2 ^ 16) = S
  by_cases hx : S ≤ x ∧ x < S + fs.clusterSize
  · rw [Mem.copy_of_mem hx, Nat.zero_add]
    by_cases hx' : S + position ≤ x ∧ x < S + position + size
    · rw [Mem.copy_of_mem ⟨by omega, by omega⟩, Mem.copy_of_mem hx']
      congr 1
      omega
    · rw [Mem.copy_of_not_mem (by omega), Mem.copy_of_not_mem hx', readCluster_eq (by omega), hS]
      congr 1
      omega
  · rw [Mem.copy_of_not_mem hx, Mem.copy_of_not_mem (by omega)]

/-! ## The loops -/

section

variable (hc : fs.Chain disk c n) (hend : file.position + size ≤ n * fs.clusterSize)
include hc hend

theorem wrap_endPos : wrap (size + file.position) = file.position + size := by
  have := hc.mul_lt (k := n) (by omega)
  rw [Nat.add_comm, wrap_of_lt (by omega)]

/-- A request that leaves the first cluster is never written. -/
theorem diverges_write (h : fs.clusterSize < file.position + size) :
    Diverges fun k => fs.write file src size buffer disk k := by
  simp only [FAT16.write, wrap_endPos hc hend]
  by_cases hposition : fs.clusterSize ≤ file.position
  · refine Diverges.bind _ (diverges_loop (fun _ => True) (fun s _ => ?_) trivial)
    exact ⟨_, by rw [whileDo, if_pos (decide_eq_true hposition)], trivial⟩
  · have hexit : whileDo (fun _ => decide (file.position ≥ fs.clusterSize)) (fs.followOnly disk)
        file.cluster = .inr file.cluster := by
      rw [whileDo, if_neg (by simpa using hposition)]
    refine Diverges.after (fun m s hs => loop_eq_of_returns (returns_loop_exit hexit) hs) ?_
    refine Diverges.bind _ (diverges_loop (fun _ => True) (fun s _ => ?_) trivial)
    exact ⟨_, by rw [whileDo, if_pos (decide_eq_true h)], trivial⟩

variable (src buffer) in
/-- A request that lies in the first cluster is written if the buffer is large enough. -/
theorem returns_write (h : file.position + size ≤ fs.clusterSize) (hsize : 1 ≤ size) :
    Returns (fun k => fs.write file src size buffer disk k)
      (if fs.sectorsPerCluster ≤ size then
        some (disk.copy (512 * fs.clusterSector (file.cluster % 2 ^ 16) + file.position) src 0 size)
      else none) := by
  have hle := clusterSize_le fs
  have hcapacity : wrap (512 * size) = 512 * size := wrap_of_lt (by omega)
  -- None of the loops makes a round.
  have hstart : whileDo (fun _ => decide (file.position ≥ fs.clusterSize)) (fs.followOnly disk)
      file.cluster = .inr file.cluster := by
    rw [whileDo, if_neg (by simp; omega)]
  have hlast : whileDo (fun _ => decide (file.position + size > fs.clusterSize))
      (fs.followOnly disk) file.cluster = .inr file.cluster := by
    rw [whileDo, if_neg (by simp; omega)]
  have hcopy : fs.writeBody src (512 * size) file.cluster
      ⟨file.cluster, file.position, 0, buffer, disk⟩ =
      .inr (some ⟨file.cluster, file.position, 0, buffer, disk⟩) := by
    rw [FAT16.writeBody, if_pos rfl]
  have hlength : wrapSub (file.position + size) file.position = size := by
    rw [wrapSub_of_le (by omega) (by omega)]
    omega
  have hmod : file.position % fs.clusterSize = file.position := Nat.mod_eq_of_lt (by omega)
  have hiff : fs.clusterSize ≤ 512 * size ∧ file.position + size ≤ 512 * size ↔
      fs.sectorsPerCluster ≤ size := by
    rw [FAT16.clusterSize] at *
    omega
  have hwrite : fs.writeLast src (512 * size) (file.position + size)
      ⟨file.cluster, file.position, 0, buffer, disk⟩ =
      if fs.sectorsPerCluster ≤ size then
        some (disk.copy (512 * fs.clusterSector (file.cluster % 2 ^ 16) + file.position) src 0 size)
      else none := by
    simp only [FAT16.writeLast, hlength, hmod, writeCluster_memcpyFrom h, hiff]
  simp only [FAT16.write, wrap_endPos hc hend, hcapacity, ← hwrite]
  exact (returns_loop_exit hstart).bind ((returns_loop_exit hlast).bind
    ((returns_loop_exit hcopy).bind (.pure _)))

end

/-! ## The whole -/

/-- What `write` has to do: the bytes of the request become those of `src`; all others of the
    file, the FATs and the clusters of other files stay as they are. -/
structure Written (boot : Disk) (offset : ℕ) (c : ℕ → ℕ) (n position size : ℕ) (src : Mem)
    (disk disk' : Disk) : Prop where
  request : ∀ i < size, (FAT16.new boot offset).contents disk' c (position + i) = src i
  rest : ∀ p < n * (FAT16.new boot offset).clusterSize, ¬(position ≤ p ∧ p < position + size) →
    (FAT16.new boot offset).contents disk' c p = (FAT16.new boot offset).contents disk c p
  fat : ∀ x, 512 * (boot.bpb offset).fatStart offset ≤ x →
    x < 512 * (boot.bpb offset).rootStart offset → disk' x = disk x
  others : ∀ c', 2 ≤ c' → c' < 2 ^ 16 → (∀ i < n, c i ≠ c') →
    ∀ k < (FAT16.new boot offset).clusterSize,
      (FAT16.new boot offset).readCluster disk' c' (fun _ => 0) k =
        (FAT16.new boot offset).readCluster disk c' (fun _ => 0) k

/-- Where the bytes of a file's first cluster lie on the disk. -/
def firstByte (boot : Disk) (offset : ℕ) (file : File) : ℕ :=
  512 * (FAT16.new boot offset).clusterSector file.cluster + file.position

/-- The first bytes of a file are those of its first cluster. -/
theorem contents_of_lt {disk : Disk} {k : ℕ} (hcluster : c 0 < 2 ^ 16) (hk : k < fs.clusterSize) :
    fs.contents disk c k = disk (512 * fs.clusterSector (c 0) + k) := by
  have h := contents_add disk c 0 (fun _ => 0) hk
  rwa [Nat.zero_mul, Nat.zero_add, readCluster_eq hk, Nat.mod_eq_of_lt hcluster] at h

/-- What is written to one cluster leaves the bytes of the others as they are. -/
theorem readCluster_copy_of_ne {c' k : ℕ} (hfits : boot.Fits offset)
    (hspc : 1 ≤ (boot.bpb offset).sectorsPerCluster) (hfile : 2 ≤ file.cluster)
    (hfile' : file.cluster < 2 ^ 16)
    (hend : file.position + size ≤ (FAT16.new boot offset).clusterSize) (hc2 : 2 ≤ c')
    (hc' : c' < 2 ^ 16) (hne : c' ≠ file.cluster) (hk : k < (FAT16.new boot offset).clusterSize) :
    (FAT16.new boot offset).readCluster
        (disk.copy (firstByte boot offset file) src 0 size) c' buffer k =
      (FAT16.new boot offset).readCluster disk c' buffer k := by
  rw [readCluster_eq hk, readCluster_eq hk, Nat.mod_eq_of_lt hc', Mem.copy_of_not_mem]
  rintro ⟨hle, hlt⟩
  rw [firstByte] at hle hlt
  have := cluster_ne hfits hspc hc2 hc' hfile hfile' hne hk
    (l := 512 * (FAT16.new boot offset).clusterSector c' + k -
      512 * (FAT16.new boot offset).clusterSector file.cluster) (by omega)
  omega

section

variable (hfits : boot.Fits offset) (hspc : 1 ≤ (boot.bpb offset).sectorsPerCluster)
  (hc : (FAT16.new boot offset).Chain disk c n) (hdata : ∀ i < n, 2 ≤ c i)
  (hcluster : file.cluster = c 0)
include hfits hspc hc hdata hcluster

/-- A piece of the first cluster written: everything but the FATs is as it has to be. -/
theorem written_iff (hn : 0 < n)
    (hend : file.position + size ≤ (FAT16.new boot offset).clusterSize) :
    Written boot offset c n file.position size src disk
        (disk.copy (firstByte boot offset file) src 0 size) ↔
      ∀ i < size, 512 * (boot.bpb offset).fatStart offset ≤ firstByte boot offset file + i →
        firstByte boot offset file + i < 512 * (boot.bpb offset).rootStart offset →
        src i = disk (firstByte boot offset file + i) := by
  have hlt : file.cluster < 2 ^ 16 := hcluster ▸ hc.lt 0 hn
  have hother {c' k : ℕ} (hc2 : 2 ≤ c') (hc' : c' < 2 ^ 16) (hne : c' ≠ file.cluster)
      (hk : k < (FAT16.new boot offset).clusterSize) {buffer : Mem} :
      (FAT16.new boot offset).readCluster
          (disk.copy (firstByte boot offset file) src 0 size) c' buffer k =
        (FAT16.new boot offset).readCluster disk c' buffer k :=
    readCluster_copy_of_ne hfits hspc (hcluster ▸ hdata 0 hn) hlt hend hc2 hc' hne hk
  have hfirst {k : ℕ} (hk : k < (FAT16.new boot offset).clusterSize) {disk : Disk} :
      (FAT16.new boot offset).contents disk c k =
        disk (512 * (FAT16.new boot offset).clusterSector file.cluster + k) :=
    hcluster ▸ contents_of_lt (hc.lt 0 hn) hk
  constructor
  · intro h i hi hge hlt
    rw [← h.fat _ hge hlt, Mem.copy_of_mem ⟨by omega, by omega⟩]
    congr 1
    omega
  · intro hfat
    refine ⟨fun i hi => ?_, fun p hp hnot => ?_, fun x hge hlt => ?_,
      fun c' hc2 hc' hne k hk => hother hc2 hc' (fun heq => hne 0 hn (hcluster ▸ heq.symm)) hk⟩
    · rw [hfirst (by omega), firstByte, Mem.copy_of_mem ⟨by omega, by omega⟩]
      congr 1
      omega
    · by_cases hp0 : p < (FAT16.new boot offset).clusterSize
      · rw [hfirst hp0, hfirst hp0, firstByte, Mem.copy_of_not_mem (by omega)]
      · have hpos : 0 < (FAT16.new boot offset).clusterSize := Nat.mul_pos hspc (by decide)
        have hdiv : p / (FAT16.new boot offset).clusterSize < n :=
          Nat.div_lt_of_lt_mul (Nat.mul_comm n _ ▸ hp)
        have hne : c (p / (FAT16.new boot offset).clusterSize) ≠ file.cluster := fun heq => by
          have := hc.inj _ hdiv 0 hn (heq.trans hcluster)
          have := Nat.div_pos (by omega : _ ≤ p) hpos
          omega
        exact hother (hdata _ hdiv) (hc.lt _ hdiv) hne (Nat.mod_lt p hpos)
    · by_cases hx : firstByte boot offset file ≤ x ∧ x < firstByte boot offset file + size
      · obtain ⟨i, rfl⟩ := Nat.exists_eq_add_of_le hx.1
        rw [Mem.copy_of_mem hx, ← hfat i (by omega) hge hlt]
        congr 1
        omega
      · exact Mem.copy_of_not_mem hx

/-- `write` does what it has to do exactly when the request lies in the first cluster, has at least
    as many bytes as a cluster has sectors, and changes nothing where that cluster overlaps the
    FATs. -/
theorem write_iff (hsize : 1 ≤ size)
    (hend : file.position + size ≤ n * (FAT16.new boot offset).clusterSize) :
    (∃ disk', Returns (fun k => (FAT16.new boot offset).write file src size buffer disk k)
        (some disk') ∧ Written boot offset c n file.position size src disk disk') ↔
      file.position + size ≤ (FAT16.new boot offset).clusterSize ∧
        (boot.bpb offset).sectorsPerCluster ≤ size ∧
        ∀ i < size, 512 * (boot.bpb offset).fatStart offset ≤ firstByte boot offset file + i →
          firstByte boot offset file + i < 512 * (boot.bpb offset).rootStart offset →
          src i = disk (firstByte boot offset file + i) := by
  have hn : 0 < n := Nat.pos_of_ne_zero fun h0 => by simp [h0] at hend; omega
  by_cases h : file.position + size ≤ (FAT16.new boot offset).clusterSize
  · have hreturns := returns_write src buffer hc hend h hsize
    rw [Nat.mod_eq_of_lt (hcluster ▸ hc.lt 0 hn)] at hreturns
    rw [and_iff_right h]
    by_cases hle : (boot.bpb offset).sectorsPerCluster ≤ size
    · rw [if_pos (show (FAT16.new boot offset).sectorsPerCluster ≤ size from hle)] at hreturns
      rw [and_iff_right hle, ← written_iff hfits hspc hc hdata hcluster hn h]
      constructor
      · rintro ⟨disk', hr, hwritten⟩
        exact Option.some.inj (hr.unique hreturns) ▸ hwritten
      · exact fun hwritten => ⟨_, hreturns, hwritten⟩
    · rw [if_neg (show ¬(FAT16.new boot offset).sectorsPerCluster ≤ size from hle)] at hreturns
      refine iff_of_false ?_ fun h => hle h.1
      rintro ⟨disk', hr, -⟩
      exact nomatch hreturns.unique hr
  · -- A request that leaves the first cluster does not return.
    refine iff_of_false ?_ fun h' => h h'.1
    rintro ⟨disk', hr, -⟩
    exact (diverges_write hc hend (by omega)).not_returns _ hr

end

/-- A disk of two clusters in a row, 2 and 3. -/
def twoInARow : Disk := (bootSector 1).set 516 3

theorem chain_twoInARow : (FAT16.new (bootSector 1) 0).Chain twoInARow (· + 2) 2 where
  next i hi := by
    obtain rfl : i = 0 := by omega
    decide +kernel
  inj i _ j _ h := by omega
  lt i hi := by omega

theorem clusterSize_bootSector : (FAT16.new (bootSector 1) 0).clusterSize = 512 := by decide

/-- Ten bytes written from the start of a file. -/
theorem write_twoInARow : ∃ disk, Returns
    (fun k => (FAT16.new (bootSector 1) 0).write ⟨0, 1024, 2⟩ (fun _ => 7) 10 (fun _ => 0)
      twoInARow k) (some disk) ∧
    Written (bootSector 1) 0 (· + 2) 2 0 10 (fun _ => 7) twoInARow disk := by
  have hspc : ((bootSector 1).bpb 0).sectorsPerCluster = 1 := by rw [bootSector_bpb.1]
  refine (write_iff bootSector_fits.1 hspc.ge chain_twoInARow
    (fun i _ => Nat.le_add_left 2 i) (rfl : (File.mk 0 1024 2).cluster = 2) (by decide)
    (by rw [clusterSize_bootSector]; decide)).2 ⟨?_, ?_, fun i _ _ hlt => ?_⟩
  · rw [clusterSize_bootSector]
    decide
  · rw [hspc]
    decide
  · have hfirst : firstByte (bootSector 1) 0 ⟨0, 1024, 2⟩ = 512 * 161 := by decide +kernel
    have hroot : ((bootSector 1).bpb 0).rootStart 0 = 129 := by decide
    omega

/-- What `write_iff` says of some requests, of all. -/
def WritesFile : Prop :=
  ∀ {boot disk : Disk} {offset : ℕ} {c : ℕ → ℕ} {n size : ℕ} {file : File} {src buffer : Mem},
    boot.Fits offset → 1 ≤ (boot.bpb offset).sectorsPerCluster →
    (FAT16.new boot offset).Chain disk c n → (∀ i < n, 2 ≤ c i) → file.cluster = c 0 →
    1 ≤ size → file.position + size ≤ n * (FAT16.new boot offset).clusterSize →
    ∃ disk', Returns (fun k => (FAT16.new boot offset).write file src size buffer disk k)
      (some disk') ∧ Written boot offset c n file.position size src disk disk'

/-- A byte in the second cluster is never written. -/
theorem not_writesFile : ¬WritesFile := by
  intro hall
  have hend : (⟨512, 1024, 2⟩ : File).position + 1 ≤
      2 * (FAT16.new (bootSector 1) 0).clusterSize := by
    rw [clusterSize_bootSector]
    decide
  obtain ⟨disk, hr, -⟩ := @hall _ _ _ _ _ _ _ (fun _ => 7) (fun _ => 0) bootSector_fits.1
    (by rw [bootSector_bpb.1]) chain_twoInARow (fun i _ => Nat.le_add_left 2 i) rfl le_rfl hend
  refine (diverges_write chain_twoInARow hend ?_).not_returns _ hr
  rw [clusterSize_bootSector]
  decide

end SmartOS
