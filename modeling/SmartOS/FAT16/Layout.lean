import SmartOS.FAT16.Basic

/-!
# Where clusters lie

A FAT16 volume is, from its partition offset on: the reserved sectors, the FATs,
the root directory, and the clusters, the first of which has the number 2. The
functions of `FAT16` leave out the reserved sectors and the numbering from 2, and
correct by one sector (`clusterSector`).

* `addresses_iff`: which sectors `readCluster` and `writeCluster` access;
* `followsLayout_iff`: they follow the layout on volumes with clusters of one
  sector and one reserved sector, and on no others.
-/

namespace SmartOS

open Prog

/-! ## The layout on disk -/

namespace BPB

variable (bpb : BPB) (offset : ℕ)

/-- The first sector of the FATs. -/
def fatStart : ℕ := offset + bpb.reservedSectors

/-- The first sector of the root directory. -/
def rootStart : ℕ := bpb.fatStart offset + bpb.numberOfFAT * bpb.smallSectorsPerFAT

/-- The sectors of the root directory, with 16 entries in each. -/
def rootSectors : ℕ := (bpb.numberOfRootEntries + 15) / 16

/-- The first sector of a cluster. -/
def clusterStart (c : ℕ) : ℕ :=
  bpb.rootStart offset + bpb.rootSectors + (c - 2) * bpb.sectorsPerCluster

end BPB

/-! ## What is accessed -/

variable {fs : FAT16} {c sector : ℕ} {disk : Disk} {offset : ℕ}

/-- `readCluster` and `writeCluster` go to the sector for the cluster `c`. -/
structure FAT16.Addresses (fs : FAT16) (c sector : ℕ) : Prop where
  read : ∀ (disk : Disk) (buffer : Mem),
    fs.readCluster disk c buffer = disk.readSectors sector buffer fs.sectorsPerCluster
  write : ∀ (disk : Disk) (buffer : Mem),
    fs.writeCluster disk c buffer = disk.writeSectors sector buffer fs.sectorsPerCluster

theorem addresses_iff (h : 1 ≤ fs.sectorsPerCluster) (hc : c < 2 ^ 16) :
    fs.Addresses c sector ↔ fs.clusterSector c = sector := by
  constructor
  · intro ha
    -- The disk differs from others at the first byte of the sector.
    have hread := congrFun (ha.read (fun x => if x = 512 * sector then 1 else 0) fun _ => 0) 0
    rw [FAT16.readCluster, Nat.mod_eq_of_lt hc, Disk.readSectors, Disk.readSectors,
      Mem.copy_of_mem (by omega), Mem.copy_of_mem (by omega)] at hread
    by_contra hne
    rw [if_neg (by omega), if_pos (by omega)] at hread
    exact absurd hread (by decide)
  · rintro rfl
    exact ⟨fun _ _ => by rw [FAT16.readCluster, Nat.mod_eq_of_lt hc],
      fun _ _ => by rw [FAT16.writeCluster, Nat.mod_eq_of_lt hc]⟩

/-- A volume whose sectors have numbers that fit in 64 bits. -/
def Disk.Fits (disk : Disk) (offset : ℕ) : Prop :=
  (disk.bpb offset).rootStart offset + (disk.bpb offset).rootSectors +
    2 ^ 16 * (disk.bpb offset).sectorsPerCluster < 2 ^ 64

theorem clusterSector_new (hfits : disk.Fits offset)
    (hspc : 1 ≤ (disk.bpb offset).sectorsPerCluster) (hc : 2 ≤ c) (hc' : c < 2 ^ 16) :
    (FAT16.new disk offset).clusterSector c + 1 =
      offset + (disk.bpb offset).numberOfFAT * (disk.bpb offset).smallSectorsPerFAT +
        (disk.bpb offset).rootSectors + c * (disk.bpb offset).sectorsPerCluster := by
  have hle : c * (disk.bpb offset).sectorsPerCluster ≤
    2 ^ 16 * (disk.bpb offset).sectorsPerCluster := Nat.mul_le_mul_right _ hc'.le
  have hpos : 1 ≤ c * (disk.bpb offset).sectorsPerCluster := Nat.mul_pos (by omega) hspc
  simp only [Disk.Fits, BPB.rootStart, BPB.fatStart, BPB.rootSectors] at hfits
  have hdata : (FAT16.new disk offset).dataOffset =
      (disk.bpb offset).numberOfFAT * (disk.bpb offset).smallSectorsPerFAT + offset +
        ((disk.bpb offset).numberOfRootEntries + 15) / 16 := wrap_of_lt (by omega)
  have hsum : (FAT16.new disk offset).dataOffset + c * (FAT16.new disk offset).sectorsPerCluster =
      offset + (disk.bpb offset).numberOfFAT * (disk.bpb offset).smallSectorsPerFAT +
        (disk.bpb offset).rootSectors + c * (disk.bpb offset).sectorsPerCluster := by
    rw [hdata, BPB.rootSectors]
    show _ + c * (disk.bpb offset).sectorsPerCluster = _
    omega
  rw [FAT16.clusterSector, if_neg (by omega), hsum, BPB.rootSectors,
    wrap_of_lt (by omega), wrapSub_of_le (by omega) (by omega)]
  omega

theorem clusterSector_new_one (hfits : disk.Fits offset) :
    (FAT16.new disk offset).clusterSector 1 =
      offset + (disk.bpb offset).numberOfFAT * (disk.bpb offset).smallSectorsPerFAT +
        (disk.bpb offset).sectorsPerCluster := by
  simp only [Disk.Fits, BPB.rootStart, BPB.fatStart] at hfits
  have hroot : (FAT16.new disk offset).rootOffset =
      (disk.bpb offset).numberOfFAT * (disk.bpb offset).smallSectorsPerFAT + offset :=
    wrap_of_lt (by omega)
  rw [FAT16.clusterSector, if_pos rfl, hroot, Nat.one_mul]
  show wrap (_ + (disk.bpb offset).sectorsPerCluster) = _
  rw [wrap_of_lt (by omega)]
  omega

/-! ## When the layout is followed -/

/-- The volume at `offset` is accessed as it is laid out on disk; so the FATs and the root
    directory do not change when a cluster is written. -/
structure FollowsLayout (disk : Disk) (offset : ℕ) : Prop where
  data : ∀ c, 2 ≤ c → c < 2 ^ 16 →
    (FAT16.new disk offset).Addresses c ((disk.bpb offset).clusterStart offset c)
  root : (FAT16.new disk offset).Addresses 1 ((disk.bpb offset).rootStart offset)
  apart : ∀ c, 2 ≤ c → c < 2 ^ 16 → ∀ (disk' : Disk) (buffer : Mem) (x : ℕ),
    512 * (disk.bpb offset).fatStart offset ≤ x →
    x < 512 * ((disk.bpb offset).rootStart offset + (disk.bpb offset).rootSectors) →
    (FAT16.new disk offset).writeCluster disk' c buffer x = disk' x

theorem followsLayout_iff (hspc : 1 ≤ (disk.bpb offset).sectorsPerCluster)
    (hfits : disk.Fits offset) :
    FollowsLayout disk offset ↔
      (disk.bpb offset).sectorsPerCluster = 1 ∧ (disk.bpb offset).reservedSectors = 1 := by
  have hdata {c : ℕ} (hc : 2 ≤ c) (hc' : c < 2 ^ 16) :
      (FAT16.new disk offset).Addresses c ((disk.bpb offset).clusterStart offset c) ↔
        2 * (disk.bpb offset).sectorsPerCluster = (disk.bpb offset).reservedSectors + 1 := by
    have hsector := clusterSector_new hfits hspc hc hc'
    obtain ⟨d, rfl⟩ := Nat.exists_eq_add_of_le' hc
    rw [addresses_iff hspc hc', BPB.clusterStart, BPB.rootStart, BPB.fatStart, Nat.add_sub_cancel]
    rw [Nat.add_mul] at hsector
    omega
  have hroot : (FAT16.new disk offset).Addresses 1 ((disk.bpb offset).rootStart offset) ↔
      (disk.bpb offset).sectorsPerCluster = (disk.bpb offset).reservedSectors := by
    rw [addresses_iff hspc (by decide), clusterSector_new_one hfits, BPB.rootStart, BPB.fatStart]
    omega
  constructor
  · intro h
    have h2 := (hdata le_rfl (by decide)).1 (h.data 2 le_rfl (by decide))
    have h1 := hroot.1 h.root
    omega
  · rintro ⟨hspc1, hreserved1⟩
    have hall {c : ℕ} (hc : 2 ≤ c) (hc' : c < 2 ^ 16) := (hdata hc hc').2 (by omega)
    refine ⟨fun c hc hc' => hall hc hc', hroot.2 (by omega), fun c hc hc' disk' buffer x _ hx => ?_⟩
    rw [(hall hc hc').write, Disk.writeSectors, Mem.copy_of_not_mem]
    rw [BPB.clusterStart]
    omega

/-- A boot sector with clusters of `spc` sectors, one reserved sector, two FATs of 64 sectors and
    512 root entries. -/
def bootSector (spc : ℕ) : Disk := fun x =>
  match x with
  | 13 => BitVec.ofNat 8 spc
  | 14 => 1
  | 16 => 2
  | 18 => 2
  | 22 => 64
  | _ => 0

theorem bootSector_bpb : (bootSector 1).bpb 0 = ⟨1, 1, 2, 512, 64⟩ ∧
    (bootSector 4).bpb 0 = ⟨4, 1, 2, 512, 64⟩ := by decide

theorem bootSector_fits : (bootSector 1).Fits 0 ∧ (bootSector 4).Fits 0 := by
  rw [Disk.Fits, Disk.Fits, bootSector_bpb.1, bootSector_bpb.2]
  decide

/-- The volume that the build makes. -/
theorem followsLayout_bootSector : FollowsLayout (bootSector 1) 0 := by
  have h := @followsLayout_iff (bootSector 1) 0
    (by rw [bootSector_bpb.1]) bootSector_fits.1
  rw [bootSector_bpb.1] at h
  exact h.2 ⟨rfl, rfl⟩

/-- What `FollowsLayout` says, of all volumes. -/
def LayoutFollowed : Prop :=
  ∀ {disk : Disk} {offset : ℕ}, 1 ≤ (disk.bpb offset).sectorsPerCluster →
    1 ≤ (disk.bpb offset).reservedSectors → disk.Fits offset → FollowsLayout disk offset

/-- With clusters of four sectors, cluster 2 is not where it is looked for. -/
theorem not_layoutFollowed : ¬LayoutFollowed := by
  intro hall
  have hspc : 1 ≤ ((bootSector 4).bpb 0).sectorsPerCluster := by rw [bootSector_bpb.2]; decide
  have hreserved : 1 ≤ ((bootSector 4).bpb 0).reservedSectors := by rw [bootSector_bpb.2]
  have hdata := (hall hspc hreserved bootSector_fits.2).data 2 le_rfl (by decide)
  have hsector := (addresses_iff hspc (by decide)).1 hdata
  have hcode := clusterSector_new bootSector_fits.2 hspc (c := 2) le_rfl (by decide)
  rw [hsector, bootSector_bpb.2] at hcode
  exact absurd hcode (by decide)

end SmartOS
