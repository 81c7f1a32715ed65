import SmartOS.FAT16.Layout

/-!
# The allocation table

`readFAT` and `writeFAT` go to the same sector of the FAT for an entry, but to
different places in it: `readFAT` counts entries modulo 256, which is how many a
sector has, `writeFAT` modulo the number of sectors of the FAT.

* `writeFAT_eq`: what is written is one entry of the sector (`FAT16.writtenIndex`);
* `updatesEntry_iff`: it is the right one only if the remainders are the same, or
  if both entries already have the value.
-/

namespace SmartOS

open Prog

namespace FAT16

variable (fs : FAT16)

/-! ## Specification -/

/-- Where the entry `i` of the FAT lies on the device. -/
def entryAddress (i : ℕ) : ℕ := 512 * wrap (fs.fatOffset + i / 256) + 2 * (i % 256)

/-- The indices within the FAT. -/
def HasIndex (i : ℕ) : Prop := i < 256 * fs.sectorsPerFAT ∧ i < 2 ^ 16

/-- `writeFAT(i, v)` sets the entry `i` to `v`, and changes no other one, nor any other sector. -/
def UpdatesEntry (disk : Disk) (i v : ℕ) : Prop :=
  ∃ disk', fs.writeFAT disk i v = some disk' ∧ fs.readFAT disk' i = v ∧
    (∀ j, fs.HasIndex j → j ≠ i → fs.readFAT disk' j = fs.readFAT disk j) ∧
    ∀ x, x / 512 ≠ fs.entryAddress i / 512 → disk' x = disk x

/-- The index of the entry that `writeFAT` writes. -/
def writtenIndex (i : ℕ) : ℕ := 256 * (i / 256) + i % fs.sectorsPerFAT

end FAT16

variable {fs : FAT16} {disk : Disk} {i j v : ℕ}

/-! ## Where the entries lie -/

theorem readFAT_eq (hi : i < 2 ^ 16) : fs.readFAT disk i = disk.get16 (fs.entryAddress i) := by
  have hread (k : ℕ) (hk : k < 512) :
      disk.readSectors (wrap (fs.fatOffset + i / 256)) (fun _ => 0) 1 k =
        disk (512 * wrap (fs.fatOffset + i / 256) + k) := by
    rw [Disk.readSectors, Mem.copy_of_mem (by omega), Nat.sub_zero]
  simp only [FAT16.readFAT, Nat.mod_eq_of_lt hi]
  rw [Mem.get16, hread _ (by omega), hread _ (by omega), Mem.get16, FAT16.entryAddress]
  rfl

/-- Entries lie apart. -/
theorem entryAddress_disjoint (hi : i < 2 ^ 16) (hj : j < 2 ^ 16) (hne : i ≠ j) :
    fs.entryAddress i + 2 ≤ fs.entryAddress j ∨ fs.entryAddress j + 2 ≤ fs.entryAddress i := by
  simp only [FAT16.entryAddress, wrap_eq_mod]
  omega

/-- What is written is an entry of the sector. -/
theorem writeFAT_eq (hi : i < 2 ^ 16) (h0 : fs.sectorsPerFAT ≠ 0)
    (hlt : i % fs.sectorsPerFAT < 256) :
    fs.writeFAT disk i v = some (disk.set16 (fs.entryAddress (fs.writtenIndex i)) v) := by
  have haddress : fs.entryAddress (fs.writtenIndex i) =
      512 * wrap (fs.fatOffset + i / 256) + 2 * (i % fs.sectorsPerFAT) := by
    rw [FAT16.entryAddress, FAT16.writtenIndex, Nat.mul_add_div (by decide), Nat.div_eq_of_lt hlt,
      Nat.mul_add_mod, Nat.mod_eq_of_lt hlt, Nat.add_zero]
  simp only [FAT16.writeFAT, Nat.mod_eq_of_lt hi]
  rw [if_pos ⟨h0, hlt⟩, haddress, Option.some.injEq]
  generalize wrap (fs.fatOffset + i / 256) = sector
  generalize i % fs.sectorsPerFAT = k at hlt
  funext x
  -- The sector is written back as it was read, but for the entry.
  by_cases hx : 512 * sector ≤ x ∧ x < 512 * sector + 512
  · rw [Disk.writeSectors, Mem.copy_of_mem (by omega), Nat.zero_add]
    simp only [Mem.set16, Mem.set]
    have hread : disk.readSectors sector (fun _ => 0) 1 (x - 512 * sector) = disk x := by
      rw [Disk.readSectors, Mem.copy_of_mem (by omega)]
      congr 1
      omega
    rw [hread]
    grind
  · rw [Disk.writeSectors, Mem.copy_of_not_mem (by omega), Mem.set16_of_not_mem (by omega)]

/-! ## When the right one is written -/

theorem hasIndex_written (hi : fs.HasIndex i) (hlt : i % fs.sectorsPerFAT < 256) :
    fs.HasIndex (fs.writtenIndex i) := by
  obtain ⟨hi, hi'⟩ := hi
  rw [FAT16.HasIndex, FAT16.writtenIndex]
  omega

/-- All of the sector is where the entry is. -/
theorem entryAddress_written (hlt : i % fs.sectorsPerFAT < 256) :
    fs.entryAddress (fs.writtenIndex i) / 512 = fs.entryAddress i / 512 := by
  have hdiv : fs.writtenIndex i / 256 = i / 256 := by
    rw [FAT16.writtenIndex]
    omega
  rw [FAT16.entryAddress, FAT16.entryAddress, hdiv]
  omega

/-- The entry that is written has the value, and every other one reads as before. -/
theorem readFAT_write (hw : i < 2 ^ 16) (hj : j < 2 ^ 16) (hv : v < 2 ^ 16) :
    fs.readFAT (disk.set16 (fs.entryAddress i) v) j = if j = i then v else fs.readFAT disk j := by
  rw [readFAT_eq hj, readFAT_eq hj]
  split_ifs with heq
  · rw [heq, Mem.get16_set16, Nat.mod_eq_of_lt hv]
  · rw [Mem.get16_set16_of_disjoint (entryAddress_disjoint hw hj (Ne.symm heq))]

/-- Other sectors stay. -/
theorem write_of_sector_ne {x : ℕ} (hx : x / 512 ≠ fs.entryAddress i / 512) :
    disk.set16 (fs.entryAddress i) v x = disk x := by
  have heven : fs.entryAddress i % 2 = 0 := by
    rw [FAT16.entryAddress]
    omega
  exact Mem.set16_of_not_mem (by omega)

/-- An entry is updated as it should be exactly when its index has the same remainders by 256 and by
    the number of sectors; or when it has the value already, and so has the entry that is written
    in its place. -/
theorem updatesEntry_iff (hspf : 1 ≤ fs.sectorsPerFAT) (hi : fs.HasIndex i) (hv : v < 2 ^ 16) :
    fs.UpdatesEntry disk i v ↔ i % fs.sectorsPerFAT < 256 ∧
      (i % fs.sectorsPerFAT = i % 256 ∨ disk.get16 (fs.entryAddress i) = v ∧
        disk.get16 (fs.entryAddress (fs.writtenIndex i)) = v) := by
  by_cases hlt : i % fs.sectorsPerFAT < 256
  swap
  · -- The access is out of bounds.
    refine iff_of_false (fun ⟨disk', hwrite, _⟩ => ?_) fun h => hlt h.1
    have hnone : fs.writeFAT disk i v = none := by
      simp only [FAT16.writeFAT, Nat.mod_eq_of_lt hi.2]
      exact if_neg fun h => hlt h.2
    cases hnone.symm.trans hwrite
  have hwritten := hasIndex_written hi hlt
  have heq : fs.writtenIndex i = i ↔ i % fs.sectorsPerFAT = i % 256 := by
    rw [FAT16.writtenIndex]
    omega
  have hread {j : ℕ} (hj : j < 2 ^ 16) := @readFAT_write fs disk _ j v hwritten.2 hj hv
  rw [and_iff_right hlt, ← heq, FAT16.UpdatesEntry, writeFAT_eq hi.2 (by omega) hlt]
  by_cases hw : fs.writtenIndex i = i
  · rw [hw] at hread ⊢
    refine iff_of_true ⟨_, rfl, (hread hi.2).trans (if_pos rfl), fun j hj hne => ?_,
      fun x hx => write_of_sector_ne hx⟩ (.inl rfl)
    exact (hread hj.2).trans (if_neg hne)
  · -- Another entry is written, which goes unnoticed if both have the value.
    rw [or_iff_right hw, ← readFAT_eq hi.2, ← readFAT_eq hwritten.2]
    constructor
    · rintro ⟨disk', hdisk, hentry, hkeep, -⟩
      obtain rfl := Option.some.inj hdisk
      rw [hread hi.2, if_neg (Ne.symm hw)] at hentry
      have hsame := hkeep _ hwritten hw
      rw [hread hwritten.2, if_pos rfl] at hsame
      exact ⟨hentry, hsame.symm⟩
    · rintro ⟨hentry, hsame⟩
      refine ⟨_, rfl, ?_, fun j hj _ => ?_, fun x hx => ?_⟩
      · rw [hread hi.2, if_neg (Ne.symm hw), hentry]
      · rw [hread hj.2]
        split_ifs with hjw
        · rw [hjw, hsame]
        · rfl
      · exact write_of_sector_ne (entryAddress_written hlt ▸ hx)

theorem sectorsPerFAT_bootSector : (FAT16.new (bootSector 1) 0).sectorsPerFAT = 64 := by decide

/-- An entry among the first 64. -/
theorem updatesEntry_bootSector :
    (FAT16.new (bootSector 1) 0).UpdatesEntry (bootSector 1) 5 7 := by
  refine (updatesEntry_iff ?_ ⟨?_, by decide⟩ (by decide)).2 ?_ <;>
    rw [sectorsPerFAT_bootSector] <;> decide

/-- What `FAT16.UpdatesEntry` says, of all volumes. -/
def AllUpdate : Prop :=
  ∀ {disk : Disk} {offset i v : ℕ}, let fs := FAT16.new disk offset
    1 ≤ fs.sectorsPerFAT → fs.HasIndex i → v < 2 ^ 16 → fs.UpdatesEntry disk i v

/-- Entry 100 is written in the place of entry 36. -/
theorem not_allUpdate : ¬AllUpdate := by
  intro hall
  have hindex : (FAT16.new (bootSector 1) 0).HasIndex 100 := by
    rw [FAT16.HasIndex, sectorsPerFAT_bootSector]
    decide
  have hspf : 1 ≤ (FAT16.new (bootSector 1) 0).sectorsPerFAT := by
    rw [sectorsPerFAT_bootSector]
    decide
  obtain ⟨disk', hwrite, hread, -⟩ := @hall _ _ 100 7 hspf hindex (by decide)
  have hwritten : (FAT16.new (bootSector 1) 0).writtenIndex 100 = 36 := by
    rw [FAT16.writtenIndex, sectorsPerFAT_bootSector]
  rw [writeFAT_eq hindex.2 (by omega) (by rw [sectorsPerFAT_bootSector]; decide), hwritten,
    Option.some.injEq] at hwrite
  rw [readFAT_eq hindex.2, ← hwrite, Mem.get16_set16_of_disjoint
    (entryAddress_disjoint (by decide) hindex.2 (by decide)), ← readFAT_eq hindex.2] at hread
  have hold : (FAT16.new (bootSector 1) 0).readFAT (bootSector 1) 100 = 0 := by decide +kernel
  exact absurd (hold.symm.trans hread) (by decide)

end SmartOS
