import SmartOS.IDE.Commands

/-!
# Transfers of IDE devices

`readSectors` and `writeSectors` cut a request into calls with 256 sectors and a
rest. Transferring some sectors should be transferring them one by one
(`ReadsOneByOne`, `WritesOneByOne`). It is not from 256 sectors on: a call with 256
sectors transfers none, as its loop counts with a byte, and the rest of an ATAPI
request is put where sectors of 512 bytes would go. With fewer sectors only the
truncated cylinder matters (`IDEDevice.target`).

* `readSectors_spec`, `writeSectors_spec`: what a call transfers;
* `readOneByOne_spec`, `writeOneByOne_of_target`: what calls with one sector do;
* `oneByOne_iff`: when the two agree.
-/

namespace SmartOS

open Prog

variable {dev : IDEDevice} {channel : IDEChannel} {s : Mem × IDEChannel} {m : Mem}
  {lba dest src n k x : ℕ}

theorem addressable_lt : dev.addressable < 2 ^ 64 := by
  rw [IDEDevice.addressable]
  split
  · decide
  · split_ifs <;> decide

/-! ## What a call transfers -/

/-- Calls with 256 sectors transfer nothing. -/
theorem foldl_readChunk (dest : ℕ) (s : Mem × IDEChannel) (h : lba + k * 256 ≤ dev.addressable) :
    ((List.range k).foldl
        (fun s k => dev.readChunk (wrap (lba + k * 256)) (dest + k * 256 * 512) 256 s) s).1 = s.1 ∧
      ((List.range k).foldl
        (fun s k => dev.readChunk (wrap (lba + k * 256)) (dest + k * 256 * 512) 256 s)
        s).2.drive.disk = s.2.drive.disk := by
  induction k with
  | zero => exact ⟨rfl, rfl⟩
  | succ k ih =>
    have hlt : lba + k * 256 < dev.addressable := by omega
    obtain ⟨hmem, hdisk⟩ := ih hlt.le
    rw [List.range_succ, List.foldl_append, List.foldl_cons, List.foldl_nil,
      wrap_of_lt (hlt.trans addressable_lt)]
    obtain ⟨hmem', hdisk'⟩ := readChunk_spec (dest + k * 256 * 512) 256 ((List.range k).foldl
        (fun s k => dev.readChunk (wrap (lba + k * 256)) (dest + k * 256 * 512) 256 s) s) hlt
    rw [Nat.mod_self, Nat.mul_zero, Mem.copy_zero] at hmem'
    exact ⟨hmem'.trans hmem, hdisk'.trans hdisk⟩

/-- Only the rest is read. -/
theorem readSectors_spec (dest : ℕ) (s : Mem × IDEChannel) (h : lba + n ≤ dev.addressable)
    (hn : 1 ≤ n) :
    (dev.readSectors lba dest n s).1 = s.1.copy (dest + n / 256 * 256 * 512) s.2.drive.disk
        (dev.type.sectorSize * dev.target (lba + n / 256 * 256))
        (dev.type.sectorSize * (n % 256)) ∧
      (dev.readSectors lba dest n s).2.drive.disk = s.2.drive.disk := by
  rw [IDEDevice.readSectors, and_0xFF]
  dsimp only
  split_ifs with hgt hrest
  · have hlt : lba + n / 256 * 256 < dev.addressable := by omega
    obtain ⟨hmem, hdisk⟩ := foldl_readChunk dest s hlt.le
    obtain ⟨hmem', hdisk'⟩ := readChunk_spec (dest + n / 256 * 256 * 512) (n % 256)
      ((List.range (n / 256)).foldl
        (fun s k => dev.readChunk (wrap (lba + k * 256)) (dest + k * 256 * 512) 256 s) s) hlt
    rw [wrap_of_lt (hlt.trans addressable_lt)]
    rw [Nat.mod_mod, hmem, hdisk] at hmem'
    exact ⟨hmem', hdisk'.trans hdisk⟩
  · rw [not_not.1 hrest, Nat.mul_zero, Mem.copy_zero]
    exact foldl_readChunk dest s (by omega)
  · obtain ⟨hmem, hdisk⟩ := readChunk_spec dest n s (by omega : lba < dev.addressable)
    refine ⟨hmem.trans ?_, hdisk⟩
    rcases (by omega : n / 256 = 0 ∨ n % 256 = 0) with hdiv | hmod
    · simp only [hdiv, Nat.zero_mul, Nat.add_zero]
    · rw [hmod, Nat.mul_zero, Mem.copy_zero, Mem.copy_zero]

theorem foldl_writeChunk (hata : dev.type = .ata) (h : lba + k * 256 ≤ dev.addressable) :
    ((List.range k).foldl
        (fun channel k => dev.writeChunk (wrap (lba + k * 256)) m (src + k * 256 * 512) 256 channel)
        channel).drive.disk = channel.drive.disk := by
  induction k with
  | zero => rfl
  | succ k ih =>
    have hlt : lba + k * 256 < dev.addressable := by omega
    rw [List.range_succ, List.foldl_append, List.foldl_cons, List.foldl_nil,
      wrap_of_lt (hlt.trans addressable_lt), writeChunk_spec hata hlt, Nat.mod_self, Nat.mul_zero,
      Mem.copy_zero]
    exact ih hlt.le

/-- Only the rest is written. -/
theorem writeSectors_spec (m : Mem) (src : ℕ) (channel : IDEChannel) (hata : dev.type = .ata)
    (h : lba + n ≤ dev.addressable) (hn : 1 ≤ n) :
    (dev.writeSectors lba m src n channel).drive.disk =
      channel.drive.disk.copy (512 * dev.target (lba + n / 256 * 256)) m
        (src + n / 256 * 256 * 512) (512 * (n % 256)) := by
  rw [IDEDevice.writeSectors, and_0xFF]
  dsimp only
  split_ifs with hgt hrest
  · have hlt : lba + n / 256 * 256 < dev.addressable := by omega
    rw [wrap_of_lt (hlt.trans addressable_lt), writeChunk_spec hata hlt, Nat.mod_mod,
      foldl_writeChunk hata hlt.le]
  · rw [not_not.1 hrest, Nat.mul_zero, Mem.copy_zero]
    exact foldl_writeChunk hata (by omega)
  · rw [writeChunk_spec hata (by omega)]
    rcases (by omega : n / 256 = 0 ∨ n % 256 = 0) with hdiv | hmod
    · simp only [hdiv, Nat.zero_mul, Nat.add_zero]
    · rw [hmod, Nat.mul_zero, Mem.copy_zero, Mem.copy_zero]

/-! ## One by one -/

/-- `n` calls of `readSectors` with one sector. -/
def readOneByOne (dev : IDEDevice) (lba dest n : ℕ) (s : Mem × IDEChannel) : Mem × IDEChannel :=
  (List.range n).foldl
    (fun s i => dev.readSectors (lba + i) (dest + i * dev.type.sectorSize) 1 s) s

/-- `n` calls of `writeSectors` with one sector. -/
def writeOneByOne (dev : IDEDevice) (lba : ℕ) (m : Mem) (src n : ℕ) (channel : IDEChannel) :
    IDEChannel :=
  (List.range n).foldl
    (fun channel i => dev.writeSectors (lba + i) m (src + i * dev.type.sectorSize) 1 channel)
    channel

/-- A call for `n` sectors leaves the memory as `n` calls with one sector do. -/
def ReadsOneByOne (dev : IDEDevice) (lba n : ℕ) : Prop :=
  ∀ dest s, (dev.readSectors lba dest n s).1 = (readOneByOne dev lba dest n s).1

/-- A call for `n` sectors leaves the disk as `n` calls with one sector do. -/
def WritesOneByOne (dev : IDEDevice) (lba n : ℕ) : Prop :=
  ∀ m src channel, (dev.writeSectors lba m src n channel).drive.disk =
    (writeOneByOne dev lba m src n channel).drive.disk

/-- The bytes of the sectors from `lba` on, each where the drive looks for it. -/
def sectorBytes (dev : IDEDevice) (disk : Mem) (lba : ℕ) : Mem := fun x =>
  disk (dev.type.sectorSize * dev.target (lba + x / dev.type.sectorSize) +
    x % dev.type.sectorSize)

theorem sectorSize_pos (dev : IDEDevice) : 0 < dev.type.sectorSize := by
  cases dev.type <;> decide

theorem readSectors_one (dest : ℕ) (s : Mem × IDEChannel) (h : lba < dev.addressable) :
    (dev.readSectors lba dest 1 s).1 = s.1.copy dest s.2.drive.disk
        (dev.type.sectorSize * dev.target lba) dev.type.sectorSize ∧
      (dev.readSectors lba dest 1 s).2.drive.disk = s.2.drive.disk := by
  simpa using readSectors_spec dest s (n := 1) h le_rfl

theorem writeSectors_one (hata : dev.type = .ata) (h : lba < dev.addressable) :
    (dev.writeSectors lba m src 1 channel).drive.disk =
      channel.drive.disk.copy (512 * dev.target lba) m src 512 := by
  simpa using writeSectors_spec m src channel (n := 1) hata h le_rfl

theorem readOneByOne_spec (h : lba + n ≤ dev.addressable) :
    (readOneByOne dev lba dest n s).1 = s.1.copy dest (sectorBytes dev s.2.drive.disk lba) 0
        (dev.type.sectorSize * n) ∧
      (readOneByOne dev lba dest n s).2.drive.disk = s.2.drive.disk := by
  rw [readOneByOne]
  induction n with
  | zero => simp
  | succ n ih =>
    obtain ⟨hmem, hdisk⟩ := ih (by omega)
    rw [List.range_succ, List.foldl_append, List.foldl_cons, List.foldl_nil]
    obtain ⟨hmem', hdisk'⟩ := readSectors_one (dest + n * dev.type.sectorSize)
      ((List.range n).foldl
        (fun s i => dev.readSectors (lba + i) (dest + i * dev.type.sectorSize) 1 s) s)
      (by omega : lba + n < dev.addressable)
    refine ⟨?_, hdisk'.trans hdisk⟩
    rw [hmem', hmem, hdisk, Nat.mul_succ, ← Mem.copy_append, Nat.mul_comm n]
    refine Mem.copy_congr fun i hi => ?_
    rw [sectorBytes, Nat.zero_add, Nat.mul_add_div (sectorSize_pos dev), Nat.mul_add_mod,
      Nat.div_eq_of_lt hi, Nat.mod_eq_of_lt hi, Nat.add_zero]

/-- Sectors that follow each other are written like one piece. -/
theorem writeOneByOne_of_target (hata : dev.type = .ata) (h : lba + n ≤ dev.addressable)
    (htarget : ∀ i < n, dev.target (lba + i) = dev.target lba + i) :
    (writeOneByOne dev lba m src n channel).drive.disk =
      channel.drive.disk.copy (512 * dev.target lba) m src (512 * n) := by
  have hsize : dev.type.sectorSize = 512 := by rw [hata]; rfl
  rw [writeOneByOne, hsize]
  induction n with
  | zero => simp
  | succ n ih =>
    rw [List.range_succ, List.foldl_append, List.foldl_cons, List.foldl_nil,
      writeSectors_one hata (by omega), ih (by omega) fun i hi => htarget i (by omega),
      htarget n (by omega), Nat.mul_add, Nat.mul_comm n, Mem.copy_append, ← Nat.mul_succ]

/-- What sectors that are all the same leave on the disk. -/
theorem writeOneByOne_const {c : Byte} (hata : dev.type = .ata) (h : lba + n ≤ dev.addressable) :
    (writeOneByOne dev lba (fun _ => c) src n channel).drive.disk x =
      if ∃ i < n, dev.target (lba + i) = x / 512 then c else channel.drive.disk x := by
  rw [writeOneByOne]
  induction n with
  | zero => simp
  | succ n ih =>
    have hsector : 512 * dev.target (lba + n) ≤ x ∧ x < 512 * dev.target (lba + n) + 512 ↔
        dev.target (lba + n) = x / 512 := by omega
    rw [List.range_succ, List.foldl_append, List.foldl_cons, List.foldl_nil,
      writeSectors_one hata (by omega), Mem.copy, ih (by omega), if_congr hsector rfl rfl]
    by_cases hlast : dev.target (lba + n) = x / 512
    · rw [if_pos hlast, if_pos ⟨n, n.lt_succ_self, hlast⟩]
    · rw [if_neg hlast]
      congr 1
      grind

/-! ## When they agree -/

/-- The sectors that are meant follow each other, except where the truncated cylinder starts
    again. -/
theorem target_add (h : dev.Chs → lba % (256 * 16 * 63) + k < 256 * 16 * 63) :
    dev.target (lba + k) = dev.target lba + k := by
  rw [IDEDevice.target, IDEDevice.target]
  split_ifs with hchs
  · have := h hchs
    omega
  · rfl

/-- A call with 256 sectors or more leaves out one of them. -/
theorem exists_target_not_mem (dev : IDEDevice) (lba : ℕ) (hn : 256 ≤ n) : ∃ i < n,
    ¬(dev.target (lba + n / 256 * 256) ≤ dev.target (lba + i) ∧
      dev.target (lba + i) < dev.target (lba + n / 256 * 256) + n % 256) := by
  by_contra! hmem
  have hfirst := hmem 0 (by omega)
  have hlast := hmem 255 (by omega)
  simp only [IDEDevice.target] at hfirst hlast
  split_ifs at hfirst hlast
  · omega
  · omega

/-- A channel whose drive has had no command yet. -/
def IDEChannel.reset (disk : Mem) : IDEChannel :=
  ⟨0, disk, ⟨0, ⟨0, 0⟩, ⟨0, 0⟩, ⟨0, 0⟩, ⟨0, 0⟩, 0⟩, .none⟩

/-- A disk with only one sector that is not empty. -/
def oneSector (size sector : ℕ) : Mem := fun x => if x / size = sector then 1 else 0

theorem lt_of_reads (h : lba + n ≤ dev.addressable) (hn : 1 ≤ n)
    (hreads : ReadsOneByOne dev lba n) : n < 256 := by
  by_contra! hge
  have hpos : 0 < dev.type.sectorSize * n := Nat.mul_pos (sectorSize_pos dev) hn
  -- The first byte is one of those that are left out.
  have hbyte := congrFun (hreads 0 (fun _ => 0, .reset fun _ => 1)) 0
  rw [(readSectors_spec _ _ h hn).1, (readOneByOne_spec h).1, Mem.copy_of_not_mem (by omega),
    Mem.copy_of_mem (by omega)] at hbyte
  exact absurd hbyte (by simp [sectorBytes, IDEChannel.reset])

theorem le_of_reads (h : lba + n ≤ dev.addressable) (hn : 1 ≤ n) (hlt : n < 256)
    (hreads : ReadsOneByOne dev lba n)
    (hchs : dev.Chs) : lba % (256 * 16 * 63) + n ≤ 256 * 16 * 63 := by
  by_contra! hgt
  have hpos := sectorSize_pos dev
  obtain ⟨i, hi⟩ : ∃ i, lba % (256 * 16 * 63) + i = 256 * 16 * 63 :=
    Nat.le.dest (Nat.mod_lt lba (by decide)).le
  have hin : i < n := by omega
  have htarget : dev.target lba + i = 256 * 16 * 63 := by rw [IDEDevice.target, if_pos hchs, hi]
  have htarget' : dev.target (lba + i) ≠ 256 * 16 * 63 := by
    rw [IDEDevice.target, if_pos hchs]
    omega
  -- The call goes on to a sector that no other address stands for.
  have hmem := hreads 0
    (fun _ => 0, .reset (oneSector dev.type.sectorSize (256 * 16 * 63)))
  rw [(readSectors_spec _ _ h hn).1, (readOneByOne_spec h).1, Nat.div_eq_of_lt hlt,
    Nat.mod_eq_of_lt hlt] at hmem
  simp only [Nat.zero_mul, Nat.add_zero] at hmem
  have hbyte := Mem.copy_eq_copy_iff.1 hmem (dev.type.sectorSize * i)
    (Nat.mul_lt_mul_of_pos_left hin hpos)
  rw [← Nat.mul_add, htarget, sectorBytes, Nat.zero_add, Nat.mul_div_cancel_left _ hpos,
    Nat.mul_mod_right, Nat.add_zero] at hbyte
  simp [IDEChannel.reset, oneSector, hpos, htarget'] at hbyte

theorem reads_of_le (h : lba + n ≤ dev.addressable) (hn : 1 ≤ n) (hlt : n < 256)
    (hchs : dev.Chs → lba % (256 * 16 * 63) + n ≤ 256 * 16 * 63) :
    (dev.readSectors lba dest n s).1 = (readOneByOne dev lba dest n s).1 := by
  rw [(readSectors_spec _ _ h hn).1, (readOneByOne_spec h).1, Nat.mod_eq_of_lt hlt,
    Nat.div_eq_of_lt hlt]
  simp only [Nat.zero_mul, Nat.add_zero]
  refine Mem.copy_congr fun i hi => ?_
  have hi' : i / dev.type.sectorSize < n := Nat.div_lt_of_lt_mul hi
  rw [sectorBytes, Nat.zero_add, target_add fun hchs' => by have := hchs hchs'; omega,
    Nat.mul_add, Nat.add_assoc, Nat.div_add_mod]

/-- Reads agree exactly when the loop counts every sector and the cylinder stays below the
    truncation. -/
theorem reads_iff (h : lba + n ≤ dev.addressable) (hn : 1 ≤ n) :
    ReadsOneByOne dev lba n ↔
      n < 256 ∧ (dev.Chs → lba % (256 * 16 * 63) + n ≤ 256 * 16 * 63) :=
  ⟨fun hreads => ⟨lt_of_reads h hn hreads, le_of_reads h hn (lt_of_reads h hn hreads) hreads⟩,
    fun ⟨hlt, hchs⟩ _ _ => reads_of_le h hn hlt hchs⟩

theorem writes_of_le (hata : dev.type = .ata) (h : lba + n ≤ dev.addressable) (hn : 1 ≤ n)
    (hlt : n < 256) (hchs : dev.Chs → lba % (256 * 16 * 63) + n ≤ 256 * 16 * 63) :
    (dev.writeSectors lba m src n channel).drive.disk =
      (writeOneByOne dev lba m src n channel).drive.disk := by
  have htarget : ∀ i < n, dev.target (lba + i) = dev.target lba + i := fun i hi =>
    target_add fun hchs' => by have := hchs hchs'; omega
  rw [writeSectors_spec _ _ _ hata h hn, writeOneByOne_of_target hata h htarget,
    Nat.mod_eq_of_lt hlt, Nat.div_eq_of_lt hlt]
  simp only [Nat.zero_mul, Nat.add_zero]

theorem lt_of_writes (hata : dev.type = .ata) (h : lba + n ≤ dev.addressable) (hn : 1 ≤ n)
    (hwrites : WritesOneByOne dev lba n) : n < 256 := by
  by_contra! hge
  obtain ⟨i, hi, hmem⟩ := exists_target_not_mem dev lba hge
  have hbyte := congrFun (hwrites (fun _ => 1) 0 (.reset fun _ => 0)) (512 * dev.target (lba + i))
  rw [writeSectors_spec _ _ _ hata h hn, writeOneByOne_const hata h,
    if_pos ⟨i, hi, (Nat.mul_div_cancel_left _ (by decide)).symm⟩,
    Mem.copy_of_not_mem (by omega)] at hbyte
  exact absurd hbyte (by simp [IDEChannel.reset])

theorem le_of_writes (hata : dev.type = .ata) (h : lba + n ≤ dev.addressable) (hn : 1 ≤ n)
    (hlt : n < 256) (hwrites : WritesOneByOne dev lba n) (hchs : dev.Chs) :
    lba % (256 * 16 * 63) + n ≤ 256 * 16 * 63 := by
  by_contra! hgt
  have htarget (k : ℕ) : dev.target k = k % (256 * 16 * 63) := if_pos hchs
  have hbyte := congrFun (hwrites (fun _ => 1) 0 (.reset fun _ => 0)) (512 * (256 * 16 * 63))
  rw [writeSectors_spec _ _ _ hata h hn, writeOneByOne_const hata h, Nat.div_eq_of_lt hlt,
    Nat.mod_eq_of_lt hlt, Nat.zero_mul, Nat.add_zero, htarget, Mem.copy_of_mem (by omega),
    if_neg (by rintro ⟨i, -, hi⟩; rw [htarget] at hi; omega)] at hbyte
  exact absurd hbyte (by simp [IDEChannel.reset])

/-- Writes agree under the same condition. -/
theorem writes_iff (hata : dev.type = .ata) (h : lba + n ≤ dev.addressable) (hn : 1 ≤ n) :
    WritesOneByOne dev lba n ↔
      n < 256 ∧ (dev.Chs → lba % (256 * 16 * 63) + n ≤ 256 * 16 * 63) := by
  refine ⟨fun hwrites => ?_, fun ⟨hlt, hchs⟩ _ _ _ => writes_of_le hata h hn hlt hchs⟩
  have hlt := lt_of_writes hata h hn hwrites
  exact ⟨hlt, le_of_writes hata h hn hlt hwrites⟩

/-- Transfers are those of single sectors exactly for fewer than 256 sectors, where the cylinder is
    not truncated in the middle. -/
theorem oneByOne_iff (hn : 1 ≤ n) (h : lba + n ≤ dev.addressable) :
    ((ReadsOneByOne dev lba n ∧ (dev.type = .ata → WritesOneByOne dev lba n)) ↔
        n < 256 ∧ (dev.Chs → lba % (256 * 16 * 63) + n ≤ 256 * 16 * 63)) ∧
      (dev.type = .ata → (WritesOneByOne dev lba n ↔
        n < 256 ∧ (dev.Chs → lba % (256 * 16 * 63) + n ≤ 256 * 16 * 63))) := by
  have hreads := reads_iff h hn
  refine ⟨⟨fun hone => hreads.1 hone.1, fun hle => ?_⟩, fun hata => writes_iff hata h hn⟩
  exact ⟨hreads.2 hle, fun hata => (writes_iff hata h hn).2 hle⟩

/-- Two sectors of a device that takes sector numbers. -/
theorem oneByOne_twoSectors :
    ReadsOneByOne ⟨0, .ata, 0x200⟩ 0 2 ∧ WritesOneByOne ⟨0, .ata, 0x200⟩ 0 2 := by
  have hone := (@oneByOne_iff ⟨0, .ata, 0x200⟩ 0 2 (by decide) (by decide)).1.2
    ⟨by decide, fun hchs => absurd hchs (by decide)⟩
  exact ⟨hone.1, hone.2 rfl⟩

/-- 256 sectors are not transferred at all. -/
theorem not_oneByOne : ¬∀ (dev : IDEDevice) (lba n : ℕ), 1 ≤ n → lba + n ≤ dev.addressable →
    ReadsOneByOne dev lba n ∧ (dev.type = .ata → WritesOneByOne dev lba n) := by
  intro hall
  have hone := hall ⟨0, .ata, 0x200⟩ 0 256 (by decide) (by decide)
  exact absurd (lt_of_reads (by decide) (by decide) hone.1) (by decide)

end SmartOS
