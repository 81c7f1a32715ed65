import SmartOS.IDE.Basic
import SmartOS.Lib.Bits

/-!
# Commands of IDE devices

What the drive makes of a command: which sector it takes the address for
(`ataSetUp_spec`, `atapiCommand_read`), and which sectors move when the string
operations follow.

* `IDEDevice.target`: the sector that is meant, except that a device addressed by
  cylinder, head and sector only sees the lower byte of the cylinder;
* `readChunk_spec`, `writeChunk_spec`: a call with at most 256 sectors is one copy,
  of as many sectors as fit in the byte that counts them.
-/

namespace SmartOS

open Prog

variable {dev : IDEDevice} {channel : IDEChannel} {lba sectors reg data : ℕ}

/-! ## Addresses -/

namespace IDEDevice

/-- The device is addressed by cylinder, head and sector. -/
def Chs (dev : IDEDevice) : Prop := dev.type = .ata ∧ dev.capabilities &&& 0x200 = 0

instance (dev : IDEDevice) : Decidable dev.Chs :=
  inferInstanceAs (Decidable (dev.type = .ata ∧ dev.capabilities &&& 0x200 = 0))

/-- The number of sectors that there may be: as many as can be addressed. -/
def addressable (dev : IDEDevice) : ℕ :=
  match dev.type with
  | .atapi => 2 ^ 32
  | .ata => if dev.capabilities &&& 0x200 = 0 then 65536 * 16 * 63 else 2 ^ 48

/-- The sector that the drive takes an address for: the cylinder is truncated to a byte. -/
def target (dev : IDEDevice) (lba : ℕ) : ℕ := if dev.Chs then lba % (256 * 16 * 63) else lba

end IDEDevice

theorem write_low (h : reg < 8) : channel.write reg data = channel.outb (.base reg) data := by
  rw [IDEChannel.write, if_neg (by omega), if_neg (by omega), IDEChannel.port, if_pos h]

theorem write_high (h : 7 < reg) (h' : reg < 0xC) :
    channel.write reg data = channel.outb (.base (reg - 6)) data := by
  have hport : IDEChannel.port reg = .base (reg - 6) := by
    rw [IDEChannel.port, if_neg (by omega), if_pos h']
  rw [IDEChannel.write, if_pos ⟨h, h'⟩, if_pos ⟨h, h'⟩, hport]
  rfl

theorem setInterrupt_eq {n : ℕ} : channel.setInterrupt n = { channel with nInterrupt := n } := rfl

/-- The register that selects the drive, without and with the bit for sector numbers. -/
theorem hddevsel_eq (drive : Fin 2) {head : ℕ} (hhead : head < 16) :
    (0xA0 ||| drive.val <<< 4 ||| head) / 64 % 2 = 0 ∧
      (0xE0 ||| drive.val <<< 4 ||| head) / 64 % 2 = 1 ∧
      (0xA0 ||| drive.val <<< 4 ||| head) % 16 = head ∧
      (0xE0 ||| drive.val <<< 4 ||| head) % 16 = head := by
  have hor (a : ℕ) (ha : a % 2 ^ 4 = 0) : a ||| head = a + head := or_eq_add ha hhead
  fin_cases drive
  · rw [hor _ (by decide), hor _ (by decide)]
    simp
    omega
  · rw [hor _ (by decide), hor _ (by decide)]
    simp
    omega

theorem address_of_ge (h : 0x10000000 ≤ lba) : dev.address lba =
    ⟨.lba48, lba / 2 ^ 0 % 2 ^ 8, lba / 2 ^ 8 % 2 ^ 8, lba / 2 ^ 16 % 2 ^ 8, lba / 2 ^ 24 % 2 ^ 8,
      lba / 2 ^ 32 % 2 ^ 8, lba / 2 ^ 40 % 2 ^ 8, 0⟩ := by
  rw [IDEDevice.address, if_pos h, ← and_field_shift, ← and_field_shift, ← and_field_shift,
    ← and_field_shift, ← and_field_shift, ← and_field_shift]
  rfl

theorem address_of_lt (h : lba < 0x10000000) (hcap : dev.capabilities &&& 0x200 ≠ 0) :
    dev.address lba =
      ⟨.lba28, lba / 2 ^ 0 % 2 ^ 8, lba / 2 ^ 8 % 2 ^ 8, lba / 2 ^ 16 % 2 ^ 8, 0, 0, 0,
        lba / 2 ^ 24 % 2 ^ 4⟩ := by
  rw [IDEDevice.address, if_neg (by omega), if_pos hcap, ← and_field_shift, ← and_field_shift,
    ← and_field_shift, ← and_field_shift]
  rfl

/-- The second byte of the cylinder is always zero. -/
theorem address_of_chs (h : lba < 0x10000000) (hcap : dev.capabilities &&& 0x200 = 0) :
    dev.address lba =
      ⟨.chs, lba % 63 + 1, lba / 1008 % 256, 0, 0, 0, 0, lba / 63 % 16⟩ := by
  have hsect : (lba % 63 + 1) % 256 = lba % 63 + 1 := by omega
  have hcyl : (lba + 1 - (lba % 63 + 1)) / (16 * 63) % 256 = lba / 1008 % 256 := by omega
  have hhead : (lba + 1 - (lba % 63 + 1)) % (16 * 63) / 63 % 256 = lba / 63 % 16 := by omega
  have hlow : (lba / 1008 % 256) >>> 0 &&& 0xFF = lba / 1008 % 256 :=
    (shift_and_field _ 0 8).trans (by omega)
  have hhigh : (lba / 1008 % 256) >>> 8 &&& 0xFF = 0 := (shift_and_field _ 8 8).trans (by omega)
  rw [IDEDevice.address, if_neg (by omega), if_neg (by simp [hcap])]
  simp only [hsect, hcyl, hhead, hlow, hhigh]

/-- How many sectors a kind of address reaches. -/
def AddressMode.limit : AddressMode → ℕ
  | .chs => 65536 * 16 * 63
  | .lba28 => 2 ^ 28
  | .lba48 => 2 ^ 48

/-- What the drive reads in the task file. Cylinders are truncated to a byte. -/
theorem ataSetUp_address (sectors : ℕ) (channel : IDEChannel)
    (h : lba < (dev.address lba).mode.limit) :
    (dev.ataSetUp lba sectors channel).drive.disk = channel.drive.disk ∧
      (dev.ataSetUp lba sectors channel).drive.taskFile.seccount.current = sectors ∧
      match (dev.address lba).mode with
      | .chs =>
        (dev.ataSetUp lba sectors channel).drive.taskFile.address = lba % (256 * 16 * 63)
      | .lba28 => (dev.ataSetUp lba sectors channel).drive.taskFile.address = lba
      | .lba48 => (dev.ataSetUp lba sectors channel).drive.taskFile.addressExt = lba := by
  rw [IDEDevice.ataSetUp]
  by_cases hge : 0x10000000 ≤ lba
  · rw [address_of_ge hge] at h ⊢
    simp (disch := decide) only [write_low, write_high, setInterrupt_eq, IDEChannel.outb,
      Drive.outb, Register.write, reduceCtorEq, if_true, if_false, true_and]
    simp only [AddressMode.limit] at h
    simp only [TaskFile.addressExt]
    omega
  · by_cases hcap : dev.capabilities &&& 0x200 = 0
    · have haddr := address_of_chs (by omega : lba < 0x10000000) hcap
      obtain ⟨hbit, -, hlow, -⟩ := hddevsel_eq dev.drive (by omega : lba / 63 % 16 < 16)
      rw [haddr] at h ⊢
      simp (disch := decide) only [write_low, setInterrupt_eq, IDEChannel.outb, Drive.outb,
        Register.write, reduceCtorEq, if_true, if_false, true_and]
      simp only [AddressMode.limit] at h
      simp only [TaskFile.address, hbit, hlow]
      rw [if_neg (by decide)]
      omega
    · obtain ⟨-, hbit, -, hlow⟩ := hddevsel_eq dev.drive
        (by omega : lba / 2 ^ 24 % 2 ^ 4 < 16)
      rw [address_of_lt (by omega) hcap]
      simp (disch := decide) only [write_low, setInterrupt_eq, IDEChannel.outb, Drive.outb,
        Register.write, reduceCtorEq, if_false, true_and]
      simp only [TaskFile.address, if_pos hbit, hlow]
      omega

/-- The task file, before the command. -/
theorem ataSetUp_spec (sectors : ℕ) (channel : IDEChannel) (hata : dev.type = .ata)
    (h : lba < dev.addressable) :
    (dev.ataSetUp lba sectors channel).drive.disk = channel.drive.disk ∧
      (dev.ataSetUp lba sectors channel).drive.taskFile.seccount.current = sectors ∧
      if (dev.address lba).mode = .lba48 then
        (dev.ataSetUp lba sectors channel).drive.taskFile.addressExt = dev.target lba
      else (dev.ataSetUp lba sectors channel).drive.taskFile.address = dev.target lba := by
  rw [IDEDevice.addressable, hata] at h
  dsimp only at h
  have hspec (hmode : lba < (dev.address lba).mode.limit) := ataSetUp_address sectors channel hmode
  -- The address is by cylinder, head and sector, or by block in 28 or in 48 bits.
  by_cases hcap : dev.capabilities &&& 0x200 = 0
  · rw [if_pos hcap] at h
    have htarget : dev.target lba = lba % (256 * 16 * 63) := if_pos ⟨hata, hcap⟩
    rw [htarget]
    rw [address_of_chs (by omega) hcap] at hspec ⊢
    exact hspec h
  · rw [if_neg hcap] at h
    have htarget : dev.target lba = lba := if_neg fun h => hcap h.2
    rw [htarget]
    by_cases hge : 0x10000000 ≤ lba
    · rw [address_of_ge hge] at hspec ⊢
      exact hspec h
    · rw [address_of_lt (by omega) hcap] at hspec ⊢
      exact hspec (by omega : lba < 2 ^ 28)

/-! ## Commands -/

/-- The bytes of a sector. -/
def DeviceType.sectorSize : DeviceType → ℕ
  | .ata => 512
  | .atapi => 2048

theorem write_command {cmd : ℕ} : (channel.write 7 cmd).drive = channel.drive.command cmd := by
  rw [write_low (by decide)]
  rfl

theorem ataCommand_read (sectors : ℕ) (channel : IDEChannel) (hata : dev.type = .ata)
    (h : lba < dev.addressable) :
    (dev.ataCommand lba sectors 0x20 0x24 channel).drive.disk = channel.drive.disk ∧
      (dev.ataCommand lba sectors 0x20 0x24 channel).drive.transfer =
        .read (dev.target lba) (sectorCount sectors) := by
  obtain ⟨hdisk, hcount, haddress⟩ :=
    ataSetUp_spec sectors channel hata h
  rw [IDEDevice.ataCommand, write_command]
  generalize (dev.ataSetUp lba sectors channel).drive = d at *
  split_ifs at haddress ⊢ <;> exact ⟨hdisk, by rw [← haddress, ← hcount]; rfl⟩

theorem ataCommand_write (sectors : ℕ) (channel : IDEChannel) (hata : dev.type = .ata)
    (h : lba < dev.addressable) :
    (dev.ataCommand lba sectors 0x30 0x34 channel).drive.disk = channel.drive.disk ∧
      (dev.ataCommand lba sectors 0x30 0x34 channel).drive.transfer =
        .write (dev.target lba) (sectorCount sectors) := by
  obtain ⟨hdisk, hcount, haddress⟩ :=
    ataSetUp_spec sectors channel hata h
  rw [IDEDevice.ataCommand, write_command]
  generalize (dev.ataSetUp lba sectors channel).drive = d at *
  split_ifs at haddress ⊢ <;> exact ⟨hdisk, by rw [← haddress, ← hcount]; rfl⟩

theorem ataFlush_disk : (dev.ataFlush lba channel).drive.disk = channel.drive.disk := by
  rw [IDEDevice.ataFlush, write_command]
  rfl

theorem packetCommand_packet (h : lba < 2 ^ 32) (hsectors : sectors < 256) :
    Drive.packetCommand (IDEDevice.packet lba sectors) = .read lba (sectorCount sectors) := by
  have hbyte (k : ℕ) : lba >>> k &&& 0xFF = lba / 2 ^ k % 2 ^ 8 := shift_and_field lba k 8
  have hlow : lba &&& 0xFF = lba % 2 ^ 8 := Nat.and_two_pow_sub_one_eq_mod lba 8
  simp only [Drive.packetCommand, IDEDevice.packet, if_true, hbyte, hlow, BitVec.toNat_ofNat,
    BitVec.ofNat_eq_ofNat, Transfer.read.injEq]
  constructor
  · omega
  · congr 1
    omega

theorem atapiCommand_read (dev : IDEDevice) (channel : IDEChannel) (h : lba < 2 ^ 32)
    (hsectors : sectors < 256) :
    (dev.atapiCommand lba sectors channel).drive.disk = channel.drive.disk ∧
      (dev.atapiCommand lba sectors channel).drive.transfer = .read lba (sectorCount sectors) := by
  rw [← packetCommand_packet h hsectors, IDEDevice.atapiCommand]
  simp (disch := decide) only [write_low, setInterrupt_eq, IDEChannel.outb, Drive.outb]
  exact ⟨rfl, rfl⟩

/-! ## One command -/

variable {words dest src t r k n : ℕ} {s : Mem × IDEChannel} {m : Mem}

theorem readSector_eq (words dest : ℕ) (hs : s.2.drive.transfer = .read t (r + 1)) :
    (IDEDevice.readSector words dest s).1 =
        s.1.copy dest s.2.drive.disk (2 * words * t) (2 * words) ∧
      (IDEDevice.readSector words dest s).2.drive.disk = s.2.drive.disk ∧
      (IDEDevice.readSector words dest s).2.drive.transfer = .read (t + 1) r := by
  simp only [IDEDevice.readSector, Drive.insw, hs, and_self, and_true]
  exact Mem.copy_congr fun i _ => by rw [Nat.zero_add]

/-- The sectors of a transfer, one after the other. -/
theorem foldl_readSector (words dest : ℕ) (hs : s.2.drive.transfer = .read t r) (hk : k ≤ r) :
    ((List.range k).foldl (fun s i => IDEDevice.readSector words (dest + i * (2 * words)) s) s).1 =
        s.1.copy dest s.2.drive.disk (2 * words * t) (2 * words * k) ∧
      ((List.range k).foldl (fun s i => IDEDevice.readSector words (dest + i * (2 * words)) s)
        s).2.drive.disk = s.2.drive.disk ∧
      ((List.range k).foldl (fun s i => IDEDevice.readSector words (dest + i * (2 * words)) s)
        s).2.drive.transfer = .read (t + k) (r - k) := by
  induction k with
  | zero => simpa using hs
  | succ k ih =>
    obtain ⟨hmem, hdisk, htransfer⟩ := ih (by omega)
    rw [show r - k = (r - (k + 1)) + 1 by omega] at htransfer
    rw [List.range_succ, List.foldl_append, List.foldl_cons, List.foldl_nil]
    obtain ⟨hmem', hdisk', htransfer'⟩ :=
      readSector_eq words (dest + k * (2 * words)) htransfer
    refine ⟨?_, hdisk'.trans hdisk, htransfer'⟩
    rw [hmem', hmem, hdisk, Nat.mul_add, Nat.mul_comm k, Mem.copy_append, ← Nat.mul_succ]

theorem writeSector_eq (words : ℕ) (m : Mem) (src : ℕ)
    (hs : channel.drive.transfer = .write t (r + 1)) :
    (IDEDevice.writeSector words m src channel).drive.disk =
        channel.drive.disk.copy (2 * words * t) m src (2 * words) ∧
      (IDEDevice.writeSector words m src channel).drive.transfer = .write (t + 1) r := by
  simp only [IDEDevice.writeSector, Drive.outsw, hs, and_true]
  exact Mem.copy_congr fun i _ => by rw [Nat.zero_add]

theorem foldl_writeSector (words : ℕ) (m : Mem) (src : ℕ)
    (hs : channel.drive.transfer = .write t r) (hk : k ≤ r) :
    ((List.range k).foldl
        (fun channel i => IDEDevice.writeSector words m (src + i * (2 * words)) channel)
        channel).drive.disk = channel.drive.disk.copy (2 * words * t) m src (2 * words * k) ∧
      ((List.range k).foldl
        (fun channel i => IDEDevice.writeSector words m (src + i * (2 * words)) channel)
        channel).drive.transfer = .write (t + k) (r - k) := by
  induction k with
  | zero => simpa using hs
  | succ k ih =>
    obtain ⟨hdisk, htransfer⟩ := ih (by omega)
    rw [show r - k = (r - (k + 1)) + 1 by omega] at htransfer
    rw [List.range_succ, List.foldl_append, List.foldl_cons, List.foldl_nil]
    obtain ⟨hdisk', htransfer'⟩ :=
      writeSector_eq words m (src + k * (2 * words)) htransfer
    refine ⟨?_, htransfer'⟩
    rw [hdisk', hdisk, Nat.mul_add, Nat.mul_comm k, Mem.copy_append, ← Nat.mul_succ]

theorem le_sectorCount (n : ℕ) : n ≤ sectorCount n := by
  rw [sectorCount]
  split_ifs <;> omega

theorem and_0xFF (n : ℕ) : n &&& 0xFF = n % 256 := Nat.and_two_pow_sub_one_eq_mod n 8

/-- A call with at most 256 sectors transfers those that the loop counts: none of 256. -/
theorem readChunk_spec (dest n : ℕ) (s : Mem × IDEChannel) (h : lba < dev.addressable) :
    (dev.readChunk lba dest n s).1 = s.1.copy dest s.2.drive.disk
        (dev.type.sectorSize * dev.target lba) (dev.type.sectorSize * (n % 256)) ∧
      (dev.readChunk lba dest n s).2.drive.disk = s.2.drive.disk := by
  rw [IDEDevice.readChunk, and_0xFF]
  cases htype : dev.type with
  | ata =>
    obtain ⟨hdisk, htransfer⟩ := ataCommand_read (n % 256) s.2 htype h
    obtain ⟨hmem, hdisk', -⟩ := foldl_readSector 256 dest
      (s := (s.1, dev.ataCommand lba (n % 256) 0x20 0x24 s.2)) htransfer (le_sectorCount _)
    exact ⟨hdisk ▸ hmem, ataFlush_disk.trans (hdisk'.trans hdisk)⟩
  | atapi =>
    have htarget : dev.target lba = lba := if_neg fun h => nomatch h.1.symm.trans htype
    rw [IDEDevice.addressable, htype] at h
    obtain ⟨hdisk, htransfer⟩ := atapiCommand_read dev s.2 h
      (Nat.mod_lt n (by decide : 256 > 0))
    obtain ⟨hmem, hdisk', -⟩ := foldl_readSector 1024 dest
      (s := (s.1, dev.atapiCommand lba (n % 256) s.2)) htransfer (le_sectorCount _)
    exact ⟨htarget.symm ▸ hdisk ▸ hmem, hdisk'.trans hdisk⟩

theorem writeChunk_spec (hata : dev.type = .ata) (h : lba < dev.addressable) :
    (dev.writeChunk lba m src n channel).drive.disk =
      channel.drive.disk.copy (512 * dev.target lba) m src (512 * (n % 256)) := by
  rw [IDEDevice.writeChunk, hata]
  dsimp only
  rw [and_0xFF, ataFlush_disk]
  obtain ⟨hdisk, htransfer⟩ := ataCommand_write (n % 256) channel hata h
  exact hdisk ▸ (foldl_writeSector 256 m src htransfer (le_sectorCount _)).1

end SmartOS
