import SmartOS.Bytes

/-!
# IDE devices

The functions of `IDE.cpp` that transfer sectors, and the drive that they talk to
through its ports.

The drive (`Drive`) has a *task file*: registers for a sector count and an
address, which remember the value written before the last (that is how the longer
addresses of 48 bits are written), and one that selects a drive and the kind of
address. A command starts a transfer, in which every string operation on the data
port moves one sector, and the sectors come one after the other. Waiting for the
drive always succeeds and has no effect, so it is left out.

Values of one byte are natural numbers, reduced where the program truncates them.
-/

namespace SmartOS

open Prog

/-! ## The drive -/

/-- A register, and the value written to it before. -/
structure Register where
  current : ℕ
  previous : ℕ
  deriving Repr, DecidableEq

def Register.write (r : Register) (data : ℕ) : Register := ⟨data, r.current⟩

structure TaskFile where
  features : ℕ
  seccount : Register
  lba0 : Register
  lba1 : Register
  lba2 : Register
  hddevsel : ℕ
  deriving Repr, DecidableEq

/-- What string operations on the data port do: nothing, a sector each with so many to come, or a
    packet with a command. -/
inductive Transfer
  | none
  | read (sector remaining : ℕ)
  | write (sector remaining : ℕ)
  | packet
  deriving Repr, DecidableEq

structure Drive where
  disk : Mem
  taskFile : TaskFile
  transfer : Transfer

/-- The ports of a channel, by the range they are in. -/
inductive Port
  | base (k : ℕ)
  | control (k : ℕ)
  | busMaster (k : ℕ)
  deriving Repr, DecidableEq

/-- The address of 28 bits: a sector number, or cylinder, head and sector. -/
def TaskFile.address (r : TaskFile) : ℕ :=
  if r.hddevsel / 64 % 2 = 1 then
    r.lba0.current + 2 ^ 8 * r.lba1.current + 2 ^ 16 * r.lba2.current + 2 ^ 24 * (r.hddevsel % 16)
  else ((r.lba1.current + 2 ^ 8 * r.lba2.current) * 16 + r.hddevsel % 16) * 63 + r.lba0.current - 1

/-- The address of 48 bits. -/
def TaskFile.addressExt (r : TaskFile) : ℕ :=
  r.lba0.current + 2 ^ 8 * r.lba1.current + 2 ^ 16 * r.lba2.current + 2 ^ 24 * r.lba0.previous +
    2 ^ 32 * r.lba1.previous + 2 ^ 40 * r.lba2.previous

/-- The number of sectors that a count stands for. -/
def sectorCount (count : ℕ) : ℕ := if count = 0 then 256 else count

namespace Drive

/-- A byte written to the command register. -/
def command (d : Drive) (cmd : ℕ) : Drive :=
  { d with transfer :=
      match cmd with
      | 0x20 => .read d.taskFile.address (sectorCount d.taskFile.seccount.current)
      | 0x24 => .read d.taskFile.addressExt (sectorCount d.taskFile.seccount.current)
      | 0x30 => .write d.taskFile.address (sectorCount d.taskFile.seccount.current)
      | 0x34 => .write d.taskFile.addressExt (sectorCount d.taskFile.seccount.current)
      | 0xA0 => .packet
      | _ => .none }

/-- A byte written to a port. Those beyond the task file do not matter for transfers. -/
def outb (d : Drive) (port : Port) (data : ℕ) : Drive :=
  let r := d.taskFile
  match port with
  | .base 1 => { d with taskFile := { r with features := data } }
  | .base 2 => { d with taskFile := { r with seccount := r.seccount.write data } }
  | .base 3 => { d with taskFile := { r with lba0 := r.lba0.write data } }
  | .base 4 => { d with taskFile := { r with lba1 := r.lba1.write data } }
  | .base 5 => { d with taskFile := { r with lba2 := r.lba2.write data } }
  | .base 6 => { d with taskFile := { r with hddevsel := data } }
  | .base 7 => d.command data
  | _ => d

/-- `rep insw` with so many words, which are a sector: its bytes. -/
def insw (d : Drive) (words : ℕ) : Mem × Drive :=
  match d.transfer with
  | .read sector (remaining + 1) =>
    (fun i => d.disk (2 * words * sector + i), { d with transfer := .read (sector + 1) remaining })
  | _ => (fun _ => 0xFF, d)

/-- The command in a packet. -/
def packetCommand (packet : Mem) : Transfer :=
  if packet 0 = 0xA8 then
    .read ((packet 5).toNat + 2 ^ 8 * (packet 4).toNat + 2 ^ 16 * (packet 3).toNat +
        2 ^ 24 * (packet 2).toNat)
      (sectorCount ((packet 9).toNat + 2 ^ 8 * (packet 8).toNat + 2 ^ 16 * (packet 7).toNat +
        2 ^ 24 * (packet 6).toNat))
  else .none

/-- `rep outsw` with so many words, which are a sector or a packet. -/
def outsw (d : Drive) (words : ℕ) (data : Mem) : Drive :=
  match d.transfer with
  | .write sector (remaining + 1) =>
    { d with
      disk := d.disk.copy (2 * words * sector) data 0 (2 * words)
      transfer := .write (sector + 1) remaining }
  | .packet => { d with transfer := packetCommand data }
  | _ => d

end Drive

/-! ## Channels -/

/-- A channel, with the drive on it that is used. -/
structure IDEChannel where
  nInterrupt : ℕ
  drive : Drive

namespace IDEChannel

def outb (channel : IDEChannel) (port : Port) (data : ℕ) : IDEChannel :=
  { channel with drive := channel.drive.outb port data }

/-- The port of a register. -/
def port (reg : ℕ) : Port :=
  if reg < 8 then .base reg
  else if reg < 0xC then .base (reg - 6)
  else if reg < 0xE then .control (reg - 0xA)
  else .busMaster (reg - 0xE)

/-- `write(reg, data)`. The registers from 8 to 11 are those below them, a second time. -/
def write (channel : IDEChannel) (reg data : ℕ) : IDEChannel :=
  let high := 7 < reg ∧ reg < 0xC
  let channel := if high then channel.outb (port 0xC) (0x80 ||| channel.nInterrupt) else channel
  let channel := channel.outb (port reg) data
  if high then channel.outb (port 0xC) channel.nInterrupt else channel

/-- `nInterrupt` set, and written to the control register. -/
def setInterrupt (channel : IDEChannel) (nInterrupt : ℕ) : IDEChannel :=
  { channel with nInterrupt := nInterrupt }.write 0xC nInterrupt

end IDEChannel

/-! ## Devices -/

inductive DeviceType
  | ata
  | atapi
  deriving Repr, DecidableEq

/-- A device: which of the two on its channel, and what it can do. -/
structure IDEDevice where
  drive : Fin 2
  type : DeviceType
  capabilities : ℕ
  deriving Repr, DecidableEq

/-- The kinds of addresses: `mode` 0, 1 and 2. -/
inductive AddressMode
  | chs
  | lba28
  | lba48
  deriving Repr, DecidableEq

/-- An address as it is written to the drive. -/
structure Address where
  mode : AddressMode
  io0 : ℕ
  io1 : ℕ
  io2 : ℕ
  io3 : ℕ
  io4 : ℕ
  io5 : ℕ
  head : ℕ
  deriving Repr, DecidableEq

namespace IDEDevice

/-- The address of a sector. The variable for the cylinder is of one byte. -/
def address (dev : IDEDevice) (lba : ℕ) : Address :=
  if lba ≥ 0x10000000 then
    ⟨.lba48, (lba &&& 0x0000000000FF) >>> 0, (lba &&& 0x00000000FF00) >>> 8,
      (lba &&& 0x000000FF0000) >>> 16, (lba &&& 0x0000FF000000) >>> 24,
      (lba &&& 0x00FF00000000) >>> 32, (lba &&& 0xFF0000000000) >>> 40, 0⟩
  else if dev.capabilities &&& 0x200 ≠ 0 then
    ⟨.lba28, (lba &&& 0x00000FF) >>> 0, (lba &&& 0x000FF00) >>> 8, (lba &&& 0x0FF0000) >>> 16,
      0, 0, 0, (lba &&& 0xF000000) >>> 24⟩
  else
    let sect := (lba % 63 + 1) % 256
    let cyl := (lba + 1 - sect) / (16 * 63) % 256
    ⟨.chs, sect, (cyl >>> 0) &&& 0xFF, (cyl >>> 8) &&& 0xFF, 0, 0, 0,
      (lba + 1 - sect) % (16 * 63) / 63 % 256⟩

/-- What `readSectors` and `writeSectors` do for an ATA device before the command. -/
def ataSetUp (dev : IDEDevice) (lba sectors : ℕ) (channel : IDEChannel) : IDEChannel :=
  let a := dev.address lba
  let channel := channel.setInterrupt 2
  let channel :=
    if a.mode = .chs then channel.write 6 (0xA0 ||| dev.drive.val <<< 4 ||| a.head)
    else channel.write 6 (0xE0 ||| dev.drive.val <<< 4 ||| a.head)
  let channel :=
    if a.mode = .lba48 then
      (((channel.write 8 0).write 9 a.io3).write 0xA a.io4).write 0xB a.io5
    else channel
  (((channel.write 2 sectors).write 3 a.io0).write 4 a.io1).write 5 a.io2

/-- The same with the command, which is `ext` for addresses of 48 bits and `pio` else. -/
def ataCommand (dev : IDEDevice) (lba sectors pio ext : ℕ) (channel : IDEChannel) : IDEChannel :=
  (dev.ataSetUp lba sectors channel).write 7
    (if (dev.address lba).mode = .lba48 then ext else pio)

/-- The command after a transfer, which empties the drive's cache. -/
def ataFlush (dev : IDEDevice) (lba : ℕ) (channel : IDEChannel) : IDEChannel :=
  channel.write 7 (if (dev.address lba).mode = .lba48 then 0xEA else 0xE7)

/-- The packet of a read. -/
def packet (lba sectors : ℕ) : Mem := fun i =>
  match i with
  | 0 => 0xA8
  | 2 => BitVec.ofNat 8 ((lba >>> 24) &&& 0xFF)
  | 3 => BitVec.ofNat 8 ((lba >>> 16) &&& 0xFF)
  | 4 => BitVec.ofNat 8 ((lba >>> 8) &&& 0xFF)
  | 5 => BitVec.ofNat 8 (lba &&& 0xFF)
  | 9 => BitVec.ofNat 8 sectors
  | _ => 0

/-- What `readSectors` does for an ATAPI device up to the transfer. -/
def atapiCommand (dev : IDEDevice) (lba sectors : ℕ) (channel : IDEChannel) : IDEChannel :=
  let channel := channel.setInterrupt 0
  let channel := channel.write 6 (dev.drive.val <<< 4)
  let channel := ((channel.write 1 0).write 4 (2048 &&& 0xFF)).write 5 ((2048 >>> 8) &&& 0xFF)
  let channel := channel.write 7 0xA0
  { channel with drive := channel.drive.outsw 6 (packet lba sectors) }

/-- `rep insw` to `dest`. -/
def readSector (words dest : ℕ) (s : Mem × IDEChannel) : Mem × IDEChannel :=
  let (data, drive) := s.2.drive.insw words
  (s.1.copy dest data 0 (2 * words), { s.2 with drive := drive })

/-- `rep outsw` from `src`. -/
def writeSector (words : ℕ) (m : Mem) (src : ℕ) (channel : IDEChannel) : IDEChannel :=
  { channel with drive := channel.drive.outsw words fun i => m (src + i) }

/-- `readSectors` with at most 256 sectors. -/
def readChunk (dev : IDEDevice) (lba dest numSectors : ℕ) (s : Mem × IDEChannel) :
    Mem × IDEChannel :=
  let sectors := numSectors &&& 0xFF
  match dev.type with
  | .ata =>
    let s := (s.1, dev.ataCommand lba sectors 0x20 0x24 s.2)
    let s := (List.range sectors).foldl (fun s i => readSector 256 (dest + i * 512) s) s
    (s.1, dev.ataFlush lba s.2)
  | .atapi =>
    let s := (s.1, dev.atapiCommand lba sectors s.2)
    (List.range sectors).foldl (fun s i => readSector 1024 (dest + i * 2048) s) s

/-- `readSectors`. The calls that it makes of itself are with at most 256 sectors. -/
def readSectors (dev : IDEDevice) (lba dest numSectors : ℕ) (s : Mem × IDEChannel) :
    Mem × IDEChannel :=
  if numSectors > 256 then
    let s := (List.range (numSectors / 256)).foldl
      (fun s k => dev.readChunk (wrap (lba + k * 256)) (dest + k * 256 * 512) 256 s) s
    let whole := numSectors / 256 * 256
    if numSectors &&& 0xFF ≠ 0 then
      dev.readChunk (wrap (lba + whole)) (dest + whole * 512) (numSectors &&& 0xFF) s
    else s
  else dev.readChunk lba dest numSectors s

/-- `writeSectors` with at most 256 sectors. It does nothing for an ATAPI device. -/
def writeChunk (dev : IDEDevice) (lba : ℕ) (m : Mem) (src numSectors : ℕ) (channel : IDEChannel) :
    IDEChannel :=
  match dev.type with
  | .ata =>
    let sectors := numSectors &&& 0xFF
    let channel := dev.ataCommand lba sectors 0x30 0x34 channel
    let channel := (List.range sectors).foldl
      (fun channel i => writeSector 256 m (src + i * 512) channel) channel
    dev.ataFlush lba channel
  | .atapi => channel

def writeSectors (dev : IDEDevice) (lba : ℕ) (m : Mem) (src numSectors : ℕ)
    (channel : IDEChannel) : IDEChannel :=
  if numSectors > 256 then
    let channel := (List.range (numSectors / 256)).foldl
      (fun channel k => dev.writeChunk (wrap (lba + k * 256)) m (src + k * 256 * 512) 256 channel)
      channel
    let whole := numSectors / 256 * 256
    if numSectors &&& 0xFF ≠ 0 then
      dev.writeChunk (wrap (lba + whole)) m (src + whole * 512) (numSectors &&& 0xFF) channel
    else channel
  else dev.writeChunk lba m src numSectors channel

end IDEDevice

end SmartOS
