import SmartOS.Bytes
import SmartOS.Lib.Loop

/-!
# FAT16 volumes

The functions of `FAT16.cpp` on clusters and files. A volume lies on a storage
device, which is the bytes of its sectors, one after the other (`Disk`). A file
is a chain of clusters: the FAT holds, for each cluster, the number of the next.

Cluster numbers are 16 bits wide. Every `new` is taken to succeed, as the functions
take it to: it gives a fresh buffer of the size asked for, although `operator new`
is `Heap::malloc`, which may return `NULL`. So the buffer of a cluster is an object
of its own: an access beyond its end is no result (`none`). Loops along chains take
fuel (`Lib.Loop`).
-/

namespace SmartOS

open Prog

/-! ## Devices -/

/-- A storage device with sectors of 512 bytes. -/
abbrev Disk := Mem

namespace Disk

/-- What `readSectors(lba, buffer, sectors)` leaves in the buffer. -/
def readSectors (disk : Disk) (lba : ℕ) (buffer : Mem) (sectors : ℕ) : Mem :=
  buffer.copy 0 disk (512 * lba) (512 * sectors)

/-- What `writeSectors(lba, buffer, sectors)` leaves on the device. -/
def writeSectors (disk : Disk) (lba : ℕ) (buffer : Mem) (sectors : ℕ) : Disk :=
  disk.copy (512 * lba) buffer 0 (512 * sectors)

end Disk

/-! ## Volumes -/

/-- The fields of `BPB` that are used. -/
structure BPB where
  sectorsPerCluster : ℕ
  reservedSectors : ℕ
  numberOfFAT : ℕ
  numberOfRootEntries : ℕ
  smallSectorsPerFAT : ℕ
  deriving Repr, DecidableEq

/-- They lie packed in the boot sector. -/
def BPB.read (block : Mem) : BPB where
  sectorsPerCluster := (block 13).toNat
  reservedSectors := block.get16 14
  numberOfFAT := (block 16).toNat
  numberOfRootEntries := block.get16 17
  smallSectorsPerFAT := block.get16 22

/-- The boot sector at `offset`. Whatever the local variable for it held is overwritten. -/
def Disk.bpb (disk : Disk) (offset : ℕ) : BPB :=
  BPB.read (disk.readSectors offset (fun _ => 0) 1)

/-- The object `FAT16`. The constructor takes the size of a cluster from a byte. -/
structure FAT16 where
  partitionOffset : ℕ
  sectorsPerCluster : ℕ
  sectorsPerFAT : ℕ
  fatOffset : ℕ
  dataOffset : ℕ
  rootOffset : ℕ
  sectorsPerCluster_lt : sectorsPerCluster < 256

/-- A file: its position, its size, and its first cluster, which `metadata` points to. -/
structure File where
  position : ℕ
  size : ℕ
  cluster : ℕ
  deriving Repr, DecidableEq

namespace FAT16

/-- The constructor. -/
def new (disk : Disk) (offset : ℕ) : FAT16 where
  partitionOffset := offset
  sectorsPerCluster := (disk.bpb offset).sectorsPerCluster
  sectorsPerFAT := (disk.bpb offset).smallSectorsPerFAT
  fatOffset := wrap ((disk.bpb offset).reservedSectors + offset)
  dataOffset := wrap ((disk.bpb offset).numberOfFAT * (disk.bpb offset).smallSectorsPerFAT +
    offset + ((disk.bpb offset).numberOfRootEntries + 15) / 16)
  rootOffset := wrap ((disk.bpb offset).numberOfFAT * (disk.bpb offset).smallSectorsPerFAT +
    offset)
  sectorsPerCluster_lt := BitVec.isLt _

/-! ## Clusters -/

def readFAT (fs : FAT16) (disk : Disk) (entry : ℕ) : ℕ :=
  let entry := entry % 2 ^ 16
  let sector := wrap (fs.fatOffset + entry / 256)
  (disk.readSectors sector (fun _ => 0) 1).get16 (2 * (entry % 256))

/-- `writeFAT(idx, entry)`: the disk afterwards. The index into the sector, which is a remainder by
    the number of sectors, must be that of one of its 256 entries. -/
def writeFAT (fs : FAT16) (disk : Disk) (idx entry : ℕ) : Option Disk :=
  let idx := idx % 2 ^ 16
  let sector := wrap (fs.fatOffset + idx / 256)
  let entries := disk.readSectors sector (fun _ => 0) 1
  if fs.sectorsPerFAT ≠ 0 ∧ idx % fs.sectorsPerFAT < 256 then
    some (disk.writeSectors sector (entries.set16 (2 * (idx % fs.sectorsPerFAT)) entry) 1)
  else none

/-- Where `readCluster` and `writeCluster` go for the cluster `idx`. -/
def clusterSector (fs : FAT16) (idx : ℕ) : ℕ :=
  if idx = 1 then wrap (fs.rootOffset + idx * fs.sectorsPerCluster)
  else wrapSub (wrap (fs.dataOffset + idx * fs.sectorsPerCluster)) 1

def readCluster (fs : FAT16) (disk : Disk) (idx : ℕ) (buffer : Mem) : Mem :=
  disk.readSectors (fs.clusterSector (idx % 2 ^ 16)) buffer fs.sectorsPerCluster

def writeCluster (fs : FAT16) (disk : Disk) (idx : ℕ) (buffer : Mem) : Disk :=
  disk.writeSectors (fs.clusterSector (idx % 2 ^ 16)) buffer fs.sectorsPerCluster

/-- `sectorsPerCluster * 512` -/
def clusterSize (fs : FAT16) : ℕ := fs.sectorsPerCluster * 512

/-! ## Reading -/

/-- One step of the first two loops of `read`: the cluster, and its index. -/
def follow (fs : FAT16) (disk : Disk) : ℕ × ℕ → ℕ × ℕ
  | (cluster, clusterIdx) => (fs.readFAT disk cluster, wrap (clusterIdx + 1))

/-- The position is beyond the end of the cluster with this index. -/
def beyond (fs : FAT16) (position : ℕ) : ℕ × ℕ → Bool
  | (_, clusterIdx) => position > wrap ((clusterIdx + 1) * fs.clusterSize)

/-- The variables of the copy loops. `target` is what is written: the memory, or the disk. -/
structure CopyState where
  cluster : ℕ
  readPos : ℕ
  writePos : ℕ
  buffer : Mem
  target : Mem

/-- `readPos` moved on to the start of the next cluster. -/
def nextPos (fs : FAT16) (readPos : ℕ) : ℕ :=
  wrap ((readPos / fs.clusterSize + 1) * fs.clusterSize)

/-- The body of the copy loop of `read`. -/
def readStep (fs : FAT16) (disk : Disk) (dest : ℕ) (s : CopyState) : CopyState :=
  let buffer := fs.readCluster disk s.cluster s.buffer
  let offset := s.readPos % fs.clusterSize
  { cluster := fs.readFAT disk s.cluster
    readPos := fs.nextPos s.readPos
    writePos := wrap (s.writePos + (fs.clusterSize - offset))
    buffer := buffer
    target := memcpyFrom s.target (dest + s.writePos) buffer offset (fs.clusterSize - offset) }

/-- What `read` does after the copy loop. -/
def readLast (fs : FAT16) (disk : Disk) (dest endPos : ℕ) (s : CopyState) : Option Mem :=
  let buffer := fs.readCluster disk s.cluster s.buffer
  let offset := s.readPos % fs.clusterSize
  let length := wrapSub endPos s.readPos
  if offset + length ≤ fs.clusterSize then
    some (memcpyFrom s.target (dest + s.writePos) buffer offset length)
  else none

/-- `read(file, dest, size)`: the memory afterwards. `buffer` is what the new buffer held. -/
def read (fs : FAT16) (disk : Disk) (file : File) (dest size : ℕ) (buffer m : Mem) (fuel : ℕ) :
    Option (Option Mem) :=
  let endPos := wrap (size + file.position)
  (loop (whileDo (fs.beyond file.position) (fs.follow disk)) fuel (file.cluster, 0)).bind
    fun start =>
      (loop (whileDo (fs.beyond endPos) (fs.follow disk)) fuel start).bind fun last =>
        (loop (whileDo (·.cluster != last.1) (fs.readStep disk dest)) fuel
          ⟨start.1, file.position, 0, buffer, m⟩).bind fun s =>
            some (fs.readLast disk dest endPos s)

/-! ## Writing -/

/-- The first two loops of `write` go from cluster to cluster, but keep `clusterIdx` at zero. -/
def followOnly (fs : FAT16) (disk : Disk) (cluster : ℕ) : ℕ := fs.readFAT disk cluster

/-- The body of the copy loop of `write`, with a buffer of `capacity` bytes. -/
def writeBody (fs : FAT16) (src : Mem) (capacity last : ℕ) (s : CopyState) :
    CopyState ⊕ Option CopyState :=
  if s.cluster = last then .inr (some s)
  else if capacity < fs.clusterSize then .inr none
  else
    let buffer := fs.readCluster s.target s.cluster s.buffer
    let offset := s.readPos % fs.clusterSize
    let buffer := memcpyFrom buffer offset src s.writePos (fs.clusterSize - offset)
    let disk := fs.writeCluster s.target s.cluster buffer
    .inl
      { cluster := fs.readFAT disk s.cluster
        readPos := fs.nextPos s.readPos
        writePos := wrap (s.writePos + offset)
        buffer := buffer
        target := disk }

/-- What `write` does after the copy loop. -/
def writeLast (fs : FAT16) (src : Mem) (capacity endPos : ℕ) (s : CopyState) : Option Disk :=
  let buffer := fs.readCluster s.target s.cluster s.buffer
  let offset := s.readPos % fs.clusterSize
  let length := wrapSub endPos s.readPos
  if fs.clusterSize ≤ capacity ∧ offset + length ≤ capacity then
    some (fs.writeCluster s.target s.cluster (memcpyFrom buffer offset src s.writePos length))
  else none

/-- `write(file, src, size)`: the disk afterwards. `src` are the bytes to write, `buffer` is what
    the new buffer held. -/
def write (fs : FAT16) (file : File) (src : Mem) (size : ℕ) (buffer : Mem) (disk : Disk)
    (fuel : ℕ) : Option (Option Disk) :=
  let endPos := wrap (size + file.position)
  let capacity := wrap (512 * size)
  (loop (whileDo (fun _ => file.position ≥ fs.clusterSize) (fs.followOnly disk)) fuel
    file.cluster).bind fun start =>
      (loop (whileDo (fun _ => endPos > fs.clusterSize) (fs.followOnly disk)) fuel start).bind
        fun last =>
          (loop (fs.writeBody src capacity last) fuel ⟨start, file.position, 0, buffer, disk⟩).bind
            fun s => some (s.bind (fs.writeLast src capacity endPos))

end FAT16

end SmartOS
