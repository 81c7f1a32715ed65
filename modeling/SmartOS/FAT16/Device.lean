import SmartOS.FAT16.Accesses

/-!
# FAT16 on a storage device

The functions of `FAT16.cpp` and `Partitions.cpp` as they call their storage device,
through `readSectors` and `writeSectors` of the class `StorageDevice`: the device goes
from one state to another with every call, also with one that reads.

Each definition is that of the same name on an ideal disk (`SmartOS.FAT16.Basic`,
`SmartOS.FAT16.Directory`), with the state of the device passed on.
-/

namespace SmartOS

open Prog

/-- A class of storage devices with states in `δ`. `readSectors` gives what it leaves in a buffer,
    of what that held before. -/
structure StorageDevice (δ : Type) where
  readSectors (lba : ℕ) (buffer : Mem) (sectors : ℕ) (s : δ) : Mem × δ
  writeSectors (lba : ℕ) (buffer : Mem) (sectors : ℕ) (s : δ) : δ

variable {δ : Type}

namespace FAT16

/-- The constructor, from the boot sector. -/
def ofBlock (block : Mem) (offset : ℕ) : FAT16 where
  partitionOffset := offset
  sectorsPerCluster := (BPB.read block).sectorsPerCluster
  sectorsPerFAT := (BPB.read block).smallSectorsPerFAT
  fatOffset := wrap ((BPB.read block).reservedSectors + offset)
  dataOffset := wrap ((BPB.read block).numberOfFAT * (BPB.read block).smallSectorsPerFAT +
    offset + ((BPB.read block).numberOfRootEntries + 15) / 16)
  rootOffset := wrap ((BPB.read block).numberOfFAT * (BPB.read block).smallSectorsPerFAT + offset)
  sectorsPerCluster_lt := BitVec.isLt _

section

variable (D : StorageDevice δ)

def newOn (offset : ℕ) (s : δ) : FAT16 × δ :=
  let (block, s) := D.readSectors offset (fun _ => 0) 1 s
  (ofBlock block offset, s)

/-- An iteration of the loop of `scanDevice`. -/
def scanEntryOn (mbr : Mem) (x : List FAT16 × δ) (i : ℕ) : List FAT16 × δ :=
  if (MBREntry.read mbr i).systemId = 0x6 then
    let (fs, s) := newOn D (MBREntry.read mbr i).startLba x.2
    (x.1 ++ [fs], s)
  else x

/-- `scanDevice(device)`: the file systems that it adds. -/
def scanDeviceOn (s : δ) : List FAT16 × δ :=
  let (mbr, s) := D.readSectors 0 (fun _ => 0) 1 s
  (List.range 4).foldl (scanEntryOn D mbr) ([], s)

variable (fs : FAT16)

/-! ## Clusters -/

def readFATOn (entry : ℕ) (s : δ) : ℕ × δ :=
  let entry := entry % 2 ^ 16
  let sector := wrap (fs.fatOffset + entry / 256)
  let (entries, s) := D.readSectors sector (fun _ => 0) 1 s
  (entries.get16 (2 * (entry % 256)), s)

def readClusterOn (idx : ℕ) (buffer : Mem) (s : δ) : Mem × δ :=
  D.readSectors (fs.clusterSector (idx % 2 ^ 16)) buffer fs.sectorsPerCluster s

def writeClusterOn (idx : ℕ) (buffer : Mem) (s : δ) : δ :=
  D.writeSectors (fs.clusterSector (idx % 2 ^ 16)) buffer fs.sectorsPerCluster s

/-! ## Reading -/

def followOn : (ℕ × ℕ) × δ → (ℕ × ℕ) × δ
  | ((cluster, clusterIdx), s) =>
    let (cluster, s) := fs.readFATOn D cluster s
    ((cluster, wrap (clusterIdx + 1)), s)

def readStepOn (dest : ℕ) : CopyState × δ → CopyState × δ
  | (x, s) =>
    let (buffer, s) := fs.readClusterOn D x.cluster x.buffer s
    let offset := x.readPos % fs.clusterSize
    let (cluster, s) := fs.readFATOn D x.cluster s
    ({ cluster := cluster
       readPos := fs.nextPos x.readPos
       writePos := wrap (x.writePos + (fs.clusterSize - offset))
       buffer := buffer
       target := memcpyFrom x.target (dest + x.writePos) buffer offset (fs.clusterSize - offset) },
      s)

def readLastOn (dest endPos : ℕ) : CopyState × δ → Option (Mem × δ)
  | (x, s) =>
    let (buffer, s) := fs.readClusterOn D x.cluster x.buffer s
    let offset := x.readPos % fs.clusterSize
    let length := wrapSub endPos x.readPos
    if offset + length ≤ fs.clusterSize then
      some (memcpyFrom x.target (dest + x.writePos) buffer offset length, s)
    else none

def readOn (file : File) (dest size : ℕ) (buffer m : Mem) (fuel : ℕ) (s : δ) :
    Option (Option (Mem × δ)) :=
  let endPos := wrap (size + file.position)
  (loop (whileDo (fun x => fs.beyond file.position x.1) (fs.followOn D)) fuel
    ((file.cluster, 0), s)).bind fun start =>
      (loop (whileDo (fun x => fs.beyond endPos x.1) (fs.followOn D)) fuel start).bind fun last =>
        (loop (whileDo (fun x => x.1.cluster != last.1.1) (fs.readStepOn D dest)) fuel
          (⟨start.1.1, file.position, 0, buffer, m⟩, last.2)).bind fun x =>
            some (fs.readLastOn D dest endPos x)

/-! ## Writing -/

/-- The variables of the copy loop of `write`. -/
structure WriteState (δ : Type) where
  cluster : ℕ
  readPos : ℕ
  writePos : ℕ
  buffer : Mem
  device : δ

def followOnlyOn : ℕ × δ → ℕ × δ
  | (cluster, s) => fs.readFATOn D cluster s

def writeBodyOn (src : Mem) (capacity last : ℕ) (x : WriteState δ) :
    WriteState δ ⊕ Option (WriteState δ) :=
  if x.cluster = last then .inr (some x)
  else if capacity < fs.clusterSize then .inr none
  else
    let (buffer, s) := fs.readClusterOn D x.cluster x.buffer x.device
    let offset := x.readPos % fs.clusterSize
    let buffer := memcpyFrom buffer offset src x.writePos (fs.clusterSize - offset)
    let s := fs.writeClusterOn D x.cluster buffer s
    let (cluster, s) := fs.readFATOn D x.cluster s
    .inl
      { cluster := cluster
        readPos := fs.nextPos x.readPos
        writePos := wrap (x.writePos + offset)
        buffer := buffer
        device := s }

def writeLastOn (src : Mem) (capacity endPos : ℕ) (x : WriteState δ) : Option δ :=
  let (buffer, s) := fs.readClusterOn D x.cluster x.buffer x.device
  let offset := x.readPos % fs.clusterSize
  let length := wrapSub endPos x.readPos
  if fs.clusterSize ≤ capacity ∧ offset + length ≤ capacity then
    some (fs.writeClusterOn D x.cluster (memcpyFrom buffer offset src x.writePos length) s)
  else none

def writeOn (file : File) (src : Mem) (size : ℕ) (buffer : Mem) (fuel : ℕ) (s : δ) :
    Option (Option δ) :=
  let endPos := wrap (size + file.position)
  let capacity := wrap (512 * size)
  (loop (whileDo (fun _ => file.position ≥ fs.clusterSize) (fs.followOnlyOn D)) fuel
    (file.cluster, s)).bind fun start =>
      (loop (whileDo (fun _ => endPos > fs.clusterSize) (fs.followOnlyOn D)) fuel start).bind
        fun last =>
          (loop (fs.writeBodyOn D src capacity last.1) fuel
            ⟨start.1, file.position, 0, buffer, last.2⟩).bind
              fun x => some (x.bind (fs.writeLastOn D src capacity endPos))

/-! ## Directories -/

def searchBodyOn (fatname : List Byte) :
    (ℕ × Mem) × δ → ((ℕ × Mem) × δ) ⊕ (Option DirectoryEntry × δ)
  | ((cluster, entries), s) =>
    if cluster < 0xFFF7 then
      let (entries, s) := fs.readClusterOn D cluster entries s
      match searchEntries fatname (fs.directoryEntries entries) with
      | some r => .inr (r, s)
      | none =>
        let (cluster, s) := fs.readFATOn D cluster s
        .inl ((cluster, entries), s)
    else .inr (none, s)

def searchDirectoryOn (cluster : ℕ) (fatname : List Byte) (entries : Mem) (fuel : ℕ) (s : δ) :
    Option (Option DirectoryEntry × δ) :=
  loop (fs.searchBodyOn D fatname) fuel ((cluster % 2 ^ 16, entries), s)

def lookUpOn (junk : ℕ → Junk) (fuel : ℕ) : Walk × δ → Option (Option (Walk × δ))
  | (w, s) =>
    match localName (junk w.searches).tail w.component with
    | none => some none
    | some name =>
      (fs.searchDirectoryOn D w.cluster (filenameToFAT name) (junk w.searches).entries fuel s).bind
        fun (r, s) => some (some (w.next r, s))

def walkOn (junk : ℕ → Junk) (fuel : ℕ) : List Byte → Walk × δ → Option (Option (Walk × δ))
  | [], x => some (some x)
  | c :: path, (w, s) =>
    if c = 0x2F then andThen (fs.lookUpOn D junk fuel (w, s)) (walkOn junk fuel path)
    else walkOn junk fuel path ({ w with component := w.component ++ [c] }, s)

def openOn (junk : ℕ → Junk) (lastSize : ℕ) (path : List Byte) (fuel : ℕ) (s : δ) :
    Option (Option (NamedFile × δ)) :=
  let path := stripSlash path
  andThen (fs.walkOn D junk fuel path (⟨0, [], 1, lastSize⟩, s)) fun x =>
    andThen (fs.lookUpOn D junk fuel x) fun (w, s) =>
      some (some (⟨⟨0, w.lastSize, w.cluster⟩, path⟩, s))

def listBodyOn (path : List Byte) : (ℕ × Mem × List NamedFile) × δ →
    ((ℕ × Mem × List NamedFile) × δ) ⊕ Option (List NamedFile × δ)
  | ((cluster, entries, files), s) =>
    if cluster < 0xFFF7 then
      let (entries, s) := fs.readClusterOn D cluster entries s
      match listEntries path cluster (fs.directoryEntries entries) with
      | some new =>
        let (cluster, s) := fs.readFATOn D cluster s
        .inl ((cluster, entries, files ++ new), s)
      | none => .inr none
    else .inr (some (files, s))

def listOn (junk : ℕ → Junk) (entries : Mem) (lastSize : ℕ) (path : List Byte) (fuel : ℕ) (s : δ) :
    Option (Option (List NamedFile × δ)) :=
  let path := stripSlash path
  andThen (fs.walkOn D junk fuel path (⟨0, [], 1, lastSize⟩, s)) fun (w, s) =>
    loop (fs.listBodyOn D path) fuel ((w.cluster, entries, []), s)

end

end FAT16

/-! ## Operations -/

/-- What files and the file system are asked for. -/
inductive FileOp
  | open (junk : ℕ → Junk) (lastSize : ℕ) (path : List Byte)
  | list (junk : ℕ → Junk) (entries : Mem) (lastSize : ℕ) (path : List Byte)
  | read (file : File) (dest size : ℕ) (buffer m : Mem)
  | write (file : File) (src : Mem) (size : ℕ) (buffer : Mem)

/-- What comes of it: a file, some files, or the memory afterwards. -/
inductive Outcome
  | opened (file : NamedFile)
  | listed (files : List NamedFile)
  | read (m : Mem)
  | written

/-- An operation on a device. -/
def FileOp.execOn (D : StorageDevice δ) (fs : FAT16) (fuel : ℕ) (s : δ) :
    FileOp → Option (Option (Outcome × δ))
  | .open junk lastSize path => andThen (fs.openOn D junk lastSize path fuel s) fun (file, s) =>
    some (some (.opened file, s))
  | .list junk entries lastSize path =>
    andThen (fs.listOn D junk entries lastSize path fuel s) fun (files, s) =>
      some (some (.listed files, s))
  | .read file dest size buffer m =>
    andThen (fs.readOn D file dest size buffer m fuel s) fun (m, s) => some (some (.read m, s))
  | .write file src size buffer =>
    andThen (fs.writeOn D file src size buffer fuel s) fun s => some (some (.written, s))

/-- The same on an ideal disk. -/
def FileOp.exec (fs : FAT16) (fuel : ℕ) (disk : Disk) :
    FileOp → Option (Option (Outcome × Disk))
  | .open junk lastSize path => andThen (fs.open disk junk lastSize path fuel) fun file =>
    some (some (.opened file, disk))
  | .list junk entries lastSize path =>
    andThen (fs.list disk junk entries lastSize path fuel) fun files =>
      some (some (.listed files, disk))
  | .read file dest size buffer m => andThen (fs.read disk file dest size buffer m fuel) fun m =>
    some (some (.read m, disk))
  | .write file src size buffer => andThen (fs.write file src size buffer disk fuel) fun disk =>
    some (some (.written, disk))

/-- Operations one after another, each on one of the file systems `fss`, with what comes of them. -/
def FileOp.runOn (D : StorageDevice δ) (fss : List FAT16) (fuel : ℕ) :
    List (Fin fss.length × FileOp) → δ → Option (Option (List Outcome × δ))
  | [], s => some (some ([], s))
  | (i, op) :: ops, s => andThen (op.execOn D (fss.get i) fuel s) fun (r, s) =>
    andThen (runOn D fss fuel ops s) fun (rs, s) => some (some (r :: rs, s))

def FileOp.run (fss : List FAT16) (fuel : ℕ) :
    List (Fin fss.length × FileOp) → Disk → Option (Option (List Outcome × Disk))
  | [], disk => some (some ([], disk))
  | (i, op) :: ops, disk => andThen (op.exec (fss.get i) fuel disk) fun (r, disk) =>
    andThen (run fss fuel ops disk) fun (rs, disk) => some (some (r :: rs, disk))

end SmartOS
