import SmartOS.Bytes

/-!
# The memory manager

The functions of `MMU.cpp`, on the state they share (`MMU`): the physical
memory, which the kernel addresses directly, and the globals.

* `reservePage`, `freePage`, `kmallocPage` keep one bit per page of the usable
  memory blocks, in bitmaps that lie in the memory itself.
* `kmalloc` and `kmallocA` hand out memory from a pointer that only goes up.
* `mapPage`, `map` and `clone` build page tables: trees of four levels of pages,
  each of 512 words of 64 bits, whose root is a page directory.
* `initializeMMU` builds the block table from the memory map of the firmware,
  allocates the bitmaps and maps every block in the kernel's own directory.

A shift of the `int` `1` by 32 or more is undefined: `undef` is what it happens
to give, and every result holds for all `undef`.
-/

namespace SmartOS

open Prog

/-! ## Machine integers -/

/-- `1 << k`, an `int`. -/
def intShift (undef : ℕ → BitVec 32) (k : ℕ) : BitVec 32 := if k < 32 then 1#32 <<< k else undef k

/-- `b |= x` for a byte `b` and an `int` `x`. -/
def orInt (b : Byte) (x : BitVec 32) : Byte := (b.setWidth 32 ||| x).setWidth 8

/-- `b &= ~x` for a byte `b` and an `int` `x`. -/
def andNotInt (b : Byte) (x : BitVec 32) : Byte := (b.setWidth 32 &&& ~~~x).setWidth 8

/-! ## State -/

/-- A run of physical pages of one type, with the bitmap of its pages (`frames`, a pointer). -/
structure MemoryBlock where
  present : Bool
  physAddr : ℕ
  numPages : ℕ
  type : ℕ
  frames : ℕ
  deriving Repr, DecidableEq

/-- What the firmware says of a run of physical pages. -/
structure MemoryDescriptor where
  type : ℕ
  physicalStart : ℕ
  numberOfPages : ℕ
  deriving Repr, DecidableEq

/-- The state of the memory manager. The bump pointer `kmallocAddr` is counted without wrapping:
    the machine holds it modulo `2 ^ 64`. Entries of `blocks` from 64 on are out of its bounds. -/
structure MMU where
  mem : Mem
  blocks : ℕ → MemoryBlock
  kmallocStart : ℕ
  kmallocAddr : ℕ
  currentDirectory : ℕ
  kernelDirectory : ℕ
  mmuEnabled : Bool
  /-- The register that holds the directory in use. -/
  cr3 : ℕ

/-- A state whose memory is zero: wherever a directory lies in it, the directory is empty. -/
def zeroMMU (kmallocAddr : ℕ) : MMU where
  mem := fun _ => 0
  blocks := fun _ => ⟨false, 0, 0, 0, 0⟩
  kmallocStart := 0
  kmallocAddr := kmallocAddr
  currentDirectory := 0
  kernelDirectory := 0
  mmuEnabled := false
  cr3 := 0

/-- The table that all loops over the blocks go through. -/
def MMU.table (s : MMU) : List MemoryBlock := (List.range 64).map s.blocks

/-! ## Frames -/

/-- Memory types, numbered as in the UEFI specification. The types that are not listed as unusable
    are usable, those that the specification does not know included. The parameter is of 32 bits. -/
def isUsable (memoryType : ℕ) : Bool :=
  match memoryType % 2 ^ 32 with
  | 0 => false  -- EfiReservedMemoryType
  | 1 => false  -- EfiLoaderCode
  | 5 => false  -- EfiRuntimeServicesCode
  | 6 => false  -- EfiRuntimeServicesData
  | 8 => false  -- EfiUnusableMemory
  | 10 => false -- EfiACPIMemoryNVS
  | 9 => false  -- EfiACPIReclaimMemory
  | 11 => false -- EfiMemoryMappedIO
  | 12 => false -- EfiMemoryMappedIOPortSpace
  | 13 => false -- EfiPalCode
  | 14 => false -- EfiMaxMemoryType
  | _ => true

/-- `addr` lies in the block, as `reservePage` and `freePage` test it. -/
def MemoryBlock.holds (b : MemoryBlock) (addr : ℕ) : Bool :=
  b.physAddr ≤ addr && addr < wrap (b.physAddr + b.numPages * 0x1000)

/-- The loop of `reservePage` and `freePage`: `update` changes the byte of the bitmap at
    `index / 8`, for the page of `addr` in every usable block that holds it. -/
def updateFrames (update : Byte → ℕ → Byte) (addr : ℕ) : List MemoryBlock → Mem → Mem
  | [], m => m
  | b :: bs, m =>
    if !b.present then m
    else if !isUsable b.type then updateFrames update addr bs m
    else if b.holds addr then
      let index := (addr - b.physAddr) >>> 12
      let byte := b.frames + index / 8
      updateFrames update addr bs (m.set byte (update (m byte) index))
    else updateFrames update addr bs m

def reservePage (undef : ℕ → BitVec 32) (addr : ℕ) (s : MMU) : MMU :=
  { s with mem := updateFrames (fun c index => orInt c (intShift undef index)) addr s.table s.mem }

def freePage (undef : ℕ → BitVec 32) (addr : ℕ) (s : MMU) : MMU :=
  { s with
    mem := updateFrames (fun c index => andNotInt c (intShift undef index)) addr s.table s.mem }

/-- The bit of page `j` of a bitmap, as `kmallocPage` reads it. -/
def frameBit (m : Mem) (frames j : ℕ) : Bool :=
  (m (frames + j / 8)).setWidth 32 &&& 1#32 <<< (j % 8) != 0

/-- The search of `kmallocPage`: the first page, in the order of the blocks, whose bit is clear
    gets its bit set and is returned. -/
def kmallocPageIn : List MemoryBlock → Mem → ℕ × Mem
  | [], m => (wrapSub 0 1, m)
  | b :: bs, m =>
    if !b.present then (wrapSub 0 1, m)
    else if !isUsable b.type then kmallocPageIn bs m
    else
      match (List.range b.numPages).find? fun j => !frameBit m b.frames j with
      | some j =>
        let byte := b.frames + j / 8
        (wrap (b.physAddr + j * 0x1000), m.set byte (orInt (m byte) (1#32 <<< (j % 8))))
      | none => kmallocPageIn bs m

def kmallocPage (s : MMU) : ℕ × MMU :=
  let (page, mem) := kmallocPageIn s.table s.mem
  (page, { s with mem := mem })

/-! ## The bump allocator -/

def kmalloc (size : ℕ) (s : MMU) : ℕ × MMU :=
  (wrap s.kmallocAddr, { s with kmallocAddr := s.kmallocAddr + size })

/-- The next address that is a multiple of the page size. -/
def pageAlign (addr : ℕ) : ℕ :=
  if addr &&& 0xFFF ≠ 0 then addr / 0x1000 * 0x1000 + 0x1000 else addr

def kmallocA (size : ℕ) (s : MMU) : ℕ × MMU :=
  kmalloc size { s with kmallocAddr := pageAlign s.kmallocAddr }

/-! ## Page tables -/

def mmuPresent : ℕ := 0x1
def mmuRW : ℕ := 0x2
def mmuUser : ℕ := 0x4
def mmuAddr : ℕ := 0x000FFFFFFFFFF000

def switchDirectory (dir : ℕ) (s : MMU) : MMU := { s with currentDirectory := dir, cr3 := dir }

/-- The address of the word at `index` of a table. -/
abbrev slot (table index : ℕ) : ℕ := table + 8 * index

/-- The table that the word at `index` of `table` points to, after putting a zeroed page there if
    the word is not present: what `mapPage` does at each of the three upper levels. -/
def nextTable (table index flags : ℕ) (s : MMU) : ℕ × MMU :=
  let s :=
    if s.mem.get64 (slot table index) &&& mmuPresent = 0 then
      let (paddr, s) := kmallocA 0x1000 s
      let mem := memset s.mem paddr 0 0x1000
      { s with mem := mem.set64 (slot table index) (paddr ||| flags) }
    else s
  (s.mem.get64 (slot table index) &&& mmuAddr, s)

/-- `this->mapPage(virt, phys, flags)`, for the directory at address `this`. -/
def mapPage (this virt phys flags : ℕ) (s : MMU) : MMU :=
  let pml4Index := (virt >>> 39) &&& 0x1FF
  let pdptIndex := (virt >>> 30) &&& 0x1FF
  let pdIndex := (virt >>> 21) &&& 0x1FF
  let ptIndex := (virt >>> 12) &&& 0x1FF
  let (pdpt, s) := nextTable this pml4Index flags s
  let (pd, s) := nextTable pdpt pdptIndex flags s
  let (pt, s) := nextTable pd pdIndex flags s
  let s := { s with mem := s.mem.set64 (slot pt ptIndex) (phys ||| flags) }
  if s.mmuEnabled && s.currentDirectory == this then switchDirectory this s else s

def map (this virt phys count flags : ℕ) (s : MMU) : MMU :=
  (List.range count).foldl
    (fun s i => mapPage this (wrap (virt + i * 0x1000)) (wrap (phys + i * 0x1000)) flags s) s

/-- The nested loops of `clone`: the table `new` becomes a copy of `table`, with copies of the
    tables below it. At level `0` (a page table) the words are copied; above, every word that is
    present gets a new page, filled by the loop of the level below. -/
def cloneTable : ℕ → ℕ → ℕ → MMU → MMU
  | 0, table, new, s => { s with mem := memcpy s.mem new table 0x1000 }
  | level + 1, table, new, s =>
    (List.range 512).foldl (fun s i =>
      if s.mem.get64 (slot table i) &&& mmuPresent ≠ 0 then
        let below := s.mem.get64 (slot table i) &&& mmuAddr
        let (phys, s) := kmallocA 0x1000 s
        let s := { s with mem := s.mem.set64 (slot new i) (phys ||| mmuRW ||| mmuPresent) }
        cloneTable level below (s.mem.get64 (slot new i) &&& mmuAddr) s
      else { s with mem := s.mem.set64 (slot new i) 0 }) s

/-- `this->clone()`: the new directory. -/
def clone (this : ℕ) (s : MMU) : ℕ × MMU :=
  let (directory, s) := kmallocA 0x1000 s
  (directory, cloneTable 3 this directory s)

/-! ## Initialization -/

/-- The first loop of `initializeMMU`: where the largest usable descriptor starts, and its pages.
    `uninit` is what the local variable `largestStart` holds before it is set. -/
def largestUsable (uninit : ℕ) (memoryMap : List MemoryDescriptor) : ℕ × ℕ :=
  memoryMap.foldl (fun (largestStart, largestPages) d =>
    if d.numberOfPages > largestPages ∧ isUsable d.type then (d.physicalStart, d.numberOfPages)
    else (largestStart, largestPages)) (uninit, 0)

/-- The descriptor extends the last block, or is the next block. -/
def addDescriptor (bk : (ℕ → MemoryBlock) × ℕ) (d : MemoryDescriptor) : (ℕ → MemoryBlock) × ℕ :=
  let (blocks, k) := bk
  let last := blocks (k - 1)
  if k ≠ 0 ∧ d.type = last.type ∧
      d.physicalStart = wrap (last.physAddr + last.numPages * 0x1000) then
    (Function.update blocks (k - 1)
      { last with numPages := wrap (last.numPages + d.numberOfPages) }, k)
  else
    (Function.update blocks k { blocks k with
      numPages := d.numberOfPages, physAddr := d.physicalStart, type := d.type,
      present := true }, k + 1)

/-- A zeroed bitmap for every usable block, from block `i` on (`n` blocks at most). -/
def allocateFrames : ℕ → ℕ → MMU → MMU
  | 0, _, s => s
  | n + 1, i, s =>
    if !(s.blocks i).present then s
    else if isUsable (s.blocks i).type then
      let bytes := wrap ((s.blocks i).numPages + 7) / 8
      let (frames, s) := kmalloc bytes s
      allocateFrames n (i + 1) { s with
        blocks := Function.update s.blocks i { s.blocks i with frames := frames }
        mem := memset s.mem frames 0 bytes }
    else
      allocateFrames n (i + 1) { s with
        blocks := Function.update s.blocks i { s.blocks i with frames := 0 } }

/-- Every block of the table mapped to itself. -/
def mapBlocks (this : ℕ) : List MemoryBlock → MMU → MMU
  | [], s => s
  | b :: bs, s =>
    if !b.present then s
    else mapBlocks this bs (map this b.physAddr b.physAddr b.numPages (mmuPresent ||| mmuRW) s)

/-- The pages of the kernel's own image reserved. -/
def reserveKernel (undef : ℕ → BitVec 32) (kernelStart kernelEnd : ℕ) (s : MMU) : MMU :=
  (List.range ((kernelEnd - kernelStart + 0xFFF) / 0x1000)).foldl
    (fun s i => reservePage undef (kernelStart + i * 0x1000) s) s

def initializeMMU (undef : ℕ → BitVec 32) (uninit kernelStart kernelEnd : ℕ)
    (memoryMap : List MemoryDescriptor) (s : MMU) : MMU :=
  let s := { s with
    mmuEnabled := false
    blocks := fun i => if i < 64 then { s.blocks i with present := false } else s.blocks i }
  let largestStart := (largestUsable uninit memoryMap).1
  let s := { s with
    kmallocStart := largestStart
    kmallocAddr := largestStart
    blocks := (memoryMap.foldl addDescriptor (s.blocks, 0)).1 }
  let s := allocateFrames 64 0 s
  let (kernelDirectory, s) := kmallocA 0x1000 s
  let s := { s with
    kernelDirectory := kernelDirectory
    mem := memset s.mem kernelDirectory 0 0x1000 }
  let s := mapBlocks s.kernelDirectory s.table s
  let s := reserveKernel undef kernelStart kernelEnd s
  switchDirectory s.kernelDirectory s

end SmartOS
