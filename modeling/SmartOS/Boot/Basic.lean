import SmartOS.Bytes
import SmartOS.Lib.Calls

/-!
# The boot loader

`efi_main` of `boot.c`, as a program that calls the firmware (`Loader`). A call
returns a status; what else the firmware gives the loader is data (`Firmware`).
The loader ends in `__panic`, which never returns, or in the call of the kernel
(`KernelStart`).

The library functions that the loader uses to get memory (`AllocatePool`), the size
of a file and the memory map return no status. What is printed is left out.
-/

namespace SmartOS

open Prog

/-! ## The firmware -/

inductive Protocol
  | loadedImage
  | simpleFileSystem
  deriving Repr, DecidableEq

/-- The calls that return a status. -/
inductive BootCall
  | setWatchdogTimer
  | handleProtocol (guid : Protocol)
  | openVolume
  | openFile
  | read
  | close
  | allocatePages (pages address : ℕ)
  | locateProtocol
  | queryMode (mode : ℕ)
  | setMode (mode : ℕ)
  | exitBootServices (mapKey : ℕ)
  deriving Repr, DecidableEq

/-- What the loader gets from the firmware, besides the statuses. -/
structure Firmware where
  mem : Mem
  /-- The file `KERNEL.ELF`. -/
  kernel : Mem
  kernelSize : ℕ
  allocatePool : ℕ → ℕ
  /-- Where `AllocatePages` says that the pages are, when asked for so many at an address. -/
  allocatePages : ℕ → ℕ → ℕ
  /-- The configuration table: identifiers and addresses. -/
  configurationTable : List (ℕ × ℕ)
  gop : ℕ
  maxMode : ℕ
  /-- The width and height of the modes. -/
  modeInfo : ℕ → ℕ × ℕ
  memoryMap : ℕ
  numEntries : ℕ
  mapKey : ℕ
  descriptorSize : ℕ

/-- A program that calls the firmware. It gives up with the code that it panics with. -/
abbrev Loader := Caller BootCall ℕ ℕ

/-- `status = ...; if (status) PANIC(status);` -/
def check (c : BootCall) : Loader Unit :=
  .call c fun status => if status ≠ 0 then .fail status else .done ()

/-! ## The kernel's file -/

/-- The fields of `Elf64_Phdr` that are used. -/
structure ProgramHeader where
  type : ℕ
  offset : ℕ
  vaddr : ℕ
  filesz : ℕ
  memsz : ℕ
  deriving Repr, DecidableEq

def ptLoad : ℕ := 1

/-- `programHeaders[i]`. -/
def programHeader (mem : Mem) (programHeaders i : ℕ) : ProgramHeader where
  type := mem.get32 (programHeaders + 56 * i)
  offset := mem.get64 (programHeaders + 56 * i + 8)
  vaddr := mem.get64 (programHeaders + 56 * i + 16)
  filesz := mem.get64 (programHeaders + 56 * i + 32)
  memsz := mem.get64 (programHeaders + 56 * i + 40)

/-- The fields of `Elf64_Ehdr` that are used. -/
def elfEntry (mem : Mem) (header : ℕ) : ℕ := mem.get64 (header + 24)
def elfPhoff (mem : Mem) (header : ℕ) : ℕ := mem.get64 (header + 32)
def elfPhnum (mem : Mem) (header : ℕ) : ℕ := mem.get16 (header + 56)

/-- The first loop over the headers: where the segments end, and where they start. -/
def segmentRange (mem : Mem) (header programHeaders : ℕ) : ℕ × ℕ :=
  (List.range (elfPhnum mem header)).foldl (fun (highest, lowest) i =>
    let p := programHeader mem programHeaders i
    if p.type = ptLoad then
      let chunkEnd := wrap (p.vaddr + p.memsz)
      (if chunkEnd > highest then chunkEnd else highest,
        if p.vaddr < lowest then p.vaddr else lowest)
    else (highest, lowest)) (0, wrapSub 0 1)

/-- One segment copied to its place, and the rest of it cleared. -/
def loadSegment (kernelBuffer : ℕ) (p : ProgramHeader) (mem : Mem) : Mem :=
  let mem := memcpy mem p.vaddr (wrap (kernelBuffer + p.offset)) p.filesz
  memset mem (wrap (p.vaddr + p.filesz)) 0 (wrapSub p.memsz p.filesz)

/-- The second loop, from header `i` on, with at most `n` headers to go. Their number is 16 bits
    wide, and looked up each time. -/
def loadSegments (kernelBuffer programHeaders : ℕ) : ℕ → ℕ → Mem → Mem
  | 0, _, mem => mem
  | n + 1, i, mem =>
    if i < elfPhnum mem kernelBuffer then
      let p := programHeader mem programHeaders i
      loadSegments kernelBuffer programHeaders n (i + 1)
        (if p.type = ptLoad then loadSegment kernelBuffer p mem else mem)
    else mem

/-! ## The loader -/

def targetWidth : ℕ := 1920
def targetHeight : ℕ := 1080

/-- `ACPI_20_TABLE_GUID`. -/
def acpi20TableGuid : ℕ := 0x8868E871E4F111D3BC220080C73C8881

structure BootData where
  gop : ℕ
  acpi : ℕ
  memoryMap : ℕ
  mapSize : ℕ
  descriptorSize : ℕ
  deriving Repr, DecidableEq

/-- The call of the kernel: where, with what, and in which memory. -/
structure KernelStart where
  entry : ℕ
  data : BootData
  mem : Mem

def getVolume : Loader Unit := do
  check (.handleProtocol .loadedImage)
  check (.handleProtocol .simpleFileSystem)
  check .openVolume

/-- The pages that the kernel needs, and where. -/
def kernelPages (range : ℕ × ℕ) : ℕ := wrap (wrapSub range.1 range.2 + 0x1000 - 1) / 0x1000

/-- The kernel read, and its segments put in their place: the entry point, and the memory. -/
def loadKernel (fw : Firmware) : Loader (ℕ × Mem) := do
  getVolume
  check .openFile
  let kernelBuffer := fw.allocatePool fw.kernelSize
  check .read
  let mem := fw.mem.copy kernelBuffer fw.kernel 0 fw.kernelSize
  check .close
  let programHeaders := wrap (kernelBuffer + elfPhoff mem kernelBuffer)
  let range := segmentRange mem kernelBuffer programHeaders
  let lowest := range.2
  check (.allocatePages (kernelPages range) lowest)
  if fw.allocatePages (kernelPages range) lowest ≠ lowest then .fail (wrapSub 0 1) else
  let mem := loadSegments kernelBuffer programHeaders (2 ^ 16) 0 mem
  return (elfEntry mem kernelBuffer, mem)

/-- The first table with the identifier of the ACPI tables; `uninit` is what the local variable
    `acpi` holds. -/
def findAcpi (uninit : ℕ) (fw : Firmware) : ℕ :=
  ((fw.configurationTable.find? fun (guid, _) => guid == acpi20TableGuid).map (·.2)).getD uninit

/-- The search for the mode of the size that is wanted, from mode `i` on, with `n` modes to go. -/
def searchModes (fw : Firmware) : ℕ → ℕ → Loader Unit
  | 0, _ => return
  | n + 1, i => do
    check (.queryMode i)
    if fw.modeInfo i = (targetWidth, targetHeight) then check (.setMode i)
    else searchModes fw n (i + 1)

def bootData (uninit : ℕ) (fw : Firmware) : BootData where
  gop := fw.gop
  acpi := findAcpi uninit fw
  memoryMap := fw.memoryMap
  mapSize := wrap (fw.descriptorSize * fw.numEntries)
  descriptorSize := fw.descriptorSize

/-- `efi_main` up to the call of `ExitBootServices`. -/
def prepare (uninit : ℕ) (fw : Firmware) : Loader KernelStart := do
  check .setWatchdogTimer
  let (entry, mem) ← loadKernel fw
  check .locateProtocol
  searchModes fw fw.maxMode 0
  return ⟨entry, bootData uninit fw, mem⟩

/-- `efi_main`. The status of `ExitBootServices` is not looked at. -/
def efiMain (uninit : ℕ) (fw : Firmware) : Loader KernelStart := do
  let start ← prepare uninit fw
  .call (.exitBootServices fw.mapKey) fun _ => .done start

end SmartOS
