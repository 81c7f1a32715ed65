import SmartOS.FAT16.Directory
import SmartOS.FAT16.Layout

/-!
# Buffers

What the functions of `FAT16.cpp` and `Partitions.cpp` do with their buffers: the
sectors that they transfer, into or from a buffer of some size, and the entries
that they access in a sector of the FAT (`Access`); and the numbers that they
divide by. The functions here follow those of `FAT16.Basic` and
`FAT16.Directory` through their loops (`loopLog`), so that they also say what a
call does that never returns.

* `inBounds_iff`: the operations that stay within their buffers
  (`Operation.Fits`).
-/

namespace SmartOS

open Prog

/-! ## Packed structures -/

def sizeofBPB : ℕ := [3, 8, 2, 1, 2, 1, 2, 2, 1, 2, 2, 2, 4].sum

def sizeofFAT16BootBlock : ℕ := [sizeofBPB, 1, 1, 1, 4, 11, 8, 448, 2].sum

def sizeofDirectoryEntry : ℕ := [11, 1, 1, 1, 2, 2, 2, 2, 2, 2, 2, 4].sum

def sizeofMBREntry : ℕ := [1, 1, 2, 1, 1, 2, 4, 4].sum

def sizeofMBRBlock : ℕ := [446, 4 * sizeofMBREntry, 2].sum

/-! ## Partitions -/

/-- The fields of `MBREntry` that are used. -/
structure MBREntry where
  systemId : ℕ
  startLba : ℕ
  deriving Repr, DecidableEq

/-- The entry `i` of the partition table. -/
def MBREntry.read (mbr : Mem) (i : ℕ) : MBREntry where
  systemId := (mbr (446 + sizeofMBREntry * i + 4)).toNat
  startLba := mbr.get32 (446 + sizeofMBREntry * i + 8)

/-- The partitions for which `scanDevice` makes a file system. -/
def Disk.partitions (disk : Disk) : List MBREntry :=
  ((List.range 4).map (MBREntry.read (disk.readSectors 0 (fun _ => 0) 1))).filter (·.systemId = 6)

/-- `scanDevice(device)`: the file systems that it adds. -/
def scanDevice (disk : Disk) : List FAT16 :=
  disk.partitions.map fun e => FAT16.new disk e.startLba

/-! ## Accesses -/

/-- What is done with a buffer: a call of `readSectors` or `writeSectors` with a buffer of
    `capacity` bytes, or an access to an entry of a sector of the FAT. Besides, a division or a
    remainder. -/
inductive Access
  | sectors (capacity count : ℕ)
  | entry (index : ℕ)
  | divide (divisor : ℕ)
  deriving Repr, DecidableEq

/-- The access stays within its buffer. -/
def Access.InBounds : Access → Prop
  | sectors capacity count => 512 * count ≤ capacity
  | entry index => index < 256
  | divide _ => True

instance : DecidablePred Access.InBounds
  | .sectors capacity count => inferInstanceAs (Decidable (512 * count ≤ capacity))
  | .entry index => inferInstanceAs (Decidable (index < 256))
  | .divide _ => inferInstanceAs (Decidable True)

namespace FAT16

variable (fs : FAT16) (disk : Disk)

/-- Of the constructor. -/
def newAccesses : List Access := [.sectors sizeofFAT16BootBlock 1]

def readFATAccesses (entry : ℕ) : List Access := [.sectors 512 1, .entry (entry % 2 ^ 16 % 256)]

/-- Nothing is accessed after a division by zero. -/
def writeFATAccesses (idx : ℕ) : List Access :=
  .sectors 512 1 :: .divide fs.sectorsPerFAT ::
    if fs.sectorsPerFAT = 0 then [] else [.entry (idx % 2 ^ 16 % fs.sectorsPerFAT), .sectors 512 1]

/-- Of `readCluster` and `writeCluster`. -/
def clusterAccesses (capacity : ℕ) : List Access := [.sectors capacity fs.sectorsPerCluster]

/-! ## Directories -/

/-- The size of a buffer for a cluster of a directory. -/
def entriesSize : ℕ := sizeofDirectoryEntry * (fs.sectorsPerCluster * 32)

/-- A round of the loop of `searchDirectory`, or of that of `list`. -/
def roundAccesses {α β : Type} (body : ℕ × α → (ℕ × α) ⊕ β) (s : ℕ × α) : List Access :=
  if s.1 < 0xFFF7 then
    fs.clusterAccesses fs.entriesSize ++ (body s).elim (fun _ => readFATAccesses s.1) fun _ => []
  else []

def searchDirectoryAccesses (cluster : ℕ) (fatname : List Byte) (entries : Mem) (fuel : ℕ) :
    List Access :=
  loopLog (fs.searchBody disk fatname) (fs.roundAccesses (fs.searchBody disk fatname))
    (fun _ => []) fuel (cluster % 2 ^ 16, entries)

def lookUpAccesses (junk : ℕ → Junk) (w : Walk) (fuel : ℕ) : List Access :=
  match localName (junk w.searches).tail w.component with
  | none => []
  | some name =>
    fs.searchDirectoryAccesses disk w.cluster (filenameToFAT name) (junk w.searches).entries fuel

/-- Of `walk`, and of what comes after it. -/
def walkAccesses (junk : ℕ → Junk) (fuel : ℕ) (after : Walk → List Access) :
    List Byte → Walk → List Access
  | [], w => after w
  | c :: path, w =>
    if c = 0x2F then
      fs.lookUpAccesses disk junk w fuel ++
        match fs.lookUp disk junk w fuel with
        | some (some w) => walkAccesses junk fuel after path w
        | _ => []
    else walkAccesses junk fuel after path { w with component := w.component ++ [c] }

def openAccesses (junk : ℕ → Junk) (lastSize : ℕ) (path : List Byte) (fuel : ℕ) : List Access :=
  fs.walkAccesses disk junk fuel (fs.lookUpAccesses disk junk · fuel) (stripSlash path)
    ⟨0, [], 1, lastSize⟩

def listAccesses (junk : ℕ → Junk) (entries : Mem) (lastSize : ℕ) (path : List Byte) (fuel : ℕ) :
    List Access :=
  let body := fs.listBody disk (stripSlash path)
  fs.walkAccesses disk junk fuel
    (fun w => loopLog body (fs.roundAccesses body) (fun _ => []) fuel (w.cluster, entries, []))
    (stripSlash path) ⟨0, [], 1, lastSize⟩

/-! ## Files -/

/-- A loop of `read` or `write` along a chain. -/
def followLog {σ : Type} (cond : σ → Bool) (next : σ → σ) (cluster : σ → ℕ)
    (after : σ → List Access) (fuel : ℕ) (s : σ) : List Access :=
  loopLog (whileDo cond next) (fun s => if cond s then readFATAccesses (cluster s) else []) after
    fuel s

/-- What `read` does with a cluster: it is read, and the position in it is a remainder. -/
def readAccesses₁ : List Access := fs.clusterAccesses fs.clusterSize ++ [.divide fs.clusterSize]

def readAccesses (file : File) (dest size : ℕ) (buffer m : Mem) (fuel : ℕ) : List Access :=
  let endPos := wrap (size + file.position)
  followLog (fs.beyond file.position) (fs.follow disk) Prod.fst (fun start =>
    followLog (fs.beyond endPos) (fs.follow disk) Prod.fst (fun last =>
      loopLog (whileDo (·.cluster != last.1) (fs.readStep disk dest))
        (fun s => if s.cluster != last.1 then fs.readAccesses₁ ++ readFATAccesses s.cluster else [])
        (fun _ => fs.readAccesses₁) fuel ⟨start.1, file.position, 0, buffer, m⟩) fuel start)
    fuel (file.cluster, 0)

/-- What `write` does with a cluster. -/
def writeAccesses₁ (capacity : ℕ) : List Access :=
  fs.clusterAccesses capacity ++ .divide fs.clusterSize :: fs.clusterAccesses capacity

def writeAccesses (file : File) (src : Mem) (size : ℕ) (buffer : Mem) (fuel : ℕ) : List Access :=
  let endPos := wrap (size + file.position)
  let capacity := wrap (512 * size)
  followLog (fun _ => file.position ≥ fs.clusterSize) (fs.followOnly disk) id (fun start =>
    followLog (fun _ => endPos > fs.clusterSize) (fs.followOnly disk) id (fun last =>
      loopLog (fs.writeBody src capacity last)
        (fun s =>
          if s.cluster = last then [] else fs.writeAccesses₁ capacity ++ readFATAccesses s.cluster)
        (fun s => s.elim [] fun _ => fs.writeAccesses₁ capacity) fuel
        ⟨start, file.position, 0, buffer, disk⟩) fuel start)
    fuel file.cluster

end FAT16

/-! ## Operations -/

/-- The operations on a volume and on its device. -/
inductive Operation
  | new
  | scanDevice
  | readFAT (entry : ℕ)
  | writeFAT (idx entry : ℕ)
  | searchDirectory (cluster : ℕ) (fatname : List Byte) (entries : Mem)
  | open (junk : ℕ → Junk) (lastSize : ℕ) (path : List Byte)
  | list (junk : ℕ → Junk) (entries : Mem) (lastSize : ℕ) (path : List Byte)
  | read (file : File) (dest size : ℕ) (buffer m : Mem)
  | write (file : File) (src : Mem) (size : ℕ) (buffer : Mem)

namespace FAT16

variable (fs : FAT16) (disk : Disk)

/-- What an operation does with its buffers in at most `fuel` rounds of each of its loops. -/
def accesses (fuel : ℕ) : Operation → List Access
  | .new => newAccesses
  | .scanDevice => .sectors sizeofMBRBlock 1 :: disk.partitions.flatMap fun _ => newAccesses
  | .readFAT entry => readFATAccesses entry
  | .writeFAT idx _ => fs.writeFATAccesses idx
  | .searchDirectory cluster fatname entries =>
    fs.searchDirectoryAccesses disk cluster fatname entries fuel
  | .open junk lastSize path => fs.openAccesses disk junk lastSize path fuel
  | .list junk entries lastSize path => fs.listAccesses disk junk entries lastSize path fuel
  | .read file dest size buffer m => fs.readAccesses disk file dest size buffer m fuel
  | .write file src size buffer => fs.writeAccesses disk file src size buffer fuel

/-- An operation stays within its buffers, as far as it goes. -/
def InBounds (op : Operation) : Prop := ∀ fuel, ∀ a ∈ fs.accesses disk fuel op, a.InBounds

/-- The operations that do. The buffer of `write` has as many sectors as bytes are written; it is
    only used when they lie in the first cluster, and the loops before do not end otherwise. -/
def Fits : Operation → Prop
  | .new => False
  | .scanDevice => disk.partitions = []
  | .writeFAT idx _ => fs.sectorsPerFAT = 0 ∨ idx % 2 ^ 16 % fs.sectorsPerFAT < 256
  | .write file _ size _ =>
    ¬(file.position < fs.clusterSize ∧ wrap (size + file.position) ≤ fs.clusterSize ∧
      wrap (512 * size) < fs.clusterSize)
  | _ => True

end FAT16

variable {fs : FAT16} {disk : Disk} {n capacity cluster idx entry size lastSize : ℕ}
  {fatname path : List Byte} {buffer entries : Mem} {junk : ℕ → Junk} {w : Walk}

/-! ## One access after another -/

theorem inBounds_readFAT : ∀ a ∈ FAT16.readFATAccesses entry, a.InBounds := by
  rw [FAT16.readFATAccesses, List.forall_mem_cons, List.forall_mem_singleton]
  exact ⟨le_rfl, Nat.mod_lt _ (by decide)⟩

theorem not_inBounds_new : ¬∀ a ∈ FAT16.newAccesses, a.InBounds := fun h =>
  absurd (h _ List.mem_cons_self) (by decide)

theorem inBounds_cluster_iff :
    (∀ a ∈ fs.clusterAccesses capacity, a.InBounds) ↔ fs.clusterSize ≤ capacity := by
  rw [FAT16.clusterAccesses, List.forall_mem_singleton, FAT16.clusterSize, Nat.mul_comm]
  rfl

/-- An entry is written, by `writeFAT`, if the accesses are in bounds and nothing is divided by
    zero. -/
theorem writeFAT_isSome_iff : (fs.writeFAT disk idx entry).isSome ↔
    ∀ a ∈ fs.writeFATAccesses idx, a.InBounds ∧ a ≠ .divide 0 := by
  rw [FAT16.writeFAT, FAT16.writeFATAccesses]
  by_cases hzero : fs.sectorsPerFAT = 0
  · simp [hzero]
  · simp [hzero, Access.InBounds]

/-- The buffer for a cluster of a directory is large enough. -/
theorem inBounds_entries : ∀ a ∈ fs.clusterAccesses fs.entriesSize, a.InBounds := by
  rw [inBounds_cluster_iff, FAT16.clusterSize, FAT16.entriesSize,
    show sizeofDirectoryEntry = 32 from rfl]
  omega

/-! ## Along the loops -/

section

variable {P : Access → Prop} (hread : ∀ entry, ∀ a ∈ FAT16.readFATAccesses entry, P a)
include hread

section

variable (hentries : ∀ a ∈ fs.clusterAccesses fs.entriesSize, P a)
include hentries

theorem forall_directoryLoop {α β : Type} {body : ℕ × α → (ℕ × α) ⊕ β} {s : ℕ × α} :
    ∀ a ∈ loopLog body (fs.roundAccesses body) (fun _ => []) n s, P a := by
  refine forall_loopLog (fun _ => True) (fun s _ => ?_) (fun _ _ _ _ => trivial)
    (fun _ _ _ _ _ ha => absurd ha List.not_mem_nil) trivial
  rw [FAT16.roundAccesses]
  split_ifs
  · refine List.forall_mem_append.2 ⟨hentries, ?_⟩
    cases body s with
    | inl _ => exact hread _
    | inr _ => exact fun a ha => absurd ha List.not_mem_nil
  · exact fun a ha => absurd ha List.not_mem_nil

theorem forall_lookUp : ∀ a ∈ fs.lookUpAccesses disk junk w n, P a := by
  rw [FAT16.lookUpAccesses]
  split
  · exact fun a ha => absurd ha List.not_mem_nil
  · exact forall_directoryLoop hread hentries

theorem forall_walk {after : Walk → List Access} (h : ∀ w, ∀ a ∈ after w, P a) :
    ∀ a ∈ fs.walkAccesses disk junk n after path w, P a := by
  induction path generalizing w with
  | nil => exact h w
  | cons _ path ih =>
    rw [FAT16.walkAccesses]
    split_ifs
    · refine List.forall_mem_append.2 ⟨forall_lookUp hread hentries, ?_⟩
      split
      · exact ih
      · exact fun a ha => absurd ha List.not_mem_nil
    · exact ih

end

theorem forall_followLog {σ : Type} {cond : σ → Bool} {next : σ → σ} {cluster : σ → ℕ}
    {after : σ → List Access} {s : σ} (hafter : ∀ s, cond s = false → ∀ a ∈ after s, P a) :
    ∀ a ∈ FAT16.followLog cond next cluster after n s, P a := by
  refine forall_loopLog (fun _ => True) (fun s _ => ?_) (fun _ _ _ _ => trivial)
    (fun s _ _ hbody => ?_) trivial
  · split_ifs
    · exact hread _
    · exact fun a ha => absurd ha List.not_mem_nil
  · rw [whileDo] at hbody
    split_ifs at hbody with hcond
    cases hbody
    exact hafter _ (Bool.not_eq_true _ ▸ hcond)

theorem forall_read {file : File} {dest : ℕ} {m : Mem} (hcluster : ∀ a ∈ fs.readAccesses₁, P a) :
    ∀ a ∈ fs.readAccesses disk file dest size buffer m n, P a := by
  refine forall_followLog hread fun start _ => forall_followLog hread fun last _ =>
    forall_loopLog (fun _ => True) (fun s _ => ?_) (fun _ _ _ _ => trivial)
      (fun _ _ _ _ => hcluster) trivial
  split_ifs
  · exact List.forall_mem_append.2 ⟨hcluster, hread _⟩
  · exact fun a ha => absurd ha List.not_mem_nil

end

/-! ## Writing -/

theorem inBounds_write_iff {file : File} {src : Mem} :
    (∀ n, ∀ a ∈ fs.writeAccesses disk file src size buffer n, a.InBounds) ↔
      fs.Fits disk (.write file src size buffer) := by
  rw [FAT16.Fits]
  constructor
  · rintro h ⟨hposition, hend, hcapacity⟩
    -- The loops are left at once, for the first cluster.
    have hlog : fs.writeAccesses disk file src size buffer 1 =
        fs.writeAccesses₁ (wrap (512 * size)) := by
      have hstart : decide (file.position ≥ fs.clusterSize) = false :=
        decide_eq_false (Nat.not_le.2 hposition)
      have hlast : decide (wrap (size + file.position) > fs.clusterSize) = false :=
        decide_eq_false (Nat.not_lt.2 hend)
      simp only [FAT16.writeAccesses, FAT16.followLog, loopLog, whileDo, hstart, hlast,
        Bool.false_eq_true, if_false, FAT16.writeBody, if_true, Sum.elim_inr, Option.elim_some,
        List.nil_append]
    have hall := hlog ▸ h 1
    have := inBounds_cluster_iff.1 (List.forall_mem_append.1 hall).1
    omega
  · intro hfits n
    have hread (entry : ℕ) := @inBounds_readFAT entry
    refine forall_followLog hread fun start hstart => forall_followLog hread fun last hlast => ?_
    have hcapacity : fs.clusterSize ≤ wrap (512 * size) := by
      have := of_decide_eq_false hstart
      have := of_decide_eq_false hlast
      omega
    have hcluster : ∀ a ∈ fs.writeAccesses₁ (wrap (512 * size)), a.InBounds :=
      List.forall_mem_append.2 ⟨inBounds_cluster_iff.2 hcapacity,
        List.forall_mem_cons.2 ⟨trivial, inBounds_cluster_iff.2 hcapacity⟩⟩
    refine forall_loopLog (fun _ => True) (fun s _ => ?_) (fun _ _ _ _ => trivial)
      (fun _ s _ _ => ?_) trivial
    · split_ifs
      · exact fun a ha => absurd ha List.not_mem_nil
      · exact List.forall_mem_append.2 ⟨hcluster, inBounds_readFAT⟩
    · cases s with
      | none => exact fun a ha => absurd ha List.not_mem_nil
      | some _ => exact hcluster

/-! ## The whole -/

/-- The operations that stay within their buffers. -/
theorem inBounds_iff (fs : FAT16) (disk : Disk) (op : Operation) :
    fs.InBounds disk op ↔ fs.Fits disk op := by
  have hread (entry : ℕ) := @inBounds_readFAT entry
  cases op with
  | new => exact iff_of_false (fun h => not_inBounds_new (h 0)) id
  | scanDevice =>
    -- A partition is mounted with `new`, whose buffer is too small.
    have hmbr : (Access.sectors sizeofMBRBlock 1).InBounds := by decide
    simp only [FAT16.InBounds, FAT16.accesses, FAT16.Fits, List.forall_mem_cons, hmbr, true_and,
      forall_const]
    cases disk.partitions with
    | nil => simp
    | cons e es =>
      refine iff_of_false (fun h => not_inBounds_new fun a ha => h a ?_) (List.cons_ne_nil e es)
      exact List.mem_append_left _ ha
  | readFAT entry => exact iff_of_true (fun _ => hread entry) trivial
  | writeFAT idx entry =>
    simp only [FAT16.InBounds, FAT16.accesses, FAT16.writeFATAccesses, FAT16.Fits, forall_const]
    by_cases hzero : fs.sectorsPerFAT = 0
    · simp [hzero, Access.InBounds]
    · simp [hzero, Access.InBounds]
  | searchDirectory cluster fatname entries =>
    exact iff_of_true (fun _ => forall_directoryLoop hread inBounds_entries) trivial
  | «open» junk lastSize path =>
    exact iff_of_true (fun _ => forall_walk hread inBounds_entries fun _ =>
      forall_lookUp hread inBounds_entries) trivial
  | list junk entries lastSize path =>
    exact iff_of_true (fun _ => forall_walk hread inBounds_entries fun _ =>
      forall_directoryLoop hread inBounds_entries) trivial
  | read file dest size buffer m =>
    have hcluster : ∀ a ∈ fs.readAccesses₁, a.InBounds :=
      List.forall_mem_append.2 ⟨inBounds_cluster_iff.2 le_rfl, List.forall_mem_singleton.2 trivial⟩
    exact iff_of_true (fun _ => forall_read hread hcluster) trivial
  | write file src size buffer => exact inBounds_write_iff

/-- What `FAT16.InBounds` says, of all operations on all volumes. -/
def AllInBounds : Prop :=
  ∀ (disk : Disk) (offset : ℕ) (op : Operation), 1 ≤ (disk.bpb offset).sectorsPerCluster →
    (FAT16.new disk offset).InBounds disk op

/-- The constructor reads a sector into a structure of 508 bytes. -/
theorem not_allInBounds : ¬AllInBounds := fun h =>
  not_inBounds_new (h (bootSector 1) 0 .new (by rw [bootSector_bpb.1]) 0)

end SmartOS
