import SmartOS.FAT16.Device
import SmartOS.FAT16.Search
import SmartOS.IDE.Transfer
import SmartOS.Lib.Refine

/-!
# FAT16 on an IDE device

The two drivers together. FAT16 asks for one sector at a time, or for the sectors of a
cluster, whose number is a byte; so no request is one of those that `readSectors` and
`writeSectors` of an IDE device get wrong, as long as the device can address the sectors.
Then files are read and written as on an ideal disk.

* `StorageDevice.Implements`: a device shows a disk, and does what an ideal one does;
* `readFATOn_over`, `readClusterOn_over`: the functions on clusters, and from these every
  function of the file system, loop by loop (`rel_loop`);
* `implements_storage`: an IDE device is one, for the sectors that it can address
  (`IDEDevice.Reaches`);
* `ide_refines_disk`: what is found on the device, and what comes of any operations on it,
  one after another, is what it is on an ideal disk.
-/

namespace SmartOS

open Prog

variable {δ : Type}

/-! ## Ideal devices -/

/-- A device shows a disk, `view`, and does what an ideal one does with those sectors. -/
structure StorageDevice.Implements (D : StorageDevice δ) (view : δ → Disk) (Valid : ℕ → ℕ → Prop) :
    Prop where
  read : ∀ {lba sectors : ℕ} (buffer : Mem) (s : δ), Valid lba sectors →
    (D.readSectors lba buffer sectors s).1 = (view s).readSectors lba buffer sectors ∧
      view (D.readSectors lba buffer sectors s).2 = view s
  write : ∀ {lba sectors : ℕ} (buffer : Mem) (s : δ), Valid lba sectors →
    view (D.writeSectors lba buffer sectors s) = (view s).writeSectors lba buffer sectors

/-- All the sectors that a volume may ask for, whatever is on it. -/
structure FAT16.Within (Valid : ℕ → ℕ → Prop) (fs : FAT16) : Prop where
  fat : ∀ k < 256, Valid (wrap (fs.fatOffset + k)) 1
  cluster : ∀ idx < 2 ^ 16, Valid (fs.clusterSector idx) fs.sectorsPerCluster

section

variable {D : StorageDevice δ} {view : δ → Disk} {Valid : ℕ → ℕ → Prop} {fs : FAT16} {disk : Disk}
  {s : δ} {cluster entry idx : ℕ} {buffer m src : Mem} {fatname path : List Byte} {junk : ℕ → Junk}

/-- What is read from a device. -/
theorem StorageDevice.Implements.over (h : D.Implements view Valid) {lba sectors : ℕ}
    (hv : Valid lba sectors) (hs : view s = disk) (buffer : Mem) :
    Over view disk (D.readSectors lba buffer sectors s) (disk.readSectors lba buffer sectors) := by
  obtain ⟨hread, hview⟩ := h.read buffer s hv
  exact ⟨hs ▸ hread, hview.trans hs⟩

theorem readFATOn_over (h : D.Implements view Valid) (hfs : fs.Within Valid) (hs : view s = disk)
    (entry : ℕ) : Over view disk (fs.readFATOn D entry s) (fs.readFAT disk entry) := by
  have hlt : entry % 2 ^ 16 / 256 < 256 :=
    Nat.div_lt_of_lt_mul (Nat.mod_lt entry (by decide : 2 ^ 16 > 0))
  obtain ⟨hread, hview⟩ := h.over (hfs.fat _ hlt) hs fun _ => 0
  exact ⟨congrArg (fun m : Mem => m.get16 (2 * (entry % 2 ^ 16 % 256))) hread, hview⟩

theorem readClusterOn_over (h : D.Implements view Valid) (hfs : fs.Within Valid)
    (hs : view s = disk) (idx : ℕ) (buffer : Mem) :
    Over view disk (fs.readClusterOn D idx buffer s) (fs.readCluster disk idx buffer) :=
  h.over (hfs.cluster _ (Nat.mod_lt idx (by decide))) hs buffer

theorem view_writeClusterOn (h : D.Implements view Valid) (hfs : fs.Within Valid)
    (hs : view s = disk) (idx : ℕ) (buffer : Mem) :
    view (fs.writeClusterOn D idx buffer s) = fs.writeCluster disk idx buffer := by
  rw [FAT16.writeClusterOn, h.write buffer s (hfs.cluster _ (Nat.mod_lt idx (by decide))), hs]
  rfl

/-! ## Reading and writing -/

theorem readOn_rel (h : D.Implements view Valid) (hfs : fs.Within Valid) (hs : view s = disk)
    (file : File) (dest size : ℕ) (buffer m : Mem) (n : ℕ) :
    Option.Rel (Option.Rel (Over view disk)) (fs.readOn D file dest size buffer m n s)
      (fs.read disk file dest size buffer m n) := by
  have hfollow : ∀ x y, Over view disk x y →
      Over view disk (fs.followOn D x) (fs.follow disk y) := by
    rintro ⟨⟨cluster, clusterIdx⟩, s⟩ _ ⟨rfl, hs⟩
    obtain ⟨hfat, hview⟩ := readFATOn_over h hfs hs cluster
    exact ⟨Prod.ext hfat rfl, hview⟩
  refine rel_bind (rel_while (fun _ _ hx => by rw [hx.1]) hfollow (over_mk hs) n) ?_
  rintro ⟨start, s₁⟩ _ ⟨rfl, hs₁⟩
  refine rel_bind (rel_while (fun _ _ hx => by rw [hx.1]) hfollow (over_mk hs₁) n) ?_
  rintro ⟨last, s₂⟩ _ ⟨rfl, hs₂⟩
  refine rel_bind (rel_while (fun _ _ hx => by rw [hx.1]) ?_ (over_mk hs₂) n) ?_
  · rintro ⟨x, s⟩ _ ⟨rfl, hs⟩
    obtain ⟨hbuffer, hview⟩ := readClusterOn_over h hfs hs x.cluster x.buffer
    obtain ⟨hfat, hview'⟩ := readFATOn_over h hfs hview x.cluster
    refine ⟨?_, hview'⟩
    dsimp only [FAT16.readStepOn, FAT16.readStep]
    rw [hbuffer, hfat]
  · rintro ⟨x, s⟩ _ ⟨rfl, hs⟩
    obtain ⟨hbuffer, hview⟩ := readClusterOn_over h hfs hs x.cluster x.buffer
    refine .some ?_
    dsimp only [FAT16.readLastOn, FAT16.readLast]
    rw [hbuffer]
    split
    · exact .some ⟨rfl, hview⟩
    · exact .none

/-- The variables of the copy loop of `write`, on a device that shows what is on the disk. -/
structure FAT16.WriteState.Shows (view : δ → Disk) (x : FAT16.WriteState δ)
    (y : FAT16.CopyState) : Prop where
  cluster : x.cluster = y.cluster
  readPos : x.readPos = y.readPos
  writePos : x.writePos = y.writePos
  buffer : x.buffer = y.buffer
  device : view x.device = y.target

theorem writeBodyOn_rel (h : D.Implements view Valid) (hfs : fs.Within Valid) (src : Mem)
    (capacity last : ℕ) {x : FAT16.WriteState δ} {y : FAT16.CopyState} (hxy : x.Shows view y) :
    Sum.LiftRel (FAT16.WriteState.Shows view) (Option.Rel (FAT16.WriteState.Shows view))
      (fs.writeBodyOn D src capacity last x) (fs.writeBody src capacity last y) := by
  obtain ⟨cluster, readPos, writePos, buffer, s⟩ := x
  obtain ⟨rfl, rfl, rfl, rfl, hs⟩ := hxy
  rw [FAT16.writeBodyOn, FAT16.writeBody]
  dsimp only at hs ⊢
  split_ifs
  · exact .inr (.some ⟨rfl, rfl, rfl, rfl, hs⟩)
  · exact .inr .none
  · obtain ⟨hbuffer, hview⟩ := readClusterOn_over h hfs hs y.cluster y.buffer
    have hwritten := view_writeClusterOn h hfs hview y.cluster
      (memcpyFrom (fs.readCluster y.target y.cluster y.buffer) (y.readPos % fs.clusterSize) src
        y.writePos (fs.clusterSize - y.readPos % fs.clusterSize))
    obtain ⟨hfat, hview'⟩ := readFATOn_over h hfs hwritten y.cluster
    rw [hbuffer]
    exact .inl ⟨hfat, rfl, rfl, rfl, hview'⟩

theorem writeOn_rel (h : D.Implements view Valid) (hfs : fs.Within Valid) (hs : view s = disk)
    (file : File) (src : Mem) (size : ℕ) (buffer : Mem) (n : ℕ) :
    Option.Rel (Option.Rel fun s disk => view s = disk) (fs.writeOn D file src size buffer n s)
      (fs.write file src size buffer disk n) := by
  have hfollow : ∀ x y, Over view disk x y →
      Over view disk (fs.followOnlyOn D x) (fs.followOnly disk y) := by
    rintro ⟨cluster, s⟩ _ ⟨rfl, hs⟩
    exact readFATOn_over h hfs hs cluster
  refine rel_bind (rel_while (fun _ _ _ => rfl) hfollow (over_mk hs) n) ?_
  rintro ⟨start, s₁⟩ _ ⟨rfl, hs₁⟩
  refine rel_bind (rel_while (fun _ _ _ => rfl) hfollow (over_mk hs₁) n) ?_
  rintro ⟨last, s₂⟩ _ ⟨rfl, hs₂⟩
  refine rel_bind (rel_loop (fun _ _ => writeBodyOn_rel h hfs src _ last)
    ⟨rfl, rfl, rfl, rfl, hs₂⟩ n) fun x y hxy => ?_
  cases hxy with
  | none => exact .some .none
  | @some x y hxy =>
    obtain ⟨cluster, readPos, writePos, buffer, s⟩ := x
    obtain ⟨rfl, rfl, rfl, rfl, hs⟩ := hxy
    obtain ⟨hbuffer, hview⟩ := readClusterOn_over h hfs hs y.cluster y.buffer
    refine .some ?_
    dsimp only [Option.bind_some, FAT16.writeLastOn, FAT16.writeLast]
    rw [hbuffer]
    split
    · exact .some (view_writeClusterOn h hfs hview _ _)
    · exact .none

/-! ## Directories -/

theorem searchDirectoryOn_rel (h : D.Implements view Valid) (hfs : fs.Within Valid)
    (hs : view s = disk) (cluster : ℕ) (fatname : List Byte) (entries : Mem) (n : ℕ) :
    Option.Rel (Over view disk) (fs.searchDirectoryOn D cluster fatname entries n s)
      (fs.searchDirectory disk cluster fatname entries n) := by
  refine rel_loop ?_ (over_mk hs : Over view disk ((cluster % 2 ^ 16, entries), s) _) n
  rintro ⟨⟨cluster, entries⟩, s⟩ _ ⟨rfl, hs⟩
  rw [FAT16.searchBodyOn, FAT16.searchBody]
  split_ifs
  · obtain ⟨hentries, hview⟩ := readClusterOn_over h hfs hs cluster entries
    dsimp only
    rw [hentries]
    cases FAT16.searchEntries fatname
      (fs.directoryEntries (fs.readCluster disk cluster entries)) with
    | some r => exact .inr (over_mk hview)
    | none =>
      obtain ⟨hfat, hview'⟩ := readFATOn_over h hfs hview cluster
      exact .inl ⟨Prod.ext hfat rfl, hview'⟩
  · exact .inr (over_mk hs)

theorem lookUpOn_rel (h : D.Implements view Valid) (hfs : fs.Within Valid) (junk : ℕ → Junk) (n : ℕ)
    {x : Walk × δ} {w : Walk} (hx : Over view disk x w) :
    Option.Rel (Option.Rel (Over view disk)) (fs.lookUpOn D junk n x)
      (fs.lookUp disk junk w n) := by
  obtain ⟨w, s⟩ := x
  obtain ⟨rfl, hs⟩ := hx
  rw [FAT16.lookUpOn, FAT16.lookUp]
  dsimp only
  cases localName (junk w.searches).tail w.component with
  | none => exact .some .none
  | some name =>
    refine rel_bind (searchDirectoryOn_rel h hfs hs _ _ _ n) ?_
    rintro ⟨r, s⟩ _ ⟨rfl, hs⟩
    exact .some (.some (over_mk hs))

theorem walkOn_rel (h : D.Implements view Valid) (hfs : fs.Within Valid) (junk : ℕ → Junk) (n : ℕ)
    (path : List Byte) {x : Walk × δ} {w : Walk} (hx : Over view disk x w) :
    Option.Rel (Option.Rel (Over view disk)) (fs.walkOn D junk n path x)
      (fs.walk disk junk n path w) := by
  induction path generalizing x w with
  | nil => exact .some (.some hx)
  | cons c path ih =>
    obtain ⟨w, s⟩ := x
    obtain ⟨rfl, hs⟩ := hx
    rw [FAT16.walkOn, FAT16.walk]
    split_ifs
    · exact rel_andThen (lookUpOn_rel h hfs junk n (over_mk hs)) fun _ _ => ih
    · exact ih (over_mk hs)

theorem openOn_rel (h : D.Implements view Valid) (hfs : fs.Within Valid) (hs : view s = disk)
    (junk : ℕ → Junk) (lastSize : ℕ) (path : List Byte) (n : ℕ) :
    Option.Rel (Option.Rel (Over view disk)) (fs.openOn D junk lastSize path n s)
      (fs.open disk junk lastSize path n) := by
  refine rel_andThen (walkOn_rel h hfs junk n _ (over_mk hs)) fun _ _ hx => ?_
  refine rel_andThen (lookUpOn_rel h hfs junk n hx) ?_
  rintro ⟨w, s⟩ _ ⟨rfl, hs⟩
  exact .some (.some (over_mk hs))

theorem listOn_rel (h : D.Implements view Valid) (hfs : fs.Within Valid) (hs : view s = disk)
    (junk : ℕ → Junk) (entries : Mem) (lastSize : ℕ) (path : List Byte) (n : ℕ) :
    Option.Rel (Option.Rel (Over view disk)) (fs.listOn D junk entries lastSize path n s)
      (fs.list disk junk entries lastSize path n) := by
  refine rel_andThen (walkOn_rel h hfs junk n _ (over_mk hs)) ?_
  rintro ⟨w, s⟩ _ ⟨rfl, hs⟩
  refine rel_loop ?_ (over_mk hs : Over view disk ((w.cluster, entries, []), s) _) n
  rintro ⟨⟨cluster, entries, files⟩, s⟩ _ ⟨rfl, hs⟩
  rw [FAT16.listBodyOn, FAT16.listBody]
  split_ifs
  · obtain ⟨hentries, hview⟩ := readClusterOn_over h hfs hs cluster entries
    dsimp only
    rw [hentries]
    cases FAT16.listEntries (stripSlash path) cluster
      (fs.directoryEntries (fs.readCluster disk cluster entries)) with
    | some new =>
      obtain ⟨hfat, hview'⟩ := readFATOn_over h hfs hview cluster
      exact .inl ⟨Prod.ext hfat rfl, hview'⟩
    | none => exact .inr .none
  · exact .inr (.some (over_mk hs))

/-! ## Operations -/

/-- The outcome is the same, and so is what the device shows. -/
def SameOutcome {α : Type} (view : δ → Disk) (a : α × δ) (b : α × Disk) : Prop :=
  a.1 = b.1 ∧ view a.2 = b.2

/-- What is the same as something that returns. -/
theorem exists_of_rel {α : Type} {r : Option (Option (α × δ))} {r' : Option (Option (α × Disk))}
    {a : α} (h : Option.Rel (Option.Rel (SameOutcome view)) r r')
    (hr' : r' = some (some (a, disk))) : ∃ s, r = some (some (a, s)) ∧ view s = disk := by
  subst hr'
  cases h with
  | some h =>
    cases h with
    | @some b _ hsame =>
      obtain ⟨b, s⟩ := b
      obtain ⟨rfl, hview⟩ := hsame
      exact ⟨s, rfl, hview⟩

theorem execOn_rel (h : D.Implements view Valid) (hfs : fs.Within Valid) (hs : view s = disk)
    (n : ℕ) (op : FileOp) :
    Option.Rel (Option.Rel (SameOutcome view)) (op.execOn D fs n s) (op.exec fs n disk) := by
  cases op with
  | «open» junk lastSize path =>
    refine rel_andThen (openOn_rel h hfs hs junk lastSize path n) ?_
    rintro ⟨file, s⟩ _ ⟨rfl, hs⟩
    exact .some (.some ⟨rfl, hs⟩)
  | list junk entries lastSize path =>
    refine rel_andThen (listOn_rel h hfs hs junk entries lastSize path n) ?_
    rintro ⟨files, s⟩ _ ⟨rfl, hs⟩
    exact .some (.some ⟨rfl, hs⟩)
  | read file dest size buffer m =>
    refine rel_andThen (readOn_rel h hfs hs file dest size buffer m n) ?_
    rintro ⟨m, s⟩ _ ⟨rfl, hs⟩
    exact .some (.some ⟨rfl, hs⟩)
  | write file src size buffer =>
    exact rel_andThen (writeOn_rel h hfs hs file src size buffer n)
      fun s _ hs => .some (.some ⟨rfl, hs⟩)

theorem runOn_rel (h : D.Implements view Valid) {fss : List FAT16}
    (hfss : ∀ fs ∈ fss, fs.Within Valid) (n : ℕ) (ops : List (Fin fss.length × FileOp))
    (hs : view s = disk) :
    Option.Rel (Option.Rel (SameOutcome view)) (FileOp.runOn D fss n ops s)
      (FileOp.run fss n ops disk) := by
  induction ops generalizing s disk with
  | nil => exact .some (.some ⟨rfl, hs⟩)
  | cons op ops ih =>
    obtain ⟨i, op⟩ := op
    refine rel_andThen (execOn_rel h (hfss _ (List.get_mem fss i)) hs n op) ?_
    rintro ⟨r, s⟩ ⟨_, disk⟩ ⟨rfl, hs⟩
    refine rel_andThen (ih hs) ?_
    rintro ⟨rs, s⟩ ⟨_, disk⟩ ⟨rfl, hs⟩
    exact .some (.some ⟨rfl, hs⟩)

/-! ## Finding the volumes -/

theorem newOn_over (h : D.Implements view Valid) (hs : view s = disk) {offset : ℕ}
    (hv : Valid offset 1) : Over view disk (FAT16.newOn D offset s) (FAT16.new disk offset) := by
  obtain ⟨hblock, hview⟩ := h.over hv hs fun _ => 0
  exact ⟨congrArg (FAT16.ofBlock · offset) hblock, hview⟩

/-- The entries that have been gone through are those of the volumes that have been added. -/
theorem scanEntriesOn_over (h : D.Implements view Valid) (mbr : Mem) {l : List ℕ}
    (hv : ∀ i ∈ l, (MBREntry.read mbr i).systemId = 6 → Valid (MBREntry.read mbr i).startLba 1)
    (fss : List FAT16) (hs : view s = disk) :
    Over view disk (l.foldl (FAT16.scanEntryOn D mbr) (fss, s))
      (fss ++ ((l.map (MBREntry.read mbr)).filter (·.systemId = 6)).map
        fun e => FAT16.new disk e.startLba) := by
  induction l generalizing fss s with
  | nil => exact ⟨(List.append_nil fss).symm, hs⟩
  | cons i l ih =>
    have hv' := fun j hj => hv j (List.mem_cons_of_mem i hj)
    rw [List.foldl_cons, List.map_cons, List.filter_cons, FAT16.scanEntryOn]
    by_cases hid : (MBREntry.read mbr i).systemId = 6
    · obtain ⟨hnew, hview⟩ := newOn_over h hs (hv i List.mem_cons_self hid)
      rw [if_pos hid, if_pos (decide_eq_true hid), List.map_cons, ← List.singleton_append,
        ← List.append_assoc, ← hnew]
      exact ih hv' _ hview
    · rw [if_neg hid, if_neg (by simpa using hid)]
      exact ih hv' _ hs

theorem scanDeviceOn_over (h : D.Implements view Valid) (hs : view s = disk) (hmbr : Valid 0 1)
    (hv : ∀ e ∈ disk.partitions, Valid e.startLba 1) :
    Over view disk (FAT16.scanDeviceOn D s) (scanDevice disk) := by
  obtain ⟨hread, hview⟩ := h.over hmbr hs fun _ => 0
  dsimp only [FAT16.scanDeviceOn]
  rw [hread]
  exact scanEntriesOn_over h _ (fun i hi hid => hv _
    (List.mem_filter.2 ⟨List.mem_map_of_mem hi, decide_eq_true hid⟩)) [] hview

end

/-! ## IDE devices -/

/-- An IDE device, with the state of its channel. -/
def IDEDevice.storage (dev : IDEDevice) : StorageDevice IDEChannel where
  readSectors lba buffer sectors channel := dev.readSectors lba 0 sectors (buffer, channel)
  writeSectors lba buffer sectors channel := dev.writeSectors lba buffer 0 sectors channel

/-- A request for fewer than 256 sectors, all of which the device can address. -/
structure IDEDevice.Reaches (dev : IDEDevice) (lba sectors : ℕ) : Prop where
  sectors_lt : sectors < 256
  lba_lt : lba < dev.addressable
  cylinder : dev.Chs → lba < 256 * 16 * 63

/-- The disk in the drive. -/
def IDEChannel.disk (channel : IDEChannel) : Disk := channel.drive.disk

variable {dev : IDEDevice} {channel : IDEChannel}

theorem IDEDevice.Reaches.target_eq {lba sectors : ℕ} (h : dev.Reaches lba sectors) :
    dev.target lba = lba := by
  rw [IDEDevice.target]
  split_ifs with hchs
  · exact Nat.mod_eq_of_lt (h.cylinder hchs)
  · rfl

/-- An ATA device does with the sectors that it reaches what an ideal disk does. -/
theorem implements_storage (hata : dev.type = .ata) :
    dev.storage.Implements IDEChannel.disk dev.Reaches where
  read {lba sectors} buffer channel h := by
    have hread : dev.storage.readSectors lba buffer sectors channel =
        dev.readChunk lba 0 sectors (buffer, channel) :=
      if_neg (Nat.not_lt.2 h.sectors_lt.le)
    obtain ⟨hmem, hdisk⟩ := readChunk_spec 0 sectors (buffer, channel) h.lba_lt
    rw [hata, h.target_eq, Nat.mod_eq_of_lt h.sectors_lt] at hmem
    rw [hread]
    exact ⟨hmem, hdisk⟩
  write {lba sectors} buffer channel h := by
    have hwrite : dev.storage.writeSectors lba buffer sectors channel =
        dev.writeChunk lba buffer 0 sectors channel := if_neg (Nat.not_lt.2 h.sectors_lt.le)
    rw [hwrite, IDEChannel.disk, writeChunk_spec hata h.lba_lt, h.target_eq,
      Nat.mod_eq_of_lt h.sectors_lt]
    rfl

/-- The sectors that a device that is not addressed by cylinders reaches. -/
theorem reaches_of_lba (hata : dev.type = .ata) (hcap : dev.capabilities &&& 0x200 ≠ 0)
    {lba sectors : ℕ} (hlt : lba < 2 ^ 48) (hsectors : sectors < 256) :
    dev.Reaches lba sectors where
  sectors_lt := hsectors
  lba_lt := by
    rw [IDEDevice.addressable, hata]
    dsimp only
    rwa [if_neg hcap]
  cylinder h := absurd h.2 hcap

/-- It reaches all that a volume may ask for, unless the volume is where the partition table is. -/
theorem within_of_lba (hata : dev.type = .ata) (hcap : dev.capabilities &&& 0x200 ≠ 0)
    (disk : Disk) {offset : ℕ} (hpos : 0 < offset) (hlt : offset < 2 ^ 32) :
    (FAT16.new disk offset).Within dev.Reaches := by
  obtain ⟨b, hb⟩ : ∃ b, b = disk.bpb offset := ⟨_, rfl⟩
  have hspc : b.sectorsPerCluster < 256 := hb ▸ BitVec.isLt _
  have hreserved : b.reservedSectors < 2 ^ 16 := hb ▸ Mem.get16_lt
  have hroots : b.numberOfRootEntries < 2 ^ 16 := hb ▸ Mem.get16_lt
  have hfats : b.numberOfFAT * b.smallSectorsPerFAT ≤ 256 * 2 ^ 16 :=
    Nat.mul_le_mul (hb ▸ (BitVec.isLt _).le) (hb ▸ Mem.get16_lt.le)
  have hfat : (FAT16.new disk offset).fatOffset = b.reservedSectors + offset :=
    hb ▸ wrap_of_lt (by rw [← hb]; omega)
  have hdata : (FAT16.new disk offset).dataOffset =
      b.numberOfFAT * b.smallSectorsPerFAT + offset + (b.numberOfRootEntries + 15) / 16 :=
    hb ▸ wrap_of_lt (by rw [← hb]; omega)
  have hroot : (FAT16.new disk offset).rootOffset = b.numberOfFAT * b.smallSectorsPerFAT + offset :=
    hb ▸ wrap_of_lt (by rw [← hb]; omega)
  have hcluster : (FAT16.new disk offset).sectorsPerCluster = b.sectorsPerCluster := hb ▸ rfl
  refine ⟨fun k hk => reaches_of_lba hata hcap ?_ (by decide),
    fun idx hidx => reaches_of_lba hata hcap ?_ (hcluster ▸ hspc)⟩
  · rw [hfat, wrap_of_lt (by omega)]
    omega
  · have hmul : idx * b.sectorsPerCluster ≤ 2 ^ 16 * 256 := Nat.mul_le_mul hidx.le hspc.le
    rw [FAT16.clusterSector, hcluster]
    split_ifs
    · rw [hroot, wrap_of_lt (by omega)]
      omega
    · rw [hdata, wrap_of_lt (by omega), wrapSub_of_le (by omega) (by omega)]
      omega

/-- What is found on an ATA device that is addressed by sectors, and what comes of any operations on
    the volumes, is what it is on an ideal disk, unless there is a volume where the partition table
    is. -/
theorem ide_refines_disk (hata : dev.type = .ata) (hcap : dev.capabilities &&& 0x200 ≠ 0)
    (hpos : ∀ e ∈ channel.disk.partitions, 0 < e.startLba) (fuel : ℕ)
    (ops : List (Fin (scanDevice channel.disk).length × FileOp)) : ∃ channel',
      FAT16.scanDeviceOn dev.storage channel = (scanDevice channel.disk, channel') ∧
      Option.Rel (Option.Rel (SameOutcome IDEChannel.disk))
        (FileOp.runOn dev.storage (scanDevice channel.disk) fuel ops channel')
        (FileOp.run (scanDevice channel.disk) fuel ops channel.disk) := by
  have hlt : ∀ e ∈ channel.disk.partitions, e.startLba < 2 ^ 32 := fun e he => by
    obtain ⟨i, -, rfl⟩ := List.mem_map.1 (List.mem_filter.1 he).1
    exact Mem.get32_lt
  have hmbr : dev.Reaches 0 1 := reaches_of_lba hata hcap (by decide) (by decide)
  have hboot : ∀ e ∈ channel.disk.partitions, dev.Reaches e.startLba 1 := fun e he =>
    reaches_of_lba hata hcap ((hlt e he).trans (by decide)) (by decide)
  obtain ⟨hfss, hview⟩ := scanDeviceOn_over (implements_storage hata) rfl hmbr hboot
  refine ⟨_, Prod.ext hfss rfl, runOn_rel (implements_storage hata) (fun fs hfs => ?_) fuel ops
    hview⟩
  obtain ⟨e, he, rfl⟩ := List.mem_map.1 hfs
  exact within_of_lba hata hcap _ (hpos e he) (hlt e he)

/-! ### A file -/

/-- A disk with a volume at sector 1, which has a file `A` of ten bytes. -/
def onePartition : Disk := fun x =>
  if x < 512 then
    match x with
    | 450 => 6
    | 454 => 1
    | _ => 0
  else if 82944 ≤ x ∧ x < 82954 then BitVec.ofNat 8 (x - 82943)
  else rootDisk [fileOf 0x41] (x - 512)

theorem partitions_onePartition : onePartition.partitions = [⟨6, 1⟩] := by decide +kernel

theorem scanDevice_onePartition : scanDevice onePartition = [FAT16.new onePartition 1] := by
  rw [scanDevice, partitions_onePartition]
  rfl

theorem open_onePartition : (FAT16.new onePartition 1).open onePartition
    (fun _ => ⟨0, fun _ => 0⟩) 0 [0x41] 5 = some (some ⟨⟨0, 10, 2⟩, [0x41]⟩) := by decide +kernel

theorem exists_read_onePartition : ∃ m, (FAT16.new onePartition 1).read onePartition ⟨0, 10, 2⟩ 0 10
    (fun _ => 0) (fun _ => 0) 5 = some (some m) ∧ m 9 = 10 := by
  have hread : ((FAT16.new onePartition 1).read onePartition ⟨0, 10, 2⟩ 0 10 (fun _ => 0)
      (fun _ => 0) 5).map (Option.map (· 9)) = some (some 10) := by decide +kernel
  obtain ⟨r, hr, hsome⟩ := Option.map_eq_some_iff.1 hread
  obtain ⟨m, rfl, hm⟩ := Option.map_eq_some_iff.1 hsome
  exact ⟨m, hr, hm⟩

/-- It is opened, and its bytes are read. -/
def openAndRead {n : ℕ} (i : Fin n) : List (Fin n × FileOp) :=
  [(i, .open (fun _ => ⟨0, fun _ => 0⟩) 0 [0x41]),
    (i, .read ⟨0, 10, 2⟩ 0 10 (fun _ => 0) (fun _ => 0))]

theorem run_openAndRead {fss : List FAT16} (hfss : fss = [FAT16.new onePartition 1])
    (i : Fin fss.length) : ∃ m, FileOp.run fss 5 (openAndRead i) onePartition =
      some (some ([.opened ⟨⟨0, 10, 2⟩, [0x41]⟩, .read m], onePartition)) ∧ m 9 = 10 := by
  obtain ⟨m, hread, hm⟩ := exists_read_onePartition
  have hget : fss.get i = FAT16.new onePartition 1 := by
    subst hfss
    exact List.mem_singleton.1 (List.get_mem _ i)
  refine ⟨m, ?_, hm⟩
  simp only [openAndRead, FileOp.run, hget, FileOp.exec, open_onePartition, hread, andThen,
    Option.bind_some, Option.elim_some]

/-- The same is read on the device. -/
theorem ide_refines_disk_read :
    ∃ (channel' channel'' : IDEChannel) (i : Fin (scanDevice onePartition).length) (m : Mem),
      FAT16.scanDeviceOn (IDEDevice.storage ⟨0, .ata, 0x200⟩) (IDEChannel.reset onePartition) =
        (scanDevice onePartition, channel') ∧
      FileOp.runOn (IDEDevice.storage ⟨0, .ata, 0x200⟩) (scanDevice onePartition) 5
        (openAndRead i) channel' =
        some (some ([.opened ⟨⟨0, 10, 2⟩, [0x41]⟩, .read m], channel'')) ∧
      m 9 = 10 ∧ channel''.disk = onePartition := by
  have hpos : ∀ e ∈ onePartition.partitions, 0 < e.startLba := by
    rw [partitions_onePartition]
    decide
  have hlength : 0 < (scanDevice onePartition).length := by
    rw [scanDevice_onePartition]
    exact Nat.one_pos
  obtain ⟨m, hrun, hm⟩ := run_openAndRead scanDevice_onePartition ⟨0, hlength⟩
  obtain ⟨channel', hscan, hrel⟩ := @ide_refines_disk ⟨0, .ata, 0x200⟩ (.reset onePartition) rfl
    (by decide) hpos 5 (openAndRead ⟨0, hlength⟩)
  obtain ⟨channel'', hrun', hdisk⟩ := exists_of_rel hrel hrun
  exact ⟨channel', channel'', _, m, hscan, hrun', hm, hdisk⟩

end SmartOS
