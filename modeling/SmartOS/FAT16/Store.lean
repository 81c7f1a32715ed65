import SmartOS.FAT16.Read
import SmartOS.FAT16.Table
import SmartOS.FAT16.Write
import SmartOS.Lib.Run

/-!
# Files as arrays of bytes

What `File` is for: an open file stands for an array of bytes and a position in it.
`setPosition` moves the position; `read` gives the bytes from there on and `write`
changes them, and neither moves it. Several open files may be of the same stored file,
and see what is written through the others.

The calls on open files are a system that steps from a disk to another (`FileStep`);
the arrays are one that steps alike (`ByteStep`).

* `shows_of_fileStep`: a call that fits does to the disk what it does to the arrays;
* `files_refine`: so does every run of them, on any number of files at once, and
  nothing else on the disk changes: the FATs, directories, files that are not open.

A call *fits* (`FileCall.Fits`) when `read` and `write` do what they have to do:
`SmartOS.FAT16.Read` and `SmartOS.FAT16.Write` say which do.
-/

namespace SmartOS

open Prog

variable {ι κ : Type*}

/-! ## Calls on open files -/

/-- A call on the open file `f`. `m` is the memory that `read` is to change, and `m'` what it leaves
    there. -/
inductive FileCall (ι : Type*)
  | setPosition (f : ι) (position : ℕ)
  | read (f : ι) (dest size : ℕ) (m m' : Mem)
  | write (f : ι) (src : Mem) (size : ℕ)

/-- The disk and the open files of a volume. -/
structure OpenFiles (ι : Type*) where
  disk : Disk
  files : ι → File

section

variable [DecidableEq ι]

/-- A call, which returns whatever the new buffers hold. -/
inductive FileStep (fs : FAT16) (s : OpenFiles ι) : FileCall ι → OpenFiles ι → Prop
  | setPosition {f : ι} {position : ℕ} : FileStep fs s (.setPosition f position)
      { s with files := Function.update s.files f { s.files f with position := position } }
  | read {f : ι} {dest size : ℕ} {m m' : Mem} (buffer : Mem)
      (h : Returns (fun n => fs.read s.disk (s.files f) dest size buffer m n) (some m')) :
      FileStep fs s (.read f dest size m m') s
  | write {f : ι} {src : Mem} {size : ℕ} {disk : Disk} (buffer : Mem)
      (h : Returns (fun n => fs.write (s.files f) src size buffer s.disk n) (some disk)) :
      FileStep fs s (.write f src size) { s with disk := disk }

end

/-- A request of `read` lies in the file and does not start with a cluster other than the first; one
    of `write` lies in the first cluster, and has as many bytes as that has sectors. -/
def FileCall.Fits (fs : FAT16) (s : OpenFiles ι) : FileCall ι → Prop
  | .setPosition _ _ => True
  | .read f _ size _ _ => 1 ≤ size ∧ (s.files f).position + size ≤ (s.files f).size ∧
    ((s.files f).position = 0 ∨ ¬fs.clusterSize ∣ (s.files f).position)
  | .write f _ size => 1 ≤ size ∧ (s.files f).position + size ≤ (s.files f).size ∧
    (s.files f).position + size ≤ fs.clusterSize ∧ fs.sectorsPerCluster ≤ size

/-- A call that fits. -/
def FittingStep [DecidableEq ι] (fs : FAT16) (s : OpenFiles ι) (call : FileCall ι)
    (s' : OpenFiles ι) : Prop := FileStep fs s call s' ∧ call.Fits fs s

/-! ## Arrays of bytes -/

/-- The bytes of the stored files, and the positions of the open ones. -/
structure ByteFiles (ι κ : Type*) where
  bytes : κ → Mem
  position : ι → ℕ

/-- A call on arrays; `which f` is the stored file of the open file `f`. -/
inductive ByteStep [DecidableEq ι] [DecidableEq κ] (which : ι → κ) (t : ByteFiles ι κ) :
    FileCall ι → ByteFiles ι κ → Prop
  | setPosition {f : ι} {position : ℕ} : ByteStep which t (.setPosition f position)
      { t with position := Function.update t.position f position }
  | read {f : ι} {dest size : ℕ} {m : Mem} : ByteStep which t
      (.read f dest size m (m.copy dest (t.bytes (which f)) (t.position f) size)) t
  | write {f : ι} {src : Mem} {size : ℕ} : ByteStep which t (.write f src size)
      { t with
        bytes := Function.update t.bytes (which f)
          ((t.bytes (which f)).copy (t.position f) src 0 size) }

/-! ## How the arrays lie on the disk -/

/-- A volume that was in the boot sector like this has its clusters behind the FATs, where they are
    looked for. -/
structure Disk.Sound (boot : Disk) (offset : ℕ) : Prop where
  fits : boot.Fits offset
  sectorsPerCluster : 1 ≤ (boot.bpb offset).sectorsPerCluster
  numberOfFAT : 1 ≤ (boot.bpb offset).numberOfFAT
  clear : (boot.bpb offset).reservedSectors + 1 ≤
    (boot.bpb offset).rootSectors + 2 * (boot.bpb offset).sectorsPerCluster

/-- The chains of the stored files, which have no cluster in common. -/
structure FileChains (boot : Disk) (offset : ℕ) (chain : κ → ℕ → ℕ) (len : κ → ℕ) (disk : Disk) :
    Prop where
  linked : ∀ k, (FAT16.new boot offset).Chain disk (chain k) (len k)
  data : ∀ k, ∀ i < len k, 2 ≤ chain k i
  indexed : ∀ k, ∀ i < len k, (FAT16.new boot offset).HasIndex (chain k i)
  apart : ∀ k k', k ≠ k' → ∀ i < len k, ∀ j < len k', chain k i ≠ chain k' j

/-- The disk and the open files show the arrays. -/
structure OpenFiles.Shows (boot : Disk) (offset : ℕ) (chain : κ → ℕ → ℕ) (len : κ → ℕ)
    (which : ι → κ) (s : OpenFiles ι) (t : ByteFiles ι κ) : Prop where
  chains : FileChains boot offset chain len s.disk
  cluster : ∀ f, (s.files f).cluster = chain (which f) 0
  size_le : ∀ f, (s.files f).size ≤ len (which f) * (FAT16.new boot offset).clusterSize
  position : ∀ f, (s.files f).position = t.position f
  bytes : ∀ k, ∀ p < len k * (FAT16.new boot offset).clusterSize,
    (FAT16.new boot offset).contents s.disk (chain k) p = t.bytes k p

/-- The FATs are the same on both disks, and so are the clusters of no stored file. -/
structure SameElsewhere (boot : Disk) (offset : ℕ) (chain : κ → ℕ → ℕ) (len : κ → ℕ)
    (disk disk' : Disk) : Prop where
  fat : ∀ x, 512 * (boot.bpb offset).fatStart offset ≤ x →
    x < 512 * (boot.bpb offset).rootStart offset → disk' x = disk x
  clusters : ∀ c, 2 ≤ c → c < 2 ^ 16 → (∀ k, ∀ i < len k, chain k i ≠ c) →
    ∀ j < (FAT16.new boot offset).clusterSize,
      (FAT16.new boot offset).readCluster disk' c (fun _ => 0) j =
        (FAT16.new boot offset).readCluster disk c (fun _ => 0) j

section

variable {boot disk disk' disk'' : Disk} {offset c i : ℕ} {chain : κ → ℕ → ℕ} {len : κ → ℕ}

/-- Clusters are not in the FATs. -/
theorem Disk.Sound.rootStart_le (h : boot.Sound offset) (hc : 2 ≤ c) (hc' : c < 2 ^ 16) :
    (boot.bpb offset).rootStart offset ≤ (FAT16.new boot offset).clusterSector c := by
  have hsector := clusterSector_new h.fits h.sectorsPerCluster hc hc'
  have hmul : 2 * (boot.bpb offset).sectorsPerCluster ≤ c * (boot.bpb offset).sectorsPerCluster :=
    Nat.mul_le_mul_right _ hc
  have hclear := h.clear
  rw [BPB.rootStart, BPB.fatStart]
  omega

/-- The entries of the FAT are in the FATs. -/
theorem Disk.Sound.entryAddress_mem (h : boot.Sound offset)
    (hi : (FAT16.new boot offset).HasIndex i) :
    512 * (boot.bpb offset).fatStart offset ≤ (FAT16.new boot offset).entryAddress i ∧
      (FAT16.new boot offset).entryAddress i + 2 ≤ 512 * (boot.bpb offset).rootStart offset := by
  have hfits := h.fits
  have hindex : i < 256 * (boot.bpb offset).smallSectorsPerFAT := hi.1
  have hmul : (boot.bpb offset).smallSectorsPerFAT ≤
      (boot.bpb offset).numberOfFAT * (boot.bpb offset).smallSectorsPerFAT :=
    Nat.le_mul_of_pos_left _ h.numberOfFAT
  rw [Disk.Fits, BPB.rootStart, BPB.fatStart] at hfits
  have hoffset : (FAT16.new boot offset).fatOffset = (boot.bpb offset).reservedSectors + offset :=
    wrap_of_lt (by omega)
  rw [FAT16.entryAddress, hoffset, wrap_of_lt (by omega), BPB.rootStart, BPB.fatStart]
  omega

theorem SameElsewhere.refl : SameElsewhere boot offset chain len disk disk :=
  ⟨fun _ _ _ => rfl, fun _ _ _ _ _ _ => rfl⟩

theorem SameElsewhere.trans (h : SameElsewhere boot offset chain len disk disk')
    (h' : SameElsewhere boot offset chain len disk' disk'') :
    SameElsewhere boot offset chain len disk disk'' where
  fat x hx hx' := (h'.fat x hx hx').trans (h.fat x hx hx')
  clusters c hc hc' hne j hj := (h'.clusters c hc hc' hne j hj).trans (h.clusters c hc hc' hne j hj)

/-- Where the FATs are the same, so are the chains. -/
theorem FileChains.congr (h : FileChains boot offset chain len disk) (hboot : boot.Sound offset)
    (hsame : SameElsewhere boot offset chain len disk disk') :
    FileChains boot offset chain len disk' := by
  refine ⟨fun k => ⟨fun i hi => ?_, (h.linked k).inj, (h.linked k).lt⟩, h.data, h.indexed, h.apart⟩
  have hindex := h.indexed k i (by omega)
  obtain ⟨hle, hlt⟩ := hboot.entryAddress_mem hindex
  rw [← (h.linked k).next i hi, readFAT_eq hindex.2, readFAT_eq hindex.2]
  exact Mem.get16_congr fun x hx hx' => hsame.fat x (by omega) (by omega)

end

/-! ## What a call does -/

section

variable {boot disk : Disk} {offset : ℕ} {chain : κ → ℕ → ℕ}
  {len : κ → ℕ} {which : ι → κ} {s s' : OpenFiles ι} {t : ByteFiles ι κ} {f : ι} {size : ℕ}
  {src : Mem}

/-- A request of `read` that fits gives the bytes of the array. -/
theorem OpenFiles.Shows.returns_read (h : s.Shows boot offset chain len which t)
    (hboot : boot.Sound offset) {dest : ℕ} {m m' : Mem}
    (hfits : (FileCall.read f dest size m m').Fits (FAT16.new boot offset) s) (buffer : Mem) :
    Returns (fun n => (FAT16.new boot offset).read s.disk (s.files f) dest size buffer m n)
      (some (m.copy dest (t.bytes (which f)) (t.position f) size)) := by
  obtain ⟨hsize, hend, hstart⟩ := hfits
  have hend' := hend.trans (h.size_le f)
  have hpos : 0 < (FAT16.new boot offset).clusterSize :=
    Nat.mul_pos hboot.sectorsPerCluster (by decide)
  have hreturns : Returns (fun n => (FAT16.new boot offset).read s.disk (s.files f) dest size
      buffer m n) (some (m.copy dest ((FAT16.new boot offset).contents s.disk (chain (which f)))
        (s.files f).position size)) :=
    returns_read_of_not_dvd (h.chains.linked (which f)) hpos (h.cluster f) hsize hend' hstart
  have hcopy : m.copy dest ((FAT16.new boot offset).contents s.disk (chain (which f)))
      (s.files f).position size = m.copy dest (t.bytes (which f)) (t.position f) size := by
    rw [h.position] at hend' ⊢
    exact Mem.copy_congr fun i hi => h.bytes _ _ (by omega)
  rwa [hcopy] at hreturns

/-- A request of `write` that fits is written. -/
theorem OpenFiles.Shows.returns_write (h : s.Shows boot offset chain len which t)
    (hboot : boot.Sound offset)
    (hfits : (FileCall.write f src size).Fits (FAT16.new boot offset) s) (buffer : Mem) :
    ∃ disk, Returns (fun n => (FAT16.new boot offset).write (s.files f) src size buffer s.disk n)
        (some disk) ∧
      Written boot offset (chain (which f)) (len (which f)) (t.position f) size src s.disk
        disk := by
  obtain ⟨hsize, hend, hfirst, hspc⟩ := hfits
  have hend' := hend.trans (h.size_le f)
  have hlen : 0 < len (which f) := Nat.pos_of_ne_zero fun h0 => by
    rw [h0, Nat.zero_mul] at hend'
    omega
  have hroot := hboot.rootStart_le (h.chains.data _ 0 hlen) ((h.chains.linked (which f)).lt 0 hlen)
  rw [← h.position]
  have hreturns := SmartOS.returns_write src buffer (h.chains.linked (which f)) hend' hfirst hsize
  rw [Nat.mod_eq_of_lt (h.cluster f ▸ (h.chains.linked (which f)).lt 0 hlen), if_pos hspc]
    at hreturns
  refine ⟨_, hreturns, (written_iff hboot.fits hboot.sectorsPerCluster
    (h.chains.linked (which f)) (h.chains.data (which f)) (h.cluster f) hlen hfirst).2
    fun i _ _ hlt => ?_⟩
  -- The first cluster is not in the FATs.
  rw [firstByte, h.cluster f] at hlt
  omega

/-- What a call of `write` leaves as it is. -/
theorem Written.sameElsewhere {k : κ} {position : ℕ}
    (h : Written boot offset (chain k) (len k) position size src s.disk disk) :
    SameElsewhere boot offset chain len s.disk disk where
  fat := h.fat
  clusters c hc hc' hne j hj := h.others c hc hc' (hne k) j hj

/-- The bytes of the stored files after a call of `write`. -/
theorem Written.contents_eq [DecidableEq κ] {k : κ} {position : ℕ}
    (h : Written boot offset (chain k) (len k) position size src s.disk disk)
    (hchains : FileChains boot offset chain len s.disk) (hboot : boot.Sound offset)
    {bytes : κ → Mem} (hbytes : ∀ k, ∀ p < len k * (FAT16.new boot offset).clusterSize,
      (FAT16.new boot offset).contents s.disk (chain k) p = bytes k p) (k' : κ) {p : ℕ}
    (hp : p < len k' * (FAT16.new boot offset).clusterSize) :
    (FAT16.new boot offset).contents disk (chain k') p =
      Function.update bytes k ((bytes k).copy position src 0 size) k' p := by
  by_cases hk : k' = k
  · subst hk
    rw [Function.update_self]
    by_cases hrequest : position ≤ p ∧ p < position + size
    · obtain ⟨i, rfl⟩ := Nat.exists_eq_add_of_le hrequest.1
      rw [h.request i (by omega), Mem.copy_of_mem hrequest, Nat.zero_add, Nat.add_sub_cancel_left]
    · rw [h.rest p hp hrequest, hbytes k' p hp, Mem.copy_of_not_mem hrequest]
  · -- The cluster of this byte is not one of the file's that is written to.
    have hpos : 0 < (FAT16.new boot offset).clusterSize :=
      Nat.mul_pos hboot.sectorsPerCluster (by decide)
    have hdiv : p / (FAT16.new boot offset).clusterSize < len k' :=
      Nat.div_lt_of_lt_mul (Nat.mul_comm (len k') _ ▸ hp)
    rw [Function.update_of_ne hk, ← hbytes k' p hp]
    exact h.others _ (hchains.data k' _ hdiv) ((hchains.linked k').lt _ hdiv)
      (fun i hi => hchains.apart k k' (Ne.symm hk) i hi _ hdiv) _ (Nat.mod_lt p hpos)

variable [DecidableEq ι]

/-- A call that fits returns. -/
theorem OpenFiles.Shows.progress (h : s.Shows boot offset chain len which t)
    (hboot : boot.Sound offset) :
    (∀ f dest size m, (FileCall.read f dest size m m).Fits (FAT16.new boot offset) s →
      ∃ m', FileStep (FAT16.new boot offset) s (.read f dest size m m') s) ∧
    ∀ f src size, (FileCall.write f src size).Fits (FAT16.new boot offset) s →
      ∃ s', FileStep (FAT16.new boot offset) s (.write f src size) s' := by
  refine ⟨fun f dest size m hfits => ?_, fun f src size hfits => ?_⟩
  · exact ⟨_, .read (fun _ => 0) (h.returns_read hboot hfits fun _ => 0)⟩
  · obtain ⟨disk, hwrite, -⟩ := h.returns_write hboot hfits fun _ => 0
    exact ⟨_, .write (fun _ => 0) hwrite⟩

variable [DecidableEq κ]

/-- A call that fits does to the disk what it does to the arrays. -/
theorem shows_of_fileStep {call : FileCall ι} (h : s.Shows boot offset chain len which t)
    (hboot : boot.Sound offset) (hs : FileStep (FAT16.new boot offset) s call s')
    (hfits : call.Fits (FAT16.new boot offset) s) :
    ∃ t', ByteStep which t call t' ∧ s'.Shows boot offset chain len which t' ∧
      SameElsewhere boot offset chain len s.disk s'.disk := by
  cases hs with
  | @setPosition f position =>
    have hfile (g : ι) : Function.update s.files f { s.files f with position := position } g =
        { s.files g with position := Function.update t.position f position g } := by
      by_cases hg : g = f
      · rw [hg, Function.update_self, Function.update_self]
      · rw [Function.update_of_ne hg, Function.update_of_ne hg, ← h.position g]
    exact ⟨_, .setPosition, ⟨h.chains,
      fun g => (congrArg File.cluster (hfile g)).trans (h.cluster g),
      fun g => (congrArg File.size (hfile g)).trans_le (h.size_le g),
      fun g => congrArg File.position (hfile g), h.bytes⟩, .refl⟩
  | read buffer hreturns =>
    have hread := h.returns_read hboot hfits buffer
    cases hreturns.unique hread
    exact ⟨t, .read, h, .refl⟩
  | @write f src size disk buffer hreturns =>
    obtain ⟨disk', hwrite, hwritten⟩ := h.returns_write hboot hfits buffer
    cases hreturns.unique hwrite
    refine ⟨_, .write, ⟨h.chains.congr hboot hwritten.sameElsewhere, h.cluster, h.size_le,
      h.position, fun k p hp => ?_⟩, hwritten.sameElsewhere⟩
    exact hwritten.contents_eq h.chains hboot h.bytes k hp

/-- Open files are arrays of bytes: a run of calls that fit is one on the arrays, which the disk
shows afterwards. Nothing else on the disk has changed, and every call that fits returns. -/
theorem files_refine {s₀ : OpenFiles ι} {t₀ : ByteFiles ι κ} {calls : List (FileCall ι)}
    (hboot : boot.Sound offset) (h₀ : s₀.Shows boot offset chain len which t₀)
    (hr : Run (FittingStep (FAT16.new boot offset)) s₀ calls s) :
    ∃ t, Run (ByteStep which) t₀ calls t ∧ s.Shows boot offset chain len which t ∧
      SameElsewhere boot offset chain len s₀.disk s.disk ∧
      (∀ f dest size m, (FileCall.read f dest size m m).Fits (FAT16.new boot offset) s →
        ∃ m', FileStep (FAT16.new boot offset) s (.read f dest size m m') s) ∧
      ∀ f src size, (FileCall.write f src size).Fits (FAT16.new boot offset) s →
        ∃ s', FileStep (FAT16.new boot offset) s (.write f src size) s' := by
  obtain ⟨t, hrun, hshows, hsame⟩ := hr.simulation
    (fun s t => s.Shows boot offset chain len which t ∧
      SameElsewhere boot offset chain len s₀.disk s.disk) ⟨h₀, .refl⟩
    (fun s t call s' ⟨h, hsame⟩ ⟨hs, hfits⟩ => by
      obtain ⟨t', ht', h', hsame'⟩ := shows_of_fileStep h hboot hs hfits
      exact ⟨t', ht', h', hsame.trans hsame'⟩)
  exact ⟨t, hrun, hshows, hsame, hshows.progress hboot⟩

end

/-- Two open files of the stored file in two clusters. -/
def twoHandles : OpenFiles (Fin 2) := ⟨twoInARow, fun _ => ⟨0, 1024, 2⟩⟩

theorem sound_bootSector : (bootSector 1).Sound 0 := by
  refine ⟨bootSector_fits.1, ?_, ?_, ?_⟩ <;> rw [bootSector_bpb.1] <;> decide

theorem shows_twoHandles : twoHandles.Shows (bootSector 1) 0 (fun (_ : Unit) i => i + 2)
    (fun _ => 2) (fun _ => ())
    ⟨fun _ => (FAT16.new (bootSector 1) 0).contents twoInARow (· + 2), fun _ => 0⟩ where
  chains :=
    { linked := fun _ => chain_twoInARow
      data := fun _ i _ => Nat.le_add_left 2 i
      indexed := fun _ i hi => ⟨by rw [sectorsPerFAT_bootSector]; omega, by omega⟩
      apart := fun _ _ hne => absurd rfl hne }
  cluster _ := rfl
  size_le _ := by rw [clusterSize_bootSector]; rfl
  position _ := rfl
  bytes _ _ _ := rfl

/-- What is written through one of them is read through the other. -/
theorem files_refine_twoHandles : ∃ s m', Run (FittingStep (FAT16.new (bootSector 1) 0)) twoHandles
    [.write 0 (fun _ => 7) 10, .read 1 0 10 (fun _ => 0) m'] s ∧ m' 9 = 7 := by
  have hspc : (FAT16.new (bootSector 1) 0).sectorsPerCluster = 1 := by decide
  have hwriteFits : (FileCall.write (0 : Fin 2) (fun _ => 7) 10).Fits
      (FAT16.new (bootSector 1) 0) twoHandles :=
    ⟨by decide, by decide, by rw [clusterSize_bootSector]; decide, by rw [hspc]; decide⟩
  obtain ⟨s, hwrite⟩ := (shows_twoHandles.progress sound_bootSector).2 _ _ _ hwriteFits
  have hfiles : s.files = twoHandles.files := by cases hwrite; rfl
  have hreadFits : (FileCall.read (1 : Fin 2) 0 10 (fun _ => 0) (fun _ => 0)).Fits
      (FAT16.new (bootSector 1) 0) s := by
    refine ⟨by decide, ?_, .inl ?_⟩ <;> rw [hfiles] <;> decide
  have hrun : Run (FittingStep (FAT16.new (bootSector 1) 0)) twoHandles
    ([] ++ [.write 0 (fun _ => 7) 10]) s := .snoc .nil ⟨hwrite, hwriteFits⟩
  obtain ⟨t, hrun', -, -, hread, -⟩ := files_refine sound_bootSector shows_twoHandles hrun
  obtain ⟨m', hread⟩ := hread _ _ _ _ hreadFits
  have hall := hrun.snoc ⟨hread, hreadFits⟩
  obtain ⟨t', hall', -⟩ := files_refine sound_bootSector shows_twoHandles hall
  refine ⟨s, m', hall, ?_⟩
  obtain ⟨t₁, ht₁, ht'⟩ := hall'.exists_first
  cases ht₁
  cases ht'.step_of_singleton
  rfl

end SmartOS
