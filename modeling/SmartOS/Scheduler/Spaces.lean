import SmartOS.MMU.Layout
import SmartOS.Heap.Heaps
import SmartOS.Scheduler.Run

/-!
# The address spaces of the threads

The kernel has two directories: the one of `initializeMMU`, which every `new Thread` is
given, and the clone of it that `initializeScheduler` makes for the thread it starts with.
`initializeGraphics` maps the framebuffer of the screen in the first one only.

* `initializeGraphics`, `newWindow`: the source, as far as memory is concerned;
* `Spaces` is the system, with the regions of memory that have been handed out; code may
  store in these as it likes;
* `Spaces.Inv` is the invariant: the tables of both directories are laid out among the
  regions (`Laid`), and the threads have the directories that they were given;
* `spaces_of_run`: whatever the threads do, all of them find the memory that the firmware
  describes where it is, and all but the first one the screen.
-/

namespace SmartOS

open Prog

/-! ## The source -/

/-- What `initializeGraphics` reads of `gop->Mode`. -/
structure GraphicsMode where
  frameBufferBase : ℕ
  horizontalResolution : ℕ
  verticalResolution : ℕ
  deriving Repr, DecidableEq

/-- The globals of the graphics code, with the addresses of the framebuffers. -/
structure GraphicsGlobals where
  windows : List ℕ
  graphicsFramebuffer : ℕ
  graphicsSecondary : ℕ
  graphicsWidth : ℕ
  graphicsHeight : ℕ
  cursorInitialized : Bool
  deriving Repr, DecidableEq

/-- `graphicsWidth * graphicsHeight * 4` -/
def GraphicsMode.size (mode : GraphicsMode) : ℕ :=
  wrap (mode.horizontalResolution * mode.verticalResolution * 4)

/-- The pages of the framebuffer, as a block of memory. -/
def GraphicsMode.block (mode : GraphicsMode) : MemoryBlock where
  present := true
  physAddr := mode.frameBufferBase
  numPages := wrap (mode.size + 0xFFF) / 0x1000
  type := 11
  frames := 0

/-- `initializeGraphics(gop)`, up to the thread: the second framebuffer, and the screen mapped. -/
def mapScreen (mode : GraphicsMode) (s : MMU) : ℕ × MMU :=
  let (graphicsSecondary, s) := kmalloc mode.size s
  (graphicsSecondary, map s.kernelDirectory mode.frameBufferBase mode.frameBufferBase
    mode.block.numPages (mmuPresent ||| mmuRW) s)

/-- `initializeGraphics(gop)`. The object of the thread is at `this`; `graphicsUpdate` and `name`
    are the addresses of the function and of the text "GRAPHICS". -/
def initializeGraphics (kill this graphicsUpdate name : ℕ) (mode : GraphicsMode) (s : Scheduler)
    (fuel : ℕ) : Option (GraphicsGlobals × Scheduler) :=
  let (graphicsSecondary, mmu) := mapScreen mode s.mmu
  let s := Thread.new kill this graphicsUpdate name false { s with mmu := mmu }
  (addThread this s fuel).bind fun s => some
    ({ windows := []
       graphicsFramebuffer := mode.frameBufferBase
       graphicsSecondary := graphicsSecondary
       graphicsWidth := mode.horizontalResolution
       graphicsHeight := mode.verticalResolution
       cursorInitialized := false }, s)

/-- The framebuffer of a new window, and the memory that it is white in. -/
def newWindow (w h : ℕ) (s : MMU) : ℕ × MMU :=
  let (framebuffer, s) := kmalloc (wrap (w * h * 4)) s
  (framebuffer, { s with mem := memset s.mem framebuffer 0xFF (wrap (w * h * 4)) })

/-! ## The system -/

/-- What happens. -/
inductive SpaceOp
  | system (op : SystemOp)
  | kmalloc (size : ℕ)
  | kmallocA (size : ℕ)
  | window (w h : ℕ)
  | store
  | graphics (thread : ℕ) (mode : GraphicsMode)
  deriving Repr, DecidableEq

/-- The threads, the regions of memory handed out, and the screens that have been mapped. -/
structure Spaces where
  system : System
  given : List Region
  screens : List GraphicsMode

namespace Spaces

def mmu (s : Spaces) : MMU := s.system.scheduler.mmu

/-- Another state of memory, with what has been handed out in between. -/
def take (s : Spaces) (mmu : MMU) : Spaces :=
  { s with
    system := ⟨{ s.system.scheduler with mmu := mmu }, s.system.waiting⟩
    given := handedOut s.mmu mmu :: s.given }

/-- The memory of the framebuffers of the screens. -/
def Screen (s : Spaces) : Set ℕ := {a | ∃ mode ∈ s.screens, mode.block.covers a}

end Spaces

/-- The memory that the firmware describes. -/
def Described (memoryMap : List MemoryDescriptor) : Set ℕ := {a | ∃ d ∈ memoryMap, d.covers a}

/-- The steps, as long as the bump pointer stays below `2 ^ 52`. Code stores in what it has been
    given, and in memory that the pointer does not hand out. -/
inductive SpaceStep (kill : ℕ) (s : Spaces) : SpaceOp → Spaces → Prop
  | system {op : SystemOp} {t : System} : SystemStep kill s.system op t →
      t.scheduler.mmu.kmallocAddr ≤ 2 ^ 52 →
      SpaceStep kill s (.system op)
        ⟨t, handedOut s.mmu t.scheduler.mmu :: s.given, s.screens⟩
  | kmalloc {size : ℕ} : s.mmu.kmallocAddr + size ≤ 2 ^ 52 →
      SpaceStep kill s (.kmalloc size) (s.take (kmalloc size s.mmu).2)
  | kmallocA {size : ℕ} : pageAlign s.mmu.kmallocAddr + size ≤ 2 ^ 52 →
      SpaceStep kill s (.kmallocA size) (s.take (kmallocA size s.mmu).2)
  | window {w h : ℕ} : (newWindow w h s.mmu).2.kmallocAddr ≤ 2 ^ 52 →
      SpaceStep kill s (.window w h) (s.take (newWindow w h s.mmu).2)
  | store {m : Mem} :
      (∀ x, ¬Writable s.mmu s.mmu.kernelDirectory s.given x → m x = s.mmu.mem x) →
      SpaceStep kill s .store { s with
        system := ⟨{ s.system.scheduler with mmu := { s.mmu with mem := m } }, s.system.waiting⟩ }
  | graphics {this graphicsUpdate name : ℕ} {mode : GraphicsMode} {globals : GraphicsGlobals}
      {s' : Scheduler} : this ≠ 0 →
      ¬Reach s.system.scheduler.next s.system.scheduler.queue this → this ∉ s.system.waiting →
      mode.block.Valid →
      Returns (fun n => initializeGraphics kill this graphicsUpdate name mode s.system.scheduler n)
        (globals, s') → s'.mmu.kmallocAddr ≤ 2 ^ 52 →
      SpaceStep kill s (.graphics this mode)
        ⟨⟨s', s.system.waiting⟩,
          handedOut (mapScreen mode s.mmu).2 s'.mmu ::
            handedOut s.mmu (SmartOS.kmalloc mode.size s.mmu).2 :: s.given,
          mode :: s.screens⟩

/-! ### At the start -/

/-- The first part of `initializeScheduler`: the object and the stack of the first thread. -/
def firstStack (kill : ℕ) (s : MMU) : MMU := (newStack kill (kmalloc 288 s).2).2

/-- The system when `initializeScheduler` has been called, with the regions `given` before. -/
def startSpaces (kill name : ℕ) (given : List Region) (s : Scheduler) : Spaces :=
  let stack := firstStack kill s.mmu
  let s' := initializeScheduler kill name s
  ⟨⟨s', []⟩,
    handedOut (clone stack.kernelDirectory stack).2 s'.mmu :: handedOut s.mmu stack :: given, []⟩

/-- The system when `initializeMMU`, `initializeHeap` and `initializeScheduler` have been called. -/
def bootSpaces (undef : ℕ → BitVec 32) (uninit kernelStart kernelEnd : ℕ)
    (memoryMap : List MemoryDescriptor) (kernelHeap kill name : ℕ) (s : Scheduler) : Spaces :=
  let mmu := initializeMMU undef uninit kernelStart kernelEnd memoryMap s.mmu
  let heap := initializeHeap kernelHeap mmu
  startSpaces kill name [handedOut mmu heap.2] { s with currentHeap := heap.1, mmu := heap.2 }

/-! ## Specification -/

/-- The operation is a call of `schedule`. -/
def SpaceOp.Switches : SpaceOp → Prop
  | .system (.schedule _ _ _ _) => True
  | _ => False

/-- A thread that is queued, or waits to be. -/
def System.HasThread (s : System) (t : ℕ) : Prop :=
  Reach s.scheduler.next s.scheduler.queue t ∨ t ∈ s.waiting

/-- What the threads see after the operations `ops`: the memory described and, all but the first
    thread, the screens, where they are and with all rights of the kernel, and nothing else. The
    directory in use is that of the running thread, from the first call of `schedule` on. What has
    been handed out lies apart from all tables. -/
structure Spaces.Sound (memoryMap : List MemoryDescriptor) (ops : List SpaceOp) (s : Spaces) :
    Prop where
  first : Identity (view s.mmu.mem (s.system.scheduler.threads s.system.scheduler.queue).dir)
    (Described memoryMap)
  others : ∀ t, s.system.HasThread t → t ≠ s.system.scheduler.queue →
    Identity (view s.mmu.mem (s.system.scheduler.threads t).dir) (Described memoryMap ∪ s.Screen)
  running : s.system.HasThread s.system.scheduler.running
  loaded : s.mmu.cr3 = (s.system.scheduler.threads s.system.scheduler.running).dir ∨
    (∀ op ∈ ops, ¬op.Switches) ∧ s.mmu.cr3 = s.mmu.kernelDirectory
  apart : s.given.Pairwise Region.Apart
  tables : ∀ t, s.system.HasThread t → ∀ g ∈ s.given, ∀ p table, IsPath 3 p →
    tableAt s.mmu.mem (s.system.scheduler.threads t).dir p = some table →
    Region.Apart g (table, 0x1000)

/-! ## Memory handed out -/

variable {mmu mmu' : MMU} {kill size w h : ℕ} {v : AddressSpace} {C : Set ℕ}

theorem extends_kmalloc : Extends mmu (kmalloc size mmu).2 :=
  ⟨Nat.le_add_right _ _, fun _ _ => rfl⟩

theorem extends_kmallocA : Extends mmu (kmallocA size mmu).2 :=
  ⟨(pageAlign_spec mmu.kmallocAddr).2.1.trans (Nat.le_add_right _ _), fun _ _ => rfl⟩

theorem extends_newStack (hlim : (newStack kill mmu).2.kmallocAddr ≤ 2 ^ 52) :
    Extends mmu (newStack kill mmu).2 := by
  have hpa := pageAlign_spec mmu.kmallocAddr
  have hlim' : pageAlign mmu.kmallocAddr + 0x1000 ≤ 2 ^ 52 := hlim
  refine ⟨hpa.2.1.trans (Nat.le_add_right _ _), fun x hx => Mem.set64_of_not_mem ?_⟩
  simp only [wrap_of_lt (show pageAlign mmu.kmallocAddr < 2 ^ 64 by omega),
    wrap_of_lt (show pageAlign mmu.kmallocAddr + 0xFF8 < 2 ^ 64 by omega)]
  omega

/-- A heap lies in memory that was not handed out before, with its object. -/
theorem extends_newHeap (hlim : (newHeap mmu).2.kmallocAddr ≤ 2 ^ 52) :
    Extends mmu (newHeap mmu).2 := by
  have hlim' : mmu.kmallocAddr + 16 + 0x10000 ≤ 2 ^ 52 := hlim
  refine ⟨(Nat.le_add_right _ _).trans (Nat.le_add_right _ _), fun x hx => ?_⟩
  have hentry : ¬(mmu.kmallocAddr + 16 ≤ x ∧ x < mmu.kmallocAddr + 16 + 24) := by omega
  simp only [newHeap, Heap.new, kmalloc, wrap_of_lt (show mmu.kmallocAddr < 2 ^ 64 by omega),
    wrap_of_lt (show mmu.kmallocAddr + 16 < 2 ^ 64 by omega)]
  rw [Mem.set64_of_not_mem (by omega), Mem.set64_of_not_mem (by omega),
    setEntryNext_of_not_mem hentry, setEntrySize_of_not_mem hentry,
    setEntryFree_of_not_mem hentry]

theorem extends_newWindow (hlim : (newWindow w h mmu).2.kmallocAddr ≤ 2 ^ 52) :
    Extends mmu (newWindow w h mmu).2 := by
  have hlim' : mmu.kmallocAddr + wrap (w * h * 4) ≤ 2 ^ 52 := hlim
  refine ⟨Nat.le_add_right _ _, fun x hx => ?_⟩
  simp only [newWindow, kmalloc, memset_eq_fill,
    wrap_of_lt (show mmu.kmallocAddr < 2 ^ 64 by omega)]
  exact Mem.fill_of_not_mem (by omega)

/-- The pages of the screen are mapped like those of a block. -/
theorem mapScreen_eq {mode : GraphicsMode} : (mapScreen mode mmu).2 =
    map mmu.kernelDirectory mode.block.physAddr mode.block.physAddr mode.block.numPages
      (mmuPresent ||| mmuRW) (kmalloc mode.size mmu).2 := rfl

/-- What a new thread takes. -/
theorem extends_new {this entry name : ℕ} {user : Bool} {s : Scheduler}
    (hlim : (Thread.new kill this entry name user s).mmu.kmallocAddr ≤ 2 ^ 52) :
    Extends s.mmu (Thread.new kill this entry name user s).mmu := by
  have hheap : Extends (newStack kill s.mmu).2 (newHeap (newStack kill s.mmu).2).2 :=
    extends_newHeap hlim
  exact (extends_newStack (hheap.le.trans hlim)).trans hheap

/-! ## Identity maps -/

theorem Identity.clone (h : Identity v C) : Identity v.clone C where
  flags q e he := by
    rw [AddressSpace.clone] at he
    split_ifs at he
    · exact h.flags q e he
    · obtain ⟨_, -, rfl⟩ := Option.map_eq_some_iff.1 he
      rfl
  tables virt hvirt q hq := by
    rw [AddressSpace.clone_of_length length_virtPath] at hvirt
    rw [AddressSpace.clone, if_neg (AddressSpace.length_of_mem_tablePaths hq), ne_eq,
      Option.map_eq_none_iff]
    exact h.tables virt hvirt q hq
  page page hpage hC := by rw [pages_clone, h.page page hpage hC]
  absent page hpage hC := by rw [pages_clone, h.absent page hpage hC]

/-! ## The invariant -/

/-- The directories lie in memory as they have to, the thread the scheduler starts with has `c`, and
    the others have the kernel's. That one is loaded only if there has `never` been a call of
    `schedule`. -/
structure Spaces.Inv (memoryMap : List MemoryDescriptor) (c : ℕ) (never : Prop) (s : Spaces)
    (l : List ℕ) : Prop where
  queued : s.system.Queued l
  enabled : s.mmu.mmuEnabled = false
  ne : c ≠ s.mmu.kernelDirectory
  laid : ∃ A, Laid s.mmu s.mmu.kernelDirectory [c, s.mmu.kernelDirectory] A s.given ∧
    Identity (A c) (Described memoryMap) ∧
    Identity (A s.mmu.kernelDirectory) (Described memoryMap ∪ s.Screen)
  first : (s.system.scheduler.threads s.system.scheduler.queue).dir = c
  others : ∀ t, t ∈ l ∨ t ∈ s.system.waiting → t ≠ s.system.scheduler.queue →
    (s.system.scheduler.threads t).dir = s.mmu.kernelDirectory
  loaded : s.mmu.cr3 = (s.system.scheduler.threads s.system.scheduler.running).dir ∨
    never ∧ s.mmu.cr3 = s.mmu.kernelDirectory

/-- Of the memory manager, `schedule` only changes the directory in use. -/
theorem schedule_mmu {s s' : Scheduler} {regs out : CPURegisters}
    (hr : Returns (fun n => schedule regs s n) (out, s')) :
    s'.mmu = switchDirectory (s'.threads s'.running).dir s.mmu := by
  obtain ⟨n, hn⟩ := hr.exists_fuel
  simp only [schedule, Option.bind_eq_some_iff, Option.some.injEq] at hn
  obtain ⟨s₁, hfind, hdispatch⟩ := hn
  obtain ⟨-, rfl⟩ := Prod.mk.inj hdispatch
  have hround {t t' : Scheduler} (ht : findThread t = .inl t' ∨ findThread t = .inr t') :
      t'.mmu = t.mmu :=
    findThread_rel (fun t t' => t'.mmu = t.mmu) (fun _ => rfl) (fun _ _ => rfl) (fun _ _ => rfl)
      (fun _ _ _ h h' => h'.trans h) ht
  have hmmu : s₁.mmu = s.mmu :=
    loop_induction (fun t => t.mmu = s.mmu) (Q := fun t => t.mmu = s.mmu)
      (fun _ _ h hbody => (hround (.inl hbody)).trans h)
      (fun _ _ h hbody => (hround (.inr hbody)).trans h) rfl hfind
  rw [← hmmu]

/-- The queue does not depend on memory. -/
theorem System.Queued.memory {s : System} {l : List ℕ} (h : s.Queued l) :
    System.Queued ⟨{ s.scheduler with mmu := mmu }, s.waiting⟩ l :=
  ⟨⟨h.queue.linked, h.queue.running⟩, h.waiting, h.nodup⟩

/-- `initializeGraphics` returns: it makes a thread, and queues it. -/
theorem exists_initializeGraphics {this graphicsUpdate name : ℕ} {mode : GraphicsMode} {s : System}
    {l : List ℕ} (h : s.Queued l) (h0 : this ≠ 0)
    (hqueue : ¬Reach s.scheduler.next s.scheduler.queue this) (hwaiting : this ∉ s.waiting) :
    ∃ globals s', Returns (fun n => initializeGraphics kill this graphicsUpdate name mode
        s.scheduler n) (globals, s') ∧
      Returns (fun n => addThread this (Thread.new kill this graphicsUpdate name false
        { s.scheduler with mmu := (mapScreen mode s.scheduler.mmu).2 }) n) s' ∧
      s'.mmu = (Thread.new kill this graphicsUpdate name false
        { s.scheduler with mmu := (mapScreen mode s.scheduler.mmu).2 }).mmu := by
  have hqueued : System.Queued ⟨Thread.new kill this graphicsUpdate name false
      { s.scheduler with mmu := (mapScreen mode s.scheduler.mmu).2 }, this :: s.waiting⟩ l :=
    h.memory.create h0 hqueue hwaiting
  obtain ⟨s', hadd⟩ := exists_addThread hqueued.queue
  obtain ⟨tail, -, -, hs'⟩ := addThread_spec hqueued.queue hadd
  exact ⟨_, s', hadd.bind (.pure _), hadd, by rw [hs', Scheduler.modify]⟩

namespace Spaces.Inv

variable {memoryMap : List MemoryDescriptor} {c : ℕ} {never never' : Prop} {s : Spaces}
  {l : List ℕ} {g : Region} {given : List Region} {screens : List GraphicsMode} {s' : Scheduler}
  {regs out : CPURegisters} {thread : ℕ}

theorem mono (h : never → never') (hI : s.Inv memoryMap c never l) :
    s.Inv memoryMap c never' l :=
  { hI with loaded := hI.loaded.imp_right fun ⟨hn, hcr3⟩ => ⟨h hn, hcr3⟩ }

/-- Only memory changes, and the regions in it, or the screen. -/
theorem memory (hI : s.Inv memoryMap c never l) (hmmu : OnlyMemory s.mmu mmu)
    (hlaid : ∃ A, Laid mmu s.mmu.kernelDirectory [c, s.mmu.kernelDirectory] A given ∧
      Identity (A c) (Described memoryMap) ∧
      Identity (A s.mmu.kernelDirectory)
        (Described memoryMap ∪ {a | ∃ mode ∈ screens, mode.block.covers a})) :
    Inv memoryMap c never
      ⟨⟨{ s.system.scheduler with mmu := mmu }, s.system.waiting⟩, given, screens⟩ l := by
  obtain ⟨m, k, rfl⟩ := hmmu
  exact
    { queued := hI.queued.memory
      enabled := hI.enabled
      ne := hI.ne
      laid := hlaid
      first := hI.first
      others := hI.others
      loaded := hI.loaded }

/-- Memory that is handed out. -/
theorem take (hI : s.Inv memoryMap c never l) (hmmu : OnlyMemory s.mmu mmu)
    (hs : Extends s.mmu mmu) : (s.take mmu).Inv memoryMap c never l := by
  obtain ⟨A, hA, hspaces⟩ := hI.laid
  exact hI.memory hmmu ⟨A, hA.take hs, hspaces⟩

theorem store {m : Mem} (hI : s.Inv memoryMap c never l)
    (hm : ∀ x, ¬Writable s.mmu s.mmu.kernelDirectory s.given x → m x = s.mmu.mem x) :
    Inv memoryMap c never { s with
      system := ⟨{ s.system.scheduler with mmu := { s.mmu with mem := m } }, s.system.waiting⟩ }
      l := by
  obtain ⟨A, hA, hspaces⟩ := hI.laid
  exact hI.memory ⟨m, s.mmu.kmallocAddr, rfl⟩ ⟨A, hA.store hm, hspaces⟩

/-- The screen is mapped in the kernel's directory. -/
theorem mapScreen {mode : GraphicsMode} (hI : s.Inv memoryMap c never l)
    (hmode : mode.block.Valid) (hlim : (mapScreen mode s.mmu).2.kmallocAddr ≤ 2 ^ 52) :
    Inv memoryMap c never ⟨⟨{ s.system.scheduler with mmu := (SmartOS.mapScreen mode s.mmu).2 },
      s.system.waiting⟩, handedOut s.mmu (SmartOS.kmalloc mode.size s.mmu).2 :: s.given,
      mode :: s.screens⟩ l := by
  obtain ⟨A, hA, hfirst, hothers⟩ := hI.laid
  have honly : OnlyMemory s.mmu (SmartOS.kmalloc mode.size s.mmu).2 := ⟨s.mmu.mem, _, rfl⟩
  have hlaid : Laid (SmartOS.kmalloc mode.size s.mmu).2 s.mmu.kernelDirectory
      [c, s.mmu.kernelDirectory] A
      (handedOut s.mmu (SmartOS.kmalloc mode.size s.mmu).2 :: s.given) := hA.take extends_kmalloc
  have hunion : Described memoryMap ∪ {a | ∃ m ∈ mode :: s.screens, m.block.covers a} =
      Described memoryMap ∪ s.Screen ∪ {a | mode.block.covers a} := by
    ext a
    simp only [Screen, Set.mem_union, Set.mem_ofPred_eq, List.mem_cons, exists_eq_or_imp]
    exact (or_congr_right or_comm).trans or_assoc.symm
  have henabled : (SmartOS.kmalloc mode.size s.mmu).2.mmuEnabled = false := hI.enabled
  rw [mapScreen_eq] at hlim ⊢
  generalize (SmartOS.kmalloc mode.size s.mmu).2 = mmu at *
  refine hI.memory (honly.trans (onlyMemory_map henabled)) ⟨_, hlaid.mapBlock
    (List.mem_cons_of_mem _ (List.mem_singleton_self _)) hmode hlim, ?_, ?_⟩
  · rwa [Function.update_of_ne hI.ne]
  · rw [Function.update_self, hunion]
    exact hothers.mapBlock hmode

/-- A new thread has the directory of the kernel. -/
theorem create {this entry name : ℕ} {user : Bool} (hI : s.Inv memoryMap c never l) (h0 : this ≠ 0)
    (hqueue : ¬Reach s.system.scheduler.next s.system.scheduler.queue this)
    (hwaiting : this ∉ s.system.waiting)
    (hlim : (Thread.new kill this entry name user s.system.scheduler).mmu.kmallocAddr ≤ 2 ^ 52) :
    Inv memoryMap c never
      ⟨⟨Thread.new kill this entry name user s.system.scheduler, this :: s.system.waiting⟩,
        handedOut s.mmu (Thread.new kill this entry name user s.system.scheduler).mmu :: s.given,
        s.screens⟩ l := by
  have hold (t : ℕ) (ht : t ∈ l) :
      (Thread.new kill this entry name user s.system.scheduler).threads t =
        s.system.scheduler.threads t :=
    new_of_ne fun heq => hqueue (heq ▸ hI.queued.queue.linked.reach ht)
  obtain ⟨A, hA, hspaces⟩ := hI.laid
  exact
    { queued := hI.queued.create h0 hqueue hwaiting
      enabled := hI.enabled
      ne := hI.ne
      laid := ⟨A, hA.take (extends_new hlim), hspaces⟩
      first := (congrArg Thread.dir (hold _ hI.queued.queue.linked.head_mem)).trans hI.first
      others := fun t ht hne => by
        by_cases heq : t = this
        · subst heq
          simp only [Thread.new, Function.update_self]
          rfl
        · rw [new_of_ne heq]
          exact hI.others t (ht.imp_right (List.mem_of_ne_of_mem heq)) hne
      loaded := hI.loaded.imp_left fun h =>
        h.trans (congrArg Thread.dir (hold _ hI.queued.queue.running)).symm }

theorem addThread (hI : s.Inv memoryMap c never l) (hmem : thread ∈ s.system.waiting)
    (hr : Returns (fun n => SmartOS.addThread thread s.system.scheduler n) s') :
    Inv memoryMap c never ⟨⟨s', s.system.waiting.erase thread⟩, s.given, s.screens⟩
      (l ++ [thread]) := by
  have hqueued := hI.queued.addThread hmem hr
  obtain ⟨tail, -, -, rfl⟩ := addThread_spec hI.queued.queue hr
  have hdir (t : ℕ) : ((s.system.scheduler.modify tail fun x => { x with next := thread }).threads
      t).dir = (s.system.scheduler.threads t).dir := by
    by_cases heq : t = tail
    · rw [heq, modify_self]
    · rw [modify_of_ne heq]
  exact
    { queued := hqueued
      enabled := hI.enabled
      ne := hI.ne
      laid := hI.laid
      first := (hdir _).trans hI.first
      others := fun t ht hne => by
        refine (hdir t).trans (hI.others t ?_ hne)
        rcases ht with ht | ht
        · refine (List.mem_append.1 ht).imp_right fun ht => ?_
          rwa [List.mem_singleton.1 ht]
        · exact .inr (List.mem_of_mem_erase ht)
      loaded := hI.loaded.imp_left fun h => h.trans (hdir _).symm }

/-- Only flags of threads change. -/
theorem other {threads : ℕ → Thread} (hI : s.Inv memoryMap c never l)
    (hsame : ∀ t, (s.system.scheduler.threads t).SameSaved (threads t)) :
    Inv memoryMap c never ⟨⟨{ s.system.scheduler with threads := threads }, s.system.waiting⟩,
      s.given, s.screens⟩ l where
  queued := hI.queued.other hsame
  enabled := hI.enabled
  ne := hI.ne
  laid := hI.laid
  first := (hsame _).dir.trans hI.first
  others t ht hne := (hsame t).dir.trans (hI.others t ht hne)
  loaded := hI.loaded.imp_left fun h => h.trans (hsame _).dir.symm

/-- The directory of the thread that is found is loaded. -/
theorem schedule (hI : s.Inv memoryMap c never l)
    (hr : Returns (fun n => SmartOS.schedule regs s.system.scheduler n) (out, s')) :
    Inv memoryMap c never' ⟨⟨s', s.system.waiting⟩, s.given, s.screens⟩ l := by
  obtain ⟨hs, hqueue⟩ := schedule_spec hI.queued.queue hr
  have hmmu : s'.mmu = switchDirectory (s'.threads s'.running).dir s.mmu := schedule_mmu hr
  have hdir (t : ℕ) : (s'.threads t).dir = (s.system.scheduler.threads t).dir := by
    refine (hs.threads t).dir.trans ?_
    by_cases heq : t = s.system.scheduler.running
    · rw [heq, modify_self]
    · rw [modify_of_ne heq]
  have hmmu' : (⟨⟨s', s.system.waiting⟩, s.given, s.screens⟩ : Spaces).mmu =
      switchDirectory (s'.threads s'.running).dir s.mmu := hmmu
  exact
    { queued := hI.queued.schedule hs hqueue
      enabled := by rw [hmmu']; exact hI.enabled
      ne := by rw [hmmu']; exact hI.ne
      laid := by
        obtain ⟨A, hA, hspaces⟩ := hI.laid
        rw [hmmu']
        exact ⟨A, ⟨hA.refines.of_eq rfl rfl, hA.within, hA.apart, hA.tables⟩, hspaces⟩
      first := by
        rw [hdir, hs.queue]
        exact hI.first
      others := fun t ht hne => by
        rw [hdir, hmmu']
        exact hI.others t ht (hs.queue ▸ hne)
      loaded := by
        rw [hmmu']
        exact .inl rfl }

/-- Nothing has been handed out since `mmu`. -/
theorem takeNothing (hI : s.Inv memoryMap c never l) (hk : s.mmu.kmallocAddr = mmu.kmallocAddr) :
    Inv memoryMap c never ⟨s.system, handedOut mmu s.mmu :: s.given, s.screens⟩ l := by
  obtain ⟨A, hA, hspaces⟩ := hI.laid
  have htake := hA.take (⟨le_rfl, fun _ _ => rfl⟩ : Extends s.mmu s.mmu)
  rw [handedOut] at htake
  rw [handedOut, ← hk]
  exact { hI with laid := ⟨A, htake, hspaces⟩ }

/-- The screen is mapped, and then the thread of the graphics made and queued. -/
theorem graphics {this graphicsUpdate name : ℕ} {mode : GraphicsMode} {globals : GraphicsGlobals}
    (hI : s.Inv memoryMap c never l) (h0 : this ≠ 0)
    (hqueue : ¬Reach s.system.scheduler.next s.system.scheduler.queue this)
    (hwaiting : this ∉ s.system.waiting) (hmode : mode.block.Valid)
    (hr : Returns (fun n => initializeGraphics kill this graphicsUpdate name mode
      s.system.scheduler n) (globals, s')) (hlim : s'.mmu.kmallocAddr ≤ 2 ^ 52) :
    Inv memoryMap c never
      ⟨⟨s', s.system.waiting⟩, handedOut (SmartOS.mapScreen mode s.mmu).2 s'.mmu ::
        handedOut s.mmu (SmartOS.kmalloc mode.size s.mmu).2 :: s.given, mode :: s.screens⟩
      (l ++ [this]) := by
  obtain ⟨globals', s'', hreturns, hadd, hmmu⟩ :=
    exists_initializeGraphics hI.queued h0 hqueue hwaiting
  obtain ⟨-, rfl⟩ := Prod.mk.inj (hr.unique hreturns)
  rw [hmmu] at hlim ⊢
  have hscreen := hI.mapScreen hmode ((extends_new hlim).le.trans hlim)
  have hfinal := (hscreen.create h0 hqueue hwaiting hlim).addThread List.mem_cons_self hadd
  rwa [List.erase_cons_head] at hfinal

/-- Every step keeps the invariant, but with a call of `schedule` the directory in use changes. -/
theorem step {op : SpaceOp} {t : Spaces} (hI : s.Inv memoryMap c never l)
    (hs : SpaceStep kill s op t) : ∃ l', t.Inv memoryMap c (never ∧ ¬op.Switches) l' := by
  cases hs with
  | @system op t hstep hlim =>
    cases hstep with
    | create h0 hqueue hwaiting =>
      exact ⟨l, (hI.create h0 hqueue hwaiting hlim).mono fun h => ⟨h, id⟩⟩
    | @addThread thread s' hmem hr =>
      have hk : s'.mmu.kmallocAddr = s.mmu.kmallocAddr := by
        obtain ⟨_, -, -, rfl⟩ := addThread_spec hI.queued.queue hr
        rfl
      exact ⟨_, ((hI.addThread hmem hr).takeNothing hk).mono fun h => ⟨h, id⟩⟩
    | @schedule regs out s' hr =>
      have hk : s'.mmu.kmallocAddr = s.mmu.kmallocAddr := by
        rw [schedule_mmu hr]
        rfl
      exact ⟨l, (hI.schedule hr).takeNothing hk⟩
    | other hsame => exact ⟨l, ((hI.other hsame).takeNothing rfl).mono fun h => ⟨h, id⟩⟩
  | kmalloc hlim =>
    exact ⟨l, (hI.take ⟨_, _, rfl⟩ extends_kmalloc).mono fun h => ⟨h, id⟩⟩
  | kmallocA hlim =>
    exact ⟨l, (hI.take ⟨_, _, rfl⟩ extends_kmallocA).mono fun h => ⟨h, id⟩⟩
  | window hlim =>
    exact ⟨l, (hI.take ⟨_, _, rfl⟩ (extends_newWindow hlim)).mono fun h => ⟨h, id⟩⟩
  | store hm => exact ⟨l, (hI.store hm).mono fun h => ⟨h, id⟩⟩
  | graphics h0 hqueue hwaiting hmode hr hlim =>
    exact ⟨_, (hI.graphics h0 hqueue hwaiting hmode hr hlim).mono fun h => ⟨h, id⟩⟩

theorem sound {ops : List SpaceOp} (hI : s.Inv memoryMap c (∀ op ∈ ops, ¬op.Switches) l) :
    s.Sound memoryMap ops := by
  obtain ⟨A, hA, hfirst, hothers⟩ := hI.laid
  have hview {r : ℕ} (hr : r ∈ [c, s.mmu.kernelDirectory]) : view s.mmu.mem r = A r :=
    hA.refines.view_eq r hr
  have hkernel : s.mmu.kernelDirectory ∈ [c, s.mmu.kernelDirectory] :=
    List.mem_cons_of_mem _ (List.mem_singleton_self _)
  have hmem {t : ℕ} (ht : s.system.HasThread t) : t ∈ l ∨ t ∈ s.system.waiting :=
    ht.imp_left hI.queued.queue.linked.mem_of_reach
  -- Every thread has one of the two directories.
  have hdir {t : ℕ} (ht : s.system.HasThread t) :
      (s.system.scheduler.threads t).dir ∈ [c, s.mmu.kernelDirectory] := by
    by_cases heq : t = s.system.scheduler.queue
    · rw [heq, hI.first]
      exact List.mem_cons_self
    · rw [hI.others t (hmem ht) heq]
      exact hkernel
  exact
    { first := by rwa [hI.first, hview List.mem_cons_self]
      others := fun t ht hne => by rwa [hI.others t (hmem ht) hne, hview hkernel]
      running := .inl (hI.queued.queue.linked.reach hI.queued.queue.running)
      loaded := hI.loaded
      apart := hA.apart
      tables := fun t ht g hg p table hp htable =>
        hA.tables g hg table ⟨_, hdir ht, p, hp, htable⟩ }

end Spaces.Inv

/-! ## At the start -/

/-- The kernel's directory, before there is another one. -/
structure KernelOnly (memoryMap : List MemoryDescriptor) (s : MMU) (given : List Region) :
    Prop where
  enabled : s.mmuEnabled = false
  cr3 : s.cr3 = s.kernelDirectory
  laid : ∃ A, Laid s s.kernelDirectory [s.kernelDirectory] A given ∧
    Identity (A s.kernelDirectory) (Described memoryMap)

variable {undef : ℕ → BitVec 32} {uninit kernelStart kernelEnd kernelHeap name : ℕ}
  {memoryMap : List MemoryDescriptor} {given : List Region} {s : Scheduler}

theorem KernelOnly.take (h : KernelOnly memoryMap mmu given) (hmmu : OnlyMemory mmu mmu')
    (hs : Extends mmu mmu') : KernelOnly memoryMap mmu' (handedOut mmu mmu' :: given) := by
  obtain ⟨m, k, rfl⟩ := hmmu
  obtain ⟨A, hA, hspace⟩ := h.laid
  exact ⟨h.enabled, h.cr3, A, hA.take hs, hspace⟩

theorem KernelOnly.store {m : Mem} (h : KernelOnly memoryMap mmu given)
    (hm : ∀ x, ¬Writable mmu mmu.kernelDirectory given x → m x = mmu.mem x) :
    KernelOnly memoryMap { mmu with mem := m } given := by
  obtain ⟨A, hA, hspace⟩ := h.laid
  exact ⟨h.enabled, h.cr3, A, hA.store hm, hspace⟩

theorem kernelOnly_initializeMMU {s : MMU} (hvalid : ∀ d ∈ memoryMap, d.Valid)
    (hruns : runsFrom none memoryMap ≤ 64)
    (hs : mmu = initializeMMU undef uninit kernelStart kernelEnd memoryMap s)
    (hlim : mmu.kmallocAddr ≤ 2 ^ 52) : KernelOnly memoryMap mmu [] := by
  have hinv := inv_initialized (fun d hd => (hvalid d hd).bounded) hs hlim
  exact ⟨hinv.notEnabled, List.mem_singleton.1 hinv.cr3, _,
    .of_refines ⟨hinv.forest, hinv.bound, fun _ _ => rfl⟩,
    identity_initializeMMU hvalid hruns hs hlim⟩

theorem extends_heapNew (hlim : (Heap.new size mmu).2.kmallocAddr ≤ 2 ^ 52) :
    Extends mmu (Heap.new size mmu).2 := by
  have hlim' : mmu.kmallocAddr + size ≤ 2 ^ 52 := hlim
  refine ⟨Nat.le_add_right _ _, fun x hx => ?_⟩
  have hentry : ¬(mmu.kmallocAddr ≤ x ∧ x < mmu.kmallocAddr + 24) := by omega
  simp only [Heap.new, kmalloc, wrap_of_lt (show mmu.kmallocAddr < 2 ^ 64 by omega),
    setEntryNext_of_not_mem hentry, setEntrySize_of_not_mem hentry, setEntryFree_of_not_mem hentry]

/-- A heap whose object is a global of the kernel. -/
theorem KernelOnly.heap {a first n : ℕ} (h : KernelOnly memoryMap mmu given)
    (hobject : a + 16 ≤ mmu.kernelDirectory ∨ (Heap.new size mmu).2.kmallocAddr ≤ a)
    (hlim : (Heap.new size mmu).2.kmallocAddr ≤ 2 ^ 52) :
    KernelOnly memoryMap
      { (Heap.new size mmu).2 with
        mem := ((Heap.new size mmu).2.mem.set64 a first).set64 (a + 8) n }
      (handedOut mmu (Heap.new size mmu).2 :: given) := by
  have hnew : OnlyMemory mmu (Heap.new size mmu).2 := ⟨_, _, rfl⟩
  have hdir : (Heap.new size mmu).2.kernelDirectory = mmu.kernelDirectory := rfl
  refine (h.take hnew (extends_heapNew hlim)).store fun x hx => ?_
  have hout : ¬(a ≤ x ∧ x < a + 16) := fun hin => hx <| .inr <| by
    rcases hobject with hobject | hobject
    · exact .inl (by omega)
    · exact .inr (hobject.trans hin.1)
  rw [Mem.set64_of_not_mem (by omega), Mem.set64_of_not_mem (by omega)]

theorem initializeHeap_eq : (initializeHeap kernelHeap mmu).2 = { (Heap.new 0x10000 mmu).2 with
    mem := ((Heap.new 0x10000 mmu).2.mem.set64 kernelHeap (Heap.new 0x10000 mmu).1.first).set64
      (kernelHeap + 8) (Heap.new 0x10000 mmu).1.size } := rfl

theorem KernelOnly.initializeHeap (h : KernelOnly memoryMap mmu given)
    (hobject : kernelHeap + 16 ≤ mmu.kernelDirectory ∨
      (initializeHeap kernelHeap mmu).2.kmallocAddr ≤ kernelHeap)
    (hlim : (initializeHeap kernelHeap mmu).2.kmallocAddr ≤ 2 ^ 52) :
    KernelOnly memoryMap (initializeHeap kernelHeap mmu).2
      (handedOut mmu (initializeHeap kernelHeap mmu).2 :: given) := by
  have hk : (SmartOS.initializeHeap kernelHeap mmu).2.kmallocAddr =
      (Heap.new 0x10000 mmu).2.kmallocAddr := by rw [initializeHeap_eq]
  have hregion : handedOut mmu (SmartOS.initializeHeap kernelHeap mmu).2 =
      handedOut mmu (Heap.new 0x10000 mmu).2 := by rw [handedOut, handedOut, hk]
  rw [hk] at hobject hlim
  rw [hregion, initializeHeap_eq]
  exact h.heap hobject hlim

theorem extends_firstStack {kill : ℕ} (hlim : (firstStack kill mmu).kmallocAddr ≤ 2 ^ 52) :
    Extends mmu (firstStack kill mmu) :=
  extends_kmalloc.trans (extends_newStack hlim)

theorem onlyMemory_firstStack {kill : ℕ} : OnlyMemory mmu (firstStack kill mmu) := by
  have hthread : OnlyMemory mmu (kmalloc 288 mmu).2 := ⟨mmu.mem, _, rfl⟩
  refine hthread.trans ?_
  rw [firstStack]
  generalize (kmalloc 288 mmu).2 = mmu
  have hstack : OnlyMemory mmu (kmallocA 0x1000 mmu).2 := ⟨mmu.mem, _, rfl⟩
  exact hstack.trans ⟨_, _, rfl⟩

theorem onlyMemory_newHeap : OnlyMemory mmu (newHeap mmu).2 := ⟨_, _, rfl⟩

/-- The thread that the scheduler starts with. -/
theorem initializeScheduler_spec {kill : ℕ} :
    (initializeScheduler kill name s).mmu = (newHeap (clone (firstStack kill s.mmu).kernelDirectory
      (firstStack kill s.mmu)).2).2 ∧
    ((initializeScheduler kill name s).threads (initializeScheduler kill name s).queue).dir =
      (clone (firstStack kill s.mmu).kernelDirectory (firstStack kill s.mmu)).1 := by
  refine ⟨rfl, ?_⟩
  simp only [initializeScheduler, Function.update_self]
  rfl

/-- The pointer only goes up. -/
theorem le_initializeScheduler_kmallocAddr {kill : ℕ} :
    s.mmu.kmallocAddr ≤ (initializeScheduler kill name s).mmu.kmallocAddr := by
  have hstack : s.mmu.kmallocAddr ≤ (firstStack kill s.mmu).kmallocAddr :=
    (Nat.le_add_right _ 288).trans ((pageAlign_spec _).2.1.trans (Nat.le_add_right _ _))
  have hheap {mmu : MMU} : mmu.kmallocAddr ≤ (newHeap mmu).2.kmallocAddr :=
    (Nat.le_add_right _ 16).trans (Nat.le_add_right _ _)
  rw [initializeScheduler_spec.1]
  exact hstack.trans (le_clone_kmallocAddr.trans hheap)

theorem initializeHeap_kmallocAddr :
    (initializeHeap kernelHeap mmu).2.kmallocAddr = mmu.kmallocAddr + 0x10000 := by
  rw [initializeHeap_eq, Heap.new, kmalloc]

/-- The address space of the first thread is cloned, and nothing is mapped in it after that. -/
theorem KernelOnly.inv {kill : ℕ} (h : KernelOnly memoryMap s.mmu given)
    (hlim : (startSpaces kill name given s).mmu.kmallocAddr ≤ 2 ^ 52) :
    ∃ c, (startSpaces kill name given s).Inv memoryMap c True
      [(startSpaces kill name given s).system.scheduler.queue] := by
  simp only [startSpaces, Spaces.mmu] at hlim ⊢
  obtain ⟨hmmu, hfirst⟩ := @initializeScheduler_spec name s kill
  have hqueued := @System.Queued.initializeScheduler kill name s
  generalize initializeScheduler kill name s = t at *
  have hstack := @onlyMemory_firstStack s.mmu kill
  have hextends := @extends_firstStack s.mmu kill
  generalize firstStack kill s.mmu = mmu₂ at *
  have hclone := @onlyMemory_clone mmu₂.kernelDirectory mmu₂
  have hheap := @onlyMemory_newHeap (clone mmu₂.kernelDirectory mmu₂).2
  have hheap' := @extends_newHeap (clone mmu₂.kernelDirectory mmu₂).2
  rw [hmmu] at hlim
  have hextends₃ := hheap' hlim
  have hlim₃ := hextends₃.le.trans hlim
  have hkernel := h.take hstack (hextends (le_clone_kmallocAddr.trans hlim₃))
  obtain ⟨A, hA, hspace⟩ := hkernel.laid
  have hne := (clone_refines hA.refines (List.mem_singleton_self _) hlim₃).1
  have hlaid := (hA.clone (List.mem_singleton_self _) hlim₃).take hextends₃
  generalize clone mmu₂.kernelDirectory mmu₂ = cs at *
  obtain ⟨m, k, hm⟩ := hclone.trans hheap
  rw [← hmmu] at hlaid hm
  have hdir : t.mmu.kernelDirectory = mmu₂.kernelDirectory := by rw [hm]
  rw [← hdir] at hne hlaid hspace
  have hne' : cs.1 ≠ t.mmu.kernelDirectory := fun heq => hne (List.mem_singleton.2 heq)
  have hscreen : Described memoryMap ∪ {a | ∃ m ∈ ([] : List GraphicsMode), m.block.covers a} =
      Described memoryMap := by simp
  have hspaces : Identity (Function.update A cs.1 (A t.mmu.kernelDirectory).clone cs.1)
        (Described memoryMap) ∧
      Identity (Function.update A cs.1 (A t.mmu.kernelDirectory).clone t.mmu.kernelDirectory)
        (Described memoryMap ∪ {a | ∃ m ∈ ([] : List GraphicsMode), m.block.covers a}) := by
    rw [Function.update_self, Function.update_of_ne hne'.symm, hscreen]
    exact ⟨hspace.clone, hspace⟩
  exact ⟨cs.1,
    { queued := hqueued
      enabled := (congrArg MMU.mmuEnabled hm).trans hkernel.enabled
      ne := hne'
      laid := ⟨_, hlaid, hspaces⟩
      first := hfirst
      others := fun t ht hne =>
        absurd (List.mem_singleton.1 (ht.resolve_right List.not_mem_nil)) hne
      loaded := .inr ⟨trivial, (congrArg MMU.cr3 hm).trans (hkernel.cr3.trans hdir.symm)⟩ }⟩

/-! ## Runs -/

variable {kill' : ℕ} {t : Spaces} {ops : List SpaceOp}

/-- When the scheduler has been initialized, the first thread has a clone of the kernel's
    directory. -/
theorem inv_bootSpaces (hvalid : ∀ d ∈ memoryMap, d.Valid) (hruns : runsFrom none memoryMap ≤ 64)
    (hmmu : mmu = initializeMMU undef uninit kernelStart kernelEnd memoryMap s.mmu)
    (hobject : kernelHeap + 16 ≤ mmu.kernelDirectory ∨
      (initializeHeap kernelHeap mmu).2.kmallocAddr ≤ kernelHeap)
    (ht : t = bootSpaces undef uninit kernelStart kernelEnd memoryMap kernelHeap kill' name s)
    (hlim : t.mmu.kmallocAddr ≤ 2 ^ 52) :
    ∃ c, t.Inv memoryMap c True [t.system.scheduler.queue] := by
  have hstart : t = startSpaces kill' name [handedOut mmu (initializeHeap kernelHeap mmu).2]
      { s with
        currentHeap := (initializeHeap kernelHeap mmu).1
        mmu := (initializeHeap kernelHeap mmu).2 } := by rw [ht, hmmu, bootSpaces]
  rw [hstart] at hlim ⊢
  have hheap : (initializeHeap kernelHeap mmu).2.kmallocAddr ≤ 2 ^ 52 :=
    le_initializeScheduler_kmallocAddr.trans hlim
  have hinit : KernelOnly memoryMap mmu [] :=
    kernelOnly_initializeMMU hvalid hruns hmmu
      ((initializeHeap_kmallocAddr ▸ Nat.le_add_right _ _).trans hheap)
  have hkernel := hinit.initializeHeap hobject hheap
  generalize initializeHeap kernelHeap mmu = heap at *
  exact KernelOnly.inv hkernel hlim

/-- In every run after that, every thread finds the memory that the firmware describes where it is,
    and all but the first one the screens, whatever has been stored in what they were given. The
    globals of the kernel are no part of the memory that is handed out. -/
theorem spaces_of_run (hvalid : ∀ d ∈ memoryMap, d.Valid) (hruns : runsFrom none memoryMap ≤ 64)
    (hmmu : mmu = initializeMMU undef uninit kernelStart kernelEnd memoryMap s.mmu)
    (hobject : kernelHeap + 16 ≤ mmu.kernelDirectory ∨
      (initializeHeap kernelHeap mmu).2.kmallocAddr ≤ kernelHeap)
    (hboot : (bootSpaces undef uninit kernelStart kernelEnd memoryMap kernelHeap kill' name
      s).mmu.kmallocAddr ≤ 2 ^ 52)
    (hr : Run (SpaceStep kill') (bootSpaces undef uninit kernelStart kernelEnd memoryMap kernelHeap
      kill' name s) ops t) : t.Sound memoryMap ops := by
  obtain ⟨c, hI⟩ := inv_bootSpaces hvalid hruns hmmu hobject rfl hboot
  obtain ⟨l, hI'⟩ := hr.history
    (fun ops t => ∃ l, t.Inv memoryMap c (∀ op ∈ ops, ¬op.Switches) l)
    ⟨_, hI.mono fun _ => nofun⟩ fun ops t op t' ⟨l, hI⟩ hs => by
      obtain ⟨l', hI'⟩ := hI.step hs
      refine ⟨l', hI'.mono fun ⟨hops, hop⟩ op' hmem => ?_⟩
      rcases List.mem_append.1 hmem with hmem | hmem
      · exact hops op' hmem
      · rwa [List.mem_singleton.1 hmem]
  exact hI'.sound

/-! ### A screen of one pixel -/

/-- What `initializeScheduler` takes at most. -/
theorem startSpaces_kmallocAddr_le {kill : ℕ} :
    (startSpaces kill name given s).mmu.kmallocAddr ≤ s.mmu.kmallocAddr + 2 ^ 41 := by
  have hstack :
      (firstStack kill s.mmu).kmallocAddr = pageAlign (s.mmu.kmallocAddr + 288) + 0x1000 := rfl
  have hpa := pageAlign_spec (s.mmu.kmallocAddr + 288)
  have hclone := @clone_kmallocAddr_le (firstStack kill s.mmu)
    (firstStack kill s.mmu).kernelDirectory
  have hcost : cloneCost 3 + 2 ^ 20 ≤ 2 ^ 41 := by decide
  have hheap : (startSpaces kill name given s).mmu.kmallocAddr = (clone (firstStack kill
      s.mmu).kernelDirectory (firstStack kill s.mmu)).2.kmallocAddr + 16 + 0x10000 := by
    have hmmu : (startSpaces kill name given s).mmu = (newHeap (clone (firstStack kill
      s.mmu).kernelDirectory (firstStack kill s.mmu)).2).2 := initializeScheduler_spec.1
    rw [hmmu]
    rfl
  omega

theorem bootSpaces_kmallocAddr_le {kill : ℕ}
    (hmmu : mmu = initializeMMU undef uninit kernelStart kernelEnd memoryMap s.mmu) :
    (bootSpaces undef uninit kernelStart kernelEnd memoryMap kernelHeap kill name
      s).mmu.kmallocAddr ≤ mmu.kmallocAddr + 0x10000 + 2 ^ 41 := by
  rw [bootSpaces, ← hmmu, ← @initializeHeap_kmallocAddr mmu kernelHeap]
  generalize initializeHeap kernelHeap mmu = heap
  exact startSpaces_kmallocAddr_le

/-- The first of the pixels, at `0x80000000`. -/
def tinyScreen : GraphicsMode := ⟨0x80000000, 1, 1⟩

theorem numPages_tinyScreen : tinyScreen.block.numPages = 1 := by
  have hsize : tinyScreen.size = 4 := wrap_of_lt (by decide)
  simp only [GraphicsMode.block, hsize, wrap_of_lt (show 4 + 0xFFF < 2 ^ 64 by decide)]

theorem valid_tinyScreen : tinyScreen.block.Valid where
  align := by decide
  bound := by
    rw [MemoryBlock.page, numPages_tinyScreen]
    decide

/-- A thread for the graphics takes its stack and its heap, besides what the screen takes. -/
theorem new_tinyScreen_kmallocAddr_le {kill this entry name : ℕ} :
    (Thread.new kill this entry name false
      { s with mmu := (mapScreen tinyScreen s.mmu).2 }).mmu.kmallocAddr ≤
        s.mmu.kmallocAddr + 0x20000 := by
  have hscreen : (mapScreen tinyScreen s.mmu).2.kmallocAddr ≤ s.mmu.kmallocAddr + 4 + 0x6000 := by
    have hsize : tinyScreen.size = 4 := wrap_of_lt (by decide)
    rw [mapScreen_eq, numPages_tinyScreen, map_succ, hsize]
    exact mapPage_kmallocAddr_le
  have hpa := pageAlign_spec (mapScreen tinyScreen s.mmu).2.kmallocAddr
  have hnew : (Thread.new kill this entry name false
      { s with mmu := (mapScreen tinyScreen s.mmu).2 }).mmu.kmallocAddr =
        pageAlign (mapScreen tinyScreen s.mmu).2.kmallocAddr + 0x1000 + 16 + 0x10000 := rfl
  omega

/-- A scheduler not initialized yet, on 16 pages of memory. -/
def sixteenPagesScheduler : Scheduler :=
  ⟨0, 0, 0, 0, 0, fun _ => ⟨0, 0, .zero, false, false, false, 0, 0, 0, 0, 0, 0, 0⟩, oneBlock⟩

theorem spaces_of_run_screen : ∃ t ops, Spaces.Sound sixteenPages ops t ∧
    t.screens = [tinyScreen] := by
  obtain ⟨mmu, hmmu⟩ : ∃ mmu, mmu = initializeMMU (fun _ => 0) 0 0 0 sixteenPages
    sixteenPagesScheduler.mmu := ⟨_, rfl⟩
  have hk : mmu.kmallocAddr ≤ 0x108000 := hmmu ▸ kmallocAddr_sixteenPages
  have hheap := @initializeHeap_kmallocAddr mmu 0x200000
  have hobject : 0x200000 + 16 ≤ mmu.kernelDirectory ∨
      (initializeHeap 0x200000 mmu).2.kmallocAddr ≤ 0x200000 := .inr (by omega)
  have hboot := @bootSpaces_kmallocAddr_le mmu (fun _ => 0) 0 0 0 0x200000 0x200 sixteenPages
    sixteenPagesScheduler 0x100 hmmu
  obtain ⟨t, ht⟩ : ∃ t, t = bootSpaces (fun _ => 0) 0 0 0 sixteenPages 0x200000 0x100 0x200
    sixteenPagesScheduler := ⟨_, rfl⟩
  have hlim : t.mmu.kmallocAddr ≤ 2 ^ 42 := ht ▸ hboot.trans (by omega)
  obtain ⟨c, hI⟩ := inv_bootSpaces valid_sixteenPages (by decide) hmmu hobject ht
    (hlim.trans (by decide))
  have hwaiting : t.system.waiting = [] := by rw [ht, bootSpaces, startSpaces]
  -- The object of the thread lies behind that of the first one.
  have hreach : ¬Reach t.system.scheduler.next t.system.scheduler.queue
      (t.system.scheduler.queue + 1) := fun h => by
    have := List.mem_singleton.1 (hI.queued.queue.linked.mem_of_reach h)
    omega
  have hnot : t.system.scheduler.queue + 1 ∉ t.system.waiting := by
    rw [hwaiting]
    exact List.not_mem_nil
  obtain ⟨globals, s', hreturns, -, hs'⟩ := @exists_initializeGraphics 0x100 _ 0x300 0x400
    tinyScreen _ _ hI.queued (Nat.succ_ne_zero _) hreach hnot
  have hlim' : s'.mmu.kmallocAddr ≤ 2 ^ 52 := by
    rw [hs']
    exact new_tinyScreen_kmallocAddr_le.trans ((Nat.add_le_add_right hlim _).trans (by decide))
  have hstep : SpaceStep 0x100 t (.graphics _ tinyScreen) _ :=
    .graphics (Nat.succ_ne_zero _) hreach hnot valid_tinyScreen hreturns hlim'
  have hscreens : t.screens = [] := by rw [ht, bootSpaces, startSpaces]
  rw [ht] at hlim hstep hscreens
  exact ⟨_, _, spaces_of_run valid_sixteenPages (by decide) hmmu hobject (hlim.trans (by decide))
    (.snoc .nil hstep), congrArg _ hscreens⟩

end SmartOS
