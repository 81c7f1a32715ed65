import SmartOS.Boot.Basic

/-!
# The statuses that the boot loader sees

A call that fails should be the last thing the loader does before it panics, so
that the kernel only starts when every call succeeded (`FailsClosed`). Every status
is looked at (`check`), except that of `ExitBootServices`.

* `prepare_makes`: the calls before that one, in order (`Firmware.calls`);
* `failsClosed_iff`: the kernel only starts after success when `ExitBootServices`
  succeeds, or is not called.
-/

namespace SmartOS

open Prog Caller

variable {fw : Firmware} {uninit : ℕ} {status : BootCall → ℕ} {c : BootCall} {n i : ℕ}

/-- A status that is an error. -/
abbrev Fails (status : ℕ) : Prop := status ≠ 0

/-- The kernel only starts when every call has succeeded: a call that fails is the last one, and the
    loader panics with its status. -/
structure FailsClosed (status : BootCall → ℕ) (p : Loader KernelStart) : Prop where
  starts : ∀ start, (p.run status).2 = .ok start → ∀ c ∈ (p.run status).1, status c = 0
  stops : p.Stops Fails id status

/-! ## Calls that are checked -/

theorem checked_check : (check c).Checked Fails id := by
  intro status
  refine ⟨fun h => if_pos h, fun h => ?_⟩
  dsimp only
  rw [if_neg h]
  exact trivial

theorem check_makes (c : BootCall) : (check c).Makes Fails status [c] True () where
  ok h _ := by simp [check, run, not_not.1 (h c (List.mem_singleton_self c))]
  error h := by
    have hc : status c ≠ 0 := by simpa using h
    exact ⟨[c], status c, by simp [check, run, hc]⟩

/-- A call that is checked, and the rest. -/
theorem check_bind_makes {α : Type} {f : Unit → Loader α} {calls : List BootCall} {good : Prop}
    {a : α} (c : BootCall) (hf : (f ()).Makes Fails status calls good a) :
    ((check c).bind f).Makes Fails status (c :: calls) good a :=
  true_and good ▸ (check_makes c).bind hf

/-! ## The parts of the loader -/

/-- The calls of `searchModes`. -/
def Firmware.modeCalls (fw : Firmware) : ℕ → ℕ → List BootCall
  | 0, _ => []
  | n + 1, i =>
    .queryMode i :: if fw.modeInfo i = (targetWidth, targetHeight) then [.setMode i]
      else fw.modeCalls n (i + 1)

theorem checked_searchModes : (searchModes fw n i).Checked Fails id := by
  induction n generalizing i with
  | zero => exact trivial
  | succ n ih =>
    refine checked_check.bind fun _ => ?_
    split_ifs
    · exact checked_check
    · exact ih

theorem searchModes_makes :
    (searchModes fw n i).Makes Fails status (fw.modeCalls n i) True () := by
  induction n generalizing i with
  | zero => exact makes_done ()
  | succ n ih =>
    rw [searchModes, Firmware.modeCalls]
    split_ifs
    · exact check_bind_makes _ (check_makes _)
    · exact check_bind_makes _ ih

/-- The memory with the kernel's file in it. -/
def Firmware.kernelMem (fw : Firmware) : Mem :=
  fw.mem.copy (fw.allocatePool fw.kernelSize) fw.kernel 0 fw.kernelSize

/-- Where the segments of the kernel end, and where they start. -/
def Firmware.range (fw : Firmware) : ℕ × ℕ :=
  segmentRange fw.kernelMem (fw.allocatePool fw.kernelSize)
    (wrap (fw.allocatePool fw.kernelSize + elfPhoff fw.kernelMem (fw.allocatePool fw.kernelSize)))

/-- `AllocatePages` allocates the pages that it is asked for. -/
def Firmware.Allocates (fw : Firmware) : Prop :=
  fw.allocatePages (kernelPages fw.range) fw.range.2 = fw.range.2

/-- The calls before `ExitBootServices`, when they all succeed. -/
def Firmware.calls (fw : Firmware) : List BootCall :=
  [.setWatchdogTimer, .handleProtocol .loadedImage, .handleProtocol .simpleFileSystem, .openVolume,
    .openFile, .read, .close, .allocatePages (kernelPages fw.range) fw.range.2, .locateProtocol] ++
    fw.modeCalls fw.maxMode 0

theorem checked_loadKernel : (loadKernel fw).Checked Fails id := by
  refine Checked.bind (checked_check.bind fun _ => checked_check.bind fun _ => checked_check)
    fun _ => ?_
  refine checked_check.bind fun _ => checked_check.bind fun _ => checked_check.bind fun _ =>
    checked_check.bind fun _ => ?_
  split_ifs <;> exact trivial

theorem checked_prepare (uninit : ℕ) (fw : Firmware) : (prepare uninit fw).Checked Fails id :=
  checked_check.bind fun _ => checked_loadKernel.bind fun _ => checked_check.bind fun _ =>
    checked_searchModes.bind fun _ => trivial

theorem getVolume_makes : getVolume.Makes Fails status
    [.handleProtocol .loadedImage, .handleProtocol .simpleFileSystem, .openVolume] True () :=
  check_bind_makes _ (check_bind_makes _ (check_makes _))

/-- What the kernel is loaded to. -/
def Firmware.loaded (fw : Firmware) : ℕ × Mem :=
  let mem := loadSegments (fw.allocatePool fw.kernelSize)
    (wrap (fw.allocatePool fw.kernelSize + elfPhoff fw.kernelMem (fw.allocatePool fw.kernelSize)))
    (2 ^ 16) 0 fw.kernelMem
  (elfEntry mem (fw.allocatePool fw.kernelSize), mem)

theorem loadKernel_makes : (loadKernel fw).Makes Fails status
    [.handleProtocol .loadedImage, .handleProtocol .simpleFileSystem, .openVolume, .openFile, .read,
      .close, .allocatePages (kernelPages fw.range) fw.range.2] fw.Allocates fw.loaded := by
  refine true_and fw.Allocates ▸ getVolume_makes.bind ?_
  refine check_bind_makes _ (check_bind_makes _ (check_bind_makes _ (check_bind_makes _ ?_)))
  exact makes_ite _ _

/-- What the kernel is called with. -/
def Firmware.start (uninit : ℕ) (fw : Firmware) : KernelStart :=
  ⟨fw.loaded.1, bootData uninit fw, fw.loaded.2⟩

/-- The loader up to `ExitBootServices`. -/
theorem prepare_makes (uninit : ℕ) (fw : Firmware) (status : BootCall → ℕ) :
    (prepare uninit fw).Makes Fails status fw.calls fw.Allocates (fw.start uninit) := by
  have hmakes : (prepare uninit fw).Makes Fails status (_ :: (_ ++ _ :: (_ ++ [])))
      (fw.Allocates ∧ True ∧ True) (fw.start uninit) :=
    check_bind_makes _ (loadKernel_makes.bind
      (check_bind_makes _ (searchModes_makes.bind (makes_done _))))
  rw [and_true, and_true, List.append_nil] at hmakes
  exact hmakes

/-! ## When the kernel starts -/

/-- The loader fails closed when `ExitBootServices`, whose status it does not look at, succeeds or
    is not called. -/
theorem failsClosed_iff : FailsClosed status (efiMain uninit fw) ↔
    status (.exitBootServices fw.mapKey) = 0 ∨ (∃ c ∈ fw.calls, status c ≠ 0) ∨ ¬fw.Allocates := by
  have hmakes := prepare_makes uninit fw status
  by_cases hall : (∀ c ∈ fw.calls, ¬Fails (status c)) ∧ fw.Allocates
  · -- `ExitBootServices` is called last, and then the kernel.
    have hrun : (efiMain uninit fw).run status =
        (fw.calls ++ [.exitBootServices fw.mapKey], .ok (fw.start uninit)) :=
      run_bind_of_ok (hmakes.ok hall.1 hall.2)
    have hexit : (∃ c ∈ fw.calls, status c ≠ 0) ∨ ¬fw.Allocates → False := by
      rintro (⟨c, hc, hfails⟩ | hnot)
      · exact hall.1 c hc hfails
      · exact hnot hall.2
    rw [or_iff_left hexit]
    constructor
    · exact fun h => h.starts _ (by rw [hrun]) _ (by rw [hrun]; simp)
    · intro h
      have hgood : ∀ c ∈ ((efiMain uninit fw).run status).1, status c = 0 := by
        rw [hrun, List.forall_mem_append, List.forall_mem_singleton]
        exact ⟨fun c hc => not_not.1 (hall.1 c hc), h⟩
      exact ⟨fun _ _ => hgood, fun before c after heq hfails =>
        absurd (hgood c (by simp [heq])) hfails⟩
  · -- The kernel is not called.
    obtain ⟨calls, e, hprepare⟩ := hmakes.error hall
    have hrun : (efiMain uninit fw).run status = (calls, .error e) := run_bind_of_error hprepare
    have hstops : (prepare uninit fw).Stops Fails id status := (checked_prepare uninit fw).run
    rw [Stops, hprepare] at hstops
    refine iff_of_true ⟨fun start h => ?_, ?_⟩ (.inr ?_)
    · rw [hrun] at h
      cases h
    · rw [Stops, hrun]
      exact hstops
    · exact (not_and_or.1 hall).imp_left fun h => by simpa using h

/-- Firmware with an empty file for the kernel, and without graphics modes. -/
def emptyFirmware : Firmware where
  mem := fun _ => 0
  kernel := fun _ => 0
  kernelSize := 0
  allocatePool := fun _ => 0
  allocatePages := fun _ lowest => lowest
  configurationTable := []
  gop := 0
  maxMode := 0
  modeInfo := fun _ => (0, 0)
  memoryMap := 0
  numEntries := 0
  mapKey := 0
  descriptorSize := 0

/-- The statuses when the memory map has changed: `ExitBootServices` returns
    `EFI_INVALID_PARAMETER`. -/
def staleMapKey : BootCall → ℕ
  | .exitBootServices _ => 0x8000000000000002
  | _ => 0

/-- The kernel starts all the same. -/
theorem not_failsClosed : ¬∀ (status : BootCall → ℕ) (uninit : ℕ) (fw : Firmware),
    FailsClosed status (efiMain uninit fw) := by
  intro h
  have hgood : ∀ c ∈ emptyFirmware.calls, ¬Fails (staleMapKey c) := by
    have hmodes : emptyFirmware.modeCalls emptyFirmware.maxMode 0 = [] := rfl
    simp [Firmware.calls, hmodes, staleMapKey]
  have hrun : (efiMain 0 emptyFirmware).run staleMapKey =
      (emptyFirmware.calls ++ [.exitBootServices 0], .ok (emptyFirmware.start 0)) :=
    run_bind_of_ok ((prepare_makes 0 emptyFirmware staleMapKey).ok hgood rfl)
  have hexit := (h staleMapKey 0 emptyFirmware).starts _ (by rw [hrun]) (.exitBootServices 0)
    (by rw [hrun]; simp)
  exact absurd hexit (by decide)

end SmartOS
