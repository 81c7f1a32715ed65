import SmartOS.IDE.Identify
import SmartOS.PCI.Basic

/-!
# Finding the storage devices

What the kernel does between `initializePCI` and the file systems: it goes through
`pciDevices` for IDE controllers, makes a driver for each, which asks the four drives
of its two channels to identify themselves and registers those that are there, and
then it scans the registered devices that have a size. `initializePCI` only goes to
slot 15 of a bus, so a controller in a higher slot is not found, nor are its drives.

A controller says in its configuration space where its channels are; where it says
nothing, they are where they have always been. The buses are known by the port that
their registers begin at, so two controllers may talk to the same.

* `IDEDriver.returns_new`: what one controller registers;
* `storageDevices_of_boot`: what is registered and scanned in the end, as one list
  (`drivesFound`), made of what the configuration space says and of what each drive
  identifies as.

The control registers, which only turn interrupts off, and the lists of drivers and
of the devices of each, which nothing reads, are left out.
-/

namespace SmartOS

open Prog

/-! ## The drivers -/

/-- Where a channel has its registers. -/
structure ChannelPorts where
  base : BitVec 16
  control : BitVec 16
  busMaster : BitVec 16
  deriving Repr, DecidableEq

/-- A device and the channel that it is on. -/
structure RegisteredDevice extends IdentifiedDevice where
  channel : ChannelPorts

structure IDEDriver where
  pciDevice : PCIDevice
  channels : List ChannelPorts
  deriving Repr, DecidableEq

/-- What the search for storage devices changes. -/
structure StorageState where
  /-- The buses, by the port that their registers begin at. -/
  buses : BitVec 16 → Bus
  nodes : Nodes RegisteredDevice
  storageDevices : Vector RegisteredDevice
  /-- How many nodes, and how many devices, have been allocated. -/
  allocated : ℕ
  constructed : ℕ
  ideDriver : Option IDEDriver
  /-- The devices that have been scanned. -/
  scanned : List RegisteredDevice

section

variable (addrs : ℕ → ℕ) (old : ℕ → IdentifiedDevice) (cfg : ConfigSpace) (n : ℕ)

/-- A register of the configuration space, or the port that is used in its place. -/
def PCIDevice.barOr (dev : PCIDevice) (bar : ℕ) (port : BitVec 32) : BitVec 32 :=
  if dev.getBar cfg bar = 0 then port else dev.getBar cfg bar

/-- The channels of a controller. -/
def PCIDevice.channels (dev : PCIDevice) : List ChannelPorts :=
  let bar0 := dev.barOr cfg 0 0x1F0
  let bar1 := dev.barOr cfg 1 0x3F6
  let bar2 := dev.barOr cfg 2 0x170
  let bar3 := dev.barOr cfg 3 0x376
  let bar4 := dev.getBar cfg 4
  [⟨bar0.setWidth 16, bar1.setWidth 16, bar4.setWidth 16⟩,
    ⟨bar2.setWidth 16, bar3.setWidth 16, (bar4 + 8).setWidth 16⟩]

def registerStorageDevice (device : RegisteredDevice) (s : StorageState) :
    Option (Option StorageState) :=
  andThen (s.storageDevices.push s.nodes device (addrs s.allocated) n) fun (nodes, v) =>
    some (some { s with nodes := nodes, storageDevices := v, allocated := s.allocated + 1 })

/-- One more device has been constructed, which has left its bus like this. -/
def StorageState.asked (s : StorageState) (base : BitVec 16) (bus : Bus) : StorageState :=
  { s with buses := Function.update s.buses base bus, constructed := s.constructed + 1 }

/-- A round of the loops over the channels and the drives. -/
def IDEDriver.probe (channel : ChannelPorts) (j : Fin 2) (s : StorageState) :
    Option (Option StorageState) :=
  andThen ((IDEDevice.new j (old s.constructed) (s.buses channel.base) n).map some)
    fun (device, bus) =>
      let s := s.asked channel.base bus
      if device.present then registerStorageDevice addrs n ⟨device, channel⟩ s else some (some s)

/-- `IDEDriver(dev)`, which is kept in `ideDriver`. -/
def IDEDriver.new (dev : PCIDevice) (s : StorageState) : Option (Option StorageState) :=
  andThen (forEach (fun channel => forEach (IDEDriver.probe addrs old n channel)
    (List.finRange 2)) (dev.channels cfg) s) fun s =>
      some (some { s with ideDriver := some ⟨dev, dev.channels cfg⟩ })

/-- A round of the loop over `pciDevices`. -/
def checkDevice (dev : PCIDevice) (s : StorageState) : Option (Option StorageState) :=
  if dev.getClass cfg = 1 ∧ dev.getSubclass cfg = 1 then IDEDriver.new addrs old cfg n dev s
  else some (some s)

/-- A round of the loop over `storageDevices`. -/
def checkStorage (device : RegisteredDevice) (s : StorageState) : Option (Option StorageState) :=
  if device.getSize ≠ 0 then some (some { s with scanned := s.scanned ++ [device] })
  else some (some s)

/-- From `initializePCI` to the last device that is scanned. -/
def findStorage (pciAddrs : ℕ → ℕ) (pciNodes : Nodes PCIDevice) (s : StorageState) :
    Option (Option StorageState) :=
  andThen (initializePCI cfg pciAddrs n pciNodes) fun pci =>
    andThen (forEach (fun i s => andThen (some (pci.pciDevices.get pci.nodes i)) fun dev =>
      checkDevice addrs old cfg n dev s) (List.range pci.pciDevices.size) s) fun s =>
        forEach (fun i s' => andThen (some (s.storageDevices.get s.nodes i)) fun device =>
          checkStorage device s') (List.range s.storageDevices.size) s

end

/-! ## What is found -/

namespace PCIDevice

variable (dev : PCIDevice) (cfg : ConfigSpace)

/-- A register of the device in the configuration space. -/
def register (r : BitVec 6) : BitVec 32 := cfg dev.bus (dev.slot.setWidth 5) (dev.func.setWidth 3) r

/-- An IDE controller: a mass storage device of that kind. -/
abbrev IsIDE : Prop := (dev.register cfg 2).extractLsb' 16 16 = 0x0101

/-- Where a channel begins: where a register says, or at a port of its own. -/
def basePort (r : BitVec 6) (port : BitVec 16) : BitVec 16 :=
  let bar := dev.register cfg r &&& 0xFFFFFFFC
  if bar = 0 then port else bar.setWidth 16

/-- The places of the four drives of a controller. -/
def drives : List (BitVec 16 × Fin 2) :=
  [dev.basePort cfg 4 0x1F0, dev.basePort cfg 6 0x170].flatMap fun base =>
    (List.finRange 2).map fun j => (base, j)

end PCIDevice

/-- A drive that is there: its place, its kind and the block that describes it. -/
structure FoundDrive where
  base : BitVec 16
  drive : Fin 2
  type : DeviceType
  block : Mem

/-- What the drive at a place is, when each identifies as `outcome` says. -/
def foundAt (outcome : BitVec 16 → Fin 2 → Option (DeviceType × Mem)) (p : BitVec 16 × Fin 2) :
    Option FoundDrive :=
  (outcome p.1 p.2).map fun found => ⟨p.1, p.2, found.1, found.2⟩

/-- The IDE controllers in the slots below `n` of each bus, in the order of the bus. -/
def ideControllersBelow (cfg : ConfigSpace) (n : ℕ) : List PCIDevice :=
  (devicesBelow cfg n).filter fun dev => dev.IsIDE cfg

/-- The drives of all controllers in the slots 0 to 15, where `initializePCI` looks. -/
def drivesFound (cfg : ConfigSpace)
    (outcome : BitVec 16 → Fin 2 → Option (DeviceType × Mem)) : List FoundDrive :=
  ((ideControllersBelow cfg 16).flatMap fun dev => dev.drives cfg).filterMap (foundAt outcome)

/-- The device is the drive: it talks to its place, and says what it has to say. -/
def FoundDrive.Shown (d : FoundDrive) (device : RegisteredDevice) : Prop :=
  device.channel.base = d.base ∧
    IDEDevice.Finds d.drive (some (d.type, d.block)) device.toIdentifiedDevice

/-- `new` gives addresses, one after another, that are free, as often as `limit` times. -/
structure Supplies {T : Type*} (addrs : ℕ → ℕ) (nodes : Nodes T) (limit : ℕ) : Prop where
  ne_zero : ∀ k < limit, addrs k ≠ 0
  lt : ∀ k < limit, addrs k < 2 ^ 64
  free : ∀ k < limit, nodes (addrs k) = none
  ne : ∀ j k, j < k → k < limit → addrs j ≠ addrs k

/-- The registered devices are these drives, and the drives on the buses are what they were. -/
structure StorageState.Holds (addrs : ℕ → ℕ) (limit : ℕ) (buses : BitVec 16 → Bus)
    (found : List FoundDrive) (s : StorageState) : Prop where
  represents : ∃ xs l, s.storageDevices.Represents s.nodes xs l ∧
    List.Forall₂ FoundDrive.Shown found xs
  free : ∀ k, s.allocated ≤ k → k < limit → s.nodes (addrs k) = none
  allocated_le : s.allocated ≤ s.constructed
  drives : ∀ b, (s.buses b).drives = (buses b).drives
  scanned : s.scanned = []

section

variable {addrs : ℕ → ℕ} {limit : ℕ} {nodes : Nodes RegisteredDevice} {buses : BitVec 16 → Bus}
  {found : List FoundDrive} {s : StorageState}
  {outcome : BitVec 16 → Fin 2 → Option (DeviceType × Mem)} {cfg : ConfigSpace}

/-- A device registered. -/
theorem returns_registerStorageDevice (hsupply : Supplies addrs nodes limit)
    (h : s.Holds addrs limit buses found) (hs : s.allocated < s.constructed)
    (hlimit : s.allocated < limit) (d : FoundDrive) (device : RegisteredDevice)
    (hd : d.Shown device) :
    ∃ s', Returns (fun n => registerStorageDevice addrs n device s) (some s') ∧
      s'.Holds addrs limit buses (found ++ [d]) ∧ s'.constructed = s.constructed ∧
      s'.ideDriver = s.ideDriver := by
  obtain ⟨xs, l, hrep, hshown⟩ := h.represents
  obtain ⟨nodes', v', hpush, hv', hfree⟩ := Vector.represents_push hrep device
    (hsupply.ne_zero _ hlimit) (hsupply.lt _ hlimit) (h.free _ le_rfl hlimit)
  refine ⟨{ s with nodes := nodes', storageDevices := v', allocated := s.allocated + 1 },
    hpush.andThen (.pure _), ⟨⟨_, _, hv', ?_⟩, ?_, hs, h.drives, h.scanned⟩, rfl, rfl⟩
  · exact List.rel_append hshown (.cons hd .nil)
  · exact fun k hle hlt =>
      hfree _ (hsupply.ne _ _ hle hlt).symm (h.free k (Nat.le_of_succ_le hle) hlt)

/-- Asking a drive changes no drive. -/
theorem StorageState.Holds.asked (h : s.Holds addrs limit buses found) {base : BitVec 16}
    {bus : Bus} (hbus : bus.drives = (buses base).drives) :
    (s.asked base bus).Holds addrs limit buses found where
  represents := h.represents
  free := h.free
  allocated_le := Nat.le_succ_of_le h.allocated_le
  drives b := by
    show (Function.update s.buses base bus b).drives = _
    by_cases hb : b = base
    · rw [hb, Function.update_self, hbus]
    · rw [Function.update_of_ne hb, h.drives]
  scanned := h.scanned

/-- A drive asked, and registered when it is there. -/
theorem returns_probe (old : ℕ → IdentifiedDevice) (hsupply : Supplies addrs nodes limit)
    (h : s.Holds addrs limit buses found) (hlimit : s.constructed < limit)
    (channel : ChannelPorts) (j : Fin 2)
    (hid : ((buses channel.base).drives j).Identifies (outcome channel.base j)) :
    ∃ s', Returns (fun n => IDEDriver.probe addrs old n channel j s) (some s') ∧
      s'.Holds addrs limit buses (found ++ (foundAt outcome (channel.base, j)).toList) ∧
      s'.constructed = s.constructed + 1 ∧ s'.ideDriver = s.ideDriver := by
  rw [← h.drives] at hid
  obtain ⟨device, bus, hnew, hidentified, hdrives⟩ := new_of_identifies (old s.constructed) hid
  have hfinds := hidentified.finds
  have hasked := h.asked (hdrives.trans (h.drives channel.base))
  have hnew' : Returns (fun n => (IDEDevice.new j (old s.constructed) (s.buses channel.base)
      n).map some) (some (device, bus)) := hnew.map some
  rw [foundAt]
  rcases hout : outcome channel.base j with _ | ⟨type, block⟩
  · rw [hout] at hfinds
    refine ⟨s.asked channel.base bus, hnew'.andThen ?_, by simpa using hasked, rfl, rfl⟩
    simp only [hfinds.2]
    exact .pure _
  · rw [hout] at hfinds
    obtain ⟨s', hregister, hs', hconstructed, hdriver⟩ := returns_registerStorageDevice hsupply
      hasked (Nat.lt_succ_of_le h.allocated_le) (h.allocated_le.trans_lt hlimit)
      ⟨channel.base, j, type, block⟩ ⟨device, channel⟩ ⟨rfl, hfinds⟩
    refine ⟨s', hnew'.andThen ?_, hs', hconstructed, hdriver⟩
    simp only [hfinds.2.1]
    exact hregister

/-! ## What the configuration space says -/

theorem register_ofFunction (b : BitVec 8) (t : BitVec 5) (f : BitVec 3) (r : BitVec 6) :
    (PCIDevice.ofFunction b t f).register cfg r = cfg b t f r := by
  rw [PCIDevice.register, PCIDevice.ofFunction]
  congr 1 <;> simp

theorem isIDE_iff {dev : PCIDevice} (hdev : dev ∈ devicesBelow cfg 16) :
    dev.getClass cfg = 1 ∧ dev.getSubclass cfg = 1 ↔ dev.IsIDE cfg := by
  obtain ⟨b, t, f, rfl, -, -⟩ := (mem_devicesBelow (by decide) dev).1 hdev
  rw [getClass_eq, getSubclass_eq, PCIDevice.IsIDE, register_ofFunction]
  have hcode : (0x0101 : BitVec 16).toNat = 0x0101 := rfl
  have hclass : (1 : Byte).toNat = 1 := rfl
  rw [BitVec.toNat_eq, BitVec.toNat_eq, BitVec.toNat_eq, BitVec.extractLsb'_toNat,
    BitVec.extractLsb'_toNat, BitVec.extractLsb'_toNat, Nat.shiftRight_eq_div_pow,
    Nat.shiftRight_eq_div_pow, hcode, hclass]
  omega

theorem setWidth_barOr {dev : PCIDevice} (hdev : dev ∈ devicesBelow cfg 16) (bar : ℕ)
    (hbar : bar < 6) (port : BitVec 32) : (dev.barOr cfg bar port).setWidth 16 =
      dev.basePort cfg (BitVec.ofNat 6 (4 + bar)) (port.setWidth 16) := by
  obtain ⟨b, t, f, rfl, -, -⟩ := (mem_devicesBelow (by decide) dev).1 hdev
  rw [PCIDevice.barOr, PCIDevice.basePort, getBar_eq hbar, register_ofFunction]
  exact apply_ite _ _ _ _

/-- What the loops of the constructor go through. -/
def PCIDevice.places (dev : PCIDevice) (cfg : ConfigSpace) : List (ChannelPorts × Fin 2) :=
  (dev.channels cfg).flatMap fun channel => (List.finRange 2).map fun j => (channel, j)

theorem drives_eq {dev : PCIDevice} (hdev : dev ∈ devicesBelow cfg 16) :
    (dev.places cfg).map (fun p => (p.1.base, p.2)) = dev.drives cfg := by
  have h0 := setWidth_barOr hdev 0 (by decide) 0x1F0
  have h2 := setWidth_barOr hdev 2 (by decide) 0x170
  simp only [PCIDevice.places, PCIDevice.channels, PCIDevice.drives, List.flatMap_cons,
    List.flatMap_nil, List.append_nil, h0, h2]
  rfl

/-- The two loops are one. -/
theorem forEach_places (dev : PCIDevice) (cfg : ConfigSpace)
    (f : ChannelPorts → Fin 2 → StorageState → Option (Option StorageState)) (s : StorageState) :
    forEach (fun channel => forEach (f channel) (List.finRange 2)) (dev.channels cfg) s =
      forEach (fun p => f p.1 p.2) (dev.places cfg) s :=
  forEach_flatMap _ fun _ _ _ => rfl

/-! ## What is registered -/

/-- A controller registers the drives that are there. -/
theorem IDEDriver.returns_new (old : ℕ → IdentifiedDevice) (hsupply : Supplies addrs nodes limit)
    (h : s.Holds addrs limit buses found) (hlimit : s.constructed + 4 ≤ limit) {dev : PCIDevice}
    (hdev : dev ∈ devicesBelow cfg 16)
    (hid : ∀ p ∈ dev.drives cfg, ((buses p.1).drives p.2).Identifies (outcome p.1 p.2)) :
    ∃ s', Returns (fun n => IDEDriver.new addrs old cfg n dev s) (some s') ∧
      s'.Holds addrs limit buses (found ++ (dev.drives cfg).filterMap (foundAt outcome)) ∧
      s'.constructed = s.constructed + 4 ∧ s'.ideDriver.map pciDevice = some dev := by
  let P (before : List (ChannelPorts × Fin 2)) (s' : StorageState) : Prop :=
    s'.Holds addrs limit buses
        (found ++ (before.map fun p => (p.1.base, p.2)).filterMap (foundAt outcome)) ∧
      s'.constructed = s.constructed + before.length
  have hround (before : List (ChannelPorts × Fin 2)) (p : ChannelPorts × Fin 2)
      (after : List (ChannelPorts × Fin 2)) (s₁ : StorageState)
      (hsplit : dev.places cfg = before ++ p :: after) (hP : P before s₁) :
      ∃ s₂, Returns (fun n => IDEDriver.probe addrs old n p.1 p.2 s₁) (some s₂) ∧
        P (before ++ [p]) s₂ := by
    obtain ⟨hs₁, hconstructed⟩ := hP
    have hlen : before.length + (after.length + 1) = 4 := by
      rw [← List.length_cons, ← List.length_append, ← hsplit]
      rfl
    have hmem : (p.1.base, p.2) ∈ dev.drives cfg := by
      rw [← drives_eq hdev, hsplit]
      exact List.mem_map_of_mem (List.mem_append_right _ List.mem_cons_self)
    obtain ⟨s₂, hprobe, hs₂, hconstructed', -⟩ := returns_probe old hsupply hs₁
      (by omega) p.1 p.2 (hid _ hmem)
    refine ⟨s₂, hprobe, ?_, ?_⟩
    · rw [List.map_append, List.map_singleton, List.filterMap_append, ← List.append_assoc]
      have hlast : [(p.1.base, p.2)].filterMap (foundAt outcome) =
          (foundAt outcome (p.1.base, p.2)).toList := by
        rw [List.filterMap_cons]
        cases foundAt outcome (p.1.base, p.2) <;> rfl
      rwa [hlast]
    · rw [hconstructed', hconstructed, List.length_append, List.length_singleton, Nat.add_assoc]
  obtain ⟨s', hloop, hs', hconstructed⟩ := returns_forEach P (dev.places cfg) hround
    (s := s) ⟨by simpa using h, rfl⟩
  refine ⟨{ s' with ideDriver := some ⟨dev, dev.channels cfg⟩ }, ?_, ?_, hconstructed, rfl⟩
  · simp only [IDEDriver.new, forEach_places]
    exact hloop.andThen (.pure _)
  · rw [drives_eq hdev] at hs'
    exact ⟨hs'.represents, hs'.free, hs'.allocated_le, hs'.drives, hs'.scanned⟩

/-- The loop over `pciDevices` makes a driver for every controller. -/
theorem returns_checkDevices (old : ℕ → IdentifiedDevice) (hsupply : Supplies addrs nodes (2 ^ 17))
    (h : s.Holds addrs (2 ^ 17) buses []) (hs : s.constructed = 0) (hdriver : s.ideDriver = none)
    (hid : ∀ dev ∈ ideControllersBelow cfg 16, ∀ p ∈ dev.drives cfg,
      ((buses p.1).drives p.2).Identifies (outcome p.1 p.2)) :
    ∃ s', Returns (fun n => forEach (checkDevice addrs old cfg n) (devicesBelow cfg 16) s)
        (some s') ∧
      s'.Holds addrs (2 ^ 17) buses (drivesFound cfg outcome) ∧
      s'.ideDriver.map IDEDriver.pciDevice = (ideControllersBelow cfg 16).getLast? := by
  let P (before : List PCIDevice) (s' : StorageState) : Prop :=
    let controllers := before.filter fun dev => dev.IsIDE cfg
    s'.Holds addrs (2 ^ 17) buses
      ((controllers.flatMap fun dev => dev.drives cfg).filterMap (foundAt outcome)) ∧
    s'.constructed = 4 * controllers.length ∧
    s'.ideDriver.map IDEDriver.pciDevice = controllers.getLast?
  have hround (before : List PCIDevice) (dev : PCIDevice) (after : List PCIDevice)
      (s₁ : StorageState) (hsplit : devicesBelow cfg 16 = before ++ dev :: after)
      (hP : P before s₁) : ∃ s₂, Returns (fun n => checkDevice addrs old cfg n dev s₁) (some s₂) ∧
        P (before ++ [dev]) s₂ := by
    obtain ⟨hs₁, hconstructed, hlast⟩ := hP
    have hdev : dev ∈ devicesBelow cfg 16 := by
      rw [hsplit]
      exact List.mem_append_right _ List.mem_cons_self
    simp only [checkDevice, isIDE_iff hdev]
    by_cases hide : dev.IsIDE cfg
    · have hlen : 4 * (before.filter fun dev => dev.IsIDE cfg).length + 4 ≤ 2 ^ 17 := by
        have hall : (devicesBelow cfg 16).length ≤ 256 * (16 * 8) := length_devicesBelow 16
        have hfilter := List.length_filter_le (fun dev => decide (dev.IsIDE cfg)) before
        rw [hsplit, List.length_append, List.length_cons] at hall
        omega
      obtain ⟨s₂, hnew, hs₂, hconstructed', hdriver'⟩ := IDEDriver.returns_new old
        hsupply hs₁ (hconstructed ▸ hlen) hdev
        (hid dev (List.mem_filter.2 ⟨hdev, decide_eq_true hide⟩))
      simp only [if_pos hide]
      have hfilter : (before ++ [dev]).filter (fun dev => dev.IsIDE cfg) =
          before.filter (fun dev => dev.IsIDE cfg) ++ [dev] := by
        rw [List.filter_append, List.filter_singleton, decide_eq_true hide]
        rfl
      refine ⟨s₂, hnew, ?_, ?_, ?_⟩
      · rwa [hfilter, List.flatMap_append, List.filterMap_append, List.flatMap_singleton]
      · rw [hfilter, hconstructed', hconstructed, List.length_append, List.length_singleton]
        omega
      · rw [hfilter, hdriver', List.getLast?_concat]
    · have hfilter : (before ++ [dev]).filter (fun dev => dev.IsIDE cfg) =
          before.filter (fun dev => dev.IsIDE cfg) := by
        rw [List.filter_append, List.filter_singleton, decide_eq_false hide]
        exact List.append_nil _
      simp only [if_neg hide]
      refine ⟨s₁, .pure _, ?_⟩
      simp only [P, hfilter]
      exact ⟨hs₁, hconstructed, hlast⟩
  obtain ⟨s', hloop, hs', -, hlast⟩ := returns_forEach P (devicesBelow cfg 16) hround (s := s)
    ⟨h, hs, by rw [hdriver]; rfl⟩
  exact ⟨s', hloop, hs', hlast⟩

/-- The loop over `storageDevices` scans those that have a size. -/
theorem forEach_checkStorage (xs : List RegisteredDevice) (s : StorageState) :
    forEach checkStorage xs s =
      some (some
        { s with scanned := s.scanned ++ xs.filter fun device => device.getSize ≠ 0 }) := by
  induction xs generalizing s with
  | nil => rw [forEach, List.filter_nil, List.append_nil]
  | cons device xs ih =>
    rw [forEach, checkStorage]
    by_cases hsize : device.getSize ≠ 0
    · rw [if_pos hsize, List.filter_cons, if_pos (decide_eq_true hsize)]
      refine (ih _).trans ?_
      rw [List.append_assoc, List.singleton_append]
    · rw [if_neg hsize, List.filter_cons, if_neg (by rwa [decide_eq_true_eq])]
      exact ih s

/-- In the end, `storageDevices` has the drives of all controllers in the slots 0 to 15 that are
there, in their order, each as what it says it is; those with a size have been scanned, and
`ideDriver` is for the last of these controllers. -/
theorem storageDevices_of_boot (cfg : ConfigSpace) (buses : BitVec 16 → Bus)
    (outcome : BitVec 16 → Fin 2 → Option (DeviceType × Mem)) (old : ℕ → IdentifiedDevice)
    {pciAddrs : ℕ → ℕ} {pciNodes : Nodes PCIDevice} (hcfg : cfg.WellFormed)
    (hpci : Allocates pciAddrs pciNodes)
    (hsupply : Supplies addrs nodes (2 ^ 17))
    (hid : ∀ dev ∈ ideControllersBelow cfg 16, ∀ p ∈ dev.drives cfg,
      ((buses p.1).drives p.2).Identifies (outcome p.1 p.2)) :
    ∃ s xs l, Returns (fun n => findStorage addrs old cfg n pciAddrs pciNodes
        ⟨buses, nodes, Vector.new, 0, 0, none, []⟩) (some s) ∧
      s.storageDevices.Represents s.nodes xs l ∧
      List.Forall₂ FoundDrive.Shown (drivesFound cfg outcome) xs ∧
      s.scanned = xs.filter (fun device => device.getSize ≠ 0) ∧
      s.ideDriver.map IDEDriver.pciDevice = (ideControllersBelow cfg 16).getLast? := by
  obtain ⟨pci, l, hinit, hpciDevices⟩ := returns_initializePCI hcfg hpci
  obtain ⟨s, hloop, hs, hdriver⟩ := returns_checkDevices old hsupply
    (s := ⟨buses, nodes, Vector.new, 0, 0, none, []⟩)
    ⟨⟨[], [], Vector.represents_new nodes, .nil⟩, fun k _ hk => hsupply.free k hk, le_rfl,
      fun _ => rfl, rfl⟩ rfl rfl hid
  obtain ⟨xs, l', hrep, hshown⟩ := hs.represents
  refine ⟨{ s with scanned := xs.filter fun device => device.getSize ≠ 0 }, xs, l', ?_, hrep,
    hshown, rfl, hdriver⟩
  refine hinit.andThen ?_
  simp only [hpciDevices.forEach_get]
  refine hloop.andThen ?_
  rw [hrep.forEach_get, forEach_checkStorage, hs.scanned, List.nil_append]
  exact .pure _

end

/-- A bus with a single function, in the slot 1: an IDE controller, which does not say where its
channels are. -/
def oneController : ConfigSpace := fun b s f r =>
  if b = 0 ∧ s = 1 ∧ f = 0 then
    if r = 0 then 0x70108086 else if r = 2 then 0x01018000 else 0
  else BitVec.allOnes 32

theorem vendor_oneController (b : BitVec 8) (s : BitVec 5) (f : BitVec 3) :
    oneController.vendor b s f = if b = 0 ∧ s = 1 ∧ f = 0 then 0x8086 else 0xFFFF := by
  rw [ConfigSpace.vendor, oneController]
  split <;> rfl

theorem wellFormed_oneController : oneController.WellFormed where
  function0 b s f h := by
    rw [vendor_oneController] at h ⊢
    split at h
    · rename_i hbsf
      rw [if_pos ⟨hbsf.1, hbsf.2.1, rfl⟩]
      decide
    · exact absurd rfl h
  multifunction b s f hf h := by
    rw [vendor_oneController, if_neg fun hbsf => hf hbsf.2.2] at h
    exact absurd rfl h

theorem mem_ideControllersBelow_oneController :
    PCIDevice.ofFunction 0 1 0 ∈ ideControllersBelow oneController 16 :=
  List.mem_filter.2 ⟨(mem_devicesBelow (by decide) _).2 ⟨0, 1, 0, rfl, by decide, by decide⟩,
    by decide⟩

theorem supplies_free : Supplies (fun k => 16 * (k + 1)) (fun _ => none : Nodes RegisteredDevice)
    (2 ^ 17) where
  ne_zero k _ := by omega
  lt k hk := by omega
  free _ _ := rfl
  ne j k hjk _ := by omega

/-- The only drive is the small disk, where the first channel has always been. -/
def oneDiskBuses : BitVec 16 → Bus := fun base =>
  if base = 0x1F0 then smallDiskBus
  else { smallDiskBus with drives := fun _ => smallDiskBus.drives (Fin.last 1) }

def oneDiskOutcome : BitVec 16 → Fin 2 → Option (DeviceType × Mem) := fun base j =>
  if base = 0x1F0 ∧ j.val = 0 then some (.ata, smallDiskBlock) else none

theorem identifies_oneDisk (base : BitVec 16) (j : Fin 2) :
    ((oneDiskBuses base).drives j).Identifies (oneDiskOutcome base j) := by
  rw [oneDiskBuses, oneDiskOutcome]
  by_cases hbase : base = 0x1F0
  · rw [if_pos hbase]
    match j with
    | 0 => rw [if_pos ⟨hbase, rfl⟩]; exact identifies_smallDisk
    | 1 => rw [if_neg (by simp)]; exact .absent rfl
  · rw [if_neg hbase, if_neg fun h => hbase h.1]
    exact .absent rfl

/-- The disk is registered and scanned. -/
theorem storageDevices_of_boot_oneDisk : ∃ s xs l,
    Returns (fun n => findStorage (fun k => 16 * (k + 1)) (fun _ => blankDevice) oneController n
      (fun k => 16 * (k + 1)) (fun _ => none)
      ⟨oneDiskBuses, fun _ => none, Vector.new, 0, 0, none, []⟩) (some s) ∧
      s.storageDevices.Represents s.nodes xs l ∧
      ∃ device ∈ xs, HoldsString device.getName smallDisk.model ∧ device ∈ s.scanned := by
  obtain ⟨s, xs, l, hreturns, hrep, hshown, hscanned, -⟩ :=
    storageDevices_of_boot oneController oneDiskBuses oneDiskOutcome (fun _ => blankDevice)
      wellFormed_oneController allocates_free
      supplies_free
      fun dev _ p _ => identifies_oneDisk p.1 p.2
  have hfound : (⟨0x1F0, 0, .ata, smallDiskBlock⟩ : FoundDrive) ∈
      drivesFound oneController oneDiskOutcome :=
    List.mem_filterMap.2 ⟨(0x1F0, 0), List.mem_flatMap.2 ⟨_, mem_ideControllersBelow_oneController,
      List.mem_cons_self⟩, rfl⟩
  obtain ⟨i, hi, hget⟩ := List.getElem_of_mem hfound
  have hdevice := hshown.get hi (hshown.length_eq ▸ hi)
  rw [List.get_eq_getElem, hget] at hdevice
  have hinfo := hdevice.2.2.2.2 smallDisk describes_smallDiskBlock
  refine ⟨s, xs, l, hreturns, hrep, _, List.getElem_mem _, hinfo.getName, ?_⟩
  rw [hscanned, List.mem_filter]
  exact ⟨List.getElem_mem _,
    decide_eq_true fun h => absurd (hinfo.getSize.symm.trans h) (by decide)⟩

end SmartOS
