import SmartOS.Vector.Basic

/-!
# The PCI bus

`PCI.cpp`: the configuration space is read a word of 32 bits at a time, through an
address that has the bus, the slot, the function and the register at fixed bits
(`ConfigSpace.inl`), and `initializePCI` goes through it, to push a device on
`pciDevices` for every function that it finds. Its messages, which only debug builds
have, are left out.

Of the 32 slots of a bus, `initializePCI` looks at 16.

* `getVendor_eq`, `getHeaderType_eq`: what is read of a device is what its function
  has;
* `initializePCI_eq`: the devices pushed, as one list (`devicesBelow`);
* `initializePCI_enumerates_iff`: `pciDevices` is right exactly when no slot from 16
  on is populated.
-/

namespace SmartOS

open Prog

/-- The registers of the function of each bus, slot and number. -/
abbrev ConfigSpace := BitVec 8 → BitVec 5 → BitVec 3 → BitVec 6 → BitVec 32

structure PCIDevice where
  bus : Byte
  slot : Byte
  func : Byte
  deriving Repr, DecidableEq

/-! ## Reading the configuration space -/

namespace ConfigSpace

variable (cfg : ConfigSpace)

/-- `inl(0xCFC)`, after `outl(0xCF8, address)`. -/
def inl (address : BitVec 32) : BitVec 32 :=
  if address.getLsbD 31 then
    cfg (address.extractLsb' 16 8) (address.extractLsb' 11 5) (address.extractLsb' 8 3)
      (address.extractLsb' 2 6)
  else BitVec.allOnes 32

/-- The vendor of a function, which is 0xFFFF where there is none. -/
def vendor (bus : BitVec 8) (slot : BitVec 5) (func : BitVec 3) : BitVec 16 :=
  (cfg bus slot func 0).extractLsb' 0 16

def headerType (bus : BitVec 8) (slot : BitVec 5) (func : BitVec 3) : BitVec 8 :=
  (cfg bus slot func 3).extractLsb' 16 8

end ConfigSpace

def configAddress (bus slot func offset : Byte) : BitVec 32 :=
  bus.setWidth 32 <<< 16 ||| slot.setWidth 32 <<< 11 ||| func.setWidth 32 <<< 8 |||
    (offset &&& 0xFC).setWidth 32 ||| 0x80000000

def pciConfigReadWord (cfg : ConfigSpace) (bus slot func offset : Byte) : BitVec 16 :=
  (cfg.inl (configAddress bus slot func offset) >>> ((offset &&& 2).toNat * 8)).setWidth 16

namespace PCIDevice

def getVendor (dev : PCIDevice) (cfg : ConfigSpace) : BitVec 16 :=
  pciConfigReadWord cfg dev.bus dev.slot dev.func 0

def getHeaderType (dev : PCIDevice) (cfg : ConfigSpace) : Byte :=
  (pciConfigReadWord cfg dev.bus dev.slot dev.func 0xE).setWidth 8

def getClass (dev : PCIDevice) (cfg : ConfigSpace) : Byte :=
  (pciConfigReadWord cfg dev.bus dev.slot dev.func 0xA >>> 8).setWidth 8

def getSubclass (dev : PCIDevice) (cfg : ConfigSpace) : Byte :=
  (pciConfigReadWord cfg dev.bus dev.slot dev.func 0xA).setWidth 8

/-- A base address register. Its lowest two bits say what it is for. -/
def getBar (dev : PCIDevice) (cfg : ConfigSpace) (bar : ℕ) : BitVec 32 :=
  cfg.inl (configAddress dev.bus dev.slot dev.func (BitVec.ofNat 8 (0x10 + bar * 4))) &&&
    0xFFFFFFFC

/-- The device of a function. -/
def ofFunction (bus : BitVec 8) (slot : BitVec 5) (func : BitVec 3) : PCIDevice :=
  ⟨bus, slot.setWidth 8, func.setWidth 8⟩

/-- The order of the buses, then of the slots, then of the functions. -/
def Precedes (d e : PCIDevice) : Prop :=
  d.bus < e.bus ∨ d.bus = e.bus ∧ (d.slot < e.slot ∨ d.slot = e.slot ∧ d.func < e.func)

end PCIDevice

/-! ## `initializePCI` -/

/-- `pciDevices`, and the memory of its nodes. -/
structure PCIState where
  nodes : Nodes PCIDevice
  pciDevices : Vector PCIDevice
  /-- How many nodes have been allocated. -/
  allocated : ℕ

/-- `pciDevices.push(dev)`, when `new` allocates the addresses `addrs`, one after another. -/
def pushDevice (addrs : ℕ → ℕ) (n : ℕ) (dev : PCIDevice) (s : PCIState) :
    Option (Option PCIState) :=
  andThen (s.pciDevices.push s.nodes dev (addrs s.allocated) n) fun (nodes, v) =>
    some (some ⟨nodes, v, s.allocated + 1⟩)

section

variable (cfg : ConfigSpace) (addrs : ℕ → ℕ) (n : ℕ)

/-- A round of the loop over the functions of a device with many. -/
def scanFunction (i j k : ℕ) (s : PCIState) : Option (Option PCIState) :=
  let dev : PCIDevice := ⟨BitVec.ofNat 8 i, BitVec.ofNat 8 j, BitVec.ofNat 8 k⟩
  if dev.getVendor cfg = 0xFFFF then some (some s)
  else pushDevice addrs n dev s

/-- A round of the loop over the slots of a bus. -/
def scanSlot (i j : ℕ) (s : PCIState) : Option (Option PCIState) :=
  let dev : PCIDevice := ⟨BitVec.ofNat 8 i, BitVec.ofNat 8 j, 0⟩
  if dev.getVendor cfg = 0xFFFF then some (some s)
  else
    andThen (pushDevice addrs n dev s) fun s =>
      if dev.getHeaderType cfg &&& 0x80 ≠ 0 then
        forEach (scanFunction cfg addrs n i j) (List.range' 1 7) s
      else some (some s)

def initializePCI (nodes : Nodes PCIDevice) : Option (Option PCIState) :=
  forEach (fun i => forEach (scanSlot cfg addrs n i) (List.range 16)) (List.range 256)
    ⟨nodes, Vector.new, 0⟩

end

/-! ## What is read -/

section

variable {cfg : ConfigSpace} {b : BitVec 8} {s : BitVec 5} {f : BitVec 3}

/-- The fields of an address do not overlap: they are read back as they were put in. -/
theorem extract_configAddress (offset : Byte) :
    let address := configAddress b (s.setWidth 8) (f.setWidth 8) offset
    address.extractLsb' 16 8 = b ∧ address.extractLsb' 11 5 = s ∧ address.extractLsb' 8 3 = f ∧
      address.extractLsb' 2 6 = offset.extractLsb' 2 6 := by
  refine ⟨?_, ?_, ?_, ?_⟩ <;> refine BitVec.eq_of_getElem_eq fun i hi => ?_ <;>
    simp only [configAddress, BitVec.getElem_extractLsb', BitVec.getLsbD_or,
      BitVec.getLsbD_shiftLeft, BitVec.getLsbD_setWidth] <;>
    interval_cases i <;> simp

theorem inl_configAddress (offset : Byte) :
    cfg.inl (configAddress b (s.setWidth 8) (f.setWidth 8) offset) =
      cfg b s f (offset.extractLsb' 2 6) := by
  obtain ⟨hb, hs, hf, hoffset⟩ := extract_configAddress (b := b) (s := s) (f := f) offset
  rw [ConfigSpace.inl, if_pos (by simp [configAddress]), hb, hs, hf, hoffset]

theorem getVendor_eq : (PCIDevice.ofFunction b s f).getVendor cfg = cfg.vendor b s f := by
  rw [PCIDevice.getVendor, pciConfigReadWord, PCIDevice.ofFunction, inl_configAddress,
    ConfigSpace.vendor]
  exact BitVec.eq_of_getElem_eq fun i hi => by simp

theorem getHeaderType_eq :
    (PCIDevice.ofFunction b s f).getHeaderType cfg = cfg.headerType b s f := by
  rw [PCIDevice.getHeaderType, pciConfigReadWord, PCIDevice.ofFunction, inl_configAddress,
    ConfigSpace.headerType]
  exact BitVec.eq_of_getElem_eq fun i hi => by simp

theorem getClass_eq :
    (PCIDevice.ofFunction b s f).getClass cfg = (cfg b s f 2).extractLsb' 24 8 := by
  rw [PCIDevice.getClass, pciConfigReadWord, PCIDevice.ofFunction, inl_configAddress]
  refine BitVec.eq_of_getElem_eq fun i hi => ?_
  have hlt : 8 + i < 16 := by omega
  simp [hlt, ← Nat.add_assoc]

theorem getSubclass_eq :
    (PCIDevice.ofFunction b s f).getSubclass cfg = (cfg b s f 2).extractLsb' 16 8 := by
  rw [PCIDevice.getSubclass, pciConfigReadWord, PCIDevice.ofFunction, inl_configAddress]
  exact BitVec.eq_of_getElem_eq fun i hi => by simp

theorem getBar_eq {bar : ℕ} (hbar : bar < 6) : (PCIDevice.ofFunction b s f).getBar cfg bar =
    cfg b s f (BitVec.ofNat 6 (4 + bar)) &&& 0xFFFFFFFC := by
  rw [PCIDevice.getBar, PCIDevice.ofFunction, inl_configAddress]
  interval_cases bar <;> rfl

end

/-! ## What is pushed -/

/-- The devices that answer, in slots below `slots`, in their order. -/
def devicesBelow (cfg : ConfigSpace) (slots : ℕ) : List PCIDevice :=
  (List.range 256).flatMap fun i => (List.range slots).flatMap fun j =>
    (List.range 8).flatMap fun k =>
      let dev : PCIDevice := ⟨BitVec.ofNat 8 i, BitVec.ofNat 8 j, BitVec.ofNat 8 k⟩
      if dev.getVendor cfg = 0xFFFF then [] else [dev]

/-- A populated slot has a function 0, and one with other functions says so there. -/
structure ConfigSpace.WellFormed (cfg : ConfigSpace) : Prop where
  function0 : ∀ b s f, cfg.vendor b s f ≠ 0xFFFF → cfg.vendor b s 0 ≠ 0xFFFF
  multifunction : ∀ b s f, f ≠ 0 → cfg.vendor b s f ≠ 0xFFFF →
    (cfg.headerType b s 0).getLsbD 7 = true

/-- The list has the functions that answer, each once, in their order, and nothing else. -/
structure ConfigSpace.Enumerates (cfg : ConfigSpace) (devs : List PCIDevice) : Prop where
  ordered : devs.Pairwise PCIDevice.Precedes
  mem_iff : ∀ dev, dev ∈ devs ↔
    ∃ b s f, dev = PCIDevice.ofFunction b s f ∧ cfg.vendor b s f ≠ 0xFFFF

section

variable {cfg : ConfigSpace} {i j k : ℕ}

theorem ofNat_eq_ofFunction (hj : j < 32) (hk : k < 8) :
    (⟨BitVec.ofNat 8 i, BitVec.ofNat 8 j, BitVec.ofNat 8 k⟩ : PCIDevice) =
      .ofFunction (BitVec.ofNat 8 i) (BitVec.ofNat 5 j) (BitVec.ofNat 3 k) := by
  have hslot : (BitVec.ofNat 5 j).setWidth 8 = BitVec.ofNat 8 j :=
    BitVec.eq_of_toNat_eq (by simp; omega)
  have hfunc : (BitVec.ofNat 3 k).setWidth 8 = BitVec.ofNat 8 k :=
    BitVec.eq_of_toNat_eq (by simp; omega)
  rw [PCIDevice.ofFunction, hslot, hfunc]

theorem mem_devicesBelow {slots : ℕ} (hslots : slots ≤ 32) (dev : PCIDevice) :
    dev ∈ devicesBelow cfg slots ↔ ∃ b s f, dev = PCIDevice.ofFunction b s f ∧
      s.toNat < slots ∧ cfg.vendor b s f ≠ 0xFFFF := by
  simp only [devicesBelow, List.mem_flatMap, List.mem_range]
  constructor
  · rintro ⟨i, hi, j, hj, k, hk, hdev⟩
    rw [ofNat_eq_ofFunction (by omega) hk, getVendor_eq] at hdev
    split at hdev
    · cases hdev
    · rename_i hvendor
      refine ⟨_, _, _, List.mem_singleton.1 hdev, ?_, hvendor⟩
      rw [BitVec.toNat_ofNat, Nat.mod_eq_of_lt (by omega)]
      exact hj
  · rintro ⟨b, s, f, rfl, hs, hvendor⟩
    refine ⟨b.toNat, b.isLt, s.toNat, hs, f.toNat, f.isLt, ?_⟩
    rw [ofNat_eq_ofFunction s.isLt f.isLt, BitVec.ofNat_toNat, BitVec.ofNat_toNat,
      BitVec.ofNat_toNat, BitVec.setWidth_eq, BitVec.setWidth_eq, BitVec.setWidth_eq,
      getVendor_eq, if_neg hvendor]
    exact List.mem_singleton_self _

theorem eq_of_mem_ite {α : Type*} {c : Prop} [Decidable c] {x y : α}
    (h : x ∈ if c then [] else [y]) : x = y := by
  split at h
  · cases h
  · exact List.mem_singleton.1 h

theorem ofNat_lt_ofNat (hj : j < k) (hk : k < 256) : BitVec.ofNat 8 j < BitVec.ofNat 8 k := by
  rw [BitVec.lt_def, BitVec.toNat_ofNat, BitVec.toNat_ofNat, Nat.mod_eq_of_lt (by omega),
    Nat.mod_eq_of_lt (by omega)]
  exact hj

theorem ordered_devicesBelow {slots : ℕ} (hslots : slots ≤ 32) :
    (devicesBelow cfg slots).Pairwise PCIDevice.Precedes := by
  simp only [devicesBelow, List.pairwise_flatMap]
  refine ⟨fun i _ => ⟨fun j _ => ⟨fun k _ => ?_, ?_⟩, ?_⟩, ?_⟩
  · split <;> simp
  · refine List.pairwise_lt_range.imp_of_mem fun {k k'} _ hk' hlt x hx y hy => ?_
    rw [List.mem_range] at hk'
    rw [eq_of_mem_ite hx, eq_of_mem_ite hy]
    exact .inr ⟨rfl, .inr ⟨rfl, ofNat_lt_ofNat hlt (by omega)⟩⟩
  · refine List.pairwise_lt_range.imp_of_mem fun {j j'} _ hj' hlt x hx y hy => ?_
    rw [List.mem_range] at hj'
    obtain ⟨k, -, hx⟩ := List.mem_flatMap.1 hx
    obtain ⟨k', -, hy⟩ := List.mem_flatMap.1 hy
    rw [eq_of_mem_ite hx, eq_of_mem_ite hy]
    exact .inr ⟨rfl, .inl (ofNat_lt_ofNat hlt (by omega))⟩
  · refine List.pairwise_lt_range.imp_of_mem fun {i i'} _ hi' hlt x hx y hy => ?_
    rw [List.mem_range] at hi'
    obtain ⟨j, -, hx⟩ := List.mem_flatMap.1 hx
    obtain ⟨k, -, hx⟩ := List.mem_flatMap.1 hx
    obtain ⟨j', -, hy⟩ := List.mem_flatMap.1 hy
    obtain ⟨k', -, hy⟩ := List.mem_flatMap.1 hy
    rw [eq_of_mem_ite hx, eq_of_mem_ite hy]
    exact .inl (ofNat_lt_ofNat hlt hi')

theorem length_flatMap_le_mul {α β : Type*} {l : List α} {g : α → List β} {c : ℕ}
    (h : ∀ x ∈ l, (g x).length ≤ c) : (l.flatMap g).length ≤ l.length * c := by
  rw [List.length_flatMap, ← smul_eq_mul, ← List.length_map (fun x => (g x).length)]
  exact List.sum_le_card_nsmul _ c (List.forall_mem_map.2 h)

theorem length_devicesBelow (slots : ℕ) : (devicesBelow cfg slots).length ≤ 256 * (slots * 8) := by
  refine (length_flatMap_le_mul (c := slots * 8) fun i _ => ?_).trans_eq (by rw [List.length_range])
  refine (length_flatMap_le_mul (c := 8) fun j _ => ?_).trans_eq (by rw [List.length_range])
  refine (length_flatMap_le_mul (c := 1) fun k _ => ?_).trans_eq (by rw [List.length_range])
  dsimp only
  split <;> simp

theorem getVendor_ofNat (hj : j < 32) (hk : k < 8) :
    (⟨BitVec.ofNat 8 i, BitVec.ofNat 8 j, BitVec.ofNat 8 k⟩ : PCIDevice).getVendor cfg =
      cfg.vendor (BitVec.ofNat 8 i) (BitVec.ofNat 5 j) (BitVec.ofNat 3 k) :=
  (congrArg (PCIDevice.getVendor · cfg) (ofNat_eq_ofFunction hj hk)).trans getVendor_eq

theorem getHeaderType_ofNat (hj : j < 32) (hk : k < 8) :
    (⟨BitVec.ofNat 8 i, BitVec.ofNat 8 j, BitVec.ofNat 8 k⟩ : PCIDevice).getHeaderType cfg =
      cfg.headerType (BitVec.ofNat 8 i) (BitVec.ofNat 5 j) (BitVec.ofNat 3 k) :=
  (congrArg (PCIDevice.getHeaderType · cfg) (ofNat_eq_ofFunction hj hk)).trans getHeaderType_eq

/-- No function answers where function 0 does not. -/
theorem getVendor_of_empty (hcfg : cfg.WellFormed) (hj : j < 32) (hk : k < 8)
    (h0 : (⟨BitVec.ofNat 8 i, BitVec.ofNat 8 j, BitVec.ofNat 8 0⟩ : PCIDevice).getVendor cfg =
      0xFFFF) :
    (⟨BitVec.ofNat 8 i, BitVec.ofNat 8 j, BitVec.ofNat 8 k⟩ : PCIDevice).getVendor cfg =
      0xFFFF := by
  rw [getVendor_ofNat hj (by decide)] at h0
  rw [getVendor_ofNat hj hk]
  exact not_not.1 fun hne => hcfg.function0 _ _ _ hne h0

/-- A device that is not marked has no other function. -/
theorem getVendor_of_single (hcfg : cfg.WellFormed) (hj : j < 32) (hk : 1 ≤ k) (hk' : k < 8)
    (hsingle : (⟨BitVec.ofNat 8 i, BitVec.ofNat 8 j, BitVec.ofNat 8 0⟩ : PCIDevice).getHeaderType
      cfg &&& 0x80 = 0) :
    (⟨BitVec.ofNat 8 i, BitVec.ofNat 8 j, BitVec.ofNat 8 k⟩ : PCIDevice).getVendor cfg =
      0xFFFF := by
  rw [getHeaderType_ofNat hj (by decide)] at hsingle
  rw [getVendor_ofNat hj hk']
  refine not_not.1 fun hne => ?_
  have hfunc : BitVec.ofNat 3 k ≠ 0 := fun h => by
    have hmod : k % 8 = 0 := by simpa using congrArg BitVec.toNat h
    omega
  have hmulti : (cfg.headerType _ _ (BitVec.ofNat 3 0)).getLsbD 7 = true :=
    hcfg.multifunction _ _ _ hfunc hne
  have hbit := congrArg (BitVec.getLsbD · 7) hsingle
  rw [BitVec.getLsbD_and, hmulti] at hbit
  exact absurd hbit (by decide)

/-- What a slot has pushed, when the configuration space is well formed. -/
theorem scanSlot_eq (hcfg : cfg.WellFormed) (addrs : ℕ → ℕ) (n : ℕ) (hj : j < 32)
    (s : PCIState) : scanSlot cfg addrs n i j s = forEach (pushDevice addrs n)
      ((List.range 8).flatMap fun k =>
        let dev : PCIDevice := ⟨BitVec.ofNat 8 i, BitVec.ofNat 8 j, BitVec.ofNat 8 k⟩
        if dev.getVendor cfg = 0xFFFF then [] else [dev]) s := by
  by_cases h0 : (⟨BitVec.ofNat 8 i, BitVec.ofNat 8 j, BitVec.ofNat 8 0⟩ : PCIDevice).getVendor cfg =
      0xFFFF
  · rw [List.flatMap_eq_nil_iff.2 fun k hk =>
      if_pos (getVendor_of_empty hcfg hj (List.mem_range.1 hk) h0)]
    exact if_pos h0
  · rw [show List.range 8 = 0 :: List.range' 1 7 from rfl, List.flatMap_cons]
    refine (if_neg h0).trans ?_
    dsimp only
    rw [if_neg h0, List.singleton_append, forEach]
    refine congrArg _ (funext fun s => ?_)
    split
    · exact forEach_flatMap _ fun k _ s => by
        rw [scanFunction]
        split
        · rfl
        · exact (forEach_singleton _).symm
    · rename_i hsingle
      rw [List.flatMap_eq_nil_iff.2 fun k hk => ?_]
      · rfl
      · obtain ⟨hk, hk'⟩ := List.mem_range'_1.1 hk
        exact if_pos (getVendor_of_single hcfg hj hk hk' (not_not.1 hsingle))

/-- All that `initializePCI` pushes, in the slots that it looks at. -/
theorem initializePCI_eq (hcfg : cfg.WellFormed) (addrs : ℕ → ℕ) (n : ℕ)
    (nodes : Nodes PCIDevice) : initializePCI cfg addrs n nodes =
      forEach (pushDevice addrs n) (devicesBelow cfg 16) ⟨nodes, Vector.new, 0⟩ := by
  rw [initializePCI, devicesBelow]
  refine forEach_flatMap _ fun i _ s => ?_
  exact forEach_flatMap _ fun j hj s =>
    scanSlot_eq hcfg addrs n ((List.mem_range.1 hj).trans (by decide)) s

end

/-! ## What `pciDevices` is in the end -/

/-- `new` succeeds, for as many nodes as there can be functions: it gives addresses, one after
another, that are free. -/
structure Allocates (addrs : ℕ → ℕ) (nodes : Nodes PCIDevice) : Prop where
  ne_zero : ∀ k < 2 ^ 16, addrs k ≠ 0
  lt : ∀ k < 2 ^ 16, addrs k < 2 ^ 64
  free : ∀ k < 2 ^ 16, nodes (addrs k) = none
  ne : ∀ j k, j < k → k < 2 ^ 16 → addrs j ≠ addrs k

section

variable {addrs : ℕ → ℕ} {nodes : Nodes PCIDevice}

/-- Devices pushed, one after another. -/
theorem returns_pushDevices (halloc : Allocates addrs nodes) (devs : List PCIDevice)
    {s : PCIState} {xs : List PCIDevice} {l : List (ℕ × PCIDevice)}
    (h : s.pciDevices.Represents s.nodes xs l)
    (hfree : ∀ k, s.allocated ≤ k → k < 2 ^ 16 → s.nodes (addrs k) = none)
    (hlen : s.allocated + devs.length ≤ 2 ^ 16) :
    ∃ s' l', Returns (fun n => forEach (pushDevice addrs n) devs s) (some s') ∧
      s'.pciDevices.Represents s'.nodes (xs ++ devs) l' := by
  induction devs generalizing s xs l with
  | nil => exact ⟨s, l, .pure _, by rwa [List.append_nil]⟩
  | cons dev devs ih =>
    rw [List.length_cons] at hlen
    have hk : s.allocated < 2 ^ 16 := by omega
    obtain ⟨nodes', v', hpush, hv', hnodes'⟩ := Vector.represents_push h dev
      (halloc.ne_zero _ hk) (halloc.lt _ hk) (hfree _ le_rfl hk)
    have hfree' : ∀ k, s.allocated + 1 ≤ k → k < 2 ^ 16 → nodes' (addrs k) = none :=
      fun k hle hlt => hnodes' _ (halloc.ne _ _ hle hlt).symm (hfree k (by omega) hlt)
    obtain ⟨s', l', hreturns, hs'⟩ := ih (s := ⟨nodes', v', s.allocated + 1⟩) hv' hfree'
      (by show s.allocated + 1 + devs.length ≤ _; omega)
    refine ⟨s', l', ?_, by rwa [List.append_assoc] at hs'⟩
    exact Returns.andThen (hpush.andThen (.pure _)) hreturns

/-- Devices pushed on the empty vector. -/
theorem returns_pushDevices_new (halloc : Allocates addrs nodes) {devs : List PCIDevice}
    (hlen : devs.length ≤ 2 ^ 16) :
    ∃ s l, Returns (fun n => forEach (pushDevice addrs n) devs ⟨nodes, Vector.new, 0⟩) (some s) ∧
      s.pciDevices.Represents s.nodes devs l :=
  returns_pushDevices halloc devs (s := ⟨nodes, Vector.new, 0⟩) (Vector.represents_new nodes)
    (fun k _ hk => halloc.free k hk) (by rwa [Nat.zero_add])

/-- `initializePCI` returns, with the devices that it finds in the slots that it looks at. -/
theorem returns_initializePCI {cfg : ConfigSpace} (hcfg : cfg.WellFormed)
    (halloc : Allocates addrs nodes) :
    ∃ s l, Returns (fun n => initializePCI cfg addrs n nodes) (some s) ∧
      s.pciDevices.Represents s.nodes (devicesBelow cfg 16) l := by
  simp only [initializePCI_eq hcfg]
  exact returns_pushDevices_new halloc ((length_devicesBelow 16).trans (by decide))

/-- `pciDevices` stands for the list of the functions that answer. -/
def PCIState.Enumerates (s : PCIState) (cfg : ConfigSpace) : Prop :=
  ∃ devs l, s.pciDevices.Represents s.nodes devs l ∧ cfg.Enumerates devs

theorem enumerates_devicesBelow_iff (cfg : ConfigSpace) :
    cfg.Enumerates (devicesBelow cfg 16) ↔
      ∀ bus slot func, 16 ≤ slot.toNat → cfg.vendor bus slot func = 0xFFFF := by
  constructor
  · intro h bus slot func hslot
    by_contra hvendor
    obtain ⟨b, t, f, heq, ht, -⟩ := (mem_devicesBelow (by decide) _).1
      ((h.mem_iff _).2 ⟨bus, slot, func, rfl, hvendor⟩)
    have htoNat := congrArg (fun dev : PCIDevice => dev.slot.toNat) heq
    simp only [PCIDevice.ofFunction, BitVec.toNat_setWidth] at htoNat
    omega
  · intro hempty
    refine ⟨ordered_devicesBelow (by decide),
      fun dev => (mem_devicesBelow (by decide) dev).trans ?_⟩
    refine ⟨fun ⟨b, s, f, hdev, _, h⟩ => ⟨b, s, f, hdev, h⟩, fun ⟨b, s, f, hdev, h⟩ => ?_⟩
    exact ⟨b, s, f, hdev, Nat.lt_of_not_le fun hle => h (hempty b s f hle), h⟩

/-- Whatever `initializePCI` leaves is the list of the devices in those slots. -/
theorem enumerates_of_returns {cfg : ConfigSpace} (hcfg : cfg.WellFormed)
    (halloc : Allocates addrs nodes) {s : PCIState}
    (hreturns : Returns (fun n => initializePCI cfg addrs n nodes) (some s))
    (h : s.Enumerates cfg) : cfg.Enumerates (devicesBelow cfg 16) := by
  obtain ⟨s', l, hreturns', hs⟩ := returns_initializePCI hcfg halloc
  cases hreturns.unique hreturns'
  obtain ⟨devs, l', hs', hdevs⟩ := h
  rwa [hs'.unique hs] at hdevs

/-- `pciDevices` has exactly the functions that answer, in their order, if and only if none of
them is in the upper half of the slots of a bus. -/
theorem initializePCI_enumerates_iff (cfg : ConfigSpace) (hcfg : cfg.WellFormed)
    (halloc : Allocates addrs nodes) :
    (∃ s, Returns (fun n => initializePCI cfg addrs n nodes) (some s) ∧ s.Enumerates cfg) ↔
      ∀ bus slot func, 16 ≤ slot.toNat → cfg.vendor bus slot func = 0xFFFF := by
  rw [← enumerates_devicesBelow_iff]
  constructor
  · rintro ⟨s, hreturns, h⟩
    exact enumerates_of_returns hcfg halloc hreturns h
  · intro h
    obtain ⟨s, l, hreturns, hs⟩ := returns_initializePCI hcfg halloc
    exact ⟨s, hreturns, devicesBelow cfg 16, l, hs, h⟩

/-- A bus with a single device, of one function, in the given slot. -/
def oneDevice (slot : BitVec 5) : ConfigSpace := fun b s f r =>
  if b = 0 ∧ s = slot ∧ f = 0 then (if r = 0 then 0x12378086 else 0) else BitVec.allOnes 32

theorem vendor_oneDevice (slot : BitVec 5) (b : BitVec 8) (s : BitVec 5) (f : BitVec 3) :
    (oneDevice slot).vendor b s f = if b = 0 ∧ s = slot ∧ f = 0 then 0x8086 else 0xFFFF := by
  rw [ConfigSpace.vendor, oneDevice]
  split <;> rfl

theorem wellFormed_oneDevice (slot : BitVec 5) : (oneDevice slot).WellFormed where
  function0 b s f h := by
    rw [vendor_oneDevice] at h ⊢
    split at h
    · rename_i hbsf
      rw [if_pos ⟨hbsf.1, hbsf.2.1, rfl⟩]
      decide
    · exact absurd rfl h
  multifunction b s f hf h := by
    rw [vendor_oneDevice, if_neg fun hbsf => hf hbsf.2.2] at h
    exact absurd rfl h

theorem allocates_free : Allocates (fun k => 16 * (k + 1)) fun _ => none where
  ne_zero k _ := by omega
  lt k hk := by omega
  free _ _ := rfl
  ne j k hjk _ := by omega

/-- A device in the slot 3 is found. -/
theorem initializePCI_oneDevice :
    ∃ s, Returns (fun n => initializePCI (oneDevice 3) (fun k => 16 * (k + 1)) n fun _ => none)
      (some s) ∧ s.Enumerates (oneDevice 3) := by
  refine (initializePCI_enumerates_iff _ (wellFormed_oneDevice 3) allocates_free).2
    fun bus slot func hslot => ?_
  rw [vendor_oneDevice]
  refine if_neg fun ⟨_, heq, _⟩ => ?_
  rw [heq] at hslot
  exact absurd hslot (by decide)

/-- A device in the slot 20 is not found. -/
theorem initializePCI_misses : ¬∀ (cfg : ConfigSpace) (addrs : ℕ → ℕ) (nodes : Nodes PCIDevice),
    cfg.WellFormed → Allocates addrs nodes →
      ∃ s, Returns (fun n => initializePCI cfg addrs n nodes) (some s) ∧ s.Enumerates cfg := by
  intro h
  obtain ⟨s, hreturns, hs⟩ := h _ _ _ (wellFormed_oneDevice 20) allocates_free
  have hdevices := (enumerates_devicesBelow_iff _).1
    (enumerates_of_returns (wellFormed_oneDevice 20) allocates_free hreturns hs)
  have hvendor := hdevices 0 20 0 (by decide)
  rw [vendor_oneDevice, if_pos ⟨rfl, rfl, rfl⟩] at hvendor
  exact absurd hvendor (by decide)

end

end SmartOS
