import SmartOS.IDE.Basic
import SmartOS.Lib.Bits
import SmartOS.Lib.Loop
import SmartOS.Strings.Basic

/-!
# Identifying IDE devices

The constructor of an `IDEDevice`, which asks one of the two drives of a bus to
identify itself, waits for its answer, and takes the device apart that the answer
describes.

What a drive does then is arbitrary (`Answer`): what its status is, each time it is
read, what it has in its address registers, and the blocks that it sends. It
*identifies* as a device, or as none (`Answer.Identifies`), once its status is an
error or no longer busy.

* `new_of_identifies`: the constructor says what the drive identifies as, whatever
  was asked on the bus before;
* `returns_new_iff`: it goes on for ever exactly when the drive stays busy for ever;
* `identify_describes`: a block that describes a device (`DriveInfo.Describes`) is
  read back as that device, its model without the spaces that fill it up.

The time that passes in `sleep` is left out.
-/

namespace SmartOS

open Prog

/-! ## Drives that are asked -/

/-- What a drive does after it has been asked to identify itself. -/
structure Answer where
  /-- The status, as it is read for the first time, and again and again. -/
  status : ℕ → Byte
  lba1 : Byte
  lba2 : Byte
  identify : Mem
  identifyPacket : Mem

/-- A bus with two drives, of which one is selected, and the last command. -/
structure Bus where
  drives : Fin 2 → Answer
  selected : Fin 2
  command : Byte
  /-- How often the status has been read since. -/
  polls : ℕ

namespace Bus

/-- A byte written to the register `k`. -/
def outb (bus : Bus) (k : ℕ) (data : Byte) : Bus :=
  match k with
  | 6 => { bus with selected := if data.getLsbD 4 then 1 else 0 }
  | 7 => { bus with command := data, polls := 0 }
  | _ => bus

/-- The byte read from the register `k`. -/
def inb (bus : Bus) (k : ℕ) : Byte × Bus :=
  let drive := bus.drives bus.selected
  match k with
  | 4 => (drive.lba1, bus)
  | 5 => (drive.lba2, bus)
  | 7 => (drive.status bus.polls, { bus with polls := bus.polls + 1 })
  | _ => (0xFF, bus)

/-- `rep insl`, of 128 words: a block. -/
def insl (bus : Bus) : Mem :=
  if bus.command = 0xEC then (bus.drives bus.selected).identify
  else if bus.command = 0xA1 then (bus.drives bus.selected).identifyPacket
  else fun _ => 0xFF

end Bus

/-! ## The constructor -/

/-- A device, with what its constructor finds out about it. -/
structure IdentifiedDevice extends IDEDevice where
  present : Bool
  sectors : ℕ
  signature : ℕ
  commandSets : ℕ
  deviceModel : Cells Byte

/-- The model, of which every two characters are exchanged. -/
def copyModel (iden : Mem) (deviceModel : Cells Byte) : Cells Byte :=
  ((List.range 20).foldl (fun m i =>
    (m.set (2 * i) (iden (54 + 2 * i + 1))).set (2 * i + 1) (iden (54 + 2 * i))) deviceModel).set
      40 0

/-- A round of the loop that ends the model earlier. -/
def trimRound (deviceModel : Cells Byte) (i : ℕ) : Cells Byte :=
  if deviceModel.vals (i + 1) = 0 ∧ deviceModel.vals i = 0x20 then deviceModel.set i 0
  else deviceModel

def trimModel (deviceModel : Cells Byte) : Cells Byte :=
  (List.range 40).reverse.foldl trimRound deviceModel

/-- What the constructor takes from the block that the drive sends. -/
def IdentifiedDevice.take (dev : IdentifiedDevice) (iden : Mem) : IdentifiedDevice :=
  { dev with
    present := true
    signature := iden.get16 0
    capabilities := iden.get16 98
    commandSets := iden.get32 164
    deviceModel := trimModel (copyModel iden dev.deviceModel)
    sectors := if iden.get32 164 &&& 1 <<< 26 ≠ 0 then iden.get64 200 else iden.get32 120 }

/-- A round of the loop that waits for the answer: whether it is an error. -/
def awaitAnswer (bus : Bus) : Bus ⊕ Bool × Bus :=
  let (status, bus) := bus.inb 7
  if status &&& 0x01 ≠ 0 then .inr (true, bus)
  else if status &&& 0x80 = 0 then .inr (false, bus)
  else .inl bus

/-- What follows the waiting: after an error, a device may be one with packets. -/
def IdentifiedDevice.conclude (dev : IdentifiedDevice) (err : Bool) (bus : Bus) :
    IdentifiedDevice × Bus :=
  if err then
    let (cl, bus) := bus.inb 4
    let (ch, bus) := bus.inb 5
    if cl = 0x14 ∧ ch = 0xEB ∨ cl = 0x69 ∧ ch = 0x96 then
      let bus := bus.outb 7 0xA1
      ({ dev with type := .atapi }.take bus.insl, bus)
    else (dev, bus)
  else (dev.take bus.insl, bus)

/-- `IDEDevice(channel, drive)`, in memory that holds any device. -/
def IDEDevice.new (drive : Fin 2) (old : IdentifiedDevice) (bus : Bus) (n : ℕ) :
    Option (IdentifiedDevice × Bus) :=
  let dev := { old with drive := drive, present := false }
  let bus := bus.outb 6 (0xA0 ||| BitVec.ofNat 8 drive <<< 4)
  let bus := bus.outb 7 0xEC
  let (status, bus) := bus.inb 7
  if status = 0 then some (dev, bus)
  else
    let dev := { dev with type := .ata }
    (loop awaitAnswer n bus).map fun (err, bus) => dev.conclude err bus

namespace IdentifiedDevice

def getName (dev : IdentifiedDevice) : Cells Byte := dev.deviceModel

def getSize (dev : IdentifiedDevice) : ℕ := dev.sectors

end IdentifiedDevice

/-! ## What a drive identifies as -/

/-- A status that ends the waiting: an error, or no longer busy. -/
def Answered (status : Byte) : Prop := status &&& 0x01 ≠ 0 ∨ status &&& 0x80 = 0

namespace Answer

/-- The first time that the status ends the waiting. What it is before, at the time 0, only tells
whether there is a drive. -/
structure AnsweredAt (a : Answer) (k : ℕ) : Prop where
  pos : 0 < k
  answered : Answered (a.status k)
  busy : ∀ j, 0 < j → j < k → ¬Answered (a.status j)

/-- The address registers have one of the two signatures of packet devices. -/
def Signed (a : Answer) : Prop := a.lba1 = 0x14 ∧ a.lba2 = 0xEB ∨ a.lba1 = 0x69 ∧ a.lba2 = 0x96

instance (a : Answer) : Decidable a.Signed := inferInstanceAs (Decidable (_ ∨ _))

/-- What the drive identifies as: its kind and the block that describes it, or as none. -/
inductive Identifies (a : Answer) : Option (DeviceType × Mem) → Prop
  | absent (h : a.status 0 = 0) : Identifies a none
  | ata {k : ℕ} (h : a.status 0 ≠ 0) (hk : a.AnsweredAt k) (hok : a.status k &&& 0x01 = 0) :
    Identifies a (some (.ata, a.identify))
  | atapi {k : ℕ} (h : a.status 0 ≠ 0) (hk : a.AnsweredAt k) (herr : a.status k &&& 0x01 ≠ 0)
    (hsigned : a.Signed) : Identifies a (some (.atapi, a.identifyPacket))
  | unknown {k : ℕ} (h : a.status 0 ≠ 0) (hk : a.AnsweredAt k) (herr : a.status k &&& 0x01 ≠ 0)
    (hsigned : ¬a.Signed) : Identifies a none

end Answer

section

variable {bus : Bus} {a : Answer} {k : ℕ}

theorem awaitAnswer_of_answered (ha : bus.drives bus.selected = a)
    (h : Answered (a.status bus.polls)) : awaitAnswer bus =
      .inr (decide (a.status bus.polls &&& 0x01 ≠ 0), { bus with polls := bus.polls + 1 }) := by
  rw [awaitAnswer, Bus.inb, ha]
  by_cases herr : a.status bus.polls &&& 0x01 ≠ 0
  · rw [decide_eq_true herr]
    exact if_pos herr
  · rw [decide_eq_false herr]
    exact (if_neg herr).trans (if_pos (h.resolve_left herr))

theorem awaitAnswer_of_busy (ha : bus.drives bus.selected = a)
    (h : ¬Answered (a.status bus.polls)) :
    awaitAnswer bus = .inl { bus with polls := bus.polls + 1 } := by
  rw [Answered, not_or] at h
  rw [awaitAnswer, Bus.inb, ha]
  exact (if_neg h.1).trans (if_neg h.2)

/-- The loop waits until the drive has answered. -/
theorem returns_awaitAnswer (bus : Bus) (ha : bus.drives bus.selected = a) (hle : bus.polls ≤ k)
    (hk : Answered (a.status k)) (hbusy : ∀ j, bus.polls ≤ j → j < k → ¬Answered (a.status j)) :
    Returns (fun n => loop awaitAnswer n bus)
      (decide (a.status k &&& 0x01 ≠ 0), { bus with polls := k + 1 }) := by
  obtain ⟨d, rfl⟩ := Nat.exists_eq_add_of_le hle
  induction d generalizing bus with
  | zero => exact returns_loop_exit (awaitAnswer_of_answered ha hk)
  | succ d ih =>
    have hpolls : bus.polls + (d + 1) = bus.polls + 1 + d := by omega
    rw [returns_loop_next (awaitAnswer_of_busy ha (hbusy _ le_rfl (by omega)))]
    rw [hpolls] at hk hbusy ⊢
    exact ih { bus with polls := bus.polls + 1 } ha (Nat.le_add_right _ _) hk
      fun j hj => hbusy j (Nat.le_of_succ_le hj)

/-- The loop goes on for ever when the drive stays busy. -/
theorem diverges_awaitAnswer (bus : Bus) (ha : bus.drives bus.selected = a)
    (hbusy : ∀ j, bus.polls ≤ j → ¬Answered (a.status j)) :
    Diverges fun n => loop awaitAnswer n bus := by
  refine diverges_loop (fun b => b.drives b.selected = a ∧ bus.polls ≤ b.polls) ?_ ⟨ha, le_rfl⟩
  rintro b ⟨hb, hle⟩
  exact ⟨_, awaitAnswer_of_busy hb (hbusy _ hle), hb, Nat.le_succ_of_le hle⟩

end

/-! ## What the constructor says -/

/-- The device is what a drive identifies as. -/
def IDEDevice.Identified (drive : Fin 2) (old : IdentifiedDevice) :
    Option (DeviceType × Mem) → IdentifiedDevice → Prop
  | none, dev => dev.present = false ∧ dev.drive = drive
  | some (type, block), dev => dev = { old with drive := drive, type := type }.take block

section

variable {bus : Bus} {drive : Fin 2} {old : IdentifiedDevice} {r : Option (DeviceType × Mem)}
  {k : ℕ}

/-- The bus after a drive has been selected and asked, and its status read so many times. -/
def Bus.asked (bus : Bus) (drive : Fin 2) (polls : ℕ) : Bus := ⟨bus.drives, drive, 0xEC, polls⟩

theorem selected_eq (drive : Fin 2) :
    (if (0xA0 ||| BitVec.ofNat 8 drive <<< 4 : Byte).getLsbD 4 then (1 : Fin 2) else 0) =
      drive := by
  match drive with
  | 0 => rfl
  | 1 => rfl

/-- The constructor reads the status once, and then waits. -/
theorem new_eq (n : ℕ) : IDEDevice.new drive old bus n =
    if (bus.drives drive).status 0 = 0 then
      some ({ old with drive := drive, present := false }, bus.asked drive 1)
    else (loop awaitAnswer n (bus.asked drive 1)).map fun (err, bus) =>
      { old with drive := drive, present := false, type := .ata }.conclude err bus := by
  have hbus : (bus.outb 6 (0xA0 ||| BitVec.ofNat 8 drive <<< 4)).outb 7 0xEC =
      bus.asked drive 0 := by
    rw [Bus.outb, Bus.outb, selected_eq]
    rfl
  rw [IDEDevice.new, hbus]
  rfl

theorem returns_asked (hk : (bus.drives drive).AnsweredAt k) :
    Returns (fun n => loop awaitAnswer n (bus.asked drive 1))
      (decide ((bus.drives drive).status k &&& 0x01 ≠ 0), bus.asked drive (k + 1)) :=
  returns_awaitAnswer (bus.asked drive 1) rfl hk.pos hk.answered hk.busy

theorem conclude_ok (dev : IdentifiedDevice) :
    dev.conclude false (bus.asked drive k) =
      (dev.take (bus.drives drive).identify, bus.asked drive k) := rfl

theorem conclude_atapi (dev : IdentifiedDevice) (h : (bus.drives drive).Signed) :
    dev.conclude true (bus.asked drive k) =
      ({ dev with type := .atapi }.take (bus.drives drive).identifyPacket,
        ⟨bus.drives, drive, 0xA1, 0⟩) := if_pos h

theorem conclude_unknown (dev : IdentifiedDevice) (h : ¬(bus.drives drive).Signed) :
    dev.conclude true (bus.asked drive k) = (dev, bus.asked drive k) := if_neg h

/-- The constructor says what the drive identifies as. -/
theorem new_of_identifies (old : IdentifiedDevice) (h : (bus.drives drive).Identifies r) :
    ∃ dev bus', Returns (fun n => IDEDevice.new drive old bus n) (dev, bus') ∧
      IDEDevice.Identified drive old r dev ∧ bus'.drives = bus.drives := by
  simp only [new_eq]
  cases h with
  | absent h =>
    simp only [if_pos h]
    exact ⟨_, _, .pure _, ⟨rfl, rfl⟩, rfl⟩
  | ata h hk hok =>
    have hloop := (returns_asked hk).map fun (err, bus) =>
      { old with drive := drive, present := false, type := .ata }.conclude err bus
    simp only [decide_eq_false (not_not.2 hok), conclude_ok] at hloop
    simp only [if_neg h]
    exact ⟨_, _, hloop, rfl, rfl⟩
  | atapi h hk herr hsigned =>
    have hloop := (returns_asked hk).map fun (err, bus) =>
      { old with drive := drive, present := false, type := .ata }.conclude err bus
    simp only [decide_eq_true herr, conclude_atapi _ hsigned] at hloop
    simp only [if_neg h]
    exact ⟨_, _, hloop, rfl, rfl⟩
  | unknown h hk herr hsigned =>
    have hloop := (returns_asked hk).map fun (err, bus) =>
      { old with drive := drive, present := false, type := .ata }.conclude err bus
    simp only [decide_eq_true herr, conclude_unknown _ hsigned] at hloop
    simp only [if_neg h]
    exact ⟨_, _, hloop, ⟨rfl, rfl⟩, rfl⟩

/-- A drive identifies as something unless it stays busy for ever. -/
theorem exists_identifies_iff {a : Answer} :
    (∃ r, a.Identifies r) ↔ a.status 0 = 0 ∨ ∃ k, 0 < k ∧ Answered (a.status k) := by
  classical
  constructor
  · rintro ⟨r, h⟩
    cases h with
    | absent h => exact .inl h
    | ata _ hk _ => exact .inr ⟨_, hk.pos, hk.answered⟩
    | atapi _ hk _ _ => exact .inr ⟨_, hk.pos, hk.answered⟩
    | unknown _ hk _ _ => exact .inr ⟨_, hk.pos, hk.answered⟩
  · intro h
    by_cases h0 : a.status 0 = 0
    · exact ⟨none, .absent h0⟩
    have hex := h.resolve_left h0
    have hk : a.AnsweredAt (Nat.find hex) :=
      ⟨(Nat.find_spec hex).1, (Nat.find_spec hex).2, fun j hj hlt hans =>
        Nat.find_min hex hlt ⟨hj, hans⟩⟩
    by_cases herr : a.status (Nat.find hex) &&& 0x01 = 0
    · exact ⟨_, .ata h0 hk herr⟩
    by_cases hsigned : a.Signed
    · exact ⟨_, .atapi h0 hk herr hsigned⟩
    · exact ⟨_, .unknown h0 hk herr hsigned⟩

/-- The constructor returns unless the drive stays busy for ever. -/
theorem returns_new_iff : (∃ s, Returns (fun n => IDEDevice.new drive old bus n) s) ↔
    ∃ r, (bus.drives drive).Identifies r := by
  constructor
  · rintro ⟨s, h⟩
    rw [exists_identifies_iff]
    by_contra hne
    rw [not_or] at hne
    have hbusy : ∀ j, 0 < j → ¬Answered ((bus.drives drive).status j) :=
      fun j hj hans => hne.2 ⟨j, hj, hans⟩
    simp only [new_eq, if_neg hne.1] at h
    obtain ⟨n, hn⟩ := h.exists_fuel
    have hdiv : loop awaitAnswer n (bus.asked drive 1) = none :=
      diverges_awaitAnswer (bus.asked drive 1) rfl hbusy n
    rw [hdiv] at hn
    cases hn
  · rintro ⟨r, h⟩
    obtain ⟨dev, bus', hreturns, -, -⟩ := new_of_identifies old h
    exact ⟨_, hreturns⟩

end

/-! ## What the blocks describe -/

/-- What a drive has to say about itself. Its model is not filled up with spaces. -/
structure DriveInfo where
  signature : ℕ
  capabilities : ℕ
  commandSets : ℕ
  sectors : ℕ
  model : List Byte
  length_le : model.length ≤ 40
  ne_zero : 0 ∉ model
  getLast_ne : model.getLast? ≠ some 0x20

namespace DriveInfo

variable (info : DriveInfo)

/-- The characters of the model, and then spaces. -/
def char (i : ℕ) : Byte := info.model.getD i 0x20

/-- The block says so: of two characters of the model the first is in the high byte of a word, and
the number of sectors is where the command sets have it. -/
structure Describes (block : Mem) : Prop where
  signature : block.get16 0 = info.signature
  capabilities : block.get16 98 = info.capabilities
  commandSets : block.get32 164 = info.commandSets
  high : ∀ w < 20, block (54 + 2 * w + 1) = info.char (2 * w)
  low : ∀ w < 20, block (54 + 2 * w) = info.char (2 * w + 1)
  sectors : (if info.commandSets.testBit 26 then block.get64 200 else block.get32 120) =
    info.sectors

/-- The model, of which what follows it has been ended from the index `j` on. -/
def Trimmed (j : ℕ) (m : Cells Byte) : Prop :=
  ∀ i ≤ 40, m.vals i = if info.model.length ≤ i ∧ j ≤ i then 0 else info.char i

variable {info} {block : Mem} {m : Cells Byte} {i j : ℕ}

theorem char_of_lt (h : i < info.model.length) : info.char i = info.model[i] := by
  rw [char, List.getD_eq_getElem?_getD, List.getElem?_eq_getElem h, Option.getD_some]

theorem char_of_le (h : info.model.length ≤ i) : info.char i = 0x20 := by
  rw [char, List.getD_eq_getElem?_getD, List.getElem?_eq_none h, Option.getD_none]

theorem char_ne_zero : info.char i ≠ 0 := by
  rcases Nat.lt_or_ge i info.model.length with hlt | hge
  · rw [char_of_lt hlt]
    exact fun h => info.ne_zero (h ▸ List.getElem_mem hlt)
  · rw [char_of_le hge]
    decide

/-- The last character is no space. -/
theorem char_last (h : i + 1 = info.model.length) : info.char i ≠ 0x20 := by
  rw [char_of_lt (by omega)]
  intro heq
  refine info.getLast_ne ?_
  rw [List.getLast?_eq_getElem?, ← h, Nat.add_sub_cancel, List.getElem?_eq_getElem (by omega), heq]

/-- All characters are copied, in their order. -/
theorem Describes.trimmed_copyModel (h : info.Describes block) (m : Cells Byte) :
    info.Trimmed 40 (copyModel block m) := by
  have hround (n : ℕ) (hn : n ≤ 20) : ∀ i < 2 * n, ((List.range n).foldl (fun m i =>
      (m.set (2 * i) (block (54 + 2 * i + 1))).set (2 * i + 1) (block (54 + 2 * i))) m).vals i =
        info.char i := by
    induction n with
    | zero => exact fun i hi => absurd hi (Nat.not_lt_zero i)
    | succ n ih =>
      intro i hi
      rw [List.range_succ, List.foldl_append, List.foldl_cons, List.foldl_nil, h.high n (by omega),
        h.low n (by omega)]
      by_cases hlow : i = 2 * n + 1
      · rw [hlow, Cells.vals_set_self]
      by_cases hhigh : i = 2 * n
      · rw [Cells.vals_set_of_ne hlow, hhigh, Cells.vals_set_self]
      · rw [Cells.vals_set_of_ne hlow, Cells.vals_set_of_ne hhigh, ih (by omega) i (by omega)]
  intro i hi
  rw [copyModel]
  by_cases hlast : i = 40
  · rw [hlast, Cells.vals_set_self, if_pos ⟨info.length_le, le_rfl⟩]
  · rw [Cells.vals_set_of_ne hlast, hround 20 le_rfl i (by omega), if_neg (by omega)]

/-- A round ends the model earlier, unless it would take a character of it. -/
theorem Trimmed.round (h : info.Trimmed (j + 1) m) (hj : j < 40) :
    info.Trimmed j (trimRound m j) := by
  have hnow : m.vals j = info.char j := by rw [h j (by omega), if_neg (by omega)]
  have hnext := h (j + 1) (by omega)
  intro i hi
  rw [trimRound, hnow]
  split_ifs with hspace hend hend
  · rcases Nat.eq_or_lt_of_le hend.2 with rfl | hlt
    · rw [Cells.vals_set_self]
    · rw [Cells.vals_set_of_ne (by omega), h i hi, if_pos ⟨hend.1, hlt⟩]
  · -- The character is one of the model's, so the next one is, and not zero, or it is the last.
    by_cases hij : i = j
    · exfalso
      rw [hij, not_and_or, not_le, not_le] at hend
      have hlt : j < info.model.length := hend.resolve_right (lt_irrefl j)
      rcases Nat.lt_or_ge (j + 1) info.model.length with hlt' | hge
      · rw [hspace.1, if_neg (by omega)] at hnext
        exact char_ne_zero hnext.symm
      · exact char_last (by omega) hspace.2
    · rw [Cells.vals_set_of_ne hij, h i hi, if_neg (by omega)]
  · rcases Nat.eq_or_lt_of_le hend.2 with rfl | hlt
    · refine absurd ⟨?_, char_of_le hend.1⟩ hspace
      rw [hnext, if_pos ⟨by omega, le_rfl⟩]
    · rw [h i hi, if_pos ⟨hend.1, hlt⟩]
  · rw [h i hi, if_neg (by omega)]

theorem Trimmed.foldl (h : info.Trimmed j m) (hj : j ≤ 40) :
    info.Trimmed 0 ((List.range j).reverse.foldl trimRound m) := by
  induction j generalizing m with
  | zero => exact h
  | succ j ih =>
    rw [List.range_succ, List.reverse_append, List.reverse_singleton, List.singleton_append,
      List.foldl_cons]
    exact ih (h.round hj) (by omega)

/-- The model is a string in the end. -/
theorem Trimmed.holdsString (h : info.Trimmed 0 m) : HoldsString m info.model where
  chars i hi := by
    have hlen := info.length_le
    rw [h i (by omega), if_neg (by omega), char_of_lt hi, List.getElem?_eq_getElem hi]
  terminated := by rw [h _ info.length_le, if_pos ⟨le_rfl, Nat.zero_le _⟩]
  ne_zero := info.ne_zero

end DriveInfo

/-- The device shows what the drive has to say. -/
structure IdentifiedDevice.Shows (dev : IdentifiedDevice) (info : DriveInfo) : Prop where
  signature : dev.signature = info.signature
  capabilities : dev.capabilities = info.capabilities
  commandSets : dev.commandSets = info.commandSets
  getSize : dev.getSize = info.sectors
  getName : HoldsString dev.getName info.model

theorem take_deviceModel (dev : IdentifiedDevice) (block : Mem) :
    (dev.take block).deviceModel = trimModel (copyModel block dev.deviceModel) := by
  rw [IdentifiedDevice.take]

/-- What is taken from a block is what it describes. -/
theorem DriveInfo.Describes.shows_take {info : DriveInfo} {block : Mem} (h : info.Describes block)
    (dev : IdentifiedDevice) : (dev.take block).Shows info where
  signature := h.signature
  capabilities := h.capabilities
  commandSets := h.commandSets
  getSize := by
    have hbit : block.get32 164 &&& 1 <<< 26 ≠ 0 ↔ info.commandSets.testBit 26 = true := by
      rw [h.commandSets, Nat.testBit_eq_decide_div_mod_eq, decide_eq_true_eq]
      have hfield := and_field info.commandSets 26 1
      rw [show (2 ^ 1 - 1) * 2 ^ 26 = 1 <<< 26 from rfl] at hfield
      omega
    exact (if_congr hbit rfl rfl).trans h.sectors
  getName := by
    rw [IdentifiedDevice.getName, take_deviceModel, trimModel]
    exact ((h.trimmed_copyModel dev.deviceModel).foldl le_rfl).holdsString

/-- What the constructor makes of a drive: it is present if it identifies as a device, of that
kind, and shows what its block describes. -/
def IDEDevice.Finds (drive : Fin 2) (r : Option (DeviceType × Mem)) (dev : IdentifiedDevice) :
    Prop :=
  dev.drive = drive ∧ match r with
    | none => dev.present = false
    | some (type, block) => dev.present = true ∧ dev.type = type ∧
      ∀ info : DriveInfo, info.Describes block → dev.Shows info

theorem IDEDevice.Identified.finds {drive : Fin 2} {old dev : IdentifiedDevice}
    {r : Option (DeviceType × Mem)} (h : IDEDevice.Identified drive old r dev) :
    IDEDevice.Finds drive r dev := by
  match r, h with
  | none, h => exact ⟨h.2, h.1⟩
  | some (type, block), h =>
    subst h
    exact ⟨rfl, rfl, rfl, fun info hblock => hblock.shows_take _⟩

/-- Whatever was asked before, the constructor returns exactly when the drive ends its waiting, and
finds then what the drive identifies as, with what it has to say about itself. -/
theorem identify_describes (bus : Bus) (drive : Fin 2) (old : IdentifiedDevice) :
    ((∃ s, Returns (fun n => IDEDevice.new drive old bus n) s) ↔
      (bus.drives drive).status 0 = 0 ∨ ∃ k, 0 < k ∧ Answered ((bus.drives drive).status k)) ∧
    ∀ r, (bus.drives drive).Identifies r →
      ∃ dev bus', Returns (fun n => IDEDevice.new drive old bus n) (dev, bus') ∧
        IDEDevice.Finds drive r dev ∧ bus'.drives = bus.drives := by
  refine ⟨returns_new_iff.trans exists_identifies_iff, fun r h => ?_⟩
  obtain ⟨dev, bus', hreturns, hdev, hdrives⟩ := new_of_identifies old h
  exact ⟨dev, bus', hreturns, hdev.finds, hdrives⟩

/-- A disk of 2048 sectors, with sector numbers of 48 bits. -/
def smallDisk : DriveInfo where
  signature := 0x40
  capabilities := 0x200
  commandSets := 2 ^ 26
  sectors := 2048
  model := [0x51, 0x45, 0x4D, 0x55, 0x20, 0x48, 0x44]
  length_le := by decide
  ne_zero := by decide
  getLast_ne := by decide

def smallDiskBlock : Mem := fun i =>
  if i = 0 then 0x40
  else if i = 99 then 0x02
  else if i = 167 then 0x04
  else if i = 201 then 0x08
  else if 54 ≤ i ∧ i < 94 then
    [0x45, 0x51, 0x55, 0x4D, 0x48, 0x20, 0x20, 0x44].getD (i - 54) 0x20
  else 0

theorem describes_smallDiskBlock : smallDisk.Describes smallDiskBlock where
  signature := by decide
  capabilities := by decide
  commandSets := by decide
  high := by decide
  low := by decide
  sectors := by decide

/-- The disk stays busy for a while, and no other drive is there. -/
def smallDiskBus : Bus where
  drives
    | 0 => ⟨fun k => if k < 3 then 0x80 else 0x58, 0, 0, smallDiskBlock, fun _ => 0⟩
    | 1 => ⟨fun _ => 0, 0, 0, fun _ => 0, fun _ => 0⟩
  selected := 1
  command := 0
  polls := 0

theorem identifies_smallDisk :
    (smallDiskBus.drives 0).Identifies (some (.ata, smallDiskBlock)) :=
  .ata (k := 3) (by decide) ⟨by decide, .inr (by decide), fun j hj hlt => by
    interval_cases j <;> exact not_or.2 ⟨by decide, by decide⟩⟩ (by decide)

/-- Memory that holds any device. -/
def blankDevice : IdentifiedDevice := ⟨⟨1, .atapi, 0⟩, true, 0, 0, 0, ⟨fun _ => 0x41, []⟩⟩

theorem identify_describes_smallDisk :
    ∃ dev bus', Returns (fun n => IDEDevice.new 0 blankDevice smallDiskBus n) (dev, bus') ∧
      dev.present = true ∧ dev.type = .ata ∧ dev.Shows smallDisk := by
  obtain ⟨dev, bus', hreturns, ⟨-, hpresent, htype, hshows⟩, -⟩ :=
    (identify_describes smallDiskBus 0 blankDevice).2 _ identifies_smallDisk
  exact ⟨dev, bus', hreturns, hpresent, htype, hshows smallDisk describes_smallDiskBlock⟩

end SmartOS
