import SmartOS.IDE.Transfer

/-!
# Addressing of IDE devices

The commands that `readSectors` and `writeSectors` issue for an ATA device, with
the task file that the drive finds (`IDEDevice.readCommands`,
`IDEDevice.writeCommands`). The kind of address is chosen anew for every call with
at most 256 sectors, from where the call starts.

* `addressesDecode_iff`: the drive gets back the sector that a command is for,
  unless the sector is addressed by a cylinder from 256 on;
* `rangesFit_iff`: the last sector of a transfer can be addressed like the first,
  unless a call starts below `2 ^ 28` and goes on beyond.
-/

namespace SmartOS

open Prog

variable {dev : IDEDevice} {lba n : ℕ}

/-! ## Calls with at most 256 sectors -/

/-- A call with at most 256 sectors: where it starts, how far into the request that is, and with
    how many sectors. -/
structure Chunk where
  lba : ℕ
  offset : ℕ
  count : ℕ
  deriving Repr, DecidableEq

/-- The calls that a request is cut into. -/
def chunks (lba numSectors : ℕ) : List Chunk :=
  if numSectors > 256 then
    let whole := numSectors / 256 * 256
    (List.range (numSectors / 256)).map (fun k => ⟨wrap (lba + k * 256), k * 256, 256⟩) ++
      if numSectors &&& 0xFF ≠ 0 then [⟨wrap (lba + whole), whole, numSectors &&& 0xFF⟩] else []
  else [⟨lba, 0, numSectors⟩]

theorem readSectors_eq_foldl {dest : ℕ} {s : Mem × IDEChannel} : dev.readSectors lba dest n s =
    (chunks lba n).foldl (fun s c => dev.readChunk c.lba (dest + c.offset * 512) c.count s) s := by
  rw [IDEDevice.readSectors, chunks]
  dsimp only
  split_ifs
  · rw [List.foldl_append, List.foldl_map]
    rfl
  · rw [List.append_nil, List.foldl_map]
  · rw [List.foldl_cons, List.foldl_nil, Nat.zero_mul, Nat.add_zero]

theorem writeSectors_eq_foldl {m : Mem} {src : ℕ} {channel : IDEChannel} :
    dev.writeSectors lba m src n channel = (chunks lba n).foldl
      (fun channel c => dev.writeChunk c.lba m (src + c.offset * 512) c.count channel) channel := by
  rw [IDEDevice.writeSectors, chunks]
  dsimp only
  split_ifs
  · rw [List.foldl_append, List.foldl_map]
    rfl
  · rw [List.append_nil, List.foldl_map]
  · rw [List.foldl_cons, List.foldl_nil, Nat.zero_mul, Nat.add_zero]

/-- The call for the sectors from `256 * k` on. -/
def chunkAt (lba n k : ℕ) : Chunk := ⟨wrap (lba + 256 * k), 256 * k, min 256 (n - 256 * k)⟩

theorem chunkAt_of_lt {k : ℕ} (hk : k < n / 256) :
    chunkAt lba n k = ⟨wrap (lba + k * 256), k * 256, 256⟩ := by
  rw [chunkAt, Nat.mul_comm k, min_eq_left (by omega)]

theorem chunkAt_last :
    chunkAt lba n (n / 256) = ⟨wrap (lba + n / 256 * 256), n / 256 * 256, n % 256⟩ := by
  rw [chunkAt, Nat.mul_comm (n / 256), min_eq_right (by omega), ← Nat.mod_eq_sub_mul_div]

theorem chunkAt_zero (hn : n ≤ 256) (h : lba < 2 ^ 64) : chunkAt lba n 0 = ⟨lba, 0, n⟩ := by
  rw [chunkAt, Nat.mul_zero, Nat.add_zero, Nat.sub_zero, wrap_of_lt h, min_eq_right hn]

/-- The calls go on from where the last one ends. There is always a first one. -/
theorem mem_chunks {c : Chunk} (h : lba < 2 ^ 64) : c ∈ chunks lba n ↔
    ∃ k, (k = 0 ∨ 256 * k < n) ∧ c = chunkAt lba n k := by
  have hwhole : c ∈ (List.range (n / 256)).map
        (fun k => (⟨wrap (lba + k * 256), k * 256, 256⟩ : Chunk)) ↔
      ∃ k < n / 256, c = chunkAt lba n k := by
    simp only [List.mem_map, List.mem_range]
    exact exists_congr fun k => and_congr_right fun hk => by rw [chunkAt_of_lt hk, eq_comm]
  rw [chunks, and_0xFF]
  dsimp only
  split_ifs with hgt hrest
  · rw [List.mem_append, hwhole, List.mem_singleton, ← chunkAt_last]
    constructor
    · rintro (⟨k, hk, rfl⟩ | rfl)
      · exact ⟨k, .inr (by omega), rfl⟩
      · exact ⟨n / 256, .inr (by omega), rfl⟩
    · rintro ⟨k, hk, rfl⟩
      rcases Nat.lt_or_ge k (n / 256) with hlt | hge
      · exact .inl ⟨k, hlt, rfl⟩
      · obtain rfl : k = n / 256 := by omega
        exact .inr rfl
  · rw [List.append_nil, hwhole]
    refine exists_congr fun k => and_congr_left fun _ => ?_
    omega
  · rw [List.mem_singleton, ← chunkAt_zero (by omega) h]
    constructor
    · exact fun hc => ⟨0, .inl rfl, hc⟩
    · rintro ⟨k, hk, rfl⟩
      obtain rfl : k = 0 := by omega
      rfl

/-! ## Commands -/

/-- A command for a transfer: the sector that it is for, its code, and the task file that the
    drive finds. -/
structure Command where
  lba : ℕ
  code : ℕ
  taskFile : TaskFile
  deriving Repr, DecidableEq

namespace Command

/-- The command takes an address of 48 bits. -/
def Ext (c : Command) : Prop := c.code = 0x24 ∨ c.code = 0x34

instance (c : Command) : Decidable c.Ext :=
  inferInstanceAs (Decidable (c.code = 0x24 ∨ c.code = 0x34))

/-- The sector that the drive takes the address for. -/
def address (c : Command) : ℕ := if c.Ext then c.taskFile.addressExt else c.taskFile.address

/-- The number of sectors that the drive transfers. -/
def count (c : Command) : ℕ := sectorCount c.taskFile.seccount.current

end Command

namespace IDEDevice

/-- The command of a call, which is `ext` for addresses of 48 bits and `pio` else. -/
def transferCommand (dev : IDEDevice) (pio ext : ℕ) (c : Chunk) (channel : IDEChannel) :
    Command :=
  ⟨c.lba, if (dev.address c.lba).mode = .lba48 then ext else pio,
    (dev.ataSetUp c.lba (c.count &&& 0xFF) channel).drive.taskFile⟩

/-- The commands of calls, each in the state that the calls before it leave. -/
def commandLog {σ : Type*} (dev : IDEDevice) (pio ext : ℕ) (channel : σ → IDEChannel)
    (call : σ → Chunk → σ) : List Chunk → σ → List Command
  | [], _ => []
  | c :: l, s => dev.transferCommand pio ext c (channel s) ::
      commandLog dev pio ext channel call l (call s c)

/-- The commands for transfers that `readSectors` issues for an ATA device. -/
def readCommands (dev : IDEDevice) (lba dest numSectors : ℕ) (s : Mem × IDEChannel) :
    List Command :=
  dev.commandLog 0x20 0x24 Prod.snd
    (fun s c => dev.readChunk c.lba (dest + c.offset * 512) c.count s) (chunks lba numSectors) s

/-- The commands for transfers that `writeSectors` issues for an ATA device. -/
def writeCommands (dev : IDEDevice) (lba : ℕ) (m : Mem) (src numSectors : ℕ)
    (channel : IDEChannel) : List Command :=
  dev.commandLog 0x30 0x34 id
    (fun channel c => dev.writeChunk c.lba m (src + c.offset * 512) c.count channel)
    (chunks lba numSectors) channel

/-- A request for so many sectors, read or written, may issue the command: for a transfer to or
    from an ATA device. -/
def Issues (dev : IDEDevice) (lba numSectors : ℕ) (c : Command) : Prop :=
  dev.type = .ata ∧ ((∃ dest s, c ∈ dev.readCommands lba dest numSectors s) ∨
    ∃ m src channel, c ∈ dev.writeCommands lba m src numSectors channel)

end IDEDevice

/-- What the drive does with the command of a read. -/
theorem ataCommand_readCommand {c : Chunk} {channel : IDEChannel} :
    (dev.ataCommand c.lba (c.count &&& 0xFF) 0x20 0x24 channel).drive.transfer =
      .read (dev.transferCommand 0x20 0x24 c channel).address
        (dev.transferCommand 0x20 0x24 c channel).count := by
  rw [IDEDevice.ataCommand, write_command, IDEDevice.transferCommand]
  split_ifs <;> rfl

/-- What the drive does with the command of a write. -/
theorem ataCommand_writeCommand {c : Chunk} {channel : IDEChannel} :
    (dev.ataCommand c.lba (c.count &&& 0xFF) 0x30 0x34 channel).drive.transfer =
      .write (dev.transferCommand 0x30 0x34 c channel).address
        (dev.transferCommand 0x30 0x34 c channel).count := by
  rw [IDEDevice.ataCommand, write_command, IDEDevice.transferCommand]
  split_ifs <;> rfl

section Log

variable {σ : Type*} {pio ext : ℕ} {channel : σ → IDEChannel} {call : σ → Chunk → σ}
  {l : List Chunk} {s : σ}

theorem exists_chunk_of_mem {x : Command} (hx : x ∈ dev.commandLog pio ext channel call l s) :
    ∃ c ∈ l, ∃ channel, x = dev.transferCommand pio ext c channel := by
  induction l generalizing s with
  | nil => exact absurd hx List.not_mem_nil
  | cons c l ih =>
    rcases List.mem_cons.1 hx with rfl | hx
    · exact ⟨c, List.mem_cons_self, channel s, rfl⟩
    · obtain ⟨c', hc', hx'⟩ := ih hx
      exact ⟨c', List.mem_cons_of_mem _ hc', hx'⟩

theorem exists_mem_of_chunk {c : Chunk} (hc : c ∈ l) :
    ∃ channel', dev.transferCommand pio ext c channel' ∈
      dev.commandLog pio ext channel call l s := by
  induction l generalizing s with
  | nil => exact absurd hc List.not_mem_nil
  | cons c' l ih =>
    rcases List.mem_cons.1 hc with rfl | hc
    · exact ⟨channel s, List.mem_cons_self⟩
    · obtain ⟨channel', hmem⟩ := ih hc
      exact ⟨channel', List.mem_cons_of_mem _ hmem⟩

end Log

/-- The codes of the commands for transfers, without and with an address of 48 bits. -/
def TransferCodes (pio ext : ℕ) : Prop := pio = 0x20 ∧ ext = 0x24 ∨ pio = 0x30 ∧ ext = 0x34

/-- What holds of all commands that a request issues, if it only depends on the call. -/
theorem forall_issues_iff {P : Command → Prop} {Q : Chunk → Prop} (hata : dev.type = .ata)
    (hPQ : ∀ c ∈ chunks lba n, ∀ pio ext channel, TransferCodes pio ext →
      (P (dev.transferCommand pio ext c channel) ↔ Q c)) :
    (∀ x, dev.Issues lba n x → P x) ↔ ∀ c ∈ chunks lba n, Q c := by
  constructor
  · intro h c hc
    obtain ⟨channel, hmem⟩ := exists_mem_of_chunk hc
    exact (hPQ c hc _ _ channel (.inl ⟨rfl, rfl⟩)).1
      (h _ ⟨hata, .inl ⟨0, (fun _ => 0, .reset fun _ => 0), hmem⟩⟩)
  · rintro h x ⟨-, ⟨dest, s, hx⟩ | ⟨m, src, channel, hx⟩⟩
    · obtain ⟨c, hc, channel, rfl⟩ := exists_chunk_of_mem hx
      exact (hPQ c hc _ _ channel (.inl ⟨rfl, rfl⟩)).2 (h c hc)
    · obtain ⟨c, hc, channel, rfl⟩ := exists_chunk_of_mem hx
      exact (hPQ c hc _ _ channel (.inr ⟨rfl, rfl⟩)).2 (h c hc)

variable {pio ext : ℕ} {c : Chunk} {channel : IDEChannel}

theorem transferCommand_ext (hcodes : TransferCodes pio ext) :
    (dev.transferCommand pio ext c channel).Ext ↔ (dev.address c.lba).mode = .lba48 := by
  rw [IDEDevice.transferCommand]
  rcases hcodes with ⟨rfl, rfl⟩ | ⟨rfl, rfl⟩ <;> split_ifs with hmode <;>
    simp [Command.Ext, hmode]

theorem transferCommand_address (hcodes : TransferCodes pio ext)
    (h : c.lba < (dev.address c.lba).mode.limit) :
    (dev.transferCommand pio ext c channel).address =
      if (dev.address c.lba).mode = .chs then c.lba % (256 * 16 * 63) else c.lba := by
  obtain ⟨-, -, haddress⟩ := ataSetUp_address (c.count &&& 0xFF) channel h
  have hext : (dev.transferCommand pio ext c channel).Ext ↔ _ := transferCommand_ext hcodes
  rw [Command.address]
  cases hmode : (dev.address c.lba).mode with
  | chs =>
    rw [hmode] at haddress hext
    rwa [if_neg (by simp [hext]), if_pos rfl]
  | lba28 =>
    rw [hmode] at haddress hext
    rwa [if_neg (by simp [hext]), if_neg (by decide)]
  | lba48 =>
    rw [hmode] at haddress hext
    rwa [if_pos (by simp [hext]), if_neg (by decide)]

theorem transferCommand_count :
    (dev.transferCommand pio ext c channel).count = sectorCount (c.count % 256) := by
  rw [← and_0xFF]
  rfl

theorem address_mode : (dev.address lba).mode =
    if 0x10000000 ≤ lba then .lba48
    else if dev.capabilities &&& 0x200 ≠ 0 then .lba28 else .chs := by
  rw [IDEDevice.address]
  split_ifs <;> rfl

/-! ## Sectors -/

/-- The drive gets back the sector that a command is for, as far as its kind of address reaches. -/
def AddressesDecode (dev : IDEDevice) (lba n : ℕ) : Prop :=
  ∀ c, dev.Issues lba n c → c.lba < (dev.address c.lba).mode.limit → c.address = c.lba

theorem decodes_iff (hcodes : TransferCodes pio ext) :
    (c.lba < (dev.address c.lba).mode.limit →
        (dev.transferCommand pio ext c channel).address = c.lba) ↔
      (dev.capabilities &&& 0x200 = 0 → c.lba < 65536 * 16 * 63 → c.lba < 256 * 16 * 63) := by
  -- The remainder is the sector itself unless it is too large.
  have hmod : c.lba % (256 * 16 * 63) = c.lba ↔ c.lba < 256 * 16 * 63 :=
    Nat.mod_eq_iff_lt (by decide)
  constructor
  · intro h hcap hlt
    have hmode : (dev.address c.lba).mode = .chs := by
      rw [address_mode, if_neg (by omega), if_neg (not_not.2 hcap)]
    have hlimit : c.lba < (dev.address c.lba).mode.limit := by rwa [hmode]
    have haddress := (transferCommand_address hcodes hlimit).symm.trans (h hlimit)
    rwa [if_pos hmode, hmod] at haddress
  · intro h hlimit
    rw [transferCommand_address hcodes hlimit]
    split_ifs with hchs
    · have hcap : dev.capabilities &&& 0x200 = 0 := by
        rw [address_mode] at hchs
        by_contra hcap
        split_ifs at hchs
      rw [hchs] at hlimit
      exact hmod.2 (h hcap hlimit)
    · rfl

/-- Sectors are addressed correctly by number, and by cylinder only below the cylinder 256. -/
theorem addressesDecode_iff (hata : dev.type = .ata) (h : lba < 2 ^ 64) :
    AddressesDecode dev lba n ↔ dev.capabilities &&& 0x200 = 0 →
      ∀ k, k = 0 ∨ 256 * k < n → wrap (lba + 256 * k) < 65536 * 16 * 63 →
        wrap (lba + 256 * k) < 256 * 16 * 63 := by
  rw [AddressesDecode, forall_issues_iff hata fun _ _ _ _ _ hcodes => decodes_iff hcodes]
  constructor
  · exact fun hall hcap k hk => hall _ ((mem_chunks h).2 ⟨k, hk, rfl⟩) hcap
  · intro hall c hc hcap
    obtain ⟨k, hk, rfl⟩ := (mem_chunks h).1 hc
    exact hall hcap k hk

theorem addressesDecode_second_cylinder :
    AddressesDecode ⟨0, .ata, 0⟩ 1008 1 :=
  (addressesDecode_iff rfl (by decide)).2 fun _ k hk _ => by
    obtain rfl : k = 0 := by omega
    rw [wrap_of_lt (by decide)]
    decide

/-- The cylinder 256 is addressed as the cylinder 0. -/
theorem not_addressesDecode : ¬∀ (dev : IDEDevice) (lba n : ℕ), dev.type = .ata → lba < 2 ^ 64 →
    AddressesDecode dev lba n := by
  intro hall
  have hissues : (⟨0, .ata, 0⟩ : IDEDevice).Issues 258048 1
      (IDEDevice.transferCommand ⟨0, .ata, 0⟩ 0x20 0x24 ⟨258048, 0, 1⟩ (.reset fun _ => 0)) :=
    ⟨rfl, .inl ⟨0, (fun _ => 0, .reset fun _ => 0), List.mem_cons_self⟩⟩
  have haddress := hall ⟨0, .ata, 0⟩ 258048 1 rfl (by decide) _ hissues (by decide)
  exact absurd haddress (by decide)

/-! ## Ranges -/

/-- A command reaches the last sector of its transfer. -/
def RangesFit (dev : IDEDevice) (lba n : ℕ) : Prop :=
  ∀ c, dev.Issues lba n c → c.address + c.count ≤ if c.Ext then 2 ^ 48 else 2 ^ 28

theorem fits_iff (hcodes : TransferCodes pio ext) (hcap : dev.capabilities &&& 0x200 ≠ 0)
    (hcount : 1 ≤ c.count ∧ c.count ≤ 256) (h : c.lba + c.count ≤ 2 ^ 48) :
    ((dev.transferCommand pio ext c channel).address +
        (dev.transferCommand pio ext c channel).count ≤
          if (dev.transferCommand pio ext c channel).Ext then 2 ^ 48 else 2 ^ 28) ↔
      (c.lba < 2 ^ 28 → c.lba + c.count ≤ 2 ^ 28) := by
  have hcount' : sectorCount (c.count % 256) = c.count := by
    rw [sectorCount]
    split_ifs <;> omega
  have hext : (dev.transferCommand pio ext c channel).Ext ↔ _ := transferCommand_ext hcodes
  rw [transferCommand_count, hcount']
  by_cases hge : 0x10000000 ≤ c.lba
  · have hmode : (dev.address c.lba).mode = .lba48 := by rw [address_mode, if_pos hge]
    rw [transferCommand_address hcodes (by rw [hmode, AddressMode.limit]; omega), hmode,
      if_neg (by decide), if_pos (hext.2 hmode)]
    omega
  · have hmode : (dev.address c.lba).mode = .lba28 := by
      rw [address_mode, if_neg hge, if_pos hcap]
    rw [transferCommand_address hcodes (by rw [hmode, AddressMode.limit]; omega), hmode,
      if_neg (by decide), if_neg (by rw [hext, hmode]; decide)]
    omega

/-- Transfers stay within the reach of their addresses exactly if no call crosses `2 ^ 28`. -/
theorem rangesFit_iff (hata : dev.type = .ata) (hcap : dev.capabilities &&& 0x200 ≠ 0)
    (hn : 1 ≤ n) (h : lba + n ≤ 2 ^ 48) :
    RangesFit dev lba n ↔ lba + n ≤ 2 ^ 28 ∨ 2 ^ 28 ≤ lba ∨ lba % 256 = 0 := by
  have hmem (c : Chunk) : c ∈ chunks lba n ↔ ∃ k, 256 * k < n ∧
      c = ⟨lba + 256 * k, 256 * k, min 256 (n - 256 * k)⟩ := by
    rw [mem_chunks (by omega)]
    refine exists_congr fun k => ?_
    rw [or_iff_right_of_imp (by omega)]
    refine and_congr_right fun hk => ?_
    rw [chunkAt, wrap_of_lt (by omega)]
  have hfits : RangesFit dev lba n ↔
      ∀ c ∈ chunks lba n, c.lba < 2 ^ 28 → c.lba + c.count ≤ 2 ^ 28 :=
    forall_issues_iff hata fun c hc _ _ _ hcodes => by
      obtain ⟨k, hk, rfl⟩ := (hmem c).1 hc
      exact fits_iff hcodes hcap (by dsimp only; omega) (by dsimp only; omega)
  rw [hfits]
  constructor
  · intro hall
    by_contra! hcross
    -- The call with the sector `2 ^ 28` starts below it.
    have hk : 256 * ((2 ^ 28 - lba) / 256) < n := by omega
    have hfit := hall _ ((hmem _).2 ⟨_, hk, rfl⟩)
    dsimp only at hfit
    omega
  · intro hle c hc
    obtain ⟨k, hk, rfl⟩ := (hmem c).1 hc
    dsimp only
    omega

theorem rangesFit_aligned : RangesFit ⟨0, .ata, 0x200⟩ (2 ^ 28 - 256) 512 :=
  (rangesFit_iff rfl (by decide) (by decide) (by decide)).2 (.inr (.inr (by decide)))

/-- Two sectors around the limit are one command with an address of 28 bits. -/
theorem not_rangesFit : ¬∀ (dev : IDEDevice) (lba n : ℕ), dev.type = .ata →
    dev.capabilities &&& 0x200 ≠ 0 → 1 ≤ n → lba + n ≤ 2 ^ 48 → RangesFit dev lba n := by
  intro hall
  have hissues : (⟨0, .ata, 0x200⟩ : IDEDevice).Issues (2 ^ 28 - 1) 2
      (IDEDevice.transferCommand ⟨0, .ata, 0x200⟩ 0x20 0x24 ⟨2 ^ 28 - 1, 0, 2⟩
        (.reset fun _ => 0)) :=
    ⟨rfl, .inl ⟨0, (fun _ => 0, .reset fun _ => 0), List.mem_cons_self⟩⟩
  have hfit := hall ⟨0, .ata, 0x200⟩ (2 ^ 28 - 1) 2 rfl (by decide) (by decide) (by decide) _
    hissues
  exact absurd hfit (by decide)

end SmartOS
