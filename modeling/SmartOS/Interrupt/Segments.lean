import SmartOS.Interrupt.Frame

/-!
# Segments

The table of segments of `GDT.cpp`, `load_gdt`, and what the processor checks when a
segment register is loaded. The table has two segments, of code and of data, both for
the kernel; the selectors of the threads of users name entries that are null.

* `gdtEntries`, `initializeGDT`: the source;
* `dataFault`, `returnFault`: the exceptions with which the processor refuses a
  selector for data, or those of the code and the stack that `iretq` returns to;
* `Machine.runChecked`: instructions, up to the first one that faults;
* `exit_ok`, `exit_fault`: the way back from an interrupt, where the processor accepts
  all selectors, and where it refuses the first one;
* `initializeGDT_spec`: what the processor has loaded from then on.
-/

namespace SmartOS

open Prog

/-! ## The table -/

structure GDTEntry where
  limit0 : ℕ
  base0 : ℕ
  base1 : ℕ
  access : ℕ
  limit1 : ℕ
  flags : ℕ
  base2 : ℕ
  deriving Repr, DecidableEq

/-- `GDTEntry()` -/
def GDTEntry.empty : GDTEntry := ⟨0, 0, 0, 0, 0, 0, 0⟩

/-- `GDTEntry(base, limit, access, flags)` -/
def GDTEntry.new (base limit access flags : ℕ) : GDTEntry where
  limit0 := limit &&& 0xFFFF
  base0 := base &&& 0xFFFF
  base1 := (base >>> 16) &&& 0xFF
  access := access
  limit1 := (limit >>> 16) &&& 0xF
  flags := flags
  base2 := (base >>> 24) &&& 0xFF

/-- The entries of `GDT()`. -/
def gdtEntries : List GDTEntry :=
  let entries := List.replicate 20 GDTEntry.empty
  let entries := entries.set 0 GDTEntry.empty
  let entries := entries.set 1 (GDTEntry.new 0 0xFFFFF 0x9A 0xA)
  entries.set 2 (GDTEntry.new 0 0xFFFFF 0x92 0xC)

/-! ## The processor -/

namespace GDTEntry

/-- The bits of `access` that the processor looks at. -/
def present (e : GDTEntry) : Bool := e.access.testBit 7
def dpl (e : GDTEntry) : ℕ := (e.access >>> 5) % 4
def isSegment (e : GDTEntry) : Bool := e.access.testBit 4
def isCode (e : GDTEntry) : Bool := e.isSegment && e.access.testBit 3
def isData (e : GDTEntry) : Bool := e.isSegment && !e.access.testBit 3
def conforming (e : GDTEntry) : Bool := e.access.testBit 2
def readable (e : GDTEntry) : Bool := e.isData || e.access.testBit 1
def writable (e : GDTEntry) : Bool := e.isData && e.access.testBit 1

/-- Code of 64 bits, and of 32 bits: not both. -/
def long (e : GDTEntry) : Bool := e.flags.testBit 1
def big (e : GDTEntry) : Bool := e.flags.testBit 2

end GDTEntry

/-- An exception, with its error code. -/
structure Fault where
  vector : Fin 32
  errorCode : ℕ
  deriving Repr, DecidableEq

/-- A selector is 16 bits, the two lowest of which are the privilege that is requested. -/
def rpl (v : ℕ) : ℕ := v % 4

/-- The error code for a selector. -/
def selectorCode (v : ℕ) : ℕ := v % 0x10000 / 4 * 4

/-- The null selector, with any privilege. -/
def isNull (v : ℕ) : Prop := v % 0x10000 / 4 = 0

instance (v : ℕ) : Decidable (isNull v) := inferInstanceAs (Decidable (_ = _))

/-- The entry that a selector names. The kernel never loads a local table. -/
def namedEntry (table : List GDTEntry) (v : ℕ) : Option GDTEntry :=
  if v.testBit 2 then none else table[v % 0x10000 / 8]?

/-- Why the processor, at the privilege `cpl`, does not load `ds`, `es`, `fs` or `gs` with a
    selector. -/
def dataFault (table : List GDTEntry) (cpl v : ℕ) : Option Fault :=
  if isNull v then none
  else match namedEntry table v with
    | none => some ⟨13, selectorCode v⟩
    | some e =>
      if !(e.isSegment && e.readable) then some ⟨13, selectorCode v⟩
      else if (e.isData || !e.conforming) ∧ (e.dpl < rpl v ∨ e.dpl < cpl) then
        some ⟨13, selectorCode v⟩
      else if !e.present then some ⟨11, selectorCode v⟩
      else none

/-- Why `iretq` does not return to the code segment. -/
def codeFault (table : List GDTEntry) (cpl cs : ℕ) : Option Fault :=
  if isNull cs then some ⟨13, 0⟩
  else match namedEntry table cs with
    | none => some ⟨13, selectorCode cs⟩
    | some e =>
      if !e.isCode ∨ rpl cs < cpl then some ⟨13, selectorCode cs⟩
      else if (if e.conforming then rpl cs < e.dpl else e.dpl ≠ rpl cs) then
        some ⟨13, selectorCode cs⟩
      else if e.long ∧ e.big then some ⟨13, selectorCode cs⟩
      else if !e.present then some ⟨11, selectorCode cs⟩
      else none

/-- Why `iretq` does not load the stack segment, on its way to the code segment. -/
def stackFault (table : List GDTEntry) (cs ss : ℕ) : Option Fault :=
  if isNull ss then if rpl cs = 3 then some ⟨13, 0⟩ else none
  else match namedEntry table ss with
    | none => some ⟨13, selectorCode ss⟩
    | some e =>
      if rpl ss ≠ rpl cs ∨ !e.writable ∨ e.dpl ≠ rpl cs then some ⟨13, selectorCode ss⟩
      else if !e.present then some ⟨12, selectorCode ss⟩
      else none

def returnFault (table : List GDTEntry) (cpl cs ss : ℕ) : Option Fault :=
  (codeFault table cpl cs).or (stackFault table cs ss)

namespace Machine

/-- The privilege that the processor runs at. -/
def cpl (m : Machine) : ℕ := rpl m.regs.cs

/-- The fault of an instruction, as far as segments are concerned. -/
def fault (table : List GDTEntry) (m : Machine) : Instr → Option Fault
  | .mov dst src => if dst ∈ segmentRegs then dataFault table m.cpl (m.regs.get src) else none
  | .iretq => returnFault table m.cpl (m.mem (m.regs.rsp + 8)) (m.mem (m.regs.rsp + 32))
  | _ => none

/-- Instructions, up to one that faults: then the machine is as it was before that one. -/
def runChecked (table : List GDTEntry) (m : Machine) : List Instr → Except (Fault × Machine) Machine
  | [] => .ok m
  | i :: code =>
    match m.fault table i with
    | none => (m.step i).runChecked table code
    | some f => .error (f, m)

end Machine

/-! ## `load_gdt` -/

/-- `load_gdt`, where `label` is the address of `.l`. It is called with the selectors of `cs`, `ds`,
    `es`, `fs` and `gs` in `rsi`, `rdx`, `rcx`, `r8` and `r9`, and that of `ss` on the stack. -/
def loadGdt (table : List GDTEntry) (label : ℕ) (m : Machine) : Except (Fault × Machine) Machine :=
  -- mov rax, [rsp + 8]
  let m := { m with regs := m.regs.set .rax (m.mem (m.regs.rsp + 8)) }
  -- The table is loaded here, and nothing uses it before `iretq`.
  let m := m.run [.push .rbp, .mov .rbx .rdi, .mov .rbx .rsp, .push .rax, .push .rbx]
  -- pushfq
  let m := m.push m.regs.rflags
  let m := m.run [.push .rsi, .pushImm label]
  (m.runChecked table [.iretq, .mov .rbp .rsp, .mov .gs .r9, .mov .es .r8, .mov .fs .rcx,
    .mov .ds .rdx, .mov .rsp .rbp, .pop .rbp]).map fun m =>
      -- ret
      { m with regs := { m.regs with rip := m.mem m.regs.rsp, rsp := m.regs.rsp + 8 } }

/-- The arguments that `GDT::load` calls it with, and the address that it returns to. -/
def loadGdtCall (address cs ds es fs gs ss label : ℕ) (m : Machine) : Machine :=
  let m := m.push ss
  let m := m.push label
  { m with regs := { m.regs with
    rdi := address, rsi := cs, rdx := ds, rcx := es, r8 := fs, r9 := gs } }

/-- `initializeGDT()`, from the call of `load_gdt` to its return; `address` is that of the pointer
    to the table. -/
def initializeGDT (address caller label : ℕ) (m : Machine) : Except (Fault × Machine) Machine :=
  loadGdt gdtEntries label (loadGdtCall address 0x8 0x10 0x10 0x10 0x10 0x10 caller m)

/-! ## Specification -/

/-- The processor runs at the privilege of the kernel, in its segments. -/
structure Registers.Supervisor (r : Registers) : Prop where
  cs : r.cs = 0x8
  ds : r.ds = 0x10
  es : r.es = 0x10
  fs : r.fs = 0x10
  gs : r.gs = 0x10
  ss : r.ss = 0x10

/-- The same segments are loaded. -/
structure Registers.SameSegments (r r' : Registers) : Prop where
  cs : r'.cs = r.cs
  ds : r'.ds = r.ds
  es : r'.es = r.es
  fs : r'.fs = r.fs
  gs : r'.gs = r.gs
  ss : r'.ss = r.ss

/-- The processor, at the privilege `cpl`, accepts the selectors of the structure. -/
structure CPURegisters.Accepted (table : List GDTEntry) (cpl : ℕ) (c : CPURegisters) : Prop where
  data : ∀ v ∈ [c.gs, c.es, c.fs, c.ds], dataFault table cpl v = none
  code : returnFault table cpl c.cs c.ss = none

/-! ## The way back from an interrupt -/

variable {m : Machine} {table : List GDTEntry} {top w : ℕ} {regs : Registers} {ws : List ℕ}
  {code code' : List Instr} {f : Fault}

namespace Machine

theorem runChecked_append (h : m.runChecked table code = .ok (m.run code)) :
    m.runChecked table (code ++ code') = (m.run code).runChecked table code' := by
  induction code generalizing m with
  | nil => rfl
  | cons i code ih =>
    rw [runChecked] at h
    cases hi : m.fault table i with
    | none =>
      rw [hi] at h
      rw [List.cons_append, runChecked, hi]
      exact ih h
    | some f =>
      rw [hi] at h
      cases h

/-- Popping a register faults never. -/
theorem runChecked_pop (rs : List Reg) :
    m.runChecked table (rs.map .pop) = .ok (m.run (rs.map .pop)) := by
  induction rs generalizing m with
  | nil => rfl
  | cons r rs ih => exact ih

/-- Segment registers are popped if the processor accepts what is popped. -/
theorem At.runChecked_pop_segments (rs : List Reg) (vs : List ℕ) (h : m.At top regs (vs ++ ws))
    (hlength : rs.length = vs.length) (hrs : ∀ r ∈ rs, r ∈ segmentRegs)
    (hvs : ∀ v ∈ vs, dataFault table (rpl regs.cs) v = none) :
    m.runChecked table (rs.flatMap fun r => [.pop .rax, .mov r .rax]) =
      .ok (m.run (rs.flatMap fun r => [.pop .rax, .mov r .rax])) := by
  induction rs generalizing m regs vs with
  | nil => rfl
  | cons r rs ih =>
    cases vs with
    | nil => simp at hlength
    | cons v vs =>
      have hr := hrs r List.mem_cons_self
      have hne : r ≠ .rsp := by rintro rfl; exact absurd hr (by decide)
      have hpop : (m.step (.pop .rax)).At top (regs.set .rax v) (vs ++ ws) :=
        h.step_pop (by decide)
      have hcs : (((regs.set .rax v).set r v)).cs = regs.cs := by cases r <;> rfl
      have hfault : (m.step (.pop .rax)).fault table (.mov r .rax) = none := by
        rw [fault, if_pos hr, cpl, hpop.regs]
        exact hvs v List.mem_cons_self
      rw [List.flatMap_cons, List.cons_append, runChecked]
      show (m.step (.pop .rax)).runChecked table (.mov r .rax :: _) = _
      rw [runChecked, hfault]
      exact ih vs (hpop.step_mov hne (by decide)) (by simpa using hlength)
        (fun r' h' => hrs r' (List.mem_cons_of_mem r h'))
        fun v' h' => hcs.symm ▸ hvs v' (List.mem_cons_of_mem v h')

end Machine

/-- The structure on the stack, as words that have been pushed. -/
theorem at_read : m.At (m.regs.rsp + 8 * 26) m.regs (CPURegisters.read m.mem m.regs.rsp).words := by
  refine ⟨Nat.le_add_left _ _, ?_, ?_⟩
  · show m.regs = { m.regs with rsp := m.regs.rsp + 8 * 26 - 8 * 26 }
    rw [Nat.add_sub_cancel]
  · show Holds m.mem (m.regs.rsp + 8 * 26 - 8 * 26) _
    rw [Nat.add_sub_cancel]
    exact CPURegisters.holds_words _ _

/-- If the processor accepts the selectors, the interrupted program goes on. -/
theorem exit_ok (h : (CPURegisters.read m.mem m.regs.rsp).Accepted table m.cpl) :
    m.runChecked table commonExit = .ok (m.run commonExit) := by
  obtain ⟨c, hc⟩ : ∃ c, c = CPURegisters.read m.mem m.regs.rsp := ⟨_, rfl⟩
  have hstart : m.At (m.regs.rsp + 8 * 26) m.regs c.words := hc ▸ at_read
  rw [← hc] at h
  have hchecked := hstart.runChecked_pop_segments segmentRegs.reverse [c.gs, c.es, c.fs, c.ds] rfl
    (by decide) h.data
  have hsegments := hstart.run_pop_segments segmentRegs.reverse [c.gs, c.es, c.fs, c.ds] rfl
    (by decide)
  have hgeneral := hsegments.run_pop generalRegs.reverse [c.r15, c.r14, c.r13, c.r12, c.r11, c.r10,
    c.r9, c.r8, c.rbp, c.rdi, c.rsi, c.rdx, c.rcx, c.rbx, c.rax] rfl (by decide)
  rw [commonExit_eq, List.append_assoc, Machine.runChecked_append hchecked,
    Machine.runChecked_append (Machine.runChecked_pop _), Machine.run_append, Machine.run_append]
  generalize Machine.run _ (generalRegs.reverse.map _) = m' at hgeneral ⊢
  obtain ⟨-, hregs, hholds⟩ := hgeneral
  -- What is left are the number, the error code, and the frame that `iretq` takes.
  obtain ⟨-, -, -, hcs, -, -, hss, -⟩ := hholds
  have haddr : m'.regs.rsp + 16 = m.regs.rsp + 8 * 26 - 8 * 7 + 8 + 8 := by rw [hregs]; rfl
  have hcpl : m'.cpl = m.cpl := by rw [Machine.cpl, hregs]; rfl
  have hfault : (m'.step (.addImm .rsp 16)).fault table .iretq = none := by
    show returnFault table m'.cpl (m'.mem (m'.regs.rsp + 16 + 8))
      (m'.mem (m'.regs.rsp + 16 + 32)) = none
    rw [haddr, hcpl]
    dsimp only [List.length_cons, List.length_nil] at hcs hss
    rw [hcs, hss]
    exact h.code
  show (m'.step (.addImm .rsp 16)).runChecked table [.iretq] = _
  rw [Machine.runChecked, hfault]
  rfl

/-- If it refuses that of `gs`, which comes first, there is a fault before anything else. -/
theorem exit_fault
    (h : dataFault table m.cpl (CPURegisters.read m.mem m.regs.rsp).gs = some f) :
    m.runChecked table commonExit = .error (f, m.step (.pop .rax)) := by
  have hfault : (m.step (.pop .rax)).fault table (.mov .gs .rax) = some f := h
  show (m.step (.pop .rax)).runChecked table (.mov .gs .rax :: _) = _
  rw [Machine.runChecked, hfault]

/-! ## The selectors of the kernel and of users -/

/-- The processor accepts what the kernel has loaded, -/
theorem Registers.Supervisor.accepted {c : CPURegisters} (h : c.restored.Supervisor) :
    c.Accepted gdtEntries 0 where
  data v hv := by
    obtain ⟨-, hds, hfs, hes, hgs, -⟩ := h
    dsimp only [CPURegisters.restored] at hds hfs hes hgs
    have hv' : v = 0x10 := by simpa [hds, hfs, hes, hgs] using hv
    subst hv'
    decide
  code := by
    show returnFault gdtEntries 0 c.restored.cs c.restored.ss = none
    rw [h.cs, h.ss]
    decide

/-- and does not enter a thread of a user. -/
theorem dataFault_user (rip rsp : ℕ) :
    dataFault gdtEntries 0 (initialState true rip rsp).gs = some ⟨13, 0x20⟩ := by
  show dataFault gdtEntries 0 0x23 = _
  decide

/-! ## The way into a handler -/

/-- The instruction may load a segment. -/
def Instr.loadsSegment : Instr → Bool
  | .pop r => decide (r ∈ segmentRegs)
  | .mov dst _ => decide (dst ∈ segmentRegs)
  | .addImm dst _ => decide (dst ∈ segmentRegs)
  | .iretq => true
  | _ => false

theorem Registers.SameSegments.refl (r : Registers) : r.SameSegments r :=
  ⟨rfl, rfl, rfl, rfl, rfl, rfl⟩

theorem Registers.SameSegments.trans {r r' r'' : Registers} (h : r.SameSegments r')
    (h' : r'.SameSegments r'') : r.SameSegments r'' :=
  ⟨h'.cs.trans h.cs, h'.ds.trans h.ds, h'.es.trans h.es, h'.fs.trans h.fs, h'.gs.trans h.gs,
    h'.ss.trans h.ss⟩

theorem Registers.Supervisor.congr {r r' : Registers} (h : r.Supervisor) (hr : r.SameSegments r') :
    r'.Supervisor :=
  ⟨hr.cs.trans h.cs, hr.ds.trans h.ds, hr.es.trans h.es, hr.fs.trans h.fs, hr.gs.trans h.gs,
    hr.ss.trans h.ss⟩

theorem sameSegments_set {r : Reg} (h : r ∉ segmentRegs) : regs.SameSegments (regs.set r w) := by
  cases r with
  | gs | es | fs | ds => exact absurd (by decide) h
  | _ => exact ⟨rfl, rfl, rfl, rfl, rfl, rfl⟩

theorem sameSegments_step {i : Instr} (h : i.loadsSegment = false) :
    m.regs.SameSegments (m.step i).regs := by
  cases i with
  | cli | pushImm n | push r => exact ⟨rfl, rfl, rfl, rfl, rfl, rfl⟩
  | pop r =>
    have hset : m.regs.SameSegments (m.regs.set r (m.mem m.regs.rsp)) :=
      sameSegments_set (of_decide_eq_false h)
    exact hset.trans ⟨rfl, rfl, rfl, rfl, rfl, rfl⟩
  | mov dst src => exact sameSegments_set (of_decide_eq_false h)
  | addImm dst n => exact sameSegments_set (of_decide_eq_false h)
  | iretq => exact absurd h (by decide)

theorem sameSegments_run (h : ∀ i ∈ code, i.loadsSegment = false) :
    m.regs.SameSegments (m.run code).regs := by
  induction code generalizing m with
  | nil => exact .refl _
  | cons i code ih =>
    exact (sameSegments_step (h i List.mem_cons_self)).trans
      (ih fun i' hi' => h i' (List.mem_cons_of_mem i hi'))

/-- The stubs load no segment, -/
theorem loadsSegment_stub (stub : Stub) : ∀ i ∈ stub.code, i.loadsSegment = false := by
  have hcommon : ∀ i ∈ commonEntry, i.loadsSegment = false := by decide
  intro i hi
  cases stub with
  | isr n =>
    rcases List.mem_append.1 hi with hi | hi
    · split_ifs at hi <;> simp only [isr, isrErr, List.mem_cons, List.not_mem_nil, or_false] at hi
      · rcases hi with rfl | rfl <;> rfl
      · rcases hi with rfl | rfl | rfl <;> rfl
    · exact hcommon i hi
  | irq n =>
    rcases List.mem_append.1 hi with hi | hi
    · simp only [irq, List.mem_cons, List.not_mem_nil, or_false] at hi
      rcases hi with rfl | rfl | rfl <;> rfl
    · exact hcommon i hi

/-- so the handler runs in the segments of the kernel. -/
theorem Registers.Supervisor.enter {s : Interrupted} (h : s.regs.Supervisor) (image : Image)
    (i : Interrupt) : (i.enter image s).regs.Supervisor := by
  have hdelivered : (i.deliver s).regs.Supervisor := by
    rw [(deliver_spec (i := i) (s := s)).regs]
    exact ⟨rfl, h.ds, h.es, h.fs, h.gs, h.ss⟩
  rw [Interrupt.enter, Interrupt.code_idt]
  exact hdelivered.congr (sameSegments_run (loadsSegment_stub _))

/-! ## The table is loaded -/

/-- `load_gdt` returns if the processor accepts the selectors, with those of `es` and `fs`
    exchanged. It does not restore `rbx`. -/
theorem loadGdt_spec {label : ℕ} (hroom : 48 ≤ m.regs.rsp)
    (hreturn : returnFault table m.cpl m.regs.rsi (m.mem (m.regs.rsp + 8)) = none)
    (hdata : ∀ v ∈ [m.regs.r9, m.regs.r8, m.regs.rcx, m.regs.rdx],
      dataFault table (rpl m.regs.rsi) v = none) :
    ∃ m', loadGdt table label m = .ok m' ∧ m'.regs = { m.regs with
      gs := m.regs.r9
      es := m.regs.r8
      fs := m.regs.rcx
      ds := m.regs.rdx
      cs := m.regs.rsi
      ss := m.mem (m.regs.rsp + 8)
      rax := m.mem (m.regs.rsp + 8)
      rbx := m.regs.rsp - 8
      rip := m.mem m.regs.rsp
      rsp := m.regs.rsp + 8 } := by
  obtain ⟨b, hb⟩ := Nat.exists_eq_add_of_le' hroom
  obtain ⟨hgs, hes, hfs, hds⟩ : dataFault table (rpl m.regs.rsi) m.regs.r9 = none ∧
      dataFault table (rpl m.regs.rsi) m.regs.r8 = none ∧
      dataFault table (rpl m.regs.rsi) m.regs.rcx = none ∧
      dataFault table (rpl m.regs.rsi) m.regs.rdx = none := by simpa using hdata
  rw [hb, Machine.cpl] at hreturn
  -- Every address is a sum with `b`, where the last word is pushed.
  simp [loadGdt, Machine.run, Machine.step, Machine.push, Registers.set, Registers.get, hb,
    Machine.runChecked, Machine.fault, segmentRegs, Machine.cpl, Except.map, hreturn, hgs, hes, hfs,
    hds, Function.update_apply]
  exact fun heq => absurd heq (by omega)

/-- After `initializeGDT`, called at the privilege of the kernel, the processor has loaded the
    segments of the kernel, and the stack pointer is at what is left of the call. -/
theorem initializeGDT_spec {address caller label : ℕ} (hroom : 64 ≤ m.regs.rsp)
    (hcpl : m.cpl = 0) :
    ∃ m', initializeGDT address caller label m = .ok m' ∧ m'.regs.Supervisor ∧
      m'.regs.rip = caller ∧ m'.regs.rsp = m.regs.rsp - 8 ∧ m'.regs.rflags = m.regs.rflags ∧
      m'.regs.rbp = m.regs.rbp := by
  obtain ⟨call, hcall⟩ : ∃ call, call = loadGdtCall address 0x8 0x10 0x10 0x10 0x10 0x10 caller m :=
    ⟨_, rfl⟩
  have hregs : call.regs = { m.regs with
      rsp := m.regs.rsp - 8 - 8, rdi := address, rsi := 0x8, rdx := 0x10, rcx := 0x10, r8 := 0x10,
      r9 := 0x10 } := by
    rw [hcall]
    rfl
  have hss : call.mem (m.regs.rsp - 8) = 0x10 := by
    rw [hcall]
    simp only [loadGdtCall, Machine.push]
    rw [Function.update_of_ne (by omega), Function.update_self]
  have hcaller : call.mem (m.regs.rsp - 8 - 8) = caller := by
    rw [hcall]
    simp only [loadGdtCall, Machine.push, Function.update_self]
  have hcpl' : call.cpl = 0 := by
    rw [Machine.cpl, hregs]
    exact hcpl
  have hrsp : call.regs.rsp = m.regs.rsp - 8 - 8 := by rw [hregs]
  have hadd : call.regs.rsp + 8 = m.regs.rsp - 8 := by omega
  have hreturn : returnFault gdtEntries call.cpl call.regs.rsi (call.mem (call.regs.rsp + 8)) =
      none := by
    rw [hcpl', hadd, hss, hregs]
    show returnFault gdtEntries 0 0x8 0x10 = none
    decide
  have hdata : ∀ v ∈ [call.regs.r9, call.regs.r8, call.regs.rcx, call.regs.rdx],
      dataFault gdtEntries (rpl call.regs.rsi) v = none := by
    rw [hregs]
    show ∀ v ∈ [0x10, 0x10, 0x10, 0x10], dataFault gdtEntries (rpl 0x8) v = none
    decide
  obtain ⟨m', hm', hregs'⟩ := @loadGdt_spec call gdtEntries label (by omega) hreturn hdata
  rw [hadd, hss, hrsp, hcaller, hregs] at hregs'
  refine ⟨m', by rw [initializeGDT, ← hcall, hm'], ?_⟩
  rw [hregs']
  exact ⟨⟨rfl, rfl, rfl, rfl, rfl, rfl⟩, rfl, rfl, rfl, rfl⟩

end SmartOS
