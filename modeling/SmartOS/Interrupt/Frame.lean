import SmartOS.Interrupt.Basic
import SmartOS.Lib.Bits

/-!
# What the handler of an interrupt receives

The handler should find every register in the field of its name, and if it leaves
them there, the interrupted program should go on with them (`Transparent`). Two things
are in the way: the stubs push an error code of their own for some exceptions for
which the processor has pushed one, and `es` and `fs` are pushed in the other order
than they have in `CPURegisters`.

* `Machine.At`: a machine that has pushed some words, and otherwise has the
  registers `regs`. Every instruction has a lemma on it.
* `enter_spec`: what the code up to the handler leaves;
* `exit_spec`: what the code after it leaves;
* `transparent_iff` puts these together.
-/

namespace SmartOS

open Prog

variable {m : Machine} {top w a n : ℕ} {regs : Registers} {ws vs : List ℕ} {r : Reg}
  {rs : List Reg} {code code' : List Instr}

namespace Machine

/-- The words `ws` have been pushed below `top`, and the other registers are `regs`. -/
structure At (m : Machine) (top : ℕ) (regs : Registers) (ws : List ℕ) : Prop where
  room : 8 * ws.length ≤ top
  regs : m.regs = { regs with rsp := top - 8 * ws.length }
  holds : Holds m.mem (top - 8 * ws.length) ws

theorem run_append : m.run (code ++ code') = (m.run code).run code' := List.foldl_append

theorem get_rsp (h : r ≠ .rsp) : ({ regs with rsp := a } : Registers).get r = regs.get r := by
  cases r <;> first | rfl | exact absurd rfl h

theorem set_rsp (h : r ≠ .rsp) :
    ({ regs with rsp := a } : Registers).set r w = { regs.set r w with rsp := a } := by
  cases r <;> first | rfl | exact absurd rfl h

namespace At

theorem push_word (h : m.At top regs ws) (hroom : 8 * (ws.length + 1) ≤ top) (w : ℕ) :
    (m.push w).At top regs (w :: ws) := by
  have hsub : top - 8 * ws.length - 8 = top - 8 * (w :: ws).length := by
    rw [List.length_cons]
    omega
  refine ⟨hroom, ?_, ?_⟩
  · rw [push, h.regs, ← hsub]
  · rw [← hsub]
    rw [push, h.regs]
    exact h.holds.push (by omega)

theorem push_words (vs : List ℕ) (h : m.At top regs ws)
    (hroom : 8 * (ws.length + vs.length) ≤ top) :
    (vs.foldl (fun m w => m.push w) m).At top regs (vs.reverse ++ ws) := by
  induction vs generalizing m ws with
  | nil => exact h
  | cons v vs ih =>
    rw [List.length_cons] at hroom
    rw [List.foldl_cons, List.reverse_cons, List.append_assoc]
    exact ih (h.push_word (by omega) v) (by rw [List.singleton_append, List.length_cons]; omega)

theorem step_push (h : m.At top regs ws) (hroom : 8 * (ws.length + 1) ≤ top) (hr : r ≠ .rsp) :
    (m.step (.push r)).At top regs (regs.get r :: ws) := by
  rw [step, h.regs, get_rsp hr]
  exact h.push_word hroom _

theorem step_mov {dst src : Reg} (h : m.At top regs ws) (hdst : dst ≠ .rsp) (hsrc : src ≠ .rsp) :
    (m.step (.mov dst src)).At top (regs.set dst (regs.get src)) ws :=
  ⟨h.room, by rw [step, h.regs, get_rsp hsrc, set_rsp hdst], h.holds⟩

theorem step_pop (h : m.At top regs (w :: ws)) (hr : r ≠ .rsp) :
    (m.step (.pop r)).At top (regs.set r w) ws := by
  obtain ⟨hw, hws⟩ := h.holds.pop
  have hroom := h.room
  rw [List.length_cons] at hroom
  have hadd : top - 8 * (w :: ws).length + 8 = top - 8 * ws.length := by
    rw [List.length_cons]
    omega
  refine ⟨by omega, ?_, hadd ▸ hws⟩
  rw [step, h.regs, ← hadd, set_rsp hr]
  simp only [hw]

/-- Registers pushed one after the other. -/
theorem run_push (rs : List Reg) (h : m.At top regs ws) (hroom : 8 * (ws.length + rs.length) ≤ top)
    (hrs : ∀ r ∈ rs, r ≠ .rsp) :
    (m.run (rs.map .push)).At top regs ((rs.map regs.get).reverse ++ ws) := by
  induction rs generalizing m ws with
  | nil => exact h
  | cons r rs ih =>
    rw [List.length_cons] at hroom
    rw [List.map_cons, List.map_cons, List.reverse_cons, List.append_assoc]
    exact ih (h.step_push (by omega) (hrs r List.mem_cons_self))
      (by rw [List.singleton_append, List.length_cons]; omega)
      fun r' hr' => hrs r' (List.mem_cons_of_mem r hr')

/-- Registers popped one after the other. -/
theorem run_pop (rs : List Reg) (vs : List ℕ) (h : m.At top regs (vs ++ ws))
    (hlength : rs.length = vs.length) (hrs : ∀ r ∈ rs, r ≠ .rsp) :
    (m.run (rs.map .pop)).At top ((rs.zip vs).foldl (fun regs p => regs.set p.1 p.2) regs) ws := by
  induction rs generalizing m regs vs with
  | nil =>
    obtain rfl := List.length_eq_zero_iff.1 hlength.symm
    exact h
  | cons r rs ih =>
    cases vs with
    | nil => simp at hlength
    | cons v vs =>
      exact ih vs (h.step_pop (hrs r List.mem_cons_self)) (by simpa using hlength)
        fun r' hr' => hrs r' (List.mem_cons_of_mem r hr')

/-- Segment registers pushed, through `rax`. -/
theorem run_push_segments (rs : List Reg) (h : m.At top regs ws)
    (hroom : 8 * (ws.length + rs.length) ≤ top)
    (hrs : ∀ r ∈ rs, r ≠ .rsp ∧ r ≠ .rax) :
    ∃ v, (m.run (rs.flatMap fun r => [.mov .rax r, .push .rax])).At top (regs.set .rax v)
      ((rs.map regs.get).reverse ++ ws) := by
  induction rs generalizing m ws regs with
  | nil => exact ⟨regs.rax, h⟩
  | cons r rs ih =>
    obtain ⟨hr, hr'⟩ := hrs r List.mem_cons_self
    have hget : (rs.map (regs.set .rax (regs.get r)).get) = rs.map regs.get := by
      refine List.map_congr_left fun r' h' => ?_
      have := (hrs r' (List.mem_cons_of_mem r h')).2
      cases r' <;> first | rfl | exact absurd rfl this
    rw [List.length_cons] at hroom
    have hmov : (m.step (.mov .rax r)).At top (regs.set .rax (regs.get r)) ws :=
      h.step_mov (by decide) hr
    obtain ⟨v, hv⟩ := ih (hmov.step_push (r := .rax) (by omega) (by decide))
      (by rw [List.length_cons]; omega) fun r' h' => hrs r' (List.mem_cons_of_mem r h')
    rw [hget] at hv
    refine ⟨v, ?_⟩
    rw [List.map_cons, List.reverse_cons, List.append_assoc]
    exact hv

/-- Segment registers popped, through `rax`. -/
theorem run_pop_segments (rs : List Reg) (vs : List ℕ) (h : m.At top regs (vs ++ ws))
    (hlength : rs.length = vs.length) (hrs : ∀ r ∈ rs, r ≠ .rsp) :
    (m.run (rs.flatMap fun r => [.pop .rax, .mov r .rax])).At top
      ((rs.zip vs).foldl (fun regs p => (regs.set .rax p.2).set p.1 p.2) regs) ws := by
  induction rs generalizing m regs vs with
  | nil =>
    obtain rfl := List.length_eq_zero_iff.1 hlength.symm
    exact h
  | cons r rs ih =>
    cases vs with
    | nil => simp at hlength
    | cons v vs =>
      have hpop : (m.step (.pop .rax)).At top (regs.set .rax v) (vs ++ ws) := h.step_pop (by decide)
      exact ih vs (hpop.step_mov (hrs r List.mem_cons_self) (by decide)) (by simpa using hlength)
        fun r' hr' => hrs r' (List.mem_cons_of_mem r hr')

end At

end Machine

/-! ## The structure -/

/-- The words of a `CPURegisters`, from the lowest address on. -/
def CPURegisters.words (c : CPURegisters) : List ℕ :=
  [c.gs, c.es, c.fs, c.ds, c.r15, c.r14, c.r13, c.r12, c.r11, c.r10, c.r9, c.r8, c.rbp, c.rdi,
    c.rsi, c.rdx, c.rcx, c.rbx, c.rax, c.num, c.code, c.rip, c.cs, c.rflags, c.rsp, c.ss]

theorem CPURegisters.holds_words (m : WordMem) (a : ℕ) : Holds m a (read m a).words := by
  simp only [words, read, Holds, Nat.add_assoc, Nat.reduceAdd, and_self]

theorem CPURegisters.words_inj {c c' : CPURegisters} (h : c.words = c'.words) : c = c' := by
  cases c
  cases c'
  simpa [words] using h

/-- The structure that has been pushed. -/
theorem CPURegisters.read_eq {m : WordMem} {c : CPURegisters} (ws : List ℕ)
    (h : Holds m a (c.words ++ ws)) : read m a = c := by
  have htake {vs ws : List ℕ} {a : ℕ} (h : Holds m a (vs ++ ws)) : Holds m a vs := by
    induction vs generalizing a with
    | nil => exact trivial
    | cons v vs ih => exact ⟨h.1, ih h.2⟩
  exact words_inj ((holds_words m a).eq (htake h) rfl)

/-- The registers that the structure should hold. -/
def Registers.frame (r : Registers) (num code : ℕ) : CPURegisters where
  gs := r.gs
  es := r.es
  fs := r.fs
  ds := r.ds
  r15 := r.r15
  r14 := r.r14
  r13 := r.r13
  r12 := r.r12
  r11 := r.r11
  r10 := r.r10
  r9 := r.r9
  r8 := r.r8
  rbp := r.rbp
  rdi := r.rdi
  rsi := r.rsi
  rdx := r.rdx
  rcx := r.rcx
  rbx := r.rbx
  rax := r.rax
  num := num
  code := code
  rip := r.rip
  cs := r.cs
  rflags := r.rflags
  rsp := r.rsp
  ss := r.ss

/-- The handler receives the registers, and if it leaves the structure as it is, the interrupted
    program goes on with them. -/
structure Transparent (image : Image) (i : Interrupt) (s : Interrupted) : Prop where
  receives : CPURegisters.read (i.enter image s).mem (i.enter image s).regs.rdi =
    s.regs.frame i.num i.code
  resumes : ∀ m : Machine, m.regs.rsp = (i.enter image s).regs.rsp →
    CPURegisters.read m.mem m.regs.rsp =
      CPURegisters.read (i.enter image s).mem (i.enter image s).regs.rdi →
    (m.run commonExit).regs = s.regs

/-! ## The way in -/

variable {image : Image} {i : Interrupt} {s : Interrupted}

/-- The processor reads the address of the stub from the table. -/
theorem IDTEntry.offset_new {selector type dpl ist : ℕ} (h : n < 2 ^ 64) :
    (IDTEntry.new n selector type dpl ist).offset = n := by
  have hlow : n &&& 0xFFFF = n % 2 ^ 16 := Nat.and_two_pow_sub_one_eq_mod n 16
  have hmid : (n >>> 16) &&& 0xFFFF = n / 2 ^ 16 % 2 ^ 16 := shift_and_field n 16 16
  have hhigh : (n >>> 32) &&& 0xFFFFFFFF = n / 2 ^ 32 % 2 ^ 32 := shift_and_field n 32 32
  rw [offset, new, hlow, hmid, hhigh]
  dsimp only
  omega

/-- The stub that the processor comes to. -/
def Interrupt.stub : Interrupt → Stub
  | exception vector _ => .isr vector
  | device irq => .irq irq

theorem Interrupt.code_idt (image : Image) (i : Interrupt) :
    image.code (idt image i.vector).offset = i.stub.code := by
  cases i with
  | exception vector errorCode =>
    have hlt : (exception vector errorCode).vector < 32 := vector.isLt
    rw [idt, dif_pos hlt, IDTEntry.offset_new (image.address_lt _), image.code_address]
    rfl
  | device irq =>
    have hsub : (device irq).vector - 32 = irq := Nat.add_sub_cancel_left _ _
    have hlt : (device irq).vector - 32 < 16 := hsub ▸ irq.isLt
    rw [idt, dif_neg (by simp [vector]), dif_pos hlt, IDTEntry.offset_new (image.address_lt _),
      image.code_address]
    simp only [hsub]
    rfl

/-- The words above the registers: what the stub and the processor have pushed. -/
def Interrupt.above (i : Interrupt) (r : Registers) : List ℕ :=
  (match i with
    | exception vector _ =>
      if (vector : ℕ) ∈ [8, 10, 11, 12, 13, 14] then [(vector : ℕ)] else [(vector : ℕ), 0]
    | device irq => [(irq : ℕ), 0]) ++ i.pushed r

/-- The words of the other registers. -/
def Registers.below (r : Registers) : List ℕ :=
  [r.gs, r.fs, r.es, r.ds, r.r15, r.r14, r.r13, r.r12, r.r11, r.r10, r.r9, r.r8, r.rbp, r.rdi,
    r.rsi, r.rdx, r.rcx, r.rbx, r.rax]

/-- The registers when the processor has pushed what it pushes. -/
def Interrupted.delivered (s : Interrupted) : Registers :=
  { s.regs with cs := 0x8, rflags := s.regs.rflags &&& 0xFFFFFFFFFFFFFDFF }

theorem Interrupt.length_pushed (i : Interrupt) (r : Registers) : (i.pushed r).length ≤ 6 := by
  cases i with
  | exception vector errorCode =>
    simp only [pushed]
    split_ifs <;> simp
  | device irq => simp [pushed]

theorem Interrupt.length_above (i : Interrupt) (r : Registers) : (i.above r).length ≤ 8 := by
  have := i.length_pushed r
  cases i with
  | exception vector errorCode =>
    simp only [above]
    split_ifs <;> simp only [List.length_append, List.length_cons, List.length_nil] <;> omega
  | device irq =>
    simp only [above, List.length_append, List.length_cons, List.length_nil]
    omega

theorem deliver_spec : (i.deliver s).At s.top s.delivered (i.pushed s.regs) := by
  have hlength := i.length_pushed s.regs
  have hroom := s.room
  have hstart : Machine.At { regs := { s.delivered with rsp := s.top }, mem := s.mem } s.top
      s.delivered [] := ⟨Nat.zero_le _, rfl, trivial⟩
  have h := hstart.push_words (i.pushed s.regs).reverse
    (by rw [List.length_reverse, List.length_nil]; omega)
  rw [List.reverse_reverse, List.append_nil] at h
  exact h

/-- What the stub does before it jumps. -/
theorem stub_spec : ∃ code regs, i.stub.code = code ++ commonEntry ∧
    (∀ r, regs.get r = s.delivered.get r) ∧
    ((i.deliver s).run code).At s.top regs (i.above s.regs) := by
  have hcli : ((i.deliver s).step .cli).At s.top
      { s.delivered with rflags := s.delivered.rflags &&& 0xFFFFFFFFFFFFFDFF }
        (i.pushed s.regs) := by
    obtain ⟨hroom, hregs, hholds⟩ := deliver_spec (i := i) (s := s)
    exact ⟨hroom, by rw [Machine.step, hregs], hholds⟩
  have hget (r : Reg) : Registers.get
      { s.delivered with rflags := s.delivered.rflags &&& 0xFFFFFFFFFFFFFDFF } r =
      s.delivered.get r := by
    cases r <;> rfl
  have hlength := i.length_pushed s.regs
  have hroom := s.room
  cases i with
  | exception vector errorCode =>
    by_cases h : (vector : ℕ) ∈ [8, 10, 11, 12, 13, 14]
    · refine ⟨isrErr vector, _, by rw [Interrupt.stub, Stub.code, if_pos h], hget, ?_⟩
      rw [Interrupt.above, if_pos h]
      exact hcli.push_word (by omega) _
    · refine ⟨isr vector, _, by rw [Interrupt.stub, Stub.code, if_neg h], hget, ?_⟩
      rw [Interrupt.above, if_neg h]
      exact (hcli.push_word (by omega) 0).push_word (by rw [List.length_cons]; omega) _
  | device irq =>
    refine ⟨SmartOS.irq irq, _, rfl, hget, ?_⟩
    exact (hcli.push_word (by omega) 0).push_word (by rw [List.length_cons]; omega) _

/-- The registers in the order in which they are pushed: the general ones, -/
def generalRegs : List Reg :=
  [.rax, .rbx, .rcx, .rdx, .rsi, .rdi, .rbp, .r8, .r9, .r10, .r11, .r12, .r13, .r14, .r15]

/-- and those of the segments. -/
def segmentRegs : List Reg := [.ds, .es, .fs, .gs]

theorem commonEntry_eq : commonEntry = generalRegs.map .push ++
    (segmentRegs.flatMap fun r => [.mov .rax r, .push .rax]) ++ [.mov .rdi .rsp] := rfl

/-- What the handler is called with. -/
theorem enter_spec (image : Image) (i : Interrupt) (s : Interrupted) :
    (i.enter image s).regs.rdi = (i.enter image s).regs.rsp ∧
    Holds (i.enter image s).mem (i.enter image s).regs.rdi (s.regs.below ++ i.above s.regs) := by
  obtain ⟨code, regs, hcode, hget, hstub⟩ := stub_spec (i := i) (s := s)
  have habove := i.length_above s.regs
  have hroom := s.room
  have hgeneral := hstub.run_push generalRegs
    (by simp only [generalRegs, List.length_cons, List.length_nil]; omega) (by decide)
  obtain ⟨v, hsegments⟩ := hgeneral.run_push_segments segmentRegs
    (by simp only [generalRegs, segmentRegs, List.length_append, List.length_reverse,
      List.length_map, List.length_cons, List.length_nil]; omega) (by decide)
  have hwords : (segmentRegs.map regs.get).reverse ++
      ((generalRegs.map regs.get).reverse ++ i.above s.regs) = s.regs.below ++ i.above s.regs := by
    simp only [funext hget]
    rfl
  rw [hwords] at hsegments
  rw [Interrupt.enter, Interrupt.code_idt, hcode, commonEntry_eq, Machine.run_append,
    Machine.run_append, Machine.run_append]
  generalize Machine.run _ (segmentRegs.flatMap _) = m at hsegments ⊢
  have hrdi : (m.run [.mov .rdi .rsp]).regs.rdi = m.regs.rsp := rfl
  refine ⟨hrdi, ?_⟩
  rw [hrdi, hsegments.regs]
  exact hsegments.holds

/-! ## The way out -/

/-- The registers that the code after the handler takes from the structure. -/
def CPURegisters.restored (c : CPURegisters) : Registers where
  gs := c.gs
  es := c.fs
  fs := c.es
  ds := c.ds
  r15 := c.r15
  r14 := c.r14
  r13 := c.r13
  r12 := c.r12
  r11 := c.r11
  r10 := c.r10
  r9 := c.r9
  r8 := c.r8
  rbp := c.rbp
  rdi := c.rdi
  rsi := c.rsi
  rdx := c.rdx
  rcx := c.rcx
  rbx := c.rbx
  rax := c.rax
  rip := c.rip
  cs := c.cs
  rflags := c.rflags
  rsp := c.rsp
  ss := c.ss

theorem commonExit_eq : commonExit =
    (segmentRegs.reverse.flatMap fun r => [.pop .rax, .mov r .rax]) ++
      generalRegs.reverse.map .pop ++ [.addImm .rsp 16, .iretq] := rfl

theorem exit_spec {m : Machine} : (m.run commonExit).regs =
    (CPURegisters.read m.mem m.regs.rsp).restored := by
  set c := CPURegisters.read m.mem m.regs.rsp with hc
  have hstart : m.At (m.regs.rsp + 8 * 26) m.regs c.words := by
    refine ⟨Nat.le_add_left _ _, ?_, ?_⟩
    · show m.regs = { m.regs with rsp := m.regs.rsp + 8 * 26 - 8 * 26 }
      rw [Nat.add_sub_cancel]
    · show Holds m.mem (m.regs.rsp + 8 * 26 - 8 * 26) c.words
      rw [Nat.add_sub_cancel]
      exact CPURegisters.holds_words _ _
  -- The segments are popped first, and then the other registers.
  have hsegments := hstart.run_pop_segments segmentRegs.reverse [c.gs, c.es, c.fs, c.ds] rfl
    (by decide)
  have hgeneral := hsegments.run_pop generalRegs.reverse [c.r15, c.r14, c.r13, c.r12, c.r11, c.r10,
    c.r9, c.r8, c.rbp, c.rdi, c.rsi, c.rdx, c.rcx, c.rbx, c.rax] rfl (by decide)
  rw [commonExit_eq, Machine.run_append, Machine.run_append]
  generalize Machine.run _ (generalRegs.reverse.map _) = m' at hgeneral ⊢
  obtain ⟨-, hregs, hholds⟩ := hgeneral
  -- What is left are the number, the error code, and the frame that `iretq` takes.
  obtain ⟨-, -, hrip, hcs, hrflags, hrsp, hss, -⟩ := hholds
  have haddr : m'.regs.rsp + 16 = m.regs.rsp + 8 * 26 - 8 * 7 + 8 + 8 := by rw [hregs]; rfl
  have hiretq : (m'.run [.addImm .rsp 16, .iretq]).regs = { m'.regs with
      rip := m'.mem (m'.regs.rsp + 16)
      cs := m'.mem (m'.regs.rsp + 16 + 8)
      rflags := m'.mem (m'.regs.rsp + 16 + 16)
      rsp := m'.mem (m'.regs.rsp + 16 + 24)
      ss := m'.mem (m'.regs.rsp + 16 + 32) } := rfl
  rw [haddr] at hiretq
  rw [hiretq]
  dsimp only [List.length_cons, List.length_nil] at hrip hcs hrflags hrsp hss
  rw [hrip, hcs, hrflags, hrsp, hss, hregs]
  rfl

/-! ## What the handler receives -/

/-- The exceptions whose error code the stubs do not know of. -/
def unknownErrorCodes : List ℕ := [17, 21, 29, 30]

/-- The registers as the structure has them. -/
def Registers.swapped (r : Registers) : Registers := { r with es := r.fs, fs := r.es }

theorem above_of_not_mem {r : Registers} (h : i.vector ∉ unknownErrorCodes) :
    i.above r = [i.num, i.code, r.rip, r.cs, r.rflags, r.rsp, r.ss] := by
  cases i with
  | exception vector errorCode =>
    have hiff : hasErrorCode vector ↔ (vector : ℕ) ∈ [8, 10, 11, 12, 13, 14] := by
      simp only [Interrupt.vector, unknownErrorCodes, List.mem_cons, List.not_mem_nil,
        or_false] at h
      simp only [hasErrorCode, List.mem_cons, List.not_mem_nil, or_false]
      omega
    simp only [Interrupt.above, Interrupt.pushed, Interrupt.num, Interrupt.code, hiff]
    split_ifs <;> rfl
  | device irq => rfl

/-- An error code too many. -/
theorem above_of_mem {r : Registers} (h : i.vector ∈ unknownErrorCodes) :
    i.above r = [i.num, 0, i.code, r.rip, r.cs, r.rflags, r.rsp, r.ss] := by
  cases i with
  | exception vector errorCode =>
    have hcode : hasErrorCode vector ∧ (vector : ℕ) ∉ [8, 10, 11, 12, 13, 14] := by
      simp only [Interrupt.vector, unknownErrorCodes, List.mem_cons, List.not_mem_nil,
        or_false] at h
      simp only [hasErrorCode, List.mem_cons, List.not_mem_nil, or_false]
      omega
    simp only [Interrupt.above, Interrupt.pushed, Interrupt.num, Interrupt.code, if_pos hcode.1,
      if_neg hcode.2]
    rfl
  | device irq =>
    simp only [Interrupt.vector, unknownErrorCodes, List.mem_cons, List.not_mem_nil, or_false] at h
    omega

theorem read_enter_of_not_mem (h : i.vector ∉ unknownErrorCodes) :
    CPURegisters.read (i.enter image s).mem (i.enter image s).regs.rdi =
      s.regs.swapped.frame i.num i.code := by
  have hwords := (enter_spec image i s).2
  rw [above_of_not_mem h] at hwords
  exact CPURegisters.read_eq [] hwords

theorem read_enter_of_mem (h : i.vector ∈ unknownErrorCodes) :
    CPURegisters.read (i.enter image s).mem (i.enter image s).regs.rdi =
      { s.regs.swapped.frame i.num 0 with
        rip := i.code
        cs := s.regs.rip
        rflags := s.regs.cs
        rsp := s.regs.rflags
        ss := s.regs.rsp } := by
  have hwords := (enter_spec image i s).2
  rw [above_of_mem h] at hwords
  exact CPURegisters.read_eq [s.regs.ss] hwords

/-- The handler receives the registers, and the program goes on with them, unless the exception is
    one whose error code the stub does not know of, or `es` and `fs` differ. -/
theorem transparent_iff : Transparent image i s ↔
    i.vector ∉ unknownErrorCodes ∧ s.regs.es = s.regs.fs := by
  constructor
  · intro h
    by_cases hmem : i.vector ∈ unknownErrorCodes
    · -- The words from the error code on are in the wrong fields, so they are all zero.
      have hframe := (read_enter_of_mem hmem).symm.trans h.receives
      have hcode : 0 = i.code := congrArg CPURegisters.code hframe
      have hrip : i.code = s.regs.rip := congrArg CPURegisters.rip hframe
      have hcs : s.regs.rip = s.regs.cs := congrArg CPURegisters.cs hframe
      have hrflags : s.regs.cs = s.regs.rflags := congrArg CPURegisters.rflags hframe
      have hflags := s.flags
      rw [← hrflags, ← hcs, ← hrip, ← hcode] at hflags
      exact absurd hflags (by decide)
    · have hframe := (read_enter_of_not_mem hmem).symm.trans h.receives
      exact ⟨hmem, (congrArg CPURegisters.fs hframe :)⟩
  · rintro ⟨hmem, heq⟩
    have hswapped : s.regs.swapped = s.regs := by
      generalize s.regs = regs at heq
      cases regs
      cases heq
      rfl
    have hread : CPURegisters.read (i.enter image s).mem (i.enter image s).regs.rdi =
        s.regs.swapped.frame i.num i.code := read_enter_of_not_mem hmem
    rw [hswapped] at hread
    refine ⟨hread, fun m _ hm => ?_⟩
    rw [exit_spec, hm, hread]
    exact hswapped

/-- An image whose stubs lie one after the other. -/
def smallImage : Image where
  address
    | .isr n => n
    | .irq n => n + 32
  code a :=
    if h : a < 32 then Stub.code (.isr ⟨a, h⟩)
    else if h : a - 32 < 16 then Stub.code (.irq ⟨a - 32, h⟩) else []
  address_lt stub := by
    cases stub with
    | isr n => exact n.isLt.trans (by decide)
    | irq n => exact (Nat.add_lt_add_right n.isLt 32).trans (by decide)
  code_address stub := by
    cases stub with
    | isr n => simp
    | irq n => simp

/-- A program that is interrupted, with all registers zero but for the flags. -/
def interruptedProgram (regs : Registers) (flags : regs.rflags.testBit 1 = true) : Interrupted where
  regs := regs
  mem := fun _ => 0
  top := 0x1000
  room := by decide
  flags := flags

/-- The timer interrupts a program that has loaded the null selector into `fs`. -/
theorem not_transparent : ¬∀ (image : Image) (i : Interrupt) (s : Interrupted),
    Transparent image i s := by
  intro h
  have hfaithful := h smallImage (.device 0) (interruptedProgram
    ⟨0x23, 0x23, 0, 0x23, 0, 0, 0, 0, 0, 0, 0, 0, 0, 0, 0, 0, 0, 0, 0,
      0x1000, 0x1B, 0x202, 0x2000, 0x23⟩ rfl)
  have hmem : (Interrupt.device 0).vector ∉ unknownErrorCodes := by decide
  have hfs := congrArg CPURegisters.fs ((read_enter_of_not_mem hmem).symm.trans hfaithful.receives)
  exact absurd hfs (by decide)

end SmartOS
