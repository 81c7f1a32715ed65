import Mathlib.Tactic

/-!
# Interrupt controllers

An 8259A takes requests on eight lines and passes them on to a processor, the line 0
first. A request that the processor acknowledges is *in service* until the processor
says that it has come to its end, and keeps those of its own priority and below back.
A second controller, the slave, is wired to one of the lines of the first one.

A controller is initialized by a command and up to three words; afterwards, words are
masks and commands are ends of interrupts. Polling, special masks and rotating
priorities are left out.

* `Ready`: a pair of controllers that answers with the vectors from two offsets on;
* `acknowledge_spec`: with nothing in service, the pair answers with the pending line of
  the highest priority;
* `pending_finish`: an end of interrupt for every controller that has answered leaves
  nothing in service.
-/

namespace Prog

/-- The words that follow the command that initializes a controller. -/
inductive InitWord
  | offset
  | cascade
  | mode
  deriving Repr, DecidableEq

/-- `cascade` are the lines with slaves or, of a slave, the line that it is wired to. -/
structure Controller where
  requests : Finset (Fin 8)
  inService : Finset (Fin 8)
  mask : Finset (Fin 8)
  offset : ℕ
  cascade : ℕ
  mode : ℕ
  expected : List InitWord
  deriving DecidableEq

namespace Controller

/-- The first line, by priority, of some lines. -/
def first (p : Fin 8 → Prop) [DecidablePred p] : Option (Fin 8) := (List.finRange 8).find? p

theorem first_eq_none_iff {p : Fin 8 → Prop} [DecidablePred p] :
    first p = none ↔ ∀ n, ¬p n := by
  simp [first]

theorem first_eq_some {p : Fin 8 → Prop} [DecidablePred p] {n : Fin 8} (h : first p = some n) :
    p n ∧ ∀ k, p k → n ≤ k := by
  obtain ⟨hn, i, hi, rfl, hlt⟩ := List.find?_eq_some_iff_getElem.1 h
  refine ⟨by simpa using hn, fun k hk => ?_⟩
  by_contra hnk
  rw [List.getElem_finRange] at hnk
  have hki : k.val < i := by simpa [Fin.lt_def] using hnk
  have := hlt k hki
  simp [hk] at this

/-- A word written to the address of the commands. -/
def command (c : Controller) (word : ℕ) : Controller :=
  if word.testBit 4 then
    { c with
      requests := ∅, inService := ∅, mask := ∅, mode := 0
      expected := [.offset] ++ (if word.testBit 1 then [] else [.cascade]) ++
        if word.testBit 0 then [.mode] else [] }
  else if word.testBit 3 ∨ word.testBit 5 = false then c
  else if word.testBit 6 then { c with inService := c.inService.erase (Fin.ofNat 8 word) }
  else match first (· ∈ c.inService) with
    | none => c
    | some n => { c with inService := c.inService.erase n }

/-- A word written to the other address. -/
def data (c : Controller) (word : ℕ) : Controller :=
  match c.expected with
  | .offset :: expected => { c with offset := word &&& 0xF8, expected := expected }
  | .cascade :: expected => { c with cascade := word, expected := expected }
  | .mode :: expected => { c with mode := word, expected := expected }
  | [] => { c with mask := Finset.univ.filter fun n => word.testBit n }

/-- The request that is passed on, if there is one. -/
def next (c : Controller) : Option (Fin 8) :=
  first fun n => n ∈ c.requests ∧ n ∉ c.mask ∧ ∀ k ∈ c.inService, n < k

/-- A request is acknowledged. With the bit 1 of the mode set, it ends at once. -/
def serve (c : Controller) (n : Fin 8) : Controller :=
  { c with
    requests := c.requests.erase n
    inService := if c.mode.testBit 1 then c.inService else insert n c.inService }

/-- The vector that answers the processor, if this is one with vectors. -/
def vector (c : Controller) (n : Fin 8) : Option ℕ :=
  if c.mode.testBit 0 then some (c.offset + n) else none

/-- The controller is initialized, and nothing is masked. -/
structure SetUp (offset cascade : ℕ) (c : Controller) : Prop where
  mask : c.mask = ∅
  offset : c.offset = offset
  cascade : c.cascade = cascade
  mode : c.mode = 1

/-- Requests that come and go do not change how a controller is initialized. -/
theorem SetUp.congr {offset cascade : ℕ} {c : Controller} (h : c.SetUp offset cascade)
    (requests inService : Finset (Fin 8)) :
    SetUp offset cascade { c with requests := requests, inService := inService } :=
  ⟨h.mask, h.offset, h.cascade, h.mode⟩

theorem SetUp.vector_eq {offset cascade : ℕ} {c : Controller} (h : c.SetUp offset cascade)
    (n : Fin 8) : c.vector n = some (offset + n) := by
  rw [vector, h.mode, h.offset]
  rfl

/-- With nothing masked or in service, the first request is passed on. -/
theorem next_of_idle {c : Controller} (hmask : c.mask = ∅) (hidle : c.inService = ∅) :
    (c.next = none ∧ c.requests = ∅) ∨
      ∃ k ∈ c.requests, c.next = some k ∧ ∀ k' ∈ c.requests, k ≤ k' := by
  cases hnext : c.next with
  | none =>
    have hnone := first_eq_none_iff.1 hnext
    simp only [hmask, hidle, Finset.notMem_empty, not_false_eq_true, false_imp_iff, implies_true,
      and_true] at hnone
    exact .inl ⟨rfl, Finset.eq_empty_of_forall_notMem hnone⟩
  | some k =>
    obtain ⟨hk, hmin⟩ := first_eq_some hnext
    simp only [hmask, hidle, Finset.notMem_empty, not_false_eq_true, false_imp_iff, implies_true,
      and_true] at hk hmin
    exact .inr ⟨k, hk, rfl, hmin⟩

/-- The end of the interrupt that is alone in service. -/
theorem command_end_serve {c : Controller} (n : Fin 8) (h : c.inService = ∅) :
    ((c.serve n).command 0x20).inService = ∅ := by
  have hend : (c.serve n).command 0x20 = match first (· ∈ (c.serve n).inService) with
    | none => c.serve n
    | some n' => { c.serve n with inService := (c.serve n).inService.erase n' } := rfl
  rw [hend]
  split
  · rename_i hfirst
    exact Finset.eq_empty_of_forall_notMem (first_eq_none_iff.1 hfirst)
  · rename_i n' hfirst
    obtain ⟨hn', -⟩ := first_eq_some hfirst
    simp only [serve, h] at hn' ⊢
    split_ifs at hn' ⊢ with hmode
    · exact absurd hn' (Finset.notMem_empty _)
    · rw [LawfulSingleton.insert_empty_eq, Finset.mem_singleton] at hn'
      rw [hn', LawfulSingleton.insert_empty_eq, Finset.erase_singleton]

/-- An end of interrupt only changes what is in service. -/
theorem command_end (c : Controller) :
    ∃ inService, c.command 0x20 = { c with inService := inService } := by
  have hend : c.command 0x20 = match first (· ∈ c.inService) with
    | none => c
    | some n => { c with inService := c.inService.erase n } := rfl
  rw [hend]
  split
  · exact ⟨c.inService, rfl⟩
  · exact ⟨_, rfl⟩

theorem serve_command_end (c : Controller) (n : Fin 8) : ∃ inService,
    (c.serve n).command 0x20 =
      { c with requests := c.requests.erase n, inService := inService } :=
  (c.serve n).command_end

theorem requests_serve_command_end (c : Controller) (n : Fin 8) :
    ((c.serve n).command 0x20).requests = c.requests.erase n := by
  obtain ⟨inService, h⟩ := c.serve_command_end n
  rw [h]

theorem SetUp.serve_command_end {offset cascade : ℕ} {c : Controller}
    (h : c.SetUp offset cascade) (n : Fin 8) : ((c.serve n).command 0x20).SetUp offset cascade := by
  obtain ⟨inService, heq⟩ := c.serve_command_end n
  rw [heq]
  exact h.congr _ _

end Controller

/-! ## Two controllers -/

/-- Two controllers, the slave on the line 2 of the master. -/
structure Controllers where
  master : Controller
  slave : Controller
  deriving DecidableEq

namespace Controllers

/-- A request on a line: those from 8 on are the slave's. -/
def request (p : Controllers) (n : Fin 16) : Controllers :=
  if h : n.val < 8 then { p with master.requests := insert ⟨n, h⟩ p.master.requests }
  else { p with slave.requests := insert ⟨n - 8, by omega⟩ p.slave.requests }

/-- The master, with its line 2 as the slave has it. -/
def wired (p : Controllers) : Controller :=
  if p.slave.next.isSome then { p.master with requests := insert 2 p.master.requests }
  else p.master

/-- The processor acknowledges a request: the vector it gets, unless there is nothing to
    acknowledge or no controller answers. -/
def acknowledge (p : Controllers) : Option (ℕ × Controllers) :=
  p.wired.next.bind fun n =>
    if p.master.cascade.testBit n then
      if p.slave.cascade = n then
        p.slave.next.bind fun k =>
          (p.slave.vector k).map fun v => (v, ⟨p.master.serve n, p.slave.serve k⟩)
      else none
    else (p.master.vector n).map fun v => (v, ⟨p.master.serve n, p.slave⟩)

/-- The lines with requests. -/
def pending (p : Controllers) : Finset (Fin 16) :=
  Finset.univ.filter fun n =>
    if h : n.val < 8 then (⟨n, h⟩ : Fin 8) ∈ p.master.requests
    else (⟨n - 8, by omega⟩ : Fin 8) ∈ p.slave.requests

/-- The lower, the earlier: those of the slave come when its line of the master does. -/
def priority (n : Fin 16) : ℕ := if n.val < 8 then 8 * n else 16 + (n - 8)

/-- The controllers are initialized to answer with the vectors from `a` and `b` on. -/
structure Ready (a b : ℕ) (p : Controllers) : Prop where
  master : p.master.SetUp a 4
  slave : p.slave.SetUp b 2
  /-- No device is on the line of the slave. -/
  line : (2 : Fin 8) ∉ p.master.requests

/-- Nothing is in service. -/
structure Idle (p : Controllers) : Prop where
  master : p.master.inService = ∅
  slave : p.slave.inService = ∅

/-- The vector of a line. -/
def vectorOf (a b : ℕ) (n : Fin 16) : ℕ := if n.val < 8 then a + n else b + (n - 8)

/-- The controllers, when the request of a line has been acknowledged. -/
def served (p : Controllers) (n : Fin 16) : Controllers :=
  if h : n.val < 8 then ⟨p.master.serve ⟨n, h⟩, p.slave⟩
  else ⟨p.master.serve 2, p.slave.serve ⟨n - 8, by omega⟩⟩

/-- The end of the interrupt of a line: for the slave, if it has answered, and for the master. -/
def finish (p : Controllers) (n : Fin 16) : Controllers :=
  ⟨p.master.command 0x20, if 8 ≤ n.val then p.slave.command 0x20 else p.slave⟩

variable {p : Controllers} {a b : ℕ} {n : Fin 16}

theorem mem_pending_master {n : Fin 16} (h : n.val < 8) :
    n ∈ p.pending ↔ (⟨n, h⟩ : Fin 8) ∈ p.master.requests := by
  simp [pending, h]

theorem mem_pending_slave {n : Fin 16} (h : ¬n.val < 8) :
    n ∈ p.pending ↔ (⟨n - 8, by omega⟩ : Fin 8) ∈ p.slave.requests := by
  simp [pending, h]

/-! ### Requests -/

theorem mem_pending_request {m : Fin 16} :
    m ∈ (p.request n).pending ↔ m = n ∨ m ∈ p.pending := by
  by_cases hn : n.val < 8 <;> by_cases hm : m.val < 8
  · rw [mem_pending_master hm, mem_pending_master hm, request, dif_pos hn]
    simp only [Finset.mem_insert, Fin.ext_iff]
  · have hne : m ≠ n := fun heq => hm (heq ▸ hn)
    rw [mem_pending_slave hm, mem_pending_slave hm, request, dif_pos hn]
    simp only [hne, false_or]
  · have hne : m ≠ n := fun heq => hn (heq ▸ hm)
    rw [mem_pending_master hm, mem_pending_master hm, request, dif_neg hn]
    simp only [hne, false_or]
  · rw [mem_pending_slave hm, mem_pending_slave hm, request, dif_neg hn]
    simp only [Finset.mem_insert, Fin.ext_iff]
    exact or_congr_left (by omega)

theorem Ready.request (h : p.Ready a b) (hn : n ≠ 2) : (p.request n).Ready a b := by
  rw [Controllers.request]
  split_ifs with hlt
  · refine ⟨h.master.congr _ _, h.slave, ?_⟩
    have hne : (2 : Fin 8) ≠ ⟨n, hlt⟩ := fun heq => hn (Fin.ext (congrArg Fin.val heq).symm)
    simp only [Finset.mem_insert, hne, h.line, or_self, not_false_eq_true]
  · exact ⟨h.master, h.slave.congr _ _, h.line⟩

theorem Idle.request (h : p.Idle) (n : Fin 16) : (p.request n).Idle := by
  rw [Controllers.request]
  split_ifs
  · exact ⟨h.master, h.slave⟩
  · exact ⟨h.master, h.slave⟩

/-! ### Answers -/

/-- The first line of those that have requests, with the line of the slave. -/
theorem wired_of_none (h : p.slave.next = none) : p.wired = p.master := by
  rw [wired, h]
  rfl

theorem wired_of_some {k : Fin 8} (h : p.slave.next = some k) :
    p.wired = { p.master with requests := insert 2 p.master.requests } := by
  rw [wired, h]
  rfl

/-- Only the line 2 has a slave. -/
theorem Ready.testBit_cascade (h : p.Ready a b) (k : Fin 8) :
    p.master.cascade.testBit k = decide (k = 2) := by
  rw [h.master.cascade]
  revert k
  decide

/-- The master answers. -/
theorem acknowledge_master (h : p.Ready a b) {k : Fin 8} (hk : k ≠ 2)
    (hnext : p.wired.next = some k) :
    p.acknowledge = some (a + k, ⟨p.master.serve k, p.slave⟩) := by
  rw [acknowledge, hnext, Option.bind_some, h.testBit_cascade, if_neg (by simpa using hk),
    h.master.vector_eq]
  rfl

/-- The slave answers. -/
theorem acknowledge_slave (h : p.Ready a b) {k : Fin 8} (hnext : p.wired.next = some 2)
    (hslave : p.slave.next = some k) :
    p.acknowledge = some (b + k, ⟨p.master.serve 2, p.slave.serve k⟩) := by
  have hcascade : p.slave.cascade = (2 : Fin 8) := h.slave.cascade
  rw [acknowledge, hnext, Option.bind_some, h.testBit_cascade, if_pos (by decide), if_pos hcascade,
    hslave, Option.bind_some, h.slave.vector_eq]
  rfl

/-- What the answer to the processor has to be. -/
def Answers (a b : ℕ) (p : Controllers) : Prop :=
  (p.pending = ∅ ∧ p.acknowledge = none) ∨
    ∃ n ∈ p.pending, (∀ m ∈ p.pending, priority n ≤ priority m) ∧
      p.acknowledge = some (vectorOf a b n, p.served n)

theorem answers_master (h : p.Ready a b) {k : Fin 8} (hk : k ≠ 2) (hmem : k ∈ p.master.requests)
    (hmin : ∀ k' ∈ p.master.requests, k ≤ k') (hslave : p.slave.requests = ∅ ∨ k ≤ 2)
    (hnext : p.wired.next = some k) : p.Answers a b := by
  have hlt : (⟨k, by omega⟩ : Fin 16).val < 8 := k.isLt
  refine .inr ⟨⟨k, by omega⟩, (mem_pending_master hlt).2 hmem, fun m hm => ?_, ?_⟩
  · by_cases hm8 : m.val < 8
    · have hle := hmin _ ((mem_pending_master hm8).1 hm)
      rw [Fin.le_def] at hle
      rw [priority, priority, if_pos hlt, if_pos hm8]
      exact Nat.mul_le_mul_left 8 hle
    · rw [mem_pending_slave hm8] at hm
      have hk2 : k ≤ 2 := hslave.resolve_left fun hempty => by simp [hempty] at hm
      rw [Fin.le_def] at hk2
      rw [priority, priority, if_pos hlt, if_neg hm8]
      exact le_trans (Nat.mul_le_mul_left 8 hk2) (Nat.le_add_right 16 _)
  · rw [acknowledge_master h hk hnext, vectorOf, if_pos hlt, served, dif_pos hlt]

theorem answers_slave (h : p.Ready a b) {k : Fin 8} (hmem : k ∈ p.slave.requests)
    (hmin : ∀ k' ∈ p.slave.requests, k ≤ k') (hmaster : ∀ k' ∈ p.master.requests, 2 ≤ k')
    (hnext : p.wired.next = some 2) (hslave : p.slave.next = some k) : p.Answers a b := by
  have hge : ¬(⟨k + 8, by omega⟩ : Fin 16).val < 8 := Nat.not_lt.2 (Nat.le_add_left 8 _)
  have hk : (⟨k + 8, by omega⟩ : Fin 16) ∈ p.pending := by
    rw [mem_pending_slave hge]
    simpa using hmem
  refine .inr ⟨⟨k + 8, by omega⟩, hk, fun m hm => ?_, ?_⟩
  · by_cases hm8 : m.val < 8
    · have hmreq := (mem_pending_master hm8).1 hm
      have hle := hmaster _ hmreq
      have hne : m.val ≠ 2 := fun heq => h.line (by simpa [heq] using hmreq)
      rw [Fin.le_def] at hle
      have hle' : 2 ≤ m.val := hle
      rw [priority, priority, if_neg hge, if_pos hm8]
      dsimp only
      omega
    · have hle := hmin _ ((mem_pending_slave hm8).1 hm)
      rw [Fin.le_def] at hle
      rw [priority, priority, if_neg hge, if_neg hm8]
      dsimp only at hle ⊢
      omega
  · rw [acknowledge_slave h hnext hslave, vectorOf, if_neg hge, served, dif_neg hge]
    simp only [Nat.add_sub_cancel]

/-- With nothing in service, the pair answers with the pending line of the highest priority. -/
theorem acknowledge_spec (h : p.Ready a b) (hidle : p.Idle) : p.Answers a b := by
  rcases Controller.next_of_idle h.slave.mask hidle.slave with
    ⟨hnone, hempty⟩ | ⟨k, hk, hsome, hmin⟩
  · rcases Controller.next_of_idle h.master.mask hidle.master with
      ⟨hnone', hempty'⟩ | ⟨k, hk, hsome, hmin⟩
    · refine .inl ⟨Finset.eq_empty_of_forall_notMem fun n hn => ?_, ?_⟩
      · simp [pending, hempty, hempty'] at hn
      · rw [acknowledge, wired_of_none hnone, hnone']
        rfl
    · refine answers_master h (fun heq => h.line (heq ▸ hk)) hk hmin (.inl hempty) ?_
      rwa [wired_of_none hnone]
  · -- The slave has a request, so the line 2 of the master has one.
    have hwired := wired_of_some hsome
    rcases Controller.next_of_idle (c := p.wired) (by rw [hwired]; exact h.master.mask)
      (by rw [hwired]; exact hidle.master) with ⟨-, hempty⟩ | ⟨k', hk', hsome', hmin'⟩
    · rw [hwired] at hempty
      simp at hempty
    · rw [hwired] at hk' hmin'
      simp only [Finset.mem_insert] at hk' hmin'
      by_cases heq : k' = 2
      · subst heq
        exact answers_slave h hk hmin (fun l hl => hmin' l (.inr hl)) hsome' hsome
      · exact answers_master h heq (hk'.resolve_left heq) (fun l hl => hmin' l (.inr hl))
          (.inr (hmin' 2 (.inl rfl))) hsome'

/-! ### Ends of interrupts -/

theorem Idle.served_finish (h : p.Idle) : ((p.served n).finish n).Idle := by
  rw [served, finish]
  split_ifs with hlt hge hge
  · omega
  · exact ⟨Controller.command_end_serve _ h.master, h.slave⟩
  · exact ⟨Controller.command_end_serve _ h.master, Controller.command_end_serve _ h.slave⟩
  · omega

/-- An end of interrupt does not change how the controllers are initialized. -/
theorem Ready.served_finish (h : p.Ready a b) : ((p.served n).finish n).Ready a b := by
  rw [served, finish]
  split_ifs with hlt hge hge
  · omega
  · refine ⟨h.master.serve_command_end _, h.slave, ?_⟩
    rw [Controller.requests_serve_command_end]
    exact fun hmem => h.line (Finset.mem_of_mem_erase hmem)
  · refine ⟨h.master.serve_command_end _, h.slave.serve_command_end _, ?_⟩
    rw [Controller.requests_serve_command_end]
    exact Finset.notMem_erase 2 _
  · omega

/-- What has been acknowledged is not pending any more, and everything else is. -/
theorem mem_pending_finish (h : p.Ready a b) {m : Fin 16} :
    m ∈ ((p.served n).finish n).pending ↔ m ≠ n ∧ m ∈ p.pending := by
  have hge : ¬n.val < 8 ↔ 8 ≤ n.val := Nat.not_lt
  by_cases hn : n.val < 8 <;> by_cases hm : m.val < 8
  · rw [mem_pending_master hm, mem_pending_master hm, served, finish, dif_pos hn,
      Controller.requests_serve_command_end, Finset.mem_erase]
    simp only [ne_eq, Fin.ext_iff]
  · have hne : m ≠ n := fun heq => hm (heq ▸ hn)
    rw [mem_pending_slave hm, mem_pending_slave hm, served, finish, dif_pos hn,
      if_neg (Nat.not_le.2 hn)]
    simp only [ne_eq, hne, not_false_eq_true, true_and]
  · -- The line of the slave is no request of the master's own.
    have hne : m ≠ n := fun heq => hn (heq ▸ hm)
    rw [mem_pending_master hm, mem_pending_master hm, served, finish, dif_neg hn,
      Controller.requests_serve_command_end, Finset.mem_erase]
    simp only [ne_eq, hne, not_false_eq_true, true_and, and_iff_right_iff_imp]
    exact fun hmem heq => h.line (heq ▸ hmem)
  · rw [mem_pending_slave hm, mem_pending_slave hm, served, finish, dif_neg hn,
      if_pos (hge.1 hn), Controller.requests_serve_command_end, Finset.mem_erase]
    simp only [ne_eq, Fin.ext_iff]
    exact and_congr_left fun _ => not_congr (by omega)

end Controllers

end Prog
