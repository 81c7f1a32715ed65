import SmartOS.Strings.Numbers

/-!
# `qemu_printf`

The formatted output of `SmartOS.cpp`, which debug builds write to the serial port: a
loop that goes through the format character by character, and one character further
after a `%`, whatever that is. The waiting for the port is left out.

The arguments are those that a caller passes, in the types that they are promoted to;
`va_arg` of another type than the next argument's is undefined, and fails. For `%c`
the program uses `va_arg(ls, char)`, but a `char` is passed as an `int`: what that
gives, if anything, is a parameter (`vaChar`). Strings are apart from the buffers of
`itoa` and `uitoa`, as those of all callers are.

* `expand`: what should be printed;
* `Printable`: the formats and arguments that are printed right, which leave out a `%`
  at the end (the loop then passes over the NUL), the lowest `int`, of which `itoa`
  never returns, and the characters that `vaChar` gets wrong;
* `prints_iff`: the loop, by induction on what is left of the format (`At`), and
  `qemuPrintf_iff`: what is printed right is exactly what is printable.
-/

namespace SmartOS

open Prog

def ascii (c : Char) : Byte := BitVec.ofNat 8 c.toNat

/-- A string in memory. -/
structure CString where
  memory : Cells Byte
  chars : List Byte
  holds : HoldsString memory chars

/-- An argument after the format. -/
inductive Arg
  | int (n : BitVec 32)
  | uint (n : BitVec 32)
  | size (n : BitVec 64)
  | str (s : CString)
  | char (c : Byte)

structure PrintState where
  /-- How far `frmt` has gone. -/
  pos : ℕ
  args : List Arg
  out : List Byte
  /-- The characters of the format that have been read. -/
  reads : List ℕ
  itoaBuffer : Cells Byte
  uitoaBuffer : Cells Byte

namespace PrintState

/-- `*frmt` is read. -/
def read (s : PrintState) : PrintState := { s with reads := s.reads ++ [s.pos] }

/-- `frmt++` -/
def advance (s : PrintState) : PrintState := { s with pos := s.pos + 1 }

/-- `qemu_putc`, of some characters. -/
def put (s : PrintState) (cs : List Byte) : PrintState := { s with out := s.out ++ cs }

end PrintState

/-- A round of the loop of `qemu_print`, with `i` and what has been printed. -/
def printRound (str : ℕ → Byte) : ℕ × List Byte → (ℕ × List Byte) ⊕ (ℕ × List Byte) :=
  whileDo (fun (i, _) => str i != 0) fun (i, out) => (i + 1, out ++ [str i])

/-- What `qemu_print(str)` prints. -/
def qemuPrint (str : ℕ → Byte) (n : ℕ) : Option (List Byte) :=
  (loop (printRound str) n (0, [])).map (·.2)

section

variable (vaChar : Byte → Option Byte)

/-- What is done for the character `c` after a `%`. -/
def printDirective (c : Byte) (n : ℕ) (s : PrintState) : Option (Option PrintState) :=
  if c = ascii 'd' then
    match s.args with
    | .int k :: args =>
      (itoa k 10 s.itoaBuffer n).bind fun str => (qemuPrint str.vals n).bind fun cs =>
        some (some ({ s with args := args, itoaBuffer := str }.put cs))
    | _ => some none
  else if c = ascii 'u' then
    match s.args with
    | .uint k :: args =>
      (uitoa k.toNat 10 s.uitoaBuffer n).bind fun str => (qemuPrint str.vals n).bind fun cs =>
        some (some ({ s with args := args, uitoaBuffer := str }.put cs))
    | _ => some none
  else if c = ascii 'x' then
    match s.args with
    | .size k :: args =>
      (uitoa k.toNat 16 s.uitoaBuffer n).bind fun str => (qemuPrint str.vals n).bind fun cs =>
        some (some ({ s with args := args, uitoaBuffer := str }.put cs))
    | _ => some none
  else if c = ascii '%' then some (some (s.put [ascii '%']))
  else if c = ascii 's' then
    match s.args with
    | .str t :: args =>
      (qemuPrint t.memory.vals n).bind fun cs => some (some ({ s with args := args }.put cs))
    | _ => some none
  else if c = ascii 'c' then
    match s.args with
    | .char k :: args => some ((vaChar k).map fun k => { s with args := args }.put [k])
    | _ => some none
  else some (some s)

/-- `qemu_printf`, from a state on. -/
def qemuPrintf (frmt : ℕ → Byte) : ℕ → PrintState → Option (Option PrintState)
  | 0, _ => none
  | n + 1, s =>
    let c := frmt s.pos
    let s := s.read
    if c = 0 then some (some s)
    else if c = ascii '%' then
      let s := s.advance
      andThen (printDirective vaChar (frmt s.pos) n s.read) fun s => qemuPrintf frmt n s.advance
    else qemuPrintf frmt n (s.put [c]).advance

end

/-! ## What should be printed -/

/-- What is printed for the character `c` after a `%`, and the arguments that are left. -/
def conversion (c : Byte) (args : List Arg) : Option (List Byte × List Arg) :=
  if c = ascii 'd' then
    match args with
    | .int k :: args => some (signedDecimal k.toInt, args)
    | _ => none
  else if c = ascii 'u' then
    match args with
    | .uint k :: args => some (numeral 10 k.toNat, args)
    | _ => none
  else if c = ascii 'x' then
    match args with
    | .size k :: args => some (numeral 16 k.toNat, args)
    | _ => none
  else if c = ascii '%' then some ([ascii '%'], args)
  else if c = ascii 's' then
    match args with
    | .str t :: args => some (t.chars, args)
    | _ => none
  else if c = ascii 'c' then
    match args with
    | .char k :: args => some ([k], args)
    | _ => none
  else some ([], args)

/-- What a format stands for, with arguments that match it. -/
def expand : List Byte → List Arg → Option (List Byte)
  | [], _ => some []
  | [c], _ => some (if c = ascii '%' then [] else [c])
  | c :: d :: s, args =>
    if c = ascii '%' then
      (conversion d args).bind fun (cs, args) => (expand s args).map (cs ++ ·)
    else (expand (d :: s) args).map (c :: ·)

/-- The conversion is printed right: it is not of the lowest `int`, or of a character that `vaChar`
gets wrong. -/
def Convertible (vaChar : Byte → Option Byte) (c : Byte) : List Arg → Prop
  | .int k :: _ => c = ascii 'd' → k.toInt ≠ -2 ^ 31
  | .char k :: _ => c = ascii 'c' → vaChar k = some k
  | _ => True

/-- No `%` is at the end, and every conversion is printed right. -/
def Printable (vaChar : Byte → Option Byte) : List Byte → List Arg → Prop
  | [], _ => True
  | [c], _ => c ≠ ascii '%'
  | c :: d :: s, args =>
    if c = ascii '%' then
      Convertible vaChar d args ∧
        ∀ r ∈ conversion d args, Printable vaChar s r.2
    else Printable vaChar (d :: s) args

instance (vaChar : Byte → Option Byte) (c : Byte) : ∀ args, Decidable (Convertible vaChar c args)
  | .int k :: _ => inferInstanceAs (Decidable (c = ascii 'd' → k.toInt ≠ -2 ^ 31))
  | .char k :: _ => inferInstanceAs (Decidable (c = ascii 'c' → vaChar k = some k))
  | [] | .uint _ :: _ | .size _ :: _ | .str _ :: _ => isTrue trivial

instance decidablePrintable (vaChar : Byte → Option Byte) :
    ∀ s args, Decidable (Printable vaChar s args)
  | [], _ => isTrue trivial
  | [c], _ => inferInstanceAs (Decidable (c ≠ ascii '%'))
  | c :: d :: s, args =>
    have := decidablePrintable vaChar s
    have := decidablePrintable vaChar (d :: s) args
    inferInstanceAs (Decidable (if c = ascii '%' then
      Convertible vaChar d args ∧ ∀ r ∈ conversion d args, Printable vaChar s r.2
    else Printable vaChar (d :: s) args))

/-- The call from a state on returns, prints these characters, and reads none of the format beyond
its NUL. -/
def Prints (vaChar : Byte → Option Byte) (frmt : CString) (s : PrintState) (out : List Byte) :
    Prop :=
  ∃ f, Returns (fun n => qemuPrintf vaChar frmt.memory.vals n s) (some f) ∧ f.out = s.out ++ out ∧
    ∀ i ∈ f.reads, i ≤ frmt.chars.length

/-! ## The strings -/

/-- A string is printed up to its NUL. -/
theorem returns_qemuPrint {str : Cells Byte} {cs : List Byte} (h : HoldsString str cs) :
    Returns (qemuPrint str.vals) cs := by
  have hloop : ∃ s, Returns (fun n => loop (printRound str.vals) n (0, [])) s ∧ s.2 = cs := by
    refine returns_loop_of_measure (fun s => s.1 ≤ cs.length ∧ s.2 = cs.take s.1)
      (fun s => cs.length - s.1) ?_ ⟨Nat.zero_le _, rfl⟩
    rintro ⟨i, out⟩ ⟨hi, hout⟩
    dsimp only at hi hout
    subst hout
    rcases hi.lt_or_eq with hlt | rfl
    · have hchar := h.chars i hlt
      have hne : str.vals i ≠ 0 := fun hzero => h.ne_zero (hzero ▸ List.mem_of_getElem? hchar)
      refine .inl ⟨_, if_pos (bne_iff_ne.2 hne), ⟨hlt, ?_⟩, ?_⟩
      · dsimp only
        rw [List.take_add_one, hchar]
        rfl
      · dsimp only
        omega
    · exact .inr ⟨_, if_neg (by simp [h.terminated]), List.take_length⟩
  obtain ⟨s, hreturns, rfl⟩ := hloop
  exact hreturns.map _

/-! ## The directives -/

section

variable {vaChar : Byte → Option Byte} {c : Byte} {s : PrintState} {cs : List Byte}
  {args : List Arg}

/-- What comes of a number's string, and of printing it. -/
theorem exists_of_bind {α β γ : Type*} {x : Option α} {f : α → Option β} {g : α → β → γ} {r : γ}
    (h : (x.bind fun a => (f a).bind fun b => some (g a b)) = some r) : ∃ a b, r = g a b := by
  obtain ⟨a, -, h⟩ := Option.bind_eq_some_iff.1 h
  obtain ⟨b, -, h⟩ := Option.bind_eq_some_iff.1 h
  exact ⟨a, b, (Option.some.inj h).symm⟩

/-- All that a directive changes: some characters are printed, and the arguments and the buffers
may be others. -/
theorem printDirective_cases {n : ℕ} {f : PrintState}
    (h : printDirective vaChar c n s = some (some f)) :
    ∃ cs args a b, f = { s with
      args := args, out := s.out ++ cs, itoaBuffer := a, uitoaBuffer := b } := by
  obtain ⟨pos, args₀, out, reads, a₀, b₀⟩ := s
  unfold printDirective at h
  split_ifs at h
  · obtain _ | ⟨_ | _ | _ | _ | _, rest⟩ := args₀ <;> try cases h
    obtain ⟨str, cs, h⟩ := exists_of_bind h
    exact ⟨cs, rest, str, b₀, Option.some.inj h⟩
  · obtain _ | ⟨_ | _ | _ | _ | _, rest⟩ := args₀ <;> try cases h
    obtain ⟨str, cs, h⟩ := exists_of_bind h
    exact ⟨cs, rest, a₀, str, Option.some.inj h⟩
  · obtain _ | ⟨_ | _ | _ | _ | _, rest⟩ := args₀ <;> try cases h
    obtain ⟨str, cs, h⟩ := exists_of_bind h
    exact ⟨cs, rest, a₀, str, Option.some.inj h⟩
  · cases h
    exact ⟨[ascii '%'], args₀, a₀, b₀, rfl⟩
  · obtain _ | ⟨_ | _ | _ | _ | _, rest⟩ := args₀ <;> try cases h
    obtain ⟨cs, -, h⟩ := Option.bind_eq_some_iff.1 h
    exact ⟨cs, rest, a₀, b₀, (Option.some.inj (Option.some.inj h)).symm⟩
  · obtain _ | ⟨_ | _ | _ | _ | _, rest⟩ := args₀ <;> try cases h
    obtain ⟨k, -, rfl⟩ := Option.map_eq_some_iff.1 (Option.some.inj h)
    exact ⟨[k], rest, a₀, b₀, rfl⟩
  · cases h
    exact ⟨[], args₀, a₀, b₀, by rw [List.append_nil]⟩

/-- A directive that is printed right. -/
theorem returns_printDirective (h : conversion c s.args = some (cs, args))
    (hright : Convertible vaChar c s.args) :
    ∃ f, Returns (fun n => printDirective vaChar c n s) (some f) ∧ f.pos = s.pos ∧
      f.reads = s.reads ∧ f.args = args ∧ f.out = s.out ++ cs := by
  obtain ⟨pos, args₀, out, reads, a₀, b₀⟩ := s
  dsimp only at h hright
  unfold conversion at h
  by_cases hd : c = ascii 'd'
  · rw [if_pos hd] at h
    obtain _ | ⟨k | _ | _ | _ | _, rest⟩ := args₀ <;> cases h
    obtain ⟨r, hreturns, hr, -⟩ := returns_itoa_ten (hright hd) a₀
    simp only [printDirective, if_pos hd]
    exact ⟨_, hreturns.bind ((returns_qemuPrint hr).bind (.pure _)), rfl, rfl, rfl, rfl⟩
  rw [if_neg hd] at h
  by_cases hu : c = ascii 'u'
  · rw [if_pos hu] at h
    obtain _ | ⟨_ | k | _ | _ | _, rest⟩ := args₀ <;> cases h
    obtain ⟨r, hreturns, hr, -⟩ := @returns_uitoa 10 (by decide) (by decide) k.toNat b₀
    simp only [printDirective, if_neg hd, if_pos hu]
    exact ⟨_, hreturns.bind ((returns_qemuPrint hr).bind (.pure _)), rfl, rfl, rfl, rfl⟩
  rw [if_neg hu] at h
  by_cases hx : c = ascii 'x'
  · rw [if_pos hx] at h
    obtain _ | ⟨_ | _ | k | _ | _, rest⟩ := args₀ <;> cases h
    obtain ⟨r, hreturns, hr, -⟩ := @returns_uitoa 16 (by decide) (by decide) k.toNat b₀
    simp only [printDirective, if_neg hd, if_neg hu, if_pos hx]
    exact ⟨_, hreturns.bind ((returns_qemuPrint hr).bind (.pure _)), rfl, rfl, rfl, rfl⟩
  rw [if_neg hx] at h
  by_cases hp : c = ascii '%'
  · rw [if_pos hp] at h
    cases h
    simp only [printDirective, if_neg hd, if_neg hu, if_neg hx, if_pos hp]
    exact ⟨_, .pure _, rfl, rfl, rfl, rfl⟩
  rw [if_neg hp] at h
  by_cases hs : c = ascii 's'
  · rw [if_pos hs] at h
    obtain _ | ⟨_ | _ | _ | t | _, rest⟩ := args₀ <;> cases h
    simp only [printDirective, if_neg hd, if_neg hu, if_neg hx, if_neg hp, if_pos hs]
    exact ⟨_, (returns_qemuPrint t.holds).bind (.pure _), rfl, rfl, rfl, rfl⟩
  rw [if_neg hs] at h
  by_cases hc : c = ascii 'c'
  · rw [if_pos hc] at h
    obtain _ | ⟨_ | _ | _ | _ | k, rest⟩ := args₀ <;> cases h
    have hk : vaChar k = some k := hright hc
    simp only [printDirective, if_neg hd, if_neg hu, if_neg hx, if_neg hp, if_neg hs, if_pos hc, hk]
    exact ⟨_, .pure _, rfl, rfl, rfl, rfl⟩
  rw [if_neg hc] at h
  cases h
  simp only [printDirective, if_neg hd, if_neg hu, if_neg hx, if_neg hp, if_neg hs, if_neg hc]
  exact ⟨_, .pure _, rfl, rfl, rfl, (List.append_nil out).symm⟩

/-- A directive that is not: it does not return, or prints another character. -/
theorem printDirective_wrong (h : conversion c s.args = some (cs, args))
    (hwrong : ¬Convertible vaChar c s.args) :
    (∀ n f, printDirective vaChar c n s ≠ some (some f)) ∨
      ∃ k k' f, cs = [k] ∧ k' ≠ k ∧ Returns (fun n => printDirective vaChar c n s) (some f) ∧
        f.out = s.out ++ [k'] := by
  obtain ⟨pos, args₀, out, reads, a₀, b₀⟩ := s
  obtain _ | ⟨k | _ | _ | _ | k, rest⟩ := args₀ <;> try exact absurd trivial hwrong
  · obtain ⟨rfl, hk⟩ := Classical.not_imp.1 hwrong
    refine .inl fun n f hf => ?_
    simp only [printDirective, if_true, diverges_itoa_intMin (not_ne_iff.1 hk) a₀ n] at hf
    cases hf
  · obtain ⟨rfl, hk⟩ := Classical.not_imp.1 hwrong
    have hdirective : ∀ n, printDirective vaChar (ascii 'c') n ⟨pos, .char k :: rest, out, reads,
        a₀, b₀⟩ = some ((vaChar k).map fun k => ⟨pos, rest, out ++ [k], reads, a₀, b₀⟩) :=
      fun n => rfl
    simp only [hdirective]
    cases hva : vaChar k with
    | none => exact .inl fun n f hf => by cases hf
    | some k' =>
      refine .inr ⟨k, k', _, ?_, fun heq => hk (heq ▸ hva), .pure _, rfl⟩
      exact (congrArg Prod.fst (Option.some.inj h)).symm

end

/-! ## The loop over the format -/

/-- What has been printed and read stays so. -/
structure Grows (s f : PrintState) : Prop where
  out : s.out <+: f.out
  reads : s.reads ⊆ f.reads

theorem Grows.trans {s s' f : PrintState} (h : Grows s s') (h' : Grows s' f) : Grows s f :=
  ⟨h.out.trans h'.out, List.Subset.trans h.reads h'.reads⟩

section

variable {vaChar : Byte → Option Byte} {frmt : ℕ → Byte} {s f : PrintState}

theorem grows_read : Grows s s.read := ⟨List.prefix_rfl, List.subset_append_left _ _⟩

/-- A run begins with a read, and everything comes to stay. -/
theorem grows_qemuPrintf {n : ℕ} (h : qemuPrintf vaChar frmt n s = some (some f)) :
    Grows s.read f := by
  induction n generalizing s with
  | zero => cases h
  | succ n ih =>
    simp only [qemuPrintf] at h
    split_ifs at h with hzero hpercent
    · cases h
      exact ⟨List.prefix_rfl, List.Subset.refl _⟩
    · obtain ⟨_ | s', hdirective, h⟩ := Option.bind_eq_some_iff.1 h
      · cases h
      · obtain ⟨cs, args, a, b, rfl⟩ := printDirective_cases hdirective
        have hprinted : Grows s.read { s.read.advance.read with
            pos := s.pos + 2, args := args, out := s.out ++ cs, itoaBuffer := a,
            uitoaBuffer := b } :=
          ⟨List.prefix_append _ _, List.subset_append_left _ _⟩
        exact hprinted.trans (grows_read.trans (ih h))
    · have hprinted : Grows s.read (s.read.put [frmt s.pos]).advance :=
        ⟨List.prefix_append _ _, List.Subset.refl _⟩
      exact hprinted.trans (grows_read.trans (ih h))

/-- At the NUL. -/
theorem returns_qemuPrintf_end (h : frmt s.pos = 0) :
    Returns (fun n => qemuPrintf vaChar frmt n s) (some s.read) := by
  refine Returns.succ_iff.1 ?_
  simp only [qemuPrintf, if_pos h]
  exact .pure _

/-- At a character that is printed. -/
theorem returns_qemuPrintf_char (hzero : frmt s.pos ≠ 0) (hpercent : frmt s.pos ≠ ascii '%') :
    Returns (fun n => qemuPrintf vaChar frmt n s) (some f) ↔
      Returns (fun n => qemuPrintf vaChar frmt n (s.read.put [frmt s.pos]).advance) (some f) := by
  rw [← Returns.succ_iff]
  simp only [qemuPrintf, if_neg hzero, if_neg hpercent]

/-- At a `%`. -/
theorem returns_qemuPrintf_percent (hpercent : frmt s.pos = ascii '%') :
    Returns (fun n => qemuPrintf vaChar frmt n s) (some f) ↔
      Returns (fun n => andThen (printDirective vaChar (frmt (s.pos + 1)) n s.read.advance.read)
        fun s => qemuPrintf vaChar frmt n s.advance) (some f) := by
  have hzero : frmt s.pos ≠ 0 := hpercent ▸ by decide
  rw [← Returns.succ_iff]
  simp only [qemuPrintf, if_neg hzero, if_pos hpercent]
  rfl

end

/-! ## What is printed -/

/-- The invariant of the loop: this is left of the format, and nothing beyond its NUL has been
read. -/
structure At (frmt : CString) (s : PrintState) (suffix : List Byte) : Prop where
  pos : s.pos ≤ frmt.chars.length
  suffix : frmt.chars.drop s.pos = suffix
  reads : ∀ i ∈ s.reads, i ≤ frmt.chars.length

namespace At

variable {frmt : CString} {s s' : PrintState} {suffix : List Byte} {c : Byte}

theorem pos_eq (h : At frmt s []) : s.pos = frmt.chars.length :=
  h.pos.antisymm (List.drop_eq_nil_iff.1 h.suffix)

theorem vals_eq_zero (h : At frmt s []) : frmt.memory.vals s.pos = 0 :=
  h.pos_eq ▸ frmt.holds.terminated

theorem getElem? (h : At frmt s (c :: suffix)) : frmt.chars[s.pos]? = some c := by
  rw [← List.head?_drop, h.suffix, List.head?_cons]

theorem pos_lt (h : At frmt s (c :: suffix)) : s.pos < frmt.chars.length :=
  (List.getElem?_eq_some_iff.1 h.getElem?).1

theorem vals_eq (h : At frmt s (c :: suffix)) : frmt.memory.vals s.pos = c :=
  Option.some.inj ((frmt.holds.chars s.pos h.pos_lt).symm.trans h.getElem?)

theorem ne_zero (h : At frmt s (c :: suffix)) : c ≠ 0 := fun hzero =>
  frmt.holds.ne_zero (hzero ▸ List.mem_of_getElem? h.getElem?)

/-- The character is read, and what comes after it is left. -/
theorem next (h : At frmt s (c :: suffix)) (hpos : s'.pos = s.pos + 1)
    (hreads : s'.reads = s.read.reads) : At frmt s' suffix where
  pos := hpos ▸ h.pos_lt
  suffix := by rw [hpos, ← List.tail_drop, h.suffix, List.tail_cons]
  reads := hreads ▸ List.forall_mem_append.2 ⟨h.reads, List.forall_mem_singleton.2 h.pos⟩

end At

section

variable {vaChar : Byte → Option Byte} {frmt : CString} {s s' : PrintState} {cs out : List Byte}

theorem prints_end (h : At frmt s []) : Prints vaChar frmt s [] :=
  ⟨s.read, returns_qemuPrintf_end h.vals_eq_zero, (List.append_nil _).symm,
    List.forall_mem_append.2 ⟨h.reads, List.forall_mem_singleton.2 h.pos⟩⟩

theorem prints_char_iff {c : Byte} (h : frmt.memory.vals s.pos = c) (hzero : c ≠ 0)
    (hpercent : c ≠ ascii '%') :
    Prints vaChar frmt s (c :: out) ↔ Prints vaChar frmt (s.read.put [c]).advance out := by
  subst h
  refine exists_congr fun f => and_congr (returns_qemuPrintf_char hzero hpercent)
    (and_congr ?_ Iff.rfl)
  rw [List.append_cons]
  rfl

theorem prints_percent_iff {c : Byte} (h : frmt.memory.vals s.pos = ascii '%')
    (hc : frmt.memory.vals (s.pos + 1) = c)
    (hdirective : Returns (fun n => printDirective vaChar c n s.read.advance.read) (some s'))
    (hout : s'.out = s.out ++ cs) :
    Prints vaChar frmt s (cs ++ out) ↔ Prints vaChar frmt s'.advance out := by
  subst hc
  refine exists_congr fun f => and_congr ?_ (and_congr ?_ Iff.rfl)
  · rw [returns_qemuPrintf_percent h]
    exact hdirective.bind_iff
  · rw [← List.append_assoc, ← hout]
    rfl

/-- The next character is read, so it is within the format. -/
theorem Prints.pos_le (h : Prints vaChar frmt s out) : s.pos ≤ frmt.chars.length := by
  obtain ⟨f, hreturns, -, hreads⟩ := h
  obtain ⟨n, hn⟩ := hreturns.exists_fuel
  refine hreads _ ((grows_qemuPrintf hn).reads ?_)
  exact List.mem_append_right _ (List.mem_singleton_self _)

/-- What a directive has printed is not taken back. -/
theorem not_prints_of_out {c : Byte} (h : frmt.memory.vals s.pos = ascii '%')
    (hc : frmt.memory.vals (s.pos + 1) = c)
    (hdirective : Returns (fun n => printDirective vaChar c n s.read.advance.read) (some s'))
    (hout : ¬s'.out <+: s.out ++ out) : ¬Prints vaChar frmt s out := by
  subst hc
  rintro ⟨f, hreturns, hf, -⟩
  rw [returns_qemuPrintf_percent h] at hreturns
  obtain ⟨n, hn⟩ := (hdirective.bind_iff.1 hreturns).exists_fuel
  exact hout (hf ▸ (grows_qemuPrintf hn).out)

/-- After a directive that does not return nothing is printed. -/
theorem not_prints_of_stuck {c : Byte} (h : frmt.memory.vals s.pos = ascii '%')
    (hc : frmt.memory.vals (s.pos + 1) = c)
    (hdirective : ∀ n f, printDirective vaChar c n s.read.advance.read ≠ some (some f)) :
    ¬Prints vaChar frmt s out := by
  subst hc
  rintro ⟨f, hreturns, -⟩
  rw [returns_qemuPrintf_percent h] at hreturns
  obtain ⟨n, hn⟩ := hreturns.exists_fuel
  obtain ⟨_ | s', hs', hf⟩ := Option.bind_eq_some_iff.1 hn
  · cases hf
  · exact hdirective n s' hs'

/-- At a directive that is printed right, the call goes on after it. -/
theorem prints_directive {c : Byte} {suffix : List Byte} {args : List Arg}
    (hat : At frmt s (ascii '%' :: c :: suffix)) (h : conversion c s.args = some (cs, args))
    (hright : Convertible vaChar c s.args) : ∃ s', At frmt s' suffix ∧ s'.args = args ∧
      (Prints vaChar frmt s (cs ++ out) ↔ Prints vaChar frmt s' out) := by
  have hat' : At frmt s.read.advance (c :: suffix) := hat.next rfl rfl
  obtain ⟨s', hdirective, hpos, hreads, hargs, hout⟩ :=
    @returns_printDirective vaChar c s.read.advance.read cs args h hright
  exact ⟨s'.advance, hat'.next (congrArg (· + 1) hpos) hreads, hargs,
    prints_percent_iff hat.vals_eq hat'.vals_eq hdirective hout⟩

/-- At one that is not, it does not print what it should. -/
theorem not_prints_directive {c : Byte} {suffix : List Byte} {args : List Arg}
    (hat : At frmt s (ascii '%' :: c :: suffix)) (h : conversion c s.args = some (cs, args))
    (hwrong : ¬Convertible vaChar c s.args) : ¬Prints vaChar frmt s (cs ++ out) := by
  have hat' : At frmt s.read.advance (c :: suffix) := hat.next rfl rfl
  obtain hstuck | ⟨k, k', s', rfl, hne, hdirective, hout⟩ :=
    @printDirective_wrong vaChar c s.read.advance.read cs args h hwrong
  · exact not_prints_of_stuck hat.vals_eq hat'.vals_eq hstuck
  · refine not_prints_of_out hat.vals_eq hat'.vals_eq hdirective fun hprefix => ?_
    have hhead : [k'] <+: k :: out := (List.prefix_append_right_inj s.out).1 (hout ▸ hprefix)
    exact hne (List.cons_prefix_cons.1 hhead).1

/-- At a `%` at the end, the loop goes on at the character after the NUL. -/
theorem not_prints_percent (hat : At frmt s [ascii '%']) : ¬Prints vaChar frmt s [] := by
  have hat' : At frmt s.read.advance [] := hat.next rfl rfl
  intro hprints
  have hpast : Prints vaChar frmt s.read.advance.read.advance [] :=
    (prints_percent_iff hat.vals_eq hat'.vals_eq_zero (.pure _) (List.append_nil _).symm).1 hprints
  exact absurd (hat'.pos_eq ▸ hpast.pos_le) (Nat.not_succ_le_self _)

/-- The call from a state on, in which the loop has come to a suffix of the format. -/
theorem prints_iff {suffix : List Byte} {args : List Arg} (hat : At frmt s suffix)
    (hargs : s.args = args) (h : expand suffix args = some out) :
    Prints vaChar frmt s out ↔ Printable vaChar suffix args := by
  induction suffix, args using expand.induct generalizing out s with
  | case1 args =>
    cases h
    exact iff_of_true (prints_end hat) trivial
  | case2 c args =>
    by_cases hc : c = ascii '%'
    · subst hc
      cases h
      exact iff_of_false (not_prints_percent hat) (not_not.2 rfl)
    · rw [expand, if_neg hc] at h
      cases h
      exact iff_of_true ((prints_char_iff hat.vals_eq hat.ne_zero hc).2
        (prints_end (hat.next rfl rfl))) hc
  | case3 d suffix args ih =>
    subst hargs
    rw [expand, if_pos rfl] at h
    obtain ⟨⟨cs, rest⟩, hconversion, h⟩ := Option.bind_eq_some_iff.1 h
    obtain ⟨tail, htail, rfl⟩ := Option.map_eq_some_iff.1 h
    rw [Printable, if_pos rfl, hconversion]
    by_cases hright : Convertible vaChar d s.args
    · obtain ⟨s', hat', hrest, hprints⟩ := prints_directive hat hconversion hright
      rw [hprints, ih rest hat' hrest htail]
      constructor
      · intro hprintable
        refine ⟨hright, ?_⟩
        rintro _ ⟨⟩
        exact hprintable
      · exact fun hprintable => hprintable.2 _ rfl
    · exact iff_of_false (not_prints_directive hat hconversion hright) fun h => hright h.1
  | case4 c d suffix args hc ih =>
    rw [expand, if_neg hc] at h
    obtain ⟨tail, htail, rfl⟩ := Option.map_eq_some_iff.1 h
    rw [Printable, if_neg hc, prints_char_iff hat.vals_eq hat.ne_zero hc]
    exact ih (hat.next rfl rfl) hargs htail

theorem at_start (frmt : CString) (args : List Arg) (a b : Cells Byte) :
    At frmt ⟨0, args, [], [], a, b⟩ frmt.chars :=
  ⟨Nat.zero_le _, List.drop_zero, fun _ h => absurd h List.not_mem_nil⟩

/-- With arguments that match the format, the call prints what it stands for, and reads nothing
beyond its NUL, exactly for the formats and arguments that are printable. -/
theorem qemuPrintf_iff (vaChar : Byte → Option Byte) (frmt : CString) (args : List Arg)
    (out : List Byte) (itoaBuffer uitoaBuffer : Cells Byte)
    (h : expand frmt.chars args = some out) :
    Prints vaChar frmt ⟨0, args, [], [], itoaBuffer, uitoaBuffer⟩ out ↔
      Printable vaChar frmt.chars args :=
  prints_iff (at_start frmt args itoaBuffer uitoaBuffer) rfl h

end

/-- A string with zeros after it. -/
def CString.ofChars (cs : List Byte) (h : 0 ∉ cs) : CString where
  memory := ⟨fun i => cs.getD i 0, []⟩
  chars := cs
  holds := ⟨fun i hi => by simp [hi], by simp, h⟩

theorem qemuPrintf_directives :
    Prints some (.ofChars ("%d %u %x %s%c%%%z".toList.map ascii) (by decide))
      ⟨0, [.int (-2), .uint 5, .size 0xCAFE, .str (.ofChars ("ok".toList.map ascii) (by decide)),
        .char 0x21], [], [], ⟨fun _ => 0, []⟩, ⟨fun _ => 0, []⟩⟩
      ("-2 5 cafe ok!%".toList.map ascii) := by
  refine (qemuPrintf_iff _ _ _ _ _ _ ?_).2 ?_
  · decide
  · decide

/-- The format of a `%` alone. -/
theorem not_prints : ¬∀ (vaChar : Byte → Option Byte) (frmt : CString) (args : List Arg)
    (out : List Byte) (itoaBuffer uitoaBuffer : Cells Byte), expand frmt.chars args = some out →
    Prints vaChar frmt ⟨0, args, [], [], itoaBuffer, uitoaBuffer⟩ out := by
  intro h
  have hprints :=
    h some (.ofChars [ascii '%'] (by decide)) [] [] ⟨fun _ => 0, []⟩ ⟨fun _ => 0, []⟩ rfl
  exact (prints_iff (at_start _ _ _ _) rfl rfl).1 hprints rfl

end SmartOS
