import SmartOS.PS2.Basic

/-!
# The handshake with the keyboard controller

A byte should only be written when the controller has taken the last one, and only
be read when there is one: the wait before has seen it, or has given up after so many
reads of the status (`Handshake`). What a driver has read in the wait that it is in
is `waiting`.

`keyWaitSignal` and `mouseWaitSignal` stop when they see the opposite, so that they
are only right when they never do (`StaysEmpty`). `keyRead` uses the first of them,
too, to wait for data; `keyWaitData` and `mouseWaitData` are right.

* `Ready`: the statuses with which an access is right;
* `Settled`: the invariant between two accesses that are not reads of the status,
  which every function keeps (`Keeps`);
* `handshakes_iff`: all accesses of any calls are right exactly when those are the
  statuses.
-/

namespace SmartOS

open Prog

/-- The statuses read since the last other access: those of the wait before the next one. -/
def waiting (accesses : List PortAccess) : List (Wait × Byte) :=
  accesses.foldl (fun w a => match a with
    | .status wait value => w ++ [(wait, value)]
    | _ => []) []

/-- The access `a`, after the others, is right: the wait before it has used up its timeout, or
seen in the end that the controller has taken the last byte, or that it has one. -/
def Handshake (before : List PortAccess) (a : PortAccess) : Prop :=
  match a with
  | .status _ _ => True
  | .write _ _ => timeout ≤ (waiting before).length ∨
      ∃ s ∈ (waiting before).getLast?, s.2 &&& 2 = 0
  | .read _ => timeout ≤ (waiting before).length ∨
      ∃ s ∈ (waiting before).getLast?, s.2 &&& 1 ≠ 0

section

variable (device : ℕ → Byte)

/-- From the read number `m` on, the controller has always taken the last byte, for as long as a
wait may go on (but for its last read). -/
def StaysEmpty (m : ℕ) : Prop := ∀ k, k + 1 < timeout → device (m + k) &&& 2 = 0

/-- From the read number `m` on, the first status with bit 1 has bit 0, too. -/
def FillsWithData (m : ℕ) : Prop :=
  ∃ k < timeout, (∀ j < k, device (m + j) &&& 2 = 0) ∧ device (m + k) &&& 2 ≠ 0 ∧
    device (m + k) &&& 1 ≠ 0

/-- What the statuses have to be for the access `a` to be right, from the read on with which the
wait before it starts. -/
def Ready (before : List PortAccess) (a : PortAccess) : Prop :=
  let start := readCount before - (waiting before).length
  match a with
  | .status _ _ => True
  | .write _ _ => StaysEmpty device start
  | .read _ => (∀ s ∈ waiting before, s.1 = .data) ∨ StaysEmpty device start ∨
      FillsWithData device start

/-- Between two accesses that are not reads of the status: no wait has begun, and the accesses so
far were right exactly when the statuses were those that they had to be. -/
structure Settled (accesses : List PortAccess) : Prop where
  waiting_eq : waiting accesses = []
  every : Every (fun before a => Handshake before a ↔ Ready device before a) accesses

/-- A program of which every access has the wait that it needs. -/
def Keeps {α : Type} (p : Driver α) : Prop :=
  ∀ accesses, Settled device accesses → Settled device (p accesses).2

end

/-! ## Waiting -/

section

variable {device : ℕ → Byte} {wait : Wait} {mask : Byte} {n : ℕ} {accesses : List PortAccess}

theorem waiting_snoc (a : PortAccess) : waiting (accesses ++ [a]) =
    match a with
    | .status wait value => waiting accesses ++ [(wait, value)]
    | _ => [] := by
  rw [waiting, List.foldl_append]
  rfl

theorem readCount_snoc (a : PortAccess) :
    readCount (accesses ++ [a]) = readCount accesses + if a.isRead then 1 else 0 := by
  rw [readCount, List.countP_append, List.countP_singleton]
  rfl

/-- The statuses that are read in a wait. -/
def polledStatuses (device : ℕ → Byte) (mask : Byte) (n m : ℕ) : List Byte :=
  polled device (fun status => status &&& mask ≠ 0) n m

theorem waitLoop_eq : waitLoop device wait mask n accesses =
    ((), accesses ++ (polledStatuses device mask n (readCount accesses)).map (.status wait)) := by
  induction n generalizing accesses with
  | zero => exact congrArg (Prod.mk ()) (List.append_nil accesses).symm
  | succ n ih =>
    set value := device (readCount accesses) with hvalue
    have hstep : waitLoop device wait mask (n + 1) accesses =
        (if value &&& mask ≠ 0 then pure () else waitLoop device wait mask n : Driver Unit)
          (accesses ++ [.status wait value]) := rfl
    rw [hstep, polledStatuses, polled, List.map_cons, ← hvalue]
    by_cases hstop : value &&& mask ≠ 0
    · rw [if_pos hstop, if_pos (decide_eq_true hstop)]
      rfl
    · rw [if_neg hstop, if_neg (by simpa using hstop), ih, readCount_snoc]
      exact congrArg (Prod.mk ()) (List.append_assoc _ _ _)

/-- After the reads of a wait, they are what has been waited for. -/
theorem waiting_append_statuses (values : List Byte) :
    waiting (accesses ++ values.map (.status wait)) =
      waiting accesses ++ values.map fun value => (wait, value) := by
  induction values using List.reverseRecOn with
  | nil => simp
  | append_singleton values value ih =>
    rw [List.map_append, List.map_singleton, ← List.append_assoc, waiting_snoc, ih, List.map_append,
      List.map_singleton]
    exact List.append_assoc _ _ _

theorem readCount_append_statuses (values : List Byte) :
    readCount (accesses ++ values.map (.status wait)) = readCount accesses + values.length := by
  induction values using List.reverseRecOn with
  | nil => simp
  | append_singleton values value ih =>
    rw [List.map_append, List.map_singleton, ← List.append_assoc, readCount_snoc, ih,
      List.length_append, List.length_singleton]
    exact Nat.add_assoc _ _ _

/-- The reads of the status in a wait are all right. -/
theorem Settled.every_append_statuses (h : Settled device accesses) (values : List Byte) :
    Every (fun before a => Handshake before a ↔ Ready device before a)
      (accesses ++ values.map (.status wait)) := by
  induction values using List.reverseRecOn with
  | nil => rw [List.map_nil, List.append_nil]; exact h.every
  | append_singleton values value ih =>
    rw [List.map_append, List.map_singleton, ← List.append_assoc]
    exact every_snoc.2 ⟨ih, Iff.rfl⟩

/-- An access after a wait, which is right exactly when the statuses are. -/
theorem Settled.access (h : Settled device accesses) {a : PortAccess}
    (ha : ∀ before, waiting (before ++ [a]) = [])
    (hready : ∀ before,
      waiting before = (polledStatuses device mask timeout (readCount accesses)).map (wait, ·) →
      readCount before - (waiting before).length = readCount accesses →
      (Handshake before a ↔ Ready device before a)) :
    Settled device ((waitLoop device wait mask timeout accesses).2 ++ [a]) := by
  rw [waitLoop_eq]
  refine ⟨ha _, every_snoc.2 ⟨h.every_append_statuses _, hready _ ?_ ?_⟩⟩
  · rw [waiting_append_statuses, h.waiting_eq, List.nil_append]
  · rw [waiting_append_statuses, readCount_append_statuses, h.waiting_eq, List.nil_append,
      List.length_map, Nat.add_sub_cancel]

/-! ## Accesses -/

section

variable {before : List PortAccess} {m : ℕ}

/-- A wait for a signal goes on until its timeout exactly when the controller has always taken the
last byte. -/
theorem staysEmpty_iff :
    timeout ≤ (polledStatuses device 2 timeout m).length ↔ StaysEmpty device m := by
  refine (length_polled_iff device _ timeout m).trans (forall₂_congr fun k _ => ?_)
  rw [decide_eq_false_iff_not, not_not]

/-- A byte written after a wait for a signal. -/
theorem handshake_write_iff {port : ℕ} {data : Byte}
    (hw : waiting before = (polledStatuses device 2 timeout m).map (.signal, ·))
    (hm : readCount before - (waiting before).length = m) :
    Handshake before (.write port data) ↔ Ready device before (.write port data) := by
  rw [Handshake, Ready, hm, hw, List.length_map, staysEmpty_iff, List.getLast?_map]
  refine or_iff_left_of_imp ?_
  rintro ⟨s, hs, hempty⟩
  obtain ⟨value, hvalue, rfl⟩ := Option.mem_map.1 hs
  rw [← staysEmpty_iff]
  rcases polled_cases device _ timeout m with hlen | ⟨k, -, -, hstop, hlast, -⟩
  · exact hlen.1.ge
  · rw [polledStatuses, hlast] at hvalue
    cases hvalue
    exact absurd hempty (of_decide_eq_true hstop)

/-- A byte read after a wait for data is always right. -/
theorem handshake_read_data {value : Byte}
    (hw : waiting before = (polledStatuses device 1 timeout m).map (.data, ·)) :
    Handshake before (.read value) ↔ Ready device before (.read value) := by
  refine iff_of_true ?_ (.inl fun s hs => ?_)
  · rw [Handshake, hw, List.length_map, List.getLast?_map]
    rcases polled_cases device _ timeout m with hlen | ⟨k, -, -, hstop, hlast, -⟩
    · exact .inl hlen.1.ge
    · rw [polledStatuses, hlast]
      exact .inr ⟨_, rfl, of_decide_eq_true hstop⟩
  · rw [hw] at hs
    obtain ⟨_, -, rfl⟩ := List.mem_map.1 hs
    rfl

/-- A byte read after a wait for a signal. -/
theorem handshake_read_signal_iff {value : Byte}
    (hw : waiting before = (polledStatuses device 2 timeout m).map (.signal, ·))
    (hm : readCount before - (waiting before).length = m) :
    Handshake before (.read value) ↔ Ready device before (.read value) := by
  have hsignal : ¬∀ s ∈ (polledStatuses device 2 timeout m).map (Wait.signal, ·),
      s.1 = Wait.data := fun h => by
    obtain ⟨value, hvalue⟩ := List.exists_mem_of_ne_nil _
      (polled_ne_nil device _ timeout m (by decide))
    exact absurd (h _ (List.mem_map_of_mem hvalue)) (by simp)
  rw [Handshake, Ready, hm, hw, List.length_map, staysEmpty_iff, List.getLast?_map,
    or_iff_right hsignal, ← staysEmpty_iff]
  rcases polled_cases device _ timeout m with hlen | ⟨k, hk, hbefore, hstop, hlast, -⟩
  · exact iff_of_true (.inl hlen.1.ge) (.inl hlen.1.ge)
  · -- The wait has stopped at the first status with bit 1.
    have hfirst : FillsWithData device m ↔ device (m + k) &&& 1 ≠ 0 := by
      constructor
      · rintro ⟨j, hj, hbefore', hat, hdata⟩
        rcases lt_trichotomy j k with hlt | rfl | hlt
        · exact absurd hat (of_decide_eq_false (hbefore j hlt))
        · exact hdata
        · exact absurd (hbefore' k hlt) (of_decide_eq_true hstop)
      · exact fun hdata => ⟨k, hk, fun j hj => not_not.1 (of_decide_eq_false (hbefore j hj)),
          of_decide_eq_true hstop, hdata⟩
    rw [hfirst, polledStatuses, hlast]
    simp

end

/-! ## Programs -/

theorem Keeps.bind {α β : Type} {p : Driver α} {f : α → Driver β} (hp : Keeps device p)
    (hf : ∀ a, Keeps device (f a)) : Keeps device (p >>= f) :=
  fun accesses h => hf _ _ (hp accesses h)

/-- The rest of a program, after a wait and an access. -/
theorem Keeps.access_bind {α β γ : Type} {p : Driver α} {q : Driver β} {f : β → Driver γ}
    (h : Keeps device (p >>= fun _ => q)) (hf : ∀ b, Keeps device (f b)) :
    Keeps device (p >>= fun _ => q >>= f) :=
  fun accesses hs => hf _ _ (h accesses hs)

theorem keeps_pure {α : Type} (a : α) : Keeps device (pure a) := fun _ h => h

theorem keeps_write (port : ℕ) (data : Byte) :
    Keeps device (waitLoop device .signal 2 timeout >>= fun _ => outb port data) :=
  fun _ h => h.access (fun _ => waiting_snoc _) fun _ => handshake_write_iff

/-- A read of port 0x60 after `keyWaitSignal`. -/
theorem keeps_keyRead : Keeps device (keyRead device) :=
  fun _ h => h.access (fun _ => waiting_snoc _) fun _ => handshake_read_signal_iff

/-- A read of port 0x60 after `keyWaitData` or `mouseWaitData`. -/
theorem keeps_readData :
    Keeps device (waitLoop device .data 1 timeout >>= fun _ => inData device) :=
  fun _ h => h.access (fun _ => waiting_snoc _) fun _ hw _ => handshake_read_data hw

theorem keeps_keyWrite (cmd data : Byte) : Keeps device (keyWrite device cmd data) :=
  (keeps_write _ _).access_bind fun _ => (keeps_write _ _).access_bind fun _ =>
    keeps_keyRead.bind fun _ => (keeps_write _ _).access_bind fun _ =>
      (keeps_write _ _).access_bind fun _ => keeps_keyRead.bind fun _ => keeps_pure ()

theorem keeps_initializeKeyboard : Keeps device (initializeKeyboard device) :=
  (keeps_write _ _).access_bind fun _ => (keeps_write _ _).access_bind fun _ =>
    keeps_readData.access_bind fun _ => (keeps_write _ _).access_bind fun _ =>
      (keeps_write _ _).access_bind fun _ => (keeps_keyWrite _ _).bind fun _ =>
        keeps_keyRead.bind fun _ => keeps_pure ()

theorem keeps_mouseWrite (data : Byte) : Keeps device (mouseWrite device data) :=
  (keeps_write _ _).access_bind fun _ => keeps_write _ _

theorem keeps_initializeMouse : Keeps device (initializeMouse device) :=
  (keeps_write _ _).access_bind fun _ => (keeps_write _ _).access_bind fun _ =>
    keeps_readData.access_bind fun _ => (keeps_write _ _).access_bind fun _ =>
      (keeps_write _ _).access_bind fun _ => (keeps_mouseWrite _).bind fun _ =>
        keeps_readData.bind fun _ => (keeps_mouseWrite _).bind fun _ =>
          keeps_readData.bind fun _ => keeps_pure ()

theorem keeps_driver (c : SetUpCall) : Keeps device (c.driver device) := by
  cases c with
  | initializeKeyboard => exact keeps_initializeKeyboard
  | keyWrite cmd data => exact keeps_keyWrite cmd data
  | initializeMouse => exact keeps_initializeMouse
  | mouseWrite data => exact keeps_mouseWrite data

theorem settled_accessesOf (device : ℕ → Byte) (calls : List SetUpCall) :
    Settled device (accessesOf device calls) := by
  induction calls using List.reverseRecOn with
  | nil => exact ⟨rfl, every_nil⟩
  | append_singleton calls c ih =>
    rw [accessesOf, List.foldl_append]
    exact keeps_driver c _ ih

end

/-- Whatever the controller answers, every access of any calls is right exactly when the statuses
that are read before it are. -/
theorem handshakes_iff (device : ℕ → Byte) (calls : List SetUpCall) :
    Every Handshake (accessesOf device calls) ↔ Every (Ready device) (accessesOf device calls) :=
  every_congr (settled_accessesOf device calls).every

/-- When the controller never takes a byte, it is written to all the same. -/
theorem not_handshakes : ¬∀ (device : ℕ → Byte) (calls : List SetUpCall),
    Every Handshake (accessesOf device calls) := by
  intro h
  let device : ℕ → Byte := fun _ => 2
  have hwait (accesses : List PortAccess) : waitLoop device .signal 2 timeout accesses =
      ((), accesses ++ [.status .signal 2]) := by
    rw [waitLoop_eq, polledStatuses, show timeout = 99999 + 1 from rfl, polled, if_pos (by decide)]
    rfl
  have haccesses : accessesOf device [.mouseWrite 0xF4] =
      (outb 0x60 0xF4 (waitLoop device .signal 2 timeout
        (outb 0x64 0xD4 (waitLoop device .signal 2 timeout []).2).2).2).2 := rfl
  rw [hwait, hwait] at haccesses
  rcases h device _ [.status .signal 2] (.write 0x64 0xD4) _ haccesses with hle | ⟨s, hs, hempty⟩
  · exact absurd hle (by decide)
  · cases hs
    exact absurd hempty (by decide)

end SmartOS
