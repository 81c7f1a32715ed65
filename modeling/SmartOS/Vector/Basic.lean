import SmartOS.Lib.Chain
import SmartOS.Lib.Run
import SmartOS.Bytes

/-!
# Vectors

The class `Vector` of `SmartOS.h`: a list of nodes that are linked by pointers, and
its length, which is kept apart. The nodes are where `new` has put them, and never
given back.

Where the source follows the pointer of a node that is none (`NULL` is none), the
program fails: the result is `none` inside of `some`, which says that there was
enough fuel.

* `Represents`: a vector stands for a list of values, its nodes being that list;
* `represents_push`, `represents_pop`, `Represents.get`: what the operations do, on
  the list;
* `vector_refines`: after any calls, the vector is the list that they make.
-/

namespace SmartOS

open Prog

variable {T : Type*}

structure Vector (T : Type*) where
  first : ℕ
  length : ℕ
  deriving Repr, DecidableEq

/-! ## The operations -/

/-- A round of `while (item->next) item = item->next`. -/
def nextItem (nodes : Nodes T) (item : ℕ) : ℕ ⊕ Option ℕ :=
  match nodes item with
  | none => .inr none
  | some x => if x.next ≠ 0 then .inl x.next else .inr (some item)

/-- A round of `while (item->next->next) item = item->next`. -/
def nextButOneItem (nodes : Nodes T) (item : ℕ) : ℕ ⊕ Option ℕ :=
  match nodes item with
  | none => .inr none
  | some x =>
    match nodes x.next with
    | none => .inr none
    | some y => if y.next ≠ 0 then .inl x.next else .inr (some item)

/-- The item that is `index` pointers after `item`. -/
def itemAt (nodes : Nodes T) : ℕ → ℕ → Option ℕ
  | 0, item => some item
  | index + 1, item => (nodes item).bind fun x => itemAt nodes index x.next

namespace Vector

/-- `Vector()` -/
def new : Vector T := ⟨0, 0⟩

def size (v : Vector T) : ℕ := v.length

/-- `operator[](index)`, the value of the item. The one that returns a reference walks alike. -/
def get (v : Vector T) (nodes : Nodes T) (index : ℕ) : Option T :=
  (itemAt nodes index v.first).bind fun item => (nodes item).map Node.val

/-- `push(t)`, when `new` allocates the node `p`. -/
def push (v : Vector T) (nodes : Nodes T) (t : T) (p n : ℕ) :
    Option (Option (Nodes T × Vector T)) :=
  if v.length ≠ 0 then
    andThen (loop (nextItem nodes) n v.first) fun item => some <| (nodes item).map fun x =>
      (Function.update (Function.update nodes item (some ⟨x.val, p⟩)) p (some ⟨t, 0⟩),
        ⟨v.first, wrap (v.length + 1)⟩)
  else some (some (Function.update nodes p (some ⟨t, 0⟩), ⟨p, wrap (v.length + 1)⟩))

/-- `pop()`, with the value that it returns. -/
def pop (v : Vector T) (nodes : Nodes T) (n : ℕ) : Option (Option (T × Nodes T × Vector T)) :=
  if v.length ≠ 1 then
    andThen (loop (nextButOneItem nodes) n v.first) fun item => some <|
      (nodes item).bind fun x => (nodes x.next).map fun y =>
        (y.val, Function.update nodes item (some ⟨x.val, 0⟩), ⟨v.first, wrapSub v.length 1⟩)
  else some ((nodes v.first).map fun x => (x.val, nodes, ⟨0, wrapSub v.length 1⟩))

/-! ## What a vector stands for -/

/-- The vector is the list `xs`, in the nodes `l`. -/
structure Represents (v : Vector T) (nodes : Nodes T) (xs : List T) (l : List (ℕ × T)) : Prop where
  chain : Chain nodes 0 v.first l
  vals : l.map Prod.snd = xs
  length : v.length = l.length
  /-- The nodes are in the address space. -/
  lt : ∀ c ∈ l.map Prod.fst, c < 2 ^ 64

theorem represents_new (nodes : Nodes T) : (new : Vector T).Represents nodes [] [] where
  chain := .nil
  vals := rfl
  length := rfl
  lt _ hc := absurd hc List.not_mem_nil

section

variable {v : Vector T} {nodes : Nodes T} {xs : List T} {l : List (ℕ × T)}

theorem Represents.length_lt (h : v.Represents nodes xs l) : l.length < 2 ^ 64 :=
  h.chain.length_lt (by decide) h.lt

theorem Represents.size_eq (h : v.Represents nodes xs l) : v.size = xs.length := by
  rw [size, h.length, ← h.vals, List.length_map]

/-- A vector stands for one list. -/
theorem Represents.unique (h : v.Represents nodes xs l) {xs' : List T} {l' : List (ℕ × T)}
    (h' : v.Represents nodes xs' l') : xs = xs' := by
  rw [← h.vals, ← h'.vals, h.chain.unique h'.chain]

/-- Memory that is free is not one of the nodes. -/
theorem Represents.not_mem (h : v.Represents nodes xs l) {p : ℕ} (hp : nodes p = none) :
    p ∉ l.map Prod.fst := fun hmem => by
  obtain ⟨x, d, hnode, -⟩ := h.chain.exists_next hmem
  rw [hp] at hnode
  cases hnode

/-- The walk to the last item. -/
theorem returns_nextItem {a t : ℕ} {x : T} (h : Chain nodes 0 a (l ++ [(t, x)])) :
    Returns (fun n => loop (nextItem nodes) n a) (some t) := by
  obtain ⟨hl, ht, hnode⟩ := chain_snoc_iff.1 h
  refine (hl.returns_loop_iff fun c hc x d hnode' => ?_).2
    (returns_loop_exit (by simp [nextItem, hnode]))
  simp [nextItem, hnode', hl.next_ne_zero ht hc hnode']

/-- The walk to the last item but one. -/
theorem returns_nextButOneItem {a t p : ℕ} {x y : T}
    (h : Chain nodes 0 a (l ++ [(t, x)] ++ [(p, y)])) :
    Returns (fun n => loop (nextButOneItem nodes) n a) (some t) := by
  obtain ⟨hlt, hp, hlast⟩ := chain_snoc_iff.1 h
  obtain ⟨hl, ht, hnode⟩ := chain_snoc_iff.1 hlt
  refine (hl.returns_loop_iff fun c hc z d hnode' => ?_).2
    (returns_loop_exit (by simp [nextButOneItem, hnode, hlast]))
  -- The item after one of `l` is in `l` or `t`, so it has one after it, too.
  obtain ⟨_, _, hnode'', hd⟩ := hl.exists_next hc
  obtain ⟨rfl, rfl⟩ := Node.mk.inj (Option.some.inj (hnode'.symm.trans hnode''))
  have hdl : d ∈ (l ++ [(t, x)]).map Prod.fst := by
    rw [List.map_append, List.mem_append]
    exact hd.imp_right List.mem_singleton.2
  obtain ⟨_, _, hnext, -⟩ := hlt.exists_next hdl
  simp [nextButOneItem, hnode', hnext, hlt.next_ne_zero hp hdl hnext]

/-- A vector whose list has got one node more. -/
theorem Represents.snoc (h : v.Represents nodes xs l) {nodes' : Nodes T} {a p : ℕ} {t : T}
    (hp : p < 2 ^ 64) (hchain : Chain nodes' 0 a (l ++ [(p, t)])) :
    Represents ⟨a, wrap (v.length + 1)⟩ nodes' (xs ++ [t]) (l ++ [(p, t)]) := by
  have hlt : ∀ c ∈ (l ++ [(p, t)]).map Prod.fst, c < 2 ^ 64 := fun c hc => by
    rw [List.map_append, List.mem_append] at hc
    exact hc.elim (h.lt c) fun hc => List.mem_singleton.1 hc ▸ hp
  have hlength := hchain.length_lt (by decide) hlt
  rw [List.length_append, List.length_singleton] at hlength
  refine ⟨hchain, by rw [List.map_append, h.vals, List.map_singleton], ?_, hlt⟩
  rw [h.length, wrap_of_lt hlength, List.length_append, List.length_singleton]

/-- A vector whose list has lost its last node. -/
theorem Represents.init {t : T} {y : ℕ × T} (h : v.Represents nodes (xs ++ [t]) (l ++ [y]))
    {nodes' : Nodes T} {a : ℕ} (hchain : Chain nodes' 0 a l) :
    Represents ⟨a, wrapSub v.length 1⟩ nodes' xs l := by
  have hvals := h.vals
  have hlength := h.length_lt
  rw [List.map_append, List.map_singleton] at hvals
  rw [List.length_append, List.length_singleton] at hlength
  refine ⟨hchain, (List.append_inj' hvals rfl).1, ?_, fun c hc => h.lt c ?_⟩
  · rw [h.length, List.length_append, List.length_singleton, wrapSub_of_le (by omega) hlength]
    show l.length + 1 - 1 = l.length
    omega
  · rw [List.map_append]
    exact List.mem_append_left _ hc

/-- `push` appends, and takes up no memory but that of its node. -/
theorem represents_push (h : v.Represents nodes xs l) (t : T) {p : ℕ} (hp : p ≠ 0)
    (hlt : p < 2 ^ 64) (hfree : nodes p = none) : ∃ nodes' v',
    Returns (fun n => v.push nodes t p n) (some (nodes', v')) ∧
      v'.Represents nodes' (xs ++ [t]) (l ++ [(p, t)]) ∧
      ∀ c, c ≠ p → nodes c = none → nodes' c = none := by
  cases l using List.reverseRecOn with
  | nil =>
    have hv : v.length = 0 := h.length
    refine ⟨Function.update nodes p (some ⟨t, 0⟩), ⟨p, wrap (v.length + 1)⟩, ?_,
      h.snoc hlt (chain_singleton_iff.2 ⟨rfl, hp, by rw [Function.update_self]⟩),
      fun c hc hnone => by rwa [Function.update_of_ne hc]⟩
    simp only [push, hv, ne_eq, not_true_eq_false, if_false]
    exact .pure _
  | append_singleton l last _ =>
    obtain ⟨item, x⟩ := last
    have hv : v.length ≠ 0 := by
      rw [h.length, List.length_append, List.length_singleton]
      exact Nat.succ_ne_zero _
    have hitem := (chain_snoc_iff.1 h.chain).2.2
    refine ⟨_, ⟨v.first, wrap (v.length + 1)⟩, ?_,
      h.snoc hlt (h.chain.snoc hp (h.not_mem hfree)), fun c hc hnone => ?_⟩
    · simp only [push, if_pos hv]
      refine (returns_nextItem h.chain).andThen ?_
      rw [hitem]
      exact .pure _
    · have hci : c ≠ item := fun heq => by
        rw [← heq, hnone] at hitem
        cases hitem
      rwa [Function.update_of_ne hc, Function.update_of_ne hci]

/-- `pop` returns the last value, and removes it. -/
theorem represents_pop {t : T} (h : v.Represents nodes (xs ++ [t]) l) : ∃ nodes' v' l',
    Returns (fun n => v.pop nodes n) (some (t, nodes', v')) ∧ v'.Represents nodes' xs l' := by
  cases l using List.reverseRecOn with
  | nil => cases xs <;> cases h.vals
  | append_singleton l last _ =>
    obtain ⟨p, y⟩ := last
    have hvals := h.vals
    rw [List.map_append, List.map_singleton] at hvals
    obtain rfl : y = t := List.singleton_inj.1 (List.append_inj' hvals rfl).2
    have hlast := (chain_snoc_iff.1 h.chain).2.2
    cases l using List.reverseRecOn with
    | nil =>
      have hv : v.length = 1 := h.length
      have hfirst : v.first = p := (chain_singleton_iff.1 h.chain).1
      refine ⟨nodes, ⟨0, wrapSub v.length 1⟩, [], ?_, h.init .nil⟩
      simp only [pop, hv, ne_eq, not_true_eq_false, if_false, hfirst, hlast]
      exact .pure _
    | append_singleton l last _ =>
      obtain ⟨item, x⟩ := last
      have hv : v.length ≠ 1 := by
        simp only [h.length, List.length_append, List.length_singleton]
        omega
      have hitem := (chain_snoc_iff.1 (chain_snoc_iff.1 h.chain).1).2.2
      refine ⟨_, ⟨v.first, wrapSub v.length 1⟩, l ++ [(item, x)], ?_,
        h.init h.chain.dropLast⟩
      simp only [pop, if_pos hv]
      refine (returns_nextButOneItem h.chain).andThen ?_
      simp only [hitem, Option.bind_some, hlast]
      exact .pure _

/-- The value of the item that is `index` pointers after the first one. -/
theorem itemAt_val {a index : ℕ} (h : Chain nodes 0 a l) (hindex : index < l.length) :
    ((itemAt nodes index a).bind fun item => (nodes item).map Node.val) =
      (l.map Prod.snd)[index]? := by
  induction h generalizing index with
  | nil => exact absurd hindex (Nat.not_lt_zero _)
  | cons _ hnode _ ih =>
    cases index with
    | zero => simp [itemAt, hnode]
    | succ index =>
      rw [itemAt, hnode, Option.bind_some, List.map_cons, List.getElem?_cons_succ]
      exact ih (Nat.lt_of_succ_lt_succ hindex)

/-- `operator[]` finds the value, and follows no pointer beyond the list. -/
theorem Represents.get (h : v.Represents nodes xs l) {index : ℕ} (hindex : index < v.size) :
    v.get nodes index = xs[index]? := by
  rw [Vector.get, itemAt_val h.chain (h.length ▸ hindex), h.vals]

/-- A loop over the indices goes over the values. -/
theorem Represents.forEach_get {σ : Type*} (h : v.Represents nodes xs l)
    (f : T → σ → Option (Option σ)) (s : σ) :
    forEach (fun i s => andThen (some (v.get nodes i)) fun x => f x s) (List.range v.size) s =
      forEach f xs s := by
  have hvals (ys : List T) : (List.range ys.length).flatMap (fun i => ys[i]?.toList) = ys := by
    induction ys using List.reverseRecOn with
    | nil => rfl
    | append_singleton ys y ih =>
      rw [List.length_append, List.length_singleton, List.range_succ, List.flatMap_append,
        List.flatMap_singleton, List.getElem?_concat_length, Option.toList_some]
      conv_rhs => rw [← ih]
      congr 1
      refine List.flatMap_congr fun i hi => ?_
      rw [List.getElem?_append_left (List.mem_range.1 hi)]
  have hloop : forEach (fun i s => andThen (some (v.get nodes i)) fun x => f x s)
      (List.range v.size) s =
        forEach f ((List.range v.size).flatMap fun i => xs[i]?.toList) s :=
    forEach_flatMap _ fun i hi s => by
      have hi := List.mem_range.1 hi
      rw [h.get hi, List.getElem?_eq_getElem (h.size_eq ▸ hi), Option.toList_some,
        forEach_singleton]
      rfl
  rw [hloop, h.size_eq, hvals]

end

end Vector

/-! ## The calls -/

/-- A call on a vector, with the node that `new` allocates, or the value returned. -/
inductive VectorCall (T : Type*)
  | push (t : T) (p : ℕ)
  | pop (t : T)

/-- The nodes in memory, and the vector. -/
abbrev VectorState (T : Type*) := Nodes T × Vector T

/-- A call: `push` when the allocation succeeds, `pop` of a vector that is not empty. -/
def vectorStep (s : VectorState T) (c : VectorCall T) (s' : VectorState T) : Prop :=
  match c with
  | .push t p => p ≠ 0 ∧ p < 2 ^ 64 ∧ s.1 p = none ∧
      Returns (fun n => s.2.push s.1 t p n) (some s')
  | .pop t => 0 < s.2.size ∧ Returns (fun n => s.2.pop s.1 n) (some (t, s'))

/-- The same call on a list. -/
def listStep (xs : List T) (c : VectorCall T) (xs' : List T) : Prop :=
  match c with
  | .push t _ => xs' = xs ++ [t]
  | .pop t => xs = xs' ++ [t]

/-- What a list promises of a vector. -/
structure VectorState.Refines (s : VectorState T) (xs : List T) : Prop where
  size : s.2.size = xs.length
  length : s.2.length = {c | ReachedFrom s.1 s.2.first c}.ncard
  get : ∀ index, index < s.2.size → ∃ t, s.2.get s.1 index = some t ∧ xs[index]? = some t
  push : ∀ t p, p ≠ 0 → p < 2 ^ 64 → s.1 p = none → ∃ s', vectorStep s (.push t p) s'
  pop : 0 < s.2.size → ∃ t s', vectorStep s (.pop t) s'

theorem Vector.Represents.refines {s : VectorState T} {xs : List T} {l : List (ℕ × T)}
    (h : s.2.Represents s.1 xs l) : s.Refines xs where
  size := h.size_eq
  length := by rw [h.chain.ncard_reached, h.length]
  get index hindex := by
    rw [h.get hindex]
    have hlt : index < xs.length := h.size_eq ▸ hindex
    exact ⟨xs[index], by rw [List.getElem?_eq_getElem hlt], by rw [List.getElem?_eq_getElem hlt]⟩
  push t p hp hlt hfree := by
    obtain ⟨nodes', v', hreturns, -⟩ := represents_push h t hp hlt hfree
    exact ⟨(nodes', v'), hp, hlt, hfree, hreturns⟩
  pop hpos := by
    cases xs using List.reverseRecOn with
    | nil => exact absurd (h.size_eq ▸ hpos) (lt_irrefl 0)
    | append_singleton xs t _ =>
      obtain ⟨nodes', v', -, hreturns, -⟩ := represents_pop h
      exact ⟨t, (nodes', v'), hpos, hreturns⟩

/-- Every call on the vector is the same one on the list. -/
theorem represents_vectorStep {s s' : VectorState T} {xs : List T} {c : VectorCall T}
    (h : ∃ l, s.2.Represents s.1 xs l) (hs : vectorStep s c s') :
    ∃ xs', listStep xs c xs' ∧ ∃ l, s'.2.Represents s'.1 xs' l := by
  obtain ⟨l, h⟩ := h
  cases c with
  | push t p =>
    obtain ⟨hp, hlt, hfree, hreturns⟩ := hs
    obtain ⟨nodes', v', hreturns', h', -⟩ := Vector.represents_push h t hp hlt hfree
    cases hreturns.unique hreturns'
    exact ⟨xs ++ [t], rfl, _, h'⟩
  | pop t =>
    obtain ⟨hpos, hreturns⟩ := hs
    cases xs using List.reverseRecOn with
    | nil => exact absurd (h.size_eq ▸ hpos) (lt_irrefl 0)
    | append_singleton xs t' _ =>
      obtain ⟨nodes', v', l', hreturns', h'⟩ := Vector.represents_pop h
      cases hreturns.unique hreturns'
      exact ⟨xs, rfl, l', h'⟩

/-- After any calls on an empty vector, it is the list that the same calls make of an empty one. -/
theorem vector_refines {nodes : Nodes T} {cs : List (VectorCall T)} {s : VectorState T}
    (hr : Run vectorStep (nodes, Vector.new) cs s) :
    ∃ xs, Run listStep [] cs xs ∧ s.Refines xs := by
  obtain ⟨xs, hr, l, h⟩ := hr.simulation (fun s xs => ∃ l, s.2.Represents s.1 xs l)
    ⟨[], Vector.represents_new nodes⟩ fun _ _ _ _ => represents_vectorStep
  exact ⟨xs, hr, h.refines⟩

/-- The nodes of a vector of the value 7 at the address 16, and of one more at 32. -/
def oneNode : Nodes ℕ := Function.update (fun _ => none) 16 (some ⟨7, 0⟩)
def twoNodes : Nodes ℕ :=
  Function.update (Function.update oneNode 16 (some ⟨7, 32⟩)) 32 (some ⟨9, 0⟩)

/-- Two values pushed, and one popped. -/
theorem vector_refines_popped : ∃ xs, Run listStep [] [.push 7 16, .push 9 32, .pop 9] xs ∧
    VectorState.Refines (Function.update twoNodes 16 (some ⟨7, 0⟩), ⟨16, 1⟩) xs := by
  have hpush₁ : vectorStep (fun _ => none, Vector.new) (.push 7 16) (oneNode, ⟨16, 1⟩) := by
    refine ⟨by decide, by decide, rfl, 0, fun n _ => ?_⟩
    simp [Vector.push, Vector.new, oneNode, wrap_of_lt]
  have hpush₂ : vectorStep (oneNode, ⟨16, 1⟩) (.push 9 32) (twoNodes, ⟨16, 2⟩) := by
    refine ⟨by decide, by decide, by simp [oneNode], 1, fun n hn => ?_⟩
    obtain ⟨n, rfl⟩ := Nat.exists_eq_add_of_le' hn
    simp [Vector.push, loop, nextItem, andThen, oneNode, twoNodes, wrap_of_lt]
  have hpop : vectorStep (twoNodes, ⟨16, 2⟩) (.pop 9)
      (Function.update twoNodes 16 (some ⟨7, 0⟩), ⟨16, 1⟩) := by
    refine ⟨by decide, 1, fun n hn => ?_⟩
    obtain ⟨n, rfl⟩ := Nat.exists_eq_add_of_le' hn
    simp [Vector.pop, loop, nextButOneItem, andThen, oneNode, twoNodes, wrapSub_of_le]
  exact vector_refines (((Run.nil.snoc hpush₁).snoc hpush₂).snoc hpop)

end SmartOS
