import SmartOS.Lib.Loop

/-!
# Chains of nodes

Nodes in memory, each with a value and a pointer to the next one, where `0` is no
node (`Nodes`). A *chain* is what the pointers lead through, from one to another
(`Chain`), and a list is a chain up to the pointer `0`.

* `chain_append_iff`, `Chain.congr`: chains are made of chains, and depend on their
  own nodes only;
* `Chain.nodup`: a list has no node twice, and `Chain.reached_iff` that its nodes are
  all that its first pointer leads to;
* `Chain.returns_loop_iff`: a loop that goes from node to node;
* `Chain.snoc`, `Chain.dropLast`: a node appended to a list, and its last one cut off.
-/

namespace Prog

variable {α β : Type*}

structure Node (α : Type*) where
  val : α
  next : ℕ
  deriving Repr, DecidableEq

/-- The nodes at their addresses. -/
abbrev Nodes (α : Type*) := ℕ → Option (Node α)

/-- The nodes from the pointer `a` on, with their addresses and values, up to the pointer `b`. -/
inductive Chain (nodes : Nodes α) (b : ℕ) : ℕ → List (ℕ × α) → Prop
  | nil : Chain nodes b b []
  | cons {a c : ℕ} {x : α} {l : List (ℕ × α)} : a ≠ 0 → nodes a = some ⟨x, c⟩ →
      Chain nodes b c l → Chain nodes b a ((a, x) :: l)

/-- The nodes that the pointer `a` leads to. -/
inductive ReachedFrom (nodes : Nodes α) (a : ℕ) : ℕ → Prop
  | first : a ≠ 0 → ReachedFrom nodes a a
  | next {b c : ℕ} {x : α} : ReachedFrom nodes a b → nodes b = some ⟨x, c⟩ → c ≠ 0 →
      ReachedFrom nodes a c

variable {nodes nodes' : Nodes α} {a b c p t : ℕ} {x y z : α} {l l' : List (ℕ × α)}

theorem chain_append_iff :
    Chain nodes b a (l ++ l') ↔ ∃ c, Chain nodes c a l ∧ Chain nodes b c l' := by
  induction l generalizing a with
  | nil =>
    refine ⟨fun h => ⟨a, .nil, h⟩, ?_⟩
    rintro ⟨c, hl, hl'⟩
    cases hl
    exact hl'
  | cons y l ih =>
    constructor
    · rintro (_ | ⟨ha, hnode, hl⟩)
      obtain ⟨c, hl, hl'⟩ := ih.1 hl
      exact ⟨c, .cons ha hnode hl, hl'⟩
    · rintro ⟨c, ⟨⟩ | ⟨ha, hnode, hl⟩, hl'⟩
      exact .cons ha hnode (ih.2 ⟨c, hl, hl'⟩)

/-- A list of a single node. -/
theorem chain_singleton_iff :
    Chain nodes b a [(t, x)] ↔ a = t ∧ t ≠ 0 ∧ nodes t = some ⟨x, b⟩ := by
  constructor
  · rintro (_ | ⟨ha, hnode, _ | _⟩)
    exact ⟨rfl, ha, hnode⟩
  · rintro ⟨rfl, ha, hnode⟩
    exact .cons ha hnode .nil

theorem chain_snoc_iff : Chain nodes b a (l ++ [(t, x)]) ↔
    Chain nodes t a l ∧ t ≠ 0 ∧ nodes t = some ⟨x, b⟩ := by
  simp only [chain_append_iff, chain_singleton_iff]
  refine ⟨?_, fun h => ⟨t, h.1, rfl, h.2⟩⟩
  rintro ⟨_, hl, rfl, h⟩
  exact ⟨hl, h⟩

namespace Chain

theorem congr (h : Chain nodes b a l) (hnodes : ∀ c ∈ l.map Prod.fst, nodes' c = nodes c) :
    Chain nodes' b a l := by
  induction h with
  | nil => exact .nil
  | cons ha hnode _ ih =>
    rw [List.map_cons, List.forall_mem_cons] at hnodes
    exact .cons ha (hnodes.1.trans hnode) (ih hnodes.2)

theorem ne_zero_of_mem (h : Chain nodes b a l) (hc : c ∈ l.map Prod.fst) : c ≠ 0 := by
  induction h with
  | nil => cases hc
  | cons ha _ _ ih =>
    rcases List.mem_cons.1 hc with rfl | hc
    · exact ha
    · exact ih hc

/-- What comes after a node of a chain is a node of it, or the end. -/
theorem exists_next (h : Chain nodes b a l) (hc : c ∈ l.map Prod.fst) :
    ∃ x d, nodes c = some ⟨x, d⟩ ∧ (d ∈ l.map Prod.fst ∨ d = b) := by
  induction h with
  | nil => cases hc
  | @cons a d x l _ hnode hl ih =>
    rcases List.mem_cons.1 hc with rfl | hc
    · refine ⟨x, d, hnode, ?_⟩
      cases hl with
      | nil => exact .inr rfl
      | cons _ _ _ => exact .inl (List.mem_cons_of_mem _ List.mem_cons_self)
    · obtain ⟨x, d, hnode, hd⟩ := ih hc
      exact ⟨x, d, hnode, hd.imp_left (List.mem_cons_of_mem _)⟩

theorem next_ne_zero (h : Chain nodes b a l) (hb : b ≠ 0) (hc : c ∈ l.map Prod.fst) {d : ℕ}
    (hnode : nodes c = some ⟨x, d⟩) : d ≠ 0 := by
  obtain ⟨_, _, hnode', hd⟩ := h.exists_next hc
  obtain ⟨rfl, rfl⟩ := Node.mk.inj (Option.some.inj (hnode.symm.trans hnode'))
  rcases hd with hd | rfl
  · exact h.ne_zero_of_mem hd
  · exact hb

/-- The pointers decide the list. -/
theorem unique (h : Chain nodes 0 a l) (h' : Chain nodes 0 a l') : l = l' := by
  induction h generalizing l' with
  | nil =>
    cases h' with
    | nil => rfl
    | cons ha _ _ => exact absurd rfl ha
  | cons ha hnode _ ih =>
    cases h' with
    | nil => exact absurd rfl ha
    | cons _ hnode' hl =>
      obtain ⟨rfl, rfl⟩ := Node.mk.inj (Option.some.inj (hnode.symm.trans hnode'))
      rw [ih hl]

/-- From a node of a list on, it is a list that is not longer. -/
theorem suffix (h : Chain nodes 0 a l) (hc : c ∈ l.map Prod.fst) :
    ∃ l', Chain nodes 0 c l' ∧ l'.length ≤ l.length := by
  induction h with
  | nil => cases hc
  | cons ha hnode hl ih =>
    rcases List.mem_cons.1 hc with rfl | hc
    · exact ⟨_, .cons ha hnode hl, le_rfl⟩
    · obtain ⟨l', hl', hle⟩ := ih hc
      exact ⟨l', hl', hle.trans (Nat.le_succ _)⟩

/-- A list has no node twice: from the second one on, it would be the whole list again. -/
theorem nodup (h : Chain nodes 0 a l) : (l.map Prod.fst).Nodup := by
  induction h with
  | nil => exact List.nodup_nil
  | cons ha hnode hl ih =>
    refine List.nodup_cons.2 ⟨fun hmem => ?_, ih⟩
    obtain ⟨l', hl', hle⟩ := hl.suffix hmem
    have := congrArg List.length (hl'.unique (.cons ha hnode hl))
    rw [List.length_cons] at this
    omega

theorem reached_iff (h : Chain nodes 0 a l) : ReachedFrom nodes a c ↔ c ∈ l.map Prod.fst := by
  constructor
  · intro hc
    induction hc with
    | first ha =>
      cases h with
      | nil => exact absurd rfl ha
      | cons _ _ _ => exact List.mem_cons_self
    | next _ hnode hne ih =>
      obtain ⟨_, _, hnode', hd⟩ := h.exists_next ih
      obtain ⟨rfl, rfl⟩ := Node.mk.inj (Option.some.inj (hnode.symm.trans hnode'))
      exact hd.resolve_right hne
  · intro hc
    have hall : ∀ d, (a ≠ 0 → ReachedFrom nodes d a) → ReachedFrom nodes d c := by
      induction h with
      | nil => cases hc
      | cons ha hnode _ ih =>
        intro d hd
        rcases List.mem_cons.1 hc with rfl | hc
        · exact hd ha
        · exact ih hc d fun hne => (hd ha).next hnode hne
    exact hall a .first

/-- The nodes that the pointer of a list leads to are as many as the list is long. -/
theorem ncard_reached (h : Chain nodes 0 a l) : {c | ReachedFrom nodes a c}.ncard = l.length := by
  have hset : {c | ReachedFrom nodes a c} = ((l.map Prod.fst).toFinset : Set ℕ) := by
    ext c
    rw [Set.mem_ofPred_eq, h.reached_iff, List.coe_toFinset, Set.mem_ofPred_eq]
  rw [hset, Set.ncard_coe_finset, List.toFinset_card_of_nodup h.nodup, List.length_map]

/-- A list at addresses below a bound is shorter than the bound. -/
theorem length_lt {N : ℕ} (h : Chain nodes 0 a l) (hN : 0 < N)
    (hlt : ∀ c ∈ l.map Prod.fst, c < N) : l.length < N := by
  have hsub : (l.map Prod.fst).toFinset ⊆ Finset.Ico 1 N := fun c hc => by
    rw [List.mem_toFinset] at hc
    exact Finset.mem_Ico.2 ⟨Nat.pos_of_ne_zero (h.ne_zero_of_mem hc), hlt c hc⟩
  have := Finset.card_le_card hsub
  rw [List.toFinset_card_of_nodup h.nodup, List.length_map, Nat.card_Ico] at this
  omega

/-! ## Loops over the nodes -/

/-- A loop that goes on to the next node at every node of a chain comes to its end. -/
theorem returns_loop_iff {body : ℕ → ℕ ⊕ β} {r : β} (h : Chain nodes b a l)
    (hbody : ∀ c ∈ l.map Prod.fst, ∀ x d, nodes c = some ⟨x, d⟩ → body c = .inl d) :
    Returns (fun n => loop body n a) r ↔ Returns (fun n => loop body n b) r := by
  induction h with
  | nil => rfl
  | cons _ hnode _ ih =>
    rw [List.map_cons, List.forall_mem_cons] at hbody
    exact (returns_loop_next (hbody.1 _ _ hnode)).trans (ih hbody.2)

/-! ## The two ends of a list -/

/-- A node of a list is not among those before it. -/
theorem not_mem_before (h : Chain nodes 0 a (l ++ (t, x) :: l')) : t ∉ l.map Prod.fst := by
  have hnodup := h.nodup
  rw [List.map_append] at hnodup
  exact fun ht => List.disjoint_of_nodup_append hnodup ht List.mem_cons_self

/-- A node appended to a list, after its last one. -/
theorem snoc (h : Chain nodes 0 a (l ++ [(t, x)])) (hp : p ≠ 0)
    (hpl : p ∉ (l ++ [(t, x)]).map Prod.fst) :
    Chain (Function.update (Function.update nodes t (some ⟨x, p⟩)) p (some ⟨y, 0⟩)) 0 a
      (l ++ [(t, x)] ++ [(p, y)]) := by
  have htl := h.not_mem_before
  obtain ⟨hl, ht, -⟩ := chain_snoc_iff.1 h
  rw [List.map_append, List.map_singleton, List.mem_append, List.mem_singleton, not_or] at hpl
  refine chain_snoc_iff.2 ⟨chain_snoc_iff.2 ⟨hl.congr fun c hc => ?_, ht, ?_⟩, hp, ?_⟩
  · have hcp : c ≠ p := fun heq => hpl.1 (heq ▸ hc)
    have hct : c ≠ t := fun heq => htl (heq ▸ hc)
    rw [Function.update_of_ne hcp, Function.update_of_ne hct]
  · rw [Function.update_of_ne (Ne.symm hpl.2), Function.update_self]
  · rw [Function.update_self]

/-- The last node cut off a list that has another. -/
theorem dropLast (h : Chain nodes 0 a (l ++ [(t, x)] ++ [(p, y)])) :
    Chain (Function.update nodes t (some ⟨x, 0⟩)) 0 a (l ++ [(t, x)]) := by
  have htl : t ∉ l.map Prod.fst := by
    rw [List.append_assoc] at h
    exact h.not_mem_before
  obtain ⟨hl, -, -⟩ := chain_snoc_iff.1 h
  obtain ⟨hl, ht, -⟩ := chain_snoc_iff.1 hl
  refine chain_snoc_iff.2 ⟨hl.congr fun c hc => ?_, ht, by rw [Function.update_self]⟩
  have hct : c ≠ t := fun heq => htl (heq ▸ hc)
  rw [Function.update_of_ne hct]

end Chain

end Prog
