import SmartOS.Lib.Loop

/-!
# Linked lists

Nodes that point to one another (`next`, where `0` is no node), and the list of
nodes that starts at one of them (`Linked`).

* `Reach` is what the pointers lead to, however they lie; in a list they lead to
  its nodes (`Linked.mem_of_reach`), which are distinct (`Linked.nodup`);
* `Linked.congr`: a list depends on the pointers of its own nodes;
* `returns_tail`, `Linked.snoc`: the walk to the last node, and a node appended
  there.
-/

namespace Prog

variable {next next' : ℕ → ℕ} {a b t p : ℕ} {l l' : List ℕ}

/-- The nodes that the pointers lead to from `a`. -/
inductive Reach (next : ℕ → ℕ) (a : ℕ) : ℕ → Prop
  | refl : Reach next a a
  | next {b : ℕ} : Reach next a b → next b ≠ 0 → Reach next a (next b)

/-- The list of nodes from `a` on, up to the one that has none after it. -/
inductive Linked (next : ℕ → ℕ) : ℕ → List ℕ → Prop
  | last {a : ℕ} : next a = 0 → Linked next a [a]
  | cons {a : ℕ} {l : List ℕ} : next a ≠ 0 → Linked next (next a) l → Linked next a (a :: l)

namespace Linked

theorem head_mem (h : Linked next a l) : a ∈ l := by
  cases h <;> exact List.mem_cons_self

theorem next_mem (h : Linked next a l) (hb : b ∈ l) (hnext : next b ≠ 0) : next b ∈ l := by
  induction h with
  | last hlast =>
    rw [List.mem_singleton.1 hb] at hnext
    exact absurd hlast hnext
  | cons _ hl ih =>
    rcases List.mem_cons.1 hb with rfl | hb
    · exact List.mem_cons_of_mem _ hl.head_mem
    · exact List.mem_cons_of_mem _ (ih hb)

theorem mem_of_reach (h : Linked next a l) (hb : Reach next a b) : b ∈ l := by
  induction hb with
  | refl => exact h.head_mem
  | next _ hnext ih => exact h.next_mem ih hnext

theorem reach (h : Linked next a l) (hb : b ∈ l) : Reach next a b := by
  have hall : ∀ c, Reach next c a → Reach next c b := by
    induction h with
    | last _ => exact fun c hc => List.mem_singleton.1 hb ▸ hc
    | cons hnext _ ih =>
      rcases List.mem_cons.1 hb with rfl | hb
      · exact fun _ hc => hc
      · exact fun c hc => ih hb c (hc.next hnext)
  exact hall a .refl

/-- The pointers decide the list. -/
theorem unique (h : Linked next a l) (h' : Linked next a l') : l = l' := by
  induction h generalizing l' with
  | last hlast =>
    cases h' with
    | last _ => rfl
    | cons hnext _ => exact absurd hlast hnext
  | cons hnext _ ih =>
    cases h' with
    | last hlast => exact absurd hlast hnext
    | cons _ hl => rw [ih hl]

/-- From a node of the list on, it is a list that is not longer. -/
theorem suffix (h : Linked next a l) (hb : b ∈ l) :
    ∃ l', Linked next b l' ∧ l'.length ≤ l.length := by
  induction h with
  | last hlast =>
    obtain rfl := List.mem_singleton.1 hb
    exact ⟨_, .last hlast, le_rfl⟩
  | cons hnext hl ih =>
    rcases List.mem_cons.1 hb with rfl | hb
    · exact ⟨_, .cons hnext hl, le_rfl⟩
    · obtain ⟨l', hl', hle⟩ := ih hb
      exact ⟨l', hl', hle.trans (Nat.le_succ _)⟩

/-- A list that ends has no node twice. -/
theorem nodup (h : Linked next a l) : l.Nodup := by
  induction h with
  | last _ => exact List.nodup_singleton _
  | cons hnext hl ih =>
    refine List.nodup_cons.2 ⟨fun hmem => ?_, ih⟩
    obtain ⟨l', hl', hle⟩ := hl.suffix hmem
    have := congrArg List.length (hl'.unique (.cons hnext hl))
    rw [List.length_cons] at this
    omega

theorem congr (h : Linked next a l) (hnext : ∀ b ∈ l, next' b = next b) : Linked next' a l := by
  induction h with
  | last hlast => exact .last ((hnext _ List.mem_cons_self).trans hlast)
  | @cons a l hne _ ih =>
    have ha := hnext a List.mem_cons_self
    refine .cons (ha ▸ hne) (ha ▸ ih fun b hb => hnext b (List.mem_cons_of_mem _ hb))

/-- A node appended after the last one. -/
theorem snoc (h : Linked next a l) (ht : t ∈ l) (hlast : next t = 0) (hp : p ∉ l) (hp0 : p ≠ 0)
    (hnextp : next p = 0) : Linked (Function.update next t p) a (l ++ [p]) := by
  induction h with
  | @last a _ =>
    obtain rfl := List.mem_singleton.1 ht
    have hpt : p ≠ t := fun heq => hp (heq ▸ List.mem_cons_self)
    refine .cons (by rwa [Function.update_self]) ?_
    rw [Function.update_self]
    exact .last (by rwa [Function.update_of_ne hpt])
  | @cons a l hne hl ih =>
    have hat : a ≠ t := fun heq => hne (heq ▸ hlast)
    refine .cons (by rwa [Function.update_of_ne hat]) ?_
    rw [Function.update_of_ne hat]
    exact ih (List.mem_of_ne_of_mem hat.symm ht) fun hmem => hp (List.mem_cons_of_mem _ hmem)

end Linked

/-- The walk to the last node of a list. -/
theorem returns_tail (h : Linked next a l) :
    ∃ t ∈ l, next t = 0 ∧ Returns (fun n => loop (whileDo (next · != 0) next) n a) t := by
  induction h with
  | last hlast => exact ⟨_, List.mem_cons_self, hlast, returns_loop_exit (by simp [whileDo, hlast])⟩
  | cons hne _ ih =>
    obtain ⟨t, ht, hlast, hreturns⟩ := ih
    exact ⟨t, List.mem_cons_of_mem _ ht, hlast,
      (returns_loop_next (by simp [whileDo, hne])).2 hreturns⟩

end Prog
