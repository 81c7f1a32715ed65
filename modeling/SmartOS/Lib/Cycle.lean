import SmartOS.Lib.Linked

/-!
# Going round a list

A cursor goes round a linked list: on to the next node, and from the last one
back to the first (`goRound`). The list may grow at its end meanwhile.

* `steps l b c` is how many steps the cursor takes from the node `b` to the node
  `c`: with every step it comes nearer to all nodes but the one that it reaches
  (`Linked.steps_goRound`);
* `Before l b c d`: from `b`, the cursor reaches `c` before `d`. A step keeps it,
  unless it reaches `c` (`Before.goRound`), and so does a growing list
  (`Before.append`).
-/

namespace Prog

variable {next : ℕ → ℕ} {a b c d : ℕ} {l l' : List ℕ}

/-- Where the cursor is after `b`, in the list that starts at `a`. -/
def goRound (next : ℕ → ℕ) (a b : ℕ) : ℕ := if next b ≠ 0 then next b else a

/-- The steps of the cursor from `b` to `c`, which are all those of a round from `b` to `b`. -/
def steps (l : List ℕ) (b c : ℕ) : ℕ :=
  if l.idxOf b < l.idxOf c then l.idxOf c - l.idxOf b else l.idxOf c + l.length - l.idxOf b

/-- From `b`, the cursor reaches `c` before `d`. -/
def Before (l : List ℕ) (b c d : ℕ) : Prop := steps l b c < steps l b d

namespace Linked

theorem idxOf_head (h : Linked next a l) : l.idxOf a = 0 := by
  cases h <;> exact List.idxOf_cons_self

theorem idxOf_next (h : Linked next a l) (hb : b ∈ l) (hnext : next b ≠ 0) :
    l.idxOf (next b) = l.idxOf b + 1 := by
  induction h with
  | last hlast =>
    rw [List.mem_singleton.1 hb] at hnext
    exact absurd hlast hnext
  | @cons a l hne hl ih =>
    have ha : a ∉ l := (List.nodup_cons.1 (Linked.cons hne hl).nodup).1
    rcases List.mem_cons.1 hb with rfl | hb
    · have hself : b ≠ next b := fun heq => ha (heq ▸ hl.head_mem)
      rw [List.idxOf_cons_self, List.idxOf_cons_ne _ hself, hl.idxOf_head]
    · have hne' : a ≠ b := fun heq => ha (heq ▸ hb)
      have hne'' : a ≠ next b := fun heq => ha (heq ▸ hl.next_mem hb hnext)
      rw [List.idxOf_cons_ne _ hne', List.idxOf_cons_ne _ hne'', ih hb]

theorem idxOf_last (h : Linked next a l) (hb : b ∈ l) (hlast : next b = 0) :
    l.idxOf b + 1 = l.length := by
  induction h with
  | last _ =>
    rw [List.mem_singleton.1 hb, List.idxOf_cons_self]
    rfl
  | @cons a l hne hl ih =>
    have hne' : a ≠ b := fun heq => hne (heq ▸ hlast)
    have hb' : b ∈ l := List.mem_of_ne_of_mem hne'.symm hb
    rw [List.idxOf_cons_ne _ hne', List.length_cons, ← ih hb']

theorem idxOf_goRound (h : Linked next a l) (hb : b ∈ l) :
    l.idxOf (goRound next a b) = l.idxOf b + 1 ∨
      l.idxOf (goRound next a b) = 0 ∧ l.idxOf b + 1 = l.length := by
  rw [goRound]
  split_ifs with hnext
  · exact .inl (h.idxOf_next hb hnext)
  · exact .inr ⟨h.idxOf_head, h.idxOf_last hb (not_not.1 hnext)⟩

/-- A step brings the cursor nearer to `c`, unless it reaches `c`. -/
theorem steps_goRound (h : Linked next a l) (hb : b ∈ l) (hc : c ∈ l) :
    (c = goRound next a b ∧ steps l b c = 1) ∨
      (c ≠ goRound next a b ∧ steps l b c = steps l (goRound next a b) c + 1) := by
  have hblt : l.idxOf b < l.length := List.idxOf_lt_length_iff.2 hb
  have hclt : l.idxOf c < l.length := List.idxOf_lt_length_iff.2 hc
  have hidx := h.idxOf_goRound hb
  rw [ne_eq, ← List.idxOf_inj hc, steps, steps]
  split_ifs <;> omega

end Linked

/-! ## Order -/

theorem Before.self (hc : c ∈ l) (hne : c ≠ b) : Before l b c b := by
  have hclt : l.idxOf c < l.length := List.idxOf_lt_length_iff.2 hc
  have hne' : l.idxOf c ≠ l.idxOf b := fun heq => hne ((List.idxOf_inj hc).1 heq)
  rw [Before, steps, steps, if_neg (lt_irrefl _)]
  split_ifs <;> omega

/-- The cursor that is to reach `c` before `d` steps on to `c`, or to a node that is not `d` and
    from which it still is. -/
theorem Before.goRound (h : Before l b c d) (hl : Linked next a l) (hb : b ∈ l) (hc : c ∈ l)
    (hd : d ∈ l) :
    goRound next a b = c ∨ goRound next a b ≠ d ∧ Before l (goRound next a b) c d := by
  rw [Before] at h
  rcases hl.steps_goRound hb hc with ⟨heq, -⟩ | ⟨-, hcsteps⟩
  · exact .inl heq.symm
  · rcases hl.steps_goRound hb hd with ⟨-, hdone⟩ | ⟨hne, hdsteps⟩
    · omega
    · refine .inr ⟨hne.symm, ?_⟩
      rw [Before]
      omega

theorem Before.append (h : Before l b c d) (hb : b ∈ l) (hc : c ∈ l) (hd : d ∈ l) :
    Before (l ++ l') b c d := by
  have hdlt : l.idxOf d < l.length := List.idxOf_lt_length_iff.2 hd
  rw [Before, steps, steps] at h ⊢
  rw [List.idxOf_append_of_mem hb, List.idxOf_append_of_mem hc, List.idxOf_append_of_mem hd,
    List.length_append]
  split_ifs at h ⊢ <;> omega

end Prog
