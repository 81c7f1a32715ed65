import Mathlib.Tactic

/-!
# Regions of memory

A region is some bytes of memory: the first, and how many. Regions that lie apart
have no byte in common, and neither have parts of them.
-/

namespace Prog

abbrev Region := ℕ × ℕ

namespace Region

variable {r r' q q' : Region} {x : ℕ}

/-- The byte lies in the region. -/
def Has (r : Region) (x : ℕ) : Prop := r.1 ≤ x ∧ x < r.1 + r.2

def Apart (r r' : Region) : Prop := r.1 + r.2 ≤ r'.1 ∨ r'.1 + r'.2 ≤ r.1

/-- The first region is a part of the second one. -/
def Within (r r' : Region) : Prop := r'.1 ≤ r.1 ∧ r.1 + r.2 ≤ r'.1 + r'.2

theorem Apart.symm (h : r.Apart r') : r'.Apart r := Or.symm h

theorem Apart.not_has (h : r.Apart r') (hx : r.Has x) : ¬r'.Has x := by
  rintro ⟨h₁, h₂⟩
  obtain ⟨hx₁, hx₂⟩ := hx
  rcases h with h | h <;> omega

/-- Parts of regions that lie apart. -/
theorem Apart.within (h : r.Apart r') (hq : q.Within r) (hq' : q'.Within r') : q.Apart q' :=
  h.imp (fun h => hq.2.trans (h.trans hq'.1)) fun h => hq'.2.trans (h.trans hq.1)

end Region

end Prog
