import Mathlib.Tactic

/-!
# Painting

A picture has a colour at every place. It is painted stroke by stroke, each of
which puts a colour on one place (`paint`), so that the last stroke on a place
decides what is seen there.

* `paint_of_last`, `paint_of_unique`: the last stroke, or what all strokes on the
  place agree on;
* `paint_eq_filter_iff`: when some strokes are not meant, the picture is still
  right at a place if and only if no such stroke comes last there, unless with
  the colour that is right.
-/

namespace Prog

variable {ι κ σ : Type*} [DecidableEq ι] {place : σ → ι} {colour : σ → κ}

/-- The picture `f`, after the strokes `l`. -/
def paint (place : σ → ι) (colour : σ → κ) (f : ι → κ) (l : List σ) : ι → κ :=
  l.foldl (fun f s => Function.update f (place s) (colour s)) f

variable {f : ι → κ} {l l₁ l₂ : List σ} {s : σ} {i : ι} {c : κ}

theorem paint_cons : paint place colour f (s :: l) =
    paint place colour (Function.update f (place s) (colour s)) l := rfl

theorem paint_append : paint place colour f (l₁ ++ l₂) =
    paint place colour (paint place colour f l₁) l₂ := List.foldl_append

/-- A place without strokes is as before. -/
theorem paint_of_ne (h : ∀ s ∈ l, place s ≠ i) : paint place colour f l i = f i := by
  induction l generalizing f with
  | nil => rfl
  | cons s l ih =>
    rw [paint_cons, ih fun s' hs' => h s' (List.mem_cons_of_mem _ hs')]
    exact Function.update_of_ne (h s List.mem_cons_self).symm _ _

/-- The last stroke on a place. -/
theorem paint_of_last (hs : place s = i) (h : ∀ s ∈ l₂, place s ≠ i) :
    paint place colour f (l₁ ++ s :: l₂) i = colour s := by
  rw [paint_append, paint_cons, paint_of_ne h, ← hs]
  exact Function.update_self _ _ _

theorem exists_last_stroke (h : ∃ s ∈ l, place s = i) :
    ∃ l₁ s l₂, l = l₁ ++ s :: l₂ ∧ place s = i ∧ ∀ s' ∈ l₂, place s' ≠ i := by
  induction l with
  | nil =>
    obtain ⟨s, hs, -⟩ := h
    exact absurd hs List.not_mem_nil
  | cons s₀ l ih =>
    by_cases hl : ∃ s ∈ l, place s = i
    · obtain ⟨l₁, s, l₂, rfl, hs, hlast⟩ := ih hl
      exact ⟨s₀ :: l₁, s, l₂, rfl, hs, hlast⟩
    · push Not at hl
      obtain ⟨s, hs, hi⟩ := h
      rcases List.mem_cons.1 hs with rfl | hs
      · exact ⟨[], s, l, rfl, hi, hl⟩
      · exact absurd hi (hl s hs)

/-- A place on which all strokes have one colour. -/
theorem paint_of_unique (h : ∃ s ∈ l, place s = i) (hc : ∀ s ∈ l, place s = i → colour s = c) :
    paint place colour f l i = c := by
  obtain ⟨l₁, s, l₂, rfl, hs, hlast⟩ := exists_last_stroke h
  rw [paint_of_last hs hlast]
  exact hc s (by simp) hs

/-- What the strokes that are meant (`keep`) paint is painted by all strokes, on a place, if and
    only if any other stroke there is followed by another one, or has the right colour. -/
theorem paint_eq_filter_iff {keep : σ → Bool} :
    paint place colour f l i = paint place colour f (l.filter keep) i ↔
      ∀ l₁ s l₂, l = l₁ ++ s :: l₂ → place s = i → keep s = false →
        (∃ s' ∈ l₂, place s' = i) ∨ colour s = paint place colour f (l.filter keep) i := by
  constructor
  · rintro h l₁ s l₂ hl hs -
    by_cases hafter : ∃ s' ∈ l₂, place s' = i
    · exact .inl hafter
    · push Not at hafter
      rw [← h, hl]
      exact .inr (paint_of_last hs hafter).symm
  · intro h
    by_cases hex : ∃ s ∈ l, place s = i
    · obtain ⟨l₁, s, l₂, hl, hs, hlast⟩ := exists_last_stroke hex
      have hcolour : paint place colour f l i = colour s := hl ▸ paint_of_last hs hlast
      rw [hcolour]
      cases hkeep : keep s with
      | false =>
        refine (h l₁ s l₂ hl hs hkeep).resolve_left ?_
        rintro ⟨s', hs', hi⟩
        exact hlast s' hs' hi
      | true =>
        rw [hl, List.filter_append, List.filter_cons_of_pos hkeep]
        exact (paint_of_last hs fun s' hs' => hlast s' (List.mem_of_mem_filter hs')).symm
    · push Not at hex
      rw [paint_of_ne hex, paint_of_ne fun s hs => hex s (List.mem_of_mem_filter hs)]

end Prog
