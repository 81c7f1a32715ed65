import Mathlib.Tactic

/-!
# Polling

A device that is read again and again: `answers m` is what the read number `m`
gives. Polling it reads until an answer is one to stop at, at most so many times
(`polled`); it has read that often exactly when it does not stop before
(`length_polled_iff`), and otherwise its last answer is one to stop at
(`polled_cases`).

What a program does with a device is a list of events. `Every` is what holds of
every event of it and the events before.
-/

namespace Prog

variable {α ε : Type*}

/-- What polling reads, from the read number `m` on, at most `n` times. -/
def polled (answers : ℕ → α) (stop : α → Bool) : ℕ → ℕ → List α
  | 0, _ => []
  | n + 1, m => answers m :: if stop (answers m) then [] else polled answers stop n (m + 1)

section

variable (answers : ℕ → α) (stop : α → Bool) (n m : ℕ)

/-- Polling goes on to the end, or stops at the first answer that it can stop at. -/
theorem polled_cases :
    ((polled answers stop n m).length = n ∧ ∀ k, k + 1 < n → stop (answers (m + k)) = false) ∨
    ∃ k < n, (∀ j < k, stop (answers (m + j)) = false) ∧ stop (answers (m + k)) = true ∧
      (polled answers stop n m).getLast? = some (answers (m + k)) ∧
      (polled answers stop n m).length = k + 1 := by
  induction n generalizing m with
  | zero => exact .inl ⟨rfl, fun k hk => absurd hk (Nat.not_lt_zero _)⟩
  | succ n ih =>
    rw [polled]
    by_cases hstop : stop (answers m) = true
    · rw [if_pos hstop]
      exact .inr ⟨0, Nat.succ_pos n, fun j hj => absurd hj (Nat.not_lt_zero j), hstop, rfl, rfl⟩
    · rw [if_neg hstop]
      have hfirst : stop (answers (m + 0)) = false := by simpa using hstop
      have hshift : ∀ k, answers (m + 1 + k) = answers (m + (k + 1)) := fun k =>
        congrArg answers (by omega)
      rcases ih (m + 1) with ⟨hlen, hall⟩ | ⟨k, hk, hbefore, hat, hlast, hlen⟩
      · refine .inl ⟨by rw [List.length_cons, hlen], fun k hk => ?_⟩
        cases k with
        | zero => exact hfirst
        | succ k => exact hshift k ▸ hall k (Nat.lt_of_succ_lt_succ hk)
      · refine .inr ⟨k + 1, Nat.succ_lt_succ hk, fun j hj => ?_, hshift k ▸ hat, ?_,
          by rw [List.length_cons, hlen]⟩
        · cases j with
          | zero => exact hfirst
          | succ j => exact hshift j ▸ hbefore j (Nat.lt_of_succ_lt_succ hj)
        · rw [List.getLast?_cons, hlast, Option.getD_some, hshift]

/-- Polling goes on to the end exactly when it does not stop before. -/
theorem length_polled_iff : n ≤ (polled answers stop n m).length ↔
    ∀ k, k + 1 < n → stop (answers (m + k)) = false := by
  rcases polled_cases answers stop n m with ⟨hlen, hall⟩ | ⟨k, hk, hbefore, hat, -, hlen⟩
  · exact iff_of_true hlen.ge hall
  · rw [hlen]
    refine ⟨fun hle j hj => hbefore j (by omega), fun h => ?_⟩
    by_contra hlt
    rw [h k (by omega)] at hat
    cases hat

theorem polled_ne_nil (hn : 0 < n) : polled answers stop n m ≠ [] := fun h => by
  have hlen := congrArg List.length h
  rcases polled_cases answers stop n m with ⟨hlen', -⟩ | ⟨k, -, -, -, -, hlen'⟩ <;>
    rw [hlen', List.length_nil] at hlen <;> omega

end

/-! ## Events -/

/-- `Q` holds of every event, and the events before it. -/
def Every (Q : List ε → ε → Prop) (es : List ε) : Prop :=
  ∀ before e after, es = before ++ e :: after → Q before e

section

variable {Q Q' : List ε → ε → Prop} {es : List ε} {e : ε}

theorem every_nil : Every Q [] := fun before e after h => by simp at h

theorem every_snoc : Every Q (es ++ [e]) ↔ Every Q es ∧ Q es e := by
  constructor
  · refine fun h => ⟨fun before e' after heq => h before e' (after ++ [e]) ?_, h es e [] rfl⟩
    rw [heq, List.append_assoc, List.cons_append]
  · rintro ⟨h, he⟩ before e' after heq
    rcases List.eq_nil_or_concat after with rfl | ⟨after, e'', rfl⟩
    · obtain ⟨rfl, hlast⟩ := List.append_inj' heq rfl
      rw [← List.singleton_inj.1 hlast]
      exact he
    · rw [List.concat_eq_append, ← List.cons_append, ← List.append_assoc] at heq
      obtain ⟨rfl, -⟩ := List.append_inj' heq rfl
      exact h before e' after rfl

theorem every_congr (h : Every (fun before e => Q before e ↔ Q' before e) es) :
    Every Q es ↔ Every Q' es :=
  forall₄_congr fun before e after heq => h before e after heq

end

end Prog
