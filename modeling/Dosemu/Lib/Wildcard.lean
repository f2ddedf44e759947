import Mathlib.Tactic

/-!
# Patterns with wildcards

A pattern is a list of symbols: one that stands for any string, one that stands
for any single letter, and letters, which are related to the letters of a word by
any relation.

Main results:

- Theorems `matches_nil`, `matches_any_cons` and `matches_letter_cons`: one
  symbol of a pattern.
- Theorem `matches_many_cons`: a word that matches behind a wildcard has a tail
  that matches the rest.
- Theorem `matches_many_any`: a wildcard and a single letter may change places.
-/

namespace Wildcard

variable {α β : Type*}

/-- A symbol of a pattern. -/
inductive Sym (α : Type*) where
  | many
  | any
  | letter (a : α)

/-- The words of a pattern, where `r` says which letters are good for a letter of the pattern. -/
inductive Matches (r : α → β → Prop) : List (Sym α) → List β → Prop where
  | nil : Matches r [] []
  | many {p : List (Sym α)} {w : List β} (u : List β) (h : Matches r p w) :
      Matches r (.many :: p) (u ++ w)
  | any {p : List (Sym α)} {w : List β} (b : β) (h : Matches r p w) : Matches r (.any :: p) (b :: w)
  | letter {p : List (Sym α)} {w : List β} {a : α} {b : β} (hr : r a b) (h : Matches r p w) :
      Matches r (.letter a :: p) (b :: w)

variable {r : α → β → Prop} {p : List (Sym α)} {w : List β} {a : α} {b : β}

theorem matches_nil : Matches r [] w ↔ w = [] := by
  constructor
  · rintro ⟨⟩
    rfl
  · rintro rfl
    exact .nil

theorem matches_any_cons : Matches r (.any :: p) w ↔ ∃ b v, w = b :: v ∧ Matches r p v := by
  constructor
  · rintro ⟨⟩
    next b h => exact ⟨b, _, rfl, h⟩
  · rintro ⟨b, v, rfl, h⟩
    exact .any b h

theorem matches_letter_cons :
    Matches r (.letter a :: p) w ↔ ∃ b v, w = b :: v ∧ r a b ∧ Matches r p v := by
  constructor
  · rintro ⟨⟩
    next hr h => exact ⟨_, _, rfl, hr, h⟩
  · rintro ⟨b, v, rfl, hr, h⟩
    exact .letter hr h

theorem matches_many_cons :
    Matches r (.many :: p) w ↔ ∃ k ≤ w.length, Matches r p (w.drop k) := by
  constructor
  · rintro ⟨⟩
    next u h =>
      refine ⟨u.length, by rw [List.length_append]; omega, ?_⟩
      rw [List.drop_left]
      exact h
  · rintro ⟨k, -, h⟩
    rw [← List.take_append_drop k w]
    exact .many _ h

/-- Anything matches a wildcard at the end. -/
theorem matches_many : Matches r [.many] w := by
  rw [matches_many_cons]
  refine ⟨w.length, Nat.le_refl _, ?_⟩
  rw [List.drop_length]
  exact .nil

/-- A wildcard behind a wildcard is nothing new. -/
theorem matches_many_many : Matches r (.many :: .many :: p) w ↔ Matches r (.many :: p) w := by
  simp only [matches_many_cons]
  constructor
  · rintro ⟨k, hk, j, hj, h⟩
    rw [List.length_drop] at hj
    rw [List.drop_drop] at h
    exact ⟨k + j, by omega, h⟩
  · rintro ⟨k, hk, h⟩
    refine ⟨k, hk, 0, Nat.zero_le _, ?_⟩
    rw [List.drop_zero]
    exact h

/-- A single letter behind a wildcard may as well be in front of it. -/
theorem matches_many_any :
    Matches r (.many :: .any :: p) w ↔ ∃ b v, w = b :: v ∧ Matches r (.many :: p) v := by
  simp only [matches_many_cons, matches_any_cons]
  constructor
  · rintro ⟨k, -, b, v, heq, h⟩
    cases w with
    | nil =>
        rw [List.drop_nil] at heq
        cases heq
    | cons b' w =>
        refine ⟨b', w, rfl, k, ?_, ?_⟩
        · have hlen := congrArg List.length heq
          rw [List.length_drop, List.length_cons, List.length_cons] at hlen
          omega
        · have hrest : w.drop k = v := by
            have htail := congrArg List.tail heq
            rw [List.tail_drop, List.drop_succ_cons, List.tail_cons] at htail
            exact htail
          rw [hrest]
          exact h
  · rintro ⟨b, v, rfl, k, hk, h⟩
    have hlen : k < (b :: v).length := by
      rw [List.length_cons]
      omega
    refine ⟨k, hlen.le, (b :: v)[k], v.drop k, ?_, h⟩
    rw [List.drop_eq_getElem_cons hlen, List.drop_succ_cons]

end Wildcard
