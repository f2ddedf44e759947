import Mathlib.Tactic
import Mathlib.Algebra.BigOperators.Fin

/-!
# Fixed tables of records

An array of a fixed number of records, as a function on its indices, and sums
of a weight over its entries.  Code that keeps a running total beside such a
table changes one entry at a time; `total_update` says what that does to the
sum.

Main results:

- Theorem `total_update`: overwriting an entry exchanges its weight.
- Theorem `weight_le_total`: one entry weighs at most what the table weighs.
-/

namespace Table

open Function

variable {α : Type*} {n : Nat}

/-- The sum of a weight over the entries of a table. -/
def total (weight : α → Nat) (t : Fin n → α) : Nat :=
  ∑ i, weight (t i)

/-- Overwriting an entry takes its old weight away and adds the new one. -/
theorem total_update (weight : α → Nat) (t : Fin n → α) (i : Fin n) (a : α) :
    total weight (update t i a) + weight (t i) = total weight t + weight a := by
  unfold total
  have hold := Finset.add_sum_erase Finset.univ (fun j => weight (t j)) (Finset.mem_univ i)
  have hnew := Finset.add_sum_erase Finset.univ (fun j => weight (update t i a j))
    (Finset.mem_univ i)
  have hrest : ∑ j ∈ Finset.univ.erase i, weight (update t i a j) =
      ∑ j ∈ Finset.univ.erase i, weight (t j) := by
    apply Finset.sum_congr rfl
    intro j hj
    rw [update_of_ne (Finset.ne_of_mem_erase hj)]
  simp only [update_self] at hnew
  omega

/-- One entry weighs at most as much as the whole table. -/
theorem weight_le_total (weight : α → Nat) (t : Fin n → α) (i : Fin n) :
    weight (t i) ≤ total weight t :=
  Finset.single_le_sum (f := fun j => weight (t j)) (fun _ _ => Nat.zero_le _) (Finset.mem_univ i)

/-- A table whose entries weigh nothing weighs nothing. -/
theorem total_eq_zero {weight : α → Nat} {t : Fin n → α} (h : ∀ i, weight (t i) = 0) :
    total weight t = 0 :=
  Finset.sum_eq_zero fun i _ => h i

/-- Only one entry has a weight. -/
theorem total_eq_single {weight : α → Nat} {t : Fin n → α} (i : Fin n)
    (h : ∀ j, j ≠ i → weight (t j) = 0) : total weight t = weight (t i) :=
  Finset.sum_eq_single i (fun j _ hj => h j hj) (fun hi => absurd (Finset.mem_univ i) hi)

end Table
