import Mathlib.Tactic
import Mathlib.Algebra.BigOperators.Group.Finset.Piecewise

/-!
# Families of stacks

A stack kept in an array: the slots below its length are live, the rest hold
whatever was left in them.  A program that keeps many such stacks and counters
beside them relies on how the sum of a weight over all live slots changes when
one stack is pushed, popped or has a slot overwritten.

Main results:

- Theorem `total_update`: replacing one stack exchanges its weight.
- Theorems `weight_push`, `weight_pop` and `weight_set`: what the three changes
  of one stack do to its weight.
- Theorem `total_eq_zero_iff`: a sum of weights that are not negative vanishes
  only where every live slot weighs nothing.
-/

/-- An array of slots of which the first `len` are live. -/
structure Stack (α : Type*) where
  len : Nat
  slot : Nat → α

namespace Stack

open Finset Function

variable {ι α M : Type*} [AddCommGroup M]

/-- The sum of a weight over the live slots of one stack. -/
def weight (φ : α → M) (k : Stack α) : M :=
  ∑ i ∈ range k.len, φ (k.slot i)

/-- Overwriting a slot, live or not. -/
def set (k : Stack α) (i : Nat) (a : α) : Stack α :=
  { k with slot := update k.slot i a }

/-- One more live slot. -/
def push (k : Stack α) (a : α) : Stack α :=
  { len := k.len + 1, slot := update k.slot k.len a }

/-- One live slot less; `a` is left in it. -/
def pop (k : Stack α) (a : α) : Stack α :=
  { len := k.len - 1, slot := update k.slot (k.len - 1) a }

/-- The weight of the slots below `n` does not see a slot from `n` on. -/
theorem sum_range_update_of_le (φ : α → M) (s : Nat → α) {n i : Nat} (hi : n ≤ i) (a : α) :
    ∑ j ∈ range n, φ (update s i a j) = ∑ j ∈ range n, φ (s j) := by
  apply sum_congr rfl
  intro j hj
  have hne : j ≠ i := by
    have hlt := mem_range.1 hj
    omega
  rw [update_of_ne hne]

/-- A push adds the weight of what is pushed. -/
theorem weight_push (φ : α → M) (k : Stack α) (a : α) :
    weight φ (k.push a) = weight φ k + φ a := by
  unfold weight push
  dsimp only
  rw [sum_range_succ, sum_range_update_of_le φ k.slot le_rfl, update_self]

/-- A pop takes the weight of the top slot away. -/
theorem weight_pop (φ : α → M) (k : Stack α) (a : α) {n : Nat} (hn : k.len = n + 1) :
    weight φ (k.pop a) = weight φ k - φ (k.slot n) := by
  unfold weight pop
  rw [hn, Nat.add_sub_cancel, sum_range_succ, sum_range_update_of_le φ k.slot le_rfl]
  abel

/-- Changing one term of a sum. -/
theorem sum_exchange [DecidableEq ι] {s : Finset ι} {t : ι} (ht : t ∈ s) {f g : ι → M}
    (h : ∀ u ∈ s, u ≠ t → g u = f u) : ∑ u ∈ s, g u = ∑ u ∈ s, f u - f t + g t := by
  have hrest : ∑ u ∈ s.erase t, g u = ∑ u ∈ s.erase t, f u :=
    sum_congr rfl fun u hu => h u (mem_of_mem_erase hu) (ne_of_mem_erase hu)
  rw [← add_sum_erase s g ht, ← add_sum_erase s f ht, hrest]
  abel

/-- Overwriting a live slot exchanges its weight. -/
theorem weight_set (φ : α → M) (k : Stack α) {i : Nat} (hi : i < k.len) (a : α) :
    weight φ (k.set i a) = weight φ k - φ (k.slot i) + φ a := by
  have hsum := sum_exchange (mem_range.2 hi) (f := fun j => φ (k.slot j))
    (g := fun j => φ (update k.slot i a j))
    (fun j _ hne => by rw [update_of_ne hne])
  rw [update_self] at hsum
  exact hsum

/-- A slot that is not live weighs nothing. -/
theorem weight_set_of_le (φ : α → M) (k : Stack α) {i : Nat} (hi : k.len ≤ i) (a : α) :
    weight φ (k.set i a) = weight φ k :=
  sum_range_update_of_le φ k.slot hi a

/-- The sum of a weight over the live slots of a family of stacks. -/
def total (s : Finset ι) (φ : ι → α → M) (f : ι → Stack α) : M :=
  ∑ t ∈ s, weight (φ t) (f t)

/-- Replacing one stack exchanges its weight. -/
theorem total_update [DecidableEq ι] {s : Finset ι} {t : ι} (ht : t ∈ s) (φ : ι → α → M)
    (f : ι → Stack α) (k : Stack α) :
    total s φ (update f t k) = total s φ f - weight (φ t) (f t) + weight (φ t) k := by
  have hsum := sum_exchange ht (f := fun u => weight (φ u) (f u))
    (g := fun u => weight (φ u) (update f t k u))
    (fun u _ hne => by rw [update_of_ne hne])
  rw [update_self] at hsum
  exact hsum

theorem total_nonneg {φ : ι → α → Int} (hφ : ∀ t a, 0 ≤ φ t a) (s : Finset ι)
    (f : ι → Stack α) : 0 ≤ total s φ f :=
  sum_nonneg fun t _ => sum_nonneg fun _ _ => hφ t _

/-- A sum of weights that are not negative vanishes only where every live slot
weighs nothing. -/
theorem total_eq_zero_iff {s : Finset ι} {φ : ι → α → Int} (hφ : ∀ t a, 0 ≤ φ t a)
    (f : ι → Stack α) :
    total s φ f = 0 ↔ ∀ t ∈ s, ∀ i < (f t).len, φ t ((f t).slot i) = 0 := by
  unfold total weight
  rw [sum_eq_zero_iff_of_nonneg fun t _ => sum_nonneg fun i _ => hφ t _]
  simp only [sum_eq_zero_iff_of_nonneg fun i _ => hφ _ _, mem_range]

/-- A live slot weighs at most what the family weighs. -/
theorem le_total {s : Finset ι} {φ : ι → α → Int} (hφ : ∀ t a, 0 ≤ φ t a) (f : ι → Stack α)
    {t : ι} (ht : t ∈ s) {i : Nat} (hi : i < (f t).len) :
    φ t ((f t).slot i) ≤ total s φ f :=
  calc
    φ t ((f t).slot i) ≤ weight (φ t) (f t) :=
      single_le_sum (f := fun j => φ t ((f t).slot j)) (fun _ _ => hφ t _) (mem_range.2 hi)
    _ ≤ total s φ f :=
      single_le_sum (f := fun u => weight (φ u) (f u))
        (fun u _ => sum_nonneg fun _ _ => hφ u _) ht

end Stack
