import Mathlib.Algebra.Order.Group.Multiset
import Mathlib.Tactic

/-!
# Tables of slots

A list of slots, some of which are in use.  Code that fills a free slot, clears
a used one or replaces its contents overwrites one slot; `filter_set` says what
that does to the slots in use, regardless of their order.

Main results:

- Theorem `filter_set`: overwriting a slot exchanges its contents.
- Theorems `filter_fill`, `filter_clear` and `filter_replace`: the three ways to
  do it.
- Theorem `first_cases`: how a search for a slot ends.
-/

namespace Slots

variable {α : Type*} {p : α → Bool} {l : List α} {i : Nat} {a b : α}

/-- The slots of a kind after one is overwritten, with the old contents of that one. -/
theorem filter_set (hi : l[i]? = some b) :
    ((l.set i a).filter p ++ [b].filter p).Perm (l.filter p ++ [a].filter p) := by
  obtain ⟨hlt, rfl⟩ := List.getElem?_eq_some_iff.mp hi
  have hsplit : l = l.take i ++ [l[i]] ++ l.drop (i + 1) := by simp
  have hset : l.set i a = l.take i ++ [a] ++ l.drop (i + 1) := by
    rw [List.set_eq_take_append_cons_drop, if_pos hlt]
    simp
  have hswap (t x d y : List α) : ((t ++ x ++ d) ++ y).Perm ((t ++ y ++ d) ++ x) := by
    rw [← Multiset.coe_eq_coe]
    simp only [← Multiset.coe_add]
    abel
  rw [hset]
  conv_rhs => rw [hsplit]
  simp only [List.filter_append]
  exact hswap _ _ _ _

theorem filter_fill (hi : l[i]? = some b) (hb : p b = false) (ha : p a = true) :
    ((l.set i a).filter p).Perm (a :: l.filter p) := by
  have h := @filter_set α p l i a b hi
  simp only [List.filter_singleton, hb, ha, cond_true, cond_false, List.append_nil] at h
  exact h.trans (List.perm_append_singleton a _)

theorem filter_clear (hi : l[i]? = some b) (hb : p b = true) (ha : p a = false) :
    (l.filter p).Perm (b :: (l.set i a).filter p) := by
  have h := @filter_set α p l i a b hi
  simp only [List.filter_singleton, hb, ha, cond_true, cond_false, List.append_nil] at h
  exact h.symm.trans (List.perm_append_singleton b _)

theorem filter_replace [DecidableEq α] (hi : l[i]? = some b) (hb : p b = true)
    (ha : p a = true) : ((l.set i a).filter p).Perm (a :: (l.filter p).erase b) := by
  have h := @filter_set α p l i a b hi
  simp only [List.filter_singleton, hb, ha, cond_true] at h
  have hold := (List.perm_append_singleton b _).symm.trans
    (h.trans (List.perm_append_singleton a _))
  have herase := hold.erase b
  rw [List.erase_cons_head] at herase
  by_cases hab : a = b
  · subst hab
    rw [List.erase_cons_head] at herase
    have hmem : a ∈ l.filter p := List.mem_filter.mpr ⟨List.mem_of_getElem? hi, hb⟩
    exact herase.trans (List.perm_cons_erase hmem)
  · rwa [List.erase_cons_tail (by simpa using hab)] at herase

/-- A search for the index of a slot and one for the slot end at the same one. -/
theorem first_cases (p : α → Bool) (l : List α) :
    (l.findIdx? p = none ∧ ∀ b ∈ l, p b = false) ∨
      ∃ i b, l.findIdx? p = some i ∧ l.find? p = some b ∧ l[i]? = some b ∧ p b = true := by
  induction l with
  | nil => exact Or.inl ⟨rfl, by simp⟩
  | cons x l ih =>
      cases hx : p x with
      | true => exact Or.inr ⟨0, x, by simp [List.findIdx?_cons, hx], by simp [hx], rfl, hx⟩
      | false =>
          rcases ih with ⟨hidx, hall⟩ | ⟨i, b, hidx, hfind, hget, hb⟩
          · exact Or.inl ⟨by simp [List.findIdx?_cons, hx, hidx], by simpa [hx] using hall⟩
          · exact Or.inr ⟨i + 1, b, by simp [List.findIdx?_cons, hx, hidx], by simp [hx, hfind],
              by simpa using hget, hb⟩

end Slots
