import Mathlib.Data.List.AList
import Mathlib.Tactic

/-!
# Records under keys

Changing one record of a keyed list in place, and the list read as a function
from keys.  Erasing the entries that meet a test one at a time leads to the
filtered list.

Main results:

- Theorem `lookup_modify`: what one change does to every key.
- Theorem `eq_filter_of_countP_eq_zero`: a list that has lost all entries of a
  kind, and none of another kind, is the filtered one.
-/

namespace KeyedList

variable {α β : Type*} [DecidableEq α]

/-- Change the record under a key, if there is one. -/
def modify (m : AList fun _ : α => β) (a : α) (f : β → β) : AList fun _ : α => β :=
  match m.lookup a with
  | none => m
  | some b => m.insert a (f b)

theorem lookup_modify (m : AList fun _ : α => β) (a c : α) (f : β → β) :
    (modify m a f).lookup c = if c = a then (m.lookup a).map f else m.lookup c := by
  by_cases hca : c = a
  · subst hca
    rw [if_pos rfl, modify]
    cases hm : m.lookup c with
    | none => simpa using hm
    | some b => simp
  · rw [if_neg hca, modify]
    cases hm : m.lookup a with
    | none => rfl
    | some b => simp [AList.lookup_insert_ne hca]

theorem lookup_erase_eq (m : AList fun _ : α => β) (a c : α) :
    (m.erase a).lookup c = if c = a then none else m.lookup c := by
  by_cases hca : c = a
  · subst hca
    simp
  · simp [hca]

/-! ## Erasing entries of a kind -/

variable {γ : Type*} {p : γ → Bool}

/-- Erasing an entry of a kind does not touch the others. -/
theorem filter_not_eraseP (l : List γ) :
    (l.eraseP p).filter (fun x => !p x) = l.filter (fun x => !p x) := by
  induction l with
  | nil => rfl
  | cons x l ih =>
      by_cases hx : p x = true
      · simp [List.eraseP_cons_of_pos, hx]
      · simp [List.eraseP_cons_of_neg, hx, ih]

theorem countP_eraseP_of_pos {l : List γ} (h : 0 < l.countP p) :
    (l.eraseP p).countP p = l.countP p - 1 := by
  induction l with
  | nil => simp at h
  | cons x l ih =>
      by_cases hx : p x = true
      · simp [List.eraseP_cons_of_pos, hx]
      · rw [List.eraseP_cons_of_neg hx, List.countP_cons_of_neg hx, List.countP_cons_of_neg hx]
        rw [List.countP_cons_of_neg hx] at h
        exact ih h

theorem eq_filter_of_countP_eq_zero {l l' : List γ} (hcount : l'.countP p = 0)
    (hrest : l'.filter (fun x => !p x) = l.filter (fun x => !p x)) :
    l' = l.filter (fun x => !p x) := by
  rw [← hrest, List.filter_eq_self.mpr]
  intro x hx
  have hnot := List.countP_eq_zero.mp hcount x hx
  simpa using hnot

/-- A list that has as many entries of a kind as two conditions hold loses them all when
each condition erases one. -/
theorem eraseP_eraseP_eq_filter {P Q : Prop} [Decidable P] [Decidable Q] {l : List γ}
    (hcount : l.countP p = (if P then 1 else 0) + if Q then 1 else 0) :
    (if Q then (if P then l.eraseP p else l).eraseP p else if P then l.eraseP p else l) =
      l.filter fun x => !p x := by
  apply eq_filter_of_countP_eq_zero
  · by_cases hP : P <;> by_cases hQ : Q <;> simp only [hP, hQ, if_true, if_false] at hcount ⊢
    · have hone : (l.eraseP p).countP p = 1 := by
        rw [countP_eraseP_of_pos (by omega)]
        omega
      rw [countP_eraseP_of_pos (by omega), hone]
    · rw [countP_eraseP_of_pos (by omega)]
      omega
    · rw [countP_eraseP_of_pos (by omega)]
      omega
    · exact hcount
  · by_cases hP : P <;> by_cases hQ : Q <;> simp only [hP, hQ, if_true, if_false, filter_not_eraseP]

end KeyedList
