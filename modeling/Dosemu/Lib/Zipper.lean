import Mathlib.Tactic

/-!
# List cursors

A cursor into a list: the elements already passed (nearest first), the element
under the cursor, and the rest.  It is what a pair of pointers `prev`, `cur`
into a singly linked list denotes.  `scan` is the common shape of the loops
that look such a list through from its head.

Main results:

- Theorem `scan_eq_some`: what a successful scan has passed and found.
- Theorem `scan_eq_none_iff`: a scan without a stop test fails exactly when no
  element is a hit.
- Theorem `scanLast_eq_some`: a scan that keeps the last hit returns a cursor
  at a hit.
- Theorem `scanLast_cases`: behind the last hit, others are only behind a stop.
-/

/-- A cursor into a list; `before` is kept nearest first. -/
structure Zipper (α : Type*) where
  before : List α
  focus : α
  after : List α

namespace Zipper

variable {α : Type*}

/-- The list the cursor points into. -/
def toList (z : Zipper α) : List α :=
  z.before.reverse ++ z.focus :: z.after

@[simp]
theorem toList_mk (before : List α) (x : α) (after : List α) :
    toList ⟨before, x, after⟩ = before.reverse ++ x :: after :=
  rfl

/-- Replacing the focus and the rest leaves what was passed alone. -/
theorem toList_cons_before (p : α) (before : List α) (x : α) (after : List α) :
    toList ⟨p :: before, x, after⟩ = toList ⟨before, p, x :: after⟩ := by
  simp [toList]

/-- Walk the list until the first element that passes `hit`; give up at the
first one that passes `stop`. -/
def scan (stop hit : α → Bool) : List α → List α → Option (Zipper α)
  | _, [] => none
  | before, x :: xs =>
      if stop x then none
      else if hit x then some ⟨before, x, xs⟩
      else scan stop hit (x :: before) xs

/-- Walk the list up to the first element that passes `stop` and keep the last
one that passes `hit`. -/
def scanLast (stop hit : α → Bool) : Option (Zipper α) → List α → List α → Option (Zipper α)
  | found, _, [] => found
  | found, before, x :: xs =>
      if stop x then found
      else scanLast stop hit (if hit x then some ⟨before, x, xs⟩ else found) (x :: before) xs

/-- A successful scan stands at a hit, inside the list it was given, and has
passed neither a hit nor a stop. -/
theorem scan_eq_some {stop hit : α → Bool} {before xs : List α} {z : Zipper α}
    (h : scan stop hit before xs = some z) :
    ∃ passed, z.before = passed.reverse ++ before ∧ xs = passed ++ z.focus :: z.after ∧
      hit z.focus = true ∧ stop z.focus = false ∧
      ∀ x ∈ passed, stop x = false ∧ hit x = false := by
  induction xs generalizing before with
  | nil => simp [scan] at h
  | cons x xs ih =>
      simp only [scan] at h
      split at h
      · simp at h
      · rename_i hstop
        split at h <;> rename_i hhit
        · cases h
          exact ⟨[], by simp, by simp, hhit, by simpa using hstop, by simp⟩
        · obtain ⟨passed, hbefore, hxs, hfocus, hfocusStop, hpassed⟩ := ih h
          refine ⟨x :: passed, by simp [hbefore], by simp [hxs], hfocus, hfocusStop, ?_⟩
          intro y hy
          rcases List.mem_cons.mp hy with rfl | hy
          · exact ⟨by simpa using hstop, by simpa using hhit⟩
          · exact hpassed y hy

/-- The cursor a scan from the head returns points into the scanned list. -/
theorem scan_toList {stop hit : α → Bool} {xs : List α} {z : Zipper α}
    (h : scan stop hit [] xs = some z) : z.toList = xs := by
  obtain ⟨passed, hbefore, hxs, -⟩ := scan_eq_some h
  rw [hxs, toList, hbefore]
  simp

/-- The element a scan stops at passes the hit test. -/
theorem scan_hit {stop hit : α → Bool} {before xs : List α} {z : Zipper α}
    (h : scan stop hit before xs = some z) : hit z.focus = true := by
  obtain ⟨_, -, -, hhit, -⟩ := scan_eq_some h
  exact hhit

/-- Without a stop test a scan fails exactly when nothing is a hit. -/
theorem scan_eq_none_iff {hit : α → Bool} {before xs : List α} :
    scan (fun _ => false) hit before xs = none ↔ ∀ x ∈ xs, hit x = false := by
  induction xs generalizing before with
  | nil => simp [scan]
  | cons x xs ih =>
      simp only [scan, Bool.false_eq_true, if_false, List.mem_cons, forall_eq_or_imp]
      by_cases hhit : hit x = true
      · simp [hhit]
      · simp [hhit, ih]

/-- A scan finds the first hit when nothing before it stops the walk. -/
theorem scan_of_split {stop hit : α → Bool} {passed after before : List α} {x : α}
    (hpassed : ∀ y ∈ passed, stop y = false ∧ hit y = false)
    (hstop : stop x = false) (hhit : hit x = true) :
    scan stop hit before (passed ++ x :: after) =
      some ⟨passed.reverse ++ before, x, after⟩ := by
  induction passed generalizing before with
  | nil => simp [scan, hstop, hhit]
  | cons y passed ih =>
      have hy := hpassed y List.mem_cons_self
      have hrest : ∀ w ∈ passed, stop w = false ∧ hit w = false :=
        fun w hw => hpassed w (List.mem_cons_of_mem y hw)
      simp [scan, hy.1, hy.2, ih hrest]

/-- A scan that keeps the last hit returns its start value or a cursor at a
hit that no stop precedes. -/
theorem scanLast_eq_some {stop hit : α → Bool} {found : Option (Zipper α)}
    {before xs : List α} {z : Zipper α} (h : scanLast stop hit found before xs = some z) :
    found = some z ∨
      (z.toList = before.reverse ++ xs ∧ hit z.focus = true ∧ stop z.focus = false) := by
  induction xs generalizing before found with
  | nil => exact Or.inl h
  | cons x xs ih =>
      simp only [scanLast] at h
      split at h
      · exact Or.inl h
      · rename_i hstop
        rcases ih h with hfound | ⟨hlist, hhit⟩
        · split at hfound <;> rename_i hx
          · cases hfound
            exact Or.inr ⟨by simp, hx, by simpa using hstop⟩
          · exact Or.inl hfound
        · exact Or.inr ⟨by simpa using hlist, hhit⟩

/-- Hits are only found behind an element that stops the walk. -/
def Exhausted (stop hit : α → Bool) : List α → Prop
  | [] => True
  | x :: xs => stop x = true ∨ hit x = false ∧ Exhausted stop hit xs

/-- A scan that keeps the last hit leaves no further one. -/
theorem scanLast_cases (stop hit : α → Bool) (found : Option (Zipper α)) (before xs : List α) :
    scanLast stop hit found before xs = found ∧ Exhausted stop hit xs ∨
      ∃ z, scanLast stop hit found before xs = some z ∧ z.toList = before.reverse ++ xs ∧
        hit z.focus = true ∧ stop z.focus = false ∧ Exhausted stop hit z.after := by
  induction xs generalizing before found with
  | nil => exact Or.inl ⟨rfl, trivial⟩
  | cons x xs ih =>
      rw [scanLast]
      by_cases hstop : stop x = true
      · rw [if_pos hstop]
        exact Or.inl ⟨rfl, Or.inl hstop⟩
      · rw [if_neg hstop]
        by_cases hhit : hit x = true
        · rw [if_pos hhit]
          right
          rcases ih (some ⟨before, x, xs⟩) (x :: before) with ⟨hres, hrest⟩ | ⟨z, hz, hlist, hrest⟩
          · exact ⟨_, hres, rfl, hhit, by simpa using hstop, hrest⟩
          · exact ⟨z, hz, by simpa using hlist, hrest⟩
        · rw [if_neg hhit]
          rcases ih found (x :: before) with ⟨hres, hrest⟩ | ⟨z, hz, hlist, hrest⟩
          · exact Or.inl ⟨hres, Or.inr ⟨by simpa using hhit, hrest⟩⟩
          · exact Or.inr ⟨z, hz, by simpa using hlist, hrest⟩

/-- In a list in order, a hit that was not found comes with or behind a stop. -/
theorem Exhausted.exists_stop {stop hit : α → Bool} {R : α → α → Prop} {xs : List α} {x : α}
    (h : Exhausted stop hit xs) (hxs : xs.Pairwise R) (hx : x ∈ xs) (hhit : hit x = true) :
    ∃ y ∈ xs, stop y = true ∧ (y = x ∨ R y x) := by
  induction xs with
  | nil => cases hx
  | cons y ys ih =>
      obtain ⟨hy, hys⟩ := List.pairwise_cons.mp hxs
      rcases h with hstop | ⟨hno, hrest⟩
      · refine ⟨y, List.mem_cons_self, hstop, ?_⟩
        rcases List.mem_cons.mp hx with rfl | hmem
        · exact Or.inl rfl
        · exact Or.inr (hy x hmem)
      · rcases List.mem_cons.mp hx with rfl | hmem
        · rw [hno] at hhit
          cases hhit
        · obtain ⟨w, hw, hstop, hbefore⟩ := ih hrest hys hmem
          exact ⟨w, List.mem_cons_of_mem y hw, hstop, hbefore⟩

end Zipper
