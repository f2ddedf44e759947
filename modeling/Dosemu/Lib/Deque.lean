import Mathlib.Tactic

/-!
# Bounded deques

A deque of at most `n` entries that either refuses an entry at the back when it is
full or drops the front for it.  Entries at the front always go in, at the price of the
back.  The bound is a part of the type, so every operation carries the proof that it
keeps it.  The operations that add entries return how many they added without a loss,
as implementations do.
-/

/-- At most `n` entries, from the front to the back, and whether a full deque overwrites. -/
@[ext]
structure Deque (α : Type*) (n : Nat) where
  items : List α
  ovw : Bool
  length_le : items.length ≤ n

namespace Deque

variable {α : Type*} {n : Nat}

/-- No entries. -/
def empty (α : Type*) (n : Nat) (ovw : Bool) : Deque α n :=
  ⟨[], ovw, Nat.zero_le n⟩

/-- Append at the back; a full deque drops its front or refuses. -/
def put (d : Deque α n) (a : α) : Int × Deque α n :=
  if h : d.items.length = n then
    (0, if d.ovw then ⟨(d.items ++ [a]).tail, d.ovw, by simp [h]⟩ else d)
  else (1, ⟨d.items ++ [a], d.ovw, by
    have hle := d.length_le
    simp only [List.length_append, List.length_singleton]
    omega⟩)

/-- Prepend at the front; a full deque drops its back. -/
def push (d : Deque α n) (a : α) : Int × Deque α n :=
  if h : d.items.length = n then (0, ⟨(a :: d.items).dropLast, d.ovw, by simp [h]⟩)
  else (1, ⟨a :: d.items, d.ovw, by
    have hle := d.length_le
    simp only [List.length_cons]
    omega⟩)

/-- Remove the first `k` entries. -/
def remove (d : Deque α n) (k : Nat) : List α × Deque α n :=
  (d.items.take k, ⟨d.items.drop k, d.ovw, by
    have hle := d.length_le
    simp only [List.length_drop]
    omega⟩)

/-- Replace the entry `i` from the front. -/
def poke (d : Deque α n) (i : Nat) (a : α) : Int × Deque α n :=
  (if i < d.items.length then 1 else 0, ⟨d.items.set i a, d.ovw, by
    simpa using d.length_le⟩)

/-- Append one entry after the other. -/
def add (d : Deque α n) : List α → Int × Deque α n
  | [] => (0, d)
  | a :: as => ((d.put a).1 + ((d.put a).2.add as).1, ((d.put a).2.add as).2)

/-- Forget the entries. -/
def clear (d : Deque α n) : Deque α n :=
  empty α n d.ovw

/-- Choose what a full deque does. -/
def allowOvw (d : Deque α n) (ovw : Bool) : Deque α n :=
  { d with ovw := ovw }

/-- Removing `k + 1` entries is removing one and then `k`. -/
theorem remove_succ (d : Deque α n) (k : Nat) :
    d.remove (k + 1) =
      ((d.remove 1).1 ++ ((d.remove 1).2.remove k).1, ((d.remove 1).2.remove k).2) := by
  rcases d with ⟨items, ovw, hle⟩
  cases items with
  | nil => simp [remove]
  | cons a as => simp [remove]

end Deque
