import Mathlib.Tactic

/-!
# Records kept beside a device

A program that cannot read a device back keeps a record of what it wrote.  A cell
pairs the record with the device: the value that is wanted, whether it is applied,
and the value the device really has.  A cell that is not applied has the device at
its default.  Cells are written by loops over a range of indices.

Main results:

- Theorem `sweep_apply`: what a loop over a range leaves in each place.
- Theorems `Cell.Agrees.write`, `Cell.agrees_park` and `Cell.agrees_restore`: the
  operations keep record and device in step.
- Theorem `Cell.agrees_force_iff`: what happens if the device alone is set back.
-/

namespace Shadow

variable {α V : Type*}

/-- Run a loop body on the places `k`, …, `k + n - 1` of a table. -/
def sweep (f : Nat → α → α) (k : Nat) : Nat → (Nat → α) → Nat → α
  | 0, m => m
  | n + 1, m =>
      let m := sweep f k n m
      Function.update m (k + n) (f n (m (k + n)))

theorem sweep_apply (f : Nat → α → α) (k n : Nat) (m : Nat → α) (j : Nat) :
    sweep f k n m j = if k ≤ j ∧ j < k + n then f (j - k) (m j) else m j := by
  induction n with
  | zero => rw [if_neg (by omega), sweep]
  | succ n ih =>
      by_cases hj : j = k + n
      · have hout : sweep f k n m j = m j := by rw [ih, if_neg (by omega)]
        rw [sweep, hj, Function.update_self, ← hj, hout, if_pos (by omega)]
        congr 1
        omega
      · rw [sweep, Function.update_of_ne hj, ih]
        by_cases hin : k ≤ j ∧ j < k + n
        · rw [if_pos hin, if_pos (by omega)]
        · rw [if_neg hin, if_neg (by omega)]

theorem sweep_inside {f : Nat → α → α} {k n i : Nat} {m : Nat → α} (hi : i < n) :
    sweep f k n m (k + i) = f i (m (k + i)) := by
  rw [sweep_apply, if_pos (by omega), Nat.add_sub_cancel_left]

theorem sweep_outside {f : Nat → α → α} {k n j : Nat} {m : Nat → α} (hj : j < k ∨ k + n ≤ j) :
    sweep f k n m j = m j := by
  rw [sweep_apply, if_neg (by omega)]

/-- Two loops over one range are one loop. -/
theorem sweep_sweep (f g : Nat → α → α) (k n : Nat) (m : Nat → α) :
    sweep f k n (sweep g k n m) = sweep (fun i a => f i (g i a)) k n m := by
  ext j
  rw [sweep_apply, sweep_apply, sweep_apply]
  by_cases hin : k ≤ j ∧ j < k + n
  · rw [if_pos hin, if_pos hin, if_pos hin]
  · rw [if_neg hin, if_neg hin, if_neg hin]

/-- A loop that writes back what it reads. -/
theorem sweep_id (k n : Nat) (m : Nat → α) : sweep (fun _ a => a) k n m = m := by
  ext j
  rw [sweep_apply, ite_self]

/-- A record and the part of the device it is about. -/
structure Cell (V : Type*) where
  wanted : V
  applied : Bool
  actual : V

namespace Cell

variable {c : Cell V} {d v : V}

/-- The device has what is recorded, or its default. -/
def Agrees (c : Cell V) (d : V) : Prop :=
  c.actual = if c.applied then c.wanted else d

/-- Record a value and, where the record is applied, write it. -/
def write (c : Cell V) (v : V) : Cell V :=
  ⟨v, c.applied, if c.applied then v else c.actual⟩

/-- Set the device back and remember that the record is not applied. -/
def park (c : Cell V) (d : V) : Cell V :=
  ⟨c.wanted, false, d⟩

/-- Apply the record. -/
def restore (c : Cell V) : Cell V :=
  ⟨c.wanted, true, c.wanted⟩

/-- Record a value, but set the device back to its default. -/
def force (c : Cell V) (v d : V) : Cell V :=
  ⟨v, c.applied, d⟩

theorem Agrees.write (h : c.Agrees d) (v : V) : (c.write v).Agrees d := by
  unfold Agrees at h ⊢
  cases happlied : c.applied <;> simp_all [Cell.write]

theorem agrees_park (c : Cell V) (d : V) : (c.park d).Agrees d :=
  rfl

theorem agrees_restore (c : Cell V) (d : V) : c.restore.Agrees d :=
  rfl

/-- Forcing the device is right only where the default is also what is recorded. -/
theorem agrees_force_iff : (c.force v d).Agrees d ↔ (c.applied = true → v = d) := by
  unfold Agrees force
  cases c.applied with
  | false => simp
  | true => simpa using eq_comm

end Cell

end Shadow
