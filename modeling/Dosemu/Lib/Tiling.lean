import Mathlib.Tactic

/-!
# Tilings of an interval

A list of segments tiles an interval when each segment starts where the one
before it ends, none is empty, and together they reach from one end of the
interval to the other.  Segments are elements of an arbitrary type with a
start and a length.

Main results:

- Theorem `tiles_append`: a tiling splits at any list boundary.
- Theorem `Tiles.mem_bounds`: every segment lies inside the interval.
- Theorem `Tiles.pairwise_end_le`: segments are in ascending order and disjoint.
- Theorem `Tiles.eq_of_overlap`: segments that share a point are the same.
-/

namespace Tiling

variable {α : Type*} (lo len : α → Nat)

/-- The segments follow one another from `a` up to `b`, and none is empty. -/
def Tiles : Nat → List α → Nat → Prop
  | a, [], b => a = b
  | a, x :: xs, b => lo x = a ∧ 0 < len x ∧ Tiles (a + len x) xs b

variable {lo len}

@[simp]
theorem tiles_nil {a b : Nat} : Tiles lo len a [] b ↔ a = b :=
  Iff.rfl

@[simp]
theorem tiles_cons {a b : Nat} {x : α} {xs : List α} :
    Tiles lo len a (x :: xs) b ↔
      lo x = a ∧ 0 < len x ∧ Tiles lo len (a + len x) xs b :=
  Iff.rfl

/-- A tiling splits at any list boundary. -/
theorem tiles_append {a b : Nat} {xs ys : List α} :
    Tiles lo len a (xs ++ ys) b ↔ ∃ m, Tiles lo len a xs m ∧ Tiles lo len m ys b := by
  induction xs generalizing a with
  | nil => simp
  | cons x xs ih =>
      simp only [List.cons_append, tiles_cons, ih]
      constructor
      · rintro ⟨hlo, hlen, m, hxs, hys⟩
        exact ⟨m, ⟨hlo, hlen, hxs⟩, hys⟩
      · rintro ⟨m, ⟨hlo, hlen, hxs⟩, hys⟩
        exact ⟨hlo, hlen, m, hxs, hys⟩

/-- A tiled interval has its ends in order. -/
theorem Tiles.le {a b : Nat} {xs : List α} (h : Tiles lo len a xs b) : a ≤ b := by
  induction xs generalizing a with
  | nil => exact Nat.le_of_eq h
  | cons x xs ih =>
      have := ih h.2.2
      omega

/-- Only the empty list tiles an empty interval. -/
theorem Tiles.eq_nil {a : Nat} {xs : List α} (h : Tiles lo len a xs a) : xs = [] := by
  cases xs with
  | nil => rfl
  | cons x xs =>
      have hle := h.2.2.le
      have hpos := h.2.1
      omega

/-- Every segment is non-empty and lies inside the tiled interval. -/
theorem Tiles.mem_bounds {a b : Nat} {xs : List α} (h : Tiles lo len a xs b) :
    ∀ x ∈ xs, a ≤ lo x ∧ 0 < len x ∧ lo x + len x ≤ b := by
  induction xs generalizing a with
  | nil => simp
  | cons y xs ih =>
      intro x hx
      obtain ⟨hlo, hlen, hrest⟩ := h
      rcases List.mem_cons.mp hx with rfl | hx
      · exact ⟨by omega, hlen, by have := hrest.le; omega⟩
      · have := ih hrest x hx
        omega

/-- Segments stand in ascending order and do not overlap. -/
theorem Tiles.pairwise_end_le {a b : Nat} {xs : List α} (h : Tiles lo len a xs b) :
    xs.Pairwise fun x y => lo x + len x ≤ lo y := by
  induction xs generalizing a with
  | nil => exact List.Pairwise.nil
  | cons x xs ih =>
      obtain ⟨hlo, hlen, hrest⟩ := h
      refine List.pairwise_cons.mpr ⟨?_, ih hrest⟩
      intro y hy
      have := (hrest.mem_bounds y hy).1
      omega

/-- Two segments of a tiling that share a point are the same segment. -/
theorem Tiles.eq_of_overlap {a b p : Nat} {xs : List α} (h : Tiles lo len a xs b)
    {x y : α} (hx : x ∈ xs) (hy : y ∈ xs) (hxp : lo x ≤ p) (hpx : p < lo x + len x)
    (hyp : lo y ≤ p) (hpy : p < lo y + len y) : x = y := by
  induction xs generalizing a with
  | nil => simp at hx
  | cons z zs ih =>
      obtain ⟨hlo, hlen, hrest⟩ := h
      rcases List.mem_cons.mp hx with hxz | hx'
      · rcases List.mem_cons.mp hy with hyz | hy'
        · rw [hxz, hyz]
        · have hb := (hrest.mem_bounds y hy').1
          rw [hxz] at hpx
          omega
      · rcases List.mem_cons.mp hy with hyz | hy'
        · have hb := (hrest.mem_bounds x hx').1
          rw [hyz] at hpy
          omega
        · exact ih hrest hx' hy'

end Tiling
