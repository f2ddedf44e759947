import Mathlib.Tactic

/-!
# Packing a stream of bits into bytes

A buffer of bytes holds its bits from the lowest bit of the first byte on.  A
packer keeps a buffer whose bits agree with a stream up to its position and are
clear from there on; or-ing the next bits into the byte at the position moves it
forward.

Main results:

- Theorem `Filled.or`: one byte is or-ed with the next bits of the stream.
- Theorem `getLsbD_bytes`: the bits of two neighbouring bytes, taken as a word.
-/

namespace BitStream

open Function

/-- A bit of a buffer. -/
def bitAt (buf : Nat → BitVec 8) (k : Nat) : Bool :=
  (buf (k / 8)).getLsbD (k % 8)

/-- The buffer holds the stream up to a position, and nothing behind it. -/
def Filled (stream : Nat → Bool) (p : Nat) (buf : Nat → BitVec 8) : Prop :=
  ∀ k, bitAt buf k = (decide (k < p) && stream k)

variable {stream : Nat → Bool} {p n k : Nat} {buf : Nat → BitVec 8} {v : BitVec 8}

theorem filled_zero (stream : Nat → Bool) : Filled stream 0 fun _ => 0 := by
  intro k
  simp [bitAt]

/-- Or-ing one byte concerns the bits of that byte. -/
theorem bitAt_or (i : Nat) :
    bitAt (update buf i (buf i ||| v)) k =
      (bitAt buf k || (decide (k / 8 = i) && v.getLsbD (k % 8))) := by
  unfold bitAt
  by_cases hk : k / 8 = i
  · subst hk
    simp
  · simp [hk]

/-- The next bits of the stream, which end inside the byte at the position, are
or-ed in. -/
theorem Filled.or (h : Filled stream p buf) (hfits : p % 8 + n ≤ 8)
    (hv : ∀ j < 8, v.getLsbD j =
      (decide (p % 8 ≤ j ∧ j < p % 8 + n) && stream (p / 8 * 8 + j))) :
    Filled stream (p + n) (update buf (p / 8) (buf (p / 8) ||| v)) := by
  intro k
  rw [bitAt_or, h k]
  by_cases hbyte : k / 8 = p / 8
  · have hsplit : p / 8 * 8 + k % 8 = k := by omega
    rw [hv (k % 8) (Nat.mod_lt k (by decide)), hsplit]
    by_cases hlow : k < p
    · have hout : ¬p % 8 ≤ k % 8 := by omega
      have hin : k < p + n := by omega
      simp [hlow, hout, hin]
    · by_cases hin : k < p + n
      · have hlo : p % 8 ≤ k % 8 := by omega
        have hhi : k % 8 < p % 8 + n := by omega
        simp [hlow, hin, hbyte, hlo, hhi]
      · have hhi : ¬k % 8 < p % 8 + n := by omega
        simp [hlow, hin, hhi]
  · by_cases hlow : k < p
    · have hin : k < p + n := by omega
      simp [hbyte, hlow, hin]
    · have hin : ¬k < p + n := by omega
      simp [hbyte, hlow, hin]

/-- The bits of two bytes, taken as a word with the first byte below. -/
theorem getLsbD_bytes {i j : Nat} (hj : j < 16) :
    (buf (i + 1) ++ buf i).getLsbD j = bitAt buf (8 * i + j) := by
  unfold bitAt
  rw [BitVec.getLsbD_append]
  by_cases hlow : j < 8
  · have hdiv : (8 * i + j) / 8 = i := by omega
    have hmod : (8 * i + j) % 8 = j := by omega
    rw [hdiv, hmod]
    simp [hlow]
  · have hdiv : (8 * i + j) / 8 = i + 1 := by omega
    have hmod : (8 * i + j) % 8 = j - 8 := by omega
    rw [hdiv, hmod]
    simp [hlow]

end BitStream
