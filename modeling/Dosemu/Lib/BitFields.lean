import Mathlib.Tactic

/-!
# Bit-fields of a word

A record of bit-fields is a word whose fields are runs of bits.  `field` reads
a run and `setField` overwrites one; a field that is read back is what was
written, and the bits beside it keep their values.

Main results:

- Theorem `getLsbD_setField`: the bits of a word after one field was written.
- Theorem `field_setField_inside`: bits within a field that was written.
- Theorem `field_setField_apart`: bits beside it.
-/

namespace BitFields

variable {n w k : Nat}

/-- The `w` bits of a word from bit `off` on. -/
def field (off w : Nat) (x : BitVec n) : BitVec w :=
  x.extractLsb' off w

/-- Overwrite the bits of a word from bit `off` on. -/
def setField (off : Nat) (v : BitVec w) (x : BitVec n) : BitVec n :=
  x &&& ~~~((BitVec.allOnes w).setWidth n <<< off) ||| v.setWidth n <<< off

variable {off i : Nat} {v : BitVec w} {x : BitVec n}

theorem getLsbD_field : (field off w x).getLsbD i = (decide (i < w) && x.getLsbD (off + i)) :=
  BitVec.getLsbD_extractLsb' off w x i

/-- A bit within a field whose value is known. -/
theorem getLsbD_of_field (h : field off w x = v) (hlo : off ≤ i) (hhi : i < off + w) :
    x.getLsbD i = v.getLsbD (i - off) := by
  rw [← h, getLsbD_field, decide_eq_true (by omega), Bool.true_and, Nat.add_sub_cancel' hlo]

/-- The bits of the field are the new ones and all others are as before. -/
theorem getLsbD_setField (hfits : off + w ≤ n) :
    (setField off v x).getLsbD i =
      if off ≤ i ∧ i < off + w then v.getLsbD (i - off) else x.getLsbD i := by
  unfold setField
  by_cases hi : i < n
  · by_cases hlo : i < off
    · simp [hi, hlo, Nat.not_le.mpr hlo]
    · have hle : off ≤ i := Nat.le_of_not_lt hlo
      by_cases hhi : i < off + w
      · have hin : i - off < w := by omega
        simp [hi, hlo, hle, hhi, hin]
      · have hnew : v.getLsbD (i - off) = false := BitVec.getLsbD_of_ge v _ (by omega)
        have hout : ¬i - off < w := by omega
        simp [hi, hlo, hhi, hout, hnew]
  · have hold : x.getLsbD i = false := BitVec.getLsbD_of_ge x i (Nat.le_of_not_lt hi)
    have hhi : ¬i < off + w := by omega
    simp [hi, hhi, hold]

/-- Bits within the field that was written. -/
theorem field_setField_inside (hfits : off + w ≤ n) (hlo : off ≤ i) (hhi : i + k ≤ off + w) :
    field i k (setField off v x) = field (i - off) k v := by
  ext j hj
  rw [← BitVec.getLsbD_eq_getElem, ← BitVec.getLsbD_eq_getElem, getLsbD_field, getLsbD_field,
    getLsbD_setField hfits, if_pos (by omega), Nat.sub_add_comm hlo]

/-- Bits beside the field that was written. -/
theorem field_setField_apart (hfits : off + w ≤ n) (hapart : i + k ≤ off ∨ off + w ≤ i) :
    field i k (setField off v x) = field i k x := by
  ext j hj
  rw [← BitVec.getLsbD_eq_getElem, ← BitVec.getLsbD_eq_getElem, getLsbD_field, getLsbD_field,
    getLsbD_setField hfits, if_neg (by omega)]

end BitFields
