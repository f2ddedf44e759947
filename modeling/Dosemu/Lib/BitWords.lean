import Mathlib.Tactic

/-!
# Bit arrays in 64-bit words

A bit array is an array of 64-bit words; bit `n` is bit `n % 64` of word
`n / 64`.  The lemmas turn the word tests by which such arrays are searched,
with masks at both ends, into statements about single bits.

Main results:

- Theorems `testBit_setBit` and `testBit_clearBit`: what one update changes.
- Theorems `word_ne_zero_iff`, `and_from_ne_zero_iff` and `and_below_ne_zero_iff`:
  a whole word, its upper part and its lower part hold a set bit.
- Theorem `findBitFrom_eq_some_iff`: the search within a word finds the lowest
  set bit from an index on.
-/

namespace BitWords

open Function

/-- An array of words. -/
abbrev Words := Nat → BitVec 64

/-- `test_bit`. -/
def testBit (w : Words) (n : Nat) : Bool :=
  (w (n / 64)).getLsbD (n % 64)

/-- `set_bit`. -/
def setBit (w : Words) (n : Nat) : Words :=
  update w (n / 64) (w (n / 64) ||| BitVec.twoPow 64 (n % 64))

/-- `clear_bit`. -/
def clearBit (w : Words) (n : Nat) : Words :=
  update w (n / 64) (w (n / 64) &&& ~~~BitVec.twoPow 64 (n % 64))

/-- The lowest set bit of a word from an index on. -/
def findBitFrom (v : BitVec 64) (idx : Nat) : Option Nat :=
  (List.range 64).find? fun j => decide (idx ≤ j) && v.getLsbD j

variable {w : Words} {v : BitVec 64} {n k j : Nat}

@[simp]
theorem testBit_zero (n : Nat) : testBit (fun _ => 0#64) n = false := by
  simp [testBit]

@[simp]
theorem testBit_setBit (w : Words) (n k : Nat) :
    testBit (setBit w n) k = (decide (k = n) || testBit w k) := by
  unfold testBit setBit
  by_cases hdiv : k / 64 = n / 64
  · have hlt : k % 64 < 64 := Nat.mod_lt k (by decide)
    have hlt' : n % 64 < 64 := Nat.mod_lt n (by decide)
    have hiff : k = n ↔ n % 64 = k % 64 := by omega
    rw [hdiv, update_self, BitVec.getLsbD_or, BitVec.getLsbD_twoPow, Bool.or_comm]
    simp [hlt, hlt', hiff]
  · have hne : k ≠ n := fun h => hdiv (h ▸ rfl)
    rw [update_of_ne hdiv]
    simp [hne]

@[simp]
theorem testBit_clearBit (w : Words) (n k : Nat) :
    testBit (clearBit w n) k = (!decide (k = n) && testBit w k) := by
  unfold testBit clearBit
  by_cases hdiv : k / 64 = n / 64
  · have hlt : k % 64 < 64 := Nat.mod_lt k (by decide)
    have hlt' : n % 64 < 64 := Nat.mod_lt n (by decide)
    have hiff : k = n ↔ n % 64 = k % 64 := by omega
    rw [hdiv, update_self, BitVec.getLsbD_and, BitVec.getLsbD_not, BitVec.getLsbD_twoPow,
      Bool.and_comm]
    simp [hlt, hlt', hiff]
  · have hne : k ≠ n := fun h => hdiv (h ▸ rfl)
    rw [update_of_ne hdiv]
    simp [hne]

/-! ## Word tests -/

/-- A word is nonzero when it has a set bit. -/
theorem word_ne_zero_iff : v ≠ 0#64 ↔ ∃ j, j < 64 ∧ v.getLsbD j = true := by
  constructor
  · intro hne
    by_contra hall
    push Not at hall
    apply hne
    ext j hj
    rw [← BitVec.getLsbD_eq_getElem, BitVec.getElem_zero]
    exact Bool.eq_false_iff.mpr (hall j hj)
  · rintro ⟨j, -, hbit⟩ rfl
    simp at hbit

theorem getLsbD_maskFrom (hj : j < 64) :
    (BitVec.allOnes 64 <<< k).getLsbD j = decide (k ≤ j) := by
  have hsub : j - k < 64 := by omega
  rw [BitVec.getLsbD_shiftLeft, BitVec.getLsbD_allOnes]
  simp [hj, hsub, ← decide_not]

theorem getLsbD_maskBelow (hk : k < 64) :
    (BitVec.twoPow 64 k - 1#64).getLsbD j = decide (j < k) := by
  have hlt : 2 ^ k < 2 ^ 64 := Nat.pow_lt_pow_right (by decide) hk
  have hpos : 0 < 2 ^ k := Nat.two_pow_pos k
  have hnat : (BitVec.twoPow 64 k - 1#64).toNat = 2 ^ k - 1 := by
    rw [BitVec.toNat_sub, BitVec.toNat_twoPow, Nat.mod_eq_of_lt hlt]
    simp only [BitVec.toNat_ofNat]
    omega
  rw [← BitVec.testBit_toNat, hnat, Nat.testBit_two_pow_sub_one]

/-- The part of a word from bit `k` on holds a set bit. -/
theorem and_from_ne_zero_iff :
    v &&& (BitVec.allOnes 64 <<< k) ≠ 0#64 ↔ ∃ j, k ≤ j ∧ j < 64 ∧ v.getLsbD j = true := by
  rw [word_ne_zero_iff]
  constructor
  · rintro ⟨j, hj, hbit⟩
    rw [BitVec.getLsbD_and, getLsbD_maskFrom hj, Bool.and_eq_true, decide_eq_true_eq] at hbit
    exact ⟨j, hbit.2, hj, hbit.1⟩
  · rintro ⟨j, hk, hj, hbit⟩
    refine ⟨j, hj, ?_⟩
    rw [BitVec.getLsbD_and, getLsbD_maskFrom hj, hbit]
    simpa using hk

/-- The part of a word below bit `k` holds a set bit. -/
theorem and_below_ne_zero_iff (hk : k < 64) :
    v &&& (BitVec.twoPow 64 k - 1#64) ≠ 0#64 ↔ ∃ j, j < k ∧ v.getLsbD j = true := by
  rw [word_ne_zero_iff]
  constructor
  · rintro ⟨j, -, hbit⟩
    rw [BitVec.getLsbD_and, getLsbD_maskBelow hk, Bool.and_eq_true, decide_eq_true_eq] at hbit
    exact ⟨j, hbit.2, hbit.1⟩
  · rintro ⟨j, hj, hbit⟩
    refine ⟨j, by omega, ?_⟩
    rw [BitVec.getLsbD_and, getLsbD_maskBelow hk, hbit]
    simpa using hj

/-- The mask below bit `k` is empty only for `k = 0`. -/
theorem maskBelow_eq_zero_iff (hk : k < 64) : BitVec.twoPow 64 k - 1#64 = 0#64 ↔ k = 0 := by
  constructor
  · intro hzero
    by_contra hpos
    have hbit := getLsbD_maskBelow (j := 0) hk
    rw [hzero] at hbit
    simp [Nat.pos_of_ne_zero hpos] at hbit
  · rintro rfl
    decide

/-! ## Search within a word -/

theorem findBitFrom_eq_some_iff :
    findBitFrom v k = some j ↔
      k ≤ j ∧ j < 64 ∧ v.getLsbD j = true ∧ ∀ i, k ≤ i → i < j → v.getLsbD i = false := by
  unfold findBitFrom
  rw [List.find?_range_eq_some]
  simp only [Bool.and_eq_true, decide_eq_true_eq, List.mem_range, Bool.not_eq_eq_eq_not,
    Bool.not_true, Bool.and_eq_false_imp]
  constructor
  · rintro ⟨⟨hk, hbit⟩, hlt, hall⟩
    exact ⟨hk, hlt, hbit, fun i hi hij => hall i hij hi⟩
  · rintro ⟨hk, hlt, hbit, hall⟩
    exact ⟨⟨hk, hbit⟩, hlt, fun i hij hi => hall i hi hij⟩

theorem findBitFrom_eq_none_iff :
    findBitFrom v k = none ↔ ∀ j, k ≤ j → j < 64 → v.getLsbD j = false := by
  unfold findBitFrom
  rw [List.find?_eq_none]
  simp only [List.mem_range, Bool.and_eq_true, decide_eq_true_eq, not_and, Bool.not_eq_true]
  exact ⟨fun h j hk hj => h j hj hk, fun h j hj hk => h j hk hj⟩

end BitWords
