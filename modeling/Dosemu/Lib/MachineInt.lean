import Mathlib.Tactic
import Mathlib.Data.Nat.Bitwise

/-!
# Fixed-width machine integers

Unsigned and two's-complement arithmetic on integers of a given width, the
mask arithmetic by which C code rounds addresses, and the population count.
The definitions are executable; the lemmas turn them into ordinary arithmetic
wherever no wrap-around happens.

Main results:

- Theorems `uwrap_of_lt` and `swrap_of_range`: in range, the reductions are
  the identity.
- Theorem `land_compl_mask`: clearing the low `k` bits rounds down to a
  multiple of `2 ^ k`.
- Theorem `alignPad_eq`: the mask expression for the padding up to the next
  aligned address is the distance to it.
- Theorem `popcount_two_pow`: a power of two inside the word has one bit set.
-/

namespace MachineInt

/-! ## Reductions -/

/-- The value of `x` in an unsigned word of `w` bits. -/
def uwrap (w : Nat) (x : Int) : Nat :=
  (x % 2 ^ w).toNat

/-- The value of `x` in a two's-complement word of `w` bits. -/
def swrap (w : Nat) (x : Int) : Int :=
  (x + 2 ^ (w - 1)) % 2 ^ w - 2 ^ (w - 1)

/-- An unsigned word is below its modulus. -/
theorem uwrap_lt (w : Nat) (x : Int) : uwrap w x < 2 ^ w := by
  have hpos : (0 : Int) < 2 ^ w := by positivity
  have hlt := Int.emod_lt_of_pos x hpos
  have hnonneg := Int.emod_nonneg x hpos.ne'
  have hcast : ((2 ^ w : Nat) : Int) = 2 ^ w := by push_cast; rfl
  unfold uwrap
  omega

/-- A value that fits the word is not changed by the unsigned reduction. -/
theorem uwrap_of_lt {w : Nat} {x : Int} (hnonneg : 0 ≤ x) (hlt : x < 2 ^ w) :
    uwrap w x = x.toNat := by
  unfold uwrap
  rw [Int.emod_eq_of_lt hnonneg hlt]

/-- A natural number that fits the word is not changed by the reduction. -/
theorem uwrap_natCast {w n : Nat} (hlt : n < 2 ^ w) : uwrap w (n : Int) = n := by
  have hcast : ((2 ^ w : Nat) : Int) = 2 ^ w := by push_cast; rfl
  rw [uwrap_of_lt (by omega) (by omega)]
  exact Int.toNat_natCast n

/-- A value in the signed range is not changed by the signed reduction. -/
theorem swrap_of_range {w : Nat} {x : Int} (hw : 0 < w)
    (hlo : -(2 ^ (w - 1)) ≤ x) (hhi : x < 2 ^ (w - 1)) : swrap w x = x := by
  have hdouble : (2 : Int) ^ w = 2 ^ (w - 1) + 2 ^ (w - 1) := by
    obtain ⟨v, rfl⟩ : ∃ v, w = v + 1 := ⟨w - 1, by omega⟩
    rw [Nat.add_sub_cancel, pow_succ]
    ring
  unfold swrap
  rw [Int.emod_eq_of_lt (by omega) (by omega)]
  omega

/-- A natural number below half the modulus is not changed by the signed
reduction. -/
theorem swrap_natCast {w n : Nat} (hw : 0 < w) (hlt : n < 2 ^ (w - 1)) :
    swrap w (n : Int) = n := by
  have hcast : ((2 ^ (w - 1) : Nat) : Int) = 2 ^ (w - 1) := by push_cast; rfl
  have hpos : (0 : Int) < 2 ^ (w - 1) := by positivity
  exact swrap_of_range hw (by omega) (by omega)

/-- A value in the signed range survives a detour through the unsigned word. -/
theorem swrap_uwrap {w : Nat} {x : Int} (hw : 0 < w) (hlo : -(2 ^ (w - 1)) ≤ x)
    (hhi : x < 2 ^ (w - 1)) : swrap w (uwrap w x) = x := by
  have hpos : (0 : Int) < 2 ^ w := by positivity
  have hcast : (uwrap w x : Int) = x % 2 ^ w := Int.toNat_of_nonneg (Int.emod_nonneg x hpos.ne')
  have hsame : swrap w (uwrap w x) = swrap w x := by
    unfold swrap
    rw [hcast, Int.emod_add_emod]
  rw [hsame, swrap_of_range hw hlo hhi]

/-- A sum that fits the word. -/
theorem uwrap_add {w m n : Nat} (hlt : m + n < 2 ^ w) : uwrap w ((m : Int) + n) = m + n := by
  rw [← Nat.cast_add, uwrap_natCast hlt]

/-- A difference that does not go below zero. -/
theorem uwrap_sub {w m n : Nat} (hle : n ≤ m) (hlt : m - n < 2 ^ w) :
    uwrap w ((m : Int) - n) = m - n := by
  rw [← Nat.cast_sub hle, uwrap_natCast hlt]

/-- Adding the modulus does not change the word. -/
theorem uwrap_add_modulus {w n : Nat} (hlt : n < 2 ^ w) : uwrap w ((n : Int) + 2 ^ w) = n := by
  have hmod : ((n : Int) + 2 ^ w) % 2 ^ w = (n : Int) % 2 ^ w := Int.add_emod_right _ _
  have hn := uwrap_natCast hlt
  unfold uwrap at hn ⊢
  rw [hmod, hn]

/-- Neither does subtracting it. -/
theorem uwrap_sub_modulus {w n : Nat} (hlt : n < 2 ^ w) : uwrap w ((n : Int) - 2 ^ w) = n := by
  have hmod : ((n : Int) - 2 ^ w) % 2 ^ w = (n : Int) % 2 ^ w := by
    rw [Int.sub_emod, Int.emod_self, sub_zero, Int.emod_emod]
  have hn := uwrap_natCast hlt
  unfold uwrap at hn ⊢
  rw [hmod, hn]

/-! ## Masks -/

/-- Clearing the low `k` bits of a word of `w` bits rounds down to a multiple
of `2 ^ k`. -/
theorem land_compl_mask {w k x : Nat} (hk : k ≤ w) (hx : x < 2 ^ w) :
    x &&& (2 ^ w - 2 ^ k) = x / 2 ^ k * 2 ^ k := by
  apply Nat.eq_of_testBit_eq
  intro i
  have hmask : 2 ^ w - 2 ^ k = 2 ^ k * (2 ^ (w - k) - 1) := by
    rw [Nat.mul_sub, ← pow_add, Nat.add_sub_cancel' hk, mul_one]
  rw [Nat.testBit_and, hmask, Nat.mul_comm (x / 2 ^ k), Nat.testBit_two_pow_mul,
    Nat.testBit_two_pow_mul, Nat.testBit_two_pow_sub_one, Nat.testBit_div_two_pow]
  by_cases hik : k ≤ i
  · have hadd : i - k + k = i := Nat.sub_add_cancel hik
    by_cases hiw : i < w
    · have : i - k < w - k := by omega
      simp [hik, hadd, this]
    · have hbit : x.testBit i = false :=
        Nat.testBit_lt_two_pow (lt_of_lt_of_le hx (Nat.pow_le_pow_right (by omega) (by omega)))
      simp [hadd, hbit]
  · simp [hik]

/-- Setting the low `k` bits rounds up to one below the next multiple of
`2 ^ k`. -/
theorem lor_mask (x k : Nat) : x ||| (2 ^ k - 1) = x / 2 ^ k * 2 ^ k + (2 ^ k - 1) := by
  apply Nat.eq_of_testBit_eq
  intro i
  have hlt : 2 ^ k - 1 < 2 ^ k := Nat.sub_lt (Nat.two_pow_pos k) Nat.one_pos
  rw [Nat.testBit_or, Nat.mul_comm, Nat.testBit_two_pow_mul_add _ hlt,
    Nat.testBit_two_pow_sub_one, Nat.testBit_div_two_pow]
  by_cases hik : i < k
  · simp [hik]
  · have hadd : i - k + k = i := Nat.sub_add_cancel (by omega)
    simp [hik, hadd]

/-- How far above `addr` its first multiple of `mask + 1` lies, by the mask
expression `((addr | mask) - addr + 1) & mask`. -/
def alignPad (addr mask : Nat) : Nat :=
  ((addr ||| mask) - addr + 1) &&& mask

/-- The mask expression is the distance to the next multiple of `2 ^ k`. -/
theorem alignPad_eq (addr k : Nat) :
    alignPad addr (2 ^ k - 1) = (2 ^ k - addr % 2 ^ k) % 2 ^ k := by
  have hpos : 0 < 2 ^ k := Nat.two_pow_pos k
  have hdiv : addr / 2 ^ k * 2 ^ k + addr % 2 ^ k = addr := Nat.div_add_mod' addr (2 ^ k)
  have hmod : addr % 2 ^ k < 2 ^ k := Nat.mod_lt addr hpos
  unfold alignPad
  rw [lor_mask, Nat.and_two_pow_sub_one_eq_mod]
  congr 1
  omega

/-- The padding stays below the alignment. -/
theorem alignPad_lt (addr k : Nat) : alignPad addr (2 ^ k - 1) < 2 ^ k := by
  rw [alignPad_eq]
  exact Nat.mod_lt _ (Nat.two_pow_pos k)

/-- Adding the padding gives an aligned address. -/
theorem alignPad_aligned (addr k : Nat) :
    2 ^ k ∣ addr + alignPad addr (2 ^ k - 1) := by
  have hpos : 0 < 2 ^ k := Nat.two_pow_pos k
  have hdiv : 2 ^ k * (addr / 2 ^ k) + addr % 2 ^ k = addr := Nat.div_add_mod addr (2 ^ k)
  have hmod : addr % 2 ^ k < 2 ^ k := Nat.mod_lt addr hpos
  rw [alignPad_eq]
  by_cases hzero : addr % 2 ^ k = 0
  · rw [hzero, Nat.sub_zero, Nat.mod_self, Nat.add_zero]
    exact Nat.dvd_of_mod_eq_zero hzero
  · rw [Nat.mod_eq_of_lt (by omega)]
    refine ⟨addr / 2 ^ k + 1, ?_⟩
    rw [Nat.mul_add, mul_one]
    omega

/-- The padding is the least one. -/
theorem alignPad_le {addr k d : Nat} (hd : 2 ^ k ∣ addr + d) :
    alignPad addr (2 ^ k - 1) ≤ d := by
  have hpos : 0 < 2 ^ k := Nat.two_pow_pos k
  have hmod : addr % 2 ^ k < 2 ^ k := Nat.mod_lt addr hpos
  have hsum : (addr % 2 ^ k + d % 2 ^ k) % 2 ^ k = 0 := by
    rw [← Nat.add_mod]
    exact Nat.mod_eq_zero_of_dvd hd
  have hdmod : d % 2 ^ k < 2 ^ k := Nat.mod_lt d hpos
  have hle : d % 2 ^ k ≤ d := Nat.mod_le d _
  rw [alignPad_eq]
  by_cases hzero : addr % 2 ^ k = 0
  · simp [hzero]
  · rw [Nat.mod_eq_of_lt (by omega)]
    obtain ⟨c, hc⟩ := Nat.dvd_of_mod_eq_zero hsum
    have hcpos : c ≠ 0 := by
      rintro rfl
      omega
    have hcle : 2 ^ k ≤ 2 ^ k * c := Nat.le_mul_of_pos_right _ (Nat.pos_of_ne_zero hcpos)
    omega

/-! ## Population count -/

/-- The number of bits set in an unsigned word of `w` bits. -/
def popcount (w n : Nat) : Nat :=
  (List.range w).countP fun i => n.testBit i

/-- A power of two inside the word has exactly one bit set. -/
theorem popcount_two_pow {w k : Nat} (hk : k < w) : popcount w (2 ^ k) = 1 := by
  unfold popcount
  have hbit : ∀ i ∈ List.range w, (2 ^ k).testBit i = (k == i) := by
    intro i _
    rw [Nat.testBit_two_pow]
    exact (beq_eq_decide k i).symm
  rw [List.countP_congr (fun i hi => by rw [hbit i hi])]
  have hcount : (List.range w).count k = 1 :=
    List.count_eq_one_of_mem List.nodup_range (List.mem_range.mpr hk)
  rw [← hcount, List.count]
  congr 1
  funext i
  exact Bool.beq_comm

/-- A multiple of the word size has no bit set inside the word. -/
theorem popcount_of_dvd {w n : Nat} (hn : 2 ^ w ∣ n) : popcount w n = 0 := by
  unfold popcount
  rw [List.countP_eq_zero]
  intro i hi
  obtain ⟨c, rfl⟩ := hn
  have hiw : i < w := List.mem_range.mp hi
  simp [Nat.testBit_two_pow_mul, Nat.not_le.mpr hiw]

/- The lemmas above are the interface; comparing two of these terms by
unfolding them would compute with numbers of 64 bits. -/
attribute [irreducible] uwrap swrap alignPad popcount

end MachineInt
