import Dosemu.Lib.WordMem

/-!
# Frames of words

Words that are pushed one after another below an address, and read again from
the last one on.

Main results:

- Theorem `pushAll_outside`: what lies outside of the frame is not changed.
- Theorem `wordAt_pushAll`: the words of the frame, the last one that was pushed
  first.
- Theorems `wordAt_even` and `wordAt_odd`: the words of double words.
-/

namespace WordMem

/-- The word number `k` of those of `w` bytes from an address on. -/
def wordAt (w : Nat) (m : Mem) (a : BitVec 32) (k : Nat) : BitVec 32 :=
  readLe w m (a + BitVec.ofNat 32 (w * k))

/-- Push words of `w` bytes below an address: where the frame begins, and the memory. -/
def pushAll (w : Nat) : List (BitVec 32) → BitVec 32 → Mem → BitVec 32 × Mem
  | [], sp, m => (sp, m)
  | v :: vs, sp, m =>
      let sp := sp - BitVec.ofNat 32 w
      pushAll w vs sp (writeLe w m sp v)

variable {w n k : Nat} {m m' : Mem} {sp a x : BitVec 32} {vs : List (BitVec 32)}

/-- Where the frame begins. -/
theorem pushAll_fst (w : Nat) (vs : List (BitVec 32)) (sp : BitVec 32) (m : Mem) :
    (pushAll w vs sp m).1 = sp - BitVec.ofNat 32 (w * vs.length) := by
  induction vs generalizing sp m with
  | nil => exact (BitVec.sub_zero sp).symm
  | cons v vs ih =>
      rw [pushAll, ih, List.length_cons, Nat.mul_succ, Nat.add_comm, BitVec.ofNat_add,
        BitVec.sub_sub]

/-- The frame is all that is written. -/
theorem pushAll_outside (hlen : w * vs.length < 2 ^ 32)
    (h : w * vs.length ≤ (x - (pushAll w vs sp m).1).toNat) : (pushAll w vs sp m).2 x = m x := by
  induction vs generalizing sp m with
  | nil => rfl
  | cons v vs ih =>
      rw [List.length_cons, Nat.mul_succ] at hlen h
      rw [pushAll] at h ⊢
      have hbelow := pushAll_fst w vs (sp - BitVec.ofNat 32 w)
        (writeLe w m (sp - BitVec.ofNat 32 w) v)
      rw [ih (by omega) (by omega)]
      apply writeLe_outside
      rw [hbelow] at h
      generalize w * vs.length = n at hlen h
      bv_omega

/-- The words of the frame; the one that was pushed last is the first. -/
theorem wordAt_pushAll (hw : w ≤ 4) (hlen : w * vs.length < 2 ^ 32) (hk : k < vs.length) :
    wordAt w (pushAll w vs sp m).2 (pushAll w vs sp m).1 k =
      vs[vs.length - 1 - k] &&& BitVec.ofNat 32 (2 ^ (8 * w) - 1) := by
  induction vs generalizing sp m with
  | nil => exact absurd hk (Nat.not_lt_zero k)
  | cons v vs ih =>
      rw [List.length_cons, Nat.mul_succ] at hlen
      rw [List.length_cons] at hk
      rw [pushAll]
      by_cases hlast : k = vs.length
      · -- The first word, which the others leave alone.
        subst hlast
        have hbelow := pushAll_fst w vs (sp - BitVec.ofNat 32 w)
          (writeLe w m (sp - BitVec.ofNat 32 w) v)
        have hfirst : (vs.length + 1 - 1 - vs.length) = 0 := by omega
        have hat : (pushAll w vs (sp - BitVec.ofNat 32 w) (writeLe w m (sp - BitVec.ofNat 32 w) v)).1 +
            BitVec.ofNat 32 (w * vs.length) = sp - BitVec.ofNat 32 w := by
          rw [hbelow, BitVec.sub_add_cancel]
        simp only [List.length_cons, hfirst, List.getElem_cons_zero]
        rw [wordAt, hat, ← readLe_writeLe hw (m := m) (a := sp - BitVec.ofNat 32 w)]
        apply readLe_congr
        intro i hi
        apply pushAll_outside (by omega)
        rw [hbelow]
        generalize w * vs.length = n at hlen
        bv_omega
      · have hlt : k < vs.length := by omega
        have hindex : vs.length + 1 - 1 - k = (vs.length - 1 - k) + 1 := by omega
        simp only [List.length_cons, hindex, List.getElem_cons_succ]
        exact ih (by omega) hlt

/-- Words of memory that is the same. -/
theorem wordAt_congr (h : ∀ i, i < n → m' (a + BitVec.ofNat 32 i) = m (a + BitVec.ofNat 32 i))
    (hk : w * (k + 1) ≤ n) : wordAt w m' a k = wordAt w m a k := by
  apply readLe_congr
  intro i hi
  rw [Nat.mul_succ] at hk
  rw [BitVec.add_assoc, ← BitVec.ofNat_add]
  exact h (w * k + i) (by omega)

/-- Words behind the first ones. -/
theorem wordAt_add (w : Nat) (m : Mem) (a : BitVec 32) (j k : Nat) :
    wordAt w m (a + BitVec.ofNat 32 (w * j)) k = wordAt w m a (j + k) := by
  rw [wordAt, wordAt, BitVec.add_assoc, ← BitVec.ofNat_add, ← Nat.mul_add]

/-! ## Halves of double words -/

theorem readLe_low (m : Mem) (a : BitVec 32) :
    readLe 2 m a = ((readLe 4 m a).setWidth 16).setWidth 32 := by
  apply BitVec.eq_of_getLsbD_eq
  intro k hk
  rw [BitVec.getLsbD_setWidth, BitVec.getLsbD_setWidth, getLsbD_readLe hk, getLsbD_readLe hk]
  by_cases hlow : k < 16
  · simp [hk, hlow]
  · simp [hlow]

theorem readLe_high (m : Mem) (a : BitVec 32) :
    readLe 2 m (a + 2) = ((readLe 4 m a >>> 16).setWidth 16).setWidth 32 := by
  apply BitVec.eq_of_getLsbD_eq
  intro k hk
  rw [BitVec.getLsbD_setWidth, BitVec.getLsbD_setWidth, BitVec.getLsbD_ushiftRight,
    getLsbD_readLe hk]
  by_cases hlow : k < 16
  · have haddr : a + 2 + BitVec.ofNat 32 (k / 8) = a + BitVec.ofNat 32 ((16 + k) / 8) := by
      rw [show (16 + k) / 8 = 2 + k / 8 by omega, BitVec.ofNat_add, BitVec.add_assoc]
      rfl
    rw [getLsbD_readLe (by omega), haddr, show (16 + k) % 8 = k % 8 by omega]
    simp [hk, hlow, show 16 + k < 32 by omega]
  · simp [hlow]

/-- The words of double words. -/
theorem wordAt_even (m : Mem) (a : BitVec 32) (k : Nat) :
    wordAt 2 m a (2 * k) = ((wordAt 4 m a k).setWidth 16).setWidth 32 := by
  rw [wordAt, wordAt, readLe_low, show 2 * (2 * k) = 4 * k by omega]

theorem wordAt_odd (m : Mem) (a : BitVec 32) (k : Nat) :
    wordAt 2 m a (2 * k + 1) = ((wordAt 4 m a k >>> 16).setWidth 16).setWidth 32 := by
  rw [wordAt, wordAt, ← readLe_high, show 2 * (2 * k + 1) = 4 * k + 2 by omega, BitVec.ofNat_add,
    BitVec.add_assoc]
  rfl

end WordMem
