import Mathlib.Tactic
import Mathlib.Data.BitVec

/-!
# The lazy flags of the simulated processor

The simulator does not keep OF, SF, ZF, AF, PF and CF in EFLAGS while it runs a
block.  It keeps two words, from which the flags are computed when they are
asked for: the carry word (`cout`) holds the carry in bit 31, the carry into the
sign bit in bit 30, the half carry in bit 3, and in bits 7 and 2 what sign and
parity differ by from those of the result word (`res`).

This module has the encoding and the two conversions to and from EFLAGS.

Main results:

- Theorem `flagSyncAll_flagSyncRfl`: the flags survive being stored in the two
  words and read back.
-/

namespace Dosemu
namespace Simx86

/-- A 32-bit register. -/
abbrev Word := BitVec 32

/-! ## Bits of EFLAGS -/

/-- `EFLAGS_CF`. -/
def eflagsCF : Word := 0x00000001#32

/-- `EFLAGS_PF`. -/
def eflagsPF : Word := 0x00000004#32

/-- `EFLAGS_AF`. -/
def eflagsAF : Word := 0x00000010#32

/-- `EFLAGS_ZF`. -/
def eflagsZF : Word := 0x00000040#32

/-- `EFLAGS_SF`. -/
def eflagsSF : Word := 0x00000080#32

/-- `EFLAGS_OF`. -/
def eflagsOF : Word := 0x00000800#32

/-- `EFLAGS_CC`: the flags that are kept lazily. -/
def eflagsCC : Word := 0x000008d5#32

/-! ## The two words -/

/-- `LF_MASK_PD`: what PF differs by from the parity of the result. -/
def lfMaskPD : Word := 0x00000004#32

/-- `LF_MASK_AF`. -/
def lfMaskAF : Word := 0x00000008#32

/-- `LF_MASK_SD`: what SF differs by from the sign of the result. -/
def lfMaskSD : Word := 0x00000080#32

/-- `LF_MASK_PO`: CF exclusive-or OF. -/
def lfMaskPO : Word := 0x40000000#32

/-- `LF_MASK_CF`. -/
def lfMaskCF : Word := 0x80000000#32

/-- `RFL`. -/
structure Rfl where
  cout : Word
  res : Word
deriving DecidableEq, Repr

/-- The truth value of a C condition. -/
def ofBool (b : Bool) : Word :=
  if b then 1#32 else 0#32

/-- `parity`: four for an even number of bits, as the table has it. -/
def parity (b : Word) : Word :=
  let x := b ^^^ (b >>> 4)
  let y := x ^^^ (x >>> 2)
  let z := y ^^^ (y >>> 1)
  ((z &&& 1#32) ^^^ 1#32) <<< 2

/-- `is_zf_set`. -/
def isZfSet (r : Rfl) : Bool :=
  r.res == 0#32

/-- `is_cf_set`. -/
def isCfSet (r : Rfl) : Word :=
  r.cout >>> 31

/-- `is_of_set`. -/
def isOfSet (r : Rfl) : Word :=
  (r.cout + lfMaskPO) >>> 31

/-- `FlagSync_S`. -/
def flagSyncS (r : Rfl) : Word :=
  ((r.res >>> (31 - 7)) ^^^ r.cout) &&& eflagsSF

/-- `FlagSync_O`. -/
def flagSyncO (r : Rfl) : Word :=
  isOfSet r <<< 11

/-- `FlagSync_P`. -/
def flagSyncP (r : Rfl) : Word :=
  parity (r.res &&& 0xff#32) ^^^ (r.cout &&& lfMaskPD)

/-- `FlagSync_SZAPC`: AF and CF come by a rotation. -/
def flagSyncSZAPC (r : Rfl) : Word :=
  (((r.cout <<< 1) ||| (r.cout >>> 31)) &&& (eflagsAF ||| eflagsCF)) |||
    (ofBool (isZfSet r) <<< 6) ||| flagSyncS r ||| flagSyncP r

/-- `FlagSync_All`: the flags as EFLAGS has them. -/
def flagSyncAll (r : Rfl) : Word :=
  flagSyncSZAPC r ||| flagSyncO r

/-- `FlagSync_RFL`: load the two words from EFLAGS. -/
def flagSyncRfl (flg : Word) : Rfl :=
  let cout := ((flg <<< 31) ||| (flg >>> 1)) &&& (lfMaskAF ||| lfMaskCF)
  let cout := cout ||| (((cout >>> 1) ^^^ (flg <<< (30 - 11))) &&& lfMaskPO)
  { cout := cout ||| ((flg &&& (eflagsSF ||| eflagsPF)) ^^^ eflagsPF)
    res := ofBool (flg &&& eflagsZF == 0#32) <<< 8 }

/-! ## Storing the flags and reading them back -/

/-- The word with the given condition codes. -/
def flagWord (c p a z s o : Bool) : Word :=
  ofBool c ||| (ofBool p <<< 2) ||| (ofBool a <<< 4) ||| (ofBool z <<< 6) ||| (ofBool s <<< 7) |||
    (ofBool o <<< 11)

theorem flagSync_flagWord (c p a z s o : Bool) :
    flagSyncAll (flagSyncRfl (flagWord c p a z s o)) = flagWord c p a z s o := by
  revert c p a z s o
  decide

/-- A word of nothing but condition codes. -/
theorem flagWord_of_and {v : Word} (h : v &&& eflagsCC = v) :
    v = flagWord (v.getLsbD 0) (v.getLsbD 2) (v.getLsbD 4) (v.getLsbD 6) (v.getLsbD 7)
      (v.getLsbD 11) := by
  have hbit : ∀ i, v.getLsbD i = (v.getLsbD i && eflagsCC.getLsbD i) := by
    intro i
    rw [← BitVec.getLsbD_and, h]
  have hbool : ∀ b i, (ofBool b).getLsbD i = (b && decide (i = 0)) := by
    intro b i
    cases b
    · simp [ofBool]
    · simp [ofBool, BitVec.getLsbD_one]
  ext i hi
  rw [BitVec.getElem_eq_testBit_toNat, BitVec.testBit_toNat, hbit]
  simp only [flagWord, ← BitVec.getLsbD_eq_getElem, BitVec.getLsbD_or, BitVec.getLsbD_shiftLeft, hbool]
  have hcc : eflagsCC.getLsbD i = decide (i = 0 ∨ i = 2 ∨ i = 4 ∨ i = 6 ∨ i = 7 ∨ i = 11) := by
    revert i
    decide
  rw [hcc]
  interval_cases i <;> simp

theorem shiftRight_31 (v : Word) : v >>> 31 = 0#32 ∨ v >>> 31 = 1#32 := by
  have hlt : (v >>> 31).toNat < 2 := by
    rw [BitVec.toNat_ushiftRight, Nat.shiftRight_eq_div_pow]
    omega
  rcases Nat.lt_or_ge (v >>> 31).toNat 1 with h | h
  · exact Or.inl (BitVec.eq_of_toNat_eq (by simp only [BitVec.toNat_ofNat]; omega))
  · exact Or.inr (BitVec.eq_of_toNat_eq (by simp only [BitVec.toNat_ofNat]; omega))

theorem and_twoPow (v : Word) (k : Nat) :
    v &&& BitVec.twoPow 32 k = 0#32 ∨ v &&& BitVec.twoPow 32 k = BitVec.twoPow 32 k := by
  rw [BitVec.and_twoPow]
  cases v.getLsbD k
  · exact Or.inl rfl
  · exact Or.inr rfl

theorem parity_cases (b : Word) : parity b = 0#32 ∨ parity b = 4#32 := by
  rcases and_twoPow ((b ^^^ b >>> 4 ^^^ (b ^^^ b >>> 4) >>> 2) ^^^
      (b ^^^ b >>> 4 ^^^ (b ^^^ b >>> 4) >>> 2) >>> 1) 0 with h | h
  · exact Or.inr (congrArg (fun v => (v ^^^ 1#32) <<< 2) h)
  · exact Or.inl (congrArg (fun v => (v ^^^ 1#32) <<< 2) h)

/-- The lazy flags are condition codes and nothing else. -/
theorem flagSyncAll_and (r : Rfl) : flagSyncAll r &&& eflagsCC = flagSyncAll r := by
  have hsub : ∀ {m v : Word}, m &&& eflagsCC = m → v &&& m &&& eflagsCC = v &&& m := by
    intro m v hm
    rw [BitVec.and_assoc, hm]
  have hor : ∀ {v w : Word}, v &&& eflagsCC = v → w &&& eflagsCC = w →
      (v ||| w) &&& eflagsCC = v ||| w := by
    intro v w hv hw
    rw [BitVec.and_or_distrib_right, hv, hw]
  have hzero : ∀ b, (ofBool b <<< 6) &&& eflagsCC = ofBool b <<< 6 := by decide
  have hover : flagSyncO r &&& eflagsCC = flagSyncO r := by
    unfold flagSyncO isOfSet
    rcases shiftRight_31 (r.cout + lfMaskPO) with h | h
    · rw [h]; rfl
    · rw [h]; rfl
  have hpar : flagSyncP r &&& eflagsCC = flagSyncP r := by
    unfold flagSyncP
    rcases parity_cases (r.res &&& 0xff#32) with h | h
    · rcases and_twoPow r.cout 2 with hc | hc
      · rw [h, show r.cout &&& lfMaskPD = 0#32 from hc]; rfl
      · rw [h, show r.cout &&& lfMaskPD = 4#32 from hc]; rfl
    · rcases and_twoPow r.cout 2 with hc | hc
      · rw [h, show r.cout &&& lfMaskPD = 0#32 from hc]; rfl
      · rw [h, show r.cout &&& lfMaskPD = 4#32 from hc]; rfl
  exact hor (hor (hor (hor (hsub (by decide)) (hzero _)) (hsub (by decide))) hpar) hover

/-- Loading the lazy flags from EFLAGS and reading them back. -/
theorem flagSyncAll_flagSyncRfl (r : Rfl) :
    flagSyncAll (flagSyncRfl (flagSyncAll r)) = flagSyncAll r := by
  rw [flagWord_of_and (flagSyncAll_and r)]
  exact flagSync_flagWord _ _ _ _ _ _

end Simx86
end Dosemu
