import Dosemu.Lib.CarryChain
import Dosemu.Simx86.LazyFlags
import Dosemu.Simx86.StringOps
import Dosemu.Simx86.BitString
import Dosemu.Simx86.Divide

/-!
# Lazy flags of an operation

What the simulator stores of an addition, a subtraction, a shift or a rotation in its two words,
and which flags these words stand for.

Main results:

- Theorem `flagSyncAll_eq`: EFLAGS are read from the two words flag by flag.
- Theorems `flags_add`, `flags_sub`: the carries of the operation tell CF, OF and AF.
- Theorems `flags_setCf`, `flags_rotate`, `flags_shift`: what a shift and a rotation change.
-/

namespace Dosemu
namespace Simx86

open CarryChain

/-! ## The two words as flags -/

/-- The condition codes, one by one -/
structure Flags where
  cf : Bool
  pf : Bool
  af : Bool
  zf : Bool
  sf : Bool
  of : Bool
  deriving DecidableEq

/-- The flags that the two words stand for -/
def Rfl.flags (r : Rfl) : Flags where
  cf := r.cout.getLsbD 31
  pf := evenParity (r.res.setWidth 8) ^^ r.cout.getLsbD 2
  af := r.cout.getLsbD 3
  zf := r.res == 0
  sf := r.res.getLsbD 31 ^^ r.cout.getLsbD 7
  of := r.cout.getLsbD 31 ^^ r.cout.getLsbD 30

theorem ofBool_getLsbD (b : Bool) (j : Nat) : (ofBool b).getLsbD j = (decide (j = 0) && b) := by
  cases b with
  | false => simp [ofBool]
  | true =>
    rw [Bool.and_true]
    change (1#32).getLsbD j = _
    rw [BitVec.getLsbD_one]
    simp

theorem isCfSet_eq (r : Rfl) : isCfSet r = ofBool r.flags.cf := by
  unfold isCfSet Rfl.flags
  apply BitVec.eq_of_getLsbD_eq
  intro j hj
  rw [BitVec.getLsbD_ushiftRight, ofBool_getLsbD]
  by_cases hzero : j = 0
  · rw [hzero]
    simp
  · rw [decide_eq_false hzero, Bool.false_and]
    exact BitVec.getLsbD_of_ge _ _ (by omega)

/-- Adding `LF_MASK_PO` turns bit 31 over if bit 30 is set. -/
theorem isOfSet_eq (r : Rfl) : isOfSet r = ofBool r.flags.of := by
  unfold isOfSet Rfl.flags
  apply BitVec.eq_of_getLsbD_eq
  intro j hj
  rw [BitVec.getLsbD_ushiftRight, ofBool_getLsbD]
  by_cases hzero : j = 0
  · rw [hzero, decide_eq_true rfl, Bool.true_and, Nat.add_zero, BitVec.getLsbD_add (by decide)]
    have hlow : BitVec.carry 30 r.cout lfMaskPO false = false := by
      apply decide_eq_false
      have hlt := Nat.mod_lt r.cout.toNat (Nat.two_pow_pos 30)
      change ¬2 ^ 30 ≤ r.cout.toNat % 2 ^ 30 + 0 + 0
      omega
    have hcarry : BitVec.carry (30 + 1) r.cout lfMaskPO false = r.cout.getLsbD 30 := by
      have hset : lfMaskPO.getLsbD 30 = true := by decide
      rw [BitVec.carry_succ, hlow, hset]
      simp
    have hclear : lfMaskPO.getLsbD 31 = false := by decide
    rw [hcarry, hclear, Bool.false_xor]
  · rw [decide_eq_false hzero, Bool.false_and]
    exact BitVec.getLsbD_of_ge _ _ (by omega)

theorem parity_eq (b : BitVec 8) : parity (b.setWidth 32) = ofBool (evenParity b) <<< 2 := by
  revert b
  decide

/-- One bit of a word, and the bit it is moved to -/
theorem and_twoPow_eq (v : Word) (j : Nat) :
    v &&& BitVec.twoPow 32 j = ofBool (v.getLsbD j) <<< j := by
  rw [BitVec.and_twoPow]
  cases v.getLsbD j with
  | false => simp [ofBool]
  | true =>
    rw [if_pos rfl]
    rfl

theorem flagSyncS_eq (r : Rfl) : flagSyncS r = ofBool r.flags.sf <<< 7 := by
  change ((r.res >>> 24) ^^^ r.cout) &&& BitVec.twoPow 32 7 = _
  rw [and_twoPow_eq, BitVec.getLsbD_xor, BitVec.getLsbD_ushiftRight]
  rfl

theorem ofBool_xor (a b : Bool) (j : Nat) :
    ofBool a <<< j ^^^ ofBool b <<< j = ofBool (a ^^ b) <<< j := by
  cases a <;> cases b <;> simp [ofBool]

theorem flagSyncP_eq (r : Rfl) : flagSyncP r = ofBool r.flags.pf <<< 2 := by
  have hlow : r.res &&& 0xff#32 = (r.res.setWidth 8).setWidth 32 := by
    have hmask : ∀ j < 32, (0xff#32).getLsbD j = decide (j < 8) := by decide
    apply BitVec.eq_of_getLsbD_eq
    intro j hj
    rw [BitVec.getLsbD_and, hmask j hj, BitVec.getLsbD_setWidth, BitVec.getLsbD_setWidth,
      decide_eq_true hj, Bool.true_and, Bool.and_comm]
  unfold flagSyncP
  rw [hlow, parity_eq]
  change _ ^^^ (r.cout &&& BitVec.twoPow 32 2) = _
  rw [and_twoPow_eq, ofBool_xor]
  rfl

/-- EFLAGS are read from the two words flag by flag. -/
theorem flagSyncAll_eq (r : Rfl) :
    flagSyncAll r = flagWord r.flags.cf r.flags.pf r.flags.af r.flags.zf r.flags.sf r.flags.of := by
  have hrotate : (r.cout <<< 1 ||| r.cout >>> 31) &&& (eflagsAF ||| eflagsCF) =
      ofBool r.flags.af <<< 4 ||| ofBool r.flags.cf := by
    change _ &&& (BitVec.twoPow 32 4 ||| BitVec.twoPow 32 0) = _
    rw [BitVec.and_or_distrib_left, and_twoPow_eq, and_twoPow_eq, BitVec.shiftLeft_zero]
    have hhigh : (r.cout >>> 31).getLsbD 4 = false := by
      rw [BitVec.getLsbD_ushiftRight]
      exact BitVec.getLsbD_of_ge _ _ (by decide)
    have haf : (r.cout <<< 1 ||| r.cout >>> 31).getLsbD 4 = r.flags.af := by
      rw [BitVec.getLsbD_or, hhigh, Bool.or_false, BitVec.getLsbD_shiftLeft]
      rfl
    have hcf : (r.cout <<< 1 ||| r.cout >>> 31).getLsbD 0 = r.flags.cf := by
      rw [BitVec.getLsbD_or, BitVec.getLsbD_shiftLeft, BitVec.getLsbD_ushiftRight]
      rfl
    rw [haf, hcf]
  unfold flagSyncAll flagSyncSZAPC flagSyncO flagWord
  rw [hrotate, flagSyncS_eq, flagSyncP_eq, isOfSet_eq]
  change _ ||| _ ||| ofBool r.flags.zf <<< 6 ||| _ ||| _ ||| _ = _
  ac_rfl

/-! ## Operand sizes -/

/-- OPSIZE in bits -/
def OpSize.bits : OpSize → Nat
  | .byte => 8
  | .word => 16
  | .dword => 32

/-- What an operation of that size takes of a word -/
def OpSize.low (size : OpSize) (v : Word) : BitVec size.bits :=
  v.setWidth size.bits

variable {size : OpSize} {v s1 s2 : Word} {c : Bool}

theorem OpSize.bits_le (size : OpSize) : size.bits ≤ 32 := by
  cases size <;> decide

theorem OpSize.le_bits (size : OpSize) : 8 ≤ size.bits := by
  cases size <;> decide

theorem OpSize.getLsbD_low (size : OpSize) (v : Word) {j : Nat} (hj : j < size.bits) :
    (size.low v).getLsbD j = v.getLsbD j := by
  unfold OpSize.low
  rw [BitVec.getLsbD_setWidth, decide_eq_true hj, Bool.true_and]

/-- The cast to the signed type of that size copies the sign bit upwards. -/
theorem OpSize.signed_eq (size : OpSize) (v : Word) :
    size.signed v = (size.low v).signExtend 32 := by
  cases size with
  | byte => rfl
  | word => rfl
  | dword =>
    change v = (v.setWidth 32).signExtend 32
    rw [BitVec.setWidth_eq, BitVec.signExtend_eq]

theorem OpSize.getLsbD_signed (size : OpSize) (v : Word) {j : Nat} (hj : j < 32) :
    (size.signed v).getLsbD j = if j < size.bits then v.getLsbD j else (size.low v).msb := by
  rw [size.signed_eq, BitVec.getLsbD_signExtend, decide_eq_true hj, Bool.true_and]
  split
  next hlt => exact size.getLsbD_low v hlt
  next => rfl

theorem OpSize.low_signed (size : OpSize) (v : Word) : size.low (size.signed v) = size.low v := by
  apply BitVec.eq_of_getLsbD_eq
  intro j hj
  rw [size.getLsbD_low _ hj, size.getLsbD_signed v (hj.trans_le size.bits_le), if_pos hj,
    size.getLsbD_low v hj]

theorem OpSize.signed_eq_zero (size : OpSize) (v : Word) :
    (size.signed v == 0) = (size.low v == 0) := by
  rw [Bool.eq_iff_iff, beq_iff_eq, beq_iff_eq]
  constructor
  · intro hzero
    rw [← size.low_signed, hzero]
    exact BitVec.setWidth_zero _ _
  · intro hzero
    rw [size.signed_eq, hzero]
    exact BitVec.eq_of_toInt_eq (by rw [BitVec.toInt_signExtend_of_le size.bits_le]; simp)

theorem OpSize.signed_sign (size : OpSize) (v : Word) :
    (size.signed v).getLsbD 31 = (size.low v).msb := by
  rw [size.getLsbD_signed v (by decide)]
  split
  next hlt =>
    cases size with
    | byte => exact absurd hlt (by decide)
    | word => exact absurd hlt (by decide)
    | dword =>
      change v.getLsbD 31 = (v.setWidth 32).msb
      rw [BitVec.setWidth_eq]
      exact (BitVec.msb_eq_getLsbD_last v).symm
  next => rfl

theorem OpSize.signed_byte (size : OpSize) (v : Word) :
    (size.signed v).setWidth 8 = (size.low v).setWidth 8 := by
  apply BitVec.eq_of_getLsbD_eq
  intro j hj
  have hlt : j < size.bits := hj.trans_le size.le_bits
  rw [BitVec.getLsbD_setWidth, BitVec.getLsbD_setWidth, size.getLsbD_signed v (by omega),
    if_pos hlt, size.getLsbD_low v hlt]

theorem OpSize.getLsbD_part_low (size : OpSize) (v : Word) (j : Nat) :
    (size.part v).getLsbD j = (size.low v).getLsbD j := by
  have hbits : 8 * size.len = size.bits := by
    cases size <;> rfl
  unfold OpSize.low
  rw [OpSize.getLsbD_part, BitVec.getLsbD_setWidth, hbits]

/-! ## Carries at the top of the word -/

/-- The carries of an operation, with the top one in bit 31 and the fourth in its place -/
def OpSize.top (size : OpSize) (cout : Word) : Word :=
  match size with
  | .dword => cout &&& ~~~(lfMaskSD ||| lfMaskPD)
  | .word => (cout <<< 16) ||| (cout &&& lfMaskAF)
  | .byte => (cout <<< 24) ||| (cout &&& lfMaskAF)

/-- `FlagHandleAdd` -/
def flagHandleAdd (size : OpSize) (src1 src2 res : Word) : Rfl :=
  let cout := (src1 &&& src2) ||| ((src1 ||| src2) &&& ~~~res)
  { cout := size.top cout, res := res }

/-- `FlagHandleIncDec` -/
def flagHandleIncDec (r : Rfl) (size : OpSize) (low high : Word) : Rfl :=
  let cout := low &&& ~~~high
  let oldcy := isCfSet r
  setCf { r with cout := size.top cout } oldcy

theorem flagHandleSub_eq (size : OpSize) (src1 src2 res : Word) :
    flagHandleSub size src1 src2 res =
      { cout := size.top (borrows src1 src2 res), res := res } := by
  cases size <;> rfl

theorem getLsbD_lfMaskAF {j : Nat} (hj : j < 32) : lfMaskAF.getLsbD j = decide (j = 3) := by
  revert j
  decide

theorem getLsbD_top_31 (size : OpSize) (cout : Word) :
    (size.top cout).getLsbD 31 = cout.getLsbD (size.bits - 1) := by
  cases size <;> simp [OpSize.top, OpSize.bits, lfMaskSD, lfMaskPD, lfMaskAF]

theorem getLsbD_top_30 (size : OpSize) (cout : Word) :
    (size.top cout).getLsbD 30 = cout.getLsbD (size.bits - 2) := by
  cases size <;> simp [OpSize.top, OpSize.bits, lfMaskSD, lfMaskPD, lfMaskAF]

theorem getLsbD_top_low (size : OpSize) (cout : Word) {j : Nat} (hj : j = 2 ∨ j = 3 ∨ j = 7) :
    (size.top cout).getLsbD j = (decide (j = 3) && cout.getLsbD j) := by
  rcases hj with rfl | rfl | rfl
  · cases size <;> simp [OpSize.top, lfMaskSD, lfMaskPD, lfMaskAF]
  · cases size <;> simp [OpSize.top, lfMaskSD, lfMaskPD, lfMaskAF]
  · cases size <;> simp [OpSize.top, lfMaskSD, lfMaskPD, lfMaskAF]

/-- The flags of a result, and of the carries that it was made with -/
theorem flags_top (size : OpSize) (cout v : Word) :
    ({ cout := size.top cout, res := size.signed v } : Rfl).flags =
      { cf := cout.getLsbD (size.bits - 1)
        pf := evenParity ((size.low v).setWidth 8)
        af := cout.getLsbD 3
        zf := size.low v == 0
        sf := (size.low v).msb
        of := cout.getLsbD (size.bits - 1) ^^ cout.getLsbD (size.bits - 2) } := by
  unfold Rfl.flags
  dsimp only
  rw [getLsbD_top_31, getLsbD_top_30, getLsbD_top_low _ _ (.inl rfl),
    getLsbD_top_low _ _ (.inr (.inl rfl)), getLsbD_top_low _ _ (.inr (.inr rfl)),
    size.signed_eq_zero, size.signed_sign, size.signed_byte, decide_eq_true rfl,
    decide_eq_false (by decide), decide_eq_false (by decide), Bool.true_and, Bool.false_and,
    Bool.false_and, Bool.xor_false, Bool.xor_false]

/-! ## Addition and subtraction as the processor makes them -/

/-- The flags after an operation; none if it leaves the flag undefined -/
structure FlagsOut where
  cf : Option Bool
  pf : Option Bool
  af : Option Bool
  zf : Option Bool
  sf : Option Bool
  of : Option Bool

/-- The flags, where the undefined ones are chosen -/
def FlagsOut.choose (out : FlagsOut) (any : Flags) : Flags where
  cf := out.cf.getD any.cf
  pf := out.pf.getD any.pf
  af := out.af.getD any.af
  zf := out.zf.getD any.zf
  sf := out.sf.getD any.sf
  of := out.of.getD any.of

/-- A value is outside of the signed range. -/
def overflows (w : Nat) (z : Int) : Bool :=
  decide (z < -(2 ^ (w - 1) : Nat) ∨ (2 ^ (w - 1) : Nat) ≤ z)

variable {w : Nat}

/-- ZF, SF and PF of a result -/
def archResult (r : BitVec w) (cf af of : Option Bool) : FlagsOut where
  cf := cf
  pf := some (evenParity (r.setWidth 8))
  af := af
  zf := some (r == 0)
  sf := some r.msb
  of := of

/-- ADD and ADC -/
def archAdd (x y : BitVec w) (c : Bool) : BitVec w × FlagsOut :=
  (addc x y c, archResult (addc x y c)
    (some (decide (2 ^ w ≤ x.toNat + y.toNat + c.toNat)))
    (some (decide (16 ≤ x.toNat % 16 + y.toNat % 16 + c.toNat)))
    (some (overflows w (x.toInt + y.toInt + c.toNat))))

/-- SUB, SBB and CMP -/
def archSub (x y : BitVec w) (c : Bool) : BitVec w × FlagsOut :=
  (subc x y c, archResult (subc x y c)
    (some (decide (x.toNat < y.toNat + c.toNat)))
    (some (decide (x.toNat % 16 < y.toNat % 16 + c.toNat)))
    (some (overflows w (x.toInt - y.toInt - c.toNat))))

theorem carry_width (size : OpSize) (x y : BitVec size.bits) (c : Bool) :
    BitVec.carry (size.bits - 1 + 1) x y c =
      decide (2 ^ size.bits ≤ x.toNat + y.toNat + c.toNat) := by
  have hbits := size.le_bits
  rw [Nat.sub_add_cancel (by omega)]
  unfold BitVec.carry
  rw [Nat.mod_eq_of_lt x.isLt, Nat.mod_eq_of_lt y.isLt]

theorem carry_overflow (size : OpSize) (x y : BitVec size.bits) (c : Bool) :
    (BitVec.carry (size.bits - 1 + 1) x y c ^^ BitVec.carry (size.bits - 2 + 1) x y c) =
      overflows size.bits (x.toInt + y.toInt + c.toNat) := by
  cases size with
  | byte => exact overflow_add (w := 7) x y c
  | word => exact overflow_add (w := 15) x y c
  | dword => exact overflow_add (w := 31) x y c

/-- The carries of an addition tell CF, OF and AF. -/
theorem flags_add (hv : size.low v = addc (size.low s1) (size.low s2) c) (any : Flags) :
    (flagHandleAdd size s1 s2 (size.signed v)).flags =
      (archAdd (size.low s1) (size.low s2) c).2.choose any := by
  have hbits := size.le_bits
  have hcarry : ∀ i, i < size.bits → (carries s1 s2 (size.signed v)).getLsbD i =
      BitVec.carry (i + 1) (size.low s1) (size.low s2) c := by
    intro i hi
    refine getLsbD_carries hi (hi.trans_le size.bits_le) (size.getLsbD_low s1 hi).symm
      (size.getLsbD_low s2 hi).symm ?_
    rw [← hv, size.getLsbD_signed v (hi.trans_le size.bits_le), if_pos hi, size.getLsbD_low v hi]
  have hword : flagHandleAdd size s1 s2 (size.signed v) =
      { cout := size.top (carries s1 s2 (size.signed v)), res := size.signed v } := rfl
  rw [hword, flags_top, hcarry _ (by omega), hcarry _ (by omega), hcarry _ (by omega),
    carry_overflow, carry_width, hv]
  rfl

theorem borrow_width (size : OpSize) (x y : BitVec size.bits) (c : Bool) :
    borrow (size.bits - 1 + 1) x y c = decide (x.toNat < y.toNat + c.toNat) := by
  have hbits := size.le_bits
  rw [Nat.sub_add_cancel (by omega)]
  unfold borrow
  rw [Nat.mod_eq_of_lt x.isLt, Nat.mod_eq_of_lt y.isLt]

theorem borrow_overflow (size : OpSize) (x y : BitVec size.bits) (c : Bool) :
    (borrow (size.bits - 1 + 1) x y c ^^ borrow (size.bits - 2 + 1) x y c) =
      overflows size.bits (x.toInt - y.toInt - c.toNat) := by
  cases size with
  | byte => exact overflow_sub (w := 7) x y c
  | word => exact overflow_sub (w := 15) x y c
  | dword => exact overflow_sub (w := 31) x y c

/-- The borrows of a subtraction tell CF, OF and AF. -/
theorem flags_sub (hv : size.low v = subc (size.low s1) (size.low s2) c) (any : Flags) :
    (flagHandleSub size s1 s2 (size.signed v)).flags =
      (archSub (size.low s1) (size.low s2) c).2.choose any := by
  have hbits := size.le_bits
  have hborrow : ∀ i, i < size.bits → (borrows s1 s2 (size.signed v)).getLsbD i =
      borrow (i + 1) (size.low s1) (size.low s2) c := by
    intro i hi
    refine getLsbD_borrows hi (hi.trans_le size.bits_le) (size.getLsbD_low s1 hi).symm
      (size.getLsbD_low s2 hi).symm ?_
    rw [← hv, size.getLsbD_signed v (hi.trans_le size.bits_le), if_pos hi, size.getLsbD_low v hi]
  rw [flagHandleSub_eq, flags_top, hborrow _ (by omega), hborrow _ (by omega),
    hborrow _ (by omega), borrow_overflow, borrow_width, hv]
  rfl

/-! ## Operations that keep CF, or change it alone -/

theorem ofBool_inj {a b : Bool} : ofBool a = ofBool b ↔ a = b := by
  cases a <;> cases b <;> decide

/-- `SET_CF` changes CF and leaves OF as it is. -/
theorem flags_setCf (r : Rfl) (b : Bool) :
    (setCf r (ofBool b)).flags = { r.flags with cf := b } := by
  have hflip : ∀ j < 32, (lfMaskPO ||| lfMaskCF).getLsbD j =
      (decide (j = 30) || decide (j = 31)) := by
    decide
  unfold setCf
  rw [isCfSet_eq]
  by_cases hsame : b = r.flags.cf
  · rw [if_neg (not_not.mpr (congrArg ofBool hsame)), hsame]
  · rw [if_pos (mt ofBool_inj.mp hsame)]
    have hcf : b = !r.flags.cf := Bool.eq_not.mpr hsame
    rw [hcf]
    unfold Rfl.flags
    simp only [BitVec.getLsbD_xor, hflip _ (show 31 < 32 by decide),
      hflip _ (show 30 < 32 by decide), hflip _ (show 2 < 32 by decide),
      hflip _ (show 3 < 32 by decide), hflip _ (show 7 < 32 by decide)]
    simp

/-- INC is an addition of zero with a carry. -/
theorem flags_inc (r : Rfl) (hv : size.low v = addc (size.low s1) 0 true) (any : Flags) :
    (flagHandleIncDec { r with res := size.signed v } size s1 (size.signed v)).flags =
      { (archAdd (size.low s1) 0 true).2.choose any with cf := r.flags.cf } := by
  have hzero : size.low 0 = 0 := BitVec.setWidth_zero _ _
  have hv' : size.low v = addc (size.low s1) (size.low 0) true := by
    rw [hzero]
    exact hv
  have hadd := flags_add hv' any
  rw [hzero] at hadd
  unfold flagHandleIncDec
  dsimp only
  rw [isCfSet_eq, flags_setCf, ← hadd]
  have hcout : s1 &&& ~~~size.signed v = s1 &&& 0 ||| (s1 ||| 0) &&& ~~~size.signed v := by
    simp
  rw [hcout]
  rfl

/-- DEC is a subtraction of zero with a borrow. -/
theorem flags_dec (r : Rfl) (hv : size.low v = subc (size.low s1) 0 true) (any : Flags) :
    (flagHandleIncDec { r with res := size.signed v } size (size.signed v) s1).flags =
      { (archSub (size.low s1) 0 true).2.choose any with cf := r.flags.cf } := by
  have hzero : size.low 0 = 0 := BitVec.setWidth_zero _ _
  have hv' : size.low v = subc (size.low s1) (size.low 0) true := by
    rw [hzero]
    exact hv
  have hsub := flags_sub hv' any
  rw [hzero] at hsub
  unfold flagHandleIncDec
  dsimp only
  rw [isCfSet_eq, flags_setCf, ← hsub, flagHandleSub_eq]
  have hcout : size.signed v &&& ~~~s1 = borrows s1 0 (size.signed v) := by
    unfold borrows
    simp [BitVec.and_comm]
  rw [hcout]
  rfl

/-- `FlagHandleRotate` -/
def flagHandleRotate (r : Rfl) (sh : Nat) (cy : Bool) (cout : Word) (size : OpSize) : Rfl :=
  let r :=
    if sh = 1 then
      let cout :=
        match size with
        | .dword => cout &&& (lfMaskCF ||| lfMaskPO)
        | .word => cout <<< 16
        | .byte => cout <<< 24
      { r with cout := (r.cout &&& ~~~(lfMaskCF ||| lfMaskPO)) ||| cout }
    else r
  setCf r (ofBool cy)

/-- `FlagHandleShift` -/
def flagHandleShift (r : Rfl) (sh : Nat) (cy : Bool) (cout : Word) (size : OpSize) (res : Word) :
    Rfl :=
  let r := flagHandleRotate r sh cy cout size
  { cout := r.cout &&& ~~~(lfMaskSD ||| lfMaskPD), res := res }

/-- A rotation changes CF, and OF if it is by one bit. -/
theorem flags_rotate (r : Rfl) (sh : Nat) (cy : Bool) (cout : Word) (size : OpSize) :
    (flagHandleRotate r sh cy cout size).flags =
      { r.flags with
        cf := cy
        of := if sh = 1 then cout.getLsbD (size.bits - 1) ^^ cout.getLsbD (size.bits - 2)
          else r.flags.of } := by
  unfold flagHandleRotate
  dsimp only
  rw [flags_setCf]
  split_ifs with hone
  · cases size
    · simp [Rfl.flags, OpSize.bits, lfMaskCF, lfMaskPO]
    · simp [Rfl.flags, OpSize.bits, lfMaskCF, lfMaskPO]
    · simp [Rfl.flags, OpSize.bits, lfMaskCF, lfMaskPO]
  · rfl

/-- The flags of a result whose sign and parity are its own -/
theorem flags_cleared (cout : Word) (size : OpSize) (v : Word) :
    ({ cout := cout &&& ~~~(lfMaskSD ||| lfMaskPD), res := size.signed v } : Rfl).flags =
      { cf := cout.getLsbD 31
        pf := evenParity ((size.low v).setWidth 8)
        af := cout.getLsbD 3
        zf := size.low v == 0
        sf := (size.low v).msb
        of := cout.getLsbD 31 ^^ cout.getLsbD 30 } := by
  have hmask : ∀ j < 32, (lfMaskSD ||| lfMaskPD).getLsbD j =
      (decide (j = 7) || decide (j = 2)) := by
    decide
  have hbit : ∀ j < 32, (cout &&& ~~~(lfMaskSD ||| lfMaskPD)).getLsbD j =
      (cout.getLsbD j && !(decide (j = 7) || decide (j = 2))) := by
    intro j hj
    rw [BitVec.getLsbD_and, BitVec.getLsbD_not, hmask j hj, decide_eq_true hj, Bool.true_and]
  unfold Rfl.flags
  dsimp only
  rw [hbit 31 (by decide), hbit 30 (by decide), hbit 2 (by decide), hbit 3 (by decide),
    hbit 7 (by decide), size.signed_eq_zero, size.signed_sign, size.signed_byte]
  simp

/-- A shift sets ZF, SF and PF too. -/
theorem flags_shift (r : Rfl) (sh : Nat) (cy : Bool) (cout : Word) (wordsize size : OpSize)
    (v : Word) :
    (flagHandleShift r sh cy cout wordsize (size.signed v)).flags =
      { cf := cy
        pf := evenParity ((size.low v).setWidth 8)
        af := r.flags.af
        zf := size.low v == 0
        sf := (size.low v).msb
        of := if sh = 1 then cout.getLsbD (wordsize.bits - 1) ^^ cout.getLsbD (wordsize.bits - 2)
          else r.flags.of } := by
  have hrotate := flags_rotate r sh cy cout wordsize
  have hcf := congrArg Flags.cf hrotate
  have haf := congrArg Flags.af hrotate
  have hof := congrArg Flags.of hrotate
  unfold Rfl.flags at hcf haf hof
  dsimp only at hcf haf hof
  unfold flagHandleShift
  rw [flags_cleared, hof, hcf, haf]
  rfl

end Simx86
end Dosemu
