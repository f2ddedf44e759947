import Dosemu.Lib.WordMem
import Dosemu.Simx86.Direction

/-!
# Bit tests and bit scans

BT, BTS, BTR and BTC with an offset in a register address memory as one string
of bits, in both directions from the operand.  The simulator widens the offset
without its sign, and shifts it to words or doublewords the same way, so that it
always goes forward.

Main results:

- Theorem `oBitop_memory`: a memory operand is addressed by the unsigned offset.
- Theorem `bitop_iff`: the right bit is addressed exactly for the offsets that
  are not negative; register operands and immediate offsets are always right.
-/

namespace Dosemu
namespace Simx86

open Function
open WordMem

/-! ## Flags -/

/-- `SET_CF`: if CF changes, PO changes with it, and OF stays. -/
def setCf (r : Rfl) (c : Word) : Rfl :=
  if c ≠ isCfSet r then { r with cout := r.cout ^^^ (lfMaskPO ||| lfMaskCF) } else r

/-- `SET_ZF`: SF and PF move to the other word. -/
def setZf (r : Rfl) (c : Bool) : Rfl :=
  { cout := (r.cout &&& ~~~(lfMaskPD ||| lfMaskSD)) |||
      ((flagSyncS r ||| flagSyncP r) ^^^ lfMaskPD)
    res := ofBool (!c) <<< 8 }

/-- Shifting a bit out of 32 leaves the highest. -/
theorem isCfSet_setCf (r : Rfl) (b : Bool) : isCfSet (setCf r (ofBool b)) = ofBool b := by
  unfold setCf
  split
  · next hchange =>
      have hflip : (r.cout ^^^ (lfMaskPO ||| lfMaskCF)) >>> 31 = r.cout >>> 31 ^^^ 1#32 := by
        rw [BitVec.ushiftRight_xor_distrib]
        rfl
      have hbit : r.cout >>> 31 = 0#32 ∨ r.cout >>> 31 = 1#32 := by
        have hlt := r.cout.isLt
        have hval : (r.cout >>> 31).toNat = r.cout.toNat / 2 ^ 31 := by
          rw [BitVec.toNat_ushiftRight, Nat.shiftRight_eq_div_pow]
        have hcases : (r.cout >>> 31).toNat = 0 ∨ (r.cout >>> 31).toNat = 1 := by omega
        rcases hcases with hzero | hone
        · exact Or.inl (BitVec.eq_of_toNat_eq hzero)
        · exact Or.inr (BitVec.eq_of_toNat_eq hone)
      unfold isCfSet at hchange ⊢
      simp only [hflip]
      rcases hbit with hbit | hbit
      · rw [hbit] at hchange ⊢
        cases b with
        | false => exact absurd rfl hchange
        | true => rfl
      · rw [hbit] at hchange ⊢
        cases b with
        | false => rfl
        | true => exact absurd rfl hchange
  · next hsame => exact (not_ne_iff.mp hsame).symm

/-! ## The instructions -/

/-- What the operation reads and writes: the registers by their offsets, the
flags, the working register, the address of the operand, and memory. -/
structure BitCpu where
  regs : Word → Word
  rfl : Rfl
  dr1 : Word
  memRef : Word
  mem : Mem

/-- `CPUWORD`, the low half of a register. -/
def BitCpu.cpuWord (s : BitCpu) (o : Word) : Word :=
  s.regs o &&& 0xffff#32

/-- `find_bit`. -/
def findBit (w : Word) : Word :=
  match (List.range 32).find? fun i => w.getLsbD i with
  | some i => BitVec.ofNat 32 i
  | none => -1#32

/-- `find_bit_r`. -/
def findBitR (w : Word) : Word :=
  match (List.range 32).reverse.find? fun i => w.getLsbD i with
  | some i => BitVec.ofNat 32 i
  | none => -1#32

/-- The bytes of an operand. -/
def opBytes (data16 : Bool) : Nat :=
  if data16 then 2 else 4

/-- Keep the operand's size of a word. -/
def truncOp (data16 : Bool) (w : Word) : Word :=
  if data16 then w &&& 0xffff#32 else w

/-- The scans of `O_BITOP`. -/
def bitScan (data16 : Bool) (o1 o2 : Word) (s : BitCpu) : BitCpu :=
  let w := truncOp data16 s.dr1
  let dr1 := if o1 = 0x1c#32 then findBit w else findBitR w
  if dr1 = -1#32 then { s with dr1 := dr1, rfl := setZf s.rfl true }
  else
    { s with
      dr1 := dr1, rfl := setZf s.rfl false
      regs := update s.regs o2 (if data16 then setLow (s.regs o2) dr1 else dr1) }

/-- The change of the bit; BT makes none. -/
def changeBit (o1 w : Word) (n : Nat) : Word :=
  if o1 &&& 0x18#32 = 0x08#32 then w ||| (1#32 <<< n)
  else if o1 &&& 0x18#32 = 0x10#32 then w &&& ~~~(1#32 <<< n)
  else if o1 &&& 0x18#32 = 0x18#32 then w ^^^ (1#32 <<< n)
  else w

/-- `O_BITOP`: `o1` comes from the opcode, `o2` is a register, or an immediate
offset when `o1` is at least 20h. -/
def oBitop (data16 rmReg : Bool) (o1 o2 : Word) (s : BitCpu) : BitCpu :=
  if o1 = 0x1c#32 ∨ o1 = 0x1d#32 then bitScan data16 o1 o2 s
  else
    let d := if 0x20#32 ≤ o1 then o2 else if data16 then s.cpuWord o2 else s.regs o2
    let inMem := rmReg = false ∧ o1 < 0x20#32
    let memRef :=
      if inMem then
        if data16 then s.memRef + 2#32 * (d >>> 4) else s.memRef + 4#32 * (d >>> 5)
      else s.memRef
    let dr1 := if inMem then readLe (opBytes data16) s.mem memRef else s.dr1
    let dr1 := truncOp data16 dr1
    let d := (if data16 then d &&& 0x0f#32 else d &&& 0x1f#32).toNat
    let tests := o1 &&& ~~~0x18#32 = 0x03#32 ∨ o1 &&& ~~~0x18#32 = 0x20#32
    let rfl := if tests then setCf s.rfl ((dr1 >>> d) &&& 1#32) else s.rfl
    let dr1 := if tests then changeBit o1 dr1 d else dr1
    let mem :=
      if inMem ∧ o1 ≠ 0x03#32 then writeLe (opBytes data16) s.mem memRef dr1 else s.mem
    { s with rfl := rfl, dr1 := dr1, memRef := memRef, mem := mem }

/-! ## The bit tests -/

/-- The four tests. -/
inductive BitTest
  | bt
  | bts
  | btr
  | btc
deriving DecidableEq, Repr

/-- The opcode less A0h, for an offset in a register. -/
def BitTest.regCode : BitTest → Word
  | .bt => 0x03#32
  | .bts => 0x0b#32
  | .btr => 0x13#32
  | .btc => 0x1b#32

/-- The extension of the opcode, for an immediate offset. -/
def BitTest.immCode : BitTest → Word
  | .bt => 0x20#32
  | .bts => 0x28#32
  | .btr => 0x30#32
  | .btc => 0x38#32

/-- What becomes of the bit. -/
def BitTest.apply : BitTest → Bool → Bool
  | .bt, b => b
  | .bts, _ => true
  | .btr, _ => false
  | .btc, b => !b

/-- The bits of an operand. -/
def opBits (data16 : Bool) : Nat :=
  8 * opBytes data16

/-- The offset in a register of the operand's size, as a signed number. -/
def signedOffset (data16 : Bool) (r : Word) : Int :=
  if data16 then (r.setWidth 16).toInt else r.toInt

/-- The offset as an unsigned number. -/
def unsignedOffset (data16 : Bool) (r : Word) : Nat :=
  (truncOp data16 r).toNat

/-- The byte at a signed distance in bits from an address. -/
def bitAddr (a : Word) (offset : Int) : Word :=
  a + BitVec.ofInt 32 (offset / 8)

/-- The bit at a signed distance from bit 0 of an address. -/
def memBit (m : Mem) (a : Word) (offset : Int) : Bool :=
  (m (bitAddr a offset)).getLsbD (offset % 8).toNat

/-- The bit at a signed distance has become `c`, and no other bit of memory has
changed. -/
def OnlyBit (m m' : Mem) (a : Word) (offset : Int) (c : Bool) : Prop :=
  ∀ x k, k < 8 → (m' x).getLsbD k =
    if x = bitAddr a offset ∧ k = (offset % 8).toNat then c else (m x).getLsbD k

/-- The test of a bit in memory, as the instruction is meant: CF is the bit at
the offset, which is changed alone, and the registers are left. -/
def MemoryOk (op : BitTest) (data16 : Bool) (o2 r : Word) : Prop :=
  ∀ s : BitCpu, s.regs o2 = r →
    let t := oBitop data16 false op.regCode o2 s
    let old := memBit s.mem s.memRef (signedOffset data16 r)
    isCfSet t.rfl = ofBool old ∧
      OnlyBit s.mem t.mem s.memRef (signedOffset data16 r) (op.apply old) ∧ t.regs = s.regs

/-- The test of a bit in the working register: the offset is taken modulo the
size of the operand, and nothing is written elsewhere. -/
def WorkingOk (op : BitTest) (data16 : Bool) (n : Nat) (s t : BitCpu) : Prop :=
  isCfSet t.rfl = ofBool (s.dr1.getLsbD (n % opBits data16)) ∧
    (∀ k < opBits data16, t.dr1.getLsbD k =
      if k = n % opBits data16 then op.apply (s.dr1.getLsbD k) else s.dr1.getLsbD k) ∧
    t.mem = s.mem ∧ t.regs = s.regs

/-! ## Bits of words -/

variable {op : BitTest} {data16 : Bool} {n : Nat} {w : Word}

theorem shiftRight_one (w : Word) (n : Nat) : (w >>> n) &&& 1#32 = ofBool (w.getLsbD n) := by
  apply BitVec.eq_of_getLsbD_eq
  intro j hj
  rw [BitVec.getLsbD_and, BitVec.getLsbD_ushiftRight, BitVec.getLsbD_one]
  by_cases hzero : j = 0
  · subst hzero
    cases w.getLsbD n with
    | false => simp [ofBool]
    | true => simp [ofBool]
  · cases w.getLsbD n with
    | false => simp [hzero, ofBool]
    | true => simp [hzero, ofBool, BitVec.getLsbD_one]

theorem getLsbD_oneShift {j : Nat} (hj : j < 32) :
    (1#32 <<< n).getLsbD j = decide (j = n) := by
  rw [BitVec.getLsbD_shiftLeft, BitVec.getLsbD_one]
  by_cases hlow : j < n
  · have hne : j ≠ n := by omega
    simp [hlow, hne]
  · have hiff : j - n = 0 ↔ j = n := by omega
    simp [hj, hlow, hiff]

/-- The codes choose the operation, the immediate ones as those for a register. -/
theorem changeBit_eq (op : BitTest) {code : Word}
    (hcode : code = op.regCode ∨ code = op.immCode) (w : Word) (n : Nat) :
    changeBit code w n =
      match op with
      | .bt => w
      | .bts => w ||| (1#32 <<< n)
      | .btr => w &&& ~~~(1#32 <<< n)
      | .btc => w ^^^ (1#32 <<< n) := by
  rcases hcode with rfl | rfl
  · cases op <;> rfl
  · cases op <;> rfl

/-- The change of a bit leaves the others. -/
theorem getLsbD_changeBit (op : BitTest) {code : Word}
    (hcode : code = op.regCode ∨ code = op.immCode) {j : Nat} (hj : j < 32) :
    (changeBit code w n).getLsbD j =
      if j = n then op.apply (w.getLsbD j) else w.getLsbD j := by
  have hone := getLsbD_oneShift (n := n) hj
  rw [changeBit_eq op hcode]
  cases op with
  | bt => exact (ite_self _).symm
  | bts =>
      rw [BitVec.getLsbD_or, hone]
      by_cases hn : j = n
      · simp [hn, BitTest.apply]
      · simp [hn]
  | btr =>
      rw [BitVec.getLsbD_and, BitVec.getLsbD_not, hone]
      by_cases hn : j = n
      · simp [hn, BitTest.apply]
      · simp [hn, hj]
  | btc =>
      rw [BitVec.getLsbD_xor, hone]
      by_cases hn : j = n
      · simp [hn, BitTest.apply]
      · simp [hn]

theorem getLsbD_truncOp (data16 : Bool) (w : Word) {j : Nat} (hj : j < opBits data16) :
    (truncOp data16 w).getLsbD j = w.getLsbD j := by
  cases data16 with
  | false => rfl
  | true =>
      have hj' : j < 16 := hj
      have hall : ∀ j < 16, (0xffff#32).getLsbD j = true := by decide
      simp [truncOp, hall j hj']

/-- The bit within the operand. -/
theorem offset_mod (data16 : Bool) (d : Word) :
    (if data16 then d &&& 0x0f#32 else d &&& 0x1f#32).toNat = d.toNat % opBits data16 := by
  cases data16 with
  | false => exact Nat.and_two_pow_sub_one_eq_mod d.toNat 5
  | true => exact Nat.and_two_pow_sub_one_eq_mod d.toNat 4

/-- The operand that an unsigned offset leads to. -/
theorem offset_word (data16 : Bool) (a d : Word) :
    (if data16 then a + 2#32 * (d >>> 4) else a + 4#32 * (d >>> 5)) =
      a + BitVec.ofNat 32 (opBytes data16 * (d.toNat / opBits data16)) := by
  have hlt := d.isLt
  cases data16 with
  | false =>
      have heq : 4#32 * (d >>> 5) = BitVec.ofNat 32 (4 * (d.toNat / 32)) := by
        apply BitVec.eq_of_toNat_eq
        rw [BitVec.toNat_mul, BitVec.toNat_ushiftRight, Nat.shiftRight_eq_div_pow]
        rfl
      exact congrArg (a + ·) heq
  | true =>
      have heq : 2#32 * (d >>> 4) = BitVec.ofNat 32 (2 * (d.toNat / 16)) := by
        apply BitVec.eq_of_toNat_eq
        rw [BitVec.toNat_mul, BitVec.toNat_ushiftRight, Nat.shiftRight_eq_div_pow]
        rfl
      exact congrArg (a + ·) heq

/-! ## Memory operands -/

/-- The codes with a register are no scans and no immediates. -/
theorem regCode_spec (op : BitTest) :
    ¬(op.regCode = 0x1c#32 ∨ op.regCode = 0x1d#32) ∧ op.regCode < 0x20#32 ∧
      op.regCode &&& ~~~0x18#32 = 0x03#32 ∧ (op.regCode = 0x03#32 ↔ op = .bt) := by
  cases op <;> decide

theorem immCode_spec (op : BitTest) :
    ¬(op.immCode = 0x1c#32 ∨ op.immCode = 0x1d#32) ∧ 0x20#32 ≤ op.immCode ∧
      op.immCode &&& ~~~0x18#32 = 0x20#32 := by
  cases op <;> decide

theorem opBytes_le (data16 : Bool) : opBytes data16 ≤ 4 := by
  cases data16 <;> decide

theorem opBits_pos (data16 : Bool) : 0 < opBits data16 := by
  cases data16 <;> decide

/-- The register is read at the size of the operand. -/
theorem offset_reg (data16 : Bool) (s : BitCpu) (o2 : Word) :
    (if data16 then s.cpuWord o2 else s.regs o2) = truncOp data16 (s.regs o2) := by
  cases data16 <;> rfl

/-- What `O_BITOP` does to a memory operand. -/
theorem oBitop_memory_eq (op : BitTest) (data16 : Bool) (o2 : Word) (s : BitCpu) :
    oBitop data16 false op.regCode o2 s =
      let n := unsignedOffset data16 (s.regs o2)
      let memRef := s.memRef + BitVec.ofNat 32 (opBytes data16 * (n / opBits data16))
      let word := truncOp data16 (readLe (opBytes data16) s.mem memRef)
      let dr1 := changeBit op.regCode word (n % opBits data16)
      { s with
        rfl := setCf s.rfl (ofBool (word.getLsbD (n % opBits data16)))
        dr1 := dr1
        memRef := memRef
        mem := if op = .bt then s.mem else writeLe (opBytes data16) s.mem memRef dr1 } := by
  obtain ⟨hscan, hlt, htests, hbt⟩ := regCode_spec op
  have hle : ¬0x20#32 ≤ op.regCode := BitVec.not_le.mpr hlt
  unfold oBitop
  simp only [if_neg hscan, if_neg hle, offset_reg, hlt, and_self, if_true, true_or, htests,
    offset_word, offset_mod, shiftRight_one, true_and, ne_eq, hbt, unsignedOffset]
  by_cases h : op = .bt
  · simp [h]
  · simp [h]

/-- A memory operand is addressed by the unsigned offset, and one bit changes. -/
theorem oBitop_memory (op : BitTest) (data16 : Bool) (o2 : Word) (s : BitCpu) :
    let t := oBitop data16 false op.regCode o2 s
    let n := unsignedOffset data16 (s.regs o2)
    isCfSet t.rfl = ofBool (memBit s.mem s.memRef n) ∧
      OnlyBit s.mem t.mem s.memRef n (op.apply (memBit s.mem s.memRef n)) ∧ t.regs = s.regs := by
  have hbytes := opBytes_le data16
  have hbits : opBits data16 = 8 * opBytes data16 := rfl
  have hpos := opBits_pos data16
  rw [oBitop_memory_eq]
  simp only
  generalize unsignedOffset data16 (s.regs o2) = n
  have hmod : n % opBits data16 < opBits data16 := Nat.mod_lt n hpos
  have hword : ∀ j < opBits data16,
      (truncOp data16 (readLe (opBytes data16) s.mem
        (s.memRef + BitVec.ofNat 32 (opBytes data16 * (n / opBits data16))))).getLsbD j =
      (readLe (opBytes data16) s.mem
        (s.memRef + BitVec.ofNat 32 (opBytes data16 * (n / opBits data16)))).getLsbD j :=
    fun j hj => getLsbD_truncOp data16 _ hj
  -- the byte within the word is the byte of the offset
  have hbyte : s.memRef + BitVec.ofNat 32 (opBytes data16 * (n / opBits data16)) +
      BitVec.ofNat 32 (n % opBits data16 / 8) = bitAddr s.memRef n := by
    have hsum : opBytes data16 * (n / opBits data16) + n % opBits data16 / 8 = n / 8 := by
      cases data16 with
      | false =>
          simp only [opBits, opBytes, Bool.false_eq_true, if_false]
          omega
      | true =>
          simp only [opBits, opBytes, if_true]
          omega
    rw [BitVec.add_assoc, ← BitVec.ofNat_add, hsum]
    rfl
  have hbit : n % opBits data16 % 8 = ((n : Int) % 8).toNat := by
    have hnat : ((n : Int) % 8).toNat = n % 8 := by omega
    rw [hnat, hbits]
    exact Nat.mod_mul_right_mod n 8 (opBytes data16)
  have hold : (truncOp data16 (readLe (opBytes data16) s.mem
      (s.memRef + BitVec.ofNat 32 (opBytes data16 * (n / opBits data16))))).getLsbD
        (n % opBits data16) = memBit s.mem s.memRef n := by
    have hin : n % opBits data16 < 8 * opBytes data16 := hmod
    rw [hword _ hmod, getLsbD_readLe (by omega), hbyte, hbit, memBit]
    simp [hin]
  refine ⟨by rw [isCfSet_setCf, hold], ?_, trivial⟩
  intro x k hk
  by_cases hbt : op = .bt
  · subst hbt
    simp only [if_true, BitTest.apply]
    split
    · next hat => rw [hat.1, hat.2, memBit]
    · rfl
  · rw [if_neg hbt, writeLe_bit (b := n % opBits data16)
      (c := op.apply (memBit s.mem s.memRef n)) hbytes (hbits ▸ hmod) ?_ hk, hbyte, hbit]
    intro j hj
    rw [getLsbD_changeBit op (Or.inl rfl) (by omega)]
    split
    · next hj' => rw [hj', hold]
    · exact hword j (hbits ▸ hj)

/-! ## Signed offsets -/

/-- The offset is the unsigned one, less the size of the register when it is
negative. -/
theorem signedOffset_eq (data16 : Bool) (r : Word) :
    signedOffset data16 r = if 0 ≤ signedOffset data16 r then (unsignedOffset data16 r : Int)
      else (unsignedOffset data16 r : Int) - 2 ^ opBits data16 := by
  cases data16 with
  | false =>
      simp only [signedOffset, unsignedOffset, truncOp, Bool.false_eq_true, if_false]
      have hlt := r.isLt
      rw [BitVec.toInt_eq_toNat_cond]
      have hbits : (2 : Int) ^ opBits false = 2 ^ 32 := rfl
      rw [hbits]
      split
      · omega
      · omega
  | true =>
      have htrunc : (truncOp true r).toNat = (r.setWidth 16).toNat := by
        rw [BitVec.toNat_setWidth]
        exact Nat.and_two_pow_sub_one_eq_mod r.toNat 16
      simp only [signedOffset, unsignedOffset, if_true, htrunc]
      have hlt := (r.setWidth 16).isLt
      rw [BitVec.toInt_eq_toNat_cond]
      have hbits : (2 : Int) ^ opBits true = 2 ^ 16 := rfl
      rw [hbits]
      split
      · omega
      · omega

/-- A negative offset leads to another byte than the unsigned one. -/
theorem bitAddr_negative (data16 : Bool) (a : Word) (n : Nat) :
    bitAddr a ((n : Int) - 2 ^ opBits data16) ≠ bitAddr a n := by
  unfold bitAddr
  intro heq
  have hdist := congrArg BitVec.toNat ((BitVec.add_right_inj a).mp heq)
  rw [BitVec.toNat_ofInt, BitVec.toNat_ofInt] at hdist
  cases data16 with
  | false =>
      have hbits : (2 : Int) ^ opBits false = 2 ^ 32 := rfl
      rw [hbits] at hdist
      omega
  | true =>
      have hbits : (2 : Int) ^ opBits true = 2 ^ 16 := rfl
      rw [hbits] at hdist
      omega

/-- A byte of ones in a memory of zeros. -/
def oneByte (a : Word) : Mem :=
  update (fun _ => 0) a 0xff

theorem memBit_oneByte (a : Word) (offset : Int) :
    memBit (oneByte (bitAddr a offset)) a offset = true := by
  have hall : ∀ k < 8, (0xff : BitVec 8).getLsbD k = true := by decide
  have hlt : (offset % 8).toNat < 8 := by omega
  rw [memBit, oneByte, update_self]
  exact hall _ hlt

theorem memBit_oneByte_ne {a : Word} {i j : Int} (h : bitAddr a i ≠ bitAddr a j) :
    memBit (oneByte (bitAddr a i)) a j = false := by
  rw [memBit, oneByte, update_of_ne h.symm]
  exact BitVec.getLsbD_zero

/-- A test with a register offset is right for all operands and memories exactly
when the offset is not negative. -/
theorem memoryOk_iff (op : BitTest) (data16 : Bool) (o2 r : Word) :
    MemoryOk op data16 o2 r ↔ 0 ≤ signedOffset data16 r := by
  constructor
  · intro hok
    by_contra hneg
    have hsigned := signedOffset_eq data16 r
    rw [if_neg hneg] at hsigned
    -- the bit that is meant is set, the one that is read is clear
    let s : BitCpu :=
      { regs := fun _ => r, rfl := ⟨0, 0⟩, dr1 := 0, memRef := 0
        mem := oneByte (bitAddr 0 (signedOffset data16 r)) }
    have hmeant : memBit s.mem s.memRef (signedOffset data16 r) = true := memBit_oneByte 0 _
    have hne := bitAddr_negative data16 0 (unsignedOffset data16 r)
    rw [← hsigned] at hne
    have hread : memBit s.mem s.memRef (unsignedOffset data16 r) = false := memBit_oneByte_ne hne
    have hcf := (hok s rfl).1
    have hcode := (oBitop_memory op data16 o2 s).1
    rw [hcode, hmeant] at hcf
    rw [show s.regs o2 = r from rfl, hread] at hcf
    exact absurd hcf (by decide)
  · intro hnonneg s hs
    have hsigned := signedOffset_eq data16 r
    rw [if_pos hnonneg] at hsigned
    have hcode := oBitop_memory op data16 o2 s
    rw [hs] at hcode
    rw [hsigned]
    exact hcode

/-! ## Register operands and immediate offsets -/

/-- The bit is tested and changed in the working register. -/
theorem workingOk_of_eq (op : BitTest) {code : Word}
    (hcode : code = op.regCode ∨ code = op.immCode) (data16 : Bool) (n : Nat) {s t : BitCpu}
    (hrfl : t.rfl = setCf s.rfl (ofBool ((truncOp data16 s.dr1).getLsbD (n % opBits data16))))
    (hdr1 : t.dr1 = changeBit code (truncOp data16 s.dr1) (n % opBits data16))
    (hmem : t.mem = s.mem) (hregs : t.regs = s.regs) : WorkingOk op data16 n s t := by
  have hmod : n % opBits data16 < opBits data16 := Nat.mod_lt n (opBits_pos data16)
  have hbytes := opBytes_le data16
  refine ⟨?_, ?_, hmem, hregs⟩
  · rw [hrfl, isCfSet_setCf, getLsbD_truncOp data16 _ hmod]
  · intro k hk
    have hk' : k < 8 * opBytes data16 := hk
    rw [hdr1, getLsbD_changeBit op hcode (by omega), getLsbD_truncOp data16 _ hk]

theorem oBitop_register (op : BitTest) (data16 : Bool) (o2 : Word) (s : BitCpu) :
    WorkingOk op data16 (unsignedOffset data16 (s.regs o2)) s
      (oBitop data16 true op.regCode o2 s) := by
  obtain ⟨hscan, hlt, htests, -⟩ := regCode_spec op
  have hle : ¬0x20#32 ≤ op.regCode := BitVec.not_le.mpr hlt
  have heq : oBitop data16 true op.regCode o2 s = { s with
      rfl := setCf s.rfl (ofBool ((truncOp data16 s.dr1).getLsbD
        (unsignedOffset data16 (s.regs o2) % opBits data16)))
      dr1 := changeBit op.regCode (truncOp data16 s.dr1)
        (unsignedOffset data16 (s.regs o2) % opBits data16) } := by
    unfold oBitop
    simp only [if_neg hscan, if_neg hle, offset_reg, Bool.true_eq_false, false_and, if_false,
      htests, true_or, if_true, offset_mod, shiftRight_one, unsignedOffset]
  rw [heq]
  exact workingOk_of_eq op (Or.inl rfl) data16 _ rfl rfl rfl rfl

theorem oBitop_immediate (op : BitTest) (data16 rmReg : Bool) (imm : Word) (s : BitCpu) :
    WorkingOk op data16 imm.toNat s (oBitop data16 rmReg op.immCode imm s) := by
  obtain ⟨hscan, hle, htests⟩ := immCode_spec op
  have hlt : ¬op.immCode < 0x20#32 := BitVec.not_lt.mpr hle
  have heq : oBitop data16 rmReg op.immCode imm s = { s with
      rfl := setCf s.rfl (ofBool ((truncOp data16 s.dr1).getLsbD (imm.toNat % opBits data16)))
      dr1 := changeBit op.immCode (truncOp data16 s.dr1) (imm.toNat % opBits data16) } := by
    unfold oBitop
    simp only [if_neg hscan, if_pos hle, hlt, and_false, false_and, if_false, htests, or_true,
      if_true, offset_mod, shiftRight_one]
  rw [heq]
  exact workingOk_of_eq op (Or.inr rfl) data16 _ rfl rfl rfl rfl

/-- A memory operand with its offset in a register is addressed rightly exactly
for the offsets that are not negative; a register operand, and an immediate
offset, always is. -/
theorem bitop_iff (op : BitTest) (data16 : Bool) :
    (∀ o2 r, MemoryOk op data16 o2 r ↔ 0 ≤ signedOffset data16 r) ∧
      (∀ o2 s, WorkingOk op data16 (unsignedOffset data16 (s.regs o2)) s
        (oBitop data16 true op.regCode o2 s)) ∧
      ∀ rmReg imm s, WorkingOk op data16 imm.toNat s (oBitop data16 rmReg op.immCode imm s) :=
  ⟨memoryOk_iff op data16, oBitop_register op data16, oBitop_immediate op data16⟩

/-- BT AX with offset -1: the bit before the operand is set, and CF is clear. -/
theorem bt_minus_one_misses : ¬MemoryOk .bt true 0 0xffff#32 := by
  intro hok
  exact absurd (hok ⟨fun _ => 0xffff#32, ⟨0, 0⟩, 0, 0x1000, oneByte 0xfff⟩ rfl).1 (by decide)

end Simx86
end Dosemu
