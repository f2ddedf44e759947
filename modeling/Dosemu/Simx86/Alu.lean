import Dosemu.Simx86.AluFlags

/-!
# The arithmetic unit

The arithmetic, the shifts and the rotations of the simulator, on its working register and its
registers, with the flags kept lazily.  The same instructions with all flags kept as flags are
what the processor does; a flag that it leaves undefined may become anything.

Main results:

- Theorems `simArith_eq`, `simUnary_eq`, `simShift_eq`: one operation of the simulator gives the
  result and the flags that the processor gives.
- Theorem `exec_decode_iff`: so does one instruction, but for SBB of a register with itself while CF
  is set and for a 32-bit SAR by one that bits 16 and 15 differ in.
- Theorem `simRun_refines`: so does every run of the other instructions.
-/

namespace Dosemu
namespace Simx86
namespace Alu

open CarryChain WordMem

/-! ## Instructions -/

/-- `O_ADD_R` to `O_CMP_R`, and `O_ADD_FR` to `O_CMP_FR` -/
inductive Arith
  | add
  | or
  | adc
  | sbb
  | and
  | sub
  | xor
  | cmp
deriving DecidableEq

/-- `O_CLEAR`, `O_TEST`, `O_SBSELF`, `O_INC`, `O_DEC`, `O_NOT` and `O_NEG` -/
inductive Unary
  | clear
  | test
  | sbself
  | inc
  | dec
  | not
  | neg
deriving DecidableEq

/-- `O_ROL` to `O_SAR` -/
inductive Shift
  | rol
  | rcl
  | shl
  | ror
  | rcr
  | shr
  | sar
deriving DecidableEq

/-- `O_SETFL`, as far as it is about CF -/
inductive SetFlag
  | cmc
  | clc
  | stc
deriving DecidableEq

/-- What the instructions need of a way to keep the flags -/
structure AluUnit (F : Type) where
  arith : Arith → (size : OpSize) → F → Word → Word → BitVec size.bits × F
  unary : Unary → (size : OpSize) → F → Word → BitVec size.bits × F
  shift : Shift → (size : OpSize) → F → Nat → Word → BitVec size.bits × F
  setFlag : SetFlag → F → F
  cond : F → Nat → Bool

/-- The processor: its registers by their offsets, the working register and the flags -/
structure Machine (F : Type) where
  cpu : Mem
  dr1 : Word
  flags : F

/-- The offsets of EAX and ECX -/
structure Layout where
  eax : Word
  ecx : Word

/-- The second operand of `O_ADD_R`: `IMMED`, or a register -/
inductive Operand
  | imm (v : Word)
  | reg (o : Word)

/-- The instructions.  The count of a shift and the operand of `O_ADD_FR` are immediate, or in CL
and in the working register. -/
inductive Op
  | arithR (k : Arith) (size : OpSize) (src : Operand)
  | arithFR (k : Arith) (size : OpSize) (o : Word) (imm : Option Word)
  | unaryR (k : Unary) (size : OpSize) (o : Word)
  | unary (k : Unary) (size : OpSize)
  | cmpxchg (size : OpSize) (o : Word)
  | shift (k : Shift) (size : OpSize) (imm : Option Word)
  | setFlag (k : SetFlag)
  | setcc (cond : Nat)

/-! ## Execution -/

/-- `CPUBYTE`, `CPUWORD` and `CPULONG`: the two latter index arrays of words. -/
def cpuRead (cpu : Mem) (size : OpSize) (o : Word) : Word :=
  readLe size.len cpu (o &&& ~~~(size.bytes - 1#32))

/-- Assignment to them -/
def cpuWrite (cpu : Mem) (size : OpSize) (o v : Word) : Mem :=
  writeLe size.len cpu (o &&& ~~~(size.bytes - 1#32)) v

/-- The logical operations take the offset of a register as it is, the others take it from
`v.bs.bl`. -/
def Arith.offset (k : Arith) (o : Word) : Word :=
  match k with
  | .or | .and | .xor => o
  | _ => (o.setWidth 8).signExtend 32

/-- The operand of a unary operation on the working register: INC and DEC take it as a signed
number. -/
def Unary.operand (k : Unary) (size : OpSize) (dr1 : Word) : Word :=
  match k with
  | .inc | .dec => size.signed dr1
  | _ => size.part dr1

variable {F : Type} (u : AluUnit F) (l : Layout) (s : Machine F)

/-- One instruction -/
def exec : Op → Machine F
  | .arithR k size src =>
    let s2 :=
      match src with
      | .imm v => size.part v
      | .reg o => cpuRead s.cpu size (k.offset o)
    let r := u.arith k size s.flags (size.part s.dr1) s2
    { s with
      dr1 := if k = .cmp then s.dr1 else size.setPart s.dr1 (r.1.setWidth 32)
      flags := r.2 }
  | .arithFR k size o imm =>
    let s2 := size.part (imm.getD s.dr1)
    let r := u.arith k size s.flags (cpuRead s.cpu size o) s2
    { s with
      cpu := if k = .cmp then s.cpu else cpuWrite s.cpu size o (r.1.setWidth 32)
      flags := r.2 }
  | .unaryR k size o =>
    let r := u.unary k size s.flags (cpuRead s.cpu size o)
    { s with
      cpu := if k = .test then s.cpu else cpuWrite s.cpu size o (r.1.setWidth 32)
      flags := r.2 }
  | .unary k size =>
    let r := u.unary k size s.flags (k.operand size s.dr1)
    { s with dr1 := size.setPart s.dr1 (r.1.setWidth 32), flags := r.2 }
  | .cmpxchg size o =>
    let r := u.arith .cmp size s.flags (cpuRead s.cpu size l.eax) (size.part s.dr1)
    if u.cond r.2 4 then
      { s with dr1 := size.setPart s.dr1 (cpuRead s.cpu size o), flags := r.2 }
    else { s with cpu := cpuWrite s.cpu size l.eax s.dr1, flags := r.2 }
  | .shift k size imm =>
    let sh := imm.getD (cpuRead s.cpu .byte l.ecx)
    let r := u.shift k size s.flags (sh &&& 31#32).toNat s.dr1
    { s with dr1 := size.setPart s.dr1 (r.1.setWidth 32), flags := r.2 }
  | .setFlag k => { s with flags := u.setFlag k s.flags }
  | .setcc cond =>
    { s with dr1 := OpSize.byte.setPart s.dr1 (ofBool (u.cond s.flags cond)) }

/-! ## The unit of the simulator -/

/-- The flags of a logical operation: only AF is kept. -/
def logicRfl (r : Rfl) (size : OpSize) (v : Word) : Rfl :=
  { cout := r.cout &&& lfMaskAF, res := size.signed v }

def simArith (k : Arith) (size : OpSize) (r : Rfl) (s1 s2 : Word) : BitVec size.bits × Rfl :=
  match k with
  | .add => (size.low (s1 + s2), flagHandleAdd size s1 s2 (size.signed (s1 + s2)))
  | .or => (size.low (s1 ||| s2), logicRfl r size (s1 ||| s2))
  | .adc =>
    let v := s1 + s2 + isCfSet r
    (size.low v, flagHandleAdd size s1 s2 (size.signed v))
  | .sbb =>
    let v := s1 - s2 - isCfSet r
    (size.low v, flagHandleSub size s1 s2 (size.signed v))
  | .and => (size.low (s1 &&& s2), logicRfl r size (s1 &&& s2))
  | .sub | .cmp => (size.low (s1 - s2), flagHandleSub size s1 s2 (size.signed (s1 - s2)))
  | .xor => (size.low (s1 ^^^ s2), logicRfl r size (s1 ^^^ s2))

def simUnary (k : Unary) (size : OpSize) (r : Rfl) (s1 : Word) : BitVec size.bits × Rfl :=
  match k with
  | .clear => (size.low 0, { cout := r.cout &&& lfMaskAF, res := 0 })
  | .test => (size.low s1, logicRfl r size s1)
  | .sbself =>
    if isCfSet r ≠ 0 then
      (size.low 0xffffffff#32, { cout := lfMaskCF ||| lfMaskAF, res := 0xffffffff#32 })
    else (size.low 0, { cout := 0, res := 0 })
  | .inc =>
    let res := size.signed (s1 + 1)
    (size.low (s1 + 1), flagHandleIncDec { r with res := res } size s1 res)
  | .dec =>
    let res := size.signed (s1 - 1)
    (size.low (s1 - 1), flagHandleIncDec { r with res := res } size res s1)
  | .not => (size.low (~~~s1), r)
  | .neg => (size.low (-s1), flagHandleSub size 0 s1 (size.signed (-s1)))

/-- The count is below 32.  A shift by the whole width of the word is left out by the source where
it can come up; it gives zero here. -/
def simShift (k : Shift) (size : OpSize) (r : Rfl) (sh : Nat) (dr1 : Word) :
    BitVec size.bits × Rfl :=
  if sh = 0 then (size.low dr1, r)
  else
    match k with
    | .rol =>
      let sh := sh % size.bits
      let rbef := size.part dr1
      let raft := (rbef <<< sh) ||| (rbef >>> (size.bits - sh))
      (size.low raft, flagHandleRotate r sh (raft.getLsbD 0) rbef size)
    | .rcl =>
      let cy := isCfSet r
      let sh := sh % (size.bits + 1)
      if sh = 0 then (size.low dr1, r)
      else
        let rbef := size.part dr1
        let raft := (rbef <<< sh) ||| (rbef >>> (size.bits + 1 - sh)) ||| (cy <<< (sh - 1))
        (size.low raft, flagHandleRotate r sh (rbef.getLsbD (size.bits - sh)) rbef size)
    | .shl =>
      let rbef := size.part dr1
      let raft := rbef <<< sh
      let cy :=
        match size with
        | .byte => raft.getLsbD 8
        | .word => raft.getLsbD 16
        | .dword => rbef.getLsbD (32 - sh)
      (size.low raft, flagHandleShift r sh cy rbef size (size.signed raft))
    | .ror =>
      let sh := sh % size.bits
      let rbef := size.part dr1
      let raft := (rbef >>> sh) ||| (rbef <<< (size.bits - sh))
      (size.low raft, flagHandleRotate r sh (raft.getLsbD (size.bits - 1)) raft size)
    | .rcr =>
      let cy := isCfSet r
      let sh := sh % (size.bits + 1)
      let rbef := size.part dr1
      let raft := (rbef >>> sh) ||| (rbef <<< (size.bits + 1 - sh)) ||| (cy <<< (size.bits - sh))
      let cy' := if sh ≠ 0 then rbef.getLsbD (sh - 1) else cy.getLsbD 0
      (size.low raft, flagHandleRotate r sh cy' raft size)
    | .shr =>
      let rbef := size.part dr1
      let raft := rbef >>> sh
      (size.low raft, flagHandleShift r sh (rbef.getLsbD (sh - 1)) raft size (size.signed raft))
    | .sar =>
      let rbef := size.signed dr1
      let raft := rbef.sshiftRight sh
      let cy := (rbef.sshiftRight (sh - 1)).getLsbD 0
      -- the source has 16 for doublewords too
      let wordsize := if size = .byte then .byte else .word
      (size.low raft, flagHandleShift r sh cy raft wordsize (size.signed raft))

def simSetFlag (k : SetFlag) (r : Rfl) : Rfl :=
  match k with
  | .cmc => { r with cout := r.cout ^^^ (lfMaskCF ||| lfMaskPO) }
  | .clc => setCf r 0
  | .stc => setCf r 1

/-- The conditions of `O_SETCC` and of the jumps, and false for the other values -/
def simCond (r : Rfl) (cond : Nat) : Bool :=
  let of := isOfSet r != 0
  let cf := isCfSet r != 0
  let zf := isZfSet r
  let sf := flagSyncS r != 0
  let pf := flagSyncP r != 0
  match cond with
  | 0x0 => of
  | 0x1 => !of
  | 0x2 => cf
  | 0x3 => !cf
  | 0x4 => zf
  | 0x5 => !zf
  | 0x6 => cf || zf
  | 0x7 => !cf && !zf
  | 0x8 => sf
  | 0x9 => !sf
  | 0xa => pf
  | 0xb => !pf
  | 0xc => sf ^^ of
  | 0xd => !(sf ^^ of)
  | 0xe => (sf ^^ of) || zf
  | 0xf => !(sf ^^ of) && !zf
  | _ => false

def simUnit : AluUnit Rfl where
  arith := simArith
  unary := simUnary
  shift := simShift
  setFlag := simSetFlag
  cond := simCond

/-! ## The unit of the processor -/

variable {w : Nat}

/-- All flags stay. -/
def keep (f : Flags) : FlagsOut where
  cf := some f.cf
  pf := some f.pf
  af := some f.af
  zf := some f.zf
  sf := some f.sf
  of := some f.of

/-- AF is undefined behind a logical operation. -/
def archLogic (v : BitVec w) : BitVec w × FlagsOut :=
  (v, archResult v (some false) none (some false))

def archArith (k : Arith) (f : Flags) (x y : BitVec w) : BitVec w × FlagsOut :=
  match k with
  | .add => archAdd x y false
  | .or => archLogic (x ||| y)
  | .adc => archAdd x y f.cf
  | .sbb => archSub x y f.cf
  | .and => archLogic (x &&& y)
  | .sub | .cmp => archSub x y false
  | .xor => archLogic (x ^^^ y)

def archUnary (k : Unary) (f : Flags) (x : BitVec w) : BitVec w × FlagsOut :=
  match k with
  | .clear => archLogic (x ^^^ x)
  | .test => archLogic (x &&& x)
  | .sbself => archSub x x f.cf
  | .inc => (x + 1, archResult (x + 1) (some f.cf) (some (decide (x.toNat % 16 = 15)))
      (some (overflows w (x.toInt + 1))))
  | .dec => (x - 1, archResult (x - 1) (some f.cf) (some (decide (x.toNat % 16 = 0)))
      (some (overflows w (x.toInt - 1))))
  | .not => (~~~x, keep f)
  | .neg => archSub 0 x false

/-- A rotation changes CF, and OF, which is defined for a count of 1. -/
def archRotated (f : Flags) (sh : Nat) (cf of : Bool) : FlagsOut :=
  { keep f with cf := some cf, of := if sh = 1 then some of else none }

/-- A shift leaves AF undefined, CF if the count is above the width, and OF if it is not 1. -/
def archShifted (v : BitVec w) (sh : Nat) (cf of : Bool) : FlagsOut :=
  archResult v (if sh ≤ w then some cf else none) none (if sh = 1 then some of else none)

/-- RCL and RCR rotate CF and the operand together. -/
def archShift (k : Shift) (f : Flags) (sh : Nat) (x : BitVec w) : BitVec w × FlagsOut :=
  if sh = 0 then (x, keep f)
  else
    match k with
    | .rol =>
      let v := x.rotateLeft sh
      (v, archRotated f sh (v.getLsbD 0) (v.msb ^^ v.getLsbD 0))
    | .rcl =>
      let v := (BitVec.cons f.cf x).rotateLeft sh
      (v.setWidth w, archRotated f sh v.msb ((v.setWidth w).msb ^^ v.msb))
    | .shl =>
      let v := x <<< sh
      (v, archShifted v sh (x.getLsbD (w - sh)) (v.msb ^^ x.getLsbD (w - sh)))
    | .ror =>
      let v := x.rotateRight sh
      (v, archRotated f sh v.msb (v.msb ^^ v.getLsbD (w - 2)))
    | .rcr =>
      let v := (BitVec.cons f.cf x).rotateRight sh
      (v.setWidth w, archRotated f sh v.msb ((v.setWidth w).msb ^^ v.getLsbD (w - 2)))
    | .shr =>
      let v := x >>> sh
      (v, archShifted v sh (x.getLsbD (sh - 1)) x.msb)
    | .sar =>
      let v := x.sshiftRight sh
      (v, archResult v (some ((x.sshiftRight (sh - 1)).getLsbD 0)) none
        (if sh = 1 then some false else none))

def archSetFlag (k : SetFlag) (f : Flags) : Flags :=
  match k with
  | .cmc => { f with cf := !f.cf }
  | .clc => { f with cf := false }
  | .stc => { f with cf := true }

/-- Conditions come in pairs, of which the odd one is the other one negated. -/
def archCond (f : Flags) (cond : Nat) : Bool :=
  let holds :=
    match cond / 2 with
    | 0 => f.of
    | 1 => f.cf
    | 2 => f.zf
    | 3 => f.cf || f.zf
    | 4 => f.sf
    | 5 => f.pf
    | 6 => f.sf != f.of
    | _ => (f.sf != f.of) || f.zf
  if 16 ≤ cond then false else holds ^^ decide (cond % 2 = 1)

/-- The undefined flags are those of `any`. -/
def archUnit (any : Flags) : AluUnit Flags where
  arith k size f s1 s2 :=
    let r := archArith k f (size.low s1) (size.low s2)
    (r.1, r.2.choose any)
  unary k size f s1 :=
    let r := archUnary k f (size.low s1)
    (r.1, r.2.choose any)
  shift k size f sh dr1 :=
    let r := archShift k f sh (size.low dr1)
    (r.1, r.2.choose any)
  setFlag := archSetFlag
  cond := archCond

/-! ## Arithmetic -/

section Arithmetic

variable {size : OpSize} {s1 s2 v : Word} {r : Rfl}

theorem low_add (size : OpSize) (s1 s2 : Word) :
    size.low (s1 + s2) = size.low s1 + size.low s2 :=
  BitVec.setWidth_add s1 s2 size.bits_le

theorem low_neg (size : OpSize) (s1 : Word) : size.low (-s1) = -size.low s1 :=
  BitVec.setWidth_neg_of_le size.bits_le

theorem low_sub (size : OpSize) (s1 s2 : Word) :
    size.low (s1 - s2) = size.low s1 - size.low s2 := by
  rw [BitVec.sub_eq_add_neg, low_add, low_neg, ← BitVec.sub_eq_add_neg]

theorem low_ofBool (size : OpSize) (c : Bool) :
    size.low (ofBool c) = (BitVec.ofBool c).setWidth size.bits := by
  cases size <;> cases c <;> rfl

theorem low_zero (size : OpSize) : size.low 0 = 0 :=
  BitVec.setWidth_zero _ _

theorem low_one (size : OpSize) : size.low 1 = 1 := by
  cases size <;> rfl

theorem low_addc (size : OpSize) (s1 s2 : Word) (c : Bool) :
    size.low (s1 + s2 + ofBool c) = addc (size.low s1) (size.low s2) c := by
  rw [low_add, low_add, low_ofBool]
  rfl

theorem low_subc (size : OpSize) (s1 s2 : Word) (c : Bool) :
    size.low (s1 - s2 - ofBool c) = subc (size.low s1) (size.low s2) c := by
  rw [low_sub, low_sub, low_ofBool]
  rfl

theorem add_ofBool_false (v : Word) : v + ofBool false = v :=
  BitVec.add_zero v

theorem sub_ofBool_false (v : Word) : v - ofBool false = v :=
  BitVec.sub_zero v

/-- A logical operation clears CF and OF and keeps AF. -/
theorem flags_logic (r : Rfl) (size : OpSize) (v : Word) :
    (logicRfl r size v).flags = (archLogic (size.low v)).2.choose r.flags := by
  have hmask : ∀ j < 32,
      (r.cout &&& lfMaskAF).getLsbD j = (r.cout.getLsbD j && decide (j = 3)) := by
    intro j hj
    rw [BitVec.getLsbD_and, getLsbD_lfMaskAF hj]
  unfold logicRfl Rfl.flags
  dsimp only
  rw [hmask 31 (by decide), hmask 30 (by decide), hmask 2 (by decide), hmask 3 (by decide),
    hmask 7 (by decide), size.signed_eq_zero, size.signed_sign, size.signed_byte]
  simp [archLogic, archResult, FlagsOut.choose]

/-- What the processor leaves undefined may be chosen to be as the simulator has it. -/
theorem choose_logic {f g : Flags} {x : BitVec size.bits}
    (h : g = (archLogic x).2.choose f) : (archLogic x).2.choose g = g := by
  rw [h]
  rfl

/-- One operation of the simulator gives what the processor gives. -/
theorem simArith_eq (k : Arith) (size : OpSize) (r : Rfl) (s1 s2 : Word) :
    (archUnit (simArith k size r s1 s2).2.flags).arith k size r.flags s1 s2 =
      ((simArith k size r s1 s2).1, (simArith k size r s1 s2).2.flags) := by
  cases k with
  | add =>
    have hv : size.low (s1 + s2) = addc (size.low s1) (size.low s2) false := by
      rw [← low_addc, add_ofBool_false]
    exact Prod.ext hv.symm (flags_add hv _).symm
  | adc =>
    have hv := low_addc size s1 s2 r.flags.cf
    rw [← isCfSet_eq] at hv
    exact Prod.ext hv.symm (flags_add hv _).symm
  | sub =>
    have hv : size.low (s1 - s2) = subc (size.low s1) (size.low s2) false := by
      rw [← low_subc, sub_ofBool_false]
    exact Prod.ext hv.symm (flags_sub hv _).symm
  | cmp =>
    have hv : size.low (s1 - s2) = subc (size.low s1) (size.low s2) false := by
      rw [← low_subc, sub_ofBool_false]
    exact Prod.ext hv.symm (flags_sub hv _).symm
  | sbb =>
    have hv := low_subc size s1 s2 r.flags.cf
    rw [← isCfSet_eq] at hv
    exact Prod.ext hv.symm (flags_sub hv _).symm
  | or =>
    have hv : size.low (s1 ||| s2) = size.low s1 ||| size.low s2 := BitVec.setWidth_or
    exact Prod.ext hv.symm (choose_logic (hv ▸ flags_logic r size (s1 ||| s2)))
  | and =>
    have hv : size.low (s1 &&& s2) = size.low s1 &&& size.low s2 := BitVec.setWidth_and
    exact Prod.ext hv.symm (choose_logic (hv ▸ flags_logic r size (s1 &&& s2)))
  | xor =>
    have hv : size.low (s1 ^^^ s2) = size.low s1 ^^^ size.low s2 := BitVec.setWidth_xor
    exact Prod.ext hv.symm (choose_logic (hv ▸ flags_logic r size (s1 ^^^ s2)))

theorem addc_zero_true (x : BitVec w) : addc x 0 true = x + 1 := by
  have hone : (BitVec.ofBool true).setWidth w = 1#w :=
    BitVec.setWidth_ofNat_one_eq_ofNat_one_of_lt Nat.one_pos
  unfold addc
  rw [hone]
  exact congrArg (· + 1#w) (BitVec.add_zero x)

theorem subc_zero_true (x : BitVec w) : subc x 0 true = x - 1 := by
  have hone : (BitVec.ofBool true).setWidth w = 1#w :=
    BitVec.setWidth_ofNat_one_eq_ofNat_one_of_lt Nat.one_pos
  unfold subc
  rw [hone]
  exact congrArg (· - 1#w) (BitVec.sub_zero x)

theorem archInc_eq (x : BitVec w) (f any : Flags) :
    { (archAdd x 0 true).2.choose any with cf := f.cf } = (archUnary .inc f x).2.choose any := by
  have haf : (16 ≤ x.toNat % 16 + (0 : BitVec w).toNat % 16 + true.toNat) ↔ x.toNat % 16 = 15 := by
    have hzero : (0 : BitVec w).toNat = 0 := Nat.zero_mod _
    rw [hzero, Bool.toNat_true]
    omega
  have hof : x.toInt + (0 : BitVec w).toInt + (true.toNat : Int) = x.toInt + 1 := by
    have hzero : (0 : BitVec w).toInt = 0 := BitVec.toInt_zero
    rw [hzero, Bool.toNat_true]
    omega
  unfold archAdd archUnary
  dsimp only
  rw [addc_zero_true, hof, decide_eq_decide.mpr haf]
  rfl

theorem archDec_eq (x : BitVec w) (f any : Flags) :
    { (archSub x 0 true).2.choose any with cf := f.cf } = (archUnary .dec f x).2.choose any := by
  have haf : (x.toNat % 16 < (0 : BitVec w).toNat % 16 + true.toNat) ↔ x.toNat % 16 = 0 := by
    have hzero : (0 : BitVec w).toNat = 0 := Nat.zero_mod _
    rw [hzero, Bool.toNat_true]
    omega
  have hof : x.toInt - (0 : BitVec w).toInt - (true.toNat : Int) = x.toInt - 1 := by
    have hzero : (0 : BitVec w).toInt = 0 := BitVec.toInt_zero
    rw [hzero, Bool.toNat_true]
    omega
  unfold archSub archUnary
  dsimp only
  rw [subc_zero_true, hof, decide_eq_decide.mpr haf]
  rfl

/-- SBB of a register with itself: the carry in all places -/
theorem archSbself_eq (size : OpSize) (x : BitVec size.bits) (c : Bool) :
    archSub x x c = (subc 0 0 c,
      archResult (subc (0 : BitVec size.bits) 0 c) (some c) (some c) (some false)) := by
  have hv : subc x x c = subc 0 0 c := by
    unfold subc
    rw [BitVec.sub_self]
    exact congrArg (· - (BitVec.ofBool c).setWidth size.bits) (BitVec.sub_self 0).symm
  have hcf : decide (x.toNat < x.toNat + c.toNat) = c := by
    cases c <;> simp
  have haf : decide (x.toNat % 16 < x.toNat % 16 + c.toNat) = c := by
    cases c <;> simp
  have hof : overflows size.bits (x.toInt - x.toInt - c.toNat) = false := by
    rw [Int.sub_self]
    cases size <;> cases c <;> rfl
  unfold archSub
  rw [hv, hcf, haf, hof]

theorem simUnary_eq (k : Unary) (size : OpSize) (r : Rfl) (s1 : Word)
    (hok : k = .sbself → r.flags.cf = false) :
    (archUnit (simUnary k size r s1).2.flags).unary k size r.flags s1 =
      ((simUnary k size r s1).1, (simUnary k size r s1).2.flags) := by
  cases k with
  | clear =>
    have hword : (simUnary .clear size r s1).2 = logicRfl r size 0 := by
      cases size <;> rfl
    have hxor : size.low s1 ^^^ size.low s1 = size.low 0 := by
      rw [BitVec.xor_self, low_zero]
      rfl
    refine Prod.ext hxor ?_
    rw [hword]
    exact choose_logic (hxor ▸ flags_logic r size 0)
  | test =>
    have hand : size.low s1 &&& size.low s1 = size.low s1 := BitVec.and_self
    exact Prod.ext hand (choose_logic (hand.symm ▸ flags_logic r size s1))
  | sbself =>
    have hword : simUnary .sbself size r s1 = (subc 0 0 false, { cout := 0, res := 0 }) := by
      unfold simUnary
      dsimp only
      rw [isCfSet_eq, hok rfl]
      cases size <;> rfl
    rw [hword]
    unfold archUnit archUnary
    dsimp only
    rw [archSbself_eq, hok rfl]
    cases size <;> rfl
  | inc =>
    have hv : size.low (s1 + 1) = addc (size.low s1) 0 true := by
      rw [low_add, addc_zero_true, low_one]
    refine Prod.ext (hv.trans (addc_zero_true _)).symm ?_
    exact (archInc_eq (size.low s1) r.flags _).symm.trans (flags_inc r hv _).symm
  | dec =>
    have hv : size.low (s1 - 1) = subc (size.low s1) 0 true := by
      rw [low_sub, subc_zero_true, low_one]
    refine Prod.ext (hv.trans (subc_zero_true _)).symm ?_
    exact (archDec_eq (size.low s1) r.flags _).symm.trans (flags_dec r hv _).symm
  | not => exact Prod.ext (BitVec.setWidth_not size.bits_le).symm rfl
  | neg =>
    have hv : size.low (-s1) = subc (size.low 0) (size.low s1) false := by
      have hsub := low_subc size 0 s1 false
      rw [sub_ofBool_false] at hsub
      rw [← hsub]
      exact congrArg size.low (BitVec.zero_sub s1).symm
    have hflags := flags_sub hv (simUnary .neg size r s1).2.flags
    rw [low_zero] at hv hflags
    exact Prod.ext hv.symm hflags.symm

end Arithmetic

/-! ## Shifts and rotations -/

section Shifts

variable {size : OpSize} {r : Rfl} {sh j : Nat} {dr1 : Word}

/-- A rotation that sets CF, and OF for a count of 1, does what the processor does. -/
theorem choose_rotated {f g : Flags} {cf of cf' of' : Bool} (hg : g = { f with cf := cf, of := of })
    (hcf : cf = cf') (hof : sh = 1 → of = of') : (archRotated f sh cf' of').choose g = g := by
  rw [hg, hcf]
  unfold archRotated FlagsOut.choose keep
  dsimp only [Option.getD_some]
  split_ifs with hone
  · rw [hof hone]
    rfl
  · rfl

/-- A shift of the simulator that sets CF and OF where the processor defines them does what the
processor does. -/
theorem choose_shifted {raft : Word} {v : BitVec size.bits} {cy : Bool} {cout : Word}
    {wordsize : OpSize} {cf' of' : Option Bool} (hraft : size.low raft = v)
    (hcf : ∀ b ∈ cf', cy = b)
    (hof : ∀ b ∈ of', sh = 1 ∧
      (cout.getLsbD (wordsize.bits - 1) ^^ cout.getLsbD (wordsize.bits - 2)) = b) :
    (archResult v cf' none of').choose
        (flagHandleShift r sh cy cout wordsize (size.signed raft)).flags =
      (flagHandleShift r sh cy cout wordsize (size.signed raft)).flags := by
  rw [flags_shift, hraft]
  unfold archResult FlagsOut.choose
  dsimp only [Option.getD_some, Option.getD_none]
  have hcf' : cf'.getD cy = cy := by
    cases cf' with
    | none => rfl
    | some b => exact (hcf b rfl).symm
  rw [hcf']
  cases of' with
  | none => rfl
  | some b =>
    obtain ⟨hone, hb⟩ := hof b rfl
    rw [if_pos hone, hb]
    rfl

/-- Where a flag is defined under a condition only -/
theorem forall_mem_ite {p : Prop} [Decidable p] {b : Bool} {q : Bool → Prop} (h : p → q b) :
    ∀ c ∈ (if p then some b else none), q c := by
  intro c hc
  by_cases hp : p
  · rw [if_pos hp] at hc
    cases hc
    exact h hp
  · rw [if_neg hp] at hc
    cases hc

/-- ROL of the zero-extended operand -/
theorem getLsbD_rol (size : OpSize) (dr1 : Word) (sh j : Nat) (hj : j < size.bits) :
    ((size.part dr1 <<< (sh % size.bits)) |||
      (size.part dr1 >>> (size.bits - sh % size.bits))).getLsbD j =
      ((size.low dr1).rotateLeft sh).getLsbD j := by
  have hbits := size.bits_le
  have hmod : sh % size.bits < size.bits := Nat.mod_lt _ (by omega)
  rw [BitVec.getLsbD_rotateLeft, BitVec.getLsbD_or, BitVec.getLsbD_shiftLeft,
    BitVec.getLsbD_ushiftRight, size.getLsbD_part_low, size.getLsbD_part_low,
    decide_eq_true (show j < 32 by omega), Bool.true_and, decide_eq_true hj, Bool.true_and]
  by_cases hlow : j < sh % size.bits
  · rw [decide_eq_true hlow]
    simp
  · rw [decide_eq_false hlow, BitVec.getLsbD_of_ge (size.low dr1) (size.bits - _ + j) (by omega)]
    simp

theorem getLsbD_ror (size : OpSize) (dr1 : Word) (sh j : Nat) (hj : j < size.bits) :
    ((size.part dr1 >>> (sh % size.bits)) |||
      (size.part dr1 <<< (size.bits - sh % size.bits))).getLsbD j =
      ((size.low dr1).rotateRight sh).getLsbD j := by
  have hbits := size.bits_le
  have hmod : sh % size.bits < size.bits := Nat.mod_lt _ (by omega)
  rw [BitVec.getLsbD_rotateRight, BitVec.getLsbD_or, BitVec.getLsbD_shiftLeft,
    BitVec.getLsbD_ushiftRight, size.getLsbD_part_low, size.getLsbD_part_low,
    decide_eq_true (show j < 32 by omega), Bool.true_and, decide_eq_true hj, Bool.true_and]
  by_cases hlow : j < size.bits - sh % size.bits
  · rw [decide_eq_true hlow]
    simp
  · rw [decide_eq_false hlow, BitVec.getLsbD_of_ge (size.low dr1) (sh % size.bits + j) (by omega)]
    simp

/-- RCL, where the carry comes in below what is shifted out -/
theorem getLsbD_rcl (size : OpSize) (dr1 : Word) (cf : Bool) (sh : Nat)
    (hsh : sh % (size.bits + 1) ≠ 0) (j : Nat) (hj : j < size.bits) :
    ((size.part dr1 <<< (sh % (size.bits + 1))) |||
      (size.part dr1 >>> (size.bits + 1 - sh % (size.bits + 1))) |||
      (ofBool cf <<< (sh % (size.bits + 1) - 1))).getLsbD j =
      ((BitVec.cons cf (size.low dr1)).rotateLeft sh).getLsbD j := by
  have hbits := size.bits_le
  have hmod : sh % (size.bits + 1) < size.bits + 1 := Nat.mod_lt _ (Nat.succ_pos _)
  rw [BitVec.getLsbD_rotateLeft, BitVec.getLsbD_or, BitVec.getLsbD_or, BitVec.getLsbD_shiftLeft,
    BitVec.getLsbD_ushiftRight, BitVec.getLsbD_shiftLeft, size.getLsbD_part_low,
    size.getLsbD_part_low, ofBool_getLsbD, decide_eq_true (show j < 32 by omega), Bool.true_and,
    Bool.true_and, decide_eq_true (show j < size.bits + 1 by omega), Bool.true_and,
    BitVec.getLsbD_cons, BitVec.getLsbD_cons]
  generalize sh % (size.bits + 1) = m at *
  by_cases hlow : j < m
  · rw [decide_eq_true hlow]
    by_cases htop : j = m - 1
    · have hcarry : size.bits + 1 - m + j = size.bits := by omega
      rw [BitVec.getLsbD_of_ge (size.low dr1) (size.bits + 1 - m + j) hcarry.ge]
      simp [htop]
      omega
    · have hne : size.bits + 1 - m + j ≠ size.bits := by omega
      have hin : j < m - 1 := by omega
      simp [hne, hin]
  · rw [decide_eq_false hlow,
      BitVec.getLsbD_of_ge (size.low dr1) (size.bits + 1 - m + j) (by omega)]
    have hne : j - m ≠ size.bits := by omega
    have hout : j - (m - 1) ≠ 0 := by omega
    simp [hne, hout]

theorem getLsbD_rcr (size : OpSize) (dr1 : Word) (cf : Bool) (sh j : Nat) (hj : j < size.bits) :
    ((size.part dr1 >>> (sh % (size.bits + 1))) |||
      (size.part dr1 <<< (size.bits + 1 - sh % (size.bits + 1))) |||
      (ofBool cf <<< (size.bits - sh % (size.bits + 1)))).getLsbD j =
      ((BitVec.cons cf (size.low dr1)).rotateRight sh).getLsbD j := by
  have hbits := size.bits_le
  have hmod : sh % (size.bits + 1) < size.bits + 1 := Nat.mod_lt _ (Nat.succ_pos _)
  rw [BitVec.getLsbD_rotateRight, BitVec.getLsbD_or, BitVec.getLsbD_or, BitVec.getLsbD_shiftLeft,
    BitVec.getLsbD_ushiftRight, BitVec.getLsbD_shiftLeft, size.getLsbD_part_low,
    size.getLsbD_part_low, ofBool_getLsbD, decide_eq_true (show j < 32 by omega), Bool.true_and,
    Bool.true_and, decide_eq_true (show j < size.bits + 1 by omega), Bool.true_and,
    BitVec.getLsbD_cons, BitVec.getLsbD_cons]
  generalize sh % (size.bits + 1) = m at *
  by_cases hlow : j < size.bits + 1 - m
  · rw [decide_eq_true hlow]
    by_cases htop : m + j = size.bits
    · have hzero : j - (size.bits - m) = 0 := by omega
      have hge : ¬j < size.bits - m := by omega
      rw [BitVec.getLsbD_of_ge (size.low dr1) (m + j) htop.ge]
      simp [htop, hzero, hge]
    · have hin : j < size.bits - m := by omega
      simp [htop, hin]
  · rw [decide_eq_false hlow, BitVec.getLsbD_of_ge (size.low dr1) (m + j) (by omega)]
    have hne : j - (size.bits + 1 - m) ≠ size.bits := by omega
    have hout : j - (size.bits - m) ≠ 0 := by omega
    simp [hne, hout]

theorem eq_low {size : OpSize} {v : Word} {x : BitVec size.bits}
    (h : ∀ j, j < size.bits → v.getLsbD j = x.getLsbD j) : size.low v = x := by
  apply BitVec.eq_of_getLsbD_eq
  intro j hj
  rw [size.getLsbD_low v hj, h j hj]

theorem msb_eq (size : OpSize) (x : BitVec size.bits) : x.msb = x.getLsbD (size.bits - 1) :=
  BitVec.msb_eq_getLsbD_last x

/-- A rotation by one moves each bit up, and the top one to the bottom. -/
theorem rotateLeft_one {w : Nat} (x : BitVec w) (hw : 1 < w) (hj : j + 1 < w) :
    (x.rotateLeft 1).getLsbD (j + 1) = x.getLsbD j ∧
      (x.rotateLeft 1).getLsbD 0 = x.getLsbD (w - 1) := by
  have hmod : 1 % w = 1 := Nat.mod_eq_of_lt hw
  constructor
  · rw [BitVec.getLsbD_rotateLeft, hmod, decide_eq_false (by omega), cond_false,
      decide_eq_true hj, Bool.true_and, Nat.add_sub_cancel]
  · rw [BitVec.getLsbD_rotateLeft, hmod, decide_eq_true Nat.one_pos, cond_true, Nat.add_zero]

/-- A count of zero changes nothing. -/
theorem simShift_zero (k : Shift) (size : OpSize) (r : Rfl) (dr1 : Word) :
    (archUnit (simShift k size r 0 dr1).2.flags).shift k size r.flags 0 dr1 =
      ((simShift k size r 0 dr1).1, (simShift k size r 0 dr1).2.flags) := by
  rfl

theorem simShift_rol (size : OpSize) (r : Rfl) (sh : Nat) (dr1 : Word) (hzero : sh ≠ 0) :
    (archUnit (simShift .rol size r sh dr1).2.flags).shift .rol size r.flags sh dr1 =
      ((simShift .rol size r sh dr1).1, (simShift .rol size r sh dr1).2.flags) := by
  have hbits := size.le_bits
  have hraft := getLsbD_rol size dr1 sh
  unfold simShift archUnit archShift
  dsimp only
  rw [if_neg hzero, if_neg hzero]
  dsimp only
  refine Prod.ext (eq_low hraft).symm (choose_rotated (flags_rotate _ _ _ _ _)
    (hraft _ (by omega)) ?_)
  intro hone
  obtain ⟨htop, hlow⟩ := rotateLeft_one (size.low dr1) (by omega)
    (show size.bits - 2 + 1 < size.bits by omega)
  have hmod : 1 % size.bits = 1 := Nat.mod_eq_of_lt (by omega)
  rw [hone, hmod, if_pos rfl, size.getLsbD_part_low, size.getLsbD_part_low, msb_eq, hlow,
    show size.bits - 1 = size.bits - 2 + 1 by omega, htop, Bool.xor_comm]

theorem simShift_ror (size : OpSize) (r : Rfl) (sh : Nat) (dr1 : Word) (hzero : sh ≠ 0) :
    (archUnit (simShift .ror size r sh dr1).2.flags).shift .ror size r.flags sh dr1 =
      ((simShift .ror size r sh dr1).1, (simShift .ror size r sh dr1).2.flags) := by
  have hbits := size.le_bits
  have hraft := getLsbD_ror size dr1 sh
  unfold simShift archUnit archShift
  dsimp only
  rw [if_neg hzero, if_neg hzero]
  dsimp only
  refine Prod.ext (eq_low hraft).symm (choose_rotated (flags_rotate _ _ _ _ _)
    ((hraft _ (by omega)).trans (msb_eq _ _).symm) ?_)
  intro hone
  have hmod : sh % size.bits = 1 := by
    rw [hone]
    exact Nat.mod_eq_of_lt (by omega)
  rw [if_pos hmod, hraft _ (by omega), hraft _ (by omega), msb_eq]

/-- The operand of a rotation through the carry -/
theorem getLsbD_carried {w : Nat} (v : BitVec (w + 1)) (hj : j < w) :
    (v.setWidth w).getLsbD j = v.getLsbD j := by
  rw [BitVec.getLsbD_setWidth, decide_eq_true hj, Bool.true_and]

theorem simShift_rcl (size : OpSize) (r : Rfl) (sh : Nat) (dr1 : Word) (hzero : sh ≠ 0) :
    (archUnit (simShift .rcl size r sh dr1).2.flags).shift .rcl size r.flags sh dr1 =
      ((simShift .rcl size r sh dr1).1, (simShift .rcl size r sh dr1).2.flags) := by
  have hbits := size.le_bits
  have hmsb : ∀ v : BitVec (size.bits + 1), v.msb = v.getLsbD size.bits := fun v =>
    BitVec.msb_eq_getLsbD_last v
  unfold simShift archUnit archShift
  dsimp only
  rw [if_neg hzero, if_neg hzero, isCfSet_eq]
  dsimp only
  by_cases hturn : sh % (size.bits + 1) = 0
  · have hself : (BitVec.cons r.flags.cf (size.low dr1)).rotateLeft sh =
        BitVec.cons r.flags.cf (size.low dr1) := by
      apply BitVec.eq_of_getLsbD_eq
      intro j hj
      rw [BitVec.getLsbD_rotateLeft, hturn, decide_eq_false (Nat.not_lt_zero j), cond_false,
        decide_eq_true hj, Bool.true_and, Nat.sub_zero]
    rw [if_pos hturn, hself]
    have hsame : r.flags = { r.flags with cf := r.flags.cf, of := r.flags.of } := rfl
    refine Prod.ext BitVec.setWidth_cons (choose_rotated hsame BitVec.msb_cons.symm ?_)
    intro hone
    rw [hone, Nat.mod_eq_of_lt (by omega)] at hturn
    cases hturn
  · rw [if_neg hturn]
    have hraft := getLsbD_rcl size dr1 r.flags.cf sh hturn
    have hmod : sh % (size.bits + 1) < size.bits + 1 := Nat.mod_lt _ (Nat.succ_pos _)
    have hout : (size.part dr1).getLsbD (size.bits - sh % (size.bits + 1)) =
        ((BitVec.cons r.flags.cf (size.low dr1)).rotateLeft sh).msb := by
      rw [hmsb, BitVec.getLsbD_rotateLeft, decide_eq_false (by omega), cond_false,
        decide_eq_true (Nat.lt_succ_self _), Bool.true_and, BitVec.getLsbD_cons,
        if_neg (by omega), size.getLsbD_part_low]
    refine Prod.ext (eq_low fun j hj => (hraft j hj).trans (getLsbD_carried _ hj).symm).symm
      (choose_rotated (flags_rotate _ _ _ _ _) hout ?_)
    intro hone
    obtain ⟨htop, -⟩ := rotateLeft_one (BitVec.cons r.flags.cf (size.low dr1)) (by omega)
      (show size.bits - 2 + 1 < size.bits + 1 by omega)
    have hmod : 1 % (size.bits + 1) = 1 := Nat.mod_eq_of_lt (by omega)
    rw [hone] at hout ⊢
    rw [hmod] at hout ⊢
    rw [if_pos rfl, ← hout, size.getLsbD_part_low (j := size.bits - 2), msb_eq,
      getLsbD_carried _ (by omega), show size.bits - 1 = size.bits - 2 + 1 by omega, htop,
      BitVec.getLsbD_cons, if_neg (by omega), Bool.xor_comm]

theorem simShift_rcr (size : OpSize) (r : Rfl) (sh : Nat) (dr1 : Word) (hzero : sh ≠ 0) :
    (archUnit (simShift .rcr size r sh dr1).2.flags).shift .rcr size r.flags sh dr1 =
      ((simShift .rcr size r sh dr1).1, (simShift .rcr size r sh dr1).2.flags) := by
  have hbits := size.le_bits
  have hraft := getLsbD_rcr size dr1 r.flags.cf sh
  unfold simShift archUnit archShift
  dsimp only
  rw [if_neg hzero, if_neg hzero, isCfSet_eq]
  dsimp only
  refine Prod.ext (eq_low fun j hj => (hraft j hj).trans (getLsbD_carried _ hj).symm).symm
    (choose_rotated (flags_rotate _ _ _ _ _) ?_ ?_)
  · have hmod : sh % (size.bits + 1) < size.bits + 1 := Nat.mod_lt _ (Nat.succ_pos _)
    have htop := BitVec.msb_eq_getLsbD_last
      ((BitVec.cons r.flags.cf (size.low dr1)).rotateRight sh)
    rw [Nat.add_sub_cancel, BitVec.getLsbD_rotateRight] at htop
    rw [htop]
    by_cases hturn : sh % (size.bits + 1) = 0
    · rw [if_neg (not_not.mpr hturn), hturn, decide_eq_true (by omega), cond_true, Nat.zero_add,
        BitVec.getLsbD_cons, if_pos rfl, ofBool_getLsbD]
      rfl
    · rw [if_pos hturn, decide_eq_false (by omega), cond_false,
        decide_eq_true (Nat.lt_succ_self _), Bool.true_and, BitVec.getLsbD_cons,
        if_neg (by omega), size.getLsbD_part_low,
        show size.bits - (size.bits + 1 - sh % (size.bits + 1)) = sh % (size.bits + 1) - 1 by omega]
  · intro hone
    have hmod : sh % (size.bits + 1) = 1 := by
      rw [hone]
      exact Nat.mod_eq_of_lt (by omega)
    rw [if_pos hmod, hraft _ (by omega), hraft _ (by omega), msb_eq, getLsbD_carried _ (by omega)]

theorem simShift_shl (size : OpSize) (r : Rfl) (sh : Nat) (dr1 : Word) (hzero : sh ≠ 0) :
    (archUnit (simShift .shl size r sh dr1).2.flags).shift .shl size r.flags sh dr1 =
      ((simShift .shl size r sh dr1).1, (simShift .shl size r sh dr1).2.flags) := by
  have hbits := size.le_bits
  have hle := size.bits_le
  have hraft : size.low (size.part dr1 <<< sh) = size.low dr1 <<< sh := by
    refine eq_low ?_
    intro j hj
    rw [BitVec.getLsbD_shiftLeft, BitVec.getLsbD_shiftLeft, size.getLsbD_part_low,
      decide_eq_true hj, decide_eq_true (hj.trans_le hle)]
  unfold simShift archUnit archShift archShifted
  dsimp only
  rw [if_neg hzero, if_neg hzero]
  dsimp only
  refine Prod.ext hraft.symm (choose_shifted hraft (forall_mem_ite fun hsh => ?_)
    (forall_mem_ite fun hone => ⟨hone, ?_⟩))
  · have hout : ∀ n, n = size.bits → n < 32 →
        (size.part dr1 <<< sh).getLsbD n = (size.low dr1).getLsbD (size.bits - sh) := by
      rintro n rfl hn
      rw [BitVec.getLsbD_shiftLeft, decide_eq_true hn, decide_eq_false (Nat.not_lt.mpr hsh),
        size.getLsbD_part_low]
      rfl
    cases size with
    | byte => exact hout 8 rfl (by decide)
    | word => exact hout 16 rfl (by decide)
    | dword => exact OpSize.dword.getLsbD_part_low dr1 _
  · have htop : (size.low dr1 <<< sh).msb = (size.low dr1).getLsbD (size.bits - 2) := by
      rw [msb_eq, hone, BitVec.getLsbD_shiftLeft, decide_eq_true (by omega),
        decide_eq_false (by omega)]
      rfl
    rw [htop, size.getLsbD_part_low, size.getLsbD_part_low, hone, Bool.xor_comm]

theorem simShift_shr (size : OpSize) (r : Rfl) (sh : Nat) (dr1 : Word) (hzero : sh ≠ 0) :
    (archUnit (simShift .shr size r sh dr1).2.flags).shift .shr size r.flags sh dr1 =
      ((simShift .shr size r sh dr1).1, (simShift .shr size r sh dr1).2.flags) := by
  have hbits := size.le_bits
  have hraft : size.low (size.part dr1 >>> sh) = size.low dr1 >>> sh := by
    refine eq_low ?_
    intro j hj
    rw [BitVec.getLsbD_ushiftRight, BitVec.getLsbD_ushiftRight, size.getLsbD_part_low]
  unfold simShift archUnit archShift archShifted
  dsimp only
  rw [if_neg hzero, if_neg hzero]
  dsimp only
  refine Prod.ext hraft.symm (choose_shifted hraft
    (forall_mem_ite fun _ => size.getLsbD_part_low dr1 _)
    (forall_mem_ite fun hone => ⟨hone, ?_⟩))
  rw [hone, BitVec.getLsbD_ushiftRight, BitVec.getLsbD_ushiftRight, size.getLsbD_part_low,
    size.getLsbD_part_low, BitVec.getLsbD_of_ge _ _ (by omega), Bool.false_xor, msb_eq,
    show 1 + (size.bits - 2) = size.bits - 1 by omega]

/-- SAR of the sign-extended operand.  For doublewords OF is that of bits 15 and 14 of the
result. -/
theorem simShift_sar (size : OpSize) (r : Rfl) (sh : Nat) (dr1 : Word) (hzero : sh ≠ 0)
    (hlt : sh < 32)
    (hok : size = .dword → sh = 1 → dr1.getLsbD 16 = dr1.getLsbD 15) :
    (archUnit (simShift .sar size r sh dr1).2.flags).shift .sar size r.flags sh dr1 =
      ((simShift .sar size r sh dr1).1, (simShift .sar size r sh dr1).2.flags) := by
  have hbits := size.le_bits
  have hle := size.bits_le
  have hsign : (size.signed dr1).msb = (size.low dr1).msb := by
    rw [BitVec.msb_eq_getLsbD_last]
    exact size.signed_sign dr1
  have hbit : ∀ n j, n + j < 32 → ((size.signed dr1).sshiftRight n).getLsbD j =
      if n + j < size.bits then (size.low dr1).getLsbD (n + j) else (size.low dr1).msb := by
    intro n j hj
    rw [BitVec.getLsbD_sshiftRight, decide_eq_false (by omega), if_pos hj,
      size.getLsbD_signed dr1 hj]
    split
    next hin =>
      rw [size.getLsbD_low dr1 hin]
      rfl
    next => rfl
  have hraft : size.low ((size.signed dr1).sshiftRight sh) = (size.low dr1).sshiftRight sh := by
    refine eq_low ?_
    intro j hj
    rw [BitVec.getLsbD_sshiftRight (size.low dr1), decide_eq_false (Nat.not_le.mpr hj)]
    by_cases hin : sh + j < 32
    · rw [hbit sh j hin]
      rfl
    · rw [BitVec.getLsbD_sshiftRight, decide_eq_false (by omega), if_neg hin, if_neg (by omega),
        hsign]
  unfold simShift archUnit archShift
  dsimp only
  rw [if_neg hzero, if_neg hzero]
  dsimp only
  refine Prod.ext hraft.symm (choose_shifted hraft ?_ (forall_mem_ite fun hone => ⟨hone, ?_⟩))
  · intro b hb
    cases hb
    rw [hbit _ _ (by omega), BitVec.getLsbD_sshiftRight, decide_eq_false (by omega)]
    rfl
  · rw [hone]
    cases size with
    | byte =>
      change (((OpSize.byte.signed dr1).sshiftRight 1).getLsbD 7 ^^
        ((OpSize.byte.signed dr1).sshiftRight 1).getLsbD 6) = false
      rw [hbit 1 7 (by decide), hbit 1 6 (by decide), msb_eq]
      exact Bool.xor_self _
    | word =>
      change (((OpSize.word.signed dr1).sshiftRight 1).getLsbD 15 ^^
        ((OpSize.word.signed dr1).sshiftRight 1).getLsbD 14) = false
      rw [hbit 1 15 (by decide), hbit 1 14 (by decide), msb_eq]
      exact Bool.xor_self _
    | dword =>
      change (((OpSize.dword.signed dr1).sshiftRight 1).getLsbD 15 ^^
        ((OpSize.dword.signed dr1).sshiftRight 1).getLsbD 14) = false
      rw [hbit 1 15 (by decide), hbit 1 14 (by decide), if_pos (by decide), if_pos (by decide),
        OpSize.dword.getLsbD_low dr1 (by decide), OpSize.dword.getLsbD_low dr1 (by decide),
        hok rfl hone]
      exact Bool.xor_self _

/-- One shift or rotation of the simulator gives what the processor gives. -/
theorem simShift_eq (k : Shift) (size : OpSize) (r : Rfl) (sh : Nat) (dr1 : Word) (hlt : sh < 32)
    (hok : k = .sar → size = .dword → sh = 1 → dr1.getLsbD 16 = dr1.getLsbD 15) :
    (archUnit (simShift k size r sh dr1).2.flags).shift k size r.flags sh dr1 =
      ((simShift k size r sh dr1).1, (simShift k size r sh dr1).2.flags) := by
  by_cases hzero : sh = 0
  · rw [hzero]
    exact simShift_zero k size r dr1
  · cases k with
    | rol => exact simShift_rol size r sh dr1 hzero
    | rcl => exact simShift_rcl size r sh dr1 hzero
    | shl => exact simShift_shl size r sh dr1 hzero
    | ror => exact simShift_ror size r sh dr1 hzero
    | rcr => exact simShift_rcr size r sh dr1 hzero
    | shr => exact simShift_shr size r sh dr1 hzero
    | sar => exact simShift_sar size r sh dr1 hzero hlt (hok rfl)

end Shifts

/-! ## CF and the conditions -/

theorem simSetFlag_eq (k : SetFlag) (r : Rfl) :
    archSetFlag k r.flags = (simSetFlag k r).flags := by
  have hflip : ∀ j < 32, (lfMaskCF ||| lfMaskPO).getLsbD j =
      (decide (j = 30) || decide (j = 31)) := by
    decide
  cases k with
  | cmc =>
    unfold archSetFlag simSetFlag Rfl.flags
    simp only [BitVec.getLsbD_xor, hflip _ (show 31 < 32 by decide),
      hflip _ (show 30 < 32 by decide), hflip _ (show 2 < 32 by decide),
      hflip _ (show 3 < 32 by decide), hflip _ (show 7 < 32 by decide)]
    simp
  | clc => exact (flags_setCf r false).symm
  | stc => exact (flags_setCf r true).symm

theorem simCond_eq (r : Rfl) (cond : Nat) : archCond r.flags cond = simCond r cond := by
  have hof : (isOfSet r != 0) = r.flags.of := by
    rw [isOfSet_eq]
    cases r.flags.of <;> rfl
  have hcf : (isCfSet r != 0) = r.flags.cf := by
    rw [isCfSet_eq]
    cases r.flags.cf <;> rfl
  have hsf : (flagSyncS r != 0) = r.flags.sf := by
    rw [flagSyncS_eq]
    cases r.flags.sf <;> rfl
  have hpf : (flagSyncP r != 0) = r.flags.pf := by
    rw [flagSyncP_eq]
    cases r.flags.pf <;> rfl
  have hzf : isZfSet r = r.flags.zf := rfl
  unfold simCond archCond
  rw [hof, hcf, hsf, hpf, hzf]
  by_cases hlt : cond < 16
  · interval_cases cond <;> simp
  · obtain ⟨n, rfl⟩ := Nat.exists_eq_add_of_le (Nat.not_lt.mp hlt)
    rw [if_pos (Nat.le_add_right 16 n), Nat.add_comm]
    rfl

/-! ## Runs -/

/-- The state with the flags that its two words stand for -/
def Machine.decode (s : Machine Rfl) : Machine Flags :=
  { s with flags := s.flags.flags }

/-- The instructions that give the flags that the processor gives: all but SBB of a register with
itself while CF is set, and a 32-bit SAR by one that bits 16 and 15 differ in. -/
def Exact (l : Layout) (s : Machine Rfl) : Op → Prop
  | .unaryR .sbself _ _ => s.flags.flags.cf = false
  | .unary .sbself _ => s.flags.flags.cf = false
  | .shift .sar .dword imm =>
    (imm.getD (cpuRead s.cpu .byte l.ecx) &&& 31#32).toNat = 1 →
      s.dr1.getLsbD 16 = s.dr1.getLsbD 15
  | _ => True

variable {l : Layout} {s : Machine Rfl}

@[simp] theorem Machine.decode_cpu (s : Machine Rfl) : s.decode.cpu = s.cpu := rfl

@[simp] theorem Machine.decode_dr1 (s : Machine Rfl) : s.decode.dr1 = s.dr1 := rfl

/-- The unit of the simulator as a unit of the processor, for the flags that it leaves -/
theorem arith_decode (k : Arith) (size : OpSize) (s1 s2 : Word) {any : Flags}
    (hany : any = (simArith k size s.flags s1 s2).2.flags) :
    (archUnit any).arith k size s.decode.flags s1 s2 =
      ((simUnit.arith k size s.flags s1 s2).1, (simUnit.arith k size s.flags s1 s2).2.flags) := by
  rw [hany]
  exact simArith_eq k size s.flags s1 s2

theorem unary_decode (k : Unary) (size : OpSize) (s1 : Word) {any : Flags}
    (hany : any = (simUnary k size s.flags s1).2.flags)
    (hok : k = .sbself → s.flags.flags.cf = false) :
    (archUnit any).unary k size s.decode.flags s1 =
      ((simUnit.unary k size s.flags s1).1, (simUnit.unary k size s.flags s1).2.flags) := by
  rw [hany]
  exact simUnary_eq k size s.flags s1 hok

/-- One instruction does what the processor does, for some choice of what is undefined. -/
theorem exec_decode (op : Op) (hok : Exact l s op) :
    ∃ any, exec (archUnit any) l s.decode op = (exec simUnit l s op).decode := by
  refine ⟨(exec simUnit l s op).flags.flags, ?_⟩
  generalize hany : (exec simUnit l s op).flags.flags = any
  cases op with
  | arithR k size src =>
    unfold exec
    dsimp only [Machine.decode_cpu, Machine.decode_dr1]
    rw [arith_decode k size _ _ hany.symm]
    rfl
  | arithFR k size o imm =>
    unfold exec
    dsimp only [Machine.decode_cpu, Machine.decode_dr1]
    rw [arith_decode k size _ _ hany.symm]
    rfl
  | unaryR k size o =>
    unfold exec
    dsimp only [Machine.decode_cpu, Machine.decode_dr1]
    rw [unary_decode k size _ hany.symm (fun hk => by subst hk; exact hok)]
    rfl
  | unary k size =>
    unfold exec
    dsimp only [Machine.decode_cpu, Machine.decode_dr1]
    rw [unary_decode k size _ hany.symm (fun hk => by subst hk; exact hok)]
    rfl
  | cmpxchg size o =>
    have hcmp : (exec simUnit l s (.cmpxchg size o)).flags =
        (simArith .cmp size s.flags (cpuRead s.cpu size l.eax) (size.part s.dr1)).2 := by
      unfold exec
      dsimp only
      split <;> rfl
    rw [hcmp] at hany
    unfold exec
    dsimp only [Machine.decode_cpu, Machine.decode_dr1]
    rw [arith_decode .cmp size _ _ hany.symm]
    dsimp only
    rw [show (archUnit any).cond = archCond from rfl, simCond_eq]
    rw [apply_ite Machine.decode]
    rfl
  | shift k size imm =>
    have hlt : (imm.getD (cpuRead s.cpu .byte l.ecx) &&& 31#32).toNat < 32 := by
      rw [BitVec.toNat_and]
      exact Nat.lt_succ_of_le Nat.and_le_right
    have heq := simShift_eq k size s.flags _ s.dr1 hlt (fun hk hsize => by
      subst hk hsize
      exact hok)
    unfold exec
    dsimp only
    rw [← hany]
    exact congrArg (fun r : BitVec size.bits × Flags =>
      { s with dr1 := size.setPart s.dr1 (r.1.setWidth 32), flags := r.2 }) heq
  | setFlag k =>
    exact congrArg (fun f => { s with flags := f }) (simSetFlag_eq k s.flags)
  | setcc cond =>
    exact congrArg (fun c => { s with
      dr1 := OpSize.byte.setPart s.dr1 (ofBool c), flags := s.flags.flags })
      (simCond_eq s.flags cond)

theorem sbself_of (size : OpSize) (r : Rfl) (s1 : Word) (any : Flags) (hcf : r.flags.cf = true) :
    ((archUnit any).unary .sbself size r.flags s1).2.of = false ∧
      (simUnary .sbself size r s1).2.flags.of = true := by
  constructor
  · unfold archUnit archUnary
    dsimp only
    rw [archSbself_eq]
    rfl
  · unfold simUnary
    dsimp only
    rw [isCfSet_eq, hcf, if_pos (by decide)]
    unfold Rfl.flags
    dsimp only
    decide

theorem sar_of (r : Rfl) (dr1 : Word) (any : Flags) :
    ((archUnit any).shift .sar .dword r.flags 1 dr1).2.of = false ∧
      (simShift .sar .dword r 1 dr1).2.flags.of = (dr1.getLsbD 16 ^^ dr1.getLsbD 15) := by
  refine ⟨rfl, ?_⟩
  unfold simShift
  rw [if_neg Nat.one_ne_zero]
  dsimp only
  rw [flags_shift, if_pos rfl]
  change ((dr1.sshiftRight 1).getLsbD 15 ^^ (dr1.sshiftRight 1).getLsbD 14) = _
  rw [BitVec.getLsbD_sshiftRight, BitVec.getLsbD_sshiftRight]
  rfl

/-- The instructions that are not exact leave an OF that the processor never leaves. -/
theorem exec_decode_iff (l : Layout) (s : Machine Rfl) (op : Op) :
    (∃ any, exec (archUnit any) l s.decode op = (exec simUnit l s op).decode) ↔ Exact l s op := by
  refine ⟨?_, exec_decode op⟩
  rintro ⟨any, hexec⟩
  have hof : (exec (archUnit any) l s.decode op).flags.of = (exec simUnit l s op).flags.flags.of :=
    congrArg (fun s' => s'.flags.of) hexec
  have hsbself : ∀ size s1, ((archUnit any).unary .sbself size s.flags.flags s1).2.of =
      (simUnary .sbself size s.flags s1).2.flags.of → s.flags.flags.cf = false := by
    intro size s1 heq
    apply Bool.eq_false_of_not_eq_true
    intro hcf
    obtain ⟨harch, hsim⟩ := sbself_of size s.flags s1 any hcf
    rw [harch, hsim] at heq
    cases heq
  cases op with
  | unaryR k size o =>
    cases k with
    | sbself => exact hsbself size _ hof
    | _ => exact trivial
  | unary k size =>
    cases k with
    | sbself => exact hsbself size _ hof
    | _ => exact trivial
  | shift k size imm =>
    cases k with
    | sar =>
      cases size with
      | dword =>
        intro hone
        unfold exec at hof
        dsimp only [Machine.decode_cpu, Machine.decode_dr1] at hof
        rw [hone] at hof
        obtain ⟨harch, hsim⟩ := sar_of s.flags s.dr1 any
        have hsame := harch.symm.trans (hof.trans hsim)
        revert hsame
        cases s.dr1.getLsbD 16 <;> cases s.dr1.getLsbD 15 <;> simp
      | _ => exact trivial
    | _ => exact trivial
  | _ => exact trivial

/-- A run of instructions -/
def simRun (l : Layout) (s : Machine Rfl) (ops : List Op) : Machine Rfl :=
  ops.foldl (exec simUnit l) s

/-- A run of the processor, with what is left undefined at each instruction -/
def archRun (l : Layout) (s : Machine Flags) (ops : List (Op × Flags)) : Machine Flags :=
  ops.foldl (fun s op => exec (archUnit op.2) l s op.1) s

/-- Every instruction of a run is exact in the state it finds. -/
def ExactRun (l : Layout) : Machine Rfl → List Op → Prop
  | _, [] => True
  | s, op :: ops => Exact l s op ∧ ExactRun l (exec simUnit l s op) ops

/-- A run of the simulator leaves the registers, the working register and EFLAGS that the
processor leaves, for some choice of what is undefined at each instruction. -/
theorem simRun_refines (l : Layout) (s : Machine Rfl) (ops : List Op) (hok : ExactRun l s ops) :
    ∃ anys : List Flags, anys.length = ops.length ∧
      let s' := archRun l s.decode (ops.zip anys)
      (simRun l s ops).cpu = s'.cpu ∧ (simRun l s ops).dr1 = s'.dr1 ∧
      flagSyncAll (simRun l s ops).flags =
        flagWord s'.flags.cf s'.flags.pf s'.flags.af s'.flags.zf s'.flags.sf s'.flags.of := by
  suffices hrun : ∃ anys : List Flags, anys.length = ops.length ∧
      archRun l s.decode (ops.zip anys) = (simRun l s ops).decode by
    obtain ⟨anys, hlen, heq⟩ := hrun
    refine ⟨anys, hlen, ?_⟩
    dsimp only
    rw [heq]
    exact ⟨rfl, rfl, flagSyncAll_eq _⟩
  induction ops generalizing s with
  | nil => exact ⟨[], rfl, rfl⟩
  | cons op ops ih =>
    obtain ⟨any, hstep⟩ := exec_decode op hok.1
    obtain ⟨anys, hlen, hrest⟩ := ih (exec simUnit l s op) hok.2
    refine ⟨any :: anys, congrArg (· + 1) hlen, ?_⟩
    rw [← hstep] at hrest
    exact hrest

theorem clc_cf (l : Layout) (s : Machine Rfl) :
    (exec simUnit l s (.setFlag .clc)).flags.flags.cf = false :=
  congrArg Flags.cf (flags_setCf s.flags false)

/-- 16-bit code that adds with carries, rotates through CF and branches on the signed order -/
theorem simRun_refines_carries :
    let l : Layout := ⟨0#32, 4#32⟩
    let s : Machine Rfl := ⟨fun _ => 0x91#8, 0x7fff8000#32, ⟨0#32, 1#32⟩⟩
    let ops : List Op := [.arithR .add .word (.imm 0x8001#32), .shift .rcl .word (some 3#32),
      .unaryR .inc .byte 9#32, .arithFR .sbb .dword 12#32 none, .cmpxchg .word 16#32,
      .setFlag .clc, .unary .sbself .dword, .shift .sar .dword (some 2#32), .setcc 12]
    ExactRun l s ops ∧ ∃ anys : List Flags, anys.length = ops.length ∧
      let s' := archRun l s.decode (ops.zip anys)
      (simRun l s ops).cpu = s'.cpu ∧ (simRun l s ops).dr1 = s'.dr1 ∧
      flagSyncAll (simRun l s ops).flags =
        flagWord s'.flags.cf s'.flags.pf s'.flags.af s'.flags.zf s'.flags.sf s'.flags.of := by
  intro l s ops
  have hok : ExactRun l s ops :=
    ⟨trivial, trivial, trivial, trivial, trivial, trivial,
      clc_cf _ _, fun hone => absurd hone (by decide), trivial, trivial⟩
  exact ⟨hok, simRun_refines l s ops hok⟩

end Alu
end Simx86
end Dosemu
