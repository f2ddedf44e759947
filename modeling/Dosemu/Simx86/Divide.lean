import Dosemu.Simx86.Direction
import Dosemu.Simx86.BitString

/-!
# Division and decimal adjustment

The simulated DIV, IDIV and decimal instructions divide with the operators of C.
A C division has no result for a divisor of zero, nor when its quotient does not
fit the type it is made in; that is a fault of the host, and `none` here.  The
range of the guest's quotient is tested after the division.

Main results:

- Theorem `oDiv_eq`: the unsigned division is exact.
- Theorem `oIdiv_iff`: the signed one is, unless the most negative dividend of
  its type is divided by -1.
- Theorem `oOpax_iff`: the decimal instructions are exact, AAM only where the
  signed quotient that it takes is the unsigned one.
-/

namespace Dosemu
namespace Simx86

/-! ## The processor -/

/-- What the instructions read and write; `err` is set for a divide error, and
`p0` is the address at which the block is left then. -/
structure ArithCpu where
  eax : Word
  edx : Word
  dr1 : Word
  rfl : Rfl
  err : Nat
  p0 : Word
deriving DecidableEq, Repr

/-- `EXCP00_DIVZ`. -/
def excpDivz : Nat := 1

/-- `DR1.b.bl`, the lowest byte. -/
def lowByte (w : Word) : BitVec 8 :=
  w.setWidth 8

/-- `DR1.b.bh`, the second byte. -/
def highByte (w : Word) : BitVec 8 :=
  (w >>> 8).setWidth 8

/-- Assignment to both bytes of the low half. -/
def setBytes (w : Word) (high low : BitVec 8) : Word :=
  (w &&& 0xffff0000#32) ||| ((high ++ low).setWidth 32)

/-- The divide error; `pc` is `LONG_CS + IG->p0`. -/
def ArithCpu.divError (s : ArithCpu) (pc : Word) : ArithCpu :=
  { s with err := excpDivz, p0 := pc }

/-- `/` and `%` of C on unsigned integers. -/
def cDivMod (a b : Nat) : Option (Nat × Nat) :=
  if b = 0 then none else some (a / b, a % b)

/-- `/` and `%` of C on signed integers of `w` bits. -/
def cSDivMod (w : Nat) (a b : Int) : Option (Int × Int) :=
  if b = 0 ∨ (a = -2 ^ (w - 1) ∧ b = -1) then none else some (a.tdiv b, a.tmod b)

/-! ## Division -/

/-- `O_DIV`. -/
def oDiv (size : OpSize) (pc : Word) (s : ArithCpu) : Option ArithCpu :=
  match size with
  | .byte =>
      let v := (s.eax.setWidth 16).toNat
      let s1 := (lowByte s.dr1).toNat
      if s1 = 0 then some (s.divError pc)
      else
        (cDivMod v s1).map fun (v, rem) =>
          if 0xff < v then s.divError pc
          else { s with eax := setBytes s.eax (BitVec.ofNat 8 rem) (BitVec.ofNat 8 v) }
  | .word =>
      let v := ((s.edx.setWidth 16).toNat <<< 16) ||| (s.eax.setWidth 16).toNat
      let s1 := (s.dr1.setWidth 16).toNat
      if s1 = 0 then some (s.divError pc)
      else
        (cDivMod v s1).map fun (v, rem) =>
          if 0xffff < v then s.divError pc
          else
            { s with
              eax := setLow s.eax (BitVec.ofNat 32 v), edx := setLow s.edx (BitVec.ofNat 32 rem) }
  | .dword =>
      let v := (s.edx ++ s.eax).toNat
      let s1 := s.dr1.toNat
      if s1 = 0 then some (s.divError pc)
      else
        (cDivMod v s1).map fun (v, rem) =>
          if v / 2 ^ 32 ≠ 0 then s.divError pc
          else { s with eax := BitVec.ofNat 32 v, edx := BitVec.ofNat 32 rem }

/-- `O_IDIV`: the division is made in 32 bits, or in 64 for doublewords. -/
def oIdiv (size : OpSize) (pc : Word) (s : ArithCpu) : Option ArithCpu :=
  match size with
  | .byte =>
      let v := (s.eax.setWidth 16).toInt
      let d := (lowByte s.dr1).toInt
      if d = 0 then some (s.divError pc)
      else
        (cSDivMod 32 v d).map fun (v, rem) =>
          if 127 < v ∨ v < -128 then s.divError pc
          else { s with eax := setBytes s.eax (BitVec.ofInt 8 rem) (BitVec.ofInt 8 v) }
  | .word =>
      let v := ((s.edx.setWidth 16) ++ (s.eax.setWidth 16) : BitVec 32).toInt
      let d := (s.dr1.setWidth 16).toInt
      if d = 0 then some (s.divError pc)
      else
        (cSDivMod 32 v d).map fun (v, rem) =>
          if 32767 < v ∨ v < -32768 then s.divError pc
          else
            { s with
              eax := setLow s.eax (BitVec.ofInt 32 v), edx := setLow s.edx (BitVec.ofInt 32 rem) }
  | .dword =>
      let v := (s.edx ++ s.eax : BitVec 64).toInt
      let d := s.dr1.toInt
      if d = 0 then some (s.divError pc)
      else
        (cSDivMod 64 v d).map fun (v, rem) =>
          if 0x7fffffff < v ∨ v < -0x80000000 then s.divError pc
          else { s with eax := BitVec.ofInt 32 v, edx := BitVec.ofInt 32 rem }

/-! ## What division is meant to do -/

/-- The bits of an operand of the size. -/
def OpSize.width : OpSize → Nat
  | .byte => 8
  | .word => 16
  | .dword => 32

/-- The dividend of the size: AX, DX:AX or EDX:EAX. -/
def dividend (signed : Bool) (size : OpSize) (s : ArithCpu) : Int :=
  match size with
  | .byte => if signed then (s.eax.setWidth 16).toInt else (s.eax.setWidth 16).toNat
  | .word =>
      let v : BitVec 32 := (s.edx.setWidth 16) ++ (s.eax.setWidth 16)
      if signed then v.toInt else v.toNat
  | .dword =>
      let v : BitVec 64 := s.edx ++ s.eax
      if signed then v.toInt else v.toNat

/-- The divisor of the size. -/
def divisor (signed : Bool) (size : OpSize) (s : ArithCpu) : Int :=
  if signed then (s.dr1.setWidth size.width).toInt else (s.dr1.setWidth size.width).toNat

/-- The quotient fits the destination. -/
def Fits (signed : Bool) (size : OpSize) (q : Int) : Prop :=
  if signed then -2 ^ (size.width - 1) ≤ q ∧ q < 2 ^ (size.width - 1)
  else 0 ≤ q ∧ q < 2 ^ size.width

instance (signed : Bool) (size : OpSize) (q : Int) : Decidable (Fits signed size q) := by
  unfold Fits
  infer_instance

/-- Store quotient and remainder: AL and AH, AX and DX, or EAX and EDX. -/
def storeQuotient (size : OpSize) (s : ArithCpu) (q r : Int) : ArithCpu :=
  match size with
  | .byte => { s with eax := setBytes s.eax (BitVec.ofInt 8 r) (BitVec.ofInt 8 q) }
  | .word =>
      { s with
        eax := setLow s.eax (BitVec.ofInt 32 q), edx := setLow s.edx (BitVec.ofInt 32 r) }
  | .dword => { s with eax := BitVec.ofInt 32 q, edx := BitVec.ofInt 32 r }

/-- The division as the processor makes it: the divide error and nothing else,
or quotient and remainder. -/
def archDivide (signed : Bool) (size : OpSize) (pc : Word) (s : ArithCpu) : ArithCpu :=
  let q := (dividend signed size s).tdiv (divisor signed size s)
  if divisor signed size s = 0 ∨ ¬Fits signed size q then s.divError pc
  else storeQuotient size s q ((dividend signed size s).tmod (divisor signed size s))

/-- The host has no quotient: the most negative dividend is divided by -1 in its
own type. -/
def HostOverflow (size : OpSize) (s : ArithCpu) : Prop :=
  size ≠ .byte ∧ dividend true size s = -2 ^ (2 * size.width - 1) ∧ divisor true size s = -1

instance (size : OpSize) (s : ArithCpu) : Decidable (HostOverflow size s) :=
  inferInstanceAs (Decidable (_ ∧ _))

/-! ## The range test after the division -/

variable {size : OpSize} {s : ArithCpu} {pc : Word}

theorem cDivMod_of_ne {a b : Nat} (h : b ≠ 0) : cDivMod a b = some (a / b, a % b) :=
  if_neg h

/-- An unsigned division in C, with a range test that is the one of the size. -/
theorem divide_unsigned {v d : Nat} (hv : dividend false size s = v)
    (hd : divisor false size s = d) {limit : Nat} (hlimit : limit + 1 = 2 ^ size.width) :
    (if d = 0 then some (s.divError pc)
      else (cDivMod v d).map fun x =>
        if limit < x.1 then s.divError pc else storeQuotient size s x.1 x.2) =
      some (archDivide false size pc s) := by
  simp only [archDivide, hv, hd]
  by_cases hzero : d = 0
  · simp [hzero]
  · have hfits : Fits false size ((v : Int).tdiv d) ↔ ¬limit < v / d := by
      have hpow : ((limit : Int) + 1) = 2 ^ size.width := by exact_mod_cast hlimit
      have hquot : (v : Int).tdiv d = ((v / d : Nat) : Int) := (Int.ofNat_tdiv v d).symm
      simp only [Fits, Bool.false_eq_true, if_false, hquot, ← hpow]
      generalize v / d = q
      omega
    rw [if_neg hzero, cDivMod_of_ne hzero, Option.map_some]
    simp only [hfits, not_not, Int.natCast_eq_zero, hzero, false_or]
    rfl

/-- A signed division in C that has a result, with a range test that is the one
of the size. -/
theorem divide_signed {w : Nat} {v d : Int} (hv : dividend true size s = v)
    (hd : divisor true size s = d) (hhost : ¬(v = -2 ^ (w - 1) ∧ d = -1)) {limit : Int}
    (hlimit : limit + 1 = 2 ^ (size.width - 1)) :
    (if d = 0 then some (s.divError pc)
      else (cSDivMod w v d).map fun x =>
        if limit < x.1 ∨ x.1 < -(limit + 1) then s.divError pc else storeQuotient size s x.1 x.2) =
      some (archDivide true size pc s) := by
  simp only [archDivide, hv, hd]
  by_cases hzero : d = 0
  · simp [hzero]
  · have hquot : cSDivMod w v d = some (v.tdiv d, v.tmod d) := if_neg (not_or.mpr ⟨hzero, hhost⟩)
    have hfits : ¬Fits true size (v.tdiv d) ↔ limit < v.tdiv d ∨ v.tdiv d < -(limit + 1) := by
      simp only [Fits, if_true, ← hlimit]
      omega
    rw [if_neg hzero, hquot, Option.map_some]
    simp only [hfits, hzero, false_or]

/-! ## Division -/

/-- The unsigned division is exact for every dividend and divisor. -/
theorem oDiv_eq (size : OpSize) (pc : Word) (s : ArithCpu) :
    oDiv size pc s = some (archDivide false size pc s) := by
  cases size with
  | byte => exact @divide_unsigned .byte s pc _ _ rfl rfl 0xff rfl
  | word =>
      refine Eq.trans ?_ (@divide_unsigned .word s pc _ _ rfl rfl 0xffff rfl)
      rw [BitVec.toNat_append]
      rfl
  | dword =>
      refine Eq.trans ?_ (@divide_unsigned .dword s pc _ _ rfl rfl 0xffffffff rfl)
      have hhigh : ∀ v : Nat, v / 2 ^ 32 ≠ 0 ↔ 0xffffffff < v := by omega
      simp only [oDiv, hhigh]
      rfl

/-- The dividend of a byte division is a word, and has room to spare. -/
theorem byte_dividend (s : ArithCpu) : -2 ^ 15 ≤ dividend true .byte s := by
  have h := BitVec.le_toInt (s.eax.setWidth 16)
  simpa [dividend] using h

/-- The signed division is exact unless the host has no quotient. -/
theorem oIdiv_eq (hhost : ¬HostOverflow size s) :
    oIdiv size pc s = some (archDivide true size pc s) := by
  cases size with
  | byte =>
      have hroom : ¬(dividend true .byte s = -2 ^ (32 - 1) ∧ divisor true .byte s = -1) := by
        have h := byte_dividend s
        omega
      exact @divide_signed .byte s pc 32 _ _ rfl rfl hroom 127 rfl
  | word =>
      have hroom : ¬(dividend true .word s = -2 ^ (32 - 1) ∧ divisor true .word s = -1) :=
        fun hc => hhost ⟨by decide, hc⟩
      exact @divide_signed .word s pc 32 _ _ rfl rfl hroom 32767 rfl
  | dword =>
      have hroom : ¬(dividend true .dword s = -2 ^ (64 - 1) ∧ divisor true .dword s = -1) :=
        fun hc => hhost ⟨by decide, hc⟩
      exact @divide_signed .dword s pc 64 _ _ rfl rfl hroom 0x7fffffff rfl

/-- Where the host has no quotient, the division has no result. -/
theorem oIdiv_none (hhost : HostOverflow size s) : oIdiv size pc s = none := by
  obtain ⟨hsize, hv, hd⟩ := hhost
  have hfault : ∀ w, dividend true size s = -2 ^ (w - 1) →
      cSDivMod w (dividend true size s) (divisor true size s) = none :=
    fun w hw => if_pos (Or.inr ⟨hw, hd⟩)
  have hzero : divisor true size s ≠ 0 := by
    rw [hd]
    decide
  cases size with
  | byte => exact absurd rfl hsize
  | word =>
      have hnone := hfault 32 hv
      unfold dividend divisor at hnone hzero
      simp only [if_true, OpSize.width] at hnone hzero
      simp only [oIdiv, if_neg hzero, hnone, Option.map_none]
  | dword =>
      have hnone := hfault 64 hv
      unfold dividend divisor at hnone hzero
      simp only [if_true, OpSize.width, BitVec.setWidth_eq] at hnone hzero
      simp only [oIdiv, if_neg hzero, hnone, Option.map_none]

/-- The signed division is exact if and only if the host has a quotient. -/
theorem oIdiv_iff (size : OpSize) (pc : Word) (s : ArithCpu) :
    oIdiv size pc s = some (archDivide true size pc s) ↔ ¬HostOverflow size s := by
  constructor
  · intro hexact hhost
    rw [oIdiv_none hhost] at hexact
    cases hexact
  · exact oIdiv_eq

/-! ## The decimal instructions -/

/-- `is_af_set`. -/
def isAfSet (r : Rfl) : Bool :=
  r.cout &&& lfMaskAF != 0#32

/-- The instructions of `O_OPAX`. -/
inductive DecimalOp
  | daa
  | das
  | aaa
  | aas
  | aam
  | aad
deriving DecidableEq, Repr

/-- The flags of AL, with CF and AF in the other word: `RFL.res` is a signed byte. -/
def resultRfl (bl : BitVec 8) (cyaf : Word) : Rfl :=
  { cout := cyaf, res := bl.signExtend 32 }

/-- `(RFL.cout & ~(LF_MASK_AF|LF_MASK_CF|LF_MASK_PO)) | cyaf`. -/
def asciiRfl (r : Rfl) (cyaf : Word) : Rfl :=
  { r with cout := (r.cout &&& ~~~(lfMaskAF ||| lfMaskCF ||| lfMaskPO)) ||| cyaf }

/-- `O_OPAX`; `p2` is the immediate byte of AAM and AAD. -/
def oOpax (subop : DecimalOp) (p2 : BitVec 8) (s : ArithCpu) : Option ArithCpu :=
  let cy := isCfSet s.rfl != 0#32
  let bl := lowByte s.eax
  let bh := highByte s.eax
  let adjust := decide (9#8 < bl &&& 0x0f#8) || isAfSet s.rfl
  match subop with
  | .daa =>
      let (al, cyaf) :=
        if adjust then (bl + 6#8, (ofBool (cy || decide (0xf9#8 < bl)) <<< 31) ||| lfMaskAF)
        else (bl, 0#32)
      let (al, cyaf) :=
        if 0x99#8 < bl ∨ cy then (al + 0x60#8, cyaf ||| lfMaskCF) else (al, cyaf)
      some { s with eax := setBytes s.eax bh al, rfl := resultRfl al cyaf }
  | .das =>
      let (al, cyaf) :=
        if adjust then (bl - 6#8, (ofBool (cy || decide (bl < 6#8)) <<< 31) ||| lfMaskAF)
        else (bl, 0#32)
      let (al, cyaf) :=
        if 0x99#8 < bl ∨ cy then (al - 0x60#8, cyaf ||| lfMaskCF) else (al, cyaf)
      some { s with eax := setBytes s.eax bh al, rfl := resultRfl al cyaf }
  | .aaa =>
      let icarry := if 0xf9#8 < bl then 1#8 else 0#8
      if adjust then
        some { s with
          eax := setBytes s.eax (bh + 1#8 + icarry) ((bl + 6#8) &&& 0x0f#8)
          rfl := asciiRfl s.rfl (lfMaskCF ||| lfMaskAF) }
      else some { s with eax := setBytes s.eax bh (bl &&& 0x0f#8), rfl := asciiRfl s.rfl 0#32 }
  | .aas =>
      let icarry := if bl < 6#8 then 1#8 else 0#8
      if adjust then
        some { s with
          eax := setBytes s.eax (bh - 1#8 - icarry) ((bl - 6#8) &&& 0x0f#8)
          rfl := asciiRfl s.rfl (lfMaskCF ||| lfMaskAF) }
      else some { s with eax := setBytes s.eax bh (bl &&& 0x0f#8), rfl := asciiRfl s.rfl 0#32 }
  | .aam =>
      (cSDivMod 32 bl.toInt p2.toInt).map fun x =>
        let al := BitVec.ofInt 8 x.2
        { s with eax := setBytes s.eax (BitVec.ofInt 8 x.1) al, rfl := resultRfl al 0#32 }
  | .aad =>
      let al := BitVec.ofInt 8 ((bh.toNat : Int) * p2.toInt + bl.toNat)
      some { s with eax := setBytes s.eax 0#8 al, rfl := resultRfl al 0#32 }

/-! ## What the decimal instructions are meant to do -/

/-- The result of a decimal instruction: AX, CF and AF where they are defined,
and whether SF, ZF and PF are those of AL. -/
structure Adjusted where
  ah : BitVec 8
  al : BitVec 8
  cf : Option Bool
  af : Option Bool
  ofAl : Bool

/-- The low digit is to be adjusted. -/
def lowDigit (al : BitVec 8) (af : Bool) : Bool :=
  decide (9 < al.toNat % 16) || af

/-- The high digit is to be adjusted. -/
def highDigit (al : BitVec 8) (cf : Bool) : Bool :=
  decide (0x99 < al.toNat) || cf

/-- The decimal instructions as the processor makes them, from AX, CF, AF and
the immediate byte. -/
def archAdjust (subop : DecimalOp) (base : BitVec 8) (ax : BitVec 16) (cf af : Bool) : Adjusted :=
  let al := ax.setWidth 8
  let ah := (ax >>> 8).setWidth 8
  let low := lowDigit al af
  let high := highDigit al cf
  match subop with
  | .daa =>
      { ah := ah, cf := some high, af := some low, ofAl := true
        al := al + (if low then 6#8 else 0#8) + (if high then 0x60#8 else 0#8) }
  | .das =>
      { ah := ah, cf := some (high || (low && decide (al.toNat < 6))), af := some low, ofAl := true
        al := al - (if low then 6#8 else 0#8) - (if high then 0x60#8 else 0#8) }
  | .aaa =>
      let sum := ax + (if low then 0x106#16 else 0#16)
      { ah := (sum >>> 8).setWidth 8, al := sum.setWidth 8 &&& 0x0f#8
        cf := some low, af := some low, ofAl := false }
  | .aas =>
      let diff := ax - (if low then 6#16 else 0#16)
      { ah := (diff >>> 8).setWidth 8 - (if low then 1#8 else 0#8)
        al := diff.setWidth 8 &&& 0x0f#8
        cf := some low, af := some low, ofAl := false }
  | .aam =>
      { ah := BitVec.ofNat 8 (al.toNat / base.toNat), al := BitVec.ofNat 8 (al.toNat % base.toNat)
        cf := none, af := none, ofAl := true }
  | .aad =>
      { ah := 0#8, al := BitVec.ofNat 8 (al.toNat + ah.toNat * base.toNat)
        cf := none, af := none, ofAl := true }

/-- An even number of bits is set. -/
def evenParity (v : BitVec 8) : Bool :=
  decide (((List.range 8).countP fun i => v.getLsbD i) % 2 = 0)

/-- The state has the result, and nothing but AX and the flags has changed. -/
structure HasResult (s t : ArithCpu) (a : Adjusted) : Prop where
  eax : t.eax = setBytes s.eax a.ah a.al
  edx : t.edx = s.edx
  dr1 : t.dr1 = s.dr1
  err : t.err = s.err
  cf : ∀ b, a.cf = some b → isCfSet t.rfl = ofBool b
  af : ∀ b, a.af = some b → isAfSet t.rfl = b
  zf : a.ofAl = true → isZfSet t.rfl = decide (a.al = 0#8)
  sf : a.ofAl = true → (flagSyncS t.rfl ≠ 0#32 ↔ a.al.msb = true)
  pf : a.ofAl = true → (flagSyncP t.rfl ≠ 0#32 ↔ evenParity a.al = true)

/-- The instruction gives the result that it is meant to, from AX and the flags. -/
def DecimalExact (subop : DecimalOp) (p2 : BitVec 8) (s : ArithCpu) : Prop :=
  ∃ t, oOpax subop p2 s = some t ∧
    HasResult s t (archAdjust subop p2 (s.eax.setWidth 16) (isCfSet s.rfl != 0#32)
      (isAfSet s.rfl))

/-- AL and the base, taken as signed bytes, have the quotient that they have as
unsigned ones: neither has its sign bit set; or the base is one; or only the base
has it, and AL is less than its absolute value; or they are the same. -/
def SignedBaseExact (al base : BitVec 8) : Prop :=
  base ≠ 0#8 ∧
    ((al.toNat < 128 ∧ base.toNat < 128) ∨ base = 1#8 ∨
      (al.toNat < 128 ∧ 128 ≤ base.toNat ∧ al.toNat + base.toNat < 256) ∨
      (128 ≤ al.toNat ∧ al = base))

instance (al base : BitVec 8) : Decidable (SignedBaseExact al base) :=
  inferInstanceAs (Decidable (_ ∧ _))

/-! ## Flags of a result -/

variable {subop : DecimalOp} {p2 : BitVec 8}

theorem low_setWidth (w : Word) : (w.setWidth 16).setWidth 8 = lowByte w :=
  BitVec.setWidth_setWidth_of_le w (by decide)

theorem high_setWidth (w : Word) : (w.setWidth 16 >>> 8).setWidth 8 = highByte w := by
  apply BitVec.eq_of_toNat_eq
  simp only [highByte, BitVec.toNat_setWidth, BitVec.toNat_ushiftRight, Nat.shiftRight_eq_div_pow]
  omega

theorem xor_and (x y z : Word) : (x ^^^ y) &&& z = (x &&& z) ^^^ (y &&& z) := by
  apply BitVec.eq_of_getLsbD_eq
  intro i _
  simp only [BitVec.getLsbD_and, BitVec.getLsbD_xor]
  exact Bool.and_xor_distrib_right _ _ _

/-- SF, ZF and PF are those of AL when the carry word has nothing to add. -/
theorem resultRfl_flags (al : BitVec 8) {cyaf : Word} (hclear : cyaf &&& 0x84#32 = 0#32) :
    isZfSet (resultRfl al cyaf) = decide (al = 0#8) ∧
      (flagSyncS (resultRfl al cyaf) ≠ 0#32 ↔ al.msb = true) ∧
      (flagSyncP (resultRfl al cyaf) ≠ 0#32 ↔ evenParity al = true) := by
  have hbytes : ∀ n < 256, isZfSet (resultRfl (BitVec.ofNat 8 n) 0#32) =
        decide (BitVec.ofNat 8 n = 0#8) ∧
      (flagSyncS (resultRfl (BitVec.ofNat 8 n) 0#32) ≠ 0#32 ↔ (BitVec.ofNat 8 n).msb = true) ∧
      (flagSyncP (resultRfl (BitVec.ofNat 8 n) 0#32) ≠ 0#32 ↔
        evenParity (BitVec.ofNat 8 n) = true) := by
    decide +kernel
  have hsign : cyaf &&& eflagsSF = 0#32 := by
    have hmask : (0x84#32 &&& eflagsSF : Word) = eflagsSF := by decide
    rw [← hmask, ← BitVec.and_assoc, hclear, BitVec.zero_and]
  have hpar : cyaf &&& lfMaskPD = 0#32 := by
    have hmask : (0x84#32 &&& lfMaskPD : Word) = lfMaskPD := by decide
    rw [← hmask, ← BitVec.and_assoc, hclear, BitVec.zero_and]
  have hs : flagSyncS (resultRfl al cyaf) = flagSyncS (resultRfl al 0#32) := by
    simp only [flagSyncS, resultRfl, xor_and, hsign, BitVec.zero_and]
  have hp : flagSyncP (resultRfl al cyaf) = flagSyncP (resultRfl al 0#32) := by
    simp only [flagSyncP, resultRfl, hpar, BitVec.zero_and]
  have hal := hbytes al.toNat al.isLt
  rw [BitVec.ofNat_toNat, BitVec.setWidth_eq] at hal
  rw [hs, hp]
  exact hal

/-- The carries of the ASCII adjustments. -/
theorem asciiRfl_carry (r : Rfl) (b : Bool) :
    isCfSet (asciiRfl r (if b then lfMaskCF ||| lfMaskAF else 0#32)) = ofBool b ∧
      isAfSet (asciiRfl r (if b then lfMaskCF ||| lfMaskAF else 0#32)) = b := by
  have hcf : (~~~(lfMaskAF ||| lfMaskCF ||| lfMaskPO) : Word) >>> 31 = 0#32 := by decide
  have haf : ~~~(lfMaskAF ||| lfMaskCF ||| lfMaskPO) &&& lfMaskAF = (0#32 : Word) := by decide
  constructor
  · simp only [isCfSet, asciiRfl, BitVec.ushiftRight_or_distrib, BitVec.ushiftRight_and_distrib,
      hcf, BitVec.and_zero, BitVec.zero_or]
    cases b <;> decide
  · simp only [isAfSet, asciiRfl, BitVec.and_or_distrib_right, BitVec.and_assoc, haf,
      BitVec.and_zero, BitVec.zero_or]
    cases b <;> decide

/-! ## The adjustments -/

theorem adjust_eq (al : BitVec 8) (af : Bool) :
    (decide (9#8 < al &&& 0x0f#8) || af) = lowDigit al af := by
  have hmod : (al &&& 0x0f#8).toNat = al.toNat % 16 := by
    rw [BitVec.toNat_and]
    exact Nat.and_two_pow_sub_one_eq_mod al.toNat 4
  have hiff : 9#8 < al &&& 0x0f#8 ↔ 9 < al.toNat % 16 := by
    rw [BitVec.lt_def, hmod]
    rfl
  rw [lowDigit]
  simp only [hiff]

theorem high_iff (al : BitVec 8) (cf : Bool) :
    (0x99#8 < al ∨ cf = true) ↔ highDigit al cf = true := by
  rw [highDigit, Bool.or_eq_true, decide_eq_true_eq, BitVec.lt_def]
  rfl

/-- CF and AF in the carry word, and nothing else. -/
def carryWord (cf af : Bool) : Word :=
  (ofBool cf <<< 31) ||| (if af then lfMaskAF else 0#32)

theorem carryWord_flags (al : BitVec 8) (cf af : Bool) :
    isCfSet (resultRfl al (carryWord cf af)) = ofBool cf ∧
      isAfSet (resultRfl al (carryWord cf af)) = af ∧ carryWord cf af &&& 0x84#32 = 0#32 := by
  have hall : ∀ cf af, carryWord cf af >>> 31 = ofBool cf ∧
      (carryWord cf af &&& lfMaskAF != 0#32) = af ∧ carryWord cf af &&& 0x84#32 = 0#32 := by
    decide
  exact hall cf af

/-- A state that has AX and the flags of a result that is defined in all of
them. -/
theorem hasResult_packed {s : ArithCpu} {a : Adjusted} {cf af : Bool}
    (hcf : a.cf = some cf ∨ a.cf = none) (haf : a.af = some af ∨ a.af = none) :
    HasResult s
      { s with eax := setBytes s.eax a.ah a.al, rfl := resultRfl a.al (carryWord cf af) } a := by
  obtain ⟨hc, ha, hclear⟩ := carryWord_flags a.al cf af
  obtain ⟨hz, hs, hp⟩ := resultRfl_flags a.al hclear
  refine ⟨rfl, rfl, rfl, rfl, ?_, ?_, fun _ => hz, fun _ => hs, fun _ => hp⟩
  · intro b hb
    rcases hcf with hsome | hnone
    · rw [hsome, Option.some.injEq] at hb
      rw [← hb]
      exact hc
    · rw [hnone] at hb
      cases hb
  · intro b hb
    rcases haf with hsome | hnone
    · rw [hsome, Option.some.injEq] at hb
      rw [← hb]
      exact ha
    · rw [hnone] at hb
      cases hb

theorem daa_exact (p2 : BitVec 8) (s : ArithCpu) : DecimalExact .daa p2 s := by
  refine ⟨_, ?_, @hasResult_packed s _ (highDigit (lowByte s.eax) (isCfSet s.rfl != 0#32))
    (lowDigit (lowByte s.eax) (isAfSet s.rfl)) ?_ ?_⟩
  · simp only [oOpax, archAdjust, low_setWidth, high_setWidth, adjust_eq, high_iff]
    generalize lowByte s.eax = al
    generalize hcy : (isCfSet s.rfl != 0#32) = cy
    cases hlow : lowDigit al (isAfSet s.rfl) with
    | false =>
        cases hhigh : highDigit al cy with
        | false => simp [carryWord, ofBool]
        | true => simp [carryWord, ofBool, lfMaskCF]
    | true =>
        cases hhigh : highDigit al cy with
        | false =>
            -- a carry out of the low digit would make the high digit too large
            have hno : (cy || decide (0xf9#8 < al)) = false := by
              rw [highDigit, Bool.or_eq_false_iff, decide_eq_false_iff_not] at hhigh
              rw [Bool.or_eq_false_iff, decide_eq_false_iff_not, BitVec.lt_def]
              have hbound : (0xf9#8).toNat = 0xf9 := rfl
              refine ⟨hhigh.2, ?_⟩
              omega
            simp [carryWord, hno]
        | true =>
            cases (cy || decide (0xf9#8 < al)) with
            | false => simp [carryWord, ofBool, lfMaskCF, lfMaskAF]
            | true => simp [carryWord, ofBool, lfMaskCF, lfMaskAF]
  · exact Or.inl (by simp only [archAdjust, low_setWidth])
  · exact Or.inl (by simp only [archAdjust, low_setWidth])

theorem das_exact (p2 : BitVec 8) (s : ArithCpu) : DecimalExact .das p2 s := by
  refine ⟨_, ?_, @hasResult_packed s _
    (highDigit (lowByte s.eax) (isCfSet s.rfl != 0#32) ||
      (lowDigit (lowByte s.eax) (isAfSet s.rfl) && decide ((lowByte s.eax).toNat < 6)))
    (lowDigit (lowByte s.eax) (isAfSet s.rfl)) ?_ ?_⟩
  · simp only [oOpax, archAdjust, low_setWidth, high_setWidth, adjust_eq, high_iff]
    generalize lowByte s.eax = al
    generalize hcy : (isCfSet s.rfl != 0#32) = cy
    have hborrow : decide (al < 6#8) = decide (al.toNat < 6) := by
      simp only [BitVec.lt_def]
      rfl
    rw [hborrow]
    cases hlow : lowDigit al (isAfSet s.rfl) with
    | false =>
        cases hhigh : highDigit al cy with
        | false => simp [carryWord, ofBool]
        | true => simp [carryWord, ofBool, lfMaskCF]
    | true =>
        cases hhigh : highDigit al cy with
        | false =>
            have hno : cy = false := by
              rw [highDigit, Bool.or_eq_false_iff] at hhigh
              exact hhigh.2
            simp [carryWord, hno]
        | true =>
            cases (cy || decide (al.toNat < 6)) with
            | false => simp [carryWord, ofBool, lfMaskCF, lfMaskAF]
            | true => simp [carryWord, ofBool, lfMaskCF, lfMaskAF]
  · exact Or.inl (by simp only [archAdjust, low_setWidth])
  · exact Or.inl (by simp only [archAdjust, low_setWidth])

/-- A state that has AX and the carries of a result that leaves the other flags
undefined. -/
theorem hasResult_ascii {s : ArithCpu} {a : Adjusted} {b : Bool} (hcf : a.cf = some b)
    (haf : a.af = some b) (hal : a.ofAl = false) :
    HasResult s
      { s with
        eax := setBytes s.eax a.ah a.al
        rfl := asciiRfl s.rfl (if b then lfMaskCF ||| lfMaskAF else 0#32) } a := by
  obtain ⟨hc, ha⟩ := asciiRfl_carry s.rfl b
  refine ⟨rfl, rfl, rfl, rfl, ?_, ?_, ?_, ?_, ?_⟩
  · intro c hc'
    rw [hcf, Option.some.injEq] at hc'
    rw [← hc']
    exact hc
  · intro c hc'
    rw [haf, Option.some.injEq] at hc'
    rw [← hc']
    exact ha
  · intro h
    exact absurd (hal.symm.trans h) Bool.false_ne_true
  · intro h
    exact absurd (hal.symm.trans h) Bool.false_ne_true
  · intro h
    exact absurd (hal.symm.trans h) Bool.false_ne_true

/-- Adding to AX carries out of AL where the byte sum does. -/
theorem add_bytes (ax : BitVec 16) :
    (ax + 0x106#16).setWidth 8 = ax.setWidth 8 + 6#8 ∧
      ((ax + 0x106#16) >>> 8).setWidth 8 =
        (ax >>> 8).setWidth 8 + 1#8 + (if 0xf9#8 < ax.setWidth 8 then 1#8 else 0#8) := by
  have hlt := ax.isLt
  have hcarry : 0xf9#8 < ax.setWidth 8 ↔ 0xf9 < ax.toNat % 256 := by
    rw [BitVec.lt_def, BitVec.toNat_setWidth]
    rfl
  constructor
  · apply BitVec.eq_of_toNat_eq
    simp only [BitVec.toNat_setWidth, BitVec.toNat_add, BitVec.toNat_ofNat]
    omega
  · apply BitVec.eq_of_toNat_eq
    split
    · next h =>
        rw [hcarry] at h
        simp only [BitVec.toNat_setWidth, BitVec.toNat_ushiftRight, BitVec.toNat_add,
          BitVec.toNat_ofNat, Nat.shiftRight_eq_div_pow]
        omega
    · next h =>
        rw [hcarry] at h
        simp only [BitVec.toNat_setWidth, BitVec.toNat_ushiftRight, BitVec.toNat_add,
          BitVec.toNat_ofNat, Nat.shiftRight_eq_div_pow]
        omega

/-- Subtracting from AX borrows out of AL where the byte difference does. -/
theorem sub_bytes (ax : BitVec 16) :
    (ax - 6#16).setWidth 8 = ax.setWidth 8 - 6#8 ∧
      ((ax - 6#16) >>> 8).setWidth 8 - 1#8 =
        (ax >>> 8).setWidth 8 - 1#8 - (if ax.setWidth 8 < 6#8 then 1#8 else 0#8) := by
  have hlt := ax.isLt
  have hborrow : ax.setWidth 8 < 6#8 ↔ ax.toNat % 256 < 6 := by
    rw [BitVec.lt_def, BitVec.toNat_setWidth]
    rfl
  constructor
  · apply BitVec.eq_of_toNat_eq
    simp only [BitVec.toNat_setWidth, BitVec.toNat_sub, BitVec.toNat_ofNat]
    omega
  · apply BitVec.eq_of_toNat_eq
    split
    · next h =>
        rw [hborrow] at h
        simp only [BitVec.toNat_setWidth, BitVec.toNat_ushiftRight, BitVec.toNat_sub,
          BitVec.toNat_ofNat, Nat.shiftRight_eq_div_pow]
        omega
    · next h =>
        rw [hborrow] at h
        simp only [BitVec.toNat_setWidth, BitVec.toNat_ushiftRight, BitVec.toNat_sub,
          BitVec.toNat_ofNat, Nat.shiftRight_eq_div_pow]
        omega

theorem aaa_exact (p2 : BitVec 8) (s : ArithCpu) : DecimalExact .aaa p2 s := by
  refine ⟨_, ?_, hasResult_ascii (b := lowDigit (lowByte s.eax) (isAfSet s.rfl)) ?_ ?_ rfl⟩
  · obtain ⟨hal, hah⟩ := add_bytes (s.eax.setWidth 16)
    rw [low_setWidth] at hal
    rw [high_setWidth, low_setWidth] at hah
    simp only [oOpax, archAdjust, low_setWidth, adjust_eq]
    cases lowDigit (lowByte s.eax) (isAfSet s.rfl) with
    | false =>
        simp only [Bool.false_eq_true, if_false, BitVec.add_zero, high_setWidth, low_setWidth]
    | true => simp only [if_true, hal, hah]
  · simp only [archAdjust, low_setWidth]
  · simp only [archAdjust, low_setWidth]

theorem aas_exact (p2 : BitVec 8) (s : ArithCpu) : DecimalExact .aas p2 s := by
  refine ⟨_, ?_, hasResult_ascii (b := lowDigit (lowByte s.eax) (isAfSet s.rfl)) ?_ ?_ rfl⟩
  · obtain ⟨hal, hah⟩ := sub_bytes (s.eax.setWidth 16)
    rw [low_setWidth] at hal
    rw [high_setWidth, low_setWidth] at hah
    simp only [oOpax, archAdjust, low_setWidth, adjust_eq]
    cases lowDigit (lowByte s.eax) (isAfSet s.rfl) with
    | false =>
        simp only [Bool.false_eq_true, if_false, BitVec.sub_zero, high_setWidth, low_setWidth]
    | true => simp only [if_true, hal, hah]
  · simp only [archAdjust, low_setWidth]
  · simp only [archAdjust, low_setWidth]

theorem aad_exact (p2 : BitVec 8) (s : ArithCpu) : DecimalExact .aad p2 s := by
  refine ⟨_, ?_, @hasResult_packed s _ false false (Or.inr rfl) (Or.inr rfl)⟩
  have hsum : BitVec.ofInt 8 (((highByte s.eax).toNat : Int) * p2.toInt + (lowByte s.eax).toNat) =
      BitVec.ofNat 8 ((lowByte s.eax).toNat + (highByte s.eax).toNat * p2.toNat) := by
    rw [BitVec.ofInt_add, BitVec.ofInt_mul, BitVec.ofInt_toInt, BitVec.ofInt_natCast,
      BitVec.ofInt_natCast, BitVec.ofNat_add, BitVec.ofNat_mul, BitVec.add_comm]
    simp
  simp only [oOpax, archAdjust, low_setWidth, high_setWidth, hsum]
  rfl

/-! ## AAM -/

/-- A byte as a signed number. -/
theorem signedByte (v : BitVec 8) :
    v.toInt = if v.toNat < 128 then (v.toNat : Int) else -((256 - v.toNat : Nat) : Int) := by
  have hlt := v.isLt
  rw [BitVec.toInt_eq_toNat_cond]
  split <;> split <;> omega

/-- The signed quotient and remainder, where they are the unsigned ones. -/
theorem signedBase_divides {al base : BitVec 8} (h : SignedBaseExact al base) :
    BitVec.ofInt 8 (al.toInt.tdiv base.toInt) = BitVec.ofNat 8 (al.toNat / base.toNat) ∧
      BitVec.ofInt 8 (al.toInt.tmod base.toInt) = BitVec.ofNat 8 (al.toNat % base.toNat) := by
  obtain ⟨hne, hcases⟩ := h
  have hal := signedByte al
  have hbase := signedByte base
  rcases hcases with ⟨ha, hb⟩ | rfl | ⟨ha, hb, hsum⟩ | ⟨ha, rfl⟩
  · rw [if_pos ha] at hal
    rw [if_pos hb] at hbase
    rw [hal, hbase, ← Int.ofNat_tdiv, ← Int.ofNat_tmod, BitVec.ofInt_natCast, BitVec.ofInt_natCast]
    exact ⟨rfl, rfl⟩
  · have hone : (1#8).toInt = 1 := rfl
    have hone' : (1#8).toNat = 1 := rfl
    rw [hone, hone', Int.tdiv_one, Int.tmod_one, Nat.div_one, Nat.mod_one, BitVec.ofInt_toInt,
      BitVec.ofNat_toNat, BitVec.setWidth_eq]
    exact ⟨rfl, rfl⟩
  · -- both quotients are zero
    rw [if_pos ha] at hal
    rw [if_neg (by omega)] at hbase
    have hsmall : al.toNat < 256 - base.toNat := by omega
    have hless : al.toNat < base.toNat := by omega
    rw [hal, hbase, Int.tdiv_neg, Int.tmod_neg, ← Int.ofNat_tdiv, ← Int.ofNat_tmod,
      Nat.div_eq_of_lt hsmall, Nat.mod_eq_of_lt hsmall, Nat.div_eq_of_lt hless,
      Nat.mod_eq_of_lt hless]
    exact ⟨rfl, rfl⟩
  · have hnat : al.toNat ≠ 0 := by omega
    have hint : al.toInt ≠ 0 := by
      rw [hal, if_neg (by omega)]
      omega
    rw [Int.tdiv_self hint, Int.tmod_self, Nat.div_self (Nat.pos_of_ne_zero hnat), Nat.mod_self]
    exact ⟨rfl, rfl⟩

/-- Elsewhere the quotients differ in a byte. -/
theorem signedBase_differs {al base : BitVec 8} (hne : base ≠ 0#8)
    (h : ¬SignedBaseExact al base) :
    BitVec.ofInt 8 (al.toInt.tdiv base.toInt) ≠ BitVec.ofNat 8 (al.toNat / base.toNat) := by
  have hal := signedByte al
  have hbase := signedByte base
  have hlt := al.isLt
  have hlt' := base.isLt
  have hzero : base.toNat ≠ 0 := fun hc => hne (BitVec.eq_of_toNat_eq hc)
  have hone : base.toNat ≠ 1 := fun hc => h ⟨hne, Or.inr (Or.inl (BitVec.eq_of_toNat_eq hc))⟩
  have hsame : 128 ≤ al.toNat → al.toNat ≠ base.toNat := fun ha hc =>
    h ⟨hne, Or.inr (Or.inr (Or.inr ⟨ha, BitVec.eq_of_toNat_eq hc⟩))⟩
  have hlow : al.toNat < 128 → 128 ≤ base.toNat ∧ 256 ≤ al.toNat + base.toNat := by
    intro ha
    constructor
    · by_contra hb
      exact h ⟨hne, Or.inl ⟨ha, not_le.mp hb⟩⟩
    · by_contra hb
      have hb' : 128 ≤ base.toNat := by
        by_contra hb'
        exact h ⟨hne, Or.inl ⟨ha, not_le.mp hb'⟩⟩
      exact h ⟨hne, Or.inr (Or.inr (Or.inl ⟨ha, hb', not_le.mp hb⟩))⟩
  intro heq
  have hbytes := congrArg BitVec.toNat heq
  rw [BitVec.toNat_ofInt, BitVec.toNat_ofNat] at hbytes
  generalize al.toNat = a at *
  generalize base.toNat = b at *
  by_cases ha : a < 128
  · -- the base alone is negative, and at most AL in absolute value
    obtain ⟨hb, hsum⟩ := hlow ha
    rw [if_pos ha] at hal
    rw [if_neg (by omega)] at hbase
    rw [hal, hbase, Int.tdiv_neg, ← Int.ofNat_tdiv,
      Nat.div_eq_of_lt (show a < b by omega)] at hbytes
    have hpos : 1 ≤ a / (256 - b) := (Nat.one_le_div_iff (by omega)).mpr (by omega)
    have hle : a / (256 - b) ≤ a := Nat.div_le_self _ _
    generalize a / (256 - b) = q at *
    omega
  · rw [if_neg ha] at hal
    by_cases hb : b < 128
    · -- AL alone is negative
      rw [if_pos hb] at hbase
      rw [hal, hbase, Int.neg_tdiv, ← Int.ofNat_tdiv] at hbytes
      have hhalf : (256 - a) / b ≤ (256 - a) / 2 := Nat.div_le_div_left (by omega) (by decide)
      have hhalf' : a / b ≤ a / 2 := Nat.div_le_div_left (by omega) (by decide)
      have hpos : 1 ≤ a / b := (Nat.one_le_div_iff (by omega)).mpr (by omega)
      generalize (256 - a) / b = q at *
      generalize a / b = q' at *
      omega
    · -- both are negative
      rw [if_neg hb] at hbase
      rw [hal, hbase, Int.neg_tdiv_neg, ← Int.ofNat_tdiv] at hbytes
      have hdiff := hsame (by omega)
      rcases Nat.lt_or_gt_of_ne hdiff with hless | hmore
      · rw [Nat.div_eq_of_lt hless] at hbytes
        have hpos : 1 ≤ (256 - a) / (256 - b) := (Nat.one_le_div_iff (by omega)).mpr (by omega)
        have hle : (256 - a) / (256 - b) ≤ 256 - a := Nat.div_le_self _ _
        generalize (256 - a) / (256 - b) = q at *
        omega
      · rw [Nat.div_eq_of_lt (show 256 - a < 256 - b by omega)] at hbytes
        have hone' : a / b = 1 := Nat.div_eq_of_lt_le (by omega) (by omega)
        rw [hone'] at hbytes
        omega

theorem highByte_setBytes (w : Word) (h l : BitVec 8) : highByte (setBytes w h l) = h := by
  apply BitVec.eq_of_getLsbD_eq
  intro i hi
  have hall : ∀ i < 8, (0xffff0000#32).getLsbD (8 + i) = false := by decide
  have hword : 8 + i < 32 := by omega
  have hout : ¬8 + i < 8 := by omega
  have hback : 8 + i - 8 = i := by omega
  rw [highByte, setBytes, BitVec.getLsbD_setWidth, BitVec.getLsbD_ushiftRight, BitVec.getLsbD_or,
    BitVec.getLsbD_and, hall i hi, BitVec.getLsbD_setWidth, BitVec.getLsbD_append, hback,
    if_neg hout]
  simp only [hi, hword, decide_true, Bool.true_and, Bool.and_false, Bool.false_or]

/-- AAM is exact if and only if the signed quotient is the unsigned one. -/
theorem aam_exact_iff (p2 : BitVec 8) (s : ArithCpu) :
    DecimalExact .aam p2 s ↔ SignedBaseExact (lowByte s.eax) p2 := by
  have hsmall : ¬((lowByte s.eax).toInt = -2 ^ (32 - 1) ∧ p2.toInt = -1) := by
    have h := signedByte (lowByte s.eax)
    have hlt := (lowByte s.eax).isLt
    split at h <;> omega
  have hzero : p2.toInt = 0 ↔ p2 = 0#8 := by
    constructor
    · intro h
      rw [← @BitVec.ofInt_toInt 8 p2, h]
      rfl
    · rintro rfl
      rfl
  constructor
  · rintro ⟨t, ht, hres⟩
    have hne : p2 ≠ 0#8 := by
      intro hc
      have hnone : cSDivMod 32 (lowByte s.eax).toInt p2.toInt = none :=
        if_pos (Or.inl (hzero.mpr hc))
      simp only [oOpax, hnone, Option.map_none] at ht
      cases ht
    have hquot : cSDivMod 32 (lowByte s.eax).toInt p2.toInt = some
        ((lowByte s.eax).toInt.tdiv p2.toInt, (lowByte s.eax).toInt.tmod p2.toInt) :=
      if_neg (not_or.mpr ⟨fun hc => hne (hzero.mp hc), hsmall⟩)
    by_contra hbad
    apply signedBase_differs hne hbad
    simp only [oOpax, hquot, Option.map_some, Option.some.injEq] at ht
    have heax := hres.eax
    rw [← ht] at heax
    have hhigh := congrArg highByte heax
    simpa only [highByte_setBytes, archAdjust, low_setWidth] using hhigh
  · intro hexact
    obtain ⟨hq, hr⟩ := signedBase_divides hexact
    have hquot : cSDivMod 32 (lowByte s.eax).toInt p2.toInt = some
        ((lowByte s.eax).toInt.tdiv p2.toInt, (lowByte s.eax).toInt.tmod p2.toInt) :=
      if_neg (not_or.mpr ⟨fun hc => hexact.1 (hzero.mp hc), hsmall⟩)
    refine ⟨_, ?_, @hasResult_packed s _ false false (Or.inr rfl) (Or.inr rfl)⟩
    simp only [oOpax, hquot, Option.map_some, hq, hr, archAdjust, low_setWidth]
    rfl

/-- The decimal instructions are exact for every AX, CF and AF, and AAM for those
AL and bases that have the same quotient as signed bytes. -/
theorem oOpax_iff (subop : DecimalOp) (p2 : BitVec 8) (s : ArithCpu) :
    DecimalExact subop p2 s ↔ (subop = .aam → SignedBaseExact (lowByte s.eax) p2) := by
  cases subop with
  | daa => exact iff_of_true (daa_exact p2 s) fun h => absurd h (by decide)
  | das => exact iff_of_true (das_exact p2 s) fun h => absurd h (by decide)
  | aaa => exact iff_of_true (aaa_exact p2 s) fun h => absurd h (by decide)
  | aas => exact iff_of_true (aas_exact p2 s) fun h => absurd h (by decide)
  | aad => exact iff_of_true (aad_exact p2 s) fun h => absurd h (by decide)
  | aam =>
      rw [aam_exact_iff]
      exact ⟨fun h _ => h, fun h => h rfl⟩

/-- Division and decimal adjustment are exact except where the host has no
signed quotient, and where AAM's bytes differ as signed numbers. -/
theorem arith_exact_iff (size : OpSize) (pc : BitVec 32) (subop : DecimalOp) (p2 : BitVec 8)
    (s : ArithCpu) :
    oDiv size pc s = some (archDivide false size pc s) ∧
      (oIdiv size pc s = some (archDivide true size pc s) ↔ ¬HostOverflow size s) ∧
      (DecimalExact subop p2 s ↔ (subop = .aam → SignedBaseExact (lowByte s.eax) p2)) :=
  ⟨oDiv_eq size pc s, oIdiv_iff size pc s, oOpax_iff subop p2 s⟩

/-- EDX:EAX is the most negative doubleword pair, and the divisor -1. -/
def mostNegative : ArithCpu :=
  { eax := 0#32, edx := 0x80000000#32, dr1 := 0xffffffff#32, rfl := ⟨0#32, 0#32⟩, err := 0
    p0 := 0xffffffff#32 }

/-- The host faults where the guest is to get a divide error, and AAM of 80h by
10 does not give 12 and 8. -/
theorem idiv_faults_host :
    oIdiv .dword 0#32 mostNegative ≠ some (archDivide true .dword 0#32 mostNegative) ∧
      (oOpax .aam 10#8 { mostNegative with eax := 0x80#32 }).map ArithCpu.eax ≠ some 0x0c08#32 := by
  decide +kernel

end Simx86
end Dosemu
