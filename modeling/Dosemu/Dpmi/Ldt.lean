import Dosemu.Lib.BitFields

/-!
# The emulated local descriptor table

An entry of the table is eight bytes, read by the decoders as two words `lp[0]`
and `lp[1]` and written by `emu_update_LDT` through the bit-fields of
`Descriptor`.  The state of an entry is the 64-bit word of both, `lp[0]` in the
low half.

Main results:

- Theorem `segments_emuUpdateLdt`: an entry that was written decodes to the
  fields it was written with, also the one that is cleared.
- Theorem `agree_of_segments_eq`: the decoders see every bit but the accessed bit,
  the S and DPL bits and the reserved bit 53.
-/

namespace Dosemu
namespace Dpmi

open BitFields

/-- `LGDT_ENTRIES`, which is also `MAX_SELECTORS` -/
def maxSelectors : Nat := 8192

/-- `EINVAL` -/
def einval : Int := 22

/-- An entry of the table. -/
abbrev Descriptor := BitVec 64

/-- `SEGDESC`, less the fields that no decoder fills in. -/
structure SegDesc where
  baseAddr : BitVec 32
  limit : BitVec 32
  type : BitVec 2
  is32 : BitVec 1
  readonly : BitVec 1
  isBig : BitVec 1
  notPresent : BitVec 1
  useable : BitVec 1
  deriving DecidableEq

/-- `struct user_desc` -/
structure UserDesc where
  entryNumber : Nat
  baseAddr : BitVec 32
  limit : BitVec 32
  seg32bit : BitVec 1
  contents : BitVec 2
  readExecOnly : BitVec 1
  limitInPages : BitVec 1
  segNotPresent : BitVec 1
  useable : BitVec 1
  deriving DecidableEq

def lp0 (lp : Descriptor) : BitVec 32 :=
  lp.extractLsb' 0 32

def lp1 (lp : Descriptor) : BitVec 32 :=
  lp.extractLsb' 32 32

/-- `_Segments` for an entry; `SetDescriptor` decodes its argument in the same words. -/
def segments (lp : Descriptor) : SegDesc where
  baseAddr := (lp1 lp &&& 0xFF000000#32) ||| ((lp1 lp <<< 16) &&& 0x00FF0000#32) |||
    ((lp0 lp >>> 16) &&& 0x0000FFFF#32)
  limit := (lp1 lp &&& 0x000F0000#32) ||| (lp0 lp &&& 0x0000FFFF#32)
  type := (lp1 lp >>> 10).setWidth 2
  is32 := (lp1 lp >>> 22).setWidth 1
  readonly := (lp1 lp >>> 9).setWidth 1 ^^^ 1#1
  isBig := (lp1 lp >>> 23).setWidth 1
  notPresent := (lp1 lp >>> 15).setWidth 1 ^^^ 1#1
  useable := (lp1 lp >>> 20).setWidth 1

/-- `ld` of `SetDescriptor`: the S bit -/
def ld (lp : Descriptor) : BitVec 1 :=
  (lp1 lp >>> 12).setWidth 1

/-- `MKBASE` -/
def mkBase (b : BitVec 32) (lp : Descriptor) : Descriptor :=
  setField 56 ((b >>> 24).setWidth 8) (setField 32 ((b >>> 16).setWidth 8)
    (setField 16 (b.setWidth 16) lp))

/-- `MKLIMIT` -/
def mkLimit (l : BitVec 32) (lp : Descriptor) : Descriptor :=
  setField 48 ((l >>> 16).setWidth 4) (setField 0 (l.setWidth 16) lp)

/-- `LDT_empty` -/
def ldtEmpty (info : UserDesc) : Prop :=
  info.baseAddr = 0 ∧ info.limit = 0 ∧ info.contents = 0 ∧ info.readExecOnly = 1 ∧
    info.seg32bit = 0 ∧ info.limitInPages = 0 ∧ info.segNotPresent = 1 ∧ info.useable = 0

instance (info : UserDesc) : Decidable (ldtEmpty info) :=
  inferInstanceAs (Decidable (_ ∧ _))

/-- The `type` bits of the descriptor; the accessed bit is clear. -/
def typeBits (info : UserDesc) : BitVec 4 :=
  (info.readExecOnly ^^^ 1#1).setWidth 4 <<< 1 ||| info.contents.setWidth 4 <<< 2

/-- What `emu_update_LDT` installs where the entry is not cleared; the bit `L` is left alone. -/
def packed (info : UserDesc) (lp : Descriptor) : Descriptor :=
  let lp := mkLimit info.limit (mkBase info.baseAddr lp)
  let lp := setField 40 (typeBits info) lp
  let lp := setField 44 1#1 lp
  let lp := setField 45 3#2 lp
  let lp := setField 47 (info.segNotPresent ^^^ 1#1) lp
  let lp := setField 52 info.useable lp
  let lp := setField 54 info.seg32bit lp
  setField 55 info.limitInPages lp

/-- `emu_update_LDT` -/
def emuUpdateLdt (info : UserDesc) (lp : Descriptor) : Descriptor :=
  if info.baseAddr = 0 ∧ info.limit = 0 ∧ ldtEmpty info then 0 else packed info lp

/-- `emu_write_ldt`: the result and the table. -/
def emuWriteLdt (info : UserDesc) (ldt : Nat → Descriptor) : Int × (Nat → Descriptor) :=
  if maxSelectors ≤ info.entryNumber then (-einval, ldt)
  else if info.contents = 3 ∧ info.segNotPresent = 0 then (-einval, ldt)
  else (0, Function.update ldt info.entryNumber
    (emuUpdateLdt info (ldt info.entryNumber)))

/-! ## Decoding -/

variable {lp : Descriptor} {info : UserDesc}

theorem getLsbD_baseAddr {i : Nat} (hi : i < 32) :
    (segments lp).baseAddr.getLsbD i =
      if i < 24 then lp.getLsbD (16 + i) else lp.getLsbD (32 + i) := by
  have hhi : (0xFF000000#32).getLsbD i = decide (24 ≤ i) := by
    decide +revert
  have hmid : (0x00FF0000#32).getLsbD i = decide (16 ≤ i ∧ i < 24) := by
    decide +revert
  have hlo : (0x0000FFFF#32).getLsbD i = decide (i < 16) := by
    decide +revert
  simp only [segments, lp0, lp1, BitVec.getLsbD_or, BitVec.getLsbD_and, BitVec.getLsbD_shiftLeft,
    BitVec.getLsbD_ushiftRight, BitVec.getLsbD_extractLsb', hhi, hmid, hlo, hi, decide_true,
    Bool.true_and]
  by_cases hlow : i < 16
  · have hword : 16 + i < 32 := by omega
    have hbyte : i < 24 := by omega
    simp [hlow, hbyte, hword, Nat.not_le.mpr hbyte]
  · by_cases hbyte : i < 24
    · have hsum : 32 + (i - 16) = 16 + i := by omega
      have hword : i - 16 < 32 := by omega
      simp [hlow, hbyte, hsum, hword, Nat.not_lt.mp hlow, Nat.not_le.mpr hbyte]
    · simp [hlow, hbyte, Nat.not_lt.mp hbyte]

theorem getLsbD_limit {i : Nat} (hi : i < 32) :
    (segments lp).limit.getLsbD i =
      if i < 16 then lp.getLsbD i else decide (i < 20) && lp.getLsbD (32 + i) := by
  have hhi : (0x000F0000#32).getLsbD i = decide (16 ≤ i ∧ i < 20) := by
    decide +revert
  have hlo : (0x0000FFFF#32).getLsbD i = decide (i < 16) := by
    decide +revert
  simp only [segments, lp0, lp1, BitVec.getLsbD_or, BitVec.getLsbD_and,
    BitVec.getLsbD_extractLsb', hhi, hlo, hi, decide_true, Bool.true_and]
  by_cases hlow : i < 16
  · simp [hlow, Nat.not_le.mpr hlow]
  · simp [hlow, Nat.not_lt.mp hlow, Bool.and_comm]

/-- The decoders' flags are bit-fields. -/
theorem segments_flags (lp : Descriptor) :
    (segments lp).type = field 42 2 lp ∧ (segments lp).is32 = field 54 1 lp ∧
      (segments lp).readonly = field 41 1 lp ^^^ 1#1 ∧ (segments lp).isBig = field 55 1 lp ∧
      (segments lp).notPresent = field 47 1 lp ^^^ 1#1 ∧ (segments lp).useable = field 52 1 lp := by
  have hshift (k w : Nat) (hfits : k + w ≤ 32) :
      ((lp1 lp >>> k).setWidth w : BitVec w) = field (32 + k) w lp := by
    ext i hi
    have hword : k + i < 32 := by omega
    simp [lp1, field, hword, Nat.add_assoc]
  exact ⟨hshift 10 2 (by decide), hshift 22 1 (by decide), congrArg (· ^^^ 1#1) (hshift 9 1 (by decide)),
    hshift 23 1 (by decide), congrArg (· ^^^ 1#1) (hshift 15 1 (by decide)), hshift 20 1 (by decide)⟩

/-- The limit has twenty bits. -/
theorem limit_lt (lp : Descriptor) : (segments lp).limit.toNat < 2 ^ 20 := by
  apply Nat.lt_pow_two_of_testBit
  intro i hle
  rw [BitVec.testBit_toNat]
  by_cases hi : i < 32
  · rw [getLsbD_limit hi, if_neg (by omega), decide_eq_false (by omega), Bool.false_and]
  · exact BitVec.getLsbD_of_ge _ i (Nat.le_of_not_lt hi)

/-! ## Writing -/

/-- The fields that a descriptor is written with. -/
def UserDesc.segDesc (info : UserDesc) : SegDesc where
  baseAddr := info.baseAddr
  limit := info.limit
  type := info.contents
  is32 := info.seg32bit
  readonly := info.readExecOnly
  isBig := info.limitInPages
  notPresent := info.segNotPresent
  useable := info.useable

/-- The bit-fields of an entry have the values that were to be written. -/
structure Holds (info : UserDesc) (lp : Descriptor) : Prop where
  limitLo : field 0 16 lp = info.limit.setWidth 16
  baseLo : field 16 16 lp = info.baseAddr.setWidth 16
  baseMid : field 32 8 lp = (info.baseAddr >>> 16).setWidth 8
  write : field 41 1 lp = info.readExecOnly ^^^ 1#1
  contents : field 42 2 lp = info.contents
  present : field 47 1 lp = info.segNotPresent ^^^ 1#1
  limitHi : field 48 4 lp = (info.limit >>> 16).setWidth 4
  avl : field 52 1 lp = info.useable
  db : field 54 1 lp = info.seg32bit
  gran : field 55 1 lp = info.limitInPages
  baseHi : field 56 8 lp = (info.baseAddr >>> 24).setWidth 8

@[simp]
theorem typeBits_write : field 1 1 (typeBits info) = info.readExecOnly ^^^ 1#1 := by
  ext i hi
  interval_cases i
  simp [field, typeBits]

@[simp]
theorem typeBits_contents : field 2 2 (typeBits info) = info.contents := by
  ext i hi
  interval_cases i <;> simp [field, typeBits]

/-- Later writes of the other bit-fields leave each of them as it was written. -/
theorem holds_packed (info : UserDesc) (lp : Descriptor) : Holds info (packed info lp) := by
  unfold packed mkLimit mkBase
  constructor <;>
    simp (disch := decide) only [field_setField_apart, field_setField_inside, Nat.sub_self,
      Nat.reduceSub, typeBits_write, typeBits_contents] <;>
    exact BitVec.extractLsb'_eq_self

/-- An entry with the bit-fields of what was written decodes to it. -/
theorem Holds.segments (h : Holds info lp) (hlimit : info.limit.toNat < 2 ^ 20) :
    segments lp = info.segDesc := by
  obtain ⟨htype, h32, hro, hbig, hnp, huse⟩ := segments_flags lp
  have hbase : (Dpmi.segments lp).baseAddr = info.baseAddr := by
    apply BitVec.eq_of_getLsbD_eq
    intro i hi
    rw [getLsbD_baseAddr hi]
    split
    · next hbyte =>
        by_cases hlow : i < 16
        · rw [getLsbD_of_field h.baseLo (by omega) (by omega)]
          simp [hlow]
        · rw [getLsbD_of_field h.baseMid (by omega) (by omega), show 16 + i - 32 = i - 16 by omega]
          have hin : i - 16 < 8 := by omega
          simp [hin, Nat.add_sub_cancel' (Nat.not_lt.mp hlow)]
    · next hbyte =>
        rw [getLsbD_of_field h.baseHi (by omega) (by omega), show 32 + i - 56 = i - 24 by omega]
        have hin : i - 24 < 8 := by omega
        simp [hin, Nat.add_sub_cancel' (Nat.not_lt.mp hbyte)]
  have hlim : (Dpmi.segments lp).limit = info.limit := by
    apply BitVec.eq_of_getLsbD_eq
    intro i hi
    rw [getLsbD_limit hi]
    split
    · next hlow =>
        rw [getLsbD_of_field h.limitLo (by omega) (by omega)]
        simp [hlow]
    · next hlow =>
        by_cases hin : i < 20
        · rw [getLsbD_of_field h.limitHi (by omega) (by omega), show 32 + i - 48 = i - 16 by omega]
          have hhi : i - 16 < 4 := by omega
          simp [hin, hhi, Nat.add_sub_cancel' (Nat.not_lt.mp hlow)]
        · have hzero : info.limit.getLsbD i = false := by
            rw [← BitVec.testBit_toNat]
            exact Nat.testBit_lt_two_pow (hlimit.trans_le (Nat.pow_le_pow_right (by decide)
              (Nat.not_lt.mp hin)))
          simp [hin, hzero]
  have hinv (b : BitVec 1) : b ^^^ 1#1 ^^^ 1#1 = b := by
    rw [BitVec.xor_assoc, BitVec.xor_self, BitVec.xor_zero]
  rw [h.contents] at htype
  rw [h.db] at h32
  rw [h.write, hinv] at hro
  rw [h.gran] at hbig
  rw [h.present, hinv] at hnp
  rw [h.avl] at huse
  unfold UserDesc.segDesc
  rw [← hbase, ← hlim, ← htype, ← h32, ← hro, ← hbig, ← hnp, ← huse]

/-- An entry that was written decodes to the fields it was written with. -/
theorem segments_emuUpdateLdt (hlimit : info.limit.toNat < 2 ^ 20) :
    segments (emuUpdateLdt info lp) = info.segDesc := by
  unfold emuUpdateLdt
  split
  · next hempty =>
      obtain ⟨-, -, hbase, hlim, hcont, hro, h32, hbig, hnp, huse⟩ := hempty
      unfold UserDesc.segDesc
      rw [hbase, hlim, hcont, hro, h32, hbig, hnp, huse]
      decide
  · exact (holds_packed info lp).segments hlimit

/-! ## Descriptors that decode alike -/

/-- The accessed bit, the S bit, the two DPL bits and the reserved bit. -/
def looseBits : List Nat :=
  [40, 44, 45, 46, 53]

/-- Descriptors that differ at most in the accessed bit, the S and DPL bits and bit 53. -/
def Agree (a b : Descriptor) : Prop :=
  ∀ i, i ∉ looseBits → a.getLsbD i = b.getLsbD i

/-- Every other bit is part of a field that the decoders fill in. -/
theorem agree_of_segments_eq {a b : Descriptor} (h : segments a = segments b) : Agree a b := by
  obtain ⟨htype, h32, hro, hbig, hnp, huse⟩ := segments_flags a
  obtain ⟨htype', h32', hro', hbig', hnp', huse'⟩ := segments_flags b
  rw [h] at htype h32 hro hbig hnp huse
  have hbase (k : Nat) (hk : k < 32) : (segments a).baseAddr.getLsbD k =
      (segments b).baseAddr.getLsbD k := by rw [h]
  have hlimit (k : Nat) (hk : k < 32) : (segments a).limit.getLsbD k =
      (segments b).limit.getLsbD k := by rw [h]
  have hfield {off w i : Nat} (hsame : field off w a = field off w b) (hlo : off ≤ i)
      (hhi : i < off + w) : a.getLsbD i = b.getLsbD i := by
    rw [getLsbD_of_field hsame hlo hhi, getLsbD_of_field rfl hlo hhi]
  intro i hi
  simp only [looseBits, List.mem_cons, List.not_mem_nil, or_false, not_or] at hi
  by_cases hlow : i < 16
  · have hbit := hlimit i (by omega)
    rwa [getLsbD_limit (by omega), getLsbD_limit (by omega), if_pos hlow, if_pos hlow] at hbit
  by_cases hmid : i < 40
  · have hbit := hbase (i - 16) (by omega)
    rwa [getLsbD_baseAddr (by omega), getLsbD_baseAddr (by omega), if_pos (by omega),
      if_pos (by omega), Nat.add_sub_cancel' (by omega)] at hbit
  by_cases hwrite : i = 41
  · exact hfield ((BitVec.xor_left_inj 1#1).mp (hro.symm.trans hro')) (by omega) (by omega)
  by_cases htypeBit : i < 44
  · exact hfield (htype.symm.trans htype') (by omega) (by omega)
  by_cases hpresent : i = 47
  · exact hfield ((BitVec.xor_left_inj 1#1).mp (hnp.symm.trans hnp')) (by omega) (by omega)
  by_cases hlimHi : i < 52
  · have hbit := hlimit (i - 32) (by omega)
    rwa [getLsbD_limit (by omega), getLsbD_limit (by omega), if_neg (by omega), if_neg (by omega),
      decide_eq_true (by omega), Bool.true_and, Bool.true_and,
      Nat.add_sub_cancel' (by omega)] at hbit
  by_cases havl : i = 52
  · exact hfield (huse.symm.trans huse') (by omega) (by omega)
  by_cases hdb : i = 54
  · exact hfield (h32.symm.trans h32') (by omega) (by omega)
  by_cases hgran : i = 55
  · exact hfield (hbig.symm.trans hbig') (by omega) (by omega)
  by_cases hhigh : i < 64
  · have hbit := hbase (i - 32) (by omega)
    rwa [getLsbD_baseAddr (by omega), getLsbD_baseAddr (by omega), if_neg (by omega),
      if_neg (by omega), Nat.add_sub_cancel' (by omega)] at hbit
  · rw [BitVec.getLsbD_of_ge a i (Nat.le_of_not_lt hhigh),
      BitVec.getLsbD_of_ge b i (Nat.le_of_not_lt hhigh)]

end Dpmi
end Dosemu
