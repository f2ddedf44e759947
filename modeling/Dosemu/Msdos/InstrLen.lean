import Mathlib.Tactic

/-!
# Lengths of the instructions behind a fault

`decode_memop` and `decode_segreg` stand in for an instruction that faulted on a descriptor.
They skip it by the length that `_instr_len` finds in the table `it`, and take immediates
from its end.  The length is compared with the one of the architecture: prefixes, opcode,
ModR/M, SIB, displacement and immediate.

Main results:

- Theorem `skip_eq`: the prefix loop stops behind the prefixes, with each size toggled by
  every prefix of its kind.
- Theorem `instrLen_exact_iff`: the forms for which the length is the architecture's.
-/

namespace Dosemu
namespace Msdos
namespace InstrLen

abbrev Byte := BitVec 8

/-! ## The code -/

/-- Rows of 16 opcodes -/
def it (op : Byte) : Nat :=
  [7, 7, 7, 7, 2, 3, 1, 1,    7, 7, 7, 7, 2, 3, 1, 0,
   7, 7, 7, 7, 2, 3, 1, 1,    7, 7, 7, 7, 2, 3, 1, 1,
   7, 7, 7, 7, 2, 3, 0, 1,    7, 7, 7, 7, 2, 3, 0, 1,
   7, 7, 7, 7, 2, 3, 0, 1,    7, 7, 7, 7, 2, 3, 0, 1,

   1, 1, 1, 1, 1, 1, 1, 1,    1, 1, 1, 1, 1, 1, 1, 1,
   1, 1, 1, 1, 1, 1, 1, 1,    1, 1, 1, 1, 1, 1, 1, 1,
   1, 1, 7, 7, 0, 0, 0, 0,    3, 9, 2, 8, 1, 1, 1, 1,
   2, 2, 2, 2, 2, 2, 2, 2,    2, 2, 2, 2, 2, 2, 2, 2,

   8, 9, 8, 8, 7, 7, 7, 7,    7, 7, 7, 7, 7, 7, 7, 7,
   1, 1, 1, 1, 1, 1, 1, 1,    1, 1, 6, 1, 1, 1, 1, 1,
   4, 4, 4, 4, 1, 1, 1, 1,    2, 3, 1, 1, 1, 1, 1, 1,
   2, 2, 2, 2, 2, 2, 2, 2,    3, 3, 3, 3, 3, 3, 3, 3,

   8, 8, 3, 1, 7, 7, 8, 9,    5, 1, 3, 1, 1, 2, 1, 1,
   7, 7, 7, 7, 2, 2, 1, 1,    0, 0, 0, 0, 0, 0, 0, 0,
   2, 2, 2, 2, 2, 2, 2, 2,    4, 4, 6, 2, 1, 1, 1, 1,
   0, 1, 0, 0, 1, 1, 7, 7,    1, 1, 1, 1, 1, 1, 7, 7].getD op.toNat 0

/-- `arg_len`: the ModR/M byte decides, the SIB byte is not read. -/
def argLen (modrm : Byte) (asp : Bool) : Nat :=
  let m := modrm &&& 0xc7
  if asp then
    if m = 5 then 5
    else
      let s := if m >>> 6 < 3 ∧ m &&& 7 = 4 then 1 else 0
      (if m >>> 6 = 1 then 2 else if m >>> 6 = 2 then 5 else 1) + s
  else
    if m = 6 then 3
    else if m >>> 6 = 1 then 2 else if m >>> 6 = 2 then 3 else 1

/-- Segment, lock and repeat prefixes, which `_instr_len` only passes over -/
def isSilent (b : Byte) : Bool :=
  b = 0x26 || b = 0x2e || b = 0x36 || b = 0x3e || b = 0x64 || b = 0x65 ||
    b = 0xf0 || b = 0xf2 || b = 0xf3

/-- `get prefixes`: the position of the opcode with `osp` and `asp`.  The loop gives up
behind the 17th byte. -/
def skip (code : Nat → Byte) : Nat → Nat → Bool → Bool → Nat × Bool × Bool
  | 0, p, osp, asp => (p - 1, osp, asp)
  | fuel + 1, p, osp, asp =>
    if code p = 0x66 then skip code fuel (p + 1) (!osp) asp
    else if code p = 0x67 then skip code fuel (p + 1) osp (!asp)
    else if isSilent (code p) then skip code fuel (p + 1) osp asp
    else (p, osp, asp)

/-- `p += u + extra; if (!u) p = p0` -/
def behind (p u extra : Nat) : Nat :=
  if u = 0 then 0 else p + u + extra

/-- `_instr_len`, with positions counted from `p0`; 0 for what it does not know -/
def instrLen (code : Nat → Byte) (is32 : Bool) : Nat :=
  let (p, osp, asp) := skip code 17 0 is32 is32
  if 16 ≤ p then 0
  else if code p = 0x0f then
    let p := p + 1
    if code p = 0xba then p + 4
    else if code p = 0xb2 ∨ code p = 0xb4 ∨ code p = 0xb5 then
      behind (p + 1) (argLen (code (p + 1)) asp) 0
    else 0
  else
    match it (code p) with
    | 1 => p + 1
    | 2 => p + 2
    | 3 => p + if osp then 5 else 3
    | 4 => p + if asp then 5 else 3
    | 5 => p + if osp then 6 else 4
    | 6 => p + if asp then 7 else 5
    | 7 => behind (p + 1) (argLen (code (p + 1)) asp) 0
    | 8 => behind (p + 1) (argLen (code (p + 1)) asp) 1
    | 9 => behind (p + 1) (argLen (code (p + 1)) asp) (if osp then 4 else 2)
    | _ => 0

/-! ## The architecture -/

/-- What follows the opcode: `far` is a pointer with its selector, `full` an immediate of
the operand size, `moffs` an offset of the address size. -/
inductive Operands where
  | bare
  | modrm
  | modrmByte
  | modrmFull
  | moffs
  | word
  | far
  deriving DecidableEq

/-- One-byte opcodes of `decode_memop` and `decode_segreg` -/
def oneByte (op : Byte) : Option Operands :=
  if op = 0xa4 ∨ op = 0xa5 ∨ op = 0xaa ∨ op = 0xab ∨ op = 0xcb ∨ op = 0xcf ∨ op = 0x07 ∨
      op = 0x17 ∨ op = 0x1f then some .bare
  else if op &&& 0xfe = 0x88 ∨ op = 0x8e ∨ op = 0x8f ∨ op = 0xfe ∨ op &&& 0xfe = 0xc4 ∨
      (op < 0x38 ∧ op &&& 6 = 0) then some .modrm
  else if op = 0x80 ∨ op = 0x82 ∨ op = 0x83 ∨ op = 0xc6 then some .modrmByte
  else if op = 0x81 ∨ op = 0xc7 then some .modrmFull
  else if op = 0xa2 ∨ op = 0xa3 then some .moffs
  else if op = 0xca then some .word
  else if op = 0xea then some .far
  else none

/-- Opcodes behind 0Fh -/
def twoByte (op : Byte) : Option Operands :=
  if op = 0xa1 ∨ op = 0xa9 then some .bare
  else if op = 0xb2 ∨ op = 0xb4 ∨ op = 0xb5 then some .modrm
  else if op = 0xba then some .modrmByte
  else none

/-- ModR/M byte, SIB byte and displacement; `noBase` for a SIB byte with base 5 -/
def modrmLen (modrm : Byte) (noBase asp : Bool) : Nat :=
  let mod := modrm >>> 6
  let rm := modrm &&& 7
  if mod = 3 then 1
  else if asp then
    let sib := if rm = 4 then 1 else 0
    let disp :=
      if mod = 1 then 1
      else if mod = 2 then 4
      else if rm = 5 ∨ (rm = 4 ∧ noBase) then 4
      else 0
    1 + sib + disp
  else
    if mod = 1 then 2
    else if mod = 2 then 3
    else if rm = 6 then 3
    else 1

/-- How often the byte `b` is among the `n` bytes from `p` on -/
def occurs (code : Nat → Byte) (b : Byte) : Nat → Nat → Nat
  | _, 0 => 0
  | p, n + 1 => (if code p = b then 1 else 0) + occurs code b (p + 1) n

/-- A run of at most 14 prefixes and an opcode that the decoders handle -/
structure Instr where
  code : Nat → Byte
  prefixes : Nat
  prefixes_le : prefixes ≤ 14
  isPrefix : ∀ p < prefixes, isSilent (code p) ∨ code p = 0x66 ∨ code p = 0x67
  escaped : Bool
  operands : Operands
  handled : if escaped then
      code prefixes = 0x0f ∧ twoByte (code (prefixes + 1)) = some operands
    else oneByte (code prefixes) = some operands

namespace Instr

variable (i : Instr)

/-- The number of prefixes `b` -/
def count (b : Byte) : Nat :=
  occurs i.code b 0 i.prefixes

/-- Where the operands begin -/
def body : Nat :=
  i.prefixes + if i.escaped then 2 else 1

def modrmByte : Byte :=
  i.code i.body

def noBase : Bool :=
  i.code (i.body + 1) &&& 7 = 5

/-- A size prefix overrides the size of the code, once or many times. -/
def size (b : Byte) (is32 : Bool) : Bool :=
  if i.count b = 0 then is32 else !is32

def operandsLen (osp asp : Bool) : Nat :=
  match i.operands with
  | .bare => 0
  | .modrm => modrmLen i.modrmByte i.noBase asp
  | .modrmByte => modrmLen i.modrmByte i.noBase asp + 1
  | .modrmFull => modrmLen i.modrmByte i.noBase asp + if osp then 4 else 2
  | .moffs => if asp then 4 else 2
  | .word => 2
  | .far => if osp then 6 else 4

/-- The length of the instruction -/
def length (is32 : Bool) : Nat :=
  i.body + i.operandsLen (i.size 0x66 is32) (i.size 0x67 is32)

/-! ## Where the two agree -/

/-- An even number of prefixes `b`, which `_instr_len` takes for none -/
def Cancelled (b : Byte) : Prop :=
  i.count b ≠ 0 ∧ i.count b % 2 = 0

instance (b : Byte) : Decidable (i.Cancelled b) :=
  inferInstanceAs (Decidable (_ ∧ _))

/-- `osp` or `asp` after `size ^= 1` for every prefix `b` -/
def toggled (b : Byte) (is32 : Bool) : Bool :=
  is32 ^^ (i.count b % 2 == 1)

/-- The ModR/M byte does not ask for the displacement behind a SIB byte without base.  Where
the address size is mistaken, both sizes give this ModR/M byte the same length. -/
def ModrmRegular (is32 : Bool) : Prop :=
  let mod := i.modrmByte >>> 6
  let rm := i.modrmByte &&& 7
  if i.Cancelled 0x67 then mod = 3 ∨ (mod = 1 ∧ rm ≠ 4) ∨ (mod = 0 ∧ rm ≠ 4 ∧ rm ≠ 5 ∧ rm ≠ 6)
  else ¬ (i.size 0x67 is32 ∧ mod = 0 ∧ rm = 4 ∧ i.noBase)

/-- The forms whose length `_instr_len` finds: no two-byte pops, bit tests with a ModR/M part
of two bytes only, no `retf` with 32-bit operands, and far jumps where both sizes agree. -/
def Regular (is32 : Bool) : Prop :=
  match i.operands with
  | .bare => i.escaped = false
  | .modrm => i.ModrmRegular is32
  | .modrmByte =>
    if i.escaped then modrmLen i.modrmByte i.noBase (i.size 0x67 is32) = 2
    else i.ModrmRegular is32
  | .modrmFull =>
    if i.Cancelled 0x66 then
      i.Cancelled 0x67 ∧ i.modrmByte >>> 6 = 0 ∧ i.modrmByte &&& 7 = 6
    else i.ModrmRegular is32
  | .moffs => ¬ i.Cancelled 0x67
  | .word => i.toggled 0x66 is32 = false
  | .far => i.toggled 0x67 is32 = i.size 0x66 is32

end Instr

/-! ## The prefix loop -/

theorem odd_one_add (k : Nat) : ((1 + k) % 2 == 1) = !(k % 2 == 1) := by
  rcases Nat.mod_two_eq_zero_or_one k with h | h
  · rw [Nat.add_mod, h]
    rfl
  · rw [Nat.add_mod, h]
    rfl

theorem xor_odd_one_add (b : Bool) (k : Nat) :
    ((!b) ^^ (k % 2 == 1)) = (b ^^ ((1 + k) % 2 == 1)) := by
  rw [odd_one_add, Bool.not_xor, Bool.xor_not]

/-- The loop passes over a run of prefixes and stops at what is none. -/
theorem skip_eq (code : Nat → Byte) (n fuel p : Nat) (osp asp : Bool) (hfuel : n < fuel)
    (hrun : ∀ q < n, isSilent (code (p + q)) ∨ code (p + q) = 0x66 ∨ code (p + q) = 0x67)
    (hstop : ¬ (isSilent (code (p + n)) ∨ code (p + n) = 0x66 ∨ code (p + n) = 0x67)) :
    skip code fuel p osp asp =
      (p + n, osp ^^ (occurs code 0x66 p n % 2 == 1), asp ^^ (occurs code 0x67 p n % 2 == 1)) := by
  induction n generalizing fuel p osp asp with
  | zero =>
    obtain ⟨fuel, rfl⟩ : ∃ k, fuel = k + 1 := ⟨fuel - 1, by omega⟩
    rw [Nat.add_zero] at hstop
    push Not at hstop
    rw [skip, if_neg hstop.2.1, if_neg hstop.2.2, if_neg hstop.1]
    simp [occurs]
  | succ n ih =>
    obtain ⟨fuel, rfl⟩ : ∃ k, fuel = k + 1 := ⟨fuel - 1, by omega⟩
    have hrest : ∀ {osp asp}, skip code fuel (p + 1) osp asp =
        (p + 1 + n, osp ^^ (occurs code 0x66 (p + 1) n % 2 == 1),
          asp ^^ (occurs code 0x67 (p + 1) n % 2 == 1)) := by
      intro osp asp
      apply ih fuel (p + 1) _ _ (by omega)
      · intro q hq
        have := hrun (q + 1) (by omega)
        rwa [show p + (q + 1) = p + 1 + q by omega] at this
      · rwa [show p + (n + 1) = p + 1 + n by omega] at hstop
    have hpos : p + 1 + n = p + (n + 1) := by omega
    rw [skip, occurs, occurs]
    by_cases hosp : code p = 0x66
    · rw [if_pos hosp, hrest, hosp, if_pos rfl, if_neg (by decide), xor_odd_one_add, hpos,
        Nat.zero_add]
    · by_cases hasp : code p = 0x67
      · rw [if_neg hosp, if_pos hasp, hrest, hasp, if_neg (by decide), if_pos rfl,
          xor_odd_one_add, hpos, Nat.zero_add]
      · have hsilent : isSilent (code p) = true :=
          (hrun 0 (by omega)).resolve_right (not_or.mpr ⟨hosp, hasp⟩)
        rw [if_neg hosp, if_neg hasp, if_pos hsilent, hrest, if_neg hosp, if_neg hasp, hpos,
          Nat.zero_add, Nat.zero_add]

/-! ## Tables -/

theorem opcode_plain (op : Byte) (h : oneByte op ≠ none) :
    ¬ (isSilent op ∨ op = 0x66 ∨ op = 0x67) ∧ op ≠ 0x0f := by
  refine ⟨fun hprefix => h ?_, fun hescape => h (by rw [hescape]; rfl)⟩
  unfold isSilent at hprefix
  simp only [Bool.or_eq_true, decide_eq_true_eq, or_assoc] at hprefix
  rcases hprefix with
    rfl | rfl | rfl | rfl | rfl | rfl | rfl | rfl | rfl | rfl | rfl
  all_goals rfl

theorem argLen_pos (m : Byte) (asp : Bool) : argLen m asp ≠ 0 := by
  unfold argLen
  dsimp only
  split_ifs
  all_goals omega

/-- Class of `it` that goes with each kind of operands -/
def Operands.kind : Operands → Nat
  | .bare => 1
  | .word => 3
  | .moffs => 4
  | .far => 6
  | .modrm => 7
  | .modrmByte => 8
  | .modrmFull => 9

theorem it_of_oneByte (op : Byte) : ∀ o ∈ oneByte op, it op = o.kind := by
  revert op
  decide +kernel

/-- The code takes every SIB byte for one with a base. -/
theorem argLen_eq (m : Byte) (asp : Bool) : argLen m asp = modrmLen m false asp := by
  revert m asp
  decide +kernel

theorem mod_cases (m : Byte) : m >>> 6 = 0 ∨ m >>> 6 = 1 ∨ m >>> 6 = 2 ∨ m >>> 6 = 3 := by
  have hlt : (m >>> 6).toNat < 4 := by
    rw [BitVec.toNat_ushiftRight, Nat.shiftRight_eq_div_pow]
    have := m.isLt
    omega
  generalize m >>> 6 = mod at hlt
  have hmod : mod.toNat = 0 ∨ mod.toNat = 1 ∨ mod.toNat = 2 ∨ mod.toNat = 3 := by omega
  rcases hmod with h | h | h | h
  · exact .inl (BitVec.eq_of_toNat_eq h)
  · exact .inr (.inl (BitVec.eq_of_toNat_eq h))
  · exact .inr (.inr (.inl (BitVec.eq_of_toNat_eq h)))
  · exact .inr (.inr (.inr (BitVec.eq_of_toNat_eq h)))

/-- A SIB byte without base asks for a displacement in the 32-bit form with mod 0. -/
theorem modrmLen_noBase (m : Byte) (noBase asp : Bool) :
    modrmLen m noBase asp = modrmLen m false asp +
      if asp = true ∧ m >>> 6 = 0 ∧ m &&& 7 = 4 ∧ noBase = true then 4 else 0 := by
  have hmod := mod_cases m
  unfold modrmLen
  dsimp only
  generalize m >>> 6 = mod at hmod ⊢
  generalize m &&& 7 = rm
  rcases hmod with rfl | rfl | rfl | rfl
  all_goals
    by_cases hrm : rm = 4
    · subst hrm
      revert noBase asp
      decide
    · cases asp <;> simp_all

/-- The lengths for the two address sizes, mod by mod -/
theorem modrmLen_sizes (m : Byte) :
    (m >>> 6 = 0 → modrmLen m false true =
        (if m &&& 7 = 5 then 5 else if m &&& 7 = 4 then 2 else 1) ∧
      modrmLen m false false = if m &&& 7 = 6 then 3 else 1) ∧
    (m >>> 6 = 1 → modrmLen m false true = (if m &&& 7 = 4 then 3 else 2) ∧
      modrmLen m false false = 2) ∧
    (m >>> 6 = 2 → modrmLen m false true = (if m &&& 7 = 4 then 6 else 5) ∧
      modrmLen m false false = 3) ∧
    (m >>> 6 = 3 → modrmLen m false true = 1 ∧ modrmLen m false false = 1) := by
  unfold modrmLen
  dsimp only
  generalize m &&& 7 = rm
  refine ⟨fun h => ?_, fun h => ?_, fun h => ?_, fun h => ?_⟩
  all_goals
    rw [h]
    by_cases h4 : rm = 4
    · subst h4
      decide
    · by_cases h5 : rm = 5
      · subst h5
        decide
      · simp_all

/-- With the right address size, only a SIB byte without base is mistaken. -/
theorem argLen_eq_iff (m : Byte) (noBase asp : Bool) :
    argLen m asp = modrmLen m noBase asp ↔
      ¬ (asp = true ∧ m >>> 6 = 0 ∧ m &&& 7 = 4 ∧ noBase = true) := by
  rw [argLen_eq, modrmLen_noBase m noBase]
  split_ifs with h
  · constructor
    · intro heq
      omega
    · intro hnot
      exact absurd h hnot
  · constructor
    · intro _
      exact h
    · intro _
      exact (Nat.add_zero _).symm

theorem argLen_other_iff (m : Byte) (noBase asp : Bool) :
    argLen m asp = modrmLen m noBase (!asp) ↔
      m >>> 6 = 3 ∨ (m >>> 6 = 1 ∧ m &&& 7 ≠ 4) ∨
        (m >>> 6 = 0 ∧ m &&& 7 ≠ 4 ∧ m &&& 7 ≠ 5 ∧ m &&& 7 ≠ 6) := by
  obtain ⟨h0, h1, h2, h3⟩ := modrmLen_sizes m
  rw [argLen_eq, modrmLen_noBase m noBase]
  generalize m &&& 7 = rm at h0 h1 h2 h3 ⊢
  rcases mod_cases m with h | h | h | h
  · obtain ⟨hlong, hshort⟩ := h0 h
    by_cases hrm : rm = 4 ∨ rm = 5 ∨ rm = 6
    · rcases hrm with rfl | rfl | rfl
      all_goals cases asp <;> cases noBase <;> simp [h, hlong, hshort]
    · push Not at hrm
      cases asp <;> simp_all
  · obtain ⟨hlong, hshort⟩ := h1 h
    by_cases hrm : rm = 4
    · cases asp <;> simp_all
    · cases asp <;> simp_all
  · obtain ⟨hlong, hshort⟩ := h2 h
    by_cases hrm : rm = 4
    · cases asp <;> simp_all
    · cases asp <;> simp_all
  · obtain ⟨hlong, hshort⟩ := h3 h
    cases asp <;> simp [h, hlong, hshort]

theorem argLen_full_ne (m : Byte) (noBase asp osp : Bool) :
    argLen m asp + (if osp then 4 else 2) ≠
      modrmLen m noBase asp + (if !osp then 4 else 2) := by
  rw [argLen_eq, modrmLen_noBase m noBase]
  cases osp
  all_goals
    simp only [Bool.not_false, Bool.not_true, if_true, Bool.false_eq_true, if_false]
    split_ifs
    all_goals omega

/-- Two mistakes that make up for each other -/
theorem argLen_full_iff (m : Byte) (noBase size : Bool) :
    argLen m size + (if size then 4 else 2) =
      modrmLen m noBase (!size) + (if !size then 4 else 2) ↔ m >>> 6 = 0 ∧ m &&& 7 = 6 := by
  obtain ⟨h0, h1, h2, h3⟩ := modrmLen_sizes m
  rw [argLen_eq, modrmLen_noBase m noBase]
  generalize m &&& 7 = rm at h0 h1 h2 h3 ⊢
  rcases mod_cases m with h | h | h | h
  · obtain ⟨hlong, hshort⟩ := h0 h
    by_cases hrm : rm = 4 ∨ rm = 5 ∨ rm = 6
    · rcases hrm with rfl | rfl | rfl
      all_goals cases size <;> cases noBase <;> simp [h, hlong, hshort]
    · push Not at hrm
      cases size <;> simp_all
  · obtain ⟨hlong, hshort⟩ := h1 h
    by_cases hrm : rm = 4
    · cases size <;> simp_all
    · cases size <;> simp_all
  · obtain ⟨hlong, hshort⟩ := h2 h
    by_cases hrm : rm = 4
    · cases size <;> simp_all
    · cases size <;> simp_all
  · obtain ⟨hlong, hshort⟩ := h3 h
    cases size <;> simp [h, hlong, hshort]

theorem twoByte_cases {op : Byte} {o : Operands} (h : twoByte op = some o) :
    (o = .bare ∧ op ≠ 0xba ∧ ¬ (op = 0xb2 ∨ op = 0xb4 ∨ op = 0xb5)) ∨
      (o = .modrm ∧ op ≠ 0xba ∧ (op = 0xb2 ∨ op = 0xb4 ∨ op = 0xb5)) ∨
      (o = .modrmByte ∧ op = 0xba) := by
  unfold twoByte at h
  split_ifs at h with hbare hmodrm hbyte
  · refine .inl ⟨(Option.some.inj h).symm, ?_⟩
    rcases hbare with rfl | rfl
    · decide
    · decide
  · refine .inr (.inl ⟨(Option.some.inj h).symm, ?_, hmodrm⟩)
    rcases hmodrm with rfl | rfl | rfl
    · decide
    · decide
    · decide
  · exact .inr (.inr ⟨(Option.some.inj h).symm, hbyte⟩)

theorem behind_argLen (p : Nat) (m : Byte) (asp : Bool) (extra : Nat) :
    behind p (argLen m asp) extra = p + (argLen m asp + extra) := by
  unfold behind
  rw [if_neg (argLen_pos m asp), Nat.add_assoc]

/-! ## The length that the code finds -/

namespace Instr

variable (i : Instr) (is32 : Bool)

theorem opcode_stops :
    ¬ (isSilent (i.code i.prefixes) ∨ i.code i.prefixes = 0x66 ∨ i.code i.prefixes = 0x67) := by
  have hhandled := i.handled
  cases hescaped : i.escaped with
  | true =>
    rw [hescaped, if_pos rfl] at hhandled
    rw [hhandled.1]
    decide
  | false =>
    rw [hescaped, if_neg (by decide)] at hhandled
    exact (opcode_plain _ (by rw [hhandled]; exact Option.some_ne_none _)).1

theorem skip_prefixes :
    skip i.code 17 0 is32 is32 = (i.prefixes, i.toggled 0x66 is32, i.toggled 0x67 is32) := by
  have hle := i.prefixes_le
  have hskip := skip_eq i.code i.prefixes 17 0 is32 is32 (by omega)
    (fun q hq => by simpa using i.isPrefix q hq)
    (by simpa using i.opcode_stops)
  rw [Nat.zero_add] at hskip
  exact hskip

/-- What `_instr_len` adds to the prefixes and the opcode; none where it gives up -/
def foundLen : Option Nat :=
  match i.operands with
  | .bare => if i.escaped then none else some 0
  | .modrm => some (argLen i.modrmByte (i.toggled 0x67 is32))
  | .modrmByte =>
    if i.escaped then some 3 else some (argLen i.modrmByte (i.toggled 0x67 is32) + 1)
  | .modrmFull =>
    some (argLen i.modrmByte (i.toggled 0x67 is32) + if i.toggled 0x66 is32 then 4 else 2)
  | .moffs => some (if i.toggled 0x67 is32 then 4 else 2)
  | .word => some (if i.toggled 0x66 is32 then 4 else 2)
  | .far => some (if i.toggled 0x67 is32 then 6 else 4)

theorem instrLen_escaped (h : i.escaped = true) :
    instrLen i.code is32 = (i.foundLen is32).elim 0 (i.body + ·) := by
  have hle := i.prefixes_le
  have hhandled := i.handled
  have hbody : i.body = i.prefixes + 1 + 1 := by rw [body, if_pos h]
  rw [if_pos h] at hhandled
  unfold instrLen
  rw [i.skip_prefixes is32]
  simp only [if_neg (show ¬ 16 ≤ i.prefixes by omega), if_pos hhandled.1]
  rcases twoByte_cases hhandled.2 with ⟨ho, hba, hl⟩ | ⟨ho, hba, hl⟩ | ⟨ho, hba⟩
  · rw [if_neg hba, if_neg hl, foundLen, ho]
    simp only [if_pos h]
    rfl
  · rw [if_neg hba, if_pos hl, behind_argLen, foundLen, ho, ← hbody]
    rfl
  · rw [if_pos hba, foundLen, ho, hbody]
    simp only [if_pos h]
    rfl

theorem instrLen_plain (h : i.escaped = false) :
    instrLen i.code is32 = (i.foundLen is32).elim 0 (i.body + ·) := by
  have hle := i.prefixes_le
  have hhandled := i.handled
  have hbody : i.body = i.prefixes + 1 := by rw [body, h]; rfl
  rw [h, if_neg (by decide)] at hhandled
  have hop := opcode_plain _ (show oneByte (i.code i.prefixes) ≠ none by
    rw [hhandled]; exact Option.some_ne_none _)
  have hit := it_of_oneByte _ _ hhandled
  unfold instrLen
  rw [i.skip_prefixes is32]
  simp only [if_neg (show ¬ 16 ≤ i.prefixes by omega), if_neg hop.2, hit]
  unfold foundLen
  cases ho : i.operands with
  | bare =>
    simp only [h, hbody]
    rfl
  | modrm =>
    simp only [Operands.kind, behind_argLen, ← hbody]
    rfl
  | modrmByte =>
    simp only [Operands.kind, behind_argLen, ← hbody, h]
    rfl
  | modrmFull =>
    simp only [Operands.kind, behind_argLen, ← hbody]
    rfl
  | moffs =>
    simp only [Operands.kind, Option.elim, hbody]
    split <;> omega
  | word =>
    simp only [Operands.kind, Option.elim, hbody]
    split <;> omega
  | far =>
    simp only [Operands.kind, Option.elim, hbody]
    split <;> omega

theorem instrLen_eq : instrLen i.code is32 = (i.foundLen is32).elim 0 (i.body + ·) := by
  cases hescaped : i.escaped with
  | true => exact i.instrLen_escaped is32 hescaped
  | false => exact i.instrLen_plain is32 hescaped

theorem exact_iff_found :
    instrLen i.code is32 = i.length is32 ↔
      i.foundLen is32 = some (i.operandsLen (i.size 0x66 is32) (i.size 0x67 is32)) := by
  have hbody : 0 < i.body := by
    unfold body
    split <;> omega
  rw [i.instrLen_eq is32, length]
  cases i.foundLen is32 with
  | none =>
    simp only [Option.elim]
    constructor
    · intro h
      omega
    · intro h
      cases h
  | some n =>
    simp only [Option.elim, Option.some.injEq]
    omega

/-! ## The sizes -/

theorem toggled_of_cancelled {b : Byte} (h : i.Cancelled b) :
    i.toggled b is32 = is32 ∧ i.size b is32 = !is32 := by
  unfold toggled size
  rw [h.2, if_neg h.1]
  exact ⟨Bool.xor_false is32, rfl⟩

theorem toggled_eq_size {b : Byte} (h : ¬ i.Cancelled b) :
    i.toggled b is32 = i.size b is32 := by
  unfold toggled size
  by_cases hzero : i.count b = 0
  · rw [if_pos hzero, hzero]
    exact Bool.xor_false is32
  · have hodd : i.count b % 2 = 1 := by
      have : ¬ i.count b % 2 = 0 := fun heven => h ⟨hzero, heven⟩
      omega
    rw [if_neg hzero, hodd]
    exact Bool.xor_true is32

theorem toggled_eq_size_iff {b : Byte} :
    i.toggled b is32 = i.size b is32 ↔ ¬ i.Cancelled b := by
  constructor
  · intro h hcancelled
    obtain ⟨htoggled, hsize⟩ := i.toggled_of_cancelled is32 hcancelled
    rw [htoggled, hsize] at h
    cases is32 <;> cases h
  · exact i.toggled_eq_size is32

theorem argLen_iff :
    argLen i.modrmByte (i.toggled 0x67 is32) = modrmLen i.modrmByte i.noBase (i.size 0x67 is32) ↔
      i.ModrmRegular is32 := by
  unfold ModrmRegular
  by_cases hcancelled : i.Cancelled 0x67
  · obtain ⟨htoggled, hsize⟩ := i.toggled_of_cancelled is32 hcancelled
    rw [htoggled, hsize, argLen_other_iff]
    simp only [if_pos hcancelled]
  · rw [i.toggled_eq_size is32 hcancelled, argLen_eq_iff]
    simp only [if_neg hcancelled]

/-- With the size of the immediate mistaken as well, the length is right by chance only. -/
theorem argLen_full_cancelled_iff (h : i.Cancelled 0x66) :
    argLen i.modrmByte (i.toggled 0x67 is32) + (if i.toggled 0x66 is32 then 4 else 2) =
        modrmLen i.modrmByte i.noBase (i.size 0x67 is32) +
          (if i.size 0x66 is32 then 4 else 2) ↔
      i.Cancelled 0x67 ∧ i.modrmByte >>> 6 = 0 ∧ i.modrmByte &&& 7 = 6 := by
  obtain ⟨htoggled, hsize⟩ := i.toggled_of_cancelled is32 h
  rw [htoggled, hsize]
  by_cases hcancelled : i.Cancelled 0x67
  · obtain ⟨htoggled', hsize'⟩ := i.toggled_of_cancelled is32 hcancelled
    rw [htoggled', hsize', argLen_full_iff]
    exact (and_iff_right hcancelled).symm
  · rw [i.toggled_eq_size is32 hcancelled]
    constructor
    · intro heq
      exact absurd heq (argLen_full_ne _ _ _ _)
    · intro hall
      exact absurd hall.1 hcancelled

end Instr

/-- `_instr_len` gives the length of the architecture exactly for the regular forms. -/
theorem instrLen_exact_iff (i : Instr) (is32 : Bool) :
    instrLen i.code is32 = i.length is32 ↔ i.Regular is32 := by
  rw [i.exact_iff_found is32]
  unfold Instr.foundLen Instr.operandsLen Instr.Regular
  cases ho : i.operands with
  | bare =>
    cases hescaped : i.escaped with
    | true => simp
    | false => simp
  | modrm =>
    rw [← i.argLen_iff is32]
    simp
  | modrmByte =>
    cases hescaped : i.escaped with
    | true => simp
    | false =>
      rw [← i.argLen_iff is32]
      simp
  | modrmFull =>
    by_cases hcancelled : i.Cancelled 0x66
    · simp only [if_pos hcancelled, Option.some.injEq]
      exact i.argLen_full_cancelled_iff is32 hcancelled
    · simp only [if_neg hcancelled, Option.some.injEq]
      rw [i.toggled_eq_size is32 hcancelled, Nat.add_right_cancel_iff]
      exact i.argLen_iff is32
  | moffs =>
    rw [← i.toggled_eq_size_iff is32]
    cases i.toggled 0x67 is32 <;> cases i.size 0x67 is32 <;> simp
  | word =>
    cases i.toggled 0x66 is32 <;> simp
  | far =>
    cases i.toggled 0x67 is32 <;> cases i.size 0x66 is32 <;> simp

/-- `mov [ecx*4 + 12345678h], eax` -/
def scaledStore : Instr where
  code p := [0x89, 0x04, 0x8d, 0x78, 0x56, 0x34, 0x12].getD p 0
  prefixes := 0
  prefixes_le := Nat.zero_le 14
  isPrefix _ h := absurd h (Nat.not_lt_zero _)
  escaped := false
  operands := .modrm
  handled := by decide

/-- In 32-bit code this store is 7 bytes long and `_instr_len` finds 3. -/
theorem scaled_store_cut_short :
    ¬ ∀ (i : Instr) (is32 : Bool), instrLen i.code is32 = i.length is32 := by
  intro h
  exact absurd (h scaledStore true) (by decide)

end InstrLen
end Msdos
end Dosemu
