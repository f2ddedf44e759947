import Dosemu.Dpmi.Selectors
import Dosemu.Vga.DosCopy

/-!
# Whole segments for DOS

Some calls get a whole segment of the client: the extender copies it to the frame
in low memory before the call, and back afterwards.  The length is taken from the
limit of the segment each time.

Main results:

- Theorem `copyLen_eq_iff`: the limits for which the length is right.
- Theorem `segment_copy_iff`: when a call gets the segment, and gives it back.
-/

namespace Dosemu
namespace Msdos
namespace SegCopy

open ByteCopy MachineInt
open Vga (Adapter Memory State Moved Clear Transfers)

/-! ## The copies -/

def hiByte (ax : BitVec 16) : BitVec 8 :=
  (ax >>> 8).setWidth 8

def loByte (ax : BitVec 16) : BitVec 8 :=
  ax.setWidth 8

/-- `need_copy_dseg` -/
def needCopyDseg (intr : Nat) (ax cx : BitVec 16) : Bool :=
  match intr with
  | 0x21 =>
      let ah := hiByte ax
      let al := loByte ax
      if ah = 0x0a ∨ ah = 0x5a ∨ ah = 0x69 then true
      else if ah = 0x44 then (0x02 ≤ al ∧ al ≤ 0x05) ∨ al = 0x0c ∨ al = 0x0d
      else if ah = 0x5e then al ≠ 0x03
      else false
  | 0x25 | 0x26 => cx ≠ 0xffff
  | _ => false

/-- `need_copy_eseg` -/
def needCopyEseg (intr : Nat) (ax : BitVec 16) : Bool :=
  let ah := hiByte ax
  let al := loByte ax
  match intr with
  | 0x10 =>
      if ah = 0x10 then al = 0x02 ∨ al = 0x09 ∨ al = 0x12 ∨ al = 0x17
      else if ah = 0x11 then al = 0x00 ∨ al = 0x10 ∨ al = 0x20 ∨ al = 0x21
      else if ah = 0x13 ∨ ah = 0x15 ∨ ah = 0x1b then true
      else if ah = 0x1c then al = 1 ∨ al = 2
      else false
  | 0x21 =>
      if ah = 0x57 then ¬(al = 0 ∨ al = 1)
      else if ah = 0x5e then al = 0x03
      else false
  | 0x33 => ah = 0x16 ∨ ah = 0x17
  | _ => false

/-- What the extender uses of a call, and the segment of the frame. -/
structure Call where
  intr : Nat
  ax : BitVec 16
  cx : BitVec 16
  ds : BitVec 16
  es : BitVec 16
  rmSeg : BitVec 16

/-- `SEGOFF2LINEAR(rm_seg, 0)` -/
def Call.frame (c : Call) : Nat :=
  c.rmSeg.toNat * 16

/-- `_min((int) (GetSegmentLimit(sel) + 1), 0x10000)` -/
def copyLen (limit : BitVec 32) : Int :=
  min (limit + 1).toInt 0x10000

section Copies

variable (v : Adapter) (memcpy : Memory → Vga.Loc → Vga.Loc → Nat → Memory)

/-- `memcpy_dos2dos` with an `int` for the `size_t`.  A length that is negative goes on through all
of the address space, which the process does not survive. -/
def copyDos (dst src : Nat) (len : Int) (st : State) : Option State :=
  let n := uwrap 64 len
  if 2 ^ 32 < n then none else Vga.memcpyDos2dos v memcpy dst src n st

variable (ldt : Dpmi.State) (c : Call)

/-- The end of `msdos_pre_extender`. -/
def preExtender (st : State) : Option State := do
  let copyIn (sel : BitVec 16) : State → Option State :=
    copyDos v memcpy c.frame (ldt.getSegmentBase sel).toNat (copyLen (ldt.getSegmentLimit sel))
  let st ← if needCopyDseg c.intr c.ax c.cx then copyIn c.ds st else some st
  if needCopyEseg c.intr c.ax then copyIn c.es st else some st

/-- The copies of `msdos_post_extender`. -/
def postExtender (st : State) : Option State := do
  let copyBack (sel : BitVec 16) : State → Option State :=
    copyDos v memcpy (ldt.getSegmentBase sel).toNat c.frame (copyLen (ldt.getSegmentLimit sel))
  let st ← if needCopyDseg c.intr c.ax c.cx then copyBack c.ds st else some st
  if needCopyEseg c.intr c.ax then copyBack c.es st else some st

end Copies

/-! ## The calls -/

/-- The bytes of a segment that DOS may touch. -/
def segLen (limit : BitVec 32) : Nat :=
  min (limit.toNat + 1) 0x10000

/-- The call gets the segment of this selector. -/
def Needs (c : Call) (sel : BitVec 16) : Prop :=
  (needCopyDseg c.intr c.ax c.cx = true ∧ sel = c.ds) ∨
    (needCopyEseg c.intr c.ax = true ∧ sel = c.es)

/-- No call gets both segments. -/
theorem not_both (intr : Nat) (ax cx : BitVec 16) :
    needCopyDseg intr ax cx = false ∨ needCopyEseg intr ax = false := by
  by_cases hdos : intr = 0x21
  · subst hdos
    simp only [needCopyDseg, needCopyEseg]
    generalize hiByte ax = ah
    generalize loByte ax = al
    by_cases htime : ah = 0x57
    · left
      subst htime
      rfl
    · rw [if_neg htime]
      by_cases hcritical : ah = 0x5e
      · subst hcritical
        by_cases hname : al = 0x03
        · left
          subst hname
          rfl
        · right
          rw [if_pos rfl]
          exact decide_eq_false hname
      · right
        rw [if_neg hcritical]
  · by_cases hdisk : intr = 0x25 ∨ intr = 0x26
    · right
      rcases hdisk with rfl | rfl <;> rfl
    · left
      rw [not_or] at hdisk
      unfold needCopyDseg
      split
      · exact absurd rfl hdos
      · exact absurd rfl hdisk.1
      · exact absurd rfl hdisk.2
      · rfl

section Calls

variable {v : Adapter} {memcpy : Memory → Vga.Loc → Vga.Loc → Nat → Memory} {ldt : Dpmi.State}
  {c : Call} {sel : BitVec 16} {st : State}

/-- Of the two copies of a call one is made. -/
theorem one_copy (hneed : Needs c sel) (copy : BitVec 16 → State → Option State) (st : State) :
    let rest := fun st => if needCopyEseg c.intr c.ax then copy c.es st else some st
    (if needCopyDseg c.intr c.ax c.cx then (copy c.ds st).bind rest else (some st).bind rest) =
      copy sel st := by
  rcases hneed with ⟨hds, rfl⟩ | ⟨hes, rfl⟩
  · have hno := (not_both c.intr c.ax c.cx).resolve_left (by rw [hds]; decide)
    simp only [hds, hno, if_true, Bool.false_eq_true, if_false, Option.bind_fun_some]
  · have hno := (not_both c.intr c.ax c.cx).resolve_right (by rw [hes]; decide)
    simp only [hes, hno, if_true, Bool.false_eq_true, if_false, Option.bind_some]

theorem preExtender_eq (hneed : Needs c sel) : preExtender v memcpy ldt c st =
    copyDos v memcpy c.frame (ldt.getSegmentBase sel).toNat (copyLen (ldt.getSegmentLimit sel))
      st :=
  one_copy hneed (fun sel => copyDos v memcpy c.frame (ldt.getSegmentBase sel).toNat
    (copyLen (ldt.getSegmentLimit sel))) st

theorem postExtender_eq (hneed : Needs c sel) : postExtender v memcpy ldt c st =
    copyDos v memcpy (ldt.getSegmentBase sel).toNat c.frame (copyLen (ldt.getSegmentLimit sel))
      st :=
  one_copy hneed (fun sel => copyDos v memcpy (ldt.getSegmentBase sel).toNat c.frame
    (copyLen (ldt.getSegmentLimit sel))) st

/-- The length is right as long as the limit and one fit in an `int`. -/
theorem copyLen_eq_iff (limit : BitVec 32) :
    copyLen limit = segLen limit ↔ limit.toNat < 0x7fffffff := by
  have hlt := limit.isLt
  rw [copyLen, segLen, BitVec.toInt_eq_toNat_cond, BitVec.toNat_add]
  have hone : (1 : BitVec 32).toNat = 1 := rfl
  rw [hone]
  split <;> omega

theorem copyDos_eq {d s len : Nat} (hlen : len ≤ 2 ^ 32) :
    copyDos v memcpy d s len st = Vga.copyEnds v memcpy false len st (.dos d) (.dos s) := by
  have hwrap : uwrap 64 (len : Int) = len := uwrap_natCast (by omega)
  rw [copyDos]
  simp only [hwrap, if_neg (Nat.not_lt.mpr hlen)]
  rfl

/-- What a call is promised for its segment: as many bytes are copied as DOS may touch, in and
back. -/
def Served (v : Adapter) (ldt : Dpmi.State) (c : Call) (sel : BitVec 16) : Prop :=
  let n := segLen (ldt.getSegmentLimit sel)
  let base := (ldt.getSegmentBase sel).toNat
  copyLen (ldt.getSegmentLimit sel) = n ∧
    ∀ memcpy, Conforms memcpy → ∀ (st : State) (handler : State → State), ∃ st₁ st₂,
      preExtender v memcpy ldt c st = some st₁ ∧ Moved v (.dos c.frame) (.dos base) n st st₁ ∧
        postExtender v memcpy ldt c (handler st₁) = some st₂ ∧
        Moved v (.dos base) (.dos c.frame) n (handler st₁) st₂

/-- The condition: the limit and one fit in an `int`, and the copies spoil nothing that is still
to be read, in and back. -/
def Servable (v : Adapter) (ldt : Dpmi.State) (c : Call) (sel : BitVec 16) : Prop :=
  let n := segLen (ldt.getSegmentLimit sel)
  let base := (ldt.getSegmentBase sel).toNat
  (ldt.getSegmentLimit sel).toNat < 0x7fffffff ∧
    Clear v false (.dos c.frame) (.dos base) n ∧ Clear v false (.dos base) (.dos c.frame) n

/-- With the right length a call is served if both copies move the bytes. -/
theorem served_iff_transfers (hneed : Needs c sel) : Served v ldt c sel ↔
    copyLen (ldt.getSegmentLimit sel) = segLen (ldt.getSegmentLimit sel) ∧
      Transfers v false (.dos c.frame) (.dos (ldt.getSegmentBase sel).toNat)
        (segLen (ldt.getSegmentLimit sel)) ∧
      Transfers v false (.dos (ldt.getSegmentBase sel).toNat) (.dos c.frame)
        (segLen (ldt.getSegmentLimit sel)) := by
  have hle : segLen (ldt.getSegmentLimit sel) ≤ 2 ^ 32 := by
    rw [segLen]
    omega
  simp only [Served, preExtender_eq hneed, postExtender_eq hneed]
  refine and_congr_right fun hlen => ?_
  rw [hlen]
  simp only [copyDos_eq hle]
  constructor
  · intro hserved
    refine ⟨fun memcpy hconf st => ?_, fun memcpy hconf st => ?_⟩
    · obtain ⟨st₁, -, hpre, hin, -⟩ := hserved memcpy hconf st id
      exact ⟨st₁, hpre, hin⟩
    · obtain ⟨-, st₂, -, -, hpost, hback⟩ := hserved memcpy hconf st fun _ => st
      exact ⟨st₂, hpost, hback⟩
  · rintro ⟨hpre, hpost⟩ memcpy hconf st handler
    obtain ⟨st₁, hst₁, hin⟩ := hpre memcpy hconf st
    obtain ⟨st₂, hst₂, hback⟩ := hpost memcpy hconf (handler st₁)
    exact ⟨st₁, st₂, hst₁, hin, hst₂, hback⟩

/-- A call gets its segment, and gives it back, if the limit and one fit in an `int` and the
copies are clear; and without the planar logic of the VGA only then. -/
theorem segment_copy_iff (v : Adapter) (hneed : Needs c sel) :
    (Servable v ldt c sel → Served v ldt c sel) ∧
      (¬v.Planar (.dos c.frame) (.dos (ldt.getSegmentBase sel).toNat) →
        ¬v.Planar (.dos (ldt.getSegmentBase sel).toNat) (.dos c.frame) →
        Served v ldt c sel → Servable v ldt c sel) := by
  have hframe : (Vga.End.dos c.frame).Fits := by
    show c.rmSeg.toNat * 16 < 2 ^ 32
    have := c.rmSeg.isLt
    omega
  have hbase : (Vga.End.dos (ldt.getSegmentBase sel).toNat).Fits := (ldt.getSegmentBase sel).isLt
  rw [served_iff_transfers hneed, copyLen_eq_iff]
  constructor
  · rintro ⟨hlimit, hin, hback⟩
    exact ⟨hlimit, hin.transfers hframe hbase, hback.transfers hbase hframe⟩
  · rintro hplanar hplanar' ⟨hlimit, hin, hback⟩
    exact ⟨hlimit, (Vga.transfers_iff hframe hbase hplanar).mp hin,
      (Vga.transfers_iff hbase hframe hplanar').mp hback⟩

end Calls

/-- A client with a flat data segment, and one of 64K. -/
def twoData : Dpmi.State :=
  { Dpmi.oneClient with
    ldtBuffer := fun e => if e = 32 then 0x00cff2000000ffff#64 else 0x0000f2200000ffff#64
    user := fun _ => 1 }

/-- Buffered keyboard input. -/
def keyboardInput (ds : BitVec 16) : Call :=
  ⟨0x21, 0x0a00, 0, ds, 0, 0xe000⟩

/-- Above the video memory, in text mode, regions that are apart are copied right. -/
theorem textMode_clear {a b n : Nat} (ha : 0xc0000 ≤ a ∧ a + n ≤ 2 ^ 31)
    (hb : 0xc0000 ≤ b ∧ b + n ≤ 2 ^ 31) (hapart : a + n ≤ b ∨ b + n ≤ a) :
    Clear Vga.textMode false (.dos a) (.dos b) n := by
  have hcell : ∀ x i, 0xc0000 ≤ x → x + i < 2 ^ 31 →
      Vga.textMode.cell (.dos x) i = ⟨.host, x + i⟩ := by
    intro x i hlow hhigh
    have hpage : ¬(0xb8 ≤ (x + i) / 4096 ∧ (x + i) / 4096 < 0xc0) := by omega
    rw [Adapter.cell, Vga.dosAddr, Nat.mod_eq_of_lt (by omega), Adapter.unix]
    change (⟨.host, (if 0xb8 ≤ (x + i) / 4096 ∧ (x + i) / 4096 < 0xc0 then _ else
      (x + i) / 4096 * 4096) + _⟩ : Vga.Loc) = _
    rw [if_neg hpage, Nat.div_add_mod']
  refine Vga.clear_of_apart (show a < 2 ^ 32 by omega) (show b < 2 ^ 32 by omega) ?_ ?_ ?_ ?_ ?_
  · rintro ⟨hemu, -⟩
    exact Bool.false_ne_true hemu
  · have hwindows : ¬((0xa0000 ≤ a ∧ a < 0xa0000 + 0x10000) ∨ (0xb8000 ≤ a ∧ a < 0xb8000 + 0x8000) ∨
        (0xc0000 ≤ a ∧ a < 0xc0000 + 0 * 4096)) := by omega
    change (if false then false else if _ then _ else _) = false
    exact (if_neg hwindows).trans (decide_eq_false fun h => h.1 rfl)
  · intro i hi j hj heq
    rw [hcell a i ha.1 (by omega), hcell b j hb.1 (by omega)] at heq
    have hoff := congrArg Loc.off heq
    simp only at hoff
    omega
  · intro i hi j hj heq
    rw [hcell a i ha.1 (by omega), hcell a j ha.1 (by omega)] at heq
    have hoff := congrArg Loc.off heq
    simp only at hoff
    omega
  · exact fun _ _ heq => by cases heq

/-- The 64K of the second segment and those of the frame -/
theorem segment_copy_iff_small : Served Vga.textMode twoData (keyboardInput 0x10f) 0x10f := by
  have hneed : Needs (keyboardInput 0x10f) 0x10f := .inl ⟨by decide, rfl⟩
  have hbase : (twoData.getSegmentBase 0x10f).toNat = 0x200000 := by decide +kernel
  have hlimit : (twoData.getSegmentLimit 0x10f).toNat = 0xffff := by decide +kernel
  have hlen : segLen (twoData.getSegmentLimit 0x10f) = 0x10000 := by rw [segLen, hlimit]; rfl
  have hframe : (keyboardInput 0x10f).frame = 0xe0000 := rfl
  refine (segment_copy_iff Vga.textMode hneed).1 ?_
  rw [Servable, hlimit, hlen, hbase, hframe]
  exact ⟨by decide, textMode_clear (by decide) (by decide) (by decide),
    textMode_clear (by decide) (by decide) (by decide)⟩

/-- Of a flat segment no byte is copied. -/
theorem flat_segment_not_copied :
    copyLen (twoData.getSegmentLimit 0x107) = 0 ∧
      ¬Served Vga.textMode twoData (keyboardInput 0x107) 0x107 := by
  have hlen : copyLen (twoData.getSegmentLimit 0x107) = 0 := by decide +kernel
  refine ⟨hlen, fun hserved => ?_⟩
  have hcopied := hserved.1
  rw [hlen] at hcopied
  exact absurd hcopied (by decide +kernel)

end SegCopy
end Msdos
end Dosemu
