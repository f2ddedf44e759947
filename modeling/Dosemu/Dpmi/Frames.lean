import Dosemu.Dpmi.Ownership
import Dosemu.Lib.PushDown

/-!
# Frames of interrupts and exceptions

A hardware interrupt or an exception of a client calls a handler of the client,
on the locked stack, with a frame that brings it back.  There are three frames
(of an interrupt, of an exception, and the extended one, which has that of an
exception below it), each of words or of double words, by the bitness of the
handler.

`Setup` has what does not change while handlers run: whether THUNK_16_32 is on,
the selectors of the host, and the addresses to which handlers return.

Main results:

- Theorem `enterLpms_eq`: the stack on which a frame is pushed.
- Theorem `enter_framed`: where the frames are, and what is in them.
-/

namespace Dosemu
namespace Dpmi
namespace Frames

open WordMem

/-- What the frames save of `cpuctx_t`; an error code is a word. -/
structure Scp where
  cs : BitVec 16
  ss : BitVec 16
  ds : BitVec 16
  es : BitVec 16
  fs : BitVec 16
  gs : BitVec 16
  eip : BitVec 32
  esp : BitVec 32
  eflags : BitVec 32
  err : BitVec 16
  cr2 : BitVec 32

/-- The descriptors, the registers of the client, the memory, `in_dpmi_pm_stack`, `dpmi_pm` and
the mask register of the first PIC. -/
structure Machine where
  state : State
  scp : Scp
  mem : Mem
  inPmStack : Nat
  pm : Bool
  imr : BitVec 8

/-- `ext__thunk_16_32`, `PMSTACK_SEL`, `_dpmi_sel16`, `_dpmi_sel32` and the offsets
`DPMI_return_from_pm`, `DPMI_return_from_exception` and `DPMI_return_from_ext_exception`. -/
structure Setup where
  thunk : Bool
  pmstackSel : BitVec 16
  sel16 : BitVec 16
  sel32 : BitVec 16
  returnFromPm : BitVec 16
  returnFromException : BitVec 16
  returnFromExtException : BitVec 16
  pm_ne_exception : returnFromPm ≠ returnFromException
  pm_ne_ext : returnFromPm ≠ returnFromExtException
  exception_ne_ext : returnFromException ≠ returnFromExtException

/-- `INTDESC` -/
structure IntDesc where
  selector : BitVec 16
  offset : BitVec 32

def ifFlag : BitVec 32 := 0x200
def tfFlag : BitVec 32 := 0x100
def ntFlag : BitVec 32 := 0x4000
def acFlag : BitVec 32 := 0x40000

/-- `DPMI_pm_stack_size` -/
def pmStackSize : BitVec 32 := 0xf000

/-- `LO_WORD` and `HI_WORD`. -/
def loWord (x : BitVec 32) : BitVec 16 :=
  x.setWidth 16

def hiWord (x : BitVec 32) : BitVec 16 :=
  (x >>> 16).setWidth 16

/-- Assignments to `_LWORD` and `_HWORD`. -/
def setLo (x : BitVec 32) (v : BitVec 16) : BitVec 32 :=
  hiWord x ++ v

def setHi (x : BitVec 32) (v : BitVec 16) : BitVec 32 :=
  v ++ loWord x

def low (x : BitVec 32) : BitVec 32 :=
  (loWord x).setWidth 32

namespace Machine

/-- `DPMI_CLIENT.is_32` -/
def is32 (m : Machine) : Bool :=
  m.state.dpmiClient.is32 == 1

/-- `Segments(sel >> 3).is_32` -/
def segIs32 (m : Machine) (sel : BitVec 16) : Bool :=
  (m.state.segments (ldtEntry sel)).is32 == 1

/-- `GetSegmentType` -/
def getSegmentType (m : Machine) (sel : BitVec 16) : BitVec 2 :=
  if m.state.validAndUsedSelector sel then (m.state.segments (ldtEntry sel)).type else 0

/-- `API_32x` -/
def api32x (c : Setup) (m : Machine) (sel : BitVec 16) : Bool :=
  m.is32 || (m.segIs32 sel && c.thunk)

/-- `dpmi_sel` -/
def dpmiSel (c : Setup) (m : Machine) : BitVec 16 :=
  if m.api32x c m.scp.cs then c.sel32 else c.sel16

/-- `client_esp` -/
def clientEsp (m : Machine) : BitVec 32 :=
  if m.segIs32 m.scp.ss then m.scp.esp else low m.scp.esp

/-- `SEL_ADR_LDT` -/
def selAdrLdt (m : Machine) (sel : BitVec 16) (reg : BitVec 32) (is32 : Bool) : BitVec 32 :=
  m.state.getSegmentBase sel + if is32 then reg else low reg

/-- `SEL_ADR`; a selector of the GDT stands for the memory of dosemu itself. -/
def selAdr (m : Machine) (sel : BitVec 16) (reg : BitVec 32) : Option (BitVec 32) :=
  if sel.getLsbD 2 then some (m.selAdrLdt sel reg (m.segIs32 sel)) else none

/-- `SEL_ADR_CLNT`; a selector of the GDT is an error. -/
def selAdrClnt (c : Setup) (m : Machine) (sel : BitVec 16) (reg : BitVec 32) (is32 : Bool) :
    Option (BitVec 32) :=
  if sel.getLsbD 2 then
    some (m.selAdrLdt sel reg (if !is32 && c.thunk then m.segIs32 sel else is32))
  else none

/-- The end of `enter_lpms`. -/
def onPmStack (c : Setup) (m : Machine) (sel : BitVec 16) (esp : BitVec 32) :
    Option (Machine × BitVec 32) := do
  let sp ← m.selAdrClnt c sel esp m.is32
  return ({ m with
    scp := { m.scp with ss := sel, esp := if m.api32x c sel then esp else low esp }
    inPmStack := m.inPmStack + 1 }, sp)

/-- `D_16_32(DPMI_pm_stack_size)` -/
def pmStackTop (m : Machine) : BitVec 32 :=
  if m.is32 then pmStackSize else low pmStackSize

/-- `enter_lpms`: the address below which the frame is pushed.  There is none if dosemu leaves. -/
def enterLpms (c : Setup) (m : Machine) : Option (Machine × BitVec 32) :=
  let pmstackSel := if m.inPmStack = 0 then c.pmstackSel else m.scp.ss
  if m.scp.ss = c.pmstackSel ∨ m.inPmStack ≠ 0 then
    let esp := m.clientEsp
    if esp < 256 ∨ (m.getSegmentType pmstackSel ≠ 1 ∧
        m.state.getSegmentLimit pmstackSel < esp - 1) then
      if m.scp.ss ≠ c.pmstackSel then
        -- win31 sets ESP to 0 to re-enter lpms
        { m with inPmStack := 0 }.onPmStack c c.pmstackSel m.pmStackTop
      else none
    else m.onPmStack c pmstackSel esp
  else m.onPmStack c pmstackSel m.pmStackTop

/-- `leave_lpms` -/
def leaveLpms (m : Machine) : Machine :=
  { m with inPmStack := m.inPmStack - 1 }

/-- `ADD_16_32(_esp, -n)` -/
def subEsp (m : Machine) (n : Nat) : BitVec 32 :=
  if m.is32 then m.scp.esp - BitVec.ofNat 32 n
  else setLo m.scp.esp (loWord m.scp.esp - BitVec.ofNat 16 n)

/-- The flags with which a handler begins. -/
def handlerFlags (eflags : BitVec 32) : BitVec 32 :=
  eflags &&& ~~~(tfFlag ||| ntFlag ||| acFlag) &&& ~~~ifFlag

/-- The handler is entered, with its frame pushed and ESP below it. -/
def call (m : Machine) (handler : IntDesc) (mem : Mem) (esp : BitVec 32) : Machine :=
  { m with
    mem := mem
    scp := { m.scp with
      cs := handler.selector
      eip := handler.offset
      esp := esp
      eflags := handlerFlags m.scp.eflags } }

/-- The words that `do_pm_int` pushes. -/
def intFrame32 (c : Setup) (m : Machine) (i : BitVec 8) : List (BitVec 32) :=
  [m.imr.setWidth 32 ||| (i.setWidth 32 <<< 8), 0, 0, if m.pm then 1 else 0,
    m.scp.ss.setWidth 32, m.scp.esp, m.scp.eflags, m.scp.cs.setWidth 32, m.scp.eip,
    handlerFlags m.scp.eflags, c.sel32.setWidth 32, c.returnFromPm.setWidth 32]

def intFrame16 (c : Setup) (m : Machine) (i : BitVec 8) : List (BitVec 32) :=
  [m.imr.setWidth 32 ||| (i.setWidth 32 <<< 8), (hiWord m.scp.eip).setWidth 32,
    (hiWord m.scp.esp).setWidth 32, if m.pm then 1 else 0, m.scp.ss.setWidth 32,
    low m.scp.esp, low m.scp.eflags, m.scp.cs.setWidth 32, low m.scp.eip,
    low (handlerFlags m.scp.eflags), c.sel16.setWidth 32, c.returnFromPm.setWidth 32]

/-- `do_pm_int` for an interrupt with a handler of the client's; `isr` is what the in-service
register of the PIC would read. -/
def doPmInt (c : Setup) (m : Machine) (i : BitVec 8) (handler : IntDesc) (isr : BitVec 8)
    (protectVtmr : Bool) : Option Machine := do
  let (s, sp) ← m.enterLpms c
  let m' :=
    if s.api32x c handler.selector then
      s.call handler (pushAll 4 (m.intFrame32 c i) sp s.mem).2 (s.scp.esp - 48)
    else
      s.call handler (pushAll 2 (m.intFrame16 c i) sp s.mem).2
        (setLo s.scp.esp (loWord s.scp.esp - 24))
  let masked := i = 8 ∨ i = 0x70 ∨ protectVtmr = true
  return { m' with pm := true, imr := if masked then m.imr ||| isr else m.imr }

/-- The standard frame of an exception. -/
def excFrame32 (c : Setup) (m : Machine) : List (BitVec 32) :=
  [m.scp.ss.setWidth 32, m.scp.esp, m.scp.eflags, m.scp.cs.setWidth 32, m.scp.eip,
    m.scp.err.setWidth 32, c.sel32.setWidth 32, c.returnFromException.setWidth 32]

def excFrame16 (c : Setup) (m : Machine) : List (BitVec 32) :=
  [m.scp.esp >>> 16, m.scp.ss ++ loWord m.scp.esp, loWord m.scp.eflags ++ m.scp.cs,
    loWord m.scp.eip ++ m.scp.err, c.sel16 ++ c.returnFromException]

/-- `do_legacy_cpu_exception` -/
def doLegacyCpuException (c : Setup) (m : Machine) (entry : IntDesc) : Option Machine := do
  let is32 := m.api32x c entry.selector
  let (s, sp) ← m.enterLpms c
  if is32 then
    return s.call entry (pushAll 4 (m.excFrame32 c) sp s.mem).2 (s.subEsp 0x20)
  else
    return s.call entry (pushAll 4 (m.excFrame16 c) sp s.mem).2 (s.subEsp 0x14)

/-- The extended frame, and below it the standard one. -/
def extFrame (c : Setup) (m : Machine) (is32 : Bool) : List (BitVec 32) :=
  [0, m.scp.cr2, m.scp.gs.setWidth 32, m.scp.fs.setWidth 32, m.scp.ds.setWidth 32,
    m.scp.es.setWidth 32, m.scp.ss.setWidth 32, m.scp.esp, m.scp.eflags, m.scp.cs.setWidth 32,
    m.scp.eip, m.scp.err.setWidth 32] ++
  (if is32 then [c.sel32.setWidth 32, c.returnFromExtException.setWidth 32]
    else [0, c.sel16 ++ c.returnFromExtException]) ++
  (if is32 then m.excFrame32 c else [0, 0, 0] ++ m.excFrame16 c)

/-- `do_pm_cpu_exception` -/
def doPmCpuException (c : Setup) (m : Machine) (entry : IntDesc) : Option Machine := do
  let is32 := m.api32x c entry.selector
  let (s, sp) ← m.enterLpms c
  return s.call entry (pushAll 4 (m.extFrame c is32) sp s.mem).2 (s.subEsp 0x58)

/-- `return_from_hwint`; dosemu leaves if the mode in the frame is not 0 or 1. -/
def returnFromHwint (c : Setup) (m : Machine) (sp : BitVec 32) : Option Machine :=
  let m := m.leaveLpms
  if m.api32x c m.scp.cs then
    let w := wordAt 4 m.mem sp
    if 1 < w 5 then none
    else some { m with
      scp := { m.scp with
        eip := w 0
        cs := (w 1).setWidth 16
        eflags := w 2 ||| ifFlag
        esp := w 3
        ss := (w 4).setWidth 16 }
      pm := w 5 == 1
      imr := (w 8).setWidth 8 }
  else
    let w := wordAt 2 m.mem sp
    if 1 < w 5 then none
    else some { m with
      scp := { m.scp with
        eip := setHi (setLo m.scp.eip ((w 0).setWidth 16)) ((w 7).setWidth 16)
        cs := (w 1).setWidth 16
        eflags := w 2 ||| ifFlag
        esp := setHi (setLo m.scp.esp ((w 3).setWidth 16)) ((w 6).setWidth 16)
        ss := (w 4).setWidth 16 }
      pm := w 5 == 1
      imr := (w 8).setWidth 8 }

/-- `return_from_exception` -/
def returnFromException (c : Setup) (m : Machine) : Option Machine := do
  let sp ← m.selAdr m.scp.ss m.scp.esp
  if m.api32x c m.scp.cs then
    let w := wordAt 4 m.mem sp
    return { m with
      scp := { m.scp with
        eip := w 1
        cs := (w 2).setWidth 16
        eflags := w 3
        esp := w 4
        ss := (w 5).setWidth 16 } }
  else
    let w := wordAt 2 m.mem sp
    return { m with
      scp := { m.scp with
        eip := setLo m.scp.eip ((w 1).setWidth 16)
        cs := (w 2).setWidth 16
        eflags := w 3
        esp := setHi (setLo m.scp.esp ((w 4).setWidth 16)) ((w 6).setWidth 16)
        ss := (w 5).setWidth 16 } }

/-- The branch of `do_dpmi_hlt` for the extended frame. -/
def returnFromExtException (c : Setup) (m : Machine) (sp : BitVec 32) : Machine :=
  let m := m.leaveLpms
  let w := wordAt 4 m.mem (if m.api32x c m.scp.cs then sp else sp + 4)
  { m with
    scp := { m.scp with
      eip := w 1
      cs := (w 2).setWidth 16
      eflags := w 3
      esp := w 4
      ss := (w 5).setWidth 16
      es := (w 6).setWidth 16
      ds := (w 7).setWidth 16
      fs := (w 8).setWidth 16
      gs := (w 9).setWidth 16 } }

/-- `do_dpmi_hlt`, for the three returns; EIP is that of the HLT. -/
def doDpmiHlt (c : Setup) (m : Machine) : Option Machine := do
  let sp ← m.selAdr m.scp.ss m.scp.esp
  if m.scp.cs ≠ m.dpmiSel c then none
  else if m.scp.eip = c.returnFromPm.setWidth 32 then m.returnFromHwint c sp
  else if m.scp.eip = c.returnFromException.setWidth 32 then m.leaveLpms.returnFromException c
  else if m.scp.eip = c.returnFromExtException.setWidth 32 then
    some (m.returnFromExtException c sp)
  else none

/-- The client's IRET or far RET: `n` words of `w` bytes are popped, the first two of which are the
return address. -/
def popReturn (w n : Nat) (eflags : BitVec 32) (m : Machine) : Option Machine := do
  let sp ← m.selAdr m.scp.ss m.scp.esp
  return { m with
    scp := { m.scp with
      eip := wordAt w m.mem sp 0
      cs := (wordAt w m.mem sp 1).setWidth 16
      eflags := eflags
      esp :=
        if m.segIs32 m.scp.ss then m.scp.esp + BitVec.ofNat 32 (w * n)
        else setLo m.scp.esp (loWord m.scp.esp + BitVec.ofNat 16 (w * n)) } }

end Machine

/-! ## Words and stack pointers -/

theorem setHi_setLo (x v : BitVec 32) : setHi (setLo x (loWord v)) (hiWord v) = v := by
  apply BitVec.eq_of_getLsbD_eq
  intro k hk
  rw [setHi, loWord, setLo, hiWord, hiWord, loWord, BitVec.getLsbD_append]
  by_cases hlow : k < 16
  · rw [if_pos hlow, BitVec.getLsbD_setWidth, BitVec.getLsbD_append, if_pos hlow,
      BitVec.getLsbD_setWidth, decide_eq_true hlow, Bool.true_and, Bool.true_and]
  · rw [if_neg hlow, BitVec.getLsbD_setWidth, BitVec.getLsbD_ushiftRight,
      decide_eq_true (by omega), Bool.true_and, show 16 + (k - 16) = k by omega]

theorem toNat_low (x : BitVec 32) : (low x).toNat = x.toNat % 65536 := by
  rw [low, loWord, BitVec.toNat_setWidth, BitVec.toNat_setWidth]
  omega

theorem toNat_setLo (x : BitVec 32) (v : BitVec 16) :
    (setLo x v).toNat = x.toNat / 65536 * 65536 + v.toNat := by
  have hlt := x.isLt
  have hv := v.isLt
  rw [setLo, BitVec.toNat_append, hiWord, BitVec.toNat_setWidth, BitVec.toNat_ushiftRight,
    Nat.shiftRight_eq_div_pow, ← Nat.shiftLeft_add_eq_or_of_lt hv, Nat.shiftLeft_eq]
  omega

namespace Machine

variable {c : Setup} {m m' s : Machine} {sp : BitVec 32}

/-- What the stack pointer of the client addresses. -/
def stackAddr (m : Machine) : BitVec 32 :=
  m.state.getSegmentBase m.scp.ss + m.clientEsp

theorem selAdr_stack (hti : m.scp.ss.getLsbD 2 = true) :
    m.selAdr m.scp.ss m.scp.esp = some m.stackAddr := by
  rw [selAdr, if_pos hti, selAdrLdt, stackAddr, clientEsp]

/-- The locked stack is entered anew from a stack that has no room. -/
def Rejects (c : Setup) (m : Machine) : Prop :=
  (m.scp.ss = c.pmstackSel ∨ m.inPmStack ≠ 0) ∧
    (m.clientEsp < 256 ∨
      (m.getSegmentType (if m.inPmStack = 0 then c.pmstackSel else m.scp.ss) ≠ 1 ∧
        m.state.getSegmentLimit (if m.inPmStack = 0 then c.pmstackSel else m.scp.ss) <
          m.clientEsp - 1))

instance : Decidable (Rejects c m) :=
  inferInstanceAs (Decidable (_ ∧ _))

/-- The stack on which a frame is pushed, its stack pointer, and how many handlers run on it. -/
def entrySel (c : Setup) (m : Machine) : BitVec 16 :=
  if Rejects c m ∨ m.inPmStack = 0 then c.pmstackSel else m.scp.ss

def entryEsp (c : Setup) (m : Machine) : BitVec 32 :=
  if (m.scp.ss = c.pmstackSel ∨ m.inPmStack ≠ 0) ∧ ¬Rejects c m then m.clientEsp
  else m.pmStackTop

def entryCount (c : Setup) (m : Machine) : Nat :=
  if Rejects c m then 0 else m.inPmStack

/-- `enter_lpms` by its cases. -/
theorem enterLpms_eq (c : Setup) (m : Machine) :
    m.enterLpms c =
      if Rejects c m ∧ m.scp.ss = c.pmstackSel then none
      else { m with inPmStack := m.entryCount c }.onPmStack c (m.entrySel c) (m.entryEsp c) := by
  rw [enterLpms]
  by_cases huse : m.scp.ss = c.pmstackSel ∨ m.inPmStack ≠ 0
  · by_cases hbad : m.clientEsp < 256 ∨
        (m.getSegmentType (if m.inPmStack = 0 then c.pmstackSel else m.scp.ss) ≠ 1 ∧
          m.state.getSegmentLimit (if m.inPmStack = 0 then c.pmstackSel else m.scp.ss) <
            m.clientEsp - 1)
    · have hrej : Rejects c m := ⟨huse, hbad⟩
      simp only [if_pos huse, if_pos hbad, hrej, true_and, entryCount, entrySel, entryEsp,
        true_or, if_true, not_true_eq_false, and_false, if_false, ite_not]
    · have hrej : ¬Rejects c m := fun h => hbad h.2
      simp only [if_pos huse, if_neg hbad, hrej, false_and, if_false, entryCount, entrySel,
        entryEsp,
        false_or, not_false_eq_true, and_true]
  · have hrej : ¬Rejects c m := fun h => huse h.1
    have hzero : m.inPmStack = 0 := by
      by_contra hne
      exact huse (.inr hne)
    simp only [if_neg huse, if_neg fun h : Rejects c m ∧ _ => hrej h.1, entryCount, if_neg hrej,
      entrySel, if_pos (show Rejects c m ∨ m.inPmStack = 0 from .inr hzero), entryEsp,
      if_neg fun h : (m.scp.ss = c.pmstackSel ∨ m.inPmStack ≠ 0) ∧ _ => huse h.1, if_pos hzero]

/-- `SEL_ADR_CLNT` decides as `API_32x`. -/
theorem clnt_eq_api32x (c : Setup) (m : Machine) (sel : BitVec 16) :
    (if (!m.is32 && c.thunk) = true then m.segIs32 sel else m.is32) = m.api32x c sel := by
  rw [api32x]
  cases m.is32 <;> cases c.thunk <;> cases m.segIs32 sel <;> rfl

theorem toNat_pmStackTop (m : Machine) : m.pmStackTop.toNat = 0xf000 := by
  rw [pmStackTop]
  split <;> rfl

/-- The frame is pushed in a stack with room for it. -/
theorem entryEsp_ge (c : Setup) (m : Machine) : 256 ≤ (m.entryEsp c).toNat := by
  rw [entryEsp]
  split
  · next h =>
      by_contra hlt
      apply h.2
      refine ⟨h.1, .inl ?_⟩
      rw [BitVec.lt_def]
      exact Nat.not_le.mp hlt
  · rw [toNat_pmStackTop]
    decide

theorem entryEsp_lt (h : m.segIs32 (m.entrySel c) = false) : (m.entryEsp c).toNat < 65536 := by
  rw [entryEsp]
  split
  · next huse =>
      have hsel : m.entrySel c = m.scp.ss := by
        rw [entrySel]
        split
        · next hzero => exact (huse.1.resolve_right fun hne => hne (hzero.resolve_left huse.2)).symm
        · rfl
      rw [hsel] at h
      rw [clientEsp, h, if_neg Bool.false_ne_true, toNat_low]
      exact Nat.mod_lt _ (by decide)
  · rw [toNat_pmStackTop]
    decide

/-- A frame is pushed on this stack. -/
structure Entered (c : Setup) (m s : Machine) (sp : BitVec 32) : Prop where
  ti : (m.entrySel c).getLsbD 2 = true
  eq : s = { m with
    scp := { m.scp with
      ss := m.entrySel c
      esp := if m.api32x c (m.entrySel c) then m.entryEsp c else low (m.entryEsp c) }
    inPmStack := m.entryCount c + 1 }
  sp : sp = m.state.getSegmentBase (m.entrySel c) + s.scp.esp

theorem enterLpms_entered (h : m.enterLpms c = some (s, sp)) : Entered c m s sp := by
  rw [enterLpms_eq] at h
  by_cases hleaves : Rejects c m ∧ m.scp.ss = c.pmstackSel
  · rw [if_pos hleaves] at h
    cases h
  · rw [if_neg hleaves, onPmStack, selAdrClnt] at h
    by_cases hti : (m.entrySel c).getLsbD 2 = true
    · simp only [hti, if_true, Option.bind_eq_bind, Option.bind_some] at h
      cases h
      refine ⟨hti, rfl, ?_⟩
      show _ + (if (if (!m.is32 && c.thunk) = true then m.segIs32 (m.entrySel c) else m.is32) = true
        then _ else _) = _ + _
      rw [clnt_eq_api32x]
      rfl
    · simp only [hti, Bool.false_eq_true, if_false, Option.bind_eq_bind, Option.bind_none] at h
      cases h

/-- The frame of `n` bytes is where the stack pointer of the client will be. -/
def Room (c : Setup) (m : Machine) (n : Nat) : Prop :=
  m.is32 = true ∨ m.segIs32 (m.entrySel c) = false ∨ n ≤ (m.entryEsp c).toNat % 65536

theorem Entered.clientEsp (h : Entered c m s sp) : s.clientEsp = s.scp.esp := by
  rw [Machine.clientEsp]
  split
  · rfl
  · next hseg =>
      have hsel : m.segIs32 (m.entrySel c) = false := by
        rw [h.eq] at hseg
        exact Bool.not_eq_true _ ▸ hseg
      have hlt := entryEsp_lt hsel
      apply BitVec.eq_of_toNat_eq
      rw [toNat_low, h.eq]
      simp only
      split
      · omega
      · rw [toNat_low]
        omega

theorem Entered.esp_le (h : Entered c m s sp) : s.scp.esp.toNat ≤ (m.entryEsp c).toNat := by
  rw [h.eq]
  simp only
  split
  · exact Nat.le_refl _
  · rw [toNat_low]
    exact Nat.mod_le _ _

/-- The stack has room for the frame. -/
theorem Entered.room (h : Entered c m s sp) {n : Nat} (hn : n ≤ 256) (hroom : Room c m n) :
    n ≤ s.scp.esp.toNat := by
  have hge := entryEsp_ge c m
  rw [h.eq]
  simp only
  split
  · omega
  · next hapi =>
      rw [toNat_low]
      rcases hroom with h32 | h16 | hmod
      · rw [api32x, h32, Bool.true_or] at hapi
        exact absurd rfl hapi
      · have hlt := entryEsp_lt h16
        omega
      · exact hmod

theorem Entered.room_low (h : Entered c m s sp) (h16 : m.is32 = false) {n : Nat} (hn : n ≤ 256)
    (hroom : Room c m n) : n ≤ s.scp.esp.toNat % 65536 := by
  have hge := entryEsp_ge c m
  have hfits := h.room hn hroom
  by_cases hseg : m.segIs32 (m.entrySel c) = false
  · have hlt := entryEsp_lt hseg
    rw [h.eq, api32x, h16, hseg]
    simp only [Bool.false_and, Bool.or_false, Bool.false_eq_true, if_false, toNat_low]
    omega
  · have hmod : n ≤ (m.entryEsp c).toNat % 65536 := by
      rcases hroom with h32 | h | h
      · rw [h16] at h32
        cases h32
      · exact absurd h hseg
      · exact h
    rw [h.eq]
    simp only
    split
    · exact hmod
    · rw [toNat_low]
      omega

theorem sub_low {x : BitVec 32} {n : Nat} (h : n ≤ x.toNat % 65536) :
    setLo x (loWord x - BitVec.ofNat 16 n) = x - BitVec.ofNat 32 n := by
  have hlt := x.isLt
  apply BitVec.eq_of_toNat_eq
  rw [toNat_setLo, BitVec.toNat_sub, BitVec.toNat_sub, BitVec.toNat_ofNat, BitVec.toNat_ofNat,
    loWord, BitVec.toNat_setWidth]
  omega

theorem Entered.subEsp (h : Entered c m s sp) {n : Nat} (hn : n ≤ 256) (hroom : Room c m n) :
    s.subEsp n = s.scp.esp - BitVec.ofNat 32 n := by
  rw [Machine.subEsp]
  split
  · rfl
  · next h32 =>
      have h16 : m.is32 = false := by
        rw [h.eq] at h32
        exact Bool.not_eq_true _ ▸ h32
      exact sub_low (h.room_low h16 hn hroom)

/-- The handler's stack begins with its frame. -/
structure Framed (c : Setup) (m m' : Machine) (w : Nat) (vs : List (BitVec 32)) : Prop where
  ss : m'.scp.ss = m.entrySel c
  ti : m'.scp.ss.getLsbD 2 = true
  state : m'.state = m.state
  inPmStack : m'.inPmStack = m.entryCount c + 1
  frame : ∃ sp, m'.mem = (pushAll w vs sp m.mem).2 ∧ m'.stackAddr = (pushAll w vs sp m.mem).1
  low : m'.segIs32 m'.scp.ss = false → m'.clientEsp.toNat + w * vs.length < 65536
  below : m'.clientEsp.toNat + w * vs.length ≤ (m.entryEsp c).toNat

theorem Entered.framed (h : Entered c m s sp) (w : Nat) (vs : List (BitVec 32))
    (hfits : w * vs.length ≤ s.scp.esp.toNat) (handler : IntDesc) (pm : Bool) (imr : BitVec 8) :
    Framed c m { s.call handler (pushAll w vs sp s.mem).2
      (s.scp.esp - BitVec.ofNat 32 (w * vs.length)) with pm := pm, imr := imr } w vs := by
  have hmem : s.mem = m.mem := by rw [h.eq]
  have hstate : s.state = m.state := by rw [h.eq]
  have hss : s.scp.ss = m.entrySel c := by rw [h.eq]
  have hesp : (s.scp.esp - BitVec.ofNat 32 (w * vs.length)).toNat =
      s.scp.esp.toNat - w * vs.length := by
    have hlt := s.scp.esp.isLt
    rw [BitVec.toNat_sub, BitVec.toNat_ofNat]
    omega
  have hlt : m.segIs32 (m.entrySel c) = false → s.scp.esp.toNat < 65536 := by
    intro hseg
    have hlt := entryEsp_lt hseg
    rw [h.eq]
    simp only
    split
    · exact hlt
    · rw [toNat_low]
      omega
  have hclient : Machine.clientEsp { s.call handler (pushAll w vs sp s.mem).2
      (s.scp.esp - BitVec.ofNat 32 (w * vs.length)) with pm := pm, imr := imr } =
      s.scp.esp - BitVec.ofNat 32 (w * vs.length) := by
    rw [Machine.clientEsp]
    split
    · rfl
    · next hseg =>
        have hseg' : m.segIs32 (m.entrySel c) = false := by
          rw [← hss, Machine.segIs32, ← hstate]
          exact Bool.not_eq_true _ ▸ hseg
        apply BitVec.eq_of_toNat_eq
        have := hlt hseg'
        rw [toNat_low]
        show (s.scp.esp - _).toNat % 65536 = _
        rw [hesp]
        omega
  refine ⟨hss, ?_, hstate, ?_, ⟨sp, by rw [← hmem]; rfl, ?_⟩, ?_, ?_⟩
  · show s.scp.ss.getLsbD 2 = true
    rw [hss]
    exact h.ti
  · show s.inPmStack = _
    rw [h.eq]
  · rw [stackAddr, hclient, pushAll_fst, h.sp]
    show s.state.getSegmentBase s.scp.ss + _ = _
    rw [hss, hstate, BitVec.sub_eq_add_neg, BitVec.sub_eq_add_neg, BitVec.add_assoc]
  · intro hseg
    have hseg' : m.segIs32 (m.entrySel c) = false := by
      rw [← hss, Machine.segIs32, ← hstate]
      exact hseg
    have := hlt hseg'
    rw [hclient, hesp]
    omega
  · have := h.esp_le
    rw [hclient, hesp]
    omega

/-! ## The entries -/

variable {handler : IntDesc}

/-- The bitness is that of the handler, before and after the switch of stacks. -/
theorem Entered.api32x (h : Entered c m s sp) (sel : BitVec 16) :
    s.api32x c sel = m.api32x c sel := by
  rw [h.eq]
  rfl

/-- With a 32-bit handler the whole ESP is kept, or the stack is one of 16 bits. -/
theorem Entered.room_wide (h : Entered c m s sp) {n : Nat} (hn : n ≤ 256) {sel : BitVec 16}
    (hwide : m.api32x c sel = true) : n ≤ s.scp.esp.toNat := by
  have hge := entryEsp_ge c m
  by_cases hseg : m.segIs32 (m.entrySel c) = false
  · exact h.room hn (.inr (.inl hseg))
  · rw [Machine.api32x, Bool.or_eq_true, Bool.and_eq_true] at hwide
    rcases hwide with h32 | ⟨-, hthunk⟩
    · exact h.room hn (.inl h32)
    · have hstack : m.api32x c (m.entrySel c) = true := by
        rw [Machine.api32x, hthunk, Bool.and_true, Bool.eq_true_of_not_eq_false hseg, Bool.or_true]
      rw [h.eq]
      simp only [hstack, if_true]
      omega

/-- What calls a handler: an interrupt, an exception with the standard frame, or one with the
extended frame. -/
inductive Entry where
  | pmInt (i isr : BitVec 8) (protectVtmr : Bool)
  | legacy
  | ext

namespace Entry

/-- The size of the words that are pushed; a frame of double words has words for a 16-bit
handler of an exception too. -/
def width (wide : Bool) : Entry → Nat
  | pmInt .. => if wide then 4 else 2
  | legacy | ext => 4

/-- The frame. -/
def words (c : Setup) (m : Machine) (wide : Bool) : Entry → List (BitVec 32)
  | pmInt i _ _ => if wide then m.intFrame32 c i else m.intFrame16 c i
  | legacy => if wide then m.excFrame32 c else m.excFrame16 c
  | ext => m.extFrame c wide

def size (wide : Bool) : Entry → Nat
  | pmInt .. => if wide then 48 else 24
  | legacy => if wide then 32 else 20
  | ext => 88

theorem size_eq (e : Entry) (c : Setup) (m : Machine) (wide : Bool) :
    e.width wide * (e.words c m wide).length = e.size wide := by
  cases e <;> cases wide <;> rfl

theorem size_le (e : Entry) (wide : Bool) : e.size wide ≤ 88 := by
  cases e <;> cases wide <;> simp [size]

/-- There is room for the frame; the double words of an interrupt need none of their own. -/
def Fits (c : Setup) (m : Machine) (wide : Bool) : Entry → Prop
  | pmInt .. => wide = true ∨ Room c m 24
  | legacy => Room c m (legacy.size wide)
  | ext => Room c m (ext.size wide)

end Entry

/-- The handler is called. -/
def enter (c : Setup) (e : Entry) (handler : IntDesc) (m : Machine) : Option Machine :=
  match e with
  | .pmInt i isr protectVtmr => m.doPmInt c i handler isr protectVtmr
  | .legacy => m.doLegacyCpuException c handler
  | .ext => m.doPmCpuException c handler

theorem doPmInt_framed {i isr : BitVec 8} {protectVtmr : Bool}
    (h : m.doPmInt c i handler isr protectVtmr = some m')
    (hfits : (Entry.pmInt i isr protectVtmr).Fits c m (m.api32x c handler.selector)) :
    Framed c m m' (if m.api32x c handler.selector then 4 else 2)
      (if m.api32x c handler.selector then m.intFrame32 c i else m.intFrame16 c i) := by
  rw [doPmInt, Option.bind_eq_bind, Option.bind_eq_some_iff] at h
  obtain ⟨⟨s, sp⟩, henter, h⟩ := h
  have hentered := enterLpms_entered henter
  rw [Entry.Fits] at hfits
  by_cases hwide : m.api32x c handler.selector = true
  · simp only [hentered.api32x, hwide, if_true] at h ⊢
    cases h
    exact hentered.framed 4 (m.intFrame32 c i)
      (hentered.room_wide (show 48 ≤ 256 by decide) hwide) handler true _
  · have hroom := hfits.resolve_left hwide
    simp only [hentered.api32x, hwide, Bool.false_eq_true, if_false] at h ⊢
    cases h
    have h16 : m.is32 = false := by
      rw [Machine.api32x, Bool.or_eq_true, not_or] at hwide
      exact Bool.not_eq_true _ ▸ hwide.1
    have hlow := hentered.room_low h16 (by decide) hroom
    rw [show (24 : BitVec 16) = BitVec.ofNat 16 24 from rfl, sub_low hlow]
    exact hentered.framed 2 (m.intFrame16 c i)
      (hentered.room (show 24 ≤ 256 by decide) hroom) handler true _

theorem doLegacyCpuException_framed (h : m.doLegacyCpuException c handler = some m')
    (hfits : Entry.legacy.Fits c m (m.api32x c handler.selector)) :
    Framed c m m' 4
      (if m.api32x c handler.selector then m.excFrame32 c else m.excFrame16 c) := by
  rw [doLegacyCpuException, Option.bind_eq_bind, Option.bind_eq_some_iff] at h
  obtain ⟨⟨s, sp⟩, henter, h⟩ := h
  have hentered := enterLpms_entered henter
  rw [Entry.Fits] at hfits
  by_cases hwide : m.api32x c handler.selector = true
  · simp only [hwide, if_true] at h hfits ⊢
    cases h
    rw [hentered.subEsp (show 32 ≤ 256 by decide) hfits]
    exact hentered.framed 4 (m.excFrame32 c) (hentered.room (show 32 ≤ 256 by decide) hfits)
      handler _ _
  · simp only [hwide, Bool.false_eq_true, if_false] at h hfits ⊢
    cases h
    rw [hentered.subEsp (show 20 ≤ 256 by decide) hfits]
    exact hentered.framed 4 (m.excFrame16 c) (hentered.room (show 20 ≤ 256 by decide) hfits)
      handler _ _

theorem doPmCpuException_framed (h : m.doPmCpuException c handler = some m')
    (hfits : Entry.ext.Fits c m (m.api32x c handler.selector)) :
    Framed c m m' 4 (m.extFrame c (m.api32x c handler.selector)) := by
  rw [doPmCpuException, Option.bind_eq_bind, Option.bind_eq_some_iff] at h
  obtain ⟨⟨s, sp⟩, henter, h⟩ := h
  have hentered := enterLpms_entered henter
  rw [Entry.Fits] at hfits
  have hlength : 4 * (m.extFrame c (m.api32x c handler.selector)).length = 88 :=
    Entry.ext.size_eq c m _
  cases h
  rw [hentered.subEsp (show 88 ≤ 256 by decide) hfits]
  show Framed c m (s.call handler _ (s.scp.esp - BitVec.ofNat 32 88)) 4 _
  rw [← hlength]
  exact hentered.framed 4 (m.extFrame c (m.api32x c handler.selector))
    (hlength ▸ hentered.room (show 88 ≤ 256 by decide) hfits) handler _ _

/-- The handler begins with its frame on the stack. -/
theorem enter_framed {e : Entry} (h : m.enter c e handler = some m')
    (hfits : e.Fits c m (m.api32x c handler.selector)) :
    Framed c m m' (e.width (m.api32x c handler.selector))
      (e.words c m (m.api32x c handler.selector)) := by
  cases e with
  | pmInt i isr protectVtmr => exact doPmInt_framed h hfits
  | legacy => exact doLegacyCpuException_framed h hfits
  | ext => exact doPmCpuException_framed h hfits

end Machine

end Frames
end Dpmi
end Dosemu
