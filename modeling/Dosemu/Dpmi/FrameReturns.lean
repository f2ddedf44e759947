import Dosemu.Dpmi.Frames

/-!
# Returns through the frames

A handler returns with an IRET or a far RET, which brings the client to a HLT of
the host, and the rest of the frame is read there.  Between the call and the
return other handlers may be called, with their own frames on the same stack.

Main results:

- Theorem `returns`: what is read from each frame is what was interrupted.
- Theorem `Run.kept`: handlers that are called while frames are on the stack leave
  these frames alone.
- Theorem `frames_restore`: an interrupted context comes back, whatever is called
  in between.
-/

namespace Dosemu
namespace Dpmi
namespace Frames

open WordMem

/-! ## Words of the frames -/

theorem and_dword (x : BitVec 32) : x &&& BitVec.ofNat 32 (2 ^ (8 * 4) - 1) = x :=
  BitVec.and_allOnes

theorem and_word (x : BitVec 32) : x &&& BitVec.ofNat 32 (2 ^ (8 * 2) - 1) = low x := by
  apply BitVec.eq_of_toNat_eq
  rw [BitVec.toNat_and, toNat_low, BitVec.toNat_ofNat]
  exact Nat.and_two_pow_sub_one_eq_mod x.toNat 16

theorem loWord_setWidth (v : BitVec 16) : loWord (v.setWidth 32) = v := by
  ext k hk
  simp [loWord]

theorem low_setWidth (v : BitVec 16) : low (v.setWidth 32) = v.setWidth 32 := by
  rw [low, loWord_setWidth]

theorem loWord_low (x : BitVec 32) : loWord (low x) = loWord x :=
  loWord_setWidth (loWord x)

theorem loWord_append (u v : BitVec 16) : loWord (u ++ v) = v := by
  apply BitVec.eq_of_getLsbD_eq
  intro k hk
  rw [loWord, BitVec.getLsbD_setWidth, BitVec.getLsbD_append, if_pos hk, decide_eq_true hk,
    Bool.true_and]

theorem hiWord_append (u v : BitVec 16) : hiWord (u ++ v) = u := by
  apply BitVec.eq_of_getLsbD_eq
  intro k hk
  rw [hiWord, BitVec.getLsbD_setWidth, BitVec.getLsbD_ushiftRight, BitVec.getLsbD_append,
    if_neg (by omega), decide_eq_true hk, Bool.true_and, Nat.add_sub_cancel_left]

namespace Machine

variable {c : Setup} {m m₁ m₂ m₃ m' : Machine} {w k n : Nat} {vs : List (BitVec 32)}

/-- The stack pointer is `k` bytes into the frame with which the handler began. -/
structure AtFrame (m₁ m₂ : Machine) (k : Nat) : Prop where
  ss : m₂.scp.ss = m₁.scp.ss
  base : m₂.state.getSegmentBase m₁.scp.ss = m₁.state.getSegmentBase m₁.scp.ss
  bits : m₂.segIs32 m₁.scp.ss = m₁.segIs32 m₁.scp.ss
  esp : m₂.clientEsp = m₁.clientEsp + BitVec.ofNat 32 k

theorem AtFrame.stackAddr (h : AtFrame m₁ m₂ k) :
    m₂.stackAddr = m₁.stackAddr + BitVec.ofNat 32 k := by
  rw [Machine.stackAddr, Machine.stackAddr, h.ss, h.base, h.esp, BitVec.add_assoc]

/-- The frame is as it was when the handler began. -/
def Untouched (m₁ m₂ : Machine) (n : Nat) : Prop :=
  ∀ i, i < n →
    m₂.mem (m₁.stackAddr + BitVec.ofNat 32 i) = m₁.mem (m₁.stackAddr + BitVec.ofNat 32 i)

/-- The words that a handler finds in its frame. -/
theorem Framed.word (h : Framed c m m₁ w vs) (hmem : Untouched m₁ m₂ (w * vs.length)) (hw : w ≤ 4)
    (hlen : w * vs.length < 2 ^ 32) (hk : k < vs.length) :
    wordAt w m₂.mem m₁.stackAddr k =
      vs.getD (vs.length - 1 - k) 0 &&& BitVec.ofNat 32 (2 ^ (8 * w) - 1) := by
  obtain ⟨sp, hpushed, haddr⟩ := h.frame
  rw [wordAt_congr hmem (Nat.mul_le_mul_left w hk), hpushed, haddr, wordAt_pushAll hw hlen hk,
    List.getElem_eq_getD 0]

/-! ## The return instruction -/

/-- The machine after a return instruction. -/
def popped (w n : Nat) (eflags : BitVec 32) (m : Machine) : Machine :=
  { m with
    scp := { m.scp with
      eip := wordAt w m.mem m.stackAddr 0
      cs := (wordAt w m.mem m.stackAddr 1).setWidth 16
      eflags := eflags
      esp :=
        if m.segIs32 m.scp.ss then m.scp.esp + BitVec.ofNat 32 (w * n)
        else setLo m.scp.esp (loWord m.scp.esp + BitVec.ofNat 16 (w * n)) } }

variable {eflags : BitVec 32}

theorem popReturn_eq (hti : m.scp.ss.getLsbD 2 = true) :
    m.popReturn w n eflags = some (m.popped w n eflags) := by
  rw [popReturn, selAdr_stack hti]
  rfl

theorem popped_stackAddr
    (hfits : m.segIs32 m.scp.ss = false → m.clientEsp.toNat + w * n < 65536) :
    (m.popped w n eflags).stackAddr = m.stackAddr + BitVec.ofNat 32 (w * n) := by
  have hesp : (m.popped w n eflags).clientEsp = m.clientEsp + BitVec.ofNat 32 (w * n) := by
    by_cases hseg : m.segIs32 m.scp.ss = true
    · have hseg' : (m.popped w n eflags).segIs32 (m.popped w n eflags).scp.ss = true := hseg
      rw [clientEsp, clientEsp, if_pos hseg, if_pos hseg', popped]
      simp only [if_pos hseg]
    · have hseg' : ¬(m.popped w n eflags).segIs32 (m.popped w n eflags).scp.ss = true := hseg
      have hlt := hfits (Bool.not_eq_true _ ▸ hseg)
      rw [clientEsp, if_neg hseg, toNat_low] at hlt
      rw [clientEsp, clientEsp, if_neg hseg, if_neg hseg', popped]
      simp only [if_neg hseg]
      apply BitVec.eq_of_toNat_eq
      rw [BitVec.toNat_add, toNat_low, toNat_low, toNat_setLo, BitVec.toNat_add, loWord,
        BitVec.toNat_setWidth, BitVec.toNat_ofNat, BitVec.toNat_ofNat]
      omega
  rw [stackAddr, hesp, ← BitVec.add_assoc]
  rfl

/-! ## The HLT -/

/-- The code segments of the host, one of 16 bits and one of 32. -/
structure HostOk (c : Setup) (m : Machine) : Prop where
  sel16 : m.segIs32 c.sel16 = false
  sel32 : m.segIs32 c.sel32 = true

/-- The bitness of a handler of this client. -/
structure Bitness (c : Setup) (m : Machine) (wide : Bool) : Prop where
  ofWide : wide = true → m.is32 = true ∨ c.thunk = true
  ofNarrow : wide = false → m.is32 = false

theorem bitness_of_handler (c : Setup) (m : Machine) (sel : BitVec 16) :
    Bitness c m (m.api32x c sel) := by
  constructor
  · intro h
    rw [api32x, Bool.or_eq_true, Bool.and_eq_true] at h
    exact h.imp_right And.right
  · intro h
    rw [api32x, Bool.or_eq_false_iff] at h
    exact h.1

theorem Bitness.congr {wide : Bool} (h : Bitness c m wide) (heq : m'.is32 = m.is32) :
    Bitness c m' wide :=
  ⟨heq ▸ h.ofWide, heq ▸ h.ofNarrow⟩

theorem Bitness.api32x {wide : Bool} (h : Bitness c m wide) (host : HostOk c m)
    (hcs : m.scp.cs = if wide then c.sel32 else c.sel16) : m.api32x c m.scp.cs = wide := by
  cases wide with
  | true =>
      rw [hcs, Machine.api32x, if_pos rfl, host.sel32, Bool.true_and, Bool.or_eq_true]
      exact h.ofWide rfl
  | false =>
      rw [hcs, Machine.api32x, if_neg Bool.false_ne_true, host.sel16, h.ofNarrow rfl]
      rfl

theorem Bitness.dpmiSel {wide : Bool} (h : Bitness c m wide) (host : HostOk c m)
    (hcs : m.scp.cs = if wide then c.sel32 else c.sel16) : m.scp.cs = m.dpmiSel c := by
  rw [Machine.dpmiSel, h.api32x host hcs, hcs]

/-- The HLT by the offset at which it is. -/
theorem doDpmiHlt_eq (hti : m.scp.ss.getLsbD 2 = true) (hsel : m.scp.cs = m.dpmiSel c) :
    (m.scp.eip = c.returnFromPm.setWidth 32 →
      m.doDpmiHlt c = m.returnFromHwint c m.stackAddr) ∧
    (m.scp.eip = c.returnFromException.setWidth 32 →
      m.doDpmiHlt c = m.leaveLpms.returnFromException c) ∧
    (m.scp.eip = c.returnFromExtException.setWidth 32 →
      m.doDpmiHlt c = some (m.returnFromExtException c m.stackAddr)) := by
  have inj : ∀ {u v : BitVec 16}, u ≠ v → u.setWidth 32 ≠ v.setWidth 32 := by
    intro u v hne heq
    apply hne
    rw [← loWord_setWidth u, heq, loWord_setWidth]
  rw [doDpmiHlt, selAdr_stack hti]
  simp only [Option.bind_eq_bind, Option.bind_some, ne_eq, hsel, not_true_eq_false, if_false]
  refine ⟨fun h => ?_, fun h => ?_, fun h => ?_⟩
  · rw [if_pos h]
  · rw [h, if_neg (inj c.pm_ne_exception.symm), if_pos rfl]
  · rw [h, if_neg (inj c.pm_ne_ext.symm), if_neg (inj c.exception_ne_ext.symm), if_pos rfl]

/-- The handler's return, up to the end of the HLT. -/
def exit (c : Setup) (n : Nat) (wide : Bool) (eflags : BitVec 32) (m : Machine) : Option Machine :=
  (m.popReturn (if wide then 4 else 2) n eflags).bind (doDpmiHlt c)

/-- The handler, about to return, `k` bytes into its frame of `size` bytes. -/
structure Returning (c : Setup) (m₁ m₂ : Machine) (wide : Bool) (size k : Nat) : Prop where
  ti : m₁.scp.ss.getLsbD 2 = true
  low : m₁.segIs32 m₁.scp.ss = false → m₁.clientEsp.toNat + size < 65536
  at_frame : AtFrame m₁ m₂ k
  host : HostOk c m₂
  bitness : Bitness c m₂ wide

variable {wide : Bool} {size : Nat}

/-- Where the handler's return ends. -/
theorem Returning.stackAddr (h : Returning c m₁ m₂ wide size k) {v : Nat} (hn : k + v * n ≤ size) :
    (m₂.popped v n eflags).stackAddr = m₁.stackAddr + BitVec.ofNat 32 (k + v * n) := by
  rw [popped_stackAddr, h.at_frame.stackAddr, BitVec.add_assoc, ← BitVec.ofNat_add]
  intro hseg
  rw [h.at_frame.ss, h.at_frame.bits] at hseg
  have hlow := h.low hseg
  rw [h.at_frame.esp, BitVec.toNat_add, BitVec.toNat_ofNat]
  omega

/-- The machine at the HLT, `j` words into the frame. -/
theorem Returning.exit_eq {v j : Nat} (h : Returning c m₁ m₂ wide size (v * j)) (eflags : BitVec 32)
    (hv : v = if wide then 4 else 2) (hn : v * (j + n) ≤ size)
    (hcs : (wordAt v m₂.mem m₁.stackAddr (j + 1)).setWidth 16 =
      if wide then c.sel32 else c.sel16) :
    m₂.exit c n wide eflags = (m₂.popped v n eflags).doDpmiHlt c ∧
      (m₂.popped v n eflags).scp.eip = wordAt v m₂.mem m₁.stackAddr j ∧
      (m₂.popped v n eflags).scp.ss.getLsbD 2 = true ∧
      (m₂.popped v n eflags).scp.cs = (m₂.popped v n eflags).dpmiSel c ∧
      (m₂.popped v n eflags).api32x c (m₂.popped v n eflags).scp.cs = wide ∧
      (m₂.popped v n eflags).stackAddr = m₁.stackAddr + BitVec.ofNat 32 (v * (j + n)) := by
  have hti : m₂.scp.ss.getLsbD 2 = true := h.at_frame.ss ▸ h.ti
  have hat : m₂.stackAddr = m₁.stackAddr + BitVec.ofNat 32 (v * j) := h.at_frame.stackAddr
  have hcs' : (m₂.popped v n eflags).scp.cs = if wide then c.sel32 else c.sel16 := by
    rw [popped, hat]
    show (wordAt v m₂.mem _ 1).setWidth 16 = _
    rw [wordAt_add, hcs]
  have heip : (m₂.popped v n eflags).scp.eip = wordAt v m₂.mem m₁.stackAddr j := by
    rw [popped, hat]
    show wordAt v m₂.mem _ 0 = _
    rw [wordAt_add, Nat.add_zero]
  have hhost : HostOk c (m₂.popped v n eflags) := ⟨h.host.sel16, h.host.sel32⟩
  have hbitness : Bitness c (m₂.popped v n eflags) wide := h.bitness.congr rfl
  refine ⟨?_, heip, hti, hbitness.dpmiSel hhost hcs', hbitness.api32x hhost hcs', ?_⟩
  · rw [exit, ← hv, popReturn_eq hti]
    rfl
  · rw [h.stackAddr (by rw [← Nat.mul_add]; exact hn), ← Nat.mul_add]

/-! ## The return of each frame -/

/-- What is restored of the client when it was interrupted at `m`. -/
structure Restored (c : Setup) (m m' : Machine) : Prop where
  cs : m'.scp.cs = m.scp.cs
  ss : m'.scp.ss = m.scp.ss
  esp : m'.scp.esp = m.scp.esp
  flags : low m'.scp.eflags ||| ifFlag = low m.scp.eflags ||| ifFlag

/-- What a return does to the rest of the machine. -/
structure Left (m₂ m₃ : Machine) : Prop where
  state : m₃.state = m₂.state
  mem : m₃.mem = m₂.mem
  inPmStack : m₃.inPmStack = m₂.inPmStack - 1

theorem low_or_if (x : BitVec 32) : low (x ||| ifFlag) ||| ifFlag = low x ||| ifFlag := by
  ext k hk
  simp [low, loWord]
  grind

theorem low_low (x : BitVec 32) : low (low x) = low x := by
  rw [low, loWord_low, ← low]

/-- The mask register, from the word that has the number of the interrupt too. -/
theorem setWidth_mask (imr i : BitVec 8) :
    (imr.setWidth 32 ||| (i.setWidth 32 <<< 8) : BitVec 32).setWidth 8 = imr := by
  ext k hk
  simp

theorem setWidth_low (x : BitVec 32) : (low x).setWidth 8 = x.setWidth 8 := by
  ext k hk
  simp [low, loWord]

/-- The words of an interrupt's frame of double words. -/
theorem exit_int32 {i : BitVec 8} (h : Returning c m₁ m₂ true 48 0) (eflags : BitVec 32)
    (hword : ∀ k, (hk : k < 12) → wordAt 4 m₂.mem m₁.stackAddr k =
      (m.intFrame32 c i).getD (11 - k) 0) :
    ∃ m₃, m₂.exit c 3 true eflags = some m₃ ∧ Left m₂ m₃ ∧ Restored c m m₃ ∧
      m₃.scp.eip = m.scp.eip ∧ m₃.pm = m.pm ∧ m₃.imr = m.imr := by
  have hcs : (wordAt 4 m₂.mem m₁.stackAddr (0 + 1)).setWidth 16 = c.sel32 := by
    rw [hword 1 (by decide)]
    exact loWord_setWidth c.sel32
  obtain ⟨hexit, heip, hti, hsel, hwide, haddr⟩ :=
    Returning.exit_eq (v := 4) (j := 0) (n := 3) h eflags rfl (by decide) hcs
  rw [hword 0 (by decide)] at heip
  have hwide' : (m₂.popped 4 3 eflags).leaveLpms.api32x c
      (m₂.popped 4 3 eflags).leaveLpms.scp.cs = true := hwide
  have hmem : (m₂.popped 4 3 eflags).leaveLpms.mem = m₂.mem := rfl
  have hmode : ¬1 < wordAt 4 m₂.mem m₁.stackAddr (3 + 5) := by
    rw [hword 8 (by decide)]
    show ¬(1 : BitVec 32) < if m.pm then 1 else 0
    cases m.pm <;> decide
  rw [hexit, (doDpmiHlt_eq hti hsel).1 heip, returnFromHwint, haddr]
  simp only [hwide', if_true, hmem, wordAt_add, if_neg hmode]
  refine ⟨_, rfl, ⟨rfl, rfl, rfl⟩, ⟨?_, ?_, ?_, ?_⟩, ?_, ?_, ?_⟩
  · exact (congrArg _ (hword 4 (by decide))).trans (loWord_setWidth m.scp.cs)
  · exact (congrArg _ (hword 7 (by decide))).trans (loWord_setWidth m.scp.ss)
  · exact hword 6 (by decide)
  · show low (wordAt 4 m₂.mem m₁.stackAddr (3 + 2) ||| ifFlag) ||| ifFlag = _
    rw [hword 5 (by decide), low_or_if]
    rfl
  · exact hword 3 (by decide)
  · show (wordAt 4 m₂.mem m₁.stackAddr (3 + 5) == 1) = m.pm
    rw [hword 8 (by decide)]
    show ((if m.pm then 1 else 0 : BitVec 32) == 1) = m.pm
    cases m.pm <;> rfl
  · show (wordAt 4 m₂.mem m₁.stackAddr (3 + 8)).setWidth 8 = m.imr
    rw [hword 11 (by decide)]
    exact setWidth_mask m.imr i

theorem exit_int16 {i : BitVec 8} (h : Returning c m₁ m₂ false 24 0) (eflags : BitVec 32)
    (hword : ∀ k, (hk : k < 12) → wordAt 2 m₂.mem m₁.stackAddr k =
      low ((m.intFrame16 c i).getD (11 - k) 0)) :
    ∃ m₃, m₂.exit c 3 false eflags = some m₃ ∧ Left m₂ m₃ ∧ Restored c m m₃ ∧
      m₃.scp.eip = m.scp.eip ∧ m₃.pm = m.pm ∧ m₃.imr = m.imr := by
  have hcs : (wordAt 2 m₂.mem m₁.stackAddr (0 + 1)).setWidth 16 = c.sel16 := by
    rw [hword 1 (by decide)]
    exact (loWord_low _).trans (loWord_setWidth c.sel16)
  obtain ⟨hexit, heip, hti, hsel, hnarrow, haddr⟩ :=
    Returning.exit_eq (v := 2) (j := 0) (n := 3) h eflags rfl (by decide) hcs
  rw [hword 0 (by decide)] at heip
  have heip' := heip.trans (low_setWidth c.returnFromPm)
  have hnarrow' : (m₂.popped 2 3 eflags).leaveLpms.api32x c
      (m₂.popped 2 3 eflags).leaveLpms.scp.cs = false := hnarrow
  have hmem : (m₂.popped 2 3 eflags).leaveLpms.mem = m₂.mem := rfl
  have hmode : ¬1 < wordAt 2 m₂.mem m₁.stackAddr (3 + 5) := by
    rw [hword 8 (by decide)]
    show ¬(1 : BitVec 32) < low (if m.pm then 1 else 0)
    cases m.pm <;> decide
  have hlo : ∀ k x, wordAt 2 m₂.mem m₁.stackAddr k = low (low x) →
      (wordAt 2 m₂.mem m₁.stackAddr k).setWidth 16 = loWord x := by
    intro k x hk
    rw [hk, low_low]
    exact loWord_low x
  have hword16 : ∀ k v, wordAt 2 m₂.mem m₁.stackAddr k = low (v.setWidth 32) →
      (wordAt 2 m₂.mem m₁.stackAddr k).setWidth 16 = v := by
    intro k v hk
    rw [hk, low_setWidth]
    exact loWord_setWidth v
  rw [hexit, (doDpmiHlt_eq hti hsel).1 heip', returnFromHwint, haddr]
  simp only [hnarrow', Bool.false_eq_true, if_false, hmem, wordAt_add, if_neg hmode]
  rw [hlo (3 + 0) m.scp.eip (hword 3 (by decide)), hlo (3 + 3) m.scp.esp (hword 6 (by decide)),
    hword16 (3 + 7) (hiWord m.scp.eip) (hword 10 (by decide)),
    hword16 (3 + 6) (hiWord m.scp.esp) (hword 9 (by decide)), setHi_setLo, setHi_setLo]
  refine ⟨_, rfl, ⟨rfl, rfl, rfl⟩, ⟨?_, ?_, rfl, ?_⟩, rfl, ?_, ?_⟩
  · exact hword16 4 m.scp.cs (hword 4 (by decide))
  · exact hword16 7 m.scp.ss (hword 7 (by decide))
  · show low (wordAt 2 m₂.mem m₁.stackAddr (3 + 2) ||| ifFlag) ||| ifFlag = _
    rw [hword 5 (by decide), low_or_if]
    show low (low (low m.scp.eflags)) ||| ifFlag = _
    rw [low_low, low_low]
  · show (wordAt 2 m₂.mem m₁.stackAddr (3 + 5) == 1) = m.pm
    rw [hword 8 (by decide)]
    show (low (if m.pm then 1 else 0 : BitVec 32) == 1) = m.pm
    cases m.pm <;> rfl
  · show (wordAt 2 m₂.mem m₁.stackAddr (3 + 8)).setWidth 8 = m.imr
    rw [hword 11 (by decide)]
    show (low (m.imr.setWidth 32 ||| (i.setWidth 32 <<< 8))).setWidth 8 = m.imr
    rw [setWidth_low, setWidth_mask]

/-- The return through a standard frame of double words. -/
theorem exit_exc32 (h : Returning c m₁ m₂ true size 0) (hsize : 8 ≤ size)
    (eflags : BitVec 32)
    (hword : ∀ k, (hk : k < 8) → wordAt 4 m₂.mem m₁.stackAddr k =
      (m.excFrame32 c).getD (7 - k) 0) :
    ∃ m₃, m₂.exit c 2 true eflags = some m₃ ∧ Left m₂ m₃ ∧ Restored c m m₃ ∧
      m₃.scp.eip = m.scp.eip := by
  have hcs : (wordAt 4 m₂.mem m₁.stackAddr (0 + 1)).setWidth 16 = c.sel32 := by
    rw [hword 1 (by decide)]
    exact loWord_setWidth c.sel32
  obtain ⟨hexit, heip, hti, hsel, hwide, haddr⟩ :=
    Returning.exit_eq (v := 4) (j := 0) (n := 2) h eflags rfl hsize hcs
  rw [hword 0 (by decide)] at heip
  have hwide' : (m₂.popped 4 2 eflags).leaveLpms.api32x c
      (m₂.popped 4 2 eflags).leaveLpms.scp.cs = true := hwide
  have hmem : (m₂.popped 4 2 eflags).leaveLpms.mem = m₂.mem := rfl
  have haddr' : (m₂.popped 4 2 eflags).leaveLpms.stackAddr = _ := haddr
  have hti' : (m₂.popped 4 2 eflags).leaveLpms.scp.ss.getLsbD 2 = true := hti
  rw [hexit, (doDpmiHlt_eq hti hsel).2.1 heip, returnFromException, selAdr_stack hti',
    haddr']
  simp only [Option.bind_eq_bind, Option.bind_some, hwide', if_true, hmem, wordAt_add]
  refine ⟨_, rfl, ⟨rfl, rfl, rfl⟩, ⟨?_, ?_, ?_, ?_⟩, ?_⟩
  · exact (congrArg _ (hword 4 (by decide))).trans (loWord_setWidth m.scp.cs)
  · exact (congrArg _ (hword 7 (by decide))).trans (loWord_setWidth m.scp.ss)
  · exact hword 6 (by decide)
  · exact congrArg (low · ||| ifFlag) (hword 5 (by decide))
  · exact hword 3 (by decide)

/-- The return through a standard frame for a 16-bit handler; the words of the frame are halves of
the double words that were pushed.  The high word of EIP is not in the frame. -/
theorem exit_exc16 (h : Returning c m₁ m₂ false size 0) (hsize : 4 ≤ size)
    (eflags : BitVec 32)
    (hword : ∀ k, (hk : k < 5) → wordAt 4 m₂.mem m₁.stackAddr k =
      (m.excFrame16 c).getD (4 - k) 0) :
    ∃ m₃, m₂.exit c 2 false eflags = some m₃ ∧ Left m₂ m₃ ∧ Restored c m m₃ ∧
      m₃.scp.eip = low m.scp.eip := by
  have hlo : ∀ k, (hk : k < 5) → (wordAt 2 m₂.mem m₁.stackAddr (2 * k)).setWidth 16 =
      loWord ((m.excFrame16 c).getD (4 - k) 0) := by
    intro k hk
    rw [wordAt_even, hword k hk]
    exact loWord_setWidth _
  have hhi : ∀ k, (hk : k < 5) → (wordAt 2 m₂.mem m₁.stackAddr (2 * k + 1)).setWidth 16 =
      hiWord ((m.excFrame16 c).getD (4 - k) 0) := by
    intro k hk
    rw [wordAt_odd, hword k hk]
    exact loWord_setWidth _
  have hcs : (wordAt 2 m₂.mem m₁.stackAddr (0 + 1)).setWidth 16 = c.sel16 :=
    (hhi 0 (by decide)).trans (hiWord_append _ _)
  obtain ⟨hexit, heip, hti, hsel, hnarrow, haddr⟩ :=
    Returning.exit_eq (v := 2) (j := 0) (n := 2) h eflags rfl hsize hcs
  have heip' : (m₂.popped 2 2 eflags).scp.eip = c.returnFromException.setWidth 32 := by
    rw [heip, show 0 = 2 * 0 from rfl, wordAt_even, hword 0 (by decide)]
    exact congrArg (·.setWidth 32) (loWord_append c.sel16 c.returnFromException)
  have hnarrow' : (m₂.popped 2 2 eflags).leaveLpms.api32x c
      (m₂.popped 2 2 eflags).leaveLpms.scp.cs = false := hnarrow
  have hmem : (m₂.popped 2 2 eflags).leaveLpms.mem = m₂.mem := rfl
  have haddr' : (m₂.popped 2 2 eflags).leaveLpms.stackAddr = _ := haddr
  have hti' : (m₂.popped 2 2 eflags).leaveLpms.scp.ss.getLsbD 2 = true := hti
  have hpopped : (m₂.popped 2 2 eflags).leaveLpms.scp.eip = c.returnFromException.setWidth 32 :=
    heip'
  rw [hexit, (doDpmiHlt_eq hti hsel).2.1 heip', returnFromException, selAdr_stack hti',
    haddr']
  simp only [Option.bind_eq_bind, Option.bind_some, hnarrow', Bool.false_eq_true, if_false, hmem,
    wordAt_add, hpopped]
  rw [(hhi 1 (by decide) : (wordAt 2 m₂.mem m₁.stackAddr (0 + 2 + 1)).setWidth 16 = _),
    (hlo 3 (by decide) : (wordAt 2 m₂.mem m₁.stackAddr (0 + 2 + 4)).setWidth 16 = _),
    (hlo 4 (by decide) : (wordAt 2 m₂.mem m₁.stackAddr (0 + 2 + 6)).setWidth 16 = _)]
  refine ⟨_, rfl, ⟨rfl, rfl, rfl⟩, ⟨?_, ?_, ?_, ?_⟩, ?_⟩
  · exact (hlo 2 (by decide)).trans (loWord_append _ _)
  · exact (hhi 3 (by decide)).trans (hiWord_append _ _)
  · show setHi (setLo _ (loWord (m.scp.ss ++ loWord m.scp.esp))) (hiWord m.scp.esp) = m.scp.esp
    rw [loWord_append, setHi_setLo]
  · show low (wordAt 2 m₂.mem m₁.stackAddr (2 * 2 + 1)) ||| ifFlag = _
    rw [low]
    show ((wordAt 2 m₂.mem m₁.stackAddr (2 * 2 + 1)).setWidth 16).setWidth 32 ||| ifFlag = _
    rw [hhi 2 (by decide)]
    exact congrArg (·.setWidth 32 ||| ifFlag) (hiWord_append _ _)
  · show setLo (c.returnFromException.setWidth 32) (hiWord (loWord m.scp.eip ++ m.scp.err)) = _
    rw [hiWord_append]
    apply BitVec.eq_of_toNat_eq
    rw [toNat_setLo, low, BitVec.toNat_setWidth, BitVec.toNat_setWidth]
    omega

/-- The return through the extended frame, which is read as double words by both. -/
theorem exit_ext (h : Returning c m₁ m₂ wide 88 32) (eflags : BitVec 32)
    (hword : ∀ k, (hk : k < 22) → wordAt 4 m₂.mem m₁.stackAddr k =
      (m.extFrame c wide).getD (21 - k) 0) :
    ∃ m₃, m₂.exit c 2 wide eflags = some m₃ ∧ Left m₂ m₃ ∧ Restored c m m₃ ∧
      m₃.scp.eip = m.scp.eip := by
  cases wide with
  | true =>
      have hcs : (wordAt 4 m₂.mem m₁.stackAddr (8 + 1)).setWidth 16 = c.sel32 := by
        rw [hword 9 (by decide)]
        exact loWord_setWidth c.sel32
      obtain ⟨hexit, heip, hti, hsel, hwide, haddr⟩ :=
        Returning.exit_eq (v := 4) (j := 8) (n := 2) h eflags rfl (by decide) hcs
      rw [hword 8 (by decide)] at heip
      have hwide' : (m₂.popped 4 2 eflags).leaveLpms.api32x c
          (m₂.popped 4 2 eflags).leaveLpms.scp.cs = true := hwide
      have hmem : (m₂.popped 4 2 eflags).leaveLpms.mem = m₂.mem := rfl
      rw [hexit, (doDpmiHlt_eq hti hsel).2.2 heip, returnFromExtException, haddr]
      simp only [hwide', if_true, hmem, wordAt_add]
      refine ⟨_, rfl, ⟨rfl, rfl, rfl⟩, ⟨?_, ?_, ?_, ?_⟩, ?_⟩
      · exact (congrArg _ (hword 12 (by decide))).trans (loWord_setWidth m.scp.cs)
      · exact (congrArg _ (hword 15 (by decide))).trans (loWord_setWidth m.scp.ss)
      · exact hword 14 (by decide)
      · exact congrArg (low · ||| ifFlag) (hword 13 (by decide))
      · exact hword 11 (by decide)
  | false =>
      have hcs : (wordAt 2 m₂.mem m₁.stackAddr (16 + 1)).setWidth 16 = c.sel16 := by
        rw [show 16 + 1 = 2 * 8 + 1 from rfl, wordAt_odd, hword 8 (by decide)]
        exact (loWord_setWidth _).trans (hiWord_append c.sel16 c.returnFromExtException)
      obtain ⟨hexit, heip, hti, hsel, hnarrow, haddr⟩ :=
        Returning.exit_eq (v := 2) (j := 16) (n := 2) h eflags rfl (by decide) hcs
      have heip' : (m₂.popped 2 2 eflags).scp.eip = c.returnFromExtException.setWidth 32 := by
        refine heip.trans ((wordAt_even m₂.mem m₁.stackAddr 8).trans ?_)
        rw [hword 8 (by decide)]
        exact congrArg (·.setWidth 32) (loWord_append c.sel16 c.returnFromExtException)
      have hnarrow' : (m₂.popped 2 2 eflags).leaveLpms.api32x c
          (m₂.popped 2 2 eflags).leaveLpms.scp.cs = false := hnarrow
      have hmem : (m₂.popped 2 2 eflags).leaveLpms.mem = m₂.mem := rfl
      -- The word above the return address, which stands for the rest of a 32-bit one.
      have hskip : m₁.stackAddr + BitVec.ofNat 32 (2 * (16 + 2)) + 4 =
          m₁.stackAddr + BitVec.ofNat 32 (4 * 10) := by
        rw [BitVec.add_assoc]
        rfl
      rw [hexit, (doDpmiHlt_eq hti hsel).2.2 heip', returnFromExtException, haddr]
      simp only [hnarrow', Bool.false_eq_true, if_false, hmem, hskip, wordAt_add]
      refine ⟨_, rfl, ⟨rfl, rfl, rfl⟩, ⟨?_, ?_, ?_, ?_⟩, ?_⟩
      · exact (congrArg _ (hword 12 (by decide))).trans (loWord_setWidth m.scp.cs)
      · exact (congrArg _ (hword 15 (by decide))).trans (loWord_setWidth m.scp.ss)
      · exact hword 14 (by decide)
      · exact congrArg (low · ||| ifFlag) (hword 13 (by decide))
      · exact hword 11 (by decide)

namespace Entry

/-- What the return instruction pops: the return address, and the flags for an interrupt. -/
def popCount : Entry → Nat
  | pmInt .. => 3
  | legacy | ext => 2

/-- Where the return addresses are in the frame. -/
def ReturnsAt (k : Nat) : Entry → Prop
  | pmInt .. | legacy => k = 0
  | ext => k = 0 ∨ k = 32

/-- The frame that is read has both words of EIP. -/
def SavesEip (wide : Bool) (k : Nat) : Entry → Prop
  | pmInt .. => True
  | legacy => wide = true
  | ext => wide = true ∨ k = 32

def IsInt : Entry → Prop
  | pmInt .. => True
  | legacy | ext => False

end Entry

theorem low_of_hiWord {x : BitVec 32} (h : hiWord x = 0) : low x = x := by
  have hlt := x.isLt
  have hhi := congrArg BitVec.toNat h
  rw [hiWord, BitVec.toNat_setWidth, BitVec.toNat_ushiftRight, Nat.shiftRight_eq_div_pow,
    show (0 : BitVec 16).toNat = 0 from rfl] at hhi
  apply BitVec.eq_of_toNat_eq
  rw [toNat_low]
  omega

variable {e : Entry}

theorem Framed.dword (h : Framed c m m₁ 4 vs) (hmem : Untouched m₁ m₂ (4 * vs.length))
    (hlen : vs.length ≤ 22) (hk : k < vs.length) :
    wordAt 4 m₂.mem m₁.stackAddr k = vs.getD (vs.length - 1 - k) 0 := by
  rw [h.word hmem (Nat.le_refl 4) (by omega) hk, and_dword]

theorem Framed.halfWord (h : Framed c m m₁ 2 vs) (hmem : Untouched m₁ m₂ (2 * vs.length))
    (hlen : vs.length ≤ 22) (hk : k < vs.length) :
    wordAt 2 m₂.mem m₁.stackAddr k = Frames.low (vs.getD (vs.length - 1 - k) 0) := by
  rw [h.word hmem (by decide) (by omega) hk, and_word]

/-- A handler that returns through its frame brings the client back. -/
theorem returns (hframed : Framed c m m₁ (e.width wide) (e.words c m wide))
    (h : Returning c m₁ m₂ wide (e.size wide) k) (hk : e.ReturnsAt k)
    (hmem : Untouched m₁ m₂ (e.size wide)) (eflags : BitVec 32) :
    ∃ m₃, m₂.exit c e.popCount wide eflags = some m₃ ∧ Left m₂ m₃ ∧ Restored c m m₃ ∧
      (e.SavesEip wide k ∨ hiWord m.scp.eip = 0 → m₃.scp.eip = m.scp.eip) ∧
      (e.IsInt → m₃.pm = m.pm ∧ m₃.imr = m.imr) := by
  cases e with
  | pmInt i isr protectVtmr =>
      cases hk
      cases wide with
      | true =>
          have hframed' : Framed c m m₁ 4 (m.intFrame32 c i) := hframed
          obtain ⟨m₃, hexit, hleft, hrestored, heip, hpm⟩ := exit_int32 h eflags
            fun k hk => hframed'.dword hmem (show 12 ≤ 22 by decide) hk
          exact ⟨m₃, hexit, hleft, hrestored, fun _ => heip, fun _ => hpm⟩
      | false =>
          have hframed' : Framed c m m₁ 2 (m.intFrame16 c i) := hframed
          obtain ⟨m₃, hexit, hleft, hrestored, heip, hpm⟩ := exit_int16 h eflags
            fun k hk => hframed'.halfWord hmem (show 12 ≤ 22 by decide) hk
          exact ⟨m₃, hexit, hleft, hrestored, fun _ => heip, fun _ => hpm⟩
  | legacy =>
      cases hk
      cases wide with
      | true =>
          have hframed' : Framed c m m₁ 4 (m.excFrame32 c) := hframed
          obtain ⟨m₃, hexit, hleft, hrestored, heip⟩ :=
            exit_exc32 h (show 8 ≤ 32 by decide) eflags
              fun k hk => hframed'.dword hmem (show 8 ≤ 22 by decide) hk
          exact ⟨m₃, hexit, hleft, hrestored, fun _ => heip, False.elim⟩
      | false =>
          have hframed' : Framed c m m₁ 4 (m.excFrame16 c) := hframed
          obtain ⟨m₃, hexit, hleft, hrestored, heip⟩ :=
            exit_exc16 h (show 4 ≤ 20 by decide) eflags
              fun k hk => hframed'.dword hmem (show 5 ≤ 22 by decide) hk
          refine ⟨m₃, hexit, hleft, hrestored, ?_, False.elim⟩
          rintro (hwide | hhigh)
          · cases hwide
          · rw [heip, low_of_hiWord hhigh]
  | ext =>
      have hframed' : Framed c m m₁ 4 (m.extFrame c wide) := hframed
      have hlen : (m.extFrame c wide).length = 22 := by
        cases wide <;> rfl
      have hmem' : Untouched m₁ m₂ (4 * (m.extFrame c wide).length) := by
        rw [hlen]
        exact hmem
      have hword : ∀ k, (hk : k < 22) → wordAt 4 m₂.mem m₁.stackAddr k =
          (m.extFrame c wide).getD (21 - k) 0 := by
        intro k hk
        rw [hframed'.dword hmem' (Nat.le_of_eq hlen) (hlen ▸ hk)]
        simp only [hlen]
      rcases hk with rfl | rfl
      · cases wide with
        | true =>
            obtain ⟨m₃, hexit, hleft, hrestored, heip⟩ :=
              exit_exc32 h (show 8 ≤ 88 by decide) eflags (m := m)
                fun k hk => (hword k (by omega)).trans (by interval_cases k <;> rfl)
            exact ⟨m₃, hexit, hleft, hrestored, fun _ => heip, False.elim⟩
        | false =>
            obtain ⟨m₃, hexit, hleft, hrestored, heip⟩ :=
              exit_exc16 h (show 4 ≤ 88 by decide) eflags (m := m)
                fun k hk => (hword k (by omega)).trans (by interval_cases k <;> rfl)
            refine ⟨m₃, hexit, hleft, hrestored, ?_, False.elim⟩
            rintro ((hwide | hstd) | hhigh)
            · cases hwide
            · cases hstd
            · rw [heip, low_of_hiWord hhigh]
      · obtain ⟨m₃, hexit, hleft, hrestored, heip⟩ := exit_ext h eflags hword
        exact ⟨m₃, hexit, hleft, hrestored, fun _ => heip, False.elim⟩

/-! ## Nested calls -/

/-- A frame on a stack: the base of the stack, where the frame begins on it, and its size. -/
structure Live where
  base : BitVec 32
  esp : BitVec 32
  size : Nat
  fits : esp.toNat + size < 2 ^ 32

def Live.addr (f : Live) : BitVec 32 :=
  f.base + f.esp

/-- The frame is the same in both memories. -/
def Live.Same (f : Live) (mem mem' : Mem) : Prop :=
  ∀ i, i < f.size → mem' (f.addr + BitVec.ofNat 32 i) = mem (f.addr + BitVec.ofNat 32 i)

/-- What is kept while frames are on the stack: they are, and so are the bitness of the client and
of the code segments of the host, and the count of handlers. -/
structure Kept (c : Setup) (live : List Live) (m m' : Machine) : Prop where
  is32 : m'.is32 = m.is32
  sel16 : m'.segIs32 c.sel16 = m.segIs32 c.sel16
  sel32 : m'.segIs32 c.sel32 = m.segIs32 c.sel32
  inPmStack : m'.inPmStack = m.inPmStack
  frames : ∀ f ∈ live, f.Same m.mem m'.mem

variable {live : List Live}

theorem Kept.refl (c : Setup) (live : List Live) (m : Machine) : Kept c live m m :=
  ⟨rfl, rfl, rfl, rfl, fun _ _ _ _ => rfl⟩

theorem Kept.trans (h : Kept c live m m₁) (h' : Kept c live m₁ m₂) : Kept c live m m₂ :=
  ⟨h'.is32.trans h.is32, h'.sel16.trans h.sel16, h'.sel32.trans h.sel32,
    h'.inPmStack.trans h.inPmStack,
    fun f hf i hi => (h'.frames f hf i hi).trans (h.frames f hf i hi)⟩

theorem Kept.host (h : Kept c live m m') (host : HostOk c m) : HostOk c m' :=
  ⟨h.sel16.trans host.sel16, h.sel32.trans host.sel32⟩

theorem Kept.untouched (h : Kept c live m₁ m₂) {f : Live} (hf : f ∈ live)
    (haddr : f.addr = m₁.stackAddr) : Untouched m₁ m₂ f.size := by
  intro i hi
  rw [← haddr]
  exact h.frames f hf i hi

/-- A new frame of `n` bytes at `m₁` is apart from a frame that is there: the stack on which it is
pushed ends at or below the frame, or is elsewhere. -/
def Clear (c : Setup) (m m₁ : Machine) (n : Nat) (f : Live) : Prop :=
  (m.state.getSegmentBase (m.entrySel c) = f.base ∧ (m.entryEsp c).toNat ≤ f.esp.toNat) ∨
    ∀ i, i < f.size → n ≤ (f.addr + BitVec.ofNat 32 i - m₁.stackAddr).toNat

/-- The frame with which a handler begins. -/
def Framed.pushed (h : Framed c m m₁ w vs) : Live where
  base := m₁.state.getSegmentBase m₁.scp.ss
  esp := m₁.clientEsp
  size := w * vs.length
  fits := Nat.lt_of_le_of_lt h.below (m.entryEsp c).isLt

/-- A frame that is pushed leaves those alone of which it is clear. -/
theorem Framed.same (h : Framed c m m₁ w vs) {f : Live}
    (hclear : Clear c m m₁ (w * vs.length) f) : f.Same m.mem m₁.mem := by
  intro i hi
  obtain ⟨sp, hpushed, haddr⟩ := h.frame
  have hbelow := h.below
  have hlt := (m.entryEsp c).isLt
  rw [hpushed]
  apply pushAll_outside (by omega)
  rw [← haddr]
  rcases hclear with ⟨hbase, hesp⟩ | hapart
  · have hfits := f.fits
    rw [stackAddr, h.ss, h.state, hbase, Live.addr]
    generalize w * vs.length = n at hbelow
    bv_omega
  · exact hapart i hi

theorem Framed.is32 (h : Framed c m m₁ w vs) : m₁.is32 = m.is32 := by
  rw [Machine.is32, h.state, ← Machine.is32]

theorem Framed.segIs32 (h : Framed c m m₁ w vs) (sel : BitVec 16) :
    m₁.segIs32 sel = m.segIs32 sel := by
  rw [Machine.segIs32, h.state, ← Machine.segIs32]

theorem Framed.host (h : Framed c m m₁ w vs) (host : HostOk c m) : HostOk c m₁ :=
  ⟨(h.segIs32 _).trans host.sel16, (h.segIs32 _).trans host.sel32⟩

/-- A run of a handler, in which others may be called and return. -/
inductive Run (c : Setup) : List Live → Machine → Machine → Prop
  | done (live : List Live) (m : Machine) : Run c live m m
  | client {live : List Live} {m m₁ m' : Machine} (kept : Kept c live m m₁)
      (rest : Run c live m₁ m') : Run c live m m'
  | call {live : List Live} {m m₁ m₂ m₃ m' : Machine} (e : Entry) (handler : IntDesc) (k : Nat)
      (eflags : BitVec 32) (accepted : ¬Rejects c m) (enter : m.enter c e handler = some m₁)
      (fits : e.Fits c m (m.api32x c handler.selector))
      (clear : ∀ f ∈ live, Clear c m m₁ (e.size (m.api32x c handler.selector)) f)
      (body : Run c ((enter_framed enter fits).pushed :: live) m₁ m₂)
      (returnsAt : e.ReturnsAt k) (at_frame : AtFrame m₁ m₂ k)
      (exit : m₂.exit c e.popCount (m.api32x c handler.selector) eflags = some m₃)
      (rest : Run c live m₃ m') : Run c live m m'

variable {handler : IntDesc}

/-- The return of a handler that kept its frame. -/
theorem call_returns (host : HostOk c m) (henter : m.enter c e handler = some m₁)
    (hfits : e.Fits c m (m.api32x c handler.selector))
    (hkept : Kept c ((enter_framed henter hfits).pushed :: live) m₁ m₂) (hk : e.ReturnsAt k)
    (hat : AtFrame m₁ m₂ k) (eflags : BitVec 32) :
    ∃ m₃, m₂.exit c e.popCount (m.api32x c handler.selector) eflags = some m₃ ∧ Left m₂ m₃ ∧
      Restored c m m₃ ∧
      (e.SavesEip (m.api32x c handler.selector) k ∨ hiWord m.scp.eip = 0 →
        m₃.scp.eip = m.scp.eip) ∧
      (e.IsInt → m₃.pm = m.pm ∧ m₃.imr = m.imr) := by
  have hframed := enter_framed henter hfits
  have hsize := e.size_eq c m (m.api32x c handler.selector)
  apply returns hframed _ hk
  · rw [← hsize]
    exact hkept.untouched List.mem_cons_self rfl
  · refine ⟨hframed.ti, ?_, hat, hkept.host (hframed.host host), ?_⟩
    · rw [← hsize]
      exact hframed.low
    · exact (bitness_of_handler c m handler.selector).congr (hkept.is32.trans hframed.is32)

/-- Every handler that is called keeps the frames that are there. -/
theorem Run.kept (h : Run c live m m') (host : HostOk c m) : Kept c live m m' := by
  induction h with
  | done live m => exact Kept.refl c live m
  | client hkept _ ih => exact hkept.trans (ih (hkept.host host))
  | @call live m m₁ m₂ m₃ m' e handler k eflags accepted enter fits clear _ returnsAt at_frame
      exit _ ih_body ih_rest =>
      have hframed := enter_framed enter fits
      have hbody := ih_body (hframed.host host)
      obtain ⟨m₄, hexit, hleft, -⟩ := call_returns host enter fits hbody returnsAt at_frame eflags
      rw [exit] at hexit
      cases hexit
      have his32 : m₃.is32 = m₂.is32 := by
        rw [Machine.is32, hleft.state, ← Machine.is32]
      have hsegIs32 : ∀ sel, m₃.segIs32 sel = m₂.segIs32 sel := by
        intro sel
        rw [Machine.segIs32, hleft.state, ← Machine.segIs32]
      have hkept : Kept c live m m₃ := by
        refine ⟨his32.trans (hbody.is32.trans hframed.is32), ?_, ?_, ?_, ?_⟩
        · exact (hsegIs32 _).trans (hbody.sel16.trans (hframed.segIs32 _))
        · exact (hsegIs32 _).trans (hbody.sel32.trans (hframed.segIs32 _))
        · rw [hleft.inPmStack, hbody.inPmStack, hframed.inPmStack, Nat.add_sub_cancel, entryCount,
            if_neg accepted]
        · intro f hf i hi
          have hsame := hframed.same (f := f) (by rw [e.size_eq]; exact clear f hf)
          rw [hleft.mem, hbody.frames f (List.mem_cons_of_mem _ hf) i hi]
          exact hsame i hi
      exact hkept.trans (ih_rest (hkept.host host))

/-- An interrupted context comes back, whatever handlers are called while its own runs. -/
theorem frames_restore (host : HostOk c m) (henter : m.enter c e handler = some m₁)
    (hfits : e.Fits c m (m.api32x c handler.selector))
    (hrun : Run c ((enter_framed henter hfits).pushed :: live) m₁ m₂) (hk : e.ReturnsAt k)
    (hat : AtFrame m₁ m₂ k) (eflags : BitVec 32) :
    ∃ m₃, m₂.exit c e.popCount (m.api32x c handler.selector) eflags = some m₃ ∧
      Restored c m m₃ ∧
      (e.SavesEip (m.api32x c handler.selector) k ∨ hiWord m.scp.eip = 0 →
        m₃.scp.eip = m.scp.eip) ∧
      (e.IsInt → m₃.pm = m.pm ∧ m₃.imr = m.imr) ∧
      m₃.inPmStack = if Rejects c m then 0 else m.inPmStack := by
  have hframed := enter_framed henter hfits
  have hkept := hrun.kept (hframed.host host)
  obtain ⟨m₃, hexit, hleft, hrestored, heip, hint⟩ :=
    call_returns host henter hfits hkept hk hat eflags
  refine ⟨m₃, hexit, hrestored, heip, hint, ?_⟩
  rw [hleft.inPmStack, hkept.inPmStack, hframed.inPmStack, Nat.add_sub_cancel, entryCount]

/-- A 16-bit client, on a stack of 16 bits of its own. -/
def interrupted (esp : BitVec 32) (inPmStack : Nat) : Machine where
  state := { oneClient with
    ldtBuffer := fun e => if e = 2 then 0x0040000000000000#64 else 0x000000000000ffff#64
    user := fun e => if 1 ≤ e ∧ e ≤ 4 then 1 else 0
    client := fun _ => ⟨0, fun _ => ⟨0, 0, 0, 0, 0⟩, 0, 0, false⟩ }
  scp := { cs := 0x27, ss := 0x27, ds := 0, es := 0, fs := 0, gs := 0, eip := 0x100, esp := esp,
           eflags := 0x202, err := 0, cr2 := 0 }
  mem := fun _ => 0
  inPmStack := inPmStack
  pm := true
  imr := 0xb8

def twoSegments : Setup where
  thunk := false
  pmstackSel := 0x1f
  sel16 := 0x0f
  sel32 := 0x17
  returnFromPm := 1
  returnFromException := 2
  returnFromExtException := 3
  pm_ne_exception := by decide
  pm_ne_ext := by decide
  exception_ne_ext := by decide

/-- A timer interrupt of a client whose ESP has a high word. -/
theorem frames_restore_timer : ∃ m₁ m₃,
    (interrupted 0x12348000 0).enter twoSegments (.pmInt 8 1 false) ⟨0x27, 0x400⟩ = some m₁ ∧
      m₁.exit twoSegments 3 false 0 = some m₃ ∧
      Restored twoSegments (interrupted 0x12348000 0) m₃ ∧ m₃.scp.eip = 0x100 ∧
      m₃.inPmStack = 0 := by
  have hsome : ((interrupted 0x12348000 0).enter twoSegments (.pmInt 8 1 false)
      ⟨0x27, 0x400⟩).isSome = true := by
    decide +kernel
  obtain ⟨m₁, henter⟩ := Option.isSome_iff_exists.mp hsome
  have hnarrow : (interrupted 0x12348000 0).api32x twoSegments 0x27 = false := by
    decide +kernel
  have hat : AtFrame m₁ m₁ 0 := ⟨rfl, rfl, rfl, (BitVec.add_zero _).symm⟩
  obtain ⟨m₃, hexit, hrestored, heip, -, hcount⟩ :=
    frames_restore ⟨by decide +kernel, by decide +kernel⟩ henter
      (.inr (.inr (.inl (by decide +kernel)))) (Run.done [_] m₁) rfl hat 0
  refine ⟨m₁, m₃, henter, ?_, hrestored, heip (.inl trivial), ?_⟩
  · exact hnarrow ▸ hexit
  · rw [hcount, if_neg (by decide +kernel)]
    rfl

/-- A client with ESP 0 on a stack of its own, from which the locked stack is entered anew. -/
theorem rejected_stack_resets_count :
    (((interrupted 0 2).enter twoSegments .legacy ⟨0x27, 0x400⟩).bind
      (exit twoSegments 2 false 0)).map inPmStack = some 0 ∧
      (interrupted 0 2).inPmStack = 2 := by
  decide +kernel

end Machine

end Frames
end Dpmi
end Dosemu
