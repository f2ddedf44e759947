import Dosemu.Lib.Outcome
import Dosemu.Lib.Run
import Dosemu.Simx86.LazyFlags

/-!
# The direction of string instructions

The direction flag is kept twice.  The transfer loops of the string
instructions test EFLAGS.DF; the update of SI and DI after them adds a byte of
`df_increments`.  Both copies are written by CLD, STD, POPF and IRET, and the
last two are split by mode and privilege.

Main results:

- Theorem `step_dirOk_iff`: from a state where the copies agree, a step
  separates them exactly when it is an IRET in real mode that pops another
  direction.
- Theorem `direction_iff`: the same for whole runs.
-/

namespace Dosemu
namespace Simx86

open Run

/-! ## The processor -/

/-- `EFLAGS_TF`. -/
def eflagsTF : Word := 0x00000100#32

/-- `EFLAGS_IF`. -/
def eflagsIF : Word := 0x00000200#32

/-- `EFLAGS_DF`. -/
def eflagsDF : Word := 0x00000400#32

/-- `EFLAGS_IOPL_MASK`. -/
def eflagsIOPL : Word := 0x00003000#32

/-- `EFLAGS_NT`. -/
def eflagsNT : Word := 0x00004000#32

/-- `EFLAGS_RF`. -/
def eflagsRF : Word := 0x00010000#32

/-- `EFLAGS_VM`. -/
def eflagsVM : Word := 0x00020000#32

/-- `EFLAGS_AC`. -/
def eflagsAC : Word := 0x00040000#32

/-- `EFLAGS_VIF`. -/
def eflagsVIF : Word := 0x00080000#32

/-- `EFLAGS_VIP`. -/
def eflagsVIP : Word := 0x00100000#32

/-- `EFLAGS_ID`. -/
def eflagsID : Word := 0x00200000#32

/-- `EFLAGS_ALL`. -/
def eflagsAll : Word := 0x003f7fd5#32

/-- The emulated processors. -/
inductive CpuType
  | cpu286
  | cpu386
  | cpu486
  | cpu586
deriving DecidableEq, Repr

/-- `eTSSMASK`, as `init_emu_cpu` sets it. -/
def eTssMask : CpuType → Word
  | .cpu286 => 0#32
  | .cpu386 => eflagsNT ||| eflagsIOPL
  | .cpu486 => eflagsAC ||| eflagsNT ||| eflagsIOPL
  | .cpu586 => eflagsID ||| eflagsAC ||| eflagsNT ||| eflagsIOPL

/-- `SAFE_MASK`. -/
def safeMask (cpu : CpuType) : Word :=
  eflagsOF ||| eflagsDF ||| eflagsTF ||| eflagsSF ||| eflagsZF ||| eflagsAF ||| eflagsPF |||
    eflagsCF ||| (eTssMask cpu &&& ~~~eflagsIOPL)

/-- What the simulator reads of a descriptor in the local table. -/
structure Descriptor where
  valid : Bool
  present : Bool
  code : Bool
  big : Bool
  expandDown : Bool
  base : Word
  limit : Word
deriving DecidableEq, Repr

/-- The registers that flag and string instructions use. -/
structure Cpu where
  eflags : Word
  dfIncrements : Word
  rfl : Rfl
  dr1 : Word
  eax : Word
  ecx : Word
  esi : Word
  edi : Word
  esp : Word
  cs : BitVec 16
  ss : BitVec 16
  csBoundL : Word
  csBoundH : Word
  ssBoundL : Word
  ssBoundH : Word
  stackMask : Word
  cr0 : Word
  cr4 : Word
  mode : Word
  err : Nat
  scpErr : Word
  exitPending : BitVec 16
deriving DecidableEq, Repr

/-- What the processor sees around it while it takes one instruction. -/
structure World where
  cpu : CpuType
  mem : Word → BitVec 8
  descriptor : BitVec 16 → Descriptor
  vm86Vip : Bool
  isSetVip : Bool

/-- `ADDR16`. -/
def modeAddr16 : Word := 0x00000001#32

/-- `DATA16`. -/
def modeData16 : Word := 0x00000002#32

/-- `MREALA`. -/
def modeRealA : Word := 0x00040000#32

/-- `MBIGCS`. -/
def modeBigCs : Word := 0x00080000#32

/-- `EXCP0B_NOSEG`. -/
def excpNoSeg : Nat := 12

/-- `EXCP0C_STACK`. -/
def excpStack : Nat := 13

/-- `EXCP0D_GPF`. -/
def excpGpf : Nat := 14

namespace Cpu

/-- `REALMODE()`. -/
def realMode (s : Cpu) : Bool :=
  s.cr0 &&& 1#32 == 0#32

/-- `V86MODE()`. -/
def v86Mode (s : Cpu) : Bool :=
  s.eflags &&& eflagsVM != 0#32

/-- `REALADDR()`. -/
def realAddr (s : Cpu) : Bool :=
  s.mode &&& modeRealA != 0#32

/-- `CPL`. -/
def cpl (s : Cpu) : Nat :=
  if s.v86Mode then 3 else (s.cs &&& 3#16).toNat

/-- `IOPL`. -/
def iopl (s : Cpu) : Nat :=
  ((s.eflags &&& eflagsIOPL) >>> 12).toNat

/-- Assignment to `FLAGS`, the low half of EFLAGS. -/
def setFlags (s : Cpu) (v : Word) : Cpu :=
  { s with eflags := (s.eflags &&& 0xffff0000#32) ||| (v &&& 0xffff#32) }

/-- `exit_pending_or`. -/
def exitPendingOr (s : Cpu) (v : BitVec 16) : Cpu :=
  { s with exitPending := s.exitPending ||| v }

/-- `TheCPU.df_increments = (EFLAGS&DF)?0xfcfeff:0x040201`. -/
def syncIncrements (s : Cpu) : Cpu :=
  { s with dfIncrements := if s.eflags &&& eflagsDF != 0#32 then 0xfcfeff#32 else 0x040201#32 }

end Cpu

/-- `exit_TFSET`. -/
def exitTfSet : BitVec 16 := 0x04#16

/-- `exit_STI`. -/
def exitSti : BitVec 16 := 0x08#16

/-! ## Memory, the stack and CS -/

/-- `sim_read_word`. -/
def simReadWord (mem : Word → BitVec 8) (a : Word) : Word :=
  (mem a).setWidth 32 ||| ((mem (a + 1#32)).setWidth 32 <<< 8)

/-- `sim_read_dword`. -/
def simReadDword (mem : Word → BitVec 8) (a : Word) : Word :=
  simReadWord mem a ||| (simReadWord mem (a + 2#32) <<< 16)

/-- `check_stack_limit`, without the fault it raises. -/
def checkStackLimit (w : World) (s : Cpu) (sp size : Word) : Bool :=
  let limit := s.ssBoundH - s.ssBoundL
  let top := (sp + size - 1#32) &&& s.stackMask
  let sp := sp &&& s.stackMask
  if (w.descriptor s.ss).expandDown then
    decide (size ≤ s.stackMask - limit) && decide (limit < sp)
  else
    decide (size ≤ limit) && decide (top ≤ limit)

/-- `SetSegProt_check` for CS: an exception, or whether the segment must be
loaded. -/
def setSegProtCheck (w : World) (s : Cpu) (sel : BitVec 16) : Except Nat Bool :=
  let d := w.descriptor sel
  if s.cs = sel ∧ s.csBoundH - s.csBoundL ≠ 0x80000000#32 then .ok false
  else if sel < 4#16 then .error excpGpf
  else if sel &&& 4#16 = 0#16 then .error excpGpf
  else if !d.valid then .error excpGpf
  else if !d.present then .error excpNoSeg
  else if !d.code then .error excpGpf
  else .ok true

/-- `SetSegProt` for CS. -/
def setSegProt (w : World) (s : Cpu) (sel : BitVec 16) : Cpu :=
  match setSegProtCheck w s sel with
  | .error e => { s with err := e, scpErr := (sel &&& 0xfffc#16).setWidth 32 }
  | .ok false => s
  | .ok true =>
      let d := w.descriptor sel
      let mode := s.mode &&& ~~~(modeAddr16 ||| modeData16 ||| modeBigCs)
      { s with
        cs := sel
        csBoundL := d.base
        csBoundH := d.base + d.limit
        mode := mode ||| (if d.big then modeBigCs else modeAddr16 ||| modeData16) }

/-! ## The instructions -/

/-- The test for which the interpreter raises a fault instead of simulating POPF
or IRET. -/
def popNotPermitted (s : Cpu) : Bool :=
  s.v86Mode && (s.iopl != 3) && (s.cr4 &&& 1#32 == 0#32)

/-- `O_SETFL` with CLD. -/
def simCld (s : Cpu) : Cpu :=
  { s.setFlags (s.eflags &&& 0xfbff#32) with dfIncrements := 0x040201#32 }

/-- `O_SETFL` with STD. -/
def simStd (s : Cpu) : Cpu :=
  { s.setFlags (s.eflags ||| 0x400#32) with dfIncrements := 0xfcfeff#32 }

/-- `stack_return_from_vm86`: POPF, and the flags of IRET, in virtual-8086
mode. -/
def stackReturnFromVm86 (w : World) (s : Cpu) (data16 : Bool) (temp : Word) : Cpu :=
  let mask := safeMask w.cpu
  let s :=
    if s.iopl = 3 then
      let s :=
        if data16 then s.setFlags (s.eflags &&& ~~~(mask ||| eflagsIF))
        else { s with eflags := s.eflags &&& ~~~(mask ||| eflagsIF) }
      { s with eflags := s.eflags ||| (temp &&& (mask ||| eflagsIF)) ||| 2#32 }
    else
      let s :=
        if data16 then s.setFlags (s.eflags &&& ~~~mask)
        else { s with eflags := s.eflags &&& ~~~mask }
      let s := { s with eflags := s.eflags ||| (temp &&& mask) ||| 2#32 }
      if temp &&& eflagsIF != 0#32 then { s with eflags := s.eflags ||| eflagsVIF } else s
  let s := s.syncIncrements
  if temp &&& eflagsIF != 0#32 && w.vm86Vip then s.exitPendingOr exitSti else s

/-- The flags a task may change with a pop outside virtual-8086 mode. -/
def popFlags (w : World) (s : Cpu) (data16 : Bool) (amask temp : Word) : Cpu :=
  if data16 then
    s.setFlags ((s.eflags &&& amask) ||| ((temp &&& 0x7fd7#32) &&& ~~~amask) ||| 2#32)
  else
    { s with
      eflags := (s.eflags &&& amask) |||
        ((temp &&& (eTssMask w.cpu ||| 0xfd7#32)) &&& ~~~amask) ||| 2#32 }

/-- The rights mask of both pops: IOPL below ring 0, IF below IOPL. -/
def rightsMask (s : Cpu) (outer : Word) : Word :=
  (if s.cpl = 0 then 0#32 else outer) ||| (if s.cpl ≤ s.iopl then 0#32 else eflagsIF)

/-- POPF outside virtual-8086 mode. -/
def popfFlat (w : World) (s : Cpu) (data16 : Bool) (temp : Word) : Cpu :=
  let amask := rightsMask s eflagsIOPL ||| (eflagsVM ||| eflagsRF)
  let s := popFlags w s data16 amask temp
  let s :=
    if s.iopl < 3 ∧ s.cr4 &&& 2#32 ≠ 0#32 then
      if temp &&& eflagsIF != 0#32 then { s with eflags := s.eflags ||| eflagsVIF }
      else { s with eflags := s.eflags &&& ~~~eflagsVIF }
    else s
  let s := s.syncIncrements
  if s.eflags &&& eflagsIF != 0#32 && w.isSetVip then s.exitPendingOr exitSti else s

/-- What IRET takes from the stack: the stack pointer after it, EIP, CS and the
flags. -/
def iretFrame (w : World) (s : Cpu) (data16 : Bool) : Word × Word × BitVec 16 × Word :=
  let pop := fun (sp size : Word) => (sp + size) &&& s.stackMask
  let sp := s.esp &&& s.stackMask
  if data16 then
    let sp₁ := pop sp 2#32
    let sp₂ := pop sp₁ 2#32
    (pop sp₂ 2#32, simReadWord w.mem (s.ssBoundL + sp),
      (simReadWord w.mem (s.ssBoundL + sp₁)).setWidth 16, simReadWord w.mem (s.ssBoundL + sp₂))
  else
    let sp₁ := pop sp 4#32
    let sp₂ := pop sp₁ 4#32
    (pop sp₂ 4#32, simReadDword w.mem (s.ssBoundL + sp),
      (simReadWord w.mem (s.ssBoundL + sp₁)).setWidth 16, simReadDword w.mem (s.ssBoundL + sp₂))

/-- The part of IRET that pops EIP and CS: `none` when it faults, with the state
the fault is raised in. -/
def iretLoadCs (w : World) (s : Cpu) (data16 : Bool) : Except Cpu Cpu :=
  if !checkStackLimit w s (s.esp &&& s.stackMask) (if data16 then 6#32 else 12#32) then
    .error { s with err := excpStack }
  else
    let (sp, eip, cs, _) := iretFrame w s data16
    let finish := fun s : Cpu =>
      { s with esp := sp ||| (s.esp &&& ~~~s.stackMask), dr1 := eip }
    if s.realAddr then
      .ok (finish { s with cs := cs, csBoundL := cs.setWidth 32 <<< 4 })
    else
      let s := setSegProt w s cs
      if s.err ≠ 0 then .error s else .ok (finish s)

/-- Leave the block when the popped image sets TF. -/
def noteTrap (s : Cpu) (temp : Word) : Cpu :=
  if temp &&& eflagsTF != 0#32 then s.exitPendingOr exitTfSet else s

/-- The flags of IRET, once CS is loaded. -/
def iretFlags (w : World) (s : Cpu) (data16 : Bool) (temp : Word) : Option Cpu := do
  cAssert (!popNotPermitted s)
  let s := noteTrap s temp
  let kept := eflagsVM ||| eflagsVIF ||| eflagsVIP
  let temp := if data16 then temp else
    (temp &&& (eflagsAll &&& ~~~kept)) ||| (s.eflags &&& kept)
  if s.realMode then pure (s.setFlags (temp ||| 2#32))
  else if s.v86Mode then pure (stackReturnFromVm86 w s data16 temp)
  else
    let amask := rightsMask s (eflagsIOPL ||| eflagsVIF ||| eflagsVIP)
    pure (popFlags w s data16 amask temp).syncIncrements

/-- `*flags` on return: the new condition codes in the caller's image. -/
def mergeFlags (s : Cpu) (flags : Word) : Word :=
  (s.eflags &&& eflagsCC) ||| (flags &&& ~~~eflagsCC)

/-- `Sim_helper`, POPF, with the flags it hands back; the popped image is in the
data register. -/
def simPopf (w : World) (data16 : Bool) (flags : Word) (s : Cpu) : Option (Cpu × Word) := do
  cAssert (!popNotPermitted s)
  let temp := s.dr1
  let s := noteTrap s temp
  let t := if s.v86Mode then stackReturnFromVm86 w s data16 temp else popfFlat w s data16 temp
  pure (t, mergeFlags t flags)

/-- `Sim_helper`, IRET, with the flags it hands back. -/
def simIret (w : World) (data16 : Bool) (flags : Word) (s : Cpu) : Option (Cpu × Word) :=
  match iretLoadCs w s data16 with
  | .error s => some (s, flags)
  | .ok t => do
      let t ← iretFlags w t data16 (iretFrame w s data16).2.2.2
      pure (t, mergeFlags t flags)

/-- `O_SIM`: the lazy flags go into EFLAGS before the helper and come back from
it. -/
def oSim (helper : Word → Cpu → Option (Cpu × Word)) (s : Cpu) : Option Cpu := do
  let flags := flagSyncAll s.rfl
  let (t, flags) ← helper flags
    { s with eflags := (s.eflags &&& ~~~eflagsCC) ||| (flags &&& eflagsCC) }
  pure { t with rfl := flagSyncRfl flags }

/-- The instructions that write the direction flag, as the interpreter hands
them over. -/
inductive FlagInsn
  | cld
  | std
  | popf (w : World) (data16 : Bool) (image : Word)
  | iret (w : World) (data16 : Bool)

/-- One instruction.  POPF and IRET that are not permitted fault before they are
simulated. -/
def step (s : Cpu) : FlagInsn → Option Cpu
  | .cld => some (simCld s)
  | .std => some (simStd s)
  | .popf w data16 image =>
      if popNotPermitted s then some { s with err := excpGpf }
      else oSim (simPopf w data16) { s with dr1 := image }
  | .iret w data16 =>
      if popNotPermitted s then some { s with err := excpGpf }
      else oSim (simIret w data16) s

/-! ## String instructions -/

/-- The operand sizes. -/
inductive OpSize
  | byte
  | word
  | dword
deriving DecidableEq, Repr

/-- `OPSIZE`. -/
def OpSize.bytes : OpSize → Word
  | .byte => 1#32
  | .word => 2#32
  | .dword => 4#32

/-- `OPSIZEBIT`. -/
def OpSize.bit : OpSize → Nat
  | .byte => 0
  | .word => 1
  | .dword => 2

/-- The direction as the transfer loops test it. -/
def Cpu.transferStride (s : Cpu) (size : OpSize) : Word :=
  if s.eflags &&& eflagsDF != 0#32 then -size.bytes else size.bytes

/-- The loop of MOVS over `count` elements: the places it reads and writes, in
order, and where its two pointers are left. -/
def movsPass (s : Cpu) (size : OpSize) : Nat → Word → Word → List (Word × Word) × Word × Word
  | 0, src, dest => ([], src, dest)
  | n + 1, src, dest =>
      let (places, ends) :=
        movsPass s size n (src + s.transferStride size) (dest + s.transferStride size)
      ((src, dest) :: places, ends)

/-- The increment `O_MOVS_SavA` takes from `df_increments`. -/
def Cpu.savedIncrement (s : Cpu) (size : OpSize) : Word :=
  ((s.dfIncrements >>> (8 * size.bit)).setWidth 8).signExtend 32

/-- Assignment to the low half of a register. -/
def setLow (r v : Word) : Word :=
  (r &&& 0xffff0000#32) ||| (v &&& 0xffff#32)

/-- How often the transfer loops run. -/
def Cpu.transferCount (s : Cpu) (addr16 rep : Bool) : Word :=
  if rep then (if addr16 then s.ecx &&& 0xffff#32 else s.ecx) else 1#32

/-- Add to a pointer register, or to the low half of it. -/
def movePointer (addr16 : Bool) (r d : Word) : Word :=
  if addr16 then setLow r (r + d) else r + d

/-- `O_MOVS_SavA` for a string instruction that is not a conditional repeat. -/
def movsSavA (s : Cpu) (size : OpSize) (addr16 rep src dst : Bool) : Cpu :=
  let count := if rep then s.ecx else 1#32
  let d := s.savedIncrement size * (if addr16 then count &&& 0xffff#32 else count)
  let s := if src then { s with esi := movePointer addr16 s.esi d } else s
  let s := if dst then { s with edi := movePointer addr16 s.edi d } else s
  if rep then { s with ecx := if addr16 then setLow s.ecx 0#32 else 0#32 } else s

/-! ## The two copies -/

variable {s t : Cpu} {w : World} {data16 : Bool}

/-- EFLAGS.DF. -/
def Cpu.df (s : Cpu) : Bool :=
  s.eflags.getLsbD 10

/-- `df_increments` is the one for EFLAGS.DF. -/
def DirOk (s : Cpu) : Prop :=
  s.dfIncrements = if s.df then 0xfcfeff#32 else 0x040201#32

theorem and_eflagsDF_ne_zero (v : Word) : (v &&& eflagsDF != 0#32) = v.getLsbD 10 := by
  have htwo : eflagsDF = BitVec.twoPow 32 10 := rfl
  rw [htwo, BitVec.and_twoPow]
  cases v.getLsbD 10 <;> rfl

/-- A word whose direction bit was masked out or in. -/
theorem getLsbD_setFlags (s : Cpu) (v : Word) : (s.setFlags v).df = v.getLsbD 10 := by
  simp [Cpu.setFlags, Cpu.df]

theorem syncIncrements_dirOk (s : Cpu) : DirOk s.syncIncrements := by
  simp only [DirOk, Cpu.syncIncrements, and_eflagsDF_ne_zero]
  rfl

/-- What happens to other registers does not matter. -/
theorem DirOk.congr (h : DirOk s) (hflags : t.df = s.df)
    (hinc : t.dfIncrements = s.dfIncrements) : DirOk t := by
  unfold DirOk at h ⊢
  rw [hinc, hflags, h]

/-- With the increments kept, the copies stay together exactly when the flag
does not change. -/
theorem DirOk.kept_iff (h : DirOk s) (hinc : t.dfIncrements = s.dfIncrements) :
    DirOk t ↔ t.df = s.df := by
  refine ⟨fun ht => ?_, fun hdf => h.congr hdf hinc⟩
  unfold DirOk at h ht
  rw [hinc, h] at ht
  revert ht
  cases s.df <;> cases t.df <;> decide

theorem simCld_dirOk (s : Cpu) : DirOk (simCld s) := by
  have hdf : (simCld s).df = false := by simp [simCld, Cpu.df, Cpu.setFlags]
  rw [DirOk, hdf]
  rfl

theorem simStd_dirOk (s : Cpu) : DirOk (simStd s) := by
  have hdf : (simStd s).df = true := by simp [simStd, Cpu.df, Cpu.setFlags]
  rw [DirOk, hdf]
  rfl

/-- A last request to leave the block does not matter. -/
theorem syncIncrements_exit_dirOk (s : Cpu) (b : Bool) (v : BitVec 16) :
    DirOk (if b then s.syncIncrements.exitPendingOr v else s.syncIncrements) := by
  cases b with
  | true => exact (syncIncrements_dirOk s).congr rfl rfl
  | false => exact syncIncrements_dirOk s

theorem stackReturnFromVm86_dirOk (w : World) (s : Cpu) (data16 : Bool) (temp : Word) :
    DirOk (stackReturnFromVm86 w s data16 temp) :=
  syncIncrements_exit_dirOk _ _ _

theorem popfFlat_dirOk (w : World) (s : Cpu) (data16 : Bool) (temp : Word) :
    DirOk (popfFlat w s data16 temp) :=
  syncIncrements_exit_dirOk _ _ _

/-! ## What IRET reads and keeps -/

/-- The popped CS can be loaded. -/
def csLoads (w : World) (s : Cpu) (data16 : Bool) : Prop :=
  s.realAddr = true ∨ (setSegProt w s (iretFrame w s data16).2.2.1).err = 0

/-- IRET gets as far as the flags. -/
def IretReturns (w : World) (s : Cpu) (data16 : Bool) : Prop :=
  checkStackLimit w s (s.esp &&& s.stackMask) (if data16 then 6#32 else 12#32) = true ∧
    csLoads w s data16

/-- The popped image of the flags. -/
def poppedFlags (w : World) (s : Cpu) (data16 : Bool) : Word :=
  (iretFrame w s data16).2.2.2

/-- The registers that decide what happens to the direction. -/
structure SameFlags (s t : Cpu) : Prop where
  eflags : t.eflags = s.eflags
  inc : t.dfIncrements = s.dfIncrements
  cr0 : t.cr0 = s.cr0
  cr4 : t.cr4 = s.cr4

theorem SameFlags.df (h : SameFlags s t) : t.df = s.df := by
  rw [Cpu.df, h.eflags]
  rfl

theorem SameFlags.popNotPermitted (h : SameFlags s t) :
    popNotPermitted t = popNotPermitted s := by
  simp only [Simx86.popNotPermitted, Cpu.v86Mode, Cpu.iopl, h.eflags, h.cr4]

theorem SameFlags.realMode (h : SameFlags s t) : t.realMode = s.realMode := by
  rw [Cpu.realMode, h.cr0]
  rfl

theorem setSegProt_sameFlags (w : World) (s : Cpu) (sel : BitVec 16) :
    SameFlags s (setSegProt w s sel) := by
  unfold setSegProt
  split <;> exact ⟨rfl, rfl, rfl, rfl⟩

theorem noteTrap_sameFlags (s : Cpu) (temp : Word) : SameFlags s (noteTrap s temp) := by
  unfold noteTrap
  split <;> exact ⟨rfl, rfl, rfl, rfl⟩

/-- IRET loads CS, or faults, without touching the flags. -/
theorem iretLoadCs_spec (w : World) (s : Cpu) (data16 : Bool) :
    (∃ t, iretLoadCs w s data16 = .error t ∧ SameFlags s t ∧ ¬IretReturns w s data16) ∨
      ∃ t, iretLoadCs w s data16 = .ok t ∧ SameFlags s t ∧ IretReturns w s data16 := by
  unfold iretLoadCs IretReturns csLoads
  by_cases hstack :
      checkStackLimit w s (s.esp &&& s.stackMask) (if data16 then 6#32 else 12#32) = true
  · by_cases hreal : s.realAddr = true
    · right
      simp only [hstack, hreal, Bool.not_true, Bool.false_eq_true, if_false, if_true]
      exact ⟨_, rfl, ⟨rfl, rfl, rfl, rfl⟩, trivial, Or.inl trivial⟩
    · have hsame := setSegProt_sameFlags w s (iretFrame w s data16).2.2.1
      by_cases herr : (setSegProt w s (iretFrame w s data16).2.2.1).err = 0
      · right
        simp only [hstack, hreal, herr, Bool.not_true, Bool.false_eq_true, if_false, ne_eq,
          not_true_eq_false]
        exact ⟨_, rfl, ⟨hsame.eflags, hsame.inc, hsame.cr0, hsame.cr4⟩, trivial, Or.inr trivial⟩
      · left
        simp only [hstack, hreal, herr, Bool.not_true, Bool.false_eq_true, if_false, ne_eq,
          not_false_eq_true, if_true]
        exact ⟨_, rfl, hsame, by simp⟩
  · left
    simp only [hstack, Bool.not_false, if_true]
    exact ⟨_, rfl, ⟨rfl, rfl, rfl, rfl⟩, by simp⟩

/-- The flags of IRET in real mode are the popped ones; the increments are those
from before. -/
theorem iretFlags_real (w : World) (data16 : Bool) (temp : Word)
    (hperm : popNotPermitted s = false) (hreal : s.realMode = true) :
    ∃ t, iretFlags w s data16 temp = some t ∧ t.df = temp.getLsbD 10 ∧
      t.dfIncrements = s.dfIncrements := by
  have hassert : (!popNotPermitted s) = true := by rw [hperm]; rfl
  have hmask : (eflagsAll &&& ~~~(eflagsVM ||| eflagsVIF ||| eflagsVIP)).getLsbD 10 = true := by
    decide
  have hkept : (eflagsVM ||| eflagsVIF ||| eflagsVIP).getLsbD 10 = false := by decide
  have htrap := noteTrap_sameFlags s temp
  have hreal' : (noteTrap s temp).realMode = true := htrap.realMode.trans hreal
  simp only [iretFlags, Option.bind_eq_bind, cAssert_bind hassert, hreal', if_true]
  refine ⟨_, rfl, ?_, htrap.inc⟩
  rw [getLsbD_setFlags, BitVec.getLsbD_or]
  have htwo : (2#32).getLsbD 10 = false := by decide
  cases data16 with
  | true => simp only [htwo, if_true, Bool.or_false]
  | false =>
      simp only [Bool.false_eq_true, if_false, BitVec.getLsbD_or (x := temp &&& _),
        BitVec.getLsbD_and (x := temp), BitVec.getLsbD_and (x := (noteTrap s temp).eflags),
        hmask, hkept, htwo, Bool.and_true, Bool.and_false, Bool.or_false]

/-- Outside real mode the flags of IRET bring the increments along. -/
theorem iretFlags_protected (w : World) (data16 : Bool) (temp : Word)
    (hperm : popNotPermitted s = false) (hreal : s.realMode = false) :
    ∃ t, iretFlags w s data16 temp = some t ∧ DirOk t := by
  have hassert : (!popNotPermitted s) = true := by rw [hperm]; rfl
  have hreal' : (noteTrap s temp).realMode = false :=
    (noteTrap_sameFlags s temp).realMode.trans hreal
  simp only [iretFlags, Option.bind_eq_bind, cAssert_bind hassert, hreal', Bool.false_eq_true,
    if_false]
  split
  · exact ⟨_, rfl, stackReturnFromVm86_dirOk _ _ _ _⟩
  · exact ⟨_, rfl, syncIncrements_dirOk _⟩

/-! ## One instruction -/

/-- The state in which `Sim_helper` starts. -/
def helperEntry (s : Cpu) : Cpu :=
  { s with
    eflags := (s.eflags &&& ~~~eflagsCC) ||| (flagSyncAll s.rfl &&& eflagsCC) }

/-- The lazy flags do not touch the other bits of EFLAGS. -/
theorem helperEntry_and {m : Word} (hm : m &&& eflagsCC = 0#32) :
    (helperEntry s).eflags &&& m = s.eflags &&& m := by
  ext i hi
  have hbit : (m[i] && eflagsCC[i]) = false := by
    have := congrArg (fun v : Word => v[i]) hm
    simpa using this
  simp only [helperEntry, BitVec.getElem_and, BitVec.getElem_or, BitVec.getElem_not]
  revert hbit
  cases m[i] <;> cases eflagsCC[i] <;> cases s.eflags[i] <;> simp

theorem helperEntry_df (s : Cpu) : (helperEntry s).df = s.df := by
  have hcc : eflagsCC.getLsbD 10 = false := by decide
  simp only [helperEntry, Cpu.df, BitVec.getLsbD_or, BitVec.getLsbD_and, BitVec.getLsbD_not, hcc]
  simp

theorem helperEntry_popNotPermitted (s : Cpu) :
    popNotPermitted (helperEntry s) = popNotPermitted s := by
  have hvm : (helperEntry s).eflags &&& eflagsVM = s.eflags &&& eflagsVM :=
    helperEntry_and (by decide)
  have hiopl : (helperEntry s).eflags &&& eflagsIOPL = s.eflags &&& eflagsIOPL :=
    helperEntry_and (by decide)
  simp only [popNotPermitted, Cpu.v86Mode, Cpu.iopl, hvm, hiopl]
  rfl

theorem helperEntry_dirOk (h : DirOk s) : DirOk (helperEntry s) :=
  h.congr (helperEntry_df s) rfl

theorem setSegProt_err_helperEntry (w : World) (s : Cpu) (sel : BitVec 16) :
    (setSegProt w (helperEntry s) sel).err = (setSegProt w s sel).err := by
  have hcheck : setSegProtCheck w (helperEntry s) sel = setSegProtCheck w s sel := rfl
  unfold setSegProt
  rw [hcheck]
  split <;> rfl

theorem iretReturns_helperEntry :
    IretReturns w (helperEntry s) data16 ↔ IretReturns w s data16 := by
  have herr := setSegProt_err_helperEntry w s (iretFrame w s data16).2.2.1
  unfold IretReturns csLoads
  exact and_congr Iff.rfl (or_congr Iff.rfl (Iff.of_eq (congrArg (· = 0) herr)))

theorem oSim_eq (helper : Word → Cpu → Option (Cpu × Word)) (s : Cpu) :
    oSim helper s = (helper (flagSyncAll s.rfl) (helperEntry s)).bind fun r =>
      some { r.1 with rfl := flagSyncRfl r.2 } :=
  rfl

/-- A permitted POPF ends with the copies together. -/
theorem step_popf (w : World) (data16 : Bool) (image : Word)
    (hperm : popNotPermitted s = false) :
    ∃ t, step s (.popf w data16 image) = some t ∧ DirOk t := by
  have hassert : (!popNotPermitted (helperEntry { s with dr1 := image })) = true := by
    rw [helperEntry_popNotPermitted]
    exact congrArg (!·) hperm
  simp only [step, hperm, Bool.false_eq_true, if_false, oSim_eq, simPopf, Option.bind_eq_bind,
    cAssert_bind hassert]
  refine ⟨_, rfl, ?_⟩
  refine DirOk.congr (s := if (noteTrap _ _).v86Mode = true then _ else _) ?_ rfl rfl
  split
  · exact stackReturnFromVm86_dirOk _ _ _ _
  · exact popfFlat_dirOk _ _ _ _

/-- The direction flag after an IRET in real mode is the one from before. -/
def RealIretKeepsDf (s : Cpu) : FlagInsn → Prop
  | .iret w data16 =>
      s.realMode = true → popNotPermitted s = false → IretReturns w s data16 →
        (poppedFlags w s data16).getLsbD 10 = s.df
  | _ => True

/-- A permitted IRET does so, too, unless it pops another direction in real
mode. -/
theorem step_iret (h : DirOk s) (hperm : popNotPermitted s = false) :
    ∃ t, step s (.iret w data16) = some t ∧
      (DirOk t ↔ RealIretKeepsDf s (.iret w data16)) := by
  have hentry := helperEntry_dirOk h
  have hperm' : popNotPermitted (helperEntry s) = false :=
    (helperEntry_popNotPermitted s).trans hperm
  simp only [step, hperm, Bool.false_eq_true, if_false, oSim_eq, simIret, RealIretKeepsDf,
    forall_const]
  rcases iretLoadCs_spec w (helperEntry s) data16 with
    ⟨t, hload, hsame, hnot⟩ | ⟨t, hload, hsame, hreturns⟩
  · rw [hload]
    refine ⟨_, rfl, iff_of_true ?_ fun _ hreturns => ?_⟩
    · exact hentry.congr hsame.df hsame.inc
    · exact absurd (iretReturns_helperEntry.mpr hreturns) hnot
  · have hpermt := hsame.popNotPermitted.trans hperm'
    rw [hload]
    dsimp only
    by_cases hreal : s.realMode = true
    · obtain ⟨u, hu, hdf, hinc⟩ := iretFlags_real w data16
        (iretFrame w (helperEntry s) data16).2.2.2 hpermt (hsame.realMode.trans hreal)
      rw [hu]
      refine ⟨_, rfl, ?_⟩
      change DirOk u ↔ _
      rw [h.kept_iff (hinc.trans hsame.inc), hdf]
      exact ⟨fun hkeep _ _ => hkeep, fun hkeep => hkeep hreal (iretReturns_helperEntry.mp hreturns)⟩
    · obtain ⟨u, hu, hok⟩ := iretFlags_protected w data16
        (iretFrame w (helperEntry s) data16).2.2.2 hpermt
        (hsame.realMode.trans (Bool.eq_false_iff.mpr hreal))
      rw [hu]
      refine ⟨_, rfl, iff_of_true ?_ fun hreal' => absurd hreal' hreal⟩
      exact hok.congr rfl rfl

/-- From a state where the copies agree, a step separates them exactly when it is
an IRET in real mode that pops another direction.  No step aborts. -/
theorem step_dirOk_iff (h : DirOk s) (i : FlagInsn) :
    ∃ t, step s i = some t ∧ (DirOk t ↔ RealIretKeepsDf s i) := by
  cases i with
  | cld => exact ⟨_, rfl, iff_of_true (simCld_dirOk s) trivial⟩
  | std => exact ⟨_, rfl, iff_of_true (simStd_dirOk s) trivial⟩
  | popf w data16 image =>
      by_cases hperm : popNotPermitted s = true
      · refine ⟨_, if_pos hperm, iff_of_true ?_ trivial⟩
        exact h.congr rfl rfl
      · obtain ⟨t, ht, hok⟩ := step_popf w data16 image (Bool.eq_false_iff.mpr hperm)
        exact ⟨t, ht, iff_of_true hok trivial⟩
  | iret w data16 =>
      by_cases hperm : popNotPermitted s = true
      · refine ⟨_, if_pos hperm, iff_of_true ?_ fun _ hnot => ?_⟩
        · exact h.congr rfl rfl
        · simp [hperm] at hnot
      · exact step_iret h (Bool.eq_false_iff.mpr hperm)

/-! ## String instructions move one way -/

/-- The transfer loops and the pointer update of a string instruction go the same
way: the registers move by what the pointers of the loop have moved. -/
def SameWay (s : Cpu) : Prop :=
  ∀ (size : OpSize) (addr16 rep : Bool) (src dest : Word),
    let ends := (movsPass s size (s.transferCount addr16 rep).toNat src dest).2
    let t := movsSavA s size addr16 rep true true
    t.esi = movePointer addr16 s.esi (ends.1 - src) ∧
      t.edi = movePointer addr16 s.edi (ends.2 - dest)

theorem savedIncrement_eq (h : DirOk s) (size : OpSize) :
    s.savedIncrement size = s.transferStride size := by
  unfold Cpu.savedIncrement Cpu.transferStride
  rw [h, and_eflagsDF_ne_zero]
  change _ = if s.df then _ else _
  cases s.df <;> cases size <;> decide

/-- The loop leaves its pointers `n` strides further on. -/
theorem movsPass_ends (s : Cpu) (size : OpSize) (n : Nat) (src dest : Word) :
    (movsPass s size n src dest).2 =
      (src + s.transferStride size * BitVec.ofNat 32 n,
        dest + s.transferStride size * BitVec.ofNat 32 n) := by
  induction n generalizing src dest with
  | zero => simp [movsPass]
  | succ n ih =>
      have hone : BitVec.ofNat 32 1 = 1 := rfl
      simp only [movsPass]
      rw [ih, BitVec.ofNat_add, hone]
      ext1 <;> ring

theorem DirOk.sameWay (h : DirOk s) : SameWay s := by
  intro size addr16 rep src dest
  have hcount : (if addr16 then (if rep then s.ecx else 1#32) &&& 0xffff#32
      else if rep then s.ecx else 1#32) = s.transferCount addr16 rep := by
    cases addr16 <;> cases rep <;> simp [Cpu.transferCount]
  rw [movsPass_ends, BitVec.ofNat_toNat, BitVec.setWidth_eq]
  simp only [movsSavA, hcount, savedIncrement_eq h, add_sub_cancel_left, if_true]
  cases rep <;> exact ⟨rfl, rfl⟩

/-! ## Runs -/

/-- The instruction is taken, the two copies agree after it, and string
instructions move one way. -/
def DirectionStep (s : Cpu) (i : FlagInsn) : Prop :=
  ∃ t, step s i = some t ∧ DirOk t ∧ SameWay t

theorem directionStep_iff (h : DirOk s) (i : FlagInsn) :
    DirectionStep s i ↔ RealIretKeepsDf s i := by
  obtain ⟨t, ht, hiff⟩ := step_dirOk_iff h i
  rw [← hiff]
  constructor
  · rintro ⟨u, hu, hok, -⟩
    rw [ht, Option.some.injEq] at hu
    exact hu ▸ hok
  · intro hok
    exact ⟨t, ht, hok, hok.sameWay⟩

theorem DirOk.step (h : DirOk s) {i : FlagInsn} (hkeep : RealIretKeepsDf s i)
    (hstep : Simx86.step s i = some t) : DirOk t := by
  obtain ⟨u, hu, hiff⟩ := step_dirOk_iff h i
  rw [hu, Option.some.injEq] at hstep
  exact hstep ▸ hiff.mpr hkeep

/-- In a run of flag instructions from a state where the two copies agree, they
agree in every state reached, and string instructions move one way there, exactly
when no IRET in real mode pops another direction than the current one. -/
theorem direction_iff (h : DirOk s) (is : List FlagInsn) :
    Admits step DirectionStep s is ↔ Admits step RealIretKeepsDf s is :=
  admits_congr DirOk (fun _ _ _ h hkeep ht => h.step hkeep ht)
    (fun _ i h => directionStep_iff h i) h

/-- The processor in real mode with the direction flag clear and its stack at
the bottom of memory. -/
def realModeCpu : Cpu :=
  { eflags := 2#32, dfIncrements := 0x040201#32, rfl := ⟨0#32, 0#32⟩, dr1 := 0#32, eax := 0#32,
    ecx := 0#32, esi := 0#32, edi := 0#32, esp := 0#32, cs := 0#16, ss := 0#16, csBoundL := 0#32,
    csBoundH := 0xffff#32, ssBoundL := 0#32, ssBoundH := 0xffff#32, stackMask := 0xffff#32,
    cr0 := 0x10#32, cr4 := 1#32, mode := 0x40003#32, err := 0, scpErr := 0#32,
    exitPending := 0#16 }

/-- Memory where the image of FLAGS that IRET pops has one byte of a given
value. -/
def poppedHigh (high : BitVec 8) : World :=
  { cpu := .cpu586, mem := fun a => if a = 5#32 then high else 0#8,
    descriptor := fun _ => ⟨false, false, false, false, false, 0#32, 0#32⟩,
    vm86Vip := false, isSetVip := false }

theorem realModeCpu_dirOk : DirOk realModeCpu := by
  unfold DirOk
  decide

/-- STD and then an IRET that pops a set direction flag. -/
theorem direction_std_iret :
    DirOk realModeCpu ∧
      Admits step DirectionStep realModeCpu [.std, .iret (poppedHigh 4#8) true] := by
  refine ⟨realModeCpu_dirOk, (direction_iff realModeCpu_dirOk _).mpr ⟨trivial, ?_⟩⟩
  rintro t ht
  cases ht
  refine ⟨fun _ _ _ => ?_, fun _ _ => trivial⟩
  decide

/-- In real mode an IRET that pops a set direction flag leaves the increments of
a clear one. -/
theorem real_iret_splits_direction :
    ¬Admits step DirectionStep realModeCpu [.iret (poppedHigh 4#8) true] := by
  rintro ⟨⟨t, ht, hok, -⟩, -⟩
  have heval : (step realModeCpu (.iret (poppedHigh 4#8) true)).map
      (fun t => decide (t.dfIncrements = if t.df then 0xfcfeff#32 else 0x040201#32)) =
        some false := by
    decide +kernel
  rw [ht, Option.map_some, Option.some.injEq, decide_eq_false_iff_not] at heval
  exact heval hok

end Simx86
end Dosemu
