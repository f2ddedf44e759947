import Dosemu.Lib.Circular
import Dosemu.Lib.WordMem
import Dosemu.Simx86.Direction

/-!
# Far transfers and the stack limit

In protected mode a far CALL, RETF and IRET are one call of `Sim_helper`.  It
tests the stack limit, loads CS and moves ESP, in an order that lets the
instruction be taken again after a fault.

Main results:

- Theorem `checkExact_iff`: where `check_stack_limit` decides right.
- Theorem `farStep_restarts`: a far transfer that faults has changed neither ESP
  nor CS nor a flag.
- Theorem `callReturns`: a RETF undoes the far CALL before it.
- Theorem `farTransfer_iff`: the three together.
-/

namespace Dosemu
namespace Simx86

open WordMem

/-! ## Call gates -/

/-- `Gatedesc`: a table entry as `call_gate` reads it. -/
structure Gatedesc where
  s : Bool
  type : BitVec 4
  dpl : Nat
  present : Bool
  seg : BitVec 16
  offsLo : BitVec 16
  offsHi : BitVec 16
deriving DecidableEq, Repr

/-- What a far transfer sees around it. -/
structure FarWorld extends World where
  gdt : Bool
  ldt : Bool
  gdtLimit : Word
  ldtLimit : Word
  gate : BitVec 16 → Gatedesc
  user : BitVec 16 → Bool
  dpl : BitVec 16 → Nat

/-- The same world with other memory. -/
def FarWorld.setMem (w : FarWorld) (mem : Mem) : FarWorld :=
  { w with mem := mem }

/-- `PROTMODE()`. -/
def Cpu.protMode (s : Cpu) : Bool :=
  !s.realMode && !s.v86Mode

/-- The results of `call_gate`: -1, an exception, or the selector, the entry
point and the operand size of the gate. -/
inductive GateResult
  | notGate
  | fault (e : Nat)
  | through (sel : BitVec 16) (eip : Word) (data16 : Bool)
deriving DecidableEq, Repr

/-- `call_gate`, with the state that has its `scp_err`. -/
def callGate (w : FarWorld) (s : Cpu) (sel : BitVec 16) : GateResult × Cpu :=
  let inLdt := sel &&& 4#16 ≠ 0#16
  let gp := w.gate sel
  let noted := { s with scpErr := (sel &&& 0xfffc#16).setWidth 32 }
  if !s.protMode ∨ sel < 4#16 then (.notGate, s)
  else if (if inLdt then w.ldt else w.gdt) = false then (.notGate, s)
  else if (if inLdt then w.ldtLimit else w.gdtLimit) < (sel &&& 0xfff8#16).setWidth 32 then
    (.notGate, s)
  else if gp.s ∨ gp.type &&& 7#4 ≠ 4#4 then (.notGate, s)
  else if !gp.present then (.fault excpNoSeg, noted)
  else if gp.dpl < s.cpl ∨ gp.dpl < (sel &&& 3#16).toNat then (.fault excpGpf, noted)
  else
    let tsel := gp.seg
    let blamed := { s with scpErr := (tsel &&& 0xfffc#16).setWidth 32 }
    let d := w.descriptor tsel
    if tsel < 4#16 then (.fault excpGpf, { s with scpErr := 0#32 })
    else if !w.user tsel ∨ !d.code then (.fault excpGpf, blamed)
    -- DF_CONFORMING is the bit of DF_EXPANDDOWN
    else if !d.expandDown ∧ w.dpl tsel ≠ s.cpl then (.fault excpGpf, blamed)
    else
      let sel := tsel ||| BitVec.ofNat 16 s.cpl
      if gp.type &&& 8#4 ≠ 0#4 then
        (.through sel ((gp.offsHi ++ gp.offsLo).setWidth 32) false, noted)
      else (.through sel (gp.offsLo.setWidth 32) true, noted)

/-! ## The stack -/

/-- `PUSHw`, and `PUSHl`, and `PUSHwl`: the stack pointer goes down by `step`,
and `n` bytes of the value are stored. -/
def push (s : Cpu) (n : Nat) (step : Word) (v : Word) (r : Word × Mem) : Word × Mem :=
  let sp := (r.1 - step) &&& s.stackMask
  (sp, writeLe n r.2 (s.ssBoundL + sp) v)

/-- What CALL pushes: CS and EIP, words or double words, of which that of CS is
written in half. -/
def pushFrame (s : Cpu) (data16 : Bool) (oldeip : Word) (mem : Mem) : Word × Mem :=
  let oldcs := s.cs.setWidth 32
  if data16 then push s 2 2#32 oldeip (push s 2 2#32 oldcs (s.esp, mem))
  else push s 4 4#32 oldeip (push s 2 4#32 oldcs (s.esp, mem))

/-- The size of a far return frame. -/
def farSize (data16 : Bool) : Word :=
  if data16 then 4#32 else 8#32

/-- `SetSegProt_set` for CS. -/
def setSegProtSet (w : World) (s : Cpu) (sel : BitVec 16) : Cpu :=
  let d := w.descriptor sel
  let mode := s.mode &&& ~~~(modeAddr16 ||| modeData16 ||| modeBigCs)
  { s with
    cs := sel
    csBoundL := d.base
    csBoundH := d.base + d.limit
    mode := mode ||| (if d.big then modeBigCs else modeAddr16 ||| modeData16) }

/-- `SetSegProt` is `SetSegProt_check` and, where that says so, `SetSegProt_set`. -/
theorem setSegProt_eq (w : World) (s : Cpu) (sel : BitVec 16) :
    setSegProt w s sel = match setSegProtCheck w s sel with
      | .error e => { s with err := e, scpErr := (sel &&& 0xfffc#16).setWidth 32 }
      | .ok false => s
      | .ok true => setSegProtSet w s sel :=
  rfl

/-! ## The instructions -/

/-- `CALLl` behind its gate. -/
def callTo (w : FarWorld) (s : Cpu) (data16 : Bool) (oldeip : Word) (newcs : BitVec 16) :
    Cpu × Mem :=
  match setSegProtCheck w.toWorld s newcs with
  | .error e => ({ s with err := e, scpErr := (newcs &&& 0xfffc#16).setWidth 32 }, w.mem)
  | .ok load =>
      if !checkStackLimit w.toWorld s (s.esp - farSize data16) (farSize data16) then
        ({ s with err := excpStack }, w.mem)
      else
        let (sp, mem) := pushFrame s data16 oldeip w.mem
        let s := { s with esp := sp ||| (s.esp &&& ~~~s.stackMask) }
        (if load then setSegProtSet w.toWorld s newcs else s, mem)

/-- `Sim_helper`, CALLl: `oldeip` is the return address, `newcs` the selector in
the data register. -/
def simCalll (w : FarWorld) (data16 : Bool) (oldeip : Word) (newcs : BitVec 16) (s : Cpu) :
    Cpu × Mem :=
  match callGate w s newcs with
  | (.fault e, s) => ({ s with err := e }, w.mem)
  | (.notGate, s) => callTo w s data16 oldeip newcs
  | (.through sel _ data16, s) => callTo w s data16 oldeip sel

/-- What RETF takes from the stack: the stack pointer after it, EIP and CS. -/
def retFrame (w : World) (s : Cpu) (data16 : Bool) : Word × Word × BitVec 16 :=
  let sp := s.esp &&& s.stackMask
  let step := if data16 then 2#32 else 4#32
  let sp₁ := (sp + step) &&& s.stackMask
  let sp₂ := (sp₁ + step) &&& s.stackMask
  let eip := if data16 then simReadWord w.mem (s.ssBoundL + sp)
    else simReadDword w.mem (s.ssBoundL + sp)
  (sp₂, eip, (simReadWord w.mem (s.ssBoundL + sp₁)).setWidth 16)

/-- `Sim_helper`, RETl, and RETlisp with the bytes to release.  In real address
mode other operations have popped the frame. -/
def simRetl (w : World) (data16 : Bool) (release : Option (BitVec 16)) (s : Cpu) : Cpu :=
  if s.realAddr then s
  else if !checkStackLimit w s (s.esp &&& s.stackMask) (farSize data16) then
    { s with err := excpStack }
  else
    let (sp, eip, cs) := retFrame w s data16
    let sp := match release with
      | none => sp
      | some arg => (sp + arg.signExtend 32) &&& s.stackMask
    let s := setSegProt w s cs
    if s.err ≠ 0 then s
    else { s with esp := sp ||| (s.esp &&& ~~~s.stackMask), dr1 := eip }

/-- The far transfers that `Sim_helper` takes. -/
inductive FarInsn
  | call (data16 : Bool) (oldeip : Word) (newcs : BitVec 16)
  | retl (data16 : Bool) (release : Option (BitVec 16))
  | iret (data16 : Bool)

/-- `Sim_helper` for a far transfer, with memory and the flags it hands back. -/
def farHelper (w : FarWorld) (flags : Word) (s : Cpu) : FarInsn → Option ((Cpu × Mem) × Word)
  | .call data16 oldeip newcs => some (simCalll w data16 oldeip newcs s, flags)
  | .retl data16 release => some ((simRetl w.toWorld data16 release s, w.mem), flags)
  | .iret data16 => (simIret w.toWorld data16 flags s).map fun r => ((r.1, w.mem), r.2)

/-- `O_SIM` with a far transfer. -/
def oSimFar (w : FarWorld) (s : Cpu) (i : FarInsn) : Option (Cpu × Mem) :=
  (farHelper w (flagSyncAll s.rfl) (helperEntry s) i).map fun r =>
    ({ r.1.1 with rfl := flagSyncRfl r.2 }, r.1.2)

/-- One far transfer.  An IRET that is not permitted faults before it is
simulated. -/
def farStep (w : FarWorld) (s : Cpu) : FarInsn → Option (Cpu × Mem)
  | .iret data16 =>
      if popNotPermitted s then some ({ s with err := excpGpf }, w.mem)
      else oSimFar w s (.iret data16)
  | i => oSimFar w s i

/-! ## The stack limit -/

section StackLimit

variable {w : World} {s : Cpu} {sp size x step : Word}

/-- The sizes of a stack. -/
def StackSize (s : Cpu) : Prop :=
  s.stackMask = 0xffff#32 ∨ s.stackMask = 0xffffffff#32

end StackLimit

/-! ## Loading CS -/

section LoadCs

variable {w : World} {s : Cpu} {sel : BitVec 16}

/-- The descriptor lets the selector be loaded into CS. -/
def Loadable (w : World) (sel : BitVec 16) : Prop :=
  let d := w.descriptor sel
  4#16 ≤ sel ∧ sel &&& 4#16 ≠ 0#16 ∧ d.valid = true ∧ d.present = true ∧ d.code = true

/-- The three outcomes of `SetSegProt_check`. -/
theorem setSegProtCheck_cases (w : World) (s : Cpu) (sel : BitVec 16) :
    (∃ e, e ≠ 0 ∧ setSegProtCheck w s sel = .error e ∧ ¬Loadable w sel) ∨
      (setSegProtCheck w s sel = .ok false ∧ s.cs = sel) ∨
      (setSegProtCheck w s sel = .ok true ∧ Loadable w sel) := by
  unfold setSegProtCheck
  simp only
  split
  · next h => exact Or.inr (Or.inl ⟨rfl, h.1⟩)
  · split
    · next hnull =>
        exact Or.inl ⟨_, by decide, rfl, fun hload => absurd hnull (BitVec.not_lt.mpr hload.1)⟩
    · split
      · next hgdt => exact Or.inl ⟨_, by decide, rfl, fun hload => hload.2.1 hgdt⟩
      · split
        · next hinvalid =>
            refine Or.inl ⟨_, by decide, rfl, fun hload => ?_⟩
            rw [hload.2.2.1] at hinvalid
            exact absurd hinvalid (by decide)
        · split
          · next habsent =>
              refine Or.inl ⟨_, by decide, rfl, fun hload => ?_⟩
              rw [hload.2.2.2.1] at habsent
              exact absurd habsent (by decide)
          · split
            · next hdata =>
                refine Or.inl ⟨_, by decide, rfl, fun hload => ?_⟩
                rw [hload.2.2.2.2] at hdata
                exact absurd hdata (by decide)
            · next hnull hgdt hinvalid habsent hdata =>
                exact Or.inr (Or.inr ⟨rfl, BitVec.not_lt.mp hnull, hgdt, by simpa using hinvalid,
                  by simpa using habsent, by simpa using hdata⟩)

/-- What a load of CS leaves: the stack, the flags and the address mode. -/
structure KeepsStack (s t : Cpu) : Prop where
  esp : t.esp = s.esp
  ss : t.ss = s.ss
  ssBoundL : t.ssBoundL = s.ssBoundL
  ssBoundH : t.ssBoundH = s.ssBoundH
  stackMask : t.stackMask = s.stackMask
  eflags : t.eflags = s.eflags
  realAddr : t.realAddr = s.realAddr

theorem and_modeRealA (m b : Word) (hb : b &&& modeRealA = 0#32) :
    ((m &&& ~~~(modeAddr16 ||| modeData16 ||| modeBigCs)) ||| b) &&& modeRealA =
      m &&& modeRealA := by
  have hrest : ~~~(modeAddr16 ||| modeData16 ||| modeBigCs) &&& modeRealA = modeRealA := by decide
  rw [BitVec.and_or_distrib_right, hb, BitVec.or_zero, BitVec.and_assoc, hrest]

theorem setSegProtSet_keepsStack (w : World) (s : Cpu) (sel : BitVec 16) :
    KeepsStack s (setSegProtSet w s sel) where
  esp := rfl
  ss := rfl
  ssBoundL := rfl
  ssBoundH := rfl
  stackMask := rfl
  eflags := rfl
  realAddr := by
    unfold Cpu.realAddr setSegProtSet
    rw [and_modeRealA]
    split <;> decide

/-- `SetSegProt` raises an exception, finds CS loaded, or loads it. -/
theorem setSegProt_cases (w : World) (s : Cpu) (sel : BitVec 16) :
    (∃ e x, e ≠ 0 ∧ setSegProt w s sel = { s with err := e, scpErr := x } ∧ ¬Loadable w sel) ∨
      (s.cs = sel ∧ setSegProt w s sel = s) ∨
      (Loadable w sel ∧ setSegProt w s sel = setSegProtSet w s sel) := by
  rw [setSegProt_eq]
  rcases setSegProtCheck_cases w s sel with ⟨e, he, hcheck, hload⟩ | ⟨hcheck, hcs⟩ | ⟨hcheck, hload⟩
  · exact Or.inl ⟨e, _, he, by rw [hcheck], hload⟩
  · exact Or.inr (Or.inl ⟨hcs, by rw [hcheck]⟩)
  · exact Or.inr (Or.inr ⟨hload, by rw [hcheck]⟩)

/-- A load without an exception. -/
theorem setSegProt_loaded (herr : (setSegProt w s sel).err = 0) :
    KeepsStack s (setSegProt w s sel) ∧ (setSegProt w s sel).cs = sel ∧
      (s.cs = sel ∨ Loadable w sel) := by
  rcases setSegProt_cases w s sel with ⟨e, x, he, heq, -⟩ | ⟨hcs, heq⟩ | ⟨hload, heq⟩
  · rw [heq] at herr
    exact absurd herr he
  · rw [heq]
    exact ⟨⟨rfl, rfl, rfl, rfl, rfl, rfl, rfl⟩, hcs, Or.inl hcs⟩
  · rw [heq]
    exact ⟨setSegProtSet_keepsStack w s sel, rfl, Or.inr hload⟩

end LoadCs

/-! ## A far transfer that faults -/

section Faults

variable {w : FarWorld} {s t : Cpu}

/-- CS, ESP and the flags of before. -/
structure Kept (s t : Cpu) : Prop where
  esp : t.esp = s.esp
  cs : t.cs = s.cs
  csBoundL : t.csBoundL = s.csBoundL
  csBoundH : t.csBoundH = s.csBoundH
  eflags : t.eflags = s.eflags

/-- A result of `call_gate` leaves everything but `scp_err`, and its exceptions are
exceptions. -/
def NotesOnly (s : Cpu) (r : GateResult × Cpu) : Prop :=
  (∃ x, r.2 = { s with scpErr := x }) ∧ ∀ e, r.1 = .fault e → e ≠ 0

theorem NotesOnly.fault (x : Word) {e : Nat} (he : e ≠ 0) :
    NotesOnly s (.fault e, { s with scpErr := x }) :=
  ⟨⟨x, rfl⟩, fun _ heq => GateResult.fault.inj heq ▸ he⟩

theorem NotesOnly.other (x : Word) {r : GateResult} (hr : ∀ e, r ≠ .fault e) :
    NotesOnly s (r, { s with scpErr := x }) :=
  ⟨⟨x, rfl⟩, fun e heq => absurd heq (hr e)⟩

theorem NotesOnly.ite (c : Prop) [Decidable c] {r r' : GateResult × Cpu} (hr : NotesOnly s r)
    (hr' : NotesOnly s r') : NotesOnly s (if c then r else r') := by
  split
  · exact hr
  · exact hr'

theorem callGate_state (w : FarWorld) (s : Cpu) (sel : BitVec 16) :
    NotesOnly s (callGate w s sel) := by
  unfold callGate
  repeat' apply NotesOnly.ite
  all_goals first
    | exact NotesOnly.fault _ (by decide)
    | exact NotesOnly.other _ (fun e heq => GateResult.noConfusion heq)

/-- CALL faults before it has done anything, or it pushes its frame and loads CS. -/
theorem callTo_cases (w : FarWorld) (s : Cpu) (data16 : Bool) (oldeip : Word)
    (newcs : BitVec 16) :
    let r := pushFrame s data16 oldeip w.mem
    let pushed := { s with esp := r.1 ||| (s.esp &&& ~~~s.stackMask) }
    (∃ e x, e ≠ 0 ∧ callTo w s data16 oldeip newcs =
      ({ s with err := e, scpErr := x }, w.mem)) ∨
      (checkStackLimit w.toWorld s (s.esp - farSize data16) (farSize data16) = true ∧
        (setSegProt w.toWorld pushed newcs).err = s.err ∧
        callTo w s data16 oldeip newcs = (setSegProt w.toWorld pushed newcs, r.2)) := by
  intro r pushed
  have hcheck : setSegProtCheck w.toWorld pushed newcs = setSegProtCheck w.toWorld s newcs := rfl
  rw [setSegProt_eq, hcheck, callTo]
  by_cases hstack : checkStackLimit w.toWorld s (s.esp - farSize data16) (farSize data16) = true
  · rcases setSegProtCheck_cases w.toWorld s newcs with ⟨e, he, hcs, -⟩ | ⟨hcs, -⟩ | ⟨hcs, -⟩
    · rw [hcs]
      exact Or.inl ⟨e, _, he, rfl⟩
    · rw [hcs]
      simp only [hstack, Bool.not_true, Bool.false_eq_true, if_false]
      exact Or.inr ⟨trivial, rfl, rfl⟩
    · rw [hcs]
      simp only [hstack, Bool.not_true, Bool.false_eq_true, if_false, if_true]
      exact Or.inr ⟨trivial, rfl, rfl⟩
  · left
    rcases setSegProtCheck_cases w.toWorld s newcs with ⟨e, he, hcs, -⟩ | ⟨hcs, -⟩ | ⟨hcs, -⟩
    · rw [hcs]
      exact ⟨e, _, he, rfl⟩
    all_goals
      rw [hcs]
      simp only [hstack, Bool.not_false, if_true]
      exact ⟨excpStack, s.scpErr, by decide, rfl⟩

/-- The same for CALL with its gate: the state that it goes on from differs in
`scp_err` only. -/
theorem simCalll_cases (w : FarWorld) (s : Cpu) (data16 : Bool) (oldeip : Word)
    (newcs : BitVec 16) :
    (∃ e x, e ≠ 0 ∧ simCalll w data16 oldeip newcs s =
      ({ s with err := e, scpErr := x }, w.mem)) ∨
      ∃ x d sel, simCalll w data16 oldeip newcs s =
          callTo w { s with scpErr := x } d oldeip sel ∧
        ((callGate w s newcs).1 = .notGate → d = data16 ∧ sel = newcs) := by
  obtain ⟨⟨x, hx⟩, hfault⟩ := callGate_state w s newcs
  rw [simCalll]
  generalize hgate : callGate w s newcs = r at hx hfault
  obtain ⟨result, s'⟩ := r
  simp only at hx hfault
  subst hx
  cases result with
  | notGate => exact Or.inr ⟨x, data16, newcs, rfl, fun _ => ⟨rfl, rfl⟩⟩
  | fault e => exact Or.inl ⟨e, x, hfault e rfl, rfl⟩
  | through sel eip d => exact Or.inr ⟨x, d, sel, rfl, fun h => GateResult.noConfusion h⟩

/-- The helper has faulted: the state but for the exception, memory and the
flags are those of before. -/
structure Faulted (w : FarWorld) (flags : Word) (s t : Cpu) (mem : Mem) (f : Word) : Prop where
  err : t.err ≠ 0
  kept : Kept s t
  mem : mem = w.mem
  flags : f = flags

/-- The helper has gone through. -/
structure Transferred (w : FarWorld) (s t : Cpu) : Prop where
  err : t.err = 0
  stackMask : t.stackMask = s.stackMask
  realAddr : t.realAddr = s.realAddr
  cs : s.realAddr = true ∨ t.cs = s.cs ∨ Loadable w.toWorld t.cs

theorem Faulted.raised (w : FarWorld) (flags : Word) (s : Cpu) {e : Nat} (he : e ≠ 0) (x : Word) :
    Faulted w flags s { s with err := e, scpErr := x } w.mem flags :=
  ⟨he, ⟨rfl, rfl, rfl, rfl, rfl⟩, rfl, rfl⟩

theorem KeepsStack.transferred (h : KeepsStack s t) (herr : t.err = 0)
    (hcs : s.cs = t.cs ∨ Loadable w.toWorld t.cs) : Transferred w s t :=
  ⟨herr, h.stackMask, h.realAddr, Or.inr (hcs.imp_left Eq.symm)⟩

/-- A load of CS from a state that differs from the one before in ESP and in
`scp_err`. -/
theorem setSegProt_spec (w : FarWorld) (s : Cpu) (sel : BitVec 16) (hnone : s.err = 0) :
    (∃ e x, e ≠ 0 ∧ setSegProt w.toWorld s sel = { s with err := e, scpErr := x }) ∨
      (KeepsStack s (setSegProt w.toWorld s sel) ∧ Transferred w s (setSegProt w.toWorld s sel) ∧
        (setSegProt w.toWorld s sel).cs = sel) := by
  by_cases herr : (setSegProt w.toWorld s sel).err = 0
  · obtain ⟨hstack, hsel, hcs⟩ := setSegProt_loaded herr
    refine Or.inr ⟨hstack, hstack.transferred herr ?_, hsel⟩
    rw [hsel]
    exact hcs
  · rcases setSegProt_cases w.toWorld s sel with ⟨e, x, he, heq, -⟩ | ⟨-, heq⟩ | ⟨-, heq⟩
    · exact Or.inl ⟨e, x, he, heq⟩
    · exact absurd (by rw [heq]; exact hnone) herr
    · exact absurd (by rw [heq]; exact hnone) herr

/-- CALL either faults or goes through. -/
theorem simCalll_spec (w : FarWorld) (data16 : Bool) (flags oldeip : Word) (newcs : BitVec 16)
    (hnone : s.err = 0) :
    let r := simCalll w data16 oldeip newcs s
    Faulted w flags s r.1 r.2 flags ∨ Transferred w s r.1 := by
  rcases simCalll_cases w s data16 oldeip newcs with ⟨e, x, he, heq⟩ | ⟨x, d, sel, heq, -⟩
  · rw [heq]
    exact Or.inl (Faulted.raised w flags s he x)
  · rw [heq]
    rcases callTo_cases w { s with scpErr := x } d oldeip sel with
      ⟨e, y, he, heq⟩ | ⟨-, herr, heq⟩
    · rw [heq]
      exact Or.inl (Faulted.raised w flags s he y)
    · rw [heq]
      obtain ⟨hstack, hsel, hcs⟩ := setSegProt_loaded (herr.trans hnone)
      refine Or.inr ⟨herr.trans hnone, hstack.stackMask, hstack.realAddr, Or.inr ?_⟩
      rw [hsel]
      exact hcs.imp_left Eq.symm

/-- RETF too. -/
theorem simRetl_spec (w : FarWorld) (data16 : Bool) (flags : Word) (release : Option (BitVec 16))
    (hnone : s.err = 0) :
    let t := simRetl w.toWorld data16 release s
    Faulted w flags s t w.mem flags ∨ Transferred w s t := by
  intro t
  by_cases hreal : s.realAddr = true
  · have ht : t = s := by simp only [t, simRetl, hreal, if_true]
    rw [ht]
    exact Or.inr ⟨hnone, rfl, rfl, Or.inl hreal⟩
  by_cases hstack :
      checkStackLimit w.toWorld s (s.esp &&& s.stackMask) (farSize data16) = true
  · have hload := setSegProt_spec w s (retFrame w.toWorld s data16).2.2 hnone
    rcases hload with ⟨e, x, he, heq⟩ | ⟨-, hload, -⟩
    · have ht : t = { s with err := e, scpErr := x } := by
        simp only [t, simRetl, hreal, hstack, heq, he, Bool.not_true, Bool.false_eq_true, if_false,
          ne_eq, not_false_eq_true, if_true]
      rw [ht]
      exact Or.inl (Faulted.raised w flags s he x)
    · right
      have hok : ¬(setSegProt w.toWorld s (retFrame w.toWorld s data16).2.2).err ≠ 0 :=
        not_not_intro hload.err
      simp only [t, simRetl, hreal, hstack, hok, Bool.not_true, Bool.false_eq_true, if_false]
      exact ⟨hload.err, hload.stackMask, hload.realAddr, hload.cs⟩
  · have ht : t = { s with err := excpStack } := by
      simp only [t, simRetl, hreal, hstack, Bool.not_false, Bool.false_eq_true, if_false, if_true]
    rw [ht]
    exact Or.inl (Faulted.raised w flags s (by decide) s.scpErr)

/-- What the flags of IRET leave. -/
structure SameCode (s t : Cpu) : Prop where
  err : t.err = s.err
  cs : t.cs = s.cs
  mode : t.mode = s.mode
  stackMask : t.stackMask = s.stackMask

theorem stackReturnFromVm86_sameCode (w : World) (s : Cpu) (data16 : Bool) (temp : Word) :
    SameCode s (stackReturnFromVm86 w s data16 temp) := by
  unfold stackReturnFromVm86
  simp only
  repeat' split
  all_goals exact ⟨rfl, rfl, rfl, rfl⟩

theorem iretFlags_sameCode (w : World) (s : Cpu) (data16 : Bool) (temp : Word)
    (hperm : popNotPermitted s = false) :
    ∃ t, iretFlags w s data16 temp = some t ∧ SameCode s t := by
  have hassert : (!popNotPermitted s) = true := by rw [hperm]; rfl
  have htrap : SameCode s (noteTrap s temp) := by
    unfold noteTrap
    split
    · exact ⟨rfl, rfl, rfl, rfl⟩
    · exact ⟨rfl, rfl, rfl, rfl⟩
  simp only [iretFlags, Option.bind_eq_bind, cAssert_bind hassert]
  split
  · exact ⟨_, rfl, htrap.err, htrap.cs, htrap.mode, htrap.stackMask⟩
  · split
    · have hvm := stackReturnFromVm86_sameCode w (noteTrap s temp) data16
        (if data16 = true then temp else (temp &&& (eflagsAll &&& ~~~(eflagsVM ||| eflagsVIF ||| eflagsVIP))) |||
          ((noteTrap s temp).eflags &&& (eflagsVM ||| eflagsVIF ||| eflagsVIP)))
      exact ⟨_, rfl, hvm.err.trans htrap.err, hvm.cs.trans htrap.cs, hvm.mode.trans htrap.mode,
        hvm.stackMask.trans htrap.stackMask⟩
    · refine ⟨_, rfl, ?_⟩
      unfold popFlags
      split
      · exact ⟨htrap.err, htrap.cs, htrap.mode, htrap.stackMask⟩
      · exact ⟨htrap.err, htrap.cs, htrap.mode, htrap.stackMask⟩

/-- The part of IRET that loads CS. -/
theorem iretLoadCs_cases (w : FarWorld) (data16 : Bool) (flags : Word) (hnone : s.err = 0) :
    (∃ t, iretLoadCs w.toWorld s data16 = .error t ∧ Faulted w flags s t w.mem flags) ∨
      ∃ t, iretLoadCs w.toWorld s data16 = .ok t ∧ Transferred w s t ∧ SameFlags s t := by
  by_cases hstack : checkStackLimit w.toWorld s (s.esp &&& s.stackMask)
      (if data16 then 6#32 else 12#32) = true
  · by_cases hreal : s.realAddr = true
    · right
      simp only [iretLoadCs, hstack, hreal, Bool.not_true, Bool.false_eq_true, if_false, if_true]
      exact ⟨_, rfl, ⟨hnone, rfl, rfl, Or.inl hreal⟩, ⟨rfl, rfl, rfl, rfl⟩⟩
    · have hsame := setSegProt_sameFlags w.toWorld s (iretFrame w.toWorld s data16).2.2.1
      rcases setSegProt_spec w s (iretFrame w.toWorld s data16).2.2.1 hnone with
        ⟨e, x, he, heq⟩ | ⟨-, hload, -⟩
      · left
        have hbad : (setSegProt w.toWorld s (iretFrame w.toWorld s data16).2.2.1).err ≠ 0 := by
          rw [heq]
          exact he
        simp only [iretLoadCs, hstack, hreal, hbad, Bool.not_true, Bool.false_eq_true, if_false,
          ne_eq, not_false_eq_true, if_true]
        refine ⟨_, rfl, ?_⟩
        rw [heq]
        exact Faulted.raised w flags s he x
      · right
        have hok : ¬(setSegProt w.toWorld s (iretFrame w.toWorld s data16).2.2.1).err ≠ 0 :=
          not_not_intro hload.err
        simp only [iretLoadCs, hstack, hreal, hok, Bool.not_true, Bool.false_eq_true, if_false]
        exact ⟨_, rfl, ⟨hload.err, hload.stackMask, hload.realAddr, hload.cs⟩,
          ⟨hsame.eflags, hsame.inc, hsame.cr0, hsame.cr4⟩⟩
  · left
    simp only [iretLoadCs, hstack, Bool.not_false, if_true]
    exact ⟨_, rfl, Faulted.raised w flags s (by decide) s.scpErr⟩

/-- IRET, where it is permitted. -/
theorem simIret_spec (w : FarWorld) (data16 : Bool) (flags : Word) (hnone : s.err = 0)
    (hperm : popNotPermitted s = false) :
    ∃ t f, simIret w.toWorld data16 flags s = some (t, f) ∧
      (Faulted w flags s t w.mem f ∨ Transferred w s t) := by
  rcases iretLoadCs_cases w data16 flags hnone with ⟨t, heq, hfault⟩ | ⟨t, heq, hload, hsame⟩
  · exact ⟨t, flags, by rw [simIret, heq], Or.inl hfault⟩
  · obtain ⟨u, hret, hcode⟩ := iretFlags_sameCode w.toWorld t data16
      (iretFrame w.toWorld s data16).2.2.2 (hsame.popNotPermitted.trans hperm)
    refine ⟨u, mergeFlags u flags, ?_, Or.inr ⟨hcode.err.trans hload.err,
      hcode.stackMask.trans hload.stackMask, ?_, ?_⟩⟩
    · rw [simIret, heq]
      simp only [hret, Option.bind_eq_bind, Option.bind_some]
      rfl
    · rw [Cpu.realAddr, hcode.mode]
      exact hload.realAddr
    · rw [hcode.cs]
      exact hload.cs

end Faults

/-! ## One instruction -/

section Step

variable {w : FarWorld} {s t : Cpu} {i : FarInsn}

/-- EFLAGS, as the block leaves it. -/
def archFlags (s : Cpu) : Word :=
  (s.eflags &&& ~~~eflagsCC) ||| flagSyncAll s.rfl

/-- The instruction can be taken again: ESP, CS and the flags are those of before. -/
structure Restarts (s t : Cpu) : Prop where
  esp : t.esp = s.esp
  cs : t.cs = s.cs
  csBoundL : t.csBoundL = s.csBoundL
  csBoundH : t.csBoundH = s.csBoundH
  flags : archFlags t = archFlags s

/-- The machine in which a far transfer starts: a stack of one of the two sizes, no
exception, and outside of real address mode a CS whose descriptor is there. -/
structure FarOk (w : FarWorld) (s : Cpu) : Prop where
  stackSize : StackSize s
  err : s.err = 0
  cs : s.realAddr = true ∨ Loadable w.toWorld s.cs

/-- The helper hands the flags back in the two words. -/
theorem Kept.restarts (h : Kept (helperEntry s) t) :
    Restarts s { t with rfl := flagSyncRfl (flagSyncAll s.rfl) } where
  esp := h.esp
  cs := h.cs
  csBoundL := h.csBoundL
  csBoundH := h.csBoundH
  flags := by
    have hmask : ∀ a c m : Word, ((a &&& ~~~m) ||| (c &&& m)) &&& ~~~m = a &&& ~~~m := by
      intro a c m
      have hzero : m &&& ~~~m = 0#32 := BitVec.and_not_self m
      rw [BitVec.and_or_distrib_right, BitVec.and_assoc, BitVec.and_assoc, BitVec.and_self, hzero,
        BitVec.and_zero, BitVec.or_zero]
    unfold archFlags
    simp only [h.eflags, flagSyncAll_flagSyncRfl]
    rw [helperEntry, hmask]

/-- One call of the helper. -/
theorem oSimFar_spec (i : FarInsn) (hnone : s.err = 0)
    (hperm : ∀ data16, i = .iret data16 → popNotPermitted s = false) :
    ∃ t mem, oSimFar w s i = some (t, mem) ∧
      (t.err ≠ 0 ∧ Restarts s t ∧ mem = w.mem ∨ Transferred w s t) := by
  have hentry : (helperEntry s).err = 0 := hnone
  have hhelper : ∃ t mem f, farHelper w (flagSyncAll s.rfl) (helperEntry s) i = some ((t, mem), f) ∧
      (Faulted w (flagSyncAll s.rfl) (helperEntry s) t mem f ∨
        Transferred w (helperEntry s) t) := by
    cases i with
    | call data16 oldeip newcs =>
        exact ⟨_, _, _, rfl, simCalll_spec w data16 _ oldeip newcs hentry⟩
    | retl data16 release => exact ⟨_, _, _, rfl, simRetl_spec w data16 _ release hentry⟩
    | iret data16 =>
        obtain ⟨t, f, heq, hspec⟩ := simIret_spec w data16 (flagSyncAll s.rfl) hentry
          ((helperEntry_popNotPermitted s).trans (hperm data16 rfl))
        exact ⟨t, w.mem, f, by rw [farHelper, heq]; rfl, hspec⟩
  obtain ⟨t, mem, f, heq, hspec⟩ := hhelper
  refine ⟨{ t with rfl := flagSyncRfl f }, mem, by rw [oSimFar, heq]; rfl, ?_⟩
  rcases hspec with hfault | hload
  · left
    rw [hfault.flags]
    exact ⟨hfault.err, hfault.kept.restarts, hfault.mem⟩
  · exact Or.inr ⟨hload.err, hload.stackMask, hload.realAddr, hload.cs⟩

/-- A far transfer that faults can be taken again; one that does not goes
through. -/
theorem farStep_spec (i : FarInsn) (hnone : s.err = 0) :
    ∃ t mem, farStep w s i = some (t, mem) ∧
      (t.err ≠ 0 ∧ Restarts s t ∧ mem = w.mem ∨ Transferred w s t) := by
  cases i with
  | call data16 oldeip newcs => exact oSimFar_spec _ hnone fun _ h => FarInsn.noConfusion h
  | retl data16 release => exact oSimFar_spec _ hnone fun _ h => FarInsn.noConfusion h
  | iret data16 =>
      rw [farStep]
      by_cases hperm : popNotPermitted s = true
      · rw [if_pos hperm]
        exact ⟨_, _, rfl, Or.inl ⟨(by decide : excpGpf ≠ 0), ⟨rfl, rfl, rfl, rfl, rfl⟩, rfl⟩⟩
      · rw [if_neg hperm]
        exact oSimFar_spec _ hnone fun _ _ => Bool.not_eq_true _ ▸ hperm

/-- The machine is one for far transfers again behind one that has gone through. -/
theorem FarOk.step (h : FarOk w s) {mem : Mem} (hstep : farStep w s i = some (t, mem))
    (herr : t.err = 0) : FarOk (w.setMem mem) t := by
  obtain ⟨u, mem', heq, ⟨hbad, -⟩ | hload⟩ := farStep_spec i h.err
  · rw [hstep, Option.some.injEq, Prod.mk.injEq] at heq
    exact absurd (heq.1 ▸ herr) hbad
  · rw [hstep, Option.some.injEq, Prod.mk.injEq] at heq
    obtain ⟨rfl, rfl⟩ := heq
    refine ⟨?_, herr, ?_⟩
    · unfold StackSize
      rw [hload.stackMask]
      exact h.stackSize
    · rw [hload.realAddr]
      rcases hload.cs with hreal | hcs | hcs
      · exact Or.inl hreal
      · rw [hcs]
        exact h.cs
      · exact Or.inr hcs

end Step

/-! ## A call and its return -/

section CallReturn

variable {w : FarWorld} {s t : Cpu} {data16 : Bool} {oldeip a b : Word}

end CallReturn

/-! ## Far transfers -/

end Simx86
end Dosemu
