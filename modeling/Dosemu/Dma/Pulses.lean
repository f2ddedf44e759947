import Dosemu.Dma.Service

/-!
# Units transferred by pulses

A device that uses a channel in single or demand mode pulses DRQ once for each
unit.  The module follows the channel through any number of pulses: the address
and the counter of each unit, terminal count after the last one, and the reload
with autoinit.  A channel that has reached terminal count is masked until the
guest clears both; that is an invariant of all that a guest and the devices do.

Main results:

- Theorem `reachable_tcMasked`: a channel at terminal count is masked.
- Theorem `pulsesExact_reachable`: the unit of every pulse.
-/

namespace Dosemu
namespace Dma

open DoWhile Run

variable {k : Controller} {s t : Machine} {mapped : Addr → Bool} {c c' : Fin 2} {ch ch' : Fin 4}

/-! ## Terminal count masks the channel -/

/-- What a guest and the devices do with the controllers. -/
inductive Op
  | write (port : Nat) (v : Byte)
  | read (port : Nat)
  | pulse (ch : Fin 8) (buf : Nat → Byte)

/-- The machine after it. -/
def step (mapped : Addr → Bool) (s : Machine) : Op → Option Machine
  | .write port v => dmaIoWrite mapped port v s
  | .read port => (dmaIoRead mapped port s).map (·.2)
  | .pulse ch buf => (dmaPulseDrq mapped ch buf s).map (·.1)

/-- Reached from a reset of both controllers. -/
def Reachable (mapped : Addr → Bool) (s : Machine) : Prop :=
  ∃ s₀ : Machine, (∀ c, ∃ k : Controller, s₀.contr c = k.softReset) ∧
    ∃ ops, run (step mapped) s₀ ops = some s

/-- A channel at terminal count is masked. -/
def Controller.TcMasked (k : Controller) : Prop :=
  ∀ ch : Fin 4, k.status.getLsbD ch.val = true → k.mask.getLsbD ch.val = true

theorem tcMasked_softReset (k : Controller) : k.softReset.TcMasked := by
  intro ch htc
  simp [Controller.softReset] at htc

theorem tcMasked_of_status_le {k' : Controller} (h : k.TcMasked) (hmask : k'.mask = k.mask)
    (hstatus : ∀ j < 4, k'.status.getLsbD j = true → k.status.getLsbD j = true) :
    k'.TcMasked := by
  intro ch htc
  rw [hmask]
  exact h ch (hstatus ch.val ch.isLt htc)

theorem getLsbD_and_high (r : Byte) {j : Nat} (hj : j < 4) :
    (r &&& 0xf0#8).getLsbD j = false := by
  have hmask : ∀ j < 4, (0xf0#8).getLsbD j = false := by decide
  rw [BitVec.getLsbD_and, hmask j hj, Bool.and_false]

theorem tcMasked_of_clear {k' : Controller} (h : k'.status = k.status &&& 0xf0#8) :
    k'.TcMasked := by
  intro ch htc
  rw [h, getLsbD_and_high _ ch.isLt] at htc
  cases htc

theorem tcMasked_advance (h : k.TcMasked) (ch : Fin 4) : (k.advance ch).TcMasked := by
  by_cases hlast : (k.chans ch).curCount = 0#16
  · cases hauto : (k.chans ch).autoinit with
    | true =>
        rw [advance_reload hlast hauto]
        exact h
    | false =>
        rw [advance_tc hlast hauto]
        intro ch' htc
        have hlt := ch.isLt
        simp only [getLsbD_setBit _ (show ch.val < 8 by omega), Bool.or_eq_true,
          decide_eq_true_eq] at htc ⊢
        exact htc.imp_left (h ch')
  · rw [advance_of_ne hlast]
    exact h

theorem tcMasked_updateDrq (h : k.TcMasked) (ch : Fin 4) : (k.updateDrq ch).TcMasked := by
  have hlt := ch.isLt
  rw [updateDrq_eq]
  split
  · exact h
  · refine tcMasked_of_status_le h rfl fun j hj htc => ?_
    simp only [Controller.pollDrq, getLsbD_clearBit _ (show ch.val + 4 < 8 by omega),
      Bool.and_eq_true] at htc
    exact htc.1

theorem tcMasked_writeReg (h : k.TcMasked) (v : Byte) (r : Reg) : (k.writeReg v r).TcMasked := by
  have hlt := (chanOf v).isLt
  have hbit : (chanOf v).val < 8 := by omega
  cases r with
  | command => exact h
  | request =>
      change (if v.getLsbD 2 then _ else _ : Controller).TcMasked
      split <;> exact h
  | mask =>
      change (if v.getLsbD 2 then _ else _ : Controller).TcMasked
      split
      · intro ch htc
        simp only [getLsbD_setBit _ hbit, Bool.or_eq_true]
        exact .inl (h ch htc)
      · intro ch htc
        simp only [getLsbD_clearBit _ hbit, Bool.and_eq_true] at htc ⊢
        exact ⟨h ch htc.1, htc.2⟩
  | mode => exact h
  | clearFf => exact h
  | reset => exact tcMasked_softReset k
  | clrMask => exact tcMasked_of_clear rfl
  | maskAll => exact tcMasked_of_clear rfl

/-- Both controllers mask their channels at terminal count. -/
def TcMasked (s : Machine) : Prop :=
  ∀ c, (s.contr c).TcMasked

theorem TcMasked.modify (h : TcMasked s) {f : Controller → Controller}
    (hf : (s.contr c).TcMasked → (f (s.contr c)).TcMasked) : TcMasked (s.modify c f) := by
  intro c'
  by_cases hc : c' = c
  · subst hc
    rw [modify_contr]
    exact hf (h c')
  · rw [modify_contr_ne _ _ hc]
    exact h c'

theorem TcMasked.portWrite (h : TcMasked s) (port : Nat) (v : Byte) :
    TcMasked (portWrite port v s) := by
  unfold Dma.portWrite
  split
  · exact h.modify fun hk => hk
  · exact h.modify fun hk => hk
  · exact h.modify fun hk => hk
  · exact h.modify fun hk => tcMasked_writeReg hk _ _
  · exact h

theorem TcMasked.portRead (h : TcMasked s) (port : Nat) : TcMasked (portRead port s).2 := by
  unfold Dma.portRead
  split
  · exact h.modify fun hk => hk
  · exact h.modify fun hk => hk
  · exact h
  · exact TcMasked.modify h (f := fun k => { k with status := k.status &&& 0xf0#8 })
      fun _ => @tcMasked_of_clear (s.contr _) _ rfl
  · exact h
  · exact h

theorem TcMasked.run (h : TcMasked s) (hrun : dmaRunChannel mapped c ch s = some t) :
    TcMasked t := by
  refine @loop_of_eq_some _ _ _ TcMasked _ (fun u hu => ?_) _ _ _ h hrun
  cases hturn : runTurn mapped c ch u with
  | leave b =>
      rcases runTurn_leave hturn with rfl | rfl
      · exact hu
      · exact hu.modify fun hk => tcMasked_updateDrq hk ch
  | again v =>
      obtain ⟨_, _, hcontr, hrest⟩ := runTurn_again hturn
      intro c'
      by_cases hc : c' = c
      · subst hc
        rw [hcontr]
        exact tcMasked_updateDrq (tcMasked_advance (hu c') ch) ch
      · rw [hrest c' hc]
        exact hu c'

theorem TcMasked.process (h : TcMasked s) (hrun : dmaProcess mapped s = some t) : TcMasked t := by
  unfold dmaProcess at hrun
  generalize channels = l at hrun
  induction l generalizing s with
  | nil =>
      cases hrun
      exact h
  | cons p l ih =>
      rw [List.foldlM_cons] at hrun
      obtain ⟨u, hu, hrest⟩ := Option.bind_eq_some_iff.mp hrun
      exact ih (h.run hu) hrest

/-- Nothing that a guest or a device does unmasks a channel at terminal count. -/
theorem TcMasked.step (h : TcMasked s) (op : Op) (hstep : Dma.step mapped s op = some t) :
    TcMasked t := by
  cases op with
  | write port v => exact (h.portWrite port v).process hstep
  | read port =>
      simp only [Dma.step, dmaIoRead, Option.map_map, Option.map_eq_some_iff] at hstep
      obtain ⟨u, hu, rfl⟩ := hstep
      exact (h.portRead port).process hu
  | pulse ch buf =>
      simp only [Dma.step, dmaPulseDrq] at hstep
      split at hstep
      · cases hstep
        exact h
      · simp only [Option.map_map, Option.map_eq_some_iff] at hstep
        obtain ⟨u, hu, rfl⟩ := hstep
        refine TcMasked.run (fun c => ?_) hu
        have hlt := (ci ch).isLt
        refine h.modify (f := fun k => { k with status := setBit k.status ((ci ch).val + 4) })
          (fun hk => tcMasked_of_status_le hk rfl fun j hj htc => ?_) c
        have hne : j ≠ (ci ch).val + 4 := by omega
        simpa [getLsbD_setBit _ (show (ci ch).val + 4 < 8 by omega), hne] using htc

/-- A channel at terminal count is masked. -/
theorem reachable_tcMasked (h : Reachable mapped s) : TcMasked s := by
  obtain ⟨s₀, hreset, ops, hrun⟩ := h
  have hstart : TcMasked s₀ := by
    intro c
    obtain ⟨k, hk⟩ := hreset c
    rw [hk]
    exact tcMasked_softReset k
  exact run_invariant (fun _ _ => True) TcMasked (fun _ op _ hinv _ hstep => hinv.step op hstep)
    hstart (admits_true s₀ ops) hrun

/-! ## One pulse -/

/-- Single or demand mode. -/
def Channel.UnitMode (chan : Channel) : Prop :=
  chan.transferMode = .single ∨ chan.transferMode = .demand

/-- What a unit moves between a buffer and memory. -/
def Transferred (mapped : Addr → Bool) (c : Fin 2) (op : TransferOp) (pa : Addr)
    (mem mem' : Addr → Byte) (buf buf' : Nat → Byte) : Prop :=
  match op with
  | .verify | .invalid => mem' = mem ∧ buf' = buf
  | .write => buf' = buf ∧ mem' = if mapped pa then copyToMem (unitBytes c) buf pa mem else mem
  | .read => mem' = mem ∧
      buf' = copyTo (unitBytes c) (if mapped pa then memBytes mem pa else fun _ => 0xff#8) buf

theorem copyTo_copyTo (n : Nat) (b x y : Nat → Byte) :
    copyTo n (copyTo n b x) y = copyTo n b y := by
  funext j
  unfold copyTo
  split <;> rfl

theorem copyTo_self (n : Nat) (b : Nat → Byte) : copyTo n b b = b := by
  funext j
  unfold copyTo
  split <;> rfl

theorem unitBytes_le (c : Fin 2) : unitBytes c ≤ 2 := by
  revert c
  decide

theorem copyToMem_copyTo (n : Nat) (b x : Nat → Byte) (pa : Addr) (mem : Addr → Byte) :
    copyToMem n (copyTo n b x) pa mem = copyToMem n b pa mem := by
  funext a
  unfold copyToMem copyTo
  split <;> simp_all

/-- The transfer of a unit that was put on the bus. -/
theorem transfer_transferred (chan : Channel) (buf : Nat → Byte)
    (hbus : s.dataBus = copyTo (unitBytes c) buf t.dataBus) :
    Transferred mapped c chan.transferOp (unitAddr c chan.page chan.curAddr) s.mem
      (transfer mapped c chan s).mem buf
      (copyTo (unitBytes c) (transfer mapped c chan s).dataBus buf) := by
  have hback : copyTo (unitBytes c) s.dataBus buf = buf := by
    rw [hbus, copyTo_copyTo, copyTo_self]
  unfold transfer
  cases chan.transferOp with
  | verify => exact ⟨rfl, hback⟩
  | invalid => exact ⟨rfl, hback⟩
  | write =>
      simp only [Transferred]
      cases hmap : mapped (unitAddr c chan.page chan.curAddr) with
      | true =>
          simp only [if_true]
          refine ⟨hback, ?_⟩
          rw [hbus, copyToMem_copyTo]
      | false =>
          simp only [Bool.false_eq_true, if_false]
          exact ⟨hback, trivial⟩
  | read =>
      simp only [Transferred]
      cases hmap : mapped (unitAddr c chan.page chan.curAddr) with
      | true =>
          simp only [if_true]
          exact ⟨trivial, copyTo_copyTo _ _ _ _⟩
      | false =>
          simp only [Bool.false_eq_true, if_false]
          refine ⟨trivial, ?_⟩
          funext j
          have hle := unitBytes_le c
          unfold copyTo
          split
          · rw [if_pos (by omega)]
          · rfl

/-- In demand and single mode the request that a pulse makes is gone behind its
unit. -/
theorem serve_assert (hmode : (k.chans ch).UnitMode) (hdrq : k.haveDrq ch = false) :
    Controller.serve { k with status := setBit k.status (ch.val + 4) } ch = k.advance ch := by
  have hlt := ch.isLt
  have hbit : ch.val + 4 < 8 := by omega
  have hlow : ch.val < 8 := by omega
  have hne : ((k.advance ch).chans ch).transferMode ≠ .block := by
    rw [transferMode_congr (advance_fields k ch).1]
    rcases hmode with hmode | hmode <;> rw [hmode] <;> decide
  have hrestore : ∀ r : Byte, r.getLsbD (ch.val + 4) = false →
      clearBit (setBit r (ch.val + 4)) (ch.val + 4) = r := by
    intro r hr
    refine BitVec.eq_of_getLsbD_eq fun j _ => ?_
    rw [getLsbD_clearBit _ hbit, getLsbD_setBit _ hbit]
    by_cases hj : j = ch.val + 4
    · simp [hj, hr]
    · simp [hj]
  have hcomm : ∀ r : Byte, setBit (setBit r (ch.val + 4)) ch.val =
      setBit (setBit r ch.val) (ch.val + 4) := by
    intro r
    refine BitVec.eq_of_getLsbD_eq fun j _ => ?_
    simp only [getLsbD_setBit _ hbit, getLsbD_setBit _ hlow, Bool.or_assoc]
    rw [Bool.or_comm (decide (j = ch.val + 4))]
  have hadvance : Controller.advance { k with status := setBit k.status (ch.val + 4) } ch =
      { k.advance ch with status := setBit (k.advance ch).status (ch.val + 4) } := by
    by_cases hlast : (k.chans ch).curCount = 0#16
    · cases hauto : (k.chans ch).autoinit with
      | true =>
          rw [advance_reload hlast hauto, advance_reload (by exact hlast) (by exact hauto)]
          rfl
      | false =>
          rw [advance_tc hlast hauto, advance_tc (by exact hlast) (by exact hauto)]
          simp only [hcomm]
          rfl
    · rw [advance_of_ne hlast, advance_of_ne (by exact hlast)]
      rfl
  have hstill : (k.advance ch).status.getLsbD (ch.val + 4) = false := by
    have hdrq : k.status.getLsbD (ch.val + 4) = false := hdrq
    by_cases hlast : (k.chans ch).curCount = 0#16
    · cases hauto : (k.chans ch).autoinit with
      | true =>
          rw [advance_reload hlast hauto]
          exact hdrq
      | false =>
          rw [advance_tc hlast hauto]
          simp [getLsbD_setBit _ hlow, hdrq]
    · rw [advance_of_ne hlast]
      exact hdrq
  have hno : ¬((({ k.advance ch with
      status := setBit (k.advance ch).status (ch.val + 4) } : Controller).chans ch).transferMode =
        .block ∧ Controller.reachedTc { k.advance ch with
          status := setBit (k.advance ch).status (ch.val + 4) } ch = false) :=
    fun hboth => hne hboth.1
  rw [Controller.serve, hadvance, updateDrq_eq, if_neg hno, Controller.pollDrq]
  simp only [hrestore _ hstill]

/-- A controller that accepts a pulse has no request. -/
theorem haveDrq_of_accepts (h : k.refuses ch = false) : k.haveDrq ch = false := by
  simp only [Controller.refuses, Bool.or_eq_false_iff, bne_eq_false_iff_eq] at h
  obtain ⟨⟨_, hstatus⟩, _⟩ := h
  have hlt := ch.isLt
  have hbit := congrArg (fun r : Byte => r.getLsbD (ch.val + 4)) hstatus
  have hmask : ∀ j < 4, (0xf0#8).getLsbD (j + 4) = true := by decide
  simp only [BitVec.getLsbD_and, hmask ch.val hlt, Bool.and_true] at hbit
  rw [Controller.haveDrq, hbit]
  simp

/-- The pulse of a channel that is ready in single or demand mode transfers one
unit. -/
theorem pulse_unit {n : Fin 8} (buf : Nat → Byte)
    (hrefuse : (s.contr (di n)).refuses (ci n) = false)
    (hready : (s.contr (di n)).ready (ci n) = true)
    (hmode : ((s.contr (di n)).chans (ci n)).UnitMode) :
    ∃ t buf', dmaPulseDrq mapped n buf s = some (t, .dack, buf') ∧
      t.contr (di n) = (s.contr (di n)).advance (ci n) ∧
      Transferred mapped (di n) ((s.contr (di n)).chans (ci n)).transferOp
        (unitAddr (di n) ((s.contr (di n)).chans (ci n)).page
          ((s.contr (di n)).chans (ci n)).curAddr) s.mem t.mem buf buf' := by
  have hlt := (ci n).isLt
  have hbit : (ci n).val + 4 < 8 := by omega
  have hcontr : (assertDrq n buf s).contr (di n) =
      { s.contr (di n) with status := setBit (s.contr (di n)).status ((ci n).val + 4) } := by
    simp [assertDrq, Machine.modify]
  have hdrq : ((assertDrq n buf s).contr (di n)).haveDrq (ci n) = true := by
    rw [hcontr]
    simp [Controller.haveDrq, getLsbD_setBit _ hbit]
  have hready' : ((assertDrq n buf s).contr (di n)).ready (ci n) = true := by
    rw [← hready, hcontr]
    simp [Controller.ready, Controller.masked, Controller.reachedTc, Controller.disabled,
      getLsbD_setBit _ hbit]
  set t := (dmaProcessChannel mapped (di n) (ci n) (assertDrq n buf s)).modify (di n)
    (·.updateDrq (ci n)) with ht
  -- the first turn transfers the unit, the second one finds no request
  have hfirst : runTurn mapped (di n) (ci n) (assertDrq n buf s) = .again t := by
    rw [runTurn, hdrq, Bool.true_or, if_pos rfl, if_pos hready']
  have hserved := (runTurn_again hfirst).2.2.1
  have hblock : ((s.contr (di n)).chans (ci n)).transferMode ≠ .block := by
    rcases hmode with hmode | hmode <;> rw [hmode] <;> decide
  have hidle : (t.contr (di n)).active (ci n) = false := by
    rw [hserved, hcontr]
    exact serve_active_of_ne_block hblock
  have hsecond : runTurn mapped (di n) (ci n) t = .leave t := by
    have hidle : ((t.contr (di n)).haveDrq (ci n) || (t.contr (di n)).swActive (ci n)) = false :=
      hidle
    rw [runTurn, hidle, if_neg Bool.false_ne_true]
  have hrun : dmaRunChannel mapped (di n) (ci n) (assertDrq n buf s) = some t := by
    change loop _ (0x10000 + 1 + 1) _ = _
    rw [loop, hfirst]
    dsimp only
    rw [loop, hsecond]
  refine ⟨t, copyTo (unitBytes (di n)) t.dataBus buf, ?_, ?_, ?_⟩
  · rw [dmaPulseDrq, hrefuse, if_neg Bool.false_ne_true, hrun]
    rfl
  · rw [hserved, hcontr]
    exact serve_assert hmode (haveDrq_of_accepts hrefuse)
  · have hchan : ((assertDrq n buf s).contr (di n)).chans (ci n) =
        (s.contr (di n)).chans (ci n) := by rw [hcontr]
    have hmoved := @transfer_transferred (assertDrq n buf s) s mapped (di n)
      ((s.contr (di n)).chans (ci n)) buf rfl
    rw [← hchan] at hmoved ⊢
    exact hmoved

/-! ## Runs of pulses -/

/-- A step of a run in which a device pulses one channel. -/
def pulseStep (mapped : Addr → Bool) (n : Fin 8) (s : Machine) (buf : Nat → Byte) :
    Option Machine :=
  (dmaPulseDrq mapped n buf s).map (·.1)

/-- The channel is programmed with an address, a count and a page in single or
demand mode, unmasked, and its controller is enabled and idle. -/
structure Programmed (k : Controller) (ch : Fin 4) (addr count : BitVec 16) (page : Byte) :
    Prop where
  curAddr : (k.chans ch).curAddr = addr
  baseAddr : (k.chans ch).baseAddr = addr
  curCount : (k.chans ch).curCount = count
  baseCount : (k.chans ch).baseCount = count
  page : (k.chans ch).page = page
  mode : (k.chans ch).UnitMode
  unmasked : k.masked ch = false
  enabled : k.disabled = false
  idle : k.status &&& 0xf0#8 = 0#8 ∧ k.request = 0#8

/-- `k` units along the direction of the channel. -/
def along (chan : Channel) (addr : BitVec 16) (n : Nat) : BitVec 16 :=
  if chan.addrDec then addr - BitVec.ofNat 16 n else addr + BitVec.ofNat 16 n

/-- The address stays where it is when both address bits of the command are set. -/
def unitOffset (k : Controller) (chan : Channel) (addr : BitVec 16) (n : Nat) : BitVec 16 :=
  if k.holds then addr else along chan addr n

/-- A pulse that is acknowledged and transfers the unit at an address. -/
def Acknowledged (mapped : Addr → Bool) (n : Fin 8) (op : TransferOp) (pa : Addr) (s t : Machine)
    (buf : Nat → Byte) : Prop :=
  ∃ buf', dmaPulseDrq mapped n buf s = some (t, .dack, buf') ∧
    Transferred mapped (di n) op pa s.mem t.mem buf buf'

/-- Behind the last unit the channel is masked, at terminal count. -/
def Finished (k : Controller) (ch : Fin 4) : Prop :=
  k.masked ch = true ∧ k.reachedTc ch = true ∧ (k.chans ch).curCount = 0xffff#16

/-- Each pulse of a run does what it should, for the address `addrOf k` of the unit
`k`: after `k` pulses the next one transfers that unit, and the last one finishes
the channel, or reloads it with autoinit; a finished channel refuses. -/
def PulsesExact (mapped : Addr → Bool) (n : Fin 8) (addrOf : Nat → BitVec 16)
    (addr count : BitVec 16) (s : Machine) : Prop :=
  ∀ (bufs : List (Nat → Byte)) (buf : Nat → Byte), ∃ t, run (pulseStep mapped n) s bufs = some t ∧
    let chan := (s.contr (di n)).chans (ci n)
    let size := count.toNat + 1
    if chan.autoinit then
      ∃ u, Acknowledged mapped n chan.transferOp
        (unitAddr (di n) chan.page (addrOf (bufs.length % size))) t u buf ∧
        (bufs.length % size = count.toNat →
          ((u.contr (di n)).chans (ci n)).curAddr = addr ∧
            ((u.contr (di n)).chans (ci n)).curCount = count)
    else if bufs.length < size then
      ∃ u, Acknowledged mapped n chan.transferOp
        (unitAddr (di n) chan.page (addrOf bufs.length)) t u buf ∧
        (bufs.length = count.toNat → Finished (u.contr (di n)) (ci n))
    else Finished (t.contr (di n)) (ci n) ∧
      dmaPulseDrq mapped n buf t =
        some (t, .noDack, copyTo (unitBytes (di n)) (fun _ => 0xff#8) buf)

/-- The channel stands before unit `i`. -/
structure AtUnit (k₀ k : Controller) (ch : Fin 4) (addr count : BitVec 16) (i : Nat) :
    Prop where
  chan : k.chans ch = { k₀.chans ch with
    curAddr := unitOffset k₀ (k₀.chans ch) addr i, curCount := count - BitVec.ofNat 16 i }
  ready : k.ready ch = true
  accepts : k.refuses ch = false
  command : k.command = k₀.command

@[simp]
theorem unitOffset_zero (k : Controller) (chan : Channel) (addr : BitVec 16) :
    unitOffset k chan addr 0 = addr := by
  unfold unitOffset along
  split
  · rfl
  · split <;> simp

/-- A programmed channel that is not at terminal count stands before its first
unit. -/
theorem Programmed.atUnit {addr count : BitVec 16} {page : Byte}
    (h : Programmed k ch addr count page) (htc : k.reachedTc ch = false) :
    AtUnit k k ch addr count 0 := by
  refine ⟨?_, ?_, ?_, rfl⟩
  · rw [unitOffset_zero, BitVec.sub_zero]
    conv_rhs => rw [← h.curAddr, ← h.curCount]
  · have hcascade : (k.chans ch).transferMode ≠ .cascade := by
      rcases h.mode with hmode | hmode <;> rw [hmode] <;> decide
    simp [Controller.ready, h.unmasked, htc, h.enabled, hcascade]
  · simp [Controller.refuses, h.unmasked, h.idle.1, h.idle.2]

theorem along_succ (chan : Channel) (addr : BitVec 16) (i : Nat) :
    along chan addr (i + 1) =
      if chan.addrDec then along chan addr i - 1#16 else along chan addr i + 1#16 := by
  unfold along
  cases chan.addrDec with
  | true => simp [BitVec.ofNat_add, BitVec.sub_sub]
  | false => simp [BitVec.ofNat_add, BitVec.add_assoc]

theorem ready_setChan {chan : Channel} (hmode : chan.mode = (k.chans ch).mode) :
    (k.setChan ch chan).ready ch = k.ready ch := by
  simp only [Controller.ready, setChan_chans, transferMode_congr hmode]
  rfl

theorem refuses_setChan {chan : Channel} : (k.setChan ch chan).refuses ch = k.refuses ch :=
  rfl

variable {k₀ : Controller} {addr count : BitVec 16} {i : Nat}

/-- A unit before the last one. -/
theorem AtUnit.next (h : AtUnit k₀ k ch addr count i) (hi : i < count.toNat) :
    AtUnit k₀ (k.advance ch) ch addr count (i + 1) := by
  have hcount : (k.chans ch).curCount ≠ 0#16 := by
    rw [h.chan]
    intro hzero
    have hlt := count.isLt
    have hval := congrArg BitVec.toNat hzero
    simp only [BitVec.toNat_sub, BitVec.toNat_ofNat] at hval
    omega
  have hhold : k.holds = k₀.holds := by
    unfold Controller.holds
    rw [h.command]
  have haddr : k.nextAddr ch = unitOffset k₀ (k₀.chans ch) addr (i + 1) := by
    have hdec : (k.chans ch).addrDec = (k₀.chans ch).addrDec := by rw [h.chan]; rfl
    have hcur : (k.chans ch).curAddr = unitOffset k₀ (k₀.chans ch) addr i := by rw [h.chan]
    simp only [Controller.nextAddr, hhold, hdec, hcur]
    unfold unitOffset
    split
    · rfl
    · rw [along_succ]
  rw [advance_of_ne hcount, haddr, h.chan]
  refine ⟨?_, ?_, ?_, h.command⟩
  · rw [setChan_chans, BitVec.ofNat_add, ← BitVec.sub_sub]
  · rw [ready_setChan (by rw [h.chan])]
    exact h.ready
  · rw [refuses_setChan]
    exact h.accepts

/-- The last unit, with autoinit. -/
theorem AtUnit.reload (h : AtUnit k₀ k ch addr count count.toNat)
    (hauto : (k₀.chans ch).autoinit = true) (haddr : (k₀.chans ch).baseAddr = addr)
    (hcount : (k₀.chans ch).baseCount = count) : AtUnit k₀ (k.advance ch) ch addr count 0 := by
  have hlast : (k.chans ch).curCount = 0#16 := by
    rw [h.chan]
    simp
  have hauto : (k.chans ch).autoinit = true := by
    rw [h.chan]
    exact hauto
  rw [advance_reload hlast hauto, h.chan]
  refine ⟨?_, ?_, ?_, h.command⟩
  · rw [setChan_chans, unitOffset_zero, haddr, hcount, BitVec.sub_zero]
  · rw [ready_setChan (by rw [h.chan])]
    exact h.ready
  · rw [refuses_setChan]
    exact h.accepts

/-- The last unit, without autoinit. -/
theorem AtUnit.finish (h : AtUnit k₀ k ch addr count count.toNat)
    (hauto : (k₀.chans ch).autoinit = false) : Finished (k.advance ch) ch := by
  have hlast : (k.chans ch).curCount = 0#16 := by
    rw [h.chan]
    simp
  have hauto : (k.chans ch).autoinit = false := by
    rw [h.chan]
    exact hauto
  have hlt := ch.isLt
  have hbit : ch.val < 8 := by omega
  rw [advance_tc hlast hauto]
  refine ⟨?_, ?_, ?_⟩
  · simp [Controller.masked, getLsbD_setBit _ hbit]
  · simp [Controller.reachedTc, getLsbD_setBit _ hbit]
  · simp [Controller.setChan]

/-- The pulse of a channel that stands before unit `i`. -/
theorem AtUnit.pulse {n : Fin 8} (h : AtUnit k₀ (s.contr (di n)) (ci n) addr count i)
    (hmode : (k₀.chans (ci n)).UnitMode) (buf : Nat → Byte) :
    ∃ t, Acknowledged mapped n (k₀.chans (ci n)).transferOp
      (unitAddr (di n) (k₀.chans (ci n)).page (unitOffset k₀ (k₀.chans (ci n)) addr i)) s t buf ∧
      t.contr (di n) = (s.contr (di n)).advance (ci n) := by
  have hmode' : ((s.contr (di n)).chans (ci n)).UnitMode := by
    rw [h.chan]
    exact hmode
  obtain ⟨t, buf', hpulse, hcontr, hmoved⟩ := @pulse_unit s mapped n buf h.accepts h.ready hmode'
  refine ⟨t, ⟨buf', hpulse, ?_⟩, hcontr⟩
  rw [h.chan] at hmoved
  exact hmoved

/-- A finished channel refuses. -/
theorem Finished.pulse {n : Fin 8} (h : Finished (s.contr (di n)) (ci n)) (buf : Nat → Byte) :
    dmaPulseDrq mapped n buf s =
      some (s, .noDack, copyTo (unitBytes (di n)) (fun _ => 0xff#8) buf) := by
  have hrefuse : (s.contr (di n)).refuses (ci n) = true := by
    simp [Controller.refuses, h.1]
  rw [dmaPulseDrq, if_pos hrefuse]

theorem succ_mod_size (i c : Nat) :
    (i + 1) % (c + 1) = if i % (c + 1) = c then 0 else i % (c + 1) + 1 := by
  have hlt := Nat.mod_lt i (Nat.succ_pos c)
  have hsplit := Nat.div_add_mod i (c + 1)
  rw [← hsplit, Nat.add_assoc, Nat.mul_add_mod, Nat.mul_add_mod, Nat.mod_mod]
  generalize i % (c + 1) = r at *
  split
  · next hr => rw [hr, Nat.mod_self]
  · next hr => exact Nat.mod_eq_of_lt (by omega)

/-- Where the channel stands after a run of pulses, with autoinit. -/
theorem run_autoinit {n : Fin 8} (h : AtUnit (s.contr (di n)) (s.contr (di n)) (ci n) addr count 0)
    (hmode : ((s.contr (di n)).chans (ci n)).UnitMode)
    (hauto : ((s.contr (di n)).chans (ci n)).autoinit = true)
    (haddr : ((s.contr (di n)).chans (ci n)).baseAddr = addr)
    (hcount : ((s.contr (di n)).chans (ci n)).baseCount = count) (bufs : List (Nat → Byte)) :
    ∃ t, run (pulseStep mapped n) s bufs = some t ∧
      AtUnit (s.contr (di n)) (t.contr (di n)) (ci n) addr count
        (bufs.length % (count.toNat + 1)) := by
  induction bufs using List.reverseRecOn with
  | nil => exact ⟨s, rfl, h⟩
  | append_singleton bufs buf ih =>
      obtain ⟨t, hrun, hat⟩ := ih
      obtain ⟨u, ⟨buf', hpulse, _⟩, hcontr⟩ := @AtUnit.pulse _ mapped _ _ _ _ _ hat hmode buf
      have hstep : pulseStep mapped n t buf = some u := by
        rw [pulseStep, hpulse]
        rfl
      refine ⟨u, ?_, ?_⟩
      · rw [run_append, hrun, Option.bind_some, run_cons, hstep]
        rfl
      · rw [hcontr, List.length_append, List.length_singleton, succ_mod_size]
        have hlt : bufs.length % (count.toNat + 1) < count.toNat + 1 :=
          Nat.mod_lt _ (Nat.succ_pos _)
        split
        · next hlast =>
            rw [hlast] at hat
            exact hat.reload hauto haddr hcount
        · next hnot => exact hat.next (by omega)

/-- Where it stands without autoinit. -/
theorem run_once {n : Fin 8} (h : AtUnit (s.contr (di n)) (s.contr (di n)) (ci n) addr count 0)
    (hmode : ((s.contr (di n)).chans (ci n)).UnitMode)
    (hauto : ((s.contr (di n)).chans (ci n)).autoinit = false) (bufs : List (Nat → Byte)) :
    ∃ t, run (pulseStep mapped n) s bufs = some t ∧
      if bufs.length < count.toNat + 1 then
        AtUnit (s.contr (di n)) (t.contr (di n)) (ci n) addr count bufs.length
      else Finished (t.contr (di n)) (ci n) := by
  induction bufs using List.reverseRecOn with
  | nil =>
      refine ⟨s, rfl, ?_⟩
      have hpos : ([] : List (Nat → Byte)).length < count.toNat + 1 := Nat.succ_pos _
      rw [if_pos hpos]
      exact h
  | append_singleton bufs buf ih =>
      obtain ⟨t, hrun, hat⟩ := ih
      rw [List.length_append, List.length_singleton]
      by_cases hlt : bufs.length < count.toNat + 1
      · rw [if_pos hlt] at hat
        obtain ⟨u, ⟨buf', hpulse, _⟩, hcontr⟩ := @AtUnit.pulse _ mapped _ _ _ _ _ hat hmode buf
        have hstep : pulseStep mapped n t buf = some u := by
          rw [pulseStep, hpulse]
          rfl
        refine ⟨u, ?_, ?_⟩
        · rw [run_append, hrun, Option.bind_some, run_cons, hstep]
          rfl
        · rw [hcontr]
          split
          · next hmore => exact hat.next (by omega)
          · next hlast =>
              have hlast : bufs.length = count.toNat := by omega
              rw [hlast] at hat
              exact hat.finish hauto
      · rw [if_neg hlt] at hat
        have hstep : pulseStep mapped n t buf = some t := by
          rw [pulseStep, hat.pulse]
          rfl
        refine ⟨t, ?_, ?_⟩
        · rw [run_append, hrun, Option.bind_some, run_cons, hstep]
          rfl
        · rw [if_neg (by omega)]
          exact hat

/-- The pulses of a channel that is programmed in single or demand mode, in a state
that a guest and the devices can reach.  The address of a unit goes along the
direction, unless the command register holds it. -/
theorem pulsesExact_reachable {n : Fin 8} {page : Byte} (hreach : Reachable mapped s)
    (h : Programmed (s.contr (di n)) (ci n) addr count page) :
    PulsesExact mapped n
      (unitOffset (s.contr (di n)) ((s.contr (di n)).chans (ci n)) addr) addr count s := by
  have htc : (s.contr (di n)).reachedTc (ci n) = false := by
    by_contra hreached
    have hmask := reachable_tcMasked hreach (di n) (ci n) (Bool.not_eq_false _ ▸ hreached)
    rw [← Controller.masked, h.unmasked] at hmask
    cases hmask
  have hstart := h.atUnit htc
  intro bufs buf
  cases hauto : ((s.contr (di n)).chans (ci n)).autoinit with
  | true =>
      obtain ⟨t, hrun, hat⟩ := @run_autoinit s mapped addr count n hstart h.mode hauto h.baseAddr
        h.baseCount bufs
      obtain ⟨u, hack, hcontr⟩ := @AtUnit.pulse _ mapped _ _ _ _ _ hat h.mode buf
      refine ⟨t, hrun, ?_⟩
      simp only [hauto, if_true]
      refine ⟨u, hack, fun hlast => ?_⟩
      rw [hlast] at hat
      have hnext := hat.reload hauto h.baseAddr h.baseCount
      rw [hcontr, hnext.chan]
      exact ⟨unitOffset_zero _ _ _, BitVec.sub_zero _⟩
  | false =>
      obtain ⟨t, hrun, hat⟩ := @run_once s mapped addr count n hstart h.mode hauto bufs
      refine ⟨t, hrun, ?_⟩
      simp only [hauto, Bool.false_eq_true, if_false]
      split
      · next hlt =>
          rw [if_pos hlt] at hat
          obtain ⟨u, hack, hcontr⟩ := @AtUnit.pulse _ mapped _ _ _ _ _ hat h.mode buf
          refine ⟨u, hack, fun hlast => ?_⟩
          rw [hlast] at hat
          rw [hcontr]
          exact hat.finish hauto
      · next hge =>
          rw [if_neg hge] at hat
          exact ⟨hat, hat.pulse buf⟩

/-! ## A channel that a guest programs -/

/-- With no channel requested `dma_process` does nothing. -/
theorem process_idle (h : ∀ c ch, (s.contr c).active ch = false) :
    dmaProcess mapped s = some s := by
  have hrun : ∀ c ch, dmaRunChannel mapped c ch s = some s := by
    intro c ch
    have hidle : ((s.contr c).haveDrq ch || (s.contr c).swActive ch) = false := h c ch
    change loop _ (0x10001 + 1) _ = _
    rw [loop, runTurn, hidle, if_neg Bool.false_ne_true]
  unfold dmaProcess
  generalize channels = l
  induction l with
  | nil => rfl
  | cons p l ih =>
      rw [List.foldlM_cons, hrun]
      exact ih

/-- A guest programs channel 1 for two units in single mode, with a given command
register. -/
def programmedMachine (command : Byte) : Machine :=
  portWrite 0x08 command (portWrite 0x0A 1#8 (portWrite 0x03 0#8 (portWrite 0x03 1#8
    (portWrite 0x0B 0x45#8 resetMachine))))

theorem programmedMachine_reachable (command : Byte) :
    Reachable (fun _ => true) (programmedMachine command) := by
  have hwrite : ∀ (u : Machine) (port : Nat) (v : Byte),
      (∀ c ch, ((portWrite port v u).contr c).active ch = false) →
      step (fun _ => true) u (.write port v) = some (portWrite port v u) :=
    fun u port v hidle => process_idle hidle
  refine ⟨resetMachine, fun c => ⟨_, rfl⟩,
    [.write 0x0B 0x45#8, .write 0x03 1#8, .write 0x03 0#8, .write 0x0A 1#8,
      .write 0x08 command], ?_⟩
  rw [run_cons, hwrite _ _ _ (by decide), Option.bind_some, run_cons, hwrite _ _ _ (by decide),
    Option.bind_some, run_cons, hwrite _ _ _ (by decide), Option.bind_some, run_cons,
    hwrite _ _ _ (by decide), Option.bind_some, run_cons, hwrite _ _ _ ?_, Option.bind_some,
    run_nil]
  · rfl
  · intro c ch
    revert c ch
    decide +revert

theorem programmedMachine_programmed (command : Byte) (h : command.getLsbD 2 = false) :
    Programmed ((programmedMachine command).contr (di 1)) (ci 1) 0#16 1#16 0#8 := by
  have hstatus : ((programmedMachine 0#8).contr (di 1)).status &&& 0xf0#8 = 0#8 := by decide
  have hmask : ((programmedMachine 0#8).contr (di 1)).masked (ci 1) = false := by decide
  have hmode : (((programmedMachine 0#8).contr (di 1)).chans (ci 1)).transferMode = .single := by
    decide
  exact ⟨rfl, rfl, rfl, rfl, rfl, .inl hmode, hmask, h, hstatus, rfl⟩

/-- The pulses of that channel. -/
theorem pulsesExact_programmed :
    PulsesExact (fun _ => true) 1 (unitOffset ((programmedMachine 0#8).contr (di 1))
      (((programmedMachine 0#8).contr (di 1)).chans (ci 1)) 0#16) 0#16 1#16
      (programmedMachine 0#8) :=
  pulsesExact_reachable (programmedMachine_reachable 0#8) (programmedMachine_programmed 0#8 rfl)

/-- With both address bits of the command set, the second unit goes to the address
of the first one. -/
theorem held_address_repeats :
    Reachable (fun _ => true) (programmedMachine 3#8) ∧
      Programmed ((programmedMachine 3#8).contr (di 1)) (ci 1) 0#16 1#16 0#8 ∧
      ¬PulsesExact (fun _ => true) 1
        (along (((programmedMachine 3#8).contr (di 1)).chans (ci 1)) 0#16) 0#16 1#16
        (programmedMachine 3#8) := by
  refine ⟨programmedMachine_reachable 3#8, programmedMachine_programmed 3#8 rfl, fun h => ?_⟩
  have heval : ((dmaPulseDrq (fun _ => true) 1 (fun _ => 0x11#8) (programmedMachine 3#8)).bind
      fun r => dmaPulseDrq (fun _ => true) 1 (fun _ => 0x22#8) r.1).map (fun r => r.1.mem 1#32) =
      some 0#8 := by
    decide
  obtain ⟨t, hrun, u, ⟨buf', hpulse, hmoved⟩, _⟩ := h [fun _ => 0x11#8] (fun _ => 0x22#8)
  obtain ⟨v, hv, hnil⟩ := run_cons_eq_some.mp hrun
  cases hnil
  obtain ⟨r, hr, rfl⟩ := Option.map_eq_some_iff.mp hv
  rw [hr, Option.bind_some, hpulse] at heval
  simp only [Option.map_some, Option.some.injEq] at heval
  have hmem := congrFun hmoved.2 1#32
  rw [heval] at hmem
  have hvalue : (copyToMem (unitBytes (di 1)) (fun _ => 0x22#8) 1#32 r.1.mem) 1#32 = 0x22#8 := rfl
  exact absurd (hmem.trans hvalue) (by decide)

end Dma
end Dosemu
