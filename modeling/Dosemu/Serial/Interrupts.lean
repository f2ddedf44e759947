import Dosemu.Serial.RxFifo

/-!
# The interrupts of the UART

The conditions of a port, the conditions it may interrupt for, the cached
identification and the level of the PIC line are changed by different functions.
Most of them go through `clear_int_cond` and `serial_int_engine`, which keep the
line right; what a function may rely on is a predicate that these two keep.

A write of MCR that switches loopback on does not look at OUT2, a cached
identification survives conditions of higher priority, and the test for the
transmitter in a read of IIR also holds for line status.

Main results:

- Theorem `IrqPred.serialIntEngine` and its siblings: what the engines keep.
- Theorem `readIIR_iff`: when a read of IIR is right.
- Theorem `putMcr_loop_iff`: when a write of MCR leaves the line right.
- Theorem `interrupts_iff`: the runs in which no interrupt is lost or made up.
-/

namespace Dosemu
namespace Serial

/-! ## What the interrupts promise -/

/-- The condition of highest priority. -/
def priority (request : Byte) : Byte :=
  if request &&& lsIntr ≠ 0 then lsIntr
  else if request &&& rxIntr ≠ 0 then rxIntr
  else if request &&& txIntr ≠ 0 then txIntr
  else if request &&& msIntr ≠ 0 then msIntr
  else 0

/-- The line is asserted while interrupts are enabled and an enabled condition holds. -/
def Com.LineOk (c : Com) : Prop :=
  c.line = true ↔ c.intEnab = true ∧ c.intRequest ≠ 0

/-- A read of IIR reports the condition of highest priority, or no interrupt if there is none; it
clears the transmit condition if it reports it, and no other condition. -/
def Identifies (c : Com) : Prop :=
  c.readIIR.1 &&& 7 = Com.iirCode (priority c.intRequest) ∧
    (c.readIIR.1 &&& 7 = uartIirNoInt ↔ c.intRequest = 0) ∧
    c.readIIR.2.intCondition =
      if c.readIIR.1 &&& 7 = uartIirThri then c.intCondition &&& ~~~txIntr else c.intCondition

/-- What an operation promises about interrupts. -/
def Signals (w : World) (c : Com) (op : Op) : Prop :=
  (∀ t, step w c op = some t → t.LineOk) ∧ (op = .inp .iirFcr → Identifies c)

/-- The cached identification is up to date, and line status is not reported while there is a
transmit condition; and OUT2 is not switched off in loopback mode while the line is asserted,
unless loopback mode is entered and all enabled conditions go with the FIFOs. -/
def Heedful (c : Com) : Op → Prop
  | .inp .iirFcr =>
      (c.iirMask = 0 ∨ c.iirMask = priority c.intRequest) ∧
        (priority c.intRequest = lsIntr → c.intCondition &&& txIntr = 0)
  | .out .mcr val =>
      val &&& uartMcrLoop ≠ 0 → val &&& uartMcrOut2 = 0 → c.intEnab = true → c.intRequest ≠ 0 →
        c.loop = false ∧ c.fifoEnable = true ∧
          c.intRequest &&& ~~~(lsIntr ||| rxIntr ||| txIntr) = 0
  | _ => True

/-! ## Predicates that the engines keep -/

/-- The state of the interrupts is as before. -/
structure SameIrq (c t : Com) : Prop where
  intCondition : t.intCondition = c.intCondition
  ier : t.ier = c.ier
  mcr : t.mcr = c.mcr
  line : t.line = c.line
  iirMask : t.iirMask = c.iirMask

/-- A predicate about the interrupts that is kept by what the engines do. -/
structure EnginePred (P : Com → Prop) : Prop where
  same : ∀ {c t : Com}, P c → SameIrq c t → P t
  request : ∀ {c : Com} (req : Byte), P c → P (c.requestInt req)

/-- A predicate that is also kept when conditions are cleared. -/
structure IrqPred (P : Com → Prop) : Prop extends EnginePred P where
  clear : ∀ {c : Com} (val : Byte), P c → P (c.clearIntCond val)

variable {w : World} {c t : Com}

theorem of_ite {P : Com → Prop} {u : Com} {p : Prop} [Decidable p] (ht : P t) (hu : P u) :
    P (if p then t else u) := by
  by_cases hp : p
  · rwa [if_pos hp]
  · rwa [if_neg hp]

namespace EnginePred

variable {P : Com → Prop} (hP : EnginePred P)
include hP

theorem transmitDone (h : P c) : P c.transmitDone := by
  have hthre : P { c with lsr := c.lsr ||| uartLsrThre } := hP.same h ⟨rfl, rfl, rfl, rfl, rfl⟩
  exact hP.request _ (of_ite (hP.same hthre ⟨rfl, rfl, rfl, rfl, rfl⟩) hthre)

theorem transmitEngine (w : World) (h : P c) : P (c.transmitEngine w) := by
  have hupdate {c : Com} (h : P c) : P (c.updateTxCnt w) := hP.same h ⟨rfl, rfl, rfl, rfl, rfl⟩
  have htemt {c : Com} (h : P c) : P { c with lsr := c.lsr ||| uartLsrTemt } :=
    hP.same h ⟨rfl, rfl, rfl, rfl, rfl⟩
  have hcount {c : Com} {p : Prop} [Decidable p] (h : P c) : P (if p then c.updateTxCnt w else c) :=
    of_ite (hupdate h) h
  have hclock : P (if w.cfg.systemRtscts then { c with clock := c.clock + 1 } else c) :=
    of_ite (hP.same h ⟨rfl, rfl, rfl, rfl, rfl⟩) h
  exact of_ite (of_ite (of_ite (htemt (hcount h)) (hcount h)) h)
    (of_ite hclock (of_ite (hcount hclock) (hP.transmitDone (hcount hclock))))

theorem serialIntEngine (w : World) (req : Byte) (h : P c) : P (c.serialIntEngine w req) :=
  hP.request _ (of_ite (hP.transmitEngine w h) h)

theorem receiveEngine (w : World) (h : P c) : P (c.receiveEngine w) := by
  have htimeout {c : Com} (n : Nat) (h : P c) : P { c with rxTimeout := n } :=
    hP.same h ⟨rfl, rfl, rfl, rfl, rfl⟩
  have hready {c : Com} (h : P c) : P c.setDr := hP.same h ⟨rfl, rfl, rfl, rfl, rfl⟩
  have hset : P (Com.setDr (if !c.dr ∧ c.fifoEnable then { c with rxTimeout := timeoutRx } else c)) :=
    hready (of_ite (htimeout _ h) h)
  exact of_ite h (of_ite h (of_ite (hP.serialIntEngine w rxIntr (htimeout 0 hset)) hset))

theorem receiveTimeouts (w : World) (h : P c) : P (c.receiveTimeouts w) := by
  have hcount : P { c with rxTimeout := c.rxTimeout - 1 } := hP.same h ⟨rfl, rfl, rfl, rfl, rfl⟩
  have hcti {c : Com} (h : P c) : P { c with cti := true } := hP.same h ⟨rfl, rfl, rfl, rfl, rfl⟩
  exact of_ite (of_ite (hP.serialIntEngine w rxIntr (hcti hcount)) hcount) h

theorem modstatEngine (w : World) (h : P c) : P (c.modstatEngine w) := by
  have hclock : P (if w.cfg.pseudo then c else { c with clock := c.clock + 1 }) :=
    of_ite h (hP.same h ⟨rfl, rfl, rfl, rfl, rfl⟩)
  have hmsr {c : Com} (v : Byte) (h : P c) : P { c with msr := v } :=
    hP.same h ⟨rfl, rfl, rfl, rfl, rfl⟩
  exact of_ite h (of_ite (hP.serialIntEngine w msIntr (hmsr _ hclock)) (hmsr _ hclock))

theorem ttyUartFill (w : World) (h : P c) : P (c.ttyUartFill w).2 := by
  have hsame {t : Com} (hs : SameIrq c t) : P t := hP.same h hs
  unfold Com.ttyUartFill
  split_ifs
  · exact hsame ⟨rfl, rfl, rfl, rfl, rfl⟩
  · exact hsame ⟨rfl, rfl, rfl, rfl, rfl⟩
  · dsimp only
    cases w.read c.clock <;> exact hsame ⟨rfl, rfl, rfl, rfl, rfl⟩

theorem fill (w : World) (h : P c) : P (c.fill w) := by
  have hfill := hP.ttyUartFill w h
  exact of_ite (hP.receiveEngine w hfill) hfill

theorem serialUpdate (w : World) (h : P c) : P (c.serialUpdate w) := by
  have hfill : P
      (if c.rx.bytes < c.rxFifoTrigger ∧ !c.ioselCur w ∧ w.cfg.hasDev then c.fill w else c) :=
    of_ite (hP.fill w h) h
  have htimeouts {c : Com} (h : P c) : P (if c.rx.bytes ≠ 0 then c.receiveTimeouts w else c) :=
    of_ite (hP.receiveTimeouts w h) h
  exact hP.modstatEngine w (hP.transmitEngine w (htimeouts hfill))

theorem serialRxPush (w : World) (bs : List Byte) (h : P c) : P (c.serialRxPush w bs).2 := by
  unfold Com.serialRxPush
  split_ifs
  · exact h
  · exact hP.receiveEngine w (hP.same h ⟨rfl, rfl, rfl, rfl, rfl⟩)

theorem overrun (w : World) (h : P c) : P (c.overrun w) :=
  hP.serialIntEngine w lsIntr (hP.same h ⟨rfl, rfl, rfl, rfl, rfl⟩)

theorem loopTx (w : World) {val : Byte} (h : P c) (ht : c.loopTx w val = some t) : P t := by
  have hready {c : Com} (h : P c) : P c.setDr := hP.same h ⟨rfl, rfl, rfl, rfl, rfl⟩
  have htimeout {c : Com} (h : P c) : P { c with rxTimeout := 0 } :=
    hP.same h ⟨rfl, rfl, rfl, rfl, rfl⟩
  have hstore (rx : RxQueue) : P { c with rx := rx } := hP.same h ⟨rfl, rfl, rfl, rfl, rfl⟩
  unfold Com.loopTx at ht
  split_ifs at ht
  · obtain rfl := Option.some.inj ht
    exact hready (hP.overrun w h)
  · obtain ⟨rx, -, rfl⟩ := Option.map_eq_some_iff.mp ht
    exact hready (of_ite (hP.serialIntEngine w rxIntr (htimeout (hstore _))) (hstore _))
  · obtain ⟨rx, -, rfl⟩ := Option.map_eq_some_iff.mp ht
    exact of_ite (hP.overrun w (hstore rx))
      (hP.serialIntEngine w rxIntr (htimeout (hready (hstore rx))))

theorem lineTx (w : World) (h : P c) : P (c.lineTx w) := by
  have hclock : P { c with clock := c.clock + 1 } := hP.same h ⟨rfl, rfl, rfl, rfl, rfl⟩
  have hsent {c : Com} (h : P c) :
      P { c with lsr := c.lsr &&& ~~~(uartLsrThre ||| uartLsrTemt), txCnt := c.txCnt + 1 } :=
    hP.same h ⟨rfl, rfl, rfl, rfl, rfl⟩
  exact of_ite h (hP.transmitEngine w (of_ite (hsent hclock) hclock))

theorem putMsr (w : World) (val : Byte) (h : P c) : P (c.putMsr w val) := by
  have hset : P { c with msr := (c.msr &&& uartMsrStat) ||| (val &&& uartMsrDelta) } :=
    hP.same h ⟨rfl, rfl, rfl, rfl, rfl⟩
  exact of_ite (hP.serialIntEngine w msIntr hset) hset

end EnginePred

/-! ## The registers -/

namespace IrqPred

variable {P : Com → Prop} (hP : IrqPred P)
include hP

theorem uartClearFifo (fifo : Byte) (h : P c) : P (c.uartClearFifo fifo) := by
  have hset {c t : Com} (val : Byte) (h : P c) (hs : SameIrq c t) : P (t.clearIntCond val) :=
    hP.clear val (hP.same h hs)
  have hrcvr : P
      (if fifo &&& uartFcrClearRcvr ≠ 0 then
        { c with
          lsr := c.lsr &&& ~~~(uartLsrErr ||| uartLsrDr)
          rx := c.rx.clear
          cti := false
          rxTimeout := 0 }.clearIntCond (lsIntr ||| rxIntr)
      else c) :=
    of_ite (hset _ h ⟨rfl, rfl, rfl, rfl, rfl⟩) h
  exact of_ite (hset _ hrcvr ⟨rfl, rfl, rfl, rfl, rfl⟩) hrcvr

theorem putTx (w : World) {val : Byte} (h : P c) (ht : c.putTx w val = some t) : P t := by
  have hclear := hP.clear txIntr h
  unfold Com.putTx at ht
  dsimp only at ht
  split_ifs at ht
  · have htimeout : P { c.clearIntCond txIntr with rxTimeout := 0 } :=
      hP.same hclear ⟨rfl, rfl, rfl, rfl, rfl⟩
    exact hP.loopTx w htimeout ht
  · obtain rfl := Option.some.inj ht
    exact hP.lineTx w hclear

theorem putFcr (val : Byte) (h : P c) : P (c.putFcr val) := by
  have hset {c t : Com} (h : P c) (hs : SameIrq c t) : P t := hP.same h hs
  unfold Com.putFcr
  dsimp only
  split_ifs
  · exact hset (hP.uartClearFifo _ h) ⟨rfl, rfl, rfl, rfl, rfl⟩
  · exact hset (hP.uartClearFifo _ h) ⟨rfl, rfl, rfl, rfl, rfl⟩
  · exact hset h ⟨rfl, rfl, rfl, rfl, rfl⟩
  · exact hP.uartClearFifo _ (hset h ⟨rfl, rfl, rfl, rfl, rfl⟩)

theorem putLcr (w : World) (val : Byte) (h : P c) : P (c.putLcr w val) := by
  have hset : P { c with lcr := val } := hP.same h ⟨rfl, rfl, rfl, rfl, rfl⟩
  exact of_ite (hP.uartClearFifo _ hset) hset

theorem putLsr (w : World) (val : Byte) (h : P c) : P (c.putLsr w val) := by
  have hset {c t : Com} (h : P c) (hs : SameIrq c t) : P t := hP.same h hs
  have hkeep {c : Com} (p : Prop) [Decidable p] (cond : Byte) (h : P c) :
      P (if p then c else c.clearIntCond cond) :=
    of_ite h (hP.clear cond h)
  have hfirst : P { c with lsr := val &&& 0x1F } := hset h ⟨rfl, rfl, rfl, rfl, rfl⟩
  have hthre {c : Com} (p : Prop) [Decidable p] (h : P c) :
      P (if p then { c with lsr := c.lsr ||| (uartLsrTemt ||| uartLsrThre) }
        else { c with lsr := c.lsr &&& ~~~(uartLsrThre ||| uartLsrTemt) }.clearIntCond txIntr) :=
    of_ite (hset h ⟨rfl, rfl, rfl, rfl, rfl⟩)
      (hP.clear txIntr (hset h ⟨rfl, rfl, rfl, rfl, rfl⟩))
  have hconds := hthre (val &&& uartLsrThre ≠ 0)
    (hkeep (val &&& uartLsrDr ≠ 0) rxIntr (hkeep (val &&& uartLsrErr ≠ 0) lsIntr hfirst))
  exact hP.receiveEngine w (of_ite (hP.serialIntEngine w _ hconds) hconds)

theorem getRx (w : World) (h : P c) : P (c.getRx w).2 := by
  have hset {c t : Com} (h : P c) (hs : SameIrq c t) : P t := hP.same h hs
  have hfill {c : Com} {p : Prop} [Decidable p] (h : P c) : P (if p then c.fill w else c) :=
    of_ite (hP.fill w h) h
  have htake {c : Com} (h : P c) : P (c.takeRx w).2 := by
    have hdr {c : Com} (h : P c) : P c.clearDr := hP.same h ⟨rfl, rfl, rfl, rfl, rfl⟩
    unfold Com.takeRx
    split_ifs
    · exact hdr h
    · exact h
    · have hclear := hP.clear rxIntr (hset (t := { c with rx := c.rx.take.2 }) h
        ⟨rfl, rfl, rfl, rfl, rfl⟩)
      exact of_ite (hdr (hP.receiveEngine w hclear)) (hP.receiveEngine w hclear)
  exact htake (hfill (hset h ⟨rfl, rfl, rfl, rfl, rfl⟩))

theorem getMsr (w : World) (h : P c) : P (c.getMsr w).2 :=
  hP.clear msIntr (hP.same (hP.modstatEngine w h) ⟨rfl, rfl, rfl, rfl, rfl⟩)

theorem getLsr (h : P c) : P c.getLsr.2 :=
  hP.same (hP.clear lsIntr h) ⟨rfl, rfl, rfl, rfl, rfl⟩

end IrqPred

/-! ## The line -/

/-- While the line is asserted, an enabled condition holds. -/
structure Latched (c : Com) : Prop where
  request : c.line = true → c.intRequest ≠ 0
  ier : c.ier &&& ~~~uartIerValid = 0
  mask : c.iirMask ∈ [0, lsIntr, rxIntr, txIntr, msIntr]

/-- While the line is asserted, an enabled condition holds and interrupts are enabled. -/
structure Sound (c : Com) : Prop extends Latched c where
  enab : c.line = true → c.intEnab = true

/-- The line is right. -/
structure Settled (c : Com) : Prop extends Sound c where
  assert : c.intEnab = true → c.intRequest ≠ 0 → c.line = true

theorem Settled.lineOk (h : Settled c) : c.LineOk :=
  ⟨fun hline => ⟨h.enab hline, h.request hline⟩, fun ⟨henab, hreq⟩ => h.assert henab hreq⟩

theorem SameIrq.intRequest (h : SameIrq c t) : t.intRequest = c.intRequest := by
  unfold Com.intRequest
  rw [h.intCondition, h.ier]

theorem SameIrq.intEnab (h : SameIrq c t) : t.intEnab = c.intEnab := by
  unfold Com.intEnab
  rw [h.mcr]

/-- More conditions do not disable what is enabled. -/
theorem intRequest_or {a r b : Byte} (h : a &&& b ≠ 0) : (a ||| r) &&& b ≠ 0 := by
  rw [BitVec.and_or_distrib_right]
  intro hzero
  exact h (BitVec.or_eq_zero_iff.mp hzero).1

/-- Fewer conditions do not enable what is disabled. -/
theorem intRequest_and {a v b : Byte} (h : a &&& v &&& b ≠ 0) : a &&& b ≠ 0 := by
  intro hzero
  apply h
  rw [BitVec.and_assoc, BitVec.and_comm v, ← BitVec.and_assoc, hzero]
  exact BitVec.zero_and

theorem Latched.same (h : Latched c) (hs : SameIrq c t) : Latched t := by
  refine ⟨?_, ?_, ?_⟩
  · rw [hs.line, hs.intRequest]
    exact h.request
  · rw [hs.ier]
    exact h.ier
  · rw [hs.iirMask]
    exact h.mask

theorem Sound.same (h : Sound c) (hs : SameIrq c t) : Sound t := by
  refine ⟨h.toLatched.same hs, ?_⟩
  rw [hs.line, hs.intEnab]
  exact h.enab

theorem Latched.clear (val : Byte) (h : Latched c) : Latched (c.clearIntCond val) := by
  unfold Com.clearIntCond
  dsimp only
  split_ifs with hreq
  · exact ⟨fun hno => absurd hno Bool.false_ne_true, h.ier, by simp⟩
  · exact ⟨fun _ => hreq, h.ier, by simp⟩

theorem Sound.clear (val : Byte) (h : Sound c) : Sound (c.clearIntCond val) := by
  refine ⟨h.toLatched.clear val, ?_⟩
  unfold Com.clearIntCond
  dsimp only
  split_ifs
  · intro hno
    cases hno
  · exact h.enab

theorem Latched.requestInt (req : Byte) (h : Latched c) : Latched (c.requestInt req) := by
  unfold Com.requestInt
  dsimp only
  split_ifs with hnone hassert
  · exact h
  · exact ⟨fun _ => hassert.2, h.ier, h.mask⟩
  · exact ⟨fun hline => intRequest_or (h.request hline), h.ier, h.mask⟩

/-- The end of `serial_int_engine` sets the line right. -/
theorem Sound.requestInt (req : Byte) (h : Sound c) : Settled (c.requestInt req) := by
  have hlatched := h.toLatched.requestInt req
  unfold Com.requestInt at hlatched ⊢
  dsimp only at hlatched ⊢
  split_ifs at hlatched ⊢ with hnone hassert
  · refine ⟨h, fun _ hreq => absurd ?_ hreq⟩
    unfold Com.intRequest
    rw [hnone.2]
    exact BitVec.zero_and
  · exact ⟨⟨hlatched, fun _ => hassert.1⟩, fun _ _ => rfl⟩
  · exact ⟨⟨hlatched, h.enab⟩, fun henab hreq => absurd ⟨henab, hreq⟩ hassert⟩

theorem latched_irqPred : IrqPred Latched where
  same := Latched.same
  request := Latched.requestInt
  clear := Latched.clear

theorem sound_irqPred : IrqPred Sound where
  same := Sound.same
  request := fun req h => (h.requestInt req).toSound
  clear := Sound.clear

theorem settled_irqPred : IrqPred Settled where
  same := by
    intro c t h hs
    refine ⟨h.toSound.same hs, ?_⟩
    rw [hs.intEnab, hs.intRequest, hs.line]
    exact h.assert
  request := fun req h => h.toSound.requestInt req
  clear := by
    intro c val h
    refine ⟨h.toSound.clear val, ?_⟩
    unfold Com.clearIntCond
    dsimp only
    split_ifs with hreq
    · exact fun _ hsome => absurd hreq hsome
    · exact fun henab hsome => h.assert henab (intRequest_and hsome)

/-- What a register write leaves to the interrupt engine. -/
theorem Sound.serialIntEngine (w : World) (req : Byte) (h : Sound c) :
    Settled (c.serialIntEngine w req) := by
  have hsound : Sound (if c.txTrigger then c.transmitEngine w else c) :=
    of_ite (sound_irqPred.transmitEngine w h) h
  exact hsound.requestInt _

/-! ## Reading IIR -/

/-- The identification that a read of IIR works with. -/
def seenMask (c : Com) : Byte :=
  if c.iirMask = 0 then priority c.intRequest else c.iirMask

/-- `recalc_IIR` finds the condition of highest priority. -/
theorem recalcIIR_eq (hmask : c.iirMask = 0) :
    c.recalcIIR = { c with iirMask := priority c.intRequest } := by
  have hnone : { c with iirMask := 0 } = c := by
    rw [← hmask]
  unfold Com.recalcIIR priority
  dsimp only
  by_cases hreq : c.intRequest = 0
  · rw [if_pos hreq, hreq]
    rfl
  · rw [if_neg hreq]
    split_ifs <;> first | rfl | exact hnone.symm

theorem priority_mem (req : Byte) : priority req ∈ [0, lsIntr, rxIntr, txIntr, msIntr] := by
  unfold priority
  split_ifs <;> simp

/-- Each enabled condition is identified. -/
theorem priority_eq_zero {cond ier : Byte} (hier : ier &&& ~~~uartIerValid = 0) :
    priority (cond &&& ier) = 0 ↔ cond &&& ier = 0 := by
  have hvalid : cond &&& ier &&& ~~~uartIerValid = 0 := by
    rw [BitVec.and_assoc, hier]
    exact BitVec.and_zero
  have hall : ∀ req : Byte, req &&& ~~~uartIerValid = 0 → (priority req = 0 ↔ req = 0) := by
    decide +kernel
  exact hall _ hvalid

/-- The flags do not touch the identification. -/
theorem getIIRVal_code (c : Com) : c.getIIRVal &&& 7 = Com.iirCode c.iirMask := by
  have hflags : ∀ cti fifo : Bool,
      ((if cti then (1 : Byte) else 0) ||| (if fifo then 0x18 else 0)) <<< 3 &&& 7 = 0 := by
    decide
  have hcode : Com.iirCode c.iirMask &&& 7 = Com.iirCode c.iirMask := by
    unfold Com.iirCode
    split_ifs <;> rfl
  unfold Com.getIIRVal Com.iirFlags
  rw [BitVec.and_or_distrib_right, hflags, hcode]
  exact BitVec.zero_or

/-- The identification codes differ. -/
theorem iirCode_inj {m n : Byte} (hm : m ∈ [0, lsIntr, rxIntr, txIntr, msIntr])
    (hn : n ∈ [0, lsIntr, rxIntr, txIntr, msIntr]) : Com.iirCode m = Com.iirCode n ↔ m = n := by
  have hall : ∀ m ∈ [0, lsIntr, rxIntr, txIntr, msIntr],
      ∀ n ∈ [0, lsIntr, rxIntr, txIntr, msIntr], Com.iirCode m = Com.iirCode n ↔ m = n := by
    decide
  exact hall m hm n hn

theorem clearIntCond_intCondition (c : Com) (val : Byte) :
    (c.clearIntCond val).intCondition = c.intCondition &&& ~~~val := by
  unfold Com.clearIntCond
  dsimp only
  split_ifs <;> rfl

/-- What a read of IIR returns and clears. -/
theorem readIIR_spec (c : Com) :
    c.readIIR.1 &&& 7 = Com.iirCode (seenMask c) ∧
      c.readIIR.2.intCondition =
        if Com.iirCode (seenMask c) &&& uartIirThri ≠ 0 then c.intCondition &&& ~~~txIntr
        else c.intCondition := by
  have hrecalc : (if c.iirMask = 0 then c.recalcIIR else c) = { c with iirMask := seenMask c } := by
    unfold seenMask
    by_cases hmask : c.iirMask = 0
    · rw [if_pos hmask, if_pos hmask, recalcIIR_eq hmask]
    · rw [if_neg hmask, if_neg hmask]
  unfold Com.readIIR
  dsimp only
  rw [hrecalc]
  have hcode := getIIRVal_code { c with iirMask := seenMask c }
  have hthri : Com.getIIRVal { c with iirMask := seenMask c } &&& uartIirThri =
      Com.iirCode (seenMask c) &&& uartIirThri := by
    have hpart : (7 : Byte) &&& uartIirThri = uartIirThri := by decide
    rw [← hcode, BitVec.and_assoc, hpart]
  refine ⟨hcode, ?_⟩
  rw [hthri]
  split_ifs
  · exact clearIntCond_intCondition _ _
  · rfl

/-- A read of IIR is right if and only if the cached identification is up to date, and there is no
transmit condition to be cleared while line status is reported. -/
theorem readIIR_iff (h : Latched c) : Identifies c ↔ Heedful c (.inp .iirFcr) := by
  obtain ⟨hval, hcond⟩ := readIIR_spec c
  have hseen : seenMask c ∈ [0, lsIntr, rxIntr, txIntr, msIntr] := by
    unfold seenMask
    split_ifs
    · exact priority_mem _
    · exact h.mask
  have hmask : seenMask c = priority c.intRequest ↔
      c.iirMask = 0 ∨ c.iirMask = priority c.intRequest := by
    unfold seenMask
    by_cases hzero : c.iirMask = 0
    · rw [if_pos hzero]
      exact iff_of_true rfl (Or.inl hzero)
    · rw [if_neg hzero, or_iff_right hzero]
  have hclear : ∀ cond : Byte, cond &&& ~~~txIntr = cond ↔ cond &&& txIntr = 0 := by
    decide
  unfold Identifies
  rw [hval, hcond, iirCode_inj hseen (priority_mem _), hmask]
  refine and_congr_right fun hfresh => ?_
  rw [hmask.mpr hfresh]
  have hnone : Com.iirCode (priority c.intRequest) = uartIirNoInt ↔ c.intRequest = 0 :=
    (iirCode_inj (priority_mem _) (List.mem_cons_self ..)).trans (priority_eq_zero h.ier)
  rw [and_iff_right hnone]
  have hm := priority_mem c.intRequest
  generalize priority c.intRequest = m at hm
  by_cases hls : m = lsIntr
  · -- the code of line status has the bit of the transmitter
    subst hls
    rw [if_pos (by decide), if_neg (by decide), hclear]
    exact ⟨fun hnotx _ => hnotx, fun hnotx => hnotx rfl⟩
  · have hbit : ∀ m ∈ [0, lsIntr, rxIntr, txIntr, msIntr], m ≠ lsIntr →
        (Com.iirCode m &&& uartIirThri ≠ 0 ↔ Com.iirCode m = uartIirThri) := by
      decide
    simp only [hbit m hm hls]
    exact iff_of_true trivial fun hno => absurd hno hls

/-! ## Writing registers -/

theorem Sound.writeIER (w : World) (val : Byte) (h : Sound c) : Sound (c.writeIER w val) := by
  have hset {c : Com} (h : Sound c) :
      Sound (if Com.intRequest { c with ier := val &&& uartIerValid } = 0 then
        { c with ier := val &&& uartIerValid, line := false }
      else { c with ier := val &&& uartIerValid }) := by
    have hier : val &&& uartIerValid &&& ~~~uartIerValid = 0 := by
      rw [BitVec.and_assoc]
      exact BitVec.and_zero
    split_ifs with hreq
    · refine ⟨⟨?_, hier, h.mask⟩, ?_⟩
      · intro hno
        cases hno
      · intro hno
        cases hno
    · exact ⟨⟨fun _ => hreq, hier, h.mask⟩, h.enab⟩
  have hthri {c : Com} (h : Sound c) :
      Sound { c with intCondition := c.intCondition ||| txIntr } :=
    ⟨⟨fun hline => intRequest_or (h.request hline), h.ier, h.mask⟩, h.enab⟩
  have hwritten := hset (of_ite (p := decide (c.ier &&& txIntr = 0 ∧ val &&& txIntr ≠ 0)) (hthri h) h)
  exact of_ite (hwritten.serialIntEngine w 0).toSound hwritten

theorem clearIntCond_line (c : Com) (val : Byte) :
    (c.clearIntCond val).line = (c.line && decide (c.intCondition &&& ~~~val &&& c.ier ≠ 0)) := by
  unfold Com.clearIntCond Com.intRequest
  dsimp only
  split_ifs with hreq
  · rw [decide_eq_false (not_not_intro hreq), Bool.and_false]
  · rw [decide_eq_true hreq, Bool.and_true]

theorem clearIntCond_ier (c : Com) (val : Byte) : (c.clearIntCond val).ier = c.ier := by
  unfold Com.clearIntCond
  dsimp only
  split_ifs <;> rfl

/-- To clear the FIFOs clears their conditions. -/
theorem clearCmd_line (c : Com) :
    (c.uartClearFifo uartFcrClearCmd).line =
      (c.line && decide (c.intRequest &&& ~~~(lsIntr ||| rxIntr ||| txIntr) ≠ 0)) := by
  have hall : c.intCondition &&& ~~~(lsIntr ||| rxIntr) &&& ~~~txIntr &&& c.ier =
      c.intRequest &&& ~~~(lsIntr ||| rxIntr ||| txIntr) := by
    have hsplit : ~~~(lsIntr ||| rxIntr ||| txIntr) = ~~~(lsIntr ||| rxIntr) &&& ~~~txIntr := by
      decide
    unfold Com.intRequest
    rw [hsplit]
    ac_rfl
  have hfirst : c.intCondition &&& ~~~(lsIntr ||| rxIntr) &&& ~~~txIntr &&& c.ier ≠ 0 →
      c.intCondition &&& ~~~(lsIntr ||| rxIntr) &&& c.ier ≠ 0 :=
    intRequest_and
  unfold Com.uartClearFifo
  rw [if_pos (by decide), if_pos (by decide), clearIntCond_line]
  dsimp only
  rw [clearIntCond_line, clearIntCond_intCondition, clearIntCond_ier]
  dsimp only
  rw [← hall]
  by_cases hreq : c.intCondition &&& ~~~(lsIntr ||| rxIntr) &&& ~~~txIntr &&& c.ier = 0
  · rw [decide_eq_false (not_not_intro hreq), Bool.and_false, Bool.and_false]
  · rw [decide_eq_true hreq, decide_eq_true (hfirst hreq), Bool.and_true]

/-- Loopback mode is switched on, or it was on before. -/
theorem loop_changed {mcr val : Byte} (hval : val &&& uartMcrLoop ≠ 0) :
    (mcr ^^^ val) &&& uartMcrLoop ≠ 0 ↔ mcr &&& uartMcrLoop = 0 := by
  have hbit : ∀ b : Byte, b &&& uartMcrLoop = 0 ↔ b.getLsbD 4 = false := by
    decide
  rw [Ne, hbit, Bool.not_eq_false] at hval
  rw [Ne, hbit, hbit, BitVec.getLsbD_xor, hval]
  simp

/-- Without interrupts enabled, the engines leave the line alone. -/
theorem line_enginePred (b : Bool) : EnginePred fun c => c.intEnab = false ∧ c.line = b where
  same := fun h hs => ⟨hs.intEnab.trans h.1, hs.line.trans h.2⟩
  request := by
    intro c req h
    unfold Com.requestInt
    dsimp only
    split_ifs with hnone hassert
    · exact h
    · have henab : c.intEnab = true := hassert.1
      rw [h.1] at henab
      cases henab
    · exact h

theorem intEnab_irqPred (b : Bool) : IrqPred fun c => c.intEnab = b where
  same := fun h hs => hs.intEnab.trans h
  request := by
    intro c req h
    unfold Com.requestInt
    dsimp only
    split_ifs <;> exact h
  clear := by
    intro c val h
    unfold Com.clearIntCond
    dsimp only
    split_ifs <;> exact h

/-- `put_mcr` before the modem lines are looked at. -/
def Com.switchMode (c : Com) (val : Byte) : Com :=
  if (c.mcr ^^^ val) &&& uartMcrLoop ≠ 0 ∧ c.fifoEnable then
    { c with mcr := val &&& uartMcrValid }.uartClearFifo uartFcrClearCmd
  else { c with mcr := val &&& uartMcrValid }

/-- OUT2 enables interrupts. -/
theorem switchMode_intEnab (c : Com) (val : Byte) :
    (c.switchMode val).intEnab = decide (val &&& uartMcrOut2 ≠ 0) := by
  have hvalid : ∀ val : Byte,
      decide (val &&& uartMcrValid &&& uartMcrOut2 ≠ 0) = decide (val &&& uartMcrOut2 ≠ 0) := by
    decide
  have hset : Com.intEnab { c with mcr := val &&& uartMcrValid } =
      decide (val &&& uartMcrOut2 ≠ 0) := hvalid val
  have hP := intEnab_irqPred (decide (val &&& uartMcrOut2 ≠ 0))
  exact of_ite (P := fun c => c.intEnab = decide (val &&& uartMcrOut2 ≠ 0))
    (hP.uartClearFifo _ hset) hset

theorem Latched.switchMode (val : Byte) (h : Latched c) : Latched (c.switchMode val) := by
  have hset : Latched { c with mcr := val &&& uartMcrValid } := ⟨h.request, h.ier, h.mask⟩
  exact of_ite (latched_irqPred.uartClearFifo _ hset) hset

/-- When loopback mode is entered with FIFOs, their conditions do not hold the line. -/
theorem switchMode_line {val : Byte} (hloop : val &&& uartMcrLoop ≠ 0) :
    (c.switchMode val).line =
      (c.line && !decide (c.loop = false ∧ c.fifoEnable = true ∧
        c.intRequest &&& ~~~(lsIntr ||| rxIntr ||| txIntr) = 0)) := by
  have hchanged : (c.mcr ^^^ val) &&& uartMcrLoop ≠ 0 ↔ c.loop = false := by
    rw [loop_changed hloop, Com.loop, decide_eq_false_iff_not, not_not]
  unfold Com.switchMode
  by_cases hswitch : c.loop = false ∧ c.fifoEnable = true
  · rw [if_pos ⟨hchanged.mpr hswitch.1, hswitch.2⟩, clearCmd_line]
    simp only [hswitch, true_and, ← decide_not]
    rfl
  · rw [if_neg fun h => hswitch ⟨hchanged.mp h.1, h.2⟩]
    simp [← and_assoc, hswitch]

/-- In loopback mode, the modem status follows. -/
theorem EnginePred.putMcr {P : Com → Prop} (hP : EnginePred P) {val : Byte}
    (hloop : val &&& uartMcrLoop ≠ 0) (h : P (c.switchMode val)) : P (c.putMcr w val) := by
  have hmsr (v : Byte) : P { c.switchMode val with msr := v } :=
    hP.same h ⟨rfl, rfl, rfl, rfl, rfl⟩
  unfold Com.putMcr
  dsimp only
  rw [if_pos hloop]
  exact of_ite (hP.serialIntEngine w msIntr (hmsr _)) (hmsr _)

/-- Outside loopback mode, the line follows OUT2. -/
theorem putMcr_line {val : Byte} (hloop : val &&& uartMcrLoop = 0) :
    c.putMcr w val =
      if (c.switchMode val).intEnab then (c.switchMode val).serialIntEngine w 0
      else { c.switchMode val with line := false } := by
  unfold Com.putMcr
  dsimp only
  rw [if_neg (not_not_intro hloop)]
  rfl

/-- A write of MCR with OUT2 set, or outside loopback mode, keeps the line right. -/
theorem Sound.putMcr {val : Byte} (h : Sound c)
    (hval : val &&& uartMcrLoop = 0 ∨ val &&& uartMcrOut2 ≠ 0) : Sound (c.putMcr w val) := by
  have hlatched := h.toLatched.switchMode val
  by_cases hloop : val &&& uartMcrLoop = 0
  · rw [putMcr_line hloop]
    split_ifs with henab
    · exact (Sound.serialIntEngine w 0 ⟨hlatched, fun _ => henab⟩).toSound
    · refine ⟨⟨?_, hlatched.ier, hlatched.mask⟩, ?_⟩
      · intro hno
        cases hno
      · intro hno
        cases hno
  · have henab : (c.switchMode val).intEnab = true := by
      rw [switchMode_intEnab]
      exact decide_eq_true (hval.resolve_left hloop)
    exact sound_irqPred.putMcr hloop ⟨hlatched, fun _ => henab⟩

/-- With OUT2 clear in loopback mode, nothing looks at the line. -/
theorem putMcr_loop_spec {val : Byte} (hloop : val &&& uartMcrLoop ≠ 0)
    (hout2 : val &&& uartMcrOut2 = 0) :
    (c.putMcr w val).intEnab = false ∧
      (c.putMcr w val).line =
        (c.line && !decide (c.loop = false ∧ c.fifoEnable = true ∧
          c.intRequest &&& ~~~(lsIntr ||| rxIntr ||| txIntr) = 0)) := by
  have henab : (c.switchMode val).intEnab = false := by
    rw [switchMode_intEnab]
    exact decide_eq_false (not_not_intro hout2)
  rw [← switchMode_line hloop]
  exact (line_enginePred (c.switchMode val).line).putMcr hloop ⟨henab, rfl⟩

/-- The write of MCR in loopback mode with OUT2 clear is right if and only if the line was not
asserted, or everything that was pending is cleared. -/
theorem putMcr_loop_iff {val : Byte} (h : Settled c) (hloop : val &&& uartMcrLoop ≠ 0)
    (hout2 : val &&& uartMcrOut2 = 0) :
    (c.putMcr w val).line = false ↔ Heedful c (.out .mcr val) := by
  rw [(putMcr_loop_spec hloop hout2).2]
  have hline := h.lineOk
  by_cases hpending : c.intEnab = true ∧ c.intRequest ≠ 0
  · rw [hline.mpr hpending, Bool.true_and, Bool.not_eq_false', decide_eq_true_iff]
    exact ⟨fun hall _ _ _ _ => hall, fun hall => hall hloop hout2 hpending.1 hpending.2⟩
  · rw [eq_false_of_ne_true fun hset => hpending (hline.mp hset), Bool.false_and]
    exact iff_of_true rfl fun _ _ henab hreq => absurd ⟨henab, hreq⟩ hpending

/-! ## Steps and runs -/

/-- A read of IIR keeps the line right, whatever it reports. -/
theorem Settled.readIIR (h : Settled c) : Settled c.readIIR.2 := by
  have hrecalc : Settled (if c.iirMask = 0 then c.recalcIIR else c) := by
    by_cases hmask : c.iirMask = 0
    · rw [if_pos hmask, recalcIIR_eq hmask]
      exact ⟨⟨⟨h.request, h.ier, priority_mem _⟩, h.enab⟩, h.assert⟩
    · rwa [if_neg hmask]
  exact of_ite (settled_irqPred.clear _ hrecalc) hrecalc

theorem Settled.doSerialIn (w : World) (reg : Reg) (h : Settled c) :
    Settled (c.doSerialIn w reg).2 := by
  have hP := settled_irqPred
  cases reg with
  | data =>
      unfold Com.doSerialIn
      dsimp only
      split_ifs
      · exact h
      · exact hP.getRx w h
  | ier =>
      unfold Com.doSerialIn
      dsimp only
      split_ifs <;> exact h
  | iirFcr => exact h.readIIR
  | lsr => exact hP.getLsr h
  | msr => exact hP.getMsr w h
  | lcr | mcr | scr => exact h

/-- A register write leaves the line to the interrupt engine. -/
theorem Sound.writeReg {reg : Reg} {val : Byte} (h : Sound c)
    (hmcr : reg = .mcr → val &&& uartMcrLoop = 0 ∨ val &&& uartMcrOut2 ≠ 0)
    (ht : c.writeReg w val reg = some t) : Sound t := by
  have hP := sound_irqPred
  have hset {t : Com} (hs : SameIrq c t) : Sound t := hP.same h hs
  unfold Com.writeReg at ht
  cases reg with
  | data =>
      dsimp only at ht
      split_ifs at ht
      · obtain rfl := Option.some.inj ht
        exact hset ⟨rfl, rfl, rfl, rfl, rfl⟩
      · exact hP.putTx w h ht
  | ier =>
      obtain rfl := Option.some.inj ht
      exact of_ite (hset ⟨rfl, rfl, rfl, rfl, rfl⟩) (h.writeIER w val)
  | iirFcr => exact Option.some.inj ht ▸ hP.putFcr val h
  | lcr => exact Option.some.inj ht ▸ hP.putLcr w val h
  | mcr => exact Option.some.inj ht ▸ h.putMcr (hmcr rfl)
  | lsr => exact Option.some.inj ht ▸ hP.putLsr w val h
  | msr => exact Option.some.inj ht ▸ hP.putMsr w val h
  | scr =>
      obtain rfl := Option.some.inj ht
      exact hset ⟨rfl, rfl, rfl, rfl, rfl⟩

/-- Operations other than a write of MCR in loopback mode with OUT2 clear. -/
theorem Settled.step {op : Op} (h : Settled c)
    (hop : ∀ val, op = .out .mcr val → val &&& uartMcrLoop = 0 ∨ val &&& uartMcrOut2 ≠ 0)
    (ht : step w c op = some t) : Settled t := by
  have hP := settled_irqPred
  cases op with
  | inp reg => exact Option.some.inj ht ▸ h.doSerialIn w reg
  | out reg val =>
      obtain ⟨u, hu, rfl⟩ := Option.map_eq_some_iff.mp ht
      exact Sound.serialIntEngine w 0
        (h.toSound.writeReg (fun hreg => hop val (congrArg (Op.out · val) hreg)) hu)
  | push bs => exact Option.some.inj ht ▸ hP.serialRxPush w bs h
  | fill => exact Option.some.inj ht ▸ hP.fill w h
  | update => exact Option.some.inj ht ▸ hP.serialUpdate w h
  | receive => exact Option.some.inj ht ▸ hP.receiveEngine w h
  | timeouts => exact Option.some.inj ht ▸ hP.receiveTimeouts w h
  | transmit => exact Option.some.inj ht ▸ hP.transmitEngine w h
  | modstat => exact Option.some.inj ht ▸ hP.modstatEngine w h
  | interrupt req => exact Option.some.inj ht ▸ hP.serialIntEngine w req h

/-- A write of MCR in loopback mode with OUT2 clear. -/
theorem mcrStep_iff {val : Byte} (h : Settled c) (hloop : val &&& uartMcrLoop ≠ 0)
    (hout2 : val &&& uartMcrOut2 = 0) (ht : step w c (.out .mcr val) = some t) :
    (t.LineOk ↔ Heedful c (.out .mcr val)) ∧ (Heedful c (.out .mcr val) → Settled t) := by
  obtain rfl := Option.some.inj ht
  obtain ⟨henab, -⟩ := @putMcr_loop_spec w c val hloop hout2
  have hiff := @putMcr_loop_iff w c val h hloop hout2
  obtain ⟨henab', hline⟩ :=
    (line_enginePred (c.putMcr w val).line).serialIntEngine w 0 ⟨henab, rfl⟩
  have hlatched := latched_irqPred.putMcr (w := w) hloop (h.toLatched.switchMode val)
  constructor
  · rw [← hiff, ← hline]
    unfold Com.LineOk
    rw [henab']
    simp
  · intro hheed
    have hoff := hiff.mpr hheed
    refine Sound.serialIntEngine w 0 ⟨hlatched, fun hon => ?_⟩
    rw [hoff] at hon
    cases hon

/-- An operation signals what it should if and only if it is heedful. -/
theorem signals_iff_heedful {op : Op} (h : Settled c) : Signals w c op ↔ Heedful c op := by
  by_cases hmcr : ∃ val, op = .out .mcr val ∧ val &&& uartMcrLoop ≠ 0 ∧ val &&& uartMcrOut2 = 0
  · obtain ⟨val, rfl, hloop, hout2⟩ := hmcr
    have hstep : step w c (.out .mcr val) = some ((c.putMcr w val).serialIntEngine w 0) := rfl
    rw [← (mcrStep_iff h hloop hout2 hstep).1]
    constructor
    · exact fun hsig => hsig.1 _ hstep
    · refine fun hok => ⟨fun t ht => ?_, fun hno => nomatch hno⟩
      rwa [← Option.some.inj (hstep.symm.trans ht)]
  have hline : ∀ t, step w c op = some t → t.LineOk := by
    intro t ht
    refine (h.step (fun val hop => ?_) ht).lineOk
    by_contra hno
    rw [not_or, not_not] at hno
    exact hmcr ⟨val, hop, hno⟩
  by_cases hiir : op = .inp .iirFcr
  · subst hiir
    rw [← readIIR_iff h.toLatched]
    exact ⟨fun hsig => hsig.2 rfl, fun hident => ⟨hline, fun _ => hident⟩⟩
  · refine iff_of_true ⟨hline, fun hno => absurd hno hiir⟩ ?_
    cases op with
    | inp reg =>
        cases reg with
        | iirFcr => exact absurd rfl hiir
        | _ => trivial
    | out reg val =>
        cases reg with
        | mcr => exact fun hloop hout2 => absurd ⟨val, rfl, hloop, hout2⟩ hmcr
        | _ => trivial
    | _ => trivial

theorem Settled.step_of_heedful {op : Op} (h : Settled c) (hheed : Heedful c op)
    (ht : Serial.step w c op = some t) : Settled t := by
  by_cases hmcr : ∃ val, op = .out .mcr val ∧ val &&& uartMcrLoop ≠ 0 ∧ val &&& uartMcrOut2 = 0
  · obtain ⟨val, rfl, hloop, hout2⟩ := hmcr
    exact (mcrStep_iff h hloop hout2 ht).2 hheed
  · refine h.step (fun val hop => ?_) ht
    by_contra hno
    rw [not_or, not_not] at hno
    exact hmcr ⟨val, hop, hno⟩

theorem Com.Initial.settled (hc : c.Initial) : Settled c := by
  refine ⟨⟨⟨?_, ?_, ?_⟩, ?_⟩, ?_⟩
  · rw [hc.line]
    intro hno
    cases hno
  · rw [hc.ier]
    decide
  · rw [hc.iirMask]
    decide
  · rw [hc.line]
    intro hno
    cases hno
  · intro _ hreq
    unfold Com.intRequest at hreq
    rw [hc.ier] at hreq
    exact absurd BitVec.and_zero hreq

theorem Settled.admits_signals_iff (h : Settled c) (ops : List Op) :
    Run.Admits (Serial.step w) (Signals w) c ops ↔ Run.Admits (Serial.step w) Heedful c ops :=
  Run.admits_congr Settled (fun _ _ _ h hheed ht => h.step_of_heedful hheed ht)
    (fun _ _ h => signals_iff_heedful h) h

/-- In a run, the line and the identification are as promised if and only if IIR is read only with
an up-to-date cached identification, and without a transmit condition while there is line status;
and OUT2 is not cleared in loopback mode while the line is asserted, unless what asserts it goes
with the FIFOs. -/
theorem interrupts_iff (hc : c.Initial) (ops : List Op) :
    Run.Admits (step w) (Signals w) c ops ↔ Run.Admits (step w) Heedful c ops :=
  hc.settled.admits_signals_iff ops

/-! ## A port with interrupts enabled -/

instance (c : Com) : ∀ op : Op, Decidable (Heedful c op)
  | .inp .iirFcr => inferInstanceAs (Decidable (_ ∧ (_ → _)))
  | .out .mcr val => inferInstanceAs (Decidable (val &&& uartMcrLoop ≠ 0 → _ → _ → _ → _))
  | .out .data _ | .out .ier _ | .out .iirFcr _ | .out .lcr _ | .out .lsr _ | .out .msr _
  | .out .scr _ | .inp .data | .inp .ier | .inp .lcr | .inp .mcr | .inp .lsr | .inp .msr
  | .inp .scr | .push _ | .fill | .update | .receive | .timeouts | .transmit | .modstat
  | .interrupt _ => .isTrue trivial

/-- Bytes are received and sent, and the interrupts identified. -/
theorem interrupts_quiet :
    Run.Admits (step quietWorld) (Signals quietWorld) resetCom
      [.out .mcr 0x08, .out .ier 0x0f, .inp .iirFcr, .out .data 0x41, .inp .iirFcr,
        .push [0x42], .inp .iirFcr, .inp .data, .inp .iirFcr] :=
  (interrupts_iff resetCom_initial _).mpr (by decide +kernel)

/-- Line status and the transmitter are both pending: the read of IIR reports line status, and the
transmit interrupt is lost. -/
theorem transmit_interrupt_lost :
    resetCom.Initial ∧ ¬Run.Admits (step quietWorld) (Signals quietWorld) resetCom
      [.out .mcr 0x08, .out .ier 0x0f, .out .lsr 0x22, .inp .iirFcr] := by
  refine ⟨resetCom_initial, ?_⟩
  rw [resetCom_initial.settled.admits_signals_iff]
  decide +kernel

end Serial
end Dosemu
