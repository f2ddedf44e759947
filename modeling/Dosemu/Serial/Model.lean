import Dosemu.Lib.Fifo

/-!
# The emulated 16550 UART

The registers of one serial port, its receive buffer, and the engines that keep
them up to date.  The port is open and driven by a tty.

What the host answers (bytes of a `read`, the state of the modem lines, the length
of the transmit queue) is a function of time, and `clock` counts the questions.
`line` is the level of the port's interrupt line at the PIC.  `log` records which
bytes entered and left the receive buffer.  The lines that the port drives (RTS,
DTR, break) and the line settings have no effect here.
-/

namespace Dosemu
namespace Serial

abbrev Byte := BitVec 8

/-! ## Constants -/

/-- `RX_BUFFER_SIZE` -/
def rxBufferSize : Nat := 128

/-- `TIMEOUT_RX` -/
def timeoutRx : Nat := 3

/-- `TX_QUEUE_THRESHOLD` -/
def txQueueThreshold : Nat := 14

def uartFcrEnableFifo : Byte := 0x01
def uartFcrClearRcvr : Byte := 0x02
def uartFcrClearXmit : Byte := 0x04
def uartFcrClearCmd : Byte := uartFcrClearRcvr ||| uartFcrClearXmit
def uartFcrTrigger14 : Byte := 0xC0

def uartLcrDlab : Byte := 0x80
def uartLcrSbc : Byte := 0x40
def uartLcrWlen8 : Byte := 0x03

def uartLsrTemt : Byte := 0x40
def uartLsrThre : Byte := 0x20
def uartLsrOe : Byte := 0x02
def uartLsrDr : Byte := 0x01
def uartLsrErr : Byte := 0x1e

def uartIirNoInt : Byte := 0x01
def uartIirMsi : Byte := 0x00
def uartIirThri : Byte := 0x02
def uartIirRdi : Byte := 0x04
def uartIirRlsi : Byte := 0x06

def uartIerValid : Byte := 0x0f

def uartMcrLoop : Byte := 0x10
def uartMcrOut2 : Byte := 0x08
def uartMcrOut1 : Byte := 0x04
def uartMcrRts : Byte := 0x02
def uartMcrDtr : Byte := 0x01
def uartMcrValid : Byte := 0x1F

def uartMsrDcd : Byte := 0x80
def uartMsrRi : Byte := 0x40
def uartMsrDsr : Byte := 0x20
def uartMsrCts : Byte := 0x10
def uartMsrDelta : Byte := 0x0F
def uartMsrStat : Byte := 0xF0

def rxIntr : Byte := 1
def txIntr : Byte := 2
def lsIntr : Byte := 4
def msIntr : Byte := 8

/-! ## The receive buffer -/

/-- `rx_buf` and its two cursors. -/
structure RxQueue where
  rxBuf : Nat → Byte
  rxBufStart : Nat
  rxBufEnd : Nat
  log : List (Fifo.Event Byte)

namespace RxQueue

/-- `RX_BUF_BYTES` -/
def bytes (q : RxQueue) : Nat :=
  q.rxBufEnd - q.rxBufStart

/-- `rx_buffer_slide` -/
def slide (q : RxQueue) : RxQueue :=
  if q.rxBufStart = 0 then q
  else
    { q with
      rxBuf := fun i => if i < q.bytes then q.rxBuf (i + q.rxBufStart) else q.rxBuf i
      rxBufEnd := q.rxBufEnd - q.rxBufStart
      rxBufStart := 0 }

/-- Bytes that arrive behind the last one. -/
def append (q : RxQueue) (bs : List Byte) : RxQueue :=
  { q with
    rxBuf := fun i =>
      if q.rxBufEnd ≤ i ∧ i < q.rxBufEnd + bs.length then bs.getD (i - q.rxBufEnd) 0 else q.rxBuf i
    rxBufEnd := q.rxBufEnd + bs.length
    log := q.log ++ [.accept bs] }

/-- A byte that is looped back.  A store behind the buffer hits other fields of the port: there is
no state after it. -/
def store (q : RxQueue) (b : Byte) : Option RxQueue :=
  if q.rxBufEnd < rxBufferSize then some (q.append [b]) else none

/-- Take the first byte. -/
def take (q : RxQueue) : Byte × RxQueue :=
  (q.rxBuf q.rxBufStart,
    { q with
      rxBufStart := q.rxBufStart + 1
      log := q.log ++ [.deliver (q.rxBuf q.rxBufStart)] })

/-- Drop what is buffered. -/
def clear (q : RxQueue) : RxQueue :=
  { q with rxBufStart := 0, rxBufEnd := 0, log := q.log ++ [.clear] }

end RxQueue

/-! ## The port -/

/-- What is fixed for a port. -/
structure Config where
  pseudo : Bool
  isFile : Bool
  hasDev : Bool
  systemRtscts : Bool

/-- What `read` answers. -/
inductive ReadAnswer where
  | eof
  | again
  | error
  | data (first : Byte) (rest : List Byte)

/-- The host over time. -/
structure World where
  cfg : Config
  read : Nat → ReadAnswer
  queued : Nat → Int
  msr : Nat → Byte
  writes : Nat → Bool

/-- `com_t` -/
structure Com where
  rx : RxQueue
  isClosed : Bool
  rxTimeout : Nat
  rxFifoTrigger : Nat
  rxFifoSize : Nat
  intCondition : Byte
  dll : Byte
  dlm : Byte
  ier : Byte
  iirMask : Byte
  cti : Bool
  fifoEnable : Bool
  lcr : Byte
  fcReg : Byte
  mcr : Byte
  lsr : Byte
  msr : Byte
  scr : Byte
  txCnt : Nat
  line : Bool
  clock : Nat

namespace Com

/-- `INT_REQUEST` -/
def intRequest (c : Com) : Byte :=
  c.intCondition &&& c.ier

/-- `INT_ENAB` -/
def intEnab (c : Com) : Bool :=
  c.mcr &&& uartMcrOut2 ≠ 0

/-- Loopback mode is on. -/
def loop (c : Com) : Bool :=
  c.mcr &&& uartMcrLoop ≠ 0

/-- `TX_TRIGGER` -/
def txTrigger (c : Com) : Bool :=
  c.lsr &&& uartLsrThre = 0

/-- `DLAB` -/
def dlab (c : Com) : Bool :=
  c.lcr &&& uartLcrDlab ≠ 0

/-- The data ready bit. -/
def dr (c : Com) : Bool :=
  c.lsr &&& uartLsrDr ≠ 0

/-- Set the data ready bit. -/
def setDr (c : Com) : Com :=
  { c with lsr := c.lsr ||| uartLsrDr }

/-- Clear the data ready bit. -/
def clearDr (c : Com) : Com :=
  { c with lsr := c.lsr &&& ~~~uartLsrDr }

/-- `IOSEL_CUR` -/
def ioselCur (c : Com) (w : World) : Bool :=
  !w.cfg.isFile && !c.isClosed

/-- `clear_int_cond` -/
def clearIntCond (c : Com) (val : Byte) : Com :=
  let c := { c with intCondition := c.intCondition &&& ~~~val, iirMask := 0 }
  if c.intRequest = 0 then { c with line := false } else c

/-- `recalc_IIR` -/
def recalcIIR (c : Com) : Com :=
  let tmp := c.intRequest
  if tmp = 0 then { c with iirMask := 0 }
  else if tmp &&& lsIntr ≠ 0 then { c with iirMask := lsIntr }
  else if tmp &&& rxIntr ≠ 0 then { c with iirMask := rxIntr }
  else if tmp &&& txIntr ≠ 0 then { c with iirMask := txIntr }
  else if tmp &&& msIntr ≠ 0 then { c with iirMask := msIntr }
  else c

/-- `IIR.flags` -/
def iirFlags (c : Com) : Byte :=
  (if c.cti then 1 else 0) ||| (if c.fifoEnable then 0x18 else 0)

/-- The identification of a condition in `get_IIR_val`. -/
def iirCode (mask : Byte) : Byte :=
  if mask = 0 then uartIirNoInt
  else if mask = lsIntr then uartIirRlsi
  else if mask = rxIntr then uartIirRdi
  else if mask = txIntr then uartIirThri
  else if mask = msIntr then uartIirMsi
  else 0

/-- `get_IIR_val` -/
def getIIRVal (c : Com) : Byte :=
  c.iirFlags <<< 3 ||| iirCode c.iirMask

/-- `uart_clear_fifo` -/
def uartClearFifo (c : Com) (fifo : Byte) : Com :=
  let c :=
    if fifo &&& uartFcrClearRcvr ≠ 0 then
      { c with
        lsr := c.lsr &&& ~~~(uartLsrErr ||| uartLsrDr)
        rx := c.rx.clear
        cti := false
        rxTimeout := 0 }.clearIntCond (lsIntr ||| rxIntr)
    else c
  if fifo &&& uartFcrClearXmit ≠ 0 then
    { c with lsr := c.lsr ||| (uartLsrTemt ||| uartLsrThre) }.clearIntCond txIntr
  else c

/-! ## The engines -/

/-- `update_tx_cnt` -/
def updateTxCnt (c : Com) (w : World) : Com :=
  { c with txCnt := (w.queued c.clock).toNat, clock := c.clock + 1 }

/-- `serial_int_engine` behind the test of `TX_TRIGGER`. -/
def requestInt (c : Com) (intRequested : Byte) : Com :=
  if intRequested = 0 ∧ c.intCondition = 0 then c
  else
    let c := { c with intCondition := c.intCondition ||| intRequested }
    if c.intEnab ∧ c.intRequest ≠ 0 then { c with line := true } else c

/-- No receive or transmit interrupts while DLAB is set. -/
def dlabMask (c : Com) (intRequested : Byte) : Byte :=
  if c.dlab then intRequested &&& ~~~(rxIntr ||| txIntr) else intRequested

/-- The end of `transmit_engine`.  THRE is set here, so that the interrupt engine does not come
back. -/
def transmitDone (c : Com) : Com :=
  let c := { c with lsr := c.lsr ||| uartLsrThre }
  let c := if c.txCnt = 0 then { c with lsr := c.lsr ||| uartLsrTemt } else c
  c.requestInt (c.dlabMask txIntr)

/-- `transmit_engine` -/
def transmitEngine (c : Com) (w : World) : Com :=
  if !c.txTrigger then
    if c.lsr &&& uartLsrTemt = 0 then
      let c := if c.txCnt ≠ 0 then c.updateTxCnt w else c
      if c.txCnt = 0 then { c with lsr := c.lsr ||| uartLsrTemt } else c
    else c
  else
    let cts := !w.cfg.systemRtscts || (w.msr c.clock) &&& uartMsrCts ≠ 0
    let c := if w.cfg.systemRtscts then { c with clock := c.clock + 1 } else c
    if !cts then c
    else
      let c := if c.txCnt > txQueueThreshold then c.updateTxCnt w else c
      if c.txCnt > txQueueThreshold then c else c.transmitDone

/-- `serial_int_engine` -/
def serialIntEngine (c : Com) (w : World) (intRequested : Byte) : Com :=
  let intRequested := c.dlabMask intRequested
  let c := if c.txTrigger then c.transmitEngine w else c
  c.requestInt intRequested

/-- `receive_engine` -/
def receiveEngine (c : Com) (w : World) : Com :=
  if c.loop then c
  else if c.rx.bytes = 0 then c
  else
    let c := if !c.dr ∧ c.fifoEnable then { c with rxTimeout := timeoutRx } else c
    let c := c.setDr
    if !c.fifoEnable ∨ c.rxFifoTrigger ≤ c.rx.bytes then
      { c with rxTimeout := 0 }.serialIntEngine w rxIntr
    else c

/-- `receive_timeouts` -/
def receiveTimeouts (c : Com) (w : World) : Com :=
  if c.fifoEnable ∧ c.rx.bytes ≠ 0 ∧ c.rxTimeout ≠ 0 then
    let c := { c with rxTimeout := c.rxTimeout - 1 }
    if c.rxTimeout = 0 then { c with cti := true }.serialIntEngine w rxIntr else c
  else c

/-- `msr_compute_delta_bits` -/
def msrComputeDeltaBits (oldmsr newmsr : Byte) : Byte :=
  ((oldmsr ^^^ newmsr) &&& ~~~(newmsr &&& uartMsrRi)) >>> 4 &&& uartMsrDelta

/-- `modstat_engine` -/
def modstatEngine (c : Com) (w : World) : Com :=
  if c.loop then c
  else
    let newmsr :=
      if w.cfg.pseudo then
        if c.isClosed ∧ c.rx.bytes = 0 then 0 else uartMsrCts ||| uartMsrDsr ||| uartMsrDcd
      else w.msr c.clock
    let c := if w.cfg.pseudo then c else { c with clock := c.clock + 1 }
    let delta := msrComputeDeltaBits c.msr newmsr
    let c := { c with msr := (c.msr &&& uartMsrDelta) ||| newmsr ||| delta }
    if delta ≠ 0 then c.serialIntEngine w msIntr else c

/-- `serial_rx_push` -/
def serialRxPush (c : Com) (w : World) (bs : List Byte) : Nat × Com :=
  if c.rx.bytes + bs.length > rxBufferSize then (0, c)
  else (bs.length, { c with rx := c.rx.slide.append bs }.receiveEngine w)

/-- `tty_uart_fill` -/
def ttyUartFill (c : Com) (w : World) : Nat × Com :=
  if c.loop then (0, { c with isClosed := true })
  else if rxBufferSize ≤ c.rx.bytes then (0, { c with isClosed := true })
  else
    let answer := w.read c.clock
    let c := { c with rx := c.rx.slide, clock := c.clock + 1 }
    match answer with
    | .eof => (0, { c with isClosed := true })
    | .again => (0, { c with isClosed := false })
    | .error => (0, c)
    | .data first rest =>
        let bs := (first :: rest).take (rxBufferSize - c.rx.rxBufEnd)
        (bs.length, { c with isClosed := false, rx := c.rx.append bs })

/-- A fill, and the receive engine if it got anything. -/
def fill (c : Com) (w : World) : Com :=
  let (size, c) := c.ttyUartFill w
  if 0 < size then c.receiveEngine w else c

/-- `serial_update` -/
def serialUpdate (c : Com) (w : World) : Com :=
  let c := if c.rx.bytes < c.rxFifoTrigger ∧ !c.ioselCur w ∧ w.cfg.hasDev then c.fill w else c
  let c := if c.rx.bytes ≠ 0 then c.receiveTimeouts w else c
  (c.transmitEngine w).modstatEngine w

/-! ## The registers -/

/-- `get_rx` after the attempt to get data. -/
def takeRx (c : Com) (w : World) : Byte × Com :=
  if c.rx.bytes = 0 then (0, if c.dr then c.clearDr else c)
  else
    let (val, rx) := c.rx.take
    let c := ({ c with rx := rx }.clearIntCond rxIntr).receiveEngine w
    (val, if c.rx.bytes = 0 then c.clearDr else c)

/-- `get_rx` -/
def getRx (c : Com) (w : World) : Byte × Com :=
  let c := { c with rxTimeout := 0, cti := false }
  let c := if c.rx.bytes = 0 ∧ !c.ioselCur w ∧ w.cfg.hasDev then c.fill w else c
  c.takeRx w

/-- `get_msr` -/
def getMsr (c : Com) (w : World) : Byte × Com :=
  let c := c.modstatEngine w
  (c.msr, { c with msr := c.msr &&& uartMsrStat }.clearIntCond msIntr)

/-- `get_lsr` -/
def getLsr (c : Com) : Byte × Com :=
  let val := c.lsr
  let c := c.clearIntCond lsIntr
  (val, { c with lsr := c.lsr &&& ~~~uartLsrErr })

/-- The byte that a word of the line is wide enough for. -/
def wordAdjust (lcr val : Byte) : Byte :=
  match (lcr &&& uartLcrWlen8).toNat with
  | 2 => val &&& 0x7f
  | 1 => val &&& 0x3f
  | 0 => val &&& 0x1f
  | _ => val

/-- Indicate an overrun. -/
def overrun (c : Com) (w : World) : Com :=
  { c with lsr := c.lsr ||| uartLsrOe }.serialIntEngine w lsIntr

/-- A byte was looped back in FIFO mode. -/
def loopedFifo (c : Com) (w : World) (rx : RxQueue) : Com :=
  -- the cursor stands behind the byte, so this slides one byte too late
  let c := { c with rx := if rxBufferSize ≤ rx.rxBufEnd - 1 then rx.slide else rx }
  let c :=
    if c.rxFifoTrigger ≤ c.rx.bytes then { c with rxTimeout := 0 }.serialIntEngine w rxIntr else c
  c.setDr

/-- A byte was looped back without FIFO mode.  It does not replace the byte before it. -/
def loopedByte (c : Com) (w : World) (rx : RxQueue) : Com :=
  let c := { c with rx := rx }
  if c.dr then c.overrun w else { c.setDr with rxTimeout := 0 }.serialIntEngine w rxIntr

/-- `put_tx` in loopback mode. -/
def loopTx (c : Com) (w : World) (val : Byte) : Option Com :=
  let val := wordAdjust c.lcr val
  if c.fifoEnable then
    if c.rxFifoSize ≤ c.rx.bytes then some (c.overrun w).setDr
    else (c.rx.store val).map (c.loopedFifo w)
  else (c.rx.store val).map (c.loopedByte w)

/-- `put_tx` on the line; what becomes of the byte is up to the host. -/
def lineTx (c : Com) (w : World) : Com :=
  if !c.fifoEnable ∧ c.txTrigger then c
  else
    let ok := w.writes c.clock
    let c := { c with clock := c.clock + 1 }
    let c :=
      if ok then
        { c with lsr := c.lsr &&& ~~~(uartLsrThre ||| uartLsrTemt), txCnt := c.txCnt + 1 }
      else c
    c.transmitEngine w

/-- `put_tx` -/
def putTx (c : Com) (w : World) (val : Byte) : Option Com :=
  let c := c.clearIntCond txIntr
  if c.loop then { c with rxTimeout := 0 }.loopTx w val else some (c.lineTx w)

/-- The trigger level in the upper bits of FCR. -/
def triggerLevel (val : Byte) : Nat :=
  match (val &&& uartFcrTrigger14).toNat with
  | 0x00 => 1
  | 0x40 => 4
  | 0x80 => 8
  | _ => 14

/-- `put_fcr` -/
def putFcr (c : Com) (val : Byte) : Com :=
  let val := val &&& 0xcf
  if val &&& uartFcrEnableFifo ≠ 0 then
    let c :=
      if c.fcReg &&& uartFcrEnableFifo = 0 then c.uartClearFifo uartFcrClearCmd
      else if val &&& uartFcrClearCmd ≠ 0 then c.uartClearFifo (val &&& uartFcrClearCmd)
      else c
    { c with
      fcReg := (val &&& ~~~uartFcrTrigger14) ||| uartFcrEnableFifo
      fifoEnable := true
      rxFifoTrigger := triggerLevel val }
  else
    { c with
      fifoEnable := false
      fcReg := c.fcReg &&& ~~~uartFcrEnableFifo }.uartClearFifo uartFcrClearCmd

/-- `put_lcr` -/
def putLcr (c : Com) (w : World) (val : Byte) : Com :=
  let changed := c.lcr ^^^ val
  let c := { c with lcr := val }
  if changed &&& ~~~uartLcrSbc ≠ 0 ∧ !c.dlab ∧ !w.cfg.pseudo then c.uartClearFifo uartFcrClearCmd
  else c

/-- `convert_bit` -/
def convertBit (testval inbit outbit : Byte) : Byte :=
  if testval &&& inbit ≠ 0 then outbit else 0

/-- `put_mcr` -/
def putMcr (c : Com) (w : World) (val : Byte) : Com :=
  let changed := c.mcr ^^^ val
  let c := { c with mcr := val &&& uartMcrValid }
  let c :=
    if changed &&& uartMcrLoop ≠ 0 ∧ c.fifoEnable then c.uartClearFifo uartFcrClearCmd else c
  if val &&& uartMcrLoop ≠ 0 then
    let newmsr := convertBit val uartMcrRts uartMsrCts ||| convertBit val uartMcrDtr uartMsrDsr |||
      convertBit val uartMcrOut1 uartMsrRi ||| convertBit val uartMcrOut2 uartMsrDcd
    let delta := msrComputeDeltaBits c.msr newmsr
    let c := { c with msr := (c.msr &&& uartMsrDelta) ||| delta ||| newmsr }
    if delta ≠ 0 then c.serialIntEngine w msIntr else c
  else if c.intEnab then c.serialIntEngine w 0
  else { c with line := false }

/-- `put_lsr` -/
def putLsr (c : Com) (w : World) (val : Byte) : Com :=
  let c := { c with lsr := val &&& 0x1F }
  let c := if val &&& uartLsrErr ≠ 0 then c else c.clearIntCond lsIntr
  let c := if val &&& uartLsrDr ≠ 0 then c else c.clearIntCond rxIntr
  let c :=
    if val &&& uartLsrThre ≠ 0 then { c with lsr := c.lsr ||| (uartLsrTemt ||| uartLsrThre) }
    else { c with lsr := c.lsr &&& ~~~(uartLsrThre ||| uartLsrTemt) }.clearIntCond txIntr
  let intType := (if val &&& uartLsrErr ≠ 0 then lsIntr else 0) |||
    (if val &&& uartLsrDr ≠ 0 then rxIntr else 0) ||| (if val &&& uartLsrThre ≠ 0 then txIntr else 0)
  let c := if intType ≠ 0 then c.serialIntEngine w intType else c
  c.receiveEngine w

/-- `put_msr` -/
def putMsr (c : Com) (w : World) (val : Byte) : Com :=
  let c := { c with msr := (c.msr &&& uartMsrStat) ||| (val &&& uartMsrDelta) }
  if c.msr &&& uartMsrDelta ≠ 0 then c.serialIntEngine w msIntr else c

/-- A read of IIR in `do_serial_in`. -/
def readIIR (c : Com) : Byte × Com :=
  let c := if c.iirMask = 0 then c.recalcIIR else c
  let val := c.getIIRVal
  (val, if val &&& uartIirThri ≠ 0 then c.clearIntCond txIntr else c)

/-- A write of IER in `do_serial_out`. -/
def writeIER (c : Com) (w : World) (val : Byte) : Com :=
  let tflg := decide (c.ier &&& txIntr = 0 ∧ val &&& txIntr ≠ 0)
  let c := if tflg then { c with intCondition := c.intCondition ||| txIntr } else c
  let c := { c with ier := val &&& uartIerValid }
  let c := if c.intRequest = 0 then { c with line := false } else c
  if tflg then c.serialIntEngine w 0 else c

end Com

/-! ## Port access -/

/-- The registers by their offset; IIR and FCR share one. -/
inductive Reg where
  | data
  | ier
  | iirFcr
  | lcr
  | mcr
  | lsr
  | msr
  | scr
  deriving DecidableEq

namespace Com

/-- `do_serial_in` -/
def doSerialIn (c : Com) (w : World) : Reg → Byte × Com
  | .data => if c.dlab then (c.dll, c) else c.getRx w
  | .ier => if c.dlab then (c.dlm, c) else (c.ier, c)
  | .iirFcr => c.readIIR
  | .lcr => (c.lcr, c)
  | .mcr => (c.mcr, c)
  | .lsr => c.getLsr
  | .msr => c.getMsr w
  | .scr => (c.scr, c)

/-- The register write of `do_serial_out`. -/
def writeReg (c : Com) (w : World) (val : Byte) : Reg → Option Com
  | .data => if c.dlab then some { c with dll := val } else c.putTx w val
  | .ier => some (if c.dlab then { c with dlm := val } else c.writeIER w val)
  | .iirFcr => some (c.putFcr val)
  | .lcr => some (c.putLcr w val)
  | .mcr => some (c.putMcr w val)
  | .lsr => some (c.putLsr w val)
  | .msr => some (c.putMsr w val)
  | .scr => some { c with scr := val }

/-- `do_serial_out` -/
def doSerialOut (c : Com) (w : World) (reg : Reg) (val : Byte) : Option Com :=
  (c.writeReg w val reg).map fun c => c.serialIntEngine w 0

end Com

/-- What can happen to a port. -/
inductive Op where
  | inp (reg : Reg)
  | out (reg : Reg) (val : Byte)
  | push (bs : List Byte)
  | fill
  | update
  | receive
  | timeouts
  | transmit
  | modstat
  | interrupt (intRequested : Byte)

def step (w : World) (c : Com) : Op → Option Com
  | .inp reg => some (c.doSerialIn w reg).2
  | .out reg val => c.doSerialOut w reg val
  | .push bs => some (c.serialRxPush w bs).2
  | .fill => some (c.fill w)
  | .update => some (c.serialUpdate w)
  | .receive => some (c.receiveEngine w)
  | .timeouts => some (c.receiveTimeouts w)
  | .transmit => some (c.transmitEngine w)
  | .modstat => some (c.modstatEngine w)
  | .interrupt intRequested => some (c.serialIntEngine w intRequested)

/-- A port after `serial_reset`, not used before. -/
structure Com.Initial (c : Com) : Prop where
  start : c.rx.rxBufStart = 0
  stop : c.rx.rxBufEnd = 0
  log : c.rx.log = []
  intCondition : c.intCondition = 0
  ier : c.ier = 0
  mcr : c.mcr = 0
  iirMask : c.iirMask = 0
  line : c.line = false

end Serial
end Dosemu
