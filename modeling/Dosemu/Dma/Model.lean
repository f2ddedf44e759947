import Dosemu.Lib.DoWhile
import Dosemu.Lib.Run

/-!
# The DMA controllers

Two 8237 controllers of four channels each.  A device pulses DRQ to have one
unit transferred; a program can also request a channel by a register.  Either way
the channel is serviced until its request is withdrawn or it reaches terminal
count.

The module has the registers, the service loop, the pulse, and the ports a guest
programs the controllers by.
-/

namespace Dosemu
namespace Dma

open DoWhile

/-- A byte. -/
abbrev Byte := BitVec 8

/-- A physical address. -/
abbrev Addr := BitVec 32

/-- Set a bit. -/
def setBit (r : Byte) (n : Nat) : Byte :=
  r ||| (1#8 <<< n)

/-- Clear a bit. -/
def clearBit (r : Byte) (n : Nat) : Byte :=
  r &&& ~~~(1#8 <<< n)

/-! ## Registers -/

/-- `struct dma_channel`. -/
structure Channel where
  baseAddr : BitVec 16
  baseCount : BitVec 16
  curAddr : BitVec 16
  curCount : BitVec 16
  page : Byte
  mode : Byte
deriving DecidableEq, Repr

/-- `DMA_TRANSFER_MODE`. -/
inductive TransferMode
  | demand
  | single
  | block
  | cascade
deriving DecidableEq, Repr

/-- `DMA_TRANSFER_OP`. -/
inductive TransferOp
  | verify
  | write
  | read
  | invalid
deriving DecidableEq, Repr

namespace Channel

/-- `DMA_TRANSFER_MODE`. -/
def transferMode (chan : Channel) : TransferMode :=
  match chan.mode.getLsbD 5, chan.mode.getLsbD 4 with
  | false, false => .demand
  | false, true => .single
  | true, false => .block
  | true, true => .cascade

/-- `DMA_TRANSFER_OP`. -/
def transferOp (chan : Channel) : TransferOp :=
  match chan.mode.getLsbD 1, chan.mode.getLsbD 0 with
  | false, false => .verify
  | false, true => .write
  | true, false => .read
  | true, true => .invalid

/-- `DMA_ADDR_DEC`. -/
def addrDec (chan : Channel) : Bool :=
  chan.mode.getLsbD 3

/-- `DMA_AUTOINIT`. -/
def autoinit (chan : Channel) : Bool :=
  chan.mode.getLsbD 2

end Channel

/-- `struct dma_controller`. -/
structure Controller where
  chans : Fin 4 → Channel
  tmpReg : Byte
  status : Byte
  command : Byte
  mask : Byte
  request : Byte
  ff : Byte

namespace Controller

/-- `HAVE_DRQ`. -/
def haveDrq (k : Controller) (ch : Fin 4) : Bool :=
  k.status.getLsbD (ch.val + 4)

/-- `REACHED_TC`. -/
def reachedTc (k : Controller) (ch : Fin 4) : Bool :=
  k.status.getLsbD ch.val

/-- `MASKED`. -/
def masked (k : Controller) (ch : Fin 4) : Bool :=
  k.mask.getLsbD ch.val

/-- `HAVE_SRQ`. -/
def haveSrq (k : Controller) (ch : Fin 4) : Bool :=
  k.request.getLsbD ch.val

/-- `SW_ACTIVE`. -/
def swActive (k : Controller) (ch : Fin 4) : Bool :=
  k.haveSrq ch && decide ((k.chans ch).transferMode = .block)

/-- The controller is disabled. -/
def disabled (k : Controller) : Bool :=
  k.command.getLsbD 2

/-- The address is held. -/
def holds (k : Controller) : Bool :=
  k.command.getLsbD 0 && k.command.getLsbD 1

/-- Assignment to a channel. -/
def setChan (k : Controller) (ch : Fin 4) (chan : Channel) : Controller :=
  { k with chans := Function.update k.chans ch chan }

/-- `dma_soft_reset`. -/
def softReset (k : Controller) : Controller :=
  { k with command := 0#8, status := 0#8, request := 0#8, tmpReg := 0#8, ff := 0#8, mask := 0x0f#8 }

/-- `dma_poll_DRQ`. -/
def pollDrq (k : Controller) (ch : Fin 4) : Controller :=
  { k with status := clearBit k.status (ch.val + 4) }

/-- `dma_update_DRQ`. -/
def updateDrq (k : Controller) (ch : Fin 4) : Controller :=
  match (k.chans ch).transferMode with
  | .demand => k.pollDrq ch
  | .single => { k with status := clearBit k.status (ch.val + 4) }
  | .block => if k.reachedTc ch then k.pollDrq ch else k
  | .cascade => k.pollDrq ch

/-- The address after a unit. -/
def nextAddr (k : Controller) (ch : Fin 4) : BitVec 16 :=
  let chan := k.chans ch
  if k.holds then chan.curAddr
  else if chan.addrDec then chan.curAddr - 1#16 else chan.curAddr + 1#16

/-- The part of `dma_process_channel` behind the transfer: the address, the
counter and terminal count. -/
def advance (k : Controller) (ch : Fin 4) : Controller :=
  let chan := { k.chans ch with
    curAddr := k.nextAddr ch, curCount := (k.chans ch).curCount - 1#16 }
  if chan.curCount = 0xffff#16 then
    if chan.autoinit then
      k.setChan ch { chan with curAddr := chan.baseAddr, curCount := chan.baseCount }
    else
      { k.setChan ch chan with
        status := setBit k.status ch.val
        request := clearBit k.request ch.val
        mask := setBit k.mask ch.val }
  else k.setChan ch chan

/-- The channel may be serviced. -/
def ready (k : Controller) (ch : Fin 4) : Bool :=
  !k.masked ch && !k.reachedTc ch && !k.disabled &&
    decide ((k.chans ch).transferMode ≠ .cascade)

end Controller

/-- The controllers, the data bus and physical memory. -/
structure Machine where
  contr : Fin 2 → Controller
  dataBus : Nat → Byte
  mem : Addr → Byte

/-- Change a controller. -/
def Machine.modify (s : Machine) (c : Fin 2) (f : Controller → Controller) : Machine :=
  { s with contr := Function.update s.contr c (f (s.contr c)) }

/-! ## Service -/

/-- The bytes of a unit, `1 << dma_idx`. -/
def unitBytes (c : Fin 2) : Nat :=
  1 <<< c.val

/-- The address of the next unit. -/
def unitAddr (c : Fin 2) (page : Byte) (addr : BitVec 16) : Addr :=
  (page.setWidth 32 <<< 16) ||| (addr.setWidth 32 <<< c.val)

/-- `memcpy` from a buffer to memory. -/
def copyToMem (n : Nat) (bus : Nat → Byte) (pa : Addr) (mem : Addr → Byte) : Addr → Byte :=
  fun a => if (a - pa).toNat < n then bus (a - pa).toNat else mem a

/-- `memcpy` to a buffer. -/
def copyTo (n : Nat) (src dest : Nat → Byte) : Nat → Byte :=
  fun j => if j < n then src j else dest j

/-- The bytes of memory at an address. -/
def memBytes (mem : Addr → Byte) (pa : Addr) : Nat → Byte :=
  fun j => mem (pa + BitVec.ofNat 32 j)

/-- The transfer of `dma_process_channel`; `mapped` tells which addresses
`physaddr_to_unixaddr` knows. -/
def transfer (mapped : Addr → Bool) (c : Fin 2) (chan : Channel) (s : Machine) : Machine :=
  let pa := unitAddr c chan.page chan.curAddr
  match chan.transferOp with
  | .verify => s
  | .write =>
      if mapped pa then { s with mem := copyToMem (unitBytes c) s.dataBus pa s.mem } else s
  | .read =>
      if mapped pa then { s with dataBus := copyTo (unitBytes c) (memBytes s.mem pa) s.dataBus }
      else { s with dataBus := copyTo 2 (fun _ => 0xff#8) s.dataBus }
  | .invalid => s

/-- `dma_process_channel`. -/
def dmaProcessChannel (mapped : Addr → Bool) (c : Fin 2) (ch : Fin 4) (s : Machine) : Machine :=
  (transfer mapped c ((s.contr c).chans ch) s).modify c (·.advance ch)

/-- A turn of the loop of `dma_run_channel`. -/
def runTurn (mapped : Addr → Bool) (c : Fin 2) (ch : Fin 4) (s : Machine) :
    Turn Machine Machine :=
  if (s.contr c).haveDrq ch || (s.contr c).swActive ch then
    if (s.contr c).ready ch then
      .again ((dmaProcessChannel mapped c ch s).modify c (·.updateDrq ch))
    else .leave (s.modify c (·.updateDrq ch))
  else .leave s

/-- `dma_run_channel`, with as many turns as a counter can take. -/
def dmaRunChannel (mapped : Addr → Bool) (c : Fin 2) (ch : Fin 4) (s : Machine) :
    Option Machine :=
  loop (runTurn mapped c ch) 0x10002 s

/-- The channels in the order in which `dma_process` takes them. -/
def channels : List (Fin 2 × Fin 4) :=
  [(0, 0), (0, 1), (0, 2), (0, 3), (1, 0), (1, 1), (1, 2), (1, 3)]

/-- `dma_process`. -/
def dmaProcess (mapped : Addr → Bool) (s : Machine) : Option Machine :=
  channels.foldlM (fun s p => dmaRunChannel mapped p.1 p.2 s) s

/-! ## The pulse -/

/-- `DMA_DACK` and `DMA_NO_DACK`. -/
inductive Ack
  | noDack
  | dack
deriving DecidableEq, Repr

/-- `DI`. -/
def di (ch : Fin 8) : Fin 2 :=
  ⟨ch.val / 4, by omega⟩

/-- `CI`. -/
def ci (ch : Fin 8) : Fin 4 :=
  ⟨ch.val % 4, by omega⟩

/-- The pulse is refused: the channel is masked, or some channel of the controller
is active. -/
def Controller.refuses (k : Controller) (ch : Fin 4) : Bool :=
  k.masked ch || k.status &&& 0xf0#8 != 0#8 || k.request != 0#8

/-- DRQ is asserted and the unit is put on the bus. -/
def assertDrq (ch : Fin 8) (buf : Nat → Byte) (s : Machine) : Machine :=
  let s := s.modify (di ch) fun k => { k with status := setBit k.status ((ci ch).val + 4) }
  { s with dataBus := copyTo (unitBytes (di ch)) buf s.dataBus }

/-- `dma_pulse_DRQ`. -/
def dmaPulseDrq (mapped : Addr → Bool) (ch : Fin 8) (buf : Nat → Byte) (s : Machine) :
    Option (Machine × Ack × (Nat → Byte)) :=
  if (s.contr (di ch)).refuses (ci ch) then
    some (s, .noDack, copyTo (unitBytes (di ch)) (fun _ => 0xff#8) buf)
  else
    (dmaRunChannel mapped (di ch) (ci ch) (assertDrq ch buf s)).map fun s =>
      (s, .dack, copyTo (unitBytes (di ch)) s.dataBus buf)

/-! ## Ports -/

/-- The address ports. -/
def addrPort : Nat → Option (Fin 2 × Fin 4)
  | 0x00 => some (0, 0)
  | 0x02 => some (0, 1)
  | 0x04 => some (0, 2)
  | 0x06 => some (0, 3)
  | 0xC0 => some (1, 0)
  | 0xC4 => some (1, 1)
  | 0xC8 => some (1, 2)
  | 0xCC => some (1, 3)
  | _ => none

/-- The count ports. -/
def cntPort : Nat → Option (Fin 2 × Fin 4)
  | 0x01 => some (0, 0)
  | 0x03 => some (0, 1)
  | 0x05 => some (0, 2)
  | 0x07 => some (0, 3)
  | 0xC2 => some (1, 0)
  | 0xC6 => some (1, 1)
  | 0xCA => some (1, 2)
  | 0xCE => some (1, 3)
  | _ => none

/-- The page ports. -/
def pagePort : Nat → Option (Fin 2 × Fin 4)
  | 0x87 => some (0, 0)
  | 0x83 => some (0, 1)
  | 0x81 => some (0, 2)
  | 0x82 => some (0, 3)
  | 0x8F => some (1, 0)
  | 0x8B => some (1, 1)
  | 0x89 => some (1, 2)
  | 0x8A => some (1, 3)
  | _ => none

/-- The other registers. -/
inductive Reg
  | command
  | request
  | mask
  | mode
  | clearFf
  | reset
  | clrMask
  | maskAll
deriving DecidableEq, Repr

/-- Their ports.  Status is read where the command is written, the temporary
register where reset is written. -/
def regPort : Nat → Option (Fin 2 × Reg)
  | 0x08 => some (0, .command)
  | 0x09 => some (0, .request)
  | 0x0A => some (0, .mask)
  | 0x0B => some (0, .mode)
  | 0x0C => some (0, .clearFf)
  | 0x0D => some (0, .reset)
  | 0x0E => some (0, .clrMask)
  | 0x0F => some (0, .maskAll)
  | 0xD0 => some (1, .command)
  | 0xD2 => some (1, .request)
  | 0xD4 => some (1, .mask)
  | 0xD6 => some (1, .mode)
  | 0xD8 => some (1, .clearFf)
  | 0xDA => some (1, .reset)
  | 0xDC => some (1, .clrMask)
  | 0xDE => some (1, .maskAll)
  | _ => none

/-- A byte of a 16-bit register. -/
def getByte (r : BitVec 16) (ff : Byte) : Byte :=
  if ff = 0#8 then r.setWidth 8 else (r >>> 8).setWidth 8

/-- Assignment to a byte of a 16-bit register. -/
def setByte (r : BitVec 16) (ff v : Byte) : BitVec 16 :=
  if ff = 0#8 then (r &&& 0xff00#16) ||| v.setWidth 16
  else (r &&& 0x00ff#16) ||| (v.setWidth 16 <<< 8)

/-- The channel in the low bits of a value. -/
def chanOf (v : Byte) : Fin 4 :=
  ⟨v.toNat % 4, by omega⟩

namespace Controller

/-- `dma[..].ff ^= 1`. -/
def flip (k : Controller) : Controller :=
  { k with ff := k.ff ^^^ 1#8 }

/-- A write to an address port. -/
def writeAddr (k : Controller) (ch : Fin 4) (v : Byte) : Controller :=
  let chan := k.chans ch
  (k.setChan ch { chan with
    baseAddr := setByte chan.baseAddr k.ff v, curAddr := setByte chan.curAddr k.ff v }).flip

/-- A write to a count port. -/
def writeCnt (k : Controller) (ch : Fin 4) (v : Byte) : Controller :=
  let chan := k.chans ch
  (k.setChan ch { chan with
    baseCount := setByte chan.baseCount k.ff v, curCount := setByte chan.curCount k.ff v }).flip

/-- A write to another register. -/
def writeReg (k : Controller) (v : Byte) : Reg → Controller
  | .command => { k with command := v }
  | .request =>
      if v.getLsbD 2 then { k with request := setBit k.request (chanOf v).val }
      else { k with request := clearBit k.request (chanOf v).val }
  | .mask =>
      if v.getLsbD 2 then { k with mask := setBit k.mask (chanOf v).val }
      else
        { k with
          mask := clearBit k.mask (chanOf v).val
          status := clearBit k.status (chanOf v).val }
  | .mode => k.setChan (chanOf v) { k.chans (chanOf v) with mode := v >>> 2 }
  | .clearFf => { k with ff := 0#8 }
  | .reset => k.softReset
  | .clrMask => { k with mask := 0#8, status := k.status &&& 0xf0#8 }
  | .maskAll => { k with mask := v, status := k.status &&& 0xf0#8 }

end Controller

/-- The registers that `dma_io_write` changes. -/
def portWrite (port : Nat) (v : Byte) (s : Machine) : Machine :=
  match addrPort port, cntPort port, pagePort port, regPort port with
  | some (c, ch), _, _, _ => s.modify c (·.writeAddr ch v)
  | none, some (c, ch), _, _ => s.modify c (·.writeCnt ch v)
  | none, none, some (c, ch), _ =>
      s.modify c fun k => k.setChan ch { k.chans ch with page := v }
  | none, none, none, some (c, r) => s.modify c (·.writeReg v r)
  | none, none, none, none => s

/-- `dma_io_write`. -/
def dmaIoWrite (mapped : Addr → Bool) (port : Nat) (v : Byte) (s : Machine) : Option Machine :=
  dmaProcess mapped (portWrite port v s)

/-- What `dma_io_read` returns, and the registers it changes. -/
def portRead (port : Nat) (s : Machine) : Byte × Machine :=
  match addrPort port, cntPort port, pagePort port, regPort port with
  | some (c, ch), _, _, _ =>
      (getByte ((s.contr c).chans ch).curAddr (s.contr c).ff, s.modify c (·.flip))
  | none, some (c, ch), _, _ =>
      (getByte ((s.contr c).chans ch).curCount (s.contr c).ff, s.modify c (·.flip))
  | none, none, some (c, ch), _ => (((s.contr c).chans ch).page, s)
  | none, none, none, some (c, .command) =>
      ((s.contr c).status, s.modify c fun k => { k with status := k.status &&& 0xf0#8 })
  | none, none, none, some (c, .reset) => ((s.contr c).tmpReg, s)
  | none, none, none, _ => (0xff#8, s)

/-- `dma_io_read`. -/
def dmaIoRead (mapped : Addr → Bool) (port : Nat) (s : Machine) : Option (Byte × Machine) :=
  (dmaProcess mapped (portRead port s).2).map fun t => ((portRead port s).1, t)

end Dma
end Dosemu
