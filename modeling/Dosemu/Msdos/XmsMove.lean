import Dosemu.Dpmi.Selectors
import Dosemu.Lib.Memory
import Dosemu.Lib.Page

/-!
# Protected-mode XMS moves

A client may give one of the two addresses of an XMS move as an address of its own
instead of a block.  The extender then does the move: it locks and maps the block,
checks the address of the client, copies, and gives the block back.

Pointers are addresses in the process, and 0 is a null pointer.  `unix` is the
translation of linear addresses, which need not map neighbours to neighbours.  What
the XMS driver answers about a handle, and where the memory of a block gets mapped,
is an input.  The parameter structure lies in the memory of the client, and its
handles are read again after the copy.

Main results:

- Theorem `clntHdl0Adr_within`: an address that a client gives is checked.
- Theorem `undone_iff`: when a block that was locked and mapped is given back.
- Theorem `move_contained_iff`: when a move stays in its regions and gives back
  what it took.
-/

namespace Dosemu
namespace Msdos
namespace XmsMove

open Memory MachineInt

/-! ## The host and the client -/

/-- `(dosaddr_t)-1` -/
def noAddr : Nat := 0xffffffff

/-- What the XMS driver answers for a handle: the size of the block in K (function 0Eh) and its
physical address when it is locked (function 0Ch). -/
structure Answers where
  info : Option (BitVec 16)
  lock : Option (BitVec 32)

/-- The client, its memory, and what is around it; `dpmiEnd` is
`config.dpmi_base + dpmi_mem_size()`. -/
structure World where
  is32 : Bool
  thunk1632 : Bool
  ldt : Dpmi.State
  unix : Nat → Nat
  mem : Mem
  xms : Nat → Answers
  mapHWRam : Nat → Nat → BitVec 32
  dpmiEnd : Nat

/-- What a call does to locks and mappings. -/
inductive Event where
  | lock (handle : Nat)
  | unlock (handle : Nat)
  | map (page : Nat)
  | unmap (page : Nat)
  deriving DecidableEq

/-- `struct EMM` -/
structure Emm where
  length : Nat
  sourceHandle : Nat
  sourceOffset : Nat
  destHandle : Nat
  destOffset : Nat
  deriving DecidableEq

def readEmm (mem : Mem) (e : Nat) : Emm where
  length := loadWord 4 mem e
  sourceHandle := loadWord 2 mem (e + 4)
  sourceOffset := loadWord 4 mem (e + 6)
  destHandle := loadWord 2 mem (e + 10)
  destOffset := loadWord 4 mem (e + 12)

/-- How an address that comes with a handle of 0 is read: as function 0Bh guesses it, or as the
types of function 7Bh say. -/
inductive MoveType where
  | unsaid
  | linear
  | near32
  | selofs
  deriving DecidableEq

structure Regs where
  ax : BitVec 16
  bx : BitVec 16
  ds : BitVec 16
  esi : BitVec 32

structure Copy where
  dst : Nat
  src : Nat
  len : Nat

/-- What a call does; `toDriver` if it goes on to the real-mode driver. -/
structure Result where
  regs : Regs
  copied : Option Copy
  log : List Event
  toDriver : Bool

namespace World

/-! ## Blocks -/

/-- `xms_map` -/
def xmsMap (w : World) (handle len : Nat) : Nat × List Event :=
  match (w.xms handle).info with
  | none => (noAddr, [])
  | some kb =>
      let sz := kb.toNat * 1024
      if sz < len then (noAddr, [])
      else
        match (w.xms handle).lock with
        | none => (noAddr, [])
        | some pa =>
            let ret := (w.mapHWRam (pa.toNat / 4096 * 4096) (pageAlign32 sz)).toNat
            if ret = noAddr then (noAddr, [.lock handle])
            else if ret % 4096 ≠ 0 then (ret, [.lock handle, .map ret])
            else ((ret + pa.toNat % 4096) % 2 ^ 32, [.lock handle, .map ret])

/-- `xms_unmap` -/
def xmsUnmap (handle va : Nat) : List Event :=
  [.unmap (va / 4096 * 4096), .unlock handle]

/-! ## Addresses of the client -/

/-- `SEL_ADR_LDT` -/
def selAdrLdt (w : World) (sel : BitVec 16) (reg : Nat) (is32 : Bool) : Nat :=
  w.unix (((w.ldt.getSegmentBase sel).toNat + if is32 then reg else reg % 2 ^ 16) % 2 ^ 32)

/-- `SEL_ADR_CLNT` -/
def selAdrClnt (w : World) (sel : BitVec 16) (reg : Nat) (is32 : Bool) : Nat :=
  if !sel.getLsbD 2 then reg
  else
    let is32 :=
      if !is32 && w.thunk1632 then decide ((w.ldt.segments (Dpmi.ldtEntry sel)).is32 = 1) else is32
    w.selAdrLdt sel reg is32

/-- `clnt_seg_adr` -/
def clntSegAdr (w : World) (sel : BitVec 16) (offs len : Nat) (is32 : Bool) : Nat :=
  if !w.ldt.validAndUsedSelector sel then 0
  else
    let lim := (w.ldt.getSegmentLimit sel).toNat
    let offs := if is32 then offs else offs % 2 ^ 16
    if lim + 1 < offs + len then 0 else w.selAdrClnt sel offs is32

/-- The selector in the upper half of an address. -/
def upperHalf (offs : Nat) : BitVec 16 :=
  BitVec.ofNat 16 (offs / 2 ^ 16)

/-- `clnt_adr_is_pm` -/
def clntAdrIsPm (w : World) (handle offs : Nat) (is32 : Bool) : Bool :=
  if handle ≠ 0 then true else is32 || w.ldt.validAndUsedSelector (upperHalf offs)

/-- `clnt_xms_adr` -/
def clntXmsAdr (w : World) (sel : BitVec 16) (offs len : Nat) (is32 : Bool) : Nat :=
  if is32 then w.clntSegAdr sel offs len is32 else w.clntSegAdr (upperHalf offs) offs len false

/-- `clnt_lin_adr` -/
def clntLinAdr (w : World) (lin len : Nat) : Nat :=
  if w.dpmiEnd < lin + len then 0 else w.unix lin

/-- `clnt_hdl0_adr` -/
def clntHdl0Adr (w : World) (sel : BitVec 16) (offs len : Nat) : MoveType → Nat
  | .linear => w.clntLinAdr offs len
  | .near32 => w.clntXmsAdr sel offs len true
  | .selofs => w.clntXmsAdr sel offs len false
  | .unsaid => w.clntXmsAdr sel offs len w.is32

/-! ## The move -/

/-- What is known of one side of a move: where the block is mapped, the pointer, and what was done
to get it. -/
structure Side where
  va : Nat
  ptr : Nat
  log : List Event

/-- One side of a move in `xmshlp_thr`. -/
def side (w : World) (ds : BitVec 16) (type : MoveType) (handle offs len : Nat) : Side :=
  if handle ≠ 0 then
    let (va, log) := w.xmsMap handle ((offs + len) % 2 ^ 32)
    ⟨va, if va ≠ noAddr then w.unix ((va + offs) % 2 ^ 32) else 0, log⟩
  else ⟨noAddr, w.clntHdl0Adr ds offs len type, []⟩

/-- A call that fails with an error of its own. -/
def fail (r : Regs) (code : BitVec 16) (log : List Event) : Result :=
  ⟨{ r with ax := 0, bx := code }, none, log, false⟩

/-- `do_xms_call` at the end of a call. -/
def driver (r : Regs) : Result :=
  ⟨r, none, [], true⟩

/-- The handles are read again when the blocks are given back. -/
def giveBack (emm : Emm) (src dst : Nat) : List Event :=
  (if emm.sourceHandle ≠ 0 then xmsUnmap emm.sourceHandle src else []) ++
    (if emm.destHandle ≠ 0 then xmsUnmap emm.destHandle dst else [])

/-- The memory after the copy. -/
def memcpy (w : World) (d s n : Nat) : Mem :=
  fill w.mem d n fun i => w.mem (s + i)

/-- The move that `xmshlp_thr` does itself. -/
def copyMove (w : World) (r : Regs) (type : MoveType) (e : Nat) : Result :=
  let emm := readEmm w.mem e
  let s := w.side r.ds type emm.sourceHandle emm.sourceOffset emm.length
  if s.ptr = 0 then fail r 0xa7 s.log
  else
    let d := w.side r.ds type emm.destHandle emm.destOffset emm.length
    if d.ptr = 0 then fail r 0xa7 (s.log ++ d.log)
    else
      let mem := w.memcpy d.ptr s.ptr emm.length
      ⟨{ r with ax := 1 }, some ⟨d.ptr, s.ptr, emm.length⟩,
        s.log ++ d.log ++ giveBack (readEmm mem e) s.va d.va, false⟩

/-- The condition under which `xmshlp_thr` does the move itself. -/
def doesMove (w : World) (type : MoveType) (emm : Emm) : Bool :=
  (emm.sourceHandle = 0 || emm.destHandle = 0) &&
    (type ≠ .unsaid ||
      (w.clntAdrIsPm emm.sourceHandle emm.sourceOffset w.is32 &&
        w.clntAdrIsPm emm.destHandle emm.destOffset w.is32))

/-- The parameter structure of a call. -/
def emmAdr (w : World) (r : Regs) : Nat :=
  w.clntSegAdr r.ds r.esi.toNat 16 w.is32

/-- Function 0Bh in `xmshlp_thr`. -/
def move (w : World) (r : Regs) (type : MoveType) : Result :=
  let e := w.emmAdr r
  if e = 0 then fail r 0xa7 []
  else if w.doesMove type (readEmm w.mem e) then w.copyMove r type e
  else driver r

/-- `_HI(ax) = 0x0b` -/
def asMove (r : Regs) : Regs :=
  { r with ax := 0x0b00#16 ||| (r.ax &&& 0xff#16) }

/-- `xmshlp_thr` -/
def xmshlpThr (w : World) (r : Regs) : Result :=
  if r.ax >>> 8 = 0x7b#16 then
    match (r.ax &&& 0xff#16).toNat with
    | 0 => driver (asMove r)
    | 1 => w.move (asMove r) .linear
    | 2 => w.move (asMove r) .near32
    | 3 => w.move (asMove r) .selofs
    | _ => fail r 0xae []
  else if r.ax >>> 8 = 0x0b#16 then w.move r .unsaid
  else driver r

end World

/-! ## Regions -/

/-- A region of linear memory: where its offset 0 is, the offset of the move, and the bound of
offsets. -/
structure Region where
  base : Nat
  offset : Nat
  bound : Nat

/-- The linear address of a byte of the move. -/
def Region.linear (rg : Region) (i : Nat) : Nat :=
  (rg.base + rg.offset + i) % 2 ^ 32

/-- The region has `len` bytes at its offset, and this is the address of one of them. -/
def Region.Byte (w : World) (rg : Region) (len a : Nat) : Prop :=
  rg.offset + len ≤ rg.bound ∧ ∃ j < len, a = w.unix (rg.linear j)

/-- From the address of the first byte on, the process has nothing but bytes of the region. -/
def Region.Flat (w : World) (rg : Region) (len : Nat) : Prop :=
  ∀ i < len, ∃ j < len, w.unix (rg.linear 0) + i = w.unix (rg.linear j)

namespace World

/-- Where the memory of a block is mapped, if a move locks the block. -/
def window (w : World) (handle len : Nat) : Option Nat :=
  (w.xms handle).info.bind fun kb =>
    if kb.toNat * 1024 < len then none
    else (w.xms handle).lock.map fun pa =>
      (w.mapHWRam (pa.toNat / 4096 * 4096) (pageAlign32 (kb.toNat * 1024))).toNat

/-- Where the memory of the block on one side of a move is mapped, if the side has a block and it
gets locked. -/
def takes (w : World) (handle offs len : Nat) : Option Nat :=
  if handle ≠ 0 then w.window handle ((offs + len) % 2 ^ 32) else none

/-- A segment up to its limit. -/
def segRegion (w : World) (sel : BitVec 16) (offs : Nat) : Region where
  base := (w.ldt.getSegmentBase sel).toNat
  offset := offs
  bound := if w.ldt.validAndUsedSelector sel then (w.ldt.getSegmentLimit sel).toNat + 1 else 0

/-- A block as far as it is mapped. -/
def blockRegion (w : World) (handle offs : Nat) : Region :=
  match (w.xms handle).info, (w.xms handle).lock with
  | some kb, some pa =>
      let sz := kb.toNat * 1024
      { base := (w.mapHWRam (pa.toNat / 4096 * 4096) (pageAlign32 sz)).toNat + pa.toNat % 4096
        offset := offs
        bound := min sz (pageAlign32 sz - pa.toNat % 4096) }
  | _, _ => ⟨0, offs, 0⟩

/-- What an address of a client means. -/
def clntRegion (w : World) (ds : BitVec 16) (offs : Nat) : MoveType → Region
  | .linear => ⟨0, offs, w.dpmiEnd⟩
  | .near32 => w.segRegion ds offs
  | .selofs => w.segRegion (upperHalf offs) (offs % 2 ^ 16)
  | .unsaid =>
      if w.is32 then w.segRegion ds offs else w.segRegion (upperHalf offs) (offs % 2 ^ 16)

/-- The region of one side of a move. -/
def region (w : World) (ds : BitVec 16) (type : MoveType) (handle offs : Nat) : Region :=
  if handle ≠ 0 then w.blockRegion handle offs else w.clntRegion ds offs type

end World

/-! ## What a move promises -/

/-- Each lock and each mapping was given back. -/
def Undone (log : List Event) : Prop :=
  (∀ handle, log.count (.lock handle) = log.count (.unlock handle)) ∧
    ∀ page, log.count (.map page) = log.count (.unmap page)

/-- The reading of the addresses that a call asks for. -/
def asked (ax : BitVec 16) : Option MoveType :=
  if ax >>> 8 = 0x7b#16 then
    match (ax &&& 0xff#16).toNat with
    | 1 => some .linear
    | 2 => some .near32
    | 3 => some .selofs
    | _ => none
  else if ax >>> 8 = 0x0b#16 then some .unsaid
  else none

/-- The call is a move that is not left to the driver. -/
structure Own (w : World) (r : Regs) (type : MoveType) (e : Nat) : Prop where
  asked : asked r.ax = some type
  emm : w.emmAdr r = e
  found : e ≠ 0
  does : w.doesMove type (readEmm w.mem e) = true

/-- What is read lies in the source region, what is written in the destination region, and what was
taken is given back. -/
def Contained (w : World) (ds : BitVec 16) (type : MoveType) (emm : Emm) (res : Result) : Prop :=
  (∀ c, res.copied = some c → ∀ i < c.len,
    (w.region ds type emm.sourceHandle emm.sourceOffset).Byte w emm.length (c.src + i) ∧
      (w.region ds type emm.destHandle emm.destOffset).Byte w emm.length (c.dst + i)) ∧
    Undone res.log

/-- The side is a block that is mapped as far as the move goes, or an address of the client; and
the process has its bytes in one piece. -/
def Reaches (w : World) (ds : BitVec 16) (type : MoveType) (handle offs len : Nat) : Prop :=
  let rg := w.region ds type handle offs
  (handle ≠ 0 → rg.offset + len ≤ rg.bound) ∧ rg.Flat w len

/-- The copy leaves the handles in the parameter structure alone.  (Or it exchanges them, where the
block is mapped at the page that the null address of the other side is on.) -/
def Kept (w : World) (emm : Emm) (e s d : Nat) : Prop :=
  let emm' := readEmm (w.memcpy d s emm.length) e
  (emm'.sourceHandle = emm.sourceHandle ∧ emm'.destHandle = emm.destHandle) ∨
    (emm'.sourceHandle = emm.destHandle ∧ emm'.destHandle = emm.sourceHandle ∧
      (w.takes emm.sourceHandle emm.sourceOffset emm.length = some 0xfffff000 ∨
        w.takes emm.destHandle emm.destOffset emm.length = some 0xfffff000))

/-- A block that is locked gets mapped at a page boundary, and then neither side fails; and a move
that comes to the copy stays in its regions and away from the handles. -/
structure Careful (w : World) (ds : BitVec 16) (type : MoveType) (e : Nat) : Prop where
  source : ∀ win,
    let emm := readEmm w.mem e
    w.takes emm.sourceHandle emm.sourceOffset emm.length = some win → win % 4096 = 0 ∧
      (w.side ds type emm.sourceHandle emm.sourceOffset emm.length).ptr ≠ 0 ∧
      (w.side ds type emm.destHandle emm.destOffset emm.length).ptr ≠ 0
  dest : ∀ win,
    let emm := readEmm w.mem e
    (w.side ds type emm.sourceHandle emm.sourceOffset emm.length).ptr ≠ 0 →
      w.takes emm.destHandle emm.destOffset emm.length = some win → win % 4096 = 0 ∧
        (w.side ds type emm.destHandle emm.destOffset emm.length).ptr ≠ 0
  copies :
    let emm := readEmm w.mem e
    let s := (w.side ds type emm.sourceHandle emm.sourceOffset emm.length).ptr
    let d := (w.side ds type emm.destHandle emm.destOffset emm.length).ptr
    s ≠ 0 → d ≠ 0 →
      (0 < emm.length →
        Reaches w ds type emm.sourceHandle emm.sourceOffset emm.length ∧
          Reaches w ds type emm.destHandle emm.destOffset emm.length) ∧
        Kept w emm e s d

/-! ## Addresses of the client -/

variable {w : World} {ds sel : BitVec 16} {type : MoveType} {handle offs len win : Nat}
  {emm : Emm} {src dst : Nat}

/-- For an offset of the client's size, the address size of the segment does not matter. -/
theorem selAdrClnt_eq {reg : Nat} {is32 : Bool} (hused : w.ldt.validAndUsedSelector sel = true)
    (hlow : is32 = false → reg < 2 ^ 16) :
    w.selAdrClnt sel reg is32 =
      w.unix (((w.ldt.getSegmentBase sel).toNat + reg) % 2 ^ 32) := by
  have hldt : sel.getLsbD 2 = true := by
    unfold Dpmi.State.validAndUsedSelector Dpmi.State.dpmiValidSelector at hused
    rw [Bool.and_eq_true, Bool.and_eq_true] at hused
    exact hused.1.2
  have hreg (is32' : Bool) (h : is32 = true → is32' = true) :
      (if is32' then reg else reg % 2 ^ 16) = reg := by
    cases is32 with
    | false =>
        split_ifs
        · rfl
        · exact Nat.mod_eq_of_lt (hlow rfl)
    | true => rw [h rfl, if_pos rfl]
  unfold World.selAdrClnt World.selAdrLdt
  rw [hldt, if_neg (by decide)]
  dsimp only
  rw [hreg]
  intro h
  rw [h]
  rfl

/-- An offset in a segment is checked against the limit. -/
theorem clntSegAdr_within {is32 : Bool} (h : w.clntSegAdr sel offs len is32 ≠ 0) :
    let rg := w.segRegion sel (if is32 then offs else offs % 2 ^ 16)
    rg.offset + len ≤ rg.bound ∧ w.clntSegAdr sel offs len is32 = w.unix (rg.linear 0) := by
  have hlow : is32 = false → (if is32 then offs else offs % 2 ^ 16) < 2 ^ 16 := by
    intro h16
    rw [h16, if_neg (by decide)]
    exact Nat.mod_lt _ (by decide)
  have hused : w.ldt.validAndUsedSelector sel = true := by
    by_contra hno
    refine h (if_pos ?_)
    rw [eq_false_of_ne_true hno]
    rfl
  unfold World.clntSegAdr World.segRegion Region.linear at *
  simp only [hused, Bool.not_true, Bool.false_eq_true, if_false, if_true] at h ⊢
  generalize (if is32 = true then offs else offs % 2 ^ 16) = o at *
  by_cases hlim : (w.ldt.getSegmentLimit sel).toNat + 1 < o + len
  · rw [if_pos hlim] at h
    exact absurd rfl h
  · rw [if_neg hlim, selAdrClnt_eq hused hlow]
    exact ⟨Nat.le_of_not_lt hlim, rfl⟩

/-- The address that a client gives is checked, and is the address of the first byte. -/
theorem clntHdl0Adr_within (hoffs : offs < 2 ^ 32) (h : w.clntHdl0Adr ds offs len type ≠ 0) :
    let rg := w.clntRegion ds offs type
    rg.offset + len ≤ rg.bound ∧ w.clntHdl0Adr ds offs len type = w.unix (rg.linear 0) := by
  cases type with
  | linear =>
      unfold World.clntHdl0Adr World.clntLinAdr World.clntRegion Region.linear at *
      dsimp only at h ⊢
      by_cases hend : w.dpmiEnd < offs + len
      · rw [if_pos hend] at h
        exact absurd rfl h
      · rw [if_neg hend]
        refine ⟨Nat.le_of_not_lt hend, ?_⟩
        rw [Nat.zero_add, Nat.add_zero, Nat.mod_eq_of_lt hoffs]
  | near32 => exact clntSegAdr_within h
  | selofs => exact clntSegAdr_within h
  | unsaid =>
      unfold World.clntHdl0Adr World.clntXmsAdr World.clntRegion at *
      dsimp only at h ⊢
      by_cases h32 : w.is32 = true
      · rw [h32, if_pos rfl] at h ⊢
        exact clntSegAdr_within h
      · rw [if_neg h32] at h ⊢
        rw [if_neg h32]
        exact clntSegAdr_within h

/-! ## Blocks -/

/-- A block that is not locked leaves nothing to give back. -/
theorem xmsMap_none (h : w.window handle len = none) : w.xmsMap handle len = (noAddr, []) := by
  unfold World.window at h
  unfold World.xmsMap
  cases hinfo : (w.xms handle).info with
  | none => rfl
  | some kb =>
      rw [hinfo, Option.bind_some] at h
      dsimp only
      by_cases hlen : kb.toNat * 1024 < len
      · rw [if_pos hlen]
      · rw [if_neg hlen, Option.map_eq_none_iff] at h
        rw [if_neg hlen, h]

/-- A block that is locked. -/
theorem xmsMap_some (h : w.window handle len = some win) :
    ∃ kb pa, (w.xms handle).info = some kb ∧ (w.xms handle).lock = some pa ∧
      (w.mapHWRam (pa.toNat / 4096 * 4096) (pageAlign32 (kb.toNat * 1024))).toNat = win ∧
      w.xmsMap handle len =
        if win = noAddr then (noAddr, [.lock handle])
        else if win % 4096 ≠ 0 then (win, [.lock handle, .map win])
        else ((win + pa.toNat % 4096) % 2 ^ 32, [.lock handle, .map win]) := by
  unfold World.window at h
  unfold World.xmsMap
  obtain ⟨kb, hinfo, hwin⟩ := Option.bind_eq_some_iff.mp h
  by_cases hlen : kb.toNat * 1024 < len
  · rw [if_pos hlen] at hwin
    cases hwin
  · rw [if_neg hlen] at hwin
    obtain ⟨pa, hlock, hmap⟩ := Option.map_eq_some_iff.mp hwin
    refine ⟨kb, pa, hinfo, hlock, hmap, ?_⟩
    rw [hinfo]
    dsimp only
    rw [if_neg hlen, hlock]
    dsimp only
    rw [hmap]

theorem pageOf_window (hwin : win % 4096 = 0) (hlt : win < 2 ^ 32) {k : Nat} (hk : k < 4096) :
    (win + k) % 2 ^ 32 / 4096 * 4096 = win := by
  omega

/-! ## Sides -/

/-- A side without a locked block takes nothing. -/
theorem side_free (h : w.takes handle offs len = none) :
    (w.side ds type handle offs len).log = [] ∧
      (handle ≠ 0 → (w.side ds type handle offs len).ptr = 0) := by
  unfold World.takes at h
  unfold World.side
  by_cases hhandle : handle = 0
  · rw [if_neg (not_not_intro hhandle)]
    exact ⟨rfl, fun hno => absurd hhandle hno⟩
  · rw [if_pos hhandle] at h ⊢
    rw [xmsMap_none h]
    exact ⟨rfl, fun _ => rfl⟩

/-- A side with a locked block. -/
theorem side_taken (h : w.takes handle offs len = some win) :
    let sd := w.side ds type handle offs len
    handle ≠ 0 ∧
      (sd.log = [.lock handle] ∧ sd.ptr = 0 ∨ sd.log = [.lock handle, .map win]) ∧
      (win % 4096 = 0 → sd.va / 4096 * 4096 = win ∧
        (sd.ptr ≠ 0 → sd.ptr = w.unix ((w.region ds type handle offs).linear 0))) := by
  have hhandle : handle ≠ 0 := by
    intro hzero
    unfold World.takes at h
    rw [if_neg (not_not_intro hzero)] at h
    cases h
  unfold World.takes at h
  rw [if_pos hhandle] at h
  obtain ⟨kb, pa, hinfo, hlock, hmap, hxms⟩ := xmsMap_some h
  have hlt : win < 2 ^ 32 := hmap ▸ BitVec.isLt _
  have hregion : w.region ds type handle offs =
      ⟨win + pa.toNat % 4096, offs,
        min (kb.toNat * 1024) (pageAlign32 (kb.toNat * 1024) - pa.toNat % 4096)⟩ := by
    unfold World.region World.blockRegion
    rw [if_pos hhandle, hinfo, hlock]
    dsimp only
    rw [hmap]
  unfold World.side
  rw [if_pos hhandle, hxms, hregion]
  refine ⟨hhandle, ?_, fun haligned => ?_⟩
  · by_cases hno : win = noAddr
    · rw [if_pos hno]
      dsimp only
      exact Or.inl ⟨rfl, if_neg (not_not_intro rfl)⟩
    · rw [if_neg hno]
      right
      split_ifs <;> rfl
  · have hno : win ≠ noAddr := by
      unfold noAddr
      omega
    rw [if_neg hno, if_neg (not_not_intro haligned)]
    dsimp only
    refine ⟨pageOf_window haligned hlt (Nat.mod_lt _ (by decide)), fun hptr => ?_⟩
    by_cases hva : (win + pa.toNat % 4096) % 2 ^ 32 = noAddr
    · rw [if_neg (not_not_intro hva)] at hptr
      exact absurd rfl hptr
    · rw [if_pos hva, Region.linear, Nat.mod_add_mod, Nat.add_zero]

/-- A pointer is to the first byte of the region, and a client's is checked. -/
theorem side_ptr (hoffs : offs < 2 ^ 32)
    (haligned : ∀ win, w.takes handle offs len = some win → win % 4096 = 0)
    (hptr : (w.side ds type handle offs len).ptr ≠ 0) :
    let rg := w.region ds type handle offs
    (w.side ds type handle offs len).ptr = w.unix (rg.linear 0) ∧
      (handle = 0 → rg.offset + len ≤ rg.bound) := by
  by_cases hhandle : handle = 0
  · unfold World.side World.region at *
    rw [if_neg (not_not_intro hhandle)] at hptr ⊢
    rw [if_neg (not_not_intro hhandle)]
    obtain ⟨hwithin, hval⟩ := clntHdl0Adr_within hoffs hptr
    exact ⟨hval, fun _ => hwithin⟩
  · cases htakes : w.takes handle offs len with
    | none => exact absurd ((@side_free w ds type _ _ _ htakes).2 hhandle) hptr
    | some win =>
        obtain ⟨-, -, hpage⟩ := @side_taken w ds type _ _ _ _ htakes
        exact ⟨(hpage (haligned win htakes)).2 hptr, fun hno => absurd hno hhandle⟩

/-- All bytes from a pointer on are in the region exactly if the side reaches them. -/
theorem bytes_iff (hoffs : offs < 2 ^ 32)
    (haligned : ∀ win, w.takes handle offs len = some win → win % 4096 = 0)
    (hptr : (w.side ds type handle offs len).ptr ≠ 0) :
    (∀ i < len, (w.region ds type handle offs).Byte w len
        ((w.side ds type handle offs len).ptr + i)) ↔
      (0 < len → Reaches w ds type handle offs len) := by
  obtain ⟨hval, hclient⟩ := side_ptr hoffs haligned hptr
  rw [hval]
  constructor
  · exact fun hall hpos => ⟨fun _ => (hall 0 hpos).1, fun i hi => (hall i hi).2⟩
  · intro hreach i hi
    obtain ⟨hbound, hflat⟩ := hreach (Nat.zero_lt_of_lt hi)
    refine ⟨?_, hflat i hi⟩
    by_cases hhandle : handle = 0
    · exact hclient hhandle
    · exact hbound hhandle

/-! ## What is given back -/

theorem not_undone {log : List Event} (hlock : .lock handle ∈ log)
    (hnone : ∀ handle, .unlock handle ∉ log) : ¬Undone log := by
  intro hundone
  have hcount := hundone.1 handle
  rw [List.count_eq_zero_of_not_mem (hnone handle)] at hcount
  exact List.count_eq_zero.mp hcount hlock

theorem undone_nil : Undone [] :=
  ⟨fun _ => rfl, fun _ => rfl⟩

/-- One block was taken and one given back. -/
theorem undone_one {h a p q : Nat} :
    Undone [.lock h, .map p, .unmap q, .unlock a] ↔ a = h ∧ q = p := by
  constructor
  · intro hundone
    have hlock := hundone.1 h
    have hmap := hundone.2 p
    simp [List.count_cons] at hlock hmap
    exact ⟨hlock, hmap⟩
  · rintro ⟨rfl, rfl⟩
    constructor <;> intro x <;> simp [List.count_cons]

/-- A block that was locked and mapped is given back if it is the only one that is. -/
theorem undone_iff (hhandle : handle ≠ 0) :
    Undone ([.lock handle, .map win] ++ World.giveBack emm src dst) ↔
      (emm.sourceHandle = handle ∧ emm.destHandle = 0 ∧ src / 4096 * 4096 = win) ∨
        (emm.sourceHandle = 0 ∧ emm.destHandle = handle ∧ dst / 4096 * 4096 = win) := by
  unfold World.giveBack World.xmsUnmap
  by_cases hs : emm.sourceHandle = 0
  · rw [if_neg (not_not_intro hs), hs]
    by_cases hd : emm.destHandle = 0
    · rw [if_neg (not_not_intro hd), hd]
      refine iff_of_false (not_undone (List.mem_cons_self ..) (by simp)) ?_
      rintro (⟨h, -⟩ | ⟨-, h, -⟩)
      · exact hhandle h.symm
      · exact hhandle h.symm
    · rw [if_pos hd]
      refine undone_one.trans ⟨fun h => Or.inr ⟨rfl, h⟩, ?_⟩
      rintro (⟨h, -⟩ | ⟨-, h⟩)
      · exact absurd h.symm hhandle
      · exact h
  · rw [if_pos hs]
    by_cases hd : emm.destHandle = 0
    · rw [if_neg (not_not_intro hd), hd]
      refine undone_one.trans ⟨fun h => Or.inl ⟨h.1, rfl, h.2⟩, ?_⟩
      rintro (⟨h, -, hp⟩ | ⟨h, -⟩)
      · exact ⟨h, hp⟩
      · exact absurd h hs
    · rw [if_pos hd]
      refine iff_of_false (fun hundone => ?_) ?_
      · have hsource := hundone.1 emm.sourceHandle
        have hdest := hundone.1 emm.destHandle
        simp [List.count_cons] at hsource hdest
        split_ifs at hsource hdest <;> omega
      · rintro (⟨-, h, -⟩ | ⟨h, -⟩)
        · exact hd h
        · exact hs h

/-- Nothing was taken, and nothing is given back. -/
theorem giveBack_undone_iff :
    Undone (World.giveBack emm src dst) ↔ emm.sourceHandle = 0 ∧ emm.destHandle = 0 := by
  unfold World.giveBack World.xmsUnmap
  constructor
  · intro hundone
    have hsource := hundone.1 emm.sourceHandle
    have hdest := hundone.1 emm.destHandle
    by_cases hs : emm.sourceHandle = 0 <;> by_cases hd : emm.destHandle = 0 <;>
      simp [hs, hd, List.count_cons] at hsource hdest ⊢
  · rintro ⟨hs, hd⟩
    rw [hs, hd]
    exact undone_nil

/-! ## The move -/

variable {r : Regs} {e : Nat}

/-- What a call that asks for a move comes to. -/
theorem xmshlpThr_asked (h : asked r.ax = some type) :
    w.xmshlpThr r = w.move r type ∨ w.xmshlpThr r = w.move (World.asMove r) type := by
  unfold asked at h
  unfold World.xmshlpThr
  by_cases h7b : r.ax >>> 8 = 0x7b#16
  · rw [if_pos h7b] at h ⊢
    right
    generalize (r.ax &&& 0xff#16).toNat = lo at h ⊢
    rcases lo with _ | _ | _ | _ | lo <;> cases h <;> rfl
  · rw [if_neg h7b] at h ⊢
    left
    by_cases h0b : r.ax >>> 8 = 0x0b#16
    · rw [if_pos h0b] at h ⊢
      cases h
      rfl
    · rw [if_neg h0b] at h
      cases h

/-- A call that does the move itself. -/
theorem xmshlpThr_of_own (h : Own w r type e) :
    ∃ r' : Regs, r'.ds = r.ds ∧ w.xmshlpThr r = w.copyMove r' type e := by
  have hmove (r' : Regs) (hr' : w.emmAdr r' = w.emmAdr r) :
      w.move r' type = w.copyMove r' type e := by
    unfold World.move
    rw [hr', h.emm]
    dsimp only
    rw [if_neg h.found, if_pos h.does]
  rcases @xmshlpThr_asked w type r h.asked with hthr | hthr
  · exact ⟨r, rfl, hthr.trans (hmove r rfl)⟩
  · exact ⟨World.asMove r, rfl, hthr.trans (hmove _ rfl)⟩

/-- What the two sides took is not given back by a move that fails. -/
theorem fail_undone_iff {offs' len' handle' : Nat} :
    Undone ((w.side ds type handle offs len).log ++ (w.side ds type handle' offs' len').log) ↔
      w.takes handle offs len = none ∧ w.takes handle' offs' len' = none := by
  have hsides (handle offs len : Nat) :
      (w.takes handle offs len = none ∧ (w.side ds type handle offs len).log = []) ∨
        (w.takes handle offs len ≠ none ∧
          .lock handle ∈ (w.side ds type handle offs len).log ∧
          ∀ h, .unlock h ∉ (w.side ds type handle offs len).log) := by
    cases htakes : w.takes handle offs len with
    | none => exact Or.inl ⟨rfl, (@side_free w ds type _ _ _ htakes).1⟩
    | some win =>
        obtain ⟨-, hlog, -⟩ := @side_taken w ds type _ _ _ _ htakes
        refine Or.inr ⟨Option.some_ne_none _, ?_⟩
        rcases hlog with ⟨hlog, -⟩ | hlog <;> rw [hlog] <;> simp
  rcases hsides handle offs len with ⟨hnone, hlog⟩ | ⟨hsome, hlock, hno⟩
  · rcases hsides handle' offs' len' with ⟨hnone', hlog'⟩ | ⟨hsome', hlock', hno'⟩
    · rw [hlog, hlog']
      exact iff_of_true undone_nil ⟨hnone, hnone'⟩
    · refine iff_of_false (not_undone (List.mem_append_right _ hlock') fun h hmem => ?_)
        fun h => hsome' h.2
      rw [hlog, List.nil_append] at hmem
      exact hno' h hmem
  · refine iff_of_false (not_undone (List.mem_append_left _ hlock) fun h hmem => ?_)
      fun h => hsome h.1
    rcases hsides handle' offs' len' with ⟨-, hlog'⟩ | ⟨-, -, hno'⟩
    · rw [hlog', List.append_nil] at hmem
      exact hno h hmem
    · rcases List.mem_append.mp hmem with hmem | hmem
      · exact hno h hmem
      · exact hno' h hmem

theorem side_undone_iff :
    Undone (w.side ds type handle offs len).log ↔ w.takes handle offs len = none := by
  have hfail := @fail_undone_iff w ds type handle offs len 0 0 0
  have hnone : w.takes 0 0 0 = none := rfl
  rw [(@side_free w ds type _ _ _ hnone).1, List.append_nil, hnone, and_iff_left rfl] at hfail
  exact hfail

theorem side_client (h : handle = 0) :
    (w.side ds type handle offs len).va = noAddr ∧ w.takes handle offs len = none := by
  unfold World.side World.takes
  rw [if_neg (not_not_intro h), if_neg (not_not_intro h)]
  exact ⟨rfl, rfl⟩

theorem eq_zero_of_free (h : w.takes handle offs len = none)
    (hptr : (w.side ds type handle offs len).ptr ≠ 0) : handle = 0 := by
  by_contra hhandle
  exact hptr ((@side_free w ds type _ _ _ h).2 hhandle)

theorem log_of_taken (h : w.takes handle offs len = some win)
    (hptr : (w.side ds type handle offs len).ptr ≠ 0) :
    (w.side ds type handle offs len).log = [.lock handle, .map win] := by
  obtain ⟨-, hlog, -⟩ := @side_taken w ds type _ _ _ _ h
  rcases hlog with ⟨-, hno⟩ | hlog
  · exact absurd hno hptr
  · exact hlog

/-- The null address is in the last page. -/
theorem given_iff {h a b va : Nat} (hpage : win % 4096 = 0 → va / 4096 * 4096 = win) :
    a = h ∧ b = 0 ∧ va / 4096 * 4096 = win ∨ a = 0 ∧ b = h ∧ noAddr / 4096 * 4096 = win ↔
      win % 4096 = 0 ∧ (a = h ∧ b = 0 ∨ a = 0 ∧ b = h ∧ win = 0xfffff000) := by
  have hlast : noAddr / 4096 * 4096 = 0xfffff000 := rfl
  rw [hlast]
  by_cases haligned : win % 4096 = 0
  · rw [hpage haligned, and_iff_right haligned]
    omega
  · omega

theorem given_dest_iff {h a b va : Nat} (hpage : win % 4096 = 0 → va / 4096 * 4096 = win) :
    a = 0 ∧ b = h ∧ va / 4096 * 4096 = win ∨ a = h ∧ b = 0 ∧ noAddr / 4096 * 4096 = win ↔
      win % 4096 = 0 ∧ (a = 0 ∧ b = h ∨ a = h ∧ b = 0 ∧ win = 0xfffff000) := by
  have hgiven := @given_iff win h b a va hpage
  rw [and_left_comm, @and_left_comm (b = 0), @and_comm (b = h) (a = 0),
    @and_left_comm (b = 0) (a = h)] at hgiven
  exact hgiven

/-- A move that comes to the copy gives back what it took if the block is mapped at a page
boundary and the copy leaves the handles alone. -/
theorem copied_undone_iff (hone : emm.sourceHandle = 0 ∨ emm.destHandle = 0)
    (hs : (w.side ds type emm.sourceHandle emm.sourceOffset emm.length).ptr ≠ 0)
    (hd : (w.side ds type emm.destHandle emm.destOffset emm.length).ptr ≠ 0) :
    let sd := w.side ds type emm.sourceHandle emm.sourceOffset emm.length
    let dd := w.side ds type emm.destHandle emm.destOffset emm.length
    let emm' := readEmm (w.memcpy dd.ptr sd.ptr emm.length) e
    Undone (sd.log ++ dd.log ++ World.giveBack emm' sd.va dd.va) ↔
      (∀ win, w.takes emm.sourceHandle emm.sourceOffset emm.length = some win → win % 4096 = 0) ∧
        (∀ win, w.takes emm.destHandle emm.destOffset emm.length = some win → win % 4096 = 0) ∧
        Kept w emm e sd.ptr dd.ptr := by
  intro sd dd emm'
  unfold Kept
  change _ ↔ _ ∧ _ ∧
    ((emm'.sourceHandle = emm.sourceHandle ∧ emm'.destHandle = emm.destHandle) ∨
      (emm'.sourceHandle = emm.destHandle ∧ emm'.destHandle = emm.sourceHandle ∧ _))
  clear_value emm'
  have hwin (win : Nat) : (∀ win', some win = some win' → win' % 4096 = 0) ↔ win % 4096 = 0 :=
    ⟨fun h => h win rfl, fun h win' hwin' => Option.some.inj hwin' ▸ h⟩
  cases hsource : w.takes emm.sourceHandle emm.sourceOffset emm.length with
  | some win =>
      obtain ⟨hne, -, hpage⟩ := @side_taken w ds type _ _ _ _ hsource
      have hzero := hone.resolve_left hne
      obtain ⟨hva, hdest⟩ := @side_client w ds type _ emm.destOffset emm.length hzero
      have hlog : dd.log = [] := (@side_free w ds type _ _ _ hdest).1
      rw [log_of_taken hsource hs, hlog, List.append_nil, undone_iff hne, hva, hdest, hzero,
        given_iff fun haligned => (hpage haligned).1, hwin]
      simp
  | none =>
      have hszero := eq_zero_of_free hsource hs
      obtain ⟨hva, -⟩ := @side_client w ds type _ emm.sourceOffset emm.length hszero
      have hlog : sd.log = [] := (@side_free w ds type _ _ _ hsource).1
      cases hdest : w.takes emm.destHandle emm.destOffset emm.length with
      | some win =>
          obtain ⟨hne, -, hpage⟩ := @side_taken w ds type _ _ _ _ hdest
          have hnone : ∀ win', none = some win' → win' % 4096 = 0 := nofun
          have hno : ¬(none : Option Nat) = some 0xfffff000 := nofun
          rw [log_of_taken hdest hd, hlog, List.nil_append, undone_iff hne, hva, hszero, hwin,
            Option.some_inj, and_iff_right hnone, or_iff_right hno, or_comm]
          exact given_dest_iff fun haligned => (hpage haligned).1
      | none =>
          have hdzero := eq_zero_of_free hdest hd
          have hlog' : dd.log = [] := (@side_free w ds type _ _ _ hdest).1
          rw [hlog, hlog', List.append_nil, List.nil_append, giveBack_undone_iff, hszero, hdzero]
          simp

/-- A move that the thread does itself. -/
theorem copyMove_contained_iff (hone : (readEmm w.mem e).sourceHandle = 0 ∨
      (readEmm w.mem e).destHandle = 0) :
    Contained w r.ds type (readEmm w.mem e) (w.copyMove r type e) ↔ Careful w r.ds type e := by
  have hlt : (readEmm w.mem e).sourceOffset < 2 ^ 32 := loadWord_lt 4 w.mem (e + 6)
  have hlt' : (readEmm w.mem e).destOffset < 2 ^ 32 := loadWord_lt 4 w.mem (e + 12)
  have hcareful : Careful w r.ds type e ↔ _ ∧ _ ∧ _ :=
    ⟨fun h => ⟨h.source, h.dest, h.copies⟩, fun h => ⟨h.1, h.2.1, h.2.2⟩⟩
  rw [hcareful]
  clear hcareful
  unfold World.copyMove Contained
  dsimp only
  generalize readEmm w.mem e = emm at hone hlt hlt' ⊢
  have hback := @copied_undone_iff w r.ds type emm e hone
  have hfail := @fail_undone_iff w r.ds type emm.sourceHandle emm.sourceOffset emm.length
    emm.destOffset emm.length emm.destHandle
  have hsfail := @side_undone_iff w r.ds type emm.sourceHandle emm.sourceOffset emm.length
  have hsbytes := @bytes_iff w r.ds type emm.sourceHandle _ emm.length hlt
  have hdbytes := @bytes_iff w r.ds type emm.destHandle _ emm.length hlt'
  have hnone {o : Option Nat} : o = none ↔ ∀ win, ¬o = some win :=
    Option.eq_none_iff_forall_ne_some
  generalize w.side r.ds type emm.sourceHandle emm.sourceOffset emm.length = sd at *
  generalize w.side r.ds type emm.destHandle emm.destOffset emm.length = dd at *
  by_cases hs : sd.ptr = 0
  · rw [if_pos hs]
    unfold World.fail
    dsimp only
    rw [hsfail, hnone]
    constructor
    · rintro ⟨-, hfree⟩
      exact ⟨fun win htakes => absurd htakes (hfree win), fun _ hno => absurd hs hno,
        fun hno => absurd hs hno⟩
    · rintro ⟨hsrc, -⟩
      exact ⟨nofun, fun win htakes => (hsrc win htakes).2.1 hs⟩
  rw [if_neg hs]
  by_cases hd : dd.ptr = 0
  · rw [if_pos hd]
    unfold World.fail
    dsimp only
    rw [hfail, hnone, hnone]
    constructor
    · rintro ⟨-, hfree, hfree'⟩
      exact ⟨fun win htakes => absurd htakes (hfree win),
        fun win _ htakes => absurd htakes (hfree' win), fun _ hno => absurd hd hno⟩
    · rintro ⟨hsrc, hdst, -⟩
      exact ⟨nofun, fun win htakes => (hsrc win htakes).2.2 hd,
        fun win htakes => (hdst win hs htakes).2 hd⟩
  rw [if_neg hd]
  have hback := hback hs hd
  dsimp only at hback ⊢
  rw [hback]
  constructor
  · rintro ⟨hbytes, hsa, hda, hkept⟩
    have hbytes := hbytes _ rfl
    refine ⟨fun win htakes => ⟨hsa win htakes, hs, hd⟩, fun win _ htakes => ⟨hda win htakes, hd⟩,
      fun _ _ => ⟨fun hpos => ⟨?_, ?_⟩, hkept⟩⟩
    · exact (hsbytes hsa hs).mp (fun i hi => (hbytes i hi).1) hpos
    · exact (hdbytes hda hd).mp (fun i hi => (hbytes i hi).2) hpos
  · rintro ⟨hsrc, hdst, hcopies⟩
    obtain ⟨hreach, hkept⟩ := hcopies hs hd
    have hsa (win : Nat) (htakes : w.takes emm.sourceHandle emm.sourceOffset emm.length = some win) :=
      (hsrc win htakes).1
    have hda (win : Nat) (htakes : w.takes emm.destHandle emm.destOffset emm.length = some win) :=
      (hdst win hs htakes).1
    refine ⟨fun c hc i hi => ?_, hsa, hda, hkept⟩
    obtain rfl := Option.some.inj hc
    exact ⟨(hsbytes hsa hs).mpr (fun hpos => (hreach hpos).1) i hi,
      (hdbytes hda hd).mpr (fun hpos => (hreach hpos).2) i hi⟩

/-- A move that the extender does itself reads and writes inside its regions and gives back what
it took if and only if a block that is locked gets mapped at a page boundary and neither address
fails after that, the copy ends inside the mapped block, the process has both regions in one piece,
and the handles of the parameter structure are not overwritten. -/
theorem move_contained_iff (w : World) (r : Regs) (type : MoveType) (e : Nat)
    (h : Own w r type e) :
    Contained w r.ds type (readEmm w.mem e) (w.xmshlpThr r) ↔ Careful w r.ds type e := by
  have hone : (readEmm w.mem e).sourceHandle = 0 ∨ (readEmm w.mem e).destHandle = 0 := by
    have hdoes := h.does
    unfold World.doesMove at hdoes
    rw [Bool.and_eq_true, Bool.or_eq_true, decide_eq_true_iff, decide_eq_true_iff] at hdoes
    exact hdoes.1
  obtain ⟨r', hds, hthr⟩ := xmshlpThr_of_own h
  rw [hthr, ← hds]
  exact copyMove_contained_iff hone

/-! ## A client with a flat segment -/

/-- A parameter structure in the memory of the client. -/
def withEmm (emm : Emm) : Mem :=
  let m := storeWord 4 (fun _ => 0) 0x10001000 emm.length
  let m := storeWord 2 m 0x10001004 emm.sourceHandle
  let m := storeWord 4 m 0x10001006 emm.sourceOffset
  let m := storeWord 2 m 0x1000100a emm.destHandle
  storeWord 4 m 0x1000100c emm.destOffset

/-- A 32-bit client with a flat segment; the driver has one block of 64K. -/
def flatClient (emm : Emm) : World where
  is32 := true
  thunk1632 := false
  ldt := { Dpmi.oneClient with ldtBuffer := fun _ => 0x00CFF2000000FFFF#64 }
  unix := fun a => 0x10000000 + a
  mem := withEmm emm
  xms := fun h => if h = 5 then ⟨some 64, some 0x110000⟩ else ⟨none, none⟩
  mapHWRam := fun _ _ => 0x20000000
  dpmiEnd := 0x40000000

/-- Function 0Bh with the structure at offset 1000h. -/
def moveRegs : Regs :=
  ⟨0x0b00, 0, 0x107, 0x1000⟩

/-- Sixteen bytes from the client into the block. -/
theorem move_contained_near :
    Contained (flatClient ⟨16, 0, 0x2000, 5, 0x100⟩) 0x107 .unsaid
      (readEmm (withEmm ⟨16, 0, 0x2000, 5, 0x100⟩) 0x10001000)
      ((flatClient ⟨16, 0, 0x2000, 5, 0x100⟩).xmshlpThr moveRegs) := by
  refine (move_contained_iff _ moveRegs _ _
    ⟨by decide, by decide +kernel, by decide, by decide +kernel⟩).mpr ?_
  have hread : readEmm (flatClient ⟨16, 0, 0x2000, 5, 0x100⟩).mem 0x10001000 =
      ⟨16, 0, 0x2000, 5, 0x100⟩ := by
    decide +kernel
  have hsource : (flatClient ⟨16, 0, 0x2000, 5, 0x100⟩).takes 0 0x2000 16 = none := rfl
  have hdest : (flatClient ⟨16, 0, 0x2000, 5, 0x100⟩).takes 5 0x100 16 = some 0x20000000 := by
    decide +kernel
  refine ⟨?_, ?_, ?_⟩
  · rw [hread]
    dsimp only
    intro win htakes
    cases hsource.symm.trans htakes
  · rw [hread]
    dsimp only
    intro win _ htakes
    cases hdest.symm.trans htakes
    decide +kernel
  · rw [hread]
    dsimp only
    refine fun _ _ => ⟨fun _ => ⟨⟨nofun, ?_⟩, fun _ => ?_, ?_⟩, Or.inl ?_⟩
    · unfold Region.Flat
      decide +kernel
    · decide +kernel
    · unfold Region.Flat
      decide +kernel
    · decide +kernel

/-- The destination is no address of the client: the source block stays locked and mapped. -/
theorem source_block_leaks :
    Own (flatClient ⟨16, 5, 0, 0, 0xfffffff8⟩) moveRegs .unsaid 0x10001000 ∧
      ¬Contained (flatClient ⟨16, 5, 0, 0, 0xfffffff8⟩) 0x107 .unsaid
        (readEmm (withEmm ⟨16, 5, 0, 0, 0xfffffff8⟩) 0x10001000)
        ((flatClient ⟨16, 5, 0, 0, 0xfffffff8⟩).xmshlpThr moveRegs) := by
  refine ⟨⟨by decide, by decide +kernel, by decide, by decide +kernel⟩, fun hcontained => ?_⟩
  have hcount := hcontained.2.1 5
  revert hcount
  decide +kernel

end XmsMove
end Msdos
end Dosemu
