import Dosemu.Lib.Run

/-!
# The interrupt controllers

Two 8259 controllers: the output of the second drives line 2 of the first.  A line that is
requested sets its bit in `irr`, an acknowledged one has its bit in `isr` until the end of
interrupt command, and a line is offered if no line in service has its priority or a higher one.

Main results:

- Theorem `getIrq_eq_some_iff`: which line a controller offers.
- Theorem `intack_blocks`: an acknowledged line blocks what is left, unless it ends itself.
- Theorems `readIrq_own`, `readIrq_cascaded`: how an interrupt number is found.
-/

namespace Dosemu
namespace Pic

abbrev Byte := BitVec 8

/-- `1 << irq`, as a byte -/
def bit (irq : Nat) : Byte :=
  1#8 <<< irq

theorem getLsbD_bit {irq j : Nat} (hj : j < 8) : (bit irq).getLsbD j = decide (irq = j) := by
  unfold bit
  rw [BitVec.getLsbD_shiftLeft, BitVec.getLsbD_one, decide_eq_true hj]
  by_cases h : irq = j
  · rw [h]
    simp
  · have hne : j < irq ∨ j - irq ≠ 0 := by omega
    rcases hne with hlt | hsub
    · simp [hlt, h]
    · simp [hsub, h]

/-- `init_state`: 0, or the initialization command that is awaited -/
inductive InitState where
  | normal
  | icw2
  | icw3
  | icw4
  deriving DecidableEq

/-- `PICCommonState` -/
structure PicState where
  lastIrr : Byte
  irr : Byte
  imr : Byte
  isr : Byte
  priorityAdd : BitVec 3
  irqBase : Byte
  readRegSelect : Bool
  poll : Bool
  specialMask : Bool
  initState : InitState
  autoEoi : Bool
  rotateOnAutoEoi : Bool
  specialFullyNestedMode : Bool
  init4 : Bool
  singleMode : Bool
  elcr : Byte
  elcrMask : Byte
  fakeIrr : Byte
  master : Bool
  deriving DecidableEq

namespace PicState

variable (s : PicState)

/-! ## Priorities -/

/-- The line of a priority -/
def line (priority : Nat) : Nat :=
  (priority + s.priorityAdd.toNat) % 8

/-- The priority of a line; 0 is the highest. -/
def rank (irq : Nat) : Nat :=
  (irq + 8 - s.priorityAdd.toNat) % 8

/-- `get_priority` -/
def getPriority (mask : Byte) : Nat :=
  ((List.range 8).find? fun priority => mask.getLsbD (s.line priority)).getD 8

/-- The lines in service that count for the priority -/
def inService : Byte :=
  let mask := if s.specialMask then s.isr &&& ~~~s.imr else s.isr
  if s.specialFullyNestedMode && s.master then mask &&& ~~~bit 2 else mask

/-- `pic_get_irq`, none for -1 -/
def getIrq : Option Nat :=
  let priority := s.getPriority (s.irr &&& ~~~s.imr)
  if priority = 8 then none
  else if priority < s.getPriority s.inService then some (s.line priority)
  else none

/-! ## Registers -/

/-- `pic_set_irq`, but for `pic_update_irq` -/
def setIrq (irq : Nat) (level : Bool) : PicState :=
  if level then
    if s.elcr &&& bit irq ≠ 0 then
      { s with irr := s.irr ||| bit irq, lastIrr := s.lastIrr ||| bit irq }
    else
      { s with
        irr := if s.lastIrr &&& bit irq = 0 then s.irr ||| bit irq else s.irr
        lastIrr := s.lastIrr ||| bit irq }
  else { s with irr := s.irr &&& ~~~bit irq, lastIrr := s.lastIrr &&& ~~~bit irq }

/-- `pic_intack`, but for `pic_update_irq` -/
def intack (irq : Nat) : PicState :=
  { s with
    priorityAdd :=
      if s.autoEoi && s.rotateOnAutoEoi then BitVec.ofNat 3 (irq + 1) else s.priorityAdd
    isr := if s.autoEoi then s.isr else s.isr ||| bit irq
    irr := if s.elcr &&& bit irq = 0 then s.irr &&& ~~~bit irq else s.irr }

/-- `pic_reset_common` -/
def resetCommon : PicState where
  lastIrr := 0
  irr := s.irr &&& s.elcr
  imr := 0
  isr := 0
  priorityAdd := 0
  irqBase := 0
  readRegSelect := false
  poll := false
  specialMask := false
  initState := .normal
  autoEoi := false
  rotateOnAutoEoi := false
  specialFullyNestedMode := false
  init4 := false
  singleMode := false
  elcr := s.elcr
  elcrMask := s.elcrMask
  fakeIrr := 0
  master := s.master

/-- A state, and whether `pic_update_irq` is called on it -/
abbrev Updated := PicState × Bool

/-- The commands with bits 3 and 4 clear, by `val >> 5` -/
def command (val : Byte) : Updated :=
  match (val >>> 5).toNat with
  | 0 => ({ s with rotateOnAutoEoi := false }, false)
  | 4 => ({ s with rotateOnAutoEoi := true }, false)
  | 1 =>
    let priority := s.getPriority s.isr
    if priority = 8 then (s, false)
    else ({ s with isr := s.isr &&& ~~~bit (s.line priority) }, true)
  | 5 =>
    let priority := s.getPriority s.isr
    if priority = 8 then (s, false)
    else
      ({ s with
        isr := s.isr &&& ~~~bit (s.line priority)
        priorityAdd := BitVec.ofNat 3 (s.line priority + 1) }, true)
  | 3 => ({ s with isr := s.isr &&& ~~~bit (val &&& 7).toNat }, true)
  | 6 => ({ s with priorityAdd := BitVec.ofNat 3 (val.toNat + 1) }, true)
  | 7 =>
    ({ s with
      isr := s.isr &&& ~~~bit (val &&& 7).toNat
      priorityAdd := BitVec.ofNat 3 ((val &&& 7).toNat + 1) }, true)
  | _ => (s, false)

/-- The commands with bit 3 set: poll, the register that is read, the special mask mode -/
def control (val : Byte) : PicState :=
  { s with
    poll := s.poll || val.getLsbD 2
    readRegSelect := if val.getLsbD 1 then val.getLsbD 0 else s.readRegSelect
    specialMask := if val.getLsbD 6 then val.getLsbD 5 else s.specialMask }

/-- `pic_ioport_write` to the second port -/
def writeData (val : Byte) : Updated :=
  match s.initState with
  | .normal => ({ s with imr := val }, true)
  | .icw2 =>
    ({ s with
      irqBase := val &&& 0xf8
      initState := if s.singleMode then if s.init4 then .icw4 else .normal else .icw3 }, false)
  | .icw3 => ({ s with initState := if s.init4 then .icw4 else .normal }, false)
  | .icw4 =>
    ({ s with
      specialFullyNestedMode := val.getLsbD 4
      autoEoi := val.getLsbD 1
      initState := .normal }, false)

/-- The poll extension: the line that is written is acknowledged. -/
def pollWrite (val : Byte) : PicState :=
  { ({ s with fakeIrr := s.fakeIrr &&& ~~~bit val.toNat } : PicState).intack val.toNat with
    poll := false }

/-- The first initialization command -/
def initialize1 (val : Byte) : PicState :=
  { s.resetCommon with initState := .icw2, init4 := val.getLsbD 0, singleMode := val.getLsbD 1 }

/-- `pic_ioport_write`, where `data` is the second port -/
def ioportWrite (data : Bool) (val : Byte) : Updated :=
  if s.poll then (s.pollWrite val, true)
  else if data then s.writeData val
  else if val.getLsbD 4 then (s.initialize1 val, true)
  else if val.getLsbD 3 then (s.control val, false)
  else s.command val

/-- `pic_ioport_read` -/
def ioportRead (data : Bool) : Byte × Updated :=
  if s.poll && !data then
    match s.getIrq with
    | some irq => (BitVec.ofNat 8 irq ||| 0x80, { s.intack irq with poll := false }, true)
    | none => (0, { s with poll := false }, false)
  else if data then (s.imr, s, false)
  else if s.readRegSelect then (s.isr, s, false)
  else (s.irr ||| s.fakeIrr, s, false)

/-- `elcr_ioport_write` -/
def elcrWrite (val : Byte) : PicState :=
  { s with elcr := val &&& s.elcrMask }

end PicState

/-! ## Both controllers -/

/-- `pic` -/
structure Pics where
  pic0 : PicState
  pic1 : PicState
  deriving DecidableEq

namespace Pics

variable (ps : Pics)

/-- `pic_get_output` of the second controller -/
def output1 : Bool :=
  ps.pic1.getIrq.isSome

/-- `pic_update_irq` of the second controller.  That of the first only writes a message. -/
def update1 : Pics :=
  { ps with pic0 := ps.pic0.setIrq 2 ps.output1 }

/-- A controller after one of the functions above -/
def put (second : Bool) : PicState.Updated → Pics
  | (s, updated) =>
    if second then
      if updated then update1 { ps with pic1 := s } else { ps with pic1 := s }
    else { ps with pic0 := s }

def chip (second : Bool) : PicState :=
  if second then ps.pic1 else ps.pic0

/-- `pic_request` (with `level`) and `pic_untrigger` -/
def setLine (irq : Nat) (level : Bool) : Pics :=
  if 8 ≤ irq then ps.put true (ps.pic1.setIrq (irq - 8) level, true)
  else ps.put false (ps.pic0.setIrq irq level, true)

/-- `pic_read_irq`: the interrupt number -/
def readIrq : Byte × Pics :=
  match ps.pic0.getIrq with
  | none => (ps.pic0.irqBase + 7, ps)
  | some irq =>
    if irq = 2 then
      match ps.pic1.getIrq with
      | some irq2 =>
        let ps' := ps.put true (ps.pic1.intack irq2, true)
        (ps'.pic1.irqBase + BitVec.ofNat 8 irq2, ps'.put false (ps'.pic0.intack irq, true))
      | none => (ps.pic1.irqBase + 7, ps.put false (ps.pic0.intack irq, true))
    else (ps.pic0.irqBase + BitVec.ofNat 8 irq, ps.put false (ps.pic0.intack irq, true))

/-- `qemu_pic_reset` -/
def resetChip (second : Bool) : Pics :=
  ps.put second (({ ps.chip second with elcr := 0 } : PicState).resetCommon, true)

/-- `pic_reset` -/
def reset : Pics :=
  (ps.resetChip false).resetChip true

end Pics

/-- What the devices, the ports and the CPU ask of the controllers; `second` is the second
controller, `data` its second port. -/
inductive Op where
  | setLine (irq : Nat) (level : Bool)
  | write (second data : Bool) (val : Byte)
  | read (second data : Bool)
  | writeElcr (second : Bool) (val : Byte)
  | writeFirr (second : Bool) (val : Byte)
  | getInum
  | reset

namespace Pics

variable (ps : Pics)

/-- One operation and what it returns -/
def exec : Op → Byte × Pics
  | .setLine irq level => (0, ps.setLine irq level)
  | .write second data val => (0, ps.put second ((ps.chip second).ioportWrite data val))
  | .read second data =>
    (((ps.chip second).ioportRead data).1, ps.put second ((ps.chip second).ioportRead data).2)
  | .writeElcr second val => (0, ps.put second ((ps.chip second).elcrWrite val, false))
  | .writeFirr second val => (0, ps.put second ({ ps.chip second with fakeIrr := val }, false))
  | .getInum => ps.readIrq
  | .reset => (0, ps.reset)

def step (ps : Pics) (op : Op) : Option Pics :=
  some (ps.exec op).2

end Pics

/-- `pic_init`, after which both controllers are zero but for these fields -/
def initPics : Pics where
  pic0 := ⟨0, 0, 0, 0, 0, 0, false, false, false, .normal, false, false, false, false, false, 0,
    0xf8, 0, true⟩
  pic1 := ⟨0, 0, 0, 0, 0, 0, false, false, false, .normal, false, false, false, false, false, 0,
    0xde, 0, false⟩

/-! ## What a controller offers -/

namespace PicState

variable {s : PicState} {irq j : Nat} {mask : Byte}

theorem line_lt (s : PicState) (priority : Nat) : s.line priority < 8 :=
  Nat.mod_lt _ (by decide)

theorem rank_lt (s : PicState) (irq : Nat) : s.rank irq < 8 :=
  Nat.mod_lt _ (by decide)

theorem rank_line (s : PicState) {priority : Nat} (h : priority < 8) :
    s.rank (s.line priority) = priority := by
  have hadd := s.priorityAdd.isLt
  unfold rank line
  omega

theorem line_rank (s : PicState) (h : irq < 8) : s.line (s.rank irq) = irq := by
  have hadd := s.priorityAdd.isLt
  unfold rank line
  omega

theorem rank_inj (hirq : irq < 8) (hj : j < 8) (h : s.rank irq = s.rank j) : irq = j := by
  rw [← s.line_rank hirq, h, s.line_rank hj]

/-- The priority that is found is that of the first line of the mask. -/
theorem getPriority_cases (s : PicState) (mask : Byte) :
    (s.getPriority mask = 8 ∧ ∀ j, j < 8 → mask.getLsbD j = false) ∨
      ∃ irq, irq < 8 ∧ mask.getLsbD irq = true ∧ s.getPriority mask = s.rank irq ∧
        ∀ j, j < 8 → mask.getLsbD j = true → s.rank irq ≤ s.rank j := by
  unfold getPriority
  cases hfind : (List.range 8).find? fun priority => mask.getLsbD (s.line priority) with
  | none =>
    refine .inl ⟨rfl, ?_⟩
    intro j hj
    have hnone := List.find?_eq_none.mp hfind (s.rank j) (List.mem_range.mpr (s.rank_lt j))
    rw [s.line_rank hj] at hnone
    exact Bool.eq_false_iff.mpr hnone
  | some priority =>
    obtain ⟨hbit, hmem, hfirst⟩ := List.find?_range_eq_some.mp hfind
    have hlt := List.mem_range.mp hmem
    refine .inr ⟨s.line priority, s.line_lt priority, hbit, (s.rank_line hlt).symm, ?_⟩
    intro j hj hjbit
    rw [s.rank_line hlt]
    apply Nat.not_lt.mp
    intro hless
    have hno := hfirst (s.rank j) hless
    rw [s.line_rank hj, hjbit] at hno
    exact absurd hno (by decide)

/-- The line is requested and not masked. -/
def Requests (s : PicState) (irq : Nat) : Prop :=
  s.irr.getLsbD irq = true ∧ s.imr.getLsbD irq = false

theorem requests_iff (hirq : irq < 8) :
    (s.irr &&& ~~~s.imr).getLsbD irq = true ↔ s.Requests irq := by
  rw [BitVec.getLsbD_and, BitVec.getLsbD_not, decide_eq_true hirq, Bool.true_and,
    Bool.and_eq_true, Bool.not_eq_true']
  rfl

/-- A controller offers the first line that asks for it, if no line of its priority or a higher
one is in service. -/
theorem getIrq_eq_some_iff :
    s.getIrq = some irq ↔ irq < 8 ∧ s.Requests irq ∧
      (∀ j, j < 8 → s.Requests j → s.rank irq ≤ s.rank j) ∧
      ∀ j, j < 8 → s.inService.getLsbD j = true → s.rank irq < s.rank j := by
  unfold getIrq
  dsimp only
  rcases s.getPriority_cases (s.irr &&& ~~~s.imr) with
    ⟨hnone, hno⟩ | ⟨first, hlt, hbit, heq, hfirst⟩
  · rw [hnone, if_pos rfl]
    refine iff_of_false nofun ?_
    rintro ⟨hirq, hreq, -⟩
    have hset := (requests_iff hirq).mpr hreq
    rw [hno irq hirq] at hset
    cases hset
  · have hne : s.rank first ≠ 8 := (s.rank_lt first).ne
    rw [heq, if_neg hne, s.line_rank hlt]
    have hfirst' : ∀ j, j < 8 → s.Requests j → s.rank first ≤ s.rank j := fun j hj hreq =>
      hfirst j hj ((requests_iff hj).mpr hreq)
    have hiff : s.rank first < s.getPriority s.inService ↔
        ∀ j, j < 8 → s.inService.getLsbD j = true → s.rank first < s.rank j := by
      rcases s.getPriority_cases s.inService with ⟨hnone, hno⟩ | ⟨top, htop, hset, hrank, htopmost⟩
      · rw [hnone]
        refine iff_of_true (s.rank_lt first) ?_
        intro j hj hjset
        rw [hno j hj] at hjset
        cases hjset
      · rw [hrank]
        constructor
        · intro hless j hj hjset
          exact hless.trans_le (htopmost j hj hjset)
        · intro hall
          exact hall top htop hset
    by_cases hfree : s.rank first < s.getPriority s.inService
    · rw [if_pos hfree, Option.some.injEq]
      constructor
      · rintro rfl
        exact ⟨hlt, (requests_iff hlt).mp hbit, hfirst', hiff.mp hfree⟩
      · rintro ⟨hirq, hreq, hall, -⟩
        exact rank_inj hlt hirq (le_antisymm (hfirst' irq hirq hreq)
          (hall first hlt ((requests_iff hlt).mp hbit)))
    · rw [if_neg hfree]
      refine iff_of_false nofun ?_
      rintro ⟨hirq, hreq, hall, hservice⟩
      have heq' := rank_inj hlt hirq (le_antisymm (hfirst' irq hirq hreq)
        (hall first hlt ((requests_iff hlt).mp hbit)))
      exact hfree (hiff.mpr (heq' ▸ hservice))

theorem getIrq_eq_none_iff :
    s.getIrq = none ↔ ∀ irq, irq < 8 → s.Requests irq →
      ∃ j, j < 8 ∧ s.inService.getLsbD j = true ∧ s.rank j ≤ s.rank irq := by
  constructor
  · intro hnone irq hirq hreq
    by_contra hno
    rcases s.getPriority_cases (s.irr &&& ~~~s.imr) with ⟨-, hno'⟩ | ⟨first, hlt, hbit, -, hfirst⟩
    · have hset := (requests_iff hirq).mpr hreq
      rw [hno' irq hirq] at hset
      cases hset
    · have hless := hfirst irq hirq ((requests_iff hirq).mpr hreq)
      have hsome : s.getIrq = some first := by
        refine getIrq_eq_some_iff.mpr ⟨hlt, (requests_iff hlt).mp hbit, ?_, ?_⟩
        · intro j hj hjreq
          exact hfirst j hj ((requests_iff hj).mpr hjreq)
        · intro j hj hjset
          apply Nat.not_le.mp
          intro hle
          exact hno ⟨j, hj, hjset, hle.trans hless⟩
      rw [hnone] at hsome
      cases hsome
  · intro hblocked
    cases hget : s.getIrq with
    | none => rfl
    | some irq =>
      obtain ⟨hirq, hreq, -, hfree⟩ := getIrq_eq_some_iff.mp hget
      obtain ⟨j, hj, hjset, hle⟩ := hblocked irq hirq hreq
      exact absurd (hfree j hj hjset) (Nat.not_lt.mpr hle)

/-! ## What the functions keep -/

/-- A command changes the lines in service and the priorities, and then updates the output, or
neither of them. -/
theorem command_cases (s : PicState) (val : Byte) :
    s.command val = (s, false) ∨
      (∃ rotate, s.command val = ({ s with rotateOnAutoEoi := rotate }, false)) ∨
      ∃ isr add, s.command val = ({ s with isr := isr, priorityAdd := add }, true) := by
  unfold command
  split
  · exact .inr (.inl ⟨false, rfl⟩)
  · exact .inr (.inl ⟨true, rfl⟩)
  · dsimp only
    split_ifs
    · exact .inl rfl
    · exact .inr (.inr ⟨_, s.priorityAdd, rfl⟩)
  · dsimp only
    split_ifs
    · exact .inl rfl
    · exact .inr (.inr ⟨_, _, rfl⟩)
  · exact .inr (.inr ⟨_, s.priorityAdd, rfl⟩)
  · exact .inr (.inr ⟨s.isr, _, rfl⟩)
  · exact .inr (.inr ⟨_, _, rfl⟩)
  · exact .inl rfl

/-- A write to the second port sets the mask, or goes through the initialization. -/
theorem writeData_cases (s : PicState) (val : Byte) :
    s.writeData val = ({ s with imr := val }, true) ∨
      ∃ base state nested eoi, s.writeData val = ({ s with
        irqBase := base, initState := state, specialFullyNestedMode := nested,
        autoEoi := eoi }, false) := by
  unfold writeData
  split
  · exact .inl rfl
  · exact .inr ⟨_, _, s.specialFullyNestedMode, s.autoEoi, rfl⟩
  · exact .inr ⟨s.irqBase, _, s.specialFullyNestedMode, s.autoEoi, rfl⟩
  · exact .inr ⟨s.irqBase, .normal, _, _, rfl⟩

theorem ioportWrite_cases (s : PicState) (data : Bool) (val : Byte) :
    (s.poll = true ∧ s.ioportWrite data val = (s.pollWrite val, true)) ∨
      (s.poll = false ∧ data = true ∧ s.ioportWrite data val = s.writeData val) ∨
      (s.poll = false ∧ data = false ∧ val.getLsbD 4 = true ∧
        s.ioportWrite data val = (s.initialize1 val, true)) ∨
      (s.poll = false ∧ data = false ∧ val.getLsbD 4 = false ∧ val.getLsbD 3 = true ∧
        s.ioportWrite data val = (s.control val, false)) ∨
      (s.poll = false ∧ data = false ∧ val.getLsbD 4 = false ∧ val.getLsbD 3 = false ∧
        s.ioportWrite data val = s.command val) := by
  unfold ioportWrite
  cases s.poll with
  | true => exact .inl ⟨rfl, rfl⟩
  | false =>
    cases data with
    | true => exact .inr (.inl ⟨rfl, rfl, rfl⟩)
    | false =>
      cases val.getLsbD 4 with
      | true => exact .inr (.inr (.inl ⟨rfl, rfl, rfl, rfl⟩))
      | false =>
        cases val.getLsbD 3 with
        | true => exact .inr (.inr (.inr (.inl ⟨rfl, rfl, rfl, rfl, rfl⟩)))
        | false => exact .inr (.inr (.inr (.inr ⟨rfl, rfl, rfl, rfl, rfl⟩)))

/-- A read changes nothing, ends the poll mode, or acknowledges the line that is offered. -/
theorem ioportRead_cases (s : PicState) (data : Bool) :
    (s.ioportRead data).2 = (s, false) ∨
      (s.ioportRead data).2 = ({ s with poll := false }, false) ∨
      ∃ irq, s.poll = true ∧ data = false ∧ s.getIrq = some irq ∧
        (s.ioportRead data).2 = ({ s.intack irq with poll := false }, true) := by
  unfold ioportRead
  split_ifs with hpoll
  · rw [Bool.and_eq_true, Bool.not_eq_true'] at hpoll
    cases s.getIrq with
    | none => exact .inr (.inl rfl)
    | some irq => exact .inr (.inr ⟨irq, hpoll.1, hpoll.2, rfl, rfl⟩)
  · exact .inl rfl
  · exact .inl rfl
  · exact .inl rfl

theorem getIrq_lt (h : s.getIrq = some irq) : irq < 8 :=
  (getIrq_eq_some_iff.mp h).1

/-- What a controller offers depends on these registers only. -/
theorem getIrq_congr {t : PicState} (hirr : t.irr = s.irr) (himr : t.imr = s.imr)
    (hadd : t.priorityAdd = s.priorityAdd) (hservice : t.inService = s.inService) :
    t.getIrq = s.getIrq := by
  unfold getIrq getPriority line
  rw [hirr, himr, hadd, hservice]

/-- An acknowledged line blocks what is left, unless it ends itself or is left out of account. -/
theorem intack_blocks (h : s.getIrq = some irq) (heoi : s.autoEoi = false)
    (hnested : (s.specialFullyNestedMode && s.master) = false) : (s.intack irq).getIrq = none := by
  obtain ⟨hirq, ⟨-, hmask⟩, hfirst, -⟩ := getIrq_eq_some_iff.mp h
  have hrank : ∀ j, (s.intack irq).rank j = s.rank j := by
    intro j
    unfold rank intack
    rw [heoi]
    rfl
  refine getIrq_eq_none_iff.mpr ?_
  rintro j hj ⟨hjirr, hjimr⟩
  refine ⟨irq, hirq, ?_, ?_⟩
  · have hisr : (s.isr ||| bit irq).getLsbD irq = true := by
      rw [BitVec.getLsbD_or, getLsbD_bit hirq, decide_eq_true rfl, Bool.or_true]
    have hservice : (s.intack irq).inService =
        if s.specialMask then (s.isr ||| bit irq) &&& ~~~s.imr else s.isr ||| bit irq := by
      unfold inService intack
      rw [heoi]
      dsimp only
      rw [hnested]
      rfl
    rw [hservice]
    split
    · rw [BitVec.getLsbD_and, hisr, BitVec.getLsbD_not, hmask, decide_eq_true hirq]
      rfl
    · exact hisr
  · rw [hrank, hrank]
    refine hfirst j hj ⟨?_, hjimr⟩
    unfold intack at hjirr
    dsimp only at hjirr
    split at hjirr
    · rw [BitVec.getLsbD_and, Bool.and_eq_true] at hjirr
      exact hjirr.1
    · exact hjirr

end PicState

namespace Pics

variable {ps : Pics}

/-- A line that is offered and is not that of the second controller -/
theorem readIrq_own {irq : Nat} (h : ps.pic0.getIrq = some irq) (hne : irq ≠ 2) :
    ps.readIrq = (ps.pic0.irqBase + BitVec.ofNat 8 irq,
      ps.put false (ps.pic0.intack irq, true)) := by
  unfold readIrq
  rw [h]
  dsimp only
  rw [if_neg hne]

/-- A line of the second controller -/
theorem readIrq_cascaded {irq2 : Nat} (h : ps.pic0.getIrq = some 2)
    (h2 : ps.pic1.getIrq = some irq2) :
    ps.readIrq = (ps.pic1.irqBase + BitVec.ofNat 8 irq2,
      (ps.put true (ps.pic1.intack irq2, true)).put false
        ((ps.put true (ps.pic1.intack irq2, true)).pic0.intack 2, true)) := by
  unfold readIrq
  rw [h, h2]
  rfl

theorem readIrq_none (h : ps.pic0.getIrq = none) : ps.readIrq = (ps.pic0.irqBase + 7, ps) := by
  unfold readIrq
  rw [h]

end Pics

end Pic
end Dosemu
