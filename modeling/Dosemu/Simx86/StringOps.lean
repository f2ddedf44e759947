import Dosemu.Lib.DoWhile
import Dosemu.Lib.WordMem
import Dosemu.Simx86.Direction

/-!
# Repeated string instructions

With a REP prefix the simulator does not take a string instruction once for
each element.  It computes one linear address, runs a loop over memory from it,
and moves SI and DI by one multiplication afterwards.  With 16-bit addresses
that is right only while the run stays inside of the segment, so MOVS and STOS
take a run that passes the end in pieces and keep shadow copies of SI and DI for
it; LODS does not.

Main results:

- Theorem `repString_terminates`: the loops are left for every state.
- Theorem `repString_matches`: where the run stays inside of the segment, or the
  way it passes the end is handled, the repeated instruction does what the
  instruction for one element does, repeated.
-/

namespace Dosemu
namespace Simx86

open DoWhile WordMem

/-! ## Elements -/

/-- `OPSIZE` as a number of bytes. -/
def OpSize.len : OpSize → Nat
  | .byte => 1
  | .word => 2
  | .dword => 4

/-- The part of a register that an element fills. -/
def OpSize.part : OpSize → Word → Word
  | .byte, r => r &&& 0xff#32
  | .word, r => r &&& 0xffff#32
  | .dword, r => r

/-- Assignment to that part. -/
def OpSize.setPart : OpSize → Word → Word → Word
  | .byte, r, v => (r &&& 0xffffff00#32) ||| (v &&& 0xff#32)
  | .word, r, v => setLow r v
  | .dword, _, v => v

/-- The result of a comparison, as the cast to a signed type leaves it. -/
def OpSize.signed : OpSize → Word → Word
  | .byte, v => (v.setWidth 8).signExtend 32
  | .word, v => (v.setWidth 16).signExtend 32
  | .dword, v => v

/-- `FlagHandleSub`. -/
def flagHandleSub (size : OpSize) (src1 src2 res : Word) : Rfl :=
  let cout := (~~~src1 &&& src2) ||| ((~~~src1 ^^^ src2) &&& res)
  { cout :=
      match size with
      | .dword => cout &&& ~~~(lfMaskSD ||| lfMaskPD)
      | .word => (cout <<< 16) ||| (cout &&& lfMaskAF)
      | .byte => (cout <<< 24) ||| (cout &&& lfMaskAF)
    res := res }

/-- The flags of a comparison of two elements. -/
def compareFlags (size : OpSize) (s1 s2 : Word) : Rfl :=
  flagHandleSub size s1 s2 (size.signed (s1 - s2))

/-- An index or count register, as the address size takes it. -/
def ptr (addr16 : Bool) (r : Word) : Word :=
  if addr16 then r &&& 0xffff#32 else r

/-- Assignment to such a register. -/
def setPtr (addr16 : Bool) (r v : Word) : Word :=
  if addr16 then setLow r v else v

/-- The bases of the two segments are those of the source, which may be
overridden, and of ES. -/
structure StringState where
  cpu : Cpu
  mem : Mem
  srcBase : Word
  esBase : Word

/-- The string instructions. -/
inductive StringOp
  | movs
  | lods
  | stos
  | scas
  | cmps
deriving DecidableEq, Repr

/-- A string instruction; `repe` tells its two conditional prefixes apart. -/
structure StringInsn where
  op : StringOp
  size : OpSize
  addr16 : Bool
  repe : Bool
deriving DecidableEq, Repr

namespace StringState

/-- `O_MOVS_SetA`. -/
def setA (s : StringState) (addr16 src : Bool) : Word :=
  if src then s.srcBase + ptr addr16 s.cpu.esi else s.esBase + ptr addr16 s.cpu.edi

/-- `L_DI_R1`. -/
def loadDi (s : StringState) (size : OpSize) (memRef : Word) : StringState :=
  { s with cpu := { s.cpu with dr1 := size.setPart s.cpu.dr1 (readLe size.len s.mem memRef) } }

/-- `S_DI`. -/
def storeDi (s : StringState) (size : OpSize) (memRef : Word) : StringState :=
  { s with mem := writeLe size.len s.mem memRef s.cpu.dr1 }

/-- `L_REG` of the accumulator. -/
def loadAcc (s : StringState) (size : OpSize) : StringState :=
  { s with cpu := { s.cpu with dr1 := size.setPart s.cpu.dr1 s.cpu.eax } }

/-- `S_REG` of the accumulator. -/
def storeAcc (s : StringState) (size : OpSize) : StringState :=
  { s with cpu := { s.cpu with eax := size.setPart s.cpu.eax s.cpu.dr1 } }

/-- `O_CMP_FR` of the accumulator. -/
def cmpAcc (s : StringState) (size : OpSize) : StringState :=
  { s with cpu := { s.cpu with
      rfl := compareFlags size (size.part s.cpu.eax) (size.part s.cpu.dr1) } }

/-- `O_MOVS_SavA`. -/
def savA (s : StringState) (i : StringInsn) (rep src dst : Bool) : StringState :=
  { s with cpu := movsSavA s.cpu i.size i.addr16 rep src dst }

/-- The direction as the loops test it. -/
def down (s : StringState) : Bool :=
  s.cpu.eflags &&& eflagsDF != 0#32

/-- How often the loops run. -/
def count (s : StringState) (i : StringInsn) : Nat :=
  (ptr i.addr16 s.cpu.ecx).toNat

end StringState

/-! ## One element -/

/-- MOVS. -/
def movs (i : StringInsn) (s : StringState) : StringState :=
  let s := s.loadDi i.size (s.setA i.addr16 true)
  (s.storeDi i.size (s.setA i.addr16 false)).savA i false true true

/-- LODS. -/
def lods (i : StringInsn) (s : StringState) : StringState :=
  ((s.loadDi i.size (s.setA i.addr16 true)).storeAcc i.size).savA i false true false

/-- STOS. -/
def stos (i : StringInsn) (s : StringState) : StringState :=
  let s := s.loadAcc i.size
  (s.storeDi i.size (s.setA i.addr16 false)).savA i false false true

/-- SCAS. -/
def scas (i : StringInsn) (s : StringState) : StringState :=
  ((s.loadDi i.size (s.setA i.addr16 false)).cmpAcc i.size).savA i false false true

/-- `O_MOVS_CmpD` without a prefix: the first element is in the data register. -/
def cmpD (s : StringState) (i : StringInsn) : StringState :=
  { s with cpu := { s.cpu with
      rfl := compareFlags i.size (i.size.part s.cpu.dr1)
        (readLe i.size.len s.mem (s.esBase + ptr i.addr16 s.cpu.edi)) } }

/-- CMPS. -/
def cmps (i : StringInsn) (s : StringState) : StringState :=
  (cmpD (s.loadDi i.size (s.setA i.addr16 true)) i).savA i false true true

/-- The instruction for one element. -/
def single (i : StringInsn) : StringState → StringState :=
  match i.op with
  | .movs => movs i
  | .lods => lods i
  | .stos => stos i
  | .scas => scas i
  | .cmps => cmps i

/-! ## MOVS with a prefix -/

/-- The stride of the loops. -/
def stride (down : Bool) (size : OpSize) : Word :=
  if down then -size.bytes else size.bytes

/-- `while (i--)` of MOVS: memory, and where the two pointers are left. -/
def moveElems (d : Word) (size : OpSize) : Nat → Word → Word → Mem → Mem × Word × Word
  | 0, src, dest, m => (m, src, dest)
  | n + 1, src, dest, m =>
      moveElems d size n (src + d) (dest + d) (writeLe size.len m dest (readLe size.len m src))

/-- The variables of `O_MOVS_MovD`: shadows of DI and SI, the two pointers and
the count. -/
structure MovD where
  sr1 : Nat
  dr2 : Nat
  ar1 : Word
  ar2 : Word
  i : Nat
  mem : Mem

namespace MovD

/-- The distance to the end of the segment. -/
def minofs (v : MovD) (down : Bool) : Nat :=
  if down then min v.sr1 v.dr2 else 0x10000 - max v.sr1 v.dr2

/-- `bytesbefore > minofs`: the run passes the end of the segment. -/
def overflow (v : MovD) (down addr16 : Bool) (size : OpSize) : Bool :=
  addr16 && decide (v.minofs down < (if down then v.i - 1 else v.i) * size.len)

/-- A shadow offset behind a piece, downwards. -/
def back (x minofs : Nat) : Nat :=
  if 0 < x - minofs then x - minofs - 1 else 0xffff

/-- `emulate overflow`, downwards. -/
def wrapDown (v : MovD) (minofs : Nat) : MovD :=
  let v := if v.sr1 = minofs then
      { v with ar2 := v.ar2 + 0x10000#32, sr1 := 0xffff, dr2 := back v.dr2 minofs }
    else v
  if v.dr2 = minofs then
    { v with ar1 := v.ar1 + 0x10000#32, dr2 := 0xffff, sr1 := back v.sr1 minofs }
  else v

/-- `emulate overflow`, upwards. -/
def wrapUp (v : MovD) (minofs : Nat) : MovD :=
  let v := if v.sr1 = 0x10000 - minofs then
      { v with ar2 := v.ar2 - 0x10000#32, sr1 := 0, dr2 := (v.dr2 + minofs) % 0x10000 }
    else v
  if v.dr2 = 0x10000 - minofs then
    { v with ar1 := v.ar1 - 0x10000#32, dr2 := 0, sr1 := (v.sr1 + minofs) % 0x10000 }
  else v

/-- A turn of the loop: a fault, or the memory it leaves.  Each turn reads from
`memRef` again; the pointer `ar1` is kept and not used. -/
def turn (down addr16 : Bool) (size : OpSize) (memRef : Word) (v : MovD) :
    Turn MovD (Except Mem Mem) :=
  let minofs := v.minofs down
  let overflow := v.overflow down addr16 size
  if v.i = 0 then .leave (.ok v.mem)
  else if overflow = true ∧ minofs % size.len ≠ 0 then .leave (.error v.mem)
  else
    let possible := minofs / size.len + (if down then 1 else 0)
    let i := if overflow then possible else v.i
    let rest := v.i - i
    let (mem, src, dest) := moveElems (stride down size) size i memRef v.ar2 v.mem
    let v := { v with ar1 := src, ar2 := dest, i := rest, mem := mem }
    if rest = 0 then .leave (.ok mem)
    else .again (if down then v.wrapDown minofs else v.wrapUp minofs)

end MovD

/-- The variables before the loop. -/
def MovD.start (s : StringState) (i : StringInsn) (memRef : Word) : MovD :=
  { sr1 := (ptr true s.cpu.edi).toNat
    dr2 := (ptr true s.cpu.esi).toNat
    ar1 := memRef
    ar2 := s.esBase + ptr i.addr16 s.cpu.edi
    i := s.count i
    mem := s.mem }

/-- `O_MOVS_MovD`: the memory it leaves, or leaves in a fault. -/
def movsMovD (s : StringState) (i : StringInsn) (memRef : Word) : Option (Except Mem Mem) :=
  loop (MovD.turn s.down i.addr16 i.size memRef) (s.count i + 1) (.start s i memRef)

/-! ## STOS with a prefix -/

/-- The loop of STOS: memory, and where the pointer is left. -/
def fillElems (d : Word) (size : OpSize) (dr1 : Word) : Nat → Word → Mem → Mem × Word
  | 0, addr, m => (m, addr)
  | n + 1, addr, m => fillElems d size dr1 n (addr + d) (writeLe size.len m addr dr1)

/-- The variables of `O_MOVS_StoD`. -/
structure StoD where
  sr1 : Nat
  ar1 : Word
  i : Nat
  mem : Mem

namespace StoD

/-- The distance to the end of the segment. -/
def minofs (v : StoD) (down : Bool) : Nat :=
  if down then v.sr1 else 0x10000 - v.sr1

/-- `bytesbefore > minofs`: the run passes the end of the segment. -/
def overflow (v : StoD) (down addr16 : Bool) (size : OpSize) : Bool :=
  addr16 && decide (v.i ≠ 0) &&
    decide (v.minofs down < (if down then v.i - 1 else v.i) * size.len)

/-- A turn of the loop.  The alignment is that of the linear address. -/
def turn (down addr16 : Bool) (size : OpSize) (dr1 : Word) (v : StoD) :
    Turn StoD (Except Mem Mem) :=
  let minofs := v.minofs down
  let overflow := v.overflow down addr16 size
  if overflow = true ∧ v.ar1.toNat % size.len ≠ 0 then .leave (.error v.mem)
  else
    let possible := minofs / size.len + (if down then 1 else 0)
    let i := if overflow then possible else v.i
    let rest := v.i - i
    let (mem, addr) := fillElems (stride down size) size dr1 i v.ar1 v.mem
    if rest = 0 then .leave (.ok mem)
    else
      .again
        { sr1 := if down then 0xffff else 0
          ar1 := if down then addr + 0x10000#32 else addr - 0x10000#32
          i := rest
          mem := mem }

end StoD

/-- The variables before the loop. -/
def StoD.start (s : StringState) (i : StringInsn) (memRef : Word) : StoD :=
  { sr1 := (ptr true s.cpu.edi).toNat, ar1 := memRef, i := s.count i, mem := s.mem }

/-- `O_MOVS_StoD`. -/
def movsStoD (s : StringState) (i : StringInsn) (memRef : Word) : Option (Except Mem Mem) :=
  loop (StoD.turn s.down i.addr16 i.size s.cpu.dr1) (2 * s.count i + 2) (.start s i memRef)

/-! ## LODS, SCAS and CMPS with a prefix -/

/-- The loop of `O_MOVS_LodD`: the data register. -/
def loadElems (d : Word) (size : OpSize) (m : Mem) : Nat → Word → Word → Word
  | 0, _, dr1 => dr1
  | n + 1, addr, dr1 =>
      loadElems d size m n (addr + d) (size.setPart dr1 (readLe size.len m addr))

/-- `O_MOVS_LodD`. -/
def movsLodD (s : StringState) (i : StringInsn) (memRef : Word) : StringState :=
  { s with cpu := { s.cpu with
      dr1 := loadElems (stride s.down i.size) i.size s.mem (s.count i) memRef s.cpu.dr1 } }

/-- The loops that compare: the count left, the offsets left and the flags. -/
def compareLoop {α : Type} (next : α → α) (test : α → Rfl) (k : Bool) :
    Nat → α → Rfl → Nat × α × Rfl
  | 0, p, r => (0, p, r)
  | n + 1, p, _ =>
      if isZfSet (test p) = k then compareLoop next test k n (next p) (test p)
      else (n, next p, test p)

/-- The registers after the loop of SCAS. -/
def StringState.saveScaD (s : StringState) (i : StringInsn) : Nat × Word × Rfl → StringState
  | (n, di, r) =>
      { s with cpu := { s.cpu with
          ecx := setPtr i.addr16 s.cpu.ecx (BitVec.ofNat 32 n)
          edi := setPtr i.addr16 s.cpu.edi di
          rfl := r } }

/-- `O_MOVS_ScaD`. -/
def movsScaD (s : StringState) (i : StringInsn) (memRef : Word) : StringState :=
  let d := stride s.down i.size
  let di := ptr i.addr16 s.cpu.edi
  let addr := memRef - di
  if s.count i = 0 then s
  else
    s.saveScaD i (compareLoop (fun di => ptr i.addr16 (di + d))
      (fun di => compareFlags i.size (i.size.part s.cpu.dr1)
        (readLe i.size.len s.mem (addr + di))) i.repe (s.count i) di s.cpu.rfl)

/-- The registers after the loop of CMPS. -/
def StringState.saveCmpD (s : StringState) (i : StringInsn) :
    Nat × (Word × Word) × Rfl → StringState
  | (n, (si, di), r) =>
      { s with cpu := { s.cpu with
          esi := setPtr i.addr16 s.cpu.esi si
          edi := setPtr i.addr16 s.cpu.edi di
          ecx := setPtr i.addr16 s.cpu.ecx (BitVec.ofNat 32 n)
          rfl := r } }

/-- `O_MOVS_CmpD` with a prefix. -/
def movsCmpD (s : StringState) (i : StringInsn) (memRef : Word) : StringState :=
  let d := stride s.down i.size
  let di := ptr i.addr16 s.cpu.edi
  let si := ptr i.addr16 s.cpu.esi
  let addr1 := s.esBase
  let addr2 := memRef - si
  if s.count i = 0 then s
  else
    s.saveCmpD i
      (compareLoop (fun p : Word × Word => (ptr i.addr16 (p.1 + d), ptr i.addr16 (p.2 + d)))
        (fun p => compareFlags i.size (readLe i.size.len s.mem (addr2 + p.1))
          (readLe i.size.len s.mem (addr1 + p.2))) i.repe (s.count i) (si, di) s.cpu.rfl)

/-! ## The instructions with a prefix -/

/-- After the transfer of MOVS or STOS: the fault is raised, or the pointers are
moved. -/
def StringState.finish (s : StringState) (i : StringInsn) (src : Bool) :
    Except Mem Mem → Except StringState StringState
  | .error m => .error { s with mem := m, cpu := { s.cpu with err := excpGpf } }
  | .ok m => .ok (StringState.savA { s with mem := m } i true src true)

/-- A string instruction with a prefix: `error` is a general protection fault. -/
def repString (i : StringInsn) (s : StringState) : Option (Except StringState StringState) :=
  match i.op with
  | .movs => (movsMovD s i (s.setA i.addr16 true)).map (s.finish i true)
  | .lods =>
      some (.ok (((movsLodD s i (s.setA i.addr16 true)).storeAcc i.size).savA i true true false))
  | .stos =>
      let memRef := s.setA i.addr16 false
      let s := s.loadAcc i.size
      (movsStoD s i memRef).map (s.finish i false)
  | .scas => some (.ok (movsScaD (s.loadAcc i.size) i (s.setA i.addr16 false)))
  | .cmps => some (.ok (movsCmpD s i (s.setA i.addr16 true)))

/-! ## What the prefix means -/

/-- The count register, one down. -/
def StringState.countDown (s : StringState) (i : StringInsn) : StringState :=
  { s with cpu := { s.cpu with ecx := setPtr i.addr16 s.cpu.ecx (s.cpu.ecx - 1#32) } }

/-- The instructions that stop on the zero flag. -/
def StringOp.conditional : StringOp → Bool
  | .scas | .cmps => true
  | _ => false

/-- The instruction for one element, repeated. -/
def repSteps (i : StringInsn) : Nat → StringState → StringState
  | 0, s => s
  | n + 1, s =>
      let s := (single i s).countDown i
      if i.op.conditional && (isZfSet s.cpu.rfl != i.repe) then s else repSteps i n s

/-- What a program can see of a state: everything but the data register. -/
def StringState.visible (s : StringState) : StringState :=
  { s with cpu := { s.cpu with dr1 := 0#32 } }

/-- The instructions that use SI. -/
def StringOp.usesSrc : StringOp → Bool
  | .movs | .lods | .cmps => true
  | _ => false

/-- The instructions that use DI. -/
def StringOp.usesDst : StringOp → Bool
  | .lods => false
  | _ => true

/-- The offset of an element of the run. -/
def elemOffset (i : StringInsn) (s : StringState) (r : Word) (k : Nat) : Nat :=
  (ptr i.addr16 (r + stride s.down i.size * BitVec.ofNat 32 k)).toNat

/-- Some element of the run straddles the end of the 64K segment. -/
def Straddles (i : StringInsn) (s : StringState) : Prop :=
  i.addr16 = true ∧ ∃ k < s.count i,
    (i.op.usesSrc = true ∧ 0x10000 < elemOffset i s s.cpu.esi k + i.size.len) ∨
      (i.op.usesDst = true ∧ 0x10000 < elemOffset i s s.cpu.edi k + i.size.len)

/-- The repeated instruction does what the repeated single instruction does, or
faults over an element that straddles the end of the segment. -/
def Matches (i : StringInsn) (s : StringState) : Prop :=
  match repString i s with
  | none => False
  | some (.error _) => Straddles i s
  | some (.ok t) => t.visible = (repSteps i (s.count i) s).visible

/-! ## Parts of registers -/

variable {i : StringInsn} {s t : StringState} {size : OpSize} {addr16 : Bool} {m : Mem}
  {a d r v w : Word} {n k : Nat}

theorem OpSize.len_pos (size : OpSize) : 0 < size.len := by
  cases size <;> decide

theorem OpSize.len_le (size : OpSize) : size.len ≤ 4 := by
  cases size <;> decide

/-- The end of the segment is aligned for every size. -/
theorem OpSize.dvd_segment (size : OpSize) : size.len ∣ 0x10000 := by
  cases size <;> decide

theorem getLsbD_setLow (j : Nat) :
    (setLow r v).getLsbD j = if j < 16 then v.getLsbD j else r.getLsbD j := by
  by_cases hj : j < 32
  · have hmask : ∀ j < 32, (0xffff0000#32).getLsbD j = !decide (j < 16) ∧
        (0xffff#32).getLsbD j = decide (j < 16) := by decide
    obtain ⟨hhigh, hlow⟩ := hmask j hj
    simp only [setLow, BitVec.getLsbD_or, BitVec.getLsbD_and, hhigh, hlow]
    by_cases h16 : j < 16 <;> simp [h16]
  · rw [BitVec.getLsbD_of_ge _ _ (by omega), BitVec.getLsbD_of_ge v _ (by omega),
      BitVec.getLsbD_of_ge r _ (by omega), ite_self]

theorem OpSize.getLsbD_setPart (size : OpSize) (j : Nat) :
    (size.setPart r v).getLsbD j = if j < 8 * size.len then v.getLsbD j else r.getLsbD j := by
  by_cases hj : j < 32
  · cases size with
    | byte =>
        have hmask : ∀ j < 32, (0xffffff00#32).getLsbD j = !decide (j < 8) ∧
            (0xff#32).getLsbD j = decide (j < 8) := by decide
        obtain ⟨hhigh, hlow⟩ := hmask j hj
        simp only [OpSize.setPart, OpSize.len, BitVec.getLsbD_or, BitVec.getLsbD_and, hhigh, hlow]
        by_cases h8 : j < 8 <;> simp [h8]
    | word => exact getLsbD_setLow j
    | dword =>
        have hin : j < 8 * OpSize.dword.len := hj
        rw [if_pos hin]
        rfl
  · rw [BitVec.getLsbD_of_ge _ _ (by omega), BitVec.getLsbD_of_ge v _ (by omega),
      BitVec.getLsbD_of_ge r _ (by omega), ite_self]

theorem OpSize.getLsbD_part (size : OpSize) (j : Nat) :
    (size.part r).getLsbD j = (decide (j < 8 * size.len) && r.getLsbD j) := by
  by_cases hj : j < 32
  · have hmask : ∀ j < 32, (0xff#32).getLsbD j = decide (j < 8) ∧
        (0xffff#32).getLsbD j = decide (j < 16) := by decide
    obtain ⟨hbyte, hword⟩ := hmask j hj
    cases size with
    | byte =>
        rw [OpSize.part, BitVec.getLsbD_and, hbyte, Bool.and_comm]
        rfl
    | word =>
        rw [OpSize.part, BitVec.getLsbD_and, hword, Bool.and_comm]
        rfl
    | dword => simp [OpSize.part, OpSize.len, hj]
  · rw [BitVec.getLsbD_of_ge _ _ (by omega), BitVec.getLsbD_of_ge r _ (by omega), Bool.and_false]

@[simp]
theorem OpSize.setPart_setPart (size : OpSize) :
    size.setPart (size.setPart r v) w = size.setPart r w := by
  refine BitVec.eq_of_getLsbD_eq fun j _ => ?_
  simp only [OpSize.getLsbD_setPart]
  split <;> rfl

@[simp]
theorem OpSize.setPart_of_setPart (size : OpSize) :
    size.setPart r (size.setPart v w) = size.setPart r w := by
  refine BitVec.eq_of_getLsbD_eq fun j _ => ?_
  simp only [OpSize.getLsbD_setPart]
  split <;> rfl

@[simp]
theorem OpSize.part_setPart (size : OpSize) : size.part (size.setPart r v) = size.part v := by
  refine BitVec.eq_of_getLsbD_eq fun j _ => ?_
  rw [OpSize.getLsbD_part, OpSize.getLsbD_part, OpSize.getLsbD_setPart]
  by_cases hj : j < 8 * size.len <;> simp [hj]

/-- Storing a part of its own register changes nothing. -/
theorem OpSize.setPart_eq_iff (size : OpSize) :
    size.setPart r v = r ↔ size.part v = size.part r := by
  constructor
  · intro h
    rw [← @OpSize.part_setPart r v size, h]
  · intro h
    refine BitVec.eq_of_getLsbD_eq fun j _ => ?_
    have hbit := congrArg (fun x : Word => x.getLsbD j) h
    simp only [OpSize.getLsbD_part] at hbit
    rw [OpSize.getLsbD_setPart]
    split
    · next hin => simpa [hin] using hbit
    · rfl

/-- An element from memory fills its part and no more. -/
@[simp]
theorem OpSize.part_readLe (size : OpSize) :
    size.part (readLe size.len m a) = readLe size.len m a := by
  refine BitVec.eq_of_getLsbD_eq fun j hj => ?_
  rw [OpSize.getLsbD_part, getLsbD_readLe hj]
  simp

@[simp]
theorem OpSize.writeLe_setPart (size : OpSize) :
    writeLe size.len m a (size.setPart r v) = writeLe size.len m a v :=
  writeLe_congr fun j hj => by rw [OpSize.getLsbD_setPart, if_pos hj]

/-! ## Index registers -/

theorem getLsbD_ptr (j : Nat) :
    (ptr addr16 r).getLsbD j = ((!addr16 || decide (j < 16)) && r.getLsbD j) := by
  cases addr16 with
  | false => simp [ptr]
  | true => exact OpSize.getLsbD_part .word j

theorem getLsbD_setPtr (j : Nat) :
    (setPtr addr16 r v).getLsbD j =
      if addr16 = false ∨ j < 16 then v.getLsbD j else r.getLsbD j := by
  cases addr16 with
  | false => simp [setPtr]
  | true => simp [setPtr, getLsbD_setLow]

theorem ptr_toNat : (ptr true r).toNat = r.toNat % 0x10000 := by
  change (r &&& 0xffff#32).toNat = _
  rw [BitVec.toNat_and]
  exact Nat.and_two_pow_sub_one_eq_mod r.toNat 16

theorem ptr_lt : (ptr true r).toNat < 0x10000 := by
  rw [ptr_toNat]
  exact Nat.mod_lt _ (by decide)

@[simp]
theorem ptr_setPtr : ptr addr16 (setPtr addr16 r v) = ptr addr16 v := by
  refine BitVec.eq_of_getLsbD_eq fun j _ => ?_
  rw [getLsbD_ptr, getLsbD_ptr, getLsbD_setPtr]
  cases addr16 <;> by_cases hj : j < 16 <;> simp [hj]

@[simp]
theorem setPtr_setPtr : setPtr addr16 (setPtr addr16 r v) w = setPtr addr16 r w := by
  refine BitVec.eq_of_getLsbD_eq fun j _ => ?_
  simp only [getLsbD_setPtr]
  split <;> rfl

@[simp]
theorem setPtr_ptr : setPtr addr16 r (ptr addr16 v) = setPtr addr16 r v := by
  refine BitVec.eq_of_getLsbD_eq fun j _ => ?_
  rw [getLsbD_setPtr, getLsbD_setPtr, getLsbD_ptr]
  cases addr16 <;> by_cases hj : j < 16 <;> simp [hj]

@[simp]
theorem setPtr_self : setPtr addr16 r r = r := by
  refine BitVec.eq_of_getLsbD_eq fun j _ => ?_
  rw [getLsbD_setPtr, ite_self]

/-- Offsets advance modulo the size of the segment. -/
@[simp]
theorem ptr_ptr_add : ptr addr16 (ptr addr16 v + d) = ptr addr16 (v + d) := by
  cases addr16 with
  | false => rfl
  | true =>
      apply BitVec.eq_of_toNat_eq
      rw [ptr_toNat, ptr_toNat, BitVec.toNat_add, BitVec.toNat_add, ptr_toNat]
      omega

@[simp]
theorem ptr_setPtr_add : ptr addr16 (setPtr addr16 r v + d) = ptr addr16 (v + d) := by
  rw [← ptr_ptr_add, ptr_setPtr, ptr_ptr_add]

@[simp]
theorem setPtr_setPtr_add :
    setPtr addr16 (setPtr addr16 r v) (setPtr addr16 r v + d) = setPtr addr16 r (v + d) := by
  rw [setPtr_setPtr, ← setPtr_ptr, ptr_setPtr_add, setPtr_ptr]

theorem movePointer_eq : movePointer addr16 r d = setPtr addr16 r (r + d) := by
  cases addr16 <;> rfl

/-- The count register after it was counted down by itself. -/
theorem setPtr_sub_ptr : setPtr addr16 r (r - ptr addr16 r) = setPtr addr16 r 0#32 := by
  rw [← setPtr_ptr, ← @setPtr_ptr _ r 0#32]
  congr 1
  cases addr16 with
  | false => simp [ptr]
  | true =>
      apply BitVec.eq_of_toNat_eq
      rw [ptr_toNat, BitVec.toNat_sub, ptr_toNat]
      have hlt := r.isLt
      simp only [ptr, if_true, BitVec.zero_and, BitVec.toNat_ofNat]
      omega

/-! ## The update of the registers -/

theorem stride_down (s : StringState) (size : OpSize) :
    stride s.down size = s.cpu.transferStride size :=
  rfl

/-- `O_MOVS_SavA` moves the index registers by the elements of the run. -/
theorem savA_eq (h : DirOk s.cpu) (rep src dst : Bool) : s.savA i rep src dst =
    { s with cpu :=
      let c := if rep then ptr i.addr16 s.cpu.ecx else 1#32
      let d := stride s.down i.size * c
      { s.cpu with
        esi := if src then setPtr i.addr16 s.cpu.esi (s.cpu.esi + d) else s.cpu.esi
        edi := if dst then setPtr i.addr16 s.cpu.edi (s.cpu.edi + d) else s.cpu.edi
        ecx := if rep then setPtr i.addr16 s.cpu.ecx 0#32 else s.cpu.ecx } } := by
  have hone : 1#32 &&& 0xffff#32 = 1#32 := by decide
  have hcount : (if i.addr16 then (if rep then s.cpu.ecx else 1#32) &&& 0xffff#32
      else if rep then s.cpu.ecx else 1#32) = if rep then ptr i.addr16 s.cpu.ecx else 1#32 := by
    unfold ptr
    cases i.addr16 <;> cases rep <;> simp [hone]
  simp only [StringState.savA, movsSavA, hcount, savedIncrement_eq h, movePointer_eq,
    stride_down]
  cases src <;> cases dst <;> cases rep <;> rfl

/-! ## One element at a time -/

/-- The address of an element of the source. -/
def srcAt (i : StringInsn) (s : StringState) (k : Nat) : Word :=
  s.srcBase + ptr i.addr16 (s.cpu.esi + stride s.down i.size * BitVec.ofNat 32 k)

/-- The address of an element of the destination. -/
def dstAt (i : StringInsn) (s : StringState) (k : Nat) : Word :=
  s.esBase + ptr i.addr16 (s.cpu.edi + stride s.down i.size * BitVec.ofNat 32 k)

/-- What the run stores as an element. -/
def elemVal (i : StringInsn) (s : StringState) (k : Nat) (m : Mem) : Word :=
  match i.op with
  | .movs => readLe i.size.len m (srcAt i s k)
  | _ => s.cpu.eax

/-- Memory after `n` elements. -/
def memAfter (i : StringInsn) (s : StringState) (n : Nat) : Mem :=
  match i.op with
  | .movs | .stos => stores i.size.len (dstAt i s) (elemVal i s) n s.mem
  | _ => s.mem

/-- The accumulator after `n` elements. -/
def eaxAfter (i : StringInsn) (s : StringState) : Nat → Word
  | 0 => s.cpu.eax
  | n + 1 =>
      match i.op with
      | .lods => i.size.setPart s.cpu.eax (readLe i.size.len s.mem (srcAt i s n))
      | _ => s.cpu.eax

/-- The state after `n` elements, but for the flags of a comparison. -/
def advance (i : StringInsn) (n : Nat) (s : StringState) : StringState :=
  { s with
    mem := memAfter i s n
    cpu :=
      let d := stride s.down i.size * BitVec.ofNat 32 n
      { s.cpu with
        eax := eaxAfter i s n
        ecx := setPtr i.addr16 s.cpu.ecx (s.cpu.ecx - BitVec.ofNat 32 n)
        esi := if i.op.usesSrc then setPtr i.addr16 s.cpu.esi (s.cpu.esi + d) else s.cpu.esi
        edi := if i.op.usesDst then setPtr i.addr16 s.cpu.edi (s.cpu.edi + d) else s.cpu.edi
        dr1 := 0#32 } }

theorem srcAt_zero : srcAt i s 0 = s.setA i.addr16 true := by
  simp [srcAt, StringState.setA]

theorem dstAt_zero : dstAt i s 0 = s.setA i.addr16 false := by
  simp [dstAt, StringState.setA]

/-- An element, and the count one down. -/
theorem one_visible (h : DirOk s.cpu) (hop : i.op.conditional = false) :
    ((single i s).countDown i).visible = advance i 1 s := by
  have hdir : ∀ u : StringState, u.cpu.eflags = s.cpu.eflags →
      u.cpu.dfIncrements = s.cpu.dfIncrements → DirOk u.cpu :=
    fun u hflags hinc => h.congr (by rw [Cpu.df, Cpu.df, hflags]) hinc
  cases hcase : i.op with
  | movs =>
      simp only [single, hcase, movs]
      rw [savA_eq]
      · simp only [StringState.visible, StringState.countDown, advance, memAfter, eaxAfter,
          stores_succ, elemVal, srcAt_zero, dstAt_zero, hcase]
        simp [stores, StringState.storeDi, StringState.loadDi, StringState.setA, StringOp.usesSrc,
          StringOp.usesDst, StringState.down]
      · exact hdir _ rfl rfl
  | lods =>
      simp only [single, hcase, lods]
      rw [savA_eq]
      · simp only [StringState.visible, StringState.countDown, advance, memAfter, eaxAfter,
          srcAt_zero, hcase]
        simp [StringState.storeAcc, StringState.loadDi, StringState.setA, StringOp.usesSrc,
          StringOp.usesDst, StringState.down]
      · exact hdir _ rfl rfl
  | stos =>
      simp only [single, hcase, stos]
      rw [savA_eq]
      · simp only [StringState.visible, StringState.countDown, advance, memAfter, eaxAfter,
          stores_succ, elemVal, dstAt_zero, hcase]
        simp [stores, StringState.storeDi, StringState.loadAcc, StringState.setA, StringOp.usesSrc,
          StringOp.usesDst, StringState.down]
      · exact hdir _ rfl rfl
  | scas =>
      rw [hcase] at hop
      cases hop
  | cmps =>
      rw [hcase] at hop
      cases hop

/-- Nothing but the data register separates a state from what a program sees. -/
theorem advance_visible : advance i n s.visible = advance i n s := by
  obtain ⟨op, size, addr16, repe⟩ := i
  cases op <;> cases n <;> rfl

theorem srcAt_advance (hop : i.op.usesSrc = true) :
    srcAt i (advance i n s) k = srcAt i s (n + k) := by
  simp only [srcAt, advance, StringState.down, hop, if_true, ptr_setPtr_add, BitVec.ofNat_add,
    BitVec.mul_add, BitVec.add_assoc]

theorem dstAt_advance (hop : i.op.usesDst = true) :
    dstAt i (advance i n s) k = dstAt i s (n + k) := by
  simp only [dstAt, advance, StringState.down, hop, if_true, ptr_setPtr_add, BitVec.ofNat_add,
    BitVec.mul_add, BitVec.add_assoc]

theorem memAfter_advance : memAfter i (advance i k s) n = memAfter i s (k + n) := by
  unfold memAfter
  cases hcase : i.op with
  | movs =>
      have hsrc : i.op.usesSrc = true := by rw [hcase]; rfl
      have hdst : i.op.usesDst = true := by rw [hcase]; rfl
      simp only [stores_add]
      have hmem : (advance i k s).mem = stores i.size.len (dstAt i s) (elemVal i s) k s.mem := by
        simp only [advance, memAfter, hcase]
      rw [hmem]
      refine stores_congr (fun j _ => dstAt_advance hdst) fun j _ => ?_
      funext m
      simp only [elemVal, hcase, srcAt_advance hsrc]
  | stos =>
      have hdst : i.op.usesDst = true := by rw [hcase]; rfl
      simp only [stores_add]
      have hmem : (advance i k s).mem = stores i.size.len (dstAt i s) (elemVal i s) k s.mem := by
        simp only [advance, memAfter, hcase]
      rw [hmem]
      refine stores_congr (fun j _ => dstAt_advance hdst) fun j _ => ?_
      funext m
      cases k <;> simp only [elemVal, hcase, advance, eaxAfter]
  | lods => simp only [advance, memAfter, hcase]
  | scas => simp only [advance, memAfter, hcase]
  | cmps => simp only [advance, memAfter, hcase]

theorem eaxAfter_advance : eaxAfter i (advance i k s) n = eaxAfter i s (k + n) := by
  cases n with
  | zero => rfl
  | succ n =>
      rw [← Nat.add_assoc]
      unfold eaxAfter
      cases hcase : i.op with
      | lods =>
          have hsrc : i.op.usesSrc = true := by rw [hcase]; rfl
          have hmem : (advance i k s).mem = s.mem := by simp only [advance, memAfter, hcase]
          simp only [srcAt_advance hsrc, hmem]
          cases k with
          | zero => rfl
          | succ k => simp only [advance, eaxAfter, hcase, OpSize.setPart_setPart]
      | movs => cases k <;> simp only [advance, eaxAfter, hcase]
      | stos => cases k <;> simp only [advance, eaxAfter, hcase]
      | scas => cases k <;> simp only [advance, eaxAfter, hcase]
      | cmps => cases k <;> simp only [advance, eaxAfter, hcase]

/-- `n` elements after `k` elements. -/
theorem advance_add : advance i n (advance i k s) = advance i (k + n) s := by
  have hmem := @memAfter_advance i s n k
  have heax := @eaxAfter_advance i s n k
  have hmove : ∀ r, setPtr i.addr16
      (setPtr i.addr16 r (r + stride s.down i.size * BitVec.ofNat 32 k))
      (setPtr i.addr16 r (r + stride s.down i.size * BitVec.ofNat 32 k) +
        stride s.down i.size * BitVec.ofNat 32 n) =
      setPtr i.addr16 r (r + stride s.down i.size * BitVec.ofNat 32 (k + n)) := by
    intro r
    rw [setPtr_setPtr_add, BitVec.ofNat_add, BitVec.mul_add, BitVec.add_assoc]
  have hcount : setPtr i.addr16 (advance i k s).cpu.ecx
      ((advance i k s).cpu.ecx - BitVec.ofNat 32 n) =
      setPtr i.addr16 s.cpu.ecx (s.cpu.ecx - BitVec.ofNat 32 (k + n)) := by
    simp only [advance, sub_eq_add_neg]
    rw [setPtr_setPtr_add, BitVec.ofNat_add, add_assoc, neg_add]
  rw [advance, hmem, heax, hcount]
  cases hsrc : i.op.usesSrc <;> cases hdst : i.op.usesDst <;>
    simp only [advance, hsrc, hdst, if_true, if_false, Bool.false_eq_true, StringState.down] <;>
    simp only [StringState.down] at hmove <;> simp only [hmove]

theorem advance_zero : advance i 0 s = s.visible := by
  have hmem : memAfter i s 0 = s.mem := by
    unfold memAfter
    cases i.op <;> rfl
  simp only [advance, hmem, eaxAfter, BitVec.mul_zero, BitVec.add_zero,
    BitVec.sub_zero, setPtr_self, ite_self, StringState.visible]

/-- The single instruction, repeated, moves on by the elements of the run. -/
theorem repSteps_advance (h : DirOk s.cpu) (hop : i.op.conditional = false) :
    (repSteps i n s).visible = advance i n s := by
  induction n generalizing s with
  | zero => exact advance_zero.symm
  | succ n ih =>
      have hone := one_visible h hop
      have hflags := congrArg (fun u : StringState => u.cpu.eflags) hone
      have hinc := congrArg (fun u : StringState => u.cpu.dfIncrements) hone
      have hdir : DirOk ((single i s).countDown i).cpu :=
        h.congr (by rw [Cpu.df, Cpu.df]; exact congrArg (BitVec.getLsbD · 10) hflags) hinc
      simp only [repSteps, hop, Bool.false_and, Bool.false_eq_true, if_false]
      rw [ih hdir, ← advance_visible, hone, advance_add, Nat.add_comm]

/-! ## The loops over elements -/

/-- The loop of MOVS is a run of stores along its two pointers. -/
theorem moveElems_eq {src dest : Word} : moveElems d size n src dest m =
    (stores size.len (fun k => dest + d * BitVec.ofNat 32 k)
      (fun k m => readLe size.len m (src + d * BitVec.ofNat 32 k)) n m,
      src + d * BitVec.ofNat 32 n, dest + d * BitVec.ofNat 32 n) := by
  induction n generalizing src dest m with
  | zero => simp [moveElems, stores]
  | succ n ih =>
      have hstep : ∀ (x : Word) (k : Nat),
          x + d + d * BitVec.ofNat 32 k = x + d * BitVec.ofNat 32 (1 + k) := by
        intro x k
        rw [BitVec.ofNat_add, BitVec.mul_add, BitVec.add_assoc]
        simp
      rw [moveElems, ih, Nat.add_comm n 1, stores_add]
      simp only [hstep]
      simp [stores]

/-- The loop of STOS is one along its pointer. -/
theorem fillElems_eq : fillElems d size v n a m =
    (stores size.len (fun k => a + d * BitVec.ofNat 32 k) (fun _ _ => v) n m,
      a + d * BitVec.ofNat 32 n) := by
  induction n generalizing a m with
  | zero => simp [fillElems, stores]
  | succ n ih =>
      have hstep : ∀ (x : Word) (k : Nat),
          x + d + d * BitVec.ofNat 32 k = x + d * BitVec.ofNat 32 (1 + k) := by
        intro x k
        rw [BitVec.ofNat_add, BitVec.mul_add, BitVec.add_assoc]
        simp
      rw [fillElems, ih, Nat.add_comm n 1, stores_add]
      simp only [hstep]
      simp [stores]

/-- The loop of LODS leaves the last element in the data register. -/
theorem loadElems_succ : loadElems d size m (n + 1) a v =
    size.setPart v (readLe size.len m (a + d * BitVec.ofNat 32 n)) := by
  induction n generalizing a v with
  | zero => simp [loadElems]
  | succ n ih =>
      rw [loadElems, ih, OpSize.setPart_setPart, BitVec.add_assoc]
      congr 3
      rw [Nat.add_comm n 1, BitVec.ofNat_add, BitVec.mul_add]
      simp

/-! ## Runs inside of the segment -/

/-- A number of bytes along the direction. -/
theorem stride_mul (down : Bool) (size : OpSize) (k : Nat) :
    stride down size * BitVec.ofNat 32 k =
      if down then -BitVec.ofNat 32 (k * size.len) else BitVec.ofNat 32 (k * size.len) := by
  have hbytes : size.bytes = BitVec.ofNat 32 size.len := by cases size <;> rfl
  have hmul : size.bytes * BitVec.ofNat 32 k = BitVec.ofNat 32 (k * size.len) := by
    rw [hbytes, Nat.mul_comm, BitVec.ofNat_mul]
  cases down with
  | false => exact hmul
  | true => exact (BitVec.neg_mul _ _).trans (congrArg (- ·) hmul)

/-- From offset `p` the run gets to its element `k` without passing an end of the
segment. -/
def Reaches (down : Bool) (size : OpSize) (k p : Nat) : Prop :=
  if down then k * size.len ≤ p else p + k * size.len < 0x10000

/-- There the offset is the one the pointer of the loop has. -/
theorem ptr_add_of_reaches {down : Bool} (h : Reaches down size k (ptr true r).toNat) :
    ptr true (r + stride down size * BitVec.ofNat 32 k) =
      ptr true r + stride down size * BitVec.ofNat 32 k := by
  unfold Reaches at h
  rw [stride_mul]
  generalize k * size.len = x at *
  have hlt := @ptr_lt r
  rw [← ptr_ptr_add]
  apply BitVec.eq_of_toNat_eq
  rw [ptr_toNat]
  apply Nat.mod_eq_of_lt
  cases down with
  | false =>
      have hin : (ptr true r).toNat + x < 0x10000 := h
      simp only [Bool.false_eq_true, if_false, BitVec.toNat_add, BitVec.toNat_ofNat]
      omega
  | true =>
      have hin : x ≤ (ptr true r).toNat := h
      rw [if_pos rfl, ← BitVec.sub_eq_add_neg, BitVec.toNat_sub, BitVec.toNat_ofNat]
      omega

theorem Reaches.mono {down : Bool} {p j : Nat} (h : Reaches down size k p) (hj : j ≤ k) :
    Reaches down size j p := by
  have hle := Nat.mul_le_mul_right size.len hj
  unfold Reaches at h ⊢
  cases down <;> simp only [Bool.false_eq_true, if_true, if_false] at h ⊢ <;> omega

/-! ## Turns of the loop of STOS -/

section Stos

variable {down : Bool} {x : StoD}

/-- Without an overflow the turn is the last one. -/
theorem StoD.turn_inside (h : x.overflow down addr16 size = false) :
    x.turn down addr16 size v = .leave (.ok (stores size.len
      (fun k => x.ar1 + stride down size * BitVec.ofNat 32 k) (fun _ _ => v) x.i x.mem)) := by
  simp [StoD.turn, h, fillElems_eq]

/-- The elements before the end of the segment are fewer than those left. -/
theorem StoD.possible_lt (h : x.overflow down addr16 size = true) :
    x.minofs down / size.len + (if down then 1 else 0) < x.i := by
  simp only [StoD.overflow, Bool.and_eq_true, decide_eq_true_eq] at h
  obtain ⟨_, hless⟩ := h
  have hdiv := (Nat.div_lt_iff_lt_mul size.len_pos).mpr hless
  cases down <;> simp only [Bool.false_eq_true, if_true, if_false] at hdiv ⊢ <;> omega

/-- With an overflow a turn faults, or it stores what fits and goes on at the other
end of the segment. -/
theorem StoD.turn_overflow (h : x.overflow down addr16 size = true) :
    x.turn down addr16 size v =
      if x.ar1.toNat % size.len ≠ 0 then .leave (.error x.mem)
      else
        let p := x.minofs down / size.len + (if down then 1 else 0)
        let addr := x.ar1 + stride down size * BitVec.ofNat 32 p
        .again
          { sr1 := if down then 0xffff else 0
            ar1 := if down then addr + 0x10000#32 else addr - 0x10000#32
            i := x.i - p
            mem := stores size.len (fun k => x.ar1 + stride down size * BitVec.ofNat 32 k)
              (fun _ _ => v) p x.mem } := by
  have hlt := StoD.possible_lt h
  have hrest : x.i - (x.minofs down / size.len + (if down then 1 else 0)) ≠ 0 := by omega
  simp only [StoD.turn, h, true_and, if_true, fillElems_eq, if_neg hrest]

/-- What falls with every turn; a first piece may be empty, but then the next one
starts at offset 0. -/
def StoD.left (x : StoD) : Nat :=
  2 * x.i + if x.sr1 = 0 then 0 else 1

theorem StoD.left_le (x : StoD) : x.left ≤ 2 * x.i + 1 := by
  unfold StoD.left
  split <;> omega

theorem StoD.turn_left (x : StoD) :
    (x.turn down addr16 size v).Falls StoD.left x.left := by
  cases hover : x.overflow down addr16 size with
  | false =>
      rw [StoD.turn_inside hover]
      trivial
  | true =>
      have hlt := StoD.possible_lt hover
      rw [StoD.turn_overflow hover]
      by_cases halign : x.ar1.toNat % size.len ≠ 0
      · rw [if_pos halign]
        trivial
      · rw [if_neg halign]
        cases down with
        | true =>
            simp only [Turn.Falls, StoD.left, if_true] at hlt ⊢
            generalize x.minofs true / size.len = q at *
            split <;> omega
        | false =>
            have hpos : x.sr1 = 0 → 0 < x.minofs false / size.len := by
              intro hzero
              apply Nat.div_pos _ size.len_pos
              have hle := size.len_le
              simp only [StoD.minofs, hzero, Bool.false_eq_true, if_false]
              omega
            simp only [Turn.Falls, StoD.left, Bool.false_eq_true, if_false, if_true] at hlt ⊢
            generalize x.minofs false / size.len = q at *
            split
            · next hzero =>
                have hpos := hpos hzero
                omega
            · omega

/-- The loop of STOS is left for all values of its variables. -/
theorem StoD.terminates {fuel : Nat} (hfuel : 2 * x.i + 1 < fuel) :
    ∃ b, loop (StoD.turn down addr16 size v) fuel x = some b := by
  have hkeeps : ∀ y : StoD, True →
      (y.turn down addr16 size v).Keeps (fun _ => True) (fun _ => True) := by
    intro y _
    cases y.turn down addr16 size v <;> trivial
  have hleft := StoD.left_le x
  obtain ⟨b, hb, _⟩ := loop_total hkeeps (fun y _ => StoD.turn_left y) trivial
    (show x.left < fuel by omega)
  exact ⟨b, hb⟩

end Stos

/-! ## Turns of the loop of MOVS -/

section Movs

variable {down : Bool} {memRef : Word} {x : MovD}

/-- Without an overflow the turn is the last one. -/
theorem MovD.turn_inside (h : x.overflow down addr16 size = false) :
    x.turn down addr16 size memRef = .leave (.ok (stores size.len
      (fun k => x.ar2 + stride down size * BitVec.ofNat 32 k)
      (fun k m => readLe size.len m (memRef + stride down size * BitVec.ofNat 32 k)) x.i
      x.mem)) := by
  by_cases hzero : x.i = 0
  · simp [MovD.turn, hzero, stores]
  · simp [MovD.turn, hzero, h, moveElems_eq]

/-- A misaligned overflow faults. -/
theorem MovD.turn_misaligned (h : x.overflow down addr16 size = true)
    (hmis : x.minofs down % size.len ≠ 0) :
    x.turn down addr16 size memRef = .leave (.error x.mem) := by
  have hzero : x.i ≠ 0 := by
    rintro hzero
    simp [MovD.overflow, hzero] at h
  simp only [MovD.turn, if_neg hzero, h, hmis, ne_eq, not_false_eq_true, and_self, if_true]

theorem MovD.wrapDown_bounds (x : MovD) (minofs : Nat)
    (hx : x.sr1 < 0x10000 ∧ x.dr2 < 0x10000) :
    ((x.wrapDown minofs).sr1 < 0x10000 ∧ (x.wrapDown minofs).dr2 < 0x10000) ∧
      (x.wrapDown minofs).i = x.i := by
  have hback : ∀ y < 0x10000, MovD.back y minofs < 0x10000 := by
    intro y hy
    unfold MovD.back
    split <;> omega
  obtain ⟨hsr1, hdr2⟩ := hx
  simp only [MovD.wrapDown]
  split <;> split <;> simp [hback, hsr1, hdr2]

theorem MovD.wrapUp_bounds (x : MovD) (minofs : Nat)
    (hx : x.sr1 < 0x10000 ∧ x.dr2 < 0x10000) :
    ((x.wrapUp minofs).sr1 < 0x10000 ∧ (x.wrapUp minofs).dr2 < 0x10000) ∧
      (x.wrapUp minofs).i = x.i := by
  have hmod : ∀ y, y % 0x10000 < 0x10000 := fun y => Nat.mod_lt y (by decide)
  obtain ⟨hsr1, hdr2⟩ := hx
  simp only [MovD.wrapUp]
  split <;> split <;> simp [hmod, hsr1, hdr2]

/-- The elements before the end of the segment are fewer than those left. -/
theorem MovD.possible_lt (h : x.overflow down addr16 size = true) :
    x.minofs down / size.len + (if down then 1 else 0) < x.i := by
  simp only [MovD.overflow, Bool.and_eq_true, decide_eq_true_eq] at h
  have hdiv := (Nat.div_lt_iff_lt_mul size.len_pos).mpr h.2
  clear h
  generalize x.minofs down / size.len = q at *
  cases down <;> simp only [Bool.false_eq_true, if_true, if_false] at hdiv ⊢ <;> omega

/-- A piece up to an aligned end is not empty. -/
theorem MovD.possible_pos (hx : x.sr1 < 0x10000 ∧ x.dr2 < 0x10000)
    (halign : x.minofs down % size.len = 0) :
    0 < x.minofs down / size.len + (if down then 1 else 0) := by
  cases down with
  | true => exact Nat.succ_pos _
  | false =>
      have hpos : 0 < x.minofs false := by
        simp only [MovD.minofs, Bool.false_eq_true, if_false]
        omega
      exact Nat.div_pos (Nat.le_of_dvd hpos (Nat.dvd_of_mod_eq_zero halign)) size.len_pos

/-- How many elements a piece holds. -/
def MovD.piece (v : MovD) (down : Bool) (size : OpSize) : Nat :=
  v.minofs down / size.len + if down then 1 else 0

/-- The shadow offsets behind a piece. -/
def MovD.wrap (v : MovD) (down : Bool) : MovD :=
  if down then v.wrapDown (v.minofs down) else v.wrapUp (v.minofs down)

theorem MovD.wrap_bounds (hx : x.sr1 < 0x10000 ∧ x.dr2 < 0x10000) :
    (x.wrap down).sr1 < 0x10000 ∧ (x.wrap down).dr2 < 0x10000 := by
  unfold MovD.wrap
  split
  · exact (x.wrapDown_bounds _ hx).1
  · exact (x.wrapUp_bounds _ hx).1

/-- Where the wrap leaves the shadow offsets depends on them alone. -/
theorem MovD.wrap_shadows (v y : MovD) (hsr1 : y.sr1 = v.sr1) (hdr2 : y.dr2 = v.dr2) :
    (y.wrap down).sr1 = (v.wrap down).sr1 ∧ (y.wrap down).dr2 = (v.wrap down).dr2 ∧
      (y.wrap down).i = y.i := by
  obtain ⟨di, si, _, _, _, _⟩ := v
  obtain ⟨_, _, ar1, ar2, n, mem⟩ := y
  simp only at hsr1 hdr2
  subst hsr1 hdr2
  simp only [MovD.wrap, MovD.wrapDown, MovD.wrapUp, MovD.minofs]
  cases down <;> simp only [Bool.false_eq_true, if_true, if_false] <;> split <;> split <;>
    exact ⟨rfl, rfl, rfl⟩

/-- An aligned overflow is followed by another turn, for what is left. -/
theorem MovD.turn_piece (h : x.overflow down addr16 size = true)
    (halign : x.minofs down % size.len = 0) :
    ∃ y : MovD, x.turn down addr16 size memRef = .again y ∧ y.sr1 = (x.wrap down).sr1 ∧
      y.dr2 = (x.wrap down).dr2 ∧ y.i = x.i - x.piece down size := by
  have hlt := MovD.possible_lt h
  have hzero : x.i ≠ 0 := (Nat.zero_lt_of_lt hlt).ne'
  have hrest : x.i - (x.minofs down / size.len + (if down then 1 else 0)) ≠ 0 :=
    (Nat.sub_pos_of_lt hlt).ne'
  simp only [MovD.turn, if_neg hzero, h, halign, ne_eq, not_true, and_false, if_false, if_true,
    moveElems_eq, if_neg hrest]
  refine ⟨_, rfl, ?_⟩
  exact MovD.wrap_shadows x { x with
    ar1 := _, ar2 := _, i := x.i - x.piece down size, mem := _ } rfl rfl

/-- What a turn of MOVS ends in. -/
theorem MovD.turn_cases (hx : x.sr1 < 0x10000 ∧ x.dr2 < 0x10000) :
    (∃ b, x.turn down addr16 size memRef = .leave b) ∨
      ∃ y : MovD, x.turn down addr16 size memRef = .again y ∧
        (y.sr1 < 0x10000 ∧ y.dr2 < 0x10000) ∧ y.i < x.i := by
  cases hover : x.overflow down addr16 size with
  | false => exact .inl ⟨_, MovD.turn_inside hover⟩
  | true =>
      by_cases hmis : x.minofs down % size.len ≠ 0
      · exact .inl ⟨_, MovD.turn_misaligned hover hmis⟩
      · right
        have halign := not_not.mp hmis
        have hpos : 0 < x.piece down size := MovD.possible_pos hx halign
        have hlt : x.piece down size < x.i := MovD.possible_lt hover
        obtain ⟨y, hy, hsr1, hdr2, hi⟩ := @MovD.turn_piece size addr16 down memRef x hover halign
        refine ⟨y, hy, ?_, ?_⟩
        · rw [hsr1, hdr2]
          exact MovD.wrap_bounds hx
        · rw [hi]
          omega

/-- The loop of MOVS is left for all offsets inside of 64K. -/
theorem MovD.terminates {fuel : Nat} (hx : x.sr1 < 0x10000 ∧ x.dr2 < 0x10000)
    (hfuel : x.i < fuel) : ∃ b, loop (MovD.turn down addr16 size memRef) fuel x = some b := by
  have hkeeps : ∀ y : MovD, y.sr1 < 0x10000 ∧ y.dr2 < 0x10000 →
      (y.turn down addr16 size memRef).Keeps (fun y => y.sr1 < 0x10000 ∧ y.dr2 < 0x10000)
        (fun _ => True) := by
    intro y hy
    rcases @MovD.turn_cases size addr16 down memRef y hy with ⟨b, hb⟩ | ⟨z, hz, hbounds, _⟩
    · rw [hb]
      trivial
    · rw [hz]
      exact hbounds
  have hfalls : ∀ y : MovD, y.sr1 < 0x10000 ∧ y.dr2 < 0x10000 →
      (y.turn down addr16 size memRef).Falls MovD.i y.i := by
    intro y hy
    rcases @MovD.turn_cases size addr16 down memRef y hy with ⟨b, hb⟩ | ⟨z, hz, _, hless⟩
    · rw [hb]
      trivial
    · rw [hz]
      exact hless
  obtain ⟨b, hb, _⟩ := loop_total hkeeps hfalls hx hfuel
  exact ⟨b, hb⟩

end Movs

/-! ## The loops that compare -/

/-- The loop over other pointers, where they go through the same tests. -/
theorem compareLoop_map {α β : Type} {next : α → α} {test : α → Rfl} {next' : β → β}
    {test' : β → Rfl} (f : β → α) (hnext : ∀ b, next (f b) = f (next' b))
    (htest : ∀ b, test (f b) = test' b) (c : Bool) (b : β) (r : Rfl) :
    compareLoop next test c n (f b) r =
      let (m, b, r) := compareLoop next' test' c n b r
      (m, f b, r) := by
  induction n generalizing b r with
  | zero => rfl
  | succ n ih =>
      rw [compareLoop, compareLoop, htest, hnext]
      by_cases hgo : isZfSet (test' b) = c
      · rw [if_pos hgo, if_pos hgo, ih]
      · rw [if_neg hgo, if_neg hgo]

/-- The count left and the elements taken are the count. -/
theorem compareLoop_count {test : Nat → Rfl} (c : Bool) (b : Nat) (r : Rfl) :
    (compareLoop Nat.succ test c n b r).1 + (compareLoop Nat.succ test c n b r).2.1 = n + b := by
  induction n generalizing b r with
  | zero => rfl
  | succ n ih =>
      rw [compareLoop]
      split
      · rw [ih]
        omega
      · simp only
        omega

/-- The flags of the comparison of an element. -/
def elemFlags (i : StringInsn) (s : StringState) (k : Nat) : Rfl :=
  match i.op with
  | .scas => compareFlags i.size (i.size.part s.cpu.eax) (readLe i.size.len s.mem (dstAt i s k))
  | .cmps => compareFlags i.size (readLe i.size.len s.mem (srcAt i s k))
      (readLe i.size.len s.mem (dstAt i s k))
  | _ => s.cpu.rfl

/-- The state after `n` elements, with the flags of a comparison. -/
def compared (i : StringInsn) (n : Nat) (r : Rfl) (s : StringState) : StringState :=
  { advance i n s with cpu := { (advance i n s).cpu with rfl := r } }

/-- A comparison, and the count one down. -/
theorem one_compared (h : DirOk s.cpu) (hop : i.op.conditional = true) :
    ((single i s).countDown i).visible = compared i 1 (elemFlags i s 0) s := by
  have hdir : ∀ u : StringState, u.cpu.eflags = s.cpu.eflags →
      u.cpu.dfIncrements = s.cpu.dfIncrements → DirOk u.cpu :=
    fun u hflags hinc => h.congr (by rw [Cpu.df, Cpu.df, hflags]) hinc
  cases hcase : i.op with
  | scas =>
      simp only [single, hcase, scas]
      rw [savA_eq]
      · simp only [StringState.visible, StringState.countDown, compared, advance, memAfter,
          eaxAfter, elemFlags, dstAt_zero, hcase]
        simp [StringState.cmpAcc, StringState.loadDi, StringState.setA, StringOp.usesSrc,
          StringOp.usesDst, StringState.down]
      · exact hdir _ rfl rfl
  | cmps =>
      simp only [single, hcase, cmps]
      rw [savA_eq]
      · simp only [StringState.visible, StringState.countDown, compared, advance, memAfter,
          eaxAfter, elemFlags, srcAt_zero, dstAt_zero, hcase]
        simp [cmpD, StringState.loadDi, StringState.setA, StringOp.usesSrc,
          StringOp.usesDst, StringState.down]
      · exact hdir _ rfl rfl
  | movs =>
      rw [hcase] at hop
      cases hop
  | lods =>
      rw [hcase] at hop
      cases hop
  | stos =>
      rw [hcase] at hop
      cases hop

theorem elemFlags_visible : elemFlags i s.visible k = elemFlags i s k :=
  rfl

theorem compared_visible {r : Rfl} : compared i n r s.visible = compared i n r s := by
  unfold compared
  rw [advance_visible]

theorem elemFlags_compared {r : Rfl} (hop : i.op.conditional = true) :
    elemFlags i (compared i n r s) k = elemFlags i s (n + k) := by
  have hmem : memAfter i s n = s.mem := by
    unfold memAfter
    cases hcase : i.op <;> first | rfl | (rw [hcase] at hop; cases hop)
  have heax : eaxAfter i s n = s.cpu.eax := by
    cases n with
    | zero => rfl
    | succ n =>
        unfold eaxAfter
        cases hcase : i.op <;> first | rfl | (rw [hcase] at hop; cases hop)
  have hsrc := @srcAt_advance i s n k
  have hdst := @dstAt_advance i s n k
  unfold elemFlags
  cases hcase : i.op with
  | scas =>
      rw [hcase] at hdst
      change compareFlags i.size (i.size.part (eaxAfter i s n))
        (readLe i.size.len (memAfter i s n) (dstAt i (advance i n s) k)) = _
      rw [heax, hmem, hdst rfl]
  | cmps =>
      rw [hcase] at hsrc hdst
      change compareFlags i.size
        (readLe i.size.len (memAfter i s n) (srcAt i (advance i n s) k))
        (readLe i.size.len (memAfter i s n) (dstAt i (advance i n s) k)) = _
      rw [hmem, hsrc rfl, hdst rfl]
  | movs =>
      rw [hcase] at hop
      cases hop
  | lods =>
      rw [hcase] at hop
      cases hop
  | stos =>
      rw [hcase] at hop
      cases hop

/-- The flags take no part in the move. -/
theorem advance_rfl {q : Rfl} :
    advance i n { s with cpu := { s.cpu with rfl := q } } =
      { advance i n s with cpu := { (advance i n s).cpu with rfl := q } } := by
  obtain ⟨op, size, addr16, repe⟩ := i
  cases op <;> cases n <;> rfl

theorem compared_compared {q r : Rfl} :
    compared i n r (compared i k q s) = compared i (k + n) r s := by
  unfold compared
  rw [advance_rfl, advance_add]

/-- The single comparison, repeated, stops where the loop stops. -/
theorem repSteps_compared (h : DirOk s.cpu) (hop : i.op.conditional = true) :
    (repSteps i n s).visible =
      let (_, j, r) := compareLoop Nat.succ (elemFlags i s) i.repe n 0 s.cpu.rfl
      compared i j r s := by
  induction n generalizing s with
  | zero =>
      simp only [compareLoop, compared, advance_zero]
      rfl
  | succ n ih =>
      have hone := one_compared h hop
      have hflags := congrArg (fun u : StringState => u.cpu.eflags) hone
      have hinc := congrArg (fun u : StringState => u.cpu.dfIncrements) hone
      have hrfl : ((single i s).countDown i).cpu.rfl = elemFlags i s 0 :=
        congrArg (fun u : StringState => u.cpu.rfl) hone
      have hdir : DirOk ((single i s).countDown i).cpu :=
        h.congr (by rw [Cpu.df, Cpu.df]; exact congrArg (BitVec.getLsbD · 10) hflags) hinc
      have hshift : ∀ b, elemFlags i s (1 + b) = elemFlags i ((single i s).countDown i) b := by
        intro b
        rw [← elemFlags_visible (s := (single i s).countDown i), hone, elemFlags_compared hop]
      simp only [repSteps, hop, Bool.true_and, hrfl, bne_iff_ne, ne_eq, compareLoop]
      by_cases hgo : isZfSet (elemFlags i s 0) = i.repe
      · have hloop := compareLoop_map (n := n) (1 + ·) (fun b => (Nat.add_succ 1 b).symm) hshift
          i.repe 0 (elemFlags i s 0)
        rw [if_neg (not_not.mpr hgo), if_pos hgo, ih hdir, hrfl]
        rcases hres : compareLoop Nat.succ (elemFlags i ((single i s).countDown i)) i.repe n 0
          (elemFlags i s 0) with ⟨m, j, r⟩
        rw [hres] at hloop
        change compared i j r ((single i s).countDown i) =
          compared i (compareLoop Nat.succ (elemFlags i s) i.repe n (1 + 0) _).2.1
            (compareLoop Nat.succ (elemFlags i s) i.repe n (1 + 0) _).2.2 s
        rw [hloop, ← compared_visible, hone, compared_compared]
      · rw [if_pos hgo, if_neg hgo]
        exact hone

/-- The count left after some elements. -/
theorem setPtr_count_sub (hm : n + k = s.count i) :
    setPtr i.addr16 s.cpu.ecx (BitVec.ofNat 32 n) =
      setPtr i.addr16 s.cpu.ecx (s.cpu.ecx - BitVec.ofNat 32 k) := by
  have hn : BitVec.ofNat 32 n = ptr i.addr16 s.cpu.ecx - BitVec.ofNat 32 k := by
    rw [eq_sub_iff_add_eq, ← BitVec.ofNat_add, hm, StringState.count, BitVec.ofNat_toNat,
      BitVec.setWidth_eq]
  rw [hn, ← setPtr_ptr, sub_eq_add_neg, ptr_ptr_add, setPtr_ptr, sub_eq_add_neg]

theorem ptr_stride_succ (b : Nat) : ptr addr16 (ptr addr16 (r + d * BitVec.ofNat 32 b) + d) =
    ptr addr16 (r + d * BitVec.ofNat 32 b.succ) := by
  rw [ptr_ptr_add, Nat.succ_eq_add_one, BitVec.ofNat_add, BitVec.mul_add, ← BitVec.add_assoc]
  simp

/-- SCAS with a prefix. -/
theorem movsScaD_visible (hop : i.op = .scas) :
    (movsScaD (s.loadAcc i.size) i (s.setA i.addr16 false)).visible =
      let (_, j, r) := compareLoop Nat.succ (elemFlags i s) i.repe (s.count i) 0 s.cpu.rfl
      compared i j r s := by
  have hinit : ptr i.addr16 s.cpu.edi =
      ptr i.addr16 (s.cpu.edi + stride s.down i.size * BitVec.ofNat 32 0) := by simp
  have hloop : compareLoop (fun di => ptr i.addr16 (di + stride s.down i.size))
      (fun di => compareFlags i.size (i.size.part (i.size.setPart s.cpu.dr1 s.cpu.eax))
        (readLe i.size.len s.mem (s.setA i.addr16 false - ptr i.addr16 s.cpu.edi + di)))
      i.repe (s.count i) (ptr i.addr16 s.cpu.edi) s.cpu.rfl =
      let (m, b, r) := compareLoop Nat.succ (elemFlags i s) i.repe (s.count i) 0 s.cpu.rfl
      (m, ptr i.addr16 (s.cpu.edi + stride s.down i.size * BitVec.ofNat 32 b), r) := by
    rw [hinit]
    refine compareLoop_map
      (fun b => ptr i.addr16 (s.cpu.edi + stride s.down i.size * BitVec.ofNat 32 b))
      (fun b => ptr_stride_succ b) (fun b => ?_) i.repe 0 s.cpu.rfl
    simp only [OpSize.part_setPart, elemFlags, hop, StringState.setA, dstAt, Bool.false_eq_true,
      if_false, ← hinit, add_sub_cancel_right]
  have hcount := @compareLoop_count (s.count i) (elemFlags i s) i.repe 0 s.cpu.rfl
  unfold movsScaD
  by_cases hzero : s.count i = 0
  · have hzero' : (s.loadAcc i.size).count i = 0 := hzero
    rw [if_pos hzero', hzero]
    simp only [compareLoop, compared, advance_zero]
    rfl
  · have hzero' : (s.loadAcc i.size).count i ≠ 0 := hzero
    rw [if_neg hzero']
    refine (congrArg (fun p => ((s.loadAcc i.size).saveScaD i p).visible) hloop).trans ?_
    generalize compareLoop Nat.succ (elemFlags i s) i.repe (s.count i) 0 s.cpu.rfl = res at *
    obtain ⟨m, j, r⟩ := res
    have hecx := setPtr_count_sub (n := m) (k := j) hcount
    have hmem : memAfter i s j = s.mem := by simp only [memAfter, hop]
    have heax : eaxAfter i s j = s.cpu.eax := by cases j <;> simp only [eaxAfter, hop]
    simp [StringState.visible, StringState.saveScaD, StringState.loadAcc, compared, advance, hecx,
      hmem, heax, hop, StringOp.usesSrc, StringOp.usesDst]

/-- CMPS with a prefix. -/
theorem movsCmpD_visible (hop : i.op = .cmps) :
    (movsCmpD s i (s.setA i.addr16 true)).visible =
      let (_, j, r) := compareLoop Nat.succ (elemFlags i s) i.repe (s.count i) 0 s.cpu.rfl
      compared i j r s := by
  have hinit : ∀ r, ptr i.addr16 r =
      ptr i.addr16 (r + stride s.down i.size * BitVec.ofNat 32 0) := by simp
  have hloop : compareLoop (fun p : Word × Word => (ptr i.addr16 (p.1 + stride s.down i.size),
        ptr i.addr16 (p.2 + stride s.down i.size)))
      (fun p => compareFlags i.size
        (readLe i.size.len s.mem (s.setA i.addr16 true - ptr i.addr16 s.cpu.esi + p.1))
        (readLe i.size.len s.mem (s.esBase + p.2)))
      i.repe (s.count i) (ptr i.addr16 s.cpu.esi, ptr i.addr16 s.cpu.edi) s.cpu.rfl =
      let (m, b, r) := compareLoop Nat.succ (elemFlags i s) i.repe (s.count i) 0 s.cpu.rfl
      (m, (ptr i.addr16 (s.cpu.esi + stride s.down i.size * BitVec.ofNat 32 b),
        ptr i.addr16 (s.cpu.edi + stride s.down i.size * BitVec.ofNat 32 b)), r) := by
    rw [hinit s.cpu.esi, hinit s.cpu.edi]
    refine compareLoop_map
      (fun b => (ptr i.addr16 (s.cpu.esi + stride s.down i.size * BitVec.ofNat 32 b),
        ptr i.addr16 (s.cpu.edi + stride s.down i.size * BitVec.ofNat 32 b)))
      (fun b => by simp only [ptr_stride_succ]) (fun b => ?_) i.repe 0 s.cpu.rfl
    simp only [elemFlags, hop, StringState.setA, srcAt, dstAt, if_true, ← hinit,
      add_sub_cancel_right]
  have hcount := @compareLoop_count (s.count i) (elemFlags i s) i.repe 0 s.cpu.rfl
  unfold movsCmpD
  by_cases hzero : s.count i = 0
  · rw [if_pos hzero, hzero]
    simp only [compareLoop, compared, advance_zero]
    rfl
  · rw [if_neg hzero]
    refine (congrArg (fun p => (s.saveCmpD i p).visible) hloop).trans ?_
    generalize compareLoop Nat.succ (elemFlags i s) i.repe (s.count i) 0 s.cpu.rfl = res at *
    obtain ⟨m, j, r⟩ := res
    have hecx := setPtr_count_sub (n := m) (k := j) hcount
    have hmem : memAfter i s j = s.mem := by simp only [memAfter, hop]
    have heax : eaxAfter i s j = s.cpu.eax := by cases j <;> simp only [eaxAfter, hop]
    simp [StringState.visible, StringState.saveCmpD, compared, advance, hecx,
      hmem, heax, hop, StringOp.usesSrc, StringOp.usesDst]

/-! ## The instructions against their single steps -/

/-- `O_MOVS_SavA` after the transfer of the whole run. -/
theorem savA_advance {src dst : Bool} (h : DirOk s.cpu) (hsrc : i.op.usesSrc = src)
    (hdst : i.op.usesDst = dst) (u : StringState) (hu : u.visible = { s with
      mem := memAfter i s (s.count i)
      cpu := { s.cpu with eax := eaxAfter i s (s.count i), dr1 := 0#32 } }) :
    (u.savA i true src dst).visible = advance i (s.count i) s := by
  subst hsrc hdst
  have hcount : BitVec.ofNat 32 (s.count i) = ptr i.addr16 s.cpu.ecx := by
    rw [StringState.count, BitVec.ofNat_toNat, BitVec.setWidth_eq]
  have hflags := congrArg (fun v : StringState => v.cpu.eflags) hu
  have hinc := congrArg (fun v : StringState => v.cpu.dfIncrements) hu
  have hdir : DirOk u.cpu :=
    h.congr (by rw [Cpu.df, Cpu.df]; exact congrArg (BitVec.getLsbD · 10) hflags) hinc
  have hmove : (u.savA i true i.op.usesSrc i.op.usesDst).visible =
      (u.visible.savA i true i.op.usesSrc i.op.usesDst).visible := by
    rw [savA_eq hdir, savA_eq (s := u.visible) hdir]
    rfl
  rw [hmove, hu, savA_eq]
  · simp only [StringState.visible, advance, hcount, setPtr_sub_ptr, if_true, StringState.down]
  · exact h

/-- The pointers of MOVS, STOS and LODS stay inside of the segment. -/
def StaysInside (i : StringInsn) (s : StringState) (r : Word) : Prop :=
  i.addr16 = true → ∀ k < s.count i, Reaches s.down i.size k (ptr true r).toNat

theorem ptr_of_staysInside (h : StaysInside i s r) (hk : k < s.count i) :
    ptr i.addr16 (r + stride s.down i.size * BitVec.ofNat 32 k) =
      ptr i.addr16 r + stride s.down i.size * BitVec.ofNat 32 k := by
  cases haddr : i.addr16 with
  | false => rfl
  | true => exact ptr_add_of_reaches (h haddr k hk)

/-- LODS with a prefix. -/
theorem matches_lods (h : DirOk s.cpu) (hop : i.op = .lods)
    (hin : if s.count i = 0 then i.size.part s.cpu.dr1 = i.size.part s.cpu.eax
      else StaysInside i s s.cpu.esi) : Matches i s := by
  have hnot : i.op.conditional = false := by rw [hop]; rfl
  simp only [Matches, repString, hop]
  rw [repSteps_advance h hnot]
  apply savA_advance h (by rw [hop]; rfl) (by rw [hop]; rfl)
  have hmem : memAfter i s (s.count i) = s.mem := by simp only [memAfter, hop]
  rw [hmem]
  by_cases hzero : s.count i = 0
  · rw [if_pos hzero] at hin
    have hsame := (OpSize.setPart_eq_iff i.size).mpr hin
    simp [StringState.visible, StringState.storeAcc, movsLodD, hzero, loadElems, hsame, eaxAfter]
  · rw [if_neg hzero] at hin
    obtain ⟨n, hn⟩ := Nat.exists_eq_succ_of_ne_zero hzero
    have haddr := ptr_of_staysInside hin (k := n) (by omega)
    simp only [StringState.visible, StringState.storeAcc, movsLodD, hn, loadElems_succ, eaxAfter,
      hop, srcAt, haddr, OpSize.setPart_of_setPart, StringState.setA, if_true, BitVec.add_assoc]

/-- SCAS with a prefix. -/
theorem matches_scas (h : DirOk s.cpu) (hop : i.op = .scas) : Matches i s := by
  have hcond : i.op.conditional = true := by rw [hop]; rfl
  simp only [Matches, repString, hop]
  rw [movsScaD_visible hop, repSteps_compared h hcond]

/-- CMPS with a prefix. -/
theorem matches_cmps (h : DirOk s.cpu) (hop : i.op = .cmps) : Matches i s := by
  have hcond : i.op.conditional = true := by rw [hop]; rfl
  simp only [Matches, repString, hop]
  rw [movsCmpD_visible hop, repSteps_compared h hcond]

/-- After the transfer of a run that was stored as it should be, the state is that
of the repeated instruction. -/
theorem finish_ok (h : DirOk s.cpu) (hop : i.op.conditional = false) {src : Bool}
    (hsrc : i.op.usesSrc = src) (hdst : i.op.usesDst = true) (u : StringState)
    (hu : u.visible = s.visible) (heax : eaxAfter i s (s.count i) = s.cpu.eax) :
    ∃ t, u.finish i src (.ok (memAfter i s (s.count i))) = .ok t ∧
      t.visible = (repSteps i (s.count i) s).visible := by
  refine ⟨_, rfl, ?_⟩
  rw [repSteps_advance h hop]
  apply savA_advance h hsrc hdst
  have hcpu := congrArg StringState.cpu hu
  have hbase := congrArg StringState.srcBase hu
  have hes := congrArg StringState.esBase hu
  simp only [StringState.visible] at hcpu hbase hes ⊢
  rw [hcpu, hbase, hes, heax]

/-- The run from an offset stays inside of the segment, with its last element. -/
def RunFits (down : Bool) (size : OpSize) (n p : Nat) : Prop :=
  if down then (n - 1) * size.len ≤ p else n * size.len ≤ 0x10000 - p

theorem RunFits.reaches {down : Bool} {p : Nat} (h : RunFits down size n p) (hp : p < 0x10000)
    (hk : k < n) : Reaches down size k p := by
  have hlen := size.len_pos
  unfold RunFits at h
  unfold Reaches
  cases down with
  | true =>
      have hle := Nat.mul_le_mul_right size.len (show k ≤ n - 1 by omega)
      exact hle.trans h
  | false =>
      have hle := Nat.mul_le_mul_right size.len (show k + 1 ≤ n by omega)
      rw [Nat.add_mul] at hle
      simp only [Bool.false_eq_true, if_false] at h ⊢
      omega

/-- A run that does not fit has an element that straddles the end of the segment
if it is misaligned. -/
theorem exists_straddle (haddr : i.addr16 = true)
    (hfits : ¬RunFits s.down i.size (s.count i) (ptr true r).toNat)
    (hmis : (ptr true r).toNat % i.size.len ≠ 0) :
    ∃ k < s.count i, 0x10000 < elemOffset i s r k + i.size.len := by
  have hlt := @ptr_lt r
  have hlen := i.size.len_pos
  have hsmall := i.size.len_le
  have hdiv := Nat.div_add_mod (ptr true r).toNat i.size.len
  simp only [elemOffset, haddr, stride_mul]
  unfold RunFits at hfits
  cases hdown : s.down with
  | true =>
      rw [hdown, if_pos rfl, not_le] at hfits
      -- the element below the last one that lies wholly above offset 0
      have hquot := (Nat.div_lt_iff_lt_mul hlen).mpr hfits
      have hmod := Nat.mod_lt (ptr true r).toNat hlen
      have hmul : ((ptr true r).toNat / i.size.len + 1) * i.size.len =
          i.size.len * ((ptr true r).toNat / i.size.len) + i.size.len := by ring
      refine ⟨(ptr true r).toNat / i.size.len + 1, Nat.add_lt_of_lt_sub hquot, ?_⟩
      rw [hmul, ← ptr_ptr_add, ptr_toNat, if_pos rfl, ← BitVec.sub_eq_add_neg, BitVec.toNat_sub,
        BitVec.toNat_ofNat]
      generalize i.size.len * ((ptr true r).toNat / i.size.len) = y at *
      omega
  | false =>
      rw [hdown, if_neg Bool.false_ne_true, not_le] at hfits
      -- the first element that does not lie wholly below the end
      have hquot := (Nat.div_lt_iff_lt_mul hlen).mpr hfits
      have hend := Nat.div_add_mod (0x10000 - (ptr true r).toNat) i.size.len
      have hmod := Nat.mod_lt (0x10000 - (ptr true r).toNat) hlen
      have hrest : (0x10000 - (ptr true r).toNat) % i.size.len ≠ 0 := by
        intro hzero
        apply hmis
        have hdvd := (Nat.dvd_sub_iff_right hlt.le i.size.dvd_segment).mp
          (Nat.dvd_of_mod_eq_zero hzero)
        exact Nat.mod_eq_zero_of_dvd hdvd
      refine ⟨(0x10000 - (ptr true r).toNat) / i.size.len, hquot, ?_⟩
      rw [Nat.mul_comm, ← ptr_ptr_add, ptr_toNat, if_neg Bool.false_ne_true, BitVec.toNat_add,
        BitVec.toNat_ofNat]
      generalize i.size.len * ((0x10000 - (ptr true r).toNat) / i.size.len) = y at *
      omega

/-- The shadow offset of MOVS that is nearer to the end it moves to. -/
def nearest (s : StringState) : Nat :=
  if s.down then min (ptr true s.cpu.edi).toNat (ptr true s.cpu.esi).toNat
  else max (ptr true s.cpu.edi).toNat (ptr true s.cpu.esi).toNat

/-- The loop of MOVS meets no overflow exactly when the run of the nearest offset
fits. -/
theorem MovD.start_overflow (memRef : Word) :
    (MovD.start s i memRef).overflow s.down i.addr16 i.size = false ↔
      (i.addr16 = true → RunFits s.down i.size (s.count i) (nearest s)) := by
  simp only [MovD.overflow, MovD.minofs, MovD.start, RunFits, nearest, Bool.and_eq_false_iff]
  cases s.down <;> cases i.addr16 <;> simp

/-- Where the run of the nearest offset fits, both runs stay inside. -/
theorem staysInside_of_nearest
    (h : i.addr16 = true → RunFits s.down i.size (s.count i) (nearest s)) :
    StaysInside i s s.cpu.esi ∧ StaysInside i s s.cpu.edi := by
  have hboth : i.addr16 = true →
      RunFits s.down i.size (s.count i) (ptr true s.cpu.esi).toNat ∧
        RunFits s.down i.size (s.count i) (ptr true s.cpu.edi).toNat := by
    intro haddr
    have hnear := h haddr
    unfold RunFits nearest at hnear
    unfold RunFits
    cases hdown : s.down <;>
      simp only [hdown, Bool.false_eq_true, if_true, if_false] at hnear ⊢ <;> omega
  exact ⟨fun haddr k hk => (hboth haddr).1.reaches ptr_lt hk,
    fun haddr k hk => (hboth haddr).2.reaches ptr_lt hk⟩

/-- The nearest offset is one of the two. -/
theorem nearest_cases (s : StringState) :
    nearest s = (ptr true s.cpu.esi).toNat ∨ nearest s = (ptr true s.cpu.edi).toNat := by
  unfold nearest
  split <;> omega

theorem MovD.start_misaligned (memRef : Word) (hmis : nearest s % size.len ≠ 0) :
    (MovD.start s i memRef).minofs s.down % size.len ≠ 0 := by
  have hsi := @ptr_lt s.cpu.esi
  have hdi := @ptr_lt s.cpu.edi
  simp only [MovD.minofs, MovD.start]
  unfold nearest at hmis
  cases hdown : s.down with
  | true => rwa [hdown] at hmis
  | false =>
      rw [hdown, if_neg Bool.false_ne_true] at hmis
      rw [if_neg Bool.false_ne_true]
      intro hzero
      apply hmis
      exact Nat.mod_eq_zero_of_dvd ((Nat.dvd_sub_iff_right (by omega) size.dvd_segment).mp
        (Nat.dvd_of_mod_eq_zero hzero))

/-- The second piece of MOVS passes the end again, and its shadow offsets end
misaligned there. -/
def SecondMisaligned (i : StringInsn) (s : StringState) : Prop :=
  let v := MovD.start s i (s.setA i.addr16 true)
  let rest := { v.wrap s.down with i := v.i - v.piece s.down i.size }
  rest.overflow s.down i.addr16 i.size = true ∧ rest.minofs s.down % i.size.len ≠ 0

/-- The run from an index register passes the end of the segment, misaligned. -/
def PassesMisaligned (i : StringInsn) (s : StringState) (r : Word) : Prop :=
  ¬RunFits s.down i.size (s.count i) (ptr true r).toNat ∧ (ptr true r).toNat % i.size.len ≠ 0

theorem straddles_of_passes (haddr : i.addr16 = true) (hop : i.op = .movs)
    (h : PassesMisaligned i s s.cpu.esi ∨ PassesMisaligned i s s.cpu.edi) : Straddles i s := by
  refine ⟨haddr, ?_⟩
  rcases h with ⟨hfits, hmis⟩ | ⟨hfits, hmis⟩
  · obtain ⟨k, hk, hstraddle⟩ := exists_straddle haddr hfits hmis
    exact ⟨k, hk, .inl ⟨by rw [hop]; rfl, hstraddle⟩⟩
  · obtain ⟨k, hk, hstraddle⟩ := exists_straddle haddr hfits hmis
    exact ⟨k, hk, .inr ⟨by rw [hop]; rfl, hstraddle⟩⟩

/-- The condition under which MOVS with 16-bit addresses is right: no second piece
is transferred, and a fault is over a misaligned run. -/
def MovsFits (i : StringInsn) (s : StringState) : Prop :=
  RunFits s.down i.size (s.count i) (nearest s) ∨ nearest s % i.size.len ≠ 0 ∨
    SecondMisaligned i s ∧ (PassesMisaligned i s s.cpu.esi ∨ PassesMisaligned i s s.cpu.edi)

/-- A first or a second piece that ends misaligned faults. -/
theorem movsMovD_error (hover : (MovD.start s i (s.setA i.addr16 true)).overflow s.down i.addr16
      i.size = true)
    (hmis : (MovD.start s i (s.setA i.addr16 true)).minofs s.down % i.size.len ≠ 0 ∨
      SecondMisaligned i s) : ∃ m, movsMovD s i (s.setA i.addr16 true) = some (.error m) := by
  simp only [movsMovD, loop]
  by_cases hfirst : (MovD.start s i (s.setA i.addr16 true)).minofs s.down % i.size.len ≠ 0
  · rw [MovD.turn_misaligned hover hfirst]
    exact ⟨_, rfl⟩
  · have hsecond := hmis.resolve_left hfirst
    obtain ⟨y, hy, hsr1, hdr2, hi⟩ := @MovD.turn_piece i.size i.addr16 s.down
      (s.setA i.addr16 true) _ hover (not_not.mp hfirst)
    have hcount : s.count i ≠ 0 := fun hzero => by
      simp [MovD.overflow, MovD.start, hzero] at hover
    obtain ⟨n, hn⟩ := Nat.exists_eq_succ_of_ne_zero hcount
    have hleave : y.turn s.down i.addr16 i.size (s.setA i.addr16 true) = .leave (.error y.mem) := by
      apply MovD.turn_misaligned
      · simpa only [MovD.overflow, MovD.minofs, hsr1, hdr2, hi] using hsecond.1
      · simpa only [MovD.minofs, hsr1, hdr2] using hsecond.2
    rw [hy, hn]
    simp only [loop, hleave]
    exact ⟨_, rfl⟩

/-- MOVS with a prefix, where it stays inside of the segment or faults before a
second piece. -/
theorem matches_movs (h : DirOk s.cpu) (hop : i.op = .movs)
    (hin : i.addr16 = true → MovsFits i s) : Matches i s := by
  have hnot : i.op.conditional = false := by rw [hop]; rfl
  have hover := @MovD.start_overflow i s (s.setA i.addr16 true)
  simp only [Matches, repString, hop]
  cases hcase : (MovD.start s i (s.setA i.addr16 true)).overflow s.down i.addr16 i.size with
  | false =>
      obtain ⟨hsrc, hdst⟩ := staysInside_of_nearest (hover.mp hcase)
      have hmem : stores i.size.len
          (fun k => s.esBase + ptr i.addr16 s.cpu.edi + stride s.down i.size * BitVec.ofNat 32 k)
          (fun k m => readLe i.size.len m
            (s.setA i.addr16 true + stride s.down i.size * BitVec.ofNat 32 k)) (s.count i) s.mem =
          memAfter i s (s.count i) := by
        simp only [memAfter, hop]
        refine stores_congr (fun k hk => ?_) fun k hk => ?_
        · simp only [dstAt, ptr_of_staysInside hdst hk, BitVec.add_assoc]
        · funext m
          simp only [elemVal, hop, srcAt, ptr_of_staysInside hsrc hk, StringState.setA, if_true,
            BitVec.add_assoc]
      have heax : eaxAfter i s (s.count i) = s.cpu.eax := by
        cases s.count i <;> simp only [eaxAfter, hop]
      have huses : i.op.usesSrc = true ∧ i.op.usesDst = true := by rw [hop]; exact ⟨rfl, rfl⟩
      obtain ⟨t, ht, hvisible⟩ := finish_ok h hnot huses.1 huses.2 s rfl heax
      simp only [movsMovD, loop]
      rw [MovD.turn_inside hcase]
      simp only [MovD.start, hmem, Option.map_some]
      rw [ht]
      exact hvisible
  | true =>
      have hcross : ¬(i.addr16 = true → RunFits s.down i.size (s.count i) (nearest s)) := by
        rw [← hover, hcase]
        exact Bool.noConfusion
      obtain ⟨haddr, hfits⟩ := Classical.not_imp.mp hcross
      have hmis := (hin haddr).resolve_left hfits
      obtain ⟨m, hm⟩ := movsMovD_error hcase
        (hmis.imp (MovD.start_misaligned _) And.left)
      simp only [hm, Option.map_some, StringState.finish]
      apply straddles_of_passes haddr hop
      rcases hmis with hmis | ⟨_, hpass⟩
      · rcases nearest_cases s with hnear | hnear <;> rw [hnear] at hfits hmis
        · exact .inl ⟨hfits, hmis⟩
        · exact .inr ⟨hfits, hmis⟩
      · exact hpass

/-! ## STOS in pieces -/

/-- What is stored is the part of the accumulator that an element takes. -/
theorem stores_setPart {dest : Nat → Word} :
    stores size.len dest (fun _ _ => size.setPart r v) n m =
      stores size.len dest (fun _ _ => v) n m := by
  induction n with
  | zero => rfl
  | succ n ih => rw [stores_succ, stores_succ, ih, OpSize.writeLe_setPart]

/-- The offset of the next element to store, with `j` elements done. -/
def stosOffset (i : StringInsn) (s : StringState) (j : Nat) : Word :=
  ptr true (s.cpu.edi + stride s.down i.size * BitVec.ofNat 32 j)

/-- Between two pieces of STOS: the pointer is at the next element, it is aligned,
and the shadow offset has as many elements before it as the true one. -/
structure StosOk (i : StringInsn) (s : StringState) (x : StoD) (j : Nat) : Prop where
  count : j + x.i = s.count i
  mem : x.mem = stores i.size.len (dstAt i s) (elemVal i s) j s.mem
  ar1 : x.ar1 = s.esBase + stosOffset i s j
  aligned : x.ar1.toNat % i.size.len = 0
  shadow : if s.down then x.sr1 / i.size.len = (stosOffset i s j).toNat / i.size.len
    else x.sr1 = (stosOffset i s j).toNat ∧ x.sr1 % i.size.len = 0

theorem stosOffset_lt (j : Nat) : (stosOffset i s j).toNat < 0x10000 :=
  ptr_lt

theorem stosOffset_add (j k : Nat) : stosOffset i s (j + k) =
    ptr true (stosOffset i s j + stride s.down i.size * BitVec.ofNat 32 k) := by
  unfold stosOffset
  rw [ptr_ptr_add, BitVec.ofNat_add, BitVec.mul_add, BitVec.add_assoc]

/-- As long as no end of the segment is passed, the offset goes along the
direction. -/
theorem stosOffset_reaches {j k : Nat}
    (h : Reaches s.down i.size k (stosOffset i s j).toNat) :
    stosOffset i s (j + k) = stosOffset i s j + stride s.down i.size * BitVec.ofNat 32 k := by
  have hself : ptr true (stosOffset i s j) = stosOffset i s j := by
    have hadd := @ptr_ptr_add true 0#32
      (s.cpu.edi + stride s.down i.size * BitVec.ofNat 32 j)
    simp only [BitVec.add_zero] at hadd
    exact hadd
  rw [stosOffset_add, ptr_add_of_reaches (by rwa [hself]), hself]

/-- The elements of a piece do not pass an end of the segment. -/
theorem StosOk.reaches {x : StoD} {j k : Nat} (h : StosOk i s x j)
    (hk : (k + if s.down then 0 else 1) * i.size.len ≤ x.minofs s.down) :
    Reaches s.down i.size k (stosOffset i s j).toNat := by
  have hlen := i.size.len_pos
  have hshadow := h.shadow
  have hlt := @stosOffset_lt i s j
  unfold StoD.minofs at hk
  unfold Reaches
  cases hdown : s.down with
  | true =>
      rw [hdown, if_pos rfl] at hshadow
      rw [hdown, if_pos rfl, if_pos rfl, Nat.add_zero] at hk
      have hquot := (Nat.le_div_iff_mul_le hlen).mpr hk
      rw [hshadow] at hquot
      exact (Nat.le_div_iff_mul_le hlen).mp hquot
  | false =>
      rw [hdown, if_neg Bool.false_ne_true] at hshadow
      rw [hdown, if_neg Bool.false_ne_true, if_neg Bool.false_ne_true, Nat.add_mul,
        hshadow.1] at hk
      rw [if_neg Bool.false_ne_true]
      omega

/-- A piece stores elements of the run. -/
theorem StosOk.stores_piece {x : StoD} {j p : Nat} (h : StosOk i s x j) (hop : i.op = .stos)
    (haddr : i.addr16 = true)
    (hin : ∀ k < p, Reaches s.down i.size k (stosOffset i s j).toNat) :
    stores i.size.len (fun k => x.ar1 + stride s.down i.size * BitVec.ofNat 32 k)
      (fun _ _ => i.size.setPart r s.cpu.eax) p x.mem =
      stores i.size.len (dstAt i s) (elemVal i s) (j + p) s.mem := by
  rw [stores_setPart, stores_add, ← h.mem]
  refine stores_congr (fun k hk => ?_) fun k _ => ?_
  · have hdst : dstAt i s (j + k) = s.esBase + stosOffset i s (j + k) := by
      simp only [dstAt, stosOffset, haddr]
    rw [hdst, stosOffset_reaches (hin k hk), h.ar1, BitVec.add_assoc]
  · funext m
    simp only [elemVal, hop]

/-- Behind the last element before the end the offset goes on at the other end. -/
theorem StosOk.wrap {x : StoD} {j p : Nat} (h : StosOk i s x j)
    (hp : p = x.minofs s.down / i.size.len + if s.down then 1 else 0) :
    stosOffset i s (j + p) =
      stosOffset i s j + stride s.down i.size * BitVec.ofNat 32 p +
        (if s.down then 0x10000#32 else -0x10000#32) ∧
      (if s.down then 0xffff / i.size.len = (stosOffset i s (j + p)).toNat / i.size.len
        else (stosOffset i s (j + p)).toNat = 0) := by
  have hlen := i.size.len_pos
  have hshadow := h.shadow
  have hlt := @stosOffset_lt i s j
  have hcases : i.size.len = 1 ∨ i.size.len = 2 ∨ i.size.len = 4 := by
    cases i.size <;> simp [OpSize.len]
  rw [stosOffset_add, stride_mul]
  generalize stosOffset i s j = w at *
  cases hdown : s.down with
  | true =>
      rw [hdown, if_pos rfl] at hshadow
      rw [hdown, if_pos rfl, StoD.minofs, if_pos rfl, hshadow] at hp
      simp only [if_true]
      have hvalue : (ptr true (w + -BitVec.ofNat 32 (p * i.size.len))).toNat =
          0x10000 + w.toNat - p * i.size.len ∧
          w.toNat < p * i.size.len ∧ p * i.size.len ≤ w.toNat + 4 := by
        rw [ptr_toNat, ← BitVec.sub_eq_add_neg, BitVec.toNat_sub, BitVec.toNat_ofNat]
        rcases hcases with hl | hl | hl <;> rw [hl] at hp ⊢ <;> omega
      constructor
      · apply BitVec.eq_of_toNat_eq
        rw [hvalue.1, ← BitVec.sub_eq_add_neg, BitVec.toNat_add, BitVec.toNat_sub,
          BitVec.toNat_ofNat]
        have hbig : (0x10000#32).toNat = 0x10000 := rfl
        rw [hbig]
        omega
      · rw [hvalue.1]
        rcases hcases with hl | hl | hl <;> rw [hl] at hp ⊢ <;> omega
  | false =>
      rw [hdown, if_neg Bool.false_ne_true] at hshadow
      rw [hdown, if_neg Bool.false_ne_true, StoD.minofs, if_neg Bool.false_ne_true,
        hshadow.1] at hp
      simp only [Bool.false_eq_true, if_false]
      have halign := hshadow.2
      rw [hshadow.1] at halign
      have hsum : w.toNat + p * i.size.len = 0x10000 := by
        rcases hcases with hl | hl | hl <;> rw [hl] at hp halign ⊢ <;> omega
      have hvalue : (ptr true (w + BitVec.ofNat 32 (p * i.size.len))).toNat = 0 := by
        rw [ptr_toNat, BitVec.toNat_add, BitVec.toNat_ofNat]
        omega
      refine ⟨?_, hvalue⟩
      apply BitVec.eq_of_toNat_eq
      rw [hvalue, ← BitVec.sub_eq_add_neg, BitVec.toNat_sub, BitVec.toNat_add, BitVec.toNat_ofNat,
        BitVec.toNat_ofNat]
      omega

/-- The pointer stays aligned from piece to piece. -/
theorem aligned_piece {down : Bool} (h : a.toNat % size.len = 0) (p : Nat) :
    (a + stride down size * BitVec.ofNat 32 p +
      (if down then 0x10000#32 else -0x10000#32)).toNat % size.len = 0 := by
  rw [stride_mul]
  have hbig : (0x10000#32).toNat = 0x10000 := rfl
  have hcases : size.len = 1 ∨ size.len = 2 ∨ size.len = 4 := by
    cases size <;> simp [OpSize.len]
  cases down with
  | true =>
      simp only [if_true]
      rw [BitVec.toNat_add, ← BitVec.sub_eq_add_neg, BitVec.toNat_sub, BitVec.toNat_ofNat, hbig]
      rcases hcases with hl | hl | hl <;> rw [hl] at h ⊢ <;> omega
  | false =>
      simp only [Bool.false_eq_true, if_false]
      rw [← BitVec.sub_eq_add_neg, BitVec.toNat_sub, BitVec.toNat_add, BitVec.toNat_ofNat,
        BitVec.toNat_ofNat]
      rcases hcases with hl | hl | hl <;> rw [hl] at h ⊢ <;> omega

/-- A turn of STOS stores the rest of the run, or a piece of it. -/
theorem StosOk.keeps {x : StoD} {j : Nat} (h : StosOk i s x j) (hop : i.op = .stos)
    (haddr : i.addr16 = true) :
    (x.turn s.down i.addr16 i.size (i.size.setPart s.cpu.dr1 s.cpu.eax)).Keeps
      (fun y => ∃ k, StosOk i s y k) (· = .ok (memAfter i s (s.count i))) := by
  have hlen := i.size.len_pos
  have hmem : memAfter i s (s.count i) =
      stores i.size.len (dstAt i s) (elemVal i s) (s.count i) s.mem := by
    simp only [memAfter, hop]
  cases hover : x.overflow s.down i.addr16 i.size with
  | false =>
      rw [StoD.turn_inside hover]
      have hin : ∀ k < x.i, Reaches s.down i.size k (stosOffset i s j).toNat := by
        intro k hk
        apply h.reaches
        simp only [StoD.overflow, haddr, Bool.true_and, Bool.and_eq_false_iff,
          decide_eq_false_iff_not, not_lt, not_not] at hover
        have hle := hover.resolve_left (by omega)
        refine le_trans (Nat.mul_le_mul_right _ ?_) hle
        cases s.down <;> simp only [Bool.false_eq_true, if_true, if_false] <;> omega
      rw [h.stores_piece hop haddr hin, h.count, ← hmem]
      rfl
  | true =>
      have hlt := StoD.possible_lt hover
      rw [StoD.turn_overflow hover, if_neg (not_not.mpr h.aligned)]
      generalize hp : x.minofs s.down / i.size.len + (if s.down then 1 else 0) = p at *
      have hin : ∀ k < p, Reaches s.down i.size k (stosOffset i s j).toNat := by
        intro k hk
        apply h.reaches
        refine le_trans (Nat.mul_le_mul_right _ ?_) (Nat.div_mul_le_self _ _)
        clear hover
        generalize x.minofs s.down / i.size.len = q at *
        cases hdown : s.down <;>
          simp only [hdown, Bool.false_eq_true, if_true, if_false] at hp ⊢ <;> omega
      obtain ⟨hoffset, hshadow⟩ := h.wrap hp.symm
      have hpointer : (if s.down then x.ar1 + stride s.down i.size * BitVec.ofNat 32 p + 0x10000#32
          else x.ar1 + stride s.down i.size * BitVec.ofNat 32 p - 0x10000#32) =
          x.ar1 + stride s.down i.size * BitVec.ofNat 32 p +
            (if s.down then 0x10000#32 else -0x10000#32) := by
        cases s.down with
        | true => rfl
        | false => exact BitVec.sub_eq_add_neg _ _
      have haligned := @aligned_piece i.size x.ar1 s.down h.aligned p
      rw [← hpointer] at haligned
      refine ⟨j + p, ?_, ?_, ?_, haligned, ?_⟩
      · have hcount := h.count
        change j + p + (x.i - p) = _
        omega
      · exact h.stores_piece hop haddr hin
      · refine hpointer.trans ?_
        rw [hoffset, h.ar1]
        simp only [BitVec.add_assoc]
      · cases hdown : s.down with
        | true =>
            rw [hdown, if_pos rfl] at hshadow
            simpa using hshadow
        | false =>
            rw [hdown, if_neg Bool.false_ne_true] at hshadow
            simpa using hshadow.symm

/-- The loop of STOS meets no overflow exactly when the run fits. -/
theorem StoD.start_overflow (u : StringState) (memRef : Word) :
    (StoD.start u i memRef).overflow u.down i.addr16 i.size = false ↔
      (i.addr16 = true → RunFits u.down i.size (u.count i) (ptr true u.cpu.edi).toNat) := by
  simp only [StoD.overflow, StoD.minofs, StoD.start, RunFits, Bool.and_eq_false_iff]
  constructor
  · rintro ((haddr | hzero) | hle) htrue
    · rw [haddr] at htrue
      cases htrue
    · have hzero : u.count i = 0 := not_not.mp (of_decide_eq_false hzero)
      rw [hzero]
      split <;> simp
    · split at hle <;> simp_all
  · intro hfits
    cases haddr : i.addr16 with
    | false => exact .inl (.inl rfl)
    | true =>
        right
        have hle := hfits haddr
        split at hle <;> simp_all

/-- The memory that the loop of STOS leaves is what the instruction matches by. -/
theorem matches_of_stoD (h : DirOk s.cpu) (hop : i.op = .stos)
    (hloop : movsStoD (s.loadAcc i.size) i (s.setA i.addr16 false) =
      some (.ok (memAfter i s (s.count i)))) : Matches i s := by
  have hnot : i.op.conditional = false := by rw [hop]; rfl
  have huses : i.op.usesSrc = false ∧ i.op.usesDst = true := by rw [hop]; exact ⟨rfl, rfl⟩
  have heax : eaxAfter i s (s.count i) = s.cpu.eax := by
    cases s.count i <;> simp only [eaxAfter, hop]
  obtain ⟨t, ht, hvisible⟩ := finish_ok h hnot huses.1 huses.2 (s.loadAcc i.size) rfl heax
  have hrep : repString i s = some (.ok t) := by
    simp only [repString, hop]
    rw [hloop, Option.map_some, ht]
  simp only [Matches, hrep]
  exact hvisible

/-- The condition under which STOS with 16-bit addresses is right: its run stays
inside of the segment, or the test for alignment of the linear address says what
the offset is. -/
def StosFits (i : StringInsn) (s : StringState) : Prop :=
  RunFits s.down i.size (s.count i) (ptr true s.cpu.edi).toNat ∨
    if (s.setA true false).toNat % i.size.len = 0 then
      s.down = true ∨ (ptr true s.cpu.edi).toNat % i.size.len = 0
    else (ptr true s.cpu.edi).toNat % i.size.len ≠ 0

/-- STOS with a prefix. -/
theorem matches_stos (h : DirOk s.cpu) (hop : i.op = .stos)
    (hin : i.addr16 = true → StosFits i s) : Matches i s := by
  have hover := @StoD.start_overflow i (s.loadAcc i.size) (s.setA i.addr16 false)
  have hedi : (s.loadAcc i.size).cpu.edi = s.cpu.edi := rfl
  have hcount : (s.loadAcc i.size).count i = s.count i := rfl
  have hdown : (s.loadAcc i.size).down = s.down := rfl
  rw [hcount, hdown, hedi] at hover
  set x := StoD.start (s.loadAcc i.size) i (s.setA i.addr16 false) with hx
  cases hcase : x.overflow s.down i.addr16 i.size with
  | false =>
      have hstay : StaysInside i s s.cpu.edi := fun haddr k hk =>
        (hover.mp hcase haddr).reaches ptr_lt hk
      apply matches_of_stoD h hop
      rw [movsStoD, ← hx, loop, hdown, StoD.turn_inside hcase]
      change some (Except.ok (stores i.size.len _
        (fun _ _ => i.size.setPart s.cpu.dr1 s.cpu.eax) (s.count i) s.mem)) = _
      rw [stores_setPart]
      simp only [memAfter, hop]
      congr 2
      refine stores_congr (fun k hk => ?_) fun k _ => ?_
      · change s.esBase + ptr i.addr16 s.cpu.edi + _ = _
        rw [dstAt, ptr_of_staysInside hstay hk, BitVec.add_assoc]
      · funext m
        simp only [elemVal, hop]
  | true =>
      have hcross : ¬(i.addr16 = true →
          RunFits s.down i.size (s.count i) (ptr true s.cpu.edi).toNat) := by
        rw [← hover, hcase]
        exact Bool.noConfusion
      obtain ⟨haddr, hfits⟩ := Classical.not_imp.mp hcross
      have hcond := (hin haddr).resolve_left hfits
      have har1 : x.ar1 = s.setA true false := by rw [← haddr]; rfl
      by_cases halign : (s.setA true false).toNat % i.size.len = 0
      · rw [if_pos halign] at hcond
        have hzero : stosOffset i s 0 = ptr true s.cpu.edi := by simp [stosOffset]
        have hstart : StosOk i s x 0 := by
          refine ⟨Nat.zero_add _, rfl, ?_, ?_, ?_⟩
          · rw [har1, hzero]
            rfl
          · rw [har1, halign]
          · rw [hzero]
            cases hd : s.down with
            | true => rfl
            | false =>
                rw [hd] at hcond
                exact ⟨rfl, hcond.resolve_left Bool.false_ne_true⟩
        have hleft := StoD.left_le x
        have hi : x.i = s.count i := rfl
        have hkeeps : ∀ y, (∃ j, StosOk i s y j) →
            (y.turn s.down i.addr16 i.size (i.size.setPart s.cpu.dr1 s.cpu.eax)).Keeps
              (fun y => ∃ j, StosOk i s y j) (· = .ok (memAfter i s (s.count i))) := by
          rintro y ⟨j, hy⟩
          exact hy.keeps hop haddr
        obtain ⟨b, hloop, hb⟩ := loop_total hkeeps (fun y _ => StoD.turn_left y) ⟨0, hstart⟩
          (show x.left < 2 * s.count i + 2 by omega)
        apply matches_of_stoD h hop
        rw [← hb]
        exact hloop
      · rw [if_neg halign] at hcond
        have hfault : movsStoD (s.loadAcc i.size) i (s.setA i.addr16 false) =
            some (.error x.mem) := by
          have hmis : x.ar1.toNat % i.size.len ≠ 0 := by rwa [har1]
          rw [movsStoD, ← hx, loop, hdown, StoD.turn_overflow hcase, if_pos hmis]
        have hrep : repString i s = some ((s.loadAcc i.size).finish i false (.error x.mem)) := by
          simp only [repString, hop]
          rw [hfault, Option.map_some]
        simp only [Matches, hrep, StringState.finish]
        obtain ⟨k, hk, hstraddle⟩ := exists_straddle haddr hfits hcond
        exact ⟨haddr, k, hk, .inr ⟨by rw [hop]; rfl, hstraddle⟩⟩

/-! ## All of them -/

/-- The loops are left for every state. -/
theorem repString_terminates (i : StringInsn) (s : StringState) :
    ∃ r, repString i s = some r := by
  cases hop : i.op with
  | movs =>
      obtain ⟨b, hb⟩ := @MovD.terminates i.size i.addr16 s.down (s.setA i.addr16 true)
        (.start s i (s.setA i.addr16 true)) (s.count i + 1) ⟨ptr_lt, ptr_lt⟩ (Nat.lt_succ_self _)
      simp only [repString, hop]
      exact ⟨_, congrArg (Option.map _) hb⟩
  | stos =>
      obtain ⟨b, hb⟩ := @StoD.terminates i.size i.addr16 (s.loadAcc i.size).cpu.dr1 s.down
        (.start (s.loadAcc i.size) i (s.setA i.addr16 false)) (2 * s.count i + 2)
        (Nat.lt_succ_self _)
      simp only [repString, hop]
      exact ⟨_, congrArg (Option.map _) hb⟩
  | lods => exact ⟨_, by simp only [repString, hop]; rfl⟩
  | scas => exact ⟨_, by simp only [repString, hop]; rfl⟩
  | cmps => exact ⟨_, by simp only [repString, hop]; rfl⟩

/-- The condition under which a repeated string instruction is right.  LODS loads
something and stays inside of the segment, but for its last element, which may
straddle the end; MOVS stays inside or faults before a second piece. -/
def RepOk (i : StringInsn) (s : StringState) : Prop :=
  match i.op with
  | .movs => i.addr16 = true → MovsFits i s
  | .lods =>
      if s.count i = 0 then i.size.part s.cpu.dr1 = i.size.part s.cpu.eax
      else i.addr16 = true → Reaches s.down i.size (s.count i - 1) (ptr true s.cpu.esi).toNat
  | .stos => i.addr16 = true → StosFits i s
  | .scas | .cmps => True

/-- A repeated string instruction ends.  Where its run stays inside of the segment,
or passes the end in a way that is handled, it does what the instruction for one
element does, repeated, or faults over an element that straddles the end. -/
theorem repString_matches (h : DirOk s.cpu) :
    (∃ r, repString i s = some r) ∧ (RepOk i s → Matches i s) := by
  refine ⟨repString_terminates i s, fun hok => ?_⟩
  unfold RepOk at hok
  cases hop : i.op with
  | movs =>
      rw [hop] at hok
      exact matches_movs h hop hok
  | stos =>
      rw [hop] at hok
      exact matches_stos h hop hok
  | lods =>
      rw [hop] at hok
      apply matches_lods h hop
      by_cases hzero : s.count i = 0
      · rw [if_pos hzero]
        simpa [hzero] using hok
      · rw [if_neg hzero]
        simp only [if_neg hzero] at hok
        exact fun haddr k hk => (hok haddr).mono (by omega)
  | scas => exact matches_scas h hop
  | cmps => exact matches_cmps h hop

/-- A processor that is to move two bytes upwards from and to an offset, between
two segments; memory has a one at the end of the first. -/
def moveTwo (offset : Word) : StringState :=
  { cpu := { realModeCpu with ecx := 2#32, esi := offset, edi := offset }
    mem := fun a => if a = 0xffff#32 then 1#8 else 0#8
    srcBase := 0#32
    esBase := 0x100000#32 }

/-- `REP MOVSB` with 16-bit addresses. -/
def repMovsb : StringInsn :=
  { op := .movs, size := .byte, addr16 := true, repe := true }

/-- Three words from a word before the end of a segment to an odd offset. -/
def moveThree : StringState :=
  let s := moveTwo 0xfffe#32
  { s with cpu := { s.cpu with ecx := 3#32, edi := 0xfffd#32 } }

/-- Two bytes in the middle of the segments; and three words of which the second
straddles the end of the target. -/
theorem repString_matches_middle :
    Matches repMovsb (moveTwo 0x100#32) ∧ Matches { repMovsb with size := .word } moveThree := by
  refine ⟨(repString_matches realModeCpu_dirOk).2 fun _ => .inl ?_,
    (repString_matches realModeCpu_dirOk).2 fun _ => .inr (.inr ⟨?_, .inr ?_⟩)⟩
  · unfold RunFits
    decide
  · unfold SecondMisaligned
    decide
  · unfold PassesMisaligned RunFits
    decide

/-- At the end of the segments the second byte is read where the first one was. -/
theorem movs_rereads_source : ¬Matches repMovsb (moveTwo 0xffff#32) := by
  have heval : (repString repMovsb (moveTwo 0xffff#32)).map
      (fun r => r.toOption.map fun t => t.mem 0x100000#32) = some (some 1#8) := by
    decide
  have href : (repSteps repMovsb ((moveTwo 0xffff#32).count repMovsb)
      (moveTwo 0xffff#32)).visible.mem 0x100000#32 = 0#8 := by
    decide
  intro hmatch
  unfold Matches at hmatch
  cases hrep : repString repMovsb (moveTwo 0xffff#32) with
  | none => exact absurd (hrep ▸ heval) (by simp)
  | some r =>
      rw [hrep] at heval hmatch
      cases r with
      | error e => exact absurd heval (by simp [Except.toOption])
      | ok t =>
          have hmem := congrArg (fun u : StringState => u.mem 0x100000#32) hmatch
          simp only [Option.map_some, Except.toOption, Option.some.injEq] at heval
          have hone : t.visible.mem 0x100000#32 = 1#8 := heval
          simp only [hone, href] at hmem
          exact absurd hmem (by decide)

end Simx86
end Dosemu
