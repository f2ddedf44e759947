import Dosemu.Lib.CellSeq
import Dosemu.Vga.DosCopy

/-!
# Bulk writes to video memory

`vga_write` looks the mapping up for its one byte; the bulk operations look it up for the
first byte of their range, and take the image, or host memory, to go on from there.

Main results:

- Theorem `faithful_iff_effects`: an operation and its single bytes are compared by what
  they write, and by the pages that they mark.
- Theorem `bulk_faithful_iff`: when an operation equals its single bytes, without the
  planar logic.
-/

namespace Dosemu
namespace Vga
namespace BulkMemory

open ByteCopy

/-! ## The operations -/

section Operations

variable (v : Adapter) (dst : Nat)

/-- The common body of `vga_memset`, `vga_write_word` and `vga_write_dword` without the
planar logic -/
def storeVga (bytes : Nat → Byte) (len : Nat) (s : State) : State :=
  match v.offset dst with
  | some offs =>
      markDirty v offs len
        { s with mem := writeEach s.mem (Loc.add ⟨.host, v.base + offs⟩) bytes len }
  | none => { s with mem := writeEach s.mem (Loc.add ⟨.host, v.unix dst⟩) bytes len }

/-- The bytes of a word, the lowest first -/
def wordByte (val : BitVec 16) : Nat → Byte :=
  planeByte (val.setWidth 32)

/-- `vga_write_word` -/
def vgaWriteWord (val : BitVec 16) (s : State) : State :=
  if !v.instEmu || !v.bankAccess dst then storeVga v dst (wordByte val) 2 s
  else vgaWrite v (dosAddr dst 1) (wordByte val 1) (vgaWrite v dst (wordByte val 0) s)

/-- `vga_write_dword` -/
def vgaWriteDword (val : BitVec 32) (s : State) : State :=
  if !v.instEmu || !v.bankAccess dst then storeVga v dst (planeByte val) 4 s
  else
    vgaWriteWord v (dosAddr dst 2) ((val >>> 16).setWidth 16)
      (vgaWriteWord v dst (val.setWidth 16) s)

/-- `vga_memset` -/
def vgaMemset (val : Byte) (len : Nat) (s : State) : State :=
  if v.instEmu then putBytes v dst (fun _ => val) len s
  else storeVga v dst (fun _ => val) len s

/-- The loops of `vga_memsetw` and `vga_memsetl`: the bytes go to one place after the
other. -/
def storeUnits (m : Memory) (place : Nat → Loc) (width : Nat) (bytes : Nat → Byte) :
    Nat → Memory
  | 0 => m
  | len + 1 => writeEach (storeUnits m place width bytes len) (place len).add bytes width

/-- The common body of `vga_memsetw` and `vga_memsetl`, which differ in the width and in
the function that writes one of their values -/
def memsetUnits (width : Nat) (bytes : Nat → Byte) (write : Nat → State → State) (len : Nat)
    (s : State) : State :=
  if v.instEmu then forBytes (fun k => write (dosAddr dst (width * k))) len s
  else
    match v.offset dst with
    | some offs =>
        markDirty v offs (width * len)
          { s with mem :=
              storeUnits s.mem (fun k => ⟨.host, v.base + (offs + width * k)⟩) width bytes len }
    | none =>
        { s with mem :=
            storeUnits s.mem (fun k => ⟨.host, v.unix (dosAddr dst (width * k))⟩) width bytes len }

/-- `vga_memsetw` -/
def vgaMemsetw (val : BitVec 16) : Nat → State → State :=
  memsetUnits v dst 2 (wordByte val) fun addr => vgaWriteWord v addr val

/-- `vga_memsetl` -/
def vgaMemsetl (val : BitVec 32) : Nat → State → State :=
  memsetUnits v dst 4 (planeByte val) fun addr => vgaWriteDword v addr val

end Operations

/-- The operations with their ranges -/
inductive Op
  | memcpyToVga (dst : Nat) (src : Loc) (len : Nat)
  | memcpyDosToVga (dst src len : Nat)
  | vgaMemcpy (dst src len : Nat)
  | vgaMemset (dst len : Nat)
  | vgaMemsetw (dst len : Nat)
  | vgaMemsetl (dst len : Nat)
  | vgaWriteWord (dst : Nat)
  | vgaWriteDword (dst : Nat)
deriving DecidableEq, Repr

namespace Op

/-- The destination -/
def dst : Op → Nat
  | memcpyToVga dst _ _ | memcpyDosToVga dst _ _ | vgaMemcpy dst _ _ | vgaMemset dst _
  | vgaMemsetw dst _ | vgaMemsetl dst _ | vgaWriteWord dst | vgaWriteDword dst => dst

/-- The bytes of the destination range -/
def size : Op → Nat
  | memcpyToVga _ _ len | memcpyDosToVga _ _ len | vgaMemcpy _ _ len | vgaMemset _ len => len
  | vgaMemsetw _ len => 2 * len
  | vgaMemsetl _ len => 4 * len
  | vgaWriteWord _ => 2
  | vgaWriteDword _ => 4

variable (v : Adapter)

/-- What an operation does with a value; none where an assertion fails -/
def run (memcpy : Memory → Loc → Loc → Nat → Memory) (val : BitVec 32) (s : State) :
    Op → Option State
  | memcpyToVga dst src len => some (Vga.memcpyToVga v memcpy dst src len s)
  | memcpyDosToVga dst src len => some (Vga.memcpyDosToVga v memcpy dst src len s)
  | vgaMemcpy dst src len => Vga.vgaMemcpy v memcpy dst src len s
  | vgaMemset dst len => some (BulkMemory.vgaMemset v dst (val.setWidth 8) len s)
  | vgaMemsetw dst len => some (BulkMemory.vgaMemsetw v dst (val.setWidth 16) len s)
  | vgaMemsetl dst len => some (BulkMemory.vgaMemsetl v dst val len s)
  | vgaWriteWord dst => some (BulkMemory.vgaWriteWord v dst (val.setWidth 16) s)
  | vgaWriteDword dst => some (BulkMemory.vgaWriteDword v dst val s)

/-- The sequence of `vga_write` calls that it stands for -/
def bytewise (val : BitVec 32) (s : State) : Op → State
  | memcpyToVga dst src len => bytesToVga v dst (.unix src) len s
  | memcpyDosToVga dst src len => bytesToVga v dst (.dos src) len s
  | vgaMemcpy dst src len => bytesInVga v dst src len s
  | vgaMemset dst len => putBytes v dst (fun _ => val.setWidth 8) len s
  | vgaMemsetw dst len => putBytes v dst (fun k => wordByte (val.setWidth 16) (k % 2)) (2 * len) s
  | vgaMemsetl dst len => putBytes v dst (fun k => planeByte val (k % 4)) (4 * len) s
  | vgaWriteWord dst => putBytes v dst (wordByte (val.setWidth 16)) 2 s
  | vgaWriteDword dst => putBytes v dst (planeByte val) 4 s

/-- The ranges of `vga_memcpy` share no byte of memory. -/
def Apart : Op → Prop
  | vgaMemcpy dst src len => ∀ i < len, ∀ j < len, v.cell (.dos dst) i ≠ v.cell (.dos src) j
  | _ => True

end Op

/-! ## What an operation has to do -/

section Conditions

variable (v : Adapter)

/-- A byte of the image that a mapped address of the range stands for, or one of ordinary
memory at another address of it -/
def Reaches (dst n : Nat) (l : Loc) : Prop :=
  ∃ k < n, l = v.cell (.dos dst) k ∧
    ∀ offs, v.offset (dosAddr dst k) = some offs →
      l = ⟨.host, v.base + offs⟩ ∧ offs < v.pages * 4096

/-- An operation leaves memory and the dirty map as its single bytes do, and writes
nothing else. -/
def Faithful (op : Op) : Prop :=
  op.Apart v → ∀ memcpy, Conforms memcpy → ∀ val s, ∃ s', op.run v memcpy val s = some s' ∧
    s'.mem = (op.bytewise v val s).mem ∧ s'.dirty = (op.bytewise v val s).dirty ∧
    ∀ l, s'.mem.at l ≠ s.mem.at l → Reaches v op.dst op.size l

/-- A page of the image that the bytes of the range lie in -/
def Touched (dst n p : Nat) : Prop :=
  ∃ k < n, ∃ offs, v.offset (dosAddr dst k) = some offs ∧ offs / 4096 = p

/-- A page of the image from that of the first byte to that of the last one, counted in 32
bits as if the image went on -/
def Spanned (dst n p : Nat) : Prop :=
  ∃ offs, v.offset dst = some offs ∧
    offs / 4096 ≤ p ∧ p ≤ (offs + n % 2 ^ 32 + (2 ^ 32 - 1)) % 2 ^ 32 / 4096 ∧ p < v.pages

/-- These are the same pages. -/
def MarksAgree (dst n : Nat) : Prop :=
  ∀ p, Spanned v dst n p ↔ Touched v dst n p

/-- The bytes from the pointer of the first one on are the bytes of the range, from byte to
byte of the source, and are apart from the source. -/
def CopiesAgree (dst : Nat) (src : End) (n : Nat) : Prop :=
  ¬Meets (v.ptr (.dos dst)) n (v.ptr src) n ∧
    Follows [⟨v.ptr (.dos dst), v.ptr src, n⟩] (v.cell (.dos dst)) (v.cell src) n

/-- The bytes `C` are those of the range, in any order. -/
def CellsAgree (dst n : Nat) (C : Nat → Loc) : Prop :=
  ∀ l, (∃ k < n, l = C k) ↔ ∃ k < n, l = v.cell (.dos dst) k

/-- A byte of a range that is filled by words or dwords: outside of the image each of them
has its own pointer. -/
def unitCell (dst width k : Nat) : Loc :=
  if (v.offset dst).isSome then (v.ptr (.dos dst)).add k
  else (v.cell (.dos dst) (width * (k / width))).add (k % width)

/-- The condition on an operation -/
def Good : Op → Prop
  | .memcpyToVga dst src len => CopiesAgree v dst (.unix src) len ∧ MarksAgree v dst len
  | .memcpyDosToVga dst src len => CopiesAgree v dst (.dos src) len ∧ MarksAgree v dst len
  | .vgaMemcpy dst src len => (Op.vgaMemcpy dst src len).Apart v →
      ((v.offset dst).isSome → (v.offset src).isSome) ∧
        CopiesAgree v dst (.dos src) len ∧ MarksAgree v dst len
  | .vgaMemset dst len =>
      CellsAgree v dst len (v.ptr (.dos dst)).add ∧ MarksAgree v dst len
  | .vgaMemsetw dst len =>
      CellsAgree v dst (2 * len) (unitCell v dst 2) ∧ MarksAgree v dst (2 * len)
  | .vgaMemsetl dst len =>
      CellsAgree v dst (4 * len) (unitCell v dst 4) ∧ MarksAgree v dst (4 * len)
  | .vgaWriteWord dst =>
      (∀ k < 2, v.cell (.dos dst) k = (v.ptr (.dos dst)).add k) ∧ MarksAgree v dst 2
  | .vgaWriteDword dst =>
      (∀ k < 4, v.cell (.dos dst) k = (v.ptr (.dos dst)).add k) ∧ MarksAgree v dst 4

end Conditions

/-! ## Effects -/

/-- What a step makes of memory, and the pages that it marks -/
structure Effect (f : State → State) (M : Memory → Memory) (P : Nat → Prop) : Prop where
  mem : ∀ s, (f s).mem = M s.mem
  dirty : ∀ s p, (f s).dirty p = true ↔ s.dirty p = true ∨ P p

section Effects

variable {v : Adapter} {dst n : Nat} {s : State}

/-- Steps are compared by their effects. -/
theorem Effect.agree_iff {f g : State → State} {M N : Memory → Memory} {P Q : Nat → Prop}
    (hf : Effect f M P) (hg : Effect g N Q) :
    (∀ s, (f s).mem = (g s).mem ∧ (f s).dirty = (g s).dirty) ↔
      (∀ m, M m = N m) ∧ ∀ p, P p ↔ Q p := by
  constructor
  · intro h
    refine ⟨fun m => ?_, fun p => ?_⟩
    · have hmem := (h ⟨m, 0, fun _ => false⟩).1
      rwa [hf.mem, hg.mem] at hmem
    · have hdirty := congrFun (h ⟨fun _ _ => 0, 0, fun _ => false⟩).2 p
      have hP := hf.dirty ⟨fun _ _ => 0, 0, fun _ => false⟩ p
      have hQ := hg.dirty ⟨fun _ _ => 0, 0, fun _ => false⟩ p
      simp only [Bool.false_eq_true, false_or] at hP hQ
      rw [← hP, ← hQ, hdirty]
  · rintro ⟨hmem, hpages⟩ s
    refine ⟨by rw [hf.mem, hg.mem, hmem], funext fun p => Bool.eq_iff_iff.mpr ?_⟩
    rw [hf.dirty, hg.dirty, hpages]

theorem dirtyPage_dirty (s : State) (page p : Nat) :
    (dirtyPage v s page).dirty p = true ↔ s.dirty p = true ∨ (p = page ∧ p < v.pages) := by
  unfold dirtyPage
  split
  · next hout =>
      constructor
      · exact Or.inl
      · rintro (h | ⟨rfl, hlt⟩)
        · exact h
        · omega
  · next hin =>
      by_cases hp : p = page
      · subst hp
        simp
        omega
      · simp [hp]

theorem foldl_dirtyPage_dirty (pages : List Nat) (s : State) (p : Nat) :
    (pages.foldl (dirtyPage v) s).dirty p = true ↔
      s.dirty p = true ∨ (p ∈ pages ∧ p < v.pages) := by
  induction pages generalizing s with
  | nil => simp
  | cons page pages ih =>
      rw [List.foldl_cons, ih, dirtyPage_dirty, List.mem_cons]
      tauto

/-- What `vga_mark_dirty` marks -/
theorem markDirty_dirty (offs len : Nat) (s : State) (p : Nat) :
    (markDirty v offs len s).dirty p = true ↔ s.dirty p = true ∨
      (offs / 4096 ≤ p ∧ p ≤ (offs + len % 2 ^ 32 + (2 ^ 32 - 1)) % 2 ^ 32 / 4096 ∧
        p < v.pages) := by
  have hlast : lastPage offs len = (offs + len % 2 ^ 32 + (2 ^ 32 - 1)) % 2 ^ 32 / 4096 := rfl
  rw [markDirty, foldl_dirtyPage_dirty, markedPages, List.mem_range'_1, hlast, ← and_assoc]
  refine or_congr_right (and_congr_left fun _ => ?_)
  omega

/-- An operation that stores in the image, or in ordinary memory, and marks a span -/
theorem effect_bulk (hemu : v.instEmu = false) {f : State → State} {M : Loc → Memory → Memory}
    (hmapped : ∀ offs, v.offset dst = some offs → ∀ s,
      f s = markDirty v offs n { s with mem := M ⟨.host, v.base + offs⟩ s.mem })
    (hunmapped : v.offset dst = none →
      ∀ s, f s = { s with mem := M ⟨.host, v.unix dst⟩ s.mem }) :
    Effect f (M (v.ptr (.dos dst))) (Spanned v dst n) := by
  cases hdst : v.offset dst with
  | none =>
      refine ⟨fun s => by rw [hunmapped hdst]; rfl, fun s p => ?_⟩
      simp [hunmapped hdst, Spanned, hdst]
  | some offs =>
      have hptr : v.ptr (.dos dst) = ⟨.host, v.base + offs⟩ := by
        rw [Adapter.ptr, Adapter.unix_of_offset hemu hdst]
      refine ⟨fun s => by rw [hmapped offs hdst, markDirty_mem, hptr], fun s p => ?_⟩
      rw [hmapped offs hdst, markDirty_dirty]
      simp [Spanned, hdst]

theorem effect_storeVga (hemu : v.instEmu = false) (bytes : Nat → Byte) :
    Effect (storeVga v dst bytes n) (fun m => writeEach m (v.ptr (.dos dst)).add bytes n)
      (Spanned v dst n) := by
  let M : Loc → Memory → Memory := fun l m => writeEach m l.add bytes n
  refine effect_bulk (M := M) hemu (fun offs hdst s => ?_) fun hdst s => ?_
  · rw [storeVga, hdst]
  · rw [storeVga, hdst]

theorem effect_copyToVga (hemu : v.instEmu = false)
    (memcpy : Memory → Loc → Loc → Nat → Memory) (src : End) :
    Effect (copyToVga v memcpy dst src n)
      (fun m => memcpy m (v.ptr (.dos dst)) (v.ptr src) n) (Spanned v dst n) := by
  let M : Loc → Memory → Memory := fun l m => memcpy m l (v.ptr src) n
  refine effect_bulk (M := M) hemu (fun offs hdst s => ?_) fun hdst s => ?_
  · rw [copyToVga, hemu, if_neg Bool.false_ne_true, hdst]
  · rw [copyToVga, hemu, if_neg Bool.false_ne_true, hdst]

/-- The loops store the bytes one after another. -/
theorem storeUnits_eq {m : Memory} {place : Nat → Loc} {width : Nat} {bytes : Nat → Byte}
    (hwidth : 0 < width) (len : Nat) : storeUnits m place width bytes len =
      writeEach m (fun k => (place (k / width)).add (k % width)) (fun k => bytes (k % width))
        (width * len) := by
  induction len with
  | zero => rfl
  | succ len ih =>
      rw [storeUnits, ih, Nat.mul_succ, writeEach_add]
      refine writeEach_congr (fun i hi => ?_) fun i hi => ?_
      · rw [Nat.mul_add_div hwidth, Nat.div_eq_of_lt hi, Nat.mul_add_mod, Nat.mod_eq_of_lt hi,
          Nat.add_zero]
      · rw [Nat.mul_add_mod, Nat.mod_eq_of_lt hi]

/-- The two fills by words and by dwords -/
theorem effect_memsetUnits (hemu : v.instEmu = false) {width : Nat} (hwidth : 0 < width)
    (bytes : Nat → Byte) (write : Nat → State → State) :
    Effect (memsetUnits v dst width bytes write n)
      (fun m => writeEach m (unitCell v dst width) (fun k => bytes (k % width)) (width * n))
      (Spanned v dst (width * n)) := by
  let M : Loc → Memory → Memory := fun _ m =>
    writeEach m (unitCell v dst width) (fun k => bytes (k % width)) (width * n)
  refine effect_bulk (M := M) hemu (fun offs hdst s => ?_) fun hdst s => ?_
  · have hcell : ∀ k, unitCell v dst width k =
        Loc.add ⟨.host, v.base + (offs + width * (k / width))⟩ (k % width) := by
      intro k
      have hk := Nat.div_add_mod k width
      rw [unitCell, hdst, Option.isSome_some, if_pos rfl, Adapter.ptr,
        Adapter.unix_of_offset hemu hdst]
      simp only [Loc.add, Loc.mk.injEq, true_and]
      omega
    rw [memsetUnits, hemu, if_neg Bool.false_ne_true, hdst]
    simp only
    rw [storeUnits_eq hwidth]
    exact congrArg (fun m => markDirty v offs (width * n) { s with mem := m })
      (writeEach_congr (fun k _ => (hcell k).symm) fun _ _ => rfl)
  · have hcell : ∀ k, unitCell v dst width k =
        Loc.add ⟨.host, v.unix (dosAddr dst (width * (k / width)))⟩ (k % width) := by
      intro k
      rw [unitCell, hdst, Option.isSome_none, if_neg Bool.false_ne_true]
      rfl
    rw [memsetUnits, hemu, if_neg Bool.false_ne_true, hdst]
    simp only
    rw [storeUnits_eq hwidth]
    exact congrArg (fun m => ({ s with mem := m } : State))
      (writeEach_congr (fun k _ => (hcell k).symm) fun _ _ => rfl)

/-- The span of one byte is its page. -/
theorem span_one {offs pages p : Nat} (hlt : offs < pages * 4096)
    (hsmall : pages * 4096 ≤ 2 ^ 31) :
    (offs / 4096 ≤ p ∧ p ≤ (offs + 1 % 2 ^ 32 + (2 ^ 32 - 1)) % 2 ^ 32 / 4096 ∧ p < pages) ↔
      offs / 4096 = p := by
  have hsum : (offs + 1 % 2 ^ 32 + (2 ^ 32 - 1)) % 2 ^ 32 = offs := by omega
  rw [hsum]
  omega

theorem vgaWrite_of_none (hemu : v.instEmu = false) {addr : Nat} (h : v.offset addr = none)
    (val : Byte) (s : State) :
    vgaWrite v addr val s = { s with mem := s.mem.set ⟨.host, v.unix addr⟩ val } := by
  rw [vgaWrite, hemu, Bool.not_false, Bool.true_or, if_pos rfl, h]

theorem vgaWrite_of_offset (hemu : v.instEmu = false) {addr offs : Nat}
    (h : v.offset addr = some offs) (val : Byte) (s : State) :
    vgaWrite v addr val s =
      markDirty v offs 1 { s with mem := s.mem.set ⟨.host, v.base + offs⟩ val } := by
  rw [vgaWrite, hemu, Bool.not_false, Bool.true_or, if_pos rfl, h]

/-- A byte that lies in the image marks its own page. -/
theorem effect_vgaWrite (hemu : v.instEmu = false) (addr : Nat) (val : Byte) :
    Effect (vgaWrite v addr val) (fun m => m.set ⟨.host, v.unix addr⟩ val)
      fun p => ∃ offs, v.offset addr = some offs ∧ offs / 4096 = p := by
  refine ⟨vgaWrite_mem hemu addr val, fun s p => ?_⟩
  cases haddr : v.offset addr with
  | none =>
      rw [vgaWrite_of_none hemu haddr]
      simp
  | some offs =>
      have hpage := span_one (p := p) (Adapter.offset_lt haddr) v.small
      rw [vgaWrite_of_offset hemu haddr, markDirty_dirty, hpage]
      simp

/-- A run of single bytes marks the pages that the range touches. -/
theorem forBytes_dirty {body : Nat → State → State}
    (h : ∀ i s p, (body i s).dirty p = true ↔ s.dirty p = true ∨
      ∃ offs, v.offset (dosAddr dst i) = some offs ∧ offs / 4096 = p) (p : Nat) :
    (forBytes body n s).dirty p = true ↔ s.dirty p = true ∨ Touched v dst n p := by
  unfold Touched
  induction n with
  | zero => simp [forBytes]
  | succ n ih =>
      rw [forBytes, h, ih, or_assoc]
      refine or_congr_right ?_
      constructor
      · rintro (⟨k, hk, hpage⟩ | hpage)
        · exact ⟨k, by omega, hpage⟩
        · exact ⟨n, Nat.lt_succ_self n, hpage⟩
      · rintro ⟨k, hk, hpage⟩
        rcases Nat.lt_succ_iff_lt_or_eq.mp hk with hlt | rfl
        · exact Or.inl ⟨k, hlt, hpage⟩
        · exact Or.inr hpage

/-- What single bytes write and mark: given values, or copies -/
theorem effect_putBytes (hemu : v.instEmu = false) (vals : Nat → Byte) :
    Effect (putBytes v dst vals n) (fun m => writeEach m (v.cell (.dos dst)) vals n)
      (Touched v dst n) := by
  refine ⟨fun s => ?_, fun s p => forBytes_dirty (fun i => (effect_vgaWrite hemu _ _).dirty) p⟩
  induction n with
  | zero => rfl
  | succ n ih =>
      change (vgaWrite v (dosAddr dst n) (vals n) (putBytes v dst vals n s)).mem = _
      rw [vgaWrite_mem hemu, ih]
      rfl

theorem effect_bytesToVga (hemu : v.instEmu = false) (src : End) :
    Effect (bytesToVga v dst src n)
      (fun m => copyEach m (v.cell (.dos dst)) (v.cell src) n) (Touched v dst n) := by
  refine ⟨fun s => ?_, fun s p => forBytes_dirty (fun i s => (effect_vgaWrite hemu _ _).dirty s) p⟩
  induction n with
  | zero => rfl
  | succ n ih =>
      change (vgaWrite v (dosAddr dst n) ((bytesToVga v dst src n s).mem.at (v.cell src n))
        (bytesToVga v dst src n s)).mem = _
      rw [vgaWrite_mem hemu, ih]
      rfl

/-- Without the planar logic bytes are read from ordinary memory and from the image alike. -/
theorem bytesInVga_eq (hemu : v.instEmu = false) (src : Nat) :
    bytesInVga v dst src n = bytesToVga v dst (.dos src) n := by
  have hread : ∀ addr s, vgaRead v addr s = (s.mem.at ⟨.host, v.unix addr⟩, s) := by
    intro addr s
    rw [vgaRead, hemu, Bool.not_false, Bool.true_or, if_pos rfl]
  unfold bytesInVga
  simp only [hread]
  rfl

end Effects

/-! ## When it is met -/

section Faithful

variable {v : Adapter} {op : Op} {dst n : Nat}

/-- What is written at all lies in the range. -/
theorem reaches_of_ne (hemu : v.instEmu = false) {m m' : Memory} {l : Loc}
    (hframe : (∀ k < n, l ≠ v.cell (.dos dst) k) → m'.at l = m.at l) (h : m'.at l ≠ m.at l) :
    Reaches v dst n l := by
  have hin : ∃ k < n, l = v.cell (.dos dst) k := by
    by_contra hout
    exact h (hframe fun k hk heq => hout ⟨k, hk, heq⟩)
  obtain ⟨k, hk, rfl⟩ := hin
  refine ⟨k, hk, rfl, fun offs hoffs => ⟨?_, Adapter.offset_lt hoffs⟩⟩
  rw [Adapter.cell, Adapter.unix_of_offset hemu hoffs]

/-- An operation is faithful if what it writes, and what it marks, is what its single bytes
do. -/
theorem faithful_iff_effects (hemu : v.instEmu = false)
    {f : (Memory → Loc → Loc → Nat → Memory) → BitVec 32 → State → State}
    {M : (Memory → Loc → Loc → Nat → Memory) → BitVec 32 → Memory → Memory}
    {N : BitVec 32 → Memory → Memory}
    (hrun : ∀ memcpy val s, op.run v memcpy val s = some (f memcpy val s))
    (hf : ∀ memcpy val, Effect (f memcpy val) (M memcpy val) (Spanned v op.dst op.size))
    (hg : ∀ val, Effect (fun s => op.bytewise v val s) (N val) (Touched v op.dst op.size))
    (hframe : ∀ val m l, (∀ k < op.size, l ≠ v.cell (.dos op.dst) k) →
      (N val m).at l = m.at l) :
    Faithful v op ↔ (op.Apart v →
      (∀ memcpy, Conforms memcpy → ∀ val m, M memcpy val m = N val m) ∧
        MarksAgree v op.dst op.size) := by
  refine forall_congr' fun _ => ?_
  constructor
  · intro h
    have hagree : ∀ memcpy, Conforms memcpy → ∀ val,
        (∀ m, M memcpy val m = N val m) ∧ MarksAgree v op.dst op.size := by
      intro memcpy hconf val
      refine ((hf memcpy val).agree_iff (hg val)).mp fun s => ?_
      obtain ⟨s', hs', hmem, hdirty, -⟩ := h memcpy hconf val s
      obtain rfl := Option.some.inj ((hrun memcpy val s).symm.trans hs')
      exact ⟨hmem, hdirty⟩
    exact ⟨fun memcpy hconf val => (hagree memcpy hconf val).1,
      (hagree copied conforms_copied 0).2⟩
  · rintro ⟨hsame, hmarks⟩ memcpy hconf val s
    obtain ⟨hmem, hdirty⟩ :=
      ((hf memcpy val).agree_iff (hg val)).mpr ⟨hsame memcpy hconf val, hmarks⟩ s
    refine ⟨_, hrun memcpy val s, hmem, hdirty, fun l hl => ?_⟩
    refine reaches_of_ne hemu (hframe val s.mem l) ?_
    rwa [hmem, (hg val).mem] at hl

/-- The copies -/
theorem faithful_copy_iff (hemu : v.instEmu = false) (op : Op) (src : End)
    {g : (Memory → Loc → Loc → Nat → Memory) → Memory → Loc → Loc → Nat → Memory}
    (hrun : ∀ memcpy val s,
      op.run v memcpy val s = some (copyToVga v (g memcpy) op.dst src op.size s))
    (hbytes : ∀ val s, op.bytewise v val s = bytesToVga v op.dst src op.size s)
    (hcopy : op.Apart v → ((∀ memcpy, Conforms memcpy → ∀ m,
      g memcpy m (v.ptr (.dos op.dst)) (v.ptr src) op.size =
        copyEach m (v.cell (.dos op.dst)) (v.cell src) op.size) ↔
          CopiesAgree v op.dst src op.size)) :
    Faithful v op ↔
      (op.Apart v → CopiesAgree v op.dst src op.size ∧ MarksAgree v op.dst op.size) := by
  have hbyte : ∀ val, Effect (fun s => op.bytewise v val s)
      (fun m => copyEach m (v.cell (.dos op.dst)) (v.cell src) op.size)
      (Touched v op.dst op.size) := by
    intro val
    simp only [hbytes]
    exact effect_bytesToVga hemu src
  rw [faithful_iff_effects hemu hrun (fun memcpy _ => effect_copyToVga hemu (g memcpy) src) hbyte
    fun _ m l hl => by rw [copyEach_at, sourceAt_of_ne hl]]
  refine forall_congr' fun hapart => and_congr_left fun _ => ?_
  rw [← hcopy hapart]
  simp only [forall_const]

/-- The operations that write given values -/
theorem faithful_store_iff (hemu : v.instEmu = false) (op : Op) (hapart : op.Apart v)
    {f : BitVec 32 → State → State} {C : Nat → Loc} {vals : BitVec 32 → Nat → Byte}
    (hrun : ∀ memcpy val s, op.run v memcpy val s = some (f val s))
    (hf : ∀ val, Effect (f val) (fun m => writeEach m C (vals val) op.size)
      (Spanned v op.dst op.size))
    (hbytes : ∀ val s, op.bytewise v val s = putBytes v op.dst (vals val) op.size s) :
    Faithful v op ↔ (∀ val m, writeEach m C (vals val) op.size =
      writeEach m (v.cell (.dos op.dst)) (vals val) op.size) ∧
        MarksAgree v op.dst op.size := by
  have hbyte : ∀ val, Effect (fun s => op.bytewise v val s)
      (fun m => writeEach m (v.cell (.dos op.dst)) (vals val) op.size)
      (Touched v op.dst op.size) := by
    intro val
    simp only [hbytes]
    exact effect_putBytes hemu (vals val)
  rw [faithful_iff_effects hemu hrun (fun _ val => hf val) hbyte
    fun _ m l hl => writeEach_at_of_ne hl]
  constructor
  · intro h
    exact ⟨(h hapart).1 copied conforms_copied, (h hapart).2⟩
  · rintro ⟨hsame, hmarks⟩ _
    exact ⟨fun _ _ => hsame, hmarks⟩

/-- A fill is right if it has the cells of the range: every cell has its own value. -/
theorem fill_iff {C : Nat → Loc} {vals : BitVec 32 → Nat → Byte}
    (value : BitVec 32 → Loc → Byte) (hC : ∀ val i, vals val i = value val (C i))
    (hD : ∀ val i, vals val i = value val (v.cell (.dos dst) i))
    (hshow : ∃ val, ∀ i, vals val i ≠ 0) :
    (∀ val m, writeEach m C (vals val) n = writeEach m (v.cell (.dos dst)) (vals val) n) ↔
      CellsAgree v dst n C := by
  constructor
  · intro h
    obtain ⟨val, hval⟩ := hshow
    exact cells_of_writeEach (fun i _ => hval i) (fun i _ => hval i) (h val _)
  · intro h val m
    exact writeEach_fill (fun i _ => hC val i) (fun i _ => hD val i) h

/-- One value is right if its bytes are at the places of the range. -/
theorem store_iff (vals : BitVec 32 → Nat → Byte) (val : BitVec 32)
    (hshow : ∀ i < n, vals val i ≠ 0)
    (hvals : ∀ i < n, ∀ j < n, vals val i = vals val j → i = j) :
    (∀ val m, writeEach m (v.ptr (.dos dst)).add (vals val) n =
      writeEach m (v.cell (.dos dst)) (vals val) n) ↔
      ∀ k < n, v.cell (.dos dst) k = (v.ptr (.dos dst)).add k := by
  constructor
  · intro h k hk
    exact eq_of_writeEach hshow hvals (fun _ _ _ _ heq => Loc.add_inj heq) (h val _) hk
  · intro h val m
    exact writeEach_congr (fun i hi => (h i hi).symm) fun _ _ => rfl

theorem cell_mod (k : Nat) : (v.cell (.dos dst) k).off % 4096 = (dst + k) % 4096 := by
  rw [Adapter.cell, Adapter.unix_mod, dosAddr]
  omega

theorem unitCell_mod (width k : Nat) :
    (unitCell v dst width k).off % 4096 = (dst + k) % 4096 := by
  unfold unitCell
  split
  · rw [Adapter.ptr, Loc.add_off]
    have hmod := v.unix_mod dst
    simp only
    omega
  · rw [Loc.add_off, Nat.add_mod, cell_mod, ← Nat.add_mod, Nat.add_assoc, Nat.div_add_mod]

/-- A fill by words or dwords: pages do not split the places of a value. -/
theorem fill_units_iff {width : Nat} (hwidth : width = 2 ∨ width = 4)
    (bytes : BitVec 32 → Nat → Byte) (hshow : ∃ val, ∀ i < width, bytes val i ≠ 0) :
    (∀ val m, writeEach m (unitCell v dst width) (fun k => bytes val (k % width)) n =
      writeEach m (v.cell (.dos dst)) (fun k => bytes val (k % width)) n) ↔
      CellsAgree v dst n (unitCell v dst width) := by
  have hplace : ∀ off k, off % 4096 = (dst + k) % 4096 →
      k % width = (off + (4096 - dst % 4096)) % width := by
    intro off k hmod
    rcases hwidth with rfl | rfl <;> omega
  refine fill_iff (fun val l => bytes val ((l.off + (4096 - dst % 4096)) % width))
    (fun val k => ?_) (fun val k => ?_) ?_
  · rw [hplace _ k (unitCell_mod width k)]
  · rw [hplace _ k (cell_mod k)]
  · obtain ⟨val, hval⟩ := hshow
    refine ⟨val, fun i => hval _ (Nat.mod_lt i ?_)⟩
    omega

/-- `vga_memcpy` is the copy of `memcpy_dos_to_vga`, by `memmove` in the image. -/
theorem vgaMemcpy_eq (hemu : v.instEmu = false) {src : Nat}
    (hsrc : (v.offset dst).isSome → (v.offset src).isSome)
    (memcpy : Memory → Loc → Loc → Nat → Memory) (s : State) :
    Vga.vgaMemcpy v memcpy dst src n s =
      some (copyToVga v (if (v.offset dst).isSome then copied else memcpy) dst (.dos src) n s) := by
  rw [Vga.vgaMemcpy, copyToVga, hemu, if_neg Bool.false_ne_true, if_neg Bool.false_ne_true]
  cases hdst : v.offset dst with
  | none => rfl
  | some offsD =>
      obtain ⟨offsS, hoffsS⟩ := Option.isSome_iff_exists.mp (hsrc (by rw [hdst]; rfl))
      simp only [hoffsS, Option.map_some, Option.isSome_some, if_true, Adapter.ptr,
        Adapter.unix_of_offset hemu hoffsS]

/-- `vga_memcpy`, which asserts that its source is in the image too -/
theorem faithful_vgaMemcpy_iff (hemu : v.instEmu = false) (src : Nat) :
    Faithful v (.vgaMemcpy dst src n) ↔ Good v (.vgaMemcpy dst src n) := by
  by_cases hsrc : (v.offset dst).isSome → (v.offset src).isSome
  · refine (faithful_copy_iff hemu (.vgaMemcpy dst src n) (.dos src)
      (fun memcpy _ s => vgaMemcpy_eq hemu hsrc memcpy s)
      (fun _ s => congrFun (bytesInVga_eq hemu src) s) fun hapart => ?_).trans
        (forall_congr' fun _ => (and_iff_right hsrc).symm)
    have hbyte : Nontrivial Byte := ⟨0, 1, by decide⟩
    cases hdst : (v.offset dst).isSome with
    | true =>
        have hmove := copyEach_iff_of_apart (β := Byte) (t := v.ptr (.dos dst))
          (u := v.ptr (.dos src)) hapart
        simp only [if_true]
        exact ⟨fun h => hmove.mp (h copied conforms_copied), fun h _ _ => hmove.mpr h⟩
    | false => exact copyEach_iff
  · -- The assertion fails whenever it is asked.
    have hapart : Faithful v (.vgaMemcpy dst src n) ↔ ¬(Op.vgaMemcpy dst src n).Apart v := by
      refine ⟨fun h hapart => ?_, fun h hapart => absurd hapart h⟩
      rw [Classical.not_imp, Option.isSome_iff_exists, Option.not_isSome_iff_eq_none] at hsrc
      obtain ⟨⟨offsD, hdst⟩, hnone⟩ := hsrc
      obtain ⟨s', hrun, -⟩ := h hapart copied conforms_copied 0 ⟨fun _ _ => 0, 0, fun _ => false⟩
      rw [Op.run, Vga.vgaMemcpy, hemu, if_neg Bool.false_ne_true, hdst, hnone] at hrun
      cases hrun
    rw [hapart]
    exact ⟨fun h happ => absurd happ h, fun h happ => hsrc (h happ).1⟩

/-- Without the planar logic an operation leaves memory and the dirty map as its single
bytes do, for all contents, exactly under its condition. -/
theorem bulk_faithful_iff (hemu : v.instEmu = false) (op : Op) : Faithful v op ↔ Good v op := by
  have hbyte : Nontrivial Byte := ⟨0, 1, by decide⟩
  cases op with
  | memcpyToVga dst src len =>
      exact (faithful_copy_iff hemu (.memcpyToVga dst src len) (.unix src)
        (fun _ _ _ => rfl) (fun _ _ => rfl) fun _ => copyEach_iff).trans (true_imp_iff)
  | memcpyDosToVga dst src len =>
      exact (faithful_copy_iff hemu (.memcpyDosToVga dst src len) (.dos src)
        (fun _ _ _ => rfl) (fun _ _ => rfl) fun _ => copyEach_iff).trans (true_imp_iff)
  | vgaMemcpy dst src len => exact faithful_vgaMemcpy_iff hemu src
  | vgaMemset dst len =>
      have hf : ∀ val s, BulkMemory.vgaMemset v dst val len s =
          storeVga v dst (fun _ => val) len s := fun val s => by
        rw [BulkMemory.vgaMemset, hemu, if_neg Bool.false_ne_true]
      refine (faithful_store_iff hemu (.vgaMemset dst len) trivial
        (fun _ val s => congrArg some (hf (val.setWidth 8) s)) (fun val => effect_storeVga hemu _)
        fun _ _ => rfl).trans (and_congr_left fun _ => ?_)
      exact fill_iff (fun val _ => val.setWidth 8) (fun _ _ => rfl) (fun _ _ => rfl)
        ⟨1, fun _ => by decide⟩
  | vgaMemsetw dst len =>
      refine (faithful_store_iff hemu (.vgaMemsetw dst len) trivial (fun _ _ _ => rfl)
        (fun val => effect_memsetUnits hemu Nat.two_pos _ _) fun _ _ => rfl).trans
          (and_congr_left fun _ => ?_)
      exact fill_units_iff (Or.inl rfl) (fun val => wordByte (val.setWidth 16))
        ⟨0xffffffff, by decide⟩
  | vgaMemsetl dst len =>
      refine (faithful_store_iff hemu (.vgaMemsetl dst len) trivial (fun _ _ _ => rfl)
        (fun val => effect_memsetUnits hemu (show 0 < 4 by decide) _ _) fun _ _ => rfl).trans
          (and_congr_left fun _ => ?_)
      exact fill_units_iff (Or.inr rfl) planeByte ⟨0xffffffff, by decide⟩
  | vgaWriteWord dst =>
      have hf : ∀ val s, BulkMemory.vgaWriteWord v dst val s =
          storeVga v dst (wordByte val) 2 s := fun val s => by
        rw [BulkMemory.vgaWriteWord, hemu, Bool.not_false, Bool.true_or, if_pos rfl]
      refine (faithful_store_iff hemu (.vgaWriteWord dst) trivial
        (fun _ val s => congrArg some (hf (val.setWidth 16) s)) (fun val => effect_storeVga hemu _)
        fun _ _ => rfl).trans (and_congr_left fun _ => ?_)
      exact store_iff (n := 2) (fun val => wordByte (val.setWidth 16)) 0x04030201
        (by decide) (by decide)
  | vgaWriteDword dst =>
      have hf : ∀ val s, BulkMemory.vgaWriteDword v dst val s =
          storeVga v dst (planeByte val) 4 s := fun val s => by
        rw [BulkMemory.vgaWriteDword, hemu, Bool.not_false, Bool.true_or, if_pos rfl]
      refine (faithful_store_iff hemu (.vgaWriteDword dst) trivial
        (fun _ val s => congrArg some (hf val s)) (fun val => effect_storeVga hemu _)
        fun _ _ => rfl).trans (and_congr_left fun _ => ?_)
      exact store_iff (n := 4) planeByte 0x04030201 (by decide) (by decide)

end Faithful

/-! ## Text mode -/

theorem textMode_offset {k : Nat} (hk : k < 0x8000) :
    textMode.offset (dosAddr 0xb8000 k) = some k := by
  have haddr : dosAddr 0xb8000 k = 0xb8000 + k := Nat.mod_eq_of_lt (by omega)
  have hcovers : Mapping.covers ⟨0xb8, 8, 0⟩ (0xb8000 + k) = true := by
    simp only [Mapping.covers, Bool.and_eq_true, decide_eq_true_eq]
    omega
  have hfind : textMode.map.find? (·.covers (0xb8000 + k)) = some ⟨0xb8, 8, 0⟩ :=
    List.find?_cons_of_pos hcovers
  rw [Adapter.offset, haddr, hfind, Option.map_some, Option.some.injEq]
  simp only
  omega

theorem textMode_unix {k : Nat} (hk : k < 0x8000) :
    textMode.unix (dosAddr 0xb8000 k) = 0x1000000 + k :=
  Adapter.unix_of_offset rfl (textMode_offset hk)

/-- A whole screen is copied right. -/
theorem bulk_faithful_iff_screen :
    Faithful textMode (.memcpyToVga 0xb8000 ⟨.block 0, 0⟩ 4000) := by
  have hstart : dosAddr 0xb8000 0 = 0xb8000 := Nat.mod_eq_of_lt (by omega)
  have hoffset := textMode_offset (show 0 < 0x8000 by decide)
  have hunix := textMode_unix (show 0 < 0x8000 by decide)
  rw [hstart] at hoffset hunix
  refine (bulk_faithful_iff rfl _).mpr ⟨⟨fun hmeets => ?_, ?_⟩, fun p => ?_⟩
  · cases hmeets.1
  · have hcell : ∀ k < 4000, textMode.cell (.dos 0xb8000) k =
        (textMode.ptr (.dos 0xb8000)).add k := by
      intro k hk
      rw [Adapter.cell, Adapter.ptr, textMode_unix (by omega), hunix]
      rfl
    rw [follows_one]
    intro x y
    constructor
    · rintro ⟨k, hk, rfl, rfl⟩
      exact ⟨k, hk, (hcell k hk).symm, rfl⟩
    · rintro ⟨k, hk, rfl, rfl⟩
      exact ⟨k, hk, hcell k hk, rfl⟩
  · constructor
    · rintro ⟨offs, hoffs, -, hp, -⟩
      obtain rfl := Option.some.inj (hoffset.symm.trans hoffs)
      refine ⟨0, by decide, 0, textMode_offset (by decide), ?_⟩
      omega
    · rintro ⟨k, hk, offs, hoffs, rfl⟩
      obtain rfl := Option.some.inj ((textMode_offset (show k < 0x8000 by omega)).symm.trans hoffs)
      have hpages : k / 4096 < 32 := by omega
      exact ⟨0, hoffset, by omega, by omega, hpages⟩

/-- The second byte of a copy to the last byte of the window goes to the image. -/
theorem copy_runs_past_window : ¬Faithful textMode (.memcpyToVga 0xbffff ⟨.block 0, 0⟩ 2) := by
  have hbyte : Nontrivial Byte := ⟨0, 1, by decide⟩
  intro h
  have hcopies : CopiesAgree textMode 0xbffff (.unix ⟨.block 0, 0⟩) 2 :=
    ((faithful_copy_iff rfl (.memcpyToVga 0xbffff ⟨.block 0, 0⟩ 2) (.unix ⟨.block 0, 0⟩)
      (fun _ _ _ => rfl) (fun _ _ => rfl) fun _ => copyEach_iff).mp h trivial).1
  have hpairs := follows_one.mp hcopies.2
  obtain ⟨i, -, hdst, hsrc⟩ := (hpairs _ _).mp ⟨1, by decide, rfl, rfl⟩
  obtain rfl : 1 = i := Loc.add_inj hsrc
  have hlast := textMode_unix (show 0x7fff < 0x8000 by decide)
  have hnext : textMode.unix (dosAddr 0xbffff 1) = 0xc0000 := by decide
  have hoff := congrArg Loc.off hdst
  rw [Loc.add_off, Adapter.ptr, Adapter.cell, hnext] at hoff
  rw [show dosAddr 0xb8000 0x7fff = 0xbffff by decide] at hlast
  simp only [hlast] at hoff
  omega

end BulkMemory
end Vga
end Dosemu
