import Dosemu.Lib.CopySeq
import Dosemu.Lib.MachineInt

/-!
# Access to video memory

`vgaemu.c` between guest memory and the video memory image.  Each page of the guest has
its place in host memory; the pages of a mapping are aliases of the image.  While
`vga.inst_emu` is 0 a guest address is a byte, and the bulk operations translate the first
address of a range.  Otherwise the banked window goes through the planar logic of the
VGA, by which an address stands for up to four bytes and for the latch.

Main results:

- Theorem `Adapter.unix_of_offset`: a mapped address is a byte of the image.
- Theorem `vgaWrite_mem`: what a single write changes, without the planar logic.
-/

namespace Dosemu
namespace Vga

open ByteCopy MachineInt

abbrev Byte := BitVec 8

/-- Host memory that guest addresses may stand for, and blocks that they may not. -/
inductive Space
  | host
  | block (n : Nat)
deriving DecidableEq, Repr

abbrev Loc := ByteCopy.Loc Space

abbrev Memory := Mem Space Byte

/-! ## The adapter -/

/-- `vga_mapping_type` -/
structure Mapping where
  basePage : Nat
  pages : Nat
  firstPage : Nat
deriving DecidableEq, Repr

/-- `addr >= base && addr < end` -/
def Mapping.covers (m : Mapping) (addr : Nat) : Bool :=
  m.basePage * 4096 ≤ addr && addr < m.basePage * 4096 + m.pages * 4096

/-- `vga.gfx`, and `vga.seq.map_mask` -/
structure Gfx where
  setReset : Byte
  enableSetReset : Byte
  colorCompare : Byte
  dataRotate : Byte
  rasterOp : Byte
  readMapSelect : Byte
  writeMode : Byte
  readMode : Byte
  colorDontCare : Byte
  bitMask : Byte
  mapMask : Byte
deriving DecidableEq, Repr

/-- What an access uses of `vga` and of the memory map.  `vga_emu_map` refuses a mapping
that the image has no room for and makes its pages aliases of the image; only for the
planar logic, where the mapping does not matter, is that left out. -/
structure Adapter where
  consoleVideo : Bool
  instEmu : Bool
  graphBase : Nat
  graphSize : Nat
  textBase : Nat
  textSize : Nat
  biosPages : Nat
  lfbBasePage : Nat
  /-- `mapping_is_mapped_pa` -/
  mapped : Nat → Bool
  base : Nat
  pages : Nat
  map : List Mapping
  bankBase : Nat
  bankLen : Nat
  bank : Nat
  bankPages : Nat
  planes : Nat
  gfx : Gfx
  /-- Where `dosaddr_to_unixaddr` has the pages of the guest -/
  aliasmap : Nat → Nat
  aligned : ∀ p, 4096 ∣ aliasmap p
  below : ∀ m ∈ map, m.basePage * 4096 + m.pages * 4096 < 2 ^ 32
  fits : ∀ m ∈ map, m.firstPage + m.pages ≤ pages
  small : pages * 4096 ≤ 2 ^ 31
  aliases : instEmu = false → ∀ m ∈ map, ∀ k < m.pages,
    aliasmap (m.basePage + k) = base + (m.firstPage + k) * 4096

namespace Adapter

variable (v : Adapter)

/-- `LINEAR2UNIX` -/
def unix (addr : Nat) : Nat :=
  v.aliasmap (addr / 4096) + addr % 4096

/-- `vga_get_mem_base_offset`; none for -1 -/
def offset (addr : Nat) : Option Nat :=
  (v.map.find? (·.covers addr)).map fun m => addr - m.basePage * 4096 + m.firstPage * 4096

/-- `vga_bank_access` -/
def bankAccess (m : Nat) : Bool :=
  !v.consoleVideo && decide (uwrap 32 ((m : Int) - v.bankBase) < v.bankLen)

/-- `vga_read_access` -/
def readAccess (m : Nat) : Bool :=
  if v.consoleVideo || !v.instEmu then false
  else if v.graphBase ≤ m ∧ m < v.graphBase + v.graphSize then v.mapped m
  else false

/-- `vga_write_access` -/
def writeAccess (m : Nat) : Bool :=
  if v.consoleVideo then false
  else if (v.graphBase ≤ m ∧ m < v.graphBase + v.graphSize) ∨
      (v.textBase ≤ m ∧ m < v.textBase + v.textSize) ∨
      (0xc0000 ≤ m ∧ m < 0xc0000 + v.biosPages * 4096) then v.mapped m
  else decide (v.lfbBasePage ≠ 0 ∧ v.lfbBasePage ≤ m / 4096 ∧ m / 4096 < v.lfbBasePage + v.pages)

/-- `bank_offs` -/
def bankOffs : Nat :=
  v.bank * v.bankPages * 4096 * v.planes

/-- A byte of the image that an offset in the banked window stands for -/
def planeCell (offset p : Nat) : Loc :=
  ⟨.host, v.base + v.bankOffs + (p * 65536 + offset) % 2 ^ 32⟩

end Adapter

/-- Memory, the latch and the dirty map -/
structure State where
  mem : Memory
  latch : BitVec 32
  dirty : Nat → Bool

/-! ## The planar logic -/

/-- `color2pixels` -/
def color2pixels (color : Byte) : BitVec 32 :=
  [0, 0xff, 0xff00, 0xffff, 0xff0000, 0xff00ff, 0xffff00, 0x00ffffff, 0xff000000, 0xff0000ff,
    0xff00ff00, 0xff00ffff, 0xffff0000, 0xffff00ff, 0xffffff00, 0xffffffff].getD color.toNat 0

/-- The byte of a plane -/
def planeByte (val : BitVec 32) (p : Nat) : Byte :=
  (val >>> (8 * p)).setWidth 8

/-- A byte extended over 4 bytes -/
def extended (val : BitVec 32) : BitVec 32 :=
  let val := val ||| val <<< 8
  val ||| val <<< 16

/-- `rasterop` -/
def Gfx.rasterop (g : Gfx) (bitMask : Byte) (latch value : BitVec 32) : BitVec 32 :=
  let bitmask := extended (bitMask.setWidth 32)
  match g.rasterOp.toNat with
  | 0 => (value &&& bitmask) ||| (latch &&& ~~~bitmask)
  | 1 => (value ||| ~~~bitmask) &&& latch
  | 2 => (value &&& bitmask) ||| latch
  | 3 => (value &&& bitmask) ^^^ latch
  | _ => 0

/-- `Logical_VGA_CalcNewVal` -/
def Gfx.calcNewVal (g : Gfx) (latch : BitVec 32) (value : Byte) : BitVec 32 :=
  let rotate := g.dataRotate.toNat
  let rotated := value.setWidth 32 >>> rotate ||| value.setWidth 32 <<< (8 - rotate)
  match g.writeMode.toNat with
  | 0 =>
      let enable := color2pixels g.enableSetReset
      g.rasterop g.bitMask latch
        ((extended rotated &&& ~~~enable) ||| (color2pixels g.setReset &&& enable))
  | 1 => latch
  | 2 => g.rasterop g.bitMask latch (color2pixels (value &&& 0xf))
  | 3 => g.rasterop (rotated.setWidth 8 &&& g.bitMask) latch (color2pixels g.setReset)
  | _ => 0

section Access

variable (v : Adapter)

/-- `Logical_VGA_read` -/
def logicalVgaRead (offset : Nat) (s : State) : Byte × State :=
  let plane := fun p => s.mem.at (v.planeCell offset p)
  let latch : BitVec 32 := plane 3 ++ plane 2 ++ plane 1 ++ plane 0
  match v.gfx.readMode.toNat with
  | 0 => (planeByte latch v.gfx.readMapSelect.toNat, { s with latch := latch })
  | 1 =>
      let care := v.gfx.colorDontCare &&& 0xf
      let diff := (latch &&& color2pixels care) ^^^ color2pixels (v.gfx.colorCompare &&& care)
      (~~~(planeByte diff 0 ||| planeByte diff 1 ||| planeByte diff 2 ||| planeByte diff 3),
        { s with latch := latch })
  | _ => (0, s)

/-- `Logical_VGA_write` -/
def logicalVgaWrite (offset : Nat) (value : Byte) (s : State) : State :=
  let newVal := v.gfx.calcNewVal s.latch value
  let page := (v.bankOffs + offset) / 4096
  let mem := [0, 1, 2, 3].foldl (fun mem p =>
    if v.gfx.mapMask.getLsbD p then mem.set (v.planeCell offset p) (planeByte newVal p) else mem)
    s.mem
  if v.gfx.mapMask = 0 then { s with mem := mem }
  else
    { s with
      mem := mem
      dirty := fun p => p = page ∨ p = page + 0x10 ∨ p = page + 0x20 ∨ p = page + 0x30 ∨ s.dirty p }

/-! ## Single bytes -/

/-- `vgaemu_dirty_page`, with 1 for `dirty` -/
def dirtyPage (s : State) (page : Nat) : State :=
  if page ≥ v.pages then s else { s with dirty := Function.update s.dirty page true }

/-- The last page that `vga_mark_dirty` comes to; the sum is unsigned. -/
def lastPage (vgaAddr len : Nat) : Nat :=
  (vgaAddr + len % 2 ^ 32 + (2 ^ 32 - 1)) % 2 ^ 32 / 4096

/-- The pages that the loop of `vga_mark_dirty` goes through -/
def markedPages (vgaAddr len : Nat) : List Nat :=
  List.range' (vgaAddr / 4096) (lastPage vgaAddr len + 1 - vgaAddr / 4096)

/-- `vga_mark_dirty` -/
@[irreducible]
def markDirty (vgaAddr len : Nat) (s : State) : State :=
  (markedPages vgaAddr len).foldl (dirtyPage v) s

/-- `vga_read` -/
def vgaRead (addr : Nat) (s : State) : Byte × State :=
  if !v.instEmu || !v.readAccess addr then (s.mem.at ⟨.host, v.unix addr⟩, s)
  else logicalVgaRead v (uwrap 32 ((addr : Int) - v.bankBase)) s

/-- `vga_write` -/
def vgaWrite (addr : Nat) (val : Byte) (s : State) : State :=
  if !v.instEmu || !v.bankAccess addr then
    match v.offset addr with
    | some offs => markDirty v offs 1 { s with mem := s.mem.set ⟨.host, v.base + offs⟩ val }
    | none => { s with mem := s.mem.set ⟨.host, v.unix addr⟩ val }
  else logicalVgaWrite v (uwrap 32 ((addr : Int) - v.bankBase)) val s

/-! ## Ranges -/

/-- An end of a copy: a pointer of the host, or an address of the guest -/
inductive End
  | unix (l : Loc)
  | dos (addr : Nat)
deriving DecidableEq, Repr

/-- A guest address some bytes on -/
def dosAddr (addr k : Nat) : Nat :=
  (addr + k) % 2 ^ 32

/-- The pointer that an end is translated to -/
def Adapter.ptr : End → Loc
  | .unix l => l
  | .dos addr => ⟨.host, v.unix addr⟩

/-- The bytes of an end, each of them translated -/
def Adapter.cell : End → Nat → Loc
  | .unix l, k => l.add k
  | .dos addr, k => ⟨.host, v.unix (dosAddr addr k)⟩

/-- `for (i = 0; i < len; i++)` -/
def forBytes (body : Nat → State → State) : Nat → State → State
  | 0, s => s
  | len + 1, s => body len (forBytes body len s)

/-- `vga_write(dst + i, src[i])` -/
def bytesToVga (dst : Nat) (src : End) : Nat → State → State :=
  forBytes fun i s => vgaWrite v (dosAddr dst i) (s.mem.at (v.cell src i)) s

/-- `dst[i] = vga_read(src + i)` -/
def bytesFromVga (dst : End) (src : Nat) : Nat → State → State :=
  forBytes fun i s =>
    let (val, s) := vgaRead v (dosAddr src i) s
    { s with mem := s.mem.set (v.cell dst i) val }

/-- `vga_write(dst + i, vga_read(src + i))` -/
def bytesInVga (dst src : Nat) : Nat → State → State :=
  forBytes fun i s =>
    let (val, s) := vgaRead v (dosAddr src i) s
    vgaWrite v (dosAddr dst i) val s

variable (memcpy : Memory → Loc → Loc → Nat → Memory)

/-- The common body of `memcpy_to_vga` and `memcpy_dos_to_vga` -/
def copyToVga (dst : Nat) (src : End) (len : Nat) (s : State) : State :=
  if v.instEmu then bytesToVga v dst src len s
  else
    match v.offset dst with
    | some offs =>
        markDirty v offs len { s with mem := memcpy s.mem ⟨.host, v.base + offs⟩ (v.ptr src) len }
    | none => { s with mem := memcpy s.mem ⟨.host, v.unix dst⟩ (v.ptr src) len }

/-- `memcpy_to_vga` -/
def memcpyToVga (dst : Nat) (src : Loc) : Nat → State → State :=
  copyToVga v memcpy dst (.unix src)

/-- `memcpy_dos_to_vga` -/
def memcpyDosToVga (dst src : Nat) : Nat → State → State :=
  copyToVga v memcpy dst (.dos src)

/-- The common body of `memcpy_from_vga` and `memcpy_dos_from_vga` -/
def copyFromVga (dst : End) (src len : Nat) (s : State) : State :=
  if v.instEmu then bytesFromVga v dst src len s
  else { s with mem := memcpy s.mem (v.ptr dst) ⟨.host, v.unix src⟩ len }

/-- `memcpy_from_vga` -/
def memcpyFromVga (dst : Loc) : Nat → Nat → State → State :=
  copyFromVga v memcpy (.unix dst)

/-- `memcpy_dos_from_vga` -/
def memcpyDosFromVga (dst : Nat) : Nat → Nat → State → State :=
  copyFromVga v memcpy (.dos dst)

/-- `vga_memcpy`; none where the assertion fails -/
def vgaMemcpy (dst src len : Nat) (s : State) : Option State :=
  if v.instEmu then some (bytesInVga v dst src len s)
  else
    match v.offset dst with
    | some offsD =>
        (v.offset src).map fun offsS =>
          markDirty v offsD len
            { s with mem := copied s.mem ⟨.host, v.base + offsD⟩ ⟨.host, v.base + offsS⟩ len }
    | none => some { s with mem := memcpy s.mem ⟨.host, v.unix dst⟩ ⟨.host, v.unix src⟩ len }

end Access

/-! ## Lemmas -/

section Lemmas

variable {v : Adapter} {s : State} {addr offs : Nat}

/-- A mapped address is a byte of the image. -/
theorem Adapter.unix_of_offset (hemu : v.instEmu = false) (h : v.offset addr = some offs) :
    v.unix addr = v.base + offs := by
  obtain ⟨m, hfind, rfl⟩ := Option.map_eq_some_iff.mp h
  have hcovers : m.basePage * 4096 ≤ addr ∧ addr < m.basePage * 4096 + m.pages * 4096 := by
    simpa [Mapping.covers] using List.find?_some hfind
  have halias := v.aliases hemu m (List.mem_of_find?_eq_some hfind)
    (addr / 4096 - m.basePage) (by omega)
  rw [Nat.add_sub_cancel' (by omega)] at halias
  rw [Adapter.unix, halias]
  omega

theorem Adapter.offset_lt (h : v.offset addr = some offs) : offs < v.pages * 4096 := by
  obtain ⟨m, hfind, rfl⟩ := Option.map_eq_some_iff.mp h
  have hfits := v.fits m (List.mem_of_find?_eq_some hfind)
  have hcovers : m.basePage * 4096 ≤ addr ∧ addr < m.basePage * 4096 + m.pages * 4096 := by
    simpa [Mapping.covers] using List.find?_some hfind
  omega

theorem Adapter.unix_mod (v : Adapter) (addr : Nat) : v.unix addr % 4096 = addr % 4096 := by
  have hdvd := v.aligned (addr / 4096)
  unfold Adapter.unix
  omega

/-- The bytes of one page lie together. -/
theorem Adapter.unix_add (v : Adapter) {addr k : Nat} (h : addr % 4096 + k < 4096) :
    v.unix (addr + k) = v.unix addr + k := by
  have hpage : (addr + k) / 4096 = addr / 4096 := by omega
  have hoff : (addr + k) % 4096 = addr % 4096 + k := by omega
  rw [Adapter.unix, Adapter.unix, hpage, hoff, Nat.add_assoc]

@[simp]
theorem dirtyPage_mem (v : Adapter) (s : State) (page : Nat) :
    (dirtyPage v s page).mem = s.mem := by
  unfold dirtyPage
  split <;> rfl

@[simp]
theorem foldl_dirtyPage_mem (pages : List Nat) :
    (pages.foldl (dirtyPage v) s).mem = s.mem := by
  induction pages generalizing s with
  | nil => rfl
  | cons page pages ih => rw [List.foldl_cons, ih, dirtyPage_mem]

@[simp]
theorem markDirty_mem (offs len : Nat) : (markDirty v offs len s).mem = s.mem := by
  rw [markDirty]
  exact foldl_dirtyPage_mem _

/-- What a single write changes, without the planar logic -/
theorem vgaWrite_mem (hemu : v.instEmu = false) (addr : Nat) (val : Byte) (s : State) :
    (vgaWrite v addr val s).mem = s.mem.set ⟨.host, v.unix addr⟩ val := by
  unfold vgaWrite
  simp only [hemu, Bool.not_false, Bool.true_or, if_true]
  cases h : v.offset addr with
  | none => rfl
  | some offs => rw [markDirty_mem, Adapter.unix_of_offset hemu h]

/-- What the copies to video memory do to memory, without the planar logic -/
theorem copyToVga_mem (hemu : v.instEmu = false)
    (memcpy : Memory → Loc → Loc → Nat → Memory) (dst : Nat) (src : End) (len : Nat) :
    (copyToVga v memcpy dst src len s).mem =
      memcpy s.mem ⟨.host, v.unix dst⟩ (v.ptr src) len := by
  unfold copyToVga
  rw [hemu, if_neg Bool.false_ne_true]
  cases h : v.offset dst with
  | none => rfl
  | some offs => rw [markDirty_mem, Adapter.unix_of_offset hemu h]

end Lemmas

/-- Text mode: the image of 128K is mapped from `0xb8000` on, with 32K, and low memory lies
at the beginning of host memory. -/
def textMode : Adapter where
  consoleVideo := false
  instEmu := false
  graphBase := 0xa0000
  graphSize := 0x10000
  textBase := 0xb8000
  textSize := 0x8000
  biosPages := 0
  lfbBasePage := 0
  mapped := fun addr => 0xa0000 ≤ addr ∧ addr < 0xc0000
  base := 0x1000000
  pages := 32
  map := [⟨0xb8, 8, 0⟩]
  bankBase := 0xb8000
  bankLen := 0x8000
  bank := 0
  bankPages := 8
  planes := 1
  gfx := ⟨0, 0, 0, 0, 0, 0, 0, 0, 0, 0, 0⟩
  aliasmap := fun p => if 0xb8 ≤ p ∧ p < 0xc0 then 0x1000000 + (p - 0xb8) * 4096 else p * 4096
  aligned := by
    intro p
    split <;> omega
  below := by
    decide
  fits := by
    decide
  small := by
    decide
  aliases := by
    intro _ m hm k hk
    obtain rfl := List.mem_singleton.mp hm
    simp only at hk ⊢
    rw [if_pos (by omega)]
    omega

end Vga
end Dosemu
