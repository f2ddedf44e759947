import Dosemu.Lib.Page
import Dosemu.Mapping.Records

/-!
# Physical address mappings

Function 0800h of INT 31h gives a client the linear address of hardware memory.  It puts
the size together from two 16-bit halves, of which it rounds the lower one up to pages, and
looks for a region by a sum of 32 bits.

Main results:

- Theorem `mapSize_eq`: what becomes of the size.
- Theorem `createMapping_of_found`: what a call does where the search finds a region.
- Theorem `map_covers_iff`: when a mapping covers what was asked for.
-/

namespace Dosemu
namespace Dpmi
namespace HwRam

open MachineInt Mapping

/-! ## The call -/

/-- `dpmi_pm_block`, as far as a mapping sets it. -/
structure PmBlock where
  base : Nat
  size : Nat
  handle : Nat
  linear : Bool
  hwram : Bool
  mapped : Bool
  attrs : List Nat

/-- The blocks of a client, and `pm_block_handle_used`. -/
structure Client where
  blocks : List PmBlock
  handleUsed : Nat

/-- The registers of the call. -/
structure Regs where
  bx : BitVec 16
  cx : BitVec 16
  si : BitVec 16
  di : BitVec 16

namespace Regs

/-- The address in BX:CX. -/
def addr (r : Regs) : Nat :=
  r.bx.toNat <<< 16 ||| r.cx.toNat

/-- The size in SI:DI. -/
def asked (r : Regs) : Nat :=
  r.si.toNat * 65536 + r.di.toNat

/-- `(_LWORD_(esi) << 16) | PAGE_ALIGN(_LWORD_(edi))` -/
def mapSize (r : Regs) : Nat :=
  r.si.toNat <<< 16 ||| pageAlign32 r.di.toNat

end Regs

/-- `alloc_pm_block`, with its assertion; the block is put in front of the others. -/
def allocPmBlock (size : Nat) : Option PmBlock := do
  cAssert (4096 ≤ size ∧ 4096 ∣ size)
  return { base := 0, size := 0, handle := 0, linear := false, hwram := false, mapped := true,
           attrs := List.replicate (size / 4096) 0 }

/-- `get_hardware_ram` -/
def getHardwareRam (s : Mapping.State) (addr size : Nat) : Nat :=
  match s.doGetHardwareRam addr size with
  | none => noAddr
  | some (_, _, va) => va

/-- `DPMI_mapHWRam`: the new block, and the client with it. -/
def mapHWRam (s : Mapping.State) (c : Client) (hwaddr size : Nat) :
    Option (Option (PmBlock × Client)) := do
  let vbase := getHardwareRam s hwaddr size
  if vbase = noAddr then return none
  let block ← allocPmBlock size
  let block := { block with
    base := vbase
    linear := true
    hwram := true
    attrs := List.replicate (size / 4096) 9
    handle := c.handleUsed
    size := size }
  return some (block, { blocks := block :: c.blocks, handleUsed := c.handleUsed + 1 })

/-- What a call returns: BX and CX, or the carry flag. -/
inductive Result where
  | ok (bx cx : BitVec 16)
  | carry

/-- Function 0800h. -/
def createMapping (s : Mapping.State) (c : Client) (r : Regs) : Option (Result × Client) := do
  match ← mapHWRam s c r.addr r.mapSize with
  | none => return (.carry, c)
  | some (blk, c) =>
      let base := blk.base
      if base = noAddr then return (.carry, c)
      return (.ok (BitVec.ofNat 16 (base >>> 16)) (BitVec.ofNat 16 base), c)

/-! ## What is promised -/

/-- The linear address in BX:CX. -/
def linearOf (bx cx : BitVec 16) : Nat :=
  bx.toNat * 65536 + cx.toNat

/-- The range lies in a region, and its linear addresses are those of the region. -/
def Corresponds (hw : HardwareRam) (lin addr len : Nat) : Prop :=
  hw.vbase ≠ noAddr ∧
    ∀ i < len, (lin + i) % 2 ^ 32 = (hw.vbase + (addr + i - hw.base)) % 2 ^ 32

/-- A call that succeeds has found a region with the whole range, up to the end of its last page,
and recorded a block for it; a call that fails has recorded nothing. -/
def Covers (s : Mapping.State) (c : Client) (r : Regs) : Prop :=
  match createMapping s c r with
  | none => False
  | some (.carry, c') => c' = c
  | some (.ok bx cx, c') => ∃ hw ∈ s.hardwareRam,
      hw.base ≤ r.addr ∧ r.addr + pageUp r.asked ≤ hw.base + hw.size ∧
        Corresponds hw (linearOf bx cx) r.addr r.asked ∧
        ∃ blk, c'.blocks = blk :: c.blocks ∧ blk.base = linearOf bx cx ∧ r.asked ≤ blk.size

/-! ## The size -/

variable {s : Mapping.State} {c : Client} {r : Regs}

/-- The lower half is rounded up to 10000h, which is lost in an odd upper half. -/
def Regs.Loses (r : Regs) : Prop :=
  r.si.toNat % 2 = 1 ∧ 0xf000 < r.di.toNat

theorem or_one_of_even {n : Nat} (h : n % 2 = 0) : n ||| 1 = n + 1 := by
  have hsum := Nat.shiftLeft_add_eq_or_of_lt (show 1 < 2 ^ 1 by decide) (n / 2)
  have hn : (n / 2) <<< 1 = n := by
    rw [Nat.shiftLeft_eq]
    omega
  rw [hn] at hsum
  exact hsum.symm

theorem or_one_of_odd {n : Nat} (h : n % 2 = 1) : n ||| 1 = n := by
  have heven := or_one_of_even (n := n - 1) (by omega)
  have hn : n - 1 + 1 = n := by omega
  rw [hn] at heven
  rw [← heven, Nat.or_assoc, Nat.or_self]

theorem pageAlign32_di (r : Regs) : pageAlign32 r.di.toNat = pageUp r.di.toNat :=
  pageAlign32_eq (by have := r.di.isLt; omega)

/-- The size is rounded up to pages, or a part of it is lost. -/
theorem mapSize_eq (r : Regs) :
    r.mapSize = if r.si.toNat % 2 = 1 ∧ 0xf000 < r.di.toNat then r.si.toNat * 65536
      else pageUp r.asked := by
  have hdi := r.di.isLt
  rw [Regs.mapSize, pageAlign32_di, Regs.asked]
  by_cases hlast : 0xf000 < r.di.toNat
  · have hup : pageUp r.di.toNat = 1 <<< 16 := by
      rw [pageUp, Nat.one_shiftLeft]
      omega
    rw [hup, ← Nat.shiftLeft_or_distrib, Nat.shiftLeft_eq]
    by_cases hodd : r.si.toNat % 2 = 1
    · rw [if_pos ⟨hodd, hlast⟩, or_one_of_odd hodd]
    · rw [if_neg fun h => hodd h.1, or_one_of_even (by omega), pageUp]
      omega
  · have hup : pageUp r.di.toNat < 2 ^ 16 := by
      rw [pageUp]
      omega
    rw [if_neg fun h => hlast h.2, ← Nat.shiftLeft_add_eq_or_of_lt hup, Nat.shiftLeft_eq, pageUp,
      pageUp]
    omega

theorem mapSize_aligned (hasked : 1 ≤ r.asked) : 4096 ≤ r.mapSize ∧ 4096 ∣ r.mapSize := by
  rw [mapSize_eq]
  split
  next h =>
    have hodd := h.1
    omega
  next h =>
    rw [pageUp]
    omega

/-! ## The region -/

variable {i va : Nat} {hw : HardwareRam}

/-- A region that the search takes passes its test. -/
theorem found_spec (h : s.doGetHardwareRam r.addr r.mapSize = some (i, hw, va)) :
    hw ∈ s.hardwareRam ∧ hw.vbase ≠ noAddr ∧ hw.base ≤ r.addr ∧
      (r.addr + r.mapSize) % 2 ^ 32 ≤ hw.base + hw.size ∧
      va = (hw.vbase + r.addr - hw.base) % 2 ^ 32 ∧ va ≠ noAddr := by
  unfold Mapping.State.doGetHardwareRam at h
  split at h
  next => cases h
  next j hw' hfind =>
    dsimp only at h
    split at h
    next => cases h
    next hva =>
      cases h
      obtain ⟨hget, htest⟩ := findHw_spec hfind
      obtain ⟨hlive, hbase, hend⟩ := of_decide_eq_true htest
      exact ⟨List.mem_of_getElem? hget, hlive, hbase, hend, rfl, hva⟩

theorem createMapping_of_none (h : s.doGetHardwareRam r.addr r.mapSize = none) :
    createMapping s c r = some (.carry, c) := by
  have hvbase : getHardwareRam s r.addr r.mapSize = noAddr := by
    rw [getHardwareRam, h]
  have hmap : mapHWRam s c r.addr r.mapSize = some none := by
    unfold mapHWRam
    rw [hvbase]
    rfl
  rw [createMapping, hmap]
  rfl

/-- What a call does where the search finds a region. -/
theorem createMapping_of_found (hasked : 1 ≤ r.asked)
    (h : s.doGetHardwareRam r.addr r.mapSize = some (i, hw, va)) :
    ∃ blk c', createMapping s c r =
        some (.ok (BitVec.ofNat 16 (va >>> 16)) (BitVec.ofNat 16 va), c') ∧
      c'.blocks = blk :: c.blocks ∧ blk.base = va ∧ blk.size = r.mapSize := by
  have hva := (found_spec h).2.2.2.2.2
  have hvbase : getHardwareRam s r.addr r.mapSize = va := by
    rw [getHardwareRam, h]
  refine ⟨{ base := va, size := r.mapSize, handle := c.handleUsed, linear := true, hwram := true,
            mapped := true, attrs := List.replicate (r.mapSize / 4096) 9 },
    { blocks := _ :: c.blocks, handleUsed := c.handleUsed + 1 }, ?_, rfl, rfl, rfl⟩
  unfold createMapping mapHWRam allocPmBlock
  rw [hvbase]
  simp [hva, cAssert_bind (mapSize_aligned hasked)]

theorem linearOf_eq (hva : va < 2 ^ 32) :
    linearOf (BitVec.ofNat 16 (va >>> 16)) (BitVec.ofNat 16 va) = va := by
  rw [linearOf, BitVec.toNat_ofNat, BitVec.toNat_ofNat, Nat.shiftRight_eq_div_pow]
  omega

/-- The region that the search takes fits: nothing of the size is lost, and the range ends below
4G, or there with a region that has the same linear addresses. -/
def Fits (s : Mapping.State) (r : Regs) (hit : HardwareRam) : Prop :=
  ¬r.Loses ∧
    (r.addr + r.mapSize < 2 ^ 32 ∨
      r.addr + r.mapSize = 2 ^ 32 ∧ ∃ hw ∈ s.hardwareRam, hw.vbase ≠ noAddr ∧ hw.base ≤ r.addr ∧
        hw.base + hw.size = 2 ^ 32 ∧
        (hw.vbase + r.addr - hw.base) % 2 ^ 32 = (hit.vbase + r.addr - hit.base) % 2 ^ 32)

theorem corresponds_of_eq {lin addr len : Nat} (hlive : hw.vbase ≠ noAddr) (hbase : hw.base ≤ addr)
    (hlin : lin = (hw.vbase + addr - hw.base) % 2 ^ 32) : Corresponds hw lin addr len := by
  refine ⟨hlive, fun i _ => ?_⟩
  rw [hlin]
  omega

theorem mapSize_of_not_loses (h : ¬r.Loses) : r.mapSize = pageUp r.asked := by
  rw [mapSize_eq]
  exact if_neg h

theorem mapSize_lt_of_loses (h : r.Loses) : r.mapSize < r.asked := by
  have hlast := h.2
  rw [mapSize_eq, if_pos (show _ ∧ _ from h), Regs.asked]
  omega

/-- A call covers what was asked for exactly if the region that it takes fits. -/
theorem map_covers_iff (s : Mapping.State) (c : Client) (r : Regs) (hasked : 1 ≤ r.asked) :
    Covers s c r ↔ ∀ x ∈ s.doGetHardwareRam r.addr r.mapSize, Fits s r x.2.1 := by
  cases hget : s.doGetHardwareRam r.addr r.mapSize with
  | none =>
      rw [Covers, createMapping_of_none hget]
      exact iff_of_true rfl fun x hx => absurd hx nofun
  | some x =>
      obtain ⟨i, hw, va⟩ := x
      obtain ⟨hmem, hlive, hbase, hend, hva, -⟩ := found_spec hget
      obtain ⟨blk, c', hcall, hblocks, hblkBase, hblkSize⟩ := createMapping_of_found (c := c)
        hasked hget
      have hlt : va < 2 ^ 32 := by
        rw [hva]
        exact Nat.mod_lt _ (by decide)
      rw [Covers, hcall]
      dsimp only
      rw [linearOf_eq hlt]
      constructor
      · rintro ⟨hw', hmem', hbase', hend', hcorr, blk', hblocks', hblkBase', hsize⟩ x hx
        obtain rfl := Option.some.inj hx
        have hblk : blk' = blk := (List.cons.inj (hblocks'.symm.trans hblocks)).1
        have hloses : ¬r.Loses := by
          intro hloses
          have hlost := mapSize_lt_of_loses hloses
          rw [hblk, hblkSize] at hsize
          omega
        have hregion := hw'.base_end
        have hsame := hcorr.2 0 (by omega)
        rw [← mapSize_of_not_loses hloses] at hend'
        refine ⟨hloses, ?_⟩
        by_cases htop : r.addr + r.mapSize < 2 ^ 32
        · exact .inl htop
        · refine .inr ⟨by omega, hw', hmem', hcorr.1, hbase', by omega, ?_⟩
          change (hw'.vbase + r.addr - hw'.base) % 2 ^ 32 = (hw.vbase + r.addr - hw.base) % 2 ^ 32
          omega
      · intro hfits
        obtain ⟨hloses, hplace⟩ := hfits _ rfl
        have hsize := mapSize_of_not_loses hloses
        have hblk : ∃ blk, c'.blocks = blk :: c.blocks ∧ blk.base = va ∧ r.asked ≤ blk.size :=
          ⟨blk, hblocks, hblkBase, by rw [hblkSize, hsize]; exact le_pageUp _⟩
        rcases hplace with hbelow | ⟨htop, hw', hmem', hlive', hbase', hend', hsame⟩
        · rw [Nat.mod_eq_of_lt hbelow] at hend
          exact ⟨hw, hmem, hbase, hsize ▸ hend, corresponds_of_eq hlive hbase hva, hblk⟩
        · refine ⟨hw', hmem', hbase', ?_, corresponds_of_eq hlive' hbase' ?_, hblk⟩
          · rw [← hsize]
            omega
          · rw [hva]
            exact hsame.symm

/-! ## A frame buffer -/

/-- Eight megabytes of video memory. -/
def frameBuffer : HardwareRam where
  type := 'e'
  base := 0xe0000000
  vbase := 0x20000000
  size := 0x800000
  base_aligned := Mapping.frameBuffer.base_aligned
  size_pos := by decide
  size_le := by decide
  base_end := by decide
  linear := by decide
  aliasmap := initAliasmap

def video : Mapping.State where
  hardwareRam := [frameBuffer]
  lowmemAliasmap := fun _ => 0
  pages := fun _ => ⟨0, 0⟩

/-- The first page of the frame buffer, and all addresses up to 4G from there. -/
def firstPage : Regs := ⟨0xe000, 0, 0, 0x1000⟩

def tooLong : Regs := ⟨0xe000, 0, 0x2000, 0⟩

theorem map_covers_iff_page : Covers video ⟨[], 1⟩ firstPage ↔
    ∀ x ∈ video.doGetHardwareRam firstPage.addr firstPage.mapSize, Fits video firstPage x.2.1 :=
  map_covers_iff video ⟨[], 1⟩ firstPage (by decide)

/-- 512 megabytes from the frame buffer on end at 4G, and are mapped. -/
theorem too_long_succeeds :
    (createMapping video ⟨[], 1⟩ tooLong).map Prod.fst = some (.ok 0x2000 0) ∧
      ¬Covers video ⟨[], 1⟩ tooLong := by
  have haddr : tooLong.addr = 0xe0000000 := rfl
  have hsize : tooLong.mapSize = 0x20000000 := mapSize_eq tooLong
  have hget : video.doGetHardwareRam tooLong.addr tooLong.mapSize =
      some (0, frameBuffer, 0x20000000) := by
    rw [haddr, hsize]
    simp [Mapping.State.doGetHardwareRam, Mapping.State.findHw, video, frameBuffer, noAddr]
  obtain ⟨blk, c', hcall, -⟩ := createMapping_of_found (c := ⟨[], 1⟩) (by decide) hget
  refine ⟨by rw [hcall]; rfl, ?_⟩
  rw [Covers, hcall]
  rintro ⟨hw, hmem, -, hend, -⟩
  rw [List.mem_singleton.mp hmem] at hend
  exact absurd hend (by decide)

end HwRam
end Dpmi
end Dosemu
