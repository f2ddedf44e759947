import Dosemu.Lib.Outcome
import Dosemu.Lib.Shadow

/-!
# Hardware memory and its mapping

The mapping library keeps a list of regions of hardware memory.  A region has a
physical and a linear base, and a record for each of its pages: the address it is
aliased to, its protection, and whether it is mapped at all.  Pages below
1M+64K have a second record in `lowmem_aliasmap`.

Addresses are numbers.  `pages` is the real mapping of the linear pages: the
primitives that make an alias or change a protection set it and succeed, except
that nothing can be aliased to a null pointer.  A failed assertion, and a store past
the end of `lowmem_aliasmap`, leave no state behind.
-/

namespace Dosemu
namespace Mapping

/-- `(dosaddr_t)-1` -/
def noAddr : Nat := 0xffffffff

/-- `GRAPH_BASE` -/
def graphBase : Nat := 0xA0000

/-- `LOWMEM_SIZE` -/
def lowmemSize : Nat := 0x100000

/-- `HMASIZE` -/
def hmaSize : Nat := 0x10000

/-- `ALIAS_SIZE` -/
def aliasSize : Nat := lowmemSize + hmaSize

/-- `PROT_READ | PROT_WRITE` -/
def protRW : Nat := 3

/-- The number of pages that a loop over `PAGE_ALIGN(size) >> PAGE_SHIFT` visits. -/
def pageCount (size : Nat) : Nat :=
  (size + 4095) / 4096

structure AliasmapS where
  ptr : Nat
  protect : Nat
  mapped : Bool
  deriving DecidableEq

/-- A region as it is registered.  The mapping works on pages, so both bases are page
aligned; a region without a linear base has `noAddr` for it.  `alloc_aliasmap` counts
bytes in an `int`: for a larger region it gets no memory. -/
structure Region where
  type : Char
  base : Nat
  vbase : Nat
  size : Nat
  base_aligned : 4096 ∣ base
  size_pos : 0 < size
  size_le : size ≤ 2 ^ 31 - 4096
  base_end : base + size ≤ 2 ^ 32
  linear : vbase = noAddr ∨ 4096 ∣ vbase ∧ vbase + size ≤ 2 ^ 32

structure HardwareRam extends Region where
  aliasmap : Nat → AliasmapS

/-- A linear page as it is really mapped. -/
structure VPage where
  backing : Nat
  protect : Nat
  deriving DecidableEq

/-- The process: where the low memory is. -/
structure Host where
  lowmemBase : Nat
  lowmemBase_pos : 0 < lowmemBase

/-- `LOWMEM` -/
def Host.lowmem (host : Host) (addr : Nat) : Nat :=
  host.lowmemBase + addr

structure State where
  hardwareRam : List HardwareRam
  lowmemAliasmap : Nat → Nat
  pages : Nat → VPage

/-! ## The records of a region -/

/-- `init_aliasmap` -/
def initAliasmap : Nat → AliasmapS := fun _ => ⟨0, protRW, true⟩

namespace HardwareRam

/-- The index of the page at a physical address: `off >> PAGE_SHIFT`. -/
def pageOf (hw : HardwareRam) (addr : Nat) : Nat :=
  (addr - hw.base) / 4096

/-- The assertion that the offset of an address is page-aligned. -/
def assertAligned (hw : HardwareRam) (addr : Nat) : Option Unit :=
  cAssert (4096 ∣ addr - hw.base)

/-- Run a loop over the records of a range. -/
def eachPage (hw : HardwareRam) (addr size : Nat) (f : Nat → AliasmapS → AliasmapS) :
    HardwareRam :=
  { hw with aliasmap := Shadow.sweep f (hw.pageOf addr) (pageCount size) hw.aliasmap }

/-- `hwram_update_aliasmap` -/
def updateAliasmap (hw : HardwareRam) (addr size src : Nat) : Option HardwareRam := do
  hw.assertAligned addr
  -- low memory needs permanent aliasing
  cAssert (¬(src = 0 ∧ hw.base + hw.size ≤ aliasSize))
  return hw.eachPage addr size fun i am => { am with ptr := if src = 0 then 0 else src + i * 4096 }

/-- `hwram_map_aliasmap` -/
def mapAliasmap (hw : HardwareRam) (addr size : Nat) (mapped : Bool) : Option HardwareRam := do
  hw.assertAligned addr
  return hw.eachPage addr size fun _ am => { am with mapped := mapped }

/-- `hwram_mprotect_aliasmap` -/
def mprotectAliasmap (hw : HardwareRam) (addr size protect : Nat) : Option HardwareRam := do
  hw.assertAligned addr
  return hw.eachPage addr size fun _ am => { am with protect := protect }

/-- `hwram_is_mapped`: a range must not be mapped in part. -/
def isMapped (hw : HardwareRam) (addr size : Nat) : Option Bool := do
  hw.assertAligned addr
  let k := hw.pageOf addr
  if ∀ i < pageCount size, (hw.aliasmap (k + i)).mapped = true then return true
  cAssert (∀ i < pageCount size, (hw.aliasmap (k + i)).mapped = false)
  return false

/-- `hwram_prot_match` -/
def protMatch (hw : HardwareRam) (addr size prot : Nat) : Option Bool := do
  hw.assertAligned addr
  let k := hw.pageOf addr
  return decide (∀ i < pageCount size, (hw.aliasmap (k + i)).protect = prot)

end HardwareRam

namespace State

/-! ## The list of regions -/

/-- The first region that passes a test, with its place in the list. -/
def findHw (s : State) (p : HardwareRam → Bool) : Option (Nat × HardwareRam) :=
  (s.hardwareRam.findIdx? p).bind fun i => s.hardwareRam[i]?.map fun hw => (i, hw)

/-- Write the records of a region. -/
def setHw (s : State) (i : Nat) (hw : HardwareRam) : State :=
  { s with hardwareRam := s.hardwareRam.set i hw }

/-- `do_get_hardware_ram`: the region and the linear address; the sum of address and size is one
of 32 bits. -/
def doGetHardwareRam (s : State) (addr size : Nat) : Option (Nat × HardwareRam × Nat) :=
  match s.findHw fun hw =>
      hw.vbase ≠ noAddr ∧ hw.base ≤ addr ∧ (addr + size) % 2 ^ 32 ≤ hw.base + hw.size with
  | none => none
  | some (i, hw) =>
      let va := (hw.vbase + addr - hw.base) % 2 ^ 32
      if va = noAddr then none else some (i, hw, va)

/-- `do_find_hardware_ram`: the region and the physical address. -/
def doFindHardwareRam (s : State) (va size : Nat) : Option (Option (HardwareRam × Nat)) :=
  match s.findHw fun hw =>
      hw.vbase ≠ noAddr ∧ hw.vbase ≤ va ∧ (va + size) % 2 ^ 32 ≤ hw.vbase + hw.size with
  | none => some none
  | some (_, hw) => do
      let addr := (hw.base + va - hw.vbase) % 2 ^ 32
      if ← hw.isMapped (addr / 4096 * 4096) size then
        return if addr = noAddr then none else some (hw, addr)
      cAssert (hw.type ≠ 'v' ∧ hw.type ≠ 'h')
      return none

/-- `kmem_mapped` -/
def kmemMapped (s : State) (addr mapsize : Nat) : Option Bool := do
  match ← s.doFindHardwareRam addr mapsize with
  | none => return false
  | some (hw, _) => return hw.type = 'v' ∨ hw.type = 'h'

/-! ## The mapping itself -/

/-- `update_aliasmap` -/
def updateAliasmap (s : State) (dosaddr mapsize unixaddr : Nat) : Option State := do
  if aliasSize ≤ dosaddr then return s
  let dospage := dosaddr / 4096
  cAssert (dospage + mapsize / 4096 ≤ aliasSize / 4096)
  return { s with
    lowmemAliasmap := Shadow.sweep (fun i _ => if unixaddr = 0 then 0 else unixaddr + i * 4096)
      dospage (mapsize / 4096) s.lowmemAliasmap }

/-- The primitive behind an alias. -/
def driverAlias (s : State) (targ mapsize protect source : Nat) : State :=
  { s with
    pages := Shadow.sweep (fun i _ => ⟨source + i * 4096, protect⟩) (targ / 4096)
      (pageCount mapsize) s.pages }

/-- `alias_mapping` -/
def aliasMapping (s : State) (targ mapsize protect source : Nat) : Option (Int × State) := do
  cAssert (targ ≠ noAddr)
  cAssert ((← s.kmemMapped targ mapsize) = false)
  if source = 0 then return (-1, s)
  let s := s.driverAlias targ mapsize protect source
  return (0, ← s.updateAliasmap targ mapsize source)

/-- `restore_mapping` -/
def restoreMapping (s : State) (host : Host) (targ mapsize : Nat) : Option (Int × State) :=
  s.aliasMapping targ mapsize protRW (host.lowmem targ)

/-- `mprotect_mapping` -/
def mprotectMapping (s : State) (targ mapsize protect : Nat) : State :=
  { s with
    pages := Shadow.sweep (fun _ p => { p with protect := protect }) (targ / 4096)
      (pageCount mapsize) s.pages }

/-- The loop of `restore_mapping_aliasmap`: the first `n` pages at linear address `va`. -/
def restoreLoop (s : State) (map : Nat → AliasmapS) (k va : Nat) : Nat → Option (Int × State)
  | 0 => some (0, s)
  | n + 1 => do
      let (err, s) ← s.restoreLoop map k va n
      if err ≠ 0 then return (err, s)
      -- a page without a pointer was never aliased
      cAssert ((map (k + n)).ptr ≠ 0)
      s.aliasMapping (va + n * 4096) 4096 (map (k + n)).protect (map (k + n)).ptr

/-- `hwram_restore_mapping` -/
def hwramRestoreMapping (s : State) (hw : HardwareRam) (addr size va : Nat) :
    Option (Int × State) := do
  hw.assertAligned addr
  s.restoreLoop hw.aliasmap (hw.pageOf addr) va (pageCount size)

/-! ## The calls -/

/-- `do_register_hwram` -/
def doRegisterHwram (s : State) (r : Region) : State :=
  { s with hardwareRam := { r with aliasmap := initAliasmap } :: s.hardwareRam }

/-- `unregister_hardware_ram_virtual` -/
def unregisterHardwareRamVirtual (s : State) (base : Nat) : Int × State :=
  if s.hardwareRam.any (·.base = base) then
    (0, { s with hardwareRam := s.hardwareRam.eraseP (·.base = base) })
  else (-1, s)

/-- `alias_mapping_pa` -/
def aliasMappingPa (s : State) (addr mapsize protect source : Nat) : Option (Int × State) :=
  match s.doGetHardwareRam addr mapsize with
  | none => some (-1, s)
  | some (i, hw, va) => do
      cAssert (graphBase ≤ addr)
      -- if not mapped, then don't touch
      let (err, s) ←
        if ← hw.isMapped addr mapsize then s.aliasMapping va mapsize protect source
        else some (0, s)
      if err ≠ 0 then return (err, s)
      let hw ← hw.updateAliasmap addr mapsize source
      let hw ← hw.mprotectAliasmap addr mapsize protect
      return (0, s.setHw i hw)

/-- `unalias_mapping_pa` -/
def unaliasMappingPa (s : State) (host : Host) (addr mapsize : Nat) : Option (Int × State) :=
  match s.doGetHardwareRam addr mapsize with
  | none => some (-1, s)
  | some (i, hw, va) => do
      cAssert (lowmemSize + hmaSize ≤ addr)
      let (_, s) ← s.restoreMapping host va mapsize
      let hw ← hw.updateAliasmap addr mapsize 0
      return (0, s.setHw i hw)

/-- `munmap_mapping_pa` -/
def munmapMappingPa (s : State) (host : Host) (addr mapsize : Nat) : Option (Int × State) :=
  match s.doGetHardwareRam addr mapsize with
  | none => some (-1, s)
  | some (i, hw, va) => do
      cAssert (graphBase ≤ addr)
      if !(← hw.isMapped addr mapsize) then return (-1, s)
      -- the linear map is asked about the physical address
      if ← s.kmemMapped addr mapsize then return (-1, s)
      let (_, s) ← s.restoreMapping host va mapsize
      return (0, s.setHw i (← hw.mapAliasmap addr mapsize false))

/-- `restore_mapping_pa` -/
def restoreMappingPa (s : State) (addr mapsize : Nat) : Option (Int × State) :=
  match s.doGetHardwareRam addr mapsize with
  | none => some (-1, s)
  | some (i, hw, va) => do
      cAssert (graphBase ≤ addr)
      if ← hw.isMapped addr mapsize then return (0, s)
      let (err, s) ← s.hwramRestoreMapping hw addr mapsize va
      if err ≠ 0 then return (err, s)
      return (0, s.setHw i (← hw.mapAliasmap addr mapsize true))

/-- `mprotect_mapping_pa` -/
def mprotectMappingPa (s : State) (addr mapsize protect : Nat) : Option (Int × State) :=
  match s.doGetHardwareRam addr mapsize with
  | none => some (-1, s)
  | some (i, hw, va) => do
      cAssert (graphBase ≤ addr)
      if ← hw.protMatch addr mapsize protect then return (0, s)
      -- if not mapped, then don't touch
      let s := if ← hw.isMapped addr mapsize then s.mprotectMapping va mapsize protect else s
      return (0, s.setHw i (← hw.mprotectAliasmap addr mapsize protect))

/-! ## Translations -/

/-- `dosaddr_to_unixaddr` -/
def dosaddrToUnixaddr (s : State) (host : Host) (addr : Nat) : Option Nat := do
  if addr < aliasSize then return s.lowmemAliasmap (addr / 4096) + addr % 4096
  match ← s.doFindHardwareRam addr 1 with
  | none => return host.lowmem addr
  | some (hw, _) =>
      let off := addr - hw.vbase
      if (hw.aliasmap (off / 4096)).ptr ≠ 0 then
        return (hw.aliasmap (off / 4096)).ptr + off % 4096
      return host.lowmem addr

/-- `get_hardware_uaddr` -/
def getHardwareUaddr (s : State) (host : Host) (addr : Nat) : Option Nat :=
  match s.findHw fun hw => hw.vbase ≠ noAddr ∧ hw.base ≤ addr ∧ addr < hw.base + hw.size with
  | none => none
  | some (_, hw) =>
      let off := addr - hw.base
      if (hw.aliasmap (off / 4096)).ptr ≠ 0 then
        some ((hw.aliasmap (off / 4096)).ptr + off % 4096)
      else some (host.lowmem addr)

/-- `physaddr_to_unixaddr`; the inner `none` is `MAP_FAILED`. -/
def physaddrToUnixaddr (s : State) (host : Host) (addr : Nat) : Option (Option Nat) :=
  match s.getHardwareUaddr host addr with
  | some hwr => some (some hwr)
  | none =>
      if addr < aliasSize then (s.dosaddrToUnixaddr host addr).map some else some none

/-- `physaddr_to_dosaddr` -/
def physaddrToDosaddr (s : State) (addr len : Nat) : Option Nat :=
  match s.doGetHardwareRam addr len with
  | some (_, _, va) => some va
  | none => if (addr + len) % 2 ^ 32 ≤ aliasSize then some addr else none

end State

end Mapping
end Dosemu
