import Dosemu.Lib.Table

/-!
# The EMS driver

`src/dosext/misc/emm.c`: the table of handles, the map from physical to logical
pages, and the functions that allocate, map, save, restore and reallocate.
Registers and the words of the guest's buffer are 16 bits wide.  The answers of
the mapping layer are part of each call; `leavedos`, and an index outside of the
handle table, end the program and are `none`.

Main definitions:

- `emmAllocateHandle`, `emmDeallocateHandle`, `reallocatePages`: pages.
- `mapPage`, `unmapPage`, `doMapUnmap`, `setMapRegisters`: the page map.
- `emmSaveHandleState`, `emmRestoreHandleState`: saved maps.
- `emsFn`: the dispatch on `AH`.
- `EmsCall` and `step`: one call as a transition of the driver.
-/

namespace Dosemu
namespace Ems

open Function

/-! ## Data -/

/-- `MAX_HANDLES`. -/
def maxHandles : Nat := 255

/-- `EMM_MAX_SAVED_PHYS`. -/
def emmMaxSavedPhys : Nat := 4

/-- `NULL_HANDLE`. -/
def nullHandle : Nat := 0xffff

/-- `NULL_PAGE`. -/
def nullPage : Nat := 0xffff

/-- `EMM_PAGE_SIZE`. -/
def emmPageSize : Nat := 0x4000

/-- `OS_HANDLE`. -/
def osHandle : Fin maxHandles := ⟨0, by decide⟩

/-- The settings the driver reads; `ems_init` checks the two bounds. -/
structure Config where
  emsSize : Nat
  umaPages : Nat
  cnvPages : Nat
  umaMax : umaPages ≤ 12
  cnvMax : cnvPages ≤ 24

/-- `EMM_TOTAL`. -/
def Config.emmTotal (cfg : Config) : Nat :=
  cfg.emsSize / 16 + cfg.cnvPages

/-- `saved_phys_pages`. -/
def Config.savedPhysPages (cfg : Config) : Nat :=
  min cfg.umaPages emmMaxSavedPhys

/-- `struct emm_record`. -/
structure EmmRecord where
  handle : Nat
  logicalPage : Nat
  physSeg : Nat
deriving DecidableEq, Repr

/-- `struct handle_record`. -/
structure HandleRecord where
  active : Nat
  numpages : Nat
  object : Nat
  name : List (BitVec 8)
  savedMappingsHandle : Fin emmMaxSavedPhys → Nat
  savedMappingsLogical : Fin emmMaxSavedPhys → Nat
  savedMapping : Nat

/-- The driver's static data, and for each window the backing address that
`alias_mapping` last gave it.  Of `emm_map` only the first `phys_pages` entries
are ever used.  Addresses are counted from `LOWMEM(0)`. -/
structure Driver where
  handleTotal : Int
  emmAllocated : Int
  physPages : Nat
  emmMap : Nat → EmmRecord
  handleInfo : Fin maxHandles → HandleRecord
  backing : Nat → Nat

/-- The registers a function reads and writes. -/
structure Regs where
  ax : BitVec 16
  bx : BitVec 16
  cx : BitVec 16
  dx : BitVec 16
deriving DecidableEq, Repr

/-- What a call finds outside of the driver: the words of the guest's buffer at
`DS:SI`, the address `alloc_mapping` or `realloc_mapping` returns (`none` is
`MAP_FAILED`), whether `alias_mapping` succeeds, and whether the guest's driver
is recent enough and the page frame can be reserved. -/
structure Env where
  buf : Nat → BitVec 16
  mapping : Option Nat
  aliased : Bool
  frameFree : Bool

/-- Error codes. -/
def emmNoErr : Nat := 0x00
def emmInvHan : Nat := 0x83
def emmFuncNosup : Nat := 0x84
def emmOutOfHan : Nat := 0x85
def emmHaveSaved : Nat := 0x86
def emmOutOfPhys : Nat := 0x87
def emmOutOfLog : Nat := 0x88
def emmZeroPages : Nat := 0x89
def emmLogOutRan : Nat := 0x8a
def emmIllPhys : Nat := 0x8b
def emmAlreadySaved : Nat := 0x8d
def emmNotSaved : Nat := 0x8e
def emmInvalidSub : Nat := 0x8f
def emmArrCorrupt : Nat := 0xa3

namespace Driver

/-- Overwrite one entry of the handle table. -/
def setInfo (s : Driver) (h : Fin maxHandles) (r : HandleRecord) : Driver :=
  { s with handleInfo := update s.handleInfo h r }

/-- Set the handle and the logical page of an entry of `emm_map`. -/
def setMap (s : Driver) (phys handle logical : Nat) : Driver :=
  { s with
    emmMap := update s.emmMap phys
      { s.emmMap phys with handle := handle, logicalPage := logical } }

/-- `PHYS_PAGE_ADDR`. -/
def physPageAddr (s : Driver) (phys : Nat) : Nat :=
  (s.emmMap phys).physSeg * 16

/-- `alias_mapping` of a window. -/
def setBacking (s : Driver) (phys addr : Nat) : Driver :=
  { s with backing := update s.backing phys addr }

end Driver

/-- The entry a handle number names, if there is one. -/
def handleIndex (h : Nat) : Option (Fin maxHandles) :=
  if hlt : h < maxHandles then some ⟨h, hlt⟩ else none

/-- The handle check of `CHECK_HANDLE` and its siblings: the number is in range
and the entry is active. -/
def activeHandle (s : Driver) (h : Nat) : Option (Fin maxHandles) :=
  match handleIndex h with
  | some i => if (s.handleInfo i).active = 0 then none else some i
  | none => none

/-! ## Pages -/

/-- `new_memory_object`: null for no pages, and on failure. -/
def newMemoryObject (env : Env) (pages : Nat) : Nat :=
  if pages = 0 then 0 else env.mapping.getD 0

/-- `realloc_memory_object`: null on failure. -/
def reallocMemoryObject (env : Env) : Nat :=
  env.mapping.getD 0

/-- Mark the saved mappings of a handle as empty. -/
def clearSaved (cfg : Config) (r : HandleRecord) : Fin emmMaxSavedPhys → Nat := fun j =>
  if j.val < cfg.savedPhysPages then nullPage else r.savedMappingsLogical j

/-- `emm_allocate_handle`: the handle, or the error code it leaves in
`emm_error`. -/
def emmAllocateHandle (cfg : Config) (env : Env) (s : Driver) (pagesNeeded : Nat) :
    Except Nat (Fin maxHandles) × Driver :=
  if (maxHandles : Int) ≤ s.handleTotal then (.error emmOutOfHan, s)
  else if cfg.emmTotal < pagesNeeded then (.error emmOutOfPhys, s)
  else if (cfg.emmTotal : Int) - s.emmAllocated < pagesNeeded then (.error emmOutOfLog, s)
  else
    match (List.finRange maxHandles).find? fun i =>
        decide (1 ≤ i.val ∧ (s.handleInfo i).active = 0) with
    | none => (.error emmOutOfHan, s)
    | some i =>
        let obj := newMemoryObject env pagesNeeded
        if obj = 0 ∧ 0 < pagesNeeded then (.error emmOutOfLog, s)
        else
          let r := s.handleInfo i
          let r :=
            { r with
              active := 1, numpages := pagesNeeded, object := obj
              name := List.replicate 9 0
              savedMappingsLogical := clearSaved cfg r
              savedMapping := 0 }
          (.ok i, { s.setInfo i r with
            handleTotal := s.handleTotal + 1, emmAllocated := s.emmAllocated + pagesNeeded })

/-- `unmap_page`. -/
def unmapPage (s : Driver) (phys : Nat) : Bool × Driver :=
  if s.physPages ≤ phys then (false, s)
  else if (s.emmMap phys).handle = nullHandle then (false, s)
  else (true, (s.setBacking phys (s.physPageAddr phys)).setMap phys nullHandle nullPage)

/-- `map_page`.  A failed alias ends the program. -/
def mapPage (env : Env) (s : Driver) (handle phys logical : Nat) : Option (Bool × Driver) :=
  if s.physPages ≤ phys then some (false, s)
  else if handle = nullHandle then some (false, s)
  else
    match handleIndex handle with
    | none => none
    | some i =>
        if (s.handleInfo i).numpages ≤ logical then some (false, s)
        else if env.aliased then
          some (true, (s.setBacking phys ((s.handleInfo i).object + logical * emmPageSize)).setMap
            phys handle logical)
        else none

/-- The loop of `emm_deallocate_handle` that unmaps the pages of a handle. -/
def unmapHandle (s : Driver) (h : Nat) : List Nat → Driver
  | [] => s
  | i :: is =>
      if (s.emmMap i).handle = h then
        unmapHandle ((unmapPage s i).2.setMap i nullHandle ((unmapPage s i).2.emmMap i).logicalPage)
          h is
      else unmapHandle s h is

/-- `CLEAR_HANDLE_NAME`. -/
def clearName (s : Driver) (h : Nat) : Driver :=
  match handleIndex h with
  | some i => s.setInfo i { s.handleInfo i with name := List.replicate 9 0 }
  | none => s

/-- `emm_deallocate_handle`.  The name it clears is that of the entry its loop
counter has stopped at. -/
def emmDeallocateHandle (s : Driver) (h : Fin maxHandles) : Driver :=
  let s := unmapHandle s h (List.range s.physPages)
  let numpages := (s.handleInfo h).numpages
  let s := s.setInfo h { s.handleInfo h with numpages := 0, active := 0, object := 0 }
  let s := clearName s s.physPages
  { s with handleTotal := s.handleTotal - 1, emmAllocated := s.emmAllocated - numpages }

/-! ## The page map -/

/-- `do_map_unmap`. -/
def doMapUnmap (env : Env) (s : Driver) (handle phys logical : Nat) : Option (Nat × Driver) :=
  if s.physPages ≤ phys then some (emmIllPhys, s)
  else if logical = nullPage then some (emmNoErr, (unmapPage s phys).2)
  else
    match activeHandle s handle with
    | none => some (emmInvHan, s)
    | some i =>
        if (s.handleInfo i).numpages ≤ logical then some (emmLogOutRan, s)
        else (mapPage env s handle phys logical).map fun res => (emmNoErr, res.2)

/-- `SEG_TO_PHYS`; `none` when no page has the segment. -/
def segToPhys (s : Driver) (seg : Nat) : Option Nat :=
  (List.range s.physPages).find? fun i =>
    decide ((s.emmMap i).physSeg ≤ seg ∧ seg < (s.emmMap i).physSeg + 0x400)

/-- `emm_map_unmap_multi`, on pairs of a logical and a physical page. -/
def emmMapUnmapMulti (env : Env) (handle : Nat) : Driver → List (Nat × Nat) →
    Option (Nat × Driver)
  | s, [] => some (emmNoErr, s)
  | s, (log, phys) :: rest =>
      (doMapUnmap env s handle phys log).bind fun res =>
        if res.1 ≠ emmNoErr then some res else emmMapUnmapMulti env handle res.2 rest

/-- The pairs of words in the guest's buffer. -/
def pairs (env : Env) (n : Nat) : List (Nat × Nat) :=
  (List.range n).map fun i => ((env.buf (2 * i)).toNat, (env.buf (2 * i + 1)).toNat)

/-- The segment method of `do_map_unmap_multi`: every segment is looked up
before the first page is mapped. -/
def segPairs (s : Driver) : List (Nat × Nat) → Option (List (Nat × Nat))
  | [] => some []
  | (log, seg) :: rest =>
      match segToPhys s seg, segPairs s rest with
      | some phys, some rest => some ((log, phys) :: rest)
      | _, _ => none

/-- `do_map_unmap_multi`. -/
def doMapUnmapMulti (env : Env) (s : Driver) (bySeg : Bool) (handle mapLen : Nat) :
    Option (Nat × Driver) :=
  if bySeg then
    match segPairs s (pairs env mapLen) with
    | none => some (emmIllPhys, s)
    | some array => emmMapUnmapMulti env handle s array
  else emmMapUnmapMulti env handle s (pairs env mapLen)

/-- `map_unmap_multiple`, after its handle check. -/
def mapUnmapMultiple (env : Env) (s : Driver) (handle method mapLen : Nat) :
    Option (Nat × Driver) :=
  match activeHandle s handle with
  | none => some (emmInvHan, s)
  | some _ =>
      if method = 0 then doMapUnmapMulti env s false handle mapLen
      else if method = 1 then doMapUnmapMulti env s true handle mapLen
      else some (emmInvalidSub, s)

/-- Map a page, or unmap it for `NULL_PAGE`. -/
def mapOrUnmap (env : Env) (s : Driver) (handle phys logical : Nat) : Option Driver :=
  if logical ≠ nullPage then (mapPage env s handle phys logical).map Prod.snd
  else some (unmapPage s phys).2

/-- `set_map_registers`, on the pairs of the buffer from physical page `i` on. -/
def setMapRegisters (env : Env) : Driver → Nat → List (Nat × Nat) → Option (Nat × Driver)
  | s, _, [] => some (emmNoErr, s)
  | s, i, (handle, logical) :: rest =>
      match activeHandle s handle with
      | none => some (emmInvHan, s)
      | some _ =>
          (mapOrUnmap env s handle i logical).bind fun s => setMapRegisters env s (i + 1) rest

/-- `emm_set_map_registers`. -/
def emmSetMapRegisters (cfg : Config) (env : Env) (s : Driver) : Option (Nat × Driver) :=
  if cfg.emsSize = 0 then some (emmNoErr, s)
  else setMapRegisters env s 0 (pairs env s.physPages)

/-- The triples of words in the guest's buffer, after its count. -/
def triples (env : Env) (n : Nat) : List (Nat × Nat × Nat) :=
  (List.range n).map fun i =>
    ((env.buf (3 * i + 1)).toNat, (env.buf (3 * i + 2)).toNat, (env.buf (3 * i + 3)).toNat)

/-- The loop of `emm_set_partial_map_registers`, on handle, logical and physical
page. -/
def setPartial (env : Env) : Driver → List (Nat × Nat × Nat) → Option (Nat × Driver)
  | s, [] => some (emmNoErr, s)
  | s, (handle, logical, phys) :: rest =>
      if maxHandles ≤ handle then some (emmArrCorrupt, s)
      else
        match activeHandle s handle with
        | none => some (emmInvHan, s)
        | some _ =>
            (mapOrUnmap env s handle phys logical).bind fun s => setPartial env s rest

/-- `emm_set_partial_map_registers`. -/
def emmSetPartialMapRegisters (cfg : Config) (env : Env) (s : Driver) : Option (Nat × Driver) :=
  if cfg.emsSize = 0 then some (emmNoErr, s)
  else setPartial env s (triples env (env.buf 0).toNat)

/-- What `get_map_registers` stores: handle and logical page of each page. -/
def getMapRegisters (s : Driver) : List Nat :=
  (List.range s.physPages).flatMap fun i => [(s.emmMap i).handle, (s.emmMap i).logicalPage]

/-- The loop of `emm_get_partial_map_registers`: whether every segment was
found, and what has been stored after the count. -/
def getPartial (s : Driver) : List Nat → Bool × List Nat
  | [] => (true, [])
  | seg :: rest =>
      match segToPhys s seg with
      | none => (false, [])
      | some phys =>
          let (ok, out) := getPartial s rest
          (ok, (s.emmMap phys).handle :: (s.emmMap phys).logicalPage :: phys :: out)

/-! ## Saved maps -/

/-- `emm_save_handle_state`. -/
def emmSaveHandleState (cfg : Config) (s : Driver) (h : Fin maxHandles) : Driver :=
  let r := s.handleInfo h
  s.setInfo h
    { r with
      savedMappingsLogical := fun j =>
        if j.val < cfg.savedPhysPages then
          if (s.emmMap j).handle ≠ nullHandle then (s.emmMap j).logicalPage else nullPage
        else r.savedMappingsLogical j
      savedMappingsHandle := fun j =>
        if j.val < cfg.savedPhysPages ∧ (s.emmMap j).handle ≠ nullHandle then (s.emmMap j).handle
        else r.savedMappingsHandle j }

/-- The loop of `emm_restore_handle_state`. -/
def restorePages (env : Env) (h : Fin maxHandles) : Driver → List (Fin emmMaxSavedPhys) →
    Option Driver
  | s, [] => some s
  | s, j :: js =>
      (mapOrUnmap env s ((s.handleInfo h).savedMappingsHandle j) j
        ((s.handleInfo h).savedMappingsLogical j)).bind fun s => restorePages env h s js

/-- `emm_restore_handle_state`. -/
def emmRestoreHandleState (cfg : Config) (env : Env) (s : Driver) (h : Fin maxHandles) :
    Option Driver :=
  restorePages env h s
    ((List.finRange emmMaxSavedPhys).filter fun j => decide (j.val < cfg.savedPhysPages))

/-! ## Reallocation -/

/-- The memory call of `reallocate_pages`: the error code, and the entry with
its new object and size. -/
def reallocObject (env : Env) (r : HandleRecord) (newcount : Nat) : Nat × HandleRecord :=
  if newcount ≠ 0 ∧ r.object ≠ 0 then
    if reallocMemoryObject env = 0 then (emmOutOfLog, r)
    else (emmNoErr, { r with object := reallocMemoryObject env, numpages := newcount })
  else if r.object ≠ 0 then (emmNoErr, { r with object := 0, numpages := 0 })
  else
    let obj := newMemoryObject env newcount
    if obj = 0 then (emmOutOfLog, r)
    else (emmNoErr, { r with object := obj, numpages := newcount })

/-- The first loop of `reallocate_pages`: `reunmap_page` shows conventional
memory in the windows of the handle and leaves the table alone. -/
def reunmapPages (h : Nat) : Driver → List Nat → Driver
  | s, [] => s
  | s, i :: is =>
      if (s.emmMap i).handle = h then reunmapPages h (s.setBacking i (s.physPageAddr i)) is
      else reunmapPages h s is

/-- The last loop of `reallocate_pages`: drop the pages that are out of range,
map the others again. -/
def remapPages (env : Env) (h : Fin maxHandles) (newcount : Nat) :
    Driver → List Nat → Option Driver
  | s, [] => some s
  | s, i :: is =>
      if (s.emmMap i).handle = h then
        if newcount ≤ (s.emmMap i).logicalPage then
          remapPages env h newcount (s.setMap i nullHandle nullPage) is
        else if env.aliased then
          remapPages env h newcount (s.setBacking i
            ((s.handleInfo h).object + (s.emmMap i).logicalPage * emmPageSize)) is
        else none
      else remapPages env h newcount s is

/-- `reallocate_pages`, for an active handle: `emm_allocated` is changed before
the memory call. -/
def doReallocate (cfg : Config) (env : Env) (s : Driver) (h : Fin maxHandles) (newcount : Nat) :
    Option (Nat × Driver) :=
  let diff : Int := newcount - (s.handleInfo h).numpages
  if (cfg.emmTotal : Int) < s.emmAllocated + diff then some (emmOutOfPhys, s)
  else
    let s := { s with emmAllocated := s.emmAllocated + diff }
    let s := reunmapPages h s (List.range s.physPages)
    let (err, r) := reallocObject env (s.handleInfo h) newcount
    (remapPages env h newcount (s.setInfo h r) (List.range s.physPages)).map fun s => (err, s)

/-- `reallocate_pages`. -/
def reallocatePages (cfg : Config) (env : Env) (s : Driver) (handle newcount : Nat) :
    Option (Nat × Driver) :=
  match activeHandle s handle with
  | none => some (emmInvHan, s)
  | some h =>
      if newcount = (s.handleInfo h).numpages then some (emmNoErr, s)
      else if h = osHandle then some (emmInvHan, s)
      else doReallocate cfg env s h newcount

/-! ## Reset and initialisation -/

/-- `ems_reset2`. -/
def emsReset2 (cfg : Config) (s : Driver) : Driver :=
  if cfg.emsSize = 0 then s
  else
    { handleTotal := 1
      emmAllocated := cfg.cnvPages
      physPages := 0
      emmMap := fun i =>
        if cfg.umaPages ≤ i ∧ i < cfg.umaPages + cfg.cnvPages then
          { s.emmMap i with handle := osHandle, logicalPage := i - cfg.umaPages }
        else { s.emmMap i with handle := nullHandle, logicalPage := nullPage }
      handleInfo := fun h =>
        if h = osHandle then
          { s.handleInfo h with
            numpages := cfg.cnvPages
            object := (0xa000 - 0x400 * cfg.cnvPages) * 16
            active := 0xff
            savedMappingsLogical := clearSaved cfg (s.handleInfo h)
            name := [0x53, 0x59, 0x53, 0x54, 0x45, 0x4d, 0x20, 0x20, 0] }
        else { s.handleInfo h with numpages := 0, active := 0 }
      backing := s.backing }

/-- The loop of `ems_reset`. -/
def deallocateAll (s : Driver) : List (Fin maxHandles) → Driver
  | [] => s
  | h :: hs =>
      if 1 ≤ h.val ∧ (s.handleInfo h).active ≠ 0 then deallocateAll (emmDeallocateHandle s h) hs
      else deallocateAll s hs

/-- `ems_reset`. -/
def emsReset (cfg : Config) (s : Driver) : Driver :=
  emsReset2 cfg (deallocateAll s (List.finRange maxHandles))

/-- The `EMS_HELPER_EMM_INIT` case of `ems_helper`. -/
def emmInit (cfg : Config) (env : Env) (s : Driver) : Driver :=
  if cfg.emsSize = 0 then s
  else if s.physPages ≠ 0 then s
  else if !env.frameFree then s
  else { s with physPages := cfg.cnvPages + cfg.umaPages }

/-- The segment of a window: first the page frame, then conventional memory. -/
def windowSeg (cfg : Config) (frame i : Nat) : Nat :=
  if i < cfg.umaPages then frame + 0x400 * i
  else 0xa000 - 0x400 * cfg.cnvPages + 0x400 * (i - cfg.umaPages)

/-- `ems_init` over zeroed static data, with every window on its own memory;
`frame` is `EMM_SEGMENT`. -/
def emsInit (cfg : Config) (frame : Nat) : Driver :=
  emsReset2 cfg
    { handleTotal := 0
      emmAllocated := 0
      physPages := 0
      emmMap := fun i =>
        { handle := 0, logicalPage := 0, physSeg := windowSeg cfg frame i }
      handleInfo := fun _ =>
        { active := 0, numpages := 0, object := 0, name := List.replicate 9 0
          savedMappingsHandle := fun _ => 0, savedMappingsLogical := fun _ => 0
          savedMapping := 0 }
      backing := fun i => windowSeg cfg frame i * 16 }

/-! ## The dispatcher -/

/-- `HI_BYTE`. -/
def hiByte (r : BitVec 16) : Nat :=
  r.toNat / 256

/-- `LO_BYTE`. -/
def loByte (r : BitVec 16) : Nat :=
  r.toNat % 256

/-- `SETHI_BYTE` on `AX`. -/
def setAh (r : Regs) (v : Nat) : Regs :=
  { r with ax := BitVec.ofNat 16 (v % 256 * 256 + loByte r.ax) }

/-- What a function answers: the driver, the registers, and the words it stores
at `ES:DI`. -/
structure Reply where
  s : Driver
  regs : Regs
  out : List Nat

/-- Report an error code in `AH`. -/
def report (r : Regs) (res : Nat × Driver) : Reply :=
  ⟨res.2, setAh r res.1, []⟩

/-- Functions 43h and 5Ah: allocate pages, and return the handle in `DX`. -/
def allocateFn (cfg : Config) (env : Env) (s : Driver) (r : Regs) : Reply :=
  match emmAllocateHandle cfg env s r.bx.toNat with
  | (.error err, s) => ⟨s, setAh r err, []⟩
  | (.ok h, s) => ⟨s, { setAh r emmNoErr with dx := BitVec.ofNat 16 h }, []⟩

/-- Function 45h. -/
def deallocateFn (s : Driver) (r : Regs) : Reply :=
  match handleIndex r.dx.toNat with
  | none => report r (emmInvHan, s)
  | some h =>
      if h = osHandle then report r (emmInvHan, s)
      else if (s.handleInfo h).active ≠ 1 then report r (emmInvHan, s)
      else if (s.handleInfo h).savedMapping ≠ 0 then report r (emmHaveSaved, s)
      else report r (emmNoErr, emmDeallocateHandle s h)

/-- Function 47h. -/
def savePageMap (cfg : Config) (s : Driver) (r : Regs) : Reply :=
  match activeHandle s r.dx.toNat with
  | none => report r (emmInvHan, s)
  | some h =>
      if (s.handleInfo h).savedMapping ≠ 0 then report r (emmAlreadySaved, s)
      else
        let s := emmSaveHandleState cfg s h
        let e := s.handleInfo h
        report r (emmNoErr, s.setInfo h { e with savedMapping := e.savedMapping + 1 })

/-- Function 48h. -/
def restorePageMap (cfg : Config) (env : Env) (s : Driver) (r : Regs) : Option Reply :=
  match activeHandle s r.dx.toNat with
  | none => some (report r (emmInvHan, s))
  | some h =>
      if (s.handleInfo h).savedMapping = 0 then some (report r (emmNotSaved, s))
      else
        (emmRestoreHandleState cfg env s h).map fun s =>
          let e := s.handleInfo h
          report r (emmNoErr, s.setInfo h { e with savedMapping := e.savedMapping - 1 })

/-- Function 4Eh. -/
def pageMapRegisters (cfg : Config) (env : Env) (s : Driver) (r : Regs) : Option Reply :=
  let image := if cfg.emsSize = 0 then [] else getMapRegisters s
  match loByte r.ax with
  | 0 => some ⟨s, setAh r emmNoErr, image⟩
  | 1 => (emmSetMapRegisters cfg env s).map fun res => ⟨res.2, setAh r emmNoErr, []⟩
  | 2 => (emmSetMapRegisters cfg env s).map fun res => ⟨res.2, setAh r emmNoErr, image⟩
  | 3 => some ⟨s, { r with ax := BitVec.ofNat 16 (4 * s.physPages % 256) }, []⟩
  | _ => some (report r (emmInvalidSub, s))

/-- Function 4Fh. -/
def partialMapRegisters (cfg : Config) (env : Env) (s : Driver) (r : Regs) : Option Reply :=
  match loByte r.ax with
  | 0 =>
      if cfg.emsSize = 0 then some (report r (emmNoErr, s))
      else
        let pages := (env.buf 0).toNat
        let (ok, out) := getPartial s ((List.range pages).map fun i => (env.buf (i + 1)).toNat)
        some ⟨s, setAh r (if ok then emmNoErr else emmIllPhys), pages :: out⟩
  | 1 => (emmSetPartialMapRegisters cfg env s).map (report r)
  | 2 =>
      if cfg.emsSize = 0 ∨ s.physPages < r.bx.toNat then some (report r (emmIllPhys, s))
      else some ⟨s, { r with ax := BitVec.ofNat 16 ((2 + 6 * r.bx.toNat) % 256) }, []⟩
  | _ => some (report r (emmInvalidSub, s))

/-- The bytes of the first four words of the guest's buffer. -/
def nameBytes (env : Env) : List (BitVec 8) :=
  (List.range 4).flatMap fun i => [(env.buf i).setWidth 8, (env.buf i >>> 8).setWidth 8]

/-- Function 53h. -/
def handleName (env : Env) (s : Driver) (r : Regs) : Reply :=
  match loByte r.ax with
  | 0 =>
      match activeHandle s r.dx.toNat with
      | none => report r (emmInvHan, s)
      | some h =>
          let name := (s.handleInfo h).name.take 8
          ⟨s.setInfo h { s.handleInfo h with name := name ++ [0] }, setAh r emmNoErr,
            name.map BitVec.toNat⟩
  | 1 =>
      match activeHandle s r.dx.toNat with
      | none => report r (emmInvHan, s)
      | some h =>
          report r (emmNoErr, s.setInfo h { s.handleInfo h with name := nameBytes env ++ [0] })
  | _ => report r (emmInvalidSub, s)

/-- `ems_fn`, for the functions that change the handle table, or the page map
from registers.  Before `EMM_INIT` there are no physical pages and nothing is done. -/
def emsFn (cfg : Config) (env : Env) (s : Driver) (r : Regs) : Option Reply :=
  if s.physPages = 0 then some ⟨s, r, []⟩
  else
    match hiByte r.ax with
    | 0x43 =>
        if r.bx.toNat = 0 then some (report r (emmZeroPages, s))
        else some (allocateFn cfg env s r)
    | 0x44 => (doMapUnmap env s r.dx.toNat (loByte r.ax) r.bx.toNat).map (report r)
    | 0x45 => some (deallocateFn s r)
    | 0x47 => some (savePageMap cfg s r)
    | 0x48 => restorePageMap cfg env s r
    | 0x4e => pageMapRegisters cfg env s r
    | 0x4f => partialMapRegisters cfg env s r
    | 0x50 => (mapUnmapMultiple env s r.dx.toNat (loByte r.ax) r.cx.toNat).map (report r)
    | 0x51 => (reallocatePages cfg env s r.dx.toNat r.bx.toNat).map (report r)
    | 0x53 => some (handleName env s r)
    | 0x5a => if loByte r.ax ≤ 1 then some (allocateFn cfg env s r) else some ⟨s, r, []⟩
    | 0x5c => some (report r (emmNoErr, emsReset cfg s))
    | _ => some ⟨s, r, []⟩

/-- One call into the driver: a function with its registers, `EMM_INIT`, and the
ways to change the page map that take their pages from a structure in memory:
`alter_map_and_jump` and `alter_map_and_call` (functions 55h and 56h), the
return from the latter, and function 5B01h. -/
inductive EmsCall
  | fn (r : Regs) (env : Env)
  | emmInit (env : Env)
  | alterMap (method handle mapLen : Nat) (env : Env)
  | apmapRet (bySeg : Bool) (handle mapLen : Nat) (env : Env)
  | setAlternate (env : Env)

/-- A call as a transition; `none` when the program ends. -/
def step (cfg : Config) (s : Driver) : EmsCall → Option Driver
  | .fn r env => (emsFn cfg env s r).map Reply.s
  | .emmInit env => some (emmInit cfg env s)
  | .alterMap method handle mapLen env =>
      (mapUnmapMultiple env s handle method mapLen).map Prod.snd
  | .apmapRet bySeg handle mapLen env => (doMapUnmapMulti env s bySeg handle mapLen).map Prod.snd
  | .setAlternate env => (emmSetMapRegisters cfg env s).map Prod.snd

end Ems
end Dosemu
