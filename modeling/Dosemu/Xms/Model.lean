import Dosemu.Lib.Page
import Dosemu.Lib.Table
import Dosemu.Pgalloc.Model

/-!
# The XMS driver

The extended memory blocks of `src/dosext/misc/xms.c`: the handle table, the
count of the bytes handed out, and the pool of window pages a locked block is
mapped through.  Registers are words of 32 bits; `int` arithmetic that leaves
its range wraps.  What the mapping layer answers is part of each call, and
`leavedos` or a failed `assert` ends the program and is `none`.

Main definitions:

- `xmsAllocateEMB`, `xmsFreeEMB`, `xmsReallocEMB`, `xmsLockEMB`, `xmsEMBInfo`:
  the functions on extended memory blocks.
- `xmsControl`: their dispatch on `AH`.
- `xmsReset`, `xmsHelperInit`: the driver's life cycle.
- `XmsCall` and `step`: one call as a transition of the driver.
-/

namespace Dosemu
namespace Xms

open Function
open MachineInt
open Pgalloc

/-! ## Data -/

/-- `NUM_HANDLES`. -/
def numHandles : Nat := 65

/-- `FIRST_HANDLE`. -/
def firstHandle : Nat := 1

/-- `LOWMEM_SIZE`. -/
def lowmemSize : Nat := 0x100000

/-- `HMASIZE`. -/
def hmaSize : Nat := 0x10000

/-- The settings the driver reads, in kilobytes.  The low memory, the extended
memory and the XMS window are reserved together, with a size kept in an `int`. -/
structure Config where
  xmsSize : Nat
  extMem : Nat
  fits : lowmemSize + extMem * 1024 + xmsSize * 1024 ≤ 2 ^ 31

/-- `XMS_SIZE`. -/
def Config.windowSize (cfg : Config) : Nat :=
  cfg.xmsSize * 1024

/-- `xms_base`. -/
def Config.xmsBase (cfg : Config) : Nat :=
  lowmemSize + cfg.extMem * 1024

/-- `struct Handle`; a null `addr` marks a free entry. -/
structure Handle where
  num : Nat
  addr : Nat
  size : Nat
  lockcount : Int
  dst : Nat
deriving DecidableEq, Repr

/-- The driver's static data. -/
structure Driver where
  handles : Fin numHandles → Handle
  handleCount : Int
  totalBytes : Int
  intdrv : Bool
  pgapool : Pool

/-- The general registers of the caller. -/
structure Regs where
  eax : BitVec 32
  ebx : BitVec 32
  ecx : BitVec 32
  edx : BitVec 32
deriving DecidableEq, Repr

/-- `LWORD`. -/
def lword (r : BitVec 32) : Nat :=
  r.toNat % 2 ^ 16

/-- Assignment to `LWORD`. -/
def setLword (r : BitVec 32) (v : Nat) : BitVec 32 :=
  BitVec.ofNat 32 (r.toNat / 2 ^ 16 * 2 ^ 16 + v % 2 ^ 16)

/-- `HI` of a register. -/
def hiByte (r : BitVec 32) : Nat :=
  r.toNat / 2 ^ 8 % 2 ^ 8

/-- Assignment to `LO`. -/
def setLo (r : BitVec 32) (v : Nat) : BitVec 32 :=
  BitVec.ofNat 32 (r.toNat / 2 ^ 8 * 2 ^ 8 + v % 2 ^ 8)

/-- Assignment to `HI`. -/
def setHi (r : BitVec 32) (v : Nat) : BitVec 32 :=
  setLword r (v % 2 ^ 8 * 2 ^ 8 + r.toNat % 2 ^ 8)

/-- `OLDXMS` and `NEWXMS`: the calls with 16-bit and with 32-bit sizes. -/
inductive Api
  | oldxms
  | newxms
deriving DecidableEq, Repr

/-- What the mapping layer answers during a call: the address `alloc_mapping`
or `realloc_mapping` returns (`none` is `MAP_FAILED`), and whether
`alias_mapping_pa` succeeds. -/
structure Env where
  mapping : Option Nat
  aliased : Bool
deriving DecidableEq, Repr

/-- Overwrite one entry of the handle table. -/
def Driver.setHandle (s : Driver) (h : Fin numHandles) (e : Handle) : Driver :=
  { s with handles := update s.handles h e }

/-! ## Mappings -/

/-- `xms_alloc` and `xms_realloc`: a null pointer on failure. -/
def xmsAlloc (env : Env) : Nat :=
  env.mapping.getD 0

/-- `map_EMB`: reserve a window of pages and alias the block into it.  Returns
zero when there is no room; a failed alias ends the program. -/
def mapEMB (cfg : Config) (env : Env) (pool : Pool) (size handle : Nat) :
    Option (Nat × Pool) :=
  let (page, pool) := pgaalloc pool (pageAlign32 size / 4096) handle
  if page < 0 then some (0, pool)
  else if env.aliased then some (uwrap 32 (cfg.xmsBase + page * 4096), pool)
  else none

/-- `unmap_EMB`. -/
def unmapEMB (cfg : Config) (pool : Pool) (base : Nat) : Option Pool :=
  pgafree pool (uwrap 32 ((base : Int) - cfg.xmsBase) / 4096)

/-- The window part of `do_free_EMB`. -/
def dropWindow (cfg : Config) (pool : Pool) (e : Handle) : Option Pool :=
  if e.dst ≠ 0 then unmapEMB cfg pool e.dst else some pool

/-- `do_free_EMB`. -/
def doFreeEMB (cfg : Config) (s : Driver) (h : Fin numHandles) : Option Driver := do
  let pool ← dropWindow cfg s.pgapool (s.handles h)
  return { s.setHandle h { s.handles h with dst := 0, addr := 0 } with pgapool := pool }

/-! ## Handles -/

/-- `FindFreeHandle`. -/
def findFreeHandle (s : Driver) (start : Nat) : Option (Fin numHandles) :=
  (List.finRange numHandles).find? fun i => decide (start ≤ i.val ∧ (s.handles i).addr = 0)

/-- `ValidHandle`: the entry a handle number names, if it is in use. -/
def validHandle (s : Driver) (h : Nat) : Option (Fin numHandles) :=
  if hlt : h < numHandles then
    if (s.handles ⟨h, hlt⟩).addr ≠ 0 then some ⟨h, hlt⟩ else none
  else none

/-! ## The functions -/

/-- The size in kilobytes that `xms_allocate_EMB` reads. -/
def allocKb (api : Api) (r : Regs) : Nat :=
  match api with
  | .oldxms => lword r.edx
  | .newxms => r.edx.toNat

/-- The size in kilobytes that `xms_realloc_EMB` reads. -/
def reallocKb (api : Api) (r : Regs) : Nat :=
  match api with
  | .oldxms => lword r.ebx
  | .newxms => r.ebx.toNat

/-- A count of kilobytes times 1024, as an `unsigned int`. -/
def kbBytes (kb : Nat) : Nat :=
  uwrap 32 (kb * 1024)

/-- `config.xms_size * 1024`. -/
def quota (cfg : Config) : Int :=
  swrap 32 (cfg.xmsSize * 1024)

/-- The quota test of `xms_allocate_EMB`. -/
def allocOverQuota (cfg : Config) (s : Driver) (size : Nat) : Bool :=
  decide (quota cfg < swrap 32 (s.totalBytes + swrap 32 (pageAlign32 size)))

/-- `xms_allocate_EMB`. -/
def xmsAllocateEMB (cfg : Config) (api : Api) (env : Env) (s : Driver) (r : Regs) :
    Nat × Driver × Regs :=
  if !s.intdrv then (0xa0, s, r)
  else
    let kbsize := allocKb api r
    match findFreeHandle s firstHandle with
    | none => (0xa1, s, r)
    | some h =>
        let size := kbBytes kbsize
        if kbsize = 0 then (0xa0, s, r)
        else if allocOverQuota cfg s size then (0xa0, s, r)
        else if xmsAlloc env = 0 then (0xa0, s, r)
        else
          let s := { s with totalBytes := swrap 32 (s.totalBytes + pageAlign32 size) }
          let s := s.setHandle h
            { s.handles h with num := h, size := size, addr := xmsAlloc env, lockcount := 0 }
          let s := { s with handleCount := s.handleCount + 1 }
          match api with
          | .oldxms => (0, s, { r with edx := setLword r.edx h })
          | .newxms => (0, s, { r with edx := BitVec.ofNat 32 h })

/-- `xms_free_EMB`. -/
def xmsFreeEMB (cfg : Config) (s : Driver) (r : Regs) : Option (Nat × Driver × Regs) :=
  match validHandle s (lword r.edx) with
  | none => some (0xa2, s, r)
  | some h => do
      let total := swrap 32 (s.totalBytes - pageAlign32 (s.handles h).size)
      let s ← doFreeEMB cfg { s with totalBytes := total } h
      return (0, { s with handleCount := s.handleCount - 1 }, r)

/-- The unlock half of `xms_lock_EMB`, for a valid handle. -/
def unlockEMB (cfg : Config) (s : Driver) (h : Fin numHandles) (r : Regs) :
    Option (Nat × Driver × Regs) :=
  let e := s.handles h
  if e.lockcount = 0 then some (0xaa, s, r)
  else
    let e := { e with lockcount := swrap 32 (e.lockcount - 1) }
    if e.lockcount = 0 then do
      let pool ← unmapEMB cfg s.pgapool e.dst
      return (0, { s.setHandle h { e with dst := 0 } with pgapool := pool }, r)
    else some (0, s.setHandle h e, r)

/-- The address a lock returns: the window in use, or a new one. -/
def lockAddr (cfg : Config) (env : Env) (s : Driver) (h : Fin numHandles) : Option (Nat × Pool) :=
  if (s.handles h).lockcount ≠ 0 then some ((s.handles h).dst, s.pgapool)
  else mapEMB cfg env s.pgapool (s.handles h).size h

/-- The lock half of `xms_lock_EMB`, for a valid handle. -/
def lockEMB (cfg : Config) (env : Env) (s : Driver) (h : Fin numHandles) (r : Regs) :
    Option (Nat × Driver × Regs) := do
  let (addr, pool) ← lockAddr cfg env s h
  if addr ≠ 0 then
    let e := s.handles h
    let e := { e with lockcount := swrap 32 (e.lockcount + 1), dst := addr }
    return (0, { s.setHandle h e with pgapool := pool },
      { r with edx := setLword r.edx (addr / 2 ^ 16), ebx := setLword r.ebx addr })
  else return (0xad, { s with pgapool := pool }, r)

/-- `xms_lock_EMB`. -/
def xmsLockEMB (cfg : Config) (env : Env) (flag : Bool) (s : Driver) (r : Regs) :
    Option (Nat × Driver × Regs) :=
  match validHandle s (lword r.edx) with
  | none => some (0xa2, s, r)
  | some h => if flag then lockEMB cfg env s h r else unlockEMB cfg s h r

/-- `xms_EMB_info`. -/
def xmsEMBInfo (api : Api) (s : Driver) (r : Regs) : Nat × Driver × Regs :=
  match validHandle s (lword r.edx) with
  | none => (0xa2, s, r)
  | some h =>
      let free := uwrap 16 (numHandles - firstHandle - s.handleCount)
      let r :=
        match api with
        | .oldxms =>
            { r with ebx := setLo r.ebx free, edx := setLword r.edx ((s.handles h).size / 1024) }
        | .newxms =>
            { r with
              ecx := setLword r.ecx free, edx := BitVec.ofNat 32 ((s.handles h).size / 1024) }
      (0, s, { r with ebx := setHi r.ebx (uwrap 8 (s.handles h).lockcount) })

/-- `delta` of `xms_realloc_EMB`. -/
def reallocDelta (e : Handle) (newsize : Nat) : Int :=
  swrap 32 (uwrap 32 ((pageAlign32 newsize : Int) - pageAlign32 e.size))

/-- The two tests of `xms_realloc_EMB` that refuse a size. -/
def reallocOverQuota (cfg : Config) (s : Driver) (e : Handle) (newsize : Nat) : Bool :=
  decide (s.totalBytes < swrap 32 (pageAlign32 e.size)) ||
    decide (quota cfg < swrap 32 (s.totalBytes + reallocDelta e newsize))

/-- `xms_realloc_EMB`. -/
def xmsReallocEMB (cfg : Config) (api : Api) (env : Env) (s : Driver) (r : Regs) :
    Nat × Driver × Regs :=
  match validHandle s (lword r.edx) with
  | none => (0xa2, s, r)
  | some h =>
      let e := s.handles h
      if e.lockcount ≠ 0 then (0xab, s, r)
      else
        let newsize := kbBytes (reallocKb api r)
        if newsize = e.size then (0, s, r)
        else if reallocOverQuota cfg s e newsize then (0xa0, s, r)
        else if xmsAlloc env = 0 then (0xa0, s, r)
        else
          let s := { s with totalBytes := swrap 32 (s.totalBytes + reallocDelta e newsize) }
          (0, s.setHandle h { e with addr := xmsAlloc env, size := newsize }, r)

/-! ## The dispatcher -/

/-- `XMS_RET`: the result in `AX`, an error in `BL`. -/
def xmsRet (res : Nat × Driver × Regs) : Driver × Regs :=
  let (err, s, r) := res
  if err ≠ 0 then (s, { r with eax := setLword r.eax 0, ebx := setLo r.ebx err })
  else (s, { r with eax := setLword r.eax 1 })

/-- The functions of `xms_control` on extended memory blocks. -/
inductive XmsFn
  | allocate (api : Api)
  | free
  | lock
  | unlock
  | info (api : Api)
  | resize (api : Api)
deriving DecidableEq, Repr

/-- The function a value of `AH` selects. -/
def XmsFn.ofAh : Nat → Option XmsFn
  | 0x09 => some (.allocate .oldxms)
  | 0x0a => some .free
  | 0x0c => some .lock
  | 0x0d => some .unlock
  | 0x0e => some (.info .oldxms)
  | 0x0f => some (.resize .oldxms)
  | 0x89 => some (.allocate .newxms)
  | 0x8e => some (.info .newxms)
  | 0x8f => some (.resize .newxms)
  | _ => none

/-- One of the functions, before `XMS_RET`. -/
def callFn (cfg : Config) (fn : XmsFn) (env : Env) (s : Driver) (r : Regs) :
    Option (Nat × Driver × Regs) :=
  match fn with
  | .allocate api => some (xmsAllocateEMB cfg api env s r)
  | .free => xmsFreeEMB cfg s r
  | .lock => xmsLockEMB cfg env true s r
  | .unlock => xmsLockEMB cfg env false s r
  | .info api => some (xmsEMBInfo api s r)
  | .resize api => some (xmsReallocEMB cfg api env s r)

/-- `xms_control`, for the functions on extended memory blocks; the others
leave these data alone.  Without the internal driver the request is skipped. -/
def xmsControl (cfg : Config) (env : Env) (s : Driver) (r : Regs) : Option (Driver × Regs) :=
  if s.intdrv then
    match XmsFn.ofAh (hiByte r.eax) with
    | some fn => (callFn cfg fn env s r).map xmsRet
    | none => some (s, r)
  else some (s, r)

/-! ## Life cycle -/

/-- The handle table before any call. -/
def zeroHandle : Handle :=
  { num := 0, addr := 0, size := 0, lockcount := 0, dst := 0 }

/-- `xms_init`, over zeroed static data. -/
def xmsInit (cfg : Config) : Driver :=
  { handles := fun _ => zeroHandle
    handleCount := 0
    totalBytes := 0
    intdrv := false
    pgapool := pgainit (cfg.windowSize / 4096) }

/-- The loop of `xms_reset` over the handles. -/
def freeAllEMB (cfg : Config) (s : Driver) : List (Fin numHandles) → Option Driver
  | [] => some s
  | h :: hs => (doFreeEMB cfg s h).bind fun s => freeAllEMB cfg s hs

/-- `xms_reset`. -/
def xmsReset (cfg : Config) (s : Driver) : Option Driver :=
  (freeAllEMB cfg s (List.finRange numHandles)).map fun s =>
    { s with handleCount := 0, totalBytes := 0, intdrv := false, pgapool := pgareset s.pgapool }

/-- `xms_helper_init`. -/
def xmsHelperInit (cfg : Config) (s : Driver) : Driver :=
  if s.intdrv then s
  else if cfg.xmsSize = 0 then s
  else { s with intdrv := true }

/-- One call into the driver, with the answers of the mapping layer. -/
inductive XmsCall
  | control (r : Regs) (env : Env)
  | helperInit
  | localReset
  | reset

/-- A call as a transition; `none` when the program ends. -/
def step (cfg : Config) (s : Driver) : XmsCall → Option Driver
  | .control r env => (xmsControl cfg env s r).map Prod.fst
  | .helperInit => some (xmsHelperInit cfg s)
  | .localReset => some { s with intdrv := false }
  | .reset => xmsReset cfg s

end Xms
end Dosemu
