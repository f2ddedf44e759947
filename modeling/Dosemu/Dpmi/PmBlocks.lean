import Dosemu.Lib.Run

/-!
# Memory blocks of DPMI clients

Each client has a list of blocks with an attribute word for each page: bits 0 to 2 are the
type (0 uncommitted, 1 committed, 2 mapped), bit 3 allows writing.  Blocks with `linear` come
from `main_pool`, others from `mem_pool`, and blocks with `hwram` from no pool.
`mem_allocd` counts the bytes that clients have committed.

The lists of all clients are one list here, each block with its root.  What the pools answer
is part of a call, none for `(dosaddr_t)-1`.

Main results:

- Theorem `lookup_split`: a block that is found, with what is before and behind it.
- Theorems `dpmiMalloc_cases`, `dpmiMallocLinear_cases`, `dpmiRealloc_cases` and
  `dpmiReallocLinear_cases`: what a call does with the answer of a pool, if it gets as far.
- Theorem `setPages_rule`: what each page keeps, `SetPageAttributes` keeps.
-/

namespace Dosemu
namespace Dpmi
namespace PmMemory

abbrev Attr := BitVec 16

/-- `HOST_PAGE_SIZE` -/
def pageSize : Nat :=
  4096

/-- `HOST_PAGE_ALIGN` of an `unsigned` -/
def pageAlign (n : Nat) : Nat :=
  (n + 4095) % 2 ^ 32 / 4096 * 4096

/-- `(dosaddr_t)-1` -/
def badAddr : Nat :=
  2 ^ 32 - 1

/-- `dpmi_reserved_space` -/
def reserved : Nat :=
  4 * 1024 * 1024

/-- `dpmi_total_memory`, the linear range and `config.no_null_checks`.  `mem_pool` has room for
the total and the reserve. -/
structure Config where
  total : Nat
  linBase : Nat
  linSize : Nat
  noNullChecks : Bool
  fits : total + reserved < 2 ^ 32

/-- `dpmi_pm_block` -/
structure PmBlock where
  root : Nat
  handle : Nat
  base : Nat
  size : Nat
  linear : Bool
  hwram : Bool
  attrs : List Attr
  deriving DecidableEq

/-- Why a call does not return: the assertion on `mem_allocd`, the one on the size of a block,
an access outside the attribute array, `leavedos` -/
inductive Abort where
  | allocd
  | blockSize
  | array
  | leavedos
  deriving DecidableEq

/-- What `mprotect` leaves a client -/
inductive Prot where
  | noAccess
  | readOnly
  | readWrite
  deriving DecidableEq

def PmBlock.withAttrs (b : PmBlock) (attrs : List Attr) : PmBlock :=
  { b with attrs := attrs }

/-- The blocks, `mem_allocd`, `pm_block_handle_used`, the areas in use of `main_pool` (true)
and `mem_pool` (false) with their sizes, and the protection of each page -/
structure State where
  blocks : List PmBlock
  memAllocd : Nat
  handleUsed : Nat
  used : Bool → Nat → Option Nat
  prot : Nat → Prot

namespace State

variable (cfg : Config) (s : State)

/-- `dpmi_free_memory` -/
def freeMemory (allocd : Nat) : Nat :=
  if cfg.total ≤ allocd then 0 else cfg.total - allocd

/-! ## Pages -/

/-- `mprotect_mapping` -/
def protect (prot : Nat → Prot) (base size : Nat) (access : Prot) (p : Nat) : Prot :=
  if base / pageSize ≤ p ∧ p < base / pageSize + size / pageSize then access else prot p

/-- `restore_page_protection`: the uncommitted pages of a block -/
def restorePageProtection (prot : Nat → Prot) (base : Nat) (attrs : List Attr) (p : Nat) : Prot :=
  if base / pageSize ≤ p ∧ ∃ a ∈ attrs[p - base / pageSize]?, a &&& 1 = 0 then .noAccess
  else prot p

/-! ## Blocks -/

/-- `lookup_pm_block` -/
def lookup (root handle : Nat) : Option PmBlock :=
  s.blocks.find? fun b => b.root = root && b.handle = handle

/-- A block of `root` with the given base, in front of the list -/
def addBlock (b : PmBlock) : State :=
  { s with blocks := b :: s.blocks, handleUsed := s.handleUsed + 1 }

end State

/-- The first element with `p` changed -/
def modifyFirst {α : Type*} (p : α → Bool) (f : α → α) : List α → List α
  | [] => []
  | a :: l => if p a then f a :: l else a :: modifyFirst p f l

theorem modifyFirst_split {α : Type*} {p : α → Bool} {l : List α} {a : α}
    (h : l.find? p = some a) : ∃ l₁ l₂, l = l₁ ++ a :: l₂ ∧ l.eraseP p = l₁ ++ l₂ ∧
      ∀ f, modifyFirst p f l = l₁ ++ f a :: l₂ := by
  induction l with
  | nil => cases h
  | cons b l ih =>
    by_cases hb : p b
    · rw [List.find?_cons_of_pos hb] at h
      cases h
      refine ⟨[], l, rfl, ?_, ?_⟩
      · simp [List.eraseP_cons_of_pos hb]
      · intro f
        simp [modifyFirst, hb]
    · rw [List.find?_cons_of_neg hb] at h
      obtain ⟨l₁, l₂, hl, herase, hmodify⟩ := ih h
      refine ⟨b :: l₁, l₂, ?_, ?_, ?_⟩
      · rw [hl]
        rfl
      · rw [List.eraseP_cons_of_neg hb, herase]
        rfl
      · intro f
        simp [modifyFirst, hb, hmodify]

namespace State

variable (cfg : Config) (s : State)

def isBlock (root handle : Nat) (b : PmBlock) : Bool :=
  b.root = root && b.handle = handle

def modify (root handle : Nat) (f : PmBlock → PmBlock) : List PmBlock :=
  modifyFirst (isBlock root handle) f s.blocks

theorem lookup_split {s : State} {root handle : Nat} {b : PmBlock}
    (h : s.lookup root handle = some b) : ∃ l₁ l₂, s.blocks = l₁ ++ b :: l₂ ∧
      s.blocks.eraseP (isBlock root handle) = l₁ ++ l₂ ∧
      ∀ f, s.modify root handle f = l₁ ++ f b :: l₂ :=
  modifyFirst_split h

/-! ## Allocation -/

/-- The block that `DPMI_malloc` adds -/
def mallocBlock (root size realbase : Nat) : PmBlock :=
  ⟨root, s.handleUsed, realbase, size, false, false, List.replicate (size / pageSize) 9⟩

/-- The state with that block -/
def malloced (root size : Nat) (answer : Option Nat) : State :=
  { s.addBlock (s.mallocBlock root size (answer.getD badAddr)) with
    memAllocd := s.memAllocd + size
    used := match answer with
      | some base => fun linear addr =>
        if linear = false ∧ addr = base then some size else s.used linear addr
      | none => s.used
    prot := match answer with
      | some base => protect s.prot base size .readWrite
      | none => s.prot }

/-- `DPMI_malloc`.  A pool that fails is only noticed if it returns 0. -/
def dpmiMalloc (root size : Nat) (answer : Option Nat) :
    Except Abort (Option PmBlock × State) :=
  let size := pageAlign size
  if (cfg.total + 2 ^ 32 - s.memAllocd + reserved) % 2 ^ 32 < size then .ok (none, s)
  else if size < pageSize then .error .blockSize
  else if answer = some 0 then .ok (none, s)
  else .ok (some (s.mallocBlock root size (answer.getD badAddr)), s.malloced root size answer)

/-- The block that `DPMI_mallocLinear` adds -/
def linearBlock (root realbase size : Nat) (committed : Bool) : PmBlock :=
  ⟨root, s.handleUsed, realbase, size, true, false,
    List.replicate (size / pageSize) (if committed then 9 else 8)⟩

/-- The state with that block -/
def mallocedLinear (root realbase size : Nat) (committed : Bool) : State :=
  { s.addBlock (s.linearBlock root realbase size committed) with
    memAllocd := if committed then s.memAllocd + size else s.memAllocd
    used := fun linear addr =>
      if linear = true ∧ addr = realbase then some size else s.used linear addr
    prot := protect s.prot realbase size (if committed then .readWrite else .noAccess) }

/-- `DPMI_mallocLinear`, where 0 is any address -/
def dpmiMallocLinear (root base size : Nat) (committed : Bool) (answer : Option Nat) :
    Except Abort (Option PmBlock × State) :=
  let size := pageAlign size
  if base = badAddr then .ok (none, s)
  else if base ≠ 0 ∧ (base < cfg.linBase ∨ cfg.linBase + cfg.linSize < base + size) then
    .ok (none, s)
  else if committed = true ∧ freeMemory cfg s.memAllocd < size then .ok (none, s)
  else if size < pageSize then .error .blockSize
  else
    match answer with
    | none => .ok (none, s)
    | some realbase =>
      .ok (some (s.linearBlock root realbase size committed),
        s.mallocedLinear root realbase size committed)

/-- `DPMI_mapHWRam`; `vbase` is what `get_hardware_ram` finds. -/
def dpmiMapHWRam (root size : Nat) (vbase : Option Nat) :
    Except Abort (Option PmBlock × State) :=
  match vbase with
  | none => .ok (none, s)
  | some vbase =>
    if size < pageSize ∨ size % pageSize ≠ 0 then .error .blockSize
    else
      let b : PmBlock := ⟨root, s.handleUsed, vbase, size, true, true,
        List.replicate (size / pageSize) 9⟩
      .ok (some b, s.addBlock b)

/-! ## Release -/

/-- `lookup_pm_block_by_addr`, in the block's own root -/
def coversAddr (root addr : Nat) (b : PmBlock) : Bool :=
  b.root = root && b.base ≤ addr && addr < (b.base + b.size) % 2 ^ 32

/-- `DPMI_unmapHWRam` -/
def dpmiUnmapHWRam (root vbase : Nat) : Int × State :=
  match s.blocks.find? (coversAddr root vbase) with
  | none => (-1, s)
  | some b =>
    if b.hwram then (0, { s with blocks := s.blocks.eraseP (coversAddr root vbase) }) else (-1, s)

/-- `if committed priv page, account it` -/
def isCommitted (a : Attr) : Bool :=
  a &&& 7 = 1

/-- A page less in `mem_allocd` for each committed page, with its assertion -/
def giveBack : List Attr → Nat → Except Abort Nat
  | [], allocd => .ok allocd
  | a :: attrs, allocd =>
    if isCommitted a then
      if pageSize ≤ allocd then giveBack attrs (allocd - pageSize) else .error .allocd
    else giveBack attrs allocd

def drop (used : Bool → Nat → Option Nat) (linear : Bool) (base : Nat) :
    Bool → Nat → Option Nat :=
  fun linear' addr => if linear' = linear ∧ addr = base then none else used linear' addr

/-- `DPMI_free` of a private block.  Linear memory stays accessible, the other pool takes
access to an area that it knows away. -/
def dpmiFree (root handle : Nat) : Except Abort (Int × State) :=
  match s.lookup root handle with
  | none => .ok (-1, s)
  | some b =>
    if b.hwram then .ok (-1, s)
    else
      (giveBack b.attrs s.memAllocd).map fun allocd =>
        (0, { s with
          blocks := s.blocks.eraseP (isBlock root handle)
          memAllocd := allocd
          used := drop s.used b.linear b.base
          prot :=
            if b.linear then protect s.prot b.base b.size .readWrite
            else if (s.used false b.base).isSome then protect s.prot b.base b.size .noAccess
            else s.prot })

/-! ## Resizing -/

/-- The attribute words after `finish_realloc` -/
def resizeAttrs (attrs : List Attr) (pages : Nat) (committed : Bool) : List Attr :=
  attrs.take pages ++ List.replicate (pages - attrs.length) (if committed then 9 else 8)

/-- `mem_allocd` after `finish_realloc`.  A size that has wrapped to 0 leaves a block without
its attribute array. -/
def finishAllocd (b : PmBlock) (newsize : Nat) (committed : Bool) (allocd : Nat) :
    Except Abort Nat :=
  if b.size < newsize then
    .ok (if committed then allocd + (newsize - b.size) else allocd)
  else
    match giveBack (b.attrs.drop (newsize / pageSize)) allocd with
    | .error abort => .error abort
    | .ok allocd => if newsize = 0 then .error .array else .ok allocd

/-- The block after `finish_realloc` and the two assignments behind it -/
def resized (b : PmBlock) (ptr newsize : Nat) (committed : Bool) : PmBlock :=
  { b with
    base := ptr
    size := newsize
    attrs := resizeAttrs b.attrs (newsize / pageSize) committed }

/-- The pool area of a block that `smrealloc` has served -/
def move (used : Bool → Nat → Option Nat) (b : PmBlock) (ptr newsize : Nat) :
    Bool → Nat → Option Nat :=
  fun linear addr =>
    if linear = b.linear ∧ addr = ptr then some newsize else drop used b.linear b.base linear addr

/-- `smrealloc` that fails; it frees the area if the aligned size has wrapped to 0. -/
def refuse (used : Bool → Nat → Option Nat) (b : PmBlock) (newsize : Nat) :
    Bool → Nat → Option Nat :=
  if newsize = 0 then drop used b.linear b.base else used

/-- What is left when `smrealloc` has failed and the failure is noticed -/
def refused (b : PmBlock) (newsize : Nat) : State :=
  { s with
    used := refuse s.used b newsize
    prot := restorePageProtection (protect s.prot b.base b.size .readWrite) b.base b.attrs }

/-- The end of `DPMI_realloc` and `DPMI_reallocLinear`: the whole block is accessible, then its
uncommitted pages are closed.  There are no pages at `(dosaddr_t)-1`. -/
def finishRealloc (root handle : Nat) (b : PmBlock) (newsize : Nat) (committed : Bool)
    (answer : Option Nat) : Except Abort (Option PmBlock × State) :=
  let b' := resized b (answer.getD badAddr) newsize committed
  let opened := protect s.prot b.base b.size .readWrite
  (finishAllocd b newsize committed s.memAllocd).map fun allocd =>
    (some b', { s with
      blocks := s.modify root handle fun _ => b'
      memAllocd := allocd
      used := match answer with
        | some ptr => move s.used b ptr newsize
        | none => refuse s.used b newsize
      prot := match answer with
        | some ptr => restorePageProtection (protect opened ptr newsize .readWrite) ptr b'.attrs
        | none => opened })

/-- `DPMI_reallocLinear` -/
def dpmiReallocLinear (root handle newsize : Nat) (committed : Bool) (answer : Option Nat) :
    Except Abort (Option PmBlock × State) :=
  if newsize = 0 then .ok (none, s)
  else
    match s.lookup root handle with
    | none => .ok (none, s)
    | some b =>
      let newsize := pageAlign newsize
      if b.linear = false then .ok (none, s)
      else if newsize = b.size then .ok (some b, s)
      else if b.size < newsize ∧ committed = true ∧
          freeMemory cfg s.memAllocd < newsize - b.size then .ok (none, s)
      else
        match answer with
        | none => .ok (none, s.refused b newsize)
        | some ptr => s.finishRealloc root handle b newsize committed (some ptr)

/-- `DPMI_realloc`.  A pool that fails is only noticed if it returns 0. -/
def dpmiRealloc (root handle newsize : Nat) (answer : Option Nat) :
    Except Abort (Option PmBlock × State) :=
  if newsize = 0 then .ok (none, s)
  else
    match s.lookup root handle with
    | none => .ok (none, s)
    | some b =>
      if b.linear then s.dpmiReallocLinear cfg root handle newsize true answer
      else
        let newsize := pageAlign newsize
        if newsize = b.size then .ok (some b, s)
        else if b.size < newsize ∧ freeMemory cfg s.memAllocd < newsize - b.size then
          .ok (none, s)
        -- The pages stay open.
        else if answer = some 0 then
          .ok (none, { s with prot := protect s.prot b.base b.size .readWrite })
        else s.finishRealloc root handle b newsize true answer

/-! ## Page attributes -/

/-- What is done to a page: its attribute word, `mem_allocd` and `change` -/
structure Page where
  attr : Attr
  allocd : Nat
  change : Bool

/-- `switch (com)`; false for `return 0` -/
def comPart (attr old : Attr) (allocd : Nat) : Except Abort (Bool × Page) :=
  match (attr &&& 3).toNat with
  | 0 =>
    if old &&& 1 = 0 then .ok (true, ⟨old &&& ~~~7, allocd, false⟩)
    else if pageSize ≤ allocd then .ok (true, ⟨old &&& ~~~7, allocd - pageSize, true⟩)
    else .error .allocd
  | 1 =>
    if old &&& 1 = 0 then
      if freeMemory cfg allocd < pageSize then .ok (false, ⟨old, allocd, false⟩)
      else .ok (true, ⟨(old &&& ~~~7) ||| 1, allocd + pageSize, true⟩)
    else .ok (true, ⟨(old &&& ~~~7) ||| 1, allocd, false⟩)
  | _ => .ok (true, ⟨old, allocd, false⟩)

/-- `com &= 1`: 2 is no type, and 3 leaves the type as it is. -/
def comBit (attr old : Attr) : Bool :=
  match (attr &&& 3).toNat with
  | 1 => true
  | 3 => old &&& 1 ≠ 0
  | _ => false

/-- The RW bit, which is not set on an uncommitted page -/
def rwPart (attr old : Attr) (page : Page) : Bool × Page :=
  if attr &&& 8 ≠ 0 ∧ old &&& 8 = 0 then
    if comBit attr old = false ∧ old &&& 1 = 0 then (false, page)
    else (true, { page with attr := page.attr ||| 8, change := true })
  else if attr &&& 8 = 0 ∧ old &&& 8 ≠ 0 then
    (true, { page with attr := page.attr &&& ~~~8, change := true })
  else (true, page)

/-- The NX bit, which is not changed on an uncommitted page -/
def nxPart (attr old : Attr) (page : Page) : Bool × Page :=
  if attr &&& 0x80 ≠ 0 ∧ old &&& 0x80 = 0 then
    if comBit attr old = false then (false, page)
    else (true, { page with attr := page.attr ||| 0x80, change := true })
  else if attr &&& 0x80 = 0 ∧ old &&& 0x80 ≠ 0 then
    if comBit attr old = false then (false, page)
    else (true, { page with attr := page.attr &&& ~~~0x80, change := true })
  else (true, page)

/-- `Set-ACC` -/
def accPart (attr : Attr) (page : Page) : Page :=
  if attr &&& 16 ≠ 0 then { page with attr := page.attr &&& 0x0f ||| attr &&& 0xf0 } else page

/-- The protection for `mprotect_mapping`, which fails at an address inside a page.  Then
`com` leaves dosemu. -/
def protPart (aligned : Bool) (attr old : Attr) (page : Page) :
    Except Abort (Bool × Page × Option Prot) :=
  if page.change = false then .ok (true, page, none)
  else if comBit attr old then
    if aligned then .ok (true, page, some (if attr &&& 8 ≠ 0 then .readWrite else .readOnly))
    else .error .leavedos
  else if aligned then .ok (true, page, some .noAccess)
  else .ok (false, page, none)

/-- `SetAttribsForPage`, with the protection that the page is given, if any.  After a
`return 0` the attribute word keeps what was done to it. -/
def setAttribsForPage (aligned : Bool) (attr old : Attr) (allocd : Nat) :
    Except Abort (Bool × Page × Option Prot) :=
  match comPart cfg attr old allocd with
  | .error abort => .error abort
  | .ok (false, page) => .ok (false, page, none)
  | .ok (true, page) =>
    match rwPart attr old page with
    | (false, page) => .ok (false, page, none)
    | (true, page) =>
      match nxPart attr old page with
      | (false, page) => .ok (false, page, none)
      | (true, page) => protPart aligned attr old (accPart attr page)

/-- The attribute words of a block, `mem_allocd` and the protections -/
structure Pages where
  attrs : List Attr
  allocd : Nat
  prot : Nat → Prot

/-- Page `k` of the block at `base` is done. -/
def Pages.put (base k : Nat) (p : Pages) (page : Page) (access : Option Prot) : Pages where
  attrs := p.attrs.set k page.attr
  allocd := page.allocd
  prot := match access with
    | some access => protect p.prot (base + k * pageSize) pageSize access
    | none => p.prot

/-- `SetPageAttributes` for the words that are left, from page `k` of the block on -/
def setPages (base : Nat) (aligned : Bool) : List Attr → Nat → Pages → Except Abort (Bool × Pages)
  | [], _, p => .ok (true, p)
  | attr :: rest, k, p =>
    match p.attrs[k]? with
    | none => .error .array
    | some old =>
      if old = attr then setPages base aligned rest (k + 1) p
      else if old &&& 4 ≠ 0 ∧ attr &&& 7 ≠ 3 then .ok (false, p)
      else
        match setAttribsForPage cfg aligned attr old p.allocd with
        | .error abort => .error abort
        | .ok (true, page, access) =>
          setPages base aligned rest (k + 1) (p.put base k page access)
        | .ok (false, page, access) => .ok (false, p.put base k page access)

/-- `DPMI_SetPageAttributes`, with `offs` as the unsigned number that it is divided as -/
def dpmiSetPageAttributes (root handle offs : Nat) (attrs : List Attr) :
    Except Abort (Bool × State) :=
  match s.lookup root handle with
  | none => .ok (false, s)
  | some b =>
    if b.linear = false ∧ cfg.noNullChecks = true ∧ offs = 0 ∧ attrs.length = 1 then
      .ok (false, s)
    else
      (setPages cfg b.base (offs % pageSize = 0) attrs (offs / pageSize)
        ⟨b.attrs, s.memAllocd, s.prot⟩).map
        fun (ok, p) => (ok, { s with
          blocks := s.modify root handle fun _ => b.withAttrs p.attrs
          memAllocd := p.allocd
          prot := p.prot })

/-- `DPMI_MapConventionalMemory` and `DPMI_MapDevice`, which differ in what the pages are
aliases of; `mapped` is whether `alias_mapping` worked. -/
def dpmiMap (root handle offset cnt : Nat) (mapped : Bool) : Except Abort (Int × State) :=
  match s.lookup root handle with
  | none => .ok (-2, s)
  | some b =>
    if mapped = false then .ok (-1, s)
    else if b.attrs.length < offset / pageSize + cnt then .error .array
    else
      let k := offset / pageSize
      .ok (0, { s with
        blocks := s.modify root handle fun _ => b.withAttrs
          (b.attrs.take k ++ ((b.attrs.drop k).take cnt).map (fun a => a &&& ~~~3 ||| 2) ++
            b.attrs.drop (k + cnt))
        prot := protect s.prot (b.base + offset) (cnt * pageSize) .readWrite })

/-! ## Calls -/

end State

/-- The calls, with the answers of the pools and of the mappings -/
inductive Call where
  | malloc (root size : Nat) (answer : Option Nat)
  | mallocLinear (root base size : Nat) (committed : Bool) (answer : Option Nat)
  | mapHWRam (root size : Nat) (vbase : Option Nat)
  | unmapHWRam (root vbase : Nat)
  | free (root handle : Nat)
  | realloc (root handle newsize : Nat) (answer : Option Nat)
  | reallocLinear (root handle newsize : Nat) (committed : Bool) (answer : Option Nat)
  | setPageAttributes (root handle offs : Nat) (attrs : List Attr)
  | map (root handle offset cnt : Nat) (mapped : Bool)

/-- A block or NULL, a status, or whether all pages were done -/
inductive Ret where
  | block (b : Option PmBlock)
  | status (r : Int)
  | done (ok : Bool)

namespace State

variable (cfg : Config) (s : State)

/-- One call -/
def exec : Call → Except Abort (Ret × State)
  | .malloc root size answer =>
    (s.dpmiMalloc cfg root size answer).map (Prod.map Ret.block id)
  | .mallocLinear root base size committed answer =>
    (s.dpmiMallocLinear cfg root base size committed answer).map (Prod.map Ret.block id)
  | .mapHWRam root size vbase => (s.dpmiMapHWRam root size vbase).map (Prod.map Ret.block id)
  | .unmapHWRam root vbase => .ok (Prod.map Ret.status id (s.dpmiUnmapHWRam root vbase))
  | .free root handle => (s.dpmiFree root handle).map (Prod.map Ret.status id)
  | .realloc root handle newsize answer =>
    (s.dpmiRealloc cfg root handle newsize answer).map (Prod.map Ret.block id)
  | .reallocLinear root handle newsize committed answer =>
    (s.dpmiReallocLinear cfg root handle newsize committed answer).map (Prod.map Ret.block id)
  | .setPageAttributes root handle offs attrs =>
    (s.dpmiSetPageAttributes cfg root handle offs attrs).map (Prod.map Ret.done id)
  | .map root handle offset cnt mapped =>
    (s.dpmiMap root handle offset cnt mapped).map (Prod.map Ret.status id)

/-- The state behind a call that returns -/
def step (s : State) (c : Call) : Option State :=
  match s.exec cfg c with
  | .ok (_, s') => some s'
  | .error _ => none

/-! ## What the calls come to -/

section Cases

variable {cfg : Config} {s : State}

theorem dpmiMalloc_cases (cfg : Config) (s : State) (root size : Nat) (answer : Option Nat) :
    s.dpmiMalloc cfg root size answer = .ok (none, s) ∨
      s.dpmiMalloc cfg root size answer = .error .blockSize ∨
      (pageAlign size ≤ (cfg.total + 2 ^ 32 - s.memAllocd + reserved) % 2 ^ 32 ∧
        pageSize ≤ pageAlign size ∧ answer ≠ some 0 ∧
        s.dpmiMalloc cfg root size answer =
          .ok (some (s.mallocBlock root (pageAlign size) (answer.getD badAddr)),
            s.malloced root (pageAlign size) answer)) := by
  unfold dpmiMalloc
  dsimp only
  by_cases hquota : (cfg.total + 2 ^ 32 - s.memAllocd + reserved) % 2 ^ 32 < pageAlign size
  · rw [if_pos hquota]
    exact .inl rfl
  · rw [if_neg hquota]
    by_cases hsize : pageAlign size < pageSize
    · rw [if_pos hsize]
      exact .inr (.inl rfl)
    · rw [if_neg hsize]
      by_cases hzero : answer = some 0
      · rw [if_pos hzero]
        exact .inl rfl
      · rw [if_neg hzero]
        exact .inr (.inr ⟨Nat.not_lt.mp hquota, Nat.not_lt.mp hsize, hzero, rfl⟩)

theorem dpmiMallocLinear_cases (cfg : Config) (s : State) (root base size : Nat)
    (committed : Bool) (answer : Option Nat) :
    s.dpmiMallocLinear cfg root base size committed answer = .ok (none, s) ∨
      s.dpmiMallocLinear cfg root base size committed answer = .error .blockSize ∨
      ∃ realbase, answer = some realbase ∧ pageSize ≤ pageAlign size ∧
        (committed = true → pageAlign size ≤ freeMemory cfg s.memAllocd) ∧
        s.dpmiMallocLinear cfg root base size committed answer =
          .ok (some (s.linearBlock root realbase (pageAlign size) committed),
            s.mallocedLinear root realbase (pageAlign size) committed) := by
  unfold dpmiMallocLinear
  dsimp only
  by_cases hbad : base = badAddr
  · rw [if_pos hbad]
    exact .inl rfl
  · rw [if_neg hbad]
    by_cases hrange : base ≠ 0 ∧
        (base < cfg.linBase ∨ cfg.linBase + cfg.linSize < base + pageAlign size)
    · rw [if_pos hrange]
      exact .inl rfl
    · rw [if_neg hrange]
      by_cases hquota : committed = true ∧ freeMemory cfg s.memAllocd < pageAlign size
      · rw [if_pos hquota]
        exact .inl rfl
      · rw [if_neg hquota]
        by_cases hsize : pageAlign size < pageSize
        · rw [if_pos hsize]
          exact .inr (.inl rfl)
        · rw [if_neg hsize]
          cases answer with
          | none => exact .inl rfl
          | some realbase =>
            refine .inr (.inr ⟨realbase, rfl, Nat.not_lt.mp hsize, ?_, rfl⟩)
            intro hcommitted
            exact Nat.not_lt.mp fun hlt => hquota ⟨hcommitted, hlt⟩

/-- A resizing gets as far as the pool, for the block `b`. -/
structure Asks (cfg : Config) (s : State) (root handle newsize : Nat) (committed : Bool)
    (b : PmBlock) : Prop where
  found : s.lookup root handle = some b
  pos : newsize ≠ 0
  other : pageAlign newsize ≠ b.size
  quota : b.size < pageAlign newsize → committed = true →
    pageAlign newsize - b.size ≤ freeMemory cfg s.memAllocd

theorem dpmiReallocLinear_cases (cfg : Config) (s : State) (root handle newsize : Nat)
    (committed : Bool) (answer : Option Nat) :
    (∃ r, s.dpmiReallocLinear cfg root handle newsize committed answer = .ok (r, s) ∧
        ∀ b, r = some b → s.lookup root handle = some b ∧ b.linear = true ∧
          pageAlign newsize = b.size) ∨
      ∃ b, Asks cfg s root handle newsize committed b ∧ b.linear = true ∧
        (answer = none ∧ s.dpmiReallocLinear cfg root handle newsize committed answer =
            .ok (none, s.refused b (pageAlign newsize)) ∨
          ∃ ptr, answer = some ptr ∧
            s.dpmiReallocLinear cfg root handle newsize committed answer =
              s.finishRealloc root handle b (pageAlign newsize) committed (some ptr)) := by
  unfold dpmiReallocLinear
  by_cases hzero : newsize = 0
  · rw [if_pos hzero]
    exact .inl ⟨none, rfl, nofun⟩
  · rw [if_neg hzero]
    cases hfound : s.lookup root handle with
    | none => exact .inl ⟨none, rfl, nofun⟩
    | some b =>
      dsimp only
      by_cases hlinear : b.linear = false
      · rw [if_pos hlinear]
        exact .inl ⟨none, rfl, nofun⟩
      · rw [if_neg hlinear]
        rw [Bool.not_eq_false] at hlinear
        by_cases hsame : pageAlign newsize = b.size
        · rw [if_pos hsame]
          refine .inl ⟨some b, rfl, ?_⟩
          rintro b' hb'
          cases hb'
          exact ⟨rfl, hlinear, hsame⟩
        · rw [if_neg hsame]
          by_cases hquota : b.size < pageAlign newsize ∧ committed = true ∧
              freeMemory cfg s.memAllocd < pageAlign newsize - b.size
          · rw [if_pos hquota]
            exact .inl ⟨none, rfl, nofun⟩
          · rw [if_neg hquota]
            refine .inr ⟨b, ⟨hfound, hzero, hsame, ?_⟩, hlinear, ?_⟩
            · intro hgrow hcommitted
              exact Nat.not_lt.mp fun hlt => hquota ⟨hgrow, hcommitted, hlt⟩
            · cases answer with
              | none => exact .inl ⟨rfl, rfl⟩
              | some ptr => exact .inr ⟨ptr, rfl, rfl⟩

theorem dpmiRealloc_cases (cfg : Config) (s : State) (root handle newsize : Nat)
    (answer : Option Nat) :
    (∃ r, s.dpmiRealloc cfg root handle newsize answer = .ok (r, s) ∧
        ∀ b, r = some b → s.lookup root handle = some b ∧ pageAlign newsize = b.size) ∨
      ∃ b, Asks cfg s root handle newsize true b ∧
        (b.linear = true ∧ answer = none ∧ s.dpmiRealloc cfg root handle newsize answer =
            .ok (none, s.refused b (pageAlign newsize)) ∨
          b.linear = false ∧ answer = some 0 ∧ s.dpmiRealloc cfg root handle newsize answer =
            .ok (none, { s with prot := protect s.prot b.base b.size .readWrite }) ∨
          (b.linear = true → answer ≠ none) ∧ (b.linear = false → answer ≠ some 0) ∧
            s.dpmiRealloc cfg root handle newsize answer =
              s.finishRealloc root handle b (pageAlign newsize) true answer) := by
  unfold dpmiRealloc
  by_cases hzero : newsize = 0
  · rw [if_pos hzero]
    exact .inl ⟨none, rfl, nofun⟩
  · rw [if_neg hzero]
    cases hfound : s.lookup root handle with
    | none => exact .inl ⟨none, rfl, nofun⟩
    | some b =>
      dsimp only
      by_cases hlinear : b.linear = true
      · rw [if_pos hlinear]
        rcases dpmiReallocLinear_cases cfg s root handle newsize true answer with
          ⟨r, hr, hsame⟩ | ⟨b', hasks, hlinear', h⟩
        · refine .inl ⟨r, hr, ?_⟩
          intro b' hb'
          obtain ⟨hfound', -, hsize⟩ := hsame b' hb'
          exact ⟨hfound.symm.trans hfound', hsize⟩
        · have heq : b' = b := Option.some.inj (hasks.found.symm.trans hfound)
          subst heq
          refine .inr ⟨b', hasks, ?_⟩
          rcases h with ⟨hnone, h⟩ | ⟨ptr, hptr, h⟩
          · exact .inl ⟨hlinear, hnone, h⟩
          · refine .inr (.inr ⟨?_, ?_, ?_⟩)
            · intro _
              rw [hptr]
              nofun
            · intro hfalse
              rw [hlinear] at hfalse
              cases hfalse
            · rw [h, hptr]
      · rw [if_neg hlinear]
        rw [Bool.not_eq_true] at hlinear
        by_cases hsame : pageAlign newsize = b.size
        · rw [if_pos hsame]
          refine .inl ⟨some b, rfl, ?_⟩
          rintro b' hb'
          cases hb'
          exact ⟨rfl, hsame⟩
        · rw [if_neg hsame]
          by_cases hquota : b.size < pageAlign newsize ∧
              freeMemory cfg s.memAllocd < pageAlign newsize - b.size
          · rw [if_pos hquota]
            exact .inl ⟨none, rfl, nofun⟩
          · rw [if_neg hquota]
            refine .inr ⟨b, ⟨hfound, hzero, hsame, ?_⟩, ?_⟩
            · intro hgrow _
              exact Nat.not_lt.mp fun hlt => hquota ⟨hgrow, hlt⟩
            · by_cases hanswer : answer = some 0
              · rw [if_pos hanswer]
                exact .inr (.inl ⟨hlinear, hanswer, rfl⟩)
              · rw [if_neg hanswer]
                refine .inr (.inr ⟨?_, fun _ => hanswer, rfl⟩)
                intro htrue
                rw [hlinear] at htrue
                cases htrue

end Cases

/-! ## Pages of a call -/

section Words

variable {cfg : Config} {base : Nat} {aligned : Bool}

/-- A list of attribute words over the pages `olds`, as far as the call gets: no word is behind
the last page, and `P` holds of each word that is not the old one. -/
def PagesOk (cfg : Config) (aligned : Bool) (P : Attr → Attr → Prop) :
    List Attr → List Attr → Nat → Prop
  | [], _, _ => True
  | _ :: _, [], _ => False
  | attr :: rest, old :: olds, allocd =>
    if old = attr then PagesOk cfg aligned P rest olds allocd
    else if old &&& 4 ≠ 0 ∧ attr &&& 7 ≠ 3 then True
    else P attr old ∧ ∀ page access, setAttribsForPage cfg aligned attr old allocd =
      .ok (true, page, access) → PagesOk cfg aligned P rest olds page.allocd

/-- What each page keeps, the loop keeps; `E` is how a page can fail. -/
theorem setPages_rule {P : Attr → Attr → Prop} {R : Pages → Prop} {E : Abort → Prop}
    (herror : ∀ (k : Nat) (p : Pages) (attr old : Attr), R p → p.attrs[k]? = some old →
      P attr old → ∀ abort, setAttribsForPage cfg aligned attr old p.allocd = .error abort →
        E abort)
    (hput : ∀ (k : Nat) (p : Pages) (attr old : Attr), R p → p.attrs[k]? = some old →
      P attr old → ∀ goes page access,
        setAttribsForPage cfg aligned attr old p.allocd = .ok (goes, page, access) →
        R (p.put base k page access))
    {words : List Attr} {k : Nat} {p : Pages}
    (hok : PagesOk cfg aligned P words (p.attrs.drop k) p.allocd) (hp : R p) :
    (∀ abort, setPages cfg base aligned words k p = .error abort → E abort) ∧
      ∀ ok p', setPages cfg base aligned words k p = .ok (ok, p') → R p' := by
  induction words generalizing k p with
  | nil =>
    refine ⟨nofun, ?_⟩
    intro ok p' h
    cases h
    exact hp
  | cons attr rest ih =>
    cases hdrop : p.attrs.drop k with
    | nil =>
      rw [hdrop] at hok
      exact hok.elim
    | cons old olds =>
      have hold : p.attrs[k]? = some old := by
        rw [← List.head?_drop, hdrop]
        rfl
      have hrest : olds = p.attrs.drop (k + 1) := by
        rw [← List.tail_drop, hdrop]
        rfl
      rw [hdrop] at hok
      unfold PagesOk at hok
      unfold setPages
      rw [hold]
      dsimp only
      by_cases hsame : old = attr
      · rw [if_pos hsame] at hok ⊢
        rw [hrest] at hok
        exact ih hok hp
      · rw [if_neg hsame] at hok ⊢
        by_cases hshared : old &&& 4 ≠ 0 ∧ attr &&& 7 ≠ 3
        · rw [if_pos hshared]
          refine ⟨nofun, ?_⟩
          intro ok p' h
          cases h
          exact hp
        · rw [if_neg hshared] at hok ⊢
          obtain ⟨hP, hnext⟩ := hok
          rcases hset : setAttribsForPage cfg aligned attr old p.allocd with
            abort | ⟨_ | _, page, access⟩
          · refine ⟨?_, nofun⟩
            intro abort' h
            cases h
            exact herror k p attr old hp hold hP abort hset
          · refine ⟨nofun, ?_⟩
            intro ok p' h
            cases h
            exact hput k p attr old hp hold hP false page access hset
          · have hok' := hnext page access hset
            rw [hrest] at hok'
            refine ih ?_ (hput k p attr old hp hold hP true page access hset)
            have hdrop' : (p.attrs.set k page.attr).drop (k + 1) = p.attrs.drop (k + 1) :=
              List.drop_set_of_lt (Nat.lt_succ_self k)
            change PagesOk cfg aligned P rest ((p.attrs.set k page.attr).drop (k + 1)) page.allocd
            rw [hdrop']
            exact hok'

end Words

/-- What holds of a result holds of it as a `Ret`. -/
theorem map_result {α : Type*} {x : Except Abort (α × State)} (g : α → Ret) {E : Abort → Prop}
    {B : State → Prop} (herror : ∀ abort, x = .error abort → E abort)
    (hok : ∀ r s', x = .ok (r, s') → B s') :
    (∀ abort, x.map (Prod.map g id) = .error abort → E abort) ∧
      ∀ r s', x.map (Prod.map g id) = .ok (r, s') → B s' := by
  rcases x with abort | ⟨r, s'⟩
  · refine ⟨?_, nofun⟩
    intro abort' h
    cases h
    exact herror abort rfl
  · refine ⟨nofun, ?_⟩
    intro r' s'' h
    cases h
    exact hok r s' rfl

theorem step_eq_some {cfg : Config} {s s' : State} {c : Call} (h : s.step cfg c = some s') :
    ∃ r, s.exec cfg c = .ok (r, s') := by
  unfold step at h
  split at h
  next r t hexec =>
    cases h
    exact ⟨r, hexec⟩
  next => cases h

end State

end PmMemory
end Dpmi
end Dosemu
