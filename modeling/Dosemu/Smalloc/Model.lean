import Dosemu.Lib.Page
import Dosemu.Lib.Zipper
import Dosemu.Lib.Outcome

/-!
# The small memory allocator

`src/base/lib/misc/smalloc.c`: a pool is a singly linked list of areas, each
used or free, kept in address order.  A `struct memnode *` is modelled by a
cursor into the list, `size_t` is a word of 64 bits, `dosaddr_t` one of 32 and
`int` one of 32 signed bits; a failed `assert` aborts the call and is `none`.

What a call does outside the node list (the commit and uncommit callbacks, the
copies and clears of pool memory, the error notifier) is recorded in a log,
each entry with the node list at that moment.  The answer of the commit
callback may depend on everything logged so far.

Main definitions:

- `mntruncate`: grows, shrinks, splits or deletes the neighbour of a node.
- `smAllocFixed`, `smAllocAligned`, `smAllocAlignedTopdown`: the three ways to
  place a block.
- `smfree`, `smrealloc`, `smfreeAll`: the rest of the interface.
- `SmCall` and `step`: one call of the interface as a transition of the pool.
-/

namespace Dosemu
namespace Smalloc

open MachineInt

/-! ## Data -/

/-- `struct memnode`, without its link. -/
structure MemNode where
  size : Nat
  used : Bool
  memArea : Nat
deriving DecidableEq, Repr

/-- `struct mempool`: `nodes` is the list that starts at the embedded `mn`;
the callbacks are modelled by whether they are set. -/
structure MemPool where
  size : Nat
  avail : Nat
  flags : Nat
  nodes : List MemNode
  commit : Bool
  uncommit : Bool
deriving DecidableEq, Repr

/-- `SMFLG_NOMEMSET`. -/
def smflgNomemset : Nat := 1

/-- `(dosaddr_t)-1`. -/
def badAddr : Nat := 0xffffffff

/-- The messages handed to the error notifier, with their arguments. -/
inductive SmMsg
  | failedToCommit (addr size : Nat)
  | unusedPool
  | zeroSized
  | invalidAddress (ptr : Nat)
  | alreadyAllocated (ptr : Nat)
  | noSpaceAt (size ptr : Nat)
  | outOfMemoryOnAlloc (size : Nat)
  | outOfMemoryOnRealloc (size : Nat)
  | badPointerFree
  | doubleFree
  | badPointerRealloc
  | reallocNotAllocated
  | unalignedPointerRealloc
deriving DecidableEq, Repr

/-- What a call does outside the node list. -/
inductive SmEvent
  | commit (addr size : Nat) (ok : Bool)
  | uncommit (addr size : Nat)
  | memset (addr size : Nat)
  | memmove (dst src size : Nat)
  | memcpy (dst src size : Nat)
  | smerr (msg : SmMsg)
  | dump (prio : Int) (msg : SmMsg)
deriving DecidableEq, Repr

/-- A log entry: the event and the node list it was raised over. -/
structure SmEntry where
  event : SmEvent
  nodes : List MemNode
deriving DecidableEq, Repr

/-- A pool together with its log. -/
structure SmState where
  mp : MemPool
  log : List SmEntry
deriving DecidableEq, Repr

/-- The commit callback: its answer for `(area, size)` after a given history. -/
abbrev CommitFn := List SmEntry → Nat → Nat → Bool

namespace SmState

/-- Append an event to the log. -/
def emit (s : SmState) (e : SmEvent) : SmState :=
  { s with log := s.log ++ [⟨e, s.mp.nodes⟩] }

/-- Replace the node list. -/
def setNodes (s : SmState) (nodes : List MemNode) : SmState :=
  { s with mp := { s.mp with nodes := nodes } }

/-- Replace the free-space counter. -/
def setAvail (s : SmState) (avail : Nat) : SmState :=
  { s with mp := { s.mp with avail := avail } }

/-- The `smerror` macro: notify at priority 3. -/
def smerror (s : SmState) (msg : SmMsg) : SmState :=
  s.emit (.smerr msg)

end SmState

/-! ## Reports -/

/-- `smget_largest_free_area`. -/
def smgetLargestFreeArea (nodes : List MemNode) : Nat :=
  nodes.foldl (fun size mn => if !mn.used && decide (size < mn.size) then mn.size else size) 0

/-- `get_oom_pr`. -/
def getOomPr (mp : MemPool) (size : Nat) : Int :=
  if size ≤ smgetLargestFreeArea mp.nodes then -1
  else if mp.size < size then 2
  else if mp.avail < size then 1
  else 0

/-- `oom_pr`. -/
def oomPr (mp : MemPool) (size : Nat) : Int :=
  if getOomPr mp size < 0 then 0 else getOomPr mp size

/-- `do_smerror`: reports the message with a dump of the pool. -/
def doSmerror (s : SmState) (prio : Int) (msg : SmMsg) : Option SmState := do
  cAssert (prio ≠ -1)
  return s.emit (.dump prio msg)

/-! ## Commit and uncommit -/

/-- `sm_uncommit`. -/
def smUncommit (s : SmState) (addr combSize : Nat) : SmState :=
  let aa := pageAlign32 addr
  let alignedSize := uwrap 64 (combSize - uwrap 32 (aa - addr)) &&& (2 ^ 64 - 2 ^ 12)
  if !s.mp.uncommit || alignedSize = 0 then s
  else s.emit (.uncommit aa alignedSize)

/-- `__sm_commit`. -/
def smCommitRange (com : CommitFn) (s : SmState) (addr size eAddr eSize : Nat) :
    Bool × SmState :=
  if !s.mp.commit then (true, s)
  else if com s.log addr size then (true, s.emit (.commit addr size true))
  else
    let s := (s.emit (.commit addr size false)).smerror (.failedToCommit addr size)
    if eSize ≠ 0 then
      (false, smUncommit (s.setAvail (uwrap 64 (s.mp.avail + eSize))) eAddr eSize)
    else (false, s)

/-- `sm_commit`: rounds outwards to pages and takes the space from `avail`. -/
def smCommit (com : CommitFn) (s : SmState) (addr size eAddr eSize : Nat) :
    Option (Bool × SmState) := do
  let aa : Nat := addr &&& (2 ^ 32 - 2 ^ 12)
  let alignedSize := pageAlign64 (uwrap 64 (size + (addr - aa)))
  let (ok, s) := smCommitRange com s aa alignedSize eAddr eSize
  if ok then
    cAssert (size ≤ s.mp.avail)
    return (true, s.setAvail (s.mp.avail - size))
  else
    return (false, s)

/-- `sm_commit_simple`. -/
def smCommitSimple (com : CommitFn) (s : SmState) (addr size : Nat) :
    Option (Bool × SmState) :=
  smCommit com s addr size badAddr 0

/-! ## The node list -/

/-- `POOL_USED`. -/
def poolUsed : List MemNode → Bool
  | [] => false
  | mn :: next => mn.used || !next.isEmpty

/-- `!mn->next || mn->next->used`, on the list after `mn`. -/
def nextUsed : List MemNode → Bool
  | [] => true
  | nmn :: _ => nmn.used

/-- The size of the area after a node, counted only when it is free. -/
def nextFree : List MemNode → Nat
  | [] => 0
  | nmn :: _ => if nmn.used then 0 else nmn.size

/-- `mntruncate`: give the node `size` bytes; the difference goes to, or comes
from, the area after it. -/
def mntruncate (pmn : MemNode) (next : List MemNode) (size : Nat) :
    Option (MemNode × List MemNode) :=
  let delta := swrap 32 (pmn.size - size)
  -- no free area follows: the part cut off becomes one
  let split : Option (MemNode × List MemNode) := do
    cAssert (size < pmn.size)
    return ({ pmn with size := size },
      { size := uwrap 64 delta, used := false, memArea := uwrap 32 (pmn.memArea + size) } :: next)
  if delta = 0 then some (pmn, next)
  else
    match next with
    | [] => split
    | nmn :: rest =>
        if nmn.used then split
        else do
          -- `nmn->size + delta >= 0` is an unsigned comparison and always holds
          cAssert (0 < size)
          let nsize := uwrap 64 (nmn.size + delta)
          let pmn' := { pmn with size := uwrap 64 (pmn.size - delta) }
          if nsize = 0 then
            cAssert (nextUsed rest)
            return (pmn', rest)
          else
            return (pmn', { nmn with
              size := nsize, memArea := uwrap 32 (nmn.memArea - delta) } :: rest)

/-- `find_mn`: the node that starts at `ptr`. -/
def findMn (s : SmState) (ptr : Nat) : SmState × Option (Zipper MemNode) :=
  if !poolUsed s.mp.nodes then (s.smerror .unusedPool, none)
  else
    (s, Zipper.scan (fun mn => decide (ptr < mn.memArea)) (fun mn => decide (mn.memArea = ptr))
      [] s.mp.nodes)

/-- `find_mn_at`: the node that holds the address `ptr`. -/
def findMnAt (nodes : List MemNode) (ptr : Nat) : Option (Zipper MemNode) :=
  Zipper.scan (fun mn => decide (ptr < mn.memArea))
    (fun mn => decide (ptr < mn.memArea + mn.size)) [] nodes

/-- `smfind_free_area`: the first free area that passes the size test; `align`
is a mask. -/
def smfindFreeArea (nodes : List MemNode) (align size : Nat) : Option (Zipper MemNode) :=
  Zipper.scan (fun _ => false)
    (fun mn => !mn.used && decide (uwrap 64 (size + alignPad mn.memArea align) ≤ mn.size))
    [] nodes

/-- The end of an area as a `dosaddr_t`, capped by the ceiling `top`. -/
def minTop (mn : MemNode) (top : Nat) : Nat :=
  if top ≠ badAddr then min (uwrap 32 (mn.memArea + mn.size)) top
  else uwrap 32 (mn.memArea + mn.size)

/-- `(min_top - size) & ~align`. -/
def topdownPtr (mn : MemNode) (top align size : Nat) : Nat :=
  uwrap 64 (minTop mn top - size) &&& (2 ^ 64 - 1 - align)

/-- `smfind_free_area_topdown`: the last free area in which a block of the
size still fits under the ceiling. -/
def smfindFreeAreaTopdown (nodes : List MemNode) (top align size : Nat) :
    Option (Zipper MemNode) :=
  Zipper.scanLast
    (fun mn => decide (top ≠ badAddr) && decide (top < uwrap 64 (mn.memArea + size)))
    (fun mn => !mn.used && decide (size ≤ mn.size) && decide (size ≤ minTop mn top) &&
      decide (mn.memArea ≤ topdownPtr mn top align size))
    none [] nodes

/-! ## Allocation -/

/-- `mntruncate(mn, delta); mn = mn->next` and the assert after it: cut
`delta` bytes off the front of a free area. -/
def skipFront (z : Zipper MemNode) (delta size : Nat) : Option (Zipper MemNode) := do
  let (mn, next) ← mntruncate z.focus z.after delta
  match next with
  | [] => none
  | nmn :: rest =>
      cAssert (nmn.used = false ∧ size ≤ nmn.size)
      return ⟨mn :: z.before, nmn, rest⟩

/-- `if (!(mp->flags & SMFLG_NOMEMSET)) MEMSET_DOS(addr, 0, size)`. -/
def cleared (s : SmState) (addr size : Nat) : SmState :=
  if s.mp.flags &&& smflgNomemset = 0 then s.emit (.memset addr size) else s

/-- The common end of the three allocators: commit the block at the start of
the area under the cursor, mark it used and give the rest back. -/
def takeArea (com : CommitFn) (s : SmState) (z : Zipper MemNode) (size : Nat) :
    Option (Option MemNode × SmState) := do
  let (ok, s) ← smCommitSimple com (s.setNodes z.toList) z.focus.memArea size
  if !ok then return (none, s)
  let (mn, next) ← mntruncate { z.focus with used := true } z.after size
  cAssert (mn.size = size)
  return (some mn, cleared (s.setNodes (Zipper.toList ⟨z.before, mn, next⟩)) mn.memArea size)

/-- `sm_alloc_fixed`. -/
def smAllocFixed (com : CommitFn) (s : SmState) (ptr size : Nat) :
    Option (Option MemNode × SmState) := do
  if size = 0 ∨ ptr = 0 then return (none, s.smerror .zeroSized)
  match findMnAt s.mp.nodes ptr with
  | none => return (none, s.smerror (.invalidAddress ptr))
  | some z =>
      if z.focus.used then
        let s ← doSmerror s 0 (.alreadyAllocated ptr)
        return (none, s)
      let delta := uwrap 32 (ptr - z.focus.memArea)
      if z.focus.size < uwrap 64 (size + delta) then
        let s ← doSmerror s (oomPr s.mp size) (.noSpaceAt size ptr)
        return (none, s)
      let z ← if delta ≠ 0 then skipFront z delta size else some z
      takeArea com s z size

/-- `sm_alloc_aligned`. -/
def smAllocAligned (com : CommitFn) (s : SmState) (align size : Nat) :
    Option (Option MemNode × SmState) := do
  if size = 0 then return (none, s.smerror .zeroSized)
  -- `__builtin_popcount` takes an `unsigned int`
  cAssert (popcount 32 align = 1)
  let align := align - 1
  match smfindFreeArea s.mp.nodes align size with
  | none =>
      let s ← doSmerror s (oomPr s.mp size) (.outOfMemoryOnAlloc size)
      return (none, s)
  | some z =>
      let delta := swrap 32 (alignPad z.focus.memArea align)
      let z ← if delta ≠ 0 then skipFront z (uwrap 64 delta) size else some z
      takeArea com s z size

/-- `sm_alloc_mn`. -/
def smAllocMn (com : CommitFn) (s : SmState) (size : Nat) : Option (Option MemNode × SmState) :=
  smAllocAligned com s 1 size

/-- The part of `sm_alloc_aligned_topdown` that cuts an area down to the block
at `iptr`, first from its end and then from its front. -/
def cutTopdown (z : Zipper MemNode) (iptr size : Nat) : Option (Zipper MemNode) := do
  let iend := uwrap 32 (iptr + size)
  let delta := swrap 32 (uwrap 64 (z.focus.memArea + z.focus.size - iend))
  let (mn, next) ←
    if delta ≠ 0 then mntruncate z.focus z.after (uwrap 64 (z.focus.size - delta))
    else some (z.focus, z.after)
  cAssert (mn.memArea ≤ iptr)
  let delta := swrap 32 (uwrap 32 (iptr - mn.memArea))
  let z : Zipper MemNode := ⟨z.before, mn, next⟩
  if delta ≠ 0 then skipFront z (uwrap 64 delta) size else some z

/-- `sm_alloc_aligned_topdown`. -/
def smAllocAlignedTopdown (com : CommitFn) (s : SmState) (top align size : Nat) :
    Option (Option MemNode × SmState) := do
  if size = 0 then return (none, s.smerror .zeroSized)
  cAssert (popcount 32 align = 1)
  let align := align - 1
  match smfindFreeAreaTopdown s.mp.nodes top align size with
  | none =>
      let s ← doSmerror s (oomPr s.mp size) (.outOfMemoryOnAlloc size)
      return (none, s)
  | some z =>
      let z ← cutTopdown z (uwrap 32 (topdownPtr z.focus top align size)) size
      takeArea com s z size

/-- `sm_alloc_topdown`. -/
def smAllocTopdown (com : CommitFn) (s : SmState) (size : Nat) :
    Option (Option MemNode × SmState) :=
  smAllocAlignedTopdown com s badAddr 1 size

/-- The address an allocation returns: `(dosaddr_t)-1` for `NULL`. -/
def areaOr : Option MemNode → Nat
  | none => badAddr
  | some mn => mn.memArea

/-- `smalloc`. -/
def smalloc (com : CommitFn) (s : SmState) (size : Nat) : Option (Nat × SmState) := do
  let (mn, s) ← smAllocMn com s size
  return (areaOr mn, s)

/-- `smalloc_fixed`. -/
def smallocFixed (com : CommitFn) (s : SmState) (ptr size : Nat) : Option (Nat × SmState) := do
  let (mn, s) ← smAllocFixed com s ptr size
  cAssert (∀ m ∈ mn, m.memArea = ptr)
  return (areaOr mn, s)

/-- `smalloc_aligned`. -/
def smallocAligned (com : CommitFn) (s : SmState) (align size : Nat) :
    Option (Nat × SmState) := do
  let (mn, s) ← smAllocAligned com s align size
  cAssert (∀ m ∈ mn, m.memArea &&& (align - 1) = 0)
  return (areaOr mn, s)

/-- `smalloc_topdown`. -/
def smallocTopdown (com : CommitFn) (s : SmState) (size : Nat) : Option (Nat × SmState) := do
  let (mn, s) ← smAllocTopdown com s size
  return (areaOr mn, s)

/-- `smalloc_aligned_topdown`. -/
def smallocAlignedTopdown (com : CommitFn) (s : SmState) (top align size : Nat) :
    Option (Nat × SmState) := do
  let (mn, s) ← smAllocAlignedTopdown com s top align size
  cAssert (∀ m ∈ mn, m.memArea &&& (align - 1) = 0)
  return (areaOr mn, s)

/-! ## Free and resize -/

/-- `if (nmn && !nmn->used) mntruncate(mn, mn->size + nmn->size)`. -/
def absorbNext (mn : MemNode) (next : List MemNode) : Option (MemNode × List MemNode) :=
  match next with
  | [] => some (mn, next)
  | nmn :: _ =>
      if nmn.used then some (mn, next)
      else mntruncate mn next (uwrap 64 (mn.size + nmn.size))

/-- Merge the freed node with a free area after it. -/
def mergeNext (mn : MemNode) (next : List MemNode) : Option (MemNode × List MemNode) := do
  cAssert (∀ nmn ∈ next.head?, nmn.used = false → mn.memArea ≤ nmn.memArea)
  absorbNext mn next

/-- Merge the freed node into a free area before it. -/
def mergePrev (z : Zipper MemNode) : Option (Zipper MemNode) :=
  match z.before with
  | [] => some z
  | pmn :: before =>
      if pmn.used then some z
      else do
        cAssert (pmn.memArea ≤ z.focus.memArea)
        let (mn, next) ← mntruncate pmn (z.focus :: z.after) (uwrap 64 (pmn.size + z.focus.size))
        return ⟨before, mn, next⟩

/-- `smfree`. -/
def smfree (s : SmState) (ptr : Nat) : Option (Int × SmState) := do
  if ptr = badAddr then return (-1, s)
  match findMn s ptr with
  | (s, none) => return (-1, s.smerror .badPointerFree)
  | (s, some z) =>
      if !z.focus.used then return (-1, s.smerror .doubleFree)
      cAssert (0 < z.focus.size)
      let s := s.setAvail (uwrap 64 (s.mp.avail + z.focus.size))
      cAssert (s.mp.avail ≤ s.mp.size)
      let (mn, next) ← mergeNext { z.focus with used := false } z.after
      let z ← mergePrev ⟨z.before, mn, next⟩
      cAssert (z.focus.used = false)
      return (0, smUncommit (s.setNodes z.toList) z.focus.memArea z.focus.size)

/-- The part of a move down that follows the commits: copy, give back what is
not needed and divide the nodes anew. -/
def finishMove (s : SmState) (before : List MemNode) (pmn mn : MemNode)
    (next : List MemNode) (size : Nat) : Option (Option MemNode × SmState) := do
  let s := s.setNodes (Zipper.toList ⟨before, { pmn with used := true }, mn :: next⟩)
  let s := s.emit (.memmove pmn.memArea mn.memArea mn.size)
  let s := cleared s (uwrap 32 (pmn.memArea + mn.size)) (size - mn.size)
  let s :=
    if size < pmn.size + mn.size then
      s.setAvail (uwrap 64 (s.mp.avail + (mn.size - (size - pmn.size : Nat) : Nat)))
    else s
  cAssert (size < pmn.size + mn.size → s.mp.avail ≤ s.mp.size)
  let mn := { mn with used := false }
  let (mn, next) ← absorbNext mn next
  let (pmn, next) ← mntruncate { pmn with used := true } (mn :: next) size
  let s := s.setNodes (Zipper.toList ⟨before, pmn, next⟩)
  match next with
  | [] => return (some pmn, s)
  | mn :: _ =>
      if mn.used then return (some pmn, s)
      else return (some pmn, smUncommit s mn.memArea mn.size)

/-- The branch of `sm_realloc_alloc_mn` that moves the block down into the
free area before it; `pmn` is that area. -/
def moveToPrev (com : CommitFn) (s : SmState) (before : List MemNode) (pmn mn : MemNode)
    (next : List MemNode) (size : Nat) : Option (Option MemNode × SmState) := do
  let psize := min size pmn.size
  let (ok, s) ← smCommitSimple com s pmn.memArea psize
  if !ok then return (none, s)
  if pmn.size + mn.size < size then
    match next with
    | [] => none
    | nmn :: _ => do
        let (ok, s) ← smCommit com s nmn.memArea (size - pmn.size - mn.size) pmn.memArea psize
        if !ok then return (none, s)
        finishMove s before pmn mn next size
  else finishMove s before pmn mn next size

/-- The branch of `sm_realloc_alloc_mn` that allocates elsewhere, copies and
frees the old block. -/
def relocate (com : CommitFn) (s : SmState) (mn : MemNode) (size : Nat) :
    Option (Option MemNode × SmState) := do
  match ← smAllocMn com s size with
  | (none, s) =>
      let s ← doSmerror s (oomPr s.mp size) (.outOfMemoryOnRealloc size)
      return (none, s)
  | (some newMn, s) =>
      let s := s.emit (.memcpy newMn.memArea mn.memArea mn.size)
      let (_, s) ← smfree s mn.memArea
      return (some newMn, s)

/-- `sm_realloc_alloc_mn`. -/
def smReallocAllocMn (com : CommitFn) (s : SmState) (z : Zipper MemNode) (size : Nat) :
    Option (Option MemNode × SmState) :=
  match z.before with
  | [] => relocate com s z.focus size
  | pmn :: before =>
      if !pmn.used && decide (size ≤ uwrap 64 (pmn.size + z.focus.size + nextFree z.after)) then
        moveToPrev com s before pmn z.focus z.after size
      else relocate com s z.focus size

/-- The shrinking branch of `smrealloc`. -/
def shrinkMn (s : SmState) (z : Zipper MemNode) (size : Nat) : Option (Nat × SmState) := do
  let s := s.setAvail (uwrap 64 (s.mp.avail + (z.focus.size - size)))
  cAssert (s.mp.avail ≤ s.mp.size)
  let (mn, next) ← mntruncate z.focus z.after size
  let s := s.setNodes (Zipper.toList ⟨z.before, mn, next⟩)
  match next with
  | [] => none
  | nmn :: _ =>
      cAssert (nmn.used = false)
      cAssert (mn.size = size)
      return (mn.memArea, smUncommit s nmn.memArea nmn.size)

/-- The branch of `smrealloc` that grows the block into the free area after
it. -/
def growMn (com : CommitFn) (s : SmState) (z : Zipper MemNode) (size : Nat) :
    Option (Nat × SmState) :=
  match z.after with
  | [] => none
  | nmn :: _ => do
      let (ok, s) ← smCommitSimple com s nmn.memArea (size - z.focus.size)
      if !ok then return (badAddr, s)
      let s := cleared s nmn.memArea (size - z.focus.size)
      let (mn, next) ← mntruncate z.focus z.after size
      cAssert (mn.size = size)
      return (mn.memArea, s.setNodes (Zipper.toList ⟨z.before, mn, next⟩))

/-- `smrealloc`. -/
def smrealloc (com : CommitFn) (s : SmState) (ptr size : Nat) : Option (Nat × SmState) := do
  if ptr = 0 then smalloc com s size
  else
    match findMn s ptr with
    | (s, none) => return (badAddr, s.smerror .badPointerRealloc)
    | (s, some z) =>
        if !z.focus.used then return (badAddr, s.smerror .reallocNotAllocated)
        if size = 0 then
          let (_, s) ← smfree s ptr
          return (badAddr, s)
        if size = z.focus.size then return (ptr, s)
        if size < z.focus.size then shrinkMn s z size
        else if nextUsed z.after = false ∧ size ≤ uwrap 64 (z.focus.size + nextFree z.after) then
          growMn com s z size
        else
          let (mn, s) ← smReallocAllocMn com s z size
          match mn with
          | none => return (badAddr, s)
          | some mn =>
              cAssert (mn.size = size)
              return (mn.memArea, s)

/-- The number of used nodes. -/
def usedCount (nodes : List MemNode) : Nat :=
  nodes.countP fun mn => mn.used

/-- `mn = &mp->mn; if (!mn->used) mn = mn->next`. -/
def pickMn : List MemNode → Option MemNode
  | [] => none
  | mn :: next => if mn.used then some mn else next.head?

/-- The loop of `smfree_all`, with the number of used nodes left as its
measure: with none left, the assert on the picked node fails in a pool that
still counts as used. -/
def smfreeAllLoop : Nat → SmState → Option SmState
  | 0, s => if poolUsed s.mp.nodes then none else some s
  | n + 1, s =>
      if !poolUsed s.mp.nodes then some s
      else do
        let mn ← pickMn s.mp.nodes
        cAssert (mn.used = true)
        let (_, s) ← smfree s mn.memArea
        smfreeAllLoop n s

/-- `smfree_all`. -/
def smfreeAll (s : SmState) : Option SmState := do
  let s ← smfreeAllLoop (usedCount s.mp.nodes) s
  cAssert (s.mp.nodes.tail = [])
  return s

/-! ## Pools and calls -/

/-- `do_sminit`. -/
def doSminit (start size flags : Nat) : MemPool where
  size := size
  avail := size
  flags := flags
  nodes := [{ size := size, used := false, memArea := start }]
  commit := false
  uncommit := false

/-- `sminit`. -/
def sminit (start size : Nat) : SmState := ⟨doSminit start size 0, []⟩

/-- `sminit_f`. -/
def sminitF (start size flags : Nat) : SmState := ⟨doSminit start size flags, []⟩

/-- `do_sminit_com`; the callbacks are given by whether they are non-null. -/
def doSminitCom (start size : Nat) (commit uncommit doUncommit : Bool) (flags : Nat) :
    SmState :=
  let s : SmState :=
    ⟨{ doSminit start size flags with commit := commit, uncommit := uncommit }, []⟩
  if uncommit && doUncommit then s.emit (.uncommit start size) else s

/-- `sminit_com`. -/
def sminitCom (start size : Nat) (commit uncommit : Bool) (flags : Nat) : SmState :=
  doSminitCom start size commit uncommit true flags

/-- `sminit_comu`. -/
def sminitComu (start size : Nat) (commit uncommit : Bool) (flags : Nat) : SmState :=
  doSminitCom start size commit uncommit false flags

/-- The four ways to make a pool. -/
inductive SmInit
  | sminit
  | sminitF (flags : Nat)
  | sminitCom (commit uncommit : Bool) (flags : Nat)
  | sminitComu (commit uncommit : Bool) (flags : Nat)
deriving DecidableEq, Repr

/-- The pool that is made. -/
def SmInit.pool (start size : Nat) : SmInit → SmState
  | .sminit => Smalloc.sminit start size
  | .sminitF flags => Smalloc.sminitF start size flags
  | .sminitCom commit uncommit flags => Smalloc.sminitCom start size commit uncommit flags
  | .sminitComu commit uncommit flags => Smalloc.sminitComu start size commit uncommit flags

/-- The calls that change a pool, with their arguments. -/
inductive SmCall
  | smalloc (size : UInt64)
  | smallocFixed (ptr : UInt32) (size : UInt64)
  | smallocAligned (align size : UInt64)
  | smallocTopdown (size : UInt64)
  | smallocAlignedTopdown (top : UInt32) (align size : UInt64)
  | smfree (ptr : UInt32)
  | smrealloc (ptr : UInt32) (size : UInt64)
  | smfreeAll
deriving DecidableEq, Repr

/-- One call: the value it returns (`smfree` as a status, `smfree_all` as 0)
and the pool it leaves. -/
def call (com : CommitFn) (s : SmState) : SmCall → Option (Int × SmState)
  | .smalloc size => (smalloc com s size.toNat).map fun r => (r.1, r.2)
  | .smallocFixed ptr size => (smallocFixed com s ptr.toNat size.toNat).map fun r => (r.1, r.2)
  | .smallocAligned align size =>
      (smallocAligned com s align.toNat size.toNat).map fun r => (r.1, r.2)
  | .smallocTopdown size => (smallocTopdown com s size.toNat).map fun r => (r.1, r.2)
  | .smallocAlignedTopdown top align size =>
      (smallocAlignedTopdown com s top.toNat align.toNat size.toNat).map fun r => (r.1, r.2)
  | .smfree ptr => smfree s ptr.toNat
  | .smrealloc ptr size => (smrealloc com s ptr.toNat size.toNat).map fun r => (r.1, r.2)
  | .smfreeAll => (smfreeAll s).map fun t => (0, t)

/-- One call as a transition of the pool; an abort is `none`. -/
def step (com : CommitFn) (s : SmState) (c : SmCall) : Option SmState :=
  (call com s c).map Prod.snd

end Smalloc
end Dosemu
