import Dosemu.Lib.MachineInt
import Dosemu.Lib.Outcome

/-!
# The page allocator

`src/base/lib/misc/pgalloc.c`: a pool is one array of `int`.  Cell 0 holds the
length of the array, and each further cell belongs to one page: zero when the
page is free, the negated owner for the first page of an allocated run, the
distance from that page for the others.

Main definitions:

- `pgainit`, `pgareset`: an empty pool.
- `findFree`, `pgaalloc`: the first run of free pages that is long enough.
- `pgafree`: clears a run from its first page on.
- `pgaresize`: makes a run shorter or longer where it stands.
- `pgaavailLargest`, `pgarmap`: the longest free run, and the run of a page.
-/

namespace Dosemu
namespace Pgalloc

/-- The array behind `void *pool`. -/
abbrev Pool := List Int

/-- `p[i]`. -/
def cell (p : Pool) (i : Nat) : Int :=
  p.getD i 0

/-- `p[0]`: the length of the array. -/
def len (p : Pool) : Nat :=
  (cell p 0).toNat

/-- `pgainit`. -/
def pgainit (npages : Nat) : Pool :=
  (npages + 1 : Nat) :: List.replicate npages 0

/-- The loop of `pgareset` from cell `i` on. -/
def resetLoop (p : Pool) (i : Nat) : Nat → Pool
  | 0 => p
  | k + 1 => resetLoop (p.set i 0) (i + 1) k

/-- `pgareset`. -/
def pgareset (p : Pool) : Pool :=
  resetLoop p 1 (len p - 1)

/-- The inner loop of `find_free`: follow the free cells after `i` from `j` on,
until there are enough of them or a cell stops the run. -/
def freeRun (p : Pool) (npages i : Nat) : Nat → Nat → Bool × Nat
  | 0, j => (false, j)
  | fuel + 1, j =>
      if j < len p ∧ cell p j = 0 then
        if j - i + 1 = npages then (true, j) else freeRun p npages i fuel (j + 1)
      else (false, j)

/-- The outer loop of `find_free`; a run that is too short is skipped. -/
def findFreeFrom (p : Pool) (npages : Nat) : Nat → Nat → Int
  | 0, _ => -1
  | fuel + 1, i =>
      if i ≤ len p - npages then
        if cell p i = 0 then
          if npages = 1 then i
          else
            match freeRun p npages i (len p) (i + 1) with
            | (true, _) => i
            | (false, j) => findFreeFrom p npages fuel (j + 1)
        else findFreeFrom p npages fuel (i + 1)
      else -1

/-- `find_free`. -/
def findFree (p : Pool) (npages : Nat) : Int :=
  if len p < npages then -1 else findFreeFrom p npages (len p) 1

/-- The `ID` macro. -/
def idMark (id : Nat) : Int :=
  -id - 1

/-- The loop of `pgaalloc` that numbers the pages of a run from cell `i` on. -/
def numberPages (p : Pool) (idx i : Nat) : Nat → Pool
  | 0 => p
  | k + 1 => numberPages (p.set i (i - idx : Nat)) idx (i + 1) k

/-- `pgaalloc`: the first page of the new run, negative when there is none. -/
def pgaalloc (p : Pool) (npages id : Nat) : Int × Pool :=
  let idx := findFree p npages
  if 0 < idx then
    (idx - 1, numberPages (p.set idx.toNat (idMark id)) idx.toNat (idx.toNat + 1) (npages - 1))
  else (idx - 1, p)

/-- The loop of `pgafree`. -/
def freeLoop : Nat → Pool → Nat → Pool
  | 0, p, _ => p
  | fuel + 1, p, page =>
      let p := p.set page 0
      if page + 1 < len p ∧ 0 < cell p (page + 1) then freeLoop fuel p (page + 1) else p

/-- `pgafree`. -/
def pgafree (p : Pool) (page : Nat) : Option Pool := do
  let page := page + 1
  cAssert (page < len p)
  cAssert (cell p page < 0)
  return freeLoop (len p) p page

/-- "check if we can expand": whether `k` cells from `i` on are all free.  A read past
the end of the array is undefined. -/
def expandable (p : Pool) (i : Nat) : Nat → Option Bool
  | 0 => some true
  | k + 1 =>
      if i < p.length then
        if cell p i ≠ 0 then some false else expandable p (i + 1) k
      else none

/-- `pgaresize`.  The sums of its assertions are `unsigned`. -/
def pgaresize (p : Pool) (page oldpages newpages : Nat) : Option (Int × Pool) := do
  let page := page + 1
  cAssert (MachineInt.uwrap 32 (page + oldpages : Nat) < len p)
  cAssert (MachineInt.uwrap 32 (page + newpages : Nat) < len p)
  cAssert (cell p page < 0)
  if newpages ≤ oldpages then
    return (page, resetLoop p (page + newpages) (oldpages - newpages))
  else if ← expandable p (page + oldpages) (newpages - oldpages) then
    return (page, numberPages p page (page + oldpages) (newpages - oldpages))
  else
    return (-1, p)

/-- The inner loop of `pgaavail_largest`: the end of a run of free cells. -/
def freeEnd (p : Pool) : Nat → Nat → Nat
  | 0, j => j
  | fuel + 1, j => if j < len p ∧ cell p j = 0 then freeEnd p fuel (j + 1) else j

/-- The outer loop of `pgaavail_largest`, with the longest run so far. -/
def availFrom (p : Pool) : Nat → Nat → Nat → Nat
  | 0, _, max => max
  | fuel + 1, i, max =>
      if i < len p then
        if cell p i = 0 then
          let j := freeEnd p (len p) (i + 1)
          availFrom p fuel (j + 1) (if max < j - i then j - i else max)
        else availFrom p fuel (i + 1) max
      else max

/-- `pgaavail_largest`. -/
def pgaavailLargest (p : Pool) : Nat :=
  availFrom p (len p) 1 0

/-- `struct pgrm`. -/
structure Pgrm where
  id : Int
  pgoff : Int
deriving DecidableEq, Repr

/-- `pgarmap`. -/
def pgarmap (p : Pool) (page : Nat) : Option Pgrm := do
  let page := page + 1
  cAssert (page < len p)
  if cell p page = 0 then
    return { id := -1, pgoff := -1 }
  else if 0 < cell p page then
    let first := page - (cell p page).toNat
    cAssert (0 < first ∧ cell p first < 0)
    return { id := -cell p first - 1, pgoff := cell p page }
  else
    return { id := -cell p page - 1, pgoff := 0 }

end Pgalloc
end Dosemu
