import Mathlib.Data.List.AList
import Mathlib.Data.List.DropRight
import Dosemu.Lib.BitWords
import Dosemu.Lib.Outcome

/-!
# Marks of translated code

The translator keeps one map for each megabyte of guest memory that has
translated code.  A map has a mark for every byte of translated code
(`subpage`), a mark for the first byte of every translated node (`nodemap`), and
an entry for every page that is write-protected (`pagemap`).  The maps are in a
list and are dropped when their last page goes.  Pages that are being translated
are held in a small cache until their protection takes them over.

This module has the operations on these maps.  A range of guest memory is not
empty and stays below 4G.  A loop of the source that tests an unsigned address
against the last page of guest memory never leaves; it is modelled by `none`, as
a failed assertion is.
-/

namespace Dosemu
namespace Simx86

open BitWords

/-! ## The maps -/

/-- `HOST_PAGE_SIZE`. -/
def hostPageSize : Nat := 4096

/-- The pages of a megabyte. -/
def pagesPerMega : Nat := 256

/-- `CGRMASK`. -/
def cgrMask : Nat := 0xfffff

/-- `tMpMap`; the megabyte it is for is its key in the list. -/
structure MpMap where
  subpage : Words
  nodemap : Words
  pagemap : Nat → Bool

/-- A map as `calloc` gives it. -/
def MpMap.empty : MpMap where
  subpage := fun _ => 0#64
  nodemap := fun _ => 0#64
  pagemap := fun _ => false

/-- `struct cache_ent`; `data` says whether it holds a page. -/
structure CacheEnt where
  addr : Nat
  aliveCnt : Int
  data : Bool
deriving DecidableEq, Repr

/-- The maps, the page cache (`clist` up to `num_clist`) and the pages the host
has write-protected. -/
structure Marks where
  mpH : AList fun _ : Nat => MpMap
  clist : List CacheEnt
  writeProt : Nat → Bool

/-- `mprot_init`. -/
def mprotInit : Marks where
  mpH := ∅
  clist := []
  writeProt := fun _ => false

/-- A range of guest memory. -/
structure GuestRange where
  addr : Nat
  len : Nat
  pos : 0 < len
  fits : addr + len ≤ 2 ^ 32
deriving DecidableEq

namespace Marks

/-- The map a pointer `M` stands for. -/
def mapAt (s : Marks) (mega : Nat) : Option MpMap :=
  s.mpH.lookup mega

/-- `FindM`. -/
def findM (s : Marks) (addr : Nat) : Option MpMap :=
  s.mapAt (addr >>> 20)

/-- Write through a pointer to a map. -/
def update (s : Marks) (mega : Nat) (f : MpMap → MpMap) : Marks :=
  match s.mapAt mega with
  | none => s
  | some m => { s with mpH := s.mpH.insert mega (f m) }

/-- `FindM`, with a new map where there is none. -/
def ensure (s : Marks) (mega : Nat) : Marks :=
  match s.mapAt mega with
  | none => { s with mpH := s.mpH.insert mega .empty }
  | some _ => s

/-- `mprotect_mapping` of `n` pages. -/
def mprotectMapping (s : Marks) (page n : Nat) (readOnly : Bool) : Marks :=
  { s with
    writeProt := fun p => if page ≤ p ∧ p < page + n then readOnly else s.writeProt p }

end Marks

/-! ## The page cache -/

/-- `CALIVE_CNT`. -/
def caliveCnt : Int := 10

/-- `CLIST_MAX`. -/
def clistMax : Nat := 256

/-- Entries without data at the end of the cache are given up. -/
def trimC (cl : List CacheEnt) : List CacheEnt :=
  cl.rdropWhile fun ce => !ce.data

/-- The entry of a page. -/
def isEntry (addr : Nat) (ce : CacheEnt) : Bool :=
  ce.data && ce.addr == addr

/-- Change the entry that `FindC` stops at. -/
def modifyEntry (addr : Nat) (f : CacheEnt → CacheEnt) : List CacheEnt → Option (List CacheEnt)
  | [] => none
  | ce :: cl =>
      if isEntry addr ce then some (f ce :: cl) else (modifyEntry addr f cl).map (ce :: ·)

/-- `FindC` without removal: the page is cached, and the cache has a fresh
count. -/
def findC (cl : List CacheEnt) (addr : Nat) : Option (List CacheEnt) :=
  modifyEntry addr (fun ce => { ce with aliveCnt := caliveCnt }) cl

/-- `FindC` with removal; its assertion asks for the entry. -/
def removeC (cl : List CacheEnt) (addr : Nat) : Option (List CacheEnt) :=
  (modifyEntry addr (fun ce => { ce with data := false }) cl).map trimC

/-- `NewC`. -/
def newC (cl : List CacheEnt) (addr : Nat) : Option (List CacheEnt) := do
  cAssert (cl.length < clistMax)
  pure (cl ++ [⟨addr, caliveCnt, true⟩])

/-- `DropC` of the pages that were not asked for in a while. -/
def dropC (cl : List CacheEnt) : List CacheEnt :=
  trimC (cl.map fun ce =>
    if ce.data then
      { ce with aliveCnt := ce.aliveCnt - 1, data := decide (0 < ce.aliveCnt - 1) }
    else ce)

/-! ## Protection of pages -/

namespace Marks

/-- `e_querymprot`. -/
def eQuerymprot (s : Marks) (addr : Nat) : Bool :=
  match s.findM addr with
  | none => false
  | some m => m.pagemap (addr / hostPageSize % pagesPerMega)

/-- The loop of `AddMpMap` over `n` pages, with its pointer to a map and its index
into it. -/
def addPages : Nat → Nat → Nat → Nat → Marks → Option Marks
  | 0, _, _, _, s => some s
  | n + 1, addr, mega, page, s =>
      -- the next megabyte has a map of its own
      let here := if page = pagesPerMega then (addr >>> 20, 0, s.ensure (addr >>> 20))
        else (mega, page, s)
      let (mega, page, s) := here
      if ((s.mapAt mega).map fun m => m.pagemap page) = some true then
        addPages n (addr + hostPageSize) mega (page + 1) s
      else do
        let clist ← removeC s.clist addr
        let s := { s with clist := clist }
        let s := s.update mega fun m => { m with pagemap := Function.update m.pagemap page true }
        addPages n (addr + hostPageSize) mega (page + 1) s

/-- `AddMpMap` for the `n` pages from an address on. -/
def addMpMap (s : Marks) (addr n : Nat) : Option Marks :=
  addPages n addr (addr >>> 20) (addr / hostPageSize % pagesPerMega) (s.ensure (addr >>> 20))

/-- `do_rm_page`: a map without pages is dropped. -/
def doRmPage (s : Marks) (mega page : Nat) : Marks :=
  let s := s.update mega fun m => { m with pagemap := Function.update m.pagemap page false }
  match s.mapAt mega with
  | none => s
  | some m =>
      if (List.range pagesPerMega).any m.pagemap then s
      else { s with mpH := s.mpH.erase mega }

/-- `RmMpMap` for the `n` pages from an address on. -/
def rmMpMap : Nat → Nat → Marks → Marks
  | 0, _, s => s
  | n + 1, addr, s =>
      let mega := addr / hostPageSize / pagesPerMega
      let page := addr / hostPageSize % pagesPerMega
      match s.mapAt mega with
      | none => rmMpMap n (addr + hostPageSize) s
      | some m =>
          rmMpMap n (addr + hostPageSize) (if m.pagemap page then s.doRmPage mega page else s)

/-- The loop of `do_mprotect` over `n` pages; the unprotected pages seen last are
`count` pages from `abeg1` on. -/
def protectPages : Nat → Nat → Nat → Nat → Marks → Option Marks
  | 0, _, _, _, s => some s
  | n + 1, a, abeg1, count, s =>
      let qp := s.eQuerymprot a
      let abeg1 := if !qp && count == 0 then a else abeg1
      let count := if qp then count else count + 1
      if (n == 0 || qp) && count != 0 then do
        let s ← (s.mprotectMapping (abeg1 / hostPageSize) count true).addMpMap abeg1 count
        protectPages n (a + hostPageSize) abeg1 0 s
      else protectPages n (a + hostPageSize) abeg1 count s

/-- The loop of `e_munprotect` over `n` pages, with the protected pages seen
last. -/
def unprotectPages : Nat → Nat → Nat → Nat → Marks → Marks
  | 0, _, _, _, s => s
  | n + 1, a, abeg1, count, s =>
      let qp := s.eQuerymprot a
      let abeg1 := if qp && count == 0 then a else abeg1
      let count := if qp then count + 1 else count
      if (n == 0 || !qp) && count != 0 then
        let s := rmMpMap count abeg1 (s.mprotectMapping (abeg1 / hostPageSize) count false)
        unprotectPages n (a + hostPageSize) abeg1 0 s
      else unprotectPages n (a + hostPageSize) abeg1 count s

end Marks

/-- The first page a range touches. -/
def GuestRange.firstPage (r : GuestRange) : Nat :=
  r.addr / hostPageSize

/-- The last page a range touches. -/
def GuestRange.lastPage (r : GuestRange) : Nat :=
  (r.addr + r.len - 1) / hostPageSize

theorem GuestRange.firstPage_eq (r : GuestRange) : r.firstPage = r.addr / 4096 :=
  rfl

theorem GuestRange.lastPage_eq (r : GuestRange) : r.lastPage = (r.addr + r.len - 1) / 4096 :=
  rfl

theorem GuestRange.firstPage_le (r : GuestRange) : r.firstPage ≤ r.lastPage := by
  have hpos := r.pos
  exact Nat.div_le_div_right (by omega)

/-- The last page of guest memory. -/
def topPage : Nat := 0xfffff

/-- `e_mprotect`. -/
def Marks.eMprotect (s : Marks) (r : GuestRange) : Option Marks := do
  -- an unsigned address is never above the last page
  cAssert (r.lastPage ≠ topPage)
  let s ← s.protectPages (r.lastPage + 1 - r.firstPage) (r.firstPage * hostPageSize) 0 0
  pure { s with clist := dropC s.clist }

/-! ## Marks -/

/-- How far `e_querymark` got. -/
inductive Scan
  | found
  | missing
  | rest (m : MpMap) (idx : Nat)

namespace Marks

/-- The loop of `e_querymark` over `n` whole words. -/
def queryWords (s : Marks) : Nat → Nat → MpMap → Nat → Scan
  | 0, _, m, idx => .rest m idx
  | n + 1, abeg, m, idx =>
      match (if abeg &&& cgrMask = 0 then (s.findM abeg).map (·, 0) else some (m, idx)) with
      | none => .missing
      | some (m, idx) =>
          if m.subpage idx ≠ 0#64 then .found else queryWords s n (abeg + 64) m (idx + 1)

/-- The end of `e_querymark`, after the whole words. -/
def queryTail (s : Marks) (aend : Nat) (maskE : BitVec 64) : Scan → Bool
  | .found => true
  | .missing => false
  | .rest m idx =>
      if maskE = 0#64 then false
      else
        -- see if aend crosses MB
        match (if aend &&& cgrMask = 0 then (s.findM aend).map (·, 0) else some (m, idx)) with
        | none => false
        | some (m, idx) => decide (m.subpage idx &&& maskE ≠ 0#64)

/-- `e_querymark`. -/
def eQuerymark (s : Marks) (addr len : Nat) : Bool :=
  match s.findM addr with
  | none => false
  | some m =>
      let abeg := addr
      let aend := (addr + len) % 2 ^ 32
      if len = 1 then testBit m.subpage (abeg &&& cgrMask)
      else
        let idx := (abeg &&& cgrMask) / 64
        let mask := BitVec.allOnes 64 <<< (abeg % 64)
        let abeg := abeg / 64 * 64
        let maskE := BitVec.twoPow 64 (aend % 64) - 1#64
        let aend := aend / 64 * 64
        if abeg = aend then decide (m.subpage idx &&& mask &&& maskE ≠ 0#64)
        else if m.subpage idx &&& mask ≠ 0#64 then true
        else
          s.queryTail aend maskE
            (s.queryWords ((aend - (abeg + 64)) / 64) (abeg + 64) m (idx + 1))

/-- Whether a byte is marked, through a pointer to its map. -/
def subBit (s : Marks) (mega n : Nat) : Bool :=
  match s.mapAt mega with
  | none => false
  | some m => testBit m.subpage n

/-- The loop of `e_markpage` over `n` bytes, with its pointer to a map. -/
def markBytes : Nat → Nat → Nat → Marks → Option Marks
  | 0, _, _, s => some s
  | n + 1, abeg, mega, s => do
      cAssert (!s.subBit mega (abeg &&& cgrMask))
      let s := s.update mega fun m => { m with subpage := setBit m.subpage (abeg &&& cgrMask) }
      let abeg := abeg + 1
      if abeg &&& cgrMask = 0 then
        cAssert (s.findM abeg).isSome
        markBytes n abeg (abeg >>> 20) s
      else markBytes n abeg mega s

/-- `e_markpage`. -/
def eMarkpage (s : Marks) (r : GuestRange) : Option Marks := do
  let s ← s.eMprotect r
  cAssert (s.findM r.addr).isSome
  let mega := r.addr >>> 20
  let s := s.update mega fun m => { m with nodemap := setBit m.nodemap (r.addr &&& cgrMask) }
  markBytes r.len r.addr mega s

/-- The loop of `e_unmarkpage` over `n` bytes, with its pointer to a map. -/
def unmarkBytes : Nat → Nat → Nat → Marks → Option Marks
  | 0, _, _, s => some s
  | n + 1, abeg, mega, s =>
      let s := s.update mega fun m =>
        { m with
          nodemap := clearBit m.nodemap (abeg &&& cgrMask)
          subpage := clearBit m.subpage (abeg &&& cgrMask) }
      let abeg := abeg + 1
      if abeg &&& cgrMask = 0 then do
        cAssert (s.findM abeg).isSome
        unmarkBytes n abeg (abeg >>> 20) s
      else unmarkBytes n abeg mega s

/-- `e_munprotect` of whole pages. -/
def eMunprotect (s : Marks) (addr len : Nat) : Option Marks := do
  let last := (addr + len - 1) / hostPageSize
  cAssert (last ≠ topPage)
  pure (s.unprotectPages (last + 1 - addr / hostPageSize) addr 0 0)

/-- `e_unmarkpage`. -/
def eUnmarkpage (s : Marks) (r : GuestRange) : Option Marks :=
  match s.findM r.addr with
  | none => some s
  | some _ => do
      let stop := r.addr + r.len
      -- an unsigned address is never above the last byte
      cAssert (stop ≠ 2 ^ 32)
      let s ← s.unmarkBytes r.len r.addr (r.addr >>> 20)
      let abeg := r.addr / hostPageSize * hostPageSize
      let aend := (stop + (hostPageSize - 1)) / hostPageSize * hostPageSize % 2 ^ 32
      -- don't unprotect partial first page with code
      let abeg := if abeg ≠ r.addr ∧ s.eQuerymark abeg (r.addr - abeg) then abeg + hostPageSize
        else abeg
      -- don't unprotect partial last page with code
      let aend := if aend ≠ stop ∧ s.eQuerymark stop ((2 ^ 64 + aend - stop) % 2 ^ 64) then
          (2 ^ 32 + aend - hostPageSize) % 2 ^ 32
        else aend
      if abeg < aend then s.eMunprotect abeg (aend - abeg) else pure s

/-- `e_querynode`. -/
def eQuerynode (s : Marks) (addr : Nat) : Bool :=
  match s.findM addr with
  | none => false
  | some m => testBit m.nodemap (addr &&& cgrMask)

/-- The lookup of one page in `e_fetch`: it is cached, protected, or now added to
the cache. -/
def fetchPage (s : Marks) (abeg : Nat) : Option Marks :=
  match findC s.clist abeg with
  | some clist => some { s with clist := clist }
  | none =>
      if s.eQuerymprot abeg then some s
      else do
        let clist ← newC s.clist abeg
        pure { s with clist := clist }

/-- `e_fetch`, without the bytes it copies. -/
def eFetch (s : Marks) (r : GuestRange) : Option Marks := do
  cAssert (r.len ≤ hostPageSize)
  let abeg := r.firstPage * hostPageSize
  let aend := r.lastPage * hostPageSize
  -- we do not support MB-crossing transactions
  cAssert (abeg >>> 20 = aend >>> 20)
  let s ← s.fetchPage abeg
  if abeg = aend then pure s else s.fetchPage aend

/-! ## Searches for nodes -/

/-- Where `m_findnode` is: its map, the word `abeg` of guest memory, the index of that
word in the map, the bit to start at, and how many words it has come. -/
structure NodeScan where
  m : MpMap
  abeg : Nat
  i : Nat
  n : Nat
  c : Nat

/-- The words of a megabyte. -/
def wordsPerMega : Nat := 16384

/-- The loops of `m_findnode` that look for the next map, up to the word `aend`; they
go from megabyte to megabyte. -/
def nextMap (s : Marks) (aend : Nat) : Nat → Nat → Nat → Nat → Nat → Option NodeScan
  | 0, _, _, _, _ => none
  | fuel + 1, abeg, i, n, c =>
      let addr2 := abeg * 64 / 0x100000 * 0x100000
      match s.findM addr2 with
      | some m => some ⟨m, abeg, i, n, c⟩
      | none =>
          let abeg := (addr2 + cgrMask + 1) / 64
          if abeg ≤ aend then nextMap s aend fuel abeg 0 0 (c + wordsPerMega - i) else none

/-- The loop of `m_findnode` over words; the result is the word, how many words it
took, and the bit. -/
def scanNodes (s : Marks) (aend : Nat) : Nat → NodeScan → Option (Nat × Nat × Nat)
  | 0, _ => none
  | fuel + 1, p =>
      if aend < p.abeg then none
      else
        match findBitFrom (p.m.nodemap p.i) p.n with
        | some f => some (p.abeg, p.c, f)
        | none =>
            if (p.i + 1) % wordsPerMega = 0 then
              match s.nextMap aend (fuel + 1) (p.abeg + 1) 0 0 (p.c + 1) with
              | none => none
              | some q => scanNodes s aend fuel q
            else scanNodes s aend fuel ⟨p.m, p.abeg + 1, p.i + 1, 0, p.c + 1⟩

/-- `m_findnode`; the loops take no more rounds than there are words in the range. -/
def mFindnode (s : Marks) (addr len : Nat) : Option (Option Nat) := do
  cAssert (len ≠ 0)
  let n := addr % 64
  let m := (addr + len - 1) % 64
  let abeg := addr / 64
  let aend := (addr + len - 1) / 64
  let fuel := aend + 1 - abeg
  match s.nextMap aend fuel abeg (abeg % wordsPerMega) n 0 with
  | none => pure none
  | some p =>
      match s.scanNodes aend fuel p with
      | none => pure none
      | some (abeg, c, f) =>
          if abeg = aend ∧ m < f then pure none else pure (some (addr / 64 * 64 + c * 64 + f))

/-- A bit of the map of first bytes, through a pointer to it. -/
def nodeBit (s : Marks) (mega n : Nat) : Bool :=
  match s.mapAt mega with
  | none => false
  | some m => testBit m.nodemap n

/-- The loop of `m_findnodestart`, downwards. -/
def findStart (s : Marks) : Nat → Nat → Nat → Bool → Option (Option Nat)
  | 0, _, _, _ => none
  | fuel + 1, mega, abeg, once =>
      if s.subBit mega abeg then
        if s.nodeBit mega abeg then some (some (mega * 0x100000 + abeg))
        else if abeg = 0 then do
          cAssert (mega ≠ 0)
          -- unmapped nodes are a problem
          cAssert (s.mapAt (mega - 1)).isSome
          findStart s fuel (mega - 1) cgrMask true
        else findStart s fuel mega (abeg - 1) true
      else do
        -- if lookup started - should not fail
        cAssert (!once)
        pure none

/-- `m_findnodestart`; the loop takes no more rounds than there are bytes below. -/
def mFindnodestart (s : Marks) (addr : Nat) : Option (Option Nat) :=
  match s.findM addr with
  | none => some none
  | some _ => s.findStart (addr + 1) (addr >>> 20) (addr &&& cgrMask) false

end Marks

/-! ## Views -/

section Views

variable {s : Marks} {x m : Nat}

/-- The megabyte of an address. -/
theorem shiftRight_mega (x : Nat) : x >>> 20 = x / 1048576 :=
  Nat.shiftRight_eq_div_pow x 20

/-- The place of an address in its megabyte. -/
theorem and_cgrMask (x : Nat) : x &&& cgrMask = x % 1048576 :=
  Nat.and_two_pow_sub_one_eq_mod x 20

namespace Marks

/-- The byte is marked as translated code. -/
def marked (s : Marks) (x : Nat) : Bool :=
  s.subBit (x >>> 20) (x &&& cgrMask)

/-- The megabyte has a map. -/
def mapped (s : Marks) (mega : Nat) : Prop :=
  ∃ m, s.mapAt mega = some m

theorem marked_eq {m : MpMap} (h : s.mapAt (x / 1048576) = some m) :
    s.marked x = testBit m.subpage (x % 1048576) := by
  rw [marked, subBit, shiftRight_mega, and_cgrMask, h]

theorem mapped_of_marked (h : s.marked x = true) : s.mapped (x / 1048576) := by
  rw [marked, subBit, shiftRight_mega] at h
  cases hm : s.mapAt (x / 1048576) with
  | none => simp [hm] at h
  | some m => exact ⟨m, hm⟩

theorem findM_eq (s : Marks) (x : Nat) : s.findM x = s.mapAt (x / 1048576) := by
  rw [findM, shiftRight_mega]

end Marks

end Views

/-- The calls that change the maps. -/
inductive MarkCall
  | fetch (r : GuestRange)
  | mark (r : GuestRange)
  | unmark (r : GuestRange)

/-- One call. -/
def Marks.step (s : Marks) : MarkCall → Option Marks
  | .fetch r => s.eFetch r
  | .mark r => s.eMarkpage r
  | .unmark r => s.eUnmarkpage r

end Simx86
end Dosemu
