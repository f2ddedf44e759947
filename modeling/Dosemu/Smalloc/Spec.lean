import Dosemu.Smalloc.Layout

/-!
# What the allocator does to a well-formed pool

Over a pool whose nodes tile its range, each operation of the allocator has a
closed form in ordinary arithmetic: which stretch of free space it takes, what
it leaves behind, which callbacks it makes and in which states, and exactly
when one of its asserts fails.

Main results:

- Theorem `smCommit_eq`: a commit is granted or refused.
- Theorem `takeArea_eq`: the common end of the three allocators.
- Theorem `smfree_eq`: a freed block is merged with the free space around it.
- Theorems `shrinkMn_eq`, `growMn_eq` and `moveToPrev_eq`: the ways in which a
  block is resized without being copied elsewhere.
-/

namespace Dosemu
namespace Smalloc

open MachineInt Tiling

/-! ## State updates -/

namespace SmState

variable (s : SmState)

@[simp]
theorem emit_mp (e : SmEvent) : (s.emit e).mp = s.mp :=
  rfl

@[simp]
theorem emit_log (e : SmEvent) : (s.emit e).log = s.log ++ [⟨e, s.mp.nodes⟩] :=
  rfl

@[simp]
theorem setNodes_mp (nodes : List MemNode) :
    (s.setNodes nodes).mp = { s.mp with nodes := nodes } :=
  rfl

@[simp]
theorem setNodes_log (nodes : List MemNode) : (s.setNodes nodes).log = s.log :=
  rfl

@[simp]
theorem setAvail_mp (avail : Nat) : (s.setAvail avail).mp = { s.mp with avail := avail } :=
  rfl

@[simp]
theorem setAvail_log (avail : Nat) : (s.setAvail avail).log = s.log :=
  rfl

@[simp]
theorem smerror_mp (msg : SmMsg) : (s.smerror msg).mp = s.mp :=
  rfl

end SmState

@[simp]
theorem smUncommit_mp (s : SmState) (addr size : Nat) : (smUncommit s addr size).mp = s.mp := by
  unfold smUncommit
  dsimp only
  split <;> rfl

/-- `do_smerror` at the priority of `oom_pr` never fails its assert. -/
theorem doSmerror_oomPr (s : SmState) (size : Nat) (msg : SmMsg) :
    doSmerror s (oomPr s.mp size) msg = some (s.emit (.dump (oomPr s.mp size) msg)) := by
  have hne : oomPr s.mp size ≠ -1 := by
    unfold oomPr
    split <;> omega
  simp [doSmerror, cAssert, hne]

@[simp]
theorem cleared_mp (s : SmState) (addr size : Nat) : (cleared s addr size).mp = s.mp := by
  unfold cleared
  split <;> rfl

/-! ## Well-formed pools -/

/-- The address ranges for which pools are made. -/
structure PoolRange (lo hi : Nat) : Prop where
  lt : lo < hi
  le : hi ≤ 2 ^ 32
  small : hi - lo < 2 ^ 31

/-- The nodes tile the range of the pool and the counter of free space is
right. -/
structure WellFormed (lo hi : Nat) (mp : MemPool) : Prop where
  range : PoolRange lo hi
  tiles : PoolTiles lo mp.nodes hi
  avail : mp.avail = freeSum mp.nodes
  size : mp.size = hi - lo

/-- The free space is no more than the pool. -/
theorem WellFormed.avail_le {lo hi : Nat} {mp : MemPool} (h : WellFormed lo hi mp) :
    mp.avail ≤ hi - lo := by
  have hsum := freeSum_add_usedSum h.tiles
  have havail := h.avail
  omega

section Cursor

variable {lo hi : Nat} {z : Zipper MemNode}

/-- The node under a cursor, with the parts around it. -/
theorem tiles_focus (h : PoolTiles lo z.toList hi) :
    PoolTiles lo z.before.reverse z.focus.memArea ∧
      PoolTiles z.focus.memArea (z.focus :: z.after) hi := by
  obtain ⟨m, hbefore, hnodes⟩ := tiles_append.mp h
  have hm : z.focus.memArea = m := hnodes.1
  rw [hm]
  exact ⟨hbefore, hnodes⟩

theorem mem_toList (z : Zipper MemNode) : z.focus ∈ z.toList := by
  simp [Zipper.toList]

/-- The bounds of the node under a cursor and of the free space behind it. -/
theorem focus_bounds (h : PoolTiles lo z.toList hi) :
    lo ≤ z.focus.memArea ∧ 0 < z.focus.size ∧
      z.focus.memArea + z.focus.size + nextFree z.after ≤ hi := by
  obtain ⟨hbefore, -, hpos, hafter⟩ := tiles_focus h
  exact ⟨hbefore.le, hpos, PoolTiles.nextFree_le hafter⟩

/-- A used node under a cursor is part of the used space. -/
theorem focus_size_le_usedSum {nodes : List MemNode} (hlist : z.toList = nodes)
    (hused : z.focus.used = true) :
    z.focus.size ≤ ((usedNodes nodes).map MemNode.size).sum :=
  size_le_usedSum (hlist ▸ mem_toList z) hused

/-- Replace the node under the cursor and its free space by another tiling of
the same stretch. -/
theorem tiles_replace (mid : List MemNode) (h : PoolTiles lo z.toList hi)
    (hmid : PoolTiles z.focus.memArea mid
      (z.focus.memArea + z.focus.size + nextFree z.after)) :
    PoolTiles lo (z.before.reverse ++ (mid ++ dropFree z.after)) hi := by
  obtain ⟨hbefore, -, -, hafter⟩ := tiles_focus h
  exact tiles_append.mpr
    ⟨_, hbefore, tiles_append.mpr ⟨_, hmid, PoolTiles.dropFree hafter⟩⟩

end Cursor

/-! ## Commit -/

/-- The page-rounded range that `sm_commit` asks for. -/
def commitBase (addr : Nat) : Nat := addr &&& (2 ^ 32 - 2 ^ 12)

/-- The page-rounded length that `sm_commit` asks for. -/
def commitSpan (addr size : Nat) : Nat :=
  pageAlign64 (uwrap 64 (size + ((addr : Int) - commitBase addr)))

/-- The commit callback is missing or says yes. -/
def granted (com : CommitFn) (s : SmState) (addr size : Nat) : Bool :=
  !s.mp.commit || com s.log (commitBase addr) (commitSpan addr size)

/-- The pool after a granted commit, `avail` apart. -/
def committed (s : SmState) (addr size : Nat) : SmState :=
  if s.mp.commit then s.emit (.commit (commitBase addr) (commitSpan addr size) true) else s

/-- The pool after a refused commit, a rollback apart. -/
def refused (s : SmState) (addr size : Nat) : SmState :=
  (s.emit (.commit (commitBase addr) (commitSpan addr size) false)).smerror
    (.failedToCommit (commitBase addr) (commitSpan addr size))

@[simp]
theorem committed_mp (s : SmState) (addr size : Nat) : (committed s addr size).mp = s.mp := by
  unfold committed
  split <;> rfl

@[simp]
theorem refused_mp (s : SmState) (addr size : Nat) : (refused s addr size).mp = s.mp :=
  rfl

/-- A commit of space that is there is granted or refused, and never fails an
assert. -/
theorem smCommit_eq (com : CommitFn) (s : SmState) {addr size : Nat} (eAddr eSize : Nat)
    (havail : size ≤ s.mp.avail) :
    smCommit com s addr size eAddr eSize =
      if granted com s addr size then
        some (true, (committed s addr size).setAvail (s.mp.avail - size))
      else if eSize ≠ 0 then
        some (false, smUncommit ((refused s addr size).setAvail
          (uwrap 64 (s.mp.avail + eSize))) eAddr eSize)
      else some (false, refused s addr size) := by
  cases hc : s.mp.commit
  · simp [smCommit, smCommitRange, granted, committed, hc, cAssert, havail]
  · cases hg : com s.log (commitBase addr) (commitSpan addr size)
    · by_cases hsize : eSize = 0 <;>
        simp [smCommit, smCommitRange, granted, refused, hc, hg, hsize, commitBase, commitSpan]
          at hg ⊢
    · simp [smCommit, smCommitRange, granted, committed, hc, commitBase, commitSpan] at hg ⊢
      simp [hg, cAssert, havail, SmState.emit]

/-- `sm_commit_simple` has nothing to roll back. -/
theorem smCommitSimple_eq (com : CommitFn) (s : SmState) {addr size : Nat}
    (havail : size ≤ s.mp.avail) :
    smCommitSimple com s addr size =
      if granted com s addr size then
        some (true, (committed s addr size).setAvail (s.mp.avail - size))
      else some (false, refused s addr size) := by
  rw [smCommitSimple, smCommit_eq com s badAddr 0 havail]
  simp

/-! ## Placing a block -/

/-- The list after the node under the cursor became a used block of the given
size and the rest of its stretch a free area. -/
def takenNodes (z : Zipper MemNode) (size : Nat) : List MemNode :=
  z.before.reverse ++ (({ size := size, used := true, memArea := z.focus.memArea } ::
    freeArea (z.focus.memArea + size) (z.focus.size + nextFree z.after - size)) ++
      dropFree z.after)

/-- The common end of the allocators, on a cursor at the chosen free area. -/
def placeBlock (com : CommitFn) (s : SmState) (z : Zipper MemNode) (size : Nat) :
    Option MemNode × SmState :=
  if granted com (s.setNodes z.toList) z.focus.memArea size then
    (some { size := size, used := true, memArea := z.focus.memArea },
      cleared (((committed (s.setNodes z.toList) z.focus.memArea size).setAvail
        (s.mp.avail - size)).setNodes (takenNodes z size)) z.focus.memArea size)
  else (none, refused (s.setNodes z.toList) z.focus.memArea size)

section Place

variable {lo hi : Nat} {s : SmState} {z : Zipper MemNode} {size : Nat}

/-- The stretch of the cursor is tiled anew by a block and the rest. -/
theorem tiles_takenNodes (h : PoolTiles lo z.toList hi) (hpos : 0 < size)
    (hfit : size ≤ z.focus.size + nextFree z.after) : PoolTiles lo (takenNodes z size) hi := by
  exact tiles_replace _ h (tiles_cons_freeArea rfl rfl hpos (by omega))

/-- Taking a free area that is large enough never fails an assert. -/
theorem takeArea_eq (com : CommitFn) (hr : PoolRange lo hi) (h : PoolTiles lo z.toList hi)
    (havail : size ≤ s.mp.avail) (hpos : 0 < size) (hfit : size ≤ z.focus.size) :
    takeArea com s z size = some (placeBlock com s z size) := by
  have hb := focus_bounds h
  have hfocus := (tiles_focus h).2
  have htrunc := mntruncate_eq { z.focus with used := true } z.after size
    (a := z.focus.memArea) ⟨rfl, hfocus.2.1, hfocus.2.2⟩ hr.le
    (by have := hr.small; omega) hpos (by simp only; omega)
  have hno : ¬(size ≠ z.focus.size ∧ size = z.focus.size + nextFree z.after ∧
      nextUsed (dropFree z.after) = false) := by omega
  simp only at htrunc
  rw [if_neg hno] at htrunc
  rw [takeArea, smCommitSimple_eq com _ (by simpa using havail)]
  unfold placeBlock
  split
  · simp only [htrunc, Option.bind_eq_bind, Option.bind_some, Bool.not_true, Bool.false_eq_true,
      if_false, cAssert, if_true, cleared, SmState.setNodes_mp, SmState.setAvail_mp, committed_mp,
      takenNodes, Zipper.toList_mk, List.cons_append]
    split <;> rfl
  · simp

end Place

/-- The cursor after `size` bytes of its area were skipped: what is left of the
stretch behind them. -/
def skipped (z : Zipper MemNode) (delta : Nat) : Zipper MemNode where
  before := { z.focus with size := delta } :: z.before
  focus :=
    { size := z.focus.size + nextFree z.after - delta
      used := false
      memArea := z.focus.memArea + delta }
  after := dropFree z.after

/-- The cursor after the end of its area was cut off at `size`. -/
def shortened (z : Zipper MemNode) (size : Nat) : Zipper MemNode where
  before := z.before
  focus := { z.focus with size := size }
  after := freeArea (z.focus.memArea + size) (z.focus.size + nextFree z.after - size) ++
    dropFree z.after

/-- Skip a prefix if there is one. -/
def startAt (z : Zipper MemNode) (delta : Nat) : Zipper MemNode :=
  if delta = 0 then z else skipped z delta

/-- Cut off a tail if there is one. -/
def endAt (z : Zipper MemNode) (delta : Nat) : Zipper MemNode :=
  if delta = 0 then z else shortened z (z.focus.size - delta)

@[simp]
theorem endAt_zero (z : Zipper MemNode) : endAt z 0 = z :=
  rfl

/-- A cursor at a free node of a list that divides the free space of the pool
in its own way, but has the same used nodes. -/
structure FreeCursor (lo hi : Nat) (nodes : List MemNode) (z : Zipper MemNode) : Prop where
  tiles : PoolTiles lo z.toList hi
  used : usedNodes z.toList = usedNodes nodes
  free : z.focus.used = false

section Cursors

variable {lo hi delta size : Nat} {nodes : List MemNode} {z : Zipper MemNode}

/-- Skipping a prefix of a free area is a matter of free space only. -/
theorem FreeCursor.skipped (h : FreeCursor lo hi nodes z) (hpos : 0 < delta)
    (hlt : delta < z.focus.size) : FreeCursor lo hi nodes (skipped z delta) where
  tiles := by
    have hlist : (Smalloc.skipped z delta).toList =
        z.before.reverse ++ ([{ z.focus with size := delta },
          { size := z.focus.size + nextFree z.after - delta, used := false,
            memArea := z.focus.memArea + delta }] ++ dropFree z.after) := by
      simp [Smalloc.skipped]
    rw [hlist]
    refine tiles_replace _ h.tiles ?_
    simp
    omega
  used := by
    rw [← h.used]
    simp [Smalloc.skipped, Zipper.toList, h.free]
  free := rfl

/-- So is cutting off its end. -/
theorem FreeCursor.shortened (h : FreeCursor lo hi nodes z) (hpos : 0 < size)
    (hle : size ≤ z.focus.size) : FreeCursor lo hi nodes (shortened z size) where
  tiles := by
    have hlist : (Smalloc.shortened z size).toList =
        z.before.reverse ++ (({ z.focus with size := size } ::
          freeArea (z.focus.memArea + size) (z.focus.size + nextFree z.after - size)) ++
            dropFree z.after) := by
      simp [Smalloc.shortened]
    rw [hlist]
    exact tiles_replace _ h.tiles (tiles_cons_freeArea rfl rfl hpos (by omega))
  used := by
    rw [← h.used]
    simp [Smalloc.shortened, Zipper.toList, h.free]
  free := h.free

theorem FreeCursor.startAt (h : FreeCursor lo hi nodes z) (hlt : delta < z.focus.size) :
    FreeCursor lo hi nodes (startAt z delta) := by
  unfold Smalloc.startAt
  split
  · exact h
  · exact h.skipped (by omega) hlt

theorem FreeCursor.endAt (h : FreeCursor lo hi nodes z) (hlt : delta < z.focus.size) :
    FreeCursor lo hi nodes (endAt z delta) := by
  unfold Smalloc.endAt
  split
  · exact h
  · exact h.shortened (by omega) (by omega)

/-- Where a block is put after skipping a prefix. -/
theorem startAt_memArea (z : Zipper MemNode) (delta : Nat) :
    (startAt z delta).focus.memArea = z.focus.memArea + delta := by
  unfold startAt
  split <;> simp_all [skipped]

/-- What is left for the block after skipping a prefix. -/
theorem startAt_size_le (z : Zipper MemNode) (delta : Nat) :
    z.focus.size - delta ≤ (startAt z delta).focus.size := by
  unfold startAt
  split
  · omega
  · simp only [skipped]
    omega

theorem endAt_memArea (z : Zipper MemNode) (delta : Nat) :
    (endAt z delta).focus.memArea = z.focus.memArea := by
  unfold endAt
  split <;> rfl

theorem endAt_size (z : Zipper MemNode) (delta : Nat) :
    (endAt z delta).focus.size = z.focus.size - delta := by
  unfold endAt
  split
  · simp_all
  · rfl

/-- `skipFront` leaves the cursor behind the prefix when the block still fits. -/
theorem skipFront_eq (hr : PoolRange lo hi) (h : PoolTiles lo z.toList hi) (hpos : 0 < delta) (hsize : 0 < size)
    (hfit : size + delta ≤ z.focus.size) :
    skipFront z delta size = some (skipped z delta) := by
  have hb := focus_bounds h
  have htrunc := mntruncate_eq z.focus z.after delta (tiles_focus h).2 hr.le
    (by have := hr.small; omega) hpos (by omega)
  have hno : ¬(delta ≠ z.focus.size ∧ delta = z.focus.size + nextFree z.after ∧
      nextUsed (dropFree z.after) = false) := by omega
  rw [if_neg hno, freeArea_of_pos _ (by omega)] at htrunc
  have hle : size ≤ z.focus.size + nextFree z.after - delta := by omega
  simp [skipFront, htrunc, cAssert, hle, skipped]

/-- Cutting off the end of a free area. -/
theorem mntruncate_shortened (hr : PoolRange lo hi) (h : PoolTiles lo z.toList hi)
    (hpos : 0 < size) (hlt : size < z.focus.size) :
    mntruncate z.focus z.after size =
      some ((shortened z size).focus, (shortened z size).after) := by
  have hb := focus_bounds h
  have htrunc := mntruncate_eq z.focus z.after size (tiles_focus h).2 hr.le
    (by have := hr.small; omega) hpos (by omega)
  have hno : ¬(size ≠ z.focus.size ∧ size = z.focus.size + nextFree z.after ∧
      nextUsed (dropFree z.after) = false) := by omega
  rw [if_neg hno] at htrunc
  exact htrunc

end Cursors

/-! ## Finding a block -/

section Find

variable {lo hi ptr : Nat} {s t : SmState} {z : Zipper MemNode}

/-- A successful search stands at the node that starts at the pointer. -/
theorem findMn_eq_some (h : findMn s ptr = (t, some z)) :
    t = s ∧ z.toList = s.mp.nodes ∧ z.focus.memArea = ptr := by
  unfold findMn at h
  split at h
  · simp at h
  · simp only [Prod.mk.injEq] at h
    refine ⟨h.1.symm, Zipper.scan_toList h.2, ?_⟩
    simpa using Zipper.scan_hit h.2

/-- A failed search changes no node. -/
theorem findMn_mp (s : SmState) (ptr : Nat) : (findMn s ptr).1.mp = s.mp := by
  unfold findMn
  split <;> rfl

/-- A used node is found by its address. -/
theorem findMn_of_mem {mn : MemNode} (htiles : PoolTiles lo s.mp.nodes hi)
    (hmem : mn ∈ s.mp.nodes) (hused : mn.used = true) :
    ∃ z, findMn s mn.memArea = (s, some z) ∧ z.focus = mn ∧ z.toList = s.mp.nodes := by
  obtain ⟨passed, after, hnodes⟩ := List.append_of_mem hmem
  have hpool : poolUsed s.mp.nodes = true := by
    rw [hnodes]
    cases passed with
    | nil => simp [poolUsed, hused]
    | cons p ps => simp [poolUsed]
  have hpassed : ∀ y ∈ passed,
      decide (mn.memArea < y.memArea) = false ∧ decide (y.memArea = mn.memArea) = false := by
    intro y hy
    have hpair := htiles.pairwise_end_le
    rw [hnodes, List.pairwise_append] at hpair
    have hend := hpair.2.2 y hy mn List.mem_cons_self
    have hpos := (htiles.mem_bounds y (by rw [hnodes]; simp [hy])).2.1
    simp only [decide_eq_false_iff_not]
    omega
  refine ⟨⟨passed.reverse, mn, after⟩, ?_, rfl, by simp [hnodes]⟩
  unfold findMn
  rw [if_neg (by simp [hpool]), hnodes, Zipper.scan_of_split hpassed (by simp) (by simp)]
  simp

end Find

/-! ## Freeing a block -/

/-- The cursor after its node was freed and merged with the free space on both
sides. -/
def merged (z : Zipper MemNode) : Zipper MemNode where
  before := dropFree z.before
  focus :=
    { size := nextFree z.before + z.focus.size + nextFree z.after
      used := false
      memArea := z.focus.memArea - nextFree z.before }
  after := dropFree z.after

section Free

variable {lo hi ptr : Nat} {s : SmState} {z : Zipper MemNode}

/-- Merging with the area behind: it aborts exactly when that area is free and
has a free neighbour itself. -/
theorem absorbNext_eq (mn : MemNode) (next : List MemNode) (hr : PoolRange lo hi)
    (hlo : lo ≤ mn.memArea) (ht : PoolTiles mn.memArea (mn :: next) hi) :
    absorbNext mn next =
      if nextUsed (dropFree next) then
        some ({ mn with size := mn.size + nextFree next }, dropFree next)
      else none := by
  cases next with
  | nil => rfl
  | cons nmn rest =>
      obtain ⟨-, hpos, hnlo, hnpos, hrest⟩ := ht
      have hle := hrest.le
      have hend := hr.le
      have hsmall := hr.small
      cases hused : nmn.used
      · have hsum : uwrap 64 ((mn.size : Int) + nmn.size) = mn.size + nmn.size := by
          rw [uwrap_of_lt (by omega) (by omega)]
          omega
        simp only [absorbNext, hused, Bool.false_eq_true, if_false, hsum]
        rw [mntruncate_of_free rfl hnlo (by omega) (by omega) hused (by omega) (by omega) le_rfl]
        cases hru : nextUsed rest <;> simp [hused, hru]
      · simp [absorbNext, hused, nextUsed]

/-- The assert of `smfree` on the area behind the freed block holds. -/
theorem mergeNext_eq_absorbNext {mn : MemNode} {next : List MemNode}
    (ht : PoolTiles mn.memArea (mn :: next) hi) : mergeNext mn next = absorbNext mn next := by
  have hge : ∀ nmn ∈ next.head?, nmn.used = false → mn.memArea ≤ nmn.memArea := by
    intro nmn hnmn _
    have hmem : nmn ∈ next := List.mem_of_mem_head? hnmn
    exact le_trans (Nat.le_add_right _ _) (ht.2.2.mem_bounds nmn hmem).1
  exact cAssert_bind hge _

/-- Where the free space before a node starts. -/
theorem before_bounds {a : Nat} {before : List MemNode} (h : PoolTiles lo before.reverse a) :
    lo + nextFree before ≤ a ∧ PoolTiles lo (dropFree before).reverse (a - nextFree before) := by
  cases before with
  | nil =>
      have hlo : lo = a := h
      simp [nextFree, dropFree, hlo]
  | cons pmn before =>
      rw [List.reverse_cons] at h
      obtain ⟨m, hm, hlo, hpos, hend⟩ := tiles_append.mp h
      have hend : m + pmn.size = a := hend
      have hle := hm.le
      cases hused : pmn.used
      · have ha : a - pmn.size = m := by omega
        simp only [nextFree, dropFree, hused, Bool.false_eq_true, if_false, ha]
        exact ⟨by omega, hm⟩
      · simp only [nextFree, dropFree, hused, if_true, Nat.sub_zero]
        exact ⟨by omega, by rw [List.reverse_cons]; exact h⟩

/-- Merging a free node into the area before it; what follows is used. -/
theorem mergePrev_eq (hr : PoolRange lo hi) (h : PoolTiles lo z.toList hi)
    (hfree : z.focus.used = false) (hnext : nextUsed z.after = true) :
    mergePrev z = some (merged z) := by
  have hzero := nextFree_of_nextUsed hnext
  have hdrop := dropFree_of_nextUsed hnext
  obtain ⟨before, mn, next⟩ := z
  simp only at hfree hnext hzero hdrop
  have hend := hr.le
  have hsmall := hr.small
  cases before with
  | nil => simp [mergePrev, merged, hzero, hdrop, ← hfree]
  | cons pmn before =>
      cases hused : pmn.used
      · rw [Zipper.toList_cons_before] at h
        have hb := focus_bounds h
        obtain ⟨-, -, hpos, hlo, hmpos, hrest⟩ := tiles_focus h
        simp only [nextFree, hfree, Bool.false_eq_true, if_false] at hb hlo
        have hsum : uwrap 64 ((pmn.size : Int) + mn.size) = pmn.size + mn.size := by
          rw [uwrap_of_lt (by omega) (by omega)]
          omega
        have hge : pmn.memArea ≤ mn.memArea := by omega
        have haddr : mn.memArea - pmn.size = pmn.memArea := by omega
        simp only [mergePrev, hused, Bool.false_eq_true, if_false, cAssert, hge, if_true,
          Option.bind_eq_bind, Option.bind_some, hsum]
        rw [mntruncate_of_free rfl hlo (by omega) (by omega) hfree (by omega) (by omega) le_rfl]
        simp [hnext, merged, hused, hzero, hdrop, haddr]
      · simp [mergePrev, merged, hused, hzero, hdrop, ← hfree]

theorem tiles_merged (h : PoolTiles lo z.toList hi) : PoolTiles lo (merged z).toList hi := by
  obtain ⟨hbefore, -, hpos, hafter⟩ := tiles_focus h
  obtain ⟨hle, hbefore⟩ := before_bounds hbefore
  refine tiles_append.mpr ⟨_, hbefore, rfl, ?_, ?_⟩
  · simp only [merged]
    omega
  · have hstart : z.focus.memArea - nextFree z.before + (merged z).focus.size =
        z.focus.memArea + z.focus.size + nextFree z.after := by
      simp only [merged]
      omega
    rw [hstart]
    exact PoolTiles.dropFree hafter

/-- `smfree` of a used block merges it with the free space around it and
uncommits the whole; it aborts exactly when a free area behind the block has a
free neighbour itself. -/
theorem smfree_eq (hwf : WellFormed lo hi s.mp) (hbad : ptr ≠ badAddr)
    (hfind : findMn s ptr = (s, some z)) (hused : z.focus.used = true) :
    smfree s ptr =
      if nextUsed (dropFree z.after) then
        some (0, smUncommit ((s.setAvail (s.mp.avail + z.focus.size)).setNodes (merged z).toList)
          (merged z).focus.memArea (merged z).focus.size)
      else none := by
  obtain ⟨-, hlist, -⟩ := findMn_eq_some hfind
  have htiles := hwf.tiles
  rw [← hlist] at htiles
  have hb := focus_bounds htiles
  have hend := hwf.range.le
  have hsum := freeSum_add_usedSum hwf.tiles
  have hmem := focus_size_le_usedSum hlist hused
  have havail := hwf.avail
  have hsize := hwf.size
  have hadd : uwrap 64 ((s.mp.avail : Int) + z.focus.size) = s.mp.avail + z.focus.size := by
    rw [uwrap_of_lt (by omega) (by omega)]
    omega
  have hle : s.mp.avail + z.focus.size ≤ s.mp.size := by omega
  have hfreed : PoolTiles z.focus.memArea ({ z.focus with used := false } :: z.after) hi :=
    ⟨rfl, hb.2.1, (tiles_focus htiles).2.2.2⟩
  have hnext := absorbNext_eq { z.focus with used := false } z.after hwf.range hb.1 hfreed
  rw [← mergeNext_eq_absorbNext hfreed] at hnext
  simp only [smfree, hbad, if_false, hfind, hused, Bool.not_true, Bool.false_eq_true, cAssert,
    hb.2.1, if_true, Option.bind_eq_bind, Option.bind_some, hadd, SmState.setAvail_mp, hle, hnext]
  split
  · rename_i hnu
    simp only [Option.bind_some]
    -- the freed node has swallowed the area behind it, so a used node follows
    have htiles' : PoolTiles lo
        (Zipper.toList ⟨z.before, { z.focus with
          size := z.focus.size + nextFree z.after, used := false }, dropFree z.after⟩) hi := by
      refine tiles_replace [{ z.focus with
        size := z.focus.size + nextFree z.after, used := false }] htiles ?_
      simp
      omega
    rw [mergePrev_eq hwf.range htiles' rfl hnu]
    simp [merged, nextFree_of_nextUsed hnu, dropFree_of_nextUsed hnu, Nat.add_assoc]
  · rfl

end Free

/-! ## Resizing a block in place -/

section Resize

variable {lo hi size : Nat} {s : SmState} {z : Zipper MemNode}

/-- Shrinking gives the rest to the free space behind the block. -/
theorem shrinkMn_eq (hwf : WellFormed lo hi s.mp) (hlist : z.toList = s.mp.nodes)
    (hused : z.focus.used = true) (hpos : 0 < size) (hlt : size < z.focus.size) :
    shrinkMn s z size =
      some (z.focus.memArea, smUncommit
        ((s.setAvail (s.mp.avail + (z.focus.size - size))).setNodes (takenNodes z size))
        (z.focus.memArea + size) (z.focus.size + nextFree z.after - size)) := by
  have htiles := hwf.tiles
  rw [← hlist] at htiles
  have hb := focus_bounds htiles
  have hend := hwf.range.le
  have hsum := freeSum_add_usedSum hwf.tiles
  have hmem := focus_size_le_usedSum hlist hused
  have havail := hwf.avail
  have hsize := hwf.size
  have hadd : uwrap 64 ((s.mp.avail : Int) + ((z.focus.size : Int) - size)) =
      s.mp.avail + (z.focus.size - size) := by
    rw [uwrap_of_lt (by omega) (by omega)]
    omega
  have hle : s.mp.avail + (z.focus.size - size) ≤ s.mp.size := by omega
  have hrest : 0 < z.focus.size + nextFree z.after - size := by omega
  simp only [shrinkMn, hadd, SmState.setAvail_mp, cAssert, hle, if_true, Option.bind_eq_bind,
    Option.bind_some, mntruncate_shortened hwf.range htiles hpos hlt, shortened,
    freeArea_of_pos _ hrest, List.cons_append, takenNodes, ← hused]
  rfl

/-- Growing takes the space from the free area behind the block.  It aborts
exactly when it uses that area up and another free one follows. -/
theorem growMn_eq (com : CommitFn) (hwf : WellFormed lo hi s.mp)
    (hlist : z.toList = s.mp.nodes) (hused : z.focus.used = true)
    (hnext : nextUsed z.after = false) (hlt : z.focus.size < size)
    (hfit : size ≤ z.focus.size + nextFree z.after) :
    growMn com s z size =
      if granted com s (z.focus.memArea + z.focus.size) (size - z.focus.size) then
        if size = z.focus.size + nextFree z.after ∧ nextUsed (dropFree z.after) = false then none
        else some (z.focus.memArea,
          (cleared ((committed s (z.focus.memArea + z.focus.size) (size - z.focus.size)).setAvail
            (s.mp.avail - (size - z.focus.size))) (z.focus.memArea + z.focus.size)
              (size - z.focus.size)).setNodes (takenNodes z size))
      else some (badAddr,
        refused s (z.focus.memArea + z.focus.size) (size - z.focus.size)) := by
  have htiles := hwf.tiles
  rw [← hlist] at htiles
  have hb := focus_bounds htiles
  have hafter := (tiles_focus htiles).2
  have havail : size - z.focus.size ≤ s.mp.avail := by
    have hfree := freeSum_dropFree z.after
    have hall : freeSum s.mp.nodes = freeSum z.before + freeSum z.after := by
      rw [← hlist]
      simp [Zipper.toList, hused]
    have := hwf.avail
    omega
  have htrunc := mntruncate_eq z.focus z.after size hafter hwf.range.le
    (by have := hwf.range.small; omega) (by omega) hfit
  have hne : size ≠ z.focus.size := by omega
  obtain ⟨before, mn, next⟩ := z
  cases next with
  | nil => simp [nextUsed] at hnext
  | cons nmn rest =>
      have hnlo : nmn.memArea = mn.memArea + mn.size := hafter.2.2.1
      simp only at hused hb havail htrunc hne hlt
      simp only [growMn, hnlo]
      rw [smCommitSimple_eq com s havail]
      split
      · simp only [Option.bind_eq_bind, Option.bind_some, Bool.not_true, Bool.false_eq_true,
          if_false, htrunc, hne, ne_eq, not_false_eq_true, true_and]
        split
        · rfl
        · simp only [Option.bind_some, cAssert, if_true, cleared, SmState.setAvail_mp,
            committed_mp, takenNodes, Zipper.toList_mk, List.cons_append, hused]
          split <;> rfl
      · simp

end Resize

/-! ## Moving a block down -/

/-- A block together with the free area before it, seen as one node. -/
def widened (before : List MemNode) (pmn mn : MemNode) (next : List MemNode) : Zipper MemNode where
  before := before
  focus := { size := pmn.size + mn.size, used := true, memArea := pmn.memArea }
  after := next

/-- The first of the two commits of a move: the part of the block that lands in
the free area before it. -/
def moveCommit (s : SmState) (pmn : MemNode) (size : Nat) : SmState :=
  (committed s pmn.memArea (min size pmn.size)).setAvail (s.mp.avail - min size pmn.size)

/-- The second commit of a move, made when the block also grows upwards. -/
def moveCommitNext (s : SmState) (pmn mn : MemNode) (size : Nat) : SmState :=
  if pmn.size + mn.size < size then
    (committed (moveCommit s pmn size) (mn.memArea + mn.size) (size - pmn.size - mn.size)).setAvail
      (s.mp.avail + mn.size - size)
  else moveCommit s pmn size

/-- The pool after a block was moved, before the rest is uncommitted; `t` is the
pool the commits leave. -/
def movedState (s t : SmState) (before : List MemNode) (pmn mn : MemNode) (next : List MemNode)
    (size : Nat) : SmState :=
  ((cleared ((t.setNodes (Zipper.toList ⟨before, { pmn with used := true }, mn :: next⟩)).emit
    (.memmove pmn.memArea mn.memArea mn.size)) (pmn.memArea + mn.size) (size - mn.size)).setAvail
      (s.mp.avail + mn.size - size)).setNodes (takenNodes (widened before pmn mn next) size)

/-- Uncommit an area unless it is empty. -/
def uncommitRest (s : SmState) (addr size : Nat) : SmState :=
  if size = 0 then s else smUncommit s addr size

@[simp]
theorem uncommitRest_mp (s : SmState) (addr size : Nat) :
    (uncommitRest s addr size).mp = s.mp := by
  unfold uncommitRest
  split <;> simp

section Move

variable {lo hi size : Nat} {s : SmState} {before next : List MemNode} {pmn mn : MemNode}

theorem tiles_widened
    (h : PoolTiles lo (Zipper.toList ⟨pmn :: before, mn, next⟩) hi) :
    PoolTiles lo (widened before pmn mn next).toList hi := by
  rw [Zipper.toList_cons_before] at h
  obtain ⟨hbefore, hlo, hpos, hmlo, hmpos, hnext⟩ := tiles_focus h
  refine tiles_append.mpr ⟨_, hbefore, rfl, ?_, ?_⟩
  · simp only [widened]
    omega
  · have hsum : pmn.memArea + (widened before pmn mn next).focus.size =
        pmn.memArea + pmn.size + mn.size := by
      simp only [widened]
      omega
    rw [hsum]
    exact hnext

/-- The nodes after a move: the block swallows the free area before it and
what it needs of the one behind. -/
theorem move_nodes_eq (hr : PoolRange lo hi)
    (h : PoolTiles lo (Zipper.toList ⟨pmn :: before, mn, next⟩) hi) (hpos : 0 < size)
    (hfit : size ≤ pmn.size + mn.size + nextFree next) :
    (do let (mn, next) ← absorbNext { mn with used := false } next
        mntruncate { pmn with used := true } (mn :: next) size) =
      if nextUsed (dropFree next) then
        some ({ size := size, used := true, memArea := pmn.memArea },
          freeArea (pmn.memArea + size) (pmn.size + mn.size + nextFree next - size) ++
            dropFree next)
      else none := by
  have hend := hr.le
  have hsmall := hr.small
  rw [Zipper.toList_cons_before] at h
  obtain ⟨hbefore, -, hppos, hmlo, hmpos, hnext⟩ := tiles_focus h
  have hlo := hbefore.le
  have hle := PoolTiles.nextFree_le hnext
  have hdrop := PoolTiles.dropFree hnext
  simp only at hmlo hmpos hnext hlo hle hdrop hppos
  rw [absorbNext_eq { mn with used := false } next hr (by simp only; omega)
    ⟨rfl, hmpos, by simpa only [hmlo] using hnext⟩]
  split
  · rename_i hnu
    have htrunc := mntruncate_eq { pmn with used := true }
      ({ mn with size := mn.size + nextFree next, used := false } :: dropFree next) size
      (a := pmn.memArea) ⟨rfl, hppos, hmlo, by simp only; omega,
        by simpa only [Nat.add_assoc] using hdrop⟩ hend
      (by omega) hpos (by simp only [nextFree_cons_free]; omega)
    simp only [nextFree_cons_free, dropFree_cons_free, hnu, Bool.true_eq_false, and_false,
      if_false] at htrunc
    simp only [Option.bind_eq_bind, Option.bind_some, htrunc, Nat.add_assoc]
  · rfl

/-- The end of a move on the pool the commits leave: it aborts exactly when a
free area behind the block has a free neighbour itself. -/
theorem finishMove_eq {t : SmState} (hwf : WellFormed lo hi s.mp)
    (hlist : Zipper.toList ⟨pmn :: before, mn, next⟩ = s.mp.nodes)
    (hused : mn.used = true) (hlt : mn.size < size)
    (hfit : size ≤ pmn.size + mn.size + nextFree next) (hsize : t.mp.size = s.mp.size)
    (havail : t.mp.avail + (mn.size - (size - pmn.size)) = s.mp.avail + mn.size - size) :
    finishMove t before pmn mn next size =
      if nextUsed (dropFree next) then
        some (some { size := size, used := true, memArea := pmn.memArea },
          uncommitRest (movedState s t before pmn mn next size) (pmn.memArea + size)
            (pmn.size + mn.size + nextFree next - size))
      else none := by
  have htiles := hwf.tiles
  rw [← hlist] at htiles
  have hend := hwf.range.le
  have hnodes := move_nodes_eq hwf.range htiles (by omega) hfit
  have hsum := freeSum_add_usedSum hwf.tiles
  have hmem := focus_size_le_usedSum hlist hused
  have hfree := hwf.avail
  have hpool := hwf.size
  rw [Zipper.toList_cons_before] at htiles
  obtain ⟨hbefore, -, hppos, hmlo, hmpos, hnext⟩ := tiles_focus htiles
  have hle := PoolTiles.nextFree_le hnext
  simp only at hmlo hmpos hnext hppos hle
  have haddr : uwrap 32 ((pmn.memArea : Int) + mn.size) = pmn.memArea + mn.size := by
    rw [uwrap_of_lt (by omega) (by omega)]
    omega
  have hback : uwrap 64 ((t.mp.avail : Int) + (mn.size - (size - pmn.size) : Nat)) =
      s.mp.avail + mn.size - size := by
    rw [uwrap_of_lt (by omega) (by omega)]
    omega
  set u := cleared ((t.setNodes (Zipper.toList ⟨before, { pmn with used := true },
    mn :: next⟩)).emit (.memmove pmn.memArea mn.memArea mn.size)) (pmn.memArea + mn.size)
      (size - mn.size) with hu
  have hump : u.mp.avail = t.mp.avail ∧ u.mp.size = t.mp.size := by simp [hu]
  -- on every path `avail` ends up as the difference of the two sizes
  have hset : (if size < pmn.size + mn.size then
        u.setAvail (uwrap 64 (u.mp.avail + (mn.size - (size - pmn.size) : Nat))) else u) =
      u.setAvail (s.mp.avail + mn.size - size) := by
    split
    · rw [hump.1, hback]
    · have hav : s.mp.avail + mn.size - size = u.mp.avail := by rw [hump.1]; omega
      rw [hav]
      rfl
  have hassert : size < pmn.size + mn.size → s.mp.avail + mn.size - size ≤ t.mp.size := by omega
  unfold finishMove
  simp only [haddr, ← hu]
  rw [hset]
  simp only [SmState.setAvail_mp, hump.2, Option.bind_eq_bind, cAssert_bind hassert]
  simp only [Option.bind_eq_bind] at hnodes
  rw [← Option.bind_assoc, hnodes]
  cases hru : nextUsed (dropFree next)
  · rfl
  · simp only [if_true, Option.bind_some, uncommitRest, movedState, ← hu]
    simp only [takenNodes, widened, Zipper.toList_mk, List.cons_append]
    by_cases hrest : pmn.size + mn.size + nextFree next - size = 0
    · simp only [hrest, freeArea_zero, List.nil_append, if_true]
      split
      · rfl
      · rename_i heq
        rw [heq] at hru
        simp only [nextUsed] at hru
        simp [hru]
    · simp [hrest, freeArea]

/-- Moving a block: each of the two commits may be refused, and the second
refusal takes the first commit back. -/
theorem moveToPrev_eq (com : CommitFn) (hwf : WellFormed lo hi s.mp)
    (hlist : Zipper.toList ⟨pmn :: before, mn, next⟩ = s.mp.nodes)
    (hpfree : pmn.used = false) (hused : mn.used = true) (hlt : mn.size < size)
    (hfit : size ≤ pmn.size + mn.size + nextFree next) :
    moveToPrev com s before pmn mn next size =
      if granted com s pmn.memArea (min size pmn.size) = false then
        some (none, refused s pmn.memArea (min size pmn.size))
      else if pmn.size + mn.size < size ∧ granted com (moveCommit s pmn size)
          (mn.memArea + mn.size) (size - pmn.size - mn.size) = false then
        some (none, smUncommit ((refused (moveCommit s pmn size) (mn.memArea + mn.size)
          (size - pmn.size - mn.size)).setAvail s.mp.avail) pmn.memArea (min size pmn.size))
      else if nextUsed (dropFree next) then
        some (some { size := size, used := true, memArea := pmn.memArea },
          uncommitRest (movedState s (moveCommitNext s pmn mn size) before pmn mn next size)
            (pmn.memArea + size) (pmn.size + mn.size + nextFree next - size))
      else none := by
  have hfree : pmn.size + nextFree next ≤ s.mp.avail := by
    have := freeSum_dropFree next
    rw [hwf.avail, ← hlist]
    simp only [Zipper.toList_mk, List.reverse_cons, List.append_assoc, freeSum_append,
      freeSum_cons, hpfree, hused, Bool.false_eq_true, if_false, if_true]
    omega
  unfold moveToPrev
  simp only
  rw [smCommitSimple_eq com s (by omega)]
  cases hg : granted com s pmn.memArea (min size pmn.size)
  · simp
  simp only [if_true, Option.bind_eq_bind, Option.bind_some, Bool.not_true, Bool.false_eq_true,
    if_false, Bool.true_eq_false]
  by_cases hup : pmn.size + mn.size < size
  · simp only [hup, if_true, true_and]
    cases next with
    | nil =>
        simp only [nextFree_nil] at hfit
        omega
    | cons nmn rest =>
        have hnlo : nmn.memArea = mn.memArea + mn.size := by
          have htiles := hwf.tiles
          rw [← hlist] at htiles
          exact (tiles_focus htiles).2.2.2.1
        have hppos := (focus_bounds (by
          have htiles := hwf.tiles
          rwa [← hlist, Zipper.toList_cons_before] at htiles)).2.1
        simp only at hppos
        have hbound := hwf.avail_le
        have hsmall := hwf.range.small
        have hback : uwrap 64 (((s.mp.avail - min size pmn.size : Nat) : Int) +
            (min size pmn.size : Nat)) = s.mp.avail := by
          rw [uwrap_of_lt (by omega) (by omega)]
          omega
        have hpne : min size pmn.size ≠ 0 := by omega
        have hleft : s.mp.avail - min size pmn.size - (size - pmn.size - mn.size) =
            s.mp.avail + mn.size - size := by omega
        simp only [hnlo]
        rw [← moveCommit, smCommit_eq com (moveCommit s pmn size) _ _
          (by simp only [moveCommit, SmState.setAvail_mp]; omega)]
        have havail : (moveCommit s pmn size).mp.avail = s.mp.avail - min size pmn.size := rfl
        rw [havail, hback, if_pos hpne, hleft]
        cases hg2 : granted com (moveCommit s pmn size) (mn.memArea + mn.size)
          (size - pmn.size - mn.size)
        · simp
        · have hfin := finishMove_eq (t := moveCommitNext s pmn mn size) hwf hlist hused hlt hfit
            (by simp [moveCommitNext, moveCommit, hup])
            (by simp only [moveCommitNext, hup, if_true, SmState.setAvail_mp]; omega)
          simp only [if_true, Option.bind_some, Bool.not_true, Bool.false_eq_true, if_false,
            Bool.true_eq_false]
          rw [← hfin]
          simp only [moveCommitNext, hup, if_true]
  · have hfin := finishMove_eq (t := moveCommitNext s pmn mn size) hwf hlist hused hlt hfit
      (by simp [moveCommitNext, moveCommit, hup])
      (by simp only [moveCommitNext, moveCommit, hup, if_false, SmState.setAvail_mp]; omega)
    simp only [hup, if_false, false_and]
    rw [← hfin]
    simp only [moveCommitNext, moveCommit, hup, if_false]

end Move

/-- A block that cannot grow in place is moved down or relocated. -/
theorem smReallocAllocMn_cases (com : CommitFn) {lo hi : Nat} {s : SmState} {z : Zipper MemNode}
    (hwf : WellFormed lo hi s.mp) (hlist : z.toList = s.mp.nodes) (size : Nat) :
    smReallocAllocMn com s z size = relocate com s z.focus size ∨
      ∃ pmn before, z.before = pmn :: before ∧ pmn.used = false ∧
        size ≤ pmn.size + z.focus.size + nextFree z.after ∧
        smReallocAllocMn com s z size =
          moveToPrev com s before pmn z.focus z.after size := by
  obtain ⟨before, mn, next⟩ := z
  cases before with
  | nil => exact Or.inl rfl
  | cons pmn before =>
      have htiles := hwf.tiles
      rw [← hlist, Zipper.toList_cons_before] at htiles
      obtain ⟨-, -, -, -, -, hnext⟩ := tiles_focus htiles
      have hle := PoolTiles.nextFree_le hnext
      have hend := hwf.range.le
      simp only at hle
      have hsum : uwrap 64 ((pmn.size : Int) + mn.size + nextFree next) =
          pmn.size + mn.size + nextFree next := by
        rw [← Nat.cast_add]
        exact uwrap_add (by omega)
      simp only [smReallocAllocMn, hsum]
      split
      · rename_i hcond
        simp only [Bool.and_eq_true, Bool.not_eq_true', decide_eq_true_eq] at hcond
        exact Or.inr ⟨pmn, before, rfl, hcond.1, hcond.2, rfl⟩
      · exact Or.inl rfl

end Smalloc
end Dosemu
