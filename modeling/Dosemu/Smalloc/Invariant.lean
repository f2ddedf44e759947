import Dosemu.Lib.Run
import Dosemu.Smalloc.Alloc

/-!
# The invariant of a pool

Whatever is called and whatever the commit callback answers, the nodes keep
tiling the pool and `avail` keeps counting the free ones, provided that no size
test wraps around and that alignments fit the `unsigned int` in which they are
checked.  As long as no commit was refused, free neighbours are always merged
and no assert fails.

Main results:

- Theorem `step_outcome`: one call keeps the invariant, and aborts only after
  a refused commit.
- Theorem `pool_invariant`: the invariant over whole runs.
-/

namespace Dosemu
namespace Smalloc

open MachineInt Tiling

/-! ## Refused commits -/

/-- The event is a refused commit. -/
def SmEvent.isRefusal : SmEvent → Bool
  | .commit _ _ false => true
  | _ => false

/-- Some commit was refused so far. -/
def SmState.failed (s : SmState) : Bool :=
  s.log.any fun e => e.event.isRefusal

section Failed

variable (s : SmState) (addr size : Nat)

@[simp]
theorem failed_emit (e : SmEvent) : (s.emit e).failed = (s.failed || e.isRefusal) := by
  simp [SmState.failed, List.any_append]

@[simp]
theorem failed_setNodes (nodes : List MemNode) : (s.setNodes nodes).failed = s.failed :=
  rfl

@[simp]
theorem failed_setAvail (avail : Nat) : (s.setAvail avail).failed = s.failed :=
  rfl

@[simp]
theorem failed_smerror (msg : SmMsg) : (s.smerror msg).failed = s.failed := by
  simp [SmState.smerror, SmEvent.isRefusal]

@[simp]
theorem failed_cleared : (cleared s addr size).failed = s.failed := by
  unfold cleared
  split <;> simp [SmEvent.isRefusal]

@[simp]
theorem failed_committed : (committed s addr size).failed = s.failed := by
  unfold committed
  split <;> simp [SmEvent.isRefusal]

@[simp]
theorem failed_refused : (refused s addr size).failed = true := by
  simp [refused, SmEvent.isRefusal]

@[simp]
theorem failed_smUncommit : (smUncommit s addr size).failed = s.failed := by
  unfold smUncommit
  dsimp only
  split <;> simp [SmEvent.isRefusal]

@[simp]
theorem failed_uncommitRest : (uncommitRest s addr size).failed = s.failed := by
  unfold uncommitRest
  split <;> simp

end Failed

theorem failed_findMn (s : SmState) (ptr : Nat) : (findMn s ptr).1.failed = s.failed := by
  unfold findMn
  split <;> simp

theorem Reported.failed_eq {s t : SmState} (h : Reported s t) : t.failed = s.failed := by
  obtain ⟨e, he, rfl⟩ := h
  cases e <;> simp_all [SmEvent.isReport, SmEvent.isRefusal]

/-! ## The invariant -/

/-- The nodes tile the pool, `avail` is the free space, and no two neighbours
are free unless a commit was refused. -/
structure PoolInv (lo hi : Nat) (s : SmState) : Prop where
  wf : WellFormed lo hi s.mp
  pairs : s.failed = false → NoFreePairs s.mp.nodes

section Inv

variable {lo hi size : Nat} {s t : SmState} {z : Zipper MemNode}

/-- The invariant looks at the pool and at refused commits only. -/
theorem PoolInv.congr (h : PoolInv lo hi s) (hmp : t.mp = s.mp) (hfail : t.failed = s.failed) :
    PoolInv lo hi t where
  wf := hmp ▸ h.wf
  pairs hf := by
    rw [hmp]
    exact h.pairs (hfail ▸ hf)

theorem PoolInv.reported (h : PoolInv lo hi s) (hr : Reported s t) : PoolInv lo hi t :=
  h.congr hr.mp_eq hr.failed_eq

theorem freeSum_toList (z : Zipper MemNode) :
    freeSum z.toList = freeSum z.before + ((if z.focus.used then 0 else z.focus.size) +
      freeSum z.after) := by
  simp [Zipper.toList]

theorem freeSum_takenNodes (z : Zipper MemNode) (size : Nat) :
    freeSum (takenNodes z size) = freeSum z.before +
      ((z.focus.size + nextFree z.after - size) + freeSum (dropFree z.after)) := by
  simp [takenNodes]

/-- Free space is what the used nodes leave. -/
theorem freeSum_eq_of_used {nodes nodes' : List MemNode} (h : PoolTiles lo nodes hi)
    (h' : PoolTiles lo nodes' hi) (hused : usedNodes nodes' = usedNodes nodes) :
    freeSum nodes' = freeSum nodes := by
  have hsum := freeSum_add_usedSum h
  have hsum' := freeSum_add_usedSum h'
  rw [hused] at hsum'
  omega

/-- A used node separates what is before it from what is behind. -/
theorem noFreePairs_takenNodes (hbefore : NoFreePairs z.before) (hafter : NoFreePairs z.after)
    (size : Nat) : NoFreePairs (takenNodes z size) := by
  unfold takenNodes
  rw [List.cons_append]
  refine noFreePairs_append_cons.mpr
    ⟨noFreePairs_cons.mpr ⟨Or.inl rfl, hbefore⟩, noFreePairs_cons.mpr ⟨Or.inl rfl, ?_⟩⟩
  exact hafter.dropFree.freeArea_append hafter.nextUsed_dropFree _ _

/-- Placing a block keeps the invariant; if the block is handed out, no commit
was refused on the way. -/
theorem placeBlock_inv (com : CommitFn) (h : PoolInv lo hi s) (hpos : 0 < size)
    (hz : ChosenCursor lo hi s.mp.nodes size z) :
    PoolInv lo hi (placeBlock com s z size).2 ∧
      ∀ m ∈ (placeBlock com s z size).1, m.size = size ∧
        (placeBlock com s z size).2.failed = s.failed := by
  have hfree := freeSum_eq_of_used h.wf.tiles hz.tiles hz.used
  have havail := h.wf.avail
  unfold placeBlock
  split
  · refine ⟨⟨⟨h.wf.range, ?_, ?_, ?_⟩, ?_⟩, ?_⟩
    · simpa using tiles_takenNodes hz.tiles hpos (le_trans hz.fits (Nat.le_add_right _ _))
    · have hdrop := freeSum_dropFree z.after
      have hfits := hz.fits
      rw [freeSum_toList, hz.free] at hfree
      simp only [cleared_mp, SmState.setNodes_mp, SmState.setAvail_mp, freeSum_takenNodes]
      simp only [Bool.false_eq_true, if_false] at hfree
      omega
    · simpa using h.wf.size
    · intro hf
      have hpairs := hz.pairs (h.pairs (by simpa using hf))
      simpa using noFreePairs_takenNodes hpairs.1 hpairs.2 size
    · simp
  · refine ⟨⟨⟨h.wf.range, ?_, ?_, ?_⟩, ?_⟩, ?_⟩
    · simpa using hz.tiles
    · simp only [refused_mp, SmState.setNodes_mp]
      omega
    · simpa using h.wf.size
    · simp
    · simp

end Inv

/-- A call that places a block returns and keeps the invariant; if the block is
handed out, no commit was refused on the way. -/
theorem placeOrReport_inv (com : CommitFn) {lo hi size : Nat} {s t : SmState}
    {place : Option Placement} (h : PoolInv lo hi s) (hpos : 0 < size) (ht : Reported s t)
    (hp : ∀ p ∈ place, p.Fits s.mp.nodes size) :
    PoolInv lo hi (placeOrReport com s t place size).2 ∧
      ∀ m ∈ (placeOrReport com s t place size).1, m.size = size ∧
        (placeOrReport com s t place size).2.failed = s.failed := by
  cases place with
  | none => exact ⟨h.reported ht, by simp [placeOrReport]⟩
  | some p => exact placeBlock_inv com h hpos ((hp p rfl).chosen h.wf.tiles hpos)

/-! ## Freeing and resizing -/

section Free

variable {lo hi ptr size : Nat} {s : SmState} {z : Zipper MemNode}

theorem freeSum_merged (hused : z.focus.used = true) :
    freeSum (merged z).toList = freeSum z.toList + z.focus.size := by
  have hb := freeSum_dropFree z.before
  have ha := freeSum_dropFree z.after
  rw [freeSum_toList, freeSum_toList]
  simp only [merged, hused, Bool.false_eq_true, if_false, if_true]
  omega

/-- The neighbours of a used block in a pool without free pairs. -/
theorem noFreePairs_sides (h : NoFreePairs z.toList) :
    NoFreePairs z.before ∧ NoFreePairs z.after := by
  obtain ⟨hbefore, hafter⟩ := noFreePairs_append_cons.mp h
  exact ⟨(noFreePairs_cons.mp hbefore).2, (noFreePairs_cons.mp hafter).2⟩

/-- Merging on both sides leaves no free pair. -/
theorem noFreePairs_merged (h : NoFreePairs z.toList) : NoFreePairs (merged z).toList := by
  obtain ⟨hbefore, hafter⟩ := noFreePairs_sides h
  refine noFreePairs_append_cons.mpr ⟨noFreePairs_cons.mpr ⟨Or.inr ?_, hbefore.dropFree⟩,
    noFreePairs_cons.mpr ⟨Or.inr ?_, hafter.dropFree⟩⟩
  · exact hbefore.nextUsed_dropFree
  · exact hafter.nextUsed_dropFree

/-- `smfree` keeps the invariant, and aborts only after a refused commit. -/
theorem smfree_outcome (h : PoolInv lo hi s) (ptr : Nat) :
    Outcome (s.failed = false) (fun r => PoolInv lo hi r.2 ∧ r.2.failed = s.failed)
      (smfree s ptr) := by
  by_cases hbad : ptr = badAddr
  · simp [smfree, hbad, h]
  cases hfind : findMn s ptr with
  | mk t found =>
      have hmp := findMn_mp s ptr
      have hfail := failed_findMn s ptr
      rw [hfind] at hmp hfail
      cases found with
      | none =>
          simp only [smfree, hbad, if_false, hfind]
          exact ⟨h.congr (by simpa using hmp) (by simpa using hfail), by simpa using hfail⟩
      | some z =>
          obtain ⟨rfl, hlist, -⟩ := findMn_eq_some hfind
          cases hused : z.focus.used
          · simp only [smfree, hbad, if_false, hfind, hused]
            exact ⟨h.reported (reported_smerror _ _), by simp⟩
          · rw [smfree_eq h.wf hbad hfind hused]
            split
            · refine ⟨⟨⟨h.wf.range, ?_, ?_, ?_⟩, ?_⟩, by simp⟩
              · simpa using tiles_merged (hlist ▸ h.wf.tiles)
              · simp only [smUncommit_mp, SmState.setNodes_mp, SmState.setAvail_mp,
                  freeSum_merged hused, hlist, h.wf.avail]
              · simpa using h.wf.size
              · intro hf
                have hpairs := h.pairs (by simpa using hf)
                rw [← hlist] at hpairs
                simpa using noFreePairs_merged hpairs
            · rename_i hno
              intro hf
              have hpairs := h.pairs hf
              rw [← hlist] at hpairs
              exact hno (noFreePairs_sides hpairs).2.nextUsed_dropFree

/-- A block that gives up or takes over free space behind it keeps the
invariant. -/
theorem takenNodes_inv {t : SmState} (h : PoolInv lo hi s) (hlist : z.toList = s.mp.nodes)
    (hused : z.focus.used = true) (hpos : 0 < size)
    (hfit : size ≤ z.focus.size + nextFree z.after) (hnodes : t.mp.nodes = takenNodes z size)
    (hsize : t.mp.size = s.mp.size) (havail : t.mp.avail + size = s.mp.avail + z.focus.size)
    (hfail : t.failed = false → s.failed = false) : PoolInv lo hi t := by
  refine ⟨⟨h.wf.range, ?_, ?_, hsize.trans h.wf.size⟩, ?_⟩
  · rw [hnodes]
    exact tiles_takenNodes (hlist ▸ h.wf.tiles) hpos hfit
  · have hdrop := freeSum_dropFree z.after
    have hfree := h.wf.avail
    rw [← hlist, freeSum_toList, hused] at hfree
    rw [hnodes, freeSum_takenNodes]
    simp only [if_true] at hfree
    omega
  · intro hf
    have hpairs := h.pairs (hfail hf)
    rw [← hlist] at hpairs
    rw [hnodes]
    exact noFreePairs_takenNodes (noFreePairs_sides hpairs).1 (noFreePairs_sides hpairs).2 size

/-- A refused commit that changes neither nodes nor `avail` keeps the invariant. -/
theorem PoolInv.of_failed {t : SmState} (h : PoolInv lo hi s) (hmp : t.mp = s.mp)
    (hfail : t.failed = true) : PoolInv lo hi t :=
  ⟨hmp ▸ h.wf, fun hf => by simp [hfail] at hf⟩

/-- What a resized block leaves. -/
def ReallocPost (lo hi : Nat) (size : Nat) (r : Option MemNode × SmState) : Prop :=
  PoolInv lo hi r.2 ∧ ∀ m ∈ r.1, m.size = size

theorem shrinkMn_inv (h : PoolInv lo hi s) (hlist : z.toList = s.mp.nodes)
    (hused : z.focus.used = true) (hpos : 0 < size) (hlt : size < z.focus.size) :
    ∃ r, shrinkMn s z size = some r ∧ PoolInv lo hi r.2 := by
  refine ⟨_, shrinkMn_eq h.wf hlist hused hpos hlt, ?_⟩
  refine takenNodes_inv h hlist hused hpos (by omega) (by simp) (by simp) ?_ (by simp)
  simp only [smUncommit_mp, SmState.setNodes_mp, SmState.setAvail_mp]
  omega

theorem growMn_outcome (com : CommitFn) (h : PoolInv lo hi s) (hlist : z.toList = s.mp.nodes)
    (hused : z.focus.used = true) (hnext : nextUsed z.after = false)
    (hlt : z.focus.size < size) (hfit : size ≤ z.focus.size + nextFree z.after) :
    Outcome (s.failed = false) (fun r => PoolInv lo hi r.2) (growMn com s z size) := by
  have havail : size - z.focus.size ≤ s.mp.avail := by
    have hdrop := freeSum_dropFree z.after
    rw [h.wf.avail, ← hlist, freeSum_toList]
    omega
  rw [growMn_eq com h.wf hlist hused hnext hlt hfit]
  split
  · split
    · rename_i hno
      intro hf
      have hpairs := h.pairs hf
      rw [← hlist] at hpairs
      simp [(noFreePairs_sides hpairs).2.nextUsed_dropFree] at hno
    · refine takenNodes_inv h hlist hused (by omega) hfit (by simp) (by simp) ?_ (by simp)
      simp only [SmState.setNodes_mp, cleared_mp, SmState.setAvail_mp]
      omega
  · exact h.of_failed (by simp) (by simp)

theorem widened_toList_inv {before next : List MemNode} {pmn mn : MemNode} {t : SmState}
    (h : PoolInv lo hi s) (hlist : Zipper.toList ⟨pmn :: before, mn, next⟩ = s.mp.nodes)
    (hpfree : pmn.used = false) (hused : mn.used = true) (hlt : mn.size < size)
    (hfit : size ≤ pmn.size + mn.size + nextFree next)
    (hnodes : t.mp.nodes = takenNodes (widened before pmn mn next) size)
    (hsize : t.mp.size = s.mp.size) (havail : t.mp.avail = s.mp.avail + mn.size - size)
    (hfail : t.failed = false → s.failed = false) : PoolInv lo hi t := by
  have htiles := h.wf.tiles
  rw [← hlist] at htiles
  refine ⟨⟨h.wf.range, ?_, ?_, hsize.trans h.wf.size⟩, ?_⟩
  · rw [hnodes]
    exact tiles_takenNodes (tiles_widened htiles) (by omega) hfit
  · have hdrop := freeSum_dropFree next
    have hfree := h.wf.avail
    rw [← hlist, freeSum_toList, hused] at hfree
    rw [hnodes, freeSum_takenNodes, havail]
    simp only [widened, freeSum_cons, hpfree, Bool.false_eq_true, if_true, if_false] at hfree ⊢
    omega
  · intro hf
    have hpairs := h.pairs (hfail hf)
    rw [← hlist] at hpairs
    obtain ⟨hb, ha⟩ := noFreePairs_sides hpairs
    rw [hnodes]
    exact noFreePairs_takenNodes (z := widened before pmn mn next) (noFreePairs_cons.mp hb).2 ha
      size

theorem moveToPrev_outcome (com : CommitFn) {before next : List MemNode} {pmn mn : MemNode}
    (h : PoolInv lo hi s) (hlist : Zipper.toList ⟨pmn :: before, mn, next⟩ = s.mp.nodes)
    (hpfree : pmn.used = false) (hused : mn.used = true) (hlt : mn.size < size)
    (hfit : size ≤ pmn.size + mn.size + nextFree next) :
    Outcome (s.failed = false) (ReallocPost lo hi size)
      (moveToPrev com s before pmn mn next size) := by
  rw [moveToPrev_eq com h.wf hlist hpfree hused hlt hfit]
  split
  · exact ⟨h.of_failed (by simp) (by simp), by simp⟩
  split
  · exact ⟨h.of_failed (by simp [moveCommit]) (by simp), by simp⟩
  split
  · refine ⟨widened_toList_inv h hlist hpfree hused hlt hfit ?_ ?_ ?_ ?_, by simp⟩
    · simp [movedState]
    · simp only [movedState, uncommitRest_mp, SmState.setNodes_mp, SmState.setAvail_mp,
        cleared_mp, SmState.emit_mp, moveCommitNext, moveCommit]
      split <;> simp
    · simp [movedState]
    · simp only [movedState, failed_uncommitRest, failed_setNodes, failed_setAvail,
        failed_cleared, failed_emit, SmEvent.isRefusal, Bool.or_false, moveCommitNext, moveCommit]
      split <;> simp
  · rename_i hno
    intro hf
    have hpairs := h.pairs hf
    rw [← hlist] at hpairs
    exact hno (noFreePairs_sides hpairs).2.nextUsed_dropFree

theorem relocate_outcome (com : CommitFn) {mn : MemNode} (h : PoolInv lo hi s)
    (hsize : size ≠ 0) (hlt : size < 2 ^ 64) :
    Outcome (s.failed = false) (ReallocPost lo hi size) (relocate com s mn size) := by
  obtain ⟨u, hu, heq⟩ := smAllocMn_eq com h.wf hsize hlt
  have hpost := placeOrReport_inv com h (Nat.pos_of_ne_zero hsize) hu fun p hp =>
    (alignedPlacement_fits (k := 0) rfl (alignedNoWrap_one _ hlt) hp).1
  revert heq hpost
  generalize placeOrReport com s u (alignedPlacement s.mp.nodes 1 size) size = r
  obtain ⟨new, t⟩ := r
  rintro heq ⟨hinv, hnew⟩
  simp only [relocate, heq, Option.bind_eq_bind, Option.bind_some]
  cases new with
  | none =>
      simp only [doSmerror_oomPr, Option.bind_some]
      exact ⟨hinv.reported (reported_dump _ _ _), by simp⟩
  | some newMn =>
      obtain ⟨hnewSize, hfail⟩ := hnew newMn rfl
      have hcopied : PoolInv lo hi (t.emit (.memcpy newMn.memArea mn.memArea mn.size)) :=
        hinv.congr rfl (by simp [SmEvent.isRefusal])
      refine Outcome.bind ((smfree_outcome hcopied mn.memArea).weaken ?_) ?_
      · intro hf
        simpa [SmEvent.isRefusal, hfail] using hf
      · intro r hr
        exact ⟨hr.1, by simpa using hnewSize⟩

theorem smReallocAllocMn_outcome (com : CommitFn) (h : PoolInv lo hi s)
    (hlist : z.toList = s.mp.nodes) (hused : z.focus.used = true) (hlt : z.focus.size < size)
    (hbound : size < 2 ^ 64) :
    Outcome (s.failed = false) (ReallocPost lo hi size) (smReallocAllocMn com s z size) := by
  rcases smReallocAllocMn_cases com h.wf hlist size with heq | ⟨pmn, before, hb, hfree, hfit, heq⟩
  · rw [heq]
    exact relocate_outcome com h (by omega) hbound
  · obtain ⟨_, mn, next⟩ := z
    subst hb
    rw [heq]
    exact moveToPrev_outcome com h hlist hfree hused hlt hfit

/-- `smrealloc` keeps the invariant, and aborts only after a refused commit. -/
theorem smrealloc_outcome (com : CommitFn) (h : PoolInv lo hi s) (hptr : ptr ≠ 0)
    (hbound : size < 2 ^ 64) :
    Outcome (s.failed = false) (fun r => PoolInv lo hi r.2) (smrealloc com s ptr size) := by
  unfold smrealloc
  simp only [hptr, if_false]
  cases hfind : findMn s ptr with
  | mk t found =>
      have hmp := findMn_mp s ptr
      have hfail := failed_findMn s ptr
      rw [hfind] at hmp hfail
      cases found with
      | none => exact h.congr (by simpa using hmp) (by simpa using hfail)
      | some z =>
          obtain ⟨rfl, hlist, -⟩ := findMn_eq_some hfind
          cases hused : z.focus.used
          · simp only [hused, Bool.not_false, if_true]
            exact h.reported (reported_smerror _ _)
          simp only [hused, Bool.not_true, Bool.false_eq_true, if_false]
          refine Outcome.ite ?_ fun hsize => Outcome.ite ?_ fun hne => Outcome.ite ?_ ?_
          · intro _
            exact Outcome.bind (smfree_outcome h ptr) fun r hr => hr.1
          · intro _
            exact h
          · intro hlt
            obtain ⟨r, heq, hinv⟩ := shrinkMn_inv h hlist hused (Nat.pos_of_ne_zero hsize) hlt
            rw [heq]
            exact hinv
          · intro hge
            have hlt : z.focus.size < size := by omega
            refine Outcome.ite ?_ ?_
            · rintro ⟨hnext, hfit⟩
              have hb := focus_bounds (hlist ▸ h.wf.tiles)
              have hend := h.wf.range.le
              rw [uwrap_add (by omega)] at hfit
              exact growMn_outcome com h hlist hused hnext hlt hfit
            · intro _
              refine Outcome.bind (smReallocAllocMn_outcome com h hlist hused hlt hbound) ?_
              rintro ⟨new, t⟩ ⟨hinv, hnew⟩
              cases new with
              | none => exact hinv
              | some m => simpa [cAssert, hnew m rfl] using hinv

end Free

/-! ## Freeing everything -/

section FreeAll

variable {lo hi : Nat} {s : SmState} {z : Zipper MemNode}

theorem usedCount_eq (nodes : List MemNode) : usedCount nodes = (usedNodes nodes).length :=
  List.countP_eq_length_filter

/-- The used nodes around a cursor. -/
theorem usedNodes_toList (z : Zipper MemNode) :
    usedNodes z.toList = (usedNodes z.before).reverse ++
      ((if z.focus.used then [z.focus] else []) ++ usedNodes z.after) := by
  cases h : z.focus.used <;> simp [Zipper.toList, usedNodes_reverse, h]

/-- Freeing a block takes it, and nothing else, off the used nodes. -/
theorem usedNodes_merged (z : Zipper MemNode) :
    usedNodes (merged z).toList = (usedNodes z.before).reverse ++ usedNodes z.after := by
  rw [usedNodes_toList]
  simp [merged]

/-- A pool that does not count as used is one free area. -/
theorem tail_eq_nil_of_not_poolUsed {nodes : List MemNode} (h : poolUsed nodes = false) :
    nodes.tail = [] := by
  cases nodes with
  | nil => rfl
  | cons mn next => simp_all [poolUsed]

/-- A pool without free pairs and without used nodes does not count as used. -/
theorem not_poolUsed_of_usedNodes {nodes : List MemNode} (hpairs : NoFreePairs nodes)
    (hused : usedNodes nodes = []) : poolUsed nodes = false := by
  have hfree : ∀ mn ∈ nodes, mn.used = false := by
    intro mn hmn
    by_contra hu
    have : mn ∈ usedNodes nodes := mem_usedNodes.mpr ⟨hmn, by simpa using hu⟩
    simp [hused] at this
  cases nodes with
  | nil => rfl
  | cons mn next =>
      have hmn := hfree mn (by simp)
      cases next with
      | nil => simp [poolUsed, hmn]
      | cons nmn rest =>
          have := (noFreePairs_cons.mp hpairs).1
          simp [hmn, nextUsed, hfree nmn (by simp)] at this

theorem mem_of_pickMn {nodes : List MemNode} {p : MemNode} (h : pickMn nodes = some p) :
    p ∈ nodes := by
  cases nodes with
  | nil => simp [pickMn] at h
  | cons mn next =>
      simp only [pickMn] at h
      split at h
      · cases h
        exact List.mem_cons_self
      · exact List.mem_cons_of_mem _ (List.mem_of_mem_head? h)

/-- Without free pairs the node `smfree_all` picks is used. -/
theorem pickMn_used {nodes : List MemNode} (hpairs : NoFreePairs nodes)
    (hpool : poolUsed nodes = true) : ∃ p, pickMn nodes = some p ∧ p.used = true := by
  cases nodes with
  | nil => simp [poolUsed] at hpool
  | cons mn next =>
      cases hu : mn.used
      · cases next with
        | nil => simp [poolUsed, hu] at hpool
        | cons nmn rest =>
            have hnext := (noFreePairs_cons.mp hpairs).1
            exact ⟨nmn, by simp [pickMn, hu], by simpa [hu, nextUsed] using hnext⟩
      · exact ⟨mn, by simp [pickMn, hu], hu⟩

/-- `smfree` of a used block that is not at the top of the address space. -/
theorem smfree_used {mn : MemNode} (h : PoolInv lo hi s) (hf : s.failed = false)
    (hmem : mn ∈ s.mp.nodes) (hused : mn.used = true) (hbad : mn.memArea ≠ badAddr) :
    ∃ z, z.toList = s.mp.nodes ∧ z.focus = mn ∧
      smfree s mn.memArea = some (0, smUncommit
        ((s.setAvail (s.mp.avail + z.focus.size)).setNodes (merged z).toList)
        (merged z).focus.memArea (merged z).focus.size) := by
  obtain ⟨z, hfind, hfocus, hlist⟩ := findMn_of_mem h.wf.tiles hmem hused
  have hpairs := h.pairs hf
  rw [← hlist] at hpairs
  refine ⟨z, hlist, hfocus, ?_⟩
  rw [smfree_eq h.wf hbad hfind (hfocus ▸ hused),
    if_pos (noFreePairs_sides hpairs).2.nextUsed_dropFree]

/-- The loop of `smfree_all` keeps the invariant; without a refused commit it
ends, with a pool that does not count as used. -/
theorem smfreeAllLoop_outcome (n : Nat) (h : PoolInv lo hi s) :
    Outcome (s.failed = false ∧ usedCount s.mp.nodes ≤ n ∧ NoTopBlock s.mp.nodes)
      (fun t => PoolInv lo hi t ∧ t.failed = s.failed ∧ poolUsed t.mp.nodes = false)
      (smfreeAllLoop n s) := by
  induction n generalizing s with
  | zero =>
      simp only [smfreeAllLoop]
      split
      · rename_i hpool
        rintro ⟨hf, hcount, -⟩
        rw [usedCount_eq, Nat.le_zero, List.length_eq_zero_iff] at hcount
        simp [not_poolUsed_of_usedNodes (h.pairs hf) hcount] at hpool
      · rename_i hpool
        exact ⟨h, rfl, by simpa using hpool⟩
  | succ n ih =>
      simp only [smfreeAllLoop]
      refine Outcome.ite (fun hpool => ⟨h, rfl, by simpa using hpool⟩) fun hpool => ?_
      simp only [Bool.not_eq_true', Bool.not_eq_false] at hpool
      cases hpick : pickMn s.mp.nodes with
      | none =>
          rintro ⟨hf, -, -⟩
          obtain ⟨p, hp, -⟩ := pickMn_used (h.pairs hf) hpool
          simp [hpick] at hp
      | some p =>
          rw [Option.bind_eq_bind, Option.bind_some]
          refine Outcome.assert_bind ?_ fun hpused => ?_
          · rintro ⟨hf, -, -⟩
            obtain ⟨p', hp', hused⟩ := pickMn_used (h.pairs hf) hpool
            rw [hpick] at hp'
            cases hp'
            exact hused
          have hmem := mem_of_pickMn hpick
          by_cases hT : s.failed = false ∧ usedCount s.mp.nodes ≤ n + 1 ∧ NoTopBlock s.mp.nodes
          · -- one block less is left, and it is still none at the top
            obtain ⟨hf, hcount, htop⟩ := hT
            obtain ⟨z, hlist, hfocus, hfree⟩ := smfree_used h hf hmem hpused
              (htop p (mem_usedNodes.mpr ⟨hmem, hpused⟩))
            have hpost := smfree_outcome h p.memArea
            rw [hfree] at hpost
            obtain ⟨hinv, hfail⟩ := hpost
            have hrest := ih hinv
            rw [hfree, Option.bind_eq_bind, Option.bind_some]
            refine (hrest.weaken ?_).mono fun t ht => ⟨ht.1, ht.2.1.trans hfail, ht.2.2⟩
            rintro -
            have hall : usedNodes s.mp.nodes =
                (usedNodes z.before).reverse ++ (z.focus :: usedNodes z.after) := by
              rw [← hlist, usedNodes_toList, hfocus, hpused]
              simp
            have hleft : usedNodes (merged z).toList =
                (usedNodes z.before).reverse ++ usedNodes z.after := usedNodes_merged z
            refine ⟨hfail.trans hf, ?_, ?_⟩
            · rw [usedCount_eq, hall] at hcount
              simp only [List.length_append, List.length_cons] at hcount
              simp only [smUncommit_mp, SmState.setNodes_mp, usedCount_eq, hleft,
                List.length_append]
              omega
            · intro mn hmn
              simp only [smUncommit_mp, SmState.setNodes_mp, hleft] at hmn
              refine htop mn ?_
              rw [hall]
              simp only [List.mem_append, List.mem_cons] at hmn ⊢
              tauto
          · refine Outcome.bind ((smfree_outcome h p.memArea).weaken fun ht => (hT ht).elim) ?_
            intro r hr
            exact ((ih hr.1).weaken fun ht => (hT ht).elim).mono
              fun t ht => ⟨ht.1, ht.2.1.trans hr.2, ht.2.2⟩

/-- `smfree_all` keeps the invariant; without a refused commit it returns. -/
theorem smfreeAll_outcome (h : PoolInv lo hi s) (htop : NoTopBlock s.mp.nodes) :
    Outcome (s.failed = false) (PoolInv lo hi) (smfreeAll s) := by
  unfold smfreeAll
  refine Outcome.bind ((smfreeAllLoop_outcome (usedCount s.mp.nodes) h).weaken
    fun hf => ⟨hf, le_rfl, htop⟩) ?_
  rintro t ⟨hinv, -, hpool⟩
  have htail := tail_eq_nil_of_not_poolUsed hpool
  simpa [cAssert, htail] using hinv

end FreeAll

/-! ## Calls and runs -/

/-- The invariant along a run: in every state reached the nodes tile the pool
and `avail` is the free space; and as long as no commit was refused there are
no free neighbours and the next call does not abort. -/
def RunSafe (com : CommitFn) (lo hi : Nat) (s : SmState) (cs : List SmCall) : Prop :=
  ∀ pre, pre <+: cs → ∀ t, Run.run (step com) s pre = some t →
    PoolTiles lo t.mp.nodes hi ∧ t.mp.avail = freeSum t.mp.nodes ∧
      (t.failed = false → NoFreePairs t.mp.nodes ∧
        ∀ c, pre ++ [c] <+: cs → (step com t c).isSome)

section Calls

variable {lo hi : Nat} {s : SmState}

/-- A call that places a block returns and keeps the invariant. -/
theorem call_places_inv (com : CommitFn) {c : SmCall} (h : PoolInv lo hi s) (hok : CallOk s c)
    (hp : c.places = true) : ∃ r, call com s c = some r ∧ PoolInv lo hi r.2 := by
  by_cases hsize : c.size = 0
  · exact ⟨_, call_eq_zeroSized com s hp hsize, h.reported (reported_smerror s _)⟩
  · obtain ⟨t, ht, heq⟩ := call_eq_placed com h.wf hok hp hsize
    exact ⟨_, heq, (placeOrReport_inv com h (Nat.pos_of_ne_zero hsize) ht fun p hplace =>
      callPlacement_fits h.wf hok hsize hplace).1⟩

/-- One call keeps the invariant, and aborts only after a refused commit. -/
theorem step_outcome (com : CommitFn) (h : PoolInv lo hi s) (c : SmCall) (hok : CallOk s c) :
    Outcome (s.failed = false) (PoolInv lo hi) (step com s c) := by
  by_cases hp : c.places = true
  · obtain ⟨r, heq, hinv⟩ := call_places_inv com h hok hp
    simpa [step, heq] using hinv
  · suffices hcall : Outcome (s.failed = false) (fun r => PoolInv lo hi r.2) (call com s c) from
      hcall.map fun r hr => hr
    cases c with
    | smfree ptr => exact (smfree_outcome h ptr.toNat).mono fun r hr => hr.1
    | smrealloc ptr size =>
        have hptr : ptr.toNat ≠ 0 := by simpa [SmCall.places] using hp
        exact (smrealloc_outcome com h hptr size.toNat_lt).map fun r hr => hr
    | smfreeAll => exact (smfreeAll_outcome h hok).map fun t ht => ht
    | smalloc | smallocFixed | smallocAligned | smallocTopdown | smallocAlignedTopdown =>
        simp [SmCall.places] at hp

/-- A new pool meets the invariant. -/
theorem pool_inv (init : SmInit) {start size : Nat} (hpos : 0 < size)
    (hend : start + size ≤ 2 ^ 32) (hsmall : size < 2 ^ 31) :
    PoolInv start (start + size) (init.pool start size) := by
  have hnew : ∀ s : SmState, s.mp.nodes = [{ size := size, used := false, memArea := start }] →
      s.mp.avail = size → s.mp.size = size → PoolInv start (start + size) s := by
    intro s hnodes havail hsize
    refine ⟨⟨⟨by omega, hend, by omega⟩, ?_, ?_, by omega⟩, fun _ => ?_⟩
    · rw [hnodes]
      simp [hpos]
    · simp [hnodes, havail]
    · simp [hnodes, NoFreePairs]
  cases init with
  | sminit => exact hnew _ rfl rfl rfl
  | sminitF flags => exact hnew _ rfl rfl rfl
  | sminitCom commit uncommit flags =>
      cases commit <;> cases uncommit <;> exact hnew _ rfl rfl rfl
  | sminitComu commit uncommit flags =>
      cases commit <;> cases uncommit <;> exact hnew _ rfl rfl rfl

/-- What an admitted run from a good state reaches is good. -/
theorem run_inv (com : CommitFn) {cs : List SmCall} {t : SmState} (h : PoolInv lo hi s)
    (hok : Run.Admits (step com) CallOk s cs) (hrun : Run.run (step com) s cs = some t) :
    PoolInv lo hi t :=
  Run.run_invariant CallOk (PoolInv lo hi) (fun _ c _ hs hc ht => (step_outcome com hs c hc).post ht) h hok hrun

/-- In every run whose calls the code can handle, the nodes always tile the
pool and `avail` counts the free ones; and as long as no commit was refused, no
two neighbours are free and no assert fails. -/
theorem pool_invariant (init : SmInit) (com : CommitFn) {start size : Nat} (cs : List SmCall)
    (hpos : 0 < size) (hend : start + size ≤ 2 ^ 32) (hsmall : size < 2 ^ 31)
    (hok : Run.Admits (step com) CallOk (init.pool start size) cs) :
    RunSafe com start (start + size) (init.pool start size) cs := by
  rintro pre ⟨post, rfl⟩ t hrun
  obtain ⟨hpre, hpost⟩ := Run.admits_append.mp hok
  have hinv := run_inv com (pool_inv init hpos hend hsmall) hpre hrun
  refine ⟨hinv.wf.tiles, hinv.wf.avail, fun hf => ⟨hinv.pairs hf, fun c hc => ?_⟩⟩
  obtain ⟨rest, hrest⟩ := hc
  rw [List.append_assoc, List.append_cancel_left_eq, List.singleton_append] at hrest
  have hadm := hpost t hrun
  rw [← hrest] at hadm
  obtain ⟨u, hu, -⟩ := (step_outcome com hinv c hadm.1).isSome hf
  simp [hu]

/-- A run with a fixed and an aligned allocation in a pool of three pages. -/
theorem pool_invariant_three_pages :
    RunSafe (fun _ _ _ => true) 0x1000 0x4000
      ((SmInit.sminitCom true true 0).pool 0x1000 0x3000)
      [.smallocFixed 0x1800 16, .smallocAligned 4096 32] := by
  refine pool_invariant (.sminitCom true true 0) _ _ (by norm_num) (by norm_num) (by norm_num)
    ⟨?_, fun t ht => ⟨⟨⟨12, rfl⟩, fun _ => by decide, ?_⟩, fun _ _ => trivial⟩⟩
  · unfold CallOk FixedNoWrap
    decide +kernel
  · have hstep : step (fun _ _ _ => true) ((SmInit.sminitCom true true 0).pool 0x1000 0x3000)
        (.smallocFixed 0x1800 16) = some t := ht
    have hnodes : t.mp.nodes = [⟨0x800, false, 0x1000⟩, ⟨16, true, 0x1800⟩,
        ⟨0x27f0, false, 0x1810⟩] := by
      have hval : (step (fun _ _ _ => true) ((SmInit.sminitCom true true 0).pool 0x1000 0x3000)
          (.smallocFixed 0x1800 16)).map (fun u => u.mp.nodes) =
            some [⟨0x800, false, 0x1000⟩, ⟨16, true, 0x1800⟩, ⟨0x27f0, false, 0x1810⟩] := by
        decide +kernel
      simpa [hstep] using hval
    rw [hnodes]
    unfold AlignedNoWrap
    decide +kernel

/-- A request whose size wraps the 64-bit size test aborts in a fresh pool. -/
theorem smallocFixed_wrap_aborts :
    ¬RunSafe (fun _ _ _ => true) 0x1000 0x2000 (SmInit.sminit.pool 0x1000 0x1000)
      [.smallocFixed 0x1001 0xffffffffffffffff] := by
  intro h
  obtain ⟨-, hreturns⟩ := (h [] List.nil_prefix _ rfl).2.2 (by decide)
  have hsome := hreturns _ (List.prefix_refl _)
  have hnone : (step (fun _ _ _ => true) (SmInit.sminit.pool 0x1000 0x1000)
      (.smallocFixed 0x1001 0xffffffffffffffff)).isSome = false := by decide +kernel
  simp [hnone] at hsome

end Calls

end Smalloc
end Dosemu
