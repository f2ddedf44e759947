import Dosemu.Smalloc.Invariant

/-!
# Failed calls

When is a call that returns `(dosaddr_t)-1` without effect on the pool?  A
refusal of the commit callback comes after the free area was cut down to the
block, and nothing puts the pieces together again; so a call is atomic exactly
when no piece had to be cut off.  `smrealloc` cuts nothing before its commits
and takes the first of its two back, and is always atomic.

Main results:

- Theorem `smrealloc_failure`: a failed resize changes neither nodes nor
  `avail`.
- Theorem `failure_atomic_iff`: in every state reached, a call is atomic on
  failure exactly when a refused block needed no cut and a granted one is not
  at the address that means failure.
-/

namespace Dosemu
namespace Smalloc

open MachineInt Tiling

/-- A call that returns `(dosaddr_t)-1` leaves the node list and `avail` as they
were. -/
def AtomicFailure (com : CommitFn) (s : SmState) (c : SmCall) : Prop :=
  ∀ t, call com s c = some ((badAddr : Int), t) →
    t.mp.nodes = s.mp.nodes ∧ t.mp.avail = s.mp.avail

/-- If the block is refused, nothing had to be cut off its area; if it is
granted, its address is not the one that means failure. -/
def KeepsOnFailure (com : CommitFn) (s : SmState) (c : SmCall) : Prop :=
  ∀ p ∈ callPlacement s.mp.nodes c,
    if granted com s p.addr c.size then p.addr ≠ badAddr else p.front = 0 ∧ p.tail = 0

/-! ## Cut areas -/

section Cut

variable {lo hi size : Nat} {nodes : List MemNode} {p : Placement}

/-- The list of a placement is the old one exactly when nothing was cut off. -/
theorem Placement.Fits.cursor_toList (h : p.Fits nodes size) (hpos : 0 < size) :
    p.cursor.toList = nodes ↔ p.front = 0 ∧ p.tail = 0 := by
  have hfits := h.fits
  constructor
  · intro hlist
    rw [← h.list] at hlist
    by_cases hfront : p.front = 0
    · refine ⟨hfront, ?_⟩
      by_contra htail
      simp only [Placement.cursor, startAt, endAt, hfront, htail, if_true, if_false, shortened,
        Zipper.toList, List.append_cancel_left_eq, List.cons.injEq] at hlist
      have hsize := congrArg MemNode.size hlist.1
      simp only at hsize
      omega
    · simp only [Placement.cursor, startAt, hfront, if_false, skipped, Zipper.toList] at hlist
      have hbefore : (endAt p.area p.tail).before = p.area.before := by
        unfold endAt
        split <;> rfl
      rw [hbefore, List.reverse_cons, List.append_assoc, List.append_cancel_left_eq,
        List.singleton_append, List.cons.injEq] at hlist
      have hsize := congrArg MemNode.size hlist.1
      simp only at hsize
      omega
  · rintro ⟨hfront, htail⟩
    simp [Placement.cursor, startAt, hfront, htail, h.list]

end Cut

/-! ## Calls that place a block -/

section Place

variable {lo hi : Nat} {s : SmState} {c : SmCall}

/-- The dichotomy for the calls that place a block. -/
theorem placed_atomic_iff (com : CommitFn) (h : PoolInv lo hi s) (hok : CallOk s c)
    (hp : c.places = true) (hsize : c.size ≠ 0) :
    AtomicFailure com s c ↔ KeepsOnFailure com s c := by
  obtain ⟨t, ht, heq⟩ := call_eq_placed com h.wf hok hp hsize
  have hpos := Nat.pos_of_ne_zero hsize
  unfold AtomicFailure KeepsOnFailure
  rw [heq]
  cases hplace : callPlacement s.mp.nodes c with
  | none =>
      refine iff_of_true ?_ (by simp)
      rintro u hu
      simp only [placeOrReport, returned, areaOr, Option.some.injEq, Prod.mk.injEq, true_and] at hu
      rw [← hu, ht.mp_eq]
      exact ⟨rfl, rfl⟩
  | some p =>
      have hfits := callPlacement_fits h.wf hok hsize hplace
      have havail : c.size ≤ s.mp.avail := h.wf.avail ▸ hfits.size_le
      have hgrant : granted com (s.setNodes p.cursor.toList) p.addr c.size =
          granted com s p.addr c.size := rfl
      simp only [placeOrReport, placeBlock, p.cursor_memArea, hgrant, Option.mem_def,
        Option.some.injEq, forall_eq']
      cases hg : granted com s p.addr c.size
      · rw [if_neg (by simp), if_neg (by simp), ← hfits.cursor_toList hpos]
        simp only [returned, areaOr, Prod.mk.injEq, true_and]
        constructor
        · intro hall
          exact (hall _ rfl).1
        · rintro hlist u rfl
          exact ⟨hlist, rfl⟩
      · rw [if_pos rfl, if_pos rfl]
        simp only [returned, areaOr, Prod.mk.injEq, Nat.cast_inj]
        constructor
        · rintro hall hbad
          have hkeep := (hall _ ⟨hbad, rfl⟩).2
          simp only [cleared_mp, SmState.setNodes_mp, SmState.setAvail_mp] at hkeep
          omega
        · rintro hne u ⟨hbad, -⟩
          exact (hne hbad).elim

end Place

/-! ## Resizing -/

section Realloc

variable {lo hi ptr size : Nat} {s t : SmState} {z : Zipper MemNode}

/-- Addresses of blocks with something behind them are not the failure value. -/
theorem addr_ne_bad (addr len : Nat) (hend : addr + len ≤ 2 ^ 32) (hlen : 2 ≤ len) :
    addr ≠ badAddr := by
  unfold badAddr
  omega

/-- A failed relocation leaves the pool as it was. -/
theorem relocate_failure (com : CommitFn) {mn : MemNode} (h : PoolInv lo hi s)
    (hsize : 2 ≤ size) (hlt : size < 2 ^ 64) {r : Option MemNode × SmState}
    (hr : relocate com s mn size = some r) (hbad : ∀ m ∈ r.1, m.memArea = badAddr) :
    r.2.mp = s.mp := by
  obtain ⟨u, hu, heq⟩ := smAllocMn_eq com h.wf (by omega) hlt
  simp only [relocate, heq, Option.bind_eq_bind, Option.bind_some] at hr
  cases hplace : alignedPlacement s.mp.nodes 1 size with
  | none =>
      simp only [hplace, placeOrReport, doSmerror_oomPr, Option.bind_some] at hr
      cases hr
      simpa using hu.mp_eq
  | some p =>
      obtain ⟨hfits, -⟩ := alignedPlacement_fits (k := 0) rfl (alignedNoWrap_one _ hlt) hplace
      have hcut : p.front = 0 ∧ p.tail = 0 := by
        obtain ⟨z, -, rfl⟩ := Option.map_eq_some_iff.mp hplace
        exact ⟨Nat.lt_one_iff.mp (alignPad_lt z.focus.memArea 0), rfl⟩
      have hlist := (hfits.cursor_toList (by omega)).mpr hcut
      simp only [hplace, placeOrReport, placeBlock, hlist] at hr
      split at hr
      · rename_i a b hres
        split at hres
        · simp at hres
        · cases hres
          simp only [doSmerror_oomPr, Option.bind_some] at hr
          cases hr
          rfl
      · rename_i a b hres
        split at hres
        · cases hres
          -- the new block is at least two bytes long, so it does not start at the top byte
          have hb := focus_bounds (hfits.list ▸ h.wf.tiles)
          have hend := h.wf.range.le
          have hroom := hfits.fits
          obtain ⟨v, -, hv⟩ := Option.bind_eq_some_iff.mp hr
          cases hv
          have harea : p.addr = badAddr := by
            rw [← p.cursor_memArea]
            exact hbad ⟨size, true, p.cursor.focus.memArea⟩ rfl
          refine (addr_ne_bad p.addr size ?_ hsize harea).elim
          rw [Placement.addr]
          omega
        · simp at hres

/-- A failed move leaves the pool as it was: the rollback gives back what the
first commit took. -/
theorem moveToPrev_failure (com : CommitFn) {before next : List MemNode} {pmn mn : MemNode}
    (h : PoolInv lo hi s) (hlist : Zipper.toList ⟨pmn :: before, mn, next⟩ = s.mp.nodes)
    (hpfree : pmn.used = false) (hused : mn.used = true) (hlt : mn.size < size)
    (hfit : size ≤ pmn.size + mn.size + nextFree next) {r : Option MemNode × SmState}
    (hr : moveToPrev com s before pmn mn next size = some r)
    (hbad : ∀ m ∈ r.1, m.memArea = badAddr) : r.2.mp = s.mp := by
  rw [moveToPrev_eq com h.wf hlist hpfree hused hlt hfit] at hr
  split at hr
  · cases hr
    rfl
  split at hr
  · cases hr
    simp [moveCommit]
  split at hr
  · cases hr
    have htiles := h.wf.tiles
    rw [← hlist] at htiles
    have hb := focus_bounds (tiles_widened htiles)
    have hmpos := (focus_bounds htiles).2.1
    have hend := h.wf.range.le
    simp only [widened] at hb hmpos
    refine (addr_ne_bad pmn.memArea (pmn.size + mn.size + nextFree next) (by omega) (by omega)
      ?_).elim
    exact hbad ⟨size, true, pmn.memArea⟩ rfl
  · simp at hr

/-- A resize that returns `(dosaddr_t)-1` leaves the pool as it was. -/
theorem smrealloc_failure (com : CommitFn) (h : PoolInv lo hi s) (hptr : ptr ≠ 0)
    (hsize : size ≠ 0) (hbound : size < 2 ^ 64)
    (hr : smrealloc com s ptr size = some (badAddr, t)) : t.mp = s.mp := by
  unfold smrealloc at hr
  simp only [hptr, if_false] at hr
  have hmp := findMn_mp s ptr
  cases hfind : findMn s ptr with
  | mk u found =>
      rw [hfind] at hmp hr
      cases found with
      | none =>
          cases hr
          exact hmp
      | some z =>
          obtain ⟨rfl, hlist, hfocus⟩ := findMn_eq_some hfind
          have htiles : PoolTiles lo z.toList hi := hlist ▸ h.wf.tiles
          have hb := focus_bounds htiles
          have hend := h.wf.range.le
          cases hused : z.focus.used
          · simp only [hused, Bool.not_false, if_true] at hr
            cases hr
            rfl
          simp only [hused, Bool.not_true, Bool.false_eq_true, if_false, hsize] at hr
          split at hr
          · cases hr
            rfl
          rename_i hne
          split at hr
          · rename_i hlt
            rw [shrinkMn_eq h.wf hlist hused (Nat.pos_of_ne_zero hsize) hlt] at hr
            simp only [Option.some.injEq, Prod.mk.injEq] at hr
            exact (addr_ne_bad _ z.focus.size (by omega) (by omega) hr.1).elim
          rename_i hge
          split at hr
          · rename_i hgrow
            obtain ⟨hnext, hfit⟩ := hgrow
            rw [uwrap_add (by omega)] at hfit
            rw [growMn_eq com h.wf hlist hused hnext (by omega) hfit] at hr
            split at hr
            · split at hr
              · simp at hr
              · simp only [Option.some.injEq, Prod.mk.injEq] at hr
                exact (addr_ne_bad _ (z.focus.size + nextFree z.after) (by omega) (by omega)
                  hr.1).elim
            · cases hr
              rfl
          · obtain ⟨⟨new, u⟩, hmove, hret⟩ := Option.bind_eq_some_iff.mp hr
            have hval : u.mp = t.mp ∧ ∀ m ∈ new, m.memArea = badAddr := by
              cases new with
              | none =>
                  cases hret
                  simp
              | some m =>
                  simp only [Option.bind_eq_bind] at hret
                  obtain ⟨-, -, hlast⟩ := Option.bind_eq_some_iff.mp hret
                  simp only [Option.pure_def, Option.some.injEq, Prod.mk.injEq] at hlast
                  exact ⟨by rw [hlast.2], by simpa using hlast.1⟩
            rw [← hval.1]
            rcases smReallocAllocMn_cases com h.wf hlist size with
              heq | ⟨pmn, before, hbefore, hfree, hfit, heq⟩
            · rw [heq] at hmove
              exact relocate_failure com h (by omega) hbound hmove hval.2
            · rw [heq] at hmove
              obtain ⟨_, mn, next⟩ := z
              subst hbefore
              exact moveToPrev_failure com h hlist hfree hused (by simp only at hge hne; omega) hfit
                hmove hval.2

end Realloc

/-! ## Calls in reached states -/

/-- In every state that a run of calls the code can handle reaches, such a call
for at least one byte is atomic on failure exactly when a refused block needed
no cut and a granted one does not start at the address that means failure. -/
theorem failure_atomic_iff (init : SmInit) (com : CommitFn) {start size : Nat}
    (cs : List SmCall) {s : SmState} (c : SmCall) (hpos : 0 < size)
    (hend : start + size ≤ 2 ^ 32) (hsmall : size < 2 ^ 31)
    (hok : Run.Admits (step com) CallOk (init.pool start size) cs)
    (hrun : Run.run (step com) (init.pool start size) cs = some s) (hc : CallOk s c)
    (hsize : c.size ≠ 0) : AtomicFailure com s c ↔ KeepsOnFailure com s c := by
  have hinv := run_inv com (pool_inv init hpos hend hsmall) hok hrun
  by_cases hp : c.places = true
  · exact placed_atomic_iff com hinv hc hp hsize
  · cases c with
    | smrealloc ptr size =>
        have hptr : ptr.toNat ≠ 0 := by simpa [SmCall.places] using hp
        refine iff_of_true ?_ (by simp [KeepsOnFailure, callPlacement, hptr])
        intro t ht
        obtain ⟨r, hr, hret⟩ := Option.map_eq_some_iff.mp ht
        simp only [Prod.mk.injEq, Nat.cast_inj] at hret
        have hfail : smrealloc com s ptr.toNat size.toNat = some (badAddr, t) := by
          rw [hr, ← hret.1, ← hret.2]
        rw [smrealloc_failure com hinv hptr hsize size.toNat_lt hfail]
        exact ⟨rfl, rfl⟩
    | smfree | smfreeAll => simp [SmCall.size] at hsize
    | smalloc | smallocFixed | smallocAligned | smallocTopdown | smallocAlignedTopdown =>
        simp [SmCall.places] at hp

/-- After one block was granted, a plain request that is refused. -/
theorem failure_atomic_iff_second_block :
    ∃ s, Run.run (step fun log _ _ => decide (log.length < 2))
        ((SmInit.sminitCom true true 0).pool 0x1000 0x3000) [.smalloc 16] = some s ∧
      (AtomicFailure (fun log _ _ => decide (log.length < 2)) s (.smalloc 32) ↔
        KeepsOnFailure (fun log _ _ => decide (log.length < 2)) s (.smalloc 32)) := by
  have hok : Run.Admits (step fun log _ _ => decide (log.length < 2)) CallOk
      ((SmInit.sminitCom true true 0).pool 0x1000 0x3000) [.smalloc 16] :=
    ⟨trivial, fun _ _ => trivial⟩
  have hsome : (Run.run (step fun log _ _ => decide (log.length < 2))
      ((SmInit.sminitCom true true 0).pool 0x1000 0x3000) [.smalloc 16]).isSome := by
    decide +kernel
  obtain ⟨s, hs⟩ := Option.isSome_iff_exists.mp hsome
  exact ⟨s, hs, failure_atomic_iff (.sminitCom true true 0) _ [.smalloc 16] (.smalloc 32)
    (by norm_num) (by norm_num) (by norm_num) hok hs trivial (by decide)⟩

/-- A refused allocation at a fixed address leaves the free area cut in two. -/
theorem smallocFixed_refused_splits :
    ¬AtomicFailure (fun _ _ _ => false) ((SmInit.sminitCom true true 0).pool 0x1000 0x3000)
      (.smallocFixed 0x1800 16) := by
  intro h
  have hval : (call (fun _ _ _ => false) ((SmInit.sminitCom true true 0).pool 0x1000 0x3000)
      (.smallocFixed 0x1800 16)).map (fun r => (r.1, r.2.mp.nodes)) =
        some ((badAddr : Int), [⟨0x800, false, 0x1000⟩, ⟨0x2800, false, 0x1800⟩]) := by
    decide +kernel
  obtain ⟨⟨ret, t⟩, ht, hret⟩ := Option.map_eq_some_iff.mp hval
  simp only [Prod.mk.injEq] at hret
  rw [hret.1] at ht
  have hnodes := (h t ht).1
  rw [hret.2] at hnodes
  revert hnodes
  decide

end Smalloc
end Dosemu
