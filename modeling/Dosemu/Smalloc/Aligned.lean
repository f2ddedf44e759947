import Dosemu.Smalloc.Search

/-!
# The aligned resize

`smrealloc_aligned` shares its in-place branches with `smrealloc`.  Its
relocation allocates a second node, copies and frees the first one, and then
goes on with the pointer to the first one: `mn` is by now a free node, or one
that the merge in `smfree` has deleted.  What is read from deleted memory is a
parameter of the call.

Main results:

- Theorem `smreallocAligned_inv`: whatever is read, the pool stays well formed.
- Theorem `poolRun_inv`: the invariant of the pool over runs that use the
  aligned resize as well.
-/

namespace Dosemu
namespace Smalloc

open MachineInt Tiling

/-! ## The code -/

/-- What is read through a pointer to a node of an earlier state: the node, which
keeps its address for as long as it lives, or `stale` if it was deleted. -/
def readMn (stale : MemNode) (s : SmState) (mn : MemNode) : MemNode :=
  (s.mp.nodes.find? fun n => decide (n.memArea = mn.memArea)).getD stale

/-- The relocating branch of `smrealloc_aligned`; the node is what `mn` points
to afterwards. -/
def relocateAligned (com : CommitFn) (stale : MemNode) (s : SmState) (mn : MemNode)
    (align size : Nat) : Option (Option MemNode × SmState) := do
  match ← smAllocAligned com s align size with
  | (none, s) => return (none, s)
  | (some newMn, s) =>
      let s := s.emit (.memcpy newMn.memArea mn.memArea mn.size)
      let (_, s) ← smfree s mn.memArea
      -- the new node is not assigned to `mn`
      return (some (readMn stale s mn), s)

/-- `smrealloc_aligned`. -/
def smreallocAligned (com : CommitFn) (stale : MemNode) (s : SmState) (ptr align size : Nat) :
    Option (Nat × SmState) := do
  cAssert (popcount 32 align = 1)
  if ptr = 0 then smallocAligned com s align size
  else
    match findMn s ptr with
    | (s, none) => return (badAddr, s.smerror .badPointerRealloc)
    | (s, some z) =>
        if !z.focus.used then return (badAddr, s.smerror .reallocNotAllocated)
        if size = 0 then
          let (_, s) ← smfree s ptr
          return (badAddr, s)
        if size = z.focus.size then return (ptr, s)
        if z.focus.memArea &&& (align - 1) ≠ 0 then
          return (badAddr, s.smerror .unalignedPointerRealloc)
        if size < z.focus.size then shrinkMn s z size
        else if nextUsed z.after = false ∧ size ≤ uwrap 64 (z.focus.size + nextFree z.after) then
          growMn com s z size
        else
          let (mn, s) ← relocateAligned com stale s z.focus align size
          match mn with
          | none => return (badAddr, s)
          | some mn =>
              cAssert (mn.size = size)
              return (mn.memArea, s)

/-- The whole interface of a pool.  `align` is an `int` here; `stale` is what the
call reads from a deleted node. -/
inductive PoolCall
  | sm (c : SmCall)
  | smreallocAligned (ptr align : UInt32) (size : UInt64) (stale : MemNode)
deriving DecidableEq, Repr

/-- One call of the interface as a transition of the pool. -/
def poolStep (com : CommitFn) (s : SmState) : PoolCall → Option SmState
  | .sm c => step com s c
  | .smreallocAligned ptr align size stale =>
      (smreallocAligned com stale s ptr.toNat align.toNat size.toNat).map Prod.snd

/-- Alignments are powers of two, of the argument's own type; and once a commit
was refused, the size tests do not wrap around. -/
def Careful (s : SmState) : PoolCall → Prop
  | .sm c => AlignPow2 c ∧ (s.failed = true → CallOk s c)
  | .smreallocAligned _ align size _ => (∃ k < 31, align.toNat = 2 ^ k) ∧
      (s.failed = true → AlignedNoWrap s.mp.nodes align.toNat size.toNat)

/-! ## The invariant -/

section Inv

variable {lo hi ptr align size k : Nat} {s : SmState} {z : Zipper MemNode}

/-- An aligned request that returns keeps the invariant; if it is served, no
commit was refused on the way. -/
theorem smAllocAligned_inv (com : CommitFn) (h : PoolInv lo hi s) (halign : align = 2 ^ k)
    (hk : k < 32) (hbound : size < 2 ^ 64) (hsize : size ≠ 0)
    (hwrap : s.failed = true → AlignedNoWrap s.mp.nodes align size)
    {r : Option MemNode × SmState} (hr : smAllocAligned com s align size = some r) :
    PoolInv lo hi r.2 ∧ ∀ m ∈ r.1, m.size = size ∧ r.2.failed = s.failed := by
  have hno : AlignedNoWrap s.mp.nodes align size := by
    by_contra hno
    cases hf : s.failed with
    | true => exact hno (hwrap hf)
    | false =>
        rw [smAllocAligned_eq_none com h.wf (h.pairs hf) hbound halign hk hno] at hr
        cases hr
  obtain ⟨t, ht, heq⟩ := smAllocAligned_eq com h.wf hsize halign hk hno
  rw [heq, Option.some.injEq] at hr
  rw [← hr]
  exact placeOrReport_inv com h (Nat.pos_of_ne_zero hsize) ht fun p hp =>
    (alignedPlacement_fits halign hno hp).1

theorem relocateAligned_inv (com : CommitFn) {stale mn : MemNode} (h : PoolInv lo hi s)
    (halign : align = 2 ^ k) (hk : k < 32) (hbound : size < 2 ^ 64) (hsize : size ≠ 0)
    (hwrap : s.failed = true → AlignedNoWrap s.mp.nodes align size)
    {r : Option MemNode × SmState} (hr : relocateAligned com stale s mn align size = some r) :
    PoolInv lo hi r.2 := by
  obtain ⟨⟨new, t⟩, halloc, hrest⟩ := Option.bind_eq_some_iff.mp hr
  obtain ⟨hinv, -⟩ := smAllocAligned_inv com h halign hk hbound hsize hwrap halloc
  cases new with
  | none =>
      cases hrest
      exact hinv
  | some newMn =>
      obtain ⟨⟨ret, u⟩, hfree, hlast⟩ := Option.bind_eq_some_iff.mp hrest
      cases hlast
      have hcopied : PoolInv lo hi (t.emit (.memcpy newMn.memArea mn.memArea mn.size)) :=
        hinv.congr rfl (by simp [SmEvent.isRefusal])
      exact ((smfree_outcome hcopied mn.memArea).post hfree).1

/-- Whatever is read from a deleted node, the aligned resize keeps the invariant
when it returns. -/
theorem smreallocAligned_inv (com : CommitFn) {stale : MemNode} (h : PoolInv lo hi s)
    (halign : align = 2 ^ k) (hk : k < 32) (hptr : ptr ≠ 0) (hbound : size < 2 ^ 64)
    (hwrap : s.failed = true → AlignedNoWrap s.mp.nodes align size) {r : Nat × SmState}
    (hr : smreallocAligned com stale s ptr align size = some r) : PoolInv lo hi r.2 := by
  have hpop : popcount 32 align = 1 := by
    rw [halign]
    exact popcount_two_pow hk
  simp only [smreallocAligned, Option.bind_eq_bind, cAssert_bind hpop, hptr, if_false] at hr
  have hmp := findMn_mp s ptr
  have hfail := failed_findMn s ptr
  cases hfind : findMn s ptr with
  | mk t found =>
      rw [hfind] at hmp hfail hr
      cases found with
      | none =>
          cases hr
          exact h.congr hmp (by simpa using hfail)
      | some z =>
          obtain ⟨rfl, hlist, -⟩ := findMn_eq_some hfind
          cases hused : z.focus.used with
          | false =>
              simp only [hused, Bool.not_false, if_true] at hr
              cases hr
              exact h.reported (reported_smerror _ _)
          | true =>
              simp only [hused, Bool.not_true, Bool.false_eq_true, if_false] at hr
              split at hr
              · obtain ⟨v, hfree, hret⟩ := Option.bind_eq_some_iff.mp hr
                cases hret
                exact ((smfree_outcome h ptr).post hfree).1
              · next hsize =>
                split at hr
                · cases hr
                  exact h
                · split at hr
                  · cases hr
                    exact h.reported (reported_smerror _ _)
                  · split at hr
                    · next hlt =>
                      obtain ⟨v, heq, hinv⟩ :=
                        shrinkMn_inv h hlist hused (Nat.pos_of_ne_zero hsize) hlt
                      rw [heq] at hr
                      cases hr
                      exact hinv
                    · next hne _ hge =>
                      split at hr
                      · next hgrow =>
                        obtain ⟨hnext, hfit⟩ := hgrow
                        have hb := focus_bounds (hlist ▸ h.wf.tiles)
                        have hend := h.wf.range.le
                        rw [uwrap_add (by omega)] at hfit
                        exact (growMn_outcome com h hlist hused hnext (by omega) hfit).post hr
                      · obtain ⟨⟨new, u⟩, hmove, hret⟩ := Option.bind_eq_some_iff.mp hr
                        have hinv := relocateAligned_inv com h halign hk hbound hsize hwrap hmove
                        cases new with
                        | none =>
                            cases hret
                            exact hinv
                        | some m =>
                            obtain ⟨-, -, hlast⟩ := Option.bind_eq_some_iff.mp hret
                            cases hlast
                            exact hinv

/-- One careful call keeps the invariant when it returns. -/
theorem poolStep_inv (com : CommitFn) {t : SmState} (h : PoolInv lo hi s) {c : PoolCall}
    (hc : Careful s c) (ht : poolStep com s c = some t) : PoolInv lo hi t := by
  cases c with
  | sm c =>
      have hok : CallOk s c := by
        by_contra hno
        cases hf : s.failed with
        | true => exact hno (hc.2 hf)
        | false =>
            have hnone := step_eq_none com h hf hc.1 hno
            rw [poolStep, hnone] at ht
            cases ht
      exact (step_outcome com h c hok).post ht
  | smreallocAligned ptr align size stale =>
      obtain ⟨⟨k, hk, halign⟩, hwrap⟩ := hc
      obtain ⟨r, hr, rfl⟩ := Option.map_eq_some_iff.mp ht
      by_cases hptr : ptr.toNat = 0
      · have hpop : popcount 32 align.toNat = 1 := by
          rw [halign]
          exact popcount_two_pow (by omega)
        simp only [smreallocAligned, Option.bind_eq_bind, cAssert_bind hpop, hptr, if_true] at hr
        obtain ⟨⟨new, u⟩, halloc, hrest⟩ := Option.bind_eq_some_iff.mp hr
        obtain ⟨-, -, hlast⟩ := Option.bind_eq_some_iff.mp hrest
        cases hlast
        by_cases hsize : size.toNat = 0
        · simp only [smAllocAligned, hsize, if_true] at halloc
          cases halloc
          exact h.reported (reported_smerror _ _)
        · exact (smAllocAligned_inv com h halign (by omega) size.toNat_lt hsize hwrap halloc).1
      · exact smreallocAligned_inv com h halign (by omega) hptr size.toNat_lt hwrap hr

/-- A pool after a run of careful calls. -/
theorem poolRun_inv (com : CommitFn) {cs : List PoolCall} {t : SmState} (h : PoolInv lo hi s)
    (hok : Run.Admits (poolStep com) Careful s cs)
    (hrun : Run.run (poolStep com) s cs = some t) : PoolInv lo hi t :=
  Run.run_invariant Careful (PoolInv lo hi) (fun _ _ _ hs hc ht => poolStep_inv com hs hc ht)
    h hok hrun

end Inv

end Smalloc
end Dosemu
