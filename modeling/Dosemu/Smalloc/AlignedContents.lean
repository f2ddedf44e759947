import Dosemu.Smalloc.Contents

/-!
# What the aligned resize returns

In place `smrealloc_aligned` does what `smrealloc` does.  After a copy the code
looks at the freed block: it is as large as before together with the free area
behind it, which was found to be too small, or it was merged away.  Either way
the assertion on the new size fails, unless the memory of the deleted node
happens to hold that size.

Main results:

- Theorem `relocateAligned_reads`: what the code reads after a copy.
- Theorem `aligned_iff`: in every state reached, the aligned resize returns the
  live block exactly when it copies none.
-/

namespace Dosemu
namespace Smalloc

open MachineInt Tiling Memory

/-- The call returns, and if it returns a block, this has the requested size and
alignment and begins with the bytes of the old one. -/
def ServesAligned (com : CommitFn) (s : SmState) (ptr align size : Nat) : Prop :=
  ∀ old ∈ usedNodes s.mp.nodes, old.memArea = ptr → ∀ stale,
    ∃ ret t, smreallocAligned com stale s ptr align size = some (ret, t) ∧
      (ret ≠ badAddr → align ∣ ret ∧ ⟨size, true, ret⟩ ∈ t.mp.nodes ∧
        ∀ memcpy, CopiesApart memcpy → ∀ m, ∀ i < min old.size size,
          bytesAfter memcpy s t m (ret + i) = m (old.memArea + i))

/-- The block does not grow; or the area behind it is large enough, and if the commit
is granted, it is not used up with another free area behind it; or the aligned
request for a new block fails. -/
def NotCopied (com : CommitFn) (s : SmState) (ptr align size : Nat) : Prop :=
  ∀ z ∈ blockAt s.mp.nodes ptr, z.focus.used = true → z.focus.size < size →
    if nextUsed z.after = false ∧ size ≤ z.focus.size + nextFree z.after then
      granted com s (z.focus.memArea + z.focus.size) (size - z.focus.size) = true →
        ¬(size = z.focus.size + nextFree z.after ∧ nextUsed (dropFree z.after) = false)
    else ∃ t, smAllocAligned com s align size = some (none, t)

/-! ## The free space behind a block -/

section Behind

variable {lo hi size : Nat} {nodes : List MemNode} {z z' : Zipper MemNode} {mn : MemNode}

theorem mem_dropFree (h : mn ∈ dropFree nodes) : mn ∈ nodes := by
  cases nodes with
  | nil => exact h
  | cons nmn rest =>
      cases hused : nmn.used with
      | true => rwa [dropFree_cons_used hused] at h
      | false =>
          rw [dropFree_cons_free hused] at h
          exact List.mem_cons_of_mem nmn h

theorem mem_freeArea {addr n : Nat} (h : mn ∈ freeArea addr n) : mn.memArea = addr := by
  unfold freeArea at h
  split at h
  · cases h
  · rw [List.mem_singleton.mp h]

/-- A node that starts where the node under the cursor ends comes next. -/
theorem after_eq_cons (h : PoolTiles lo z.toList hi) (hmem : mn ∈ z.toList)
    (hstart : mn.memArea = z.focus.memArea + z.focus.size) : ∃ rest, z.after = mn :: rest := by
  obtain ⟨hbefore, -, hpos, hafter⟩ := tiles_focus h
  simp only [Zipper.toList, List.mem_append, List.mem_reverse, List.mem_cons] at hmem
  rcases hmem with hmem | rfl | hmem
  · have hend := (hbefore.mem_bounds mn (List.mem_reverse.mpr hmem)).2.2
    omega
  · omega
  · cases heq : z.after with
    | nil =>
        rw [heq] at hmem
        cases hmem
    | cons nmn rest =>
        rw [heq] at hmem hafter
        obtain ⟨hnlo, hnpos, hrest⟩ := hafter
        rcases List.mem_cons.mp hmem with rfl | hlater
        · exact ⟨rest, rfl⟩
        · have hlate := (hrest.mem_bounds mn hlater).1
          omega

/-- The nodes after a block was put `front` bytes into an area. -/
theorem mem_takenNodes_startAt {front : Nat} (h : mn ∈ takenNodes (startAt z front) size) :
    mn ∈ z.toList ∨ mn.memArea = z.focus.memArea ∨ mn = ⟨size, true, z.focus.memArea + front⟩ ∨
      mn.memArea = z.focus.memArea + front + size := by
  simp only [takenNodes, startAt_memArea, List.mem_append, List.mem_reverse,
    List.mem_cons] at h
  have hbefore : mn ∈ (startAt z front).before → mn ∈ z.toList ∨ mn.memArea = z.focus.memArea := by
    unfold startAt
    split
    · intro hmem
      left
      simp [Zipper.toList, hmem]
    · intro hmem
      rcases List.mem_cons.mp hmem with rfl | hmem
      · exact Or.inr rfl
      · left
        simp [Zipper.toList, hmem]
  have hafter : mn ∈ (startAt z front).after → mn ∈ z.toList := by
    unfold startAt
    split
    · intro hmem
      simp [Zipper.toList, hmem]
    · intro hmem
      have hmem : mn ∈ z.after := mem_dropFree hmem
      simp [Zipper.toList, hmem]
  rcases h with hmem | (heq | hmem) | hmem
  · rcases hbefore hmem with hin | hat
    · exact Or.inl hin
    · exact Or.inr (Or.inl hat)
  · exact Or.inr (Or.inr (Or.inl heq))
  · exact Or.inr (Or.inr (Or.inr (mem_freeArea hmem)))
  · exact Or.inl (hafter (mem_dropFree hmem))

/-- Placing another block leaves the free area behind a block as it is, takes it
away, or has found it large enough. -/
theorem nextFree_after_place (htiles : PoolTiles lo nodes hi) (hpos : 0 < size) {p : Placement}
    (hp : p.Fits nodes size) (htail : p.tail = 0) (hz : z.toList = nodes)
    (hz' : z'.toList = takenNodes p.cursor size) (htiles' : PoolTiles lo z'.toList hi)
    (hfocus : z'.focus = z.focus) (hused : z.focus.used = true) :
    nextFree z'.after = nextFree z.after ∨ nextFree z'.after = 0 ∨ size ≤ nextFree z.after := by
  subst hz
  cases hafter : z'.after with
  | nil => exact Or.inr (Or.inl rfl)
  | cons nmn rest =>
      cases hnused : nmn.used with
      | true => exact Or.inr (Or.inl (nextFree_cons_used hnused rest))
      | false =>
          have hstart : nmn.memArea = z.focus.memArea + z.focus.size := by
            have hlo := (tiles_focus htiles').2.2.2
            rw [hafter, hfocus] at hlo
            exact hlo.1
          have hmem : nmn ∈ takenNodes p.cursor size := by
            rw [← hz']
            simp [Zipper.toList, hafter]
          rw [Placement.cursor, htail, endAt_zero] at hmem
          rcases mem_takenNodes_startAt hmem with hin | hat | rfl | hat
          · obtain ⟨rest', heq⟩ := after_eq_cons htiles (hp.list ▸ hin) hstart
            rw [heq, nextFree_cons_free hnused, nextFree_cons_free hnused]
            exact Or.inl rfl
          · -- the area itself lies behind the block
            obtain ⟨rest', heq⟩ := after_eq_cons htiles (hp.list ▸ mem_toList p.area)
              (hat.symm.trans hstart)
            have hfits := hp.fits
            rw [heq, nextFree_cons_free hp.free]
            right
            right
            omega
          · cases hnused
          · -- the rest of the area lies behind the new block, not behind this one
            have hold : z.focus ∈ usedNodes z.toList := mem_usedNodes.mpr ⟨mem_toList z, hused⟩
            have hapart := hp.freeBlock.apart htiles hpos hold
            have hlen := (focus_bounds htiles).2.1
            unfold Placement.addr at hapart
            omega

end Behind

/-! ## The copy -/

section Copy

variable {lo hi align size k : Nat} {s t : SmState} {z : Zipper MemNode}

/-- A commit that succeeds is one of space that is there. -/
theorem smCommitSimple_size_le (com : CommitFn) {addr : Nat}
    (h : smCommitSimple com s addr size = some (true, t)) : size ≤ s.mp.avail := by
  unfold smCommitSimple smCommit at h
  have havail : ∀ a n ok u, smCommitRange com s a n badAddr 0 = (ok, u) → ok = true →
      u.mp = s.mp := by
    rintro a n ok u hrange rfl
    unfold smCommitRange at hrange
    split at hrange
    · cases hrange
      rfl
    · split at hrange
      · cases hrange
        rfl
      · cases hrange
  simp only at h
  cases hrange : smCommitRange com s (addr &&& (2 ^ 32 - 2 ^ 12))
      (pageAlign64 (uwrap 64 (size + ((addr : Int) - (addr &&& (2 ^ 32 - 2 ^ 12) : Nat)))))
      badAddr 0 with
  | mk ok u =>
      rw [hrange] at h
      cases ok with
      | false =>
          simp only [Bool.false_eq_true, if_false, Option.pure_def, Option.some.injEq,
            Prod.mk.injEq] at h
          cases h.1
      | true =>
          obtain ⟨_, hassert, -⟩ := Option.bind_eq_some_iff.mp h
          rw [← havail _ _ _ _ hrange rfl]
          exact cAssert_eq_some.mp hassert

/-- A block is only taken out of space that is there. -/
theorem smAllocAligned_size_le (com : CommitFn) {new : MemNode}
    (h : smAllocAligned com s align size = some (some new, t)) : size ≤ s.mp.avail := by
  have htake : ∀ z, takeArea com s z size = some (some new, t) → size ≤ s.mp.avail := by
    intro z hz
    obtain ⟨⟨ok, u⟩, hcommit, hrest⟩ := Option.bind_eq_some_iff.mp hz
    cases ok with
    | false => cases hrest
    | true => exact @smCommitSimple_size_le size (s.setNodes z.toList) u com _ hcommit
  unfold smAllocAligned at h
  split at h
  · cases h
  · obtain ⟨_, -, h⟩ := Option.bind_eq_some_iff.mp h
    simp only at h
    cases hfind : smfindFreeArea s.mp.nodes (align - 1) size with
    | none =>
        rw [hfind] at h
        simp only [doSmerror_oomPr, Option.bind_eq_bind, Option.bind_some] at h
        cases h
    | some z =>
        rw [hfind] at h
        simp only at h
        split at h
        · obtain ⟨z', -, hz'⟩ := Option.bind_eq_some_iff.mp h
          exact htake z' hz'
        · exact htake z h

/-- An aligned request that is served has found a place. -/
theorem smAllocAligned_eq_some (com : CommitFn) (h : PoolInv lo hi s) (halign : align = 2 ^ k)
    (hk : k < 32) (hsize : size ≠ 0) {new : MemNode}
    (hr : smAllocAligned com s align size = some (some new, t)) :
    ∃ p : Placement, p.Fits s.mp.nodes size ∧ p.tail = 0 ∧
      placeBlock com s p.cursor size = (some new, t) := by
  have hle := smAllocAligned_size_le com hr
  have hroom := h.wf.avail_le
  have hsmall := h.wf.range.small
  have hno : AlignedNoWrap s.mp.nodes align size := by
    intro mn _ _ hfit
    have hpad : alignPad mn.memArea (align - 1) < 2 ^ k := by
      rw [halign]
      exact alignPad_lt mn.memArea k
    have hpow : 2 ^ k ≤ 2 ^ 31 := Nat.pow_le_pow_right (by norm_num) (by omega)
    rwa [uwrap_add (by omega)] at hfit
  obtain ⟨v, -, heq⟩ := smAllocAligned_eq com h.wf hsize halign hk hno
  rw [heq, Option.some.injEq] at hr
  cases hplace : alignedPlacement s.mp.nodes align size with
  | none =>
      rw [hplace] at hr
      cases hr
  | some p =>
      rw [hplace] at hr
      refine ⟨p, (alignedPlacement_fits halign hno hplace).1, ?_, hr⟩
      obtain ⟨area, -, rfl⟩ := Option.map_eq_some_iff.mp hplace
      rfl

theorem placeBlock_nodes (com : CommitFn) {new : MemNode}
    (h : placeBlock com s z size = (some new, t)) : t.mp.nodes = takenNodes z size := by
  unfold placeBlock at h
  split at h
  · cases h
    rw [cleared_mp]
    rfl
  · cases h

/-- After a copy the code reads a deleted node, or a free one of another size
than the requested one. -/
theorem relocateAligned_reads (com : CommitFn) (h : PoolInv lo hi s) (halign : align = 2 ^ k)
    (hk : k < 32) (hlist : z.toList = s.mp.nodes) (hused : z.focus.used = true)
    (hroom : z.focus.size + nextFree z.after < size) {stale m : MemNode}
    (hr : relocateAligned com stale s z.focus align size = some (some m, t)) :
    m = stale ∨ m.size ≠ size := by
  obtain ⟨⟨new, u⟩, halloc, hrest⟩ := Option.bind_eq_some_iff.mp hr
  cases new with
  | none => cases hrest
  | some new =>
      obtain ⟨⟨ret, v⟩, hfree, hlast⟩ := Option.bind_eq_some_iff.mp hrest
      simp only [Option.pure_def, Option.some.injEq, Prod.mk.injEq] at hlast
      obtain ⟨hm, rfl⟩ := hlast
      obtain ⟨p, hfits, htail, hblock⟩ :=
        smAllocAligned_eq_some com h halign hk (by omega : size ≠ 0) halloc
      have hnodes := placeBlock_nodes com hblock
      obtain ⟨-, hinv, -, hstill⟩ :=
        placeBlock_contents (fun m _ _ _ => m) com h (by omega) hfits hblock
      have htiles : PoolTiles lo z.toList hi := hlist ▸ h.wf.tiles
      have hold : z.focus ∈ usedNodes u.mp.nodes := by
        apply (hstill z.focus).mpr
        exact Or.inr (hlist ▸ mem_usedNodes.mpr ⟨mem_toList z, hused⟩)
      have hpos := (focus_bounds htiles).2.1
      rw [readMn] at hm
      cases hfound : v.mp.nodes.find? fun n => decide (n.memArea = z.focus.memArea) with
      | none =>
          rw [hfound] at hm
          exact Or.inl hm.symm
      | some x =>
          rw [hfound, Option.getD_some] at hm
          subst hm
          right
          have hxmem := List.mem_of_find?_eq_some hfound
          have hxat : x.memArea = z.focus.memArea := by simpa using List.find?_some hfound
          by_cases hbad : z.focus.memArea = badAddr
          · -- `smfree` does nothing
            simp only [smfree, hbad, if_true, Option.pure_def, Option.some.injEq,
              Prod.mk.injEq] at hfree
            rw [← hfree.2] at hxmem
            have hlen := (hinv.wf.tiles.mem_bounds x hxmem).2.1
            have heq : x = z.focus := hinv.wf.tiles.eq_of_overlap hxmem
              (mem_usedNodes.mp hold).1 (by omega) (by omega : z.focus.memArea < _) le_rfl
              (by omega)
            rw [heq]
            omega
          · obtain ⟨z', hfind, hfocus, hlist'⟩ := findMn_of_mem
              (s := u.emit (.memcpy new.memArea z.focus.memArea z.focus.size)) hinv.wf.tiles
              (mem_usedNodes.mp hold).1 hused
            have hlist' : z'.toList = u.mp.nodes := hlist'
            have htiles' : PoolTiles lo z'.toList hi := hlist' ▸ hinv.wf.tiles
            have hmerged := tiles_merged htiles'
            have hb := focus_bounds htiles'
            have hbefore := (before_bounds (tiles_focus htiles').1).1
            rw [smfree_eq (s := u.emit (.memcpy new.memArea z.focus.memArea z.focus.size))
              hinv.wf hbad hfind (hfocus ▸ hused)] at hfree
            split at hfree
            · simp only [Option.some.injEq, Prod.mk.injEq] at hfree
              rw [← hfree.2, smUncommit_mp] at hxmem
              have hxmem : x ∈ (merged z').toList := hxmem
              have hlen := (hmerged.mem_bounds x hxmem).2.1
              have hmlo : (merged z').focus.memArea = z'.focus.memArea - nextFree z'.before := rfl
              have hmlen : (merged z').focus.size =
                nextFree z'.before + z'.focus.size + nextFree z'.after := rfl
              have hxz : x.memArea = z'.focus.memArea := by rw [hxat, hfocus]
              have heq : x = (merged z').focus := hmerged.eq_of_overlap hxmem (mem_toList _)
                (by omega) (by omega : z'.focus.memArea < _) (by omega) (by omega)
              rw [heq] at hxz ⊢
              have hspace := nextFree_after_place htiles (by omega) (hlist ▸ hfits) htail rfl
                (hlist'.trans hnodes) htiles' hfocus hused
              rw [hfocus] at hmlen
              omega
            · cases hfree

end Copy

/-! ## The aligned resize -/

section Realloc

variable {lo hi ptr align size k : Nat} {s t : SmState} {z : Zipper MemNode}

/-- What the aligned resize does to a live block at an aligned address. -/
theorem smreallocAligned_eq (com : CommitFn) (stale : MemNode) (hwf : WellFormed lo hi s.mp)
    (halign : align = 2 ^ k) (hk : k < 32) (hptr : ptr ≠ 0) (hsize : size ≠ 0)
    (hdvd : align ∣ ptr) (hfind : findMn s ptr = (s, some z)) (hused : z.focus.used = true) :
    smreallocAligned com stale s ptr align size =
      if size = z.focus.size then some (ptr, s)
      else if size < z.focus.size then shrinkMn s z size
      else if nextUsed z.after = false ∧ size ≤ z.focus.size + nextFree z.after then
        growMn com s z size
      else (relocateAligned com stale s z.focus align size).bind fun r =>
        match r.1 with
        | none => some (badAddr, r.2)
        | some mn => (cAssert (mn.size = size)).bind fun _ => some (mn.memArea, r.2) := by
  obtain ⟨-, hlist, hfocus⟩ := findMn_eq_some hfind
  have hb := focus_bounds (hlist ▸ hwf.tiles)
  have hend := hwf.range.le
  have hpop : popcount 32 align = 1 := by
    rw [halign]
    exact popcount_two_pow hk
  have hmask : ¬z.focus.memArea &&& (align - 1) ≠ 0 :=
    not_not.mpr (land_mask_of_dvd halign (hfocus ▸ hdvd))
  have hsum : uwrap 64 ((z.focus.size : Int) + nextFree z.after) =
      z.focus.size + nextFree z.after := uwrap_add (by omega)
  simp only [smreallocAligned, Option.bind_eq_bind, cAssert_bind hpop, hptr, if_false, hfind,
    hused, Bool.not_true, Bool.false_eq_true, hsize, hmask, hsum]
  rfl

/-- A block that was carried over to an aligned address is served. -/
theorem Carried.serves {old : MemNode} {ret : Nat} (hdvd : align ∣ ret)
    (h : ∀ memcpy, Carried memcpy s t old ⟨size, true, ret⟩) :
    align ∣ ret ∧ ⟨size, true, ret⟩ ∈ t.mp.nodes ∧
      ∀ memcpy, CopiesApart memcpy → ∀ m, ∀ i < min old.size size,
        bytesAfter memcpy s t m (ret + i) = m (old.memArea + i) := by
  refine ⟨hdvd, ?_, fun memcpy _ m i hi => (h memcpy).bytes m i hi⟩
  have hnew := ((h copyBytes).used ⟨size, true, ret⟩).mpr (Or.inl rfl)
  exact (mem_usedNodes.mp hnew).1

/-- A resize that copies nothing serves the block. -/
theorem NotCopied.serves (com : CommitFn) (h : PoolInv lo hi s) (halign : align = 2 ^ k)
    (hk : k < 32) (hptr : ptr ≠ 0) (hsize : size ≠ 0) (hdvd : align ∣ ptr)
    (hnot : NotCopied com s ptr align size) : ServesAligned com s ptr align size := by
  intro old hold hat stale
  obtain ⟨hmem, hused⟩ := mem_usedNodes.mp hold
  obtain ⟨z, hfind, rfl, hlist⟩ := findMn_of_mem h.wf.tiles hmem hused
  rw [hat] at hfind
  have hpos := Nat.pos_of_ne_zero hsize
  have hcond := hnot z (blockAt_of_findMn hfind) hused
  rw [smreallocAligned_eq com stale h.wf halign hk hptr hsize hdvd hfind hused]
  by_cases heq : size = z.focus.size
  · rw [if_pos heq]
    refine ⟨ptr, s, rfl, fun _ => ⟨hdvd, ?_, ?_⟩⟩
    · rw [heq, ← hat, ← hused]
      exact hmem
    · intro memcpy _ m i _
      rw [(Leads.refl memcpy s).bytesAfter_eq, hat]
  rw [if_neg heq]
  by_cases hlt : size < z.focus.size
  · rw [if_pos hlt]
    have hshrink := shrinkMn_eq h.wf hlist hused hpos hlt
    refine ⟨_, _, hshrink, fun _ => ?_⟩
    exact Carried.serves (hat ▸ hdvd) fun memcpy =>
      shrinkMn_carried memcpy h.wf hlist hused hpos hlt hshrink
  rw [if_neg hlt]
  have hcond := hcond (by omega)
  by_cases hgrow : nextUsed z.after = false ∧ size ≤ z.focus.size + nextFree z.after
  · rw [if_pos hgrow] at hcond ⊢
    have hbranch := growMn_eq com h.wf hlist hused hgrow.1 (by omega) hgrow.2
    cases hg : granted com s (z.focus.memArea + z.focus.size) (size - z.focus.size) with
    | false =>
        rw [hg, if_neg (by simp)] at hbranch
        exact ⟨badAddr, _, hbranch, fun hret => absurd rfl hret⟩
    | true =>
        rw [hg, if_pos rfl, if_neg (hcond hg)] at hbranch
        refine ⟨_, _, hbranch, fun hret => ?_⟩
        exact Carried.serves (hat ▸ hdvd) fun memcpy =>
          growMn_carried memcpy com h.wf hlist hused hgrow.1 (by omega) hgrow.2 hbranch hret
  · rw [if_neg hgrow] at hcond ⊢
    obtain ⟨u, hu⟩ := hcond
    refine ⟨badAddr, u, ?_, fun hret => absurd rfl hret⟩
    simp only [relocateAligned, hu, Option.bind_eq_bind, Option.bind_some]
    rfl

/-- A resize that serves the block, whatever is read from deleted nodes, has
copied nothing. -/
theorem ServesAligned.notCopied (com : CommitFn) (h : PoolInv lo hi s) (halign : align = 2 ^ k)
    (hk : k < 32) (hptr : ptr ≠ 0) (hsize : size ≠ 0) (hdvd : align ∣ ptr)
    (hserves : ServesAligned com s ptr align size) : NotCopied com s ptr align size := by
  intro z hz hused hlt
  have hfind := findMn_of_blockAt hz hused
  obtain ⟨-, hlist, hfocus⟩ := findMn_eq_some hfind
  have hold : z.focus ∈ usedNodes s.mp.nodes :=
    hlist ▸ mem_usedNodes.mpr ⟨mem_toList z, hused⟩
  -- a deleted node need not read as one of the requested size
  obtain ⟨ret, t, hr, -⟩ := hserves z.focus hold hfocus ⟨size + 1, false, 0⟩
  rw [smreallocAligned_eq com _ h.wf halign hk hptr hsize hdvd hfind hused,
    if_neg (by omega), if_neg (by omega)] at hr
  by_cases hgrow : nextUsed z.after = false ∧ size ≤ z.focus.size + nextFree z.after
  · rw [if_pos hgrow] at hr ⊢
    rw [growMn_eq com h.wf hlist hused hgrow.1 hlt hgrow.2] at hr
    intro hg hup
    rw [if_pos hg, if_pos hup] at hr
    cases hr
  · rw [if_neg hgrow] at hr ⊢
    have hroom : z.focus.size + nextFree z.after < size := by
      cases hnext : nextUsed z.after with
      | true =>
          rw [nextFree_of_nextUsed hnext]
          exact hlt
      | false =>
          by_contra hge
          exact hgrow ⟨hnext, by omega⟩
    obtain ⟨⟨new, u⟩, hmove, hlast⟩ := Option.bind_eq_some_iff.mp hr
    cases new with
    | some m =>
        obtain ⟨_, hassert, -⟩ := Option.bind_eq_some_iff.mp hlast
        have hm : m.size = size := cAssert_eq_some.mp hassert
        rcases relocateAligned_reads com h halign hk hlist hused hroom hmove with rfl | hne
        · simp only at hm
          omega
        · exact absurd hm hne
    | none =>
        obtain ⟨⟨placed, v⟩, halloc, hrest⟩ := Option.bind_eq_some_iff.mp hmove
        cases placed with
        | none => exact ⟨v, halloc⟩
        | some new =>
            obtain ⟨r, -, hpure⟩ := Option.bind_eq_some_iff.mp hrest
            cases hpure

end Realloc

/-- In every state that a run of careful calls reaches, the aligned resize of a
live block returns the live block, whatever is read from deleted nodes, exactly
when it copies none. -/
theorem aligned_iff (init : SmInit) (com : CommitFn) {start poolSize : Nat}
    (cs : List PoolCall) {s : SmState} (ptr align : UInt32) (size : UInt64)
    (hpos : 0 < poolSize) (hend : start + poolSize ≤ 2 ^ 32) (hsmall : poolSize < 2 ^ 31)
    (hok : Run.Admits (poolStep com) Careful (init.pool start poolSize) cs)
    (hrun : Run.run (poolStep com) (init.pool start poolSize) cs = some s)
    (hptr : ptr.toNat ≠ 0) (halign : ∃ k < 31, align.toNat = 2 ^ k)
    (hdvd : align.toNat ∣ ptr.toNat) (hsize : size.toNat ≠ 0) :
    ServesAligned com s ptr.toNat align.toNat size.toNat ↔
      NotCopied com s ptr.toNat align.toNat size.toNat := by
  have hinv := poolRun_inv com (pool_inv init hpos hend hsmall) hok hrun
  obtain ⟨k, hk, halign⟩ := halign
  constructor
  · intro hserves
    exact hserves.notCopied com hinv halign (by omega) hptr hsize hdvd
  · intro hnot
    exact hnot.serves com hinv halign (by omega) hptr hsize hdvd

/-- The first of two blocks is asked to grow. -/
theorem aligned_iff_two_blocks :
    ∃ s, Run.run (poolStep alwaysCommit) (SmInit.sminit.pool 0x1000 0x1000)
        [.sm (.smalloc 16), .sm (.smalloc 16)] = some s ∧
      (ServesAligned alwaysCommit s 0x1000 16 32 ↔ NotCopied alwaysCommit s 0x1000 16 32) := by
  have hok : Run.Admits (poolStep alwaysCommit) Careful (SmInit.sminit.pool 0x1000 0x1000)
      [.sm (.smalloc 16), .sm (.smalloc 16)] :=
    ⟨⟨trivial, fun _ => trivial⟩, fun _ _ => ⟨⟨trivial, fun _ => trivial⟩, fun _ _ => trivial⟩⟩
  have hsome : (Run.run (poolStep alwaysCommit) (SmInit.sminit.pool 0x1000 0x1000)
      [.sm (.smalloc 16), .sm (.smalloc 16)]).isSome := by
    decide +kernel
  obtain ⟨s, hs⟩ := Option.isSome_iff_exists.mp hsome
  exact ⟨s, hs, aligned_iff .sminit _ [.sm (.smalloc 16), .sm (.smalloc 16)] 0x1000 16 32
    (by norm_num) (by norm_num) (by norm_num) hok hs (by decide) ⟨4, by norm_num, rfl⟩
    (by decide) (by decide)⟩

/-- The first of two blocks cannot grow in place: it is copied, and the assertion
on its size fails. -/
theorem aligned_copy_aborts :
    ∃ s, Run.run (poolStep alwaysCommit) (SmInit.sminit.pool 0x1000 0x1000)
        [.sm (.smalloc 16), .sm (.smalloc 16)] = some s ∧
      ¬ServesAligned alwaysCommit s 0x1000 16 32 := by
  have hval : (Run.run (poolStep alwaysCommit) (SmInit.sminit.pool 0x1000 0x1000)
      [.sm (.smalloc 16), .sm (.smalloc 16)]).map (fun s =>
        (decide (⟨16, true, 0x1000⟩ ∈ usedNodes s.mp.nodes),
          (smreallocAligned alwaysCommit ⟨0, false, 0⟩ s 0x1000 16 32).isSome)) =
      some (true, false) := by
    decide +kernel
  obtain ⟨s, hs, hval⟩ := Option.map_eq_some_iff.mp hval
  simp only [Prod.mk.injEq, decide_eq_true_eq] at hval
  refine ⟨s, hs, ?_⟩
  intro h
  obtain ⟨ret, t, hr, -⟩ := h _ hval.1 rfl ⟨0, false, 0⟩
  rw [hr] at hval
  cases hval.2

end Smalloc
end Dosemu
