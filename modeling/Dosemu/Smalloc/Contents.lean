import Dosemu.Lib.Memory
import Dosemu.Smalloc.Aligned
import Dosemu.Smalloc.Atomicity

/-!
# What a resized block holds

The log of a call tells what it does to the bytes of the pool: clears and
copies change them, the callbacks change the protection of pages and not what
they hold (`commit` and `uncommit` of `dosext/dpmi/memory.c`).  `memcpy` is a
parameter that is known to copy regions that do not overlap.

Main results:

- Theorem `smrealloc_carried`: on each of its five paths, `smrealloc` carries
  the bytes over, clears the new ones and leaves the other blocks alone.
- Theorem `contents_iff`: in every state reached, a resize does so unless it
  copies a block away from the address that means failure.
- Theorem `aligned_iff`: the aligned resize returns the live block exactly when
  it does not copy it.
-/

namespace Dosemu
namespace Smalloc

open MachineInt Tiling Memory

/-! ## Bytes -/

/-- The shape of `memcpy`. -/
abbrev CopyFn := Mem → Nat → Nat → Nat → Mem

/-- Regions that do not overlap are copied. -/
def CopiesApart (memcpy : CopyFn) : Prop :=
  ∀ m dst src n, dst + n ≤ src ∨ src + n ≤ dst →
    memcpy m dst src n = fill m dst n fun i => m (src + i)

/-- One such `memcpy`. -/
def copyBytes : CopyFn := fun m dst src n => fill m dst n fun i => m (src + i)

theorem copyBytes_apart : CopiesApart copyBytes :=
  fun _ _ _ _ _ => rfl

/-- What an event does to the bytes. -/
def SmEvent.apply (memcpy : CopyFn) (m : Mem) : SmEvent → Mem
  | .memset addr size => fill m addr size fun _ => 0
  | .memmove dst src size => fill m dst size fun i => m (src + i)
  | .memcpy dst src size => memcpy m dst src size
  | .commit _ _ _ | .uncommit _ _ | .smerr _ | .dump _ _ => m

/-- The bytes after the logged events. -/
def replay (memcpy : CopyFn) (m : Mem) (log : List SmEntry) : Mem :=
  log.foldl (fun m e => e.event.apply memcpy m) m

/-- The bytes after a call that led from one state to another. -/
def bytesAfter (memcpy : CopyFn) (s t : SmState) (m : Mem) : Mem :=
  replay memcpy m (t.log.drop s.log.length)

/-- The block `old` became `new`: its bytes are carried over, the new ones are
cleared unless the pool has `SMFLG_NOMEMSET`, and the other blocks stay as they
are. -/
structure Carried (memcpy : CopyFn) (s t : SmState) (old new : MemNode) : Prop where
  used : ∀ mn, mn ∈ usedNodes t.mp.nodes ↔ mn = new ∨ (mn ∈ usedNodes s.mp.nodes ∧ mn ≠ old)
  bytes : ∀ m, ∀ i < min old.size new.size,
    bytesAfter memcpy s t m (new.memArea + i) = m (old.memArea + i)
  clear : s.mp.flags &&& smflgNomemset = 0 → ∀ m i, old.size ≤ i → i < new.size →
    bytesAfter memcpy s t m (new.memArea + i) = 0
  others : ∀ m, ∀ mn ∈ usedNodes s.mp.nodes, mn ≠ old → ∀ x, mn.memArea ≤ x →
    x < mn.memArea + mn.size → bytesAfter memcpy s t m x = m x

/-- Every live block at the address that `smrealloc` resizes is carried over. -/
def KeepsContents (com : CommitFn) (s : SmState) (ptr size : Nat) : Prop :=
  ∀ old ∈ usedNodes s.mp.nodes, old.memArea = ptr →
    ∀ ret t, smrealloc com s ptr size = some (ret, t) → ret ≠ badAddr →
      ∀ memcpy, CopiesApart memcpy → Carried memcpy s t old ⟨size, true, ret⟩

/-! ## The effect of a call -/

/-- A call that leads from `s` to `t` changes the bytes as `f` does. -/
def Leads (memcpy : CopyFn) (s t : SmState) (f : Mem → Mem) : Prop :=
  ∃ new, t.log = s.log ++ new ∧ ∀ m, replay memcpy m new = f m

/-- `MEMSET_DOS` unless the pool has `SMFLG_NOMEMSET`. -/
def zeroed (flags addr size : Nat) (m : Mem) : Mem :=
  if flags &&& smflgNomemset = 0 then fill m addr size fun _ => 0 else m

section Leads

variable {memcpy : CopyFn} {s t : SmState} {f : Mem → Mem}

theorem Leads.bytesAfter_eq (h : Leads memcpy s t f) (m : Mem) :
    bytesAfter memcpy s t m = f m := by
  obtain ⟨new, hlog, hnew⟩ := h
  rw [bytesAfter, hlog, List.drop_left]
  exact hnew m

theorem Leads.refl (memcpy : CopyFn) (s : SmState) : Leads memcpy s s fun m => m :=
  ⟨[], (List.append_nil s.log).symm, fun _ => rfl⟩

theorem Leads.emit (h : Leads memcpy s t f) (e : SmEvent) :
    Leads memcpy s (t.emit e) fun m => e.apply memcpy (f m) := by
  obtain ⟨new, hlog, hnew⟩ := h
  refine ⟨new ++ [⟨e, t.mp.nodes⟩], ?_, ?_⟩
  · rw [SmState.emit_log, hlog, List.append_assoc]
  · intro m
    change replay memcpy m (new ++ [⟨e, t.mp.nodes⟩]) = e.apply memcpy (f m)
    rw [← hnew m, replay, List.foldl_append]
    rfl

theorem Leads.setNodes (h : Leads memcpy s t f) (nodes : List MemNode) :
    Leads memcpy s (t.setNodes nodes) f :=
  h

theorem Leads.setAvail (h : Leads memcpy s t f) (avail : Nat) :
    Leads memcpy s (t.setAvail avail) f :=
  h

theorem Leads.cleared (h : Leads memcpy s t f) (addr size : Nat) :
    Leads memcpy s (cleared t addr size) fun m => zeroed t.mp.flags addr size (f m) := by
  unfold Smalloc.cleared zeroed
  split
  · exact h.emit _
  · exact h

theorem Leads.committed (h : Leads memcpy s t f) (addr size : Nat) :
    Leads memcpy s (committed t addr size) f := by
  unfold Smalloc.committed
  split
  · exact h.emit _
  · exact h

theorem Leads.smUncommit (h : Leads memcpy s t f) (addr size : Nat) :
    Leads memcpy s (smUncommit t addr size) f := by
  unfold Smalloc.smUncommit
  dsimp only
  split
  · exact h
  · exact h.emit _

theorem Leads.uncommitRest (h : Leads memcpy s t f) (addr size : Nat) :
    Leads memcpy s (uncommitRest t addr size) f := by
  unfold Smalloc.uncommitRest
  split
  · exact h
  · exact h.smUncommit addr size

/-- `smfree` touches no byte. -/
theorem Leads.smfree (h : Leads memcpy s t f) {lo hi ptr : Nat} (hwf : WellFormed lo hi t.mp)
    {r : Int × SmState} (hr : smfree t ptr = some r) : Leads memcpy s r.2 f := by
  by_cases hbad : ptr = badAddr
  · simp only [Smalloc.smfree, hbad, if_true] at hr
    cases hr
    exact h
  cases hfind : findMn t ptr with
  | mk u found =>
      cases found with
      | none =>
          have hlog : Leads memcpy s u f := by
            unfold findMn at hfind
            split at hfind
            · rw [Prod.mk.injEq] at hfind
              rw [← hfind.1]
              exact h.emit _
            · rw [Prod.mk.injEq] at hfind
              rw [← hfind.1]
              exact h
          simp only [Smalloc.smfree, hbad, if_false, hfind] at hr
          cases hr
          exact hlog.emit _
      | some z =>
          obtain ⟨rfl, -, -⟩ := findMn_eq_some hfind
          cases hused : z.focus.used with
          | false =>
              simp only [Smalloc.smfree, hbad, if_false, hfind, hused] at hr
              cases hr
              exact h.emit _
          | true =>
              rw [smfree_eq hwf hbad hfind hused] at hr
              split at hr
              · cases hr
                exact ((h.setAvail _).setNodes _).smUncommit _ _
              · cases hr

end Leads

/-! ## Where the bytes go -/

/-- The function carries the bytes of a block to `addr`, clears the rest of the
`size` bytes there and touches no others. -/
structure Puts (flags : Nat) (old : MemNode) (addr size : Nat) (f : Mem → Mem) : Prop where
  bytes : ∀ m, ∀ i < min old.size size, f m (addr + i) = m (old.memArea + i)
  clear : flags &&& smflgNomemset = 0 → ∀ m i, old.size ≤ i → i < size → f m (addr + i) = 0
  outside : ∀ m x, x < addr ∨ addr + size ≤ x → f m x = m x

section Puts

variable {flags addr size : Nat} {old : MemNode} {m : Mem} {x : Nat}

theorem zeroed_outside (h : x < addr ∨ addr + size ≤ x) : zeroed flags addr size m x = m x := by
  unfold zeroed
  split
  · exact fill_outside h
  · rfl

theorem zeroed_inside (hflags : flags &&& smflgNomemset = 0) {i : Nat} (hi : i < size) :
    zeroed flags addr size m (addr + i) = 0 := by
  rw [zeroed, if_pos hflags, fill_inside hi]

/-- A block that stays where it is: what it gains is cleared. -/
theorem puts_inPlace (flags : Nat) (old : MemNode) (size : Nat) :
    Puts flags old old.memArea size
      (zeroed flags (old.memArea + old.size) (size - old.size)) where
  bytes m i hi := by
    apply zeroed_outside
    omega
  clear hflags m i hlo hhi := by
    have hsplit : old.memArea + i = old.memArea + old.size + (i - old.size) := by omega
    rw [hsplit]
    exact zeroed_inside hflags (by omega)
  outside m x hx := by
    -- a block that shrinks has nothing to clear
    apply zeroed_outside
    omega

/-- A block that slides down: the copy is made byte by byte as `memmove` does,
overlapping or not. -/
theorem puts_moved (flags : Nat) (old : MemNode) (addr : Nat) (hlt : old.size < size) :
    Puts flags old addr size fun m => zeroed flags (addr + old.size) (size - old.size)
      (fill m addr old.size fun i => m (old.memArea + i)) where
  bytes m i hi := by
    rw [zeroed_outside (by omega), fill_inside (by omega)]
  clear hflags m i hlo hhi := by
    have hsplit : addr + i = addr + old.size + (i - old.size) := by omega
    rw [hsplit]
    exact zeroed_inside hflags (by omega)
  outside m x hx := by
    rw [zeroed_outside (by omega), fill_outside (by omega)]

/-- A block that is copied to a cleared one. -/
theorem puts_copied (flags : Nat) (old : MemNode) (addr : Nat) (hlt : old.size < size)
    (hapart : addr + size ≤ old.memArea ∨ old.memArea + old.size ≤ addr) :
    Puts flags old addr size fun m => fill (zeroed flags addr size m) addr old.size fun i =>
      zeroed flags addr size m (old.memArea + i) where
  bytes m i hi := by
    rw [fill_inside (by omega)]
    apply zeroed_outside
    omega
  clear hflags m i hlo hhi := by
    rw [fill_outside (by omega)]
    exact zeroed_inside hflags hhi
  outside m x hx := by
    rw [fill_outside (by omega), zeroed_outside hx]

/-- A call with such an effect on the bytes and the used nodes carries the
block over. -/
theorem Puts.carried {memcpy : CopyFn} {s t : SmState} {f : Mem → Mem}
    (h : Puts s.mp.flags old addr size f) (hleads : Leads memcpy s t f)
    (hused : ∀ mn, mn ∈ usedNodes t.mp.nodes ↔
      mn = ⟨size, true, addr⟩ ∨ (mn ∈ usedNodes s.mp.nodes ∧ mn ≠ old))
    (hapart : ∀ mn ∈ usedNodes s.mp.nodes, mn ≠ old →
      addr + size ≤ mn.memArea ∨ mn.memArea + mn.size ≤ addr) :
    Carried memcpy s t old ⟨size, true, addr⟩ where
  used := hused
  bytes m i hi := by
    rw [hleads.bytesAfter_eq]
    exact h.bytes m i hi
  clear hflags m i hlo hhi := by
    rw [hleads.bytesAfter_eq]
    exact h.clear hflags m i hlo hhi
  others m mn hmn hne x hlo hhi := by
    have hoff := hapart mn hmn hne
    rw [hleads.bytesAfter_eq]
    apply h.outside
    omega

end Puts

/-! ## The other blocks -/

section Others

variable {lo hi size : Nat} {z : Zipper MemNode} {mn : MemNode}

/-- The used nodes around a used node. -/
theorem mem_sides_iff (h : PoolTiles lo z.toList hi) (hused : z.focus.used = true) :
    mn ∈ usedNodes z.before ∨ mn ∈ usedNodes z.after ↔
      mn ∈ usedNodes z.toList ∧ mn ≠ z.focus := by
  obtain ⟨hbefore, -, hpos, hafter⟩ := tiles_focus h
  have hnotBefore : z.focus ∉ usedNodes z.before := by
    intro hmem
    have hend := (hbefore.mem_bounds _ (List.mem_reverse.mpr (mem_usedNodes.mp hmem).1)).2.2
    omega
  have hnotAfter : z.focus ∉ usedNodes z.after := by
    intro hmem
    have hstart := (hafter.mem_bounds _ (mem_usedNodes.mp hmem).1).1
    omega
  rw [usedNodes_toList, hused]
  simp only [if_true, List.mem_append, List.mem_reverse, List.mem_singleton]
  constructor
  · rintro (hmem | hmem)
    · exact ⟨Or.inl hmem, fun heq => hnotBefore (heq ▸ hmem)⟩
    · exact ⟨Or.inr (Or.inr hmem), fun heq => hnotAfter (heq ▸ hmem)⟩
  · rintro ⟨hmem | heq | hmem, hne⟩
    · exact Or.inl hmem
    · exact absurd heq hne
    · exact Or.inr hmem

/-- The used nodes after a block was given the node under the cursor. -/
theorem mem_takenNodes_iff (z : Zipper MemNode) (size : Nat) :
    mn ∈ usedNodes (takenNodes z size) ↔
      mn = ⟨size, true, z.focus.memArea⟩ ∨ mn ∈ usedNodes z.before ∨ mn ∈ usedNodes z.after := by
  simp only [takenNodes, usedNodes_append, usedNodes_reverse, List.cons_append,
    usedNodes_cons_used, usedNodes_freeArea, usedNodes_dropFree, List.nil_append,
    List.mem_append, List.mem_reverse, List.mem_cons]
  tauto

/-- The other used nodes lie outside a block and the free space around it. -/
theorem apart_of_focus (h : PoolTiles lo z.toList hi) (hused : z.focus.used = true)
    (hmem : mn ∈ usedNodes z.toList) (hne : mn ≠ z.focus) :
    z.focus.memArea + z.focus.size + nextFree z.after ≤ mn.memArea ∨
      mn.memArea + mn.size ≤ z.focus.memArea - nextFree z.before := by
  have hfree : FreeBlock (merged z).toList (merged z).focus.memArea (merged z).focus.size :=
    fun x hx hlt => ⟨(merged z).focus, mem_toList _, rfl, hx, hlt⟩
  have hb := focus_bounds h
  have hstart := (before_bounds (tiles_focus h).1).1
  have hkept : mn ∈ usedNodes (merged z).toList := by
    rw [usedNodes_merged, List.mem_append, List.mem_reverse]
    exact (mem_sides_iff h hused).mpr ⟨hmem, hne⟩
  have hapart := hfree.apart (tiles_merged h) (by simp only [merged]; omega) hkept
  simp only [merged] at hapart
  omega

end Others

/-! ## The paths of `smrealloc` -/

section Paths

variable {lo hi size : Nat} {s t : SmState} {z : Zipper MemNode} {memcpy : CopyFn}

/-- A block that is resized where it is. -/
theorem inPlace_carried (hwf : WellFormed lo hi s.mp) (hlist : z.toList = s.mp.nodes)
    (hused : z.focus.used = true) (hfit : size ≤ z.focus.size + nextFree z.after)
    (hnodes : t.mp.nodes = takenNodes z size)
    (hleads : Leads memcpy s t
      (zeroed s.mp.flags (z.focus.memArea + z.focus.size) (size - z.focus.size))) :
    Carried memcpy s t z.focus ⟨size, true, z.focus.memArea⟩ := by
  have htiles : PoolTiles lo z.toList hi := hlist ▸ hwf.tiles
  apply (puts_inPlace s.mp.flags z.focus size).carried hleads
  · intro mn
    rw [hnodes, mem_takenNodes_iff, mem_sides_iff htiles hused, hlist]
  · intro mn hmem hne
    have hapart := apart_of_focus htiles hused (hlist ▸ hmem) hne
    omega

theorem shrinkMn_carried (memcpy : CopyFn) (hwf : WellFormed lo hi s.mp)
    (hlist : z.toList = s.mp.nodes) (hused : z.focus.used = true) (hpos : 0 < size)
    (hlt : size < z.focus.size) {ret : Nat} (hr : shrinkMn s z size = some (ret, t)) :
    Carried memcpy s t z.focus ⟨size, true, ret⟩ := by
  rw [shrinkMn_eq hwf hlist hused hpos hlt] at hr
  cases hr
  apply inPlace_carried hwf hlist hused (by omega)
  · rw [smUncommit_mp]
    rfl
  · have hnone : zeroed s.mp.flags (z.focus.memArea + z.focus.size) (size - z.focus.size) =
        fun m => m := by
      funext m x
      apply zeroed_outside
      omega
    rw [hnone]
    exact (((Leads.refl memcpy s).setAvail _).setNodes _).smUncommit _ _

theorem growMn_carried (memcpy : CopyFn) (com : CommitFn) (hwf : WellFormed lo hi s.mp)
    (hlist : z.toList = s.mp.nodes) (hused : z.focus.used = true)
    (hnext : nextUsed z.after = false) (hlt : z.focus.size < size)
    (hfit : size ≤ z.focus.size + nextFree z.after) {ret : Nat}
    (hr : growMn com s z size = some (ret, t)) (hret : ret ≠ badAddr) :
    Carried memcpy s t z.focus ⟨size, true, ret⟩ := by
  rw [growMn_eq com hwf hlist hused hnext hlt hfit] at hr
  split at hr
  · split at hr
    · cases hr
    · cases hr
      apply inPlace_carried hwf hlist hused hfit
      · rfl
      · have hleads := ((((Leads.refl memcpy s).committed (z.focus.memArea + z.focus.size)
          (size - z.focus.size)).setAvail (s.mp.avail - (size - z.focus.size))).cleared
            (z.focus.memArea + z.focus.size) (size - z.focus.size)).setNodes (takenNodes z size)
        simpa only [SmState.setAvail_mp, committed_mp] using hleads
  · cases hr
    exact absurd rfl hret

theorem moveToPrev_carried (memcpy : CopyFn) (com : CommitFn) {before next : List MemNode}
    {pmn mn : MemNode} (hwf : WellFormed lo hi s.mp)
    (hlist : Zipper.toList ⟨pmn :: before, mn, next⟩ = s.mp.nodes) (hpfree : pmn.used = false)
    (hused : mn.used = true) (hlt : mn.size < size)
    (hfit : size ≤ pmn.size + mn.size + nextFree next) {new : MemNode}
    (hr : moveToPrev com s before pmn mn next size = some (some new, t)) :
    Carried memcpy s t mn ⟨size, true, new.memArea⟩ := by
  have htiles : PoolTiles lo (Zipper.toList ⟨pmn :: before, mn, next⟩) hi := hlist ▸ hwf.tiles
  have hpmn : mn.memArea = pmn.memArea + pmn.size := by
    rw [Zipper.toList_cons_before] at htiles
    exact (tiles_focus htiles).2.2.2.1
  rw [moveToPrev_eq com hwf hlist hpfree hused hlt hfit] at hr
  split at hr
  · cases hr
  split at hr
  · cases hr
  split at hr
  · simp only [Option.some.injEq, Prod.mk.injEq] at hr
    obtain ⟨rfl, rfl⟩ := hr
    have hleads : Leads memcpy s (moveCommitNext s pmn mn size) fun m => m := by
      have hfirst := ((Leads.refl memcpy s).committed pmn.memArea
        (min size pmn.size)).setAvail (s.mp.avail - min size pmn.size)
      unfold moveCommitNext
      split
      · exact (hfirst.committed _ _).setAvail _
      · exact hfirst
    have hflags : (moveCommitNext s pmn mn size).mp.flags = s.mp.flags := by
      simp only [moveCommitNext, moveCommit]
      split <;> simp
    have hmoved := (((((hleads.setNodes
      (Zipper.toList ⟨before, { pmn with used := true }, mn :: next⟩)).emit
        (.memmove pmn.memArea mn.memArea mn.size)).cleared (pmn.memArea + mn.size)
          (size - mn.size)).setAvail (s.mp.avail + mn.size - size)).setNodes
            (takenNodes (widened before pmn mn next) size)).uncommitRest (pmn.memArea + size)
              (pmn.size + mn.size + nextFree next - size)
    simp only [SmState.emit_mp, SmState.setNodes_mp, hflags] at hmoved
    apply (puts_moved s.mp.flags mn pmn.memArea hlt).carried hmoved
    · intro o
      have hsides := @mem_sides_iff _ _ _ o htiles hused
      rw [hlist, usedNodes_cons_free hpfree] at hsides
      rw [uncommitRest_mp, ← hsides]
      exact mem_takenNodes_iff (widened before pmn mn next) size
    · intro o hmem hne
      have hapart := apart_of_focus htiles hused (hlist ▸ hmem) hne
      rw [nextFree_cons_free hpfree] at hapart
      simp only at hapart
      omega
  · cases hr

/-- Whether a block is placed depends on the commit alone. -/
theorem placeBlock_fst (com : CommitFn) (s : SmState) (p : Placement) (size : Nat) :
    (placeBlock com s p.cursor size).1 =
      if granted com s p.addr size then some ⟨size, true, p.addr⟩ else none := by
  have hgrant : granted com (s.setNodes p.cursor.toList) p.addr size =
      granted com s p.addr size := rfl
  simp only [placeBlock, p.cursor_memArea, hgrant]
  split <;> rfl

/-- What placing a block does to the used nodes and to the bytes. -/
theorem placeBlock_contents (memcpy : CopyFn) (com : CommitFn) (h : PoolInv lo hi s)
    (hpos : 0 < size) {p : Placement} (hp : p.Fits s.mp.nodes size) {new : MemNode}
    (hr : placeBlock com s p.cursor size = (some new, t)) :
    new = ⟨size, true, p.addr⟩ ∧ PoolInv lo hi t ∧
      Leads memcpy s t (zeroed s.mp.flags p.addr size) ∧
      ∀ mn, mn ∈ usedNodes t.mp.nodes ↔ mn = new ∨ mn ∈ usedNodes s.mp.nodes := by
  have hchosen := hp.chosen h.wf.tiles hpos
  have hinv := (placeBlock_inv com h hpos hchosen).1
  rw [hr] at hinv
  unfold placeBlock at hr
  split at hr
  · simp only [Prod.mk.injEq, Option.some.injEq, p.cursor_memArea] at hr
    obtain ⟨rfl, rfl⟩ := hr
    refine ⟨rfl, hinv, ?_, ?_⟩
    · have hleads := ((((Leads.refl memcpy s).setNodes p.cursor.toList).committed p.addr
        size).setAvail (s.mp.avail - size)).setNodes (takenNodes p.cursor size)
      have hcleared := hleads.cleared p.addr size
      simpa only [SmState.setNodes_mp, SmState.setAvail_mp, committed_mp] using hcleared
    · intro mn
      have hused := hchosen.used
      rw [usedNodes_toList, hchosen.free] at hused
      simp only [cleared_mp, SmState.setNodes_mp]
      rw [mem_takenNodes_iff, p.cursor_memArea, ← hused]
      simp
  · cases hr

/-- `smfree` takes a block that it finds off the used nodes. -/
theorem smfree_unuses (hwf : WellFormed lo hi s.mp) {old : MemNode}
    (hold : old ∈ usedNodes s.mp.nodes) (hbad : old.memArea ≠ badAddr) {r : Int × SmState}
    (hr : smfree s old.memArea = some r) (mn : MemNode) :
    mn ∈ usedNodes r.2.mp.nodes ↔ mn ∈ usedNodes s.mp.nodes ∧ mn ≠ old := by
  obtain ⟨hmem, hused⟩ := mem_usedNodes.mp hold
  obtain ⟨z, hfind, rfl, hlist⟩ := findMn_of_mem hwf.tiles hmem hused
  rw [smfree_eq hwf hbad hfind hused] at hr
  split at hr
  · cases hr
    rw [smUncommit_mp, SmState.setNodes_mp, usedNodes_merged, ← hlist,
      ← mem_sides_iff (hlist ▸ hwf.tiles) hused, List.mem_append, List.mem_reverse]
  · cases hr

/-- A block that is copied to a new one and freed. -/
theorem copied_carried (hcopy : CopiesApart memcpy) (com : CommitFn) (h : PoolInv lo hi s)
    {old new : MemNode} (hold : old ∈ usedNodes s.mp.nodes) (hbad : old.memArea ≠ badAddr)
    (hlt : old.size < size) {p : Placement} (hp : p.Fits s.mp.nodes size) {u : SmState}
    (hplace : placeBlock com s p.cursor size = (some new, u)) {r : Int × SmState}
    (hr : smfree (u.emit (.memcpy new.memArea old.memArea old.size)) old.memArea = some r) :
    Carried memcpy s r.2 old ⟨size, true, new.memArea⟩ := by
  obtain ⟨rfl, hinv, hleads, hused⟩ := placeBlock_contents memcpy com h (by omega) hp hplace
  have hapart : ∀ mn ∈ usedNodes s.mp.nodes,
      p.addr + size ≤ mn.memArea ∨ mn.memArea + mn.size ≤ p.addr :=
    fun mn hmem => hp.freeBlock.apart h.wf.tiles (by omega) hmem
  have hcopied := (hleads.emit (.memcpy p.addr old.memArea old.size)).smfree hinv.wf hr
  have heq : (fun m => SmEvent.apply memcpy (zeroed s.mp.flags p.addr size m)
      (.memcpy p.addr old.memArea old.size)) = fun m =>
        fill (zeroed s.mp.flags p.addr size m) p.addr old.size fun i =>
          zeroed s.mp.flags p.addr size m (old.memArea + i) := by
    funext m
    apply hcopy
    have hoff := hapart old hold
    omega
  rw [heq] at hcopied
  apply (puts_copied s.mp.flags old p.addr hlt (hapart old hold)).carried hcopied
  · intro mn
    have hfreed := smfree_unuses (s := u.emit (.memcpy p.addr old.memArea old.size)) hinv.wf
      ((hused old).mpr (Or.inr hold)) hbad hr mn
    rw [hfreed, SmState.emit_mp, hused]
    constructor
    · rintro ⟨rfl | hmem, hne⟩
      · exact Or.inl rfl
      · exact Or.inr ⟨hmem, hne⟩
    · rintro (rfl | ⟨hmem, hne⟩)
      · refine ⟨Or.inl rfl, ?_⟩
        -- the new block is apart from the old one
        rintro rfl
        have hoff := hapart _ hold
        simp only at hoff hlt
        omega
      · exact ⟨Or.inr hmem, hne⟩
  · intro mn hmem _
    exact hapart mn hmem

end Paths

/-! ## `smrealloc` -/

/-- A block at the address that means failure is not copied elsewhere: it need
not grow, it slides down, or the new block is not granted. -/
def TopBlockStays (com : CommitFn) (s : SmState) (ptr size : Nat) : Prop :=
  ptr = badAddr → ∀ z ∈ blockAt s.mp.nodes ptr, z.focus.used = true →
    size ≤ z.focus.size ∨
      (nextUsed z.before = false ∧ size ≤ nextFree z.before + z.focus.size) ∨
      ∀ p ∈ alignedPlacement s.mp.nodes 1 size, granted com s p.addr size = false

section Realloc

variable {lo hi ptr size : Nat} {s t : SmState} {z : Zipper MemNode} {memcpy : CopyFn}

/-- A relocation that returns a block has placed it, and freed the old one. -/
theorem relocate_eq_some (com : CommitFn) (h : PoolInv lo hi s) (hpos : 0 < size)
    (hbound : size < 2 ^ 64) {old new : MemNode}
    (hr : relocate com s old size = some (some new, t)) :
    ∃ p, alignedPlacement s.mp.nodes 1 size = some p ∧ p.Fits s.mp.nodes size ∧
      ∃ u r, placeBlock com s p.cursor size = (some new, u) ∧
        smfree (u.emit (.memcpy new.memArea old.memArea old.size)) old.memArea = some r ∧
        r.2 = t := by
  obtain ⟨v, -, heq⟩ := smAllocMn_eq com h.wf (by omega : size ≠ 0) hbound
  simp only [relocate, heq, Option.bind_eq_bind, Option.bind_some] at hr
  cases hplace : alignedPlacement s.mp.nodes 1 size with
  | none =>
      simp only [hplace, placeOrReport, doSmerror_oomPr, Option.bind_some] at hr
      cases hr
  | some p =>
      obtain ⟨hfits, -⟩ :=
        @alignedPlacement_fits 1 size s.mp.nodes 0 p rfl (alignedNoWrap_one _ hbound) hplace
      refine ⟨p, rfl, hfits, ?_⟩
      simp only [hplace, placeOrReport] at hr
      cases hblock : placeBlock com s p.cursor size with
      | mk placed u =>
          rw [hblock] at hr
          cases placed with
          | none =>
              simp only [doSmerror_oomPr, Option.bind_some] at hr
              cases hr
          | some m =>
              obtain ⟨r, hfree, hlast⟩ := Option.bind_eq_some_iff.mp hr
              simp only [Option.pure_def, Option.some.injEq, Prod.mk.injEq] at hlast
              obtain ⟨rfl, rfl⟩ := hlast
              exact ⟨u, r, rfl, hfree, rfl⟩

/-- The paths on which `smrealloc` returns a block. -/
theorem smrealloc_paths (com : CommitFn) (hwf : WellFormed lo hi s.mp) (hptr : ptr ≠ 0)
    (hsize : size ≠ 0) (hfind : findMn s ptr = (s, some z)) (hused : z.focus.used = true)
    {ret : Nat} (hr : smrealloc com s ptr size = some (ret, t)) (hret : ret ≠ badAddr) :
    (size = z.focus.size ∧ ret = ptr ∧ t = s) ∨
      (size < z.focus.size ∧ shrinkMn s z size = some (ret, t)) ∨
      (z.focus.size < size ∧ nextUsed z.after = false ∧ size ≤ z.focus.size + nextFree z.after ∧
        growMn com s z size = some (ret, t)) ∨
      (z.focus.size < size ∧ ∃ new, new.size = size ∧ new.memArea = ret ∧
        smReallocAllocMn com s z size = some (some new, t)) := by
  obtain ⟨-, hlist, -⟩ := findMn_eq_some hfind
  have hb := focus_bounds (hlist ▸ hwf.tiles)
  have hend := hwf.range.le
  simp only [smrealloc, hptr, if_false, hfind, hused, Bool.not_true, Bool.false_eq_true,
    hsize] at hr
  split at hr
  · next heq =>
    cases hr
    exact Or.inl ⟨heq, rfl, rfl⟩
  · next hne =>
    split at hr
    · next hlt => exact Or.inr (Or.inl ⟨hlt, hr⟩)
    · next hge =>
      have hlt : z.focus.size < size := by omega
      split at hr
      · next hgrow =>
        obtain ⟨hnext, hfit⟩ := hgrow
        rw [uwrap_add (by omega)] at hfit
        exact Or.inr (Or.inr (Or.inl ⟨hlt, hnext, hfit, hr⟩))
      · obtain ⟨⟨new, u⟩, hmove, hrest⟩ := Option.bind_eq_some_iff.mp hr
        cases new with
        | none =>
            cases hrest
            exact absurd rfl hret
        | some m =>
            obtain ⟨_, hassert, hlast⟩ := Option.bind_eq_some_iff.mp hrest
            cases hlast
            exact Or.inr (Or.inr (Or.inr ⟨hlt, m, cAssert_eq_some.mp hassert, rfl, hmove⟩))

/-- Which of the two ways a block that cannot grow in place takes. -/
theorem smReallocAllocMn_paths (com : CommitFn) (hwf : WellFormed lo hi s.mp)
    (hlist : z.toList = s.mp.nodes) (size : Nat) :
    (∃ pmn before, z.before = pmn :: before ∧ pmn.used = false ∧
        size ≤ pmn.size + z.focus.size + nextFree z.after ∧
        smReallocAllocMn com s z size = moveToPrev com s before pmn z.focus z.after size) ∨
      ((nextUsed z.before = false →
          nextFree z.before + z.focus.size + nextFree z.after < size) ∧
        smReallocAllocMn com s z size = relocate com s z.focus size) := by
  obtain ⟨before, mn, next⟩ := z
  cases before with
  | nil => exact Or.inr ⟨by simp [nextUsed], rfl⟩
  | cons pmn before =>
      have htiles := hwf.tiles
      rw [← hlist, Zipper.toList_cons_before] at htiles
      have hle := PoolTiles.nextFree_le (tiles_focus htiles).2.2.2.2.2
      have hend := hwf.range.le
      simp only at hle
      have hsum : uwrap 64 ((pmn.size : Int) + mn.size + nextFree next) =
          pmn.size + mn.size + nextFree next := by
        rw [← Nat.cast_add]
        exact uwrap_add (by omega)
      simp only [smReallocAllocMn, hsum]
      cases hfree : pmn.used with
      | true => exact Or.inr ⟨by simp [nextUsed, hfree], by simp⟩
      | false =>
          by_cases hfit : size ≤ pmn.size + mn.size + nextFree next
          · exact Or.inl ⟨pmn, before, rfl, hfree, hfit, by simp [hfit]⟩
          · refine Or.inr ⟨fun _ => ?_, by simp [hfit]⟩
            rw [nextFree_cons_free hfree]
            omega

/-- A block that is copied does not start at the address that means failure. -/
theorem copied_not_top (com : CommitFn) (hstay : TopBlockStays com s ptr size)
    (hfind : findMn s ptr = (s, some z)) (hused : z.focus.used = true) (hlt : z.focus.size < size)
    (hprev : nextUsed z.before = false → nextFree z.before + z.focus.size + nextFree z.after < size)
    {p : Placement} (hplace : alignedPlacement s.mp.nodes 1 size = some p)
    (hgrant : granted com s p.addr size = true) : z.focus.memArea ≠ badAddr := by
  obtain ⟨-, hlist, hfocus⟩ := findMn_eq_some hfind
  intro hbad
  rcases hstay (hfocus ▸ hbad) z (blockAt_of_findMn hfind) hused with hle | ⟨hfree, hle⟩ | hrefused
  · omega
  · have hroom := hprev hfree
    omega
  · rw [hrefused p hplace] at hgrant
    cases hgrant

/-- What `smrealloc` returns holds the contents of the block it was given. -/
theorem smrealloc_carried (hcopy : CopiesApart memcpy) (com : CommitFn) (h : PoolInv lo hi s)
    (hptr : ptr ≠ 0) (hsize : size ≠ 0) (hbound : size < 2 ^ 64)
    (hstay : TopBlockStays com s ptr size) (hfind : findMn s ptr = (s, some z))
    (hused : z.focus.used = true) {ret : Nat} (hr : smrealloc com s ptr size = some (ret, t))
    (hret : ret ≠ badAddr) : Carried memcpy s t z.focus ⟨size, true, ret⟩ := by
  obtain ⟨-, hlist, hfocus⟩ := findMn_eq_some hfind
  have hpos := Nat.pos_of_ne_zero hsize
  rcases smrealloc_paths com h.wf hptr hsize hfind hused hr hret with
    ⟨heq, rfl, rfl⟩ | ⟨hlt, hshrink⟩ | ⟨hlt, hnext, hfit, hgrow⟩ | ⟨hlt, new, hnew, rfl, hmove⟩
  · -- nothing to do
    have hsame : zeroed t.mp.flags (z.focus.memArea + z.focus.size) (size - z.focus.size) =
        fun m => m := by
      funext m x
      apply zeroed_outside
      omega
    have hblock : (⟨size, true, ret⟩ : MemNode) = z.focus := by
      rw [heq, ← hfocus, ← hused]
    have hleads := Leads.refl memcpy t
    rw [← hsame] at hleads
    have hputs := puts_inPlace t.mp.flags z.focus size
    rw [← hfocus]
    apply hputs.carried hleads
    · intro mn
      rw [hfocus, hblock]
      constructor
      · intro hmem
        by_cases hne : mn = z.focus
        · exact Or.inl hne
        · exact Or.inr ⟨hmem, hne⟩
      · rintro (rfl | ⟨hmem, -⟩)
        · rw [← hlist]
          exact mem_usedNodes.mpr ⟨mem_toList z, hused⟩
        · exact hmem
    · intro mn hmem hne
      have hapart := apart_of_focus (hlist ▸ h.wf.tiles) hused (hlist ▸ hmem) hne
      omega
  · exact shrinkMn_carried memcpy h.wf hlist hused hpos hlt hshrink
  · exact growMn_carried memcpy com h.wf hlist hused hnext hlt hfit hgrow hret
  · rcases smReallocAllocMn_paths com h.wf hlist size with
      ⟨pmn, before, hbefore, hfree, hfit, heq⟩ | ⟨hprev, heq⟩
    · rw [heq] at hmove
      obtain ⟨_, mn, next⟩ := z
      subst hbefore
      exact moveToPrev_carried memcpy com h.wf hlist hfree hused hlt hfit hmove
    · rw [heq] at hmove
      obtain ⟨p, hplace, hfits, u, r, hblock, hfreed, rfl⟩ :=
        relocate_eq_some com h hpos hbound hmove
      have hgrant : granted com s p.addr size = true := by
        by_contra hno
        have hfst := placeBlock_fst com s p size
        rw [hblock, if_neg hno] at hfst
        cases hfst
      have hbad := copied_not_top com hstay hfind hused hlt hprev hplace hgrant
      have hold : z.focus ∈ usedNodes s.mp.nodes :=
        hlist ▸ mem_usedNodes.mpr ⟨mem_toList z, hused⟩
      exact copied_carried hcopy com h hold hbad hlt hfits hblock hfreed

/-- A live block is found by its address. -/
theorem findMn_of_blockAt (hz : blockAt s.mp.nodes ptr = some z) (hused : z.focus.used = true) :
    findMn s ptr = (s, some z) := by
  have hmem : z.focus ∈ usedNodes s.mp.nodes := by
    have hlist : z.toList = s.mp.nodes := by simpa using Zipper.scan_toList hz
    exact hlist ▸ mem_usedNodes.mpr ⟨mem_toList z, hused⟩
  rw [findMn, poolUsed_of_mem hmem]
  simp only [Bool.not_true, Bool.false_eq_true, if_false, Prod.mk.injEq, true_and]
  exact hz

/-- The block at the address that means failure has one byte and nothing behind it. -/
theorem top_block (hwf : WellFormed lo hi s.mp) (hlist : z.toList = s.mp.nodes)
    (hbad : z.focus.memArea = badAddr) : z.focus.size = 1 ∧ nextFree z.after = 0 := by
  have hb := focus_bounds (hlist ▸ hwf.tiles)
  have hend := hwf.range.le
  rw [hbad, badAddr] at hb
  omega

/-- A block at the address that means failure is copied and not freed. -/
theorem relocate_top (com : CommitFn) (h : PoolInv lo hi s) (hpos : 0 < size)
    (hbound : size < 2 ^ 64) (hbad : z.focus.memArea = badAddr) {p : Placement}
    (hplace : alignedPlacement s.mp.nodes 1 size = some p)
    (hgrant : granted com s p.addr size = true) :
    ∃ u, placeBlock com s p.cursor size = (some ⟨size, true, p.addr⟩, u) ∧
      relocate com s z.focus size = some (some ⟨size, true, p.addr⟩,
        u.emit (.memcpy p.addr z.focus.memArea z.focus.size)) := by
  obtain ⟨v, -, heq⟩ := smAllocMn_eq com h.wf (by omega : size ≠ 0) hbound
  have hfst := placeBlock_fst com s p size
  rw [if_pos hgrant] at hfst
  cases hblock : placeBlock com s p.cursor size with
  | mk placed u =>
      rw [hblock] at hfst
      simp only at hfst
      subst hfst
      refine ⟨u, rfl, ?_⟩
      simp only [relocate, heq, hplace, placeOrReport, hblock, Option.bind_eq_bind,
        Option.bind_some]
      simp [smfree, hbad]

/-- A resize carries the block over unless it copies it away from the address
that means failure. -/
theorem keepsContents_iff (com : CommitFn) (h : PoolInv lo hi s) (hptr : ptr ≠ 0)
    (hsize : size ≠ 0) (hbound : size < 2 ^ 64) :
    KeepsContents com s ptr size ↔ TopBlockStays com s ptr size := by
  have hpos := Nat.pos_of_ne_zero hsize
  constructor
  · intro hkeep hbad z hz hused
    by_contra hno
    push Not at hno
    obtain ⟨hlt, hprev, p, hplace, hgrant⟩ := hno
    simp only [Option.mem_def] at hz hplace
    have hgrant : granted com s p.addr size = true := by simpa using hgrant
    have hfind := findMn_of_blockAt hz hused
    obtain ⟨-, hlist, hfocus⟩ := findMn_eq_some hfind
    obtain ⟨hone, hnone⟩ := top_block h.wf hlist (hfocus.trans hbad)
    obtain ⟨hfits, -⟩ :=
      @alignedPlacement_fits 1 size s.mp.nodes 0 p rfl (alignedNoWrap_one _ hbound) hplace
    obtain ⟨u, hblock, hmove⟩ :=
      @relocate_top lo hi size s z com h hpos hbound (hfocus.trans hbad) p hplace hgrant
    have hpath : smReallocAllocMn com s z size = relocate com s z.focus size := by
      rcases smReallocAllocMn_paths com h.wf hlist size with
        ⟨pmn, before, hbefore, hfree, hfit, -⟩ | ⟨-, heq⟩
      · rw [hbefore, nextFree_cons_free hfree] at hprev
        have hroom := hprev hfree
        omega
      · exact heq
    have hnogrow : ¬(nextUsed z.after = false ∧
        size ≤ uwrap 64 (z.focus.size + nextFree z.after)) := by
      rw [uwrap_add (by omega)]
      omega
    have hr : smrealloc com s ptr size =
        some (p.addr, u.emit (.memcpy p.addr z.focus.memArea z.focus.size)) := by
      have hne : size ≠ z.focus.size := by omega
      have hge : ¬size < z.focus.size := by omega
      simp only [smrealloc, hptr, hfind, hused, hsize, hne, hge, hnogrow, hpath, hmove, if_false,
        Bool.not_true, Bool.false_eq_true, Option.bind_eq_bind, Option.bind_some, cAssert, if_true]
      rfl
    have haddr : p.addr ≠ badAddr := by
      have hb := focus_bounds (hfits.list ▸ h.wf.tiles)
      have hend := h.wf.range.le
      have hroom := hfits.fits
      apply addr_ne_bad p.addr size
      · rw [Placement.addr]
        omega
      · omega
    have hold : z.focus ∈ usedNodes s.mp.nodes :=
      hlist ▸ mem_usedNodes.mpr ⟨mem_toList z, hused⟩
    have hcarried := hkeep z.focus hold hfocus _ _ hr haddr
      copyBytes copyBytes_apart
    -- the old block is still there
    have hthere := ((placeBlock_contents (fun m _ _ _ => m) com h hpos hfits hblock).2.2.2
      z.focus).mpr (Or.inr hold)
    rcases (hcarried.used z.focus).mp hthere with heq | ⟨-, hne⟩
    · have hsame := congrArg MemNode.size heq
      simp only at hsame
      omega
    · exact hne rfl
  · intro hstay old hold hat ret t hr hret memcpy hcopy
    obtain ⟨hmem, hused⟩ := mem_usedNodes.mp hold
    obtain ⟨z, hfind, rfl, -⟩ := findMn_of_mem h.wf.tiles hmem hused
    rw [hat] at hfind
    exact smrealloc_carried hcopy com h hptr hsize hbound hstay hfind hused hr hret

end Realloc

/-! ## Resizes in reached states -/

/-- In every state that a run of careful calls reaches, a resize carries the
contents of every live block over, unless it copies a block away from the
address that means failure. -/
theorem contents_iff (init : SmInit) (com : CommitFn) {start poolSize : Nat}
    (cs : List PoolCall) {s : SmState} (ptr : UInt32) (size : UInt64) (hpos : 0 < poolSize)
    (hend : start + poolSize ≤ 2 ^ 32) (hsmall : poolSize < 2 ^ 31)
    (hok : Run.Admits (poolStep com) Careful (init.pool start poolSize) cs)
    (hrun : Run.run (poolStep com) (init.pool start poolSize) cs = some s)
    (hptr : ptr.toNat ≠ 0) (hsize : size.toNat ≠ 0) :
    KeepsContents com s ptr.toNat size.toNat ↔ TopBlockStays com s ptr.toNat size.toNat :=
  keepsContents_iff com (poolRun_inv com (pool_inv init hpos hend hsmall) hok hrun) hptr hsize
    size.toNat_lt

/-- The only block of a pool of three pages grows. -/
theorem contents_iff_one_block :
    ∃ s, Run.run (poolStep alwaysCommit) ((SmInit.sminitCom true true 0).pool 0x1000 0x3000)
        [.sm (.smalloc 16)] = some s ∧
      (KeepsContents alwaysCommit s 0x1000 32 ↔ TopBlockStays alwaysCommit s 0x1000 32) := by
  have hok : Run.Admits (poolStep alwaysCommit) Careful
      ((SmInit.sminitCom true true 0).pool 0x1000 0x3000) [.sm (.smalloc 16)] :=
    ⟨⟨trivial, fun _ => trivial⟩, fun _ _ => trivial⟩
  have hsome : (Run.run (poolStep alwaysCommit)
      ((SmInit.sminitCom true true 0).pool 0x1000 0x3000) [.sm (.smalloc 16)]).isSome := by
    decide +kernel
  obtain ⟨s, hs⟩ := Option.isSome_iff_exists.mp hsome
  exact ⟨s, hs, contents_iff (.sminitCom true true 0) _ [.sm (.smalloc 16)] 0x1000 32
    (by norm_num) (by norm_num) (by norm_num) hok hs (by decide) (by decide)⟩

/-- The top byte of the address space and the byte below it are allocated. -/
def topCalls : List PoolCall :=
  [.sm (.smallocFixed 0xffffffff 1), .sm (.smallocFixed 0xfffffffe 1)]

/-- A request that wraps around after a refused commit. -/
def wrapCalls : List PoolCall :=
  [.sm (.smallocFixed 0x1000 4), .sm (.smallocFixed 0x1018 4), .sm (.smallocFixed 0x100e 4),
    .sm (.smallocAligned 128 0xffffffffffffff89)]

/-- Refuses what is asked while the log has between four and eight entries. -/
def refusesTwice : CommitFn := fun log _ _ => decide (log.length < 4 ∨ 8 ≤ log.length)

/-- A block at the top of the address space is still there after it was copied; and in a
pool that a refused request has damaged, a block that grows clears another one. -/
theorem resize_loses_blocks :
    (∃ s, Run.run (poolStep alwaysCommit) (SmInit.sminit.pool 0xfffff000 0x1000) topCalls =
        some s ∧ ¬KeepsContents alwaysCommit s 0xffffffff 2) ∧
      ∃ s, Run.run (poolStep refusesTwice) ((SmInit.sminitComu true true 0).pool 0x1000 0x3000)
        wrapCalls = some s ∧ ¬KeepsContents refusesTwice s 0x1000 40 := by
  constructor
  · have hval : (Run.run (poolStep alwaysCommit) (SmInit.sminit.pool 0xfffff000 0x1000)
        topCalls).map (fun s => (decide (⟨1, true, 0xffffffff⟩ ∈ usedNodes s.mp.nodes),
          (smrealloc alwaysCommit s 0xffffffff 2).map fun r =>
            (r.1, decide (⟨1, true, 0xffffffff⟩ ∈ usedNodes r.2.mp.nodes)))) =
        some (true, some (0xfffff000, true)) := by
      decide +kernel
    obtain ⟨s, hs, hval⟩ := Option.map_eq_some_iff.mp hval
    simp only [Prod.mk.injEq, decide_eq_true_eq, Option.map_eq_some_iff] at hval
    obtain ⟨hold, r, hr, hret, hstill⟩ := hval
    refine ⟨s, hs, ?_⟩
    intro h
    have hcarried := h _ hold rfl r.1 r.2 hr (by rw [hret]; decide) copyBytes copyBytes_apart
    rcases (hcarried.used _).mp hstill with heq | ⟨-, hne⟩
    · cases heq
    · exact hne rfl
  · have hval : (Run.run (poolStep refusesTwice)
        ((SmInit.sminitComu true true 0).pool 0x1000 0x3000) wrapCalls).map (fun s =>
          (decide (⟨4, true, 0x1000⟩ ∈ usedNodes s.mp.nodes ∧
            ⟨4, true, 0x1018⟩ ∈ usedNodes s.mp.nodes),
          (smrealloc refusesTwice s 0x1000 40).map fun r =>
            (r.1, bytesAfter copyBytes s r.2 (fun _ => 1) 0x1018))) =
        some (true, some (0x1000, 0)) := by
      decide +kernel
    obtain ⟨s, hs, hval⟩ := Option.map_eq_some_iff.mp hval
    simp only [Prod.mk.injEq, decide_eq_true_eq, Option.map_eq_some_iff] at hval
    obtain ⟨⟨hold, hother⟩, r, hr, hret, hbyte⟩ := hval
    refine ⟨s, hs, ?_⟩
    intro h
    have hcarried := h _ hold rfl r.1 r.2 hr (by rw [hret]; decide) copyBytes copyBytes_apart
    have hkept := hcarried.others (fun _ => 1) _ hother (by decide) 0x1018 (by decide) (by decide)
    rw [hbyte] at hkept
    exact absurd hkept (by decide)

end Smalloc
end Dosemu
