import Dosemu.Smalloc.Invariant

/-!
# Committed pages

`sm_commit` rounds a block outwards to pages and `sm_uncommit` rounds a free
area inwards.  From the log of a pool one can read which pages are committed;
this module shows that with callbacks that always succeed, only pages of free
areas are uncommitted and the pages of used blocks stay committed, as long as
every area handed to `sm_uncommit` reaches the next page boundary.  Where it
does not, the subtraction in `sm_uncommit` wraps around.

Main results:

- Theorem `smUncommit_eq`: the inward rounding, when there is something to
  round to.
- Theorem `step_held`: one call keeps the pages of used blocks committed.
- Theorem `commit_safe`: over whole runs, every uncommitted range is page
  aligned and free, and every page of a used block is committed.
-/

namespace Dosemu
namespace Smalloc

open MachineInt Tiling

/-! ## Pages and the log -/

/-- The page with number `p` shares a byte with the range. -/
def Touches (addr len p : Nat) : Prop :=
  0 < len ∧ addr < 4096 * (p + 1) ∧ 4096 * p < addr + len

/-- The page with number `p` lies in the range. -/
def Covers (addr len p : Nat) : Prop :=
  addr ≤ 4096 * p ∧ 4096 * (p + 1) ≤ addr + len

instance (addr len p : Nat) : Decidable (Touches addr len p) :=
  inferInstanceAs (Decidable (_ ∧ _ ∧ _))

instance (addr len p : Nat) : Decidable (Covers addr len p) :=
  inferInstanceAs (Decidable (_ ∧ _))

/-- What an event does to the state of a page: a commit counts when it covers
the page, an uncommit when it touches it. -/
def commitStep (p : Nat) (b : Bool) (e : SmEntry) : Bool :=
  match e.event with
  | .commit addr len true => b || decide (Covers addr len p)
  | .uncommit addr len => b && !decide (Touches addr len p)
  | _ => b

/-- The page was passed to commit and not to uncommit since. -/
def pageCommitted (log : List SmEntry) (p : Nat) : Bool :=
  log.foldl (commitStep p) false

/-- Every page of the range is committed. -/
def RangeHeld (log : List SmEntry) (addr len : Nat) : Prop :=
  ∀ p, Touches addr len p → pageCommitted log p = true

/-- Every page of every used node is committed. -/
def PagesHeld (log : List SmEntry) (nodes : List MemNode) : Prop :=
  ∀ mn ∈ usedNodes nodes, RangeHeld log mn.memArea mn.size

/-- Every byte of the range belongs to an unused node. -/
def InFreeSpace (nodes : List MemNode) (addr len : Nat) : Prop :=
  ∀ x, addr ≤ x → x < addr + len →
    ∃ mn ∈ nodes, mn.used = false ∧ mn.memArea ≤ x ∧ x < mn.memArea + mn.size

/-- What must hold where a callback is made: a range to uncommit is page aligned
and free, and before and after the call the pages of used nodes are
committed. -/
def EntryOk (pre : List SmEntry) (e : SmEntry) : Prop :=
  match e.event with
  | .commit _ _ _ => PagesHeld pre e.nodes ∧ PagesHeld (pre ++ [e]) e.nodes
  | .uncommit addr len =>
      (4096 ∣ addr ∧ 4096 ∣ len ∧ InFreeSpace e.nodes addr len) ∧
        PagesHeld pre e.nodes ∧ PagesHeld (pre ++ [e]) e.nodes
  | _ => True

/-- Every callback so far was made safely. -/
def SafeLog (log : List SmEntry) : Prop :=
  ∀ pre e post, log = pre ++ e :: post → EntryOk pre e

section Log

variable {log : List SmEntry} {e : SmEntry} {addr len : Nat} {nodes : List MemNode}

theorem pageCommitted_append (log : List SmEntry) (e : SmEntry) (p : Nat) :
    pageCommitted (log ++ [e]) p = commitStep p (pageCommitted log p) e := by
  simp [pageCommitted, List.foldl_append]

/-- A log is safe when it was and the new entry is. -/
theorem SafeLog.append (h : SafeLog log) (he : EntryOk log e) : SafeLog (log ++ [e]) := by
  intro pre e' post hlog
  rcases List.eq_nil_or_concat post with rfl | ⟨post', last, rfl⟩
  · obtain ⟨rfl, hlast⟩ := List.append_inj' hlog rfl
    cases hlast
    exact he
  · refine h pre e' post' ?_
    rw [List.concat_eq_append, ← List.cons_append, ← List.append_assoc] at hlog
    exact (List.append_inj' hlog rfl).1

/-- A part of a held range is held. -/
theorem RangeHeld.sub {addr' len' : Nat} (h : RangeHeld log addr len) (hlo : addr ≤ addr')
    (hhi : addr' + len' ≤ addr + len) : RangeHeld log addr' len' := by
  rintro p ⟨hpos, hbelow, habove⟩
  exact h p ⟨by omega, by omega, by omega⟩

/-- Two held ranges that meet are one held range. -/
theorem RangeHeld.append {len' : Nat} (h : RangeHeld log addr len)
    (h' : RangeHeld log (addr + len) len') (hpos : 0 < len) :
    RangeHeld log addr (len + len') := by
  rintro p ⟨-, hbelow, habove⟩
  by_cases hp : 4096 * p < addr + len
  · exact h p ⟨hpos, hbelow, hp⟩
  · exact h' p ⟨by omega, by omega, by omega⟩

/-- Events other than an uncommit take nothing away. -/
theorem pageCommitted_mono {p : Nat} (he : ∀ a n, e.event ≠ .uncommit a n)
    (h : pageCommitted log p = true) : pageCommitted (log ++ [e]) p = true := by
  rw [pageCommitted_append]
  unfold commitStep
  split
  · simp [h]
  · rename_i a n heq
    exact (he a n heq).elim
  · exact h

theorem RangeHeld.mono (he : ∀ a n, e.event ≠ .uncommit a n) (h : RangeHeld log addr len) :
    RangeHeld (log ++ [e]) addr len :=
  fun p hp => pageCommitted_mono he (h p hp)

theorem PagesHeld.mono (he : ∀ a n, e.event ≠ .uncommit a n) (h : PagesHeld log nodes) :
    PagesHeld (log ++ [e]) nodes :=
  fun mn hmn => (h mn hmn).mono he

end Log

/-! ## Rounding -/

/-- The distance up to the next page boundary. -/
def pageGap (addr : Nat) : Nat := (4096 - addr % 4096) % 4096

/-- The area is long enough to reach a page boundary. -/
def ReachesPage (addr len : Nat) : Prop := pageGap addr ≤ len

instance (addr len : Nat) : Decidable (ReachesPage addr len) :=
  inferInstanceAs (Decidable (_ ≤ _))

section Rounding

variable {addr len : Nat}

theorem pageGap_dvd (addr : Nat) : 4096 ∣ addr + pageGap addr := by
  unfold pageGap
  omega

theorem commitBase_eq (h : addr < 2 ^ 32) : commitBase addr = addr / 4096 * 4096 := by
  have := land_compl_mask (w := 32) (k := 12) (by norm_num) h
  simpa [commitBase] using this

theorem pageAlign64_eq (h : len + 4095 < 2 ^ 64) :
    pageAlign64 len = (len + 4095) / 4096 * 4096 := by
  have hval : uwrap 64 ((len : Int) + 4095) = len + 4095 := by
    rw [uwrap_of_lt (by omega) (by omega)]
    omega
  have := land_compl_mask (w := 64) (k := 12) (by norm_num) h
  simpa [pageAlign64, hval] using this

theorem commitSpan_eq (haddr : addr < 2 ^ 32) (hlen : len ≤ 2 ^ 32) :
    commitSpan addr len = (len + addr % 4096 + 4095) / 4096 * 4096 := by
  have hmod : (addr : Int) - (commitBase addr : Nat) = (addr % 4096 : Nat) := by
    rw [commitBase_eq haddr]
    omega
  have hval : uwrap 64 ((len : Int) + (addr % 4096 : Nat)) = len + addr % 4096 :=
    uwrap_add (by omega)
  rw [commitSpan, hmod, hval, pageAlign64_eq (by omega)]

/-- A commit covers every page its block touches. -/
theorem covers_commit {p : Nat} (haddr : addr < 2 ^ 32) (hlen : len ≤ 2 ^ 32)
    (h : Touches addr len p) : Covers (commitBase addr) (commitSpan addr len) p := by
  obtain ⟨hpos, hbelow, habove⟩ := h
  unfold Covers
  rw [commitBase_eq haddr, commitSpan_eq haddr hlen]
  constructor <;> omega

theorem pageAlign32_sub (hend : addr + len ≤ 2 ^ 32) (hlen : 0 < len) :
    uwrap 32 ((pageAlign32 addr : Int) - addr) = pageGap addr ∧
      (addr + pageGap addr < 2 ^ 32 → pageAlign32 addr = addr + pageGap addr) := by
  have hgap := Nat.mod_lt (4096 - addr % 4096) (show 0 < 4096 by norm_num)
  have hmask : pageAlign32 addr = uwrap 32 ((addr : Int) + 4095) / 4096 * 4096 := by
    have := land_compl_mask (w := 32) (k := 12) (by norm_num) (uwrap_lt 32 ((addr : Int) + 4095))
    simpa [pageAlign32] using this
  by_cases hwrap : addr + 4095 < 2 ^ 32
  · have hval : uwrap 32 ((addr : Int) + 4095) = addr + 4095 := by
      rw [uwrap_of_lt (by omega) (by omega)]
      omega
    have hup : (addr + 4095) / 4096 * 4096 = addr + pageGap addr := by
      unfold pageGap
      omega
    rw [hmask, hval, hup]
    refine ⟨?_, fun _ => rfl⟩
    rw [uwrap_sub (Nat.le_add_right _ _) (by unfold pageGap; omega)]
    omega
  · -- the rounded address is the end of the address space and wraps to zero
    have hval : uwrap 32 ((addr : Int) + 4095) = addr + 4095 - 2 ^ 32 := by
      have hsub : (addr : Int) + 4095 = (addr + 4095 - 2 ^ 32 : Nat) + 2 ^ 32 := by omega
      rw [hsub]
      exact uwrap_add_modulus (by omega)
    have hzero : (addr + 4095 - 2 ^ 32) / 4096 * 4096 = 0 := by omega
    rw [hmask, hval, hzero]
    refine ⟨?_, fun h => ?_⟩
    · have hneg : ((0 : Nat) : Int) - addr = (2 ^ 32 - addr : Nat) - 2 ^ 32 := by omega
      rw [hneg, uwrap_sub_modulus (by omega)]
      unfold pageGap
      omega
    · unfold pageGap at h
      omega

/-- An area that reaches a page boundary is uncommitted from there on, in whole
pages. -/
theorem smUncommit_eq (s : SmState) (hend : addr + len ≤ 2 ^ 32) (hlen : 0 < len)
    (hreach : ReachesPage addr len) :
    smUncommit s addr len =
      if s.mp.uncommit = false ∨ (len - pageGap addr) / 4096 = 0 then s
      else s.emit (.uncommit (addr + pageGap addr) ((len - pageGap addr) / 4096 * 4096)) := by
  have hreach : pageGap addr ≤ len := hreach
  obtain ⟨hdist, haddr⟩ := pageAlign32_sub hend hlen
  have hsize : uwrap 64 ((len : Int) - (pageGap addr : Nat)) = len - pageGap addr :=
    uwrap_sub hreach (by omega)
  have hmask : (len - pageGap addr) &&& (2 ^ 64 - 2 ^ 12) =
      (len - pageGap addr) / 4096 * 4096 := by
    have := land_compl_mask (w := 64) (k := 12) (x := len - pageGap addr) (by norm_num) (by omega)
    simpa using this
  unfold smUncommit
  simp only [hdist, hsize, hmask]
  by_cases hzero : (len - pageGap addr) / 4096 = 0
  · simp [hzero]
  · have hne : (len - pageGap addr) / 4096 * 4096 ≠ 0 := by omega
    rw [haddr (by omega)]
    cases hu : s.mp.uncommit <;> simp [hzero, hne]

end Rounding

/-! ## States with their pages held -/

/-- A pool whose callbacks have always succeeded and were made safely. -/
structure SafePool (s : SmState) : Prop where
  commit : s.mp.commit = true
  failed : s.failed = false
  safe : SafeLog s.log

/-- Such a pool with the pages of its used nodes committed. -/
structure Held (s : SmState) : Prop extends SafePool s where
  pages : PagesHeld s.log s.mp.nodes

section Held

variable {lo hi addr len : Nat} {s : SmState}

/-- Events that are no callback. -/
def SmEvent.isQuiet : SmEvent → Bool
  | .commit _ _ _ | .uncommit _ _ => false
  | _ => true

theorem SmEvent.ne_uncommit {e : SmEvent} (he : e.isQuiet = true) (a n : Nat) :
    e ≠ .uncommit a n := by
  rintro rfl
  simp [SmEvent.isQuiet] at he

theorem SafePool.emit_quiet {e : SmEvent} (h : SafePool s) (he : e.isQuiet = true) :
    SafePool (s.emit e) where
  commit := h.commit
  failed := by
    cases e <;> simp_all [SmEvent.isQuiet, SmEvent.isRefusal, h.failed]
  safe := by
    refine h.safe.append ?_
    cases e <;> simp_all [SmEvent.isQuiet, EntryOk]

theorem SafePool.setAvail (h : SafePool s) (avail : Nat) : SafePool (s.setAvail avail) :=
  ⟨h.commit, h.failed, h.safe⟩

theorem SafePool.setNodes (h : SafePool s) (nodes : List MemNode) :
    SafePool (s.setNodes nodes) :=
  ⟨h.commit, h.failed, h.safe⟩

theorem safePool_cleared (addr len : Nat) (h : SafePool s) : SafePool (cleared s addr len) := by
  unfold cleared
  split
  · exact h.emit_quiet rfl
  · exact h

theorem Held.emit_quiet {e : SmEvent} (h : Held s) (he : e.isQuiet = true) : Held (s.emit e) :=
  ⟨h.toSafePool.emit_quiet he, h.pages.mono (SmEvent.ne_uncommit he)⟩

theorem Held.setAvail (h : Held s) (avail : Nat) : Held (s.setAvail avail) :=
  ⟨h.toSafePool.setAvail avail, h.pages⟩

theorem Held.setNodes (h : Held s) {nodes : List MemNode} (hnodes : PagesHeld s.log nodes) :
    Held (s.setNodes nodes) :=
  ⟨h.toSafePool.setNodes nodes, hnodes⟩

theorem Held.reported {t : SmState} (h : Held s) (hr : Reported s t) : Held t := by
  obtain ⟨e, he, rfl⟩ := hr
  refine h.emit_quiet ?_
  cases e <;> simp_all [SmEvent.isReport, SmEvent.isQuiet]

theorem rangeHeld_cleared {a n : Nat} (h : RangeHeld s.log a n) :
    RangeHeld (cleared s addr len).log a n := by
  unfold cleared
  split
  · exact h.mono (by simp)
  · exact h

theorem held_cleared (addr len : Nat) (h : Held s) : Held (cleared s addr len) := by
  refine ⟨safePool_cleared addr len h.toSafePool, ?_⟩
  rw [cleared_mp]
  exact fun mn hmn => rangeHeld_cleared (h.pages mn hmn)

/-- A granted commit keeps what is held and adds its block. -/
theorem held_committed (addr len : Nat) (h : Held s) (haddr : addr < 2 ^ 32) (hlen : len ≤ 2 ^ 32) :
    Held (committed s addr len) ∧ RangeHeld (committed s addr len).log addr len := by
  have hmono : ∀ a n, SmEvent.commit (commitBase addr) (commitSpan addr len) true ≠
      .uncommit a n := by simp
  unfold committed
  rw [if_pos h.commit]
  refine ⟨⟨⟨h.commit, by simp [h.failed, SmEvent.isRefusal], ?_⟩, h.pages.mono hmono⟩, ?_⟩
  · exact h.safe.append ⟨h.pages, h.pages.mono hmono⟩
  · intro p hp
    rw [SmState.emit_log, pageCommitted_append]
    simp [commitStep, covers_commit haddr hlen hp]

theorem rangeHeld_committed {a n : Nat} (hs : Held s) (h : RangeHeld s.log a n) :
    RangeHeld (committed s addr len).log a n := by
  unfold committed
  rw [if_pos hs.commit]
  exact h.mono (by simp)

/-- Uncommitting a free node that reaches a page boundary takes no page of a
used node away. -/
theorem held_smUncommit (mn : MemNode) (h : Held s) (htiles : PoolTiles lo s.mp.nodes hi)
    (hhi : hi ≤ 2 ^ 32) (hmem : mn ∈ s.mp.nodes) (hfree : mn.used = false)
    (hreach : ReachesPage mn.memArea mn.size) : Held (smUncommit s mn.memArea mn.size) := by
  have hb := htiles.mem_bounds mn hmem
  have hgap : pageGap mn.memArea ≤ mn.size := hreach
  rw [smUncommit_eq s (by omega) hb.2.1 hreach]
  split
  · exact h
  set addr := mn.memArea + pageGap mn.memArea with haddr
  set len := (mn.size - pageGap mn.memArea) / 4096 * 4096 with hlen
  have hinside : mn.memArea ≤ addr ∧ addr + len ≤ mn.memArea + mn.size := by omega
  have hdvd : 4096 ∣ addr ∧ 4096 ∣ len := ⟨pageGap_dvd _, Nat.dvd_mul_left _ _⟩
  -- a page of a used node that the range touches would lie in the free node
  have hpages : PagesHeld (s.log ++ [⟨.uncommit addr len, s.mp.nodes⟩]) s.mp.nodes := by
    intro um hum p hp
    rw [pageCommitted_append]
    have hheld := h.pages um hum p hp
    obtain ⟨humem, huused⟩ := mem_usedNodes.mp hum
    have huntouched : ¬Touches addr len p := by
      rintro ⟨hpos, hbelow, habove⟩
      obtain ⟨hupos, hubelow, huabove⟩ := hp
      obtain ⟨⟨i, hi⟩, ⟨j, hj⟩⟩ := hdvd
      have hin : addr ≤ 4096 * p ∧ 4096 * (p + 1) ≤ addr + len := by omega
      have hsame : um = mn := htiles.eq_of_overlap (p := max um.memArea (4096 * p)) humem hmem
        (by omega) (by omega) (by omega) (by omega)
      rw [hsame, hfree] at huused
      simp at huused
    simp [commitStep, hheld, huntouched]
  refine ⟨⟨h.commit, by simp [h.failed, SmEvent.isRefusal], h.safe.append ?_⟩, hpages⟩
  refine ⟨⟨hdvd.1, hdvd.2, ?_⟩, h.pages, hpages⟩
  intro x hlo hhi
  exact ⟨mn, hmem, hfree, by omega, by omega⟩

end Held

/-! ## What a call hands to `sm_uncommit` -/

/-- The block that starts at `ptr`. -/
def blockAt (nodes : List MemNode) (ptr : Nat) : Option (Zipper MemNode) :=
  Zipper.scan (fun mn => decide (ptr < mn.memArea)) (fun mn => decide (mn.memArea = ptr)) [] nodes

/-- The area that is free after the block at `ptr` was freed. -/
def freedAt (nodes : List MemNode) (ptr : Nat) : List (Nat × Nat) :=
  match blockAt nodes ptr with
  | none => []
  | some z =>
      if z.focus.used then [((merged z).focus.memArea, (merged z).focus.size)] else []

/-- The area that is left free when a block is copied to a new place. -/
def relocateAreas (nodes : List MemNode) (ptr size : Nat) : List (Nat × Nat) :=
  match alignedPlacement nodes 1 size with
  | none => []
  | some p => freedAt (takenNodes p.cursor size) ptr

/-- The areas that resizing a used block hands to `sm_uncommit`. -/
def resizeAreas (nodes : List MemNode) (z : Zipper MemNode) (size : Nat) : List (Nat × Nat) :=
  if size = 0 then [((merged z).focus.memArea, (merged z).focus.size)]
  else if size < z.focus.size then
    [(z.focus.memArea + size, z.focus.size + nextFree z.after - size)]
  else if size ≤ z.focus.size + nextFree z.after then []
  else
    match z.before with
    | [] => relocateAreas nodes z.focus.memArea size
    | pmn :: _ =>
        if pmn.used = false ∧ size ≤ pmn.size + z.focus.size + nextFree z.after then
          if pmn.size + z.focus.size + nextFree z.after - size = 0 then []
          else [(pmn.memArea + size, pmn.size + z.focus.size + nextFree z.after - size)]
        else relocateAreas nodes z.focus.memArea size

/-- The areas a call hands to `sm_uncommit`; those of `smfree_all` all start
with the pool and are left out. -/
def callAreas (nodes : List MemNode) : SmCall → List (Nat × Nat)
  | .smfree ptr => freedAt nodes ptr.toNat
  | .smrealloc ptr size =>
      if ptr.toNat = 0 then []
      else
        match blockAt nodes ptr.toNat with
        | none => []
        | some z => if z.focus.used then resizeAreas nodes z size.toNat else []
  | _ => []

/-- Every area a call hands to `sm_uncommit` reaches a page boundary. -/
def CallReaches (s : SmState) (c : SmCall) : Prop :=
  ∀ area ∈ callAreas s.mp.nodes c, ReachesPage area.1 area.2

/-! ## The operations -/

/-- A commit callback that always succeeds. -/
def alwaysCommit : CommitFn := fun _ _ _ => true

@[simp]
theorem granted_alwaysCommit (s : SmState) (addr size : Nat) :
    granted alwaysCommit s addr size = true := by
  simp [granted, alwaysCommit]

section Nodes

variable {log : List SmEntry} {z : Zipper MemNode} {size : Nat}

/-- The pages of the nodes around a cursor. -/
theorem pagesHeld_toList :
    PagesHeld log z.toList ↔ PagesHeld log z.before ∧
      (z.focus.used = true → RangeHeld log z.focus.memArea z.focus.size) ∧
        PagesHeld log z.after := by
  unfold PagesHeld
  rw [usedNodes_toList]
  cases hused : z.focus.used <;>
    simp only [List.mem_append, List.mem_reverse, List.mem_singleton, List.not_mem_nil,
      Bool.false_eq_true, if_true, if_false, false_or, or_imp, forall_and, forall_eq,
      false_implies, true_implies, true_and]

theorem pagesHeld_takenNodes (hbefore : PagesHeld log z.before) (hafter : PagesHeld log z.after)
    (hblock : RangeHeld log z.focus.memArea size) : PagesHeld log (takenNodes z size) := by
  have hused : usedNodes (takenNodes z size) = (usedNodes z.before).reverse ++
      ({ size := size, used := true, memArea := z.focus.memArea } :: usedNodes z.after) := by
    simp [takenNodes, usedNodes_reverse]
  intro mn hmn
  rw [hused] at hmn
  simp only [List.mem_append, List.mem_reverse, List.mem_cons] at hmn
  rcases hmn with hmn | rfl | hmn
  · exact hbefore mn hmn
  · exact hblock
  · exact hafter mn hmn

theorem pagesHeld_merged (h : PagesHeld log z.toList) : PagesHeld log (merged z).toList := by
  obtain ⟨hbefore, -, hafter⟩ := pagesHeld_toList.mp h
  intro mn hmn
  rw [usedNodes_merged] at hmn
  simp only [List.mem_append, List.mem_reverse] at hmn
  rcases hmn with hmn | hmn
  · exact hbefore mn hmn
  · exact hafter mn hmn

theorem mem_merged (z : Zipper MemNode) : (merged z).focus ∈ (merged z).toList := by
  simp [Zipper.toList]

end Nodes

section Ops

variable {lo hi ptr size : Nat} {s : SmState} {z : Zipper MemNode}

theorem held_placeBlock (h : Held s) (hinv : PoolInv lo hi s)
    (hz : ChosenCursor lo hi s.mp.nodes size z) :
    Held (placeBlock alwaysCommit s z size).2 := by
  have hb := focus_bounds hz.tiles
  have hend := hinv.wf.range.le
  have hfits := hz.fits
  have hcut : Held (s.setNodes z.toList) := by
    refine h.setNodes fun mn hmn => h.pages mn ?_
    rwa [hz.used] at hmn
  obtain ⟨hcom, hblock⟩ := held_committed z.focus.memArea size hcut (by omega) (by omega)
  have hlist : PagesHeld (committed (s.setNodes z.toList) z.focus.memArea size).log z.toList := by
    simpa using hcom.pages
  obtain ⟨hbefore, -, hafter⟩ := pagesHeld_toList.mp hlist
  unfold placeBlock
  rw [if_pos (granted_alwaysCommit _ _ _)]
  exact held_cleared _ _ ((hcom.setAvail _).setNodes (pagesHeld_takenNodes hbefore hafter hblock))

theorem held_placeOrReport {t : SmState} {place : Option Placement} (h : Held s)
    (hinv : PoolInv lo hi s) (hpos : 0 < size) (ht : Reported s t)
    (hp : ∀ p ∈ place, p.Fits s.mp.nodes size) :
    Held (placeOrReport alwaysCommit s t place size).2 := by
  cases place with
  | none => exact h.reported ht
  | some p => exact held_placeBlock h hinv ((hp p rfl).chosen hinv.wf.tiles hpos)

/-- Freeing a block, given that the area it leaves reaches a page boundary. -/
theorem Held.freed (h : Held s) (hinv : PoolInv lo hi s) (hlist : z.toList = s.mp.nodes)
    (hreach : ReachesPage (merged z).focus.memArea (merged z).focus.size) (avail : Nat) :
    Held (smUncommit ((s.setAvail avail).setNodes (merged z).toList)
      (merged z).focus.memArea (merged z).focus.size) := by
  have hpages := h.pages
  rw [← hlist] at hpages
  exact held_smUncommit _ ((h.setAvail avail).setNodes (pagesHeld_merged hpages))
    (tiles_merged (hlist ▸ hinv.wf.tiles)) hinv.wf.range.le (mem_merged z) rfl hreach

theorem blockAt_of_findMn {t : SmState} (h : findMn s ptr = (t, some z)) :
    blockAt s.mp.nodes ptr = some z := by
  unfold findMn at h
  split at h
  · simp at h
  · simp only [Prod.mk.injEq] at h
    exact h.2

theorem held_findMn (h : Held s) (ptr : Nat) : Held (findMn s ptr).1 := by
  unfold findMn
  split
  · exact h.reported (reported_smerror s _)
  · exact h

theorem held_smfree (h : Held s) (hinv : PoolInv lo hi s)
    (hreach : ∀ area ∈ freedAt s.mp.nodes ptr, ReachesPage area.1 area.2)
    {r : Int × SmState} (hr : smfree s ptr = some r) : Held r.2 := by
  by_cases hbad : ptr = badAddr
  · simp only [smfree, hbad, if_true] at hr
    cases hr
    exact h
  have hfound := held_findMn h ptr
  cases hfind : findMn s ptr with
  | mk t found =>
      rw [hfind] at hfound
      cases found with
      | none =>
          simp only [smfree, hbad, if_false, hfind] at hr
          cases hr
          exact hfound.reported (reported_smerror t _)
      | some z =>
          obtain ⟨rfl, hlist, -⟩ := findMn_eq_some hfind
          cases hused : z.focus.used
          · simp only [smfree, hbad, if_false, hfind, hused, Bool.not_false, if_true] at hr
            cases hr
            exact h.reported (reported_smerror _ _)
          · rw [smfree_eq hinv.wf hbad hfind hused] at hr
            split at hr
            · cases hr
              refine h.freed hinv hlist ?_ _
              refine hreach ((merged z).focus.memArea, (merged z).focus.size) ?_
              simp [freedAt, blockAt_of_findMn hfind, hused]
            · simp at hr

/-- Shrinking a block, given that what it gives up reaches a page boundary. -/
theorem held_shrinkMn (h : Held s) (hinv : PoolInv lo hi s) (hlist : z.toList = s.mp.nodes)
    (hused : z.focus.used = true) (hpos : 0 < size) (hlt : size < z.focus.size)
    (hreach : ReachesPage (z.focus.memArea + size) (z.focus.size + nextFree z.after - size))
    {r : Nat × SmState} (hr : shrinkMn s z size = some r) : Held r.2 := by
  rw [shrinkMn_eq hinv.wf hlist hused hpos hlt] at hr
  cases hr
  have hpages := h.pages
  rw [← hlist] at hpages
  obtain ⟨hbefore, hfocus, hafter⟩ := pagesHeld_toList.mp hpages
  have hblock : RangeHeld s.log z.focus.memArea size :=
    (hfocus hused).sub le_rfl (by omega)
  have htiles := tiles_takenNodes (hlist ▸ hinv.wf.tiles) hpos
    (show size ≤ z.focus.size + nextFree z.after by omega)
  have hrest : 0 < z.focus.size + nextFree z.after - size := by omega
  exact held_smUncommit ⟨z.focus.size + nextFree z.after - size, false, z.focus.memArea + size⟩
    ((h.setAvail _).setNodes (pagesHeld_takenNodes hbefore hafter hblock)) htiles hinv.wf.range.le
    (by simp [takenNodes, freeArea_of_pos _ hrest]) rfl hreach

/-- Growing a block into the free area behind it. -/
theorem held_growMn (h : Held s) (hinv : PoolInv lo hi s) (hlist : z.toList = s.mp.nodes)
    (hused : z.focus.used = true) (hnext : nextUsed z.after = false)
    (hlt : z.focus.size < size) (hfit : size ≤ z.focus.size + nextFree z.after)
    {r : Nat × SmState} (hr : growMn alwaysCommit s z size = some r) : Held r.2 := by
  rw [growMn_eq alwaysCommit hinv.wf hlist hused hnext hlt hfit,
    if_pos (granted_alwaysCommit _ _ _)] at hr
  split at hr
  · simp at hr
  cases hr
  have hb := focus_bounds (hlist ▸ hinv.wf.tiles)
  have hend := hinv.wf.range.le
  obtain ⟨hcom, hnew⟩ := held_committed (z.focus.memArea + z.focus.size) (size - z.focus.size) h
    (by omega) (by omega)
  have hpages := hcom.pages
  rw [committed_mp, ← hlist] at hpages
  obtain ⟨hbefore, hfocus, hafter⟩ := pagesHeld_toList.mp hpages
  have hblock := (hfocus hused).append hnew hb.2.1
  rw [Nat.add_sub_cancel' hlt.le] at hblock
  have hcleared := held_cleared (z.focus.memArea + z.focus.size) (size - z.focus.size)
    (hcom.setAvail (s.mp.avail - (size - z.focus.size)))
  refine hcleared.setNodes ?_
  have hmono := pagesHeld_takenNodes hbefore hafter hblock
  intro mn hmn
  exact rangeHeld_cleared (hmono mn hmn)

/-- The commits of a move hold the block at its new place. -/
theorem moveCommitNext_held {before next : List MemNode} {pmn mn : MemNode} (h : Held s)
    (hinv : PoolInv lo hi s) (hlist : Zipper.toList ⟨pmn :: before, mn, next⟩ = s.mp.nodes)
    (hused : mn.used = true) (hfit : size ≤ pmn.size + mn.size + nextFree next) :
    Held (moveCommitNext s pmn mn size) ∧
      RangeHeld (moveCommitNext s pmn mn size).log pmn.memArea size := by
  have htiles := hinv.wf.tiles
  rw [← hlist] at htiles
  have hb := focus_bounds htiles
  rw [Zipper.toList_cons_before] at htiles
  obtain ⟨-, -, hppos, hmlo, hmpos, -⟩ := tiles_focus htiles
  have hend := hinv.wf.range.le
  simp only at hb hppos hmlo hmpos
  have hmn : RangeHeld s.log mn.memArea mn.size := by
    have hpages := h.pages
    rw [← hlist] at hpages
    exact (pagesHeld_toList.mp hpages).2.1 hused
  obtain ⟨hcom, hfirst⟩ := held_committed pmn.memArea (min size pmn.size) h (by omega) (by omega)
  have hmn' : RangeHeld (committed s pmn.memArea (min size pmn.size)).log
      (pmn.memArea + pmn.size) mn.size := hmlo ▸ rangeHeld_committed h hmn
  unfold moveCommitNext
  split
  · rename_i hup
    have hmin : min size pmn.size = pmn.size := by omega
    have hheld : Held (moveCommit s pmn size) := hcom.setAvail _
    obtain ⟨hcom', hlast⟩ := held_committed (mn.memArea + mn.size) (size - pmn.size - mn.size)
      hheld (by omega) (by omega)
    refine ⟨hcom'.setAvail _, ?_⟩
    rw [hmin] at hfirst hmn'
    have hfirst' : RangeHeld (moveCommit s pmn size).log pmn.memArea pmn.size := by
      rw [moveCommit, hmin]
      exact hfirst
    have hmid' : RangeHeld (moveCommit s pmn size).log (pmn.memArea + pmn.size) mn.size := by
      rw [moveCommit, hmin]
      exact hmn'
    have hmeet : mn.memArea + mn.size = pmn.memArea + (pmn.size + mn.size) := by omega
    rw [hmeet] at hlast ⊢
    have hjoin := ((rangeHeld_committed hheld hfirst').append (rangeHeld_committed hheld hmid')
      hppos).append hlast (by omega)
    have hlen : pmn.size + mn.size + (size - pmn.size - mn.size) = size := by omega
    rw [hlen] at hjoin
    exact hjoin
  · rename_i hup
    refine ⟨hcom.setAvail _, ?_⟩
    by_cases hsmall : size ≤ pmn.size
    · rw [min_eq_left hsmall] at hfirst
      rw [moveCommit, min_eq_left hsmall]
      exact hfirst
    · have hmin : min size pmn.size = pmn.size := by omega
      rw [hmin] at hfirst hmn'
      have hjoin := hfirst.append (hmn'.sub le_rfl
        (show _ + (size - pmn.size) ≤ _ by omega)) hppos
      have hlen : pmn.size + (size - pmn.size) = size := by omega
      rw [hlen] at hjoin
      rw [moveCommit, hmin]
      exact hjoin

/-- Moving a block down, given that the rest reaches a page boundary. -/
theorem held_moveToPrev {before next : List MemNode} {pmn mn : MemNode} (h : Held s)
    (hinv : PoolInv lo hi s) (hlist : Zipper.toList ⟨pmn :: before, mn, next⟩ = s.mp.nodes)
    (hpfree : pmn.used = false) (hused : mn.used = true) (hlt : mn.size < size)
    (hfit : size ≤ pmn.size + mn.size + nextFree next)
    (hreach : pmn.size + mn.size + nextFree next - size ≠ 0 →
      ReachesPage (pmn.memArea + size) (pmn.size + mn.size + nextFree next - size))
    {r : Option MemNode × SmState}
    (hr : moveToPrev alwaysCommit s before pmn mn next size = some r) : Held r.2 := by
  rw [moveToPrev_eq alwaysCommit hinv.wf hlist hpfree hused hlt hfit] at hr
  simp only [granted_alwaysCommit, Bool.true_eq_false, if_false, and_false] at hr
  split at hr
  · cases hr
    obtain ⟨hcom, hblock⟩ := moveCommitNext_held h hinv hlist hused hfit
    have hnodes : (moveCommitNext s pmn mn size).mp.nodes = s.mp.nodes := by
      simp only [moveCommitNext, moveCommit]
      split <;> simp
    have hpages := hcom.pages
    rw [hnodes, ← hlist] at hpages
    obtain ⟨hbefore, -, hafter⟩ := pagesHeld_toList.mp hpages
    have htaken : PagesHeld (moveCommitNext s pmn mn size).log
        (takenNodes (widened before pmn mn next) size) := by
      refine pagesHeld_takenNodes (fun m hm => hbefore m ?_) hafter hblock
      simpa [widened, hpfree] using hm
    have hmoved : Held (movedState s (moveCommitNext s pmn mn size) before pmn mn next size) := by
      refine ⟨?_, ?_⟩
      · exact ((safePool_cleared _ _ ((hcom.toSafePool.setNodes _).emit_quiet rfl)).setAvail
          _).setNodes _
      · intro m hm
        exact rangeHeld_cleared ((htaken m hm).mono (by simp))
    have htiles := hinv.wf.tiles
    rw [← hlist] at htiles
    unfold uncommitRest
    split
    · exact hmoved
    · rename_i hrest
      exact held_smUncommit
        ⟨pmn.size + mn.size + nextFree next - size, false, pmn.memArea + size⟩ hmoved
        (tiles_takenNodes (tiles_widened htiles) (by omega) hfit) hinv.wf.range.le
        (by simp [movedState, takenNodes, widened, freeArea, hrest]) rfl (hreach hrest)
  · simp at hr

/-- Copying a block elsewhere, given that the area it leaves reaches a page
boundary. -/
theorem held_relocate {mn : MemNode} (h : Held s) (hinv : PoolInv lo hi s) (hsize : size ≠ 0)
    (hlt : size < 2 ^ 64)
    (hreach : ∀ area ∈ relocateAreas s.mp.nodes mn.memArea size, ReachesPage area.1 area.2)
    {r : Option MemNode × SmState} (hr : relocate alwaysCommit s mn size = some r) :
    Held r.2 := by
  obtain ⟨u, hu, heq⟩ := smAllocMn_eq alwaysCommit hinv.wf hsize hlt
  have hfits := fun p hp =>
    (alignedPlacement_fits (p := p) (k := 0) rfl (alignedNoWrap_one s.mp.nodes hlt) hp).1
  have hpos := Nat.pos_of_ne_zero hsize
  simp only [relocate, heq, Option.bind_eq_bind, Option.bind_some] at hr
  cases hplace : alignedPlacement s.mp.nodes 1 size with
  | none =>
      simp only [hplace, placeOrReport, doSmerror_oomPr, Option.bind_some] at hr
      cases hr
      exact (h.reported hu).reported (reported_dump _ _ _)
  | some p =>
      have hchosen := (hfits p hplace).chosen hinv.wf.tiles hpos
      have hheld := held_placeBlock h hinv hchosen
      have hinv' := (placeBlock_inv alwaysCommit hinv hpos hchosen).1
      simp only [hplace, placeOrReport] at hr
      have hnodes : (placeBlock alwaysCommit s p.cursor size).2.mp.nodes =
          takenNodes p.cursor size := by
        simp [placeBlock]
      have hfst : (placeBlock alwaysCommit s p.cursor size).1 =
          some ⟨size, true, p.cursor.focus.memArea⟩ := by
        simp [placeBlock]
      rw [← Prod.mk.eta (p := placeBlock alwaysCommit s p.cursor size), hfst] at hr
      obtain ⟨⟨ret, v⟩, hfree, hv⟩ := Option.bind_eq_some_iff.mp hr
      cases hv
      refine held_smfree (hheld.emit_quiet rfl)
        (hinv'.congr rfl (by simp [SmEvent.isRefusal])) ?_ hfree
      intro area harea
      refine hreach area ?_
      rw [SmState.emit_mp, hnodes] at harea
      simpa [relocateAreas, hplace] using harea

/-- Moving or copying a block that cannot grow in place. -/
theorem held_smReallocAllocMn (h : Held s) (hinv : PoolInv lo hi s)
    (hlist : z.toList = s.mp.nodes) (hused : z.focus.used = true) (hlt : z.focus.size < size)
    (hbound : size < 2 ^ 64) (hover : ¬size ≤ z.focus.size + nextFree z.after)
    (hreach : ∀ area ∈ resizeAreas s.mp.nodes z size, ReachesPage area.1 area.2)
    {r : Option MemNode × SmState} (hr : smReallocAllocMn alwaysCommit s z size = some r) :
    Held r.2 := by
  obtain ⟨before, mn, next⟩ := z
  simp only at hused hlt hover
  have hsize : size ≠ 0 := by omega
  have hshrink : ¬size < mn.size := by omega
  simp only [resizeAreas, hsize, hshrink, hover, if_false] at hreach
  cases before with
  | nil => exact held_relocate h hinv hsize hbound hreach hr
  | cons pmn before =>
      have htiles := hinv.wf.tiles
      rw [← hlist, Zipper.toList_cons_before] at htiles
      obtain ⟨-, -, -, -, -, hnext⟩ := tiles_focus htiles
      have hle := PoolTiles.nextFree_le hnext
      have hend := hinv.wf.range.le
      simp only at hle hreach
      have hsum : uwrap 64 ((pmn.size : Int) + mn.size + nextFree next) =
          pmn.size + mn.size + nextFree next := by
        rw [← Nat.cast_add]
        exact uwrap_add (by omega)
      simp only [smReallocAllocMn, hsum, Bool.and_eq_true, Bool.not_eq_true',
        decide_eq_true_eq] at hr
      split at hr
      · rename_i hcond
        rw [if_pos hcond] at hreach
        refine held_moveToPrev h hinv hlist hcond.1 hused hlt hcond.2 (fun hrest => ?_) hr
        rw [if_neg hrest] at hreach
        exact hreach (pmn.memArea + size, pmn.size + mn.size + nextFree next - size) (by simp)
      · rename_i hcond
        rw [if_neg hcond] at hreach
        exact held_relocate h hinv hsize hbound hreach hr

/-- Resizing a block, given that every area it leaves reaches a page boundary. -/
theorem held_smrealloc (h : Held s) (hinv : PoolInv lo hi s) (hptr : ptr ≠ 0)
    (hbound : size < 2 ^ 64)
    (hreach : ∀ z ∈ blockAt s.mp.nodes ptr, z.focus.used = true →
      ∀ area ∈ resizeAreas s.mp.nodes z size, ReachesPage area.1 area.2)
    {r : Nat × SmState} (hr : smrealloc alwaysCommit s ptr size = some r) : Held r.2 := by
  unfold smrealloc at hr
  simp only [hptr, if_false] at hr
  have hfound := held_findMn h ptr
  cases hfind : findMn s ptr with
  | mk t found =>
      rw [hfind] at hfound hr
      cases found with
      | none =>
          cases hr
          exact hfound.reported (reported_smerror t _)
      | some z =>
          obtain ⟨rfl, hlist, hfocus⟩ := findMn_eq_some hfind
          have hb := focus_bounds (hlist ▸ hinv.wf.tiles)
          have hend := hinv.wf.range.le
          cases hused : z.focus.used
          · simp only [hused, Bool.not_false, if_true] at hr
            cases hr
            exact h.reported (reported_smerror _ _)
          have hareas := hreach z (blockAt_of_findMn hfind) hused
          simp only [hused, Bool.not_true, Bool.false_eq_true, if_false] at hr
          split at hr
          · rename_i hzero
            obtain ⟨v, hfree, hv⟩ := Option.bind_eq_some_iff.mp hr
            cases hv
            refine held_smfree h hinv ?_ hfree
            intro area harea
            refine hareas area ?_
            simpa [resizeAreas, hzero, freedAt, blockAt_of_findMn hfind, hused] using harea
          rename_i hsize
          split at hr
          · cases hr
            exact h
          rename_i hne
          split at hr
          · rename_i hlt
            refine held_shrinkMn h hinv hlist hused (Nat.pos_of_ne_zero hsize) hlt ?_ hr
            refine hareas (z.focus.memArea + size, z.focus.size + nextFree z.after - size) ?_
            simp [resizeAreas, hsize, hlt]
          rename_i hge
          have hlt : z.focus.size < size := by omega
          split at hr
          · rename_i hgrow
            obtain ⟨hnext, hfit⟩ := hgrow
            rw [uwrap_add (by omega)] at hfit
            exact held_growMn h hinv hlist hused hnext hlt hfit hr
          · rename_i hgrow
            have hover : ¬size ≤ z.focus.size + nextFree z.after := by
              intro hfit
              rw [uwrap_add (by omega)] at hgrow
              cases hnext : nextUsed z.after
              · exact hgrow ⟨hnext, hfit⟩
              · rw [nextFree_of_nextUsed hnext] at hfit
                omega
            obtain ⟨⟨new, u⟩, hmove, hret⟩ := Option.bind_eq_some_iff.mp hr
            have hlast : u = r.2 := by
              cases new with
              | none =>
                  cases hret
                  rfl
              | some m =>
                  simp only [Option.bind_eq_bind] at hret
                  obtain ⟨-, -, hlast⟩ := Option.bind_eq_some_iff.mp hret
                  cases hlast
                  rfl
            rw [← hlast]
            exact held_smReallocAllocMn h hinv hlist hused hlt hbound hover hareas hmove

/-- The block that `smfree_all` picks leaves an area that starts with the pool. -/
theorem freedAt_pickMn {nodes : List MemNode} {mn : MemNode} (htiles : PoolTiles lo nodes hi)
    (hpick : pickMn nodes = some mn) : ∀ area ∈ freedAt nodes mn.memArea, area.1 = lo := by
  intro area harea
  unfold freedAt at harea
  split at harea
  · simp at harea
  · rename_i z hblock
    have hlist : z.toList = nodes := Zipper.scan_toList hblock
    have hfocus : z.focus.memArea = mn.memArea := by simpa using Zipper.scan_hit hblock
    split at harea
    · rw [List.mem_singleton.mp harea]
      have hz : PoolTiles lo z.toList hi := hlist ▸ htiles
      have hbefore := (tiles_focus hz).1
      rw [hfocus] at hbefore
      simp only [merged, hfocus]
      cases nodes with
      | nil => simp [pickMn] at hpick
      | cons head rest =>
          obtain ⟨hlo, hpos, hrest⟩ := htiles
          simp only [pickMn] at hpick
          split at hpick
          · cases hpick
            rw [hlo] at hbefore ⊢
            have hnil : z.before = [] := by simpa using hbefore.eq_nil
            simp [hnil]
          · rename_i hfree
            cases rest with
            | nil => simp at hpick
            | cons second rest =>
                simp only [List.head?_cons, Option.some.injEq] at hpick
                subst hpick
                rw [hrest.1] at hbefore ⊢
                have hrev : z.before.reverse = [head] := by
                  have hsplit : z.before.reverse ++ z.focus :: z.after =
                      head :: second :: rest := hlist
                  cases hb : z.before.reverse with
                  | nil =>
                      rw [hb] at hbefore
                      have heq : lo = lo + head.size := hbefore
                      omega
                  | cons x xs =>
                      rw [hb, List.cons_append, List.cons.injEq] at hsplit
                      rw [hb, hsplit.1] at hbefore
                      rw [hsplit.1, hbefore.2.2.eq_nil]
                have hone : z.before = [head] := by simpa using hrev
                simp only [Bool.not_eq_true] at hfree
                simp [hone, hfree]
    · simp at harea

/-- Freeing everything in a pool that starts on a page boundary. -/
theorem held_smfreeAllLoop (n : Nat) (h : Held s) (hinv : PoolInv lo hi s) (hlo : 4096 ∣ lo)
    {t : SmState} (ht : smfreeAllLoop n s = some t) : Held t := by
  induction n generalizing s with
  | zero =>
      simp only [smfreeAllLoop] at ht
      split at ht
      · simp at ht
      · cases ht
        exact h
  | succ n ih =>
      simp only [smfreeAllLoop] at ht
      split at ht
      · cases ht
        exact h
      · obtain ⟨mn, hpick, hrest⟩ := Option.bind_eq_some_iff.mp ht
        obtain ⟨-, -, hrest⟩ := Option.bind_eq_some_iff.mp hrest
        obtain ⟨r, hfree, hloop⟩ := Option.bind_eq_some_iff.mp hrest
        refine ih (held_smfree h hinv ?_ hfree) ((smfree_outcome hinv _).post hfree).1 hloop
        intro area harea
        rw [freedAt_pickMn hinv.wf.tiles hpick area harea]
        obtain ⟨k, rfl⟩ := hlo
        simp [ReachesPage, pageGap]

theorem held_smfreeAll (h : Held s) (hinv : PoolInv lo hi s) (hlo : 4096 ∣ lo) {t : SmState}
    (ht : smfreeAll s = some t) : Held t := by
  obtain ⟨u, hloop, hrest⟩ := Option.bind_eq_some_iff.mp ht
  obtain ⟨-, -, hlast⟩ := Option.bind_eq_some_iff.mp hrest
  cases hlast
  exact held_smfreeAllLoop _ h hinv hlo hloop

end Ops

/-! ## Requests that abort -/

/-- The alignment of a call is a power of two. -/
def AlignPow2 : SmCall → Prop
  | .smallocAligned align _ | .smallocAlignedTopdown _ align _ => ∃ k, align.toNat = 2 ^ k
  | _ => True

section Abort

variable {lo hi ptr align size : Nat} {s : SmState} {z : Zipper MemNode}

/-- A pool with a used node counts as used. -/
theorem poolUsed_of_mem {nodes : List MemNode} {mn : MemNode} (hmem : mn ∈ usedNodes nodes) :
    poolUsed nodes = true := by
  obtain ⟨hm, hu⟩ := mem_usedNodes.mp hmem
  cases nodes with
  | nil => simp at hm
  | cons head rest =>
      rcases List.mem_cons.mp hm with rfl | hm
      · simp [poolUsed, hu]
      · have hne : rest ≠ [] := List.ne_nil_of_mem hm
        simp [poolUsed, hne]

/-- Skipping a prefix that leaves too little room aborts when no free area
follows. -/
theorem skipFront_eq_none (size : Nat) {delta : Nat} (hr : PoolRange lo hi)
    (h : PoolTiles lo z.toList hi) (hnext : nextUsed z.after = true) (hpos : 0 < delta) (hdelta : delta < 2 ^ 31)
    (hover : z.focus.size < delta + size) : skipFront z delta size = none := by
  have hb := focus_bounds h
  have hend := hr.le
  have hsmall := hr.small
  rcases lt_trichotomy delta z.focus.size with hlt | heq | hgt
  · rw [skipFront, mntruncate_of_nextUsed rfl (by omega) (by omega) hnext hlt,
      freeArea_of_pos _ (by omega)]
    have hno : ¬size ≤ z.focus.size - delta := by omega
    simp [cAssert, hno]
  · have hzero : swrap 32 0 = 0 := by decide +kernel
    subst heq
    cases hafter : z.after with
    | nil => simp [skipFront, mntruncate, hafter, hzero]
    | cons nmn rest =>
        rw [hafter] at hnext
        have hused : nmn.used = true := hnext
        simp [skipFront, mntruncate, hafter, hzero, hused, cAssert]
  · have hno : ¬delta < z.focus.size := by omega
    have hne : ¬((z.focus.size : Int) - delta = 0) := by omega
    have hval : swrap 32 ((z.focus.size : Int) - delta) = (z.focus.size : Int) - delta :=
      swrap_of_range (by norm_num) (by omega) (by omega)
    cases hafter : z.after with
    | nil => simp [skipFront, mntruncate, hafter, hval, hne, hno, cAssert]
    | cons nmn rest =>
        rw [hafter] at hnext
        have hused : nmn.used = true := hnext
        simp [skipFront, mntruncate, hafter, hval, hne, hno, hused, cAssert]

/-- `find_mn_at` finds a given node by any of its addresses. -/
theorem findMnAt_of_mem {nodes : List MemNode} {mn : MemNode} (htiles : PoolTiles lo nodes hi)
    (hmem : mn ∈ nodes) (hle : mn.memArea ≤ ptr) (hlt : ptr < mn.memArea + mn.size) :
    ∃ z, findMnAt nodes ptr = some z ∧ z.focus = mn ∧ z.toList = nodes := by
  obtain ⟨passed, after, hnodes⟩ := List.append_of_mem hmem
  have hpassed : ∀ y ∈ passed, decide (ptr < y.memArea) = false ∧
      decide (ptr < y.memArea + y.size) = false := by
    intro y hy
    have hpair := htiles.pairwise_end_le
    rw [hnodes, List.pairwise_append] at hpair
    have hend := hpair.2.2 y hy mn List.mem_cons_self
    simp only [decide_eq_false_iff_not]
    omega
  refine ⟨⟨passed.reverse, mn, after⟩, ?_, rfl, by simp [hnodes]⟩
  rw [findMnAt, hnodes, Zipper.scan_of_split hpassed (by simp; omega) (by simp; omega)]
  simp

/-- A request at a fixed address that wraps the size test aborts. -/
theorem smAllocFixed_eq_none (com : CommitFn) (hwf : WellFormed lo hi s.mp)
    (hpairs : NoFreePairs s.mp.nodes) (hbound : size < 2 ^ 64)
    (hwrap : ¬FixedNoWrap s.mp.nodes ptr size) : smAllocFixed com s ptr size = none := by
  unfold FixedNoWrap at hwrap
  push Not at hwrap
  obtain ⟨mn, hmem, hfree, hle, hlt, hfit, hover⟩ := hwrap
  obtain ⟨z, hfind, rfl, hlist⟩ := findMnAt_of_mem hwf.tiles hmem hle hlt
  have htiles : PoolTiles lo z.toList hi := hlist ▸ hwf.tiles
  have hb := focus_bounds htiles
  have hend := hwf.range.le
  have hsmall := hwf.range.small
  rw [← hlist] at hpairs
  obtain ⟨-, -, hnext, -⟩ := noFreePairs_around hpairs hfree
  have hdelta : ptr - z.focus.memArea ≠ 0 := by
    intro hzero
    rw [hzero] at hfit hover
    simp only [Nat.cast_zero, add_zero] at hfit hover
    rw [uwrap_natCast hbound] at hfit
    omega
  have hsize : size ≠ 0 := by omega
  have hptr : ptr ≠ 0 := by omega
  have hskip := skipFront_eq_none size hwf.range htiles hnext
    (Nat.pos_of_ne_zero hdelta) (by omega) (by omega)
  have hover' : ¬z.focus.size < uwrap 64 (size + (ptr - z.focus.memArea : Nat)) := by omega
  have hval : uwrap 32 ((ptr : Int) - z.focus.memArea) = ptr - z.focus.memArea :=
    uwrap_sub hle (by omega)
  simp [smAllocFixed, hsize, hptr, hfind, hfree, hval, hover', hdelta, hskip]

/-- An aligned request that wraps the size test aborts. -/
theorem smAllocAligned_eq_none (com : CommitFn) {k : Nat} (hwf : WellFormed lo hi s.mp)
    (hpairs : NoFreePairs s.mp.nodes) (hbound : size < 2 ^ 64) (halign : align = 2 ^ k)
    (hk : k < 32) (hwrap : ¬AlignedNoWrap s.mp.nodes align size) :
    smAllocAligned com s align size = none := by
  unfold AlignedNoWrap at hwrap
  push Not at hwrap
  obtain ⟨mn, hmem, hfree, hfit, hover⟩ := hwrap
  have hb := hwf.tiles.mem_bounds mn hmem
  have hend := hwf.range.le
  have hsmall := hwf.range.small
  have hpow : 2 ^ k ≤ 2 ^ 31 := Nat.pow_le_pow_right (by norm_num) (by omega)
  -- the sum wrapped, so the size alone exceeds every area
  have hhuge : 2 ^ 64 - 2 ^ 31 ≤ size := by
    by_contra hlt
    have hpad : alignPad mn.memArea (align - 1) < 2 ^ k := by
      rw [halign]
      exact alignPad_lt mn.memArea k
    rw [uwrap_add (by omega)] at hfit
    omega
  have hsome : smfindFreeArea s.mp.nodes (align - 1) size ≠ none := by
    intro hnone
    have := Zipper.scan_eq_none_iff.mp hnone mn hmem
    simp [hfree, hfit] at this
  obtain ⟨z, hfind⟩ := Option.ne_none_iff_exists'.mp hsome
  obtain ⟨hlist, hzfree, hzfit⟩ := smfindFreeArea_eq_some hfind
  have htiles : PoolTiles lo z.toList hi := hlist ▸ hwf.tiles
  have hzb := focus_bounds htiles
  rw [← hlist] at hpairs
  obtain ⟨-, -, hnext, -⟩ := noFreePairs_around hpairs hzfree
  have hpad : alignPad z.focus.memArea (align - 1) < 2 ^ k := by
    rw [halign]
    exact alignPad_lt z.focus.memArea k
  have hdelta : alignPad z.focus.memArea (align - 1) ≠ 0 := by
    intro hzero
    rw [hzero] at hzfit
    simp only [Nat.cast_zero, add_zero] at hzfit
    rw [uwrap_natCast hbound] at hzfit
    omega
  have hsize : size ≠ 0 := by omega
  have hskip := skipFront_eq_none size hwf.range htiles hnext
    (Nat.pos_of_ne_zero hdelta) (by omega) (by omega)
  have hpop : popcount 32 align = 1 := by rw [halign]; exact popcount_two_pow hk
  have hcast : uwrap 64 (alignPad z.focus.memArea (align - 1) : Nat) =
      alignPad z.focus.memArea (align - 1) := uwrap_natCast (by omega)
  have hval := swrap_natCast (w := 32) (n := alignPad z.focus.memArea (align - 1)) (by norm_num)
    (by omega)
  simp [smAllocAligned, hsize, cAssert, hpop, hfind, hval, hdelta, hcast, hskip]

/-- A block at the top of the address space keeps `smfree_all` from ending. -/
theorem smfreeAllLoop_eq_none (n : Nat) (hinv : PoolInv lo hi s) (hf : s.failed = false)
    {mn : MemNode} (hmem : mn ∈ usedNodes s.mp.nodes) (hbad : mn.memArea = badAddr) :
    smfreeAllLoop n s = none := by
  induction n generalizing s with
  | zero => simp [smfreeAllLoop, poolUsed_of_mem hmem]
  | succ n ih =>
      have hpool := poolUsed_of_mem hmem
      obtain ⟨p, hpick, hused⟩ := pickMn_used (hinv.pairs hf) hpool
      simp only [smfreeAllLoop, hpool, Bool.not_true, Bool.false_eq_true, if_false, hpick,
        Option.bind_eq_bind, Option.bind_some, cAssert_bind hused]
      by_cases hpbad : p.memArea = badAddr
      · simp only [smfree, hpbad, if_true, Option.pure_def, Option.bind_some]
        exact ih hinv hf hmem
      · have hpmem := mem_of_pickMn hpick
        obtain ⟨z, hlist, hfocus, hfree⟩ := smfree_used hinv hf hpmem hused hpbad
        have hpost := (smfree_outcome hinv p.memArea).post hfree
        rw [hfree, Option.bind_some]
        have hkept : mn ∈ usedNodes (merged z).toList := by
          rw [usedNodes_merged]
          rw [← hlist, usedNodes_toList, hfocus, hused] at hmem
          simp only [if_true, List.mem_append, List.mem_singleton] at hmem ⊢
          rcases hmem with hmem | rfl | hmem
          · exact Or.inl hmem
          · exact (hpbad hbad).elim
          · exact Or.inr hmem
        exact ih hpost.1 (hpost.2.trans hf) (by simpa using hkept)

/-- A call that places a block aborts when the code cannot handle its arguments. -/
theorem call_places_eq_none (com : CommitFn) {c : SmCall} (hwf : WellFormed lo hi s.mp)
    (hpairs : NoFreePairs s.mp.nodes) (hpow : AlignPow2 c) (hp : c.places = true)
    (hok : ¬CallOk s c) : call com s c = none := by
  have hpop : ∀ {a : UInt64}, (∃ k, a.toNat = 2 ^ k) → 2 ^ 32 ≤ a.toNat →
      popcount 32 a.toNat = 0 := by
    rintro a ⟨k, hk⟩ hge
    refine popcount_of_dvd ?_
    rw [hk] at hge ⊢
    exact pow_dvd_pow 2 ((Nat.pow_le_pow_iff_right (by norm_num)).mp hge)
  cases c with
  | smallocFixed ptr size =>
      simp [call, smallocFixed, smAllocFixed_eq_none com hwf hpairs size.toNat_lt hok]
  | smallocAligned align size =>
      obtain ⟨k, hk⟩ := hpow
      by_cases hbig : size.toNat ≠ 0 ∧ 2 ^ 32 ≤ align.toNat
      · simp [call, smallocAligned, smAllocAligned, hbig.1, hpop ⟨k, hk⟩ hbig.2, cAssert]
      · have hwrap : ¬AlignedNoWrap s.mp.nodes align.toNat size.toNat := by
          intro hw
          exact hok ⟨⟨k, hk⟩, fun hne => by by_contra hge; exact hbig ⟨hne, by omega⟩, hw⟩
        by_cases hsize : size.toNat = 0
        · -- the padding alone never wraps
          refine (hwrap fun mn _ _ hfit => ?_).elim
          have hpad : alignPad mn.memArea (align.toNat - 1) < 2 ^ k := by
            rw [hk]
            exact alignPad_lt mn.memArea k
          have hlt := align.toNat_lt
          rw [hsize, uwrap_add (by omega)] at hfit
          rw [hsize]
          exact hfit
        · have hk32 : k < 32 := exponent_lt hk (by by_contra hge; exact hbig ⟨hsize, by omega⟩)
          simp [call, smallocAligned,
            smAllocAligned_eq_none com hwf hpairs size.toNat_lt hk hk32 hwrap]
  | smallocAlignedTopdown top align size =>
      obtain ⟨k, hk⟩ := hpow
      have hbig : size.toNat ≠ 0 ∧ 2 ^ 32 ≤ align.toNat := by
        by_contra hno
        exact hok ⟨⟨k, hk⟩, fun hne => by by_contra hge; exact hno ⟨hne, by omega⟩⟩
      simp [call, smallocAlignedTopdown, smAllocAlignedTopdown, hbig.1,
        hpop ⟨k, hk⟩ hbig.2, cAssert]
  | smfreeAll => simp [SmCall.places] at hp
  | smalloc | smallocTopdown | smfree | smrealloc => exact (hok trivial).elim

/-- A call whose arguments the code cannot handle aborts. -/
theorem step_eq_none (com : CommitFn) {c : SmCall} (hinv : PoolInv lo hi s)
    (hf : s.failed = false) (hpow : AlignPow2 c) (hok : ¬CallOk s c) : step com s c = none := by
  cases c with
  | smallocFixed | smallocAligned | smallocAlignedTopdown =>
      rw [step, call_places_eq_none com hinv.wf (hinv.pairs hf) hpow rfl hok]
      rfl
  | smfreeAll =>
      have htop : ¬NoTopBlock s.mp.nodes := hok
      unfold NoTopBlock at htop
      push Not at htop
      obtain ⟨mn, hmem, hbad⟩ := htop
      simp [step, call, smfreeAll, smfreeAllLoop_eq_none _ hinv hf hmem hbad]
  | smalloc | smallocTopdown | smfree | smrealloc => exact (hok trivial).elim

end Abort

/-! ## Calls and runs -/

section Runs

variable {lo hi : Nat} {s t : SmState}

/-- One call keeps the pages of used blocks committed. -/
theorem step_held {c : SmCall} (h : Held s) (hinv : PoolInv lo hi s) (hlo : 4096 ∣ lo)
    (hpow : AlignPow2 c) (hreach : CallReaches s c) (ht : step alwaysCommit s c = some t) :
    Held t ∧ PoolInv lo hi t := by
  have hok : CallOk s c := by
    by_contra hno
    simp [step_eq_none alwaysCommit hinv h.failed hpow hno] at ht
  refine ⟨?_, (step_outcome alwaysCommit hinv c hok).post ht⟩
  obtain ⟨r, hcall, rfl⟩ := Option.map_eq_some_iff.mp ht
  by_cases hp : c.places = true
  · by_cases hsize : c.size = 0
    · rw [call_eq_zeroSized alwaysCommit s hp hsize] at hcall
      cases hcall
      exact h.reported (reported_smerror s _)
    · obtain ⟨u, hu, heq⟩ := call_eq_placed alwaysCommit hinv.wf hok hp hsize
      rw [heq] at hcall
      cases hcall
      exact held_placeOrReport h hinv (Nat.pos_of_ne_zero hsize) hu fun p hplace =>
        callPlacement_fits hinv.wf hok hsize hplace
  · cases c with
    | smfree ptr => exact held_smfree h hinv hreach hcall
    | smrealloc ptr size =>
        have hptr : ptr.toNat ≠ 0 := by simpa [SmCall.places] using hp
        obtain ⟨v, hv, rfl⟩ := Option.map_eq_some_iff.mp hcall
        refine held_smrealloc h hinv hptr size.toNat_lt ?_ hv
        intro z hz hused area harea
        refine hreach area ?_
        have hz : blockAt s.mp.nodes ptr.toNat = some z := hz
        simpa [callAreas, hptr, hz, hused] using harea
    | smfreeAll =>
        obtain ⟨v, hv, rfl⟩ := Option.map_eq_some_iff.mp hcall
        exact held_smfreeAll h hinv hlo hv
    | smalloc | smallocFixed | smallocAligned | smallocTopdown | smallocAlignedTopdown =>
        simp [SmCall.places] at hp

/-- A new pool on page boundaries. -/
theorem sminitCom_held {start size flags : Nat} (hstart : 4096 ∣ start) (hsize : 4096 ∣ size) :
    Held (sminitCom start size true true flags) := by
  have hnone : ∀ log, PagesHeld log [⟨size, false, start⟩] := by
    intro log mn hmn
    simp [usedNodes] at hmn
  refine ⟨⟨rfl, rfl, ?_⟩, hnone _⟩
  have hempty : SafeLog [] := by
    intro pre e post h
    simp at h
  refine hempty.append ?_
  refine ⟨⟨hstart, hsize, ?_⟩, hnone _, hnone _⟩
  intro x hlo hhi
  exact ⟨⟨size, false, start⟩, by simp [doSminit], rfl, hlo, hhi⟩

/-- Over a run of a pool whose callbacks succeed: every range handed to uncommit
is page aligned and free, and the pages of used nodes are committed, at every
callback and after every call. -/
def CommitSafe (start size flags : Nat) (cs : List SmCall) : Prop :=
  ∀ pre, pre <+: cs → ∀ t,
    Run.run (step alwaysCommit) (sminitCom start size true true flags) pre = some t →
      SafeLog t.log ∧ PagesHeld t.log t.mp.nodes

/-- Commit and uncommit are safe in every run over a pool on page boundaries
whose frees and resizes leave areas that reach a page boundary. -/
theorem commit_safe {start size : Nat} (flags : Nat) (cs : List SmCall) (hpos : 0 < size)
    (hend : start + size ≤ 2 ^ 32) (hsmall : size < 2 ^ 31) (hpow : ∀ c ∈ cs, AlignPow2 c)
    (hstart : 4096 ∣ start) (hsize : 4096 ∣ size)
    (hreach : Run.Admits (step alwaysCommit) CallReaches
      (sminitCom start size true true flags) cs) : CommitSafe start size flags cs := by
  rintro pre ⟨post, rfl⟩ t hrun
  have hinit := pool_inv (.sminitCom true true flags) hpos hend hsmall
  have hpre : ∀ c ∈ pre, AlignPow2 c := fun c hc => hpow c (List.mem_append_left post hc)
  have hgood := Run.run_invariant (fun s c => AlignPow2 c ∧ CallReaches s c)
    (fun s => Held s ∧ PoolInv start (start + size) s)
    (fun s c u hs hc hu => step_held hs.1 hs.2 hstart hc.1 hc.2 hu)
    ⟨sminitCom_held hstart hsize, hinit⟩
    (Run.admits_and hpre (Run.admits_append.mp hreach).1) hrun
  exact ⟨hgood.1.safe, hgood.1.pages⟩

/-- A block is allocated and freed in a pool of three pages. -/
theorem commit_safe_three_pages :
    CommitSafe 0x1000 0x3000 0 [.smalloc 100, .smfree 0x1000] := by
  refine commit_safe 0 _ (by norm_num) (by norm_num) (by norm_num) (by simp [AlignPow2])
    (by norm_num) (by norm_num) ⟨by simp [CallReaches, callAreas], fun t ht => ⟨?_, ?_⟩⟩
  · have hval : (step alwaysCommit (sminitCom 0x1000 0x3000 true true 0) (.smalloc 100)).map
        (fun u => u.mp.nodes) = some [⟨100, true, 0x1000⟩, ⟨0x2f9c, false, 0x1064⟩] := by
      decide +kernel
    have hnodes : t.mp.nodes = [⟨100, true, 0x1000⟩, ⟨0x2f9c, false, 0x1064⟩] := by
      simpa [ht] using hval
    unfold CallReaches
    rw [hnodes]
    decide +kernel
  · exact fun _ _ => trivial

/-- Freeing a block that shares its page with its neighbours uncommits a range
that wraps around the address space. -/
theorem smfree_uncommits_used_pages :
    ¬CommitSafe 0x1000 0x3000 0
      [.smalloc 16, .smalloc 16, .smalloc 16, .smfree 0x1010] := by
  intro h
  have hval : (Run.run (step alwaysCommit) (sminitCom 0x1000 0x3000 true true 0)
      [.smalloc 16, .smalloc 16, .smalloc 16, .smfree 0x1010]).map (fun t => t.log.getLast?) =
        some (some ⟨.uncommit 0x2000 (2 ^ 64 - 4096), [⟨16, true, 0x1000⟩, ⟨16, false, 0x1010⟩,
          ⟨16, true, 0x1020⟩, ⟨0x2fd0, false, 0x1030⟩]⟩) := by
    decide +kernel
  obtain ⟨t, ht, hlast⟩ := Option.map_eq_some_iff.mp hval
  obtain ⟨pre, hlog⟩ := List.getLast?_eq_some_iff.mp hlast
  obtain ⟨⟨-, -, hfree⟩, -⟩ := (h _ (List.prefix_refl _) t ht).1 pre _ [] hlog
  obtain ⟨mn, hmem, -, hlo, hhi⟩ := hfree 0x4000 (by norm_num) (by norm_num)
  simp only [List.mem_cons, List.not_mem_nil, or_false] at hmem
  rcases hmem with rfl | rfl | rfl | rfl <;> simp at hlo hhi

end Runs

end Smalloc
end Dosemu
