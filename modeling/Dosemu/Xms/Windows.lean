import Dosemu.Xms.Accounting
import Dosemu.Pgalloc.Runs

/-!
# The windows of locked blocks

A locked block is mapped through a window of pages of `pgapool`.  The driver
keeps the window in the handle, from the first lock to the last unlock or the
free of the handle, and the pool keeps only run marks.  The two agree in every
run in which no lock count is driven past the largest `int`.

Main results:

- Theorem `dropWindow_spec`: giving a window back clears exactly its pages.
- Theorem `step_windowInv`: each call with room in the lock count keeps the
  agreement, and only a refused alias ends the program.
- Theorem `lock_windows_iff`: the windows are exact in every state of a run,
  exactly when every lock finds room in the count.
-/

namespace Dosemu
namespace Xms

open Function
open MachineInt
open Pgalloc
open RunMarks
open Run

variable {cfg : Config} {s t : Driver} {r r' : Regs} {env : Env}

/-! ## The invariant -/

/-- The pages of the XMS window. -/
def Config.windowPages (cfg : Config) : Nat :=
  cfg.windowSize / 4096

/-- The window an entry of the handle table holds. -/
def Handle.window (cfg : Config) (e : Handle) : Option Window :=
  if e.dst ≠ 0 then some ⟨(e.dst - cfg.xmsBase) / 4096, pageAlign32 e.size / 4096⟩ else none

/-- The windows of all handles. -/
def windows (cfg : Config) (s : Driver) : Fin numHandles → Option Window :=
  Handle.window cfg ∘ s.handles

/-- An entry has a window exactly while it is locked, and a free entry has
none; a window starts at a page of the XMS window. -/
structure Handle.LockOk (cfg : Config) (e : Handle) : Prop where
  range : e.addr ≠ 0 → 0 ≤ e.lockcount ∧ e.lockcount < 2 ^ 31
  locked : e.addr ≠ 0 → (e.lockcount ≠ 0 ↔ e.dst ≠ 0)
  free : e.addr = 0 → e.dst = 0
  place : e.dst ≠ 0 → ∃ page, e.dst = cfg.xmsBase + page * 4096

/-- The pool records exactly the windows of the handles. -/
structure WindowInv (cfg : Config) (s : Driver) : Prop where
  sized : Sized s.pgapool cfg.windowPages
  holds : Holds (pages s.pgapool) cfg.windowPages (windows cfg s)
  entry : ∀ h, (s.handles h).LockOk cfg

theorem windows_update {i : Fin numHandles} {e : Handle}
    (h : t.handles = update s.handles i e) :
    windows cfg t = update (windows cfg s) i (e.window cfg) := by
  unfold windows
  rw [h, comp_update]

/-- Overwriting an entry, with the pool following its window. -/
theorem WindowInv.replace (h : WindowInv cfg s) {i : Fin numHandles} {e : Handle}
    (hhandles : t.handles = update s.handles i e) (hentry : e.LockOk cfg)
    (hsized : Sized t.pgapool cfg.windowPages)
    (hholds : Holds (pages t.pgapool) cfg.windowPages (update (windows cfg s) i (e.window cfg))) :
    WindowInv cfg t := by
  refine ⟨hsized, by rwa [windows_update hhandles], ?_⟩
  intro j
  rw [hhandles]
  by_cases hji : j = i
  · rw [hji, update_self]
    exact hentry
  · rw [update_of_ne hji]
    exact h.entry j

/-- Overwriting an entry that keeps its window. -/
theorem WindowInv.keepWindow (h : WindowInv cfg s) {i : Fin numHandles} {e : Handle}
    (hhandles : t.handles = update s.handles i e) (hpool : t.pgapool = s.pgapool)
    (hentry : e.LockOk cfg) (hwindow : e.window cfg = (s.handles i).window cfg) :
    WindowInv cfg t := by
  apply h.replace hhandles hentry
  · rw [hpool]
    exact h.sized
  · rw [hpool, hwindow]
    have hself : update (windows cfg s) i ((s.handles i).window cfg) = windows cfg s :=
      update_eq_self i (windows cfg s)
    rw [hself]
    exact h.holds

theorem WindowInv.congr (h : WindowInv cfg s) (hhandles : t.handles = s.handles)
    (hpool : t.pgapool = s.pgapool) : WindowInv cfg t := by
  refine ⟨by rw [hpool]; exact h.sized, ?_, by rw [hhandles]; exact h.entry⟩
  have hwindows : windows cfg t = windows cfg s := by rw [windows, windows, hhandles]
  rw [hwindows, hpool]
  exact h.holds

theorem Config.xmsBase_lt (cfg : Config) : cfg.xmsBase + cfg.windowSize ≤ 2 ^ 31 :=
  cfg.fits

theorem Config.xmsBase_pos (cfg : Config) : 0 < cfg.xmsBase := by
  unfold Config.xmsBase lowmemSize
  omega

/-! ## Giving a window back -/

/-- Unmapping the window of a handle clears exactly its pages. -/
theorem unmapEMB_spec (h : WindowInv cfg s) {i : Fin numHandles} (hdst : (s.handles i).dst ≠ 0) :
    ∃ pool, unmapEMB cfg s.pgapool (s.handles i).dst = some pool ∧
      Sized pool cfg.windowPages ∧
      Holds (pages pool) cfg.windowPages (update (windows cfg s) i none) := by
  obtain ⟨page, hpage⟩ := (h.entry i).place hdst
  have hwindow : windows cfg s i =
      some ⟨page, pageAlign32 (s.handles i).size / 4096⟩ := by
    rw [windows, comp_apply, Handle.window, if_pos hdst, hpage]
    congr 2
    omega
  have hend := (h.holds.marked i _ hwindow).2
  have hlt := cfg.xmsBase_lt
  have hstart : uwrap 32 (((s.handles i).dst : Int) - cfg.xmsBase) / 4096 = page := by
    have hsub : ((s.handles i).dst : Int) - cfg.xmsBase = (page * 4096 : Nat) := by
      rw [hpage]
      push_cast
      ring
    unfold Config.windowPages at hend
    simp only at hend
    rw [hsub, uwrap_natCast (by omega)]
    exact Nat.mul_div_cancel page (by decide)
  obtain ⟨pool, hfree, hsized, hpages⟩ := pgafree_eq h.sized h.holds hwindow
  refine ⟨pool, ?_, hsized, ?_⟩
  · rw [unmapEMB, hstart]
    exact hfree
  · rw [hpages]
    exact h.holds.release hwindow

/-- Freeing an entry gives its window back, if it has one. -/
theorem dropWindow_spec (h : WindowInv cfg s) (i : Fin numHandles) :
    ∃ pool, dropWindow cfg s.pgapool (s.handles i) = some pool ∧
      Sized pool cfg.windowPages ∧
      Holds (pages pool) cfg.windowPages (update (windows cfg s) i none) := by
  unfold dropWindow
  by_cases hdst : (s.handles i).dst = 0
  · refine ⟨s.pgapool, by simp [hdst], h.sized, ?_⟩
    have hnone : windows cfg s i = none := by
      rw [windows, comp_apply, Handle.window, if_neg (by simp [hdst])]
    rw [← hnone, update_eq_self]
    exact h.holds
  · simp only [ne_eq, hdst, not_false_eq_true, if_true]
    exact unmapEMB_spec h hdst

/-- A freed entry has neither a block nor a window. -/
theorem lockOk_of_free {e : Handle} (haddr : e.addr = 0) (hdst : e.dst = 0) : e.LockOk cfg := by
  refine ⟨?_, ?_, fun _ => hdst, ?_⟩
  · intro hlive
    exact absurd haddr hlive
  · intro hlive
    exact absurd haddr hlive
  · intro hne
    exact absurd hdst hne

theorem window_of_dst_zero {e : Handle} (hdst : e.dst = 0) : e.window cfg = none := by
  rw [Handle.window, if_neg (by simp [hdst])]

/-- `do_free_EMB` succeeds and leaves no window behind. -/
theorem doFreeEMB_windowInv (h : WindowInv cfg s) (i : Fin numHandles) :
    ∃ t, doFreeEMB cfg s i = some t ∧ WindowInv cfg t := by
  obtain ⟨pool, hdrop, hsized, hholds⟩ := dropWindow_spec h i
  refine ⟨_, by simp [doFreeEMB, hdrop]; rfl, ?_⟩
  exact h.replace (show _ = _ from rfl) (lockOk_of_free rfl rfl) hsized
    (by rw [window_of_dst_zero rfl]; exact hholds)

/-! ## Locking -/

/-- The lock count of a valid handle has room for one more lock. -/
def CountRoom (s : Driver) (i : Fin numHandles) : Prop :=
  (s.handles i).lockcount < 2 ^ 31 - 1

/-- `map_EMB` finds no room and changes nothing, or marks a window of free
pages for the handle; it ends the program only when the alias is refused. -/
theorem mapEMB_cases (h : WindowInv cfg s) (env : Env) {i : Fin numHandles} (hdst : (s.handles i).dst = 0) :
    mapEMB cfg env s.pgapool (s.handles i).size i = some (0, s.pgapool) ∨
      (env.aliased = false ∧ mapEMB cfg env s.pgapool (s.handles i).size i = none) ∨
      ∃ page pool, mapEMB cfg env s.pgapool (s.handles i).size i =
          some (cfg.xmsBase + page * 4096, pool) ∧
        Sized pool cfg.windowPages ∧
        Holds (pages pool) cfg.windowPages (update (windows cfg s) i
          (some ⟨page, pageAlign32 (s.handles i).size / 4096⟩)) := by
  have hlt := cfg.xmsBase_lt
  unfold mapEMB
  rcases pgaalloc_cases h.sized (pageAlign32 (s.handles i).size / 4096) i with
    ⟨hneg, hsame⟩ | ⟨page, pool, heq, hpos, hend, hfree, hsized, hpages⟩
  · left
    simp only [hneg, if_true, hsame]
  · right
    simp only [heq]
    rw [if_neg (by omega)]
    by_cases hali : env.aliased = true
    · right
      rw [if_pos hali]
      unfold Config.windowPages at hend
      have haddr : uwrap 32 ((cfg.xmsBase : Int) + page * 4096) = cfg.xmsBase + page * 4096 := by
        have := uwrap_add (show cfg.xmsBase + page * 4096 < 2 ^ 32 by omega)
        rwa [Nat.cast_mul] at this
      refine ⟨page, pool, by rw [haddr], hsized, ?_⟩
      rw [hpages]
      have hnone : windows cfg s i = none := window_of_dst_zero hdst
      exact h.holds.reserve hnone hpos hend hfree
    · left
      rw [if_neg hali]
      exact ⟨by simpa using hali, rfl⟩

/-- A lock with room in the count keeps the agreement. -/
theorem lockEMB_outcome (h : WindowInv cfg s) {i : Fin numHandles}
    (hlive : (s.handles i).addr ≠ 0) (hroom : CountRoom s i) :
    Outcome (env.aliased = true) (fun res => WindowInv cfg res.2.1)
      (lockEMB cfg env s i r) := by
  have hentry := h.entry i
  have hrange := hentry.range hlive
  have hcount : swrap 32 ((s.handles i).lockcount + 1) = (s.handles i).lockcount + 1 := by
    unfold CountRoom at hroom
    exact swrap_of_range (by decide) (by omega) (by omega)
  have hbase := cfg.xmsBase_pos
  unfold lockEMB lockAddr
  by_cases hlocked : (s.handles i).lockcount = 0
  · have hdst : (s.handles i).dst = 0 := by
      by_contra hne
      exact (hentry.locked hlive).mpr hne hlocked
    simp only [hlocked, ne_eq, not_true_eq_false, if_false]
    rcases mapEMB_cases h env hdst with heq | ⟨hali, heq⟩ | ⟨page, pool, heq, hsized, hholds⟩
    · simp [heq, h.congr]
    · simp [heq, hali]
    · rw [hlocked] at hcount
      have hne : cfg.xmsBase + page * 4096 ≠ 0 := by omega
      simp only [heq, Option.bind_eq_bind, Option.bind_some, if_pos hne]
      refine h.replace (show _ = _ from rfl) ?_ hsized ?_
      · refine ⟨?_, ?_, ?_, ?_⟩
        · intro _
          simp only [hcount]
          constructor <;> decide
        · intro _
          simp only [hcount]
          exact ⟨fun _ => hne, fun _ => by decide⟩
        · intro hzero
          exact absurd hzero hlive
        · intro _
          exact ⟨page, rfl⟩
      · have hwindow : Handle.window cfg { s.handles i with
            lockcount := swrap 32 (0 + 1), dst := cfg.xmsBase + page * 4096 } =
            some ⟨page, pageAlign32 (s.handles i).size / 4096⟩ := by
          rw [Handle.window, if_pos hne]
          congr 2
          simp only
          omega
        rw [hwindow]
        exact hholds
  · have hdst : (s.handles i).dst ≠ 0 := (hentry.locked hlive).mp hlocked
    simp only [ne_eq, hlocked, not_false_eq_true, if_true, Option.bind_eq_bind, Option.bind_some,
      hdst]
    refine h.keepWindow (show _ = _ from rfl) rfl ⟨?_, ?_, ?_, ?_⟩ rfl
    · intro _
      unfold CountRoom at hroom
      simp only [hcount]
      constructor <;> omega
    · intro _
      simp only [hcount]
      exact ⟨fun _ => hdst, fun _ => by omega⟩
    · intro hzero
      exact absurd hzero hlive
    · intro hne
      exact hentry.place hne

/-- An unlock keeps the agreement; the last one gives the window back. -/
theorem unlockEMB_outcome (h : WindowInv cfg s) {i : Fin numHandles}
    (hlive : (s.handles i).addr ≠ 0) :
    Outcome True (fun res => WindowInv cfg res.2.1) (unlockEMB cfg s i r) := by
  have hentry := h.entry i
  have hrange := hentry.range hlive
  unfold unlockEMB
  by_cases hlocked : (s.handles i).lockcount = 0
  · simp [hlocked, h]
  · have hdst : (s.handles i).dst ≠ 0 := (hentry.locked hlive).mp hlocked
    have hcount : swrap 32 ((s.handles i).lockcount - 1) = (s.handles i).lockcount - 1 :=
      swrap_of_range (by decide) (by omega) (by omega)
    simp only [hlocked, if_false, hcount]
    by_cases hlast : (s.handles i).lockcount - 1 = 0
    · obtain ⟨pool, hunmap, hsized, hholds⟩ := unmapEMB_spec h hdst
      simp only [hlast, if_true, hunmap, Option.bind_eq_bind, Option.bind_some]
      refine h.replace (show _ = _ from rfl) ⟨?_, ?_, ?_, ?_⟩ hsized ?_
      · intro _
        constructor <;> simp
      · intro _
        simp
      · intro hzero
        exact absurd hzero hlive
      · intro hne
        exact absurd rfl hne
      · rw [window_of_dst_zero rfl]
        exact hholds
    · simp only [hlast, if_false]
      refine h.keepWindow (show _ = _ from rfl) rfl ⟨?_, ?_, ?_, ?_⟩ rfl
      · intro _
        constructor <;> simp only <;> omega
      · intro _
        exact ⟨fun _ => hdst, fun _ => hlast⟩
      · intro hzero
        exact absurd hzero hlive
      · intro hne
        exact hentry.place hne

/-! ## The other calls -/

/-- A granted allocation takes an entry without a window. -/
theorem WindowInv.allocated (h : WindowInv cfg s) {i : Fin numHandles} {size addr : Nat}
    (hfree : (s.handles i).addr = 0) (haddr : addr ≠ 0) :
    WindowInv cfg (allocated s i size addr) := by
  have hdst := (h.entry i).free hfree
  refine h.keepWindow (show _ = _ from rfl) rfl ⟨?_, ?_, ?_, ?_⟩ ?_
  · intro _
    constructor <;> simp
  · intro _
    simp [hdst]
  · intro hzero
    exact absurd hzero haddr
  · intro hne
    exact absurd hdst hne
  · simp [Handle.window, hdst]

/-- A granted change of size takes an entry that is not locked. -/
theorem WindowInv.resized (h : WindowInv cfg s) {i : Fin numHandles} {size addr : Nat}
    (hlive : (s.handles i).addr ≠ 0) (hlocked : (s.handles i).lockcount = 0)
    (haddr : addr ≠ 0) : WindowInv cfg (resized s i size addr) := by
  have hentry := h.entry i
  have hdst : (s.handles i).dst = 0 := by
    by_contra hne
    exact (hentry.locked hlive).mpr hne hlocked
  refine h.keepWindow (show _ = _ from rfl) rfl ⟨?_, ?_, ?_, ?_⟩ ?_
  · intro _
    exact hentry.range hlive
  · intro _
    exact hentry.locked hlive
  · intro hzero
    exact absurd hzero haddr
  · intro hne
    exact absurd hdst hne
  · simp [Handle.window, hdst]

/-- The reset loop succeeds and leaves no window of a handle it visits. -/
theorem freeAllEMB_windowInv (h : WindowInv cfg s) (hs : List (Fin numHandles)) :
    ∃ t, freeAllEMB cfg s hs = some t ∧ WindowInv cfg t := by
  induction hs generalizing s with
  | nil => exact ⟨s, rfl, h⟩
  | cons i hs ih =>
      obtain ⟨u, hu, hinv⟩ := doFreeEMB_windowInv h i
      obtain ⟨t, ht, hinvt⟩ := ih hinv
      refine ⟨t, ?_, hinvt⟩
      rw [freeAllEMB, hu, Option.bind_some, ht]

/-- A pool of free pages agrees with a table without windows. -/
theorem windowInv_of_free (hsized : Sized s.pgapool cfg.windowPages)
    (hpages : ∀ j, j < cfg.windowPages → pages s.pgapool j = 0)
    (hfree : ∀ i, (s.handles i).addr = 0 ∧ (s.handles i).dst = 0) : WindowInv cfg s := by
  refine ⟨hsized, ⟨?_, ?_⟩, ?_⟩
  · intro i w hw
    rw [windows, comp_apply, window_of_dst_zero (hfree i).2] at hw
    cases hw
  · intro j hj hne
    exact absurd (hpages j hj) hne
  · intro i
    exact lockOk_of_free (hfree i).1 (hfree i).2

theorem windowInv_xmsInit (cfg : Config) : WindowInv cfg (xmsInit cfg) :=
  windowInv_of_free (sized_pgainit _) (fun j _ => pages_pgainit _ j) fun _ => ⟨rfl, rfl⟩

/-- A reset frees every handle and every page. -/
theorem xmsReset_windowInv (h : WindowInv cfg s) : ∃ t, xmsReset cfg s = some t ∧
    WindowInv cfg t := by
  obtain ⟨u, hu, hinv⟩ := freeAllEMB_windowInv h (List.finRange numHandles)
  obtain ⟨hsized, hpages⟩ := pgareset_spec hinv.sized
  refine ⟨_, by rw [xmsReset, hu]; rfl, windowInv_of_free hsized hpages ?_⟩
  intro i
  have haddr := freeAllEMB_addr hu (Or.inl (List.mem_finRange i))
  exact ⟨haddr, (hinv.entry i).free haddr⟩

/-! ## Steps and runs -/

/-- What a call must meet: a lock of a valid handle finds room in the count. -/
def LockRoom (s : Driver) : XmsCall → Prop
  | .control r _ => s.intdrv = true → XmsFn.ofAh (hiByte r.eax) = some .lock →
      ∀ i, validHandle s (lword r.edx) = some i → CountRoom s i
  | _ => True

/-- The only way for the program to end here: a lock whose alias is refused. -/
def AliasRefused : XmsCall → Prop
  | .control r env => XmsFn.ofAh (hiByte r.eax) = some .lock ∧ env.aliased = false
  | _ => False

/-- One function keeps the agreement, and ends the program only when the alias
of a lock is refused. -/
theorem callFn_outcome (h : WindowInv cfg s) (hdrv : s.intdrv = true) (fn : XmsFn) (env : Env)
    (hroom : fn = .lock → ∀ i, validHandle s (lword r.edx) = some i → CountRoom s i) :
    Outcome (fn = .lock → env.aliased = true) (fun res => WindowInv cfg res.2.1)
      (callFn cfg fn env s r) := by
  cases fn with
  | allocate api =>
      rcases xmsAllocateEMB_cases cfg hdrv api env r with
        ⟨-, err, -, -, heq⟩ | ⟨hgranted, i, r', hfind, -, heq⟩
      · simp [callFn, heq, h]
      · simp only [callFn, heq, Outcome.some_iff]
        exact h.allocated (findFreeHandle_eq_some hfind).2 hgranted.2.2.2
  | free =>
      simp only [callFn, xmsFreeEMB]
      cases hvalid : validHandle s (lword r.edx) with
      | none => simpa using h
      | some i =>
          have hpaid : WindowInv cfg { s with
              totalBytes := swrap 32 (s.totalBytes - pageAlign32 (s.handles i).size) } :=
            h.congr rfl rfl
          obtain ⟨t, ht, hinv⟩ := doFreeEMB_windowInv hpaid i
          simp only [ht, Option.bind_eq_bind, Option.bind_some]
          exact hinv.congr rfl rfl
  | lock =>
      simp only [callFn, xmsLockEMB]
      cases hvalid : validHandle s (lword r.edx) with
      | none => simpa using h
      | some i =>
          have hlive := (validHandle_eq_some.mp hvalid).2
          simp only [if_true]
          exact (lockEMB_outcome h hlive (hroom rfl i hvalid)).weaken fun hali => hali trivial
  | unlock =>
      simp only [callFn, xmsLockEMB]
      cases hvalid : validHandle s (lword r.edx) with
      | none => simpa using h
      | some i =>
          have hlive := (validHandle_eq_some.mp hvalid).2
          exact (unlockEMB_outcome h hlive).weaken fun _ => trivial
  | info api =>
      simp only [callFn, xmsEMBInfo]
      split <;> exact h
  | resize api =>
      cases hvalid : validHandle s (lword r.edx) with
      | none => simp [callFn, xmsReallocEMB, hvalid, h]
      | some i =>
          have hlive := (validHandle_eq_some.mp hvalid).2
          rcases xmsReallocEMB_cases cfg api env hvalid with
            ⟨-, err, -, -, heq⟩ | ⟨-, -, heq⟩ | ⟨hgranted, haddr, -, heq⟩
          · simp [callFn, heq, h]
          · simp [callFn, heq, h]
          · simp only [callFn, heq, Outcome.some_iff]
            exact h.resized hlive hgranted.1 haddr

/-- Each call with room in the lock count keeps the agreement, and only a
refused alias ends the program. -/
theorem step_windowInv (h : WindowInv cfg s) (c : XmsCall) (hroom : LockRoom s c) :
    Outcome (¬AliasRefused c) (WindowInv cfg) (step cfg s c) := by
  cases c with
  | control r env =>
      simp only [step, xmsControl]
      by_cases hdrv : s.intdrv = true
      · rw [if_pos hdrv]
        cases hfn : XmsFn.ofAh (hiByte r.eax) with
        | none => exact h
        | some fn =>
            have hcall := callFn_outcome h hdrv fn env fun hlock =>
              hroom hdrv (by rw [hfn, hlock])
            have hret : Outcome (fn = .lock → env.aliased = true) (WindowInv cfg)
                (((callFn cfg fn env s r).map xmsRet).map Prod.fst) := by
              rw [Option.map_map]
              apply hcall.map
              intro res hres
              rwa [comp_apply, xmsRet_fst]
            apply hret.weaken
            intro hali hlock
            by_contra hne
            exact hali ⟨by rw [hfn, hlock], by simpa using hne⟩
      · rw [if_neg hdrv]
        exact h
  | helperInit =>
      simp only [step, xmsHelperInit, Outcome.some_iff]
      split
      · exact h
      · split
        · exact h
        · exact h.congr rfl rfl
  | localReset => exact h.congr rfl rfl
  | reset =>
      obtain ⟨t, ht, hinv⟩ := xmsReset_windowInv h
      simp only [step, ht]
      exact hinv

/-- What the driver promises about its windows: a live handle is locked exactly
while it has one; the windows lie inside the XMS window and do not overlap; and
the runs of the page pool are the windows, with no other page in use. -/
structure WindowsExact (cfg : Config) (s : Driver) : Prop where
  locked : ∀ h, (s.handles h).addr ≠ 0 → (0 < (s.handles h).lockcount ↔ (s.handles h).dst ≠ 0)
  inside : ∀ h, (s.handles h).dst ≠ 0 → cfg.xmsBase ≤ (s.handles h).dst ∧
    (s.handles h).dst + pageAlign32 (s.handles h).size ≤ cfg.xmsBase + cfg.windowSize
  disjoint : ∀ h h', h ≠ h' → (s.handles h).dst ≠ 0 → (s.handles h').dst ≠ 0 →
    (s.handles h).dst + pageAlign32 (s.handles h).size ≤ (s.handles h').dst ∨
      (s.handles h').dst + pageAlign32 (s.handles h').size ≤ (s.handles h).dst
  runs : ∀ w id, IsRun (pages s.pgapool) cfg.windowPages w id ↔
    ∃ h, h.val = id ∧ (s.handles h).addr ≠ 0 ∧ (s.handles h).dst ≠ 0 ∧
      (s.handles h).dst = cfg.xmsBase + w.start * 4096 ∧
      pageAlign32 (s.handles h).size = w.len * 4096
  covered : ∀ j, j < cfg.windowPages → pages s.pgapool j ≠ 0 →
    ∃ w id, IsRun (pages s.pgapool) cfg.windowPages w id ∧ w.Mem j

/-- The window of a handle, in bytes. -/
theorem WindowInv.window_eq_some (h : WindowInv cfg s) {i : Fin numHandles} {w : Window} :
    windows cfg s i = some w ↔ (s.handles i).addr ≠ 0 ∧ (s.handles i).dst ≠ 0 ∧
      (s.handles i).dst = cfg.xmsBase + w.start * 4096 ∧
      pageAlign32 (s.handles i).size = w.len * 4096 := by
  have hdvd := pageAlign32_dvd (s.handles i).size
  rw [windows, comp_apply, Handle.window]
  by_cases hdst : (s.handles i).dst = 0
  · simp [hdst]
  · have hlive : (s.handles i).addr ≠ 0 := by
      intro hzero
      exact hdst ((h.entry i).free hzero)
    obtain ⟨page, hpage⟩ := (h.entry i).place hdst
    rw [if_pos hdst, Option.some.injEq]
    constructor
    · intro hw
      have hstart : w.start = page := by
        rw [← hw, hpage]
        simp only
        omega
      have hlen : w.len * 4096 = pageAlign32 (s.handles i).size := by
        rw [← hw]
        exact Nat.div_mul_cancel hdvd
      exact ⟨hlive, hdst, by rw [hstart, hpage], hlen.symm⟩
    · rintro ⟨-, -, hstart, hlen⟩
      cases w with
      | mk start len =>
          simp only at hstart hlen
          have hfirst : (cfg.xmsBase + start * 4096 - cfg.xmsBase) / 4096 = start := by omega
          rw [hlen, hstart, hfirst, Nat.mul_div_cancel len (show 0 < 4096 by decide)]

/-- The agreement of pool and handles gives what the driver promises. -/
theorem WindowInv.exact (h : WindowInv cfg s) : WindowsExact cfg s := by
  have hsome : ∀ i, (s.handles i).dst ≠ 0 → ∃ w, windows cfg s i = some w := by
    intro i hdst
    exact ⟨_, by rw [windows, comp_apply, Handle.window, if_pos hdst]⟩
  constructor
  · intro i hlive
    have hrange := (h.entry i).range hlive
    rw [← (h.entry i).locked hlive]
    constructor
    · intro hpos
      exact hpos.ne'
    · intro hne
      exact lt_of_le_of_ne hrange.1 (Ne.symm hne)
  · intro i hdst
    obtain ⟨w, hw⟩ := hsome i hdst
    have hend := (h.holds.marked i w hw).2
    obtain ⟨-, -, hstart, hlen⟩ := h.window_eq_some.mp hw
    unfold Config.windowPages at hend
    constructor <;> omega
  · intro i j hne hi hj
    obtain ⟨w, hw⟩ := hsome i hi
    obtain ⟨v, hv⟩ := hsome j hj
    obtain ⟨-, -, hstart, hlen⟩ := h.window_eq_some.mp hw
    obtain ⟨-, -, hstart', hlen'⟩ := h.window_eq_some.mp hv
    by_contra hoverlap
    rw [not_or, not_le, not_le] at hoverlap
    -- Overlapping windows would share the later of their first pages.
    have hpos := (h.holds.marked i w hw).1.nonempty
    have hpos' := (h.holds.marked j v hv).1.nonempty
    have hmem : w.Mem (max w.start v.start) := ⟨le_max_left _ _, by omega⟩
    have hmem' : v.Mem (max w.start v.start) := ⟨le_max_right _ _, by omega⟩
    exact hne (h.holds.owner_unique hw hv hmem hmem')
  · intro w id
    rw [h.holds.isRun_iff]
    simp only [h.window_eq_some]
  · intro j hj hne
    obtain ⟨i, w, hw, hmem⟩ := h.holds.owned j hj hne
    exact ⟨w, i, h.holds.isRun_iff.mpr ⟨i, rfl, hw⟩, hmem⟩

/-- The windows are exact after the call, and the call ends the program only
when the alias of a lock is refused. -/
def WindowStep (cfg : Config) (s : Driver) (c : XmsCall) : Prop :=
  (∀ t, step cfg s c = some t → WindowsExact cfg t) ∧
    (step cfg s c = none → AliasRefused c)

/-- A lock of a locked handle only counts. -/
theorem step_lock_again {i : Fin numHandles} (hdrv : s.intdrv = true)
    (hfn : XmsFn.ofAh (hiByte r.eax) = some .lock)
    (hvalid : validHandle s (lword r.edx) = some i) (hlocked : (s.handles i).lockcount ≠ 0)
    (hdst : (s.handles i).dst ≠ 0) :
    step cfg s (.control r env) = some (s.setHandle i
      { s.handles i with lockcount := swrap 32 ((s.handles i).lockcount + 1) }) := by
  have hcall : callFn cfg .lock env s r = some (0,
      s.setHandle i { s.handles i with lockcount := swrap 32 ((s.handles i).lockcount + 1) },
      { r with edx := setLword r.edx ((s.handles i).dst / 2 ^ 16),
               ebx := setLword r.ebx (s.handles i).dst }) := by
    simp [callFn, xmsLockEMB, hvalid, lockEMB, lockAddr, hlocked, hdst, Driver.setHandle]
  rw [step, xmsControl_eq hdrv hfn, hcall, Option.map_some, xmsRet_ok, Option.map_some]

/-- A lock beyond the largest count leaves a negative count beside a window. -/
theorem lockRoom_of_windowStep (h : WindowInv cfg s) {c : XmsCall}
    (hgood : WindowStep cfg s c) : LockRoom s c := by
  cases c with
  | control r env =>
      intro hdrv hfn i hvalid
      obtain ⟨-, hlive⟩ := validHandle_eq_some.mp hvalid
      have hrange := (h.entry i).range hlive
      by_contra hfull
      have hmax : (s.handles i).lockcount = 2 ^ 31 - 1 := by
        unfold CountRoom at hfull
        omega
      have hlocked : (s.handles i).lockcount ≠ 0 := by omega
      have hdst : (s.handles i).dst ≠ 0 := ((h.entry i).locked hlive).mp hlocked
      have hover : swrap 32 ((s.handles i).lockcount + 1) = -2 ^ 31 := by
        rw [hmax]
        decide +kernel
      have hexact := (hgood.1 _ (step_lock_again hdrv hfn hvalid hlocked hdst)).locked i
      simp [Driver.setHandle, hlive, hdst, hover] at hexact
  | helperInit => trivial
  | localReset => trivial
  | reset => trivial

/-- From agreeing states, a step is good exactly when a lock finds room. -/
theorem windowStep_iff (h : WindowInv cfg s) (c : XmsCall) :
    WindowStep cfg s c ↔ LockRoom s c := by
  constructor
  · exact lockRoom_of_windowStep h
  · intro hroom
    have hout := step_windowInv h c hroom
    refine ⟨fun t ht => (hout.post ht).exact, ?_⟩
    intro hnone
    rw [hnone] at hout
    exact not_not.mp hout

/-- The windows are exact in every state of a run, and only a refused alias
ends it, exactly when every lock finds room in the lock count. -/
theorem lock_windows_iff (cfg : Config) (calls : List XmsCall) :
    Admits (step cfg) (WindowStep cfg) (xmsInit cfg) calls ↔
      Admits (step cfg) LockRoom (xmsInit cfg) calls :=
  admits_congr (WindowInv cfg) (fun _ c _ h hroom ht => (step_windowInv h c hroom).post ht)
    (fun _ c h => windowStep_iff h c) (windowInv_xmsInit cfg)

/-! ## Too many locks -/

/-- A call of the driver with the given `AX` and `DX`; the mapping layer grants
everything. -/
def plainCall (ax dx : BitVec 32) : XmsCall :=
  .control { eax := ax, ebx := 0, ecx := 0, edx := dx } ⟨some 4096, true⟩

/-- The first handle a client is given. -/
def handleOne : Fin numHandles :=
  ⟨1, by decide⟩

/-- The first handle has been locked `n` times. -/
structure LockedTimes (s : Driver) (n : Nat) : Prop where
  intdrv : s.intdrv = true
  live : (s.handles handleOne).addr ≠ 0
  mapped : (s.handles handleOne).dst ≠ 0
  count : (s.handles handleOne).lockcount = n

/-- One more lock of a locked handle only counts. -/
theorem LockedTimes.lock {n : Nat} (h : LockedTimes s n) (hpos : 0 < n) (hlt : n < 2 ^ 31 - 1) :
    ∃ t, step cfg s (plainCall 0x0c00 1) = some t ∧ LockedTimes t (n + 1) := by
  have hvalid : validHandle s (lword 1) = some handleOne :=
    validHandle_eq_some.mpr ⟨by decide, h.live⟩
  have hlocked : (s.handles handleOne).lockcount ≠ 0 := by
    rw [h.count]
    omega
  have hcount : swrap 32 ((s.handles handleOne).lockcount + 1) = (n + 1 : Nat) := by
    rw [h.count]
    push_cast
    exact swrap_of_range (by decide) (by omega) (by omega)
  refine ⟨_, step_lock_again h.intdrv (by decide) hvalid hlocked h.mapped, ?_⟩
  constructor
  · exact h.intdrv
  · simpa [Driver.setHandle] using h.live
  · simpa [Driver.setHandle] using h.mapped
  · simpa [Driver.setHandle] using hcount

/-- Locks that all find room in the count do not pass the largest `int`. -/
theorem LockedTimes.room {n : Nat} (h : LockedTimes s n) (hpos : 0 < n) (hle : n ≤ 2 ^ 31 - 1)
    (k : Nat) (hroom : Admits (step cfg) LockRoom s (List.replicate k (plainCall 0x0c00 1))) :
    n + k ≤ 2 ^ 31 - 1 := by
  induction k generalizing s n with
  | zero => exact hle
  | succ k ih =>
      rw [List.replicate_succ] at hroom
      have hfirst : CountRoom s handleOne :=
        hroom.1 h.intdrv (by decide) handleOne (validHandle_eq_some.mpr ⟨by decide, h.live⟩)
      have hlt : n < 2 ^ 31 - 1 := by
        rw [CountRoom, h.count] at hfirst
        omega
      obtain ⟨t, ht, hlocked⟩ := h.lock hpos hlt
      have hrest := ih hlocked (Nat.succ_pos n) hlt (hroom.2 t ht)
      omega

/-- Allocate a block of four kilobytes and lock it once. -/
def lockedBlock : List XmsCall :=
  [.helperInit, plainCall 0x0900 4, plainCall 0x0c00 1]

theorem lockedBlock_locked :
    ∃ t, run (step oneMegabyte) (xmsInit oneMegabyte) lockedBlock = some t ∧ LockedTimes t 1 := by
  have heval : ((run (step oneMegabyte) (xmsInit oneMegabyte) lockedBlock).map fun t =>
      decide (t.intdrv = true ∧ (t.handles handleOne).addr ≠ 0 ∧ (t.handles handleOne).dst ≠ 0 ∧
        (t.handles handleOne).lockcount = 1)) = some true := by
    decide +kernel
  rw [Option.map_eq_some_iff] at heval
  obtain ⟨t, ht, hprops⟩ := heval
  rw [decide_eq_true_eq] at hprops
  exact ⟨t, ht, hprops.1, hprops.2.1, hprops.2.2.1, hprops.2.2.2⟩

/-- After 2^31 locks the count has wrapped to a negative number. -/
theorem too_many_locks :
    ¬Admits (step oneMegabyte) (WindowStep oneMegabyte) (xmsInit oneMegabyte)
      (lockedBlock ++ List.replicate (2 ^ 31 - 1) (plainCall 0x0c00 1)) := by
  intro hall
  have hroom := (admits_congr (WindowInv oneMegabyte)
    (fun _ c _ h hroom ht => (step_windowInv h c hroom).post ht)
    (fun _ c h => windowStep_iff h c) (windowInv_xmsInit oneMegabyte)).mp hall
  obtain ⟨t, ht, hlocked⟩ := lockedBlock_locked
  have hrest := (admits_append.mp hroom).2 t ht
  have hle := hlocked.room Nat.one_pos (by decide) (2 ^ 31 - 1) hrest
  omega

end Xms
end Dosemu
