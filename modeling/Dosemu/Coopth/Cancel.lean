import Mathlib.Tactic
import Dosemu.Coopth.Scheduler

/-!
# Cancelling a thread

`coopth_cancel` only sets a flag: a detached thread is then resumed at once, a
joinable one when its pending switch is processed.  The calls that may suspend a
thread test the flag when they return, except for `coopth_attach`,
`coopth_detach`, `coopth_leave` and `coopth_abandon`.  A thread that was
suspended in one of these goes on with its body, and the next request that
suspends it fails an assertion.

Main results:

- Theorem `doRunThread_detached`: a cancelled thread that was suspended at a
  cancellation point ends, with its cleanup handler called once.
- Theorem `cancel_iff`: a cancelled thread ends cleanly if and only if it was
  not suspended in one of the four calls, or was about to return from its body
  and has no cleanup handler.
-/

namespace Dosemu
namespace Coopth

open Function

variable {cfg : Config} {w w' : State} {tid i : Nat} {p : PerThread}

/-! ## What a clean end is -/

/-- The cleanup handler is due if the body has begun and not ended. -/
def PerThread.cleanups (p : PerThread) (tid i : Nat) : List Event :=
  match p.thread with
  | .inside _ _ => if p.clnup then [.cleanup tid i] else []
  | _ => []

/-- Between the two states the top invocation was deleted, after its cleanup
handler was called if it was due, and no body made a request. -/
def Ends (w w' : State) (tid i : Nat) : Prop :=
  (w'.thr tid).curThr = i ∧ ∃ n, w'.log = w.log ++ (w.pth tid i).cleanups tid i ++
    [.deleted tid i, .notify n w'.thr]

variable (cfg) in
/-- A number of rounds of `thread_run`. -/
def rounds : Nat → State → Nat → Nat → Option State
  | 0, w, _, _ => some w
  | n + 1, w, tid, i => (threadRunOnce cfg w tid i).bind fun x => rounds n x.1 tid i

variable (cfg) in
/-- Cancelling the top invocation of a tid makes it end cleanly: at once if it is
detached; if it is joinable, when it is shut down, and whenever after
`coopth_cancel` the scheduler processes what it has left behind. -/
def CancelsCleanly (cur : Option Nat) (w : State) (tid i : Nat) : Prop :=
  ((w.pth tid i).attached = false →
    ∃ w', coopthCancel cfg cur w tid = some w' ∧ Ends w w' tid i) ∧
  ((w.pth tid i).attached = true →
    (∃ w', shutdownThread cfg w tid i = some w' ∧ Ends w w' tid i) ∧
    ∃ w₁, coopthCancel cfg cur w tid = some w₁ ∧ w₁.log = w.log ∧
      ∀ w₂, Reachable cfg w₂ → w₂.thr tid = w₁.thr tid →
        ∃ n w₃, rounds cfg n w₂ tid i = some w₃ ∧ Ends w₂ w₃ tid i)

/-- A cancelled invocation in this state ends when it is resumed. -/
def PerThread.EndsWhenResumed (p : PerThread) : Prop :=
  match p.thread with
  | .inside r rest => r.cancellationPoint = true ∨ rest = [] ∧ p.clnup = false
  | _ => True

/-! ## Resuming a cancelled thread -/

/-- The state in which a cancelled body has ended. -/
def State.cancelExit (w : State) (tid i : Nat) : State :=
  { w with log := w.log ++ (w.pth tid i).cleanups tid i }.exit tid i

theorem State.cancelExit_pth (w : State) (tid i : Nat) :
    (w.cancelExit tid i).pth tid i = { w.pth tid i with thread := .exited } :=
  State.setPth_pth_self _ _ _ _

theorem coCall_cancelled (hcan : (w.pth tid i).cancelled = true)
    (hdis : (w.pth tid i).cancDisabled = false) (hne : (w.pth tid i).thread ≠ .exited)
    (hp : (w.pth tid i).EndsWhenResumed) :
    coCall cfg w tid i = some (w.cancelExit tid i, .done) := by
  unfold PerThread.EndsWhenResumed at hp
  unfold State.cancelExit PerThread.cleanups
  cases hthread : (w.pth tid i).thread with
  | fresh body =>
      simp only [coCall, hthread, hcan, if_true, List.append_nil]
  | exited => exact absurd hthread hne
  | inside r rest =>
      simp only [hthread] at hp
      cases hpoint : r.cancellationPoint with
      | true =>
          simp only [coCall, hthread, hpoint, hcan, hdis, cancelJump]
          cases hcl : (w.pth tid i).clnup <;> simp [State.emit]
      | false =>
          obtain ⟨hrest, hcl⟩ := hp.resolve_left (by simp [hpoint])
          subst hrest
          simp [coCall, hthread, hpoint, runBody, hcl]

/-- The cleanup handler is no notification. -/
theorem mem_cleanups {e : Event} (h : e ∈ p.cleanups tid i) : e = .cleanup tid i := by
  unfold PerThread.cleanups at h
  split at h
  · split at h
    · exact List.mem_singleton.1 h
    · cases h
  · cases h

theorem Held.cancelExit (h : Held cfg tid i w) : Held cfg tid i (w.cancelExit tid i) := by
  have hlog : SoundBut cfg (fun t j => t = tid ∧ j = i)
      { w with log := w.log ++ (w.pth tid i).cleanups tid i } := by
    refine h.sound.congr (fun _ => rfl) rfl rfl rfl rfl rfl ?_
    intro n thr hmem
    rcases List.mem_append.1 hmem with hold | hnew
    · exact h.sound.notes n thr hold
    · exact absurd (mem_cleanups hnew) (by simp)
  have hheld : Held cfg tid i { w with log := w.log ++ (w.pth tid i).cleanups tid i } :=
    ⟨hlog, h.top⟩
  exact hheld.setPth h.st_ne_none rfl rfl

theorem doCall_cancelled (hcan : (w.pth tid i).cancelled = true)
    (hdis : (w.pth tid i).cancDisabled = false) (hne : (w.pth tid i).thread ≠ .exited)
    (hp : (w.pth tid i).EndsWhenResumed) :
    doCall cfg w tid i = some (w.cancelExit tid i,
      if (w.pth tid i).attached = false then .delete else .done) := by
  refine doCall_eq_some.2 ⟨_, coCall_cancelled hcan hdis hne hp, ?_⟩
  rw [State.cancelExit_pth]
  simp

/-- Resuming a cancelled thread that is detached deletes it. -/
theorem doRunThread_detached (h : Held cfg tid i w) (hcan : (w.pth tid i).cancelled = true)
    (hdis : (w.pth tid i).cancDisabled = false) (hne : (w.pth tid i).thread ≠ .exited)
    (hp : (w.pth tid i).EndsWhenResumed) (hatt : (w.pth tid i).attached = false) :
    doRunThread cfg w tid i = some ((w.cancelExit tid i).deleted tid i, .delete) := by
  have hexit := h.cancelExit
  have hkeep : (w.cancelExit tid i).keepsPost tid i = false := by
    unfold State.keepsPost
    rw [State.cancelExit_pth]
    simp [hcan]
  have hdel := (doDelThread_eq_some hexit.sound.acc hexit.top).2
    ⟨fun hk => absurd hk (by simp [hkeep]), rfl⟩
  have hatt' : ((w.cancelExit tid i).pth tid i).attached = false := by
    rw [State.cancelExit_pth]
    exact hatt
  unfold doRunThread
  rw [doCall_cancelled hcan hdis hne hp, if_pos hatt]
  simp only [Option.bind_eq_bind, Option.bind_some]
  rw [cAssert_bind hatt', hdel]
  rfl

/-- Resuming a cancelled thread that is joinable leaves `idx_DONE` behind. -/
theorem doRunThread_joinable (hcan : (w.pth tid i).cancelled = true)
    (hdis : (w.pth tid i).cancDisabled = false) (hne : (w.pth tid i).thread ≠ .exited)
    (hp : (w.pth tid i).EndsWhenResumed) (hatt : (w.pth tid i).attached = true) :
    doRunThread cfg w tid i = some ((w.cancelExit tid i).setPth tid i
      { w.pth tid i with thread := .exited, st := .switch .done }, .done) := by
  unfold doRunThread
  rw [doCall_cancelled hcan hdis hne hp, if_neg (by simp [hatt])]
  simp only [Option.bind_eq_bind, Option.bind_some, Option.pure_def, State.cancelExit_pth]

/-- The end of a cancelled thread that was resumed is a clean end. -/
theorem cancelExit_ends (htop : (w.thr tid).curThr = i + 1) :
    Ends w ((w.cancelExit tid i).deleted tid i) tid i := by
  refine ⟨?_, _, rfl⟩
  rw [State.deleted_thr_self]
  change ((w.cancelExit tid i).thr tid).curThr - 1 = i
  unfold State.cancelExit State.exit
  rw [State.setPth_curThr]
  change (w.thr tid).curThr - 1 = i
  omega

/-! ## Processing what a thread has left behind -/

/-- What processing a pending switch leaves alone. -/
structure Processed (p q : PerThread) : Prop where
  thread : q.thread = p.thread
  clnup : q.clnup = p.clnup
  cancelled : q.cancelled = p.cancelled
  cancDisabled : q.cancDisabled = p.cancDisabled
  attached : p.attached = false → q.attached = false

theorem Processed.cleanups {q : PerThread} (h : Processed p q) :
    q.cleanups tid i = p.cleanups tid i := by
  unfold PerThread.cleanups
  rw [h.thread, h.clnup]

theorem Processed.endsWhenResumed {q : PerThread} (h : Processed p q) :
    q.EndsWhenResumed ↔ p.EndsWhenResumed := by
  unfold PerThread.EndsWhenResumed
  rw [h.thread, h.clnup]

theorem coopthRetf_pth (hw : coopthRetf cfg w tid i = some w') :
    w'.pth tid i = { w.pth tid i with attached := false } ∧ w'.log = w.log := by
  obtain ⟨-, w₁, hdec, rfl⟩ := coopthRetf_eq_some.1 hw
  obtain ⟨-, -, rfl⟩ := threadsJoinableDec_eq_some.1 hdec
  exact ⟨State.setPth_pth_self _ _ _ _, rfl⟩

/-- A pending switch of a thread that has not ended makes it runnable, at the
second switch in the case of `idx_DETACH`. -/
theorem swList_processed {sw : CoopthSw} (hsw : sw ≠ .done)
    (hw : swList cfg sw w tid i = some w') :
    Processed (w.pth tid i) (w'.pth tid i) ∧ w'.log = w.log ∧
      (w'.pth tid i).st = if sw = .detach then .switch .sched else .running := by
  cases sw with
  | done => exact absurd rfl hsw
  | sched | attach | awaken | yield | wait =>
      obtain rfl := Option.some.inj hw
      rw [State.setPth_pth_self]
      exact ⟨⟨rfl, rfl, rfl, rfl, id⟩, rfl, rfl⟩
  | detach =>
      simp only [swList, swDetach, Option.bind_eq_bind, Option.bind_eq_some_iff, Option.pure_def,
        Option.some.injEq] at hw
      obtain ⟨w₁, hretf, rfl⟩ := hw
      obtain ⟨hpth, hlog⟩ := coopthRetf_pth hretf
      rw [State.setPth_pth_self, hpth]
      exact ⟨⟨rfl, rfl, rfl, rfl, fun _ => rfl⟩, hlog, rfl⟩
  | leave =>
      simp only [swList, swLeave, Option.bind_eq_bind, Option.bind_eq_some_iff, Option.pure_def,
        Option.some.injEq] at hw
      obtain ⟨w₁, hretf, rfl⟩ := hw
      rw [State.setPth_pth_self, State.markLeft_pth]
      split at hretf
      · obtain ⟨hpth, hlog⟩ := coopthRetf_pth hretf
        rw [hpth]
        exact ⟨⟨rfl, rfl, rfl, rfl, fun _ => rfl⟩, hlog, rfl⟩
      · obtain rfl := Option.some.inj hretf
        exact ⟨⟨rfl, rfl, rfl, rfl, id⟩, rfl, rfl⟩

/-- The counters of an attached invocation are not 0. -/
theorem Held.joinableDec (h : Held cfg tid i w) (hatt : (w.pth tid i).attached = true) :
    ∃ w₁, threadsJoinableDec w (cfg.cls tid) = some w₁ := by
  have hone : ∀ P : Nat → PerThread → Bool, P tid (w.pth tid i) = true →
      1 ≤ w.liveCount cfg P := by
    intro P hP
    have hle := Stack.le_total (s := Finset.range cfg.coopthNum)
      (φ := fun t p => (P t p).toInt) (by
        intro t p
        cases P t p <;> simp) (fun t => (w.thr t).stack)
      (Finset.mem_range.2 (h.sound.acc.lt_num h.lt)) h.lt
    change (P tid (w.pth tid i)).toInt ≤ _ at hle
    rw [hP] at hle
    exact hle
  have hj := hone (fun _ p => p.attached) hatt
  have hcs := hone (attachedOf cfg (cfg.cls tid)) (by simp [attachedOf, hatt])
  rw [← h.sound.acc.threads_joinable] at hj
  rw [← h.sound.acc.threads_cs] at hcs
  exact ⟨_, threadsJoinableDec_eq_some.2 ⟨by omega, by omega, rfl⟩⟩

theorem Held.retf (h : Held cfg tid i w) (hatt : (w.pth tid i).attached = true) :
    ∃ w₁, Coopth.coopthRetf cfg w tid i = some w₁ := by
  obtain ⟨w₁, hdec⟩ := h.joinableDec hatt
  exact ⟨_, coopthRetf_eq_some.2 ⟨hatt, w₁, hdec, rfl⟩⟩

theorem Held.swList (h : Held cfg tid i w) {sw : CoopthSw} (hsw : sw ≠ .done)
    (hdet : sw = .detach → (w.pth tid i).attached = true) :
    ∃ w₁, Coopth.swList cfg sw w tid i = some w₁ := by
  cases sw with
  | done => exact absurd rfl hsw
  | sched | attach | awaken | yield | wait => exact ⟨_, rfl⟩
  | detach =>
      obtain ⟨w₁, hretf⟩ := h.retf (hdet rfl)
      simp [Coopth.swList, swDetach, hretf]
  | leave =>
      by_cases hatt : (w.pth tid i).attached = true
      · obtain ⟨w₁, hretf⟩ := h.retf hatt
        simp [Coopth.swList, swLeave, hatt, hretf]
      · simp [Coopth.swList, swLeave, hatt]

/-! ## Clean ends -/

/-- A top invocation that is cancelled and ends when it is resumed. -/
structure Doomed (cfg : Config) (tid i : Nat) (w : State) : Prop where
  sound : Sound cfg w
  top : (w.thr tid).curThr = i + 1
  cancelled : (w.pth tid i).cancelled = true
  enabled : (w.pth tid i).cancDisabled = false
  ends : (w.pth tid i).EndsWhenResumed

theorem Doomed.hold (h : Doomed cfg tid i w) : Held cfg tid i w :=
  h.sound.hold h.top

theorem Doomed.fits (h : Doomed cfg tid i w) : Fits cfg tid (w.pth tid i) :=
  h.sound.fits tid i h.hold.lt not_false

/-- A cancelled invocation stays so while its switch is processed. -/
theorem Doomed.processed (h : Doomed cfg tid i w) (hs : Sound cfg w')
    (htop : (w'.thr tid).curThr = i + 1) (hp : Processed (w.pth tid i) (w'.pth tid i)) :
    Doomed cfg tid i w' :=
  ⟨hs, htop, hp.cancelled.trans h.cancelled, hp.cancDisabled.trans h.enabled,
    hp.endsWhenResumed.2 h.ends⟩

/-- An end seen from a state with the same log. -/
theorem Ends.of_log {w₁ : State} (h : Ends w₁ w' tid i) (hlog : w₁.log = w.log)
    (hp : (w₁.pth tid i).cleanups tid i = (w.pth tid i).cleanups tid i) : Ends w w' tid i := by
  obtain ⟨hcur, n, hn⟩ := h
  refine ⟨hcur, n, ?_⟩
  rw [hn, hlog, hp]

theorem Ends.of_processed {w₁ : State} (h : Ends w₁ w' tid i) (hlog : w₁.log = w.log)
    (hp : Processed (w.pth tid i) (w₁.pth tid i)) : Ends w w' tid i :=
  h.of_log hlog hp.cleanups

/-- The end of a cancelled thread whose body has ended. -/
theorem Held.deleted_ends (h : Held cfg tid i w) (hthread : (w.pth tid i).thread = .exited) :
    Ends w (w.deleted tid i) tid i := by
  have hnone : (w.pth tid i).cleanups tid i = [] := by
    unfold PerThread.cleanups
    rw [hthread]
  refine ⟨?_, w.threadsCs .normal + (w.threadsLeft - (w.pth tid i).left.toInt), ?_⟩
  · rw [State.deleted_thr_self]
    have htop := h.top
    change (w.thr tid).curThr - 1 = i
    omega
  · rw [hnone, List.append_nil]
    rfl

theorem Held.deleted_st (h : Held cfg tid i w) : ((w.deleted tid i).pth tid i).st = .none := by
  unfold State.pth
  rw [State.deleted_thr_self]
  change (((w.thr tid).pop { w.pth tid i with st := .none }).pth i).st = _
  rw [Thr.pop_pth _ _ _ h.top, if_pos rfl]

theorem Held.doDelThread (h : Held cfg tid i w) (hcan : (w.pth tid i).cancelled = true) :
    Coopth.doDelThread w tid i = some (w.deleted tid i) := by
  have hkeep : w.keepsPost tid i = false := by
    unfold State.keepsPost
    simp [hcan]
  exact (doDelThread_eq_some h.sound.acc h.top).2 ⟨fun hk => absurd hk (by simp [hkeep]), rfl⟩

/-- Some number of rounds of `thread_run` ends the invocation. -/
def Finishes (cfg : Config) (tid i : Nat) (w : State) : Prop :=
  ∃ n w', rounds cfg n w tid i = some w' ∧ Ends w w' tid i

theorem Finishes.one {ret : Nat} (hw : threadRunOnce cfg w tid i = some (w', ret))
    (h : Ends w w' tid i) : Finishes cfg tid i w := by
  refine ⟨1, w', ?_, h⟩
  simp [rounds, hw]

theorem Finishes.round {w₁ : State} {ret : Nat}
    (hw : threadRunOnce cfg w tid i = some (w₁, ret)) (h : Finishes cfg tid i w₁)
    (hends : ∀ w', Ends w₁ w' tid i → Ends w w' tid i) : Finishes cfg tid i w := by
  obtain ⟨n, w', hrun, hend⟩ := h
  refine ⟨n + 1, w', ?_, hends w' hend⟩
  simp [rounds, hw, hrun]

/-- `idx_DONE` is pending. -/
theorem finishes_done (h : Sound cfg w) (htop : (w.thr tid).curThr = i + 1)
    (hst : (w.pth tid i).st = .switch .done) (hcan : (w.pth tid i).cancelled = true) :
    Finishes cfg tid i w := by
  have hfits := h.fits tid i (h.hold htop).lt not_false
  have hatt := hfits.done_attached hst
  have hthread := hfits.exited_iff.2 hst
  have hheld := (h.hold htop).setPth (p := { w.pth tid i with atomicSwitch := false })
    (h.hold htop).st_ne_none rfl rfl
  have hatt' : ((w.setPth tid i { w.pth tid i with atomicSwitch := false }).pth tid i).attached =
      true := by
    rw [State.setPth_pth_self]
    exact hatt
  obtain ⟨w₁, hretf⟩ := hheld.retf hatt'
  obtain ⟨hheld₁, hpth, hlog⟩ := hheld.coopthRetf hretf
  rw [State.setPth_pth_self] at hpth
  have hdel := hheld₁.doDelThread (by rw [hpth]; exact hcan)
  have hdone : swList cfg .done (w.setPth tid i { w.pth tid i with atomicSwitch := false }) tid i =
      some (w₁.deleted tid i) := by
    change swDone cfg _ tid i = _
    unfold swDone
    simp only [Option.bind_eq_bind]
    rw [cAssert_bind hatt', hretf]
    exact hdel
  have hround : threadRunOnce cfg w tid i = _ := threadRunOnce_switch hst
  rw [hdone, Option.map_some] at hround
  refine Finishes.one hround ?_
  obtain ⟨hcur, n, hn⟩ := hheld₁.deleted_ends (by rw [hpth]; exact hthread)
  refine ⟨hcur, n, ?_⟩
  rw [hn, hlog]
  unfold PerThread.cleanups
  rw [hpth]
  rfl

/-- The body is resumed. -/
theorem Doomed.finishes_running (h : Doomed cfg tid i w) (hcfg : cfg.StartsOthers)
    (hst : (w.pth tid i).st = .running) : Finishes cfg tid i w := by
  have hfits := h.fits
  have hthread : (w.pth tid i).thread ≠ .exited := by
    intro hex
    rw [hfits.exited_iff.1 hex] at hst
    cases hst
  have hleft : (w.pth tid i).left = true → (w.pth tid i).attached = false :=
    fun hl => (hfits.left_running hl).1
  have hround : ∀ w₁ ret, doRunThread cfg (w.enter (w.pth tid i)) tid i = some (w₁, ret) →
      (w₁.pth tid i).st ≠ .running → threadRunOnce cfg w tid i = some (w₁.back w, 0) := by
    intro w₁ ret hrun hne
    simp only [threadRunOnce, hst, Option.bind_eq_bind]
    rw [cAssert_bind hleft, hrun, Option.bind_some]
    have hne' : ((w₁.back w).pth tid i).st ≠ .running := hne
    rw [cAssert_bind hne']
    rfl
  have henter : Held cfg tid i (w.enter (w.pth tid i)) := ⟨h.hold.sound.enter _, h.top⟩
  cases hatt : (w.pth tid i).attached with
  | false =>
      have hrun := doRunThread_detached henter h.cancelled h.enabled hthread h.ends hatt
      have hend := cancelExit_ends (w := w.enter (w.pth tid i)) h.top
      exact Finishes.one (hround _ _ hrun (by rw [henter.cancelExit.deleted_st]; simp)) hend
  | true =>
      have hrun : doRunThread cfg (w.enter (w.pth tid i)) tid i = _ :=
        doRunThread_joinable h.cancelled h.enabled hthread h.ends hatt
      have hone := hround _ _ hrun (by rw [State.setPth_pth_self]; simp)
      have hs := threadRunOnce_sound hcfg h.sound h.top hone
      refine Finishes.round hone (finishes_done hs.1 (hs.top ?_) ?_ ?_) ?_
      · change (State.pth (State.setPth _ tid i _) tid i).st ≠ _
        rw [State.setPth_pth_self]
        simp
      · change (State.pth (State.setPth _ tid i _) tid i).st = _
        rw [State.setPth_pth_self]
      · change (State.pth (State.setPth _ tid i _) tid i).cancelled = _
        rw [State.setPth_pth_self]
        exact h.cancelled
      · rintro w' ⟨hcur, n, hn⟩
        refine ⟨hcur, n, ?_⟩
        rw [hn]
        change (_ ++ PerThread.cleanups (State.pth (State.setPth _ tid i _) tid i) tid i) ++ _ = _
        rw [State.setPth_pth_self]
        change (_ ++ []) ++ _ = _
        rw [List.append_nil]
        rfl

/-- A pending switch is processed, and the body resumed when it is runnable. -/
theorem Doomed.finishes_switch (h : Doomed cfg tid i w) (hcfg : cfg.StartsOthers)
    {sw : CoopthSw} (hst : (w.pth tid i).st = .switch sw) (hsw : sw ≠ .done)
    (hdet : sw = .detach → (w.pth tid i).attached = true)
    (hnext : ∀ w₁, Doomed cfg tid i w₁ →
      (w₁.pth tid i).st = (if sw = .detach then .switch .sched else .running) →
      Finishes cfg tid i w₁) : Finishes cfg tid i w := by
  have hheld := h.hold.setPth (p := { w.pth tid i with atomicSwitch := false })
    h.hold.st_ne_none rfl rfl
  have hpth := State.setPth_pth_self w tid i { w.pth tid i with atomicSwitch := false }
  obtain ⟨w₁, hlist⟩ := hheld.swList hsw (by rw [hpth]; exact hdet)
  obtain ⟨hproc, hlog, hst₁⟩ := swList_processed hsw hlist
  rw [hpth] at hproc
  have hproc' : Processed (w.pth tid i) (w₁.pth tid i) :=
    ⟨hproc.thread, hproc.clnup, hproc.cancelled, hproc.cancDisabled, hproc.attached⟩
  have hround : threadRunOnce cfg w tid i = _ := threadRunOnce_switch hst
  rw [hlist, Option.map_some] at hround
  have hs := threadRunOnce_sound hcfg h.sound h.top hround
  have htop₁ := hs.top (by rw [hst₁]; split <;> simp)
  exact Finishes.round hround (hnext w₁ (h.processed hs.1 htop₁ hproc') hst₁)
    fun w' hend => hend.of_processed hlog hproc'

/-- A joinable thread that is cancelled, runnable or with a pending switch,
ends. -/
theorem Doomed.finishes (h : Doomed cfg tid i w) (hcfg : cfg.StartsOthers)
    (hatt : (w.pth tid i).attached = true) (hsleep : (w.pth tid i).st ≠ .sleeping) :
    Finishes cfg tid i w := by
  have hrunning : ∀ w₁, Doomed cfg tid i w₁ → (w₁.pth tid i).st = .running →
      Finishes cfg tid i w₁ := fun w₁ h₁ hst₁ => h₁.finishes_running hcfg hst₁
  cases hst : (w.pth tid i).st with
  | none => exact absurd hst h.hold.st_ne_none
  | sleeping => exact absurd hst hsleep
  | running => exact hrunning w h hst
  | switch sw =>
      by_cases hdone : sw = .done
      · subst hdone
        exact finishes_done h.sound h.top hst h.cancelled
      · refine h.finishes_switch hcfg hst hdone (fun _ => hatt) ?_
        intro w₁ h₁ hst₁
        split at hst₁
        · -- idx_DETACH needs a second switch
          refine h₁.finishes_switch hcfg hst₁ (by simp) (by simp) ?_
          intro w₂ h₂ hst₂
          exact hrunning w₂ h₂ (by simpa using hst₂)
        · exact hrunning w₁ h₁ hst₁

/-! ## Shutting a joinable thread down -/

/-- What `do_detach` does once the thread is marked as detached. -/
def detachRest (cfg : Config) (w : State) (tid i : Nat) : Option State := do
  let (w, deleted) ← (match (w.pth tid i).st with
    | .switch sw => detachSw cfg w tid i sw
    | _ => some (w, false))
  if deleted then return w
  else do
    cAssert ((w.pth tid i).st.isSwitch = false)
    if (w.pth tid i).cancelled then do
      let (w, tret) ← doRunThread cfg w tid i
      cAssert (tret = .delete)
      return w
    else return w

theorem doDetach_eq (w : State) (tid i : Nat) :
    doDetach cfg w tid i = (threadsJoinableDec
      (w.setPth tid i { w.pth tid i with attached := false }) (cfg.cls tid)).bind
        fun w => detachRest cfg w tid i :=
  rfl

/-- A thread that is not finished, once its pending switch is out of the way. -/
theorem detachRest_run {w₁ w₂ : State} (hst : (w₂.pth tid i).st.isSwitch = false)
    (hcan : (w₂.pth tid i).cancelled = true)
    (hsw : (match (w₁.pth tid i).st with
      | .switch sw => detachSw cfg w₁ tid i sw
      | _ => some (w₁, false)) = some (w₂, false)) :
    detachRest cfg w₁ tid i = (doRunThread cfg w₂ tid i).bind fun x =>
      (cAssert (x.2 = .delete)).bind fun _ => some x.1 := by
  unfold detachRest
  simp only [Option.bind_eq_bind]
  rw [hsw, Option.bind_some]
  simp only [Bool.false_eq_true, if_false]
  rw [cAssert_bind hst, if_pos hcan]
  rfl

/-- The pending switch of a thread that is not finished is taken out of the
way. -/
theorem detachSw_processed {w₁ w₂ : State} {deleted : Bool}
    (hne : (w₁.pth tid i).st ≠ .switch .done)
    (hsw : (match (w₁.pth tid i).st with
      | .switch sw => detachSw cfg w₁ tid i sw
      | _ => some (w₁, false)) = some (w₂, deleted)) :
    deleted = false ∧ Processed (w₁.pth tid i) (w₂.pth tid i) ∧ w₂.log = w₁.log ∧
      (w₂.pth tid i).st.isSwitch = false := by
  have hrefl : Processed (w₁.pth tid i) (w₁.pth tid i) := ⟨rfl, rfl, rfl, rfl, id⟩
  cases hst : (w₁.pth tid i).st with
  | none | running | sleeping =>
      rw [hst] at hsw
      obtain ⟨rfl, rfl⟩ := Prod.mk.inj (Option.some.inj hsw)
      exact ⟨rfl, hrefl, rfl, by rw [hst]; rfl⟩
  | switch sw =>
      rw [hst] at hsw hne
      have hdone : sw ≠ .done := fun h => hne (by rw [h])
      by_cases hdet : sw = .detach
      · subst hdet
        obtain ⟨rfl, rfl⟩ := Prod.mk.inj (Option.some.inj hsw)
        rw [State.setPth_pth_self]
        exact ⟨rfl, ⟨rfl, rfl, rfl, rfl, id⟩, rfl, rfl⟩
      · have hmap : detachSw cfg w₁ tid i sw =
            (swList cfg sw w₁ tid i).map fun w => (w, false) := by
          cases sw <;> first | rfl | contradiction
        simp only [hmap, Option.map_eq_some_iff, Prod.mk.injEq] at hsw
        obtain ⟨w₃, hlist, rfl, rfl⟩ := hsw
        obtain ⟨hproc, hlog, hst₃⟩ := swList_processed hdone hlist
        rw [if_neg hdet] at hst₃
        exact ⟨rfl, hproc, hlog, by rw [hst₃]; rfl⟩

theorem Held.detachSw (h : Held cfg tid i w) (hne : (w.pth tid i).st ≠ .switch .done) :
    ∃ w₂, (match (w.pth tid i).st with
      | .switch sw => Coopth.detachSw cfg w tid i sw
      | _ => some (w, false)) = some (w₂, false) := by
  cases hst : (w.pth tid i).st with
  | none | running | sleeping => exact ⟨w, rfl⟩
  | switch sw =>
      rw [hst] at hne
      have hdone : sw ≠ .done := fun h => hne (by rw [h])
      by_cases hdet : sw = .detach
      · subst hdet
        exact ⟨_, rfl⟩
      · obtain ⟨w₂, hlist⟩ := h.swList hdone (fun h => absurd h hdet)
        refine ⟨w₂, ?_⟩
        have hmap : Coopth.detachSw cfg w tid i sw =
            (Coopth.swList cfg sw w tid i).map fun w => (w, false) := by
          cases sw <;> first | rfl | contradiction
        dsimp only
        rw [hmap, hlist]
        rfl

/-- A doomed thread that is detached by force ends. -/
theorem Doomed.doDetach (h : Doomed cfg tid i w) (hatt : (w.pth tid i).attached = true) :
    ∃ w', Coopth.doDetach cfg w tid i = some w' ∧ Ends w w' tid i := by
  obtain ⟨_, hdec⟩ := h.hold.joinableDec hatt
  obtain ⟨hj, hcs, -⟩ := threadsJoinableDec_eq_some.1 hdec
  obtain ⟨w₁, hw₁⟩ : ∃ w₁, threadsJoinableDec
      (w.setPth tid i { w.pth tid i with attached := false }) (cfg.cls tid) = some w₁ :=
    ⟨_, threadsJoinableDec_eq_some.2 ⟨hj, hcs, rfl⟩⟩
  obtain ⟨-, -, hw₁'⟩ := threadsJoinableDec_eq_some.1 hw₁
  have hheld₁ : Held cfg tid i w₁ := by
    subst hw₁'
    exact h.hold.unattach hatt rfl rfl rfl rfl rfl rfl rfl
  have hpth : w₁.pth tid i = { w.pth tid i with attached := false } := by
    subst hw₁'
    exact State.setPth_pth_self _ _ _ _
  have hlog : w₁.log = w.log := by
    subst hw₁'
    rfl
  have hproc₁ : Processed (w.pth tid i) (w₁.pth tid i) := by
    rw [hpth]
    exact ⟨rfl, rfl, rfl, rfl, fun _ => rfl⟩
  have hfits := h.fits
  have hcan₁ := hproc₁.cancelled.trans h.cancelled
  rw [doDetach_eq, hw₁, Option.bind_some]
  by_cases hdone : (w.pth tid i).st = .switch .done
  · have hdone₁ : (w₁.pth tid i).st = .switch .done := by
      rw [hpth]
      exact hdone
    have hthread : (w₁.pth tid i).thread = .exited :=
      hproc₁.thread.trans (hfits.exited_iff.2 hdone)
    refine ⟨w₁.deleted tid i, ?_, (hheld₁.deleted_ends hthread).of_processed hlog hproc₁⟩
    unfold detachRest
    rw [hdone₁]
    simp only [Coopth.detachSw, hheld₁.doDelThread hcan₁, Option.map_some, Option.bind_eq_bind,
      Option.bind_some, if_true, Option.pure_def]
  · have hne₁ : (w₁.pth tid i).st ≠ .switch .done := by
      rw [hpth]
      exact hdone
    obtain ⟨w₂, hsw⟩ := hheld₁.detachSw hne₁
    obtain ⟨-, hproc₂, hlog₂, hst₂⟩ := detachSw_processed hne₁ hsw
    have hfits₁ : Fits cfg tid (w₁.pth tid i) := by
      rw [hpth]
      exact hfits.resume hdone rfl rfl hdone fun hl => ⟨rfl, (hfits.left_running hl).2⟩
    have hs₂ : Sound cfg w₂ ∧ (w₂.thr tid).curThr = i + 1 := by
      cases hst : (w₁.pth tid i).st with
      | switch sw =>
          rw [hst] at hsw
          obtain ⟨hs, htop⟩ := detachSw_sound hheld₁ (by rw [hpth]) (fun _ => hfits₁) hst hsw
          exact ⟨hs, htop rfl⟩
      | none | running | sleeping =>
          rw [hst] at hsw
          obtain ⟨rfl, -⟩ := Prod.mk.inj (Option.some.inj hsw)
          exact ⟨hheld₁.release hfits₁, hheld₁.top⟩
    have hdoom₁ := h.processed (hheld₁.release hfits₁) hheld₁.top hproc₁
    have hdoom₂ := hdoom₁.processed hs₂.1 hs₂.2 hproc₂
    have hthread : (w₂.pth tid i).thread ≠ .exited := by
      rw [hproc₂.thread, hproc₁.thread]
      exact fun hex => hdone (hfits.exited_iff.1 hex)
    have hrun := doRunThread_detached hdoom₂.hold hdoom₂.cancelled hdoom₂.enabled hthread
      hdoom₂.ends (hproc₂.attached (by rw [hpth]))
    refine ⟨(w₂.cancelExit tid i).deleted tid i, ?_,
      ((cancelExit_ends hs₂.2).of_processed hlog₂ hproc₂).of_processed hlog hproc₁⟩
    rw [detachRest_run hst₂ hdoom₂.cancelled hsw, hrun, Option.bind_some]
    exact cAssert_bind rfl _

/-! ## Cancellation where it works -/

/-- A live invocation is marked as cancelled. -/
theorem doom (hdis : cfg.NeverDisables) (h : Sound cfg w) (htop : (w.thr tid).curThr = i + 1)
    (hp : (w.pth tid i).EndsWhenResumed) :
    Doomed cfg tid i (w.setPth tid i { w.pth tid i with cancelled := true }) := by
  have hfits := h.fits tid i (h.hold htop).lt not_false
  refine ⟨h.markCancelled htop, ?_, ?_, ?_, ?_⟩
  · rw [State.setPth_curThr]
    exact htop
  · rw [State.setPth_pth_self]
  · rw [State.setPth_pth_self]
    exact hfits.enabled hdis
  · rw [State.setPth_pth_self]
    exact hp

theorem doAwake_processed (w : State) (tid i : Nat) :
    Processed (w.pth tid i) ((doAwake w tid i).pth tid i) ∧ (doAwake w tid i).log = w.log ∧
      ((doAwake w tid i).pth tid i).st ≠ .sleeping := by
  unfold doAwake
  dsimp only
  split
  · rw [State.setPth_pth_self]
    exact ⟨⟨rfl, rfl, rfl, rfl, id⟩, rfl, by simp⟩
  · rename_i hst
    exact ⟨⟨rfl, rfl, rfl, rfl, id⟩, rfl, hst⟩

theorem coopthCancel_eq {cur : Option Nat} (hnum : tid < cfg.coopthNum)
    (hi : currentThr w tid = some i) (hcur : cur ≠ some tid) :
    coopthCancel cfg cur w tid = doCancel cfg w tid i := by
  unfold coopthCancel checkTid
  simp only [Option.bind_eq_bind]
  rw [cAssert_bind hnum, hi, Option.bind_some, if_neg hcur]

theorem cleanups_mark (w : State) (tid i : Nat) :
    ((w.setPth tid i { w.pth tid i with cancelled := true }).pth tid i).cleanups tid i =
      (w.pth tid i).cleanups tid i := by
  rw [State.setPth_pth_self]
  rfl

/-- A detached thread that ends when it is resumed is deleted at once. -/
theorem doCancel_clean (hdis : cfg.NeverDisables) (h : Sound cfg w)
    (htop : (w.thr tid).curThr = i + 1) (hp : (w.pth tid i).EndsWhenResumed)
    (hatt : (w.pth tid i).attached = false) :
    ∃ w', doCancel cfg w tid i = some w' ∧ Ends w w' tid i := by
  have hdoom := doom hdis h htop hp
  have hpth := State.setPth_pth_self w tid i { w.pth tid i with cancelled := true }
  have hfits := h.fits tid i (h.hold htop).lt not_false
  have hthread : (w.pth tid i).thread ≠ .exited := by
    intro hex
    have hdone := hfits.done_attached (hfits.exited_iff.1 hex)
    rw [hatt] at hdone
    cases hdone
  have hrun := doRunThread_detached hdoom.hold hdoom.cancelled hdoom.enabled
    (by rw [hpth]; exact hthread) hdoom.ends (by rw [hpth]; exact hatt)
  refine ⟨_, ?_, (cancelExit_ends hdoom.top).of_log rfl (cleanups_mark w tid i)⟩
  unfold doCancel
  dsimp only
  rw [hpth, if_neg (by simp [hatt]), hrun]
  rfl

/-- A joinable thread that ends when it is resumed is doomed once it is
cancelled. -/
theorem doCancel_doomed (hcfg : cfg.StartsOthers) (hdis : cfg.NeverDisables) (h : Sound cfg w)
    (htop : (w.thr tid).curThr = i + 1) (hp : (w.pth tid i).EndsWhenResumed)
    (hatt : (w.pth tid i).attached = true) :
    ∃ w₁, doCancel cfg w tid i = some w₁ ∧ Doomed cfg tid i w₁ ∧ w₁.log = w.log ∧
      (w₁.pth tid i).cleanups tid i = (w.pth tid i).cleanups tid i ∧
      (w₁.pth tid i).attached = true ∧ (w₁.pth tid i).st ≠ .sleeping := by
  have hdoom := doom hdis h htop hp
  have hcan : doCancel cfg w tid i = _ := doCancel_attached hatt
  obtain ⟨hproc, hlog, hst⟩ :=
    doAwake_processed (w.setPth tid i { w.pth tid i with cancelled := true }) tid i
  obtain ⟨hs, -⟩ := doCancel_sound hcfg h htop hcan
  refine ⟨_, hcan, hdoom.processed hs ?_ hproc, hlog, ?_, ?_, hst⟩
  · rw [doAwake_curThr]
    exact hdoom.top
  · rw [hproc.cleanups, cleanups_mark]
  · rw [doAwake_attached, State.setPth_pth_self]
    exact hatt

/-- A thread that ends when it is resumed can be cancelled anywhere. -/
theorem cancelsCleanly (hcfg : cfg.StartsOthers) (hdis : cfg.NeverDisables) (h : Sound cfg w)
    {cur : Option Nat} (hi : currentThr w tid = some i) (hcur : cur ≠ some tid)
    (hp : (w.pth tid i).EndsWhenResumed) : CancelsCleanly cfg cur w tid i := by
  have htop := (currentThr_eq_some.1 hi).1
  have hnum : tid < cfg.coopthNum := h.acc.tid_lt tid (by omega)
  unfold CancelsCleanly
  rw [coopthCancel_eq hnum hi hcur]
  refine ⟨fun hatt => doCancel_clean hdis h htop hp hatt, fun hatt => ?_⟩
  obtain ⟨w₁, hcan, hdoom, hlog, hcl, hatt₁, hst₁⟩ := doCancel_doomed hcfg hdis h htop hp hatt
  constructor
  · obtain ⟨w', hdet, hend⟩ := hdoom.doDetach hatt₁
    refine ⟨w', ?_, hend.of_log hlog hcl⟩
    unfold shutdownThread
    rw [hcan]
    exact hdet
  · refine ⟨w₁, hcan, hlog, fun w₂ hreach hthr => ?_⟩
    have hpth : w₂.pth tid i = w₁.pth tid i := by
      unfold State.pth
      rw [hthr]
    have hdoom₂ : Doomed cfg tid i w₂ :=
      ⟨reachable_sound hcfg hreach, by rw [hthr]; exact hdoom.top,
        by rw [hpth]; exact hdoom.cancelled, by rw [hpth]; exact hdoom.enabled,
        by rw [hpth]; exact hdoom.ends⟩
    exact hdoom₂.finishes hcfg (by rw [hpth]; exact hatt₁) (by rw [hpth]; exact hst₁)

/-! ## Cancellation where it does not work -/

theorem doStartInternal_log {arg idx : Nat}
    (hw : doStartInternal cfg w tid arg = some (w', idx)) : w'.log = w.log := by
  unfold doStartInternal at hw
  simp only [Option.bind_eq_bind, Option.bind_eq_some_iff, Option.pure_def, Option.some.injEq,
    Prod.mk.injEq, Prod.exists] at hw
  obtain ⟨w₁, tn, hstart, w₂, hcall, rfl, -⟩ := hw
  obtain ⟨-, -, rfl⟩ := doStart_eq_some hstart
  split at hcall
  · obtain rfl := Option.some.inj hcall
    rfl
  · obtain ⟨-, rfl⟩ := coopthCallf_eq_some.1 hcall
    rfl

/-- The state after a request. -/
def Next.state : Next → State
  | .goes w => w
  | .stops w _ => w

/-- A request is seen before anything that it leads to. -/
theorem doRequest_log {r : Request} {rest : List Request} {x : Next}
    (hw : doRequest cfg tid i rest w r = some x) :
    x.state.log = w.log ++ [.request tid i r] := by
  have hsuspend : ∀ {u : State} {ret : CoopthRet}, u.log = w.log ++ [.request tid i r] →
      (switchState u tid i r rest).map (Next.stops · ret) = some x →
      x.state.log = w.log ++ [.request tid i r] := by
    intro u ret hu hmap
    rw [Option.map_eq_some_iff] at hmap
    obtain ⟨w₁, hsw, rfl⟩ := hmap
    obtain ⟨-, -, rfl⟩ := switchState_eq_some.1 hsw
    exact hu
  cases r with
  | yield | sleep => exact hsuspend rfl hw
  | wait | sched =>
      simp only [doRequest] at hw
      split at hw
      · exact hsuspend rfl hw
      · cases hw
  | attach | detach | leave | abandon =>
      simp only [doRequest] at hw
      split at hw
      all_goals first | exact hsuspend rfl hw | (obtain rfl := Option.some.inj hw; rfl)
  | exit | setCleanupHandler | cancelDisable | cancelEnable =>
      obtain rfl := Option.some.inj hw
      rfl
  | start t a =>
      simp only [doRequest, Option.map_eq_some_iff] at hw
      obtain ⟨⟨w₁, ret⟩, hst, rfl⟩ := hw
      unfold coopthStartInternal at hst
      simp only [Option.bind_eq_bind, Option.bind_eq_some_iff, Option.pure_def, Option.some.injEq,
        Prod.mk.injEq, Prod.exists] at hst
      obtain ⟨-, -, w₂, idx, hstart, rfl, -⟩ := hst
      exact doStartInternal_log hstart
  | startCustom t a =>
      simp only [doRequest, Option.map_eq_some_iff] at hw
      obtain ⟨⟨w₁, idx⟩, hst, rfl⟩ := hw
      unfold coopthStartCustomInternal at hst
      simp only [Option.bind_eq_bind, Option.bind_eq_some_iff] at hst
      obtain ⟨-, -, -, -, hstart⟩ := hst
      exact doStartInternal_log hstart

theorem runBody_log {rs : List Request} {ret : CoopthRet}
    (hw : runBody cfg tid i w rs = some (w', ret)) : w.log <+: w'.log := by
  induction rs generalizing w with
  | nil =>
      obtain ⟨rfl, -⟩ := Prod.mk.inj (Option.some.inj hw)
      exact List.prefix_refl _
  | cons r rest ih =>
      rw [runBody] at hw
      split at hw
      · cases hw
      · rename_i w₁ hreq
        have hlog : w₁.log = _ := doRequest_log hreq
        have hpre : w.log <+: w₁.log := hlog ▸ List.prefix_append _ _
        exact hpre.trans (ih hw)
      · rename_i w₁ ret₁ hreq
        obtain ⟨rfl, -⟩ := Prod.mk.inj (Option.some.inj hw)
        have hlog : w₁.log = _ := doRequest_log hreq
        exact hlog ▸ List.prefix_append _ _

/-- The first thing that is seen of a body is its first request. -/
theorem runBody_log_cons {r : Request} {rest : List Request} {ret : CoopthRet}
    (hw : runBody cfg tid i w (r :: rest) = some (w', ret)) :
    w.log ++ [.request tid i r] <+: w'.log := by
  rw [runBody] at hw
  split at hw
  · cases hw
  · rename_i w₁ hreq
    have hlog : w₁.log = _ := doRequest_log hreq
    rw [← hlog]
    exact runBody_log hw
  · rename_i w₁ ret₁ hreq
    obtain ⟨rfl, -⟩ := Prod.mk.inj (Option.some.inj hw)
    have hlog : w₁.log = _ := doRequest_log hreq
    rw [← hlog]

/-- After the body has stopped `do_run_thread` adds two events at most. -/
theorem doRunThread_log {ret : CoopthRet} (hw : doRunThread cfg w tid i = some (w', ret)) :
    ∃ w₁ r, coCall cfg w tid i = some (w₁, r) ∧ w₁.log <+: w'.log ∧
      w'.log.length ≤ w₁.log.length + 2 := by
  unfold doRunThread at hw
  simp only [Option.bind_eq_bind, Option.bind_eq_some_iff, Prod.exists] at hw
  obtain ⟨w₁, r, hcall, hrest⟩ := hw
  obtain ⟨r₀, hco, -⟩ := doCall_eq_some.1 hcall
  refine ⟨w₁, r₀, hco, ?_⟩
  cases r with
  | attach =>
      simp only [Option.bind_eq_some_iff, Option.pure_def, Option.some.injEq,
        Prod.mk.injEq] at hrest
      obtain ⟨w₂, hcallf, rfl, -⟩ := hrest
      obtain ⟨-, rfl⟩ := coopthCallf_eq_some.1 hcallf
      exact ⟨List.prefix_refl _, Nat.le_add_right _ _⟩
  | delete =>
      simp only [Option.bind_eq_some_iff, Option.pure_def, Option.some.injEq,
        Prod.mk.injEq] at hrest
      obtain ⟨-, -, w₂, hdel, rfl, -⟩ := hrest
      simp only [doDelThread, Option.bind_eq_bind, Option.bind_eq_some_iff, Option.pure_def,
        Option.some.injEq] at hdel
      obtain ⟨active, -, -, -, rfl⟩ := hdel
      exact ⟨List.prefix_append _ _, by simp⟩
  | yield | wait | sched | detach | leave | done | sleep =>
      obtain ⟨rfl, -⟩ := Prod.mk.inj (Option.some.inj hrest)
      exact ⟨List.prefix_refl _, Nat.le_add_right _ _⟩

/-- Resuming a thread that does not end at once is no clean end. -/
theorem doRunThread_dirty {ret : CoopthRet} (hp : ¬(w.pth tid i).EndsWhenResumed)
    (hw : doRunThread cfg w tid i = some (w', ret)) : ¬Ends w w' tid i := by
  rintro ⟨-, n, hlog⟩
  unfold PerThread.EndsWhenResumed at hp
  cases hthread : (w.pth tid i).thread with
  | fresh body => simp [hthread] at hp
  | exited => simp [hthread] at hp
  | inside r rest =>
      simp only [hthread, not_or, not_and] at hp
      obtain ⟨hpoint, hrest⟩ := hp
      have hrun : coCall cfg w tid i = runBody cfg tid i w rest := by
        simp [coCall, hthread, hpoint]
      obtain ⟨w₁, r₁, hco, hpre, hlen⟩ := doRunThread_log hw
      rw [hrun] at hco
      cases rest with
      | cons r' rest' =>
          -- the first new event is a request
          have hfirst := (runBody_log_cons hco).trans hpre
          rw [hlog, List.append_assoc, List.prefix_append_right_inj] at hfirst
          obtain ⟨e, he⟩ : ∃ e es, (w.pth tid i).cleanups tid i ++
              [Event.deleted tid i, .notify n w'.thr] = e :: es ∧ e ≠ .request tid i r' := by
            cases hcl : (w.pth tid i).cleanups tid i with
            | nil => exact ⟨_, _, rfl, by simp⟩
            | cons e es =>
                have hmem := mem_cleanups (hcl ▸ List.mem_cons_self : e ∈ _)
                exact ⟨e, _, rfl, by simp [hmem]⟩
          obtain ⟨es, hes, hne⟩ := he
          rw [hes, List.cons_prefix_cons] at hfirst
          exact hne hfirst.1.symm
      | nil =>
          -- the cleanup handler is not called
          have hcl : (w.pth tid i).cleanups tid i = [.cleanup tid i] := by
            simp [PerThread.cleanups, hthread, hrest rfl]
          obtain ⟨rfl, -⟩ := Prod.mk.inj (Option.some.inj hco)
          have hsame : (w.exit tid i).log.length = w.log.length := rfl
          rw [hlog, hcl, hsame] at hlen
          simp at hlen

/-- Detaching a cancelled thread by force that does not end at once is no clean
end. -/
theorem doDetach_dirty (hp : ¬(w.pth tid i).EndsWhenResumed)
    (hcan : (w.pth tid i).cancelled = true) (hne : (w.pth tid i).st ≠ .switch .done)
    (hw : doDetach cfg w tid i = some w') : ¬Ends w w' tid i := by
  intro hend
  rw [doDetach_eq, Option.bind_eq_some_iff] at hw
  obtain ⟨w₁, hdec, hrest⟩ := hw
  obtain ⟨-, -, hw₁⟩ := threadsJoinableDec_eq_some.1 hdec
  have hpth : w₁.pth tid i = { w.pth tid i with attached := false } := by
    subst hw₁
    exact State.setPth_pth_self _ _ _ _
  have hlog : w₁.log = w.log := by
    subst hw₁
    rfl
  have hproc₁ : Processed (w.pth tid i) (w₁.pth tid i) := by
    rw [hpth]
    exact ⟨rfl, rfl, rfl, rfl, fun _ => rfl⟩
  have hne₁ : (w₁.pth tid i).st ≠ .switch .done := by
    rw [hpth]
    exact hne
  have hrest' := hrest
  unfold detachRest at hrest'
  simp only [Option.bind_eq_bind, Option.bind_eq_some_iff, Prod.exists] at hrest'
  obtain ⟨w₂, deleted, hsw, -⟩ := hrest'
  obtain ⟨rfl, hproc₂, hlog₂, hst₂⟩ := detachSw_processed hne₁ hsw
  have hcan₂ := hproc₂.cancelled.trans (hproc₁.cancelled.trans hcan)
  rw [detachRest_run hst₂ hcan₂ hsw] at hrest
  simp only [Option.bind_eq_some_iff, Option.some.injEq, Prod.exists] at hrest
  obtain ⟨w₃, ret, hrun, -, -, rfl⟩ := hrest
  refine doRunThread_dirty ?_ hrun (hend.of_log (hlog₂.trans hlog).symm ?_)
  · rw [hproc₂.endsWhenResumed, hproc₁.endsWhenResumed]
    exact hp
  · rw [hproc₂.cleanups, hproc₁.cleanups]

/-- An invocation that cancelling makes end cleanly ends when it is resumed. -/
theorem CancelsCleanly.endsWhenResumed (hcfg : cfg.StartsOthers) (h : Sound cfg w) {cur : Option Nat}
    (hi : currentThr w tid = some i) (hcur : cur ≠ some tid)
    (hclean : CancelsCleanly cfg cur w tid i) : (w.pth tid i).EndsWhenResumed := by
  have htop := (currentThr_eq_some.1 hi).1
  have hnum : tid < cfg.coopthNum := h.acc.tid_lt tid (by omega)
  by_contra hp
  cases hatt : (w.pth tid i).attached with
  | false =>
      obtain ⟨w', hcan, hend⟩ := hclean.1 hatt
      rw [coopthCancel_eq hnum hi hcur] at hcan
      unfold doCancel at hcan
      dsimp only at hcan
      rw [State.setPth_pth_self, if_neg (by simp [hatt])] at hcan
      simp only [Option.bind_eq_bind, Option.bind_eq_some_iff, Option.pure_def,
        Option.some.injEq, Prod.exists] at hcan
      obtain ⟨w₁, ret, hrun, -, -, rfl⟩ := hcan
      refine doRunThread_dirty ?_ hrun (hend.of_log rfl (cleanups_mark w tid i).symm)
      rw [State.setPth_pth_self]
      exact hp
  | true =>
      obtain ⟨⟨w', hshut, hend⟩, -⟩ := hclean.2 hatt
      unfold shutdownThread at hshut
      rw [doCancel_attached hatt] at hshut
      obtain ⟨hproc, hlog, -⟩ :=
        doAwake_processed (w.setPth tid i { w.pth tid i with cancelled := true }) tid i
      have hs := (doCancel_sound hcfg h htop (doCancel_attached hatt)).1
      have hfits := hs.fits tid i (by
        rw [doAwake_curThr, State.setPth_curThr]
        omega) not_false
      have hmark := State.setPth_pth_self w tid i { w.pth tid i with cancelled := true }
      have hends : ((w.setPth tid i { w.pth tid i with cancelled := true }).pth tid
          i).EndsWhenResumed ↔ (w.pth tid i).EndsWhenResumed := by
        rw [hmark]
        rfl
      refine doDetach_dirty ?_ ?_ ?_ hshut (hend.of_log hlog.symm ?_)
      · rw [hproc.endsWhenResumed, hends]
        exact hp
      · rw [hproc.cancelled, hmark]
      · intro hst
        have hthread := hfits.exited_iff.2 hst
        rw [hproc.thread, hmark] at hthread
        have hex : (w.pth tid i).thread = .exited := hthread
        exact hp (by simp [PerThread.EndsWhenResumed, hex])
      · rw [hproc.cleanups, cleanups_mark]

/-- A cancelled invocation ends cleanly, wherever it was suspended, if and only
if the request it is suspended in is a cancellation point, or the last of its
body without a cleanup handler being set. -/
theorem cancel_iff (hcfg : cfg.StartsOthers) (hdis : cfg.NeverDisables) (h : Reachable cfg w)
    {cur : Option Nat} (hi : currentThr w tid = some i) (hcur : cur ≠ some tid) :
    CancelsCleanly cfg cur w tid i ↔ (w.pth tid i).EndsWhenResumed := by
  have hs := reachable_sound hcfg h
  exact ⟨fun hclean => hclean.endsWhenResumed hcfg hs hi hcur,
    cancelsCleanly hcfg hdis hs hi hcur⟩

/-- A joinable thread that detaches itself and then sleeps. -/
def detaching : Config where
  coopthNum := 1
  func _ _ := [.detach, .sleep]
  detached _ := false
  cls _ := .normal

theorem detaching_startsOthers : detaching.StartsOthers := by
  intro tid arg r hr
  simp only [detaching, List.mem_cons, List.not_mem_nil, or_false] at hr
  rcases hr with rfl | rfl <;> simp [Request.starts]

theorem detaching_neverDisables : detaching.NeverDisables := by
  intro tid arg hr
  simp [detaching] at hr

/-- The thread has been started and has run until `coopth_detach` suspended it. -/
def detachPending : State :=
  (((Op.start 0 0).exec detaching 2 {}).bind fun w => (Op.runThread 0).exec detaching 2 w).getD {}

theorem detachPending_reachable : Reachable detaching detachPending :=
  .call (.runThread 0) 2 (.call (.start 0 0) 2 .init rfl) rfl

theorem cancel_iff_detaching : CancelsCleanly detaching none detachPending 0 0 ↔
    (detachPending.pth 0 0).EndsWhenResumed :=
  cancel_iff detaching_startsOthers detaching_neverDisables detachPending_reachable rfl (by simp)

/-- Cancelled while `idx_DETACH` is pending, the thread is resumed and sleeps,
and an assertion fails: both in a shutdown and after `coopth_cancel`. -/
theorem detaching_aborts : Reachable detaching detachPending ∧
    currentThr detachPending 0 = some 0 ∧
    (detachPending.pth 0 0).st = .switch .detach ∧
    shutdownThread detaching detachPending 0 0 = none ∧
    ((coopthCancel detaching none detachPending 0).bind fun w => rounds detaching 3 w 0 0) = none ∧
    ¬CancelsCleanly detaching none detachPending 0 0 := by
  have hshut : shutdownThread detaching detachPending 0 0 = none := rfl
  refine ⟨detachPending_reachable, rfl, rfl, hshut, rfl, ?_⟩
  rintro ⟨-, hatt⟩
  obtain ⟨⟨w', hw', -⟩, -⟩ := hatt rfl
  rw [hshut] at hw'
  cases hw'

end Coopth
end Dosemu
