import Mathlib.Tactic
import Dosemu.Coopth.Bodies

/-!
# The scheduler keeps its books

Every function of coopth.c that works on the top invocation of a tid leaves the
scheduler sound, whatever switch is pending there, and so does every loop over
such functions.

Main results:

- Theorem `threadRun_sound`: one visit of the scheduler to a thread.
- Theorem `exec_sound`: every call from outside or from another thread.
- Theorem `accounting`: in every reachable state the counters count what they
  are meant to count, and so does every count the notifier was given.
-/

namespace Dosemu
namespace Coopth

open Function

variable {cfg : Config} {w w' : State} {tid i : Nat} {p : PerThread}

/-- The scheduler is sound, and no invocation was added on top of `i`. -/
def SoundAt (cfg : Config) (tid i : Nat) (w : State) : Prop :=
  Sound cfg w ∧ (w.thr tid).curThr ≤ i + 1

/-! ## Processing a pending switch -/

/-- An unfinished invocation stays in order as long as it does not look
finished. -/
theorem Fits.resume {q : PerThread} (h : Fits cfg tid p) (hst : p.st ≠ .switch .done)
    (hthread : q.thread = p.thread) (hdis : q.cancDisabled = p.cancDisabled)
    (hq : q.st ≠ .switch .done) (hleft : q.left = true → q.attached = false ∧ q.st = .running) :
    Fits cfg tid q where
  body := by
    rw [hthread]
    exact h.body
  left_running := hleft
  exited_iff := by
    rw [hthread, h.exited_iff]
    exact iff_of_false hst hq
  done_attached hd := absurd hd hq
  enabled := by
    rw [hdis]
    exact h.enabled

/-- A left thread has no pending switch. -/
theorem Fits.not_left (h : Fits cfg tid p) (hst : p.st ≠ .running) : p.left = false := by
  by_contra hl
  exact hst (h.left_running (by simpa using hl)).2

theorem Held.soundTop (h : Held cfg tid i w) (hp : Fits cfg tid (w.pth tid i)) :
    Sound cfg w ∧ (w.thr tid).curThr = i + 1 :=
  ⟨h.release hp, h.top⟩

theorem Held.deleted_soundAt (h : Held cfg tid i w) (hatt : (w.pth tid i).attached = false) :
    SoundAt cfg tid i (w.deleted tid i) := by
  refine ⟨h.deleted hatt, ?_⟩
  rw [State.deleted_thr_self]
  have htop := h.top
  change (w.thr tid).curThr - 1 ≤ i + 1
  omega

theorem swSched_sound (h : Sound cfg w) (htop : (w.thr tid).curThr = i + 1)
    (hst : (w.pth tid i).st ≠ .switch .done) (hw : swSched w tid i = some w') :
    Sound cfg w' ∧ (w'.thr tid).curThr = i + 1 := by
  unfold swSched at hw
  obtain rfl := Option.some.inj hw
  have hheld := h.hold htop
  have hfits := h.fits tid i hheld.lt not_false
  have hset := hheld.setPth (p := { w.pth tid i with st := .running }) (by simp) rfl rfl
  refine hset.soundTop ?_
  rw [State.setPth_pth_self]
  exact hfits.resume hst rfl rfl (by simp) fun hl => ⟨(hfits.left_running hl).1, rfl⟩

theorem swDetach_sound (h : Sound cfg w) (htop : (w.thr tid).curThr = i + 1)
    (hst : (w.pth tid i).st = .switch .detach) (hw : swDetach cfg w tid i = some w') :
    Sound cfg w' ∧ (w'.thr tid).curThr = i + 1 := by
  unfold swDetach at hw
  simp only [Option.bind_eq_bind, Option.bind_eq_some_iff, Option.pure_def,
    Option.some.injEq] at hw
  obtain ⟨w₁, hretf, rfl⟩ := hw
  have hheld := h.hold htop
  have hfits := h.fits tid i hheld.lt not_false
  obtain ⟨hheld₁, hpth, -⟩ := hheld.coopthRetf hretf
  have hset := hheld₁.setPth (p := { w₁.pth tid i with st := .switch .sched }) (by simp) rfl rfl
  refine hset.soundTop ?_
  rw [State.setPth_pth_self, hpth]
  refine hfits.resume (by simp [hst]) rfl rfl (by simp) fun hl => ?_
  rw [show _ = (w.pth tid i).left from rfl, hfits.not_left (by simp [hst])] at hl
  cases hl

theorem swLeave_sound (h : Sound cfg w) (htop : (w.thr tid).curThr = i + 1)
    (hst : (w.pth tid i).st = .switch .leave) (hw : swLeave cfg w tid i = some w') :
    Sound cfg w' ∧ (w'.thr tid).curThr = i + 1 := by
  unfold swLeave at hw
  simp only [Option.bind_eq_bind, Option.bind_eq_some_iff, Option.pure_def,
    Option.some.injEq] at hw
  obtain ⟨w₁, hretf, rfl⟩ := hw
  have hheld := h.hold htop
  have hfits := h.fits tid i hheld.lt not_false
  have hleft : (w.pth tid i).left = false := hfits.not_left (by simp [hst])
  have hheld₁ : Held cfg tid i w₁ ∧ w₁.pth tid i = { w.pth tid i with attached := false } := by
    split at hretf
    · obtain ⟨hheld₁, hpth, -⟩ := hheld.coopthRetf hretf
      exact ⟨hheld₁, hpth⟩
    · rename_i hatt
      obtain rfl := Option.some.inj hretf
      refine ⟨hheld, ?_⟩
      have hatt' : (w.pth tid i).attached = false := by simpa using hatt
      rw [← hatt']
  obtain ⟨hheld₁, hpth⟩ := hheld₁
  have hmark := hheld₁.markLeft (by rw [hpth]; exact hleft)
  have hset := hmark.setPth (p := { (w₁.markLeft tid i).pth tid i with st := .running })
    (by simp) rfl rfl
  refine hset.soundTop ?_
  rw [State.setPth_pth_self, State.markLeft_pth, hpth]
  exact hfits.resume (by simp [hst]) rfl rfl (by simp) fun _ => ⟨rfl, rfl⟩

theorem swDone_sound (h : Sound cfg w) (htop : (w.thr tid).curThr = i + 1)
    (hw : swDone cfg w tid i = some w') : SoundAt cfg tid i w' := by
  unfold swDone at hw
  simp only [Option.bind_eq_bind, Option.bind_eq_some_iff, cAssert_eq_some, exists_const] at hw
  obtain ⟨-, w₁, hretf, hdel⟩ := hw
  obtain ⟨hheld₁, hpth, -⟩ := (h.hold htop).coopthRetf hretf
  obtain ⟨-, rfl⟩ := (doDelThread_eq_some hheld₁.sound.acc hheld₁.top).1 hdel
  exact hheld₁.deleted_soundAt (by rw [hpth])

/-- A pending switch of a thread that has not ended. -/
theorem swList_top (h : Sound cfg w) (htop : (w.thr tid).curThr = i + 1) {sw : CoopthSw}
    (hst : (w.pth tid i).st = .switch sw) (hsw : sw ≠ .done)
    (hw : swList cfg sw w tid i = some w') : Sound cfg w' ∧ (w'.thr tid).curThr = i + 1 := by
  cases sw with
  | detach => exact swDetach_sound h htop hst hw
  | leave => exact swLeave_sound h htop hst hw
  | done => exact absurd rfl hsw
  | sched | attach | awaken | yield | wait => exact swSched_sound h htop (by simp [hst]) hw

/-- Processing a pending switch keeps the scheduler sound. -/
theorem swList_sound (h : Sound cfg w) (htop : (w.thr tid).curThr = i + 1) {sw : CoopthSw}
    (hst : (w.pth tid i).st = .switch sw) (hw : swList cfg sw w tid i = some w') :
    SoundAt cfg tid i w' := by
  by_cases hsw : sw = .done
  · subst hsw
    exact swDone_sound h htop hw
  · obtain ⟨hs, hcur⟩ := swList_top h htop hst hsw hw
    exact ⟨hs, hcur.le⟩

/-! ## A visit to a thread -/

theorem currentThr_eq_some :
    currentThr w tid = some i ↔ (w.thr tid).curThr = i + 1 ∧ (w.pth tid i).st ≠ .none := by
  unfold currentThr
  simp only [Option.bind_eq_bind, Option.bind_eq_some_iff, cAssert_eq_some, exists_const,
    Option.pure_def, Option.some.injEq]
  constructor
  · rintro ⟨hpos, hst, rfl⟩
    exact ⟨by omega, hst⟩
  · rintro ⟨htop, hst⟩
    have hi : (w.thr tid).curThr - 1 = i := by omega
    rw [hi]
    exact ⟨by omega, hst, rfl⟩

/-- The running counters are no part of the books. -/
theorem SoundBut.enter {E : Nat → Nat → Prop} (h : SoundBut cfg E w) (p : PerThread) :
    SoundBut cfg E (w.enter p) :=
  h.congr (fun _ => rfl) rfl rfl rfl rfl rfl h.notes

theorem SoundBut.back {E : Nat → Nat → Prop} (h : SoundBut cfg E w) (old : State) :
    SoundBut cfg E (w.back old) :=
  h.congr (fun _ => rfl) rfl rfl rfl rfl rfl h.notes

/-- A round of `thread_run` that finds a pending switch. -/
theorem threadRunOnce_switch {sw : CoopthSw} (hst : (w.pth tid i).st = .switch sw) :
    threadRunOnce cfg w tid i =
      (swList cfg sw (w.setPth tid i { w.pth tid i with atomicSwitch := false }) tid i).map
        fun w₁ => (w₁, if sw = .done then
          ((w.setPth tid i { w.pth tid i with atomicSwitch := false }).thr tid).curThr else 0) := by
  unfold threadRunOnce
  dsimp only
  rw [hst, Option.map_eq_bind]
  rfl

/-- One round of `thread_run` keeps the scheduler sound. -/
theorem threadRunOnce_sound (hcfg : cfg.StartsOthers) (h : Sound cfg w)
    (htop : (w.thr tid).curThr = i + 1) {ret : Nat}
    (hw : threadRunOnce cfg w tid i = some (w', ret)) : SoundAt cfg tid i w' := by
  cases hst : (w.pth tid i).st with
  | none =>
      simp only [threadRunOnce, hst] at hw
      cases hw
  | running =>
      simp only [threadRunOnce, hst, Option.bind_eq_bind, Option.bind_eq_some_iff,
        cAssert_eq_some, exists_const, Option.pure_def, Option.some.injEq, Prod.mk.injEq,
        Prod.exists] at hw
      obtain ⟨-, w₁, tret, hrun, -, rfl, -⟩ := hw
      obtain ⟨hs, hcur⟩ := doRunThread_sound hcfg (h.enter (w.pth tid i)) htop hrun
      exact ⟨hs.back w, hcur⟩
  | sleeping =>
      simp only [threadRunOnce, hst, Option.some.injEq, Prod.mk.injEq] at hw
      obtain ⟨rfl, -⟩ := hw
      exact ⟨h, htop.le⟩
  | switch sw =>
      rw [threadRunOnce_switch hst, Option.map_eq_some_iff] at hw
      obtain ⟨w₁, hsw, hret⟩ := hw
      obtain ⟨rfl, -⟩ := Prod.mk.inj hret
      have hheld := h.hold htop
      have hkept : Kept cfg (w.pth tid i) { w.pth tid i with atomicSwitch := false } :=
        ⟨rfl, rfl, rfl, rfl, rfl, id⟩
      obtain ⟨hset, hcur, -⟩ := h.setKept hheld.lt hkept
      refine swList_sound hset (hcur.trans htop) ?_ hsw
      rw [State.setPth_pth_self]
      exact hst

/-- An invocation that still has a state is where it was. -/
theorem SoundAt.top (h : SoundAt cfg tid i w) (hst : (w.pth tid i).st ≠ .none) :
    (w.thr tid).curThr = i + 1 := by
  have hlt := (h.1.acc.st_ne_none tid i).1 hst
  have hle := h.2
  omega

/-- One visit of the scheduler to a thread keeps the scheduler sound. -/
theorem threadRun_sound (hcfg : cfg.StartsOthers) {fuel ret : Nat} (h : Sound cfg w)
    (htop : (w.thr tid).curThr = i + 1) (hw : threadRun cfg fuel w tid i = some (w', ret)) :
    SoundAt cfg tid i w' := by
  induction fuel generalizing w with
  | zero => cases hw
  | succ fuel ih =>
      rw [threadRun] at hw
      simp only [Option.bind_eq_bind, Option.bind_eq_some_iff, Prod.exists] at hw
      obtain ⟨w₁, r, honce, hrest⟩ := hw
      have h₁ := threadRunOnce_sound hcfg h htop honce
      split at hrest
      · rename_i hgo
        refine ih h₁.1 (h₁.top fun hnone => ?_) hrest
        rw [PerThread.goesOn, hnone] at hgo
        cases hgo
      · simp only [Option.pure_def, Option.some.injEq, Prod.mk.injEq] at hrest
        obtain ⟨rfl, -⟩ := hrest
        exact h₁

/-- `quick_sched` is not counted, whether the invocation is still there or not. -/
theorem SoundBut.setQuick (h : Sound cfg w) (htid : tid < cfg.coopthNum) (i : Nat) (b : Bool) :
    Sound cfg (w.setPth tid i { w.pth tid i with quickSched := b }) := by
  by_cases hi : i < (w.thr tid).curThr
  · have hkept : Kept cfg (w.pth tid i) { w.pth tid i with quickSched := b } :=
      ⟨rfl, rfl, rfl, rfl, rfl, id⟩
    exact (h.setKept hi hkept).1
  · exact h.setDead htid (by omega) rfl

/-- The loop of `run_traverser` keeps the scheduler sound. -/
theorem runTraverser_sound (hcfg : cfg.StartsOthers) {pred : PerThread → Bool}
    {post : PerThread → PerThread} (hpost : ∀ p, ∃ b, post p = { p with quickSched := b })
    {fuel n cnt cnt' : Nat} (h : Sound cfg w)
    (hw : runTraverser cfg pred post fuel w n cnt = some (w', cnt')) : Sound cfg w' := by
  induction fuel generalizing w n cnt with
  | zero => cases hw
  | succ fuel ih =>
      rw [runTraverser] at hw
      split at hw
      · obtain ⟨rfl, -⟩ := Prod.mk.inj (Option.some.inj hw)
        exact h
      · rename_i tid _
        simp only [Option.bind_eq_bind, Option.bind_eq_some_iff] at hw
        obtain ⟨i, hcur, hrest⟩ := hw
        split at hrest
        · exact ih h hrest
        · simp only [Option.bind_eq_some_iff, Prod.exists] at hrest
          obtain ⟨w₁, ret, hrun, hnext⟩ := hrest
          have htop := (currentThr_eq_some.1 hcur).1
          have htid : tid < cfg.coopthNum := h.acc.tid_lt tid (by omega)
          have h₁ := threadRun_sound hcfg h htop hrun
          obtain ⟨b, hb⟩ := hpost (w₁.pth tid i)
          rw [hb] at hnext
          exact ih (h₁.1.setQuick htid i b) hnext

theorem runQuick_sound (hcfg : cfg.StartsOthers) {fuel : Nat} (h : Sound cfg w)
    (hw : runQuick cfg fuel w = some w') : Sound cfg w' := by
  induction fuel generalizing w with
  | zero => cases hw
  | succ fuel ih =>
      rw [runQuick] at hw
      simp only [Option.bind_eq_bind, Option.bind_eq_some_iff, Prod.exists] at hw
      obtain ⟨w₁, cnt, htrav, hrest⟩ := hw
      have h₁ := runTraverser_sound hcfg (fun p => ⟨false, rfl⟩) h htrav
      split at hrest
      · exact ih h₁ hrest
      · obtain rfl := Option.some.inj hrest
        exact h₁

theorem coopthRun_sound (hcfg : cfg.StartsOthers) {fuel : Nat} (h : Sound cfg w)
    (hw : coopthRun cfg fuel w = some w') : Sound cfg w' := by
  unfold coopthRun at hw
  simp only [Option.bind_eq_bind, Option.bind_eq_some_iff, cAssert_eq_some, exists_const] at hw
  obtain ⟨-, hrest⟩ := hw
  split at hrest
  · obtain rfl := Option.some.inj hrest
    exact h
  · simp only [Option.bind_eq_some_iff, Prod.exists] at hrest
    obtain ⟨w₁, cnt, htrav, hquick⟩ := hrest
    have h₁ := runTraverser_sound hcfg (fun p => ⟨p.quickSched, rfl⟩) h htrav
    exact runQuick_sound hcfg h₁ hquick

/-! ## Ending a thread from outside -/

theorem doAwake_sound (h : Sound cfg w) (htop : (w.thr tid).curThr = i + 1) :
    Sound cfg (doAwake w tid i) := by
  unfold doAwake
  dsimp only
  split
  · rename_i hst
    have hheld := h.hold htop
    have hfits := h.fits tid i hheld.lt not_false
    refine h.setPth hheld.lt (by simp) (fun _ => ?_) rfl rfl
    refine hfits.resume (by simp [hst]) rfl rfl (by simp) fun hl => ?_
    rw [show _ = (w.pth tid i).left from rfl, hfits.not_left (by simp [hst])] at hl
    cases hl
  · exact h

theorem doAwake_curThr (w : State) (tid i t : Nat) :
    ((doAwake w tid i).thr t).curThr = (w.thr t).curThr := by
  unfold doAwake
  dsimp only
  split
  · exact State.setPth_curThr _ _ _ _ _
  · rfl

/-- The thread is marked as cancelled. -/
theorem SoundBut.markCancelled (h : Sound cfg w) (htop : (w.thr tid).curThr = i + 1) :
    Sound cfg (w.setPth tid i { w.pth tid i with cancelled := true }) := by
  have hheld := h.hold htop
  have hfits := h.fits tid i hheld.lt not_false
  refine h.setPth hheld.lt hheld.st_ne_none (fun _ => ?_) rfl rfl
  exact ⟨hfits.body, hfits.left_running, hfits.exited_iff, hfits.done_attached, hfits.enabled⟩

theorem doCancel_sound (hcfg : cfg.StartsOthers) (h : Sound cfg w)
    (htop : (w.thr tid).curThr = i + 1) (hw : doCancel cfg w tid i = some w') :
    SoundAt cfg tid i w' := by
  have hmark := h.markCancelled htop
  have htop' := (State.setPth_curThr w tid i tid { w.pth tid i with cancelled := true }).trans htop
  unfold doCancel at hw
  dsimp only at hw
  split at hw
  · obtain rfl := Option.some.inj hw
    refine ⟨doAwake_sound hmark htop', ?_⟩
    rw [doAwake_curThr, htop']
  · simp only [Option.bind_eq_bind, Option.bind_eq_some_iff, cAssert_eq_some, exists_const,
      Option.pure_def, Option.some.injEq, Prod.exists] at hw
    obtain ⟨w₁, ret, hrun, -, rfl⟩ := hw
    exact doRunThread_sound hcfg hmark htop' hrun

/-- The pending switch of a thread that was just detached by force. -/
theorem detachSw_sound (h : Held cfg tid i w) (hatt : (w.pth tid i).attached = false)
    (hfits : (w.pth tid i).st ≠ .switch .done → Fits cfg tid (w.pth tid i)) {sw : CoopthSw}
    (hst : (w.pth tid i).st = .switch sw) {deleted : Bool}
    (hw : detachSw cfg w tid i sw = some (w', deleted)) :
    Sound cfg w' ∧ (deleted = false → (w'.thr tid).curThr = i + 1) := by
  have hnext : sw ≠ .done → (swList cfg sw w tid i).map (fun w => (w, false)) =
      some (w', deleted) → Sound cfg w' ∧ (deleted = false → (w'.thr tid).curThr = i + 1) := by
    intro hsw hmap
    rw [Option.map_eq_some_iff] at hmap
    obtain ⟨w₁, hlist, hpair⟩ := hmap
    obtain ⟨rfl, -⟩ := Prod.mk.inj hpair
    obtain ⟨hs, hcur⟩ := swList_top (h.release (hfits (by simp [hst, hsw]))) h.top hst hsw hlist
    exact ⟨hs, fun _ => hcur⟩
  cases sw with
  | detach =>
      simp only [detachSw, Option.some.injEq, Prod.mk.injEq] at hw
      obtain ⟨rfl, -⟩ := hw
      obtain ⟨hs, hcur⟩ :=
        swSched_sound (h.release (hfits (by simp [hst]))) h.top (by simp [hst]) rfl
      exact ⟨hs, fun _ => hcur⟩
  | done =>
      simp only [detachSw, Option.map_eq_some_iff, Prod.mk.injEq] at hw
      obtain ⟨w₁, hdel, rfl, rfl⟩ := hw
      obtain ⟨-, rfl⟩ := (doDelThread_eq_some h.sound.acc h.top).1 hdel
      exact ⟨h.deleted hatt, by simp⟩
  | sched | attach | leave | awaken | yield | wait => exact hnext (by simp) hw

theorem doDetach_sound (hcfg : cfg.StartsOthers) (h : Sound cfg w)
    (htop : (w.thr tid).curThr = i + 1) (hatt : (w.pth tid i).attached = true)
    (hw : doDetach cfg w tid i = some w') : Sound cfg w' := by
  have hheld := h.hold htop
  have hfits := h.fits tid i hheld.lt not_false
  unfold doDetach at hw
  simp only [Option.bind_eq_bind, Option.bind_eq_some_iff, threadsJoinableDec_eq_some,
    Prod.exists] at hw
  obtain ⟨w₁, ⟨-, -, hw₁⟩, w₂, deleted, hsw, hrest⟩ := hw
  have hheld₁ : Held cfg tid i w₁ := by
    subst hw₁
    exact hheld.unattach hatt rfl rfl rfl rfl rfl rfl rfl
  have hpth : w₁.pth tid i = { w.pth tid i with attached := false } := by
    subst hw₁
    exact State.setPth_pth_self _ _ _ _
  have hfits₁ : (w₁.pth tid i).st ≠ .switch .done → Fits cfg tid (w₁.pth tid i) := by
    rw [hpth]
    intro hst
    exact hfits.resume hst rfl rfl hst fun hl => ⟨rfl, (hfits.left_running hl).2⟩
  have h₂ : Sound cfg w₂ ∧ (deleted = false → (w₂.thr tid).curThr = i + 1) := by
    cases hst : (w₁.pth tid i).st with
    | switch sw =>
        rw [hst] at hsw
        exact detachSw_sound hheld₁ (by rw [hpth]) hfits₁ hst hsw
    | none | running | sleeping =>
        rw [hst] at hsw
        obtain ⟨rfl, -⟩ := Prod.mk.inj (Option.some.inj hsw)
        exact ⟨hheld₁.release (hfits₁ (by simp [hst])), fun _ => hheld₁.top⟩
  split at hrest
  · obtain rfl := Option.some.inj hrest
    exact h₂.1
  · rename_i hdel
    simp only [Option.bind_eq_some_iff, cAssert_eq_some, exists_const] at hrest
    obtain ⟨-, hrest⟩ := hrest
    split at hrest
    · simp only [Option.bind_eq_some_iff, cAssert_eq_some, exists_const, Option.pure_def,
        Option.some.injEq, Prod.exists] at hrest
      obtain ⟨w₃, tret, hrun, -, rfl⟩ := hrest
      exact (doRunThread_sound hcfg h₂.1 (h₂.2 (by simpa using hdel)) hrun).1
    · obtain rfl := Option.some.inj hrest
      exact h₂.1

theorem doAwake_attached (w : State) (tid i : Nat) :
    ((doAwake w tid i).pth tid i).attached = (w.pth tid i).attached := by
  unfold doAwake
  dsimp only
  split
  · rw [State.setPth_pth_self]
  · rfl

/-- A joinable thread is only marked, and woken up. -/
theorem doCancel_attached (hatt : (w.pth tid i).attached = true) :
    doCancel cfg w tid i =
      some (doAwake (w.setPth tid i { w.pth tid i with cancelled := true }) tid i) := by
  unfold doCancel
  dsimp only
  rw [State.setPth_pth_self, if_pos hatt]

theorem shutdownThread_sound (hcfg : cfg.StartsOthers) (h : Sound cfg w)
    (htop : (w.thr tid).curThr = i + 1) (hatt : (w.pth tid i).attached = true)
    (hw : shutdownThread cfg w tid i = some w') : Sound cfg w' := by
  unfold shutdownThread at hw
  simp only [Option.bind_eq_bind, Option.bind_eq_some_iff] at hw
  obtain ⟨w₁, hcan, hdet⟩ := hw
  have h₁ := (doCancel_sound hcfg h htop hcan).1
  rw [doCancel_attached hatt] at hcan
  obtain rfl := Option.some.inj hcan
  refine doDetach_sound hcfg h₁ ?_ ?_ hdet
  · rw [doAwake_curThr, State.setPth_curThr]
    exact htop
  · rw [doAwake_attached, State.setPth_pth_self]
    exact hatt

theorem findAttached_eq_some {ts : List Nat} (h : findAttached w ts = some (some (tid, i))) :
    currentThr w tid = some i ∧ (w.pth tid i).attached = true := by
  induction ts with
  | nil => cases h
  | cons t ts ih =>
      simp only [findAttached, Option.bind_eq_bind, Option.bind_eq_some_iff] at h
      obtain ⟨j, hcur, hrest⟩ := h
      split at hrest
      · rename_i hatt
        simp only [Option.pure_def, Option.some.injEq, Prod.mk.injEq] at hrest
        obtain ⟨rfl, rfl⟩ := hrest
        exact ⟨hcur, hatt⟩
      · exact ih hrest

theorem coopthUnsafeShutdown_sound (hcfg : cfg.StartsOthers) {cur : Option Nat} {fuel : Nat}
    (h : Sound cfg w) (hw : coopthUnsafeShutdown cfg cur fuel w = some w') : Sound cfg w' := by
  induction fuel generalizing w with
  | zero => cases hw
  | succ fuel ih =>
      rw [coopthUnsafeShutdown] at hw
      simp only [Option.bind_eq_bind, Option.bind_eq_some_iff] at hw
      obtain ⟨found, hfind, hrest⟩ := hw
      cases found with
      | none =>
          obtain rfl := Option.some.inj hrest
          exact h
      | some x =>
          obtain ⟨tid, i⟩ := x
          simp only [Option.bind_eq_some_iff, cAssert_eq_some, exists_const] at hrest
          obtain ⟨-, w₁, hshut, hnext⟩ := hrest
          obtain ⟨hcur, hatt⟩ := findAttached_eq_some hfind
          exact ih (shutdownThread_sound hcfg h (currentThr_eq_some.1 hcur).1 hatt hshut) hnext

/-! ## Runs -/

/-- The calls of the scheduler's interface; `cur` is the thread that makes the
call. -/
inductive Op where
  | start (tid arg : Nat)
  | startCustom (tid arg : Nat)
  | callPost (tid : Nat)
  | runThread (tid : Nat)
  | run
  | wakeUp (tid : Nat)
  | cancel (cur : Option Nat) (tid : Nat)
  | unsafeDetach (tid : Nat)
  | unsafeShutdown (cur : Option Nat)

/-- A call that returns after loops of at most `fuel` rounds. -/
def Op.exec (cfg : Config) (fuel : Nat) (w : State) : Op → Option State
  | .start tid arg => (coopthStartInternal cfg w tid arg).map Prod.fst
  | .startCustom tid arg => (coopthStartCustomInternal cfg w tid arg).map Prod.fst
  | .callPost tid => coopthCallPostInternal cfg w tid
  | .runThread tid => (coopthRunThreadInternal cfg fuel w tid).map Prod.fst
  | .run => coopthRun cfg fuel w
  | .wakeUp tid => coopthWakeUp cfg w tid
  | .cancel cur tid => coopthCancel cfg cur w tid
  | .unsafeDetach tid => coopthUnsafeDetach cfg w tid
  | .unsafeShutdown cur => coopthUnsafeShutdown cfg cur fuel w

/-- The states in which code outside of coopth.c has control, and those between
two rounds of `thread_run`. -/
inductive Reachable (cfg : Config) : State → Prop
  | init : Reachable cfg {}
  | call {w w' : State} (o : Op) (fuel : Nat) : Reachable cfg w → o.exec cfg fuel w = some w' →
      Reachable cfg w'
  | round {w w' : State} {tid i ret : Nat} : Reachable cfg w → currentThr w tid = some i →
      threadRunOnce cfg w tid i = some (w', ret) → Reachable cfg w'
  /-- A body gets control. -/
  | enter {w : State} {tid i : Nat} : Reachable cfg w → currentThr w tid = some i →
      Reachable cfg (w.enter (w.pth tid i))
  /-- A body that has control makes a request that does not stop it. -/
  | request {w w' : State} {tid i : Nat} {r : Request} {rest : List Request} :
      Reachable cfg w → currentThr w tid = some i →
      r :: rest <:+ (w.pth tid i).thread.rest →
      doRequest cfg tid i rest w r = some (.goes w') → Reachable cfg w'

/-- Every call keeps the scheduler sound. -/
theorem exec_sound (hcfg : cfg.StartsOthers) {o : Op} {fuel : Nat} (h : Sound cfg w)
    (hw : o.exec cfg fuel w = some w') : Sound cfg w' := by
  cases o with
  | start tid arg =>
      simp only [Op.exec, Option.map_eq_some_iff] at hw
      obtain ⟨⟨w₁, ret⟩, hstart, rfl⟩ := hw
      exact (h.coopthStartInternal hstart).1
  | startCustom tid arg =>
      simp only [Op.exec, Option.map_eq_some_iff] at hw
      obtain ⟨⟨w₁, ret⟩, hstart, rfl⟩ := hw
      exact (h.coopthStartCustomInternal hstart).1
  | callPost tid =>
      simp only [Op.exec, coopthCallPostInternal, Option.bind_eq_bind, Option.bind_eq_some_iff,
        Option.pure_def, Option.some.injEq] at hw
      obtain ⟨-, -, -, -, rfl⟩ := hw
      exact h.setThr _ rfl
  | runThread tid =>
      simp only [Op.exec, coopthRunThreadInternal, Option.map_eq_some_iff, Option.bind_eq_bind,
        Option.bind_eq_some_iff, Option.pure_def, Option.some.injEq, Prod.exists,
        Prod.mk.injEq] at hw
      obtain ⟨_, _, ⟨-, -, i, hcur, -, -, w₁, ret, hrun, rfl, -⟩, rfl⟩ := hw
      exact (threadRun_sound hcfg h (currentThr_eq_some.1 hcur).1 hrun).1
  | run => exact coopthRun_sound hcfg h hw
  | wakeUp tid =>
      simp only [Op.exec, coopthWakeUp, Option.bind_eq_bind, Option.bind_eq_some_iff,
        Option.pure_def, Option.some.injEq] at hw
      obtain ⟨-, -, i, hcur, rfl⟩ := hw
      exact doAwake_sound h (currentThr_eq_some.1 hcur).1
  | cancel cur tid =>
      simp only [Op.exec, coopthCancel, Option.bind_eq_bind, Option.bind_eq_some_iff] at hw
      obtain ⟨-, -, i, hcur, hrest⟩ := hw
      split at hrest
      · simp only [Option.bind_eq_some_iff, Option.pure_def, Option.some.injEq] at hrest
        obtain ⟨-, -, rfl⟩ := hrest
        exact h
      · exact (doCancel_sound hcfg h (currentThr_eq_some.1 hcur).1 hrest).1
  | unsafeDetach tid =>
      simp only [Op.exec, coopthUnsafeDetach, Option.bind_eq_bind, Option.bind_eq_some_iff,
        cAssert_eq_some, exists_const] at hw
      obtain ⟨-, -, i, hcur, hatt, hdet⟩ := hw
      exact doDetach_sound hcfg h (currentThr_eq_some.1 hcur).1 hatt hdet
  | unsafeShutdown cur => exact coopthUnsafeShutdown_sound hcfg h hw

/-- No thread was ever started. -/
theorem init_sound (cfg : Config) : Sound cfg {} where
  acc := by
    have hcount : ∀ P, State.liveCount cfg {} P = 0 := by
      intro P
      unfold State.liveCount Stack.total
      exact Finset.sum_eq_zero fun t _ => rfl
    exact ⟨by simp, List.nodup_nil, by simp, by simp, (hcount _).symm, fun _ => (hcount _).symm,
      (hcount _).symm, by simp [State.pth]⟩
  notes := by
    intro n thr hmem
    cases hmem
  fits := by
    intro t j hj
    cases hj

/-- Every reachable state is sound. -/
theorem reachable_sound (hcfg : cfg.StartsOthers) (h : Reachable cfg w) : Sound cfg w := by
  induction h with
  | init => exact init_sound cfg
  | call o fuel _ hw ih => exact exec_sound hcfg ih hw
  | round _ hcur hw ih => exact (threadRunOnce_sound hcfg ih (currentThr_eq_some.1 hcur).1 hw).1
  | enter _ _ ih => exact ih.enter _
  | @request w w' tid i r rest _ hcur hsuf hw ih =>
      have htop := (currentThr_eq_some.1 hcur).1
      obtain ⟨arg, hbody⟩ := (ih.fits tid i (by omega) not_false).body
      have hmem : r ∈ cfg.func tid arg := (hsuf.trans hbody).subset List.mem_cons_self
      exact (ih.request_goes hcfg (by omega) hmem hw).1

/-- In every reachable state the counters count what they are meant to count:
`threads_joinable` is also the sum of `threads_cs` over the classes, and every
count the notifier was given is 0 exactly if there was no attached invocation of
class `CTCL_NORMAL` and no left one. -/
theorem accounting (hcfg : cfg.StartsOthers) (h : Reachable cfg w) :
    Accounted cfg w ∧ w.threadsJoinable = ∑ c, w.threadsCs c ∧
      (∀ n thr, Event.notify n thr ∈ w.log → (n = 0 ↔ Idle cfg thr)) ∧
      (w.threadsCs .normal + w.threadsLeft = 0 ↔ Idle cfg w.thr) := by
  have hs := reachable_sound hcfg h
  refine ⟨hs.acc, ?_, hs.notes, hs.acc.idle_iff⟩
  have hsum : ∑ c, w.threadsCs c = w.threadsCs .normal + w.threadsCs .persist :=
    Finset.sum_pair (by simp)
  rw [hsum, hs.acc.threads_joinable, hs.acc.threads_cs, hs.acc.threads_cs]
  unfold State.liveCount Stack.total Stack.weight
  rw [← Finset.sum_add_distrib]
  refine Finset.sum_congr rfl fun t _ => ?_
  rw [← Finset.sum_add_distrib]
  refine Finset.sum_congr rfl fun j _ => ?_
  unfold attachedOf
  dsimp only
  cases ((w.thr t).stack.slot j).attached <;> cases cfg.cls t <;> simp

/-- A thread that yields once, and another that starts it. -/
def twoThreads : Config where
  coopthNum := 2
  func tid _ := if tid = 0 then [.yield] else [.start 0 0, .sleep]
  detached _ := false
  cls _ := .normal

theorem twoThreads_startsOthers : twoThreads.StartsOthers := by
  intro tid arg r hr
  simp only [twoThreads] at hr
  split at hr
  · rename_i h
    simp only [List.mem_singleton] at hr
    subst hr
    simp [Request.starts]
  · rename_i h
    simp only [List.mem_cons, List.not_mem_nil, or_false] at hr
    rcases hr with rfl | rfl
    · simp [Request.starts, Ne.symm h]
    · simp [Request.starts]

/-- The first one yields, ends and is deleted while the other one sleeps. -/
theorem accounting_two :
    ∃ w, [.start 1 0, .runThread 1, .runThread 0, .runThread 0, .runThread 0].foldlM
      (fun w o => Op.exec twoThreads 9 w o) {} = some w ∧ w.activeTids = [1] ∧
        Accounted twoThreads w := by
  refine ⟨_, rfl, rfl, ?_⟩
  have hstarted : Reachable twoThreads _ := .call (.start 1 0) 9 .init rfl
  have hasleep : Reachable twoThreads _ := .call (.runThread 1) 9 hstarted rfl
  have hyielded : Reachable twoThreads _ := .call (.runThread 0) 9 hasleep rfl
  have hended : Reachable twoThreads _ := .call (.runThread 0) 9 hyielded rfl
  exact (accounting twoThreads_startsOthers (.call (.runThread 0) 9 hended rfl)).1

end Coopth
end Dosemu
