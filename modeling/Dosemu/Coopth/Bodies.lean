import Mathlib.Tactic
import Dosemu.Coopth.Accounting

/-!
# Running a thread body

A body runs on the top invocation of its tid until a request suspends it or it
ends.  Whatever it does on the way, it changes neither the flags that are
counted nor its place on the stack: it may start threads, but only other ones.

Main results:

- Theorem `runBody_held`: a body keeps the scheduler sound until it stops.
- Theorem `doRunThread_sound`: so does `do_run_thread`, with what it does about
  the reason why the body stopped.
-/

namespace Dosemu
namespace Coopth

open Function

variable {cfg : Config} {E : Nat → Nat → Prop} {w w' : State} {tid i : Nat} {p p' : PerThread}

/-! ## Starting a thread -/

theorem SoundBut.doStartInternal (h : SoundBut cfg E w) (htid : tid < cfg.coopthNum)
    {arg idx : Nat} (hw : doStartInternal cfg w tid arg = some (w', idx)) :
    SoundBut cfg E w' ∧ w'.log = w.log ∧ ∀ t, t ≠ tid → w'.thr t = w.thr t := by
  unfold Coopth.doStartInternal at hw
  simp only [Option.bind_eq_bind, Option.bind_eq_some_iff, Option.pure_def, Option.some.injEq,
    Prod.mk.injEq, Prod.exists] at hw
  obtain ⟨w₁, tn, hstart, w₂, hcall, rfl, -⟩ := hw
  obtain ⟨hs, rfl, hlog, hthr⟩ := h.doStart htid rfl (by simp) hstart
  have hne : ∀ t, t ≠ tid → w₁.thr t = w.thr t := by
    intro t ht
    rw [hthr, update_of_ne ht]
  by_cases hdet : cfg.detached tid
  · rw [if_pos hdet, Option.some.injEq] at hcall
    subst hcall
    exact ⟨hs, hlog, hne⟩
  · rw [if_neg hdet] at hcall
    have hnew : w₁.pth tid (w.thr tid).curThr =
        { st := .running, thread := .fresh (cfg.func tid arg) } := by
      unfold State.pth
      rw [hthr, update_self, Thr.push_pth, if_pos rfl]
    have hlt : (w.thr tid).curThr < (w₁.thr tid).curThr := by
      rw [hthr, update_self]
      exact Nat.lt_succ_self _
    refine ⟨hs.coopthCallf hlt ?_ hcall, ?_, ?_⟩
    · intro _
      rw [hnew]
      exact Fits.fresh cfg tid arg rfl true
    · obtain ⟨-, rfl⟩ := coopthCallf_eq_some.1 hcall
      exact hlog
    · intro t ht
      obtain ⟨-, rfl⟩ := coopthCallf_eq_some.1 hcall
      rw [← hne t ht]
      exact update_of_ne ht _ _

theorem SoundBut.coopthStartInternal (h : SoundBut cfg E w) {arg : Nat} {ret : CstartRet}
    (hw : coopthStartInternal cfg w tid arg = some (w', ret)) :
    SoundBut cfg E w' ∧ w'.log = w.log ∧ ∀ t, t ≠ tid → w'.thr t = w.thr t := by
  unfold Coopth.coopthStartInternal checkTid at hw
  simp only [Option.bind_eq_bind, Option.bind_eq_some_iff, Option.pure_def, Option.some.injEq,
    Prod.mk.injEq, Prod.exists, exists_const,
    cAssert_eq_some] at hw
  obtain ⟨htid, w₁, idx, hstart, rfl, -⟩ := hw
  have hset := h.setThr { w.thr tid with custom := false } rfl
  obtain ⟨hs, hlog, hne⟩ := hset.doStartInternal htid hstart
  refine ⟨hs, hlog, fun t ht => ?_⟩
  rw [hne t ht]
  exact update_of_ne ht _ _

theorem SoundBut.coopthStartCustomInternal (h : SoundBut cfg E w) {arg idx : Nat}
    (hw : coopthStartCustomInternal cfg w tid arg = some (w', idx)) :
    SoundBut cfg E w' ∧ w'.log = w.log ∧ ∀ t, t ≠ tid → w'.thr t = w.thr t := by
  unfold Coopth.coopthStartCustomInternal checkTid at hw
  simp only [Option.bind_eq_bind, Option.bind_eq_some_iff, cAssert_eq_some, exists_const] at hw
  obtain ⟨htid, -, hstart⟩ := hw
  have hset := h.setThr { w.thr tid with custom := true } rfl
  obtain ⟨hs, hlog, hne⟩ := hset.doStartInternal htid hstart
  refine ⟨hs, hlog, fun t ht => ?_⟩
  rw [hne t ht]
  exact update_of_ne ht _ _

/-! ## What a body leaves alone -/

/-- The tid that a request starts. -/
def Request.starts : Request → Option Nat
  | .start t _ | .startCustom t _ => some t
  | _ => none

variable (cfg) in
/-- No body starts its own tid. -/
def Config.StartsOthers : Prop :=
  ∀ tid arg, ∀ r ∈ cfg.func tid arg, r.starts ≠ some tid

variable (cfg) in
/-- No body disables cancellation. -/
def Config.NeverDisables : Prop :=
  ∀ tid arg, Request.cancelDisable ∉ cfg.func tid arg

variable (cfg) in
/-- How an invocation has changed when its body stops with `ret`. -/
structure Stopped (tid : Nat) (p p' : PerThread) (ret : CoopthRet) : Prop where
  attached : p'.attached = p.attached
  left : p'.left = p.left
  cancelled : p'.cancelled = p.cancelled
  st : p'.st = p.st
  body : ∃ arg, p'.thread.rest <:+ cfg.func tid arg
  enabled : cfg.NeverDisables → p'.cancDisabled = false
  exited_iff : p'.thread = .exited ↔ ret = .done
  not_left : ret ≠ .done → p.left = false
  ne_delete : ret ≠ .delete

variable (cfg) in
/-- What a request that does not stop the body leaves alone. -/
structure Kept (p q : PerThread) : Prop where
  attached : q.attached = p.attached
  left : q.left = p.left
  cancelled : q.cancelled = p.cancelled
  st : q.st = p.st
  thread : q.thread = p.thread
  enabled : (cfg.NeverDisables → p.cancDisabled = false) →
    cfg.NeverDisables → q.cancDisabled = false

theorem Kept.refl (p : PerThread) : Kept cfg p p :=
  ⟨rfl, rfl, rfl, rfl, rfl, id⟩

/-- A body that stops after requests that did not stop it. -/
theorem Stopped.of_kept {q : PerThread} {ret : CoopthRet} (h : Stopped cfg tid q p' ret)
    (hq : Kept cfg p q) : Stopped cfg tid p p' ret where
  attached := h.attached.trans hq.attached
  left := h.left.trans hq.left
  cancelled := h.cancelled.trans hq.cancelled
  st := h.st.trans hq.st
  body := h.body
  enabled := h.enabled
  exited_iff := h.exited_iff
  not_left := fun hret => hq.left ▸ h.not_left hret
  ne_delete := h.ne_delete

/-- An invocation stays in order. -/
theorem Fits.kept {q : PerThread} (h : Fits cfg tid p) (hq : Kept cfg p q) : Fits cfg tid q where
  body := by
    rw [hq.thread]
    exact h.body
  left_running := by
    rw [hq.left, hq.attached, hq.st]
    exact h.left_running
  exited_iff := by
    rw [hq.thread, hq.st]
    exact h.exited_iff
  done_attached := by
    rw [hq.st, hq.attached]
    exact h.done_attached
  enabled := hq.enabled h.enabled

theorem switchState_eq_some {r : Request} {rest : List Request} :
    switchState w tid i r rest = some w' ↔
      ((w.pth tid i).cancelled = false ∨ (w.pth tid i).cancDisabled = true) ∧
      (w.pth tid i).left = false ∧
      w' = w.setPth tid i { w.pth tid i with thread := .inside r rest } := by
  unfold switchState
  simp only [Option.bind_eq_bind, Option.bind_eq_some_iff, cAssert_eq_some, exists_const,
    Option.pure_def, Option.some.injEq]
  exact and_congr_right fun _ => and_congr_right fun _ => eq_comm

/-- A body that is suspended. -/
theorem Held.switchState (h : Held cfg tid i w) {r : Request} {rest : List Request}
    {ret : CoopthRet} (hbody : ∃ arg, rest <:+ cfg.func tid arg)
    (hen : cfg.NeverDisables → (w.pth tid i).cancDisabled = false)
    (hret : ret ≠ .done ∧ ret ≠ .delete) (hw : switchState w tid i r rest = some w') :
    Held cfg tid i w' ∧ Stopped cfg tid (w.pth tid i) (w'.pth tid i) ret := by
  obtain ⟨-, hleft, rfl⟩ := switchState_eq_some.1 hw
  refine ⟨h.setPth h.st_ne_none rfl rfl, ?_⟩
  rw [State.setPth_pth_self]
  exact ⟨rfl, rfl, rfl, rfl, hbody, hen, by simp [hret.1], fun _ => hleft, hret.2⟩

/-- A body that has ended. -/
theorem Held.exit (h : Held cfg tid i w)
    (hen : cfg.NeverDisables → (w.pth tid i).cancDisabled = false) :
    Held cfg tid i (w.exit tid i) ∧
      Stopped cfg tid (w.pth tid i) ((w.exit tid i).pth tid i) .done := by
  unfold State.exit
  refine ⟨h.setPth h.st_ne_none rfl rfl, ?_⟩
  rw [State.setPth_pth_self]
  exact ⟨rfl, rfl, rfl, rfl, ⟨0, List.nil_suffix⟩, hen, by simp, by simp, by simp⟩

/-! ## One request -/

/-- The body goes on with its own flags changed. -/
theorem SoundBut.setKept (h : SoundBut cfg E w) (hi : i < (w.thr tid).curThr)
    (hq : Kept cfg (w.pth tid i) p) :
    SoundBut cfg E (w.setPth tid i p) ∧
      ((w.setPth tid i p).thr tid).curThr = (w.thr tid).curThr ∧
      Kept cfg (w.pth tid i) ((w.setPth tid i p).pth tid i) := by
  refine ⟨h.setPth hi ?_ (fun hE => (h.fits tid i hi hE).kept hq) hq.attached hq.left, ?_, ?_⟩
  · rw [hq.st]
    exact (h.acc.st_ne_none tid i).2 hi
  · exact State.setPth_curThr _ _ _ _ _
  · rw [State.setPth_pth_self]
    exact hq

/-- A request after which the body goes on keeps the scheduler sound. -/
theorem SoundBut.request_goes (hcfg : cfg.StartsOthers) (h : SoundBut cfg E w)
    (hi : i < (w.thr tid).curThr) {r : Request} {rest : List Request} {arg : Nat}
    (hmem : r ∈ cfg.func tid arg) (hw : doRequest cfg tid i rest w r = some (.goes w')) :
    SoundBut cfg E w' ∧ (w'.thr tid).curThr = (w.thr tid).curThr ∧
      Kept cfg (w.pth tid i) (w'.pth tid i) := by
  have he : SoundBut cfg E (w.emit (.request tid i r)) := h.emit (by simp)
  have hskip : some (Next.goes (w.emit (.request tid i r))) = some (Next.goes w') →
      SoundBut cfg E w' ∧ (w'.thr tid).curThr = (w.thr tid).curThr ∧
        Kept cfg (w.pth tid i) (w'.pth tid i) := by
    rintro ⟨⟩
    exact ⟨he, rfl, Kept.refl _⟩
  have hstart : ∀ {t : Nat}, r.starts = some t → SoundBut cfg E w' →
      (∀ u, u ≠ t → w'.thr u = w.thr u) →
      SoundBut cfg E w' ∧ (w'.thr tid).curThr = (w.thr tid).curThr ∧
        Kept cfg (w.pth tid i) (w'.pth tid i) := by
    intro t hr hs hne
    have ht : tid ≠ t := fun ht => hcfg tid arg r hmem (ht ▸ hr)
    unfold State.pth
    rw [hne tid ht]
    exact ⟨hs, rfl, Kept.refl _⟩
  cases r with
  | yield | sleep => simp [doRequest] at hw
  | wait | sched =>
      simp only [doRequest] at hw
      split at hw <;> simp at hw
  | attach | detach | leave | abandon =>
      simp only [doRequest] at hw
      split at hw
      all_goals first | exact hskip hw | simp at hw
  | exit => simp [doRequest] at hw
  | start t a =>
      simp only [doRequest, Option.map_eq_some_iff, Next.goes.injEq] at hw
      obtain ⟨⟨w₁, _⟩, hst, rfl⟩ := hw
      obtain ⟨hs, -, hne⟩ := he.coopthStartInternal hst
      exact hstart rfl hs hne
  | startCustom t a =>
      simp only [doRequest, Option.map_eq_some_iff, Next.goes.injEq] at hw
      obtain ⟨⟨w₁, _⟩, hst, rfl⟩ := hw
      obtain ⟨hs, -, hne⟩ := he.coopthStartCustomInternal hst
      exact hstart rfl hs hne
  | setCleanupHandler =>
      simp only [doRequest, Option.some.injEq, Next.goes.injEq] at hw
      subst hw
      exact he.setKept hi ⟨rfl, rfl, rfl, rfl, rfl, id⟩
  | cancelDisable =>
      simp only [doRequest, Option.some.injEq, Next.goes.injEq] at hw
      subst hw
      exact he.setKept hi ⟨rfl, rfl, rfl, rfl, rfl, fun _ hnever => absurd hmem (hnever tid arg)⟩
  | cancelEnable =>
      simp only [doRequest, Option.some.injEq, Next.goes.injEq] at hw
      subst hw
      exact he.setKept hi ⟨rfl, rfl, rfl, rfl, rfl, fun _ _ => rfl⟩

/-- A request that stops the body keeps the scheduler sound. -/
theorem Held.request_stops (h : Held cfg tid i w) {r : Request} {rest : List Request}
    {ret : CoopthRet} (hbody : ∃ arg, rest <:+ cfg.func tid arg)
    (hen : cfg.NeverDisables → (w.pth tid i).cancDisabled = false)
    (hw : doRequest cfg tid i rest w r = some (.stops w' ret)) :
    Held cfg tid i w' ∧ Stopped cfg tid (w.pth tid i) (w'.pth tid i) ret := by
  have he : Held cfg tid i (w.emit (.request tid i r)) := h.emit (by simp)
  have hsuspend : ∀ {ret' : CoopthRet}, ret' ≠ .done ∧ ret' ≠ .delete →
      (Coopth.switchState (w.emit (.request tid i r)) tid i r rest).map (Next.stops · ret') =
        some (.stops w' ret) →
      Held cfg tid i w' ∧ Stopped cfg tid (w.pth tid i) (w'.pth tid i) ret := by
    intro ret' hret hsw
    simp only [Option.map_eq_some_iff, Next.stops.injEq] at hsw
    obtain ⟨w₁, hsw, rfl, rfl⟩ := hsw
    exact he.switchState hbody hen hret hsw
  cases r with
  | yield | sleep => exact hsuspend (by decide) hw
  | wait | sched =>
      simp only [doRequest] at hw
      split at hw
      · exact hsuspend (by decide) hw
      · cases hw
  | attach | detach | leave =>
      simp only [doRequest] at hw
      split at hw
      all_goals first | exact hsuspend (by decide) hw | simp at hw
  | abandon =>
      simp only [doRequest] at hw
      split at hw
      · simp at hw
      · simp only [Option.map_eq_some_iff, Next.stops.injEq] at hw
        obtain ⟨w₁, hsw, rfl, rfl⟩ := hw
        let flag := if (w.pth tid i).attached then (w.pth tid i).atomicSwitch else true
        let q := { w.pth tid i with atomicSwitch := flag }
        have hself := State.setPth_pth_self (w.emit (.request tid i .abandon)) tid i q
        have hq : Held cfg tid i ((w.emit (.request tid i .abandon)).setPth tid i q) :=
          he.setPth h.st_ne_none rfl rfl
        have hret : CoopthRet.leave ≠ .done ∧ CoopthRet.leave ≠ .delete := by decide
        obtain ⟨hheld, hstop⟩ := hq.switchState hbody (by rwa [hself]) hret hsw
        rw [hself] at hstop
        exact ⟨hheld, hstop.of_kept ⟨rfl, rfl, rfl, rfl, rfl, id⟩⟩
  | exit =>
      simp only [doRequest, Option.some.injEq, Next.stops.injEq] at hw
      obtain ⟨rfl, rfl⟩ := hw
      exact he.exit hen
  | start | startCustom => simp [doRequest] at hw
  | setCleanupHandler | cancelDisable | cancelEnable => simp [doRequest] at hw

/-! ## A body until it stops -/

/-- A body keeps the scheduler sound until it stops. -/
theorem runBody_held (hcfg : cfg.StartsOthers) {rs : List Request} {ret : CoopthRet}
    (h : Held cfg tid i w) (hbody : ∃ arg, rs <:+ cfg.func tid arg)
    (hen : cfg.NeverDisables → (w.pth tid i).cancDisabled = false)
    (hw : runBody cfg tid i w rs = some (w', ret)) :
    Held cfg tid i w' ∧ Stopped cfg tid (w.pth tid i) (w'.pth tid i) ret := by
  induction rs generalizing w with
  | nil =>
      rw [runBody, Option.some.injEq, Prod.mk.injEq] at hw
      obtain ⟨rfl, rfl⟩ := hw
      exact h.exit hen
  | cons r rest ih =>
      obtain ⟨arg, hsuf⟩ := hbody
      have hrest : ∃ arg, rest <:+ cfg.func tid arg :=
        ⟨arg, (List.suffix_cons r rest).trans hsuf⟩
      rw [runBody] at hw
      split at hw
      · cases hw
      · rename_i w₁ hreq
        obtain ⟨hs, hcur, hkept⟩ :=
          h.sound.request_goes hcfg h.lt (hsuf.subset List.mem_cons_self) hreq
        obtain ⟨hheld, hstop⟩ := ih ⟨hs, hcur.trans h.top⟩ hrest (hkept.enabled hen) hw
        exact ⟨hheld, hstop.of_kept hkept⟩
      · rename_i w₁ ret₁ hreq
        rw [Option.some.injEq, Prod.mk.injEq] at hw
        obtain ⟨rfl, rfl⟩ := hw
        exact h.request_stops hrest hen hreq

/-- The thread is resumed and runs until it stops. -/
theorem coCall_held (hcfg : cfg.StartsOthers) {ret : CoopthRet} (h : Held cfg tid i w)
    (hfits : Fits cfg tid (w.pth tid i)) (hw : coCall cfg w tid i = some (w', ret)) :
    Held cfg tid i w' ∧ Stopped cfg tid (w.pth tid i) (w'.pth tid i) ret := by
  have hbody := hfits.body
  cases hthread : (w.pth tid i).thread with
  | fresh body =>
      rw [hthread] at hbody
      simp only [coCall, hthread] at hw
      split at hw
      · rw [Option.some.injEq, Prod.mk.injEq] at hw
        obtain ⟨rfl, rfl⟩ := hw
        exact h.exit hfits.enabled
      · exact runBody_held hcfg h hbody hfits.enabled hw
  | inside r rest =>
      rw [hthread] at hbody
      simp only [coCall, hthread] at hw
      split at hw
      · rw [Option.some.injEq, Prod.mk.injEq] at hw
        obtain ⟨rfl, rfl⟩ := hw
        unfold cancelJump
        split
        · exact (h.emit (by simp)).exit hfits.enabled
        · exact h.exit hfits.enabled
      · exact runBody_held hcfg h hbody hfits.enabled hw
  | exited =>
      simp only [coCall, hthread] at hw
      cases hw

/-- `do_call` asks for the deletion of a detached thread that has ended. -/
theorem doCall_eq_some {ret : CoopthRet} :
    doCall cfg w tid i = some (w', ret) ↔ ∃ r, coCall cfg w tid i = some (w', r) ∧
      ret = if r = .done ∧ (w'.pth tid i).attached = false then .delete else r := by
  unfold doCall
  simp only [Option.bind_eq_bind, Option.bind_eq_some_iff, Option.pure_def, Option.some.injEq,
    Prod.mk.injEq, Prod.exists]
  constructor
  · rintro ⟨w₁, r, hcall, rfl, rfl⟩
    exact ⟨r, hcall, rfl⟩
  · rintro ⟨r, hcall, rfl⟩
    exact ⟨w', r, hcall, rfl, rfl⟩

/-- An invocation whose body has stopped is in order once its state says why. -/
theorem Stopped.fits {ret : CoopthRet} (h : Stopped cfg tid p p' ret) {st : CoopthState} {a : Bool}
    (hst : st = .switch .done ↔ ret = .done) (hleft : p'.left = false)
    (hdone : ret = .done → a = true) : Fits cfg tid { p' with st := st, attached := a } where
  body := h.body
  left_running hl := by
    rw [hleft] at hl
    cases hl
  exited_iff := h.exited_iff.trans hst.symm
  done_attached hd := hdone (hst.1 hd)
  enabled := h.enabled

/-- The reason why the body stopped is left behind in the state. -/
theorem Held.pend (h : Held cfg tid i w) {ret : CoopthRet}
    (hstop : Stopped cfg tid p (w.pth tid i) ret) {st : CoopthState}
    (hst : st = .switch .done ↔ ret = .done) (hne : st ≠ .none)
    (hleft : (w.pth tid i).left = false) (hdone : ret = .done → (w.pth tid i).attached = true) :
    Sound cfg (w.setPth tid i { w.pth tid i with st := st }) := by
  refine (h.setPth (p := { w.pth tid i with st := st }) hne rfl rfl).release ?_
  rw [State.setPth_pth_self]
  exact hstop.fits hst hleft hdone

/-- `do_run_thread` keeps the scheduler sound. -/
theorem doRunThread_sound (hcfg : cfg.StartsOthers) {ret : CoopthRet} (h : Sound cfg w)
    (htop : (w.thr tid).curThr = i + 1) (hw : doRunThread cfg w tid i = some (w', ret)) :
    Sound cfg w' ∧ (w'.thr tid).curThr ≤ i + 1 := by
  have hheld := h.hold htop
  have hfits := h.fits tid i hheld.lt not_false
  unfold doRunThread at hw
  simp only [Option.bind_eq_bind, Option.bind_eq_some_iff, Prod.exists] at hw
  obtain ⟨w₁, r, hcall, hrest⟩ := hw
  obtain ⟨r₀, hco, hr⟩ := doCall_eq_some.1 hcall
  obtain ⟨hheld₁, hstop⟩ := coCall_held hcfg hheld hfits hco
  by_cases hend : r₀ = .done ∧ (w₁.pth tid i).attached = false
  · rw [if_pos hend] at hr
    subst hr
    simp only [Option.bind_eq_some_iff, cAssert_eq_some, exists_const, Option.pure_def,
      Option.some.injEq, Prod.mk.injEq] at hrest
    obtain ⟨hatt, w₂, hdel, rfl, -⟩ := hrest
    obtain ⟨-, rfl⟩ := (doDelThread_eq_some hheld₁.sound.acc hheld₁.top).1 hdel
    refine ⟨hheld₁.deleted hatt, ?_⟩
    rw [State.deleted_thr_self]
    have htop₁ := hheld₁.top
    change (w₁.thr tid).curThr - 1 ≤ i + 1
    omega
  · rw [if_neg hend] at hr
    subst hr
    have hdone : r = .done → (w₁.pth tid i).attached = true := by
      intro hr
      simpa [hr] using hend
    have hleft : (w₁.pth tid i).left = false := by
      rw [hstop.left]
      by_cases hr : r = .done
      · by_contra hl
        have hatt := hdone hr
        rw [hstop.attached, (hfits.left_running (by simpa using hl)).1] at hatt
        cases hatt
      · exact hstop.not_left hr
    have hpend : ∀ st : CoopthState, (st = .switch .done ↔ r = .done) → st ≠ .none →
        Sound cfg (w₁.setPth tid i { w₁.pth tid i with st := st }) ∧
          ((w₁.setPth tid i { w₁.pth tid i with st := st }).thr tid).curThr ≤ i + 1 := by
      intro st hst hne
      refine ⟨hheld₁.pend hstop hst hne hleft hdone, ?_⟩
      rw [State.setPth_curThr, hheld₁.top]
    cases r with
    | delete => exact absurd rfl hstop.ne_delete
    | attach =>
        simp only [Option.bind_eq_some_iff, Option.pure_def, Option.some.injEq,
          Prod.mk.injEq] at hrest
        obtain ⟨w₂, hcallf, rfl, -⟩ := hrest
        have hs := hheld₁.sound.coopthCallf hheld₁.lt (fun hE => absurd ⟨rfl, rfl⟩ hE) hcallf
        obtain ⟨-, hw₂⟩ := coopthCallf_eq_some.1 hcallf
        have hpth : w₂.pth tid i = { w₁.pth tid i with attached := true } := by
          rw [hw₂, State.setPth_pth_self]
        have htop₂ : (w₂.thr tid).curThr = i + 1 := by
          rw [hw₂, State.setPth_curThr]
          exact hheld₁.top
        have hheld₂ : Held cfg tid i w₂ := ⟨hs, htop₂⟩
        refine ⟨(hheld₂.setPth (p := { w₂.pth tid i with st := .switch .attach }) (by simp)
          rfl rfl).release ?_, ?_⟩
        · rw [State.setPth_pth_self, hpth]
          exact hstop.fits (by simp) hleft (by simp)
        · rw [State.setPth_curThr, htop₂]
    | _ =>
        simp only [Option.pure_def, Option.some.injEq, Prod.mk.injEq] at hrest
        obtain ⟨rfl, -⟩ := hrest
        exact hpend _ (by simp) (by simp)

end Coopth
end Dosemu
