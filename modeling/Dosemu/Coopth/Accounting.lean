import Mathlib.Tactic
import Dosemu.Coopth.Model

/-!
# The counters of the cooperative scheduler

coopth.c keeps `threads_total`, `threads_joinable`, `threads_cs`, `threads_left`
and `active_tids` beside the stacks of invocations, and changes them in many
places.  `Accounted` says what they count.  `SoundBut` adds what is known of
each invocation, with an exception for the ones that are being worked on; each
piece of the scheduler is shown to keep it.

Main results:

- Theorem `SoundBut.set`: overwriting a live invocation and correcting the
  counters accordingly keeps the scheduler sound.
- Theorems `SoundBut.doStart` and `Held.deleted`: a new invocation, and the end
  of the top one.
- Theorem `Accounted.idle_iff`: what the count for the notifier says.
-/

namespace Dosemu
namespace Coopth

open Function Finset

variable (cfg : Config)

/-! ## What is counted -/

/-- The number of live invocations that meet a condition. -/
def State.liveCount (w : State) (P : Nat → PerThread → Bool) : Int :=
  Stack.total (range cfg.coopthNum) (fun t p => (P t p).toInt) fun t => (w.thr t).stack

/-- Attached invocations of a class. -/
def attachedOf (c : ThreadClass) (t : Nat) (p : PerThread) : Bool :=
  p.attached && cfg.cls t = c

/-- The counters count what they are meant to count. -/
structure Accounted (w : State) : Prop where
  threads_total : w.threadsTotal = ∑ t ∈ range cfg.coopthNum, ((w.thr t).curThr : Int)
  active_nodup : w.activeTids.Nodup
  mem_active : ∀ t, t ∈ w.activeTids ↔ 0 < (w.thr t).curThr
  tid_lt : ∀ t, 0 < (w.thr t).curThr → t < cfg.coopthNum
  threads_joinable : w.threadsJoinable = w.liveCount cfg fun _ p => p.attached
  threads_cs : ∀ c, w.threadsCs c = w.liveCount cfg (attachedOf cfg c)
  threads_left : w.threadsLeft = w.liveCount cfg fun _ p => p.left
  st_ne_none : ∀ t i, (w.pth t i).st ≠ .none ↔ i < (w.thr t).curThr

/-- No attached invocation of class `CTCL_NORMAL` and no left one. -/
def Idle (thr : Nat → Thr) : Prop :=
  ∀ t < cfg.coopthNum, ∀ i < (thr t).curThr,
    ¬(((thr t).pth i).attached = true ∧ cfg.cls t = .normal) ∧ ((thr t).pth i).left = false

/-- Every count the notifier was given is 0 exactly when there was nothing to
wait for. -/
def NotesRight (w : State) : Prop :=
  ∀ n thr, Event.notify n thr ∈ w.log → (n = 0 ↔ Idle cfg thr)

/-- What holds of an invocation that no code is working on. -/
structure Fits (t : Nat) (p : PerThread) : Prop where
  body : ∃ arg, p.thread.rest <:+ cfg.func t arg
  left_running : p.left = true → p.attached = false ∧ p.st = .running
  exited_iff : p.thread = .exited ↔ p.st = .switch .done
  done_attached : p.st = .switch .done → p.attached = true
  enabled : (∀ t arg, Request.cancelDisable ∉ cfg.func t arg) → p.cancDisabled = false

/-- The scheduler is sound, except for the invocations in `E`. -/
structure SoundBut (E : Nat → Nat → Prop) (w : State) : Prop where
  acc : Accounted cfg w
  notes : NotesRight cfg w
  fits : ∀ t i, i < (w.thr t).curThr → ¬E t i → Fits cfg t (w.pth t i)

/-- The scheduler is sound, and no invocation is being worked on. -/
abbrev Sound (w : State) : Prop :=
  SoundBut cfg (fun _ _ => False) w

/-- The scheduler is sound, except for the top invocation `i` of `tid`. -/
structure Held (tid i : Nat) (w : State) : Prop where
  sound : SoundBut cfg (fun t j => t = tid ∧ j = i) w
  top : (w.thr tid).curThr = i + 1

variable {cfg} {E : Nat → Nat → Prop} {w w' : State} {tid i : Nat} {p : PerThread}

/-! ## Reading a changed state -/

namespace State

@[simp]
theorem setThr_thr (w : State) (tid : Nat) (th : Thr) :
    (w.setThr tid th).thr = update w.thr tid th :=
  rfl

@[simp]
theorem setPth_curThr (w : State) (tid i t : Nat) (p : PerThread) :
    ((w.setPth tid i p).thr t).curThr = (w.thr t).curThr := by
  unfold setPth
  rw [setThr_thr, update_apply]
  split
  · rename_i h
    rw [h]
  · rfl

@[simp]
theorem setPth_pth_self (w : State) (tid i : Nat) (p : PerThread) :
    (w.setPth tid i p).pth tid i = p := by
  simp [setPth, pth]

@[simp]
theorem setPth_setPth (w : State) (tid i : Nat) (p q : PerThread) :
    (w.setPth tid i p).setPth tid i q = w.setPth tid i q := by
  simp [setPth, setThr]

/-- The stacks after one of them has been replaced. -/
theorem stack_update (thr : Nat → Thr) (tid : Nat) (th : Thr) :
    (fun t => (update thr tid th t).stack) = update (fun t => (thr t).stack) tid th.stack := by
  ext1 t
  exact apply_update (fun _ => Thr.stack) thr tid th t

end State

/-- The number of live invocations of one tid that meet a condition. -/
def Thr.count (P : PerThread → Bool) (th : Thr) : Int :=
  Stack.weight (fun p => (P p).toInt) th.stack

/-- Replacing one tid exchanges its part of a count. -/
theorem State.liveCount_update {P : Nat → PerThread → Bool} {th : Thr}
    (htid : tid < cfg.coopthNum) (hthr : w'.thr = update w.thr tid th) :
    w'.liveCount cfg P = w.liveCount cfg P - (w.thr tid).count (P tid) + th.count (P tid) := by
  unfold liveCount Thr.count
  rw [hthr, stack_update, Stack.total_update (mem_range.2 htid)]

/-! ## One tid changes -/

/-- The counters keep counting when the invocations of one tid are replaced and
they are corrected by the difference. -/
theorem Accounted.replace {th : Thr} (h : Accounted cfg w) (htid : tid < cfg.coopthNum)
    (hthr : w'.thr = update w.thr tid th) (hst : ∀ j, (th.pth j).st ≠ .none ↔ j < th.curThr)
    (hnodup : w'.activeTids.Nodup) (hself : tid ∈ w'.activeTids ↔ 0 < th.curThr)
    (hmem : ∀ t, t ≠ tid → (t ∈ w'.activeTids ↔ t ∈ w.activeTids))
    (htot : w'.threadsTotal = w.threadsTotal - (w.thr tid).curThr + th.curThr)
    (hj : w'.threadsJoinable =
      w.threadsJoinable - (w.thr tid).count (·.attached) + th.count (·.attached))
    (hcs : ∀ c, w'.threadsCs c = w.threadsCs c - (w.thr tid).count (attachedOf cfg c tid) +
      th.count (attachedOf cfg c tid))
    (hl : w'.threadsLeft = w.threadsLeft - (w.thr tid).count (·.left) + th.count (·.left)) :
    Accounted cfg w' := by
  have heq : w'.thr tid = th := by rw [hthr, update_self]
  have hne : ∀ t, t ≠ tid → w'.thr t = w.thr t := by
    intro t ht
    rw [hthr, update_of_ne ht]
  constructor
  · have hsum := Stack.sum_exchange (mem_range.2 htid) (f := fun t => ((w.thr t).curThr : Int))
      (g := fun t => ((w'.thr t).curThr : Int)) (fun t _ ht => by rw [hne t ht])
    rw [htot, hsum, h.threads_total, heq]
  · exact hnodup
  · intro t
    by_cases ht : t = tid
    · rw [ht, hself, heq]
    · rw [hmem t ht, hne t ht]
      exact h.mem_active t
  · intro t hpos
    by_cases ht : t = tid
    · rw [ht]
      exact htid
    · rw [hne t ht] at hpos
      exact h.tid_lt t hpos
  · rw [hj, h.threads_joinable, State.liveCount_update htid hthr]
  · intro c
    rw [hcs, h.threads_cs, State.liveCount_update htid hthr]
  · rw [hl, h.threads_left, State.liveCount_update htid hthr]
  · intro t j
    unfold State.pth
    by_cases ht : t = tid
    · rw [ht, heq]
      exact hst j
    · rw [hne t ht]
      exact h.st_ne_none t j

/-- The scheduler stays sound when the invocations of one tid are replaced by
others that are in order. -/
theorem SoundBut.replace {th : Thr} {F : Nat → Nat → Prop} (h : SoundBut cfg E w)
    (hacc : Accounted cfg w') (hnotes : NotesRight cfg w') (hthr : w'.thr = update w.thr tid th)
    (hE : ∀ t j, t ≠ tid → E t j → F t j)
    (hfits : ∀ j, j < th.curThr → ¬F tid j → Fits cfg tid (th.pth j)) : SoundBut cfg F w' := by
  refine ⟨hacc, hnotes, ?_⟩
  intro t j hj hF
  unfold State.pth
  by_cases ht : t = tid
  · subst ht
    rw [hthr, update_self] at hj ⊢
    exact hfits j hj hF
  · rw [hthr, update_of_ne ht] at hj ⊢
    exact h.fits t j hj fun hEt => hF (hE t j ht hEt)

theorem Accounted.lt_num (h : Accounted cfg w) (hi : i < (w.thr tid).curThr) :
    tid < cfg.coopthNum :=
  h.tid_lt tid (by omega)

/-! ## One invocation is overwritten -/

/-- A tid of which one invocation is overwritten. -/
def Thr.set (th : Thr) (i : Nat) (p : PerThread) : Thr :=
  { th with pth := update th.pth i p }

theorem Thr.count_set (P : PerThread → Bool) (th : Thr) (hi : i < th.curThr) :
    (th.set i p).count P = th.count P - (P (th.pth i)).toInt + (P p).toInt :=
  Stack.weight_set (fun p => (P p).toInt) th.stack hi p

theorem Thr.count_set_of_le (P : PerThread → Bool) (th : Thr) (hi : th.curThr ≤ i) :
    (th.set i p).count P = th.count P :=
  Stack.weight_set_of_le (fun p => (P p).toInt) th.stack hi p

theorem Thr.set_pth (th : Thr) (i j : Nat) (p : PerThread) :
    (th.set i p).pth j = if j = i then p else th.pth j :=
  update_apply _ _ _ _

/-- Overwriting a live invocation and correcting the counters accordingly keeps
the scheduler sound. -/
theorem SoundBut.set (h : SoundBut cfg E w) (hi : i < (w.thr tid).curThr) (hst : p.st ≠ .none)
    (hp : ¬E tid i → Fits cfg tid p) (hthr : w'.thr = (w.setPth tid i p).thr)
    (hact : w'.activeTids = w.activeTids) (htot : w'.threadsTotal = w.threadsTotal)
    (hlog : w'.log = w.log)
    (hj : w'.threadsJoinable =
      w.threadsJoinable - (w.pth tid i).attached.toInt + p.attached.toInt)
    (hcs : ∀ c, w'.threadsCs c =
      w.threadsCs c - (attachedOf cfg c tid (w.pth tid i)).toInt + (attachedOf cfg c tid p).toInt)
    (hl : w'.threadsLeft = w.threadsLeft - (w.pth tid i).left.toInt + p.left.toInt) :
    SoundBut cfg E w' := by
  have hthr' : w'.thr = update w.thr tid ((w.thr tid).set i p) := hthr
  have hacc : Accounted cfg w' := by
    refine h.acc.replace (h.acc.lt_num hi) hthr' ?_ ?_ ?_ ?_ ?_ ?_ ?_ ?_
    · intro j
      rw [Thr.set_pth]
      split
      · rename_i hji
        subst hji
        exact ⟨fun _ => hi, fun _ => hst⟩
      · exact h.acc.st_ne_none tid j
    · rw [hact]
      exact h.acc.active_nodup
    · rw [hact]
      exact h.acc.mem_active tid
    · intro t _
      rw [hact]
    · rw [htot]
      exact (Int.sub_add_cancel _ _).symm
    · rw [hj, Thr.count_set _ _ hi]
      change _ = _ - _ + (_ - (w.pth tid i).attached.toInt + _)
      omega
    · intro c
      rw [hcs, Thr.count_set _ _ hi]
      change _ = _ - _ + (_ - (attachedOf cfg c tid (w.pth tid i)).toInt + _)
      omega
    · rw [hl, Thr.count_set _ _ hi]
      change _ = _ - _ + (_ - (w.pth tid i).left.toInt + _)
      omega
  have hnotes : NotesRight cfg w' := by
    unfold NotesRight
    rw [hlog]
    exact h.notes
  refine h.replace hacc hnotes hthr' (fun _ _ _ hE => hE) ?_
  intro j hj hE
  rw [Thr.set_pth]
  split
  · rename_i hji
    subst hji
    exact hp hE
  · exact h.fits tid j hj hE

/-- The flags that are counted stay. -/
theorem SoundBut.setPth (h : SoundBut cfg E w) (hi : i < (w.thr tid).curThr)
    (hst : p.st ≠ .none) (hp : ¬E tid i → Fits cfg tid p)
    (hatt : p.attached = (w.pth tid i).attached) (hleft : p.left = (w.pth tid i).left) :
    SoundBut cfg E (w.setPth tid i p) := by
  refine h.set hi hst hp rfl rfl rfl rfl ?_ ?_ ?_
  · rw [hatt]
    exact (Int.sub_add_cancel _ _).symm
  · intro c
    unfold attachedOf
    rw [hatt]
    exact (Int.sub_add_cancel _ _).symm
  · rw [hleft]
    exact (Int.sub_add_cancel _ _).symm

/-- Overwriting a slot that is not live changes nothing that is counted. -/
theorem SoundBut.setDead (h : SoundBut cfg E w) (htid : tid < cfg.coopthNum)
    (hi : (w.thr tid).curThr ≤ i) (hst : p.st = (w.pth tid i).st) :
    SoundBut cfg E (w.setPth tid i p) := by
  have hthr : (w.setPth tid i p).thr = update w.thr tid ((w.thr tid).set i p) := rfl
  refine h.replace ?_ h.notes hthr (fun _ _ _ hE => hE) ?_
  · refine h.acc.replace htid hthr ?_ h.acc.active_nodup (h.acc.mem_active tid)
      (fun _ _ => Iff.rfl) (Int.sub_add_cancel _ _).symm ?_ ?_ ?_
    · intro j
      rw [Thr.set_pth]
      split
      · rename_i hji
        rw [hst, hji]
        exact h.acc.st_ne_none tid i
      · exact h.acc.st_ne_none tid j
    · rw [Thr.count_set_of_le _ _ hi]
      exact (Int.sub_add_cancel _ _).symm
    · intro c
      rw [Thr.count_set_of_le _ _ hi]
      exact (Int.sub_add_cancel _ _).symm
    · rw [Thr.count_set_of_le _ _ hi]
      exact (Int.sub_add_cancel _ _).symm
  · intro j hj hE
    have hlt : j < (w.thr tid).curThr := hj
    rw [Thr.set_pth, if_neg (by omega)]
    exact h.fits tid j hlt hE

/-- Nothing that is counted or seen changes. -/
theorem SoundBut.congr (h : SoundBut cfg E w) (hstack : ∀ t, (w'.thr t).stack = (w.thr t).stack)
    (hact : w'.activeTids = w.activeTids) (htot : w'.threadsTotal = w.threadsTotal)
    (hj : w'.threadsJoinable = w.threadsJoinable) (hcs : w'.threadsCs = w.threadsCs)
    (hl : w'.threadsLeft = w.threadsLeft) (hnotes : NotesRight cfg w') : SoundBut cfg E w' := by
  have hcur : ∀ t, (w'.thr t).curThr = (w.thr t).curThr := fun t => congrArg Stack.len (hstack t)
  have hpth : ∀ t j, w'.pth t j = w.pth t j := fun t j => congrFun (congrArg Stack.slot (hstack t)) j
  have hcount : ∀ P, w'.liveCount cfg P = w.liveCount cfg P := by
    intro P
    unfold State.liveCount
    simp only [hstack]
  refine ⟨⟨?_, ?_, ?_, ?_, ?_, ?_, ?_, ?_⟩, hnotes, ?_⟩
  · rw [htot, h.acc.threads_total]
    simp only [hcur]
  · rw [hact]
    exact h.acc.active_nodup
  · intro t
    rw [hact, hcur]
    exact h.acc.mem_active t
  · intro t ht
    exact h.acc.tid_lt t (by rwa [hcur] at ht)
  · rw [hj, hcount, h.acc.threads_joinable]
  · intro c
    rw [hcs, hcount, h.acc.threads_cs]
  · rw [hl, hcount, h.acc.threads_left]
  · intro t j
    rw [hpth, hcur]
    exact h.acc.st_ne_none t j
  · intro t j hj hE
    rw [hcur] at hj
    rw [hpth]
    exact h.fits t j hj hE

/-! ## The invocation that is worked on -/

theorem Held.lt (h : Held cfg tid i w) : i < (w.thr tid).curThr := by
  have htop := h.top
  omega

/-- A top invocation may be taken in hand. -/
theorem SoundBut.hold (h : Sound cfg w) (htop : (w.thr tid).curThr = i + 1) :
    Held cfg tid i w :=
  ⟨⟨h.acc, h.notes, fun t j hj _ => h.fits t j hj not_false⟩, htop⟩

/-- An invocation that is in order again may be let go. -/
theorem Held.release (h : Held cfg tid i w) (hp : Fits cfg tid (w.pth tid i)) : Sound cfg w := by
  refine ⟨h.sound.acc, h.sound.notes, fun t j hj _ => ?_⟩
  by_cases htj : t = tid ∧ j = i
  · obtain ⟨rfl, rfl⟩ := htj
    exact hp
  · exact h.sound.fits t j hj htj

theorem Held.setPth (h : Held cfg tid i w) (hst : p.st ≠ .none)
    (hatt : p.attached = (w.pth tid i).attached) (hleft : p.left = (w.pth tid i).left) :
    Held cfg tid i (w.setPth tid i p) := by
  refine ⟨h.sound.setPth h.lt hst (fun hE => absurd ⟨rfl, rfl⟩ hE) hatt hleft, ?_⟩
  rw [State.setPth_curThr]
  exact h.top

theorem Held.st_ne_none (h : Held cfg tid i w) : (w.pth tid i).st ≠ .none :=
  (h.sound.acc.st_ne_none tid i).2 h.lt

/-- What is no invocation of a tid is not counted. -/
theorem SoundBut.setThr (h : SoundBut cfg E w) (th : Thr) (hth : th.stack = (w.thr tid).stack) :
    SoundBut cfg E (w.setThr tid th) := by
  refine h.congr ?_ rfl rfl rfl rfl rfl h.notes
  intro t
  rw [State.setThr_thr, update_apply]
  split
  · rename_i ht
    rw [ht, hth]
  · rfl

/-- An event that is no notification tells nothing about the counters. -/
theorem SoundBut.emit (h : SoundBut cfg E w) {e : Event} (he : ∀ n thr, e ≠ .notify n thr) :
    SoundBut cfg E (w.emit e) := by
  refine h.congr (fun _ => rfl) rfl rfl rfl rfl rfl ?_
  intro n thr hmem
  rcases List.mem_append.1 hmem with hold | hnew
  · exact h.notes n thr hold
  · exact absurd (List.mem_singleton.1 hnew).symm (he n thr)

theorem Held.emit (h : Held cfg tid i w) {e : Event} (he : ∀ n thr, e ≠ .notify n thr) :
    Held cfg tid i (w.emit e) :=
  ⟨h.sound.emit he, h.top⟩

/-! ## Attaching and detaching -/

theorem threadsJoinableDec_eq_some {c : ThreadClass} :
    threadsJoinableDec w c = some w' ↔ w.threadsJoinable ≠ 0 ∧ w.threadsCs c ≠ 0 ∧
      w' = { w with
        threadsJoinable := w.threadsJoinable - 1
        threadsCs := update w.threadsCs c (w.threadsCs c - 1) } := by
  unfold threadsJoinableDec
  simp only [Option.bind_eq_bind, Option.bind_eq_some_iff, cAssert_eq_some, Option.pure_def,
    Option.some.injEq, exists_const]
  tauto

theorem coopthRetf_eq_some :
    coopthRetf cfg w tid i = some w' ↔ (w.pth tid i).attached = true ∧
      ∃ w₁, threadsJoinableDec w (cfg.cls tid) = some w₁ ∧
        w' = w₁.setPth tid i { w.pth tid i with attached := false } := by
  unfold coopthRetf
  simp only [Option.bind_eq_bind, Option.bind_eq_some_iff, cAssert_eq_some, Option.pure_def,
    Option.some.injEq, exists_const, threadsJoinableDec_eq_some]
  constructor
  · rintro ⟨hatt, w₁, ⟨hj, hcs, rfl⟩, rfl⟩
    exact ⟨hatt, _, ⟨hj, hcs, rfl⟩, rfl⟩
  · rintro ⟨hatt, w₁, ⟨hj, hcs, rfl⟩, rfl⟩
    exact ⟨hatt, _, ⟨hj, hcs, rfl⟩, rfl⟩

/-- The flag is cleared and the counters are decremented, in either order. -/
theorem Held.unattach (h : Held cfg tid i w) (hatt : (w.pth tid i).attached = true)
    (hthr : w'.thr = (w.setPth tid i { w.pth tid i with attached := false }).thr)
    (hact : w'.activeTids = w.activeTids) (htot : w'.threadsTotal = w.threadsTotal)
    (hlog : w'.log = w.log) (hj : w'.threadsJoinable = w.threadsJoinable - 1)
    (hcs : w'.threadsCs = update w.threadsCs (cfg.cls tid) (w.threadsCs (cfg.cls tid) - 1))
    (hl : w'.threadsLeft = w.threadsLeft) : Held cfg tid i w' := by
  refine ⟨h.sound.set (p := { w.pth tid i with attached := false }) h.lt h.st_ne_none
    (fun hE => absurd ⟨rfl, rfl⟩ hE) hthr hact htot hlog ?_ ?_ ?_, ?_⟩
  · rw [hj, hatt]
    simp
  · intro c
    rw [hcs, update_apply]
    unfold attachedOf
    rw [hatt]
    by_cases hc : c = cfg.cls tid
    · subst hc
      simp
    · simp [hc, Ne.symm hc]
  · rw [hl]
    exact (Int.sub_add_cancel _ _).symm
  · rw [hthr, State.setPth_curThr]
    exact h.top

theorem Held.coopthRetf (h : Held cfg tid i w) (hw : coopthRetf cfg w tid i = some w') :
    Held cfg tid i w' ∧ w'.pth tid i = { w.pth tid i with attached := false } ∧
      w'.log = w.log := by
  obtain ⟨hatt, w₁, hdec, rfl⟩ := coopthRetf_eq_some.1 hw
  obtain ⟨-, -, rfl⟩ := threadsJoinableDec_eq_some.1 hdec
  exact ⟨h.unattach hatt rfl rfl rfl rfl rfl rfl rfl, State.setPth_pth_self _ _ _ _, rfl⟩

theorem coopthCallf_eq_some :
    coopthCallf cfg w tid i = some w' ↔ (w.pth tid i).attached = false ∧
      w' = (threadsJoinableInc w (cfg.cls tid)).setPth tid i
        { w.pth tid i with attached := true } := by
  unfold coopthCallf
  simp only [Option.bind_eq_bind, Option.bind_eq_some_iff, cAssert_eq_some, Option.pure_def,
    Option.some.injEq, exists_const]
  constructor
  · rintro ⟨hatt, rfl⟩
    exact ⟨hatt, rfl⟩
  · rintro ⟨hatt, rfl⟩
    exact ⟨hatt, rfl⟩

theorem SoundBut.coopthCallf (h : SoundBut cfg E w) (hi : i < (w.thr tid).curThr)
    (hp : ¬E tid i → Fits cfg tid { w.pth tid i with attached := true })
    (hw : coopthCallf cfg w tid i = some w') : SoundBut cfg E w' := by
  obtain ⟨hatt, rfl⟩ := coopthCallf_eq_some.1 hw
  refine h.set (p := { w.pth tid i with attached := true }) hi ((h.acc.st_ne_none tid i).2 hi) hp
    rfl rfl rfl rfl ?_ ?_ ?_
  · rw [hatt]
    change w.threadsJoinable + 1 = w.threadsJoinable - false.toInt + true.toInt
    simp
  · intro c
    unfold attachedOf
    rw [hatt]
    change update w.threadsCs (cfg.cls tid) (w.threadsCs (cfg.cls tid) + 1) c = _
    rw [update_apply]
    by_cases hc : c = cfg.cls tid
    · subst hc
      simp
    · simp [hc, Ne.symm hc]
  · exact (Int.sub_add_cancel _ _).symm

@[simp]
theorem State.markLeft_pth (w : State) (tid i : Nat) :
    (w.markLeft tid i).pth tid i = { w.pth tid i with left := true } :=
  State.setPth_pth_self _ _ _ _

/-- An invocation is marked as left and counted as such. -/
theorem Held.markLeft (h : Held cfg tid i w) (hleft : (w.pth tid i).left = false) :
    Held cfg tid i (w.markLeft tid i) := by
  refine ⟨h.sound.set (p := { w.pth tid i with left := true }) h.lt h.st_ne_none
    (fun hE => absurd ⟨rfl, rfl⟩ hE) rfl rfl rfl rfl
    (Int.sub_add_cancel _ _).symm (fun _ => (Int.sub_add_cancel _ _).symm) ?_, ?_⟩
  · rw [hleft]
    change w.threadsLeft + 1 = w.threadsLeft - false.toInt + true.toInt
    simp
  · exact (State.setPth_curThr _ _ _ _ _).trans h.top

/-! ## A new invocation -/

/-- What `do_start` does. -/
theorem doStart_eq_some {st : CoopthState} {arg tn : Nat}
    (h : doStart cfg w tid st arg = some (w', tn)) :
    tn = (w.thr tid).curThr ∧
      (tn = 0 → w.activeTids.length < maxActThrs) ∧
      w' = { w.setThr tid { w.thr tid with
                curThr := tn + 1
                pth := update (w.thr tid).pth tn
                  { st := st, thread := .fresh (cfg.func tid arg) } } with
        activeTids := if tn = 0 then w.activeTids ++ [tid] else w.activeTids
        threadsTotal := w.threadsTotal + 1 } := by
  unfold doStart at h
  simp only [Option.bind_eq_bind, Option.bind_eq_some_iff, cAssert_eq_some, Option.pure_def,
    Option.some.injEq, Prod.mk.injEq, exists_const] at h
  obtain ⟨-, hlen, rfl, rfl⟩ := h
  exact ⟨rfl, hlen, rfl⟩

/-- A new invocation is in order, attached or not. -/
theorem Fits.fresh (cfg : Config) (tid arg : Nat) {st : CoopthState} (hst : st.isSwitch = false)
    (a : Bool) : Fits cfg tid { st := st, thread := .fresh (cfg.func tid arg), attached := a } where
  body := ⟨arg, List.suffix_refl _⟩
  left_running := by simp
  exited_iff := by
    constructor
    · intro h
      cases h
    · rintro rfl
      cases hst
  done_attached := by
    rintro rfl
    cases hst
  enabled _ := rfl

/-- A tid with one more invocation. -/
def Thr.push (th : Thr) (p : PerThread) : Thr :=
  { th with curThr := th.curThr + 1, pth := update th.pth th.curThr p }

theorem Thr.count_push (P : PerThread → Bool) (th : Thr) (p : PerThread) :
    (th.push p).count P = th.count P + (P p).toInt :=
  Stack.weight_push (fun p => (P p).toInt) th.stack p

theorem Thr.push_pth (th : Thr) (j : Nat) (p : PerThread) :
    (th.push p).pth j = if j = th.curThr then p else th.pth j :=
  update_apply _ _ _ _

/-- A new invocation is pushed onto the stack of its tid. -/
theorem SoundBut.doStart (h : SoundBut cfg E w) (htid : tid < cfg.coopthNum) {st : CoopthState}
    (hst : st.isSwitch = false) (hne : st ≠ .none) {arg tn : Nat}
    (hw : doStart cfg w tid st arg = some (w', tn)) :
    SoundBut cfg E w' ∧ tn = (w.thr tid).curThr ∧ w'.log = w.log ∧
      w'.thr = update w.thr tid
        ((w.thr tid).push { st := st, thread := .fresh (cfg.func tid arg) }) := by
  obtain ⟨rfl, -, hw'⟩ := doStart_eq_some hw
  have hthr : w'.thr = update w.thr tid
      ((w.thr tid).push { st := st, thread := .fresh (cfg.func tid arg) }) := by
    rw [hw']
    rfl
  subst hw'
  refine ⟨?_, rfl, rfl, hthr⟩
  refine h.replace ?_ h.notes hthr (fun _ _ _ hE => hE) ?_
  · refine h.acc.replace htid hthr ?_ ?_ ?_ ?_ ?_ ?_ ?_ ?_
    · intro j
      rw [Thr.push_pth]
      change _ ↔ j < (w.thr tid).curThr + 1
      split
      · exact ⟨fun _ => by omega, fun _ => hne⟩
      · rename_i hj
        have hold := h.acc.st_ne_none tid j
        unfold State.pth at hold
        rw [hold]
        omega
    · have hnodup := h.acc.active_nodup
      change (if _ then _ else _ : List Nat).Nodup
      split
      · rename_i hzero
        have hnew : tid ∉ w.activeTids := by
          rw [h.acc.mem_active]
          omega
        exact List.nodup_append.2 ⟨hnodup, List.nodup_singleton _, by
          intro t ht u hu htu
          rw [List.mem_singleton.1 hu] at htu
          exact hnew (htu ▸ ht)⟩
      · exact hnodup
    · change tid ∈ (if _ then _ else _ : List Nat) ↔ 0 < (w.thr tid).curThr + 1
      split
      · simp
      · rename_i hpos
        rw [h.acc.mem_active]
        omega
    · intro t ht
      change t ∈ (if _ then _ else _ : List Nat) ↔ _
      split
      · simp [ht]
      · rfl
    · change w.threadsTotal + 1 = _ - _ + (((w.thr tid).curThr + 1 : Nat) : Int)
      omega
    · rw [Thr.count_push]
      change w.threadsJoinable = _ - _ + (_ + false.toInt)
      rw [Bool.toInt_false]
      omega
    · intro c
      rw [Thr.count_push]
      change w.threadsCs c = _ - _ + (_ + false.toInt)
      rw [Bool.toInt_false]
      omega
    · rw [Thr.count_push]
      change w.threadsLeft = _ - _ + (_ + false.toInt)
      rw [Bool.toInt_false]
      omega
  · intro j hj hE
    rw [Thr.push_pth]
    split
    · exact Fits.fresh cfg tid arg hst false
    · rename_i hjn
      have hlt : j < (w.thr tid).curThr + 1 := hj
      exact h.fits tid j (by omega) hE

/-! ## The end of an invocation -/

/-- A tid with its top invocation gone. -/
def Thr.pop (th : Thr) (p : PerThread) : Thr :=
  { th with curThr := th.curThr - 1, pth := update th.pth (th.curThr - 1) p }

theorem Thr.count_pop (P : PerThread → Bool) (th : Thr) (p : PerThread)
    (htop : th.curThr = i + 1) : (th.pop p).count P = th.count P - (P (th.pth i)).toInt :=
  Stack.weight_pop (fun p => (P p).toInt) th.stack p htop

theorem Thr.pop_pth (th : Thr) (j : Nat) (p : PerThread) (htop : th.curThr = i + 1) :
    (th.pop p).pth j = if j = i then p else th.pth j := by
  change update th.pth (th.curThr - 1) p j = _
  rw [htop, Nat.add_sub_cancel, update_apply]

/-- Behind its first place the tid must not be listed again. -/
theorem dropActive_true {l : List Nat} (h : tid ∉ l) : dropActive tid true l = some l := by
  induction l with
  | nil => rfl
  | cons t ts ih =>
      rw [List.mem_cons, not_or] at h
      unfold dropActive
      rw [if_neg (Ne.symm h.1), ih h.2]
      rfl

/-- A tid that is listed once is taken out. -/
theorem dropActive_eq_erase {l : List Nat} (hnodup : l.Nodup) (hmem : tid ∈ l) :
    dropActive tid false l = some (l.erase tid) := by
  induction l with
  | nil => cases hmem
  | cons t ts ih =>
      unfold dropActive
      by_cases ht : t = tid
      · subst ht
        rw [if_pos rfl, if_neg Bool.false_ne_true, List.erase_cons_head]
        exact dropActive_true (List.nodup_cons.1 hnodup).1
      · have hts : tid ∈ ts := (List.mem_cons.1 hmem).resolve_left (Ne.symm ht)
        rw [if_neg ht, ih (List.nodup_cons.1 hnodup).2 hts, List.erase_cons_tail (by simpa using ht)]
        rfl

/-- The count for the notifier is 0 exactly when there is nothing to wait for. -/
theorem Accounted.idle_iff (h : Accounted cfg w) :
    w.threadsCs .normal + w.threadsLeft = 0 ↔ Idle cfg w.thr := by
  have hnonneg : ∀ P : Nat → PerThread → Bool, ∀ t p, 0 ≤ (P t p).toInt := by
    intro P t p
    cases P t p <;> simp
  have hcount : ∀ P, 0 ≤ w.liveCount cfg P := by
    intro P
    exact Stack.total_nonneg (hnonneg P) _ _
  have hzero : ∀ P : Nat → PerThread → Bool, w.liveCount cfg P = 0 ↔
      ∀ t < cfg.coopthNum, ∀ j < (w.thr t).curThr, P t ((w.thr t).pth j) = false := by
    intro P
    unfold State.liveCount
    rw [Stack.total_eq_zero_iff (hnonneg P)]
    simp only [mem_range]
    refine forall₄_congr fun t _ j _ => ?_
    change (P t ((w.thr t).pth j)).toInt = 0 ↔ _
    cases P t ((w.thr t).pth j) <;> simp
  have hn := hcount (attachedOf cfg .normal)
  have hl := hcount fun _ p => p.left
  rw [h.threads_cs, h.threads_left]
  constructor
  · intro hsum t ht j hj
    have hn0 := (hzero (attachedOf cfg .normal)).1 (by omega) t ht j hj
    have hl0 := (hzero fun _ p => p.left).1 (by omega) t ht j hj
    refine ⟨?_, hl0⟩
    rintro ⟨hatt, hcls⟩
    simp [attachedOf, hatt, hcls] at hn0
  · intro hidle
    have hn0 := (hzero (attachedOf cfg .normal)).2 (by
      intro t ht j hj
      have hnot := (hidle t ht j hj).1
      unfold attachedOf
      simpa using hnot)
    have hl0 := (hzero fun _ p => p.left).2 fun t ht j hj => (hidle t ht j hj).2
    omega

/-- Does `do_del_thread` keep the invocation for `coopth_call_post_internal`? -/
def State.keepsPost (w : State) (tid i : Nat) : Bool :=
  !(w.pth tid i).cancelled && !(w.pth tid i).left && (w.thr tid).custom

/-- The tid after the end of its top invocation. -/
def State.deletedThr (w : State) (tid i : Nat) : Thr :=
  { (w.thr tid).pop { w.pth tid i with st := .none } with
    postPth := if w.keepsPost tid i then some i else (w.thr tid).postPth }

/-- The scheduler after the end of the top invocation of a tid. -/
def State.deleted (w : State) (tid i : Nat) : State :=
  let left := w.threadsLeft - (w.pth tid i).left.toInt
  let thr := update w.thr tid (w.deletedThr tid i)
  { w with
    thr := thr
    activeTids := if i = 0 then w.activeTids.erase tid else w.activeTids
    threadsTotal := w.threadsTotal - 1
    threadsLeft := left
    log := w.log ++ [.deleted tid i, .notify (w.threadsCs .normal + left) thr] }

/-- `do_del_thread` aborts only if a custom invocation is still waiting for its
post handler. -/
theorem doDelThread_eq_some (hacc : Accounted cfg w) (htop : (w.thr tid).curThr = i + 1) :
    doDelThread w tid i = some w' ↔
      (w.keepsPost tid i = true → (w.thr tid).postPth = none) ∧ w' = w.deleted tid i := by
  have hactive : activeAfter tid ((w.thr tid).curThr - 1) w.activeTids =
      some (if i = 0 then w.activeTids.erase tid else w.activeTids) := by
    unfold activeAfter
    rw [htop, Nat.add_sub_cancel]
    split
    · exact dropActive_eq_erase hacc.active_nodup ((hacc.mem_active tid).2 (by omega))
    · rfl
  have hleft : (if (w.pth tid i).left then w.threadsLeft - 1 else w.threadsLeft) =
      w.threadsLeft - (w.pth tid i).left.toInt := by
    cases (w.pth tid i).left <;> simp
  have hthr : w.deletedThr tid i = { w.thr tid with
      curThr := (w.thr tid).curThr - 1
      pth := update (w.thr tid).pth i { w.pth tid i with st := .none }
      postPth := if w.keepsPost tid i then some i else (w.thr tid).postPth } := by
    unfold State.deletedThr Thr.pop
    rw [htop, Nat.add_sub_cancel]
  unfold doDelThread State.deleted
  rw [hthr]
  simp only [hactive, hleft, Option.bind_eq_bind, Option.bind_some, Option.bind_eq_some_iff,
    cAssert_eq_some, exists_const, Option.pure_def, Option.some.injEq]
  exact and_congr_right fun _ => eq_comm

theorem State.deleted_thr_self : (w.deleted tid i).thr tid = w.deletedThr tid i :=
  update_self _ _ _

/-- The counters survive the end of an invocation that is not attached. -/
theorem Held.deleted_accounted (h : Held cfg tid i w) (hatt : (w.pth tid i).attached = false) :
    Accounted cfg (w.deleted tid i) := by
  have htop := h.top
  have hcount : ∀ P, (w.deletedThr tid i).count P =
      (w.thr tid).count P - (P (w.pth tid i)).toInt :=
    fun P => Thr.count_pop P (w.thr tid) _ htop
  have hcur : (w.deletedThr tid i).curThr = i := by
    change (w.thr tid).curThr - 1 = i
    omega
  refine h.sound.acc.replace (h.sound.acc.lt_num h.lt) rfl ?_ ?_ ?_ ?_ ?_ ?_ ?_ ?_
  · intro j
    have hpth : (w.deletedThr tid i).pth j =
        if j = i then { w.pth tid i with st := .none } else (w.thr tid).pth j :=
      Thr.pop_pth (w.thr tid) j _ htop
    rw [hpth, hcur]
    split
    · rename_i hji
      simp [hji]
    · have hold := h.sound.acc.st_ne_none tid j
      unfold State.pth at hold
      rw [hold]
      omega
  · change (if _ then _ else _ : List Nat).Nodup
    split
    · exact h.sound.acc.active_nodup.erase _
    · exact h.sound.acc.active_nodup
  · rw [hcur]
    change tid ∈ (if _ then _ else _ : List Nat) ↔ _
    split
    · have hnot := h.sound.acc.active_nodup.not_mem_erase (a := tid)
      simp only [hnot, false_iff]
      omega
    · rw [h.sound.acc.mem_active]
      omega
  · intro t ht
    change t ∈ (if _ then _ else _ : List Nat) ↔ _
    split
    · exact List.mem_erase_of_ne ht
    · rfl
  · rw [hcur, htop]
    change w.threadsTotal - 1 = _
    omega
  · rw [hcount, hatt, Bool.toInt_false]
    change w.threadsJoinable = _
    omega
  · intro c
    rw [hcount]
    unfold attachedOf
    rw [hatt, Bool.false_and, Bool.toInt_false]
    change w.threadsCs c = _
    omega
  · rw [hcount]
    change w.threadsLeft - (w.pth tid i).left.toInt = _
    omega

/-- The end of an invocation that is not attached leaves the scheduler sound. -/
theorem Held.deleted (h : Held cfg tid i w) (hatt : (w.pth tid i).attached = false) :
    Sound cfg (w.deleted tid i) := by
  have hacc := h.deleted_accounted hatt
  refine h.sound.replace hacc ?_ rfl ?_ ?_
  · intro n thr hmem
    rcases List.mem_append.1 hmem with hold | hnew
    · exact h.sound.notes n thr hold
    · simp only [List.mem_cons, reduceCtorEq, false_or, List.not_mem_nil, or_false,
        Event.notify.injEq] at hnew
      obtain ⟨rfl, rfl⟩ := hnew
      exact hacc.idle_iff
  · rintro t j ht ⟨htid, -⟩
    exact ht htid
  · intro j hj _
    have htop := h.top
    have hpth : (w.deletedThr tid i).pth j =
        if j = i then { w.pth tid i with st := .none } else (w.thr tid).pth j :=
      Thr.pop_pth (w.thr tid) j _ htop
    change j < (w.thr tid).curThr - 1 at hj
    rw [hpth, if_neg (by omega)]
    exact h.sound.fits tid j (by omega) (by omega)

end Coopth
end Dosemu
