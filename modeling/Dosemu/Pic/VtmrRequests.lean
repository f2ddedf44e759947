import Dosemu.Pic.Vtmr

/-!
# Requests of the virtual timers

Three things could lose a request: a bit that nobody is woken for, a wait that nobody ends, and a
line that is left down, as the timer is masked and unmasked while another thread is about to put
the line up.

Main results:

- Theorems `smiMove_signals`, `smiMove_wires` and the like: what each step of a thread keeps.
- Theorem `requests_arrive`: no request of a timer is lost in any interleaving.
-/

namespace Dosemu
namespace Pic

/-! ## Wake-ups -/

/-- The tokens of the semaphore that the timer thread has yet to use or to give back -/
def SmiPc.wakes : SmiPc → Nat
  | .awake => 1
  | .posting _ _ => 1
  | _ => 0

def IoPc.wakes : IoPc → Nat
  | .lagging _ .post => 1
  | .posting _ => 1
  | _ => 0

/-- The timer thread works for the timer. -/
def SmiPc.holds (u : Timer) : SmiPc → Bool
  | .waiting => false
  | .awake => false
  | .scanning rest => rest u
  | .probing t _ rest => decide (t = u) || rest u
  | .requesting t _ rest => decide (t = u) || rest u
  | .requested t rest => decide (t = u) || rest u
  | .raising t rest => decide (t = u) || rest u
  | .faking t rest => decide (t = u) || rest u
  | .pulsed t rest => decide (t = u) || rest u
  | .reraising t rest => decide (t = u) || rest u
  | .posting t rest => decide (t = u) || rest u
  | .finishing t rest => decide (t = u) || rest u

/-- The emulation thread is to set or to give up the bit of the timer. -/
def IoPc.raises (u : Timer) : IoPc → Bool
  | .lagging _ .fetch => decide (u = .pit)
  | .lagging _ .fail => decide (u = .pit)
  | _ => false

/-- Who waits is waited for: a bit in `vtmr_pirr` has a token of the semaphore, and for a timer
whose `done_pred` is clear somebody is at work. -/
structure Signals (v : Vtmr) (smi : SmiPc) (io : IoPc) : Prop where
  wake : ∀ t, v.pirr t = true → 0 < v.sem + v.posts + smi.wakes + io.wakes
  sync : ∀ t, v.donePred t = false →
    0 < v.begun t + v.failing t ∨ v.pirr t = true ∨ smi.holds t = true ∨ io.raises t = true

section

variable {v v' : Vtmr} {smi smi' : SmiPc} {io io' : IoPc} {op : VtmrOp}

theorem Signals.handle (h : Signals v smi io) (t : Timer) (masked : Bool) :
    Signals (v.handle t masked).1 smi io := by
  obtain ⟨ticks, acked, pics, heq, -⟩ := v.handle_eq t masked
  rw [heq]
  exact ⟨h.wake, h.sync⟩

/-- A bit that is set with a token to post -/
theorem Signals.reraise (h : Signals v smi io) (t : Timer)
    (hwakes : 0 < v.sem + v.posts + smi'.wakes + io'.wakes)
    (hholds : ∀ u, smi.holds u = true → smi'.holds u = true)
    (hraises : ∀ u, io.raises u = true → io'.raises u = true ∨ u = t) :
    Signals { v with pirr := v.pirr.put t true } smi' io' := by
  constructor
  · intro _ _
    exact hwakes
  · intro u hu
    by_cases heq : u = t
    · rw [heq]
      exact .inr (.inl (v.pirr.put_self t true))
    · rcases h.sync u hu with hb | hp | hs | hi
      · exact .inl hb
      · exact .inr (.inl ((v.pirr.put_of_ne heq true).trans hp))
      · exact .inr (.inr (.inl (hholds u hs)))
      · exact .inr (.inr (.inr ((hraises u hi).resolve_right heq)))

/-- The timer thread keeps it: what it takes from `vtmr_pirr` it still has to look at. -/
theorem smiMove_signals (h : Signals v smi io) (hmove : SmiMove v io smi v' smi') :
    Signals v' smi' io := by
  cases hmove with
  | wait hsem =>
    refine ⟨fun t ht => ?_, h.sync⟩
    have hwake := h.wake t ht
    change 0 < v.sem - 1 + v.posts + 1 + io.wakes
    omega
  | fetch =>
    refine ⟨nofun, fun t ht => ?_⟩
    rcases h.sync t ht with hb | hp | hs | hi
    · exact .inl hb
    · exact .inr (.inr (.inl hp))
    · cases hs
    · exact .inr (.inr (.inr hi))
  | done hfirst =>
    refine ⟨h.wake, fun t ht => ?_⟩
    rcases h.sync t ht with hb | hp | hs | hi
    · exact .inl hb
    · exact .inr (.inl hp)
    · cases (TimerSet.first_eq_none hfirst t).symm.trans hs
    · exact .inr (.inr (.inr hi))
  | @next rest t hfirst low =>
    refine ⟨h.wake, fun u hu => (h.sync u hu).imp_right (.imp_right (.imp_left fun hs => ?_))⟩
    change (decide (t = u) || rest.put t false u) = true
    by_cases heq : t = u
    · rw [decide_eq_true heq, Bool.true_or]
    · rw [TimerSet.put_of_ne _ (Ne.symm heq)]
      exact Bool.or_eq_true_iff.mpr (.inr hs)
  | @handle t rest =>
    have hhandled := h.handle t false
    split
    · exact ⟨hhandled.wake, hhandled.sync⟩
    · exact ⟨hhandled.wake, hhandled.sync⟩
  | @reraise t rest hpirr =>
    refine h.reraise t ?_ (fun u => id) fun u => .inl
    change 0 < v.sem + v.posts + 1 + io.wakes
    omega
  | post =>
    refine ⟨fun u hu => ?_, h.sync⟩
    change 0 < v.sem + 1 + v.posts + 0 + io.wakes
    omega
  | @finish t rest =>
    refine ⟨h.wake, fun u hu => ?_⟩
    have hne : u ≠ t := by
      rintro rfl
      cases (v.donePred.put_self u true).symm.trans hu
    have hold := h.sync u ((v.donePred.put_of_ne hne true).symm.trans hu)
    refine hold.imp_right (.imp_right (.imp_left fun hs => ?_))
    change (decide (t = u) || rest u) = true at hs
    rw [decide_eq_false (Ne.symm hne), Bool.false_or] at hs
    exact hs
  | _ => exact ⟨h.wake, h.sync⟩

theorem ioMove_signals (h : Signals v smi io) (hmove : IoMove v smi io v' io') :
    Signals v' smi io' := by
  cases hmove with
  | mask t hpc => rcases hpc with rfl | rfl <;> exact ⟨h.wake, h.sync⟩
  | take hpc masked hfree hirr => rcases hpc with rfl | rfl <;> exact ⟨h.wake, h.sync⟩
  | noRequest hpc => rcases hpc with rfl | rfl <;> exact ⟨h.wake, h.sync⟩
  | sync hpc => rcases hpc with rfl | rfl <;> exact ⟨h.wake, h.sync⟩
  | begin =>
    refine ⟨h.wake, fun u hu => ?_⟩
    by_cases heq : u = .pit
    · exact .inr (.inr (.inr (decide_eq_true heq)))
    · exact (h.sync u ((v.donePred.put_of_ne heq false).symm.trans hu)).imp_right
        (.imp_right (.imp_right nofun))
  | fetch hpirr =>
    refine h.reraise .pit ?_ (fun u => id) fun u hu => .inr (of_decide_eq_true hu)
    change 0 < v.sem + v.posts + smi.wakes + 1
    omega
  | post =>
    refine ⟨fun u hu => ?_, h.sync⟩
    change 0 < v.sem + 1 + v.posts + smi.wakes + 0
    omega
  | fail =>
    refine ⟨h.wake, fun u hu => ?_⟩
    have hne : u ≠ .pit := by
      rintro rfl
      cases (v.donePred.put_self .pit true).symm.trans hu
    have hold := h.sync u ((v.donePred.put_of_ne hne true).symm.trans hu)
    exact hold.imp_right
      (.imp_right (.imp_right fun hi => absurd (of_decide_eq_true hi) hne))
  | @handle t masked =>
    have hhandled := h.handle t masked
    split
    · exact ⟨hhandled.wake, hhandled.sync⟩
    · exact ⟨hhandled.wake, hhandled.sync⟩
  | @reraise t hpirr =>
    refine h.reraise t ?_ (fun u => id) fun u hu => .inl hu
    change 0 < v.sem + v.posts + smi.wakes + 1
    omega
  | repost =>
    refine ⟨fun u hu => ?_, h.sync⟩
    change 0 < v.sem + 1 + v.posts + smi.wakes + 0
    omega
  | _ => exact ⟨h.wake, h.sync⟩

theorem otherMove_signals (h : Signals v smi io) (hmove : OtherMove v op v') :
    Signals v' smi io := by
  cases hmove with
  | @begin t hclaimed =>
    refine ⟨h.wake, fun u hu => ?_⟩
    dsimp only at hu ⊢
    by_cases heq : u = t
    · rw [heq, Function.update_self]
      exact .inl (by omega)
    · rw [TimerSet.put_of_ne _ heq] at hu
      rw [Function.update_of_ne heq]
      exact h.sync u hu
  | @raised t hbegun hpirr =>
    refine ⟨h.wake, fun u hu => ?_⟩
    dsimp only at hu ⊢
    by_cases heq : u = t
    · rw [heq, Function.update_self, Function.update_self]
      exact .inl (by omega)
    · rw [Function.update_of_ne heq, Function.update_of_ne heq]
      exact h.sync u hu
  | @fetch t hbegun hpirr =>
    constructor
    · intro u hu
      dsimp only
      omega
    · intro u hu
      dsimp only at hu ⊢
      by_cases heq : u = t
      · rw [heq, TimerSet.put_self]
        exact .inr (.inl rfl)
      · rw [Function.update_of_ne heq, TimerSet.put_of_ne _ heq]
        exact h.sync u hu
  | post hposts =>
    refine ⟨fun u hu => ?_, h.sync⟩
    dsimp only
    omega
  | @fail t hfailing =>
    refine ⟨h.wake, fun u hu => ?_⟩
    dsimp only at hu ⊢
    by_cases heq : u = t
    · rw [heq, TimerSet.put_self] at hu
      cases hu
    · rw [TimerSet.put_of_ne _ heq] at hu
      rw [Function.update_of_ne heq]
      exact h.sync u hu
  | _ => exact ⟨h.wake, h.sync⟩

end

/-! ## Lines -/

/-- The timer thread is about to put up the line of the timer, if it is not masked. -/
def SmiPc.brings (u : Timer) : SmiPc → Bool
  | .requested t _ => decide (t = u)
  | .raising t _ => decide (t = u)
  | _ => false

def IoPc.masks (u : Timer) : IoPc → Bool
  | .masking t => decide (t = u)
  | _ => false

def IoPc.unmasks (u : Timer) : IoPc → Bool
  | .unmasking t => decide (t = u)
  | _ => false

def IoPc.acks (u : Timer) : IoPc → Bool
  | .acking t _ => decide (t = u)
  | _ => false

theorem SmiPc.locked_of_brings {smi : SmiPc} {u : Timer} (h : smi.brings u = true) :
    smi.locked = true := by
  cases smi <;> first | rfl | cases h

/-- The lines follow the requests: a line is high for a request only, or on its way down; a
request that is not masked has its line high, or on its way up; and a line that is high asks the
controller, or was acknowledged since. -/
structure Wires (v : Vtmr) (smi : SmiPc) (io : IoPc) : Prop where
  mutex : smi.locked = true → io.locked = false
  held : ∀ t, smi.brings t = true → v.irr t = true
  masked : ∀ t, io.masks t = true → v.imr t = true
  acked : ∀ t, io.acks t = true → v.irr t = false
  high : ∀ t : Timer, v.pics.High t.line → v.irr t = true ∨ io.acks t = true
  up : ∀ t : Timer, v.irr t = true → v.imr t = false →
    v.pics.High t.line ∨ smi.brings t = true ∨ io.unmasks t = true
  asked : ∀ t : Timer, v.pics.High t.line → v.pics.Asked t.line ∨ v.taken t = true
  genuine : ∀ t : Timer, v.pics.Asked t.line → v.pics.High t.line

section

variable {v v' : Vtmr} {smi smi' : SmiPc} {io io' : IoPc} {op : VtmrOp}

/-- Other uses of the controllers -/
theorem Wires.other (h : Wires v smi io) {op : Op} (hspare : ∀ t : Timer, v.pics.Spares t.line op)
    {taken : TimerSet} (htaken : ∀ t, v.taken t = true → taken t = true)
    (hack : ∀ t : Timer, v.pics.acknowledged op = some t.line → taken t = true) :
    Wires { v with pics := (v.pics.exec op).2, taken := taken } smi io where
  mutex := h.mutex
  held := h.held
  masked := h.masked
  acked := h.acked
  high t hup := h.high t ((Pics.exec_line t.line_lt (hspare t)).1.mp hup)
  up t hirr himr := (h.up t hirr himr).imp_left (Pics.exec_line t.line_lt (hspare t)).1.mpr
  asked t hup := by
    obtain ⟨hhigh, -, hkeep⟩ := Pics.exec_line t.line_lt (hspare t)
    by_cases heq : v.pics.acknowledged op = some t.line
    · exact .inr (hack t heq)
    · exact (h.asked t (hhigh.mp hup)).imp (hkeep heq) (htaken t)
  genuine t ha := by
    obtain ⟨hhigh, hback, -⟩ := Pics.exec_line t.line_lt (hspare t)
    exact hhigh.mpr (h.genuine t (hback ha))

/-- A device puts another line up or down. -/
theorem Wires.setLine (h : Wires v smi io) {irq : Nat} (hirq : ∀ t : Timer, irq ≠ t.line + 8)
    (level : Bool) : Wires { v with pics := v.pics.setLine irq level } smi io := by
  have hspare : ∀ t : Timer, v.pics.Spares t.line (.setLine irq level) := hirq
  exact h.other hspare (fun _ => id) nofun

theorem Wires.handle (h : Wires v smi io) (t : Timer) (masked : Bool) :
    Wires (v.handle t masked).1 smi io := by
  obtain ⟨ticks, acked, pics, heq, hpics⟩ := v.handle_eq t masked
  have hwires : Wires { v with pics := pics } smi io := by
    rcases hpics with rfl | rfl
    · exact h
    · exact h.setLine (fun u => by cases u <;> decide) true
  rw [heq]
  exact ⟨hwires.mutex, hwires.held, hwires.masked, hwires.acked, hwires.high, hwires.up,
    hwires.asked, hwires.genuine⟩

/-- A timer's line is put up. -/
theorem Wires.raise (h : Wires v smi io) {t : Timer} (hirr : v.irr t = true)
    (hlocked : smi'.locked = true → io'.locked = false)
    (hbrings : ∀ u, smi'.brings u = true → smi.brings u = true)
    (hbrings' : ∀ u, u ≠ t → smi.brings u = true → smi'.brings u = true)
    (hmasks : ∀ u, io'.masks u = true → io.masks u = true)
    (hacks : ∀ u, io'.acks u = io.acks u)
    (hunmasks : ∀ u, u ≠ t → io.unmasks u = true → io'.unmasks u = true) :
    Wires (v.setLine t true) smi' io' := by
  have hline : ∀ u : Timer, u ≠ t → t.line + 8 ≠ u.line + 8 := by
    intro u hne heq
    exact hne (Timer.line_inj (Nat.add_right_cancel heq)).symm
  have hhigh : ∀ u : Timer, u ≠ t →
      ((v.setLine t true).pics.High u.line ↔ v.pics.High u.line) := by
    intro u hne
    unfold Vtmr.setLine
    rw [v.pics.setLine_high _ _ u.line_lt, if_neg (hline u hne)]
  have hself : (v.setLine t true).pics.High t.line := by
    unfold Vtmr.setLine
    rw [v.pics.setLine_high _ _ t.line_lt, if_pos rfl]
  have hasked : ∀ u : Timer, u ≠ t →
      ((v.setLine t true).pics.Asked u.line ↔ v.pics.Asked u.line) := fun u hne =>
    v.pics.setLine_asked_of_ne true u.line_lt (hline u hne)
  refine ⟨hlocked, fun u hu => h.held u (hbrings u hu), fun u hu => h.masked u (hmasks u hu),
    fun u hu => h.acked u ((hacks u).symm.trans hu), ?_, ?_, ?_, ?_⟩
  · intro u hu
    by_cases heq : u = t
    · rw [heq]
      exact .inl hirr
    · rw [hacks]
      exact h.high u ((hhigh u heq).mp hu)
  · intro u hu himr
    by_cases heq : u = t
    · rw [heq]
      exact .inl hself
    · exact (h.up u hu himr).imp (hhigh u heq).mpr
        (.imp (hbrings' u heq) (hunmasks u heq))
  · intro u hu
    by_cases heq : u = t
    · subst heq
      by_cases htaken : v.pics.High u.line ∧ v.taken u = true
      · refine .inr ((TimerSet.put_self _ _ _).trans ?_)
        rw [htaken.2, decide_eq_true htaken.1]
        rfl
      · refine .inl (v.pics.setLine_asked u.line_lt fun hup => ?_)
        exact (h.asked u hup).resolve_right fun ht => htaken ⟨hup, ht⟩
    · refine (h.asked u ((hhigh u heq).mp hu)).imp (hasked u heq).mpr fun ht => ?_
      exact (TimerSet.put_of_ne _ heq _).trans ht
  · intro u hu
    by_cases heq : u = t
    · rw [heq]
      exact hself
    · exact (hhigh u heq).mpr (h.genuine u ((hasked u heq).mp hu))

/-- A timer's line is put down, as the timer is masked or its request acknowledged. -/
theorem Wires.lower (h : Wires v smi io) {t : Timer} (hirr : v.irr t = true → v.imr t = true)
    (hlocked : smi.locked = true → io'.locked = false)
    (hmasks : ∀ u, io'.masks u = true → io.masks u = true)
    (hacks : ∀ u, io'.acks u = true → io.acks u = true)
    (hacks' : ∀ u, u ≠ t → io.acks u = true → io'.acks u = true)
    (hunmasks : ∀ u, io.unmasks u = true → io'.unmasks u = true) :
    Wires (v.setLine t false) smi io' := by
  have hline : ∀ u : Timer, u ≠ t → t.line + 8 ≠ u.line + 8 := by
    intro u hne heq
    exact hne (Timer.line_inj (Nat.add_right_cancel heq)).symm
  have hhigh : ∀ u : Timer, u ≠ t →
      ((v.setLine t false).pics.High u.line ↔ v.pics.High u.line) := by
    intro u hne
    unfold Vtmr.setLine
    rw [v.pics.setLine_high _ _ u.line_lt, if_neg (hline u hne)]
  have hself : ¬(v.setLine t false).pics.High t.line := by
    unfold Vtmr.setLine
    rw [v.pics.setLine_high _ _ t.line_lt, if_pos rfl]
    exact Bool.false_ne_true
  have hasked : ∀ u : Timer, u ≠ t →
      ((v.setLine t false).pics.Asked u.line ↔ v.pics.Asked u.line) := fun u hne =>
    v.pics.setLine_asked_of_ne false u.line_lt (hline u hne)
  refine ⟨hlocked, h.held, fun u hu => h.masked u (hmasks u hu),
    fun u hu => h.acked u (hacks u hu), ?_, ?_, ?_, ?_⟩
  · intro u hu
    by_cases heq : u = t
    · rw [heq] at hu
      exact absurd hu hself
    · exact (h.high u ((hhigh u heq).mp hu)).imp_right (hacks' u heq)
  · intro u hu himr
    by_cases heq : u = t
    · rw [heq] at hu himr
      cases himr.symm.trans (hirr hu)
    · exact (h.up u hu himr).imp (hhigh u heq).mpr (.imp_right (hunmasks u))
  · intro u hu
    by_cases heq : u = t
    · rw [heq] at hu
      exact absurd hu hself
    · refine (h.asked u ((hhigh u heq).mp hu)).imp (hasked u heq).mpr fun ht => ?_
      exact (TimerSet.put_of_ne _ heq _).trans ht
  · intro u hu
    by_cases heq : u = t
    · rw [heq] at hu
      exact absurd hu (v.pics.setLine_low t.line_lt)
    · exact (hhigh u heq).mpr (h.genuine u ((hasked u heq).mp hu))

/-- The emulation thread takes the request back. -/
theorem Wires.take (h : Wires v smi .idle) {t : Timer} (hfree : smi.locked = false)
    (masked : Bool) :
    Wires { v with irr := v.irr.put t false } smi (.acking t masked) := by
  refine ⟨fun hl => ?_, fun u hu => ?_, nofun, fun u hu => ?_, fun u hu => ?_, fun u hu himr => ?_,
    h.asked, h.genuine⟩
  · cases hl.symm.trans hfree
  · cases (SmiPc.locked_of_brings hu).symm.trans hfree
  · cases of_decide_eq_true hu
    exact v.irr.put_self t false
  · by_cases heq : u = t
    · exact .inr (decide_eq_true heq.symm)
    · exact .inl ((v.irr.put_of_ne heq false).trans ((h.high u hu).resolve_right nofun))
  · by_cases heq : u = t
    · rw [heq] at hu
      cases (v.irr.put_self t false).symm.trans hu
    · rcases h.up u ((v.irr.put_of_ne heq false).symm.trans hu) himr with hup | hb | hun
      · exact .inl hup
      · exact .inr (.inl hb)
      · cases hun

theorem smiMove_wires (h : Wires v smi io) (hmove : SmiMove v io smi v' smi') :
    Wires v' smi' io := by
  cases hmove with
  | @pulse t rest =>
    have hpulse := (h.setLine (t.origIrq_ne) false).setLine (t.origIrq_ne) true
    exact ⟨nofun, nofun, h.masked, h.acked, hpulse.high, hpulse.up, hpulse.asked, hpulse.genuine⟩
  | @request t rest hfree hirr =>
    have hset : ∀ u, v.irr u = true → v.irr.put t true u = true := by
      intro u hu
      by_cases heq : u = t
      · rw [heq]
        exact v.irr.put_self t true
      · exact (v.irr.put_of_ne heq true).trans hu
    refine ⟨fun _ => hfree, fun u hu => ?_, h.masked, fun u hu => ?_, fun u hu => ?_,
      fun u hu himr => ?_, h.asked, h.genuine⟩
    · cases of_decide_eq_true hu
      exact v.irr.put_self t true
    · cases io with
      | acking t' masked => cases hfree
      | _ => cases hu
    · exact (h.high u hu).imp_left (hset u)
    · by_cases heq : u = t
      · exact .inr (.inl (decide_eq_true heq.symm))
      · exact (h.up u ((v.irr.put_of_ne heq true).symm.trans hu) himr).imp_right (.imp_left nofun)
  | @hide t rest himr =>
    refine ⟨nofun, nofun, h.masked, h.acked, h.high, fun u hu hum => ?_, h.asked, h.genuine⟩
    refine (h.up u hu hum).imp_right (.imp_left fun hb => ?_)
    cases of_decide_eq_true hb
    cases hum.symm.trans himr
  | «show» => exact ⟨h.mutex, h.held, h.masked, h.acked, h.high, h.up, h.asked, h.genuine⟩
  | @raise t rest =>
    refine h.raise (h.held t (decide_eq_true rfl)) nofun nofun ?_ (fun _ => id) (fun _ => rfl)
      (fun _ _ => id)
    intro u hne hu
    exact absurd (of_decide_eq_true hu).symm hne
  | fake =>
    have hspare : ∀ w : Timer, v.pics.Spares w.line (.writeFirr false 1) := fun _ => id
    have hfake := h.other hspare (fun _ => id) nofun
    exact ⟨nofun, nofun, hfake.masked, hfake.acked, hfake.high, hfake.up, hfake.asked,
      hfake.genuine⟩
  | @handle t rest =>
    have hw := h.handle t false
    split
    · exact ⟨nofun, nofun, hw.masked, hw.acked, hw.high, hw.up, hw.asked, hw.genuine⟩
    · exact ⟨nofun, nofun, hw.masked, hw.acked, hw.high, hw.up, hw.asked, hw.genuine⟩
  | _ => exact ⟨nofun, nofun, h.masked, h.acked, h.high, h.up, h.asked, h.genuine⟩

theorem ioMove_wires (h : Wires v smi io) (hmove : IoMove v smi io v' io') : Wires v' smi io' := by
  cases hmove with
  | mask t hpc =>
    have hclear : ∀ u, v.imr.put t true u = false → v.imr u = false := by
      intro u hu
      by_cases heq : u = t
      · rw [heq] at hu
        cases (v.imr.put_self t true).symm.trans hu
      · exact (v.imr.put_of_ne heq true).symm.trans hu
    rcases hpc with rfl | rfl
    · exact ⟨fun _ => rfl, h.held, nofun, nofun, h.high,
        fun u hu himr => h.up u hu (hclear u himr), h.asked, h.genuine⟩
    · refine ⟨fun _ => rfl, h.held, fun u hu => ?_, nofun, h.high,
        fun u hu himr => h.up u hu (hclear u himr), h.asked, h.genuine⟩
      cases of_decide_eq_true hu
      exact v.imr.put_self t true
  | @unmask t himr =>
    refine ⟨fun _ => rfl, h.held, nofun, nofun, h.high, fun u hu hum => ?_, h.asked, h.genuine⟩
    by_cases heq : u = t
    · exact .inr (.inr (decide_eq_true heq.symm))
    · exact (h.up u hu ((v.imr.put_of_ne heq false).symm.trans hum)).imp_right (.imp_right nofun)
  | @unmasked t himr =>
    refine ⟨fun _ => rfl, h.held, nofun, nofun, h.high, fun u hu hum => ?_, h.asked, h.genuine⟩
    by_cases heq : u = t
    · exact h.up u hu (heq ▸ himr)
    · exact h.up u hu ((v.imr.put_of_ne heq false).symm.trans hum)
  | @down t =>
    exact h.lower (fun _ => h.masked t (decide_eq_true rfl)) (fun _ => rfl) nofun nofun
      (fun _ _ => id) (fun _ => id)
  | @up t hirr =>
    refine h.raise hirr (fun _ => rfl) (fun _ => id) (fun _ _ => id) nofun (fun _ => rfl) ?_
    intro u hne hu
    exact absurd (of_decide_eq_true hu).symm hne
  | @quiet t hirr =>
    refine ⟨fun _ => rfl, h.held, nofun, nofun, h.high, fun u hu himr => ?_, h.asked, h.genuine⟩
    refine (h.up u hu himr).imp_right (.imp_right fun hun => ?_)
    cases of_decide_eq_true hun
    cases hu.symm.trans hirr
  | take hpc masked hfree hirr =>
    have hidle : Wires v smi .idle := by
      rcases hpc with rfl | rfl <;>
        exact ⟨h.mutex, h.held, nofun, nofun, h.high, h.up, h.asked, h.genuine⟩
    exact hidle.take hfree masked
  | noRequest hpc =>
    rcases hpc with rfl | rfl <;>
      exact ⟨h.mutex, h.held, nofun, nofun, h.high, h.up, h.asked, h.genuine⟩
  | sync hpc =>
    rcases hpc with rfl | rfl <;>
      exact ⟨fun _ => rfl, h.held, nofun, nofun, h.high, h.up, h.asked, h.genuine⟩
  | @ack t masked =>
    refine h.lower (fun hirr => ?_) (fun hl => ?_) nofun nofun (fun u hne hu => ?_) (fun _ => id)
    · cases hirr.symm.trans (h.acked t (decide_eq_true rfl))
    · cases h.mutex hl
    · exact absurd (of_decide_eq_true hu).symm hne
  | @handle t masked =>
    have hw := h.handle t masked
    split
    · exact ⟨hw.mutex, hw.held, nofun, nofun, hw.high, hw.up, hw.asked, hw.genuine⟩
    · exact ⟨fun _ => rfl, hw.held, nofun, nofun, hw.high, hw.up, hw.asked, hw.genuine⟩
  | reraise hpirr => exact ⟨h.mutex, h.held, nofun, nofun, h.high, h.up, h.asked, h.genuine⟩
  | _ => exact ⟨fun _ => rfl, h.held, nofun, nofun, h.high, h.up, h.asked, h.genuine⟩

theorem otherMove_wires {s : VtmrState} (h : Wires s.regs s.smi s.io) (hok : s.Spared op)
    (hmove : OtherMove s.regs op v') : Wires v' s.smi s.io := by
  cases hmove with
  | pic op =>
    rcases hok with hspare | ⟨hrestart, hlow⟩
    · refine h.other hspare (fun t ht => ?_) (fun t ht => ?_)
      · rw [ht, Bool.true_or]
      · rw [decide_eq_true ht, Bool.or_true]
    · refine ⟨h.mutex, h.held, h.masked, h.acked, fun t hup => ?_, fun t hirr himr => ?_,
        fun t hup => ?_, fun t ha => ?_⟩
      · exact absurd hup (Pics.exec_restart hrestart).1
      · exact .inr ((h.up t hirr himr).resolve_left (hlow t))
      · exact absurd hup (Pics.exec_restart hrestart).1
      · exact absurd (h.genuine t ((Pics.exec_restart hrestart).2 ha)) (hlow t)
  | _ => exact ⟨h.mutex, h.held, h.masked, h.acked, h.high, h.up, h.asked, h.genuine⟩

end

/-! ## Runs -/

namespace VtmrState

/-- What holds between any two steps of the threads -/
structure Inv (s : VtmrState) : Prop where
  signals : Signals s.regs s.smi s.io
  wires : Wires s.regs s.smi s.io

variable {s s' : VtmrState} {op : VtmrOp}

/-- One step of any thread keeps it. -/
theorem step_inv (h : s.Inv) (hok : s.Spared op) (hstep : s.step op = some s') : s'.Inv := by
  rcases step_cases hstep with ⟨v, smi, hmove, rfl⟩ | ⟨v, io, hmove, rfl⟩ | ⟨v, hmove, rfl⟩
  · exact ⟨smiMove_signals h.signals hmove, smiMove_wires h.wires hmove⟩
  · exact ⟨ioMove_signals h.signals hmove, ioMove_wires h.wires hmove⟩
  · exact ⟨otherMove_signals h.signals hmove, otherMove_wires (s := s) h.wires hok hmove⟩

theorem start_inv : start.Inv where
  signals := ⟨nofun, nofun⟩
  wires := by
    refine ⟨nofun, nofun, nofun, nofun, fun t hup => ?_, nofun, fun t hup => ?_, fun t ha => ?_⟩
    · cases t <;> cases hup
    · cases t <;> cases hup
    · cases t <;> cases ha

/-- No request is lost in any interleaving of the threads: a bit in `vtmr_pirr` wakes the timer
thread, a clear `done_pred` is waited for while somebody works for the timer, a request that is
not masked asks the controller or was taken by it, unless a thread is about to put its line up,
and the controller is asked for a request only. -/
theorem requests_arrive {ops : List VtmrOp} (hok : Run.Admits step Spared start ops)
    (hrun : Run.run step start ops = some s) (t : Timer) :
    (s.regs.pirr t = true → 0 < s.regs.sem + s.regs.posts + s.smi.wakes + s.io.wakes) ∧
      (s.regs.donePred t = false → 0 < s.regs.begun t + s.regs.failing t ∨
        s.regs.pirr t = true ∨ s.smi.holds t = true ∨ s.io.raises t = true) ∧
      (s.regs.irr t = true → s.regs.imr t = false → s.regs.pics.Asked t.line ∨
        s.regs.taken t = true ∨ s.smi.brings t = true ∨ s.io.unmasks t = true) ∧
      (s.regs.pics.Asked t.line → s.regs.irr t = true ∨ s.io.acks t = true) := by
  have h : s.Inv :=
    Run.run_invariant Spared Inv (fun _ _ _ h hok hstep => step_inv h hok hstep) start_inv hok hrun
  refine ⟨h.signals.wake t, h.signals.sync t, fun hirr himr => ?_, fun ha => ?_⟩
  · rcases h.wires.up t hirr himr with hup | hmoving
    · exact (h.wires.asked t hup).imp_right .inl
    · exact .inr (.inr hmoving)
  · exact h.wires.high t (h.wires.genuine t ha)

/-- The timer is masked and unmasked while its request comes up. -/
def maskedOps : List VtmrOp :=
  [.activate 1, .begin .pit, .fetch .pit, .post, .smi, .smi, .smi, .smi, .smi, .mask .pit, .smi,
    .io, .smi, .unmask .pit, .io]

theorem requests_arrive_masked :
    ∃ s, Run.run step start maskedOps = some s ∧
      (s.regs.pirr .pit = true → 0 < s.regs.sem + s.regs.posts + s.smi.wakes + s.io.wakes) ∧
      (s.regs.donePred .pit = false → 0 < s.regs.begun .pit + s.regs.failing .pit ∨
        s.regs.pirr .pit = true ∨ s.smi.holds .pit = true ∨ s.io.raises .pit = true) ∧
      (s.regs.irr .pit = true → s.regs.imr .pit = false → s.regs.pics.Asked Timer.pit.line ∨
        s.regs.taken .pit = true ∨ s.smi.brings .pit = true ∨ s.io.unmasks .pit = true) ∧
      (s.regs.pics.Asked Timer.pit.line → s.regs.irr .pit = true ∨ s.io.acks .pit = true) := by
  have hok : Run.Admits step Spared start maskedOps := by decide
  obtain ⟨s, hs⟩ := Option.isSome_iff_exists.mp
    (show (Run.run step start maskedOps).isSome by decide)
  exact ⟨s, hs, requests_arrive hok hs .pit⟩

end VtmrState
end Pic
end Dosemu
