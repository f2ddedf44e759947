import Dosemu.Pic.Vtmr

/-!
# Ticks of the PIT

The clock counts its ticks in `q_ticks` and asks for an interrupt when there was none; the handler
counts them down and asks again while there are more.

Main results:

- Theorems `smiMove_counted`, `ioMove_counted`, `otherMove_counted`: each step keeps the number of
  requests that are under way in accord with the ticks.
- Theorem `ticks_counted`: in every interleaving there is one request under way exactly while
  there are ticks left to acknowledge.
-/

namespace Dosemu
namespace Pic

/-! ## Requests under way -/

/-- The requests of the PIT that the timer thread has taken and not handed on -/
def SmiPc.tokens : SmiPc → Nat
  | .waiting => 0
  | .awake => 0
  | .scanning rest => (rest .pit).toNat
  | .probing t _ rest => (decide (t = .pit)).toNat + (rest .pit).toNat
  | .requesting t _ rest => (decide (t = .pit)).toNat + (rest .pit).toNat
  | .requested _ rest => (rest .pit).toNat
  | .raising _ rest => (rest .pit).toNat
  | .faking _ rest => (rest .pit).toNat
  | .pulsed t rest => (decide (t = .pit)).toNat + (rest .pit).toNat
  | .reraising t rest => (decide (t = .pit)).toNat + (rest .pit).toNat
  | .posting _ rest => (rest .pit).toNat
  | .finishing _ rest => (rest .pit).toNat

def IoPc.tokens : IoPc → Nat
  | .lagging _ .begin => 1
  | .lagging _ .fetch => 1
  | .acking t _ => (decide (t = .pit)).toNat
  | .handling t _ => (decide (t = .pit)).toNat
  | .reraising t => (decide (t = .pit)).toNat
  | _ => 0

/-- The requests of the PIT that are under way -/
def Vtmr.underWay (v : Vtmr) (smi : SmiPc) (io : IoPc) : Nat :=
  v.claimed .pit + v.begun .pit + (v.pirr .pit).toNat + (v.irr .pit).toNat + smi.tokens + io.tokens

/-- One request is under way while there are ticks to acknowledge, and none otherwise; and each
tick that was reported, or run by hand before it is, is acknowledged or left. -/
structure Counted (v : Vtmr) (smi : SmiPc) (io : IoPc) : Prop where
  bound : v.ticks < 2 ^ 32
  sum : v.acked + v.ticks = v.reported + v.skip
  one : v.underWay smi io = if v.ticks = 0 then 0 else 1

theorem TimerSet.put_pit (w : TimerSet) (t : Timer) (b : Bool) :
    w.put t b .pit = if t = .pit then b else w .pit := by
  by_cases heq : t = .pit
  · rw [if_pos heq, heq, put_self]
  · rw [if_neg heq, put_of_ne _ (Ne.symm heq)]

section

variable {v v' : Vtmr} {smi smi' : SmiPc} {io io' : IoPc} {op : VtmrOp}

theorem Counted.le_one (h : Counted v smi io) : v.underWay smi io ≤ 1 := by
  rw [h.one]
  split_ifs
  · exact Nat.zero_le 1
  · exact Nat.le_refl 1

/-- A step that hands a request on -/
theorem Counted.moved (h : Counted v smi io) (hticks : v'.ticks = v.ticks)
    (hacked : v'.acked = v.acked) (hreported : v'.reported = v.reported)
    (hskip : v'.skip = v.skip) (hsame : v'.underWay smi' io' = v.underWay smi io) :
    Counted v' smi' io' where
  bound := by
    rw [hticks]
    exact h.bound
  sum := by
    rw [hticks, hacked, hreported, hskip]
    exact h.sum
  one := by
    rw [hticks, hsame]
    exact h.one

/-- The handler acknowledges one tick, and asks for another request if there are more. -/
theorem Counted.handle (h : Counted v smi io) {t : Timer} (masked : Bool)
    (hthere : t = .pit → 0 < v.underWay smi io)
    (htokens : smi'.tokens + io'.tokens + (decide (t = .pit)).toNat =
      smi.tokens + io.tokens + (decide (t = .pit) && (v.handle t masked).2).toNat) :
    Counted (v.handle t masked).1 smi' io' := by
  cases t with
  | pit =>
    have hone := h.one
    have hpos := hthere rfl
    have hbound := h.bound
    have hticks : v.ticks ≠ 0 := by
      intro hzero
      rw [if_pos hzero] at hone
      omega
    rw [if_neg hticks] at hone
    have hleft : (v.ticks + (2 ^ 32 - 1)) % 2 ^ 32 = v.ticks - 1 := by omega
    have hhandle : v.handle .pit masked =
        ({ v with ticks := v.ticks - 1, acked := v.acked + 1 }, decide (v.ticks - 1 ≠ 0)) := by
      unfold Vtmr.handle
      dsimp only
      rw [hleft]
    rw [hhandle] at htokens ⊢
    have hsum := h.sum
    refine ⟨(Nat.sub_le _ _).trans_lt hbound, ?_, ?_⟩
    · dsimp only
      omega
    unfold Vtmr.underWay at hone ⊢
    dsimp only at htokens ⊢
    rw [decide_eq_true rfl, Bool.true_and, Bool.toNat_true] at htokens
    by_cases hlast : v.ticks - 1 = 0
    · rw [if_pos hlast]
      rw [decide_eq_false (not_not.mpr hlast), Bool.toNat_false] at htokens
      omega
    · rw [if_neg hlast]
      rw [decide_eq_true hlast, Bool.toNat_true] at htokens
      omega
  | rtc =>
    rw [decide_eq_false nofun, Bool.false_and] at htokens
    obtain ⟨hticks, hacked, hreported, hskip⟩ : (v.handle .rtc masked).1.ticks = v.ticks ∧
        (v.handle .rtc masked).1.acked = v.acked ∧
        (v.handle .rtc masked).1.reported = v.reported ∧
        (v.handle .rtc masked).1.skip = v.skip := by
      cases masked <;> exact ⟨rfl, rfl, rfl, rfl⟩
    refine h.moved hticks hacked hreported hskip ?_
    have hregs : (v.handle .rtc masked).1.underWay smi' io' = v.underWay smi' io' := by
      cases masked <;> rfl
    rw [hregs]
    unfold Vtmr.underWay
    omega

/-- A bit that was clear is set, as the request is handed on by the thread that held it. -/
theorem toNat_put {w : TimerSet} {t : Timer} (hclear : w t = false) :
    (w.put t true .pit).toNat = (decide (t = .pit)).toNat + (w .pit).toNat := by
  rw [TimerSet.put_pit]
  cases t with
  | pit =>
    rw [if_pos rfl, hclear, decide_eq_true rfl]
    rfl
  | rtc => rw [if_neg nofun, decide_eq_false nofun, Bool.toNat_false, Nat.zero_add]

/-- A bit that is set is cleared by the thread that takes the request. -/
theorem toNat_unput {w : TimerSet} {t : Timer} (hset : w t = true) :
    (decide (t = .pit)).toNat + (w.put t false .pit).toNat = (w .pit).toNat := by
  rw [TimerSet.put_pit]
  cases t with
  | pit =>
    rw [if_pos rfl, hset, decide_eq_true rfl]
    rfl
  | rtc => rw [if_neg nofun, decide_eq_false nofun, Bool.toNat_false, Nat.zero_add]

/-- There is no second request of the PIT to be dropped. -/
theorem toNat_of_le_one {t : Timer} {b : Bool} {n : Nat} (hb : t = .pit → b = true)
    (hle : b.toNat + (decide (t = .pit)).toNat + n ≤ 1) : (decide (t = .pit)).toNat = 0 := by
  cases t with
  | pit =>
    rw [hb rfl, decide_eq_true rfl, Bool.toNat_true] at hle
    omega
  | rtc => exact congrArg Bool.toNat (decide_eq_false nofun)

theorem smiMove_counted (h : Counted v smi io) (hmove : SmiMove v io smi v' smi') :
    Counted v' smi' io := by
  have hle := h.le_one
  unfold Vtmr.underWay at hle
  cases hmove with
  | fetch =>
    refine h.moved rfl rfl rfl rfl ?_
    unfold Vtmr.underWay SmiPc.tokens
    dsimp only
    rw [Bool.toNat_false]
    omega
  | done hfirst =>
    refine h.moved rfl rfl rfl rfl ?_
    unfold Vtmr.underWay SmiPc.tokens
    dsimp only
    rw [TimerSet.first_eq_none hfirst]
    rfl
  | next hfirst low =>
    refine h.moved rfl rfl rfl rfl ?_
    unfold Vtmr.underWay SmiPc.tokens
    dsimp only
    rw [toNat_unput (TimerSet.first_eq_some hfirst)]
  | @again t rest hirr =>
    have hnone : (decide (t = .pit)).toNat = 0 := by
      refine toNat_of_le_one (b := v.irr .pit) (n := 0) ?_ ?_
      · rintro rfl
        exact hirr
      · unfold SmiPc.tokens at hle
        dsimp only at hle
        omega
    refine h.moved rfl rfl rfl rfl ?_
    unfold Vtmr.underWay SmiPc.tokens
    dsimp only
    omega
  | request hfree hirr =>
    refine h.moved rfl rfl rfl rfl ?_
    unfold Vtmr.underWay SmiPc.tokens
    dsimp only
    rw [toNat_put hirr]
    omega
  | @handle t rest =>
    refine h.handle false ?_ ?_
    · rintro rfl
      unfold Vtmr.underWay SmiPc.tokens
      dsimp only
      rw [decide_eq_true rfl, Bool.toNat_true]
      omega
    · cases (v.handle t false).2 with
      | true =>
        rw [if_pos rfl, Bool.and_true]
        rfl
      | false =>
        rw [if_neg Bool.false_ne_true, Bool.and_false, Bool.toNat_false]
        unfold SmiPc.tokens
        dsimp only
        omega
  | @raised t rest hpirr =>
    have hnone : (decide (t = .pit)).toNat = 0 := by
      refine toNat_of_le_one (b := v.pirr .pit) (n := 0) ?_ ?_
      · rintro rfl
        exact hpirr
      · unfold SmiPc.tokens at hle
        dsimp only at hle
        omega
    refine h.moved rfl rfl rfl rfl ?_
    unfold Vtmr.underWay SmiPc.tokens
    dsimp only
    omega
  | reraise hpirr =>
    refine h.moved rfl rfl rfl rfl ?_
    unfold Vtmr.underWay SmiPc.tokens
    dsimp only
    rw [toNat_put hpirr]
    omega
  | _ => exact h.moved rfl rfl rfl rfl rfl

theorem ioMove_counted (h : Counted v smi io) (hmove : IoMove v smi io v' io') :
    Counted v' smi io' := by
  have hle := h.le_one
  unfold Vtmr.underWay at hle
  cases hmove with
  | mask t hpc => rcases hpc with rfl | rfl <;> exact h.moved rfl rfl rfl rfl rfl
  | noRequest hpc => rcases hpc with rfl | rfl <;> exact h.moved rfl rfl rfl rfl rfl
  | sync hpc => rcases hpc with rfl | rfl <;> exact h.moved rfl rfl rfl rfl rfl
  | @take t _ hpc masked hfree hirr =>
    have hfirst : Counted v smi .idle := by
      rcases hpc with rfl | rfl <;> exact h.moved rfl rfl rfl rfl rfl
    refine hfirst.moved rfl rfl rfl rfl ?_
    unfold Vtmr.underWay IoPc.tokens
    dsimp only
    have htake := toNat_unput hirr
    omega
  | lag act hticks =>
    have hone := h.one
    rw [if_pos hticks] at hone
    have hsum := h.sum
    refine ⟨Nat.one_lt_two_pow (by decide), ?_, ?_⟩
    · dsimp only
      omega
    unfold Vtmr.underWay IoPc.tokens at hone ⊢
    dsimp only at hone ⊢
    rw [if_neg Nat.one_ne_zero]
    omega
  | raised hpirr =>
    unfold IoPc.tokens at hle
    dsimp only at hle
    rw [hpirr, Bool.toNat_true] at hle
    omega
  | fetch hpirr =>
    refine h.moved rfl rfl rfl rfl ?_
    unfold Vtmr.underWay IoPc.tokens
    dsimp only
    rw [toNat_put hpirr, decide_eq_true rfl, Bool.toNat_true]
    omega
  | @handle t masked =>
    refine h.handle masked ?_ ?_
    · rintro rfl
      unfold Vtmr.underWay IoPc.tokens
      dsimp only
      rw [decide_eq_true rfl, Bool.toNat_true]
      omega
    · cases (v.handle t masked).2 with
      | true =>
        rw [if_pos rfl, Bool.and_true]
        rfl
      | false =>
        rw [if_neg Bool.false_ne_true, Bool.and_false, Bool.toNat_false]
        rfl
  | @stays t hpirr =>
    have hnone : (decide (t = .pit)).toNat = 0 := by
      refine toNat_of_le_one (b := v.pirr .pit) (n := 0) ?_ ?_
      · rintro rfl
        exact hpirr
      · unfold IoPc.tokens at hle
        dsimp only at hle
        omega
    refine h.moved rfl rfl rfl rfl ?_
    unfold Vtmr.underWay IoPc.tokens
    dsimp only
    omega
  | reraise hpirr =>
    refine h.moved rfl rfl rfl rfl ?_
    unfold Vtmr.underWay IoPc.tokens
    dsimp only
    rw [toNat_put hpirr]
    omega
  | _ => exact h.moved rfl rfl rfl rfl rfl

theorem otherMove_counted {s : VtmrState} (h : Counted s.regs s.smi s.io) (hok : s.Good op)
    (hmove : OtherMove s.regs op v') : Counted v' s.smi s.io := by
  have hle := h.le_one
  have hone := h.one
  have hsum := h.sum
  unfold Vtmr.underWay at hle
  cases hmove with
  | skip hskip =>
    refine ⟨h.bound, ?_, h.one⟩
    have hsingle := hok.2 hskip
    dsimp only
    omega
  | noTick => exact h
  | claim hn hticks =>
    rw [Nat.mod_eq_of_lt hok.1]
    refine ⟨hok.1, ?_, ?_⟩
    · dsimp only
      omega
    unfold Vtmr.underWay at hone ⊢
    dsimp only
    rw [if_pos hticks] at hone
    rw [if_neg (by omega), Function.update_self]
    omega
  | more hticks =>
    rw [Nat.mod_eq_of_lt hok.1]
    refine ⟨hok.1, ?_, ?_⟩
    · dsimp only
      omega
    unfold Vtmr.underWay at hone ⊢
    dsimp only
    rw [if_neg hticks] at hone
    rw [if_neg (by omega)]
    exact hone
  | @begin t hclaimed =>
    refine h.moved rfl rfl rfl rfl ?_
    unfold Vtmr.underWay
    dsimp only
    cases t with
    | pit =>
      rw [Function.update_self, Function.update_self]
      omega
    | rtc => rfl
  | @raised t hbegun hpirr =>
    refine h.moved rfl rfl rfl rfl ?_
    unfold Vtmr.underWay
    dsimp only
    cases t with
    | pit =>
      rw [hpirr, Bool.toNat_true] at hle
      omega
    | rtc => rfl
  | @fetch t hbegun hpirr =>
    refine h.moved rfl rfl rfl rfl ?_
    unfold Vtmr.underWay
    dsimp only
    rw [toNat_put hpirr]
    cases t with
    | pit =>
      rw [decide_eq_true rfl, Function.update_self, Bool.toNat_true]
      omega
    | rtc =>
      rw [decide_eq_false nofun, Bool.toNat_false, Nat.zero_add]
      rfl
  | _ => exact h.moved rfl rfl rfl rfl rfl

end

/-! ## Runs -/

namespace VtmrState

/-- The count of the whole state -/
def Counts (s : VtmrState) : Prop :=
  Counted s.regs s.smi s.io

variable {s s' : VtmrState} {op : VtmrOp}

/-- One step of any thread keeps it. -/
theorem step_counts (h : s.Counts) (hok : s.Good op) (hstep : s.step op = some s') :
    s'.Counts := by
  rcases step_cases hstep with ⟨v, smi, hmove, rfl⟩ | ⟨v, io, hmove, rfl⟩ | ⟨v, hmove, rfl⟩
  · exact smiMove_counted h hmove
  · exact ioMove_counted h hmove
  · exact otherMove_counted (s := s) h hok hmove

theorem start_counts : start.Counts :=
  ⟨Nat.two_pow_pos 32, rfl, rfl⟩

/-- In every interleaving of the clock, the timer thread and the emulation thread, each tick that
was reported, or run by hand before it is, was acknowledged or is left; and there is one request
of the PIT under way while ticks are left, and none otherwise: the timer neither stops nor
acknowledges a tick that never was. -/
theorem ticks_counted {ops : List VtmrOp} (hok : Run.Admits step Good start ops)
    (hrun : Run.run step start ops = some s) :
    s.regs.acked + s.regs.ticks = s.regs.reported + s.regs.skip ∧
      s.regs.underWay s.smi s.io = if s.regs.ticks = 0 then 0 else 1 := by
  have h : s.Counts :=
    Run.run_invariant Good Counts (fun _ _ _ h hok hstep => step_counts h hok hstep) start_counts
      hok hrun
  exact ⟨h.sum, h.one⟩

/-- Two ticks at once, of which the first one is acknowledged, and another tick while the timer is
raised again -/
def backlogOps : List VtmrOp :=
  [.activate 2, .begin .pit, .fetch .pit, .post, .smi, .smi, .smi, .smi, .smi, .smi, .smi,
    .ack .pit false, .io, .io, .io, .activate 1]

theorem ticks_counted_backlog :
    ∃ s, Run.run step start backlogOps = some s ∧
      s.regs.acked + s.regs.ticks = s.regs.reported + s.regs.skip ∧
      s.regs.underWay s.smi s.io = if s.regs.ticks = 0 then 0 else 1 := by
  have hok : Run.Admits step Good start backlogOps := by decide
  obtain ⟨s, hs⟩ := Option.isSome_iff_exists.mp
    (show (Run.run step start backlogOps).isSome by decide)
  exact ⟨s, hs, ticks_counted hok hs⟩

end VtmrState
end Pic
end Dosemu
