import Dosemu.Pic.Cascade

/-!
# Lines of the second controller

A device sees two things of its line: whether the controller has it high, and whether the request
that came of it is still there.  Only the device moves the line; only an acknowledgement takes the
request without it.

Main results:

- Theorems `setLine_high`, `setLine_asked`: what a device does to its line and to the others.
- Theorem `exec_line`: what everybody else does to a line.
-/

namespace Dosemu
namespace Pic
namespace Pics

variable {ps : Pics} {irq j : Nat} {level : Bool}

/-- The second controller saw its line `j` high. -/
def High (ps : Pics) (j : Nat) : Prop :=
  ps.pic1.lastIrr.getLsbD j = true

/-- The request of line `j` is there. -/
def Asked (ps : Pics) (j : Nat) : Prop :=
  ps.pic1.irr.getLsbD j = true

/-- The line of the second controller that an operation acknowledges -/
def acknowledged (ps : Pics) : Op → Option Nat
  | .getInum => if ps.pic0.getIrq = some 2 then ps.pic1.getIrq else none
  | .read true false => if ps.pic1.poll then ps.pic1.getIrq else none
  | .write true _ val => if ps.pic1.poll then some val.toNat else none
  | _ => none

/-- What takes all lines from the second controller at once -/
def Restarts (ps : Pics) : Op → Prop
  | .write true false val => ps.pic1.poll = false ∧ val.getLsbD 4 = true
  | .reset => True
  | _ => False

/-- The operations that neither move line `j` of the second controller nor restart it -/
def Spares (ps : Pics) (j : Nat) : Op → Prop
  | .setLine irq _ => irq ≠ j + 8
  | op => ¬ps.Restarts op

/-! ## The device -/

theorem put_second_pic1 (ps : Pics) (u : PicState.Updated) : (ps.put true u).pic1 = u.1 := by
  obtain ⟨s, updated⟩ := u
  cases updated <;> rfl

theorem put_first_pic1 (ps : Pics) (u : PicState.Updated) : (ps.put false u).pic1 = ps.pic1 :=
  rfl

end Pics

namespace PicState

variable {s : PicState} {irq j : Nat} {level : Bool}

theorem setIrq_lastIrr (s : PicState) (irq : Nat) (level : Bool) (hj : j < 8) :
    (s.setIrq irq level).lastIrr.getLsbD j =
      if irq = j then level else s.lastIrr.getLsbD j := by
  have hor : (s.lastIrr ||| bit irq).getLsbD j = (s.lastIrr.getLsbD j || decide (irq = j)) :=
    getLsbD_or_bit hj
  have hclear : (s.lastIrr &&& ~~~bit irq).getLsbD j =
      (s.lastIrr.getLsbD j && !decide (irq = j)) := getLsbD_clear_bit hj
  by_cases heq : irq = j
  · rw [decide_eq_true heq, Bool.or_true] at hor
    rw [decide_eq_true heq, Bool.not_true, Bool.and_false] at hclear
    rw [if_pos heq]
    unfold setIrq
    cases level with
    | false => exact hclear
    | true =>
      rw [if_pos rfl]
      split_ifs
      · exact hor
      · exact hor
      · exact hor
  · rw [decide_eq_false heq, Bool.or_false] at hor
    rw [decide_eq_false heq, Bool.not_false, Bool.and_true] at hclear
    rw [if_neg heq]
    unfold setIrq
    split_ifs
    · exact hor
    · exact hor
    · exact hor
    · exact hclear

/-- A line that goes up asks, one that goes down does not, and one that is high keeps what it
asked. -/
theorem setIrq_irr (s : PicState) (irq : Nat) (level : Bool) (hj : j < 8) :
    (irq ≠ j → (s.setIrq irq level).irr.getLsbD j = s.irr.getLsbD j) ∧
      (irq = j → level = false → (s.setIrq irq level).irr.getLsbD j = false) ∧
      (irq = j → level = true → s.lastIrr.getLsbD j = false →
        (s.setIrq irq level).irr.getLsbD j = true) ∧
      (level = true → s.irr.getLsbD j = true → (s.setIrq irq level).irr.getLsbD j = true) := by
  have hor : (s.irr ||| bit irq).getLsbD j = (s.irr.getLsbD j || decide (irq = j)) :=
    getLsbD_or_bit hj
  have hclear : (s.irr &&& ~~~bit irq).getLsbD j = (s.irr.getLsbD j && !decide (irq = j)) :=
    getLsbD_clear_bit hj
  refine ⟨?_, ?_, ?_, ?_⟩
  · intro hne
    rw [decide_eq_false hne, Bool.or_false] at hor
    rw [decide_eq_false hne, Bool.not_false, Bool.and_true] at hclear
    unfold setIrq
    split_ifs
    · exact hor
    · exact hor
    · rfl
    · exact hclear
  · rintro rfl rfl
    rw [decide_eq_true rfl, Bool.not_true, Bool.and_false] at hclear
    exact hclear
  · rintro rfl rfl hlow
    rw [decide_eq_true rfl, Bool.or_true] at hor
    have hedge : s.lastIrr &&& bit irq = 0 := (and_bit_eq_zero hj).mpr hlow
    unfold setIrq
    rw [if_pos rfl, if_pos hedge]
    split_ifs
    · exact hor
    · exact hor
  · rintro rfl hset
    rw [hset, Bool.true_or] at hor
    unfold setIrq
    rw [if_pos rfl]
    split_ifs
    · exact hor
    · exact hor
    · exact hset

theorem intack_irr (s : PicState) (irq : Nat) (hj : j < 8) (hne : irq ≠ j) :
    (s.intack irq).irr.getLsbD j = s.irr.getLsbD j := by
  unfold intack
  dsimp only
  split_ifs
  · rw [getLsbD_clear_bit hj, decide_eq_false hne, Bool.not_false, Bool.and_true]
  · rfl

theorem intack_irr_le (s : PicState) (irq : Nat) (hj : j < 8)
    (h : (s.intack irq).irr.getLsbD j = true) : s.irr.getLsbD j = true := by
  unfold intack at h
  dsimp only at h
  split_ifs at h
  · rw [getLsbD_clear_bit hj, Bool.and_eq_true] at h
    exact h.1
  · exact h

end PicState

namespace Pics

variable {ps : Pics} {irq j : Nat} {level : Bool}

theorem setLine_high (ps : Pics) (irq : Nat) (level : Bool) (hj : j < 8) :
    (ps.setLine irq level).High j ↔ if irq = j + 8 then level = true else ps.High j := by
  unfold setLine High
  by_cases hsecond : 8 ≤ irq
  · rw [if_pos hsecond, put_second_pic1, PicState.setIrq_lastIrr _ _ _ hj]
    have hiff : irq - 8 = j ↔ irq = j + 8 := by omega
    by_cases heq : irq = j + 8
    · rw [if_pos heq, if_pos (hiff.mpr heq)]
    · rw [if_neg heq, if_neg (mt hiff.mp heq)]
  · rw [if_neg hsecond, put_first_pic1, if_neg (by omega)]

theorem setLine_asked_of_ne (ps : Pics) (level : Bool) (hj : j < 8) (hne : irq ≠ j + 8) :
    (ps.setLine irq level).Asked j ↔ ps.Asked j := by
  unfold setLine Asked
  by_cases hsecond : 8 ≤ irq
  · rw [if_pos hsecond, put_second_pic1, (ps.pic1.setIrq_irr (irq - 8) level hj).1 (by omega)]
  · rw [if_neg hsecond, put_first_pic1]

/-- A line that is put up asks if it was low. -/
theorem setLine_asked (ps : Pics) (hj : j < 8) (h : ps.High j → ps.Asked j) :
    (ps.setLine (j + 8) true).Asked j := by
  unfold setLine Asked
  rw [if_pos (Nat.le_add_left 8 j), put_second_pic1, Nat.add_sub_cancel]
  obtain ⟨-, -, hedge, hkeep⟩ := ps.pic1.setIrq_irr j true hj
  by_cases hhigh : ps.High j
  · exact hkeep rfl (h hhigh)
  · exact hedge rfl rfl (Bool.eq_false_of_not_eq_true hhigh)

theorem setLine_low (ps : Pics) (hj : j < 8) : ¬(ps.setLine (j + 8) false).Asked j := by
  unfold setLine Asked
  rw [if_pos (Nat.le_add_left 8 j), put_second_pic1, Nat.add_sub_cancel,
    (ps.pic1.setIrq_irr j false hj).2.1 rfl rfl]
  exact Bool.false_ne_true

/-! ## Everybody else -/

theorem ioportWrite_line (s : PicState) (data : Bool) (val : Byte) (hj : j < 8)
    (h : s.poll = false → data = false → val.getLsbD 4 = false) :
    (s.ioportWrite data val).1.lastIrr = s.lastIrr ∧
      ((s.ioportWrite data val).1.irr.getLsbD j = true → s.irr.getLsbD j = true) ∧
      ((s.poll = true → val.toNat ≠ j) → s.irr.getLsbD j = true →
        (s.ioportWrite data val).1.irr.getLsbD j = true) := by
  rcases s.ioportWrite_cases data val with
    ⟨hpoll, heq⟩ | ⟨-, -, heq⟩ | ⟨hpoll, hdata, hicw, heq⟩ | ⟨-, -, -, -, heq⟩ |
    ⟨-, -, -, -, heq⟩
  · rw [heq]
    refine ⟨rfl, PicState.intack_irr_le _ _ hj, ?_⟩
    intro hne hset
    exact (PicState.intack_irr { s with fakeIrr := s.fakeIrr &&& ~~~bit val.toNat } _ hj
      (hne hpoll)).trans hset
  · rw [heq]
    rcases s.writeData_cases val with heq | ⟨_, _, _, _, heq⟩
    · rw [heq]
      exact ⟨rfl, id, fun _ => id⟩
    · rw [heq]
      exact ⟨rfl, id, fun _ => id⟩
  · rw [h hpoll hdata] at hicw
    cases hicw
  · rw [heq]
    exact ⟨rfl, id, fun _ => id⟩
  · rw [heq]
    rcases s.command_cases val with heq | ⟨_, heq⟩ | ⟨_, _, heq⟩
    · rw [heq]
      exact ⟨rfl, id, fun _ => id⟩
    · rw [heq]
      exact ⟨rfl, id, fun _ => id⟩
    · rw [heq]
      exact ⟨rfl, id, fun _ => id⟩

theorem ioportRead_line (s : PicState) (data : Bool) (hj : j < 8) :
    (s.ioportRead data).2.1.lastIrr = s.lastIrr ∧
      ((s.ioportRead data).2.1.irr.getLsbD j = true → s.irr.getLsbD j = true) ∧
      ((s.poll = true → data = false → s.getIrq ≠ some j) → s.irr.getLsbD j = true →
        (s.ioportRead data).2.1.irr.getLsbD j = true) := by
  rcases s.ioportRead_cases data with heq | heq | ⟨irq, hpoll, hdata, hget, heq⟩
  · rw [heq]
    exact ⟨rfl, id, fun _ => id⟩
  · rw [heq]
    exact ⟨rfl, id, fun _ => id⟩
  · rw [heq]
    refine ⟨rfl, PicState.intack_irr_le _ _ hj, ?_⟩
    intro hne hset
    have hirq : irq ≠ j := fun heq => hne hpoll hdata (heq ▸ hget)
    exact (PicState.intack_irr s irq hj hirq).trans hset

theorem readIrq_line (ps : Pics) (hj : j < 8) :
    ps.readIrq.2.pic1.lastIrr = ps.pic1.lastIrr ∧
      (ps.readIrq.2.Asked j → ps.Asked j) ∧
      (ps.acknowledged .getInum ≠ some j → ps.Asked j → ps.readIrq.2.Asked j) := by
  unfold acknowledged
  cases hget : ps.pic0.getIrq with
  | none =>
    rw [readIrq_none hget]
    exact ⟨rfl, id, fun _ => id⟩
  | some irq =>
    by_cases htwo : irq = 2
    · subst htwo
      dsimp only
      rw [if_pos rfl]
      cases hget2 : ps.pic1.getIrq with
      | none =>
        have heq : ps.readIrq.2 = ps.put false (ps.pic0.intack 2, true) := by
          unfold readIrq
          rw [hget, hget2]
          rfl
        rw [heq]
        exact ⟨rfl, id, fun _ => id⟩
      | some irq2 =>
        rw [readIrq_cascaded hget hget2]
        refine ⟨rfl, PicState.intack_irr_le _ _ hj, ?_⟩
        intro hne hset
        exact (PicState.intack_irr ps.pic1 irq2 hj fun heq => hne (congrArg some heq)).trans hset
    · rw [readIrq_own hget htwo]
      exact ⟨rfl, id, fun _ => id⟩

/-- What everybody else does to a line of the second controller: it stays where it is, and its
request stays there unless it is acknowledged. -/
theorem exec_line {op : Op} (hj : j < 8) (hop : ps.Spares j op) :
    ((ps.exec op).2.High j ↔ ps.High j) ∧ ((ps.exec op).2.Asked j → ps.Asked j) ∧
      (ps.acknowledged op ≠ some j → ps.Asked j → (ps.exec op).2.Asked j) := by
  cases op with
  | setLine irq level =>
    have hhigh := ps.setLine_high irq level hj
    rw [if_neg hop] at hhigh
    have hasked := ps.setLine_asked_of_ne level hj hop
    exact ⟨hhigh, hasked.mp, fun _ => hasked.mpr⟩
  | write second data val =>
    cases second with
    | false => exact ⟨Iff.rfl, id, fun _ => id⟩
    | true =>
      have hquiet : ps.pic1.poll = false → data = false → val.getLsbD 4 = false := by
        rintro hpoll rfl
        exact Bool.eq_false_of_not_eq_true fun hicw => hop ⟨hpoll, hicw⟩
      obtain ⟨hlast, hback, hkeep⟩ := ioportWrite_line ps.pic1 data val hj hquiet
      have hpic : (ps.exec (.write true data val)).2.pic1 = (ps.pic1.ioportWrite data val).1 :=
        ps.put_second_pic1 _
      unfold High Asked
      rw [hpic, hlast]
      refine ⟨Iff.rfl, hback, fun hack => hkeep fun hpoll heq => hack ?_⟩
      change (if ps.pic1.poll then some val.toNat else none) = some j
      rw [if_pos hpoll, heq]
  | read second data =>
    cases second with
    | false => exact ⟨Iff.rfl, id, fun _ => id⟩
    | true =>
      obtain ⟨hlast, hback, hkeep⟩ := ioportRead_line ps.pic1 data hj
      have hpic : (ps.exec (.read true data)).2.pic1 = (ps.pic1.ioportRead data).2.1 :=
        ps.put_second_pic1 _
      unfold High Asked
      rw [hpic, hlast]
      refine ⟨Iff.rfl, hback, fun hack => hkeep fun hpoll hdata heq => hack ?_⟩
      subst hdata
      unfold acknowledged
      rw [if_pos hpoll, heq]
  | writeElcr second val =>
    cases second with
    | false => exact ⟨Iff.rfl, id, fun _ => id⟩
    | true => exact ⟨Iff.rfl, id, fun _ => id⟩
  | writeFirr second val =>
    cases second with
    | false => exact ⟨Iff.rfl, id, fun _ => id⟩
    | true => exact ⟨Iff.rfl, id, fun _ => id⟩
  | getInum =>
    obtain ⟨hlast, hback, hkeep⟩ := ps.readIrq_line hj
    change (ps.readIrq.2.High j ↔ _) ∧ _
    unfold High
    rw [hlast]
    exact ⟨Iff.rfl, hback, hkeep⟩
  | reset => exact absurd trivial hop

/-- A restart puts all lines down, and asks nothing of its own. -/
theorem exec_restart {op : Op} (hop : ps.Restarts op) :
    ¬(ps.exec op).2.High j ∧ ((ps.exec op).2.Asked j → ps.Asked j) := by
  have hcommon : ∀ s : PicState, s.resetCommon.lastIrr.getLsbD j ≠ true ∧
      (s.resetCommon.irr.getLsbD j = true → s.irr.getLsbD j = true) := by
    intro s
    constructor
    · intro h
      cases (BitVec.getLsbD_zero (w := 8) (i := j)).symm.trans h
    · intro h
      rw [show s.resetCommon.irr = s.irr &&& s.elcr from rfl, BitVec.getLsbD_and,
        Bool.and_eq_true] at h
      exact h.1
  cases op with
  | write second data val =>
    cases second with
    | false => cases hop
    | true =>
      cases data with
      | true => cases hop
      | false =>
        obtain ⟨hpoll, hicw⟩ := hop
        have hpic : (ps.exec (.write true false val)).2.pic1 = ps.pic1.initialize1 val := by
          refine (ps.put_second_pic1 (ps.pic1.ioportWrite false val)).trans ?_
          unfold PicState.ioportWrite
          rw [hpoll, hicw]
          rfl
        unfold High Asked
        rw [hpic]
        exact hcommon ps.pic1
  | reset =>
    have hpic : (ps.exec .reset).2.pic1 =
        ({ ps.pic1 with elcr := 0 } : PicState).resetCommon := by
      exact (ps.resetChip false).put_second_pic1 _
    unfold High Asked
    rw [hpic]
    exact hcommon { ps.pic1 with elcr := 0 }
  | setLine _ _ => cases hop
  | read _ _ => cases hop
  | writeElcr _ _ => cases hop
  | writeFirr _ _ => cases hop
  | getInum => cases hop

instance (ps : Pics) (j : Nat) : Decidable (ps.High j) :=
  inferInstanceAs (Decidable (_ = true))

instance (ps : Pics) (j : Nat) : Decidable (ps.Asked j) :=
  inferInstanceAs (Decidable (_ = true))

instance (ps : Pics) : ∀ op, Decidable (ps.Restarts op)
  | .write true false _ => inferInstanceAs (Decidable (_ ∧ _))
  | .reset => .isTrue trivial
  | .write true true _ => .isFalse id
  | .write false _ _ => .isFalse id
  | .setLine _ _ => .isFalse id
  | .read _ _ => .isFalse id
  | .writeElcr _ _ => .isFalse id
  | .writeFirr _ _ => .isFalse id
  | .getInum => .isFalse id

instance (ps : Pics) (j : Nat) : ∀ op, Decidable (ps.Spares j op)
  | .setLine _ _ => inferInstanceAs (Decidable (_ ≠ _))
  | .write second data val => inferInstanceAs (Decidable (¬ps.Restarts (.write second data val)))
  | .read second data => inferInstanceAs (Decidable (¬ps.Restarts (.read second data)))
  | .writeElcr second val => inferInstanceAs (Decidable (¬ps.Restarts (.writeElcr second val)))
  | .writeFirr second val => inferInstanceAs (Decidable (¬ps.Restarts (.writeFirr second val)))
  | .getInum => inferInstanceAs (Decidable (¬ps.Restarts .getInum))
  | .reset => inferInstanceAs (Decidable (¬ps.Restarts .reset))

end Pics
end Pic
end Dosemu
