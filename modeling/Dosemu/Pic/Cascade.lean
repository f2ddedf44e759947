import Dosemu.Pic.Model

/-!
# The cascade

The second controller tells the first of a change of its output as an edge on line 2.  A change
that it does not tell of, or an acknowledgement on the first controller alone, leaves the two
apart: then a request is lost, or an interrupt number is made up.

Main results:

- Theorem `update1_joined`: `pic_update_irq` brings the two together.
- Theorem `exec_joined`: one operation keeps them together.
- Theorem `inum_genuine`: in every run of such operations, the first controller has line 2
  requested exactly if the second one offers a line, and a number is only made up if no line
  is offered.
-/

namespace Dosemu
namespace Pic

/-! ## Operations of the second controller -/

namespace PicState

variable {s : PicState} {data level : Bool} {val : Byte}

/-- No step makes a slave of a master, or the reverse. -/
theorem setIrq_master (s : PicState) (irq : Nat) (level : Bool) :
    (s.setIrq irq level).master = s.master := by
  unfold setIrq
  split_ifs
  · rfl
  · rfl
  · rfl
  · rfl

theorem ioportWrite_master (s : PicState) (data : Bool) (val : Byte) :
    (s.ioportWrite data val).1.master = s.master := by
  rcases s.ioportWrite_cases data val with
    ⟨-, h⟩ | ⟨-, -, h⟩ | ⟨-, -, -, h⟩ | ⟨-, -, -, -, h⟩ | ⟨-, -, -, -, h⟩
  · rw [h]
    rfl
  · rw [h]
    rcases s.writeData_cases val with h | ⟨_, _, _, _, h⟩
    · rw [h]
    · rw [h]
  · rw [h]
    rfl
  · rw [h]
    rfl
  · rw [h]
    rcases s.command_cases val with h | ⟨_, h⟩ | ⟨_, _, h⟩
    · rw [h]
    · rw [h]
    · rw [h]

theorem ioportRead_master (s : PicState) (data : Bool) :
    (s.ioportRead data).2.1.master = s.master := by
  rcases s.ioportRead_cases data with h | h | ⟨irq, -, -, -, h⟩
  · rw [h]
  · rw [h]
  · rw [h]
    rfl

/-- A change of the special mask mode while a masked line is in service, of which the first
controller does not hear -/
def Unmasks (s : PicState) (data : Bool) (val : Byte) : Prop :=
  s.poll = false ∧ data = false ∧ val.getLsbD 4 = false ∧ val.getLsbD 3 = true ∧
    val.getLsbD 6 = true ∧ s.isr &&& s.imr ≠ 0

/-- With no masked line in service the special mask mode makes no difference. -/
theorem inService_control (h : val.getLsbD 6 = true → s.isr &&& s.imr = 0) :
    (s.control val).inService = s.inService := by
  unfold inService control
  dsimp only
  by_cases hspecial : val.getLsbD 6 = true
  · have hclear : s.isr &&& ~~~s.imr = s.isr := by
      ext i hi
      have hbit := congrArg (fun v : Byte => v[i]) (h hspecial)
      simp only [BitVec.getElem_and] at hbit
      simp only [BitVec.getElem_and, BitVec.getElem_not]
      cases hisr : s.isr[i] with
      | false => rfl
      | true =>
        rw [hisr, Bool.true_and] at hbit
        rw [hbit]
        simp
    rw [hclear, ite_self, ite_self]
  · rw [if_neg hspecial]

/-- What the second controller does not tell of does not change its output. -/
theorem ioportWrite_silent (hmaster : s.master = false) (hmask : ¬s.Unmasks data val)
    (h : (s.ioportWrite data val).2 = false) : (s.ioportWrite data val).1.getIrq = s.getIrq := by
  rcases s.ioportWrite_cases data val with
    ⟨-, heq⟩ | ⟨-, -, heq⟩ | ⟨-, -, -, heq⟩ | ⟨hpoll, hdata, hicw, hocw, heq⟩ | ⟨-, -, -, -, heq⟩
  · rw [heq] at h
    cases h
  · rw [heq] at h ⊢
    rcases s.writeData_cases val with heq | ⟨_, _, _, _, heq⟩
    · rw [heq] at h
      cases h
    · rw [heq]
      refine getIrq_congr rfl rfl rfl ?_
      unfold inService
      dsimp only
      rw [hmaster, Bool.and_false, Bool.and_false]
  · rw [heq] at h
    cases h
  · rw [heq]
    refine getIrq_congr rfl rfl rfl (inService_control ?_)
    intro hspecial
    by_contra hne
    exact hmask ⟨hpoll, hdata, hicw, hocw, hspecial, hne⟩
  · rw [heq] at h ⊢
    rcases s.command_cases val with heq | ⟨_, heq⟩ | ⟨_, _, heq⟩
    · rw [heq]
    · rw [heq]
      rfl
    · rw [heq] at h
      cases h

theorem ioportRead_silent (h : (s.ioportRead data).2.2 = false) :
    (s.ioportRead data).2.1.getIrq = s.getIrq := by
  rcases s.ioportRead_cases data with heq | heq | ⟨irq, -, -, -, heq⟩
  · rw [heq]
  · rw [heq]
    rfl
  · rw [heq] at h
    cases h

/-! ## Line 2 of the first controller -/

/-- The request of line 2 is what its level was when it was last told. -/
structure Wired (s : PicState) (level : Bool) : Prop where
  irr : s.irr.getLsbD 2 = level
  lastIrr : s.lastIrr.getLsbD 2 = level
  elcr : s.elcr.getLsbD 2 = false
  elcrMask : s.elcrMask.getLsbD 2 = false

variable {v : Byte} {irq j : Nat}

theorem and_bit_eq_zero (hirq : irq < 8) :
    v &&& bit irq = 0 ↔ v.getLsbD irq = false := by
  constructor
  · intro h
    have hbit := congrArg (fun w : Byte => w.getLsbD irq) h
    simp only [BitVec.getLsbD_and, getLsbD_bit hirq, decide_true, Bool.and_true] at hbit
    rw [hbit]
    simp
  · intro h
    apply BitVec.eq_of_getLsbD_eq
    intro j hj
    rw [BitVec.getLsbD_and, getLsbD_bit hj]
    by_cases heq : irq = j
    · rw [← heq, h]
      simp
    · simp [heq]

theorem getLsbD_or_bit (hj : j < 8) :
    (v ||| bit irq).getLsbD j = (v.getLsbD j || decide (irq = j)) := by
  rw [BitVec.getLsbD_or, getLsbD_bit hj]

theorem getLsbD_clear_bit (hj : j < 8) :
    (v &&& ~~~bit irq).getLsbD j = (v.getLsbD j && !decide (irq = j)) := by
  rw [BitVec.getLsbD_and, BitVec.getLsbD_not, getLsbD_bit hj, decide_eq_true hj, Bool.true_and]

/-- The cascade line follows its level. -/
theorem Wired.setIrq2 (h : Wired s level) (new : Bool) : Wired (s.setIrq 2 new) new := by
  have helcr : s.elcr &&& bit 2 = 0 := (and_bit_eq_zero (by decide)).mpr h.elcr
  unfold setIrq
  cases new with
  | false =>
    rw [if_neg (by decide)]
    refine ⟨?_, ?_, h.elcr, h.elcrMask⟩
    · rw [getLsbD_clear_bit (by decide), decide_eq_true rfl, Bool.not_true, Bool.and_false]
    · rw [getLsbD_clear_bit (by decide), decide_eq_true rfl, Bool.not_true, Bool.and_false]
  | true =>
    rw [if_pos rfl, if_neg (not_not.mpr helcr)]
    refine ⟨?_, ?_, h.elcr, h.elcrMask⟩
    · dsimp only
      split_ifs with hedge
      · rw [getLsbD_or_bit (by decide), decide_eq_true rfl, Bool.or_true]
      · have hset := mt (and_bit_eq_zero (by decide)).mpr hedge
        rw [h.lastIrr, Bool.not_eq_false] at hset
        rw [h.irr, hset]
    · rw [getLsbD_or_bit (by decide), decide_eq_true rfl, Bool.or_true]

/-- Other lines leave it alone. -/
theorem Wired.setIrq (h : Wired s level) (hirq : irq ≠ 2) (new : Bool) :
    Wired (s.setIrq irq new) level := by
  have hne : decide (irq = 2) = false := decide_eq_false hirq
  have hor : ∀ v : Byte, (v ||| bit irq).getLsbD 2 = v.getLsbD 2 := by
    intro v
    rw [getLsbD_or_bit (by decide), hne, Bool.or_false]
  have hclear : ∀ v : Byte, (v &&& ~~~bit irq).getLsbD 2 = v.getLsbD 2 := by
    intro v
    rw [getLsbD_clear_bit (by decide), hne, Bool.not_false, Bool.and_true]
  unfold PicState.setIrq
  split_ifs
  · exact ⟨(hor _).trans h.irr, (hor _).trans h.lastIrr, h.elcr, h.elcrMask⟩
  · exact ⟨(hor _).trans h.irr, (hor _).trans h.lastIrr, h.elcr, h.elcrMask⟩
  · exact ⟨h.irr, (hor _).trans h.lastIrr, h.elcr, h.elcrMask⟩
  · exact ⟨(hclear _).trans h.irr, (hclear _).trans h.lastIrr, h.elcr, h.elcrMask⟩

/-- An acknowledgement keeps it, unless it takes the cascade line itself. -/
theorem Wired.intack (h : Wired s level) (hirq : irq ≠ 2 ∨ level = false) :
    Wired (s.intack irq) level := by
  refine ⟨?_, h.lastIrr, h.elcr, h.elcrMask⟩
  unfold PicState.intack
  dsimp only
  split_ifs
  · rw [getLsbD_clear_bit (by decide), h.irr]
    rcases hirq with hne | hlevel
    · rw [decide_eq_false hne, Bool.not_false, Bool.and_true]
    · rw [hlevel, Bool.false_and]
  · exact h.irr

theorem Wired.reset (h : Wired s level) (hlevel : level = false) : Wired s.resetCommon level := by
  refine ⟨?_, ?_, h.elcr, h.elcrMask⟩
  · change (s.irr &&& s.elcr).getLsbD 2 = level
    rw [BitVec.getLsbD_and, h.elcr, Bool.and_false, hlevel]
  · rw [hlevel]
    exact BitVec.getLsbD_zero

/-- A write to the first controller leaves line 2 alone, unless it acknowledges the line or
begins the initialization while the line is up. -/
theorem Wired.ioportWrite (h : Wired s level)
    (hpoll : s.poll = true → val.toNat ≠ 2 ∨ level = false)
    (hinit : data = false → val.getLsbD 4 = true → level = false) :
    Wired (s.ioportWrite data val).1 level := by
  rcases s.ioportWrite_cases data val with
    ⟨hpolls, heq⟩ | ⟨-, -, heq⟩ | ⟨-, hdata, hicw, heq⟩ | ⟨-, -, -, -, heq⟩ | ⟨-, -, -, -, heq⟩
  · rw [heq]
    have hfake : Wired { s with fakeIrr := s.fakeIrr &&& ~~~bit val.toNat } level :=
      ⟨h.irr, h.lastIrr, h.elcr, h.elcrMask⟩
    have hack := hfake.intack (hpoll hpolls)
    exact ⟨hack.irr, hack.lastIrr, hack.elcr, hack.elcrMask⟩
  · rw [heq]
    rcases s.writeData_cases val with heq | ⟨_, _, _, _, heq⟩
    · rw [heq]
      exact ⟨h.irr, h.lastIrr, h.elcr, h.elcrMask⟩
    · rw [heq]
      exact ⟨h.irr, h.lastIrr, h.elcr, h.elcrMask⟩
  · rw [heq]
    have hreset := h.reset (hinit hdata hicw)
    exact ⟨hreset.irr, hreset.lastIrr, hreset.elcr, hreset.elcrMask⟩
  · rw [heq]
    exact ⟨h.irr, h.lastIrr, h.elcr, h.elcrMask⟩
  · rw [heq]
    rcases s.command_cases val with heq | ⟨_, heq⟩ | ⟨_, _, heq⟩
    · rw [heq]
      exact h
    · rw [heq]
      exact ⟨h.irr, h.lastIrr, h.elcr, h.elcrMask⟩
    · rw [heq]
      exact ⟨h.irr, h.lastIrr, h.elcr, h.elcrMask⟩

end PicState

/-! ## Both controllers -/

namespace Pics

variable {ps : Pics} {s : PicState} {level : Bool}

/-- The first controller knows the output of the second. -/
structure Joined (ps : Pics) : Prop where
  wired : ps.pic0.Wired ps.output1
  second : ps.pic1.master = false

/-- `pic_update_irq` brings the two together. -/
theorem update1_joined (h : ps.pic0.Wired level) (hmaster : ps.pic1.master = false) :
    ps.update1.Joined where
  wired := h.setIrq2 ps.output1
  second := hmaster

theorem Joined.put_first (h : ps.Joined) (hs : s.Wired ps.output1) (updated : Bool) :
    (ps.put false (s, updated)).Joined where
  wired := hs
  second := h.second

/-- A step of the slave that tells the master -/
theorem Joined.put_second (h : ps.Joined) (hmaster : s.master = false) :
    (ps.put true (s, true)).Joined :=
  update1_joined h.wired hmaster

/-- A step of the slave that does not need to -/
theorem Joined.put_silent (h : ps.Joined) (hmaster : s.master = false)
    (hget : s.getIrq = ps.pic1.getIrq) : (ps.put true (s, false)).Joined where
  wired := by
    change ps.pic0.Wired s.getIrq.isSome
    rw [hget]
    exact h.wired
  second := hmaster

/-- What the second controller returns, with an update or without a change of its output -/
theorem Joined.put_updated (h : ps.Joined) {u : PicState.Updated} (hmaster : u.1.master = false)
    (hget : u.2 = false → u.1.getIrq = ps.pic1.getIrq) : (ps.put true u).Joined := by
  obtain ⟨s, updated⟩ := u
  cases updated with
  | true => exact h.put_second hmaster
  | false => exact h.put_silent hmaster (hget rfl)

theorem Joined.reset (h : ps.Joined) : ps.reset.Joined := by
  have hwired : ({ ps.pic0 with elcr := 0 } : PicState).resetCommon.Wired false := by
    refine ⟨?_, BitVec.getLsbD_zero, BitVec.getLsbD_zero, h.wired.elcrMask⟩
    change (ps.pic0.irr &&& 0#8).getLsbD 2 = false
    rw [BitVec.and_zero]
    exact BitVec.getLsbD_zero
  exact update1_joined hwired h.second

/-- The operations that keep the two controllers together.  Devices do not drive line 2; the
first controller is not initialized while the line is up, and is not polled for it; the second
one's special mask mode is not changed while a masked line is in service, and in the automatic
mode no line waits behind the one that is acknowledged. -/
def Good (ps : Pics) : Op → Prop
  | .setLine irq _ => irq ≠ 2
  | .write false data val =>
    (ps.pic0.poll = true → val.toNat ≠ 2 ∨ ps.output1 = false) ∧
      (data = false → val.getLsbD 4 = true → ps.output1 = false)
  | .write true data val => ¬ps.pic1.Unmasks data val
  | .read false data => ps.pic0.poll = true → data = false → ps.pic0.getIrq ≠ some 2
  | .getInum => ps.pic0.getIrq = some 2 → ps.pic1.autoEoi = true →
    ∀ irq2 ∈ ps.pic1.getIrq, (ps.pic1.intack irq2).getIrq = none
  | _ => True

instance (s : PicState) (data : Bool) (val : Byte) : Decidable (s.Unmasks data val) :=
  inferInstanceAs (Decidable (_ ∧ _))

instance (ps : Pics) : ∀ op, Decidable (Good ps op)
  | .setLine _ _ => inferInstanceAs (Decidable (_ ≠ _))
  | .write false _ _ => inferInstanceAs (Decidable (_ ∧ _))
  | .write true _ _ => inferInstanceAs (Decidable (¬_))
  | .read false _ => inferInstanceAs (Decidable (_ → _ → _))
  | .getInum => inferInstanceAs (Decidable (_ → _ → _))
  | .read true _ => .isTrue trivial
  | .writeElcr _ _ => .isTrue trivial
  | .writeFirr _ _ => .isTrue trivial
  | .reset => .isTrue trivial

/-- A device raises or drops its line. -/
theorem Joined.setLine (h : ps.Joined) {irq : Nat} (hirq : irq ≠ 2) (level : Bool) :
    (ps.setLine irq level).Joined := by
  unfold Pics.setLine
  split_ifs
  · exact h.put_second ((ps.pic1.setIrq_master (irq - 8) level).trans h.second)
  · exact h.put_first (h.wired.setIrq hirq level) true

/-- The processor asks for the vector. -/
theorem Joined.readIrq (h : ps.Joined) (hok : Good ps .getInum) : ps.readIrq.2.Joined := by
  cases hget : ps.pic0.getIrq with
  | none =>
    rw [readIrq_none hget]
    exact h
  | some irq =>
    by_cases htwo : irq = 2
    · subst htwo
      obtain ⟨-, ⟨hreq, -⟩, -⟩ := PicState.getIrq_eq_some_iff.mp hget
      have houtput : ps.output1 = true := h.wired.irr.symm.trans hreq
      obtain ⟨irq2, hget2⟩ := Option.isSome_iff_exists.mp houtput
      have hblocked : (ps.pic1.intack irq2).getIrq = none := by
        cases heoi : ps.pic1.autoEoi with
        | true => exact hok hget heoi irq2 (Option.mem_def.mpr hget2)
        | false =>
          refine PicState.intack_blocks hget2 heoi ?_
          rw [h.second, Bool.and_false]
      rw [readIrq_cascaded hget hget2]
      have hjoined := h.put_second (s := ps.pic1.intack irq2) h.second
      refine hjoined.put_first (hjoined.wired.intack (.inr ?_)) true
      change (ps.pic1.intack irq2).getIrq.isSome = false
      rw [hblocked]
      rfl
    · rw [readIrq_own hget htwo]
      exact h.put_first (h.wired.intack (.inl htwo)) true

/-- One operation keeps the two controllers together. -/
theorem exec_joined (h : ps.Joined) {op : Op} (hok : Good ps op) : (ps.exec op).2.Joined := by
  cases op with
  | setLine irq level => exact h.setLine hok level
  | write second data val =>
    cases second with
    | true =>
      refine h.put_updated ((ps.pic1.ioportWrite_master data val).trans h.second) ?_
      exact PicState.ioportWrite_silent h.second hok
    | false =>
      exact h.put_first (h.wired.ioportWrite hok.1 hok.2) (ps.pic0.ioportWrite data val).2
  | read second data =>
    cases second with
    | true =>
      refine h.put_updated ((ps.pic1.ioportRead_master data).trans h.second) ?_
      exact PicState.ioportRead_silent
    | false =>
      refine h.put_first ?_ (ps.pic0.ioportRead data).2.2
      change (ps.pic0.ioportRead data).2.1.Wired _
      rcases ps.pic0.ioportRead_cases data with heq | heq | ⟨irq, hpoll, hdata, hget, heq⟩
      · rw [heq]
        exact h.wired
      · rw [heq]
        exact ⟨h.wired.irr, h.wired.lastIrr, h.wired.elcr, h.wired.elcrMask⟩
      · rw [heq]
        have hne : irq ≠ 2 := fun htwo => hok hpoll hdata (htwo ▸ hget)
        have hack := h.wired.intack (.inl hne)
        exact ⟨hack.irr, hack.lastIrr, hack.elcr, hack.elcrMask⟩
  | writeElcr second val =>
    cases second with
    | true => exact h.put_silent h.second rfl
    | false =>
      refine h.put_first (s := ps.pic0.elcrWrite val)
        ⟨h.wired.irr, h.wired.lastIrr, ?_, h.wired.elcrMask⟩ false
      change (val &&& ps.pic0.elcrMask).getLsbD 2 = false
      rw [BitVec.getLsbD_and, h.wired.elcrMask, Bool.and_false]
  | writeFirr second val =>
    cases second with
    | true => exact h.put_silent h.second rfl
    | false =>
      exact h.put_first (s := { ps.pic0 with fakeIrr := val })
        ⟨h.wired.irr, h.wired.lastIrr, h.wired.elcr, h.wired.elcrMask⟩ false
  | getInum => exact h.readIrq hok
  | reset => exact h.reset

theorem initPics_joined : initPics.Joined where
  wired := ⟨by decide, by decide, by decide, by decide⟩
  second := rfl

/-- The controllers stay joined over every run. -/
theorem run_joined {t : Pics} {ops : List Op} (hok : Run.Admits Pics.step Good initPics ops)
    (hrun : Run.run Pics.step initPics ops = some t) : t.Joined := by
  refine Run.run_invariant Good Joined ?_ initPics_joined hok hrun
  intro ps op t h hgood hstep
  cases hstep
  exact exec_joined h hgood

/-- The number of a line that a controller has requested and not masked -/
def Genuine (ps : Pics) (num : Byte) : Prop :=
  (∃ irq, irq < 8 ∧ irq ≠ 2 ∧ ps.pic0.Requests irq ∧ num = ps.pic0.irqBase + BitVec.ofNat 8 irq) ∨
    ∃ irq, irq < 8 ∧ ps.pic1.Requests irq ∧ num = ps.pic1.irqBase + BitVec.ofNat 8 irq

/-- What is acknowledged was asked for by a device. -/
theorem Joined.genuine (h : ps.Joined) (hpending : ps.pic0.getIrq ≠ none) :
    ps.Genuine ps.readIrq.1 := by
  obtain ⟨irq, hget⟩ := Option.ne_none_iff_exists'.mp hpending
  obtain ⟨hirq, hreq, -⟩ := PicState.getIrq_eq_some_iff.mp hget
  by_cases htwo : irq = 2
  · subst htwo
    have houtput : ps.output1 = true := h.wired.irr.symm.trans hreq.1
    obtain ⟨irq2, hget2⟩ := Option.isSome_iff_exists.mp houtput
    obtain ⟨hirq2, hreq2, -⟩ := PicState.getIrq_eq_some_iff.mp hget2
    rw [readIrq_cascaded hget hget2]
    exact .inr ⟨irq2, hirq2, hreq2, rfl⟩
  · rw [readIrq_own hget htwo]
    exact .inl ⟨irq, hirq, htwo, hreq, rfl⟩

/-- In every run of such operations from `pic_init`, line 2 is requested at the first controller
exactly while the second one offers a line, and the number that `pic_get_inum` finds while an
interrupt is pending is that of a line that is requested and not masked. -/
theorem inum_genuine {t : Pics} {ops : List Op} (hok : Run.Admits Pics.step Good initPics ops)
    (hrun : Run.run Pics.step initPics ops = some t) :
    (t.pic0.irr.getLsbD 2 = true ↔ t.pic1.getIrq ≠ none) ∧
      (t.pic0.getIrq ≠ none → t.Genuine t.readIrq.1) := by
  have hjoined : t.Joined := run_joined hok hrun
  refine ⟨?_, hjoined.genuine⟩
  rw [hjoined.wired.irr, ← Option.isSome_iff_ne_none]
  rfl

/-- Both controllers are set up as by a BIOS, a device of each asks, and the one of the second
controller is served first. -/
def biosOps : List Op :=
  [.write false false 0x11, .write false true 0x08, .write false true 0x04, .write false true 0x01,
    .write true false 0x11, .write true true 0x70, .write true true 0x02, .write true true 0x01,
    .setLine 12 true, .setLine 5 true, .getInum]

theorem inum_genuine_bios :
    ∃ t, Run.run Pics.step initPics biosOps = some t ∧
      (t.pic0.irr.getLsbD 2 = true ↔ t.pic1.getIrq ≠ none) ∧
      (t.pic0.getIrq ≠ none → t.Genuine t.readIrq.1) := by
  have hok : Run.Admits Pics.step Good initPics biosOps := by decide
  obtain ⟨t, ht⟩ := Option.isSome_iff_exists.mp
    (show (Run.run Pics.step initPics biosOps).isSome by decide)
  exact ⟨t, ht, inum_genuine hok ht⟩

end Pics

end Pic
end Dosemu
