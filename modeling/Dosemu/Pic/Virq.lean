import Dosemu.Pic.Lines

/-!
# The virtual interrupts

The sources share line 15: a source sets its bit in `virq_irr`, and the line is high while the
register is not zero.  Other threads raise sources at any time; the handler of the line takes the
sources one by one until it reads zero.

Main results:

- Theorem `step_inv`: the line follows the register over each step.
- Theorem `raised_reaches`: in every run a source that is raised is in the register until its
  handler is called, and while the register is not zero the line is requested or being served.
-/

namespace Dosemu
namespace Pic

/-- Where `virq_handler` and `virq_hwc_write` are on the emulation thread; `out` is DOS code. -/
inductive VirqPc
  | out
  | reading
  | chosen (n : Nat)
  | called (n : Nat)
  | reasserting
  deriving DecidableEq

/-- The router, with what is told of its past: which sources wait for their handler, whether the
line was acknowledged since the register was last read as zero, and whether a reset put it down
with the register not zero -/
structure Virq where
  pics : Pics
  irr : BitVec 16
  curBh : Option Nat
  pc : VirqPc
  owed : Nat → Bool
  serving : Bool
  down : Bool

/-- `sw` and `call` have the answer of the handler, whether it is a bottom half that is not done;
`hwc` whether the hardware is done. -/
inductive VirqOp
  | raise (n : Nat)
  | pic (op : Op)
  | call (bh : Bool)
  | read
  | hwc (done : Bool)
  | sw (bh : Bool)
  | rst
  | reassert
  | reset

namespace Virq

variable (v : Virq)

/-- `VIRQ_MAX` -/
def virqMax : Nat := 5

/-- `VIRQ_IRQ_NUM` -/
def irqNum : Nat := 15

/-- `1 << virq_num` -/
def mask (n : Nat) : BitVec 16 :=
  1#16 <<< n

/-- `find_bit` -/
def findBit (irr : BitVec 16) : Option Nat :=
  (List.range 16).find? irr.getLsbD

/-- `virq_raise`, under both locks -/
def raise (n : Nat) : Virq :=
  { v with
    irr := v.irr ||| mask n
    pics := if v.irr = 0 then v.pics.setLine irqNum true else v.pics
    owed := Function.update v.owed n true }

/-- `virq_lower`, under the lock -/
def lower (n : Nat) : Virq :=
  let irr := v.irr &&& ~~~mask n
  { v with
    irr := irr
    pics := if irr = 0 then v.pics.setLine irqNum false else v.pics
    down := v.down && irr != 0 }

/-- An operation on the controllers by somebody else -/
def pic (op : Op) : Virq :=
  { v with
    pics := (v.pics.exec op).2
    serving := v.serving || decide (v.pics.acknowledged op = some 7) }

/-- One step; none where an assertion fails or the emulation thread is elsewhere -/
def step (v : Virq) : VirqOp → Option Virq
  | .raise n => if n < virqMax then some (v.raise n) else none
  | .pic op => some (v.pic op)
  | .call bh =>
    if v.pc = .out then
      match v.curBh with
      | none => some { v with pc := .reading }
      | some _ => if bh then some v else some { v with curBh := none, pc := .reading }
    else none
  | .read =>
    if v.pc = .reading then
      match findBit v.irr with
      | none => some { v with pc := .out, serving := false }
      | some n => if n < virqMax then some { v with pc := .chosen n } else none
    else none
  | .hwc done =>
    match v.pc with
    | .chosen n =>
      let v' := { v with pc := .called n }
      if done then some (v'.lower n) else some v'
    | _ => none
  | .sw bh =>
    match v.pc with
    | .called n =>
      let v' := { v with owed := Function.update v.owed n false }
      if bh then some { v' with curBh := some n, pc := .out } else some { v' with pc := .reading }
    | _ => none
  | .rst =>
    if v.pc = .out then
      if v.irr = 0 then some v else some { v with pc := .reasserting }
    else none
  | .reassert =>
    if v.pc = .reasserting then
      some { v with pics := v.pics.setLine irqNum true, pc := .out, down := false }
    else none
  | .reset =>
    if v.pc = .out then
      some { v with pics := v.pics.setLine irqNum false, curBh := none, down := v.irr != 0 }
    else none

/-- The router is the only one to drive its line, and the second controller is initialized while
the line is low only. -/
def Good (v : Virq) : VirqOp → Prop
  | .pic op => v.pics.Spares 7 op ∨ (v.pics.Restarts op ∧ (v.irr = 0 ∨ v.down = true))
  | _ => True

/-! ## The register -/

variable {v : Virq} {n j : Nat}

theorem getLsbD_mask (hj : j < 16) : (mask n).getLsbD j = decide (n = j) := by
  unfold mask
  rw [BitVec.getLsbD_shiftLeft, BitVec.getLsbD_one, decide_eq_true hj]
  by_cases h : n = j
  · rw [h]
    simp
  · have hne : j < n ∨ j - n ≠ 0 := by omega
    rcases hne with hlt | hsub
    · simp [hlt, h]
    · simp [hsub, h]

theorem ne_zero_of_getLsbD {irr : BitVec 16} (h : irr.getLsbD j = true) : irr ≠ 0 := by
  rintro rfl
  cases (BitVec.getLsbD_zero (w := 16) (i := j)).symm.trans h

theorem or_mask_ne_zero (irr : BitVec 16) (hn : n < 16) : irr ||| mask n ≠ 0 := by
  refine ne_zero_of_getLsbD (j := n) ?_
  rw [BitVec.getLsbD_or, getLsbD_mask hn, decide_eq_true rfl, Bool.or_true]

/-- The register is zero if no bit is found in it. -/
theorem findBit_cases (irr : BitVec 16) :
    (findBit irr = none ∧ irr = 0) ∨
      ∃ n, findBit irr = some n ∧ n < 16 ∧ irr.getLsbD n = true := by
  unfold findBit
  cases hfind : (List.range 16).find? irr.getLsbD with
  | none =>
    refine .inl ⟨rfl, BitVec.eq_of_getLsbD_eq ?_⟩
    intro j hj
    have hclear := List.find?_eq_none.mp hfind j (List.mem_range.mpr hj)
    rw [Bool.eq_false_of_not_eq_true hclear]
    exact BitVec.getLsbD_zero.symm
  | some n =>
    obtain ⟨hbit, hmem, -⟩ := List.find?_range_eq_some.mp hfind
    exact .inr ⟨n, rfl, List.mem_range.mp hmem, hbit⟩

theorem line_high (ps : Pics) (level : Bool) :
    (ps.setLine irqNum level).High 7 ↔ level = true := by
  rw [ps.setLine_high irqNum level (by decide)]
  exact iff_of_eq (if_pos rfl)

/-! ## The line follows the register -/

/-- What holds in every state: the line is high while the register is not zero, but for a reset;
it is then requested or being served; and a source that waits is in the register until its
handler is about to be called. -/
structure Inv (v : Virq) : Prop where
  high : v.pics.High 7 ↔ v.irr ≠ 0 ∧ v.down = false
  asked : v.pics.High 7 → v.pics.Asked 7 ∨ v.serving = true
  genuine : v.pics.Asked 7 → v.pics.High 7
  down : v.down = true → v.irr ≠ 0
  owed : ∀ n, v.owed n = true → v.irr.getLsbD n = true ∨ v.pc = .called n
  small : ∀ n, v.irr.getLsbD n = true → n < virqMax
  reasserting : v.pc = .reasserting → v.irr ≠ 0

theorem Inv.raise (h : v.Inv) (hmax : n < virqMax) : (v.raise n).Inv := by
  have hn : n < 16 := hmax.trans (by decide)
  have hset := or_mask_ne_zero v.irr hn
  have howed : ∀ j, (v.raise n).owed j = true →
      (v.raise n).irr.getLsbD j = true ∨ (v.raise n).pc = .called j := by
    intro j hj
    change (v.irr ||| mask n).getLsbD j = true ∨ _
    rw [BitVec.getLsbD_or]
    by_cases heq : j = n
    · rw [heq, getLsbD_mask hn, decide_eq_true rfl, Bool.or_true]
      exact .inl rfl
    · have hold : v.owed j = true := by
        rw [← hj]
        exact (Function.update_of_ne heq _ _).symm
      rcases h.owed j hold with hbit | hpc
      · rw [hbit, Bool.true_or]
        exact .inl rfl
      · exact .inr hpc
  have hsmall : ∀ j, (v.irr ||| mask n).getLsbD j = true → j < virqMax := by
    intro j hj
    have hlt : j < 16 := BitVec.lt_of_getLsbD hj
    rw [BitVec.getLsbD_or, getLsbD_mask hlt, Bool.or_eq_true, decide_eq_true_iff] at hj
    rcases hj with hold | rfl
    · exact h.small j hold
    · exact hmax
  by_cases hzero : v.irr = 0
  · have hpics : (v.raise n).pics = v.pics.setLine irqNum true := if_pos hzero
    have hlow : ¬v.pics.High 7 := fun hhigh => (h.high.mp hhigh).1 hzero
    have hdown : v.down = false := Bool.eq_false_of_not_eq_true fun hd => h.down hd hzero
    have hhigh : (v.raise n).pics.High 7 := by
      rw [hpics, line_high]
    have hasked : (v.raise n).pics.Asked 7 := by
      rw [hpics]
      exact v.pics.setLine_asked (by decide) fun hup => absurd hup hlow
    exact ⟨iff_of_true hhigh ⟨hset, hdown⟩, fun _ => .inl hasked, fun _ => hhigh, fun _ => hset,
      howed, hsmall, fun _ => hset⟩
  · have hpics : (v.raise n).pics = v.pics := if_neg hzero
    refine ⟨?_, ?_, ?_, fun _ => hset, howed, hsmall, fun _ => hset⟩
    · rw [hpics, h.high]
      exact and_congr_left' (iff_of_true hzero hset)
    · rw [hpics]
      exact h.asked
    · rw [hpics]
      exact h.genuine

/-- The handler lowers the source whose handler it calls next. -/
theorem Inv.lower (h : v.Inv) (hpc : v.pc = .called n) : (v.lower n).Inv := by
  have howed : ∀ j, v.owed j = true →
      (v.irr &&& ~~~mask n).getLsbD j = true ∨ v.pc = .called j := by
    intro j hj
    by_cases heq : j = n
    · exact .inr (heq ▸ hpc)
    · rcases h.owed j hj with hbit | hpc'
      · have hlt : j < 16 := BitVec.lt_of_getLsbD hbit
        rw [BitVec.getLsbD_and, BitVec.getLsbD_not, getLsbD_mask hlt, hbit, decide_eq_true hlt,
          decide_eq_false (Ne.symm heq)]
        exact .inl rfl
      · exact .inr hpc'
  have hsmall : ∀ j, (v.irr &&& ~~~mask n).getLsbD j = true → j < virqMax := by
    intro j hj
    rw [BitVec.getLsbD_and, Bool.and_eq_true] at hj
    exact h.small j hj.1
  by_cases hzero : v.irr &&& ~~~mask n = 0
  · have hpics : (v.lower n).pics = v.pics.setLine irqNum false := if_pos hzero
    have hlow : ¬(v.lower n).pics.High 7 := by
      rw [hpics, line_high]
      exact Bool.false_ne_true
    have hnot : ¬(v.lower n).pics.Asked 7 := by
      rw [hpics]
      exact v.pics.setLine_low (by decide)
    refine ⟨iff_of_false hlow fun hne => hne.1 hzero, fun hup => absurd hup hlow,
      fun hup => absurd hup hnot, ?_, howed, hsmall, ?_⟩
    · intro hdown
      change (v.down && (v.irr &&& ~~~mask n) != 0) = true at hdown
      rw [hzero, bne_self_eq_false, Bool.and_false] at hdown
      cases hdown
    · intro hre
      cases hpc.symm.trans hre
  · have hpics : (v.lower n).pics = v.pics := if_neg hzero
    have hdown : (v.lower n).down = v.down := by
      change (v.down && (v.irr &&& ~~~mask n) != 0) = v.down
      rw [bne_iff_ne.mpr hzero, Bool.and_true]
    have hold : v.irr ≠ 0 := by
      intro hirr
      rw [hirr] at hzero
      exact hzero BitVec.zero_and
    refine ⟨?_, ?_, ?_, fun _ => hzero, howed, hsmall, ?_⟩
    · rw [hpics, hdown, h.high]
      exact and_congr_left' (iff_of_true hold hzero)
    · rw [hpics]
      exact h.asked
    · rw [hpics]
      exact h.genuine
    · intro hre
      cases hpc.symm.trans hre

theorem Inv.pic (h : v.Inv) {op : Op} (hok : v.Good (.pic op)) : (v.pic op).Inv := by
  rcases hok with hspare | ⟨hrestart, hlow⟩
  · obtain ⟨hhigh, hback, hkeep⟩ := Pics.exec_line (j := 7) (by decide) hspare
    refine ⟨hhigh.trans h.high, ?_, fun ha => hhigh.mpr (h.genuine (hback ha)), h.down, h.owed,
      h.small, h.reasserting⟩
    intro hup
    by_cases hack : v.pics.acknowledged op = some 7
    · refine .inr ?_
      change (v.serving || decide _) = true
      rw [decide_eq_true hack, Bool.or_true]
    · rcases h.asked (hhigh.mp hup) with ha | hserving
      · exact .inl (hkeep hack ha)
      · refine .inr ?_
        change (v.serving || decide _) = true
        rw [hserving, Bool.true_or]
  · obtain ⟨hdown, hback⟩ := Pics.exec_restart (j := 7) hrestart
    have hno : ¬(v.irr ≠ 0 ∧ v.down = false) := by
      rintro ⟨hne, hd⟩
      rcases hlow with hzero | hd'
      · exact hne hzero
      · cases hd.symm.trans hd'
    have hlow' : ¬v.pics.High 7 := mt h.high.mp hno
    exact ⟨iff_of_false hdown hno, fun hup => absurd hup hdown,
      fun ha => absurd (h.genuine (hback ha)) hlow', h.down, h.owed, h.small,
      h.reasserting⟩

/-- A step that moves the emulation thread and calls the handler of a source -/
theorem Inv.moves (h : v.Inv) {pc : VirqPc} (curBh : Option Nat) {owed : Nat → Bool}
    {serving : Bool} (howed : ∀ j, owed j = true → v.irr.getLsbD j = true ∨ pc = .called j)
    (hserving : v.irr ≠ 0 → v.serving = true → serving = true)
    (hre : pc = .reasserting → v.irr ≠ 0) :
    ({ v with pc := pc, curBh := curBh, owed := owed, serving := serving } : Virq).Inv where
  high := h.high
  asked hup := (h.asked hup).imp_right (hserving (h.high.mp hup).1)
  genuine := h.genuine
  down := h.down
  owed := howed
  small := h.small
  reasserting := hre

/-- The emulation thread moves on from a place where no handler was about to be called. -/
theorem Inv.stays (h : v.Inv) {pc : VirqPc} (hpc : ∀ j, v.pc ≠ .called j) (j : Nat)
    (hj : v.owed j = true) : v.irr.getLsbD j = true ∨ pc = .called j :=
  (h.owed j hj).imp_right fun hcalled => absurd hcalled (hpc j)

variable {v' : Virq}

/-- `virq_handler` begins: a bottom half that is not done is called again. -/
theorem Inv.call (h : v.Inv) {bh : Bool} (hstep : step v (.call bh) = some v') : v'.Inv := by
  unfold step at hstep
  dsimp only at hstep
  by_cases hpc : v.pc = .out
  · rw [if_pos hpc] at hstep
    have howed : ∀ j, v.owed j = true → v.irr.getLsbD j = true ∨ VirqPc.reading = .called j :=
      h.stays fun j hj => by cases hpc.symm.trans hj
    cases hcur : v.curBh with
    | none =>
      rw [hcur] at hstep
      cases hstep
      exact h.moves none howed (fun _ => id) nofun
    | some n =>
      rw [hcur] at hstep
      dsimp only at hstep
      split_ifs at hstep
      · cases hstep
        exact h
      · cases hstep
        exact h.moves none howed (fun _ => id) nofun
  · rw [if_neg hpc] at hstep
    cases hstep

/-- `VIRQ_IRR_PORT` is read. -/
theorem Inv.read (h : v.Inv) (hstep : step v .read = some v') : v'.Inv := by
  unfold step at hstep
  dsimp only at hstep
  split_ifs at hstep with hpc
  have hplace : ∀ j, v.pc ≠ .called j := by
    intro j hj
    cases hpc.symm.trans hj
  rcases findBit_cases v.irr with ⟨hfind, hzero⟩ | ⟨n, hfind, -, -⟩
  · rw [hfind] at hstep
    cases hstep
    exact h.moves v.curBh (h.stays hplace) (fun hne => absurd hzero hne) nofun
  · rw [hfind] at hstep
    dsimp only at hstep
    split_ifs at hstep
    cases hstep
    exact h.moves v.curBh (h.stays hplace) (fun _ => id) nofun

/-- `VIRQ_HWC_PORT` is written. -/
theorem Inv.hwc (h : v.Inv) {done : Bool} (hstep : step v (.hwc done) = some v') : v'.Inv := by
  unfold step at hstep
  dsimp only at hstep
  split at hstep
  next n hpc =>
    have hcalled : ({ v with pc := .called n } : Virq).Inv :=
      h.moves v.curBh (h.stays fun j hj => by cases hpc.symm.trans hj) (fun _ => id) nofun
    split_ifs at hstep
    · cases hstep
      exact hcalled.lower rfl
    · cases hstep
      exact hcalled
  next => cases hstep

/-- The handler of the source is called. -/
theorem Inv.sw (h : v.Inv) {bh : Bool} (hstep : step v (.sw bh) = some v') : v'.Inv := by
  unfold step at hstep
  dsimp only at hstep
  split at hstep
  next n hpc =>
    have howed : ∀ (pc : VirqPc) (j : Nat), Function.update v.owed n false j = true →
        v.irr.getLsbD j = true ∨ pc = .called j := by
      intro pc j hj
      by_cases heq : j = n
      · rw [heq, Function.update_self] at hj
        cases hj
      · rw [Function.update_of_ne heq] at hj
        refine (h.owed j hj).imp_right fun hpc' => ?_
        cases hpc.symm.trans hpc'
        exact absurd rfl heq
    split_ifs at hstep
    · cases hstep
      exact h.moves (some n) (howed .out) (fun _ => id) nofun
    · cases hstep
      exact h.moves v.curBh (howed .reading) (fun _ => id) nofun
  next => cases hstep

/-- `VIRQ_RST_PORT` is written. -/
theorem Inv.rst (h : v.Inv) (hstep : step v .rst = some v') : v'.Inv := by
  unfold step at hstep
  dsimp only at hstep
  split_ifs at hstep with hpc hzero
  · cases hstep
    exact h
  · cases hstep
    exact h.moves v.curBh (h.stays fun j hj => by cases hpc.symm.trans hj) (fun _ => id)
      fun _ => hzero

/-- The line is put up again behind that. -/
theorem Inv.reassert (h : v.Inv) (hstep : step v .reassert = some v') : v'.Inv := by
  unfold step at hstep
  dsimp only at hstep
  split_ifs at hstep with hpc
  cases hstep
  have hne := h.reasserting hpc
  have hhigh : (v.pics.setLine irqNum true).High 7 := (line_high v.pics true).mpr rfl
  refine ⟨iff_of_true hhigh ⟨hne, rfl⟩, ?_, fun _ => hhigh, nofun,
    h.stays fun j hj => ?_, h.small, nofun⟩
  · intro _
    by_cases hserving : v.serving = true
    · exact .inr hserving
    · refine .inl (v.pics.setLine_asked (by decide) fun hup => ?_)
      exact (h.asked hup).resolve_right hserving
  · cases hpc.symm.trans hj

/-- `virq_reset` -/
theorem Inv.reset (h : v.Inv) (hstep : step v .reset = some v') : v'.Inv := by
  unfold step at hstep
  dsimp only at hstep
  split_ifs at hstep with hpc
  cases hstep
  have hlow : ¬(v.pics.setLine irqNum false).High 7 := by
    rw [line_high]
    exact Bool.false_ne_true
  refine ⟨iff_of_false hlow ?_, fun hup => absurd hup hlow,
    fun ha => absurd ha (v.pics.setLine_low (by decide)), fun hdown => bne_iff_ne.mp hdown,
    h.owed, h.small, fun hre => by cases hpc.symm.trans hre⟩
  rintro ⟨hne, hdown⟩
  cases (bne_iff_ne.mpr hne).symm.trans hdown

/-- One step keeps the line with the register. -/
theorem step_inv {op : VirqOp} (h : v.Inv) (hok : v.Good op) (hstep : step v op = some v') :
    v'.Inv := by
  cases op with
  | raise n =>
    unfold step at hstep
    dsimp only at hstep
    split_ifs at hstep with hn
    cases hstep
    exact h.raise hn
  | pic op =>
    cases hstep
    exact h.pic hok
  | call bh => exact h.call hstep
  | read => exact h.read hstep
  | hwc done => exact h.hwc hstep
  | sw bh => exact h.sw hstep
  | rst => exact h.rst hstep
  | reassert => exact h.reassert hstep
  | reset => exact h.reset hstep

/-- After `pic_init`, with no source raised -/
def start : Virq where
  pics := initPics
  irr := 0
  curBh := none
  pc := .out
  owed _ := false
  serving := false
  down := false

theorem start_inv : start.Inv where
  high := iff_of_false (by decide) fun h => h.1 rfl
  asked h := absurd h (by decide)
  genuine h := absurd h (by decide)
  down := nofun
  owed := nofun
  small n h := by cases (BitVec.getLsbD_zero (w := 16) (i := n)).symm.trans h
  reasserting := nofun

/-- In every run a source that is raised is in the register until its handler is about to be
called; while the register is not zero its line is requested or is being served, unless a reset
has put it down; a request of the line comes of a source; and the handler finds no other number
than that of a source. -/
theorem raised_reaches {t : Virq} {ops : List VirqOp} (hok : Run.Admits step Good start ops)
    (hrun : Run.run step start ops = some t) :
    (∀ n, t.owed n = true → t.irr.getLsbD n = true ∨ t.pc = .called n) ∧
      (t.irr ≠ 0 → t.pics.Asked 7 ∨ t.serving = true ∨ t.down = true) ∧
      (t.pics.Asked 7 → ∃ n, t.irr.getLsbD n = true) ∧
      ∀ n, findBit t.irr = some n → n < virqMax := by
  have h : t.Inv :=
    Run.run_invariant Good Inv (fun _ _ _ h hok hstep => step_inv h hok hstep) start_inv hok hrun
  refine ⟨h.owed, ?_, ?_, ?_⟩
  · intro hne
    by_cases hdown : t.down = true
    · exact .inr (.inr hdown)
    · have hup := h.high.mpr ⟨hne, Bool.eq_false_of_not_eq_true hdown⟩
      exact (h.asked hup).imp_right .inl
  · intro hasked
    have hne := (h.high.mp (h.genuine hasked)).1
    rcases findBit_cases t.irr with ⟨-, hzero⟩ | ⟨n, -, -, hbit⟩
    · exact absurd hzero hne
    · exact ⟨n, hbit⟩
  · intro n hfind
    rcases findBit_cases t.irr with ⟨hnone, -⟩ | ⟨m, hsome, -, hbit⟩
    · rw [hnone] at hfind
      cases hfind
    · rw [hsome] at hfind
      cases hfind
      exact h.small n hbit

instance (v : Virq) : ∀ op, Decidable (v.Good op)
  | .pic _ => inferInstanceAs (Decidable (_ ∨ _))
  | .raise _ => .isTrue trivial
  | .call _ => .isTrue trivial
  | .read => .isTrue trivial
  | .hwc _ => .isTrue trivial
  | .sw _ => .isTrue trivial
  | .rst => .isTrue trivial
  | .reassert => .isTrue trivial
  | .reset => .isTrue trivial

/-- A source is raised while the handler of another one is about to be called. -/
def sharedOps : List VirqOp :=
  [.raise 3, .pic .getInum, .call false, .read, .raise 1, .hwc true, .sw true, .raise 3]

theorem raised_reaches_shared :
    ∃ t, Run.run step start sharedOps = some t ∧
      (∀ n, t.owed n = true → t.irr.getLsbD n = true ∨ t.pc = .called n) ∧
      (t.irr ≠ 0 → t.pics.Asked 7 ∨ t.serving = true ∨ t.down = true) ∧
      (t.pics.Asked 7 → ∃ n, t.irr.getLsbD n = true) ∧
      ∀ n, findBit t.irr = some n → n < virqMax := by
  have hok : Run.Admits step Good start sharedOps := by decide
  obtain ⟨t, ht⟩ := Option.isSome_iff_exists.mp
    (show (Run.run step start sharedOps).isSome by decide)
  exact ⟨t, ht, raised_reaches hok ht⟩

end Virq
end Pic
end Dosemu
