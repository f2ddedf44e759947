import Dosemu.Pic.Model

/-!
# Nested interrupts

Without rotation and special modes, the lines in service of a controller are a stack: only a line
of a higher priority than all of them is acknowledged, so that the highest one, which the
unspecific end of interrupt ends, is the one that was acknowledged last.

Main results:

- Theorem `Stacked.push`: an acknowledgement puts a line on the stack.
- Theorem `Stacked.pop`: the unspecific end of interrupt takes it off.
- Theorem `exec_stacked`: one operation as what it does to both stacks.
- Theorem `nested_run`: both controllers refine their stacks in every run of such operations.
-/

namespace Dosemu
namespace Pic

/-! ## One controller -/

namespace PicState

variable {s t : PicState} {st : List Nat} {irq : Nat} {val : Byte}

/-- The lines in service, the one of the highest priority first, and no mode in which others
than this one count. -/
structure Stacked (s : PicState) (st : List Nat) : Prop where
  isr : ∀ j, j < 8 → (s.isr.getLsbD j = true ↔ j ∈ st)
  lines : ∀ j ∈ st, j < 8
  sorted : st.Pairwise fun a b => s.rank a < s.rank b
  specialMask : s.specialMask = false
  rotate : s.rotateOnAutoEoi = false
  nested : (s.specialFullyNestedMode && s.master) = false

theorem Stacked.congr (h : Stacked s st) (hisr : t.isr = s.isr)
    (hadd : t.priorityAdd = s.priorityAdd) (hspecial : t.specialMask = false)
    (hrotate : t.rotateOnAutoEoi = false)
    (hnested : (t.specialFullyNestedMode && t.master) = false) : Stacked t st where
  isr := by
    rw [hisr]
    exact h.isr
  lines := h.lines
  sorted := by
    unfold rank
    rw [hadd]
    exact h.sorted
  specialMask := hspecial
  rotate := hrotate
  nested := hnested

theorem Stacked.inService (h : Stacked s st) : s.inService = s.isr := by
  unfold PicState.inService
  rw [h.specialMask, h.nested]
  rfl

/-- A line that is offered has a higher priority than the stack. -/
theorem Stacked.above (h : Stacked s st) (hget : s.getIrq = some irq) :
    ∀ j ∈ st, s.rank irq < s.rank j := by
  obtain ⟨-, -, -, hservice⟩ := getIrq_eq_some_iff.mp hget
  intro j hj
  refine hservice j (h.lines j hj) ?_
  rw [h.inService]
  exact (h.isr j (h.lines j hj)).mpr hj

/-- An acknowledgement puts the line on the stack, if it does not end by itself. -/
theorem Stacked.push (h : Stacked s st) (hlt : irq < 8) (habove : ∀ j ∈ st, s.rank irq < s.rank j) :
    Stacked (s.intack irq) (if s.autoEoi then st else irq :: st) := by
  have hadd : (s.intack irq).priorityAdd = s.priorityAdd := by
    unfold intack
    rw [h.rotate, Bool.and_false]
    rfl
  cases heoi : s.autoEoi with
  | true =>
    refine h.congr ?_ hadd h.specialMask h.rotate h.nested
    unfold intack
    rw [heoi]
    rfl
  | false =>
    have hisr : (s.intack irq).isr = s.isr ||| bit irq := by
      unfold intack
      rw [heoi]
      rfl
    refine ⟨?_, ?_, ?_, h.specialMask, h.rotate, h.nested⟩
    · intro j hj
      rw [hisr, BitVec.getLsbD_or, getLsbD_bit hj, Bool.or_eq_true, h.isr j hj, decide_eq_true_iff,
        if_neg (by decide), List.mem_cons]
      exact ⟨fun hor => hor.symm.imp_left Eq.symm, fun hor => hor.symm.imp_right Eq.symm⟩
    · intro j hj
      rcases List.mem_cons.mp hj with heq | hj
      · rw [heq]
        exact hlt
      · exact h.lines j hj
    · unfold rank
      rw [hadd]
      exact List.pairwise_cons.mpr ⟨habove, h.sorted⟩

/-- A line that is ended leaves the stack. -/
theorem Stacked.erase (h : Stacked s st) (irq : Nat) :
    Stacked { s with isr := s.isr &&& ~~~bit irq } (st.erase irq) := by
  have hnodup : st.Nodup := h.sorted.imp fun hlt heq => by
    rw [heq] at hlt
    exact Nat.lt_irrefl _ hlt
  refine ⟨?_, fun j hj => h.lines j (List.mem_of_mem_erase hj), ?_, h.specialMask, h.rotate,
    h.nested⟩
  · intro j hj
    rw [hnodup.mem_erase_iff, ← h.isr j hj]
    change (s.isr &&& ~~~bit irq).getLsbD j = true ↔ _
    rw [BitVec.getLsbD_and, BitVec.getLsbD_not, getLsbD_bit hj, decide_eq_true hj, Bool.true_and,
      Bool.and_eq_true, Bool.not_eq_true', decide_eq_false_iff_not]
    exact ⟨fun hand => ⟨fun heq => hand.2 heq.symm, hand.1⟩,
      fun hand => ⟨hand.2, fun heq => hand.1 heq.symm⟩⟩
  · exact h.sorted.sublist List.erase_sublist

/-- The line of the highest priority in service is the top of the stack. -/
theorem Stacked.top (h : Stacked s st) :
    (s.getPriority s.isr = 8 ∧ st = []) ∨
      ∃ rest, s.getPriority s.isr ≠ 8 ∧ st = s.line (s.getPriority s.isr) :: rest := by
  rcases s.getPriority_cases s.isr with ⟨hnone, hno⟩ | ⟨irq, hlt, hbit, heq, hfirst⟩
  · refine .inl ⟨hnone, List.eq_nil_iff_forall_not_mem.mpr ?_⟩
    intro j hj
    have hset := (h.isr j (h.lines j hj)).mpr hj
    rw [hno j (h.lines j hj)] at hset
    cases hset
  · have hmem := (h.isr irq hlt).mp hbit
    have hrank := (s.rank_lt irq).ne
    rw [heq, s.line_rank hlt]
    refine .inr ?_
    have hsorted := h.sorted
    cases st with
    | nil => cases hmem
    | cons top rest =>
      have htop := h.lines top List.mem_cons_self
      have hle := hfirst top htop ((h.isr top htop).mpr List.mem_cons_self)
      rcases List.mem_cons.mp hmem with hirq | hirq
      · exact ⟨rest, hrank, by rw [hirq]⟩
      · exact absurd ((List.pairwise_cons.mp hsorted).1 irq hirq) (Nat.not_lt.mpr hle)

/-- The unspecific end of interrupt takes the top off the stack. -/
theorem Stacked.pop (h : Stacked s st) (hval : (val >>> 5).toNat = 1) :
    Stacked (s.command val).1 st.tail := by
  unfold command
  rw [hval]
  dsimp only
  rcases h.top with ⟨hnone, hnil⟩ | ⟨rest, hsome, hcons⟩
  · rw [if_pos hnone, hnil]
    rw [hnil] at h
    exact h
  · rw [if_neg hsome]
    have herase := h.erase (s.line (s.getPriority s.isr))
    rw [hcons, List.erase_cons_head] at herase
    rw [hcons]
    exact herase

theorem resetCommon_stacked (s : PicState) : Stacked s.resetCommon [] where
  isr := by
    intro j hj
    refine iff_of_false ?_ List.not_mem_nil
    change ¬(0#8).getLsbD j = true
    rw [BitVec.getLsbD_zero]
    exact Bool.false_ne_true
  lines := nofun
  sorted := .nil
  specialMask := rfl
  rotate := rfl
  nested := rfl

theorem Stacked.setIrq (h : Stacked s st) (irq : Nat) (level : Bool) :
    Stacked (s.setIrq irq level) st := by
  unfold PicState.setIrq
  split_ifs
  · exact h.congr rfl rfl h.specialMask h.rotate h.nested
  · exact h.congr rfl rfl h.specialMask h.rotate h.nested
  · exact h.congr rfl rfl h.specialMask h.rotate h.nested
  · exact h.congr rfl rfl h.specialMask h.rotate h.nested

/-- The stack after an acknowledgement of what is offered -/
def afterAck (s : PicState) (st : List Nat) : List Nat :=
  match s.getIrq with
  | some irq => if s.autoEoi then st else irq :: st
  | none => st

theorem Stacked.ack (h : Stacked s st) (hget : s.getIrq = some irq) :
    Stacked (s.intack irq) (s.afterAck st) := by
  unfold afterAck
  rw [hget]
  exact h.push (getIrq_lt hget) (h.above hget)

/-- The stack after a write: the first initialization command empties it, the ends of interrupt
take the top or a line off. -/
def afterWrite (data : Bool) (val : Byte) (st : List Nat) : List Nat :=
  if data then st
  else if val.getLsbD 4 then []
  else if val.getLsbD 3 then st
  else if (val >>> 5).toNat = 1 then st.tail
  else if (val >>> 5).toNat = 3 then st.erase (val &&& 7).toNat
  else st

/-- A write that does not acknowledge by poll, does not set a special mode and does not rotate -/
structure Tame (s : PicState) (data : Bool) (val : Byte) : Prop where
  poll : s.poll = false
  nested : data = true → s.initState = .icw4 → val.getLsbD 4 = false
  control : data = false → val.getLsbD 4 = false → val.getLsbD 3 = true → val.getLsbD 6 = true →
    val.getLsbD 5 = false
  command : data = false → val.getLsbD 4 = false → val.getLsbD 3 = false → (val >>> 5).toNat < 4

instance (s : PicState) (data : Bool) (val : Byte) : Decidable (s.Tame data val) :=
  decidable_of_iff (s.poll = false ∧ (data = true → s.initState = .icw4 → val.getLsbD 4 = false) ∧
      (data = false → val.getLsbD 4 = false → val.getLsbD 3 = true → val.getLsbD 6 = true →
        val.getLsbD 5 = false) ∧
      (data = false → val.getLsbD 4 = false → val.getLsbD 3 = false → (val >>> 5).toNat < 4))
    ⟨fun h => ⟨h.1, h.2.1, h.2.2.1, h.2.2.2⟩, fun h => ⟨h.poll, h.nested, h.control, h.command⟩⟩

theorem Stacked.writeData (h : Stacked s st) (hok : s.initState = .icw4 → val.getLsbD 4 = false) :
    Stacked (s.writeData val).1 st := by
  unfold PicState.writeData
  split
  · exact h.congr rfl rfl h.specialMask h.rotate h.nested
  · exact h.congr rfl rfl h.specialMask h.rotate h.nested
  · exact h.congr rfl rfl h.specialMask h.rotate h.nested
  next hstate =>
    refine h.congr rfl rfl h.specialMask h.rotate ?_
    change (val.getLsbD 4 && s.master) = false
    rw [hok hstate, Bool.false_and]

theorem Stacked.command (h : Stacked s st) (hlt : (val >>> 5).toNat < 4) :
    Stacked (s.command val).1 (if (val >>> 5).toNat = 1 then st.tail
      else if (val >>> 5).toNat = 3 then st.erase (val &&& 7).toNat else st) := by
  by_cases hone : (val >>> 5).toNat = 1
  · rw [if_pos hone]
    exact h.pop hone
  · rw [if_neg hone]
    by_cases hthree : (val >>> 5).toNat = 3
    · rw [if_pos hthree]
      unfold PicState.command
      rw [hthree]
      exact h.erase (val &&& 7).toNat
    · rw [if_neg hthree]
      have hrest : (val >>> 5).toNat = 0 ∨ (val >>> 5).toNat = 2 := by omega
      unfold PicState.command
      rcases hrest with hzero | htwo
      · rw [hzero]
        exact h.congr rfl rfl h.specialMask rfl h.nested
      · rw [htwo]
        exact h

theorem Stacked.ioportWrite {data : Bool} (h : Stacked s st) (hok : s.Tame data val) :
    Stacked (s.ioportWrite data val).1 (afterWrite data val st) := by
  unfold afterWrite
  rcases s.ioportWrite_cases data val with
    ⟨hpoll, -⟩ | ⟨-, hdata, heq⟩ | ⟨-, hdata, hicw, heq⟩ | ⟨-, hdata, hicw, hocw, heq⟩ |
      ⟨-, hdata, hicw, hocw, heq⟩
  · rw [hok.poll] at hpoll
    cases hpoll
  · rw [heq, if_pos hdata]
    exact h.writeData (hok.nested hdata)
  · rw [heq, hdata, hicw]
    exact s.resetCommon_stacked.congr rfl rfl rfl rfl rfl
  · rw [heq, hdata, hicw, hocw]
    refine h.congr rfl rfl ?_ h.rotate h.nested
    unfold PicState.control
    dsimp only
    split_ifs with hspecial
    · exact hok.control hdata hicw hocw hspecial
    · exact h.specialMask
  · rw [heq, hdata, hicw, hocw]
    exact h.command (hok.command hdata hicw hocw)

/-- The stack after a read, which acknowledges in poll mode -/
def afterRead (s : PicState) (data : Bool) (st : List Nat) : List Nat :=
  if s.poll && !data then s.afterAck st else st

theorem Stacked.ioportRead (h : Stacked s st) (data : Bool) :
    Stacked (s.ioportRead data).2.1 (s.afterRead data st) := by
  unfold PicState.ioportRead afterRead
  split_ifs
  · cases hget : s.getIrq with
    | some irq =>
      have hack := h.ack hget
      exact hack.congr rfl rfl hack.specialMask hack.rotate hack.nested
    | none =>
      unfold afterAck
      rw [hget]
      exact h.congr rfl rfl h.specialMask h.rotate h.nested
  · exact h
  · exact h
  · exact h

end PicState

/-! ## Both controllers -/

/-- The stacks of both controllers, the innermost line first -/
structure Nest where
  st0 : List Nat
  st1 : List Nat

namespace Nest

def stack (n : Nest) (second : Bool) : List Nat :=
  if second then n.st1 else n.st0

def put (n : Nest) (second : Bool) (st : List Nat) : Nest :=
  if second then { n with st1 := st } else { n with st0 := st }

/-- What an operation does to the stacks -/
def after (ps : Pics) (n : Nest) : Op → Nest
  | .write second data val => n.put second (PicState.afterWrite data val (n.stack second))
  | .read second data => n.put second ((ps.chip second).afterRead data (n.stack second))
  | .getInum =>
    { st0 := ps.pic0.afterAck n.st0
      st1 := if ps.pic0.getIrq = some 2 then ps.pic1.afterAck n.st1 else n.st1 }
  | .reset => ⟨[], []⟩
  | _ => n

end Nest

namespace Pics

variable {ps : Pics} {n : Nest}

/-- The lines in service of each controller are its stack. -/
structure Nested (ps : Pics) (n : Nest) : Prop where
  pic0 : ps.pic0.Stacked n.st0
  pic1 : ps.pic1.Stacked n.st1

theorem Nested.update1 (h : Nested ps n) : Nested ps.update1 n where
  pic0 := h.pic0.setIrq 2 ps.output1
  pic1 := h.pic1

/-- One controller and its stack are changed. -/
theorem Nested.put (h : Nested ps n) (second : Bool) (u : PicState.Updated) {st : List Nat}
    (hu : u.1.Stacked st) : Nested (ps.put second u) (n.put second st) := by
  obtain ⟨s, updated⟩ := u
  cases second with
  | false => exact ⟨hu, h.pic1⟩
  | true =>
    have hnested : Nested { ps with pic1 := s } { n with st1 := st } := ⟨h.pic0, hu⟩
    cases updated with
    | false => exact hnested
    | true => exact hnested.update1

theorem Nested.chip (h : Nested ps n) (second : Bool) :
    (ps.chip second).Stacked (n.stack second) := by
  cases second with
  | false => exact h.pic0
  | true => exact h.pic1

theorem Nested.readIrq (h : Nested ps n) : Nested ps.readIrq.2 (n.after ps .getInum) := by
  unfold Nest.after
  cases hget : ps.pic0.getIrq with
  | none =>
    rw [readIrq_none hget]
    unfold PicState.afterAck
    rw [hget]
    exact h
  | some irq =>
    have hpush := h.pic0.ack hget
    by_cases htwo : irq = 2
    · subst htwo
      rw [if_pos rfl]
      cases hget2 : ps.pic1.getIrq with
      | none =>
        have hread : ps.readIrq.2 = ps.put false (ps.pic0.intack 2, true) := by
          unfold Pics.readIrq
          rw [hget, hget2]
          rfl
        rw [hread]
        refine ⟨hpush, ?_⟩
        unfold PicState.afterAck
        rw [hget2]
        exact h.pic1
      | some irq2 =>
        rw [readIrq_cascaded hget hget2]
        refine ⟨?_, h.pic1.ack hget2⟩
        have hset := h.pic0.setIrq 2 (ps.pic1.intack irq2).getIrq.isSome
        have hkeeps : ∀ level, (ps.pic0.setIrq 2 level).priorityAdd = ps.pic0.priorityAdd ∧
            (ps.pic0.setIrq 2 level).autoEoi = ps.pic0.autoEoi := by
          intro level
          unfold PicState.setIrq
          split_ifs
          · exact ⟨rfl, rfl⟩
          · exact ⟨rfl, rfl⟩
          · exact ⟨rfl, rfl⟩
          · exact ⟨rfl, rfl⟩
        obtain ⟨hadd, heoi⟩ := hkeeps (ps.pic1.intack irq2).getIrq.isSome
        have hpush' := hset.push (show 2 < 8 by decide) (by
          unfold PicState.rank
          rw [hadd]
          exact h.pic0.above hget)
        rw [heoi] at hpush'
        unfold PicState.afterAck
        rw [hget]
        exact hpush'
    · have hne : some irq ≠ some 2 := fun heq => htwo (Option.some.inj heq)
      rw [readIrq_own hget htwo, if_neg hne]
      exact ⟨hpush, h.pic1⟩

/-- Every operation but a write that is not tame. -/
def NestOk (ps : Pics) : Op → Prop
  | .write second data val => (ps.chip second).Tame data val
  | _ => True

instance (ps : Pics) : ∀ op, Decidable (NestOk ps op)
  | .write second data val => inferInstanceAs (Decidable ((ps.chip second).Tame data val))
  | .setLine _ _ => .isTrue trivial
  | .read _ _ => .isTrue trivial
  | .writeElcr _ _ => .isTrue trivial
  | .writeFirr _ _ => .isTrue trivial
  | .getInum => .isTrue trivial
  | .reset => .isTrue trivial

/-- One operation does to both controllers what it does to their stacks. -/
theorem exec_stacked (h : Nested ps n) {op : Op} (hok : NestOk ps op) :
    Nested (ps.exec op).2 (n.after ps op) := by
  cases op with
  | setLine irq level =>
    change Nested (ps.setLine irq level) n
    unfold Pics.setLine
    split_ifs
    · have hset : Nested { ps with pic1 := ps.pic1.setIrq (irq - 8) level } n :=
        ⟨h.pic0, h.pic1.setIrq (irq - 8) level⟩
      exact hset.update1
    · exact ⟨h.pic0.setIrq irq level, h.pic1⟩
  | write second data val => exact h.put second _ ((h.chip second).ioportWrite hok)
  | read second data => exact h.put second _ ((h.chip second).ioportRead data)
  | writeElcr second val =>
    have hsame := (h.chip second).congr (t := (ps.chip second).elcrWrite val) rfl rfl
      (h.chip second).specialMask (h.chip second).rotate (h.chip second).nested
    have hput := h.put second (_, false) hsame
    cases second with
    | false => exact hput
    | true => exact hput
  | writeFirr second val =>
    have hsame := (h.chip second).congr (t := { ps.chip second with fakeIrr := val }) rfl rfl
      (h.chip second).specialMask (h.chip second).rotate (h.chip second).nested
    have hput := h.put second (_, false) hsame
    cases second with
    | false => exact hput
    | true => exact hput
  | getInum => exact h.readIrq
  | reset =>
    have hempty : Nested (ps.resetChip false) ⟨[], n.st1⟩ :=
      ⟨PicState.resetCommon_stacked _, h.pic1⟩
    exact hempty.put true (_, true) (PicState.resetCommon_stacked _)

theorem initPics_nested : Nested initPics ⟨[], []⟩ where
  pic0 := (PicState.resetCommon_stacked initPics.pic0).congr rfl rfl rfl rfl rfl
  pic1 := (PicState.resetCommon_stacked initPics.pic1).congr rfl rfl rfl rfl rfl

/-- The controllers beside their stacks -/
def nestStep (p : Pics × Nest) (op : Op) : Option (Pics × Nest) :=
  some ((p.1.exec op).2, p.2.after p.1 op)

/-- In every run without poll acknowledgements by writes, special modes and rotation, the lines
in service of each controller are a stack in the order of their priorities: an acknowledgement
puts the line on top, the unspecific end of interrupt takes the top off and ends no other line,
and only a line above the top is offered. -/
theorem nested_run {t : Pics} {n : Nest} {ops : List Op}
    (hok : Run.Admits nestStep (fun p op => NestOk p.1 op) (initPics, ⟨[], []⟩) ops)
    (hrun : Run.run nestStep (initPics, ⟨[], []⟩) ops = some (t, n)) (second : Bool) :
    (∀ j, j < 8 → ((t.chip second).isr.getLsbD j = true ↔ j ∈ n.stack second)) ∧
      (n.stack second).Pairwise (fun a b => (t.chip second).rank a < (t.chip second).rank b) ∧
      ∀ irq, (t.chip second).getIrq = some irq →
        ∀ j ∈ n.stack second, (t.chip second).rank irq < (t.chip second).rank j := by
  have hnested : Nested t n := by
    refine Run.run_invariant (fun p op => NestOk p.1 op) (fun p => Nested p.1 p.2) ?_
      initPics_nested hok hrun
    intro p op p' h hop hstep
    cases hstep
    exact exec_stacked h hop
  have hchip := hnested.chip second
  exact ⟨hchip.isr, hchip.sorted, fun irq hget => hchip.above hget⟩

/-- Line 5 is interrupted by line 1, which ends. -/
def nestedOps : List Op :=
  [.setLine 5 true, .getInum, .setLine 1 true, .getInum, .write false false 0x20]

theorem nested_run_interrupted :
    ∃ t n, Run.run nestStep (initPics, ⟨[], []⟩) nestedOps = some (t, n) ∧
      (∀ j, j < 8 → ((t.chip false).isr.getLsbD j = true ↔ j ∈ n.stack false)) ∧
      (n.stack false).Pairwise (fun a b => (t.chip false).rank a < (t.chip false).rank b) ∧
      ∀ irq, (t.chip false).getIrq = some irq →
        ∀ j ∈ n.stack false, (t.chip false).rank irq < (t.chip false).rank j := by
  have hok : Run.Admits nestStep (fun p op => NestOk p.1 op) (initPics, ⟨[], []⟩) nestedOps := by
    decide
  obtain ⟨⟨t, n⟩, ht⟩ := Option.isSome_iff_exists.mp
    (show (Run.run nestStep (initPics, ⟨[], []⟩) nestedOps).isSome by decide)
  exact ⟨t, n, ht, nested_run hok ht false⟩

end Pics

end Pic
end Dosemu
