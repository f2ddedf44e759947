import Dosemu.Pic.Cascade

/-!
# Service of all requests

With nothing in service, the CPU asks for an interrupt number and its handler ends the interrupt
at the controllers that it came through, until nothing is pending.

Main results:

- Theorem `asking_cons`: the first line that asks is the one that is offered.
- Theorem `serve_spec`: one service takes the first line off the list of those that ask.
- Theorem `serveAll_asking`: all of them are served once, in the order of their priorities.
-/

namespace Dosemu
namespace Pic

/-! ## One controller -/

namespace PicState

variable {s t : PicState} {irq : Nat} {rest : List Nat}

/-- The lines that ask, that of the highest priority first -/
def asking (s : PicState) : List Nat :=
  ((List.range 8).map s.line).filter fun irq => s.irr.getLsbD irq && !s.imr.getLsbD irq

/-- Nothing is in service, all lines are edge triggered, and no mode is on in which an interrupt
ends itself or is polled for. -/
structure Rest (s : PicState) : Prop where
  isr : s.isr = 0
  elcr : s.elcr = 0
  autoEoi : s.autoEoi = false
  poll : s.poll = false

instance (s : PicState) : Decidable s.Rest :=
  decidable_of_iff (s.isr = 0 ∧ s.elcr = 0 ∧ s.autoEoi = false ∧ s.poll = false)
    ⟨fun h => ⟨h.1, h.2.1, h.2.2.1, h.2.2.2⟩, fun h => ⟨h.isr, h.elcr, h.autoEoi, h.poll⟩⟩

theorem mem_asking : irq ∈ s.asking ↔ irq < 8 ∧ s.Requests irq := by
  unfold asking Requests
  rw [List.mem_filter, List.mem_map, Bool.and_eq_true, Bool.not_eq_true']
  constructor
  · rintro ⟨⟨priority, -, rfl⟩, hreq⟩
    exact ⟨s.line_lt priority, hreq⟩
  · rintro ⟨hlt, hreq⟩
    exact ⟨⟨s.rank irq, List.mem_range.mpr (s.rank_lt irq), s.line_rank hlt⟩, hreq⟩

theorem asking_sorted (s : PicState) : s.asking.Pairwise fun a b => s.rank a < s.rank b := by
  unfold asking
  refine List.Pairwise.filter _ (List.pairwise_map.mpr ?_)
  refine List.Pairwise.imp_of_mem ?_ List.pairwise_lt_range
  intro a b ha hb hlt
  rw [s.rank_line (List.mem_range.mp ha), s.rank_line (List.mem_range.mp hb)]
  exact hlt

theorem Rest.inService (h : s.Rest) : s.inService = 0 := by
  unfold PicState.inService
  rw [h.isr]
  dsimp only
  split_ifs
  · simp
  · simp
  · simp
  · rfl

theorem asking_nil (h : s.Rest) : s.asking = [] ↔ s.getIrq = none := by
  rw [getIrq_eq_none_iff, List.eq_nil_iff_forall_not_mem, h.inService]
  constructor
  · intro hnone irq hlt hreq
    exact absurd (mem_asking.mpr ⟨hlt, hreq⟩) (hnone irq)
  · intro hnone irq hmem
    obtain ⟨hlt, hreq⟩ := mem_asking.mp hmem
    obtain ⟨j, -, hset, -⟩ := hnone irq hlt hreq
    change (0#8).getLsbD j = true at hset
    rw [BitVec.getLsbD_zero] at hset
    cases hset

/-- The first line that asks is the one that is offered. -/
theorem asking_cons (h : s.Rest) (hcons : s.asking = irq :: rest) : s.getIrq = some irq := by
  have hsorted := s.asking_sorted
  rw [hcons] at hsorted
  have hmem : irq ∈ s.asking := by
    rw [hcons]
    exact List.mem_cons_self
  obtain ⟨hlt, hreq⟩ := mem_asking.mp hmem
  refine getIrq_eq_some_iff.mpr ⟨hlt, hreq, ?_, ?_⟩
  · intro j hj hjreq
    have hjmem := mem_asking.mpr ⟨hj, hjreq⟩
    rw [hcons] at hjmem
    rcases List.mem_cons.mp hjmem with heq | htail
    · rw [heq]
    · exact ((List.pairwise_cons.mp hsorted).1 j htail).le
  · intro j _ hset
    rw [h.inService] at hset
    change (0#8).getLsbD j = true at hset
    rw [BitVec.getLsbD_zero] at hset
    cases hset

theorem asking_congr (himr : t.imr = s.imr) (hadd : t.priorityAdd = s.priorityAdd)
    (hirr : ∀ j, j < 8 → t.irr.getLsbD j = s.irr.getLsbD j) : t.asking = s.asking := by
  have hline : t.line = s.line := by
    funext priority
    unfold line
    rw [hadd]
  unfold asking
  rw [hline, himr]
  apply List.filter_congr
  intro irq hmem
  obtain ⟨priority, -, rfl⟩ := List.mem_map.mp hmem
  rw [hirr _ (s.line_lt priority)]

/-- Without its request, the first line asks no more. -/
theorem asking_served (himr : t.imr = s.imr) (hadd : t.priorityAdd = s.priorityAdd)
    (hcons : s.asking = irq :: rest)
    (hirr : ∀ j, j < 8 → t.irr.getLsbD j = (s.irr.getLsbD j && !decide (j = irq))) :
    t.asking = rest := by
  have hline : t.line = s.line := by
    funext priority
    unfold line
    rw [hadd]
  have hfilter : t.asking = s.asking.filter fun j => !decide (j = irq) := by
    unfold asking
    rw [hline, himr, List.filter_filter]
    apply List.filter_congr
    intro j hmem
    obtain ⟨priority, -, rfl⟩ := List.mem_map.mp hmem
    rw [hirr _ (s.line_lt priority), Bool.and_right_comm, Bool.and_comm]
  have hsorted := s.asking_sorted
  rw [hcons] at hsorted
  have hne : ∀ j ∈ rest, j ≠ irq := by
    intro j hj heq
    have hlt := (List.pairwise_cons.mp hsorted).1 j hj
    rw [heq] at hlt
    exact Nat.lt_irrefl _ hlt
  rw [hfilter, hcons, List.filter_cons_of_neg (by simp)]
  apply List.filter_eq_self.mpr
  intro j hj
  rw [decide_eq_false (hne j hj)]
  rfl

/-- The unspecific end of interrupt of the only line in service -/
theorem command_eoi (hlt : irq < 8) (hisr : s.isr = bit irq) :
    s.command 0x20 = ({ s with isr := 0 }, true) := by
  have hpriority : s.getPriority s.isr = s.rank irq := by
    rcases s.getPriority_cases s.isr with ⟨-, hno⟩ | ⟨first, hfirst, hset, heq, -⟩
    · have hset := hno irq hlt
      rw [hisr, getLsbD_bit hlt, decide_eq_true rfl] at hset
      cases hset
    · rw [hisr, getLsbD_bit hfirst, decide_eq_true_iff] at hset
      rw [heq, hset]
  have hclear : s.isr &&& ~~~bit irq = 0 := by
    rw [hisr]
    simp
  change (if s.getPriority s.isr = 8 then (s, false)
    else ({ s with isr := s.isr &&& ~~~bit (s.line (s.getPriority s.isr)) }, true)) = _
  rw [hpriority, if_neg (s.rank_lt irq).ne, s.line_rank hlt, hclear]

theorem setIrq_isr (s : PicState) (irq : Nat) (level : Bool) (isr : Byte) :
    ({ s with isr := isr } : PicState).setIrq irq level =
      { s.setIrq irq level with isr := isr } := by
  unfold setIrq
  cases level with
  | false => rfl
  | true =>
    rw [if_pos rfl, if_pos rfl]
    dsimp only
    split_ifs
    · rfl
    · rfl
    · rfl

theorem setIrq_irqBase (s : PicState) (irq : Nat) (level : Bool) :
    (s.setIrq irq level).irqBase = s.irqBase := by
  unfold setIrq
  split_ifs
  · rfl
  · rfl
  · rfl
  · rfl

/-- The state without the request of a line -/
def served (s : PicState) (irq : Nat) : PicState :=
  { s with irr := s.irr &&& ~~~bit irq }

theorem Rest.served (h : s.Rest) (irq : Nat) : (s.served irq).Rest :=
  ⟨h.isr, h.elcr, h.autoEoi, h.poll⟩

theorem Wired.served {level : Bool} (h : s.Wired level) (hirq : irq ≠ 2 ∨ level = false) :
    (s.served irq).Wired level := by
  refine ⟨?_, h.lastIrr, h.elcr, h.elcrMask⟩
  change (s.irr &&& ~~~bit irq).getLsbD 2 = level
  rw [getLsbD_clear_bit (by decide), h.irr]
  rcases hirq with hne | hlevel
  · rw [decide_eq_false hne, Bool.not_false, Bool.and_true]
  · rw [hlevel, Bool.false_and]

theorem Rest.setIrq (h : s.Rest) (irq : Nat) (level : Bool) : (s.setIrq irq level).Rest := by
  unfold PicState.setIrq
  split_ifs
  · exact ⟨h.isr, h.elcr, h.autoEoi, h.poll⟩
  · exact ⟨h.isr, h.elcr, h.autoEoi, h.poll⟩
  · exact ⟨h.isr, h.elcr, h.autoEoi, h.poll⟩
  · exact ⟨h.isr, h.elcr, h.autoEoi, h.poll⟩

theorem Rest.intack (h : s.Rest) (irq : Nat) :
    s.intack irq = { s.served irq with isr := bit irq } := by
  unfold PicState.intack PicState.served
  rw [h.autoEoi, h.elcr, h.isr]
  simp

theorem ioportWrite_eoi (h : s.poll = false) : s.ioportWrite false 0x20 = s.command 0x20 := by
  unfold ioportWrite
  rw [h, if_neg (by decide), if_neg (by decide), if_neg (by decide), if_neg (by decide)]

/-- The end of interrupt of the only line in service leaves nothing in service. -/
theorem Rest.eoi (h : s.Rest) (hlt : irq < 8) :
    ({ s with isr := bit irq } : PicState).ioportWrite false 0x20 = (s, true) := by
  rw [ioportWrite_eoi (s := { s with isr := bit irq }) h.poll, command_eoi hlt rfl]
  change (({ s with isr := 0 } : PicState), true) = (s, true)
  rw [← h.isr]

/-- The line asks no more. -/
theorem asking_served_cons (hcons : s.asking = irq :: rest) : (s.served irq).asking = rest := by
  refine asking_served (s := s) (t := s.served irq) rfl rfl hcons ?_
  intro j hj
  change (s.irr &&& ~~~bit irq).getLsbD j = _
  rw [getLsbD_clear_bit hj]
  simp only [eq_comm]

theorem asking_notMem (hcons : s.asking = irq :: rest) : irq ∉ rest := by
  have hsorted := s.asking_sorted
  rw [hcons] at hsorted
  intro hmem
  exact Nat.lt_irrefl _ ((List.pairwise_cons.mp hsorted).1 irq hmem)

end PicState

/-! ## Both controllers -/

namespace Pics

variable {ps ps' : Pics} {line : Nat} {lines : List Nat}

/-- The interrupt number of a line, with 8 and more for the second controller -/
def vector (ps : Pics) (line : Nat) : Byte :=
  if 8 ≤ line then ps.pic1.irqBase + BitVec.ofNat 8 (line - 8)
  else ps.pic0.irqBase + BitVec.ofNat 8 line

theorem vector_congr (h0 : ps'.pic0.irqBase = ps.pic0.irqBase)
    (h1 : ps'.pic1.irqBase = ps.pic1.irqBase) : ps'.vector = ps.vector := by
  funext line
  unfold vector
  rw [h0, h1]

/-- The CPU takes the interrupt that is pending, and its handler ends it: at the second controller
first, if it came from there. -/
def serve (ps : Pics) : Option (Byte × Pics) :=
  ps.pic0.getIrq.map fun irq =>
    let num := (ps.exec .getInum).1
    let acked := (ps.exec .getInum).2
    let ended := if irq = 2 then (acked.exec (.write true false 0x20)).2 else acked
    (num, (ended.exec (.write false false 0x20)).2)

/-- At most `n` services: the interrupt numbers, and what is left -/
def serveAll : Nat → Pics → List Byte × Pics
  | 0, ps => ([], ps)
  | n + 1, ps =>
    match ps.serve with
    | none => ([], ps)
    | some (num, ps') => (num :: (serveAll n ps').1, (serveAll n ps').2)

/-- The lines that ask, in the order of their priorities -/
def asking (ps : Pics) : List Nat :=
  ps.pic0.asking.flatMap fun irq => if irq = 2 then ps.pic1.asking.map (8 + ·) else [irq]

structure Rest (ps : Pics) : Prop where
  joined : ps.Joined
  pic0 : ps.pic0.Rest
  pic1 : ps.pic1.Rest

theorem Rest.output1_eq (h : ps.Rest) : ps.output1 = false ↔ ps.pic1.asking = [] := by
  rw [PicState.asking_nil h.pic1]
  unfold output1
  rw [Option.isSome_eq_false_iff, Option.isNone_iff_eq_none]

/-- A line of the first controller's own -/
theorem Rest.serve_own (h : ps.Rest) {irq : Nat} (hget : ps.pic0.getIrq = some irq)
    (hne : irq ≠ 2) :
    ps.serve = some (ps.vector irq, { ps with pic0 := ps.pic0.served irq }) := by
  have hlt := PicState.getIrq_lt hget
  have hnum : ps.exec .getInum =
      (ps.vector irq, { ps with pic0 := { ps.pic0.served irq with isr := bit irq } }) := by
    change ps.readIrq = _
    rw [readIrq_own hget hne, h.pic0.intack]
    unfold vector
    rw [if_neg (Nat.not_le.mpr hlt)]
    rfl
  unfold serve
  rw [hget, hnum]
  dsimp only [Option.map_some]
  rw [if_neg hne]
  unfold exec chip
  dsimp only
  rw [if_neg (by decide), (h.pic0.served irq).eoi hlt]
  rfl

/-- A line of the second controller, whose next line is an edge on line 2 again -/
theorem Rest.serve_cascaded (h : ps.Rest) {irq2 : Nat} (hget : ps.pic0.getIrq = some 2)
    (hget2 : ps.pic1.getIrq = some irq2) :
    ps.serve = some (ps.vector (8 + irq2),
      { pic0 := ((ps.pic0.setIrq 2 false).served 2).setIrq 2 (ps.pic1.served irq2).getIrq.isSome
        pic1 := ps.pic1.served irq2 }) := by
  have hlt := PicState.getIrq_lt hget2
  have hblocked : (ps.pic1.intack irq2).getIrq.isSome = false := by
    rw [PicState.intack_blocks hget2 h.pic1.autoEoi (by rw [h.joined.second, Bool.and_false])]
    rfl
  have hlow : (ps.pic0.setIrq 2 false).Rest := h.pic0.setIrq 2 false
  have hnum : ps.exec .getInum = (ps.vector (8 + irq2),
      { pic0 := { (ps.pic0.setIrq 2 false).served 2 with isr := bit 2 }
        pic1 := { ps.pic1.served irq2 with isr := bit irq2 } }) := by
    change ps.readIrq = _
    rw [readIrq_cascaded hget hget2]
    unfold vector put update1 output1
    dsimp only
    rw [if_pos (Nat.le_add_right 8 irq2), Nat.add_sub_cancel_left, hblocked, ← h.pic1.intack,
      ← hlow.intack]
    rfl
  unfold serve
  rw [hget, hnum]
  dsimp only [Option.map_some]
  rw [if_pos rfl]
  have hend2 : (({ pic0 := { (ps.pic0.setIrq 2 false).served 2 with isr := bit 2 }
                   pic1 := { ps.pic1.served irq2 with isr := bit irq2 } } : Pics).exec
      (.write true false 0x20)).2 =
      { pic0 := { ((ps.pic0.setIrq 2 false).served 2).setIrq 2
          (ps.pic1.served irq2).getIrq.isSome with isr := bit 2 }
        pic1 := ps.pic1.served irq2 } := by
    unfold exec chip
    dsimp only
    rw [if_pos rfl, (h.pic1.served irq2).eoi hlt]
    unfold put update1 output1
    dsimp only
    rw [if_pos rfl, if_pos rfl, PicState.setIrq_isr]
  rw [hend2]
  unfold exec chip
  dsimp only
  rw [if_neg (by decide),
    ((hlow.served 2).setIrq 2 (ps.pic1.served irq2).getIrq.isSome).eoi (by decide)]
  rfl

/-- The first controller after a service of the second: line 2 is asked for again if a line of
the second controller is left. -/
theorem asking_cascaded {s : PicState} {rest : List Nat} (hcons : s.asking = 2 :: rest)
    (helcr : s.elcr = 0) (level : Bool) :
    (((s.setIrq 2 false).served 2).setIrq 2 level).asking = if level then 2 :: rest else rest := by
  have hclear : ∀ j, j < 8 → ((s.setIrq 2 false).served 2).irr.getLsbD j =
      (s.irr.getLsbD j && !decide (j = 2)) := by
    intro j hj
    change ((s.irr &&& ~~~bit 2) &&& ~~~bit 2).getLsbD j = _
    rw [PicState.getLsbD_clear_bit hj, PicState.getLsbD_clear_bit hj, Bool.and_assoc,
      Bool.and_self]
    simp only [eq_comm]
  have hlast : ((s.setIrq 2 false).served 2).lastIrr &&& bit 2 = 0 := by
    refine (PicState.and_bit_eq_zero (by decide)).mpr ?_
    change (s.lastIrr &&& ~~~bit 2).getLsbD 2 = false
    rw [PicState.getLsbD_clear_bit (by decide), decide_eq_true rfl, Bool.not_true, Bool.and_false]
  have hedge : ((s.setIrq 2 false).served 2).elcr &&& bit 2 = 0 := by
    change s.elcr &&& bit 2 = 0
    rw [helcr]
    exact BitVec.zero_and
  cases level with
  | false =>
    rw [if_neg (by decide)]
    refine PicState.asking_served (s := s) rfl rfl hcons ?_
    intro j hj
    change (((s.setIrq 2 false).served 2).irr &&& ~~~bit 2).getLsbD j = _
    rw [PicState.getLsbD_clear_bit hj, hclear j hj, Bool.and_assoc]
    simp only [eq_comm, Bool.and_self]
  | true =>
    rw [if_pos rfl, ← hcons]
    have hset : ((s.setIrq 2 false).served 2).setIrq 2 true =
        { (s.setIrq 2 false).served 2 with
          irr := ((s.setIrq 2 false).served 2).irr ||| bit 2
          lastIrr := ((s.setIrq 2 false).served 2).lastIrr ||| bit 2 } := by
      rw [PicState.setIrq, if_pos rfl, if_neg (not_not.mpr hedge), if_pos hlast]
    rw [hset]
    refine PicState.asking_congr (s := s) rfl rfl ?_
    intro j hj
    dsimp only
    rw [PicState.getLsbD_or_bit hj, hclear j hj]
    have hreq : 2 < 8 ∧ s.Requests 2 := PicState.mem_asking.mp (by rw [hcons]; simp)
    by_cases htwo : j = 2
    · rw [htwo, hreq.2.1]
      rfl
    · rw [decide_eq_false htwo, decide_eq_false (Ne.symm htwo), Bool.not_false, Bool.and_true,
        Bool.or_false]

theorem Rest.mem_two (h : ps.Rest) (hmem : 2 ∈ ps.pic0.asking) : ps.pic1.asking ≠ [] := by
  intro hnil
  have houtput := h.output1_eq.mpr hnil
  have hreq := (PicState.mem_asking.mp hmem).2.1
  rw [h.joined.wired.irr, houtput] at hreq
  cases hreq

theorem Rest.serve_nil (h : ps.Rest) (hnil : ps.asking = []) : ps.serve = none := by
  have hnone : ps.pic0.asking = [] := by
    cases hcons : ps.pic0.asking with
    | nil => rfl
    | cons irq rest =>
      have hhead := List.flatMap_eq_nil_iff.mp hnil irq (by rw [hcons]; exact List.mem_cons_self)
      split_ifs at hhead with htwo
      refine absurd (List.map_eq_nil_iff.mp hhead) (h.mem_two ?_)
      rw [hcons, htwo]
      exact List.mem_cons_self
  unfold serve
  rw [(PicState.asking_nil h.pic0).mp hnone]
  rfl

theorem flatMap_own {rest own : List Nat} (h : 2 ∉ rest) :
    (rest.flatMap fun irq => if irq = 2 then own else [irq]) = rest := by
  induction rest with
  | nil => rfl
  | cons irq rest ih =>
    rw [List.mem_cons, not_or] at h
    rw [List.flatMap_cons, if_neg (Ne.symm h.1), ih h.2]
    rfl

/-- The lines of one request of the first controller -/
theorem asking_eq (ps : Pics) {irq : Nat} {rest : List Nat} (hcons : ps.pic0.asking = irq :: rest) :
    ps.asking = (if irq = 2 then ps.pic1.asking.map (8 + ·) else [irq]) ++
      rest.flatMap fun irq => if irq = 2 then ps.pic1.asking.map (8 + ·) else [irq] := by
  unfold asking
  rw [hcons]
  exact List.flatMap_cons

/-- One service takes the first line off the list of those that ask. -/
theorem Rest.serve_cons (h : ps.Rest) (hcons : ps.asking = line :: lines) :
    ∃ ps', ps.serve = some (ps.vector line, ps') ∧ ps'.Rest ∧ ps'.asking = lines ∧
      ps'.vector = ps.vector := by
  cases hasking : ps.pic0.asking with
  | nil =>
    unfold asking at hcons
    rw [hasking] at hcons
    cases hcons
  | cons irq rest =>
    have hget := PicState.asking_cons h.pic0 hasking
    have heq := ps.asking_eq hasking
    rw [hcons] at heq
    by_cases htwo : irq = 2
    · subst htwo
      rw [if_pos rfl] at heq
      have hne := h.mem_two (by rw [hasking]; exact List.mem_cons_self)
      obtain ⟨irq2, rest2, hasking2⟩ := List.exists_cons_of_ne_nil hne
      have hget2 := PicState.asking_cons h.pic1 hasking2
      rw [hasking2, List.map_cons, List.cons_append, List.cons.injEq] at heq
      obtain ⟨rfl, rfl⟩ := heq
      refine ⟨_, h.serve_cascaded hget hget2, ⟨?_, ?_, h.pic1.served irq2⟩, ?_, ?_⟩
      · have hwired : ((ps.pic0.setIrq 2 false).served 2).Wired false :=
          (h.joined.wired.setIrq2 false).served (.inr rfl)
        exact Joined.mk (hwired.setIrq2 _) h.joined.second
      · exact ((h.pic0.setIrq 2 false).served 2).setIrq 2 _
      · have hrest2 : (ps.pic1.served irq2).asking = rest2 := PicState.asking_served_cons hasking2
        have hpic0 := asking_cascaded hasking h.pic0.elcr (ps.pic1.served irq2).getIrq.isSome
        unfold asking
        dsimp only
        rw [hpic0, hrest2]
        cases hlevel : (ps.pic1.served irq2).getIrq with
        | none =>
          have hnil : rest2 = [] := by
            rw [← hrest2]
            exact (PicState.asking_nil (h.pic1.served irq2)).mpr hlevel
          rw [Option.isSome_none, if_neg (by decide), hnil,
            flatMap_own (PicState.asking_notMem hasking),
            flatMap_own (PicState.asking_notMem hasking)]
          rfl
        | some irq3 =>
          rw [Option.isSome_some, if_pos rfl, List.flatMap_cons, if_pos rfl,
            flatMap_own (PicState.asking_notMem hasking),
            flatMap_own (PicState.asking_notMem hasking)]
      · exact vector_congr (PicState.setIrq_irqBase _ _ _) rfl
    · rw [if_neg htwo, List.singleton_append, List.cons.injEq] at heq
      obtain ⟨rfl, rfl⟩ := heq
      refine ⟨_, h.serve_own hget htwo, ⟨?_, h.pic0.served _, h.pic1⟩, ?_, rfl⟩
      · exact ⟨h.joined.wired.served (.inl htwo), h.joined.second⟩
      · unfold asking
        rw [PicState.asking_served_cons hasking]

/-- From rest, all lines that ask are served once, in the order of their priorities. -/
theorem Rest.serveAll (n : Nat) :
    ∀ {ps : Pics}, ps.Rest → ps.asking.length ≤ n →
      (ps.serveAll n).1 = ps.asking.map ps.vector ∧ (ps.serveAll n).2.pic0.getIrq = none := by
  induction n with
  | zero =>
    intro ps h hlen
    have hnil := List.eq_nil_of_length_eq_zero (Nat.le_zero.mp hlen)
    rw [hnil]
    exact ⟨rfl, Option.map_eq_none_iff.mp (h.serve_nil hnil)⟩
  | succ n ih =>
    intro ps h hlen
    unfold Pics.serveAll
    cases hasking : ps.asking with
    | nil =>
      rw [h.serve_nil hasking]
      exact ⟨rfl, Option.map_eq_none_iff.mp (h.serve_nil hasking)⟩
    | cons line lines =>
      obtain ⟨ps', hserve, hrest, rfl, hvector⟩ := h.serve_cons hasking
      rw [hasking] at hlen
      obtain ⟨hnums, hdone⟩ := ih hrest (Nat.le_of_succ_le_succ hlen)
      rw [hserve]
      dsimp only
      rw [hnums, hvector]
      exact ⟨rfl, hdone⟩

theorem Rest.mem_asking (h : ps.Rest) :
    line ∈ ps.asking ↔ (line < 8 ∧ line ≠ 2 ∧ ps.pic0.Requests line) ∨
      (8 ≤ line ∧ line < 16 ∧ ps.pic1.Requests (line - 8) ∧ ps.pic0.imr.getLsbD 2 = false) := by
  unfold asking
  rw [List.mem_flatMap]
  constructor
  · rintro ⟨irq, hirq, hmem⟩
    obtain ⟨hlt, hreq⟩ := PicState.mem_asking.mp hirq
    split_ifs at hmem with htwo
    · obtain ⟨irq2, hirq2, rfl⟩ := List.mem_map.mp hmem
      obtain ⟨hlt2, hreq2⟩ := PicState.mem_asking.mp hirq2
      rw [htwo] at hreq
      refine .inr ⟨Nat.le_add_right 8 irq2, Nat.add_lt_add_left hlt2 8, ?_, hreq.2⟩
      rw [Nat.add_sub_cancel_left]
      exact hreq2
    · obtain rfl := List.mem_singleton.mp hmem
      exact .inl ⟨hlt, htwo, hreq⟩
  · rintro (⟨hlt, hne, hreq⟩ | ⟨hle, hlt, hreq, hmask⟩)
    · refine ⟨line, PicState.mem_asking.mpr ⟨hlt, hreq⟩, ?_⟩
      rw [if_neg hne]
      exact List.mem_singleton_self line
    · have hmem : line - 8 ∈ ps.pic1.asking := PicState.mem_asking.mpr ⟨by omega, hreq⟩
      have houtput : ps.output1 = true := by
        by_contra hno
        rw [h.output1_eq.mp (Bool.eq_false_iff.mpr hno)] at hmem
        cases hmem
      refine ⟨2, PicState.mem_asking.mpr ⟨by decide, h.joined.wired.irr.trans houtput, hmask⟩, ?_⟩
      rw [if_pos rfl]
      exact List.mem_map.mpr ⟨line - 8, hmem, by omega⟩

theorem asking_nodup (ps : Pics) : ps.asking.Nodup := by
  have hnodup : ∀ s : PicState, s.asking.Nodup := by
    intro s
    refine s.asking_sorted.imp ?_
    rintro a _ hlt rfl
    exact Nat.lt_irrefl _ hlt
  unfold asking
  refine List.nodup_flatMap.mpr ⟨?_, ?_⟩
  · intro irq _
    split_ifs
    · exact (hnodup ps.pic1).map (add_right_injective 8)
    · exact List.nodup_singleton irq
  · refine (hnodup ps.pic0).imp_of_mem ?_
    intro a b ha hb hne line hline hline'
    have halt := (PicState.mem_asking.mp ha).1
    have hblt := (PicState.mem_asking.mp hb).1
    dsimp only at hline hline'
    split_ifs at hline hline' with ha2 hb2 hb2
    · exact hne (ha2.trans hb2.symm)
    · obtain ⟨irq2, -, rfl⟩ := List.mem_map.mp hline
      have := List.mem_singleton.mp hline'
      omega
    · obtain ⟨irq2, -, rfl⟩ := List.mem_map.mp hline'
      have := List.mem_singleton.mp hline
      omega
    · exact hne ((List.mem_singleton.mp hline).symm.trans (List.mem_singleton.mp hline'))

/-- After every run of operations that keep the two controllers together, with nothing in service:
each line that is requested and not masked is served exactly once, in the order of the priorities
and with the number that it was given, and then nothing is pending. -/
theorem requests_served {t : Pics} {ops : List Op} (hok : Run.Admits Pics.step Good initPics ops)
    (hrun : Run.run Pics.step initPics ops = some t) (h0 : t.pic0.Rest) (h1 : t.pic1.Rest) {n : Nat}
    (hn : t.asking.length ≤ n) :
    (t.serveAll n).1 = t.asking.map t.vector ∧ (t.serveAll n).2.pic0.getIrq = none ∧
      t.asking.Nodup ∧
      ∀ line, line ∈ t.asking ↔ (line < 8 ∧ line ≠ 2 ∧ t.pic0.Requests line) ∨
        (8 ≤ line ∧ line < 16 ∧ t.pic1.Requests (line - 8) ∧ t.pic0.imr.getLsbD 2 = false) := by
  have hrest : t.Rest := ⟨run_joined hok hrun, h0, h1⟩
  obtain ⟨hnums, hdone⟩ := Rest.serveAll n hrest hn
  exact ⟨hnums, hdone, t.asking_nodup, fun line => hrest.mem_asking⟩

/-- Both controllers are set up as by a BIOS, and three devices ask. -/
def threeOps : List Op :=
  [.write false false 0x11, .write false true 0x08, .write false true 0x04, .write false true 0x01,
    .write true false 0x11, .write true true 0x70, .write true true 0x02, .write true true 0x01,
    .setLine 12 true, .setLine 5 true, .setLine 9 true]

/-- Lines 12, 5 and 9 ask, after a BIOS has set the controllers up: 9, 12 and 5 are served. -/
theorem requests_served_three :
    ∃ t, Run.run Pics.step initPics threeOps = some t ∧
      (t.serveAll 3).1 = [0x71, 0x74, 0x0d] ∧ (t.serveAll 3).2.pic0.getIrq = none := by
  have hok : Run.Admits Pics.step Good initPics threeOps := by decide
  obtain ⟨t, ht⟩ := Option.isSome_iff_exists.mp
    (show (Run.run Pics.step initPics threeOps).isSome by decide)
  have hall : ∀ t ∈ Run.run Pics.step initPics threeOps, t.pic0.Rest ∧ t.pic1.Rest ∧
      t.asking.length ≤ 3 ∧ t.asking.map t.vector = [0x71, 0x74, 0x0d] := by decide
  obtain ⟨h0, h1, hlen, hnums⟩ := hall t (Option.mem_def.mpr ht)
  obtain ⟨heq, hdone, -⟩ := requests_served hok ht h0 h1 hlen
  exact ⟨t, ht, heq.trans hnums, hdone⟩

end Pics

end Pic
end Dosemu
