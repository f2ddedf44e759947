import Dosemu.Dma.Model

/-!
# Servicing the channels

A channel is serviced in a loop, as long as DRQ is asserted or a program requests
it in block mode.  Demand and single mode withdraw DRQ with every unit.  Block
mode goes on until terminal count, which withdraws both requests; with autoinit
the counter is reloaded instead, nothing is withdrawn, and the loop does not end.

Main results:

- Theorem `run_iff`: a channel is serviced in finite time exactly when it is not
  such a channel.
- Theorem `process_iff`: one such channel is enough for `dma_process`.
- Theorem `dma_terminates_iff`: the three together.
-/

namespace Dosemu
namespace Dma

open DoWhile

variable {k : Controller} {s t : Machine} {mapped : Addr → Bool} {c c' : Fin 2} {ch ch' : Fin 4}

/-! ## Bits -/

theorem getLsbD_setBit (r : Byte) {n : Nat} (hn : n < 8) (j : Nat) :
    (setBit r n).getLsbD j = (r.getLsbD j || decide (j = n)) := by
  have hpow : 1#8 <<< n = BitVec.twoPow 8 n := rfl
  rw [setBit, hpow, BitVec.getLsbD_or, BitVec.getLsbD_twoPow, decide_eq_true hn, Bool.true_and]
  simp [eq_comm]

theorem getLsbD_clearBit (r : Byte) {n : Nat} (hn : n < 8) (j : Nat) :
    (clearBit r n).getLsbD j = (r.getLsbD j && decide (j ≠ n)) := by
  have hpow : 1#8 <<< n = BitVec.twoPow 8 n := rfl
  rw [clearBit, hpow, BitVec.getLsbD_and, BitVec.getLsbD_not, BitVec.getLsbD_twoPow,
    decide_eq_true hn, Bool.true_and]
  by_cases hj : j < 8
  · simp [hj, eq_comm]
  · rw [BitVec.getLsbD_of_ge r j (by omega)]
    rfl

/-! ## One controller -/

/-- What the service of a channel depends on. -/
structure View where
  chan : Channel
  drq : Bool
  tc : Bool
  masked : Bool
  srq : Bool
  command : Byte
deriving DecidableEq

/-- The controller as a channel sees it. -/
def Controller.view (k : Controller) (ch : Fin 4) : View :=
  { chan := k.chans ch, drq := k.haveDrq ch, tc := k.reachedTc ch, masked := k.masked ch,
    srq := k.haveSrq ch, command := k.command }

/-- A channel that is serviced for ever: it is ready, in block mode with autoinit,
and requested. -/
def Controller.Endless (k : Controller) (ch : Fin 4) : Prop :=
  k.ready ch = true ∧ (k.chans ch).transferMode = .block ∧ (k.chans ch).autoinit = true ∧
    (k.haveDrq ch = true ∨ k.haveSrq ch = true)

instance : Decidable (k.Endless ch) :=
  inferInstanceAs (Decidable (_ ∧ _ ∧ _ ∧ _))

theorem endless_congr {k' : Controller} (h : k'.view ch = k.view ch) :
    k'.Endless ch ↔ k.Endless ch := by
  simp only [Controller.view, View.mk.injEq] at h
  obtain ⟨hchan, hdrq, htc, hmasked, hsrq, hcommand⟩ := h
  simp only [Controller.Endless, Controller.ready, Controller.disabled, hchan, hdrq, htc, hmasked,
    hsrq, hcommand]

/-- The channel is requested. -/
def Controller.active (k : Controller) (ch : Fin 4) : Bool :=
  k.haveDrq ch || k.swActive ch

@[simp]
theorem setChan_chans (k : Controller) (ch : Fin 4) (chan : Channel) :
    (k.setChan ch chan).chans ch = chan := by
  simp [Controller.setChan]

/-- The counter underflows from zero. -/
theorem count_underflow_iff (x : BitVec 16) : x - 1#16 = 0xffff#16 ↔ x = 0#16 := by
  have hmax : (0xffff#16 : BitVec 16) = 0#16 - 1#16 := by decide
  rw [hmax, BitVec.sub_left_inj]

/-- A unit that is not the last one. -/
theorem advance_of_ne (h : (k.chans ch).curCount ≠ 0#16) :
    k.advance ch = k.setChan ch { k.chans ch with
      curAddr := k.nextAddr ch, curCount := (k.chans ch).curCount - 1#16 } := by
  have hno : (k.chans ch).curCount - 1#16 ≠ 0xffff#16 := mt (count_underflow_iff _).mp h
  simp only [Controller.advance, if_neg hno]

/-- The last unit, with autoinit. -/
theorem advance_reload (h : (k.chans ch).curCount = 0#16) (hauto : (k.chans ch).autoinit = true) :
    k.advance ch = k.setChan ch { k.chans ch with
      curAddr := (k.chans ch).baseAddr, curCount := (k.chans ch).baseCount } := by
  have hlast := (count_underflow_iff _).mpr h
  have hauto : Channel.autoinit { k.chans ch with
      curAddr := k.nextAddr ch, curCount := (k.chans ch).curCount - 1#16 } = true := hauto
  simp only [Controller.advance, if_pos hlast, if_pos hauto]

/-- The last unit, without autoinit: terminal count. -/
theorem advance_tc (h : (k.chans ch).curCount = 0#16) (hauto : (k.chans ch).autoinit = false) :
    k.advance ch =
      { k.setChan ch { k.chans ch with curAddr := k.nextAddr ch, curCount := 0xffff#16 } with
        status := setBit k.status ch.val
        request := clearBit k.request ch.val
        mask := setBit k.mask ch.val } := by
  have hlast := (count_underflow_iff _).mpr h
  have hauto : ¬Channel.autoinit { k.chans ch with
      curAddr := k.nextAddr ch, curCount := (k.chans ch).curCount - 1#16 } = true := by
    rw [Bool.not_eq_true]
    exact hauto
  simp only [Controller.advance, if_pos hlast, if_neg hauto]
  rw [hlast]

/-- A unit changes the current registers of its channel only. -/
theorem advance_fields (k : Controller) (ch : Fin 4) :
    ((k.advance ch).chans ch).mode = (k.chans ch).mode ∧
      ((k.advance ch).chans ch).page = (k.chans ch).page ∧
      ((k.advance ch).chans ch).baseAddr = (k.chans ch).baseAddr ∧
      ((k.advance ch).chans ch).baseCount = (k.chans ch).baseCount ∧
      (k.advance ch).command = k.command := by
  by_cases hlast : (k.chans ch).curCount = 0#16
  · cases hauto : (k.chans ch).autoinit with
    | true =>
        rw [advance_reload hlast hauto]
        simp [Controller.setChan]
    | false =>
        rw [advance_tc hlast hauto]
        simp [Controller.setChan]
  · rw [advance_of_ne hlast]
    simp [Controller.setChan]

theorem transferMode_congr {x y : Channel} (h : x.mode = y.mode) :
    x.transferMode = y.transferMode := by
  simp only [Channel.transferMode, h]

/-- Other channels do not see a unit. -/
theorem advance_view (h : ch' ≠ ch) : (k.advance ch).view ch' = k.view ch' := by
  have hval : ch'.val ≠ ch.val := fun heq => h (Fin.ext heq)
  have hlt := ch.isLt
  have hlt' := ch'.isLt
  by_cases hlast : (k.chans ch).curCount = 0#16
  · cases hauto : (k.chans ch).autoinit with
    | true =>
        rw [advance_reload hlast hauto]
        simp [Controller.view, Controller.setChan, Function.update_of_ne h, Controller.haveDrq,
          Controller.reachedTc, Controller.masked, Controller.haveSrq]
    | false =>
        have hfar : ch'.val + 4 ≠ ch.val := by omega
        rw [advance_tc hlast hauto]
        simp [Controller.view, Controller.setChan, Function.update_of_ne h, Controller.haveDrq,
          Controller.reachedTc, Controller.masked, Controller.haveSrq,
          getLsbD_setBit _ (show ch.val < 8 by omega),
          getLsbD_clearBit _ (show ch.val < 8 by omega), hval, hfar]
  · rw [advance_of_ne hlast]
    simp [Controller.view, Controller.setChan, Function.update_of_ne h, Controller.haveDrq,
      Controller.reachedTc, Controller.masked, Controller.haveSrq]

/-- `dma_update_DRQ` changes the DRQ bit of its channel only. -/
theorem updateDrq_eq (k : Controller) (ch : Fin 4) :
    k.updateDrq ch = if (k.chans ch).transferMode = .block ∧ k.reachedTc ch = false then k
      else k.pollDrq ch := by
  unfold Controller.updateDrq
  cases hmode : (k.chans ch).transferMode <;> cases htc : k.reachedTc ch <;>
    simp [Controller.pollDrq]

theorem pollDrq_view (h : ch' ≠ ch) : (k.pollDrq ch).view ch' = k.view ch' := by
  have hval : ch'.val ≠ ch.val := fun heq => h (Fin.ext heq)
  have hlt := ch.isLt
  have hlt' := ch'.isLt
  have hne : ch'.val + 4 ≠ ch.val + 4 := by omega
  have hfar : ch'.val ≠ ch.val + 4 := by omega
  simp [Controller.pollDrq, Controller.view, Controller.haveDrq, Controller.reachedTc,
    Controller.masked, Controller.haveSrq, getLsbD_clearBit _ (show ch.val + 4 < 8 by omega), hval,
    hfar]

theorem updateDrq_view (h : ch' ≠ ch) : (k.updateDrq ch).view ch' = k.view ch' := by
  rw [updateDrq_eq]
  split
  · rfl
  · exact pollDrq_view h

theorem pollDrq_haveDrq : (k.pollDrq ch).haveDrq ch = false := by
  have hlt := ch.isLt
  simp [Controller.pollDrq, Controller.haveDrq, getLsbD_clearBit _ (show ch.val + 4 < 8 by omega)]

theorem updateDrq_chans (k : Controller) (ch : Fin 4) : (k.updateDrq ch).chans = k.chans := by
  rw [updateDrq_eq]
  split <;> rfl

/-- A unit of service: the transfer is left out. -/
def Controller.serve (k : Controller) (ch : Fin 4) : Controller :=
  (k.advance ch).updateDrq ch

theorem serve_view (h : ch' ≠ ch) : (k.serve ch).view ch' = k.view ch' :=
  (updateDrq_view h).trans (advance_view h)

theorem serve_mode (k : Controller) (ch : Fin 4) :
    ((k.serve ch).chans ch).mode = (k.chans ch).mode := by
  rw [Controller.serve, updateDrq_chans]
  exact (advance_fields k ch).1

/-- A unit in demand or single mode withdraws the request. -/
theorem serve_active_of_ne_block (h : (k.chans ch).transferMode ≠ .block) :
    (k.serve ch).active ch = false := by
  have hmode : ((k.advance ch).chans ch).transferMode ≠ .block := by
    rwa [transferMode_congr (advance_fields k ch).1]
  have hsw : ((k.serve ch).chans ch).transferMode ≠ .block := by
    rwa [transferMode_congr (serve_mode k ch)]
  have hno : ¬(((k.advance ch).chans ch).transferMode = .block ∧
      (k.advance ch).reachedTc ch = false) := fun hboth => hmode hboth.1
  rw [Controller.active, Controller.swActive, decide_eq_false hsw, Bool.and_false, Bool.or_false]
  rw [Controller.serve, updateDrq_eq, if_neg hno]
  exact pollDrq_haveDrq

/-- So does the last unit in block mode without autoinit. -/
theorem serve_active_of_tc (hlast : (k.chans ch).curCount = 0#16)
    (hauto : (k.chans ch).autoinit = false) : (k.serve ch).active ch = false := by
  have hlt := ch.isLt
  have htc : (k.advance ch).reachedTc ch = true := by
    rw [advance_tc hlast hauto]
    simp [Controller.reachedTc, getLsbD_setBit _ (show ch.val < 8 by omega)]
  have hsrq : (k.advance ch).haveSrq ch = false := by
    rw [advance_tc hlast hauto]
    simp [Controller.haveSrq, getLsbD_clearBit _ (show ch.val < 8 by omega)]
  have hno : ¬(((k.advance ch).chans ch).transferMode = .block ∧
      (k.advance ch).reachedTc ch = false) := by
    rw [htc]
    exact fun hboth => Bool.noConfusion hboth.2
  have hdrq : (k.serve ch).haveDrq ch = false := by
    rw [Controller.serve, updateDrq_eq, if_neg hno]
    exact pollDrq_haveDrq
  have hkept : (k.serve ch).haveSrq ch = false := by
    rw [Controller.serve, updateDrq_eq, if_neg hno]
    exact hsrq
  rw [Controller.active, Controller.swActive, hdrq, hkept]
  rfl

/-- The count after a unit that is not the last one. -/
theorem serve_count (h : (k.chans ch).curCount ≠ 0#16) :
    ((k.serve ch).chans ch).curCount.toNat + 1 = (k.chans ch).curCount.toNat := by
  have hpos : (k.chans ch).curCount.toNat ≠ 0 := by
    intro hzero
    exact h (BitVec.eq_of_toNat_eq hzero)
  have hlt := (k.chans ch).curCount.isLt
  rw [Controller.serve, updateDrq_chans, advance_of_ne h, setChan_chans, BitVec.toNat_sub]
  have hone : (1#16).toNat = 1 := rfl
  rw [hone]
  omega

/-- A unit of an endless channel leaves it endless. -/
theorem serve_endless (h : k.Endless ch) : (k.serve ch).Endless ch := by
  obtain ⟨hready, hmode, hauto, hreq⟩ := h
  -- nothing but the current registers changes
  have hview : ∃ chan : Channel,
      chan.mode = (k.chans ch).mode ∧ k.advance ch = k.setChan ch chan := by
    by_cases hlast : (k.chans ch).curCount = 0#16
    · exact ⟨{ k.chans ch with
        curAddr := (k.chans ch).baseAddr, curCount := (k.chans ch).baseCount }, rfl,
        advance_reload hlast hauto⟩
    · exact ⟨{ k.chans ch with
        curAddr := k.nextAddr ch, curCount := (k.chans ch).curCount - 1#16 }, rfl,
        advance_of_ne hlast⟩
  obtain ⟨chan, hsame, hadvance⟩ := hview
  have hblock : chan.transferMode = .block := (transferMode_congr hsame).trans hmode
  have hkept : chan.autoinit = true := by rwa [Channel.autoinit, hsame]
  simp only [Controller.ready, Bool.and_eq_true, Bool.not_eq_true', decide_eq_true_eq] at hready
  obtain ⟨⟨⟨hmask, htc⟩, hdis⟩, _⟩ := hready
  have hon : ((k.advance ch).chans ch).transferMode = .block ∧
      (k.advance ch).reachedTc ch = false := by
    rw [hadvance, setChan_chans]
    exact ⟨hblock, htc⟩
  rw [Controller.serve, updateDrq_eq, if_pos hon, hadvance]
  refine ⟨?_, by rwa [setChan_chans], by rwa [setChan_chans], hreq⟩
  have hmask : (k.setChan ch chan).masked ch = false := hmask
  have htc : (k.setChan ch chan).reachedTc ch = false := htc
  have hdis : (k.setChan ch chan).disabled = false := hdis
  simp [Controller.ready, hmask, htc, hdis, hblock]

/-! ## The loop -/

@[simp]
theorem modify_contr (s : Machine) (c : Fin 2) (f : Controller → Controller) :
    (s.modify c f).contr c = f (s.contr c) := by
  simp [Machine.modify]

theorem modify_contr_ne (s : Machine) (f : Controller → Controller) (h : c' ≠ c) :
    (s.modify c f).contr c' = s.contr c' := by
  simp [Machine.modify, Function.update_of_ne h]

/-- A transfer leaves the controllers alone. -/
theorem transfer_contr (mapped : Addr → Bool) (c : Fin 2) (chan : Channel) (s : Machine) :
    (transfer mapped c chan s).contr = s.contr := by
  unfold transfer
  cases chan.transferOp <;> dsimp only <;> split <;> rfl

/-- A turn that goes on has served a unit of a requested channel. -/
theorem runTurn_again (h : runTurn mapped c ch s = .again t) :
    (s.contr c).active ch = true ∧ (s.contr c).ready ch = true ∧
      t.contr c = (s.contr c).serve ch ∧ ∀ c', c' ≠ c → t.contr c' = s.contr c' := by
  unfold runTurn at h
  split at h
  · next hactive =>
      split at h
      · next hready =>
          rw [Turn.again.injEq] at h
          subst h
          refine ⟨hactive, hready, ?_, fun c' hne => ?_⟩
          · rw [modify_contr, dmaProcessChannel, modify_contr, transfer_contr]
            rfl
          · rw [modify_contr_ne _ _ hne, dmaProcessChannel, modify_contr_ne _ _ hne,
              transfer_contr]
      · cases h
  · cases h

/-- A turn that leaves does so with DRQ updated or with no change. -/
theorem runTurn_leave (h : runTurn mapped c ch s = .leave t) :
    t = s ∨ t = s.modify c (·.updateDrq ch) := by
  unfold runTurn at h
  split at h
  · split at h
    · cases h
    · rw [Turn.leave.injEq] at h
      exact .inr h.symm
  · rw [Turn.leave.injEq] at h
    exact .inl h.symm

/-- A requested endless channel is served by every turn. -/
theorem runTurn_endless (h : (s.contr c).Endless ch) :
    ∃ t, runTurn mapped c ch s = .again t ∧ (t.contr c).Endless ch := by
  obtain ⟨hready, hmode, hauto, hreq⟩ := h
  have hactive : ((s.contr c).haveDrq ch || (s.contr c).swActive ch) = true := by
    rw [Controller.swActive, decide_eq_true hmode, Bool.and_true, Bool.or_eq_true]
    exact hreq
  have hturn : runTurn mapped c ch s =
      .again ((dmaProcessChannel mapped c ch s).modify c (·.updateDrq ch)) := by
    rw [runTurn, if_pos hactive, if_pos hready]
  refine ⟨_, hturn, ?_⟩
  rw [(runTurn_again hturn).2.2.1]
  exact serve_endless ⟨hready, hmode, hauto, hreq⟩

/-- What falls from turn to turn. -/
def turnsLeft (c : Fin 2) (ch : Fin 4) (s : Machine) : Nat :=
  if (s.contr c).active ch then ((s.contr c).chans ch).curCount.toNat + 1 else 0

/-- Every other channel sees the same. -/
def OthersSame (c : Fin 2) (ch : Fin 4) (s t : Machine) : Prop :=
  ∀ c' ch', (c', ch') ≠ (c, ch) → (t.contr c').view ch' = (s.contr c').view ch'

theorem othersSame_modify {f : Controller → Controller}
    (hf : ∀ ch', ch' ≠ ch → (f (s.contr c)).view ch' = (s.contr c).view ch') :
    OthersSame c ch s (s.modify c f) := by
  intro c' ch' hne
  by_cases hc : c' = c
  · subst hc
    rw [modify_contr]
    exact hf ch' fun heq => hne (by rw [heq])
  · rw [modify_contr_ne _ _ hc]

theorem OthersSame.trans {u : Machine} (h : OthersSame c ch s t) (h' : OthersSame c ch t u) :
    OthersSame c ch s u :=
  fun c' ch' hne => (h' c' ch' hne).trans (h c' ch' hne)

/-- A channel that is not endless falls with every turn that goes on. -/
theorem turnsLeft_falls (h : ¬(s.contr c).Endless ch) :
    (runTurn mapped c ch s).Falls (turnsLeft c ch) (turnsLeft c ch s) := by
  cases hturn : runTurn mapped c ch s with
  | leave b => trivial
  | again t =>
      obtain ⟨hactive, hready, hcontr, _⟩ := runTurn_again hturn
      change turnsLeft c ch t < turnsLeft c ch s
      simp only [turnsLeft, hcontr, hactive, if_true]
      cases hleft : ((s.contr c).serve ch).active ch with
      | false =>
          rw [if_neg Bool.false_ne_true]
          exact Nat.succ_pos _
      | true =>
          have hblock : ((s.contr c).chans ch).transferMode = .block := by
            by_contra hne
            rw [serve_active_of_ne_block hne] at hleft
            cases hleft
          have hauto : ((s.contr c).chans ch).autoinit = false := by
            by_contra hne
            refine h ⟨hready, hblock, by simpa using hne, ?_⟩
            simpa [Controller.active, Controller.swActive, hblock] using hactive
          have hcount : ((s.contr c).chans ch).curCount ≠ 0#16 := by
            intro hlast
            rw [serve_active_of_tc hlast hauto] at hleft
            cases hleft
          have hless := serve_count hcount
          rw [if_pos rfl]
          omega

/-- Such a channel stays what it is, and the others see nothing of its service. -/
theorem runTurn_keeps (s₀ : Machine) (h : ¬(s.contr c).Endless ch ∧ OthersSame c ch s₀ s) :
    (runTurn mapped c ch s).Keeps
      (fun t => ¬(t.contr c).Endless ch ∧ OthersSame c ch s₀ t) (OthersSame c ch s₀) := by
  obtain ⟨hendless, hothers⟩ := h
  cases hturn : runTurn mapped c ch s with
  | leave b =>
      rcases runTurn_leave hturn with rfl | rfl
      · exact hothers
      · exact hothers.trans (othersSame_modify fun _ hne => updateDrq_view hne)
  | again t =>
      obtain ⟨hactive, hready, hcontr, hrest⟩ := runTurn_again hturn
      constructor
      · rintro ⟨_, hmode, hauto, _⟩
        rw [hcontr, transferMode_congr (serve_mode _ _)] at hmode
        rw [hcontr, Channel.autoinit, serve_mode] at hauto
        refine hendless ⟨hready, hmode, hauto, ?_⟩
        simpa [Controller.active, Controller.swActive, hmode] using hactive
      · refine hothers.trans fun c' ch' hne => ?_
        by_cases hc : c' = c
        · subst hc
          rw [hcontr]
          exact serve_view fun heq => hne (by rw [heq])
        · rw [hrest c' hc]

/-- A channel that is not endless is serviced within the turns its counter can
take, and the other channels do not notice. -/
theorem run_of_not_endless (mapped : Addr → Bool) (h : ¬(s.contr c).Endless ch) :
    ∃ t, dmaRunChannel mapped c ch s = some t ∧ OthersSame c ch s t := by
  have hfuel : turnsLeft c ch s < 0x10002 := by
    have hlt := ((s.contr c).chans ch).curCount.isLt
    unfold turnsLeft
    split <;> omega
  exact loop_total (fun u hu => runTurn_keeps s hu) (fun u hu => turnsLeft_falls hu.1)
    ⟨h, fun _ _ _ => rfl⟩ hfuel

/-- A channel is serviced in finite time exactly when it is not endless. -/
theorem run_iff (mapped : Addr → Bool) (c : Fin 2) (ch : Fin 4) (s : Machine) :
    (∃ fuel t, loop (runTurn mapped c ch) fuel s = some t) ↔ ¬(s.contr c).Endless ch := by
  constructor
  · rintro ⟨fuel, t, ht⟩ hendless
    rw [loop_eq_none (fun u hu => runTurn_endless hu) fuel hendless] at ht
    cases ht
  · intro h
    obtain ⟨t, ht, _⟩ := run_of_not_endless mapped h
    exact ⟨_, t, ht⟩

/-- One endless channel of a list is enough for the list not to be done. -/
theorem foldlM_iff (mapped : Addr → Bool) {l : List (Fin 2 × Fin 4)} (hl : l.Nodup)
    (s : Machine) :
    (l.foldlM (fun s p => dmaRunChannel mapped p.1 p.2 s) s).isSome = true ↔
      ∀ p ∈ l, ¬(s.contr p.1).Endless p.2 := by
  induction l generalizing s with
  | nil => simp
  | cons p l ih =>
      obtain ⟨hnot, hl⟩ := List.nodup_cons.mp hl
      rw [List.foldlM_cons, List.forall_mem_cons]
      by_cases hend : (s.contr p.1).Endless p.2
      · have hnone : dmaRunChannel mapped p.1 p.2 s = none :=
          loop_eq_none (fun u hu => runTurn_endless hu) _ hend
        simp [hnone, hend]
      · obtain ⟨t, ht, hothers⟩ := run_of_not_endless mapped hend
        rw [ht]
        refine (ih hl t).trans ?_
        have hne : ∀ q ∈ l, (q.1, q.2) ≠ (p.1, p.2) := by
          rintro q hq heq
          have heq : q = p := heq
          exact hnot (heq ▸ hq)
        constructor
        · refine fun hall => ⟨hend, fun q hq hendless => hall q hq ?_⟩
          exact (endless_congr (hothers q.1 q.2 (hne q hq))).mpr hendless
        · rintro ⟨_, hall⟩ q hq hendless
          exact hall q hq ((endless_congr (hothers q.1 q.2 (hne q hq))).mp hendless)

/-- `dma_process` ends exactly when no channel is endless. -/
theorem process_iff (mapped : Addr → Bool) (s : Machine) :
    (dmaProcess mapped s).isSome = true ↔ ∀ c ch, ¬(s.contr c).Endless ch := by
  have hall : ∀ p, p ∈ channels := by decide
  rw [dmaProcess, foldlM_iff mapped (by decide)]
  exact ⟨fun h c ch => h (c, ch) (hall (c, ch)), fun h p _ => h p.1 p.2⟩

/-- A pulse ends exactly when it is refused or does not make the channel endless. -/
theorem pulse_iff (mapped : Addr → Bool) (ch : Fin 8) (buf : Nat → Byte) (s : Machine) :
    (dmaPulseDrq mapped ch buf s).isSome = true ↔
      ((s.contr (di ch)).refuses (ci ch) = false →
        ¬((assertDrq ch buf s).contr (di ch)).Endless (ci ch)) := by
  unfold dmaPulseDrq
  cases hrefuse : (s.contr (di ch)).refuses (ci ch) with
  | true => simp
  | false =>
      rw [if_neg Bool.false_ne_true, Option.isSome_map]
      by_cases hend : ((assertDrq ch buf s).contr (di ch)).Endless (ci ch)
      · have hnone : dmaRunChannel mapped (di ch) (ci ch) (assertDrq ch buf s) = none :=
          loop_eq_none (fun u hu => runTurn_endless hu) _ hend
        simp [hnone, hend]
      · obtain ⟨t, ht, _⟩ := run_of_not_endless mapped hend
        simp [ht, hend]

/-- The pulse makes a channel endless that is ready, in block mode with autoinit. -/
theorem endless_assertDrq (ch : Fin 8) (buf : Nat → Byte) (s : Machine) :
    ((assertDrq ch buf s).contr (di ch)).Endless (ci ch) ↔
      (s.contr (di ch)).ready (ci ch) = true ∧
        ((s.contr (di ch)).chans (ci ch)).transferMode = .block ∧
        ((s.contr (di ch)).chans (ci ch)).autoinit = true := by
  have hlt := (ci ch).isLt
  have hbit : (ci ch).val + 4 < 8 := by omega
  have hdrq : ((assertDrq ch buf s).contr (di ch)).haveDrq (ci ch) = true := by
    simp [assertDrq, Machine.modify, Controller.haveDrq, getLsbD_setBit _ hbit]
  have hready : ((assertDrq ch buf s).contr (di ch)).ready (ci ch) =
      (s.contr (di ch)).ready (ci ch) := by
    simp [assertDrq, Machine.modify, Controller.ready, Controller.masked, Controller.reachedTc,
      Controller.disabled, getLsbD_setBit _ hbit]
  have hchans : ((assertDrq ch buf s).contr (di ch)).chans = (s.contr (di ch)).chans := by
    simp [assertDrq, Machine.modify]
  simp only [Controller.Endless, hdrq, hready, hchans, true_or, and_true]

/-- Every service of a channel ends: by itself, in `dma_process`, and in a pulse. -/
def Services (mapped : Addr → Bool) (s : Machine) : Prop :=
  (∀ c ch, ∃ fuel t, loop (runTurn mapped c ch) fuel s = some t) ∧
    (dmaProcess mapped s).isSome = true ∧
    ∀ ch buf, (dmaPulseDrq mapped ch buf s).isSome = true

/-- No channel that is ready, in block mode and with autoinit, is requested by a bit
or can be by a pulse. -/
def NoEndless (s : Machine) : Prop :=
  ∀ c ch, (s.contr c).ready ch = true → ((s.contr c).chans ch).transferMode = .block →
    ((s.contr c).chans ch).autoinit = true →
    (s.contr c).haveDrq ch = false ∧ (s.contr c).haveSrq ch = false ∧
      (s.contr c).refuses ch = true

/-- The service of the channels ends exactly when no ready channel in block mode
with autoinit is requested, or can be. -/
theorem dma_terminates_iff (mapped : Addr → Bool) (s : Machine) :
    Services mapped s ↔ NoEndless s := by
  have hchannel : ∀ (c : Fin 2) (ch : Fin 4), ∃ n : Fin 8, di n = c ∧ ci n = ch := by decide
  simp only [Services, run_iff, process_iff, pulse_iff, endless_assertDrq]
  constructor
  · rintro ⟨hrun, _, hpulse⟩ c ch hready hmode hauto
    have hnone : (s.contr c).haveDrq ch = false ∧ (s.contr c).haveSrq ch = false := by
      have hreq : ¬((s.contr c).haveDrq ch = true ∨ (s.contr c).haveSrq ch = true) :=
        fun hreq => hrun c ch ⟨hready, hmode, hauto, hreq⟩
      simpa [not_or] using hreq
    refine ⟨hnone.1, hnone.2, ?_⟩
    by_contra hrefuse
    obtain ⟨n, rfl, rfl⟩ := hchannel c ch
    exact hpulse n (fun _ => 0#8) (by simpa using hrefuse) ⟨hready, hmode, hauto⟩
  · intro h
    have hrun : ∀ c ch, ¬(s.contr c).Endless ch := by
      rintro c ch ⟨hready, hmode, hauto, hreq⟩
      obtain ⟨hdrq, hsrq, _⟩ := h c ch hready hmode hauto
      rw [hdrq, hsrq] at hreq
      exact hreq.elim Bool.noConfusion Bool.noConfusion
    refine ⟨hrun, hrun, ?_⟩
    rintro n buf hrefuse ⟨hready, hmode, hauto⟩
    rw [(h _ _ hready hmode hauto).2.2] at hrefuse
    cases hrefuse

/-- The controllers after reset, with nothing programmed. -/
def resetMachine : Machine :=
  { contr := fun _ => Controller.softReset
      { chans := fun _ => ⟨0#16, 0#16, 0#16, 0#16, 0#8, 0#8⟩, tmpReg := 0#8, status := 0#8,
        command := 0#8, mask := 0#8, request := 0#8, ff := 0#8 }
    dataBus := fun _ => 0#8
    mem := fun _ => 0#8 }

/-- A guest puts channel 0 in block mode with autoinit, unmasks it and requests it. -/
theorem block_autoinit_never_ends : ¬Services (fun _ => true)
    (portWrite 0x09 4#8 (portWrite 0x0A 0#8 (portWrite 0x0B 0x94#8 resetMachine))) := by
  rintro ⟨hrun, _, _⟩
  obtain ⟨fuel, t, ht⟩ := hrun 0 0
  have hendless : ((portWrite 0x09 4#8 (portWrite 0x0A 0#8
      (portWrite 0x0B 0x94#8 resetMachine))).contr 0).Endless 0 := by decide
  rw [loop_eq_none (fun u hu => runTurn_endless hu) fuel hendless] at ht
  cases ht

end Dma
end Dosemu
