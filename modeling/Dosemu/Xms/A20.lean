import Dosemu.Lib.Run

/-!
# The A20 gate

A program can ask the driver for the A20 line in two ways: globally, which is one
flag, and locally, which is counted.  Each call switches the line when its own
test says so, and the global disable does not look at the count.

Main results:

- Theorem `a20_iff`: the line is on exactly while some enable is outstanding, in
  every run in which no global disable comes while both kinds are outstanding.
-/

namespace Dosemu
namespace Xms

open Run

/-- The line, and what the driver knows of the enables. -/
structure Gate where
  a20 : Bool
  a20Local : Nat
  a20Global : Bool
deriving DecidableEq, Repr

/-- `INT_MAX`, which the count must not pass. -/
def intMax : Nat := 0x7fffffff

/-- `set_a20`; `hma` is `config.hma`. -/
def setA20 (hma enable : Bool) (s : Gate) : Gate :=
  if !hma then s
  else if s.a20 = enable then s
  else { s with a20 := enable }

/-- The calls 03h to 06h. -/
inductive A20Call
  | globalEnable
  | globalDisable
  | localEnable
  | localDisable
deriving DecidableEq, Repr

/-- These calls in `xms_control`.  A count that overflows is undefined. -/
def a20Control (hma : Bool) (s : Gate) : A20Call → Option Gate
  | .globalEnable =>
      let s := if !s.a20Global then setA20 hma true s else s
      some { s with a20Global := true }
  | .globalDisable =>
      let s := if s.a20Global then setA20 hma false s else s
      some { s with a20Global := false }
  | .localEnable =>
      let s := if s.a20Local = 0 then setA20 hma true s else s
      if s.a20Local < intMax then some { s with a20Local := s.a20Local + 1 } else none
  | .localDisable =>
      let s := if s.a20Local ≠ 0 then { s with a20Local := s.a20Local - 1 } else s
      some (if s.a20Local = 0 ∧ s.a20Global = false then setA20 hma false s else s)

/-- The gate after reset. -/
def resetGate : Gate :=
  { a20 := false, a20Local := 0, a20Global := false }

variable {hma : Bool} {s t : Gate}

/-- The line is on exactly while some enable is outstanding. -/
def LineOk (s : Gate) : Prop :=
  s.a20 = true ↔ s.a20Global = true ∨ 0 < s.a20Local

/-- The call is defined, and the line is right after it. -/
def LineStep (hma : Bool) (s : Gate) (c : A20Call) : Prop :=
  ∃ t, a20Control hma s c = some t ∧ LineOk t

/-- The call does not disable globally while a local enable is outstanding, it does
not overflow the count, and it enables nothing where there is no HMA. -/
def Harmless (hma : Bool) (s : Gate) : A20Call → Prop
  | .globalEnable => hma = true
  | .globalDisable => s.a20Global = true → s.a20Local = 0
  | .localEnable => hma = true ∧ s.a20Local < intMax
  | .localDisable => True

@[simp]
theorem setA20_a20 (hma enable : Bool) (s : Gate) :
    (setA20 hma enable s).a20 = if hma then enable else s.a20 := by
  unfold setA20
  cases hma with
  | false => rfl
  | true =>
      simp only [Bool.not_true, Bool.false_eq_true, if_false, if_true]
      split
      · next h => exact h
      · rfl

@[simp]
theorem setA20_a20Local (hma enable : Bool) (s : Gate) :
    (setA20 hma enable s).a20Local = s.a20Local := by
  unfold setA20
  split
  · rfl
  · split <;> rfl

@[simp]
theorem setA20_a20Global (hma enable : Bool) (s : Gate) :
    (setA20 hma enable s).a20Global = s.a20Global := by
  unfold setA20
  split
  · rfl
  · split <;> rfl

/-- The line is right, and it is never on without HMA. -/
structure GateOk (hma : Bool) (s : Gate) : Prop where
  line : LineOk s
  hma : s.a20 = true → hma = true

/-- No call turns the line on without HMA. -/
theorem a20Control_hma {c : A20Call} (h : s.a20 = true → hma = true)
    (hstep : a20Control hma s c = some t) : t.a20 = true → hma = true := by
  cases hma with
  | true => exact fun _ => rfl
  | false =>
      have hset : ∀ enable u, setA20 false enable u = u := fun _ _ => rfl
      cases c <;> simp only [a20Control, hset, ite_self] at hstep
      · cases hstep
        exact h
      · cases hstep
        exact h
      · split at hstep
        · cases hstep
          exact h
        · cases hstep
      · cases hstep
        split <;> exact h

/-- From a state where the line is right, a call leaves it right exactly when it is
harmless. -/
theorem lineStep_iff (h : GateOk hma s) (c : A20Call) :
    LineStep hma s c ↔ Harmless hma s c := by
  obtain ⟨a20, a20Local, a20Global⟩ := s
  obtain ⟨hline, hhma⟩ := h
  unfold LineOk at hline
  simp only at hline hhma
  cases c with
  | globalEnable =>
      simp only [LineStep, a20Control, Option.some.injEq, exists_eq_left', LineOk, Harmless]
      cases a20Global <;> cases hma <;> simp_all
  | globalDisable =>
      simp only [LineStep, a20Control, Option.some.injEq, exists_eq_left', LineOk, Harmless]
      cases a20Global <;> cases hma <;> simp_all
  | localEnable =>
      simp only [LineStep, a20Control, LineOk, Harmless]
      by_cases hzero : a20Local = 0
      · subst hzero
        cases a20Global <;> cases hma <;> simp_all [intMax]
      · have hpos : 0 < a20Local := Nat.pos_of_ne_zero hzero
        by_cases hmax : a20Local < intMax <;> simp_all
  | localDisable =>
      simp only [LineStep, a20Control, Option.some.injEq, exists_eq_left', LineOk, Harmless]
      cases a20Local with
      | zero => cases a20Global <;> cases hma <;> simp_all
      | succ n =>
          -- the line goes off with the last local enable, if there is no global one
          cases n <;> cases a20Global <;> cases hma <;> simp_all

/-- A harmless call keeps what is known of the gate. -/
theorem GateOk.step {c : A20Call} (h : GateOk hma s) (hok : Harmless hma s c)
    (hstep : a20Control hma s c = some t) : GateOk hma t := by
  obtain ⟨u, hu, hline⟩ := (lineStep_iff h c).mpr hok
  rw [hu, Option.some.injEq] at hstep
  subst hstep
  exact ⟨hline, a20Control_hma h.hma hu⟩

theorem resetGate_ok (hma : Bool) : GateOk hma resetGate := by
  refine ⟨?_, ?_⟩
  · simp [LineOk, resetGate]
  · rintro ⟨⟩

/-- In a run of calls from reset, every call is defined and leaves the line on
exactly while some enable is outstanding, if and only if every call is harmless. -/
theorem a20_iff (hma : Bool) (cs : List A20Call) :
    Admits (a20Control hma) (LineStep hma) resetGate cs ↔
      Admits (a20Control hma) (Harmless hma) resetGate cs :=
  admits_congr (GateOk hma) (fun _ _ _ h hok hstep => h.step hok hstep)
    (fun _ c h => lineStep_iff h c) (resetGate_ok hma)

/-- A global disable switches the line off under a local enable. -/
theorem global_disable_cuts_local :
    ¬Admits (a20Control true) (LineStep true) resetGate
      [.globalEnable, .localEnable, .globalDisable] := by
  rintro ⟨_, hrest⟩
  obtain ⟨_, hrest⟩ := hrest ⟨true, 0, true⟩ rfl
  obtain ⟨⟨t, ht, hline⟩, _⟩ := hrest ⟨true, 1, true⟩ rfl
  cases ht
  exact absurd (hline.mpr (.inr Nat.one_pos)) Bool.false_ne_true

end Xms
end Dosemu
