import Mathlib.Tactic

/-!
# Loops that are left from the middle

The body of a `do … while (1)` loop: each turn leaves the loop with a result or
goes on with new variables.  The loop itself is run with fuel, and the one rule
about it is for total correctness: an invariant, and a measure that falls with
every turn that goes on.

Main results:

- Theorem `loop_total`: the loop is left within its measure, with a result that
  meets what each turn establishes.
- Theorem `loop_of_eq_some`: the same for a loop that is known to be left.
- Theorem `loop_eq_none`: a loop that goes on from every state of an invariant is
  never left.
-/

namespace DoWhile

variable {σ β : Type*}

/-- What a turn of the loop ends in. -/
inductive Turn (σ β : Type*)
  | leave (b : β)
  | again (s : σ)

/-- A turn that leaves with a good result, or goes on from a good state. -/
def Turn.Keeps (inv : σ → Prop) (post : β → Prop) : Turn σ β → Prop
  | .leave b => post b
  | .again s => inv s

/-- A turn that goes on does so with a measure below the bound. -/
def Turn.Falls (μ : σ → Nat) (bound : Nat) : Turn σ β → Prop
  | .leave _ => True
  | .again s => μ s < bound

/-- The loop, with fuel. -/
def loop (body : σ → Turn σ β) : Nat → σ → Option β
  | 0, _ => none
  | fuel + 1, s =>
      match body s with
      | .leave b => some b
      | .again t => loop body fuel t

/-- A loop whose turns keep the invariant and lower the measure is left with a
result that meets the postcondition. -/
theorem loop_total {body : σ → Turn σ β} {inv : σ → Prop} {post : β → Prop} {μ : σ → Nat}
    (hkeeps : ∀ s, inv s → (body s).Keeps inv post)
    (hfalls : ∀ s, inv s → (body s).Falls μ (μ s)) {fuel : Nat} {s : σ} (hs : inv s)
    (hfuel : μ s < fuel) : ∃ b, loop body fuel s = some b ∧ post b := by
  induction fuel generalizing s with
  | zero => exact absurd hfuel (Nat.not_lt_zero _)
  | succ fuel ih =>
      have hinv := hkeeps s hs
      have hless := hfalls s hs
      rw [loop]
      cases hturn : body s with
      | leave b =>
          rw [hturn] at hinv
          exact ⟨b, rfl, hinv⟩
      | again t =>
          rw [hturn] at hinv hless
          have hless : μ t < μ s := hless
          exact ih hinv (by omega)

/-- What a loop is left with, if it is left. -/
theorem loop_of_eq_some {body : σ → Turn σ β} {inv : σ → Prop} {post : β → Prop}
    (hkeeps : ∀ s, inv s → (body s).Keeps inv post) {fuel : Nat} {s : σ} {b : β} (hs : inv s)
    (hloop : loop body fuel s = some b) : post b := by
  induction fuel generalizing s with
  | zero => cases hloop
  | succ fuel ih =>
      have hinv := hkeeps s hs
      rw [loop] at hloop
      cases hturn : body s with
      | leave b =>
          rw [hturn] at hinv hloop
          cases hloop
          exact hinv
      | again t =>
          rw [hturn] at hinv hloop
          exact ih hinv hloop

/-- A loop that goes on from every state of an invariant is never left. -/
theorem loop_eq_none {body : σ → Turn σ β} {inv : σ → Prop}
    (hbody : ∀ s, inv s → ∃ t, body s = .again t ∧ inv t) (fuel : Nat) {s : σ} (hs : inv s) :
    loop body fuel s = none := by
  induction fuel generalizing s with
  | zero => rfl
  | succ fuel ih =>
      obtain ⟨t, hturn, ht⟩ := hbody s hs
      rw [loop, hturn]
      exact ih ht

end DoWhile
