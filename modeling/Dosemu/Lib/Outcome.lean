import Mathlib.Tactic

/-!
# Outcomes of code that may abort

Rules of pre- and postconditions for straight-line code in the option monad,
where `none` is an abort.  `Outcome T Q x` says two things at once: if the code
returns, the result meets `Q`; and under the condition `T` it does return.  One
walk through the code then gives both its partial-correctness and its
no-abort theorem.

Main results:

- Theorem `Outcome.bind`: the sequencing rule.
- Theorem `Outcome.assert_bind`: an assertion must follow from `T`, and may be
  used afterwards.
- Theorems `Outcome.post` and `Outcome.isSome`: the two readings of an outcome.
-/

/-- The code returns only results that meet `Q`, and aborts only where `T`
fails. -/
def Outcome {α : Type} (T : Prop) (Q : α → Prop) : Option α → Prop
  | none => ¬T
  | some a => Q a

/-- C `assert`: abort unless the condition holds. -/
def cAssert (p : Prop) [Decidable p] : Option Unit :=
  if p then some () else none

/-- An assertion returns if and only if it holds. -/
theorem cAssert_eq_some {p : Prop} [Decidable p] {u : Unit} : cAssert p = some u ↔ p := by
  simp [cAssert]

/-- Code behind an assertion that holds. -/
theorem cAssert_bind {β : Type} {p : Prop} [Decidable p] (h : p) (f : Unit → Option β) :
    (cAssert p).bind f = f () := by
  simp [cAssert, h]

/-- Code behind an assertion that fails. -/
theorem cAssert_bind_false {β : Type} {p : Prop} [Decidable p] (h : ¬p) (f : Unit → Option β) :
    (cAssert p).bind f = none := by
  simp [cAssert, h]

namespace Outcome

variable {α β : Type} {T : Prop} {P : α → Prop} {Q : β → Prop}

@[simp]
theorem some_iff {a : α} : Outcome T P (some a) ↔ P a :=
  Iff.rfl

@[simp]
theorem none_iff : Outcome T P none ↔ ¬T :=
  Iff.rfl

@[simp]
theorem pure_iff {a : α} : Outcome T P (pure a) ↔ P a :=
  Iff.rfl

/-- Run one piece of code after another. -/
theorem bind {x : Option α} {f : α → Option β} (hx : Outcome T P x)
    (hf : ∀ a, P a → Outcome T Q (f a)) : Outcome T Q (x >>= f) := by
  cases x with
  | none => exact hx
  | some a => exact hf a hx

/-- An assertion holds afterwards; under `T` it must hold. -/
theorem assert_bind {p : Prop} [Decidable p] {f : Unit → Option β} (hT : T → p)
    (hf : p → Outcome T Q (f ())) : Outcome T Q (cAssert p >>= f) := by
  by_cases hp : p
  · simpa [cAssert, hp] using hf hp
  · simpa [cAssert, hp] using fun ht => hp (hT ht)

/-- A branch is examined under its own condition. -/
theorem ite {p : Prop} [Decidable p] {x y : Option β} (hx : p → Outcome T Q x)
    (hy : ¬p → Outcome T Q y) : Outcome T Q (if p then x else y) := by
  by_cases hp : p
  · simpa [hp] using hx hp
  · simpa [hp] using hy hp

/-- Weaken the postcondition. -/
theorem mono {R : α → Prop} {x : Option α} (hx : Outcome T P x)
    (h : ∀ a, P a → R a) : Outcome T R x := by
  cases x with
  | none => exact hx
  | some a => exact h a hx

/-- Ask for the absence of an abort under a stronger condition only. -/
theorem weaken {T' : Prop} {x : Option α} (hx : Outcome T P x) (h : T' → T) :
    Outcome T' P x := by
  cases x with
  | none => exact fun ht => hx (h ht)
  | some a => exact hx

/-- What the code returns meets the postcondition. -/
theorem post {x : Option α} {a : α} (hx : Outcome T P x) (h : x = some a) : P a := by
  subst h
  exact hx

/-- Under its condition the code returns. -/
theorem isSome {x : Option α} (hx : Outcome T P x) (ht : T) : ∃ a, x = some a ∧ P a := by
  cases x with
  | none => exact (hx ht).elim
  | some a => exact ⟨a, rfl, hx⟩

/-- Transport along a pure function of the result. -/
theorem map {x : Option α} {f : α → β} (hx : Outcome T P x) (h : ∀ a, P a → Q (f a)) :
    Outcome T Q (x.map f) := by
  cases x with
  | none => exact hx
  | some a => exact h a hx

end Outcome
