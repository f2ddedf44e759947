import Mathlib.Tactic
import Mathlib.Data.Finite.Prod
import Mathlib.Order.WellFounded

/-!
# Lock orders

Processes that hold resources and wait for others.  A set of processes is deadlocked
when each of them waits for a resource that one of them holds.  Such a set does not
exist when some acyclic relation leads from every resource a waiting process holds to
the one it waits for.

Main results:

- Theorem `not_deadlocked`: an acyclic lock order excludes deadlocked sets.
- Theorem `acyclic_insert`: an acyclic relation stays acyclic under a new edge whose end
  does not lead back to its start.
-/

namespace LockOrder

open Relation

variable {P R : Type*} {waits : P → R → Prop} {owner : R → Option P}
  {E E' : R → R → Prop}

/-- Each process of the set waits for a resource that a process of the set holds. -/
def Deadlocked (waits : P → R → Prop) (owner : R → Option P) (S : Set P) : Prop :=
  S.Nonempty ∧ ∀ p ∈ S, ∃ r, waits p r ∧ ∃ q ∈ S, owner r = some q

/-- No resource leads back to itself. -/
def Acyclic (E : R → R → Prop) : Prop :=
  ∀ x, ¬TransGen E x x

theorem Acyclic.mono (h : Acyclic E) (hle : ∀ x y, E' x y → E x y) : Acyclic E' :=
  fun x hx => h x (TransGen.mono hle x x hx)

/-- A path with a new edge uses it or does not. -/
theorem transGen_insert {a b x y : R}
    (h : TransGen (fun x y => E x y ∨ x = a ∧ y = b) x y) :
    TransGen E x y ∨ ReflTransGen E x a ∧ ReflTransGen E b y := by
  induction h with
  | single hxy =>
      rcases hxy with hxy | ⟨rfl, rfl⟩
      · exact Or.inl (.single hxy)
      · exact Or.inr ⟨.refl, .refl⟩
  | tail _ hyz ih =>
      rcases hyz with hyz | ⟨rfl, rfl⟩
      · rcases ih with hxy | ⟨hxa, hby⟩
        · exact Or.inl (hxy.tail hyz)
        · exact Or.inr ⟨hxa, hby.tail hyz⟩
      · rcases ih with hxy | ⟨hxa, -⟩
        · exact Or.inr ⟨hxy.to_reflTransGen, .refl⟩
        · exact Or.inr ⟨hxa, .refl⟩

/-- A new edge closes no cycle when its end does not lead to its start. -/
theorem acyclic_insert {a b : R} (h : Acyclic E) (hback : ¬ReflTransGen E b a) :
    Acyclic fun x y => E x y ∨ x = a ∧ y = b := by
  intro x hx
  rcases transGen_insert hx with hcycle | ⟨hxa, hbx⟩
  · exact h x hcycle
  · exact hback (hbx.trans hxa)

/-- An acyclic relation has a last element in every finite set. -/
theorem Acyclic.exists_last (h : Acyclic E) {X : Set R} (hfin : X.Finite) (hne : X.Nonempty) :
    ∃ x ∈ X, ∀ y ∈ X, ¬E x y := by
  have := hfin.to_subtype
  let after : X → X → Prop := fun x y => TransGen E y.1 x.1
  have htrans : IsTrans X after := ⟨fun x y z hxy hyz => hyz.trans hxy⟩
  have hirrefl : Std.Irrefl after := ⟨fun x hx => h x.1 hx⟩
  have hwf := Finite.wellFounded_of_trans_of_irrefl after
  obtain ⟨x, -, hlast⟩ := hwf.has_min Set.univ ⟨⟨hne.some, hne.some_mem⟩, trivial⟩
  exact ⟨x.1, x.2, fun y hy hxy => hlast ⟨y, hy⟩ (Set.mem_univ _) (.single hxy)⟩

/-- If an acyclic relation leads from each resource that a waiting process holds to the one
it waits for, no set of processes is deadlocked. -/
theorem not_deadlocked [Finite P] (h : Acyclic E)
    (horder : ∀ p x r, owner x = some p → waits p r → E x r) (S : Set P) :
    ¬Deadlocked waits owner S := by
  rintro ⟨⟨p, hp⟩, hwaits⟩
  choose r hr hheld using fun p : S => hwaits p.1 p.2
  obtain ⟨_, ⟨q, rfl⟩, hlast⟩ := h.exists_last (Set.finite_range r) ⟨r ⟨p, hp⟩, ⟨p, hp⟩, rfl⟩
  obtain ⟨o, ho, howner⟩ := hheld q
  exact hlast (r ⟨o, ho⟩) ⟨⟨o, ho⟩, rfl⟩ (horder o (r q) (r ⟨o, ho⟩) howner (hr ⟨o, ho⟩))

end LockOrder
