import Mathlib.Tactic

/-!
# Runs of partial transition functions

A step function that may abort, its runs over a list of inputs, and the
induction rules that carry a property of one step over a whole run.  `Admits`
says that every step of a run is taken in a state that meets a side condition;
it is the form in which a development states "in every run whose steps all
meet the condition".

Main results:

- Theorem `run_invariant`: what each admitted step preserves, a run preserves.
- Theorem `admits_congr`: conditions that agree on the steps from invariant
  states agree on runs.
- Theorem `run_isSome`: if no admitted step can abort, no admitted run aborts.
-/

namespace Run

variable {σ ι : Type*} (step : σ → ι → Option σ)

/-- Take the steps one after another; an abort ends the run. -/
def run : σ → List ι → Option σ
  | s, [] => some s
  | s, i :: is => (step s i).bind fun t => run t is

/-- Every step of the run is taken in a state that meets the condition. -/
def Admits (ok : σ → ι → Prop) : σ → List ι → Prop
  | _, [] => True
  | s, i :: is => ok s i ∧ ∀ t, step s i = some t → Admits ok t is

variable {step}

@[simp]
theorem run_nil (s : σ) : run step s [] = some s :=
  rfl

theorem run_cons (s : σ) (i : ι) (is : List ι) :
    run step s (i :: is) = (step s i).bind fun t => run step t is :=
  rfl

/-- A run over a non-empty list is a first step and a run from where it leads. -/
theorem run_cons_eq_some {s t : σ} {i : ι} {is : List ι} :
    run step s (i :: is) = some t ↔ ∃ u, step s i = some u ∧ run step u is = some t := by
  rw [run_cons, Option.bind_eq_some_iff]

/-- A run over an appended list is one run after the other. -/
theorem run_append {s : σ} {is js : List ι} :
    run step s (is ++ js) = (run step s is).bind fun t => run step t js := by
  induction is generalizing s with
  | nil => rfl
  | cons i is ih =>
      rw [List.cons_append, run_cons, run_cons]
      cases hs : step s i with
      | none => rfl
      | some t => simp [ih]

/-- A condition that always holds admits every run. -/
theorem admits_true (s : σ) (is : List ι) : Admits step (fun _ _ => True) s is := by
  induction is generalizing s with
  | nil => trivial
  | cons i is ih => exact ⟨trivial, fun t _ => ih t⟩

/-- A run over an appended list is admitted when both of its parts are. -/
theorem admits_append {ok : σ → ι → Prop} {s : σ} {is js : List ι} :
    Admits step ok s (is ++ js) ↔
      Admits step ok s is ∧ ∀ t, run step s is = some t → Admits step ok t js := by
  induction is generalizing s with
  | nil => simp [Admits]
  | cons i is ih =>
      simp only [List.cons_append, Admits, ih, run_cons_eq_some]
      constructor
      · rintro ⟨hok, hrest⟩
        refine ⟨⟨hok, fun t ht => (hrest t ht).1⟩, ?_⟩
        rintro t ⟨u, hu, ht⟩
        exact (hrest u hu).2 t ht
      · rintro ⟨⟨hok, hrest⟩, hlast⟩
        exact ⟨hok, fun t ht => ⟨hrest t ht, fun u hu => hlast u ⟨t, ht, hu⟩⟩⟩

/-- A condition on the inputs alone can be added to one on the steps. -/
theorem admits_and {p : ι → Prop} {ok : σ → ι → Prop} {s : σ} {is : List ι}
    (hp : ∀ i ∈ is, p i) (hok : Admits step ok s is) :
    Admits step (fun s i => p i ∧ ok s i) s is := by
  induction is generalizing s with
  | nil => trivial
  | cons i is ih =>
      exact ⟨⟨hp i List.mem_cons_self, hok.1⟩,
        fun t ht => ih (fun j hj => hp j (List.mem_cons_of_mem i hj)) (hok.2 t ht)⟩

/-- Two conditions that admit a run admit it together. -/
theorem Admits.and {ok ok' : σ → ι → Prop} {s : σ} {is : List ι} (h : Admits step ok s is)
    (h' : Admits step ok' s is) : Admits step (fun s i => ok s i ∧ ok' s i) s is := by
  induction is generalizing s with
  | nil => trivial
  | cons i is ih => exact ⟨⟨h.1, h'.1⟩, fun t ht => ih (h.2 t ht) (h'.2 t ht)⟩

/-- Whether a given run is admitted can be computed where the condition can. -/
def decideAdmits {ok : σ → ι → Prop} [∀ s i, Decidable (ok s i)] :
    ∀ (s : σ) (is : List ι), Decidable (Admits step ok s is)
  | _, [] => .isTrue trivial
  | s, i :: is =>
      match hstep : step s i with
      | none =>
          decidable_of_iff (ok s i) ⟨fun h => ⟨h, by simp [hstep]⟩, fun h => h.1⟩
      | some t =>
          have : Decidable (Admits step ok t is) := decideAdmits t is
          decidable_of_iff (ok s i ∧ Admits step ok t is)
            (by simp only [Admits, hstep, Option.some.injEq, forall_eq'])

instance {ok : σ → ι → Prop} [∀ s i, Decidable (ok s i)] (s : σ) (is : List ι) :
    Decidable (Admits step ok s is) :=
  decideAdmits s is

/-- What each admitted step preserves, an admitted run preserves. -/
theorem run_invariant (ok : σ → ι → Prop) (Inv : σ → Prop)
    (hstep : ∀ s i t, Inv s → ok s i → step s i = some t → Inv t)
    {s t : σ} {is : List ι} (hs : Inv s) (hok : Admits step ok s is)
    (hrun : run step s is = some t) : Inv t := by
  induction is generalizing s with
  | nil =>
      cases hrun
      exact hs
  | cons i is ih =>
      obtain ⟨u, hu, hrest⟩ := run_cons_eq_some.mp hrun
      exact ih (hstep s i u hs hok.1 hu) (hok.2 u hu) hrest

/-- If two conditions agree on the steps from invariant states, and a step that
meets them leads to an invariant state, they admit the same runs. -/
theorem admits_congr {ok good : σ → ι → Prop} (Inv : σ → Prop)
    (hstep : ∀ s i t, Inv s → ok s i → step s i = some t → Inv t)
    (hiff : ∀ s i, Inv s → (good s i ↔ ok s i)) {s : σ} {is : List ι} (hs : Inv s) :
    Admits step good s is ↔ Admits step ok s is := by
  induction is generalizing s with
  | nil => rfl
  | cons i is ih =>
      constructor
      · rintro ⟨hgood, hrest⟩
        have hok := (hiff s i hs).mp hgood
        exact ⟨hok, fun t ht => (ih (hstep s i t hs hok ht)).mp (hrest t ht)⟩
      · rintro ⟨hok, hrest⟩
        exact ⟨(hiff s i hs).mpr hok, fun t ht => (ih (hstep s i t hs hok ht)).mpr (hrest t ht)⟩

/-- Under an invariant that the steps keep, a condition follows along the run from one that
implies it at each step. -/
theorem admits_imp {ok good : σ → ι → Prop} (Inv : σ → Prop)
    (hstep : ∀ s i t, Inv s → ok s i → step s i = some t → Inv t)
    (himp : ∀ s i, Inv s → ok s i → good s i) {s : σ} {is : List ι} (hs : Inv s)
    (hok : Admits step ok s is) : Admits step good s is := by
  induction is generalizing s with
  | nil => trivial
  | cons i is ih =>
      obtain ⟨hi, hrest⟩ := hok
      exact ⟨himp s i hs hi, fun t ht => ih (hstep s i t hs hi ht) (hrest t ht)⟩

/-- If no admitted step from a good state can abort, no admitted run aborts. -/
theorem run_isSome {ok : σ → ι → Prop} {Inv : σ → Prop}
    (hstep : ∀ s i, Inv s → ok s i → ∃ t, step s i = some t ∧ Inv t)
    {s : σ} {is : List ι} (hs : Inv s) (hok : Admits step ok s is) :
    ∃ t, run step s is = some t ∧ Inv t := by
  induction is generalizing s with
  | nil => exact ⟨s, rfl, hs⟩
  | cons i is ih =>
      obtain ⟨u, hu, hinv⟩ := hstep s i hs hok.1
      obtain ⟨t, ht, hinvt⟩ := ih hinv (hok.2 u hu)
      exact ⟨t, run_cons_eq_some.mpr ⟨u, hu, ht⟩, hinvt⟩

end Run
