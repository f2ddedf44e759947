import Mathlib.Tactic

/-!
# Runs marked in an array

An array of integers can record disjoint runs of its own cells: the first cell
of a run holds the negated number of its owner, each further cell its distance
from the first one, and a cell of no run is zero.  `Holds` says that an array
records exactly the given windows, at most one for each owner.

Main results:

- Theorem `Holds.owner_unique`: the windows of two owners share no cell.
- Theorems `Holds.reserve` and `Holds.release`: writing the marks of a window
  adds it, clearing its cells removes it.
- Theorem `Holds.isRun_iff`: the maximal runs of marks are the windows.
- Theorems `runs_mark` and `runs_clear`: the same two writes in an array that
  records any number of runs for an owner.
-/

namespace RunMarks

open Function

/-- A run of cells. -/
structure Window where
  start : Nat
  len : Nat
deriving DecidableEq, Repr

/-- The cells of a window. -/
def Window.Mem (w : Window) (j : Nat) : Prop :=
  w.start ≤ j ∧ j < w.start + w.len

/-- The mark of the first cell of a run. -/
def ownerMark (id : Nat) : Int :=
  -id - 1

/-- The cells of `w` carry the marks of a run of owner `id`. -/
structure Marked (c : Nat → Int) (w : Window) (id : Nat) : Prop where
  nonempty : 0 < w.len
  first : c w.start = ownerMark id
  rest : ∀ k, 0 < k → k < w.len → c (w.start + k) = k

/-- The first `n` cells record exactly the given windows. -/
structure Holds {m : Nat} (c : Nat → Int) (n : Nat) (W : Fin m → Option Window) : Prop where
  marked : ∀ i w, W i = some w → Marked c w i ∧ w.start + w.len ≤ n
  owned : ∀ j, j < n → c j ≠ 0 → ∃ i w, W i = some w ∧ w.Mem j

/-- A run of marks that does not go on. -/
def IsRun (c : Nat → Int) (n : Nat) (w : Window) (id : Nat) : Prop :=
  Marked c w id ∧ w.start + w.len ≤ n ∧ (w.start + w.len < n → c (w.start + w.len) ≤ 0)

/-- Write the marks of a run. -/
def mark (c : Nat → Int) (w : Window) (id : Nat) (j : Nat) : Int :=
  if j = w.start then ownerMark id
  else if w.start < j ∧ j < w.start + w.len then (j - w.start : Nat)
  else c j

/-- Clear the cells of a run. -/
def clear (c : Nat → Int) (w : Window) (j : Nat) : Int :=
  if w.start ≤ j ∧ j < w.start + w.len then 0 else c j

variable {m n : Nat} {c : Nat → Int} {W : Fin m → Option Window} {w v : Window} {id : Nat}

/-- The mark of a cell of a run: the owner first, then the distances. -/
theorem Marked.cell (h : Marked c w id) {j : Nat} (hj : w.Mem j) :
    (j = w.start ∧ c j = ownerMark id) ∨ (w.start < j ∧ c j = (j - w.start : Nat)) := by
  rcases Nat.eq_or_lt_of_le hj.1 with heq | hlt
  · left
    exact ⟨heq.symm, heq ▸ h.first⟩
  · right
    have hcell := h.rest (j - w.start) (by omega) (by have := hj.2; omega)
    rw [Nat.add_sub_cancel' hj.1] at hcell
    exact ⟨hlt, hcell⟩

/-- Marks are never zero. -/
theorem Marked.ne_zero (h : Marked c w id) {j : Nat} (hj : w.Mem j) : c j ≠ 0 := by
  rcases h.cell hj with ⟨-, hcell⟩ | ⟨hlt, hcell⟩
  · rw [hcell, ownerMark]
    omega
  · rw [hcell]
    omega

/-- Two runs of marks that share a cell start together and have one owner. -/
theorem Marked.same_start {id' : Nat} (h : Marked c w id) (h' : Marked c v id') {j : Nat}
    (hj : w.Mem j) (hj' : v.Mem j) : w.start = v.start ∧ id = id' := by
  have hstart : w.start = v.start := by
    rcases h.cell hj with ⟨heq, hcell⟩ | ⟨hlt, hcell⟩
    · rcases h'.cell hj' with ⟨heq', -⟩ | ⟨hlt', hcell'⟩
      · exact heq.symm.trans heq'
      · rw [hcell, ownerMark] at hcell'
        omega
    · rcases h'.cell hj' with ⟨heq', hcell'⟩ | ⟨hlt', hcell'⟩
      · rw [hcell, ownerMark] at hcell'
        omega
      · rw [hcell] at hcell'
        omega
  have hfirst := h.first
  rw [hstart, h'.first] at hfirst
  simp only [ownerMark] at hfirst
  exact ⟨hstart, by omega⟩

/-- The windows of two owners share no cell. -/
theorem Holds.owner_unique (h : Holds c n W) {i i' : Fin m} (hi : W i = some w)
    (hi' : W i' = some v) {j : Nat} (hj : w.Mem j) (hj' : v.Mem j) : i = i' := by
  have hsame := (h.marked i w hi).1.same_start (h.marked i' v hi').1 hj hj'
  exact Fin.ext hsame.2

/-- The cell after a window belongs to no run that goes on. -/
theorem Holds.stops (h : Holds c n W) {i : Fin m} (hi : W i = some w)
    (hlt : w.start + w.len < n) : c (w.start + w.len) ≤ 0 := by
  by_contra hpos
  rw [not_le] at hpos
  obtain ⟨i', v, hi', hv⟩ := h.owned (w.start + w.len) hlt hpos.ne'
  have hmarked := (h.marked i' v hi').1
  rcases hmarked.cell hv with ⟨-, hcell⟩ | ⟨hstart, -⟩
  · rw [hcell, ownerMark] at hpos
    omega
  · -- The cell before the end would lie in both windows.
    have hnonempty := (h.marked i w hi).1.nonempty
    have hw : w.Mem (w.start + w.len - 1) := ⟨by omega, by omega⟩
    have hv' : v.Mem (w.start + w.len - 1) := ⟨by omega, by have := hv.2; omega⟩
    have heq := h.owner_unique hi hi' hw hv'
    rw [heq, hi'] at hi
    cases hi
    exact absurd hv.2 (lt_irrefl _)

/-- Free cells are in no window. -/
theorem Holds.disjoint_of_zero (h : Holds c n W) (hzero : ∀ j, w.Mem j → c j = 0) {i : Fin m}
    (hi : W i = some v) {j : Nat} (hj : v.Mem j) : ¬w.Mem j := by
  intro hw
  exact (h.marked i v hi).1.ne_zero hj (hzero j hw)

theorem mark_of_not_mem {j : Nat} (hlen : 0 < w.len) (hj : ¬w.Mem j) :
    mark c w id j = c j := by
  unfold Window.Mem at hj
  rw [mark, if_neg (by omega), if_neg (by omega)]

theorem clear_of_not_mem {j : Nat} (hj : ¬w.Mem j) : clear c w j = c j :=
  if_neg hj

/-- Cells that agree carry the same marks. -/
theorem Marked.congr {c' : Nat → Int} (h : Marked c w id) (heq : ∀ j, w.Mem j → c' j = c j) :
    Marked c' w id := by
  have hpos := h.nonempty
  refine ⟨hpos, ?_, ?_⟩
  · rw [heq _ ⟨le_rfl, by omega⟩, h.first]
  · intro k hk hlt
    rw [heq _ ⟨by omega, by omega⟩, h.rest k hk hlt]

/-- Writing marks makes a run. -/
theorem marked_mark (hlen : 0 < w.len) : Marked (mark c w id) w id := by
  refine ⟨hlen, by simp [mark], ?_⟩
  intro k hk hlt
  rw [mark, if_neg (by omega), if_pos (by omega)]
  congr 1
  omega

/-- Writing the marks of a free window for an owner without one adds it. -/
theorem Holds.reserve (h : Holds c n W) {i : Fin m} (hi : W i = none) (hlen : 0 < w.len)
    (hend : w.start + w.len ≤ n) (hzero : ∀ j, w.Mem j → c j = 0) :
    Holds (mark c w i) n (update W i (some w)) := by
  constructor
  · intro k v hk
    by_cases hki : k = i
    · subst hki
      rw [update_self] at hk
      cases hk
      exact ⟨marked_mark hlen, hend⟩
    · rw [update_of_ne hki] at hk
      refine ⟨(h.marked k v hk).1.congr ?_, (h.marked k v hk).2⟩
      intro j hj
      exact mark_of_not_mem hlen (h.disjoint_of_zero hzero hk hj)
  · intro j hj hne
    by_cases hw : w.Mem j
    · exact ⟨i, w, update_self i (some w) W, hw⟩
    · rw [mark_of_not_mem hlen hw] at hne
      obtain ⟨k, v, hk, hv⟩ := h.owned j hj hne
      have hki : k ≠ i := by
        rintro rfl
        rw [hi] at hk
        cases hk
      exact ⟨k, v, by rw [update_of_ne hki, hk], hv⟩

/-- Clearing the cells of a window removes it. -/
theorem Holds.release (h : Holds c n W) {i : Fin m} (hi : W i = some w) :
    Holds (clear c w) n (update W i none) := by
  constructor
  · intro k v hk
    have hki : k ≠ i := by
      rintro rfl
      rw [update_self] at hk
      cases hk
    rw [update_of_ne hki] at hk
    refine ⟨(h.marked k v hk).1.congr ?_, (h.marked k v hk).2⟩
    intro j hj
    apply clear_of_not_mem
    intro hw
    exact hki (h.owner_unique hk hi hj hw)
  · intro j hj hne
    have hw : ¬w.Mem j := by
      intro hw
      exact hne (if_pos hw)
    rw [clear_of_not_mem hw] at hne
    obtain ⟨k, v, hk, hv⟩ := h.owned j hj hne
    have hki : k ≠ i := by
      rintro rfl
      rw [hi] at hk
      cases hk
      exact hw hv
    exact ⟨k, v, by rw [update_of_ne hki, hk], hv⟩

theorem IsRun.mem_start (h : IsRun c n w id) : w.Mem w.start :=
  ⟨le_rfl, by have := h.1.nonempty; omega⟩

/-- Of two runs with the same first cell, neither goes on past the other. -/
theorem IsRun.len_le {k : Nat} (h : IsRun c n w id) (h' : IsRun c n v k)
    (hstart : w.start = v.start) : v.len ≤ w.len := by
  by_contra hlt
  rw [not_le] at hlt
  have hcell := h'.1.rest w.len h.1.nonempty hlt
  have hend := h'.2.1
  have hle := h.2.2 (by omega)
  have hpos := h.1.nonempty
  rw [hstart, hcell] at hle
  omega

/-- Two runs that share a cell are the same. -/
theorem IsRun.unique {k j : Nat} (h : IsRun c n w id) (h' : IsRun c n v k) (hj : w.Mem j)
    (hj' : v.Mem j) : w = v ∧ id = k := by
  obtain ⟨hstart, hid⟩ := h.1.same_start h'.1 hj hj'
  have hlen := Nat.le_antisymm (h'.len_le h hstart.symm) (h.len_le h' hstart)
  cases w
  cases v
  simp_all

/-- The maximal runs of marks are the windows. -/
theorem Holds.isRun_iff (h : Holds c n W) :
    IsRun c n w id ↔ ∃ i : Fin m, i.val = id ∧ W i = some w := by
  have hwindow : ∀ {i v}, W i = some v → IsRun c n v i.val := fun {i v} hi =>
    ⟨(h.marked i v hi).1, (h.marked i v hi).2, h.stops hi⟩
  constructor
  · intro hrun
    have hfirst := hrun.mem_start
    obtain ⟨i, v, hi, hv⟩ := h.owned w.start (by have := hrun.2.1; have := hfirst.2; omega)
      (hrun.1.ne_zero hfirst)
    obtain ⟨heq, hid⟩ := hrun.unique (hwindow hi) hfirst hv
    exact ⟨i, hid.symm, by rw [heq, hi]⟩
  · rintro ⟨i, rfl, hi⟩
    exact hwindow hi

/-! ## Any number of runs for an owner -/

/-- Every marked cell lies in a run that does not go on. -/
def Encoded (c : Nat → Int) (n : Nat) : Prop :=
  ∀ j, j < n → c j ≠ 0 → ∃ w id, IsRun c n w id ∧ w.Mem j

/-- The runs of an array and their owners. -/
def runs (c : Nat → Int) (n : Nat) : Set (Window × Nat) :=
  {r | IsRun c n r.1 r.2}

@[simp]
theorem mem_runs {r : Window × Nat} : r ∈ runs c n ↔ IsRun c n r.1 r.2 :=
  Iff.rfl

/-- A run stays when only cells outside of it change, unless the change makes it go on. -/
theorem IsRun.congr {c' : Nat → Int} {k : Nat} (h : IsRun c n v k)
    (hout : ∀ j, ¬w.Mem j → c' j = c j) (hdisjoint : ∀ j, v.Mem j → ¬w.Mem j)
    (hfirst : c' w.start ≤ 0) : IsRun c' n v k := by
  obtain ⟨hmarked, hend, hstop⟩ := h
  refine ⟨hmarked.congr fun j hj => hout j (hdisjoint j hj), hend, ?_⟩
  intro hlt
  by_cases hw : w.Mem (v.start + v.len)
  · -- The cell before is not in `w`, so `w` begins where `v` ends.
    have hpos := hmarked.nonempty
    have hlast := hdisjoint (v.start + v.len - 1) ⟨by omega, by omega⟩
    have hstart : v.start + v.len = w.start := by
      unfold Window.Mem at hw hlast
      omega
    rw [hstart]
    exact hfirst
  · rw [hout _ hw]
    exact hstop hlt

/-- An array without marks has no runs. -/
theorem encoded_of_zero (hzero : ∀ j, j < n → c j = 0) : Encoded c n ∧ runs c n = ∅ := by
  refine ⟨fun j hj hne => absurd (hzero j hj) hne, Set.eq_empty_of_forall_notMem ?_⟩
  intro r hr
  have hpos := hr.1.nonempty
  have hend := hr.2.1
  exact hr.1.ne_zero (IsRun.mem_start hr) (hzero _ (by omega))

/-- After a free cell no run goes on. -/
theorem Encoded.nonpos_of_zero (h : Encoded c n) {j : Nat} (hzero : c j = 0) (hlt : j + 1 < n) :
    c (j + 1) ≤ 0 := by
  by_contra hpos
  rw [not_le] at hpos
  obtain ⟨v, k, hrun, hv⟩ := h (j + 1) hlt hpos.ne'
  rcases hrun.1.cell hv with ⟨-, hcell⟩ | ⟨hstart, -⟩
  · rw [hcell, ownerMark] at hpos
    omega
  · exact hrun.1.ne_zero ⟨by omega, by have := hv.2; omega⟩ hzero

theorem mark_start : mark c w id w.start = ownerMark id :=
  if_pos rfl

/-- Writing marks into free cells adds one run. -/
theorem runs_mark (h : Encoded c n) (hlen : 0 < w.len) (hend : w.start + w.len ≤ n)
    (hzero : ∀ j, w.Mem j → c j = 0) : runs (mark c w id) n = insert (w, id) (runs c n) := by
  have hout : ∀ j, ¬w.Mem j → mark c w id j = c j := fun j hj => mark_of_not_mem hlen hj
  have hnew : IsRun (mark c w id) n w id := by
    refine ⟨marked_mark hlen, hend, ?_⟩
    intro hlt
    rw [hout _ (fun hmem => absurd hmem.2 (lt_irrefl _))]
    have hlast := hzero (w.start + w.len - 1) ⟨by omega, by omega⟩
    have hnext := h.nonpos_of_zero hlast (by omega)
    rwa [Nat.sub_add_cancel (by omega)] at hnext
  ext ⟨v, k⟩
  rw [Set.mem_insert_iff, mem_runs, mem_runs, Prod.mk.injEq]
  constructor
  · intro hrun
    by_cases hmeet : ∃ j, v.Mem j ∧ w.Mem j
    · obtain ⟨j, hv, hw⟩ := hmeet
      exact Or.inl (hrun.unique hnew hv hw)
    · right
      refine hrun.congr (fun j hj => (hout j hj).symm) (fun j hv hw => hmeet ⟨j, hv, hw⟩) ?_
      exact le_of_eq (hzero _ hnew.mem_start)
  · rintro (⟨rfl, rfl⟩ | hrun)
    · exact hnew
    · refine hrun.congr hout (fun j hv hw => hrun.1.ne_zero hv (hzero j hw)) ?_
      rw [mark_start, ownerMark]
      omega

/-- Clearing the cells of a run removes it. -/
theorem runs_clear (hw : IsRun c n w id) : runs (clear c w) n = runs c n \ {(w, id)} := by
  have hout : ∀ j, ¬w.Mem j → clear c w j = c j := fun j hj => clear_of_not_mem hj
  have hin : ∀ j, w.Mem j → clear c w j = 0 := fun j hj => if_pos hj
  ext ⟨v, k⟩
  rw [Set.mem_sdiff, Set.mem_singleton_iff, mem_runs, mem_runs, Prod.mk.injEq]
  constructor
  · intro hrun
    have hdisjoint : ∀ j, v.Mem j → ¬w.Mem j := fun j hv hj => hrun.1.ne_zero hv (hin j hj)
    refine ⟨hrun.congr (fun j hj => (hout j hj).symm) hdisjoint ?_, ?_⟩
    · rw [hw.1.first, ownerMark]
      omega
    · rintro ⟨rfl, -⟩
      exact hdisjoint _ hrun.mem_start hw.mem_start
  · rintro ⟨hrun, hne⟩
    refine hrun.congr hout (fun j hv hj => hne (hrun.unique hw hv hj)) ?_
    exact le_of_eq (hin _ hw.mem_start)

theorem Encoded.mark (h : Encoded c n) (hlen : 0 < w.len) (hend : w.start + w.len ≤ n)
    (hzero : ∀ j, w.Mem j → c j = 0) : Encoded (mark c w id) n := by
  intro j hj hne
  have hruns := @runs_mark n c w id h hlen hend hzero
  by_cases hw : w.Mem j
  · have hmem : (w, id) ∈ runs (RunMarks.mark c w id) n := by
      rw [hruns]
      exact Set.mem_insert _ _
    exact ⟨w, id, hmem, hw⟩
  · rw [mark_of_not_mem hlen hw] at hne
    obtain ⟨v, k, hrun, hv⟩ := h j hj hne
    have hmem : (v, k) ∈ runs (RunMarks.mark c w id) n := by
      rw [hruns]
      exact Set.mem_insert_of_mem _ hrun
    exact ⟨v, k, hmem, hv⟩

theorem Encoded.clear (h : Encoded c n) (hw : IsRun c n w id) : Encoded (clear c w) n := by
  intro j hj hne
  have hnot : ¬w.Mem j := fun hmem => hne (if_pos hmem)
  rw [clear_of_not_mem hnot] at hne
  obtain ⟨v, k, hrun, hv⟩ := h j hj hne
  have hmem : (v, k) ∈ runs (RunMarks.clear c w) n := by
    rw [runs_clear hw]
    refine ⟨hrun, ?_⟩
    rintro ⟨⟩
    exact hnot hv
  exact ⟨v, k, hmem, hv⟩

/-- Write the marks of a run again with another length; none are left for length 0. -/
def resize (c : Nat → Int) (w : Window) (id len : Nat) : Nat → Int :=
  if len = 0 then clear c w else mark (clear c w) ⟨w.start, len⟩ id

/-- What a change of length does to the cells: the ones behind a shorter run are cleared,
the ones a longer run takes are numbered. -/
theorem IsRun.resize_apply (h : IsRun c n w id) (len j : Nat) :
    resize c w id len j =
      if w.start + len ≤ j ∧ j < w.start + w.len then 0
      else if w.start + w.len ≤ j ∧ j < w.start + len then ((j - w.start : Nat) : Int)
      else c j := by
  have hpos := h.1.nonempty
  unfold resize clear mark
  split
  · next hzero =>
      subst hzero
      rw [Nat.add_zero, if_neg (by omega : ¬(w.start + w.len ≤ j ∧ j < w.start))]
  · simp only
    by_cases hstart : j = w.start
    · subst hstart
      rw [if_pos rfl, if_neg (by omega), if_neg (by omega), h.1.first]
    · rw [if_neg hstart]
      by_cases hin : w.start < j ∧ j < w.start + len
      · rw [if_pos hin, if_neg (by omega)]
        by_cases hw : j < w.start + w.len
        · have hcell := h.1.rest (j - w.start) (by omega) (by omega)
          rw [Nat.add_sub_cancel' hin.1.le] at hcell
          rw [if_neg (by omega), hcell]
        · rw [if_pos (by omega)]
      · rw [if_neg hin]
        by_cases hw : w.start ≤ j ∧ j < w.start + w.len
        · rw [if_pos hw, if_pos (by omega)]
        · rw [if_neg hw, if_neg (by omega), if_neg (by omega)]

/-- A run that gets another length, with room for it, is the only one that changes. -/
theorem IsRun.resize (h : Encoded c n) (hw : IsRun c n w id) {len : Nat} (hend : w.start + len ≤ n)
    (hzero : ∀ j, w.start + w.len ≤ j → j < w.start + len → c j = 0) :
    Encoded (resize c w id len) n ∧
      runs (resize c w id len) n =
        if len = 0 then runs c n \ {(w, id)}
        else insert (⟨w.start, len⟩, id) (runs c n \ {(w, id)}) := by
  have hclear := h.clear hw
  unfold RunMarks.resize
  split
  · exact ⟨hclear, runs_clear hw⟩
  · next hlen =>
      have hfree : ∀ j, (Window.mk w.start len).Mem j → RunMarks.clear c w j = 0 := by
        intro j hj
        by_cases hmem : w.Mem j
        · exact if_pos hmem
        · rw [clear_of_not_mem hmem]
          have hlo : w.start ≤ j := hj.1
          unfold Window.Mem at hmem
          exact hzero j (by omega) hj.2
      have hpos : 0 < len := Nat.pos_of_ne_zero hlen
      exact ⟨hclear.mark hpos hend hfree, by rw [runs_mark hclear hpos hend hfree, runs_clear hw]⟩

end RunMarks
