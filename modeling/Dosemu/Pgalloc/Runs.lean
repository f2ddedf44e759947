import Dosemu.Pgalloc.Model
import Dosemu.Lib.RunMarks

/-!
# The runs of the page allocator

The pool seen as an array of run marks: allocation writes the marks of a window
of free pages, and a free clears the whole window it is given the start of.

Main results:

- Theorem `findFree_spec`: what the search returns is a run of free pages.
- Theorem `pgaalloc_cases`: an allocation fails and changes nothing, or marks
  the first run found.
- Theorem `pgafree_eq`: freeing the start of a window clears exactly it.
-/

namespace Dosemu
namespace Pgalloc

open RunMarks

variable {p : Pool} {n : Nat}

/-- The pages of a pool, counted from 0. -/
def pages (p : Pool) (j : Nat) : Int :=
  cell p (j + 1)

/-- A pool of `n` pages: the header agrees with the array. -/
structure Sized (p : Pool) (n : Nat) : Prop where
  length : p.length = n + 1
  header : cell p 0 = (n + 1 : Nat)

theorem Sized.len (h : Sized p n) : Pgalloc.len p = n + 1 := by
  rw [Pgalloc.len, h.header, Int.toNat_natCast]

theorem cell_set (p : Pool) (i j : Nat) (v : Int) :
    cell (p.set i v) j = if i = j ∧ i < p.length then v else cell p j := by
  unfold cell
  rw [List.getD_eq_getElem?_getD, List.getD_eq_getElem?_getD, List.getElem?_set]
  by_cases hij : i = j
  · subst hij
    by_cases hlt : i < p.length
    · simp [hlt]
    · simp [hlt]
  · simp [hij]

/-- Writing a page cell keeps the header. -/
theorem Sized.set (h : Sized p n) {i : Nat} (hi : 0 < i) (v : Int) : Sized (p.set i v) n := by
  constructor
  · rw [List.length_set, h.length]
  · rw [cell_set, if_neg (by omega), h.header]

theorem sized_pgainit (n : Nat) : Sized (pgainit n) n := by
  constructor
  · simp [pgainit]
  · simp [pgainit, cell]

/-- A new pool has only free pages. -/
theorem pages_pgainit (n j : Nat) : pages (pgainit n) j = 0 := by
  simp only [pages, cell, pgainit, List.getD_cons_succ]
  rw [List.getD_eq_getElem?_getD, List.getElem?_replicate]
  split <;> rfl

/-! ## Reset -/

theorem resetLoop_spec (h : Sized p n) (k : Nat) {i : Nat} (hi : 0 < i) :
    Sized (resetLoop p i k) n ∧
      ∀ j, cell (resetLoop p i k) j = if i ≤ j ∧ j < i + k then 0 else cell p j := by
  induction k generalizing p i with
  | zero =>
      refine ⟨h, ?_⟩
      intro j
      rw [if_neg (by omega)]
      rfl
  | succ k ih =>
      obtain ⟨hsized, hcells⟩ := ih (h.set hi 0) (Nat.succ_pos i)
      refine ⟨hsized, ?_⟩
      intro j
      rw [resetLoop, hcells, cell_set]
      by_cases hj : i = j
      · subst hj
        by_cases hlt : i < p.length
        · simp [hlt]
        · -- Past the end of the array a cell reads as zero anyway.
          have hzero : cell p i = 0 := by
            rw [cell, List.getD_eq_getElem?_getD, List.getElem?_eq_none (by omega)]
            rfl
          simp [hlt, hzero]
      · by_cases hin : i + 1 ≤ j ∧ j < i + 1 + k
        · rw [if_pos hin, if_pos (by omega)]
        · rw [if_neg hin, if_neg (by omega), if_neg (by omega)]

/-- A reset pool has only free pages. -/
theorem pgareset_spec (h : Sized p n) :
    Sized (pgareset p) n ∧ ∀ j, j < n → pages (pgareset p) j = 0 := by
  obtain ⟨hsized, hcells⟩ := resetLoop_spec h (len p - 1) Nat.one_pos
  refine ⟨hsized, ?_⟩
  intro j hj
  rw [pages, pgareset, hcells, h.len, if_pos (by omega)]

/-! ## The search -/

/-- What the inner loop reports is a run of free cells. -/
theorem freeRun_spec {npages i fuel j j' : Nat} (hij : i < j)
    (hfree : ∀ k, i ≤ k → k < j → cell p k = 0)
    (hrun : freeRun p npages i fuel j = (true, j')) :
    i + npages ≤ len p ∧ ∀ k, i ≤ k → k < i + npages → cell p k = 0 := by
  induction fuel generalizing j with
  | zero => simp [freeRun] at hrun
  | succ fuel ih =>
      rw [freeRun] at hrun
      split at hrun
      next hcell =>
        have hnext : ∀ k, i ≤ k → k < j + 1 → cell p k = 0 := by
          intro k hik hkj
          rcases Nat.lt_succ_iff_lt_or_eq.mp hkj with hlt | heq
          · exact hfree k hik hlt
          · rw [heq]
            exact hcell.2
        split at hrun
        next hlen =>
          refine ⟨by have := hcell.1; omega, ?_⟩
          intro k hik hk
          exact hnext k hik (by omega)
        next => exact ih (by omega) hnext hrun
      next => simp at hrun

/-- A run of no pages is never found: the count starts at two. -/
theorem freeRun_zero (p : Pool) (i fuel j : Nat) : (freeRun p 0 i fuel j).1 = false := by
  induction fuel generalizing j with
  | zero => rfl
  | succ fuel ih =>
      rw [freeRun]
      split
      · rw [if_neg (by omega)]
        exact ih (j + 1)
      · rfl

/-- A found run is free and lies inside the array. -/
theorem findFreeFrom_spec {npages fuel i : Nat} (hi : 0 < i)
    (hle : npages ≤ len p) (hfound : 0 < findFreeFrom p npages fuel i) :
    ∃ idx : Nat, findFreeFrom p npages fuel i = idx ∧ 0 < idx ∧ 0 < npages ∧
      idx + npages ≤ len p ∧ ∀ k, idx ≤ k → k < idx + npages → cell p k = 0 := by
  induction fuel generalizing i with
  | zero => simp [findFreeFrom] at hfound
  | succ fuel ih =>
      rw [findFreeFrom] at hfound ⊢
      split at hfound
      next hbound =>
        rw [if_pos hbound]
        split at hfound
        next hcell =>
          rw [if_pos hcell]
          split at hfound
          next hone =>
            subst hone
            rw [if_pos rfl]
            refine ⟨i, rfl, hi, Nat.one_pos, by omega, ?_⟩
            intro k hik hk
            have : k = i := by omega
            rw [this, hcell]
          next hone =>
            rw [if_neg hone]
            cases hrun : freeRun p npages i (len p) (i + 1) with
            | mk found j =>
                rw [hrun] at hfound
                cases found with
                | true =>
                    have hspec := freeRun_spec (Nat.lt_succ_self i) (by
                      intro k hik hk
                      have : k = i := by omega
                      rw [this, hcell]) hrun
                    refine ⟨i, rfl, hi, ?_, hspec.1, hspec.2⟩
                    apply Nat.pos_of_ne_zero
                    rintro rfl
                    have hnone := freeRun_zero p i (len p) (i + 1)
                    rw [hrun] at hnone
                    cases hnone
                | false => exact ih (Nat.succ_pos j) hfound
        next hcell =>
          rw [if_neg hcell]
          exact ih (Nat.succ_pos i) hfound
      next => simp at hfound

/-- `find_free` returns a negative number or a run of free pages. -/
theorem findFree_spec (h : Sized p n) {npages : Nat} (hfound : 0 < findFree p npages) :
    ∃ j : Nat, findFree p npages = (j + 1 : Nat) ∧ 0 < npages ∧ j + npages ≤ n ∧
      ∀ k, (Window.mk j npages).Mem k → pages p k = 0 := by
  unfold findFree at hfound ⊢
  split at hfound
  next => simp at hfound
  next hle =>
    rw [if_neg hle]
    obtain ⟨idx, hidx, hpos, hnpages, hend, hfree⟩ :=
      findFreeFrom_spec Nat.one_pos (by omega) hfound
    rw [h.len] at hend
    refine ⟨idx - 1, ?_, hnpages, by omega, ?_⟩
    · rw [hidx, Nat.sub_add_cancel hpos]
    · intro k hk
      have hlo := hk.1
      have hhi := hk.2
      simp only at hlo hhi
      exact hfree (k + 1) (by omega) (by omega)

/-! ## Allocation -/

theorem numberPages_spec (h : Sized p n) {idx i : Nat} (k : Nat) (hi : 0 < i) (hidx : idx < i)
    (hend : i + k ≤ n + 1) :
    Sized (numberPages p idx i k) n ∧
      ∀ j, cell (numberPages p idx i k) j =
        if i ≤ j ∧ j < i + k then ((j - idx : Nat) : Int) else cell p j := by
  induction k generalizing p i with
  | zero =>
      refine ⟨h, ?_⟩
      intro j
      rw [if_neg (by omega)]
      rfl
  | succ k ih =>
      obtain ⟨hsized, hcells⟩ := ih (h.set hi _) (Nat.succ_pos i) (by omega) (by omega)
      refine ⟨hsized, ?_⟩
      intro j
      rw [numberPages, hcells, cell_set]
      by_cases hj : i = j
      · subst hj
        have hlen := h.length
        rw [if_neg (by omega), if_pos ⟨rfl, by omega⟩, if_pos ⟨le_rfl, by omega⟩]
      · by_cases hin : i + 1 ≤ j ∧ j < i + 1 + k
        · rw [if_pos hin, if_pos (by omega)]
        · rw [if_neg hin, if_neg (by omega), if_neg (by omega)]

/-- An allocation fails and changes nothing, or marks a window of free pages. -/
theorem pgaalloc_cases (h : Sized p n) (npages id : Nat) :
    ((pgaalloc p npages id).1 < 0 ∧ (pgaalloc p npages id).2 = p) ∨
      ∃ (j : Nat) (p' : Pool), pgaalloc p npages id = ((j : Int), p') ∧ 0 < npages ∧ j + npages ≤ n ∧
        (∀ k, (Window.mk j npages).Mem k → pages p k = 0) ∧ Sized p' n ∧
        pages p' = mark (pages p) ⟨j, npages⟩ id := by
  unfold pgaalloc
  by_cases hfound : 0 < findFree p npages
  · right
    obtain ⟨j, hj, hnpages, hend, hfree⟩ := findFree_spec h hfound
    have hset := h.set (Nat.succ_pos j) (idMark id)
    obtain ⟨hsized, hcells⟩ :=
      numberPages_spec hset (npages - 1) (show 0 < j + 1 + 1 by omega) (Nat.lt_succ_self (j + 1))
        (by omega)
    simp only [hj, Int.toNat_natCast]
    rw [if_pos (by omega)]
    refine ⟨j, _, ?_, hnpages, hend, hfree, hsized, ?_⟩
    · simp
    · ext k
      have hlen := h.length
      rw [pages, hcells, cell_set, mark]
      by_cases hk : k = j
      · subst hk
        rw [if_neg (by omega), if_pos ⟨rfl, by omega⟩, if_pos rfl]
        rfl
      · rw [if_neg hk]
        by_cases hin : j < k ∧ k < j + npages
        · rw [if_pos (by omega), if_pos hin, Nat.add_sub_add_right]
        · rw [if_neg (by omega), if_neg (by omega), if_neg hin]
          rfl
  · left
    simp only [hfound, if_false]
    exact ⟨by omega, trivial⟩

/-! ## Free -/

/-- The loop clears a cell and the positive cells that follow it. -/
theorem freeLoop_spec (h : Sized p n) (fuel page k : Nat) (hfuel : k < fuel) (hpage : 0 < page)
    (hend : page + k < n + 1) (hpos : ∀ j, page < j → j ≤ page + k → 0 < cell p j)
    (hstop : page + k + 1 < n + 1 → cell p (page + k + 1) ≤ 0) :
    Sized (freeLoop fuel p page) n ∧
      ∀ j, cell (freeLoop fuel p page) j =
        if page ≤ j ∧ j ≤ page + k then 0 else cell p j := by
  induction k generalizing p fuel page with
  | zero =>
      cases fuel with
      | zero => omega
      | succ fuel =>
          have hset := h.set hpage 0
          have hlen := h.length
          rw [freeLoop]
          have hdone : ¬(page + 1 < len (p.set page 0) ∧ 0 < cell (p.set page 0) (page + 1)) := by
            rintro ⟨hlt, hcell⟩
            rw [hset.len] at hlt
            rw [cell_set, if_neg (by omega)] at hcell
            have := hstop (by omega)
            simp only [Nat.add_zero] at this
            omega
          simp only [hdone, if_false]
          refine ⟨hset, ?_⟩
          intro j
          rw [cell_set]
          by_cases hj : page = j
          · rw [if_pos ⟨hj, by omega⟩, if_pos (by omega)]
          · rw [if_neg (by omega), if_neg (by omega)]
  | succ k ih =>
      cases fuel with
      | zero => omega
      | succ fuel =>
          have hset := h.set hpage 0
          have hlen := h.length
          have hkeep : ∀ j, page ≠ j → cell (p.set page 0) j = cell p j := by
            intro j hj
            rw [cell_set, if_neg (by omega)]
          have hgo : page + 1 < len (p.set page 0) ∧ 0 < cell (p.set page 0) (page + 1) := by
            rw [hset.len, hkeep _ (by omega)]
            exact ⟨by omega, hpos _ (by omega) (by omega)⟩
          obtain ⟨hsized, hcells⟩ := ih hset fuel (page + 1) (by omega) (by omega) (by omega)
            (by
              intro j hlo hhi
              rw [hkeep j (by omega)]
              exact hpos j (by omega) (by omega))
            (by
              intro hlt
              rw [hkeep _ (by omega)]
              have hle := hstop (by omega)
              rwa [show page + 1 + k + 1 = page + (k + 1) + 1 by omega])
          rw [freeLoop]
          simp only [hgo, and_self, if_true]
          refine ⟨hsized, ?_⟩
          intro j
          rw [hcells]
          by_cases hj : page = j
          · subst hj
            rw [if_neg (by omega), cell_set, if_pos ⟨rfl, by omega⟩, if_pos (by omega)]
          · rw [hkeep j hj]
            by_cases hin : page + 1 ≤ j ∧ j ≤ page + 1 + k
            · rw [if_pos hin, if_pos (by omega)]
            · rw [if_neg hin, if_neg (by omega)]

/-- Freeing the first page of a run clears exactly its cells. -/
theorem pgafree_run (h : Sized p n) {w : Window} {id : Nat} (hrun : IsRun (pages p) n w id) :
    ∃ p', pgafree p w.start = some p' ∧ Sized p' n ∧ pages p' = clear (pages p) w := by
  obtain ⟨hmarked, hend, hstop⟩ := hrun
  have hpos := hmarked.nonempty
  have hfirst : cell p (w.start + 1) < 0 := by
    have := hmarked.first
    rw [pages, ownerMark] at this
    omega
  obtain ⟨hsized, hcells⟩ := freeLoop_spec h (len p) (w.start + 1) (w.len - 1)
    (by rw [h.len]; omega) (Nat.succ_pos _) (by omega)
    (by
      intro j hlo hhi
      have hcell := hmarked.rest (j - (w.start + 1)) (by omega) (by omega)
      rw [pages, show w.start + (j - (w.start + 1)) + 1 = j by omega] at hcell
      rw [hcell]
      omega)
    (by
      intro hlt
      have hle := hstop (by omega)
      rw [pages] at hle
      rwa [show w.start + 1 + (w.len - 1) + 1 = w.start + w.len + 1 by omega])
  refine ⟨freeLoop (len p) p (w.start + 1), ?_, hsized, ?_⟩
  · unfold pgafree
    simp only [Option.bind_eq_bind]
    rw [cAssert_bind (by rw [h.len]; omega), cAssert_bind hfirst]
    rfl
  · ext j
    rw [pages, hcells, clear]
    by_cases hin : w.start ≤ j ∧ j < w.start + w.len
    · rw [if_pos hin, if_pos (by omega)]
    · rw [if_neg hin, if_neg (by omega)]
      rfl

/-- Freeing the first page of a window clears exactly its cells. -/
theorem pgafree_eq (h : Sized p n) {m : Nat} {W : Fin m → Option Window} {i : Fin m}
    {w : Window} (hholds : Holds (pages p) n W) (hi : W i = some w) :
    ∃ p', pgafree p w.start = some p' ∧ Sized p' n ∧ pages p' = clear (pages p) w :=
  pgafree_run h (hholds.isRun_iff.mpr ⟨i, rfl, hi⟩)

end Pgalloc
end Dosemu
