import Dosemu.Lib.Run
import Dosemu.Pgalloc.Runs

/-!
# Runs of calls of the page allocator

What the calls of a pool do to the set of runs its array encodes, over every
sequence of calls.  A resize never meets its contract where it does resize: the
page it returns is counted from the header cell, the page of an allocation from
the first page; and a run that ends with the pool fails its assertions.

Main results:

- Theorems `findFree_pos_iff` and `le_pgaavailLargest_iff`: the search succeeds
  exactly up to the longest free run.
- Theorem `pgaresize_cases`: what a resize does, with all the ways it stops.
- Theorem `pgarmap_run`: the run and the offset of a page.
- Theorem `pool_ok_of_run`: the array stays in order over every run of calls.
- Theorem `pool_calls_iff`: every call of a run of calls does what it should, if
  and only if each resize is refused for want of room.
-/

namespace Dosemu
namespace Pgalloc

open Run RunMarks

variable {p : Pool} {n : Nat}

/-! ## Free runs -/

/-- There are `k` free pages in a row. -/
def HasRoom (p : Pool) (n k : Nat) : Prop :=
  ∃ j, j + k ≤ n ∧ ∀ i, j ≤ i → i < j + k → pages p i = 0

/-- The same of the cells from `i` on, header included. -/
def RoomFrom (p : Pool) (i k : Nat) : Prop :=
  ∃ j, i ≤ j ∧ j + k ≤ len p ∧ ∀ x, j ≤ x → x < j + k → cell p x = 0

theorem roomFrom_one_iff (h : Sized p n) {k : Nat} : RoomFrom p 1 k ↔ HasRoom p n k := by
  constructor
  · rintro ⟨j, hj, hend, hfree⟩
    rw [h.len] at hend
    exact ⟨j - 1, by omega, fun i hlo hhi => hfree (i + 1) (by omega) (by omega)⟩
  · rintro ⟨j, hend, hfree⟩
    refine ⟨j + 1, by omega, by rw [h.len]; omega, ?_⟩
    intro x hlo hhi
    have hcell := hfree (x - 1) (by omega) (by omega)
    rwa [pages, Nat.sub_add_cancel (by omega)] at hcell

/-- A run that starts behind a cell that is not free starts after it. -/
theorem RoomFrom.skip {i e k : Nat} (h : RoomFrom p i k)
    (hstop : len p ≤ e ∨ cell p e ≠ 0) (hshort : e < i + k) : RoomFrom p (e + 1) k := by
  obtain ⟨j, hj, hend, hfree⟩ := h
  refine ⟨j, ?_, hend, hfree⟩
  by_contra hlt
  rcases hstop with hlen | hcell
  · omega
  · exact hcell (hfree e (by omega) (by omega))

/-- What the inner loop reports when the run is too short. -/
theorem freeRun_false {npages i fuel j e : Nat} (hfuel : len p < fuel + j) (hij : i < j)
    (hshort : j < i + npages) (hrun : freeRun p npages i fuel j = (false, e)) :
    j ≤ e ∧ e < i + npages ∧ (len p ≤ e ∨ cell p e ≠ 0) := by
  induction fuel generalizing j with
  | zero =>
      cases hrun
      exact ⟨le_rfl, hshort, .inl (by omega)⟩
  | succ fuel ih =>
      rw [freeRun] at hrun
      split at hrun
      next hcell =>
        split at hrun
        next => cases hrun
        next hlen =>
          obtain ⟨hle, hlt, hstop⟩ := ih (by omega) (by omega) (by omega) hrun
          exact ⟨by omega, hlt, hstop⟩
      next hcell =>
        cases hrun
        refine ⟨le_rfl, hshort, ?_⟩
        by_cases hlen : len p ≤ e
        · exact .inl hlen
        · exact .inr fun hzero => hcell ⟨by omega, hzero⟩

/-- The search passes no run that is long enough. -/
theorem findFreeFrom_pos {npages fuel i : Nat} (hi : 0 < i) (hpos : 0 < npages)
    (hfuel : len p < fuel + i) (hroom : RoomFrom p i npages) :
    0 < findFreeFrom p npages fuel i := by
  induction fuel generalizing i with
  | zero =>
      obtain ⟨j, hj, hend, -⟩ := hroom
      omega
  | succ fuel ih =>
      have hbound : i ≤ len p - npages := by
        obtain ⟨j, hj, hend, -⟩ := hroom
        omega
      rw [findFreeFrom, if_pos hbound]
      by_cases hcell : cell p i = 0
      · rw [if_pos hcell]
        by_cases hone : npages = 1
        · rw [if_pos hone]
          omega
        · rw [if_neg hone]
          cases hrun : freeRun p npages i (len p) (i + 1) with
          | mk found e =>
              cases found with
              | true =>
                  simp only
                  omega
              | false =>
                  obtain ⟨hle, hlt, hstop⟩ :=
                    freeRun_false (by omega) (Nat.lt_succ_self i) (by omega) hrun
                  exact ih (Nat.succ_pos e) (by omega) (hroom.skip hstop hlt)
      · rw [if_neg hcell]
        exact ih (Nat.succ_pos i) (by omega) (hroom.skip (.inr hcell) (by omega))

/-- The search succeeds exactly where there is room. -/
theorem findFree_pos_iff (h : Sized p n) {npages : Nat} (hpos : 0 < npages) :
    0 < findFree p npages ↔ HasRoom p n npages := by
  constructor
  · intro hfound
    obtain ⟨j, -, -, hend, hfree⟩ := findFree_spec h hfound
    exact ⟨j, hend, fun i hlo hhi => hfree i ⟨hlo, hhi⟩⟩
  · intro hroom
    have hfrom := (roomFrom_one_iff h).mpr hroom
    have hle : ¬len p < npages := by
      obtain ⟨j, -, hend, -⟩ := hfrom
      omega
    rw [findFree, if_neg hle]
    exact findFreeFrom_pos Nat.one_pos hpos (Nat.lt_succ_self _) hfrom

/-- The inner loop ends at the first cell that is not free. -/
theorem freeEnd_spec {fuel j : Nat} (hfuel : len p < fuel + j) (hj : j ≤ len p) :
    j ≤ freeEnd p fuel j ∧ freeEnd p fuel j ≤ len p ∧
      (∀ x, j ≤ x → x < freeEnd p fuel j → cell p x = 0) ∧
      (len p ≤ freeEnd p fuel j ∨ cell p (freeEnd p fuel j) ≠ 0) := by
  induction fuel generalizing j with
  | zero => omega
  | succ fuel ih =>
      rw [freeEnd]
      split
      next hcell =>
        obtain ⟨hle, hlen, hfree, hstop⟩ := ih (j := j + 1) (by omega) (by omega)
        refine ⟨by omega, hlen, ?_, hstop⟩
        intro x hlo hhi
        rcases Nat.eq_or_lt_of_le hlo with heq | hlt
        · rw [← heq]
          exact hcell.2
        · exact hfree x hlt hhi
      next hcell =>
        refine ⟨le_rfl, hj, fun x hlo hhi => by omega, ?_⟩
        by_cases hlen : len p ≤ j
        · exact .inl hlen
        · exact .inr fun hzero => hcell ⟨by omega, hzero⟩

/-- The outer loop keeps the longest run, of those before and those from `i` on. -/
theorem le_availFrom_iff {fuel i max k : Nat} (hk : 0 < k) (hfuel : len p < fuel + i) :
    k ≤ availFrom p fuel i max ↔ k ≤ max ∨ RoomFrom p i k := by
  induction fuel generalizing i max with
  | zero =>
      have hnone : ¬RoomFrom p i k := by
        rintro ⟨j, hj, hend, -⟩
        omega
      rw [availFrom, or_iff_left hnone]
  | succ fuel ih =>
      rw [availFrom]
      by_cases hi : i < len p
      · rw [if_pos hi]
        by_cases hcell : cell p i = 0
        · rw [if_pos hcell]
          obtain ⟨hle, hlen, hfree, hstop⟩ :=
            @freeEnd_spec p (len p) (i + 1) (by omega) (by omega)
          simp only
          generalize freeEnd p (len p) (i + 1) = e at *
          rw [ih (by omega)]
          -- A run from `i` on lies within the free cells before `e`, or after `e`.
          have hsplit : RoomFrom p i k ↔ k ≤ e - i ∨ RoomFrom p (e + 1) k := by
            constructor
            · intro hroom
              by_cases hshort : e < i + k
              · exact .inr (hroom.skip hstop hshort)
              · exact .inl (by omega)
            · rintro (hlong | ⟨j, hj, hend, hcells⟩)
              · refine ⟨i, le_rfl, by omega, ?_⟩
                intro x hlo hhi
                rcases Nat.eq_or_lt_of_le hlo with heq | hlt
                · rw [← heq]
                  exact hcell
                · exact hfree x hlt (by omega)
              · exact ⟨j, by omega, hend, hcells⟩
          have hmax : k ≤ (if max < e - i then e - i else max) ↔ k ≤ max ∨ k ≤ e - i := by
            split <;> omega
          rw [hsplit, hmax, or_assoc]
        · rw [if_neg hcell, ih (by omega)]
          have hskip : RoomFrom p (i + 1) k ↔ RoomFrom p i k := by
            constructor
            · rintro ⟨j, hj, hrest⟩
              exact ⟨j, by omega, hrest⟩
            · intro hroom
              exact hroom.skip (.inr hcell) (by omega)
          rw [hskip]
      · have hnone : ¬RoomFrom p i k := by
          rintro ⟨j, hj, hend, -⟩
          omega
        rw [if_neg hi, or_iff_left hnone]

/-- `pgaavail_largest` is the length of the longest free run. -/
theorem le_pgaavailLargest_iff (h : Sized p n) {k : Nat} (hk : 0 < k) :
    k ≤ pgaavailLargest p ↔ HasRoom p n k := by
  rw [pgaavailLargest, le_availFrom_iff hk (Nat.lt_succ_self _), roomFrom_one_iff h,
    or_iff_right (by omega)]

/-! ## Resize -/

/-- The expansion finds every page free. -/
theorem expandable_eq_true {i k : Nat} :
    expandable p i k = some true ↔ ∀ x, i ≤ x → x < i + k → x < p.length ∧ cell p x = 0 := by
  induction k generalizing i with
  | zero =>
      simp only [expandable, true_iff]
      intro x hlo hhi
      omega
  | succ k ih =>
      rw [expandable]
      by_cases hlen : i < p.length
      · rw [if_pos hlen]
        by_cases hcell : cell p i = 0
        · rw [if_neg (not_not.mpr hcell), ih]
          constructor
          · intro hrest x hlo hhi
            rcases Nat.eq_or_lt_of_le hlo with heq | hlt
            · rw [← heq]
              exact ⟨hlen, hcell⟩
            · exact hrest x hlt (by omega)
          · intro hall x hlo hhi
            exact hall x (by omega) (by omega)
        · rw [if_pos hcell]
          refine iff_of_false (fun h => by cases h) ?_
          intro hall
          exact hcell (hall i le_rfl (by omega)).2
      · rw [if_neg hlen]
        refine iff_of_false (fun h => by cases h) ?_
        intro hall
        exact hlen (hall i le_rfl (by omega)).1

/-- The expansion meets an allocated page before the array ends. -/
theorem expandable_eq_false {i k : Nat} :
    expandable p i k = some false ↔ ∃ x, i ≤ x ∧ x < i + k ∧ x < p.length ∧ cell p x ≠ 0 := by
  induction k generalizing i with
  | zero =>
      simp only [expandable, Option.some.injEq, Bool.true_eq_false, false_iff]
      rintro ⟨x, hlo, hhi, -⟩
      omega
  | succ k ih =>
      rw [expandable]
      by_cases hlen : i < p.length
      · rw [if_pos hlen]
        by_cases hcell : cell p i = 0
        · rw [if_neg (not_not.mpr hcell), ih]
          constructor
          · rintro ⟨x, hlo, hhi, hrest⟩
            exact ⟨x, by omega, by omega, hrest⟩
          · rintro ⟨x, hlo, hhi, hrest⟩
            refine ⟨x, ?_, by omega, hrest⟩
            rcases Nat.eq_or_lt_of_le hlo with heq | hlt
            · rw [← heq] at hrest
              exact absurd hcell hrest.2
            · exact hlt
        · rw [if_pos hcell]
          exact iff_of_true rfl ⟨i, le_rfl, by omega, hlen, hcell⟩
      · rw [if_neg hlen]
        refine iff_of_false (fun h => by cases h) ?_
        rintro ⟨x, hlo, -, hx, -⟩
        omega

/-- The pool has the pages for a run of `new` pages in place of one of `old`. -/
def Fitting (p : Pool) (n page old new : Nat) : Prop :=
  page + new ≤ n ∧ ∀ x, page + old ≤ x → x < page + new → pages p x = 0

/-- A resize to more pages that ends at an allocated one, where both runs stop short of the
last page. -/
def Refused (p : Pool) (n page old new : Nat) : Prop :=
  page + old < n ∧ MachineInt.uwrap 32 (page + 1 + new : Nat) ≤ n ∧ old < new ∧
    ∃ x, page + old ≤ x ∧ x < page + new ∧ x < n ∧ pages p x ≠ 0

theorem Refused.not_fitting {page old new : Nat} (h : Refused p n page old new) :
    ¬Fitting p n page old new := by
  obtain ⟨-, -, -, x, hlo, hhi, -, hne⟩ := h
  intro hfit
  exact hne (hfit.2 x hlo hhi)

/-- A refused resize returns -1 and changes nothing. -/
theorem pgaresize_refused (h : Sized p n) (hn : n + 1 < 2 ^ 31) {page old new id : Nat}
    (hrun : IsRun (pages p) n ⟨page, old⟩ id) (href : Refused p n page old new) :
    pgaresize p page old new = some (-1, p) := by
  obtain ⟨hold, hnew, hlt, x, hlo, hhi, hxn, hne⟩ := href
  have hfirst : cell p (page + 1) < 0 := by
    have hcell : pages p page = ownerMark id := hrun.1.first
    rw [pages, ownerMark] at hcell
    omega
  have hblock : expandable p (page + 1 + old) (new - old) = some false := by
    rw [expandable_eq_false]
    refine ⟨x + 1, by omega, by omega, ?_, hne⟩
    rw [h.length]
    omega
  have holdPages : MachineInt.uwrap 32 (page + 1 + old : Nat) < n + 1 := by
    rw [MachineInt.uwrap_natCast (by omega)]
    omega
  unfold pgaresize
  simp only [Option.bind_eq_bind, h.len]
  rw [cAssert_bind holdPages, cAssert_bind (Nat.lt_succ_of_le hnew), cAssert_bind hfirst,
    if_neg (Nat.not_le.mpr hlt), hblock]
  rfl

/-- A resize is refused, or makes the run as long as asked and returns its page counted from
the header, or does not return. -/
theorem pgaresize_cases (h : Sized p n) (hn : n + 1 < 2 ^ 31)
    {page old id : Nat} (hrun : IsRun (pages p) n ⟨page, old⟩ id) (new : Nat) :
    pgaresize p page old new = none ∨
      (pgaresize p page old new = some (-1, p) ∧ Refused p n page old new) ∨
      ∃ p', pgaresize p page old new = some (((page + 1 : Nat) : Int), p') ∧
        Fitting p n page old new ∧ Sized p' n ∧
        pages p' = resize (pages p) ⟨page, old⟩ id new := by
  have hmarks := hrun.resize_apply new
  simp only at hmarks
  have hcells : ∀ x, cell p (x + 1) = pages p x := fun _ => rfl
  have hend : page + old ≤ n := hrun.2.1
  have hold : MachineInt.uwrap 32 (page + 1 + old : Nat) = page + 1 + old :=
    MachineInt.uwrap_natCast (by omega)
  by_cases hlast : MachineInt.uwrap 32 (page + 1 + old : Nat) < n + 1
  swap
  · left
    unfold pgaresize
    simp only [Option.bind_eq_bind, h.len]
    rw [cAssert_bind_false hlast]
  by_cases hnew : MachineInt.uwrap 32 (page + 1 + new : Nat) < n + 1
  swap
  · left
    unfold pgaresize
    simp only [Option.bind_eq_bind, h.len]
    rw [cAssert_bind hlast, cAssert_bind_false hnew]
  have hfirst : cell p (page + 1) < 0 := by
    have hcell : pages p page = ownerMark id := hrun.1.first
    rw [pages, ownerMark] at hcell
    omega
  have hroom : page + old < n := by
    rw [hold] at hlast
    omega
  have hgo : pgaresize p page old new =
      if new ≤ old then
        some (((page + 1 : Nat) : Int), resetLoop p (page + 1 + new) (old - new))
      else (expandable p (page + 1 + old) (new - old)).bind fun b =>
        if b then some (((page + 1 : Nat) : Int),
          numberPages p (page + 1) (page + 1 + old) (new - old))
        else some (-1, p) := by
    unfold pgaresize
    simp only [Option.bind_eq_bind, h.len]
    rw [cAssert_bind hlast, cAssert_bind hnew, cAssert_bind hfirst]
    rfl
  rw [hgo]
  by_cases hshrink : new ≤ old
  · right
    right
    obtain ⟨hsized, hset⟩ := resetLoop_spec h (old - new) (show 0 < page + 1 + new by omega)
    refine ⟨_, if_pos hshrink, ⟨by omega, fun x hlo hhi => by omega⟩, hsized, ?_⟩
    ext x
    rw [pages, hset, hmarks, hcells]
    by_cases hin : page + new ≤ x ∧ x < page + old
    · rw [if_pos (by omega), if_pos hin]
    · rw [if_neg (by omega), if_neg hin, if_neg (by omega)]
  · rw [if_neg hshrink]
    cases hexpand : expandable p (page + 1 + old) (new - old) with
    | none => exact .inl rfl
    | some b =>
        right
        cases b with
        | false =>
            left
            obtain ⟨x, hlo, hhi, hlen, hne⟩ := expandable_eq_false.mp hexpand
            rw [h.length] at hlen
            refine ⟨rfl, by omega, by omega, by omega, x - 1, by omega, by omega, by omega, ?_⟩
            rwa [pages, Nat.sub_add_cancel (by omega)]
        | true =>
            right
            have hfree := expandable_eq_true.mp hexpand
            rw [h.length] at hfree
            have hfit : page + new ≤ n := by
              have hlastCell := (hfree (page + new) (by omega) (by omega)).1
              omega
            obtain ⟨hsized, hset⟩ := numberPages_spec h (new - old)
              (show 0 < page + 1 + old by omega)
              (show page + 1 < page + 1 + old by have := hrun.1.nonempty; simp only at this; omega)
              (by omega)
            refine ⟨_, rfl, ⟨hfit, ?_⟩, hsized, ?_⟩
            · intro x hlo hhi
              exact (hfree (x + 1) (by omega) (by omega)).2
            · ext x
              rw [pages, hset, hmarks, hcells,
                if_neg (show ¬(page + new ≤ x ∧ x < page + old) by omega)]
              by_cases hin : page + old ≤ x ∧ x < page + new
              · rw [if_pos (by omega), if_pos hin]
                congr 1
                omega
              · rw [if_neg (by omega), if_neg hin]

/-! ## The run of a page -/

theorem pgarmap_free (h : Sized p n) {j : Nat} (hj : j < n) (hfree : pages p j = 0) :
    pgarmap p j = some { id := -1, pgoff := -1 } := by
  rw [pages] at hfree
  unfold pgarmap
  simp only [Option.bind_eq_bind, h.len]
  rw [cAssert_bind (by omega), if_pos hfree]
  rfl

/-- A page of a run is mapped to the owner and to its distance from the first page. -/
theorem pgarmap_run (h : Sized p n) {w : Window} {id j : Nat} (hrun : IsRun (pages p) n w id)
    (hj : w.Mem j) : pgarmap p j = some { id := id, pgoff := (j - w.start : Nat) } := by
  have hend := hrun.2.1
  have hlt : j + 1 < n + 1 := by
    have := hj.2
    omega
  have hne : cell p (j + 1) ≠ 0 := hrun.1.ne_zero hj
  unfold pgarmap
  simp only [Option.bind_eq_bind, h.len]
  rw [cAssert_bind hlt, if_neg hne]
  have hfirst : cell p (w.start + 1) = ownerMark id := hrun.1.first
  rcases hrun.1.cell hj with ⟨rfl, hcell⟩ | ⟨hstart, hcell⟩
  · have hneg : ¬0 < cell p (w.start + 1) := by
      rw [hfirst, ownerMark]
      omega
    rw [if_neg hneg, hfirst, ownerMark, Nat.sub_self]
    simp only [Option.pure_def, Option.some.injEq, Pgrm.mk.injEq]
    omega
  · rw [pages] at hcell
    have hback : j + 1 - (cell p (j + 1)).toNat = w.start + 1 := by
      rw [hcell, Int.toNat_natCast]
      omega
    have hpos : 0 < cell p (j + 1) := by
      rw [hcell]
      omega
    simp only [hback]
    rw [if_pos hpos, cAssert_bind ⟨Nat.succ_pos _, by rw [hfirst, ownerMark]; omega⟩, hfirst,
      ownerMark, hcell]
    simp only [Option.pure_def, Option.some.injEq, Pgrm.mk.injEq, and_true]
    omega

/-! ## Calls -/

/-- The calls of a client.  An owner is an `unsigned` whose mark must be negative. -/
inductive PoolCall
  | alloc (npages : Nat) (id : Fin (2 ^ 31))
  | free (page : Nat)
  | resize (page oldpages newpages : Nat)
  | reset

/-- A call and its result, 0 where it returns none. -/
def poolCall (p : Pool) : PoolCall → Option (Int × Pool)
  | .alloc npages id => some (pgaalloc p npages id)
  | .free page => (pgafree p page).map fun p => (0, p)
  | .resize page oldpages newpages => pgaresize p page oldpages newpages
  | .reset => some (0, pgareset p)

/-- The pool after a call. -/
def poolStep (p : Pool) (c : PoolCall) : Option Pool :=
  (poolCall p c).map Prod.snd

/-- What a client keeps to: it asks for at least one page, and it frees and resizes runs it
has. -/
def Fair (n : Nat) (p : Pool) : PoolCall → Prop
  | .alloc npages _ => 0 < npages
  | .free page => ∃ r ∈ runs (pages p) n, r.1.start = page
  | .resize page oldpages _ => ∃ id, (⟨page, oldpages⟩, id) ∈ runs (pages p) n
  | .reset => True

/-- What a call is to do to the runs of the pool and to return. -/
def Effect (n : Nat) (p : Pool) : PoolCall → Int → Pool → Prop
  | .alloc npages id, r, p' =>
      (0 ≤ r ↔ npages ≤ pgaavailLargest p) ∧
        ((r < 0 ∧ p' = p) ∨
          ∃ page : Nat, r = page ∧ page + npages ≤ n ∧
            (∀ j, page ≤ j → j < page + npages → pages p j = 0) ∧
            runs (pages p') n = insert (⟨page, npages⟩, id.val) (runs (pages p) n))
  | .free page, _, p' =>
      ∀ w id, (w, id) ∈ runs (pages p) n → w.start = page →
        runs (pages p') n = runs (pages p) n \ {(w, id)}
  | .resize page oldpages newpages, r, p' =>
      (r < 0 ∧ p' = p ∧ ¬Fitting p n page oldpages newpages) ∨
        (r = page ∧ Fitting p n page oldpages newpages ∧
          ∀ id, (⟨page, oldpages⟩, id) ∈ runs (pages p) n →
            runs (pages p') n =
              if newpages = 0 then runs (pages p) n \ {(⟨page, oldpages⟩, id)}
              else insert (⟨page, newpages⟩, id) (runs (pages p) n \ {(⟨page, oldpages⟩, id)}))
  | .reset, _, p' => runs (pages p') n = ∅

/-- The array encodes disjoint runs, which `pgarmap` finds from their pages. -/
structure PoolOk (n : Nat) (p : Pool) : Prop where
  encoded : Encoded (pages p) n
  disjoint : ∀ r ∈ runs (pages p) n, ∀ q ∈ runs (pages p) n, ∀ j,
    r.1.Mem j → q.1.Mem j → r = q
  rmap : ∀ r ∈ runs (pages p) n, ∀ j, r.1.Mem j →
    pgarmap p j = some { id := r.2, pgoff := (j - r.1.start : Nat) }
  rmap_free : ∀ j, j < n → pages p j = 0 → pgarmap p j = some { id := -1, pgoff := -1 }

/-- The call returns, does what it should, and leaves the array in order. -/
def Served (n : Nat) (p : Pool) (c : PoolCall) : Prop :=
  ∃ r p', poolCall p c = some (r, p') ∧ PoolOk n p' ∧ Effect n p c r p'

/-- Every resize is refused for want of room. -/
def Unresized (n : Nat) (p : Pool) : PoolCall → Prop
  | .resize page oldpages newpages => Refused p n page oldpages newpages
  | _ => True

/-- The pool of a run of calls. -/
structure PoolInv (n : Nat) (p : Pool) : Prop where
  sized : Sized p n
  encoded : Encoded (pages p) n

theorem PoolInv.ok (h : PoolInv n p) : PoolOk n p where
  encoded := h.encoded
  disjoint := by
    rintro ⟨w, id⟩ hw ⟨v, k⟩ hv j hj hj'
    obtain ⟨rfl, rfl⟩ := IsRun.unique hw hv hj hj'
    rfl
  rmap := fun _ hr _ hj => pgarmap_run h.sized hr hj
  rmap_free := fun _ hj hfree => pgarmap_free h.sized hj hfree

theorem poolInv_pgainit (n : Nat) : PoolInv n (pgainit n) :=
  ⟨sized_pgainit n, (encoded_of_zero fun j _ => pages_pgainit n j).1⟩

/-- An allocation, in terms of the runs. -/
theorem alloc_effect (h : PoolInv n p) {npages : Nat} (hpos : 0 < npages) (id : Fin (2 ^ 31)) :
    ∃ r p', pgaalloc p npages id = (r, p') ∧ PoolInv n p' ∧ Effect n p (.alloc npages id) r p' := by
  have hroom := le_pgaavailLargest_iff h.sized hpos
  rcases pgaalloc_cases h.sized npages id with
    ⟨hneg, hsame⟩ | ⟨j, p', heq, -, hend, hfree, hsized, hmark⟩
  · refine ⟨_, p, Prod.ext rfl hsame, h, ?_, .inl ⟨hneg, rfl⟩⟩
    refine iff_of_false (not_le.mpr hneg) ?_
    rw [hroom, ← findFree_pos_iff h.sized hpos]
    intro hfound
    unfold pgaalloc at hneg
    simp only [hfound, if_true] at hneg
    omega
  · have hruns := @runs_mark n _ ⟨j, npages⟩ id h.encoded hpos hend hfree
    refine ⟨j, p', heq, ⟨hsized, ?_⟩, ?_, .inr ⟨j, rfl, hend, ?_, ?_⟩⟩
    · rw [hmark]
      exact h.encoded.mark hpos hend hfree
    · refine iff_of_true (by omega) ?_
      rw [hroom]
      exact ⟨j, hend, fun i hlo hhi => hfree i ⟨hlo, hhi⟩⟩
    · exact fun i hlo hhi => hfree i ⟨hlo, hhi⟩
    · rw [hmark, hruns]

/-- A call with the run it resizes refused, if it resizes, is served and keeps the pool in
order. -/
theorem PoolInv.serve (h : PoolInv n p) (hn : n + 1 < 2 ^ 31) {c : PoolCall} (hfair : Fair n p c)
    (hc : Unresized n p c) :
    ∃ r p', poolCall p c = some (r, p') ∧ PoolInv n p' ∧ Effect n p c r p' := by
  cases c with
  | alloc npages id =>
      obtain ⟨r, p', heq, hinv, heffect⟩ := alloc_effect h hfair id
      exact ⟨r, p', congrArg some heq, hinv, heffect⟩
  | free page =>
      obtain ⟨⟨w, id⟩, hrun, rfl⟩ := hfair
      obtain ⟨p', hfree, hsized, hclear⟩ := pgafree_run h.sized hrun
      refine ⟨0, p', by rw [poolCall, hfree]; rfl, ⟨hsized, ?_⟩, ?_⟩
      · rw [hclear]
        exact h.encoded.clear hrun
      · intro v k hv hstart
        have hmem : w.Mem v.start := by
          rw [hstart]
          exact IsRun.mem_start hrun
        obtain ⟨rfl, rfl⟩ := IsRun.unique hv hrun (IsRun.mem_start hv) hmem
        rw [hclear, runs_clear hrun]
  | resize page oldpages newpages =>
      obtain ⟨id, hrun⟩ := hfair
      exact ⟨-1, p, pgaresize_refused h.sized hn hrun hc, h,
        .inl ⟨by omega, rfl, Refused.not_fitting hc⟩⟩
  | reset =>
      obtain ⟨hsized, hzero⟩ := pgareset_spec h.sized
      obtain ⟨hencoded, hruns⟩ := encoded_of_zero hzero
      exact ⟨0, pgareset p, rfl, ⟨hsized, hencoded⟩, hruns⟩

/-- A fair call that returns keeps the pool in order, a resize too. -/
theorem PoolInv.step (h : PoolInv n p) (hn : n + 1 < 2 ^ 31) {c : PoolCall} (hfair : Fair n p c)
    {q : Pool} (hstep : poolStep p c = some q) : PoolInv n q := by
  have hserve : Unresized n p c → PoolInv n q := by
    intro hc
    obtain ⟨r, p', hcall, hinv, -⟩ := h.serve hn hfair hc
    rw [poolStep, hcall] at hstep
    cases hstep
    exact hinv
  cases c with
  | resize page oldpages newpages =>
      obtain ⟨id, hrun⟩ := hfair
      rcases pgaresize_cases h.sized hn hrun newpages with
        hnone | ⟨-, href⟩ | ⟨p', hsome, hfit, hsized, hpages⟩
      · rw [poolStep, poolCall, hnone] at hstep
        cases hstep
      · exact hserve href
      · rw [poolStep, poolCall, hsome] at hstep
        cases hstep
        refine ⟨hsized, ?_⟩
        rw [hpages]
        exact (IsRun.resize h.encoded hrun hfit.1 hfit.2).1
  | _ => exact hserve trivial

/-- Over every run of fair calls that returns, the array encodes disjoint runs. -/
theorem pool_ok_of_run (n : Fin (2 ^ 31 - 1)) {cs : List PoolCall} {q : Pool}
    (hfair : Admits poolStep (fun p c => Fair n p c) (pgainit n) cs)
    (hrun : run poolStep (pgainit n) cs = some q) : PoolOk n q := by
  have hn : n.val + 1 < 2 ^ 31 := by
    have := n.isLt
    omega
  have hinv : PoolInv n q :=
    run_invariant _ (PoolInv n) (fun _ _ _ h hok hstep => PoolInv.step h hn hok hstep)
      (poolInv_pgainit n) hfair hrun
  exact hinv.ok

/-- A fair call is served exactly when it resizes nothing. -/
theorem served_iff (h : PoolInv n p) (hn : n + 1 < 2 ^ 31) {c : PoolCall} (hfair : Fair n p c) :
    Served n p c ↔ Unresized n p c := by
  constructor
  · rintro ⟨r, p', hcall, -, heffect⟩
    cases c with
    | resize page oldpages newpages =>
        obtain ⟨id, hrun⟩ := hfair
        rw [poolCall] at hcall
        rcases pgaresize_cases h.sized hn hrun newpages with
          hnone | ⟨-, href⟩ | ⟨q, hsome, -⟩
        · rw [hnone] at hcall
          cases hcall
        · exact href
        · -- The page is counted from the header.
          rw [hsome] at hcall
          cases hcall
          rcases heffect with ⟨hneg, -⟩ | ⟨hpage, -⟩
          · omega
          · omega
    | _ => trivial
  · intro hc
    obtain ⟨r, p', hcall, hinv, heffect⟩ := h.serve hn hfair hc
    exact ⟨r, p', hcall, hinv.ok, heffect⟩

/-- In a run of fair calls on a new pool, every call is served if and only if every resize
is refused for want of room. -/
theorem pool_calls_iff (n : Fin (2 ^ 31 - 1)) (cs : List PoolCall) :
    PoolOk n (pgainit n) ∧
      (Admits poolStep (fun p c => Fair n p c ∧ Served n p c) (pgainit n) cs ↔
        Admits poolStep (fun p c => Fair n p c ∧ Unresized n p c) (pgainit n) cs) := by
  have hn : n.val + 1 < 2 ^ 31 := by
    have := n.isLt
    omega
  refine ⟨(poolInv_pgainit n).ok, ?_⟩
  apply admits_congr (PoolInv n)
  · rintro p c q h ⟨hfair, -⟩ hstep
    exact h.step hn hfair hstep
  · intro p c h
    exact and_congr_right fun hfair => served_iff h hn hfair
  · exact poolInv_pgainit n

/-- A run that ends with the pool cannot be resized, not even to its own length. -/
theorem resize_at_end_aborts :
    Admits poolStep (fun p c => Fair 1 p c) (pgainit 1) [.alloc 1 0, .resize 0 1 1] ∧
      ¬Admits poolStep (fun p c => Fair 1 p c ∧ Served 1 p c) (pgainit 1)
        [.alloc 1 0, .resize 0 1 1] := by
  have hfirst : poolStep (pgainit 1) (.alloc 1 0) = some [2, -1] := by decide
  have hnone : poolCall [2, -1] (.resize 0 1 1) = none := by decide +kernel
  constructor
  · refine ⟨Nat.one_pos, ?_⟩
    intro p hp
    rw [hfirst] at hp
    cases hp
    have hrun : IsRun (pages [2, -1]) 1 ⟨0, 1⟩ 0 := by
      refine ⟨⟨Nat.one_pos, rfl, ?_⟩, le_rfl, fun hlt => absurd hlt (lt_irrefl 1)⟩
      intro k hk hlt
      exact absurd hlt (Nat.not_lt.mpr hk)
    exact ⟨⟨0, hrun⟩, fun _ _ => trivial⟩
  · rintro ⟨-, hrest⟩
    obtain ⟨⟨-, r, p', hcall, -⟩, -⟩ := hrest [2, -1] hfirst
    rw [hnone] at hcall
    cases hcall

end Pgalloc
end Dosemu
