import Mathlib.Tactic
import Mathlib.Order.Interval.Finset.Nat

/-!
# Maximal runs of a predicate

The runs of consecutive numbers that meet a predicate, found in one pass from
zero on: a run is open while its numbers come in, and closed by the first number
that does not meet the predicate.

Main results:

- Theorem `scan_inv`: what the scan knows at each position.
- Theorem `scan_lists`: if no further number meets the predicate, the closed runs
  and the open one are all maximal runs, in ascending order.
-/

namespace BitRuns

/-- A run: where it begins, and how many numbers it has. -/
abbrev Run := Nat × Nat

/-- The numbers of a run meet the predicate, and the run does not go on at either side. -/
structure IsMaxRun (D : Nat → Bool) (r : Run) : Prop where
  pos : 0 < r.2
  set : ∀ k, k < r.2 → D (r.1 + k) = true
  stop : D (r.1 + r.2) = false
  first : r.1 = 0 ∨ D (r.1 - 1) = false

/-- All maximal runs, in ascending order and each once. -/
structure Lists (D : Nat → Bool) (rs : List Run) : Prop where
  mem_iff : ∀ r, r ∈ rs ↔ IsMaxRun D r
  ascending : rs.Pairwise fun a b => a.1 + a.2 < b.1

/-- The closed runs, and the open one. -/
structure Scan where
  done : List Run
  pending : Option Run
deriving DecidableEq

/-- One number further. -/
def Scan.step (D : Nat → Bool) (s : Scan) (p : Nat) : Scan :=
  if D p then
    match s.pending with
    | none => { s with pending := some (p, 1) }
    | some r => { s with pending := some (r.1, r.2 + 1) }
  else
    match s.pending with
    | none => s
    | some r => { done := s.done ++ [r], pending := none }

/-- The scan of the numbers below `p`. -/
def scan (D : Nat → Bool) : Nat → Scan
  | 0 => { done := [], pending := none }
  | p + 1 => (scan D p).step D p

/-- The runs found so far, the open one last. -/
def Scan.runs (s : Scan) : List Run :=
  s.done ++ s.pending.toList

variable {D : Nat → Bool} {p q : Nat} {r : Run}

theorem scan_succ_open (hp : D p = true) (hnone : (scan D p).pending = none) :
    scan D (p + 1) = { done := (scan D p).done, pending := some (p, 1) } := by
  rw [scan, Scan.step, if_pos hp, hnone]

theorem scan_succ_extend (hp : D p = true) (hsome : (scan D p).pending = some r) :
    scan D (p + 1) = { done := (scan D p).done, pending := some (r.1, r.2 + 1) } := by
  rw [scan, Scan.step, if_pos hp, hsome]

theorem scan_succ_close (hp : D p = false) (hsome : (scan D p).pending = some r) :
    scan D (p + 1) = { done := (scan D p).done ++ [r], pending := none } := by
  rw [scan, Scan.step, hp, hsome]
  rfl

/-- Without an open run, numbers outside of the predicate change nothing. -/
theorem scan_skip (hnone : (scan D p).pending = none) (hle : p ≤ q)
    (hfalse : ∀ k, p ≤ k → k < q → D k = false) : scan D q = scan D p := by
  induction q, hle using Nat.le_induction with
  | base => rfl
  | succ q hle ih =>
      have hsame := ih fun k hlo hhi => hfalse k hlo (Nat.lt_succ_of_lt hhi)
      rw [scan, hsame, Scan.step, hfalse q hle (Nat.lt_succ_self q), hnone]
      rfl

/-- What the scan knows of the numbers below `p`. -/
structure ScanInv (D : Nat → Bool) (p : Nat) (s : Scan) : Prop where
  done : ∀ r, r ∈ s.done ↔ IsMaxRun D r ∧ r.1 + r.2 < p
  ascending : s.done.Pairwise fun a b => a.1 + a.2 < b.1
  idle : s.pending = none → p = 0 ∨ D (p - 1) = false
  pending : ∀ r, s.pending = some r → 0 < r.2 ∧ r.1 + r.2 = p ∧
    (∀ k, k < r.2 → D (r.1 + k) = true) ∧ (r.1 = 0 ∨ D (r.1 - 1) = false)

/-- A closed run ends before an open one begins. -/
theorem ScanInv.before {s : Scan} (h : ScanInv D p s) (hsome : s.pending = some r) :
    ∀ a ∈ s.done, a.1 + a.2 < r.1 := by
  intro a ha
  obtain ⟨hmax, hlt⟩ := (h.done a).mp ha
  obtain ⟨hpos, hend, hset, -⟩ := h.pending r hsome
  by_contra hge
  -- The number that closed `a` would be one of the open run.
  have hstop := hmax.stop
  have hin := hset (a.1 + a.2 - r.1) (by omega)
  rw [Nat.add_sub_cancel' (by omega), hstop] at hin
  cases hin

/-- An open run whose next number is outside of the predicate is a maximal one, and no other
ends there. -/
theorem ScanInv.close_iff {s : Scan} (h : ScanInv D p s) (hp : D p = false)
    (hsome : s.pending = some r) (a : Run) :
    a ∈ s.done ++ [r] ↔ IsMaxRun D a ∧ a.1 + a.2 < p + 1 := by
  obtain ⟨hpos, hend, hset, hfirst⟩ := h.pending r hsome
  have hr : IsMaxRun D r := ⟨hpos, hset, by rw [hend]; exact hp, hfirst⟩
  rw [List.mem_append, List.mem_singleton, h.done]
  constructor
  · rintro (⟨hmax, hlt⟩ | rfl)
    · exact ⟨hmax, by omega⟩
    · exact ⟨hr, by omega⟩
  · rintro ⟨hmax, hlt⟩
    by_cases hlast : a.1 + a.2 < p
    · exact .inl ⟨hmax, hlast⟩
    · right
      have hpos' := hmax.pos
      -- Both end at `p`; neither begins inside of the other.
      have hstart : a.1 = r.1 := by
        rcases Nat.lt_trichotomy a.1 r.1 with hlt' | heq | hgt
        · have hin := hmax.set (r.1 - 1 - a.1) (by omega)
          rw [show a.1 + (r.1 - 1 - a.1) = r.1 - 1 by omega] at hin
          rcases hfirst with hzero | hout
          · omega
          · rw [hout] at hin
            cases hin
        · exact heq
        · have hin := hset (a.1 - 1 - r.1) (by omega)
          rw [show r.1 + (a.1 - 1 - r.1) = a.1 - 1 by omega] at hin
          rcases hmax.first with hzero | hout
          · omega
          · rw [hout] at hin
            cases hin
      exact Prod.ext hstart (by omega)

theorem scan_inv (D : Nat → Bool) (p : Nat) : ScanInv D p (scan D p) := by
  induction p with
  | zero =>
      refine ⟨fun r => ?_, List.Pairwise.nil, fun _ => .inl rfl, fun r hr => by cases hr⟩
      simp [scan]
  | succ p ih =>
      cases hp : D p with
      | true =>
          -- No run ends at `p`.
          have hdone : ∀ r, r ∈ (scan D p).done ↔ IsMaxRun D r ∧ r.1 + r.2 < p + 1 := by
            intro r
            rw [ih.done]
            refine and_congr_right fun hmax => ?_
            have hne : r.1 + r.2 ≠ p := by
              rintro rfl
              rw [hmax.stop] at hp
              cases hp
            omega
          cases hpending : (scan D p).pending with
          | none =>
              rw [scan_succ_open hp hpending]
              refine ⟨hdone, ih.ascending, (fun h => by cases h), ?_⟩
              rintro r ⟨⟩
              refine ⟨Nat.one_pos, rfl, ?_, ih.idle hpending⟩
              intro k hk
              rw [Nat.lt_one_iff.mp hk]
              exact hp
          | some r =>
              rw [scan_succ_extend hp hpending]
              refine ⟨hdone, ih.ascending, (fun h => by cases h), ?_⟩
              rintro _ ⟨⟩
              obtain ⟨hpos, hend, hset, hfirst⟩ := ih.pending r hpending
              refine ⟨Nat.succ_pos _, by simp only; omega, ?_, hfirst⟩
              intro k hk
              rcases Nat.lt_succ_iff_lt_or_eq.mp hk with hlt | heq
              · exact hset k hlt
              · rw [heq, hend]
                exact hp
      | false =>
          cases hpending : (scan D p).pending with
          | none =>
              have hskip := scan_skip hpending (Nat.le_succ p) fun k hlo hhi => by
                rw [show k = p by omega, hp]
              rw [Nat.succ_eq_add_one] at hskip
              rw [hskip]
              refine ⟨fun r => ?_, ih.ascending, fun _ => .inr hp, fun r hr => ?_⟩
              · rw [ih.done]
                refine and_congr_right fun hmax => ?_
                have hpos := hmax.pos
                have hlast := hmax.set (r.2 - 1) (by omega)
                have hidle := ih.idle hpending
                have hne : r.1 + r.2 ≠ p := by
                  rintro rfl
                  rcases hidle with hzero | hout
                  · omega
                  · rw [show r.1 + (r.2 - 1) = r.1 + r.2 - 1 by omega, hout] at hlast
                    cases hlast
                omega
              · rw [hpending] at hr
                cases hr
          | some r =>
              rw [scan_succ_close hp hpending]
              refine ⟨ih.close_iff hp hpending, ?_, fun _ => .inr hp, fun a ha => by cases ha⟩
              rw [List.pairwise_append]
              refine ⟨ih.ascending, List.pairwise_singleton _ r, ?_⟩
              intro a ha b hb
              rw [List.mem_singleton.mp hb]
              exact ih.before hpending a ha

/-- If no further number meets the predicate, the scan has found all maximal runs. -/
theorem scan_lists (hfalse : ∀ q, p ≤ q → D q = false) : Lists D (scan D p).runs := by
  have hinv := scan_inv D p
  have hbelow : ∀ {r}, IsMaxRun D r → r.1 + r.2 < p + 1 := by
    intro r hmax
    have hpos := hmax.pos
    have hlast := hmax.set (r.2 - 1) (by omega)
    by_contra hge
    rw [hfalse _ (by omega)] at hlast
    cases hlast
  have hnext := scan_inv D (p + 1)
  have hruns : (scan D p).runs = (scan D (p + 1)).done := by
    cases hpending : (scan D p).pending with
    | none =>
        have hskip := scan_skip hpending (Nat.le_succ p) fun k hlo hhi => hfalse k hlo
        rw [Nat.succ_eq_add_one] at hskip
        rw [hskip, Scan.runs, hpending, Option.toList_none, List.append_nil]
    | some r =>
        rw [scan_succ_close (hfalse p le_rfl) hpending, Scan.runs, hpending]
        rfl
  rw [hruns]
  exact ⟨fun r => ⟨fun hr => ((hnext.done r).mp hr).1, fun hmax => (hnext.done r).mpr
    ⟨hmax, hbelow hmax⟩⟩, hnext.ascending⟩

/-! ## How many numbers are left -/

/-- The number of those from `p` on, below `n`, that meet the predicate. -/
def left (D : Nat → Bool) (n p : Nat) : Nat :=
  ((Finset.Ico p n).filter fun k => D k = true).card

theorem left_succ {n : Nat} (hp : p < n) :
    left D n p = (if D p then 1 else 0) + left D n (p + 1) := by
  rw [left, ← Finset.insert_Ico_succ_left_eq_Ico hp, Finset.filter_insert]
  split
  · rw [Finset.card_insert_of_notMem (by simp), Nat.add_comm]
    rfl
  · rw [Nat.zero_add]
    rfl

theorem left_eq_zero {n : Nat} : left D n p = 0 ↔ ∀ k, p ≤ k → k < n → D k = false := by
  rw [left, Finset.card_eq_zero, Finset.filter_eq_empty_iff]
  simp only [Finset.mem_Ico, Bool.not_eq_true, and_imp]

/-- Numbers outside of the predicate do not count. -/
theorem left_skip {n : Nat} (hle : p ≤ q) (hq : q ≤ n)
    (hfalse : ∀ k, p ≤ k → k < q → D k = false) : left D n p = left D n q := by
  induction q, hle using Nat.le_induction with
  | base => rfl
  | succ q hle ih =>
      rw [ih (by omega) fun k hlo hhi => hfalse k hlo (Nat.lt_succ_of_lt hhi), left_succ hq,
        hfalse q hle (Nat.lt_succ_self q), if_neg Bool.false_ne_true, Nat.zero_add]

/-- One more number that counts. -/
theorem left_insert {n e : Nat} (hlo : p ≤ e) (hhi : e < n) :
    left (fun k => D k || k == e) n p = left D n p + if D e then 0 else 1 := by
  have hset : (Finset.Ico p n).filter (fun k => (D k || k == e) = true) =
      insert e ((Finset.Ico p n).filter fun k => D k = true) := by
    ext k
    simp only [Finset.mem_filter, Finset.mem_insert, Bool.or_eq_true, beq_iff_eq, Finset.mem_Ico]
    constructor
    · rintro ⟨hk, hD | rfl⟩
      · exact .inr ⟨hk, hD⟩
      · exact .inl rfl
    · rintro (rfl | ⟨hk, hD⟩)
      · exact ⟨⟨hlo, hhi⟩, .inr rfl⟩
      · exact ⟨hk, .inl hD⟩
  rw [left, hset, left]
  cases hD : D e with
  | true => rw [Finset.insert_eq_of_mem (by simp [hD, hlo, hhi])]; rfl
  | false => rw [Finset.card_insert_of_notMem (by simp [hD])]; rfl

end BitRuns
