import Mathlib.Tactic

/-!
# The Gregorian calendar

Dates are numbered by the days since the first day of the year 0.  Years in front
of the reform are counted as if there had been none.

Main results:

- Theorem `Date.number_next`: the next day has the next number.
- Theorem `Date.number_injective`: a number belongs to one date.
- Theorem `yearStart_add_droppedBefore`: how many leap years the calendar leaves
  out against one with a leap year every four years.
-/

namespace Calendar

/-! ## Years -/

/-- The leap years. -/
def leap (y : Nat) : Bool :=
  y % 4 = 0 && (y % 100 ≠ 0 || y % 400 = 0)

/-- The centuries that are no leap years, although they are multiples of four. -/
def dropped (y : Nat) : Bool :=
  y % 100 = 0 && y % 400 ≠ 0

theorem dropped_iff {y : Nat} : dropped y = true ↔ y % 100 = 0 ∧ y % 400 ≠ 0 := by
  rw [dropped, Bool.and_eq_true, decide_eq_true_iff, decide_eq_true_iff]

theorem leap_iff {y : Nat} : leap y = true ↔ y % 4 = 0 ∧ dropped y = false := by
  rw [leap, Bool.and_eq_true, decide_eq_true_iff, Bool.or_eq_true, decide_eq_true_iff,
    decide_eq_true_iff, ← Bool.not_eq_true, dropped_iff]
  omega

theorem leap_of_dropped {y : Nat} (hy : dropped y = true) : leap y = false := by
  rw [← Bool.not_eq_true, leap_iff, hy]
  exact fun h => Bool.noConfusion h.2

def yearLength (y : Nat) : Nat :=
  if leap y then 366 else 365

/-- The days in front of a year. -/
def yearStart : Nat → Nat
  | 0 => 0
  | y + 1 => yearStart y + yearLength y

/-- The years in front of a year that are left out as leap years. -/
def droppedBefore : Nat → Nat
  | 0 => 0
  | y + 1 => droppedBefore y + (dropped y).toNat

theorem yearStart_mono : Monotone yearStart :=
  monotone_nat_of_le_succ fun _ => Nat.le_add_right _ _

theorem droppedBefore_mono : Monotone droppedBefore :=
  monotone_nat_of_le_succ fun _ => Nat.le_add_right _ _

/-- With the years that are left out, every fourth year is a leap year. -/
theorem yearStart_add_droppedBefore (y : Nat) :
    yearStart y + droppedBefore y = 365 * y + (y + 3) / 4 := by
  induction y with
  | zero => rfl
  | succ y ih =>
      rw [yearStart, droppedBefore, yearLength]
      cases hleap : leap y with
      | true =>
          obtain ⟨hfour, hdropped⟩ := leap_iff.mp hleap
          rw [hdropped, if_pos rfl, Bool.toNat_false]
          omega
      | false =>
          rw [if_neg Bool.false_ne_true]
          cases hdropped : dropped y with
          | true =>
              have hcentury := dropped_iff.mp hdropped
              rw [Bool.toNat_true]
              omega
          | false =>
              have hfour : y % 4 ≠ 0 := by
                intro hfour
                rw [leap_iff.mpr ⟨hfour, hdropped⟩] at hleap
                cases hleap
              rw [Bool.toNat_false]
              omega

/-! ## Months -/

def monthLength (leap : Bool) : Nat → Nat
  | 1 | 3 | 5 | 7 | 8 | 10 | 12 => 31
  | 4 | 6 | 9 | 11 => 30
  | 2 => if leap then 29 else 28
  | _ => 0

theorem monthLength_le (l : Bool) (m : Nat) : monthLength l m ≤ 31 := by
  rw [monthLength.eq_def]
  split <;> first | decide | (split <;> decide)

/-- The days of a year in front of a month. -/
def monthStart (leap : Bool) : Nat → Nat
  | 0 => 0
  | m + 1 => monthStart leap m + monthLength leap m

theorem monthStart_mono (leap : Bool) : Monotone (monthStart leap) :=
  monotone_nat_of_le_succ fun _ => Nat.le_add_right _ _

/-- The months make up the year. -/
theorem monthStart_end (y : Nat) : monthStart (leap y) 13 = yearLength y := by
  rw [yearLength]
  cases leap y <;> rfl

/-! ## Dates -/

structure Date where
  year : Nat
  month : Nat
  day : Nat
  deriving DecidableEq

namespace Date

/-- The date is one of the calendar. -/
structure Valid (d : Date) : Prop where
  month_pos : 1 ≤ d.month
  month_le : d.month ≤ 12
  day_pos : 1 ≤ d.day
  day_le : d.day ≤ monthLength (leap d.year) d.month

/-- The day of the year, from 0 on. -/
def yday (d : Date) : Nat :=
  monthStart (leap d.year) d.month + (d.day - 1)

/-- The number of the day. -/
def number (d : Date) : Nat :=
  yearStart d.year + d.yday

/-- The next day. -/
def next (d : Date) : Date :=
  if d.day < monthLength (leap d.year) d.month then { d with day := d.day + 1 }
  else if d.month < 12 then { d with month := d.month + 1, day := 1 }
  else { year := d.year + 1, month := 1, day := 1 }

variable {d d' : Date}

theorem Valid.yday_lt_month (h : d.Valid) : d.yday < monthStart (leap d.year) (d.month + 1) := by
  have hpos := h.day_pos
  have hle := h.day_le
  rw [yday, monthStart]
  omega

theorem Valid.yday_lt (h : d.Valid) : d.yday < yearLength d.year := by
  rw [← monthStart_end]
  exact h.yday_lt_month.trans_le (monthStart_mono _ (Nat.succ_le_succ h.month_le))

theorem Valid.number_lt (h : d.Valid) : d.number < yearStart (d.year + 1) :=
  Nat.add_lt_add_left h.yday_lt _

theorem yearStart_le_number : yearStart d.year ≤ d.number :=
  Nat.le_add_right _ _

/-- A number lies in one of the blocks that a monotone function makes. -/
theorem block_unique {f : Nat → Nat} (hf : Monotone f) {a b n : Nat} (ha : f a ≤ n)
    (ha' : n < f (a + 1)) (hb : f b ≤ n) (hb' : n < f (b + 1)) : a = b := by
  rcases Nat.lt_trichotomy a b with h | h | h
  · exact absurd (hf (Nat.succ_le_of_lt h)) (not_le.mpr (hb.trans_lt ha'))
  · exact h
  · exact absurd (hf (Nat.succ_le_of_lt h)) (not_le.mpr (ha.trans_lt hb'))

/-- A day that is not later is not in a later year. -/
theorem year_le_of_number_le (h' : d'.Valid) (hle : d.number ≤ d'.number) : d.year ≤ d'.year := by
  by_contra hlt
  have hstart := yearStart_mono (Nat.succ_le_of_lt (not_le.mp hlt))
  exact absurd (h'.number_lt.trans_le hstart) (not_lt.mpr (yearStart_le_number.trans hle))

/-- A number belongs to one date. -/
theorem number_injective (h : d.Valid) (h' : d'.Valid) (heq : d.number = d'.number) : d = d' := by
  have hyear : d.year = d'.year :=
    block_unique yearStart_mono yearStart_le_number h.number_lt (heq ▸ yearStart_le_number)
      (heq ▸ h'.number_lt)
  have hyday : d.yday = d'.yday := by
    rw [number, number, hyear] at heq
    omega
  have hmonth : d.month = d'.month := by
    have hstart : monthStart (leap d.year) d'.month ≤ d.yday := by
      rw [hyday, hyear]
      exact Nat.le_add_right _ _
    have hend : d.yday < monthStart (leap d.year) (d'.month + 1) := by
      rw [hyday, hyear]
      exact h'.yday_lt_month
    exact block_unique (monthStart_mono _) (Nat.le_add_right _ _) h.yday_lt_month hstart hend
  have hpos := h.day_pos
  have hpos' := h'.day_pos
  have hday : d.day = d'.day := by
    rw [yday, yday, hyear, hmonth] at hyday
    omega
  cases d
  cases d'
  dsimp only at hyear hmonth hday
  rw [hyear, hmonth, hday]

theorem next_of_lt (h : d.day < monthLength (leap d.year) d.month) :
    d.next = { d with day := d.day + 1 } :=
  if_pos h

theorem next_of_month (h : ¬d.day < monthLength (leap d.year) d.month) (hmonth : d.month < 12) :
    d.next = { d with month := d.month + 1, day := 1 } := by
  rw [next, if_neg h, if_pos hmonth]

theorem next_of_year (h : ¬d.day < monthLength (leap d.year) d.month) (hmonth : ¬d.month < 12) :
    d.next = { year := d.year + 1, month := 1, day := 1 } := by
  rw [next, if_neg h, if_neg hmonth]

theorem monthLength_pos {m : Nat} (l : Bool) (hpos : 1 ≤ m) (hle : m ≤ 12) :
    1 ≤ monthLength l m := by
  interval_cases m <;> cases l <;> decide

theorem next_valid (h : d.Valid) : d.next.Valid := by
  rw [next]
  split
  next hday => exact ⟨h.month_pos, h.month_le, Nat.succ_pos _, hday⟩
  next =>
    split
    next hmonth =>
      exact ⟨Nat.succ_pos _, hmonth, le_rfl, monthLength_pos _ (Nat.succ_pos _) hmonth⟩
    next =>
      have hle : 1 ≤ 12 := by decide
      exact ⟨le_rfl, hle, le_rfl, monthLength_pos _ le_rfl hle⟩

/-- The next day has the next number. -/
theorem number_next (h : d.Valid) : d.next.number = d.number + 1 := by
  have hpos := h.day_pos
  have hle := h.day_le
  rw [next, number, number]
  split
  · dsimp only [yday]
    omega
  · split
    · dsimp only [yday, monthStart]
      omega
    next hday hmonth =>
      have hend := monthStart_end d.year
      have hmonth' : d.month = 12 := le_antisymm h.month_le (not_lt.mp hmonth)
      rw [hmonth'] at hle hday
      rw [monthStart] at hend
      dsimp only [yday, yearStart]
      rw [hmonth', ← hend, show monthStart (leap (d.year + 1)) 1 = 0 from rfl]
      omega

end Date

-- the days in front of a given year are not to be counted out
attribute [irreducible] yearStart droppedBefore

end Calendar
