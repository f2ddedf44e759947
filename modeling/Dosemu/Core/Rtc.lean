import Dosemu.Lib.Calendar

/-!
# The real-time clock

`rtc_update` counts the registers of the clock up once a second, and
`get_linux_ticks` tells DOS how many midnights have passed since it was last
asked.  Both take every fourth year for a leap year.

Main definitions:

- `rtcUpdate`: one second.
- `getLinuxTicks`: the ticks of the day, and the days that have passed.
- `LaterBy`: the registers hold the date and time some seconds later.

Main results:

- Theorem `countDate_next`: the day that follows, where the years agree.
- Theorem `update_laterBy`: one second.
- Theorem `follows_iff`: the seconds for which the registers follow the calendar.
- Theorem `rollovers_iff`: the calls whose answers add up to the days that passed.
- Theorem `calendar_iff`: both.
-/

namespace Dosemu
namespace Core
namespace Rtc

open Calendar

/-! ## The registers -/

/-- The registers of the date and the time in the CMOS memory, which are not in BCD there. -/
structure Clock where
  sec : Nat
  min : Nat
  hour : Nat
  dow : Nat
  dom : Nat
  month : Nat
  year : Nat
  century : Nat

/-- The registers of the clock. -/
structure Cmos where
  clock : Clock
  secAlrm : Nat
  minAlrm : Nat
  hourAlrm : Nat
  statusA : BitVec 8
  statusB : BitVec 8
  statusC : BitVec 8

/-- The clock: its registers, `last_sec` of the alarm, and how often IRQ 8 was asked for. -/
structure State where
  cmos : Cmos
  lastSec : Nat
  irqs : Nat

/-- `++` on a `u_char` -/
def inc (x : Nat) : Nat :=
  (x + 1) % 256

/-- `dpm` -/
def dpm : List Nat :=
  [0, 31, 28, 31, 30, 31, 30, 31, 31, 30, 31, 30, 31]

/-- "Compute days in current month", after a month that is none was made January. -/
def days (month year : Nat) : Nat :=
  dpm.getD month 0 + if year % 4 = 0 ∧ month = 2 then 1 else 0

/-- `M0`, with "Error!" -/
def saneMonth (month : Nat) : Nat :=
  if 12 < month ∨ month < 1 then 1 else month

/-- The change of the year. -/
def countYear (r : Clock) : Clock :=
  if 99 < inc r.year then { r with year := 0, century := inc r.century }
  else { r with year := inc r.year }

/-- The change of the month. -/
def countMonth (r : Clock) : Clock :=
  let month := inc (saneMonth r.month)
  if 12 < month then countYear { r with month := 1 } else { r with month := month }

/-- The change of the date. -/
def countDate (r : Clock) : Clock :=
  if days (saneMonth r.month) r.year < inc r.dom then countMonth { r with dom := 1 }
  else { r with dom := inc r.dom }

/-- "As well as day-of-month, do day-of-week". -/
def countDow (r : Clock) : Clock :=
  { r with dow := if 7 < inc r.dow ∨ inc r.dow < 1 then 1 else inc r.dow }

/-- The change of the day. -/
def countDay (r : Clock) : Clock :=
  countDow (countDate r)

/-- The change of the hour. -/
def countHour (r : Clock) : Clock :=
  if 23 < inc r.hour then countDay { r with hour := 0 } else { r with hour := inc r.hour }

/-- The change of the minute. -/
def countMinute (r : Clock) : Clock :=
  if 59 < inc r.min then countHour { r with min := 0 } else { r with min := inc r.min }

/-- The change of the second. -/
def countSecond (r : Clock) : Clock :=
  if 59 < inc r.sec then countMinute { r with sec := 0 } else { r with sec := inc r.sec }

/-- An interrupt is asked for where `enable` is set in register B and none is pending. -/
def raise (enable : BitVec 8) (s : State) : State :=
  if s.cmos.statusB &&& enable ≠ 0 ∧ s.cmos.statusC &&& 0x80 = 0 then
    { s with cmos.statusC := s.cmos.statusC ||| 0x80, irqs := s.irqs + 1 }
  else s

/-- `rtc_alarm_check`; "all c0-ff are don't care". -/
def alarmCheck (s : State) : State :=
  let r := s.cmos
  let c := r.clock
  if (0xc0 ≤ r.hourAlrm ∨ c.hour = r.hourAlrm) ∧ (0xc0 ≤ r.minAlrm ∨ c.min = r.minAlrm) ∧
      (0xc0 ≤ r.secAlrm ∨ c.sec = r.secAlrm ∧ c.sec ≠ s.lastSec) then
    raise 0x20 { s with cmos.statusC := r.statusC ||| 0x20, lastSec := c.sec }
  else s

/-- `A/UIP` is set while the registers change. -/
def setUip (s : State) : State :=
  { s with cmos.statusA := s.cmos.statusA ||| 0x80 }

def clearUip (s : State) : State :=
  { s with cmos.statusA := s.cmos.statusA &&& ~~~0x80 }

/-- The registers change. -/
def countClock (s : State) : State :=
  { s with cmos.clock := countSecond s.cmos.clock }

/-- "per-second IRQ" -/
def secondIrq (s : State) : State :=
  raise 0x10 { s with cmos.statusC := s.cmos.statusC ||| 0x10 }

/-- `rtc_update` -/
def rtcUpdate (s : State) : State :=
  if s.cmos.statusB &&& 0x80 ≠ 0 then s
  else clearUip (secondIrq (alarmCheck (countClock (setUip s))))

/-! ## The days of DOS -/

/-- `struct tm` and the microseconds.  `gettimeofday` counts from 1970, and no place is a day
off. -/
structure Tm where
  date : Date
  wday : Nat
  hour : Nat
  min : Nat
  sec : Nat
  usec : Nat
  date_valid : date.Valid
  year_ge : 1969 ≤ date.year

/-- `ds70` -/
def ds70 (tm : Tm) : Int :=
  tm.date.yday + ((tm.date.year : Int) - 1970) * 365 + ((tm.date.year : Int) - 1969) / 4

/-- The ticks of the day, with the "same magic numbers as freedos". -/
def dosTicks (tm : Tm) : Int :=
  ((tm.sec + 60 * (tm.min + 60 * tm.hour)) * 100 + tm.usec / 10000) * 59659 / 327680

/-- "Initialise the date settings of the RTC" -/
def setCmosDate (tm : Tm) : Clock where
  hour := tm.hour
  min := tm.min
  sec := tm.sec
  dow := tm.wday + 1
  dom := tm.date.day
  month := tm.date.month
  year := tm.date.year - 100 * (tm.date.year / 100)
  century := tm.date.year / 100

/-- What `get_linux_ticks` answers: the ticks, and the value of `day_rollover` where it is asked
for. -/
structure Answer where
  ticks : Int
  dayRollover : Option Int

/-- `get_linux_ticks`, with `last_ds70` before and behind it. -/
def getLinuxTicks (setCmos rollover : Bool) (tm : Tm) (last : Int) (r : Clock) :
    Answer × Int × Clock :=
  let r' := if setCmos then setCmosDate tm else r
  let last := if last = 0 then ds70 tm else last
  if rollover then
    let dayDiff := ds70 tm - last
    if dayDiff < 0 then ({ ticks := 0, dayRollover := some 0 }, last, r')
    else if 0 < dayDiff then
      ({ ticks := dosTicks tm, dayRollover := some (if 255 < dayDiff then 255 else dayDiff) },
        ds70 tm, r')
    else ({ ticks := dosTicks tm, dayRollover := some 0 }, last, r')
  else ({ ticks := dosTicks tm, dayRollover := none }, last, r')

/-! ## The calendar -/

def Clock.date (r : Clock) : Date where
  year := 100 * r.century + r.year
  month := r.month
  day := r.dom

/-- The registers hold a date and a time. -/
structure Clock.Valid (r : Clock) : Prop where
  date_valid : r.date.Valid
  year_lt : r.year < 100
  century_lt : r.century < 256
  dow_pos : 1 ≤ r.dow
  dow_le : r.dow ≤ 7
  hour_lt : r.hour < 24
  min_lt : r.min < 60
  sec_lt : r.sec < 60

/-- The seconds since the calendar began. -/
def Clock.seconds (r : Clock) : Nat :=
  r.date.number * 86400 + r.hour * 3600 + r.min * 60 + r.sec

/-- The registers hold the date, the day of the week and the time that are `n` seconds later. -/
structure LaterBy (r : Clock) (n : Nat) (r' : Clock) : Prop where
  valid : r'.Valid
  seconds_eq : r'.seconds = r.seconds + n
  dow_eq : (r'.dow + r.date.number) % 7 = (r.dow + r'.date.number) % 7

/-- The first second of a year. -/
def startOfYear (y : Nat) : Nat :=
  yearStart y * 86400

/-- The first second behind a February. -/
def endOfFebruary (y : Nat) : Nat :=
  (Date.mk y 3 1).number * 86400

/-! ## One second -/

section Step

variable {r : Clock}

theorem inc_of_lt {x : Nat} (h : x < 255) : inc x = x + 1 :=
  Nat.mod_eq_of_lt (Nat.succ_lt_succ h)

theorem saneMonth_of_valid {m : Nat} (hpos : 1 ≤ m) (hle : m ≤ 12) : saneMonth m = m :=
  if_neg (by omega)

/-- The days of the code are those of the month, in a calendar that drops no leap year. -/
theorem days_eq {m y : Nat} (hpos : 1 ≤ m) (hle : m ≤ 12) :
    days m y = monthLength (y % 4 = 0) m := by
  rw [days]
  interval_cases m <;> by_cases hy : y % 4 = 0 <;> simp [dpm, monthLength, hy]

theorem year_mod_four (r : Clock) : r.date.year % 4 = r.year % 4 := by
  rw [Clock.date]
  dsimp only
  omega

/-- The days of a month are right but in a February that is longer every four years only. -/
theorem days_eq_of_not_dropped (hvalid : r.Valid)
    (h : ¬(dropped r.date.year = true ∧ r.month = 2)) :
    days r.month r.year = monthLength (leap r.date.year) r.date.month := by
  have hpos : 1 ≤ r.month := hvalid.date_valid.month_pos
  have hle : r.month ≤ 12 := hvalid.date_valid.month_le
  rw [days_eq hpos hle, ← year_mod_four, show r.date.month = r.month from rfl]
  cases hdropped : dropped r.date.year with
  | true =>
      have hmonth : r.month ≠ 2 := fun hmonth => h ⟨hdropped, hmonth⟩
      generalize r.month = m at *
      interval_cases m <;> first | rfl | exact absurd rfl hmonth
  | false =>
      congr 1
      rw [Bool.eq_iff_iff, decide_eq_true_iff, leap_iff, hdropped]
      simp only [and_true]

/-- The last day of a February that the code makes longer. -/
def Clock.AtGap (r : Clock) : Prop :=
  dropped r.date.year = true ∧ r.month = 2 ∧ r.dom = 28

/-- The code changes the month where the calendar does. -/
theorem month_ends_iff (hvalid : r.Valid) (hgap : ¬r.AtGap) :
    days r.month r.year < inc r.dom ↔ ¬r.dom < monthLength (leap r.date.year) r.month := by
  have hle : r.dom ≤ monthLength (leap r.date.year) r.month := hvalid.date_valid.day_le
  have hle31 : monthLength (leap r.date.year) r.month ≤ 31 := monthLength_le _ _
  rw [inc_of_lt (by omega)]
  by_cases hfeb : dropped r.date.year = true ∧ r.month = 2
  · have hfour : r.year % 4 = 0 := by
      have hcentury := (dropped_iff.mp hfeb.1).1
      rw [← year_mod_four]
      omega
    have hdays : days r.month r.year = 29 := by
      rw [days, hfeb.2, if_pos ⟨hfour, rfl⟩]
      rfl
    have hlen : monthLength (leap r.date.year) r.month = 28 := by
      rw [leap_of_dropped hfeb.1, hfeb.2]
      rfl
    have hdom : r.dom ≠ 28 := fun hdom => hgap ⟨hfeb.1, hfeb.2, hdom⟩
    omega
  · have hdays := days_eq_of_not_dropped hvalid hfeb
    rw [show r.date.month = r.month from rfl] at hdays
    omega

theorem countYear_date (hvalid : r.Valid) (hyear : r.date.year + 1 < 25600) (m d : Nat) :
    (countYear { r with month := m, dom := d }).date = ⟨r.date.year + 1, m, d⟩ ∧
      (countYear { r with month := m, dom := d }).year < 100 ∧
      (countYear { r with month := m, dom := d }).century < 256 := by
  have hlt := hvalid.year_lt
  have hlt' := hvalid.century_lt
  dsimp only [Clock.date] at hyear
  rw [countYear]
  dsimp only
  rw [inc_of_lt (by omega)]
  split
  next h =>
    rw [inc_of_lt (by omega)]
    dsimp only [Clock.date]
    refine ⟨?_, by omega, by omega⟩
    congr 1
    omega
  next h =>
    dsimp only [Clock.date]
    exact ⟨rfl, by omega, hlt'⟩

/-- The day that follows. -/
theorem countDate_next (hvalid : r.Valid) (hgap : ¬r.AtGap) (hyear : r.date.next.year < 25600) :
    (countDate r).date = r.date.next ∧ (countDate r).year < 100 ∧ (countDate r).century < 256 := by
  have hpos : 1 ≤ r.month := hvalid.date_valid.month_pos
  have hle : r.month ≤ 12 := hvalid.date_valid.month_le
  have hends := month_ends_iff hvalid hgap
  have hday : r.dom ≤ monthLength (leap r.date.year) r.month := hvalid.date_valid.day_le
  have hdom := hday.trans (monthLength_le _ _)
  have hmonth := saneMonth_of_valid hpos hle
  rw [countDate, hmonth]
  by_cases hlast : r.dom < monthLength (leap r.date.year) r.month
  · rw [if_neg (not_not.mpr hlast ∘ hends.mp), Date.next_of_lt hlast]
    dsimp only [Clock.date]
    rw [inc_of_lt (by omega)]
    exact ⟨rfl, hvalid.year_lt, hvalid.century_lt⟩
  · rw [if_pos (hends.mpr hlast), countMonth]
    dsimp only
    rw [hmonth, inc_of_lt (by omega)]
    by_cases hdec : r.month < 12
    · rw [if_neg (by omega), Date.next_of_month hlast hdec]
      exact ⟨rfl, hvalid.year_lt, hvalid.century_lt⟩
    · rw [Date.next_of_year hlast hdec] at hyear ⊢
      rw [if_pos (by omega)]
      exact countYear_date hvalid hyear 1 1

/-- What is no date stays as it is when the date changes. -/
theorem countDate_frame (r : Clock) :
    (countDate r).sec = r.sec ∧ (countDate r).min = r.min ∧ (countDate r).hour = r.hour ∧
      (countDate r).dow = r.dow := by
  rw [countDate]
  split
  · dsimp only [countMonth]
    split
    · dsimp only [countYear]
      split <;> exact ⟨rfl, rfl, rfl, rfl⟩
    · exact ⟨rfl, rfl, rfl, rfl⟩
  · exact ⟨rfl, rfl, rfl, rfl⟩

/-- A change of the time of the day. -/
theorem laterBy_time (hvalid : r.Valid) {h m s : Nat} (hh : h < 24) (hm : m < 60) (hs : s < 60)
    (heq : h * 3600 + m * 60 + s = r.hour * 3600 + r.min * 60 + r.sec + 1) :
    LaterBy r 1 { r with hour := h, min := m, sec := s } := by
  have hday : ∀ d : Nat, d * 86400 + h * 3600 + m * 60 + s =
      d * 86400 + r.hour * 3600 + r.min * 60 + r.sec + 1 := by
    intro d
    linarith
  exact ⟨⟨hvalid.date_valid, hvalid.year_lt, hvalid.century_lt, hvalid.dow_pos, hvalid.dow_le, hh,
    hm, hs⟩, hday r.date.number, rfl⟩

/-- The same day at midnight. -/
def Clock.midnight (r : Clock) : Clock :=
  { r with hour := 0, min := 0, sec := 0 }

theorem Clock.Valid.midnight (h : r.Valid) : r.midnight.Valid where
  date_valid := h.date_valid
  year_lt := h.year_lt
  century_lt := h.century_lt
  dow_pos := h.dow_pos
  dow_le := h.dow_le
  hour_lt := Nat.succ_pos _
  min_lt := Nat.succ_pos _
  sec_lt := Nat.succ_pos _

/-- The change of the day at midnight. -/
theorem laterBy_day (hvalid : r.Valid) (hgap : ¬r.AtGap) (hyear : r.date.next.year < 25600)
    (heq : r.hour * 3600 + r.min * 60 + r.sec = 86399) : LaterBy r 1 (countDay r.midnight) := by
  obtain ⟨hdate, hyear', hcentury⟩ := countDate_next hvalid.midnight hgap hyear
  obtain ⟨hsec, hmin, hhour, hdow⟩ := countDate_frame r.midnight
  have hnumber : r.date.next.number = r.date.number + 1 := Date.number_next hvalid.date_valid
  have hdate' : (countDay r.midnight).date = r.date.next := hdate
  have hdow' : (countDay r.midnight).dow = if 7 < r.dow + 1 then 1 else r.dow + 1 := by
    have hle := hvalid.dow_le
    rw [countDay, countDow]
    dsimp only
    rw [hdow, show r.midnight.dow = r.dow from rfl, inc_of_lt (by omega)]
    congr 1
    rw [eq_iff_iff]
    omega
  have hpos := hvalid.dow_pos
  have hle := hvalid.dow_le
  refine ⟨⟨?_, hyear', hcentury, ?_, ?_, ?_, ?_, ?_⟩, ?_, ?_⟩
  · rw [hdate']
    exact Date.next_valid hvalid.date_valid
  · rw [hdow']
    split <;> omega
  · rw [hdow']
    split <;> omega
  · exact hhour.trans_lt (Nat.succ_pos _)
  · exact hmin.trans_lt (Nat.succ_pos _)
  · exact hsec.trans_lt (Nat.succ_pos _)
  · have hseconds : (countDay r.midnight).seconds = (countDay r.midnight).date.number * 86400 := by
      rw [Clock.seconds, show (countDay r.midnight).hour = 0 from hhour,
        show (countDay r.midnight).min = 0 from hmin, show (countDay r.midnight).sec = 0 from hsec,
        Nat.zero_mul]
      simp only [Nat.add_zero]
    rw [hseconds, hdate', hnumber, Clock.seconds]
    omega
  · rw [hdow', hdate', hnumber]
    split <;> omega

theorem next_year_lt {y : Nat} (hvalid : r.Valid) (hrange : r.seconds + 1 < startOfYear y)
    (hlast : r.hour * 3600 + r.min * 60 + r.sec = 86399) : r.date.next.year < y := by
  by_contra hyear
  have hnumber := (yearStart_mono (not_lt.mp hyear)).trans Date.yearStart_le_number
  rw [Date.number_next hvalid.date_valid] at hnumber
  rw [startOfYear, Clock.seconds] at hrange
  omega

/-- One second later, where the code does not make a February longer. -/
theorem countSecond_laterBy (hvalid : r.Valid) (hgap : ¬(r.AtGap ∧ r.seconds % 86400 = 86399))
    (hrange : r.seconds + 1 < startOfYear 25600) : LaterBy r 1 (countSecond r) := by
  have hsec := hvalid.sec_lt
  have hmin := hvalid.min_lt
  have hhour := hvalid.hour_lt
  have hyear := next_year_lt hvalid hrange
  clear hrange
  rw [countSecond, inc_of_lt (by omega)]
  split
  · rw [countMinute]
    dsimp only
    rw [inc_of_lt (by omega)]
    split
    · rw [countHour]
      dsimp only
      rw [inc_of_lt (by omega)]
      split
      · have hlast : r.hour * 3600 + r.min * 60 + r.sec = 86399 := by omega
        have hmod : r.seconds % 86400 = 86399 := by
          rw [Clock.seconds]
          omega
        exact laterBy_day hvalid (fun h => hgap ⟨h, hmod⟩) (hyear hlast) hlast
      · exact laterBy_time hvalid (by omega) (by decide) (by decide) (by omega)
    · exact laterBy_time hvalid hhour (by omega) (by decide) (by omega)
  · exact laterBy_time hvalid hhour hmin (by omega) (by omega)

/-- The last second of a day is followed by the change of the day. -/
theorem countSecond_last (hsec : r.sec = 59) (hmin : r.min = 59) (hhour : r.hour = 23) :
    countSecond r = countDay r.midnight := by
  rw [countSecond, hsec, if_pos (by decide), countMinute]
  dsimp only
  rw [hmin, if_pos (by decide), countHour]
  dsimp only
  rw [hhour, if_pos (by decide)]
  rfl

/-- Behind a February that the code makes longer, the registers hold no date. -/
theorem countSecond_gap (hvalid : r.Valid) (hgap : r.AtGap) (hlast : r.seconds % 86400 = 86399) :
    ¬(countSecond r).Valid := by
  obtain ⟨hy, hmonth, hdom⟩ := hgap
  have hsec := hvalid.sec_lt
  have hmin := hvalid.min_lt
  have hhour := hvalid.hour_lt
  rw [Clock.seconds] at hlast
  rw [countSecond_last (by omega) (by omega) (by omega)]
  intro hnext
  have hfour : r.year % 4 = 0 := by
    have hcentury := (dropped_iff.mp hy).1
    rw [← year_mod_four]
    omega
  have hdate : countDate r.midnight = { r.midnight with dom := 29 } := by
    have hdays : days (saneMonth r.midnight.month) r.midnight.year = 29 := by
      rw [show r.midnight.month = 2 from hmonth, show saneMonth 2 = 2 from rfl, days,
        if_pos ⟨hfour, rfl⟩]
      rfl
    have hinc : inc r.midnight.dom = 29 := by
      rw [show r.midnight.dom = 28 from hdom]
      rfl
    rw [countDate, hdays, hinc, if_neg (lt_irrefl 29)]
  have hday := hnext.date_valid.day_le
  rw [countDay, hdate] at hday
  have hday' : 29 ≤ monthLength (leap r.date.year) r.month := hday
  rw [leap_of_dropped hy, hmonth] at hday'
  exact absurd hday' (by decide)

end Step

/-! ## Any number of seconds -/

/-- What is left alone by the interrupts: the clock, and register B. -/
def Kept (s s' : State) : Prop :=
  s'.cmos.clock = s.cmos.clock ∧ s'.cmos.statusB = s.cmos.statusB

theorem Kept.trans {s s' s'' : State} (h : Kept s s') (h' : Kept s' s'') : Kept s s'' :=
  ⟨h'.1.trans h.1, h'.2.trans h.2⟩

theorem raise_kept (enable : BitVec 8) (s : State) : Kept s (raise enable s) := by
  rw [raise]
  split <;> exact ⟨rfl, rfl⟩

theorem secondIrq_kept (s : State) : Kept s (secondIrq s) :=
  raise_kept 0x10 { s with cmos.statusC := s.cmos.statusC ||| 0x10 }

theorem alarmCheck_kept (s : State) : Kept s (alarmCheck s) := by
  rw [alarmCheck]
  dsimp only
  split
  · exact raise_kept 0x20
      { s with cmos.statusC := s.cmos.statusC ||| 0x20, lastSec := s.cmos.clock.sec }
  · exact ⟨rfl, rfl⟩

/-- With updates enabled, the clock goes on by a second, and they stay enabled. -/
theorem rtcUpdate_clock {s : State} (h : s.cmos.statusB &&& 0x80 = 0) :
    (rtcUpdate s).cmos.clock = countSecond s.cmos.clock ∧
      (rtcUpdate s).cmos.statusB = s.cmos.statusB := by
  rw [rtcUpdate, if_neg (not_not.mpr h)]
  have hkept := (alarmCheck_kept (countClock (setUip s))).trans (secondIrq_kept _)
  exact ⟨hkept.1, hkept.2⟩

theorem LaterBy.refl {r : Clock} (h : r.Valid) : LaterBy r 0 r :=
  ⟨h, (Nat.add_zero _).symm, rfl⟩

theorem LaterBy.trans {r r' r'' : Clock} {m n : Nat} (h : LaterBy r m r') (h' : LaterBy r' n r'') :
    LaterBy r (m + n) r'' := by
  refine ⟨h'.valid, ?_, ?_⟩
  · rw [h'.seconds_eq, h.seconds_eq, Nat.add_assoc]
  · have hdow := h.dow_eq
    have hdow' := h'.dow_eq
    omega

/-- The end of February comes between `t` and `t + n` in none of the years in which the code makes
it a day longer. -/
def NoGap (t n : Nat) : Prop :=
  ∀ y, dropped y = true → ¬(t < endOfFebruary y ∧ endOfFebruary y ≤ t + n)

/-- The last day of a February that is no leap one. -/
theorem number_march {y : Nat} (hy : dropped y = true) :
    (Date.mk y 2 28).Valid ∧ (Date.mk y 3 1).number = (Date.mk y 2 28).number + 1 := by
  have hlen : monthLength (leap y) 2 = 28 := by
    rw [leap_of_dropped hy]
    rfl
  have hvalid : (Date.mk y 2 28).Valid :=
    ⟨Nat.one_le_ofNat, Nat.le_of_ble_eq_true rfl, Nat.one_le_ofNat, hlen.ge⟩
  have hnext : (Date.mk y 2 28).next = Date.mk y 3 1 :=
    Date.next_of_month (fun h => absurd (h.trans_eq hlen) (lt_irrefl 28))
      (Nat.le_of_ble_eq_true rfl : 2 < 12)
  exact ⟨hvalid, hnext ▸ Date.number_next hvalid⟩

/-- The last second of a February that the code makes longer. -/
theorem atGap_iff {r : Clock} (hvalid : r.Valid) :
    (r.AtGap ∧ r.seconds % 86400 = 86399) ↔
      ∃ y, dropped y = true ∧ r.seconds + 1 = endOfFebruary y := by
  have hhour := hvalid.hour_lt
  have hmin := hvalid.min_lt
  have hsec := hvalid.sec_lt
  constructor
  · rintro ⟨⟨hy, hmonth, hdom⟩, hlast⟩
    refine ⟨r.date.year, hy, ?_⟩
    have hdate : r.date = Date.mk r.date.year 2 28 := by
      rw [← hmonth, ← hdom]
      rfl
    rw [endOfFebruary, (number_march hy).2, ← hdate]
    rw [Clock.seconds] at hlast ⊢
    omega
  · rintro ⟨y, hy, heq⟩
    obtain ⟨hfeb, hmarch⟩ := number_march hy
    rw [endOfFebruary, hmarch] at heq
    have hnumber : r.date.number = (Date.mk y 2 28).number := by
      rw [Clock.seconds] at heq
      omega
    have hdate := Date.number_injective hvalid.date_valid hfeb hnumber
    refine ⟨⟨?_, congrArg Date.month hdate, congrArg Date.day hdate⟩, by omega⟩
    rw [hdate]
    exact hy

/-- Between two ends of February that the code gets wrong, it follows the calendar. -/
theorem laterBy_iterate {s : State} (hvalid : s.cmos.clock.Valid)
    (henabled : s.cmos.statusB &&& 0x80 = 0) {n : Nat}
    (hrange : s.cmos.clock.seconds + n < startOfYear 25600) (hgap : NoGap s.cmos.clock.seconds n) :
    LaterBy s.cmos.clock n (rtcUpdate^[n] s).cmos.clock ∧
      (rtcUpdate^[n] s).cmos.statusB &&& 0x80 = 0 := by
  induction n with
  | zero => exact ⟨.refl hvalid, henabled⟩
  | succ n ih =>
      have hgap' : NoGap s.cmos.clock.seconds n := by
        intro y hy hbetween
        exact hgap y hy ⟨hbetween.1, hbetween.2.trans (Nat.le_succ _)⟩
      obtain ⟨hlater, hstatus⟩ := ih (by omega) hgap'
      obtain ⟨hclock, hstatus'⟩ := rtcUpdate_clock hstatus
      rw [Function.iterate_succ_apply', hclock, hstatus']
      refine ⟨hlater.trans (countSecond_laterBy hlater.valid ?_ ?_), hstatus⟩
      · rw [atGap_iff hlater.valid]
        rintro ⟨y, hy, heq⟩
        have hseconds := hlater.seconds_eq
        exact hgap y hy (by omega)
      · rw [hlater.seconds_eq, Nat.add_assoc]
        exact hrange

theorem enabled_iterate {s : State} (henabled : s.cmos.statusB &&& 0x80 = 0) (n : Nat) :
    (rtcUpdate^[n] s).cmos.statusB &&& 0x80 = 0 := by
  induction n with
  | zero => exact henabled
  | succ n ih =>
      rw [Function.iterate_succ_apply', (rtcUpdate_clock ih).2]
      exact ih

/-- The seconds for which the clock follows the calendar. -/
theorem follows_iff {s : State} (hvalid : s.cmos.clock.Valid)
    (henabled : s.cmos.statusB &&& 0x80 = 0) {n : Nat}
    (hrange : s.cmos.clock.seconds + n < startOfYear 25600) :
    (∀ j ≤ n, LaterBy s.cmos.clock j (rtcUpdate^[j] s).cmos.clock) ↔
      NoGap s.cmos.clock.seconds n := by
  constructor
  · intro hfollows y hy hbetween
    obtain ⟨j, hj⟩ : ∃ j, s.cmos.clock.seconds + j + 1 = endOfFebruary y :=
      ⟨endOfFebruary y - s.cmos.clock.seconds - 1, by omega⟩
    have hlater := hfollows j (by omega)
    have hgap := (atGap_iff hlater.valid).mpr ⟨y, hy, by rw [hlater.seconds_eq, hj]⟩
    have hnext := hfollows (j + 1) (by omega)
    rw [Function.iterate_succ_apply', (rtcUpdate_clock (enabled_iterate henabled j)).1] at hnext
    exact countSecond_gap hlater.valid hgap.1 hgap.2 hnext.valid
  · intro hgap j hj
    apply (laterBy_iterate hvalid henabled (by omega) ?_).1
    intro y hy hbetween
    exact hgap y hy ⟨hbetween.1, hbetween.2.trans (Nat.add_le_add_left hj _)⟩

/-! ## The days that have passed -/

/-- `ds70` counts the years that the calendar leaves out as leap years. -/
theorem ds70_eq (tm : Tm) :
    ds70 tm = (tm.date.number + droppedBefore tm.date.year : Nat) -
      (yearStart 1970 + droppedBefore 1970 : Nat) := by
  have hyear := tm.year_ge
  have hstart := yearStart_add_droppedBefore tm.date.year
  rw [yearStart_add_droppedBefore, ds70, Date.number]
  omega

/-- The days do not go back. -/
theorem ds70_mono {a b : Tm} (h : a.date.number ≤ b.date.number) : ds70 a ≤ ds70 b := by
  have hyear := droppedBefore_mono (Date.year_le_of_number_le b.date_valid h)
  rw [ds70_eq, ds70_eq]
  omega

/-- The day 0. -/
def epoch : Date :=
  ⟨1970, 1, 1⟩

theorem epoch_valid : epoch.Valid := by
  constructor <;> decide

theorem epoch_number : epoch.number = yearStart 1970 := by
  rw [Date.number, show epoch.yday = 0 by decide]
  rfl

/-- `ds70` is zero on one day only. -/
theorem ds70_eq_zero_iff (tm : Tm) : ds70 tm = 0 ↔ tm.date = epoch := by
  have hyear := tm.year_ge
  have hdropped : droppedBefore 1970 = droppedBefore 1969 := by
    rw [droppedBefore, show dropped 1969 = false by decide, Bool.toNat_false, Nat.add_zero]
  have hmono : droppedBefore 1969 ≤ droppedBefore tm.date.year := droppedBefore_mono hyear
  rw [ds70_eq, sub_eq_zero, Nat.cast_inj]
  constructor
  · intro heq
    apply Date.number_injective tm.date_valid epoch_valid
    rw [epoch_number]
    rcases Nat.lt_or_ge 1970 tm.date.year with hlater | hearlier
    · have hstart := (yearStart_mono hlater).trans Date.yearStart_le_number
      rw [yearStart] at hstart
      omega
    · have hmono' := droppedBefore_mono hearlier
      omega
  · intro hdate
    rw [hdate, epoch_number]
    rfl

/-- The answers of calls that ask for the days. -/
def rollovers : Int → Clock → List (Bool × Tm) → List Int
  | _, _, [] => []
  | last, r, (setCmos, tm) :: calls =>
      let (answer, last, r) := getLinuxTicks setCmos true tm last r
      answer.dayRollover.getD 0 :: rollovers last r calls

/-- The next call is not earlier, and at most 255 days later. -/
def Soon (a b : Bool × Tm) : Prop :=
  a.2.date.number ≤ b.2.date.number ∧ b.2.date.number ≤ a.2.date.number + 255

/-- The answers up to any of the calls add up to the days that passed. -/
def CountsDays (r : Clock) (first : Bool × Tm) (calls : List (Bool × Tm)) : Prop :=
  ∀ pre, pre <+: calls →
    (rollovers 0 r (first :: pre)).sum =
      ((pre.getLastD first).2.date.number : Int) - first.2.date.number

/-- The day 0 is not left, and no year that the code takes for a leap year has ended, or the days
that it finds are more than an answer holds. -/
def Counted (a b : Bool × Tm) : Prop :=
  (a.2.date = epoch → b.2.date.number = a.2.date.number) ∧
    (droppedBefore a.2.date.year = droppedBefore b.2.date.year ∨
      b.2.date.number = a.2.date.number + 255)

/-- The answer to a call behind another one, and what is kept for the next. -/
theorem getLinuxTicks_behind {a b : Tm} (h : a.date.number ≤ b.date.number) (setCmos : Bool)
    (r : Clock) :
    (getLinuxTicks setCmos true b (ds70 a) r).1.dayRollover =
        some (if ds70 a = 0 then 0 else min 255 (ds70 b - ds70 a)) ∧
      (getLinuxTicks setCmos true b (ds70 a) r).2.1 = ds70 b := by
  have hmono := ds70_mono h
  rw [getLinuxTicks]
  dsimp only
  rw [if_pos rfl]
  by_cases hzero : ds70 a = 0
  · rw [if_pos hzero, if_pos hzero, sub_self, if_neg (lt_irrefl 0), if_neg (lt_irrefl 0)]
    exact ⟨rfl, rfl⟩
  · rw [if_neg hzero, if_neg hzero, if_neg (by omega)]
    split
    · refine ⟨congrArg some ?_, rfl⟩
      split <;> omega
    · exact ⟨congrArg some (by omega), by dsimp only; omega⟩

/-- The answer to a call is the number of days that passed since the one before. -/
theorem counted_iff {a b : Bool × Tm} (h : Soon a b) :
    (if ds70 a.2 = 0 then 0 else min 255 (ds70 b.2 - ds70 a.2)) =
        (b.2.date.number : Int) - a.2.date.number ↔ Counted a b := by
  obtain ⟨hle, hsoon⟩ := h
  have hyear := Date.year_le_of_number_le b.2.date_valid hle
  have hdropped := droppedBefore_mono hyear
  rw [Counted, ← ds70_eq_zero_iff]
  split
  next hzero =>
    have hdate := (ds70_eq_zero_iff a.2).mp hzero
    constructor
    · intro heq
      have hnumber : b.2.date.number = a.2.date.number := by omega
      have hsame := Date.number_injective b.2.date_valid a.2.date_valid hnumber
      exact ⟨fun _ => hnumber, .inl (by rw [hsame])⟩
    · intro hcounted
      rw [hcounted.1 hzero, sub_self]
  next hzero =>
    have ha := ds70_eq a.2
    have hb := ds70_eq b.2
    constructor
    · intro heq
      exact ⟨fun h => absurd h hzero, by omega⟩
    · rintro ⟨-, heq | hlong⟩ <;> omega

theorem rollovers_cons {a b : Bool × Tm} (h : Soon a b) (r : Clock) (calls : List (Bool × Tm)) :
    rollovers (ds70 a.2) r (b :: calls) =
      (if ds70 a.2 = 0 then 0 else min 255 (ds70 b.2 - ds70 a.2)) ::
        rollovers (ds70 b.2) (getLinuxTicks b.1 true b.2 (ds70 a.2) r).2.2 calls := by
  obtain ⟨hanswer, hlast⟩ := getLinuxTicks_behind h.1 b.1 r
  obtain ⟨setCmos, tm⟩ := b
  rw [rollovers]
  dsimp only at hanswer hlast ⊢
  rw [hanswer, hlast, Option.getD_some]

/-- The answers behind a call add up to the days that passed since then. -/
theorem rollovers_behind_iff (r : Clock) (first : Bool × Tm) (calls : List (Bool × Tm))
    (hsoon : List.IsChain Soon (first :: calls)) :
    (∀ pre, pre <+: calls → (rollovers (ds70 first.2) r pre).sum =
      ((pre.getLastD first).2.date.number : Int) - first.2.date.number) ↔
      List.IsChain Counted (first :: calls) := by
  induction calls generalizing first r with
  | nil =>
      constructor
      · intro _
        exact List.isChain_singleton _
      · intro _ pre hpre
        rw [List.prefix_nil.mp hpre]
        exact (sub_self _).symm
  | cons call calls ih =>
      rw [List.isChain_cons_cons] at hsoon ⊢
      rw [← ih (getLinuxTicks call.1 true call.2 (ds70 first.2) r).2.2 call hsoon.2,
        ← counted_iff hsoon.1]
      constructor
      · intro hsum
        have hcall := hsum [call] (List.prefix_append [call] calls)
        rw [rollovers_cons hsoon.1, rollovers, List.sum_singleton] at hcall
        refine ⟨hcall, ?_⟩
        intro pre hpre
        have hrest := hsum (call :: pre) ((List.prefix_cons_inj call).mpr hpre)
        rw [rollovers_cons hsoon.1, List.sum_cons, List.getLastD_cons] at hrest
        have hlast : ([call].getLastD first) = call := rfl
        rw [hlast] at hcall
        omega
      · rintro ⟨hcall, hrest⟩ pre hpre
        cases pre with
        | nil => exact (sub_self _).symm
        | cons call' pre =>
            obtain ⟨rfl, hrestPre⟩ := List.cons_prefix_cons.mp hpre
            have hsum := hrest pre hrestPre
            rw [rollovers_cons hsoon.1, List.sum_cons, List.getLastD_cons, hcall, hsum]
            omega

/-- The first call only sets the day. -/
theorem rollovers_first (r : Clock) (first : Bool × Tm) (calls : List (Bool × Tm)) :
    rollovers 0 r (first :: calls) =
      0 :: rollovers (ds70 first.2) (getLinuxTicks first.1 true first.2 0 r).2.2 calls := by
  have hanswer : (getLinuxTicks first.1 true first.2 0 r).1.dayRollover = some 0 ∧
      (getLinuxTicks first.1 true first.2 0 r).2.1 = ds70 first.2 := by
    rw [getLinuxTicks]
    dsimp only
    rw [if_pos rfl, if_pos rfl, sub_self, if_neg (lt_irrefl 0), if_neg (lt_irrefl 0)]
    exact ⟨rfl, rfl⟩
  obtain ⟨setCmos, tm⟩ := first
  rw [rollovers]
  dsimp only at hanswer ⊢
  rw [hanswer.1, hanswer.2, Option.getD_some]

/-- The calls whose answers add up to the days that passed. -/
theorem rollovers_iff (r : Clock) {first : Bool × Tm} {calls : List (Bool × Tm)}
    (hsoon : List.IsChain Soon (first :: calls)) :
    CountsDays r first calls ↔ List.IsChain Counted (first :: calls) := by
  rw [CountsDays,
    ← rollovers_behind_iff (getLinuxTicks first.1 true first.2 0 r).2.2 first calls hsoon]
  simp only [rollovers_first, List.sum_cons, zero_add]

/-! ## Both -/

/-- The clock follows the calendar as long as no year comes to an end of February that the calendar
leaves out as a leap year, and the days add up as long as none such is left behind. -/
theorem calendar_iff {s : State} (hvalid : s.cmos.clock.Valid)
    (henabled : s.cmos.statusB &&& 0x80 = 0) {n : Nat}
    (hrange : s.cmos.clock.seconds + n < startOfYear 25600) (r : Clock) {first : Bool × Tm}
    {calls : List (Bool × Tm)} (hsoon : List.IsChain Soon (first :: calls)) :
    ((∀ j ≤ n, LaterBy s.cmos.clock j (rtcUpdate^[j] s).cmos.clock) ↔
        NoGap s.cmos.clock.seconds n) ∧
      (CountsDays r first calls ↔ List.IsChain Counted (first :: calls)) :=
  ⟨follows_iff hvalid henabled hrange, rollovers_iff r hsoon⟩

/-- A clock, with updates enabled. -/
def clockAt (century year month dom dow hour min sec : Nat) : State where
  cmos :=
    { clock :=
        { sec := sec, min := min, hour := hour, dow := dow, dom := dom, month := month,
          year := year, century := century }
      secAlrm := 0
      minAlrm := 0
      hourAlrm := 0
      statusA := 0x26
      statusB := 2
      statusC := 0 }
  lastSec := 0xff
  irqs := 0

/-- The end of 28 February 2024. -/
def leapYear : State :=
  clockAt 20 24 2 28 4 23 59 59

/-- The end of 28 February 2100. -/
def commonCentury : State :=
  clockAt 21 0 2 28 1 23 59 59

theorem leapYear_valid : leapYear.cmos.clock.Valid := by
  constructor <;> first | decide | exact ⟨by decide, by decide, by decide, by decide⟩

theorem commonCentury_valid : commonCentury.cmos.clock.Valid := by
  constructor <;> first | decide | exact ⟨by decide, by decide, by decide, by decide⟩

/-- A day behind a clock is in reach of the registers, if two years are. -/
theorem seconds_add_day_lt {r : Clock} (hvalid : r.Valid) {y : Nat} (hy : r.date.year + 2 ≤ y) :
    r.seconds + 86400 < startOfYear y := by
  have hhour := hvalid.hour_lt
  have hmin := hvalid.min_lt
  have hsec := hvalid.sec_lt
  have hnumber := hvalid.date_valid.number_lt
  have hstart := yearStart_mono hy
  have hlength : 365 ≤ yearLength (r.date.year + 1) := by
    rw [yearLength]
    split <;> decide
  rw [yearStart] at hstart
  rw [Clock.seconds, startOfYear]
  omega

/-- A call on a day of February 2024, at noon. -/
def februaryCall (day wday : Nat) (hpos : 1 ≤ day) (hle : day ≤ 29) : Tm where
  date := ⟨2024, 2, day⟩
  wday := wday
  hour := 12
  min := 0
  sec := 0
  usec := 0
  date_valid := ⟨by dsimp only; omega, by dsimp only; omega, hpos,
    hle.trans_eq (show 29 = monthLength (leap 2024) 2 by decide)⟩
  year_ge := by dsimp only; omega

theorem calendar_iff_leapYear :
    ((∀ j ≤ 86400, LaterBy leapYear.cmos.clock j (rtcUpdate^[j] leapYear).cmos.clock) ↔
        NoGap leapYear.cmos.clock.seconds 86400) ∧
      (CountsDays leapYear.cmos.clock (false, februaryCall 28 3 (by decide) (by decide))
          [(false, februaryCall 29 4 (by decide) (by decide))] ↔
        List.IsChain Counted [(false, februaryCall 28 3 (by decide) (by decide)),
          (false, februaryCall 29 4 (by decide) (by decide))]) := by
  apply calendar_iff leapYear_valid (by decide)
    (seconds_add_day_lt leapYear_valid (show 2024 + 2 ≤ 25600 by decide))
  have hnext : (Date.mk 2024 2 29).number = (Date.mk 2024 2 28).number + 1 :=
    Date.number_next (d := Date.mk 2024 2 28) ⟨by decide, by decide, by decide, by decide⟩
  refine List.isChain_pair.mpr ⟨?_, ?_⟩
  · show (Date.mk 2024 2 28).number ≤ (Date.mk 2024 2 29).number
    omega
  · show (Date.mk 2024 2 29).number ≤ (Date.mk 2024 2 28).number + 255
    omega

/-- The year 2100 has no 29 February. -/
theorem commonCentury_not_followed :
    commonCentury.cmos.clock.Valid ∧ commonCentury.cmos.statusB &&& 0x80 = 0 ∧
      ¬LaterBy commonCentury.cmos.clock 1 (rtcUpdate commonCentury).cmos.clock := by
  refine ⟨commonCentury_valid, by decide, ?_⟩
  intro hlater
  exact absurd hlater.valid.date_valid.day_le (by decide)

end Rtc
end Core
end Dosemu
