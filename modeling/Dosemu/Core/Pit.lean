import Dosemu.Lib.MachineInt

/-!
# The counters of the interval timer

A counter counts ticks of a clock down from its reload value.  Nothing counts
here: the count is computed when it is latched, from the nanoseconds that have
passed, and the ticks in them are computed in 64 bits.

Main definitions:

- `countLatch`: what a latch leaves in a counter.
- `count`: the count after a time, in unbounded integers.
- `ExactAt`: counters that were loaded give that count after a time.

Main results:

- Theorem `nsToTicks_exact`: the ticks, where the product fits in 64 bits.
- Theorem `countLatch_periodic` and theorem `latches_oneShot`: a latch gives the
  count of the ticks that it computes.
- Theorem `exists_wrong_reload`: where the product does not fit, some reload
  value shows it.
- Theorem `exactAt_iff`: the times at which all counters are exact.
-/

namespace Dosemu
namespace Core
namespace Pit

/-! ## The code -/

/-- `pit_latch_struct`, less what belongs to the interrupts of counter 0. -/
structure Counter where
  mode : BitVec 8
  outpin : BitVec 8
  readState : BitVec 16
  writeState : BitVec 16
  readLatch : BitVec 32
  writeLatch : BitVec 16
  cntr : Int
  time : BitVec 64
  latchedCnt : Int

/-- `muldiv64`, with `__int128_t` in a comment -/
def muldiv64 (a : BitVec 64) (b c : BitVec 32) : BitVec 64 :=
  a * b.setWidth 64 / c.setWidth 64

/-- `PIT_TICK_RATE` and `NANOSECONDS_PER_SECOND` -/
def pitTickRate : BitVec 32 := 1193182
def nanosecondsPerSecond : BitVec 32 := 1000000000

/-- `TICKS_TO_NS` -/
def ticksToNs (t : BitVec 64) : BitVec 64 :=
  muldiv64 t nanosecondsPerSecond pitTickRate

/-- `NS_TO_TICKS` -/
def nsToTicks (n : BitVec 64) : BitVec 64 :=
  muldiv64 n pitTickRate nanosecondsPerSecond

/-- `(p->mode & 2) == 0` -/
def oneShot (mode : BitVec 8) : Bool :=
  mode &&& 2 = 0

/-- `(p->mode & 3) == 3`, the "square-wave generator, countdown by 2" -/
def squareWave (mode : BitVec 8) : Bool :=
  mode &&& 3 = 3

/-- The pin of the "non-periodical modes", by whether the time has elapsed. -/
def oneShotPin (mode : BitVec 8) (elapsed : Bool) : BitVec 8 :=
  if (mode &&& 4 != 0) == elapsed then 0x00 else 0x80

/-- "non-periodical modes 0,1,4,5": the counter runs until its time has elapsed. -/
def runDown (p : Counter) (cur : BitVec 64) : Counter :=
  if p.cntr = -1 then p
  else
    let ticks := (nsToTicks (cur - p.time)).toInt
    if p.cntr < ticks then
      { p with
        cntr := if p.mode &&& 0x40 = 0 then -1 else p.cntr
        outpin := oneShotPin p.mode true }
    else
      { p with
        readLatch := BitVec.ofInt 32 (p.cntr - ticks)
        outpin := oneShotPin p.mode false }

/-- A counter whose time has elapsed shows what was written to it. -/
def showElapsed (p : Counter) : Counter :=
  if p.cntr = -1 then
    { p with readLatch := p.writeLatch.setWidth 32, outpin := oneShotPin p.mode true }
  else p

/-- The ticks that are left in the periodic modes, and whether an underflow was seen; counter 0
goes by the time `itime` of its next interrupt. -/
def ticksLeft (latch : Nat) (itime : BitVec 64) (p : Counter) (cur : BitVec 64) : Int × Bool :=
  if latch = 0 then
    if itime < cur then (1, true)
    else
      let ticks := (nsToTicks (itime - cur) + 1).toInt
      (if p.cntr < ticks then 0 else ticks, false)
  else
    let cntr := BitVec.ofInt 64 p.cntr
    ((cntr - nsToTicks cur % cntr).toInt, false)

/-- "ticks is now a value which decreases from cntr to 0" -/
def showTicks (p : Counter) (ticks : Int) : Counter :=
  if squareWave p.mode then
    if p.cntr ≤ ticks * 2 then
      { p with readLatch := BitVec.ofInt 32 (ticks * 2 - p.cntr) &&& 0xfffe, outpin := 0x00 }
    else { p with readLatch := BitVec.ofInt 32 (ticks * 2), outpin := 0x80 }
  else
    let readLatch := BitVec.ofInt 32 ticks
    { p with readLatch := readLatch, outpin := if readLatch ≠ 0 then 0x80 else 0x00 }

/-- `p->latched_cnt++` -/
def Counter.noteLatch (p : Counter) : Counter :=
  { p with latchedCnt := p.latchedCnt + 1 }

/-- `_pit_count_latch`: the counter behind it, and the interrupts that were missed. -/
def countLatch (latch : Nat) (itime : BitVec 64) (p : Counter) (cur : BitVec 64) : Counter × Int :=
  let p := p.noteLatch
  if oneShot p.mode then (showElapsed (runDown p cur), 0)
  else
    let (ticks, underflow) := ticksLeft latch itime p cur
    (showTicks p ticks, if underflow then p.latchedCnt else 0)

/-- The count that a value of the latch stands for; 0 is all there is. -/
def reload (writeLatch : BitVec 16) : Int :=
  if writeLatch = 0 then 0xffff else writeLatch.toNat

/-- A byte that is written, by which of the two it is. -/
def writeByte (p : Counter) (val : BitVec 8) : Counter :=
  if p.writeState = 0 then
    { p with writeLatch := p.writeLatch ||| (val.setWidth 16 <<< 8), writeState := 3 }
  else if p.writeState = 3 then { p with writeLatch := val.setWidth 16, writeState := 0 }
  else if p.writeState = 1 then { p with writeLatch := val.setWidth 16 }
  else if p.writeState = 2 then { p with writeLatch := val.setWidth 16 <<< 8 }
  else p

/-- `pit_outp`: the counter behind it, and the time of the first interrupt when it was loaded. -/
def pitOutp (p : Counter) (val : BitVec 8) : Counter × Option (BitVec 64) :=
  let p := writeByte p val
  if p.writeState ≠ 0 then
    ({ p with cntr := reload p.writeLatch, time := 0 },
      some (ticksToNs (BitVec.ofInt 64 (reload p.writeLatch))))
  else (p, none)

/-- `pit_control_outp` where it sets a mode, at the time `now`. -/
def setMode (p : Counter) (val : BitVec 8) (now : BitVec 64) : Counter :=
  let rw := ((val >>> 4) &&& 3).setWidth 16
  { p with
    readState := rw
    writeState := rw
    mode := (val >>> 1) &&& 7
    time := if val &&& 4 = 0 then now else p.time }

/-! ## The count in unbounded integers -/

/-- The ticks in a number of nanoseconds. -/
def ticksIn (e : Nat) : Nat :=
  e * 1193182 / 1000000000

inductive Count where
  | running (n : Nat)
  | expired
  deriving DecidableEq

/-- The count of a counter with the reload value `r` after `q` ticks. -/
def count (mode : BitVec 8) (r q : Nat) : Count :=
  if oneShot mode then
    if q ≤ r then .running (r - q) else .expired
  else
    let left := r - q % r
    if squareWave mode then
      .running (if r ≤ left * 2 then (left * 2 - r) / 2 * 2 else left * 2)
    else .running left

/-- What a counter shows after a latch. -/
def Counter.shows (p : Counter) : Count :=
  if p.cntr = -1 then .expired else .running p.readLatch.toNat

/-- A counter with its reload value, in a mode that can be set. -/
structure Loaded (p : Counter) : Prop where
  cntr_eq : p.cntr = reload p.writeLatch
  mode_eq : p.mode &&& 0x40 = 0

/-- The time `e` after the counter was started; the periodic modes have no start. -/
def clock (p : Counter) (e : BitVec 64) : BitVec 64 :=
  if oneShot p.mode then p.time + e else e

/-- Latches after the given times, with the times of the next interrupt. -/
def latches (latch : Nat) (p : Counter) (ts : List (BitVec 64 × BitVec 64)) : Counter :=
  ts.foldl (fun p t => (countLatch latch t.1 p (clock p t.2)).1) p

/-- A latch after the time `e`, and after latches at other times before it, gives the count. -/
def ExactAt (e : BitVec 64) : Prop :=
  ∀ p, Loaded p → ∀ itime ts, (∀ t ∈ ts, t.2 ≤ e) →
    (∀ latch, latch = 1 ∨ latch = 2 →
      (latches latch p (ts ++ [(itime, e)])).shows =
        count p.mode (reload p.writeLatch).toNat (ticksIn e.toNat)) ∧
    (latches 0 p (ts ++ [(itime, e)])).readLatch.toNat ≤ (reload p.writeLatch).toNat

/-! ## Ticks in 64 bits -/

theorem nsToTicks_toNat (n : BitVec 64) :
    (nsToTicks n).toNat = n.toNat * 1193182 % 2 ^ 64 / 1000000000 := by
  rw [nsToTicks, muldiv64, BitVec.toNat_udiv, BitVec.toNat_mul]
  rfl

theorem nsToTicks_lt (n : BitVec 64) : (nsToTicks n).toNat < 2 ^ 62 := by
  rw [nsToTicks_toNat]
  omega

theorem nsToTicks_toInt (n : BitVec 64) : (nsToTicks n).toInt = (nsToTicks n).toNat := by
  have hlt := nsToTicks_lt n
  rw [BitVec.toInt_eq_toNat_cond, if_pos (by omega)]

/-- The ticks are right as long as the product fits. -/
theorem nsToTicks_exact {n : BitVec 64} (h : n.toNat * 1193182 < 2 ^ 64) :
    (nsToTicks n).toNat = ticksIn n.toNat := by
  rw [nsToTicks_toNat, Nat.mod_eq_of_lt h, ticksIn]

theorem ticksIn_mono {m n : Nat} (h : m ≤ n) : ticksIn m ≤ ticksIn n :=
  Nat.div_le_div_right (Nat.mul_le_mul_right _ h)

theorem toNat_ofInt_of_nonneg {w : Nat} {x : Int} (hnonneg : 0 ≤ x) (hlt : x < 2 ^ w) :
    (BitVec.ofInt w x).toNat = x.toNat := by
  rw [BitVec.toNat_ofInt, Int.emod_eq_of_lt hnonneg]
  exact_mod_cast hlt

theorem reload_pos (w : BitVec 16) : 0 < reload w := by
  rw [reload]
  split
  · decide
  next h =>
    have hne : w.toNat ≠ 0 := fun hw => h (BitVec.eq_of_toNat_eq hw)
    omega

theorem reload_le (w : BitVec 16) : reload w ≤ 0xffff := by
  have hlt := w.isLt
  rw [reload]
  split <;> omega

theorem writeLatch_le_reload (w : BitVec 16) : (w.setWidth 32).toNat ≤ (reload w).toNat := by
  rw [BitVec.toNat_setWidth, Nat.mod_eq_of_lt (w.isLt.trans (by decide)), reload]
  split
  next h => rw [h]; decide
  next => rw [Int.toNat_natCast]

/-! ## Latches -/

section Latches

variable {p p' : Counter} {cur e itime : BitVec 64} {latch q : Nat}

/-- What latches leave of a counter: in the end it may have expired, after fewer than `q` ticks. -/
structure Latched (p p' : Counter) (q : Nat) : Prop where
  mode_eq : p'.mode = p.mode
  time_eq : p'.time = p.time
  writeLatch_eq : p'.writeLatch = p.writeLatch
  cntr_eq : p'.cntr = p.cntr ∨ oneShot p.mode = true ∧ p'.cntr = -1 ∧ p.cntr < q

/-- A counter that runs down is at its count or has expired. -/
theorem runDown_cases (p : Counter) (cur : BitVec 64) (hmode : p.mode &&& 0x40 = 0)
    (hcntr : p.cntr ≠ -1) :
    (p.cntr < (nsToTicks (cur - p.time)).toNat ∧
        runDown p cur = { p with cntr := -1, outpin := oneShotPin p.mode true }) ∨
      ((nsToTicks (cur - p.time)).toNat ≤ p.cntr ∧
        runDown p cur =
          { p with
            readLatch := BitVec.ofInt 32 (p.cntr - (nsToTicks (cur - p.time)).toNat)
            outpin := oneShotPin p.mode false }) := by
  rw [runDown, if_neg hcntr, nsToTicks_toInt]
  dsimp only
  split
  next h => exact .inl ⟨h, rfl⟩
  next h => exact .inr ⟨not_lt.mp h, rfl⟩

theorem clock_sub (h : oneShot p.mode = true) : clock p e - p.time = e := by
  rw [clock, if_pos h, BitVec.add_comm, BitVec.add_sub_cancel]

/-- A counter that has expired shows what was written to it. -/
theorem showElapsed_expired (h : p.cntr = -1) :
    (showElapsed p).shows = .expired ∧
      (showElapsed p).readLatch.toNat ≤ (reload p.writeLatch).toNat := by
  rw [showElapsed, if_pos h]
  exact ⟨if_pos h, writeLatch_le_reload _⟩

theorem Latched.showElapsed (h : Latched p p' q) : Latched p (Pit.showElapsed p') q := by
  rw [Pit.showElapsed]
  split
  · exact ⟨h.mode_eq, h.time_eq, h.writeLatch_eq, h.cntr_eq⟩
  · exact h

theorem showElapsed_running (h : p.cntr ≠ -1) : showElapsed p = p :=
  if_neg h

theorem count_oneShot {mode : BitVec 8} {r : Nat} (h : oneShot mode = true) :
    count mode r q = if q ≤ r then .running (r - q) else .expired :=
  if_pos h

/-- A counter in a mode without a period, after `q` ticks or less. -/
theorem runDown_latched (hload : Loaded p) (hl : Latched p p' q) (hmode : oneShot p.mode = true)
    (hq : (nsToTicks (cur - p'.time)).toNat ≤ q) :
    Latched p (showElapsed (runDown p' cur)) q ∧
      (q = (nsToTicks (cur - p'.time)).toNat → (showElapsed (runDown p' cur)).shows =
        count p.mode (reload p.writeLatch).toNat q) ∧
      (showElapsed (runDown p' cur)).readLatch.toNat ≤ (reload p.writeLatch).toNat := by
  have hpos := reload_pos p.writeLatch
  have hle := reload_le p.writeLatch
  have hflag : p'.mode &&& 0x40 = 0 := hl.mode_eq ▸ hload.mode_eq
  rw [count_oneShot hmode, ← hl.writeLatch_eq]
  rw [← hl.writeLatch_eq] at hpos hle
  rcases hl.cntr_eq with hcntr | ⟨-, hcntr, hlt⟩
  · rw [hload.cntr_eq] at hcntr
    rw [← hl.writeLatch_eq] at hcntr
    rcases runDown_cases p' cur hflag (by omega) with ⟨hlt, heq⟩ | ⟨hge, heq⟩
    · -- the time has elapsed
      rw [heq]
      obtain ⟨hshows, hread⟩ := showElapsed_expired
        (p := { p' with cntr := -1, outpin := oneShotPin p'.mode true }) rfl
      refine ⟨Latched.showElapsed ⟨hl.mode_eq, hl.time_eq, hl.writeLatch_eq, ?_⟩, ?_, hread⟩
      · refine .inr ⟨hmode, rfl, ?_⟩
        rw [hload.cntr_eq, ← hl.writeLatch_eq]
        omega
      · intro _
        rw [hshows, if_neg (by omega)]
    · -- the counter runs
      have hread := toNat_ofInt_of_nonneg (w := 32) (sub_nonneg.mpr hge) (by omega)
      rw [heq, showElapsed_running (by dsimp only; omega)]
      refine ⟨⟨hl.mode_eq, hl.time_eq, hl.writeLatch_eq, hl.cntr_eq⟩, ?_, ?_⟩
      · intro hq'
        rw [Counter.shows, if_neg (by dsimp only; omega), if_pos (by omega)]
        dsimp only
        rw [hread, hq']
        congr 1
        omega
      · dsimp only
        rw [hread]
        omega
  · obtain ⟨hshows, hread⟩ := showElapsed_expired hcntr
    rw [runDown, if_pos hcntr]
    refine ⟨hl.showElapsed, ?_, hread⟩
    intro _
    rw [hshows, if_neg]
    rw [hload.cntr_eq, ← hl.writeLatch_eq] at hlt
    omega

/-- What is left of a period. -/
theorem ticksLeft_other (hlatch : latch ≠ 0) (hpos : 0 < p.cntr) (hle : p.cntr ≤ 0xffff) :
    ticksLeft latch itime p cur =
      (p.cntr - ((nsToTicks cur).toNat % p.cntr.toNat : Nat), false) := by
  have hcntr : (BitVec.ofInt 64 p.cntr).toNat = p.cntr.toNat :=
    toNat_ofInt_of_nonneg hpos.le (by omega)
  have hmod : (nsToTicks cur).toNat % p.cntr.toNat < p.cntr.toNat :=
    Nat.mod_lt _ (by omega)
  rw [ticksLeft, if_neg hlatch]
  dsimp only
  have hle' : nsToTicks cur % BitVec.ofInt 64 p.cntr ≤ BitVec.ofInt 64 p.cntr := by
    rw [BitVec.le_def, BitVec.toNat_umod, hcntr]
    exact hmod.le
  rw [BitVec.toInt_eq_toNat_cond, BitVec.toNat_sub_of_le hle', BitVec.toNat_umod, hcntr,
    if_pos (by omega)]
  congr 1
  omega

/-- The low bit of a count is cleared. -/
theorem toNat_and_mask {x : Int} (hnonneg : 0 ≤ x) (hle : x ≤ 0xffff) :
    (BitVec.ofInt 32 x &&& 0xfffe).toNat = x.toNat / 2 * 2 := by
  rw [BitVec.toNat_and, toNat_ofInt_of_nonneg hnonneg (by omega)]
  exact MachineInt.land_compl_mask (w := 16) (k := 1) (by decide) (by omega)

/-- What is left of a period, as it is shown. -/
theorem showTicks_shows {r left : Nat} (hcntr : p.cntr = r) (hr : r ≤ 0xffff) (hleft : left ≤ r) :
    (showTicks p left).shows =
      if squareWave p.mode then
        .running (if r ≤ left * 2 then (left * 2 - r) / 2 * 2 else left * 2)
      else .running left := by
  rw [showTicks, hcntr]
  split
  · split
    next h =>
      rw [Counter.shows, if_neg (by dsimp only; omega), toNat_and_mask (by omega) (by omega),
        if_pos (by omega)]
      congr 2
      omega
    next h =>
      rw [Counter.shows, if_neg (by dsimp only; omega),
        toNat_ofInt_of_nonneg (by omega) (by omega), if_neg (by omega)]
      rfl
  · rw [Counter.shows, if_neg (by dsimp only; omega)]
    dsimp only
    rw [toNat_ofInt_of_nonneg (by omega) (by omega)]
    rfl

theorem showTicks_cntr (ticks : Int) : (showTicks p ticks).cntr = p.cntr := by
  rw [showTicks]
  split
  · split <;> rfl
  · rfl

/-- What is shown of a period is no more than it. -/
theorem showTicks_readLatch_le {r : Nat} {ticks : Int} (hcntr : p.cntr = r) (hr : r ≤ 0xffff)
    (hnonneg : 0 ≤ ticks) (hle : ticks ≤ r) : (showTicks p ticks).readLatch.toNat ≤ r := by
  obtain ⟨left, rfl⟩ := Int.eq_ofNat_of_zero_le hnonneg
  have hshows := showTicks_shows hcntr hr (by omega : left ≤ r)
  rw [Counter.shows, showTicks_cntr, if_neg (by omega)] at hshows
  split at hshows
  · injection hshows with hread
    rw [hread]
    split <;> omega
  · injection hshows with hread
    omega

theorem Counter.noteLatch_mode : p.noteLatch.mode = p.mode := rfl

theorem countLatch_of_oneShot (hmode : oneShot p.mode = true) :
    (countLatch latch itime p cur).1 = showElapsed (runDown p.noteLatch cur) := by
  rw [countLatch]
  dsimp only
  rw [Counter.noteLatch_mode, if_pos hmode]

theorem countLatch_of_periodic (hmode : oneShot p.mode = false) :
    (countLatch latch itime p cur).1 =
      showTicks p.noteLatch (ticksLeft latch itime p.noteLatch cur).1 := by
  rw [countLatch]
  dsimp only
  rw [Counter.noteLatch_mode, hmode, if_neg Bool.false_ne_true]

/-- A latch of a counter other than 0 in a mode with a period. -/
theorem countLatch_periodic (hload : Loaded p) (hcntr : p'.cntr = p.cntr)
    (hmode : p'.mode = p.mode) (hperiodic : oneShot p.mode = false) (hlatch : latch ≠ 0) :
    (countLatch latch itime p' cur).1.shows =
      count p.mode (reload p.writeLatch).toNat (nsToTicks cur).toNat := by
  have hpos := reload_pos p.writeLatch
  have hle := reload_le p.writeLatch
  rw [hload.cntr_eq] at hcntr
  have hmod : (nsToTicks cur).toNat % (reload p.writeLatch).toNat < (reload p.writeLatch).toNat :=
    Nat.mod_lt _ (by omega)
  have hleft :
      reload p.writeLatch - ((nsToTicks cur).toNat % (reload p.writeLatch).toNat : Nat) =
        ((reload p.writeLatch).toNat -
          (nsToTicks cur).toNat % (reload p.writeLatch).toNat : Nat) := by
    omega
  have hcntr' : p'.noteLatch.cntr = reload p.writeLatch := hcntr
  rw [countLatch_of_periodic (hmode ▸ hperiodic),
    ticksLeft_other hlatch (by omega) (by omega), hcntr', hleft, count, hperiodic,
    if_neg Bool.false_ne_true, ← hmode]
  exact showTicks_shows (by omega) (by omega) (Nat.sub_le _ _)

theorem Latched.showTicks (h : Latched p p' q) (ticks : Int) :
    Latched p (Pit.showTicks p' ticks) q := by
  rw [Pit.showTicks]
  split
  · split
    · exact ⟨h.mode_eq, h.time_eq, h.writeLatch_eq, h.cntr_eq⟩
    · exact ⟨h.mode_eq, h.time_eq, h.writeLatch_eq, h.cntr_eq⟩
  · exact ⟨h.mode_eq, h.time_eq, h.writeLatch_eq, h.cntr_eq⟩

theorem Latched.clock_eq (h : Latched p p' q) : clock p' e = clock p e := by
  rw [clock, clock, h.mode_eq, h.time_eq]

theorem Latched.elapsed (h : Latched p p' q) (hmode : oneShot p.mode = true) :
    nsToTicks (clock p e - p'.time) = nsToTicks e := by
  rw [h.time_eq, clock_sub hmode]

/-- A counter with a period does not expire. -/
theorem Latched.periodic_cntr (h : Latched p p' q) (hperiodic : oneShot p.mode = false) :
    p'.cntr = p.cntr := by
  rcases h.cntr_eq with hcntr | ⟨hmode, -⟩
  · exact hcntr
  · rw [hperiodic] at hmode
    cases hmode

theorem Latched.noteLatch (h : Latched p p' q) : Latched p p'.noteLatch q :=
  ⟨h.mode_eq, h.time_eq, h.writeLatch_eq, h.cntr_eq⟩

/-- One latch. -/
theorem Latched.countLatch (h : Latched p p' q) (hload : Loaded p) (hq : (nsToTicks e).toNat ≤ q) :
    Latched p (Pit.countLatch latch itime p' (clock p' e)).1 q := by
  cases hmode : oneShot p.mode with
  | true =>
      rw [countLatch_of_oneShot (h.mode_eq ▸ hmode), h.clock_eq]
      apply (runDown_latched hload h.noteLatch hmode ?_).1
      rw [h.noteLatch.elapsed hmode]
      exact hq
  | false =>
      rw [countLatch_of_periodic (h.mode_eq ▸ hmode)]
      exact h.noteLatch.showTicks _

/-- Any number of latches. -/
theorem Latched.latches (h : Latched p p' q) (hload : Loaded p)
    {ts : List (BitVec 64 × BitVec 64)} (hq : ∀ t ∈ ts, (nsToTicks t.2).toNat ≤ q) :
    Latched p (Pit.latches latch p' ts) q := by
  induction ts generalizing p' with
  | nil => exact h
  | cons t ts ih =>
      apply ih (h.countLatch hload (hq t List.mem_cons_self))
      exact fun t' ht' => hq t' (List.mem_cons_of_mem t ht')

theorem latches_concat (ts : List (BitVec 64 × BitVec 64)) :
    latches latch p (ts ++ [(itime, e)]) =
      (countLatch latch itime (latches latch p ts) (clock (latches latch p ts) e)).1 := by
  rw [latches, List.foldl_append]
  rfl

theorem Loaded.latched (q : Nat) : Latched p p q :=
  ⟨rfl, rfl, rfl, .inl rfl⟩

/-- A latch of a counter other than 0, after others, shows the count of the ticks it computes. -/
theorem latches_shows (hload : Loaded p) (hlatch : latch ≠ 0) {ts : List (BitVec 64 × BitVec 64)}
    (hq : ∀ t ∈ ts, (nsToTicks t.2).toNat ≤ (nsToTicks e).toNat) :
    (latches latch p (ts ++ [(itime, e)])).shows =
      count p.mode (reload p.writeLatch).toNat (nsToTicks e).toNat := by
  have hl : Latched p (latches latch p ts) (nsToTicks e).toNat :=
    Latched.latches (Loaded.latched _) hload hq
  rw [latches_concat, hl.clock_eq]
  cases hmode : oneShot p.mode with
  | true =>
      rw [countLatch_of_oneShot (hl.mode_eq ▸ hmode)]
      have hticks := hl.noteLatch.elapsed (e := e) hmode
      exact (runDown_latched hload hl.noteLatch hmode (by rw [hticks])).2.1 (by rw [hticks])
  | false =>
      rw [countLatch_periodic hload (hl.periodic_cntr hmode) hl.mode_eq hmode hlatch, clock, hmode,
        if_neg Bool.false_ne_true]

/-- What is left until the next interrupt is no more than the period. -/
theorem ticksLeft_zero (p : Counter) (itime cur : BitVec 64) (hpos : 0 < p.cntr) :
    0 ≤ (ticksLeft 0 itime p cur).1 ∧ (ticksLeft 0 itime p cur).1 ≤ p.cntr := by
  have hlt := nsToTicks_lt (itime - cur)
  have hticks : 0 ≤ (nsToTicks (itime - cur) + 1).toInt := by
    have hone : (nsToTicks (itime - cur) + 1).toNat = (nsToTicks (itime - cur)).toNat + 1 := by
      rw [BitVec.toNat_add]
      exact Nat.mod_eq_of_lt (show (nsToTicks (itime - cur)).toNat + 1 < 2 ^ 64 by omega)
    rw [BitVec.toInt_eq_toNat_cond, hone, if_pos (by omega)]
    omega
  rw [ticksLeft, if_pos rfl]
  split
  · dsimp only
    omega
  · dsimp only
    split <;> omega

/-- A latch of counter 0 stays below its reload value. -/
theorem latches_zero_le (hload : Loaded p) {ts : List (BitVec 64 × BitVec 64)}
    (hq : ∀ t ∈ ts, (nsToTicks t.2).toNat ≤ q) (he : (nsToTicks e).toNat ≤ q) :
    (latches 0 p (ts ++ [(itime, e)])).readLatch.toNat ≤ (reload p.writeLatch).toNat := by
  have hl : Latched p (latches 0 p ts) q := Latched.latches (Loaded.latched _) hload hq
  rw [latches_concat, hl.clock_eq]
  cases hmode : oneShot p.mode with
  | true =>
      rw [countLatch_of_oneShot (hl.mode_eq ▸ hmode)]
      have hticks := hl.noteLatch.elapsed (e := e) hmode
      exact (runDown_latched hload hl.noteLatch hmode (by rw [hticks]; exact he)).2.2
  | false =>
      have hpos := reload_pos p.writeLatch
      have hle := reload_le p.writeLatch
      have hcntr := (hl.noteLatch.periodic_cntr hmode).trans hload.cntr_eq
      obtain ⟨hnonneg, hleft⟩ := ticksLeft_zero (latches 0 p ts).noteLatch itime (clock p e)
        (by omega)
      rw [countLatch_of_periodic (hl.mode_eq ▸ hmode)]
      exact showTicks_readLatch_le (hcntr.trans (by omega)) (by omega) hnonneg (by omega)

end Latches

/-! ## When the counters are exact -/

/-- Numbers that leave the same remainders for four neighbouring divisors are far apart. -/
theorem le_sub_of_mod_eq {a b : Nat} (hlt : a < b)
    (h : ∀ r ∈ [65535, 65534, 65533, 65532], a % r = b % r) : 2 ^ 61 ≤ b - a := by
  have hdvd : ∀ r ∈ [65535, 65534, 65533, 65532], r ∣ b - a := fun r hr =>
    (Nat.modEq_iff_dvd' hlt.le).mp (h r hr)
  have hlcm : Nat.lcm (Nat.lcm 65535 65534) (Nat.lcm 65533 65532) ∣ b - a :=
    Nat.lcm_dvd (Nat.lcm_dvd (hdvd _ (by decide)) (hdvd _ (by decide)))
      (Nat.lcm_dvd (hdvd _ (by decide)) (hdvd _ (by decide)))
  exact le_trans (by decide +kernel) (Nat.le_of_dvd (Nat.sub_pos_of_lt hlt) hlcm)

/-- Where the product does not fit, some reload value tells the ticks from those that were
computed. -/
theorem exists_wrong_reload {e : BitVec 64} (h : 2 ^ 64 ≤ e.toNat * 1193182) :
    ∃ w : BitVec 16, (nsToTicks e).toNat % (reload w).toNat ≠
      ticksIn e.toNat % (reload w).toNat := by
  have hlt := e.isLt
  by_contra hall
  simp only [not_exists, not_not] at hall
  have hticks : (nsToTicks e).toNat < ticksIn e.toNat := by
    rw [nsToTicks_toNat, ticksIn]
    omega
  have hfar : 2 ^ 61 ≤ ticksIn e.toNat - (nsToTicks e).toNat := by
    apply le_sub_of_mod_eq hticks
    intro r hr
    have hr' : (reload (BitVec.ofNat 16 r)).toNat = r := by
      revert r
      decide
    have hmod := hall (BitVec.ofNat 16 r)
    rwa [hr'] at hmod
  rw [ticksIn] at hfar
  omega

/-- A counter with the reload value of `w`, in mode 2. -/
def rateGenerator (w : BitVec 16) : Counter where
  mode := 2
  outpin := 0
  readState := 3
  writeState := 3
  readLatch := 0xffffffff
  writeLatch := w
  cntr := reload w
  time := 0
  latchedCnt := 0

theorem rateGenerator_loaded (w : BitVec 16) : Loaded (rateGenerator w) :=
  ⟨rfl, show (2 : BitVec 8) &&& 0x40 = 0 by decide⟩

theorem count_rateGenerator (w : BitVec 16) (q : Nat) :
    count (rateGenerator w).mode (reload w).toNat q =
      .running ((reload w).toNat - q % (reload w).toNat) := by
  rw [show (rateGenerator w).mode = 2 from rfl, count, if_neg (by decide)]
  dsimp only
  rw [if_neg (by decide)]

/-- All counters are exact after the times for which the product fits in 64 bits. -/
theorem exactAt_iff (e : BitVec 64) : ExactAt e ↔ e.toNat * 1193182 < 2 ^ 64 := by
  constructor
  · intro hexact
    by_contra hfits
    obtain ⟨w, hw⟩ := exists_wrong_reload (not_lt.mp hfits)
    have hpos := reload_pos w
    have hnone : ∀ t ∈ ([] : List (BitVec 64 × BitVec 64)),
        (nsToTicks t.2).toNat ≤ (nsToTicks e).toNat := fun _ ht => absurd ht List.not_mem_nil
    have hall := hexact (rateGenerator w) (rateGenerator_loaded w) 0 []
      fun _ ht => absurd ht List.not_mem_nil
    have hcount := hall.1 1 (.inl rfl)
    rw [latches_shows (rateGenerator_loaded w) Nat.one_ne_zero hnone] at hcount
    rw [show (rateGenerator w).writeLatch = w from rfl, count_rateGenerator,
      count_rateGenerator] at hcount
    injection hcount with hleft
    have hmod : ∀ q : Nat, q % (reload w).toNat < (reload w).toNat := fun q =>
      Nat.mod_lt q (by omega)
    have h1 := hmod (nsToTicks e).toNat
    have h2 := hmod (ticksIn e.toNat)
    omega
  · intro hfits p hload itime ts hts
    have hq : ∀ t ∈ ts, (nsToTicks t.2).toNat ≤ (nsToTicks e).toNat := by
      intro t ht
      have hle : t.2.toNat ≤ e.toNat := hts t ht
      have hfits' := lt_of_le_of_lt (Nat.mul_le_mul_right 1193182 hle) hfits
      rw [nsToTicks_exact hfits, nsToTicks_exact hfits']
      exact ticksIn_mono hle
    constructor
    · intro latch hlatch
      rw [latches_shows hload (by omega) hq, nsToTicks_exact hfits]
    · exact latches_zero_le hload hq le_rfl

/-- After 15461 seconds the count of a reload value is off. -/
theorem product_overflows : ¬ExactAt 15460126010709 := by
  intro hexact
  have hall := hexact (rateGenerator 65535) (rateGenerator_loaded 65535) 0 []
    fun _ ht => absurd ht List.not_mem_nil
  exact absurd (hall.1 1 (.inl rfl)) (by decide +kernel)

end Pit
end Core
end Dosemu
