import Dosemu.Pic.Lines

/-!
# The virtual timers

A timer is raised by its clock, on any thread: its bit in `vtmr_pirr` wakes a thread that turns it
into a request, either the bit in `vtmr_irr` with a line of the second controller, or, while that
line is masked, a pulse of the line that a PC has.  The emulation thread masks, unmasks and
acknowledges requests through ports, at any point of all this.
-/

namespace Dosemu
namespace Pic

/-- `VTMR_PIT`, `VTMR_RTC` -/
inductive Timer
  | pit
  | rtc
  deriving DecidableEq

/-- `vip`, the line of the second controller: `VTMR_IRQ`, `VRTC_IRQ` -/
def Timer.line : Timer → Nat
  | .pit => 3
  | .rtc => 6

/-- `orig_irq` -/
def Timer.origIrq : Timer → Nat
  | .pit => 0
  | .rtc => 8

/-- The bits of a word, by timer -/
abbrev TimerSet := Timer → Bool

/-- `find_bit` -/
def TimerSet.first (w : TimerSet) : Option Timer :=
  if w .pit then some .pit else if w .rtc then some .rtc else none

/-- Where `do_vtmr_raise` is, or `vtmr_raise` around it: before it clears `done_pred`, before it
sets the bit, before it posts the semaphore, or before it sets `done_pred` again as the bit was
set -/
inductive RaisePc
  | begin
  | fetch
  | post
  | fail
  deriving DecidableEq

/-- Where the timer thread is in `vtmr_smi`, with the timers it still has to look at -/
inductive SmiPc
  | waiting
  | awake
  | scanning (rest : TimerSet)
  | probing (t : Timer) (low : Bool) (rest : TimerSet)
  | requesting (t : Timer) (masked : Bool) (rest : TimerSet)
  /-- the bit in `vtmr_irr` is set, `vtmr_imr` is to be read -/
  | requested (t : Timer) (rest : TimerSet)
  /-- the timer is not masked, the line is to be put up -/
  | raising (t : Timer) (rest : TimerSet)
  | faking (t : Timer) (rest : TimerSet)
  /-- behind the pulse of the original line -/
  | pulsed (t : Timer) (rest : TimerSet)
  | reraising (t : Timer) (rest : TimerSet)
  | posting (t : Timer) (rest : TimerSet)
  | finishing (t : Timer) (rest : TimerSet)

/-- Where the emulation thread is in `vtmr_io_write` -/
inductive IoPc
  | idle
  /-- the bit in `vtmr_imr` is set, `vtmr_irr` is to be read -/
  | masking (t : Timer)
  | unmasking (t : Timer)
  /-- `do_pit_latch` runs the timer by hand -/
  | lagging (act : Bool) (pc : RaisePc)
  | syncing (act : Bool)
  | latched
  /-- the bit in `vtmr_irr` is cleared, under the lock -/
  | acking (t : Timer) (masked : Bool)
  | handling (t : Timer) (masked : Bool)
  | reraising (t : Timer)
  | posting (t : Timer)

/-- The timers: the registers, the semaphore, `done_pred`, `q_ticks` and `tmr_skip` of the timer 0
of the PIT, how many other threads are at each place of `vtmr_raise`, and the controllers.  `taken`
tells whether the line was acknowledged since it went up; `reported` and `acked` are the ticks that
the clock has told of and that the handler has acknowledged. -/
structure Vtmr where
  irr : TimerSet
  imr : TimerSet
  pirr : TimerSet
  sem : Nat
  donePred : TimerSet
  ticks : Nat
  skip : Nat
  claimed : Timer → Nat
  begun : Timer → Nat
  failing : Timer → Nat
  posts : Nat
  pics : Pics
  taken : TimerSet
  reported : Nat
  acked : Nat

/-- With the places of the two threads -/
structure VtmrState where
  regs : Vtmr
  smi : SmiPc
  io : IoPc

/-- The steps: the clock and the other threads, the two threads, and other uses of the
controllers -/
inductive VtmrOp
  /-- `timer_activate` with a number of ticks -/
  | activate (n : Nat)
  /-- the periodic interrupt of the RTC -/
  | rtcRaise
  | begin (t : Timer)
  | fetch (t : Timer)
  | post
  | fail (t : Timer)
  | smi
  | io
  | mask (t : Timer)
  | unmask (t : Timer)
  | ack (t : Timer) (masked : Bool)
  /-- `lag`: the timer is late; `act`: the latch function tells of an underflow that calls for an
  acknowledgement -/
  | latch (lag act : Bool)
  | pic (op : Op)

/-- `irr_mtx` is with the timer thread. -/
def SmiPc.locked : SmiPc → Bool
  | .requested _ _ => true
  | .raising _ _ => true
  | _ => false

/-- `irr_mtx` is with the emulation thread. -/
def IoPc.locked : IoPc → Bool
  | .acking _ _ => true
  | .handling _ _ => true
  | .reraising _ => true
  | .posting _ => true
  | _ => false

/-- A word with one bit set or cleared -/
def TimerSet.put (w : TimerSet) (t : Timer) (b : Bool) : TimerSet :=
  Function.update w t b

namespace Vtmr

variable (v : Vtmr)

/-- `pic_request` and `pic_untrigger` of a timer's own line -/
def setLine (t : Timer) (level : Bool) : Vtmr :=
  { v with
    pics := v.pics.setLine (t.line + 8) level
    taken := v.taken.put t (level && decide (v.pics.High t.line) && v.taken t) }

/-- The handlers: `timer_irq_ack` of the PIT, where `q_ticks` has 32 bits, and `rtc_vint`.  The
result is whether the timer is to be raised again. -/
def handle (t : Timer) (masked : Bool) : Vtmr × Bool :=
  match t with
  | .pit =>
    let ticks := (v.ticks + (2 ^ 32 - 1)) % 2 ^ 32
    ({ v with ticks := ticks, acked := v.acked + 1 }, decide (ticks ≠ 0))
  | .rtc => (if masked then { v with pics := v.pics.setLine 8 true } else v, false)

/-- One step of the timer thread: `vtmr_smi` in its loop, and `VTMR_REQUEST_PORT` -/
def smiStep (io : IoPc) : SmiPc → Option (Vtmr × SmiPc)
  | .waiting => if 0 < v.sem then some ({ v with sem := v.sem - 1 }, .awake) else none
  | .awake => some ({ v with pirr := fun _ => false }, .scanning v.pirr)
  | .scanning rest =>
    match rest.first with
    | none => some (v, .waiting)
    | some t => some (v, .probing t (v.pics.pic0.imr.getLsbD 2) (rest.put t false))
  | .probing t low rest => some (v, .requesting t (low || v.pics.pic1.imr.getLsbD t.line) rest)
  | .requesting t true rest =>
    some ({ v with pics := (v.pics.setLine t.origIrq false).setLine t.origIrq true },
      .pulsed t rest)
  | .requesting t false rest =>
    if io.locked then none
    else if v.irr t then some (v, .faking t rest)
    else some ({ v with irr := v.irr.put t true }, .requested t rest)
  | .requested t rest => if v.imr t then some (v, .faking t rest) else some (v, .raising t rest)
  | .raising t rest => some (v.setLine t true, .faking t rest)
  | .faking t rest =>
    some ({ v with pics := (v.pics.exec (.writeFirr false 1)).2 }, .finishing t rest)
  | .pulsed t rest =>
    let r := v.handle t false
    some (r.1, if r.2 then .reraising t rest else .finishing t rest)
  | .reraising t rest =>
    if v.pirr t then some (v, .finishing t rest)
    else some ({ v with pirr := v.pirr.put t true }, .posting t rest)
  | .posting t rest => some ({ v with sem := v.sem + 1 }, .finishing t rest)
  | .finishing t rest =>
    some ({ v with donePred := v.donePred.put t true }, .scanning rest)

/-- One step of the emulation thread in a port write -/
def ioStep (smi : SmiPc) : IoPc → Option (Vtmr × IoPc)
  | .idle => none
  | .masking t => some (if v.irr t then v.setLine t false else v, .idle)
  | .unmasking t => some (if v.irr t then v.setLine t true else v, .idle)
  | .lagging act .begin =>
    some ({ v with donePred := v.donePred.put .pit false }, .lagging act .fetch)
  | .lagging act .fetch =>
    if v.pirr .pit then some (v, .lagging act .fail)
    else some ({ v with pirr := v.pirr.put .pit true }, .lagging act .post)
  | .lagging act .post => some ({ v with sem := v.sem + 1 }, .syncing act)
  | .lagging act .fail => some ({ v with donePred := v.donePred.put .pit true }, .syncing act)
  | .syncing act => if v.donePred .pit then some (v, if act then .latched else .idle) else none
  | .latched =>
    if smi.locked then none
    else if v.irr .pit then some ({ v with irr := v.irr.put .pit false }, .acking .pit true)
    else some (v, .idle)
  | .acking t masked => some (v.setLine t false, .handling t masked)
  | .handling t masked =>
    let r := v.handle t masked
    some (r.1, if r.2 then .reraising t else .idle)
  | .reraising t =>
    if v.pirr t then some (v, .idle)
    else some ({ v with pirr := v.pirr.put t true }, .posting t)
  | .posting _ => some ({ v with sem := v.sem + 1 }, .idle)

/-- A port write of the emulation thread begins: `VTMR_MASK_PORT`, `VTMR_UNMASK_PORT`,
`VTMR_ACK_PORT` and `VTMR_LATCH_PORT`. -/
def portWrite (smi : SmiPc) : VtmrOp → Option (Vtmr × IoPc)
  | .mask t => some ({ v with imr := v.imr.put t true }, if v.imr t then .idle else .masking t)
  | .unmask t =>
    some ({ v with imr := v.imr.put t false }, if v.imr t then .unmasking t else .idle)
  | .ack t masked =>
    if smi.locked then none
    else if v.irr t then some ({ v with irr := v.irr.put t false }, .acking t masked)
    else some (v, .idle)
  | .latch lag act =>
    if lag && v.ticks == 0 then
      some ({ v with ticks := 1, skip := v.skip + 1 }, .lagging act .begin)
    else some (v, .syncing act)
  | _ => none

/-- A step of the clock, of another thread that raises a timer, or of another device -/
def otherStep : VtmrOp → Option Vtmr
  | .activate n =>
    if 0 < v.skip then some { v with skip := v.skip - 1, reported := v.reported + n }
    else if n = 0 then some v
    else
      some { v with
        reported := v.reported + n
        ticks := (v.ticks + n) % 2 ^ 32
        claimed :=
          if v.ticks = 0 then Function.update v.claimed .pit (v.claimed .pit + 1) else v.claimed }
  | .rtcRaise => some { v with claimed := Function.update v.claimed .rtc (v.claimed .rtc + 1) }
  | .begin t =>
    if 0 < v.claimed t then
      some { v with
        claimed := Function.update v.claimed t (v.claimed t - 1)
        begun := Function.update v.begun t (v.begun t + 1)
        donePred := v.donePred.put t false }
    else none
  | .fetch t =>
    if 0 < v.begun t then
      let v' := { v with begun := Function.update v.begun t (v.begun t - 1) }
      if v.pirr t then some { v' with failing := Function.update v.failing t (v.failing t + 1) }
      else some { v' with pirr := v.pirr.put t true, posts := v.posts + 1 }
    else none
  | .post =>
    if 0 < v.posts then some { v with posts := v.posts - 1, sem := v.sem + 1 } else none
  | .fail t =>
    if 0 < v.failing t then
      some { v with
        failing := Function.update v.failing t (v.failing t - 1)
        donePred := v.donePred.put t true }
    else none
  | .pic op =>
    some { v with
      pics := (v.pics.exec op).2
      taken := fun t => v.taken t || decide (v.pics.acknowledged op = some t.line) }
  | _ => none

end Vtmr

namespace VtmrState

/-- The emulation thread is free for a port write. -/
def write (s : VtmrState) (op : VtmrOp) : Option VtmrState :=
  match s.io with
  | .idle => (s.regs.portWrite s.smi op).map fun r => { s with regs := r.1, io := r.2 }
  | _ => none

/-- One step of any of them; none where a thread waits -/
def step (s : VtmrState) : VtmrOp → Option VtmrState
  | .smi => (s.regs.smiStep s.io s.smi).map fun r => { s with regs := r.1, smi := r.2 }
  | .io => (s.regs.ioStep s.smi s.io).map fun r => { s with regs := r.1, io := r.2 }
  | .mask t => s.write (.mask t)
  | .unmask t => s.write (.unmask t)
  | .ack t masked => s.write (.ack t masked)
  | .latch lag act => s.write (.latch lag act)
  | op => (s.regs.otherStep op).map fun v => { s with regs := v }

/-- Nobody else drives the two lines, and the second controller is initialized while both are low
only. -/
def Spared (s : VtmrState) : VtmrOp → Prop
  | .pic op => (∀ t : Timer, s.regs.pics.Spares t.line op) ∨
    (s.regs.pics.Restarts op ∧ ∀ t : Timer, ¬s.regs.pics.High t.line)
  | _ => True

/-- The ticks that are left have 32 bits, and a tick that was run by hand is reported alone; nobody
else drives the two lines, and the second controller is initialized while both are low only. -/
def Good (s : VtmrState) : VtmrOp → Prop
  | .activate n => s.regs.ticks + n < 2 ^ 32 ∧ (0 < s.regs.skip → n = 1)
  | .pic op => (∀ t : Timer, s.regs.pics.Spares t.line op) ∨
    (s.regs.pics.Restarts op ∧ ∀ t : Timer, ¬s.regs.pics.High t.line)
  | _ => True

end VtmrState

/-! ## Words -/

theorem TimerSet.put_self (w : TimerSet) (t : Timer) (b : Bool) : w.put t b t = b := by
  unfold put
  rw [Function.update_self]

theorem TimerSet.put_of_ne (w : TimerSet) {t u : Timer} (h : u ≠ t) (b : Bool) :
    w.put t b u = w u := by
  unfold put
  rw [Function.update_of_ne h]

theorem TimerSet.first_eq_none {w : TimerSet} (h : w.first = none) (t : Timer) : w t = false := by
  unfold first at h
  split_ifs at h with hpit hrtc
  cases t with
  | pit => exact Bool.eq_false_of_not_eq_true hpit
  | rtc => exact Bool.eq_false_of_not_eq_true hrtc

theorem TimerSet.first_eq_some {w : TimerSet} {t : Timer} (h : w.first = some t) : w t = true := by
  unfold first at h
  split_ifs at h with hpit hrtc
  · cases h
    exact hpit
  · cases h
    exact hrtc

theorem Timer.line_lt (t : Timer) : t.line < 8 := by
  cases t <;> decide

theorem Timer.line_inj {t u : Timer} (h : t.line = u.line) : t = u := by
  cases t <;> cases u <;> first | rfl | cases h

theorem Timer.origIrq_ne (t u : Timer) : t.origIrq ≠ u.line + 8 := by
  cases t <;> cases u <;> decide

/-- The handler of a timer changes its ticks and a line. -/
theorem Vtmr.handle_eq (v : Vtmr) (t : Timer) (masked : Bool) :
    ∃ ticks acked pics,
      (v.handle t masked).1 = { v with ticks := ticks, acked := acked, pics := pics } ∧
        (pics = v.pics ∨ pics = v.pics.setLine 8 true) := by
  cases t with
  | pit => exact ⟨_, _, _, rfl, .inl rfl⟩
  | rtc =>
    cases masked with
    | false => exact ⟨_, _, _, rfl, .inl rfl⟩
    | true => exact ⟨_, _, _, rfl, .inr rfl⟩

/-! ## What one step does -/

section

variable (v : Vtmr)

/-- The steps of the timer thread, one by one -/
inductive SmiMove (io : IoPc) : SmiPc → Vtmr → SmiPc → Prop
  | wait (hsem : 0 < v.sem) : SmiMove io .waiting { v with sem := v.sem - 1 } .awake
  | fetch : SmiMove io .awake { v with pirr := fun _ => false } (.scanning v.pirr)
  | done {rest : TimerSet} (hfirst : rest.first = none) : SmiMove io (.scanning rest) v .waiting
  | next {rest : TimerSet} {t : Timer} (hfirst : rest.first = some t) (low : Bool) :
    SmiMove io (.scanning rest) v (.probing t low (rest.put t false))
  | probe {t : Timer} {low : Bool} {rest : TimerSet} (masked : Bool) :
    SmiMove io (.probing t low rest) v (.requesting t masked rest)
  | pulse {t : Timer} {rest : TimerSet} :
    SmiMove io (.requesting t true rest)
      { v with pics := (v.pics.setLine t.origIrq false).setLine t.origIrq true } (.pulsed t rest)
  | again {t : Timer} {rest : TimerSet} (hirr : v.irr t = true) :
    SmiMove io (.requesting t false rest) v (.faking t rest)
  | request {t : Timer} {rest : TimerSet} (hfree : io.locked = false) (hirr : v.irr t = false) :
    SmiMove io (.requesting t false rest) { v with irr := v.irr.put t true } (.requested t rest)
  | hide {t : Timer} {rest : TimerSet} (himr : v.imr t = true) :
    SmiMove io (.requested t rest) v (.faking t rest)
  | show {t : Timer} {rest : TimerSet} : SmiMove io (.requested t rest) v (.raising t rest)
  | raise {t : Timer} {rest : TimerSet} :
    SmiMove io (.raising t rest) (v.setLine t true) (.faking t rest)
  | fake {t : Timer} {rest : TimerSet} :
    SmiMove io (.faking t rest) { v with pics := (v.pics.exec (.writeFirr false 1)).2 }
      (.finishing t rest)
  | handle {t : Timer} {rest : TimerSet} :
    SmiMove io (.pulsed t rest) (v.handle t false).1
      (if (v.handle t false).2 then .reraising t rest else .finishing t rest)
  | raised {t : Timer} {rest : TimerSet} (hpirr : v.pirr t = true) :
    SmiMove io (.reraising t rest) v (.finishing t rest)
  | reraise {t : Timer} {rest : TimerSet} (hpirr : v.pirr t = false) :
    SmiMove io (.reraising t rest) { v with pirr := v.pirr.put t true } (.posting t rest)
  | post {t : Timer} {rest : TimerSet} :
    SmiMove io (.posting t rest) { v with sem := v.sem + 1 } (.finishing t rest)
  | finish {t : Timer} {rest : TimerSet} :
    SmiMove io (.finishing t rest) { v with donePred := v.donePred.put t true } (.scanning rest)

/-- The steps of the emulation thread in a port write; it begins one where it is `idle`. -/
inductive IoMove (smi : SmiPc) : IoPc → Vtmr → IoPc → Prop
  | mask (t : Timer) {io : IoPc} (hpc : io = .idle ∨ io = .masking t) :
    IoMove smi .idle { v with imr := v.imr.put t true } io
  | unmask {t : Timer} (himr : v.imr t = true) :
    IoMove smi .idle { v with imr := v.imr.put t false } (.unmasking t)
  | unmasked {t : Timer} (himr : v.imr t = false) :
    IoMove smi .idle { v with imr := v.imr.put t false } .idle
  | down {t : Timer} : IoMove smi (.masking t) (v.setLine t false) .idle
  | spared {t : Timer} : IoMove smi (.masking t) v .idle
  | up {t : Timer} (hirr : v.irr t = true) : IoMove smi (.unmasking t) (v.setLine t true) .idle
  | quiet {t : Timer} (hirr : v.irr t = false) : IoMove smi (.unmasking t) v .idle
  | take {t : Timer} {io : IoPc} (hio : io = .idle ∨ io = .latched) (masked : Bool)
    (hfree : smi.locked = false) (hirr : v.irr t = true) :
    IoMove smi io { v with irr := v.irr.put t false } (.acking t masked)
  | noRequest {io : IoPc} (hio : io = .idle ∨ io = .latched) : IoMove smi io v .idle
  | lag (act : Bool) (hticks : v.ticks = 0) :
    IoMove smi .idle { v with ticks := 1, skip := v.skip + 1 } (.lagging act .begin)
  | inTime (act : Bool) : IoMove smi .idle v (.syncing act)
  | begin {act : Bool} :
    IoMove smi (.lagging act .begin) { v with donePred := v.donePred.put .pit false }
      (.lagging act .fetch)
  | raised {act : Bool} (hpirr : v.pirr .pit = true) :
    IoMove smi (.lagging act .fetch) v (.lagging act .fail)
  | fetch {act : Bool} (hpirr : v.pirr .pit = false) :
    IoMove smi (.lagging act .fetch) { v with pirr := v.pirr.put .pit true } (.lagging act .post)
  | post {act : Bool} :
    IoMove smi (.lagging act .post) { v with sem := v.sem + 1 } (.syncing act)
  | fail {act : Bool} :
    IoMove smi (.lagging act .fail) { v with donePred := v.donePred.put .pit true } (.syncing act)
  | sync {act : Bool} {io : IoPc} (hpc : io = .idle ∨ io = .latched) :
    IoMove smi (.syncing act) v io
  | ack {t : Timer} {masked : Bool} :
    IoMove smi (.acking t masked) (v.setLine t false) (.handling t masked)
  | handle {t : Timer} {masked : Bool} :
    IoMove smi (.handling t masked) (v.handle t masked).1
      (if (v.handle t masked).2 then .reraising t else .idle)
  | stays {t : Timer} (hpirr : v.pirr t = true) : IoMove smi (.reraising t) v .idle
  | reraise {t : Timer} (hpirr : v.pirr t = false) :
    IoMove smi (.reraising t) { v with pirr := v.pirr.put t true } (.posting t)
  | repost {t : Timer} : IoMove smi (.posting t) { v with sem := v.sem + 1 } .idle

/-- The steps of the others -/
inductive OtherMove : VtmrOp → Vtmr → Prop
  | skip {n : Nat} (hskip : 0 < v.skip) :
    OtherMove (.activate n) { v with skip := v.skip - 1, reported := v.reported + n }
  | noTick : OtherMove (.activate 0) v
  | claim {n : Nat} (hn : n ≠ 0) (hticks : v.ticks = 0) :
    OtherMove (.activate n)
      { v with
        reported := v.reported + n
        ticks := (v.ticks + n) % 2 ^ 32
        claimed := Function.update v.claimed .pit (v.claimed .pit + 1) }
  | more {n : Nat} (hticks : v.ticks ≠ 0) :
    OtherMove (.activate n)
      { v with reported := v.reported + n, ticks := (v.ticks + n) % 2 ^ 32 }
  | rtcRaise :
    OtherMove .rtcRaise { v with claimed := Function.update v.claimed .rtc (v.claimed .rtc + 1) }
  | begin {t : Timer} (hclaimed : 0 < v.claimed t) :
    OtherMove (.begin t)
      { v with
        claimed := Function.update v.claimed t (v.claimed t - 1)
        begun := Function.update v.begun t (v.begun t + 1)
        donePred := v.donePred.put t false }
  | raised {t : Timer} (hbegun : 0 < v.begun t) (hpirr : v.pirr t = true) :
    OtherMove (.fetch t)
      { v with
        begun := Function.update v.begun t (v.begun t - 1)
        failing := Function.update v.failing t (v.failing t + 1) }
  | fetch {t : Timer} (hbegun : 0 < v.begun t) (hpirr : v.pirr t = false) :
    OtherMove (.fetch t)
      { v with
        begun := Function.update v.begun t (v.begun t - 1)
        pirr := v.pirr.put t true
        posts := v.posts + 1 }
  | post (hposts : 0 < v.posts) : OtherMove .post { v with posts := v.posts - 1, sem := v.sem + 1 }
  | fail {t : Timer} (hfailing : 0 < v.failing t) :
    OtherMove (.fail t)
      { v with
        failing := Function.update v.failing t (v.failing t - 1)
        donePred := v.donePred.put t true }
  | pic (op : Op) :
    OtherMove (.pic op)
      { v with
        pics := (v.pics.exec op).2
        taken := fun t => v.taken t || decide (v.pics.acknowledged op = some t.line) }

end

namespace Vtmr

variable {v v' : Vtmr} {smi smi' : SmiPc} {io io' : IoPc} {op : VtmrOp}

theorem smiStep_move (h : v.smiStep io smi = some (v', smi')) : SmiMove v io smi v' smi' := by
  unfold smiStep at h
  split at h
  case h_1 =>
    split_ifs at h with hsem
    cases h
    exact .wait hsem
  case h_3 rest =>
    split at h
    next hfirst =>
      cases h
      exact .done hfirst
    next t hfirst =>
      cases h
      exact .next hfirst _
  case h_6 t rest =>
    split_ifs at h with hlocked hirr
    · cases h
      exact .again hirr
    · cases h
      exact .request (Bool.eq_false_of_not_eq_true hlocked) (Bool.eq_false_of_not_eq_true hirr)
  case h_7 t rest =>
    split_ifs at h with himr
    · cases h
      exact .hide himr
    · cases h
      exact .show
  case h_11 t rest =>
    split_ifs at h with hpirr
    · cases h
      exact .raised hpirr
    · cases h
      exact .reraise (Bool.eq_false_of_not_eq_true hpirr)
  all_goals
    cases h
    constructor

theorem ioStep_move (h : v.ioStep smi io = some (v', io')) : IoMove v smi io v' io' := by
  unfold ioStep at h
  split at h
  case h_1 => cases h
  case h_2 t =>
    cases h
    split
    · exact .down
    · exact .spared
  case h_3 t =>
    cases h
    split
    next hirr => exact .up hirr
    next hirr => exact .quiet (Bool.eq_false_of_not_eq_true hirr)
  case h_5 act =>
    split_ifs at h with hpirr
    · cases h
      exact .raised hpirr
    · cases h
      exact .fetch (Bool.eq_false_of_not_eq_true hpirr)
  case h_8 act =>
    split_ifs at h
    · cases h
      exact .sync (.inr rfl)
    · cases h
      exact .sync (.inl rfl)
  case h_9 =>
    split_ifs at h with hlocked hirr
    · cases h
      exact .take (.inr rfl) true (Bool.eq_false_of_not_eq_true hlocked) hirr
    · cases h
      exact .noRequest (.inr rfl)
  case h_12 t =>
    split_ifs at h with hpirr
    · cases h
      exact .stays hpirr
    · cases h
      exact .reraise (Bool.eq_false_of_not_eq_true hpirr)
  all_goals
    cases h
    constructor

theorem portWrite_move (h : v.portWrite smi op = some (v', io')) : IoMove v smi .idle v' io' := by
  unfold portWrite at h
  split at h
  case h_1 t =>
    cases h
    refine .mask t ?_
    split
    · exact .inl rfl
    · exact .inr rfl
  case h_2 t =>
    cases h
    split
    next himr => exact .unmask himr
    next himr => exact .unmasked (Bool.eq_false_of_not_eq_true himr)
  case h_3 t masked =>
    split_ifs at h with hlocked hirr
    · cases h
      exact .take (.inl rfl) masked (Bool.eq_false_of_not_eq_true hlocked) hirr
    · cases h
      exact .noRequest (.inl rfl)
  case h_4 lag act =>
    split_ifs at h with hlag
    · cases h
      rw [Bool.and_eq_true, beq_iff_eq] at hlag
      exact .lag act hlag.2
    · cases h
      exact .inTime act
  case h_5 => cases h

theorem otherStep_move (h : v.otherStep op = some v') : OtherMove v op v' := by
  unfold otherStep at h
  split at h
  case h_1 n =>
    split_ifs at h with hskip hn hticks
    · cases h
      exact .skip hskip
    · cases h
      rw [hn]
      exact .noTick
    · cases h
      exact .claim hn hticks
    · cases h
      exact .more hticks
  case h_3 t =>
    split_ifs at h with hclaimed
    cases h
    exact .begin hclaimed
  case h_4 t =>
    dsimp only at h
    split_ifs at h with hbegun hpirr
    · cases h
      exact .raised hbegun hpirr
    · cases h
      exact .fetch hbegun (Bool.eq_false_of_not_eq_true hpirr)
  case h_5 =>
    split_ifs at h with hposts
    cases h
    exact .post hposts
  case h_6 t =>
    split_ifs at h with hfailing
    cases h
    exact .fail hfailing
  case h_2 =>
    cases h
    exact .rtcRaise
  case h_7 op =>
    cases h
    exact .pic op
  case h_8 => cases h

end Vtmr

namespace VtmrState

/-- A step is one of the timer thread, of the emulation thread or of the others. -/
theorem step_cases {s s' : VtmrState} {op : VtmrOp} (h : s.step op = some s') :
    (∃ v smi, SmiMove s.regs s.io s.smi v smi ∧ s' = { s with regs := v, smi := smi }) ∨
      (∃ v io, IoMove s.regs s.smi s.io v io ∧ s' = { s with regs := v, io := io }) ∨
      ∃ v, OtherMove s.regs op v ∧ s' = { s with regs := v } := by
  have hwrite : s.write op = some s' →
      ∃ v io, IoMove s.regs s.smi s.io v io ∧ s' = { s with regs := v, io := io } := by
    intro hstep
    obtain ⟨v, smi, io⟩ := s
    cases io with
    | idle =>
      obtain ⟨⟨v', io⟩, hport, rfl⟩ := Option.map_eq_some_iff.mp hstep
      exact ⟨v', io, Vtmr.portWrite_move hport, rfl⟩
    | _ => cases hstep
  have hother : (s.regs.otherStep op).map (fun v => { s with regs := v }) = some s' →
      ∃ v, OtherMove s.regs op v ∧ s' = { s with regs := v } := by
    intro hstep
    obtain ⟨v, hv, rfl⟩ := Option.map_eq_some_iff.mp hstep
    exact ⟨v, Vtmr.otherStep_move hv, rfl⟩
  cases op with
  | smi =>
    obtain ⟨⟨v, smi⟩, hsmi, rfl⟩ := Option.map_eq_some_iff.mp h
    exact .inl ⟨v, smi, Vtmr.smiStep_move hsmi, rfl⟩
  | io =>
    obtain ⟨⟨v, io⟩, hio, rfl⟩ := Option.map_eq_some_iff.mp h
    exact .inr (.inl ⟨v, io, Vtmr.ioStep_move hio, rfl⟩)
  | mask t => exact .inr (.inl (hwrite h))
  | unmask t => exact .inr (.inl (hwrite h))
  | ack t masked => exact .inr (.inl (hwrite h))
  | latch lag act => exact .inr (.inl (hwrite h))
  | _ => exact .inr (.inr (hother h))

/-- After `vtmr_init`, `pit_reset` and `vtmr_reset` -/
def start : VtmrState where
  regs :=
    { irr := fun _ => false
      imr := fun _ => false
      pirr := fun _ => false
      sem := 0
      donePred := fun _ => true
      ticks := 0
      skip := 0
      claimed := fun _ => 0
      begun := fun _ => 0
      failing := fun _ => 0
      posts := 0
      pics := initPics
      taken := fun _ => false
      reported := 0
      acked := 0 }
  smi := .waiting
  io := .idle

instance {p : Timer → Prop} [DecidablePred p] : Decidable (∀ t, p t) :=
  decidable_of_iff (p .pit ∧ p .rtc)
    ⟨fun h t => match t with
      | .pit => h.1
      | .rtc => h.2, fun h => ⟨h .pit, h .rtc⟩⟩

instance (s : VtmrState) : ∀ op, Decidable (s.Spared op)
  | .pic _ => inferInstanceAs (Decidable (_ ∨ _))
  | .activate _ => .isTrue trivial
  | .rtcRaise => .isTrue trivial
  | .begin _ => .isTrue trivial
  | .fetch _ => .isTrue trivial
  | .post => .isTrue trivial
  | .fail _ => .isTrue trivial
  | .smi => .isTrue trivial
  | .io => .isTrue trivial
  | .mask _ => .isTrue trivial
  | .unmask _ => .isTrue trivial
  | .ack _ _ => .isTrue trivial
  | .latch _ _ => .isTrue trivial

instance (s : VtmrState) : ∀ op, Decidable (s.Good op)
  | .activate _ => inferInstanceAs (Decidable (_ ∧ _))
  | .pic _ => inferInstanceAs (Decidable (_ ∨ _))
  | .rtcRaise => .isTrue trivial
  | .begin _ => .isTrue trivial
  | .fetch _ => .isTrue trivial
  | .post => .isTrue trivial
  | .fail _ => .isTrue trivial
  | .smi => .isTrue trivial
  | .io => .isTrue trivial
  | .mask _ => .isTrue trivial
  | .unmask _ => .isTrue trivial
  | .ack _ _ => .isTrue trivial
  | .latch _ _ => .isTrue trivial

end VtmrState
end Pic
end Dosemu
