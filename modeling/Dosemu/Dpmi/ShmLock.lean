import Mathlib.Tactic
import Dosemu.Lib.Run

/-!
# Locks of shared memory blocks

Functions 0D02h and 0D03h of int 31h, and the loop at `DPMI_shlock` in which a
client waits for a lock it asked for in blocking mode.  `lock_flags` is one word
for the type of the lock that is held (bit 1), for the type of the request that
is pending (bit 1 again), and for the marks "in progress" (bit 16) and "cancel"
(bit 17).

A request writes the word before it is known whether it will succeed, and
`shm_lock` without looking at what is in it.  `Careful` lists the calls after
which a lock is lost, cannot be released, or is remembered although the request
failed.

Main results:

- Theorem `contract_iff`: a call keeps its contract exactly if it is careful.
- Theorem `locks_iff`: so does a run on a fresh block.
-/

namespace Dosemu
namespace Dpmi
namespace ShmLock

/-- A lock that `shlock_open` has returned. -/
structure Lock where
  id : Nat
  excl : Bool
deriving DecidableEq, Repr

/-- The fields of `dpmi_pm_block` that are about its lock. -/
structure PmBlock where
  shmLock : Option Lock
  lockFlags : BitVec 32
deriving DecidableEq, Repr

/-- A lock request is in progress. -/
def PmBlock.inProgress (ptr : PmBlock) : Bool :=
  ptr.lockFlags.getLsbD 16

/-- A cancel request has been made. -/
def PmBlock.cancelling (ptr : PmBlock) : Bool :=
  ptr.lockFlags.getLsbD 17

/-- How `DPMILockShared` returns: the error code, and whether the client goes to
`DPMI_shlock`. -/
structure LockReply where
  err : BitVec 16
  wait : Bool
deriving DecidableEq, Repr

/-- `DPMILockShared` on a block that was found. -/
def dpmiLockShared (shlockOpen : Bool → Option Lock) (ptr : PmBlock) (flags : BitVec 16) :
    PmBlock × LockReply :=
  let block := !flags.getLsbD 0
  let excl := !flags.getLsbD 1
  let ptr := { ptr with lockFlags := flags.setWidth 32 }
  if !block then
    match shlockOpen excl with
    | none => (ptr, ⟨if excl then 0x8018 else 0x8019, false⟩)
    | some lk => ({ ptr with shmLock := some lk }, ⟨0, false⟩)
  else ({ ptr with lockFlags := ptr.lockFlags ||| 0x10000#32 }, ⟨0, true⟩)

/-- What `LockShared` tells the loop at `DPMI_shlock`: CF with a code in EAX, ZF, or
neither of them. -/
inductive ShlockReply where
  | failed (eax : BitVec 32)
  | locked
  | again
deriving DecidableEq, Repr

/-- `LockShared` on a block that was found. -/
def lockShared (shlockOpen : Bool → Option Lock) (ptr : PmBlock) (flags : BitVec 16) :
    PmBlock × ShlockReply :=
  let excl := !flags.getLsbD 1
  if !ptr.inProgress then (ptr, .failed 0x8023)
  else if ptr.cancelling then ({ ptr with lockFlags := 0 }, .failed 0x8005)
  else
    match shlockOpen excl with
    | some lk => ({ shmLock := some lk, lockFlags := ptr.lockFlags &&& 0xffff#32 }, .locked)
    | none => (ptr, .again)

/-- `DPMIUnlockShared` on a block that was found: the block, the error code, and
the lock that was given to `shlock_close`. -/
def dpmiUnlockShared (ptr : PmBlock) (flags : BitVec 16) :
    PmBlock × BitVec 16 × Option Lock :=
  let excl := !flags.getLsbD 0
  let cancel := flags.getLsbD 1
  if excl ≠ !ptr.lockFlags.getLsbD 1 then (ptr, 0x8002, none)
  else if cancel then
    if !ptr.inProgress then (ptr, 0x8002, none)
    else ({ ptr with lockFlags := ptr.lockFlags ||| 0x20000#32 }, 0, none)
  else
    match ptr.shmLock with
    | none => (ptr, 0x8002, none)
    | some lk => ({ shmLock := none, lockFlags := 0 }, 0, some lk)

/-! ## Runs on one block -/

/-- A call on the block; `opens` is the answer of `shlock_open`, if it is asked. -/
inductive Call where
  | lock (flags : BitVec 16) (opens : Bool)
  | shlock (flags : BitVec 16) (opens : Bool)
  | unlock (flags : BitVec 16)
deriving DecidableEq, Repr

/-- The block, with what the source does not record: how many locks were opened,
which of them were closed, and the lock flags at the time of the last blocking
request. -/
structure World where
  block : PmBlock
  opened : Nat := 0
  closed : List Nat := []
  before : BitVec 32 := 0
deriving DecidableEq, Repr

namespace World

/-- The answer of `shlock_open`: a new lock of the type that is asked for. -/
def answer (w : World) (opens : Bool) (excl : Bool) : Option Lock :=
  if opens then some ⟨w.opened, excl⟩ else none

/-- A block that has just been allocated. -/
def fresh : World where
  block := ⟨none, 0⟩

def step (w : World) : Call → World
  | .lock flags opens =>
      let r := dpmiLockShared (w.answer opens) w.block flags
      { w with
        block := r.1
        opened := if !r.2.wait && opens then w.opened + 1 else w.opened
        before := if r.2.wait then w.block.lockFlags else w.before }
  | .shlock flags opens =>
      let r := lockShared (w.answer opens) w.block flags
      { w with
        block := r.1
        opened := if r.2 = .locked then w.opened + 1 else w.opened }
  | .unlock flags =>
      let r := dpmiUnlockShared w.block flags
      { w with
        block := r.1
        closed := match r.2.2 with
          | some lk => w.closed ++ [lk.id]
          | none => w.closed }

/-! ## What is asked of a call -/

/-- Every lock that was opened was closed once, or is recorded in the block and
was not closed. -/
def NoneLost (w : World) : Prop :=
  ∀ id < w.opened,
    w.closed.count id = 1 ∧ w.block.shmLock.map Lock.id ≠ some id ∨
    w.closed.count id = 0 ∧ w.block.shmLock.map Lock.id = some id

/-- The unlock flags for a type of lock. -/
def unlockFlags (excl : Bool) : BitVec 16 :=
  if excl then 0 else 1

/-- What is held can be released with its own type. -/
def Releasable (w : World) : Prop :=
  ∀ lk, w.block.shmLock = some lk →
    (dpmiUnlockShared w.block (unlockFlags lk.excl)).2 = (0, some lk)

/-- A lock request that fails leaves the recorded lock and the flags as they were:
as they were before the call, or before the request that is given up now. -/
def Undone (w : World) : Call → Prop
  | .lock flags opens =>
      (dpmiLockShared (w.answer opens) w.block flags).2.err ≠ 0 →
        (w.step (.lock flags opens)).block = w.block
  | .shlock flags opens =>
      (∃ eax, (lockShared (w.answer opens) w.block flags).2 = .failed eax) →
        (w.step (.shlock flags opens)).block =
          { w.block with
            lockFlags := if w.block.inProgress then w.before else w.block.lockFlags }
  | .unlock _ => True

/-- The contract of a call. -/
structure Contract (w : World) (c : Call) : Prop where
  noneLost : (w.step c).NoneLost
  releasable : (w.step c).Releasable
  undone : w.Undone c

/-- A call that cannot lose a lock: what it writes over was empty, or is what it
writes. -/
def Careful (w : World) : Call → Prop
  | .lock flags opens =>
      if flags.getLsbD 0 then
        if opens then w.block.shmLock = none else w.block.lockFlags = flags.setWidth 32
      else ∀ lk, w.block.shmLock = some lk → lk.excl = !flags.getLsbD 1
  | .shlock flags opens =>
      if !w.block.inProgress then True
      else if w.block.cancelling then w.before = 0
      else if opens then
        w.block.shmLock = none ∧ flags.getLsbD 1 = w.block.lockFlags.getLsbD 1
      else True
  | .unlock _ => True

/-- What holds in every state of a careful run. -/
structure Inv (w : World) : Prop where
  noneLost : w.NoneLost
  fresh : ∀ id, w.opened ≤ id →
    w.closed.count id = 0 ∧ w.block.shmLock.map Lock.id ≠ some id
  typed : ∀ lk, w.block.shmLock = some lk → lk.excl = !w.block.lockFlags.getLsbD 1
  pending : w.block.inProgress = true →
    ∀ lk, w.block.shmLock = some lk → lk.excl = !w.before.getLsbD 1

variable {w : World} {flags : BitVec 16} {opens : Bool}

/-! ## Bits of the flags -/

theorem setWidth_bit (flags : BitVec 16) {k : Nat} (hk : k < 16) :
    (flags.setWidth 32).getLsbD k = flags.getLsbD k := by
  rw [BitVec.getLsbD_setWidth]
  simp
  omega

theorem setWidth_high (flags : BitVec 16) {k : Nat} (hk : 16 ≤ k) :
    (flags.setWidth 32).getLsbD k = false := by
  rw [BitVec.getLsbD_setWidth, BitVec.getLsbD_of_ge _ _ hk, Bool.and_false]

theorem mark_type (x : BitVec 32) :
    (x ||| 0x10000#32).getLsbD 1 = x.getLsbD 1 ∧ (x ||| 0x20000#32).getLsbD 1 = x.getLsbD 1 ∧
      (x &&& 0xffff#32).getLsbD 1 = x.getLsbD 1 := by
  simp

theorem mark_progress (x : BitVec 32) :
    (x ||| 0x10000#32).getLsbD 16 = true ∧ (x ||| 0x20000#32).getLsbD 16 = x.getLsbD 16 ∧
      (x &&& 0xffff#32).getLsbD 16 = false := by
  simp

theorem unlockFlags_bits (excl : Bool) :
    (unlockFlags excl).getLsbD 0 = !excl ∧ (unlockFlags excl).getLsbD 1 = false := by
  cases excl <;> decide

/-- A lock can be released if the flags have its type. -/
theorem releasable_iff : w.Releasable ↔
    ∀ lk, w.block.shmLock = some lk → lk.excl = !w.block.lockFlags.getLsbD 1 := by
  unfold Releasable
  refine forall₂_congr fun lk hlk => ?_
  obtain ⟨htype, hcancel⟩ := unlockFlags_bits lk.excl
  unfold dpmiUnlockShared
  dsimp only
  rw [htype, hcancel, hlk, Bool.not_not]
  by_cases hexcl : lk.excl = !w.block.lockFlags.getLsbD 1
  · rw [if_neg (not_not.2 hexcl), if_neg Bool.false_ne_true]
    exact iff_of_true rfl hexcl
  · rw [if_pos hexcl]
    exact iff_of_false (by simp) hexcl

/-! ## One call -/

/-- A new lock takes the place of what was recorded. -/
theorem noneLost_open (h : w.Inv) {w' : World} {excl : Bool} (hopened : w'.opened = w.opened + 1)
    (hclosed : w'.closed = w.closed) (hlock : w'.block.shmLock = some ⟨w.opened, excl⟩) :
    w'.NoneLost ↔ w.block.shmLock = none := by
  constructor
  · intro hkept
    cases hold : w.block.shmLock with
    | none => rfl
    | some lk =>
        -- the lock that was recorded is neither closed nor recorded any more
        have hlt : lk.id < w.opened := by
          by_contra hge
          exact (h.fresh lk.id (by omega)).2 (by rw [hold]; rfl)
        have hopen : w.closed.count lk.id = 0 := by
          rcases h.noneLost lk.id hlt with ⟨-, hne⟩ | ⟨hzero, -⟩
          · exact absurd (by rw [hold]; rfl) hne
          · exact hzero
        rcases hkept lk.id (by omega) with ⟨hone, -⟩ | ⟨-, hrec⟩
        · rw [hclosed] at hone
          omega
        · rw [hlock] at hrec
          have hid : w.opened = lk.id := Option.some.inj hrec
          omega
  · intro hnone id hid
    rw [hclosed, hlock]
    by_cases hnew : id = w.opened
    · right
      rw [hnew]
      exact ⟨(h.fresh w.opened le_rfl).1, rfl⟩
    · left
      refine ⟨?_, fun hrec => hnew (Option.some.inj hrec).symm⟩
      rcases h.noneLost id (by omega) with ⟨hone, -⟩ | ⟨-, hrec⟩
      · exact hone
      · rw [hnone] at hrec
        cases hrec

theorem fresh_open (h : w.Inv) {w' : World} {excl : Bool} (hopened : w'.opened = w.opened + 1)
    (hclosed : w'.closed = w.closed) (hlock : w'.block.shmLock = some ⟨w.opened, excl⟩) :
    ∀ id, w'.opened ≤ id → w'.closed.count id = 0 ∧ w'.block.shmLock.map Lock.id ≠ some id := by
  intro id hid
  rw [hclosed, hlock]
  refine ⟨(h.fresh id (by omega)).1, fun hrec => ?_⟩
  have hnew : w.opened = id := Option.some.inj hrec
  omega

theorem step_lock_wait (hf : flags.getLsbD 0 = false) :
    w.step (.lock flags opens) = { w with
      block := { w.block with lockFlags := flags.setWidth 32 ||| 0x10000#32 }
      before := w.block.lockFlags } := by
  simp [step, dpmiLockShared, hf, -BitVec.getLsbD_eq_getElem]

theorem step_lock_fails (hf : flags.getLsbD 0 = true) :
    w.step (.lock flags false) = { w with
      block := { w.block with lockFlags := flags.setWidth 32 } } := by
  simp [step, dpmiLockShared, hf, answer, -BitVec.getLsbD_eq_getElem]

theorem step_lock_opens (hf : flags.getLsbD 0 = true) :
    w.step (.lock flags true) = { w with
      block := ⟨some ⟨w.opened, !flags.getLsbD 1⟩, flags.setWidth 32⟩
      opened := w.opened + 1 } := by
  simp [step, dpmiLockShared, hf, answer, -BitVec.getLsbD_eq_getElem]

theorem step_shlock_idle (hp : w.block.inProgress = false) :
    w.step (.shlock flags opens) = w := by
  simp [step, lockShared, hp]

theorem step_shlock_cancel (hp : w.block.inProgress = true) (hc : w.block.cancelling = true) :
    w.step (.shlock flags opens) = { w with block := { w.block with lockFlags := 0 } } := by
  simp [step, lockShared, hp, hc]

theorem step_shlock_again (hp : w.block.inProgress = true) (hc : w.block.cancelling = false) :
    w.step (.shlock flags false) = w := by
  simp [step, lockShared, hp, hc, answer]

theorem step_shlock_opens (hp : w.block.inProgress = true) (hc : w.block.cancelling = false) :
    w.step (.shlock flags true) = { w with
      block := ⟨some ⟨w.opened, !flags.getLsbD 1⟩, w.block.lockFlags &&& 0xffff#32⟩
      opened := w.opened + 1 } := by
  simp [step, lockShared, hp, hc, answer]

/-- Writing the flags keeps all locks. -/
theorem noneLost_flags (h : w.NoneLost) {w' : World} (hopened : w'.opened = w.opened)
    (hclosed : w'.closed = w.closed) (hlock : w'.block.shmLock = w.block.shmLock) :
    w'.NoneLost := by
  intro id hid
  rw [hclosed, hlock]
  exact h id (hopened ▸ hid)

theorem contract_lock_iff (h : w.Inv) :
    w.Contract (.lock flags opens) ↔ w.Careful (.lock flags opens) := by
  cases hf : flags.getLsbD 0 with
  | false =>
      have hstep : w.step (.lock flags opens) = _ := step_lock_wait hf
      have hcareful : w.Careful (.lock flags opens) ↔
          ∀ lk, w.block.shmLock = some lk → lk.excl = !flags.getLsbD 1 := by
        simp only [Careful, hf, Bool.false_eq_true, if_false]
      have hrel : (w.step (.lock flags opens)).Releasable ↔
          ∀ lk, w.block.shmLock = some lk → lk.excl = !flags.getLsbD 1 := by
        rw [releasable_iff, hstep]
        dsimp only
        rw [(mark_type _).1, setWidth_bit flags (by omega)]
      rw [hcareful, ← hrel]
      refine ⟨fun hc => hc.releasable, fun hr => ⟨?_, hr, ?_⟩⟩
      · rw [hstep]
        exact noneLost_flags h.noneLost rfl rfl rfl
      · intro herr
        simp [dpmiLockShared, hf, -BitVec.getLsbD_eq_getElem] at herr
  | true =>
      cases opens with
      | false =>
          have hstep : w.step (.lock flags false) = _ := step_lock_fails hf
          have hcareful : w.Careful (.lock flags false) ↔
              w.block.lockFlags = flags.setWidth 32 := by
            simp only [Careful, hf, if_true, Bool.false_eq_true, if_false]
          have herr : (dpmiLockShared (w.answer false) w.block flags).2.err ≠ 0 := by
            simp only [dpmiLockShared, hf, answer, Bool.not_true, Bool.not_false, if_true,
              Bool.false_eq_true, if_false]
            split <;> decide
          rw [hcareful]
          constructor
          · intro hc
            have hsame := hc.undone herr
            rw [hstep] at hsame
            exact (congrArg PmBlock.lockFlags hsame).symm
          · intro hflags
            have hsame : w.step (.lock flags false) = w := by
              rw [hstep, ← hflags]
            refine ⟨?_, ?_, fun _ => by rw [hsame]⟩
            · rw [hsame]
              exact h.noneLost
            · rw [hsame]
              exact releasable_iff.2 h.typed
      | true =>
          have hstep : w.step (.lock flags true) = _ := step_lock_opens hf
          have hcareful : w.Careful (.lock flags true) ↔ w.block.shmLock = none := by
            simp only [Careful, hf, if_true]
          have hlost : (w.step (.lock flags true)).NoneLost ↔ w.block.shmLock = none := by
            rw [hstep]
            exact noneLost_open h rfl rfl rfl
          rw [hcareful, ← hlost]
          refine ⟨fun hc => hc.noneLost, fun hn => ⟨hn, ?_, ?_⟩⟩
          · rw [releasable_iff, hstep]
            rintro lk ⟨⟩
            dsimp only
            rw [setWidth_bit flags (by omega)]
          · intro herr
            simp [dpmiLockShared, hf, answer, -BitVec.getLsbD_eq_getElem] at herr

theorem contract_shlock_iff (h : w.Inv) :
    w.Contract (.shlock flags opens) ↔ w.Careful (.shlock flags opens) := by
  have hkeep : w.step (.shlock flags opens) = w → w.Undone (.shlock flags opens) →
      w.Contract (.shlock flags opens) := by
    intro hsame hundone
    refine ⟨?_, ?_, hundone⟩
    · rw [hsame]
      exact h.noneLost
    · rw [hsame]
      exact releasable_iff.2 h.typed
  cases hp : w.block.inProgress with
  | false =>
      have hcareful : w.Careful (.shlock flags opens) := by
        simp [Careful, hp]
      have hsame : w.step (.shlock flags opens) = w := step_shlock_idle hp
      refine iff_of_true (hkeep hsame fun _ => ?_) hcareful
      rw [hsame, hp]
      rfl
  | true =>
      cases hc : w.block.cancelling with
      | true =>
          have hstep : w.step (.shlock flags opens) = _ := step_shlock_cancel hp hc
          have hcareful : w.Careful (.shlock flags opens) ↔ w.before = 0 := by
            simp [Careful, hp, hc]
          have hfails : (lockShared (w.answer opens) w.block flags).2 = .failed 0x8005 := by
            simp [lockShared, hp, hc]
          rw [hcareful]
          constructor
          · intro hcon
            have hsame := hcon.undone ⟨_, hfails⟩
            rw [hstep, hp] at hsame
            exact (congrArg PmBlock.lockFlags hsame).symm
          · intro hzero
            refine ⟨?_, ?_, fun _ => ?_⟩
            · rw [hstep]
              exact noneLost_flags h.noneLost rfl rfl rfl
            · rw [releasable_iff, hstep]
              intro lk hlk
              have htype := h.pending hp lk hlk
              rw [hzero] at htype
              exact htype
            · rw [hstep, hp, hzero]
              rfl
      | false =>
          cases opens with
          | false =>
              have hcareful : w.Careful (.shlock flags false) := by
                simp [Careful, hp, hc]
              have hsame : w.step (.shlock flags false) = w := step_shlock_again hp hc
              refine iff_of_true (hkeep hsame ?_) hcareful
              rintro ⟨eax, heax⟩
              simp [lockShared, hp, hc, answer] at heax
          | true =>
              have hstep : w.step (.shlock flags true) = _ := step_shlock_opens hp hc
              have hcareful : w.Careful (.shlock flags true) ↔ w.block.shmLock = none ∧
                  flags.getLsbD 1 = w.block.lockFlags.getLsbD 1 := by
                simp only [Careful, hp, hc, Bool.not_true, Bool.false_eq_true, if_false, if_true]
              have hlost : (w.step (.shlock flags true)).NoneLost ↔ w.block.shmLock = none := by
                rw [hstep]
                exact noneLost_open h rfl rfl rfl
              have hrel : (w.step (.shlock flags true)).Releasable ↔
                  flags.getLsbD 1 = w.block.lockFlags.getLsbD 1 := by
                rw [releasable_iff, hstep]
                dsimp only
                rw [(mark_type _).2.2]
                constructor
                · intro hall
                  have htype := hall _ rfl
                  simpa using htype
                · rintro htype lk ⟨⟩
                  rw [htype]
              rw [hcareful, ← hlost, ← hrel]
              refine ⟨fun hcon => ⟨hcon.noneLost, hcon.releasable⟩, fun ⟨hn, hr⟩ => ⟨hn, hr, ?_⟩⟩
              rintro ⟨eax, heax⟩
              simp [lockShared, hp, hc, answer] at heax

/-- What an unlock call does: nothing, a mark, or the lock is closed. -/
theorem step_unlock (w : World) (flags : BitVec 16) :
    w.step (.unlock flags) = w ∨
    w.step (.unlock flags) = { w with
      block := { w.block with lockFlags := w.block.lockFlags ||| 0x20000#32 } } ∨
    ∃ lk, w.block.shmLock = some lk ∧
      w.step (.unlock flags) = { w with block := ⟨none, 0⟩, closed := w.closed ++ [lk.id] } := by
  unfold step dpmiUnlockShared
  dsimp only
  split
  · exact Or.inl rfl
  · split
    · split
      · exact Or.inl rfl
      · exact Or.inr (Or.inl rfl)
    · cases hlk : w.block.shmLock with
      | none => exact Or.inl rfl
      | some lk => exact Or.inr (Or.inr ⟨lk, rfl, rfl⟩)

/-- Closing the lock that is recorded. -/
theorem noneLost_close (h : w.Inv) {lk : Lock} (hlk : w.block.shmLock = some lk) {w' : World}
    (hopened : w'.opened = w.opened) (hclosed : w'.closed = w.closed ++ [lk.id])
    (hlock : w'.block.shmLock = none) : w'.NoneLost := by
  intro id hid
  left
  rw [hopened] at hid
  rw [hclosed, hlock, List.count_append, List.count_singleton]
  refine ⟨?_, by simp⟩
  rcases h.noneLost id hid with ⟨hone, hne⟩ | ⟨hzero, hrec⟩
  · have hid' : lk.id ≠ id := fun heq => hne (by rw [hlk, ← heq]; rfl)
    simp [hone, hid']
  · rw [hlk] at hrec
    have hid' : lk.id = id := Option.some.inj hrec
    simp [hzero, hid']

theorem contract_unlock (h : w.Inv) : w.Contract (.unlock flags) := by
  rcases step_unlock w flags with hstep | hstep | ⟨lk, hlk, hstep⟩
  · refine ⟨?_, ?_, trivial⟩
    · rw [hstep]
      exact h.noneLost
    · rw [hstep]
      exact releasable_iff.2 h.typed
  · refine ⟨?_, ?_, trivial⟩
    · rw [hstep]
      exact noneLost_flags h.noneLost rfl rfl rfl
    · rw [releasable_iff, hstep]
      dsimp only
      rw [(mark_type _).2.1]
      exact h.typed
  · refine ⟨?_, ?_, trivial⟩
    · rw [hstep]
      exact noneLost_close h hlk rfl rfl rfl
    · rw [releasable_iff, hstep]
      rintro _ ⟨⟩

/-- A call keeps its contract exactly if it is careful. -/
theorem contract_iff (h : w.Inv) (c : Call) : w.Contract c ↔ w.Careful c := by
  cases c with
  | lock flags opens => exact contract_lock_iff h
  | shlock flags opens => exact contract_shlock_iff h
  | unlock flags => exact iff_of_true (contract_unlock h) trivial

/-- Identifiers that were not handed out yet are nowhere. -/
theorem step_fresh (h : w.Inv) (c : Call) : ∀ id, (w.step c).opened ≤ id →
    (w.step c).closed.count id = 0 ∧ (w.step c).block.shmLock.map Lock.id ≠ some id := by
  cases c with
  | lock flags opens =>
      cases hf : flags.getLsbD 0 with
      | false =>
          rw [step_lock_wait hf]
          exact h.fresh
      | true =>
          cases opens with
          | false =>
              rw [step_lock_fails hf]
              exact h.fresh
          | true =>
              rw [step_lock_opens hf]
              exact fresh_open h rfl rfl rfl
  | shlock flags opens =>
      cases hp : w.block.inProgress with
      | false =>
          rw [step_shlock_idle hp]
          exact h.fresh
      | true =>
          cases hc : w.block.cancelling with
          | true =>
              rw [step_shlock_cancel hp hc]
              exact h.fresh
          | false =>
              cases opens with
              | false =>
                  rw [step_shlock_again hp hc]
                  exact h.fresh
              | true =>
                  rw [step_shlock_opens hp hc]
                  exact fresh_open h rfl rfl rfl
  | unlock flags =>
      rcases step_unlock w flags with hstep | hstep | ⟨lk, hlk, hstep⟩
      · rw [hstep]
        exact h.fresh
      · rw [hstep]
        exact h.fresh
      · rw [hstep]
        intro id hid
        have hlt : lk.id < w.opened := by
          by_contra hge
          exact (h.fresh lk.id (by omega)).2 (by rw [hlk]; rfl)
        have hne : lk.id ≠ id := by
          have hid' : w.opened ≤ id := hid
          omega
        refine ⟨?_, by simp⟩
        simp [List.count_append, (h.fresh id hid).1, hne]

/-- While a request is in progress, the flags from before it have the type of
the lock that is held. -/
theorem step_pending (h : w.Inv) (c : Call) : (w.step c).block.inProgress = true →
    ∀ lk, (w.step c).block.shmLock = some lk → lk.excl = !(w.step c).before.getLsbD 1 := by
  have hidle : ∀ flags : BitVec 16, (flags.setWidth 32).getLsbD 16 ≠ true := by
    intro flags
    rw [setWidth_high flags le_rfl]
    exact Bool.false_ne_true
  cases c with
  | lock flags opens =>
      cases hf : flags.getLsbD 0 with
      | false =>
          rw [step_lock_wait hf]
          exact fun _ => h.typed
      | true =>
          cases opens with
          | false =>
              rw [step_lock_fails hf]
              exact fun hp => absurd hp (hidle flags)
          | true =>
              rw [step_lock_opens hf]
              exact fun hp => absurd hp (hidle flags)
  | shlock flags opens =>
      cases hp : w.block.inProgress with
      | false =>
          rw [step_shlock_idle hp]
          exact h.pending
      | true =>
          cases hc : w.block.cancelling with
          | true =>
              rw [step_shlock_cancel hp hc]
              intro hzero
              have hset : (0 : BitVec 32).getLsbD 16 = true := hzero
              simp at hset
          | false =>
              cases opens with
              | false =>
                  rw [step_shlock_again hp hc]
                  exact h.pending
              | true =>
                  rw [step_shlock_opens hp hc]
                  intro hmark
                  rw [PmBlock.inProgress, (mark_progress _).2.2] at hmark
                  cases hmark
  | unlock flags =>
      rcases step_unlock w flags with hstep | hstep | ⟨lk, hlk, hstep⟩
      · rw [hstep]
        exact h.pending
      · rw [hstep]
        intro hmark
        rw [PmBlock.inProgress, (mark_progress _).2.1] at hmark
        exact h.pending hmark
      · rw [hstep]
        rintro _ _ ⟨⟩

/-- A careful call keeps the invariant. -/
theorem step_inv (h : w.Inv) {c : Call} (hc : w.Careful c) : (w.step c).Inv := by
  have hcon := (contract_iff h c).2 hc
  exact ⟨hcon.noneLost, step_fresh h c, releasable_iff.1 hcon.releasable, step_pending h c⟩

theorem fresh_inv : fresh.Inv where
  noneLost := by
    intro id hid
    exact absurd hid (Nat.not_lt_zero id)
  fresh := by
    intro id _
    exact ⟨rfl, by simp [fresh]⟩
  typed := by
    rintro lk ⟨⟩
  pending := by
    rintro _ lk ⟨⟩

/-! ## Runs -/

/-- One call of a run. -/
def next (w : World) (c : Call) : Option World :=
  some (w.step c)

/-- In a run on a fresh block every call keeps its contract, so that no lock is
lost, every lock that is held can be released with its own type and every
request that fails is undone, exactly if every call is careful. -/
theorem locks_iff (cs : List Call) :
    Run.Admits next Contract fresh cs ↔ Run.Admits next Careful fresh cs :=
  Run.admits_congr Inv
    (fun w c t h hc hstep => by
      obtain rfl := Option.some.inj hstep
      exact step_inv h hc)
    (fun w c h => contract_iff h c) fresh_inv

/-- A second lock request takes the place of the first lock, which nobody can
close any more. -/
theorem second_lock_lost :
    ¬∀ cs, Run.Admits next Contract fresh cs := by
  intro hall
  have hcon := ((hall [.lock 3 true, .lock 3 true]).2 _ rfl).1
  have hlost := hcon.noneLost 0 (by decide)
  revert hlost
  decide

end World
end ShmLock
end Dpmi
end Dosemu
