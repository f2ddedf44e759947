import Mathlib.Tactic
import Dosemu.Lib.Outcome
import Dosemu.Lib.Stacks

/-!
# Cooperative threads

The scheduler of base/core/coopth.c.  A tid names a thread function; every
start of it is an invocation, kept on the stack `pth[0..cur_thr)` of the tid.
An invocation runs until its body makes a request that suspends it; the request
is left behind as a pending switch, which the scheduler processes when it comes
to the thread again.

A body is the list of requests it makes.  What the call-backs of a thread do
(context, sleep and post handlers, the back-end) is outside of this model;
where the code asks the back-end, the answer is part of the request.  A failed
assertion and a call of `exit` are `none`; both are written `cAssert`.

Main results:

- Definitions `doRunThread`, `threadRun` and `coopthRun`: the scheduler.
- Definitions `doDetach`, `doCancel` and `coopthUnsafeShutdown`: the ways to end
  a thread from outside.
-/

namespace Dosemu
namespace Coopth

open Function

/-! ## Invocations -/

/-- `enum CoopthRet`: why a body gave control back. -/
inductive CoopthRet where
  | yield | wait | sleep | sched | done | attach | detach | leave | delete
deriving DecidableEq, Repr

/-- `enum CoopthSw`: the switch that is pending. -/
inductive CoopthSw where
  | sched | attach | detach | leave | done | awaken | yield | wait
deriving DecidableEq, Repr

/-- `struct coopth_state_t`; the index of a switch exists only in `COOPTHS_SWITCH`. -/
inductive CoopthState where
  | none
  | running
  | sleeping
  | switch (sw : CoopthSw)
deriving DecidableEq, Repr

def CoopthState.isSwitch : CoopthState → Bool
  | .switch _ => true
  | _ => false

/-- What a thread body asks for. -/
inductive Request where
  | yield
  | wait
  | sleep
  /-- `coopth_sched`, with the back-end's answer to `current_active`. -/
  | sched (active : Bool)
  | attach
  | detach
  | leave
  | abandon
  | exit
  | start (tid arg : Nat)
  | startCustom (tid arg : Nat)
  | setCleanupHandler
  | cancelDisable
  | cancelEnable
deriving DecidableEq, Repr

/-- Does the call test `check_cancel` when it is resumed? -/
def Request.cancellationPoint : Request → Bool
  | .yield | .wait | .sleep | .sched _ => true
  | _ => false

/-- The coroutine of an invocation: its body has not begun, is inside of a
request, or has returned. -/
inductive Coroutine where
  | fresh (body : List Request)
  | inside (r : Request) (rest : List Request)
  | exited
deriving DecidableEq, Repr

/-- The requests a coroutine has still to make. -/
def Coroutine.rest : Coroutine → List Request
  | .fresh body => body
  | .inside _ rest => rest
  | .exited => []

/-- `struct coopth_per_thread_t` with its `coopth_thrdata_t`. -/
structure PerThread where
  st : CoopthState := .none
  thread : Coroutine := .exited
  attached : Bool := false
  cancelled : Bool := false
  left : Bool := false
  cancDisabled : Bool := false
  atomicSwitch : Bool := false
  clnup : Bool := false
  quickSched : Bool := false
deriving DecidableEq, Repr

/-- The fields of `struct coopth_t` that change while threads run. -/
structure Thr where
  curThr : Nat := 0
  custom : Bool := false
  postPth : Option Nat := none
  pth : Nat → PerThread := fun _ => {}

/-- The invocations of a tid, the live ones first. -/
def Thr.stack (th : Thr) : Stack PerThread :=
  { len := th.curThr, slot := th.pth }

/-! ## The scheduler's state -/

/-- `CTCL_NORMAL` and `CTCL_PERSIST`. -/
inductive ThreadClass where
  | normal | persist
deriving DecidableEq, Repr

instance : Fintype ThreadClass where
  elems := {.normal, .persist}
  complete c := by cases c <;> simp

def maxCoopRecurDepth : Nat := 5

def maxActThrs : Nat := 10

/-- `CIDX` -/
def cidx (tid i : Nat) : Nat :=
  tid * maxCoopRecurDepth + i

/-- The fields of `coopthreads[]` that are set up before threads are started. -/
structure Config where
  coopthNum : Nat
  func : Nat → Nat → List Request
  detached : Nat → Bool
  cls : Nat → ThreadClass

/-- What the outside sees of a thread: the requests its body makes, its cleanup
handler, its end, and the counts that the no-thread notifier is given, each with
the invocations there are at that moment. -/
inductive Event where
  | request (tid i : Nat) (r : Request)
  | cleanup (tid i : Nat)
  | deleted (tid i : Nat)
  | notify (count : Int) (thr : Nat → Thr)

/-- The variables of coopth.c, and what the outside has seen. -/
structure State where
  thr : Nat → Thr := fun _ => {}
  threadRunning : Int := 0
  joinableRunning : Int := 0
  leftRunning : Int := 0
  threadsJoinable : Int := 0
  threadsLeft : Int := 0
  threadsTotal : Int := 0
  activeTids : List Nat := []
  threadsCs : ThreadClass → Int := fun _ => 0
  log : List Event := []

namespace State

/-- Invocation `i` of a tid. -/
def pth (w : State) (tid i : Nat) : PerThread :=
  (w.thr tid).pth i

def setThr (w : State) (tid : Nat) (th : Thr) : State :=
  { w with thr := update w.thr tid th }

def setPth (w : State) (tid i : Nat) (p : PerThread) : State :=
  w.setThr tid { w.thr tid with pth := update (w.thr tid).pth i p }

def emit (w : State) (e : Event) : State :=
  { w with log := w.log ++ [e] }

/-- `DETACHED_RUNNING` -/
def detachedRunning (w : State) : Int :=
  w.threadRunning - w.joinableRunning - w.leftRunning

end State

variable (cfg : Config)

/-! ## Starting a thread -/

def checkTid (tid : Nat) : Option Unit :=
  cAssert (tid < cfg.coopthNum)

/-- The index of the invocation that `current_thr` returns. -/
def currentThr (w : State) (tid : Nat) : Option Nat := do
  cAssert ((w.thr tid).curThr ≠ 0)
  let i := (w.thr tid).curThr - 1
  cAssert ((w.pth tid i).st ≠ .none)
  return i

def doStart (w : State) (tid : Nat) (st : CoopthState) (arg : Nat) : Option (State × Nat) := do
  let th := w.thr tid
  cAssert (th.curThr < maxCoopRecurDepth)
  let tn := th.curThr
  let pth : PerThread := { st := st, thread := .fresh (cfg.func tid arg) }
  let w := w.setThr tid { th with curThr := tn + 1, pth := update th.pth tn pth }
  cAssert (tn = 0 → w.activeTids.length < maxActThrs)
  let active := if tn = 0 then w.activeTids ++ [tid] else w.activeTids
  return ({ w with activeTids := active, threadsTotal := w.threadsTotal + 1 }, tn)

def threadsJoinableDec (w : State) (cls : ThreadClass) : Option State := do
  cAssert (w.threadsJoinable ≠ 0)
  cAssert (w.threadsCs cls ≠ 0)
  return { w with
    threadsJoinable := w.threadsJoinable - 1
    threadsCs := update w.threadsCs cls (w.threadsCs cls - 1) }

def threadsJoinableInc (w : State) (cls : ThreadClass) : State :=
  { w with
    threadsJoinable := w.threadsJoinable + 1
    threadsCs := update w.threadsCs cls (w.threadsCs cls + 1) }

def coopthRetf (w : State) (tid i : Nat) : Option State := do
  cAssert ((w.pth tid i).attached = true)
  let w ← threadsJoinableDec w (cfg.cls tid)
  return w.setPth tid i { w.pth tid i with attached := false }

def coopthCallf (w : State) (tid i : Nat) : Option State := do
  cAssert ((w.pth tid i).attached = false)
  let w := threadsJoinableInc w (cfg.cls tid)
  return w.setPth tid i { w.pth tid i with attached := true }

def doStartInternal (w : State) (tid arg : Nat) : Option (State × Nat) := do
  let (w, num) ← doStart cfg w tid .running arg
  let w ← (if cfg.detached tid then some w else coopthCallf cfg w tid num)
  return (w, cidx tid num)

/-- `struct cstart_ret` -/
structure CstartRet where
  idx : Nat
  detached : Bool

def coopthStartInternal (w : State) (tid arg : Nat) : Option (State × CstartRet) := do
  checkTid cfg tid
  let w := w.setThr tid { w.thr tid with custom := false }
  let (w, idx) ← doStartInternal cfg w tid arg
  return (w, { idx := idx, detached := cfg.detached tid })

def coopthStartCustomInternal (w : State) (tid arg : Nat) : Option (State × Nat) := do
  checkTid cfg tid
  cAssert (cfg.detached tid = false)
  let w := w.setThr tid { w.thr tid with custom := true }
  doStartInternal cfg w tid arg

def coopthCallPostInternal (w : State) (tid : Nat) : Option State := do
  checkTid cfg tid
  cAssert ((w.thr tid).custom = true)
  return w.setThr tid { w.thr tid with postPth := none }

/-! ## Running a body -/

/-- Suspend the body in a request; `rest` is what it does once it is resumed. -/
def switchState (w : State) (tid i : Nat) (r : Request) (rest : List Request) : Option State := do
  let p := w.pth tid i
  cAssert (p.cancelled = false ∨ p.cancDisabled = true)
  cAssert (p.left = false)
  return w.setPth tid i { p with thread := .inside r rest }

/-- The body of an invocation has ended. -/
def State.exit (w : State) (tid i : Nat) : State :=
  w.setPth tid i { w.pth tid i with thread := .exited }

/-- After a request the body goes on, or gives control back. -/
inductive Next where
  | goes (w : State)
  | stops (w : State) (ret : CoopthRet)

/-- The body of invocation `i` makes a request. -/
def doRequest (tid i : Nat) (rest : List Request) (w : State) (r : Request) : Option Next :=
  let w := w.emit (.request tid i r)
  let p := w.pth tid i
  let suspend (w : State) (ret : CoopthRet) := (switchState w tid i r rest).map (Next.stops · ret)
  match r with
  | .yield => suspend w .yield
  | .wait => if p.attached then suspend w .wait else none
  | .sleep => suspend w .sleep
  | .sched active => if p.attached && !active then suspend w .sched else none
  | .attach => if p.attached then some (.goes w) else suspend w .attach
  | .detach => if p.attached then suspend w .detach else some (.goes w)
  | .leave => if p.left then some (.goes w) else suspend w .leave
  | .abandon =>
      if p.left then some (.goes w)
      else
        -- leaving a detached thread is atomic even for other detached threads
        let atomic := if p.attached then p.atomicSwitch else true
        suspend (w.setPth tid i { p with atomicSwitch := atomic }) .leave
  | .exit => some (.stops (w.exit tid i) .done)
  | .start t arg => (coopthStartInternal cfg w t arg).map fun x => .goes x.1
  | .startCustom t arg => (coopthStartCustomInternal cfg w t arg).map fun x => .goes x.1
  | .setCleanupHandler => some (.goes (w.setPth tid i { p with clnup := true }))
  | .cancelDisable => some (.goes (w.setPth tid i { p with cancDisabled := true }))
  | .cancelEnable => some (.goes (w.setPth tid i { p with cancDisabled := false }))

/-- The body of invocation `i` makes its requests until it gives control back. -/
def runBody (tid i : Nat) : State → List Request → Option (State × CoopthRet)
  | w, [] => some (w.exit tid i, .done)
  | w, r :: rest =>
      match doRequest cfg tid i rest w r with
      | none => none
      | some (.goes w) => runBody tid i w rest
      | some (.stops w ret) => some (w, ret)

/-- `check_cancel` has found the thread cancelled: the cleanup handler runs and
the body ends. -/
def cancelJump (w : State) (tid i : Nat) : State :=
  let w := if (w.pth tid i).clnup then w.emit (.cleanup tid i) else w
  w.exit tid i

/-- `co_call`: begin `coopth_thread`, or return from the request it is inside of. -/
def coCall (w : State) (tid i : Nat) : Option (State × CoopthRet) :=
  let p := w.pth tid i
  match p.thread with
  | .fresh body =>
      -- cancelled before start, no cleanups set yet
      if p.cancelled then some (w.exit tid i, .done)
      else runBody cfg tid i w body
  | .inside r rest =>
      if r.cancellationPoint && p.cancelled && !p.cancDisabled then
        some (cancelJump w tid i, .done)
      else runBody cfg tid i w rest
  | .exited => none

def doCall (w : State) (tid i : Nat) : Option (State × CoopthRet) := do
  let (w, ret) ← coCall cfg w tid i
  -- delete detached thread ASAP
  return (w, if ret = .done ∧ (w.pth tid i).attached = false then .delete else ret)

/-! ## Deleting a thread -/

/-- The loop of `do_del_thread` that takes a tid out of `active_tids`. -/
def dropActive (tid : Nat) : Bool → List Nat → Option (List Nat)
  | found, [] => if found then some [] else none
  | found, t :: ts =>
      if t = tid then
        if found then none else dropActive tid true ts
      else (dropActive tid found ts).map (t :: ·)

/-- `active_tids` once `cur_thr` invocations of the tid are left. -/
def activeAfter (tid curThr : Nat) (active : List Nat) : Option (List Nat) :=
  if curThr = 0 then dropActive tid false active else some active

def doDelThread (w : State) (tid i : Nat) : Option State := do
  let p := w.pth tid i
  let th : Thr := { w.thr tid with
    curThr := (w.thr tid).curThr - 1
    pth := update (w.thr tid).pth i { p with st := .none } }
  let active ← activeAfter tid th.curThr w.activeTids
  let left := if p.left then w.threadsLeft - 1 else w.threadsLeft
  -- a custom thread leaves its post handler to coopth_call_post_internal
  let keep : Bool := !p.cancelled && !p.left && th.custom
  cAssert (keep = true → th.postPth = none)
  let thr := update w.thr tid { th with postPth := if keep then some i else th.postPth }
  return { w with
    thr := thr
    activeTids := active
    threadsLeft := left
    threadsTotal := w.threadsTotal - 1
    log := w.log ++ [.deleted tid i, .notify (w.threadsCs .normal + left) thr] }

/-! ## Processing what a thread has left behind -/

def swSched (w : State) (tid i : Nat) : Option State :=
  some (w.setPth tid i { w.pth tid i with st := .running })

def swDetach (w : State) (tid i : Nat) : Option State := do
  let w ← coopthRetf cfg w tid i
  -- entry point should change - do the second switch
  return w.setPth tid i { w.pth tid i with st := .switch .sched }

def State.markLeft (w : State) (tid i : Nat) : State :=
  { w.setPth tid i { w.pth tid i with left := true } with threadsLeft := w.threadsLeft + 1 }

def swLeave (w : State) (tid i : Nat) : Option State := do
  let w ← (if (w.pth tid i).attached then coopthRetf cfg w tid i else some w)
  let w := w.markLeft tid i
  return w.setPth tid i { w.pth tid i with st := .running }

def swDone (w : State) (tid i : Nat) : Option State := do
  cAssert ((w.pth tid i).attached = true)
  let w ← coopthRetf cfg w tid i
  doDelThread w tid i

/-- `sw_list` -/
def swList : CoopthSw → State → Nat → Nat → Option State
  | .sched | .attach | .awaken | .yield | .wait => swSched
  | .detach => swDetach cfg
  | .leave => swLeave cfg
  | .done => swDone cfg

def doRunThread (w : State) (tid i : Nat) : Option (State × CoopthRet) := do
  let (w, ret) ← doCall cfg w tid i
  let pend (w : State) (st : CoopthState) := w.setPth tid i { w.pth tid i with st := st }
  match ret with
  | .yield => return (pend w (.switch .yield), ret)
  | .wait => return (pend w (.switch .wait), ret)
  | .sched => return (pend w (.switch .sched), ret)
  | .detach => return (pend w (.switch .detach), ret)
  | .leave => return (pend w (.switch .leave), ret)
  | .done => return (pend w (.switch .done), ret)
  | .attach =>
      let w ← coopthCallf cfg w tid i
      return (pend w (.switch .attach), ret)
  | .sleep => return (pend w .sleeping, ret)
  | .delete =>
      cAssert ((w.pth tid i).attached = false)
      let w ← doDelThread w tid i
      return (w, ret)

/-- Control goes to a thread. -/
def State.enter (w : State) (p : PerThread) : State :=
  { w with
    joinableRunning := if p.attached then w.joinableRunning + 1 else w.joinableRunning
    leftRunning := if p.left then w.leftRunning + 1 else w.leftRunning
    threadRunning := w.threadRunning + 1 }

/-- Control is back from a thread; `old` is the state before it was given away. -/
def State.back (w old : State) : State :=
  { w with
    joinableRunning := old.joinableRunning
    leftRunning := old.leftRunning
    threadRunning := w.threadRunning - 1 }

/-- `__thread_run`; the result is `cur_thr` if the thread is terminating. -/
def threadRunOnce (w : State) (tid i : Nat) : Option (State × Nat) :=
  let p := w.pth tid i
  match p.st with
  | .none => none
  | .running => do
      cAssert (p.left = true → p.attached = false)
      let (w₁, _) ← doRunThread cfg (w.enter p) tid i
      let w := w₁.back w
      cAssert ((w.pth tid i).st ≠ .running)
      return (w, 0)
  | .sleeping => some (w, 0)
  | .switch sw => do
      let w := w.setPth tid i { p with atomicSwitch := false }
      let ret := if sw = .done then (w.thr tid).curThr else 0
      let w ← swList cfg sw w tid i
      return (w, ret)

/-- Does the loop of `thread_run` go round again? -/
def PerThread.goesOn (p : PerThread) : Bool :=
  match p.st with
  | .running => true
  | .switch _ => p.atomicSwitch
  | _ => false

/-- `thread_run`, as far as `fuel` rounds of its loop. -/
def threadRun : Nat → State → Nat → Nat → Option (State × Nat)
  | 0, _, _, _ => none
  | fuel + 1, w, tid, i => do
      let (w, ret) ← threadRunOnce cfg w tid i
      if (w.pth tid i).goesOn then threadRun fuel w tid i
      else return (w, ret)

/-- `struct crun_ret` -/
structure CrunRet where
  idx : Nat := 0
  term : Nat := 0

def coopthRunThreadInternal (fuel : Nat) (w : State) (tid : Nat) : Option (State × CrunRet) := do
  checkTid cfg tid
  let i ← currentThr w tid
  cAssert ((w.pth tid i).attached = true)
  let (w, term) ← threadRun cfg fuel w tid i
  return (w, if term ≠ 0 then { idx := cidx tid (term - 1), term := term } else {})

/-! ## Running the detached threads -/

/-- The loop of `run_traverser` from index `n` of `active_tids` on, as far as
`fuel` rounds. -/
def runTraverser (pred : PerThread → Bool) (post : PerThread → PerThread) :
    Nat → State → Nat → Nat → Option (State × Nat)
  | 0, _, _, _ => none
  | fuel + 1, w, n, cnt =>
      match w.activeTids[n]? with
      | none => some (w, cnt)
      | some tid => do
          let i ← currentThr w tid
          let p := w.pth tid i
          if p.attached ∨ p.left ∨ pred p = false then
            runTraverser pred post fuel w (n + 1) cnt
          else do
            let (w, _) ← threadRun cfg fuel w tid i
            let w := w.setPth tid i (post (w.pth tid i))
            runTraverser pred post fuel w (n + 1) (cnt + 1)

/-- `quick_sched_post` -/
def quickSchedPost (p : PerThread) : PerThread :=
  { p with quickSched := false }

/-- The second loop of `coopth_run`. -/
def runQuick : Nat → State → Option State
  | 0, _ => none
  | fuel + 1, w => do
      let (w, cnt) ← runTraverser cfg PerThread.quickSched quickSchedPost fuel w 0 0
      if cnt ≠ 0 then runQuick fuel w else return w

def coopthRun (fuel : Nat) (w : State) : Option State := do
  cAssert (0 ≤ w.detachedRunning)
  if w.detachedRunning ≠ 0 then return w
  else do
    let (w, _) ← runTraverser cfg (fun _ => true) id fuel w 0 0
    runQuick cfg fuel w

/-! ## Ending a thread from outside -/

/-- `detach_sw`; the flag says that the thread was deleted. -/
def detachSw (w : State) (tid i : Nat) (sw : CoopthSw) : Option (State × Bool) :=
  match sw with
  | .detach => some (w.setPth tid i { w.pth tid i with st := .running }, false)
  | .done =>
      -- thread already finished, can't be ran
      (doDelThread w tid i).map fun w => (w, true)
  | _ => (swList cfg sw w tid i).map fun w => (w, false)

def doDetach (w : State) (tid i : Nat) : Option State := do
  let w := w.setPth tid i { w.pth tid i with attached := false }
  let w ← threadsJoinableDec w (cfg.cls tid)
  let (w, deleted) ← (match (w.pth tid i).st with
    | .switch sw => detachSw cfg w tid i sw
    | _ => some (w, false))
  if deleted then return w
  else do
    cAssert ((w.pth tid i).st.isSwitch = false)
    if (w.pth tid i).cancelled then do
      -- run thread so it can reach cancellation point
      let (w, tret) ← doRunThread cfg w tid i
      cAssert (tret = .delete)
      return w
    else return w

def coopthUnsafeDetach (w : State) (tid : Nat) : Option State := do
  checkTid cfg tid
  let i ← currentThr w tid
  cAssert ((w.pth tid i).attached = true)
  doDetach cfg w tid i

def doAwake (w : State) (tid i : Nat) : State :=
  let p := w.pth tid i
  if p.st = .sleeping then
    w.setPth tid i { p with
      st := .switch .awaken
      quickSched := if p.attached then p.quickSched else true }
  else w

def coopthWakeUp (w : State) (tid : Nat) : Option State := do
  checkTid cfg tid
  let i ← currentThr w tid
  return doAwake w tid i

def doCancel (w : State) (tid i : Nat) : Option State :=
  let w := w.setPth tid i { w.pth tid i with cancelled := true }
  if (w.pth tid i).attached then some (doAwake w tid i)
  else do
    -- ignore current state and run the thread
    let (w, tret) ← doRunThread cfg w tid i
    cAssert (tret = .delete)
    return w

/-- `coopth_cancel`, called in the thread `cur` or outside of all threads. -/
def coopthCancel (cur : Option Nat) (w : State) (tid : Nat) : Option State := do
  checkTid cfg tid
  let i ← currentThr w tid
  if cur = some tid then do
    cAssert ((w.pth tid i).left = true)
    return w
  else doCancel cfg w tid i

/-- What the loop of `coopth_unsafe_shutdown` does to a thread it finds attached. -/
def shutdownThread (w : State) (tid i : Nat) : Option State := do
  let w ← doCancel cfg w tid i
  doDetach cfg w tid i

/-- The first tid of a list whose top invocation is attached. -/
def findAttached (w : State) : List Nat → Option (Option (Nat × Nat))
  | [] => some none
  | tid :: ts => do
      let i ← currentThr w tid
      if (w.pth tid i).attached then return some (tid, i)
      else findAttached w ts

/-- `coopth_unsafe_shutdown`, as far as `fuel` threads. -/
def coopthUnsafeShutdown (cur : Option Nat) : Nat → State → Option State
  | 0, _ => none
  | fuel + 1, w => do
      match ← findAttached w w.activeTids with
      | none => return w
      | some (tid, i) =>
          -- don't cancel own thread
          cAssert (cur ≠ some tid)
          let w ← shutdownThread cfg w tid i
          coopthUnsafeShutdown cur fuel w

end Coopth
end Dosemu
