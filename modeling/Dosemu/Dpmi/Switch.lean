import Dosemu.Dpmi.Selectors
import Dosemu.Lib.Outcome

/-!
# The switch between clients

The first sixteen entries of the table belong to the client that runs.
`clnt_switch` saves them as eight bytes each and writes those of the new client
back through the encoder of the descriptor calls.  The owners are not saved:
`ldt_write_low` takes an entry for the new client's exactly if it is marked
present.
-/

namespace Dosemu
namespace Dpmi
namespace ClientSwitch

/-- The number of entries in `saved_ldt`. -/
def privateEntries : Nat := 0x10

/-- The host, and `saved_ldt` of each client. -/
structure World where
  state : State
  savedLdt : Nat → Nat → Descriptor

/-- `do_ldt_write` -/
def doLdtWrite (host : Host) (s : State) (entry : Nat) (lp : Descriptor) : Int × State :=
  let fields := segments lp
  let (ret, s) := s.setLdtEntry host entry fields
  if ret = -1 then (-1, s) else (fields.notPresent.toNat, s)

/-- `ldt_write_low` -/
def ldtWriteLow (host : Host) (s : State) (entry : Nat) (lp : Descriptor) : Int × State :=
  let (rc, s) := doLdtWrite host s entry lp
  if rc = -1 then (-1, s)
  else if rc = 0 then
    (0, { s with user := Function.update s.user entry (s.currentClient + 1) })
  else if rc = 1 ∧ s.user entry ≠ 0 then
    -- an entry that is not present loses its owner
    (0, { s with user := Function.update s.user entry 0 })
  else (0, s)

/-- One round of the loop in `clnt_switch`. -/
def swapEntry (host : Host) (savedLdt : Nat → Descriptor) (s : State) (i : Nat) : Option State :=
  if s.user i < 0xfe then do
    let (err, s) := ldtWriteLow host s i (savedLdt i)
    cAssert (err = 0)
    some s
  else some s

/-- `save_prev_clnt_state`, which reads the table itself where it is emulated -/
def savePrevClntState (w : World) : World :=
  { w with savedLdt := Function.update w.savedLdt w.state.currentClient fun i =>
      if i < privateEntries then w.state.ldtBuffer i
      else w.savedLdt w.state.currentClient i }

/-- `clnt_switch` -/
def clntSwitch (host : Host) (w : World) (newClnt : Nat) : Option World := do
  cAssert (w.state.inDpmi ≠ 0)
  cAssert (w.state.currentClient ≠ newClnt)
  let w := if w.state.currentClient < w.state.inDpmi then savePrevClntState w else w
  let s ← (List.range privateEntries).foldlM (swapEntry host (w.savedLdt newClnt))
    { w.state with currentClient := newClnt }
  some { w with state := s }

end ClientSwitch
end Dpmi
end Dosemu
