import Dosemu.Dpmi.Switch

/-!
# Owners of descriptors

Allocation and release of the entries of the table by the clients, with the two
places that remember a selector: the marks of converted segments and the slots
of the real-mode callbacks.

An entry belongs to nobody (owner 0), to the client `c` (owner `c + 1`) or to
the host.  A switch between clients swaps the first sixteen entries and their
owners; callbacks have theirs behind these.  `Sys` adds the entries that were
handed out to clients and not given back since, which the source does not record.

The host never lends an entry twice, but it does not check everything it is told
to give back: `Careful` lists the calls after which a callback in use is left
without its entry, or a callback that nobody holds is freed.

Main results:

- Theorems `allocateDescriptors_allocated` and `freeDescriptor_releases`: what
  the calls do to the table of owners.
- Theorem `contract_iff`: a call keeps its contract exactly if it is careful.
- Theorem `ownership_iff`: so does a run from the start of the host.
-/

namespace Dosemu
namespace Dpmi

/-- `DPMI_MAX_RMCBS` -/
def maxRmcbs : Nat := 32

/-- An expand-up data segment as `SetSelector` is told to write it. -/
def dataSegment (base limit : BitVec 32) (is32 : BitVec 1) : SegDesc :=
  ⟨base, limit, 0, is32, 0, 0, 0, 0⟩

/-- The arguments of `SetSelector` that clear an entry. -/
def emptySegment : SegDesc :=
  ⟨0, 0, 0, 0, 1, 0, 1, 0⟩

namespace State

/-- `DPMI_CLIENT` -/
def dpmiClient (s : State) : Client :=
  s.client s.currentClient

/-- `allocate_descriptors_at`: the number of entries, or 0, and the state. -/
def takeDescriptorsAt (s : State) (selector : BitVec 16) (n : Nat) : Nat × State :=
  let entry := ldtEntry selector
  if maxSelectors < entry + n then (0, s)
  else if (List.range n).any fun i =>
      s.user (entry + i) != 0 || s.systemSelector (ldtSelector (entry + i)) then (0, s)
  else
    (n, { s with
      user := fun e =>
        if entry ≤ e ∧ e < entry + n then if s.inDpmi ≠ 0 then s.currentClient + 1 else 0xff
        else s.user e
      cstd := fun e => if entry ≤ e ∧ e < entry + n then false else s.cstd e })

/-- The loop that writes fresh descriptors, and whether each write succeeded. -/
def initDescriptors (host : Host) : State → Nat → Nat → Bool × State
  | s, _, 0 => (true, s)
  | s, entry, n + 1 =>
      let (ret, s) := s.setSelector host (ldtSelector entry) (dataSegment 0 0 s.dpmiClient.is32)
      if ret ≠ 0 then (false, s) else initDescriptors host s (entry + 1) n

/-- `AllocateDescriptorsAt` -/
def allocateDescriptorsAt (host : Host) (s : State) (selector : BitVec 16) (n : Nat) :
    BitVec 16 × State :=
  if s.inDpmi = 0 then (0, s)
  else
    let (taken, s) := s.takeDescriptorsAt selector n
    if taken = 0 then (0, s)
    else
      let (done, s) := initDescriptors host s (ldtEntry selector) n
      (if done then selector else 0, s)

/-- The loop of `allocate_descriptors_from`; it ends when the run would leave the table, which
is before the first argument runs out. -/
def nextFree (s : State) (n : Nat) : Nat → Nat → Option Nat
  | 0, _ => none
  | fuel + 1, nextLdt =>
      if maxSelectors < nextLdt + n then none
      else if (List.range n).any fun i =>
          s.user (nextLdt + i) != 0 || s.systemSelector (ldtSelector (nextLdt + i)) then
        nextFree s n fuel (nextLdt + 1)
      else some nextLdt

/-- `allocate_descriptors`, which starts its search behind the reserved 0x10 entries -/
def takeDescriptors (s : State) (n : Nat) : BitVec 16 × State :=
  match s.nextFree n maxSelectors (0x10 + 1) with
  | none => (0, s)
  | some entry =>
      let (taken, t) := s.takeDescriptorsAt (ldtSelector entry) n
      (if taken ≠ n then 0 else ldtSelector entry, t)

/-- `AllocateDescriptors` -/
def allocateDescriptors (host : Host) (s : State) (n : Nat) : BitVec 16 × State :=
  if s.inDpmi = 0 then (0, s)
  else
    let (selector, s) := s.takeDescriptors n
    if selector = 0 then (0, s)
    else
      let (done, s) := initDescriptors host s (ldtEntry selector) n
      (if done then selector else 0, s)

/-- `FreeDescriptor` -/
def freeDescriptor (host : Host) (s : State) (selector : BitVec 16) : Int × State :=
  if s.systemSelector selector then (-1, s)
  else if s.user (ldtEntry selector) ≠ s.currentClient + 1 then (-1, s)
  else
    let (ret, s) := s.setSelector host selector emptySegment
    (ret, { s with user := Function.update s.user (ldtEntry selector) 0 })

/-- `FreeAllDescriptors` -/
def freeAllDescriptors (host : Host) (s : State) : State :=
  (List.range maxSelectors).foldl (fun s i =>
    if s.user i = s.currentClient + 1 then (s.freeDescriptor host (ldtSelector i)).2 else s) s

/-- `ConvertSegmentToDescriptor` -/
def convertSegmentToDescriptor (host : Host) (s : State) (segment : BitVec 16) :
    BitVec 16 × State :=
  let baseaddr : BitVec 32 := segment.setWidth 32 <<< 4
  match (List.range' 1 (maxSelectors - 1)).find? fun i =>
      (s.segments i).baseAddr == baseaddr && s.cstd i && s.user i == s.currentClient + 1 with
  | some i => (ldtSelector i, s)
  | none =>
      let (selector, s) := s.allocateDescriptors host 1
      if selector = 0 then (0, s)
      else
        let (ret, s) := s.setSelector host selector (dataSegment baseaddr 0xffff 0)
        if ret ≠ 0 then (0, s)
        else (selector, { s with cstd := Function.update s.cstd (ldtEntry selector) true })

/-- `CreateAliasDescriptor`.  Without a free entry the selector is 0, which `SetSelector`
refuses. -/
def createAliasDescriptor (host : Host) (s : State) (selector : BitVec 16) : BitVec 16 × State :=
  let (dsSelector, s) := s.allocateDescriptors host 1
  let (ret, s) := s.setSelector host dsSelector { s.segments (ldtEntry selector) with type := 0 }
  (if ret ≠ 0 then 0 else dsSelector, s)

/-- Write a slot of the current client. -/
def setCallBack (s : State) (i : Nat) (cb : RealModeCallBack) : State :=
  { s with
    client := Function.update s.client s.currentClient
      { s.dpmiClient with
        realModeCallBack := Function.update s.dpmiClient.realModeCallBack i cb } }

/-- `DPMI_allocate_realmode_callback`: the address of the callback. -/
def allocateRealmodeCallback (host : Host) (s : State) (sel : BitVec 16) (offs : BitVec 32)
    (rmSel : BitVec 16) (rmOffs : BitVec 32) : Option (BitVec 16 × BitVec 16) × State :=
  match (List.range maxRmcbs).find? fun i =>
      (s.dpmiClient.realModeCallBack i).selector == 0 &&
        (s.dpmiClient.realModeCallBack i).offset == 0 with
  | none => (none, s)
  | some i =>
      let (ssSelector, s) := s.allocateDescriptors host 1
      if ssSelector = 0 then
        (none, s.setCallBack i { s.dpmiClient.realModeCallBack i with rmSsSelector := 0 })
      else
        (some (s.dpmiClient.rmcbSeg, s.dpmiClient.rmcbOff + BitVec.ofNat 16 i),
          s.setCallBack i ⟨sel, offs, rmSel, rmOffs, ssSelector⟩)

/-- `DPMI_free_realmode_callback` -/
def freeRealmodeCallback (host : Host) (s : State) (seg off : BitVec 16) : Int × State :=
  let c := s.dpmiClient
  if seg = c.rmcbSeg ∧ c.rmcbOff.toNat ≤ off.toNat ∧ off.toNat < c.rmcbOff.toNat + maxRmcbs then
    let i := off.toNat - c.rmcbOff.toNat
    let s := s.setCallBack i { c.realModeCallBack i with selector := 0, offset := 0 }
    (0, (s.freeDescriptor host (c.realModeCallBack i).rmSsSelector).2)
  else (-1, s)

/-- The number of clients without those at the end that have terminated. -/
def dropTerminated (client : Nat → Client) : Nat → Nat
  | 0 => 0
  | n + 1 => if (client n).terminated then dropTerminated client n else n + 1

/-- The current client is no more. -/
def dropClient (s : State) : State :=
  if s.currentClient ≠ s.inDpmi - 1 then
    { s with
      client := Function.update s.client s.currentClient { s.dpmiClient with terminated := true } }
  else { s with inDpmi := dropTerminated s.client (s.inDpmi - 1) }

/-- `dpmi_cleanup` up to its switch -/
def endClient (host : Host) (s : State) : State :=
  (s.freeAllDescriptors host).dropClient

/-- `dpmi_init` up to its switch: the new client, with the block of callback addresses that it is
given. -/
def addClient (s : State) (is32 : BitVec 1) (rmcbSeg rmcbOff : BitVec 16) : State :=
  { s with
    inDpmi := s.inDpmi + 1
    currentClient := s.inDpmi
    client := Function.update s.client s.inDpmi
      ⟨is32, fun _ => ⟨0, 0, 0, 0, 0⟩, rmcbSeg, rmcbOff, false⟩ }

end State

open ClientSwitch

/-- `dpmi_cleanup`, as far as the table and the clients go -/
def dpmiCleanup (host : Host) (w : World) : Option World :=
  let w := { w with state := w.state.endClient host }
  if w.state.inDpmi = 0 then some w else clntSwitch host w (w.state.inDpmi - 1)

/-- `dpmi_init`, as far as the table and the clients go -/
def dpmiInit (host : Host) (w : World) (is32 : BitVec 1) (rmcbSeg rmcbOff : BitVec 16) :
    Option World := do
  -- without a client `current_client` is -1, and there is nothing to save
  let w := if w.state.inDpmi = 0 then w else savePrevClntState w
  -- the new client's `saved_ldt` is cleared
  let s ← (List.range privateEntries).foldlM (swapEntry host fun _ => 0)
    (w.state.addClient is32 rmcbSeg rmcbOff)
  some ⟨s, Function.update w.savedLdt w.state.inDpmi fun _ => 0⟩

/-! ## The clients' calls -/

/-- The calls of a client. -/
inductive Call where
  | allocateDescriptors (n : Nat)
  | allocateDescriptorsAt (selector : BitVec 16) (n : Nat)
  | freeDescriptor (selector : BitVec 16)
  | convertSegmentToDescriptor (segment : BitVec 16)
  | createAliasDescriptor (selector : BitVec 16)
  | allocateRealmodeCallback (sel : BitVec 16) (offs : BitVec 32) (rmSel : BitVec 16)
      (rmOffs : BitVec 32)
  | freeRealmodeCallback (seg off : BitVec 16)

/-- What a call returns. -/
inductive Reply where
  | selector (sel : BitVec 16)
  | result (ret : Int)
  | address (addr : Option (BitVec 16 × BitVec 16))
  deriving DecidableEq

/-- A call of the current client. -/
def State.exec (host : Host) (s : State) : Call → Reply × State
  | .allocateDescriptors n => (s.allocateDescriptors host n).map .selector id
  | .allocateDescriptorsAt sel n => (s.allocateDescriptorsAt host sel n).map .selector id
  | .freeDescriptor sel => (s.freeDescriptor host sel).map .result id
  | .convertSegmentToDescriptor seg => (s.convertSegmentToDescriptor host seg).map .selector id
  | .createAliasDescriptor sel => (s.createAliasDescriptor host sel).map .selector id
  | .allocateRealmodeCallback sel offs rmSel rmOffs =>
      (s.allocateRealmodeCallback host sel offs rmSel rmOffs).map .address id
  | .freeRealmodeCallback seg off => (s.freeRealmodeCallback host seg off).map .result id

/-- A client that was started and has not terminated. -/
def State.Running (s : State) (c : Nat) : Prop :=
  c < s.inDpmi ∧ (s.client c).terminated = false

instance (s : State) (c : Nat) : Decidable (s.Running c) :=
  inferInstanceAs (Decidable (_ ∧ _))

/-- The host, and the entries that were handed out to each client and not given back since. -/
structure Sys extends World where
  issued : Set (Nat × Nat)

/-- A new client, a switch to another one, and what the current client does: it ends, or makes a
call. -/
inductive Event where
  | init (is32 : BitVec 1) (rmcbSeg rmcbOff : BitVec 16)
  | switch (c : Nat)
  | cleanup
  | call (call : Call)

/-- The number of entries that a selector is handed out for; it names one entry at least. -/
def Call.count : Call → Nat
  | .allocateDescriptors n => max n 1
  | .allocateDescriptorsAt _ n => max n 1
  | _ => 1

/-- The entry is among those that the reply hands out. -/
def HandsOut (call : Call) (reply : Reply) (e : Nat) : Prop :=
  ∃ sel : BitVec 16, reply = .selector sel ∧ sel ≠ 0 ∧ ldtEntry sel ≤ e ∧
    e < ldtEntry sel + call.count

/-- What is handed out after a call of the current client. -/
def issuedAfter (s : State) (issued : Set (Nat × Nat)) (call : Call) (r : Reply × State) :
    Set (Nat × Nat) :=
  {p | (p ∈ issued ∨ (p.1 = s.currentClient ∧ HandsOut call r.1 p.2)) ∧
    (p.1 = s.currentClient → r.2.user p.2 = s.currentClient + 1)}

/-- `dpmi_init` takes no more than `DPMI_MAX_CLIENTS` clients, and only a client that has not
terminated runs. -/
def Sys.step (host : Host) (s : Sys) : Event → Option Sys
  | .init is32 seg off =>
      if s.state.inDpmi < maxClients then
        (dpmiInit host s.toWorld is32 seg off).map fun w => ⟨w, s.issued⟩
      else none
  | .switch c =>
      if s.state.Running c then (clntSwitch host s.toWorld c).map fun w => ⟨w, s.issued⟩ else none
  | .cleanup =>
      if s.state.Running s.state.currentClient then
        (dpmiCleanup host s.toWorld).map fun w =>
          ⟨w, {p | p ∈ s.issued ∧ p.1 ≠ s.state.currentClient}⟩
      else none
  | .call call =>
      if s.state.Running s.state.currentClient then
        let r := s.state.exec host call
        some ⟨{ s.toWorld with state := r.2 }, issuedAfter s.state s.issued call r⟩
      else none

/-! ## The contract -/

/-- A callback slot in use, by the test of `DPMI_allocate_realmode_callback`. -/
def State.InUse (s : State) (c i : Nat) : Prop :=
  s.Running c ∧ i < maxRmcbs ∧ ¬(((s.client c).realModeCallBack i).selector = 0 ∧
    ((s.client c).realModeCallBack i).offset = 0)

/-- The entry of the slot's `rm_ss_selector`. -/
def State.callbackEntry (s : State) (c i : Nat) : Nat :=
  ldtEntry ((s.client c).realModeCallBack i).rmSsSelector

/-- The address of the callback in a slot. -/
def State.IsAddress (s : State) (c i : Nat) (seg off : BitVec 16) : Prop :=
  seg = (s.client c).rmcbSeg ∧ off.toNat = (s.client c).rmcbOff.toNat + i

/-- Every callback in use has a selector of its own. -/
structure CallbacksOwn (s : State) (issued : Set (Nat × Nat)) : Prop where
  owned : ∀ c i, s.InUse c i → s.user (s.callbackEntry c i) = c + 1
  notIssued : ∀ c i c', s.InUse c i → (c', s.callbackEntry c i) ∉ issued
  apart : ∀ c i c' i', s.InUse c i → s.InUse c' i' →
    s.callbackEntry c i = s.callbackEntry c' i' → c = c' ∧ i = i'

/-- What a call of the current client with the given outcome keeps to. -/
structure CallOk (s : State) (issued : Set (Nat × Nat)) (call : Call) (r : Reply × State) :
    Prop where
  /-- What is handed out was free and is the client's, or is a segment it converted before. -/
  fresh : ∀ e, HandsOut call r.1 e → (s.user e = 0 ∧ r.2.user e = s.currentClient + 1) ∨
    ((∃ segment, call = .convertSegmentToDescriptor segment) ∧ s.cstd e = true ∧
      s.user e = s.currentClient + 1 ∧ r.2 = s)
  /-- So was the entry of a new callback. -/
  freshCallback : ∀ i, r.2.InUse s.currentClient i → ¬s.InUse s.currentClient i →
    s.user (r.2.callbackEntry s.currentClient i) = 0
  /-- Entries of the host and of other clients keep their owners. -/
  keeps : ∀ e, s.user e ≠ 0 → s.user e ≠ s.currentClient + 1 → r.2.user e = s.user e
  callbacks : CallbacksOwn r.2 (issuedAfter s issued call r)
  /-- A callback address that is not allocated cannot be freed. -/
  freeFails : ∀ seg off, call = .freeRealmodeCallback seg off →
    (∀ i, s.InUse s.currentClient i → ¬s.IsAddress s.currentClient i seg off) →
      r.1 = .result (-1) ∧ r.2 = s

/-- A switch leaves the owners of the shared entries and of the host's alone. -/
def SwitchOk (s : State) (t : Sys) : Prop :=
  (∀ e, privateEntries ≤ e ∨ 0xfe ≤ s.user e → t.state.user e = s.user e) ∧
    CallbacksOwn t.state t.issued

/-- The contract of an event. -/
def Contract (host : Host) (s : Sys) : Event → Prop
  | .call call => s.state.Running s.state.currentClient →
      CallOk s.state s.issued call (s.state.exec host call)
  | .cleanup => ∀ t, s.step host .cleanup = some t →
      (∀ e, s.state.user e ≠ s.state.currentClient + 1 →
        (s.state.freeAllDescriptors host).user e = s.state.user e) ∧
      SwitchOk (s.state.freeAllDescriptors host) t
  | ev => ∀ t, s.step host ev = some t → SwitchOk s.state t

/-- The calls that stay clear of what the host does not check: a run of no descriptors, the
selector of a callback that is in use, and a callback address whose slot is not in use. -/
def Careful (s : Sys) : Event → Prop
  | .call (.allocateDescriptors n) => s.state.Running s.state.currentClient → n ≠ 0
  | .call (.freeDescriptor sel) => ∀ i, s.state.InUse s.state.currentClient i →
      s.state.callbackEntry s.state.currentClient i = ldtEntry sel → sel.getLsbD 2 = false
  | .call (.freeRealmodeCallback seg off) => s.state.Running s.state.currentClient →
      ∀ i, i < maxRmcbs → s.state.IsAddress s.state.currentClient i seg off →
        s.state.InUse s.state.currentClient i
  | _ => True

/-- The host before the first client: no entry belongs to one. -/
def State.Initial (s : State) : Prop :=
  s.inDpmi = 0 ∧ ∀ e, s.user e = 0 ∨ s.user e = 0xfe ∨ s.user e = 0xff

/-! ## What the calls change -/

variable {host : Host} {s t : State} {n : Nat}

/-- The clients, and which of them calls, are the same. -/
structure SameClients (s t : State) : Prop where
  inDpmi : t.inDpmi = s.inDpmi
  currentClient : t.currentClient = s.currentClient
  client : t.client = s.client

/-- Only descriptors differ. -/
structure OnlyTable (s t : State) : Prop extends SameClients s t where
  user : t.user = s.user
  cstd : t.cstd = s.cstd

/-- A run of free entries was taken for the current client. -/
structure Claims (s t : State) (first n : Nat) : Prop extends SameClients s t where
  free : ∀ e, first ≤ e → e < first + n → s.user e = 0
  fits : first + n ≤ maxSelectors
  user : ∀ e, t.user e =
    if first ≤ e ∧ e < first + n then s.currentClient + 1 else s.user e
  cstd : ∀ e, ¬(first ≤ e ∧ e < first + n) → t.cstd e = s.cstd e

/-- Entries of the current client were given back, all of them from the given set. -/
structure Releases (s t : State) (p : Nat → Prop) : Prop extends SameClients s t where
  user : ∀ e, t.user e = s.user e ∨ (p e ∧ s.user e = s.currentClient + 1 ∧ t.user e = 0)
  cstd : t.cstd = s.cstd

theorem SameClients.trans {u : State} (h : SameClients s t) (h' : SameClients t u) :
    SameClients s u :=
  ⟨h'.inDpmi.trans h.inDpmi, h'.currentClient.trans h.currentClient, h'.client.trans h.client⟩

theorem OnlyTable.refl (s : State) : OnlyTable s s :=
  ⟨⟨rfl, rfl, rfl⟩, rfl, rfl⟩

theorem OnlyTable.trans {u : State} (h : OnlyTable s t) (h' : OnlyTable t u) : OnlyTable s u :=
  ⟨h.toSameClients.trans h'.toSameClients, h'.user.trans h.user, h'.cstd.trans h.cstd⟩

theorem setLdtEntry_onlyTable (host : Host) (s : State) (e : Nat) (f : SegDesc) :
    OnlyTable s (s.setLdtEntry host e f).2 := by
  unfold State.setLdtEntry State.putLdt
  dsimp only
  split <;> split <;> exact ⟨⟨rfl, rfl, rfl⟩, rfl, rfl⟩

theorem setSelector_onlyTable (host : Host) (s : State) (sel : BitVec 16) (f : SegDesc) :
    OnlyTable s (s.setSelector host sel f).2 := by
  unfold State.setSelector
  split
  · exact OnlyTable.refl s
  · exact setLdtEntry_onlyTable host s _ f

theorem initDescriptors_onlyTable (host : Host) (s : State) (entry n : Nat) :
    OnlyTable s (State.initDescriptors host s entry n).2 := by
  induction n generalizing s entry with
  | zero => exact OnlyTable.refl s
  | succ n ih =>
      rw [State.initDescriptors]
      dsimp only
      have hset := setSelector_onlyTable host s (ldtSelector entry)
        (dataSegment 0 0 s.dpmiClient.is32)
      split
      · exact hset
      · exact hset.trans (ih _ _)

theorem Claims.table {u : State} {first : Nat} (h : Claims s t first n) (h' : OnlyTable t u) :
    Claims s u first n where
  toSameClients := h.toSameClients.trans h'.toSameClients
  free := h.free
  fits := h.fits
  user e := by rw [h'.user, h.user]
  cstd e he := by rw [h'.cstd, h.cstd e he]

theorem Claims.keeps {first : Nat} (h : Claims s t first n) (e : Nat) (he : s.user e ≠ 0) :
    t.user e = s.user e := by
  rw [h.user]
  exact if_neg fun hin => he (h.free e hin.1 hin.2)

/-- Nothing was taken. -/
theorem claims_nothing (s : State) (sel : BitVec 16) : Claims s s (ldtEntry sel) 0 where
  inDpmi := rfl
  currentClient := rfl
  client := rfl
  free e _ _ := by omega
  fits := (ldtEntry_lt sel).le
  user e := by rw [if_neg (by omega)]
  cstd _ _ := rfl

theorem ldtEntry_ldtSelector {e : Nat} (he : e < maxSelectors) : ldtEntry (ldtSelector e) = e := by
  unfold maxSelectors at he
  have hand : (BitVec.ofNat 16 e <<< 3).toNat = e <<< 3 := by
    rw [BitVec.toNat_shiftLeft, BitVec.toNat_ofNat, Nat.shiftLeft_eq, Nat.shiftLeft_eq]
    omega
  rw [ldtEntry, ldtSelector, BitVec.toNat_ushiftRight, BitVec.toNat_or, hand,
    show (7#16).toNat = 7 from rfl, ← Nat.shiftLeft_add_eq_or_of_lt (by decide), Nat.shiftLeft_eq,
    Nat.shiftRight_eq_div_pow]
  omega

theorem ldtSelector_ti (e : Nat) : (ldtSelector e).getLsbD 2 = true := by
  simp [ldtSelector]

theorem ldtSelector_ne_zero (e : Nat) : ldtSelector e ≠ 0 := by
  intro hzero
  have hti := ldtSelector_ti e
  rw [hzero] at hti
  cases hti

/-- `allocate_descriptors_at` takes all entries or none. -/
theorem takeDescriptorsAt_claims (hin : s.inDpmi ≠ 0) (sel : BitVec 16) (n : Nat) :
    ((s.takeDescriptorsAt sel n).1 = 0 ∧ (s.takeDescriptorsAt sel n).2 = s) ∨
      ((s.takeDescriptorsAt sel n).1 = n ∧
        Claims s (s.takeDescriptorsAt sel n).2 (ldtEntry sel) n ∧
        ∀ e, ldtEntry sel ≤ e → e < ldtEntry sel + n →
          (s.takeDescriptorsAt sel n).2.cstd e = false) := by
  unfold State.takeDescriptorsAt
  dsimp only
  split
  · exact Or.inl ⟨rfl, rfl⟩
  · next hfits =>
      split
      · exact Or.inl ⟨rfl, rfl⟩
      · next hused =>
          refine Or.inr ⟨rfl, ⟨⟨rfl, rfl, rfl⟩, ?_, Nat.not_lt.mp hfits, ?_, ?_⟩, ?_⟩
          · intro e hlo hhi
            simp only [List.any_eq_true, List.mem_range, Bool.or_eq_true, bne_iff_ne, not_exists,
              not_and, not_or, not_not] at hused
            have hfree := (hused (e - ldtEntry sel) (by omega)).1
            rwa [Nat.add_sub_cancel' hlo] at hfree
          · intro e
            rfl
          · intro e he
            exact if_neg he
          · intro e hlo hhi
            exact if_pos ⟨hlo, hhi⟩

/-- The outcome of an allocation: a run of free entries taken for a selector, whose conversion
marks are clear, or no selector. -/
def Allocated (s : State) (n : Nat) (r : BitVec 16 × State) : Prop :=
  (r.1 = 0 ∧ ∃ first k, Claims s r.2 first k) ∨
    (Claims s r.2 (ldtEntry r.1) n ∧
      ∀ e, ldtEntry r.1 ≤ e → e < ldtEntry r.1 + n → r.2.cstd e = false)

theorem takeDescriptors_allocated (hin : s.inDpmi ≠ 0) (n : Nat) :
    Allocated s n (s.takeDescriptors n) := by
  unfold State.takeDescriptors
  split
  · exact Or.inl ⟨rfl, _, 0, claims_nothing s 0⟩
  · next entry hentry =>
      rcases takeDescriptorsAt_claims hin (ldtSelector entry) n with
        ⟨htaken, hs⟩ | ⟨htaken, hclaims, hcstd⟩
      · dsimp only
        rw [htaken, hs]
        by_cases hn : n = 0
        · rw [if_neg (not_not.mpr hn.symm), hn]
          exact Or.inr ⟨claims_nothing s _, fun e hlo hhi => absurd hhi (Nat.not_lt.mpr hlo)⟩
        · exact Or.inl ⟨if_pos (Ne.symm hn), _, 0, claims_nothing s 0⟩
      · dsimp only
        rw [htaken, if_neg (not_not.mpr rfl)]
        exact Or.inr ⟨hclaims, hcstd⟩

/-- Writing the new descriptors changes nothing about the allocation, but may fail. -/
theorem Allocated.init {sel : BitVec 16} (h : Allocated s n (sel, t)) :
    Allocated s n (if (State.initDescriptors host t (ldtEntry sel) n).1 then sel else 0,
      (State.initDescriptors host t (ldtEntry sel) n).2) := by
  have htable := initDescriptors_onlyTable host t (ldtEntry sel) n
  rcases h with ⟨hzero, first, k, hclaims⟩ | ⟨hclaims, hcstd⟩
  · refine Or.inl ⟨?_, first, k, hclaims.table htable⟩
    split
    · exact hzero
    · rfl
  · split
    · refine Or.inr ⟨hclaims.table htable, fun e hlo hhi => ?_⟩
      rw [htable.cstd]
      exact hcstd e hlo hhi
    · exact Or.inl ⟨rfl, _, n, hclaims.table htable⟩

theorem allocateDescriptors_allocated (host : Host) (hin : s.inDpmi ≠ 0) (n : Nat) :
    Allocated s n (s.allocateDescriptors host n) := by
  have htaken := takeDescriptors_allocated hin n
  unfold State.allocateDescriptors
  rw [if_neg hin]
  dsimp only
  split
  · next hzero =>
      rcases htaken with ⟨-, first, k, hclaims⟩ | ⟨hclaims, -⟩
      · exact Or.inl ⟨rfl, first, k, hclaims⟩
      · exact Or.inl ⟨rfl, _, n, hclaims⟩
  · exact htaken.init

theorem allocateDescriptorsAt_allocated (host : Host) (hin : s.inDpmi ≠ 0) (sel : BitVec 16)
    (n : Nat) : Allocated s n (s.allocateDescriptorsAt host sel n) := by
  unfold State.allocateDescriptorsAt
  rw [if_neg hin]
  dsimp only
  rcases takeDescriptorsAt_claims hin sel n with ⟨htaken, hs⟩ | ⟨htaken, hclaims, hcstd⟩
  · rw [if_pos htaken, hs]
    exact Or.inl ⟨rfl, _, 0, claims_nothing s 0⟩
  · split
    · exact Or.inl ⟨rfl, _, n, hclaims⟩
    · exact Allocated.init (Or.inr ⟨hclaims, hcstd⟩)

theorem nextFree_bounds {fuel first entry : Nat} (h : s.nextFree n fuel first = some entry) :
    first ≤ entry ∧ entry + n ≤ maxSelectors := by
  induction fuel generalizing first with
  | zero => cases h
  | succ fuel ih =>
      rw [State.nextFree] at h
      split at h
      · cases h
      · next hfits =>
          split at h
          · obtain ⟨hle, hend⟩ := ih h
            exact ⟨Nat.le_of_succ_le hle, hend⟩
          · cases h
            exact ⟨le_rfl, Nat.not_lt.mp hfits⟩

/-- `AllocateDescriptors` hands out no private entries. -/
theorem allocateDescriptors_shared (host : Host) (s : State) (hn : 0 < n) :
    (s.allocateDescriptors host n).1 = 0 ∨
      privateEntries ≤ ldtEntry (s.allocateDescriptors host n).1 := by
  have htaken : (s.takeDescriptors n).1 = 0 ∨
      privateEntries ≤ ldtEntry (s.takeDescriptors n).1 := by
    unfold State.takeDescriptors
    split
    · exact Or.inl rfl
    · next entry hentry =>
        obtain ⟨hle, hend⟩ := nextFree_bounds hentry
        dsimp only
        split
        · exact Or.inl rfl
        · rw [ldtEntry_ldtSelector (by omega)]
          exact Or.inr (Nat.le_of_succ_le hle)
  unfold State.allocateDescriptors
  split
  · exact Or.inl rfl
  · dsimp only
    split
    · exact Or.inl rfl
    · split
      · exact htaken
      · exact Or.inl rfl

/-- `FreeDescriptor` gives back the entry if it is the caller's. -/
theorem freeDescriptor_releases (host : Host) (s : State) (sel : BitVec 16) :
    Releases s (s.freeDescriptor host sel).2 (· = ldtEntry sel) := by
  have hsame : Releases s s (· = ldtEntry sel) := ⟨⟨rfl, rfl, rfl⟩, fun e => Or.inl rfl, rfl⟩
  unfold State.freeDescriptor
  split
  · exact hsame
  · split
    · exact hsame
    · next howner =>
        have htable := setSelector_onlyTable host s sel emptySegment
        dsimp only
        refine ⟨⟨htable.inDpmi, htable.currentClient, htable.client⟩, fun e => ?_, htable.cstd⟩
        dsimp only
        rw [htable.user]
        by_cases he : e = ldtEntry sel
        · rw [he, Function.update_self]
          exact Or.inr ⟨rfl, not_not.mp howner, rfl⟩
        · exact Or.inl (Function.update_of_ne he _ _)

theorem Releases.trans {u : State} {p : Nat → Prop} (h : Releases s t p) (h' : Releases t u p) :
    Releases s u p where
  toSameClients := h.toSameClients.trans h'.toSameClients
  cstd := h'.cstd.trans h.cstd
  user e := by
    rcases h'.user e with hu | ⟨hp, hmine, hzero⟩
    · rw [hu]
      exact h.user e
    · rw [h.currentClient] at hmine
      rcases h.user e with ht | ⟨-, hs, -⟩
      · exact Or.inr ⟨hp, ht.symm.trans hmine, hzero⟩
      · exact Or.inr ⟨hp, hs, hzero⟩

theorem freeAllDescriptors_releases (host : Host) (s : State) :
    Releases s (s.freeAllDescriptors host) fun _ => True := by
  have hloop (is : List Nat) (t : State) (ht : Releases s t fun _ => True) :
      Releases s (is.foldl (fun s i =>
        if s.user i = s.currentClient + 1 then (s.freeDescriptor host (ldtSelector i)).2
        else s) t) fun _ => True := by
    induction is generalizing t with
    | nil => exact ht
    | cons i is ih =>
        rw [List.foldl_cons]
        refine ih _ ?_
        split
        · have hone := freeDescriptor_releases host t (ldtSelector i)
          exact ht.trans ⟨hone.toSameClients,
            fun e => (hone.user e).imp_right fun h => ⟨trivial, h.2⟩, hone.cstd⟩
        · exact ht
  exact hloop _ s ⟨⟨rfl, rfl, rfl⟩, fun _ => Or.inl rfl, rfl⟩

/-- The outcome of a call that allocates: a run of entries taken for a selector, or none. -/
def Granted (s : State) (n : Nat) (r : BitVec 16 × State) : Prop :=
  ∃ first k, Claims s r.2 first k ∧ (r.1 = 0 ∨ (first = ldtEntry r.1 ∧ k = n))

theorem Allocated.granted {r : BitVec 16 × State} (h : Allocated s n r) : Granted s n r := by
  rcases h with ⟨hzero, first, k, hclaims⟩ | ⟨hclaims, -⟩
  · exact ⟨first, k, hclaims, Or.inl hzero⟩
  · exact ⟨_, n, hclaims, Or.inr ⟨rfl, rfl⟩⟩

/-- A conversion finds an entry that was converted before, or allocates one. -/
theorem convertSegmentToDescriptor_cases (host : Host) (hin : s.inDpmi ≠ 0) (segment : BitVec 16) :
    (∃ i, s.convertSegmentToDescriptor host segment = (ldtSelector i, s) ∧ i < maxSelectors ∧
        s.cstd i = true ∧ s.user i = s.currentClient + 1) ∨
      Granted s 1 (s.convertSegmentToDescriptor host segment) := by
  unfold State.convertSegmentToDescriptor
  dsimp only
  split
  · next i hfound =>
      have hmem := List.mem_range'_1.mp (List.mem_of_find?_eq_some hfound)
      have hprop := List.find?_some hfound
      simp only [Bool.and_eq_true, beq_iff_eq] at hprop
      refine Or.inl ⟨i, rfl, ?_, hprop.1.2, hprop.2⟩
      unfold maxSelectors at hmem ⊢
      omega
  · right
    obtain ⟨first, k, hclaims, hsel⟩ := (allocateDescriptors_allocated host hin 1).granted
    split
    · exact ⟨first, k, hclaims, Or.inl rfl⟩
    · next hne =>
        obtain ⟨rfl, rfl⟩ := hsel.resolve_left hne
        have htable := setSelector_onlyTable host (s.allocateDescriptors host 1).2
          (s.allocateDescriptors host 1).1 (dataSegment (segment.setWidth 32 <<< 4) 0xffff 0)
        have hafter := hclaims.table htable
        split
        · exact ⟨_, 1, hafter, Or.inl rfl⟩
        · refine ⟨_, 1, ⟨⟨hafter.inDpmi, hafter.currentClient, hafter.client⟩, hafter.free,
            hafter.fits, hafter.user, fun e he => ?_⟩, Or.inr ⟨rfl, rfl⟩⟩
          have hother : e ≠ ldtEntry (s.allocateDescriptors host 1).1 := by
            rintro rfl
            exact he ⟨le_rfl, Nat.lt_succ_self _⟩
          exact (Function.update_of_ne hother _ _).trans (hafter.cstd e he)

theorem createAliasDescriptor_granted (host : Host) (hin : s.inDpmi ≠ 0) (sel : BitVec 16) :
    Granted s 1 (s.createAliasDescriptor host sel) := by
  obtain ⟨first, k, hclaims, hsel⟩ := (allocateDescriptors_allocated host hin 1).granted
  unfold State.createAliasDescriptor
  dsimp only
  refine ⟨first, k, hclaims.table (setSelector_onlyTable host _ _ _), ?_⟩
  dsimp only
  split
  · exact Or.inl rfl
  · exact hsel

/-! ## Switches -/

/-- Which client runs, its descriptors and the owners of private entries may differ. -/
structure Swaps (s t : State) : Prop where
  inDpmi : t.inDpmi = s.inDpmi
  client : t.client = s.client
  cstd : t.cstd = s.cstd
  user : ∀ e, privateEntries ≤ e ∨ 0xfe ≤ s.user e → t.user e = s.user e

theorem Swaps.trans {u : State} (h : Swaps s t) (h' : Swaps t u) : Swaps s u where
  inDpmi := h'.inDpmi.trans h.inDpmi
  client := h'.client.trans h.client
  cstd := h'.cstd.trans h.cstd
  user e he := by
    have ht := h.user e he
    rw [h'.user e (he.imp_right fun hsys => by rwa [ht]), ht]

theorem ldtWriteLow_swaps (host : Host) {i : Nat} (hi : i < privateEntries)
    (hsys : s.user i < 0xfe) (lp : Descriptor) : Swaps s (ldtWriteLow host s i lp).2 := by
  have htable : OnlyTable s (doLdtWrite host s i lp).2 := by
    unfold doLdtWrite
    dsimp only
    split <;> exact setLdtEntry_onlyTable host s i _
  have hsame : Swaps s (doLdtWrite host s i lp).2 :=
    ⟨htable.inDpmi, htable.client, htable.cstd, fun e _ => congrFun htable.user e⟩
  have howner (o : Nat) : Swaps s { (doLdtWrite host s i lp).2 with
      user := Function.update (doLdtWrite host s i lp).2.user i o } := by
    refine ⟨htable.inDpmi, htable.client, htable.cstd, fun e he => ?_⟩
    have hne : e ≠ i := by
      rintro rfl
      omega
    exact (Function.update_of_ne hne _ _).trans (congrFun htable.user e)
  unfold ldtWriteLow
  dsimp only
  split
  · exact hsame
  · split
    · exact howner _
    · split
      · exact howner 0
      · exact hsame

theorem foldlM_swaps {host : Host} {saved : Nat → Descriptor} {is : List Nat}
    (his : ∀ i ∈ is, i < privateEntries) (h : is.foldlM (swapEntry host saved) s = some t) :
    Swaps s t := by
  induction is generalizing s with
  | nil =>
      cases h
      exact ⟨rfl, rfl, rfl, fun _ _ => rfl⟩
  | cons i is ih =>
      rw [List.foldlM_cons] at h
      obtain ⟨u, hu, hrest⟩ := Option.bind_eq_some_iff.mp h
      refine Swaps.trans ?_ (ih (fun j hj => his j (List.mem_cons_of_mem i hj)) hrest)
      unfold swapEntry at hu
      split at hu
      · next hsys =>
          obtain ⟨-, -, hu⟩ := Option.bind_eq_some_iff.mp hu
          cases hu
          exact ldtWriteLow_swaps host (his i List.mem_cons_self) hsys _
      · cases hu
        exact ⟨rfl, rfl, rfl, fun _ _ => rfl⟩

theorem clntSwitch_swaps {w w' : World} {c : Nat} (h : clntSwitch host w c = some w') :
    Swaps w.state w'.state := by
  unfold clntSwitch at h
  simp only [Option.bind_eq_bind, Option.bind_eq_some_iff, Option.some.injEq] at h
  obtain ⟨-, -, -, -, t, ht, rfl⟩ := h
  have hswaps := foldlM_swaps (fun i hi => List.mem_range.mp hi) ht
  split at hswaps <;> exact ⟨hswaps.inDpmi, hswaps.client, hswaps.cstd, hswaps.user⟩

theorem dpmiInit_swaps {w w' : World} {is32 : BitVec 1} {seg off : BitVec 16}
    (h : dpmiInit host w is32 seg off = some w') :
    Swaps (w.state.addClient is32 seg off) w'.state := by
  unfold dpmiInit at h
  simp only [Option.bind_eq_bind, Option.bind_eq_some_iff, Option.some.injEq] at h
  obtain ⟨t, ht, rfl⟩ := h
  have hswaps := foldlM_swaps (fun i hi => List.mem_range.mp hi) ht
  split at hswaps <;> exact hswaps

theorem dpmiCleanup_swaps {w w' : World} (h : dpmiCleanup host w = some w') :
    Swaps (w.state.endClient host) w'.state := by
  unfold dpmiCleanup at h
  generalize w.state.endClient host = v at h ⊢
  dsimp only at h
  split at h
  · cases h
    exact ⟨rfl, rfl, rfl, fun _ _ => rfl⟩
  · exact clntSwitch_swaps h

/-! ## The invariant -/

/-- The shared entries that are handed out have their owners, and the entry of a callback in use is
a shared one that belongs to the client of the callback and to no one else, and is no converted
segment. -/
structure Inv (s : State) (issued : Set (Nat × Nat)) : Prop extends CallbacksOwn s issued where
  issued : ∀ c e, (c, e) ∈ issued → privateEntries ≤ e → s.user e = c + 1
  shared : ∀ c i, s.InUse c i → privateEntries ≤ s.callbackEntry c i
  notConverted : ∀ c i, s.InUse c i → s.cstd (s.callbackEntry c i) = false
  clients : s.inDpmi ≤ maxClients

variable {issued issued' : Set (Nat × Nat)}

/-- A step that takes no callback into use, and leaves the entries of those in use alone. -/
theorem Inv.move (h : Inv s issued) (hclients : t.inDpmi ≤ maxClients)
    (hslots : ∀ c i, t.InUse c i → s.InUse c i ∧ t.callbackEntry c i = s.callbackEntry c i)
    (hkeep : ∀ c i, t.InUse c i → t.user (s.callbackEntry c i) = s.user (s.callbackEntry c i) ∧
      t.cstd (s.callbackEntry c i) = s.cstd (s.callbackEntry c i))
    (hissued : ∀ c e, (c, e) ∈ issued' → (privateEntries ≤ e → t.user e = c + 1) ∧
      ((c, e) ∈ issued ∨ s.user e = 0 ∨ s.cstd e = true)) :
    Inv t issued' where
  clients := hclients
  issued c e he := (hissued c e he).1
  shared c i hi := by
    rw [(hslots c i hi).2]
    exact h.shared c i (hslots c i hi).1
  owned c i hi := by
    rw [(hslots c i hi).2, (hkeep c i hi).1]
    exact h.owned c i (hslots c i hi).1
  notConverted c i hi := by
    rw [(hslots c i hi).2, (hkeep c i hi).2]
    exact h.notConverted c i (hslots c i hi).1
  notIssued c i c' hi := by
    have hin := (hslots c i hi).1
    rw [(hslots c i hi).2]
    intro hmem
    rcases (hissued c' _ hmem).2 with hold | hfree | hconv
    · exact h.notIssued c i c' hin hold
    · have howner := h.owned c i hin
      omega
    · rw [h.notConverted c i hin] at hconv
      cases hconv
  apart c i c' i' hi hi' heq := by
    rw [(hslots c i hi).2, (hslots c' i' hi').2] at heq
    exact h.apart c i c' i' (hslots c i hi).1 (hslots c' i' hi').1 heq

theorem SameClients.inUse_iff (h : SameClients s t) (c i : Nat) : t.InUse c i ↔ s.InUse c i := by
  unfold State.InUse State.Running
  rw [h.inDpmi, h.client]

theorem SameClients.callbackEntry (h : SameClients s t) (c i : Nat) :
    t.callbackEntry c i = s.callbackEntry c i := by
  unfold State.callbackEntry
  rw [h.client]

/-- Taking free entries. -/
theorem Inv.claims {first : Nat} (h : Inv s issued) (hc : Claims s t first n)
    (hissued : ∀ c e, (c, e) ∈ issued' → (privateEntries ≤ e → t.user e = c + 1) ∧
      ((c, e) ∈ issued ∨ s.user e = 0 ∨ s.cstd e = true)) :
    Inv t issued' := by
  apply h.move (hc.inDpmi.trans_le h.clients) _ _ hissued
  · intro c i hi
    exact ⟨(hc.inUse_iff c i).mp hi, hc.callbackEntry c i⟩
  · intro c i hi
    have howner := h.owned c i ((hc.inUse_iff c i).mp hi)
    have hout : ¬(first ≤ s.callbackEntry c i ∧ s.callbackEntry c i < first + n) := by
      rintro ⟨hlo, hhi⟩
      rw [hc.free _ hlo hhi] at howner
      omega
    exact ⟨by rw [hc.user, if_neg hout], hc.cstd _ hout⟩

/-- Giving back entries of the current client other than those of its callbacks in use. -/
theorem Inv.releases {u : State} {p : Nat → Prop} (h : Inv s issued) (hr : Releases s t p)
    (hclients : u.inDpmi ≤ maxClients) (huser : u.user = t.user) (hcstd : u.cstd = t.cstd)
    (hslots : ∀ c i, u.InUse c i → s.InUse c i ∧ u.callbackEntry c i = s.callbackEntry c i ∧
      (c = s.currentClient → ¬p (s.callbackEntry c i)))
    (hissued : ∀ c e, (c, e) ∈ issued' → (privateEntries ≤ e → u.user e = c + 1) ∧
      (c, e) ∈ issued) : Inv u issued' := by
  apply h.move hclients (fun c i hi => ⟨(hslots c i hi).1, (hslots c i hi).2.1⟩)
  · intro c i hi
    obtain ⟨hin, -, hother⟩ := hslots c i hi
    rw [huser, hcstd, hr.cstd]
    refine ⟨?_, rfl⟩
    rcases hr.user (s.callbackEntry c i) with hsame | ⟨hp, hmine, -⟩
    · exact hsame
    · have howner := h.owned c i hin
      exact absurd hp (hother (by omega))
  · intro c e he
    exact ⟨(hissued c e he).1, Or.inl (hissued c e he).2⟩

/-- A switch. -/
theorem Inv.swaps (h : Inv s issued) (hs : Swaps s t) : Inv t issued := by
  have hslots (c i : Nat) :
      (t.InUse c i ↔ s.InUse c i) ∧ t.callbackEntry c i = s.callbackEntry c i := by
    unfold State.InUse State.Running State.callbackEntry
    rw [hs.inDpmi, hs.client]
    exact ⟨Iff.rfl, rfl⟩
  refine h.move (hs.inDpmi.trans_le h.clients)
    (fun c i hi => ⟨(hslots c i).1.mp hi, (hslots c i).2⟩)
    (fun c i hi => ⟨hs.user _ (Or.inl (h.shared c i ((hslots c i).1.mp hi))), ?_⟩)
    fun c e he => ⟨fun hshared => ?_, Or.inl he⟩
  · rw [hs.cstd]
  · rw [hs.user e (Or.inl hshared)]
    exact h.issued c e he hshared

/-! ## One call -/

/-- What was handed out before belongs to its client still. -/
theorem Inv.issuedAfter (h : Inv s issued) {call : Call} {r : Reply × State}
    (hkeeps : ∀ e, s.user e ≠ 0 → s.user e ≠ s.currentClient + 1 → r.2.user e = s.user e)
    {c e : Nat} (hmem : (c, e) ∈ issuedAfter s issued call r) (hshared : privateEntries ≤ e) :
    r.2.user e = c + 1 := by
  obtain ⟨hold | ⟨hc, -⟩, hkept⟩ := hmem
  · by_cases hc : c = s.currentClient
    · exact (hkept hc).trans (congrArg (· + 1) hc.symm)
    · have howner := h.issued c e hold hshared
      rw [hkeeps e (by omega) (by omega), howner]
  · exact (hkept hc).trans (congrArg (· + 1) hc.symm)

/-- The call keeps its contract and leads to a state with the invariant. -/
def Served (s : State) (issued : Set (Nat × Nat)) (call : Call) (r : Reply × State) : Prop :=
  CallOk s issued call r ∧ Inv r.2 (issuedAfter s issued call r)

/-- Calls that allocate. -/
theorem served_granted {call : Call} {sel : BitVec 16} (h : Inv s issued)
    (hg : Granted s call.count (sel, t)) (hcall : ∀ seg off, call ≠ .freeRealmodeCallback seg off) :
    Served s issued call (.selector sel, t) := by
  obtain ⟨first, k, hclaims, hsel⟩ := hg
  have hhands : ∀ e, HandsOut call (.selector sel) e →
      s.user e = 0 ∧ t.user e = s.currentClient + 1 := by
    rintro e ⟨sel', heq, hne, hlo, hhi⟩
    cases heq
    obtain ⟨rfl, rfl⟩ := hsel.resolve_left hne
    exact ⟨hclaims.free e hlo hhi, by rw [hclaims.user, if_pos ⟨hlo, hhi⟩]⟩
  have hkeeps := hclaims.keeps
  have hinv : Inv t (issuedAfter s issued call (.selector sel, t)) := by
    refine h.claims hclaims fun c e hmem => ⟨h.issuedAfter (fun e hne _ => hkeeps e hne) hmem, ?_⟩
    obtain ⟨hold | ⟨-, hnew⟩, -⟩ := hmem
    · exact Or.inl hold
    · exact Or.inr (Or.inl (hhands e hnew).1)
  refine ⟨⟨fun e he => Or.inl (hhands e he), ?_, fun e hne _ => hkeeps e hne, hinv.toCallbacksOwn,
    ?_⟩, hinv⟩
  · intro i hi hnot
    exact absurd ((hclaims.inUse_iff _ i).mp hi) hnot
  · intro seg off heq
    exact absurd heq (hcall seg off)

/-- Calls that give back entries. -/
theorem served_releases {call : Call} {reply : Reply} {u : State} {p : Nat → Prop}
    (h : Inv s issued) (hr : Releases s t p) (hreply : ∀ sel, reply ≠ .selector sel)
    (hclients : u.inDpmi ≤ maxClients) (huser : u.user = t.user) (hcstd : u.cstd = t.cstd)
    (hslots : ∀ c i, u.InUse c i → s.InUse c i ∧ u.callbackEntry c i = s.callbackEntry c i ∧
      (c = s.currentClient → ¬p (s.callbackEntry c i)))
    (hfails : ∀ seg off, call = .freeRealmodeCallback seg off →
      (∀ i, s.InUse s.currentClient i → ¬s.IsAddress s.currentClient i seg off) →
        reply = .result (-1) ∧ u = s) :
    Served s issued call (reply, u) := by
  have hhands : ∀ e, ¬HandsOut call reply e := by
    rintro e ⟨sel, heq, -⟩
    exact hreply sel heq
  have hkeeps : ∀ e, s.user e ≠ 0 → s.user e ≠ s.currentClient + 1 → u.user e = s.user e := by
    intro e _ hother
    rw [huser]
    exact (hr.user e).resolve_right fun hgiven => hother hgiven.2.1
  have hinv : Inv u (issuedAfter s issued call (reply, u)) := by
    refine h.releases hr hclients huser hcstd hslots fun c e hmem =>
      ⟨h.issuedAfter hkeeps hmem, ?_⟩
    obtain ⟨hold | ⟨-, hnew⟩, -⟩ := hmem
    · exact hold
    · exact absurd hnew (hhands e)
  refine ⟨⟨fun e he => absurd he (hhands e), ?_, hkeeps, hinv.toCallbacksOwn, hfails⟩, hinv⟩
  intro i hi hnot
  exact absurd (hslots _ i hi).1 hnot

/-- A call that was refused. -/
theorem served_refused {call : Call} {reply : Reply} (h : Inv s issued)
    (hreply : ∀ sel, reply ≠ .selector sel)
    (hfails : ∀ seg off, call = .freeRealmodeCallback seg off → reply = .result (-1)) :
    Served s issued call (reply, s) := by
  have hsame : Releases s s fun _ => False :=
    ⟨⟨rfl, rfl, rfl⟩, fun _ => Or.inl rfl, rfl⟩
  exact served_releases h hsame hreply h.clients rfl rfl (fun _ _ hi => ⟨hi, rfl, fun _ hp => hp⟩)
    fun seg off heq _ => ⟨hfails seg off heq, rfl⟩

theorem Running.inDpmi_ne {s : State} {c : Nat} (hrun : s.Running c) : s.inDpmi ≠ 0 :=
  Nat.ne_of_gt (Nat.zero_lt_of_lt hrun.1)

/-- A selector without the table bit is refused. -/
theorem freeDescriptor_refused (host : Host) {sel : BitVec 16} (hti : sel.getLsbD 2 = false) :
    s.freeDescriptor host sel = (-1, s) := by
  have hsystem : s.systemSelector sel = true := by
    rw [State.systemSelector, State.dpmiValidSelector, hti, Bool.and_false]
    rfl
  rw [State.freeDescriptor, if_pos hsystem]

theorem served_allocateDescriptors (host : Host) (h : Inv s issued)
    (hrun : s.Running s.currentClient) (hn : n ≠ 0) : Served s issued (.allocateDescriptors n)
      (s.exec host (.allocateDescriptors n)) := by
  refine served_granted h ?_ (fun _ _ heq => by cases heq)
  change Granted s (max n 1) _
  rw [max_eq_left (Nat.one_le_iff_ne_zero.mpr hn)]
  exact (allocateDescriptors_allocated host (Running.inDpmi_ne hrun) n).granted

theorem served_allocateDescriptorsAt (host : Host) (h : Inv s issued)
    (hrun : s.Running s.currentClient) (sel : BitVec 16) (n : Nat) : Served s issued (.allocateDescriptorsAt sel n)
      (s.exec host (.allocateDescriptorsAt sel n)) := by
  have hin := Running.inDpmi_ne hrun
  obtain ⟨first, k, hclaims, hsel⟩ := (allocateDescriptorsAt_allocated host hin sel n).granted
  refine served_granted h ⟨first, k, hclaims, ?_⟩ (fun _ _ heq => by cases heq)
  by_cases hn : n = 0
  · left
    change (s.allocateDescriptorsAt host sel n).1 = 0
    unfold State.allocateDescriptorsAt
    rw [if_neg hin]
    dsimp only
    rcases takeDescriptorsAt_claims hin sel n with ⟨htaken, -⟩ | ⟨htaken, -⟩
    · rw [if_pos htaken]
    · rw [if_pos (htaken.trans hn)]
  · change _ ∨ (_ ∧ k = max n 1)
    rw [max_eq_left (Nat.one_le_iff_ne_zero.mpr hn)]
    exact hsel

theorem served_freeDescriptor (host : Host) (h : Inv s issued) (sel : BitVec 16)
    (hcareful : ∀ i, s.InUse s.currentClient i →
      s.callbackEntry s.currentClient i = ldtEntry sel → sel.getLsbD 2 = false) :
    Served s issued (.freeDescriptor sel) (s.exec host (.freeDescriptor sel)) := by
  by_cases hti : sel.getLsbD 2 = false
  · have hrefused : s.exec host (.freeDescriptor sel) = (.result (-1), s) := by
      change (s.freeDescriptor host sel).map Reply.result id = _
      rw [freeDescriptor_refused host hti]
      rfl
    rw [hrefused]
    exact served_refused h (fun _ heq => by cases heq) (fun _ _ heq => by cases heq)
  · have hr := freeDescriptor_releases host s sel
    refine served_releases h hr (fun _ heq => by cases heq) (hr.inDpmi.trans_le h.clients) rfl
      rfl ?_ (fun _ _ heq => by cases heq)
    intro c i hi
    have hin := (hr.inUse_iff c i).mp hi
    refine ⟨hin, hr.callbackEntry c i, ?_⟩
    rintro rfl heq
    exact hti (hcareful i hin heq)

theorem served_convert (host : Host) (h : Inv s issued) (hrun : s.Running s.currentClient)
    (segment : BitVec 16) : Served s issued (.convertSegmentToDescriptor segment)
      (s.exec host (.convertSegmentToDescriptor segment)) := by
  rcases convertSegmentToDescriptor_cases host (Running.inDpmi_ne hrun) segment with
    ⟨i, hfound, hlt, hcstd, howner⟩ | hgranted
  · change Served s issued _ ((s.convertSegmentToDescriptor host segment).map Reply.selector id)
    rw [hfound]
    change Served s issued _ (.selector (ldtSelector i), s)
    have hhands : ∀ e, HandsOut (.convertSegmentToDescriptor segment)
        (.selector (ldtSelector i)) e → e = i := by
      rintro e ⟨sel, heq, -, hlo, hhi⟩
      cases heq
      rw [ldtEntry_ldtSelector hlt] at hlo hhi
      change e < i + 1 at hhi
      omega
    have hinv : Inv s (issuedAfter s issued (.convertSegmentToDescriptor segment)
        (.selector (ldtSelector i), s)) := by
      refine h.move h.clients (fun _ _ hi => ⟨hi, rfl⟩) (fun _ _ _ => ⟨rfl, rfl⟩)
        fun c e hmem => ⟨h.issuedAfter (fun _ _ _ => rfl) hmem, ?_⟩
      obtain ⟨hold | ⟨-, hnew⟩, -⟩ := hmem
      · exact Or.inl hold
      · rw [hhands e hnew]
        exact Or.inr (Or.inr hcstd)
    refine ⟨⟨?_, fun j hj hnot => absurd hj hnot, fun _ _ _ => rfl, hinv.toCallbacksOwn,
      fun _ _ heq => by cases heq⟩, hinv⟩
    intro e he
    rw [hhands e he]
    exact Or.inr ⟨⟨segment, rfl⟩, hcstd, howner, rfl⟩
  · exact served_granted h hgranted (fun _ _ heq => by cases heq)

theorem served_alias (host : Host) (h : Inv s issued) (hrun : s.Running s.currentClient)
    (sel : BitVec 16) : Served s issued (.createAliasDescriptor sel)
      (s.exec host (.createAliasDescriptor sel)) :=
  served_granted h (createAliasDescriptor_granted host (Running.inDpmi_ne hrun) sel)
    (fun _ _ heq => by cases heq)

/-- Writing a slot of the current client leaves the other slots as they are. -/
theorem inUse_setCallBack_of_ne {i : Nat} {cb : RealModeCallBack} {c' i' : Nat}
    (hne : c' = s.currentClient → i' ≠ i) :
    ((s.setCallBack i cb).InUse c' i' ↔ s.InUse c' i') ∧
      (s.setCallBack i cb).callbackEntry c' i' = s.callbackEntry c' i' := by
  unfold State.InUse State.Running State.callbackEntry State.setCallBack State.dpmiClient
  by_cases hc : c' = s.currentClient
  · subst hc
    simp [Function.update_of_ne (hne rfl)]
  · simp [Function.update_of_ne hc]

theorem setCallBack_self {i : Nat} {cb : RealModeCallBack} :
    ((s.setCallBack i cb).client s.currentClient).realModeCallBack i = cb := by
  unfold State.setCallBack
  dsimp only
  rw [Function.update_self]
  exact Function.update_self _ _ _

/-- A slot is free, or gets an entry of its own. -/
theorem Inv.setCallBack {i : Nat} {cb : RealModeCallBack} (h : Inv s issued)
    (hcb : ¬(cb.selector = 0 ∧ cb.offset = 0) →
      s.user (ldtEntry cb.rmSsSelector) = s.currentClient + 1 ∧
      privateEntries ≤ ldtEntry cb.rmSsSelector ∧
      (∀ c', (c', ldtEntry cb.rmSsSelector) ∉ issued) ∧ s.cstd (ldtEntry cb.rmSsSelector) = false ∧
      ∀ c' i', s.InUse c' i' → ¬(c' = s.currentClient ∧ i' = i) →
        s.callbackEntry c' i' ≠ ldtEntry cb.rmSsSelector) :
    Inv (s.setCallBack i cb) issued := by
  have hslot (c' i' : Nat) (hin : (s.setCallBack i cb).InUse c' i') :
      (c' = s.currentClient ∧ i' = i ∧ ¬(cb.selector = 0 ∧ cb.offset = 0) ∧
        (s.setCallBack i cb).callbackEntry c' i' = ldtEntry cb.rmSsSelector) ∨
      (¬(c' = s.currentClient ∧ i' = i) ∧ s.InUse c' i' ∧
        (s.setCallBack i cb).callbackEntry c' i' = s.callbackEntry c' i') := by
    by_cases hself : c' = s.currentClient ∧ i' = i
    · obtain ⟨rfl, rfl⟩ := hself
      have hused := hin.2.2
      rw [setCallBack_self] at hused
      refine Or.inl ⟨rfl, rfl, hused, ?_⟩
      unfold State.callbackEntry
      rw [setCallBack_self]
    · obtain ⟨hiff, hentry⟩ := @inUse_setCallBack_of_ne s i cb c' i' fun hc hi => hself ⟨hc, hi⟩
      exact Or.inr ⟨hself, hiff.mp hin, hentry⟩
  refine ⟨⟨?_, ?_, ?_⟩, h.issued, ?_, ?_, h.clients⟩
  · intro c' i' hin
    rcases hslot c' i' hin with ⟨hc, -, hused, hentry⟩ | ⟨-, hold, hentry⟩
    · exact (congrArg s.user hentry).trans ((hcb hused).1.trans (congrArg (· + 1) hc.symm))
    · exact (congrArg s.user hentry).trans (h.owned c' i' hold)
  · intro c' i' c'' hin
    rcases hslot c' i' hin with ⟨-, -, hused, hentry⟩ | ⟨-, hold, hentry⟩
    · rw [hentry]
      exact (hcb hused).2.2.1 c''
    · rw [hentry]
      exact h.notIssued c' i' c'' hold
  · intro c₁ i₁ c₂ i₂ h₁ h₂ heq
    rcases hslot c₁ i₁ h₁ with ⟨hc₁, hi₁, hused, hentry₁⟩ | ⟨hne₁, hold₁, hentry₁⟩ <;>
      rcases hslot c₂ i₂ h₂ with ⟨hc₂, hi₂, hused₂, hentry₂⟩ | ⟨hne₂, hold₂, hentry₂⟩ <;>
      rw [hentry₁, hentry₂] at heq
    · exact ⟨hc₁.trans hc₂.symm, hi₁.trans hi₂.symm⟩
    · exact absurd heq.symm ((hcb hused).2.2.2.2 c₂ i₂ hold₂ hne₂)
    · exact absurd heq ((hcb hused₂).2.2.2.2 c₁ i₁ hold₁ hne₁)
    · exact h.apart c₁ i₁ c₂ i₂ hold₁ hold₂ heq
  · intro c' i' hin
    rcases hslot c' i' hin with ⟨-, -, hused, hentry⟩ | ⟨-, hold, hentry⟩
    · rw [hentry]
      exact (hcb hused).2.1
    · rw [hentry]
      exact h.shared c' i' hold
  · intro c' i' hin
    rcases hslot c' i' hin with ⟨-, -, hused, hentry⟩ | ⟨-, hold, hentry⟩
    · exact (congrArg s.cstd hentry).trans (hcb hused).2.2.2.1
    · exact (congrArg s.cstd hentry).trans (h.notConverted c' i' hold)

/-- A call that took at most one entry and wrote a slot with it. -/
theorem served_slot {call : Call} {a : Option (BitVec 16 × BitVec 16)} {u : State}
    {cb : RealModeCallBack} {i first k : Nat} (h : Inv s issued) (hclaims : Claims s u first k)
    (hcall : ∀ seg off, call ≠ .freeRealmodeCallback seg off)
    (hcb : ¬(cb.selector = 0 ∧ cb.offset = 0) → first = ldtEntry cb.rmSsSelector ∧ k = 1 ∧
      privateEntries ≤ first ∧ u.cstd (ldtEntry cb.rmSsSelector) = false) :
    Served s issued call (.address a, u.setCallBack i cb) := by
  have hcur : u.currentClient = s.currentClient := hclaims.currentClient
  have hhands : ∀ e, ¬HandsOut call (.address a) e := by
    rintro e ⟨sel, heq, -⟩
    cases heq
  have hkeeps := hclaims.keeps
  have hinvu : Inv u (issuedAfter s issued call (.address a, u.setCallBack i cb)) := by
    refine h.claims hclaims fun c e hmem =>
      ⟨h.issuedAfter (r := (.address a, u)) (fun e hne _ => hkeeps e hne) hmem, ?_⟩
    obtain ⟨hold | ⟨-, hnew⟩, -⟩ := hmem
    · exact Or.inl hold
    · exact absurd hnew (hhands e)
  have hinv : Inv (u.setCallBack i cb)
      (issuedAfter s issued call (.address a, u.setCallBack i cb)) := by
    apply hinvu.setCallBack
    intro hused
    obtain ⟨rfl, rfl, hshared, hcstd⟩ := hcb hused
    have hfree := hclaims.free _ le_rfl (Nat.lt_succ_self _)
    refine ⟨?_, hshared, ?_, hcstd, ?_⟩
    · rw [hclaims.user, if_pos ⟨le_rfl, Nat.lt_succ_self _⟩, hclaims.currentClient]
    · rintro c' ⟨hold | ⟨-, hnew⟩, -⟩
      · have howner := h.issued c' _ hold hshared
        omega
      · exact hhands _ hnew
    · intro c' i' hin _ heq
      have howner := h.owned c' i' ((hclaims.inUse_iff c' i').mp hin)
      rw [hclaims.callbackEntry c' i'] at heq
      rw [heq] at howner
      omega
  refine ⟨⟨fun e he => absurd he (hhands e), ?_, fun e hne _ => hkeeps e hne, hinv.toCallbacksOwn,
    ?_⟩, hinv⟩
  · intro j hj hnot
    by_cases hij : j = i
    · subst hij
      have hused := hj.2.2
      rw [← hcur, setCallBack_self] at hused
      obtain ⟨rfl, rfl, -⟩ := hcb hused
      have hentry : (u.setCallBack j cb).callbackEntry s.currentClient j =
          ldtEntry cb.rmSsSelector := by
        rw [State.callbackEntry, ← hcur, setCallBack_self]
      rw [hentry]
      exact hclaims.free _ le_rfl (Nat.lt_succ_self _)
    · have hold := (@inUse_setCallBack_of_ne u i cb s.currentClient j fun _ => hij).1.mp hj
      exact absurd ((hclaims.inUse_iff _ j).mp hold) hnot
  · intro seg off heq
    exact absurd heq (hcall seg off)

theorem served_allocateCallback (host : Host) (h : Inv s issued) (hrun : s.Running s.currentClient)
    (sel : BitVec 16) (offs : BitVec 32) (rmSel : BitVec 16) (rmOffs : BitVec 32) :
    Served s issued (.allocateRealmodeCallback sel offs rmSel rmOffs)
      (s.exec host (.allocateRealmodeCallback sel offs rmSel rmOffs)) := by
  change Served s issued _
    ((s.allocateRealmodeCallback host sel offs rmSel rmOffs).map Reply.address id)
  unfold State.allocateRealmodeCallback
  split
  · exact served_refused h (fun _ heq => by cases heq) (fun _ _ heq => by cases heq)
  · next i hfound =>
      have hfree := List.find?_some hfound
      simp only [Bool.and_eq_true, beq_iff_eq] at hfree
      have halloc := allocateDescriptors_allocated host (Running.inDpmi_ne hrun) 1
      obtain ⟨ss, u, hu⟩ : ∃ ss u, s.allocateDescriptors host 1 = (ss, u) := ⟨_, _, rfl⟩
      rw [hu] at halloc ⊢
      dsimp only
      split
      · obtain ⟨first, k, hclaims, -⟩ := halloc.granted
        refine served_slot h hclaims (fun _ _ heq => by cases heq) fun hused => absurd ?_ hused
        have hsame : u.dpmiClient = s.dpmiClient := by
          rw [State.dpmiClient, hclaims.client, hclaims.currentClient, State.dpmiClient]
        rw [hsame]
        exact hfree
      · next hne =>
          obtain ⟨hclaims, hcstd⟩ := halloc.resolve_left fun hzero => hne hzero.1
          have hshared := allocateDescriptors_shared host s Nat.one_pos
          rw [hu] at hshared
          exact served_slot h hclaims (fun _ _ heq => by cases heq)
            fun _ => ⟨rfl, rfl, hshared.resolve_left hne, hcstd _ le_rfl (Nat.lt_succ_self _)⟩

theorem served_freeCallback (host : Host) (h : Inv s issued) (seg off : BitVec 16)
    (hcareful : ∀ i, i < maxRmcbs → s.IsAddress s.currentClient i seg off →
      s.InUse s.currentClient i) :
    Served s issued (.freeRealmodeCallback seg off)
      (s.exec host (.freeRealmodeCallback seg off)) := by
  change Served s issued _ ((s.freeRealmodeCallback host seg off).map Reply.result id)
  unfold State.freeRealmodeCallback
  dsimp only
  split
  · next hrange =>
      obtain ⟨hseg, hlo, hhi⟩ := hrange
      obtain ⟨i, hi⟩ : ∃ i, i = off.toNat - s.dpmiClient.rmcbOff.toNat := ⟨_, rfl⟩
      rw [← hi]
      have haddr : s.IsAddress s.currentClient i seg off := by
        refine ⟨hseg, ?_⟩
        change off.toNat = s.dpmiClient.rmcbOff.toNat + i
        omega
      have hin : s.InUse s.currentClient i := hcareful i (by omega) haddr
      obtain ⟨cb, hcb⟩ : ∃ cb, cb = s.dpmiClient.realModeCallBack i := ⟨_, rfl⟩
      rw [← hcb]
      obtain ⟨v, hv⟩ : ∃ v, v = s.setCallBack i { cb with selector := 0, offset := 0 } :=
        ⟨_, rfl⟩
      rw [← hv]
      have hr := freeDescriptor_releases host v cb.rmSsSelector
      have hentry : s.callbackEntry s.currentClient i = ldtEntry cb.rmSsSelector := by
        rw [hcb]
        rfl
      have hvuser : v.user = s.user := by rw [hv]; rfl
      have hvcstd : v.cstd = s.cstd := by rw [hv]; rfl
      have hvcur : v.currentClient = s.currentClient := by rw [hv]; rfl
      have hvin : v.inDpmi = s.inDpmi := by rw [hv]; rfl
      have hback : Releases s { (v.freeDescriptor host cb.rmSsSelector).2 with
          client := s.client } (· = ldtEntry cb.rmSsSelector) := by
        refine ⟨⟨hr.inDpmi.trans hvin, hr.currentClient.trans hvcur, rfl⟩, ?_,
          hr.cstd.trans hvcstd⟩
        intro e
        have huser := hr.user e
        rwa [hvuser, hvcur] at huser
      refine served_releases h hback (fun _ heq => by cases heq)
        ((hr.inDpmi.trans hvin).trans_le h.clients) rfl rfl ?_ ?_
      · intro c' i' hin'
        have hvuse := (hr.inUse_iff c' i').mp hin'
        rw [hv] at hvuse
        by_cases hself : c' = s.currentClient ∧ i' = i
        · obtain ⟨rfl, rfl⟩ := hself
          have hslot : ((s.setCallBack i' { cb with selector := 0, offset := 0 }).client
              s.currentClient).realModeCallBack i' = { cb with selector := 0, offset := 0 } :=
            setCallBack_self
          have hused := hvuse.2.2
          rw [hslot] at hused
          exact absurd ⟨rfl, rfl⟩ hused
        · obtain ⟨hiff, hsame⟩ := @inUse_setCallBack_of_ne s i
            { cb with selector := 0, offset := 0 } c' i' fun hc hi' => hself ⟨hc, hi'⟩
          have hold : s.InUse c' i' := hiff.mp hvuse
          refine ⟨hold, ?_, fun hc heq => hself ⟨hc, ?_⟩⟩
          · rw [← hv] at hsame
            exact (hr.callbackEntry c' i').trans hsame
          exact (h.apart c' i' s.currentClient i hold hin (heq.trans hentry.symm)).2
      · rintro seg' off' heq hnone
        cases heq
        exact absurd haddr (hnone i hin)
  · exact served_refused h (fun _ heq => by cases heq) (fun _ _ _ => rfl)

theorem dropTerminated_le (client : Nat → Client) (n : Nat) :
    State.dropTerminated client n ≤ n := by
  induction n with
  | zero => exact le_rfl
  | succ n ih =>
      rw [State.dropTerminated]
      split
      · exact ih.trans (Nat.le_succ n)
      · exact le_rfl

/-- The end of the current client. -/
theorem Inv.endClient (h : Inv s issued) (host : Host) :
    Inv (s.endClient host) {p | p ∈ issued ∧ p.1 ≠ s.currentClient} := by
  have hr := freeAllDescriptors_releases host s
  obtain ⟨v, hv⟩ : ∃ v, v = s.freeAllDescriptors host := ⟨_, rfl⟩
  rw [← hv] at hr
  have hcur := hr.currentClient
  have hin := hr.inDpmi
  have hissued : ∀ c e, (c, e) ∈ {p | p ∈ issued ∧ p.1 ≠ s.currentClient} →
      (privateEntries ≤ e → v.user e = c + 1) ∧ (c, e) ∈ issued := by
    rintro c e ⟨hold, hne⟩
    refine ⟨fun hshared => ?_, hold⟩
    have howner := h.issued c e hold hshared
    dsimp only at hne
    rcases hr.user e with hsame | ⟨-, hmine, -⟩
    · rw [hsame, howner]
    · omega
  rw [State.endClient, ← hv]
  unfold State.dropClient
  split
  · refine h.releases hr (hin.trans_le h.clients) rfl rfl ?_ hissued
    intro c i hi
    have hne : c ≠ s.currentClient := by
      rintro rfl
      have hended := hi.1.2
      dsimp only at hended
      rw [hcur, Function.update_self] at hended
      cases hended
    have hother (f : Client) : Function.update v.client v.currentClient f c = v.client c := by
      rw [hcur]
      exact Function.update_of_ne hne _ _
    have hold : v.InUse c i := by
      unfold State.InUse State.Running at hi ⊢
      dsimp only at hi
      rwa [hother] at hi
    refine ⟨(hr.inUse_iff c i).mp hold, ?_, fun hc => absurd hc hne⟩
    unfold State.callbackEntry
    dsimp only
    rw [hother]
    exact hr.callbackEntry c i
  · next hlast =>
      rw [hcur, hin, not_not] at hlast
      have hdrop := dropTerminated_le v.client (v.inDpmi - 1)
      have hle := h.clients
      refine h.releases hr ?_ rfl rfl ?_ hissued
      · change State.dropTerminated v.client (v.inDpmi - 1) ≤ maxClients
        omega
      · intro c i hi
        have hlt : c < State.dropTerminated v.client (v.inDpmi - 1) := hi.1.1
        have hold : v.InUse c i := ⟨⟨by omega, hi.1.2⟩, hi.2⟩
        exact ⟨(hr.inUse_iff c i).mp hold, hr.callbackEntry c i, fun hc => by omega⟩

/-! ## Runs -/

/-- A careful call keeps its contract. -/
theorem served_careful (host : Host) {s : Sys} {call : Call} (h : Inv s.state s.issued)
    (hrun : s.state.Running s.state.currentClient) (hcareful : Careful s (.call call)) :
    Served s.state s.issued call (s.state.exec host call) := by
  cases call with
  | allocateDescriptors n => exact served_allocateDescriptors host h hrun (hcareful hrun)
  | allocateDescriptorsAt sel n => exact served_allocateDescriptorsAt host h hrun sel n
  | freeDescriptor sel => exact served_freeDescriptor host h sel hcareful
  | convertSegmentToDescriptor segment => exact served_convert host h hrun segment
  | createAliasDescriptor sel => exact served_alias host h hrun sel
  | allocateRealmodeCallback sel offs rmSel rmOffs =>
      exact served_allocateCallback host h hrun sel offs rmSel rmOffs
  | freeRealmodeCallback seg off => exact served_freeCallback host h seg off (hcareful hrun)

/-- A new client has no callbacks. -/
theorem Inv.addClient (h : Inv s issued) (hroom : s.inDpmi < maxClients) (is32 : BitVec 1)
    (seg off : BitVec 16) : Inv (s.addClient is32 seg off) issued := by
  have hslots (c i : Nat) (hi : (s.addClient is32 seg off).InUse c i) : c ≠ s.inDpmi ∧
      s.InUse c i ∧ (s.addClient is32 seg off).callbackEntry c i = s.callbackEntry c i := by
    have hne : c ≠ s.inDpmi := by
      rintro rfl
      have hused := hi.2.2
      unfold State.addClient at hused
      dsimp only at hused
      rw [Function.update_self] at hused
      exact hused ⟨rfl, rfl⟩
    have hlt : c < s.inDpmi + 1 := hi.1.1
    unfold State.InUse State.Running State.callbackEntry State.addClient at *
    dsimp only at *
    rw [Function.update_of_ne hne] at *
    exact ⟨hne, ⟨⟨by omega, hi.1.2⟩, hi.2⟩, rfl⟩
  exact h.move hroom (fun c i hi => (hslots c i hi).2) (fun _ _ _ => ⟨rfl, rfl⟩)
    fun c e he => ⟨h.issued c e he, Or.inl he⟩

/-- A new client or a switch to another one. -/
theorem switch_served {s t : Sys} {ev : Event} (h : Inv s.state s.issued)
    (hev : (∃ is32 seg off, ev = .init is32 seg off) ∨ ∃ c, ev = .switch c)
    (hstep : s.step host ev = some t) : SwitchOk s.state t ∧ Inv t.state t.issued := by
  rcases hev with ⟨is32, seg, off, rfl⟩ | ⟨c, rfl⟩
  · rw [Sys.step] at hstep
    split at hstep
    · next hroom =>
        obtain ⟨w, hw, rfl⟩ := Option.map_eq_some_iff.mp hstep
        have hswaps := dpmiInit_swaps hw
        have hinv := (h.addClient hroom is32 seg off).swaps hswaps
        exact ⟨⟨hswaps.user, hinv.toCallbacksOwn⟩, hinv⟩
    · cases hstep
  · rw [Sys.step] at hstep
    split at hstep
    · obtain ⟨w, hw, rfl⟩ := Option.map_eq_some_iff.mp hstep
      have hswaps := clntSwitch_swaps hw
      have hinv := h.swaps hswaps
      exact ⟨⟨hswaps.user, hinv.toCallbacksOwn⟩, hinv⟩
    · cases hstep

theorem dropClient_user (s : State) : s.dropClient.user = s.user := by
  unfold State.dropClient
  split <;> rfl

/-- The end of the current client, with the switch to the last one. -/
theorem cleanup_served {s t : Sys} (h : Inv s.state s.issued)
    (hstep : s.step host .cleanup = some t) :
    (∀ e, s.state.user e ≠ s.state.currentClient + 1 →
      (s.state.freeAllDescriptors host).user e = s.state.user e) ∧
    SwitchOk (s.state.freeAllDescriptors host) t ∧ Inv t.state t.issued := by
  rw [Sys.step] at hstep
  split at hstep
  · obtain ⟨w, hw, rfl⟩ := Option.map_eq_some_iff.mp hstep
    have hswaps := dpmiCleanup_swaps hw
    have hinv := (h.endClient host).swaps hswaps
    have hr := freeAllDescriptors_releases host s.state
    refine ⟨fun e hother => ?_, ⟨?_, hinv.toCallbacksOwn⟩, hinv⟩
    · exact (hr.user e).resolve_right fun hgiven => hother hgiven.2.1
    · have huser := hswaps.user
      rw [State.endClient, dropClient_user] at huser
      exact huser
  · cases hstep

theorem step_inv {s t : Sys} {ev : Event} (h : Inv s.state s.issued) (hcareful : Careful s ev)
    (hstep : s.step host ev = some t) : Inv t.state t.issued := by
  cases ev with
  | init is32 seg off => exact (switch_served h (Or.inl ⟨is32, seg, off, rfl⟩) hstep).2
  | switch c => exact (switch_served h (Or.inr ⟨c, rfl⟩) hstep).2
  | cleanup => exact (cleanup_served h hstep).2.2
  | call call =>
      rw [Sys.step] at hstep
      split at hstep
      · next hrun =>
          cases hstep
          exact (served_careful host h hrun hcareful).2
      · cases hstep

/-- A run of no entries is handed out without taking one. -/
theorem allocateDescriptors_zero (host : Host) (hin : s.inDpmi ≠ 0) :
    (s.allocateDescriptors host 0).1 = ldtSelector 17 ∧
      (s.allocateDescriptors host 0).2.user 17 = s.user 17 := by
  have hfirst : s.nextFree 0 maxSelectors (0x10 + 1) = some 17 := rfl
  have htaken : (s.takeDescriptors 0).1 = ldtSelector 17 := by
    unfold State.takeDescriptors
    rw [hfirst]
    dsimp only
    have hzero : (s.takeDescriptorsAt (ldtSelector 17) 0).1 = 0 := by
      rcases takeDescriptorsAt_claims hin (ldtSelector 17) 0 with ⟨hzero, -⟩ | ⟨hzero, -⟩
      · exact hzero
      · exact hzero
    rw [if_neg (not_not.mpr hzero)]
  have hsel : (s.allocateDescriptors host 0).1 = ldtSelector 17 := by
    unfold State.allocateDescriptors
    rw [if_neg hin]
    dsimp only
    rw [htaken, if_neg (ldtSelector_ne_zero 17)]
    rfl
  refine ⟨hsel, ?_⟩
  obtain ⟨hclaims, -⟩ := (allocateDescriptors_allocated host hin 0).resolve_left fun hzero =>
    ldtSelector_ne_zero 17 (hsel.symm.trans hzero.1)
  rw [hclaims.user, if_neg (by omega)]

/-- The caller's own entry becomes free. -/
theorem freeDescriptor_own (host : Host) {sel : BitVec 16} (hti : sel.getLsbD 2 = true)
    (howner : s.user (ldtEntry sel) = s.currentClient + 1) (hclient : s.currentClient < 32) :
    (s.freeDescriptor host sel).2.user (ldtEntry sel) = 0 := by
  have hsystem : s.systemSelector sel = false := by
    rw [State.systemSelector, State.dpmiValidSelector, hti, howner, Bool.and_true,
      Bool.or_eq_false_iff, Bool.not_eq_false', bne_iff_ne, beq_eq_false_iff_ne]
    omega
  unfold State.freeDescriptor
  rw [hsystem, if_neg (by decide), if_neg (not_not.mpr howner)]
  exact Function.update_self _ _ _

/-- A call that is not careful breaks its contract. -/
theorem careful_of_contract {host : Host} {s : Sys} {ev : Event} (h : Inv s.state s.issued)
    (hok : Contract host s ev) : Careful s ev := by
  cases ev with
  | init is32 seg off => trivial
  | switch c => trivial
  | cleanup => trivial
  | call call =>
      cases call with
      | allocateDescriptors n =>
          rintro hrun rfl
          obtain ⟨hsel, huser⟩ := allocateDescriptors_zero host (Running.inDpmi_ne hrun)
          have hentry : ldtEntry (ldtSelector 17) = 17 := ldtEntry_ldtSelector (by decide)
          have hhands : HandsOut (.allocateDescriptors 0)
              (s.state.exec host (.allocateDescriptors 0)).1 17 := by
            refine ⟨ldtSelector 17, congrArg Reply.selector hsel, ldtSelector_ne_zero 17, ?_, ?_⟩
            · exact hentry.le
            · rw [hentry]
              decide
          rcases (hok hrun).fresh 17 hhands with ⟨hfree, howned⟩ | ⟨⟨segment, hcall⟩, -⟩
          · have hnone : s.state.user 17 = s.state.currentClient + 1 := huser.symm.trans howned
            omega
          · cases hcall
      | freeDescriptor sel =>
          intro i hi heq
          by_contra hti
          rw [Bool.not_eq_false] at hti
          have howner := h.owned _ i hi
          rw [heq] at howner
          have hle := h.clients
          have hlt := hi.1.1
          unfold maxClients at hle
          have hr := freeDescriptor_releases host s.state sel
          have hzero := freeDescriptor_own (s := s.state) host hti howner
            (show s.state.currentClient < 32 by omega)
          have hkept := (hok hi.1).callbacks.owned _ i ((hr.inUse_iff _ i).mpr hi)
          have hentry : (s.state.freeDescriptor host sel).2.callbackEntry s.state.currentClient i =
              ldtEntry sel := (hr.callbackEntry _ i).trans heq
          change (s.state.freeDescriptor host sel).2.user
            ((s.state.freeDescriptor host sel).2.callbackEntry s.state.currentClient i) = _ at hkept
          rw [hentry, hzero] at hkept
          cases hkept
      | freeRealmodeCallback seg off =>
          intro hrun i hi haddr
          by_contra hnot
          have hrange : seg = s.state.dpmiClient.rmcbSeg ∧
              s.state.dpmiClient.rmcbOff.toNat ≤ off.toNat ∧
              off.toNat < s.state.dpmiClient.rmcbOff.toNat + maxRmcbs := by
            obtain ⟨hseg, hoff⟩ := haddr
            change off.toNat = s.state.dpmiClient.rmcbOff.toNat + i at hoff
            exact ⟨hseg, by omega, by omega⟩
          have hfails := (hok hrun).freeFails seg off rfl fun j hj hjaddr => by
            have hsame : j = i := Nat.add_left_cancel (hjaddr.2.symm.trans haddr.2)
            exact hnot (hsame ▸ hj)
          have hzero : (s.state.freeRealmodeCallback host seg off).1 = 0 := by
            unfold State.freeRealmodeCallback
            dsimp only
            rw [if_pos hrange]
          have hreply := hfails.1
          change Reply.result (s.state.freeRealmodeCallback host seg off).1 = _ at hreply
          rw [hzero] at hreply
          cases hreply
      | allocateDescriptorsAt sel n => trivial
      | convertSegmentToDescriptor segment => trivial
      | createAliasDescriptor sel => trivial
      | allocateRealmodeCallback sel offs rmSel rmOffs => trivial

theorem contract_iff {s : Sys} {ev : Event} (h : Inv s.state s.issued) :
    Contract host s ev ↔ Careful s ev := by
  refine ⟨careful_of_contract h, fun hcareful => ?_⟩
  cases ev with
  | init is32 seg off =>
      exact fun t ht => (switch_served h (Or.inl ⟨is32, seg, off, rfl⟩) ht).1
  | switch c => exact fun t ht => (switch_served h (Or.inr ⟨c, rfl⟩) ht).1
  | cleanup =>
      intro t ht
      obtain ⟨hkeeps, hswitch, -⟩ := cleanup_served h ht
      exact ⟨hkeeps, hswitch⟩
  | call call => exact fun hrun => (served_careful host h hrun hcareful).1

theorem State.Initial.inv (h : s.Initial) : Inv s ∅ := by
  have hnone (c i : Nat) : ¬s.InUse c i := by
    intro hi
    have hlt := hi.1.1
    rw [h.1] at hlt
    exact Nat.not_lt_zero c hlt
  refine ⟨⟨?_, ?_, ?_⟩, ?_, ?_, ?_, ?_⟩
  · exact fun c i hi => absurd hi (hnone c i)
  · exact fun c i _ hi => absurd hi (hnone c i)
  · exact fun c i _ _ hi => absurd hi (hnone c i)
  · exact fun c e he => absurd he (Set.notMem_empty _)
  · exact fun c i hi => absurd hi (hnone c i)
  · exact fun c i hi => absurd hi (hnone c i)
  · exact h.1.trans_le (Nat.zero_le _)

end Dpmi
end Dosemu
