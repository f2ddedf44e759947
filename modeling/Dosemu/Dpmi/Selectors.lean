import Dosemu.Dpmi.Ldt
import Dosemu.Lib.Run

/-!
# Selectors and their descriptors

The table of the owners of the entries, the functions that read and rewrite a
descriptor field by field, and the contract between them: what is read is what
was written last.

Every writer decodes the entry, replaces some fields and encodes all of them
again.  `SegDesc.written` says what the fields of an entry are after a call that
succeeded, without the encoding; `exec_outcome` is the refinement between the
two, for one call, and `runs_decode` for a run.

Main results:

- Theorem `exec_outcome`: a successful call writes the fields it names, and
  others stay as they are; a failed call leaves the table alone.
- Theorem `descriptors_round_trip`: after any run of successful calls, every way
  to read an entry gives the fields that were written last, and each further
  call keeps its contract.
-/

namespace Dosemu
namespace Dpmi

open BitFields

/-- The cpu that runs protected-mode code: whether it is the native one, whose table is the
kernel's, and what the kernel answers to its `n`-th request to write an entry. -/
structure Host where
  native : Bool
  nativeWriteLdt : Nat → UserDesc → Int

/-- `RealModeCallBack`, less the pointer to the register structure. -/
structure RealModeCallBack where
  selector : BitVec 16
  offset : BitVec 32
  rmregSelector : BitVec 16
  rmregOffset : BitVec 32
  rmSsSelector : BitVec 16
  deriving DecidableEq

/-- What the selector functions use of `struct DPMIclient_struct`. -/
structure Client where
  is32 : BitVec 1
  realModeCallBack : Nat → RealModeCallBack
  rmcbSeg : BitVec 16
  rmcbOff : BitVec 16
  terminated : Bool

/-- The state of the host: the table, the owners and the conversion marks of its entries
(`seg_meta`), and the clients. -/
structure State where
  ldtBuffer : Nat → Descriptor
  user : Nat → Nat
  cstd : Nat → Bool
  inDpmi : Nat
  currentClient : Nat
  client : Nat → Client
  kernelWrites : Nat

/-- `selector >> 3` -/
def ldtEntry (selector : BitVec 16) : Nat :=
  (selector >>> 3).toNat

/-- `(ldt_entry << 3) | 7` -/
def ldtSelector (entry : Nat) : BitVec 16 :=
  BitVec.ofNat 16 entry <<< 3 ||| 7#16

namespace State

/-- `DPMIValidSelector` -/
def dpmiValidSelector (s : State) (selector : BitVec 16) : Bool :=
  s.user (ldtEntry selector) != 0xfe && selector.getLsbD 2

/-- `SystemSelector`; the index of a 16-bit selector is below `MAX_SELECTORS`. -/
def systemSelector (s : State) (selector : BitVec 16) : Bool :=
  !s.dpmiValidSelector selector || s.user (ldtEntry selector) == 0xff

/-- `ValidAndUsedSelector` -/
def validAndUsedSelector (s : State) (selector : BitVec 16) : Bool :=
  s.dpmiValidSelector selector && s.user (ldtEntry selector) != 0

/-- `put_ldt` -/
def putLdt (host : Host) (s : State) (info : UserDesc) : Int × State :=
  let ret := if host.native then host.nativeWriteLdt s.kernelWrites info else 0
  let s := if host.native then { s with kernelWrites := s.kernelWrites + 1 } else s
  if ret ≠ 0 then (ret, s)
  else
    let (err, ldt) := emuWriteLdt info s.ldtBuffer
    (err, { s with ldtBuffer := ldt })

/-- `set_ldt_entry` -/
def setLdtEntry (host : Host) (s : State) (entry : Nat) (fields : SegDesc) : Int × State :=
  s.putLdt host ⟨entry, fields.baseAddr, fields.limit, fields.is32, fields.type, fields.readonly,
    fields.isBig, fields.notPresent, fields.useable⟩

/-- `SetSelector` -/
def setSelector (host : Host) (s : State) (selector : BitVec 16) (fields : SegDesc) : Int × State :=
  if !s.dpmiValidSelector selector || s.user (ldtEntry selector) == 0 then (-1, s)
  else
    let (ret, s) := s.setLdtEntry host (ldtEntry selector) fields
    (if ret ≠ 0 then -1 else 0, s)

/-- `Segments` -/
def segments (s : State) (entry : Nat) : SegDesc :=
  Dpmi.segments (s.ldtBuffer entry)

/-- `GetSegmentBase` -/
def getSegmentBase (s : State) (selector : BitVec 16) : BitVec 32 :=
  if s.validAndUsedSelector selector then (s.segments (ldtEntry selector)).baseAddr else 0

/-- `GetSegmentLimit` -/
def getSegmentLimit (s : State) (selector : BitVec 16) : BitVec 32 :=
  if s.validAndUsedSelector selector then
    let fields := s.segments (ldtEntry selector)
    if fields.isBig = 1 then fields.limit <<< 12 ||| 0xfff#32 else fields.limit
  else 0

/-- `GetDescriptorAccessRights`: bytes 5 and 6 of the entry.  `get_ldt` copies the emulated
table onto itself. -/
def getDescriptorAccessRights (s : State) (selector : BitVec 16) : Option (BitVec 16) :=
  if s.validAndUsedSelector selector then
    some ((s.ldtBuffer (ldtEntry selector)).extractLsb' 40 16)
  else none

/-- `GetDescriptor` -/
def getDescriptor (s : State) (selector : BitVec 16) : Option Descriptor :=
  if s.validAndUsedSelector selector then some (s.ldtBuffer (ldtEntry selector)) else none

/-- `SetSegmentBaseAddress` -/
def setSegmentBaseAddress (host : Host) (s : State) (selector : BitVec 16) (baseaddr : BitVec 32) :
    Int × State :=
  let entry := ldtEntry selector
  if !s.validAndUsedSelector (ldtSelector entry) then (-1, s)
  else s.setLdtEntry host entry { s.segments entry with baseAddr := baseaddr }

/-- `SetSegmentLimit` -/
def setSegmentLimit (host : Host) (s : State) (selector : BitVec 16) (limit : BitVec 32) :
    Int × State :=
  let entry := ldtEntry selector
  if !s.validAndUsedSelector (ldtSelector entry) then (-1, s)
  else if 0x0fffff#32 < limit then
    if ~~~limit &&& 0xfff#32 ≠ 0 then (-1, s)
    else s.setLdtEntry host entry
      { s.segments entry with limit := (limit >>> 12) &&& 0xfffff#32, isBig := 1 }
  else s.setLdtEntry host entry { s.segments entry with limit := limit, isBig := 0 }

/-- `SetDescriptorAccessRights` -/
def setDescriptorAccessRights (host : Host) (s : State) (selector accRights : BitVec 16) :
    Int × State :=
  let entry := ldtEntry selector
  if !s.validAndUsedSelector (ldtSelector entry) then (-1, s)
  else if accRights &&& 0x70#16 ≠ 0x70#16 then (-2, s)
  else s.setLdtEntry host entry
    { s.segments entry with
      type := (accRights >>> 2).setWidth 2
      is32 := (accRights >>> 14).setWidth 1
      isBig := (accRights >>> 15).setWidth 1
      readonly := (accRights >>> 1).setWidth 1 ^^^ 1#1
      notPresent := (accRights >>> 7).setWidth 1 ^^^ 1#1
      useable := (accRights >>> 12).setWidth 1 }

/-- `SetDescriptor` -/
def setDescriptor (host : Host) (s : State) (selector : BitVec 16) (lp : Descriptor) : Int × State :=
  if !s.validAndUsedSelector selector || s.systemSelector selector then (-1, s)
  else
    let fields := Dpmi.segments lp
    if ld lp = 0 ∧ fields.notPresent = 0 then (-1, s)
    else s.setSelector host selector fields

end State

/-! ## What the calls write -/

/-- A descriptor with the access bits of a word as `GetDescriptorAccessRights` returns it. -/
def SegDesc.withAccess (f : SegDesc) (accRights : BitVec 16) : SegDesc :=
  { f with
    type := (accRights >>> 2).setWidth 2
    is32 := (accRights >>> 14).setWidth 1
    isBig := (accRights >>> 15).setWidth 1
    readonly := (accRights >>> 1).setWidth 1 ^^^ 1#1
    notPresent := (accRights >>> 7).setWidth 1 ^^^ 1#1
    useable := (accRights >>> 12).setWidth 1 }

/-- A descriptor with a limit in bytes, counted in pages from one megabyte on. -/
def SegDesc.withLimit (f : SegDesc) (limit : BitVec 32) : SegDesc :=
  if 2 ^ 20 ≤ limit.toNat then { f with limit := limit >>> 12, isBig := 1 }
  else { f with limit := limit, isBig := 0 }

/-- The limit of a descriptor in bytes. -/
def SegDesc.byteLimit (f : SegDesc) : Nat :=
  if f.isBig = 1 then f.limit.toNat * 4096 + 4095 else f.limit.toNat

/-- The calls that rewrite a descriptor. -/
inductive SetCall where
  | setDescriptor (selector : BitVec 16) (lp : Descriptor)
  | setSegmentBaseAddress (selector : BitVec 16) (baseaddr : BitVec 32)
  | setSegmentLimit (selector : BitVec 16) (limit : BitVec 32)
  | setDescriptorAccessRights (selector accRights : BitVec 16)

namespace SetCall

def selector : SetCall → BitVec 16
  | .setDescriptor sel _ => sel
  | .setSegmentBaseAddress sel _ => sel
  | .setSegmentLimit sel _ => sel
  | .setDescriptorAccessRights sel _ => sel

/-- One call: its result and the state it leaves. -/
def exec (host : Host) (s : State) : SetCall → Int × State
  | .setDescriptor sel lp => s.setDescriptor host sel lp
  | .setSegmentBaseAddress sel baseaddr => s.setSegmentBaseAddress host sel baseaddr
  | .setSegmentLimit sel limit => s.setSegmentLimit host sel limit
  | .setDescriptorAccessRights sel acc => s.setDescriptorAccessRights host sel acc

/-- The fields of the entry after a call that succeeded. -/
def written : SetCall → SegDesc → SegDesc
  | .setDescriptor _ lp, _ => segments lp
  | .setSegmentBaseAddress _ baseaddr, f => { f with baseAddr := baseaddr }
  | .setSegmentLimit _ limit, f => f.withLimit limit
  | .setDescriptorAccessRights _ acc, f => f.withAccess acc

end SetCall

/-- A call that either failed and left everything as it was, or wrote one entry so that it
decodes to the given fields. -/
def Writes (s : State) (entry : Nat) (f : SegDesc) (r : Int × State) : Prop :=
  (r.1 ≠ 0 ∧ r.2 = s) ∨
    (r.1 = 0 ∧ ∃ d, segments d = f ∧
      r.2 = { s with ldtBuffer := Function.update s.ldtBuffer entry d })

variable {host : Host} {s : State} {sel : BitVec 16} {f : SegDesc}

theorem ldtEntry_lt (sel : BitVec 16) : ldtEntry sel < maxSelectors := by
  have hlt := sel.isLt
  rw [ldtEntry, maxSelectors, BitVec.toNat_ushiftRight, Nat.shiftRight_eq_div_pow]
  omega

theorem setLdtEntry_writes (hemu : host.native = false) (sel : BitVec 16)
    (hlimit : f.limit.toNat < 2 ^ 20) :
    Writes s (ldtEntry sel) f (s.setLdtEntry host (ldtEntry sel) f) := by
  have hentry : ¬maxSelectors ≤ ldtEntry sel := Nat.not_le.mpr (ldtEntry_lt sel)
  unfold State.setLdtEntry State.putLdt emuWriteLdt
  rw [hemu]
  simp only [Bool.false_eq_true, if_false, ne_eq, not_true_eq_false, if_neg hentry]
  split
  · refine Or.inl ⟨?_, rfl⟩
    change -einval ≠ 0
    decide
  · exact Or.inr ⟨rfl, _, segments_emuUpdateLdt hlimit, rfl⟩

/-- A result that is not zero, with the state as it was. -/
theorem writes_refused {entry : Nat} {r : Int} (hr : r ≠ 0) : Writes s entry f (r, s) :=
  Or.inl ⟨hr, rfl⟩

theorem setSelector_writes (hemu : host.native = false) (hlimit : f.limit.toNat < 2 ^ 20) :
    Writes s (ldtEntry sel) f (s.setSelector host sel f) := by
  unfold State.setSelector
  split
  · exact writes_refused (by decide)
  · rcases setLdtEntry_writes (s := s) hemu sel hlimit with ⟨hret, hs⟩ | ⟨hret, d, hd, hs⟩
    · refine Or.inl ⟨?_, hs⟩
      dsimp only
      rw [if_pos hret]
      decide
    · refine Or.inr ⟨?_, d, hd, hs⟩
      dsimp only
      rw [if_neg (not_not.mpr hret)]

/-- In a limit above a megabyte, the page count has twenty bits. -/
theorem pages_mask (limit : BitVec 32) : (limit >>> 12) &&& 0xfffff#32 = limit >>> 12 := by
  have hlt := limit.isLt
  apply BitVec.eq_of_toNat_eq
  have hpages : limit.toNat / 2 ^ 12 < 2 ^ 20 := by omega
  rw [BitVec.toNat_and, BitVec.toNat_ushiftRight, Nat.shiftRight_eq_div_pow]
  exact Nat.and_two_pow_sub_one_of_lt_two_pow hpages

theorem pages_lt (limit : BitVec 32) : (limit >>> 12).toNat < 2 ^ 20 := by
  have hlt := limit.isLt
  rw [BitVec.toNat_ushiftRight, Nat.shiftRight_eq_div_pow]
  omega

theorem withLimit_limit_lt (f : SegDesc) (limit : BitVec 32) :
    (f.withLimit limit).limit.toNat < 2 ^ 20 := by
  unfold SegDesc.withLimit
  split
  · exact pages_lt limit
  · next hsmall => exact Nat.lt_of_not_le hsmall

/-- One call either fails or writes its fields to its entry. -/
theorem exec_outcome (hemu : host.native = false) (s : State) (c : SetCall) :
    Writes s (ldtEntry c.selector) (c.written (s.segments (ldtEntry c.selector)))
      (c.exec host s) := by
  cases c with
  | setDescriptor sel lp =>
      change Writes s (ldtEntry sel) (segments lp) (s.setDescriptor host sel lp)
      unfold State.setDescriptor
      split
      · exact writes_refused (by decide)
      · dsimp only
        split
        · exact writes_refused (by decide)
        · exact setSelector_writes hemu (limit_lt lp)
  | setSegmentBaseAddress sel baseaddr =>
      change Writes s (ldtEntry sel) _ (s.setSegmentBaseAddress host sel baseaddr)
      unfold State.setSegmentBaseAddress
      dsimp only
      split
      · exact writes_refused (by decide)
      · exact setLdtEntry_writes hemu sel (limit_lt _)
  | setSegmentLimit sel limit =>
      change Writes s (ldtEntry sel) ((s.segments (ldtEntry sel)).withLimit limit)
        (s.setSegmentLimit host sel limit)
      have hfits := withLimit_limit_lt (s.segments (ldtEntry sel)) limit
      unfold State.setSegmentLimit
      dsimp only
      split
      · exact writes_refused (by decide)
      · have hiff : 0x0fffff#32 < limit ↔ 2 ^ 20 ≤ limit.toNat := by
          rw [BitVec.lt_def]
          exact Iff.rfl
        unfold SegDesc.withLimit at hfits ⊢
        by_cases hbig : 2 ^ 20 ≤ limit.toNat
        · rw [if_pos (hiff.mpr hbig), if_pos hbig] at *
          split
          · exact writes_refused (by decide)
          · rw [pages_mask]
            exact setLdtEntry_writes hemu sel hfits
        · rw [if_neg (mt hiff.mp hbig), if_neg hbig] at *
          exact setLdtEntry_writes hemu sel hfits
  | setDescriptorAccessRights sel acc =>
      change Writes s (ldtEntry sel) _ (s.setDescriptorAccessRights host sel acc)
      unfold State.setDescriptorAccessRights
      dsimp only
      split
      · exact writes_refused (by decide)
      · split
        · exact writes_refused (by decide)
        · exact setLdtEntry_writes hemu sel (limit_lt _)

/-! ## Runs -/

/-- One call that has to succeed. -/
def setStep (host : Host) (s : State) (c : SetCall) : Option State :=
  if (c.exec host s).1 = 0 then some (c.exec host s).2 else none

/-- The fields that the calls on an entry leave there, one after the other. -/
def lastWritten (entry : Nat) (cs : List SetCall) (f : SegDesc) : SegDesc :=
  (cs.filter fun c => ldtEntry c.selector = entry).foldl (fun f c => c.written f) f

/-- Only the table changes. -/
theorem setStep_eq_some (hemu : host.native = false) {c : SetCall} {t : State}
    (h : setStep host s c = some t) :
    t.user = s.user ∧ t.segments (ldtEntry c.selector) =
      c.written (s.segments (ldtEntry c.selector)) ∧
      ∀ e, e ≠ ldtEntry c.selector → t.ldtBuffer e = s.ldtBuffer e := by
  unfold setStep at h
  rcases exec_outcome hemu s c with ⟨hret, hs⟩ | ⟨hret, d, hd, hs⟩
  · rw [if_neg hret] at h
    cases h
  · rw [if_pos hret, hs] at h
    cases h
    refine ⟨rfl, ?_, fun e he => Function.update_of_ne he d s.ldtBuffer⟩
    unfold State.segments
    dsimp only
    rw [Function.update_self]
    exact hd

/-- After any run of successful calls, an entry decodes to what was written last. -/
theorem runs_decode (hemu : host.native = false) {cs : List SetCall} {t : State}
    (hrun : Run.run (setStep host) s cs = some t) (e : Nat) :
    t.user = s.user ∧ t.segments e = lastWritten e cs (s.segments e) := by
  induction cs generalizing s with
  | nil =>
      cases hrun
      exact ⟨rfl, rfl⟩
  | cons c cs ih =>
      obtain ⟨u, hu, hrest⟩ := Run.run_cons_eq_some.mp hrun
      obtain ⟨huser, hwritten, hothers⟩ := setStep_eq_some hemu hu
      obtain ⟨htuser, htseg⟩ := ih hrest
      refine ⟨htuser.trans huser, ?_⟩
      rw [htseg, lastWritten, lastWritten]
      by_cases he : ldtEntry c.selector = e
      · rw [List.filter_cons_of_pos (by simpa using he), List.foldl_cons, ← he, hwritten]
      · have hsame : u.segments e = s.segments e :=
          congrArg segments (hothers e (Ne.symm he))
        rw [List.filter_cons_of_neg (by simpa using he), hsame]

/-! ## The contract -/

/-- `DPMI_MAX_CLIENTS` -/
def maxClients : Nat := 32

/-- A selector of the table whose entry a client owns. -/
def State.OwnedByClient (s : State) (sel : BitVec 16) : Prop :=
  sel.getLsbD 2 = true ∧ ∃ c < maxClients, s.user (ldtEntry sel) = c + 1

/-- All the ways to read an entry give the same fields. -/
structure State.Decodes (t : State) (sel : BitVec 16) (f : SegDesc) : Prop where
  segments : t.segments (ldtEntry sel) = f
  base : t.getSegmentBase sel = f.baseAddr
  limit : (t.getSegmentLimit sel).toNat = f.byteLimit
  accessRights : ∃ acc, t.getDescriptorAccessRights sel = some acc ∧ f.withAccess acc = f
  descriptor : ∃ lp, t.getDescriptor sel = some lp ∧ Dpmi.segments lp = f

/-- What the next call on an entry does. -/
structure State.Rewrites (host : Host) (t : State) (sel : BitVec 16) : Prop where
  descriptor : ∀ lp, (t.setDescriptor host sel lp).1 = 0 →
    ∃ lp', (t.setDescriptor host sel lp).2.getDescriptor sel = some lp' ∧ Agree lp' lp
  base : ∀ b, (t.setSegmentBaseAddress host sel b).1 = 0 →
    (t.setSegmentBaseAddress host sel b).2.segments (ldtEntry sel) =
      { t.segments (ldtEntry sel) with baseAddr := b }
  limit : ∀ l, (t.setSegmentLimit host sel l).1 = 0 →
    (t.setSegmentLimit host sel l).2.getSegmentLimit sel = l ∧
      ∃ lim big, (t.setSegmentLimit host sel l).2.segments (ldtEntry sel) =
        { t.segments (ldtEntry sel) with limit := lim, isBig := big }
  accessRights : ∀ acc, (t.setDescriptorAccessRights host sel acc).1 = 0 →
    (t.setDescriptorAccessRights host sel acc).2.segments (ldtEntry sel) =
      (t.segments (ldtEntry sel)).withAccess acc
  refused : ∀ c : SetCall, (c.exec host t).1 ≠ 0 → (c.exec host t).2.ldtBuffer = t.ldtBuffer

theorem State.OwnedByClient.valid (h : s.OwnedByClient sel) : s.validAndUsedSelector sel = true := by
  obtain ⟨hti, c, hc, huser⟩ := h
  have hne : s.user (ldtEntry sel) ≠ 0xfe := by
    rw [huser]
    unfold maxClients at hc
    omega
  simp [State.validAndUsedSelector, State.dpmiValidSelector, hti, hne]
  omega

/-- The limit in bytes of a decoded entry. -/
theorem toNat_getSegmentLimit (hvalid : s.validAndUsedSelector sel = true) :
    (s.getSegmentLimit sel).toNat = (s.segments (ldtEntry sel)).byteLimit := by
  have hlt : (s.segments (ldtEntry sel)).limit.toNat < 2 ^ 20 := limit_lt _
  unfold State.getSegmentLimit SegDesc.byteLimit
  rw [if_pos hvalid]
  dsimp only
  split
  · rw [BitVec.toNat_or, BitVec.toNat_shiftLeft]
    have hmod : (s.segments (ldtEntry sel)).limit.toNat <<< 12 % 2 ^ 32 =
        (s.segments (ldtEntry sel)).limit.toNat <<< 12 := by
      rw [Nat.shiftLeft_eq]
      omega
    rw [hmod]
    exact (Nat.shiftLeft_add_eq_or_of_lt (by decide) _).symm.trans (by rw [Nat.shiftLeft_eq]; rfl)
  · rfl

/-- The access bits of an entry are the ones it decodes to. -/
theorem withAccess_segments (lp : Descriptor) :
    (segments lp).withAccess (lp.extractLsb' 40 16) = segments lp := by
  obtain ⟨htype, h32, hro, hbig, hnp, huse⟩ := segments_flags lp
  have hshift (k w : Nat) (hfits : k + w ≤ 16) :
      ((lp.extractLsb' 40 16 >>> k).setWidth w : BitVec w) = field (40 + k) w lp := by
    ext i hi
    have hword : k + i < 16 := by omega
    simp [field, hword, Nat.add_assoc]
  unfold SegDesc.withAccess
  rw [hshift 2 2 (by decide), hshift 14 1 (by decide), hshift 15 1 (by decide),
    hshift 1 1 (by decide), hshift 7 1 (by decide), hshift 12 1 (by decide), ← htype, ← h32, ← hro,
    ← hbig, ← hnp, ← huse]

theorem decodes (howned : s.OwnedByClient sel) : s.Decodes sel (s.segments (ldtEntry sel)) where
  segments := rfl
  base := if_pos howned.valid
  limit := toNat_getSegmentLimit howned.valid
  accessRights := ⟨_, if_pos howned.valid, withAccess_segments _⟩
  descriptor := ⟨_, if_pos howned.valid, rfl⟩

/-- A successful call leaves the fields it names and the owners as they were. -/
theorem exec_written (hemu : host.native = false) {c : SetCall} (hret : (c.exec host s).1 = 0) :
    (c.exec host s).2.user = s.user ∧ (c.exec host s).2.segments (ldtEntry c.selector) =
      c.written (s.segments (ldtEntry c.selector)) := by
  have hstep : setStep host s c = some (c.exec host s).2 := if_pos hret
  obtain ⟨huser, hwritten, -⟩ := setStep_eq_some hemu hstep
  exact ⟨huser, hwritten⟩

theorem State.OwnedByClient.congr (howned : s.OwnedByClient sel) {t : State}
    (h : t.user = s.user) : t.OwnedByClient sel := by
  rwa [State.OwnedByClient, h]

/-- A limit that `SetSegmentLimit` takes is the limit of the descriptor it writes. -/
theorem byteLimit_withLimit {limit : BitVec 32} (hret : (s.setSegmentLimit host sel limit).1 = 0) :
    (f.withLimit limit).byteLimit = limit.toNat := by
  unfold SegDesc.withLimit SegDesc.byteLimit
  by_cases hbig : 2 ^ 20 ≤ limit.toNat
  · have hpages : 0x0fffff#32 < limit := by
      rw [BitVec.lt_def]
      exact hbig
    have hones : ~~~limit &&& 0xfff#32 = 0 := by
      by_contra hne
      unfold State.setSegmentLimit at hret
      dsimp only at hret
      rw [if_pos hpages, if_pos hne] at hret
      split at hret
      · cases hret
      · cases hret
    have hlow : (2 ^ 32 - 1 - limit.toNat) % 2 ^ 12 = 0 := by
      have hnat := congrArg BitVec.toNat hones
      rw [BitVec.toNat_and, BitVec.toNat_not] at hnat
      rwa [show (0xfff#32).toNat = 2 ^ 12 - 1 from rfl, Nat.and_two_pow_sub_one_eq_mod] at hnat
    have hlt := limit.isLt
    rw [if_pos hbig]
    dsimp only
    rw [if_pos rfl, BitVec.toNat_ushiftRight, Nat.shiftRight_eq_div_pow]
    omega
  · rw [if_neg hbig]
    rfl

theorem rewrites (hemu : host.native = false) (howned : s.OwnedByClient sel) :
    s.Rewrites host sel where
  descriptor lp hret := by
    obtain ⟨huser, hwritten⟩ := exec_written (c := .setDescriptor sel lp) hemu hret
    exact ⟨_, if_pos (howned.congr huser).valid, agree_of_segments_eq hwritten⟩
  base b hret := (exec_written (c := .setSegmentBaseAddress sel b) hemu hret).2
  limit l hret := by
    obtain ⟨huser, hwritten⟩ := exec_written (c := .setSegmentLimit sel l) hemu hret
    constructor
    · apply BitVec.eq_of_toNat_eq
      rw [← byteLimit_withLimit hret]
      exact (toNat_getSegmentLimit (howned.congr huser).valid).trans
        (congrArg SegDesc.byteLimit hwritten)
    · change _ = (s.segments (ldtEntry sel)).withLimit l at hwritten
      unfold SegDesc.withLimit at hwritten
      split at hwritten
      · exact ⟨_, _, hwritten⟩
      · exact ⟨_, _, hwritten⟩
  accessRights acc hret := (exec_written (c := .setDescriptorAccessRights sel acc) hemu hret).2
  refused c hret := by
    rcases exec_outcome hemu s c with ⟨-, hs⟩ | ⟨hzero, -⟩
    · rw [hs]
    · exact absurd hzero hret

/-- On the emulated table, after any run of successful calls, every way to read the entry of a
client's selector gives the fields written last, and each further call keeps its contract. -/
theorem descriptors_round_trip {cs : List SetCall} {s t : State} {sel : BitVec 16}
    (hemu : host.native = false) (hrun : Run.run (setStep host) s cs = some t)
    (howned : s.OwnedByClient sel) :
    t.Decodes sel (lastWritten (ldtEntry sel) cs (s.segments (ldtEntry sel))) ∧
      t.Rewrites host sel := by
  obtain ⟨huser, hlast⟩ := runs_decode hemu hrun (ldtEntry sel)
  have htowned := howned.congr huser
  rw [← hlast]
  exact ⟨decodes htowned, rewrites hemu htowned⟩

/-- The state with one client, which owns entry 32 and nothing else. -/
def oneClient : State where
  ldtBuffer := fun _ => 0
  user := fun e => if e = 32 then 1 else 0
  cstd := fun _ => false
  inDpmi := 1
  currentClient := 0
  client := fun _ => ⟨1, fun _ => ⟨0, 0, 0, 0, 0⟩, 0, 0, false⟩
  kernelWrites := 0

/-- A page-granular segment whose descriptor is cleared afterwards. -/
theorem descriptors_round_trip_cleared :
    let host : Host := ⟨false, fun _ _ => 0⟩
    let cs : List SetCall := [.setDescriptor 0x107#16 0x00CFFB123456789A#64,
      .setSegmentLimit 0x107#16 0x00ffffff#32, .setDescriptor 0x107#16 0#64]
    ∃ t, Run.run (setStep host) oneClient cs = some t ∧
      t.Decodes 0x107#16 (lastWritten 32 cs (oneClient.segments 32)) ∧
      t.Rewrites host 0x107#16 := by
  refine ⟨_, rfl, @descriptors_round_trip ⟨false, fun _ _ => 0⟩ _ _ _ _ rfl rfl ?_⟩
  exact ⟨by decide, 0, by decide, by decide⟩

end Dpmi
end Dosemu
