import Dosemu.Dpmi.Ownership

/-!
# The private part of the descriptor table

An entry that `clnt_switch` saves and writes back is decoded and encoded again,
and its owner follows from the bytes.

`reloaded` and `reloadedOwner` say what the switch leaves in an entry, and
`Restorable` lists the entries that survive it.

Main results:

- Theorem `clntSwitch_eq`: what a switch does to the whole table.
- Theorem `sameBytes_reloaded`: the descriptors that are encoded as they were.
- Theorem `switch_keeps_iff`: switching away and back, with any calls of the
  other client in between, keeps the private entries exactly if each of them is
  restorable.
-/

namespace Dosemu
namespace Dpmi
namespace ClientSwitch

open BitFields

/-- `SetGateDescriptor` -/
def setGateDescriptor (host : Host) (s : State) (selector : BitVec 16) (lp : Descriptor) :
    Int × State :=
  if host.native then (-1, s)
  else if !s.validAndUsedSelector selector || s.systemSelector selector then (-1, s)
  else (0, { s with ldtBuffer := Function.update s.ldtBuffer (ldtEntry selector) lp })

/-- The calls of a client on a descriptor. -/
inductive Op where
  | allocateDescriptorsAt (selector : BitVec 16) (n : Nat)
  | freeDescriptor (selector : BitVec 16)
  | set (call : SetCall)
  | setGateDescriptor (selector : BitVec 16) (lp : Descriptor)

/-- The state after a call of the current client. -/
def Op.exec (host : Host) (s : State) : Op → State
  | .allocateDescriptorsAt sel n => (s.allocateDescriptorsAt host sel n).2
  | .freeDescriptor sel => (s.freeDescriptor host sel).2
  | .set call => (call.exec host s).2
  | .setGateDescriptor sel lp => (ClientSwitch.setGateDescriptor host s sel lp).2

/-- The world after calls of the current client. -/
def World.execs (host : Host) (w : World) (ops : List Op) : World :=
  { w with state := ops.foldl (fun s op => op.exec host s) w.state }

/-! ## The contract -/

/-- The same eight bytes, up to the accessed bit. -/
def SameBytes (a b : Descriptor) : Prop :=
  ∀ i, i ≠ 40 → a.getLsbD i = b.getLsbD i

/-- The private entries have the same bytes and owners. -/
def World.KeepsPrivate (w w' : World) : Prop :=
  ∀ e < privateEntries, SameBytes (w'.state.ldtBuffer e) (w.state.ldtBuffer e) ∧
    w'.state.user e = w.state.user e

/-- Another client can be switched to, and no private entry is a system entry. -/
structure World.Switchable (w : World) (b : Nat) : Prop where
  other : b ≠ w.state.currentClient
  current_lt : w.state.currentClient < w.state.inDpmi
  other_lt : b < w.state.inDpmi
  clients : w.state.inDpmi ≤ maxClients
  noSystem : ∀ e < privateEntries, w.state.user e < 0xfe

/-- The encoder takes a descriptor: `emu_write_ldt` refuses one that is present
and has the contents of a conforming code segment, as a 32-bit gate has. -/
def Encodable (lp : Descriptor) : Prop :=
  ¬((segments lp).type = 3 ∧ (segments lp).notPresent = 0)

instance (lp : Descriptor) : Decidable (Encodable lp) :=
  inferInstanceAs (Decidable (¬_))

/-- The fields of an entry that is cleared. -/
def emptyFields : SegDesc :=
  ⟨0, 0, 0, 0, 1, 0, 1, 0⟩

/-- The descriptor that is written over `before` comes out as it was: it is an
ordinary one at privilege level 3 with the reserved bit as in `before`, or one
that is cleared and has no other bit set; one that the encoder refuses must be
there already. -/
def Reencodes (lp before : Descriptor) : Prop :=
  if Encodable lp then
    if segments lp = emptyFields then
      ld lp = 0 ∧ field 45 2 lp = 0 ∧ field 53 1 lp = 0
    else ld lp = 1 ∧ field 45 2 lp = 3 ∧ field 53 1 lp = field 53 1 before
  else SameBytes before lp

/-- An entry of client `a` that survives: it reencodes, and its owner is `a` if
it is present and nobody if it is not. -/
def Restorable (a : Nat) (lp before : Descriptor) (owner : Nat) : Prop :=
  Reencodes lp before ∧ owner = if (segments lp).notPresent = 0 then a + 1 else 0

/-! ## One entry -/

/-- The arguments that `set_ldt_entry` passes on. -/
def userDesc (e : Nat) (f : SegDesc) : UserDesc :=
  ⟨e, f.baseAddr, f.limit, f.is32, f.type, f.readonly, f.isBig, f.notPresent, f.useable⟩

/-- What the switch leaves in an entry that is written with `lp`. -/
def reloaded (e : Nat) (lp before : Descriptor) : Descriptor :=
  if (segments lp).type = 3 ∧ (segments lp).notPresent = 0 then before
  else emuUpdateLdt (userDesc e (segments lp)) before

/-- The owner that the switch to client `a` leaves. -/
def reloadedOwner (a : Nat) (lp : Descriptor) : Nat :=
  if (segments lp).notPresent = 0 then a + 1 else 0

variable {host : Host} {s t : State} {w : World} {lp before : Descriptor} {e : Nat}

theorem doLdtWrite_eq (hemu : host.native = false) (he : e < maxSelectors) :
    doLdtWrite host s e lp = (((segments lp).notPresent.toNat : Int),
      { s with ldtBuffer := Function.update s.ldtBuffer e (reloaded e lp (s.ldtBuffer e)) }) := by
  unfold doLdtWrite State.setLdtEntry State.putLdt emuWriteLdt reloaded
  rw [hemu]
  simp only [Bool.false_eq_true, if_false, ne_eq, not_true_eq_false, if_neg (Nat.not_le.mpr he)]
  split
  · -- a refused write returns -EINVAL, which is not -1
    have hret : ¬-einval = -1 := by
      decide
    rw [if_neg hret, Function.update_eq_self]
  · rfl

/-- The entry and its owner change, and nothing else. -/
theorem ldtWriteLow_eq (hemu : host.native = false) (he : e < maxSelectors) :
    ldtWriteLow host s e lp = (0,
      { s with
        ldtBuffer := Function.update s.ldtBuffer e (reloaded e lp (s.ldtBuffer e))
        user := Function.update s.user e (reloadedOwner s.currentClient lp) }) := by
  have hbit : (segments lp).notPresent = 0 ∨ (segments lp).notPresent = 1 := by
    generalize (segments lp).notPresent = b
    decide +revert
  unfold ldtWriteLow reloadedOwner
  rw [doLdtWrite_eq hemu he]
  rcases hbit with hbit | hbit
  · rw [hbit]
    rfl
  · rw [hbit]
    by_cases howner : s.user e = 0
    · have hsame : Function.update s.user e 0 = s.user := by
        rw [← howner]
        exact Function.update_eq_self e s.user
      simp [howner, hsame]
    · simp [howner]

theorem swapEntry_eq (hemu : host.native = false) (he : e < maxSelectors) (saved : Nat → Descriptor)
    (hsys : s.user e < 0xfe) :
    swapEntry host saved s e = some { s with
      ldtBuffer := Function.update s.ldtBuffer e (reloaded e (saved e) (s.ldtBuffer e))
      user := Function.update s.user e (reloadedOwner s.currentClient (saved e)) } := by
  unfold swapEntry
  rw [if_pos hsys, ldtWriteLow_eq hemu he]
  rfl

/-- The first `n` entries of the table are those of the saved table. -/
structure Swapped (saved : Nat → Descriptor) (n : Nat) (s t : State) : Prop
    extends SameClients s t where
  table : ∀ e, t.ldtBuffer e =
    if e < n then reloaded e (saved e) (s.ldtBuffer e) else s.ldtBuffer e
  owner : ∀ e, t.user e = if e < n then reloadedOwner s.currentClient (saved e) else s.user e

theorem foldlM_swapEntry (hemu : host.native = false) (saved : Nat → Descriptor) {n : Nat}
    (hn : n ≤ privateEntries) (hsys : ∀ e < n, s.user e < 0xfe) :
    ∃ t, (List.range n).foldlM (swapEntry host saved) s = some t ∧ Swapped saved n s t := by
  induction n with
  | zero => exact ⟨s, rfl, ⟨rfl, rfl, rfl⟩, fun _ => rfl, fun _ => rfl⟩
  | succ n ih =>
      obtain ⟨t, hrun, ht⟩ := ih (Nat.le_of_succ_le hn) fun e he => hsys e (Nat.lt_succ_of_lt he)
      have hlast : t.user n < 0xfe := by
        rw [ht.owner, if_neg (Nat.lt_irrefl n)]
        exact hsys n n.lt_succ_self
      have hbound : n < maxSelectors := by
        unfold privateEntries at hn
        unfold maxSelectors
        omega
      have hstep := swapEntry_eq hemu hbound saved hlast
      refine ⟨{ t with
        ldtBuffer := Function.update t.ldtBuffer n (reloaded n (saved n) (t.ldtBuffer n))
        user := Function.update t.user n (reloadedOwner t.currentClient (saved n)) }, ?_,
        ⟨ht.inDpmi, ht.currentClient, ht.client⟩, fun e => ?_, fun e => ?_⟩
      · rw [List.range_succ, List.foldlM_append, hrun]
        exact congrArg (· >>= pure) hstep
      · by_cases he : e = n
        · subst he
          simp [ht.table]
        · have hiff : e < n + 1 ↔ e < n := by
            omega
          simp [he, ht.table, hiff]
      · by_cases he : e = n
        · subst he
          simp [ht.currentClient]
        · have hiff : e < n + 1 ↔ e < n := by
            omega
          simp [he, ht.owner, hiff]

/-- A switch never fails its assertions.  It saves the private entries of the
client that ran, and loads those of the new one. -/
theorem clntSwitch_eq (hemu : host.native = false) {b : Nat} (h : w.Switchable b) :
    ∃ t, clntSwitch host w b = some ⟨t, (savePrevClntState w).savedLdt⟩ ∧
      Swapped (w.savedLdt b) privateEntries { w.state with currentClient := b } t := by
  have hin : w.state.inDpmi ≠ 0 := Nat.ne_of_gt (Nat.zero_lt_of_lt h.other_lt)
  have hsaved : (savePrevClntState w).savedLdt b = w.savedLdt b :=
    Function.update_of_ne h.other _ _
  obtain ⟨t, hrun, ht⟩ := foldlM_swapEntry (s := { w.state with currentClient := b }) hemu
    (w.savedLdt b) (Nat.le_refl privateEntries) h.noSystem
  refine ⟨t, ?_, ht⟩
  change (cAssert _).bind _ = _
  rw [cAssert_bind hin]
  change (cAssert _).bind _ = _
  rw [cAssert_bind h.other.symm, if_pos h.current_lt]
  change ((List.range privateEntries).foldlM (swapEntry host ((savePrevClntState w).savedLdt b))
    { w.state with currentClient := b }).bind _ = _
  rw [hsaved, hrun]
  rfl

/-! ## Descriptors that are encoded as they were -/

/-- A descriptor that decodes alike differs at most in the loose bits. -/
theorem sameBytes_iff {a : Descriptor} (h : segments a = segments lp) :
    SameBytes a lp ↔ ld a = ld lp ∧ field 45 2 a = field 45 2 lp ∧
      field 53 1 a = field 53 1 lp := by
  have hld (d : Descriptor) : ld d = field 44 1 d := by
    ext i hi
    interval_cases i
    simp [ld, lp1, field]
  rw [hld, hld]
  constructor
  · intro hsame
    have hfield (off k : Nat) (happ : ∀ i < k, off + i ≠ 40) : field off k a = field off k lp := by
      apply BitVec.eq_of_getLsbD_eq
      intro i hi
      rw [getLsbD_field, getLsbD_field, hsame _ (happ i hi)]
    exact ⟨hfield 44 1 (by omega), hfield 45 2 (by omega), hfield 53 1 (by omega)⟩
  · rintro ⟨hs, hdpl, hres⟩ i hi
    have hbit {off k : Nat} (hsame : field off k a = field off k lp) (hlo : off ≤ i)
        (hhi : i < off + k) : a.getLsbD i = lp.getLsbD i := by
      rw [getLsbD_of_field hsame hlo hhi, getLsbD_of_field rfl hlo hhi]
    by_cases hloose : i ∈ looseBits
    · simp only [looseBits, List.mem_cons, List.not_mem_nil, or_false] at hloose
      by_cases hsys : i = 44
      · exact hbit hs (by omega) (by omega)
      by_cases hpriv : i < 47
      · exact hbit hdpl (by omega) (by omega)
      · exact hbit hres (by omega) (by omega)
    · exact agree_of_segments_eq h i hloose

/-- What the encoder puts in the bits that no decoder reads. -/
theorem packed_loose (info : UserDesc) (lp : Descriptor) :
    ld (packed info lp) = 1 ∧ field 45 2 (packed info lp) = 3 ∧
      field 53 1 (packed info lp) = field 53 1 lp := by
  have hld : ld (packed info lp) = field 44 1 (packed info lp) := by
    ext i hi
    interval_cases i
    simp [ld, lp1, field]
  rw [hld]
  unfold packed mkLimit mkBase
  simp (disch := decide) only [field_setField_apart, field_setField_inside, Nat.sub_self]
  exact ⟨BitVec.extractLsb'_eq_self, BitVec.extractLsb'_eq_self, trivial⟩

/-- The test of `emu_update_LDT` for an entry that is cleared. -/
theorem cleared_iff {f : SegDesc} :
    ((userDesc e f).baseAddr = 0 ∧ (userDesc e f).limit = 0 ∧ ldtEmpty (userDesc e f)) ↔
      f = emptyFields := by
  constructor
  · rintro ⟨-, -, hbase, hlim, htype, hro, h32, hbig, hnp, huse⟩
    cases f
    simp only [userDesc] at hbase hlim htype hro h32 hbig hnp huse
    subst hbase hlim htype hro h32 hbig hnp huse
    rfl
  · rintro rfl
    exact ⟨rfl, rfl, rfl, rfl, rfl, rfl, rfl, rfl, rfl, rfl⟩

/-- The descriptors that the switch leaves as they were saved. -/
theorem sameBytes_reloaded : SameBytes (reloaded e lp before) lp ↔ Reencodes lp before := by
  unfold reloaded Reencodes
  by_cases hrefused : (segments lp).type = 3 ∧ (segments lp).notPresent = 0
  · have henc : ¬Encodable lp := not_not.mpr hrefused
    rw [if_pos hrefused, if_neg henc]
  · have henc : Encodable lp := hrefused
    rw [if_neg hrefused, if_pos henc]
    have hsame : segments (emuUpdateLdt (userDesc e (segments lp)) before) = segments lp :=
      segments_emuUpdateLdt (limit_lt lp)
    rw [sameBytes_iff hsame]
    unfold emuUpdateLdt
    by_cases hempty : segments lp = emptyFields
    · have hzero : ld 0 = 0 ∧ field 45 2 (0 : Descriptor) = 0 ∧ field 53 1 (0 : Descriptor) = 0 := by
        decide
      rw [if_pos hempty, if_pos (cleared_iff.mpr hempty), hzero.1, hzero.2.1, hzero.2.2]
      exact and_congr eq_comm (and_congr eq_comm eq_comm)
    · obtain ⟨hs, hdpl, hres⟩ := packed_loose (userDesc e (segments lp)) before
      rw [if_neg hempty, if_neg (mt cleared_iff.mp hempty), hs, hdpl, hres]
      exact and_congr eq_comm (and_congr eq_comm eq_comm)

/-! ## The other client's calls -/

/-- A call of the current client leaves the clients as they were, and makes no
system entry. -/
theorem exec_frame (hemu : host.native = false) (hclients : s.inDpmi ≤ maxClients) (hcur : s.currentClient < s.inDpmi)
    (op : Op) :
    SameClients s (op.exec host s) ∧
      ∀ e, s.user e < 0xfe → (op.exec host s).user e < 0xfe := by
  have hin : s.inDpmi ≠ 0 := Nat.ne_of_gt (Nat.zero_lt_of_lt hcur)
  have hclient : s.currentClient + 1 < 0xfe := by
    unfold maxClients at hclients
    omega
  have htable {t : State} (h : OnlyTable s t) :
      SameClients s t ∧ ∀ e, s.user e < 0xfe → t.user e < 0xfe :=
    ⟨h.toSameClients, fun e he => by rwa [h.user]⟩
  cases op with
  | allocateDescriptorsAt sel n =>
      obtain ⟨first, k, hclaims, -⟩ := (allocateDescriptorsAt_allocated host hin sel n).granted
      refine ⟨hclaims.toSameClients, fun e he => ?_⟩
      change (s.allocateDescriptorsAt host sel n).2.user e < 0xfe
      rw [hclaims.user]
      split
      · exact hclient
      · exact he
  | freeDescriptor sel =>
      have hreleases := freeDescriptor_releases host s sel
      refine ⟨hreleases.toSameClients, fun e he => ?_⟩
      change (s.freeDescriptor host sel).2.user e < 0xfe
      rcases hreleases.user e with hsame | ⟨-, -, hzero⟩
      · rwa [hsame]
      · rw [hzero]
        decide
  | set call =>
      apply htable
      rcases exec_outcome hemu s call with ⟨-, hs⟩ | ⟨-, d, -, hs⟩
      · rw [Op.exec, hs]
        exact OnlyTable.refl s
      · rw [Op.exec, hs]
        exact ⟨⟨rfl, rfl, rfl⟩, rfl, rfl⟩
  | setGateDescriptor sel lp =>
      apply htable
      change OnlyTable s (ClientSwitch.setGateDescriptor host s sel lp).2
      unfold ClientSwitch.setGateDescriptor
      split
      · exact OnlyTable.refl s
      · split
        · exact OnlyTable.refl s
        · exact ⟨⟨rfl, rfl, rfl⟩, rfl, rfl⟩

theorem execs_frame (hemu : host.native = false) (hclients : w.state.inDpmi ≤ maxClients)
    (hcur : w.state.currentClient < w.state.inDpmi) (ops : List Op) :
    SameClients w.state (w.execs host ops).state ∧
      ∀ e, w.state.user e < 0xfe → (w.execs host ops).state.user e < 0xfe := by
  unfold World.execs
  generalize w.state = s at *
  induction ops generalizing s with
  | nil => exact ⟨⟨rfl, rfl, rfl⟩, fun _ => id⟩
  | cons op ops ih =>
      obtain ⟨hstep, hown⟩ := exec_frame hemu hclients hcur op
      rw [← hstep.inDpmi] at hclients hcur
      rw [← hstep.currentClient] at hcur
      obtain ⟨hrest, hrestOwn⟩ := ih _ hclients hcur
      exact ⟨hstep.trans hrest, fun e he => hrestOwn e (hown e he)⟩

theorem World.Switchable.execs (hemu : host.native = false) {b : Nat} (h : w.Switchable b) (ops : List Op) :
    (w.execs host ops).Switchable b := by
  obtain ⟨hsame, hown⟩ := execs_frame hemu h.clients h.current_lt ops
  exact ⟨by rw [hsame.currentClient]; exact h.other,
    by rw [hsame.currentClient, hsame.inDpmi]; exact h.current_lt,
    by rw [hsame.inDpmi]; exact h.other_lt,
    by rw [hsame.inDpmi]; exact h.clients,
    fun e he => hown e (h.noSystem e he)⟩

/-- Another client can switch back. -/
theorem World.Switchable.back {b : Nat} (h : w.Switchable b) {w' : World}
    (hs : Swapped (w.savedLdt b) privateEntries { w.state with currentClient := b } w'.state) :
    w'.Switchable w.state.currentClient where
  other := by
    rw [hs.currentClient]
    exact h.other.symm
  current_lt := by
    rw [hs.currentClient, hs.inDpmi]
    exact h.other_lt
  other_lt := by
    rw [hs.inDpmi]
    exact h.current_lt
  clients := by
    rw [hs.inDpmi]
    exact h.clients
  noSystem e he := by
    have hclients := h.clients
    have hlt := h.other_lt
    rw [hs.owner, if_pos he]
    unfold reloadedOwner
    unfold maxClients at hclients
    split
    · dsimp only
      omega
    · decide

/-! ## Away and back -/

/-- Switching to another client and back, with any calls before and in between,
keeps the private entries exactly if each of them is restorable. -/
theorem switch_keeps_iff (hemu : host.native = false) {w : World} {b : Nat} (h : w.Switchable b)
    (opsA opsB : List Op) :
    ∃ wb wa, clntSwitch host (w.execs host opsA) b = some wb ∧
      clntSwitch host (wb.execs host opsB) w.state.currentClient = some wa ∧
      ((w.execs host opsA).KeepsPrivate wa ↔ ∀ e < privateEntries,
        Restorable w.state.currentClient ((w.execs host opsA).state.ldtBuffer e)
          ((wb.execs host opsB).state.ldtBuffer e) ((w.execs host opsA).state.user e)) := by
  have hcurA := (execs_frame hemu h.clients h.current_lt opsA).1.currentClient
  have hA := h.execs hemu opsA
  generalize w.execs host opsA = u at *
  obtain ⟨tb, hb, hsb⟩ := clntSwitch_eq hemu hA
  let wb : World := ⟨tb, (savePrevClntState u).savedLdt⟩
  have hback : wb.Switchable u.state.currentClient := hA.back hsb
  have hB := hback.execs hemu opsB
  rw [hcurA] at hB
  obtain ⟨ta, ha, hsa⟩ := clntSwitch_eq hemu hB
  refine ⟨wb, _, hb, ha, ?_⟩
  have hsaved (e : Nat) (he : e < privateEntries) :
      (wb.execs host opsB).savedLdt w.state.currentClient e = u.state.ldtBuffer e := by
    rw [← hcurA]
    change Function.update u.savedLdt u.state.currentClient _ u.state.currentClient e = _
    rw [Function.update_self, if_pos he]
  unfold World.KeepsPrivate Restorable
  refine forall_congr' fun e => forall_congr' fun he => ?_
  dsimp only
  rw [hsa.table, hsa.owner, if_pos he, if_pos he, hsaved e he]
  exact and_congr sameBytes_reloaded eq_comm

/-- Two clients that own nothing; the first one runs. -/
def twoClients : World where
  state := { oneClient with inDpmi := 2, user := fun _ => 0 }
  savedLdt := fun _ _ => 0

theorem twoClients_switchable : twoClients.Switchable 1 where
  other := by
    decide
  current_lt := by
    decide
  other_lt := by
    decide
  clients := by
    decide
  noSystem := by
    intro e _
    exact Nat.zero_lt_succ _

/-- An ordinary data segment in entry 1 and a free entry 2. -/
theorem switch_keeps_iff_segment :
    let host : Host := ⟨false, fun _ _ => 0⟩
    let ops : List Op := [.allocateDescriptorsAt 0x0f#16 1,
      .set (.setDescriptor 0x0f#16 0x00CFF3123456789A#64)]
    ∃ wb wa, clntSwitch host (twoClients.execs host ops) 1 = some wb ∧
      clntSwitch host (wb.execs host []) 0 = some wa ∧
      ((twoClients.execs host ops).KeepsPrivate wa ↔ ∀ e < privateEntries,
        Restorable 0 ((twoClients.execs host ops).state.ldtBuffer e)
          ((wb.execs host []).state.ldtBuffer e) ((twoClients.execs host ops).state.user e)) :=
  @switch_keeps_iff ⟨false, fun _ _ => 0⟩ rfl _ _ twoClients_switchable _ _

/-- An entry that its client has marked not present belongs to nobody when the
client runs again. -/
theorem not_present_disowned :
    ¬∀ (host : Host) (w : World) (b : Nat) (opsA opsB : List Op) (wb wa : World),
      host.native = false → w.Switchable b →
      clntSwitch host (w.execs host opsA) b = some wb →
      clntSwitch host (wb.execs host opsB) w.state.currentClient = some wa →
      (w.execs host opsA).KeepsPrivate wa := by
  intro hall
  have hkept := hall ⟨false, fun _ _ => 0⟩ twoClients 1
    [.allocateDescriptorsAt 0x0f#16 1, .set (.setDescriptorAccessRights 0x0f#16 0x0072#16)] [] _ _
    rfl twoClients_switchable rfl rfl
  have howner := (hkept 1 (by decide)).2
  revert howner
  decide

end ClientSwitch
end Dpmi
end Dosemu
