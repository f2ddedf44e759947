import Mathlib.Data.Set.Basic
import Dosemu.Lib.Outcome
import Dosemu.Lib.Run

/-!
# Locks on regions of a file

DOS locks are exclusive and mandatory.  They are mapped to the host's locks on
open file descriptions, where a handle that cannot write gets a read lock, and
reads and writes ask for a conflicting lock before they move anything.

The kernel is an input: each call carries the answers it gets, and
`Event.Answered` says which answers are right.  A query is answered with any one
of the locks in question.  On older kernels, which cannot be asked for one's own
locks, each handle mirrors its locks on a file of its own.

A region is taken as the host range that is locked for it: the two top bits of
the offset are folded down and those of the size are dropped, and a size of zero
reaches to the end of every file.

Main results:

- Theorem `step_inv`: the locks of the host are those that were granted.
- Theorem `locks_kept`: in a run, regions of others are neither read nor
  written, nor locked, with an exception for those that only read.
-/

namespace Dosemu
namespace Mfs
namespace RegionLocks

/-- `F_RDLCK` and `F_WRLCK` -/
inductive Kind where
  | rd
  | wr
  deriving DecidableEq

/-- The locks of one open file description, byte by byte. -/
abbrev Locks := Nat → Option Kind

/-- A lock as `F_OFD_GETLK` reports it; a length of zero has no end. -/
structure Rec where
  kind : Kind
  start : Nat
  len : Nat

/-- The handles of the file: which can write, the configured limit, and whether the kernel can
be asked for one's own locks. -/
structure Config where
  isWritable : Nat → Bool
  fileLockLimit : Nat
  funlck : Bool

/-- The locks of each handle and their mirror, and `lock_cnt`; beside them the bytes of the regions
that each handle has locked and not unlocked since, as ranges of the host and as DOS named
them. -/
structure State where
  locks : Nat → Locks
  mirror : Nat → Locks
  lockCnt : Nat → Nat
  held : Nat → Set Nat
  dosHeld : Nat → Set Nat

/-- A byte of a range of the host; a length of zero has no end. -/
def InRange (start len b : Nat) : Prop :=
  start ≤ b ∧ (len = 0 ∨ b < start + len)

instance (start len b : Nat) : Decidable (InRange start len b) :=
  inferInstanceAs (Decidable (_ ∧ _))

/-- `l_type` of a handle's locks -/
def Config.kindOf (cfg : Config) (h : Nat) : Kind :=
  if cfg.isWritable h then .wr else .rd

/-- Set the lock type of a range. -/
def setRange (m : Locks) (start len : Nat) (k : Option Kind) : Locks :=
  fun b => if InRange start len b then k else m b

/-- `lock_file_region`, with the answers of `flock` and of `F_OFD_SETLK`.  The mirror, which
nobody else locks, takes every request. -/
def lockFileRegion (cfg : Config) (s : State) (h : Nat) (lck : Bool) (start len : Nat)
    (flock granted : Bool) : Int × State :=
  if !flock then (-1, s)
  else
    let kind := if lck then some (cfg.kindOf h) else none
    let s :=
      if granted then
        { s with locks := Function.update s.locks h (setRange (s.locks h) start len kind) }
      else s
    let s :=
      if cfg.funlck then s
      else { s with mirror := Function.update s.mirror h (setRange (s.mirror h) start len kind) }
    (if granted then 0 else -1, s)

/-- `region_is_fully_owned`, with the lock that the query reports -/
def regionIsFullyOwned (own : Option Rec) (start len : Nat) (wr : Bool) : Bool :=
  match own with
  | none => false
  | some fl =>
      if wr ∧ fl.kind = .rd then false
      else if start < fl.start then false
      else if fl.start + fl.len < start + len then false
      else true

/-- `region_lock_offs`, with the answers of `flock` and the lock that the query reports -/
def regionLockOffs (flock unlock : Bool) (other : Option Rec) (start len : Nat) : Int :=
  if !flock then -1
  else
    match other with
    | none => len
    | some fl => if start < fl.start then (fl.start - start : Nat) else if unlock then 0 else -1

/-- The folded offset of a region. -/
def foldOffset (offset : BitVec 32) : BitVec 32 :=
  if offset &&& 0xC0000000#32 ≠ 0 then
    (offset &&& ~~~0xC0000000#32) ||| ((offset &&& 0xC0000000#32) >>> 2)
  else offset

/-- The size of a region without its two top bits. -/
def maskSize (size : BitVec 32) : BitVec 32 :=
  size &&& ~~~0xC0000000#32

/-- The codes that a request returns in AX. -/
inductive DosError where
  | accessDenied
  | sharingBufExceeded
  | fileLockViolation
  deriving DecidableEq

/-- `LOCK_UNLOCK_FILE_REGION`: the result and the state. -/
def lockUnlock (cfg : Config) (s : State) (h : Nat) (isLock : Bool) (offset size : BitVec 32)
    (flock granted : Bool) : Except DosError Unit × State :=
  if isLock ∧ cfg.fileLockLimit ≠ 0 ∧ cfg.fileLockLimit ≤ s.lockCnt h then
    (.error .sharingBufExceeded, s)
  else if 0 < size.toNat ∧ 0xffffffff < offset.toNat + size.toNat then (.error .accessDenied, s)
  else
    let start := (foldOffset offset).toNat
    let len := (maskSize size).toNat
    let (ret, s) := lockFileRegion cfg s h isLock start len flock granted
    if ret = 0 then
      (.ok (), { s with
        lockCnt := Function.update s.lockCnt h (if isLock then s.lockCnt h + 1 else 0)
        held := Function.update s.held h
          {b | if InRange start len b then isLock = true else b ∈ s.held h}
        dosHeld := Function.update s.dosHeld h
          {b | if offset.toNat ≤ b ∧ b < offset.toNat + size.toNat then isLock = true
            else b ∈ s.dosHeld h} })
    else (.error .fileLockViolation, s)

/-- `READ_FILE` and `WRITE_FILE`: how many bytes from the position on are moved at most.  A read
asks as a writer does. -/
def transfer (wr : Bool) (seek cnt : Nat) (own other : Option Rec) (flock unlock : Bool) :
    Except DosError Nat :=
  if cnt = 0 then .ok 0
  else
    let cnt1 : Int :=
      if !regionIsFullyOwned own seek cnt wr ∧ seek ≤ 0xFFFFFFFF ∧ seek + cnt ≤ 0xFFFFFFFF then
        regionLockOffs flock unlock other seek cnt
      else cnt
    if cnt1 = 0 then .error .accessDenied
    else .ok (if cnt1 = -1 then cnt else cnt1.toNat)

/-- A request of DOS with the answers of the host. -/
inductive Event where
  | lockUnlock (h : Nat) (isLock : Bool) (offset size : BitVec 32) (flock granted : Bool)
  | transfer (h : Nat) (wr : Bool) (seek cnt : Nat) (own other : Option Rec)
      (flock unlock : Bool)

/-- The state after a request. -/
def step (cfg : Config) (s : State) : Event → Option State
  | .lockUnlock h isLock offset size flock granted =>
      some (lockUnlock cfg s h isLock offset size flock granted).2
  | .transfer .. => some s

/-! ## The answers of the host -/

/-- Two locks of different files descriptions on one byte conflict. -/
def Conflict (k k' : Kind) : Prop :=
  k = .wr ∨ k' = .wr

/-- A reported lock is there, and it meets the range. -/
structure Reported (m : Locks) (fl : Rec) (start len : Nat) : Prop where
  locked : ∀ b, InRange fl.start fl.len b → m b = some fl.kind
  meets : ∃ b, InRange fl.start fl.len b ∧ InRange start len b

/-- A lock request on a range is granted. -/
def Grantable (cfg : Config) (s : State) (h start len : Nat) : Prop :=
  ∀ h', h' ≠ h → ∀ b, InRange start len b → ∀ k, s.locks h' b = some k →
    ¬Conflict (cfg.kindOf h) k

/-- The locks that a handle is asked about as its own: a write is not interested in read locks of
the mirror, where they do not conflict. -/
def ownLocks (cfg : Config) (s : State) (h : Nat) (wr : Bool) : Locks :=
  if cfg.funlck then s.locks h
  else fun b => if wr ∧ s.mirror h b = some .rd then none else s.mirror h b

/-- The answer to the query for one's own locks. -/
def OwnAnswer (cfg : Config) (s : State) (h : Nat) (wr : Bool) (seek cnt : Nat) :
    Option Rec → Prop
  | none => ∀ b, InRange seek cnt b → ownLocks cfg s h wr b = none
  | some fl => Reported (ownLocks cfg s h wr) fl seek cnt

/-- The answer to the query for the locks of others. -/
def OtherAnswer (s : State) (h seek cnt : Nat) : Option Rec → Prop
  | none => ∀ h', h' ≠ h → ∀ b, InRange seek cnt b → s.locks h' b = none
  | some fl => ∃ h', h' ≠ h ∧ Reported (s.locks h') fl seek cnt

/-- The host answers as its documentation says. -/
def Event.Answered (cfg : Config) (s : State) : Event → Prop
  | .lockUnlock h isLock offset size flock granted =>
      flock = true ∧ (granted = true ↔ isLock = true →
        Grantable cfg s h (foldOffset offset).toNat (maskSize size).toNat)
  | .transfer h wr seek cnt own other flock unlock =>
      flock = true ∧ unlock = true ∧ OwnAnswer cfg s h wr seek cnt own ∧
        OtherAnswer s h seek cnt other

/-! ## The contract -/

/-- What a request keeps to. -/
def Contract (cfg : Config) (s : State) : Event → Prop
  | .lockUnlock h isLock offset size flock granted =>
      let ok := (lockUnlock cfg s h isLock offset size flock granted).1 = .ok ()
      let overlaps (h' : Nat) : Prop :=
        ∃ b ∈ s.held h', InRange (foldOffset offset).toNat (maskSize size).toNat b
      isLock = true →
        -- a region of another handle is not locked again, unless both can only read
        (∀ h', h' ≠ h → overlaps h' → ok → cfg.isWritable h = false ∧ cfg.isWritable h' = false) ∧
        -- and one that is apart from all of them is
        ((∀ h', h' ≠ h → ¬overlaps h') →
          (cfg.fileLockLimit = 0 ∨ s.lockCnt h < cfg.fileLockLimit) →
          (size.toNat = 0 ∨ offset.toNat + size.toNat ≤ 0xffffffff) → ok)
  | .transfer h wr seek cnt own other flock unlock =>
      ∀ n, transfer wr seek cnt own other flock unlock = .ok n →
        ∀ b, seek ≤ b → b < seek + n → ∀ h', h' ≠ h → b ∈ s.held h' →
          -- a read may share bytes among handles that only read, behind a lock of its own
          wr = false ∧ cfg.isWritable h' = false ∧ cfg.isWritable h = false ∧
            ∀ b', seek ≤ b' → b' < seek + cnt → b' ∈ s.held h

/-- The requests that do not depend on what the queries leave out: the reported lock is the first
one in the range, and the mirror is right about it. -/
def Careful (cfg : Config) (s : State) : Event → Prop
  | .lockUnlock .. => True
  | .transfer h _ seek cnt _ other _ _ =>
      seek + cnt ≤ 0xFFFFFFFF ∧
        (∀ fl, other = some fl → ∀ h', h' ≠ h → ∀ b, InRange seek cnt b → b < fl.start →
          s.locks h' b = none) ∧
        (cfg.funlck = false → ∀ b, InRange seek cnt b → s.mirror h b = s.locks h b)

/-! ## The invariant -/

/-- The locks of the host are those that were granted and not released. -/
structure State.Inv (cfg : Config) (s : State) : Prop where
  held : ∀ h b, b ∈ s.held h ↔ s.locks h b = some (cfg.kindOf h)
  kind : ∀ h b k, s.locks h b = some k → k = cfg.kindOf h
  apart : ∀ h h' b k k', h ≠ h' → s.locks h b = some k → s.locks h' b = some k' → ¬Conflict k k'

/-- The file is opened, and nothing is locked. -/
def fresh : State where
  locks := fun _ _ => none
  mirror := fun _ _ => none
  lockCnt := fun _ => 0
  held := fun _ => ∅
  dosHeld := fun _ => ∅

theorem fresh_inv (cfg : Config) : fresh.Inv cfg where
  held h b := iff_of_false (Set.notMem_empty b) nofun
  kind := by
    rintro h b k ⟨⟩
  apart := by
    rintro h h' b k k' - ⟨⟩

variable {cfg : Config} {s : State}

/-- Without a lock request, nothing changes but the mirror. -/
theorem lockFileRegion_locks (h : Nat) (lck : Bool) (start len : Nat) (granted : Bool) :
    (lockFileRegion cfg s h lck start len true granted).1 = (if granted then 0 else -1) ∧
      (lockFileRegion cfg s h lck start len true granted).2.locks =
        (if granted then
          Function.update s.locks h
            (setRange (s.locks h) start len (if lck then some (cfg.kindOf h) else none))
        else s.locks) ∧
      (lockFileRegion cfg s h lck start len true granted).2.held = s.held := by
  unfold lockFileRegion
  cases granted <;> cases cfg.funlck <;> exact ⟨rfl, rfl, rfl⟩

theorem setRange_apply (m : Locks) (start len : Nat) (k : Option Kind) (b : Nat) :
    setRange m start len k b = if InRange start len b then k else m b :=
  rfl

/-- The locks after a range was locked or unlocked. -/
theorem State.Inv.update (hinv : s.Inv cfg) {h start len : Nat} {lck : Bool}
    (hgrant : lck = true → Grantable cfg s h start len) {t : State}
    (hlocks : t.locks = Function.update s.locks h
      (setRange (s.locks h) start len (if lck then some (cfg.kindOf h) else none)))
    (hheld : t.held = Function.update s.held h
      {b | if InRange start len b then lck = true else b ∈ s.held h}) : t.Inv cfg where
  held g b := by
    rw [hlocks, hheld]
    by_cases hg : g = h
    · subst hg
      rw [Function.update_self, Function.update_self, setRange_apply, Set.mem_ofPred_eq]
      split
      · cases lck <;> simp
      · exact hinv.held g b
    · rw [Function.update_of_ne hg, Function.update_of_ne hg]
      exact hinv.held g b
  kind g b k hk := by
    rw [hlocks] at hk
    by_cases hg : g = h
    · subst hg
      rw [Function.update_self, setRange_apply] at hk
      split at hk
      · cases lck with
        | false => cases hk
        | true => exact (Option.some.inj hk).symm
      · exact hinv.kind g b k hk
    · rw [Function.update_of_ne hg] at hk
      exact hinv.kind g b k hk
  apart g g' b k k' hne hk hk' := by
    have hsym {x y : Kind} (hxy : ¬Conflict x y) : ¬Conflict y x := fun hyx => hxy hyx.symm
    -- what the handle itself has locked on the byte, before or now
    have hown {k : Kind} (hk : setRange (s.locks h) start len
        (if lck then some (cfg.kindOf h) else none) b = some k) (g' : Nat) (hne : g' ≠ h)
        {k' : Kind} (hk' : s.locks g' b = some k') : ¬Conflict k k' := by
      rw [setRange_apply] at hk
      split at hk
      · next hrange =>
          cases lck with
          | false => cases hk
          | true =>
              rw [← Option.some.inj hk]
              exact hgrant rfl g' hne b hrange k' hk'
      · exact hinv.apart h g' b k k' hne.symm hk hk'
    rw [hlocks] at hk hk'
    by_cases hg : g = h
    · subst hg
      rw [Function.update_self] at hk
      rw [Function.update_of_ne hne.symm] at hk'
      exact hown hk g' hne.symm hk'
    · rw [Function.update_of_ne hg] at hk
      by_cases hg' : g' = h
      · subst hg'
        rw [Function.update_self] at hk'
        exact hsym (hown hk' g hg hk)
      · rw [Function.update_of_ne hg'] at hk'
        exact hinv.apart g g' b k k' hne hk hk'

/-! ## Requests -/

/-- A request to lock or unlock is refused and changes no lock, or it is granted. -/
theorem lockUnlock_outcome (cfg : Config) (s : State) (h : Nat) (isLock : Bool)
    (offset size : BitVec 32) (granted : Bool) :
    let r := lockUnlock cfg s h isLock offset size true granted
    (r.1 ≠ .ok () ∧ r.2.locks = s.locks ∧ r.2.held = s.held) ∨
      (r.1 = .ok () ∧ granted = true ∧
        r.2.locks = Function.update s.locks h (setRange (s.locks h) (foldOffset offset).toNat
          (maskSize size).toNat (if isLock then some (cfg.kindOf h) else none)) ∧
        r.2.held = Function.update s.held h
          {b | if InRange (foldOffset offset).toNat (maskSize size).toNat b then isLock = true
            else b ∈ s.held h}) := by
  obtain ⟨hret, hlocks, hheld⟩ := @lockFileRegion_locks cfg s h isLock
    (foldOffset offset).toNat (maskSize size).toNat granted
  unfold lockUnlock
  dsimp only
  split
  · exact Or.inl ⟨nofun, rfl, rfl⟩
  · split
    · exact Or.inl ⟨nofun, rfl, rfl⟩
    · rw [hret]
      cases granted with
      | false => exact Or.inl ⟨nofun, hlocks, hheld⟩
      | true =>
          refine Or.inr ⟨rfl, rfl, hlocks, ?_⟩
          simp only [reduceIte]
          exact congrArg (fun held : Nat → Set Nat => Function.update held h
            {b | if InRange (foldOffset offset).toNat (maskSize size).toNat b then isLock = true
              else b ∈ held h}) hheld

theorem step_inv (hinv : s.Inv cfg) {e : Event} (ha : e.Answered cfg s) {t : State}
    (hstep : step cfg s e = some t) : t.Inv cfg := by
  cases e with
  | transfer =>
      cases hstep
      exact hinv
  | lockUnlock h isLock offset size flock granted =>
      cases hstep
      obtain ⟨rfl, hgranted⟩ := ha
      rcases lockUnlock_outcome cfg s h isLock offset size granted with
        ⟨-, hlocks, hheld⟩ | ⟨-, hyes, hlocks, hheld⟩
      · obtain ⟨h1, h2, h3⟩ := hinv
        constructor
        · rwa [hlocks, hheld]
        · rwa [hlocks]
        · rwa [hlocks]
      · exact hinv.update (hgranted.mp hyes) hlocks hheld

theorem not_conflict (h h' : Nat) (hno : ¬Conflict (cfg.kindOf h) (cfg.kindOf h')) :
    cfg.isWritable h = false ∧ cfg.isWritable h' = false := by
  unfold Conflict Config.kindOf at hno
  cases hw : cfg.isWritable h with
  | true => exact absurd (Or.inl (if_pos hw)) hno
  | false =>
      cases hw' : cfg.isWritable h' with
      | true => exact absurd (Or.inr (if_pos hw')) hno
      | false => exact ⟨rfl, rfl⟩

/-- A request to lock keeps its contract. -/
theorem lockUnlock_kept (hinv : s.Inv cfg) {h : Nat} {isLock : Bool} {offset size : BitVec 32}
    {flock granted : Bool} (ha : (Event.lockUnlock h isLock offset size flock granted).Answered cfg s) :
    Contract cfg s (.lockUnlock h isLock offset size flock granted) := by
  obtain ⟨rfl, hgranted⟩ := ha
  rintro rfl
  constructor
  · rintro h' hne ⟨b, hb, hrange⟩ hok
    rcases lockUnlock_outcome cfg s h true offset size granted with ⟨hno, -⟩ | ⟨-, hyes, -⟩
    · exact absurd hok hno
    · exact not_conflict h h' (hgranted.mp hyes rfl h' hne b hrange _ ((hinv.held h' b).mp hb))
  · intro hapart hlimit hsize
    have hyes : granted = true := by
      refine hgranted.mpr fun _ h' hne b hrange k hk => ?_
      obtain rfl := hinv.kind h' b k hk
      exact absurd ⟨b, (hinv.held h' b).mpr hk, hrange⟩ (hapart h' hne)
    have hret := (@lockFileRegion_locks cfg s h true (foldOffset offset).toNat
      (maskSize size).toNat granted).1
    unfold lockUnlock
    rw [if_neg (by omega), if_neg (by omega)]
    dsimp only
    rw [hret, hyes]
    rfl

/-- A region that the test takes for fully owned is locked. -/
theorem owned_locked {own : Option Rec} {m : Locks} {seek cnt : Nat} {wr : Bool}
    (howned : regionIsFullyOwned own seek cnt wr = true)
    (hrep : ∀ fl, own = some fl → Reported m fl seek cnt) :
    ∃ k, (wr = true → k = .wr) ∧ ∀ b, seek ≤ b → b < seek + cnt → m b = some k := by
  unfold regionIsFullyOwned at howned
  cases own with
  | none => cases howned
  | some fl =>
      dsimp only at howned
      split at howned
      · cases howned
      · next hkind =>
          split at howned
          · cases howned
          · next hstart =>
              split at howned
              · cases howned
              · refine ⟨fl.kind, fun hwr => ?_, fun b hlo hhi => ?_⟩
                · cases hfl : fl.kind with
                  | wr => rfl
                  | rd => exact absurd ⟨hwr, hfl⟩ hkind
                · exact (hrep fl rfl).locked b ⟨by omega, by omega⟩

/-- What a transfer that does not own its region moves. -/
theorem transfer_unowned {own other : Option Rec} {seek cnt : Nat} {wr : Bool} (hcnt : cnt ≠ 0)
    (howned : regionIsFullyOwned own seek cnt wr = false) (hbound : seek + cnt ≤ 0xFFFFFFFF) :
    transfer wr seek cnt own other true true =
      match other with
      | none => .ok cnt
      | some fl => if seek < fl.start then .ok (fl.start - seek) else .error .accessDenied := by
  have hprobe : (!regionIsFullyOwned own seek cnt wr) = true ∧ seek ≤ 0xFFFFFFFF ∧
      seek + cnt ≤ 0xFFFFFFFF := by
    rw [howned]
    exact ⟨rfl, by omega, hbound⟩
  unfold transfer
  rw [if_neg hcnt, if_pos hprobe]
  cases other with
  | none =>
      have hoffs : regionLockOffs true true none seek cnt = cnt := rfl
      dsimp only
      rw [hoffs, if_neg (by omega), if_neg (by omega), Int.toNat_natCast]
  | some fl =>
      dsimp only
      by_cases hlt : seek < fl.start
      · have hoffs : regionLockOffs true true (some fl) seek cnt = (fl.start - seek : Nat) :=
          if_pos hlt
        rw [hoffs, if_pos hlt, if_neg (by omega), if_neg (by omega), Int.toNat_natCast]
      · have hoffs : regionLockOffs true true (some fl) seek cnt = 0 := if_neg hlt
        rw [hoffs, if_neg hlt, if_pos rfl]

/-- A read or a write keeps its contract where the reported lock is the first one
and the mirror is right. -/
theorem transfer_kept (hinv : s.Inv cfg) {h : Nat} {wr : Bool} {seek cnt : Nat}
    {own other : Option Rec} {flock unlock : Bool}
    (ha : (Event.transfer h wr seek cnt own other flock unlock).Answered cfg s)
    (hc : Careful cfg s (.transfer h wr seek cnt own other flock unlock)) :
    Contract cfg s (.transfer h wr seek cnt own other flock unlock) := by
  obtain ⟨rfl, rfl, hown, hother⟩ := ha
  obtain ⟨hbound, hfirst, hmirror⟩ := hc
  intro n hn b hlo hhi h' hne hb
  have hlocked := (hinv.held h' b).mp hb
  by_cases hcnt : cnt = 0
  · unfold transfer at hn
    rw [if_pos hcnt] at hn
    obtain rfl := Except.ok.inj hn
    omega
  cases howned : regionIsFullyOwned own seek cnt wr with
  | true =>
      have hn' : n = cnt := by
        unfold transfer at hn
        rw [if_neg hcnt, howned] at hn
        simp [hcnt] at hn
        omega
      subst hn'
      obtain ⟨k, hkind, hrange⟩ := owned_locked (m := ownLocks cfg s h wr) howned
        fun fl hfl => by rw [hfl] at hown; exact hown
      -- the mirror tells what the handle itself has locked
      have hmine (b' : Nat) (hlo' : seek ≤ b') (hhi' : b' < seek + n) :
          s.locks h b' = some k := by
        have hk := hrange b' hlo' hhi'
        unfold ownLocks at hk
        split at hk
        · exact hk
        · next hno =>
            dsimp only at hk
            split at hk
            · cases hk
            · rwa [hmirror (Bool.eq_false_of_not_eq_true hno) b' ⟨hlo', Or.inr hhi'⟩] at hk
      have hk := hinv.kind h b k (hmine b hlo hhi)
      have hno := hinv.apart h h' b k _ hne.symm (hmine b hlo hhi) hlocked
      rw [hk] at hno
      obtain ⟨hmy, hyours⟩ := not_conflict h h' hno
      refine ⟨?_, hyours, hmy, fun b' hlo' hhi' => ?_⟩
      · cases wr with
        | false => rfl
        | true => exact absurd (Or.inl (hk ▸ hkind rfl)) hno
      · rw [hinv.held, ← hk]
        exact hmine b' hlo' hhi'
  | false =>
      exfalso
      have hnone : ¬s.locks h' b = none := by
        rw [hlocked]
        exact Option.some_ne_none _
      rw [transfer_unowned hcnt howned hbound] at hn
      cases other with
      | none =>
          obtain rfl := Except.ok.inj hn
          exact hnone (hother h' hne b ⟨hlo, Or.inr hhi⟩)
      | some fl =>
          obtain ⟨g, -, hrep⟩ := hother
          obtain ⟨b₀, ⟨hfl, -⟩, -, hin⟩ := hrep.meets
          dsimp only at hn
          split at hn
          · obtain rfl := Except.ok.inj hn
            exact hnone (hfirst fl rfl h' hne b ⟨hlo, Or.inr (by omega)⟩ (by omega))
          · cases hn

/-- In a run, every request keeps its contract: regions of other handles are neither read nor
written, nor locked again unless both handles can only read, and those that are apart can be
locked. -/
theorem locks_kept (cfg : Config) (es : List Event)
    (h : Run.Admits (step cfg) (fun s e => e.Answered cfg s ∧ Careful cfg s e) fresh es) :
    Run.Admits (step cfg) (Contract cfg) fresh es := by
  refine Run.admits_imp (State.Inv cfg) (fun s e t hinv hok hstep => ?_) (fun s e hinv hok => ?_)
    (fresh_inv cfg) h
  · exact step_inv hinv hok.1 hstep
  · cases e with
    | lockUnlock => exact lockUnlock_kept hinv hok.1
    | transfer => exact transfer_kept hinv hok.1 hok.2

/-- One handle can write and the other cannot, on a kernel that tells one's own locks. -/
def oneWriter : Config where
  isWritable := fun h => h == 0
  fileLockLimit := 0
  funlck := true

/-- The writer locks ten bytes, and the reader gets those in front of them. -/
theorem locks_kept_partial :
    let es : List Event := [.lockUnlock 0 true 10#32 10#32 true true,
      .transfer 1 false 5 10 none (some ⟨.wr, 10, 10⟩) true true]
    Run.Admits (step oneWriter) (Contract oneWriter) fresh es := by
  refine locks_kept oneWriter _ ⟨⟨⟨rfl, ?_⟩, trivial⟩, ?_⟩
  · exact iff_of_true rfl fun _ h' _ b _ k hk => by cases hk
  · intro t ht
    obtain rfl := Option.some.inj ht
    refine ⟨⟨⟨rfl, rfl, fun b _ => rfl, 0, by decide, ?_⟩, ?_⟩, fun _ _ => trivial⟩
    · refine ⟨fun b hb => ?_, 10, by decide, by decide⟩
      change setRange _ 10 10 _ b = _
      rw [setRange_apply, if_pos hb]
      rfl
    · refine ⟨by decide, ?_, fun hno => by cases hno⟩
      intro fl hfl h' hne b _ hlt
      obtain rfl := Option.some.inj hfl
      by_cases hzero : h' = 0
      · subst hzero
        change setRange _ 10 10 _ b = none
        rw [setRange_apply, if_neg]
        · rfl
        · exact fun hin => absurd hin.1 (Nat.not_le.mpr hlt)
      · change Function.update (fun _ => (fun _ => none : Locks)) 0 _ h' b = none
        rw [Function.update_of_ne hzero]

/-! ## The coordinates of DOS -/

/-- The contract with every region as DOS names it: a locked region is nobody else's to read, to
write or to lock, and a region that is apart can be locked. -/
def DosContract (cfg : Config) (s : State) : Event → Prop
  | .lockUnlock h isLock offset size flock granted =>
      let ok := (lockUnlock cfg s h isLock offset size flock granted).1 = .ok ()
      let overlaps (h' : Nat) : Prop :=
        ∃ b ∈ s.dosHeld h', offset.toNat ≤ b ∧ b < offset.toNat + size.toNat
      isLock = true → (∀ h', h' ≠ h → overlaps h' → ¬ok) ∧
        ((∀ h', h' ≠ h → ¬overlaps h') → ok)
  | .transfer h wr seek cnt own other flock unlock =>
      seek + cnt ≤ 0xFFFFFFFF → ∀ n, transfer wr seek cnt own other flock unlock = .ok n →
        ∀ b, seek ≤ b → b < seek + n → ∀ h', h' ≠ h → b ∉ s.dosHeld h'

/-- Two handles that can only read lock the same region. -/
theorem readers_share :
    ¬∀ (cfg : Config) (es : List Event),
      Run.Admits (step cfg) (fun s e => e.Answered cfg s) fresh es →
      Run.Admits (step cfg) (DosContract cfg) fresh es := by
  intro hall
  have hkept := hall ⟨fun _ => false, 0, true⟩
    [.lockUnlock 0 true 10#32 10#32 true true, .lockUnlock 1 true 10#32 10#32 true true] ?_
  · obtain ⟨-, hrest⟩ := hkept
    have hsecond := ((hrest _ rfl).1 rfl).1 0 (by decide)
    refine hsecond ⟨10, ?_, by decide⟩ rfl
    change (10 : Nat) ∈ Function.update (fun _ => (∅ : Set Nat)) 0 _ 0
    rw [Function.update_self]
    exact rfl
  · refine ⟨⟨rfl, iff_of_true rfl fun _ h' _ b _ k hk => by cases hk⟩, ?_⟩
    intro t ht
    obtain rfl := Option.some.inj ht
    refine ⟨⟨rfl, iff_of_true rfl fun _ h' hne b hb k hk => ?_⟩, fun _ _ => trivial⟩
    have hkind : k = .rd := by
      change Function.update (fun _ => (fun _ => none : Locks)) 0
        (setRange (fun _ => none) 10 10 (some .rd)) h' b = some k at hk
      by_cases hzero : h' = 0
      · subst hzero
        rw [Function.update_self, setRange_apply] at hk
        split at hk
        · exact (Option.some.inj hk).symm
        · cases hk
      · rw [Function.update_of_ne hzero] at hk
        cases hk
    rw [hkind]
    exact nofun

end RegionLocks
end Mfs
end Dosemu
