import Dosemu.Lib.Run

/-!
# DOS share modes

`mfs_open`, `mfs_creat` and `mfs_close` of `share.c` on one file.  What the open handles of
all processes may do is recorded in six shared locks whose names are derived from the
file name, each a counter of the handles that hold it.  A call runs under the exclusive
lock of the file, so it is one step.

An open that does not get its locks may still be admitted for reading; such a handle holds
none of the six locks.

Main results:

- Theorem `State.next_inv`: a call keeps the share modes enforced, unless it cannot see a
  handle without locks.
- Theorem `share_modes_enforced`: so does every run in which no call denies reading beside
  a handle without locks, or asks to write beside one that denies writing.
-/

namespace Dosemu
namespace Mfs

/-! ## Handles -/

/-- The lock names of `prepare_shemu_name`. -/
inductive Lk
  | compat
  | noncompat
  | denyR
  | denyW
  | R
  | W
deriving DecidableEq

/-- The access modes of the open flags. -/
inductive OpenMode
  | rdonly
  | wronly
  | rdwr
deriving DecidableEq

/-- `open_mode != O_WRONLY` -/
def OpenMode.reads (mode : OpenMode) : Bool :=
  mode ≠ .wronly

/-- `open_mode == O_WRONLY || open_mode == O_RDWR` -/
def OpenMode.writes (mode : OpenMode) : Bool :=
  mode = .wronly ∨ mode = .rdwr

/-- `share_mode == DENY_READ || share_mode == DENY_ALL` -/
def denyR (shareMode : Nat) : Bool :=
  shareMode = 3 ∨ shareMode = 1

/-- `share_mode == DENY_WRITE || share_mode == DENY_ALL` -/
def denyW (shareMode : Nat) : Bool :=
  shareMode = 2 ∨ shareMode = 1

/-- An open `struct file_fd`: its flags, its share mode and `shemu_locks`. -/
structure Handle where
  flags : OpenMode
  shareMode : Nat
  locks : List Lk
deriving DecidableEq

/-- The lock counters of the file and its handles, in all processes. -/
structure Shares where
  cnt : Lk → Nat
  handles : List Handle

/-- The calls; the booleans say whether the system calls in them succeed. -/
inductive ShareCall
  | mfsOpen (flags : OpenMode) (shareMode : Nat) (async fd : Bool)
  | mfsCreat (fd : Bool)
  | mfsClose (i : Nat)

namespace Shares

/-- The file is not open. -/
def init : Shares :=
  ⟨fun _ => 0, []⟩

/-- `is_locked` -/
def isLocked (s : Shares) (id : Lk) : Bool :=
  s.cnt id ≠ 0

/-- The locks `open_compat` takes. -/
def compatLocks (openMode : OpenMode) : List Lk :=
  [.compat] ++ (if openMode.reads then [.R] else []) ++ if openMode.writes then [.W] else []

/-- The locks `open_share` takes. -/
def shareLocks (openMode : OpenMode) (shareMode : Nat) : List Lk :=
  [.noncompat] ++ (if openMode.reads then [.R] else []) ++
    (if openMode.writes then [.W] else []) ++ (if denyR shareMode then [.denyR] else []) ++
    if denyW shareMode then [.denyW] else []

/-- `open_compat` -/
def openCompat (s : Shares) (openMode : OpenMode) : Option (List Lk) :=
  if s.isLocked .noncompat then none else some (compatLocks openMode)

/-- `open_share` -/
def openShare (s : Shares) (openMode : OpenMode) (shareMode : Nat) : Option (List Lk) :=
  if s.isLocked .compat then none
  else if openMode.reads && s.isLocked .denyR then none
  else if openMode.writes && s.isLocked .denyW then none
  else if denyR shareMode && s.isLocked .R then none
  else if denyW shareMode && s.isLocked .W then none
  else some (shareLocks openMode shareMode)

/-- The exceptions of `do_mfs_open` for an open that did not get its locks. -/
def exception (s : Shares) (flags : OpenMode) (shareMode : Nat) : Bool :=
  if shareMode = 0 then !flags.writes && !s.isLocked .denyR && !s.isLocked .W
  else !flags.writes && !denyR shareMode && s.isLocked .compat && !s.isLocked .W

/-- The sharing decision of `do_mfs_open`: the locks of the new handle. -/
def permit (s : Shares) (flags : OpenMode) (shareMode : Nat) : Option (List Lk) :=
  match if shareMode = 0 then s.openCompat flags else s.openShare flags shareMode with
  | some locks => some locks
  | none => if s.exception flags shareMode then some [] else none

/-- A new handle with its locks. -/
def add (s : Shares) (h : Handle) : Shares where
  cnt := fun id => s.cnt id + h.locks.count id
  handles := s.handles ++ [h]

/-- `mfs_close` of the handle `i`. -/
def close (s : Shares) (i : Nat) : Shares :=
  match s.handles[i]? with
  | none => s
  | some h => ⟨fun id => s.cnt id - h.locks.count id, s.handles.eraseIdx i⟩

/-- One call.  A call that fails gives back the locks it took. -/
def next (s : Shares) : ShareCall → Shares
  | .mfsOpen flags shareMode async fd =>
      if !async then s
      else
        match s.permit flags shareMode with
        | none => s
        | some locks => if fd then s.add ⟨flags, shareMode, locks⟩ else s
  | .mfsCreat fd =>
      match s.openCompat .rdwr with
      | none => s
      | some locks => if fd then s.add ⟨.rdwr, 0, locks⟩ else s
  | .mfsClose i => s.close i

/-! ## The contract -/

/-- What one handle denies, the other does not have. -/
def Handle.Tolerates (h h' : Handle) : Prop :=
  (denyR h.shareMode = true → h'.flags.reads = false) ∧
    (denyW h.shareMode = true → h'.flags.writes = false)

/-- Any two open handles tolerate each other. -/
def Enforced (s : Shares) : Prop :=
  s.handles.Pairwise fun h h' => Handle.Tolerates h h' ∧ Handle.Tolerates h' h

/-- A request for these flags and this share mode does not deny reading beside a handle without
locks, and does not ask to write beside one that denies writing. -/
def Sees (s : Shares) (flags : OpenMode) (shareMode : Nat) : Prop :=
  ∀ h ∈ s.handles, h.locks = [] →
    denyR shareMode = false ∧ (flags.writes = true → denyW h.shareMode = false)

/-- The condition on a call. -/
def CallSees (s : Shares) : ShareCall → Prop
  | .mfsOpen flags shareMode _ _ => s.Sees flags shareMode
  | .mfsCreat _ => s.Sees .rdwr 0
  | .mfsClose _ => True

/-! ## The invariant -/

/-- A handle has all the locks of its modes, or none because it was admitted for reading
only. -/
inductive Locked : Handle → Prop
  | exempt {flags shareMode} : flags.writes = false → denyR shareMode = false →
      Locked ⟨flags, shareMode, []⟩
  | compat {flags} : Locked ⟨flags, 0, compatLocks flags⟩
  | share {flags shareMode} : shareMode ≠ 0 → Locked ⟨flags, shareMode, shareLocks flags shareMode⟩

/-- The counters count, and locked handles of the two kinds do not occur together. -/
structure Inv (s : Shares) : Prop where
  cnt : ∀ id, s.cnt id = (s.handles.map fun h => h.locks.count id).sum
  locked : ∀ h ∈ s.handles, Locked h
  apart : ∀ h ∈ s.handles, ∀ h' ∈ s.handles, .compat ∈ h.locks → .noncompat ∉ h'.locks
  enforced : s.Enforced

theorem inv_init : init.Inv where
  cnt := fun _ => rfl
  locked := fun _ h => nomatch h
  apart := fun _ h => nomatch h
  enforced := .nil

variable {s : Shares} {h h' : Handle}

theorem Locked.writes (hl : Locked h) (hw : h.flags.writes = true) : .W ∈ h.locks := by
  cases hl with
  | exempt hno _ => simp_all
  | compat => simp_all [compatLocks]
  | share _ => simp_all [shareLocks]

theorem Locked.denyR (hl : Locked h) (hd : Mfs.denyR h.shareMode = true) : .denyR ∈ h.locks := by
  cases hl with
  | exempt _ hno => simp_all
  | compat => simp [Mfs.denyR] at hd
  | share _ => simp_all [shareLocks]

theorem Locked.reads (hl : Locked h) (hne : h.locks ≠ []) (hr : h.flags.reads = true) :
    .R ∈ h.locks := by
  cases hl with
  | exempt _ _ => exact absurd rfl hne
  | compat => simp_all [compatLocks]
  | share _ => simp_all [shareLocks]

theorem Locked.denyW (hl : Locked h) (hne : h.locks ≠ []) (hd : Mfs.denyW h.shareMode = true) :
    .denyW ∈ h.locks ∧ .noncompat ∈ h.locks := by
  cases hl with
  | exempt _ _ => exact absurd rfl hne
  | compat => simp [Mfs.denyW] at hd
  | share _ => simp_all [shareLocks]

theorem Locked.noncompat (hl : Locked h) (hd : Mfs.denyR h.shareMode = true) :
    .noncompat ∈ h.locks := by
  cases hl with
  | exempt _ hno => simp_all
  | compat => simp [Mfs.denyR] at hd
  | share _ => simp_all [shareLocks]

/-- A name is locked while some handle holds its lock. -/
theorem Inv.isLocked_iff (hs : s.Inv) {id : Lk} :
    s.isLocked id = true ↔ ∃ h ∈ s.handles, id ∈ h.locks := by
  simp only [isLocked, hs.cnt, decide_eq_true_eq, ne_eq, List.sum_eq_zero_iff, List.mem_map,
    forall_exists_index, and_imp, forall_apply_eq_imp_iff₂, not_forall, List.count_eq_zero,
    not_not, exists_prop]

theorem Inv.not_locked (hs : s.Inv) {id : Lk} (hno : s.isLocked id = false) (hh : h ∈ s.handles) :
    id ∉ h.locks := by
  intro hmem
  have hyes := hs.isLocked_iff.mpr ⟨h, hh, hmem⟩
  rw [hno] at hyes
  cases hyes

/-- A new handle that fits in with an old one. -/
structure FitsIn (c h : Handle) : Prop where
  old : Handle.Tolerates h c
  new : Handle.Tolerates c h
  apart : .compat ∈ h.locks → .noncompat ∉ c.locks
  apart' : .compat ∈ c.locks → .noncompat ∉ h.locks

variable {flags : OpenMode} {shareMode : Nat} {locks : List Lk}

/-- `open_compat` has seen every handle that denies something and has locks. -/
theorem openCompat_fitsIn (hs : s.Inv) (hsees : s.Sees flags 0)
    (hopen : s.openCompat flags = some locks) (hh : h ∈ s.handles) :
    FitsIn ⟨flags, 0, locks⟩ h := by
  rw [openCompat] at hopen
  split at hopen
  · cases hopen
  next hfree =>
  cases hopen
  have hl := hs.locked h hh
  have hnon := hs.not_locked (Bool.eq_false_of_not_eq_true hfree) hh
  refine ⟨⟨fun hd => absurd (hl.noncompat hd) hnon, fun hd => ?_⟩, ⟨nofun, nofun⟩, ?_, fun _ => hnon⟩
  · by_cases hnone : h.locks = []
    · by_contra hw
      have hno := (hsees h hh hnone).2 (Bool.eq_true_of_not_eq_false hw)
      rw [hd] at hno
      cases hno
    · exact absurd (hl.denyW hnone hd).2 hnon
  · simp [compatLocks]

/-- `open_share` has compared the request with every handle that has locks. -/
theorem openShare_fitsIn (hs : s.Inv) (hsees : s.Sees flags shareMode)
    (hopen : s.openShare flags shareMode = some locks) (hh : h ∈ s.handles) :
    FitsIn ⟨flags, shareMode, locks⟩ h := by
  have hl := hs.locked h hh
  rw [openShare] at hopen
  split at hopen
  · cases hopen
  next hcompat =>
  split at hopen
  · cases hopen
  next hread =>
  split at hopen
  · cases hopen
  next hwrite =>
  split at hopen
  · cases hopen
  next hdenyR =>
  split at hopen
  · cases hopen
  next hdenyW =>
  cases hopen
  have hseen {id : Lk} (hmem : id ∈ h.locks) : s.isLocked id = true :=
    hs.isLocked_iff.mpr ⟨h, hh, hmem⟩
  have hnocompat := hs.not_locked (Bool.eq_false_of_not_eq_true hcompat) hh
  refine ⟨⟨?_, ?_⟩, ⟨?_, ?_⟩, fun hc => absurd hc hnocompat, ?_⟩
  · intro hd
    simpa [hseen (hl.denyR hd)] using hread
  · intro hd
    by_cases hnone : h.locks = []
    · by_contra hw
      have hno := (hsees h hh hnone).2 (Bool.eq_true_of_not_eq_false hw)
      rw [hd] at hno
      cases hno
    · simpa [hseen (hl.denyW hnone hd).1] using hwrite
  · intro hd
    by_contra hr
    by_cases hnone : h.locks = []
    · have hno := (hsees h hh hnone).1
      rw [show denyR shareMode = true from hd] at hno
      cases hno
    · exact hdenyR (by
        rw [show denyR shareMode = true from hd,
          hseen (hl.reads hnone (Bool.eq_true_of_not_eq_false hr))]
        rfl)
  · intro hd
    by_contra hw
    exact hdenyW (by
      rw [show denyW shareMode = true from hd, hseen (hl.writes (Bool.eq_true_of_not_eq_false hw))]
      rfl)
  · simp [shareLocks]

/-- An exception is made only for reading, and where nobody writes or denies reading. -/
theorem exception_fitsIn (hs : s.Inv) (hexc : s.exception flags shareMode = true)
    (hh : h ∈ s.handles) : FitsIn ⟨flags, shareMode, []⟩ h ∧
      Locked ⟨flags, shareMode, []⟩ := by
  have hl := hs.locked h hh
  rw [exception] at hexc
  split at hexc
  · next hzero =>
      subst hzero
      simp only [Bool.and_eq_true, Bool.not_eq_true'] at hexc
      obtain ⟨⟨hw, hR⟩, hW⟩ := hexc
      refine ⟨⟨⟨fun hd => absurd (hl.denyR hd) (hs.not_locked hR hh), fun _ => hw⟩, ⟨nofun, nofun⟩,
        nofun, nofun⟩, .exempt hw rfl⟩
  · simp only [Bool.and_eq_true, Bool.not_eq_true'] at hexc
    obtain ⟨⟨⟨hw, hd⟩, hcompat⟩, hW⟩ := hexc
    obtain ⟨h₀, hh₀, hmem⟩ := hs.isLocked_iff.mp hcompat
    refine ⟨⟨⟨fun hdeny => ?_, fun _ => hw⟩, ⟨fun hdeny => ?_, fun hdeny => ?_⟩, nofun, nofun⟩,
      .exempt hw hd⟩
    · exact absurd (hl.noncompat hdeny) (hs.apart h₀ hh₀ h hh hmem)
    · rw [show denyR shareMode = true from hdeny] at hd
      cases hd
    · by_contra hno
      exact hs.not_locked hW hh (hl.writes (Bool.eq_true_of_not_eq_false hno))

/-- What is admitted has its locks or is exempt, and fits in with every handle. -/
theorem permit_spec (hs : s.Inv) (hsees : s.Sees flags shareMode)
    (hpermit : s.permit flags shareMode = some locks) :
    Locked ⟨flags, shareMode, locks⟩ ∧ ∀ h ∈ s.handles, FitsIn ⟨flags, shareMode, locks⟩ h := by
  rw [permit] at hpermit
  cases hopen : if shareMode = 0 then s.openCompat flags else s.openShare flags shareMode with
  | none =>
      rw [hopen] at hpermit
      dsimp only at hpermit
      split at hpermit
      · next hexc =>
          cases hpermit
          refine ⟨?_, fun h hh => (exception_fitsIn hs hexc hh).1⟩
          rw [exception] at hexc
          split at hexc <;> simp_all [Locked.exempt, Mfs.denyR]
      · cases hpermit
  | some locks' =>
      rw [hopen] at hpermit
      cases hpermit
      split at hopen
      · next hzero =>
          subst hzero
          refine ⟨?_, fun h hh => openCompat_fitsIn hs hsees hopen hh⟩
          rw [openCompat] at hopen
          split at hopen
          · cases hopen
          · cases hopen
            exact .compat
      · next hne =>
          refine ⟨?_, fun h hh => openShare_fitsIn hs hsees hopen hh⟩
          rw [openShare] at hopen
          repeat' split at hopen
          all_goals cases hopen
          exact .share hne

/-- A new handle that fits in with all others. -/
theorem Inv.add {c : Handle} (hs : s.Inv) (hl : Locked c) (hfits : ∀ h ∈ s.handles, FitsIn c h)
    (hself : .compat ∈ c.locks → .noncompat ∉ c.locks) : (s.add c).Inv where
  cnt := by
    intro id
    simp [Shares.add, hs.cnt]
  locked := by
    intro h hh
    rcases List.mem_append.mp hh with hh | hh
    · exact hs.locked h hh
    · rw [List.mem_singleton.mp hh]
      exact hl
  apart := by
    intro h hh h' hh'
    rcases List.mem_append.mp hh with hh | hh <;> rcases List.mem_append.mp hh' with hh' | hh'
    · exact hs.apart h hh h' hh'
    · rw [List.mem_singleton.mp hh']
      exact (hfits h hh).apart
    · rw [List.mem_singleton.mp hh]
      exact (hfits h' hh').apart'
    · rw [List.mem_singleton.mp hh, List.mem_singleton.mp hh']
      exact hself
  enforced := by
    refine List.pairwise_append.mpr ⟨hs.enforced, List.pairwise_singleton .., fun h hh c' hc' => ?_⟩
    rw [List.mem_singleton.mp hc']
    exact ⟨(hfits h hh).old, (hfits h hh).new⟩

theorem Locked.self (hl : Locked h) : .compat ∈ h.locks → .noncompat ∉ h.locks := by
  cases hl with
  | exempt _ _ => simp
  | compat => simp [compatLocks]
  | share _ => simp [shareLocks]

/-- A closed handle takes its locks with it. -/
theorem Inv.close (hs : s.Inv) (i : Nat) : (s.close i).Inv := by
  rw [Shares.close]
  cases hi : s.handles[i]? with
  | none => exact hs
  | some h =>
      obtain ⟨hlt, hget⟩ := List.getElem?_eq_some_iff.mp hi
      have hsub : ∀ h' ∈ s.handles.eraseIdx i, h' ∈ s.handles := fun h' hh' =>
        (List.eraseIdx_sublist s.handles i).subset hh'
      refine ⟨fun id => ?_, fun h' hh' => hs.locked h' (hsub h' hh'),
        fun a ha b hb => hs.apart a (hsub a ha) b (hsub b hb),
        hs.enforced.sublist (List.eraseIdx_sublist s.handles i)⟩
      have hsum : (s.handles.map fun h => h.locks.count id).sum =
          ((s.handles.eraseIdx i).map fun h => h.locks.count id).sum + h.locks.count id := by
        have hperm : s.handles.Perm (h :: s.handles.eraseIdx i) := by
          rw [← hget]
          exact (List.getElem_cons_eraseIdx_perm hlt).symm
        rw [(hperm.map _).sum_eq, List.map_cons, List.sum_cons, Nat.add_comm]
      change s.cnt id - h.locks.count id = _
      rw [hs.cnt, hsum, Nat.add_sub_cancel]

/-- A call that sees the handles without locks keeps the share modes enforced. -/
theorem next_inv {c : ShareCall} (hs : s.Inv) (hsees : s.CallSees c) : (s.next c).Inv := by
  cases c with
  | mfsOpen flags shareMode async fd =>
      rw [next]
      split
      · exact hs
      cases hpermit : s.permit flags shareMode with
      | none => exact hs
      | some locks =>
          obtain ⟨hl, hfits⟩ := permit_spec hs hsees hpermit
          dsimp only
          split
          · exact hs.add hl hfits hl.self
          · exact hs
  | mfsCreat fd =>
      rw [next]
      cases hopen : s.openCompat .rdwr with
      | none => exact hs
      | some locks =>
          have hpermit : s.permit .rdwr 0 = some locks := by
            rw [permit, if_pos rfl, hopen]
          obtain ⟨hl, hfits⟩ := permit_spec hs hsees hpermit
          dsimp only
          split
          · exact hs.add hl hfits hl.self
          · exact hs
  | mfsClose i => exact hs.close i

/-- On every run whose calls see the handles without locks, any two open handles tolerate
each other. -/
theorem share_modes_enforced {cs : List ShareCall} {t : Shares}
    (hok : Run.Admits (fun s c => some (next s c)) CallSees init cs)
    (hrun : Run.run (fun s c => some (next s c)) init cs = some t) : t.Enforced := by
  refine (Run.run_invariant CallSees Inv ?_ inv_init hok hrun).enforced
  intro s c t hs hsees h
  cases h
  exact next_inv hs hsees

instance (s : Shares) (flags : OpenMode) (shareMode : Nat) : Decidable (s.Sees flags shareMode) :=
  inferInstanceAs (Decidable (∀ h ∈ s.handles, h.locks = [] →
    denyR shareMode = false ∧ (flags.writes = true → denyW h.shareMode = false)))

instance (s : Shares) (c : ShareCall) : Decidable (s.CallSees c) :=
  match c with
  | .mfsOpen flags shareMode _ _ => inferInstanceAs (Decidable (s.Sees flags shareMode))
  | .mfsCreat _ => inferInstanceAs (Decidable (s.Sees .rdwr 0))
  | .mfsClose _ => .isTrue trivial

/-- Handles of three processes, one of them admitted without locks. -/
theorem share_modes_enforced_with_exemption :
    ∃ t, Run.run (fun s c => some (next s c)) init [.mfsOpen .rdonly 4 true true,
        .mfsOpen .rdonly 0 true true, .mfsOpen .rdwr 2 true true, .mfsClose 0,
        .mfsOpen .rdwr 4 true true] = some t ∧ t.Enforced := by
  refine ⟨_, rfl, @share_modes_enforced [.mfsOpen .rdonly 4 true true,
    .mfsOpen .rdonly 0 true true, .mfsOpen .rdwr 2 true true, .mfsClose 0,
    .mfsOpen .rdwr 4 true true] _ ?_ rfl⟩
  decide +kernel

/-- A handle admitted without locks is not seen by a later open that denies reading. -/
theorem denyRead_beside_exempt_reader :
    ¬∀ (cs : List ShareCall) (t : Shares),
      Run.run (fun s c => some (next s c)) init cs = some t → t.Enforced := by
  intro hall
  have heval : ((Run.run (fun s c => some (next s c)) init [.mfsOpen .rdonly 4 true true,
      .mfsOpen .rdonly 0 true true, .mfsClose 0, .mfsOpen .rdonly 3 true true]).map Shares.handles) =
        some [⟨.rdonly, 0, []⟩, ⟨.rdonly, 3, shareLocks .rdonly 3⟩] := by
    decide +kernel
  obtain ⟨t, hrun, ht⟩ := Option.map_eq_some_iff.mp heval
  have henforced := hall _ t hrun
  rw [Enforced, ht, List.pairwise_pair] at henforced
  exact absurd (henforced.2.1 rfl) (by decide)

end Shares

end Mfs
end Dosemu
