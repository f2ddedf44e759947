import Dosemu.Mfs.RegionLocks

/-!
# File positions behind the fields of DOS

The file table of DOS has 32 bits for a position and for a size.  The redirector
keeps the full values beside it and stores saturated ones; before each transfer
it takes the position from DOS unless the field is saturated, since DOS also
seeks by a store of its own.

The kernel is an input: a request carries the answers it gets.  The file is not
changed by others.

Main results:

- Theorem `Matches.step`: one request takes the file and the reference to
  matching states, and transfers at the position of the reference.
- Theorem `positions_track`: the same over every sequence of requests.
- Theorem `reads_adjacent`: a read goes on where the read before it ended.
-/

namespace Dosemu
namespace Mfs
namespace Positions

open RegionLocks

/-- The open file: its size on the host, `seek` and `size` of `struct file_fd`, and the two
fields of the SFT. -/
structure State where
  hostSize : Nat
  seek : BitVec 64
  size : BitVec 64
  sftPosition : BitVec 32
  sftSize : BitVec 32

/-- `set_32bit_size_or_position` -/
def set32bit (fullvalue : BitVec 64) : BitVec 32 :=
  if fullvalue.toNat < 0x100000000 then fullvalue.setWidth 32 else 0xFFFFFFFF#32

/-- `update_seek_from_dos` -/
def updateSeekFromDos (seekFromDos : BitVec 32) (seek : BitVec 64) : BitVec 64 :=
  if seekFromDos ≠ 0xFFFFFFFF#32 then seekFromDos.setWidth 64 else seek

/-- The answers to the lock queries of a transfer. -/
structure LockAnswers where
  own : Option Rec
  other : Option Rec
  flock : Bool
  unlock : Bool

/-- The answers a read gets. -/
structure ReadAnswers extends LockAnswers where
  lseek : Bool
  read : Option Nat
  fstat : Bool

/-- The answers a write gets; one that does not fail writes at least one byte. -/
structure WriteAnswers extends LockAnswers where
  lseek : Bool
  write : Option ℕ+
  ftruncate : Bool

/-- A request of the client, or a store of DOS into the position of the SFT. -/
inductive Request where
  | read (cnt : BitVec 16) (a : ReadAnswers)
  | write (cnt : BitVec 16) (a : WriteAnswers)
  | seekFromEof (cx dx : BitVec 16) (fstat : Bool)
  | longSeek (cl : BitVec 8) (seek : BitVec 64) (fstat : Bool)
  | store (position : Fin 0xFFFFFFFF)

/-- The position a transfer uses, and the number of bytes it moves. -/
abbrev Moved := BitVec 64 × Nat

/-- The kernel takes an `off_t`, and no negative one. -/
def seekable (lseek : Bool) (pos : BitVec 64) : Bool :=
  lseek && decide (pos.toNat < 2 ^ 63)

/-- Store a position, and what DOS sees of it. -/
def State.setSeek (s : State) (seek : BitVec 64) : State :=
  { s with seek := seek, sftPosition := set32bit seek }

/-- Store a size, and what DOS sees of it. -/
def State.setSize (s : State) (size : BitVec 64) : State :=
  { s with size := size, sftSize := set32bit size }

/-- The position after `ret` bytes. -/
def State.advance (s : State) (ret : Nat) : State :=
  s.setSeek (s.seek + BitVec.ofNat 64 ret)

/-- `READ_FILE` -/
def readFile (s : State) (cnt : BitVec 16) (a : ReadAnswers) : Option (Moved × State) := do
  let s := { s with seek := updateSeekFromDos s.sftPosition s.seek }
  match transfer false s.seek.toNat cnt.toNat a.own a.other a.flock a.unlock with
  | .error _ => return ((s.seek, 0), s)
  | .ok cnt1 =>
      cAssert (cnt1 ≤ cnt.toNat)
      if !seekable a.lseek s.seek then return ((s.seek, 0), s)
      else
        match a.read with
        | none => return ((s.seek, 0), s)
        | some bytes =>
            let ret := min bytes cnt1
            let moved := (s.seek, ret)
            let s := s.advance ret
            if s.sftSize.toNat < ret + moved.1.toNat then
              -- "someone else enlarged the file! refresh."
              cAssert (a.fstat = true)
              return (moved, s.setSize (BitVec.ofNat 64 s.hostSize))
            else return (moved, s)

/-- The end of a write: the file is at least as long as the position. -/
def State.wrote (s : State) (ret : Nat) : Moved × State :=
  let moved := (s.seek, ret)
  let s := { s with hostSize := max s.hostSize (s.seek.toNat + ret) }.advance ret
  if s.size.toNat < ret + moved.1.toNat then
    (moved, s.setSize (moved.1 + BitVec.ofNat 64 ret))
  else (moved, s)

/-- `WRITE_FILE`.  A write of no bytes cuts the file off. -/
def writeFile (s : State) (cnt : BitVec 16) (a : WriteAnswers) : Option (Moved × State) := do
  let s := { s with seek := updateSeekFromDos s.sftPosition s.seek }
  if cnt = 0 then
    if seekable a.ftruncate s.seek then
      return ((s.seek, 0), { s with hostSize := s.seek.toNat }.setSize s.seek)
    else return ((s.seek, 0), s)
  else
    match transfer true s.seek.toNat cnt.toNat a.own a.other a.flock a.unlock with
    | .error _ => return ((s.seek, 0), s)
    | .ok cnt1 =>
        cAssert (cnt1 ≤ cnt.toNat)
        if !seekable a.lseek s.seek then return ((s.seek, 0), s)
        else
          match a.write with
          | none => return ((s.seek, 0), s)
          | some bytes =>
              return s.wrote (min bytes.val cnt1)

/-- `SEEK_FROM_EOF` -/
def seekFromEof (s : State) (cx dx : BitVec 16) (fstat : Bool) : State :=
  let offset := (cx ++ dx).signExtend 64
  if fstat then
    (s.setSeek (offset + BitVec.ofNat 64 s.hostSize)).setSize (BitVec.ofNat 64 s.hostSize)
  else s

/-- `LONG_SEEK`, with `DOS_SEEK_SET`, `DOS_SEEK_CUR` and `DOS_SEEK_EOF` in CL. -/
def longSeek (s : State) (cl : BitVec 8) (seek : BitVec 64) (fstat : Bool) : State :=
  if cl = 0 then s.setSeek seek
  else if cl = 1 then s.setSeek (updateSeekFromDos s.sftPosition s.seek + seek)
  else if cl = 2 then
    if fstat then
      let s := s.setSize (BitVec.ofNat 64 s.hostSize)
      s.setSeek (s.size + seek)
    else s
  else s

/-- A request, with what it moves if it is a transfer. -/
def step (s : State) : Request → Option (Option Moved × State)
  | .read cnt a => (readFile s cnt a).map fun r => (some r.1, r.2)
  | .write cnt a => (writeFile s cnt a).map fun r => (some r.1, r.2)
  | .seekFromEof cx dx fstat => some (none, seekFromEof s cx dx fstat)
  | .longSeek cl seek fstat => some (none, longSeek s cl seek fstat)
  | .store position => some (none, { s with sftPosition := BitVec.ofNat 32 position })

/-- A file that has just been opened. -/
def opened (size : Nat) : State where
  hostSize := size
  seek := 0
  size := BitVec.ofNat 64 size
  sftPosition := 0
  sftSize := set32bit (BitVec.ofNat 64 size)

/-! ## The reference -/

/-- A file with one position of 64 bits. -/
structure Ref where
  pos : BitVec 64
  size : Nat

/-- The reference after a request that moves `n` bytes. -/
def Ref.next (r : Ref) (n : Nat) : Request → Ref
  | .read _ _ => { r with pos := r.pos + BitVec.ofNat 64 n }
  | .write cnt a =>
      if cnt = 0 then
        if seekable a.ftruncate r.pos then { r with size := r.pos.toNat } else r
      else
        { pos := r.pos + BitVec.ofNat 64 n
          size := if n = 0 then r.size else max r.size (r.pos.toNat + n) }
  | .seekFromEof cx dx fstat =>
      if fstat then { r with pos := BitVec.ofNat 64 r.size + (cx ++ dx).signExtend 64 } else r
  | .longSeek cl seek fstat =>
      if cl = 0 then { r with pos := seek }
      else if cl = 1 then { r with pos := r.pos + seek }
      else if cl = 2 ∧ fstat then { r with pos := BitVec.ofNat 64 r.size + seek }
      else r
  | .store position => { r with pos := BitVec.ofNat 64 position }

/-- The fields of the SFT show the position and the size, as far as they can. -/
def Shows (s : State) (r : Ref) : Prop :=
  s.sftPosition.toNat = min r.pos.toNat 0xFFFFFFFF ∧ s.sftSize.toNat = min r.size 0xFFFFFFFF

/-- Each request of a run that returns transfers at the position of the reference and leaves
fields that show the reference. -/
def Tracks : State → Ref → List Request → Prop
  | _, _, [] => True
  | s, r, q :: qs => ∀ moved t, step s q = some (moved, t) →
      (∀ m ∈ moved, m.1 = r.pos) ∧
        Shows t (r.next (moved.elim 0 Prod.snd) q) ∧ Tracks t (r.next (moved.elim 0 Prod.snd) q) qs

/-! ## Saturation -/

theorem set32bit_toNat (v : BitVec 64) : (set32bit v).toNat = min v.toNat 0xFFFFFFFF := by
  unfold set32bit
  split
  · next hlt =>
      rw [BitVec.toNat_setWidth, Nat.mod_eq_of_lt hlt]
      omega
  · next hge =>
      have hsat : (0xFFFFFFFF#32).toNat = 0xFFFFFFFF := rfl
      rw [hsat]
      omega

/-- A position and its saturated copy are in step. -/
theorem updateSeekFromDos_set32bit (v : BitVec 64) :
    updateSeekFromDos (set32bit v) v = v := by
  unfold updateSeekFromDos
  split
  · next hne =>
      have hlt : v.toNat < 0x100000000 := by
        by_contra hge
        exact hne (if_neg hge)
      apply BitVec.eq_of_toNat_eq
      rw [set32bit, if_pos hlt, BitVec.toNat_setWidth, BitVec.toNat_setWidth]
      omega
  · rfl

/-- A store of DOS replaces the position. -/
theorem updateSeekFromDos_store (p : Fin 0xFFFFFFFF) (seek : BitVec 64) :
    updateSeekFromDos (BitVec.ofNat 32 p) seek = BitVec.ofNat 64 p := by
  have hp := p.isLt
  have hne : BitVec.ofNat 32 p.val ≠ 0xFFFFFFFF#32 := by
    intro heq
    have hnat := congrArg BitVec.toNat heq
    rw [BitVec.toNat_ofNat, BitVec.toNat_ofNat] at hnat
    omega
  rw [updateSeekFromDos, if_pos hne]
  apply BitVec.eq_of_toNat_eq
  rw [BitVec.toNat_setWidth, BitVec.toNat_ofNat, BitVec.toNat_ofNat]
  omega

/-! ## One request -/

variable {s t : State} {r : Ref}

/-- The file and the reference agree; the position is the one a transfer would use. -/
structure Matches (s : State) (r : Ref) : Prop where
  pos : updateSeekFromDos s.sftPosition s.seek = r.pos
  shows : Shows s r
  size : s.size.toNat = r.size
  host : s.hostSize = r.size

theorem Matches.size_eq (h : Matches s r) : BitVec.ofNat 64 r.size = s.size := by
  rw [← h.size, BitVec.ofNat_toNat, BitVec.setWidth_eq]

theorem Matches.host_eq (h : Matches s r) : BitVec.ofNat 64 s.hostSize = s.size := by
  rw [h.host, h.size_eq]

theorem Matches.setSeek (h : Matches s r) (v : BitVec 64) :
    Matches (s.setSeek v) { r with pos := v } where
  pos := updateSeekFromDos_set32bit v
  shows := ⟨set32bit_toNat v, h.shows.2⟩
  size := h.size
  host := h.host

/-- The file gets another size, which is stored. -/
theorem Matches.setSize (h : Matches s r) {v : BitVec 64} {size : Nat} (hv : v.toNat = size) :
    Matches ({ s with hostSize := size }.setSize v) { r with size := size } where
  pos := h.pos
  shows := by
    refine ⟨h.shows.1, ?_⟩
    rw [State.setSize, set32bit_toNat, hv]
  size := hv
  host := rfl

/-- A look at the size finds what is known. -/
theorem Matches.refresh (h : Matches s r) :
    Matches (s.setSize (BitVec.ofNat 64 s.hostSize)) r := by
  have hsize : (BitVec.ofNat 64 s.hostSize).toNat = r.size := by
    rw [h.host_eq, h.size]
  have hsame : { s with hostSize := r.size } = s := by
    rw [← h.host]
  have hset := h.setSize hsize
  rwa [hsame] at hset

/-- The position of DOS, taken over. -/
theorem Matches.update (h : Matches s r) :
    Matches { s with seek := updateSeekFromDos s.sftPosition s.seek } r where
  pos := by
    rw [← h.pos]
    simp only [updateSeekFromDos]
    split <;> rfl
  shows := h.shows
  size := h.size
  host := h.host

theorem matches_opened {size : Nat} (hsize : size < 2 ^ 64) :
    Matches (opened size) { pos := 0, size := size } := by
  have hnat : (BitVec.ofNat 64 size).toNat = size := by
    rw [BitVec.toNat_ofNat, Nat.mod_eq_of_lt hsize]
  refine ⟨rfl, ⟨rfl, ?_⟩, hnat, rfl⟩
  rw [opened, set32bit_toNat, hnat]

/-- A read moves bytes at the position of the reference and takes it along. -/
theorem Matches.read (h : Matches s r) {cnt : BitVec 16} {a : ReadAnswers} {m : Moved}
    (hread : readFile s cnt a = some (m, t)) :
    m.1 = r.pos ∧ Matches t { r with pos := r.pos + BitVec.ofNat 64 m.2 } := by
  have hupdate := h.update
  have hnone : r = { r with pos := r.pos + BitVec.ofNat 64 0 } := by
    rw [BitVec.add_zero]
  unfold readFile at hread
  rw [h.pos] at hread hupdate
  simp only [Option.pure_def, Option.bind_eq_bind] at hread
  split at hread
  · cases hread
    exact ⟨rfl, hnone ▸ hupdate⟩
  · next n _ =>
      obtain ⟨-, -, hread⟩ := Option.bind_eq_some_iff.mp hread
      split at hread
      · cases hread
        exact ⟨rfl, hnone ▸ hupdate⟩
      · split at hread
        · cases hread
          exact ⟨rfl, hnone ▸ hupdate⟩
        · next bytes _ =>
            have hmove := hupdate.setSeek (r.pos + BitVec.ofNat 64 (min bytes n))
            split at hread
            · obtain ⟨-, -, hread⟩ := Option.bind_eq_some_iff.mp hread
              cases hread
              exact ⟨rfl, hmove.refresh⟩
            · cases hread
              exact ⟨rfl, hmove⟩

/-- A transfer that is let through moves at least one byte of those asked for. -/
theorem transfer_ne_zero {wr : Bool} {seek cnt n : Nat} {own other : Option Rec}
    {flock unlock : Bool} (hcnt : cnt ≠ 0)
    (hok : transfer wr seek cnt own other flock unlock = .ok n) : n ≠ 0 := by
  unfold transfer at hok
  rw [if_neg hcnt] at hok
  simp only at hok
  generalize hcnt1 : (if (!regionIsFullyOwned own seek cnt wr) = true ∧ seek ≤ 0xFFFFFFFF ∧
    seek + cnt ≤ 0xFFFFFFFF then regionLockOffs flock unlock other seek cnt
    else (cnt : Int)) = c at hok
  have hrange : c = -1 ∨ 0 ≤ c := by
    rw [← hcnt1]
    split
    · unfold regionLockOffs
      split
      · exact .inl rfl
      · split
        · exact .inr (Int.natCast_nonneg _)
        · split
          · exact .inr (Int.natCast_nonneg _)
          · split
            · exact .inr le_rfl
            · exact .inl rfl
    · exact .inr (Int.natCast_nonneg _)
  split at hok
  · cases hok
  · next hzero =>
      simp only [Except.ok.injEq] at hok
      split at hok
      · omega
      · omega

/-- The position and the size after a write of `k` bytes. -/
theorem Matches.wrote (h : Matches s r) (hseek : s.seek = r.pos) {k : Nat}
    (hend : (r.pos + BitVec.ofNat 64 k).toNat = r.pos.toNat + k) :
    (s.wrote k).1 = (r.pos, k) ∧
      Matches (s.wrote k).2
        { pos := r.pos + BitVec.ofNat 64 k, size := max r.size (r.pos.toNat + k) } := by
  have hmove := h.setSeek (r.pos + BitVec.ofNat 64 k)
  unfold State.wrote State.advance
  rw [hseek]
  simp only
  split
  · next hgrow =>
      have hlt : r.size < k + r.pos.toNat := by
        rw [← h.size]
        exact hgrow
      have hmax : max s.hostSize (r.pos.toNat + k) = r.pos.toNat + k := by
        rw [h.host]
        omega
      have hmax' : max r.size (r.pos.toNat + k) = r.pos.toNat + k := by
        omega
      rw [hmax, hmax']
      exact ⟨rfl, hmove.setSize hend⟩
  · next hgrow =>
      have hle : r.pos.toNat + k ≤ r.size := by
        rw [← h.size, Nat.add_comm]
        exact Nat.not_lt.mp hgrow
      have hmax : max s.hostSize (r.pos.toNat + k) = s.hostSize := by
        rw [h.host, max_eq_left hle]
      rw [hmax, max_eq_left hle, ← hseek]
      exact ⟨rfl, hseek ▸ hmove⟩

/-- A write moves bytes at the position of the reference and takes it along; the size grows
as far as the position goes, or is cut off there. -/
theorem Matches.write (h : Matches s r) {cnt : BitVec 16} {a : WriteAnswers} {m : Moved}
    (hwrite : writeFile s cnt a = some (m, t)) :
    m.1 = r.pos ∧ Matches t (r.next m.2 (.write cnt a)) := by
  have hupdate := h.update
  unfold writeFile at hwrite
  rw [h.pos] at hupdate hwrite
  simp only [Option.pure_def, Option.bind_eq_bind] at hwrite
  by_cases hcnt : cnt = 0
  · rw [if_pos hcnt] at hwrite
    by_cases htrunc : seekable a.ftruncate r.pos = true
    · rw [if_pos htrunc] at hwrite
      cases hwrite
      rw [Ref.next, if_pos hcnt, if_pos htrunc]
      exact ⟨rfl, hupdate.setSize rfl⟩
    · rw [if_neg htrunc] at hwrite
      cases hwrite
      rw [Ref.next, if_pos hcnt, if_neg htrunc]
      exact ⟨rfl, hupdate⟩
  · have hnone : r.next 0 (.write cnt a) = r := by
      rw [Ref.next, if_neg hcnt, BitVec.add_zero, if_pos rfl]
    rw [if_neg hcnt] at hwrite
    split at hwrite
    · cases hwrite
      exact ⟨rfl, hnone.symm ▸ hupdate⟩
    · next n htransfer =>
        obtain ⟨_, hle, hwrite⟩ := Option.bind_eq_some_iff.mp hwrite
        split at hwrite
        · cases hwrite
          exact ⟨rfl, hnone.symm ▸ hupdate⟩
        · next hseek =>
            split at hwrite
            · cases hwrite
              exact ⟨rfl, hnone.symm ▸ hupdate⟩
            · next bytes _ =>
                have hn : n ≠ 0 :=
                  transfer_ne_zero (fun hzero => hcnt (BitVec.eq_of_toNat_eq hzero)) htransfer
                have hpos := bytes.pos
                have hret : min bytes.val n ≠ 0 := by omega
                have hend : (r.pos + BitVec.ofNat 64 (min bytes.val n)).toNat =
                    r.pos.toNat + min bytes.val n := by
                  have hcount := cAssert_eq_some.mp hle
                  have hbound := cnt.isLt
                  have hlt : r.pos.toNat < 2 ^ 63 := by
                    simp only [seekable, Bool.not_eq_true', Bool.not_eq_false, Bool.and_eq_true,
                      decide_eq_true_eq] at hseek
                    exact hseek.2
                  rw [BitVec.toNat_add, BitVec.toNat_ofNat]
                  omega
                obtain ⟨hmoved, hmatches⟩ := hupdate.wrote rfl hend
                rw [Option.some.injEq] at hwrite
                rw [hwrite] at hmoved hmatches
                simp only at hmoved hmatches
                rw [hmoved, Ref.next, if_neg hcnt, if_neg hret]
                exact ⟨rfl, hmatches⟩

/-- A seek takes the reference to the same position. -/
theorem Matches.seekFromEof (h : Matches s r) (cx dx : BitVec 16) (fstat : Bool) :
    Matches (seekFromEof s cx dx fstat) (r.next 0 (.seekFromEof cx dx fstat)) := by
  rw [Positions.seekFromEof, Ref.next]
  cases fstat with
  | false => exact h
  | true =>
      have hset := (h.setSeek ((cx ++ dx).signExtend 64 + BitVec.ofNat 64 s.hostSize)).refresh
      rw [if_pos rfl, if_pos rfl, h.size_eq, ← h.host_eq,
        BitVec.add_comm (BitVec.ofNat 64 s.hostSize)]
      exact hset

theorem Matches.longSeek (h : Matches s r) (cl : BitVec 8) (seek : BitVec 64) (fstat : Bool) :
    Matches (longSeek s cl seek fstat) (r.next 0 (.longSeek cl seek fstat)) := by
  rw [Positions.longSeek, Ref.next, h.pos]
  by_cases hset : cl = 0
  · rw [if_pos hset, if_pos hset]
    exact h.setSeek seek
  rw [if_neg hset, if_neg hset]
  by_cases hcur : cl = 1
  · rw [if_pos hcur, if_pos hcur]
    exact h.setSeek (r.pos + seek)
  rw [if_neg hcur, if_neg hcur]
  by_cases hend : cl = 2
  · rw [if_pos hend]
    cases fstat with
    | false =>
        rw [if_neg Bool.false_ne_true, if_neg (fun hboth => Bool.false_ne_true hboth.2)]
        exact h
    | true =>
        rw [if_pos rfl, if_pos ⟨hend, rfl⟩, h.size_eq, ← h.host_eq]
        exact h.refresh.setSeek (BitVec.ofNat 64 s.hostSize + seek)
  · rw [if_neg hend, if_neg (fun hboth => hend hboth.1)]
    exact h

/-- A request transfers at the position of the reference, and leaves a match. -/
theorem Matches.step (h : Matches s r) {q : Request} {moved : Option Moved}
    (hstep : step s q = some (moved, t)) :
    (∀ m ∈ moved, m.1 = r.pos) ∧ Matches t (r.next (moved.elim 0 Prod.snd) q) := by
  have hnone : ∀ m ∈ (none : Option Moved), m.1 = r.pos := fun _ hm => by cases hm
  cases q with
  | read cnt a =>
      obtain ⟨⟨m, u⟩, hread, heq⟩ := Option.map_eq_some_iff.mp hstep
      cases heq
      obtain ⟨hpos, hmatches⟩ := h.read hread
      refine ⟨fun m' hm' => ?_, hmatches⟩
      cases hm'
      exact hpos
  | write cnt a =>
      obtain ⟨⟨m, u⟩, hwrite, heq⟩ := Option.map_eq_some_iff.mp hstep
      cases heq
      obtain ⟨hpos, hmatches⟩ := h.write hwrite
      refine ⟨fun m' hm' => ?_, hmatches⟩
      cases hm'
      exact hpos
  | seekFromEof cx dx fstat =>
      cases hstep
      exact ⟨hnone, h.seekFromEof cx dx fstat⟩
  | longSeek cl seek fstat =>
      cases hstep
      exact ⟨hnone, h.longSeek cl seek fstat⟩
  | store position =>
      cases hstep
      refine ⟨hnone, updateSeekFromDos_store position s.seek, ⟨?_, h.shows.2⟩, h.size, h.host⟩
      have hlt := position.isLt
      simp only [Ref.next, BitVec.toNat_ofNat]
      omega

/-! ## Runs -/

theorem Matches.tracks (h : Matches s r) (qs : List Request) : Tracks s r qs := by
  induction qs generalizing s r with
  | nil => trivial
  | cons q qs ih =>
      intro moved t hstep
      obtain ⟨hpos, hmatches⟩ := h.step hstep
      exact ⟨hpos, hmatches.shows, ih hmatches⟩

/-- Over every sequence of requests and stores on a file of any size, each transfer uses the
position of the reference, and the fields of DOS show the reference. -/
theorem positions_track (size : Fin (2 ^ 63)) (qs : List Request) :
    Shows (opened size) { pos := 0, size := size } ∧
      Tracks (opened size) { pos := 0, size := size } qs := by
  have hopened : Matches (opened size) { pos := 0, size := size } := by
    apply matches_opened
    have := size.isLt
    omega
  exact ⟨hopened.shows, hopened.tracks qs⟩

/-- A read starts where the read before it ended. -/
theorem reads_adjacent (h : Matches s r) {u : State} {cnt cnt' : BitVec 16} {a a' : ReadAnswers}
    {m m' : Moved} (hread : readFile s cnt a = some (m, t))
    (hnext : readFile t cnt' a' = some (m', u)) : m'.1 = m.1 + BitVec.ofNat 64 m.2 := by
  obtain ⟨hpos, hmatches⟩ := h.read hread
  rw [(hmatches.read hnext).1, hpos]

end Positions
end Mfs
end Dosemu
