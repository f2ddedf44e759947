import Dosemu.Lib.Circular
import Dosemu.Lib.MachineInt
import Dosemu.Lib.Outcome
import Dosemu.Lib.Run

/-!
# The single-producer single-consumer queue

The queue of `spscq.c`: a circular byte buffer between a producer, which fills an
area of the buffer in place and then commits a part of it, and a consumer, which
copies bytes out.  Each call is one step under the mutex; between its two calls the
producer writes into its area one byte at a time while the consumer goes on reading.

Main results:

- Theorem `Sys.step_inv`: every step keeps the unread bytes apart from the area.
- Theorem `delivers_iff`: the queue delivers the committed stream on every run exactly
  for the sizes from one byte to 2 GiB; beyond, `rd_pos + fillup` wraps.
-/

namespace Dosemu
namespace Queues

open Circular MachineInt

/-! ## The queue -/

/-- `struct spscq`, without the mutex and the condition variable. -/
structure Spscq where
  size : Nat
  rdPos : Nat
  fillup : Nat
  data : Nat → UInt8

/-- What `spscq_write_area` hands to the producer: a position in `data` and `*r_len`. -/
structure Area where
  pos : Nat
  len : Nat
deriving DecidableEq

namespace Spscq

/-- `spscq_init`; the data bytes are what `malloc` left there. -/
def init (size : UInt32) (data : Nat → UInt8) : Spscq :=
  ⟨size.toNat, 0, 0, data⟩

/-- `spscq_write_area`: `some none` while the queue is full and the producer waits. -/
def writeArea (q : Spscq) : Option (Option Area) :=
  if q.fillup = q.size then some none
  else
    let wrPos := uwrap 32 ((q.rdPos : Int) + q.fillup)
    let top := if q.size ≤ wrPos then q.rdPos else q.size
    let wrPos := if q.size ≤ wrPos then uwrap 32 ((wrPos : Int) - q.size) else wrPos
    (cAssert (wrPos < top)).bind fun _ => some (some ⟨wrPos, uwrap 32 ((top : Int) - wrPos)⟩)

/-- `spscq_commit_write` -/
def commitWrite (q : Spscq) (len : Nat) : Spscq :=
  { q with fillup := uwrap 32 ((q.fillup : Int) + len) }

/-- The bytes `memcpy` takes from `data + pos`. -/
def bytesAt (q : Spscq) (pos len : Nat) : List UInt8 :=
  (List.range len).map fun i => q.data (pos + i)

/-- The first chunk of `spscq_read`: up to the end of the buffer at most. -/
def firstChunk (q : Spscq) (len : Nat) : Nat :=
  min (min q.fillup (uwrap 32 ((q.size : Int) - q.rdPos))) len

/-- `rd_pos` and `fillup` behind the first chunk. -/
def skipChunk (q : Spscq) (ret : Nat) : Spscq :=
  { q with
    rdPos := if uwrap 32 ((q.rdPos : Int) + ret) = q.size then 0
      else uwrap 32 ((q.rdPos : Int) + ret)
    fillup := uwrap 32 ((q.fillup : Int) - ret) }

/-- `spscq_read`: the bytes stored to the caller's buffer, and the queue afterwards. -/
def read (q : Spscq) (len : Nat) : List UInt8 × Spscq :=
  if q.fillup = 0 then ([], q)
  else
    let ret := q.firstChunk len
    let q' := q.skipChunk ret
    let rest := len - ret
    if q'.fillup ≠ 0 ∧ rest ≠ 0 then
      let more := min q'.fillup rest
      (q.bytesAt q.rdPos ret ++ q'.bytesAt q'.rdPos more,
        { q' with
          rdPos := uwrap 32 ((q'.rdPos : Int) + more)
          fillup := uwrap 32 ((q'.fillup : Int) - more) })
    else (q.bytesAt q.rdPos ret, q')

/-- The bytes that are committed and not read yet. -/
def unread (q : Spscq) : List UInt8 :=
  window q.data q.size q.rdPos q.fillup

end Spscq

/-! ## Producer and consumer -/

/-- The queue, the area the producer has between its two calls, and the history: the
bytes committed and the bytes returned to the consumer. -/
structure Sys where
  q : Spscq
  area : Option Area
  committed : List UInt8
  consumed : List UInt8

/-- The atomic steps: three calls, and the producer's stores into its area. -/
inductive Event
  | writeArea
  | store (i : Nat) (b : UInt8)
  | commitWrite (len : Nat)
  | read (len : Nat)

namespace Sys

/-- A new queue. -/
def init (size : UInt32) (data : Nat → UInt8) : Sys :=
  ⟨Spscq.init size data, none, [], []⟩

/-- One step; `none` is a failed assertion. -/
def step (s : Sys) : Event → Option Sys
  | .writeArea => s.q.writeArea.map fun area => { s with area := area }
  | .store i b =>
      match s.area with
      | none => some s
      | some a => some { s with q.data := Function.update s.q.data (a.pos + i) b }
  | .commitWrite len =>
      match s.area with
      | none => some s
      | some a => some
          { s with
            q := s.q.commitWrite len
            area := none
            committed := s.committed ++ s.q.bytesAt a.pos len }
  | .read len => some
      { s with
        q := (s.q.read len).2
        consumed := s.consumed ++ (s.q.read len).1 }

/-- What the producer does: one area at a time, stores inside of it, and a commit of at
most its length. -/
def Follows (s : Sys) : Event → Prop
  | .writeArea => s.area = none
  | .store i _ => ∃ a, s.area = some a ∧ i < a.len
  | .commitWrite len => ∃ a, s.area = some a ∧ len ≤ a.len
  | .read _ => True

/-- The contract of the queue in a state of a run. -/
structure Delivers (s : Sys) : Prop where
  stream : s.consumed <+: s.committed
  fillup_le : s.q.fillup ≤ s.q.size
  rdPos_lt : s.q.rdPos < s.q.size
  area_pos : ∀ a, s.area = some a → 0 < a.len ∧ a.pos + a.len ≤ s.q.size
  area_apart : ∀ a, s.area = some a → ∀ i < s.q.fillup,
    (s.q.rdPos + i) % s.q.size < a.pos ∨ a.pos + a.len ≤ (s.q.rdPos + i) % s.q.size

/-! ## The invariant -/

/-- The area starts behind the unread bytes and fits into the cells that are left. -/
def AreaFits (q : Spscq) (a : Area) : Prop :=
  a.pos = (q.rdPos + q.fillup) % q.size ∧ 0 < a.len ∧ q.fillup + a.len ≤ q.size ∧
    a.pos + a.len ≤ q.size

/-- What holds between any two steps, for a size that the sum of two positions respects. -/
structure Inv (s : Sys) : Prop where
  size_le : s.q.size ≤ 2 ^ 31
  rdPos_lt : s.q.rdPos < s.q.size
  fillup_le : s.q.fillup ≤ s.q.size
  stream : s.consumed ++ s.q.unread = s.committed
  area : ∀ a, s.area = some a → AreaFits s.q a

theorem inv_init {size : UInt32} (hpos : 0 < size.toNat) (hle : size.toNat ≤ 2 ^ 31)
    (data : Nat → UInt8) : (init size data).Inv where
  size_le := hle
  rdPos_lt := hpos
  fillup_le := Nat.zero_le _
  stream := rfl
  area := by
    intro a ha
    cases ha

/-- The invariant is the contract and more. -/
theorem Inv.delivers {s : Sys} (hs : s.Inv) : s.Delivers where
  stream := ⟨s.q.unread, hs.stream⟩
  fillup_le := hs.fillup_le
  rdPos_lt := hs.rdPos_lt
  area_pos := by
    intro a ha
    exact ⟨(hs.area a ha).2.1, (hs.area a ha).2.2.2⟩
  area_apart := by
    intro a ha i hi
    rcases hs.area a ha with ⟨hpos, -, hroom, hend⟩
    by_contra hmeet
    push Not at hmeet
    -- an entry inside of the area would be the entry `fillup + j` of the buffer
    obtain ⟨j, hj⟩ : ∃ j, (s.q.rdPos + i) % s.q.size = a.pos + j := ⟨_, (Nat.add_sub_of_le hmeet.1).symm⟩
    have hwrap : (s.q.rdPos + (s.q.fillup + j)) % s.q.size = a.pos + j := by
      rw [← Nat.add_assoc, Nat.add_mod, ← hpos, Nat.mod_eq_of_lt (show j < s.q.size by omega),
        Nat.mod_eq_of_lt (by omega)]
    have heq := index_inj (by omega) (by omega) (hj.trans hwrap.symm)
    omega

/-! ## The steps -/

/-- The area of a queue with room, as long as `rd_pos + fillup` does not wrap. -/
theorem writeArea_spec {q : Spscq} (hsize : q.size ≤ 2 ^ 31) (hrd : q.rdPos < q.size)
    (hfill : q.fillup < q.size) : ∃ a, q.writeArea = some (some a) ∧ AreaFits q a := by
  have hsum : uwrap 32 ((q.rdPos : Int) + q.fillup) = q.rdPos + q.fillup :=
    uwrap_add (by omega)
  rw [Spscq.writeArea, if_neg hfill.ne, hsum]
  by_cases hwrap : q.size ≤ q.rdPos + q.fillup
  · have hpos : uwrap 32 (((q.rdPos + q.fillup : Nat) : Int) - q.size) =
        q.rdPos + q.fillup - q.size := uwrap_sub hwrap (by omega)
    have hlen : uwrap 32 ((q.rdPos : Int) - (q.rdPos + q.fillup - q.size : Nat)) =
        q.rdPos - (q.rdPos + q.fillup - q.size) := uwrap_sub (by omega) (by omega)
    simp only [if_pos hwrap, hpos, hlen]
    refine ⟨_, cAssert_bind (by omega) _, ?_, ?_, ?_, ?_⟩ <;> dsimp only
    · rw [Nat.mod_eq_sub_mod hwrap, Nat.mod_eq_of_lt (by omega)]
    all_goals omega
  · have hlen : uwrap 32 ((q.size : Int) - (q.rdPos + q.fillup : Nat)) =
        q.size - (q.rdPos + q.fillup) := uwrap_sub (by omega) (by omega)
    simp only [if_neg hwrap, hlen]
    refine ⟨_, cAssert_bind (by omega) _, ?_, ?_, ?_, ?_⟩ <;> dsimp only
    · rw [Nat.mod_eq_of_lt (by omega)]
    all_goals omega

/-- Behind the first chunk the read position is back below the size. -/
theorem skipChunk_spec {q : Spscq} (ret : Nat) (hsize : q.size < 2 ^ 32)
    (hret : q.rdPos + ret ≤ q.size) (hrd : q.rdPos < q.size) (hfill : ret ≤ q.fillup)
    (hle : q.fillup ≤ q.size) :
    q.skipChunk ret =
      { q with rdPos := (q.rdPos + ret) % q.size, fillup := q.fillup - ret } := by
  have hsum : uwrap 32 ((q.rdPos : Int) + ret) = q.rdPos + ret := uwrap_add (by omega)
  have hrest : uwrap 32 ((q.fillup : Int) - ret) = q.fillup - ret :=
    uwrap_sub hfill (by omega)
  rw [Spscq.skipChunk, hsum, hrest]
  congr 1
  split
  · next hend => rw [hend, Nat.mod_self]
  · next hend => rw [Nat.mod_eq_of_lt (by omega)]

/-- `spscq_read` takes as many of the unread bytes from the front as there are and fit. -/
theorem read_spec {q : Spscq} (hsize : q.size < 2 ^ 32) (hrd : q.rdPos < q.size)
    (hfill : q.fillup ≤ q.size) (len : Nat) :
    q.read len = (window q.data q.size q.rdPos (min q.fillup len),
      { q with
        rdPos := (q.rdPos + min q.fillup len) % q.size
        fillup := q.fillup - min q.fillup len }) := by
  have hroom : uwrap 32 ((q.size : Int) - q.rdPos) = q.size - q.rdPos :=
    uwrap_sub hrd.le (by omega)
  have hchunk : q.firstChunk len = min (min q.fillup (q.size - q.rdPos)) len := by
    rw [Spscq.firstChunk, hroom]
  obtain ⟨ret, hret⟩ : ∃ ret, ret = min (min q.fillup (q.size - q.rdPos)) len := ⟨_, rfl⟩
  have hskip := skipChunk_spec ret hsize (by omega) hrd (by omega) hfill
  have hbytes : q.bytesAt q.rdPos ret = window q.data q.size q.rdPos ret :=
    (window_flat (by omega)).symm
  rw [Spscq.read, hchunk, ← hret]
  dsimp only
  rw [hskip, hbytes]
  by_cases hempty : q.fillup = 0
  · rw [if_pos hempty]
    cases q
    simp_all [Nat.mod_eq_of_lt]
  rw [if_neg hempty]
  by_cases hmore : q.fillup - ret ≠ 0 ∧ len - ret ≠ 0
  · -- the first chunk reached the end of the buffer
    rw [if_pos hmore]
    have hend : q.rdPos + ret = q.size := by omega
    have hsplit : min q.fillup len = ret + min (q.fillup - ret) (len - ret) := by omega
    obtain ⟨more, hdef⟩ : ∃ more, more = min (q.fillup - ret) (len - ret) := ⟨_, rfl⟩
    rw [hsplit, ← hdef, window_add, ← Nat.add_assoc, hend, Nat.mod_self]
    have hpos : uwrap 32 (((0 : Nat) : Int) + more) = more := by
      rw [uwrap_add (by omega), Nat.zero_add]
    have hleft : uwrap 32 (((q.fillup - ret : Nat) : Int) - more) = q.fillup - ret - more :=
      uwrap_sub (by omega) (by omega)
    rw [hpos, hleft, Nat.add_mod_left, Nat.mod_eq_of_lt (by omega), Nat.sub_sub]
    congr 2
    rw [← window_mod, Nat.mod_self, window_flat (by omega)]
    rfl
  · rw [if_neg hmore]
    have hall : min q.fillup len = ret := by omega
    rw [hall]

theorem step_inv {s t : Sys} {e : Event} (hs : s.Inv) (hfollows : s.Follows e)
    (h : s.step e = some t) : t.Inv := by
  cases e with
  | writeArea =>
      rw [step, Option.map_eq_some_iff] at h
      rcases h with ⟨area, harea, rfl⟩
      refine ⟨hs.size_le, hs.rdPos_lt, hs.fillup_le, hs.stream, ?_⟩
      intro a ha
      by_cases hfull : s.q.fillup = s.q.size
      · rw [Spscq.writeArea, if_pos hfull] at harea
        cases harea
        cases ha
      · rcases writeArea_spec hs.size_le hs.rdPos_lt (lt_of_le_of_ne hs.fillup_le hfull) with
          ⟨b, hb, hfits⟩
        rw [hb] at harea
        cases harea
        cases ha
        exact hfits
  | store i b =>
      rcases hfollows with ⟨a, ha, hi⟩
      rw [step, ha] at h
      cases h
      refine ⟨hs.size_le, hs.rdPos_lt, hs.fillup_le, ?_, fun c hc => hs.area c (ha ▸ hc)⟩
      rcases hs.area a ha with ⟨hpos, -, hroom, hend⟩
      have hcell : a.pos + i = (s.q.rdPos + (s.q.fillup + i)) % s.q.size := by
        rw [← Nat.add_assoc, Nat.add_mod, ← hpos, Nat.mod_eq_of_lt (show i < s.q.size by omega),
          Nat.mod_eq_of_lt (by omega)]
      change s.consumed ++ window (Function.update s.q.data (a.pos + i) b) _ _ _ = _
      have hbehind : s.q.fillup ≤ s.q.fillup + i := Nat.le_add_right _ _
      rw [hcell, window_update_outside hbehind (by omega)]
      exact hs.stream
  | commitWrite len =>
      rcases hfollows with ⟨a, ha, hlen⟩
      rw [step, ha] at h
      cases h
      rcases hs.area a ha with ⟨hpos, -, hroom, hend⟩
      have hsize := hs.size_le
      have hsum : uwrap 32 ((s.q.fillup : Int) + len) = s.q.fillup + len :=
        uwrap_add (by omega)
      refine ⟨hs.size_le, hs.rdPos_lt, ?_, ?_, fun c hc => nomatch hc⟩
      · change uwrap 32 _ ≤ s.q.size
        rw [hsum]
        omega
      · change s.consumed ++ window s.q.data s.q.size s.q.rdPos (uwrap 32 _) = _
        have hbytes : s.q.bytesAt a.pos len = window s.q.data s.q.size a.pos len :=
          (window_flat (by omega)).symm
        rw [hsum, window_add, hbytes, hpos, window_mod, ← List.append_assoc]
        exact congrArg (· ++ _) hs.stream
  | read len =>
      cases h
      have hread := read_spec (hs.size_le.trans_lt (by decide)) hs.rdPos_lt hs.fillup_le len
      obtain ⟨k, hk⟩ : ∃ k, k = min s.q.fillup len := ⟨_, rfl⟩
      rw [← hk] at hread
      have hrd := hs.rdPos_lt
      have hfill := hs.fillup_le
      refine ⟨?_, ?_, ?_, ?_, ?_⟩
      all_goals simp only [hread]
      · exact hs.size_le
      · exact Nat.mod_lt _ (by omega)
      · omega
      · have hsplit : s.q.fillup = k + (s.q.fillup - k) := by omega
        rw [← hs.stream, Spscq.unread, Spscq.unread, List.append_assoc, window_mod, ← window_add,
          ← hsplit]
      · intro a ha
        rcases hs.area a ha with ⟨hpos, hlen, hroom, hend⟩
        refine ⟨?_, hlen, ?_, hend⟩
        · have hsame : s.q.rdPos + k + (s.q.fillup - k) = s.q.rdPos + s.q.fillup := by omega
          rw [hpos, Nat.mod_add_mod, hsame]
        · change s.q.fillup - k + a.len ≤ s.q.size
          omega

/-- An assertion of the queue never fails. -/
theorem step_isSome {s : Sys} {e : Event} (hs : s.Inv) (hfollows : s.Follows e) :
    ∃ t, s.step e = some t ∧ t.Inv := by
  suffices hsome : ∃ t, s.step e = some t by
    rcases hsome with ⟨t, ht⟩
    exact ⟨t, ht, step_inv hs hfollows ht⟩
  cases e with
  | writeArea =>
      by_cases hfull : s.q.fillup = s.q.size
      · rw [step, Spscq.writeArea, if_pos hfull]
        exact ⟨_, rfl⟩
      · rcases writeArea_spec hs.size_le hs.rdPos_lt (lt_of_le_of_ne hs.fillup_le hfull) with
          ⟨a, ha, -⟩
        rw [step, ha]
        exact ⟨_, rfl⟩
  | store i b =>
      rcases hfollows with ⟨a, ha, -⟩
      rw [step, ha]
      exact ⟨_, rfl⟩
  | commitWrite len =>
      rcases hfollows with ⟨a, ha, -⟩
      rw [step, ha]
      exact ⟨_, rfl⟩
  | read len => exact ⟨_, rfl⟩

/-! ## Sizes beyond 2 GiB -/

/-- Some run that keeps to the protocol leads to a state with the property. -/
def Reaches (s : Sys) (P : Sys → Prop) : Prop :=
  ∃ es t, Run.Admits step Follows s es ∧ Run.run step s es = some t ∧ P t

theorem Reaches.here {s : Sys} {P : Sys → Prop} (h : P s) : s.Reaches P :=
  ⟨[], s, trivial, rfl, h⟩

theorem Reaches.step {s u : Sys} {P : Sys → Prop} (e : Event) (hfollows : s.Follows e)
    (hu : s.step e = some u) (h : u.Reaches P) : s.Reaches P := by
  rcases h with ⟨es, t, hfits, hrun, ht⟩
  refine ⟨e :: es, t, ⟨hfollows, ?_⟩, Run.run_cons_eq_some.mpr ⟨u, hu, hrun⟩, ht⟩
  intro v hv
  rw [hu] at hv
  cases hv
  exact hfits

/-- The area when the sum of the positions, after its wrap, is below the size. -/
theorem writeArea_low {n rd fill w : Nat} {data : Nat → UInt8} (hfill : fill ≠ n)
    (hsum : uwrap 32 ((rd : Int) + fill) = w) (hw : w < n) (hn : n < 2 ^ 32) :
    Spscq.writeArea ⟨n, rd, fill, data⟩ = some (some ⟨w, n - w⟩) := by
  have hlen : uwrap 32 ((n : Int) - w) = n - w := uwrap_sub hw.le (by omega)
  simp only [Spscq.writeArea, if_neg hfill, hsum, if_neg (Nat.not_le.mpr hw), hlen]
  exact cAssert_bind hw _

/-- The area in front of the read position, from the start of the buffer. -/
theorem writeArea_start {n rd fill : Nat} {data : Nat → UInt8} (hfill : fill ≠ n)
    (hsum : rd + fill = n) (hrd : 0 < rd) (hn : n < 2 ^ 32) :
    Spscq.writeArea ⟨n, rd, fill, data⟩ = some (some ⟨0, rd⟩) := by
  have hwrap : uwrap 32 ((rd : Int) + fill) = n := by
    rw [uwrap_add (by omega), hsum]
  have hpos : uwrap 32 ((n : Int) - n) = 0 := by
    rw [uwrap_sub le_rfl (by omega), Nat.sub_self]
  have hlen : uwrap 32 ((rd : Int) - (0 : Nat)) = rd := uwrap_sub (Nat.zero_le _) (by omega)
  simp only [Spscq.writeArea, if_neg hfill, hwrap, if_pos le_rfl, hpos, hlen]
  exact cAssert_bind hrd _

/-- In a queue of more than 2 GiB, `rd_pos + fillup` wraps and the next area covers unread
bytes. -/
theorem overlap_of_large {size : UInt32} (hlarge : 2 ^ 31 < size.toNat) (data : Nat → UInt8) :
    (init size data).Reaches fun s => ¬s.Delivers := by
  obtain ⟨n, hn⟩ : ∃ n, n = size.toNat := ⟨_, rfl⟩
  have hlt : n < 2 ^ 32 := hn ▸ size.toNat_lt
  rw [← hn] at hlarge
  rw [init, Spscq.init, ← hn]
  have hzero : uwrap 32 (((0 : Nat) : Int) + (0 : Nat)) = 0 := uwrap_add (by omega)
  have hcommit : uwrap 32 (((0 : Nat) : Int) + (n - 1 : Nat)) = n - 1 := by
    rw [uwrap_add (by omega), Nat.zero_add]
  have hlast : uwrap 32 (((n - 1 : Nat) : Int) + (0 : Nat)) = n - 1 := uwrap_add (by omega)
  have hone : uwrap 32 (((0 : Nat) : Int) + (1 : Nat)) = 1 := uwrap_add (by omega)
  have hmore : uwrap 32 (((1 : Nat) : Int) + (2 ^ 32 - n : Nat)) = 2 ^ 32 - n + 1 := by
    rw [uwrap_add (by omega), Nat.add_comm]
  have hover : uwrap 32 (((n - 1 : Nat) : Int) + (2 ^ 32 - n + 1 : Nat)) = 0 := by
    have hsum : ((n - 1 : Nat) : Int) + (2 ^ 32 - n + 1 : Nat) = ((0 : Nat) : Int) + 2 ^ 32 := by
      omega
    rw [hsum, uwrap_add_modulus (by omega)]
  -- commit all bytes but one and read them: the read position is the last byte
  refine Reaches.step .writeArea rfl (by
    rw [step, writeArea_low (by omega) hzero (by omega) hlt, Option.map_some]) ?_
  refine Reaches.step (.commitWrite (n - 1)) ⟨_, rfl, Nat.sub_le_sub_left (by omega) _⟩ rfl ?_
  rw [Spscq.commitWrite, hcommit]
  refine Reaches.step (.read (n - 1)) trivial rfl ?_
  rw [read_spec hlt (show 0 < n by omega) (Nat.sub_le _ _)]
  simp only [Nat.min_self, Nat.zero_add, Nat.sub_self, Nat.mod_eq_of_lt (show n - 1 < n by omega)]
  -- one more byte fills the last cell, the next area is the buffer up to it
  refine Reaches.step .writeArea rfl (by
    rw [step, writeArea_low (by omega) hlast (by omega) hlt, Option.map_some]) ?_
  refine Reaches.step (.commitWrite 1) ⟨_, rfl, by dsimp only; omega⟩ rfl ?_
  rw [Spscq.commitWrite, hone]
  refine Reaches.step .writeArea rfl (by
    rw [step, writeArea_start (show 1 ≠ n by omega) (show n - 1 + 1 = n by omega)
      (show 0 < n - 1 by omega) hlt, Option.map_some]) ?_
  refine Reaches.step (.commitWrite (2 ^ 32 - n)) ⟨_, rfl, by dsimp only; omega⟩ rfl ?_
  rw [Spscq.commitWrite, hmore]
  -- now the sum of the positions is 2 ^ 32
  refine Reaches.step .writeArea rfl (by
    rw [step, writeArea_low (by omega) hover (by omega) hlt, Option.map_some]) ?_
  apply Reaches.here
  intro hdelivers
  have hapart := hdelivers.area_apart ⟨0, n - 0⟩ rfl 1 (by dsimp only; omega)
  have hcell := Nat.mod_lt (n - 1 + 1) (show n > 0 by omega)
  dsimp only at hapart
  omega

/-! ## The contract -/

/-- On every run that keeps to the protocol the queue delivers the committed stream, and
its areas are non-empty and apart from the unread bytes, exactly for the sizes from 1 to
2 ^ 31. -/
theorem delivers_iff (size : UInt32) :
    (∀ data es, Run.Admits step Follows (init size data) es →
      ∃ t, Run.run step (init size data) es = some t ∧ t.Delivers) ↔
    0 < size.toNat ∧ size.toNat ≤ 2 ^ 31 := by
  constructor
  · intro hall
    constructor
    · obtain ⟨t, ht, hdelivers⟩ := hall (fun _ => 0) [] trivial
      cases ht
      exact hdelivers.rdPos_lt
    · by_contra hlarge
      rcases overlap_of_large (Nat.not_le.mp hlarge) (fun _ => 0) with ⟨es, t, hfits, hrun, hbad⟩
      obtain ⟨u, hu, hdelivers⟩ := hall _ es hfits
      rw [hrun] at hu
      cases hu
      exact hbad hdelivers
  · rintro ⟨hpos, hle⟩ data es hfits
    obtain ⟨t, ht, hinv⟩ := Run.run_isSome (fun s e hs hfollows => step_isSome hs hfollows)
      (inv_init hpos hle data) hfits
    exact ⟨t, ht, hinv.delivers⟩

/-- A queue of 3000000000 bytes hands out an area over unread bytes. -/
theorem area_over_unread_bytes :
    ¬∀ (size : UInt32) data es, Run.Admits step Follows (init size data) es →
      ∃ t, Run.run step (init size data) es = some t ∧ t.Delivers := by
  intro hall
  rcases overlap_of_large (show 2 ^ 31 < (3000000000 : UInt32).toNat by decide) (fun _ => 0) with
    ⟨es, t, hfits, hrun, hbad⟩
  obtain ⟨u, hu, hdelivers⟩ := hall _ _ es hfits
  rw [hrun] at hu
  cases hu
  exact hbad hdelivers

end Sys
end Queues
end Dosemu
