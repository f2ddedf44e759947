import Dosemu.Lib.MachineInt
import Dosemu.Lib.Memory
import Dosemu.Lib.Outcome
import Dosemu.Lib.Run

/-!
# The sequential buffer of records

The `seqbuf_*` half of `ringbuf.c`: records of any length one behind the other in a block
of memory, each behind a header of two 64-bit words, its length and the bytes wasted behind
it.  Pointers are addresses; the headers are words of the same memory as the records.

Main results:

- Theorem `Holds.call`: every call serves the records of the invariant in order.
- Theorem `serves_in_order`: so does every run that does not write behind a record whose
  computed end lies beyond the space it was put into.
-/

namespace Dosemu
namespace Queues

open MachineInt Memory

/-! ## The buffer -/

/-- `struct seqbuf`, by addresses, and the memory it points into. -/
structure Seqbuf where
  beg : Nat
  tail : Nat
  prev : Option Nat
  len : Nat
  mem : Mem

/-- `SQALIGN`: the mask `-(y)` is an `unsigned int`, so it clears the upper half of `x`. -/
def sqalign (x : Nat) : Nat :=
  uwrap 64 ((x : Int) + 16 - 1) &&& uwrap 32 (-16)

/-- `req_len` of `seqbuf_write` -/
def reqLen (data : List UInt8) : Nat :=
  sqalign (uwrap 64 (data.length + 16 : Nat))

/-- The calls of the interface. -/
inductive SeqCall
  | write (data : List UInt8)
  | read (len : Nat)
  | get
  | put

/-- What they return, and what they store to or point the caller at. -/
inductive SeqReply
  | wrote (ret : Int)
  | read (ret : Int) (data : List UInt8)
  | got (item : Option (Nat × List UInt8))
  | put

namespace Seqbuf

/-- `seqbuf_init` -/
def init (buffer len : Nat) (mem : Mem) : Seqbuf where
  beg := sqalign buffer
  tail := sqalign buffer
  prev := none
  len := uwrap 64 ((len : Int) - uwrap 64 ((sqalign buffer : Int) - buffer))
  mem := mem

/-- `SQ_END` -/
def fin (s : Seqbuf) : Nat :=
  s.beg + s.len

/-- `pit->it.len` -/
def itLen (s : Seqbuf) (pit : Nat) : Nat :=
  loadWord 8 s.mem pit

/-- `pit->it.waste` -/
def itWaste (s : Seqbuf) (pit : Nat) : Nat :=
  loadWord 8 s.mem (pit + 8)

/-- The bytes at `pit->it.data`. -/
def itData (s : Seqbuf) (pit : Nat) : List UInt8 :=
  load s.mem (pit + 16) (s.itLen pit)

/-- `sqcalc_next` -/
def sqcalcNext (s : Seqbuf) (pit : Nat) : Option Nat :=
  let opos := uwrap 64 ((pit : Int) - s.beg)
  let pos := uwrap 64 (opos + 16 + s.itLen pit + s.itWaste pit : Nat)
  (cAssert (pos ≤ s.len ∧ (pos = sqalign pos ∨ pos = s.len))).bind fun _ => some (s.beg + pos)

/-- `sqcalc_next_wrp` -/
def sqcalcNextWrp (s : Seqbuf) (pit : Nat) : Option Nat :=
  (s.sqcalcNext pit).map fun itp => if s.fin ≤ itp then s.beg else itp

/-- `sqcalc_avail` -/
def sqcalcAvail (s : Seqbuf) : Option Nat :=
  match s.prev with
  | none => some s.len
  | some prev =>
      (s.sqcalcNext prev).map fun cur =>
        if cur ≤ s.tail then s.tail - cur
        else max (uwrap 64 ((s.len : Int) - uwrap 64 ((cur : Int) - s.beg)))
          (uwrap 64 ((s.tail : Int) - s.beg))

/-- The position for a new record. -/
def writePos (s : Seqbuf) : Option Nat :=
  match s.prev with
  | none => some s.beg
  | some prev => s.sqcalcNext prev

/-- Give the rest of the block to the newest record. -/
def wasteRest (s : Seqbuf) (itp : Nat) : Option Seqbuf :=
  match s.prev with
  | none => none
  | some prev => some
      { s with
        mem := storeWord 8 s.mem (prev + 8)
          (uwrap 64 (s.itWaste prev + uwrap 64 ((s.fin : Int) - itp) : Nat)) }

/-- The header and the bytes of a new record. -/
def putItem (s : Seqbuf) (itp reqLen : Nat) (data : List UInt8) : Seqbuf :=
  { s with
    mem := store (storeWord 8 (storeWord 8 s.mem (itp + 8)
      (uwrap 64 ((reqLen : Int) - data.length))) itp data.length) (itp + 16) data
    prev := some itp }

/-- `seqbuf_write` -/
def write (s : Seqbuf) (data : List UInt8) : Option (Int × Seqbuf) := do
  let avail ← s.sqcalcAvail
  let req := reqLen data
  if avail < req ∨ data.length = 0 then some (0, s)
  else
    let itp ← s.writePos
    if s.fin < itp + req then
      let s ← s.wasteRest itp
      cAssert (s.beg + req ≤ s.fin)
      some (swrap 32 data.length, s.putItem s.beg req data)
    else some (swrap 32 data.length, s.putItem itp req data)

/-- `sqadvance_tail` -/
def sqadvanceTail (s : Seqbuf) : Option Seqbuf :=
  if s.prev = some s.tail then some { s with prev := none, tail := s.beg }
  else (s.sqcalcNextWrp s.tail).map fun tail => { s with tail }

/-- `seqbuf_read` -/
def read (s : Seqbuf) (len : Nat) : Option (Int × List UInt8 × Seqbuf) :=
  if s.prev = none then some (0, [], s)
  else if len < s.itLen s.tail then some (swrap 32 (-s.itLen s.tail), [], s)
  else s.sqadvanceTail.map fun t => (swrap 32 (s.itLen s.tail), s.itData s.tail, t)

/-- `seqbuf_get`: the length and the bytes the returned pointer leads to. -/
def get (s : Seqbuf) : Option (Nat × List UInt8) :=
  if s.prev = none then none else some (s.itLen s.tail, s.itData s.tail)

/-- `seqbuf_put` -/
def put (s : Seqbuf) : Option Seqbuf :=
  (cAssert (s.prev ≠ none)).bind fun _ => s.sqadvanceTail

/-- One call. -/
def call (s : Seqbuf) : SeqCall → Option (SeqReply × Seqbuf)
  | .write data => (s.write data).map fun r => (.wrote r.1, r.2)
  | .read len => (s.read len).map fun r => (.read r.1 r.2.1, r.2.2)
  | .get => some (.got s.get, s)
  | .put => s.put.map fun t => (.put, t)

end Seqbuf

/-! ## A queue of records -/

/-- What a call on a queue of records may reply, and the queue it leaves.  A write may be
refused. -/
inductive Serves : List (List UInt8) → SeqCall → SeqReply → List (List UInt8) → Prop
  | wrote {q data} : 0 < data.length → Serves q (.write data) (.wrote data.length) (q ++ [data])
  | refused {q data} : Serves q (.write data) (.wrote 0) q
  | readNone {n} : Serves [] (.read n) (.read 0 []) []
  | readShort {n r q} : n < r.length → Serves (r :: q) (.read n) (.read (-r.length) []) (r :: q)
  | read {n r q} : r.length ≤ n → Serves (r :: q) (.read n) (.read r.length r) q
  | gotNone : Serves [] .get (.got none) []
  | got {r q} : Serves (r :: q) .get (.got (some (r.length, r))) (r :: q)
  | put {r q} : Serves (r :: q) .put .put q

/-- The calls of a run with their replies serve a queue that was empty at first. -/
inductive Served : List (SeqCall × SeqReply) → List (List UInt8) → Prop
  | start : Served [] []
  | call {log q c r q'} : Served log q → Serves q c r q' → Served (log ++ [(c, r)]) q'

/-- A buffer and the calls so far. -/
structure SeqRun where
  seq : Seqbuf
  log : List (SeqCall × SeqReply)

/-- One call; `none` is a failed assertion. -/
def SeqRun.step (s : SeqRun) (c : SeqCall) : Option SeqRun :=
  (s.seq.call c).map fun r => ⟨r.2, s.log ++ [(c, r.1)]⟩

/-! ## Chains of records -/

namespace Seqbuf

/-- A record in memory: its address and its bytes. -/
abbrev Item := Nat × List UInt8

/-- Behind the bytes of a record. -/
def Item.stop (r : Item) : Nat :=
  r.1 + 16 + r.2.length

/-- The header and the bytes of a record are in memory. -/
structure Stored (mem : Mem) (r : Item) : Prop where
  len : loadWord 8 mem r.1 = r.2.length
  data : load mem (r.1 + 16) r.2.length = r.2
  pos : 0 < r.2.length
  lt : r.2.length < 2 ^ 31

/-- Where the record ends with its waste. -/
def after (mem : Mem) (r : Item) : Nat :=
  Item.stop r + loadWord 8 mem (r.1 + 8)

/-- Records from one address to another, each behind the one before and its waste, on
multiples of the header size. -/
def Chain (mem : Mem) (beg : Nat) : Nat → List Item → Nat → Prop
  | lo, [], hi => lo = hi
  | lo, r :: rs, hi => r.1 = lo ∧ 16 ∣ lo - beg ∧ Stored mem r ∧ Chain mem beg (after mem r) rs hi

variable {mem mem' : Mem} {beg lo hi : Nat} {r : Item} {rs A B : List Item}

theorem stop_le_after : Item.stop r ≤ after mem r :=
  Nat.le_add_right _ _

theorem chain_append :
    Chain mem beg lo (A ++ B) hi ↔ ∃ mid, Chain mem beg lo A mid ∧ Chain mem beg mid B hi := by
  induction A generalizing lo with
  | nil => simp [Chain]
  | cons r A ih =>
      simp only [List.cons_append, Chain, ih]
      constructor
      · rintro ⟨hlo, hal, hstored, mid, hA, hB⟩
        exact ⟨mid, ⟨hlo, hal, hstored, hA⟩, hB⟩
      · rintro ⟨mid, ⟨hlo, hal, hstored, hA⟩, hB⟩
        exact ⟨hlo, hal, hstored, mid, hA, hB⟩

theorem Chain.le (h : Chain mem beg lo A hi) : lo ≤ hi := by
  induction A generalizing lo with
  | nil => exact le_of_eq h
  | cons r A ih =>
      obtain ⟨rfl, -, -, hrest⟩ := h
      have hstop : Item.stop r ≤ after mem r := stop_le_after
      have hle := ih hrest
      rw [Item.stop] at hstop
      omega

/-- A record of a chain lies between its ends. -/
theorem Chain.mem_bounds (h : Chain mem beg lo A hi) (hr : r ∈ A) :
    lo ≤ r.1 ∧ Item.stop r ≤ hi := by
  induction A generalizing lo with
  | nil => cases hr
  | cons r' A ih =>
      obtain ⟨rfl, -, -, hrest⟩ := h
      have hstop : Item.stop r' ≤ after mem r' := stop_le_after
      rcases List.mem_cons.mp hr with rfl | hr
      · exact ⟨le_rfl, hstop.trans hrest.le⟩
      · have hbounds := ih hrest hr
        rw [Item.stop] at hstop
        exact ⟨by omega, hbounds.2⟩

theorem Stored.congr (h : Stored mem r) (hsame : ∀ x, r.1 ≤ x → x < Item.stop r → mem' x = mem x) :
    Stored mem' r ∧ after mem' r = after mem r := by
  have hword (a : Nat) (hlo : r.1 ≤ a) (hhi : a + 8 ≤ r.1 + 16) :
      loadWord 8 mem' a = loadWord 8 mem a := by
    have hload : load mem' a 8 = load mem a 8 := by
      apply load_congr
      intro x hx hlt
      apply hsame x (by omega)
      rw [Item.stop]
      omega
    rw [loadWord, loadWord, hload]
  refine ⟨⟨(hword _ le_rfl (by omega)).trans h.len, ?_, h.pos, h.lt⟩, ?_⟩
  · rw [← h.data, length_load]
    apply load_congr
    intro x hx hlt
    apply hsame x (by omega)
    rw [Item.stop]
    omega
  · rw [after, after, hword _ (by omega) le_rfl]

/-- A chain does not feel a change of memory outside of it. -/
theorem Chain.congr (h : Chain mem beg lo A hi)
    (hsame : ∀ x, lo ≤ x → x < hi → mem' x = mem x) : Chain mem' beg lo A hi := by
  induction A generalizing lo with
  | nil => exact h
  | cons r A ih =>
      have hbounds := h.mem_bounds List.mem_cons_self
      obtain ⟨rfl, hal, hstored, hrest⟩ := h
      have hstop : Item.stop r ≤ after mem r := stop_le_after
      have hitem : ∀ x, r.1 ≤ x → x < Item.stop r → mem' x = mem x :=
        fun x hlo hhi => hsame x hlo (by omega)
      obtain ⟨hstored', hafter⟩ := hstored.congr hitem
      refine ⟨rfl, hal, hstored', ?_⟩
      rw [hafter]
      refine ih hrest fun x hlo hhi => hsame x ?_ hhi
      rw [Item.stop] at hstop
      omega

/-! ## The invariant -/

/-- The records of the buffer from the oldest to the newest.  Either they lie one behind
the other, or the older ones reach up to the end of the block and the newer ones start
at its beginning, in front of the oldest.  Nothing is said about the computed end of the
newest record. -/
inductive Holds (s : Seqbuf) : List Item → Prop
  | empty : s.prev = none → s.tail = s.beg → Holds s []
  | linear {A : List Item} {r : Item} {hi : Nat} : s.prev = some r.1 → s.beg ≤ s.tail →
      Chain s.mem s.beg s.tail (A ++ [r]) hi → 16 ∣ hi - s.beg → Item.stop r ≤ s.fin →
      Holds s (A ++ [r])
  | wrapped {A B : List Item} {r : Item} {hi : Nat} : s.prev = some r.1 → s.beg ≤ s.tail → A ≠ [] →
      Chain s.mem s.beg s.tail A s.fin → Chain s.mem s.beg s.beg (B ++ [r]) hi →
      16 ∣ hi - s.beg → Item.stop r ≤ s.tail → Holds s (A ++ (B ++ [r]))

/-- The computed end of the newest record does not lie beyond the space it was put into: up
to the oldest record if that is behind it, and else up to the end of the block. -/
def SpaceKnown (s : Seqbuf) : Prop :=
  ∀ prev, s.prev = some prev →
    prev + 16 + s.itLen prev + s.itWaste prev ≤ if prev < s.tail then s.tail else s.fin

/-- The same block, and nothing written outside of it. -/
structure Within (s t : Seqbuf) : Prop where
  beg : t.beg = s.beg
  len : t.len = s.len
  outside : ∀ x, x < s.beg ∨ s.fin ≤ x → t.mem x = s.mem x

theorem Within.refl (s : Seqbuf) : Within s s :=
  ⟨rfl, rfl, fun _ _ => rfl⟩

variable {s t : Seqbuf} {q : List Item}

/-! ## Positions -/

theorem sqalign_eq {x : Nat} (hx : x + 15 < 2 ^ 32) : sqalign x = (x + 15) / 16 * 16 := by
  have hmask : uwrap 32 (-16) = 2 ^ 32 - 2 ^ 4 := by decide +kernel
  have hsum : uwrap 64 ((x : Int) + 16 - 1) = x + 15 := by
    have hcast : (x : Int) + 16 - 1 = (x : Int) + (15 : Nat) := by omega
    rw [hcast, uwrap_add (by omega)]
  rw [sqalign, hsum, hmask, land_compl_mask (by decide) hx]
  norm_num

/-- The computed end of a stored record, where it lies in the block on a header boundary or
at the end. -/
theorem sqcalcNext_eq (hlen : s.len ≤ 2 ^ 32) (hr : Stored s.mem r) (hbeg : s.beg ≤ r.1)
    (hle : after s.mem r ≤ s.fin)
    (hal : 16 ∣ after s.mem r - s.beg ∨ after s.mem r = s.fin) :
    s.sqcalcNext r.1 = some (after s.mem r) := by
  have hend : s.fin = s.beg + s.len := rfl
  have hafter : after s.mem r = r.1 + 16 + r.2.length + s.itWaste r.1 := rfl
  have hitLen : s.itLen r.1 = r.2.length := hr.len
  have hopos : uwrap 64 ((r.1 : Int) - s.beg) = r.1 - s.beg := uwrap_sub hbeg (by omega)
  have hpos : uwrap 64 (r.1 - s.beg + 16 + r.2.length + s.itWaste r.1 : Nat) =
      after s.mem r - s.beg := by
    rw [uwrap_natCast (by omega)]
    omega
  have hassert : after s.mem r - s.beg ≤ s.len ∧
      (after s.mem r - s.beg = sqalign (after s.mem r - s.beg) ∨
        after s.mem r - s.beg = s.len) := by
    refine ⟨by omega, ?_⟩
    by_cases htop : after s.mem r - s.beg = s.len
    · exact Or.inr htop
    · rcases hal with ⟨k, hk⟩ | hfin
      · left
        rw [sqalign_eq (by omega)]
        omega
      · omega
  rw [sqcalcNext, hopos, hitLen, hpos, cAssert_bind hassert, Nat.add_sub_cancel' (by omega)]

theorem sqcalcNextWrp_eq (hlen : s.len ≤ 2 ^ 32) (hr : Stored s.mem r) (hbeg : s.beg ≤ r.1)
    (hle : after s.mem r ≤ s.fin)
    (hal : 16 ∣ after s.mem r - s.beg ∨ after s.mem r = s.fin) :
    s.sqcalcNextWrp r.1 = some (if after s.mem r = s.fin then s.beg else after s.mem r) := by
  have hiff : s.fin ≤ after s.mem r ↔ after s.mem r = s.fin :=
    ⟨fun h => Nat.le_antisymm hle h, fun h => h.ge⟩
  rw [sqcalcNextWrp, sqcalcNext_eq hlen hr hbeg hle hal, Option.map_some]
  simp only [hiff]

/-! ## Advancing the tail -/

/-- The oldest record goes. -/
theorem Holds.advance (hlen : s.len ≤ 2 ^ 32) (hs : s.Holds (r :: q)) :
    ∃ t, s.sqadvanceTail = some t ∧ t.Holds q ∧ Within s t := by
  generalize hq : r :: q = items at hs
  cases hs with
  | empty => cases hq
  | @linear A last hi hprev hbeg hchain hal hstop =>
      cases A with
      | nil =>
          cases hq
          obtain ⟨htail, -, -, -⟩ := hchain
          rw [sqadvanceTail, if_pos (by rw [hprev, htail])]
          exact ⟨_, rfl, .empty rfl rfl, rfl, rfl, fun _ _ => rfl⟩
      | cons a A =>
          obtain ⟨rfl, rfl⟩ := List.cons.inj hq
          obtain ⟨htail, halr, hstored, hrest⟩ := hchain
          have hlast := hrest.mem_bounds (List.mem_append_right A (List.mem_singleton_self last))
          have hstopr : Item.stop r ≤ after s.mem r := stop_le_after
          rw [Item.stop] at hstop hstopr
          have hne : s.prev ≠ some s.tail := by
            rw [hprev, ← htail]
            intro hsame
            have hpos := Option.some.inj hsame
            omega
          have hnext := sqcalcNextWrp_eq hlen hstored (by omega) (by omega) (by
            cases A with
            | nil => exact Or.inl (hrest.1 ▸ hrest.2.1)
            | cons a A => exact Or.inl (hrest.1 ▸ hrest.2.1))
          rw [if_neg (by omega)] at hnext
          rw [sqadvanceTail, if_neg hne, ← htail, hnext, Option.map_some]
          exact ⟨_, rfl, .linear hprev (by dsimp only; omega) hrest hal hstop, rfl, rfl,
            fun _ _ => rfl⟩
  | @wrapped A B last hi hprev hbeg hA holder hnewer hal hstop =>
      cases A with
      | nil => exact absurd rfl hA
      | cons a A =>
          obtain ⟨rfl, rfl⟩ := List.cons.inj hq
          obtain ⟨htail, halr, hstored, hrest⟩ := holder
          have hstopr : Item.stop r ≤ after s.mem r := stop_le_after
          have hle := hrest.le
          have hne : s.prev ≠ some s.tail := by
            rw [hprev]
            intro hsame
            have hpos := Option.some.inj hsame
            rw [Item.stop] at hstop
            omega
          cases A with
          | nil =>
              -- the last record before the end of the block
              have hfin : after s.mem r = s.fin := hrest
              have hnext := sqcalcNextWrp_eq hlen hstored (by omega) hle (Or.inr hfin)
              rw [if_pos hfin] at hnext
              rw [sqadvanceTail, if_neg hne, ← htail, hnext, Option.map_some]
              refine ⟨_, rfl, .linear hprev le_rfl hnewer hal ?_, rfl, rfl, fun _ _ => rfl⟩
              change Item.stop last ≤ s.fin
              rw [Item.stop] at hstopr
              omega
          | cons a A =>
              have hbounds := hrest.mem_bounds List.mem_cons_self
              have hposa : after s.mem r = a.1 := hrest.1.symm
              have hstopa : a.1 < Item.stop a := by
                rw [Item.stop]
                omega
              have hnext := sqcalcNextWrp_eq hlen hstored (by omega) hle
                (Or.inl (hrest.1 ▸ hrest.2.1))
              rw [if_neg (by omega)] at hnext
              rw [sqadvanceTail, if_neg hne, ← htail, hnext, Option.map_some]
              rw [Item.stop] at hstopr
              refine ⟨_, rfl, .wrapped hprev ?_ (List.cons_ne_nil a A) hrest hnewer hal ?_, rfl,
                rfl, fun _ _ => rfl⟩
              · dsimp only
                omega
              · dsimp only
                omega

/-! ## Writing -/

theorem reqLen_spec {data : List UInt8} (hlt : data.length < 2 ^ 31) :
    16 ∣ reqLen data ∧ data.length + 16 ≤ reqLen data ∧ reqLen data < 2 ^ 32 := by
  rw [reqLen, uwrap_natCast (by omega), sqalign_eq (by omega)]
  omega

/-- A new record, and the memory around it. -/
theorem putItem_spec {data : List UInt8} (itp : Nat) (hpos : 0 < data.length)
    (hlt : data.length < 2 ^ 31) :
    Stored (s.putItem itp (reqLen data) data).mem (itp, data) ∧
      after (s.putItem itp (reqLen data) data).mem (itp, data) = itp + 16 + reqLen data ∧
      ∀ x, x < itp ∨ itp + 16 + data.length ≤ x →
        (s.putItem itp (reqLen data) data).mem x = s.mem x := by
  obtain ⟨-, hle, hreq⟩ := reqLen_spec hlt
  have hwaste : uwrap 64 ((reqLen data : Int) - data.length) = reqLen data - data.length :=
    uwrap_sub (by omega) (by omega)
  refine ⟨⟨?_, load_store, hpos, hlt⟩, ?_, ?_⟩
  · change loadWord 8 (store _ (itp + 16) data) itp = data.length
    rw [loadWord_store_apart (by omega), loadWord_storeWord, Nat.mod_eq_of_lt (by omega)]
  · change itp + 16 + data.length + loadWord 8 (store _ (itp + 16) data) (itp + 8) = _
    rw [loadWord_store_apart (by omega), loadWord_storeWord_apart (by omega), loadWord_storeWord,
      hwaste, Nat.mod_eq_of_lt (by omega)]
    omega
  · intro x hx
    change store (storeWord 8 (storeWord 8 s.mem (itp + 8) _) itp _) (itp + 16) data x = _
    rw [store_outside (by omega), storeWord_outside (by omega), storeWord_outside (by omega)]

/-- A new record behind a chain. -/
theorem Chain.snoc {data : List UInt8} (hchain : Chain s.mem s.beg lo A hi)
    (hpos : 0 < data.length) (hlt : data.length < 2 ^ 31) (hal : 16 ∣ hi - s.beg) :
    Chain (s.putItem hi (reqLen data) data).mem s.beg lo (A ++ [(hi, data)])
      (hi + 16 + reqLen data) := by
  obtain ⟨hstored, hafter, hout⟩ := putItem_spec (s := s) hi hpos hlt
  refine chain_append.mpr ⟨hi, hchain.congr fun x _ hx => hout x (Or.inl hx), rfl, hal, hstored, ?_⟩
  rw [hafter]
  rfl

/-- The newest record gets the rest of the block. -/
theorem wasteRest_spec {itp : Nat} (hprev : s.prev = some r.1) (hsum : s.fin < 2 ^ 64)
    (hr : Stored s.mem r) (hafter : after s.mem r = itp) (hle : itp ≤ s.fin) :
    ∃ m, s.wasteRest itp = some { s with mem := m } ∧ Stored m r ∧ after m r = s.fin ∧
      ∀ x, x < r.1 + 8 ∨ r.1 + 16 ≤ x → m x = s.mem x := by
  have hword : itp = r.1 + 16 + r.2.length + s.itWaste r.1 := hafter.symm
  have hrest : uwrap 64 ((s.fin : Int) - itp) = s.fin - itp := uwrap_sub hle (by omega)
  have hwaste : uwrap 64 (s.itWaste r.1 + (s.fin - itp) : Nat) = s.itWaste r.1 + (s.fin - itp) :=
    uwrap_natCast (by omega)
  refine ⟨storeWord 8 s.mem (r.1 + 8) (s.itWaste r.1 + (s.fin - itp)), ?_, ⟨?_, ?_, hr.pos, hr.lt⟩,
    ?_, ?_⟩
  · rw [wasteRest, hprev]
    dsimp only
    rw [hrest, hwaste]
  · rw [loadWord_storeWord_apart (by omega), hr.len]
  · rw [load_storeWord_apart (by omega), hr.data]
  · change r.1 + 16 + r.2.length + loadWord 8 _ (r.1 + 8) = s.fin
    rw [loadWord_storeWord, Nat.mod_eq_of_lt (by omega)]
    omega
  · intro x hx
    exact storeWord_outside (by omega)

/-- What the positions of a block need: no sum of them wraps. -/
structure Addressed (s : Seqbuf) : Prop where
  beg_lt : s.beg < 2 ^ 32
  len_le : s.len ≤ 2 ^ 32

/-- The outcome of a write: refused, or the record is the newest one. -/
def WriteOk (s : Seqbuf) (q : List Item) (data : List UInt8) : Prop :=
  ∃ ret t, s.write data = some (ret, t) ∧ Within s t ∧
    (ret = 0 ∧ t = s ∨
      ret = data.length ∧ 0 < data.length ∧ ∃ p, t.Holds (q ++ [(p, data)]))

theorem writeOk_refused {avail : Nat} {data : List UInt8} (havail : s.sqcalcAvail = some avail)
    (hno : avail < reqLen data ∨ data.length = 0) : s.WriteOk q data := by
  refine ⟨0, s, ?_, Within.refl s, Or.inl ⟨rfl, rfl⟩⟩
  rw [write, havail, Option.bind_eq_bind, Option.bind_some]
  exact if_pos hno

/-- A write where the record fits behind the newest one. -/
theorem write_behind {avail itp : Nat} {data : List UInt8} (havail : s.sqcalcAvail = some avail)
    (hpos : s.writePos = some itp) (hyes : ¬(avail < reqLen data ∨ data.length = 0))
    (hroom : itp + reqLen data ≤ s.fin) :
    s.write data = some (swrap 32 data.length, s.putItem itp (reqLen data) data) := by
  rw [write, havail, Option.bind_eq_bind, Option.bind_some]
  dsimp only
  rw [if_neg hyes, hpos, Option.bind_eq_bind, Option.bind_some, if_neg (Nat.not_lt.mpr hroom)]

/-- A write at the beginning of the block. -/
theorem write_wrapped {avail itp : Nat} {data : List UInt8} (havail : s.sqcalcAvail = some avail)
    (hpos : s.writePos = some itp) (hyes : ¬(avail < reqLen data ∨ data.length = 0))
    (hroom : s.fin < itp + reqLen data) {m : Mem}
    (hwaste : s.wasteRest itp = some { s with mem := m }) (hfit : s.beg + reqLen data ≤ s.fin) :
    s.write data =
      some (swrap 32 data.length, putItem { s with mem := m } s.beg (reqLen data) data) := by
  rw [write, havail, Option.bind_eq_bind, Option.bind_some]
  dsimp only
  rw [if_neg hyes, hpos, Option.bind_eq_bind, Option.bind_some, if_pos hroom, hwaste,
    Option.bind_eq_bind, Option.bind_some]
  exact cAssert_bind hfit _

/-- The space behind the newest record, and in front of the oldest one. -/
theorem sqcalcAvail_eq (ha : s.Addressed) (hprev : s.prev = some r.1) (hr : Stored s.mem r)
    (hbeg : s.beg ≤ r.1) (htail : s.beg ≤ s.tail) (htail' : s.tail ≤ s.fin)
    (hle : after s.mem r ≤ s.fin) (hal : 16 ∣ after s.mem r - s.beg) :
    s.sqcalcAvail = some (if after s.mem r ≤ s.tail then s.tail - after s.mem r
      else max (s.fin - after s.mem r) (s.tail - s.beg)) ∧
      s.writePos = some (after s.mem r) := by
  have hend : s.fin = s.beg + s.len := rfl
  have hbeg_lt := ha.beg_lt
  have hlen_le := ha.len_le
  have hnext := sqcalcNext_eq ha.len_le hr hbeg hle (Or.inl hal)
  have hstop : Item.stop r ≤ after s.mem r := stop_le_after
  rw [Item.stop] at hstop
  obtain ⟨hi, hhi⟩ : ∃ hi, hi = after s.mem r := ⟨_, rfl⟩
  rw [← hhi] at hnext hle hstop ⊢
  have hpos : uwrap 64 ((hi : Int) - s.beg) = hi - s.beg := uwrap_sub (by omega) (by omega)
  have hfirst : uwrap 64 ((s.len : Int) - (hi - s.beg : Nat)) = s.fin - hi := by
    rw [uwrap_sub (by omega) (by omega)]
    omega
  have hsecond : uwrap 64 ((s.tail : Int) - s.beg) = s.tail - s.beg :=
    uwrap_sub htail (by omega)
  constructor
  · rw [sqcalcAvail, hprev]
    dsimp only
    rw [hnext, Option.map_some, hpos, hfirst, hsecond]
  · rw [writePos, hprev]
    exact hnext

theorem Within.putItem {itp req : Nat} {data : List UInt8} (hbeg : s.beg ≤ itp)
    (hout : ∀ x, x < itp ∨ itp + 16 + data.length ≤ x → (s.putItem itp req data).mem x = s.mem x)
    (hstop : itp + 16 + data.length ≤ s.fin) : Within s (s.putItem itp req data) where
  beg := rfl
  len := rfl
  outside := by
    intro x hx
    apply hout
    omega

/-- `seqbuf_write` keeps the records and adds the new one behind them, or refuses it. -/
theorem Holds.write (ha : s.Addressed) (hs : s.Holds q) (hspace : s.SpaceKnown)
    {data : List UInt8} (hlt : data.length < 2 ^ 31) : s.WriteOk q data := by
  have hend : s.fin = s.beg + s.len := rfl
  have hbeg_lt := ha.beg_lt
  have hlen_le := ha.len_le
  have hret : swrap 32 (data.length : Int) = data.length := swrap_natCast (by decide) hlt
  obtain ⟨hreq16, hreq, -⟩ := reqLen_spec hlt
  cases hs with
  | empty hprev htail =>
      have havail : s.sqcalcAvail = some s.len := by rw [sqcalcAvail, hprev]
      have hpos : s.writePos = some s.beg := by rw [writePos, hprev]
      by_cases hno : s.len < reqLen data ∨ data.length = 0
      · exact writeOk_refused havail hno
      have hlen : 0 < data.length := by omega
      obtain ⟨-, -, hout⟩ := putItem_spec (s := s) s.beg hlen hlt
      have hnone : Chain s.mem s.beg s.tail [] s.beg := htail
      have hchain := hnone.snoc hlen hlt (by simp)
      refine ⟨_, _, write_behind havail hpos hno (by omega), Within.putItem le_rfl hout (by omega),
        Or.inr ⟨hret, hlen, s.beg, ?_⟩⟩
      refine .linear (A := []) rfl htail.ge hchain ?_ ?_
      · change 16 ∣ s.beg + 16 + reqLen data - s.beg
        omega
      · change s.beg + 16 + data.length ≤ s.fin
        omega
  | @linear A r hi hprev hbeg hchain hal hstop =>
      obtain ⟨mid, holder, rfl, hmidal, hstored, hafter⟩ := chain_append.mp hchain
      have hbounds := hchain.mem_bounds (List.mem_append_right A (List.mem_singleton_self r))
      rw [Item.stop] at hstop
      have hknown : after s.mem r ≤ s.fin := by
        have hle := hspace r.1 hprev
        rwa [if_neg (by omega), itLen, hstored.len] at hle
      change after s.mem r = hi at hafter
      rw [Item.stop] at hbounds
      have hspaces := sqcalcAvail_eq ha hprev hstored (by omega) hbeg (by omega) hknown
        (hafter ▸ hal)
      rw [hafter] at hspaces hknown
      obtain ⟨havail, hpos⟩ := hspaces
      rw [if_neg (by omega)] at havail
      by_cases hno : max (s.fin - hi) (s.tail - s.beg) < reqLen data ∨ data.length = 0
      · exact writeOk_refused havail hno
      have hlen : 0 < data.length := by omega
      by_cases hroom : hi + reqLen data ≤ s.fin
      · -- behind the newest record
        obtain ⟨-, -, hout⟩ := putItem_spec (s := s) hi hlen hlt
        have hnew := hchain.snoc hlen hlt hal
        refine ⟨_, _, write_behind havail hpos hno hroom,
          Within.putItem (by omega) hout (by omega), Or.inr ⟨hret, hlen, hi, ?_⟩⟩
        refine .linear rfl hbeg hnew ?_ ?_
        · change 16 ∣ hi + 16 + reqLen data - s.beg
          omega
        · change hi + 16 + data.length ≤ s.fin
          omega
      · -- at the beginning of the block, in front of the oldest record
        have hfront : reqLen data ≤ s.tail - s.beg := by omega
        obtain ⟨m, hwaste, hstored', hafter', hmem⟩ :=
          wasteRest_spec hprev (by omega) hstored hafter hknown
        obtain ⟨-, -, hout⟩ :=
          putItem_spec (s := { s with mem := m }) s.beg hlen hlt
        have hmid : Chain m s.beg s.tail (A ++ [r]) s.fin := by
          refine chain_append.mpr ⟨r.1, ?_, rfl, hmidal, hstored', hafter'⟩
          exact holder.congr fun x _ hx => hmem x (by omega)
        have hold : Chain (putItem { s with mem := m } s.beg (reqLen data) data).mem s.beg s.tail
            (A ++ [r]) s.fin := hmid.congr fun x hx _ => hout x (by omega)
        have hnone : Chain m s.beg s.beg [] s.beg := rfl
        have hnew := Chain.snoc (s := { s with mem := m }) hnone hlen hlt (by simp)
        refine ⟨_, _, write_wrapped havail hpos hno (by omega) hwaste (by omega), ?_,
          Or.inr ⟨hret, hlen, s.beg, ?_⟩⟩
        · refine ⟨rfl, rfl, fun x hx => (hout x ?_).trans (hmem x ?_)⟩
          · omega
          · omega
        · refine .wrapped (B := []) rfl hbeg (by simp) hold hnew ?_ ?_
          · change 16 ∣ s.beg + 16 + reqLen data - s.beg
            omega
          · change s.beg + 16 + data.length ≤ s.tail
            omega
  | @wrapped A B r hi hprev hbeg hA holder hnewer hal hstop =>
      obtain ⟨mid, -, rfl, hmidal, hstored, hafter⟩ := chain_append.mp hnewer
      have hbounds := hnewer.mem_bounds (List.mem_append_right B (List.mem_singleton_self r))
      have htail := holder.le
      rw [Item.stop] at hstop hbounds
      have hknown : after s.mem r ≤ s.tail := by
        have hle := hspace r.1 hprev
        rwa [if_pos (by omega), itLen, hstored.len] at hle
      change after s.mem r = hi at hafter
      have hspaces := sqcalcAvail_eq ha hprev hstored (by omega) hbeg htail (by omega)
        (hafter ▸ hal)
      rw [hafter] at hspaces hknown
      obtain ⟨havail, hpos⟩ := hspaces
      rw [if_pos hknown] at havail
      by_cases hno : s.tail - hi < reqLen data ∨ data.length = 0
      · exact writeOk_refused havail hno
      have hlen : 0 < data.length := by omega
      obtain ⟨-, -, hout⟩ := putItem_spec (s := s) hi hlen hlt
      have hnew := hnewer.snoc hlen hlt hal
      have hold : Chain (s.putItem hi (reqLen data) data).mem s.beg s.tail A s.fin :=
        holder.congr fun x hx _ => hout x (by omega)
      refine ⟨_, _, write_behind havail hpos hno (by omega),
        Within.putItem (by omega) hout (by omega), Or.inr ⟨hret, hlen, hi, ?_⟩⟩
      rw [List.append_assoc]
      refine .wrapped rfl hbeg hA hold hnew ?_ ?_
      · change 16 ∣ hi + 16 + reqLen data - s.beg
        omega
      · change hi + 16 + data.length ≤ s.tail
        omega

/-! ## The calls -/

theorem Holds.prev_eq_none (hs : s.Holds []) : s.prev = none := by
  generalize hq : ([] : List Item) = items at hs
  cases hs with
  | empty hprev _ => exact hprev
  | linear => simp at hq
  | wrapped => simp at hq

/-- The oldest record is where the tail points. -/
theorem Holds.front (hs : s.Holds (r :: q)) : s.prev ≠ none ∧ s.tail = r.1 ∧ Stored s.mem r := by
  generalize hq : r :: q = items at hs
  cases hs with
  | empty => cases hq
  | @linear A last hi hprev hbeg hchain hal hstop =>
      rw [← hq] at hchain
      exact ⟨by simp [hprev], hchain.1.symm, hchain.2.2.1⟩
  | @wrapped A B last hi hprev hbeg hA holder hnewer hal hstop =>
      cases A with
      | nil => exact absurd rfl hA
      | cons a A =>
          obtain ⟨rfl, -⟩ := List.cons.inj hq
          exact ⟨by simp [hprev], holder.1.symm, holder.2.2.1⟩

theorem Stored.itLen (hr : Stored s.mem r) : s.itLen r.1 = r.2.length :=
  hr.len

theorem Stored.itData (hr : Stored s.mem r) : s.itData r.1 = r.2 := by
  rw [Seqbuf.itData, hr.itLen, hr.data]

/-- What the caller and the space of the newest record have to meet. -/
def CallOk (s : Seqbuf) : SeqCall → Prop
  | .write data => data.length < 2 ^ 31 ∧ s.SpaceKnown
  | .put => s.prev ≠ none
  | _ => True

instance (s : Seqbuf) : Decidable s.SpaceKnown :=
  match hprev : s.prev with
  | none => .isTrue fun prev h => by simp [hprev] at h
  | some p =>
      decidable_of_iff
        (p + 16 + s.itLen p + s.itWaste p ≤ if p < s.tail then s.tail else s.fin)
        (by simp only [SpaceKnown, hprev, Option.some.injEq, forall_eq'])

instance (s : Seqbuf) (c : SeqCall) : Decidable (s.CallOk c) :=
  match c with
  | .write data => inferInstanceAs (Decidable (data.length < 2 ^ 31 ∧ s.SpaceKnown))
  | .read _ => .isTrue trivial
  | .get => .isTrue trivial
  | .put => inferInstanceAs (Decidable (s.prev ≠ none))

/-- Every call serves the records in order. -/
theorem Holds.call (ha : s.Addressed) (hs : s.Holds q) {c : SeqCall} (hc : s.CallOk c) :
    ∃ reply t q', s.call c = some (reply, t) ∧ Within s t ∧
      Serves (q.map Prod.snd) c reply (q'.map Prod.snd) ∧ t.Holds q' := by
  cases c with
  | write data =>
      obtain ⟨ret, t, hwrite, hwithin, ⟨rfl, rfl⟩ | ⟨rfl, hlen, p, ht⟩⟩ := hs.write ha hc.2 hc.1
      · exact ⟨.wrote 0, t, q, by rw [Seqbuf.call, hwrite, Option.map_some], hwithin, .refused, hs⟩
      · refine ⟨.wrote data.length, t, q ++ [(p, data)], ?_, hwithin, ?_, ht⟩
        · rw [Seqbuf.call, hwrite, Option.map_some]
        · rw [List.map_append]
          exact .wrote hlen
  | read n =>
      cases q with
      | nil =>
          refine ⟨.read 0 [], s, [], ?_, Within.refl s, .readNone, hs⟩
          rw [Seqbuf.call, Seqbuf.read, if_pos hs.prev_eq_none, Option.map_some]
      | cons r q =>
          obtain ⟨hprev, htail, hr⟩ := hs.front
          have hpos := hr.pos
          have hlt := hr.lt
          rw [Seqbuf.call, Seqbuf.read, if_neg hprev, htail, hr.itLen, hr.itData]
          by_cases hshort : n < r.2.length
          · have hret : swrap 32 (-(r.2.length : Int)) = -r.2.length :=
              swrap_of_range (by decide) (by omega) (by omega)
            rw [if_pos hshort, hret]
            exact ⟨_, s, r :: q, rfl, Within.refl s, .readShort hshort, hs⟩
          · have hret : swrap 32 (r.2.length : Int) = r.2.length :=
              swrap_natCast (by decide) hlt
            obtain ⟨t, hadvance, ht, hwithin⟩ := hs.advance ha.len_le
            rw [if_neg hshort, hret, hadvance]
            exact ⟨_, t, q, rfl, hwithin, .read (Nat.not_lt.mp hshort), ht⟩
  | get =>
      cases q with
      | nil =>
          refine ⟨.got none, s, [], ?_, Within.refl s, .gotNone, hs⟩
          rw [Seqbuf.call, Seqbuf.get, if_pos hs.prev_eq_none]
      | cons r q =>
          obtain ⟨hprev, htail, hr⟩ := hs.front
          rw [Seqbuf.call, Seqbuf.get, if_neg hprev, htail, hr.itLen, hr.itData]
          exact ⟨_, s, r :: q, rfl, Within.refl s, .got, hs⟩
  | put =>
      cases q with
      | nil => exact absurd hs.prev_eq_none hc
      | cons r q =>
          obtain ⟨t, hadvance, ht, hwithin⟩ := hs.advance ha.len_le
          refine ⟨.put, t, q, ?_, hwithin, .put, ht⟩
          rw [Seqbuf.call, Seqbuf.put, cAssert_bind hs.front.1, hadvance, Option.map_some]

/-! ## Runs -/

/-- The block starts inside of the caller's buffer, and all offsets in it fit 32 bits. -/
theorem addressed_init {buffer len : Nat} (hbeg : buffer ≤ sqalign buffer)
    (hlen : sqalign buffer - buffer ≤ len) (hle : len ≤ 2 ^ 32) (mem : Mem) :
    (init buffer len mem).Addressed ∧
      (init buffer len mem).fin = buffer + len := by
  have hlt : sqalign buffer < 2 ^ 32 :=
    (Nat.and_le_right).trans_lt (by decide +kernel)
  have hpad : uwrap 64 ((sqalign buffer : Int) - buffer) = sqalign buffer - buffer :=
    uwrap_sub hbeg (by omega)
  have hrest : uwrap 64 ((len : Int) - (sqalign buffer - buffer : Nat)) =
      len - (sqalign buffer - buffer) := uwrap_sub hlen (by omega)
  have hfield : (init buffer len mem).len = len - (sqalign buffer - buffer) := by
    rw [init, hpad, hrest]
  refine ⟨⟨hlt, by omega⟩, ?_⟩
  change sqalign buffer + (init buffer len mem).len = _
  omega

end Seqbuf

namespace SeqRun

open Seqbuf

/-- A run of a new buffer. -/
def init (buffer len : Nat) (mem : Mem) : SeqRun :=
  ⟨Seqbuf.init buffer len mem, []⟩

/-- The calls so far served a queue of records, and wrote inside of the block only. -/
def Good (s₀ : Seqbuf) (s : SeqRun) : Prop :=
  (∃ q, Served s.log q) ∧ ∀ x, x < s₀.beg ∨ s₀.fin ≤ x → s.seq.mem x = s₀.mem x

/-- The invariant of a run. -/
def Inv (s₀ : Seqbuf) (s : SeqRun) : Prop :=
  s.seq.Addressed ∧ Within s₀ s.seq ∧ ∃ q, s.seq.Holds q ∧ Served s.log (q.map Prod.snd)

theorem step_inv {s₀ : Seqbuf} {s : SeqRun} {c : SeqCall} (hs : s.Inv s₀) (hc : s.seq.CallOk c) :
    ∃ t, s.step c = some t ∧ t.Inv s₀ := by
  obtain ⟨ha, hwithin, q, hholds, hserved⟩ := hs
  obtain ⟨reply, t, q', hcall, hsame, hserves, ht⟩ := hholds.call ha hc
  refine ⟨⟨t, s.log ++ [(c, reply)]⟩, ?_, ⟨?_, ?_⟩, ⟨?_, ?_, ?_⟩, q', ht, hserved.call hserves⟩
  · rw [step, hcall, Option.map_some]
  · exact hsame.beg ▸ ha.beg_lt
  · exact hsame.len ▸ ha.len_le
  · exact hsame.beg.trans hwithin.beg
  · exact hsame.len.trans hwithin.len
  · intro x hx
    refine (hsame.outside x ?_).trans (hwithin.outside x hx)
    rw [fin, hwithin.beg, hwithin.len]
    exact hx

/-- In a buffer whose aligned start lies inside of it and whose offsets fit 32 bits, every run
serves the written records in order and never writes outside, as long as no write follows
a record whose computed end lies beyond its space. -/
theorem serves_in_order {buffer len : Nat} (hbeg : buffer ≤ sqalign buffer)
    (hlen : sqalign buffer - buffer ≤ len) (hle : len ≤ 2 ^ 32) (mem : Mem) (cs : List SeqCall)
    (hok : Run.Admits step (fun s c => s.seq.CallOk c) (init buffer len mem) cs) :
    ∃ t, Run.run step (init buffer len mem) cs = some t ∧
      t.Good (Seqbuf.init buffer len mem) := by
  have hinv : (init buffer len mem).Inv (Seqbuf.init buffer len mem) :=
    ⟨(addressed_init hbeg hlen hle mem).1, Within.refl _, [], .empty rfl rfl, .start⟩
  obtain ⟨t, hrun, -, hwithin, q, -, hserved⟩ :=
    Run.run_isSome (fun s c hs hc => step_inv hs hc) hinv hok
  exact ⟨t, hrun, ⟨_, hserved⟩, hwithin.outside⟩

/-- A run around the end of a block of 192 bytes. -/
theorem serves_in_order_around_the_end :
    ∃ t, Run.run step (init 4090 198 fun _ => 0) [.write [1, 2, 3], .write (.replicate 40 4), .get,
        .read 2, .read 3, .write (.replicate 10 5), .put, .write [6], .read 64, .get] = some t ∧
      t.Good (Seqbuf.init 4090 198 fun _ => 0) :=
  serves_in_order (by decide +kernel) (by decide +kernel) (by decide) _ _ (by decide +kernel)

/-- A record that fills the block exactly makes the next write fail an assertion. -/
theorem exact_fit_aborts :
    ¬∀ (buffer len : Nat) (mem : Mem) (cs : List SeqCall),
      ∃ t, Run.run step (init buffer len mem) cs = some t ∧
        t.Good (Seqbuf.init buffer len mem) := by
  intro hall
  have heval : (Run.run step (init 4096 32 fun _ => 0)
      [.write (.replicate 16 7), .write [1]]).isNone = true := by
    decide +kernel
  obtain ⟨t, hrun, -⟩ := hall 4096 32 (fun _ => 0) [.write (.replicate 16 7), .write [1]]
  rw [hrun] at heval
  cases heval

end SeqRun

end Queues
end Dosemu
