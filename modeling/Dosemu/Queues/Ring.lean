import Dosemu.Lib.Circular
import Dosemu.Lib.Deque
import Dosemu.Lib.MachineInt
import Dosemu.Lib.Outcome

/-!
# The ring buffer of objects

The `rng_*` half of `ringbuf.c`: `objnum` objects of `objsize` bytes in one block of
memory, with the byte offset `tail` of the front object.  The fields are 32-bit words, so
every product and sum of the source wraps; a copy outside of the block, a failed assertion
and a remainder by zero are aborts.

Main results:

- Theorem `Shows.call`: every call moves the ring and a bounded deque in step.
- Theorem `refines_deque`: so does every sequence of calls, as long as twice the
  block is addressable with 32 bits.
-/

namespace Dosemu
namespace Queues

open Circular MachineInt

/-- The bytes at some pointer, by their offset. -/
abbrev Bytes := Nat → UInt8

/-- The first `len` bytes at a pointer. -/
def object (obj : Bytes) (len : Nat) : List UInt8 :=
  (List.range len).map obj

/-! ## The ring -/

/-- `struct rng_s`; `room` is the size of the block `buffer` points to. -/
structure Rng where
  buffer : Bytes
  room : Nat
  objnum : Nat
  objsize : Nat
  objcnt : Nat
  tail : Nat
  allowOvw : Int

/-- The returned number, and the objects stored at offsets from the caller's pointer. -/
structure Reply where
  ret : Int
  out : List (Nat × List UInt8)
deriving DecidableEq

/-- The calls of the interface; `buf` is whether a buffer is passed or `NULL`. -/
inductive Call
  | put (obj : Bytes)
  | push (obj : Bytes)
  | get (buf : Bool)
  | peek (idx : UInt32) (buf : Bool)
  | poke (idx : UInt32) (buf : Bytes)
  | add (num : Int) (buf : Bytes)
  | remove (num : Int) (buf : Bool)
  | clear
  | allowOvw (on : Int)

namespace Rng

/-- `rng_init`: the sizes are truncated when they are stored. -/
def init (objnum objsize : Nat) : Rng where
  buffer := fun _ => 0
  room := objnum * objsize
  objnum := uwrap 32 objnum
  objsize := uwrap 32 objsize
  objcnt := 0
  tail := 0
  allowOvw := 1

/-- The bytes of a pointer offset in the block. -/
def objectAt (r : Rng) (pos : Nat) : List UInt8 :=
  object (fun i => r.buffer (pos + i)) r.objsize

/-- `memcpy` of one object out of the block. -/
def load (r : Rng) (pos : Int) : Option (List UInt8) :=
  (cAssert (0 ≤ pos ∧ pos + r.objsize ≤ r.room)).bind fun _ => some (r.objectAt pos.toNat)

/-- `memcpy` of one object into the block. -/
def store (r : Rng) (pos : Int) (obj : Bytes) : Option Rng :=
  (cAssert (0 ≤ pos ∧ pos + r.objsize ≤ r.room)).bind fun _ => some
    { r with buffer := fun i =>
        if pos.toNat ≤ i ∧ i < pos.toNat + r.objsize then obj (i - pos.toNat) else r.buffer i }

/-- `pos % (rng->objnum * rng->objsize)` -/
def modRoom (r : Rng) (pos : Nat) : Option Nat :=
  (cAssert (uwrap 32 (r.objnum * r.objsize : Nat) ≠ 0)).bind fun _ =>
    some (pos % uwrap 32 (r.objnum * r.objsize : Nat))

/-- `rng_get` -/
def get (r : Rng) (buf : Bool) : Option (Reply × Rng) :=
  if r.objcnt = 0 then some (⟨0, []⟩, r)
  else do
    let out ← if buf then (r.load r.tail).map fun obj => [(0, obj)] else some []
    let tail ← r.modRoom (uwrap 32 (r.tail + r.objsize : Nat))
    some (⟨1, out⟩, { r with tail, objcnt := uwrap 32 ((r.objcnt : Int) - 1) })

/-- The offset of the object `idx`, as `rng_peek` and `rng_poke` compute it. -/
def objPos (r : Rng) (idx : UInt32) : Option Int :=
  (r.modRoom (uwrap 32 (r.tail + idx.toNat * r.objsize : Nat))).map fun pos : Nat => swrap 32 pos

/-- `rng_peek` -/
def peek (r : Rng) (idx : UInt32) (buf : Bool) : Option (Reply × Rng) :=
  if r.objcnt ≤ idx.toNat then some (⟨0, []⟩, r)
  else do
    let objPos ← r.objPos idx
    cAssert (buf = true)
    let obj ← r.load objPos
    some (⟨1, [(0, obj)]⟩, r)

/-- `rng_put` behind `rng->objcnt++`: an overfull ring drops its front. -/
def dropOver (r : Rng) : Option (Reply × Rng) := do
  let (ret, r) ←
    if r.objnum < r.objcnt then (r.get false).map fun p => ((0 : Int), p.2) else some (1, r)
  cAssert (r.objcnt ≤ r.objnum)
  some (⟨ret, []⟩, r)

/-- `rng_put` -/
def put (r : Rng) (obj : Bytes) : Option (Reply × Rng) := do
  let headPos ← r.modRoom (uwrap 32 (r.tail + r.objcnt * r.objsize : Nat))
  cAssert (headPos ≤ uwrap 32 (uwrap 32 ((r.objnum : Int) - 1) * r.objsize : Nat))
  cAssert (r.objcnt ≤ r.objnum)
  if r.objcnt = r.objnum ∧ r.allowOvw = 0 then some (⟨0, []⟩, r)
  else do
    let r ← r.store headPos obj
    dropOver { r with objcnt := uwrap 32 (r.objcnt + 1 : Nat) }

/-- The new `tail` of `rng_push`. -/
def pushTail (r : Rng) : Option Nat :=
  if r.tail < r.objsize then
    (cAssert (r.tail = 0)).bind fun _ =>
      some (uwrap 32 (r.objsize * uwrap 32 ((r.objnum : Int) - 1) : Nat))
  else some (uwrap 32 ((r.tail : Int) - r.objsize))

/-- `rng_push` behind `rng->objcnt++`: an overfull ring forgets its back. -/
def forgetOver (r : Rng) : Option (Reply × Rng) :=
  let ret := if r.objnum < r.objcnt then 0 else 1
  let objcnt := if r.objnum < r.objcnt then uwrap 32 ((r.objcnt : Int) - 1) else r.objcnt
  (cAssert (objcnt ≤ r.objnum)).bind fun _ => some (⟨ret, []⟩, { r with objcnt })

/-- `rng_push` -/
def push (r : Rng) (obj : Bytes) : Option (Reply × Rng) := do
  let tail ← r.pushTail
  let r ← store { r with tail } tail obj
  forgetOver { r with objcnt := uwrap 32 (r.objcnt + 1 : Nat) }

/-- `rng_poke` -/
def poke (r : Rng) (idx : UInt32) (buf : Bytes) : Option (Reply × Rng) :=
  if r.objcnt ≤ idx.toNat then some (⟨0, []⟩, r)
  else do
    let objPos ← r.objPos idx
    let r ← r.store objPos buf
    some (⟨1, []⟩, r)

/-- The loop of `rng_add` from round `i` on. -/
def addLoop (buf : Bytes) : Nat → Nat → Int → Rng → Option (Reply × Rng)
  | 0, _, ret, r => some (⟨ret, []⟩, r)
  | k + 1, i, ret, r => do
      let (reply, r') ← r.put fun j => buf (uwrap 32 (i * r.objsize : Nat) + j)
      addLoop buf k (i + 1) (ret + reply.ret) r'

/-- `rng_add` -/
def add (r : Rng) (num : Int) (buf : Bytes) : Option (Reply × Rng) :=
  r.addLoop buf num.toNat 0 0

/-- The loop of `rng_remove` from round `i` on. -/
def removeLoop (buf : Bool) : Nat → Nat → Reply → Rng → Option (Reply × Rng)
  | 0, _, acc, r => some (acc, r)
  | k + 1, i, acc, r =>
      if r.objcnt = 0 then some (acc, r)
      else do
        let (reply, r') ← r.get buf
        let out := reply.out.map fun p => (uwrap 32 (i * r.objsize : Nat) + p.1, p.2)
        removeLoop buf k (i + 1) ⟨acc.ret + reply.ret, acc.out ++ out⟩ r'

/-- `rng_remove` -/
def remove (r : Rng) (num : Int) (buf : Bool) : Option (Reply × Rng) :=
  r.removeLoop buf num.toNat 0 ⟨0, []⟩

/-- One call of the interface. -/
def call (r : Rng) : Call → Option (Reply × Rng)
  | .put obj => r.put obj
  | .push obj => r.push obj
  | .get buf => r.get buf
  | .peek idx buf => r.peek idx buf
  | .poke idx buf => r.poke idx buf
  | .add num buf => r.add num buf
  | .remove num buf => r.remove num buf
  | .clear => some (⟨0, []⟩, { r with objcnt := 0 })
  | .allowOvw on => some (⟨0, []⟩, { r with allowOvw := on })

/-- A sequence of calls, and their replies. -/
def calls (r : Rng) : List Call → Option (List Reply × Rng)
  | [] => some ([], r)
  | c :: cs => do
      let (reply, r) ← r.call c
      let (replies, r) ← r.calls cs
      some (reply :: replies, r)

end Rng

/-! ## The deque of objects -/

/-- The objects number `i`, `i + 1`, …, `i + k - 1` behind a pointer. -/
def objects (osz : Nat) (buf : Bytes) (i k : Nat) : List (List UInt8) :=
  (List.range' i k).map fun j => object (fun b => buf (j * osz + b)) osz

/-- What a call does to a deque of objects of `osz` bytes. -/
def Call.onDeque {n : Nat} (osz : Nat) (d : Deque (List UInt8) n) :
    Call → Reply × Deque (List UInt8) n
  | .put obj => (⟨(d.put (object obj osz)).1, []⟩, (d.put (object obj osz)).2)
  | .push obj => (⟨(d.push (object obj osz)).1, []⟩, (d.push (object obj osz)).2)
  | .get buf =>
      (⟨(d.remove 1).1.length, if buf then (d.remove 1).1.map fun a => (0, a) else []⟩,
        (d.remove 1).2)
  | .peek idx _ =>
      match d.items[idx.toNat]? with
      | none => (⟨0, []⟩, d)
      | some a => (⟨1, [(0, a)]⟩, d)
  | .poke idx buf =>
      (⟨(d.poke idx.toNat (object buf osz)).1, []⟩, (d.poke idx.toNat (object buf osz)).2)
  | .add num buf =>
      (⟨(d.add (objects osz buf 0 num.toNat)).1, []⟩, (d.add (objects osz buf 0 num.toNat)).2)
  | .remove num buf =>
      (⟨(d.remove num.toNat).1.length,
        if buf then (d.remove num.toNat).1.zipIdx.map fun p => (p.2 * osz, p.1) else []⟩,
        (d.remove num.toNat).2)
  | .clear => (⟨0, []⟩, d.clear)
  | .allowOvw on => (⟨0, []⟩, d.allowOvw (on ≠ 0))

/-- A sequence of calls on a deque, and their replies. -/
def callsOnDeque {n : Nat} (osz : Nat) (d : Deque (List UInt8) n) :
    List Call → List Reply × Deque (List UInt8) n
  | [] => ([], d)
  | c :: cs =>
      ((c.onDeque osz d).1 :: (callsOnDeque osz (c.onDeque osz d).2 cs).1,
        (callsOnDeque osz (c.onDeque osz d).2 cs).2)

/-- The caller passes a buffer to `rng_peek`, and the offsets in the one it passes to
`rng_add` fit a word. -/
def Call.Fits (osz : Nat) : Call → Prop
  | .peek _ buf => buf = true
  | .add num _ => num * osz ≤ 2 ^ 32
  | _ => True

/-- There are objects, and all the offsets of two turns around the ring fit a word. -/
structure Addressable (n osz : Nat) : Prop where
  num_pos : 0 < n
  size_pos : 0 < osz
  turns_lt : (2 * n - 1) * osz < 2 ^ 32

namespace Addressable

variable {n osz k : Nat}

theorem num_le (h : Addressable n osz) : n ≤ 2 ^ 31 := by
  have hle : 2 * n - 1 < 2 ^ 32 := by
    calc 2 * n - 1 = (2 * n - 1) * 1 := (Nat.mul_one _).symm
      _ ≤ (2 * n - 1) * osz := Nat.mul_le_mul_left _ h.size_pos
      _ < 2 ^ 32 := h.turns_lt
  omega

/-- The offset of any of the objects of two turns. -/
theorem offset_lt (h : Addressable n osz) (hk : k ≤ 2 * n - 1) : k * osz < 2 ^ 32 :=
  (Nat.mul_le_mul_right osz hk).trans_lt h.turns_lt

theorem uwrap_offset (h : Addressable n osz) (hk : k ≤ 2 * n - 1) :
    uwrap 32 (k * osz : Nat) = k * osz :=
  uwrap_natCast (h.offset_lt hk)

/-- An offset in the block is a positive `int`. -/
theorem swrap_offset (h : Addressable n osz) (hk : k < n) :
    swrap 32 (k * osz : Nat) = (k * osz : Nat) := by
  apply swrap_natCast (by decide)
  have htwice : 2 * k * osz < 2 ^ 32 := h.offset_lt (by omega)
  rw [Nat.mul_assoc] at htwice
  omega

end Addressable

/-! ## Slots -/

namespace Rng

variable {n osz : Nat} {r : Rng}

/-- The object in slot `k` of the block. -/
def cell (r : Rng) (osz k : Nat) : List UInt8 :=
  object (fun i => r.buffer (k * osz + i)) osz

/-- The fields of a ring of `n` objects whose front is in a slot, with `cnt` objects. -/
structure At (r : Rng) (n osz slot cnt : Nat) : Prop where
  objnum : r.objnum = n
  objsize : r.objsize = osz
  room : r.room = n * osz
  tail : r.tail = slot * osz
  objcnt : r.objcnt = cnt
  slot_lt : slot < n

/-- Two slots do not share a byte. -/
theorem slot_apart {j k i : Nat} (hi : i < osz) (hne : j ≠ k) :
    ¬(k * osz ≤ j * osz + i ∧ j * osz + i < k * osz + osz) := by
  rintro ⟨hlo, hhi⟩
  rcases Nat.lt_or_gt_of_ne hne with hlt | hgt
  · have hle : (j + 1) * osz ≤ k * osz := Nat.mul_le_mul_right osz hlt
    rw [Nat.succ_mul] at hle
    omega
  · have hle : (k + 1) * osz ≤ j * osz := Nat.mul_le_mul_right osz hgt
    rw [Nat.succ_mul] at hle
    omega

/-- A slot lies in the block. -/
theorem slot_inside {k : Nat} (hk : k < n) : k * osz + osz ≤ n * osz := by
  rw [← Nat.succ_mul]
  exact Nat.mul_le_mul_right osz hk

/-- A store to a slot. -/
def filled (r : Rng) (osz k : Nat) (obj : Bytes) : Rng :=
  { r with buffer := fun i =>
      if k * osz ≤ i ∧ i < k * osz + osz then obj (i - k * osz) else r.buffer i }

theorem store_slot {k : Nat} (hsize : r.objsize = osz) (hroom : r.room = n * osz) (hk : k < n)
    (obj : Bytes) : r.store (k * osz : Nat) obj = some (r.filled osz k obj) := by
  subst hsize
  have hinside : k * r.objsize + r.objsize ≤ n * r.objsize := slot_inside hk
  rw [store, cAssert_bind (by rw [hroom]; omega), Int.toNat_natCast]
  rfl

theorem cell_filled (r : Rng) (osz k : Nat) (obj : Bytes) :
    (r.filled osz k obj).cell osz = Function.update (r.cell osz) k (object obj osz) := by
  ext1 j
  by_cases hjk : j = k
  · subst hjk
    rw [Function.update_self]
    apply List.map_congr_left
    intro i hi
    rw [List.mem_range] at hi
    simp [filled, hi]
  · rw [Function.update_of_ne hjk]
    apply List.map_congr_left
    intro i hi
    rw [List.mem_range] at hi
    exact if_neg (slot_apart hi hjk)

theorem load_slot {k : Nat} (hsize : r.objsize = osz) (hroom : r.room = n * osz) (hk : k < n) :
    r.load (k * osz : Nat) = some (r.cell osz k) := by
  subst hsize
  have hinside : k * r.objsize + r.objsize ≤ n * r.objsize := slot_inside hk
  rw [load, cAssert_bind (by rw [hroom]; omega), Int.toNat_natCast]
  rfl

/-- The remainder of an offset is the offset of the slot's remainder. -/
theorem modRoom_slot (h : Addressable n osz) (hnum : r.objnum = n) (hsize : r.objsize = osz)
    (k : Nat) : r.modRoom (k * osz) = some (k % n * osz) := by
  have hn := h.num_pos
  have hne : n * osz ≠ 0 := Nat.mul_ne_zero h.num_pos.ne' h.size_pos.ne'
  rw [modRoom, hnum, hsize, h.uwrap_offset (by omega), cAssert_bind hne, Nat.mul_mod_mul_right]

/-- The front object, and the ring behind it. -/
theorem get_at {slot cnt : Nat} (h : Addressable n osz) (hr : r.At n osz slot (cnt + 1))
    (hcnt : cnt ≤ n) (buf : Bool) :
    r.get buf = some (⟨1, if buf then [(0, r.cell osz slot)] else []⟩,
      { r with tail := (slot + 1) % n * osz, objcnt := cnt }) := by
  have hslot := hr.slot_lt
  have hnum := h.num_le
  have hnext : uwrap 32 (r.tail + r.objsize : Nat) = (slot + 1) * osz := by
    rw [hr.tail, hr.objsize, ← Nat.succ_mul, h.uwrap_offset (by omega)]
  have hone : uwrap 32 ((r.objcnt : Int) - 1) = cnt := by
    have hle : 1 ≤ cnt + 1 := by omega
    rw [hr.objcnt]
    exact uwrap_sub (n := 1) hle (by omega)
  rw [get, if_neg (by rw [hr.objcnt]; omega), hnext, modRoom_slot h hr.objnum hr.objsize, hone,
    hr.tail, load_slot hr.objsize hr.room hslot]
  cases buf <;> rfl

/-- The ring holds the entries of the deque, from the front object on. -/
structure Shows (r : Rng) {n : Nat} (osz : Nat) (d : Deque (List UInt8) n) (slot : Nat) : Prop
    extends r.At n osz slot d.items.length where
  items : d.items = window (r.cell osz) n slot d.items.length
  ovw : d.ovw = decide (r.allowOvw ≠ 0)

theorem shows_init (h : Addressable n osz) :
    (init n osz).Shows osz (Deque.empty (List UInt8) n true) 0 where
  objnum := uwrap_natCast (h.num_le.trans_lt (by decide))
  objsize := by
    have hn := h.num_pos
    have hone := h.uwrap_offset (k := 1) (by omega)
    rwa [Nat.one_mul] at hone
  room := rfl
  tail := (Nat.zero_mul osz).symm
  objcnt := rfl
  slot_lt := h.num_pos
  items := rfl
  ovw := rfl

/-- The call returns what the deque returns and leaves a ring that shows the new deque. -/
def Matches (osz : Nat) (x : Option (Reply × Rng)) (y : Reply × Deque (List UInt8) n) : Prop :=
  ∃ r slot, x = some (y.1, r) ∧ r.Shows osz y.2 slot

/-! ## The calls -/

variable {d : Deque (List UInt8) n} {slot : Nat}

theorem Shows.get (h : Addressable n osz) (hr : r.Shows osz d slot) (buf : Bool) :
    Matches osz (r.get buf) ((Call.get buf).onDeque osz d) := by
  cases hitems : d.items with
  | nil =>
      have hcnt : r.objcnt = 0 := by rw [hr.objcnt, hitems]; rfl
      have hremove : d.remove 1 = ([], d) := by
        rw [Deque.remove]
        ext1 <;> simp [hitems, Deque.ext_iff]
      refine ⟨r, slot, ?_, ?_⟩
      · rw [Rng.get, if_pos hcnt, Call.onDeque, hremove]
        cases buf <;> rfl
      · rwa [Call.onDeque, hremove]
  | cons a as =>
      have hlen : d.items.length = as.length + 1 := by rw [hitems]; rfl
      have hle := d.length_le
      have hwin := hr.items
      rw [hlen, window_cons, Nat.mod_eq_of_lt hr.slot_lt, hitems, List.cons.injEq] at hwin
      have hrest : (d.remove 1).2.items = as := by simp [Deque.remove, hitems]
      refine ⟨{ r with tail := (slot + 1) % n * osz, objcnt := as.length }, (slot + 1) % n,
        ?_, ?_⟩
      · rw [get_at h (hlen ▸ hr.toAt) (by omega), Call.onDeque, ← hwin.1]
        cases buf <;> simp [Deque.remove, hitems]
      · rw [Call.onDeque]
        refine ⟨⟨hr.objnum, hr.objsize, hr.room, rfl, ?_, Nat.mod_lt _ h.num_pos⟩, ?_, hr.ovw⟩
        · rw [hrest]
        · rw [hrest, window_mod]
          exact hwin.2

theorem dropOver_full (h : Addressable n osz) (hr : r.At n osz slot (n + 1)) :
    r.dropOver = some (⟨0, []⟩, { r with tail := (slot + 1) % n * osz, objcnt := n }) := by
  have hover : r.objnum < r.objcnt := by
    rw [hr.objnum, hr.objcnt]
    omega
  rw [dropOver, if_pos hover, get_at h hr le_rfl]
  exact cAssert_bind hr.objnum.ge _

theorem dropOver_room (hle : r.objcnt ≤ r.objnum) : r.dropOver = some (⟨1, []⟩, r) := by
  rw [dropOver, if_neg (Nat.not_lt.mpr hle)]
  exact cAssert_bind hle _

/-- `rng_put` stores behind the back; a full ring then drops the front, or refuses. -/
theorem put_at {cnt : Nat} (h : Addressable n osz) (hr : r.At n osz slot cnt) (hle : cnt ≤ n)
    (obj : Bytes) :
    r.put obj =
      if cnt = n ∧ r.allowOvw = 0 then some (⟨0, []⟩, r)
      else dropOver { r.filled osz ((slot + cnt) % n) obj with objcnt := cnt + 1 } := by
  have hslot := hr.slot_lt
  have hn := h.num_pos
  have hlt := h.num_le
  have hpos : uwrap 32 (r.tail + r.objcnt * r.objsize : Nat) = (slot + cnt) * osz := by
    rw [hr.tail, hr.objsize, hr.objcnt, ← Nat.add_mul, h.uwrap_offset (by omega)]
  have hlast : uwrap 32 (uwrap 32 ((r.objnum : Int) - 1) * r.objsize : Nat) = (n - 1) * osz := by
    have hone : uwrap 32 ((n : Int) - 1) = n - 1 := uwrap_sub (n := 1) hn (by omega)
    rw [hr.objnum, hr.objsize, hone, h.uwrap_offset (by omega)]
  have hhead : (slot + cnt) % n < n := Nat.mod_lt _ hn
  have hhead_le : (slot + cnt) % n * osz ≤ (n - 1) * osz :=
    Nat.mul_le_mul_right osz (by omega)
  have hup : uwrap 32 (cnt + 1 : Nat) = cnt + 1 := uwrap_natCast (by omega)
  have hroom : r.objcnt ≤ r.objnum := by rw [hr.objcnt, hr.objnum]; exact hle
  rw [Rng.put, hpos, modRoom_slot h hr.objnum hr.objsize, hlast]
  simp only [Option.bind_eq_bind, Option.bind_some, cAssert_bind hhead_le, cAssert_bind hroom,
    store_slot hr.objsize hr.room hhead]
  rw [hr.objcnt, hr.objnum, ← hup]
  congr 2
  change { r.filled osz _ obj with objcnt := uwrap 32 (r.objcnt + 1 : Nat) } = _
  rw [hr.objcnt]

theorem Shows.put (h : Addressable n osz) (hr : r.Shows osz d slot) (obj : Bytes) :
    Matches osz (r.put obj) ((Call.put obj).onDeque osz d) := by
  have hle := d.length_le
  have hn := h.num_pos
  rw [put_at h hr.toAt hle, Call.onDeque]
  by_cases hfull : d.items.length = n
  · by_cases hovw : r.allowOvw = 0
    · rw [if_pos ⟨hfull, hovw⟩]
      have hput : d.put (object obj osz) = (0, d) := by
        simp [Deque.put, hfull, hr.ovw, hovw]
      rw [hput]
      exact ⟨r, slot, rfl, hr⟩
    · rw [if_neg fun hboth => hovw hboth.2, hfull]
      have hat : Rng.At { r.filled osz ((slot + n) % n) obj with objcnt := n + 1 } n osz slot
          (n + 1) := ⟨hr.objnum, hr.objsize, hr.room, hr.tail, rfl, hr.slot_lt⟩
      have hput : d.put (object obj osz) =
          (0, ⟨(d.items ++ [object obj osz]).tail, d.ovw, by simp [hfull]⟩) := by
        simp [Deque.put, hfull, hr.ovw, hovw]
      have hlen : (d.items ++ [object obj osz]).tail.length = n := by simp [hfull]
      rw [hput, dropOver_full h hat]
      refine ⟨_, (slot + 1) % n, rfl, ⟨hr.objnum, hr.objsize, hr.room, rfl, hlen.symm,
        Nat.mod_lt _ hn⟩, ?_, hr.ovw⟩
      obtain ⟨m, rfl⟩ : ∃ m, n = m + 1 := ⟨n - 1, by omega⟩
      have hitems := hr.items
      rw [hfull, window_cons, Nat.mod_eq_of_lt hr.slot_lt] at hitems
      have hback : slot + (m + 1) = slot + 1 + m := by omega
      change (d.items ++ [object obj osz]).tail =
        window ((r.filled osz ((slot + (m + 1)) % (m + 1)) obj).cell osz) (m + 1) _
          (d.items ++ [object obj osz]).tail.length
      rw [hlen, window_mod, cell_filled, hback, window_push (Nat.lt_succ_self m), hitems]
      rfl
  · have hput : d.put (object obj osz) = (1, ⟨d.items ++ [object obj osz], d.ovw, by
        simp only [List.length_append, List.length_singleton]
        omega⟩) := by
      simp [Deque.put, hfull]
    have hlen : (d.items ++ [object obj osz]).length = d.items.length + 1 := by simp
    rw [if_neg fun hboth => hfull hboth.1, hput, dropOver_room (by
      change d.items.length + 1 ≤ r.objnum
      rw [hr.objnum]
      omega)]
    refine ⟨_, slot, rfl, ⟨hr.objnum, hr.objsize, hr.room, hr.tail, hlen.symm, hr.slot_lt⟩, ?_,
      hr.ovw⟩
    change d.items ++ [object obj osz] = window ((r.filled osz _ obj).cell osz) n slot
      (d.items ++ [object obj osz]).length
    rw [hlen, cell_filled, window_push (by omega), ← hr.items]

/-- The slot in front of another one. -/
theorem pushTail_at {cnt front : Nat} (h : Addressable n osz) (hr : r.At n osz slot cnt)
    (hfront : front = if slot = 0 then n - 1 else slot - 1) : r.pushTail = some (front * osz) := by
  have hslot := hr.slot_lt
  have hlt := h.num_le
  have hosz := h.size_pos
  rw [pushTail, hr.tail, hr.objsize, hr.objnum, hfront]
  by_cases hzero : slot = 0
  · have hone : uwrap 32 ((n : Int) - 1) = n - 1 := uwrap_sub (n := 1) h.num_pos (by omega)
    have hprod : 0 * osz < osz := by omega
    rw [hzero, if_pos hprod, cAssert_bind (Nat.zero_mul osz), hone, Nat.mul_comm,
      h.uwrap_offset (by omega), if_pos rfl]
  · have hge : osz ≤ slot * osz := Nat.le_mul_of_pos_left osz (by omega)
    have hlast := h.offset_lt (k := slot) (by omega)
    rw [if_neg (Nat.not_lt.mpr hge), uwrap_sub hge (by omega), if_neg hzero, Nat.sub_mul,
      Nat.one_mul]

/-- `rng_push` stores in front of the front; a full ring forgets the back. -/
theorem push_at {cnt front : Nat} (h : Addressable n osz) (hr : r.At n osz slot cnt)
    (hle : cnt ≤ n) (hfront : front = if slot = 0 then n - 1 else slot - 1) (obj : Bytes) :
    r.push obj = some (⟨if cnt = n then 0 else 1, []⟩,
      { r.filled osz front obj with
        tail := front * osz, objcnt := if cnt = n then n else cnt + 1 }) := by
  have hslot := hr.slot_lt
  have hn := h.num_pos
  have hlt := h.num_le
  have hfront_lt : front < n := by
    rw [hfront]
    split <;> omega
  have hstore : store { r with tail := front * osz } (front * osz : Nat) obj =
      some (filled { r with tail := front * osz } osz front obj) :=
    store_slot (r := { r with tail := front * osz }) hr.objsize hr.room hfront_lt obj
  have hup : uwrap 32 (cnt + 1 : Nat) = cnt + 1 := uwrap_natCast (by omega)
  have hdown : uwrap 32 (((cnt + 1 : Nat) : Int) - 1) = cnt :=
    uwrap_sub (n := 1) (Nat.le_add_left 1 cnt) (by omega)
  rw [Rng.push, pushTail_at h hr hfront, Option.bind_eq_bind, Option.bind_some, hstore,
    Option.bind_eq_bind, Option.bind_some]
  simp only [filled, hr.objcnt, hup, forgetOver, hr.objnum, hdown]
  by_cases hfull : cnt = n
  · subst hfull
    simp only [Nat.lt_succ_self, if_true]
    exact cAssert_bind le_rfl _
  · have hroom : ¬n < cnt + 1 := by omega
    simp only [hroom, if_false, hfull]
    exact cAssert_bind (by omega) _

theorem Shows.push (h : Addressable n osz) (hr : r.Shows osz d slot) (obj : Bytes) :
    Matches osz (r.push obj) ((Call.push obj).onDeque osz d) := by
  have hle := d.length_le
  have hn := h.num_pos
  have hslot := hr.slot_lt
  obtain ⟨front, hfront⟩ : ∃ front, front = if slot = 0 then n - 1 else slot - 1 := ⟨_, rfl⟩
  have hfront_lt : front < n := by
    rw [hfront]
    split <;> omega
  have hnext : (front + 1) % n = slot := by
    rw [hfront]
    split
    · next hzero => rw [Nat.sub_add_cancel hn, Nat.mod_self, hzero]
    · next hzero => rw [Nat.sub_add_cancel (by omega), Nat.mod_eq_of_lt hslot]
  have hitems := hr.items
  rw [← hnext, window_mod] at hitems
  rw [push_at h hr.toAt hle hfront, Call.onDeque]
  by_cases hfull : d.items.length = n
  · have hput : d.push (object obj osz) =
        (0, ⟨(object obj osz :: d.items).dropLast, d.ovw, by simp [hfull]⟩) := by
      simp [Deque.push, hfull]
    have hlen : (object obj osz :: d.items).dropLast.length = n := by simp [hfull]
    rw [hput, if_pos hfull, if_pos hfull]
    refine ⟨_, front, rfl, ⟨hr.objnum, hr.objsize, hr.room, rfl, hlen.symm, hfront_lt⟩, ?_, hr.ovw⟩
    change (object obj osz :: d.items).dropLast =
      window ((r.filled osz front obj).cell osz) n front (object obj osz :: d.items).dropLast.length
    obtain ⟨m, rfl⟩ : ∃ m, n = m + 1 := ⟨n - 1, by omega⟩
    rw [hlen, cell_filled, window_unshift (Nat.lt_succ_self m) hfront_lt, hitems, hfull,
      window_succ, ← List.cons_append, List.dropLast_concat]
  · have hput : d.push (object obj osz) = (1, ⟨object obj osz :: d.items, d.ovw, by
        simp only [List.length_cons]
        omega⟩) := by
      simp [Deque.push, hfull]
    rw [hput, if_neg hfull, if_neg hfull]
    refine ⟨_, front, rfl, ⟨hr.objnum, hr.objsize, hr.room, rfl, rfl, hfront_lt⟩, ?_, hr.ovw⟩
    change object obj osz :: d.items =
      window ((r.filled osz front obj).cell osz) n front (d.items.length + 1)
    rw [cell_filled, window_unshift (by omega) hfront_lt, ← hitems]

/-- The offset of an object of the ring. -/
theorem objPos_at {cnt : Nat} {idx : UInt32} (h : Addressable n osz) (hr : r.At n osz slot cnt)
    (hle : cnt ≤ n) (hidx : idx.toNat < cnt) :
    r.objPos idx = some (((slot + idx.toNat) % n * osz : Nat) : Int) := by
  have hslot := hr.slot_lt
  have hpos : uwrap 32 (r.tail + idx.toNat * r.objsize : Nat) = (slot + idx.toNat) * osz := by
    rw [hr.tail, hr.objsize, ← Nat.add_mul, h.uwrap_offset (by omega)]
  rw [objPos, hpos, modRoom_slot h hr.objnum hr.objsize, Option.map_some,
    h.swrap_offset (Nat.mod_lt _ h.num_pos)]

theorem Shows.peek (h : Addressable n osz) (hr : r.Shows osz d slot) (idx : UInt32) :
    Matches osz (r.peek idx true) ((Call.peek idx true).onDeque osz d) := by
  refine ⟨r, slot, ?_, ?_⟩
  · by_cases hidx : idx.toNat < d.items.length
    · have hcnt : ¬r.objcnt ≤ idx.toNat := by
        rw [hr.objcnt]
        exact Nat.not_le.mpr hidx
      have hentry : d.items[idx.toNat]? = some (r.cell osz ((slot + idx.toNat) % n)) := by
        rw [hr.items, getElem?_window hidx]
      rw [Rng.peek, if_neg hcnt, objPos_at h hr.toAt d.length_le hidx, Option.bind_eq_bind,
        Option.bind_some, load_slot hr.objsize hr.room (Nat.mod_lt _ h.num_pos)]
      simp only [Call.onDeque, hentry]
      rfl
    · have hcnt : r.objcnt ≤ idx.toNat := by
        rw [hr.objcnt]
        exact Nat.not_lt.mp hidx
      rw [Rng.peek, if_pos hcnt]
      simp only [Call.onDeque, List.getElem?_eq_none (Nat.not_lt.mp hidx)]
  · rw [Call.onDeque]
    cases d.items[idx.toNat]? <;> exact hr

theorem Shows.poke (h : Addressable n osz) (hr : r.Shows osz d slot) (idx : UInt32) (buf : Bytes) :
    Matches osz (r.poke idx buf) ((Call.poke idx buf).onDeque osz d) := by
  have hle := d.length_le
  have hlen : (d.items.set idx.toNat (object buf osz)).length = d.items.length :=
    List.length_set
  rw [Call.onDeque, Deque.poke]
  by_cases hidx : idx.toNat < d.items.length
  · have hcnt : ¬r.objcnt ≤ idx.toNat := by
      rw [hr.objcnt]
      exact Nat.not_le.mpr hidx
    rw [Rng.poke, if_neg hcnt, objPos_at h hr.toAt hle hidx, Option.bind_eq_bind,
      Option.bind_some, store_slot hr.objsize hr.room (Nat.mod_lt _ h.num_pos), if_pos hidx]
    refine ⟨_, slot, rfl, ⟨hr.objnum, hr.objsize, hr.room, hr.tail, ?_, hr.slot_lt⟩, ?_, hr.ovw⟩
    · exact hr.objcnt.trans hlen.symm
    · dsimp only
      rw [hlen, cell_filled, window_update hle (by omega), ← hr.items]
  · have hcnt : r.objcnt ≤ idx.toNat := by
      rw [hr.objcnt]
      exact Nat.not_lt.mp hidx
    have hsame : d.items.set idx.toNat (object buf osz) = d.items :=
      List.set_eq_of_length_le (Nat.not_lt.mp hidx)
    rw [Rng.poke, if_pos hcnt, if_neg hidx]
    refine ⟨r, slot, rfl, ⟨hr.objnum, hr.objsize, hr.room, hr.tail, ?_, hr.slot_lt⟩, ?_, hr.ovw⟩
    · exact hr.objcnt.trans hlen.symm
    · dsimp only
      rw [hsame]
      exact hr.items

/-- The loop of `rng_add`, by induction on the rounds that are left. -/
theorem Shows.addLoop (h : Addressable n osz) (hr : r.Shows osz d slot) (buf : Bytes) (k i : Nat)
    (ret : Int) (hfits : (i + k) * osz ≤ 2 ^ 32) :
    Matches osz (r.addLoop buf k i ret)
      (⟨ret + (d.add (objects osz buf i k)).1, []⟩, (d.add (objects osz buf i k)).2) := by
  induction k generalizing r d slot i ret with
  | zero => exact ⟨r, slot, by simp [Rng.addLoop, objects, Deque.add], hr⟩
  | succ k ih =>
      have hi : i * osz < 2 ^ 32 := by
        have hosz := h.size_pos
        have hexpand : (i + (k + 1)) * osz = i * osz + k * osz + osz := by ring
        omega
      have hoff : uwrap 32 (i * r.objsize : Nat) = i * osz := by
        rw [hr.objsize, uwrap_natCast hi]
      rcases hr.put h fun b => buf (i * osz + b) with ⟨r', slot', hput, hr'⟩
      rcases ih hr' (i + 1) (ret + (d.put (object (fun b => buf (i * osz + b)) osz)).1)
        (by rwa [Nat.add_assoc, Nat.add_comm 1 k]) with ⟨r'', slot'', hloop, hr''⟩
      rw [Rng.addLoop, hoff, hput, objects, List.range'_succ, List.map_cons, Deque.add,
        ← Int.add_assoc]
      exact ⟨r'', slot'', hloop, hr''⟩

/-- The objects a removal stores, by their offsets in the caller's buffer. -/
def removed (osz : Nat) (as : List (List UInt8)) (i : Nat) : List (Nat × List UInt8) :=
  (as.zipIdx i).map fun p => (p.2 * osz, p.1)

/-- The loop of `rng_remove`, by induction on the rounds that are left. -/
theorem Shows.removeLoop (h : Addressable n osz) (hr : r.Shows osz d slot) (buf : Bool)
    (k i : Nat) (acc : Reply) (hfits : i + d.items.length ≤ n) :
    Matches osz (r.removeLoop buf k i acc)
      (⟨acc.ret + (d.remove k).1.length,
        acc.out ++ if buf then removed osz (d.remove k).1 i else []⟩, (d.remove k).2) := by
  induction k generalizing r d slot i acc with
  | zero =>
      refine ⟨r, slot, ?_, ?_⟩
      · cases buf <;> simp [Rng.removeLoop, Deque.remove, removed]
      · simpa [Deque.remove] using hr
  | succ k ih =>
      cases hitems : d.items with
      | nil =>
          have hcnt : r.objcnt = 0 := by rw [hr.objcnt, hitems]; rfl
          have hremove : d.remove (k + 1) = ([], d) := by
            rw [Deque.remove]
            ext1 <;> simp [hitems, Deque.ext_iff]
          refine ⟨r, slot, ?_, ?_⟩
          · rw [Rng.removeLoop, if_pos hcnt, hremove]
            cases buf <;> simp [removed]
          · rwa [hremove]
      | cons a as =>
          have hlen : d.items.length = as.length + 1 := by rw [hitems]; rfl
          have hcnt : r.objcnt ≠ 0 := by rw [hr.objcnt, hlen]; omega
          have hoff : uwrap 32 (i * r.objsize : Nat) = i * osz := by
            rw [hr.objsize, h.uwrap_offset (by omega)]
          have hfirst : (d.remove 1).1 = [a] := by simp [Deque.remove, hitems]
          have hrest : (d.remove 1).2.items = as := by simp [Deque.remove, hitems]
          rcases hr.get h buf with ⟨r', slot', hget, hr'⟩
          rcases ih hr' (i + 1) ⟨acc.ret + 1,
            acc.out ++ if buf then [(i * osz, a)] else []⟩ (by
              rw [show ((Call.get buf).onDeque osz d).2.items = as from hrest]
              omega) with ⟨r'', slot'', hloop, hr''⟩
          refine ⟨r'', slot'', ?_, ?_⟩
          · rw [Rng.removeLoop, if_neg hcnt, hget, hoff, Deque.remove_succ, hfirst]
            cases buf with
            | false =>
                simp only [Call.onDeque, hfirst] at hloop ⊢
                refine hloop.trans ?_
                simp [Int.add_assoc, Int.add_comm 1]
            | true =>
                simp only [Call.onDeque, hfirst] at hloop ⊢
                refine hloop.trans ?_
                simp [removed, Int.add_assoc, Int.add_comm 1]
          · rw [Deque.remove_succ]
            exact hr''

theorem Shows.add (h : Addressable n osz) (hr : r.Shows osz d slot) (num : Int) (buf : Bytes)
    (hfits : num * osz ≤ 2 ^ 32) :
    Matches osz (r.add num buf) ((Call.add num buf).onDeque osz d) := by
  have hbound : (0 + num.toNat) * osz ≤ 2 ^ 32 := by
    rw [Nat.zero_add]
    rcases Int.le_total 0 num with hpos | hneg
    · lift num to Nat using hpos
      exact_mod_cast hfits
    · rw [Int.toNat_of_nonpos hneg]
      omega
  have hloop := hr.addLoop h buf num.toNat 0 0 hbound
  rwa [Int.zero_add] at hloop

theorem Shows.remove (h : Addressable n osz) (hr : r.Shows osz d slot) (num : Int) (buf : Bool) :
    Matches osz (r.remove num buf) ((Call.remove num buf).onDeque osz d) := by
  have hle := d.length_le
  have hloop := hr.removeLoop h buf num.toNat 0 ⟨0, []⟩ (by omega)
  rwa [Int.zero_add, List.nil_append] at hloop

/-- Every call moves the ring and the deque in step. -/
theorem Shows.call (h : Addressable n osz) (hr : r.Shows osz d slot) {c : Call}
    (hc : c.Fits osz) : Matches osz (r.call c) (c.onDeque osz d) := by
  cases c with
  | put obj => exact hr.put h obj
  | push obj => exact hr.push h obj
  | get buf => exact hr.get h buf
  | peek idx buf =>
      rw [show buf = true from hc]
      exact hr.peek h idx
  | poke idx buf => exact hr.poke h idx buf
  | add num buf => exact hr.add h num buf hc
  | remove num buf => exact hr.remove h num buf
  | clear =>
      exact ⟨_, slot, rfl, ⟨hr.objnum, hr.objsize, hr.room, hr.tail, rfl, hr.slot_lt⟩, rfl, hr.ovw⟩
  | allowOvw on =>
      exact ⟨_, slot, rfl, ⟨hr.objnum, hr.objsize, hr.room, hr.tail, hr.objcnt, hr.slot_lt⟩,
        hr.items, rfl⟩

/-- So does every sequence of calls. -/
theorem Shows.calls (h : Addressable n osz) (hr : r.Shows osz d slot) {cs : List Call}
    (hcs : ∀ c ∈ cs, c.Fits osz) :
    ∃ r' slot', r.calls cs = some ((callsOnDeque osz d cs).1, r') ∧
      r'.Shows osz (callsOnDeque osz d cs).2 slot' := by
  induction cs generalizing r d slot with
  | nil => exact ⟨r, slot, rfl, hr⟩
  | cons c cs ih =>
      rcases hr.call h (hcs c List.mem_cons_self) with ⟨r', slot', hcall, hr'⟩
      rcases ih hr' fun c' hc' => hcs c' (List.mem_cons_of_mem c hc') with ⟨r'', slot'', hrest, hr''⟩
      refine ⟨r'', slot'', ?_, hr''⟩
      rw [Rng.calls, hcall, Option.bind_eq_bind, Option.bind_some]
      dsimp only
      rw [hrest]
      rfl

/-! ## The contract -/

/-- A ring whose offsets for two turns fit 32 bits replies to every sequence of calls as the
bounded deque does, without an abort, and holds the entries of the deque afterwards. -/
theorem refines_deque (h : Addressable n osz) (cs : List Call) (hcs : ∀ c ∈ cs, c.Fits osz) :
    let d := callsOnDeque osz (Deque.empty (List UInt8) n true) cs
    ∃ r slot, (init n osz).calls cs = some (d.1, r) ∧ r.Shows osz d.2 slot :=
  (shows_init h).calls h hcs

/-- A ring of two objects through a wrap of both ends. -/
theorem refines_deque_pair :
    let cs := [.push fun _ => 1, .put fun _ => 2, .put fun _ => 3, .peek 1 true,
      .poke 0 fun _ => 4, .remove 2 true, .add 3 fun i => i.toUInt8, .allowOvw 0, .get false, .clear]
    let d := callsOnDeque 4 (Deque.empty (List UInt8) 2 true) cs
    ∃ r slot, (init 2 4).calls cs = some (d.1, r) ∧ r.Shows 4 d.2 slot :=
  refines_deque ⟨by decide, by decide, by decide⟩ _ (by simp [Call.Fits])

/-- What a push and two puts leave in a deque of two. -/
theorem items_after_overwrite (osz : Nat) (a b c : Bytes) :
    (callsOnDeque osz (Deque.empty (List UInt8) 2 true) [.push a, .put b, .put c]).2.items =
      [object b osz, object c osz] := by
  simp [callsOnDeque, Call.onDeque, Deque.empty, Deque.push, Deque.put]

/-- With two objects of 1.5 GiB the overwriting put stores at a wrapped offset. -/
theorem overwrite_at_wrapped_offset :
    ¬∀ (n osz : Nat) (cs : List Call), 0 < n → (∀ c ∈ cs, c.Fits osz) →
      let d := callsOnDeque osz (Deque.empty (List UInt8) n true) cs
      ∃ r slot, (init n osz).calls cs = some (d.1, r) ∧ r.Shows osz d.2 slot := by
  intro hall
  have heval : ((init 2 1610612736).calls
      [.push fun _ => 0, .put fun _ => 0, .put fun _ => 1]).map
        (fun p => (p.2.tail, p.2.buffer 3221225471)) = some (0, 0) := by
    decide +kernel
  obtain ⟨r, slot, hrun, hr⟩ := hall 2 1610612736
    [.push fun _ => 0, .put fun _ => 0, .put fun _ => 1] (by decide) (by simp [Call.Fits])
  rw [hrun, Option.map_some, Option.some.injEq, Prod.mk.injEq] at heval
  have hitems := hr.items
  have htail := hr.tail
  rw [items_after_overwrite] at hitems
  rw [heval.1] at htail
  have hslot : slot = 0 := by omega
  -- the last byte of the second object
  have hcell : object (fun _ => 1) 1610612736 = r.cell 1610612736 1 := by
    rw [hslot] at hitems
    exact (List.cons.inj (List.cons.inj hitems).2).1
  generalize hosz : 1610612736 = osz at hcell
  have hbyte := congrArg (fun l : List UInt8 => l[osz - 1]?) hcell
  have hlast : osz - 1 < osz := by omega
  have hpos : osz + (osz - 1) = 3221225471 := by omega
  simp only [object, cell, List.getElem?_map, List.getElem?_range hlast, Option.map_some,
    Option.some.injEq, Nat.one_mul, hpos] at hbyte
  have hzero : r.buffer 3221225471 = 0 := heval.2
  rw [hzero] at hbyte
  exact absurd hbyte (by decide)

end Rng
end Queues
end Dosemu
