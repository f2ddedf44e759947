import Mathlib.Tactic

/-!
# Byte memory

A memory as a function from addresses to bytes, with copies of byte strings and
little-endian words of any width.

Main results:

- Theorem `load_store`: what is stored is what is loaded.
- Theorem `load_store_apart`: a store does not change what lies apart from it.
- Theorems `loadWord_storeWord` and `loadWord_store_apart`: the same for words.
-/

namespace Memory

/-- The bytes of an address space. -/
abbrev Mem := Nat → UInt8

/-- The `n` bytes from an address on. -/
def load (m : Mem) (a n : Nat) : List UInt8 :=
  (List.range n).map fun i => m (a + i)

/-- Write bytes from an address on. -/
def store (m : Mem) (a : Nat) (bs : List UInt8) : Mem := fun x =>
  if a ≤ x then (bs[x - a]?).getD (m x) else m x

/-- Write `n` bytes that are given by their index. -/
def fill (m : Mem) (a n : Nat) (f : Nat → UInt8) : Mem := fun x =>
  if a ≤ x ∧ x < a + n then f (x - a) else m x

variable {m m' : Mem} {a b n w v x : Nat} {bs : List UInt8} {f : Nat → UInt8}

theorem fill_inside {i : Nat} (h : i < n) : fill m a n f (a + i) = f i := by
  rw [fill, if_pos (by omega), Nat.add_sub_cancel_left]

theorem fill_outside (h : x < a ∨ a + n ≤ x) : fill m a n f x = m x := by
  rw [fill, if_neg (by omega)]

@[simp]
theorem length_load : (load m a n).length = n := by
  simp [load]

theorem store_outside (h : x < a ∨ a + bs.length ≤ x) : store m a bs x = m x := by
  rw [store]
  split
  · next hle => rw [List.getElem?_eq_none (by omega), Option.getD_none]
  · rfl

theorem load_congr (h : ∀ x, a ≤ x → x < a + n → m x = m' x) : load m a n = load m' a n := by
  apply List.map_congr_left
  intro i hi
  rw [List.mem_range] at hi
  exact h (a + i) (by omega) (by omega)

/-- What is stored is what is loaded. -/
theorem load_store : load (store m a bs) a bs.length = bs := by
  apply List.ext_getElem?
  intro i
  by_cases hi : i < bs.length
  · simp [load, store, hi]
  · rw [List.getElem?_eq_none (by simpa using hi), List.getElem?_eq_none (by omega)]

/-- A store does not change the bytes in front of it and behind it. -/
theorem load_store_apart (h : b + n ≤ a ∨ a + bs.length ≤ b) :
    load (store m a bs) b n = load m b n := by
  apply load_congr
  intro x hlo hhi
  apply store_outside
  omega

/-! ## Words -/

/-- The lowest `w` bytes of a number, the lowest one first. -/
def leBytes : Nat → Nat → List UInt8
  | 0, _ => []
  | w + 1, v => UInt8.ofNat v :: leBytes w (v / 256)

/-- The number with the given bytes. -/
def leValue : List UInt8 → Nat
  | [] => 0
  | b :: bs => b.toNat + 256 * leValue bs

@[simp]
theorem length_leBytes : (leBytes w v).length = w := by
  induction w generalizing v with
  | zero => rfl
  | succ w ih => rw [leBytes, List.length_cons, ih]

theorem leValue_leBytes : leValue (leBytes w v) = v % 256 ^ w := by
  induction w generalizing v with
  | zero => rw [leBytes, leValue, Nat.pow_zero, Nat.mod_one]
  | succ w ih =>
      have hbyte : (UInt8.ofNat v).toNat = v % 256 := UInt8.toNat_ofNat'
      rw [leBytes, leValue, ih, hbyte, Nat.pow_succ, Nat.mul_comm (256 ^ w), Nat.mod_mul]

theorem leValue_lt (bs : List UInt8) : leValue bs < 256 ^ bs.length := by
  induction bs with
  | nil => exact Nat.one_pos
  | cons b bs ih =>
      have hbyte : b.toNat < 256 := b.toNat_lt
      rw [leValue, List.length_cons, Nat.pow_succ]
      omega

/-- A word of `w` bytes. -/
@[irreducible]
def loadWord (w : Nat) (m : Mem) (a : Nat) : Nat :=
  leValue (load m a w)

theorem loadWord_lt (w : Nat) (m : Mem) (a : Nat) : loadWord w m a < 256 ^ w := by
  have hlt := leValue_lt (load m a w)
  rw [length_load] at hlt
  unfold loadWord
  exact hlt

/-- Write a word of `w` bytes. -/
def storeWord (w : Nat) (m : Mem) (a v : Nat) : Mem :=
  store m a (leBytes w v)

theorem loadWord_storeWord : loadWord w (storeWord w m a v) a = v % 256 ^ w := by
  have hload : load (store m a (leBytes w v)) a w = leBytes w v := by
    simpa only [length_leBytes] using @load_store m a (leBytes w v)
  rw [loadWord, storeWord, hload, leValue_leBytes]

theorem loadWord_store_apart (h : b + w ≤ a ∨ a + bs.length ≤ b) :
    loadWord w (store m a bs) b = loadWord w m b := by
  rw [loadWord, load_store_apart h, loadWord]

theorem loadWord_storeWord_apart {u : Nat} (h : b + w ≤ a ∨ a + u ≤ b) :
    loadWord w (storeWord u m a v) b = loadWord w m b :=
  loadWord_store_apart (by rwa [length_leBytes])

theorem load_storeWord_apart (h : b + n ≤ a ∨ a + w ≤ b) :
    load (storeWord w m a v) b n = load m b n :=
  load_store_apart (by rwa [length_leBytes])

theorem storeWord_outside (h : x < a ∨ a + w ≤ x) : storeWord w m a v x = m x :=
  store_outside (by rwa [length_leBytes])

end Memory
