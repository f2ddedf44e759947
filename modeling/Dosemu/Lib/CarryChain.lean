import Mathlib.Tactic

/-!
# Carries and borrows

The carries out of all places of a sum, and the borrows of a difference, can be computed from the
operands and the result by three bitwise operations.  The two top ones tell of signed overflow.

Main results:

- Theorems `getLsbD_carries`, `getLsbD_borrows`: the bits of the two words.
- Theorems `overflow_add`, `overflow_sub`: signed overflow from the two top places.
-/

namespace CarryChain

variable {w m i : Nat}

/-- The sum with a carry -/
def addc (x y : BitVec w) (c : Bool) : BitVec w :=
  x + y + (BitVec.ofBool c).setWidth w

/-- The difference with a borrow -/
def subc (x y : BitVec w) (c : Bool) : BitVec w :=
  x - y - (BitVec.ofBool c).setWidth w

/-- The carries out of the places of a sum `r` -/
def carries (x y r : BitVec m) : BitVec m :=
  x &&& y ||| (x ||| y) &&& ~~~r

/-- The borrow from place `i` -/
def borrow (i : Nat) (x y : BitVec w) (c : Bool) : Bool :=
  decide (x.toNat % 2 ^ i < y.toNat % 2 ^ i + c.toNat)

/-- The borrows of the places of a difference `r` -/
def borrows (x y r : BitVec m) : BitVec m :=
  ~~~x &&& y ||| (~~~x ^^^ y) &&& r

/-! ## Carries -/

theorem getLsbD_addc (x y : BitVec w) (c : Bool) (hi : i < w) :
    (addc x y c).getLsbD i = (x.getLsbD i ^^ (y.getLsbD i ^^ BitVec.carry i x y c)) :=
  BitVec.getLsbD_add_add_bool hi x y c

/-- The carry out of a place, from the operands and the sum -/
theorem getLsbD_carries {x y : BitVec w} {c : Bool} {x' y' r' : BitVec m} (hi : i < w) (him : i < m)
    (hx : x'.getLsbD i = x.getLsbD i) (hy : y'.getLsbD i = y.getLsbD i)
    (hr : r'.getLsbD i = (addc x y c).getLsbD i) :
    (carries x' y' r').getLsbD i = BitVec.carry (i + 1) x y c := by
  unfold carries
  rw [BitVec.getLsbD_or, BitVec.getLsbD_and, BitVec.getLsbD_and, BitVec.getLsbD_or,
    BitVec.getLsbD_not, hx, hy, hr, getLsbD_addc x y c hi, BitVec.carry_succ,
    decide_eq_true him]
  cases x.getLsbD i <;> cases y.getLsbD i <;> simp

/-! ## Borrows -/

/-- A difference is the sum with the complement. -/
theorem subc_eq_addc (x y : BitVec w) (c : Bool) : subc x y c = addc x (~~~y) (!c) := by
  have hcarry : (BitVec.ofBool (!c)).setWidth w = 1#w - (BitVec.ofBool c).setWidth w := by
    have hone : (BitVec.ofBool true).setWidth w = 1#w :=
      BitVec.setWidth_ofNat_one_eq_ofNat_one_of_lt Nat.one_pos
    have hzero : (BitVec.ofBool false).setWidth w = 0#w := BitVec.setWidth_zero w 1
    cases c
    · rw [Bool.not_false, hone, hzero, BitVec.sub_zero]
    · rw [Bool.not_true, hone, hzero, BitVec.sub_self]
  unfold subc addc
  rw [hcarry, BitVec.sub_eq_add_neg x y, BitVec.neg_eq_not_add, BitVec.sub_eq_add_neg,
    BitVec.sub_eq_add_neg, BitVec.add_assoc, BitVec.add_assoc, BitVec.add_assoc]

theorem borrow_eq (x y : BitVec w) (c : Bool) (hi : i ≤ w) :
    borrow i x y c = !BitVec.carry i x (~~~y) (!c) := by
  have hpos : 0 < 2 ^ i := Nat.two_pow_pos i
  have hnot : (~~~y).toNat % 2 ^ i = 2 ^ i - 1 - y.toNat % 2 ^ i := by
    rw [← BitVec.toNat_setWidth, BitVec.setWidth_not hi, BitVec.toNat_not, BitVec.toNat_setWidth]
  have hy := Nat.mod_lt y.toNat hpos
  unfold borrow BitVec.carry
  rw [hnot, ← decide_not, decide_eq_decide]
  cases c
  · simp
    omega
  · simp
    omega

theorem getLsbD_subc (x y : BitVec w) (c : Bool) (hi : i < w) :
    (subc x y c).getLsbD i = (x.getLsbD i ^^ (y.getLsbD i ^^ borrow i x y c)) := by
  rw [subc_eq_addc, getLsbD_addc x _ _ hi, borrow_eq x y c hi.le, BitVec.getLsbD_not,
    decide_eq_true hi]
  cases y.getLsbD i <;> simp

theorem getLsbD_borrows {x y : BitVec w} {c : Bool} {x' y' r' : BitVec m} (hi : i < w) (him : i < m)
    (hx : x'.getLsbD i = x.getLsbD i) (hy : y'.getLsbD i = y.getLsbD i)
    (hr : r'.getLsbD i = (subc x y c).getLsbD i) :
    (borrows x' y' r').getLsbD i = borrow (i + 1) x y c := by
  unfold borrows
  rw [borrow_eq x y c hi, BitVec.carry_succ, BitVec.getLsbD_or, BitVec.getLsbD_and,
    BitVec.getLsbD_and, BitVec.getLsbD_xor, BitVec.getLsbD_not, hx, hy, hr,
    getLsbD_subc x y c hi, borrow_eq x y c hi.le, BitVec.getLsbD_not, decide_eq_true him,
    decide_eq_true hi]
  cases x.getLsbD i <;> cases y.getLsbD i <;> simp

/-! ## Signed overflow -/

/-- The value of a word from that of its lower places -/
theorem toInt_eq (x : BitVec (w + 1)) :
    x.toInt = (x.toNat % 2 ^ w : Nat) - (if x.getLsbD w then 2 ^ w else 0 : Nat) := by
  have hlt := x.isLt
  have hmsb : x.getLsbD w = decide (2 ^ w ≤ x.toNat) :=
    (BitVec.msb_eq_getLsbD_last x).symm.trans (BitVec.msb_eq_decide x)
  rw [BitVec.toInt_eq_msb_cond, BitVec.msb_eq_getLsbD_last, Nat.add_sub_cancel, hmsb]
  rw [Nat.pow_succ] at hlt ⊢
  by_cases hhigh : 2 ^ w ≤ x.toNat
  · rw [decide_eq_true hhigh, if_pos rfl, if_pos rfl, Nat.mod_eq_sub_mod hhigh,
      Nat.mod_eq_of_lt (by omega)]
    omega
  · rw [decide_eq_false hhigh, if_neg (by decide), if_neg (by decide), Nat.mod_eq_of_lt (by omega)]
    omega

/-- The two top carries differ exactly if the sum does not fit. -/
theorem overflow_add (x y : BitVec (w + 1)) (c : Bool) :
    (BitVec.carry (w + 1) x y c ^^ BitVec.carry w x y c) =
      decide (x.toInt + y.toInt + c.toNat < -(2 ^ w : Nat) ∨
        (2 ^ w : Nat) ≤ x.toInt + y.toInt + c.toNat) := by
  have hpos : 0 < 2 ^ w := Nat.two_pow_pos w
  have hx := Nat.mod_lt x.toNat hpos
  have hy := Nat.mod_lt y.toNat hpos
  have hc := c.toNat_le
  have hlow : BitVec.carry w x y c = decide (2 ^ w ≤ x.toNat % 2 ^ w + y.toNat % 2 ^ w + c.toNat) :=
    rfl
  rw [BitVec.carry_succ, toInt_eq x, toInt_eq y, hlow]
  generalize x.toNat % 2 ^ w = a at *
  generalize y.toNat % 2 ^ w = b at *
  generalize 2 ^ w = p at *
  generalize c.toNat = d at *
  by_cases hcarry : p ≤ a + b + d
  · rw [decide_eq_true hcarry]
    cases x.getLsbD w <;> cases y.getLsbD w <;> simp <;> omega
  · rw [decide_eq_false hcarry]
    cases x.getLsbD w <;> cases y.getLsbD w <;> simp <;> omega

theorem borrow_succ (x y : BitVec w) (c : Bool) (hi : i < w) :
    borrow (i + 1) x y c = (!x.getLsbD i && y.getLsbD i ||
      (!x.getLsbD i ^^ y.getLsbD i) && borrow i x y c) := by
  rw [borrow_eq x y c hi, BitVec.carry_succ, borrow_eq x y c hi.le, BitVec.getLsbD_not,
    decide_eq_true hi]
  cases x.getLsbD i <;> cases y.getLsbD i <;> simp

/-- The two top borrows differ exactly if the difference does not fit. -/
theorem overflow_sub (x y : BitVec (w + 1)) (c : Bool) :
    (borrow (w + 1) x y c ^^ borrow w x y c) =
      decide (x.toInt - y.toInt - c.toNat < -(2 ^ w : Nat) ∨
        (2 ^ w : Nat) ≤ x.toInt - y.toInt - c.toNat) := by
  have hpos : 0 < 2 ^ w := Nat.two_pow_pos w
  have hx := Nat.mod_lt x.toNat hpos
  have hy := Nat.mod_lt y.toNat hpos
  have hc := c.toNat_le
  have hlow : borrow w x y c = decide (x.toNat % 2 ^ w < y.toNat % 2 ^ w + c.toNat) := rfl
  rw [borrow_succ x y c (Nat.lt_succ_self w), toInt_eq x, toInt_eq y, hlow]
  generalize x.toNat % 2 ^ w = a at *
  generalize y.toNat % 2 ^ w = b at *
  generalize 2 ^ w = p at *
  generalize c.toNat = d at *
  by_cases hborrow : a < b + d
  · rw [decide_eq_true hborrow]
    cases x.getLsbD w <;> cases y.getLsbD w <;> simp <;> omega
  · rw [decide_eq_false hborrow]
    cases x.getLsbD w <;> cases y.getLsbD w <;> simp <;> omega

end CarryChain
