import Dosemu.Lib.MachineInt

/-!
# Page rounding

`PAGE_ALIGN` in words of 32 and 64 bits, and the rounding of unbounded numbers
it stands for.  The two agree as long as the word does not wrap.

Main results:

- Theorem `pageAlign32_eq`: without a wrap the word is rounded up to pages.
- Theorem `pageAlign32_dvd`: with or without one, the result is a multiple of
  the page size.
-/

namespace MachineInt

/-- `PAGE_ALIGN` of a 32-bit word. -/
def pageAlign32 (addr : Nat) : Nat :=
  uwrap 32 (addr + 4095) &&& (2 ^ 32 - 2 ^ 12)

/-- `PAGE_ALIGN` of a 64-bit word. -/
def pageAlign64 (size : Nat) : Nat :=
  uwrap 64 (size + 4095) &&& (2 ^ 64 - 2 ^ 12)

/-- A size rounded up to whole pages. -/
def pageUp (n : Nat) : Nat :=
  (n + 4095) / 4096 * 4096

/-- The mask expression as a division. -/
theorem pageAlign32_eq_div (addr : Nat) :
    pageAlign32 addr = uwrap 32 (addr + 4095) / 4096 * 4096 := by
  have hmask := land_compl_mask (show 12 ≤ 32 by decide) (uwrap_lt 32 ((addr : Int) + 4095))
  simpa [pageAlign32] using hmask

/-- Without a wrap the word is rounded up to whole pages. -/
theorem pageAlign32_eq {n : Nat} (hn : n + 4095 < 2 ^ 32) : pageAlign32 n = pageUp n := by
  have hsum : uwrap 32 ((n : Int) + 4095) = n + 4095 := by
    have := uwrap_add (show n + 4095 < 2 ^ 32 from hn)
    simpa using this
  rw [pageAlign32_eq_div, hsum, pageUp]

/-- The rounded word is a multiple of the page size. -/
theorem pageAlign32_dvd (n : Nat) : 4096 ∣ pageAlign32 n := by
  rw [pageAlign32_eq_div]
  exact Dvd.intro_left _ rfl

/-- Rounding up does not go below. -/
theorem le_pageUp (n : Nat) : n ≤ pageUp n := by
  unfold pageUp
  omega

end MachineInt
