import Dosemu.Lib.Run
import Dosemu.Simx86.CodeMarks

/-!
# The query for marked code

`e_querymark` tests the marks of a range in 64-bit words, with masks at both
ends, and takes the map of the next megabyte when it gets there.  It gives up at
the first megabyte that has no map, and it takes the end of a range that reaches
up to 4G for address 0.

Main results:

- Theorem `eQuerymark_eq_true_iff`: the query finds the marked bytes before
  `queryStop` that no megabyte without a map comes before.
- Theorem `query_exact_iff`: when it finds a mark exactly if there is one.
-/

namespace Dosemu
namespace Simx86

open BitWords
open Run

namespace Marks

variable {s : Marks} {a lo hi n idx : Nat} {m : MpMap}

/-- No byte of `[lo, hi)` is marked. -/
def Clear (s : Marks) (lo hi : Nat) : Prop :=
  ∀ x, lo ≤ x → x < hi → s.marked x = false

/-- Every megabyte that `[lo, hi)` touches has a map. -/
def AllMapped (s : Marks) (lo hi : Nat) : Prop :=
  ∀ k, lo / 1048576 ≤ k → k * 1048576 < hi → s.mapped k

/-- The bits of a word of the map are the marks of its 64 bytes. -/
theorem getLsbD_subpage (hmap : s.mapAt (a / 1048576) = some m) (ha : a % 64 = 0) {j : Nat}
    (hj : j < 64) : (m.subpage (a % 1048576 / 64)).getLsbD j = s.marked (a + j) := by
  have hmega : (a + j) / 1048576 = a / 1048576 := by omega
  have hdiv : (a + j) % 1048576 / 64 = a % 1048576 / 64 := by omega
  have hmod : (a + j) % 1048576 % 64 = j := by omega
  rw [marked_eq (hmega ▸ hmap), testBit, hdiv, hmod]

theorem subpage_ne_zero_iff (hmap : s.mapAt (a / 1048576) = some m) (ha : a % 64 = 0) :
    m.subpage (a % 1048576 / 64) ≠ 0#64 ↔ ∃ x, a ≤ x ∧ x < a + 64 ∧ s.marked x = true := by
  rw [word_ne_zero_iff]
  constructor
  · rintro ⟨j, hj, hbit⟩
    rw [getLsbD_subpage hmap ha hj] at hbit
    exact ⟨a + j, by omega, by omega, hbit⟩
  · rintro ⟨x, hlo, hhi, hx⟩
    refine ⟨x - a, by omega, ?_⟩
    rw [getLsbD_subpage hmap ha (by omega), show a + (x - a) = x by omega]
    exact hx

theorem subpage_from_ne_zero_iff (hmap : s.mapAt (a / 1048576) = some m) :
    m.subpage (a % 1048576 / 64) &&& (BitVec.allOnes 64 <<< (a % 64)) ≠ 0#64 ↔
      ∃ x, a ≤ x ∧ x < a / 64 * 64 + 64 ∧ s.marked x = true := by
  obtain ⟨b, j, rfl, hb, hj⟩ : ∃ b j, a = b + j ∧ b % 64 = 0 ∧ j < 64 :=
    ⟨a / 64 * 64, a % 64, by omega, by omega, by omega⟩
  have hmega : (b + j) / 1048576 = b / 1048576 := by omega
  have hword : (b + j) % 1048576 / 64 = b % 1048576 / 64 := by omega
  have hbit : (b + j) % 64 = j := by omega
  have hround : (b + j) / 64 * 64 = b := by omega
  rw [hword, hbit, hround, and_from_ne_zero_iff]
  constructor
  · rintro ⟨i, hji, hi, hset⟩
    rw [getLsbD_subpage (hmega ▸ hmap) hb hi] at hset
    exact ⟨b + i, by omega, by omega, hset⟩
  · rintro ⟨x, hlo, hhi, hx⟩
    refine ⟨x - b, by omega, by omega, ?_⟩
    rw [getLsbD_subpage (hmega ▸ hmap) hb (by omega), show b + (x - b) = x by omega]
    exact hx

theorem subpage_below_ne_zero_iff (hmap : s.mapAt (a / 1048576) = some m) :
    m.subpage (a % 1048576 / 64) &&& (BitVec.twoPow 64 (a % 64) - 1#64) ≠ 0#64 ↔
      ∃ x, a / 64 * 64 ≤ x ∧ x < a ∧ s.marked x = true := by
  obtain ⟨b, j, rfl, hb, hj⟩ : ∃ b j, a = b + j ∧ b % 64 = 0 ∧ j < 64 :=
    ⟨a / 64 * 64, a % 64, by omega, by omega, by omega⟩
  have hmega : (b + j) / 1048576 = b / 1048576 := by omega
  have hword : (b + j) % 1048576 / 64 = b % 1048576 / 64 := by omega
  have hbit : (b + j) % 64 = j := by omega
  have hround : (b + j) / 64 * 64 = b := by omega
  rw [hword, hbit, hround, and_below_ne_zero_iff hj]
  constructor
  · rintro ⟨i, hi, hset⟩
    rw [getLsbD_subpage (hmega ▸ hmap) hb (by omega)] at hset
    exact ⟨b + i, by omega, by omega, hset⟩
  · rintro ⟨x, hlo, hhi, hx⟩
    refine ⟨x - b, by omega, ?_⟩
    rw [getLsbD_subpage (hmega ▸ hmap) hb (by omega), show b + (x - b) = x by omega]
    exact hx

/-! ## The loop over whole words -/

/-- The pointer and the index are those of an address, or the address is the first
of a megabyte, where they are taken anew. -/
def At (s : Marks) (a : Nat) (m : MpMap) (idx : Nat) : Prop :=
  a % 1048576 ≠ 0 → s.mapAt (a / 1048576) = some m ∧ idx = a % 1048576 / 64

/-- The pointer and the index, after they were taken anew where needed. -/
theorem At.here (hat : s.At a m idx) :
    (if a &&& cgrMask = 0 then (s.findM a).map (·, 0) else some (m, idx)) =
      (s.mapAt (a / 1048576)).map (·, a % 1048576 / 64) := by
  rw [and_cgrMask, findM_eq]
  by_cases hzero : a % 1048576 = 0
  · rw [if_pos hzero, hzero]
  · obtain ⟨hmap, hidx⟩ := hat hzero
    rw [if_neg hzero, hmap, hidx]
    rfl

theorem At.next (hmap : s.mapAt (a / 1048576) = some m) (ha : a % 64 = 0) :
    s.At (a + 64) m (a % 1048576 / 64 + 1) := by
  intro hne
  have hmega : (a + 64) / 1048576 = a / 1048576 := by omega
  exact ⟨hmega ▸ hmap, by omega⟩

/-- What the loop over whole words tells about them. -/
def ScanSpec (s : Marks) (a hi : Nat) : Scan → Prop
  | .found => ∃ x, a ≤ x ∧ x < hi ∧ s.marked x = true ∧ s.AllMapped a (x + 1)
  | .missing => ∃ k, a ≤ k * 1048576 ∧ k * 1048576 < hi ∧ ¬s.mapped k ∧ s.Clear a (k * 1048576)
  | .rest m idx => s.Clear a hi ∧ s.AllMapped a hi ∧ s.At hi m idx

theorem allMapped_word (hmap : s.mapped (a / 1048576)) (hhi : hi ≤ a / 64 * 64 + 64) :
    s.AllMapped a hi := by
  intro k hk hlt
  have hsame : k = a / 1048576 := by omega
  exact hsame ▸ hmap

theorem AllMapped.append {mid : Nat} (hlo : s.AllMapped lo mid) (hhi : s.AllMapped mid hi) :
    s.AllMapped lo hi := by
  intro k hk hlt
  by_cases hmid : k * 1048576 < mid
  · exact hlo k hk hmid
  · exact hhi k (by omega) hlt

theorem Clear.append {mid : Nat} (hlo : s.Clear lo mid) (hhi : s.Clear mid hi) : s.Clear lo hi := by
  intro x hx hlt
  by_cases hmid : x < mid
  · exact hlo x hx hmid
  · exact hhi x (by omega) hlt

/-- A scan that goes on over an unmarked word. -/
theorem ScanSpec.word (hmap : s.mapped (a / 1048576)) (ha : a % 64 = 0)
    (hclear : s.Clear a (a + 64)) {r : Scan} (hspec : s.ScanSpec (a + 64) hi r) :
    s.ScanSpec a hi r := by
  have hword := allMapped_word hmap (show a + 64 ≤ a / 64 * 64 + 64 by omega)
  cases r with
  | found =>
      obtain ⟨x, hlo, hhi, hx, hall⟩ := hspec
      exact ⟨x, by omega, hhi, hx, hword.append hall⟩
  | missing =>
      obtain ⟨k, hlo, hhi, hk, hrest⟩ := hspec
      exact ⟨k, by omega, hhi, hk, hclear.append hrest⟩
  | rest m idx =>
      obtain ⟨hrest, hall, hat⟩ := hspec
      exact ⟨hclear.append hrest, hword.append hall, hat⟩

theorem queryWords_spec (ha : a % 64 = 0) (hat : s.At a m idx) :
    s.ScanSpec a (a + 64 * n) (s.queryWords n a m idx) := by
  induction n generalizing a m idx with
  | zero =>
      refine ⟨fun x hlo hhi => by omega, fun k hk hlt => ?_, hat⟩
      have hsame : k = a / 1048576 := by omega
      exact ⟨m, hsame ▸ (hat (by omega)).1⟩
  | succ n ih =>
      rw [queryWords, hat.here]
      cases hmap : s.mapAt (a / 1048576) with
      | none =>
          have haligned : a % 1048576 = 0 := by
            by_contra hne
            simp [(hat hne).1] at hmap
          refine ⟨a / 1048576, by omega, by omega, ?_, fun x hlo hhi => by omega⟩
          rintro ⟨m', hm'⟩
          simp [hmap] at hm'
      | some m' =>
          simp only [Option.map_some]
          by_cases hword : m'.subpage (a % 1048576 / 64) ≠ 0#64
          · rw [if_pos hword]
            obtain ⟨x, hlo, hhi, hx⟩ := (subpage_ne_zero_iff hmap ha).mp hword
            exact ⟨x, hlo, by omega, hx, allMapped_word ⟨m', hmap⟩ (by omega)⟩
          · rw [if_neg hword]
            have hclear : s.Clear a (a + 64) := by
              intro x hlo hhi
              by_contra hx
              exact hword ((subpage_ne_zero_iff hmap ha).mpr ⟨x, hlo, hhi, by simpa using hx⟩)
            have hrest := ih (a := a + 64) (by omega) (At.next hmap ha)
            rw [show a + 64 + 64 * n = a + 64 * (n + 1) by ring] at hrest
            exact hrest.word ⟨m', hmap⟩ ha hclear

/-! ## The query -/

/-- A range within one word. -/
theorem subpage_between_ne_zero_iff (hmap : s.mapAt (a / 1048576) = some m)
    (hword : hi / 64 = a / 64) :
    m.subpage (a % 1048576 / 64) &&& (BitVec.allOnes 64 <<< (a % 64)) &&&
        (BitVec.twoPow 64 (hi % 64) - 1#64) ≠ 0#64 ↔
      ∃ x, a ≤ x ∧ x < hi ∧ s.marked x = true := by
  have hmega : a / 64 * 64 / 1048576 = a / 1048576 := by omega
  have hidx : a / 64 * 64 % 1048576 / 64 = a % 1048576 / 64 := by omega
  have hbits : ∀ j, j < 64 →
      (m.subpage (a % 1048576 / 64)).getLsbD j = s.marked (a / 64 * 64 + j) := by
    intro j hj
    rw [← hidx]
    exact getLsbD_subpage (hmega.symm ▸ hmap) (by omega) hj
  rw [and_below_ne_zero_iff (Nat.mod_lt hi (by decide))]
  constructor
  · rintro ⟨j, hj, hset⟩
    rw [BitVec.getLsbD_and, getLsbD_maskFrom (by omega), hbits j (by omega), Bool.and_eq_true,
      decide_eq_true_eq] at hset
    exact ⟨a / 64 * 64 + j, by omega, by omega, hset.1⟩
  · rintro ⟨x, hlo, hhi, hx⟩
    refine ⟨x - a / 64 * 64, by omega, ?_⟩
    rw [BitVec.getLsbD_and, getLsbD_maskFrom (by omega), hbits _ (by omega), Bool.and_eq_true,
      decide_eq_true_eq, show a / 64 * 64 + (x - a / 64 * 64) = x by omega]
    exact ⟨hx, by omega⟩

/-- Where the query of a range stops: the end of a range at 4G is taken for 0, so
that the query looks at no more than the first word. -/
def queryStop (r : GuestRange) : Nat :=
  if r.len = 1 then r.addr + 1
  else if r.addr + r.len = 2 ^ 32 then
    (if r.addr < 64 then r.addr else r.addr / 64 * 64 + 64)
  else r.addr + r.len

theorem eQuerymark_single (hmap : s.mapAt (a / 1048576) = some m) :
    s.eQuerymark a 1 = s.marked a := by
  rw [eQuerymark, findM_eq, hmap]
  simp only [if_true]
  rw [and_cgrMask, marked_eq hmap]

/-- A mark that the query reaches. -/
def Reached (s : Marks) (lo hi : Nat) : Prop :=
  ∃ x, lo ≤ x ∧ x < hi ∧ s.marked x = true ∧ s.AllMapped lo (x + 1)

theorem reached_word_iff (hmap : s.mapped (a / 1048576)) (hhi : hi ≤ a / 64 * 64 + 64) :
    s.Reached a hi ↔ ∃ x, a ≤ x ∧ x < hi ∧ s.marked x = true := by
  constructor
  · rintro ⟨x, hlo, hlt, hx, -⟩
    exact ⟨x, hlo, hlt, hx⟩
  · rintro ⟨x, hlo, hlt, hx⟩
    exact ⟨x, hlo, hlt, hx, allMapped_word hmap (by omega)⟩

/-- Past an unmarked first word, the query reaches what it reaches from the next
one. -/
theorem reached_skip_iff (hmap : s.mapped (a / 1048576))
    (hclear : s.Clear a (a / 64 * 64 + 64)) :
    s.Reached a hi ↔ s.Reached (a / 64 * 64 + 64) hi := by
  constructor
  · rintro ⟨x, hlo, hhi, hx, hall⟩
    have hpast : a / 64 * 64 + 64 ≤ x := by
      by_contra hlt
      simp [hclear x hlo (by omega)] at hx
    exact ⟨x, hpast, hhi, hx, fun k hk hkx => hall k (by omega) hkx⟩
  · rintro ⟨x, hlo, hhi, hx, hall⟩
    refine ⟨x, by omega, hhi, hx, fun k hk hkx => ?_⟩
    by_cases hsame : k = a / 1048576
    · exact hsame ▸ hmap
    · exact hall k (by omega) hkx

theorem not_reached_of_clear (hclear : s.Clear lo hi) : ¬s.Reached lo hi := by
  rintro ⟨x, hlo, hhi, hx, -⟩
  simp [hclear x hlo hhi] at hx

/-- What the query makes of the words after the first, up to `hi`. -/
theorem queryTail_eq_true_iff {b : Nat} (hle : b ≤ hi / 64 * 64) {r : Scan}
    (hspec : s.ScanSpec b (hi / 64 * 64) r) :
    s.queryTail (hi / 64 * 64) (BitVec.twoPow 64 (hi % 64) - 1#64) r = true ↔
      s.Reached b hi := by
  cases r with
  | found =>
      obtain ⟨x, hlo, hhi, hx, hall⟩ := hspec
      exact iff_of_true rfl ⟨x, hlo, by omega, hx, hall⟩
  | missing =>
      obtain ⟨k, hlo, hhi, hk, hclear⟩ := hspec
      refine iff_of_false (by simp [queryTail]) ?_
      rintro ⟨x, hxlo, hxhi, hx, hall⟩
      by_cases hbefore : x < k * 1048576
      · simp [hclear x hxlo hbefore] at hx
      · exact hk (hall k (by omega) (by omega))
  | rest m idx =>
      obtain ⟨hclear, hall, hat⟩ := hspec
      have hmask := maskBelow_eq_zero_iff (Nat.mod_lt hi (by decide : 0 < 64))
      rw [queryTail, hat.here]
      by_cases hzero : hi % 64 = 0
      · rw [if_pos (hmask.mpr hzero)]
        have hhi : hi / 64 * 64 = hi := by omega
        exact iff_of_false (by simp) (not_reached_of_clear (hhi ▸ hclear))
      · rw [if_neg (mt hmask.mp hzero)]
        have hmega : hi / 64 * 64 / 1048576 = hi / 1048576 := by omega
        have hidx : hi / 64 * 64 % 1048576 / 64 = hi % 1048576 / 64 := by omega
        rw [hmega, hidx]
        cases hmap : s.mapAt (hi / 1048576) with
        | none =>
            refine iff_of_false (by simp) ?_
            rintro ⟨x, hxlo, hxhi, hx, hallx⟩
            have hlast : hi / 64 * 64 ≤ x := by
              by_contra hlt
              simp [hclear x hxlo (by omega)] at hx
            obtain ⟨m', hm'⟩ := hallx (hi / 1048576) (by omega) (by omega)
            simp [hmap] at hm'
        | some m' =>
            simp only [Option.map_some, decide_eq_true_eq]
            rw [subpage_below_ne_zero_iff hmap]
            constructor
            · rintro ⟨x, hlo, hhi, hx⟩
              refine ⟨x, by omega, hhi, hx, fun k hk hkx => ?_⟩
              by_cases hbefore : k * 1048576 < hi / 64 * 64
              · exact hall k hk hbefore
              · have hsame : k = hi / 1048576 := by omega
                exact ⟨m', hsame ▸ hmap⟩
            · rintro ⟨x, hlo, hhi, hx, -⟩
              refine ⟨x, ?_, hhi, hx⟩
              by_contra hlt
              simp [hclear x hlo (by omega)] at hx

/-- The query finds the marked bytes before its stop that no megabyte without a
map comes before. -/
theorem eQuerymark_eq_true_iff (s : Marks) (r : GuestRange) :
    s.eQuerymark r.addr r.len = true ↔ s.Reached r.addr (queryStop r) := by
  have hpos := r.pos
  have hfits := r.fits
  cases hmap : s.mapAt (r.addr / 1048576) with
  | none =>
      rw [eQuerymark, findM_eq, hmap]
      refine iff_of_false (by simp) ?_
      rintro ⟨x, hlo, -, -, hall⟩
      obtain ⟨m, hm⟩ := hall (r.addr / 1048576) le_rfl (by omega)
      simp [hmap] at hm
  | some m =>
      have hmapped : s.mapped (r.addr / 1048576) := ⟨m, hmap⟩
      by_cases hone : r.len = 1
      · rw [hone, eQuerymark_single hmap, queryStop, if_pos hone, reached_word_iff hmapped (by omega)]
        constructor
        · intro hx
          exact ⟨r.addr, le_rfl, by omega, hx⟩
        · rintro ⟨x, hlo, hhi, hx⟩
          have hsame : x = r.addr := by omega
          exact hsame ▸ hx
      · rw [eQuerymark, findM_eq, hmap]
        simp only [hone, if_false, and_cgrMask]
        rw [queryStop, if_neg hone]
        have hclear (hfirst : ¬m.subpage (r.addr % 1048576 / 64) &&&
            (BitVec.allOnes 64 <<< (r.addr % 64)) ≠ 0#64) :
            s.Clear r.addr (r.addr / 64 * 64 + 64) := by
          intro x hlo hhi
          by_contra hx
          exact hfirst ((subpage_from_ne_zero_iff hmap).mpr ⟨x, hlo, hhi, by simpa using hx⟩)
        by_cases htop : r.addr + r.len = 2 ^ 32
        · rw [htop, if_pos rfl]
          have hmask : BitVec.twoPow 64 (0 % 64) - 1#64 = 0#64 := by decide
          simp only [Nat.mod_self, hmask, Nat.zero_div, Nat.zero_mul, BitVec.and_zero, ne_eq,
            not_true_eq_false, decide_false, Nat.zero_sub]
          by_cases hlow : r.addr < 64
          · have hzero : r.addr / 64 * 64 = 0 := by omega
            rw [if_pos hzero, if_pos hlow]
            refine iff_of_false (by simp) ?_
            rintro ⟨x, hlo, hhi, -⟩
            omega
          · have hzero : r.addr / 64 * 64 ≠ 0 := by omega
            rw [if_neg hzero, if_neg hlow, reached_word_iff hmapped le_rfl,
              ← subpage_from_ne_zero_iff hmap]
            simp [queryWords, queryTail]
        · rw [if_neg htop, Nat.mod_eq_of_lt (by omega)]
          by_cases hsame : r.addr / 64 * 64 = (r.addr + r.len) / 64 * 64
          · rw [if_pos hsame, decide_eq_true_eq, subpage_between_ne_zero_iff hmap (by omega),
              reached_word_iff hmapped (by omega)]
          · rw [if_neg hsame]
            by_cases hfirst : m.subpage (r.addr % 1048576 / 64) &&&
                (BitVec.allOnes 64 <<< (r.addr % 64)) ≠ 0#64
            · rw [if_pos hfirst]
              obtain ⟨x, hlo, hhi, hx⟩ := (subpage_from_ne_zero_iff hmap).mp hfirst
              exact iff_of_true rfl ⟨x, hlo, by omega, hx, allMapped_word hmapped (by omega)⟩
            · rw [if_neg hfirst, reached_skip_iff hmapped (hclear hfirst)]
              have hwords : r.addr / 64 * 64 + 64 +
                  64 * (((r.addr + r.len) / 64 * 64 - (r.addr / 64 * 64 + 64)) / 64) =
                    (r.addr + r.len) / 64 * 64 := by
                omega
              have hat : s.At (r.addr / 64 * 64 + 64) m (r.addr % 1048576 / 64 + 1) := by
                intro hne
                exact ⟨(by omega : (r.addr / 64 * 64 + 64) / 1048576 = r.addr / 1048576) ▸ hmap,
                  by omega⟩
              have hspec := queryWords_spec (by omega) hat
                (n := ((r.addr + r.len) / 64 * 64 - (r.addr / 64 * 64 + 64)) / 64)
              rw [hwords] at hspec
              exact queryTail_eq_true_iff (by omega) hspec

/-- A byte of the range is marked. -/
def AnyMarked (s : Marks) (r : GuestRange) : Prop :=
  ∃ x, r.addr ≤ x ∧ x < r.addr + r.len ∧ s.marked x = true

/-- Some marked byte of the range lies before the query's stop, and no megabyte
from the start of the range to it is without a map. -/
def MarkInReach (s : Marks) (r : GuestRange) : Prop :=
  ∃ x, r.addr ≤ x ∧ x < queryStop r ∧ s.marked x = true ∧
    ∀ k, r.addr / 1048576 ≤ k → k ≤ x / 1048576 → s.mapped k

theorem markInReach_iff {r : GuestRange} : s.MarkInReach r ↔ s.Reached r.addr (queryStop r) := by
  have hmega : ∀ k x : Nat, k ≤ x / 1048576 ↔ k * 1048576 < x + 1 := by
    intro k x
    omega
  simp only [MarkInReach, Reached, AllMapped, hmega]

theorem queryStop_le (r : GuestRange) : queryStop r ≤ r.addr + r.len := by
  have hpos := r.pos
  unfold queryStop
  split
  · omega
  · split
    · split <;> omega
    · exact le_rfl

/-- The query of a range finds a mark exactly if there is one, if and only if the
range has no mark or one within the query's reach. -/
theorem query_exact_iff (s : Marks) (r : GuestRange) :
    (s.eQuerymark r.addr r.len = true ↔ s.AnyMarked r) ↔ (s.AnyMarked r → s.MarkInReach r) := by
  rw [eQuerymark_eq_true_iff, ← markInReach_iff]
  constructor
  · exact fun hiff hany => hiff.mpr hany
  · intro hreach
    refine ⟨?_, hreach⟩
    rintro ⟨x, hlo, hhi, hx, -⟩
    exact ⟨x, hlo, lt_of_lt_of_le hhi (queryStop_le r), hx⟩

/-- The first byte of the second megabyte. -/
def firstOfMega : GuestRange where
  addr := 0x100000
  len := 1
  pos := by decide
  fits := by decide

/-- The last byte of a megabyte and the first of the next. -/
def acrossMega : GuestRange where
  addr := 0xfffff
  len := 2
  pos := Nat.two_pos
  fits := by decide

/-- With translated code at the start of a megabyte only, the query of a range that
begins one byte before does not find it. -/
theorem query_misses_mark_after_hole :
    ∃ s, run step mprotInit [.fetch firstOfMega, .mark firstOfMega] = some s ∧
      ¬(s.eQuerymark acrossMega.addr acrossMega.len = true ↔ s.AnyMarked acrossMega) := by
  have heval : ((run step mprotInit [.fetch firstOfMega, .mark firstOfMega]).map fun s =>
      (s.eQuerymark acrossMega.addr acrossMega.len, s.marked 0x100000)) = some (false, true) := by
    decide +kernel
  rw [Option.map_eq_some_iff] at heval
  obtain ⟨s, hs, hprops⟩ := heval
  rw [Prod.mk.injEq] at hprops
  refine ⟨s, hs, fun hiff => ?_⟩
  have hany : s.AnyMarked acrossMega := ⟨0x100000, by decide, by decide, hprops.2⟩
  rw [← hiff, hprops.1] at hany
  cases hany

end Marks

end Simx86
end Dosemu
