import Dosemu.Simx86.NodeSearch

/-!
# The upward search at the top of the address space

`m_findnode` keeps its place as an `unsigned` number of a word.  From the last megabyte,
if it has no map, and from the last word of memory the search goes on at address 0.

Main results:

- Theorem `findBit64From_eq`: the search within a word, by its halves.
- Theorem `wordsFrom_spec`: a search that does not wrap finds the lowest node.
- Theorem `wordsFrom_wraps`: a search that wraps never ends with -1.
- Theorem `findnode_iff`: the ranges in which the search is right.
-/

namespace Dosemu
namespace Simx86

open BitWords

/-! ## The search within a word -/

/-- `find_bit`, for a word that is not zero. -/
def findBit32 (w : BitVec 32) : Option Nat :=
  (List.range 32).find? fun j => w.getLsbD j

/-- `find_bit64`; `none` is -1. -/
def findBit64 (word : BitVec 64) : Option Nat :=
  if word = 0#64 then none
  else if word.setWidth 32 = 0#32 then (findBit32 ((word >>> 32).setWidth 32)).map (· + 32)
  else findBit32 (word.setWidth 32)

/-- `find_bit64_from` -/
def findBit64From (word : BitVec 64) (idx : Nat) : Option Nat :=
  if 64 ≤ idx then none
  else
    let w := word >>> idx
    if w = 0#64 then none else (findBit64 w).map (· + idx)

theorem findBit32_eq_some_iff {w : BitVec 32} {j : Nat} :
    findBit32 w = some j ↔ j < 32 ∧ w.getLsbD j = true ∧ ∀ i, i < j → w.getLsbD i = false := by
  rw [findBit32, List.find?_range_eq_some]
  simp only [List.mem_range, Bool.not_eq_eq_eq_not, Bool.not_true]
  constructor
  · exact fun ⟨hbit, hlt, hall⟩ => ⟨hlt, hbit, hall⟩
  · exact fun ⟨hlt, hbit, hall⟩ => ⟨hbit, hlt, hall⟩

theorem findBit32_isSome {w : BitVec 32} (h : w ≠ 0#32) : ∃ j, findBit32 w = some j := by
  rw [← Option.isSome_iff_exists, findBit32, List.find?_isSome]
  by_contra hnone
  apply h
  ext j hj
  rw [← BitVec.getLsbD_eq_getElem, BitVec.getElem_zero]
  apply Bool.eq_false_of_not_eq_true
  exact fun hbit => hnone ⟨j, List.mem_range.mpr hj, hbit⟩

/-- `find_bit64` finds the lowest set bit. -/
theorem findBit64_spec {word : BitVec 64} (h : word ≠ 0#64) :
    ∃ j, findBit64 word = some j ∧ j < 64 ∧ word.getLsbD j = true ∧
      ∀ i, i < j → word.getLsbD i = false := by
  have hlow : ∀ i, i < 32 → (word.setWidth 32).getLsbD i = word.getLsbD i := by
    intro i hi
    rw [BitVec.getLsbD_setWidth, decide_eq_true hi, Bool.true_and]
  have hhigh : ∀ i, i < 32 → ((word >>> 32).setWidth 32).getLsbD i = word.getLsbD (32 + i) := by
    intro i hi
    rw [BitVec.getLsbD_setWidth, decide_eq_true hi, Bool.true_and, BitVec.getLsbD_ushiftRight]
  rw [findBit64, if_neg h]
  split
  next hzero =>
    have hclear : ∀ i, i < 32 → word.getLsbD i = false := by
      intro i hi
      rw [← hlow i hi, hzero, BitVec.getLsbD_zero]
    have hne : (word >>> 32).setWidth 32 ≠ 0#32 := by
      intro heq
      obtain ⟨j, hj, hbit⟩ := word_ne_zero_iff.mp h
      by_cases hj32 : j < 32
      · rw [hclear j hj32] at hbit
        exact Bool.false_ne_true hbit
      · have hbit' := hhigh (j - 32) (by omega)
        rw [heq, BitVec.getLsbD_zero, Nat.add_sub_cancel' (by omega), hbit] at hbit'
        exact Bool.false_ne_true hbit'
    obtain ⟨j, hj⟩ := findBit32_isSome hne
    obtain ⟨hlt, hbit, hleast⟩ := findBit32_eq_some_iff.mp hj
    refine ⟨j + 32, by rw [hj]; rfl, by omega, ?_, fun i hi => ?_⟩
    · rw [Nat.add_comm, ← hhigh j hlt]
      exact hbit
    · by_cases hi32 : i < 32
      · exact hclear i hi32
      · have hi' := hleast (i - 32) (by omega)
        rw [hhigh _ (by omega), Nat.add_sub_cancel' (by omega)] at hi'
        exact hi'
  next hne =>
    obtain ⟨j, hj⟩ := findBit32_isSome hne
    obtain ⟨hlt, hbit, hleast⟩ := findBit32_eq_some_iff.mp hj
    refine ⟨j, hj, by omega, ?_, fun i hi => ?_⟩
    · rw [← hlow j hlt]
      exact hbit
    · rw [← hlow i (by omega)]
      exact hleast i hi

/-- `find_bit64_from` finds the lowest set bit from an index on. -/
theorem findBit64From_eq (word : BitVec 64) (idx : Nat) :
    findBit64From word idx = findBitFrom word idx := by
  rw [findBit64From]
  split
  next hidx =>
    symm
    rw [findBitFrom_eq_none_iff]
    exact fun j hj hlt => absurd hlt (by omega)
  next hidx =>
    dsimp only
    split
    next hzero =>
      symm
      rw [findBitFrom_eq_none_iff]
      intro j hj hlt
      have hbit := congrArg (fun w => w.getLsbD (j - idx)) hzero
      rw [BitVec.getLsbD_ushiftRight, Nat.add_sub_cancel' hj, BitVec.getLsbD_zero] at hbit
      exact hbit
    next hne =>
      obtain ⟨j, hj, hlt, hbit, hleast⟩ := findBit64_spec hne
      rw [BitVec.getLsbD_ushiftRight, Nat.add_comm] at hbit
      rw [hj]
      symm
      apply findBitFrom_eq_some_iff.mpr
      refine ⟨Nat.le_add_left idx j, ?_, hbit, ?_⟩
      · show j + idx < 64
        by_contra hge
        rw [BitVec.getLsbD_of_ge _ _ (by omega)] at hbit
        exact Bool.false_ne_true hbit
      · intro i hi hij
        have hlt : i < j + idx := hij
        have hclear := hleast (i - idx) (by omega)
        rw [BitVec.getLsbD_ushiftRight, Nat.add_sub_cancel' hi] at hclear
        exact hclear

/-! ## The search over words -/

namespace Marks

/-- The loops over megabytes in `m_findnode`; `none` inside is a search that has come past
the last word without a map, and the outer `none` one that has not come to an end. -/
def mapFrom (s : Marks) (aend : Nat) : Nat → Nat → Nat → Nat → Nat → Option (Option NodeScan)
  | 0, _, _, _, _ => none
  | fuel + 1, abeg, i, n, c =>
      let addr2 := abeg * 64 % 2 ^ 32 / 0x100000 * 0x100000
      match s.findM addr2 with
      | some m => some (some ⟨m, abeg, i, n, c⟩)
      | none =>
          let abeg := (addr2 + cgrMask + 1) % 2 ^ 32 / 64
          if abeg ≤ aend then s.mapFrom aend fuel abeg 0 0 (c + wordsPerMega - i) else some none

/-- The loop over words in `m_findnode`. -/
def wordsFrom (s : Marks) (aend : Nat) : Nat → NodeScan → Option (Option (Nat × Nat × Nat))
  | 0, _ => none
  | fuel + 1, p =>
      if aend < p.abeg then some none
      else
        match findBit64From (p.m.nodemap p.i) p.n with
        | some f => some (some (p.abeg, p.c, f))
        | none =>
            if (p.i + 1) % wordsPerMega = 0 then
              match s.mapFrom aend (fuel + 1) (p.abeg + 1) 0 0 (p.c + 1) with
              | none => none
              | some none => some none
              | some (some q) => s.wordsFrom aend fuel q
            else s.wordsFrom aend fuel ⟨p.m, p.abeg + 1, p.i + 1, 0, p.c + 1⟩

/-- `m_findnode`, with fuel for its loops. -/
def findnode (s : Marks) (fuel : Nat) (r : GuestRange) : Option Int :=
  let last := r.addr + r.len - 1
  let abeg := r.addr / 64
  let aend := last / 64
  match s.mapFrom aend fuel abeg (abeg % wordsPerMega) (r.addr % 64) 0 with
  | none => none
  | some none => some (-1)
  | some (some p) =>
      match s.wordsFrom aend fuel p with
      | none => none
      | some none => some (-1)
      | some (some (abeg, c, f)) =>
          if abeg = aend ∧ last % 64 < f then some (-1)
          else some ((r.addr / 64 * 64 + c * 64 + f) % 2 ^ 32 : Nat)

/-- The search ends with the lowest node of the range, or with -1 where there is none. -/
def Finds (s : Marks) (r : GuestRange) : Prop :=
  ∃ fuel, (∃ key : Nat, s.findnode fuel r = some (key : Int) ∧ r.addr ≤ key ∧ key < r.addr + r.len ∧
      s.node key = true ∧ s.NoNode r.addr key) ∨
    s.findnode fuel r = some (-1) ∧ s.NoNode r.addr (r.addr + r.len)

/-- The search comes past the last word of a megabyte to one without a map, behind the end of
what it looks through. -/
structure Edge (s : Marks) (stop top : Nat) : Prop where
  near : top < stop + 64
  below : stop ≤ top
  mapped : s.mapped (top / 0x100000 - 1)
  missing : ¬s.mapped (top / 0x100000 % 4096)
  clear : s.NoNode stop top

/-- The range has no node, and the search comes to the last megabyte, which has no map, or past
the last word of memory, when the first megabyte has none. -/
def Wraps (s : Marks) (r : GuestRange) : Prop :=
  s.NoNode r.addr (r.addr + r.len) ∧
    ((0xfff00000 < r.addr + r.len ∧ ¬s.mapped 4095) ∨ s.Edge (r.addr + r.len) 0xfff00000 ∨
      s.Edge (r.addr + r.len) (2 ^ 32))

end Marks

/-- The word of the last byte of a range. -/
def GuestRange.lastWord (r : GuestRange) : Nat :=
  (r.addr + r.len - 1) / 64

namespace Marks

variable {s : Marks} {r : GuestRange} {abeg i n c fuel : Nat} {p : NodeScan}

theorem mapFrom_succ (s : Marks) (aend fuel abeg i n c : Nat) :
    s.mapFrom aend (fuel + 1) abeg i n c = match s.mapAt (abeg / 16384 % 4096) with
      | some m => some (some ⟨m, abeg, i, n, c⟩)
      | none =>
          if (abeg / 16384 % 4096 + 1) % 4096 * 16384 ≤ aend then
            s.mapFrom aend fuel ((abeg / 16384 % 4096 + 1) % 4096 * 16384) 0 0
              (c + wordsPerMega - i)
          else some none := by
  have hmega : abeg * 64 % 2 ^ 32 / 0x100000 * 0x100000 / 1048576 = abeg / 16384 % 4096 := by omega
  have hnext : (abeg * 64 % 2 ^ 32 / 0x100000 * 0x100000 + cgrMask + 1) % 2 ^ 32 / 64 =
      (abeg / 16384 % 4096 + 1) % 4096 * 16384 := by
    have hmask : cgrMask = 0x100000 - 1 := rfl
    omega
  rw [mapFrom, findM_eq, hmega]
  cases s.mapAt (abeg / 16384 % 4096) with
  | some m => rfl
  | none => simp only [hnext]

theorem lastWord_lt (r : GuestRange) : r.lastWord < 67108864 := by
  have hfits := r.fits
  have hpos := r.pos
  rw [GuestRange.lastWord]
  omega

/-! ## A search that does not wrap -/

/-- The next map, or none up to the last word. -/
theorem mapFrom_spec (hwraps : ¬s.Wraps r) (hle : abeg ≤ r.lastWord)
    (hrounds : r.lastWord + 1 ≤ abeg + fuel) (hi : i = abeg % 16384) (hc : c + r.addr / 64 = abeg)
    (hstart : r.addr ≤ abeg * 64 + n) (hn : n < 64) (hseen : s.NoNode r.addr (abeg * 64 + n)) :
    ∃ o, s.mapFrom r.lastWord fuel abeg i n c = some o ∧ match o with
      | some p => s.ScanAt r.addr p ∧ abeg ≤ p.abeg ∧ p.abeg ≤ r.lastWord
      | none => s.NoNode r.addr (r.addr + r.len) := by
  induction fuel generalizing abeg i n c with
  | zero => omega
  | succ fuel ih =>
      have hwords : wordsPerMega = 16384 := rfl
      have hlast := lastWord_lt r
      have hstop : r.addr + r.len ≤ (r.lastWord + 1) * 64 := by
        rw [GuestRange.lastWord]
        omega
      have hmega : abeg / 16384 % 4096 = abeg / 16384 := by omega
      rw [mapFrom_succ, hmega]
      cases hm : s.mapAt (abeg / 16384) with
      | some m => exact ⟨_, rfl, ⟨hm, hi, hc, hstart, hseen⟩, le_rfl, hle⟩
      | none =>
          have hskip : s.NoNode r.addr ((abeg / 16384 + 1) * 16384 * 64) := by
            intro x hlo hhi
            by_cases hx : x < abeg * 64 + n
            · exact hseen x hlo hx
            · exact noNode_of_unmapped hm x (by omega) (by omega)
          have hnotLast : abeg / 16384 ≠ 4095 := by
            intro htop
            apply hwraps
            refine ⟨fun x hlo hhi => hskip x hlo (by omega), .inl ⟨?_, ?_⟩⟩
            · rw [GuestRange.lastWord] at hle
              omega
            · rw [htop] at hm
              rintro ⟨m, hm'⟩
              exact absurd (hm.symm.trans hm') nofun
          have hnext : (abeg / 16384 + 1) % 4096 = abeg / 16384 + 1 := by omega
          rw [hnext]
          dsimp only
          by_cases hin : (abeg / 16384 + 1) * 16384 ≤ r.lastWord
          · rw [if_pos hin]
            obtain ⟨o, ho, hspec⟩ := @ih ((abeg / 16384 + 1) * 16384) 0 0
              (c + wordsPerMega - i) hin (by omega) (by omega) (by omega) (by omega)
              (by omega) hskip
            refine ⟨o, ho, ?_⟩
            cases o with
            | none => exact hspec
            | some p =>
                obtain ⟨hp, hlo, hhi⟩ := hspec
                exact ⟨hp, by omega, hhi⟩
          · rw [if_neg hin]
            exact ⟨none, rfl, fun x hlo hhi => hskip x hlo (by omega)⟩

/-- Past the last word, the search ends at the next map or without one. -/
theorem mapFrom_edge (hwraps : ¬s.Wraps r) (hedge : (r.lastWord + 1) % 16384 = 0)
    (hmap : s.mapped (r.lastWord / 16384)) (hseen : s.NoNode r.addr ((r.lastWord + 1) * 64)) :
    s.mapFrom r.lastWord (fuel + 1) (r.lastWord + 1) 0 0 c = some none ∨
      ∃ m, s.mapFrom r.lastWord (fuel + 1) (r.lastWord + 1) 0 0 c =
        some (some ⟨m, r.lastWord + 1, 0, 0, c⟩) := by
  have hlast := lastWord_lt r
  have hpos := r.pos
  have hfits := r.fits
  have hstop : r.addr + r.len ≤ (r.lastWord + 1) * 64 ∧
      (r.lastWord + 1) * 64 < r.addr + r.len + 64 := by
    rw [GuestRange.lastWord]
    omega
  rw [mapFrom_succ]
  cases hm : s.mapAt ((r.lastWord + 1) / 16384 % 4096) with
  | some m => exact .inr ⟨m, rfl⟩
  | none =>
      left
      dsimp only
      rw [if_neg]
      intro hin
      apply hwraps
      have hclear : s.NoNode r.addr (r.addr + r.len) := fun x hlo hhi => hseen x hlo (by omega)
      have hmissing : ¬s.mapped ((r.lastWord + 1) / 16384 % 4096) := by
        rintro ⟨m, hm'⟩
        exact absurd (hm.symm.trans hm') nofun
      have hrest : s.NoNode (r.addr + r.len) ((r.lastWord + 1) * 64) :=
        fun x hlo hhi => hseen x (by omega) hhi
      have htop : (r.lastWord + 1) * 64 = 0xfff00000 ∨ (r.lastWord + 1) * 64 = 2 ^ 32 := by omega
      have hmega : (r.lastWord + 1) * 64 / 0x100000 = (r.lastWord + 1) / 16384 := by omega
      have hprev : (r.lastWord + 1) / 16384 - 1 = r.lastWord / 16384 := by omega
      have hthe : s.Edge (r.addr + r.len) ((r.lastWord + 1) * 64) := by
        refine ⟨hstop.2, hstop.1, ?_, ?_, hrest⟩
        · rw [hmega, hprev]
          exact hmap
        · rw [hmega]
          exact hmissing
      rcases htop with htop | htop
      · exact ⟨hclear, .inr (.inl (htop ▸ hthe))⟩
      · exact ⟨hclear, .inr (.inr (htop ▸ hthe))⟩

theorem wordsFrom_spec (hwraps : ¬s.Wraps r) (hrounds : r.lastWord + 2 ≤ p.abeg + fuel)
    (hle : p.abeg ≤ r.lastWord) (hp : s.ScanAt r.addr p) :
    ∃ o, s.wordsFrom r.lastWord fuel p = some o ∧ match o with
      | some (w, c, f) => w ≤ r.lastWord ∧ c + r.addr / 64 = w ∧ f < 64 ∧ r.addr ≤ w * 64 + f ∧
          s.node (w * 64 + f) = true ∧ s.NoNode r.addr (w * 64 + f)
      | none => s.NoNode r.addr (r.addr + r.len) := by
  induction fuel generalizing p with
  | zero => omega
  | succ fuel ih =>
      have hstop : r.addr + r.len ≤ (r.lastWord + 1) * 64 := by
        rw [GuestRange.lastWord]
        omega
      have hwords : wordsPerMega = 16384 := rfl
      have hstart := hp.start
      have hcount := hp.count
      have hindex := hp.index
      rw [wordsFrom, if_neg (Nat.not_lt.mpr hle), findBit64From_eq]
      have hword : ∀ f, f < 64 → s.node (p.abeg * 64 + f) = (p.m.nodemap p.i).getLsbD f := by
        intro f hf
        rw [node_word hp.map hf, hp.index]
      cases hfind : findBitFrom (p.m.nodemap p.i) p.n with
      | some f =>
          obtain ⟨hnf, hf, hbit, hleast⟩ := findBitFrom_eq_some_iff.mp hfind
          refine ⟨_, rfl, hle, hcount, hf, by omega, by rw [hword f hf, hbit], ?_⟩
          intro x hlo hhi
          by_cases hx : x < p.abeg * 64 + p.n
          · exact hp.seen x hlo hx
          · obtain ⟨j, rfl⟩ : ∃ j, x = p.abeg * 64 + j := ⟨x - p.abeg * 64, by omega⟩
            rw [hword j (by omega)]
            exact hleast j (by omega) (by omega)
      | none =>
          have hnone := findBitFrom_eq_none_iff.mp hfind
          have hseen : s.NoNode r.addr ((p.abeg + 1) * 64) := by
            intro x hlo hhi
            by_cases hx : x < p.abeg * 64 + p.n
            · exact hp.seen x hlo hx
            · obtain ⟨j, rfl⟩ : ∃ j, x = p.abeg * 64 + j := ⟨x - p.abeg * 64, by omega⟩
              rw [hword j (by omega)]
              exact hnone j (by omega) (by omega)
          have hall (hend : p.abeg = r.lastWord) : s.NoNode r.addr (r.addr + r.len) := by
            intro x hlo hhi
            exact hseen x hlo (by omega)
          dsimp only
          by_cases hlast : (p.i + 1) % wordsPerMega = 0
          · rw [if_pos hlast]
            rw [hwords] at hlast
            by_cases hend : p.abeg = r.lastWord
            · have hedge : (r.lastWord + 1) % 16384 = 0 := by omega
              have hmap : s.mapped (r.lastWord / 16384) := ⟨p.m, by rw [← hend]; exact hp.map⟩
              rw [hend] at hseen ⊢
              rcases @mapFrom_edge s r (p.c + 1) fuel hwraps hedge hmap hseen with
                heq | ⟨m, heq⟩
              · rw [heq]
                exact ⟨none, rfl, hall hend⟩
              · rw [heq]
                obtain ⟨k, rfl⟩ : ∃ k, fuel = k + 1 := ⟨fuel - 1, by omega⟩
                refine ⟨none, ?_, hall hend⟩
                dsimp only
                rw [wordsFrom, if_pos (Nat.lt_succ_self _)]
            · obtain ⟨o, ho, hspec⟩ := @mapFrom_spec s r (p.abeg + 1) 0 0 (p.c + 1)
                (fuel + 1) hwraps (by omega) (by omega) (by omega) (by omega)
                (by omega) (by omega) hseen
              rw [ho]
              cases o with
              | none => exact ⟨none, rfl, hspec⟩
              | some q =>
                  obtain ⟨hq, hlo, hhi⟩ := hspec
                  exact ih (by omega) hhi hq
          · rw [if_neg hlast]
            rw [hwords] at hlast
            by_cases hend : p.abeg = r.lastWord
            · obtain ⟨k, rfl⟩ : ∃ k, fuel = k + 1 := ⟨fuel - 1, by omega⟩
              refine ⟨none, ?_, hall hend⟩
              rw [wordsFrom, if_pos]
              change r.lastWord < p.abeg + 1
              omega
            · have hsame : (p.abeg + 1) / 16384 = p.abeg / 16384 := by omega
              refine ih (p := ⟨p.m, p.abeg + 1, p.i + 1, 0, p.c + 1⟩) ?_ ?_ ⟨?_, ?_, ?_, ?_, ?_⟩
              · dsimp only
                omega
              · dsimp only
                omega
              · dsimp only
                rw [hsame]
                exact hp.map
              · dsimp only
                omega
              · dsimp only
                omega
              · dsimp only
                omega
              · exact hseen

/-- A search that does not wrap ends as it should. -/
theorem finds_of_not_wraps (hwraps : ¬s.Wraps r) : s.Finds r := by
  have hpos := r.pos
  have hlen : r.addr / 64 ≤ r.lastWord := by
    rw [GuestRange.lastWord]
    omega
  have hwords : wordsPerMega = 16384 := rfl
  refine ⟨r.lastWord + 2, ?_⟩
  rw [findnode]
  obtain ⟨o, ho, hspec⟩ := @mapFrom_spec s r (r.addr / 64)
    (r.addr / 64 % wordsPerMega) (r.addr % 64) 0 (r.lastWord + 2) hwraps hlen (by omega) rfl
    (by omega) (by omega) (by omega) (fun x hlo hhi => by omega)
  rw [← GuestRange.lastWord, ho]
  cases o with
  | none => exact .inr ⟨rfl, hspec⟩
  | some p =>
      obtain ⟨hp, hlo, hhi⟩ := hspec
      obtain ⟨o, ho, hspec⟩ := @wordsFrom_spec s r (r.lastWord + 2) p hwraps (by omega) hhi hp
      dsimp only
      rw [ho]
      cases o with
      | none => exact .inr ⟨rfl, hspec⟩
      | some found =>
          obtain ⟨w, c, f⟩ := found
          obtain ⟨hw, hc, hf, hstart, hnode, hseen⟩ := hspec
          dsimp only
          by_cases hpast : w = r.lastWord ∧ (r.addr + r.len - 1) % 64 < f
          · rw [if_pos hpast]
            refine .inr ⟨rfl, fun x hlo hhi => hseen x hlo ?_⟩
            have hlast := hpast.1
            rw [GuestRange.lastWord] at hlast
            omega
          · rw [if_neg hpast]
            have hfits := r.fits
            have hin : w * 64 + f < r.addr + r.len := by
              rw [GuestRange.lastWord] at hpast hw
              omega
            have hkey : (r.addr / 64 * 64 + c * 64 + f) % 2 ^ 32 = w * 64 + f := by omega
            rw [hkey]
            exact .inl ⟨w * 64 + f, rfl, hstart, hin, hnode, hseen⟩

/-! ## A search that wraps -/

/-- Where a search that wraps is: at a word that it looks through, in a map. -/
structure Around (s : Marks) (r : GuestRange) (p : NodeScan) : Prop where
  inside : p.abeg ≤ r.lastWord
  map : s.mapAt (p.abeg / 16384) = some p.m
  index : p.i = p.abeg % 16384

/-- A missing map never leads past the last word. -/
theorem Wraps.next (h : s.Wraps r) {mega : Nat} (hmega : mega < 4096)
    (hmissing : s.mapAt mega = none) :
    (mega + 1) % 4096 * 16384 ≤ r.lastWord := by
  have hpos := r.pos
  rw [GuestRange.lastWord]
  rcases h.2 with ⟨hlt, -⟩ | hedge | hedge
  · omega
  · have hnear := hedge.near
    have hne : mega ≠ 4094 := by
      intro heq
      obtain ⟨m, hm⟩ := hedge.mapped
      rw [heq] at hmissing
      exact absurd (hmissing.symm.trans hm) nofun
    omega
  · have hnear := hedge.near
    omega

/-- The last word is the last of its megabyte, if that has a map. -/
theorem Wraps.edge (h : s.Wraps r) (hmap : s.mapped (r.lastWord / 16384)) :
    (r.lastWord + 1) % 16384 = 0 ∧ ¬s.mapped ((r.lastWord + 1) / 16384 % 4096) ∧
      s.NoNode (r.addr + r.len) ((r.lastWord + 1) * 64) := by
  have hpos := r.pos
  have hfits := r.fits
  rcases h.2 with ⟨hlt, hmissing⟩ | hedge | hedge
  · have hmega : r.lastWord / 16384 = 4095 := by
      rw [GuestRange.lastWord]
      omega
    exact absurd (hmega ▸ hmap) hmissing
  · have hnear := hedge.near
    have hbelow := hedge.below
    have hlast : r.lastWord = 67092479 := by
      rw [GuestRange.lastWord]
      omega
    rw [hlast]
    exact ⟨rfl, hedge.missing, hedge.clear⟩
  · have hnear := hedge.near
    have hlast : r.lastWord = 67108863 := by
      rw [GuestRange.lastWord]
      omega
    rw [hlast]
    exact ⟨rfl, hedge.missing, hedge.clear⟩

theorem mapFrom_wraps (h : s.Wraps r) {o : Option NodeScan} (hi : i = abeg % 16384)
    (habeg : abeg ≤ r.lastWord ∨ s.mapAt (abeg / 16384 % 4096) = none)
    (ho : s.mapFrom r.lastWord fuel abeg i n c = some o) : ∃ p, o = some p ∧ s.Around r p := by
  induction fuel generalizing abeg i n c with
  | zero => cases ho
  | succ fuel ih =>
      have hlast := lastWord_lt r
      rw [mapFrom_succ] at ho
      cases hm : s.mapAt (abeg / 16384 % 4096) with
      | some m =>
          rw [hm] at ho habeg
          have hle : abeg ≤ r.lastWord := habeg.resolve_right nofun
          have hmega : abeg / 16384 % 4096 = abeg / 16384 := by omega
          refine ⟨_, (Option.some.inj ho).symm, hle, ?_, hi⟩
          rw [← hmega]
          exact hm
      | none =>
          have hnext := h.next (Nat.mod_lt _ (by decide)) hm
          rw [hm] at ho
          dsimp only at ho
          rw [if_pos hnext] at ho
          exact ih (by omega) (.inl hnext) ho

/-- A search that wraps does not end without a node, nor with one behind the range in its last
word. -/
theorem wordsFrom_wraps (h : s.Wraps r) (hp : s.Around r p) {o : Option (Nat × Nat × Nat)}
    (ho : s.wordsFrom r.lastWord fuel p = some o) :
    ∃ w c f, o = some (w, c, f) ∧ ¬(w = r.lastWord ∧ (r.addr + r.len - 1) % 64 < f) := by
  induction fuel generalizing p with
  | zero => cases ho
  | succ fuel ih =>
      have hwords : wordsPerMega = 16384 := rfl
      have hinside := hp.inside
      have hindex := hp.index
      have hlastMap (hend : p.abeg = r.lastWord) : s.mapped (r.lastWord / 16384) :=
        ⟨p.m, by rw [← hend]; exact hp.map⟩
      rw [wordsFrom, if_neg (Nat.not_lt.mpr hinside), findBit64From_eq] at ho
      cases hfind : findBitFrom (p.m.nodemap p.i) p.n with
      | some f =>
          rw [hfind] at ho
          refine ⟨p.abeg, p.c, f, (Option.some.inj ho).symm, ?_⟩
          rintro ⟨hend, hpast⟩
          obtain ⟨-, hf, hbit, -⟩ := findBitFrom_eq_some_iff.mp hfind
          obtain ⟨-, -, hclear⟩ := h.edge (hlastMap hend)
          have hnode : s.node (p.abeg * 64 + f) = true := by
            rw [node_word hp.map hf, ← hp.index, hbit]
          have hpos := r.pos
          have hbehind : r.addr + r.len ≤ p.abeg * 64 + f := by
            rw [hend, GuestRange.lastWord]
            omega
          have hno := hclear (p.abeg * 64 + f) hbehind (by omega)
          exact absurd (hno.symm.trans hnode) nofun
      | none =>
          rw [hfind] at ho
          dsimp only at ho
          by_cases hlast : (p.i + 1) % wordsPerMega = 0
          · rw [if_pos hlast] at ho
            rw [hwords] at hlast
            have hplace : p.abeg + 1 ≤ r.lastWord ∨
                s.mapAt ((p.abeg + 1) / 16384 % 4096) = none := by
              by_cases hend : p.abeg = r.lastWord
              · obtain ⟨-, hmissing, -⟩ := h.edge (hlastMap hend)
                right
                rw [hend]
                cases hm : s.mapAt ((r.lastWord + 1) / 16384 % 4096) with
                | none => rfl
                | some m => exact absurd ⟨m, hm⟩ hmissing
              · left
                omega
            cases hmap : s.mapFrom r.lastWord (fuel + 1) (p.abeg + 1) 0 0 (p.c + 1) with
            | none =>
                rw [hmap] at ho
                cases ho
            | some o' =>
                obtain ⟨q, rfl, hq⟩ := mapFrom_wraps h (by omega) hplace hmap
                rw [hmap] at ho
                exact ih hq ho
          · rw [if_neg hlast] at ho
            rw [hwords] at hlast
            have hne : p.abeg ≠ r.lastWord := by
              intro hend
              obtain ⟨hedge, -, -⟩ := h.edge (hlastMap hend)
              omega
            have hsame : (p.abeg + 1) / 16384 = p.abeg / 16384 := by omega
            refine ih (p := ⟨p.m, p.abeg + 1, p.i + 1, 0, p.c + 1⟩) ⟨?_, ?_, ?_⟩ ho
            · change p.abeg + 1 ≤ r.lastWord
              omega
            · change s.mapAt ((p.abeg + 1) / 16384) = some p.m
              rw [hsame]
              exact hp.map
            · change p.i + 1 = (p.abeg + 1) % 16384
              omega

/-- A search that wraps never says that there is no node. -/
theorem findnode_wraps (h : s.Wraps r) (fuel : Nat) : s.findnode fuel r ≠ some (-1) := by
  intro heq
  have hpos := r.pos
  have hlen : r.addr / 64 ≤ r.lastWord := by
    rw [GuestRange.lastWord]
    omega
  rw [findnode, ← GuestRange.lastWord] at heq
  cases hmap : s.mapFrom r.lastWord fuel (r.addr / 64) (r.addr / 64 % wordsPerMega)
      (r.addr % 64) 0 with
  | none =>
      rw [hmap] at heq
      cases heq
  | some o =>
      obtain ⟨p, rfl, hp⟩ := mapFrom_wraps h rfl (.inl hlen) hmap
      rw [hmap] at heq
      dsimp only at heq
      cases hwords : s.wordsFrom r.lastWord fuel p with
      | none =>
          rw [hwords] at heq
          cases heq
      | some o =>
          obtain ⟨w, c, f, rfl, hpast⟩ := wordsFrom_wraps h hp hwords
          rw [hwords] at heq
          dsimp only at heq
          rw [if_neg hpast] at heq
          exact absurd (Option.some.inj heq) nofun

/-! ## The node that covers an address -/

/-- The marks are those of nodes, no two of which share a byte. -/
structure MarksOf (s : Marks) (live : List GuestRange) : Prop where
  marked : ∀ x, s.marked x = true ↔ ∃ q ∈ live, q.addr ≤ x ∧ x < q.addr + q.len
  node : ∀ x, s.node x = true ↔ ∃ q ∈ live, x = q.addr
  disjoint : live.Pairwise fun q q' => q.addr + q.len ≤ q'.addr ∨ q'.addr + q'.len ≤ q.addr

/-- From each marked address the downward search leads to the start of the node there. -/
def FindsStarts (s : Marks) : Prop :=
  ∀ live, s.MarksOf live → ∀ addr, s.marked addr = true →
    ∃ q ∈ live, q.addr ≤ addr ∧ addr < q.addr + q.len ∧
      s.mFindnodestart addr = some (some q.addr)

theorem findsStarts (s : Marks) : s.FindsStarts := by
  intro live hlive addr hmarked
  obtain ⟨q, hq, hlo, hhi⟩ := (hlive.marked addr).mp hmarked
  refine ⟨q, hq, hlo, hhi, mFindnodestart_covered ⟨?_, ?_⟩ hlo hhi⟩
  · exact fun x hlo hhi => (hlive.marked x).mpr ⟨q, hq, hlo, hhi⟩
  · intro x hlo hhi
    rw [hlive.node]
    constructor
    · rintro ⟨q', hq', heq⟩
      by_cases hsame : q' = q
      · rw [heq, hsame]
      · have hsymm : Std.Symm fun q q' : GuestRange =>
            q.addr + q.len ≤ q'.addr ∨ q'.addr + q'.len ≤ q.addr := ⟨fun _ _ hd => hd.symm⟩
        have hapart := hlive.disjoint.forall hq' hq hsame
        have hpos := q'.pos
        omega
    · exact fun heq => ⟨q, hq, heq⟩

/-- The upward search is right exactly if it does not wrap; the downward one always is. -/
theorem findnode_iff (s : Marks) (r : GuestRange) :
    s.Finds r ∧ s.FindsStarts ↔ ¬s.Wraps r := by
  constructor
  · rintro ⟨⟨fuel, ⟨key, -, hlo, hhi, hnode, -⟩ | ⟨hend, -⟩⟩, -⟩ hwraps
    · have hno := hwraps.1 key hlo hhi
      exact absurd (hno.symm.trans hnode) nofun
    · exact findnode_wraps hwraps fuel hend
  · exact fun hwraps => ⟨finds_of_not_wraps hwraps, s.findsStarts⟩

/-- One node, in the first megabyte; no other megabyte has a map. -/
def lowNode : Marks where
  mpH := AList.singleton 0 { MpMap.empty with nodemap := fun i => if i = 0 then 0x20#64 else 0#64 }
  clist := []
  writeProt := fun _ => false

/-- The first byte of the last megabyte. -/
def highByte : GuestRange := ⟨0xfff00000, 1, Nat.one_pos, by decide⟩

/-- A search in the last megabyte finds the node at address 5. -/
theorem search_wraps : lowNode.findnode 2 highByte = some 5 ∧
    ¬(lowNode.Finds highByte ∧ lowNode.FindsStarts) := by
  have hnone : lowNode.mapAt 4095 = none := rfl
  have hwraps : lowNode.Wraps highByte := by
    refine ⟨fun x hlo hhi => noNode_of_unmapped hnone x hlo ?_, .inl ⟨by decide, ?_⟩⟩
    · exact Nat.lt_trans hhi (by decide)
    · rintro ⟨m, hm⟩
      exact absurd (hnone.symm.trans hm) nofun
  refine ⟨by decide, ?_⟩
  rintro ⟨⟨fuel, ⟨key, -, hlo, hhi, hnode, -⟩ | ⟨hend, -⟩⟩, -⟩
  · exact absurd ((hwraps.1 key hlo hhi).symm.trans hnode) nofun
  · exact findnode_wraps hwraps fuel hend

/-! ## Below the top -/

/-- A search that does not wrap is the one over unbounded words. -/
theorem findnode_eq_mFindnode (h : ¬s.Wraps r) :
    ∃ fuel o, s.mFindnode r.addr r.len = some o ∧
      s.findnode fuel r = some (o.elim (-1) fun key => (key : Int)) := by
  obtain ⟨fuel, hfinds⟩ := finds_of_not_wraps h
  obtain ⟨o, ho, hspec⟩ := mFindnode_spec s r.addr r.pos.ne'
  refine ⟨fuel, o, ho, ?_⟩
  rcases hfinds with ⟨key, hkey, hlo, hhi, hnode, hseen⟩ | ⟨hend, hclear⟩
  · cases o with
    | none => exact absurd ((hspec key hlo hhi).symm.trans hnode) nofun
    | some key' =>
        obtain ⟨hlo', hhi', hnode', hseen'⟩ := hspec
        have hle : key ≤ key' := by
          by_contra hlt
          exact absurd ((hseen key' hlo' (by omega)).symm.trans hnode') nofun
        have hge : key' ≤ key := by
          by_contra hlt
          exact absurd ((hseen' key hlo (by omega)).symm.trans hnode) nofun
        rw [hkey, Nat.le_antisymm hle hge]
        rfl
  · cases o with
    | none => exact hend
    | some key =>
        obtain ⟨hlo, hhi, hnode, -⟩ := hspec
        exact absurd ((hclear key hlo hhi).symm.trans hnode) nofun

end Marks

end Simx86
end Dosemu
