import Dosemu.Simx86.PageProtect

/-!
# Searches for nodes

The first node in a range is searched upwards, a word of first bytes at a time
and over megabytes without a map; the node that covers a byte is searched
downwards, a byte at a time.  Both are described by the views of single bytes.

Main results:

- Theorem `mFindnode_spec`: the upward search finds the lowest first byte.
- Theorem `mFindnodestart_covered`: the downward search finds the first byte of the
  node that covers the address.
-/

namespace Dosemu
namespace Simx86

open BitWords

namespace Marks

variable {s : Marks} {addr k x : Nat}

/-! ## Upwards -/

/-- No node starts in `[lo, hi)`. -/
def NoNode (s : Marks) (lo hi : Nat) : Prop :=
  ∀ x, lo ≤ x → x < hi → s.node x = false

theorem node_word {m : MpMap} {w f : Nat} (hm : s.mapAt (w / 16384) = some m) (hf : f < 64) :
    s.node (w * 64 + f) = (m.nodemap (w % 16384)).getLsbD f := by
  have hmega : (w * 64 + f) / 1048576 = w / 16384 := by omega
  have hword : (w * 64 + f) % 1048576 / 64 = w % 16384 := by omega
  have hbit : (w * 64 + f) % 1048576 % 64 = f := by omega
  rw [node, look, hmega, hm, Option.elim_some, testBit, hword, hbit]

theorem noNode_of_unmapped {mega : Nat} (hm : s.mapAt mega = none) :
    s.NoNode (mega * 1048576) ((mega + 1) * 1048576) := by
  intro x hlo hhi
  have hmega : x / 1048576 = mega := by omega
  rw [node, look, hmega, hm]
  rfl

/-- The scan from `addr` on has seen no node below its place. -/
structure ScanAt (s : Marks) (addr : Nat) (p : NodeScan) : Prop where
  map : s.mapAt (p.abeg / 16384) = some p.m
  index : p.i = p.abeg % 16384
  count : p.c + addr / 64 = p.abeg
  start : addr ≤ p.abeg * 64 + p.n
  seen : s.NoNode addr (p.abeg * 64 + p.n)

/-- The first word of the next megabyte. -/
theorem nextMega (abeg : Nat) :
    (abeg * 64 / 0x100000 * 0x100000 + cgrMask + 1) / 64 = (abeg / 16384 + 1) * 16384 := by
  have hmega : abeg * 64 / 0x100000 = abeg / 16384 := by omega
  have hmask : cgrMask + 1 = 0x100000 := rfl
  rw [Nat.add_assoc, hmask, hmega]
  generalize abeg / 16384 = k
  have hprod : k * 0x100000 + 0x100000 = (k + 1) * 16384 * 64 := by ring
  rw [hprod, Nat.mul_div_cancel _ (by decide)]

theorem nextMap_succ (s : Marks) (aend fuel abeg i n c : Nat) :
    s.nextMap aend (fuel + 1) abeg i n c = match s.mapAt (abeg / 16384) with
      | some m => some ⟨m, abeg, i, n, c⟩
      | none =>
          if (abeg / 16384 + 1) * 16384 ≤ aend then
            s.nextMap aend fuel ((abeg / 16384 + 1) * 16384) 0 0 (c + wordsPerMega - i)
          else none := by
  have hmega : abeg * 64 / 0x100000 * 0x100000 / 1048576 = abeg / 16384 := by omega
  rw [nextMap, findM_eq, hmega]
  cases s.mapAt (abeg / 16384) with
  | some m => rfl
  | none => simp only [nextMega]

theorem nextMap_spec (aend fuel abeg i n c : Nat) (hfuel : 0 < fuel)
    (hrounds : aend + 1 ≤ abeg + fuel) (hi : i = abeg % 16384) (hc : c + addr / 64 = abeg)
    (hstart : addr ≤ abeg * 64 + n) (hn : n < 64) (hseen : s.NoNode addr (abeg * 64 + n)) :
    match s.nextMap aend fuel abeg i n c with
    | some p => s.ScanAt addr p ∧ abeg ≤ p.abeg
    | none => s.NoNode addr ((aend + 1) * 64) := by
  induction fuel generalizing abeg i n c with
  | zero => cases hfuel
  | succ fuel ih =>
      have hwords : wordsPerMega = 16384 := rfl
      rw [nextMap_succ]
      cases hm : s.mapAt (abeg / 16384) with
      | some m => exact ⟨⟨hm, hi, hc, hstart, hseen⟩, le_rfl⟩
      | none =>
          have hskip : s.NoNode addr ((abeg / 16384 + 1) * 16384 * 64) := by
            intro x hlo hhi
            by_cases hx : x < abeg * 64 + n
            · exact hseen x hlo hx
            · exact noNode_of_unmapped hm x (by omega) (by omega)
          dsimp only
          by_cases hle : (abeg / 16384 + 1) * 16384 ≤ aend
          · rw [if_pos hle]
            have hrest := ih ((abeg / 16384 + 1) * 16384) 0 0 (c + wordsPerMega - i) (by omega)
              (by omega) (by omega) (by omega) (by omega) (by omega) hskip
            revert hrest
            cases s.nextMap aend fuel ((abeg / 16384 + 1) * 16384) 0 0 (c + wordsPerMega - i) with
            | none => exact id
            | some p => exact fun ⟨hp, hle⟩ => ⟨hp, by omega⟩
          · rw [if_neg hle]
            exact fun x hlo hhi => hskip x hlo (by omega)

theorem scanNodes_spec (aend fuel : Nat) {p : NodeScan} (hrounds : aend + 1 ≤ p.abeg + fuel)
    (hp : s.ScanAt addr p) :
    match s.scanNodes aend fuel p with
    | some (w, c, f) => w ≤ aend ∧ c + addr / 64 = w ∧ f < 64 ∧ addr ≤ w * 64 + f ∧
        s.node (w * 64 + f) = true ∧ s.NoNode addr (w * 64 + f)
    | none => s.NoNode addr ((aend + 1) * 64) := by
  induction fuel generalizing p with
  | zero =>
      intro x hlo hhi
      exact hp.seen x hlo (by omega)
  | succ fuel ih =>
      rw [scanNodes]
      by_cases hend : aend < p.abeg
      · rw [if_pos hend]
        exact fun x hlo hhi => hp.seen x hlo (by omega)
      rw [if_neg hend]
      have hword : ∀ f, f < 64 → s.node (p.abeg * 64 + f) = (p.m.nodemap p.i).getLsbD f := by
        intro f hf
        rw [node_word hp.map hf, hp.index]
      cases hfind : findBitFrom (p.m.nodemap p.i) p.n with
      | some f =>
          obtain ⟨hnf, hf, hbit, hleast⟩ := findBitFrom_eq_some_iff.mp hfind
          have hstart := hp.start
          refine ⟨by omega, hp.count, hf, by omega, by rw [hword f hf, hbit], fun x hlo hhi => ?_⟩
          by_cases hx : x < p.abeg * 64 + p.n
          · exact hp.seen x hlo hx
          · obtain ⟨j, rfl⟩ : ∃ j, x = p.abeg * 64 + j := ⟨x - p.abeg * 64, by omega⟩
            rw [hword j (by omega)]
            exact hleast j (by omega) (by omega)
      | none =>
          have hnone := findBitFrom_eq_none_iff.mp hfind
          have hstart := hp.start
          have hcount := hp.count
          have hindex := hp.index
          have hwords : wordsPerMega = 16384 := rfl
          have hseen : s.NoNode addr ((p.abeg + 1) * 64) := by
            intro x hlo hhi
            by_cases hx : x < p.abeg * 64 + p.n
            · exact hp.seen x hlo hx
            · obtain ⟨j, rfl⟩ : ∃ j, x = p.abeg * 64 + j := ⟨x - p.abeg * 64, by omega⟩
              rw [hword j (by omega)]
              exact hnone j (by omega) (by omega)
          dsimp only
          by_cases hlast : (p.i + 1) % wordsPerMega = 0
          · rw [if_pos hlast]
            rw [hwords] at hlast
            have hmap := nextMap_spec aend (fuel + 1) (p.abeg + 1) 0 0 (p.c + 1) (by omega)
              (by omega) (by omega) (by omega) (by omega) (by omega) hseen
            revert hmap
            cases s.nextMap aend (fuel + 1) (p.abeg + 1) 0 0 (p.c + 1) with
            | none => exact id
            | some q => exact fun ⟨hq, hle⟩ => ih (by omega) hq
          · rw [if_neg hlast]
            rw [hwords] at hlast
            have hsame : (p.abeg + 1) / 16384 = p.abeg / 16384 := by omega
            refine ih (p := ⟨p.m, p.abeg + 1, p.i + 1, 0, p.c + 1⟩) ?_ ⟨?_, ?_, ?_, ?_, ?_⟩
            · dsimp only
              omega
            · dsimp only
              rw [hsame]
              exact hp.map
            · dsimp only
              omega
            · dsimp only
              omega
            · dsimp only
              omega
            · exact hseen

/-- `m_findnode` finds the first node of a range. -/
theorem mFindnode_spec (s : Marks) (addr : Nat) {len : Nat} (hlen : len ≠ 0) :
    ∃ o, s.mFindnode addr len = some o ∧ match o with
      | some key => addr ≤ key ∧ key < addr + len ∧ s.node key = true ∧ s.NoNode addr key
      | none => s.NoNode addr (addr + len) := by
  have hnext := nextMap_spec (s := s) ((addr + len - 1) / 64)
    ((addr + len - 1) / 64 + 1 - addr / 64) (addr / 64) (addr / 64 % wordsPerMega) (addr % 64) 0
    (by omega) (by omega) rfl (by omega) (by omega) (by omega)
    (fun x (hlo : addr ≤ x) hhi => by omega)
  simp only [mFindnode, Option.bind_eq_bind, cAssert_bind hlen]
  revert hnext
  cases s.nextMap ((addr + len - 1) / 64) ((addr + len - 1) / 64 + 1 - addr / 64) (addr / 64)
      (addr / 64 % wordsPerMega) (addr % 64) 0 with
  | none => exact fun hnone => ⟨none, rfl, fun x hlo hhi => hnone x hlo (by omega)⟩
  | some p =>
      rintro ⟨hp, hle⟩
      have hscan := scanNodes_spec ((addr + len - 1) / 64)
        ((addr + len - 1) / 64 + 1 - addr / 64) (by omega) hp
      dsimp only
      revert hscan
      cases s.scanNodes ((addr + len - 1) / 64) ((addr + len - 1) / 64 + 1 - addr / 64) p with
      | none => exact fun hnone => ⟨none, rfl, fun x hlo hhi => hnone x hlo (by omega)⟩
      | some r =>
          obtain ⟨w, c, f⟩ := r
          rintro ⟨hw, hc, hf, hstart, hnode, hseen⟩
          by_cases hpast : w = (addr + len - 1) / 64 ∧ (addr + len - 1) % 64 < f
          · refine ⟨none, if_pos hpast, fun x hlo hhi => hseen x hlo ?_⟩
            omega
          · have hkey : addr / 64 * 64 + c * 64 + f = w * 64 + f := by omega
            refine ⟨some (w * 64 + f), ?_, hstart, by omega, hnode, hseen⟩
            dsimp only
            rw [if_neg hpast, hkey]
            rfl

/-! ## Downwards -/

/-- The range is marked, and its first byte is the only one in it where a node starts. -/
structure NodeRange (s : Marks) (r : GuestRange) : Prop where
  marked : ∀ x, r.addr ≤ x → x < r.addr + r.len → s.marked x = true
  node : ∀ x, r.addr ≤ x → x < r.addr + r.len → (s.node x = true ↔ x = r.addr)

theorem subBit_eq_marked (s : Marks) {mega abeg : Nat} (h : abeg < 1048576) :
    s.subBit mega abeg = s.marked (mega * 1048576 + abeg) := by
  have hmega : (mega * 1048576 + abeg) / 1048576 = mega := by omega
  have hplace : (mega * 1048576 + abeg) % 1048576 = abeg := by omega
  rw [marked, shiftRight_mega, and_cgrMask, hmega, hplace]

theorem nodeBit_eq_node (s : Marks) {mega abeg : Nat} (h : abeg < 1048576) :
    s.nodeBit mega abeg = s.node (mega * 1048576 + abeg) := by
  have hmega : (mega * 1048576 + abeg) / 1048576 = mega := by omega
  have hplace : (mega * 1048576 + abeg) % 1048576 = abeg := by omega
  rw [nodeBit, node, look, hmega, hplace]
  cases s.mapAt mega <;> rfl

/-- From a byte of a node's range the search leads to its first byte. -/
theorem findStart_spec {r : GuestRange} (hr : s.NodeRange r) {fuel mega abeg : Nat} {once : Bool}
    (habeg : abeg < 1048576) (hlo : r.addr ≤ mega * 1048576 + abeg)
    (hhi : mega * 1048576 + abeg < r.addr + r.len) (hfuel : mega * 1048576 + abeg < r.addr + fuel) :
    s.findStart fuel mega abeg once = some (some r.addr) := by
  induction fuel generalizing mega abeg once with
  | zero => omega
  | succ fuel ih =>
      have hnode := hr.node _ hlo hhi
      rw [findStart, subBit_eq_marked s habeg, hr.marked _ hlo hhi, if_pos rfl,
        nodeBit_eq_node s habeg]
      by_cases hfirst : mega * 1048576 + abeg = r.addr
      · rw [if_pos (hnode.mpr hfirst), ← hfirst]
      · rw [if_neg fun h => hfirst (hnode.mp h)]
        by_cases hzero : abeg = 0
        · have hmega : mega ≠ 0 := by omega
          have hprev := hr.marked (mega * 1048576 - 1) (by omega) (by omega)
          have hmap : (s.mapAt (mega - 1)).isSome := by
            obtain ⟨m, hm⟩ := mapped_of_marked hprev
            have hbelow : (mega * 1048576 - 1) / 1048576 = mega - 1 := by omega
            rw [hbelow] at hm
            simp [hm]
          simp only [if_pos hzero, Option.bind_eq_bind, cAssert_bind hmega, cAssert_bind hmap]
          have hbelow : (mega - 1) * 1048576 + cgrMask = mega * 1048576 - 1 := by
            have hmask : 1048576 = cgrMask + 1 := rfl
            rw [Nat.sub_mul, hmask]
            generalize cgrMask = k
            have hle : k + 1 ≤ mega * (k + 1) := Nat.le_mul_of_pos_left _ (Nat.pos_of_ne_zero hmega)
            omega
          have hplace : ∀ y, y = mega * 1048576 - 1 →
              r.addr ≤ y ∧ y < r.addr + r.len ∧ y < r.addr + fuel := by omega
          obtain ⟨hlo', hhi', hfuel'⟩ := hplace _ hbelow
          exact ih (by decide) hlo' hhi' hfuel'
        · rw [if_neg hzero]
          exact ih (by omega) (by omega) (by omega) (by omega)

/-- `m_findnodestart` finds the node that covers a byte. -/
theorem mFindnodestart_covered {r : GuestRange} (hr : s.NodeRange r) (hlo : r.addr ≤ addr)
    (hhi : addr < r.addr + r.len) : s.mFindnodestart addr = some (some r.addr) := by
  obtain ⟨m, hm⟩ := mapped_of_marked (hr.marked addr hlo hhi)
  rw [mFindnodestart, findM_eq, hm, shiftRight_mega, and_cgrMask]
  exact findStart_spec hr (by omega) (by omega) (by omega) (by omega)

theorem mFindnodestart_unmarked (h : s.marked addr = false) :
    s.mFindnodestart addr = some none := by
  rw [mFindnodestart]
  split
  · rfl
  · rw [marked] at h
    rw [findStart, h]
    rfl

end Marks

end Simx86
end Dosemu
