import Dosemu.Smalloc.Spec

/-!
# The three allocators

Each allocator looks for an area, possibly cuts something off its front or its
end, and places the block at the start of what is left.  The place is a cursor
computed from the node list alone; given that the size test did not wrap
around, the rest is the same for all three.

Main definitions:

- `Placement`: the area an allocator picked and what is cut off it.
- `fixedPlacement`, `alignedPlacement`, `topdownPlacement`: where each allocator
  puts a block, if anywhere.

Main results:

- Theorems `smAllocFixed_eq`, `smAllocAligned_eq` and
  `smAllocAlignedTopdown_eq`: an allocator reports a failure or places the
  block.
- Theorem `call_eq_placed`: so does every call that places a block.
-/

namespace Dosemu
namespace Smalloc

open MachineInt Tiling

/-! ## Reports -/

/-- A message to the error notifier. -/
def SmEvent.isReport : SmEvent → Bool
  | .smerr _ | .dump _ _ => true
  | _ => false

/-- Nothing happened but a message. -/
def Reported (s t : SmState) : Prop :=
  ∃ e : SmEvent, e.isReport = true ∧ t = s.emit e

theorem Reported.mp_eq {s t : SmState} (h : Reported s t) : t.mp = s.mp := by
  obtain ⟨e, -, rfl⟩ := h
  rfl

theorem reported_smerror (s : SmState) (msg : SmMsg) : Reported s (s.smerror msg) :=
  ⟨.smerr msg, rfl, rfl⟩

theorem reported_dump (s : SmState) (prio : Int) (msg : SmMsg) :
    Reported s (s.emit (.dump prio msg)) :=
  ⟨.dump prio msg, rfl, rfl⟩

/-! ## Cursors -/

/-- A cursor at a free node in which a block of the size fits; it makes no free
neighbours beyond those it stands between. -/
structure ChosenCursor (lo hi : Nat) (nodes : List MemNode) (size : Nat)
    (z : Zipper MemNode) : Prop extends FreeCursor lo hi nodes z where
  fits : size ≤ z.focus.size
  pairs : NoFreePairs nodes → NoFreePairs z.before ∧ NoFreePairs z.after

section Cursor

variable {lo hi delta size : Nat} {nodes : List MemNode} {z : Zipper MemNode}

/-- Around a free node of a pool without free pairs stand used ones. -/
theorem noFreePairs_around (h : NoFreePairs z.toList) (hfree : z.focus.used = false) :
    nextUsed z.before = true ∧ NoFreePairs z.before ∧
      nextUsed z.after = true ∧ NoFreePairs z.after := by
  obtain ⟨hbefore, hafter⟩ := noFreePairs_append_cons.mp h
  rw [noFreePairs_cons] at hbefore hafter
  simp only [hfree, Bool.false_eq_true, false_or] at hbefore hafter
  exact ⟨hbefore.1, hbefore.2, hafter.1, hafter.2⟩

end Cursor

/-! ## Placements -/

/-- The area an allocator picked, with the bytes it cuts off the front and off
the end before it places the block. -/
structure Placement where
  area : Zipper MemNode
  front : Nat
  tail : Nat

namespace Placement

/-- The cursor at which the block is placed. -/
def cursor (p : Placement) : Zipper MemNode :=
  startAt (endAt p.area p.tail) p.front

/-- The address of the block. -/
def addr (p : Placement) : Nat :=
  p.area.focus.memArea + p.front

/-- The area is a free node of the pool and the block fits in what is left. -/
structure Fits (p : Placement) (nodes : List MemNode) (size : Nat) : Prop where
  list : p.area.toList = nodes
  free : p.area.focus.used = false
  fits : size + p.front + p.tail ≤ p.area.focus.size

variable {lo hi size : Nat} {nodes : List MemNode} {p : Placement}

theorem cursor_memArea (p : Placement) : p.cursor.focus.memArea = p.addr := by
  rw [cursor, startAt_memArea, endAt_memArea, addr]

/-- A cut-down area is a free node of a pool with the same used nodes. -/
theorem Fits.chosen (h : p.Fits nodes size) (htiles : PoolTiles lo nodes hi) (hpos : 0 < size) :
    ChosenCursor lo hi nodes size p.cursor where
  toFreeCursor := by
    have hfits := h.fits
    have hend : FreeCursor lo hi nodes (endAt p.area p.tail) :=
      FreeCursor.endAt ⟨h.list ▸ htiles, by rw [h.list], h.free⟩ (by omega)
    exact hend.startAt (by rw [endAt_size]; omega)
  fits := by
    have hfits := h.fits
    refine le_trans ?_ (startAt_size_le (endAt p.area p.tail) p.front)
    rw [endAt_size]
    omega
  pairs hpairs := by
    rw [← h.list] at hpairs
    obtain ⟨hbu, hb, hau, ha⟩ := noFreePairs_around hpairs h.free
    have hend : (endAt p.area p.tail).before = p.area.before ∧
        NoFreePairs (endAt p.area p.tail).after := by
      unfold endAt
      split
      · exact ⟨rfl, ha⟩
      · exact ⟨rfl, ha.dropFree.freeArea_append ha.nextUsed_dropFree _ _⟩
    unfold cursor startAt
    split
    · exact ⟨hend.1 ▸ hb, hend.2⟩
    · exact ⟨noFreePairs_cons.mpr ⟨Or.inr (hend.1 ▸ hbu), hend.1 ▸ hb⟩, hend.2.dropFree⟩

/-- The block fits the free space. -/
theorem Fits.size_le (h : p.Fits nodes size) : size ≤ freeSum nodes := by
  have hle := size_le_freeSum (h.list ▸ mem_toList p.area) h.free
  have hfits := h.fits
  omega

end Placement

/-- An allocator places the block, or has no place for it and reports. -/
def placeOrReport (com : CommitFn) (s t : SmState) (place : Option Placement)
    (size : Nat) : Option MemNode × SmState :=
  match place with
  | none => (none, t)
  | some p => placeBlock com s p.cursor size

/-! ## `sm_alloc_fixed` -/

/-- Where `sm_alloc_fixed` puts a block. -/
def fixedPlacement (nodes : List MemNode) (ptr size : Nat) : Option Placement :=
  match findMnAt nodes ptr with
  | none => none
  | some z =>
      if z.focus.used = true ∨ z.focus.size < uwrap 64 (size + (ptr - z.focus.memArea : Nat)) then
        none
      else some { area := z, front := ptr - z.focus.memArea, tail := 0 }

/-- The size test of `sm_alloc_fixed` does not wrap around. -/
def FixedNoWrap (nodes : List MemNode) (ptr size : Nat) : Prop :=
  ∀ mn ∈ nodes, mn.used = false → mn.memArea ≤ ptr → ptr < mn.memArea + mn.size →
    uwrap 64 (size + (ptr - mn.memArea : Nat)) ≤ mn.size → size + (ptr - mn.memArea) ≤ mn.size

section Fixed

variable {lo hi ptr size : Nat} {s : SmState} {nodes : List MemNode} {z : Zipper MemNode}

/-- `find_mn_at` finds the node that holds the address. -/
theorem findMnAt_eq_some (h : findMnAt nodes ptr = some z) :
    z.toList = nodes ∧ z.focus.memArea ≤ ptr ∧ ptr < z.focus.memArea + z.focus.size := by
  obtain ⟨_, -, -, hhit, hstop, -⟩ := Zipper.scan_eq_some h
  simp only [decide_eq_true_eq, decide_eq_false_iff_not] at hhit hstop
  exact ⟨Zipper.scan_toList h, by omega, hhit⟩

/-- The place of a fixed allocation. -/
theorem fixedPlacement_fits {p : Placement} (hwrap : FixedNoWrap nodes ptr size)
    (h : fixedPlacement nodes ptr size = some p) : p.Fits nodes size ∧ p.addr = ptr := by
  unfold fixedPlacement at h
  split at h
  · simp at h
  · rename_i z hfind
    obtain ⟨hlist, hle, hlt⟩ := findMnAt_eq_some hfind
    split at h
    · simp at h
    · rename_i hcond
      push Not at hcond
      have hfree : z.focus.used = false := by simpa using hcond.1
      have hfit := hwrap z.focus (hlist ▸ mem_toList z) hfree hle hlt hcond.2
      cases h
      exact ⟨⟨hlist, hfree, hfit⟩, Nat.add_sub_cancel' hle⟩

/-- `sm_alloc_fixed` reports a failure or places the block. -/
theorem smAllocFixed_eq (com : CommitFn) (hwf : WellFormed lo hi s.mp) (hptr : ptr ≠ 0)
    (hsize : size ≠ 0) (hwrap : FixedNoWrap s.mp.nodes ptr size) :
    ∃ t, Reported s t ∧ smAllocFixed com s ptr size =
      some (placeOrReport com s t (fixedPlacement s.mp.nodes ptr size) size) := by
  unfold smAllocFixed
  simp only [hptr, hsize, or_self, if_false]
  cases hfind : findMnAt s.mp.nodes ptr with
  | none =>
      refine ⟨s.smerror (.invalidAddress ptr), reported_smerror s _, ?_⟩
      simp [fixedPlacement, hfind, placeOrReport]
  | some z =>
      obtain ⟨hlist, hle, hlt⟩ := findMnAt_eq_some hfind
      have htiles : PoolTiles lo z.toList hi := hlist ▸ hwf.tiles
      have hb := focus_bounds htiles
      have hend := hwf.range.le
      have hdelta : uwrap 32 ((ptr : Int) - z.focus.memArea) = ptr - z.focus.memArea :=
        uwrap_sub hle (by omega)
      cases hused : z.focus.used
      · by_cases hover : z.focus.size < uwrap 64 (size + (ptr - z.focus.memArea : Nat))
        · refine ⟨_, reported_dump s (oomPr s.mp size) (.noSpaceAt size ptr), ?_⟩
          simp only [placeOrReport, fixedPlacement, hfind, hused, hdelta, hover,
            Bool.false_eq_true, if_false, if_true, or_true, doSmerror_oomPr, Option.bind_eq_bind,
            Option.bind_some]
          rfl
        · have hfit := hwrap z.focus (hlist ▸ mem_toList z) hused hle hlt (by omega)
          have hplace : fixedPlacement s.mp.nodes ptr size =
              some { area := z, front := ptr - z.focus.memArea, tail := 0 } := by
            simp [fixedPlacement, hfind, hused, hover]
          obtain ⟨hfits, -⟩ := fixedPlacement_fits hwrap hplace
          have hchosen := hfits.chosen hwf.tiles (by omega)
          have htake := takeArea_eq (s := s) com hwf.range hchosen.tiles
            (hwf.avail ▸ hfits.size_le) (by omega) hchosen.fits
          refine ⟨_, reported_smerror s .zeroSized, ?_⟩
          simp only [placeOrReport, hplace, hdelta, hover, hused, Bool.false_eq_true, if_false]
          rw [← htake]
          by_cases hzero : ptr - z.focus.memArea = 0
          · simp [hzero, Placement.cursor, startAt]
          · simp only [hzero, ne_eq, not_false_eq_true, if_true]
            rw [skipFront_eq hwf.range htiles (by omega) (by omega) hfit]
            simp [hzero, Placement.cursor, startAt]
      · refine ⟨_, reported_dump s 0 (.alreadyAllocated ptr), ?_⟩
        simp [placeOrReport, fixedPlacement, hfind, hused, doSmerror, cAssert]

end Fixed

/-! ## `sm_alloc_aligned` -/

/-- Where `sm_alloc_aligned` puts a block. -/
def alignedPlacement (nodes : List MemNode) (align size : Nat) : Option Placement :=
  (smfindFreeArea nodes (align - 1) size).map fun z =>
    { area := z, front := alignPad z.focus.memArea (align - 1), tail := 0 }

/-- The size test of `smfind_free_area` does not wrap around. -/
def AlignedNoWrap (nodes : List MemNode) (align size : Nat) : Prop :=
  ∀ mn ∈ nodes, mn.used = false →
    uwrap 64 (size + alignPad mn.memArea (align - 1)) ≤ mn.size →
      size + alignPad mn.memArea (align - 1) ≤ mn.size

section Aligned

variable {lo hi align size : Nat} {s : SmState} {nodes : List MemNode} {z : Zipper MemNode}

/-- `smfind_free_area` finds a free node that passes its size test. -/
theorem smfindFreeArea_eq_some {mask : Nat} (h : smfindFreeArea nodes mask size = some z) :
    z.toList = nodes ∧ z.focus.used = false ∧
      uwrap 64 (size + alignPad z.focus.memArea mask) ≤ z.focus.size := by
  have hhit := Zipper.scan_hit h
  simp only [Bool.and_eq_true, Bool.not_eq_true', decide_eq_true_eq] at hhit
  exact ⟨Zipper.scan_toList h, hhit⟩

/-- The place of an aligned allocation. -/
theorem alignedPlacement_fits {k : Nat} {p : Placement} (halign : align = 2 ^ k)
    (hwrap : AlignedNoWrap nodes align size) (h : alignedPlacement nodes align size = some p) :
    p.Fits nodes size ∧ align ∣ p.addr := by
  obtain ⟨z, hfind, rfl⟩ := Option.map_eq_some_iff.mp h
  obtain ⟨hlist, hfree, hfit⟩ := smfindFreeArea_eq_some hfind
  have hfit := hwrap z.focus (hlist ▸ mem_toList z) hfree hfit
  refine ⟨⟨hlist, hfree, hfit⟩, ?_⟩
  rw [Placement.addr, halign]
  exact alignPad_aligned z.focus.memArea k

/-- `sm_alloc_aligned` reports a failure or places the block. -/
theorem smAllocAligned_eq {k : Nat} (com : CommitFn) (hwf : WellFormed lo hi s.mp)
    (hsize : size ≠ 0) (halign : align = 2 ^ k) (hk : k < 32)
    (hwrap : AlignedNoWrap s.mp.nodes align size) :
    ∃ t, Reported s t ∧ smAllocAligned com s align size =
      some (placeOrReport com s t (alignedPlacement s.mp.nodes align size) size) := by
  have hpop : popcount 32 align = 1 := by rw [halign]; exact popcount_two_pow hk
  refine ⟨_, reported_dump s (oomPr s.mp size) (.outOfMemoryOnAlloc size), ?_⟩
  unfold smAllocAligned
  simp only [hsize, if_false, Option.bind_eq_bind, cAssert_bind hpop]
  cases hfind : smfindFreeArea s.mp.nodes (align - 1) size with
  | none => simp [placeOrReport, alignedPlacement, hfind, doSmerror_oomPr]
  | some z =>
      obtain ⟨hlist, hfree, hfit⟩ := smfindFreeArea_eq_some hfind
      have hfit := hwrap z.focus (hlist ▸ mem_toList z) hfree hfit
      have htiles : PoolTiles lo z.toList hi := hlist ▸ hwf.tiles
      have hb := focus_bounds htiles
      have hend := hwf.range.le
      have hsmall := hwf.range.small
      have hplace : alignedPlacement s.mp.nodes align size =
          some { area := z, front := alignPad z.focus.memArea (align - 1), tail := 0 } := by
        simp [alignedPlacement, hfind]
      obtain ⟨hfits, -⟩ := alignedPlacement_fits halign hwrap hplace
      have hchosen := hfits.chosen hwf.tiles (by omega)
      have htake := takeArea_eq (s := s) com hwf.range hchosen.tiles
        (hwf.avail ▸ hfits.size_le) (by omega) hchosen.fits
      have hcast : uwrap 64 (alignPad z.focus.memArea (align - 1) : Nat) =
          alignPad z.focus.memArea (align - 1) := uwrap_natCast (by omega)
      have hdelta := swrap_natCast (w := 32) (n := alignPad z.focus.memArea (align - 1))
        (by norm_num) (by omega)
      simp only [placeOrReport, hplace, hdelta]
      rw [← htake]
      by_cases hzero : alignPad z.focus.memArea (align - 1) = 0
      · simp [hzero, Placement.cursor, startAt]
      · have hne : ((alignPad z.focus.memArea (align - 1) : Nat) : Int) ≠ 0 :=
          Int.natCast_ne_zero.mpr hzero
        rw [if_pos hne, hcast, skipFront_eq hwf.range htiles (Nat.pos_of_ne_zero hzero)
          (Nat.pos_of_ne_zero hsize) hfit]
        simp [hzero, Placement.cursor, startAt]

/-- A plain allocation is one at alignment 1; its size test cannot wrap. -/
theorem alignedNoWrap_one (nodes : List MemNode) (hsize : size < 2 ^ 64) :
    AlignedNoWrap nodes 1 size := by
  intro mn _ _ h
  have hpad : alignPad mn.memArea (1 - 1) = 0 := Nat.lt_one_iff.mp (alignPad_lt mn.memArea 0)
  rw [hpad] at h ⊢
  simp only [Nat.cast_zero, add_zero] at h ⊢
  rwa [uwrap_natCast hsize] at h

/-- `sm_alloc_mn` reports a failure or places the block. -/
theorem smAllocMn_eq (com : CommitFn) (hwf : WellFormed lo hi s.mp) (hsize : size ≠ 0)
    (hlt : size < 2 ^ 64) :
    ∃ t, Reported s t ∧ smAllocMn com s size =
      some (placeOrReport com s t (alignedPlacement s.mp.nodes 1 size) size) :=
  smAllocAligned_eq com hwf hsize (k := 0) rfl (by norm_num) (alignedNoWrap_one _ hlt)

end Aligned

/-! ## `sm_alloc_aligned_topdown` -/

/-- Where `sm_alloc_aligned_topdown` puts a block. -/
def topdownPlacement (nodes : List MemNode) (top align size : Nat) : Option Placement :=
  (smfindFreeAreaTopdown nodes top (align - 1) size).map fun z =>
    { area := z
      front := topdownPtr z.focus top (align - 1) size - z.focus.memArea
      tail := z.focus.memArea + z.focus.size -
        (topdownPtr z.focus top (align - 1) size + size) }

section Topdown

variable {lo hi top align size : Nat} {s : SmState} {nodes : List MemNode}
  {z : Zipper MemNode}

/-- `smfind_free_area_topdown` finds a free node that holds the block under the
ceiling. -/
theorem smfindFreeAreaTopdown_eq_some {mask : Nat}
    (h : smfindFreeAreaTopdown nodes top mask size = some z) :
    z.toList = nodes ∧ z.focus.used = false ∧ size ≤ minTop z.focus top ∧
      z.focus.memArea ≤ topdownPtr z.focus top mask size := by
  rcases Zipper.scanLast_eq_some h with h | ⟨hlist, hhit, -⟩
  · simp at h
  · simp only [Bool.and_eq_true, Bool.not_eq_true', decide_eq_true_eq] at hhit
    exact ⟨by simpa using hlist, hhit.1.1.1, hhit.1.2, hhit.2⟩

/-- The ceiling of an area whose end wraps to zero admits no block. -/
theorem minTop_le {mn : MemNode} (hsize : 0 < size) (hend : mn.memArea + mn.size ≤ 2 ^ 32)
    (hle : size ≤ minTop mn top) :
    minTop mn top ≤ mn.memArea + mn.size ∧ mn.memArea + mn.size < 2 ^ 32 := by
  have hcap : minTop mn top ≤ uwrap 32 (mn.memArea + mn.size) := by
    unfold minTop
    split
    · exact Nat.min_le_left _ _
    · exact le_rfl
  have hlt : mn.memArea + mn.size < 2 ^ 32 := by
    by_contra hge
    have heq : (mn.memArea : Int) + mn.size = 2 ^ 32 := by omega
    rw [heq, show uwrap 32 (2 ^ 32) = 0 by decide +kernel] at hcap
    omega
  have hval : uwrap 32 ((mn.memArea : Int) + mn.size) = mn.memArea + mn.size := by
    rw [uwrap_of_lt (by omega) (by omega)]
    omega
  rw [hval] at hcap
  exact ⟨hcap, hlt⟩

/-- The address picked from the top, in ordinary arithmetic. -/
theorem topdownPtr_eq {mn : MemNode} {k : Nat} (hk : k < 32)
    (htop : minTop mn top ≤ 2 ^ 32) (hle : size ≤ minTop mn top) :
    topdownPtr mn top (2 ^ k - 1) size = (minTop mn top - size) / 2 ^ k * 2 ^ k := by
  have hpow : 0 < 2 ^ k := Nat.two_pow_pos k
  have hmask : 2 ^ 64 - 1 - (2 ^ k - 1) = 2 ^ 64 - 2 ^ k := by omega
  have hdiff : uwrap 64 ((minTop mn top : Int) - size) = minTop mn top - size := by
    rw [uwrap_of_lt (by omega) (by omega)]
    omega
  rw [topdownPtr, hmask, hdiff]
  exact land_compl_mask (by omega) (lt_of_le_of_lt (Nat.sub_le _ _) (by omega))

/-- The address picked from the top is aligned and leaves room for the block. -/
theorem topdownPtr_spec {mn : MemNode} {k : Nat} (hk : k < 32)
    (htop : minTop mn top ≤ 2 ^ 32) (hle : size ≤ minTop mn top) :
    2 ^ k ∣ topdownPtr mn top (2 ^ k - 1) size ∧
      topdownPtr mn top (2 ^ k - 1) size + size ≤ minTop mn top := by
  rw [topdownPtr_eq hk htop hle]
  refine ⟨Nat.dvd_mul_left _ _, ?_⟩
  have hdiv := Nat.div_mul_le_self (minTop mn top - size) (2 ^ k)
  omega

/-- The picked address lies in the area, with the block after it. -/
theorem topdown_bounds {k : Nat} (htiles : PoolTiles lo nodes hi) (hhi : hi ≤ 2 ^ 32)
    (hpos : 0 < size) (hk : k < 32)
    (hfind : smfindFreeAreaTopdown nodes top (2 ^ k - 1) size = some z) :
    2 ^ k ∣ topdownPtr z.focus top (2 ^ k - 1) size ∧
      z.focus.memArea ≤ topdownPtr z.focus top (2 ^ k - 1) size ∧
      topdownPtr z.focus top (2 ^ k - 1) size + size ≤ z.focus.memArea + z.focus.size ∧
      z.focus.memArea + z.focus.size < 2 ^ 32 := by
  obtain ⟨hlist, -, htop, hge⟩ := smfindFreeAreaTopdown_eq_some hfind
  have hb := focus_bounds (hlist ▸ htiles)
  obtain ⟨hmin, hlt⟩ := minTop_le hpos (by omega) htop
  obtain ⟨hdvd, hroom⟩ := topdownPtr_spec hk (by omega) htop
  exact ⟨hdvd, hge, by omega, hlt⟩

/-- The place of a top-down allocation. -/
theorem topdownPlacement_fits (top : Nat) {k : Nat} {p : Placement}
    (htiles : PoolTiles lo nodes hi) (hhi : hi ≤ 2 ^ 32) (hpos : 0 < size)
    (halign : align = 2 ^ k) (hk : k < 32) (h : topdownPlacement nodes top align size = some p) :
    p.Fits nodes size ∧ align ∣ p.addr := by
  subst halign
  obtain ⟨z, hfind, rfl⟩ := Option.map_eq_some_iff.mp h
  obtain ⟨hlist, hfree, -, -⟩ := smfindFreeAreaTopdown_eq_some hfind
  obtain ⟨hdvd, hge, hroom, -⟩ := topdown_bounds htiles hhi hpos hk hfind
  refine ⟨⟨hlist, hfree, by simp only; omega⟩, ?_⟩
  rw [Placement.addr, Nat.add_sub_cancel' hge]
  exact hdvd

/-- Cutting an area down to a block at `iptr`, from its end and then from its
front. -/
theorem cutTopdown_eq {iptr : Nat} (hr : PoolRange lo hi) (htiles : PoolTiles lo z.toList hi)
    (hfree : z.focus.used = false) (hsize : size ≠ 0) (hge : z.focus.memArea ≤ iptr)
    (hroom : iptr + size ≤ z.focus.memArea + z.focus.size)
    (hlt : z.focus.memArea + z.focus.size < 2 ^ 32) :
    cutTopdown z iptr size =
      some (startAt (endAt z (z.focus.memArea + z.focus.size - (iptr + size)))
        (iptr - z.focus.memArea)) := by
  have hb := focus_bounds htiles
  have hend := hr.le
  have hsmall := hr.small
  obtain ⟨tail, htail⟩ : ∃ tail, z.focus.memArea + z.focus.size - (iptr + size) = tail := ⟨_, rfl⟩
  obtain ⟨delta, hdelta⟩ : ∃ delta, iptr - z.focus.memArea = delta := ⟨_, rfl⟩
  have hcut : FreeCursor lo hi z.toList (endAt z tail) :=
    FreeCursor.endAt ⟨htiles, rfl, hfree⟩ (by omega)
  have hskip : (if (delta : Int) ≠ 0 then skipFront (endAt z tail) delta size
      else some (endAt z tail)) = some (startAt (endAt z tail) delta) := by
    unfold startAt
    by_cases hzero : delta = 0
    · simp [hzero]
    · rw [if_pos (by omega), skipFront_eq hr hcut.tiles (by omega) (by omega)
        (by rw [endAt_size]; omega), if_neg hzero]
  have htailsmall : tail < 2 ^ 31 ∧ delta < 2 ^ 31 ∧ tail ≤ z.focus.size := by omega
  have hshort : 0 < z.focus.size - tail ∧ (tail ≠ 0 → z.focus.size - tail < z.focus.size) := by
    omega
  have hiend : uwrap 32 ((iptr : Int) + size) = iptr + size := uwrap_add (by omega)
  have hdelta32 : uwrap 32 ((iptr : Int) - z.focus.memArea) = delta := by
    rw [uwrap_sub hge (by omega), hdelta]
  have htail64 : uwrap 64 ((z.focus.memArea : Int) + z.focus.size - ((iptr + size : Nat) : Int)) =
      tail := by
    rw [← Nat.cast_add, uwrap_sub hroom (by omega), htail]
  have hlen : uwrap 64 ((z.focus.size : Int) - tail) = z.focus.size - tail :=
    uwrap_sub htailsmall.2.2 (by omega)
  have hdelta64 : uwrap 64 (delta : Int) = delta := uwrap_natCast (by omega)
  have htails := swrap_natCast (w := 32) (by norm_num) htailsmall.1
  have hdeltas := swrap_natCast (w := 32) (by norm_num) htailsmall.2.1
  rw [htail, hdelta, ← hskip]
  unfold cutTopdown endAt
  simp only [hiend, htail64, htails, Option.bind_eq_bind, Option.bind_some]
  by_cases hzero : tail = 0
  · simp only [hzero, Nat.cast_zero, ne_eq, not_true_eq_false, if_false, if_true]
    rw [cAssert_bind hge, hdelta32, hdeltas, hdelta64]
  · have hne : (tail : Int) ≠ 0 := Int.natCast_ne_zero.mpr hzero
    rw [if_pos hne, hlen, mntruncate_shortened hr htiles hshort.1 (hshort.2 hzero), if_neg hzero,
      Option.bind_some, cAssert_bind (by exact hge)]
    simp only [shortened, hdelta32, hdeltas, hdelta64]

/-- `sm_alloc_aligned_topdown` reports a failure or places the block. -/
theorem smAllocAlignedTopdown_eq (com : CommitFn) (top : Nat) {k : Nat}
    (hwf : WellFormed lo hi s.mp) (hsize : size ≠ 0) (halign : align = 2 ^ k) (hk : k < 32) :
    ∃ t, Reported s t ∧ smAllocAlignedTopdown com s top align size =
      some (placeOrReport com s t (topdownPlacement s.mp.nodes top align size) size) := by
  have hpop : popcount 32 align = 1 := by rw [halign]; exact popcount_two_pow hk
  refine ⟨_, reported_dump s (oomPr s.mp size) (.outOfMemoryOnAlloc size), ?_⟩
  unfold smAllocAlignedTopdown
  simp only [hsize, if_false, Option.bind_eq_bind, cAssert_bind hpop]
  cases hfind : smfindFreeAreaTopdown s.mp.nodes top (align - 1) size with
  | none => simp [placeOrReport, topdownPlacement, hfind, doSmerror_oomPr]
  | some z =>
      obtain ⟨hlist, hfree, -, -⟩ := smfindFreeAreaTopdown_eq_some hfind
      have htiles : PoolTiles lo z.toList hi := hlist ▸ hwf.tiles
      have hb := focus_bounds htiles
      have hend := hwf.range.le
      have hsmall := hwf.range.small
      obtain ⟨-, hge, hroom, hlt⟩ := topdown_bounds hwf.tiles hend (Nat.pos_of_ne_zero hsize) hk
        (halign ▸ hfind)
      rw [← halign] at hge hroom
      have hptr : uwrap 32 (topdownPtr z.focus top (align - 1) size : Nat) =
          topdownPtr z.focus top (align - 1) size := uwrap_natCast (by omega)
      have hcut := cutTopdown_eq hwf.range htiles hfree hsize hge hroom hlt
      have hplace : topdownPlacement s.mp.nodes top align size = _ :=
        congrArg (Option.map _) hfind
      obtain ⟨hfits, -⟩ := topdownPlacement_fits top hwf.tiles hend (Nat.pos_of_ne_zero hsize)
        halign hk hplace
      have hchosen := hfits.chosen hwf.tiles (Nat.pos_of_ne_zero hsize)
      simp only [placeOrReport, hplace, hptr, hcut, Option.map_some, Option.bind_some]
      exact takeArea_eq com hwf.range hchosen.tiles (hwf.avail ▸ hfits.size_le)
        (Nat.pos_of_ne_zero hsize) hchosen.fits

end Topdown

/-! ## Calls that place a block -/

/-- No block starts at the address that `smfree` takes for a failed
allocation. -/
def NoTopBlock (nodes : List MemNode) : Prop :=
  ∀ mn ∈ usedNodes nodes, mn.memArea ≠ badAddr

/-- The calls whose arguments the code can handle in the state: alignments are
powers of two and fit an `unsigned int`, the size tests do not wrap around, and
`smfree_all` meets no block that `smfree` refuses. -/
def CallOk (s : SmState) : SmCall → Prop
  | .smallocFixed ptr size => FixedNoWrap s.mp.nodes ptr.toNat size.toNat
  | .smallocAligned align size =>
      (∃ k, align.toNat = 2 ^ k) ∧ (size.toNat ≠ 0 → align.toNat < 2 ^ 32) ∧
        AlignedNoWrap s.mp.nodes align.toNat size.toNat
  | .smallocAlignedTopdown _ align size =>
      (∃ k, align.toNat = 2 ^ k) ∧ (size.toNat ≠ 0 → align.toNat < 2 ^ 32)
  | .smfreeAll => NoTopBlock s.mp.nodes
  | .smalloc _ | .smallocTopdown _ | .smfree _ | .smrealloc _ _ => True

/-- The calls that do nothing but place a block. -/
def SmCall.places : SmCall → Bool
  | .smalloc _ | .smallocFixed _ _ | .smallocAligned _ _ | .smallocTopdown _
  | .smallocAlignedTopdown _ _ _ => true
  | .smrealloc ptr _ => ptr.toNat = 0
  | .smfree _ | .smfreeAll => false

/-- The size a call asks for. -/
def SmCall.size : SmCall → Nat
  | .smalloc size | .smallocFixed _ size | .smallocAligned _ size | .smallocTopdown size
  | .smallocAlignedTopdown _ _ size | .smrealloc _ size => size.toNat
  | .smfree _ | .smfreeAll => 0

/-- Where a call puts its block. -/
def callPlacement (nodes : List MemNode) : SmCall → Option Placement
  | .smalloc size => alignedPlacement nodes 1 size.toNat
  | .smallocFixed ptr size =>
      if ptr.toNat = 0 then none else fixedPlacement nodes ptr.toNat size.toNat
  | .smallocAligned align size => alignedPlacement nodes align.toNat size.toNat
  | .smallocTopdown size => topdownPlacement nodes badAddr 1 size.toNat
  | .smallocAlignedTopdown top align size =>
      topdownPlacement nodes top.toNat align.toNat size.toNat
  | .smrealloc ptr size => if ptr.toNat = 0 then alignedPlacement nodes 1 size.toNat else none
  | .smfree _ | .smfreeAll => none

/-- The address a placing call returns, with the pool it leaves. -/
def returned (r : Option MemNode × SmState) : Int × SmState := (areaOr r.1, r.2)

section Calls

variable {lo hi : Nat} {s : SmState} {c : SmCall}

theorem exponent_lt {align k : Nat} (halign : align = 2 ^ k) (hlt : align < 2 ^ 32) : k < 32 :=
  (Nat.pow_lt_pow_iff_right (by norm_num)).mp (halign ▸ hlt)

theorem land_mask_of_dvd {align k addr : Nat} (halign : align = 2 ^ k) (h : align ∣ addr) :
    addr &&& (align - 1) = 0 := by
  rw [halign, Nat.and_two_pow_sub_one_eq_mod]
  exact Nat.mod_eq_zero_of_dvd (halign ▸ h)

/-- The address of the block an allocator hands out, given its place. -/
theorem memArea_of_placement (com : CommitFn) (s t : SmState) (size : Nat)
    {place : Option Placement} {P : Nat → Prop} (hp : ∀ p ∈ place, P p.addr) :
    ∀ m ∈ (placeOrReport com s t place size).1, P m.memArea := by
  cases place with
  | none => simp [placeOrReport]
  | some p =>
      intro m hm
      have harea : m.memArea = p.cursor.focus.memArea := by
        simp only [placeOrReport, placeBlock] at hm
        split at hm <;> simp at hm
        rw [← hm]
      rw [harea, p.cursor_memArea]
      exact hp p rfl

/-- The place of a call is a free area in which the block fits. -/
theorem callPlacement_fits {p : Placement} (hwf : WellFormed lo hi s.mp) (hok : CallOk s c)
    (hsize : c.size ≠ 0) (h : callPlacement s.mp.nodes c = some p) :
    p.Fits s.mp.nodes c.size := by
  have hpos := Nat.pos_of_ne_zero hsize
  cases c with
  | smalloc size =>
      exact (alignedPlacement_fits (k := 0) rfl (alignedNoWrap_one _ size.toNat_lt) h).1
  | smallocFixed ptr size =>
      simp only [callPlacement] at h
      split at h
      · simp at h
      · exact (fixedPlacement_fits hok h).1
  | smallocAligned align size =>
      obtain ⟨⟨k, hk⟩, -, hwrap⟩ := hok
      exact (alignedPlacement_fits hk hwrap h).1
  | smallocTopdown size =>
      exact (topdownPlacement_fits badAddr (k := 0) hwf.tiles hwf.range.le hpos rfl
        (by norm_num) h).1
  | smallocAlignedTopdown top align size =>
      obtain ⟨⟨k, hk⟩, hlt⟩ := hok
      exact (topdownPlacement_fits top.toNat hwf.tiles hwf.range.le hpos hk
        (exponent_lt hk (hlt hsize)) h).1
  | smrealloc ptr size =>
      simp only [callPlacement] at h
      split at h
      · exact (alignedPlacement_fits (k := 0) rfl (alignedNoWrap_one _ size.toNat_lt) h).1
      · simp at h
  | smfree ptr => simp [callPlacement] at h
  | smfreeAll => simp [callPlacement] at h

/-- A call for no bytes only reports. -/
theorem call_eq_zeroSized (com : CommitFn) (s : SmState) (hp : c.places = true)
    (hsize : c.size = 0) : call com s c = some (returned (none, s.smerror .zeroSized)) := by
  cases c with
  | smalloc size =>
      have hsize : size.toNat = 0 := hsize
      simp [call, smalloc, smAllocMn, smAllocAligned, hsize, areaOr, returned]
  | smallocFixed ptr size =>
      have hsize : size.toNat = 0 := hsize
      simp [call, smallocFixed, smAllocFixed, hsize, areaOr, cAssert, returned]
  | smallocAligned align size =>
      have hsize : size.toNat = 0 := hsize
      simp [call, smallocAligned, smAllocAligned, hsize, areaOr, cAssert, returned]
  | smallocTopdown size =>
      have hsize : size.toNat = 0 := hsize
      simp [call, smallocTopdown, smAllocTopdown, smAllocAlignedTopdown, hsize, areaOr, returned]
  | smallocAlignedTopdown top align size =>
      have hsize : size.toNat = 0 := hsize
      simp [call, smallocAlignedTopdown, smAllocAlignedTopdown, hsize, areaOr, cAssert, returned]
  | smrealloc ptr size =>
      have hsize : size.toNat = 0 := hsize
      have hptr : ptr.toNat = 0 := by simpa [SmCall.places] using hp
      simp [call, smrealloc, hptr, smalloc, smAllocMn, smAllocAligned, hsize, areaOr, returned]
  | smfree ptr => simp [SmCall.places] at hp
  | smfreeAll => simp [SmCall.places] at hp

/-- A call that places a block does that or reports, and fails no assert. -/
theorem call_eq_placed (com : CommitFn) (hwf : WellFormed lo hi s.mp) (hok : CallOk s c)
    (hp : c.places = true) (hsize : c.size ≠ 0) :
    ∃ t, Reported s t ∧ call com s c =
      some (returned (placeOrReport com s t (callPlacement s.mp.nodes c) c.size)) := by
  cases c with
  | smalloc size =>
      have hsize : size.toNat ≠ 0 := hsize
      obtain ⟨t, ht, heq⟩ := smAllocMn_eq com hwf hsize size.toNat_lt
      exact ⟨t, ht, by simp only [call, smalloc, heq]; rfl⟩
  | smallocFixed ptr size =>
      have hsize : size.toNat ≠ 0 := hsize
      by_cases hptr : ptr.toNat = 0
      · refine ⟨_, reported_smerror s .zeroSized, ?_⟩
        simp [call, smallocFixed, smAllocFixed, hptr, callPlacement, placeOrReport, returned,
          areaOr, cAssert]
      · obtain ⟨t, ht, heq⟩ := smAllocFixed_eq com hwf hptr hsize hok
        have hassert := memArea_of_placement com s t size.toNat (P := (· = ptr.toNat))
          fun p hplace => (fixedPlacement_fits hok hplace).2
        refine ⟨t, ht, ?_⟩
        simp only [call, smallocFixed, heq, Option.bind_eq_bind, Option.bind_some,
          cAssert_bind hassert, callPlacement, hptr, if_false]
        rfl
  | smallocAligned align size =>
      have hsize : size.toNat ≠ 0 := hsize
      obtain ⟨⟨k, hk⟩, hlt, hwrap⟩ := hok
      obtain ⟨t, ht, heq⟩ := smAllocAligned_eq com hwf hsize hk (exponent_lt hk (hlt hsize)) hwrap
      have hassert := memArea_of_placement com s t size.toNat
        (P := fun a => a &&& (align.toNat - 1) = 0)
        fun p hplace => land_mask_of_dvd hk (alignedPlacement_fits hk hwrap hplace).2
      refine ⟨t, ht, ?_⟩
      simp only [call, smallocAligned, heq, Option.bind_eq_bind, Option.bind_some,
        cAssert_bind hassert]
      rfl
  | smallocTopdown size =>
      have hsize : size.toNat ≠ 0 := hsize
      obtain ⟨t, ht, heq⟩ := smAllocAlignedTopdown_eq com badAddr (k := 0) hwf hsize rfl
        (by norm_num)
      have heq : smAllocTopdown com s size.toNat = _ := heq
      exact ⟨t, ht, by simp only [call, smallocTopdown, heq]; rfl⟩
  | smallocAlignedTopdown top align size =>
      have hsize : size.toNat ≠ 0 := hsize
      obtain ⟨⟨k, hk⟩, hlt⟩ := hok
      have hk32 := exponent_lt hk (hlt hsize)
      obtain ⟨t, ht, heq⟩ := smAllocAlignedTopdown_eq com top.toNat hwf hsize hk hk32
      have hassert := memArea_of_placement com s t size.toNat
        (P := fun a => a &&& (align.toNat - 1) = 0) fun p hplace => land_mask_of_dvd hk
          (topdownPlacement_fits top.toNat hwf.tiles hwf.range.le (Nat.pos_of_ne_zero hsize) hk hk32
            hplace).2
      refine ⟨t, ht, ?_⟩
      simp only [call, smallocAlignedTopdown, heq, Option.bind_eq_bind, Option.bind_some,
        cAssert_bind hassert]
      rfl
  | smrealloc ptr size =>
      have hsize : size.toNat ≠ 0 := hsize
      have hptr : ptr.toNat = 0 := by simpa [SmCall.places] using hp
      obtain ⟨t, ht, heq⟩ := smAllocMn_eq com hwf hsize size.toNat_lt
      refine ⟨t, ht, ?_⟩
      simp only [call, smrealloc, hptr, if_true, smalloc, heq, callPlacement]
      rfl
  | smfree ptr => simp [SmCall.places] at hp
  | smfreeAll => simp [SmCall.places] at hp

end Calls

end Smalloc
end Dosemu
