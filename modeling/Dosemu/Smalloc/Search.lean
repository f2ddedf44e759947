import Dosemu.Smalloc.Commit

/-!
# Where the allocators put a block

`Suits` says at which addresses a request could be served: they are aligned, in
free space and below the ceiling.  The allocators look for such an address node
by node; the best one is the lowest, and for the top-down form the highest.

Main results:

- Theorem `freeBlock_iff`: without free neighbours, a free stretch lies in one
  node.
- Theorems `alignedPlacement_best`, `topdownPlacement_best` and
  `fixedPlacement_best`: the search ends at the best address.
- Theorem `placement_iff`: which requests are served at the best address.
-/

namespace Dosemu
namespace Smalloc

open MachineInt Tiling

/-- All addresses of a stretch are free. -/
def FreeBlock (nodes : List MemNode) (addr size : Nat) : Prop :=
  ∀ x, addr ≤ x → x < addr + size →
    ∃ mn ∈ nodes, mn.used = false ∧ mn.memArea ≤ x ∧ x < mn.memArea + mn.size

/-- The addresses at which a request could be served. -/
def Suits (nodes : List MemNode) : SmCall → Nat → Prop
  | .smallocFixed ptr size, addr => addr = ptr.toNat ∧ FreeBlock nodes addr size.toNat
  | .smallocAligned align size, addr => align.toNat ∣ addr ∧ FreeBlock nodes addr size.toNat
  | .smallocAlignedTopdown top align size, addr =>
      align.toNat ∣ addr ∧ FreeBlock nodes addr size.toNat ∧
        (top.toNat = badAddr ∨ addr + size.toNat ≤ top.toNat)
  | _, _ => False

/-- Whether an address is at least as good as another one: lower, or higher for the top-down
form. -/
def Prefers : SmCall → Nat → Nat → Prop
  | .smallocAlignedTopdown _ _ _, addr, other => other ≤ addr
  | _, addr, other => addr ≤ other

/-- The best address for a request. -/
def Best (nodes : List MemNode) (c : SmCall) (addr : Nat) : Prop :=
  Suits nodes c addr ∧ ∀ other, Suits nodes c other → Prefers c addr other

/-- A request for some bytes at an address, or aligned to a power of two. -/
def SmCall.Requests : SmCall → Prop
  | .smallocFixed ptr size => ptr.toNat ≠ 0 ∧ size.toNat ≠ 0
  | .smallocAligned align size | .smallocAlignedTopdown _ align size =>
      (∃ k, align.toNat = 2 ^ k) ∧ size.toNat ≠ 0
  | _ => False

/-- A new block is apart from the others, and these stay as they are. -/
structure AddsBlock (nodes nodes' : List MemNode) (addr size : Nat) : Prop where
  apart : ∀ mn ∈ usedNodes nodes, addr + size ≤ mn.memArea ∨ mn.memArea + mn.size ≤ addr
  used : ∀ mn, mn ∈ usedNodes nodes' ↔ mn ∈ usedNodes nodes ∨ mn = ⟨size, true, addr⟩

/-- A request returns the best address, or fails where no address suits. -/
def ServesBest (com : CommitFn) (s : SmState) (c : SmCall) : Prop :=
  ∃ r, call com s c = some r ∧
    ((∀ addr, ¬Suits s.mp.nodes c addr) → r.1 = badAddr ∧ r.2.mp = s.mp) ∧
    ((∃ addr, Suits s.mp.nodes c addr) → ∃ addr, Best s.mp.nodes c addr ∧ addr ≠ badAddr ∧
      r.1 = addr ∧ AddsBlock s.mp.nodes r.2.mp.nodes addr c.size)

/-- The best address is one that the search reaches and that does not stand for a failure.  The
top-down search passes over an area that ends where the addresses end. -/
def Reaches (nodes : List MemNode) (c : SmCall) : Prop :=
  match c with
  | .smallocAlignedTopdown _ _ _ => ∀ addr, Best nodes c addr → ∀ mn ∈ nodes,
      mn.memArea ≤ addr → addr < mn.memArea + mn.size → mn.memArea + mn.size < 2 ^ 32
  | _ => ¬Best nodes c badAddr

/-! ## Free stretches -/

section Free

variable {lo hi addr size : Nat} {nodes : List MemNode}

/-- Behind a free node no byte is free. -/
theorem NoFreePairs.end_not_free (htiles : PoolTiles lo nodes hi) (hpairs : NoFreePairs nodes)
    {mn mn' : MemNode} (hmn : mn ∈ nodes) (hmn' : mn' ∈ nodes) (hfree : mn.used = false)
    (hle : mn'.memArea ≤ mn.memArea + mn.size)
    (hlt : mn.memArea + mn.size < mn'.memArea + mn'.size) : mn'.used = true := by
  obtain ⟨pre, post, rfl⟩ := List.append_of_mem hmn
  obtain ⟨m, -, hstart, -, hpost⟩ := tiles_append.mp htiles
  have hpair : NoFreePairs (mn :: post) := by
    have hsplit := @noFreePairs_append_cons pre.reverse post mn
    rw [List.reverse_reverse] at hsplit
    exact (hsplit.mp hpairs).2
  have hnext := (noFreePairs_cons.mp hpair).1.resolve_left (by rw [hfree]; exact Bool.false_ne_true)
  cases post with
  | nil =>
      have hend : mn.memArea + mn.size = hi := hstart ▸ hpost
      have hbound := (htiles.mem_bounds mn' hmn').2.2
      omega
  | cons nmn rest =>
      obtain ⟨hnlo, hnlen, -⟩ := hpost
      have heq : mn' = nmn := htiles.eq_of_overlap hmn' (by simp) hle hlt (by omega) (by omega)
      rw [heq]
      exact hnext

/-- Without free neighbours, a free stretch lies in one node. -/
theorem freeBlock_iff (htiles : PoolTiles lo nodes hi) (hpairs : NoFreePairs nodes)
    (hpos : 0 < size) : FreeBlock nodes addr size ↔
      ∃ mn ∈ nodes, mn.used = false ∧ mn.memArea ≤ addr ∧ addr + size ≤ mn.memArea + mn.size := by
  constructor
  · intro h
    obtain ⟨mn, hmn, hfree, hle, hlt⟩ := h addr le_rfl (by omega)
    refine ⟨mn, hmn, hfree, hle, ?_⟩
    by_contra hover
    obtain ⟨mn', hmn', hfree', hle', hlt'⟩ := h (mn.memArea + mn.size) (by omega) (by omega)
    have hused := hpairs.end_not_free htiles hmn hmn' hfree hle' hlt'
    rw [hfree'] at hused
    cases hused
  · rintro ⟨mn, hmn, hfree, hle, hend⟩ x hx hxlt
    exact ⟨mn, hmn, hfree, by omega, by omega⟩

end Free

/-! ## The searches -/

section Searches

variable {lo hi size align ptr top k : Nat} {nodes : List MemNode} {p : Placement}

/-- A place in a free area is free. -/
theorem Placement.Fits.freeBlock (h : p.Fits nodes size) : FreeBlock nodes p.addr size := by
  intro x hx hlt
  have hfits := h.fits
  unfold Placement.addr at hx hlt
  exact ⟨p.area.focus, h.list ▸ mem_toList p.area, h.free, by omega, by omega⟩

/-- The search for an aligned block ends at the lowest address. -/
theorem alignedPlacement_best (hr : PoolRange lo hi) (htiles : PoolTiles lo nodes hi)
    (hpairs : NoFreePairs nodes) (hk : k < 32) (hpos : 0 < size) {addr : Nat} (hdvd : 2 ^ k ∣ addr)
    (hblock : FreeBlock nodes addr size) :
    ∃ p, alignedPlacement nodes (2 ^ k) size = some p ∧ p.addr ≤ addr := by
  obtain ⟨mn, hmn, hfree, hle, hend⟩ := (freeBlock_iff htiles hpairs hpos).mp hblock
  have hb := htiles.mem_bounds mn hmn
  have hsmall := hr.small
  have hpad : alignPad mn.memArea (2 ^ k - 1) ≤ addr - mn.memArea :=
    alignPad_le (by rwa [Nat.add_sub_cancel' hle])
  have hhit : (!mn.used && decide
      (uwrap 64 (size + alignPad mn.memArea (2 ^ k - 1)) ≤ mn.size)) = true := by
    rw [hfree, uwrap_add (by omega)]
    simp
    omega
  unfold alignedPlacement
  cases hfind : smfindFreeArea nodes (2 ^ k - 1) size with
  | none =>
      have hno := Zipper.scan_eq_none_iff.mp hfind mn hmn
      rw [hno] at hhit
      cases hhit
  | some z =>
      refine ⟨_, rfl, ?_⟩
      obtain ⟨passed, hbefore, hsplit, -, -, hpassed⟩ := Zipper.scan_eq_some hfind
      change z.focus.memArea + alignPad z.focus.memArea (2 ^ k - 1) ≤ addr
      rw [hsplit] at hmn htiles
      rcases List.mem_append.mp hmn with hmem | hmem
      · have hno := (hpassed mn hmem).2
        rw [hno] at hhit
        cases hhit
      · rcases List.mem_cons.mp hmem with rfl | hafter
        · omega
        · -- the node lies behind the one found, which has room for the padding
          obtain ⟨m, -, hfocus⟩ := tiles_append.mp htiles
          have hbehind := (hfocus.2.2.mem_bounds mn hafter).1
          have hlo := hfocus.1
          have hpow : 2 ^ k ≤ 2 ^ 31 := Nat.pow_le_pow_right (by norm_num) (by omega)
          have hlt := alignPad_lt z.focus.memArea k
          have hfits := (smfindFreeArea_eq_some hfind).2.2
          rw [uwrap_add (by omega)] at hfits
          omega

/-- The search for a fixed address finds the free node that holds it. -/
theorem fixedPlacement_best (hr : PoolRange lo hi) (htiles : PoolTiles lo nodes hi)
    (hpairs : NoFreePairs nodes) (hpos : 0 < size) (hblock : FreeBlock nodes ptr size) :
    ∃ p, fixedPlacement nodes ptr size = some p ∧ p.addr = ptr := by
  obtain ⟨mn, hmn, hfree, hle, hend⟩ := (freeBlock_iff htiles hpairs hpos).mp hblock
  have hb := htiles.mem_bounds mn hmn
  have hsmall := hr.small
  obtain ⟨z, hfind, rfl, -⟩ := findMnAt_of_mem htiles hmn hle (by omega)
  have hfits : ¬z.focus.size < uwrap 64 (size + (ptr - z.focus.memArea : Nat)) := by
    rw [uwrap_add (by omega)]
    omega
  refine ⟨{ area := z, front := ptr - z.focus.memArea, tail := 0 }, ?_, ?_⟩
  · simp [fixedPlacement, hfind, hfree, hfits]
  · exact Nat.add_sub_cancel' hle

/-- The ceiling of an area that ends inside the address space. -/
theorem minTop_eq {mn : MemNode} (hend : mn.memArea + mn.size < 2 ^ 32) :
    minTop mn top = if top ≠ badAddr then min (mn.memArea + mn.size) top
      else mn.memArea + mn.size := by
  rw [minTop, uwrap_add (by omega)]

/-- The tests of the top-down search, on an area that ends inside the address space and holds an
address that suits. -/
theorem topdown_hit {mn : MemNode} {addr : Nat} (hfree : mn.used = false) (hk : k < 32)
    (hend : mn.memArea + mn.size < 2 ^ 32) (hdvd : 2 ^ k ∣ addr) (hle : mn.memArea ≤ addr)
    (hfits : addr + size ≤ mn.memArea + mn.size) (htop : top = badAddr ∨ addr + size ≤ top) :
    (!mn.used && decide (size ≤ mn.size) && decide (size ≤ minTop mn top) &&
        decide (mn.memArea ≤ topdownPtr mn top (2 ^ k - 1) size)) = true ∧
      addr ≤ topdownPtr mn top (2 ^ k - 1) size := by
  have hmin : addr + size ≤ minTop mn top ∧ minTop mn top ≤ 2 ^ 32 := by
    rw [minTop_eq hend]
    split
    · next hne =>
        have hcap := htop.resolve_left hne
        omega
    · omega
  obtain ⟨q, rfl⟩ := hdvd
  have hptr : 2 ^ k * q ≤ topdownPtr mn top (2 ^ k - 1) size := by
    rw [topdownPtr_eq hk hmin.2 (by omega), Nat.mul_comm]
    refine Nat.mul_le_mul_right _ ((Nat.le_div_iff_mul_le (Nat.two_pow_pos k)).mpr ?_)
    rw [Nat.mul_comm]
    omega
  refine ⟨?_, hptr⟩
  rw [hfree]
  simp only [Bool.not_false, Bool.true_and, Bool.and_eq_true, decide_eq_true_eq]
  omega

/-- The top-down search passes over no area that holds an address that suits and ends inside the
address space. -/
theorem topdownPlacement_best (hr : PoolRange lo hi) (htiles : PoolTiles lo nodes hi)
    (hk : k < 32) {mn : MemNode} (hmn : mn ∈ nodes) {addr : Nat} (hfree : mn.used = false)
    (hend : mn.memArea + mn.size < 2 ^ 32) (hdvd : 2 ^ k ∣ addr) (hle : mn.memArea ≤ addr)
    (hpos : 0 < size) (hfits : addr + size ≤ mn.memArea + mn.size)
    (htop : top = badAddr ∨ addr + size ≤ top) :
    ∃ p, topdownPlacement nodes top (2 ^ k) size = some p ∧ addr ≤ p.addr := by
  obtain ⟨hhit, hptr⟩ := topdown_hit hfree hk hend hdvd hle hfits htop
  have hb := htiles.mem_bounds mn hmn
  have hsmall := hr.small
  -- an area that ends the search starts too high for the address
  have hnostop (y : MemNode) (hy : y = mn ∨ y.memArea + y.size ≤ mn.memArea) :
      (decide (top ≠ badAddr) && decide (top < uwrap 64 (y.memArea + size))) ≠ true := by
    have hylo : y.memArea ≤ mn.memArea := by
      rcases hy with rfl | hy
      · exact le_rfl
      · omega
    intro hboth
    obtain ⟨hne, hlow⟩ := Bool.and_eq_true_iff.mp hboth
    have hcap := htop.resolve_left (of_decide_eq_true hne)
    have hlow := of_decide_eq_true hlow
    rw [uwrap_add (by omega)] at hlow
    omega
  have hstopped (l : List MemNode) (hl : l.Pairwise fun x y => x.memArea + x.size ≤ y.memArea)
      (hex : Zipper.Exhausted (fun mn => decide (top ≠ badAddr) &&
        decide (top < uwrap 64 (mn.memArea + size)))
        (fun mn => !mn.used && decide (size ≤ mn.size) && decide (size ≤ minTop mn top) &&
          decide (mn.memArea ≤ topdownPtr mn top (2 ^ k - 1) size)) l) : mn ∉ l := by
    intro hmem
    obtain ⟨y, -, hstop, hy⟩ := hex.exists_stop hl hmem hhit
    exact hnostop y hy hstop
  unfold topdownPlacement
  rcases Zipper.scanLast_cases (fun mn => decide (top ≠ badAddr) &&
      decide (top < uwrap 64 (mn.memArea + size)))
      (fun mn => !mn.used && decide (size ≤ mn.size) && decide (size ≤ minTop mn top) &&
        decide (mn.memArea ≤ topdownPtr mn top (2 ^ k - 1) size)) none [] nodes with
    ⟨-, hex⟩ | ⟨z, hz, hlist, -, -, hex⟩
  · exact absurd hmn (hstopped nodes htiles.pairwise_end_le hex)
  · have hfind : smfindFreeAreaTopdown nodes top (2 ^ k - 1) size = some z := hz
    rw [hfind]
    refine ⟨_, rfl, ?_⟩
    have hge := (smfindFreeAreaTopdown_eq_some hfind).2.2.2
    change addr ≤ z.focus.memArea + (topdownPtr z.focus top (2 ^ k - 1) size - z.focus.memArea)
    rw [Nat.add_sub_cancel' hge]
    have hnodes : nodes = z.before.reverse ++ z.focus :: z.after := hlist.symm
    have hsorted := htiles.pairwise_end_le
    rw [hnodes] at hmn hsorted
    obtain ⟨-, hfocus, hbefore⟩ := List.pairwise_append.mp hsorted
    rcases List.mem_append.mp hmn with hmem | hmem
    · have hlow := hbefore mn hmem z.focus List.mem_cons_self
      omega
    · rcases List.mem_cons.mp hmem with rfl | hafter
      · exact hptr
      · exact absurd hafter (hstopped z.after (List.pairwise_cons.mp hfocus).2 hex)

end Searches

/-! ## Requests -/

section Requests

variable {lo hi : Nat} {s : SmState} {c : SmCall} {addr : Nat}

theorem SmCall.Requests.places (h : c.Requests) : c.places = true ∧ c.size ≠ 0 ∧ AlignPow2 c := by
  cases c with
  | smallocFixed ptr size => exact ⟨rfl, h.2, trivial⟩
  | smallocAligned align size => exact ⟨rfl, h.2, h.1⟩
  | smallocAlignedTopdown top align size => exact ⟨rfl, h.2, h.1⟩
  | smalloc | smallocTopdown | smfree | smrealloc | smfreeAll => exact h.elim

theorem Suits.freeBlock {nodes : List MemNode} (h : Suits nodes c addr) :
    FreeBlock nodes addr c.size := by
  cases c with
  | smallocFixed ptr size => exact h.2
  | smallocAligned align size => exact h.2
  | smallocAlignedTopdown top align size => exact h.2.1
  | smalloc | smallocTopdown | smfree | smrealloc | smfreeAll => exact h.elim

/-- The block of the top-down form ends below the ceiling. -/
theorem topdownPlacement_ceiling {nodes : List MemNode} {p : Placement} {top size k : Nat}
    (htiles : PoolTiles lo nodes hi) (hhi : hi ≤ 2 ^ 32) (hpos : 0 < size) (hk : k < 32)
    (h : topdownPlacement nodes top (2 ^ k) size = some p) :
    top = badAddr ∨ p.addr + size ≤ top := by
  by_cases htop : top = badAddr
  · exact Or.inl htop
  right
  obtain ⟨z, hfind, rfl⟩ := Option.map_eq_some_iff.mp h
  obtain ⟨hlist, -, hroom, hge⟩ := smfindFreeAreaTopdown_eq_some hfind
  have hb := focus_bounds (hlist ▸ htiles)
  obtain ⟨hmin, -⟩ := minTop_le hpos (by omega) hroom
  have hfits : topdownPtr z.focus top (2 ^ k - 1) size + size ≤ minTop z.focus top :=
    (topdownPtr_spec hk (by omega) hroom).2
  have hcap : minTop z.focus top ≤ top := by
    rw [minTop, if_pos htop]
    exact Nat.min_le_right _ _
  change z.focus.memArea + (topdownPtr z.focus top (2 ^ k - 1) size - z.focus.memArea) + size ≤ top
  rw [Nat.add_sub_cancel' hge]
  omega

/-- What a search finds suits. -/
theorem callPlacement_suits {p : Placement} (hwf : WellFormed lo hi s.mp) (hok : CallOk s c)
    (hreq : c.Requests) (h : callPlacement s.mp.nodes c = some p) :
    Suits s.mp.nodes c p.addr := by
  have hfits := callPlacement_fits hwf hok hreq.places.2.1 h
  cases c with
  | smallocFixed ptr size =>
      rw [callPlacement, if_neg hreq.1] at h
      exact ⟨(fixedPlacement_fits hok h).2, hfits.freeBlock⟩
  | smallocAligned align size =>
      obtain ⟨⟨k, hk⟩, -, hwrap⟩ := hok
      exact ⟨(alignedPlacement_fits hk hwrap h).2, hfits.freeBlock⟩
  | smallocAlignedTopdown top align size =>
      obtain ⟨⟨k, hk⟩, hlt⟩ := hok
      have hk32 := exponent_lt hk (hlt hreq.2)
      have hpos := Nat.pos_of_ne_zero hreq.2
      have hdvd := (topdownPlacement_fits top.toNat hwf.tiles hwf.range.le hpos hk hk32 h).2
      refine ⟨hdvd, hfits.freeBlock, ?_⟩
      rw [callPlacement, hk] at h
      exact topdownPlacement_ceiling hwf.tiles hwf.range.le hpos hk32 h
  | smalloc | smallocTopdown | smfree | smrealloc | smfreeAll => exact hreq.elim

/-- Where an address suits, there is a highest one. -/
theorem exists_highest {nodes : List MemNode} (htiles : PoolTiles lo nodes hi)
    (hsize : c.size ≠ 0) (h : Suits nodes c addr) :
    ∃ b, Suits nodes c b ∧ ∀ other, Suits nodes c other → other ≤ b := by
  classical
  have hbound (a : Nat) (ha : Suits nodes c a) : a ≤ hi := by
    obtain ⟨mn, hmn, -, -, hlt⟩ := ha.freeBlock a le_rfl (by omega)
    have hb := htiles.mem_bounds mn hmn
    omega
  exact ⟨Nat.findGreatest (Suits nodes c) hi, Nat.findGreatest_spec (hbound addr h) h,
    fun other hother => Nat.le_findGreatest (hbound other hother) hother⟩

/-- A search ends at an address at least as good as any that suits. -/
theorem callPlacement_prefers (hwf : WellFormed lo hi s.mp) (hpairs : NoFreePairs s.mp.nodes)
    (hok : CallOk s c) (hreq : c.Requests) (hreach : Reaches s.mp.nodes c)
    (h : Suits s.mp.nodes c addr) :
    ∃ p, callPlacement s.mp.nodes c = some p ∧ Prefers c p.addr addr := by
  have hsize := hreq.places.2.1
  cases c with
  | smallocFixed ptr size =>
      obtain ⟨rfl, hblock⟩ := h
      obtain ⟨p, hp, haddr⟩ := fixedPlacement_best hwf.range hwf.tiles hpairs
        (Nat.pos_of_ne_zero hsize) hblock
      exact ⟨p, (if_neg hreq.1).trans hp, haddr.le⟩
  | smallocAligned align size =>
      obtain ⟨⟨k, hk⟩, hlt, -⟩ := hok
      obtain ⟨hdvd, hblock⟩ := h
      rw [callPlacement, hk]
      rw [hk] at hdvd
      exact alignedPlacement_best hwf.range hwf.tiles hpairs (exponent_lt hk (hlt hsize))
        (Nat.pos_of_ne_zero hsize) hdvd hblock
  | smallocAlignedTopdown top align size =>
      obtain ⟨⟨k, hk⟩, hlt⟩ := hok
      have hpos := Nat.pos_of_ne_zero hsize
      obtain ⟨b, hb, hmax⟩ := exists_highest hwf.tiles hsize h
      obtain ⟨mn, hmn, hfree, hle, hend⟩ := (freeBlock_iff hwf.tiles hpairs hpos).mp hb.freeBlock
      have hin := hreach b ⟨hb, hmax⟩ mn hmn hle (by omega)
      obtain ⟨hdvd, -, htop⟩ := hb
      rw [callPlacement, hk]
      rw [hk] at hdvd
      obtain ⟨p, hp, hge⟩ := topdownPlacement_best hwf.range hwf.tiles
        (exponent_lt hk (hlt hsize)) hmn hfree hin hdvd hle hpos hend htop
      exact ⟨p, hp, (hmax addr h).trans hge⟩
  | smalloc | smallocTopdown | smfree | smrealloc | smfreeAll => exact hreq.elim

theorem Prefers.antisymm {a b : Nat} (h : Prefers c a b) (h' : Prefers c b a) : a = b := by
  cases c with
  | smallocAlignedTopdown => exact Nat.le_antisymm h' h
  | _ => exact Nat.le_antisymm h h'

/-- There is one best address at most. -/
theorem Best.unique {nodes : List MemNode} {a b : Nat} (h : Best nodes c a)
    (h' : Best nodes c b) : a = b :=
  (h.2 b h'.1).antisymm (h'.2 a h.1)

/-- A free stretch is apart from the blocks. -/
theorem FreeBlock.apart {nodes : List MemNode} {size : Nat} (htiles : PoolTiles lo nodes hi)
    (hpos : 0 < size) (h : FreeBlock nodes addr size) {mn : MemNode} (hmn : mn ∈ usedNodes nodes) :
    addr + size ≤ mn.memArea ∨ mn.memArea + mn.size ≤ addr := by
  obtain ⟨hmem, hused⟩ := mem_usedNodes.mp hmn
  have hb := htiles.mem_bounds mn hmem
  by_contra hno
  push Not at hno
  obtain ⟨mn', hmem', hfree, hle, hlt⟩ := h (max addr mn.memArea) (by omega) (by omega)
  obtain rfl := htiles.eq_of_overlap hmem hmem' (by omega) (by omega) hle hlt
  rw [hfree] at hused
  cases hused

/-- A placed block, where the commit succeeds. -/
theorem placeBlock_adds (com : CommitFn) {p : Placement} {size : Nat}
    (hwf : WellFormed lo hi s.mp) (hpos : 0 < size) (hp : p.Fits s.mp.nodes size)
    (hcom : ∀ a n, com s.log a n = true) :
    (returned (placeBlock com s p.cursor size)).1 = p.addr ∧
      AddsBlock s.mp.nodes (placeBlock com s p.cursor size).2.mp.nodes p.addr size := by
  have hchosen := hp.chosen hwf.tiles hpos
  have hgrant : granted com (s.setNodes p.cursor.toList) p.cursor.focus.memArea size = true := by
    simp [granted, hcom]
  unfold placeBlock
  rw [if_pos hgrant]
  refine ⟨by simp [returned, areaOr, p.cursor_memArea], ?_, ?_⟩
  · intro mn hmn
    exact hp.freeBlock.apart hwf.tiles hpos hmn
  · intro mn
    have hused := hchosen.used
    rw [usedNodes_toList, hchosen.free] at hused
    simp only [cleared_mp, SmState.setNodes_mp, takenNodes, p.cursor_memArea]
    rw [← hused]
    simp only [usedNodes_append, usedNodes_reverse, List.mem_append, List.cons_append,
      usedNodes_cons_used, usedNodes_freeArea, usedNodes_dropFree, List.mem_cons,
      List.mem_reverse, List.not_mem_nil]
    tauto

/-- A search of the top-down form ends in an area that ends inside the address space. -/
theorem topdown_area_end {p : Placement} {top : UInt32} {align size : UInt64}
    (hwf : WellFormed lo hi s.mp) (hok : CallOk s (.smallocAlignedTopdown top align size))
    (hsize : size.toNat ≠ 0)
    (h : callPlacement s.mp.nodes (.smallocAlignedTopdown top align size) = some p) :
    p.area.focus.memArea + p.area.focus.size < 2 ^ 32 := by
  obtain ⟨⟨k, hk⟩, hlt⟩ := hok
  rw [callPlacement, hk] at h
  obtain ⟨z, hfind, rfl⟩ := Option.map_eq_some_iff.mp h
  exact (topdown_bounds hwf.tiles hwf.range.le (Nat.pos_of_ne_zero hsize)
    (exponent_lt hk (hlt hsize)) hfind).2.2.2

/-- In any well-formed pool without free neighbours. -/
theorem servesBest_iff (com : CommitFn) (hwf : WellFormed lo hi s.mp)
    (hpairs : NoFreePairs s.mp.nodes) (hcom : ∀ a n, com s.log a n = true) (hreq : c.Requests) :
    ServesBest com s c ↔ CallOk s c ∧ Reaches s.mp.nodes c := by
  obtain ⟨hplaces, hsize, hpow⟩ := hreq.places
  have hpos := Nat.pos_of_ne_zero hsize
  by_cases hok : CallOk s c
  swap
  · refine iff_of_false ?_ fun h => hok h.1
    rintro ⟨r, hr, -⟩
    rw [call_places_eq_none com hwf hpairs hpow hplaces hok] at hr
    cases hr
  obtain ⟨t, ht, hcall⟩ := call_eq_placed com hwf hok hplaces hsize
  constructor
  · rintro ⟨r, hr, -, hserve⟩
    obtain rfl := Option.some.inj (hcall.symm.trans hr)
    refine ⟨hok, ?_⟩
    -- a best address is returned, so the search found it and it is not the failure value
    have hfound (addr : Nat) (hbest : Best s.mp.nodes c addr) : addr ≠ badAddr ∧
        ∃ p, callPlacement s.mp.nodes c = some p ∧ p.addr = addr := by
      obtain ⟨b, hb, hne, hret, -⟩ := hserve ⟨addr, hbest.1⟩
      obtain rfl := hb.unique hbest
      refine ⟨hne, ?_⟩
      cases hplace : callPlacement s.mp.nodes c with
      | none =>
          rw [hplace] at hret
          exact absurd (Int.ofNat_inj.mp hret).symm hne
      | some p =>
          rw [hplace] at hret
          have hfits := callPlacement_fits hwf hok hsize hplace
          have haddr := (placeBlock_adds com hwf hpos hfits hcom).1
          exact ⟨p, rfl, Int.ofNat_inj.mp (haddr.symm.trans hret)⟩
    cases c with
    | smallocAlignedTopdown top align size =>
        intro addr hbest mn hmn hle hlt
        obtain ⟨-, p, hplace, rfl⟩ := hfound addr hbest
        have hfits := callPlacement_fits hwf hok hsize hplace
        have hroom := hfits.fits
        have hmem : p.area.focus ∈ s.mp.nodes := hfits.list ▸ mem_toList p.area
        obtain rfl := hwf.tiles.eq_of_overlap hmn hmem hle hlt (Nat.le_add_right _ _)
          (by unfold Placement.addr; omega)
        exact topdown_area_end hwf hok hsize hplace
    | smallocFixed | smallocAligned => exact fun hbest => (hfound badAddr hbest).1 rfl
    | smalloc | smallocTopdown | smfree | smrealloc | smfreeAll => exact hreq.elim
  · rintro ⟨-, hreach⟩
    refine ⟨_, hcall, fun hnone => ?_, ?_⟩
    · cases hplace : callPlacement s.mp.nodes c with
      | none => exact ⟨rfl, ht.mp_eq⟩
      | some p => exact absurd (callPlacement_suits hwf hok hreq hplace) (hnone p.addr)
    · rintro ⟨addr, hsuits⟩
      obtain ⟨p, hplace, -⟩ := callPlacement_prefers hwf hpairs hok hreq hreach hsuits
      have hbest : Best s.mp.nodes c p.addr := by
        refine ⟨callPlacement_suits hwf hok hreq hplace, fun other hother => ?_⟩
        obtain ⟨p', hplace', hprefers⟩ := callPlacement_prefers hwf hpairs hok hreq hreach hother
        obtain rfl := Option.some.inj (hplace.symm.trans hplace')
        exact hprefers
      have hfits := callPlacement_fits hwf hok hsize hplace
      obtain ⟨hret, hadds⟩ := placeBlock_adds com hwf hpos hfits hcom
      rw [hplace]
      refine ⟨p.addr, hbest, ?_, hret, hadds⟩
      intro hbad
      cases c with
      | smallocAlignedTopdown top align size =>
          have hend := topdown_area_end hwf hok hsize hplace
          have hroom := hfits.fits
          have hval : p.area.focus.memArea + p.front = 2 ^ 32 - 1 := hbad
          omega
      | smallocFixed | smallocAligned => exact hreach (hbad ▸ hbest)
      | smalloc | smallocTopdown | smfree | smrealloc | smfreeAll => exact hreq.elim

/-- In every pool that a run of calls the code can handle reaches, while no two neighbours are free
and the commit succeeds, a request is served at the best address exactly if the code can handle it
and the search reaches that address. -/
theorem placement_iff (init : SmInit) (com : CommitFn) {start size : Nat} (cs : List SmCall)
    {s : SmState} (c : SmCall) (hpos : 0 < size) (hend : start + size ≤ 2 ^ 32)
    (hsmall : size < 2 ^ 31) (hok : Run.Admits (step com) CallOk (init.pool start size) cs)
    (hrun : Run.run (step com) (init.pool start size) cs = some s)
    (hpairs : NoFreePairs s.mp.nodes) (hcom : ∀ a n, com s.log a n = true) (hreq : c.Requests) :
    ServesBest com s c ↔ CallOk s c ∧ Reaches s.mp.nodes c :=
  servesBest_iff com (run_inv com (pool_inv init hpos hend hsmall) hok hrun).wf hpairs hcom hreq

/-- A page-aligned request after a small block. -/
theorem placement_iff_second_block :
    ∃ s, Run.run (step fun _ _ _ => true) (SmInit.sminit.pool 0x1000 0x3000) [.smalloc 16] =
        some s ∧
      (ServesBest (fun _ _ _ => true) s (.smallocAligned 4096 32) ↔
        CallOk s (.smallocAligned 4096 32) ∧ Reaches s.mp.nodes (.smallocAligned 4096 32)) := by
  have hok : Run.Admits (step fun _ _ _ => true) CallOk (SmInit.sminit.pool 0x1000 0x3000)
      [.smalloc 16] := ⟨trivial, fun _ _ => trivial⟩
  have hval : (Run.run (step fun _ _ _ => true) (SmInit.sminit.pool 0x1000 0x3000)
      [.smalloc 16]).map (fun s => s.mp.nodes) =
        some [⟨16, true, 0x1000⟩, ⟨0x2ff0, false, 0x1010⟩] := by decide +kernel
  obtain ⟨s, hs, hnodes⟩ := Option.map_eq_some_iff.mp hval
  have hpairs : NoFreePairs s.mp.nodes := by
    rw [hnodes]
    simp [NoFreePairs]
  exact ⟨s, hs, placement_iff .sminit _ [.smalloc 16] (.smallocAligned 4096 32) (by norm_num)
    (by norm_num) (by norm_num) hok hs hpairs (fun _ _ => rfl) ⟨⟨12, rfl⟩, by decide⟩⟩

/-- A fresh pool that ends where the addresses end has no place for a block from the top. -/
theorem topdown_passes_over_last_area :
    ¬ServesBest (fun _ _ _ => true) (SmInit.sminit.pool 0xfffff000 0x1000)
      (.smallocAlignedTopdown 0xffffffff 1 16) := by
  rintro ⟨r, hr, -, hserve⟩
  have hfree : FreeBlock [⟨0x1000, false, 0xfffff000⟩] 0xfffff000 16 := fun x hx hlt =>
    ⟨⟨0x1000, false, 0xfffff000⟩, List.mem_singleton.mpr rfl, rfl, hx, hlt.trans (by decide)⟩
  obtain ⟨addr, -, hne, hret, -⟩ := hserve ⟨0xfffff000, one_dvd _, hfree, Or.inl rfl⟩
  have hval : (call (fun _ _ _ => true) (SmInit.sminit.pool 0xfffff000 0x1000)
      (.smallocAlignedTopdown 0xffffffff 1 16)).map (fun r => r.1) = some (badAddr : Int) := by
    decide +kernel
  rw [hr, Option.map_some, hret] at hval
  exact hne (Int.ofNat_inj.mp (Option.some.inj hval))

end Requests

end Smalloc
end Dosemu
