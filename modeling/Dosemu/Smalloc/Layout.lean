import Dosemu.Lib.Tiling
import Dosemu.Smalloc.Model
import Mathlib.Data.List.Chain

/-!
# The layout of a pool

The node list of a pool tiles its address range.  Every operation of the
allocator takes a node together with the free space behind it and divides that
stretch anew, so the layout is described by two operations on lists: a free
area that may be empty, and a list without its leading free node.  In these
terms `mntruncate` has a closed form in ordinary arithmetic.

Main results:

- Theorem `PoolTiles.after_eq`: what follows a node is its free space and the
  rest.
- Theorem `mntruncate_eq`: the closed form of `mntruncate`; it aborts only when
  it swallows a free neighbour that has a free neighbour itself.
- Theorems `freeSum_add_usedSum` and `noFreePairs_append_cons`: free and used
  space add up to the pool, and where free neighbours can appear.
-/

namespace Dosemu
namespace Smalloc

open MachineInt Tiling

/-! ## Tilings, free space and free neighbours -/

/-- The nodes tile `[lo, hi)`: contiguous, ascending, none of size zero. -/
abbrev PoolTiles (lo : Nat) (nodes : List MemNode) (hi : Nat) : Prop :=
  Tiles MemNode.memArea MemNode.size lo nodes hi

/-- The sum of the sizes of the unused nodes. -/
def freeSum (nodes : List MemNode) : Nat :=
  (nodes.map fun mn => if mn.used then 0 else mn.size).sum

/-- The used nodes, in address order. -/
def usedNodes (nodes : List MemNode) : List MemNode :=
  nodes.filter fun mn => mn.used

/-- No two neighbouring nodes are both unused. -/
def NoFreePairs (nodes : List MemNode) : Prop :=
  nodes.IsChain fun mn nmn => mn.used = true ∨ nmn.used = true

@[simp]
theorem freeSum_nil : freeSum [] = 0 :=
  rfl

@[simp]
theorem freeSum_cons (mn : MemNode) (nodes : List MemNode) :
    freeSum (mn :: nodes) = (if mn.used then 0 else mn.size) + freeSum nodes := by
  simp [freeSum]

/-- The sums and the used nodes of a list are those of its parts. -/
@[simp]
theorem freeSum_append (xs ys : List MemNode) :
    freeSum (xs ++ ys) = freeSum xs + freeSum ys := by
  simp [freeSum]

@[simp]
theorem freeSum_reverse (xs : List MemNode) : freeSum xs.reverse = freeSum xs := by
  simp [freeSum]

@[simp]
theorem usedNodes_append (xs ys : List MemNode) :
    usedNodes (xs ++ ys) = usedNodes xs ++ usedNodes ys := by
  simp [usedNodes]

@[simp]
theorem usedNodes_cons_used {mn : MemNode} (h : mn.used = true) (nodes : List MemNode) :
    usedNodes (mn :: nodes) = mn :: usedNodes nodes := by
  simp [usedNodes, h]

@[simp]
theorem usedNodes_cons_free {mn : MemNode} (h : mn.used = false) (nodes : List MemNode) :
    usedNodes (mn :: nodes) = usedNodes nodes := by
  simp [usedNodes, h]

@[simp]
theorem usedNodes_nil : usedNodes [] = [] :=
  rfl

theorem mem_usedNodes {mn : MemNode} {nodes : List MemNode} :
    mn ∈ usedNodes nodes ↔ mn ∈ nodes ∧ mn.used = true := by
  simp [usedNodes]

/-- The free and the used space of a pool add up to its range. -/
theorem freeSum_add_usedSum {lo hi : Nat} {nodes : List MemNode} (h : PoolTiles lo nodes hi) :
    lo + freeSum nodes + ((usedNodes nodes).map MemNode.size).sum = hi := by
  induction nodes generalizing lo with
  | nil => simpa using h
  | cons mn nodes ih =>
      have hrest := ih h.2.2
      cases hused : mn.used <;> simp [hused] <;> omega

/-- A used node is part of the used space. -/
theorem size_le_usedSum {mn : MemNode} {nodes : List MemNode} (hmem : mn ∈ nodes)
    (hused : mn.used = true) : mn.size ≤ ((usedNodes nodes).map MemNode.size).sum :=
  List.single_le_sum (by simp) _ (List.mem_map_of_mem (mem_usedNodes.mpr ⟨hmem, hused⟩))

/-- A free node is part of the free space. -/
theorem size_le_freeSum {mn : MemNode} {nodes : List MemNode} (hmem : mn ∈ nodes)
    (hfree : mn.used = false) : mn.size ≤ freeSum nodes := by
  induction nodes with
  | nil => simp at hmem
  | cons x nodes ih =>
      rcases List.mem_cons.mp hmem with rfl | hmem
      · simp [hfree]
      · have := ih hmem
        simp only [freeSum_cons]
        omega

/-! ## Free areas and lists without their leading free node -/

/-- A free area that may be empty. -/
def freeArea (addr size : Nat) : List MemNode :=
  if size = 0 then [] else [{ size := size, used := false, memArea := addr }]

/-- The list without its leading node when that is free. -/
def dropFree : List MemNode → List MemNode
  | [] => []
  | nmn :: rest => if nmn.used then nmn :: rest else rest

@[simp]
theorem freeArea_zero (addr : Nat) : freeArea addr 0 = [] :=
  rfl

@[simp]
theorem nextFree_nil : nextFree [] = 0 :=
  rfl

@[simp]
theorem dropFree_nil : dropFree [] = [] :=
  rfl

/-- A used node is nothing to join with. -/
@[simp]
theorem nextFree_cons_used {nmn : MemNode} (h : nmn.used = true) (rest : List MemNode) :
    nextFree (nmn :: rest) = 0 := by
  simp [nextFree, h]

@[simp]
theorem nextFree_cons_free {nmn : MemNode} (h : nmn.used = false) (rest : List MemNode) :
    nextFree (nmn :: rest) = nmn.size := by
  simp [nextFree, h]

@[simp]
theorem dropFree_cons_used {nmn : MemNode} (h : nmn.used = true) (rest : List MemNode) :
    dropFree (nmn :: rest) = nmn :: rest := by
  simp [dropFree, h]

@[simp]
theorem dropFree_cons_free {nmn : MemNode} (h : nmn.used = false) (rest : List MemNode) :
    dropFree (nmn :: rest) = rest := by
  simp [dropFree, h]

/-- A rest that is not empty is one free node. -/
theorem freeArea_of_pos (addr : Nat) {size : Nat} (h : 0 < size) :
    freeArea addr size = [{ size := size, used := false, memArea := addr }] := by
  simp [freeArea, Nat.pos_iff_ne_zero.mp h]

@[simp]
theorem freeSum_freeArea (addr size : Nat) : freeSum (freeArea addr size) = size := by
  unfold freeArea
  split <;> simp_all

@[simp]
theorem usedNodes_freeArea (addr size : Nat) : usedNodes (freeArea addr size) = [] := by
  unfold freeArea
  split <;> rfl

/-- A free area and what follows it lie without a gap. -/
@[simp]
theorem tiles_freeArea_append {a hi size : Nat} {nodes : List MemNode} :
    PoolTiles a (freeArea a size ++ nodes) hi ↔ PoolTiles (a + size) nodes hi := by
  unfold freeArea
  split
  · rename_i h
    simp [h]
  · simp
    omega

/-- A node and a free area behind it. -/
theorem tiles_cons_freeArea {mn : MemNode} {a b size rest : Nat} (hlo : mn.memArea = a)
    (hsize : mn.size = size) (hpos : 0 < size) (hend : a + size + rest = b) :
    PoolTiles a (mn :: freeArea (a + size) rest) b := by
  refine ⟨hlo, hsize ▸ hpos, ?_⟩
  rw [← List.append_nil (freeArea _ _), hsize]
  exact tiles_freeArea_append.mpr hend

/-- What is joined is taken out of the free space. -/
@[simp]
theorem freeSum_dropFree (nodes : List MemNode) :
    freeSum (dropFree nodes) + nextFree nodes = freeSum nodes := by
  cases nodes with
  | nil => rfl
  | cons nmn rest =>
      cases h : nmn.used <;> simp [dropFree, nextFree, h]
      omega

@[simp]
theorem usedNodes_dropFree (nodes : List MemNode) :
    usedNodes (dropFree nodes) = usedNodes nodes := by
  cases nodes with
  | nil => rfl
  | cons nmn rest => cases h : nmn.used <;> simp [dropFree, h]

theorem usedNodes_reverse (nodes : List MemNode) :
    usedNodes nodes.reverse = (usedNodes nodes).reverse := by
  simp [usedNodes]

theorem dropFree_of_nextUsed {nodes : List MemNode} (h : nextUsed nodes = true) :
    dropFree nodes = nodes := by
  cases nodes with
  | nil => rfl
  | cons nmn rest => simp_all [dropFree, nextUsed]

theorem nextFree_of_nextUsed {nodes : List MemNode} (h : nextUsed nodes = true) :
    nextFree nodes = 0 := by
  cases nodes with
  | nil => rfl
  | cons nmn rest => simp_all [nextFree, nextUsed]

/-- What follows a tiled prefix is its free space and the rest. -/
theorem PoolTiles.after_eq {a hi : Nat} {nodes : List MemNode} (h : PoolTiles a nodes hi) :
    nodes = freeArea a (nextFree nodes) ++ dropFree nodes := by
  cases nodes with
  | nil => rfl
  | cons nmn rest =>
      obtain ⟨hlo, hlen, -⟩ := h
      cases hused : nmn.used
      · simp only [nextFree, dropFree, hused, Bool.false_eq_true, if_false, freeArea_of_pos _ hlen]
        rw [← hlo, ← hused]
        rfl
      · simp [nextFree, dropFree, hused]

/-- The list goes on behind the node that is joined. -/
theorem PoolTiles.dropFree {a hi : Nat} {nodes : List MemNode} (h : PoolTiles a nodes hi) :
    PoolTiles (a + nextFree nodes) (dropFree nodes) hi := by
  rw [PoolTiles.after_eq h] at h
  exact tiles_freeArea_append.mp h

/-- Free space behind a node fits the pool. -/
theorem PoolTiles.nextFree_le {a hi : Nat} {nodes : List MemNode} (h : PoolTiles a nodes hi) :
    a + nextFree nodes ≤ hi :=
  (PoolTiles.dropFree h).le

/-! ## Free neighbours -/

@[simp]
theorem noFreePairs_nil : NoFreePairs [] :=
  List.isChain_nil

theorem noFreePairs_cons {mn : MemNode} {nodes : List MemNode} :
    NoFreePairs (mn :: nodes) ↔
      (mn.used = true ∨ nextUsed nodes = true) ∧ NoFreePairs nodes := by
  cases nodes with
  | nil => simp [NoFreePairs, nextUsed]
  | cons nmn rest => simp [NoFreePairs, nextUsed]

/-- Behind a free node of a pool without free pairs stands a used one. -/
theorem NoFreePairs.nextUsed_dropFree {nodes : List MemNode} (h : NoFreePairs nodes) :
    nextUsed (Smalloc.dropFree nodes) = true := by
  cases nodes with
  | nil => rfl
  | cons nmn rest =>
      cases hused : nmn.used
      · simpa [Smalloc.dropFree, hused] using (noFreePairs_cons.mp h).1
      · simp [Smalloc.dropFree, hused, nextUsed]

/-- After joining no two free nodes are neighbours. -/
theorem NoFreePairs.dropFree {nodes : List MemNode} (h : NoFreePairs nodes) :
    NoFreePairs (Smalloc.dropFree nodes) := by
  cases nodes with
  | nil => exact h
  | cons nmn rest =>
      cases hused : nmn.used
      · simpa [Smalloc.dropFree, hused] using (noFreePairs_cons.mp h).2
      · simpa [Smalloc.dropFree, hused] using h

/-- A free area in front of a used node makes no free pair. -/
theorem NoFreePairs.freeArea_append {nodes : List MemNode} (h : NoFreePairs nodes)
    (hused : nextUsed nodes = true) (addr size : Nat) :
    NoFreePairs (freeArea addr size ++ nodes) := by
  unfold freeArea
  split
  · exact h
  · exact noFreePairs_cons.mpr ⟨Or.inr hused, h⟩

theorem noFreePairs_reverse {nodes : List MemNode} :
    NoFreePairs nodes.reverse ↔ NoFreePairs nodes := by
  unfold NoFreePairs
  rw [List.isChain_reverse]
  constructor <;> intro h <;> exact h.imp fun _ _ => Or.symm

/-- A pool has no free pair exactly when the parts on both sides of a node
have none and the node is used or stands between used ones. -/
theorem noFreePairs_append_cons {before after : List MemNode} {mn : MemNode} :
    NoFreePairs (before.reverse ++ mn :: after) ↔
      NoFreePairs (mn :: before) ∧ NoFreePairs (mn :: after) := by
  have hsplit : before.reverse ++ mn :: after = (mn :: before).reverse ++ after := by simp
  rw [hsplit]
  constructor
  · intro h
    refine ⟨?_, ?_⟩
    · exact noFreePairs_reverse.mp (List.IsChain.left_of_append h)
    · rw [← hsplit] at h
      exact List.IsChain.right_of_append h
  · rintro ⟨hbefore, hafter⟩
    refine List.IsChain.append (noFreePairs_reverse.mpr hbefore) (List.IsChain.tail hafter) ?_
    intro x hx y hy
    have hx' : x = mn := by simpa [eq_comm] using hx
    subst hx'
    cases after with
    | nil => simp at hy
    | cons z zs =>
        have hyz : y = z := by simpa [eq_comm] using hy
        subst hyz
        simpa [nextUsed] using (noFreePairs_cons.mp hafter).1

/-! ## `mntruncate` -/

section Mntruncate

variable {a hi size : Nat} {pmn : MemNode} {next : List MemNode}

/-- Without a free area behind it a node can only be cut; the rest becomes a
free area. -/
theorem mntruncate_of_nextUsed (hlo : pmn.memArea = a) (hend : a + pmn.size ≤ 2 ^ 32)
    (hsmall : pmn.size < 2 ^ 31) (hnext : nextUsed next = true) (hlt : size < pmn.size) :
    mntruncate pmn next size =
      some ({ pmn with size := size }, freeArea (a + size) (pmn.size - size) ++ next) := by
  have hdelta : swrap 32 ((pmn.size : Int) - size) = (pmn.size : Int) - size :=
    swrap_of_range (by norm_num) (by omega) (by omega)
  have hne : ¬((pmn.size : Int) - size = 0) := by omega
  have hcut : uwrap 64 ((pmn.size : Int) - size) = pmn.size - size := by
    rw [uwrap_of_lt (by omega) (by omega)]
    omega
  have haddr : uwrap 32 ((pmn.memArea : Int) + size) = a + size := by
    rw [uwrap_of_lt (by omega) (by omega)]
    omega
  have harea := freeArea_of_pos (a + size) (Nat.sub_pos_of_lt hlt)
  cases next with
  | nil => simp [mntruncate, hdelta, hne, hlt, hcut, haddr, harea, cAssert]
  | cons nmn rest =>
      have hused : nmn.used = true := hnext
      simp [mntruncate, hdelta, hne, hlt, hcut, haddr, harea, hused, cAssert]

/-- A free area behind the node gives up or receives the difference; when it
is used up its node goes away, and the node after that must be used. -/
theorem mntruncate_of_free {nmn : MemNode} {rest : List MemNode} (hlo : pmn.memArea = a)
    (hnlo : nmn.memArea = a + pmn.size) (hend : a + pmn.size + nmn.size ≤ 2 ^ 32)
    (hsmall : pmn.size + nmn.size < 2 ^ 31) (hused : nmn.used = false) (hpos : 0 < size)
    (hne : size ≠ pmn.size) (hfit : size ≤ pmn.size + nmn.size) :
    mntruncate pmn (nmn :: rest) size =
      if size = pmn.size + nmn.size ∧ nextUsed rest = false then none
      else some ({ pmn with size := size },
        freeArea (a + size) (pmn.size + nmn.size - size) ++ rest) := by
  have hdelta : swrap 32 ((pmn.size : Int) - size) = (pmn.size : Int) - size :=
    swrap_of_range (by norm_num) (by omega) (by omega)
  have hdne : ¬((pmn.size : Int) - size = 0) := by omega
  have hnsize : uwrap 64 ((nmn.size : Int) + ((pmn.size : Int) - size)) =
      pmn.size + nmn.size - size := by
    rw [uwrap_of_lt (by omega) (by omega)]
    omega
  have hpsize : uwrap 64 (size : Int) = size := uwrap_natCast (by omega)
  by_cases hall : size = pmn.size + nmn.size
  · have hzero : pmn.size + nmn.size - size = 0 := by omega
    have hcond := eq_true hall
    cases hru : nextUsed rest <;>
      simp [mntruncate, hdelta, hdne, hused, hnsize, hpsize, hzero, hpos, hru, cAssert, hcond]
  · have hzero : ¬(pmn.size + nmn.size - size = 0) := by omega
    have haddr : uwrap 32 ((nmn.memArea : Int) - ((pmn.size : Int) - size)) = a + size := by
      rw [uwrap_of_lt (by omega) (by omega)]
      omega
    simp [mntruncate, hdelta, hdne, hused, hnsize, hpsize, hzero, hpos, cAssert, hall, haddr,
      freeArea]

/-- In ordinary arithmetic `mntruncate` divides the node and the free space
behind it at `size`.  It aborts only when it swallows the free area behind the
node and the node after that is free too. -/
theorem mntruncate_eq (pmn : MemNode) (next : List MemNode) (size : Nat)
    (ht : PoolTiles a (pmn :: next) hi) (hhi : hi ≤ 2 ^ 32) (hsmall : hi - a < 2 ^ 31)
    (hpos : 0 < size) (hfit : size ≤ pmn.size + nextFree next) :
    mntruncate pmn next size =
      if size ≠ pmn.size ∧ size = pmn.size + nextFree next ∧
          nextUsed (dropFree next) = false then none
      else some ({ pmn with size := size },
        freeArea (a + size) (pmn.size + nextFree next - size) ++ dropFree next) := by
  obtain ⟨hlo, hlen, hnext⟩ := ht
  have hle := PoolTiles.nextFree_le hnext
  by_cases heq : size = pmn.size
  · have hzero : swrap 32 0 = 0 := by decide +kernel
    subst heq
    simp only [mntruncate, sub_self, hzero, if_true, ne_eq, not_true_eq_false, false_and,
      if_false, Nat.add_sub_cancel_left]
    rw [← PoolTiles.after_eq hnext]
  · cases hnu : nextUsed next
    · cases next with
      | nil => simp [nextUsed] at hnu
      | cons nmn rest =>
          have hused : nmn.used = false := hnu
          simp only [nextFree, dropFree, hused, Bool.false_eq_true, if_false] at hfit hle ⊢
          rw [mntruncate_of_free hlo hnext.1 (by omega) (by omega) hused hpos heq hfit]
          simp [heq]
    · have hzero := nextFree_of_nextUsed hnu
      have hdrop := dropFree_of_nextUsed hnu
      rw [mntruncate_of_nextUsed hlo (by omega) (by omega) hnu (by omega), hzero, hdrop]
      simp [hnu]

end Mntruncate

end Smalloc
end Dosemu
