import Dosemu.Simx86.Links
import Dosemu.Simx86.NodeSearch

/-!
# Invalidation of a range

The walk over a written range goes from node to node in ascending order, and
each node it comes to is removed.  Between two rounds no live node lies across
the place the walk has come to.

Main results:

- Theorem `invalidateFrom_outcome`: the walk removes the nodes that meet the
  range and keeps the others, and returns if the maps let it.
- Theorem `invalidate_exact_iff`: when invalidation is exact, along every run.
- Theorem `invalidate_end_of_mega_aborts`: a node at the end of a megabyte that
  cannot be removed.
-/

namespace Dosemu
namespace Simx86

open Run
open Tracked (codeInPage lastOfMega)

/-- One past the last byte of the node. -/
def TNode.stop (n : TNode) : Nat :=
  n.range.addr + n.range.len

theorem TNode.key_lt_stop (n : TNode) : n.key < n.stop :=
  Nat.lt_add_of_pos_right n.range.pos

theorem TNode.stop_congr {n m : TNode} (h : n.range = m.range) : n.stop = m.stop := by
  rw [stop, stop, h]

theorem TNode.key_congr {n m : TNode} (h : n.range = m.range) : n.key = m.key := by
  rw [key, key, h]

/-- After a range that ends with its megabyte there is a map for the next one. -/
def Marks.MegaAfter (m : Marks) (r : GuestRange) : Prop :=
  (r.addr + r.len) % 1048576 = 0 → m.mapped ((r.addr + r.len) / 1048576)

/-- `e_unmarkpage` returns only where there is a map behind the range. -/
theorem Marks.megaAfter_of_eUnmarkpage {s t : Marks} {r : GuestRange}
    (hmap : s.mapped (r.addr / 1048576)) (h : s.eUnmarkpage r = some t) : s.MegaAfter r := by
  intro hend
  have hpos := r.pos
  have hbytes := Marks.unmarkBytes_outcome (n := r.len) hmap
  obtain ⟨m, hm⟩ := hmap
  rw [Marks.eUnmarkpage, Marks.findM_eq, hm] at h
  simp only [Option.bind_eq_bind, Option.bind_eq_some_iff, shiftRight_mega] at h
  obtain ⟨-, -, u, hu, -⟩ := h
  rw [hu] at hbytes
  exact hbytes.next _ (by omega) (by omega)

namespace Jit

variable {s t u : Jit} {a g h : Nat} {n m : TNode}

/-! ## Nodes and marks -/

/-- The ranges of the live nodes. -/
def ranges (s : Jit) : List GuestRange :=
  s.tree.entries.map fun e => e.2.range

/-- Links and lists agree, and the marks are those of the live nodes, which are
disjoint. -/
structure Tidy (s : Jit) : Prop where
  links : s.LinkInv
  tracked : Tracked.Inv ⟨s.marks, s.ranges⟩

theorem node_eq_some_iff : s.node g = some n ↔ (⟨g, n⟩ : Sigma fun _ : Nat => TNode) ∈ s.tree.entries :=
  AList.mem_lookup_iff

theorem mem_ranges {r : GuestRange} : r ∈ s.ranges ↔ ∃ g n, s.node g = some n ∧ n.range = r := by
  rw [ranges, List.mem_map]
  constructor
  · rintro ⟨⟨g, n⟩, he, rfl⟩
    exact ⟨g, n, node_eq_some_iff.mpr he, rfl⟩
  · rintro ⟨g, n, hn, rfl⟩
    exact ⟨⟨g, n⟩, node_eq_some_iff.mp hn, rfl⟩

theorem range_mem (hn : s.node g = some n) : n.range ∈ s.ranges :=
  mem_ranges.mpr ⟨g, n, hn, rfl⟩

/-- Two nodes are apart. -/
def Apart (n m : TNode) : Prop :=
  n.stop ≤ m.key ∨ m.stop ≤ n.key

theorem pairwise_ranges :
    (s.ranges.Pairwise fun q r => q.addr + q.len ≤ r.addr ∨ r.addr + r.len ≤ q.addr) ↔
      ∀ g h n m, g ≠ h → s.node g = some n → s.node h = some m → Apart n m := by
  rw [ranges, List.pairwise_map]
  constructor
  · intro hpair g h n m hne hn hm
    have : Std.Symm fun e e' : Sigma fun _ : Nat => TNode => Apart e.2 e'.2 :=
      ⟨fun _ _ hapart => Or.symm hapart⟩
    have hall : s.tree.entries.Pairwise fun e e' => Apart e.2 e'.2 := hpair
    refine hall.forall (node_eq_some_iff.mp hn) (node_eq_some_iff.mp hm) fun heq => ?_
    exact hne (congrArg Sigma.fst heq)
  · intro hall
    have hapart : s.tree.entries.Pairwise fun e e' => Apart e.2 e'.2 := by
      apply List.Nodup.pairwise_of_forall_ne s.tree.nodupKeys.nodup
      intro e he e' he' hne
      refine hall e.1 e'.1 e.2 e'.2 (fun heq => ?_) (node_eq_some_iff.mpr he)
        (node_eq_some_iff.mpr he')
      exact hne (s.tree.nodupKeys.eq_of_fst_eq he he' heq)
    exact hapart

section Tidy

variable (hs : s.Tidy)
include hs

theorem Tidy.apart (hne : g ≠ h) (hn : s.node g = some n) (hm : s.node h = some m) :
    Apart n m :=
  pairwise_ranges.mp hs.tracked.disjoint g h n m hne hn hm

theorem Tidy.marked_iff (x : Nat) :
    s.marks.marked x = true ↔ ∃ g n, s.node g = some n ∧ n.key ≤ x ∧ x < n.stop := by
  rw [hs.tracked.marked]
  constructor
  · rintro ⟨r, hr, hx⟩
    obtain ⟨g, n, hn, rfl⟩ := mem_ranges.mp hr
    exact ⟨g, n, hn, hx⟩
  · rintro ⟨g, n, hn, hx⟩
    exact ⟨n.range, range_mem hn, hx⟩

theorem Tidy.node_iff (x : Nat) :
    s.marks.node x = true ↔ ∃ g n, s.node g = some n ∧ x = n.key := by
  rw [hs.tracked.node_iff]
  constructor
  · rintro ⟨r, hr, rfl⟩
    obtain ⟨g, n, hn, rfl⟩ := mem_ranges.mp hr
    exact ⟨g, n, hn, rfl⟩
  · rintro ⟨g, n, hn, rfl⟩
    exact ⟨n.range, range_mem hn, rfl⟩

theorem Tidy.mapped (hn : s.node g = some n) : s.marks.mapped (n.range.addr / 1048576) :=
  Marks.mapped_of_marked ((hs.marked_iff _).mpr ⟨g, n, hn, le_rfl, n.key_lt_stop⟩)

/-- The same byte is in one node only. -/
theorem Tidy.unique {x : Nat} (hn : s.node g = some n) (hm : s.node h = some m)
    (hx : n.key ≤ x ∧ x < n.stop) (hx' : m.key ≤ x ∧ x < m.stop) : g = h := by
  by_contra hne
  rcases hs.apart hne hn hm with hle | hle
  · omega
  · omega

theorem Tidy.nodeRange (hn : s.node g = some n) : s.marks.NodeRange n.range where
  marked x hlo hhi := (hs.marked_iff x).mpr ⟨g, n, hn, hlo, hhi⟩
  node x hlo hhi := by
    rw [hs.node_iff]
    constructor
    · rintro ⟨h, m, hm, rfl⟩
      have heq := hs.unique hn hm ⟨hlo, hhi⟩ ⟨le_rfl, m.key_lt_stop⟩
      subst heq
      rw [hn, Option.some.injEq] at hm
      rw [hm, TNode.key]
    · rintro rfl
      exact ⟨g, n, hn, rfl⟩

theorem Tidy.findTree (hn : s.node g = some n) : s.findTree n.key = some g := by
  rw [Jit.findTree]
  cases hfind : s.tree.entries.find? fun e => e.2.key == n.key with
  | none =>
      have hnone := List.find?_eq_none.mp hfind _ (node_eq_some_iff.mp hn)
      simp at hnone
  | some e =>
      have hmem := List.mem_of_find?_eq_some hfind
      have hkey := List.find?_some hfind
      rw [beq_iff_eq] at hkey
      have hm : s.node e.1 = some e.2 := node_eq_some_iff.mpr hmem
      have hlt := e.2.key_lt_stop
      have heq := hs.unique hm hn ⟨le_rfl, hlt⟩ ⟨hkey.ge, by have := n.key_lt_stop; omega⟩
      rw [Option.map_some, heq]

end Tidy

/-! ## Steps -/

/-- Only which ranges are live matters. -/
theorem tracked_congr {marks : Marks} {l l' : List GuestRange} (hmem : ∀ r, r ∈ l ↔ r ∈ l')
    (hdisj : l'.Pairwise fun q r => q.addr + q.len ≤ r.addr ∨ r.addr + r.len ≤ q.addr)
    (h : Tracked.Inv ⟨marks, l⟩) : Tracked.Inv ⟨marks, l'⟩ where
  marked x := by
    rw [h.marked]
    simp only [hmem]
  node x := by
    rw [h.node]
    simp only [hmem]
  prot := h.prot
  host := h.host
  disjoint := hdisj
  below r hr := h.below r ((hmem r).mpr hr)

/-- Nodes that have kept their places are apart as before. -/
theorem Tidy.pairwise_of_kept (hs : s.Tidy)
    (hkept : ∀ a n', t.node a = some n' → ∃ n, s.node a = some n ∧ n'.range = n.range) :
    t.ranges.Pairwise fun q r => q.addr + q.len ≤ r.addr ∨ r.addr + r.len ≤ q.addr := by
  refine pairwise_ranges.mpr fun g h n' m' hne hn' hm' => ?_
  obtain ⟨n, hn, hrange⟩ := hkept g n' hn'
  obtain ⟨m, hm, hrange'⟩ := hkept h m' hm'
  have hapart := hs.apart hne hn hm
  rwa [Apart, ← TNode.stop_congr hrange, ← TNode.stop_congr hrange', ← TNode.key_congr hrange,
    ← TNode.key_congr hrange'] at hapart

/-- Linking touches neither marks nor places. -/
theorem Tidy.becomes (hs : s.Tidy) {sl : Nat → Branch → LinkDesc → LinkDesc}
    {bk : Nat → List (Nat × Branch) → List (Nat × Branch)} (h : Becomes s t sl bk)
    (ht : t.LinkInv) : t.Tidy := by
  refine ⟨ht, ?_⟩
  rw [h.marks]
  refine tracked_congr (fun r => ?_) (hs.pairwise_of_kept fun a n' hn' => ?_) hs.tracked
  · rw [mem_ranges, mem_ranges]
    constructor
    · rintro ⟨g, n, hn, rfl⟩
      obtain ⟨n', hn', hrange, -⟩ := h.live g n hn
      exact ⟨g, n', hn', hrange⟩
    · rintro ⟨g, n', hn', rfl⟩
      obtain ⟨n, hn, hrange, -⟩ := h.back hn'
      exact ⟨g, n, hn, hrange.symm⟩
  · obtain ⟨n, hn, hrange, -⟩ := h.back hn'
    exact ⟨n, hn, hrange⟩

/-- What the removal of a node does, where it returns: it does so where there is a map behind
the node. -/
theorem Tidy.removeNode_outcome (hs : s.Tidy) (hn : s.node g = some n) :
    Outcome (s.marks.MegaAfter n.range) (fun t => t.Tidy ∧ Removes s t ∧
      (∀ a, (t.node a).isSome ↔ (s.node a).isSome ∧ a ≠ g) ∧
      Marks.UnmarksRange n.range s.marks t.marks ∧ s.marks.MegaAfter n.range) (s.removeNode g) := by
  have hmap := hs.mapped hn
  have hunmark := Marks.eUnmarkpage_outcome n.range hs.tracked.covered hs.tracked.nodesMarked
    (hs.tracked.below _ (range_mem hn)) hmap
  cases hm : s.marks.eUnmarkpage n.range with
  | none =>
      rw [hm] at hunmark
      have hnone : s.removeNode g = none := by
        simp [removeNode, hn, hm]
      rw [hnone]
      exact fun hnext => hunmark (hs.tracked.nextMapped (range_mem hn) hnext)
  | some m =>
      rw [hm] at hunmark
      obtain ⟨t, ht, hremoves, hmarks, hlive⟩ := removeNode_spec hs.links hn hm
      rw [ht]
      have hkept : ∀ a n', t.node a = some n' → ∃ n, s.node a = some n ∧ n'.range = n.range := by
        intro a n' hn'
        obtain ⟨n, hn, hrange, -⟩ := hremoves.kept a n' hn'
        exact ⟨n, hn, hrange⟩
      refine ⟨⟨hremoves.linkInv hs.links, ?_⟩, hremoves, hlive, hmarks ▸ hunmark,
        Marks.megaAfter_of_eUnmarkpage hmap hm⟩
      rw [hmarks]
      refine tracked_congr (fun r => ?_) (hs.pairwise_of_kept hkept)
        (hs.tracked.unmarked_range (range_mem hn) hunmark)
      -- the ranges but the one removed
      have hnodup : s.ranges.Nodup := by
        refine hs.tracked.disjoint.imp fun {q r} hapart heq => ?_
        have hpos := q.pos
        subst heq
        omega
      rw [hnodup.mem_erase_iff, mem_ranges, mem_ranges]
      constructor
      · rintro ⟨hne, h, m, hm, rfl⟩
        have hhg : h ≠ g := by
          rintro rfl
          rw [hn, Option.some.injEq] at hm
          exact hne (hm ▸ rfl)
        obtain ⟨m', hm'⟩ := Option.isSome_iff_exists.mp ((hlive h).mpr ⟨by simp [hm], hhg⟩)
        obtain ⟨m₀, hm₀, hrange⟩ := hkept h m' hm'
        rw [hm, Option.some.injEq] at hm₀
        exact ⟨h, m', hm', hm₀ ▸ hrange⟩
      · rintro ⟨h, m', hm', rfl⟩
        obtain ⟨m, hm, hrange⟩ := hkept h m' hm'
        have hhg : h ≠ g := ((hlive h).mp (by simp [hm'])).2
        refine ⟨fun heq => ?_, h, m, hm, hrange.symm⟩
        have hkey : m.key = n.key := TNode.key_congr (hrange.symm.trans heq)
        exact hhg (hs.unique hm hn ⟨le_rfl, m.key_lt_stop⟩ ⟨hkey.ge, hkey.trans_lt n.key_lt_stop⟩)

/-! ## The walk -/

/-- The node the walk has come to is the first that meets `[pos, ah)`; without one, none
does. -/
def Frontier (s : Jit) (pos ah : Nat) : Option Nat → Prop
  | none => ∀ h m, s.node h = some m → m.stop ≤ pos ∨ ah ≤ m.key
  | some g => ∃ n, s.node g = some n ∧ n.key < ah ∧ pos < n.stop ∧
      ∀ h m, h ≠ g → s.node h = some m → m.stop ≤ pos ∨ n.stop ≤ m.key

/-- From a place that no node lies across the next node is found. -/
theorem Tidy.findNode_frontier (hs : s.Tidy) {pos ah : Nat} (hlt : pos < ah)
    (hclear : ∀ h m, s.node h = some m → m.stop ≤ pos ∨ pos ≤ m.key) :
    ∃ o, s.findNode pos (ah - pos) = some o ∧ s.Frontier pos ah o := by
  have hlen : ah - pos ≠ 0 := by omega
  have hend : pos + (ah - pos) = ah := by omega
  obtain ⟨o, ho, hspec⟩ := Marks.mFindnode_spec s.marks pos hlen
  rw [hend] at hspec
  simp only [findNode, ho, Option.bind_eq_bind, Option.bind_some]
  cases o with
  | none =>
      refine ⟨none, rfl, fun h m hm => ?_⟩
      rcases hclear h m hm with hle | hle
      · exact Or.inl hle
      · by_contra hmeet
        push Not at hmeet
        have hnode := hspec m.key hle hmeet.2
        rw [(hs.node_iff _).mpr ⟨h, m, hm, rfl⟩] at hnode
        cases hnode
  | some key =>
      obtain ⟨hlo, hhi, hnode, hfirst⟩ := hspec
      obtain ⟨g, n, hn, rfl⟩ := (hs.node_iff key).mp hnode
      have hstop := n.key_lt_stop
      refine ⟨some g, by simp [hs.findTree hn], n, hn, hhi, by omega, fun h m hne hm => ?_⟩
      rcases hclear h m hm with hle | hle
      · exact Or.inl hle
      · rcases hs.apart hne hm hn with hbefore | hafter
        · -- the other node would have been found first
          have hpos := m.key_lt_stop
          have hseen := hfirst m.key hle (by omega)
          rw [(hs.node_iff _).mpr ⟨h, m, hm, rfl⟩] at hseen
          cases hseen
        · exact Or.inr hafter

/-- The walk starts at the first node that meets the range. -/
theorem Tidy.findNodeStart_frontier (hs : s.Tidy) (al : Nat) {len : Nat} (hlen : len ≠ 0) :
    ∃ o, s.findNodeStart al len = some o ∧ s.Frontier al (al + len) o := by
  by_cases hmark : s.marks.marked al = true
  · obtain ⟨g, n, hn, hlo, hhi⟩ := (hs.marked_iff al).mp hmark
    have hstart := Marks.mFindnodestart_covered (hs.nodeRange hn) hlo hhi
    refine ⟨some g, ?_, n, hn, by omega, hhi, fun h m hne hm => ?_⟩
    · simp only [findNodeStart, hstart, Option.bind_eq_bind, Option.bind_some]
      rw [show s.findTree n.range.addr = some g from hs.findTree hn]
      rfl
    · rcases hs.apart hne hm hn with hbefore | hafter
      · exact Or.inl (hbefore.trans hlo)
      · exact Or.inr hafter
  · have hnone := Marks.mFindnodestart_unmarked (by simpa using hmark)
    obtain ⟨o, ho, hfront⟩ := hs.findNode_frontier (show al < al + len by omega)
      fun h m hm => by
        by_contra hmeet
        push Not at hmeet
        exact hmark ((hs.marked_iff al).mpr ⟨h, m, hm, by omega, hmeet.1⟩)
    rw [Nat.add_sub_cancel_left] at ho
    refine ⟨o, ?_, hfront⟩
    simp only [findNodeStart, hnone, Option.bind_eq_bind, Option.bind_some]
    exact ho

/-- Behind every node that meets the range there is a map. -/
def MapsBehind (s : Jit) (pos ah : Nat) : Prop :=
  ∀ g n, s.node g = some n → pos < n.stop → n.key < ah → s.marks.MegaAfter n.range

/-- What the walk does from a place on. -/
structure Walked (s t : Jit) (pos ah : Nat) : Prop where
  tidy : t.Tidy
  removes : Removes s t
  live : ∀ a, (t.node a).isSome ↔ ∃ n, s.node a = some n ∧ (n.stop ≤ pos ∨ ah ≤ n.key)
  behind : s.MapsBehind pos ah

/-- After the first node of the range is gone, the rest of the walk is one from its end. -/
theorem Walked.cons {pos ah : Nat} (hn : s.node g = some n) (hkey : n.key < ah) (hpos : pos < n.stop)
    (hrest : ∀ h m, h ≠ g → s.node h = some m → m.stop ≤ pos ∨ n.stop ≤ m.key)
    (hremoves : Removes s u) (hlive : ∀ a, (u.node a).isSome ↔ (s.node a).isSome ∧ a ≠ g)
    (hmarks : Marks.UnmarksRange n.range s.marks u.marks) (hbehind : s.marks.MegaAfter n.range)
    (hwalk : Walked u t n.stop ah) : Walked s t pos ah where
  tidy := hwalk.tidy
  removes := hremoves.trans hwalk.removes
  live a := by
    rw [hwalk.live]
    constructor
    · rintro ⟨m', hm', hout⟩
      obtain ⟨m, hm, hrange, -⟩ := hremoves.kept a m' hm'
      rw [TNode.stop_congr hrange, TNode.key_congr hrange] at hout
      have hag : a ≠ g := ((hlive a).mp (by simp [hm'])).2
      have hmlt := m.key_lt_stop
      refine ⟨m, hm, ?_⟩
      rcases hrest a m hag hm with hle | hle
      · exact Or.inl hle
      · rcases hout with hout | hout
        · exact absurd (hout.trans hle) (Nat.not_le.mpr hmlt)
        · exact Or.inr hout
    · rintro ⟨m, hm, hout⟩
      have hag : a ≠ g := by
        rintro rfl
        rw [hn, Option.some.injEq] at hm
        subst hm
        omega
      obtain ⟨m', hm'⟩ := Option.isSome_iff_exists.mp ((hlive a).mpr ⟨by simp [hm], hag⟩)
      obtain ⟨m₀, hm₀, hrange, -⟩ := hremoves.kept a m' hm'
      rw [hm, Option.some.injEq] at hm₀
      subst hm₀
      refine ⟨m', hm', ?_⟩
      rw [TNode.stop_congr hrange, TNode.key_congr hrange]
      rcases hout with hout | hout
      · exact Or.inl (le_trans hout hpos.le)
      · exact Or.inr hout
  behind := by
    intro h m hm hlo hhi hend
    by_cases hhg : h = g
    · subst hhg
      rw [hn, Option.some.injEq] at hm
      exact (hm ▸ hbehind) hend
    · have hafter : n.stop ≤ m.key := by
        rcases hrest h m hhg hm with hle | hle
        · omega
        · exact hle
      obtain ⟨m', hm'⟩ := Option.isSome_iff_exists.mp ((hlive h).mpr ⟨by simp [hm], hhg⟩)
      obtain ⟨m₀, hm₀, hrange, -⟩ := hremoves.kept h m' hm'
      rw [hm, Option.some.injEq] at hm₀
      subst hm₀
      have hmlt := m.key_lt_stop
      have hmap := hwalk.behind h m' hm' (by rw [TNode.stop_congr hrange]; omega)
        (by rw [TNode.key_congr hrange]; exact hhi)
      rw [hrange] at hmap
      exact hmarks.mapped _ (hmap hend)

/-- Removing the first node of the range leaves the maps behind the others. -/
theorem MapsBehind.rest {pos ah : Nat} (hbehind : s.MapsBehind pos ah) (hpos : pos < n.stop)
    (hremoves : Removes s u)
    (hmarks : Marks.UnmarksRange n.range s.marks u.marks) : u.MapsBehind n.stop ah := by
  intro h m' hm' hlo hhi hend
  obtain ⟨m, hm, hrange, -⟩ := hremoves.kept h m' hm'
  rw [TNode.stop_congr hrange] at hlo
  rw [TNode.key_congr hrange] at hhi
  rw [hrange] at hend ⊢
  refine hmarks.keeps _ (Or.inr ?_) (hbehind h m hm (by omega) hhi hend)
  have hafter : n.stop < m.range.addr + m.range.len := hlo
  rw [TNode.stop] at hafter
  rw [n.range.lastPage_eq]
  omega

/-- The walk removes the nodes that meet the range, and no others; it returns where there is a
map behind each of them. -/
theorem invalidateFrom_outcome {al pos ah fuel : Nat} {o : Option Nat} (hs : s.Tidy)
    (hal : al ≤ pos) (hlt : pos < ah) (hfuel : ah ≤ pos + fuel) (hfront : s.Frontier pos ah o) :
    Outcome (s.MapsBehind pos ah) (fun t => Walked s t pos ah) (invalidateFrom al ah fuel o s) := by
  induction fuel generalizing s pos o with
  | zero => omega
  | succ fuel ih =>
      cases o with
      | none =>
          refine ⟨hs, Removes.refl hs.links, fun a => ?_, fun h m hm hlo hhi => ?_⟩
          · constructor
            · intro ha
              obtain ⟨n, hn⟩ := Option.isSome_iff_exists.mp ha
              exact ⟨n, hn, hfront a n hn⟩
            · rintro ⟨n, hn, -⟩
              simp [hn]
          · rcases hfront h m hm with hle | hle
            · omega
            · omega
      | some g =>
          obtain ⟨n, hn, hkey, hpos, hrest⟩ := hfront
          have hmeets : al < n.key + n.range.len ∧ n.key < ah := ⟨hal.trans_lt hpos, hkey⟩
          rw [invalidateFrom_succ, hn, Option.bind_some, if_neg (Nat.not_le.mpr hkey),
            if_pos hmeets]
          refine ((hs.removeNode_outcome hn).weaken fun hbehind => hbehind g n hn hpos hkey).bind ?_
          rintro u ⟨htidy, hremoves, hlive, hmarks, hafter⟩
          have hcleared : ∀ h m, u.node h = some m → m.stop ≤ n.stop ∨ n.stop ≤ m.key := by
            intro h m' hm'
            obtain ⟨m, hm, hrange, -⟩ := hremoves.kept h m' hm'
            rw [TNode.stop_congr hrange, TNode.key_congr hrange]
            rcases hrest h m ((hlive h).mp (by simp [hm'])).2 hm with hle | hle
            · exact Or.inl (le_trans hle hpos.le)
            · exact Or.inr hle
          by_cases hend : ah ≤ n.key + n.range.len
          · rw [if_pos hend]
            have hdone : Walked u u n.stop ah := by
              refine ⟨htidy, Removes.refl htidy.links, fun a => ?_, fun h m hm hlo hhi => ?_⟩
              · constructor
                · intro ha
                  obtain ⟨m, hm⟩ := Option.isSome_iff_exists.mp ha
                  refine ⟨m, hm, (hcleared a m hm).imp_right fun hle => ?_⟩
                  exact le_trans hend hle
                · rintro ⟨m, hm, -⟩
                  simp [hm]
              · have hnone : ah ≤ n.stop := hend
                rcases hcleared h m hm with hle | hle
                · omega
                · omega
            exact hdone.cons hn hkey hpos hrest hremoves hlive hmarks hafter
          · rw [if_neg hend]
            obtain ⟨o, ho, hfront⟩ := htidy.findNode_frontier (Nat.not_le.mp hend) hcleared
            rw [show u.findNode (n.key + n.range.len) (ah - (n.key + n.range.len)) = some o from ho]
            refine ((ih htidy (le_trans hal hpos.le) (Nat.not_le.mp hend) ?_ hfront).weaken
              fun hbehind => hbehind.rest hpos hremoves hmarks).mono fun t hwalk =>
                hwalk.cons hn hkey hpos hrest hremoves hlive hmarks hafter
            change pos < n.key + n.range.len at hpos
            change ah ≤ n.key + n.range.len + fuel
            omega

/-! ## Exactness -/

/-- The range has a byte in `[lo, hi)`. -/
def Intersects (r : GuestRange) (lo hi : Nat) : Prop :=
  ∃ x, (lo ≤ x ∧ x < hi) ∧ r.addr ≤ x ∧ x < r.addr + r.len

theorem intersects_iff {n : TNode} {lo hi : Nat} (hlt : lo < hi) :
    Intersects n.range lo hi ↔ lo < n.stop ∧ n.key < hi := by
  have hpos := n.key_lt_stop
  constructor
  · rintro ⟨x, ⟨hlo, hhi⟩, hkey, hstop⟩
    exact ⟨hlo.trans_lt hstop, lt_of_le_of_lt hkey hhi⟩
  · rintro ⟨hlo, hhi⟩
    refine ⟨max lo n.key, ⟨le_max_left _ _, max_lt hlt hhi⟩, le_max_right _ _, ?_⟩
    exact max_lt hlo hpos

/-- Invalidation returns, removes the nodes that meet the range and keeps the others, and
leaves no byte of the range marked. -/
def Exact (s : Jit) (al len : Nat) : Prop :=
  ∃ t, s.invalidateNodeRange al len = some t ∧ Removes s t ∧
    (∀ g, (t.node g).isSome ↔ ∃ n, s.node g = some n ∧ ¬Intersects n.range al (al + len)) ∧
    t.marks.Clear al (al + len)

/-- An empty range starts where a node does, and there is a map behind every node that meets the
range. -/
structure CanInvalidate (s : Jit) (al len : Nat) : Prop where
  start : len = 0 → s.marks.eQuerynode al = true
  behind : ∀ g n, s.node g = some n → Intersects n.range al (al + len) → s.marks.MegaAfter n.range

theorem not_intersects_empty {r : GuestRange} {al : Nat} : ¬Intersects r al (al + 0) := by
  rintro ⟨x, ⟨hlo, hhi⟩, -⟩
  omega

/-- An empty range does no harm only where a node starts: inside a node it removes it, and
outside of nodes the search fails an assertion. -/
theorem Tidy.exact_empty (hs : s.Tidy) (al : Nat) :
    s.Exact al 0 ↔ s.marks.eQuerynode al = true := by
  rw [Marks.eQuerynode_eq]
  by_cases hmark : s.marks.marked al = true
  · obtain ⟨g, n, hn, hlo, hhi⟩ := (hs.marked_iff al).mp hmark
    have hstart := Marks.mFindnodestart_covered (hs.nodeRange hn) hlo hhi
    have hwalk : s.invalidateNodeRange al 0 = invalidateFrom al al 1 (some g) s := by
      simp only [invalidateNodeRange, findNodeStart, hstart, Option.bind_eq_bind,
        Option.bind_some]
      rw [show s.findTree n.range.addr = some g from hs.findTree hn]
      rfl
    rw [(hs.nodeRange hn).node al hlo hhi, Exact, hwalk, invalidateFrom_succ, hn, Option.bind_some]
    by_cases hfirst : al ≤ n.key
    · rw [if_pos hfirst]
      refine iff_of_true ⟨s, rfl, Removes.refl hs.links, fun a => ?_, fun x hx hx' => by omega⟩
        (le_antisymm hfirst hlo)
      rw [Option.isSome_iff_exists]
      constructor
      · rintro ⟨m, hm⟩
        exact ⟨m, hm, not_intersects_empty⟩
      · rintro ⟨m, hm, -⟩
        exact ⟨m, hm⟩
    · have hne : al ≠ n.range.addr := fun heq => hfirst heq.le
      have hmeets : al < n.key + n.range.len ∧ n.key < al := ⟨hhi, Nat.not_le.mp hfirst⟩
      have hend : al ≤ n.key + n.range.len := hhi.le
      rw [if_neg hfirst, if_pos hmeets]
      refine iff_of_false ?_ hne
      rintro ⟨t, ht, -, hlive, -⟩
      obtain ⟨u, hu, ht⟩ := Option.bind_eq_some_iff.mp ht
      rw [if_pos hend, Option.some.injEq] at ht
      subst ht
      have hgone := ((removeNode_removes hs.links hu).2 g).mp
        ((hlive g).mpr ⟨n, hn, not_intersects_empty⟩)
      exact hgone.2 rfl
  · have hnode : ¬s.marks.node al = true := fun hnode => hmark (hs.tracked.nodesMarked al hnode)
    refine iff_of_false ?_ hnode
    rintro ⟨t, ht, -⟩
    have hnone := Marks.mFindnodestart_unmarked (by simpa using hmark)
    simp [invalidateNodeRange, findNodeStart, findNode, hnone, Marks.mFindnode, cAssert] at ht

/-- When the invalidation of a range is exact. -/
theorem Tidy.exact_iff (hs : s.Tidy) (al len : Nat) :
    s.Exact al len ↔ s.CanInvalidate al len := by
  by_cases hlen : len = 0
  · subst hlen
    rw [hs.exact_empty]
    exact ⟨fun h => ⟨fun _ => h, fun _ _ _ hmeet => absurd hmeet not_intersects_empty⟩,
      fun h => h.start rfl⟩
  have hlt : al < al + len := by omega
  obtain ⟨o, ho, hfront⟩ := hs.findNodeStart_frontier al hlen
  have hwalk : s.invalidateNodeRange al len = invalidateFrom al (al + len) (len + 1) o s := by
    simp only [invalidateNodeRange, ho, Option.bind_eq_bind, Option.bind_some]
  have hout := invalidateFrom_outcome hs le_rfl hlt
    (show al + len ≤ al + (len + 1) by omega) hfront
  rw [← hwalk] at hout
  constructor
  · rintro ⟨t, ht, -⟩
    have hbehind := (hout.post ht).behind
    refine ⟨fun h => absurd h hlen, fun g n hn hmeet => ?_⟩
    obtain ⟨hlo, hhi⟩ := (intersects_iff hlt).mp hmeet
    exact hbehind g n hn hlo hhi
  · intro hcan
    obtain ⟨t, ht, hwalked⟩ := hout.isSome fun g n hn hlo hhi =>
      hcan.behind g n hn ((intersects_iff hlt).mpr ⟨hlo, hhi⟩)
    have hlive : ∀ g, (t.node g).isSome ↔
        ∃ n, s.node g = some n ∧ ¬Intersects n.range al (al + len) := by
      intro g
      simp only [hwalked.live, intersects_iff hlt, not_and_or, Nat.not_lt]
    refine ⟨t, ht, hwalked.removes, hlive, fun x hlo hhi => ?_⟩
    by_contra hmark
    obtain ⟨g, n', hn', hx⟩ := (hwalked.tidy.marked_iff x).mp (by simpa using hmark)
    obtain ⟨n, hn, hrange, -⟩ := hwalked.removes.kept g n' hn'
    obtain ⟨m, hm, hout⟩ := (hlive g).mp (by simp [hn'])
    rw [hn, Option.some.injEq] at hm
    subst hm
    rw [TNode.key_congr hrange, TNode.stop_congr hrange] at hx
    exact hout ⟨x, ⟨hlo, hhi⟩, hx⟩

/-! ## Runs -/

/-- The calls of the translator: bytes are fetched, a node is collected and its range marked,
nodes are linked and removed, and written ranges invalidated. -/
inductive CodeCall
  | fetch (r : GuestRange)
  | collect (g : Nat) (n : NewNode)
  | nodeLinker (lg : Option Nat) (g : Nat)
  | removeNode (g : Nat)
  | invalidateNodeRange (al len : Nat)

/-- The end of `Close`: the new node is collected and its range marked. -/
def close (s : Jit) (g : Nat) (n : NewNode) : Option Jit := do
  let s ← s.move2Tree g n
  let marks ← s.marks.eMarkpage n.range
  pure { s with marks := marks }

/-- One call. -/
def codeStep (s : Jit) : CodeCall → Option Jit
  | .fetch r => (s.marks.eFetch r).map fun m => { s with marks := m }
  | .collect g n => s.close g n
  | .nodeLinker lg g => s.nodeLinker lg g
  | .removeNode g => s.removeNode g
  | .invalidateNodeRange al len => s.invalidateNodeRange al len

/-- New nodes are below 2^31 and apart from the others. -/
def NodesApart (s : Jit) : CodeCall → Prop
  | .collect _ n => n.range.addr + n.range.len ≤ 2 ^ 31 ∧
      ∀ h m, s.node h = some m → n.range.addr + n.range.len ≤ m.key ∨ m.stop ≤ n.range.addr
  | _ => True

theorem eFetch_clist {marks m : Marks} {r : GuestRange} (h : marks.eFetch r = some m) :
    ∃ cl, m = { marks with clist := cl } := by
  have hpage : ∀ {q q' : Marks} {a : Nat}, q.fetchPage a = some q' →
      ∃ cl, q' = { q with clist := cl } := by
    intro q q' a hq
    unfold Marks.fetchPage at hq
    split at hq
    · next cl _ =>
        cases hq
        exact ⟨cl, rfl⟩
    · split at hq
      · cases hq
        exact ⟨q.clist, rfl⟩
      · obtain ⟨cl, -, hq⟩ := Option.bind_eq_some_iff.mp hq
        cases hq
        exact ⟨cl, rfl⟩
  simp only [Marks.eFetch, Option.bind_eq_bind, Option.bind_eq_some_iff] at h
  obtain ⟨-, -, -, -, q, hq, h⟩ := h
  obtain ⟨cl, rfl⟩ := hpage hq
  split at h
  · cases h
    exact ⟨cl, rfl⟩
  · obtain ⟨cl', rfl⟩ := hpage h
    exact ⟨cl', rfl⟩

theorem Tidy.fetch (hs : s.Tidy) {r : GuestRange} {m : Marks} (h : s.marks.eFetch r = some m) :
    Tidy { s with marks := m } := by
  obtain ⟨cl, rfl⟩ := eFetch_clist h
  exact ⟨hs.links.setMarks _, hs.tracked.fetched cl⟩

/-- The new node is one more range, and marked. -/
theorem close_eq {n : NewNode} (h : s.close g n = some t) :
    s.move2Tree g n = some { t with marks := s.marks } ∧ t.ranges = n.range :: s.ranges ∧
      s.marks.eMarkpage n.range = some t.marks := by
  rw [close, Option.bind_eq_bind, Option.bind_eq_some_iff] at h
  obtain ⟨u, hu, h⟩ := h
  rw [Option.bind_eq_bind, Option.bind_eq_some_iff] at h
  obtain ⟨m, hm, h⟩ := h
  cases h
  have hfree : s.node g = none := by
    by_contra hne
    simp [move2Tree, cAssert, hne] at hu
  have heq : u = { s with tree := s.tree.insert g n.toNode } := by
    simpa [move2Tree, cAssert, hfree] using hu.symm
  subst heq
  refine ⟨hu, ?_, hm⟩
  rw [ranges, AList.entries_insert_of_notMem (AList.lookup_eq_none.mp hfree), List.map_cons]
  rfl

theorem Tidy.close (hs : s.Tidy) {n : NewNode} (hapart : s.NodesApart (.collect g n))
    (h : s.close g n = some t) : t.Tidy := by
  obtain ⟨htree, hranges, hm⟩ := close_eq h
  have hclear : s.marks.Clear n.range.addr (n.range.addr + n.range.len) := by
    intro x hlo hhi
    by_contra hmark
    obtain ⟨h, k, hk, hx⟩ := (hs.marked_iff x).mp (by simpa using hmark)
    rcases hapart.2 h k hk with hle | hle
    · omega
    · omega
  have hspec := (Marks.eMarkpage_outcome s.marks n.range).post hm
  refine ⟨(move2Tree_linkInv hs.links htree).setMarks t.marks, ?_⟩
  rw [hranges]
  exact hs.tracked.marked_range hclear hspec

theorem linknode_becomes {lg : Nat} {b : Branch} (h : s.linknode lg g b = some t) :
    ∃ sl bk, Becomes s t sl bk := by
  rcases linknode_cases h with rfl | ⟨_, _, _, _, _, _, hbecomes⟩
  · exact ⟨_, _, Becomes.refl t⟩
  · exact ⟨_, _, hbecomes⟩

theorem Tidy.nodeLinker (hs : s.Tidy) {lg : Option Nat} (h : s.nodeLinker lg g = some t) :
    t.Tidy := by
  have hlinks := nodeLinker_linkInv hs.links h
  unfold Jit.nodeLinker at h
  split at h
  · cases h
    exact hs
  cases lg with
  | none =>
      cases h
      exact hs
  | some lg =>
      obtain ⟨u, hu, ht⟩ := Option.bind_eq_some_iff.mp h
      obtain ⟨_, _, hfirst⟩ := linknode_becomes hu
      obtain ⟨_, _, hsecond⟩ := linknode_becomes ht
      exact hs.becomes (hfirst.trans hsecond) hlinks

theorem Tidy.removeNode (hs : s.Tidy) (h : s.removeNode g = some t) : t.Tidy := by
  cases hn : s.node g with
  | none => simp [Jit.removeNode, hn] at h
  | some n => exact ((hs.removeNode_outcome hn).post h).1

theorem Tidy.invalidateFrom {al ah fuel : Nat} {o : Option Nat} (hs : s.Tidy)
    (h : invalidateFrom al ah fuel o s = some t) : t.Tidy := by
  induction fuel generalizing s o with
  | zero =>
      cases o with
      | none =>
          cases h
          exact hs
      | some g => cases h
  | succ fuel ih =>
      cases o with
      | none =>
          cases h
          exact hs
      | some g =>
          rw [invalidateFrom_succ, Option.bind_eq_some_iff] at h
          obtain ⟨n, hn, h⟩ := h
          split at h
          · cases h
            exact hs
          obtain ⟨u, hu, h⟩ := Option.bind_eq_some_iff.mp h
          have hfirst : u.Tidy := by
            split at hu
            · exact hs.removeNode hu
            · cases hu
              exact hs
          split at h
          · cases h
            exact hfirst
          · obtain ⟨o, -, h⟩ := Option.bind_eq_some_iff.mp h
            exact ih hfirst h

theorem codeStep_tidy (hs : s.Tidy) {c : CodeCall} (hapart : s.NodesApart c)
    (h : s.codeStep c = some t) : t.Tidy := by
  cases c with
  | fetch r =>
      obtain ⟨m, hm, rfl⟩ := Option.map_eq_some_iff.mp h
      exact hs.fetch hm
  | collect g n => exact hs.close hapart h
  | nodeLinker lg g => exact hs.nodeLinker h
  | removeNode g => exact hs.removeNode h
  | invalidateNodeRange al len =>
      obtain ⟨o, -, h⟩ := Option.bind_eq_some_iff.mp h
      exact hs.invalidateFrom h

theorem empty_tidy (useLinker : Bool) : (empty mprotInit useLinker).Tidy :=
  ⟨empty_linkInv _ _, Tracked.inv_init⟩

/-- In every state that is reached, the invalidation of a range is exact when there is a map
behind each node that meets it, and an empty range starts where a node does. -/
theorem invalidate_exact_iff (useLinker : Bool) (calls : List CodeCall) (s : Jit)
    (hapart : Admits codeStep NodesApart (empty mprotInit useLinker) calls)
    (hrun : run codeStep (empty mprotInit useLinker) calls = some s) (al len : Nat)
    (_hint : al + len < 2 ^ 31) : s.Exact al len ↔ s.CanInvalidate al len :=
  (run_invariant NodesApart Tidy (fun _ _ _ hs hok ht => codeStep_tidy hs hok ht)
    (empty_tidy useLinker) hapart hrun).exact_iff al len

theorem nodesApart_of_ranges {n : NewNode} {l : List GuestRange} (hl : s.ranges = l)
    (hbelow : n.range.addr + n.range.len ≤ 2 ^ 31)
    (hall : ∀ r ∈ l, n.range.addr + n.range.len ≤ r.addr ∨ r.addr + r.len ≤ n.range.addr) :
    s.NodesApart (.collect g n) := by
  refine ⟨hbelow, fun h m hm => ?_⟩
  have hmem := range_mem hm
  rw [hl] at hmem
  exact hall _ hmem

theorem fetch_ranges {r : GuestRange} (h : s.codeStep (.fetch r) = some t) : t.ranges = s.ranges := by
  rw [codeStep] at h
  obtain ⟨m, -, rfl⟩ := Option.map_eq_some_iff.mp h
  rfl

theorem collect_ranges {n : NewNode} (h : s.codeStep (.collect g n) = some t) :
    t.ranges = n.range :: s.ranges :=
  (close_eq h).2.1

/-- A node of the second page is fetched and collected, and the middle of it invalidated. -/
theorem invalidate_exact_codeInPage :
    ∃ s, run codeStep (empty mprotInit true) [.fetch codeInPage,
      .collect 1 ⟨codeInPage, 100, false, 0, 0, 0, 0, by decide⟩] = some s ∧ s.Exact 0x1008 4 := by
  have heval : (run codeStep (empty mprotInit true) [.fetch codeInPage,
      .collect 1 ⟨codeInPage, 100, false, 0, 0, 0, 0, by decide⟩]).map ranges =
      some [codeInPage] := by
    decide +kernel
  obtain ⟨s, hrun, hranges⟩ := Option.map_eq_some_iff.mp heval
  refine ⟨s, hrun, (invalidate_exact_iff true _ s ?_ hrun 0x1008 4 (by decide)).mpr ⟨?_, ?_⟩⟩
  · refine ⟨trivial, fun t ht => ⟨?_, fun _ _ => trivial⟩⟩
    exact nodesApart_of_ranges (fetch_ranges ht) (by decide) (by decide)
  · intro hzero
    exact absurd hzero (by decide)
  · intro g n hn _ hend
    have hmem := range_mem hn
    rw [hranges, List.mem_singleton] at hmem
    rw [hmem] at hend
    exact absurd hend (by decide)

/-- The first byte of the second megabyte. -/
def firstOfMega : GuestRange where
  addr := 0x100000
  len := 1
  pos := Nat.one_pos
  fits := Marks.firstOfMega.fits

/-- A node that ends with its megabyte cannot be removed once the map of the next megabyte, which
was there when it was marked, has gone with the last node there. -/
theorem invalidate_end_of_mega_aborts :
    ∃ calls s, Admits codeStep NodesApart (empty mprotInit true) calls ∧
      run codeStep (empty mprotInit true) calls = some s ∧ ¬s.Exact 0xffff0 16 := by
  let calls : List CodeCall := [.fetch firstOfMega,
    .collect 1 ⟨firstOfMega, 100, false, 0, 0, 0, 0, by decide⟩, .fetch lastOfMega,
    .collect 2 ⟨lastOfMega, 200, false, 0, 0, 0, 0, by decide⟩, .invalidateNodeRange 0x100000 1]
  have heval : (run codeStep (empty mprotInit true) calls).map
      (fun s => (s.invalidateNodeRange 0xffff0 16).isNone) = some true := by
    decide +kernel
  obtain ⟨s, hrun, hnone⟩ := Option.map_eq_some_iff.mp heval
  refine ⟨calls, s, ?_, hrun, ?_⟩
  · refine ⟨trivial, fun t ht => ⟨nodesApart_of_ranges (fetch_ranges ht) (by decide) (by decide),
      fun u hu => ⟨trivial, fun v hv => ⟨?_, fun w _ => ⟨trivial, fun _ _ => trivial⟩⟩⟩⟩⟩
    refine nodesApart_of_ranges ((fetch_ranges hv).trans (collect_ranges hu)) (by decide) ?_
    rw [fetch_ranges ht]
    decide
  · rintro ⟨t, ht, -⟩
    simp [ht] at hnone

end Jit

end Simx86
end Dosemu
