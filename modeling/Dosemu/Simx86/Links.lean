import Dosemu.Simx86.Nodes

/-!
# Links between nodes

A link from a node to another and its entry in the other's list are made and
undone together.  The list is searched for the node alone, not for the branch;
this is right because a node that is removed undoes both of its links.

Main results:

- Theorem `nodeUnlinker_spec`: unlinking a node cuts its links and the links to
  it, and nothing else.
- Theorem `links_consistent`: along every run, links and lists agree, and the
  removal of nodes leaves no trace of them.
-/

namespace Dosemu
namespace Simx86

open KeyedList
open Run

namespace Jit

variable {s t u : Jit} {a c g h : Nat} {b : Branch}

/-! ## What an operation does to the live nodes -/

/-- The nodes that are live stay so, each of their links is changed by `sl`, and each
of their lists by `bk`. -/
structure Becomes (s t : Jit) (sl : Nat → Branch → LinkDesc → LinkDesc)
    (bk : Nat → List (Nat × Branch) → List (Nat × Branch)) : Prop where
  live : ∀ a n, s.node a = some n → ∃ n', t.node a = some n' ∧ n'.range = n.range ∧
    n'.addr = n.addr ∧ (∀ b, n'.slot b = sl a b (n.slot b)) ∧ n'.bkr = bk a n.bkr
  gone : ∀ a, s.node a = none → t.node a = none
  marks : t.marks = s.marks
  useLinker : t.useLinker = s.useLinker

theorem Becomes.refl (s : Jit) : Becomes s s (fun _ _ l => l) fun _ l => l :=
  ⟨fun _ n hn => ⟨n, hn, rfl, rfl, fun _ => rfl, rfl⟩, fun _ h => h, rfl, rfl⟩

theorem Becomes.trans {sl sl' : Nat → Branch → LinkDesc → LinkDesc}
    {bk bk' : Nat → List (Nat × Branch) → List (Nat × Branch)} (h : Becomes s t sl bk)
    (h' : Becomes t u sl' bk') :
    Becomes s u (fun a b l => sl' a b (sl a b l)) fun a l => bk' a (bk a l) where
  live a n hn := by
    obtain ⟨n₁, hn₁, hrange, haddr, hslot, hbkr⟩ := h.live a n hn
    obtain ⟨n₂, hn₂, hrange', haddr', hslot', hbkr'⟩ := h'.live a n₁ hn₁
    refine ⟨n₂, hn₂, hrange'.trans hrange, haddr'.trans haddr, fun b => ?_, ?_⟩
    · rw [hslot', hslot]
    · rw [hbkr', hbkr]
  gone a hn := h'.gone a (h.gone a hn)
  marks := h'.marks.trans h.marks
  useLinker := h'.useLinker.trans h.useLinker

/-- Another description of the same change. -/
theorem Becomes.congr {sl sl' : Nat → Branch → LinkDesc → LinkDesc}
    {k k' : Nat → List (Nat × Branch) → List (Nat × Branch)} (h : Becomes s t sl k)
    (hsl : ∀ a n, s.node a = some n → ∀ b, sl a b (n.slot b) = sl' a b (n.slot b))
    (hbk : ∀ a n, s.node a = some n → k a n.bkr = k' a n.bkr) : Becomes s t sl' k' where
  live a n hn := by
    obtain ⟨n', hn', hrange, haddr, hslot, hbkr⟩ := h.live a n hn
    exact ⟨n', hn', hrange, haddr, fun b => (hslot b).trans (hsl a n hn b),
      hbkr.trans (hbk a n hn)⟩
  gone := h.gone
  marks := h.marks
  useLinker := h.useLinker

/-- A node that is live afterwards was live before. -/
theorem Becomes.back {sl : Nat → Branch → LinkDesc → LinkDesc}
    {bk : Nat → List (Nat × Branch) → List (Nat × Branch)} (h : Becomes s t sl bk) {n' : TNode}
    (hn' : t.node a = some n') : ∃ n, s.node a = some n ∧ n'.range = n.range ∧ n'.addr = n.addr ∧
      (∀ b, n'.slot b = sl a b (n.slot b)) ∧ n'.bkr = bk a n.bkr := by
  cases hn : s.node a with
  | none =>
      rw [h.gone a hn] at hn'
      cases hn'
  | some n =>
      obtain ⟨n₁, hn₁, hrest⟩ := h.live a n hn
      rw [hn₁, Option.some.injEq] at hn'
      subst hn'
      exact ⟨n, rfl, hrest⟩

theorem node_modifyNode (s : Jit) (g a : Nat) (f : TNode → TNode) :
    (s.modifyNode g f).node a = if a = g then (s.node g).map f else s.node a :=
  lookup_modify s.tree g a f

/-- A write through a pointer to a node. -/
theorem becomes_modifyNode (s : Jit) (g : Nat) {f : TNode → TNode}
    (sl : Branch → LinkDesc → LinkDesc) (bk : List (Nat × Branch) → List (Nat × Branch))
    (hrange : ∀ n, (f n).range = n.range) (haddr : ∀ n, (f n).addr = n.addr)
    (hslot : ∀ n b, (f n).slot b = sl b (n.slot b)) (hbkr : ∀ n, (f n).bkr = bk n.bkr) :
    Becomes s (s.modifyNode g f) (fun a b l => if a = g then sl b l else l)
      fun a l => if a = g then bk l else l where
  live a n hn := by
    rw [node_modifyNode]
    by_cases hag : a = g
    · subst hag
      simp only [if_true, hn, Option.map_some]
      exact ⟨f n, rfl, hrange n, haddr n, hslot n, hbkr n⟩
    · simp only [if_neg hag]
      exact ⟨n, hn, rfl, rfl, fun _ => rfl, rfl⟩
  gone a hn := by
    rw [node_modifyNode]
    by_cases hag : a = g
    · subst hag
      rw [if_pos rfl, hn]
      rfl
    · rwa [if_neg hag]
  marks := rfl
  useLinker := rfl

theorem slot_setSlot (n : TNode) (b b' : Branch) (l : LinkDesc) :
    (n.setSlot b l).slot b' = if b' = b then l else n.slot b' := by
  cases b <;> cases b' <;> rfl

/-- A write to one of the links of a node. -/
theorem becomes_setSlot (s : Jit) (g : Nat) (b : Branch) (f : LinkDesc → LinkDesc) :
    Becomes s (s.modifyNode g fun n => n.setSlot b (f (n.slot b)))
      (fun a b' l => if a = g ∧ b' = b then f l else l) fun _ l => l := by
  refine (becomes_modifyNode s g (fun b' l => if b' = b then f l else l) (fun l => l)
    (fun n => ?_) (fun n => ?_) (fun n b' => ?_) fun n => ?_).congr (fun a n _ b' => ?_)
    fun a n _ => ?_
  · cases b <;> rfl
  · cases b <;> rfl
  · rw [slot_setSlot]
    split
    · next h => rw [h]
    · rfl
  · cases b <;> rfl
  · by_cases hag : a = g <;> by_cases hb : b' = b <;> simp [hag, hb]
  · split <;> rfl

/-- A write to the list of a node. -/
theorem becomes_setBkr (s : Jit) (g : Nat) (f : List (Nat × Branch) → List (Nat × Branch)) :
    Becomes s (s.modifyNode g fun n => { n with bkr := f n.bkr }) (fun _ _ l => l)
      fun a l => if a = g then f l else l := by
  refine (becomes_modifyNode s g (f := fun n => { n with bkr := f n.bkr }) (fun _ l => l) f
    (fun _ => rfl) (fun _ => rfl) (fun n b' => ?_) fun _ => rfl).congr (fun a n _ b' => ?_) fun a n _ => ?_
  · cases b' <;> rfl
  · split <;> rfl
  · rfl

/-! ## The invariant -/

/-- Links and lists agree, and the code at each patch point is what its link says. -/
structure LinkInv (s : Jit) : Prop where
  fwd : ∀ a n b c, s.node a = some n → (n.slot b).ref = some c →
    ∃ m, s.node c = some m ∧ (a, b) ∈ m.bkr ∧ (n.slot b).target = m.key ∧
      (n.slot b).code = .jump m.addr
  cut : ∀ a n b, s.node a = some n → (n.slot b).ref = none → (n.slot b).code = .unlinked
  back : ∀ c m a b, s.node c = some m → (a, b) ∈ m.bkr →
    ∃ n, s.node a = some n ∧ (n.slot b).ref = some c
  nodup : ∀ c m, s.node c = some m → m.bkr.Nodup
  addr : ∀ a n, s.node a = some n → n.addr ≠ 0
  off : s.useLinker = false → ∀ a n, s.node a = some n → (∀ b, (n.slot b).ref = none) ∧ n.bkr = []

/-- A cut of a link that is not linked changes nothing. -/
theorem LinkInv.cut_eq (hs : s.LinkInv) {n : TNode} (hn : s.node a = some n)
    (href : (n.slot b).ref = none) : (n.slot b).cut = n.slot b := by
  have hcode := hs.cut a n b hn href
  cases hl : n.slot b with
  | mk link target ref code =>
      rw [hl] at href hcode
      simp only at href hcode
      subst href hcode
      rfl

theorem move2Tree_linkInv (hs : s.LinkInv) {n : NewNode} (h : s.move2Tree g n = some t) :
    t.LinkInv := by
  have hfree : s.node g = none := by
    by_contra hne
    simp [move2Tree, cAssert, hne] at h
  have ht : t = { s with tree := s.tree.insert g n.toNode } := by
    simpa [move2Tree, cAssert, hfree] using h.symm
  subst ht
  have hnode : ∀ a, node { s with tree := s.tree.insert g n.toNode } a =
      if a = g then some n.toNode else s.node a := by
    intro a
    by_cases hag : a = g
    · subst hag
      simp [node]
    · simp [node, hag, AList.lookup_insert_ne hag]
  have hold : ∀ a m, s.node a = some m → a ≠ g := by
    rintro a m hm rfl
    rw [hfree] at hm
    cases hm
  have hnew : ∀ b, (n.toNode.slot b).ref = none ∧ (n.toNode.slot b).code = .unlinked := by
    intro b
    cases b <;> exact ⟨rfl, rfl⟩
  constructor
  · intro a m b c hm href
    rw [hnode] at hm
    split at hm
    · cases hm
      rw [(hnew b).1] at href
      cases href
    · obtain ⟨m', hm', hrest⟩ := hs.fwd a m b c hm href
      exact ⟨m', by rw [hnode, if_neg (hold c m' hm')]; exact hm', hrest⟩
  · intro a m b hm href
    rw [hnode] at hm
    split at hm
    · cases hm
      exact (hnew b).2
    · exact hs.cut a m b hm href
  · intro c m a b hm hmem
    rw [hnode] at hm
    split at hm
    · cases hm
      cases hmem
    · obtain ⟨m', hm', hrest⟩ := hs.back c m a b hm hmem
      exact ⟨m', by rw [hnode, if_neg (hold a m' hm')]; exact hm', hrest⟩
  · intro c m hm
    rw [hnode] at hm
    split at hm
    · cases hm
      exact List.nodup_nil
    · exact hs.nodup c m hm
  · intro a m hm
    rw [hnode] at hm
    split at hm
    · cases hm
      exact n.addr_ne
    · exact hs.addr a m hm
  · intro hoff a m hm
    rw [hnode] at hm
    split at hm
    · cases hm
      exact ⟨fun b => (hnew b).1, rfl⟩
    · exact hs.off hoff a m hm

/-! ## Linking -/

/-- `linknode`: nothing, or one link and its entry. -/
theorem linknode_cases {lg : Nat} (h : s.linknode lg g b = some t) :
    t = s ∨ ∃ src dst, s.node lg = some src ∧ s.node g = some dst ∧ (src.slot b).ref = none ∧
      (src.slot b).target = dst.key ∧
      Becomes s t (fun a b' l => if a = lg ∧ b' = b then
          { l with ref := some g, code := .jump dst.addr } else l)
        fun a l => if a = g then (lg, b) :: l else l := by
  rw [linknode, Option.bind_eq_bind, Option.bind_eq_some_iff] at h
  obtain ⟨src, hsrc, h⟩ := h
  rw [Option.bind_eq_bind, Option.bind_eq_some_iff] at h
  obtain ⟨dst, hdst, h⟩ := h
  dsimp only at h
  split at h
  · cases h
    exact Or.inl rfl
  · next hlinks =>
      push Not at hlinks
      rw [Option.bind_eq_some_iff] at h
      obtain ⟨_, hassert, h⟩ := h
      have hfree : (src.slot b).ref = none := by
        by_contra hne
        simp [cAssert, hne] at hassert
      cases h
      refine Or.inr ⟨src, dst, hsrc, hdst, hfree, hlinks.1, ?_⟩
      have hslot := becomes_setSlot s lg b fun l =>
        { l with ref := some g, code := .jump dst.addr }
      have hbkr (u : Jit) : Becomes u (u.modifyNode g fun n =>
          { n with bkr := (lg, b) :: n.bkr, selfLink := n.selfLink || g == lg })
          (fun _ _ l => l) fun a l => if a = g then (lg, b) :: l else l := by
        refine Becomes.congr (k := fun a l => if a = g then (lg, b) :: l else l)
          (becomes_modifyNode u g (fun _ l => l) (fun l => (lg, b) :: l) (fun _ => rfl)
            (fun _ => rfl) (fun n b' => ?_) fun _ => rfl) (fun a n _ b' => ?_) fun _ _ _ => rfl
        · cases b' <;> rfl
        · split <;> rfl
      exact (hslot.trans (hbkr _)).congr (fun _ _ _ _ => rfl) fun _ _ _ => rfl

theorem linknode_linkInv (hs : s.LinkInv) {lg : Nat} (hon : s.useLinker = true)
    (h : s.linknode lg g b = some t) : t.LinkInv ∧ t.useLinker = true := by
  rcases linknode_cases h with rfl | ⟨src, dst, hsrc, hdst, hfree, htarget, hbecomes⟩
  · exact ⟨hs, hon⟩
  refine ⟨⟨?_, ?_, ?_, ?_, ?_, ?_⟩, hbecomes.useLinker.trans hon⟩
  · intro a n' b' c hn' href
    obtain ⟨n, hn, -, -, hslot, -⟩ := hbecomes.back hn'
    rw [hslot] at href ⊢
    by_cases hthis : a = lg ∧ b' = b
    · -- the new link
      obtain ⟨rfl, rfl⟩ := hthis
      obtain rfl : n = src := by simpa [hsrc] using hn.symm
      simp only [and_self, if_true, Option.some.injEq] at href ⊢
      subst href
      obtain ⟨m', hm', hrange, haddr, -, hbkr⟩ := hbecomes.live _ _ hdst
      refine ⟨m', hm', ?_, ?_, ?_⟩
      · rw [hbkr, if_pos rfl]
        exact List.mem_cons_self
      · rw [htarget, TNode.key, TNode.key, hrange]
      · rw [haddr]
    · rw [if_neg hthis] at href ⊢
      obtain ⟨m, hm, hmem, htgt, hcode⟩ := hs.fwd a n b' c hn href
      obtain ⟨m', hm', hrange, haddr, -, hbkr⟩ := hbecomes.live _ _ hm
      refine ⟨m', hm', ?_, ?_, ?_⟩
      · rw [hbkr]
        split
        · exact List.mem_cons_of_mem _ hmem
        · exact hmem
      · rw [htgt, TNode.key, TNode.key, hrange]
      · rw [hcode, haddr]
  · intro a n' b' hn' href
    obtain ⟨n, hn, -, -, hslot, -⟩ := hbecomes.back hn'
    rw [hslot] at href ⊢
    by_cases hthis : a = lg ∧ b' = b
    · rw [if_pos hthis] at href
      cases href
    · rw [if_neg hthis] at href ⊢
      exact hs.cut a n b' hn href
  · intro c m' a b' hm' hmem
    obtain ⟨m, hm, -, -, -, hbkr⟩ := hbecomes.back hm'
    rw [hbkr] at hmem
    by_cases hnew : c = g ∧ (a, b') = (lg, b)
    · obtain ⟨rfl, hpair⟩ := hnew
      rw [Prod.mk.injEq] at hpair
      obtain ⟨rfl, rfl⟩ := hpair
      obtain ⟨n', hn', -, -, hslot, -⟩ := hbecomes.live _ _ hsrc
      exact ⟨n', hn', by rw [hslot]; simp⟩
    · have hold : (a, b') ∈ m.bkr := by
        split at hmem
        · next hcg =>
            rcases List.mem_cons.mp hmem with hpair | hold
            · exact absurd ⟨hcg, hpair⟩ hnew
            · exact hold
        · exact hmem
      obtain ⟨n, hn, href⟩ := hs.back c m a b' hm hold
      obtain ⟨n', hn', -, -, hslot, -⟩ := hbecomes.live _ _ hn
      refine ⟨n', hn', ?_⟩
      have hother : ¬(a = lg ∧ b' = b) := by
        rintro ⟨rfl, rfl⟩
        obtain rfl : n = src := by simpa [hsrc] using hn.symm
        rw [hfree] at href
        cases href
      rw [hslot, if_neg hother]
      exact href
  · intro c m' hm'
    obtain ⟨m, hm, -, -, -, hbkr⟩ := hbecomes.back hm'
    rw [hbkr]
    split
    · next hcg =>
        refine List.nodup_cons.mpr ⟨fun hmem => ?_, hs.nodup c m hm⟩
        obtain ⟨n, hn, href⟩ := hs.back c m lg b hm hmem
        obtain rfl : n = src := by simpa [hsrc] using hn.symm
        rw [hfree] at href
        cases href
    · exact hs.nodup c m hm
  · intro a n' hn'
    obtain ⟨n, hn, -, haddr, -, -⟩ := hbecomes.back hn'
    rw [haddr]
    exact hs.addr a n hn
  · intro hoff
    rw [hbecomes.useLinker, hon] at hoff
    cases hoff

theorem nodeLinker_linkInv (hs : s.LinkInv) {lg : Option Nat}
    (h : s.nodeLinker lg g = some t) : t.LinkInv := by
  unfold nodeLinker at h
  by_cases hon : s.useLinker = true
  · simp only [hon, Bool.not_true, Bool.false_eq_true, if_false] at h
    cases lg with
    | none =>
        cases h
        exact hs
    | some lg =>
        obtain ⟨u, hu, ht⟩ := Option.bind_eq_some_iff.mp h
        obtain ⟨hinv, hon'⟩ := linknode_linkInv hs hon hu
        exact (linknode_linkInv hinv hon' ht).1
  · simp only [hon, Bool.not_false, if_true, Option.some.injEq] at h
    exact h ▸ hs

/-! ## Unlinking -/

theorem cut_cut (l : LinkDesc) : l.cut.cut = l.cut :=
  rfl

/-- The loop over the exits that jump to a node cuts them and empties its list. -/
theorem unlinkBack_spec (g : Nat) (l : List (Nat × Branch)) (s : Jit) {n : TNode}
    (hn : s.node g = some n) (hbkr : n.bkr = l)
    (hback : ∀ e ∈ l, ∃ m, s.node e.1 = some m ∧ (m.slot e.2).target = n.key) :
    ∃ t, unlinkBack g l s = some t ∧
      Becomes s t (fun a b d => if (a, b) ∈ l then d.cut else d)
        fun a k => if a = g then [] else k := by
  induction l generalizing s n with
  | nil =>
      refine ⟨s, rfl, (Becomes.refl s).congr (fun _ _ _ _ => by simp) fun a m hm => ?_⟩
      split
      · next hag =>
          subst hag
          rw [hn, Option.some.injEq] at hm
          exact hm ▸ hbkr
      · rfl
  | cons e rest ih =>
      obtain ⟨h, b⟩ := e
      obtain ⟨src, hsrc, htarget⟩ := hback (h, b) List.mem_cons_self
      have hcut := (becomes_setSlot s h b LinkDesc.cut).trans
        (becomes_setBkr (s.modifyNode h fun n => n.setSlot b (n.slot b).cut) g fun _ => rest)
      obtain ⟨n', hn', hrange, -, -, hbkr'⟩ := hcut.live g n hn
      obtain ⟨t, ht, hbecomes⟩ := ih _ hn' (by simpa using hbkr') (by
        intro e he
        obtain ⟨m, hm, htgt⟩ := hback e (List.mem_cons_of_mem _ he)
        obtain ⟨m', hm', -, -, hslot, -⟩ := hcut.live _ m hm
        refine ⟨m', hm', ?_⟩
        rw [hslot, TNode.key, hrange, ← TNode.key, ← htgt]
        split <;> rfl)
      refine ⟨t, ?_, (hcut.trans hbecomes).congr (fun a m _ b' => ?_) fun a m _ => ?_⟩
      · rw [unlinkBack]
        simp only [hsrc, hn, Option.bind_eq_bind, Option.bind_some, cAssert, htarget, if_true]
        exact ht
      · simp only [List.mem_cons, Prod.mk.injEq]
        by_cases hthis : a = h ∧ b' = b <;> by_cases hrest : (a, b') ∈ rest <;>
          simp [hthis, hrest, cut_cut]
      · by_cases hag : a = g <;> simp [hag]

/-- `unlinknode`: the link is cut, and the node it went to loses one entry. -/
theorem unlinknode_spec {n : TNode} (hn : s.node g = some n)
    (hcut : (n.slot b).ref = none → (n.slot b).cut = n.slot b)
    (hlive : ∀ h, (n.slot b).ref = some h → ∃ m, s.node h = some m ∧
      0 < m.bkr.countP fun e => e.1 == g) :
    ∃ t, s.unlinknode g b = some t ∧
      Becomes s t (fun a b' d => if a = g ∧ b' = b then d.cut else d)
        fun a k => if (n.slot b).ref = some a then k.eraseP fun e => e.1 == g else k := by
  rw [unlinknode, hn]
  simp only [Option.bind_eq_bind, Option.bind_some]
  cases href : (n.slot b).ref with
  | none =>
      refine ⟨s, rfl, (Becomes.refl s).congr (fun a m hm b' => ?_) fun _ _ _ => by simp⟩
      split
      · next hthis =>
          obtain ⟨rfl, rfl⟩ := hthis
          rw [hn, Option.some.injEq] at hm
          exact hm ▸ (hcut href).symm
      · rfl
  | some h =>
      obtain ⟨m, hm, hcount⟩ := hlive h href
      have hany : (m.bkr.any fun e => e.1 == g) = true := by
        rw [List.any_eq_true]
        exact List.countP_pos_iff.mp hcount
      simp only [hm, Option.bind_some, hany, cAssert, if_true]
      refine ⟨_, rfl, ((becomes_setBkr s h fun k => k.eraseP fun e => e.1 == g).trans
        (becomes_setSlot _ g b LinkDesc.cut)).congr (fun _ _ _ _ => rfl) fun a k _ => ?_⟩
      simp only [Option.some.injEq, eq_comm]

/-- The number of entries of a node in a list without repetitions. -/
theorem countP_node {l : List (Nat × Branch)} (hl : l.Nodup) (g : Nat) :
    (l.countP fun e => e.1 == g) =
      (if (g, Branch.taken) ∈ l then 1 else 0) + if (g, Branch.notTaken) ∈ l then 1 else 0 := by
  have hsplit : (l.countP fun e => e.1 == g) = l.count (g, .taken) + l.count (g, .notTaken) := by
    clear hl
    induction l with
    | nil => rfl
    | cons e l ih =>
        obtain ⟨a, b⟩ := e
        rw [List.countP_cons, List.count_cons, List.count_cons, ih]
        cases b <;> by_cases hag : a = g <;> simp [hag] <;> omega
  rw [hsplit, hl.count, hl.count]

/-- What unlinking the node does: no link to or from it is left. -/
def Unlinked (s t : Jit) (g : Nat) : Prop :=
  Becomes s t (fun a _ d => if a = g ∨ d.ref = some g then d.cut else d)
    fun a k => if a = g then [] else k.filter fun e => !(e.1 == g)

/-- The entries of a node in the list of another are its links to it. -/
theorem LinkInv.mem_bkr_iff (hs : s.LinkInv) {n m : TNode} (hn : s.node g = some n)
    (hm : s.node c = some m) : (g, b) ∈ m.bkr ↔ (n.slot b).ref = some c := by
  constructor
  · intro hmem
    obtain ⟨n', hn', href⟩ := hs.back c m g b hm hmem
    rw [hn, Option.some.injEq] at hn'
    exact hn' ▸ href
  · intro href
    obtain ⟨m', hm', hmem, -, -⟩ := hs.fwd g n b c hn href
    rw [hm, Option.some.injEq] at hm'
    exact hm' ▸ hmem

/-- Unlinking a node undoes its links in both directions, and nothing else. -/
theorem nodeUnlinker_spec (hs : s.LinkInv) {n : TNode} (hn : s.node g = some n) :
    ∃ t, s.nodeUnlinker g = some t ∧ Unlinked s t g := by
  by_cases hon : s.useLinker = true
  swap
  · have hoff := hs.off (by simpa using hon)
    refine ⟨s, by simp [nodeUnlinker, hon], (Becomes.refl s).congr (fun a m hm b => ?_)
      fun a m hm => ?_⟩
    · obtain ⟨hfree, -⟩ := hoff a m hm
      split
      · exact (hs.cut_eq hm (hfree b)).symm
      · rfl
    · simp [(hoff a m hm).2]
  -- the links to the node
  obtain ⟨u, hu, hback⟩ := unlinkBack_spec g n.bkr s hn rfl (by
    intro e he
    obtain ⟨m, hm, href⟩ := hs.back g n e.1 e.2 hn he
    obtain ⟨n', hn', -, htarget, -⟩ := hs.fwd e.1 m e.2 g hm href
    rw [hn, Option.some.injEq] at hn'
    exact ⟨m, hm, hn' ▸ htarget⟩)
  have hback : Becomes s u (fun _ _ d => if d.ref = some g then d.cut else d)
      fun a k => if a = g then [] else k := by
    refine hback.congr (fun a m hm b => ?_) fun _ _ _ => rfl
    simp only [hs.mem_bkr_iff hm hn]
  -- the links of the node to others
  obtain ⟨n₁, hn₁, -, -, hslot₁, -⟩ := hback.live g n hn
  have hother : ∀ b h, (n₁.slot b).ref = some h ↔ (n.slot b).ref = some h ∧ h ≠ g := by
    intro b h
    rw [hslot₁]
    by_cases hself : (n.slot b).ref = some g
    · simp only [hself, if_true, LinkDesc.cut, reduceCtorEq, Option.some.injEq, false_iff]
      rintro ⟨rfl, hne⟩
      exact hne rfl
    · rw [if_neg hself]
      refine ⟨fun href => ⟨href, ?_⟩, And.left⟩
      rintro rfl
      exact hself href
  have hcut₁ : ∀ b, (n₁.slot b).ref = none → (n₁.slot b).cut = n₁.slot b := by
    intro b
    rw [hslot₁]
    split
    · exact fun _ => rfl
    · exact hs.cut_eq hn
  have hcount : ∀ h m, h ≠ g → s.node h = some m → (m.bkr.countP fun e => e.1 == g) =
      (if (n₁.slot .taken).ref = some h then 1 else 0) +
        if (n₁.slot .notTaken).ref = some h then 1 else 0 := by
    intro h m hne hm
    rw [countP_node (hs.nodup h m hm)]
    simp only [hs.mem_bkr_iff hn hm, hother, hne, ne_eq, not_false_eq_true, and_true]
  have hlive : ∀ b h, (n₁.slot b).ref = some h → h ≠ g ∧ ∃ m m₁, s.node h = some m ∧
      u.node h = some m₁ ∧ m₁.bkr = m.bkr := by
    intro b h href
    obtain ⟨href, hne⟩ := (hother b h).mp href
    obtain ⟨m, hm, -⟩ := hs.fwd g n b h hn href
    obtain ⟨m₁, hm₁, -, -, -, hbkr⟩ := hback.live h m hm
    exact ⟨hne, m, m₁, hm, hm₁, by rw [hbkr, if_neg hne]⟩
  obtain ⟨v, hv, htaken⟩ := unlinknode_spec hn₁ (hcut₁ .taken) (by
    intro h href
    obtain ⟨hne, m, m₁, hm, hm₁, hbkr⟩ := hlive .taken h href
    refine ⟨m₁, hm₁, ?_⟩
    rw [hbkr, hcount h m hne hm, if_pos href]
    omega)
  obtain ⟨n₂, hn₂, -, -, hslot₂, -⟩ := htaken.live g n₁ hn₁
  have hsame : n₂.slot .notTaken = n₁.slot .notTaken := by
    rw [hslot₂]
    simp
  obtain ⟨t, ht, hnotTaken⟩ := unlinknode_spec (b := .notTaken) hn₂
    (by rw [hsame]; exact hcut₁ .notTaken) (by
      intro h href
      rw [hsame] at href
      obtain ⟨hne, m, m₁, hm, hm₁, hbkr⟩ := hlive .notTaken h href
      obtain ⟨m₂, hm₂, -, -, -, hbkr₂⟩ := htaken.live h m₁ hm₁
      refine ⟨m₂, hm₂, ?_⟩
      have htotal := hcount h m hne hm
      rw [← hbkr, if_pos href] at htotal
      rw [hbkr₂]
      by_cases hboth : (n₁.slot .taken).ref = some h
      · rw [if_pos hboth] at htotal ⊢
        rw [countP_eraseP_of_pos (by omega)]
        omega
      · rw [if_neg hboth] at htotal ⊢
        omega)
  rw [hsame] at hnotTaken
  refine ⟨t, ?_, ((hback.trans htaken).trans hnotTaken).congr (fun a m hm b => ?_) fun a m hm => ?_⟩
  · simp [nodeUnlinker, hon, hn, hu, hv, ht]
  · by_cases hag : a = g
    · by_cases hself : (m.slot b).ref = some g <;> cases b <;> simp [hag, hself, cut_cut]
    · simp [hag]
  · by_cases hag : a = g
    · have hno : ∀ b, (n₁.slot b).ref ≠ some g := fun b href => ((hother b g).mp href).2 rfl
      simp [hag, hno]
    · simp only [if_neg hag]
      exact eraseP_eraseP_eq_filter (hcount a m hag hm)

/-! ## Removal -/

/-- A link after some nodes have gone: cut when it went to one of them. -/
def linkAfter (t : Jit) (l : LinkDesc) : LinkDesc :=
  match l.ref with
  | none => l
  | some c => if (t.node c).isSome then l else l.cut

/-- The nodes that are left have kept their place, their code, and the links between them;
nothing mentions the nodes that have gone. -/
structure Removes (s t : Jit) : Prop where
  kept : ∀ a n', t.node a = some n' → ∃ n, s.node a = some n ∧ n'.range = n.range ∧
    n'.addr = n.addr ∧ (∀ b, n'.slot b = linkAfter t (n.slot b)) ∧
    n'.bkr = n.bkr.filter fun e => (t.node e.1).isSome
  useLinker : t.useLinker = s.useLinker

theorem linkAfter_of_live {l : LinkDesc} (h : ∀ c, l.ref = some c → (s.node c).isSome) :
    linkAfter s l = l := by
  rw [linkAfter]
  cases href : l.ref with
  | none => rfl
  | some c => simp only [h c href, if_true]

theorem Removes.refl (hs : s.LinkInv) : Removes s s where
  kept a n hn := by
    refine ⟨n, hn, rfl, rfl, fun b => (linkAfter_of_live fun c href => ?_).symm, ?_⟩
    · obtain ⟨m, hm, -⟩ := hs.fwd a n b c hn href
      simp [hm]
    · symm
      rw [List.filter_eq_self]
      intro e he
      obtain ⟨m, hm, -⟩ := hs.back a n e.1 e.2 hn he
      simp [hm]
  useLinker := rfl

/-- A node that is live after removals was live before. -/
theorem Removes.isSome (h : Removes s t) (ha : (t.node a).isSome) : (s.node a).isSome := by
  obtain ⟨n', hn'⟩ := Option.isSome_iff_exists.mp ha
  obtain ⟨n, hn, -⟩ := h.kept a n' hn'
  simp [hn]

theorem Removes.trans (h : Removes s t) (h' : Removes t u) : Removes s u where
  kept a n₂ hn₂ := by
    obtain ⟨n₁, hn₁, hrange', haddr', hslot', hbkr'⟩ := h'.kept a n₂ hn₂
    obtain ⟨n, hn, hrange, haddr, hslot, hbkr⟩ := h.kept a n₁ hn₁
    refine ⟨n, hn, hrange'.trans hrange, haddr'.trans haddr, fun b => ?_, ?_⟩
    · rw [hslot', hslot, linkAfter.eq_def t]
      cases href : (n.slot b).ref with
      | none => rfl
      | some c =>
          by_cases hc : (t.node c).isSome
          · simp only [hc, if_true]
          · have hgone : ¬(u.node c).isSome := fun hu => hc (h'.isSome hu)
            simp [linkAfter, href, hc, hgone, LinkDesc.cut]
    · rw [hbkr', hbkr, List.filter_filter]
      refine List.filter_congr fun e _ => ?_
      by_cases hu : (u.node e.1).isSome
      · simp [hu, h'.isSome hu]
      · simp [hu]
  useLinker := h'.useLinker.trans h.useLinker

/-- Removals keep links and lists in agreement. -/
theorem Removes.linkInv (hs : s.LinkInv) (h : Removes s t) : t.LinkInv := by
  constructor
  · intro a n' b c hn' href
    obtain ⟨n, hn, -, -, hslot, -⟩ := h.kept a n' hn'
    rw [hslot, linkAfter] at href ⊢
    cases hold : (n.slot b).ref with
    | none => simp [hold] at href
    | some d =>
        by_cases hd : (t.node d).isSome
        · simp only [hold, hd, if_true, Option.some.injEq] at href ⊢
          subst href
          obtain ⟨m', hm'⟩ := Option.isSome_iff_exists.mp hd
          obtain ⟨m, hm, hrange, haddr, -, hbkr⟩ := h.kept d m' hm'
          obtain ⟨m₀, hm₀, hmem, htarget, hcode⟩ := hs.fwd a n b d hn hold
          rw [hm, Option.some.injEq] at hm₀
          subst hm₀
          refine ⟨m', hm', ?_, by rw [htarget, TNode.key, TNode.key, hrange], by rw [hcode, haddr]⟩
          rw [hbkr, List.mem_filter]
          exact ⟨hmem, by simp [hn']⟩
        · simp [hold, hd, LinkDesc.cut] at href
  · intro a n' b hn' href
    obtain ⟨n, hn, -, -, hslot, -⟩ := h.kept a n' hn'
    rw [hslot, linkAfter] at href ⊢
    cases hold : (n.slot b).ref with
    | none =>
        simp only [hold] at href ⊢
        exact hs.cut a n b hn hold
    | some d =>
        by_cases hd : (t.node d).isSome
        · simp [hold, hd] at href
        · simp [hd, LinkDesc.cut]
  · intro c m' a b hm' hmem
    obtain ⟨m, hm, -, -, -, hbkr⟩ := h.kept c m' hm'
    rw [hbkr, List.mem_filter] at hmem
    obtain ⟨n', hn'⟩ := Option.isSome_iff_exists.mp hmem.2
    obtain ⟨n, hn, -, -, hslot, -⟩ := h.kept a n' hn'
    refine ⟨n', hn', ?_⟩
    rw [hslot, linkAfter, (hs.mem_bkr_iff hn hm).mp hmem.1]
    simp [hm', (hs.mem_bkr_iff hn hm).mp hmem.1]
  · intro c m' hm'
    obtain ⟨m, hm, -, -, -, hbkr⟩ := h.kept c m' hm'
    rw [hbkr]
    exact (hs.nodup c m hm).filter _
  · intro a n' hn'
    obtain ⟨n, hn, -, haddr, -, -⟩ := h.kept a n' hn'
    rw [haddr]
    exact hs.addr a n hn
  · intro hoff a n' hn'
    obtain ⟨n, hn, -, -, hslot, hbkr⟩ := h.kept a n' hn'
    obtain ⟨hfree, hnil⟩ := hs.off (h.useLinker ▸ hoff) a n hn
    refine ⟨fun b => ?_, by rw [hbkr, hnil, List.filter_nil]⟩
    rw [hslot, linkAfter, hfree b]
    exact hfree b

/-- Changes to the maps of code touch no link. -/
theorem LinkInv.setMarks (hs : s.LinkInv) (m : Marks) : LinkInv { s with marks := m } :=
  ⟨hs.fwd, hs.cut, hs.back, hs.nodup, hs.addr, hs.off⟩

/-- An unlinked node can be taken out of the collector. -/
theorem unlinked_erase (hs : s.LinkInv) (hu : Unlinked s u g) :
    Removes s { u with tree := u.tree.erase g } where
  kept a n' hn' := by
    have hnode : ∀ c, node { u with tree := u.tree.erase g } c = if c = g then none else u.node c :=
      fun c => lookup_erase_eq u.tree g c
    rw [hnode] at hn'
    by_cases hag : a = g
    · simp [hag] at hn'
    rw [if_neg hag] at hn'
    obtain ⟨n, hn, hrange, haddr, hslot, hbkr⟩ := hu.back hn'
    have hlive : ∀ c m, s.node c = some m → ((node { u with tree := u.tree.erase g } c).isSome ↔
        c ≠ g) := by
      intro c m hm
      obtain ⟨m', hm', -⟩ := hu.live c m hm
      by_cases hcg : c = g <;> simp [hnode, hcg, hm']
    refine ⟨n, hn, hrange, haddr, fun b => ?_, ?_⟩
    · rw [hslot, linkAfter]
      cases href : (n.slot b).ref with
      | none => simp [hag]
      | some c =>
          obtain ⟨m, hm, -⟩ := hs.fwd a n b c hn href
          by_cases hcg : c = g
          · simp [hnode, hcg]
          · simp [hag, hcg, (hlive c m hm).mpr hcg]
    · rw [hbkr, if_neg hag]
      refine List.filter_congr fun e he => ?_
      obtain ⟨m, hm, -⟩ := hs.back a n e.1 e.2 hn he
      by_cases heg : e.1 = g
      · simp [heg, hnode]
      · simp [heg, (hlive e.1 m hm).mpr heg]
  useLinker := hu.useLinker

/-- `RemoveNode`: the node is gone, and no other. -/
theorem removeNode_spec (hs : s.LinkInv) {n : TNode} {m : Marks} (hn : s.node g = some n)
    (hm : s.marks.eUnmarkpage n.range = some m) :
    ∃ t, s.removeNode g = some t ∧ Removes s t ∧ t.marks = m ∧
      ∀ a, (t.node a).isSome ↔ (s.node a).isSome ∧ a ≠ g := by
  have hsm := hs.setMarks m
  obtain ⟨u, hu, hunlinked⟩ := nodeUnlinker_spec hsm (show node { s with marks := m } g = some n from hn)
  obtain ⟨n', hn', -, haddr, hslot, hbkr⟩ := hunlinked.live g n hn
  have hfree : ∀ b, (n'.slot b).ref = none := by
    intro b
    rw [hslot, if_pos (Or.inl rfl)]
    rfl
  have hloose : Loose n' := by
    refine ⟨by rw [hbkr, if_pos rfl], hfree .taken, hfree .notTaken, ?_⟩
    rw [haddr]
    exact hs.addr g n hn
  refine ⟨{ u with tree := u.tree.erase g }, ?_, ?_, hunlinked.marks, fun a => ?_⟩
  · simp [removeNode, hn, hm, hu, hn', cAssert, hloose]
  · have hremoves := unlinked_erase hsm hunlinked
    exact ⟨hremoves.kept, hremoves.useLinker⟩
  · rw [show node { u with tree := u.tree.erase g } a = if a = g then none else u.node a from
      lookup_erase_eq u.tree g a]
    by_cases hag : a = g
    · simp [hag]
    · cases hna : s.node a with
      | none => simp [hag, hunlinked.gone a hna]
      | some m =>
          obtain ⟨m', hm', -⟩ := hunlinked.live a m hna
          simp [hag, hm']

theorem removeNode_removes (hs : s.LinkInv) (h : s.removeNode g = some t) :
    Removes s t ∧ ∀ a, (t.node a).isSome ↔ (s.node a).isSome ∧ a ≠ g := by
  have hcode := h
  rw [removeNode, Option.bind_eq_bind, Option.bind_eq_some_iff] at hcode
  obtain ⟨n, hn, hcode⟩ := hcode
  rw [Option.bind_eq_bind, Option.bind_eq_some_iff] at hcode
  obtain ⟨m, hm, -⟩ := hcode
  obtain ⟨t', ht', hremoves, -, hlive⟩ := removeNode_spec hs hn hm
  rw [h, Option.some.injEq] at ht'
  exact ht' ▸ ⟨hremoves, hlive⟩

/-- One round of the walk over a range. -/
theorem invalidateFrom_succ (al ah fuel g : Nat) (s : Jit) :
    invalidateFrom al ah (fuel + 1) (some g) s = (s.node g).bind fun n =>
      if ah ≤ n.key then some s
      else (if al < n.key + n.range.len ∧ n.key < ah then s.removeNode g else some s).bind fun u =>
        if ah ≤ n.key + n.range.len then some u
        else (u.findNode (n.key + n.range.len) (ah - (n.key + n.range.len))).bind fun next =>
          invalidateFrom al ah fuel next u := by
  rw [invalidateFrom]
  cases s.node g with
  | none => rfl
  | some n =>
      simp only [Option.bind_eq_bind, Option.bind_some]
      split
      · rfl
      · split <;> rfl

theorem invalidateFrom_removes {al ah fuel : Nat} {o : Option Nat} (hs : s.LinkInv)
    (h : invalidateFrom al ah fuel o s = some t) : Removes s t := by
  induction fuel generalizing s o with
  | zero =>
      cases o with
      | none =>
          cases h
          exact Removes.refl hs
      | some g => cases h
  | succ fuel ih =>
      cases o with
      | none =>
          cases h
          exact Removes.refl hs
      | some g =>
          rw [invalidateFrom_succ, Option.bind_eq_some_iff] at h
          obtain ⟨n, hn, h⟩ := h
          split at h
          · cases h
            exact Removes.refl hs
          rw [Option.bind_eq_some_iff] at h
          obtain ⟨u, hu, h⟩ := h
          have hfirst : Removes s u := by
            split at hu
            · exact (removeNode_removes hs hu).1
            · cases hu
              exact Removes.refl hs
          split at h
          · cases h
            exact hfirst
          · rw [Option.bind_eq_some_iff] at h
            obtain ⟨next, -, h⟩ := h
            exact hfirst.trans (ih (hfirst.linkInv hs) h)

theorem invalidateNodeRange_removes {al len : Nat} (hs : s.LinkInv)
    (h : s.invalidateNodeRange al len = some t) : Removes s t := by
  rw [invalidateNodeRange, Option.bind_eq_bind, Option.bind_eq_some_iff] at h
  obtain ⟨g, -, h⟩ := h
  exact invalidateFrom_removes hs h

/-! ## Runs -/

/-- The calls that change nodes and links; the maps of code may change in any way in
between. -/
inductive Call
  | move2Tree (g : Nat) (n : NewNode)
  | nodeLinker (lg : Option Nat) (g : Nat)
  | removeNode (g : Nat)
  | invalidateNodeRange (al len : Nat)
  | setMarks (m : Marks)

/-- One call. -/
def step (s : Jit) : Call → Option Jit
  | .move2Tree g n => s.move2Tree g n
  | .nodeLinker lg g => s.nodeLinker lg g
  | .removeNode g => s.removeNode g
  | .invalidateNodeRange al len => s.invalidateNodeRange al len
  | .setMarks m => some { s with marks := m }

/-- No node yet. -/
def empty (m : Marks) (useLinker : Bool) : Jit :=
  ⟨m, ∅, useLinker⟩

theorem empty_linkInv (m : Marks) (useLinker : Bool) : (empty m useLinker).LinkInv := by
  have hnone : ∀ a n, (empty m useLinker).node a ≠ some n := by
    intro a n h
    simp [empty, node] at h
  exact ⟨fun a n _ _ h => absurd h (hnone a n), fun a n _ h => absurd h (hnone a n),
    fun c m _ _ h => absurd h (hnone c m), fun c m h => absurd h (hnone c m),
    fun a n h => absurd h (hnone a n), fun _ a n h => absurd h (hnone a n)⟩

theorem step_linkInv (hs : s.LinkInv) {k : Call} (h : s.step k = some t) : t.LinkInv := by
  cases k with
  | move2Tree g n => exact move2Tree_linkInv hs h
  | nodeLinker lg g => exact nodeLinker_linkInv hs h
  | removeNode g => exact (removeNode_removes hs h).1.linkInv hs
  | invalidateNodeRange al len => exact (invalidateNodeRange_removes hs h).linkInv hs
  | setMarks m =>
      cases h
      exact hs.setMarks m

theorem run_linkInv {m : Marks} {useLinker : Bool} {ks : List Call}
    (h : run step (empty m useLinker) ks = some s) : s.LinkInv :=
  run_invariant (fun _ _ => True) LinkInv (fun _ _ _ hs _ ht => step_linkInv hs ht)
    (empty_linkInv m useLinker) (admits_true _ ks) h

/-- Every link has one entry in the list of its node, every entry is the entry of a link, and
nothing mentions a node that is not live; a patch point jumps to the code of the node
it is linked to, or is unlinked. -/
structure Consistent (s : Jit) : Prop where
  agree : ∀ a n c m b, s.node a = some n → s.node c = some m →
    ((n.slot b).ref = some c ↔ m.bkr.count (a, b) = 1)
  forward : ∀ a n b c, s.node a = some n → (n.slot b).ref = some c →
    ∃ m, s.node c = some m ∧ (n.slot b).code = .jump m.addr
  exit : ∀ a n b, s.node a = some n → (n.slot b).ref = none → (n.slot b).code = .unlinked
  backward : ∀ c m e, s.node c = some m → e ∈ m.bkr → (s.node e.1).isSome

theorem LinkInv.consistent (hs : s.LinkInv) : s.Consistent where
  agree a n c m b hn hm := by
    rw [← hs.mem_bkr_iff hn hm, (hs.nodup c m hm).count]
    by_cases hmem : (a, b) ∈ m.bkr <;> simp [hmem]
  forward a n b c hn href := by
    obtain ⟨m, hm, -, -, hcode⟩ := hs.fwd a n b c hn href
    exact ⟨m, hm, hcode⟩
  exit := hs.cut
  backward c m e hm he := by
    obtain ⟨n, hn, -⟩ := hs.back c m e.1 e.2 hm he
    simp [hn]

/-- In every state that is reached links and lists agree.  A node can be removed whenever its
code can be unmarked; it is then gone with every mention of it, and so are the nodes
that the invalidation of a range removes. -/
theorem links_consistent (m : Marks) (useLinker : Bool) (ks : List Call) (s : Jit)
    (hrun : run step (empty m useLinker) ks = some s) :
    s.Consistent ∧
    (∀ g n, s.node g = some n → (s.marks.eUnmarkpage n.range).isSome → (s.removeNode g).isSome) ∧
    (∀ g t, s.removeNode g = some t → t.Consistent ∧ Removes s t ∧
      ∀ a, (t.node a).isSome ↔ (s.node a).isSome ∧ a ≠ g) ∧
    ∀ al len t, s.invalidateNodeRange al len = some t → t.Consistent ∧ Removes s t := by
  have hs := run_linkInv hrun
  refine ⟨hs.consistent, fun g n hn hmarks => ?_, fun g t ht => ?_, fun al len t ht => ?_⟩
  · obtain ⟨m', hm'⟩ := Option.isSome_iff_exists.mp hmarks
    obtain ⟨t, ht, -⟩ := removeNode_spec hs hn hm'
    simp [ht]
  · obtain ⟨hremoves, hlive⟩ := removeNode_removes hs ht
    exact ⟨(hremoves.linkInv hs).consistent, hremoves, hlive⟩
  · have hremoves := invalidateNodeRange_removes hs ht
    exact ⟨(hremoves.linkInv hs).consistent, hremoves⟩

/-- Both branches of a node go to itself, and both of another go to it. -/
theorem links_consistent_self_and_double :
    ∃ s, run step (empty mprotInit true)
      [.move2Tree 1 ⟨⟨16, 4, by decide, by decide⟩, 100, false, 8, 16, 12, 16, by decide⟩,
        .move2Tree 2 ⟨⟨32, 4, by decide, by decide⟩, 200, false, 8, 16, 12, 16, by decide⟩,
        .nodeLinker (some 1) 1, .nodeLinker (some 2) 1] = some s ∧
      s.Consistent ∧ (s.node 1).map TNode.bkr =
        some [(2, .notTaken), (2, .taken), (1, .notTaken), (1, .taken)] := by
  have heval : (run step (empty mprotInit true)
      [.move2Tree 1 ⟨⟨16, 4, by decide, by decide⟩, 100, false, 8, 16, 12, 16, by decide⟩,
        .move2Tree 2 ⟨⟨32, 4, by decide, by decide⟩, 200, false, 8, 16, 12, 16, by decide⟩,
        .nodeLinker (some 1) 1, .nodeLinker (some 2) 1]).map (fun s => (s.node 1).map TNode.bkr) =
      some (some [(2, .notTaken), (2, .taken), (1, .notTaken), (1, .taken)]) := by
    decide +kernel
  obtain ⟨s, hs, hbkr⟩ := Option.map_eq_some_iff.mp heval
  exact ⟨s, hs, (links_consistent _ _ _ s hs).1, hbkr⟩

end Jit

end Simx86
end Dosemu
