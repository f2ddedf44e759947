import Dosemu.Lib.ByteCopy

/-!
# Copies one after another

A list of copies, each of which is right by itself even when its two regions
overlap.  Together they bring every cell what its source had at first exactly
when no copy spoils another: a cell that one copy writes and a later one reads,
or writes again, has the same source in both.

Main results:

- Theorem `perform_congr`: what is written depends on what is read.
- Theorem `arrives_iff`: the copies are right for every memory if and only if
  they spare each other.
- Theorem `sound_iff`: when a list of copies brings one region to another, cell by
  cell, with any conforming `memcpy`.
-/

namespace ByteCopy

variable {σ β : Type} [DecidableEq σ]

/-- A copy does not spoil a later one. -/
def Spares (c c' : Copy σ) : Prop :=
  ∀ i < c.len, ∀ j < c'.len,
    c.dst.add i = c'.src.add j ∨ c.dst.add i = c'.dst.add j → c.src.add i = c'.src.add j

/-- Every cell written ends with what its source had before the first copy. -/
def Arrives (m : Mem σ β) (cs : List (Copy σ)) : Prop :=
  ∀ c ∈ cs, ∀ i < c.len, (perform copied m cs).at (c.dst.add i) = m.at (c.src.add i)

variable {m m' : Mem σ β} {c : Copy σ} {cs : List (Copy σ)} {l : Loc σ}

/-- Memories that agree on the cells read, and on a cell, agree there
afterwards; on the cells written they agree anyway. -/
theorem perform_congr (hread : ∀ c ∈ cs, ∀ i < c.len, m.at (c.src.add i) = m'.at (c.src.add i))
    (hl : m.at l = m'.at l ∨ ∃ c ∈ cs, ∃ i < c.len, l = c.dst.add i) :
    (perform copied m cs).at l = (perform copied m' cs).at l := by
  induction cs generalizing m m' with
  | nil =>
      rcases hl with heq | ⟨c, hc, -⟩
      · exact heq
      · exact absurd hc List.not_mem_nil
  | cons c cs ih =>
      -- One copy keeps the agreement and extends it to what it writes.
      have hstep : ∀ l, (m.at l = m'.at l ∨ ∃ i < c.len, l = c.dst.add i) →
          (copied m c.dst c.src c.len).at l = (copied m' c.dst c.src c.len).at l := by
        intro l hl
        by_cases hin : ∃ i < c.len, l = c.dst.add i
        · obtain ⟨i, hi, rfl⟩ := hin
          rw [copied_at_dst hi, copied_at_dst hi]
          exact hread c List.mem_cons_self i hi
        · have hne : ∀ i < c.len, l ≠ c.dst.add i := fun i hi heq => hin ⟨i, hi, heq⟩
          rw [copied_at_of_ne hne, copied_at_of_ne hne]
          exact hl.resolve_right hin
      rw [perform, perform]
      apply ih
      · intro c' hc' i hi
        exact hstep _ (Or.inl (hread c' (List.mem_cons_of_mem _ hc') i hi))
      · rcases hl with heq | ⟨c', hc', i, hi, rfl⟩
        · exact Or.inl (hstep _ (Or.inl heq))
        · rcases List.mem_cons.mp hc' with rfl | hc'
          · exact Or.inl (hstep _ (Or.inr ⟨i, hi, rfl⟩))
          · exact Or.inr ⟨c', hc', i, hi, rfl⟩

/-! ## Copies that spare each other -/

/-- The sources of the rest survive a copy that spares them. -/
theorem copied_reads (h : ∀ c' ∈ cs, Spares c c') :
    ∀ c' ∈ cs, ∀ j < c'.len,
      (copied m c.dst c.src c.len).at (c'.src.add j) = m.at (c'.src.add j) := by
  intro c' hc' j hj
  by_cases hin : ∃ i < c.len, c'.src.add j = c.dst.add i
  · obtain ⟨i, hi, heq⟩ := hin
    rw [heq, copied_at_dst hi, h c' hc' i hi j hj (Or.inl heq.symm), heq]
  · exact copied_at_of_ne fun i hi heq => hin ⟨i, hi, heq⟩

/-- The rest of the copies is right if the whole list is, where the first one
leaves what the rest reads. -/
theorem perform_cons_at (h : ∀ c' ∈ cs, ∀ j < c'.len,
      (copied m c.dst c.src c.len).at (c'.src.add j) = m.at (c'.src.add j))
    {c' : Copy σ} (hc' : c' ∈ cs) {j : Nat} (hj : j < c'.len) :
    (perform copied m (c :: cs)).at (c'.dst.add j) = (perform copied m cs).at (c'.dst.add j) :=
  perform_congr h (Or.inr ⟨c', hc', j, hj, rfl⟩)

theorem arrives_of_spares (h : cs.Pairwise Spares) : Arrives m cs := by
  induction cs with
  | nil => exact fun c hc => absurd hc List.not_mem_nil
  | cons c cs ih =>
      obtain ⟨hfirst, hrest⟩ := List.pairwise_cons.mp h
      have hreads := copied_reads (m := m) hfirst
      have hlater : ∀ c' ∈ cs, ∀ j < c'.len,
          (perform copied m (c :: cs)).at (c'.dst.add j) = m.at (c'.src.add j) := by
        intro c' hc' j hj
        rw [perform_cons_at hreads hc' hj]
        exact ih hrest c' hc' j hj
      intro c' hc' i hi
      rcases List.mem_cons.mp hc' with rfl | hc'
      · by_cases hagain : ∃ c'' ∈ cs, ∃ j < c''.len, c'.dst.add i = c''.dst.add j
        · obtain ⟨c'', hc'', j, hj, heq⟩ := hagain
          rw [heq, hlater c'' hc'' j hj, hfirst c'' hc'' i hi j hj (Or.inr heq)]
        · rw [perform, perform_at_of_ne fun c'' hc'' j hj heq => hagain ⟨c'', hc'', j, hj, heq⟩,
            copied_at_dst hi]
      · exact hlater c' hc' i hi

/-! ## Copies that do not -/

/-- The memory that has `b` in one cell and `a` in all others. -/
def oneCell (a b : β) (l : Loc σ) : Mem σ β :=
  Mem.set (fun _ _ => a) l b

theorem oneCell_at (a b : β) (l l' : Loc σ) :
    (oneCell a b l).at l' = if l' = l then b else a :=
  Mem.at_set _ l l' b

/-- A cell that is right for every memory has one source. -/
theorem source_unique [Nontrivial β] {a b : Loc σ}
    (h : ∀ m : Mem σ β, m.at a = m.at b) : a = b := by
  obtain ⟨x, y, hxy⟩ := exists_pair_ne β
  by_contra hne
  have hcell := h (oneCell x y a)
  rw [oneCell_at, oneCell_at, if_pos rfl, if_neg (Ne.symm hne)] at hcell
  exact hxy hcell.symm

/-- The cells that the first copy brings elsewhere and the rest reads. -/
def SpoiledAt (c : Copy σ) (cs : List (Copy σ)) (i : Nat) : Prop :=
  i < c.len ∧ c.src.add i ≠ c.dst.add i ∧ ∃ c' ∈ cs, ∃ j < c'.len, c.dst.add i = c'.src.add j

omit [DecidableEq σ] in
/-- The last one of them, in the direction in which the first copy moves cells. -/
theorem exists_last_spoiled (h : ∃ i, SpoiledAt c cs i) :
    ∃ i, SpoiledAt c cs i ∧ ∀ k, SpoiledAt c cs k → c.src.add k ≠ c.dst.add i := by
  by_contra hnone
  have hnext : ∀ i, SpoiledAt c cs i → ∃ k, SpoiledAt c cs k ∧ c.src.add k = c.dst.add i := by
    intro i hi
    by_contra hlast
    exact hnone ⟨i, hi, fun k hk heq => hlast ⟨k, hk, heq⟩⟩
  -- The distance to the end of the copy goes down with each one found.
  have hempty : ∀ n i, (if c.src.off < c.dst.off then c.len - i else i) < n →
      ¬SpoiledAt c cs i := by
    intro n
    induction n with
    | zero => exact fun i hi => absurd hi (Nat.not_lt_zero _)
    | succ n ih =>
        intro i hi hspoiled
        obtain ⟨k, hk, heq⟩ := hnext i hspoiled
        refine ih k ?_ hk
        have hik := hspoiled.1
        have hkk := hk.1
        have hne := hspoiled.2.1
        simp only [Loc.add, Loc.mk.injEq, ne_eq, not_and] at heq hne
        have hoff : c.src.off ≠ c.dst.off := fun hoff => hne heq.1 (by omega)
        split
        · next hup => rw [if_pos hup] at hi; omega
        · next hdown => rw [if_neg hdown] at hi; omega
  obtain ⟨i, hi⟩ := h
  exact hempty _ i (Nat.lt_succ_self _) hi

/-- The first copy leaves what the rest reads. -/
theorem not_spoiledAt [Nontrivial β] (h : ∀ m : Mem σ β, Arrives m (c :: cs)) (i : Nat) :
    ¬SpoiledAt c cs i := by
  intro hi
  obtain ⟨i, ⟨hlen, hmoved, c', hc', j, hj, hread⟩, hlast⟩ := exists_last_spoiled ⟨i, hi⟩
  obtain ⟨x, y, hxy⟩ := exists_pair_ne β
  -- Two memories that differ in the cell, and look the same to the rest.
  have hsame : ∀ c'' ∈ cs, ∀ k < c''.len,
      (copied (oneCell x x (c.dst.add i)) c.dst c.src c.len).at (c''.src.add k) =
        (copied (oneCell x y (c.dst.add i)) c.dst c.src c.len).at (c''.src.add k) := by
    intro c'' hc'' k hk
    by_cases hin : ∃ a < c.len, c''.src.add k = c.dst.add a
    · obtain ⟨a, ha, heq⟩ := hin
      rw [heq, copied_at_dst ha, copied_at_dst ha, oneCell_at, oneCell_at, ite_self, if_neg]
      intro hback
      refine hlast a ⟨ha, ?_, c'', hc'', k, hk, heq.symm⟩ hback
      intro hstay
      have hai := Loc.add_inj (hstay.symm.trans hback)
      exact hmoved (hai ▸ hstay)
    · have hne : ∀ a < c.len, c''.src.add k ≠ c.dst.add a := fun a ha heq => hin ⟨a, ha, heq⟩
      rw [copied_at_of_ne hne, copied_at_of_ne hne, oneCell_at, oneCell_at, ite_self,
        if_neg (hne i hlen)]
  have hx := h (oneCell x x (c.dst.add i)) c' (List.mem_cons_of_mem _ hc') j hj
  have hy := h (oneCell x y (c.dst.add i)) c' (List.mem_cons_of_mem _ hc') j hj
  rw [perform, perform_congr hsame (Or.inr ⟨c', hc', j, hj, rfl⟩), ← perform, hy, ← hread,
    oneCell_at, oneCell_at, ite_self, if_pos rfl] at hx
  exact hxy hx.symm

theorem spares_of_arrives [Nontrivial β] (h : ∀ m : Mem σ β, Arrives m cs) :
    cs.Pairwise Spares := by
  induction cs with
  | nil => exact List.Pairwise.nil
  | cons c cs ih =>
      have hkeep : ∀ i < c.len, ∀ c' ∈ cs, ∀ j < c'.len, c.dst.add i = c'.src.add j →
          c.src.add i = c.dst.add i := by
        intro i hi c' hc' j hj heq
        by_contra hne
        exact not_spoiledAt h i ⟨hi, hne, c', hc', j, hj, heq⟩
      have hfirst : ∀ c' ∈ cs, Spares c c' := by
        intro c' hc' i hi j hj hshared
        rcases hshared with heq | heq
        · rw [hkeep i hi c' hc' j hj heq, heq]
        · apply source_unique (β := β)
          intro m
          have hwritten := h m c List.mem_cons_self i hi
          have hagain := h m c' (List.mem_cons_of_mem _ hc') j hj
          rw [← hwritten, ← hagain, heq]
      refine List.pairwise_cons.mpr ⟨hfirst, ih fun m c' hc' j hj => ?_⟩
      rw [← perform_cons_at (copied_reads hfirst) hc' hj]
      exact h m c' (List.mem_cons_of_mem _ hc') j hj

/-- Copies are right for every memory if and only if they spare each other. -/
theorem arrives_iff [Nontrivial β] :
    (∀ m : Mem σ β, Arrives m cs) ↔ cs.Pairwise Spares :=
  ⟨spares_of_arrives, fun h _ => arrives_of_spares h⟩

/-! ## Regions -/

/-- Memory in which the `n` cells `D` have what the cells `S` had, and all others what
they had themselves. -/
def Brings (m m' : Mem σ β) (D S : Nat → Loc σ) (n : Nat) : Prop :=
  (∀ i < n, m'.at (D i) = m.at (S i)) ∧ ∀ l, (∀ i < n, l ≠ D i) → m'.at l = m.at l

/-- The copies go from the cells `S` to the cells `D`, in pairs. -/
def Follows (cs : List (Copy σ)) (D S : Nat → Loc σ) (n : Nat) : Prop :=
  ∀ x y, (∃ c ∈ cs, ∃ k < c.len, x = c.dst.add k ∧ y = c.src.add k) ↔ ∃ i < n, x = D i ∧ y = S i

/-- The copies go from the one region to the other and spare each other, and no
`memcpy` overlaps itself. -/
structure Sound (memmove : Bool) (cs : List (Copy σ)) (D S : Nat → Loc σ) (n : Nat) : Prop where
  follows : Follows cs D S n
  apart : memmove = false → ∀ c ∈ cs, ¬Meets c.dst c.len c.src c.len
  spares : cs.Pairwise Spares

variable {D S : Nat → Loc σ} {n : Nat}

omit [DecidableEq σ] in
theorem Follows.dst_ne (h : Follows cs D S n) (hl : ∀ i < n, l ≠ D i) :
    ∀ c ∈ cs, ∀ k < c.len, l ≠ c.dst.add k := by
  intro c hc k hk heq
  obtain ⟨i, hi, hd, -⟩ := (h _ _).mp ⟨c, hc, k, hk, rfl, rfl⟩
  exact hl i hi (heq.trans hd)

/-- With copies that follow the regions, what is brought is what arrives. -/
theorem Follows.brings_iff (h : Follows cs D S n) :
    Brings m (perform copied m cs) D S n ↔ Arrives m cs := by
  constructor
  · intro hbrings c hc k hk
    obtain ⟨i, hi, hd, hs⟩ := (h _ _).mp ⟨c, hc, k, hk, rfl, rfl⟩
    rw [hd, hs]
    exact hbrings.1 i hi
  · intro harrives
    refine ⟨fun i hi => ?_, fun l hl => perform_at_of_ne (h.dst_ne hl)⟩
    obtain ⟨c, hc, k, hk, hd, hs⟩ := (h _ _).mpr ⟨i, hi, rfl, rfl⟩
    rw [hd, hs]
    exact harrives c hc k hk

theorem Sound.brings {move : Bool} (h : Sound move cs D S n)
    {memcpy : Mem σ β → Loc σ → Loc σ → Nat → Mem σ β} (hconf : Conforms memcpy) :
    Brings m (perform (if move then copied else memcpy) m cs) D S n := by
  have hsame : perform (if move then copied else memcpy) m cs = perform copied m cs := by
    cases move with
    | true => rfl
    | false => exact perform_conforming hconf (h.apart rfl)
  rw [hsame, h.follows.brings_iff]
  exact arrives_of_spares h.spares

omit [DecidableEq σ] in
/-- There are cells that neither the copies nor a region have. -/
theorem exists_outside (cs : List (Copy σ)) (D : Nat → Loc σ) (n : Nat) (space : σ) :
    ∃ l : Loc σ, (∀ c ∈ cs, ∀ k < c.len, l ≠ c.dst.add k) ∧ ∀ i < n, l ≠ D i := by
  classical
  refine ⟨⟨space, cs.toFinset.sup (fun c => c.dst.off + c.len) +
    (Finset.range n).sup (fun i => (D i).off) + 1⟩, ?_, ?_⟩
  · intro c hc k hk heq
    have hle : c.dst.off + c.len ≤ cs.toFinset.sup fun c => c.dst.off + c.len :=
      Finset.le_sup (f := fun c : Copy σ => c.dst.off + c.len) (List.mem_toFinset.mpr hc)
    have hoff := congrArg Loc.off heq
    simp only [Loc.add_off] at hoff
    omega
  · intro i hi heq
    have hle : (D i).off ≤ (Finset.range n).sup fun i => (D i).off :=
      Finset.le_sup (f := fun i => (D i).off) (Finset.mem_range.mpr hi)
    have hoff := congrArg Loc.off heq
    simp only at hoff
    omega

/-- A `memcpy` that is right whatever it does with overlaps does not overlap. -/
theorem apart_of_brings [Nontrivial β]
    (h : ∀ memcpy, Conforms memcpy → ∀ m : Mem σ β, Brings m (perform memcpy m cs) D S n) :
    ∀ c ∈ cs, ¬Meets c.dst c.len c.src c.len := by
  intro c hc hmeets
  obtain ⟨a, b, hab⟩ := exists_pair_ne β
  obtain ⟨l, hcs, hD⟩ := exists_outside cs D n c.dst.space
  have hkept := (h (spoilOnOverlap l b) (conforms_spoilOnOverlap l b) fun _ _ => a).2 l hD
  rw [exists_spoiled hcs (Or.inr ⟨c, hc, hmeets⟩)] at hkept
  exact hab hkept.symm

/-- A single copy that is right for every memory goes from the one region to the
other. -/
theorem follows_of_brings [Nontrivial β] {d s : Loc σ} (hne : ∀ k, d.add k ≠ s.add k)
    (h : ∀ m : Mem σ β, Brings m (copied m d s n) D S n) : Follows [⟨d, s, n⟩] D S n := by
  -- Each cell of the copy is one of the region.
  have hcell : ∀ k < n, ∃ i < n, D i = d.add k ∧ S i = s.add k := by
    intro k hk
    by_cases hin : ∃ i < n, D i = d.add k
    · obtain ⟨i, hi, hd⟩ := hin
      refine ⟨i, hi, hd, source_unique (β := β) fun m => ?_⟩
      rw [← (h m).1 i hi, hd, copied_at_dst hk]
    · refine absurd (source_unique (β := β) fun m => ?_) (hne k)
      rw [← (h m).2 (d.add k) fun i hi heq => hin ⟨i, hi, heq.symm⟩, copied_at_dst hk]
  choose! index hlt hd hs using hcell
  have hinj : Set.InjOn index (Finset.range n : Finset Nat) := by
    intro j hj k hk heq
    apply Loc.add_inj (a := d)
    rw [← hd j (Finset.mem_range.mp hj), ← hd k (Finset.mem_range.mp hk), heq]
  have hsurj := Finset.surjOn_of_injOn_of_card_le index
    (fun k hk => Finset.mem_coe.mpr (Finset.mem_range.mpr (hlt k (Finset.mem_range.mp hk)))) hinj
    le_rfl
  intro x y
  simp only [List.mem_singleton, exists_eq_left]
  constructor
  · rintro ⟨k, hk, rfl, rfl⟩
    exact ⟨index k, hlt k hk, (hd k hk).symm, (hs k hk).symm⟩
  · rintro ⟨i, hi, rfl, rfl⟩
    obtain ⟨k, hk, rfl⟩ := hsurj (Finset.mem_coe.mpr (Finset.mem_range.mpr hi))
    have hk := Finset.mem_range.mp hk
    exact ⟨k, hk, hd k hk, hs k hk⟩

/-- Copies that follow the regions, or a single `memcpy`, bring the one to the other
with every conforming `memcpy` if and only if they are sound. -/
theorem sound_iff [Nontrivial β] {move : Bool}
    (hcs : Follows cs D S n ∨ (move = false ∧ ∃ d s, cs = [⟨d, s, n⟩])) :
    (∀ memcpy, Conforms memcpy → ∀ m : Mem σ β,
      Brings m (perform (if move then copied else memcpy) m cs) D S n) ↔ Sound move cs D S n := by
  refine ⟨fun h => ?_, fun h memcpy hconf m => h.brings hconf⟩
  have hcopied : ∀ m : Mem σ β, Brings m (perform copied m cs) D S n := by
    intro m
    have hright := h copied conforms_copied m
    rwa [ite_self] at hright
  have hapart : move = false → ∀ c ∈ cs, ¬Meets c.dst c.len c.src c.len := by
    rintro rfl
    exact apart_of_brings h
  have hfollows : Follows cs D S n := by
    rcases hcs with hfollows | ⟨hmove, d, s, rfl⟩
    · exact hfollows
    · by_cases hzero : n = 0
      · subst hzero
        simp [Follows]
      · refine follows_of_brings (fun k heq => ?_) hcopied
        have hspace := congrArg Loc.space heq
        have hoff := congrArg Loc.off heq
        simp only [Loc.add_space, Loc.add_off] at hspace hoff
        refine hapart hmove _ List.mem_cons_self ⟨hspace, ?_⟩
        simp only
        omega
  exact ⟨hfollows, hapart, arrives_iff.mp fun m => hfollows.brings_iff.mp (hcopied m)⟩

end ByteCopy
