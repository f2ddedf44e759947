import Dosemu.Lib.CopySeq

/-!
# Cell by cell

Memory that is written, or copied, one cell after another, where the cells may be any
and may come more than once.

Main results:

- Theorem `writeEach_fill`: where each cell has its value, only the set of cells matters.
- Theorem `eq_of_writeEach`: otherwise the cells are the same one by one.
- Theorem `copyEach_iff`: when copying cell by cell is copying a region.
-/

namespace ByteCopy

variable {σ β : Type} [DecidableEq σ]

/-- Write the first `n` cells in order. -/
def writeEach (m : Mem σ β) (C : Nat → Loc σ) (vals : Nat → β) : Nat → Mem σ β
  | 0 => m
  | n + 1 => (writeEach m C vals n).set (C n) (vals n)

/-- Copy the first `n` cells in order, each from what memory is by then. -/
def copyEach (m : Mem σ β) (D S : Nat → Loc σ) : Nat → Mem σ β
  | 0 => m
  | n + 1 => (copyEach m D S n).set (D n) ((copyEach m D S n).at (S n))

variable {m m' : Mem σ β} {C D S : Nat → Loc σ} {vals : Nat → β} {n i k : Nat} {l t u : Loc σ}

omit [DecidableEq σ] in
theorem Mem.ext_at (h : ∀ l, m.at l = m'.at l) : m = m' := by
  funext space off
  exact h ⟨space, off⟩

omit [DecidableEq σ] in
/-- The last one of the indices of a cell -/
theorem exists_last (h : ∃ i < n, l = C i) :
    ∃ i < n, l = C i ∧ ∀ j < n, i < j → l ≠ C j := by
  induction n with
  | zero =>
      obtain ⟨i, hi, -⟩ := h
      exact absurd hi (Nat.not_lt_zero i)
  | succ n ih =>
      by_cases hn : l = C n
      · exact ⟨n, Nat.lt_succ_self n, hn, fun j hj hlt => by omega⟩
      · obtain ⟨i, hi, heq⟩ := h
        have hin : i ≠ n := fun hin => hn (hin ▸ heq)
        obtain ⟨i, hi, heq, hlast⟩ := ih ⟨i, by omega, heq⟩
        refine ⟨i, by omega, heq, fun j hj hlt => ?_⟩
        rcases Nat.lt_succ_iff_lt_or_eq.mp hj with hj | rfl
        · exact hlast j hj hlt
        · exact hn

/-! ## Writes -/

theorem writeEach_at_of_ne (h : ∀ i < n, l ≠ C i) : (writeEach m C vals n).at l = m.at l := by
  induction n with
  | zero => rfl
  | succ n ih =>
      rw [writeEach, Mem.at_set, if_neg (h n (Nat.lt_succ_self n))]
      exact ih fun i hi => h i (by omega)

/-- The last write to a cell is what it has. -/
theorem writeEach_at_last (hi : i < n) (hlast : ∀ j < n, i < j → C i ≠ C j) :
    (writeEach m C vals n).at (C i) = vals i := by
  induction n with
  | zero => exact absurd hi (Nat.not_lt_zero i)
  | succ n ih =>
      rw [writeEach, Mem.at_set]
      rcases Nat.lt_succ_iff_lt_or_eq.mp hi with hlt | rfl
      · rw [if_neg (hlast n (Nat.lt_succ_self n) hlt)]
        exact ih hlt fun j hj => hlast j (by omega)
      · exact if_pos rfl

theorem writeEach_congr {C' : Nat → Loc σ} {vals' : Nat → β} (hcell : ∀ i < n, C i = C' i)
    (hval : ∀ i < n, vals i = vals' i) : writeEach m C vals n = writeEach m C' vals' n := by
  induction n with
  | zero => rfl
  | succ n ih =>
      rw [writeEach, writeEach, hcell n (Nat.lt_succ_self n), hval n (Nat.lt_succ_self n),
        ih (fun i hi => hcell i (by omega)) fun i hi => hval i (by omega)]

theorem writeEach_add (a b : Nat) : writeEach m C vals (a + b) =
    writeEach (writeEach m C vals a) (fun i => C (a + i)) (fun i => vals (a + i)) b := by
  induction b with
  | zero => rfl
  | succ b ih =>
      rw [← Nat.add_assoc, writeEach, writeEach, ih]

/-- Values that belong to their cells: it does not matter in which order or how often they
are written. -/
theorem writeEach_at_of_fun {val : Loc σ → β} (h : ∀ i < n, vals i = val (C i)) (l : Loc σ)
    [Decidable (∃ i < n, l = C i)] :
    (writeEach m C vals n).at l = if ∃ i < n, l = C i then val l else m.at l := by
  split
  · next hin =>
      obtain ⟨i, hi, rfl, hlast⟩ := exists_last hin
      rw [writeEach_at_last hi hlast, h i hi]
  · next hout => exact writeEach_at_of_ne fun i hi heq => hout ⟨i, hi, heq⟩

/-- For such values only the set of cells matters. -/
theorem writeEach_fill {val : Loc σ → β} {vals' : Nat → β} (hC : ∀ i < n, vals i = val (C i))
    (hD : ∀ i < n, vals' i = val (D i)) (h : ∀ l, (∃ i < n, l = C i) ↔ ∃ i < n, l = D i) :
    writeEach m C vals n = writeEach m D vals' n := by
  classical
  refine Mem.ext_at fun l => ?_
  rw [writeEach_at_of_fun hC, writeEach_at_of_fun hD]
  simp only [h l]

/-- It does matter if the values show in memory. -/
theorem cells_of_writeEach {vals' : Nat → β} {a : β} (hC : ∀ i < n, vals i ≠ a)
    (hD : ∀ i < n, vals' i ≠ a)
    (h : writeEach (fun _ _ => a) C vals n = writeEach (fun _ _ => a) D vals' n) (l : Loc σ) :
    (∃ i < n, l = C i) ↔ ∃ i < n, l = D i := by
  have hl := congrArg (Mem.at · l) h
  simp only at hl
  constructor
  · intro hin
    by_contra hout
    obtain ⟨i, hi, rfl, hlast⟩ := exists_last hin
    rw [writeEach_at_last hi hlast, writeEach_at_of_ne fun j hj heq => hout ⟨j, hj, heq⟩] at hl
    exact hC i hi hl
  · intro hin
    by_contra hout
    obtain ⟨i, hi, rfl, hlast⟩ := exists_last hin
    rw [writeEach_at_last hi hlast, writeEach_at_of_ne fun j hj heq => hout ⟨j, hj, heq⟩] at hl
    exact hD i hi hl.symm

/-- Values that are all different get into cells that are all different only in order. -/
theorem eq_of_writeEach {a : β} (hshow : ∀ i < n, vals i ≠ a)
    (hvals : ∀ i < n, ∀ j < n, vals i = vals j → i = j)
    (hinj : ∀ i < n, ∀ j < n, C i = C j → i = j)
    (h : writeEach (fun _ _ => a) C vals n = writeEach (fun _ _ => a) D vals n) (hi : i < n) :
    D i = C i := by
  have hlast : ∀ j < n, i < j → C i ≠ C j := fun j hj hlt heq => hlt.ne (hinj i hi j hj heq)
  have hcell := congrArg (Mem.at · (C i)) h
  simp only [writeEach_at_last hi hlast] at hcell
  obtain ⟨j, hj, heq, hjlast⟩ :=
    exists_last ((cells_of_writeEach hshow hshow h (C i)).mp ⟨i, hi, rfl⟩)
  rw [heq] at hjlast hcell
  rw [writeEach_at_last hj hjlast] at hcell
  obtain rfl := hvals i hi j hj hcell
  exact heq.symm

/-! ## Copies -/

/-- The cell whose first contents a cell has after `n` copies -/
def sourceAt (D S : Nat → Loc σ) : Nat → Loc σ → Loc σ
  | 0, l => l
  | n + 1, l => sourceAt D S n (if l = D n then S n else l)

theorem copyEach_at (n : Nat) (l : Loc σ) :
    (copyEach m D S n).at l = m.at (sourceAt D S n l) := by
  induction n generalizing l with
  | zero => rfl
  | succ n ih =>
      rw [copyEach, Mem.at_set, sourceAt, apply_ite (sourceAt D S n), apply_ite m.at, ih, ih]

theorem sourceAt_of_ne (h : ∀ i < n, l ≠ D i) : sourceAt D S n l = l := by
  induction n with
  | zero => rfl
  | succ n ih =>
      rw [sourceAt, if_neg (h n (Nat.lt_succ_self n))]
      exact ih fun i hi => h i (by omega)

/-- It is decided by the last copy to the cell. -/
theorem sourceAt_last (hi : i < n) (hlast : ∀ j < n, i < j → D i ≠ D j) :
    sourceAt D S n (D i) = sourceAt D S i (S i) := by
  induction n with
  | zero => exact absurd hi (Nat.not_lt_zero i)
  | succ n ih =>
      rw [sourceAt]
      rcases Nat.lt_succ_iff_lt_or_eq.mp hi with hlt | rfl
      · rw [if_neg (hlast n (Nat.lt_succ_self n) hlt)]
        exact ih hlt fun j hj => hlast j (by omega)
      · rw [if_pos rfl]

omit [DecidableEq σ] in
theorem meets_of_eq {j : Nat} (hi : i < n) (hj : j < n) (h : t.add i = u.add j) :
    Meets t n u n := by
  have hspace := congrArg Loc.space h
  have hoff := congrArg Loc.off h
  simp only [Loc.add_space, Loc.add_off] at hspace hoff
  refine ⟨hspace, ?_⟩
  omega

omit [DecidableEq σ] in
theorem follows_one : Follows [⟨t, u, n⟩] D S n ↔
    ∀ x y, (∃ k < n, x = t.add k ∧ y = u.add k) ↔ ∃ i < n, x = D i ∧ y = S i := by
  simp [Follows]

/-- Cells in the pairs of a region that does not overlap its source are copied as the
region is. -/
theorem copyEach_eq_copied (hmeets : ¬Meets t n u n) (h : Follows [⟨t, u, n⟩] D S n) :
    copyEach m D S n = copied m t u n := by
  rw [follows_one] at h
  have hpair : ∀ i < n, ∃ k < n, D i = t.add k ∧ S i = u.add k := by
    intro i hi
    obtain ⟨k, hk, hd, hs⟩ := (h _ _).mpr ⟨i, hi, rfl, rfl⟩
    exact ⟨k, hk, hd, hs⟩
  refine Mem.ext_at fun l => ?_
  rw [copyEach_at]
  by_cases hin : ∃ i < n, l = D i
  · obtain ⟨i, hi, rfl, hlast⟩ := exists_last hin
    obtain ⟨k, hk, hd, hs⟩ := hpair i hi
    have hfirst : ∀ j < i, S i ≠ D j := by
      intro j hj heq
      obtain ⟨k', hk', hd', -⟩ := hpair j (by omega)
      exact hmeets (meets_of_eq hk' hk (hd'.symm.trans (heq.symm.trans hs)))
    rw [sourceAt_last hi hlast, sourceAt_of_ne hfirst, hd, hs, copied_at_dst hk]
  · have hout : ∀ i < n, l ≠ D i := fun i hi heq => hin ⟨i, hi, heq⟩
    rw [sourceAt_of_ne hout, copied_at_of_ne]
    intro k hk heq
    obtain ⟨i, hi, hd, -⟩ := (h _ _).mp ⟨k, hk, rfl, rfl⟩
    exact hout i hi (heq.trans hd)

/-- Cells that are copied as a region is, for every memory, are in the pairs of the region:
each of its cells is copied to once, and is not read afterwards. -/
theorem follows_of_copyEach [Nontrivial β] (hne : ∀ k < n, t.add k ≠ u.add k)
    (h : ∀ m : Mem σ β, copyEach m D S n = copied m t u n) : Follows [⟨t, u, n⟩] D S n := by
  have hsource : ∀ k < n, sourceAt D S n (t.add k) = u.add k := by
    intro k hk
    refine source_unique (β := β) fun m => ?_
    rw [← copyEach_at, h, copied_at_dst hk]
  have hcell : ∀ k < n, ∃ i < n, D i = t.add k := by
    intro k hk
    by_contra hnone
    refine hne k hk ?_
    rw [← hsource k hk]
    exact (sourceAt_of_ne fun i hi heq => hnone ⟨i, hi, heq.symm⟩).symm
  choose! index hlt hindex using hcell
  have hsurj : ∀ i < n, ∃ k < n, index k = i := by
    intro i hi
    have honto := Finset.surjOn_of_injOn_of_card_le (s := Finset.range n) (t := Finset.range n)
      index (fun k hk => Finset.mem_coe.mpr (Finset.mem_range.mpr
        (hlt k (Finset.mem_range.mp hk)))) ?_ le_rfl
    · obtain ⟨k, hk, rfl⟩ := honto (Finset.mem_coe.mpr (Finset.mem_range.mpr hi))
      exact ⟨k, Finset.mem_range.mp hk, rfl⟩
    · intro j hj k hk heq
      apply Loc.add_inj (a := t)
      rw [← hindex j (Finset.mem_range.mp hj), ← hindex k (Finset.mem_range.mp hk), heq]
  have hinj : ∀ i < n, ∀ j < n, D i = D j → i = j := by
    intro i hi j hj heq
    obtain ⟨k, hk, rfl⟩ := hsurj i hi
    obtain ⟨k', hk', rfl⟩ := hsurj j hj
    rw [hindex k hk, hindex k' hk'] at heq
    rw [Loc.add_inj heq]
  have hlast : ∀ j i, j < i → i ≤ n → sourceAt D S i (D j) = sourceAt D S j (S j) :=
    fun j i hj hi => sourceAt_last hj fun j' hj' hlt heq =>
      hlt.ne (hinj j (by omega) j' (by omega) heq)
  have hpair : ∀ k < n, S (index k) = u.add k := by
    intro k hk
    rw [← hsource k hk, ← hindex k hk, hlast _ n (hlt k hk) le_rfl]
    by_contra hmoved
    by_cases hearlier : ∃ j < index k, S (index k) = D j
    · -- It would have the source of a cell copied to earlier.
      obtain ⟨j, hj, heq⟩ := hearlier
      have hjn : j < n := hj.trans (hlt k hk)
      obtain ⟨k', hk', rfl⟩ := hsurj j hjn
      have hsame : u.add k = u.add k' := by
        rw [← hsource k hk, ← hsource k' hk', ← hindex k hk, ← hindex k' hk',
          hlast _ n (hlt k hk) le_rfl, hlast _ n hjn le_rfl, heq,
          hlast _ _ hj (hlt k hk).le]
      rw [Loc.add_inj hsame] at hj
      exact hj.false
    · exact hmoved (sourceAt_of_ne fun j hj heq => hearlier ⟨j, hj, heq⟩).symm
  rw [follows_one]
  intro x y
  constructor
  · rintro ⟨k, hk, rfl, rfl⟩
    exact ⟨index k, hlt k hk, (hindex k hk).symm, (hpair k hk).symm⟩
  · rintro ⟨i, hi, rfl, rfl⟩
    obtain ⟨k, hk, rfl⟩ := hsurj i hi
    exact ⟨k, hk, hindex k hk, hpair k hk⟩

omit [DecidableEq σ] in
/-- The region does not overlap its source if the cells are apart from theirs. -/
theorem Follows.not_meets (h : Follows [⟨t, u, n⟩] D S n)
    (hapart : ∀ i < n, ∀ j < n, D i ≠ S j) : ¬Meets t n u n := by
  intro hmeets
  obtain ⟨i, hi, j, hj, heq⟩ := exists_of_meets (c := ⟨t, u, n⟩) hmeets
  rw [follows_one] at h
  obtain ⟨i', hi', hd, -⟩ := (h _ _).mp ⟨i, hi, rfl, rfl⟩
  obtain ⟨j', hj', -, hs⟩ := (h _ _).mp ⟨j, hj, rfl, rfl⟩
  exact hapart i' hi' j' hj' (hd.symm.trans (heq.trans hs))

/-- For cells apart from their sources the same with `memmove`. -/
theorem copyEach_iff_of_apart [Nontrivial β] (hapart : ∀ i < n, ∀ j < n, D i ≠ S j) :
    (∀ m : Mem σ β, copied m t u n = copyEach m D S n) ↔
      ¬Meets t n u n ∧ Follows [⟨t, u, n⟩] D S n := by
  constructor
  · intro h
    have hfollows : Follows [⟨t, u, n⟩] D S n := by
      refine follows_of_copyEach (β := β) (fun k hk heq => ?_) fun m => (h m).symm
      -- A region that is copied to itself stays as it is, and the last cell does not.
      have hself : t = u := by
        have hspace := congrArg Loc.space heq
        have hoff := congrArg Loc.off heq
        simp only [Loc.add_space, Loc.add_off] at hspace hoff
        ext
        · exact hspace
        · omega
      obtain ⟨i, hi, hd, hlast⟩ := exists_last (C := D) (l := D k) ⟨k, hk, rfl⟩
      refine hapart k hk i hi (source_unique (β := β) fun m => ?_)
      have hcell := congrArg (Mem.at · (D k)) (h m)
      simp only [copyEach_at, hd] at hcell hlast
      rw [sourceAt_last hi hlast, sourceAt_of_ne fun j hj heq =>
        hapart j (hj.trans hi) i hi heq.symm] at hcell
      rw [hd, ← hcell, hself]
      by_cases hin : ∃ j < n, D i = u.add j
      · obtain ⟨j, hj, heq⟩ := hin
        rw [heq, copied_at_dst hj]
      · exact (copied_at_of_ne fun j hj heq => hin ⟨j, hj, heq⟩).symm
    exact ⟨hfollows.not_meets hapart, hfollows⟩
  · rintro ⟨hmeets, hfollows⟩ m
    exact (copyEach_eq_copied hmeets hfollows).symm

/-- With every conforming `memcpy` copying a region is copying cells if and only if it does
not overlap its source and the cells are in its pairs. -/
theorem copyEach_iff [Nontrivial β] :
    (∀ memcpy, Conforms memcpy → ∀ m : Mem σ β, memcpy m t u n = copyEach m D S n) ↔
      ¬Meets t n u n ∧ Follows [⟨t, u, n⟩] D S n := by
  constructor
  · intro h
    have hmeets : ¬Meets t n u n := by
      obtain ⟨a, b, hab⟩ := exists_pair_ne β
      obtain ⟨l, hcs, hD⟩ := exists_outside [⟨t, u, n⟩] D n t.space
      intro hmeets
      have hl := congrArg (Mem.at · l)
        (h (spoilOnOverlap l b) (conforms_spoilOnOverlap l b) fun _ _ => a)
      simp only [copyEach_at, sourceAt_of_ne hD] at hl
      have hspoiled : (spoilOnOverlap l b (fun _ _ => a) t u n).at l = b :=
        if_pos ⟨hmeets, rfl, rfl⟩
      exact hab (hl.symm.trans hspoiled)
    refine ⟨hmeets, follows_of_copyEach (β := β) (fun k hk heq => hmeets (meets_of_eq hk hk heq))
      fun m => (h copied conforms_copied m).symm⟩
  · rintro ⟨hmeets, hfollows⟩ memcpy hconf m
    rw [hconf m t u n hmeets, copyEach_eq_copied hmeets hfollows]

end ByteCopy
