import Mathlib.Tactic

/-!
# Copies between regions of memory

Memory as several address spaces of cells, and copies between regions of it.
A C `memcpy` is only specified when its two regions do not overlap; `Conforms`
says no more than that, and `copied` is what `memmove` does.

Main results:

- Theorem `perform_conforming`: where no single copy overlaps, any conforming
  `memcpy` does the same.
- Theorem `exists_spoiled`: otherwise one of them changes a cell of the choice of
  the caller.
-/

namespace ByteCopy

variable {σ β : Type}

/-- An address in one of the spaces. -/
@[ext]
structure Loc (σ : Type) where
  space : σ
  off : Nat
deriving DecidableEq, Repr

/-- Move an address up. -/
def Loc.add (l : Loc σ) (k : Nat) : Loc σ :=
  { l with off := l.off + k }

@[simp]
theorem Loc.add_space (l : Loc σ) (k : Nat) : (l.add k).space = l.space :=
  rfl

@[simp]
theorem Loc.add_off (l : Loc σ) (k : Nat) : (l.add k).off = l.off + k :=
  rfl

@[simp]
theorem Loc.add_zero (l : Loc σ) : l.add 0 = l :=
  rfl

theorem Loc.add_add (l : Loc σ) (i k : Nat) : (l.add i).add k = l.add (i + k) := by
  simp [Loc.add, Nat.add_assoc]

theorem Loc.add_inj {a : Loc σ} {i k : Nat} (h : a.add i = a.add k) : i = k := by
  simp only [Loc.add, Loc.mk.injEq, true_and] at h
  omega

/-- The contents of all spaces. -/
abbrev Mem (σ β : Type) := σ → Nat → β

/-- The cell at an address. -/
def Mem.at (m : Mem σ β) (l : Loc σ) : β :=
  m l.space l.off

variable [DecidableEq σ]

/-- Memory with one cell changed. -/
def Mem.set (m : Mem σ β) (l : Loc σ) (b : β) : Mem σ β := fun sp off =>
  if sp = l.space ∧ off = l.off then b else m sp off

theorem Mem.at_set (m : Mem σ β) (l l' : Loc σ) (b : β) :
    (m.set l b).at l' = if l' = l then b else m.at l' := by
  simp [Mem.set, Mem.at, Loc.ext_iff]

/-- The region of `n` cells at `a` and that of `k` cells at `b` share a cell. -/
def Meets (a : Loc σ) (n : Nat) (b : Loc σ) (k : Nat) : Prop :=
  a.space = b.space ∧ max a.off b.off < min (a.off + n) (b.off + k)

instance (a : Loc σ) (n : Nat) (b : Loc σ) (k : Nat) : Decidable (Meets a n b k) :=
  inferInstanceAs (Decidable (_ ∧ _))

/-- Memory with the `n` cells at `d` replaced by those at `s`. -/
def copied (m : Mem σ β) (d s : Loc σ) (n : Nat) : Mem σ β := fun sp i =>
  if sp = d.space ∧ d.off ≤ i ∧ i < d.off + n then m s.space (s.off + (i - d.off)) else m sp i

/-- What C says of `memcpy`: regions that do not overlap are copied. -/
def Conforms (memcpy : Mem σ β → Loc σ → Loc σ → Nat → Mem σ β) : Prop :=
  ∀ m d s n, ¬Meets d n s n → memcpy m d s n = copied m d s n

theorem conforms_copied : Conforms (copied : Mem σ β → Loc σ → Loc σ → Nat → Mem σ β) :=
  fun _ _ _ _ _ => rfl

/-- One call of `memcpy`. -/
structure Copy (σ : Type) where
  dst : Loc σ
  src : Loc σ
  len : Nat
deriving DecidableEq, Repr

/-- Do the copies one after another. -/
def perform (memcpy : Mem σ β → Loc σ → Loc σ → Nat → Mem σ β) (m : Mem σ β) :
    List (Copy σ) → Mem σ β
  | [] => m
  | c :: cs => perform memcpy (memcpy m c.dst c.src c.len) cs

variable {memcpy : Mem σ β → Loc σ → Loc σ → Nat → Mem σ β} {m : Mem σ β} {c : Copy σ}
  {cs : List (Copy σ)} {l : Loc σ} {i : Nat}

theorem copied_at_dst {d s : Loc σ} {n : Nat} (hi : i < n) :
    (copied m d s n).at (d.add i) = m.at (s.add i) := by
  simp [copied, Mem.at, hi]

theorem copied_at_of_ne {d s : Loc σ} {n : Nat} (h : ∀ i < n, l ≠ d.add i) :
    (copied m d s n).at l = m.at l := by
  refine if_neg ?_
  rintro ⟨hspace, hlo, hhi⟩
  refine h (l.off - d.off) (by omega) ?_
  ext
  · exact hspace
  · simp only [Loc.add_off]
    omega

/-- Copies leave the cells they do not write. -/
theorem perform_at_of_ne (h : ∀ c ∈ cs, ∀ i < c.len, l ≠ c.dst.add i) :
    (perform copied m cs).at l = m.at l := by
  induction cs generalizing m with
  | nil => rfl
  | cons c cs ih =>
      rw [perform, ih fun c' hc' => h c' (List.mem_cons_of_mem _ hc'),
        copied_at_of_ne (h c List.mem_cons_self)]

omit [DecidableEq σ] in
/-- Regions that meet have a cell in common. -/
theorem exists_of_meets (h : Meets c.dst c.len c.src c.len) :
    ∃ i < c.len, ∃ j < c.len, c.dst.add i = c.src.add j := by
  obtain ⟨hspace, hlt⟩ := h
  refine ⟨max c.dst.off c.src.off - c.dst.off, by omega, max c.dst.off c.src.off - c.src.off,
    by omega, ?_⟩
  ext
  · exact hspace
  · simp only [Loc.add_off]
    omega

/-! ## `memcpy` -/

/-- Where no copy overlaps itself, any conforming `memcpy` does the same. -/
theorem perform_conforming (hconf : Conforms memcpy)
    (h : ∀ c ∈ cs, ¬Meets c.dst c.len c.src c.len) :
    perform memcpy m cs = perform copied m cs := by
  induction cs generalizing m with
  | nil => rfl
  | cons c cs ih =>
      rw [perform, perform, hconf m c.dst c.src c.len (h c List.mem_cons_self)]
      exact ih fun c' hc' => h c' (List.mem_cons_of_mem _ hc')

/-- A `memcpy` that, given regions that overlap, gives a cell of its choice another
value. -/
noncomputable def spoilOnOverlap (l : Loc σ) (b : β) (m : Mem σ β) (d s : Loc σ) (n : Nat) :
    Mem σ β := fun sp off =>
  if Meets d n s n ∧ sp = l.space ∧ off = l.off then b else copied m d s n sp off

theorem conforms_spoilOnOverlap (l : Loc σ) (b : β) :
    Conforms (spoilOnOverlap l b : Mem σ β → Loc σ → Loc σ → Nat → Mem σ β) := by
  intro m d s n hno
  funext sp off
  exact if_neg fun hmeets => hno hmeets.1

/-- It spoils a cell that no copy writes, if one of them overlaps. -/
theorem exists_spoiled {b : β} (hout : ∀ c ∈ cs, ∀ i < c.len, l ≠ c.dst.add i)
    (h : m.at l = b ∨ ∃ c ∈ cs, Meets c.dst c.len c.src c.len) :
    (perform (spoilOnOverlap l b) m cs).at l = b := by
  induction cs generalizing m with
  | nil =>
      rcases h with hb | ⟨c, hc, -⟩
      · exact hb
      · exact absurd hc List.not_mem_nil
  | cons c cs ih =>
      have hkeep : (copied m c.dst c.src c.len).at l = m.at l :=
        copied_at_of_ne (hout c List.mem_cons_self)
      rw [perform]
      apply ih fun c' hc' => hout c' (List.mem_cons_of_mem _ hc')
      by_cases hmeets : Meets c.dst c.len c.src c.len
      · exact Or.inl (if_pos ⟨hmeets, rfl, rfl⟩)
      · have hsame : (spoilOnOverlap l b m c.dst c.src c.len).at l = m.at l := by
          rw [← hkeep]
          exact if_neg fun hbad => hmeets hbad.1
        rcases h with hb | ⟨c', hc', hbad⟩
        · exact Or.inl (hsame.trans hb)
        · rcases List.mem_cons.mp hc' with rfl | hc'
          · exact absurd hbad hmeets
          · exact Or.inr ⟨c', hc', hbad⟩

end ByteCopy
