import Mathlib

/-!
# Holes in the address space

`mapping_find_hole` reads the lines of `/proc/self/maps`, which ascend, and keeps in
`pend` the lowest address that the lines so far leave open.  It stops at the first
line that begins far enough above it.

Main results:

- Theorem `holes_cons`: a line that begins too near moves the lower end of the search.
- Theorem `findHole_eq_some_iff`: the loop, over the lines that are left.
- Theorem `mappingFindHole_lowest`: the search finds the lowest hole, if there is one.
-/

namespace Dosemu
namespace Mapping

/-! ## The search -/

/-- A line of `/proc/self/maps`. -/
structure Mapped where
  beg : Nat
  endAddr : Nat
  nonempty : beg < endAddr

/-- An `unsigned long`. -/
def ulong (n : Nat) : Nat :=
  n % 2 ^ 64

/-- The loop of `mapping_find_hole`, over the lines that are left; `none` is `MAP_FAILED`. -/
def findHole (start stop size : Nat) : Nat → List Mapped → Option Nat
  | _, [] => none
  | pend, m :: maps =>
      if m.beg ≤ start then
        if stop < ulong (m.endAddr + size) then none
        else findHole start stop size (if pend < m.endAddr then m.endAddr else pend) maps
      else if size ≤ ulong (m.beg + 2 ^ 64 - pend) then some pend
      else if stop < ulong (m.endAddr + size) then none
      else findHole start stop size m.endAddr maps

/-- `mapping_find_hole` -/
def mappingFindHole (maps : List Mapped) (start stop size : Nat) : Option Nat :=
  findHole start stop size start maps

/-- `mapping_is_hole` -/
def mappingIsHole (maps : List Mapped) (start size : Nat) : Bool :=
  mappingFindHole maps start (ulong (start + size)) size == some start

/-! ## Holes -/

/-- The addresses from `lo` on at which `size` bytes below `stop` are in no mapping. -/
def holes (maps : List Mapped) (lo stop size : Nat) : Set Nat :=
  {p | lo ≤ p ∧ p + size ≤ stop ∧
    ∀ m ∈ maps, Disjoint (Set.Ico p (p + size)) (Set.Ico m.beg m.endAddr)}

/-- The mappings ascend and are disjoint. -/
def Ascending (maps : List Mapped) : Prop :=
  maps.Pairwise fun m m' => m.endAddr ≤ m'.beg

variable {maps : List Mapped} {m : Mapped} {start stop size pend p : Nat}

theorem ulong_of_lt {n : Nat} (h : n < 2 ^ 64) : ulong n = n :=
  Nat.mod_eq_of_lt h

theorem disjoint_iff (hsize : 1 ≤ size) :
    Disjoint (Set.Ico p (p + size)) (Set.Ico m.beg m.endAddr) ↔
      p + size ≤ m.beg ∨ m.endAddr ≤ p := by
  have hm := m.nonempty
  rw [Set.Ico_disjoint_Ico]
  omega

/-- A line that begins too near above `pend`, or below it, moves the lower end of the search. -/
theorem holes_cons (hsize : 1 ≤ size) (hnear : m.beg < pend + size) :
    holes (m :: maps) pend stop size = holes maps (max pend m.endAddr) stop size := by
  ext p
  constructor
  · rintro ⟨hlo, hhi, hfree⟩
    refine ⟨?_, hhi, fun m' hm' => hfree m' (List.mem_cons_of_mem m hm')⟩
    have hm := (disjoint_iff hsize).mp (hfree m List.mem_cons_self)
    omega
  · rintro ⟨hlo, hhi, hfree⟩
    refine ⟨le_of_max_le_left hlo, hhi, ?_⟩
    intro m' hm'
    rcases List.mem_cons.mp hm' with heq | hm'
    · rw [heq]
      exact (disjoint_iff hsize).mpr (.inr (le_of_max_le_right hlo))
    · exact hfree m' hm'

/-- Above the last address at which the bytes fit, there is no hole. -/
theorem not_isLeast_holes {lo : Nat} (hlo : stop < lo + size) :
    ¬IsLeast (holes maps lo stop size) p := by
  rintro ⟨⟨hle, hhi, -⟩, -⟩
  omega

/-- Lines that begin far enough above `pend` leave a hole there. -/
theorem isLeast_holes (hsize : 1 ≤ size) (hfit : pend + size ≤ stop)
    (habove : ∀ m ∈ maps, pend + size ≤ m.beg) : IsLeast (holes maps pend stop size) pend := by
  constructor
  · exact ⟨le_rfl, hfit, fun m hm => (disjoint_iff hsize).mpr (.inl (habove m hm))⟩
  · exact fun p hp => hp.1

/-- What the search relies on: no sum wraps, and a line beyond the window ends the search. -/
structure Readable (maps : List Mapped) (stop size : Nat) : Prop where
  ascending : Ascending maps
  sums : ∀ m ∈ maps, m.endAddr + size < 2 ^ 64
  beyond : ∃ m ∈ maps, stop ≤ m.beg

theorem Readable.above (h : Readable (m :: maps) stop size) :
    ∀ m' ∈ maps, m.endAddr ≤ m'.beg :=
  (List.pairwise_cons.mp h.ascending).1

/-- A line below the top of the window does not end the search. -/
theorem Readable.tail (h : Readable (m :: maps) stop size) (hm : m.beg < stop) :
    Readable maps stop size := by
  obtain ⟨last, hlast, hbeyond⟩ := h.beyond
  refine ⟨(List.pairwise_cons.mp h.ascending).2,
    fun m' hm' => h.sums m' (List.mem_cons_of_mem m hm'), last, ?_, hbeyond⟩
  rcases List.mem_cons.mp hlast with heq | hlast
  · rw [heq] at hbeyond
    omega
  · exact hlast

/-- The loop, over the lines that are left: `pend` is open so far, and no line that is
left begins between the start of the window and `pend`. -/
theorem findHole_eq_some_iff (hsize : 1 ≤ size) (hmaps : Readable maps stop size)
    (hstart : start ≤ pend) (hfit : pend + size ≤ stop)
    (hbeg : ∀ m ∈ maps, m.beg ≤ start ∨ pend ≤ m.beg) :
    findHole start stop size pend maps = some p ↔ IsLeast (holes maps pend stop size) p := by
  induction maps generalizing pend with
  | nil =>
      obtain ⟨m, hm, -⟩ := hmaps.beyond
      exact absurd hm List.not_mem_nil
  | cons m maps ih =>
      have hm := m.nonempty
      have hsum := hmaps.sums m List.mem_cons_self
      have habove := hmaps.above
      rw [findHole, ulong_of_lt hsum]
      by_cases hbelow : m.beg ≤ start
      · have hnear : m.beg < pend + size := by omega
        rw [if_pos hbelow, holes_cons hsize hnear]
        split
        next hfull => exact iff_of_false nofun (not_isLeast_holes (by omega))
        next hroom =>
          have hmax : (if pend < m.endAddr then m.endAddr else pend) = max pend m.endAddr := by
            split <;> omega
          rw [hmax]
          apply ih (hmaps.tail (by omega)) (by omega) (by omega)
          intro m' hm'
          have hnext := habove m' hm'
          have hbeg' := hbeg m' (List.mem_cons_of_mem m hm')
          omega
      · have hpend : pend ≤ m.beg := (hbeg m List.mem_cons_self).resolve_left hbelow
        have hdiff : ulong (m.beg + 2 ^ 64 - pend) = m.beg - pend := by
          rw [ulong]
          omega
        rw [if_neg hbelow, hdiff]
        split
        next hgap =>
          have hleast := @isLeast_holes (m :: maps) _ _ _ hsize hfit (by
            intro m' hm'
            rcases List.mem_cons.mp hm' with heq | hm'
            · rw [heq]
              omega
            · have hnext := habove m' hm'
              omega)
          constructor
          · intro heq
            rwa [← Option.some.inj heq]
          · intro h
            rw [hleast.unique h]
        next hnear =>
          rw [holes_cons hsize (by omega), max_eq_right (by omega)]
          split
          next hfull => exact iff_of_false nofun (not_isLeast_holes (by omega))
          next hroom =>
            apply ih (hmaps.tail (by omega)) (by omega) (by omega)
            exact fun m' hm' => .inr (habove m' hm')

/-- A last line that begins above the window. -/
theorem readable_of_getLast (hasc : Ascending maps)
    (hlast : ∃ m, maps.getLast? = some m ∧ stop ≤ m.beg)
    (hsums : ∀ m ∈ maps, m.endAddr + size < 2 ^ 64) : Readable maps stop size := by
  obtain ⟨m, hm, hbeyond⟩ := hlast
  exact ⟨hasc, hsums, m, List.mem_of_getLast? hm, hbeyond⟩

theorem mappingFindHole_eq_some_iff (hsize : 1 ≤ size) (hfit : size ≤ stop - start)
    (hmaps : Readable maps stop size) :
    mappingFindHole maps start stop size = some p ↔ IsLeast (holes maps start stop size) p := by
  apply findHole_eq_some_iff hsize hmaps le_rfl (by omega)
  exact fun m _ => Nat.le_total m.beg start

/-- The search finds a hole exactly if there is one, and then the lowest. -/
theorem mappingFindHole_lowest (hasc : Ascending maps)
    (hlast : ∃ m, maps.getLast? = some m ∧ stop ≤ m.beg)
    (hsums : ∀ m ∈ maps, m.endAddr + size < 2 ^ 64) (hsize : 1 ≤ size)
    (hfit : size ≤ stop - start) :
    ((mappingFindHole maps start stop size).isSome ↔ (holes maps start stop size).Nonempty) ∧
      ∀ p, mappingFindHole maps start stop size = some p →
        IsLeast (holes maps start stop size) p := by
  have hmaps := readable_of_getLast hasc hlast hsums
  have hiff := @mappingFindHole_eq_some_iff maps start stop size
  refine ⟨?_, fun p => (hiff hsize hfit hmaps).mp⟩
  rw [Option.isSome_iff_exists]
  constructor
  · rintro ⟨p, hp⟩
    exact ⟨p, ((hiff hsize hfit hmaps).mp hp).1⟩
  · intro hsome
    exact ⟨_, (hiff hsize hfit hmaps).mpr ⟨Nat.sInf_mem hsome, fun q => Nat.sInf_le⟩⟩

/-- Two mappings, one across the start of the window and one beyond it. -/
theorem mappingFindHole_lowest_across :
    ((mappingFindHole [⟨4, 9, by decide⟩, ⟨20, 24, by decide⟩] 6 16 5).isSome ↔
        (holes [⟨4, 9, by decide⟩, ⟨20, 24, by decide⟩] 6 16 5).Nonempty) ∧
      ∀ p, mappingFindHole [⟨4, 9, by decide⟩, ⟨20, 24, by decide⟩] 6 16 5 = some p →
        IsLeast (holes [⟨4, 9, by decide⟩, ⟨20, 24, by decide⟩] 6 16 5) p := by
  apply mappingFindHole_lowest
  · exact List.pairwise_pair.mpr (by decide)
  · exact ⟨_, rfl, by decide⟩
  · intro m hm
    fin_cases hm <;> decide
  · decide
  · decide

/-- `mapping_is_hole` decides whether a region is free. -/
theorem mappingIsHole_iff (hsize : 1 ≤ size) (hwrap : start + size < 2 ^ 64)
    (hmaps : Readable maps (start + size) size) :
    mappingIsHole maps start size ↔
      ∀ m ∈ maps, Disjoint (Set.Ico start (start + size)) (Set.Ico m.beg m.endAddr) := by
  rw [mappingIsHole, ulong_of_lt hwrap, beq_iff_eq,
    mappingFindHole_eq_some_iff hsize (by omega) hmaps]
  constructor
  · exact fun h => h.1.2.2
  · exact fun hfree => ⟨⟨le_rfl, le_rfl, hfree⟩, fun p hp => hp.1⟩

end Mapping
end Dosemu
