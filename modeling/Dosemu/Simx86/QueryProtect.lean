import Dosemu.Simx86.PageProtect

/-!
# Queries for protected pages

`e_querymprotrange` asks whether any page of a range is protected and
`e_querymprotrange_full` whether all are.  Both go through the range by pages and take the
map of the next megabyte when they get there, also after the last page.  The first hops over
a megabyte without a map, the second gives up at one.

Main results:

- Theorem `queryAny_eq_true_iff`: the first query is exact.
- Theorem `queryAll_eq_true_iff`: the second also asks for a map behind the last page.
- Theorem `queries_exact_iff`: when both are exact.
-/

namespace Dosemu
namespace Simx86
namespace Marks

/-! ## The queries -/

/-- `FindM(a2l * HOST_PAGE_SIZE)`; the product is unsigned. -/
def pageMap (s : Marks) (page : Nat) : Option MpMap :=
  s.findM (page * hostPageSize % 2 ^ 32)

/-- The map after `a2l++` -/
def nextPageMap (s : Marks) (page : Nat) (m : MpMap) : Option MpMap :=
  if page % pagesPerMega = 0 then s.pageMap page else some m

/-- The loop of `e_querymprotrange` -/
def queryAny (s : Marks) (last page : Nat) (m : Option MpMap) : Bool :=
  if page ≤ last then
    match m with
    | some m =>
        if m.pagemap (page % pagesPerMega) then true
        else queryAny s last (page + 1) (s.nextPageMap (page + 1) m)
    | none => queryAny s last (page + pagesPerMega) (s.pageMap (page + pagesPerMega))
  else false
termination_by last + 1 - page
decreasing_by
  · omega
  · simp only [pagesPerMega]
    omega

/-- `e_querymprotrange` -/
def eQuerymprotrange (s : Marks) (r : GuestRange) : Bool :=
  match s.findM r.addr with
  | none => s.queryAny r.lastPage (r.firstPage / pagesPerMega * pagesPerMega) none
  | some m => s.queryAny r.lastPage r.firstPage (some m)

/-- The loop of `e_querymprotrange_full` and the test behind it -/
def queryAll (s : Marks) (last page : Nat) (m : Option MpMap) : Bool :=
  match m with
  | none => false
  | some m =>
      if page ≤ last then
        if m.pagemap (page % pagesPerMega) then
          queryAll s last (page + 1) (s.nextPageMap (page + 1) m)
        else false
      else true
termination_by last + 1 - page

/-- `e_querymprotrange_full` -/
def eQuerymprotrangeFull (s : Marks) (r : GuestRange) : Bool :=
  s.queryAll r.lastPage r.firstPage (s.findM r.addr)

/-! ## The map at hand -/

section Maps

variable {s : Marks} {page last : Nat} {m : MpMap}

theorem pageMap_eq (s : Marks) (page : Nat) :
    s.pageMap page = s.mapAt (page / 256 % 4096) := by
  have hmega : page * 4096 % 2 ^ 32 / 1048576 = page / 256 % 4096 := by
    omega
  rw [pageMap, findM_eq, hostPageSize, hmega]

/-- Within guest memory the map is that of the page's megabyte. -/
theorem prot_eq_pageMap (hpage : page < 2 ^ 20) :
    s.prot page = (s.pageMap page).elim false fun m => m.pagemap (page % pagesPerMega) := by
  have hmega : page / 256 % 4096 = page / 256 := by
    omega
  rw [pageMap_eq, hmega]
  rfl

/-- The loops always hold the map for the page that they have come to. -/
theorem nextPageMap_eq (h : s.pageMap page = some m) :
    s.nextPageMap (page + 1) m = s.pageMap (page + 1) := by
  unfold nextPageMap
  split
  next => rfl
  next hinside =>
    simp only [pagesPerMega] at hinside
    have hmega : (page + 1) / 256 % 4096 = page / 256 % 4096 := by
      omega
    rw [pageMap_eq, hmega, ← pageMap_eq, h]

/-- In a megabyte without a map no page is protected. -/
theorem prot_of_no_map {q : Nat} (h : s.pageMap page = none) (hq : q < 2 ^ 20)
    (hmega : q / 256 = page / 256) : s.prot q = false := by
  have hmap : s.pageMap q = none := by
    rw [pageMap_eq, hmega, ← pageMap_eq, h]
  rw [prot_eq_pageMap hq, hmap]
  rfl

theorem findM_firstPage (s : Marks) (r : GuestRange) :
    s.findM r.addr = s.pageMap r.firstPage := by
  have hfits := r.fits
  have hpos := r.pos
  have hmega : r.addr / 1048576 = r.addr / 4096 / 256 % 4096 := by
    omega
  rw [findM_eq, pageMap_eq, GuestRange.firstPage_eq, hmega]

theorem lastPage_lt (r : GuestRange) : r.lastPage < 2 ^ 20 := by
  have hfits := r.fits
  have hpos := r.pos
  rw [GuestRange.lastPage_eq]
  omega

end Maps

/-! ## What the loops find -/

/-- The first query finds a protected page if there is one.  A megabyte without a map is
only hopped over from its first page. -/
theorem queryAny_eq_true_iff (s : Marks) {last : Nat} (hlast : last < 2 ^ 20) (page : Nat)
    (map : Option MpMap) (hmap : s.pageMap page = map) (haligned : map = none → page % 256 = 0) :
    s.queryAny last page map = true ↔ ∃ q, page ≤ q ∧ q ≤ last ∧ s.prot q = true := by
  fun_induction queryAny s last page map with
  | case1 page hle m hyes =>
      have hprot : s.prot page = true := by
        rw [prot_eq_pageMap (by omega), hmap]
        exact hyes
      simpa using ⟨page, le_rfl, hle, hprot⟩
  | case2 page hle m hno ih =>
      have hprot : s.prot page ≠ true := by
        rw [prot_eq_pageMap (by omega), hmap]
        exact hno
      have hnext := nextPageMap_eq hmap
      have hstart : s.nextPageMap (page + 1) m = none → (page + 1) % 256 = 0 := by
        intro hnone
        by_contra hinside
        rw [nextPageMap, pagesPerMega, if_neg hinside] at hnone
        cases hnone
      rw [ih hnext.symm hstart]
      constructor
      · rintro ⟨q, hge, hq, hyes⟩
        exact ⟨q, by omega, hq, hyes⟩
      · rintro ⟨q, hge, hq, hyes⟩
        have hne : q ≠ page := fun heq => hprot (heq ▸ hyes)
        exact ⟨q, by omega, hq, hyes⟩
  | case3 page hle ih =>
      have hstart := haligned rfl
      have hnext : (page + pagesPerMega) % 256 = 0 := by
        simp only [pagesPerMega]
        omega
      rw [ih rfl (fun _ => hnext), pagesPerMega]
      constructor
      · rintro ⟨q, hge, hq, hyes⟩
        exact ⟨q, by omega, hq, hyes⟩
      · rintro ⟨q, hge, hq, hyes⟩
        refine ⟨q, ?_, hq, hyes⟩
        -- a protected page is in a megabyte with a map
        by_contra hlt
        have hno := prot_of_no_map hmap (by omega : q < 2 ^ 20) (by omega)
        rw [hno] at hyes
        cases hyes
  | case4 page map hgt =>
      constructor
      · intro h
        cases h
      · rintro ⟨q, hge, hq, -⟩
        omega

/-- The second query finds all pages protected, and then a map behind them. -/
theorem queryAll_eq_true_iff (s : Marks) {last : Nat} (hlast : last < 2 ^ 20) (page : Nat)
    (map : Option MpMap) (hmap : s.pageMap page = map) (hpage : page ≤ last + 1) :
    s.queryAll last page map = true ↔
      (∀ q, page ≤ q → q ≤ last → s.prot q = true) ∧ s.pageMap (last + 1) ≠ none := by
  fun_induction queryAll s last page map with
  | case1 page =>
      constructor
      · intro h
        cases h
      · rintro ⟨hall, hmapped⟩
        by_cases hle : page ≤ last
        · have hyes := hall page le_rfl hle
          rw [prot_eq_pageMap (by omega), hmap] at hyes
          cases hyes
        · have hend : page = last + 1 := by
            omega
          exact absurd (hend ▸ hmap) hmapped
  | case2 page m hle hyes ih =>
      have hprot : s.prot page = true := by
        rw [prot_eq_pageMap (by omega), hmap]
        exact hyes
      rw [ih (nextPageMap_eq hmap).symm (by omega)]
      apply and_congr_left
      intro _
      constructor
      · intro hall q hge hq
        by_cases heq : q = page
        · rw [heq]
          exact hprot
        · exact hall q (by omega) hq
      · intro hall q hge hq
        exact hall q (by omega) hq
  | case3 page m hle hno =>
      constructor
      · intro h
        cases h
      · rintro ⟨hall, -⟩
        have hyes := hall page le_rfl hle
        rw [prot_eq_pageMap (by omega), hmap] at hyes
        exact absurd hyes hno
  | case4 page m hgt =>
      have hend : page = last + 1 := by
        omega
      constructor
      · intro _
        refine ⟨fun q hge hq => absurd hq (by omega), fun hnone => ?_⟩
        rw [← hend, hmap] at hnone
        cases hnone
      · intro _
        rfl

/-! ## When the queries are exact -/

/-- Some page that the range touches is protected. -/
def AnyProtected (s : Marks) (r : GuestRange) : Prop :=
  ∃ p, r.firstPage ≤ p ∧ p ≤ r.lastPage ∧ s.eQuerymprot (p * hostPageSize) = true

/-- Every page that the range touches is protected. -/
def AllProtected (s : Marks) (r : GuestRange) : Prop :=
  ∀ p, r.firstPage ≤ p → p ≤ r.lastPage → s.eQuerymprot (p * hostPageSize) = true

theorem eQuerymprotrange_eq_true_iff (s : Marks) (r : GuestRange) :
    s.eQuerymprotrange r = true ↔ s.AnyProtected r := by
  have hlast := lastPage_lt r
  have hfirst := r.firstPage_le
  simp only [AnyProtected, Tracked.eQuerymprot_page]
  cases hmap : s.pageMap r.firstPage with
  | some m =>
      rw [eQuerymprotrange, findM_firstPage, hmap]
      dsimp only
      exact queryAny_eq_true_iff s hlast _ _ hmap (fun h => nomatch h)
  | none =>
      have hdown : s.pageMap (r.firstPage / 256 * 256) = none := by
        have hmega : r.firstPage / 256 * 256 / 256 = r.firstPage / 256 := by
          omega
        rw [pageMap_eq, hmega, ← pageMap_eq, hmap]
      have hany := queryAny_eq_true_iff s hlast _ none hdown (fun _ => by omega)
      rw [eQuerymprotrange, findM_firstPage, hmap]
      dsimp only
      rw [pagesPerMega, hany]
      constructor
      · rintro ⟨q, hge, hq, hyes⟩
        refine ⟨q, ?_, hq, hyes⟩
        -- the pages before the range in its megabyte are not protected
        by_contra hlt
        have hno := prot_of_no_map hmap (by omega : q < 2 ^ 20) (by omega)
        rw [hno] at hyes
        cases hyes
      · rintro ⟨q, hge, hq, hyes⟩
        exact ⟨q, by omega, hq, hyes⟩

theorem eQuerymprotrangeFull_eq_true_iff (s : Marks) (r : GuestRange) :
    s.eQuerymprotrangeFull r = true ↔
      s.AllProtected r ∧ s.pageMap (r.lastPage + 1) ≠ none := by
  have hfirst := r.firstPage_le
  simp only [AllProtected, Tracked.eQuerymprot_page]
  rw [eQuerymprotrangeFull, findM_firstPage,
    queryAll_eq_true_iff s (lastPage_lt r) _ _ rfl (by omega)]

/-- Behind a protected page there is a map, unless the page is the last of its megabyte. -/
theorem pageMap_succ_of_prot {s : Marks} {p : Nat} (hp : p < 2 ^ 20) (hprot : s.prot p = true)
    (hinside : (p + 1) % 256 ≠ 0) : s.pageMap (p + 1) ≠ none := by
  have hmega : (p + 1) / 256 % 4096 = p / 256 % 4096 := by
    omega
  intro hnone
  rw [pageMap_eq, hmega, ← pageMap_eq] at hnone
  rw [prot_eq_pageMap hp, hnone] at hprot
  cases hprot

/-- The range is wholly protected up to the end of a megabyte, and the next one has no map;
behind the last megabyte comes the first. -/
def EndsBeforeGap (s : Marks) (r : GuestRange) : Prop :=
  s.AllProtected r ∧ (r.lastPage + 1) % pagesPerMega = 0 ∧
    s.mapAt ((r.lastPage + 1) / pagesPerMega % 4096) = none

/-- Both queries are exact, unless the range ends before a megabyte without a map. -/
theorem queries_exact_iff (s : Marks) (r : GuestRange) :
    ((s.eQuerymprotrange r = true ↔ s.AnyProtected r) ∧
      (s.eQuerymprotrangeFull r = true ↔ s.AllProtected r)) ↔
      ¬s.EndsBeforeGap r := by
  have hlast : s.AllProtected r → s.prot r.lastPage = true := by
    intro hall
    rw [← Tracked.eQuerymprot_page]
    exact hall r.lastPage r.firstPage_le le_rfl
  rw [eQuerymprotrangeFull_eq_true_iff]
  constructor
  · rintro ⟨-, hfull⟩ ⟨hall, -, hgap⟩
    apply (hfull.mpr hall).2
    rw [pageMap_eq]
    exact hgap
  · intro hno
    refine ⟨eQuerymprotrange_eq_true_iff s r, And.left, fun hall => ⟨hall, fun hnone => ?_⟩⟩
    by_cases hend : (r.lastPage + 1) % 256 = 0
    · rw [pageMap_eq] at hnone
      exact hno ⟨hall, hend, hnone⟩
    · exact pageMap_succ_of_prot (lastPage_lt r) (hlast hall) hend hnone

/-- The first megabyte has a map with its last page protected, the second has none. -/
def lastPageOnly : Marks where
  mpH := AList.singleton 0 { MpMap.empty with pagemap := fun p => p == 255 }
  clist := []
  writeProt := fun p => p == 255

/-- The last byte of the first megabyte is in a protected page, but its range is not found
to be wholly protected. -/
theorem full_misses_last_page :
    lastPageOnly.AllProtected ⟨0xfffff, 1, by decide, by decide⟩ ∧
      lastPageOnly.eQuerymprotrangeFull ⟨0xfffff, 1, by decide, by decide⟩ = false := by
  constructor
  · intro p hge hle
    have hp : p = 255 := le_antisymm hle hge
    rw [hp]
    rfl
  · have hhere : lastPageOnly.findM 0xfffff =
        some { MpMap.empty with pagemap := fun p => p == 255 } := rfl
    have hnext : lastPageOnly.nextPageMap 256
        { MpMap.empty with pagemap := fun p => p == 255 } = none := rfl
    change lastPageOnly.queryAll 255 255 (lastPageOnly.findM 0xfffff) = false
    rw [hhere, queryAll, if_pos le_rfl]
    change (if true = true then _ else _) = false
    rw [if_pos rfl, hnext, queryAll]

end Marks
end Simx86
end Dosemu
