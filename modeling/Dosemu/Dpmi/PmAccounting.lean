import Dosemu.Dpmi.PmBlocks

/-!
# Committed memory of DPMI clients

`mem_allocd` is raised and lowered wherever a page is committed or given up.  It is compared
with the attribute words of the blocks.

Main results:

- Theorem `setAttribsForPage_accounts`: one page keeps the books.
- Theorem `setPages_books`: so does a list of attribute words.
- Theorem `exec_books`: one call keeps them if it maps no committed page, leaves the pages of
  a hardware block as committed as they are and stays inside its block.
- Theorem `memAllocd_eq_committed`: `mem_allocd` behind every run of such calls.
-/

namespace Dosemu
namespace Dpmi
namespace PmMemory

open State

/-! ## Attribute words -/

/-- Uncommitted, committed or mapped -/
def Typed (a : Attr) : Prop :=
  a &&& 7 = 0 ∨ a &&& 7 = 1 ∨ a &&& 7 = 2

/-- The bits that are set and cleared are not those of the type. -/
theorem or_rw_type (a : Attr) : (a ||| 8) &&& 7 = a &&& 7 := by
  rw [BitVec.and_or_distrib_right]
  simp

theorem or_nx_type (a : Attr) : (a ||| 0x80) &&& 7 = a &&& 7 := by
  rw [BitVec.and_or_distrib_right]
  simp

theorem clear_rw_type (a : Attr) : (a &&& ~~~8) &&& 7 = a &&& 7 := by
  rw [BitVec.and_assoc]
  rfl

theorem clear_nx_type (a : Attr) : (a &&& ~~~0x80) &&& 7 = a &&& 7 := by
  rw [BitVec.and_assoc]
  rfl

theorem acc_type (a attr : Attr) : (a &&& 0x0f ||| attr &&& 0xf0) &&& 7 = a &&& 7 := by
  rw [BitVec.and_or_distrib_right, BitVec.and_assoc, BitVec.and_assoc]
  simp

theorem uncommitted_type (a : Attr) : (a &&& ~~~7) &&& 7 = 0 := by
  rw [BitVec.and_assoc]
  simp

theorem committed_type (a : Attr) : ((a &&& ~~~7) ||| 1) &&& 7 = 1 := by
  rw [BitVec.and_or_distrib_right, uncommitted_type]
  rfl

theorem mapped_type (a : Attr) (h : Typed a) : (a &&& ~~~3 ||| 2) &&& 7 = 2 := by
  have hlow : (a &&& ~~~3) &&& 7 = (a &&& 7) &&& ~~~3 := by
    rw [BitVec.and_assoc, BitVec.and_assoc, BitVec.and_comm (~~~3)]
  rw [BitVec.and_or_distrib_right, hlow]
  rcases h with h | h | h
  · rw [h]
    rfl
  · rw [h]
    rfl
  · rw [h]
    rfl

theorem bit_type (a : Attr) : a &&& 1 = (a &&& 7) &&& 1 := by
  rw [BitVec.and_assoc]
  rfl

theorem Typed.committed_iff {a : Attr} (h : Typed a) : a &&& 1 = 0 ↔ isCommitted a = false := by
  unfold isCommitted
  rw [bit_type a]
  rcases h with h | h | h
  · rw [h]
    decide
  · rw [h]
    decide
  · rw [h]
    decide

/-- Whether a page counts is a matter of its type. -/
theorem isCommitted_congr {a b : Attr} (h : a &&& 7 = b &&& 7) : isCommitted a = isCommitted b := by
  unfold isCommitted
  rw [h]

theorem Typed.congr {a b : Attr} (h : Typed a) (hab : b &&& 7 = a &&& 7) : Typed b := by
  unfold Typed
  rw [hab]
  exact h

/-- The bytes a page counts for -/
def worth (a : Attr) : Nat :=
  if isCommitted a then pageSize else 0

/-- The bytes a list of pages counts for -/
def worths (attrs : List Attr) : Nat :=
  (attrs.map worth).sum

theorem worths_append (l l' : List Attr) : worths (l ++ l') = worths l + worths l' := by
  unfold worths
  rw [List.map_append, List.sum_append]

theorem worths_replicate (n : Nat) (a : Attr) : worths (List.replicate n a) = n * worth a := by
  unfold worths
  rw [List.map_replicate, List.sum_replicate, smul_eq_mul]

theorem worths_eq_zero {l : List Attr} (h : ∀ a ∈ l, isCommitted a = false) : worths l = 0 := by
  apply List.sum_eq_zero
  intro n hn
  obtain ⟨a, ha, rfl⟩ := List.mem_map.mp hn
  unfold worth
  rw [h a ha]
  rfl

/-- Another attribute word for one page -/
theorem worths_set {l : List Attr} {k : Nat} {old : Attr} (h : l[k]? = some old) (a : Attr) :
    worths (l.set k a) + worth old = worths l + worth a := by
  induction l generalizing k with
  | nil => cases h
  | cons b l ih =>
    cases k with
    | zero =>
      cases h
      change worth a + worths l + worth old = worth old + worths l + worth a
      omega
    | succ k =>
      have hset := ih (k := k) h
      change worth b + worths (l.set k a) + worth old = worth b + worths l + worth a
      omega

theorem worth_le_worths {l : List Attr} {k : Nat} {a : Attr} (h : l[k]? = some a) :
    worth a ≤ worths l := by
  have hset := worths_set h 0
  have hzero : worth 0 = 0 := rfl
  omega

/-- `HOST_PAGE_SIZE` times the number of committed pages -/
theorem worths_eq (l : List Attr) : worths l = pageSize * l.countP isCommitted := by
  induction l with
  | nil => rfl
  | cons a l ih =>
    change worth a + worths l = _
    rw [ih, List.countP_cons, Nat.mul_add, Nat.add_comm]
    unfold worth
    split
    · rfl
    · rfl

/-- What a block counts for can be given back. -/
theorem giveBack_eq (attrs : List Attr) {allocd : Nat} (h : worths attrs ≤ allocd) :
    giveBack attrs allocd = .ok (allocd - worths attrs) := by
  induction attrs generalizing allocd with
  | nil => rfl
  | cons a attrs ih =>
    change worth a + worths attrs ≤ allocd at h
    change (if isCommitted a then _ else _) = Except.ok (allocd - (worth a + worths attrs))
    unfold worth at h ⊢
    by_cases hcommitted : isCommitted a
    · rw [if_pos hcommitted] at h ⊢
      rw [if_pos (Nat.le_of_add_right_le h), ih (Nat.le_sub_of_add_le' h), if_pos hcommitted,
        Nat.sub_sub]
    · rw [if_neg hcommitted] at h ⊢
      rw [Nat.zero_add] at h
      rw [ih h, if_neg hcommitted, Nat.zero_add]

/-! ## One page -/

section Page

variable {cfg : Config} {aligned : Bool} {attr old : Attr} {allocd : Nat}

/-- The switch keeps the books of the page, and the limit. -/
theorem comPart_accounts (cfg : Config) (attr : Attr) (htyped : Typed old)
    (hworth : worth old ≤ allocd) :
    ∃ goes page, comPart cfg attr old allocd = .ok (goes, page) ∧ Typed page.attr ∧
      page.allocd + worth old = allocd + worth page.attr ∧
      (page.allocd ≤ allocd ∨ page.allocd ≤ cfg.total) := by
  have hiff := htyped.committed_iff
  unfold worth at hworth ⊢
  unfold comPart
  split
  · by_cases hold : old &&& 1 = 0
    · rw [if_pos hold]
      refine ⟨true, _, rfl, .inl (uncommitted_type old), ?_⟩
      have hnew : isCommitted (old &&& ~~~7) = false := by
        unfold isCommitted
        rw [uncommitted_type]
        decide
      simp only [hiff.mp hold, hnew]
      exact ⟨trivial, .inl le_rfl⟩
    · have hcommitted : isCommitted old = true := by
        cases hc : isCommitted old with
        | true => rfl
        | false => exact absurd (hiff.mpr hc) hold
      rw [if_pos hcommitted] at hworth
      rw [if_neg hold, if_pos hworth]
      refine ⟨true, _, rfl, .inl (uncommitted_type old), ?_⟩
      have hnew : isCommitted (old &&& ~~~7) = false := by
        unfold isCommitted
        rw [uncommitted_type]
        decide
      simp only [hcommitted, hnew, if_true]
      exact ⟨Nat.sub_add_cancel hworth, .inl (Nat.sub_le _ _)⟩
  · have hnew : isCommitted (old &&& ~~~7 ||| 1) = true := by
      unfold isCommitted
      rw [committed_type]
      decide
    by_cases hold : old &&& 1 = 0
    · rw [if_pos hold]
      by_cases hlimit : freeMemory cfg allocd < pageSize
      · rw [if_pos hlimit]
        exact ⟨false, _, rfl, htyped, rfl, .inl le_rfl⟩
      · rw [if_neg hlimit]
        refine ⟨true, _, rfl, .inr (.inl (committed_type old)), ?_⟩
        simp only [hiff.mp hold, hnew, if_true]
        refine ⟨rfl, .inr ?_⟩
        unfold freeMemory at hlimit
        have hpos : 0 < pageSize := by decide
        split at hlimit
        · exact absurd hpos hlimit
        · omega
    · have hcommitted : isCommitted old = true := by
        cases hc : isCommitted old with
        | true => rfl
        | false => exact absurd (hiff.mpr hc) hold
      rw [if_neg hold]
      refine ⟨true, _, rfl, .inr (.inl (committed_type old)), ?_⟩
      simp only [hcommitted, hnew]
      exact ⟨trivial, .inl le_rfl⟩
  · exact ⟨true, _, rfl, htyped, rfl, .inl le_rfl⟩

theorem rwPart_keeps (attr old : Attr) (page : Page) :
    (rwPart attr old page).2.attr &&& 7 = page.attr &&& 7 ∧
      (rwPart attr old page).2.allocd = page.allocd := by
  unfold rwPart
  split_ifs
  · exact ⟨rfl, rfl⟩
  · exact ⟨or_rw_type _, rfl⟩
  · exact ⟨clear_rw_type _, rfl⟩
  · exact ⟨rfl, rfl⟩

theorem nxPart_keeps (attr old : Attr) (page : Page) :
    (nxPart attr old page).2.attr &&& 7 = page.attr &&& 7 ∧
      (nxPart attr old page).2.allocd = page.allocd := by
  unfold nxPart
  split_ifs
  · exact ⟨rfl, rfl⟩
  · exact ⟨or_nx_type _, rfl⟩
  · exact ⟨rfl, rfl⟩
  · exact ⟨clear_nx_type _, rfl⟩
  · exact ⟨rfl, rfl⟩

theorem accPart_keeps (attr : Attr) (page : Page) :
    (accPart attr page).attr &&& 7 = page.attr &&& 7 ∧
      (accPart attr page).allocd = page.allocd := by
  unfold accPart
  split_ifs
  · exact ⟨acc_type _ _, rfl⟩
  · exact ⟨rfl, rfl⟩

theorem protPart_keeps {page page' : Page} {ok : Bool} {access : Option Prot}
    (h : protPart aligned attr old page = .ok (ok, page', access)) : page' = page := by
  unfold protPart at h
  split_ifs at h
  · cases h
    rfl
  · cases h
    rfl
  · cases h
    rfl
  · cases h
    rfl
  · cases h
    rfl

/-- The only way not to come back from the host is `leavedos`. -/
theorem protPart_error {page : Page} {abort : Abort}
    (h : protPart aligned attr old page = .error abort) : abort = .leavedos := by
  unfold protPart at h
  split_ifs at h
  · cases h
    rfl

/-- What comes after the switch touches neither the type nor `mem_allocd`. -/
theorem setAttribsForPage_keeps (aligned : Bool) {goes : Bool} {page : Page}
    (hcom : comPart cfg attr old allocd = .ok (goes, page)) :
    (∀ abort, setAttribsForPage cfg aligned attr old allocd = .error abort → abort = .leavedos) ∧
      ∀ ok page' access, setAttribsForPage cfg aligned attr old allocd = .ok (ok, page', access) →
        page'.attr &&& 7 = page.attr &&& 7 ∧ page'.allocd = page.allocd := by
  unfold setAttribsForPage
  rw [hcom]
  cases goes with
  | false =>
    refine ⟨nofun, ?_⟩
    intro ok page' access h
    cases h
    exact ⟨rfl, rfl⟩
  | true =>
    dsimp only
    have hrw := rwPart_keeps attr old page
    rcases hpart : rwPart attr old page with ⟨_ | _, page₁⟩
    · rw [hpart] at hrw
      refine ⟨nofun, ?_⟩
      intro ok page' access h
      cases h
      exact hrw
    · rw [hpart] at hrw
      dsimp only
      have hnx := nxPart_keeps attr old page₁
      rcases hpart' : nxPart attr old page₁ with ⟨_ | _, page₂⟩
      · rw [hpart'] at hnx
        refine ⟨nofun, ?_⟩
        intro ok page' access h
        cases h
        exact ⟨hnx.1.trans hrw.1, hnx.2.trans hrw.2⟩
      · rw [hpart'] at hnx
        have hacc := accPart_keeps attr page₂
        refine ⟨fun abort h => protPart_error h, ?_⟩
        intro ok page' access h
        rw [protPart_keeps h]
        exact ⟨hacc.1.trans (hnx.1.trans hrw.1), hacc.2.trans (hnx.2.trans hrw.2)⟩

/-- One page of a private block keeps the books. -/
theorem setAttribsForPage_accounts (htyped : Typed old) (hworth : worth old ≤ allocd) :
    (∀ abort, setAttribsForPage cfg aligned attr old allocd = .error abort → abort = .leavedos) ∧
      ∀ ok page access, setAttribsForPage cfg aligned attr old allocd = .ok (ok, page, access) →
        Typed page.attr ∧ page.allocd + worth old = allocd + worth page.attr ∧
          (page.allocd ≤ allocd ∨ page.allocd ≤ cfg.total) := by
  obtain ⟨goes, page, hcom, hpage, hsum, hlimit⟩ :=
    comPart_accounts cfg attr htyped hworth
  obtain ⟨herror, hok⟩ := setAttribsForPage_keeps aligned hcom
  refine ⟨herror, ?_⟩
  intro ok page' access h
  obtain ⟨htype, hallocd⟩ := hok ok page' access h
  unfold worth at hsum ⊢
  rw [hallocd, isCommitted_congr htype]
  exact ⟨hpage.congr htype, hsum, hlimit⟩

/-- A word that neither commits nor uncommits -/
def Idle (attr old : Attr) : Prop :=
  (attr &&& 3 = 0 → old &&& 1 = 0) ∧ (attr &&& 3 = 1 → old &&& 1 ≠ 0)

/-- A word that commits nothing and frees nothing leaves the count. -/
theorem setAttribsForPage_idle (h : Idle attr old) :
    (∀ abort, setAttribsForPage cfg aligned attr old allocd = .error abort → abort = .leavedos) ∧
      ∀ ok page access, setAttribsForPage cfg aligned attr old allocd = .ok (ok, page, access) →
        page.allocd = allocd := by
  have hcom : ∃ goes page, comPart cfg attr old allocd = .ok (goes, page) ∧
      page.allocd = allocd := by
    unfold comPart
    split
    next hcase =>
      rw [if_pos (h.1 (BitVec.eq_of_toNat_eq hcase))]
      exact ⟨_, _, rfl, rfl⟩
    next hcase =>
      rw [if_neg (h.2 (BitVec.eq_of_toNat_eq hcase))]
      exact ⟨_, _, rfl, rfl⟩
    next => exact ⟨_, _, rfl, rfl⟩
  obtain ⟨goes, page, hcom, hpage⟩ := hcom
  obtain ⟨herror, hok⟩ := setAttribsForPage_keeps aligned hcom
  refine ⟨herror, ?_⟩
  intro ok page' access hset
  exact (hok ok page' access hset).2.trans hpage

end Page

/-! ## Blocks -/

/-- The bytes a block counts for -/
def PmBlock.worth (b : PmBlock) : Nat :=
  if b.hwram then 0 else worths b.attrs

theorem worth_private {b : PmBlock} (h : b.hwram = false) : b.worth = worths b.attrs := by
  unfold PmBlock.worth
  rw [h]
  rfl

theorem worth_hwram {b : PmBlock} (h : b.hwram = true) : b.worth = 0 := by
  unfold PmBlock.worth
  rw [h]
  rfl

theorem worth_withAttrs {b : PmBlock} (h : b.hwram = false) (attrs : List Attr) :
    (b.withAttrs attrs).worth = worths attrs :=
  worth_private (b := b.withAttrs attrs) h

/-- The attribute array of a block fits its size, and the words of a private block have a
type. -/
structure PmBlock.Sound (b : PmBlock) : Prop where
  size : b.size = b.attrs.length * pageSize
  typed : b.hwram = false → ∀ a ∈ b.attrs, Typed a

/-- `mem_allocd` is what the blocks count for, and within what `DPMI_malloc` allows. -/
structure Books (cfg : Config) (blocks : List PmBlock) (allocd : Nat) : Prop where
  sound : ∀ b ∈ blocks, b.Sound
  total : allocd = (blocks.map PmBlock.worth).sum
  limit : allocd ≤ cfg.total + reserved

section Books

variable {cfg : Config} {s : State} {blocks l₁ l₂ : List PmBlock} {b b' : PmBlock} {allocd : Nat}
  {root handle : Nat}

theorem worth_append_cons (l₁ l₂ : List PmBlock) (b : PmBlock) :
    ((l₁ ++ b :: l₂).map PmBlock.worth).sum = ((l₁ ++ l₂).map PmBlock.worth).sum + b.worth := by
  simp only [List.map_append, List.map_cons, List.sum_append, List.sum_cons]
  omega

/-- A block more -/
theorem Books.add (h : Books cfg blocks allocd) (hb : b.Sound)
    (hlimit : allocd + b.worth ≤ cfg.total + reserved) :
    Books cfg (b :: blocks) (allocd + b.worth) where
  sound := by
    intro b' hb'
    cases hb' with
    | head => exact hb
    | tail _ hb' => exact h.sound b' hb'
  total := by
    rw [List.map_cons, List.sum_cons, ← h.total, Nat.add_comm]
  limit := hlimit

/-- A block less -/
theorem Books.remove (h : Books cfg (l₁ ++ b :: l₂) allocd) :
    b.worth ≤ allocd ∧ Books cfg (l₁ ++ l₂) (allocd - b.worth) := by
  have htotal := h.total
  rw [worth_append_cons] at htotal
  refine ⟨by omega, ?_, by omega, (Nat.sub_le _ _).trans h.limit⟩
  intro b' hb'
  apply h.sound
  rw [List.mem_append] at hb' ⊢
  exact hb'.imp_right (List.mem_cons_of_mem b)

/-- Another block in its place -/
theorem Books.replace (h : Books cfg (l₁ ++ b :: l₂) allocd) (hb' : b'.Sound) {allocd' : Nat}
    (hworth : allocd' + b.worth = allocd + b'.worth) (hlimit : allocd' ≤ cfg.total + reserved) :
    Books cfg (l₁ ++ b' :: l₂) allocd' where
  sound := by
    intro c hc
    rcases List.mem_append.mp hc with hc | hc
    · exact h.sound c (List.mem_append_left _ hc)
    · cases hc with
      | head => exact hb'
      | tail _ hc => exact h.sound c (List.mem_append_right _ (List.mem_cons_of_mem b hc))
  total := by
    have htotal := h.total
    rw [worth_append_cons] at htotal ⊢
    omega
  limit := hlimit

theorem lookup_mem (h : s.lookup root handle = some b) : b ∈ s.blocks :=
  List.mem_of_find?_eq_some h

theorem Books.le_worth (h : Books cfg s.blocks allocd) (hb : b ∈ s.blocks) : b.worth ≤ allocd := by
  rw [h.total]
  exact List.single_le_sum (fun _ _ => Nat.zero_le _) _ (List.mem_map_of_mem hb)

/-! ## Allocation -/

theorem pageAlign_dvd (n : Nat) : pageAlign n / pageSize * pageSize = pageAlign n := by
  unfold pageAlign pageSize
  rw [Nat.mul_div_cancel _ (by decide)]

theorem replicate_sound {n : Nat} {a : Attr} (hn : n / pageSize * pageSize = n) (ha : Typed a)
    (root handle base : Nat) (linear hwram : Bool) :
    (PmBlock.mk root handle base n linear hwram (List.replicate (n / pageSize) a)).Sound where
  size := by
    rw [List.length_replicate]
    exact hn.symm
  typed := by
    intro _ a' ha'
    rw [List.eq_of_mem_replicate ha']
    exact ha

/-- Each call keeps the books; first those that allocate. -/
theorem dpmiMalloc_books (h : Books cfg s.blocks s.memAllocd) {root size : Nat}
    {answer : Option Nat} {r : Option PmBlock} {s' : State}
    (hcall : s.dpmiMalloc cfg root size answer = .ok (r, s')) :
    Books cfg s'.blocks s'.memAllocd := by
  rcases dpmiMalloc_cases cfg s root size answer with
    hnull | herror | ⟨hquota, -, -, hnew⟩
  · rw [hnull] at hcall
    cases hcall
    exact h
  · rw [herror] at hcall
    cases hcall
  · rw [hnew] at hcall
    cases hcall
    have hworth : (s.mallocBlock root (pageAlign size) (answer.getD badAddr)).worth =
        pageAlign size := by
      change worths (List.replicate _ 9) = _
      rw [worths_replicate]
      exact pageAlign_dvd size
    have hlimit := h.limit
    have hfits := cfg.fits
    have hadd := h.add (b := s.mallocBlock root (pageAlign size) (answer.getD badAddr))
      (replicate_sound (pageAlign_dvd size) (.inr (.inl rfl)) root s.handleUsed _ false false)
      (by omega)
    rw [hworth] at hadd
    exact hadd

theorem dpmiMallocLinear_books (h : Books cfg s.blocks s.memAllocd) {root base size : Nat}
    {committed : Bool} {answer : Option Nat} {r : Option PmBlock} {s' : State}
    (hcall : s.dpmiMallocLinear cfg root base size committed answer = .ok (r, s')) :
    Books cfg s'.blocks s'.memAllocd := by
  rcases dpmiMallocLinear_cases cfg s root base size committed answer with
    hnull | herror | ⟨realbase, -, hsize, hquota, hnew⟩
  · rw [hnull] at hcall
    cases hcall
    exact h
  · rw [herror] at hcall
    cases hcall
  · rw [hnew] at hcall
    cases hcall
    have hdvd := pageAlign_dvd size
    have hlimit := h.limit
    cases committed with
    | true =>
      have hworth : (s.linearBlock root realbase (pageAlign size) true).worth = pageAlign size := by
        change worths (List.replicate _ 9) = _
        rw [worths_replicate]
        exact hdvd
      have hfree := hquota rfl
      unfold freeMemory at hfree
      have hpos : 0 < pageSize := by decide
      have hadd := h.add (b := s.linearBlock root realbase (pageAlign size) true)
        (replicate_sound hdvd (.inr (.inl rfl)) root s.handleUsed realbase true false) (by
          rw [hworth]
          split at hfree
          · omega
          · omega)
      rw [hworth] at hadd
      exact hadd
    | false =>
      have hworth : (s.linearBlock root realbase (pageAlign size) false).worth = 0 := by
        change worths (List.replicate _ 8) = _
        rw [worths_replicate]
        rfl
      have hadd := h.add (b := s.linearBlock root realbase (pageAlign size) false)
        (replicate_sound hdvd (.inl rfl) root s.handleUsed realbase true false) (by
          rw [hworth]
          exact hlimit)
      rw [hworth] at hadd
      exact hadd

theorem dpmiMapHWRam_books (h : Books cfg s.blocks s.memAllocd) {root size : Nat}
    {vbase : Option Nat} {r : Option PmBlock} {s' : State}
    (hcall : s.dpmiMapHWRam root size vbase = .ok (r, s')) :
    Books cfg s'.blocks s'.memAllocd := by
  unfold dpmiMapHWRam at hcall
  cases vbase with
  | none =>
    cases hcall
    exact h
  | some vbase =>
    dsimp only at hcall
    split_ifs at hcall with hsize
    · cases hcall
      obtain ⟨-, hdvd⟩ := not_or.mp hsize
      have hsound := replicate_sound (Nat.div_mul_cancel (Nat.dvd_of_mod_eq_zero
        (not_not.mp hdvd))) (a := 9) (.inr (.inl rfl)) root s.handleUsed vbase true true
      exact h.add hsound h.limit

/-! ## Release -/

theorem dpmiUnmapHWRam_books (h : Books cfg s.blocks s.memAllocd) (root vbase : Nat) :
    Books cfg (s.dpmiUnmapHWRam root vbase).2.blocks (s.dpmiUnmapHWRam root vbase).2.memAllocd := by
  unfold dpmiUnmapHWRam
  cases hfound : s.blocks.find? (coversAddr root vbase) with
  | none => exact h
  | some b =>
    dsimp only
    split_ifs with hhwram
    · obtain ⟨l₁, l₂, hsplit, herase, -⟩ := modifyFirst_split hfound
      rw [hsplit] at h
      have hremove := h.remove.2
      unfold PmBlock.worth at hremove
      rw [if_pos hhwram] at hremove
      change Books cfg (s.blocks.eraseP _) _
      rw [herase]
      exact hremove
    · exact h

/-- The release fails no assertion. -/
theorem dpmiFree_books (h : Books cfg s.blocks s.memAllocd) (root handle : Nat) :
    ∃ r s', s.dpmiFree root handle = .ok (r, s') ∧ Books cfg s'.blocks s'.memAllocd := by
  unfold dpmiFree
  cases hfound : s.lookup root handle with
  | none => exact ⟨_, _, rfl, h⟩
  | some b =>
    dsimp only
    by_cases hhwram : b.hwram = true
    · rw [if_pos hhwram]
      exact ⟨_, _, rfl, h⟩
    · rw [if_neg hhwram]
      obtain ⟨l₁, l₂, hsplit, herase, -⟩ := lookup_split hfound
      have hremove := h
      rw [hsplit] at hremove
      obtain ⟨hle, hremove⟩ := hremove.remove
      unfold PmBlock.worth at hle hremove
      rw [if_neg hhwram] at hle hremove
      rw [giveBack_eq b.attrs hle]
      refine ⟨_, _, rfl, ?_⟩
      change Books cfg (s.blocks.eraseP (isBlock root handle)) _
      rw [herase]
      exact hremove

/-! ## Resizing -/

/-- What a resizing that the pool serves must not do: make a block without pages, or give a
hardware block committed pages or take them from it. -/
def Resizable (b : PmBlock) (newsize : Nat) (committed : Bool) : Prop :=
  newsize ≠ 0 ∧ (b.hwram = true →
    (b.size < newsize → committed = false) ∧
      ∀ a ∈ b.attrs.drop (newsize / pageSize), isCommitted a = false)

theorem resizeAttrs_length (attrs : List Attr) (pages : Nat) (committed : Bool) :
    (resizeAttrs attrs pages committed).length = pages := by
  unfold resizeAttrs
  rw [List.length_append, List.length_take, List.length_replicate]
  omega

theorem resized_sound (hb : b.Sound) (ptr newsize : Nat) (committed : Bool) :
    (resized b ptr (pageAlign newsize) committed).Sound where
  size := by
    change pageAlign newsize = (resizeAttrs _ _ _).length * pageSize
    rw [resizeAttrs_length, pageAlign_dvd]
  typed := by
    intro hhwram a ha
    rcases List.mem_append.mp ha with ha | ha
    · exact hb.typed hhwram a (List.mem_of_mem_take ha)
    · rw [List.eq_of_mem_replicate ha]
      cases committed with
      | true => exact .inr (.inl rfl)
      | false => exact .inl rfl

/-- New pages count if they are committed. -/
theorem worths_resizeAttrs_grow {attrs : List Attr} {pages : Nat} (h : attrs.length ≤ pages)
    (committed : Bool) : worths (resizeAttrs attrs pages committed) =
      worths attrs + (pages - attrs.length) * worth (if committed then 9 else 8) := by
  unfold resizeAttrs
  rw [List.take_of_length_le h, worths_append, worths_replicate]

theorem worths_resizeAttrs_shrink {attrs : List Attr} {pages : Nat} (h : pages ≤ attrs.length)
    (committed : Bool) :
    worths (resizeAttrs attrs pages committed) + worths (attrs.drop pages) = worths attrs := by
  unfold resizeAttrs
  rw [Nat.sub_eq_zero_of_le h, List.replicate_zero, List.append_nil, ← worths_append,
    List.take_append_drop]

/-- The new pages of a block that grows. -/
theorem finishAllocd_grow (hb : b.Sound) {n ptr : Nat} {committed : Bool}
    (hdvd : n / pageSize * pageSize = n) (hgrow : b.size < n)
    (hhw : b.hwram = true → committed = false) :
    ∃ allocd', finishAllocd b n committed allocd = .ok allocd' ∧
      allocd' + b.worth = allocd + (resized b ptr n committed).worth ∧
      allocd' = allocd + if committed then n - b.size else 0 := by
  have hsize := hb.size
  have hlen : b.attrs.length ≤ n / pageSize := by
    rw [hsize, ← hdvd] at hgrow
    exact (Nat.lt_of_mul_lt_mul_right hgrow).le
  have hnew : (n / pageSize - b.attrs.length) * pageSize = n - b.size := by
    rw [Nat.sub_mul, hdvd, hsize]
  have hworths := worths_resizeAttrs_grow hlen committed
  unfold finishAllocd
  rw [if_pos hgrow]
  cases committed with
  | true =>
    have hprivate : b.hwram = false := by
      cases hhwram : b.hwram with
      | true => exact absurd (hhw hhwram) (by decide)
      | false => rfl
    have hnine : worth (if true = true then 9 else 8) = pageSize := rfl
    rw [hnine, hnew] at hworths
    refine ⟨_, rfl, ?_, rfl⟩
    rw [worth_private hprivate, worth_private (b := resized b ptr n true) hprivate]
    change allocd + (n - b.size) + _ = allocd + worths (resizeAttrs _ _ _)
    omega
  | false =>
    have height : worth (if false = true then 9 else 8) = 0 := rfl
    rw [height, Nat.mul_zero, Nat.add_zero] at hworths
    refine ⟨_, rfl, ?_, rfl⟩
    change allocd + b.worth = _
    cases hhwram : b.hwram with
    | true => rw [worth_hwram hhwram, worth_hwram (b := resized b ptr n false) hhwram]
    | false =>
      rw [worth_private hhwram, worth_private (b := resized b ptr n false) hhwram]
      exact congrArg (allocd + ·) hworths.symm

/-- The pages that a block loses. -/
theorem finishAllocd_shrink (hb : b.Sound) (hle : b.worth ≤ allocd) {n ptr : Nat}
    {committed : Bool} (hdvd : n / pageSize * pageSize = n) (hpos : n ≠ 0) (hshrink : n ≤ b.size)
    (hhw : b.hwram = true → ∀ a ∈ b.attrs.drop (n / pageSize), isCommitted a = false) :
    ∃ allocd', finishAllocd b n committed allocd = .ok allocd' ∧
      allocd' + b.worth = allocd + (resized b ptr n committed).worth ∧ allocd' ≤ allocd := by
  have hlen : n / pageSize ≤ b.attrs.length := by
    rw [hb.size, ← hdvd] at hshrink
    exact Nat.le_of_mul_le_mul_right hshrink (by decide)
  have hworths := worths_resizeAttrs_shrink hlen committed
  unfold finishAllocd
  rw [if_neg (Nat.not_lt.mpr hshrink)]
  cases hhwram : b.hwram with
  | true =>
    rw [giveBack_eq _ ((worths_eq_zero (hhw hhwram)).le.trans (Nat.zero_le _)),
      worths_eq_zero (hhw hhwram)]
    dsimp only
    rw [if_neg hpos]
    refine ⟨_, rfl, ?_, Nat.sub_le _ _⟩
    rw [worth_hwram hhwram, worth_hwram (b := resized b ptr n committed) hhwram]
    rfl
  | false =>
    rw [worth_private hhwram] at hle ⊢
    rw [giveBack_eq _ (by omega)]
    dsimp only
    rw [if_neg hpos]
    refine ⟨_, rfl, ?_, Nat.sub_le _ _⟩
    rw [worth_private (b := resized b ptr n committed) hhwram]
    change _ = allocd + worths (resizeAttrs _ _ _)
    omega

/-- `finish_realloc` changes `mem_allocd` by what the block gains or loses. -/
theorem finishRealloc_books (h : Books cfg s.blocks s.memAllocd) {newsize : Nat}
    {committed : Bool} {answer : Option Nat} (hasks : Asks cfg s root handle newsize committed b)
    (hok : Resizable b (pageAlign newsize) committed) :
    ∃ r s', s.finishRealloc root handle b (pageAlign newsize) committed answer = .ok (r, s') ∧
      Books cfg s'.blocks s'.memAllocd := by
  have hmem := lookup_mem hasks.found
  have hb := h.sound b hmem
  have hdvd := pageAlign_dvd newsize
  have hlimit := h.limit
  obtain ⟨hpos, hhw⟩ := hok
  have hallocd : ∃ allocd', finishAllocd b (pageAlign newsize) committed s.memAllocd = .ok allocd' ∧
      allocd' + b.worth =
        s.memAllocd + (resized b (answer.getD badAddr) (pageAlign newsize) committed).worth ∧
      allocd' ≤ cfg.total + reserved := by
    by_cases hgrow : b.size < pageAlign newsize
    · obtain ⟨allocd', hallocd, hworth, heq⟩ :=
        finishAllocd_grow hb hdvd hgrow (fun hhwram => (hhw hhwram).1 hgrow)
      refine ⟨allocd', hallocd, hworth, ?_⟩
      cases committed with
      | true =>
        have hquota := hasks.quota hgrow rfl
        rw [if_pos rfl] at heq
        unfold freeMemory at hquota
        split at hquota
        · omega
        · omega
      | false => exact heq.le.trans hlimit
    · obtain ⟨allocd', hallocd, hworth, hle⟩ := finishAllocd_shrink hb (h.le_worth hmem) hdvd hpos
        (Nat.not_lt.mp hgrow) (fun hhwram => (hhw hhwram).2)
      exact ⟨allocd', hallocd, hworth, hle.trans hlimit⟩
  obtain ⟨allocd', hallocd, hworth, hle⟩ := hallocd
  unfold finishRealloc
  rw [hallocd]
  refine ⟨_, _, rfl, ?_⟩
  obtain ⟨l₁, l₂, hsplit, -, hmodify⟩ := lookup_split hasks.found
  rw [hsplit] at h
  change Books cfg (State.modify s root handle _) allocd'
  rw [hmodify]
  exact h.replace (resized_sound hb (answer.getD badAddr) newsize committed) hworth hle

/-! ## Page attributes -/

/-- The loop over the pages of a block -/
theorem setPages_books (hb : b.Sound) {rest : Nat} {offs : Nat} {words : List Attr}
    {aligned : Bool} (hrest : allocd = rest + b.worth) (hlimit : allocd ≤ cfg.total + reserved)
    {prot : Nat → Prot}
    (hok : PagesOk cfg aligned (fun attr old => b.hwram = true → Idle attr old) words
      (b.attrs.drop offs) allocd) :
    (∀ abort, setPages cfg b.base aligned words offs ⟨b.attrs, allocd, prot⟩ = .error abort →
        abort = .leavedos) ∧
      ∀ ok p, setPages cfg b.base aligned words offs ⟨b.attrs, allocd, prot⟩ = .ok (ok, p) →
        (b.withAttrs p.attrs).Sound ∧
          p.allocd = rest + (b.withAttrs p.attrs).worth ∧
          p.allocd ≤ cfg.total + reserved := by
  refine setPages_rule (P := fun attr old => b.hwram = true → Idle attr old)
    (R := fun p => (b.withAttrs p.attrs).Sound ∧
      p.allocd = rest + (b.withAttrs p.attrs).worth ∧ p.allocd ≤ cfg.total + reserved)
    (E := fun abort => abort = .leavedos) (p := ⟨b.attrs, allocd, prot⟩) ?_ ?_ hok
    ⟨hb, hrest, hlimit⟩
  · rintro k p attr old ⟨hsound, hsum, -⟩ hold hP abort herror
    cases hhwram : b.hwram with
    | true => exact (setAttribsForPage_idle (hP hhwram)).1 abort herror
    | false =>
      have htyped := hsound.typed hhwram old (List.mem_of_getElem? hold)
      have hle := worth_le_worths hold
      rw [worth_withAttrs hhwram] at hsum
      exact (setAttribsForPage_accounts htyped (hsum ▸ hle.trans (Nat.le_add_left _ _))).1 abort
        herror
  · rintro k p attr old ⟨hsound, hsum, hle⟩ hold hP goes page access hset
    have hsize : b.size = (p.attrs.set k page.attr).length * pageSize := by
      rw [List.length_set]
      exact hsound.size
    cases hhwram : b.hwram with
    | true =>
      have hallocd : page.allocd = p.allocd :=
        (setAttribsForPage_idle (hP hhwram)).2 goes page access hset
      rw [worth_hwram (b := b.withAttrs p.attrs) hhwram] at hsum
      refine ⟨⟨hsize, ?_⟩, ?_, hallocd.le.trans hle⟩
      · intro hfalse
        exact absurd (hhwram.symm.trans hfalse) (by decide)
      · rw [worth_hwram (b := b.withAttrs (p.put b.base k page access).attrs) hhwram]
        exact hallocd.trans hsum
    | false =>
      have htyped := hsound.typed hhwram old (List.mem_of_getElem? hold)
      have hworths := worths_set hold page.attr
      have hworth := worth_le_worths hold
      rw [worth_withAttrs hhwram] at hsum
      obtain ⟨hpage, hbooks, hlimit'⟩ :=
        (setAttribsForPage_accounts htyped (by omega)).2 goes page access hset
      refine ⟨⟨hsize, ?_⟩, ?_, ?_⟩
      · intro _ a ha
        rcases List.mem_or_eq_of_mem_set ha with ha | ha
        · exact hsound.typed hhwram a ha
        · rw [ha]
          exact hpage
      · rw [worth_withAttrs hhwram]
        change page.allocd = rest + worths (p.attrs.set k page.attr)
        omega
      · rcases hlimit' with hlimit' | hlimit'
        · exact hlimit'.trans hle
        · exact hlimit'.trans (Nat.le_add_right _ _)

theorem dpmiSetPageAttributes_books (h : Books cfg s.blocks s.memAllocd) {offs : Nat}
    {attrs : List Attr}
    (hok : ∀ b, s.lookup root handle = some b →
      ¬(b.linear = false ∧ cfg.noNullChecks = true ∧ offs = 0 ∧ attrs.length = 1) →
      PagesOk cfg (offs % pageSize = 0) (fun attr old => b.hwram = true → Idle attr old) attrs
        (b.attrs.drop (offs / pageSize)) s.memAllocd) :
    (∀ abort, s.dpmiSetPageAttributes cfg root handle offs attrs = .error abort →
        abort = .leavedos) ∧
      ∀ r s', s.dpmiSetPageAttributes cfg root handle offs attrs = .ok (r, s') →
        Books cfg s'.blocks s'.memAllocd := by
  unfold dpmiSetPageAttributes
  cases hfound : s.lookup root handle with
  | none =>
    refine ⟨nofun, ?_⟩
    intro r s' hcall
    cases hcall
    exact h
  | some b =>
    dsimp only
    split_ifs with hgate
    · refine ⟨nofun, ?_⟩
      intro r s' hcall
      cases hcall
      exact h
    · have hmem := lookup_mem hfound
      have hle := h.le_worth hmem
      obtain ⟨herror, hpages⟩ := setPages_books (h.sound b hmem)
        (Nat.sub_add_cancel hle).symm h.limit (hok b hfound hgate)
      cases hset : setPages cfg b.base (decide (offs % pageSize = 0)) attrs (offs / pageSize)
          ⟨b.attrs, s.memAllocd, s.prot⟩ with
      | error abort =>
        refine ⟨?_, nofun⟩
        intro abort' hcall
        cases hcall
        exact herror abort hset
      | ok result =>
        obtain ⟨ok, p⟩ := result
        refine ⟨nofun, ?_⟩
        intro r s' hcall
        cases hcall
        obtain ⟨hsound, hsum, hlimit⟩ := hpages ok p hset
        obtain ⟨l₁, l₂, hsplit, -, hmodify⟩ := lookup_split hfound
        rw [hsplit] at h
        change Books cfg (s.modify root handle _) p.allocd
        rw [hmodify]
        refine h.replace hsound ?_ hlimit
        omega

/-! ## Mapping -/

/-- Mapping needs pages that do not count. -/
theorem dpmiMap_books (h : Books cfg s.blocks s.memAllocd) {offset cnt : Nat} {mapped : Bool}
    (hok : ∀ b, s.lookup root handle = some b → mapped = true →
      offset / pageSize + cnt ≤ b.attrs.length ∧
        (b.hwram = false →
          ∀ a ∈ (b.attrs.drop (offset / pageSize)).take cnt, isCommitted a = false)) :
    ∃ r s', s.dpmiMap root handle offset cnt mapped = .ok (r, s') ∧
      Books cfg s'.blocks s'.memAllocd := by
  unfold dpmiMap
  cases hfound : s.lookup root handle with
  | none => exact ⟨_, _, rfl, h⟩
  | some b =>
    dsimp only
    cases mapped with
    | false => exact ⟨_, _, rfl, h⟩
    | true =>
      obtain ⟨hinside, hfree⟩ := hok b hfound rfl
      rw [if_neg (by decide), if_neg (Nat.not_lt.mpr hinside)]
      refine ⟨_, _, rfl, ?_⟩
      obtain ⟨l₁, l₂, hsplit, -, hmodify⟩ := lookup_split hfound
      have hb := h.sound b (lookup_mem hfound)
      have hlimit := h.limit
      rw [hsplit] at h
      change Books cfg (s.modify root handle _) s.memAllocd
      rw [hmodify]
      have hpart : b.attrs = b.attrs.take (offset / pageSize) ++
          (b.attrs.drop (offset / pageSize)).take cnt ++
            b.attrs.drop (offset / pageSize + cnt) := by
        rw [List.append_assoc, ← List.drop_drop, List.take_append_drop, List.take_append_drop]
      generalize offset / pageSize = k at hfree hpart ⊢
      refine h.replace ⟨?_, ?_⟩ ?_ hlimit
      · change b.size = List.length (_ ++ _ ++ _) * pageSize
        rw [hb.size]
        congr 1
        conv_lhs => rw [hpart]
        simp only [List.length_append, List.length_map]
      · intro hhwram a ha
        have htyped := hb.typed hhwram
        rcases List.mem_append.mp ha with ha | ha
        · rcases List.mem_append.mp ha with ha | ha
          · exact htyped a (List.mem_of_mem_take ha)
          · obtain ⟨a', ha', rfl⟩ := List.mem_map.mp ha
            exact .inr (.inr (mapped_type a' (htyped a'
              (List.mem_of_mem_drop (List.mem_of_mem_take ha')))))
        · exact htyped a (List.mem_of_mem_drop ha)
      · cases hhwram : b.hwram with
        | true =>
          rw [worth_hwram hhwram]
          refine congrArg (s.memAllocd + ·) (Eq.symm ?_)
          exact worth_hwram (b := b.withAttrs _) hhwram
        | false =>
          rw [worth_private hhwram, worth_withAttrs hhwram]
          have hmapped :
              worths (((b.attrs.drop k).take cnt).map fun a => a &&& ~~~3 ||| 2) = 0 := by
            apply worths_eq_zero
            intro a ha
            obtain ⟨a', ha', rfl⟩ := List.mem_map.mp ha
            unfold isCommitted
            rw [mapped_type a' (hb.typed hhwram a'
              (List.mem_of_mem_drop (List.mem_of_mem_take ha')))]
            rfl
          congr 1
          conv_lhs => rw [hpart]
          rw [worths_append, worths_append, worths_append, worths_append,
            worths_eq_zero (hfree hhwram), hmapped]

end Books

/-! ## Runs -/

/-- The calls that keep the books.  A mapping stays inside its block and, in a private one, covers
no committed page; attribute words stay inside the block and, in a hardware block, neither
commit nor uncommit; a resizing that the pool serves is one that its block allows. -/
def Good (cfg : Config) (s : State) : Call → Prop
  | .realloc root handle newsize answer =>
    ∀ b, Asks cfg s root handle newsize true b → (b.linear = true → answer ≠ none) →
      (b.linear = false → answer ≠ some 0) → Resizable b (pageAlign newsize) true
  | .reallocLinear root handle newsize committed answer =>
    ∀ b, Asks cfg s root handle newsize committed b → b.linear = true → answer ≠ none →
      Resizable b (pageAlign newsize) committed
  | .setPageAttributes root handle offs attrs =>
    ∀ b, s.lookup root handle = some b →
      ¬(b.linear = false ∧ cfg.noNullChecks = true ∧ offs = 0 ∧ attrs.length = 1) →
      PagesOk cfg (offs % pageSize = 0) (fun attr old => b.hwram = true → Idle attr old) attrs
        (b.attrs.drop (offs / pageSize)) s.memAllocd
  | .map root handle offset cnt mapped =>
    ∀ b, s.lookup root handle = some b → mapped = true →
      offset / pageSize + cnt ≤ b.attrs.length ∧
        (b.hwram = false →
          ∀ a ∈ (b.attrs.drop (offset / pageSize)).take cnt, isCommitted a = false)
  | _ => True

section Runs

variable {cfg : Config} {s : State}

theorem dpmiReallocLinear_books (h : Books cfg s.blocks s.memAllocd) {root handle newsize : Nat}
    {committed : Bool} {answer : Option Nat}
    (hok : Good cfg s (.reallocLinear root handle newsize committed answer)) :
    ∃ r s', s.dpmiReallocLinear cfg root handle newsize committed answer = .ok (r, s') ∧
      Books cfg s'.blocks s'.memAllocd := by
  rcases dpmiReallocLinear_cases cfg s root handle newsize committed answer with
    ⟨r, hr, -⟩ | ⟨b, hasks, hlinear, ⟨-, hnull⟩ | ⟨ptr, hptr, hserved⟩⟩
  · exact ⟨r, s, hr, h⟩
  · exact ⟨_, _, hnull, h⟩
  · rw [hserved]
    refine finishRealloc_books h hasks (hok b hasks hlinear ?_)
    rw [hptr]
    nofun

theorem dpmiRealloc_books (h : Books cfg s.blocks s.memAllocd) {root handle newsize : Nat}
    {answer : Option Nat} (hok : Good cfg s (.realloc root handle newsize answer)) :
    ∃ r s', s.dpmiRealloc cfg root handle newsize answer = .ok (r, s') ∧
      Books cfg s'.blocks s'.memAllocd := by
  rcases dpmiRealloc_cases cfg s root handle newsize answer with
    ⟨r, hr, -⟩ | ⟨b, hasks, ⟨-, -, hnull⟩ | ⟨-, -, hnull⟩ | ⟨hlinear, hzero, hserved⟩⟩
  · exact ⟨r, s, hr, h⟩
  · exact ⟨_, _, hnull, h⟩
  · exact ⟨_, _, hnull, h⟩
  · rw [hserved]
    exact finishRealloc_books h hasks (hok b hasks hlinear hzero)

/-- The ways in which a call that keeps the books can still end the program. -/
def Stops (abort : Abort) : Prop :=
  abort = .blockSize ∨ abort = .leavedos

/-- A call that returns whatever it is given. -/
theorem books_of_returns {α : Type*} {x : Except Abort (α × State)}
    (h : ∃ r s', x = .ok (r, s') ∧ Books cfg s'.blocks s'.memAllocd) :
    (∀ abort, x = .error abort → Stops abort) ∧
      ∀ r s', x = .ok (r, s') → Books cfg s'.blocks s'.memAllocd := by
  obtain ⟨r, s', rfl, hbooks⟩ := h
  refine ⟨nofun, ?_⟩
  intro r' s'' heq
  cases heq
  exact hbooks

/-- One call keeps the books, and fails no assertion on `mem_allocd`. -/
theorem exec_books (h : Books cfg s.blocks s.memAllocd) {c : Call} (hc : Good cfg s c) :
    (∀ abort, s.exec cfg c = .error abort → Stops abort) ∧
      ∀ r s', s.exec cfg c = .ok (r, s') → Books cfg s'.blocks s'.memAllocd := by
  cases c with
  | malloc root size answer =>
    refine map_result Ret.block ?_ (fun r s' => dpmiMalloc_books h)
    intro abort herror
    rcases dpmiMalloc_cases cfg s root size answer with
      hnull | hsize | ⟨-, -, -, hnew⟩
    · rw [hnull] at herror
      cases herror
    · rw [hsize] at herror
      cases herror
      exact .inl rfl
    · rw [hnew] at herror
      cases herror
  | mallocLinear root base size committed answer =>
    refine map_result Ret.block ?_ (fun r s' => dpmiMallocLinear_books h)
    intro abort herror
    rcases dpmiMallocLinear_cases cfg s root base size committed answer with
      hnull | hsize | ⟨realbase, -, -, -, hnew⟩
    · rw [hnull] at herror
      cases herror
    · rw [hsize] at herror
      cases herror
      exact .inl rfl
    · rw [hnew] at herror
      cases herror
  | mapHWRam root size vbase =>
    refine map_result Ret.block ?_ (fun r s' => dpmiMapHWRam_books h)
    intro abort herror
    unfold dpmiMapHWRam at herror
    cases vbase with
    | none => cases herror
    | some vbase =>
      dsimp only at herror
      split_ifs at herror
      · cases herror
        exact .inl rfl
  | unmapHWRam root vbase =>
    refine ⟨nofun, ?_⟩
    intro r s' hcall
    cases hcall
    exact dpmiUnmapHWRam_books h root vbase
  | free root handle =>
    obtain ⟨herror, hok⟩ := books_of_returns (dpmiFree_books h root handle)
    exact map_result Ret.status herror hok
  | realloc root handle newsize answer =>
    obtain ⟨herror, hok⟩ := books_of_returns (dpmiRealloc_books h hc)
    exact map_result Ret.block herror hok
  | reallocLinear root handle newsize committed answer =>
    obtain ⟨herror, hok⟩ := books_of_returns (dpmiReallocLinear_books h hc)
    exact map_result Ret.block herror hok
  | setPageAttributes root handle offs attrs =>
    obtain ⟨herror, hok⟩ := dpmiSetPageAttributes_books h hc
    exact map_result Ret.done (fun abort hcall => .inr (herror abort hcall)) hok
  | map root handle offset cnt mapped =>
    obtain ⟨herror, hok⟩ := books_of_returns (dpmiMap_books h hc)
    exact map_result Ret.status herror hok

theorem books_empty (cfg : Config) : Books cfg [] 0 where
  sound := nofun
  total := rfl
  limit := Nat.zero_le _

/-- What a run of such calls from an empty state leaves is accounted. -/
theorem run_books {s t : State} (hblocks : s.blocks = []) (hzero : s.memAllocd = 0)
    {calls : List Call} (hok : Run.Admits (State.step cfg) (Good cfg) s calls)
    (hrun : Run.run (State.step cfg) s calls = some t) : Books cfg t.blocks t.memAllocd := by
  refine Run.run_invariant (Good cfg) (fun s => Books cfg s.blocks s.memAllocd) ?_ ?_ hok hrun
  · intro s c t hbooks hgood hstep
    obtain ⟨r, hexec⟩ := step_eq_some hstep
    exact (exec_books hbooks hgood).2 r t hexec
  · rw [hblocks, hzero]
    exact books_empty cfg

/-- Committed private pages of the blocks that are no hardware memory -/
def committedPages (blocks : List PmBlock) : Nat :=
  ((blocks.filter fun b => !b.hwram).map fun b => b.attrs.countP isCommitted).sum

/-- What the blocks count for are their committed pages. -/
theorem worth_sum (blocks : List PmBlock) :
    (blocks.map PmBlock.worth).sum = pageSize * committedPages blocks := by
  unfold committedPages
  induction blocks with
  | nil => rfl
  | cons b blocks ih =>
    rw [List.map_cons, List.sum_cons, ih]
    cases hhwram : b.hwram with
    | true =>
      rw [List.filter_cons_of_neg (by rw [hhwram]; decide), worth_hwram hhwram, Nat.zero_add]
    | false =>
      rw [List.filter_cons_of_pos (by rw [hhwram]; decide), worth_private hhwram, List.map_cons,
        List.sum_cons, Nat.mul_add, worths_eq]

/-- Behind every run of calls that keep the books, `mem_allocd` is `HOST_PAGE_SIZE` times the
number of committed private pages, 0 if there are no blocks, and no further such call fails an
assertion on it. -/
theorem memAllocd_eq_committed {s t : State} (hblocks : s.blocks = []) (hzero : s.memAllocd = 0)
    {calls : List Call} (hok : Run.Admits (State.step cfg) (Good cfg) s calls)
    (hrun : Run.run (State.step cfg) s calls = some t) :
    t.memAllocd = pageSize * committedPages t.blocks ∧ (t.blocks = [] → t.memAllocd = 0) ∧
      ∀ c, Good cfg t c → t.exec cfg c ≠ .error .allocd := by
  have hbooks := run_books hblocks hzero hok hrun
  have htotal := hbooks.total
  refine ⟨htotal.trans (worth_sum t.blocks), ?_, ?_⟩
  · intro hnil
    rw [hnil] at htotal
    exact htotal
  · intro c hc herror
    rcases (exec_books hbooks hc).1 .allocd herror with h | h
    · cases h
    · cases h

end Runs

/-! ## A run -/

/-- 32 megabytes of memory for clients. -/
def sampleConfig : Config where
  total := 0x2000000
  linBase := 0x110000
  linSize := 0x10000000
  noNullChecks := false
  fits := by decide

def noBlocks : State where
  blocks := []
  memAllocd := 0
  handleUsed := 1
  used := fun _ _ => none
  prot := fun _ => .noAccess

/-- Two linear pages, of which the first is committed, grow by a third. -/
def linearCalls : List Call :=
  [.mallocLinear 0 0 0x2000 false (some 0x200000), .setPageAttributes 0 1 0 [9],
    .reallocLinear 0 1 0x3000 true (some 0x200000)]

theorem memAllocd_eq_committed_linear :
    ∃ t, Run.run (State.step sampleConfig) noBlocks linearCalls = some t ∧
      t.memAllocd = pageSize * committedPages t.blocks ∧ (t.blocks = [] → t.memAllocd = 0) ∧
        ∀ c, Good sampleConfig t c → t.exec sampleConfig c ≠ .error .allocd := by
  have hok : Run.Admits (State.step sampleConfig) (Good sampleConfig) noBlocks linearCalls := by
    refine ⟨trivial, fun t ht => ?_⟩
    obtain rfl := Option.some.inj ht
    refine ⟨?_, fun t ht => ?_⟩
    · intro b hb _
      obtain rfl := Option.some.inj hb
      exact ⟨nofun, fun _ _ _ => trivial⟩
    · obtain rfl := Option.some.inj ht
      refine ⟨?_, fun _ _ => trivial⟩
      intro b hasks _ _
      obtain rfl := Option.some.inj hasks.found
      exact ⟨by decide, nofun⟩
  have hrun : (Run.run (State.step sampleConfig) noBlocks linearCalls).isSome := by decide
  obtain ⟨t, ht⟩ := Option.isSome_iff_exists.mp hrun
  exact ⟨t, ht, memAllocd_eq_committed rfl rfl hok ht⟩

/-- A committed page that is mapped over is never given back. -/
theorem mapped_page_leaks :
    ¬∀ (cfg : Config) (s t : State) (calls : List Call), s.blocks = [] → s.memAllocd = 0 →
      Run.run (State.step cfg) s calls = some t →
        t.memAllocd = pageSize * committedPages t.blocks := by
  intro hall
  have hrun : (Run.run (State.step sampleConfig) noBlocks
      [.mallocLinear 0 0 0x1000 true (some 0x200000), .map 0 1 0 1 true, .free 0 1]).map
        (fun t => (t.blocks, t.memAllocd)) = some ([], 0x1000) := by
    decide
  obtain ⟨t, ht, hends⟩ := Option.map_eq_some_iff.mp hrun
  obtain ⟨hblocks, hallocd⟩ := Prod.mk.inj hends
  have hkept := hall _ _ _ _ rfl rfl ht
  rw [hblocks, hallocd] at hkept
  revert hkept
  decide

end PmMemory
end Dpmi
end Dosemu
