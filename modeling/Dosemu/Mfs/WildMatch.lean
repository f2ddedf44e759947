import Dosemu.Lib.Wildcard

/-!
# Names and wildcards

`recur_match` and `wild_match` of `lfn.c`.  A pointer into a string is what stands from
there to the end of the terminator, so that nothing is left to read behind it.

Main definitions:

- `recurMatch`: the matcher.
- `wildMatch`: the matcher on a name that gets a period if it has none.
- `Fits`: what it means for a name to fit a pattern.

Main results:

- Theorem `recurMatch_spec`: the matcher decides `Fits` and stays inside its strings.
- Theorem `wildMatch_decides`: so does `wild_match`, and the name is as before.
-/

namespace Dosemu
namespace Mfs
namespace WildMatch

open Wildcard

/-! ## The code -/

abbrev Byte := BitVec 8

/-- `'*'` -/
def star : Byte := 0x2a

/-- `'?'` -/
def question : Byte := 0x3f

/-- `'.'` -/
def dot : Byte := 0x2e

/-- A string of C, without its terminator. -/
structure CString where
  text : List Byte
  nonzero : ∀ c ∈ text, c ≠ 0

/-- A pointer into a string. -/
abbrev Ptr := List Byte

/-- A pointer to the start of a string. -/
def ptr (text : List Byte) : Ptr :=
  text ++ [0]

@[simp] theorem ptr_nil : ptr [] = [0] := rfl

@[simp] theorem ptr_cons (c : Byte) (text : List Byte) : ptr (c :: text) = c :: ptr text := rfl

/-- `upperDOS_table`: "force English ASCII handling for 0 -- 127"; the upper half is up to the
character set. -/
def toupperDOS (high : Byte → Byte) (i : Byte) : Byte :=
  if i < 128 then
    if 0x61 ≤ i ∧ i ≤ 0x7a then i - 0x20 else i
  else high i

/-- The loop over `?` and `*` behind a `*`: a read behind a terminator, the end of the string at
a `?`, or the pattern from the first other character on and what is left of the string. -/
def skipWild : Ptr → Ptr → Option (Option (Ptr × Ptr))
  | [], _ => none
  | c :: pattern, string =>
      if c = question then
        match string with
        | [] => none
        | b :: string => if b = 0 then some none else skipWild pattern string
      else if c = star then skipWild pattern string
      else some (some (c :: pattern, string))

/-- "recursive search if rest of pattern matches a string part" -/
def searchTail (recur : Ptr → Option Nat) : Ptr → Option Nat
  | [] => none
  | b :: string =>
      if b = 0 then some 1
      else
        match recur (b :: string) with
        | none => none
        | some 0 => some 0
        | some _ => searchTail recur string

/-- "at end of string, then no differences", or at a trailing dot. -/
def endTest : Ptr → Option Nat
  | [] => none
  | b :: string =>
      if b = 0 then some 0
      else if b = dot then
        match string with
        | [] => none
        | b :: _ => some (if b = 0 then 0 else 1)
      else some 1

/-- What the loop leaves of the pattern is no longer than before. -/
theorem skipWild_length {pattern string pattern' string' : Ptr}
    (h : skipWild pattern string = some (some (pattern', string'))) :
    pattern'.length ≤ pattern.length := by
  fun_induction skipWild pattern string with
  | case1 => cases h
  | case2 => cases h
  | case3 => cases h
  | case4 _ _ _ _ ih => exact (ih h).trans (Nat.le_succ _)
  | case5 _ _ _ ih => exact (ih h).trans (Nat.le_succ _)
  | case6 =>
      injection h with h
      injection h with h
      injection h with h _
      exact h ▸ Nat.le_refl _

/-- `recur_match`; `none` is a read behind a terminator. -/
def recurMatch (upper : Byte → Byte) (pattern string : Ptr) : Option Nat :=
  match pattern with
  | [] => none
  | c :: pattern =>
      if c = 0 then endTest string
      else if c = star then
        match _h : skipWild pattern string with
        | none => none
        | some none => some 1
        | some (some (pattern', string')) =>
            if pattern'.head? = some 0 then some 0
            else searchTail (fun tail => recurMatch upper pattern' tail) string'
      else
        match string with
        | [] => none
        | b :: string =>
            if c = question then
              if b = 0 then some 1 else recurMatch upper pattern string
            else if c ≠ upper b then some 1
            else recurMatch upper pattern string
termination_by pattern.length
decreasing_by
  · exact Nat.lt_succ_of_le (skipWild_length _h)
  · exact Nat.lt_succ_self _
  · exact Nat.lt_succ_self _

/-- The name with a period behind it if it has none. -/
def withDot (text : List Byte) : List Byte :=
  if dot ∈ text then text else text ++ [dot]

/-- `wild_match`: the result, and the name as it is left. -/
def wildMatch (upper : Byte → Byte) (pattern string : List Byte) : Option (Nat × List Byte) :=
  match recurMatch upper (ptr pattern) (ptr (withDot string)) with
  | none => none
  | some rc => some (rc, if dot ∈ string then string else (withDot string).take string.length)

/-! ## The language of a pattern -/

/-- The symbols of a pattern. -/
def symbol (c : Byte) : Sym Byte :=
  if c = star then .many else if c = question then .any else .letter c

/-- The letters are the same up to their case. -/
def SameLetter (upper : Byte → Byte) (c b : Byte) : Prop :=
  upper c = upper b

/-- The text is a word of the pattern, or one and a trailing dot. -/
def Fits (upper : Byte → Byte) (pattern text : List Byte) : Prop :=
  ∃ w, Matches (SameLetter upper) (pattern.map symbol) w ∧ (text = w ∨ text = w ++ [dot])

variable {upper : Byte → Byte} {p q text : List Byte} {c : Byte}

theorem exists_eq_cons {P : Byte → List Byte → Prop} {b : Byte} {s : List Byte} :
    (∃ b' v, b :: s = b' :: v ∧ P b' v) ↔ P b s := by
  constructor
  · rintro ⟨_, _, heq, h⟩
    cases heq
    exact h
  · intro h
    exact ⟨b, s, rfl, h⟩

theorem not_exists_eq_cons {P : Byte → List Byte → Prop} :
    ¬∃ b v, [] = b :: v ∧ P b v := by
  rintro ⟨_, _, heq, -⟩
  cases heq

theorem fits_nil : Fits upper [] text ↔ text = [] ∨ text = [dot] := by
  constructor
  · rintro ⟨w, hw, htext⟩
    rw [List.map_nil, matches_nil] at hw
    rwa [hw, List.nil_append] at htext
  · intro h
    exact ⟨[], .nil, h⟩

/-- What takes one letter of a word takes one letter of a text. -/
theorem fits_cons {ok : Byte → Prop}
    (h : ∀ w, Matches (SameLetter upper) (p.map symbol) w ↔
      ∃ b v, w = b :: v ∧ ok b ∧ Matches (SameLetter upper) (q.map symbol) v) :
    Fits upper p text ↔ ∃ b v, text = b :: v ∧ ok b ∧ Fits upper q v := by
  constructor
  · rintro ⟨w, hw, htext⟩
    obtain ⟨b, v, rfl, hb, hv⟩ := (h w).mp hw
    cases htext with
    | inl htext => exact ⟨b, v, htext, hb, v, hv, .inl rfl⟩
    | inr htext => exact ⟨b, v ++ [dot], htext, hb, v, hv, .inr rfl⟩
  · rintro ⟨b, v, rfl, hb, w, hw, hv⟩
    refine ⟨b :: w, (h _).mpr ⟨b, w, rfl, hb, hw⟩, ?_⟩
    cases hv with
    | inl hv => exact .inl (by rw [hv])
    | inr hv => exact .inr (by rw [hv, List.cons_append])

theorem symbol_star : symbol star = .many :=
  if_pos rfl

theorem symbol_question : symbol question = .any := by
  rw [symbol, if_neg (by decide), if_pos rfl]

theorem symbol_letter (hstar : c ≠ star) (hquestion : c ≠ question) : symbol c = .letter c := by
  rw [symbol, if_neg hstar, if_neg hquestion]

theorem fits_question :
    Fits upper (question :: p) text ↔ ∃ b v, text = b :: v ∧ True ∧ Fits upper p v := by
  apply fits_cons
  intro w
  rw [List.map_cons, symbol_question, matches_any_cons]
  simp only [true_and]

theorem fits_letter (hstar : c ≠ star) (hquestion : c ≠ question) :
    Fits upper (c :: p) text ↔ ∃ b v, text = b :: v ∧ upper c = upper b ∧ Fits upper p v := by
  apply fits_cons
  intro w
  rw [List.map_cons, symbol_letter hstar hquestion, matches_letter_cons]
  rfl

theorem fits_star_question :
    Fits upper (star :: question :: p) text ↔
      ∃ b v, text = b :: v ∧ True ∧ Fits upper (star :: p) v := by
  apply fits_cons
  intro w
  rw [List.map_cons, List.map_cons, List.map_cons, symbol_star, symbol_question, matches_many_any]
  simp only [true_and]

theorem fits_star_star :
    Fits upper (star :: star :: p) text ↔ Fits upper (star :: p) text := by
  simp only [Fits, List.map_cons, symbol_star, matches_many_many]

theorem fits_star : Fits upper [star] text := by
  refine ⟨text, ?_, .inl rfl⟩
  rw [List.map_cons, List.map_nil, symbol_star]
  exact matches_many

/-- A `*` goes on at any place of the text. -/
theorem fits_star_cons :
    Fits upper (star :: p) text ↔ ∃ k ≤ text.length, Fits upper p (text.drop k) := by
  constructor
  · rintro ⟨w, hw, htext⟩
    rw [List.map_cons, symbol_star, matches_many_cons] at hw
    obtain ⟨k, hk, hw⟩ := hw
    cases htext with
    | inl htext => exact ⟨k, htext ▸ hk, w.drop k, hw, .inl (by rw [htext])⟩
    | inr htext =>
        refine ⟨k, ?_, w.drop k, hw, .inr ?_⟩
        · rw [htext, List.length_append]
          omega
        · rw [htext, List.drop_append_of_le_length hk]
  · rintro ⟨k, hk, w, hw, htext⟩
    refine ⟨text.take k ++ w, ?_, ?_⟩
    · rw [List.map_cons, symbol_star]
      exact .many _ hw
    · have hback : ∀ v, text.drop k = v → text = text.take k ++ v := by
        rintro v rfl
        rw [List.take_append_drop]
      rw [List.append_assoc]
      exact htext.imp (hback w) (hback (w ++ [dot]))

/-! ## The matcher -/

/-- The result is there, and it is zero in the case `P`. -/
def Decides (result : Option Nat) (P : Prop) : Prop :=
  ∃ rc, result = some rc ∧ (rc = 0 ↔ P)

theorem Decides.yes {P : Prop} (h : P) : Decides (some 0) P :=
  ⟨0, rfl, iff_of_true rfl h⟩

theorem Decides.no {P : Prop} (h : ¬P) : Decides (some 1) P :=
  ⟨1, rfl, iff_of_false (by decide) h⟩

theorem Decides.congr {result : Option Nat} {P Q : Prop} (h : Decides result P) (hiff : Q ↔ P) :
    Decides result Q := by
  obtain ⟨rc, hrc, hP⟩ := h
  exact ⟨rc, hrc, hP.trans hiff.symm⟩

/-- No character is a terminator. -/
def NoZero (text : List Byte) : Prop :=
  ∀ c ∈ text, c ≠ 0

instance (text : List Byte) : Decidable (NoZero text) :=
  inferInstanceAs (Decidable (∀ c ∈ text, c ≠ 0))

theorem NoZero.of_suffix {s t : List Byte} (ht : NoZero t) (h : s <:+ t) : NoZero s :=
  fun c hc => ht c (h.subset hc)

theorem NoZero.head {b : Byte} {s : List Byte} (h : NoZero (b :: s)) : b ≠ 0 :=
  h b List.mem_cons_self

theorem NoZero.tail {b : Byte} {s : List Byte} (h : NoZero (b :: s)) : NoZero s :=
  h.of_suffix (List.suffix_cons b s)

theorem endTest_decides (hs : NoZero text) : Decides (endTest (ptr text)) (Fits upper [] text) := by
  rw [fits_nil]
  match text, hs with
  | [], _ => exact .yes (.inl rfl)
  | b :: s, hs =>
      rw [ptr, List.cons_append]
      unfold endTest
      dsimp only
      rw [if_neg hs.head]
      split
      next hb =>
        match s, hs.tail with
        | [], _ => exact .yes (.inr (by rw [hb]))
        | b' :: s, hs =>
            rw [List.cons_append]
            dsimp only
            rw [if_neg hs.head]
            exact .no (by rintro (h | h) <;> cases h)
      next hb =>
        apply Decides.no
        rintro (h | h)
        · cases h
        · injection h with h _
          exact hb h

/-- What the loop over `?` and `*` finds: the text is too short, or a pattern and a text that
fit each other in its stead. -/
theorem skipWild_spec (hp : NoZero p) (hs : NoZero text) :
    (skipWild (ptr p) (ptr text) = some none ∧ ¬Fits upper (star :: p) text) ∨
      ∃ q t, skipWild (ptr p) (ptr text) = some (some (ptr q, ptr t)) ∧ q <:+ p ∧ t <:+ text ∧
        (∀ c ∈ q.head?, c ≠ star ∧ c ≠ question) ∧
        (Fits upper (star :: p) text ↔ Fits upper (star :: q) t) := by
  induction p generalizing text with
  | nil =>
      refine .inr ⟨[], text, ?_, List.suffix_rfl, List.suffix_rfl, ?_, Iff.rfl⟩
      · rfl
      · intro c hc
        cases hc
  | cons c p ih =>
      rw [ptr, List.cons_append]
      unfold skipWild
      split
      next hc =>
        subst hc
        match text, hs with
        | [], _ =>
            refine .inl ⟨rfl, ?_⟩
            rw [fits_star_question]
            exact not_exists_eq_cons
        | b :: s, hs =>
            rw [ptr, List.cons_append]
            dsimp only
            rw [if_neg hs.head]
            rw [fits_star_question, exists_eq_cons, true_and]
            refine (ih hp.tail hs.tail).imp id ?_
            rintro ⟨q, t, heq, hq, ht, hhead, hiff⟩
            exact ⟨q, t, heq, hq.trans (List.suffix_cons _ _), ht.trans (List.suffix_cons _ _),
              hhead, hiff⟩
      next hquestion =>
        split
        next hc =>
          subst hc
          rw [fits_star_star]
          refine (ih hp.tail hs).imp id ?_
          rintro ⟨q, t, heq, hq, ht, hhead, hiff⟩
          exact ⟨q, t, heq, hq.trans (List.suffix_cons _ _), ht, hhead, hiff⟩
        next hstar =>
          refine .inr ⟨c :: p, text, rfl, List.suffix_rfl, List.suffix_rfl, ?_, Iff.rfl⟩
          intro c' hc'
          cases hc'
          exact ⟨hstar, hquestion⟩

/-- The search goes over every place of the string that is not its end. -/
theorem searchTail_decides {recur : Ptr → Option Nat} {P : List Byte → Prop} (hs : NoZero text)
    (h : ∀ t, t <:+ text → Decides (recur (ptr t)) (P t)) :
    Decides (searchTail recur (ptr text)) (∃ k < text.length, P (text.drop k)) := by
  induction text with
  | nil =>
      apply Decides.no
      rintro ⟨k, hk, -⟩
      exact Nat.not_lt_zero _ hk
  | cons b s ih =>
      obtain ⟨rc, hrc, hP⟩ := h (b :: s) List.suffix_rfl
      rw [ptr, List.cons_append] at hrc ⊢
      rw [searchTail, if_neg hs.head, hrc]
      cases rc with
      | zero => exact .yes ⟨0, Nat.succ_pos _, hP.mp rfl⟩
      | succ rc =>
          refine (ih hs.tail fun t ht => h t (ht.trans (List.suffix_cons b s))).congr ?_
          constructor
          · rintro ⟨k, hk, hfit⟩
            cases k with
            | zero => exact absurd (hP.mpr hfit) (Nat.succ_ne_zero rc)
            | succ k => exact ⟨k, Nat.lt_of_succ_lt_succ hk, hfit⟩
          · rintro ⟨k, hk, hfit⟩
            exact ⟨k + 1, Nat.succ_lt_succ hk, hfit⟩

/-- A letter behind a `*` takes a place of the text. -/
theorem fits_star_letter (hstar : c ≠ star) (hquestion : c ≠ question) :
    Fits upper (star :: c :: p) text ↔ ∃ k < text.length, Fits upper (c :: p) (text.drop k) := by
  rw [fits_star_cons]
  constructor
  · rintro ⟨k, hk, h⟩
    refine ⟨k, Nat.lt_of_le_of_ne hk ?_, h⟩
    rintro rfl
    rw [List.drop_length, fits_letter hstar hquestion] at h
    exact not_exists_eq_cons h
  · rintro ⟨k, hk, h⟩
    exact ⟨k, hk.le, h⟩

theorem recurMatch_end {string : Ptr} : recurMatch upper (ptr []) string = endTest string := by
  unfold recurMatch
  exact if_pos rfl

/-- What the matcher does at a `*`, by what the loop behind it finds. -/
theorem recurMatch_star {pattern string : Ptr} :
    recurMatch upper (star :: pattern) string =
      match skipWild pattern string with
      | none => none
      | some none => some 1
      | some (some (pattern', string')) =>
          if pattern'.head? = some 0 then some 0
          else searchTail (fun tail => recurMatch upper pattern' tail) string' := by
  rw [recurMatch.eq_def]
  dsimp only
  rw [if_neg (by decide), if_pos rfl]
  split <;> simp_all only

/-- What the matcher does at a character that stands for one. -/
theorem recurMatch_single {pattern string : Ptr} {b : Byte} (hc : c ≠ 0) (hstar : c ≠ star) :
    recurMatch upper (c :: pattern) (b :: string) =
      if c = question then
        if b = 0 then some 1 else recurMatch upper pattern string
      else if c ≠ upper b then some 1
      else recurMatch upper pattern string := by
  rw [recurMatch.eq_def]
  dsimp only
  rw [if_neg hc, if_neg hstar]

/-- The matcher stays inside its strings and decides whether the text fits. -/
theorem recurMatch_spec (hzero : upper 0 = 0) (hp : NoZero p) (hupper : ∀ c ∈ p, upper c = c)
    (hs : NoZero text) : Decides (recurMatch upper (ptr p) (ptr text)) (Fits upper p text) := by
  induction hn : p.length using Nat.strong_induction_on generalizing p text with
  | _ n ih =>
  match p, hp, hupper with
  | [], _, _ =>
      rw [recurMatch_end]
      exact endTest_decides hs
  | c :: p, hp, hupper =>
      have hrec : ∀ {q t}, q <:+ p → NoZero t →
          Decides (recurMatch upper (ptr q) (ptr t)) (Fits upper q t) := by
        intro q t hq ht
        refine ih q.length ?_ (hp.tail.of_suffix hq) ?_ ht rfl
        · exact (Nat.lt_succ_of_le hq.length_le).trans_eq hn
        · exact fun c hc => hupper c (List.mem_cons_of_mem _ (hq.subset hc))
      rw [ptr_cons]
      by_cases hstar : c = star
      · subst hstar
        rw [recurMatch_star]
        rcases skipWild_spec hp.tail hs with ⟨heq, hfits⟩ | ⟨q, t, heq, hq, ht, hhead, hiff⟩
        · rw [heq]
          exact .no hfits
        · rw [heq, hiff]
          dsimp only
          cases q with
          | nil =>
              rw [ptr_nil, List.head?_cons, if_pos rfl]
              exact .yes fits_star
          | cons c' q =>
              have hc' := hhead c' rfl
              have hzero' : (ptr (c' :: q)).head? ≠ some 0 := by
                rw [ptr_cons, List.head?_cons]
                intro h
                injection h with h
                exact (hp.tail.of_suffix hq).head h
              rw [if_neg hzero', fits_star_letter hc'.1 hc'.2]
              exact searchTail_decides (hs.of_suffix ht) fun t' ht' =>
                hrec hq (hs.of_suffix (ht'.trans ht))
      · match text, hs with
        | [], _ =>
            rw [ptr_nil, recurMatch_single hp.head hstar]
            split
            next hc =>
              subst hc
              rw [if_pos rfl, fits_question]
              exact .no not_exists_eq_cons
            next hc =>
              rw [if_pos (by rw [hzero]; exact hp.head), fits_letter hstar hc]
              exact .no not_exists_eq_cons
        | b :: s, hs =>
            rw [ptr_cons, recurMatch_single hp.head hstar]
            split
            next hc =>
              subst hc
              rw [if_neg hs.head, fits_question, exists_eq_cons, true_and]
              exact hrec List.suffix_rfl hs.tail
            next hc =>
              rw [fits_letter hstar hc, exists_eq_cons, hupper c List.mem_cons_self]
              split
              next hne => exact .no fun h => hne h.1
              next heq =>
                refine (hrec List.suffix_rfl hs.tail).congr ?_
                exact and_iff_right (not_not.mp heq)

/-! ## The match -/

theorem toupperDOS_zero (high : Byte → Byte) : toupperDOS high 0 = 0 := by
  rw [toupperDOS, if_pos (by decide), if_neg (by decide)]

theorem withDot_noZero (hs : NoZero text) : NoZero (withDot text) := by
  rw [withDot]
  split
  next => exact hs
  next =>
    intro c hc
    cases List.mem_append.mp hc with
    | inl hc => exact hs c hc
    | inr hc =>
        rw [List.mem_singleton.mp hc]
        decide

/-- The period that was put behind the name is taken away. -/
theorem take_withDot (h : dot ∉ text) : (withDot text).take text.length = text := by
  rw [withDot, if_neg h, List.take_left]

/-- For an upper-case pattern, `wild_match` returns zero for the names that fit it when they have a
period, it leaves the name as it was, and it reads nothing behind a terminator. -/
theorem wildMatch_decides (high : Byte → Byte) (pattern name : CString)
    (hupper : ∀ c ∈ pattern.text, toupperDOS high c = c) :
    ∃ rc, wildMatch (toupperDOS high) pattern.text name.text = some (rc, name.text) ∧
      (rc = 0 ↔ Fits (toupperDOS high) pattern.text (withDot name.text)) := by
  obtain ⟨rc, hrc, hfits⟩ := recurMatch_spec (toupperDOS_zero high) pattern.nonzero hupper
    (withDot_noZero name.nonzero)
  refine ⟨rc, ?_, hfits⟩
  rw [wildMatch, hrc]
  dsimp only
  split
  next => rfl
  next h => rw [take_withDot h]

theorem wildMatch_decides_star_txt : ∃ rc,
    wildMatch (toupperDOS id) [0x2a, 0x2e, 0x54] [0x61, 0x2e, 0x74] =
      some (rc, [0x61, 0x2e, 0x74]) ∧
      (rc = 0 ↔ Fits (toupperDOS id) [0x2a, 0x2e, 0x54] (withDot [0x61, 0x2e, 0x74])) :=
  wildMatch_decides id ⟨[0x2a, 0x2e, 0x54], by decide⟩ ⟨[0x61, 0x2e, 0x74], by decide⟩ (by decide)

end WildMatch
end Mfs
end Dosemu
