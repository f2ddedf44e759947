import Dosemu.Mfs.Truename
import Mathlib.Data.List.DropRight

/-!
# Names resolved component by component

What `truename` computes, on lists of names: the components of the source are
taken one by one against those of the current directory.  The loop agrees with
this for sources in which no component goes on after three leading dots: there
it removes components before it has seen the end of the dots.

Main results:

- Theorem `special_dots`, `special_name`: what the scan for dots finds.
- Theorem `walk_agrees`: the loop does what `resolve` says.
- Theorem `truename_iff`: when a name is accepted, and as what.
-/

namespace Dosemu
namespace Mfs
namespace Truename

/-! ## The reference -/

/-- The components of a source. -/
def pieces (src : Path) : List Path :=
  (src.splitOnP isSep).filter (· ≠ [])

/-- The source ends in a separator. -/
def endsSep (src : Path) : Bool :=
  src.getLast?.any isSep

/-- What `parse_name` drops at the end of a component. -/
def isTrailing (c : Char) : Bool :=
  c == '.' || c == ' '

/-- A component of dots only. -/
def isDots (c : Path) : Bool :=
  c.all (· == '.')

def isWild (c : Path) : Bool :=
  c.any fun x => x == '*' || x == '?'

/-- A component without trailing dots and spaces; one dot is kept behind a `*`. -/
def kept (c : Path) : Path :=
  if '*' ∈ c ∧ (c.rtakeWhile isTrailing).head? = some '.' then c.rdropWhile isTrailing ++ ['.']
  else c.rdropWhile isTrailing

/-- The names below a drive as a path. -/
def text (drive : Nat) (ns : List Path) : Path :=
  (root drive).reverse ++ ns.flatMap fun n => '\\' :: n

/-- The components of a source, resolved against a directory.  `ends` says that a separator
follows the last one. -/
def resolve (drive : Nat) (ends : Bool) : List Path → List Path → Option (List Path)
  | ns, [] => some ns
  | ns, c :: cs =>
      if isDots c then
        if c.length ≤ ns.length + 1 then
          resolve drive ends (ns.take (ns.length + 1 - c.length)) cs
        else none
      else if c.rdropWhile isTrailing = [] then none
      else if 256 < (text drive ns).length + 1 + c.length then none
      else if isWild c ∧ (cs ≠ [] ∨ ends) then none
      else resolve drive ends (ns ++ [kept c]) cs

/-- A component of a canonical path. -/
structure IsComponent (n : Path) : Prop where
  nonempty : n ≠ []
  noSep : ∀ c ∈ n, isSep c = false
  notDots : isDots n = false

/-- No component goes on after three leading dots. -/
def Straight (src : Path) : Prop :=
  ∀ c ∈ pieces src, ['.', '.', '.'] <+: c → isDots c = true

/-! ## Components of a source -/

variable {src rest piece : Path} {ns : List Path} {d : Nat}

/-- What follows a component: nothing, or a separator. -/
def Stops (rest : Path) : Prop :=
  ∀ c cs, rest = c :: cs → isSep c = true

theorem pieces_nil : pieces [] = [] :=
  rfl

theorem pieces_sep {c : Char} (hc : isSep c = true) : pieces (c :: rest) = pieces rest := by
  have hsplit := List.splitOnP_append_cons (p := isSep) [] rest hc
  rw [List.nil_append, List.splitOnP_nil] at hsplit
  rw [pieces, hsplit]
  rfl

theorem pieces_append (hpiece : piece ≠ []) (hsep : ∀ c ∈ piece, isSep c = false)
    (hrest : Stops rest) : pieces (piece ++ rest) = piece :: pieces rest := by
  have hkeep : decide (piece ≠ []) = true := decide_eq_true hpiece
  cases rest with
  | nil =>
      rw [List.append_nil, pieces, List.splitOnP_eq_singleton hsep, pieces_nil]
      exact List.filter_cons_of_pos hkeep
  | cons c cs =>
      have hc := hrest c cs rfl
      have hsplit := List.splitOnP_append_cons_of_forall_mem hsep c hc cs
      rw [pieces_sep hc, pieces, hsplit]
      exact List.filter_cons_of_pos hkeep

/-- A source that does not begin with a separator begins with a component. -/
theorem exists_piece {c : Char} (hc : isSep c = false) (src : Path) :
    ∃ p rest, c :: src = (c :: p) ++ rest ∧ (∀ x ∈ c :: p, isSep x = false) ∧ Stops rest := by
  refine ⟨src.takeWhile fun x => !isSep x, src.dropWhile fun x => !isSep x, ?_, ?_, ?_⟩
  · rw [List.cons_append, List.takeWhile_append_dropWhile]
  · intro x hx
    rcases List.mem_cons.mp hx with rfl | hx
    · exact hc
    · have hnot := List.mem_takeWhile_imp hx
      simpa using hnot
  · intro x xs heq
    have hhead := List.head?_dropWhile_not (fun x => !isSep x) src
    rw [heq] at hhead
    simpa using hhead

theorem endsSep_append (hsep : ∀ c ∈ piece, isSep c = false) :
    endsSep (piece ++ rest) = endsSep rest := by
  cases rest with
  | nil =>
      rw [List.append_nil, endsSep, endsSep]
      cases hlast : piece.getLast? with
      | none => rfl
      | some c =>
          have hmem := List.mem_of_getLast? hlast
          simp [hsep c hmem]
  | cons c cs => rw [endsSep, endsSep, List.getLast?_append_cons]

theorem endsSep_cons {c : Char} (hne : rest ≠ []) : endsSep (c :: rest) = endsSep rest := by
  rw [endsSep, endsSep, List.getLast?_cons]
  cases hlast : rest.getLast? with
  | none => exact absurd (List.getLast?_eq_none_iff.mp hlast) hne
  | some x => rfl

/-- A source without components ends in a separator. -/
theorem endsSep_of_pieces_nil (hne : src ≠ []) (hpieces : pieces src = []) :
    endsSep src = true := by
  induction src with
  | nil => exact absurd rfl hne
  | cons c src ih =>
      cases hc : isSep c with
      | false =>
          obtain ⟨p, rest, heq, hsep, hrest⟩ := exists_piece hc src
          rw [heq, pieces_append (List.cons_ne_nil c p) hsep hrest] at hpieces
          cases hpieces
      | true =>
          by_cases hnil : src = []
          · rw [hnil, endsSep, List.getLast?_singleton, Option.any_some, hc]
          · rw [pieces_sep hc] at hpieces
            rw [endsSep_cons hnil]
            exact ih hnil hpieces

/-! ## Components of a path -/

theorem text_nil : text d [] = (root d).reverse :=
  List.append_nil _

theorem text_concat (n : Path) : text d (ns ++ [n]) = text d ns ++ '\\' :: n := by
  simp [text]

theorem text_concat_reverse (n : Path) :
    (text d (ns ++ [n])).reverse = n.reverse ++ '\\' :: (text d ns).reverse := by
  rw [text_concat, List.reverse_append, List.reverse_cons, List.append_assoc, List.singleton_append]

theorem two_le_text_length : 2 ≤ (text d ns).length := by
  rw [text, List.length_append, List.length_reverse]
  exact Nat.le_add_right 2 _

theorem text_length_eq_two : (text d ns).length = 2 ↔ ns = [] := by
  cases ns with
  | nil => exact iff_of_true rfl rfl
  | cons n ns =>
      refine iff_of_false ?_ (List.cons_ne_nil n ns)
      simp [text, root]

/-- The end of a name is cut off at the separator before it. -/
theorem removeLast_append {m : List Char} {out : Dest} (hm : '\\' ∉ m) (hout : 2 ≤ out.length) :
    removeLast 2 (m ++ '\\' :: out) = some out := by
  induction m with
  | nil => rfl
  | cons c m ih =>
      have hc : c ≠ '\\' := fun heq => hm (heq ▸ List.mem_cons_self)
      have hlong : ¬(m ++ '\\' :: out).length ≤ 2 := by
        rw [List.length_append, List.length_cons]
        omega
      rw [List.cons_append, removeLast, if_neg hc, if_neg hlong]
      exact ih fun hmem => hm (List.mem_cons_of_mem c hmem)

theorem IsComponent.noBackslash {n : Path} (h : IsComponent n) : '\\' ∉ n := by
  intro hmem
  cases h.noSep '\\' hmem

theorem removeLast_text_nil : removeLast 2 (text d []).reverse = none := by
  rw [text_nil, List.reverse_reverse, root, removeLast, if_neg (by decide), if_pos (by simp)]

theorem removeLast_text {n : Path} (hn : IsComponent n) :
    removeLast 2 (text d (ns ++ [n])).reverse = some (text d ns).reverse := by
  rw [text_concat_reverse]
  apply removeLast_append
  · rw [List.mem_reverse]
    exact hn.noBackslash
  · rw [List.length_reverse]
    exact two_le_text_length

/-! ## Dots -/

/-- Each further dot removes a component, as long as there are dots. -/
theorem dotChain_dots (hns : ∀ n ∈ ns, IsComponent n) (hrest : Stops rest) (k : Nat) :
    dotChain 2 (List.replicate k '.' ++ rest) (text d ns).reverse =
      if k + 1 ≤ ns.length then .gone rest (text d (ns.take (ns.length - (k + 1)))).reverse
      else .above := by
  induction k generalizing ns with
  | zero =>
      rcases List.eq_nil_or_concat ns with rfl | ⟨ms, n, rfl⟩
      · rw [if_neg (by simp)]
        cases rest with
        | nil =>
            simp only [List.replicate_zero, List.nil_append, dotChain]
            rw [removeLast_text_nil]
        | cons c cs =>
            simp only [List.replicate_zero, List.nil_append, dotChain]
            rw [if_pos (hrest c cs rfl), removeLast_text_nil]
      · rw [List.concat_eq_append] at hns ⊢
        have hn : IsComponent n := hns n (by simp)
        rw [if_pos (by simp), List.length_append, List.length_singleton, Nat.add_sub_add_right,
          Nat.sub_zero, List.take_left]
        cases rest with
        | nil =>
            simp only [List.replicate_zero, List.nil_append, dotChain]
            rw [removeLast_text hn]
        | cons c cs =>
            simp only [List.replicate_zero, List.nil_append, dotChain]
            rw [if_pos (hrest c cs rfl), removeLast_text hn]
  | succ k ih =>
      rw [List.replicate_succ, List.cons_append, dotChain, if_neg (by decide), if_pos rfl]
      rcases List.eq_nil_or_concat ns with rfl | ⟨ms, n, rfl⟩
      · rw [removeLast_text_nil, if_neg (by simp)]
      · rw [List.concat_eq_append] at hns ⊢
        have hn : IsComponent n := hns n (by simp)
        have hms : ∀ m ∈ ms, IsComponent m := fun m hm => hns m (List.mem_append_left _ hm)
        rw [removeLast_text hn]
        simp only
        rw [ih hms, List.length_append, List.length_singleton]
        by_cases hle : k + 1 ≤ ms.length
        · rw [if_pos hle, if_pos (by omega), List.take_append_of_le_length (by omega)]
          congr 4
          omega
        · rw [if_neg hle, if_neg (by omega)]

/-- A component of dots stays where it is or goes up. -/
theorem special_dots (hns : ∀ n ∈ ns, IsComponent n) (hrest : Stops rest) (k : Nat) :
    special 2 '.' (List.replicate k '.' ++ rest) (text d ns).reverse =
      if k ≤ ns.length then .gone rest (text d (ns.take (ns.length - k))).reverse
      else .above := by
  unfold special
  rw [if_pos rfl]
  cases k with
  | zero =>
      rw [if_pos (Nat.zero_le _), Nat.sub_zero, List.take_length]
      cases rest with
      | nil => rfl
      | cons c cs =>
          simp only [List.replicate_zero, List.nil_append]
          rw [if_pos (hrest c cs rfl)]
  | succ k =>
      rw [List.replicate_succ, List.cons_append]
      simp only
      rw [if_neg (by decide), if_pos trivial]
      exact dotChain_dots hns hrest k

/-- Any other component is a name, if it does not go on after three dots. -/
theorem special_name {c : Char} {p : Path} {out : Dest} (hsep : ∀ x ∈ c :: p, isSep x = false)
    (hdots : isDots (c :: p) = false) (hstraight : ¬['.', '.', '.'] <+: c :: p) :
    special 2 c (p ++ rest) out = .name (c :: p ++ rest) out := by
  unfold special
  by_cases hc : c = '.'
  swap
  · rw [if_neg hc]
    rfl
  subst hc
  rw [if_pos rfl]
  have hsepOf : ∀ x ∈ p, ¬isSep x = true := fun x hx => by
    rw [hsep x (List.mem_cons_of_mem _ hx)]
    exact Bool.false_ne_true
  cases p with
  | nil => cases hdots
  | cons x p =>
      simp only [List.cons_append]
      rw [if_neg (hsepOf x List.mem_cons_self)]
      by_cases hx : x = '.'
      swap
      · rw [if_neg hx]
      subst hx
      rw [if_pos rfl]
      cases p with
      | nil => cases hdots
      | cons y p =>
          -- The third character is no dot, or the name would have three of them.
          have hy : y ≠ '.' := by
            rintro rfl
            exact hstraight ⟨p, rfl⟩
          rw [List.cons_append, dotChain, if_neg (hsepOf y (by simp)), if_neg hy]

/-! ## Names -/

/-- The trailing dots and spaces of a component, read backwards, are dropped. -/
theorem stripTrailing_append {c : Char} {q : List Char} {out : Dest} {last : Option Char} :
    stripTrailing (out.length + 1) last (q ++ c :: out) =
      ((q.takeWhile isTrailing).getLast?.or last, q.dropWhile isTrailing ++ c :: out) := by
  induction q generalizing last with
  | nil =>
      rw [List.nil_append, stripTrailing, if_neg (by simp)]
      rfl
  | cons x q ih =>
      rw [List.cons_append, stripTrailing]
      have hlen : (q ++ c :: out).length + 1 ≠ out.length + 1 := by
        rw [List.length_append, List.length_cons]
        omega
      by_cases hx : isTrailing x = true
      · have hcond : x = '.' ∨ x = ' ' := by
          simpa [isTrailing] using hx
        rw [if_pos ⟨hcond, hlen⟩, ih, List.takeWhile_cons_of_pos hx, List.dropWhile_cons_of_pos hx]
        cases hlast : (q.takeWhile isTrailing).getLast? with
        | none =>
            rw [List.getLast?_eq_none_iff.mp hlast]
            rfl
        | some y => rw [List.getLast?_cons, hlast]; rfl
      · have hcond : ¬((x = '.' ∨ x = ' ') ∧ (q ++ c :: out).length + 1 ≠ out.length + 1) := by
          rintro ⟨hor, -⟩
          apply hx
          simpa [isTrailing] using hor
        rw [if_neg hcond, List.takeWhile_cons_of_neg hx, List.dropWhile_cons_of_neg hx]
        rfl

/-- A component is added without what trails it, or fails. -/
theorem finishName_append {c : Char} {out : Dest} {star wild : Bool} {next : Path}
    (hstar : star = decide ('*' ∈ piece)) :
    finishName (out.length + 1) star wild next rest (piece.reverse ++ c :: out) =
      if piece.rdropWhile isTrailing = [] then .error next
      else .ok wild ((kept piece).reverse ++ c :: out) rest := by
  rw [finishName, stripTrailing_append, Option.or_none]
  simp only
  by_cases hnil : piece.rdropWhile isTrailing = []
  · have hdrop : piece.reverse.dropWhile isTrailing = [] := by
      rw [← List.reverse_eq_nil_iff]
      exact hnil
    rw [if_pos hnil, hdrop, List.nil_append, if_pos List.length_cons]
  · have hdrop : piece.reverse.dropWhile isTrailing ≠ [] := by
      rw [← List.reverse_ne_nil_iff]
      exact hnil
    have hlen : (piece.reverse.dropWhile isTrailing ++ c :: out).length ≠ out.length + 1 := by
      rw [List.length_append, List.length_cons]
      have := List.length_pos_of_ne_nil hdrop
      omega
    have hhead : (piece.rtakeWhile isTrailing).head? =
        (piece.reverse.takeWhile isTrailing).getLast? := by
      rw [List.rtakeWhile, List.head?_reverse]
    rw [if_neg hnil, if_neg hlen, kept, hhead, hstar]
    simp only [decide_eq_true_eq]
    split
    · rw [List.reverse_append, List.rdropWhile, List.reverse_reverse]
      rfl
    · rw [List.rdropWhile, List.reverse_reverse]

/-- What `parse_name` leaves of a component is one of a canonical path. -/
theorem isComponent_kept (hsep : ∀ c ∈ piece, isSep c = false)
    (hne : piece.rdropWhile isTrailing ≠ []) : IsComponent (kept piece) := by
  have hprefix : piece.rdropWhile isTrailing <+: kept piece := by
    unfold kept
    split
    · exact List.prefix_append _ _
    · exact List.prefix_rfl
  refine ⟨fun hnil => hne (List.prefix_nil.mp (hnil ▸ hprefix)), ?_, ?_⟩
  · intro c hc
    unfold kept at hc
    have hin : c ∈ piece.rdropWhile isTrailing → isSep c = false := fun hmem =>
      hsep c ((List.rdropWhile_prefix isTrailing (l := piece)).subset hmem)
    split at hc
    · rcases List.mem_append.mp hc with hmem | hdot
      · exact hin hmem
      · rw [List.mem_singleton.mp hdot]
        rfl
    · exact hin hc
  · -- The last character that is kept is no dot.
    have hlast := List.rdropWhile_last_not isTrailing piece hne
    have hmem := hprefix.subset (List.getLast_mem hne)
    rw [isDots, List.all_eq_false]
    refine ⟨_, hmem, ?_⟩
    intro hdot
    apply hlast
    rw [isTrailing, beq_iff_eq.mp hdot]
    rfl

theorem kept_length_le (c : Path) : (kept c).length ≤ c.length := by
  have hsplit := congrArg List.length (@List.rdropWhile_append_rtakeWhile _ isTrailing c)
  rw [List.length_append] at hsplit
  unfold kept
  split
  · next h =>
      have hpos : 0 < (c.rtakeWhile isTrailing).length := by
        apply List.length_pos_of_ne_nil
        intro hnil
        rw [hnil] at h
        cases h.2
      rw [List.length_append, List.length_singleton]
      omega
  · omega

/-- A component that fits is copied to its end. -/
theorem parseName_fits (past : Path) (cp : Nat) (star wild : Bool) {out : Dest}
    (hsep : ∀ c ∈ piece, isSep c = false) (hrest : Stops rest)
    (hfit : out.length + piece.length ≤ 256) :
    ∃ next, parseName past cp star wild (piece ++ rest) out =
      finishName cp (star || decide ('*' ∈ piece)) (wild || isWild piece) next rest
        (piece.reverse ++ out) := by
  induction piece generalizing star wild out with
  | nil =>
      rw [List.nil_append, isWild]
      simp only [List.not_mem_nil, decide_false, Bool.or_false, List.any_nil, List.reverse_nil,
        List.nil_append]
      cases rest with
      | nil => exact ⟨past, rfl⟩
      | cons c cs =>
          refine ⟨cs, ?_⟩
          rw [parseName, if_pos (hrest c cs rfl)]
  | cons c piece ih =>
      have hc : ¬isSep c = true := by
        rw [hsep c List.mem_cons_self]
        exact Bool.false_ne_true
      rw [List.length_cons] at hfit
      obtain ⟨next, hnext⟩ := ih (star || c == '*') (wild || c == '*' || c == '?')
        (fun x hx => hsep x (List.mem_cons_of_mem c hx))
        (show (c :: out).length + piece.length ≤ 256 by rw [List.length_cons]; omega)
      refine ⟨next, ?_⟩
      rw [List.cons_append, parseName, if_neg hc, addChar, if_neg (by omega)]
      simp only
      rw [hnext]
      have hstar : (star || c == '*' || decide ('*' ∈ piece)) =
          (star || decide ('*' ∈ c :: piece)) := by
        rw [Bool.or_assoc]
        congr 1
        by_cases hx : c = '*'
        · simp [hx]
        · have hx' : '*' ≠ c := fun heq => hx heq.symm
          simp [hx, hx']
      have hwild : (wild || c == '*' || c == '?' || isWild piece) =
          (wild || isWild (c :: piece)) := by
        simp [isWild, Bool.or_assoc]
      rw [hstar, hwild, List.reverse_cons, List.append_assoc, List.singleton_append]

/-- A component that does not fit is refused. -/
theorem parseName_overflow (past : Path) (cp : Nat) (rest : Path) (star wild : Bool) {out : Dest}
    (hsep : ∀ c ∈ piece, isSep c = false) (hout : out.length ≤ 256)
    (hlong : 256 < out.length + piece.length) :
    ∃ next, parseName past cp star wild (piece ++ rest) out = .error next := by
  induction piece generalizing star wild out with
  | nil =>
      rw [List.length_nil] at hlong
      omega
  | cons c piece ih =>
      have hc : ¬isSep c = true := by
        rw [hsep c List.mem_cons_self]
        exact Bool.false_ne_true
      rw [List.cons_append, parseName, if_neg hc, addChar]
      by_cases hfull : 256 ≤ out.length
      · rw [if_pos hfull]
        exact ⟨_, rfl⟩
      · rw [if_neg hfull]
        rw [List.length_cons] at hlong
        exact ih _ _ (fun x hx => hsep x (List.mem_cons_of_mem c hx))
          (by rw [List.length_cons]; omega) (by rw [List.length_cons]; omega)

/-! ## The loop -/

/-- The loop ends with the path of the resolved names, or fails where there are none. -/
def Agrees (drive : Nat) (ends : Prop) (wild : Bool) :
    Option (List Path) → Except DosError (Dest × AddSep × Bool) → Prop
  | none, r => ∃ e, r = .error e
  | some ns, r => ∃ sep, r = .ok ((text drive ns).reverse, sep, wild) ∧ (sep = .add ↔ ends)

/-- A state in which the loop can meet a component: a separator is due. -/
def Due (sep : AddSep) (src : Path) : Prop :=
  sep = .dontAdd → Stops src

theorem isDots_eq_replicate {c : Path} (h : isDots c = true) : c = List.replicate c.length '.' := by
  rw [List.eq_replicate_iff]
  exact ⟨rfl, fun x hx => beq_iff_eq.mp (List.all_eq_true.mp h x hx)⟩

theorem not_isWild_of_isDots {c : Path} (h : isDots c = true) : isWild c = false := by
  rw [isWild, List.any_eq_false]
  intro x hx
  rw [beq_iff_eq.mp (List.all_eq_true.mp h x hx)]
  decide

theorem text_concat_length (n : Path) :
    (text d (ns ++ [n])).length = (text d ns).length + 1 + n.length := by
  rw [text_concat, List.length_append, List.length_cons]
  omega

theorem text_take_length_le (k : Nat) : (text d (ns.take k)).length ≤ (text d ns).length := by
  have hsplit : ns = ns.take k ++ ns.drop k := (List.take_append_drop k ns).symm
  have hlen := congrArg (fun l => (text d l).length) hsplit
  simp only [text, List.flatMap_append, List.length_append] at hlen ⊢
  omega

theorem Agrees.congr {ends ends' : Prop} {wild : Bool} {o : Option (List Path)}
    {r : Except DosError (Dest × AddSep × Bool)} (h : Agrees d ends wild o r)
    (hiff : ends ↔ ends') : Agrees d ends' wild o r := by
  rwa [← propext hiff]

/-- The round of a component of dots. -/
theorem walk_dots {past : Path} {fuel : Nat} {sep : AddSep} {c : Char} {p : Path}
    (hns : ∀ n ∈ ns, IsComponent n) (hrest : Stops rest) (hdots : isDots (c :: p) = true) :
    walk past 2 '\\' (fuel + 1) (c :: p ++ rest) (text d ns).reverse sep false =
      if p.length ≤ ns.length then
        walk past 2 '\\' fuel rest (text d (ns.take (ns.length - p.length))).reverse
          .addUnlessLast false
      else .error .pathNotFound := by
  have hreplicate := isDots_eq_replicate hdots
  rw [List.length_cons, List.replicate_succ, List.cons.injEq] at hreplicate
  obtain ⟨rfl, hp⟩ := hreplicate
  have hspecial := @special_dots rest ns d hns hrest p.length
  rw [← hp] at hspecial
  have hc : ¬isSep '.' = true := by decide
  rw [List.cons_append, walk, if_neg Bool.false_ne_true, if_neg hc, hspecial]
  by_cases hle : p.length ≤ ns.length
  · rw [if_pos hle, if_pos hle]
  · rw [if_neg hle, if_neg hle]

/-- The round of a component that is no run of dots. -/
theorem walk_name (past : Path) (fuel : Nat) {sep : AddSep} {c : Char} {p : Path}
    (hsep : ∀ x ∈ c :: p, isSep x = false) (hrest : Stops rest)
    (hdots : isDots (c :: p) = false) (hstraight : ¬['.', '.', '.'] <+: c :: p)
    (hdue : sep ≠ .dontAdd) (hlen : (text d ns).length ≤ 256) :
    let fits := (c :: p).rdropWhile isTrailing ≠ [] ∧
      (text d ns).length + 1 + (c :: p).length ≤ 256
    (fits → walk past 2 '\\' (fuel + 1) (c :: p ++ rest) (text d ns).reverse sep false =
        walk past 2 '\\' fuel rest (text d (ns ++ [kept (c :: p)])).reverse .dontAdd
          (isWild (c :: p))) ∧
      (¬fits → ∃ e,
        walk past 2 '\\' (fuel + 1) (c :: p ++ rest) (text d ns).reverse sep false = .error e) := by
  have hc : ¬isSep c = true := by
    rw [hsep c List.mem_cons_self]
    exact Bool.false_ne_true
  intro fits
  rw [List.cons_append, walk, if_neg Bool.false_ne_true, if_neg hc,
    special_name hsep hdots hstraight]
  simp only
  rw [if_pos hdue, addChar, List.length_reverse]
  by_cases hfull : 256 ≤ (text d ns).length
  · rw [if_pos hfull]
    refine ⟨fun hfits => ?_, fun _ => ⟨_, rfl⟩⟩
    have := hfits.2
    omega
  rw [if_neg hfull]
  simp only
  by_cases hlong : (text d ns).length + 1 + (c :: p).length ≤ 256
  · obtain ⟨next, hnext⟩ := parseName_fits past ('\\' :: (text d ns).reverse).length false false
      hsep hrest (show ('\\' :: (text d ns).reverse).length + (c :: p).length ≤ 256 by
        rw [List.length_cons, List.length_reverse]; omega)
    rw [hnext, Bool.false_or, Bool.false_or, List.length_cons, finishName_append rfl,
      text_concat_reverse]
    by_cases hnil : (c :: p).rdropWhile isTrailing = []
    · rw [if_pos hnil]
      exact ⟨fun hfits => absurd hnil hfits.1, fun _ => ⟨_, rfl⟩⟩
    · rw [if_neg hnil]
      exact ⟨fun _ => rfl, fun hnot => absurd ⟨hnil, hlong⟩ hnot⟩
  · obtain ⟨next, hnext⟩ := parseName_overflow past ('\\' :: (text d ns).reverse).length rest
      false false hsep (show ('\\' :: (text d ns).reverse).length ≤ 256 by
        rw [List.length_cons, List.length_reverse]; omega)
      (by rw [List.length_cons, List.length_reverse]; omega)
    rw [hnext]
    exact ⟨fun hfits => absurd hfits.2 hlong, fun _ => ⟨_, rfl⟩⟩

/-- The loop does what `resolve` says. -/
theorem walk_agrees (past : Path) {fuel : Nat} {sep : AddSep} (hfuel : src.length ≤ fuel)
    (hns : ∀ n ∈ ns, IsComponent n) (hlen : (text d ns).length ≤ 256) (hdue : Due sep src)
    (hstraight : Straight src) :
    Agrees d ((src = [] ∧ sep = .add) ∨ endsSep src = true) ((pieces src).any isWild)
      (resolve d (endsSep src) ns (pieces src))
      (walk past 2 '\\' fuel src (text d ns).reverse sep false) := by
  induction fuel generalizing src ns sep with
  | zero =>
      rw [List.length_eq_zero_iff.mp (Nat.le_zero.mp hfuel)]
      exact ⟨sep, by rw [walk]; rfl, by simp [endsSep]⟩
  | succ fuel ih =>
      cases src with
      | nil => exact ⟨sep, by rw [walk]; rfl, by simp [endsSep]⟩
      | cons c src =>
          cases hc : isSep c with
          | true =>
              have hdue' : Due .add src := fun heq => by cases heq
              rw [Straight, pieces_sep hc] at hstraight
              have hnext := ih (Nat.le_of_succ_le_succ hfuel) hns hlen hdue' hstraight
              rw [walk, if_neg Bool.false_ne_true, if_pos hc, pieces_sep hc]
              by_cases hnil : src = []
              · subst hnil
                have hends : endsSep [c] = true := by
                  rw [endsSep, List.getLast?_singleton, Option.any_some, hc]
                rw [pieces_nil, resolve, hends]
                exact ⟨.add, by rw [walk]; rfl, by simp⟩
              · rw [endsSep_cons hnil]
                simpa [hnil] using hnext
          | false =>
              obtain ⟨p, rest, heq, hsep, hrest⟩ := exists_piece hc src
              have hpieces := pieces_append (List.cons_ne_nil c p) hsep hrest
              have hends : endsSep (c :: p ++ rest) = endsSep rest := endsSep_append hsep
              rw [heq] at hfuel hstraight hdue ⊢
              have hfuel' : rest.length ≤ fuel := by
                rw [List.length_append, List.length_cons] at hfuel
                omega
              have hstraight' : Straight rest := by
                intro w hw
                exact hstraight w (by rw [hpieces]; exact List.mem_cons_of_mem _ hw)
              have hends' : ∀ sep' : AddSep, sep' ≠ .add →
                  ((rest = [] ∧ sep' = .add) ∨ endsSep rest = true ↔
                    (c :: p ++ rest = [] ∧ sep = .add) ∨ endsSep rest = true) := by
                intro sep' hne
                simp [hne]
              rw [hpieces, resolve, List.any_cons, hends]
              cases hdots : isDots (c :: p) with
              | true =>
                  rw [walk_dots hns hrest hdots, not_isWild_of_isDots hdots, Bool.false_or,
                    if_pos rfl, List.length_cons, Nat.add_sub_add_right]
                  by_cases hle : p.length ≤ ns.length
                  · rw [if_pos hle, if_pos (Nat.succ_le_succ hle)]
                    exact (ih hfuel' (fun n hn => hns n (List.mem_of_mem_take hn))
                      ((text_take_length_le _).trans hlen) (fun heq => by cases heq)
                      hstraight').congr (hends' .addUnlessLast (by decide))
                  · rw [if_neg hle, if_neg (fun h => hle (Nat.le_of_succ_le_succ h))]
                    exact ⟨_, rfl⟩
              | false =>
                  have hdue' : sep ≠ .dontAdd := by
                    intro heq
                    cases hc.symm.trans (hdue heq c (p ++ rest) rfl)
                  have hdots' : ¬['.', '.', '.'] <+: c :: p := by
                    intro hprefix
                    cases hdots.symm.trans (hstraight _ (by rw [hpieces]; simp) hprefix)
                  obtain ⟨hgo, herror⟩ :=
                    walk_name past fuel hsep hrest hdots hdots' hdue' hlen
                  rw [if_neg Bool.false_ne_true]
                  by_cases hnil : (c :: p).rdropWhile isTrailing = []
                  · rw [if_pos hnil]
                    exact herror fun hfits => hfits.1 hnil
                  rw [if_neg hnil]
                  by_cases hlong : 256 < (text d ns).length + 1 + (c :: p).length
                  · rw [if_pos hlong]
                    exact herror fun hfits => by omega
                  rw [if_neg hlong, hgo ⟨hnil, Nat.not_lt.mp hlong⟩]
                  have hkept : ∀ n ∈ ns ++ [kept (c :: p)], IsComponent n := by
                    intro n hn
                    rcases List.mem_append.mp hn with hmem | hlast
                    · exact hns n hmem
                    · rw [List.mem_singleton.mp hlast]
                      exact isComponent_kept hsep hnil
                  have hlen' : (text d (ns ++ [kept (c :: p)])).length ≤ 256 := by
                    have := kept_length_le (c :: p)
                    rw [text_concat_length]
                    omega
                  cases hwild : isWild (c :: p) with
                  | false =>
                      rw [if_neg (fun h => Bool.false_ne_true h.1), Bool.false_or]
                      exact (ih hfuel' hkept hlen' (fun _ => hrest) hstraight').congr
                        (hends' .dontAdd (by decide))
                  | true =>
                      rw [Bool.true_or]
                      cases hrestEq : rest with
                      | nil =>
                          rw [pieces_nil, if_neg (by simp [endsSep])]
                          exact ⟨.dontAdd, by rw [walk], by simp [endsSep]⟩
                      | cons x xs =>
                          have hmore : pieces (x :: xs) ≠ [] ∨ endsSep (x :: xs) = true := by
                            by_cases hpieces : pieces (x :: xs) = []
                            · exact .inr (endsSep_of_pieces_nil (List.cons_ne_nil x xs) hpieces)
                            · exact .inl hpieces
                          rw [if_pos ⟨rfl, hmore⟩]
                          rw [hrestEq, List.length_cons] at hfuel'
                          obtain ⟨fuel', rfl⟩ := Nat.exists_eq_succ_of_ne_zero (by omega : fuel ≠ 0)
                          exact ⟨.pathNotFound, by rw [walk, if_pos rfl]⟩

/-! ## Resolved names -/

/-- The components of a source hold no separators. -/
theorem pieces_noSep (src : Path) : ∀ w ∈ pieces src, ∀ c ∈ w, isSep c = false := by
  induction hn : src.length using Nat.strong_induction_on generalizing src with
  | h n ih =>
      cases src with
      | nil =>
          intro w hw
          cases hw
      | cons c src =>
          cases hc : isSep c with
          | true =>
              rw [pieces_sep hc]
              exact ih src.length (by rw [← hn]; exact Nat.lt_succ_self _) src rfl
          | false =>
              obtain ⟨p, rest, heq, hsep, hrest⟩ := exists_piece hc src
              have hlen := congrArg List.length heq
              rw [hn, List.length_append, List.length_cons] at hlen
              rw [heq, pieces_append (List.cons_ne_nil c p) hsep hrest]
              intro w hw
              rcases List.mem_cons.mp hw with rfl | hw
              · exact hsep
              · exact ih rest.length (by omega) rest rfl w hw

/-- Resolved names are components of a canonical path, which fits. -/
theorem resolve_spec {ends : Bool} {cs ns' : List Path} (hns : ∀ n ∈ ns, IsComponent n)
    (hlen : (text d ns).length ≤ 256) (hcs : ∀ w ∈ cs, ∀ c ∈ w, isSep c = false)
    (hresolve : resolve d ends ns cs = some ns') :
    (∀ n ∈ ns', IsComponent n) ∧ (text d ns').length ≤ 256 := by
  induction cs generalizing ns with
  | nil =>
      cases hresolve
      exact ⟨hns, hlen⟩
  | cons c cs ih =>
      have hcs' : ∀ w ∈ cs, ∀ x ∈ w, isSep x = false := fun w hw =>
        hcs w (List.mem_cons_of_mem c hw)
      rw [resolve] at hresolve
      split at hresolve
      · split at hresolve
        · exact ih (fun n hn => hns n (List.mem_of_mem_take hn))
            ((text_take_length_le _).trans hlen) hcs' hresolve
        · cases hresolve
      · split at hresolve
        · cases hresolve
        next hnil =>
          split at hresolve
          · cases hresolve
          next hfits =>
            split at hresolve
            · cases hresolve
            · refine ih ?_ ?_ hcs' hresolve
              · intro n hn
                rcases List.mem_append.mp hn with hmem | hlast
                · exact hns n hmem
                · rw [List.mem_singleton.mp hlast]
                  exact isComponent_kept (hcs c List.mem_cons_self) hnil
              · have := kept_length_le c
                rw [text_concat_length]
                omega

/-! ## The whole of `truename` -/

/-- A current directory: names below the root that `getCWD_r` has room for. -/
structure CurrentDir where
  names : List Path
  components : ∀ n ∈ names, IsComponent n
  fits : (names.flatMap fun n => '\\' :: n).length ≤ 63

/-- The current directory as DOS tells it, without its drive and root. -/
def CurrentDir.path (cwd : CurrentDir) : Path :=
  (cwd.names.flatMap fun n => '\\' :: n).tail

/-- Where a source begins: at the root, or in the current directory. -/
def base (cwd : CurrentDir) (src : Path) : List Path :=
  if src.head?.any isSep then [] else cwd.names

/-- A path, closed by a separator if the source is, or if it is a root. -/
def closed (drive : Nat) (src : Path) (ns : List Path) : Path :=
  if src = [] ∨ endsSep src ∨ ns = [] then text drive ns ++ ['\\'] else text drive ns

/-- The source lies on a redirected drive. -/
structure OnDrive (env : Env) (src : Path) : Prop where
  nonneg : 0 ≤ drive env src
  lt_max : drive env src < 26
  lt_last : drive env src < env.lastDrive
  redirected : env.redirected (drive env src).toNat = true

/-- A name of a server. -/
def Unc (src : Path) : Prop :=
  ['\\', '\\'] <+: src

/-- The text that the loop begins with. -/
theorem start_eq (cwd : CurrentDir) (src : Path) :
    start d (some cwd.path) src =
      (if src.head?.any isSep then src.tail else src, (text d (base cwd src)).reverse) := by
  have htake : cwd.path.take 62 = cwd.path := by
    apply List.take_of_length_le
    have := cwd.fits
    rw [CurrentDir.path, List.length_tail]
    omega
  -- The separator after the drive is the one before the first name.
  have hrelative : (let out := (cwd.path.take 62).reverse ++ '\\' :: root d
      if out.head? = some '\\' then out.tail else out) = (text d cwd.names).reverse := by
    rw [htake]
    rcases List.eq_nil_or_concat cwd.names with hnil | ⟨ms, n, hconcat⟩
    · simp [CurrentDir.path, hnil, text_nil]
    · rw [List.concat_eq_append] at hconcat
      have hn : IsComponent n := cwd.components n (by rw [hconcat]; simp)
      have hpath : '\\' :: cwd.path = cwd.names.flatMap fun n => '\\' :: n := by
        cases hnames : cwd.names with
        | nil => rw [hnames] at hconcat; simp at hconcat
        | cons m ms => simp [CurrentDir.path, hnames]
      have hout : cwd.path.reverse ++ '\\' :: root d = (text d cwd.names).reverse := by
        rw [text, ← hpath, List.reverse_append, List.reverse_cons, List.reverse_reverse,
          List.append_assoc, List.singleton_append]
      have hhead : (text d cwd.names).reverse.head? ≠ some '\\' := by
        rw [hconcat, text_concat_reverse]
        intro heq
        cases hrev : n.reverse with
        | nil => exact hn.nonempty (List.reverse_eq_nil_iff.mp hrev)
        | cons x xs =>
            rw [hrev, List.cons_append, List.head?_cons, Option.some.injEq] at heq
            apply hn.noBackslash
            rw [← List.mem_reverse, hrev, heq]
            exact List.mem_cons_self
      simp only
      rw [hout, if_neg hhead]
  cases src with
  | nil =>
      rw [start]
      simp only at hrelative ⊢
      rw [hrelative]
      rfl
  | cons c src =>
      rw [start]
      by_cases hc : isSep c = true
      · simp only [base, List.head?_cons, Option.any_some, hc, if_true, List.tail_cons]
        rfl
      · rw [if_neg hc]
        simp only at hrelative ⊢
        rw [hrelative, base]
        simp [hc]

/-- What follows the loop, for a loop that agrees. -/
theorem finish_ok_iff {src : Path} {wild allowWildcards : Bool} {o : Option (List Path)}
    {r : Except DosError (Dest × AddSep × Bool)} {t : Path}
    (hagrees : Agrees d (src = [] ∨ endsSep src = true) wild o r)
    (hfits : ∀ ns, o = some ns → (text d ns).length ≤ 256) :
    finish allowWildcards r = .ok t ↔
      ∃ ns, o = some ns ∧ (wild = true → allowWildcards = true) ∧ t = closed d src ns ∧
        t.length ≤ 256 := by
  cases o with
  | none =>
      obtain ⟨e, rfl⟩ := hagrees
      refine iff_of_false (fun h => by cases h) ?_
      rintro ⟨ns, hns, -⟩
      cases hns
  | some ns =>
      obtain ⟨sep, rfl, hsep⟩ := hagrees
      have hlen := hfits ns rfl
      simp only [Option.some.injEq, exists_eq_left']
      rw [finish]
      by_cases hwild : wild = true ∧ (!allowWildcards) = true
      · rw [if_pos hwild]
        refine iff_of_false (fun h => by cases h) ?_
        rintro ⟨hallow, -⟩
        rw [hallow hwild.1] at hwild
        cases hwild.2
      · rw [if_neg hwild]
        have hallow : wild = true → allowWildcards = true := by
          intro hw
          cases ha : allowWildcards with
          | true => rfl
          | false => exact absurd ⟨hw, by rw [ha]; rfl⟩ hwild
        have hclosed : sep = .add ∨ (text d ns).reverse.length = 2 ↔
            src = [] ∨ endsSep src = true ∨ ns = [] := by
          rw [hsep, List.length_reverse, text_length_eq_two, or_assoc]
        by_cases hend : src = [] ∨ endsSep src = true ∨ ns = []
        · rw [if_pos (hclosed.mpr hend), closed, if_pos hend, addChar, List.length_reverse]
          by_cases hfull : 256 ≤ (text d ns).length
          · rw [if_pos hfull]
            refine iff_of_false (fun h => by cases h) ?_
            rintro ⟨-, rfl, hle⟩
            rw [List.length_append, List.length_singleton] at hle
            omega
          · rw [if_neg hfull]
            simp only [List.reverse_cons, List.reverse_reverse, Except.ok.injEq]
            constructor
            · rintro rfl
              refine ⟨hallow, rfl, ?_⟩
              rw [List.length_append, List.length_singleton]
              omega
            · rintro ⟨-, rfl, -⟩
              rfl
        · rw [if_neg (fun h => hend (hclosed.mp h)), closed, if_neg hend, List.reverse_reverse,
            Except.ok.injEq]
          constructor
          · rintro rfl
            exact ⟨hallow, rfl, hlen⟩
          · rintro ⟨-, rfl, -⟩
            rfl

theorem text_names_length (cwd : CurrentDir) : (text d cwd.names).length ≤ 256 := by
  have := cwd.fits
  have hroot : (root d).reverse.length = 2 := rfl
  rw [text, List.length_append, hroot]
  omega

theorem truename_eq {env : Env} {src : Path} {allowWildcards : Bool} (hne : src ≠ [])
    (hunc : ¬Unc src) (hdrive : OnDrive env src)
    (hdevice : deviceName env (withoutDrive src) = none) :
    truename env src allowWildcards =
      let d := (drive env src).toNat
      let (body, out) := start d (env.cwd d) (withoutDrive src)
      finish allowWildcards (walk env.past 2 '\\' body.length body out .add false) := by
  have hvalid : ¬(drive env src < 0 ∨ 26 ≤ drive env src ∨ env.lastDrive ≤ drive env src) := by
    have h1 := hdrive.nonneg
    have h2 := hdrive.lt_max
    have h3 := hdrive.lt_last
    omega
  have hredirected : ¬(!env.redirected (drive env src).toNat) = true := by
    rw [hdrive.redirected]
    exact Bool.false_ne_true
  unfold truename
  split
  · exact absurd rfl hne
  · next rest => exact absurd ⟨rest, rfl⟩ hunc
  · simp only
    rw [if_neg hvalid, if_neg hredirected, hdevice]

/-- The loop begins behind a leading separator, which separates nothing. -/
theorem walk_skip_agrees (past : Path) (hns : ∀ n ∈ ns, IsComponent n)
    (hlen : (text d ns).length ≤ 256) (hstraight : Straight src) :
    let body := if src.head?.any isSep then src.tail else src
    Agrees d (src = [] ∨ endsSep src = true) ((pieces src).any isWild)
      (resolve d (endsSep src) ns (pieces src))
      (walk past 2 '\\' body.length body (text d ns).reverse .add false) := by
  have hdue : ∀ s, Due .add s := fun s heq => by cases heq
  cases src with
  | nil => exact ⟨.add, rfl, by simp⟩
  | cons c src =>
      cases hc : isSep c with
      | false =>
          have hagrees := walk_agrees past le_rfl hns hlen (hdue _) hstraight
          simpa [hc] using hagrees
      | true =>
          rw [Straight, pieces_sep hc] at hstraight
          have hagrees := walk_agrees past (le_refl src.length) hns hlen (hdue _) hstraight
          simp only [List.head?_cons, Option.any_some, hc, if_true, List.tail_cons]
          rw [pieces_sep hc]
          by_cases hnil : src = []
          · subst hnil
            have hends : endsSep [c] = true := by
              rw [endsSep, List.getLast?_singleton, Option.any_some, hc]
            exact ⟨.add, rfl, by simp [hends]⟩
          · rw [endsSep_cons hnil]
            simpa [hnil] using hagrees

/-- A name on a redirected drive that is no name of a device, with no component that goes on
after three dots, is accepted exactly if its components can be resolved, a wildcard is
allowed if there is one, and the path fits. -/
theorem truename_iff (env : Env) (src : Path) (allowWildcards : Bool) (cwd : CurrentDir)
    (hne : src ≠ []) (hunc : ¬Unc src) (hdrive : OnDrive env src)
    (hcwd : env.cwd (drive env src).toNat = some cwd.path)
    (hdevice : deviceName env (withoutDrive src) = none)
    (hstraight : Straight (withoutDrive src)) (t : Path) :
    truename env src allowWildcards = .ok t ↔
      ∃ ns, resolve (drive env src).toNat (endsSep (withoutDrive src))
          (base cwd (withoutDrive src)) (pieces (withoutDrive src)) = some ns ∧
        (∀ n ∈ ns, IsComponent n) ∧
        ((pieces (withoutDrive src)).any isWild = true → allowWildcards = true) ∧
        t = closed (drive env src).toNat (withoutDrive src) ns ∧ t.length ≤ 256 := by
  rw [truename_eq hne hunc hdrive hdevice]
  simp only [hcwd, start_eq]
  generalize (drive env src).toNat = d
  generalize withoutDrive src = body at hstraight
  have hbase : (∀ n ∈ base cwd body, IsComponent n) ∧ (text d (base cwd body)).length ≤ 256 := by
    unfold base
    split
    · refine ⟨fun n hn => (List.not_mem_nil hn).elim, ?_⟩
      rw [text_nil, List.length_reverse]
      exact (by decide : 2 ≤ 256)
    · exact ⟨cwd.components, text_names_length cwd⟩
  have hagrees := walk_skip_agrees env.past hbase.1 hbase.2 hstraight
  have hspec : ∀ ns, resolve d (endsSep body) (base cwd body) (pieces body) = some ns →
      (∀ n ∈ ns, IsComponent n) ∧ (text d ns).length ≤ 256 :=
    fun ns hns => resolve_spec hbase.1 hbase.2 (pieces_noSep body) hns
  rw [finish_ok_iff hagrees fun ns hns => (hspec ns hns).2]
  constructor
  · rintro ⟨ns, hns, hrest⟩
    exact ⟨ns, hns, (hspec ns hns).1, hrest⟩
  · rintro ⟨ns, hns, -, hrest⟩
    exact ⟨ns, hns, hrest⟩

/-- A DOS whose drive C is redirected, with a device NUL. -/
def driveC (cwd : Path) : Env where
  curDrive := 2
  lastDrive := 5
  redirected := fun drive => drive == 2
  toupperDOS := Char.toUpper
  isDosDevice := fun name => name == ['N', 'U', 'L']
  cwd := fun _ => some cwd
  past := []

theorem truename_beside_cwd :
    truename (driveC ['F', 'O', 'O']) ['.', '.', '/', 'B', 'A', 'R', '.', ' '] false =
      .ok ['C', ':', '\\', 'B', 'A', 'R'] := by
  have hcomponent : ∀ n ∈ [['F', 'O', 'O']], IsComponent n := by
    intro n hn
    rw [List.mem_singleton.mp hn]
    exact ⟨by decide, by simp [isSep], by decide⟩
  have hresult : ∀ n ∈ [['B', 'A', 'R']], IsComponent n := by
    intro n hn
    rw [List.mem_singleton.mp hn]
    exact ⟨by decide, by simp [isSep], by decide⟩
  refine (truename_iff _ _ _ ⟨[['F', 'O', 'O']], hcomponent, by decide⟩ (by decide) ?_
    ⟨by decide, by decide, by decide, by decide⟩ rfl (by decide) ?_ _).mpr
    ⟨[['B', 'A', 'R']], rfl, hresult, by decide, by decide, by decide⟩
  · unfold Unc
    decide
  · unfold Straight
    decide

/-- A wildcard is refused where none is allowed, and a device keeps no directory. -/
theorem truename_refuses_wildcard :
    resolve 2 false [] (pieces ['*']) = some [['*']] ∧
      truename (driveC []) ['*'] false = .error .pathNotFound ∧
      truename (driveC []) ['N', 'U', 'L'] false = .ok ['C', ':', '/', 'N', 'U', 'L'] := by
  refine ⟨by decide, ?_, ?_⟩
  · rfl
  · rfl

end Truename
end Mfs
end Dosemu
