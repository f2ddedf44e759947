import Dosemu.Lib.PathWalk
import Mathlib.Data.List.TakeWhile

/-!
# Host paths

A host path is a C string.  `normalizePath` resolves the `.` and `..` components
of a path without looking at the file system; it keeps its result as a string
and cuts it at the last slash.

Main results:

- Theorem `foldl_normStep`: on strings made of names, the loop is a walk.
- Theorem `names_normalizePath`: the names of a normalized absolute path are
  where its components lead.
-/

namespace Dosemu
namespace Mfs

open PathWalk

/-- A C string, without its terminator. -/
abbrev Path := List Char

/-- The parts of a string between the slashes, as `memchr` finds them. -/
def components : Path → List Path
  | [] => [[]]
  | c :: cs =>
      if c = '/' then [] :: components cs
      else
        match components cs with
        | [] => [[c]]
        | w :: ws => (c :: w) :: ws

/-- The part of a string in front of its last slash; a string without one stays. -/
def cutLast (res : Path) : Path :=
  if '/' ∈ res then ((res.reverse.dropWhile (· ≠ '/')).drop 1).reverse else res

/-- One round of the loop in `normalize_path`. -/
def normStep (res component : Path) : Path :=
  if component = ['.', '.'] then cutLast res
  else if component = ['.'] then res
  else if component = [] then res
  else res ++ '/' :: component

/-- `normalize_path` -/
def normalizePath (cwd src : Path) : Path :=
  let res := (components src).foldl normStep (if src.head? = some '/' then [] else cwd)
  if res = [] ∨ src.getLast? = some '/' then res ++ ['/'] else res

/-! ## Names -/

/-- A path as a list of moves. -/
def moves (s : Path) : List (Move Path) :=
  (components s).map fun c =>
    if c = ['.', '.'] then .up else if c = ['.'] then .stay else if c = [] then .stay else .down c

/-- The non-empty components of a string. -/
def names (s : Path) : List Path :=
  (components s).filter (· ≠ [])

/-- A list of names as a string. -/
def render (ns : List Path) : Path :=
  ns.flatMap fun n => '/' :: n

/-- A name of a directory entry. -/
structure IsName (n : Path) : Prop where
  nonempty : n ≠ []
  noSlash : '/' ∉ n

/-- An absolute path without components that a normalization would resolve. -/
def Normal (p : Path) : Prop :=
  ∃ ns : List Path, (∀ n ∈ ns, IsName n ∧ n ≠ ['.'] ∧ n ≠ ['.', '.']) ∧
    p = if ns = [] then ['/'] else render ns

variable {s n : Path} {ns : List Path}

theorem components_ne_nil (s : Path) : components s ≠ [] := by
  cases s with
  | nil => simp [components]
  | cons c cs =>
      rw [components]
      split
      · exact List.cons_ne_nil _ _
      · split <;> exact List.cons_ne_nil _ _

theorem components_noSlash : ∀ w ∈ components s, '/' ∉ w := by
  induction s with
  | nil =>
      intro w hw
      rw [components, List.mem_singleton] at hw
      rw [hw]
      exact List.not_mem_nil
  | cons c cs ih =>
      intro w hw
      rw [components] at hw
      split at hw
      · rcases List.mem_cons.mp hw with rfl | hw
        · exact List.not_mem_nil
        · exact ih w hw
      · next hc =>
          cases hcs : components cs with
          | nil => exact absurd hcs (components_ne_nil cs)
          | cons v vs =>
              rw [hcs] at hw ih
              rcases List.mem_cons.mp hw with rfl | hw
              · intro hmem
                rcases List.mem_cons.mp hmem with heq | hmem
                · exact hc heq.symm
                · exact ih v List.mem_cons_self hmem
              · exact ih w (List.mem_cons_of_mem v hw)

theorem components_of_noSlash (hn : '/' ∉ n) : components n = [n] := by
  induction n with
  | nil => rfl
  | cons c cs ih =>
      have hc : c ≠ '/' := fun heq => hn (heq ▸ List.mem_cons_self)
      have hcs : '/' ∉ cs := fun hmem => hn (List.mem_cons_of_mem c hmem)
      rw [components, if_neg hc, ih hcs]

/-- The components of two strings with a slash in between. -/
theorem components_slash (p s : Path) :
    components (p ++ '/' :: s) = components p ++ components s := by
  induction p with
  | nil => rfl
  | cons c cs ih =>
      rw [List.cons_append, components, components]
      split
      · rw [ih, List.cons_append]
      · rw [ih]
        cases hcs : components cs with
        | nil => exact absurd hcs (components_ne_nil cs)
        | cons w ws => rfl

theorem moves_slash (p s : Path) : moves (p ++ '/' :: s) = moves p ++ moves s := by
  rw [moves, components_slash, List.map_append, moves, moves]

theorem names_slash (p s : Path) : names (p ++ '/' :: s) = names p ++ names s := by
  rw [names, components_slash, List.filter_append, names, names]

theorem render_concat : render (ns ++ [n]) = render ns ++ '/' :: n := by
  simp [render]

theorem render_append {ms : List Path} : render (ns ++ ms) = render ns ++ render ms :=
  List.flatMap_append

/-- A slash and a string are its components, each behind a slash. -/
theorem slash_eq_render (s : Path) : '/' :: s = render (components s) := by
  induction s with
  | nil => rfl
  | cons c cs ih =>
      rw [components]
      split
      · next hc =>
          rw [hc, ih]
          rfl
      · cases hcs : components cs with
        | nil => exact absurd hcs (components_ne_nil cs)
        | cons w ws =>
            rw [hcs] at ih
            have hrest := List.cons.inj ih
            rw [hrest.2]
            rfl

/-- The components of a string with more of them behind it. -/
theorem components_render (p : Path) (h : ∀ n ∈ ns, '/' ∉ n) :
    components (p ++ render ns) = components p ++ ns := by
  induction ns using List.reverseRecOn with
  | nil => rw [render, List.flatMap_nil, List.append_nil, List.append_nil]
  | append_singleton ns n ih =>
      have hn := h n (List.mem_append_right ns List.mem_cons_self)
      rw [render_concat, ← List.append_assoc, components_slash,
        ih fun m hm => h m (List.mem_append_left [n] hm), components_of_noSlash hn,
        List.append_assoc]

/-- The names of a rendered list are the list. -/
theorem names_render (h : ∀ n ∈ ns, IsName n) : names (render ns) = ns := by
  induction ns using List.reverseRecOn with
  | nil => rfl
  | append_singleton ns n ih =>
      have hn := h n (List.mem_append_right ns List.mem_cons_self)
      rw [render_concat, names_slash, ih fun m hm => h m (List.mem_append_left [n] hm)]
      congr 1
      rw [names, components_of_noSlash hn.noSlash]
      simp [hn.nonempty]

/-- Cutting at the last slash removes the last name. -/
theorem cutLast_render (h : ∀ n ∈ ns, IsName n) : cutLast (render ns) = render ns.dropLast := by
  rcases List.eq_nil_or_concat ns with rfl | ⟨ms, n, rfl⟩
  · rfl
  · rw [List.concat_eq_append] at h ⊢
    have hn := h n (List.mem_append_right ms List.mem_cons_self)
    have hdrop : n.reverse.dropWhile (· ≠ '/') = [] := by
      rw [List.dropWhile_eq_nil_iff]
      intro c hc
      have hne : c ≠ '/' := fun heq => hn.noSlash (heq ▸ List.mem_reverse.mp hc)
      simpa using hne
    have hmem : '/' ∈ render ms ++ '/' :: n := List.mem_append_right _ List.mem_cons_self
    rw [render_concat, List.dropLast_concat, cutLast, if_pos hmem, List.reverse_append,
      List.reverse_cons, List.append_assoc, List.dropWhile_append, hdrop]
    simp

/-- The loop of `normalize_path` walks through the directories. -/
theorem foldl_normStep {cs : List Path} (hcs : ∀ c ∈ cs, '/' ∉ c) (hns : ∀ n ∈ ns, IsName n) :
    ∃ ms : List Path, (∀ n ∈ ms, IsName n) ∧ cs.foldl normStep (render ns) = render ms ∧
      ms = walk ns (cs.map fun c => if c = ['.', '.'] then .up else if c = ['.'] then .stay
        else if c = [] then .stay else .down c) := by
  induction cs generalizing ns with
  | nil => exact ⟨ns, hns, rfl, rfl⟩
  | cons c cs ih =>
      have hrest (d : Path) (hd : d ∈ cs) : '/' ∉ d := hcs d (List.mem_cons_of_mem c hd)
      rw [List.foldl_cons, List.map_cons, normStep]
      by_cases hup : c = ['.', '.']
      · rw [if_pos hup, if_pos hup, cutLast_render hns]
        exact ih hrest fun n hn => hns n (List.mem_of_mem_dropLast hn)
      by_cases hdot : c = ['.']
      · rw [if_neg hup, if_pos hdot, if_neg hup, if_pos hdot]
        exact ih hrest hns
      by_cases hnil : c = []
      · rw [if_neg hup, if_neg hdot, if_pos hnil, if_neg hup, if_neg hdot, if_pos hnil]
        exact ih hrest hns
      · rw [if_neg hup, if_neg hdot, if_neg hnil, if_neg hup, if_neg hdot, if_neg hnil,
          ← render_concat]
        refine ih hrest fun n hn => ?_
        rcases List.mem_append.mp hn with hn | hn
        · exact hns n hn
        · rw [List.mem_singleton.mp hn]
          exact ⟨hnil, hcs c List.mem_cons_self⟩

/-- The names of a normalized absolute path are where its components lead. -/
theorem names_normalizePath (cwd : Path) (habs : s.head? = some '/') :
    names (normalizePath cwd s) = walk [] (moves s) := by
  obtain ⟨ms, hms, hfold, hwalk⟩ :=
    @foldl_normStep [] (components s) components_noSlash fun n hn => by cases hn
  have hslash : names (render ms ++ ['/']) = ms := by
    rw [names_slash, names_render hms]
    exact List.append_nil ms
  change (components s).foldl normStep [] = render ms at hfold
  unfold normalizePath
  rw [if_pos habs, hfold]
  dsimp only
  split
  · rw [hslash, hwalk]
    rfl
  · rw [names_render hms, hwalk]
    rfl

/-! ## Normalized paths -/

variable {p : Path}

/-- A normalized path leads to its names. -/
theorem walk_moves_normal (h : Normal p) : walk [] (moves p) = names p := by
  obtain ⟨ns, hns, rfl⟩ := h
  by_cases hnil : ns = []
  · rw [if_pos hnil]
    rfl
  · rw [if_neg hnil, names_render fun n hn => (hns n hn).1]
    clear hnil
    induction ns using List.reverseRecOn with
    | nil => rfl
    | append_singleton ns n ih =>
        obtain ⟨hn, hdot, hup⟩ := hns n (List.mem_append_right ns List.mem_cons_self)
        rw [render_concat, moves_slash, walk_append, ih fun m hm => hns m (List.mem_append_left _ hm),
          moves, components_of_noSlash hn.noSlash]
        simp [hup, hdot, hn.nonempty, walk, move]

theorem Normal.head (h : Normal p) : p.head? = some '/' := by
  obtain ⟨ns, -, rfl⟩ := h
  split
  · rfl
  · cases ns with
    | nil => contradiction
    | cons n ns => rfl

/-- A normalized path other than the root is rendered from its names. -/
theorem Normal.eq_render (h : Normal p) (hroot : p ≠ ['/']) : p = render (names p) := by
  obtain ⟨ns, hns, rfl⟩ := h
  split at hroot
  · exact absurd rfl hroot
  · next hnil => rw [if_neg hnil, names_render fun n hn => (hns n hn).1]

/-- An absolute path of one character is the root. -/
theorem eq_root_of_length (habs : p.head? = some '/') (hlen : p.length ≤ 1) : p = ['/'] := by
  cases p with
  | nil => cases habs
  | cons c cs =>
      obtain rfl := List.length_eq_zero_iff.mp (Nat.le_zero.mp (Nat.le_of_succ_le_succ hlen))
      exact congrArg (fun c => [c]) (Option.some.inj habs)

/-- The root has no names, and no other normalized path has none. -/
theorem Normal.eq_root (h : Normal p) (hnames : names p = []) : p = ['/'] := by
  by_contra hroot
  have hp := h.eq_render hroot
  rw [hnames] at hp
  rw [hp] at h
  cases h.head

/-- A normalized path ends in a slash only if it is the root. -/
theorem Normal.getLast (h : Normal p) (hlast : p.getLast? = some '/') : p = ['/'] := by
  obtain ⟨ns, hns, rfl⟩ := h
  split at hlast
  · next hnil => rw [if_pos hnil]
  · rcases List.eq_nil_or_concat ns with rfl | ⟨ms, n, rfl⟩
    · contradiction
    · rw [List.concat_eq_append] at hns hlast
      have hn := (hns n (List.mem_append_right ms List.mem_cons_self)).1
      rw [render_concat, List.getLast?_append, List.getLast?_cons] at hlast
      simp only [Option.some_or, Option.some.injEq] at hlast
      cases hlast' : n.getLast? with
      | none => exact absurd (List.getLast?_eq_none_iff.mp hlast') hn.nonempty
      | some c =>
          rw [hlast', Option.getD_some] at hlast
          rw [hlast] at hlast'
          exact absurd (List.mem_of_getLast? hlast') hn.noSlash

end Mfs
end Dosemu
