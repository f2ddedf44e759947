import Dosemu.Mfs.Paths

/-!
# Normal forms of host paths

`normalize_path` starts with the current directory where its path is relative, and
adds a slash and a name for each component.  A current directory that is the root
already ends in a slash.

Main results:

- Theorem `foldl_length_le`: how long the string gets.
- Theorem `foldl_normStep_root`: the loop from the string `/`.
- Theorem `normalized_iff`: when the result is what it should be.
-/

namespace Dosemu
namespace Mfs
namespace Normalize

open PathWalk

/-! ## What the result should be -/

/-- The string that the loop starts with. -/
def start (cwd src : Path) : Path :=
  if src.head? = some '/' then [] else cwd

/-- The length that `malloc` is asked for; the source is not empty. -/
def bufferSize (cwd src : Path) : Nat :=
  if src.head? = some '/' then src.length + 1 else cwd.length + 1 + src.length + 1

/-- The string with its terminator is in the buffer in every round, and in the end. -/
def InBuffer (cwd src : Path) : Prop :=
  (∀ cs, cs <+: components src →
      (cs.foldl normStep (start cwd src)).length < bufferSize cwd src) ∧
    (normalizePath cwd src).length < bufferSize cwd src

/-- The names that the path leads to. -/
def resolution (cwd src : Path) : List Path :=
  walk (names (start cwd src)) (moves src)

/-- A path from the root, of proper names, with single slashes. -/
structure Canonical (p : Path) : Prop where
  head : p.head? = some '/'
  single : ¬['/', '/'] <:+: p
  proper : ∀ n ∈ names p, n ≠ ['.'] ∧ n ≠ ['.', '.']

/-- What `normalize_path` promises. -/
structure Normalized (cwd src : Path) : Prop where
  canonical : Canonical (normalizePath cwd src)
  inBuffer : InBuffer cwd src
  resolved : names (normalizePath cwd src) = resolution cwd src
  idempotent : normalizePath cwd (normalizePath cwd src) = normalizePath cwd src

/-- A relative path below the root, that does not go above it, and is not the root itself. -/
def BelowRoot (cwd src : Path) : Prop :=
  src.head? ≠ some '/' ∧ cwd = ['/'] ∧
    ∃ h, height 0 (moves src) = some h ∧ (h = 0 → src.getLast? = some '/')

/-! ## Lengths -/

variable {cwd src p : Path} {cs ns : List Path}

/-- What the components add to the string at most. -/
def weight (cs : List Path) : Nat :=
  (cs.map fun c => if c = [] then 0 else c.length + 1).sum

theorem length_cutLast_le (res : Path) : (cutLast res).length ≤ res.length := by
  rw [cutLast]
  split
  · have hle := (res.reverse.dropWhile_suffix (· ≠ '/')).length_le
    rw [List.length_reverse] at hle
    rw [List.length_reverse, List.length_drop]
    omega
  · exact le_rfl

theorem foldl_length_le (res : Path) :
    (cs.foldl normStep res).length ≤ res.length + weight cs := by
  induction cs generalizing res with
  | nil => exact le_rfl
  | cons c cs ih =>
      have hstep : (normStep res c).length ≤ res.length + if c = [] then 0 else c.length + 1 := by
        rw [normStep]
        split
        · exact (length_cutLast_le res).trans (Nat.le_add_right _ _)
        · split
          · exact Nat.le_add_right _ _
          · split
            next => exact Nat.le_add_right _ _
            next => rw [List.length_append, List.length_cons]
      have hrest := ih (normStep res c)
      rw [List.foldl_cons, weight, List.map_cons, List.sum_cons]
      rw [weight] at hrest
      omega

theorem weight_append (cs cs' : List Path) : weight (cs ++ cs') = weight cs + weight cs' := by
  rw [weight, weight, weight, List.map_append, List.sum_append]

theorem sum_components (s : Path) :
    ((components s).map fun c => c.length + 1).sum = s.length + 1 := by
  induction s with
  | nil => rfl
  | cons c s ih =>
      rw [components]
      split
      · rw [List.map_cons, List.sum_cons, ih, List.length_nil, List.length_cons]
        omega
      · cases hcs : components s with
        | nil => exact absurd hcs (components_ne_nil s)
        | cons w ws =>
            rw [hcs, List.map_cons, List.sum_cons] at ih
            simp only [List.map_cons, List.sum_cons, List.length_cons]
            omega

theorem weight_le (cs : List Path) : weight cs ≤ (cs.map fun c => c.length + 1).sum := by
  apply List.sum_le_sum
  intro c _
  split
  · exact Nat.zero_le _
  · exact le_rfl

/-- An empty component takes its slash, but adds nothing. -/
theorem weight_lt (h : [] ∈ cs) : weight cs < (cs.map fun c => c.length + 1).sum := by
  obtain ⟨front, back, rfl⟩ := List.append_of_mem h
  have hfront := weight_le front
  have hback := weight_le back
  rw [weight_append, List.map_append, List.sum_append, List.map_cons, List.sum_cons, weight,
    weight, List.map_cons, List.sum_cons, if_pos rfl, ← weight, ← weight, List.length_nil]
  omega

theorem weight_prefix_le {cs' : List Path} (h : cs <+: cs') : weight cs ≤ weight cs' := by
  obtain ⟨rest, rfl⟩ := h
  rw [weight_append]
  exact Nat.le_add_right _ _

theorem nil_mem_components (h : src.getLast? = some '/') : [] ∈ components src := by
  obtain ⟨p, rfl⟩ := List.getLast?_eq_some_iff.mp h
  rw [components_slash]
  exact List.mem_append_right _ List.mem_cons_self

/-- The components of a path from the root, less the one in front of the first slash. -/
theorem components_absolute (h : src.head? = some '/') :
    ∃ s, src = '/' :: s ∧ weight (components src) = weight (components s) := by
  obtain ⟨s, rfl⟩ := List.head?_eq_some_iff.mp h
  refine ⟨s, rfl, ?_⟩
  rw [components, if_pos rfl, weight, List.map_cons, List.sum_cons, if_pos rfl, Nat.zero_add]
  rfl

/-- A slash at the end, of a path from the root, adds nothing in the loop. -/
theorem weight_trailing {s : Path} (h : ('/' :: s).getLast? = some '/') :
    weight (components s) ≤ s.length := by
  cases s with
  | nil => exact le_rfl
  | cons c s =>
      rw [List.getLast?_cons_cons] at h
      have hlt := weight_lt (nil_mem_components h)
      rw [sum_components] at hlt
      exact Nat.le_of_lt_succ hlt

/-- The string stays in the buffer. -/
theorem inBuffer (hne : src ≠ []) : InBuffer cwd src := by
  have hpos : 0 < src.length := List.length_pos_iff.mpr hne
  have hsum := sum_components src
  have hround : ∀ cs, cs <+: components src → (cs.foldl normStep (start cwd src)).length ≤
      (start cwd src).length + weight (components src) := fun cs hcs =>
    (foldl_length_le _).trans (Nat.add_le_add_left (weight_prefix_le hcs) _)
  have hlast := hround (components src) List.prefix_rfl
  have hweight := weight_le (components src)
  by_cases habs : src.head? = some '/'
  · obtain ⟨s, rfl, hsame⟩ := components_absolute habs
    have hsums := sum_components s
    have hle := weight_le (components s)
    rw [start, if_pos habs, List.length_nil] at hround hlast
    rw [InBuffer, bufferSize, if_pos habs, start, if_pos habs, List.length_cons]
    constructor
    · intro cs hcs
      have hcs' := hround cs hcs
      omega
    · rw [normalizePath, if_pos habs]
      split
      next hslash =>
        rw [List.length_append, List.length_singleton]
        rcases hslash with hnil | hslash
        · rw [hnil, List.length_nil]
          omega
        · have htrailing := weight_trailing hslash
          omega
      next => omega
  · rw [start, if_neg habs] at hround hlast
    rw [InBuffer, bufferSize, if_neg habs, start, if_neg habs]
    constructor
    · intro cs hcs
      have hcs' := hround cs hcs
      omega
    · rw [normalizePath, if_neg habs]
      split
      next hslash =>
        rw [List.length_append, List.length_singleton]
        rcases hslash with hnil | hslash
        · rw [hnil, List.length_nil]
          omega
        · have hlt := weight_lt (nil_mem_components hslash)
          omega
      next => omega

/-! ## Strings of names -/

/-- A name that is no move of its own. -/
def Proper (n : Path) : Prop :=
  IsName n ∧ n ≠ ['.'] ∧ n ≠ ['.', '.']

/-- A walk along components leads to proper names. -/
theorem walk_proper (hcs : ∀ c ∈ cs, '/' ∉ c) (hns : ∀ n ∈ ns, Proper n) :
    ∀ n ∈ walk ns (cs.map fun c => if c = ['.', '.'] then .up else if c = ['.'] then .stay
      else if c = [] then .stay else .down c), Proper n := by
  induction cs generalizing ns with
  | nil => exact hns
  | cons c cs ih =>
      have hrest : ∀ d ∈ cs, '/' ∉ d := fun d hd => hcs d (List.mem_cons_of_mem c hd)
      rw [List.map_cons]
      by_cases hup : c = ['.', '.']
      · rw [if_pos hup]
        exact ih hrest fun n hn => hns n (List.mem_of_mem_dropLast hn)
      by_cases hdot : c = ['.']
      · rw [if_neg hup, if_pos hdot]
        exact ih hrest hns
      by_cases hnil : c = []
      · rw [if_neg hup, if_neg hdot, if_pos hnil]
        exact ih hrest hns
      · rw [if_neg hup, if_neg hdot, if_neg hnil]
        apply ih hrest
        intro n hn
        rcases List.mem_append.mp hn with hn | hn
        · exact hns n hn
        · rw [List.mem_singleton.mp hn]
          exact ⟨⟨hnil, hcs c List.mem_cons_self⟩, hdot, hup⟩

/-- A name in front of a string brings no two slashes in a row. -/
theorem single_append {n s : Path} (hn : '/' ∉ n) (hs : ¬['/', '/'] <:+: s) :
    ¬['/', '/'] <:+: n ++ s := by
  induction n with
  | nil => exact hs
  | cons c n ih =>
      rw [List.cons_append, List.infix_cons_iff]
      rintro (h | h)
      · have hc := (List.cons_prefix_cons.mp h).1
        exact hn (hc ▸ List.mem_cons_self)
      · exact ih (fun hmem => hn (List.mem_cons_of_mem c hmem)) h

/-- Between names there are single slashes. -/
theorem render_single (h : ∀ n ∈ ns, IsName n) : ¬['/', '/'] <:+: render ns ++ ['/'] := by
  induction ns with
  | nil =>
      intro hinfix
      exact absurd hinfix.length_le (by decide)
  | cons n ns ih =>
      have hn := h n List.mem_cons_self
      have hrest := ih fun m hm => h m (List.mem_cons_of_mem n hm)
      have hcons : render (n :: ns) ++ ['/'] = '/' :: (n ++ (render ns ++ ['/'])) := by
        simp [render]
      rw [hcons, List.infix_cons_iff]
      rintro (hstart | hinfix)
      · have htail := (List.cons_prefix_cons.mp hstart).2
        cases n with
        | nil => exact hn.nonempty rfl
        | cons c n =>
            have hc := (List.cons_prefix_cons.mp htail).1
            exact hn.noSlash (hc ▸ List.mem_cons_self)
      · exact single_append hn.noSlash hrest hinfix

/-- A string of proper names, with or without a slash at the end, leads to the names. -/
theorem walk_render (h : ∀ n ∈ ns, Proper n) :
    walk [] (moves (render ns)) = ns ∧ walk [] (moves (render ns ++ ['/'])) = ns := by
  have hrender : walk [] (moves (render ns)) = ns := by
    by_cases hnil : ns = []
    · rw [hnil]
      rfl
    · have hnormal : Normal (render ns) := ⟨ns, h, by rw [if_neg hnil]⟩
      rw [walk_moves_normal hnormal, names_render fun n hn => (h n hn).1]
  refine ⟨hrender, ?_⟩
  rw [moves_slash, walk_append, hrender]
  rfl

theorem render_eq_nil : render ns = [] ↔ ns = [] := by
  cases ns with
  | nil => exact iff_of_true rfl rfl
  | cons n ns => exact iff_of_false (List.cons_ne_nil _ _) (List.cons_ne_nil _ _)

/-- The end of `normalize_path`. -/
def finish (res src : Path) : Path :=
  if res = [] ∨ src.getLast? = some '/' then res ++ ['/'] else res

theorem normalizePath_eq (cwd src : Path) :
    normalizePath cwd src = finish ((components src).foldl normStep (start cwd src)) src :=
  rfl

theorem finish_cases (ns : List Path) (src : Path) :
    finish (render ns) src = render ns ++ ['/'] ∨ ns ≠ [] ∧ finish (render ns) src = render ns := by
  rw [finish]
  split
  next => exact .inl rfl
  next h =>
    refine .inr ⟨?_, rfl⟩
    intro hnil
    exact h (.inl (render_eq_nil.mpr hnil))

theorem head_render (h : ns ≠ []) (s : Path) : (render ns ++ s).head? = some '/' := by
  cases ns with
  | nil => contradiction
  | cons n ns => rfl

/-- A string of proper names is in its normal form, with or without a slash at the end. -/
theorem canonical_finish (hproper : ∀ n ∈ ns, Proper n) (src : Path) :
    Canonical (finish (render ns) src) ∧ names (finish (render ns) src) = ns ∧
      walk [] (moves (finish (render ns) src)) = ns := by
  have hname : ∀ n ∈ ns, IsName n := fun n hn => (hproper n hn).1
  have hsingle := render_single hname
  obtain ⟨hwalk, hwalk'⟩ := walk_render hproper
  have hnames : names (render ns ++ ['/']) = ns := by
    rw [names_slash, names_render hname]
    exact List.append_nil ns
  rcases finish_cases ns src with heq | ⟨hnil, heq⟩
  · rw [heq]
    refine ⟨⟨?_, hsingle, fun n hn => (hproper n (hnames ▸ hn)).2⟩, hnames, hwalk'⟩
    by_cases hnil : ns = []
    · rw [hnil]
      rfl
    · exact head_render hnil ['/']
  · rw [heq]
    have hnames' := names_render hname
    refine ⟨⟨?_, ?_, fun n hn => (hproper n (hnames' ▸ hn)).2⟩, hnames', hwalk⟩
    · rw [← List.append_nil (render ns)]
      exact head_render hnil []
    · exact fun h => hsingle (h.trans (List.prefix_append _ _).isInfix)

/-- The normal form of a normal form is the same. -/
theorem normalize_finish (hproper : ∀ n ∈ ns, Proper n) (cwd src : Path) :
    normalizePath cwd (finish (render ns) src) = finish (render ns) src := by
  obtain ⟨hcanonical, -, hwalk⟩ := canonical_finish hproper src
  obtain ⟨ms, -, hfold, hms⟩ := @foldl_normStep [] (components (finish (render ns) src))
    components_noSlash fun n hn => absurd hn List.not_mem_nil
  have hsame : ms = ns := hms.trans hwalk
  rw [hsame] at hfold
  rw [normalizePath_eq, start, if_pos hcanonical.head]
  change (components (finish (render ns) src)).foldl normStep [] = render ns at hfold
  rw [hfold]
  rcases finish_cases ns src with heq | ⟨hnil, heq⟩
  · rw [heq, finish, if_pos (.inr (List.getLast?_concat))]
  · have hnormal : Normal (render ns) := ⟨ns, hproper, by rw [if_neg hnil]⟩
    rw [heq, finish, if_neg]
    rintro (hempty | hlast)
    · exact hnil (render_eq_nil.mp hempty)
    · have hroot := hnormal.getLast hlast
      have hnames := names_render fun n hn => (hproper n hn).1
      rw [hroot] at hnames
      exact hnil hnames.symm

/-- Where the loop leaves a string of names, the result is what it should be. -/
theorem normalized_of_render (hproper : ∀ n ∈ ns, Proper n)
    (hfold : (components src).foldl normStep (start cwd src) = render ns)
    (hwalk : ns = resolution cwd src) (hne : src ≠ []) : Normalized cwd src := by
  obtain ⟨hcanonical, hnames, -⟩ := canonical_finish hproper src
  have hresult : normalizePath cwd src = finish (render ns) src := by
    rw [normalizePath_eq, hfold]
  constructor
  · rw [hresult]
    exact hcanonical
  · exact inBuffer hne
  · rw [hresult, hnames, hwalk]
  · rw [hresult]
    exact normalize_finish hproper cwd src

/-! ## The current directory -/

/-- Cutting a string with a slash in front. -/
theorem cutLast_slash_render (h : ∀ n ∈ ns, IsName n) (hnil : ns ≠ []) :
    cutLast ('/' :: render ns) = '/' :: render ns.dropLast := by
  rcases List.eq_nil_or_concat ns with heq | ⟨ms, n, rfl⟩
  · exact absurd heq hnil
  · have hmem : '/' ∈ render (ms.concat n) := by
      rw [List.concat_eq_append, render_concat]
      exact List.mem_append_right _ List.mem_cons_self
    have hcut := cutLast_render h
    rw [cutLast, if_pos hmem] at hcut
    have hdrop : (render (ms.concat n)).reverse.dropWhile (· ≠ '/') ≠ [] := by
      intro hempty
      rw [List.dropWhile_eq_nil_iff] at hempty
      have hslash := hempty '/' (List.mem_reverse.mpr hmem)
      exact absurd hslash (by decide)
    cases htail : (render (ms.concat n)).reverse.dropWhile (· ≠ '/') with
    | nil => exact absurd htail hdrop
    | cons c back =>
        rw [htail, List.drop_one, List.tail_cons] at hcut
        rw [cutLast, if_pos (List.mem_cons_of_mem _ hmem), List.reverse_cons,
          List.dropWhile_append, htail, List.isEmpty_cons, if_neg Bool.false_ne_true,
          List.cons_append, List.drop_one, List.tail_cons, List.reverse_append, hcut]
        rfl

/-- The moves that a list of components stands for. -/
def steps (cs : List Path) : List (Move Path) :=
  cs.map fun c =>
    if c = ['.', '.'] then .up else if c = ['.'] then .stay else if c = [] then .stay else .down c

/-- The slash of the root stays in front until a component goes above the root. -/
theorem foldl_normStep_root (hcs : ∀ c ∈ cs, '/' ∉ c) (hns : ∀ n ∈ ns, Proper n) :
    (∃ h, height ns.length (steps cs) = some h ∧ (walk ns (steps cs)).length = h ∧
      cs.foldl normStep ('/' :: render ns) = '/' :: render (walk ns (steps cs))) ∨
    (height ns.length (steps cs) = none ∧
      cs.foldl normStep ('/' :: render ns) = render (walk ns (steps cs))) := by
  induction cs generalizing ns with
  | nil => exact .inl ⟨ns.length, rfl, rfl, rfl⟩
  | cons c cs ih =>
      have hrest : ∀ d ∈ cs, '/' ∉ d := fun d hd => hcs d (List.mem_cons_of_mem c hd)
      have hname : ∀ n ∈ ns, IsName n := fun n hn => (hns n hn).1
      rw [List.foldl_cons, steps, List.map_cons, normStep, ← steps]
      by_cases hup : c = ['.', '.']
      · rw [if_pos hup, if_pos hup]
        by_cases hnil : ns = []
        · -- the slash itself is cut off, and the rest of the loop starts with no string
          rw [hnil]
          refine .inr ⟨rfl, ?_⟩
          obtain ⟨ms, -, hfold, hms⟩ := @foldl_normStep [] cs hrest fun n hn => by cases hn
          change cs.foldl normStep (render []) = _
          rw [hfold, hms]
          rfl
        · rw [cutLast_slash_render hname hnil]
          have hlen : ns.length = ns.dropLast.length + 1 := by
            have hpos := List.length_pos_iff.mpr hnil
            rw [List.length_dropLast]
            omega
          rw [hlen]
          exact ih hrest fun n hn => hns n (List.mem_of_mem_dropLast hn)
      by_cases hdot : c = ['.']
      · rw [if_neg hup, if_pos hdot, if_neg hup, if_pos hdot]
        exact ih hrest hns
      by_cases hempty : c = []
      · rw [if_neg hup, if_neg hdot, if_pos hempty, if_neg hup, if_neg hdot, if_pos hempty]
        exact ih hrest hns
      · rw [if_neg hup, if_neg hdot, if_neg hempty, if_neg hup, if_neg hdot, if_neg hempty,
          List.cons_append, ← render_concat]
        have hproper : ∀ n ∈ ns ++ [c], Proper n := by
          intro n hn
          rcases List.mem_append.mp hn with hn | hn
          · exact hns n hn
          · rw [List.mem_singleton.mp hn]
            exact ⟨⟨hempty, hcs c List.mem_cons_self⟩, hdot, hup⟩
        have hnext := ih hrest hproper
        rw [List.length_append, List.length_singleton] at hnext
        exact hnext

/-- From a string of proper names, the loop leaves a string of proper names. -/
theorem normalized_of_start (hns : ∀ n ∈ ns, Proper n) (hstart : start cwd src = render ns)
    (hne : src ≠ []) : Normalized cwd src := by
  have hname : ∀ n ∈ ns, IsName n := fun n hn => (hns n hn).1
  obtain ⟨ms, -, hfold, hwalk⟩ := foldl_normStep (components_noSlash (s := src)) hname
  have hproper := walk_proper (components_noSlash (s := src)) hns
  rw [← hwalk] at hproper
  apply normalized_of_render hproper
  · rw [hstart, hfold]
  · rw [resolution, hstart, names_render hname, hwalk]
    rfl
  · exact hne

/-- A path that has come back to the root, and does not end in a slash. -/
theorem normalized_of_root (hresult : normalizePath cwd src = ['/'])
    (hresolution : resolution cwd src = []) (hne : src ≠ []) : Normalized cwd src := by
  constructor
  · rw [hresult]
    exact ⟨rfl, fun h => absurd h.length_le (by decide), fun n hn => by cases hn⟩
  · exact inBuffer hne
  · rw [hresult, hresolution]
    rfl
  · rw [hresult]
    rfl

/-- Two slashes in front. -/
theorem not_normalized {s : Path} (hresult : normalizePath cwd src = '/' :: '/' :: s) :
    ¬Normalized cwd src := by
  intro h
  have hsingle := h.canonical.single
  rw [hresult] at hsingle
  have hprefix : ['/', '/'] <+: '/' :: '/' :: s := ⟨s, rfl⟩
  exact hsingle hprefix.isInfix

/-- `normalize_path` gives the normal form, unless it adds a component to the root. -/
theorem normalized_iff (hcwd : Normal cwd) (hne : src ≠ []) :
    Normalized cwd src ↔ ¬BelowRoot cwd src := by
  by_cases habs : src.head? = some '/'
  · refine iff_of_true ?_ fun hbelow => hbelow.1 habs
    apply @normalized_of_start _ _ [] (fun n hn => by cases hn) _ hne
    rw [start, if_pos habs]
    rfl
  by_cases hroot : cwd = ['/']
  · have hstart : start cwd src = ['/'] := by
      rw [start, if_neg habs, hroot]
    have hresolution : resolution cwd src = walk [] (steps (components src)) := by
      rw [resolution, hstart]
      rfl
    have hresult := normalizePath_eq cwd src
    rw [hstart] at hresult
    rcases @foldl_normStep_root (components src) [] components_noSlash (fun n hn => by cases hn)
      with ⟨h, hheight, hlen, hfold⟩ | ⟨hheight, hfold⟩
    · change (components src).foldl normStep ['/'] = _ at hfold
      rw [hfold, finish] at hresult
      rcases Nat.eq_zero_or_pos h with hzero | hpos
      · have hnil : walk [] (steps (components src)) = [] :=
          List.length_eq_zero_iff.mp (hlen.trans hzero)
        rw [hnil] at hresult hresolution
        by_cases hlast : src.getLast? = some '/'
        · rw [if_pos (.inr hlast)] at hresult
          exact iff_of_false (not_normalized hresult)
            fun hbelow => hbelow ⟨habs, hroot, h, hheight, fun _ => hlast⟩
        · rw [if_neg (fun hor => hor.elim (List.cons_ne_nil _ _) hlast)] at hresult
          refine iff_of_true (normalized_of_root hresult hresolution hne) ?_
          rintro ⟨-, -, h', hheight', hslash⟩
          have hsame : h' = h := Option.some.inj (hheight'.symm.trans hheight)
          exact hlast (hslash (hsame.trans hzero))
      · have hbelow : BelowRoot cwd src :=
          ⟨habs, hroot, h, hheight, fun hzero => absurd hzero hpos.ne'⟩
        refine iff_of_false ?_ fun hnot => hnot hbelow
        cases hwalk : walk [] (steps (components src)) with
        | nil =>
            rw [hwalk, List.length_nil] at hlen
            exact absurd hlen hpos.ne
        | cons n ns =>
            rw [hwalk] at hresult
            split at hresult
            · exact not_normalized hresult
            · exact not_normalized hresult
    · change (components src).foldl normStep ['/'] = _ at hfold
      refine iff_of_true ?_ ?_
      · apply @normalized_of_render _ _ (walk [] (steps (components src)))
        · exact walk_proper components_noSlash fun n hn => by cases hn
        · rw [hstart, hfold]
        · rw [hresolution]
        · exact hne
      · rintro ⟨-, -, h', hheight', -⟩
        exact absurd (hheight.symm.trans hheight') nofun
  · obtain ⟨ns, hns, hrender⟩ := hcwd
    have hnil : ns ≠ [] := by
      intro hnil
      rw [if_pos hnil] at hrender
      exact hroot hrender
    rw [if_neg hnil] at hrender
    refine iff_of_true ?_ fun hbelow => hroot hbelow.2.1
    apply normalized_of_start hns _ hne
    rw [start, if_neg habs, hrender]

theorem normalized_iff_parent :
    Normalized ['/', 'x'] ['a', '/', '.', '.'] ↔ ¬BelowRoot ['/', 'x'] ['a', '/', '.', '.'] := by
  apply normalized_iff
  · refine ⟨[['x']], ?_, rfl⟩
    intro n hn
    rw [List.mem_singleton.mp hn]
    exact ⟨⟨by decide, by decide⟩, by decide, by decide⟩
  · exact List.cons_ne_nil _ _

/-- In the root directory, `a` becomes `//a`. -/
theorem doubled_slash : Normal ['/'] ∧ normalizePath ['/'] ['a'] = ['/', '/', 'a'] ∧
    ¬Normalized ['/'] ['a'] := by
  have hresult : normalizePath ['/'] ['a'] = ['/', '/', 'a'] := rfl
  exact ⟨⟨[], fun n hn => (by cases hn), rfl⟩, hresult, not_normalized hresult⟩

end Normalize
end Mfs
end Dosemu
