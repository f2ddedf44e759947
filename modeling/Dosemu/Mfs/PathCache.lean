import Dosemu.Lib.MruMap
import Dosemu.Lib.Outcome
import Dosemu.Lib.Run
import Dosemu.Mfs.Paths

/-!
# The cache of resolved paths

`find_file` looks for a path regardless of the case of its names, and of names
that are mangled to fit DOS: it takes each name as it is or scans the directory
for one that matches.  A path that was found under other names is kept in a
dictionary, and the next call for it only makes sure that the names it was found
under still exist.

The host is an input of each call, so anything may happen to its files between
two calls.  Without the cache means with an empty dictionary.

Main results:

- Theorem `walk_variants`: names that differ only in case lead to the same file
  where no directory has two such names.
- Theorem `cache_transparent`: in a run, the cache does not show.
-/

namespace Dosemu
namespace Mfs
namespace PathCache

/-! ## The host -/

/-- What `stat` says; the mode decides whether a path can lead through it. -/
structure Stat where
  mode : BitVec 16

/-- `st_mode & S_IFDIR` -/
def Stat.IsDir (st : Stat) : Prop :=
  st.mode &&& 0x4000#16 ≠ 0

instance (st : Stat) : Decidable st.IsDir :=
  inferInstanceAs (Decidable (_ ≠ _))

/-- `struct mfs_dirent` -/
structure Entry where
  dName : Path
  dLongName : Path

/-- A file system.  A path leads through directories, and only directories can be read. -/
structure FileSystem where
  stat : Path → Option Stat
  readdir : Path → Option (List Entry)
  parent : ∀ dir name, dir ≠ [] → (stat (dir ++ '/' :: name)).isSome = true →
    ∃ st, stat dir = some st ∧ st.IsDir
  readable : ∀ dir, (readdir dir).isSome = true → ∃ st, stat dir = some st ∧ st.IsDir

/-- The host during a call: its files, the names that DOS must not see, the devices of DOS, and what
the stack of mangled names makes of a name. -/
structure Host extends FileSystem where
  inSfnBl : Path → Bool
  isDosDevice : Path → Bool
  unmangle : Path → Path

/-- How names are compared: which names of a directory a name is good for, and the case folding of
DOS. -/
structure Config where
  nameMatches : Path → Entry → Bool
  fold : Char → Char
  fold_slash : ∀ c, fold c = fold '/' → c = '/'
  fold_dot : ∀ c, fold c = fold '.' → c = '.'

/-- The directory that is scanned for a name. -/
def scanPath (path : Path) : Path :=
  if path = [] then ['/'] else path

/-- The entry is one that `scan_dir` takes for a name. -/
def fits (cfg : Config) (host : Host) (path name : Path) (e : Entry) : Bool :=
  cfg.nameMatches name e && !host.inSfnBl (path ++ '/' :: e.dName)

/-- `scan_dir`: whether a name was found, and what the name becomes. -/
def scanDir (cfg : Config) (host : Host) (rootLen : Nat) (path name : Path) : Bool × Path :=
  let path := scanPath path
  if path.length = rootLen ∧ (name = ['.'] ∨ name = ['.', '.']) then (false, name)
  else
    match host.readdir path with
    | none => (false, name)
    | some es =>
        match es.find? (fits cfg host path name) with
        | none => (false, host.unmangle name)
        | some e => (true, e.dName)

/-- The path taken as it is. -/
def existsAsIs (host : Host) (path : Path) : Option Stat :=
  if host.inSfnBl path then none else host.stat path

/-- Names behind a path. -/
def join (path : Path) (names : List Path) : Path :=
  names.foldl (fun p n => p ++ '/' :: n) path

/-- The loop of `find_file` over the names behind `slash1`: whether the path was found, what became
of it, and whether `PATH_NOT_FOUND` was stored. -/
def walk (cfg : Config) (host : Host) (rootLen : Nat) : Path → List Path → Bool × Path × Bool
  | path, [] => (true, path, false)
  | path, c :: cs =>
      match existsAsIs host (path ++ '/' :: c) with
      | some st =>
          if st.IsDir ∨ cs = [] then walk cfg host rootLen (path ++ '/' :: c) cs
          else (false, join (path ++ '/' :: c) cs, true)
      | none =>
          match scanDir cfg host rootLen path c with
          | (false, c) => (false, join (path ++ '/' :: c) cs, cs ≠ [])
          | (true, c) => walk cfg host rootLen (path ++ '/' :: c) cs

/-! ## The cache -/

/-- `prehash`, in a dictionary of 32 buckets. -/
def prehash (key : Path) : Nat :=
  (key.map Char.toNat).sum % 32

/-- `fpath_dict` -/
abbrev Dict := MruMap Path Path

/-- A call of `find_file`, and the host that it meets. -/
structure Call where
  fpath : Path
  rootLen : Nat
  host : Host

/-- What `find_file` returns, and what it leaves in its arguments. -/
structure Result where
  found : Bool
  fpath : Path
  st : Option Stat
  pathNotFound : Bool

/-- A device exists where its directory does. -/
def deviceExists (host : Host) (fpath : Path) : Bool :=
  if '/' ∈ fpath then
    match host.stat (cutLast fpath) with
    | none => false
    | some st => st.IsDir
  else true

/-- `find_file`; the second part is the dictionary. -/
def findFile (cfg : Config) (dict : Dict) (c : Call) : Option (Result × Dict) := do
  if c.host.isDosDevice c.fpath then
    return (⟨deviceExists c.host c.fpath, c.fpath, some ⟨0⟩, false⟩, dict)
  let (fp, dict) := dict.find prehash c.fpath
  let fpath ← (match fp with
    | none => some c.fpath
    | some value => do
        cAssert (value ≠ c.fpath)
        return value)
  if let some st := existsAsIs c.host fpath then
    return (⟨true, fpath, some st, false⟩, dict)
  let dict := if fp.isSome then dict.erase prehash c.fpath else dict
  if fpath.head? ≠ some '/' then
    return (⟨false, fpath, none, false⟩, dict)
  match walk cfg c.host c.rootLen (fpath.take (c.rootLen - 1))
      (components (fpath.drop c.rootLen)) with
  | (false, path, missing) => return (⟨false, path, none, missing⟩, dict)
  | (true, path, _) =>
      match c.host.stat path with
      | none => return (⟨false, path, none, false⟩, dict)
      | some st => return (⟨true, path, some st, false⟩, dict.add prehash fpath path)

/-- The dictionary after a call. -/
def step (cfg : Config) (dict : Dict) (c : Call) : Option Dict :=
  (findFile cfg dict c).map Prod.snd

/-! ## What the cache promises -/

/-- Paths that differ at most in the case of their letters. -/
def Config.SameCase (cfg : Config) (p q : Path) : Prop :=
  p.map cfg.fold = q.map cfg.fold

/-- The call returns, with the result and, up to case, the path that it has without the cache. -/
def Contract (cfg : Config) (dict : Dict) (c : Call) : Prop :=
  ∃ r d r₀ d₀, findFile cfg dict c = some (r, d) ∧ findFile cfg .empty c = some (r₀, d₀) ∧
    r.found = r₀.found ∧ cfg.SameCase r.fpath r₀.fpath

/-- An entry is in a directory. -/
def Host.Lists (host : Host) (path : Path) (e : Entry) : Prop :=
  ∃ es, host.readdir (scanPath path) = some es ∧ e ∈ es

/-- Along a path, names stand for those that differ from them in case, no directory has two of
these, each directory can be read, and nothing is hidden from DOS. -/
structure CaseOnly (cfg : Config) (host : Host) (fpath : Path) : Prop where
  matches_iff : ∀ path c cs e, cfg.SameCase fpath (join path (c :: cs)) → host.Lists path e →
    (cfg.nameMatches c e = true ↔ cfg.SameCase c e.dName)
  unique : ∀ path c cs e e', cfg.SameCase fpath (join path (c :: cs)) →
    host.Lists path e → host.Lists path e' → cfg.SameCase c e.dName → cfg.SameCase c e'.dName →
    e.dName = e'.dName
  listed : ∀ path c cs c', cfg.SameCase fpath (join path (c :: cs)) → c' ≠ c →
    cfg.SameCase c c' → (host.stat (path ++ '/' :: c)).isSome = true →
    ∃ e, host.Lists path e ∧ e.dName = c
  clean : ∀ path c cs, cfg.SameCase fpath (join path (c :: cs)) →
    host.inSfnBl (path ++ '/' :: c) = false ∧
      host.inSfnBl (scanPath path ++ '/' :: c) = false ∧ host.unmangle c = c

/-- Each name of the cached path is the only one in its directory that the name asked for is good
for, where that does not exist itself. -/
def Sole (cfg : Config) (host : Host) : Path → List Path → List Path → Prop
  | path, c :: cs, n :: ns =>
      (c = n ∨ host.stat (path ++ '/' :: c) = none ∧ c ≠ ['.'] ∧ c ≠ ['.', '.'] ∧
        (∃ e, host.Lists path e ∧ cfg.nameMatches c e = true ∧ e.dName = n) ∧
        ∀ e, host.Lists path e → cfg.nameMatches c e = true → e.dName = n) ∧
      host.inSfnBl (path ++ '/' :: n) = false ∧
      host.inSfnBl (scanPath path ++ '/' :: n) = false ∧
      Sole cfg host (path ++ '/' :: n) cs ns
  | _, [], [] => True
  | _, _, _ => False

/-- An absolute path in a drive, behind its root. -/
structure InDrive (rootLen : Nat) (top rest fpath : Path) : Prop where
  eq : fpath = top ++ '/' :: rest
  length : top.length + 1 = rootLen
  absolute : fpath.head? = some '/'

/-- The cached path can stand for the one asked for: they differ in case only, and so do all names
along them, or the cached path exists and nothing else can be meant. -/
def Current (cfg : Config) (c : Call) (value : Path) : Prop :=
  ∃ top rest rest', InDrive c.rootLen top rest c.fpath ∧ InDrive c.rootLen top rest' value ∧
    (cfg.SameCase c.fpath value ∧ CaseOnly cfg c.host c.fpath ∨
      (c.host.stat value).isSome = true ∧ Sole cfg c.host top (components rest) (components rest'))

/-- The path that `find_file` goes on with. -/
def target (dict : Dict) (c : Call) : Path :=
  (dict.find prehash c.fpath).1.getD c.fpath

/-- A call that the cache is good for.  It does not matter for devices.  Else no hidden file of the
host's root directory is looked for in a drive that begins there, and what is found in the cache is
current. -/
def Careful (cfg : Config) (dict : Dict) (c : Call) : Prop :=
  c.host.isDosDevice c.fpath = true ∨
    (c.host.inSfnBl (target dict c) = true → c.rootLen = 1 → '/' ∈ (target dict c).drop 1) ∧
    ∀ value, (dict.find prehash c.fpath).1 = some value → Current cfg c value

/-! ## Paths and their names -/

variable {cfg : Config} {host : Host} {rootLen : Nat} {p q top rest : Path}

@[simp]
theorem join_nil (p : Path) : join p [] = p :=
  rfl

@[simp]
theorem join_cons (p n : Path) (ns : List Path) : join p (n :: ns) = join (p ++ '/' :: n) ns :=
  rfl

theorem join_append (p q : Path) (ns : List Path) : join (p ++ q) ns = p ++ join q ns := by
  induction ns generalizing q with
  | nil => rfl
  | cons n ns ih => rw [join_cons, join_cons, List.append_assoc, ih]

theorem join_components (p s : Path) : join p (components s) = p ++ '/' :: s := by
  induction s generalizing p with
  | nil => rfl
  | cons c cs ih =>
      rw [components]
      split
      · next hc =>
          rw [join_cons, ih, hc, List.append_assoc]
          rfl
      · cases hcs : components cs with
        | nil => exact absurd hcs (components_ne_nil cs)
        | cons w ws =>
            have hih := ih []
            rw [hcs, join_cons, List.nil_append, List.nil_append, ← List.singleton_append,
              join_append] at hih
            have hrest : join w ws = cs := List.cons_injective hih
            dsimp only
            rw [join_cons, ← List.singleton_append (x := c), ← List.singleton_append (x := '/')]
            rw [← List.append_assoc, ← List.append_assoc, join_append, hrest]
            simp

theorem InDrive.take_eq (h : InDrive rootLen top rest p) : p.take (rootLen - 1) = top := by
  obtain ⟨rfl, rfl, -⟩ := h
  rw [Nat.add_sub_cancel, List.take_left]

theorem InDrive.drop_eq (h : InDrive rootLen top rest p) : p.drop rootLen = rest := by
  obtain ⟨rfl, rfl, -⟩ := h
  rw [List.drop_append]
  simp

theorem Config.SameCase.refl (cfg : Config) (p : Path) : cfg.SameCase p p :=
  rfl

theorem Config.SameCase.symm (h : cfg.SameCase p q) : cfg.SameCase q p :=
  Eq.symm h

theorem Config.SameCase.trans {r : Path} (h : cfg.SameCase p q) (h' : cfg.SameCase q r) :
    cfg.SameCase p r :=
  Eq.trans h h'

theorem Config.SameCase.append {p' q' : Path} (h : cfg.SameCase p q) (h' : cfg.SameCase p' q') :
    cfg.SameCase (p ++ '/' :: p') (q ++ '/' :: q') := by
  unfold Config.SameCase at *
  rw [List.map_append, List.map_append, List.map_cons, List.map_cons, h, h']

/-- Only a dot is a dot. -/
theorem Config.SameCase.eq_dots {n : Nat} (h : cfg.SameCase p (List.replicate n '.')) :
    p = List.replicate n '.' := by
  induction n generalizing p with
  | zero => exact List.map_eq_nil_iff.mp h
  | succ n ih =>
      unfold Config.SameCase at h
      rw [List.replicate_succ, List.map_cons] at h
      obtain ⟨c, cs, rfl, hc, hcs⟩ := List.map_eq_cons_iff.mp h
      rw [List.replicate_succ, cfg.fold_dot c hc, ih hcs]

/-- Names one by one, up to case. -/
def SameNames (cfg : Config) : List Path → List Path → Prop :=
  List.Forall₂ cfg.SameCase

theorem SameNames.join {cs cs' : List Path} (h : SameNames cfg cs cs') (hp : cfg.SameCase p q) :
    cfg.SameCase (join p cs) (join q cs') := by
  induction h generalizing p q with
  | nil => exact hp
  | cons hc _ ih => exact ih (hp.append hc)

/-- Paths that differ in case only have the same slashes. -/
theorem sameNames_components {s t : Path} (h : cfg.SameCase s t) :
    SameNames cfg (components s) (components t) := by
  induction s generalizing t with
  | nil =>
      obtain rfl := List.map_eq_nil_iff.mp h.symm
      exact List.Forall₂.cons rfl List.Forall₂.nil
  | cons c cs ih =>
      obtain ⟨d, ds, rfl, hd, hds⟩ := List.map_eq_cons_iff.mp h.symm
      have hslash : c = '/' ↔ d = '/' :=
        ⟨fun hc => cfg.fold_slash d (hc ▸ hd), fun hd' => cfg.fold_slash c (hd' ▸ hd.symm)⟩
      have hrest := ih (Eq.symm hds)
      rw [components, components]
      by_cases hc : c = '/'
      · rw [if_pos hc, if_pos (hslash.mp hc)]
        exact List.Forall₂.cons rfl hrest
      · rw [if_neg hc, if_neg (mt hslash.mpr hc)]
        cases hcs : components cs with
        | nil => exact absurd hcs (components_ne_nil cs)
        | cons w ws =>
            cases hds' : components ds with
            | nil => exact absurd hds' (components_ne_nil ds)
            | cons v vs =>
                rw [hcs, hds'] at hrest
                obtain ⟨hw, hws⟩ := List.forall₂_cons.mp hrest
                refine List.Forall₂.cons ?_ hws
                unfold Config.SameCase at *
                rw [List.map_cons, List.map_cons, hd, hw]

/-! ## Walks -/

variable {c n : Path} {cs ns : List Path}

/-- A path leads through directories. -/
theorem isDir_of_join (hp : p ≠ []) (hns : ns ≠ []) (h : (host.stat (join p ns)).isSome = true) :
    ∃ st, host.stat p = some st ∧ st.IsDir := by
  induction ns generalizing p with
  | nil => exact absurd rfl hns
  | cons n ns ih =>
      rw [join_cons] at h
      by_cases hrest : ns = []
      · subst hrest
        exact host.parent p n hp h
      · obtain ⟨st, hst, -⟩ := ih (by simp) hrest h
        exact host.parent p n hp (by rw [hst]; rfl)

/-- A name on the way to a path that exists is taken as it is, unless it is hidden. -/
theorem walk_cons_of_exists (hlen : cs.length = ns.length)
    (hst : (host.stat (join (p ++ '/' :: c) ns)).isSome = true)
    (hclean : host.inSfnBl (p ++ '/' :: c) = false) :
    walk cfg host rootLen p (c :: cs) = walk cfg host rootLen (p ++ '/' :: c) cs := by
  have hexists : ∃ st, host.stat (p ++ '/' :: c) = some st ∧ (st.IsDir ∨ cs = []) := by
    by_cases hns : ns = []
    · rw [hns] at hst hlen
      obtain ⟨st, hst⟩ := Option.isSome_iff_exists.mp hst
      exact ⟨st, hst, Or.inr (List.length_eq_zero_iff.mp hlen)⟩
    · obtain ⟨st, hst, hdir⟩ := isDir_of_join (by simp) hns hst
      exact ⟨st, hst, Or.inl hdir⟩
  obtain ⟨st, hst, hdir⟩ := hexists
  rw [walk, existsAsIs, if_neg (by rw [hclean]; exact Bool.false_ne_true), hst]
  exact if_pos hdir

/-- What a walk ends with is not hidden, unless it is in the root directory of the host. -/
theorem walk_not_hidden {b : Bool} (hroot : p = [] → 2 ≤ cs.length) (hcs : cs ≠ [])
    (h : walk cfg host rootLen p cs = (true, q, b)) : host.inSfnBl q = false := by
  induction cs generalizing p with
  | nil => exact absurd rfl hcs
  | cons c cs ih =>
      have hlast (n : Path) (hn : host.inSfnBl (p ++ '/' :: n) = false ∨ p = [])
          (hrest : walk cfg host rootLen (p ++ '/' :: n) cs = (true, q, b)) :
          host.inSfnBl q = false := by
        by_cases hnil : cs = []
        · subst hnil
          obtain ⟨rfl, -⟩ := Prod.mk.inj (Prod.mk.inj hrest).2
          refine hn.resolve_right fun hp => ?_
          exact absurd (hroot hp) (Nat.lt_irrefl 1)
        · exact ih (fun hp => absurd hp (by simp)) hnil hrest
      rw [walk] at h
      split at h
      · next st hexists =>
          split at h
          · refine hlast c (Or.inl ?_) h
            unfold existsAsIs at hexists
            split at hexists
            · cases hexists
            · next hbl => exact Bool.eq_false_of_not_eq_true hbl
          · cases h
      · split at h
        · cases h
        · next n hscan =>
            refine hlast n ?_ h
            by_cases hp : p = []
            · exact Or.inr hp
            · left
              unfold scanDir scanPath at hscan
              rw [if_neg hp] at hscan
              dsimp only at hscan
              split at hscan
              · cases hscan
              · split at hscan
                · cases hscan
                · split at hscan
                  · cases hscan
                  · next e hfind =>
                      obtain ⟨-, rfl⟩ := Prod.mk.inj hscan
                      have hfits : fits cfg host p c e = true := List.find?_some hfind
                      simpa using (Bool.and_eq_true_iff.mp hfits).2

/-- A scan for a name that is good for one entry only. -/
theorem scanDir_sole {es : List Entry} (hdots : c ≠ ['.'] ∧ c ≠ ['.', '.'])
    (hread : host.readdir (scanPath p) = some es)
    (hclean : host.inSfnBl (scanPath p ++ '/' :: n) = false)
    (hex : ∃ e ∈ es, cfg.nameMatches c e = true ∧ e.dName = n)
    (hall : ∀ e ∈ es, cfg.nameMatches c e = true → e.dName = n) :
    scanDir cfg host rootLen p c = (true, n) := by
  unfold scanDir
  dsimp only
  rw [if_neg (by tauto), hread]
  dsimp only
  cases hfind : es.find? (fits cfg host (scanPath p) c) with
  | none =>
      obtain ⟨e, he, hmatch, rfl⟩ := hex
      have hno := List.find?_eq_none.mp hfind e he
      rw [fits, hmatch, hclean] at hno
      exact absurd rfl hno
  | some e =>
      have hfits : fits cfg host (scanPath p) c e = true := List.find?_some hfind
      have hmatch := (Bool.and_eq_true_iff.mp hfits).1
      dsimp only
      rw [hall e (List.mem_of_find?_eq_some hfind) hmatch]

theorem Sole.length_eq (h : Sole cfg host p cs ns) : cs.length = ns.length := by
  induction cs generalizing p ns with
  | nil =>
      cases ns with
      | nil => rfl
      | cons n ns => exact h.elim
  | cons c cs ih =>
      cases ns with
      | nil => exact h.elim
      | cons n ns => exact congrArg Nat.succ (ih h.2.2.2)

/-- Where the cached names are the only ones meant, the walk leads to them. -/
theorem walk_sole (h : Sole cfg host p cs ns) (hst : (host.stat (join p ns)).isSome = true) :
    ∃ b, walk cfg host rootLen p cs = (true, join p ns, b) := by
  induction cs generalizing p ns with
  | nil =>
      cases ns with
      | nil => exact ⟨false, rfl⟩
      | cons n ns => exact h.elim
  | cons c cs ih =>
      cases ns with
      | nil => exact h.elim
      | cons n ns =>
          obtain ⟨hname, hclean, hclean', hrest⟩ := h
          have hlen := hrest.length_eq
          rcases hname with rfl | ⟨hgone, hdot, hdots, ⟨e, ⟨es, hread, he⟩, hmatch, rfl⟩, hall⟩
          · rw [walk_cons_of_exists hlen hst hclean]
            exact ih hrest hst
          · have hscan : scanDir cfg host rootLen p c = (true, e.dName) :=
              scanDir_sole ⟨hdot, hdots⟩ hread hclean' ⟨e, he, hmatch, rfl⟩
                fun e' he' => hall e' ⟨es, hread, he'⟩
            have hnone : existsAsIs host (p ++ '/' :: c) = none := by
              unfold existsAsIs
              rw [hgone, ite_self]
            rw [walk, hnone, hscan]
            exact ih hrest hst

/-! ## Names that differ in case only -/

variable {fpath c' : Path} {cs' : List Path} {e : Entry}

/-- Nothing is found behind a file. -/
theorem walk_of_file {st : Stat} (hp : p ≠ []) (hst : host.stat p = some st) (hfile : ¬st.IsDir)
    (hcs : cs ≠ []) :
    (walk cfg host rootLen p cs).1 = false ∧ (walk cfg host rootLen p cs).2.1 = join p cs := by
  have hnotDir : ¬∃ st, host.stat p = some st ∧ st.IsDir := by
    rintro ⟨st', hst', hdir⟩
    rw [hst] at hst'
    exact hfile (Option.some.inj hst' ▸ hdir)
  cases cs with
  | nil => exact absurd rfl hcs
  | cons c cs =>
      have hnone : existsAsIs host (p ++ '/' :: c) = none := by
        unfold existsAsIs
        split
        · rfl
        · exact Option.not_isSome_iff_eq_none.mp fun hsome => hnotDir (host.parent p c hp hsome)
      have hscan : scanDir cfg host rootLen p c = (false, c) := by
        unfold scanDir scanPath
        dsimp only
        rw [if_neg hp, Option.not_isSome_iff_eq_none.mp fun hsome =>
          hnotDir (host.readable p hsome)]
        exact ite_self _
      rw [walk, hnone, hscan]
      exact ⟨rfl, rfl⟩

/-- Along the path, `scan_dir` finds a name that differs in case. -/
theorem CaseOnly.scan_some (h : CaseOnly cfg host fpath)
    (halong : cfg.SameCase fpath (join p (c :: cs)))
    (hscan : scanDir cfg host rootLen p c = (true, n)) : cfg.SameCase c n := by
  unfold scanDir at hscan
  dsimp only at hscan
  split at hscan
  · cases hscan
  · split at hscan
    · cases hscan
    · next es hread =>
        split at hscan
        · cases hscan
        · next e hfind =>
            obtain ⟨-, rfl⟩ := Prod.mk.inj hscan
            have hfits : fits cfg host (scanPath p) c e = true := List.find?_some hfind
            exact (h.matches_iff p c cs e halong
              ⟨es, hread, List.mem_of_find?_eq_some hfind⟩).mp (Bool.and_eq_true_iff.mp hfits).1

theorem CaseOnly.scan_listed (h : CaseOnly cfg host fpath)
    (halong : cfg.SameCase fpath (join p (c :: cs))) (hdots : c ≠ ['.'] ∧ c ≠ ['.', '.'])
    (he : host.Lists p e) (hsame : cfg.SameCase c e.dName) :
    scanDir cfg host rootLen p c = (true, e.dName) := by
  obtain ⟨es, hread, hmem⟩ := he
  have hclean := h.clean p e.dName cs (halong.trans (SameNames.join
    (List.Forall₂.cons hsame (List.forall₂_same.mpr fun _ _ => rfl)) rfl))
  refine scanDir_sole hdots hread hclean.2.1
    ⟨e, hmem, (h.matches_iff p c cs e halong ⟨es, hread, hmem⟩).mpr hsame, rfl⟩
    fun e' hmem' hmatch => ?_
  have hsame' := (h.matches_iff p c cs e' halong ⟨es, hread, hmem'⟩).mp hmatch
  exact h.unique p c cs e' e halong ⟨es, hread, hmem'⟩ ⟨es, hread, hmem⟩ hsame' hsame

theorem CaseOnly.scan_missing (h : CaseOnly cfg host fpath)
    (halong : cfg.SameCase fpath (join p (c :: cs)))
    (hno : ∀ e, host.Lists p e → ¬cfg.SameCase c e.dName) :
    scanDir cfg host rootLen p c = (false, c) := by
  unfold scanDir
  dsimp only
  split
  · rfl
  · split
    · rfl
    · next es hread =>
        split
        · rw [(h.clean p c cs halong).2.2]
        · next e hfind =>
            have hfits : fits cfg host (scanPath p) c e = true := List.find?_some hfind
            have he : host.Lists p e := ⟨es, hread, List.mem_of_find?_eq_some hfind⟩
            exact absurd ((h.matches_iff p c cs e halong he).mp (Bool.and_eq_true_iff.mp hfits).1)
              (hno e he)

/-- Two walks end alike: with the same result, and at paths that differ in case only where nothing
was found. -/
def EndAlike (cfg : Config) (r r' : Bool × Path × Bool) : Prop :=
  r.1 = r'.1 ∧ cfg.SameCase r.2.1 r'.2.1 ∧ (r.1 = true → r.2.1 = r'.2.1)

/-- A name that has a variant goes to the entry of the directory that is one of its variants. -/
theorem CaseOnly.walk_listed (h : CaseOnly cfg host fpath) (rootLen : Nat)
    (halong : cfg.SameCase fpath (join p (c :: cs))) (hne : c' ≠ c) (hvariant : cfg.SameCase c c')
    (hdots : c ≠ ['.'] ∧ c ≠ ['.', '.']) (he : host.Lists p e) (hsame : cfg.SameCase c e.dName) :
    EndAlike cfg (walk cfg host rootLen p (c :: cs))
      (walk cfg host rootLen (p ++ '/' :: e.dName) cs) := by
  rw [walk]
  split
  · next st hexists =>
      have hst : host.stat (p ++ '/' :: c) = some st := by
        unfold existsAsIs at hexists
        split at hexists
        · cases hexists
        · exact hexists
      obtain ⟨e', he', hname⟩ := h.listed p c cs c' halong hne hvariant (by rw [hst]; rfl)
      have hself : e.dName = c :=
        (h.unique p c cs e e' halong he he' hsame (by rw [hname]; rfl)).trans hname
      rw [hself]
      split
      · exact ⟨rfl, rfl, fun _ => rfl⟩
      · next hfile =>
          obtain ⟨hfalse, hpath⟩ := walk_of_file (by simp) hst (mt Or.inl hfile) (mt Or.inr hfile)
          exact ⟨hfalse.symm, congrArg (List.map cfg.fold) hpath.symm, fun hno => by cases hno⟩
  · rw [h.scan_listed halong hdots he hsame]
    exact ⟨rfl, rfl, fun _ => rfl⟩

/-- A name with a variant, neither of which is in the directory. -/
theorem CaseOnly.walk_missing (h : CaseOnly cfg host fpath) (rootLen : Nat)
    (halong : cfg.SameCase fpath (join p (c :: cs))) (hne : c' ≠ c) (hvariant : cfg.SameCase c c')
    (hno : ∀ e, host.Lists p e → ¬cfg.SameCase c e.dName) :
    (walk cfg host rootLen p (c :: cs)).1 = false ∧
      (walk cfg host rootLen p (c :: cs)).2.1 = join p (c :: cs) := by
  have hnone : existsAsIs host (p ++ '/' :: c) = none := by
    unfold existsAsIs
    split
    · rfl
    · refine Option.not_isSome_iff_eq_none.mp fun hsome => ?_
      obtain ⟨e, he, rfl⟩ := h.listed p c cs c' halong hne hvariant hsome
      exact hno e he rfl
  rw [walk, hnone, h.scan_missing halong hno]
  exact ⟨rfl, rfl⟩

/-- Where no directory along the path has two names that differ in case only, it does not matter
which of them is asked for. -/
theorem walk_variants (h : CaseOnly cfg host fpath) (hcs : SameNames cfg cs cs')
    (halong : cfg.SameCase fpath (join p cs)) :
    EndAlike cfg (walk cfg host rootLen p cs) (walk cfg host rootLen p cs') := by
  induction hcs generalizing p with
  | nil => exact ⟨rfl, rfl, fun _ => rfl⟩
  | @cons c c' cs cs' hc hrest ih =>
      have hnil : cs = [] ↔ cs' = [] := by
        rw [← List.length_eq_zero_iff, ← List.length_eq_zero_iff, hrest.length_eq]
      have hthrough {n : Path} (hn : cfg.SameCase c n) :
          cfg.SameCase fpath (join p (n :: cs)) :=
        halong.trans (SameNames.join (List.Forall₂.cons hn (List.forall₂_same.mpr fun _ _ => rfl))
          rfl)
      by_cases heq : c' = c
      · subst heq
        rw [walk, walk]
        split
        · next st hexists =>
            by_cases hdir : st.IsDir ∨ cs = []
            · rw [if_pos hdir, if_pos (hdir.imp_right hnil.mp)]
              exact ih halong
            · rw [if_neg hdir, if_neg fun hdir' => hdir (hdir'.imp_right hnil.mpr)]
              exact ⟨rfl, SameNames.join hrest rfl, fun hno => by cases hno⟩
        · split
          · exact ⟨rfl, SameNames.join hrest rfl, fun hno => by cases hno⟩
          · next n hscan => exact ih (hthrough (h.scan_some halong hscan))
      · have halong' : cfg.SameCase fpath (join p (c' :: cs')) :=
          halong.trans (SameNames.join (List.Forall₂.cons hc hrest) rfl)
        by_cases hlisted : ∃ e, host.Lists p e ∧ cfg.SameCase c e.dName
        · obtain ⟨e, he, hsame⟩ := hlisted
          have hdots : c ≠ ['.'] ∧ c ≠ ['.', '.'] :=
            ⟨fun hdot => heq ((Config.SameCase.eq_dots (n := 1) (hdot ▸ hc.symm)).trans hdot.symm),
              fun hdot => heq ((Config.SameCase.eq_dots (n := 2) (hdot ▸ hc.symm)).trans hdot.symm)⟩
          have hdots' : c' ≠ ['.'] ∧ c' ≠ ['.', '.'] :=
            ⟨fun hdot => heq (hdot.trans (Config.SameCase.eq_dots (n := 1) (hdot ▸ hc)).symm),
              fun hdot => heq (hdot.trans (Config.SameCase.eq_dots (n := 2) (hdot ▸ hc)).symm)⟩
          have hleft := h.walk_listed rootLen halong heq hc hdots he hsame
          have hright := h.walk_listed rootLen halong' (Ne.symm heq) hc.symm hdots' he
            (hc.symm.trans hsame)
          have hmid := ih (hthrough hsame)
          have htrue := hleft.1.trans (hmid.1.trans hright.1.symm)
          refine ⟨htrue, hleft.2.1.trans (hmid.2.1.trans hright.2.1.symm), fun hfound => ?_⟩
          have hfound' := hleft.1.symm.trans hfound
          exact (hleft.2.2 hfound).trans
            ((hmid.2.2 hfound').trans (hright.2.2 (htrue.symm.trans hfound)).symm)
        · have hno : ∀ e, host.Lists p e → ¬cfg.SameCase c e.dName :=
            fun e he hsame => hlisted ⟨e, he, hsame⟩
          obtain ⟨hf, hpath⟩ := h.walk_missing rootLen halong heq hc hno
          obtain ⟨hf', hpath'⟩ := h.walk_missing rootLen halong' (Ne.symm heq) hc.symm
            fun e he hsame => hno e he (hc.trans hsame)
          refine ⟨hf.trans hf'.symm, ?_, fun hfound => ?_⟩
          · rw [hpath, hpath']
            exact SameNames.join (List.Forall₂.cons hc hrest) rfl
          · rw [hf] at hfound
            cases hfound

/-! ## What becomes of a path -/

/-- `find_file` behind the cache. -/
def resolve (cfg : Config) (host : Host) (rootLen : Nat) (fpath : Path) : Result :=
  match existsAsIs host fpath with
  | some st => ⟨true, fpath, some st, false⟩
  | none =>
      if fpath.head? ≠ some '/' then ⟨false, fpath, none, false⟩
      else
        match walk cfg host rootLen (fpath.take (rootLen - 1))
            (components (fpath.drop rootLen)) with
        | (false, path, missing) => ⟨false, path, none, missing⟩
        | (true, path, _) =>
            match host.stat path with
            | none => ⟨false, path, none, false⟩
            | some st => ⟨true, path, some st, false⟩

/-- A pair that a call has put into the dictionary. -/
def Added (cfg : Config) (c : Call) (k v : Path) : Prop :=
  existsAsIs c.host k = none ∧ k.head? = some '/' ∧ (c.host.stat v).isSome = true ∧
    ∃ b, walk cfg c.host c.rootLen (k.take (c.rootLen - 1)) (components (k.drop c.rootLen)) =
      (true, v, b)

/-- The cache only chooses the path that `find_file` goes on with. -/
theorem findFile_eq {dict : Dict} {c : Call} (hdev : c.host.isDosDevice c.fpath = false)
    (hne : ∀ value, (dict.find prehash c.fpath).1 = some value → value ≠ c.fpath) :
    ∃ d, findFile cfg dict c = some (resolve cfg c.host c.rootLen (target dict c), d) ∧
      ∀ k v, d.Mem k v → dict.Mem k v ∨ k = target dict c ∧ Added cfg c k v := by
  have hmem {d : Dict} (hd : d = (dict.find prehash c.fpath).2 ∨
      d = (dict.find prehash c.fpath).2.erase prehash c.fpath) (k v : Path) (h : d.Mem k v) :
      dict.Mem k v := by
    rcases hd with rfl | rfl
    · exact MruMap.mem_find h
    · exact MruMap.mem_find (MruMap.mem_erase h)
  have htarget : (match (dict.find prehash c.fpath).1 with
      | none => some c.fpath
      | some value => (do
          cAssert (value ≠ c.fpath)
          return value : Option Path)) = some (target dict c) := by
    unfold target
    cases hhit : (dict.find prehash c.fpath).1 with
    | none => rfl
    | some value => exact cAssert_bind (hne value hhit) _
  have hold (k v : Path) (h : (if (dict.find prehash c.fpath).1.isSome = true then
      (dict.find prehash c.fpath).2.erase prehash c.fpath
      else (dict.find prehash c.fpath).2).Mem k v) : dict.Mem k v := by
    split at h
    · exact hmem (Or.inr rfl) k v h
    · exact hmem (Or.inl rfl) k v h
  unfold findFile resolve
  rw [hdev, if_neg Bool.false_ne_true]
  dsimp only
  rw [htarget, Option.bind_eq_bind, Option.bind_some]
  cases hexists : existsAsIs c.host (target dict c) with
  | some st => exact ⟨_, rfl, fun k v h => Or.inl (hmem (Or.inl rfl) k v h)⟩
  | none =>
      dsimp only
      by_cases habs : (target dict c).head? = some '/'
      · rw [if_neg (not_not.mpr habs), if_neg (not_not.mpr habs)]
        rcases hwalk : walk cfg c.host c.rootLen ((target dict c).take (c.rootLen - 1))
          (components ((target dict c).drop c.rootLen)) with ⟨found, path, missing⟩
        cases found with
        | false => exact ⟨_, rfl, fun k v h => Or.inl (hold k v h)⟩
        | true =>
            dsimp only
            cases hst : c.host.stat path with
            | none => exact ⟨_, rfl, fun k v h => Or.inl (hold k v h)⟩
            | some st =>
                refine ⟨_, rfl, fun k v h => ?_⟩
                rcases MruMap.mem_add h with ⟨rfl, rfl⟩ | h
                · exact Or.inr ⟨rfl, hexists, habs, by rw [hst]; rfl, missing, hwalk⟩
                · exact Or.inl (hold k v h)
      · rw [if_pos habs, if_pos habs]
        exact ⟨_, rfl, fun k v h => Or.inl (hold k v h)⟩

/-- A string with a slash has two components at least. -/
theorem two_le_components {s : Path} (h : '/' ∈ s) : 2 ≤ (components s).length := by
  induction s with
  | nil => cases h
  | cons c cs ih =>
      rw [components]
      have hpos := List.length_pos_iff.mpr (components_ne_nil cs)
      split
      · rw [List.length_cons]
        omega
      · next hc =>
          have hcs := ih ((List.mem_cons.mp h).resolve_left fun heq => hc heq.symm)
          cases hw : components cs with
          | nil =>
              rw [hw] at hpos
              exact absurd hpos (Nat.lt_irrefl 0)
          | cons w ws =>
              rw [hw] at hcs
              exact hcs

/-- Nothing is cached under its own name. -/
theorem Added.ne {c : Call} {k v : Path} (h : Added cfg c k v)
    (hroot : c.host.inSfnBl k = true → c.rootLen = 1 → '/' ∈ k.drop 1) : v ≠ k := by
  rintro rfl
  obtain ⟨hgone, habs, hst, b, hwalk⟩ := h
  have hbl : c.host.inSfnBl v = true := by
    by_contra hno
    rw [existsAsIs, if_neg hno] at hgone
    rw [hgone] at hst
    cases hst
  have hhidden := walk_not_hidden (fun htop => two_le_components ?_) (components_ne_nil _) hwalk
  · rw [hbl] at hhidden
    cases hhidden
  · cases v with
    | nil => cases habs
    | cons x xs =>
        obtain rfl := Option.some.inj habs
        rcases Nat.lt_trichotomy c.rootLen 1 with hlt | heq | hgt
        · rw [Nat.lt_one_iff.mp hlt]
          exact List.mem_cons_self
        · rw [heq]
          exact hroot hbl heq
        · obtain ⟨m, hm⟩ : ∃ m, c.rootLen - 1 = m + 1 := ⟨c.rootLen - 2, by omega⟩
          rw [hm] at htop
          cases htop

/-- The cache holds no path under its own name. -/
def Inv (dict : Dict) : Prop :=
  ∀ k v, dict.Mem k v → v ≠ k

theorem Inv.hit_ne {dict : Dict} (h : Inv dict) {c : Call} {value : Path}
    (hhit : (dict.find prehash c.fpath).1 = some value) : value ≠ c.fpath :=
  h _ _ (MruMap.find_some hhit)

theorem step_inv {dict dict' : Dict} {c : Call} (h : Inv dict) (hok : Careful cfg dict c)
    (hstep : step cfg dict c = some dict') : Inv dict' := by
  obtain ⟨r, hr, rfl⟩ := Option.map_eq_some_iff.mp hstep
  cases hdev : c.host.isDosDevice c.fpath with
  | true =>
      unfold findFile at hr
      rw [hdev, if_pos rfl] at hr
      obtain rfl := Option.some.inj hr
      exact h
  | false =>
      obtain ⟨d, hrun, hmem⟩ := @findFile_eq cfg dict c hdev fun value => h.hit_ne
      obtain rfl := Option.some.inj (hr.symm.trans hrun)
      have hroot := (hok.resolve_left (by rw [hdev]; exact Bool.false_ne_true)).1
      intro k v hkv
      rcases hmem k v hkv with hkv | ⟨rfl, hadded⟩
      · exact h k v hkv
      · exact hadded.ne hroot

/-! ## The cached path and the one asked for -/

/-- A result and its path, as a walk ends with them. -/
def ended (host : Host) (r : Bool × Path × Bool) : Bool × Path :=
  (r.1 && (host.stat r.2.1).isSome, r.2.1)

theorem CaseOnly.walk_exists (h : CaseOnly cfg host fpath) (rootLen : Nat)
    (halong : cfg.SameCase fpath (join p cs)) (hst : (host.stat (join p cs)).isSome = true) :
    ∃ b, walk cfg host rootLen p cs = (true, join p cs, b) := by
  induction cs generalizing p with
  | nil => exact ⟨false, rfl⟩
  | cons c cs ih =>
      rw [walk_cons_of_exists rfl hst (h.clean p c cs halong).1]
      exact ih halong hst

/-- Along the path, what becomes of a name is what the walk makes of it, also where it exists as it
is. -/
theorem CaseOnly.resolve_eq (h : CaseOnly cfg host fpath) (hin : InDrive rootLen top rest p)
    (hsame : cfg.SameCase fpath p) :
    ((resolve cfg host rootLen p).found, (resolve cfg host rootLen p).fpath) =
      ended host (walk cfg host rootLen top (components rest)) := by
  have hjoin : join top (components rest) = p := (join_components top rest).trans hin.eq.symm
  unfold resolve
  split
  · next st hexists =>
      have hst : host.stat p = some st := by
        unfold existsAsIs at hexists
        split at hexists
        · cases hexists
        · exact hexists
      obtain ⟨b, hwalk⟩ := h.walk_exists rootLen (by rw [hjoin]; exact hsame)
        (by rw [hjoin, hst]; rfl)
      rw [hwalk, hjoin]
      simp [ended, hst]
  · rw [if_neg (not_not.mpr hin.absolute), hin.take_eq, hin.drop_eq]
    rcases walk cfg host rootLen top (components rest) with ⟨found, path, missing⟩
    cases found with
    | false => rfl
    | true =>
        dsimp only
        cases hst : host.stat path <;> simp [ended, hst]

theorem Sole.clean (h : Sole cfg host p cs ns) (hns : ns ≠ []) :
    host.inSfnBl (join p ns) = false := by
  induction ns generalizing p cs with
  | nil => exact absurd rfl hns
  | cons n ns ih =>
      cases cs with
      | nil => exact h.elim
      | cons c cs =>
          by_cases hrest : ns = []
          · rw [hrest]
            exact h.2.1
          · exact ih h.2.2.2 hrest

/-- Where the cached names are the only ones meant, others do not exist. -/
theorem Sole.gone (h : Sole cfg host p cs ns) (hne : cs ≠ ns) : host.stat (join p cs) = none := by
  induction cs generalizing p ns with
  | nil =>
      cases ns with
      | nil => exact absurd rfl hne
      | cons n ns => exact h.elim
  | cons c cs ih =>
      cases ns with
      | nil => exact h.elim
      | cons n ns =>
          obtain ⟨hname, -, -, hrest⟩ := h
          rcases hname with rfl | ⟨hgone, -⟩
          · exact ih hrest fun heq => hne (by rw [heq])
          · refine Option.not_isSome_iff_eq_none.mp fun hst => ?_
            by_cases hcs : cs = []
            · rw [hcs, join_cons, join_nil, hgone] at hst
              cases hst
            · obtain ⟨st, hst', -⟩ := isDir_of_join (by simp) hcs hst
              rw [hgone] at hst'
              cases hst'

theorem existsAsIs_of_clean {st : Stat} (hclean : host.inSfnBl p = false)
    (hst : host.stat p = some st) : existsAsIs host p = some st := by
  rw [existsAsIs, hclean, if_neg Bool.false_ne_true, hst]

/-- A cached path that is current stands for the one asked for. -/
theorem Current.resolve {c : Call} {value : Path} (h : Current cfg c value) :
    (resolve cfg c.host c.rootLen value).found =
        (resolve cfg c.host c.rootLen c.fpath).found ∧
      cfg.SameCase (resolve cfg c.host c.rootLen value).fpath
        (resolve cfg c.host c.rootLen c.fpath).fpath := by
  obtain ⟨top, rest, rest', hin, hin', hcase | hsole⟩ := h
  · obtain ⟨hsame, hcase⟩ := hcase
    have hrest : cfg.SameCase rest rest' := by
      have heq := hsame
      unfold Config.SameCase at heq
      rw [hin.eq, hin'.eq, List.map_append, List.map_append, List.map_cons, List.map_cons] at heq
      exact List.cons_injective (List.append_cancel_left heq)
    have hjoin : join top (components rest) = c.fpath :=
      (join_components top rest).trans hin.eq.symm
    obtain ⟨hfound, hpath, hequal⟩ := @walk_variants cfg c.host c.rootLen _ _ _ _ hcase
      (sameNames_components hrest) (by rw [hjoin]; exact .refl cfg _)
    obtain ⟨hf, hp⟩ := Prod.mk.inj (hcase.resolve_eq hin (.refl cfg _))
    obtain ⟨hf', hp'⟩ := Prod.mk.inj (hcase.resolve_eq hin' hsame)
    refine ⟨?_, ?_⟩
    · rw [hf, hf', ← hfound]
      cases hyes : (walk cfg c.host c.rootLen top (components rest)).1 with
      | false => rfl
      | true => rw [hequal hyes]
    · rw [hp, hp']
      exact hpath.symm
  · obtain ⟨hst, hsole⟩ := hsole
    by_cases heq : c.fpath = value
    · rw [heq]
      exact ⟨rfl, rfl⟩
    have hjoin : join top (components rest) = c.fpath :=
      (join_components top rest).trans hin.eq.symm
    have hjoin' : join top (components rest') = value :=
      (join_components top rest').trans hin'.eq.symm
    obtain ⟨st, hst'⟩ := Option.isSome_iff_exists.mp hst
    have hvalue : existsAsIs c.host value = some st := by
      refine existsAsIs_of_clean ?_ hst'
      rw [← hjoin']
      exact hsole.clean (components_ne_nil rest')
    have hgone : existsAsIs c.host c.fpath = none := by
      have hnone := hsole.gone fun hnames => heq (by rw [← hjoin, hnames, hjoin'])
      rw [hjoin] at hnone
      rw [existsAsIs, hnone, ite_self]
    obtain ⟨b, hwalk⟩ := @walk_sole cfg c.host c.rootLen top _ _ hsole (by rw [hjoin']; exact hst)
    unfold PathCache.resolve
    rw [hvalue, hgone]
    dsimp only
    rw [if_neg (not_not.mpr hin.absolute), hin.take_eq, hin.drop_eq, hwalk, hjoin']
    dsimp only
    rw [hst']
    exact ⟨rfl, rfl⟩

/-- A call that is careful cannot tell whether there is a cache. -/
theorem contract_of_careful {dict : Dict} {c : Call} (h : Inv dict) (hok : Careful cfg dict c) :
    Contract cfg dict c := by
  cases hdev : c.host.isDosDevice c.fpath with
  | true =>
      have hrun (d : Dict) : findFile cfg d c =
          some (⟨deviceExists c.host c.fpath, c.fpath, some ⟨0⟩, false⟩, d) := by
        unfold findFile
        rw [hdev, if_pos rfl]
        rfl
      exact ⟨_, _, _, _, hrun dict, hrun .empty, rfl, rfl⟩
  | false =>
      obtain ⟨d, hrun, -⟩ := @findFile_eq cfg dict c hdev fun value => h.hit_ne
      obtain ⟨d₀, hrun₀, -⟩ := @findFile_eq cfg .empty c hdev fun value hhit => by cases hhit
      refine ⟨_, _, _, _, hrun, hrun₀, ?_⟩
      have hcurrent := (hok.resolve_left (by rw [hdev]; exact Bool.false_ne_true)).2
      cases hhit : (dict.find prehash c.fpath).1 with
      | none =>
          rw [target, hhit]
          exact ⟨rfl, rfl⟩
      | some value =>
          rw [target, hhit]
          exact (hcurrent value hhit).resolve

/-- In a run, `find_file` answers as it would without the cache, and no assertion fails. -/
theorem cache_transparent (cfg : Config) (cs : List Call)
    (h : Run.Admits (step cfg) (Careful cfg) .empty cs) :
    Run.Admits (step cfg) (Contract cfg) .empty cs :=
  Run.admits_imp Inv (fun _ _ _ hinv hok hstep => step_inv hinv hok hstep)
    (fun _ _ hinv hok => contract_of_careful hinv hok) (fun _ _ hmem => absurd hmem
      MruMap.not_mem_empty) h

/-! ## Instances -/

/-- Fold the letters of ASCII. -/
def foldAscii (c : Char) : Char :=
  if 'a' ≤ c ∧ c ≤ 'z' then Char.ofNat (c.toNat - 32) else c

/-- Folding makes upper-case letters of lower-case ones and leaves the rest alone. -/
theorem foldAscii_eq {c d : Char} (hd : d.toNat < 65) (h : foldAscii c = d) : c = d := by
  unfold foldAscii at h
  split at h
  · next hc =>
      have hlow : 97 ≤ c.toNat := hc.1
      have hhigh : c.toNat ≤ 122 := hc.2
      have hvalid : (c.toNat - 32).isValidChar := Or.inl (by omega)
      rw [← h, Char.toNat, Char.ofNat, dif_pos hvalid] at hd
      have hval : (Char.ofNatAux (c.toNat - 32) hvalid).val.toNat = c.toNat - 32 := rfl
      omega
  · exact h

/-- The file system whose root directory holds only these files. -/
def rootFiles (ns : List Path) (hns : ∀ n ∈ ns, '/' ∉ n) : FileSystem where
  stat p := if p = ['/'] then some ⟨0x41ed#16⟩
    else if p.head? = some '/' ∧ p.tail ∈ ns then some ⟨0x81a4#16⟩ else none
  readdir p := if p = ['/'] then some (ns.map fun n => ⟨n, n⟩) else none
  parent dir name hdir hst := by
    by_cases hroot : dir ++ '/' :: name = ['/']
    · have hlen := congrArg List.length hroot
      rw [List.length_append, List.length_cons, List.length_singleton] at hlen
      exact absurd (List.length_eq_zero_iff.mp (by omega)) hdir
    · rw [if_neg hroot] at hst
      split at hst
      · next hfile =>
          refine absurd ?_ (hns _ hfile.2)
          cases dir with
          | nil => exact absurd rfl hdir
          | cons x xs => simp
      · cases hst
  readable dir h := by
    split at h
    · next hroot => exact ⟨⟨0x41ed#16⟩, if_pos hroot, by decide⟩
    · cases h

/-- A host with these files, where nothing is hidden or mangled. -/
def Host.ofFiles (ns : List Path) (hns : ∀ n ∈ ns, '/' ∉ n) : Host where
  toFileSystem := rootFiles ns hns
  inSfnBl _ := false
  isDosDevice _ := false
  unmangle n := n

/-- Names match regardless of case; `longf~a7.txt` is also good for the name that it is mangled
from. -/
def mangling : Config where
  nameMatches n e := n.map foldAscii = e.dName.map foldAscii ∨
    n.map foldAscii = ['L', 'O', 'N', 'G', 'F', '~', 'A', '7', '.', 'T', 'X', 'T'] ∧
      e.dLongName = ['l', 'o', 'n', 'g', 'f', 'i', 'l', 'e', 'n', 'a', 'm', 'e', '.', 't', 'x', 't']
  fold := foldAscii
  fold_slash _ h := foldAscii_eq (by decide) h
  fold_dot _ h := foldAscii_eq (by decide) h

/-- A call for a path in the drive of the root directory. -/
def inRoot (fpath : Path) (ns : List Path) (hns : ∀ n ∈ ns, '/' ∉ n) : Call :=
  ⟨fpath, 1, .ofFiles ns hns⟩

/-- Two calls for `/foo`, where there is `/FOO`. -/
def fooTwice : List Call :=
  List.replicate 2 (inRoot ['/', 'f', 'o', 'o'] [['F', 'O', 'O']] (by decide))

/-- The cache serves the second of two calls for `/foo`. -/
theorem cache_transparent_foo : Run.Admits (step mangling) (Contract mangling) .empty fooTwice := by
  refine cache_transparent mangling fooTwice ⟨Or.inr ⟨?_, ?_⟩, fun d hd => ⟨Or.inr ⟨?_, ?_⟩, ?_⟩⟩
  · intro hhidden
    cases hhidden
  · intro value hhit
    cases hhit
  · intro hhidden
    cases hhidden
  · intro value hhit
    obtain rfl : value = ['/', 'F', 'O', 'O'] := by
      have hdict := congrArg
        (fun o => o.map fun d : Dict => (d.find prehash ['/', 'f', 'o', 'o']).1) hd
      have hvalue : ((step mangling .empty (inRoot ['/', 'f', 'o', 'o'] [['F', 'O', 'O']]
          (by decide))).map fun d : Dict => (d.find prehash ['/', 'f', 'o', 'o']).1) =
            some (some ['/', 'F', 'O', 'O']) := by decide +kernel
      have heq := hdict.symm.trans hvalue
      exact Option.some.inj (hhit.symm.trans (Option.some.inj heq))
    refine ⟨[], ['f', 'o', 'o'], ['F', 'O', 'O'], ⟨rfl, rfl, rfl⟩, ⟨rfl, rfl, rfl⟩,
      Or.inr ⟨by decide, ?_⟩⟩
    refine ⟨Or.inr ⟨by decide, by decide, by decide, ?_, ?_⟩, rfl, rfl, trivial⟩
    · exact ⟨⟨['F', 'O', 'O'], ['F', 'O', 'O']⟩, ⟨_, rfl, List.mem_singleton.mpr rfl⟩, by decide,
        rfl⟩
    · rintro e ⟨es, hes, he⟩ -
      obtain rfl := Option.some.inj hes
      rw [List.mem_singleton.mp he]
  · exact fun _ _ => trivial

/-- A file that `longf~a7.txt` is mangled from. -/
def longFile : Path :=
  ['l', 'o', 'n', 'g', 'f', 'i', 'l', 'e', 'n', 'a', 'm', 'e', '.', 't', 'x', 't']

def shortFile : Path :=
  ['l', 'o', 'n', 'g', 'f', '~', 'a', '7', '.', 't', 'x', 't']

/-- Between two calls for `/longf~a7.txt`, which found another file by its mangled name, a file of
that very name is created. -/
def fileCreated : List Call :=
  [inRoot ('/' :: shortFile) [longFile] (by decide),
    inRoot ('/' :: shortFile) [longFile, shortFile] (by decide)]

/-- The cache still answers with the other file. -/
theorem cache_transparent_fails :
    ¬∀ (cfg : Config) (cs : List Call), Run.Admits (step cfg) (Contract cfg) .empty cs := by
  intro h
  have hcached : ((step mangling .empty (inRoot ('/' :: shortFile) [longFile] (by decide))).bind
      fun d => (findFile mangling d (inRoot ('/' :: shortFile) [longFile, shortFile]
        (by decide))).map fun r => r.1.fpath) = some ('/' :: longFile) := by decide +kernel
  have huncached : ((findFile mangling .empty (inRoot ('/' :: shortFile) [longFile, shortFile]
      (by decide))).map fun r => r.1.fpath) = some ('/' :: shortFile) := by decide +kernel
  obtain ⟨-, hrest⟩ := h mangling fileCreated
  obtain ⟨dict, hdict, hhit⟩ := Option.bind_eq_some_iff.mp hcached
  obtain ⟨⟨r, d, r₀, d₀, hr, hr₀, -, hsame⟩, -⟩ := hrest dict hdict
  rw [hr] at hhit
  rw [hr₀] at huncached
  have hpath : r.fpath = '/' :: longFile := Option.some.inj hhit
  have hpath₀ : r₀.fpath = '/' :: shortFile := Option.some.inj huncached
  have hfold : ('/' :: longFile).map foldAscii ≠ ('/' :: shortFile).map foldAscii := by decide
  rw [hpath, hpath₀] at hsame
  exact hfold hsame

end PathCache
end Mfs
end Dosemu
