import Dosemu.Mfs.Paths
import Dosemu.Mfs.WildMatch

/-!
# Deleting with wildcards

`wildcard_delete` of `lfn.c`.  One buffer holds the directory and the pattern
behind it; `find_file` writes the true names of the directory into it, and the
pattern is taken from behind what it left there.

Main definitions:

- `wildcardDelete`: the function, with the entries that it removed.
- `Exact`: the entries that are removed are the files that the pattern is for.
- `Agrees`: when that is so.

Main results:

- Theorem `deleteLoop_removed`: the entries that the loop removes.
- Theorem `deleteFound_exact_iff`: when the removal is exact, for a pattern that
  need not be the one that was given.
- Theorem `wildcardDelete_exact_iff`: the same for the whole function.
- Theorem `taken_of_kept`: when the pattern is the one that was given.
-/

namespace Dosemu
namespace Mfs
namespace WildDelete

open WildMatch

/-! ## The code -/

/-- The terminator of a string. -/
def nul : Char := Char.ofNat 0

/-- `struct mfs_dirent`, and whether the host has a directory there. -/
structure Entry where
  dName : Path
  dLongName : Path
  isDir : Bool
  deriving DecidableEq

/-- The host: what `find_file` makes of the buffer when it finds the path, the entries that
`dos_readdir` gives, the answer of `dos_unlink_lfn`, and the names as DOS sees them.  No host
unlinks a directory. -/
structure Host where
  findFile : List Char → Option (List Char)
  isDosDevice : Path → Bool
  opendir : Path → Option (List Entry)
  unlink : Path → Int
  nameUfsToDos : Path → List Byte
  lfn : Path → List Byte
  sfn : Path → List Byte
  highUpper : Byte → Byte
  unlink_dir : ∀ dir es, opendir dir = some es →
    ∀ e ∈ es, e.isDir = true → unlink (dir ++ '/' :: e.dLongName) ≠ 0

def fileNotFound : Int := 2

def pathNotFound : Int := 3

theorem zero_ne_fileNotFound : 0 ≠ fileNotFound := by
  decide

/-- The string at a place of the buffer; there is a terminator behind the buffer. -/
def strAt (buf : List Char) (i : Nat) : Path :=
  (buf.drop i).takeWhile (· ≠ nul)

def strcpy (buf : List Char) (i : Nat) (s : Path) : List Char :=
  buf.take i ++ s ++ nul :: buf.drop (i + s.length + 1)

/-- `strrchr(s, '/')` -/
def strrchr : Path → Option Nat
  | [] => none
  | c :: s =>
      match strrchr s with
      | some i => some (i + 1)
      | none => if c = '/' then some 0 else none

/-- `wild_match` returns something else than zero. -/
def mismatch (host : Host) (pattern name : List Byte) : Bool :=
  match wildMatch (toupperDOS host.highUpper) pattern name with
  | some (rc, _) => rc ≠ 0
  | none => true

/-- `lfn_sfn_match`; zero is a match. -/
def lfnSfnMatch (host : Host) (pattern : List Byte) (de : Entry) : Bool :=
  mismatch host pattern (host.lfn de.dLongName) && mismatch host pattern (host.sfn de.dName)

/-- The file that an entry of the directory `dir` stands for. -/
def filePath (dir : Path) (de : Entry) : Path :=
  dir ++ '/' :: de.dLongName

/-- `(dirattr >> 8) & DIRECTORY` -/
def wantsDirs (dirattr : BitVec 16) : Bool :=
  (dirattr >>> 8) &&& 0x10#16 ≠ 0

/-- The loop over the directory: the entries that are removed, and `doserr`. -/
def deleteLoop (host : Host) (dirattr : BitVec 16) (dir : Path) (pattern : List Byte) :
    Int → List Entry → List Entry × Int
  | doserr, [] => ([], doserr)
  | doserr, de :: es =>
      if lfnSfnMatch host pattern de = false then
        if wantsDirs dirattr then deleteLoop host dirattr dir pattern doserr es
        else
          let doserr := host.unlink (filePath dir de)
          if doserr ≠ 0 then ([], doserr)
          else
            let (removed, err) := deleteLoop host dirattr dir pattern 0 es
            (de :: removed, err)
      else deleteLoop host dirattr dir pattern doserr es

/-- The pattern as the entries are compared with it. -/
def dosPattern (host : Host) (pattern : Path) : List Byte :=
  (host.nameUfsToDos pattern).map (toupperDOS host.highUpper)

/-- The slash where the directory is cut off, in front of a `.` at its end. -/
def cutSlash (path : Path) (slash : Nat) : Nat :=
  if 2 < slash ∧ path[slash - 2]? = some '/' ∧ path[slash - 1]? = some '.' then slash - 2 else slash

/-- The buffer that `find_file` gets. -/
def cutPath (fpath : List Char) (slash : Nat) : List Char :=
  if slash = 0 then strcpy (fpath.set slash nul) 0 ['/'] else fpath.set slash nul

/-- `wildcard_delete` behind `find_file`, which left `fpath`. -/
def deleteFound (host : Host) (dirattr : BitVec 16) (slash : Nat) (fpath : List Char) :
    List Entry × Int :=
  if host.isDosDevice (strAt fpath (slash + 1)) then ([], pathNotFound)
  else
    let dir := strAt fpath 0
    match host.opendir dir with
    | none => ([], pathNotFound)
    | some es =>
        let pattern := dosPattern host (strAt fpath (dir.length + 1))
        deleteLoop host dirattr dir pattern fileNotFound es

/-- `wildcard_delete`, with what it removes and the error; `none` is a path without a slash. -/
def wildcardDelete (host : Host) (dirattr : BitVec 16) (fpath : List Char) :
    Option (List Entry × Int) :=
  let path := strAt fpath 0
  match strrchr path with
  | none => none
  | some slash =>
      let slash := cutSlash path slash
      match host.findFile (cutPath fpath slash) with
      | none => some ([], pathNotFound)
      | some fpath => some (deleteFound host dirattr slash fpath)

/-! ## What is asked for -/

/-- A path that ends in a pattern, in its buffer. -/
structure Request where
  dir : Path
  given : Path
  behind : List Char
  dir_nul : nul ∉ dir
  given_nul : nul ∉ given
  given_slash : '/' ∉ given

def Request.fpath (r : Request) : List Char :=
  r.dir ++ '/' :: r.given ++ nul :: r.behind

/-- Where the directory is cut off. -/
def Request.slash (r : Request) : Nat :=
  cutSlash (r.dir ++ '/' :: r.given) r.dir.length

/-- The buffer that `find_file` leaves. -/
def Request.found (r : Request) (host : Host) : Option (List Char) :=
  host.findFile (cutPath r.fpath r.slash)

/-- A file that the pattern is for. -/
def Wanted (host : Host) (given : Path) (e : Entry) : Prop :=
  e.isDir = false ∧ lfnSfnMatch host (dosPattern host given) e = false

/-- Success removes the files that are wanted, and a file is not found only where none is. -/
def ExactIn (host : Host) (given : Path) (es : List Entry) (result : List Entry × Int) : Prop :=
  (result.2 = 0 → ∀ e, e ∈ result.1 ↔ e ∈ es ∧ Wanted host given e) ∧
    (result.2 = fileNotFound → ∀ e ∈ es, ¬Wanted host given e)

/-- The call is exact in the directory that the path leads to. -/
def Exact (host : Host) (dirattr : BitVec 16) (r : Request) : Prop :=
  ∃ result, wildcardDelete host dirattr r.fpath = some result ∧
    ∀ buf es, r.found host = some buf → host.opendir (strAt buf 0) = some es →
      ExactIn host r.given es result

/-- An entry that the loop tries to remove in vain. -/
def resists (host : Host) (dir : Path) (pattern : List Byte) (e : Entry) : Bool :=
  !lfnSfnMatch host pattern e && host.unlink (filePath dir e) != 0

/-- When the removal with the pattern `taken` is exact for the pattern `given`. -/
def Agrees (host : Host) (dirattr : BitVec 16) (dir given taken : Path) (es : List Entry) : Prop :=
  if wantsDirs dirattr then ∀ e ∈ es, ¬Wanted host given e
  else
    match es.find? (resists host dir (dosPattern host taken)) with
    | some e => host.unlink (filePath dir e) = fileNotFound → ∀ e ∈ es, ¬Wanted host given e
    | none => ∀ e ∈ es, e.isDir = false →
        lfnSfnMatch host (dosPattern host given) e = lfnSfnMatch host (dosPattern host taken) e

/-! ## The loop -/

section Loop

variable {host : Host} {dirattr : BitVec 16} {dir : Path} {pattern : List Byte} {doserr : Int}
  {es : List Entry}

/-- Where directories are asked for, nothing is removed. -/
theorem deleteLoop_dirs (h : wantsDirs dirattr = true) :
    deleteLoop host dirattr dir pattern doserr es = ([], doserr) := by
  induction es generalizing doserr with
  | nil => rfl
  | cons e es ih =>
      rw [deleteLoop, if_pos h, ite_self]
      exact ih

/-- An entry that resists ends the loop with its error. -/
theorem deleteLoop_stopped {e : Entry} (h : wantsDirs dirattr = false)
    (hfind : es.find? (resists host dir pattern) = some e) :
    (deleteLoop host dirattr dir pattern doserr es).2 = host.unlink (filePath dir e) := by
  induction es generalizing doserr with
  | nil => cases hfind
  | cons e' es ih =>
      rw [List.find?_cons] at hfind
      rw [deleteLoop, h]
      cases hmatch : lfnSfnMatch host pattern e' with
      | true =>
          rw [resists, hmatch] at hfind
          exact ih hfind
      | false =>
          rw [if_pos rfl, if_neg Bool.false_ne_true]
          dsimp only
          by_cases herr : host.unlink (filePath dir e') = 0
          · rw [resists, hmatch, herr] at hfind
            rw [if_neg (not_not.mpr herr)]
            exact ih hfind
          · have hresists : resists host dir pattern e' = true := by
              rw [resists, hmatch, bne_iff_ne.mpr herr]
              rfl
            rw [hresists] at hfind
            cases hfind
            rw [if_pos herr]

/-- Where no entry resists, all that match are removed, and an error is left only if there is
none. -/
theorem deleteLoop_removed (h : wantsDirs dirattr = false)
    (hfind : es.find? (resists host dir pattern) = none) :
    deleteLoop host dirattr dir pattern doserr es =
      (es.filter (!lfnSfnMatch host pattern ·),
        if es.any (!lfnSfnMatch host pattern ·) then 0 else doserr) := by
  induction es generalizing doserr with
  | nil => rfl
  | cons e es ih =>
      rw [List.find?_eq_none] at hfind
      have hrest : es.find? (resists host dir pattern) = none :=
        List.find?_eq_none.mpr fun e' he' => hfind e' (List.mem_cons_of_mem e he')
      rw [deleteLoop, h, List.filter_cons, List.any_cons]
      cases hmatch : lfnSfnMatch host pattern e with
      | true => exact ih hrest
      | false =>
          have herr : host.unlink (filePath dir e) = 0 := by
            have hresists := hfind e List.mem_cons_self
            rw [resists, hmatch, Bool.not_false, Bool.true_and, bne_iff_ne, not_not] at hresists
            exact hresists
          rw [if_pos rfl, if_neg Bool.false_ne_true]
          dsimp only
          rw [if_neg (not_not.mpr herr), ih hrest]
          simp only [Bool.not_false, Bool.true_or, if_true, ite_self]

/-- What resists nothing is no directory. -/
theorem not_isDir_of_removed (hdir : host.opendir dir = some es)
    (hfind : es.find? (resists host dir pattern) = none) {e : Entry} (he : e ∈ es)
    (hmatch : lfnSfnMatch host pattern e = false) : e.isDir = false := by
  by_contra hisDir
  rw [Bool.not_eq_false] at hisDir
  have hresists := List.find?_eq_none.mp hfind e he
  rw [resists, hmatch, Bool.not_false, Bool.true_and, bne_iff_ne, not_not] at hresists
  exact host.unlink_dir dir es hdir e he hisDir hresists

end Loop

/-! ## The function -/

section Request

variable {host : Host} {dirattr : BitVec 16}

/-- A string ends at its terminator. -/
theorem strAt_terminated {s behind : List Char} (h : nul ∉ s) :
    strAt (s ++ nul :: behind) 0 = s := by
  rw [strAt, List.drop_zero, List.takeWhile_append_of_pos, List.takeWhile_cons_of_neg,
    List.append_nil]
  · simp only [ne_eq, not_true_eq_false, decide_false, Bool.false_eq_true, not_false_eq_true]
  · intro c hc
    rw [decide_eq_true_iff]
    rintro rfl
    exact h hc

theorem strrchr_of_notMem {s : Path} (h : '/' ∉ s) : strrchr s = none := by
  induction s with
  | nil => rfl
  | cons c s ih =>
      rw [strrchr, ih fun hc => h (List.mem_cons_of_mem c hc)]
      dsimp only
      rw [if_neg]
      rintro rfl
      exact h List.mem_cons_self

/-- The last slash is the one with none behind it. -/
theorem strrchr_append {dir s : Path} (h : '/' ∉ s) :
    strrchr (dir ++ '/' :: s) = some dir.length := by
  induction dir with
  | nil =>
      rw [List.nil_append, strrchr, strrchr_of_notMem h]
      rfl
  | cons c dir ih =>
      rw [List.cons_append, strrchr, ih]
      rfl

variable (r : Request)

theorem Request.path_nul : nul ∉ r.dir ++ '/' :: r.given := by
  intro h
  rcases List.mem_append.mp h with h | h
  · exact r.dir_nul h
  · cases List.mem_cons.mp h with
    | inl h => exact absurd h (by decide)
    | inr h => exact r.given_nul h

/-- The function on the buffer of a request. -/
theorem wildcardDelete_request :
    wildcardDelete host dirattr r.fpath =
      some (match r.found host with
        | none => ([], pathNotFound)
        | some fpath => deleteFound host dirattr r.slash fpath) := by
  have hpath : strAt r.fpath 0 = r.dir ++ '/' :: r.given := strAt_terminated r.path_nul
  rw [wildcardDelete]
  dsimp only
  rw [hpath, strrchr_append r.given_slash]
  dsimp only
  rw [← Request.slash, ← Request.found]
  cases r.found host with
  | none => rfl
  | some fpath => rfl

/-- A path that is not found is no matter of success. -/
theorem exactIn_pathNotFound {given : Path} {es : List Entry} :
    ExactIn host given es ([], pathNotFound) :=
  ⟨fun h => absurd h (by decide), fun h => absurd h (by decide)⟩

/-- The loop is exact just when the two patterns agree. -/
theorem deleteLoop_exact_iff {dir given taken : Path} {es : List Entry}
    (hdir : host.opendir dir = some es) :
    ExactIn host given es
        (deleteLoop host dirattr dir (dosPattern host taken) fileNotFound es) ↔
      Agrees host dirattr dir given taken es := by
  rw [Agrees]
  split
  next h =>
    rw [deleteLoop_dirs h]
    exact ⟨fun hexact => hexact.2 rfl, fun hnone => ⟨fun h => absurd h (by decide), fun _ => hnone⟩⟩
  next h =>
    rw [Bool.not_eq_true] at h
    split
    next e hfind =>
      have herr : (deleteLoop host dirattr dir (dosPattern host taken) fileNotFound es).2 =
          host.unlink (filePath dir e) := deleteLoop_stopped h hfind
      have hresists := List.find?_some hfind
      rw [resists, Bool.and_eq_true, bne_iff_ne] at hresists
      rw [ExactIn, herr]
      constructor
      · exact fun hexact => hexact.2
      · exact fun hnone => ⟨fun hzero => absurd hzero hresists.2, hnone⟩
    next hfind =>
      have hmem : ∀ e, e ∈ es.filter (!lfnSfnMatch host (dosPattern host taken) ·) ↔
          e ∈ es ∧ lfnSfnMatch host (dosPattern host taken) e = false := by
        intro e
        rw [List.mem_filter, Bool.not_eq_true']
      have hagrees : (∀ e ∈ es, e.isDir = false → lfnSfnMatch host (dosPattern host given) e =
          lfnSfnMatch host (dosPattern host taken) e) ↔
          ∀ e ∈ es, Wanted host given e ↔ lfnSfnMatch host (dosPattern host taken) e = false := by
        refine forall₂_congr fun e he => ?_
        rw [Wanted]
        constructor
        · intro heq
          constructor
          · rintro ⟨hfile, hmatch⟩
            exact heq hfile ▸ hmatch
          · intro hmatch
            have hfile := not_isDir_of_removed hdir hfind he hmatch
            exact ⟨hfile, (heq hfile).trans hmatch⟩
        · intro hiff hfile
          rw [Bool.eq_iff_iff, ← not_iff_not, Bool.not_eq_true, Bool.not_eq_true, ← hiff,
            and_iff_right hfile]
      rw [deleteLoop_removed h hfind, hagrees]
      cases hany : es.any (!lfnSfnMatch host (dosPattern host taken) ·) with
      | true =>
          constructor
          · intro hexact e he
            have hiff := hexact.1 rfl e
            rw [hmem, and_congr_right_iff] at hiff
            exact (hiff he).symm
          · intro hagree
            refine ⟨fun _ e => ?_, fun h => absurd h zero_ne_fileNotFound⟩
            rw [hmem, and_congr_right_iff]
            exact fun he => (hagree e he).symm
      | false =>
          rw [List.any_eq_false] at hany
          have hnone : ∀ e ∈ es, ¬lfnSfnMatch host (dosPattern host taken) e = false := by
            intro e he hmatch
            exact hany e he (by rw [hmatch]; rfl)
          constructor
          · intro hexact e he
            exact iff_of_false (hexact.2 rfl e he) (hnone e he)
          · intro hagree
            refine ⟨fun h => absurd h zero_ne_fileNotFound.symm, fun _ e he hwanted => ?_⟩
            exact hnone e he ((hagree e he).mp hwanted)

/-- When `wildcard_delete` removes what the pattern is for. -/
theorem wildcardDelete_exact_iff (host : Host) (dirattr : BitVec 16) (r : Request) :
    Exact host dirattr r ↔ ∀ buf es, r.found host = some buf →
      host.isDosDevice (strAt buf (r.slash + 1)) = false → host.opendir (strAt buf 0) = some es →
      Agrees host dirattr (strAt buf 0) r.given (strAt buf ((strAt buf 0).length + 1)) es := by
  rw [Exact, wildcardDelete_request]
  constructor
  · rintro ⟨result, heq, hexact⟩ buf es hfound hdevice hdir
    have h := hexact buf es hfound hdir
    rw [← Option.some_inj.mp heq, hfound] at h
    dsimp only at h
    rw [deleteFound, hdevice] at h
    dsimp only at h
    rw [if_neg Bool.false_ne_true, hdir] at h
    exact (deleteLoop_exact_iff hdir).mp h
  · intro h
    refine ⟨_, rfl, ?_⟩
    intro buf es hfound hdir
    rw [hfound]
    dsimp only
    rw [deleteFound]
    split
    · exact exactIn_pathNotFound
    next hdevice =>
      dsimp only
      rw [hdir]
      apply (deleteLoop_exact_iff hdir).mpr
      exact h buf es hfound (Bool.eq_false_of_not_eq_true hdevice) hdir

end Request

/-! ## A directory with one file -/

/-- An upper-case pattern is matched just by the names that fit it. -/
theorem mismatch_eq_false_iff {host : Host} {pattern name : List Byte} (hpattern : NoZero pattern)
    (hupper : ∀ c ∈ pattern, toupperDOS host.highUpper c = c) (hname : NoZero name) :
    mismatch host pattern name = false ↔
      Fits (toupperDOS host.highUpper) pattern (withDot name) := by
  obtain ⟨rc, hrc, hfits⟩ := recurMatch_spec (toupperDOS_zero host.highUpper) hpattern hupper
    (withDot_noZero hname)
  rw [mismatch, wildMatch, hrc, ← hfits]
  dsimp only
  rw [decide_eq_false_iff_not, not_not]

/-- The entries of a directory with one file. -/
def oneFile : List Entry :=
  [⟨['.'], ['.'], true⟩, ⟨['.', '.'], ['.', '.'], true⟩, ⟨['a'], ['a'], false⟩]

/-- A host with the directory `/r`; what cannot be unlinked is not found. -/
def oneFileHost : Host where
  findFile buf := some buf
  isDosDevice _ := false
  opendir dir := if dir = ['/', 'r'] then some oneFile else none
  unlink p := if p = ['/', 'r', '/', 'a'] then 0 else fileNotFound
  nameUfsToDos p := p.map fun c => BitVec.ofNat 8 c.toNat
  lfn p := p.map fun c => toupperDOS id (BitVec.ofNat 8 c.toNat)
  sfn p := p.map fun c => toupperDOS id (BitVec.ofNat 8 c.toNat)
  highUpper := id
  unlink_dir := by
    intro dir es hes
    split at hes
    · next hdir =>
        subst hdir
        rw [← Option.some_inj.mp hes]
        decide
    · cases hes

/-- A call for all files in `/r`. -/
def allFiles : Request where
  dir := ['/', 'r']
  given := ['*']
  behind := []
  dir_nul := by decide
  given_nul := by decide
  given_slash := by decide

theorem oneFile_matches {e : Entry} (h : NoZero (oneFileHost.lfn e.dLongName)) :
    lfnSfnMatch oneFileHost (dosPattern oneFileHost ['*']) e = false := by
  have hstar : mismatch oneFileHost [WildMatch.star] (oneFileHost.lfn e.dLongName) = false :=
    (mismatch_eq_false_iff (by decide) (by decide) h).mpr fits_star
  have hpattern : dosPattern oneFileHost ['*'] = [WildMatch.star] := by decide
  rw [lfnSfnMatch, hpattern, hstar, Bool.false_and]

/-- The directory itself comes first and resists, so no file is found. -/
theorem allFiles_removes_nothing : ¬Exact oneFileHost 0 allFiles := by
  rintro ⟨result, heq, hexact⟩
  have hdot := oneFile_matches (e := ⟨['.'], ['.'], true⟩) (by decide)
  have ha := oneFile_matches (e := ⟨['a'], ['a'], false⟩) (by decide)
  have hresists : resists oneFileHost ['/', 'r'] (dosPattern oneFileHost ['*'])
      ⟨['.'], ['.'], true⟩ = true := by
    rw [resists, hdot]
    decide
  have hresult : result = deleteLoop oneFileHost 0 ['/', 'r'] (dosPattern oneFileHost ['*'])
      fileNotFound oneFile := by
    rw [wildcardDelete_request] at heq
    exact (Option.some_inj.mp heq).symm
  have h := hexact _ oneFile rfl rfl
  rw [hresult] at h
  have hagrees := (deleteLoop_exact_iff rfl).mp h
  rw [Agrees, if_neg (by decide), oneFile, List.find?_cons_of_pos hresists] at hagrees
  exact hagrees rfl ⟨['a'], ['a'], false⟩ (by decide) ⟨rfl, ha⟩

end WildDelete
end Mfs
end Dosemu
