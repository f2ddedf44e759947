import Dosemu.Mfs.Paths

/-!
# Long names made absolute

`truename` of `lfn.c`: a name of DOS, with its current directory, as an absolute
path.  The text in `dest` grows and shrinks at its end while the source is
scanned, so it is kept with its last character first.

Main definitions:

- `parseName`: copies one component and drops its trailing periods and spaces.
- `dotChain`: removes one component for each further dot, as long as it sees
  dots.
- `walk`: the loop over the source.
- `truename`: the choice of the drive, of the current directory and of devices.
-/

namespace Dosemu
namespace Mfs
namespace Truename

/-- What the code asks of DOS and of its other parts: `sda_cur_drive`, `get_lastdrive`, whether
a drive is redirected, `toupperDOS`, `is_dos_device`, the current directory that `getCWD_r`
reads, and the memory behind the terminator of the source. -/
structure Env where
  curDrive : Nat
  lastDrive : Nat
  redirected : Nat → Bool
  toupperDOS : Char → Char
  isDosDevice : Path → Bool
  cwd : Nat → Option Path
  past : Path

inductive DosError where
  | fileNotFound
  | pathNotFound
  | diskDriveInvalid
  deriving DecidableEq

/-- The text up to `p`, the last character first. -/
abbrev Dest := List Char

/-- A separator of components. -/
def isSep (c : Char) : Bool :=
  c == '/' || c == '\\'

/-- `errRet`: "depending on if it is not the last component" -/
def pathError (src : Path) : DosError :=
  if src.any isSep then .pathNotFound else .fileNotFound

/-- `addChar`; there is room for 256 characters. -/
def addChar (c : Char) (out : Dest) : Option Dest :=
  if 256 ≤ out.length then none else some (c :: out)

/-- "remove last path component", unless it is "already on root" -/
def removeLast (rootPos : Nat) : Dest → Option Dest
  | [] => none
  | c :: out =>
      if c = '\\' then some out
      else if out.length ≤ rootPos then none
      else removeLast rootPos out

/-- "delete trailing periods and spaces" back to `cp`, and the character at `p` after that. -/
def stripTrailing (cp : Nat) (last : Option Char) : Dest → Option Char × Dest
  | [] => (last, [])
  | c :: out =>
      if (c = '.' ∨ c = ' ') ∧ out.length + 1 ≠ cp then stripTrailing cp (some c) out
      else (last, c :: out)

/-- What `parse_name` does with a component: it fails somewhere in the source, or adds the
component and stops at the character behind it. -/
inductive Parsed where
  | error (src : Path)
  | ok (wild : Bool) (out : Dest) (src : Path)

/-- The end of `parse_name`: "keep one trailing period if a * was encountered". -/
def finishName (cp : Nat) (star wild : Bool) (next src : Path) (out : Dest) : Parsed :=
  let (last, out) := stripTrailing cp none out
  if out.length = cp then .error next
  else .ok wild (if star ∧ last = some '.' then '.' :: out else out) src

/-- `parse_name`; behind the terminator of the source is `past`. -/
def parseName (past : Path) (cp : Nat) (star wild : Bool) : Path → Dest → Parsed
  | [], out => finishName cp star wild past [] out
  | c :: src, out =>
      if isSep c then finishName cp star wild src (c :: src) out
      else
        match addChar c out with
        | none => .error src
        | some out => parseName past cp (star || c == '*') (wild || c == '*' || c == '?') src out

/-- A component that begins with a dot, once its dots are seen: a removal fails, the component
is gone, or it is a name after all. -/
inductive Dots where
  | above
  | gone (src : Path) (out : Dest)
  | name (src : Path) (out : Dest)

/-- `another_dot`, with what follows the dot that the source points at.  A component that goes
on otherwise is a name from the dot before on. -/
def dotChain (rootPos : Nat) : Path → Dest → Dots
  | [], out =>
      match removeLast rootPos out with
      | none => .above
      | some out => .gone [] out
  | c :: src, out =>
      if isSep c then
        match removeLast rootPos out with
        | none => .above
        | some out => .gone (c :: src) out
      else if c = '.' then
        match removeLast rootPos out with
        | none => .above
        | some out => dotChain rootPos src out
      else .name ('.' :: '.' :: c :: src) out

/-- "special directory component", if it is one -/
def special (rootPos : Nat) (c : Char) (src : Path) (out : Dest) : Dots :=
  if c = '.' then
    match src with
    | [] => .gone [] out
    | d :: rest =>
        if isSep d then .gone src out
        else if d = '.' then dotChain rootPos rest out
        else .name (c :: src) out
  else .name (c :: src) out

/-- Whether a separator is due before the next component, or at the end. -/
inductive AddSep where
  | dontAdd
  | add
  | addUnlessLast
  deriving DecidableEq

/-- "append the path specified in src": the text, the state of the separator, and
`gotAnyWildcards`.  Each round takes at least one character. -/
def walk (past : Path) (rootPos : Nat) (rootChar : Char) :
    Nat → Path → Dest → AddSep → Bool → Except DosError (Dest × AddSep × Bool)
  | _, [], out, addSep, wild => .ok (out, addSep, wild)
  | 0, _ :: _, out, addSep, wild => .ok (out, addSep, wild)
  | fuel + 1, c :: src, out, addSep, wild =>
      if wild then .error .pathNotFound
      else if isSep c then walk past rootPos rootChar fuel src out .add false
      else
        match special rootPos c src out with
        | .above => .error .pathNotFound
        | .gone src out => walk past rootPos rootChar fuel src out .addUnlessLast false
        | .name name out =>
            match if addSep ≠ .dontAdd then addChar rootChar out else some out with
            | none => .error (pathError name.tail)
            | some out =>
                match parseName past out.length false false name out with
                | .error src => .error (pathError src)
                | .ok wild out src => walk past rootPos rootChar fuel src out .dontAdd wild

/-- What follows the loop: wildcards are refused, and a separator is added. -/
def finish (allowWildcards : Bool) :
    Except DosError (Dest × AddSep × Bool) → Except DosError Path
  | .error e => .error e
  | .ok (out, addSep, wild) =>
      if wild ∧ !allowWildcards then .error .pathNotFound
      else if addSep = .add ∨ out.length = 2 then
        match addChar '\\' out with
        | none => .error (pathError [])
        | some out => .ok out.reverse
      else .ok out.reverse

/-- `get_root`: where the last component of the source begins. -/
def getRoot (src : Path) : Nat :=
  src.length - (src.reverse.takeWhile fun c => !(isSep c || c == ':')).length

/-- The comparison with `\DEV\`. -/
def isDevDir (env : Env) (dir : Path) : Bool :=
  match dir.map env.toupperDOS with
  | [a, b, c, d, e] => isSep a && b == 'D' && c == 'E' && d == 'V' && isSep e
  | _ => false

/-- "check for a device": its name, without a directory or in the one of the devices. -/
def deviceName (env : Env) (src : Path) : Option Path :=
  let froot := getRoot src
  if env.isDosDevice (src.drop froot) ∧
      (froot = 0 ∨ froot = 1 ∨ froot = 5 ∧ isDevDir env (src.take 5)) then
    some (src.drop froot)
  else none

/-- The drive of a source, counted from A. -/
def drive (env : Env) (src : Path) : Int :=
  match src with
  | src0 :: ':' :: _ => (env.toupperDOS src0).toNat - 'A'.toNat
  | _ => env.curDrive

/-- The source without its drive. -/
def withoutDrive (src : Path) : Path :=
  match src with
  | _ :: ':' :: rest => rest
  | _ => src

/-- `X:`, the last character first. -/
def root (drive : Nat) : Dest :=
  [':', Char.ofNat ('A'.toNat + drive)]

/-- The text to which the source is appended, and what is left of the source.  `getCWD_r` has
room for 62 characters behind `X:\`. -/
def start (drive : Nat) (cwd : Option Path) (src : Path) : Path × Dest :=
  match cwd with
  | none => (src, root drive)
  | some cwd =>
      let (src, out) :=
        match src with
        | c :: rest =>
            if isSep c then (rest, '\\' :: root drive)
            else (src, (cwd.take 62).reverse ++ '\\' :: root drive)
        | [] => ([], (cwd.take 62).reverse ++ '\\' :: root drive)
      (src, if out.head? = some '\\' then out.tail else out)

/-- `truename` -/
def truename (env : Env) (src : Path) (allowWildcards : Bool) : Except DosError Path :=
  match src with
  | [] => .error .fileNotFound
  | '\\' :: '\\' :: _ => if src.length < 256 then .ok src else .error (pathError src)
  | _ =>
      let result := drive env src
      if result < 0 ∨ 26 ≤ result ∨ env.lastDrive ≤ result then .error .diskDriveInvalid
      else if !env.redirected result.toNat then .error .diskDriveInvalid
      else
        let src := withoutDrive src
        match deviceName env src with
        | some name =>
            finish allowWildcards
              (walk env.past 2 '/' name.length name (root result.toNat) .add false)
        | none =>
            let (src, out) := start result.toNat (env.cwd result.toNat) src
            finish allowWildcards (walk env.past 2 '\\' src.length src out .add false)

end Truename
end Mfs
end Dosemu
