import Mathlib.Tactic

/-!
# Code page fonts

`find_font` looks through a `.cpi` file in memory.  It follows the offsets that it reads
there and keeps count of the bytes that remain, with a sign; the test whether a header still
fits takes the count without its sign.

Main results:

- Theorem `short_iff`: what the test tells.
- Theorem `fontLoop_safe_iff` and Theorem `entryLoop_safe_iff`: the loops stay in the file
  exactly if they come to no header behind its end.
- Theorem `findFont_iff`: when the search keeps what it promises.
-/

namespace Dosemu
namespace Core
namespace Cpi

/-! ## Headers -/

/-- The file, and the memory that it is read into; bytes from `size` on are whatever lies
behind it. -/
structure Image where
  mem : Nat → BitVec 8
  size : Nat
  offT : size < 2 ^ 63

namespace Image

variable (data : Image)

def u8 (p : Nat) : Nat :=
  (data.mem p).toNat

def u16 (p : Nat) : Nat :=
  data.u8 p + 256 * data.u8 (p + 1)

def u32 (p : Nat) : Nat :=
  data.u16 p + 65536 * data.u16 (p + 2)

/-- `id` of `struct FontFileHeader`, as far as it is compared -/
def isFont : Bool :=
  data.u8 1 == 'F'.toNat && data.u8 2 == 'O'.toNat && data.u8 3 == 'N'.toNat &&
    data.u8 4 == 'T'.toNat

def numCodepages : Nat :=
  data.u16 23

/-- `struct CPEntryHeader` -/
def offNexthdr (p : Nat) : Nat :=
  data.u32 (p + 2)

def deviceType (p : Nat) : Nat :=
  data.u16 (p + 6)

def codepage (p : Nat) : Nat :=
  data.u16 (p + 16)

def offFont (p : Nat) : Nat :=
  data.u32 (p + 24)

/-- `struct CPInfoHeader` -/
def numFonts (p : Nat) : Nat :=
  data.u16 (p + 2)

/-- `struct ScreenFontHeader` -/
def height (p : Nat) : Nat :=
  data.u8 p

def width (p : Nat) : Nat :=
  data.u8 (p + 1)

def numChars (p : Nat) : Nat :=
  data.u16 (p + 4)

/-- `flen` -/
def flen (p : Nat) : Nat :=
  data.height p * data.numChars p

end Image

/-- The code page, the width and the height that are looked for. -/
structure Query where
  cp : Nat
  w : Nat
  h : Nat

/-- A font header with the dimensions that are looked for. -/
def Query.Fits (q : Query) (data : Image) (p : Nat) : Prop :=
  data.width p = q.w ∧ data.height p = q.h

instance (q : Query) (data : Image) (p : Nat) : Decidable (q.Fits data p) :=
  inferInstanceAs (Decidable (_ ∧ _))

/-! ## The search -/

/-- `remain < sizeof(...)`: a signed `off_t` against an unsigned `size_t`. -/
def short (remain : Int) (sizeof : Nat) : Bool :=
  remain % 2 ^ 64 < sizeof

/-- The reads of headers: their offsets in the file, and lengths. -/
abbrev Reads := List (Nat × Nat)

/-- How the loop over the fonts of an entry is left. -/
inductive FontLoop where
  | null
  | found (p flen : Nat)
  | done

/-- The loop over the fonts of an entry. -/
def fontLoop (data : Image) (q : Query) : Nat → Nat → Int → Reads × FontLoop
  | 0, _, _ => ([], .done)
  | numFonts + 1, p, remain =>
      if short remain 6 then ([], .null)
      else if q.Fits data p then ([(p, 6)], .found (p + 6) (data.flen p))
      else
        let (reads, left) :=
          fontLoop data q numFonts (p + 6 + data.flen p) (remain - 6 - data.flen p)
        ((p, 6) :: reads, left)

/-- The loop over the entries. -/
def entryLoop (data : Image) (q : Query) : Nat → Nat → Int → Reads × Option (Nat × Nat)
  | 0, _, _ => ([], none)
  | numCodepages + 1, p, remain =>
      if short remain 28 then ([], none)
      else if data.deviceType p ≠ 1 then ([(p, 28)], none)
      else
        let next := data.offNexthdr p
        if data.codepage p ≠ q.cp then
          let (reads, ret) := entryLoop data q numCodepages next (data.size - next)
          ((p, 28) :: reads, ret)
        else
          let info := data.offFont p
          if short (data.size - info) 6 then ([(p, 28)], none)
          else
            match fontLoop data q (data.numFonts info) (info + 6) (data.size - info - 6) with
            | (reads, .null) => ((p, 28) :: (info, 6) :: reads, none)
            | (reads, .found p' flen) => ((p, 28) :: (info, 6) :: reads, some (p', flen))
            | (reads, .done) =>
                let (reads', ret) := entryLoop data q numCodepages next (data.size - next)
                ((p, 28) :: (info, 6) :: reads ++ reads', ret)

/-- `find_font`: the headers it reads, and the font it returns with `*r_size`. -/
def findFont (data : Image) (q : Query) : Reads × Option (Nat × Nat) :=
  if short data.size 25 then ([], none)
  else if !data.isFont then ([(0, 25)], none)
  else
    let (reads, ret) := entryLoop data q data.numCodepages 25 (data.size - 25)
    ((0, 25) :: reads, ret)

/-! ## What the test tells -/

variable {data : Image} {q : Query} {p n : Nat}

theorem short_iff {sizeof : Nat} (hp : p < 2 ^ 62) (hsize : sizeof ≤ 28) :
    short ((data.size : Int) - p) sizeof = true ↔ p ≤ data.size ∧ data.size < p + sizeof := by
  have hoff := data.offT
  rw [short, decide_eq_true_iff]
  omega

theorem u16_lt (p : Nat) : data.u16 p < 65536 := by
  have h₀ := (data.mem p).isLt
  have h₁ := (data.mem (p + 1)).isLt
  rw [Image.u16, Image.u8, Image.u8]
  omega

theorem u32_lt (p : Nat) : data.u32 p < 2 ^ 32 := by
  have h₀ := @u16_lt data p
  have h₁ := @u16_lt data (p + 2)
  rw [Image.u32]
  omega

theorem flen_lt (p : Nat) : data.flen p < 16777210 := by
  have hheight := (data.mem p).isLt
  have hchars := @u16_lt data (p + 4)
  have hmul : data.height p * data.numChars p ≤ 255 * 65535 :=
    Nat.mul_le_mul (by rw [Image.height, Image.u8]; omega) (by rw [Image.numChars]; omega)
  rw [Image.flen]
  omega

/-! ## Where the search comes to -/

/-- A header, with the number of entries after its own and the offset of the next of them, and
the number of fonts after it. -/
inductive Place where
  | entry (left p : Nat)
  | info (left next p : Nat)
  | font (left next fonts p : Nat)

namespace Place

/-- The offset of the header. -/
def offset : Place → Nat
  | .entry _ p | .info _ _ p | .font _ _ _ p => p

/-- The next entry, if there is one. -/
def nextEntry : Nat → Nat → Option Place
  | 0, _ => none
  | left + 1, p => some (.entry left p)

/-- The next font of the entry, or the next entry. -/
def nextFont (left next : Nat) : Nat → Nat → Option Place
  | 0, _ => nextEntry left next
  | fonts + 1, p => some (.font left next fonts p)

/-- The header that is looked at after this one. -/
def next (data : Image) (q : Query) : Place → Option Place
  | .entry left p =>
      if p + 28 ≤ data.size ∧ data.deviceType p = 1 then
        if data.codepage p = q.cp then some (.info left (data.offNexthdr p) (data.offFont p))
        else nextEntry left (data.offNexthdr p)
      else none
  | .info left next p =>
      if p + 6 ≤ data.size then nextFont left next (data.numFonts p) (p + 6) else none
  | .font left next fonts p =>
      if p + 6 ≤ data.size ∧ ¬q.Fits data p then
        nextFont left next fonts (p + 6 + data.flen p)
      else none

/-- The header is not behind the end of the file, and neither is the end of the font if it is
the one that is looked for. -/
def Within (data : Image) (q : Query) (at_ : Place) : Prop :=
  at_.offset ≤ data.size ∧
    match at_ with
    | .font _ _ _ p => p + 6 ≤ data.size → q.Fits data p → p + 6 + data.flen p ≤ data.size
    | _ => True

end Place

/-- From a header on, the search comes to none that is not within the file. -/
def Sound (data : Image) (q : Query) (start : Option Place) : Prop :=
  ∀ at_ ∈ start, ∀ at', Relation.ReflTransGen (fun a b => b ∈ a.next data q) at_ at' →
    at'.Within data q

theorem sound_none : Sound data q none :=
  fun _ h => absurd h nofun

theorem sound_some {at_ : Place} :
    Sound data q (some at_) ↔ at_.Within data q ∧ Sound data q (at_.next data q) := by
  constructor
  · intro h
    refine ⟨h at_ rfl at_ .refl, ?_⟩
    exact fun b hb c hc => h at_ rfl c (.head hb hc)
  · rintro ⟨hfirst, hrest⟩ a ha c hc
    obtain rfl := Option.some.inj ha
    rcases hc.cases_head with heq | ⟨b, hb, hc⟩
    · rw [← heq]
      exact hfirst
    · exact hrest b hb c hc

/-- All reads and the font that is returned are inside of the file. -/
def Inside (data : Image) (found : Reads × Option (Nat × Nat)) : Prop :=
  (∀ r ∈ found.1, r.1 + r.2 ≤ data.size) ∧ ∀ r ∈ found.2, r.1 + r.2 ≤ data.size

theorem inside_nil : Inside data ([], none) :=
  ⟨fun _ h => absurd h List.not_mem_nil, fun _ h => absurd h nofun⟩

theorem inside_cons {len : Nat} {reads : Reads} {ret : Option (Nat × Nat)} :
    Inside data ((p, len) :: reads, ret) ↔ p + len ≤ data.size ∧ Inside data (reads, ret) := by
  rw [Inside, Inside, List.forall_mem_cons, and_assoc]

/-- What is left of the search after the fonts of an entry. -/
def andThen : Reads × FontLoop → Reads × Option (Nat × Nat) → Reads × Option (Nat × Nat)
  | (reads, .null), _ => (reads, none)
  | (reads, .found p flen), _ => (reads, some (p, flen))
  | (reads, .done), (reads', ret) => (reads ++ reads', ret)

theorem andThen_cons {reads : Reads} {left : FontLoop} {rest : Reads × Option (Nat × Nat)}
    {r : Nat × Nat} :
    andThen (r :: reads, left) rest =
      (r :: (andThen (reads, left) rest).1, (andThen (reads, left) rest).2) := by
  cases left <;> rfl

theorem andThen_snd {fonts : Reads × FontLoop} {rest : Reads × Option (Nat × Nat)} :
    (andThen fonts rest).2 = match fonts.2 with
      | .null => none
      | .found p flen => some (p, flen)
      | .done => rest.2 := by
  obtain ⟨reads, left⟩ := fonts
  cases left <;> rfl

/-- The header of the fonts of an entry. -/
def infoHeader (data : Image) (q : Query) (p : Nat) (rest : Reads × Option (Nat × Nat)) :
    Reads × Option (Nat × Nat) :=
  if short (data.size - p) 6 then ([], none)
  else
    let fonts := andThen (fontLoop data q (data.numFonts p) (p + 6) (data.size - p - 6)) rest
    ((p, 6) :: fonts.1, fonts.2)

theorem entryLoop_succ {remain : Int} :
    entryLoop data q (n + 1) p remain =
      if short remain 28 then ([], none)
      else if data.deviceType p ≠ 1 then ([(p, 28)], none)
      else
        let next := data.offNexthdr p
        let rest := entryLoop data q n next (data.size - next)
        if data.codepage p ≠ q.cp then ((p, 28) :: rest.1, rest.2)
        else
          ((p, 28) :: (infoHeader data q (data.offFont p) rest).1,
            (infoHeader data q (data.offFont p) rest).2) := by
  unfold infoHeader
  rw [entryLoop]
  dsimp only
  generalize fontLoop data q (data.numFonts (data.offFont p)) (data.offFont p + 6)
    (data.size - data.offFont p - 6) = fonts
  obtain ⟨reads, left⟩ := fonts
  split
  · rfl
  · split
    · rfl
    · split
      · rfl
      · split
        · rfl
        · cases left <;> rfl

/-- The fonts of an entry, and the entries after it. -/
theorem fontLoop_safe_iff {left next : Nat} {rest : Reads × Option (Nat × Nat)}
    (hrest : Inside data rest ↔ Sound data q (Place.nextEntry left next))
    (hp : p + n * 16777216 ≤ 2 ^ 41) :
    Inside data (andThen (fontLoop data q n p (data.size - p)) rest) ↔
      Sound data q (Place.nextFont left next n p) := by
  induction n generalizing p with
  | zero => exact hrest
  | succ n ih =>
      have hflen := @flen_lt data p
      have hshort := @short_iff data p 6 (by omega) (by decide)
      rw [fontLoop, Place.nextFont, sound_some]
      by_cases htest : short ((data.size : Int) - p) 6
      · obtain ⟨hle, hlt⟩ := hshort.mp htest
        rw [if_pos htest, Place.next, if_neg fun h => absurd h.1 (Nat.not_le.mpr hlt)]
        exact iff_of_true inside_nil
          ⟨⟨hle, fun h => absurd h (Nat.not_le.mpr hlt)⟩, sound_none⟩
      rw [if_neg htest]
      by_cases hbehind : data.size < p
      · -- a header behind the end passes the test, and is read
        have hout : ¬(Place.font left next n p).Within data q := fun h =>
          absurd h.1 (Nat.not_le.mpr hbehind)
        refine iff_of_false ?_ fun h => hout h.1
        split
        · exact fun h => absurd (inside_cons.mp h).1 (by omega)
        · rw [andThen_cons]
          exact fun h => absurd (inside_cons.mp h).1 (by omega)
      have hin : p + 6 ≤ data.size := by
        by_contra hlt
        exact htest (hshort.mpr ⟨by omega, by omega⟩)
      by_cases hfits : q.Fits data p
      · rw [if_pos hfits, Place.next, if_neg fun h => h.2 hfits]
        constructor
        · rintro ⟨-, hret⟩
          exact ⟨⟨by change p ≤ _; omega, fun _ _ => hret _ rfl⟩, sound_none⟩
        · rintro ⟨⟨-, hfont⟩, -⟩
          refine inside_cons.mpr ⟨hin, fun _ h => absurd h List.not_mem_nil, ?_⟩
          intro r hr
          rw [← Option.some.inj hr]
          exact hfont hin hfits
      · have hremain : (data.size : Int) - p - 6 - data.flen p =
            data.size - (p + 6 + data.flen p : Nat) := by
          push_cast
          ring
        have hnext := @ih (p + 6 + data.flen p) (by omega)
        rw [if_neg hfits, Place.next, if_pos ⟨hin, hfits⟩, ← hnext, hremain]
        dsimp only
        rw [andThen_cons, inside_cons]
        constructor
        · rintro ⟨-, h⟩
          exact ⟨⟨by change p ≤ _; omega, fun _ h => absurd h hfits⟩, h⟩
        · rintro ⟨-, h⟩
          exact ⟨hin, h⟩

theorem infoHeader_safe_iff {left next : Nat} {rest : Reads × Option (Nat × Nat)}
    (hrest : Inside data rest ↔ Sound data q (Place.nextEntry left next)) (hp : p < 2 ^ 32) :
    Inside data (infoHeader data q p rest) ↔ Sound data q (some (.info left next p)) := by
  have hshort := @short_iff data p 6 (by omega) (by decide)
  have hnum := @u16_lt data (p + 2)
  rw [infoHeader, sound_some]
  by_cases htest : short ((data.size : Int) - p) 6
  · obtain ⟨hle, hlt⟩ := hshort.mp htest
    rw [if_pos htest, Place.next, if_neg (Nat.not_le.mpr hlt)]
    exact iff_of_true inside_nil ⟨⟨hle, trivial⟩, sound_none⟩
  rw [if_neg htest]
  by_cases hbehind : data.size < p
  · refine iff_of_false ?_ fun h => absurd h.1.1 (Nat.not_le.mpr hbehind)
    exact fun h => absurd (inside_cons.mp h).1 (by omega)
  have hin : p + 6 ≤ data.size := by
    by_contra hlt
    exact htest (hshort.mpr ⟨by omega, by omega⟩)
  have hwithin : (Place.info left next p).Within data q := ⟨by change p ≤ _; omega, trivial⟩
  have hfonts := @fontLoop_safe_iff data q (p + 6) (data.numFonts p) left next rest hrest (by
    rw [Image.numFonts]
    omega)
  have hremain : (data.size : Int) - (p + 6 : Nat) = data.size - p - 6 := by
    push_cast
    ring
  rw [hremain] at hfonts
  rw [and_iff_right hwithin, Place.next, if_pos hin, ← hfonts]
  exact inside_cons.trans (and_iff_right hin)

/-- The entries. -/
theorem entryLoop_safe_iff (hp : p ≤ 2 ^ 32) :
    Inside data (entryLoop data q n p (data.size - p)) ↔ Sound data q (Place.nextEntry n p) := by
  induction n generalizing p with
  | zero => exact iff_of_true inside_nil sound_none
  | succ n ih =>
      have hnextLt := @u32_lt data (p + 2)
      have hfontLt := @u32_lt data (p + 24)
      have hshort := @short_iff data p 28 (by omega) le_rfl
      have hrest := @ih (data.offNexthdr p) (le_of_lt hnextLt)
      rw [entryLoop_succ, Place.nextEntry, sound_some]
      by_cases htest : short ((data.size : Int) - p) 28
      · obtain ⟨hle, hlt⟩ := hshort.mp htest
        rw [if_pos htest, Place.next, if_neg fun h => absurd h.1 (Nat.not_le.mpr hlt)]
        exact iff_of_true inside_nil ⟨⟨hle, trivial⟩, sound_none⟩
      rw [if_neg htest]
      by_cases hbehind : data.size < p
      · refine iff_of_false ?_ fun h => absurd h.1.1 (Nat.not_le.mpr hbehind)
        have hout : ∀ {reads : Reads} {ret}, ¬Inside data ((p, 28) :: reads, ret) :=
          fun h => absurd (inside_cons.mp h).1 (by omega)
        dsimp only
        split
        · exact hout
        · split
          · exact hout
          · exact hout
      have hin : p + 28 ≤ data.size := by
        by_contra hlt
        exact htest (hshort.mpr ⟨by omega, by omega⟩)
      have hwithin : (Place.entry n p).Within data q := ⟨by change p ≤ _; omega, trivial⟩
      rw [and_iff_right hwithin, Place.next]
      by_cases hdevice : data.deviceType p = 1
      · rw [if_neg (not_not.mpr hdevice), if_pos (And.intro hin hdevice)]
        by_cases hcp : data.codepage p = q.cp
        · rw [if_neg (not_not.mpr hcp), if_pos hcp, inside_cons, and_iff_right hin]
          exact infoHeader_safe_iff hrest hfontLt
        · rw [if_pos hcp, if_neg hcp, inside_cons, and_iff_right hin]
          exact hrest
      · rw [if_pos hdevice, if_neg fun h => hdevice h.2]
        exact iff_of_true (inside_cons.mpr ⟨hin, inside_nil⟩) sound_none

/-- Where the search starts, if the file begins with its header. -/
def firstPlace (data : Image) : Option Place :=
  if 25 ≤ data.size ∧ data.isFont then Place.nextEntry data.numCodepages 25 else none

/-- The whole search. -/
theorem findFont_safe_iff :
    Inside data (findFont data q) ↔ Sound data q (firstPlace data) := by
  have hshort := @short_iff data 0 25 (by decide) (by decide)
  have hentries := @entryLoop_safe_iff data q 25 data.numCodepages (by decide)
  rw [Nat.cast_zero, sub_zero] at hshort
  rw [findFont, firstPlace]
  by_cases htest : short data.size 25
  · have hlt := (hshort.mp htest).2
    rw [if_pos htest, if_neg fun h => absurd h.1 (by omega)]
    exact iff_of_true inside_nil sound_none
  have hin : 25 ≤ data.size := by
    by_contra hlt
    exact htest (hshort.mpr ⟨Nat.zero_le _, by omega⟩)
  rw [if_neg htest]
  cases hfont : data.isFont with
  | false =>
      rw [Bool.not_false, if_pos rfl, if_neg fun h => absurd h.2 Bool.false_ne_true]
      exact iff_of_true (inside_cons.mpr ⟨by omega, inside_nil⟩) sound_none
  | true =>
      rw [Bool.not_true, if_neg Bool.false_ne_true, if_pos (And.intro hin rfl), ← hentries]
      exact inside_cons.trans (and_iff_right (by omega))

/-! ## Well-formed files -/

/-- The headers of fonts in a row. -/
def fontsAt (data : Image) : Nat → Nat → List Nat
  | 0, _ => []
  | n + 1, p => p :: fontsAt data n (p + 6 + data.flen p)

/-- The headers of entries, each of which tells where the next one is. -/
def entriesAt (data : Image) : Nat → Nat → List Nat
  | 0, _ => []
  | n + 1, p => p :: entriesAt data n (data.offNexthdr p)

namespace Image

/-- The entries of a file. -/
def entries (data : Image) : List Nat :=
  entriesAt data data.numCodepages 25

/-- The fonts of an entry. -/
def fonts (data : Image) (p : Nat) : List Nat :=
  fontsAt data (data.numFonts (data.offFont p)) (data.offFont p + 6)

/-- An entry for the screen. -/
def isScreen (data : Image) (p : Nat) : Bool :=
  data.deviceType p == 1

/-- All headers are in the file. -/
structure WellFormed (data : Image) : Prop where
  header : 25 ≤ data.size
  id : data.isFont
  entries : ∀ p ∈ data.entries, p + 28 ≤ data.size
  infos : ∀ p ∈ data.entries, data.isScreen p → data.offFont p + 6 ≤ data.size
  fonts : ∀ p ∈ data.entries, data.isScreen p → ∀ f ∈ data.fonts p, f + 6 ≤ data.size

/-- The fonts of the screen entries of a code page. -/
def screenFonts (data : Image) (cp : Nat) (entries : List Nat) : List Nat :=
  (entries.filter fun p => data.isScreen p && data.codepage p == cp).flatMap data.fonts

/-- The first font that is looked for, with its length. -/
def firstFont (data : Image) (q : Query) (entries : List Nat) : Option (Nat × Nat) :=
  ((data.screenFonts q.cp entries).find? fun f => decide (q.Fits data f)).map fun f =>
    (f + 6, data.flen f)

end Image

/-- Fonts that are all in the file are looked through up to the first one that fits. -/
theorem fontLoop_eq (hp : p + n * 16777216 ≤ 2 ^ 41)
    (hin : ∀ f ∈ fontsAt data n p, f + 6 ≤ data.size) :
    (fontLoop data q n p (data.size - p)).2 =
      match (fontsAt data n p).find? fun f => decide (q.Fits data f) with
      | none => .done
      | some f => .found (f + 6) (data.flen f) := by
  induction n generalizing p with
  | zero => rfl
  | succ n ih =>
      have hflen := @flen_lt data p
      have hfirst : p + 6 ≤ data.size := hin p List.mem_cons_self
      have htest : ¬short ((data.size : Int) - p) 6 = true := by
        rw [short_iff (by omega) (by decide)]
        omega
      rw [fontLoop, if_neg htest, fontsAt, List.find?_cons]
      by_cases hfits : q.Fits data p
      · rw [if_pos hfits, decide_eq_true hfits]
      · have hremain : (data.size : Int) - p - 6 - data.flen p =
            data.size - (p + 6 + data.flen p : Nat) := by
          push_cast
          ring
        rw [if_neg hfits, decide_eq_false hfits, hremain]
        exact ih (by omega) fun f hf => hin f (List.mem_cons_of_mem p hf)

theorem firstFont_cons {entries : List Nat} : data.firstFont q (p :: entries) =
    if data.isScreen p && data.codepage p == q.cp then
      (((data.fonts p).find? fun f => decide (q.Fits data f)).map fun f =>
        (f + 6, data.flen f)).or (data.firstFont q entries)
    else data.firstFont q entries := by
  rw [Image.firstFont, Image.screenFonts, List.filter_cons]
  split
  · rw [List.flatMap_cons, List.find?_append, Option.map_or]
    rfl
  · rfl

/-- Entries that are all in the file are looked through up to the first font that fits, or up to
an entry that is not for the screen. -/
theorem entryLoop_eq (hp : p ≤ 2 ^ 32)
    (hin : ∀ e ∈ entriesAt data n p, e + 28 ≤ data.size)
    (hinfos : ∀ e ∈ entriesAt data n p, data.isScreen e → data.offFont e + 6 ≤ data.size)
    (hfonts : ∀ e ∈ entriesAt data n p, data.isScreen e → ∀ f ∈ data.fonts e, f + 6 ≤ data.size) :
    (entryLoop data q n p (data.size - p)).2 =
      data.firstFont q ((entriesAt data n p).takeWhile data.isScreen) := by
  induction n generalizing p with
  | zero => rfl
  | succ n ih =>
      have hnextLt := @u32_lt data (p + 2)
      have hfontLt := @u32_lt data (p + 24)
      have hfirst : p + 28 ≤ data.size := hin p List.mem_cons_self
      have htest : ¬short ((data.size : Int) - p) 28 = true := by
        rw [short_iff (by omega) le_rfl]
        omega
      have hrest := @ih (data.offNexthdr p) (le_of_lt hnextLt)
        (fun e he => hin e (List.mem_cons_of_mem p he))
        (fun e he => hinfos e (List.mem_cons_of_mem p he))
        (fun e he => hfonts e (List.mem_cons_of_mem p he))
      rw [entryLoop_succ, if_neg htest, entriesAt, List.takeWhile_cons]
      by_cases hdevice : data.deviceType p = 1
      · have hscreen : data.isScreen p = true := beq_iff_eq.mpr hdevice
        rw [if_neg (not_not.mpr hdevice), hscreen, if_pos rfl, firstFont_cons, hscreen]
        by_cases hcp : data.codepage p = q.cp
        · have hinfo := hinfos p List.mem_cons_self hscreen
          have hnum := @u16_lt data (data.offFont p + 2)
          have htest' : ¬short ((data.size : Int) - data.offFont p) 6 = true := by
            rw [short_iff (by rw [Image.offFont]; omega) (by decide)]
            omega
          have hloop := @fontLoop_eq data q (data.offFont p + 6)
            (data.numFonts (data.offFont p)) (by
              rw [Image.numFonts, Image.offFont]
              rw [Image.offFont] at hnum
              omega) (hfonts p List.mem_cons_self hscreen)
          have hremain : (data.size : Int) - (data.offFont p + 6 : Nat) =
              data.size - data.offFont p - 6 := by
            push_cast
            ring
          rw [hremain] at hloop
          rw [if_neg (not_not.mpr hcp), if_pos (by simpa using hcp), infoHeader, if_neg htest',
            andThen_snd, hloop, ← hrest, Image.fonts]
          cases (fontsAt data (data.numFonts (data.offFont p)) (data.offFont p + 6)).find?
            fun f => decide (q.Fits data f) <;> rfl
        · rw [if_pos hcp, if_neg (by simpa using hcp)]
          exact hrest
      · have hscreen : data.isScreen p = false := beq_eq_false_iff_ne.mpr hdevice
        rw [if_pos hdevice, hscreen]
        rfl

/-- On a well-formed file, the search returns the first font that fits, unless it comes to an entry
for another device before. -/
theorem findFont_eq (h : data.WellFormed) :
    (findFont data q).2 = data.firstFont q (data.entries.takeWhile data.isScreen) := by
  have hheader := h.header
  have htest : ¬short data.size 25 = true := by
    have hshort := @short_iff data 0 25 (by decide) (by decide)
    rw [Nat.cast_zero, sub_zero] at hshort
    rw [hshort]
    omega
  rw [findFont, if_neg htest, h.id, Bool.not_true, if_neg Bool.false_ne_true]
  exact entryLoop_eq (by decide) h.entries h.infos h.fonts

/-- The search stays in the file, returns a font that is in it, and the right one if the file is
well formed. -/
def Keeps (data : Image) (q : Query) : Prop :=
  Inside data (findFont data q) ∧
    (data.WellFormed → (findFont data q).2 = data.firstFont q data.entries)

/-- No entry for another device comes before the first font that fits. -/
def Unhidden (data : Image) (q : Query) : Prop :=
  data.firstFont q (data.entries.takeWhile data.isScreen) = data.firstFont q data.entries

/-- The search keeps what it promises exactly if it comes to no header behind the end of the file
and to no font that ends there, and no entry for another device hides the font. -/
theorem findFont_iff (data : Image) (q : Query) :
    Keeps data q ↔ Sound data q (firstPlace data) ∧ (data.WellFormed → Unhidden data q) := by
  rw [Keeps, findFont_safe_iff, Unhidden]
  constructor
  · rintro ⟨hsound, hright⟩
    exact ⟨hsound, fun h => (findFont_eq h).symm.trans (hright h)⟩
  · rintro ⟨hsound, hright⟩
    exact ⟨hsound, fun h => (findFont_eq h).trans (hright h)⟩

/-- A file of 53 bytes, whose one entry of two sends the search to offset 1000. -/
def strayEntry : Image where
  mem p := BitVec.ofNat 8 ([0xff, 70, 79, 78, 84, 0, 0, 0, 0, 0, 0, 0, 0, 0, 0, 0, 1, 0, 1, 23, 0,
    0, 0, 2, 0, 28, 0, 0xe8, 3, 0, 0, 1, 0].getD p 0)
  size := 53
  offT := by decide

/-- The search reads an entry behind the file. -/
theorem reads_behind : (1000, 28) ∈ (findFont strayEntry ⟨437, 8, 16⟩).1 ∧
    ¬Keeps strayEntry ⟨437, 8, 16⟩ := by
  have hread : (1000, 28) ∈ (findFont strayEntry ⟨437, 8, 16⟩).1 := by decide +kernel
  refine ⟨hread, fun h => ?_⟩
  exact absurd (h.1.1 _ hread) (by decide)

end Cpi
end Core
end Dosemu
