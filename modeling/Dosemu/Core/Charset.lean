import Mathlib.Tactic

/-!
# Compound character sets

A compound set puts up to four tables together: G0 and G1 for the printable codes below and
above 0x80, C0 and C1 for the control codes.  The encoder tries the tables in a fixed order,
the decoder takes the table that the first byte's high bits name.

Main results:

- Theorem `Piece.encode_decodes`: a table's code is in the table's range and is read back.
- Theorem `Compound.decode_of_slot`: the decoder picks the table whose range the first byte
  is in.
- Theorem `Compound.compound_roundTrips_iff`: the compound set round trips, but for a space or
  delete that is asked for with no room at all.
-/

namespace Dosemu
namespace Core
namespace Charset

/-- `t_unicode` -/
abbrev Symbol := BitVec 32

abbrev Byte := BitVec 8

def uSpace : Symbol :=
  0x20#32

def uDelete : Symbol :=
  0x7f#32

/-- `errno` behind a result of -1; `unset` where the call leaves it as it was -/
inductive Errno where
  | eilseq
  | einval
  | negE2big
  | unset
  deriving DecidableEq, Repr

/-! ## Primitive sets -/

/-- A primitive `struct char_set`: `logical_chars_count`, `bytes_per_char` and `chars`. -/
structure Piece where
  logical : Nat
  bytes : Nat
  chars : List Symbol
  bytes_ok : bytes = 1 ∨ bytes = 2
  count_le : chars.length ≤ logical ^ bytes

namespace Piece

variable (piece : Piece)

/-- `buff`, for the character at index `i` -/
def code (offset i : Nat) : List Byte :=
  if piece.bytes = 1 then
    [BitVec.ofNat 8 (i + offset)]
  else
    [BitVec.ofNat 8 (i / piece.logical + offset), BitVec.ofNat 8 (i % piece.logical + offset)]

/-- `ch >= offset && ch <= max`, where `max` is `offset + logical_chars_count - 1` -/
def inRange (offset : Nat) (ch : Byte) : Prop :=
  offset ≤ ch.toNat ∧ ch.toNat < offset + piece.logical

instance (offset : Nat) (ch : Byte) : Decidable (piece.inRange offset ch) :=
  inferInstanceAs (Decidable (_ ∧ _))

/-- `unicode_to_charset_primitive`: what is put in `outbuf` -/
def encode (offset : Nat) (symbol : Symbol) (outLen : Nat) : Except Errno (List Byte) :=
  let i := piece.chars.idxOf symbol
  if i < piece.chars.length then
    if piece.bytes ≤ outLen then
      .ok (piece.code offset i)
    else
      .error .negE2big
  else
    .error .eilseq

/-- `index` of `charset_to_unicode_primitive`; it stays at `chars_count` for bytes out of
range. -/
def index (offset : Nat) (str : List Byte) : Nat :=
  if piece.bytes = 1 then
    match str with
    | ch :: _ =>
        if piece.inRange offset ch then ch.toNat - offset else piece.chars.length
    | [] => piece.chars.length
  else
    match str with
    | hi :: lo :: _ =>
        if piece.inRange offset hi ∧ piece.inRange offset lo then
          (hi.toNat - offset) * piece.logical + (lo.toNat - offset)
        else
          piece.chars.length
    | _ => piece.chars.length

/-- `charset_to_unicode_primitive`: `*symbol_out` and the number of bytes taken -/
def decode (offset : Nat) (str : List Byte) : Except Errno (Symbol × Nat) :=
  if str.length < piece.bytes then
    .error .einval
  else
    match piece.chars[piece.index offset str]? with
    | some symbol => .ok (symbol, piece.bytes)
    | none => .error .eilseq

theorem code_length (offset i : Nat) :
    (piece.code offset i).length = piece.bytes := by
  unfold code
  split
  next h => simp [h]
  next h =>
    have hbytes := piece.bytes_ok
    simp
    omega

theorem byte_toNat {n : Nat} (h : n < 256) :
    (BitVec.ofNat 8 n).toNat = n := by
  rw [BitVec.toNat_ofNat]
  exact Nat.mod_eq_of_lt h

/-- The quotient of a two byte code stays below the number of logical characters. -/
theorem quotient_lt {i : Nat} (hi : i < piece.chars.length) (hbytes : ¬piece.bytes = 1) :
    i / piece.logical < piece.logical := by
  have htwo : piece.bytes = 2 := by
    have := piece.bytes_ok
    omega
  apply Nat.div_lt_of_lt_mul
  calc
    i < piece.chars.length := hi
    _ ≤ piece.logical ^ piece.bytes := piece.count_le
    _ = piece.logical * piece.logical := by rw [htwo, pow_two]

theorem logical_pos {i : Nat} (hi : i < piece.chars.length) : 0 < piece.logical := by
  apply Nat.pos_of_ne_zero
  intro hzero
  have hcount := piece.count_le
  have hbytes := piece.bytes_ok
  rw [hzero, zero_pow (by omega)] at hcount
  omega

/-- A digit of a code is in the range, and is read back from its byte. -/
theorem digit_spec {offset d : Nat} (hd : d < piece.logical)
    (hroom : offset + piece.logical ≤ 256) :
    piece.inRange offset (BitVec.ofNat 8 (d + offset)) ∧
      (BitVec.ofNat 8 (d + offset)).toNat - offset = d := by
  have hbyte : (BitVec.ofNat 8 (d + offset)).toNat = d + offset := byte_toNat (by omega)
  unfold inRange
  rw [hbyte]
  omega

/-- The code of a character starts in the table's range, and its index is read back. -/
theorem code_spec {offset i : Nat} (hi : i < piece.chars.length)
    (hroom : offset + piece.logical ≤ 256) :
    ∃ ch rest, piece.code offset i = ch :: rest ∧ piece.inRange offset ch ∧
      piece.index offset (piece.code offset i) = i := by
  by_cases hbytes : piece.bytes = 1
  · have hlt : i < piece.logical := by
      have hcount := piece.count_le
      rw [hbytes, pow_one] at hcount
      omega
    obtain ⟨hrange, hback⟩ := piece.digit_spec hlt hroom
    have hcode : piece.code offset i = [BitVec.ofNat 8 (i + offset)] := if_pos hbytes
    refine ⟨_, [], hcode, hrange, ?_⟩
    rw [hcode, index, if_pos hbytes]
    simp only [if_pos hrange]
    exact hback
  · have hquot := piece.quotient_lt hi hbytes
    have hrem : i % piece.logical < piece.logical := Nat.mod_lt _ (piece.logical_pos hi)
    obtain ⟨hhi, hhi_back⟩ := piece.digit_spec hquot hroom
    obtain ⟨hlo, hlo_back⟩ := piece.digit_spec hrem hroom
    have hcode : piece.code offset i = [BitVec.ofNat 8 (i / piece.logical + offset),
        BitVec.ofNat 8 (i % piece.logical + offset)] := if_neg hbytes
    refine ⟨_, _, hcode, hhi, ?_⟩
    rw [hcode, index, if_neg hbytes]
    simp only [if_pos (And.intro hhi hlo), hhi_back, hlo_back]
    rw [Nat.mul_comm]
    exact Nat.div_add_mod i piece.logical

theorem encode_ok {offset : Nat} {symbol : Symbol} {outLen : Nat} {bs : List Byte}
    (h : piece.encode offset symbol outLen = .ok bs) :
    symbol ∈ piece.chars ∧ piece.bytes ≤ outLen ∧
      bs = piece.code offset (piece.chars.idxOf symbol) := by
  unfold encode at h
  dsimp only at h
  split at h
  next hfound =>
    split at h
    next hroom =>
      cases h
      exact ⟨List.idxOf_lt_length_iff.mp hfound, hroom, rfl⟩
    next => cases h
  next => cases h

theorem encode_of_mem {offset : Nat} {symbol : Symbol} {outLen : Nat}
    (hmem : symbol ∈ piece.chars) (hroom : piece.bytes ≤ outLen) :
    ∃ bs, piece.encode offset symbol outLen = .ok bs := by
  refine ⟨piece.code offset (piece.chars.idxOf symbol), ?_⟩
  unfold encode
  rw [if_pos (List.idxOf_lt_length_iff.mpr hmem), if_pos hroom]

theorem encode_of_not_mem {offset : Nat} {symbol : Symbol} {outLen : Nat}
    (hmem : symbol ∉ piece.chars) :
    piece.encode offset symbol outLen = .error .eilseq := by
  unfold encode
  rw [if_neg (fun h => hmem (List.idxOf_lt_length_iff.mp h))]

/-- A code is no longer than the room for it, starts in the range and is read back. -/
theorem encode_decodes {offset : Nat} {symbol : Symbol} {outLen : Nat} {bs : List Byte}
    (hroom : offset + piece.logical ≤ 256)
    (h : piece.encode offset symbol outLen = .ok bs) :
    bs.length ≤ outLen ∧ piece.decode offset bs = .ok (symbol, bs.length) ∧
      ∃ ch rest, bs = ch :: rest ∧ piece.inRange offset ch := by
  obtain ⟨hmem, hlen, hbs⟩ := piece.encode_ok h
  have hi := List.idxOf_lt_length_iff.mpr hmem
  obtain ⟨ch, rest, hcode, hrange, hindex⟩ := piece.code_spec hi hroom
  have hlength : bs.length = piece.bytes := by
    rw [hbs]
    exact piece.code_length offset _
  refine ⟨by omega, ?_, ch, rest, hbs.trans hcode, hrange⟩
  unfold decode
  rw [if_neg (by omega), hbs, hindex, List.getElem?_eq_getElem hi, List.getElem_idxOf,
    code_length]

theorem decode_mem {offset : Nat} {str : List Byte} {symbol : Symbol} {n : Nat}
    (h : piece.decode offset str = .ok (symbol, n)) :
    symbol ∈ piece.chars := by
  unfold decode at h
  split at h
  next => cases h
  next =>
    split at h
    next found hfound =>
      cases h
      exact List.mem_of_getElem? hfound
    next => cases h

/-- `offset`, one further for a set of 94 -/
def start (offset : Nat) : Nat :=
  if piece.logical = 94 then offset + 1 else offset

end Piece

/-! ## Compound sets -/

/-- A compound `struct char_set`.  `g0` is read without a test for NULL. -/
structure Compound where
  g0 : Piece
  g1 : Option Piece
  c0 : Option Piece
  c1 : Option Piece
  g0_count : g0.logical = 94 ∨ g0.logical = 96
  g1_count : ∀ piece ∈ g1, piece.logical = 94 ∨ piece.logical = 96
  c0_count : ∀ piece ∈ c0, piece.logical ≤ 32
  c1_count : ∀ piece ∈ c1, piece.logical ≤ 32

/-- `attempt_piece`; `errno` is what it was before the call. -/
def attemptPiece (piece : Option Piece) (offset : Nat) (symbol : Symbol) (outLen : Nat)
    (errno : Errno) : Except Errno (List Byte) :=
  match piece with
  | none => .error errno
  | some piece => piece.encode (piece.start offset) symbol outLen

/-- `if ((result == -1) && (errno == EILSEQ)) result = attempt` -/
def orTry (result : Except Errno (List Byte))
    (attempt : Errno → Except Errno (List Byte)) : Except Errno (List Byte) :=
  match result with
  | .error .eilseq => attempt .eilseq
  | _ => result

namespace Compound

variable (set : Compound)

/-- Space and delete, which no table of 94 holds -/
def special (symbol : Symbol) : Except Errno (List Byte) :=
  if set.g0.logical = 94 then
    if symbol = uSpace then
      .ok [0x20#8]
    else if symbol = uDelete then
      .ok [0x7f#8]
    else
      .error .eilseq
  else
    .error .eilseq

/-- `unicode_to_compound_charset` -/
def encode (symbol : Symbol) (outLen : Nat) : Except Errno (List Byte) :=
  let result := set.special symbol
  let result := orTry result (attemptPiece (some set.g0) 0x20 symbol outLen)
  let result := orTry result (attemptPiece set.g1 0xA0 symbol outLen)
  let result := orTry result (attemptPiece set.c0 0x00 symbol outLen)
  orTry result (attemptPiece set.c1 0x80 symbol outLen)

/-- The call through `piece->ops`, behind the test for NULL -/
def decodePiece (piece : Option Piece) (offset : Nat) (str : List Byte) :
    Except Errno (Symbol × Nat) :=
  match piece with
  | none => .error .unset
  | some piece => piece.decode offset str

/-- `compound_charset_to_unicode`.  An empty string does not come here: its callers answer
EINVAL themselves. -/
def decode (str : List Byte) : Except Errno (Symbol × Nat) :=
  match str with
  | [] => .error .einval
  | ch :: _ =>
      if set.g0.logical = 94 ∧ ch = 0x20#8 then
        .ok (uSpace, 1)
      else if set.g0.logical = 94 ∧ ch = 0x7f#8 then
        .ok (uDelete, 1)
      else if (ch &&& 0x7f#8).toNat ≤ 0x1f then
        let offset := (ch &&& 0x80#8).toNat
        decodePiece (if offset < 0x80 then set.c0 else set.c1) offset str
      else
        let offset := (ch &&& 0x80#8).toNat + 0x20
        let piece := if offset < 0x80 then some set.g0 else set.g1
        decodePiece piece ((piece.map (Piece.start · offset)).getD offset) str

/-! ### The four tables and their ranges -/

inductive Slot where
  | g0
  | g1
  | c0
  | c1

def Slot.base : Slot → Nat
  | .g0 => 0x20
  | .g1 => 0xA0
  | .c0 => 0x00
  | .c1 => 0x80

def Slot.size : Slot → Nat
  | .g0 | .g1 => 0x60
  | .c0 | .c1 => 0x20

def pieceAt : Slot → Option Piece
  | .g0 => some set.g0
  | .g1 => set.g1
  | .c0 => set.c0
  | .c1 => set.c1

/-- A table fits between its slot's base and the next slot. -/
theorem slot_fits {slot : Slot} {piece : Piece} (h : set.pieceAt slot = some piece) :
    piece.start slot.base + piece.logical ≤ slot.base + slot.size := by
  have hgraphic (hcount : piece.logical = 94 ∨ piece.logical = 96) (base : Nat) :
      piece.start base + piece.logical ≤ base + 0x60 := by
    unfold Piece.start
    split <;> omega
  have hcontrol (hcount : piece.logical ≤ 32) (base : Nat) :
      piece.start base + piece.logical ≤ base + 0x20 := by
    unfold Piece.start
    rw [if_neg (by omega)]
    omega
  cases slot with
  | g0 =>
      have hpiece : set.g0 = piece := Option.some.inj h
      exact hgraphic (hpiece ▸ set.g0_count) _
  | g1 => exact hgraphic (set.g1_count piece h) _
  | c0 => exact hcontrol (set.c0_count piece h) _
  | c1 => exact hcontrol (set.c1_count piece h) _

theorem low_toNat (ch : Byte) : (ch &&& 0x7f#8).toNat = ch.toNat % 128 := by
  rw [BitVec.toNat_and]
  exact Nat.and_two_pow_sub_one_eq_mod ch.toNat 7

theorem high_toNat (ch : Byte) : (ch &&& 0x80#8).toNat = ch.toNat / 128 * 128 := by
  have hall : ∀ n : Fin 256, n.val &&& 128 = n.val / 128 * 128 := by
    decide +kernel
  rw [BitVec.toNat_and]
  exact hall ⟨ch.toNat, ch.isLt⟩

/-- The decoder picks the table that the first byte is in the range of. -/
theorem decode_of_slot {slot : Slot} {piece : Piece} {ch : Byte} {rest : List Byte}
    (h : set.pieceAt slot = some piece) (hrange : piece.inRange (piece.start slot.base) ch) :
    set.decode (ch :: rest) = piece.decode (piece.start slot.base) (ch :: rest) := by
  have hfits := set.slot_fits h
  have hstart : slot.base ≤ piece.start slot.base := by
    unfold Piece.start
    split <;> omega
  obtain ⟨hge, hlt⟩ := hrange
  have hlow := low_toNat ch
  have hhigh := high_toNat ch
  have hspecial (code : Byte) (hcode : code.toNat = 0x20 ∨ code.toNat = 0x7f) :
      ¬(set.g0.logical = 94 ∧ ch = code) := by
    rintro ⟨h94, rfl⟩
    cases slot with
    | g0 =>
        have hpiece : set.g0 = piece := Option.some.inj h
        rw [hpiece] at h94
        simp only [Piece.start, if_pos h94, Slot.base] at hge hlt
        omega
    | g1 | c0 | c1 =>
        simp only [Slot.base, Slot.size] at hfits hstart hge hlt
        omega
  change (if _ then _ else if _ then _ else if _ then _ else _) = _
  rw [if_neg (hspecial 0x20#8 (Or.inl rfl)), if_neg (hspecial 0x7f#8 (Or.inr rfl))]
  cases slot with
  | g0 =>
      simp only [Slot.base, Slot.size] at hfits hstart hge hlt
      have hoffset : (ch &&& 0x80#8).toNat = 0 := by omega
      have hpiece : set.g0 = piece := Option.some.inj h
      rw [if_neg (by omega)]
      simp only [hoffset, hpiece, Slot.base]
      rfl
  | g1 =>
      simp only [Slot.base, Slot.size] at hfits hstart hge hlt
      have hoffset : (ch &&& 0x80#8).toNat = 0x80 := by omega
      have hpiece : set.g1 = some piece := h
      rw [if_neg (by omega)]
      simp only [hoffset, hpiece, Slot.base]
      rfl
  | c0 =>
      have hplain : piece.start 0x00 = 0x00 := if_neg (by have := set.c0_count piece h; omega)
      simp only [Slot.base, Slot.size] at hfits hstart hge hlt
      have hoffset : (ch &&& 0x80#8).toNat = 0 := by omega
      have hpiece : set.c0 = some piece := h
      rw [if_pos (by omega)]
      simp only [hoffset, hpiece, Slot.base, hplain]
      rfl
  | c1 =>
      have hplain : piece.start 0x80 = 0x80 := if_neg (by have := set.c1_count piece h; omega)
      simp only [Slot.base, Slot.size] at hfits hstart hge hlt
      have hoffset : (ch &&& 0x80#8).toNat = 0x80 := by omega
      have hpiece : set.c1 = some piece := h
      rw [if_pos (by omega)]
      simp only [hoffset, hpiece, Slot.base, hplain]
      rfl

/-- What is decoded is space or delete, or stands in one of the tables. -/
theorem decode_source {str : List Byte} {symbol : Symbol} {n : Nat}
    (h : set.decode str = .ok (symbol, n)) :
    (set.g0.logical = 94 ∧ (symbol = uSpace ∨ symbol = uDelete)) ∨
      ∃ slot piece, set.pieceAt slot = some piece ∧ symbol ∈ piece.chars := by
  have hpiece {slot : Slot} {offset : Nat}
      (hdecode : decodePiece (set.pieceAt slot) offset str = .ok (symbol, n)) :
      ∃ slot piece, set.pieceAt slot = some piece ∧ symbol ∈ piece.chars := by
    cases hat : set.pieceAt slot with
    | none =>
        rw [hat] at hdecode
        cases hdecode
    | some piece =>
        rw [hat] at hdecode
        exact ⟨slot, piece, hat, piece.decode_mem hdecode⟩
  unfold decode at h
  split at h
  next => cases h
  next ch rest =>
    split at h
    next hspace =>
      cases h
      exact Or.inl ⟨hspace.1, Or.inl rfl⟩
    next =>
      split at h
      next hdelete =>
        cases h
        exact Or.inl ⟨hdelete.1, Or.inr rfl⟩
      next =>
        dsimp only at h
        split at h
        next =>
          split at h
          next => exact Or.inr (@hpiece .c0 _ h)
          next => exact Or.inr (@hpiece .c1 _ h)
        next =>
          split at h
          next => exact Or.inr (@hpiece .g0 _ h)
          next => exact Or.inr (@hpiece .g1 _ h)

/-! ### The order in which the encoder tries -/

theorem orTry_ok {result : Except Errno (List Byte)}
    {attempt : Errno → Except Errno (List Byte)} {bs : List Byte}
    (h : orTry result attempt = .ok bs) :
    result = .ok bs ∨ attempt .eilseq = .ok bs := by
  unfold orTry at h
  split at h
  next => exact Or.inr h
  next => exact Or.inl h

theorem orTry_error {result : Except Errno (List Byte)}
    {attempt : Errno → Except Errno (List Byte)}
    (h : orTry result attempt = .error .eilseq) :
    result = .error .eilseq ∧ attempt .eilseq = .error .eilseq := by
  unfold orTry at h
  split at h
  next => exact ⟨rfl, h⟩
  next hother => exact absurd h hother

theorem attemptPiece_ok {slot : Slot} {symbol : Symbol} {outLen : Nat} {bs : List Byte}
    (h : attemptPiece (set.pieceAt slot) slot.base symbol outLen .eilseq = .ok bs) :
    ∃ slot piece, set.pieceAt slot = some piece ∧
      piece.encode (piece.start slot.base) symbol outLen = .ok bs := by
  cases hat : set.pieceAt slot with
  | none =>
      rw [hat] at h
      cases h
  | some piece =>
      rw [hat] at h
      exact ⟨slot, piece, hat, h⟩

theorem special_ok {symbol : Symbol} {bs : List Byte} (h : set.special symbol = .ok bs) :
    set.g0.logical = 94 ∧
      ((symbol = uSpace ∧ bs = [0x20#8]) ∨ (symbol = uDelete ∧ bs = [0x7f#8])) := by
  unfold special at h
  split at h
  next h94 =>
    split at h
    next hspace =>
      cases h
      exact ⟨h94, Or.inl ⟨hspace, rfl⟩⟩
    next =>
      split at h
      next hdelete =>
        cases h
        exact ⟨h94, Or.inr ⟨hdelete, rfl⟩⟩
      next => cases h
  next => cases h

/-- A code comes from the two special cases or from one of the tables. -/
theorem encode_source {symbol : Symbol} {outLen : Nat} {bs : List Byte}
    (h : set.encode symbol outLen = .ok bs) :
    set.special symbol = .ok bs ∨
      ∃ slot piece, set.pieceAt slot = some piece ∧
        piece.encode (piece.start slot.base) symbol outLen = .ok bs := by
  rcases orTry_ok h with h | hc1
  · rcases orTry_ok h with h | hc0
    · rcases orTry_ok h with h | hg1
      · rcases orTry_ok h with h | hg0
        · exact Or.inl h
        · exact Or.inr (@attemptPiece_ok set .g0 symbol outLen bs hg0)
      · exact Or.inr (@attemptPiece_ok set .g1 symbol outLen bs hg1)
    · exact Or.inr (@attemptPiece_ok set .c0 symbol outLen bs hc0)
  · exact Or.inr (@attemptPiece_ok set .c1 symbol outLen bs hc1)

/-! ### Round trips -/

/-- A code fits in the room there is, and is read back in full. -/
def RoundTrips (symbol : Symbol) (outLen : Nat) : Prop :=
  ∀ bs, set.encode symbol outLen = .ok bs →
    bs.length ≤ outLen ∧ set.decode bs = .ok (symbol, bs.length)

def Encodable (symbol : Symbol) : Prop :=
  ∃ outLen bs, set.encode symbol outLen = .ok bs

/-- With room for two bytes an attempt finds the symbol or says EILSEQ. -/
def Settled (result : Except Errno (List Byte)) : Prop :=
  result = .error .eilseq ∨ ∃ bs, result = .ok bs

theorem Settled.orTry {result : Except Errno (List Byte)}
    {attempt : Errno → Except Errno (List Byte)} (hresult : Settled result)
    (hattempt : Settled (attempt .eilseq)) : Settled (orTry result attempt) := by
  rcases hresult with h | ⟨bs, h⟩
  · rw [h]
    exact hattempt
  · rw [h]
    exact Or.inr ⟨bs, rfl⟩

theorem settled_special (symbol : Symbol) : Settled (set.special symbol) := by
  unfold special Settled
  split
  next =>
    split
    next => exact Or.inr ⟨_, rfl⟩
    next =>
      split
      next => exact Or.inr ⟨_, rfl⟩
      next => exact Or.inl rfl
  next => exact Or.inl rfl

theorem settled_attempt (piece : Option Piece) (offset : Nat) (symbol : Symbol) :
    Settled (attemptPiece piece offset symbol 2 .eilseq) := by
  cases piece with
  | none => exact Or.inl rfl
  | some piece =>
      by_cases hmem : symbol ∈ piece.chars
      · have hroom : piece.bytes ≤ 2 := by
          have := piece.bytes_ok
          omega
        exact Or.inr (piece.encode_of_mem hmem hroom)
      · exact Or.inl (piece.encode_of_not_mem hmem)

theorem not_encodable_tries {symbol : Symbol} (h : ¬set.Encodable symbol) :
    set.special symbol = .error .eilseq ∧
      ∀ slot : Slot,
        attemptPiece (set.pieceAt slot) slot.base symbol 2 .eilseq = .error .eilseq := by
  have hsettled : Settled (set.encode symbol 2) :=
    (((((set.settled_special symbol).orTry (settled_attempt _ _ _)).orTry
      (settled_attempt _ _ _)).orTry (settled_attempt _ _ _)).orTry (settled_attempt _ _ _))
  have hencode : set.encode symbol 2 = .error .eilseq := by
    rcases hsettled with herror | ⟨bs, hok⟩
    · exact herror
    · exact absurd ⟨2, bs, hok⟩ h
  obtain ⟨h, hc1⟩ := orTry_error hencode
  obtain ⟨h, hc0⟩ := orTry_error h
  obtain ⟨h, hg1⟩ := orTry_error h
  obtain ⟨h, hg0⟩ := orTry_error h
  refine ⟨h, fun slot => ?_⟩
  cases slot with
  | g0 => exact hg0
  | g1 => exact hg1
  | c0 => exact hc0
  | c1 => exact hc1

theorem encodable_of_mem {slot : Slot} {piece : Piece} {symbol : Symbol}
    (hat : set.pieceAt slot = some piece) (hmem : symbol ∈ piece.chars) :
    set.Encodable symbol := by
  by_contra hnot
  have hattempt := (set.not_encodable_tries hnot).2 slot
  rw [hat] at hattempt
  have hroom : piece.bytes ≤ 2 := by
    have := piece.bytes_ok
    omega
  obtain ⟨bs, hbs⟩ := @Piece.encode_of_mem piece (piece.start slot.base) symbol 2 hmem hroom
  have hclash : (Except.ok bs : Except Errno (List Byte)) = .error .eilseq :=
    hbs.symm.trans hattempt
  cases hclash

/-- Every symbol that the decoder yields is encodable. -/
theorem decode_encodable {str : List Byte} {symbol : Symbol} {n : Nat}
    (h : set.decode str = .ok (symbol, n)) :
    set.Encodable symbol := by
  rcases set.decode_source h with ⟨h94, hsymbol⟩ | ⟨slot, piece, hat, hmem⟩
  · by_contra hnot
    have hspecial := (set.not_encodable_tries hnot).1
    rcases hsymbol with rfl | rfl
    · simp [special, h94] at hspecial
    · simp [special, h94, uSpace, uDelete] at hspecial
  · exact set.encodable_of_mem hat hmem

theorem piece_roundTrips {slot : Slot} {piece : Piece} {symbol : Symbol} {outLen : Nat}
    {bs : List Byte} (hat : set.pieceAt slot = some piece)
    (h : piece.encode (piece.start slot.base) symbol outLen = .ok bs) :
    bs.length ≤ outLen ∧ set.decode bs = .ok (symbol, bs.length) := by
  have hend : slot.base + slot.size ≤ 256 := by
    cases slot <;> decide
  have hroom := (set.slot_fits hat).trans hend
  obtain ⟨hlen, hdecode, ch, rest, hbs, hrange⟩ := piece.encode_decodes hroom h
  refine ⟨hlen, ?_⟩
  rw [← hdecode, hbs]
  exact set.decode_of_slot hat hrange

/-- The symbol goes past the tables. -/
def IsSpecial (symbol : Symbol) : Prop :=
  set.g0.logical = 94 ∧ (symbol = uSpace ∨ symbol = uDelete)

theorem special_roundTrips {symbol : Symbol} {outLen : Nat} {bs : List Byte}
    (hroom : 1 ≤ outLen) (h : set.special symbol = .ok bs) :
    bs.length ≤ outLen ∧ set.decode bs = .ok (symbol, bs.length) := by
  obtain ⟨h94, ⟨rfl, rfl⟩ | ⟨rfl, rfl⟩⟩ := set.special_ok h
  · refine ⟨hroom, ?_⟩
    exact if_pos ⟨h94, rfl⟩
  · refine ⟨hroom, ?_⟩
    change (if _ then _ else if _ then _ else _) = _
    rw [if_neg (fun hspace => absurd hspace.2 (by decide)), if_pos ⟨h94, rfl⟩]
    rfl

theorem special_of_isSpecial {symbol : Symbol} (h : set.IsSpecial symbol) :
    ∃ b : Byte, set.special symbol = .ok [b] := by
  obtain ⟨h94, hsymbol⟩ := h
  unfold special
  rw [if_pos h94]
  by_cases hspace : symbol = uSpace
  · exact ⟨_, if_pos hspace⟩
  · rw [if_neg hspace, if_pos (hsymbol.resolve_left hspace)]
    exact ⟨_, rfl⟩

/-- The set round trips for a symbol and an output length, and encodes all that it decodes,
unless the symbol goes past the tables and there is no room at all. -/
theorem compound_roundTrips_iff (symbol : Symbol) (outLen : Nat) :
    (set.RoundTrips symbol outLen ∧
      ∀ str found n, set.decode str = .ok (found, n) → set.Encodable found) ↔
      ¬(outLen = 0 ∧ set.IsSpecial symbol) := by
  constructor
  · rintro ⟨htrip, -⟩ ⟨rfl, hspecial⟩
    obtain ⟨b, hb⟩ := set.special_of_isSpecial hspecial
    have hencode : set.encode symbol 0 = .ok [b] := by
      unfold encode
      rw [hb]
      rfl
    have hlen := (htrip [b] hencode).1
    exact absurd hlen (by simp)
  · intro hroom
    refine ⟨fun bs hbs => ?_, fun str found n h => set.decode_encodable h⟩
    rcases set.encode_source hbs with hspecial | ⟨slot, piece, hat, hpiece⟩
    · obtain ⟨h94, hcases⟩ := set.special_ok hspecial
      have hsymbol : symbol = uSpace ∨ symbol = uDelete :=
        hcases.imp And.left And.left
      have hpos : 1 ≤ outLen := by
        by_contra hzero
        exact hroom ⟨by omega, h94, hsymbol⟩
      exact set.special_roundTrips hpos hspecial
    · exact set.piece_roundTrips hat hpiece

/-- A set whose only table is empty -/
def emptyAscii : Compound where
  g0 := ⟨94, 1, [], Or.inl rfl, Nat.zero_le _⟩
  g1 := none
  c0 := none
  c1 := none
  g0_count := Or.inl rfl
  g1_count := fun _ h => nomatch h
  c0_count := fun _ h => nomatch h
  c1_count := fun _ h => nomatch h

/-- A space is written where there is no room. -/
theorem space_without_room :
    emptyAscii.encode uSpace 0 = .ok [0x20#8] ∧ ¬emptyAscii.RoundTrips uSpace 0 := by
  refine ⟨rfl, fun htrip => ?_⟩
  have hlen := (htrip [0x20#8] rfl).1
  exact absurd hlen (by decide)

end Compound

end Charset
end Core
end Dosemu
