import Dosemu.Lib.BitStream

/-!
# The file allocation table of an emulated disk

`read_fat` builds one sector of the table of a directory that is served as a
disk, from the successor of each cluster.  Entries of 12 bits do not divide a
sector, so the first entry of a sector may have begun in the one before; the
code keeps the byte, the bit within it and what is left of the entry by hand.
Once all objects are known, a sector that begins at or behind the first free
cluster is left zero.

Main results:

- Theorem `putEntry_spec`: one entry, or what fits of it.
- Theorem `readFat_spec`: every sector is built without leaving the buffer, and
  holds its part of the stream of entries.
- Theorem `fatImage_entry`: the entries of all sectors taken together.
-/

namespace Dosemu
namespace Disks

open Function
open BitStream

/-! ## Geometry -/

/-- `FAT_TYPE_FAT12` and `FAT_TYPE_FAT16`. -/
inductive FatType where
  | fat12
  | fat16
  deriving DecidableEq, Repr

/-- The bits of an entry. -/
def FatType.width : FatType → Nat
  | .fat12 => 12
  | .fat16 => 16

/-- `default_cmos` of a floppy drive; `none` is any other value. -/
inductive FloppyType where
  | threeInch2880K
  | threeInch
  | fiveInch
  | threeInch720K
  | fiveInch360K
  | none
  deriving DecidableEq, Repr

/-- What `fatfs_init` chooses the table by: the type of the floppy drive, or the
number of sectors of the partition. -/
inductive Geometry where
  | floppy (cmos : FloppyType)
  | hard (numSectors : BitVec 32)
  deriving DecidableEq, Repr

/-- `SECTOR_SIZE` -/
def sectorSize : Nat := 0x200

/-- `fat_type`; the number of sectors is compared as a signed number. -/
def Geometry.fatType : Geometry → FatType
  | .floppy _ => .fat12
  | .hard numSectors => if numSectors.toInt ≤ 4078 * 8 then .fat12 else .fat16

/-- `cluster_secs` of a FAT16 disk: the loop stops at the first size whose
clusters are enough, or behind the largest. -/
def clusterSecs16 (totalSecs : BitVec 32) : BitVec 32 :=
  (([4, 8, 16, 32, 64, 128, 256, 512] : List (BitVec 32)).find? fun u =>
    decide (totalSecs < u * 0xfff0)).getD 1024

/-- `fat_secs` -/
def Geometry.fatSecs : Geometry → BitVec 32
  | .floppy .threeInch2880K => 9
  | .floppy .threeInch => 9
  | .floppy .fiveInch => 7
  | .floppy .threeInch720K => 3
  | .floppy .fiveInch360K => 2
  | .floppy .none => 0
  | .hard numSectors =>
      if numSectors.toInt ≤ 4078 * 8 then ((numSectors / 8 + 2) * 3 + 0x3ff) >>> 10
      else ((numSectors / clusterSecs16 numSectors + 2) * 2 + 0x1ff) >>> 9

/-- What `read_fat` uses of `fatfs_t`. -/
structure FatDisk where
  geometry : Geometry
  gotAllObjs : Bool
  firstFreeCluster : BitVec 32
  deriving DecidableEq, Repr

/-- The bits of an entry of the table. -/
abbrev FatDisk.width (f : FatDisk) : Nat := f.geometry.fatType.width

/-! ## One sector -/

/-- The buffer, with the byte and the bit that are next. -/
structure Cursor where
  buf : Nat → BitVec 8
  i : Nat
  nbit : Nat

/-- `buf[i] |= v`, which must stay inside of the buffer. -/
def Cursor.orByte (c : Cursor) (v : BitVec 32) : Option Cursor :=
  if c.i < sectorSize then
    some { c with buf := update c.buf c.i (c.buf c.i ||| v.setWidth 8) }
  else none

/-- `nbit += n; i += nbit >> 3; nbit &= 7`. -/
def Cursor.advance (c : Cursor) (n : Nat) : Cursor :=
  { c with i := c.i + (c.nbit + n) / 8, nbit := (c.nbit + n) % 8 }

/-- One pass of the loop of `read_fat`, behind the adjustment of the first entry:
whether the sector is full, and the buffer. -/
def putEntry (c : Cursor) (u1 : BitVec 32) (lnb : Nat) : Option (Bool × Cursor) :=
  (c.orByte ((u1 <<< c.nbit) &&& 0xff)).bind fun c =>
    let wb := min (8 - c.nbit) lnb
    let u1 := u1 >>> wb
    let lnb := lnb - wb
    let c := c.advance wb
    if sectorSize ≤ c.i then some (true, c)
    else if lnb = 0 then some (false, c)
    else
      (c.orByte u1).map fun c =>
        let c := c.advance lnb
        (decide (sectorSize ≤ c.i), c)

/-- The mask of FAT12; the other types take the successor as it is. -/
def FatType.mask (t : FatType) (u1 : BitVec 32) : BitVec 32 :=
  match t with
  | .fat12 => u1 &&& 0xfff
  | .fat16 => u1

/-- The loop of `read_fat`.  Every pass moves the cursor by at least one bit, so
that the passes are at most the bits of the sector. -/
def fillEntries (t : FatType) (next : BitVec 32 → BitVec 32) (u0 : BitVec 32) :
    Nat → BitVec 32 → Nat → Cursor → Option (Nat → BitVec 8)
  | 0, _, _, _ => none
  | fuel + 1, u, bioffs, c =>
      (putEntry c (t.mask (next (u + u0)) >>> bioffs) (t.width - bioffs)).bind fun (full, c) =>
        if full then some c.buf else fillEntries t next u0 fuel (u + 1) 0 c

/-- `epfs` -/
def FatType.epfs : FatType → BitVec 32
  | .fat12 => 0x200 * 2 / 3
  | .fat16 => 0x200 / 2

/-- `boffs` -/
def FatType.boffs : FatType → BitVec 32
  | .fat12 => (0x200 * 2) % 3 * 4
  | .fat16 => 0

/-- The first entry of a sector. -/
def FatType.firstEntry (t : FatType) (pos : BitVec 32) : BitVec 32 :=
  pos * t.epfs + pos * t.boffs / 12

/-- `read_fat` -/
def readFat (f : FatDisk) (next : BitVec 32 → BitVec 32) (pos : BitVec 32) :
    Option (Nat → BitVec 8) :=
  let t := f.geometry.fatType
  let u0 := t.firstEntry pos
  if f.gotAllObjs ∧ f.firstFreeCluster ≤ u0 then some fun _ => 0
  else
    fillEntries t next u0 (8 * sectorSize) 0 (pos * t.boffs % 12).toNat
      { buf := fun _ => 0, i := 0, nbit := 0 }

/-! ## One entry -/

variable {stream : Nat → Bool} {c : Cursor} {next : BitVec 32 → BitVec 32}

/-- The position of the cursor, in bits. -/
def Cursor.pos (c : Cursor) : Nat :=
  8 * c.i + c.nbit

/-- The buffer holds the stream up to the cursor. -/
structure Cursor.Ready (c : Cursor) (stream : Nat → Bool) : Prop where
  filled : Filled stream c.pos c.buf
  nbit : c.nbit < 8

theorem Cursor.advance_pos (c : Cursor) (n : Nat) : (c.advance n).pos = c.pos + n := by
  unfold Cursor.pos Cursor.advance
  simp only
  omega

/-- One byte is or-ed with the next bits of the stream. -/
theorem Cursor.Ready.orByte (h : c.Ready stream) {n : Nat} {v : BitVec 32}
    (hi : c.i < sectorSize) (hfits : c.nbit + n ≤ 8)
    (hv : ∀ j < 8, v.getLsbD j =
      (decide (c.nbit ≤ j ∧ j < c.nbit + n) && stream (8 * c.i + j))) :
    ∃ d, c.orByte v = some d ∧ d.i = c.i ∧ d.nbit = c.nbit ∧ (d.advance n).Ready stream := by
  refine ⟨_, if_pos hi, rfl, rfl, ?_, Nat.mod_lt _ (by decide)⟩
  have hnbit := h.nbit
  have hdiv : c.pos / 8 = c.i := by
    unfold Cursor.pos
    omega
  have hmod : c.pos % 8 = c.nbit := by
    unfold Cursor.pos
    omega
  rw [Cursor.advance_pos]
  have hstep := h.filled.or (n := n) (v := v.setWidth 8) (by rwa [hmod]) ?_
  · rwa [hdiv] at hstep
  · intro j hj
    rw [hmod, hdiv, BitVec.getLsbD_setWidth, hv j hj, Nat.mul_comm c.i 8]
    simp [hj]

/-- The part of an entry that fits into the byte, at the bit that is next. -/
theorem getLsbD_shifted (u1 : BitVec 32) {nbit j : Nat} (hj : j < 8) :
    ((u1 <<< nbit) &&& 0xff).getLsbD j = (decide (nbit ≤ j) && u1.getLsbD (j - nbit)) := by
  have hmask : (0xff : BitVec 32).getLsbD j = true := by
    have hall : ∀ j < 8, (0xff : BitVec 32).getLsbD j = true := by decide
    exact hall j hj
  have hword : j < 32 := by omega
  rw [BitVec.getLsbD_and, hmask, Bool.and_true, BitVec.getLsbD_shiftLeft]
  by_cases hlow : nbit ≤ j
  · simp [hword, hlow, Nat.not_lt.mpr hlow]
  · simp [hlow, Nat.not_le.mp hlow]

/-- An entry is written, or what fits of it into the sector. -/
theorem putEntry_spec (h : c.Ready stream) (hi : c.i < sectorSize) {u1 : BitVec 32} {lnb : Nat}
    (hfits : c.nbit + lnb ≤ 16) (hbits : ∀ j < lnb, u1.getLsbD j = stream (c.pos + j))
    (hclean : ∀ j, lnb ≤ j → j < 16 → u1.getLsbD j = false) :
    ∃ d, putEntry c u1 lnb = some (decide (8 * sectorSize ≤ c.pos + lnb), d) ∧
      d.Ready stream ∧ d.pos = min (c.pos + lnb) (8 * sectorSize) := by
  have hnbit := h.nbit
  have hpos : c.pos = 8 * c.i + c.nbit := rfl
  obtain ⟨d, hd, hdi, hdn, hready⟩ :=
    h.orByte (n := min (8 - c.nbit) lnb) (v := (u1 <<< c.nbit) &&& 0xff) hi (by omega) (by
      intro j hj
      rw [getLsbD_shifted u1 hj]
      by_cases hlow : c.nbit ≤ j
      · by_cases hin : j - c.nbit < lnb
        · have hhi : j < c.nbit + min (8 - c.nbit) lnb := by omega
          have hat : c.pos + (j - c.nbit) = 8 * c.i + j := by omega
          simp [hlow, hhi, hbits _ hin, hat]
        · have hhi : ¬j < c.nbit + min (8 - c.nbit) lnb := by omega
          simp [hlow, hhi, hclean (j - c.nbit) (by omega) (by omega)]
      · simp [hlow])
  have hdpos := Cursor.advance_pos d (min (8 - c.nbit) lnb)
  have hsame : d.pos = c.pos := by
    unfold Cursor.pos
    rw [hdi, hdn]
  rw [hsame] at hdpos
  simp only [putEntry, hd, Option.bind_some, hdn]
  generalize hcut : d.advance (min (8 - c.nbit) lnb) = e at hready hdpos ⊢
  have hepos : e.pos = 8 * e.i + e.nbit := rfl
  have henbit := hready.nbit
  unfold sectorSize at hi ⊢
  split
  · -- the entry reaches the end of the sector
    next hfull =>
      have hend : 8 * 0x200 ≤ c.pos + lnb := by omega
      refine ⟨e, ?_, hready, ?_⟩
      · rw [decide_eq_true hend]
      · omega
  · next hroom =>
      split
      · next hdone =>
          have hend : ¬8 * 0x200 ≤ c.pos + lnb := by omega
          refine ⟨e, ?_, hready, ?_⟩
          · rw [decide_eq_false hend]
          · omega
      · -- the byte is full, and the rest of the entry goes into the next
        next hmore =>
          have hzero : e.nbit = 0 := by omega
          obtain ⟨d', hd', hdi', hdn', hready'⟩ :=
            hready.orByte (n := lnb - min (8 - c.nbit) lnb)
              (v := u1 >>> min (8 - c.nbit) lnb) (by unfold sectorSize; omega) (by omega) (by
              intro j hj
              rw [BitVec.getLsbD_ushiftRight, hzero]
              by_cases hin : j < lnb - min (8 - c.nbit) lnb
              · have hat : c.pos + (min (8 - c.nbit) lnb + j) = 8 * e.i + j := by omega
                simp [hin, hbits (min (8 - c.nbit) lnb + j) (by omega), hat]
              · simp [hin, hclean (min (8 - c.nbit) lnb + j) (by omega) (by omega)])
          have hpos' := Cursor.advance_pos d' (lnb - min (8 - c.nbit) lnb)
          have hsame' : d'.pos = e.pos := by
            unfold Cursor.pos
            rw [hdi', hdn']
          have hnbit' := hready'.nbit
          rw [hd', Option.map_some]
          generalize d'.advance (lnb - min (8 - c.nbit) lnb) = g at hready' hpos' hnbit' ⊢
          have hgpos : g.pos = 8 * g.i + g.nbit := rfl
          have hend : 0x200 ≤ g.i ↔ 8 * 0x200 ≤ c.pos + lnb := by omega
          refine ⟨g, ?_, hready', ?_⟩
          · simp only [hend]
          · omega

/-! ## One sector -/

/-- The table as a stream of bits. -/
def entryBit (t : FatType) (next : BitVec 32 → BitVec 32) (k : Nat) : Bool :=
  (next (BitVec.ofNat 32 (k / t.width))).getLsbD (k % t.width)

theorem FatType.width_cases (t : FatType) : t.width = 12 ∨ t.width = 16 := by
  cases t with
  | fat12 => exact Or.inl rfl
  | fat16 => exact Or.inr rfl

/-- What the passes of the loop keep of their alignment: entries of 12 bits are
met at every fourth bit, the others only at their beginning. -/
def FatType.Aligned (t : FatType) (p bioffs : Nat) : Prop :=
  match t with
  | .fat12 => p % 4 = 0
  | .fat16 => bioffs = 0

/-- What is left of an entry is the rest of the stream, and nothing is left
behind it that would go into the same two bytes. -/
theorem FatType.getLsbD_rest (t : FatType) (next : BitVec 32 → BitVec 32) {k bioffs : Nat}
    (hoffs : bioffs = k % t.width) (halign : t.Aligned k bioffs) {j : Nat} (hj : j < 16) :
    (t.mask (next (BitVec.ofNat 32 (k / t.width))) >>> bioffs).getLsbD j =
      (decide (j < t.width - bioffs) && entryBit t next (k + j)) := by
  rw [BitVec.getLsbD_ushiftRight]
  have hwithin : ∀ w, bioffs = k % w → j < w - bioffs → w = 12 ∨ w = 16 →
      (k + j) / w = k / w ∧ (k + j) % w = bioffs + j := by
    intro w hw hlt hcases
    rcases hcases with rfl | rfl
    · omega
    · omega
  cases t with
  | fat12 =>
      have hall : ∀ j < 32, (0xfff : BitVec 32).getLsbD j = decide (j < 12) := by decide
      have hlt : bioffs < 12 := by
        rw [hoffs]
        exact Nat.mod_lt k (by decide)
      simp only [FatType.mask, FatType.width, BitVec.getLsbD_and, entryBit] at hoffs ⊢
      rw [hall (bioffs + j) (by omega)]
      by_cases hin : j < 12 - bioffs
      · obtain ⟨hdiv, hmod⟩ := hwithin 12 hoffs hin (Or.inl rfl)
        have hin' : bioffs + j < 12 := by omega
        rw [hdiv, hmod]
        simp [hin, hin']
      · have hout : ¬bioffs + j < 12 := by omega
        simp [hin, hout]
  | fat16 =>
      have hzero : bioffs = 0 := halign
      have hin : j < 16 - bioffs := by omega
      obtain ⟨hdiv, hmod⟩ := hwithin 16 hoffs hin (Or.inr rfl)
      simp only [FatType.mask, FatType.width, entryBit, hdiv, hmod]
      simp [hin]

/-- The loop fills the sector from wherever it has come. -/
theorem fillEntries_spec (t : FatType) (next : BitVec 32 → BitVec 32) {base : Nat} {u0 : BitVec 32}
    (hbase : base < 2 ^ 35) (hsector : base % 8 = 0) {fuel : Nat} {u : BitVec 32} {bioffs : Nat}
    {c : Cursor}
    (hready : c.Ready fun k => entryBit t next (base + k))
    (hroom : c.pos < 8 * sectorSize) (hfuel : 8 * sectorSize ≤ fuel + c.pos)
    (hentry : (u + u0).toNat = (base + c.pos) / t.width)
    (hoffs : bioffs = (base + c.pos) % t.width)
    (halign : t.Aligned (base + c.pos) bioffs) :
    ∃ buf, fillEntries t next u0 fuel u bioffs c = some buf ∧
      ∀ k < 8 * sectorSize, bitAt buf k = entryBit t next (base + k) := by
  induction fuel generalizing u bioffs c with
  | zero => omega
  | succ fuel ih =>
      have hnbit := hready.nbit
      have hcpos : c.pos = 8 * c.i + c.nbit := rfl
      have hword : u + u0 = BitVec.ofNat 32 ((base + c.pos) / t.width) := by
        rw [← hentry]
        rw [BitVec.ofNat_toNat, BitVec.setWidth_eq]
      have hsize : sectorSize = 0x200 := rfl
      have hrest := fun j (hj : j < 16) => t.getLsbD_rest next hoffs halign hj
      have hcases := t.width_cases
      have hlt : bioffs < t.width := by
        rw [hoffs]
        exact Nat.mod_lt _ (by omega)
      have hfits : c.nbit + (t.width - bioffs) ≤ 16 := by
        cases t with
        | fat12 =>
            simp only [FatType.width, FatType.Aligned] at hoffs halign ⊢
            omega
        | fat16 =>
            simp only [FatType.width] at hoffs ⊢
            omega
      rw [← hword] at hrest
      obtain ⟨d, hd, hdready, hdpos⟩ :=
        @putEntry_spec _ _ hready (by omega) (t.mask (next (u + u0)) >>> bioffs)
          (t.width - bioffs) hfits
          (by
            intro j hj
            rw [hrest j (by omega), Nat.add_assoc]
            simp [hj])
          (by
            intro j hlo hhi
            rw [hrest j hhi]
            simp [Nat.not_lt.mpr hlo])
      simp only [fillEntries, hd, Option.bind_some]
      by_cases hfull : 8 * sectorSize ≤ c.pos + (t.width - bioffs)
      · refine ⟨d.buf, by simp [hfull], ?_⟩
        intro k hk
        have hkpos : k < d.pos := by omega
        rw [hdready.filled k]
        simp [hkpos]
      · rw [decide_eq_false hfull]
        simp only [Bool.false_eq_true, if_false]
        have hnext : base + d.pos =
            ((base + c.pos) / t.width + 1) * t.width := by
          have hdivmod := Nat.div_add_mod (base + c.pos) t.width
          rw [Nat.add_mul, Nat.one_mul, Nat.mul_comm _ t.width]
          omega
        apply ih hdready
        · omega
        · omega
        · rw [hnext, Nat.mul_div_cancel _ (by omega), ← hentry]
          have hbig : (u + u0).toNat < 2 ^ 32 - 1 := by
            rw [hentry]
            rcases hcases with hw | hw
            · rw [hw]
              omega
            · rw [hw]
              omega
          have hassoc : u + 1 + u0 = u + u0 + 1 := by
            rw [BitVec.add_assoc, BitVec.add_comm 1, BitVec.add_assoc]
          rw [hassoc, BitVec.toNat_add]
          have hone : (1 : BitVec 32).toNat = 1 := rfl
          rw [hone]
          exact Nat.mod_eq_of_lt (by omega)
        · rw [hnext, Nat.mul_mod_left]
        · cases t with
          | fat12 =>
              simp only [FatType.Aligned, FatType.width] at hnext ⊢
              omega
          | fat16 => rfl

/-- The table has fewer than 2^23 sectors, whatever `fatfs_init` is told. -/
theorem Geometry.fatSecs_lt (g : Geometry) : g.fatSecs.toNat < 2 ^ 23 := by
  cases g with
  | floppy cmos =>
      cases cmos <;> decide
  | hard numSectors =>
      simp only [Geometry.fatSecs]
      split
      · generalize (numSectors / 8 + 2) * 3 + 0x3ff = x
        have hx := x.isLt
        rw [BitVec.toNat_ushiftRight, Nat.shiftRight_eq_div_pow]
        omega
      · generalize (numSectors / clusterSecs16 numSectors + 2) * 2 + 0x1ff = x
        have hx := x.isLt
        rw [BitVec.toNat_ushiftRight, Nat.shiftRight_eq_div_pow]
        omega

/-- A sector begins inside of this entry, and at this bit of it. -/
theorem FatType.firstEntry_spec (t : FatType) {pos : BitVec 32} (hpos : pos.toNat < 2 ^ 23) :
    (t.firstEntry pos).toNat = 8 * sectorSize * pos.toNat / t.width ∧
      (pos * t.boffs % 12).toNat = 8 * sectorSize * pos.toNat % t.width := by
  have htwelve : (12 : BitVec 32).toNat = 12 := rfl
  cases t with
  | fat12 =>
      have hepfs : (FatType.epfs .fat12).toNat = 341 := by decide
      have hboffs : (FatType.boffs .fat12).toNat = 4 := by decide
      have hentries : pos.toNat * 341 % 2 ^ 32 = pos.toNat * 341 := Nat.mod_eq_of_lt (by omega)
      have hbits : pos.toNat * 4 % 2 ^ 32 = pos.toNat * 4 := Nat.mod_eq_of_lt (by omega)
      have hsum : pos.toNat * 341 + pos.toNat * 4 / 12 = 8 * 0x200 * pos.toNat / 12 := by omega
      have hword : 8 * 0x200 * pos.toNat / 12 < 2 ^ 32 := by omega
      simp only [FatType.firstEntry, FatType.width, BitVec.toNat_add, BitVec.toNat_mul,
        BitVec.toNat_udiv, BitVec.toNat_umod, hepfs, hboffs, htwelve, sectorSize, hentries, hbits,
        hsum]
      refine ⟨Nat.mod_eq_of_lt hword, ?_⟩
      omega
  | fat16 =>
      have hepfs : (FatType.epfs .fat16).toNat = 256 := by decide
      have hboffs : (FatType.boffs .fat16).toNat = 0 := by decide
      simp only [FatType.firstEntry, FatType.width, BitVec.toNat_add, BitVec.toNat_mul,
        BitVec.toNat_udiv, BitVec.toNat_umod, hepfs, hboffs, htwelve, sectorSize]
      omega

/-- The sector begins at or behind the first free cluster, with nothing more to
come. -/
def FatDisk.Skipped (f : FatDisk) (s : Nat) : Prop :=
  f.gotAllObjs = true ∧ f.firstFreeCluster.toNat ≤ 8 * sectorSize * s / f.width

instance (f : FatDisk) (s : Nat) : Decidable (f.Skipped s) :=
  inferInstanceAs (Decidable (_ ∧ _))

/-- Every sector of the table is built inside of its buffer.  It holds its part
of the stream of entries, or nothing when it is skipped. -/
theorem readFat_spec (f : FatDisk) (next : BitVec 32 → BitVec 32) {pos : BitVec 32}
    (hpos : pos < f.geometry.fatSecs) :
    ∃ buf, readFat f next pos = some buf ∧ ∀ k < 8 * sectorSize, bitAt buf k =
      (decide (¬f.Skipped pos.toNat) &&
        entryBit f.geometry.fatType next (8 * sectorSize * pos.toNat + k)) := by
  have hlt : pos.toNat < 2 ^ 23 := lt_trans (BitVec.lt_def.mp hpos) f.geometry.fatSecs_lt
  obtain ⟨hfirst, hbit⟩ := f.geometry.fatType.firstEntry_spec hlt
  have hskip : (f.gotAllObjs = true ∧
      f.firstFreeCluster ≤ f.geometry.fatType.firstEntry pos) ↔ f.Skipped pos.toNat := by
    rw [BitVec.le_def, hfirst]
    rfl
  unfold readFat
  simp only [hskip]
  by_cases hskipped : f.Skipped pos.toNat
  · refine ⟨fun _ => 0, by rw [if_pos hskipped], ?_⟩
    intro k _
    simp [hskipped, bitAt]
  · rw [if_neg hskipped, hbit]
    have hsize : sectorSize = 0x200 := rfl
    have hempty : Cursor.pos ⟨fun _ => 0, 0, 0⟩ = 0 := rfl
    have hzero : 0 + f.geometry.fatType.firstEntry pos = f.geometry.fatType.firstEntry pos :=
      BitVec.zero_add _
    obtain ⟨buf, hbuf, hbits⟩ := @fillEntries_spec f.geometry.fatType next
      (8 * sectorSize * pos.toNat) (f.geometry.fatType.firstEntry pos)
      (by rw [hsize]; omega) (by rw [hsize]; omega)
      (8 * sectorSize) 0 _ ⟨fun _ => 0, 0, 0⟩ ⟨filled_zero _, by decide⟩
      (by rw [hempty]; decide) (by omega)
      (by rw [hempty, hzero]; exact hfirst) rfl (by
        cases f.geometry.fatType with
        | fat12 =>
            simp only [FatType.Aligned, hempty, hsize]
            omega
        | fat16 =>
            simp only [FatType.Aligned, FatType.width, hempty, hsize]
            omega)
    refine ⟨buf, hbuf, ?_⟩
    intro k hk
    rw [hbits k hk]
    simp [hskipped]

/-! ## The whole table -/

/-- The sectors of the table one after another. -/
def fatImage (f : FatDisk) (next : BitVec 32 → BitVec 32) (x : Nat) : BitVec 8 :=
  ((readFat f next (BitVec.ofNat 32 (x / sectorSize))).map fun buf => buf (x % sectorSize)).getD 0

/-- An entry of a table: the word that it begins in, without the half byte
before it. -/
def fatEntry (t : FatType) (bytes : Nat → BitVec 8) (n : Nat) : BitVec t.width :=
  ((bytes (n * t.width / 8 + 1) ++ bytes (n * t.width / 8)) >>> (n * t.width % 8)).setWidth t.width

theorem bitAt_fatImage (f : FatDisk) (next : BitVec 32 → BitVec 32) {k : Nat}
    (hk : k < 8 * sectorSize * f.geometry.fatSecs.toNat) :
    bitAt (fatImage f next) k =
      (decide (¬f.Skipped (k / (8 * sectorSize))) && entryBit f.geometry.fatType next k) := by
  have hsecs := f.geometry.fatSecs_lt
  have hlt : k / (8 * sectorSize) < f.geometry.fatSecs.toNat := Nat.div_lt_of_lt_mul hk
  have hpos : (BitVec.ofNat 32 (k / (8 * sectorSize))).toNat = k / (8 * sectorSize) := by
    rw [BitVec.toNat_ofNat]
    exact Nat.mod_eq_of_lt (by omega)
  obtain ⟨buf, hbuf, hbits⟩ := @readFat_spec f next
    (BitVec.ofNat 32 (k / (8 * sectorSize))) (BitVec.lt_def.mpr (by rwa [hpos]))
  have hsize : sectorSize = 0x200 := rfl
  have hsec : k / 8 / sectorSize = k / (8 * sectorSize) := by
    rw [hsize]
    omega
  have hin := hbits (k % (8 * sectorSize)) (Nat.mod_lt k (by decide))
  rw [hpos, Nat.div_add_mod] at hin
  rw [← hin]
  unfold bitAt fatImage
  rw [hsec, hbuf]
  have hbyte : k / 8 % sectorSize = k % (8 * sectorSize) / 8 := by
    rw [hsize]
    omega
  have hbit : k % (8 * sectorSize) % 8 = k % 8 := by
    rw [hsize]
    omega
  simp only [Option.map_some, Option.getD_some, hbyte, hbit]

theorem getLsbD_fatEntry (t : FatType) (bytes : Nat → BitVec 8) (n : Nat) {j : Nat}
    (hj : j < t.width) : (fatEntry t bytes n).getLsbD j = bitAt bytes (n * t.width + j) := by
  have hodd : n * t.width % 8 + j < 16 := by
    cases t with
    | fat12 =>
        simp only [FatType.width] at hj ⊢
        omega
    | fat16 =>
        simp only [FatType.width] at hj ⊢
        omega
  have hat : 8 * (n * t.width / 8) + (n * t.width % 8 + j) = n * t.width + j := by omega
  unfold fatEntry
  rw [BitVec.getLsbD_setWidth, BitVec.getLsbD_ushiftRight, getLsbD_bytes hodd, hat]
  simp [hj]

theorem entry_split (n : Nat) {w j : Nat} (hj : j < w) :
    (n * w + j) / w = n ∧ (n * w + j) % w = j := by
  have hpos : 0 < w := lt_of_le_of_lt (Nat.zero_le j) hj
  rw [Nat.add_comm, Nat.add_mul_div_right _ _ hpos, Nat.add_mul_mod_self_right,
    Nat.div_eq_of_lt hj, Nat.mod_eq_of_lt hj, Nat.zero_add]
  exact ⟨rfl, rfl⟩

/-- Every sector of the table is built inside of its buffer; and in all of them
together each bit of an entry is that of the successor, unless it lies in a
sector that is skipped, where it is clear.  No entry below the first free cluster
has such a bit. -/
theorem fatImage_entry (f : FatDisk) (next : BitVec 32 → BitVec 32) :
    (∀ pos, pos < f.geometry.fatSecs → ∃ buf, readFat f next pos = some buf) ∧
      ∀ n, (n + 1) * f.width ≤ 8 * sectorSize * f.geometry.fatSecs.toNat →
        (∀ j < f.width, (fatEntry f.geometry.fatType (fatImage f next) n).getLsbD j =
          (decide (¬f.Skipped ((n * f.width + j) / (8 * sectorSize))) &&
            (next (BitVec.ofNat 32 n)).getLsbD j)) ∧
        (f.gotAllObjs = false ∨ n < f.firstFreeCluster.toNat →
          fatEntry f.geometry.fatType (fatImage f next) n =
            (next (BitVec.ofNat 32 n)).setWidth f.width) := by
  refine ⟨fun pos hpos => ?_, fun n hn => ?_⟩
  · obtain ⟨buf, hbuf, -⟩ := readFat_spec f next hpos
    exact ⟨buf, hbuf⟩
  have hbits : ∀ j < f.width, (fatEntry f.geometry.fatType (fatImage f next) n).getLsbD j =
      (decide (¬f.Skipped ((n * f.width + j) / (8 * sectorSize))) &&
        (next (BitVec.ofNat 32 n)).getLsbD j) := by
    intro j hj
    obtain ⟨hdiv, hmod⟩ := entry_split n hj
    have hin : n * f.width + j < 8 * sectorSize * f.geometry.fatSecs.toNat := by
      rw [Nat.add_mul, Nat.one_mul] at hn
      omega
    rw [getLsbD_fatEntry f.geometry.fatType _ n hj, bitAt_fatImage f next hin, entryBit, hdiv, hmod]
  refine ⟨hbits, ?_⟩
  intro hbelow
  apply BitVec.eq_of_getLsbD_eq
  intro j hj
  have hkept : ¬f.Skipped ((n * f.width + j) / (8 * sectorSize)) := by
    rintro ⟨hall, hfree⟩
    rcases hbelow with hmore | hlow
    · rw [hmore] at hall
      exact absurd hall (by decide)
    · -- the sector of the bit begins at or before the entry
      have hstart := Nat.mul_div_le (n * f.width + j) (8 * sectorSize)
      have hentry : 8 * sectorSize * ((n * f.width + j) / (8 * sectorSize)) / f.width ≤
          (n * f.width + j) / f.width := Nat.div_le_div_right hstart
      have hdiv : (n * f.width + j) / f.width = n := (entry_split n hj).1
      omega
  rw [hbits j hj, BitVec.getLsbD_setWidth]
  simp [hkept, hj]

/-- A floppy disk of which all objects are known, with every cluster free. -/
def emptyFloppy : FatDisk :=
  { geometry := .floppy .threeInch, gotAllObjs := true, firstFreeCluster := 2 }

/-- A successor of an entry in its second sector does not show. -/
theorem skipped_sector_is_zero :
    ¬∀ (f : FatDisk) (next : BitVec 32 → BitVec 32) (n : Nat),
      (n + 1) * f.width ≤ 8 * sectorSize * f.geometry.fatSecs.toNat →
        fatEntry f.geometry.fatType (fatImage f next) n =
          (next (BitVec.ofNat 32 n)).setWidth f.width := by
  intro hall
  exact absurd (hall emptyFloppy (fun _ => 0xfff) 400 (by decide)) (by decide)

end Disks
end Dosemu
