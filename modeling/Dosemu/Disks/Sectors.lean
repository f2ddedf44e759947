import Dosemu.Disks.Model

/-!
# Disk access sector by sector

`sectorByte` says what a disk holds, sector by sector: the boot record and
zeros before the start, and the host's sectors behind it.  A request keeps its
contract if it stays inside the disk, moves exactly the sectors of its range,
and reports a failure of the host.

The range test adds the sector and the count in 64 bits, and a failed write
behind the start is added to the bytes that were already emulated.  `Safe` is
the condition under which neither matters.

Main results:

- Theorem `calcPos_image` and its companions: the position of a request.
- Theorem `readHost_spec`: a transfer behind the start.
- Theorem `sectors_served_iff`: a request keeps its contract exactly if it is safe.
-/

namespace Dosemu
namespace Disks

open Memory

/-- A request of the guest: the extended functions pass any 64-bit sector and a count of 16
bits. -/
structure Request where
  write : Bool
  buffer : Nat
  sector : Nat
  count : Nat
  sector_lt : sector < 2 ^ 64
  count_pos : 0 < count
  count_lt : count < 2 ^ 16

/-- The first sector that is not emulated. -/
def Disk.base (dp : Disk) : Nat :=
  if dp.type.HasStart then dp.start else 0

/-- A byte of a sector behind the start. -/
def hostByte (dp : Disk) (file : HostFile) (s k : Nat) : UInt8 :=
  match dp.type with
  | .dirType f =>
      match f (BitVec.ofNat 32 s) with
      | .ok b => b k
      | .error _ => 0
  | _ => file.bytes (dp.header + s * 512 + k)

/-- A byte of a sector of the disk. -/
def sectorByte (dp : Disk) (file : HostFile) (s k : Nat) : UInt8 :=
  if s < dp.base then if s = 0 then dp.mbr k else 0
  else hostByte dp file (s - dp.base) k

/-- The host fails to read `n` sectors from a sector behind the start on. -/
def ReadFails (dp : Disk) (host : Host) (first n : Nat) : Prop :=
  match dp.type with
  | .dirType f => ∃ i < n, ∃ e, f (BitVec.ofNat 32 (first + i)) = .error e
  | _ => host.seekOk = false ∨ host.transfer = none

/-- The host fails to write.  A directory takes every write. -/
def WriteFails (dp : Disk) (host : Host) : Prop :=
  match dp.type with
  | .dirType _ => False
  | _ => host.seekOk = false ∨ host.transfer = none

/-- The host fails to seek, which is tried before the transfer. -/
def SeekFails (dp : Disk) (host : Host) : Prop :=
  match dp.type with
  | .dirType _ => False
  | _ => host.seekOk = false

namespace Request

/-- The request stays inside the disk. -/
def Inside (r : Request) (dp : Disk) : Prop :=
  r.sector + r.count ≤ dp.numSecs

/-- The range test of both functions. -/
def Tested (r : Request) (dp : Disk) : Prop :=
  (r.sector + r.count - 1) % 2 ^ 64 < dp.numSecs

/-- The number of its sectors that are emulated. -/
def emulated (r : Request) (dp : Disk) : Nat :=
  min r.count (dp.base - r.sector)

/-- The part of the request behind the start is not empty, and the host fails there. -/
def HostFails (r : Request) (dp : Disk) (host : Host) : Prop :=
  r.emulated dp < r.count ∧
    if r.write then WriteFails dp host
    else ReadFails dp host (r.sector + r.emulated dp - dp.base) (r.count - r.emulated dp)

/-- Every sector of the range is in the buffer. -/
def Delivered (r : Request) (dp : Disk) (file : HostFile) (mem : Mem) : Prop :=
  ∀ i < r.count, ∀ k < 512, mem (r.buffer + i * 512 + k) = sectorByte dp file (r.sector + i) k

/-- The host's sectors of the range hold what the buffer held, and the rest of the file is the
same.  A directory has no such sectors. -/
def Stored (r : Request) (dp : Disk) (file : HostFile) (mem : Mem) (file' : HostFile) : Prop :=
  match dp.type with
  | .dirType _ => file' = file
  | _ =>
      (∀ i < r.count, dp.base ≤ r.sector + i → ∀ k < 512,
        file'.bytes (dp.header + (r.sector + i - dp.base) * 512 + k) =
          mem (r.buffer + i * 512 + k)) ∧
      ∀ x, (∀ i < r.count, dp.base ≤ r.sector + i →
        x < dp.header + (r.sector + i - dp.base) * 512 ∨
          dp.header + (r.sector + i - dp.base) * 512 + 512 ≤ x) →
        file'.bytes x = file.bytes x

/-- What a request keeps to. -/
def Contract (r : Request) (dp : Disk) (host : Host) (mem : Mem) : Prop :=
  if r.write then
    ∃ ret file, writeSectors dp host mem r.buffer r.sector r.count = some (ret, file) ∧
      (0 ≤ ret → r.Inside dp) ∧ (ret = r.count * 512 → r.Stored dp host.file mem file) ∧
      (r.HostFails dp host → ret < 0)
  else
    ∃ ret mem', readSectors dp host mem r.buffer r.sector r.count = some (ret, mem') ∧
      (0 ≤ ret → r.Inside dp) ∧ (ret = r.count * 512 → r.Delivered dp host.file mem') ∧
      (r.HostFails dp host → ret < 0)

/-- The position of the request in an image is a file position, or it is negative. -/
def Positioned (r : Request) (dp : Disk) : Prop :=
  r.sector * 512 + dp.header < 2 ^ 63 ∨ 2 ^ 64 - 2 ^ 54 ≤ r.sector

/-- Sector and count exceed 64 bits together. -/
def Wraps (r : Request) : Prop :=
  2 ^ 64 < r.sector + r.count

instance (r : Request) : Decidable r.Wraps :=
  inferInstanceAs (Decidable (_ < _))

/-- The number of sectors that are emulated for a request that wraps around: those up to the
start, counted from a sector that is taken for a negative one. -/
def wrapped (r : Request) (dp : Disk) : Nat :=
  2 ^ 64 - r.sector + dp.start

/-- The requests that keep their contract. -/
def Safe (r : Request) (dp : Disk) (host : Host) : Prop :=
  r.Tested dp → (r.write = true → dp.rdonly = false) →
    if dp.type.HasStart then
      if r.write then
        if r.Wraps then r.wrapped dp < r.count ∧ SeekFails dp host
        else
          0 < r.emulated dp → r.emulated dp < r.count → WriteFails dp host → SeekFails dp host
      else
        r.Wraps → r.wrapped dp < r.count ∧ ReadFails dp host 0 (r.count - r.wrapped dp)
    else r.Positioned dp

end Request

/-! ## Positions -/

variable {dp : Disk} {host : Host} {mem : Mem} {r : Request} {sector count buffer first a : Nat}

theorem offT_of {x : Int} (hlo : -2 ^ 63 ≤ x) (hhi : x < 2 ^ 63) : offT x = some x :=
  if_pos ⟨hlo, hhi⟩

theorem offT_eq_none {x : Int} (h : x < -2 ^ 63 ∨ 2 ^ 63 ≤ x) : offT x = none :=
  if_neg (by omega)

/-- The position once the sector is a signed number. -/
theorem calcPos_eq {s : Int} (hs : toInt64 (if dp.type.HasStart then sector - dp.start else sector) = s) :
    calcPos dp sector =
      (offT (s * 512)).bind fun pos => if 0 ≤ pos then offT (pos + dp.header) else some pos := by
  unfold calcPos
  rw [hs]
  rfl

/-- A position in an image. -/
theorem calcPos_image (htype : ¬dp.type.HasStart) (hpos : sector * 512 + dp.header < 2 ^ 63) :
    calcPos dp sector = some ((dp.header + sector * 512 : Nat) : Int) := by
  have hs : toInt64 (if dp.type.HasStart then (sector : Int) - dp.start else sector) = sector := by
    rw [if_neg htype, toInt64]
    omega
  rw [calcPos_eq hs, offT_of (by omega) (by omega), Option.bind_some, if_pos (by omega),
    offT_of (by omega) (by omega)]
  congr 1
  omega

/-- The last sectors of the 64-bit range are taken for negative ones. -/
theorem calcPos_high (htype : ¬dp.type.HasStart) (hhigh : 2 ^ 64 - 2 ^ 54 ≤ sector)
    (hlt : sector < 2 ^ 64) : ∃ pos, calcPos dp sector = some pos ∧ pos < 0 := by
  have hs : toInt64 (if dp.type.HasStart then (sector : Int) - dp.start else sector) =
      sector - 2 ^ 64 := by
    rw [if_neg htype, toInt64]
    omega
  refine ⟨(sector - 2 ^ 64) * 512, ?_, by omega⟩
  rw [calcPos_eq hs, offT_of (by omega) (by omega), Option.bind_some, if_neg (by omega)]

/-- Every other position of an image overflows. -/
theorem calcPos_overflow (htype : ¬dp.type.HasStart) (hpos : 2 ^ 63 ≤ sector * 512 + dp.header)
    (hlow : sector < 2 ^ 64 - 2 ^ 54) : calcPos dp sector = none := by
  have hheader := dp.header_lt
  by_cases hsign : sector < 2 ^ 63
  · have hs : toInt64 (if dp.type.HasStart then (sector : Int) - dp.start else sector) = sector := by
      rw [if_neg htype, toInt64]
      omega
    rw [calcPos_eq hs]
    by_cases hmul : (sector : Int) * 512 < 2 ^ 63
    · rw [offT_of (by omega) hmul, Option.bind_some, if_pos (by omega), offT_eq_none (by omega)]
    · rw [offT_eq_none (by omega), Option.bind_none]
  · have hs : toInt64 (if dp.type.HasStart then (sector : Int) - dp.start else sector) =
        sector - 2 ^ 64 := by
      rw [if_neg htype, toInt64]
      omega
    rw [calcPos_eq hs, offT_eq_none (by omega), Option.bind_none]

/-- A position in a volume, negative before its start. -/
theorem calcPos_volume (htype : dp.type.HasStart) (hlt : sector < dp.numSecs) :
    calcPos dp sector = some (((sector : Int) - dp.start) * 512) := by
  have hstart := dp.start_lt
  have hvolume := dp.volume_lt htype
  have hheader := dp.header_eq htype
  have hs : toInt64 (if dp.type.HasStart then (sector : Int) - dp.start else sector) =
      sector - dp.start := by
    rw [if_pos htype, toInt64]
    omega
  rw [calcPos_eq hs, offT_of (by omega) (by omega), Option.bind_some, hheader]
  split
  · rw [offT_of (by omega) (by omega)]
    congr 1
    omega
  · rfl

/-- The position of a request that wraps around lies before the start. -/
theorem calcPos_wrapped (htype : dp.type.HasStart) (hhigh : 2 ^ 64 - 2 ^ 16 < sector)
    (hlt : sector < 2 ^ 64) :
    calcPos dp sector = some (-(((2 ^ 64 - sector + dp.start : Nat) : Int) * 512)) := by
  have hstart := dp.start_lt
  have hs : toInt64 (if dp.type.HasStart then (sector : Int) - dp.start else sector) =
      sector - dp.start - 2 ^ 64 := by
    rw [if_pos htype, toInt64]
    omega
  rw [calcPos_eq hs, offT_of (by omega) (by omega), Option.bind_some, if_neg (by omega)]
  congr 1
  omega

/-! ## Transfers behind the start -/

/-- `fatfs_read` stops at the first sector it has not got, and delivers the others. -/
theorem fatfsRead_spec (f : Fatfs) (mem : Mem) (buf first len : Nat) :
    ((fatfsRead f mem buf (BitVec.ofNat 32 first) len).1 ≠ none ↔
        ∃ i < len, ∃ e, f (BitVec.ofNat 32 (first + i)) = .error e) ∧
      ((fatfsRead f mem buf (BitVec.ofNat 32 first) len).1 = none → ∀ i < len, ∀ k < 512,
        ∃ b, f (BitVec.ofNat 32 (first + i)) = .ok b ∧
          (fatfsRead f mem buf (BitVec.ofNat 32 first) len).2 (buf + i * 512 + k) = b k) ∧
      ∀ x < buf, (fatfsRead f mem buf (BitVec.ofNat 32 first) len).2 x = mem x := by
  induction len generalizing mem buf first with
  | zero =>
      refine ⟨?_, ?_, fun _ _ => rfl⟩
      · simp [fatfsRead]
      · intro _ i hi
        exact absurd hi (Nat.not_lt_zero i)
  | succ len ih =>
      rw [fatfsRead]
      cases hsec : f (BitVec.ofNat 32 first) with
      | error e =>
          refine ⟨⟨fun _ => ⟨0, len.succ_pos, e, hsec⟩, fun _ => ?_⟩, ?_, fun _ _ => rfl⟩
          · simp
          · simp
      | ok b =>
          have hnext : BitVec.ofNat 32 first + 1 = BitVec.ofNat 32 (first + 1) :=
            (BitVec.ofNat_add first 1).symm
          obtain ⟨hfail, hdone, hbelow⟩ := ih (fill mem buf 512 b) (buf + 512) (first + 1)
          dsimp only
          rw [hnext]
          refine ⟨hfail.trans ⟨?_, ?_⟩, fun hnone i hi k hk => ?_, fun x hx => ?_⟩
          · rintro ⟨i, hi, e, he⟩
            exact ⟨i + 1, Nat.succ_lt_succ hi, e, by rwa [Nat.add_right_comm] at he⟩
          · rintro ⟨i, hi, e, he⟩
            cases i with
            | zero =>
                rw [Nat.add_zero, hsec] at he
                cases he
            | succ i =>
                refine ⟨i, Nat.lt_of_succ_lt_succ hi, e, ?_⟩
                rwa [show first + 1 + i = first + (i + 1) by omega]
          · cases i with
            | zero =>
                refine ⟨b, hsec, ?_⟩
                rw [hbelow _ (by omega), Nat.zero_mul, Nat.add_zero, fill_inside hk]
            | succ i =>
                obtain ⟨b', hb', hval⟩ := hdone hnone i (Nat.lt_of_succ_lt_succ hi) k hk
                refine ⟨b', by rwa [show first + (i + 1) = first + 1 + i by omega], ?_⟩
                rwa [show buf + (i + 1) * 512 + k = buf + 512 + i * 512 + k by omega]
          · rw [hbelow x (by omega), fill_outside (Or.inl hx)]

/-- The disk is backed by a file. -/
def Disk.IsFile (dp : Disk) : Prop :=
  ∀ f, dp.type ≠ .dirType f

theorem Disk.isFile_or_dir (dp : Disk) : dp.IsFile ∨ ∃ f, dp.type = .dirType f := by
  by_cases hdir : ∃ f, dp.type = .dirType f
  · exact Or.inr hdir
  · exact Or.inl fun f hf => hdir ⟨f, hf⟩

theorem readFails_file (h : dp.IsFile) :
    ReadFails dp host first a ↔ host.seekOk = false ∨ host.transfer = none := by
  unfold ReadFails
  split
  · next f hf => exact absurd hf (h f)
  · rfl

theorem hostByte_file (h : dp.IsFile) (file : HostFile) (s k : Nat) :
    hostByte dp file s k = file.bytes (dp.header + s * 512 + k) := by
  unfold hostByte
  split
  · next f hf => exact absurd hf (h f)
  · rfl

theorem writeFails_file (h : dp.IsFile) :
    WriteFails dp host ↔ host.seekOk = false ∨ host.transfer = none := by
  unfold WriteFails
  split
  · next f hf => exact absurd hf (h f)
  · rfl

theorem seekFails_file (h : dp.IsFile) : SeekFails dp host ↔ host.seekOk = false := by
  unfold SeekFails
  split
  · next f hf => exact absurd hf (h f)
  · rfl

/-- What a transfer behind the start does: it returns a negative number exactly
if the host fails, and a complete one delivers the host's sectors. -/
structure Transferred (dp : Disk) (host : Host) (mem : Mem) (buffer first n count : Nat)
    (out : Int × Mem) : Prop where
  fails : out.1 < 0 ↔ ReadFails dp host first n
  delivers : out.1 = count * 512 → ∀ i < n, ∀ k < 512,
    out.2 (buffer + i * 512 + k) = hostByte dp host.file (first + i) k
  below : ∀ x < buffer, out.2 x = mem x

theorem readHost_dir {f : Fatfs} (hf : dp.type = .dirType f) (ha : a < count) :
    Transferred dp host mem buffer first (count - a) count
      (readHost dp host mem buffer (dp.header + first * 512 : Nat) count (a * 512)) := by
  have hheader := dp.header_eq (by rw [hf]; trivial)
  have hpos : BitVec.ofInt 32 (((dp.header + first * 512 : Nat) : Int) / 512) =
      BitVec.ofNat 32 first := by
    rw [show (((dp.header + first * 512 : Nat) : Int) / 512) = (first : Nat) by omega]
    exact BitVec.ofInt_natCast 32 first
  have hlen : count - a * 512 / 512 = count - a := by
    omega
  have hfails : ReadFails dp host first (count - a) ↔
      ∃ i < count - a, ∃ e, f (BitVec.ofNat 32 (first + i)) = .error e := by
    rw [ReadFails, hf]
  have hbyte (s k : Nat) {b : Nat → UInt8} (hb : f (BitVec.ofNat 32 s) = .ok b) :
      hostByte dp host.file s k = b k := by
    simp only [hostByte, hf, hb]
  obtain ⟨hfail, hdone, hbelow⟩ := fatfsRead_spec f mem buffer first (count - a)
  rw [← hfails] at hfail
  unfold readHost
  rw [hf]
  dsimp only
  rw [if_neg (by omega), hpos, hlen]
  generalize fatfsRead f mem buffer (BitVec.ofNat 32 first) (count - a) = out at *
  obtain ⟨err, mem'⟩ := out
  have hnegative (d : Int) (hd : 0 < d) (herr : err ≠ none) :
      Transferred dp host mem buffer first (count - a) count (-d, mem') := by
    refine ⟨⟨fun _ => hfail.mp herr, fun _ => Int.neg_neg_of_pos hd⟩, fun hret => ?_, hbelow⟩
    dsimp only at hret
    omega
  cases err with
  | none =>
      refine ⟨⟨fun hret => ?_, fun h => absurd rfl (hfail.mpr h)⟩, fun _ i hi k hk => ?_, hbelow⟩
      · dsimp only at hret
        omega
      · obtain ⟨b, hb, hval⟩ := hdone rfl i hi k hk
        exact hval.trans (hbyte _ k hb).symm
  | some e =>
      cases e with
      | notFound => exact hnegative derrNotfound (by decide) (Option.some_ne_none _)
      | readError => exact hnegative derrEccerr (by decide) (Option.some_ne_none _)

theorem readHost_file (h : dp.IsFile) (ha : a < count) :
    Transferred dp host mem buffer first (count - a) count
      (readHost dp host mem buffer (dp.header + first * 512 : Nat) count (a * 512)) := by
  unfold readHost
  split
  · next f hf => exact absurd hf (h f)
  have hnegative (d : Int) (hd : 0 < d) (hfail : ReadFails dp host first (count - a)) :
      Transferred dp host mem buffer first (count - a) count (-d, mem) := by
    refine ⟨⟨fun _ => hfail, fun _ => Int.neg_neg_of_pos hd⟩, fun hret => ?_, fun _ _ => rfl⟩
    dsimp only at hret
    omega
  cases hseek : host.seekOk with
  | false =>
      exact hnegative derrNotfound (by decide) ((readFails_file h).mpr (Or.inl hseek))
  | true =>
      unfold dosReadPosix
      cases htransfer : host.transfer with
      | none =>
          exact hnegative derrEccerr (by decide) ((readFails_file h).mpr (Or.inr htransfer))
      | some n =>
          simp only [Bool.not_true, Bool.false_eq_true, if_false, Option.map_some]
          refine ⟨⟨fun hret => ?_, fun hfail => ?_⟩, fun hret i hi k hk => ?_, fun x hx => ?_⟩
          · dsimp only at hret
            omega
          · rcases (readFails_file h).mp hfail with hno | hno
            · rw [hseek] at hno
              cases hno
            · rw [htransfer] at hno
              cases hno
          · dsimp only at hret ⊢
            rw [Nat.add_assoc buffer, fill_inside (by omega), Int.toNat_natCast,
              hostByte_file h]
            exact congrArg host.file.bytes (by omega)
          · dsimp only
            exact fill_outside (Or.inl hx)

theorem readHost_spec (dp : Disk) (host : Host) (mem : Mem) (buffer first : Nat)
    (ha : a < count) :
    Transferred dp host mem buffer first (count - a) count
      (readHost dp host mem buffer (dp.header + first * 512 : Nat) count (a * 512)) := by
  rcases dp.isFile_or_dir with hfile | ⟨f, hf⟩
  · exact readHost_file hfile ha
  · exact readHost_dir hf ha

/-! ## Reads -/

/-- What the emulated sectors of a read deliver: the boot record and zeros. -/
def bootByte (dp : Disk) (s k : Nat) : UInt8 :=
  if s = 0 then dp.mbr k else 0

/-- A read that begins `m` sectors before the start. -/
theorem readSectors_before (htest : ¬dp.numSecs ≤ (sector + count - 1) % 2 ^ 64)
    (htype : dp.type.HasStart) {m : Nat} (hpos : calcPos dp sector = some (-((m : Int) * 512)))
    (hm : 0 < m) (hcount : 0 < count) :
    ∃ mem₁, readSectors dp host mem buffer sector count =
        some (if count ≤ m then (((count * 512 : Nat) : Int), mem₁)
          else readHost dp host mem₁ (buffer + m * 512) (dp.header + 0 * 512 : Nat) count (m * 512)) ∧
      (sector + m = dp.start → ∀ i < min count m, ∀ k < 512,
        mem₁ (buffer + i * 512 + k) = bootByte dp (sector + i) k) := by
  have hstart := dp.start_lt
  have hheader := dp.header_eq htype
  let mbroff := toInt32 (-((m : Int) * 512) + dp.start * 512)
  let readsize := if -(-((m : Int) * 512)) < count * 512 then (-(-((m : Int) * 512))).toNat
    else count * 512
  have hreadsize : readsize = min count m * 512 := by
    unfold readsize
    split <;> omega
  let mbrread := if 0 ≤ mbroff ∧ mbroff < 512 then min (512 - mbroff.toNat) readsize else 0
  let mem₁ := fill (fill mem buffer mbrread fun i => dp.mbr (mbroff.toNat + i)) (buffer + mbrread)
    (readsize - mbrread) fun _ => 0
  refine ⟨mem₁, ?_, fun hsum i hi k hk => ?_⟩
  · unfold readSectors
    rw [if_neg htest, hpos]
    change (if -((m : Int) * 512) < 0 ∧ 0 < count then
        if ¬dp.type.HasStart then some (-derrNotfound, mem)
        else if readsize = count * 512 then some ((readsize : Int), mem₁)
          else some (readHost dp host mem₁ (buffer + readsize)
            (-((m : Int) * 512) + (readsize + dp.header)) count readsize)
      else _) = _
    rw [if_pos (by omega), if_neg (not_not.mpr htype), hreadsize]
    by_cases hfull : count ≤ m
    · rw [if_pos (by omega), if_pos hfull, Nat.min_eq_left hfull]
    · rw [if_neg (by omega), if_neg hfull, Nat.min_eq_right (by omega), hheader]
      congr 2
      omega
  · have hoff : mbroff = sector * 512 := by
      unfold mbroff toInt32
      omega
    unfold bootByte mem₁
    by_cases hfirst : sector = 0
    · have hread : mbrread = 512 := by
        unfold mbrread
        rw [hoff, if_pos (by omega), hreadsize]
        omega
      have htoNat : mbroff.toNat = 0 := by
        omega
      by_cases hi0 : i = 0
      · rw [if_pos (by omega), fill_outside (by omega), hi0, Nat.zero_mul, Nat.add_zero,
          fill_inside (by omega), htoNat, Nat.zero_add]
      · rw [if_neg (by omega), hread,
          show buffer + i * 512 + k = buffer + 512 + ((i - 1) * 512 + k) by omega,
          fill_inside (by omega)]
    · have hread : mbrread = 0 := by
        unfold mbrread
        rw [hoff, if_neg (by omega)]
      rw [if_neg (by omega), hread, Nat.add_zero, Nat.add_assoc, fill_inside (by omega)]

/-- A read that does not begin before the start. -/
theorem readSectors_behind (htest : ¬dp.numSecs ≤ (sector + count - 1) % 2 ^ 64)
    (hpos : calcPos dp sector = some ((dp.header + first * 512 : Nat) : Int)) :
    readSectors dp host mem buffer sector count =
      some (readHost dp host mem buffer (dp.header + first * 512 : Nat) count (0 * 512)) := by
  have hpos' : ¬(((dp.header + first * 512 : Nat) : Int) < 0 ∧ 0 < count) := by
    omega
  unfold readSectors
  rw [if_neg htest, hpos, Nat.zero_mul, Option.bind_eq_bind, Option.bind_some, if_neg hpos']

/-- A read before an image fails. -/
theorem readSectors_negative (htest : ¬dp.numSecs ≤ (sector + count - 1) % 2 ^ 64)
    (htype : ¬dp.type.HasStart) {pos : Int} (hpos : calcPos dp sector = some pos) (hneg : pos < 0)
    (hcount : 0 < count) :
    readSectors dp host mem buffer sector count = some (-derrNotfound, mem) := by
  unfold readSectors
  rw [if_neg htest, hpos, Option.bind_eq_bind, Option.bind_some, if_pos ⟨hneg, hcount⟩]
  exact if_pos htype

/-! ## Writes -/

/-- What the part of a write behind the start does, with `a` sectors emulated before it. -/
structure Put (dp : Disk) (host : Host) (mem : Mem) (buffer first a count : Nat)
    (out : Int × HostFile) : Prop where
  negative : out.1 < 0 ↔ SeekFails dp host ∨ (WriteFails dp host ∧ a = 0)
  stored : dp.IsFile → out.1 = count * 512 → ∀ x, out.2.bytes x =
    if dp.header + first * 512 ≤ x ∧ x < dp.header + first * 512 + (count - a) * 512 then
      mem (buffer + (x - (dp.header + first * 512)))
    else host.file.bytes x
  dir : ¬dp.IsFile → out.2 = host.file

theorem writeHost_dir {f : Fatfs} (hf : dp.type = .dirType f) :
    Put dp host mem buffer first a count
      (writeHost dp host mem buffer (dp.header + first * 512 : Nat) count (a * 512)) := by
  have hheader := dp.header_eq (by rw [hf]; trivial)
  have hseek : ¬SeekFails dp host := by
    rw [SeekFails, hf]
    exact id
  have hwrite : ¬WriteFails dp host := by
    rw [WriteFails, hf]
    exact id
  unfold writeHost
  rw [hf]
  dsimp only
  rw [if_neg (by omega)]
  refine ⟨⟨fun h => ?_, fun h => ?_⟩, fun hfile => absurd hf (hfile f), fun _ => rfl⟩
  · dsimp only at h
    omega
  · rcases h with h | ⟨h, -⟩
    · exact absurd h hseek
    · exact absurd h hwrite

theorem writeHost_file (h : dp.IsFile) (ha : a < count) :
    Put dp host mem buffer first a count
      (writeHost dp host mem buffer (dp.header + first * 512 : Nat) count (a * 512)) := by
  unfold writeHost
  split
  · next f hf => exact absurd hf (h f)
  rcases hseek : host.seekOk with _ | _
  · refine ⟨⟨fun _ => Or.inl ((seekFails_file h).mpr hseek), fun _ => ?_⟩, fun _ hret => ?_,
      fun hdir => absurd h hdir⟩
    · simp [derrNotfound]
    · simp [derrNotfound] at hret
      omega
  · have hno : ¬SeekFails dp host := by
      rw [seekFails_file h, hseek]
      exact Bool.true_eq_false_eq_False
    unfold dosWritePosix
    rcases htransfer : host.transfer with _ | n
    · have hfails := (writeFails_file h).mpr (Or.inr htransfer)
      refine ⟨⟨fun hret => Or.inr ⟨hfails, ?_⟩, fun hor => ?_⟩, fun _ hret => ?_,
        fun hdir => absurd h hdir⟩
      · simp at hret
        omega
      · rcases hor with hor | ⟨-, rfl⟩
        · exact absurd hor hno
        · simp
      · simp at hret
        omega
    · have hgood : ¬WriteFails dp host := by
        rw [writeFails_file h, hseek, htransfer]
        simp
      refine ⟨⟨fun hret => ?_, fun hor => ?_⟩, fun _ hret x => ?_, fun hdir => absurd h hdir⟩
      · simp at hret
        omega
      · rcases hor with hor | ⟨hor, -⟩
        · exact absurd hor hno
        · exact absurd hor hgood
      · simp only [Bool.not_true, Bool.false_eq_true, if_false, Option.map_some,
          Int.toNat_natCast] at hret ⊢
        have hput : min n (count * 512 - a * 512) = (count - a) * 512 := by
          omega
        rw [hput, fill]

theorem writeHost_spec (dp : Disk) (host : Host) (mem : Mem) (buffer first : Nat)
    (ha : a < count) :
    Put dp host mem buffer first a count
      (writeHost dp host mem buffer (dp.header + first * 512 : Nat) count (a * 512)) := by
  rcases dp.isFile_or_dir with hfile | ⟨f, hf⟩
  · exact writeHost_file hfile ha
  · exact writeHost_dir hf

/-- A write that begins `m` sectors before the start. -/
theorem writeSectors_before (htest : ¬dp.numSecs ≤ (sector + count - 1) % 2 ^ 64)
    (hrw : dp.rdonly = false) (htype : dp.type.HasStart) {m : Nat}
    (hpos : calcPos dp sector = some (-((m : Int) * 512))) (hm : 0 < m) (hcount : 0 < count) :
    writeSectors dp host mem buffer sector count =
      some (if count ≤ m then (((count * 512 : Nat) : Int), host.file)
        else writeHost dp host mem (buffer + m * 512) (dp.header + 0 * 512 : Nat) count
          (m * 512)) := by
  have hheader := dp.header_eq htype
  let writesize := if -(-((m : Int) * 512)) < count * 512 then (-(-((m : Int) * 512))).toNat
    else count * 512
  have hwritesize : writesize = min count m * 512 := by
    unfold writesize
    split <;> omega
  unfold writeSectors
  rw [if_neg htest, hrw, hpos]
  change (if -((m : Int) * 512) < 0 ∧ 0 < count then
      if ¬dp.type.HasStart then some (-derrNotfound, host.file)
      else if writesize = count * 512 then some ((writesize : Int), host.file)
        else some (writeHost dp host mem (buffer + writesize)
          (-((m : Int) * 512) + (writesize + dp.header)) count writesize)
    else _) = _
  rw [if_pos (by omega), if_neg (not_not.mpr htype), hwritesize]
  by_cases hfull : count ≤ m
  · rw [if_pos (by omega), if_pos hfull, Nat.min_eq_left hfull]
  · rw [if_neg (by omega), if_neg hfull, Nat.min_eq_right (by omega), hheader]
    congr 2
    omega

theorem writeSectors_behind (htest : ¬dp.numSecs ≤ (sector + count - 1) % 2 ^ 64)
    (hrw : dp.rdonly = false)
    (hpos : calcPos dp sector = some ((dp.header + first * 512 : Nat) : Int)) :
    writeSectors dp host mem buffer sector count =
      some (writeHost dp host mem buffer (dp.header + first * 512 : Nat) count (0 * 512)) := by
  have hpos' : ¬(((dp.header + first * 512 : Nat) : Int) < 0 ∧ 0 < count) := by
    omega
  unfold writeSectors
  rw [if_neg htest, if_neg (ne_true_of_eq_false hrw), hpos, Nat.zero_mul, Option.bind_eq_bind,
    Option.bind_some, if_neg hpos']

theorem writeSectors_negative (htest : ¬dp.numSecs ≤ (sector + count - 1) % 2 ^ 64)
    (hrw : dp.rdonly = false) (htype : ¬dp.type.HasStart) {pos : Int}
    (hpos : calcPos dp sector = some pos) (hneg : pos < 0) (hcount : 0 < count) :
    writeSectors dp host mem buffer sector count = some (-derrNotfound, host.file) := by
  unfold writeSectors
  rw [if_neg htest, if_neg (ne_true_of_eq_false hrw), hpos, Option.bind_eq_bind,
    Option.bind_some, if_pos ⟨hneg, hcount⟩]
  exact if_pos htype

/-! ## The contract -/

namespace Request

/-- A write that fails without touching the file keeps its contract. -/
theorem write_refused (hwrite : r.write = true) {d : Int} (hd : 0 < d)
    (hrun : writeSectors dp host mem r.buffer r.sector r.count = some (-d, host.file)) :
    r.Contract dp host mem := by
  have hpos := r.count_pos
  rw [Contract, if_pos hwrite]
  exact ⟨_, _, hrun, fun hret => by omega, fun hret => by omega, fun _ => by omega⟩

/-- So does a read that fails without touching the memory. -/
theorem read_refused (hread : r.write = false) {d : Int} (hd : 0 < d)
    (hrun : readSectors dp host mem r.buffer r.sector r.count = some (-d, mem)) :
    r.Contract dp host mem := by
  have hpos := r.count_pos
  rw [Contract, if_neg (ne_true_of_eq_false hread)]
  exact ⟨_, _, hrun, fun hret => by omega, fun hret => by omega, fun _ => by omega⟩

theorem refused_of_not_tested (h : ¬r.Tested dp) : r.Contract dp host mem := by
  cases hdir : r.write with
  | true => exact write_refused hdir (d := derrNotfound) (by decide) (if_pos (Nat.not_lt.mp h))
  | false => exact read_refused hdir (d := derrNotfound) (by decide) (if_pos (Nat.not_lt.mp h))

/-- A request that passes the range test and does not wrap around is inside. -/
theorem Tested.inside (h : r.Tested dp) (hwrap : ¬r.Wraps) : r.Inside dp := by
  have hpos := r.count_pos
  unfold Tested at h
  unfold Wraps at hwrap
  unfold Inside
  omega

theorem Wraps.not_inside (h : r.Wraps) : ¬r.Inside dp := by
  have hlt := dp.numSecs_lt
  unfold Wraps at h
  unfold Inside
  omega

/-- The sectors of a read come from the emulated ones and from the host. -/
theorem delivered_of {mem₁ : Mem} {out : Int × Mem} {file : HostFile}
    (hboot : ∀ i < r.emulated dp, ∀ k < 512,
      mem₁ (r.buffer + i * 512 + k) = bootByte dp (r.sector + i) k)
    (hbelow : ∀ x < r.buffer + r.emulated dp * 512, out.2 x = mem₁ x)
    (hhost : ∀ i < r.count - r.emulated dp, ∀ k < 512,
      out.2 (r.buffer + r.emulated dp * 512 + i * 512 + k) =
        hostByte dp file (r.sector + r.emulated dp - dp.base + i) k) :
    r.Delivered dp file out.2 := by
  have hemul : r.emulated dp = min r.count (dp.base - r.sector) := rfl
  intro i hi k hk
  unfold sectorByte
  by_cases hbefore : i < r.emulated dp
  · rw [if_pos (by omega), hbelow _ (by omega), hboot i hbefore k hk, bootByte]
  · have hidx := hhost (i - r.emulated dp) (by omega) k hk
    rw [if_neg (by omega)]
    rw [show r.buffer + r.emulated dp * 512 + (i - r.emulated dp) * 512 + k =
      r.buffer + i * 512 + k by omega] at hidx
    rw [hidx]
    congr 1
    omega

/-- The sectors behind the start that a complete write stores. -/
theorem stored_of {out : Int × HostFile} {first : Nat}
    (hput : Put dp host mem (r.buffer + r.emulated dp * 512) first (r.emulated dp) r.count out)
    (hfirst : first + dp.base = r.sector + r.emulated dp) (hret : out.1 = r.count * 512) :
    r.Stored dp host.file mem out.2 := by
  have hemul : r.emulated dp = min r.count (dp.base - r.sector) := rfl
  unfold Stored
  split
  · next f hf => exact hput.dir fun hfile => hfile f hf
  · next hdir =>
      have hbytes := hput.stored (fun f hf => hdir f hf) hret
      refine ⟨fun i hi hbase k hk => ?_, fun x hx => ?_⟩
      · rw [hbytes, if_pos (by omega)]
        exact congrArg mem (by omega)
      · rw [hbytes, if_neg]
        rintro ⟨hlo, hhi⟩
        have hidx := hx (r.emulated dp + (x - (dp.header + first * 512)) / 512) (by omega)
          (by omega)
        omega

/-- Behind the start, a read keeps its contract. -/
theorem read_behind (hread : r.write = false) (ht : r.Tested dp) (hinside : r.Inside dp)
    (hpos : calcPos dp r.sector = some ((dp.header + first * 512 : Nat) : Int))
    (hfirst : first + dp.base = r.sector) : r.Contract dp host mem := by
  have hcount := r.count_pos
  have hemul : r.emulated dp = 0 := by
    rw [emulated]
    omega
  have hspec := readHost_spec dp host mem r.buffer first hcount
  have hrun := @readSectors_behind _ host mem _ _ r.buffer _ (Nat.not_le.mpr ht) hpos
  rw [Contract, if_neg (ne_true_of_eq_false hread)]
  refine ⟨_, _, hrun, fun _ => hinside, fun hret => ?_, fun hfail => ?_⟩
  · apply @delivered_of _ _ mem
    · intro i hi
      omega
    · rw [hemul]
      exact hspec.below
    · rw [hemul, Nat.zero_mul]
      simp only [Nat.add_zero, Nat.sub_zero]
      rw [← hfirst, Nat.add_sub_cancel]
      exact hspec.delivers hret
  · have hhost := hfail.2
    rw [if_neg (ne_true_of_eq_false hread), hemul, Nat.add_zero, ← hfirst,
      Nat.add_sub_cancel] at hhost
    exact hspec.fails.mpr hhost

/-- So does a write. -/
theorem write_behind (hwrite : r.write = true) (hrw : dp.rdonly = false) (ht : r.Tested dp)
    (hinside : r.Inside dp)
    (hpos : calcPos dp r.sector = some ((dp.header + first * 512 : Nat) : Int))
    (hfirst : first + dp.base = r.sector) : r.Contract dp host mem := by
  have hemul : r.emulated dp = 0 := by
    rw [emulated]
    omega
  have hspec := writeHost_spec dp host mem r.buffer first r.count_pos
  have hrun := @writeSectors_behind _ host mem _ _ r.buffer _ (Nat.not_le.mpr ht) hrw hpos
  rw [Contract, if_pos hwrite]
  refine ⟨_, _, hrun, fun _ => hinside, fun hret => ?_, fun hfail => ?_⟩
  · apply @stored_of _ _ _ _ _ first
    · rw [hemul, Nat.zero_mul, Nat.add_zero]
      exact hspec
    · rw [hemul]
      exact hfirst
    · exact hret
  · have hhost := hfail.2
    rw [if_pos hwrite] at hhost
    exact hspec.negative.mpr (Or.inr ⟨hhost, rfl⟩)

/-- A read that begins before the start and does not wrap around keeps its contract. -/
theorem read_before (hread : r.write = false) (htype : dp.type.HasStart) (ht : r.Tested dp)
    (hinside : r.Inside dp) (hbefore : r.sector < dp.start) : r.Contract dp host mem := by
  have hbase : dp.base = dp.start := if_pos htype
  have hcount := r.count_pos
  have hemul : r.emulated dp = min r.count (dp.start - r.sector) := by
    rw [emulated, hbase]
  have hpos : calcPos dp r.sector = some (-(((dp.start - r.sector : Nat) : Int) * 512)) := by
    have hlt : r.sector < dp.numSecs := by
      unfold Inside at hinside
      omega
    rw [calcPos_volume htype hlt]
    congr 1
    omega
  obtain ⟨mem₁, hrun, hboot⟩ := @readSectors_before _ host mem _ _ r.buffer
    (Nat.not_le.mpr ht) htype _ hpos (by omega) hcount
  have hboot' := hboot (by omega)
  rw [Nat.min_comm, Nat.min_comm, ← hemul] at hboot'
  rw [Contract, if_neg (ne_true_of_eq_false hread)]
  by_cases hfull : r.count ≤ dp.start - r.sector
  · rw [if_pos hfull] at hrun
    refine ⟨_, _, hrun, fun _ => hinside, fun _ => ?_, fun hfail => ?_⟩
    · apply @delivered_of _ _ _ (0, mem₁) _ hboot'
      · exact fun _ _ => rfl
      · intro i hi
        omega
    · exact absurd hfail.1 (by omega)
  · have hsecs : r.emulated dp = dp.start - r.sector := by
      omega
    have hspec := readHost_spec dp host mem₁ (r.buffer + (dp.start - r.sector) * 512) 0
      (Nat.not_le.mp hfull)
    rw [if_neg hfull] at hrun
    refine ⟨_, _, hrun, fun _ => hinside, fun hret => ?_, fun hfail => ?_⟩
    · apply delivered_of hboot'
      · rw [hsecs]
        exact hspec.below
      · rw [hsecs, hbase, Nat.add_sub_cancel' hbefore.le, Nat.sub_self]
        exact hspec.delivers hret
    · have hhost := hfail.2
      rw [if_neg (ne_true_of_eq_false hread), hsecs, hbase, Nat.add_sub_cancel' hbefore.le,
        Nat.sub_self] at hhost
      exact hspec.fails.mpr hhost

/-- A write that begins before the start and does not wrap around keeps its
contract if a failure of the host behind the start is one of the seek. -/
theorem write_before (hwrite : r.write = true) (hrw : dp.rdonly = false)
    (htype : dp.type.HasStart) (ht : r.Tested dp) (hinside : r.Inside dp)
    (hbefore : r.sector < dp.start) :
    r.Contract dp host mem ↔
      (r.emulated dp < r.count → WriteFails dp host → SeekFails dp host) := by
  have hbase : dp.base = dp.start := if_pos htype
  have hcount := r.count_pos
  have hemul : r.emulated dp = min r.count (dp.start - r.sector) := by
    rw [emulated, hbase]
  have hpos : calcPos dp r.sector = some (-(((dp.start - r.sector : Nat) : Int) * 512)) := by
    have hlt : r.sector < dp.numSecs := by
      unfold Inside at hinside
      omega
    rw [calcPos_volume htype hlt]
    congr 1
    omega
  have hrun := @writeSectors_before _ host mem _ _ r.buffer
    (Nat.not_le.mpr ht) hrw htype _ hpos (by omega) hcount
  by_cases hfull : r.count ≤ dp.start - r.sector
  · have hsecs : r.emulated dp = r.count := by
      omega
    rw [if_pos hfull] at hrun
    refine ⟨fun _ hlt => absurd hlt (by omega), fun _ => ?_⟩
    rw [Contract, if_pos hwrite]
    refine ⟨_, _, hrun, fun _ => hinside, fun _ => ?_, fun hfail => ?_⟩
    · unfold Stored
      split
      · rfl
      · refine ⟨fun i hi hstart => ?_, fun _ _ => rfl⟩
        omega
    · exact absurd hfail.1 (by omega)
  · have hsecs : r.emulated dp = dp.start - r.sector := by
      omega
    have hspec := writeHost_spec dp host mem (r.buffer + (dp.start - r.sector) * 512) 0
      (Nat.not_le.mp hfull)
    have hne : ¬dp.start - r.sector = 0 := by
      omega
    rw [if_neg hfull] at hrun
    rw [Contract, if_pos hwrite]
    constructor
    · rintro ⟨ret, file, hret, -, -, hfail⟩ hlt hwf
      rw [hrun] at hret
      obtain ⟨rfl, rfl⟩ := Prod.mk.inj (Option.some.inj hret)
      have hneg := hfail ⟨hlt, by rwa [if_pos hwrite]⟩
      exact (hspec.negative.mp hneg).resolve_right fun h => hne h.2
    · intro hseek
      refine ⟨_, _, hrun, fun _ => hinside, fun hret => ?_, fun hfail => ?_⟩
      · apply @stored_of _ _ _ _ _ 0
        · rw [hsecs]
          exact hspec
        · omega
        · exact hret
      · have hwf := hfail.2
        rw [if_pos hwrite] at hwf
        exact hspec.negative.mpr (Or.inl (hseek hfail.1 hwf))

/-- A request that wraps around keeps its contract if it is refused for want of the host. -/
theorem wraps_iff (htype : dp.type.HasStart) (ht : r.Tested dp) (hwrap : r.Wraps)
    (hrw : r.write = true → dp.rdonly = false) :
    r.Contract dp host mem ↔ r.wrapped dp < r.count ∧
      if r.write then SeekFails dp host else ReadFails dp host 0 (r.count - r.wrapped dp) := by
  have hcount := r.count_pos
  have hsector := r.sector_lt
  have hcount16 := r.count_lt
  have hout : ¬r.Inside dp := hwrap.not_inside
  have hmany : 0 < r.wrapped dp := by
    unfold wrapped
    omega
  have hpos : calcPos dp r.sector = some (-((r.wrapped dp : Int) * 512)) := by
    unfold Wraps at hwrap
    exact calcPos_wrapped htype (by omega) hsector
  -- outside of the disk, a request keeps its contract if its result is negative
  have hneg {ret : Int} {P Q : Prop} :
      ((0 ≤ ret → r.Inside dp) ∧ (ret = r.count * 512 → P) ∧ (Q → ret < 0)) ↔ ret < 0 := by
    constructor
    · rintro ⟨hin, -, -⟩
      by_contra hnn
      exact hout (hin (Int.not_lt.mp hnn))
    · intro hlt
      exact ⟨fun hnn => absurd hlt (Int.not_lt.mpr hnn), fun heq => by omega, fun _ => hlt⟩
  cases hdir : r.write with
  | true =>
      have hrun := @writeSectors_before _ host mem _ _ r.buffer
        (Nat.not_le.mpr ht) (hrw hdir) htype _ hpos hmany hcount
      rw [Contract, if_pos hdir, if_pos rfl]
      constructor
      · rintro ⟨ret, file, hret, hkept⟩
        have hlt := hneg.mp hkept
        rw [hrun] at hret
        by_cases hfull : r.count ≤ r.wrapped dp
        · rw [if_pos hfull] at hret
          obtain ⟨rfl, -⟩ := Prod.mk.inj (Option.some.inj hret)
          omega
        · rw [if_neg hfull] at hret
          have hspec := writeHost_spec dp host mem (r.buffer + r.wrapped dp * 512) 0
            (Nat.not_le.mp hfull)
          rw [Option.some.inj hret] at hspec
          exact ⟨Nat.not_le.mp hfull, (hspec.negative.mp hlt).resolve_right
            fun h => hmany.ne' h.2⟩
      · rintro ⟨hlt, hseek⟩
        rw [if_neg (Nat.not_le.mpr hlt)] at hrun
        exact ⟨_, _, hrun, hneg.mpr ((writeHost_spec _ _ _ _ 0 hlt).negative.mpr (Or.inl hseek))⟩
  | false =>
      obtain ⟨mem₁, hrun, -⟩ := @readSectors_before _ host mem _ _ r.buffer
        (Nat.not_le.mpr ht) htype _ hpos hmany hcount
      rw [Contract, if_neg (ne_true_of_eq_false hdir), if_neg Bool.false_ne_true]
      constructor
      · rintro ⟨ret, mem', hret, hkept⟩
        have hlt := hneg.mp hkept
        rw [hrun] at hret
        by_cases hfull : r.count ≤ r.wrapped dp
        · rw [if_pos hfull] at hret
          obtain ⟨rfl, -⟩ := Prod.mk.inj (Option.some.inj hret)
          omega
        · rw [if_neg hfull] at hret
          have hspec := readHost_spec dp host mem₁ (r.buffer + r.wrapped dp * 512) 0
            (Nat.not_le.mp hfull)
          rw [Option.some.inj hret] at hspec
          exact ⟨Nat.not_le.mp hfull, hspec.fails.mp hlt⟩
      · rintro ⟨hlt, hfail⟩
        rw [if_neg (Nat.not_le.mpr hlt)] at hrun
        exact ⟨_, _, hrun, hneg.mpr ((readHost_spec _ _ _ _ 0 hlt).fails.mpr hfail)⟩

/-- On a disk whose sectors are all in the image, a request keeps its contract
if its position is a file position. -/
theorem image_iff (htype : ¬dp.type.HasStart) (ht : r.Tested dp)
    (hrw : r.write = true → dp.rdonly = false) :
    r.Contract dp host mem ↔ r.Positioned dp := by
  have hcount := r.count_pos
  have hcount16 := r.count_lt
  have hsector := r.sector_lt
  have hbase : dp.base = 0 := if_neg htype
  have htest := Nat.not_le.mpr ht
  constructor
  · intro hkept
    by_contra hover
    have hover' := not_or.mp hover
    have hpos := calcPos_overflow htype (Nat.not_lt.mp hover'.1) (Nat.not_le.mp hover'.2)
    -- undefined positions have no outcome at all
    unfold Contract at hkept
    split at hkept
    · next hwrite =>
        obtain ⟨ret, file, hrun, -⟩ := hkept
        unfold writeSectors at hrun
        rw [if_neg htest, if_neg (ne_true_of_eq_false (hrw hwrite)), hpos] at hrun
        cases hrun
    · obtain ⟨ret, file, hrun, -⟩ := hkept
      unfold readSectors at hrun
      rw [if_neg htest, hpos] at hrun
      cases hrun
  · rintro (hlow | hhigh)
    · have hpos := calcPos_image htype hlow
      have hinside : r.Inside dp := Tested.inside ht (by unfold Wraps; omega)
      have hfirst : r.sector + dp.base = r.sector := by
        rw [hbase, Nat.add_zero]
      cases hdir : r.write with
      | true => exact write_behind hdir (hrw hdir) ht hinside hpos hfirst
      | false => exact read_behind hdir ht hinside hpos hfirst
    · obtain ⟨pos, hpos, hneg⟩ := calcPos_high htype hhigh hsector
      cases hdir : r.write with
      | true =>
          exact write_refused hdir (by decide)
            (writeSectors_negative htest (hrw hdir) htype hpos hneg hcount)
      | false =>
          exact read_refused hdir (by decide) (readSectors_negative htest htype hpos hneg hcount)

/-- A request that begins at the start of a volume or behind it keeps its contract. -/
theorem volume_behind (htype : dp.type.HasStart) (ht : r.Tested dp) (hinside : r.Inside dp)
    (hrw : r.write = true → dp.rdonly = false) (hstart : dp.start ≤ r.sector) :
    r.Contract dp host mem := by
  have hcount := r.count_pos
  have hbase : dp.base = dp.start := if_pos htype
  have hpos : calcPos dp r.sector =
      some ((dp.header + (r.sector - dp.start) * 512 : Nat) : Int) := by
    have hlt : r.sector < dp.numSecs := by
      unfold Inside at hinside
      omega
    rw [calcPos_volume htype hlt, dp.header_eq htype]
    congr 1
    omega
  have hfirst : r.sector - dp.start + dp.base = r.sector := by
    rw [hbase]
    omega
  cases hdir : r.write with
  | true => exact write_behind hdir (hrw hdir) ht hinside hpos hfirst
  | false => exact read_behind hdir ht hinside hpos hfirst

/-- A request keeps its contract exactly if it is safe. -/
theorem sectors_served_iff (r : Request) (dp : Disk) (host : Host) (mem : Mem) :
    r.Contract dp host mem ↔ r.Safe dp host := by
  by_cases ht : r.Tested dp
  swap
  · exact iff_of_true (refused_of_not_tested ht) fun h => absurd h ht
  by_cases hrw : r.write = true → dp.rdonly = false
  swap
  · obtain ⟨hwrite, hro⟩ := Classical.not_imp.mp hrw
    refine iff_of_true ?_ fun _ h => absurd h hrw
    apply write_refused hwrite (d := derrWriteflt) (by decide)
    unfold writeSectors
    rw [if_neg (Nat.not_le.mpr ht), if_pos (Bool.eq_true_of_not_eq_false hro)]
  have hsafe : r.Safe dp host ↔ _ := ⟨fun h => h ht hrw, fun h _ _ => h⟩
  rw [hsafe]
  by_cases htype : dp.type.HasStart
  swap
  · rw [if_neg htype]
    exact image_iff htype ht hrw
  rw [if_pos htype]
  by_cases hwrap : r.Wraps
  · rw [wraps_iff htype ht hwrap hrw, if_pos hwrap]
    split
    · rfl
    · exact ⟨fun h _ => h, fun h => h hwrap⟩
  have hinside := Tested.inside ht hwrap
  rw [if_neg hwrap]
  by_cases hbefore : r.sector < dp.start
  · cases hdir : r.write with
    | false => exact iff_of_true (read_before hdir htype ht hinside hbefore) fun h => absurd h hwrap
    | true =>
        have hemul : 0 < r.emulated dp := by
          have hcount := r.count_pos
          rw [emulated, show dp.base = dp.start from if_pos htype]
          omega
        rw [write_before hdir (hrw hdir) htype ht hinside hbefore, if_pos rfl]
        exact ⟨fun h _ => h, fun h => h hemul⟩
  · have hkept := @volume_behind _ host mem _ htype ht hinside hrw
      (Nat.not_lt.mp hbefore)
    have hemul : r.emulated dp = 0 := by
      rw [emulated, show dp.base = dp.start from if_pos htype]
      omega
    refine iff_of_true hkept ?_
    split
    · rw [hemul]
      exact fun h => absurd h (Nat.lt_irrefl 0)
    · exact fun h => absurd h hwrap

/-- A partition of a thousand sectors behind a track of its own. -/
def smallPartition : Disk where
  type := .partition
  rdonly := false
  start := 63
  numSecs := 1000
  header := 0
  mbr := fun _ => 0
  start_lt := by
    decide
  numSecs_lt := by
    decide
  header_lt := by
    decide
  header_eq := fun _ => rfl
  volume_lt := fun _ => by
    decide
  dir_lt := by
    intro f hf
    cases hf

/-- The last sector of the 64-bit range and one more. -/
def lastSector : Request where
  write := false
  buffer := 0
  sector := 2 ^ 64 - 1
  count := 2
  sector_lt := by
    decide
  count_pos := by
    decide
  count_lt := by
    decide

/-- A read from far outside of a partition succeeds. -/
theorem wraps_around :
    ¬∀ (r : Request) (dp : Disk) (host : Host) (mem : Mem), r.Contract dp host mem := by
  intro hall
  have hkept := hall lastSector smallPartition ⟨⟨fun _ => 0, 0⟩, true, none⟩ fun _ => 0
  obtain ⟨ret, mem', hrun, hinside, -⟩ := hkept
  obtain ⟨rfl, -⟩ := Prod.mk.inj (Option.some.inj hrun)
  have hin := hinside (by decide)
  revert hin
  unfold Inside
  decide

end Request

end Disks
end Dosemu
