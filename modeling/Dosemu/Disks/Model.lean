import Dosemu.Lib.Memory

/-!
# Sector access to a disk image

`read_sectors` and `write_sectors` for the types of a drive.  A partition, or a
directory that is served as one, has no boot record of its own: the sectors
before its start come from a boot record that is kept in memory, and what is
written to them is ignored.  One request may begin there and end in the image.

Signed 64-bit arithmetic that overflows is undefined in C; the model stops
there.  Everything that the host answers is an input: whether the seek
succeeds, and how much one read or write of the file moves.

The bounds in `Disk` are what the autosense functions establish.
-/

namespace Dosemu
namespace Disks

open Memory

/-- `DERR_NOTFOUND` -/
def derrNotfound : Int := 4

/-- `DERR_ECCERR` -/
def derrEccerr : Int := 0x10

/-- `DERR_WRITEFLT` -/
def derrWriteflt : Int := 0xcc

/-- The failures of `read_sec`. -/
inductive SecError where
  | notFound
  | readError
  deriving DecidableEq

/-- What `read_sec` answers for each sector of the emulated file system. -/
abbrev Fatfs := BitVec 32 → Except SecError (Nat → UInt8)

/-- `disk_t`; a directory comes with its file system. -/
inductive DiskType where
  | image
  | hdisk
  | floppy
  | partition
  | dirType (fatfs : Fatfs)

/-- The types whose first sectors are emulated. -/
def DiskType.HasStart : DiskType → Prop
  | .partition | .dirType _ => True
  | _ => False

instance : (t : DiskType) → Decidable t.HasStart
  | .partition | .dirType _ => .isTrue trivial
  | .image | .hdisk | .floppy => .isFalse id

/-- What the sector functions use of `struct disk`. -/
structure Disk where
  type : DiskType
  rdonly : Bool
  start : Nat
  numSecs : Nat
  header : Nat
  mbr : Nat → UInt8
  /-- A track of the volume, and at most 255 sectors where there is none. -/
  start_lt : start < 2 ^ 16
  numSecs_lt : numSecs < 2 ^ 64
  /-- `header_end` of an image has 32 bits. -/
  header_lt : header < 2 ^ 32
  header_eq : type.HasStart → header = 0
  /-- The sectors of a volume are positions in a file. -/
  volume_lt : type.HasStart → numSecs < 2 ^ 54 + start
  /-- The geometries of a directory are small. -/
  dir_lt : ∀ f, type = .dirType f → numSecs ≤ 2 ^ 32

/-- The file behind a disk. -/
structure HostFile where
  bytes : Mem
  size : Nat

/-- The file, whether a seek succeeds, and how many bytes a transfer moves at most. -/
structure Host where
  file : HostFile
  seekOk : Bool
  transfer : Option Nat

/-- A value converted to `int64_t`. -/
def toInt64 (x : Int) : Int :=
  (x + 2 ^ 63) % 2 ^ 64 - 2 ^ 63

/-- A value converted to `int`. -/
def toInt32 (x : Int) : Int :=
  (x + 2 ^ 31) % 2 ^ 32 - 2 ^ 31

/-- The result of an operation on `off_t`. -/
def offT (x : Int) : Option Int :=
  if -2 ^ 63 ≤ x ∧ x < 2 ^ 63 then some x else none

/-- `calc_pos` -/
def calcPos (dp : Disk) (sector : Nat) : Option Int := do
  let sector : Int := toInt64 (if dp.type.HasStart then sector - dp.start else sector)
  let pos ← offT (sector * 512)
  if 0 ≤ pos then offT (pos + dp.header) else some pos

/-- `fatfs_read`: the memory, and the failure it stopped at. -/
def fatfsRead (f : Fatfs) : Mem → Nat → BitVec 32 → Nat → Option SecError × Mem
  | mem, _, _, 0 => (none, mem)
  | mem, buf, pos, len + 1 =>
      match f pos with
      | .error e => (some e, mem)
      | .ok b => fatfsRead f (fill mem buf 512 b) (buf + 512) (pos + 1) len

/-- `dos_read_posix` behind the seek: the number of bytes read, and the memory. -/
def dosReadPosix (host : Host) (mem : Mem) (buffer pos cnt : Nat) : Option (Nat × Mem) :=
  host.transfer.map fun n =>
    let got := min n (min cnt (host.file.size - pos))
    (got, fill mem buffer got fun i => host.file.bytes (pos + i))

/-- The part of `read_sectors` behind the emulated sectors. -/
def readHost (dp : Disk) (host : Host) (mem : Mem) (buffer : Nat) (pos : Int)
    (count already : Nat) : Int × Mem :=
  match dp.type with
  | .dirType f =>
      if pos % 512 ≠ 0 ∨ already % 512 ≠ 0 then (-derrNotfound, mem)
      else
        let len := count - already / 512
        match fatfsRead f mem buffer (BitVec.ofInt 32 (pos / 512)) len with
        | (some .notFound, mem) => (-derrNotfound, mem)
        | (some .readError, mem) => (-derrEccerr, mem)
        | (none, mem) => (len * 512 + already, mem)
  | _ =>
      if !host.seekOk then (-derrNotfound, mem)
      else
        match dosReadPosix host mem buffer pos.toNat (count * 512 - already) with
        | none => (-derrEccerr, mem)
        | some (tmpread, mem) => (tmpread + already, mem)

/-- `read_sectors`: the result and the memory. -/
def readSectors (dp : Disk) (host : Host) (mem : Mem) (buffer sector count : Nat) :
    Option (Int × Mem) :=
  if dp.numSecs ≤ (sector + count - 1) % 2 ^ 64 then some (-derrNotfound, mem)
  else do
    let pos ← calcPos dp sector
    if pos < 0 ∧ 0 < count then
      let mbroff := toInt32 (pos + dp.start * 512)
      if ¬dp.type.HasStart then some (-derrNotfound, mem)
      else
        let readsize := if -pos < count * 512 then (-pos).toNat else count * 512
        let mbrread :=
          if 0 ≤ mbroff ∧ mbroff < 512 then min (512 - mbroff.toNat) readsize else 0
        let mem := fill mem buffer mbrread fun i => dp.mbr (mbroff.toNat + i)
        let mem := fill mem (buffer + mbrread) (readsize - mbrread) fun _ => 0
        if readsize = count * 512 then some (readsize, mem)
        else
          some (readHost dp host mem (buffer + readsize) (pos + (readsize + dp.header)) count
            readsize)
    else some (readHost dp host mem buffer pos count 0)

/-- `dos_write_posix` behind the seek: the number of bytes written, and the file. -/
def dosWritePosix (host : Host) (mem : Mem) (buffer pos cnt : Nat) : Option (Nat × HostFile) :=
  host.transfer.map fun n =>
    let put := min n cnt
    (put, { bytes := fill host.file.bytes pos put fun i => mem (buffer + i)
            size := max host.file.size (pos + put) })

/-- The part of `write_sectors` behind the emulated sectors.  `fatfs_write` ignores what it is
given and reports it as written. -/
def writeHost (dp : Disk) (host : Host) (mem : Mem) (buffer : Nat) (pos : Int)
    (count already : Nat) : Int × HostFile :=
  match dp.type with
  | .dirType _ =>
      if pos % 512 ≠ 0 ∨ already % 512 ≠ 0 then (-derrNotfound, host.file)
      else ((count - already / 512 : Nat) * 512 + already, host.file)
  | _ =>
      if !host.seekOk then (-derrNotfound, host.file)
      else
        match dosWritePosix host mem buffer pos.toNat (count * 512 - already) with
        | none => (-1 + already, host.file)
        | some (tmpwrite, file) => (tmpwrite + already, file)

/-- `write_sectors`: the result and the file. -/
def writeSectors (dp : Disk) (host : Host) (mem : Mem) (buffer sector count : Nat) :
    Option (Int × HostFile) :=
  if dp.numSecs ≤ (sector + count - 1) % 2 ^ 64 then some (-derrNotfound, host.file)
  else if dp.rdonly then some (-derrWriteflt, host.file)
  else do
    let pos ← calcPos dp sector
    if pos < 0 ∧ 0 < count then
      if ¬dp.type.HasStart then some (-derrNotfound, host.file)
      else
        let writesize := if -pos < count * 512 then (-pos).toNat else count * 512
        if writesize = count * 512 then some (writesize, host.file)
        else
          some (writeHost dp host mem (buffer + writesize) (pos + (writesize + dp.header)) count
            writesize)
    else some (writeHost dp host mem buffer pos count 0)

end Disks
end Dosemu
