import Dosemu.Lib.Run

/-!
# The table of file mappings

The drivers that back guest memory by a file or by shared memory keep a table of 512 records.
A record with size 0 is free.  `find_file_mapping` takes the first record that covers an
address and asserts that there is one; `resize_mapping_file` writes the new size into the
record and lets `mremap` write the address.

The answers of `open`, `mmap` and `mremap` are part of each call.

Main results:

- Theorem `Sound.replace`: what a call that touches one record has to keep.
- Theorem `exec_survives`: one call in a sound state.
- Theorem `table_survives`: every run in which no growing `mremap` and no `mmap` of a file
  just opened fails.
-/

namespace Dosemu
namespace Mapping
namespace MapFile

/-- `MAX_FILE_MAPPINGS` -/
def maxFileMappings : Nat :=
  512

def mapFailed : Nat :=
  2 ^ 64 - 1

/-- End of the user address space -/
def userTop : Nat :=
  2 ^ 47

/-- What a page shows: a page of a file or of anonymous memory -/
structure Backing where
  object : Nat
  page : Nat
  deriving DecidableEq

/-- `file_mapping`; no descriptor is -1 -/
structure FileMapping where
  addr : Nat
  size : Nat
  fsize : Nat
  fd : Option Nat
  deriving DecidableEq

/-- `file_mappings`, the pages of the process and its open descriptors -/
structure State where
  fileMappings : Fin maxFileMappings → FileMapping
  vm : Nat → Option Backing
  fds : Nat → Bool

/-! ## Pages -/

def pageCount (size : Nat) : Nat :=
  (size + 4095) / 4096

/-- The page `p` holds a byte of `[addr, addr + size)`, for an aligned `addr`. -/
def InRegion (addr size p : Nat) : Prop :=
  addr / 4096 ≤ p ∧ p < addr / 4096 + pageCount size

instance (addr size p : Nat) : Decidable (InRegion addr size p) :=
  inferInstanceAs (Decidable (_ ∧ _))

theorem pageCount_mono {m n : Nat} (h : m ≤ n) : pageCount m ≤ pageCount n := by
  unfold pageCount
  omega

theorem not_inRegion_zero (addr p : Nat) : ¬ InRegion addr 0 p := by
  unfold InRegion pageCount
  omega

/-- A successful `mmap`: where, and what the pages show -/
structure Region where
  addr : Nat
  back : Nat → Backing

def mapAt (vm : Nat → Option Backing) (addr size : Nat) (back : Nat → Backing) (p : Nat) :
    Option Backing :=
  if InRegion addr size p then some (back (p - addr / 4096)) else vm p

/-- `munmap` -/
def unmap (vm : Nat → Option Backing) (addr size p : Nat) : Option Backing :=
  if InRegion addr size p then none else vm p

/-- A successful `mremap`: the old pages go along, `region` has what follows them. -/
def remap (vm : Nat → Option Backing) (addr oldsize newsize : Nat) (region : Region) (p : Nat) :
    Option Backing :=
  if InRegion region.addr newsize p then
    let k := p - region.addr / 4096
    if k < pageCount oldsize then vm (addr / 4096 + k) else some (region.back k)
  else unmap vm addr oldsize p

/-! ## The driver -/

/-- `p->size && target >= p->addr && target < &p->addr[p->size]` -/
def FileMapping.covers (p : FileMapping) (target : Nat) : Bool :=
  p.size ≠ 0 && p.addr ≤ target && target < (p.addr + p.size) % 2 ^ 64

/-- What the caller sees of a call -/
inductive Ret where
  | failed
  | addr (a : Nat)
  | unit
  deriving DecidableEq

/-- The calls of a driver.  `target` is none for -1. -/
inductive Call where
  | alloc (mapsize : Nat) (target opened : Option Nat) (answer : Option Region)
  | allocSoftmmu (mapsize : Nat) (target : Option Nat) (answer : Option Region)
  | attach (fd : Option Nat) (mapsize : Nat) (answer : Option Region)
  | detach (target : Nat)
  | free (addr : Nat)
  | resize (addr oldsize newsize : Nat) (answer : Option Region)
  | aliasMapping (target : Option Nat) (mapsize source : Nat) (answer : Option Region)

/-- `int size = p->size`, as it is compared with a `size_t` -/
def intSize (size : Nat) : Nat :=
  if size % 2 ^ 32 < 2 ^ 31 then size % 2 ^ 32 else 2 ^ 64 - 2 ^ 32 + size % 2 ^ 32

namespace State

variable (s : State)

def set (i : Fin maxFileMappings) (p : FileMapping) (vm : Nat → Option Backing) : State :=
  { s with fileMappings := Function.update s.fileMappings i p, vm := vm }

/-- `find_file_mapping`; none is the assertion. -/
def findFileMapping (target : Nat) : Option (Fin maxFileMappings) :=
  (List.finRange maxFileMappings).find? fun i => (s.fileMappings i).covers target

def freeMapping : Option (Fin maxFileMappings) :=
  (List.finRange maxFileMappings).find? fun i => (s.fileMappings i).size = 0

/-- `alloc_tail`.  A fixed address without a file is only given its protection. -/
def allocTail (fd : Option Nat) (mapsize : Nat) (target : Option Nat) (answer : Option Region) :
    Option (Ret × State) :=
  s.freeMapping.map fun i =>
    match fd, target with
    | none, some addr => (.addr addr, s.set i ⟨addr, mapsize, mapsize, none⟩ s.vm)
    | _, _ =>
      match answer with
      | none => (.failed, s)
      | some region =>
        (.addr region.addr, s.set i ⟨region.addr, mapsize, mapsize, fd⟩
          (mapAt s.vm region.addr mapsize region.back))

/-- `alloc_mapping_file` -/
def allocMappingFile (mapsize : Nat) (target opened : Option Nat) (answer : Option Region) :
    Option (Ret × State) :=
  match opened with
  | none => some (.failed, s)
  | some fd =>
    { s with fds := Function.update s.fds fd true }.allocTail (some fd) mapsize target answer

/-- `detach_mapping_file` -/
def detachMappingFile (target : Nat) : Option (Ret × State) :=
  (s.findFileMapping target).map fun i =>
    let p := s.fileMappings i
    (.unit, s.set i { p with size := 0 } (unmap s.vm p.addr p.size))

/-- `free_mapping_file` with `do_free_mapping` -/
def freeMappingFile (addr : Nat) : Option (Ret × State) :=
  (s.findFileMapping addr).map fun i =>
    let p := s.fileMappings i
    let fds := p.fd.elim s.fds fun fd => Function.update s.fds fd false
    (.unit, { s with fds := fds }.set i { p with size := 0 } (unmap s.vm p.addr p.size))

/-- `ftruncate` of a file that is too short -/
def grownFsize (p : FileMapping) (newsize : Nat) : Nat :=
  if p.fd ≠ none ∧ p.fsize < newsize then newsize else p.fsize

/-- `resize_mapping_file`.  Shrinking asserts that `mremap` leaves the block in place. -/
def resizeMappingFile (addr oldsize newsize : Nat) (answer : Option Region) :
    Option (Ret × State) :=
  match s.findFileMapping addr with
  | none => none
  | some i =>
    let p := s.fileMappings i
    let size := intSize p.size
    if size = 0 ∨ size ≠ oldsize ∨ addr ≠ p.addr then some (.failed, s)
    else if size = newsize then some (.addr addr, s)
    else if newsize < size then
      match answer with
      | none => none
      | some region =>
        if region.addr = addr then
          some (.addr addr, s.set i { p with size := newsize }
            (remap s.vm addr oldsize newsize region))
        else none
    else
      let fsize := grownFsize p newsize
      match answer with
      | none => some (.failed, s.set i ⟨mapFailed, newsize, fsize, p.fd⟩ s.vm)
      | some region =>
        some (.addr region.addr, s.set i ⟨region.addr, newsize, fsize, p.fd⟩
          (remap s.vm addr oldsize newsize region))

/-- `alias_mapping_file`; a failing `mmap` exits. -/
def aliasMappingFile (mapsize source : Nat) (answer : Option Region) : Option (Ret × State) :=
  match s.findFileMapping source with
  | none => none
  | some i =>
    let p := s.fileMappings i
    if p.size < source - p.addr + mapsize then some (.failed, s)
    else answer.map fun region =>
      (.addr region.addr, { s with vm := mapAt s.vm region.addr mapsize region.back })

/-- One call; none where the process ends. -/
def exec : Call → Option (Ret × State)
  | .alloc mapsize target opened answer => s.allocMappingFile mapsize target opened answer
  | .allocSoftmmu mapsize target answer => s.allocTail none mapsize target answer
  | .attach fd mapsize answer => s.allocTail fd mapsize none answer
  | .detach target => s.detachMappingFile target
  | .free addr => s.freeMappingFile addr
  | .resize addr oldsize newsize answer => s.resizeMappingFile addr oldsize newsize answer
  | .aliasMapping _ mapsize source answer => s.aliasMappingFile mapsize source answer

end State

def step (s : State) (c : Call) : Option State :=
  (s.exec c).map Prod.snd

/-! ## What the kernel and the callers promise -/

/-- Where the kernel puts a mapping of its own choice -/
structure Fresh (vm : Nat → Option Backing) (addr size : Nat) : Prop where
  aligned : addr % 4096 = 0
  below : addr + size ≤ userTop
  unmapped : ∀ p, InRegion addr size p → vm p = none

/-- `mremap` with `MREMAP_MAYMOVE` grows in place or moves to a free region. -/
def Grown (vm : Nat → Option Backing) (addr oldsize newsize : Nat) (region : Region) : Prop :=
  Fresh vm region.addr newsize ∨
    (region.addr = addr ∧ addr + newsize ≤ userTop ∧
      ∀ p, InRegion addr newsize p → ¬ InRegion addr oldsize p → vm p = none)

namespace State

variable (s : State)

/-- The page `p` belongs to the record `i`. -/
def Holds (i : Fin maxFileMappings) (p : Nat) : Prop :=
  InRegion (s.fileMappings i).addr (s.fileMappings i).size p

/-- Aligned and in no record's way: what a caller that gives a fixed address has reserved -/
structure Spare (addr size : Nat) : Prop where
  aligned : addr % 4096 = 0
  below : addr + size ≤ userTop
  apart : ∀ i p, s.Holds i p → ¬ InRegion addr size p

/-- A fixed mapping is where it was asked for. -/
def Answered (mapsize : Nat) (target : Option Nat) (answer : Option Region) : Prop :=
  ∀ region, answer = some region →
    match target with
    | some addr => region.addr = addr
    | none => Fresh s.vm region.addr mapsize

def Legal : Call → Prop
  | .alloc mapsize target _ answer =>
    (∀ addr, target = some addr → s.Spare addr mapsize) ∧ s.Answered mapsize target answer
  | .allocSoftmmu mapsize target answer =>
    (∀ addr, target = some addr →
      s.Spare addr mapsize ∧ ∀ p, InRegion addr mapsize p → s.vm p ≠ none) ∧
    s.Answered mapsize target answer
  | .attach _ mapsize answer => s.Answered mapsize none answer
  | .resize addr oldsize newsize answer =>
    oldsize ≤ 2 ^ 40 ∧ newsize ≤ 2 ^ 40 ∧
      ∀ region, answer = some region → oldsize < newsize →
        Grown s.vm addr oldsize newsize region
  | .aliasMapping target mapsize _ answer => s.Answered mapsize target answer
  | .detach _ | .free _ => True

/-- The call gets as far as `mremap` with a larger size. -/
def Grows (addr oldsize newsize : Nat) : Prop :=
  ∃ i, s.findFileMapping addr = some i ∧ addr = (s.fileMappings i).addr ∧
    intSize (s.fileMappings i).size = oldsize ∧ oldsize ≠ 0 ∧ oldsize < newsize

/-- Neither the `mremap` of a growing block nor the `mmap` of a file just opened fails. -/
def Good : Call → Prop
  | .alloc _ _ opened answer => opened ≠ none → s.freeMapping ≠ none → answer ≠ none
  | .resize addr oldsize newsize answer => s.Grows addr oldsize newsize → answer ≠ none
  | _ => True

/-! ## The invariant -/

/-- Each record is a mapped region, and no page belongs to two. -/
structure Sound : Prop where
  aligned : ∀ i, (s.fileMappings i).size ≠ 0 → (s.fileMappings i).addr % 4096 = 0
  below : ∀ i, (s.fileMappings i).size ≠ 0 →
    (s.fileMappings i).addr + (s.fileMappings i).size ≤ userTop
  mapped : ∀ i p, s.Holds i p → s.vm p ≠ none
  apart : ∀ i j p, s.Holds i p → s.Holds j p → i = j

variable {s}

/-- A call that changes the record `i` and leaves the pages of the others mapped -/
theorem Sound.replace {s' : State} (h : s.Sound) (i : Fin maxFileMappings)
    (hother : ∀ j, j ≠ i → s'.fileMappings j = s.fileMappings j)
    (hkeep : ∀ j p, j ≠ i → s.Holds j p → s'.vm p ≠ none)
    (hplace : (s'.fileMappings i).size ≠ 0 → (s'.fileMappings i).addr % 4096 = 0 ∧
      (s'.fileMappings i).addr + (s'.fileMappings i).size ≤ userTop)
    (hmapped : ∀ p, s'.Holds i p → s'.vm p ≠ none)
    (happart : ∀ j p, j ≠ i → s.Holds j p → ¬ s'.Holds i p) : s'.Sound where
  aligned j hsize := by
    by_cases hj : j = i
    · subst hj
      exact (hplace hsize).1
    · rw [hother j hj] at hsize ⊢
      exact h.aligned j hsize
  below j hsize := by
    by_cases hj : j = i
    · subst hj
      exact (hplace hsize).2
    · rw [hother j hj] at hsize ⊢
      exact h.below j hsize
  mapped j p hp := by
    by_cases hj : j = i
    · subst hj
      exact hmapped p hp
    · unfold Holds at hp
      rw [hother j hj] at hp
      exact hkeep j p hj hp
  apart j k p hj hk := by
    have hold : ∀ j, j ≠ i → s'.Holds j p → s.Holds j p := by
      intro j hji hp
      unfold Holds at hp
      rwa [hother j hji] at hp
    by_cases hji : j = i
    · by_cases hki : k = i
      · rw [hji, hki]
      · subst hji
        exact absurd hj (happart k p hki (hold k hki hk))
    · by_cases hki : k = i
      · subst hki
        exact absurd hk (happart j p hji (hold j hji hj))
      · exact h.apart j k p (hold j hji hj) (hold k hki hk)

@[simp]
theorem set_same (s : State) (i : Fin maxFileMappings) (p : FileMapping)
    (vm : Nat → Option Backing) : (s.set i p vm).fileMappings i = p := by
  simp [set]

theorem set_other (s : State) {i j : Fin maxFileMappings} (p : FileMapping)
    (vm : Nat → Option Backing) (h : j ≠ i) :
    (s.set i p vm).fileMappings j = s.fileMappings j := by
  simp [set, h]

@[simp]
theorem set_vm (s : State) (i : Fin maxFileMappings) (p : FileMapping)
    (vm : Nat → Option Backing) : (s.set i p vm).vm = vm :=
  rfl

theorem holds_set_iff (s : State) (i : Fin maxFileMappings) (p : FileMapping)
    (vm : Nat → Option Backing) (q : Nat) :
    (s.set i p vm).Holds i q ↔ InRegion p.addr p.size q := by
  unfold Holds
  rw [set_same]

/-- A free region is in no record's way. -/
theorem Sound.spare_of_fresh (h : s.Sound) {addr size : Nat} (hfresh : Fresh s.vm addr size) :
    s.Spare addr size where
  aligned := hfresh.aligned
  below := hfresh.below
  apart i p hp hregion := h.mapped i p hp (hfresh.unmapped p hregion)

/-- A new record for a region that is in no record's way -/
theorem Sound.place (h : s.Sound) (i : Fin maxFileMappings) {p : FileMapping}
    {vm : Nat → Option Backing} (hspare : s.Spare p.addr p.size)
    (hkeep : ∀ q, s.vm q ≠ none → vm q ≠ none)
    (hmapped : ∀ q, InRegion p.addr p.size q → vm q ≠ none) :
    (s.set i p vm).Sound := by
  apply h.replace i
  · intro j hj
    exact set_other s p vm hj
  · intro j q _ hq
    exact hkeep q (h.mapped j q hq)
  · intro _
    rw [set_same]
    exact ⟨hspare.aligned, hspare.below⟩
  · intro q hq
    exact hmapped q ((holds_set_iff s i p vm q).mp hq)
  · intro j q _ hq hnew
    exact hspare.apart j q hq ((holds_set_iff s i p vm q).mp hnew)

/-- A record is given up together with its pages. -/
theorem Sound.drop (h : s.Sound) (i : Fin maxFileMappings) (fds : Nat → Bool) :
    ({ s with fds := fds }.set i { s.fileMappings i with size := 0 }
      (unmap s.vm (s.fileMappings i).addr (s.fileMappings i).size)).Sound := by
  apply h.replace i
  · intro j hj
    exact set_other _ _ _ hj
  · intro j q hj hq
    have hnot : ¬ InRegion (s.fileMappings i).addr (s.fileMappings i).size q :=
      fun hi => hj (h.apart j i q hq hi)
    rw [set_vm, unmap, if_neg hnot]
    exact h.mapped j q hq
  · intro hsize
    rw [set_same] at hsize
    exact absurd rfl hsize
  · intro q hq
    exact absurd ((holds_set_iff _ i _ _ q).mp hq) (not_inRegion_zero _ q)
  · intro j q _ _ hq
    exact not_inRegion_zero _ q ((holds_set_iff _ i _ _ q).mp hq)

end State

theorem mapAt_ne_none {vm : Nat → Option Backing} {addr size : Nat} {back : Nat → Backing}
    {p : Nat} (h : vm p ≠ none) : mapAt vm addr size back p ≠ none := by
  unfold mapAt
  split
  · exact Option.some_ne_none _
  · exact h

theorem mapAt_region {vm : Nat → Option Backing} {addr size : Nat} {back : Nat → Backing}
    {p : Nat} (h : InRegion addr size p) : mapAt vm addr size back p ≠ none := by
  unfold mapAt
  rw [if_pos h]
  exact Option.some_ne_none _

/-- The pages that both sizes have go along. -/
theorem remap_kept (vm : Nat → Option Backing) (addr oldsize newsize : Nat) (region : Region)
    {k : Nat} (hk : k < pageCount (min oldsize newsize)) :
    remap vm addr oldsize newsize region (region.addr / 4096 + k) = vm (addr / 4096 + k) := by
  have hold : k < pageCount oldsize := lt_of_lt_of_le hk (pageCount_mono (min_le_left _ _))
  have hnew : k < pageCount newsize := lt_of_lt_of_le hk (pageCount_mono (min_le_right _ _))
  unfold remap
  rw [if_pos ⟨Nat.le_add_right _ _, by omega⟩, Nat.add_sub_cancel_left]
  simp only [if_pos hold]

theorem remap_region {vm : Nat → Option Backing} {addr oldsize newsize : Nat} {region : Region}
    {p : Nat} (hold : ∀ q, InRegion addr oldsize q → vm q ≠ none)
    (h : InRegion region.addr newsize p) : remap vm addr oldsize newsize region p ≠ none := by
  unfold remap
  rw [if_pos h]
  dsimp only
  split
  · exact hold _ ⟨Nat.le_add_right _ _, by omega⟩
  · exact Option.some_ne_none _

theorem remap_other {vm : Nat → Option Backing} {addr oldsize newsize : Nat} {region : Region}
    {p : Nat} (hnew : ¬ InRegion region.addr newsize p) (hold : ¬ InRegion addr oldsize p) :
    remap vm addr oldsize newsize region p = vm p := by
  rw [remap, if_neg hnew, unmap, if_neg hold]

/-- `int size` keeps a size that the caller names rightly up to 2^40. -/
theorem intSize_le {size : Nat} (h : intSize size ≤ 2 ^ 40) : intSize size ≤ size := by
  unfold intSize at h ⊢
  split at h
  · rw [if_pos (by assumption)]
    exact Nat.mod_le _ _
  · omega

namespace State

variable {s : State}

/-- The block of the record `i` is resized, in the region `[region.addr, + newsize)`. -/
theorem Sound.resize (h : s.Sound) (i : Fin maxFileMappings) {oldsize newsize fsize : Nat}
    {fd : Option Nat} {region : Region} (hold : oldsize ≤ (s.fileMappings i).size)
    (haligned : region.addr % 4096 = 0) (hbelow : region.addr + newsize ≤ userTop)
    (hplace : ∀ p, InRegion region.addr newsize p → s.vm p = none ∨ s.Holds i p) :
    (s.set i ⟨region.addr, newsize, fsize, fd⟩
      (remap s.vm (s.fileMappings i).addr oldsize newsize region)).Sound := by
  have hsub : ∀ p, InRegion (s.fileMappings i).addr oldsize p → s.Holds i p := by
    intro p hp
    exact ⟨hp.1, lt_of_lt_of_le hp.2 (Nat.add_le_add_left (pageCount_mono hold) _)⟩
  have hapart : ∀ j p, j ≠ i → s.Holds j p → ¬ InRegion region.addr newsize p := by
    intro j p hj hp hnew
    rcases hplace p hnew with hnone | hi
    · exact h.mapped j p hp hnone
    · exact hj (h.apart j i p hp hi)
  apply h.replace i
  · intro j hj
    exact set_other s _ _ hj
  · intro j p hj hp
    have hnot : ¬ InRegion (s.fileMappings i).addr oldsize p :=
      fun hi => hj (h.apart j i p hp (hsub p hi))
    rw [set_vm, remap_other (hapart j p hj hp) hnot]
    exact h.mapped j p hp
  · intro _
    rw [set_same]
    exact ⟨haligned, hbelow⟩
  · intro p hp
    exact remap_region (fun q hq => h.mapped i q (hsub q hq)) ((holds_set_iff s i _ _ p).mp hp)
  · intro j p hj hp hnew
    exact hapart j p hj hp ((holds_set_iff s i _ _ p).mp hnew)

/-! ## One call -/

/-- A resized block keeps the pages that both sizes have, and its place when it shrinks. -/
def Kept (s s' : State) : Call → Ret → Prop
  | .resize addr oldsize newsize _, .addr a =>
    (∀ k < pageCount (min oldsize newsize), s'.vm (a / 4096 + k) = s.vm (addr / 4096 + k)) ∧
      (newsize ≤ oldsize → a = addr)
  | _, _ => True

/-- A call leaves the table sound, changes nothing when it fails, and keeps a resized block. -/
structure Survives (s : State) (c : Call) (r : Ret) (s' : State) : Prop where
  sound : s'.Sound
  failed : r = .failed → s' = s
  kept : Kept s s' c r

theorem Sound.allocTail (h : s.Sound) {fd : Option Nat} {mapsize : Nat} {target : Option Nat}
    {answer : Option Region} {r : Ret} {s' : State}
    (hspare : ∀ addr, target = some addr → s.Spare addr mapsize)
    (hreserved : fd = none → ∀ addr, target = some addr →
      ∀ p, InRegion addr mapsize p → s.vm p ≠ none)
    (hanswered : s.Answered mapsize target answer)
    (hexec : s.allocTail fd mapsize target answer = some (r, s')) :
    s'.Sound ∧ (r = .failed → s' = s ∧ answer = none ∧ s.freeMapping ≠ none) := by
  obtain ⟨i, hi, hresult⟩ := Option.map_eq_some_iff.mp hexec
  have hmap : ∀ region, answer = some region →
      (s.set i ⟨region.addr, mapsize, mapsize, fd⟩
        (mapAt s.vm region.addr mapsize region.back)).Sound := by
    intro region hregion
    have hregionSpare : s.Spare region.addr mapsize := by
      have hplace := hanswered region hregion
      cases target with
      | none => exact h.spare_of_fresh hplace
      | some addr =>
        change region.addr = addr at hplace
        rw [hplace]
        exact hspare addr rfl
    exact h.place i hregionSpare (fun _ => mapAt_ne_none) (fun _ => mapAt_region)
  split at hresult
  next addr =>
    cases hresult
    refine ⟨?_, nofun⟩
    exact h.place i (hspare addr rfl) (fun _ hq => hq) (hreserved rfl addr rfl)
  next =>
    cases answer with
    | none =>
      cases hresult
      exact ⟨h, fun _ => ⟨rfl, rfl, by rw [hi]; exact Option.some_ne_none i⟩⟩
    | some region =>
      cases hresult
      exact ⟨hmap region rfl, nofun⟩

/-- The descriptors play no part in the invariant. -/
theorem Sound.with_fds (h : s.Sound) (fds : Nat → Bool) : ({ s with fds := fds } : State).Sound :=
  ⟨h.aligned, h.below, h.mapped, h.apart⟩

theorem allocMappingFile_survives (h : s.Sound) {mapsize : Nat} {target opened : Option Nat}
    {answer : Option Region} {r : Ret} {s' : State}
    (hlegal : s.Legal (.alloc mapsize target opened answer))
    (hgood : s.Good (.alloc mapsize target opened answer))
    (hexec : s.allocMappingFile mapsize target opened answer = some (r, s')) :
    s'.Sound ∧ (r = .failed → s' = s) := by
  cases opened with
  | none =>
    cases hexec
    exact ⟨h, fun _ => rfl⟩
  | some fd =>
    obtain ⟨hsound, hfailed⟩ := (h.with_fds (Function.update s.fds fd true)).allocTail
      (fun addr htarget => ⟨(hlegal.1 addr htarget).aligned, (hlegal.1 addr htarget).below,
        (hlegal.1 addr htarget).apart⟩)
      (fun hfd => absurd hfd (Option.some_ne_none fd)) hlegal.2 hexec
    refine ⟨hsound, fun hr => ?_⟩
    obtain ⟨_, hanswer, hfree⟩ := hfailed hr
    exact absurd hanswer (hgood (Option.some_ne_none fd) hfree)

theorem resizeMappingFile_survives (h : s.Sound) {addr oldsize newsize : Nat}
    {answer : Option Region} {r : Ret} {s' : State}
    (hlegal : s.Legal (.resize addr oldsize newsize answer))
    (hgood : s.Good (.resize addr oldsize newsize answer))
    (hexec : s.resizeMappingFile addr oldsize newsize answer = some (r, s')) :
    s.Survives (.resize addr oldsize newsize answer) r s' := by
  unfold resizeMappingFile at hexec
  cases hfind : s.findFileMapping addr with
  | none =>
    rw [hfind] at hexec
    cases hexec
  | some i =>
    rw [hfind] at hexec
    dsimp only at hexec
    split_ifs at hexec with hrefused hsame hshrink
    · cases hexec
      exact ⟨h, fun _ => rfl, trivial⟩
    · cases hexec
      exact ⟨h, fun _ => rfl, fun _ _ => rfl, fun _ => rfl⟩
    · push Not at hrefused
      obtain ⟨hpos, hsize, rfl⟩ := hrefused
      have hle : oldsize ≤ (s.fileMappings i).size := by
        rw [← hsize]
        exact intSize_le (by rw [hsize]; exact hlegal.1)
      have hlive : (s.fileMappings i).size ≠ 0 := by omega
      have hbelow := h.below i hlive
      cases answer with
      | none => cases hexec
      | some region =>
        dsimp only at hexec
        split_ifs at hexec with hplace
        cases hexec
        have hsound : (s.set i ⟨region.addr, newsize, (s.fileMappings i).fsize,
            (s.fileMappings i).fd⟩ (remap s.vm (s.fileMappings i).addr oldsize newsize
              region)).Sound := h.resize i hle
          (by rw [hplace]; exact h.aligned i hlive) (by omega)
          (fun p hp => by
            rw [hplace] at hp
            exact .inr ⟨hp.1, lt_of_lt_of_le hp.2
              (Nat.add_le_add_left (pageCount_mono (by omega)) _)⟩)
        rw [hplace] at hsound
        refine ⟨hsound, nofun, fun k hk => ?_, fun _ => rfl⟩
        have hkept := remap_kept s.vm (s.fileMappings i).addr oldsize newsize region hk
        rw [hplace] at hkept
        exact hkept
    · push Not at hrefused
      obtain ⟨hpos, hsize, rfl⟩ := hrefused
      have hgrow : oldsize < newsize := by omega
      have hle : oldsize ≤ (s.fileMappings i).size := by
        rw [← hsize]
        exact intSize_le (by rw [hsize]; exact hlegal.1)
      have hlive : (s.fileMappings i).size ≠ 0 := by omega
      cases answer with
      | none => exact absurd rfl (hgood ⟨i, hfind, rfl, hsize, by omega, hgrow⟩)
      | some region =>
        cases hexec
        refine ⟨?_, nofun, ?_⟩
        · rcases hlegal.2.2 region rfl hgrow with hfresh | ⟨hplace, hbelow, hfree⟩
          · exact h.resize i hle hfresh.aligned hfresh.below
              fun p hp => .inl (hfresh.unmapped p hp)
          · apply h.resize i hle
            · rw [hplace]
              exact h.aligned i hlive
            · rw [hplace]
              exact hbelow
            · intro p hp
              rw [hplace] at hp
              by_cases hold : InRegion (s.fileMappings i).addr oldsize p
              · exact .inr ⟨hold.1, lt_of_lt_of_le hold.2
                  (Nat.add_le_add_left (pageCount_mono hle) _)⟩
              · exact .inl (hfree p hp hold)
        · exact ⟨fun k hk => remap_kept s.vm _ oldsize newsize region hk, fun hge => by omega⟩

theorem aliasMappingFile_survives (h : s.Sound) {mapsize source : Nat} {answer : Option Region}
    {r : Ret} {s' : State} (hexec : s.aliasMappingFile mapsize source answer = some (r, s')) :
    s'.Sound ∧ (r = .failed → s' = s) := by
  unfold aliasMappingFile at hexec
  cases hfind : s.findFileMapping source with
  | none =>
    rw [hfind] at hexec
    cases hexec
  | some i =>
    rw [hfind] at hexec
    dsimp only at hexec
    split_ifs at hexec with houtside
    · cases hexec
      exact ⟨h, fun _ => rfl⟩
    · obtain ⟨region, hregion, hresult⟩ := Option.map_eq_some_iff.mp hexec
      cases hresult
      refine ⟨⟨h.aligned, h.below, ?_, h.apart⟩, nofun⟩
      intro j p hp
      exact mapAt_ne_none (h.mapped j p hp)

theorem exec_survives (h : s.Sound) {c : Call} {r : Ret} {s' : State} (hlegal : s.Legal c)
    (hgood : s.Good c) (hexec : s.exec c = some (r, s')) : s.Survives c r s' := by
  cases c with
  | alloc mapsize target opened answer =>
    obtain ⟨hsound, hfailed⟩ := allocMappingFile_survives h hlegal hgood hexec
    exact ⟨hsound, hfailed, trivial⟩
  | allocSoftmmu mapsize target answer =>
    obtain ⟨hsound, hfailed⟩ := h.allocTail (fun addr ht => (hlegal.1 addr ht).1)
      (fun _ addr ht => (hlegal.1 addr ht).2) hlegal.2 hexec
    exact ⟨hsound, fun hr => (hfailed hr).1, trivial⟩
  | attach fd mapsize answer =>
    have hnone : ∀ addr, (none : Option Nat) ≠ some addr :=
      fun addr => (Option.some_ne_none addr).symm
    obtain ⟨hsound, hfailed⟩ := h.allocTail (fun addr ht => absurd ht (hnone addr))
      (fun _ addr ht => absurd ht (hnone addr))
      (show s.Answered mapsize none answer from hlegal) hexec
    exact ⟨hsound, fun hr => (hfailed hr).1, trivial⟩
  | detach target =>
    rw [exec, detachMappingFile] at hexec
    obtain ⟨i, _, hresult⟩ := Option.map_eq_some_iff.mp hexec
    cases hresult
    exact ⟨h.drop i s.fds, nofun, trivial⟩
  | free addr =>
    rw [exec, freeMappingFile] at hexec
    obtain ⟨i, _, hresult⟩ := Option.map_eq_some_iff.mp hexec
    cases hresult
    exact ⟨h.drop i _, nofun, trivial⟩
  | resize addr oldsize newsize answer =>
    exact resizeMappingFile_survives h hlegal hgood hexec
  | aliasMapping target mapsize source answer =>
    rw [exec] at hexec
    obtain ⟨hsound, hfailed⟩ := aliasMappingFile_survives h hexec
    exact ⟨hsound, hfailed, trivial⟩

/-! ## Runs -/

/-- Sound, and so is what any call with `ok` makes of it -/
def Safe (ok : State → Call → Prop) (s : State) : Prop :=
  s.Sound ∧ ∀ c r s', ok s c → s.exec c = some (r, s') → s.Survives c r s'

/-- No records; nothing is mapped and nothing open that the driver knows of. -/
def start : State where
  fileMappings _ := ⟨0, 0, 0, none⟩
  vm _ := none
  fds _ := false

theorem start_sound : start.Sound where
  aligned _ h := absurd rfl h
  below _ h := absurd rfl h
  mapped _ p h := absurd h (not_inRegion_zero 0 p)
  apart _ _ p h := absurd h (not_inRegion_zero 0 p)

end State

open State

/-- In every run in which no growing `mremap` and no `mmap` of a file just opened fails, the
table survives every call. -/
theorem table_survives {calls : List Call} {s : State}
    (hok : Run.Admits step (fun s c => s.Legal c ∧ s.Good c) start calls)
    (hrun : Run.run step start calls = some s) : s.Safe fun s c => s.Legal c ∧ s.Good c := by
  have hsound : s.Sound := by
    apply Run.run_invariant (fun s c => s.Legal c ∧ s.Good c) Sound _ start_sound hok hrun
    intro s c t hs hc hstep
    obtain ⟨⟨r, s'⟩, hexec, rfl⟩ := Option.map_eq_some_iff.mp hstep
    exact (exec_survives hs hc.1 hc.2 hexec).sound
  exact ⟨hsound, fun c r s' hc hexec => exec_survives hsound hc.1 hc.2 hexec⟩

/-- The first record of the table -/
def first : Fin maxFileMappings :=
  ⟨0, by decide⟩

/-- It is taken for the addresses that it covers. -/
theorem State.findFileMapping_first {s : State} {target : Nat}
    (h : (s.fileMappings first).covers target = true) :
    s.findFileMapping target = some first := by
  unfold findFileMapping maxFileMappings
  rw [List.finRange_succ]
  exact List.find?_cons_of_pos h

theorem State.freeMapping_first {s : State} (h : (s.fileMappings first).size = 0) :
    s.freeMapping = some first := by
  unfold freeMapping maxFileMappings
  rw [List.finRange_succ]
  exact List.find?_cons_of_pos (decide_eq_true h)

/-- One page at 10000h from a file on descriptor 5 -/
def onePage : Call :=
  .alloc 0x1000 none (some 5) (some ⟨0x10000, fun k => ⟨1, k⟩⟩)

def block : State :=
  { start with fds := Function.update start.fds 5 true }.set first
    ⟨0x10000, 0x1000, 0x1000, some 5⟩ (mapAt start.vm 0x10000 0x1000 fun k => ⟨1, k⟩)

theorem onePage_legal : start.Legal onePage := by
  refine ⟨fun addr h => absurd h.symm (Option.some_ne_none addr), ?_⟩
  intro region hregion
  cases hregion
  exact ⟨by decide, by decide, fun p _ => rfl⟩

theorem onePage_step : step start onePage = some block := by
  have hexec : start.exec onePage = some (.addr 0x10000, block) := by
    rw [onePage, State.exec, State.allocMappingFile]
    rw [State.allocTail, State.freeMapping_first rfl, Option.map_some]
    rfl
  rw [step, hexec]
  rfl

theorem block_record : block.fileMappings first = ⟨0x10000, 0x1000, 0x1000, some 5⟩ :=
  State.set_same _ _ _ _

theorem block_finds : block.findFileMapping 0x10000 = some first := by
  apply State.findFileMapping_first
  rw [block_record]
  decide

/-- What a growing `mremap` leaves behind -/
theorem State.resizeMappingFile_grows {s : State} {i : Fin maxFileMappings}
    {addr oldsize newsize : Nat} (answer : Option Region) (hfind : s.findFileMapping addr = some i)
    (haddr : addr = (s.fileMappings i).addr) (hsize : intSize (s.fileMappings i).size = oldsize)
    (hpos : oldsize ≠ 0) (hlt : oldsize < newsize) :
    s.resizeMappingFile addr oldsize newsize answer = some (match answer with
      | none => (.failed, s.set i ⟨mapFailed, newsize, grownFsize (s.fileMappings i) newsize,
          (s.fileMappings i).fd⟩ s.vm)
      | some region => (.addr region.addr, s.set i ⟨region.addr, newsize,
          grownFsize (s.fileMappings i) newsize, (s.fileMappings i).fd⟩
            (remap s.vm addr oldsize newsize region))) := by
  have hrefused : ¬ (oldsize = 0 ∨ oldsize ≠ oldsize ∨ addr ≠ (s.fileMappings i).addr) := by
    simp [hpos, haddr]
  have hsame : ¬ oldsize = newsize := by omega
  have hshrink : ¬ newsize < oldsize := by omega
  unfold resizeMappingFile
  simp only [hfind, hsize, if_neg hrefused, if_neg hsame, if_neg hshrink]
  cases answer <;> rfl

/-- The block grows by a page and moves to 20000h. -/
def growth : Call :=
  .resize 0x10000 0x1000 0x2000 (some ⟨0x20000, fun k => ⟨1, k⟩⟩)

def moved : State :=
  block.set first ⟨0x20000, 0x2000, 0x2000, some 5⟩
    (remap block.vm 0x10000 0x1000 0x2000 ⟨0x20000, fun k => ⟨1, k⟩⟩)

theorem growth_legal : block.Legal growth := by
  refine ⟨by decide, by decide, ?_⟩
  intro region hregion _
  cases hregion
  refine .inl ⟨by decide, by decide, fun p hp => if_neg fun hold => ?_⟩
  exact absurd (hp.1.trans_lt hold.2) (by decide)

theorem growth_step : step block growth = some moved := by
  have hgrows := State.resizeMappingFile_grows (some ⟨0x20000, fun k => ⟨1, k⟩⟩) block_finds
    (by rw [block_record]) (show _ = 0x1000 by rw [block_record]; decide) (by decide)
    (show 0x1000 < 0x2000 by decide)
  rw [block_record] at hgrows
  exact congrArg (Option.map Prod.snd) hgrows

theorem moved_record : moved.fileMappings first = ⟨0x20000, 0x2000, 0x2000, some 5⟩ :=
  State.set_same _ _ _ _

/-- The first record once its block is freed -/
theorem free_step : ∃ s, step moved (.free 0x20000) = some s ∧
    s.fileMappings first = ⟨0x20000, 0, 0x2000, some 5⟩ := by
  have hfind : moved.findFileMapping 0x20000 = some first := by
    apply State.findFileMapping_first
    rw [moved_record]
    decide
  rw [step, State.exec, State.freeMappingFile, hfind]
  refine ⟨_, rfl, ?_⟩
  simp only [moved_record]
  exact State.set_same _ _ _ _

/-- The block is made, another file cannot be opened, the block grows and is freed. -/
theorem table_survives_onePage : ∃ s,
    Run.run step start [onePage, .alloc 0x1000 none none none, growth, .free 0x20000] = some s ∧
      s.fileMappings first = ⟨0x20000, 0, 0x2000, some 5⟩ ∧
        s.Safe fun s c => s.Legal c ∧ s.Good c := by
  obtain ⟨s, hfree, hrecord⟩ := free_step
  have hrefused : step block (.alloc 0x1000 none none none) = some block := rfl
  have hrun : Run.run step start [onePage, .alloc 0x1000 none none none, growth, .free 0x20000] =
      some s :=
    Run.run_cons_eq_some.mpr ⟨block, onePage_step, Run.run_cons_eq_some.mpr ⟨block, hrefused,
      Run.run_cons_eq_some.mpr ⟨moved, growth_step, Run.run_cons_eq_some.mpr ⟨s, hfree, rfl⟩⟩⟩⟩
  refine ⟨s, hrun, hrecord, table_survives ?_ hrun⟩
  refine ⟨⟨onePage_legal, fun _ _ => Option.some_ne_none _⟩, fun t ht => ?_⟩
  obtain rfl := Option.some.inj (onePage_step.symm.trans ht)
  refine ⟨⟨⟨nofun, nofun⟩, fun h => absurd rfl h⟩, fun t ht => ?_⟩
  obtain rfl := Option.some.inj ht
  refine ⟨⟨growth_legal, fun _ => Option.some_ne_none _⟩, fun t ht => ?_⟩
  exact ⟨⟨trivial, trivial⟩, fun _ _ => trivial⟩

/-- Growing the block to two pages without room: the record names two pages at -1. -/
theorem failed_growth_loses_block :
    ¬ ∀ (calls : List Call) (s : State), Run.Admits step State.Legal start calls →
      Run.run step start calls = some s → s.Safe State.Legal := by
  intro h
  have hsafe := h [onePage] block ⟨onePage_legal, fun _ _ => trivial⟩
    (Run.run_cons_eq_some.mpr ⟨block, onePage_step, rfl⟩)
  have hlegal : block.Legal (.resize 0x10000 0x1000 0x2000 none) := by
    refine ⟨by decide, by decide, ?_⟩
    intro region hregion
    exact absurd hregion.symm (Option.some_ne_none region)
  have hexec := State.resizeMappingFile_grows none block_finds (by rw [block_record])
    (show _ = 0x1000 by rw [block_record]; decide) (by decide) (show 0x1000 < 0x2000 by decide)
  have hsame := (hsafe.2 (.resize 0x10000 0x1000 0x2000 none) _ _ hlegal hexec).failed rfl
  have haddr := congrArg (fun s : State => (s.fileMappings first).addr) hsame
  simp only [State.set_same, block_record] at haddr
  exact absurd haddr (by decide)

end MapFile
end Mapping
end Dosemu
