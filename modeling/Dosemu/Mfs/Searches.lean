import Mathlib.Data.List.DropRight
import Dosemu.Lib.MachineInt
import Dosemu.Lib.Run

/-!
# Directory searches

FIND_FIRST takes the listing of a directory and pushes it into the first free
slot of a table; the search data block of the guest keeps the index of the slot
and the position of the next entry, both in 16 bits.  A slot is freed with the
last entry, when its PSP terminates, or by the watch, which lets go the listing
of a PSP with more than 64 slots that was not touched for the longest time.

The book keeps, beside the table, which search each block stands for: the
listing it was filled from and the entries not looked at yet.

Main results:

- Theorem `step_inv`: a search that has entries left owns the slot its block
  names.
- Theorem `searches_isolated`: in a run, every FIND_NEXT returns the next entry
  of its own search, or no more files.
-/

namespace Dosemu
namespace Mfs
namespace Searches

open MachineInt

/-! ## Listings and search data blocks -/

/-- What `fill_entry` finds out about a path of the host. -/
structure Stat where
  mode : BitVec 16
  size : Nat
  time : Int
  attr : BitVec 8

/-- The host during one call: its files, and the clock conversion of `time_to_dos`. -/
structure Host where
  stat : List Char → Stat
  timeToDos : Int → Nat × Nat

/-- `struct dir_ent` -/
structure DirEnt where
  name : List Char
  ext : List Char
  dName : List Char
  mode : BitVec 16
  longPath : Bool
  size : Nat
  time : Int
  attr : BitVec 8

/-- The fields of a search data block that the search reads and writes. -/
structure Sdb where
  attr : BitVec 8
  dirEntry : Nat
  pCluster : Nat
  fileName : List Char
  fileExt : List Char
  fileAttr : BitVec 8
  fileTime : Nat
  fileDate : Nat
  fileSize : Nat

/-- `VOLUME_LABEL` -/
def volumeLabel : BitVec 8 := 0x08

/-- `DIRECTORY` -/
def directory : BitVec 8 := 0x10

/-- `mode & S_IFDIR` -/
def DirEnt.IsDir (de : DirEnt) : Prop :=
  de.mode &&& 0x4000#16 ≠ 0

instance (de : DirEnt) : Decidable de.IsDir :=
  inferInstanceAs (Decidable (_ ≠ _))

/-- `fill_entry` -/
def fillEntry (host : Host) (fpath : List Char) (de : DirEnt) : DirEnt :=
  let st := host.stat (fpath ++ de.dName)
  { de with mode := st.mode, size := st.size, time := st.time, attr := st.attr }

/-- `set_long_path_on_dirs` -/
def setLongPathOnDirs (l : List DirEnt) : List DirEnt :=
  l.map fun de => if de.mode &&& 0xF000#16 = 0x4000#16 then { de with longPath := true } else de

/-- `set_32bit_size_or_position` -/
def set32bitSize (fullvalue : Nat) : Nat :=
  if fullvalue < 0x100000000 then fullvalue else 0xFFFFFFFF

/-- A directory in a directory with a long path is shown as an empty file. -/
def DirEnt.Masked (de : DirEnt) : Prop :=
  de.IsDir ∧ de.longPath = true ∧ de.name ≠ '.' :: List.replicate 7 ' ' ∧
    de.name ≠ '.' :: '.' :: List.replicate 6 ' '

instance (de : DirEnt) : Decidable de.Masked :=
  inferInstanceAs (Decidable (_ ∧ _))

/-- The block with the fields of the entry that is returned. -/
def Sdb.report (sdb : Sdb) (host : Host) (de : DirEnt) : Sdb :=
  let (date, time) := host.timeToDos de.time
  { sdb with
    fileAttr := if de.Masked then de.attr &&& ~~~directory else de.attr
    fileDate := date
    fileTime := time
    fileSize := set32bitSize (if de.Masked then 0 else de.size)
    fileName := de.name
    fileExt := de.ext }

/-- An entry that the search is not for: a directory where none was asked for. -/
def Hidden (attr : BitVec 8) (de : DirEnt) : Prop :=
  de.IsDir ∧ attr &&& directory = 0

instance (attr : BitVec 8) (de : DirEnt) : Decidable (Hidden attr de) :=
  inferInstanceAs (Decidable (_ ∧ _))

/-- The loop of `find_again`: whether an entry was returned.  Without fuel the loop goes round and
round, since the position has 16 bits and the host answers the same again. -/
def findAgainLoop (host : Host) (fpath : List Char) (de : List DirEnt) :
    Nat → Sdb → Option (Bool × Sdb)
  | 0, _ => none
  | fuel + 1, sdb =>
      match de[sdb.dirEntry]? with
      | none => some (false, sdb)
      | some e =>
          let e := fillEntry host fpath e
          let sdb := { sdb with dirEntry := (sdb.dirEntry + 1) % 2 ^ 16, fileAttr := e.attr }
          if Hidden sdb.attr e then findAgainLoop host fpath de fuel sdb
          else some (true, sdb.report host e)

/-! ## The table -/

/-- `struct stack_entry`; a listing is named by its number. -/
structure StackEntry where
  hlist : Option Nat
  psp : Nat
  seq : Int
  fpath : List Char

/-- `HLIST_STACK_SIZE` -/
def hlistStackSize : Nat := 256

/-- `HLIST_WATCH_CNT` -/
def hlistWatchCnt : Nat := 64

/-- `free_list` -/
def StackEntry.freeList (se : StackEntry) : StackEntry :=
  { se with hlist := none, fpath := [] }

/-- The top goes down to the last listing. -/
def shrink (stack : List StackEntry) : List StackEntry :=
  stack.rdropWhile fun se => se.hlist.isNone

/-- `hlist_push`: the index and the table up to its top.  The sequence number of a slot is set
next. -/
def hlistPush (stack : List StackEntry) (hlist psp : Nat) (fpath : List Char) :
    Option (Nat × List StackEntry) :=
  match stack.findIdx? fun se => se.hlist.isNone with
  | some k =>
      some (k, stack.modify k fun se => { se with hlist := some hlist, psp := psp, fpath := fpath })
  | none =>
      if hlistStackSize ≤ stack.length then none
      else some (stack.length, stack ++ [⟨some hlist, psp, 0, fpath⟩])

/-- `hlist_pop` -/
def hlistPop (stack : List StackEntry) (indx psp : Nat) : List StackEntry :=
  match stack[indx]? with
  | none => stack
  | some se => if se.psp ≠ psp then stack else shrink (stack.modify indx StackEntry.freeList)

/-- `hlist_pop_psp`; the top stays where no listing is left. -/
def hlistPopPsp (stack : List StackEntry) (psp : Nat) : List StackEntry :=
  let stack := stack.map fun se =>
    if se.psp = psp ∧ se.hlist.isSome = true then se.freeList else se
  if stack.all fun se => se.hlist.isNone then stack else shrink stack

/-- The second loop of `hlist_watch_pop`: the slot of the PSP that was not touched for the longest
time, unless one was let go already. -/
def watchVictim (psp : Nat) (watch : Bool) : Nat → Int → Option Nat → List StackEntry → Option Nat
  | _, _, seDel, [] => seDel
  | k, actSeq, seDel, se :: rest =>
      if se.psp ≠ psp then watchVictim psp watch (k + 1) actSeq seDel rest
      else if se.seq < 0 then none
      else if watch = true ∧ 0 < se.seq ∧ se.seq < actSeq then
        watchVictim psp watch (k + 1) se.seq (some k) rest
      else watchVictim psp watch (k + 1) actSeq seDel rest

/-- How many slots below the top are marked with a PSP. -/
def slotsOf (stack : List StackEntry) (psp : Nat) : Nat :=
  stack.countP fun se => se.psp = psp

/-- The slot that `hlist_watch_pop` lets go. -/
def watched (stack : List StackEntry) (seq : Int) (psp : Nat) : Option Nat :=
  watchVictim psp (hlistWatchCnt < slotsOf stack psp) 0 seq none stack

/-- `hlist_watch_pop` -/
def hlistWatchPop (stack : List StackEntry) (seq : Int) (psp : Nat) : List StackEntry :=
  match watched stack seq psp with
  | none => shrink stack
  | some k => shrink (stack.modify k fun se => { se.freeList with seq := -1 })

/-! ## The calls -/

/-- The table with its sequence number, the listings that were made, and the search data blocks in
the memory of the guest. -/
structure State where
  stack : List StackEntry
  seq : Int
  lists : Nat → List DirEnt
  made : Nat
  sdb : Nat → Sdb

/-- A FIND_FIRST: the block, the PSP, the attributes and the name to look for, the label of the
volume, and what the host knows of the path. -/
structure FirstCall where
  block : Nat
  psp : Nat
  attr : BitVec 8
  fname : List Char
  fext : List Char
  label : List Char × List Char
  found : Bool
  fpath : List Char
  longPath : Bool
  listing : Option (List DirEnt)
  host : Host

/-- How a call ends. -/
inductive Answer where
  | found
  | pathNotFound
  | noMoreFiles
  deriving DecidableEq

def State.setSdb (s : State) (b : Nat) (sdb : Sdb) : State :=
  { s with sdb := Function.update s.sdb b sdb }

/-- `find_again` on the listing in the slot that the block names. -/
def findAgain (s : State) (b psp : Nat) (host : Host) (fpath : List Char) (hlist : Nat) :
    Option (Answer × State) :=
  let hlistIndex := (s.sdb b).pCluster
  match findAgainLoop host fpath (s.lists hlist) (2 ^ 16 + 1) (s.sdb b) with
  | none => none
  | some (false, sdb) => some (.noMoreFiles, s.setSdb b sdb)
  | some (true, sdb) =>
      let s := s.setSdb b sdb
      if (s.lists hlist).length ≤ sdb.dirEntry then
        some (.found, { s with stack := hlistPop s.stack hlistIndex psp })
      else some (.found, s)

/-- The call asks for the label of the volume. -/
def FirstCall.AsksLabel (c : FirstCall) : Prop :=
  c.attr &&& (volumeLabel ||| directory) = volumeLabel ∧ c.fname = List.replicate 8 '?' ∧
    c.fext = List.replicate 3 '?'

instance (c : FirstCall) : Decidable c.AsksLabel :=
  inferInstanceAs (Decidable (_ ∧ _))

/-- FIND_FIRST up to `find_again`: the call is over, or the listing is in its slot. -/
def openSearch (s : State) (c : FirstCall) : (Answer × State) ⊕ (Nat × State) :=
  let s := { s with stack := hlistWatchPop s.stack s.seq c.psp }
  let sdb := { s.sdb c.block with attr := c.attr, pCluster := 0xffff }
  let s := s.setSdb c.block sdb
  if c.AsksLabel then
    .inl (.found, s.setSdb c.block { sdb with
      fileName := c.label.1, fileExt := c.label.2, fileAttr := volumeLabel, dirEntry := 0 })
  else if !c.found then .inl (.pathNotFound, s)
  else
    match c.listing with
    | none => .inl (.noMoreFiles, s)
    | some l =>
        let l := if c.longPath then setLongPathOnDirs l else l
        let s := { s with lists := Function.update s.lists s.made l, made := s.made + 1 }
        match hlistPush s.stack (s.made - 1) c.psp c.fpath with
        | none => .inl (.noMoreFiles, s)
        | some (k, stack) =>
            let s := s.setSdb c.block { sdb with dirEntry := 0, pCluster := k }
            .inr (s.made - 1, { s with
              stack := stack.modify k fun se => { se with seq := swrap 32 (s.seq + 1) }
              seq := swrap 32 (s.seq + 1) })

/-- `FIND_FIRST` -/
def findFirst (s : State) (c : FirstCall) : Option (Answer × State) :=
  match openSearch s c with
  | .inl done => some done
  | .inr (hlist, s) => findAgain s c.block c.psp c.host c.fpath hlist

/-- A FIND_NEXT refreshes the sequence number of its slot. -/
def State.refresh (s : State) (k : Nat) (se : StackEntry) : State :=
  if 0 < se.seq then
    { s with stack := s.stack.modify k fun se => { se with seq := s.seq } }
  else s

/-- `FIND_NEXT` -/
def findNext (s : State) (b psp : Nat) (host : Host) : Option (Answer × State) :=
  let hlistIndex := (s.sdb b).pCluster
  match s.stack[hlistIndex]? with
  | none => some (.noMoreFiles, s)
  | some se =>
      let s := s.refresh hlistIndex se
      match se.hlist with
      | none => some (.noMoreFiles, s)
      | some hlist => findAgain s b psp host se.fpath hlist

/-- `PROCESS_TERMINATED` -/
def processTerminated (s : State) (psp : Nat) : State :=
  { s with stack := hlistPopPsp s.stack psp }

/-! ## The book of searches -/

/-- What a block stands for: a listing, and the entries of it that were not looked at yet. -/
structure Search where
  listing : Nat
  fpath : List Char
  rest : List DirEnt

/-- The search of each block, if it has one, and the PSP that each listing was made for. -/
structure Book where
  search : Nat → Option Search
  maker : Nat → Nat

/-- The first entry that is not hidden, as the host has it now, and the entries behind it. -/
def nextEntry (host : Host) (attr : BitVec 8) (fpath : List Char) :
    List DirEnt → Option (DirEnt × List DirEnt)
  | [] => none
  | e :: rest =>
      if Hidden attr (fillEntry host fpath e) then nextEntry host attr fpath rest
      else some (fillEntry host fpath e, rest)

/-- Look for the next entry of a search. -/
def Search.next (σ : Search) (host : Host) (attr : BitVec 8) : Option (DirEnt × List DirEnt) :=
  nextEntry host attr σ.fpath σ.rest

/-- The search behind the entry that was returned. -/
def Search.advance (σ : Search) (host : Host) (attr : BitVec 8) : Search :=
  { σ with rest := ((σ.next host attr).map Prod.snd).getD [] }

/-- The searches of some listings come to an end. -/
def Book.cancel (B : Book) (p : Nat → Prop) [DecidablePred p] : Book :=
  { B with search := fun b => (B.search b).filter fun σ => ¬p σ.listing }

def Book.setSearch (B : Book) (b : Nat) (σ : Option Search) : Book :=
  { B with search := Function.update B.search b σ }

/-- The listing in a slot of the table. -/
def listingAt (stack : List StackEntry) (k : Nat) : Option Nat :=
  stack[k]?.bind StackEntry.hlist

/-- The listing that the watch lets go before a FIND_FIRST. -/
def State.watchedListing (s : State) (psp : Nat) : Option Nat :=
  (watched s.stack s.seq psp).bind (listingAt s.stack)

/-- The program beside its book. -/
structure World where
  state : State
  book : Book

/-- A call of DOS. -/
inductive Event where
  | findFirst (c : FirstCall)
  | findNext (b psp : Nat) (host : Host)
  | processTerminated (psp : Nat)

/-- The book after a call.  Whether the watch ends searches is up to the reading: `watch` says that
it does. -/
def World.bookAfter (watch : Bool) (w : World) : Event → Book
  | .findFirst c =>
      let B := if watch then w.book.cancel (some · = w.state.watchedListing c.psp) else w.book
      match openSearch w.state c with
      | .inl _ => B.setSearch c.block none
      | .inr (p, s) =>
          let σ : Search := ⟨p, c.fpath, s.lists p⟩
          { B.setSearch c.block (some (σ.advance c.host c.attr)) with
            maker := Function.update B.maker p c.psp }
  | .findNext b _ host =>
      match w.book.search b with
      | none => w.book
      | some σ => w.book.setSearch b (some (σ.advance host (w.state.sdb b).attr))
  | .processTerminated psp => w.book.cancel fun p => w.book.maker p = psp

/-- The state after a call. -/
def State.after (s : State) : Event → Option State
  | .findFirst c => (findFirst s c).map Prod.snd
  | .findNext b psp host => (findNext s b psp host).map Prod.snd
  | .processTerminated psp => some (processTerminated s psp)

/-- The world after a call; the run ends with a call that does not return. -/
def step (watch : Bool) (w : World) (e : Event) : Option World :=
  (w.state.after e).map fun s => ⟨s, w.bookAfter watch e⟩

/-- The answer that a search owes: its next entry, or that there are no more. -/
def Answers (σ : Option Search) (host : Host) (attr : BitVec 8) (a : Answer) (sdb : Sdb) : Prop :=
  match σ.bind fun σ => σ.next host attr with
  | none => a = .noMoreFiles
  | some (e, _) => a = .found ∧ sdb.report host e = sdb

/-- What a call promises.  FIND_NEXT, and a FIND_FIRST that got a slot, return the next entry of
their search; the watch lets go a listing of the calling PSP only, and only where that has more than
64 slots; a PSP that terminates takes its own listings along. -/
def Contract (w : World) : Event → Prop
  | .findFirst c =>
      (∀ p, w.state.watchedListing c.psp = some p →
        w.book.maker p = c.psp ∧ hlistWatchCnt < slotsOf w.state.stack c.psp) ∧
      ∃ a s, findFirst w.state c = some (a, s) ∧
        ∀ p t, openSearch w.state c = .inr (p, t) →
          Answers (some ⟨p, c.fpath, t.lists p⟩) c.host c.attr a (s.sdb c.block)
  | .findNext b psp host =>
      ∃ a s, findNext w.state b psp host = some (a, s) ∧
        Answers (w.book.search b) host (w.state.sdb b).attr a (s.sdb b)
  | .processTerminated psp =>
      ∀ k p, listingAt w.state.stack k = some p →
        listingAt (hlistPopPsp w.state.stack psp) k = some p ∨ w.book.maker p = psp

/-- A call that leaves the slips out: no listing has more entries than a position can count, and a
block whose slot has gone to another search is not asked for an entry of that. -/
def Careful (w : World) : Event → Prop
  | .findFirst c => ∀ l, c.listing = some l → l.length < 2 ^ 16
  | .findNext b _ host =>
      let sdb := w.state.sdb b
      ∀ se p, w.state.stack[sdb.pCluster]? = some se → se.hlist = some p →
        (∃ σ, w.book.search b = some σ ∧ σ.listing = p) ∨
          nextEntry host sdb.attr se.fpath ((w.state.lists p).drop sdb.dirEntry) = none
  | .processTerminated _ => True

/-- No search was started yet; the blocks hold anything. -/
def World.Start (w : World) : Prop :=
  w.state.stack = [] ∧ w.state.made = 0 ∧ ∀ b, w.book.search b = none

/-! ## The loop of `find_again` -/

variable {host : Host} {fpath : List Char} {de : List DirEnt}

theorem drop_eq_cons {i : Nat} {e : DirEnt} (h : de[i]? = some e) :
    de.drop i = e :: de.drop (i + 1) := by
  obtain ⟨hlt, rfl⟩ := List.getElem?_eq_some_iff.mp h
  exact List.drop_eq_getElem_cons hlt

/-- Where no entry is left to show, the loop ends behind the last one. -/
theorem findAgainLoop_none (hshort : de.length < 2 ^ 16) {fuel : Nat} {sdb : Sdb}
    (hfuel : de.length - sdb.dirEntry < fuel)
    (hnext : nextEntry host sdb.attr fpath (de.drop sdb.dirEntry) = none) :
    ∃ sdb', findAgainLoop host fpath de fuel sdb = some (false, sdb') ∧
      sdb'.attr = sdb.attr ∧ sdb'.pCluster = sdb.pCluster ∧
      sdb.dirEntry ≤ sdb'.dirEntry ∧ de.length ≤ sdb'.dirEntry := by
  induction fuel generalizing sdb with
  | zero => omega
  | succ fuel ih =>
      unfold findAgainLoop
      cases hget : de[sdb.dirEntry]? with
      | none => exact ⟨sdb, rfl, rfl, rfl, le_rfl, List.getElem?_eq_none_iff.mp hget⟩
      | some e =>
          have hlt := (List.getElem?_eq_some_iff.mp hget).1
          have hmod : (sdb.dirEntry + 1) % 2 ^ 16 = sdb.dirEntry + 1 := Nat.mod_eq_of_lt (by omega)
          rw [drop_eq_cons hget] at hnext
          unfold nextEntry at hnext
          split at hnext
          · next hhidden =>
              dsimp only
              rw [if_pos hhidden, hmod]
              obtain ⟨sdb', hloop, hattr, hcluster, hle, hlen⟩ := @ih
                { sdb with dirEntry := sdb.dirEntry + 1, fileAttr := (fillEntry host fpath e).attr }
                (by dsimp only; omega) hnext
              exact ⟨sdb', hloop, hattr, hcluster, (Nat.le_succ _).trans hle, hlen⟩
          · cases hnext

/-- Where an entry is left to show, the loop ends behind that one. -/
theorem findAgainLoop_some (hshort : de.length < 2 ^ 16) {fuel : Nat} {sdb : Sdb} {e : DirEnt}
    {rest : List DirEnt} (hfuel : de.length - sdb.dirEntry < fuel)
    (hnext : nextEntry host sdb.attr fpath (de.drop sdb.dirEntry) = some (e, rest)) :
    ∃ sdb', findAgainLoop host fpath de fuel sdb = some (true, sdb') ∧
      sdb'.attr = sdb.attr ∧ sdb'.pCluster = sdb.pCluster ∧
      sdb'.report host e = sdb' ∧ de.drop sdb'.dirEntry = rest := by
  induction fuel generalizing sdb with
  | zero => omega
  | succ fuel ih =>
      unfold findAgainLoop
      cases hget : de[sdb.dirEntry]? with
      | none =>
          rw [List.drop_of_length_le (List.getElem?_eq_none_iff.mp hget)] at hnext
          cases hnext
      | some e =>
          have hlt := (List.getElem?_eq_some_iff.mp hget).1
          have hmod : (sdb.dirEntry + 1) % 2 ^ 16 = sdb.dirEntry + 1 := Nat.mod_eq_of_lt (by omega)
          rw [drop_eq_cons hget] at hnext
          unfold nextEntry at hnext
          dsimp only
          split at hnext
          · next hhidden =>
              rw [if_pos hhidden, hmod]
              exact @ih
                { sdb with dirEntry := sdb.dirEntry + 1, fileAttr := (fillEntry host fpath e).attr }
                (by dsimp only; omega) hnext
          · next hshown =>
              obtain ⟨rfl, rfl⟩ := Prod.mk.inj (Option.some.inj hnext)
              rw [if_neg hshown, hmod]
              exact ⟨_, rfl, rfl, rfl, rfl, rfl⟩

/-! ## What is in the slots -/

/-- A listing in a slot, with the PSP and the path of the slot. -/
structure Occupant where
  listing : Nat
  psp : Nat
  fpath : List Char

def StackEntry.occupant (se : StackEntry) : Option Occupant :=
  se.hlist.map fun p => ⟨p, se.psp, se.fpath⟩

/-- What is in a slot of the table. -/
def occupant (stack : List StackEntry) (k : Nat) : Option Occupant :=
  stack[k]?.bind StackEntry.occupant

variable {stack : List StackEntry}

theorem listingAt_eq (stack : List StackEntry) (k : Nat) :
    listingAt stack k = (occupant stack k).map Occupant.listing := by
  unfold listingAt occupant
  cases stack[k]? with
  | none => rfl
  | some se =>
      cases h : se.hlist with
      | none => simp [StackEntry.occupant, h]
      | some p => simp [StackEntry.occupant, h]

/-- Slots without a listing can be cut off the top. -/
theorem occupant_shrink (stack : List StackEntry) (k : Nat) :
    occupant (shrink stack) k = occupant stack k := by
  have hsplit : shrink stack ++ stack.rtakeWhile _ = stack := List.rdropWhile_append_rtakeWhile
  unfold occupant
  conv_rhs => rw [← hsplit]
  by_cases hk : k < (shrink stack).length
  · rw [List.getElem?_append_left hk]
  · rw [List.getElem?_append_right (Nat.not_lt.mp hk), List.getElem?_eq_none (Nat.not_lt.mp hk)]
    cases hget : (stack.rtakeWhile fun se => se.hlist.isNone)[k - (shrink stack).length]? with
    | none => rfl
    | some se =>
        have hnone := List.mem_rtakeWhile_imp (List.mem_of_getElem? hget)
        simp [StackEntry.occupant, Option.isNone_iff_eq_none.mp hnone]

/-- Changing an entry changes what is in its slot. -/
theorem occupant_modify (stack : List StackEntry) (j : Nat) (f : StackEntry → StackEntry)
    (k : Nat) : occupant (stack.modify j f) k =
      if j = k then stack[k]?.bind (StackEntry.occupant ∘ f) else occupant stack k := by
  unfold occupant
  rw [List.getElem?_modify]
  by_cases h : j = k
  · rw [if_pos h]
    cases stack[k]? <;> simp [h]
  · rw [if_neg h]
    cases stack[k]? <;> simp [h]

/-- A new sequence number leaves everything in its slot. -/
theorem occupant_stamp (stack : List StackEntry) (j : Nat) (seq : Int) (k : Nat) :
    occupant (stack.modify j fun se => { se with seq := seq }) k = occupant stack k := by
  rw [occupant_modify]
  exact ite_id _

/-- A freed slot is empty. -/
theorem occupant_free (stack : List StackEntry) (j k : Nat) (seq : StackEntry → Int) :
    occupant (stack.modify j fun se => { se.freeList with seq := seq se }) k =
      if j = k then none else occupant stack k := by
  rw [occupant_modify]
  refine if_congr Iff.rfl ?_ rfl
  cases stack[k]? <;> rfl

/-- `hlist_pop` empties its slot at most. -/
theorem occupant_hlistPop (stack : List StackEntry) (indx psp : Nat) {k : Nat} (h : k ≠ indx) :
    occupant (hlistPop stack indx psp) k = occupant stack k := by
  unfold hlistPop
  split
  · rfl
  · split
    · rfl
    · rw [occupant_shrink, occupant_modify, if_neg h.symm]

/-- `hlist_pop` brings nothing into a slot. -/
theorem occupant_of_hlistPop {indx psp k : Nat} {o : Occupant}
    (h : occupant (hlistPop stack indx psp) k = some o) : occupant stack k = some o := by
  unfold hlistPop at h
  split at h
  · exact h
  · split at h
    · exact h
    · rw [occupant_shrink, occupant_modify] at h
      split at h
      · cases hk : stack[k]? with
        | none => rw [hk] at h; cases h
        | some se => rw [hk] at h; cases h
      · exact h

/-- `hlist_pop_psp` keeps what belongs to other PSPs. -/
theorem occupant_hlistPopPsp (stack : List StackEntry) (psp k : Nat) :
    occupant (hlistPopPsp stack psp) k = (occupant stack k).filter fun o => o.psp ≠ psp := by
  have hmap : occupant (stack.map fun se =>
      if se.psp = psp ∧ se.hlist.isSome = true then se.freeList else se) k =
      (occupant stack k).filter fun o => o.psp ≠ psp := by
    unfold occupant
    rw [List.getElem?_map]
    cases stack[k]? with
    | none => rfl
    | some se =>
        cases hlist : se.hlist with
        | none => simp [StackEntry.occupant, hlist]
        | some p =>
            by_cases hpsp : se.psp = psp
            · simp [StackEntry.occupant, StackEntry.freeList, Option.filter, hlist, hpsp]
            · simp [StackEntry.occupant, Option.filter, hlist, hpsp]
  rw [← hmap]
  unfold hlistPopPsp
  dsimp only
  split
  · rfl
  · exact occupant_shrink _ k

/-- `hlist_watch_pop` empties the slot of its victim. -/
theorem occupant_hlistWatchPop (stack : List StackEntry) (seq : Int) (psp k : Nat) :
    occupant (hlistWatchPop stack seq psp) k =
      if watched stack seq psp = some k then none else occupant stack k := by
  unfold hlistWatchPop
  split
  · next h => rw [occupant_shrink, if_neg (by rw [h]; exact nofun)]
  · next j h =>
      rw [occupant_shrink, occupant_free _ _ _ fun _ => -1, h]
      exact if_congr (Option.some.injEq _ _).to_iff.symm rfl rfl

/-- `hlist_push` fills a free slot. -/
theorem occupant_hlistPush {p psp k : Nat} {fpath : List Char} {stack' : List StackEntry}
    (h : hlistPush stack p psp fpath = some (k, stack')) :
    occupant stack k = none ∧ ∀ j, occupant stack' j =
      if j = k then some ⟨p, psp, fpath⟩ else occupant stack j := by
  unfold hlistPush at h
  split at h
  · next j hfind =>
      obtain ⟨rfl, rfl⟩ := Prod.mk.inj (Option.some.inj h)
      obtain ⟨hlt, hnone, -⟩ := List.findIdx?_eq_some_iff_getElem.mp hfind
      have hget := List.getElem?_eq_getElem hlt
      refine ⟨?_, fun i => ?_⟩
      · unfold occupant
        rw [hget]
        simp [StackEntry.occupant, Option.isNone_iff_eq_none.mp hnone]
      · rw [occupant_modify]
        by_cases hi : i = j
        · rw [if_pos hi.symm, if_pos hi, hi, hget]
          rfl
        · rw [if_neg (Ne.symm hi), if_neg hi]
  · split at h
    · cases h
    · obtain ⟨rfl, rfl⟩ := Prod.mk.inj (Option.some.inj h)
      refine ⟨?_, fun i => ?_⟩
      · unfold occupant
        rw [List.getElem?_eq_none le_rfl]
        rfl
      · unfold occupant
        rcases lt_trichotomy i stack.length with hi | hi | hi
        · rw [List.getElem?_append_left hi, if_neg hi.ne]
        · rw [if_pos hi, hi, List.getElem?_concat_length]
          rfl
        · rw [List.getElem?_eq_none (by simp; omega), List.getElem?_eq_none hi.le, if_neg hi.ne']

/-! ## Searches own their slots -/

/-- Every search knows what is left of its listing, and one that has entries left is in the slot
that its block names. -/
structure Owned (occ : Nat → Option Occupant) (lists : Nat → List DirEnt) (made : Nat)
    (sdb : Nat → Sdb) (B : Book) : Prop where
  distinct : ∀ j k o o', occ j = some o → occ k = some o' → o.listing = o'.listing → j = k
  old : ∀ k o, occ k = some o → o.listing < made
  owner : ∀ k o, occ k = some o → o.psp = B.maker o.listing
  short : ∀ p < made, (lists p).length < 2 ^ 16
  begun : ∀ b σ, B.search b = some σ → σ.listing < made
  left : ∀ b σ, B.search b = some σ → (lists σ.listing).drop (sdb b).dirEntry = σ.rest
  held : ∀ b σ k o, B.search b = some σ → occ k = some o → o.listing = σ.listing →
    k = (sdb b).pCluster ∧ o.fpath = σ.fpath
  live : ∀ b σ, B.search b = some σ → σ.rest ≠ [] → ∃ k o, occ k = some o ∧ o.listing = σ.listing
  apart : ∀ b b' σ σ', B.search b = some σ → B.search b' = some σ' → σ.listing = σ'.listing → b = b'

/-- The invariant of the world. -/
def World.Inv (w : World) : Prop :=
  Owned (occupant w.state.stack) w.state.lists w.state.made w.state.sdb w.book

variable {occ occ' : Nat → Option Occupant} {lists : Nat → List DirEnt} {made : Nat}
  {sdb : Nat → Sdb} {B B' : Book}

theorem start_inv {w : World} (h : w.Start) : w.Inv := by
  obtain ⟨hstack, hmade, hsearch⟩ := h
  have hocc (k : Nat) : occupant w.state.stack k = none := by
    unfold occupant
    rw [hstack]
    rfl
  constructor <;> intros <;> simp_all

/-- Slots can be emptied and searches can end, as long as a search that goes on keeps its slot. -/
theorem Owned.sub (h : Owned occ lists made sdb B)
    (hocc : ∀ k o, occ' k = some o → occ k = some o)
    (hsearch : ∀ b σ, B'.search b = some σ → B.search b = some σ) (hmaker : B'.maker = B.maker)
    (hlive : ∀ b σ, B'.search b = some σ → σ.rest ≠ [] →
      ∃ k o, occ' k = some o ∧ o.listing = σ.listing) :
    Owned occ' lists made sdb B' where
  distinct j k o o' hj hk := h.distinct j k o o' (hocc j o hj) (hocc k o' hk)
  old k o hk := h.old k o (hocc k o hk)
  owner k o hk := by
    rw [hmaker]
    exact h.owner k o (hocc k o hk)
  short := h.short
  begun b σ hb := h.begun b σ (hsearch b σ hb)
  left b σ hb := h.left b σ (hsearch b σ hb)
  held b σ k o hb hk := h.held b σ k o (hsearch b σ hb) (hocc k o hk)
  live := hlive
  apart b b' σ σ' hb hb' := h.apart b b' σ σ' (hsearch b σ hb) (hsearch b' σ' hb')

/-- A block without a search can hold anything. -/
theorem Owned.forget (h : Owned occ lists made sdb B) (b : Nat) (x : Sdb) :
    Owned occ lists made (Function.update sdb b x) (B.setSearch b none) := by
  have hsearch (b' : Nat) (σ : Search) (hb : (B.setSearch b none).search b' = some σ) :
      b' ≠ b ∧ B.search b' = some σ := by
    change Function.update B.search b none b' = some σ at hb
    by_cases heq : b' = b
    · rw [heq, Function.update_self] at hb
      cases hb
    · exact ⟨heq, by rwa [Function.update_of_ne heq] at hb⟩
  have hsub := @Owned.sub occ occ lists made sdb B (B.setSearch b none) h (fun _ _ => id)
    (fun b' σ hb => (hsearch b' σ hb).2) rfl fun b' σ hb => h.live b' σ (hsearch b' σ hb).2
  refine { hsub with left := fun b' σ hb => ?_, held := fun b' σ k o hb => ?_ }
  · rw [Function.update_of_ne (hsearch b' σ hb).1]
    exact hsub.left b' σ hb
  · rw [Function.update_of_ne (hsearch b' σ hb).1]
    exact hsub.held b' σ k o hb

/-- One more listing. -/
theorem Owned.make (h : Owned occ lists made sdb B) {l : List DirEnt} (hl : l.length < 2 ^ 16) :
    Owned occ (Function.update lists made l) (made + 1) sdb B :=
  { h with
    old := fun k o hk => (h.old k o hk).trans (Nat.lt_succ_self _)
    short := fun p hp => by
      by_cases heq : p = made
      · rw [heq, Function.update_self]
        exact hl
      · rw [Function.update_of_ne heq]
        exact h.short p (by omega)
    begun := fun b σ hb => (h.begun b σ hb).trans (Nat.lt_succ_self _)
    left := fun b σ hb => by
      rw [Function.update_of_ne (h.begun b σ hb).ne]
      exact h.left b σ hb }

/-- A search looks at some entries, and its block keeps up with it. -/
theorem Owned.look (h : Owned occ lists made sdb B) {b : Nat} {σ : Search} {rest : List DirEnt}
    {x : Sdb} (hσ : B.search b = some σ) (hcluster : x.pCluster = (sdb b).pCluster)
    (hleft : (lists σ.listing).drop x.dirEntry = rest) (hrest : σ.rest = [] → rest = []) :
    Owned occ lists made (Function.update sdb b x)
      (B.setSearch b (some { σ with rest := rest })) := by
  have hsearch (b' : Nat) (τ : Search)
      (hb : (B.setSearch b (some { σ with rest := rest })).search b' = some τ) :
      b' = b ∧ τ = { σ with rest := rest } ∨ b' ≠ b ∧ B.search b' = some τ := by
    change Function.update B.search b (some { σ with rest := rest }) b' = some τ at hb
    by_cases heq : b' = b
    · rw [heq, Function.update_self] at hb
      exact Or.inl ⟨heq, (Option.some.inj hb).symm⟩
    · exact Or.inr ⟨heq, by rwa [Function.update_of_ne heq] at hb⟩
  -- whatever block a search of the new book is at, the old book had one for its listing there
  have hbefore (b' : Nat) (τ : Search)
      (hb : (B.setSearch b (some { σ with rest := rest })).search b' = some τ) :
      ∃ τ', B.search b' = some τ' ∧ τ'.listing = τ.listing ∧ τ'.fpath = τ.fpath := by
    rcases hsearch b' τ hb with ⟨rfl, rfl⟩ | ⟨-, hb'⟩
    · exact ⟨σ, hσ, rfl, rfl⟩
    · exact ⟨τ, hb', rfl, rfl⟩
  have hblock (b' : Nat) : (Function.update sdb b x b').pCluster = (sdb b').pCluster := by
    by_cases heq : b' = b
    · rw [heq, Function.update_self, hcluster]
    · rw [Function.update_of_ne heq]
  exact { h with
    begun := fun b' τ hb => by
      obtain ⟨τ', hb', hlisting, -⟩ := hbefore b' τ hb
      exact hlisting ▸ h.begun b' τ' hb'
    left := fun b' τ hb => by
      rcases hsearch b' τ hb with ⟨rfl, rfl⟩ | ⟨hne, hb'⟩
      · rw [Function.update_self]
        exact hleft
      · rw [Function.update_of_ne hne]
        exact h.left b' τ hb'
    held := fun b' τ k o hb hk hlisting => by
      obtain ⟨τ', hb', hsame, hpath⟩ := hbefore b' τ hb
      rw [hblock, ← hpath]
      exact h.held b' τ' k o hb' hk (hlisting.trans hsame.symm)
    live := fun b' τ hb hne => by
      rcases hsearch b' τ hb with ⟨rfl, rfl⟩ | ⟨-, hb'⟩
      · exact h.live b' σ hσ fun hnil => hne (hrest hnil)
      · exact h.live b' τ hb' hne
    apart := fun b₁ b₂ τ₁ τ₂ hb₁ hb₂ hlisting => by
      obtain ⟨τ₁', hb₁', hsame₁, -⟩ := hbefore b₁ τ₁ hb₁
      obtain ⟨τ₂', hb₂', hsame₂, -⟩ := hbefore b₂ τ₂ hb₂
      exact h.apart b₁ b₂ τ₁' τ₂' hb₁' hb₂' (hsame₁.trans (hlisting.trans hsame₂.symm)) }

/-- A new listing gets a free slot, and a block that names it. -/
theorem Owned.push (h : Owned occ lists made sdb B) {k p psp b : Nat} {fpath : List Char} {x : Sdb}
    (hk : occ k = none) (hp : p < made) (hocc : ∀ j o, occ j = some o → o.listing ≠ p)
    (hsearch : ∀ b' σ, B.search b' = some σ → σ.listing ≠ p) (hx : x.dirEntry = 0)
    (hcluster : x.pCluster = k)
    (hocc' : ∀ j, occ' j = if j = k then some ⟨p, psp, fpath⟩ else occ j) :
    Owned occ' lists made (Function.update sdb b x)
      { B.setSearch b (some ⟨p, fpath, lists p⟩) with maker := Function.update B.maker p psp } := by
  have hslot (j : Nat) (o : Occupant) (hj : occ' j = some o) :
      j = k ∧ o = ⟨p, psp, fpath⟩ ∨ j ≠ k ∧ occ j = some o ∧ o.listing ≠ p := by
    rw [hocc'] at hj
    split at hj
    · next heq => exact Or.inl ⟨heq, (Option.some.inj hj).symm⟩
    · next hne => exact Or.inr ⟨hne, hj, hocc j o hj⟩
  have hof (b' : Nat) (τ : Search)
      (hb : Function.update B.search b (some ⟨p, fpath, lists p⟩) b' = some τ) :
      b' = b ∧ τ = ⟨p, fpath, lists p⟩ ∨ b' ≠ b ∧ B.search b' = some τ ∧ τ.listing ≠ p := by
    by_cases heq : b' = b
    · rw [heq, Function.update_self] at hb
      exact Or.inl ⟨heq, (Option.some.inj hb).symm⟩
    · rw [Function.update_of_ne heq] at hb
      exact Or.inr ⟨heq, hb, hsearch b' τ hb⟩
  constructor
  case distinct =>
    intro i j o o' hi hj hsame
    rcases hslot i o hi with ⟨rfl, rfl⟩ | ⟨-, hi', hne⟩ <;>
      rcases hslot j o' hj with ⟨rfl, rfl⟩ | ⟨-, hj', hne'⟩
    · rfl
    · exact absurd hsame.symm hne'
    · exact absurd hsame hne
    · exact h.distinct i j o o' hi' hj' hsame
  case old =>
    intro j o hj
    rcases hslot j o hj with ⟨-, rfl⟩ | ⟨-, hj', -⟩
    · exact hp
    · exact h.old j o hj'
  case owner =>
    intro j o hj
    rcases hslot j o hj with ⟨-, rfl⟩ | ⟨-, hj', hne⟩
    · exact (Function.update_self p psp B.maker).symm
    · exact (h.owner j o hj').trans (Function.update_of_ne hne psp B.maker).symm
  case short => exact h.short
  case begun =>
    intro b' τ hb
    rcases hof b' τ hb with ⟨-, rfl⟩ | ⟨-, hb', -⟩
    · exact hp
    · exact h.begun b' τ hb'
  case left =>
    intro b' τ hb
    rcases hof b' τ hb with ⟨rfl, rfl⟩ | ⟨hne, hb', -⟩
    · rw [Function.update_self, hx]
      rfl
    · rw [Function.update_of_ne hne]
      exact h.left b' τ hb'
  case held =>
    intro b' τ j o hb hj hsame
    rcases hof b' τ hb with ⟨rfl, rfl⟩ | ⟨hne, hb', hp'⟩ <;>
      rcases hslot j o hj with ⟨rfl, rfl⟩ | ⟨-, hj', hne'⟩
    · rw [Function.update_self, hcluster]
      exact ⟨rfl, rfl⟩
    · exact absurd hsame hne'
    · exact absurd hsame.symm hp'
    · rw [Function.update_of_ne hne]
      exact h.held b' τ j o hb' hj' hsame
  case live =>
    intro b' τ hb hne
    rcases hof b' τ hb with ⟨rfl, rfl⟩ | ⟨-, hb', -⟩
    · exact ⟨k, _, by rw [hocc', if_pos rfl], rfl⟩
    · obtain ⟨j, o, hj, hsame⟩ := h.live b' τ hb' hne
      have hjk : j ≠ k := by
        rintro rfl
        rw [hk] at hj
        cases hj
      exact ⟨j, o, by rw [hocc', if_neg hjk, hj], hsame⟩
  case apart =>
    intro b₁ b₂ τ₁ τ₂ hb₁ hb₂ hsame
    rcases hof b₁ τ₁ hb₁ with ⟨rfl, rfl⟩ | ⟨-, hb₁', hne₁⟩ <;>
      rcases hof b₂ τ₂ hb₂ with ⟨rfl, rfl⟩ | ⟨-, hb₂', hne₂⟩
    · rfl
    · exact absurd hsame.symm hne₂
    · exact absurd hsame hne₁
    · exact h.apart b₁ b₂ τ₁ τ₂ hb₁' hb₂' hsame

/-! ## What one call does -/

/-- A search is at its end when it has no entry left to show. -/
theorem Search.advance_of_none {σ : Search} {attr : BitVec 8} (h : σ.next host attr = none) :
    σ.advance host attr = { σ with rest := [] } := by
  rw [Search.advance, h]
  rfl

theorem Search.advance_of_some {σ : Search} {attr : BitVec 8} {e : DirEnt} {rest : List DirEnt}
    (h : σ.next host attr = some (e, rest)) : σ.advance host attr = { σ with rest := rest } := by
  rw [Search.advance, h]
  rfl

/-- The end stays the end. -/
theorem Search.next_of_nil {σ : Search} {attr : BitVec 8} (h : σ.rest = []) :
    σ.next host attr = none := by
  rw [Search.next, h]
  rfl

/-- `find_again` goes on with the search of its block. -/
theorem findAgain_step {s : State} (h : Owned (occupant s.stack) s.lists s.made s.sdb B)
    {b psp : Nat} {σ : Search} {o : Occupant} (hσ : B.search b = some σ)
    (hocc : occupant s.stack (s.sdb b).pCluster = some o) (hlisting : o.listing = σ.listing) :
    ∃ a t, findAgain s b psp host σ.fpath σ.listing = some (a, t) ∧
      Answers (some σ) host (s.sdb b).attr a (t.sdb b) ∧
      Owned (occupant t.stack) t.lists t.made t.sdb
        (B.setSearch b (some (σ.advance host (s.sdb b).attr))) := by
  have hshort := h.short σ.listing (h.begun b σ hσ)
  have hfuel : (s.lists σ.listing).length - (s.sdb b).dirEntry < 2 ^ 16 + 1 := by omega
  have hnext : σ.next host (s.sdb b).attr =
      nextEntry host (s.sdb b).attr σ.fpath ((s.lists σ.listing).drop (s.sdb b).dirEntry) := by
    rw [Search.next, h.left b σ hσ]
  unfold findAgain
  cases hshow : σ.next host (s.sdb b).attr with
  | none =>
      obtain ⟨x, hloop, -, hcluster, -, hlen⟩ :=
        findAgainLoop_none hshort hfuel (hnext.symm.trans hshow)
      rw [hloop]
      refine ⟨.noMoreFiles, s.setSdb b x, rfl, ?_, ?_⟩
      · rw [Answers, Option.bind_some, hshow]
      · rw [Search.advance_of_none hshow]
        exact h.look hσ hcluster (List.drop_of_length_le hlen) fun _ => rfl
  | some found =>
      obtain ⟨e, rest⟩ := found
      obtain ⟨x, hloop, -, hcluster, hreport, hdrop⟩ :=
        findAgainLoop_some hshort hfuel (hnext.symm.trans hshow)
      rw [hloop, Search.advance_of_some hshow]
      have hnil : σ.rest = [] → rest = [] := fun hrest => by
        rw [Search.next_of_nil hrest] at hshow
        cases hshow
      have hlook := h.look hσ hcluster hdrop hnil
      have hanswer : Answers (some σ) host (s.sdb b).attr .found x := by
        rw [Answers, Option.bind_some, hshow]
        exact ⟨rfl, hreport⟩
      have hself : (s.setSdb b x).sdb b = x := Function.update_self ..
      dsimp only
      split
      · next hend =>
          refine ⟨.found, _, rfl, ?_, ?_⟩
          · change Answers (some σ) host (s.sdb b).attr .found ((s.setSdb b x).sdb b)
            rwa [hself]
          · have hrest : rest = [] := hdrop.symm.trans (List.drop_of_length_le hend)
            refine hlook.sub (fun k o => occupant_of_hlistPop) (fun _ _ => id) rfl
              fun b' τ hb hne => ?_
            obtain ⟨k, o', hk, hsame⟩ := hlook.live b' τ hb hne
            -- the slot that was freed is that of the listing which came to its end
            have hk' : k ≠ (s.sdb b).pCluster := by
              rintro rfl
              have ho := Option.some.inj (hk.symm.trans hocc)
              have hb' : b' = b := hlook.apart b' b τ { σ with rest := rest } hb
                (Function.update_self ..) (hsame.symm.trans (ho ▸ hlisting))
              subst hb'
              have hτ := Option.some.inj (hb.symm.trans (Function.update_self ..))
              exact hne (by rw [hτ, hrest])
            exact ⟨k, o', (occupant_hlistPop _ _ _ hk').trans hk, hsame⟩
      · refine ⟨.found, _, rfl, ?_, hlook⟩
        rwa [hself]

/-- What the watch lets go belongs to the PSP that searches, and that has many slots. -/
theorem watchVictim_eq {psp : Nat} {watch : Bool} {i : Nat} {act : Int} {del : Option Nat} {k : Nat}
    {rest : List StackEntry} (h : watchVictim psp watch i act del rest = some k) :
    del = some k ∨ watch = true ∧ i ≤ k ∧ ∃ se, rest[k - i]? = some se ∧ se.psp = psp := by
  induction rest generalizing i act del with
  | nil => exact Or.inl h
  | cons se rest ih =>
      have hlater (hrest : watch = true ∧ i + 1 ≤ k ∧
          ∃ se', rest[k - (i + 1)]? = some se' ∧ se'.psp = psp) :
          watch = true ∧ i ≤ k ∧ ∃ se', (se :: rest)[k - i]? = some se' ∧ se'.psp = psp := by
        obtain ⟨hwatch, hle, se', hget, hpsp⟩ := hrest
        refine ⟨hwatch, by omega, se', ?_, hpsp⟩
        rw [show k - i = k - (i + 1) + 1 by omega]
        exact hget
      unfold watchVictim at h
      split at h
      · exact (ih h).imp_right hlater
      · next hpsp =>
          split at h
          · cases h
          · split at h
            · next hold =>
                rcases ih h with hdel | hrest
                · obtain rfl := Option.some.inj hdel
                  refine Or.inr ⟨hold.1, le_rfl, se, ?_, not_not.mp hpsp⟩
                  rw [Nat.sub_self]
                  rfl
                · exact Or.inr (hlater hrest)
            · exact (ih h).imp_right hlater

/-- The watch keeps to the PSP that searches. -/
theorem watched_listing {w : World} (h : w.Inv) {psp p : Nat}
    (hp : w.state.watchedListing psp = some p) :
    w.book.maker p = psp ∧ hlistWatchCnt < slotsOf w.state.stack psp := by
  obtain ⟨k, hk, hat⟩ := Option.bind_eq_some_iff.mp hp
  rcases watchVictim_eq hk with hnone | ⟨hwatch, -, se, hget, hpsp⟩
  · cases hnone
  · rw [Nat.sub_zero] at hget
    have hlist : se.hlist = some p := by
      rw [listingAt, hget] at hat
      exact hat
    have hocc : occupant w.state.stack k = some ⟨p, se.psp, se.fpath⟩ := by
      rw [occupant, hget]
      simp [StackEntry.occupant, hlist]
    exact ⟨(h.owner k _ hocc).symm.trans hpsp, of_decide_eq_true hwatch⟩

/-- The searches go on without the one that the watch lets go. -/
theorem owned_hlistWatchPop {w : World} (h : w.Inv) (psp : Nat) :
    Owned (occupant (hlistWatchPop w.state.stack w.state.seq psp)) w.state.lists w.state.made
      w.state.sdb (w.book.cancel (some · = w.state.watchedListing psp)) := by
  have hsearch (b : Nat) (σ : Search)
      (hb : (w.book.cancel (some · = w.state.watchedListing psp)).search b = some σ) :
      w.book.search b = some σ ∧ some σ.listing ≠ w.state.watchedListing psp := by
    obtain ⟨hb', hp⟩ := Option.filter_eq_some_iff.mp hb
    exact ⟨hb', of_decide_eq_true hp⟩
  refine h.sub (fun k o hk => ?_) (fun b σ hb => (hsearch b σ hb).1) rfl fun b σ hb hne => ?_
  · rw [occupant_hlistWatchPop] at hk
    split at hk
    · cases hk
    · exact hk
  · obtain ⟨hb', hp⟩ := hsearch b σ hb
    obtain ⟨k, o, hk, hsame⟩ := h.live b σ hb' hne
    refine ⟨k, o, ?_, hsame⟩
    rw [occupant_hlistWatchPop, if_neg fun hvictim => ?_, hk]
    apply hp
    rw [State.watchedListing, hvictim, Option.bind_some, listingAt_eq, hk, ← hsame]
    rfl

/-- FIND_FIRST before `find_again`: its block has a search, or none. -/
theorem openSearch_owned {w : World} (h : w.Inv) {c : FirstCall}
    (hshort : ∀ l, c.listing = some l → l.length < 2 ^ 16) :
    let B := w.book.cancel (some · = w.state.watchedListing c.psp)
    match openSearch w.state c with
    | .inl (_, s) => Owned (occupant s.stack) s.lists s.made s.sdb (B.setSearch c.block none)
    | .inr (p, s) =>
        Owned (occupant s.stack) s.lists s.made s.sdb
          { B.setSearch c.block (some ⟨p, c.fpath, s.lists p⟩) with
            maker := Function.update B.maker p c.psp } ∧
        (s.sdb c.block).attr = c.attr ∧
        occupant s.stack (s.sdb c.block).pCluster = some ⟨p, c.psp, c.fpath⟩ := by
  intro B
  have hwatch := owned_hlistWatchPop h c.psp
  unfold openSearch
  dsimp only [State.setSdb]
  split
  · next hmatch =>
      split at hmatch
      · obtain ⟨-, rfl⟩ := Prod.mk.inj (Sum.inl.inj hmatch)
        dsimp only
        rw [Function.update_idem]
        exact hwatch.forget _ _
      · split at hmatch
        · obtain ⟨-, rfl⟩ := Prod.mk.inj (Sum.inl.inj hmatch)
          exact hwatch.forget _ _
        · split at hmatch
          · obtain ⟨-, rfl⟩ := Prod.mk.inj (Sum.inl.inj hmatch)
            exact hwatch.forget _ _
          · next l hl =>
              split at hmatch
              · obtain ⟨-, rfl⟩ := Prod.mk.inj (Sum.inl.inj hmatch)
                refine (hwatch.make ?_).forget _ _
                split
                · rw [setLongPathOnDirs, List.length_map]
                  exact hshort l hl
                · exact hshort l hl
              · cases hmatch
  · next hmatch =>
      split at hmatch
      · cases hmatch
      · split at hmatch
        · cases hmatch
        · split at hmatch
          · cases hmatch
          · next l hl =>
              split at hmatch
              · cases hmatch
              · next k stack hpush =>
                  obtain ⟨rfl, rfl⟩ := Prod.mk.inj (Sum.inr.inj hmatch)
                  obtain ⟨hfree, hslots⟩ := occupant_hlistPush hpush
                  have hlen : (if c.longPath then setLongPathOnDirs l else l).length < 2 ^ 16 := by
                    split
                    · rw [setLongPathOnDirs, List.length_map]
                      exact hshort l hl
                    · exact hshort l hl
                  dsimp only
                  rw [Function.update_idem, Function.update_self]
                  refine ⟨(hwatch.make hlen).push hfree (Nat.lt_succ_self _)
                    (fun j o hj => (hwatch.old j o hj).ne)
                    (fun b σ hb => (hwatch.begun b σ hb).ne) rfl rfl fun j => ?_, rfl, ?_⟩
                  · rw [occupant_stamp, hslots]
                  · rw [occupant_stamp, hslots, if_pos rfl]

theorem Book.setSearch_self {b : Nat} {σ : Option Search} (h : B.search b = σ) :
    B.setSearch b σ = B := by
  unfold Book.setSearch
  rw [← h, Function.update_eq_self]

/-- A search with nothing left is where it will be. -/
theorem bookAfter_idle {w : World} {b psp : Nat} (h : ∀ σ, w.book.search b = some σ → σ.rest = []) :
    w.bookAfter true (.findNext b psp host) = w.book := by
  dsimp only [World.bookAfter]
  cases hσ : w.book.search b with
  | none => rfl
  | some σ =>
      have hadvance : σ.advance host (w.state.sdb b).attr = σ := by
        rw [Search.advance_of_none (Search.next_of_nil (h σ hσ)), ← h σ hσ]
      dsimp only
      rw [hadvance]
      exact Book.setSearch_self hσ

/-- Nobody waits for an entry of a search with nothing left. -/
theorem answers_idle {σ : Option Search} {attr : BitVec 8} {x : Sdb}
    (h : ∀ τ, σ = some τ → τ.rest = []) : Answers σ host attr .noMoreFiles x := by
  unfold Answers
  cases σ with
  | none => rfl
  | some τ => rw [Option.bind_some, Search.next_of_nil (h τ rfl)]

/-- The sequence number of a slot does not say what is in it. -/
theorem refresh_same (s : State) (k : Nat) (se : StackEntry) :
    occupant (s.refresh k se).stack = occupant s.stack ∧ (s.refresh k se).lists = s.lists ∧
      (s.refresh k se).made = s.made ∧ (s.refresh k se).sdb = s.sdb := by
  unfold State.refresh
  split
  · exact ⟨funext (occupant_stamp _ _ _), rfl, rfl, rfl⟩
  · exact ⟨rfl, rfl, rfl, rfl⟩

/-- FIND_NEXT goes on with the search of its block. -/
theorem findNext_step {w : World} (h : w.Inv) {b psp : Nat}
    (hok : Careful w (.findNext b psp host)) :
    ∃ a t, findNext w.state b psp host = some (a, t) ∧
      Answers (w.book.search b) host (w.state.sdb b).attr a (t.sdb b) ∧
      World.Inv ⟨t, w.bookAfter true (.findNext b psp host)⟩ := by
  have hidle (hk : ∀ o, occupant w.state.stack (w.state.sdb b).pCluster = some o →
      ∀ σ, w.book.search b = some σ → o.listing ≠ σ.listing) :
      ∀ σ, w.book.search b = some σ → σ.rest = [] := by
    intro σ hσ
    by_contra hne
    obtain ⟨k, o, hocc, hsame⟩ := h.live b σ hσ hne
    obtain ⟨rfl, -⟩ := h.held b σ k o hσ hocc hsame
    exact hk o hocc σ hσ hsame
  unfold findNext
  dsimp only
  cases hget : w.state.stack[(w.state.sdb b).pCluster]? with
  | none =>
      have hrest := hidle fun o hocc => by
        rw [occupant, hget] at hocc
        cases hocc
      refine ⟨_, _, rfl, answers_idle hrest, ?_⟩
      rw [bookAfter_idle hrest]
      exact h
  | some se =>
      dsimp only
      obtain ⟨hstack, hlists, hmade, hsdb⟩ := refresh_same w.state (w.state.sdb b).pCluster se
      generalize w.state.refresh (w.state.sdb b).pCluster se = s at *
      have hs : Owned (occupant s.stack) s.lists s.made s.sdb w.book := by
        rw [hstack, hlists, hmade, hsdb]
        exact h
      have hocc : occupant w.state.stack (w.state.sdb b).pCluster = se.occupant := by
        rw [occupant, hget]
        rfl
      cases hlist : se.hlist with
      | none =>
          have hrest := hidle fun o ho => by
            rw [hocc, StackEntry.occupant, hlist] at ho
            cases ho
          refine ⟨_, _, rfl, answers_idle hrest, ?_⟩
          rw [bookAfter_idle hrest]
          exact hs
      | some p =>
          have hat : se.occupant = some ⟨p, se.psp, se.fpath⟩ := by
            rw [StackEntry.occupant, hlist]
            rfl
          by_cases hown : ∃ σ, w.book.search b = some σ ∧ σ.listing = p
          · obtain ⟨σ, hσ, rfl⟩ := hown
            have hpath := (h.held b σ _ _ hσ (hocc.trans hat) rfl).2
            dsimp only at hpath
            obtain ⟨a, t, hrun, hanswer, hinv⟩ := @findAgain_step host w.book s hs b psp σ _ hσ
              (by rw [hstack, hsdb, hocc, hat]) rfl
            dsimp only
            rw [hpath]
            refine ⟨a, t, hrun, ?_, ?_⟩
            · rw [hσ, ← hsdb]
              exact hanswer
            · rw [World.bookAfter, hσ, ← hsdb]
              exact hinv
          · have hnext := (hok se p hget hlist).resolve_left hown
            have hp : p < w.state.made := h.old _ _ (hocc.trans hat)
            obtain ⟨x, hloop, -, hcluster, hle, -⟩ :=
              @findAgainLoop_none host se.fpath (w.state.lists p) (h.short p hp) (2 ^ 16 + 1) _
                (by have := h.short p hp; omega) hnext
            have hrest := hidle fun o ho σ hσ hsame => by
              rw [hocc, hat] at ho
              obtain rfl := Option.some.inj ho
              exact hown ⟨σ, hσ, hsame.symm⟩
            refine ⟨.noMoreFiles, s.setSdb b x, ?_, answers_idle hrest, ?_⟩
            · dsimp only [findAgain]
              rw [hsdb, hlists, hloop]
            · rw [bookAfter_idle hrest]
              cases hσ : w.book.search b with
              | none =>
                  have := hs.forget b x
                  rwa [Book.setSearch_self hσ] at this
              | some σ =>
                  have hnil := hrest σ hσ
                  have hdrop : (s.lists σ.listing).drop x.dirEntry = [] := by
                    have hleft := hs.left b σ hσ
                    rw [hnil, List.drop_eq_nil_iff, hsdb] at hleft
                    exact List.drop_of_length_le (hleft.trans hle)
                  have hlook := hs.look hσ (hsdb ▸ hcluster) hdrop fun _ => rfl
                  have hself : ({ σ with rest := [] } : Search) = σ := by
                    rw [← hnil]
                  rwa [hself, Book.setSearch_self hσ] at hlook

/-- FIND_FIRST starts a search, or its block has none. -/
theorem findFirst_step {w : World} (h : w.Inv) {c : FirstCall} (hok : Careful w (.findFirst c)) :
    ∃ a t, findFirst w.state c = some (a, t) ∧
      (∀ p s, openSearch w.state c = .inr (p, s) →
        Answers (some ⟨p, c.fpath, s.lists p⟩) c.host c.attr a (t.sdb c.block)) ∧
      World.Inv ⟨t, w.bookAfter true (.findFirst c)⟩ := by
  have hopen := openSearch_owned h hok
  dsimp only [findFirst, World.bookAfter]
  rw [if_pos rfl]
  cases hmatch : openSearch w.state c with
  | inl done =>
      rw [hmatch] at hopen
      refine ⟨done.1, done.2, rfl, ?_, hopen⟩
      intro p s hinr
      cases hinr
  | inr started =>
      obtain ⟨p, s⟩ := started
      rw [hmatch] at hopen
      obtain ⟨howned, hattr, hocc⟩ := hopen
      obtain ⟨a, t, hrun, hanswer, hinv⟩ := @findAgain_step c.host _ s howned c.block c.psp
        ⟨p, c.fpath, s.lists p⟩ _ (Function.update_self ..) hocc rfl
      rw [hattr] at hanswer hinv
      refine ⟨a, t, hrun, fun p' s' hinr => ?_, ?_⟩
      · obtain ⟨rfl, rfl⟩ := Prod.mk.inj (Sum.inr.inj hinr)
        exact hanswer
      · unfold Book.setSearch at hinv
        dsimp only at hinv
        rw [Function.update_idem] at hinv
        exact hinv

/-- A PSP that terminates takes along its own listings. -/
theorem processTerminated_step {w : World} (h : w.Inv) (psp : Nat) :
    World.Inv ⟨processTerminated w.state psp, w.bookAfter true (.processTerminated psp)⟩ := by
  have hsearch (b : Nat) (σ : Search)
      (hb : (w.bookAfter true (.processTerminated psp)).search b = some σ) :
      w.book.search b = some σ ∧ w.book.maker σ.listing ≠ psp := by
    obtain ⟨hb', hp⟩ := Option.filter_eq_some_iff.mp hb
    exact ⟨hb', of_decide_eq_true hp⟩
  refine h.sub (fun k o hk => ?_) (fun b σ hb => (hsearch b σ hb).1) rfl fun b σ hb hne => ?_
  · dsimp only [processTerminated] at hk
    rw [occupant_hlistPopPsp] at hk
    exact (Option.filter_eq_some_iff.mp hk).1
  · obtain ⟨hb', hp⟩ := hsearch b σ hb
    obtain ⟨k, o, hk, hsame⟩ := h.live b σ hb' hne
    refine ⟨k, o, ?_, hsame⟩
    dsimp only [processTerminated]
    rw [occupant_hlistPopPsp, hk]
    refine Option.filter_eq_some_iff.mpr ⟨rfl, decide_eq_true fun hpsp => hp ?_⟩
    rw [← hsame, ← h.owner k o hk, hpsp]

/-- Every call leaves each search where it can be found again. -/
theorem step_inv {w t : World} {e : Event} (h : w.Inv) (hok : Careful w e)
    (hstep : step true w e = some t) : t.Inv := by
  obtain ⟨s, hs, rfl⟩ := Option.map_eq_some_iff.mp hstep
  cases e with
  | findFirst c =>
      obtain ⟨a, s', hrun, -, hinv⟩ := findFirst_step h hok
      dsimp only [State.after] at hs
      rw [hrun] at hs
      obtain rfl := Option.some.inj hs
      exact hinv
  | findNext b psp host =>
      obtain ⟨a, s', hrun, -, hinv⟩ := findNext_step h hok
      dsimp only [State.after] at hs
      rw [hrun] at hs
      obtain rfl := Option.some.inj hs
      exact hinv
  | processTerminated psp =>
      obtain rfl := Option.some.inj hs
      exact processTerminated_step h psp

theorem contract_of_careful {w : World} {e : Event} (h : w.Inv) (hok : Careful w e) :
    Contract w e := by
  cases e with
  | findFirst c =>
      obtain ⟨a, s, hrun, hanswer, -⟩ := findFirst_step h hok
      exact ⟨fun p hp => watched_listing h hp, a, s, hrun, hanswer⟩
  | findNext b psp host =>
      obtain ⟨a, s, hrun, hanswer, -⟩ := findNext_step h hok
      exact ⟨a, s, hrun, hanswer⟩
  | processTerminated psp =>
      intro k p hp
      rw [listingAt_eq] at hp
      obtain ⟨o, hk, rfl⟩ := Option.map_eq_some_iff.mp hp
      by_cases hpsp : o.psp = psp
      · exact Or.inr ((h.owner k o hk).symm.trans hpsp)
      · left
        have hkeep : (some o).filter (fun o => decide (o.psp ≠ psp)) = some o :=
          Option.filter_eq_some_iff.mpr ⟨rfl, decide_eq_true hpsp⟩
        rw [listingAt_eq, occupant_hlistPopPsp, hk, hkeep]
        rfl

/-- In a run, every FIND_NEXT returns the next entry of the search that its block stands for, or no
more files, and nobody but its PSP ends a search. -/
theorem searches_isolated {w : World} (hstart : w.Start) (es : List Event)
    (h : Run.Admits (step true) Careful w es) : Run.Admits (step true) Contract w es :=
  Run.admits_imp World.Inv (fun _ _ _ hinv hok hstep => step_inv hinv hok hstep)
    (fun _ _ hinv hok => contract_of_careful hinv hok) (start_inv hstart) h

/-! ## Two nested searches, and too many -/

/-- A host where everything is an empty file. -/
def plain : Host where
  stat := fun _ => ⟨0x8000, 0, 0, 0⟩
  timeToDos := fun _ => (0, 0)

def file (name : List Char) : DirEnt :=
  ⟨name, [], name, 0, false, 0, 0, 0⟩

/-- Look for two files. -/
def twoFiles (block psp : Nat) : FirstCall :=
  ⟨block, psp, 0, List.replicate 8 '?', List.replicate 3 '?', ([], []), true, [], false,
    some [file ['A'], file ['B']], plain⟩

/-- The table is empty and the blocks hold zeros. -/
def fresh : World :=
  ⟨⟨[], 0, fun _ => [], 0, fun _ => ⟨0, 0, 0, [], [], 0, 0, 0, 0⟩⟩, ⟨fun _ => none, fun _ => 0⟩⟩

/-- A condition that can be computed: every block that is asked names the slot of its search. -/
def Plain (w : World) : Event → Prop
  | .findFirst c => (c.listing.getD []).length < 2 ^ 16
  | .findNext b _ _ =>
      (w.book.search b).map Search.listing = listingAt w.state.stack (w.state.sdb b).pCluster
  | .processTerminated _ => True

instance (w : World) : (e : Event) → Decidable (Plain w e)
  | .findFirst _ => inferInstanceAs (Decidable (_ < _))
  | .findNext .. => inferInstanceAs (Decidable (_ = _))
  | .processTerminated _ => .isTrue trivial

theorem careful_of_plain {w : World} {e : Event} (h : Plain w e) : Careful w e := by
  cases e with
  | findFirst c =>
      intro l hl
      simpa [Plain, hl] using h
  | findNext b psp host =>
      intro se p hse hp
      have hat : listingAt w.state.stack (w.state.sdb b).pCluster = some p := by
        rw [listingAt, hse, Option.bind_some, hp]
      obtain ⟨σ, hσ, hlisting⟩ := Option.map_eq_some_iff.mp (h.trans hat)
      exact Or.inl ⟨σ, hσ, hlisting⟩
  | processTerminated psp => trivial

theorem admits_of_plain {w : World} {es : List Event} (h : Run.Admits (step true) Plain w es) :
    Run.Admits (step true) Careful w es :=
  Run.admits_imp (fun _ => True) (fun _ _ _ _ _ _ => trivial) (fun _ _ _ => careful_of_plain)
    trivial h

/-- One search inside another. -/
theorem searches_isolated_nested :
    Run.Admits (step true) Contract fresh
      [.findFirst (twoFiles 0 1), .findFirst (twoFiles 1 1), .findNext 1 1 plain,
        .findNext 0 1 plain] :=
  searches_isolated ⟨rfl, rfl, fun _ => rfl⟩ _ (admits_of_plain (by decide +kernel))

/-- More searches of one PSP than the watch allows, the last one for a path that is not found. -/
def crowd : List Event :=
  (List.range 65).map (fun b => .findFirst (twoFiles b 1)) ++
    [.findFirst { twoFiles 65 1 with found := false }]

/-- The 66th search of a PSP ends its first one, though nobody has asked for that. -/
theorem watch_ends_first :
    ¬∀ (w : World) (es : List Event), w.Start → Run.Admits (step false) Contract w es := by
  intro hall
  -- the slot is empty, while the second of the two files was never returned
  have hend : (Run.run (step false) fresh crowd).map (fun t =>
      ((findNext t.state 0 1 plain).map Prod.fst,
        ((t.book.search 0).bind fun σ => σ.next plain (t.state.sdb 0).attr).isSome)) =
      some (some .noMoreFiles, true) := by
    decide +kernel
  obtain ⟨t, hrun, ht⟩ := Option.map_eq_some_iff.mp hend
  obtain ⟨hans, hleft⟩ := Prod.mk.inj ht
  obtain ⟨a, s, hnext, hanswer⟩ :=
    ((Run.admits_append.mp (hall fresh (crowd ++ [.findNext 0 1 plain])
      ⟨rfl, rfl, fun _ => rfl⟩)).2 t hrun).1
  rw [hnext] at hans
  obtain rfl := Option.some.inj hans
  obtain ⟨e, he⟩ := Option.isSome_iff_exists.mp hleft
  rw [Answers, he] at hanswer
  cases hanswer.1

end Searches
end Mfs
end Dosemu
