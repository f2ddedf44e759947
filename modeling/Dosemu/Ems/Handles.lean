import Dosemu.Ems.Steps
import Dosemu.Ems.RoundTrip

/-!
# What an operation on one handle leaves of the others

A reallocation that reports an error should have changed nothing, and a
deallocation should concern its own handle.  The first adjusts
`emm_allocated`, and drops mapped pages, before it knows whether it gets its
memory; the second clears the name of the entry at which its loop over the
physical pages has stopped.  Names are only seen by the search of function
5401h, so a second copy of the table records which names were set and not freed.

Main results:

- Theorem `realloc_atomic_iff`: a failed reallocation changes nothing exactly
  when it was not the memory that was refused.
- Theorem `framesOnly_iff`: a deallocation concerns its own handle exactly when
  that is the entry whose name it clears, or both names are clear.
- Theorem `names_iff`: the same along whole runs, with the search by name.
-/

namespace Dosemu
namespace Ems

open Function
open Run

variable {cfg : Config} {env : Env} {s t : Driver}

/-! ## Failed reallocations -/

/-- What function 51h must leave alone when it reports an error. -/
def RefusalAtomic (cfg : Config) (env : Env) (s : Driver) (r : Regs) (i : Fin maxHandles) : Prop :=
  ∀ rep, emsFn cfg env s r = some rep → hiByte rep.regs.ax ≠ emmNoErr →
    rep.s.emmAllocated = s.emmAllocated ∧
      (rep.s.handleInfo i).object = (s.handleInfo i).object ∧
      (rep.s.handleInfo i).numpages = (s.handleInfo i).numpages ∧ rep.s.emmMap = s.emmMap

/-- The new size is granted on the books and refused by the memory layer, and
the program goes on: a handle without an object has no memory to give up, and
the other sizes need an address. -/
def SizeRefused (cfg : Config) (env : Env) (s : Driver) (i : Fin maxHandles) (newcount : Nat) :
    Prop :=
  s.physPages ≠ 0 ∧ newcount ≠ (s.handleInfo i).numpages ∧
    s.emmAllocated + ((newcount : Int) - (s.handleInfo i).numpages) ≤ cfg.emmTotal ∧
    (if newcount = 0 then (s.handleInfo i).object = 0 else reallocMemoryObject env = 0) ∧
    ¬RemapRefused env s i newcount

/-- The memory call fails exactly when it has to ask and is refused. -/
theorem reallocObject_fails (env : Env) (r : HandleRecord) (newcount : Nat) :
    ((reallocObject env r newcount).1 ≠ emmNoErr ↔
      if newcount = 0 then r.object = 0 else reallocMemoryObject env = 0) ∧
    ((reallocObject env r newcount).1 = emmNoErr ∨
      (reallocObject env r newcount).1 = emmOutOfLog) := by
  have herr : emmOutOfLog ≠ emmNoErr := by decide
  unfold reallocObject newMemoryObject
  by_cases hzero : newcount = 0
  · by_cases hobj : r.object = 0
    · simp [hzero, hobj, herr]
    · simp [hzero, hobj]
  · by_cases hobj : r.object = 0
    · by_cases hmem : env.mapping.getD 0 = 0
      · simp [hzero, hobj, hmem, herr, reallocMemoryObject]
      · simp [hzero, hobj, hmem, reallocMemoryObject]
    · by_cases hmem : env.mapping.getD 0 = 0
      · simp [hzero, hobj, hmem, herr, reallocMemoryObject]
      · simp [hzero, hobj, hmem, reallocMemoryObject]

theorem emsFn_reallocate (hinit : s.physPages ≠ 0) {r : Regs} (hah : hiByte r.ax = 0x51) :
    emsFn cfg env s r =
      (reallocatePages cfg env s r.dx.toNat r.bx.toNat).map (report r) := by
  simp [emsFn, hinit, hah]

/-- A reallocation that is answered without a memory call changes nothing. -/
theorem refusalAtomic_of_kept {r : Regs} {i : Fin maxHandles}
    (hkept : ∀ rep, emsFn cfg env s r = some rep → rep.s = s) :
    RefusalAtomic cfg env s r i := by
  intro rep hrep _
  rw [hkept rep hrep]
  exact ⟨rfl, rfl, rfl, rfl⟩

/-- A failed reallocation changes nothing exactly when the memory it asked for
was not refused. -/
theorem realloc_atomic_iff (cfg : Config) (env : Env) (s : Driver) (r : Regs)
    (i : Fin maxHandles) (hah : hiByte r.ax = 0x51)
    (hactive : activeHandle s r.dx.toNat = some i) (hos : i ≠ osHandle) :
    RefusalAtomic cfg env s r i ↔ ¬SizeRefused cfg env s i r.bx.toNat := by
  by_cases hinit : s.physPages = 0
  · refine iff_of_true (refusalAtomic_of_kept ?_) fun hc => hc.1 hinit
    intro rep hrep
    simp only [emsFn, hinit, if_true, Option.some.injEq] at hrep
    rw [← hrep]
  have hfn := @emsFn_reallocate cfg env _ hinit _ hah
  simp only [reallocatePages, hactive, if_neg hos] at hfn
  by_cases hsame : r.bx.toNat = (s.handleInfo i).numpages
  · refine iff_of_true (refusalAtomic_of_kept ?_) fun hc => hc.2.1 hsame
    intro rep hrep
    rw [hfn, if_pos hsame] at hrep
    cases hrep
    rfl
  rw [if_neg hsame] at hfn
  by_cases hfits :
      s.emmAllocated + ((r.bx.toNat : Int) - (s.handleInfo i).numpages) ≤ cfg.emmTotal
  · have hfails := reallocObject_fails env (s.handleInfo i) r.bx.toNat
    cases hobj : reallocObject env (s.handleInfo i) r.bx.toNat with
    | mk err e =>
        rw [hobj] at hfails
        rcases doReallocate_eq hfits hobj with ⟨hremap, heq⟩ | ⟨hremap, heq⟩
        · rw [heq, Option.map_some] at hfn
          by_cases herr : err = emmNoErr
          · -- the call succeeds, so nothing is asked of it
            refine iff_of_true ?_ fun hc => hfails.1.mpr hc.2.2.2.1 herr
            intro rep hrep hstatus
            rw [hfn] at hrep
            cases hrep
            rw [report, hiByte_setAh, herr] at hstatus
            exact absurd rfl hstatus
          · -- the call fails with the new count already on the books
            refine iff_of_false ?_ (not_not.mpr ⟨hinit, hsame, hfits, hfails.1.mp herr, hremap⟩)
            intro hatomic
            have hstatus : hiByte (setAh r err).ax ≠ emmNoErr := by
              have hlog : err = emmOutOfLog := hfails.2.resolve_left herr
              rw [hiByte_setAh, hlog]
              decide
            have hsum := (hatomic _ hfn hstatus).1
            simp only [report, reallocated] at hsum
            omega
        · refine iff_of_true ?_ fun hc => hc.2.2.2.2 hremap
          intro rep hrep
          rw [hfn, heq] at hrep
          cases hrep
  · refine iff_of_true (refusalAtomic_of_kept ?_) fun hc => hfits hc.2.2.1
    intro rep hrep
    simp only [doReallocate, if_pos (not_le.mp hfits)] at hfn
    rw [hfn] at hrep
    cases hrep
    rfl

/-- With its one page in use, a handle asks for two pages and is refused. -/
theorem realloc_atomic_onePage :
    ∃ t, run (step twoMegabytes) (emsInit twoMegabytes 0xe000) onePage = some t ∧
      (RefusalAtomic twoMegabytes (plainEnv none) t ⟨0x5100, 2, 0, 1⟩ handleOne ↔
        ¬SizeRefused twoMegabytes (plainEnv none) t handleOne 2) := by
  obtain ⟨t, ht, -, hactive, -, -⟩ := onePage_allocated
  exact ⟨t, ht, realloc_atomic_iff twoMegabytes (plainEnv none) t ⟨0x5100, 2, 0, 1⟩ handleOne
    (by decide) hactive (by decide)⟩

/-- Afterwards the books have two pages, and the handle one. -/
theorem refused_realloc_not_atomic :
    ∃ t, run (step twoMegabytes) (emsInit twoMegabytes 0xe000) onePage = some t ∧
      activeHandle t 1 = some handleOne ∧
      ¬RefusalAtomic twoMegabytes (plainEnv none) t ⟨0x5100, 2, 0, 1⟩ handleOne := by
  have heval : ((run (step twoMegabytes) (emsInit twoMegabytes 0xe000) onePage).map fun t =>
      decide (activeHandle t 1 = some handleOne ∧ t.emmAllocated = 1) &&
        ((emsFn twoMegabytes (plainEnv none) t ⟨0x5100, 2, 0, 1⟩).map fun rep =>
          decide (hiByte rep.regs.ax ≠ emmNoErr ∧ rep.s.emmAllocated = 2)) == some true) =
        some true := by
    decide +kernel
  rw [Option.map_eq_some_iff] at heval
  obtain ⟨t, ht, hprops⟩ := heval
  rw [Bool.and_eq_true, decide_eq_true_eq, beq_iff_eq, Option.map_eq_some_iff] at hprops
  obtain ⟨⟨hactive, hone⟩, rep, hrep, hfailed⟩ := hprops
  rw [decide_eq_true_eq] at hfailed
  refine ⟨t, ht, hactive, ?_⟩
  intro hatomic
  have hsum := (hatomic rep hrep hfailed.1).1
  rw [hone, hfailed.2] at hsum
  exact absurd hsum (by decide)

/-! ## Deallocations -/

/-- The name of an entry that has none. -/
def noName : List (BitVec 8) :=
  List.replicate 9 0

/-- A deallocation leaves every other record, and clears the name of its own. -/
def FramesOnly (s : Driver) (h : Fin maxHandles) : Prop :=
  (∀ k, k ≠ h → (emmDeallocateHandle s h).handleInfo k = s.handleInfo k) ∧
    ((emmDeallocateHandle s h).handleInfo h).name = noName

/-- The entry whose name is cleared is the one that is freed, or its name and
that of the freed entry are clear. -/
def ClearsOwn (s : Driver) (h : Fin maxHandles) : Prop :=
  h.val = s.physPages ∨
    ((s.handleInfo h).name = noName ∧
      ∀ k, handleIndex s.physPages = some k → (s.handleInfo k).name = noName)

/-- A deallocation empties one entry, and clears the name of the one its counter
has stopped at. -/
theorem emmDeallocateHandle_info (s : Driver) (h k : Fin maxHandles) :
    (emmDeallocateHandle s h).handleInfo k =
      let r := if k = h then { s.handleInfo h with numpages := 0, active := 0, object := 0 }
        else s.handleInfo k
      if k.val = s.physPages then { r with name := noName } else r := by
  obtain ⟨hinfo, -⟩ := freedHandle_spec s h
  rw [emmDeallocateHandle_freed]
  unfold clearName
  cases hidx : handleIndex s.physPages with
  | none =>
      have hother : k.val ≠ s.physPages := by
        intro hk
        rw [handleIndex_eq_some.mpr hk] at hidx
        cases hidx
      simp only [if_neg hother, hinfo]
      by_cases hk : k = h
      · simp [hk]
      · simp [hk]
  | some m =>
      have hm := handleIndex_eq_some.mp hidx
      have hown : k.val = s.physPages ↔ k = m := by
        rw [← hm, Fin.ext_iff]
      simp only [Driver.setInfo, hinfo, hown]
      by_cases hkm : k = m
      · subst hkm
        by_cases hk : k = h
        · simp [hk, noName]
        · simp [hk, noName]
      · by_cases hk : k = h
        · subst hk
          simp [hkm]
        · simp [hkm, hk]

/-- A deallocation concerns its own handle exactly when that is the entry whose
name it clears, or there is nothing to clear in either. -/
theorem framesOnly_iff (s : Driver) (h : Fin maxHandles) : FramesOnly s h ↔ ClearsOwn s h := by
  unfold FramesOnly ClearsOwn
  by_cases hown : h.val = s.physPages
  · refine iff_of_true ⟨?_, ?_⟩ (Or.inl hown)
    · intro k hk
      have hother : k.val ≠ s.physPages := fun hc => hk (Fin.ext (hc.trans hown.symm))
      simp [emmDeallocateHandle_info, hk, hother]
    · simp [emmDeallocateHandle_info, hown]
  · rw [or_iff_right hown]
    constructor
    · rintro ⟨hothers, hname⟩
      constructor
      · simpa [emmDeallocateHandle_info, hown] using hname
      · intro k hidx
        have hk := handleIndex_eq_some.mp hidx
        have hne : k ≠ h := fun hc => hown (hc ▸ hk)
        rw [← hothers k hne]
        simp [emmDeallocateHandle_info, hne, hk]
    · rintro ⟨hname, hentry⟩
      constructor
      · intro k hk
        by_cases hidx : k.val = s.physPages
        · have hclear := hentry k (handleIndex_eq_some.mpr hidx)
          simp only [emmDeallocateHandle_info, if_neg hk, if_pos hidx, ← hclear]
        · simp [emmDeallocateHandle_info, hk, hidx]
      · simpa [emmDeallocateHandle_info, hown] using hname

/-! ## The directory of handles -/

/-- Error codes of `handle_dir`. -/
def emmNotFound : Nat := 0xa0
def emmHanNoName : Nat := 0xa1

/-- `strncmp` finds no difference. -/
def strncmpEq : Nat → List (BitVec 8) → List (BitVec 8) → Bool
  | 0, _, _ => true
  | n + 1, a :: as, b :: bs => a == b && (a == 0 || strncmpEq n as bs)
  | _ + 1, _, _ => false

/-- The words of a directory entry: the handle, and its name. -/
def dirEntry (s : Driver) (h : Fin maxHandles) : List Nat :=
  let name := (s.handleInfo h).name
  h.val :: (List.range 4).map fun i =>
    (name.getD (2 * i) 0).toNat + 256 * (name.getD (2 * i + 1) 0).toNat

/-- `HANDLE_ALLOCATED`. -/
def handleAllocated (s : Driver) (h : Fin maxHandles) : Bool :=
  (s.handleInfo h).active != 0

/-- `SETLO_BYTE` on `AX`. -/
def setAl (r : Regs) (v : Nat) : Regs :=
  { r with ax := BitVec.ofNat 16 (hiByte r.ax * 256 + v % 256) }

/-- The loop of the `SEARCH_NAMED` case. -/
def searchNamed (s : Driver) (array : List (BitVec 8)) : Option (Fin maxHandles) :=
  (List.finRange maxHandles).find? fun h =>
    handleAllocated s h && strncmpEq 8 (s.handleInfo h).name array

/-- `handle_dir`, function 54h. -/
def handleDir (env : Env) (s : Driver) (r : Regs) : Reply :=
  match loByte r.ax with
  | 0 =>
      let found := (List.finRange maxHandles).filter fun h => handleAllocated s h
      ⟨s, setAl (setAh r emmNoErr) found.length, found.flatMap fun h => dirEntry s h⟩
  | 1 =>
      match searchNamed s (nameBytes env) with
      | some h =>
          let status := if (s.handleInfo h).name.head? = some 0 then emmHanNoName else emmNoErr
          ⟨s, { setAh r status with dx := BitVec.ofNat 16 h }, []⟩
      | none => report r (emmNotFound, s)
  | 2 => ⟨s, { setAh r emmNoErr with bx := BitVec.ofNat 16 maxHandles }, []⟩
  | _ => report r (emmInvalidSub, s)

/-! ## The names that were set -/

/-- For each handle the name that was set last, unless it was freed since. -/
abbrev Names := Fin maxHandles → Option (List (BitVec 8))

/-- The name the driver gives its own handle. -/
def systemName : List (BitVec 8) :=
  [0x53, 0x59, 0x53, 0x54, 0x45, 0x4d, 0x20, 0x20]

/-- After a reset only the driver's own handle has a name. -/
def resetNames : Names := fun h => if h = osHandle then some systemName else none

/-- The handle a call frees. -/
def freedBy (s : Driver) : EmsCall → Option (Fin maxHandles)
  | .fn r _ =>
      if s.physPages ≠ 0 ∧ hiByte r.ax = 0x45 ∧ hiByte (deallocateFn s r).regs.ax = emmNoErr then
        handleIndex r.dx.toNat
      else none
  | _ => none

/-- The names after a call: 5301h sets one, 45h frees one, 5Ch all. -/
def namesAfter (s : Driver) (n : Names) : EmsCall → Names
  | .fn r env =>
      if s.physPages = 0 then n
      else
        match hiByte r.ax with
        | 0x45 =>
            match freedBy s (.fn r env) with
            | some h => update n h none
            | none => n
        | 0x53 =>
            match activeHandle s r.dx.toNat with
            | some h => if loByte r.ax = 1 then update n h (some (nameBytes env)) else n
            | none => n
        | 0x5c => resetNames
        | _ => n
  | _ => n

/-- A call on the driver together with the names. -/
def stepNamed (cfg : Config) (sn : Driver × Names) (c : EmsCall) : Option (Driver × Names) :=
  (step cfg sn.1 c).map fun t => (t, namesAfter sn.1 sn.2 c)

/-- The first handle that was given the name, which must not be empty. -/
def findName (n : Names) (array : List (BitVec 8)) : Option (Fin maxHandles) :=
  (List.finRange maxHandles).find? fun h =>
    match n h with
    | some name => name.head? != some 0 && strncmpEq 8 name array
    | none => false

/-- The search by name finds the handles that were given it, and reports no
other as found. -/
def SearchExact (s : Driver) (n : Names) : Prop :=
  ∀ (env : Env) (r : Regs) (h : Fin maxHandles), loByte r.ax = 1 →
    ((hiByte (handleDir env s r).regs.ax = emmNoErr ∧
        (handleDir env s r).regs.dx = BitVec.ofNat 16 h) ↔
      findName n (nameBytes env) = some h)

/-! ## The search -/

theorem strncmpEq_head {n : Nat} {as bs : List (BitVec 8)} (h : strncmpEq (n + 1) as bs = true) :
    as.head? = bs.head? ∧ as ≠ [] := by
  cases as with
  | nil => simp [strncmpEq] at h
  | cons a as =>
      cases bs with
      | nil => simp [strncmpEq] at h
      | cons b bs =>
          simp only [strncmpEq, Bool.and_eq_true, beq_iff_eq] at h
          simp [h.1]

/-- Characters behind those that are compared do not matter. -/
theorem strncmpEq_append {n : Nat} {as : List (BitVec 8)} (hlen : n ≤ as.length)
    (cs bs : List (BitVec 8)) : strncmpEq n (as ++ cs) bs = strncmpEq n as bs := by
  induction n generalizing as bs with
  | zero => rfl
  | succ n ih =>
      cases as with
      | nil => simp at hlen
      | cons a as =>
          cases bs with
          | nil => rfl
          | cons b bs =>
              have hrest : n ≤ as.length := by simpa using hlen
              simp only [List.cons_append, strncmpEq, ih hrest]

/-- What the table holds for a handle: nothing for a free one, and the name that
was set, padded, for an active one. -/
def NameOk (r : HandleRecord) (o : Option (List (BitVec 8))) : Prop :=
  (r.active = 0 ∧ o = none) ∨
    (r.active ≠ 0 ∧ (o.getD (List.replicate 8 0)).length = 8 ∧
      r.name = o.getD (List.replicate 8 0) ++ [0])

/-- The table holds the names that were set. -/
def NamesInv (s : Driver) (n : Names) : Prop :=
  ∀ h, NameOk (s.handleInfo h) (n h)

/-- For a name that is not empty, the search compares what was set. -/
theorem NameOk.matches_iff {s : Driver} {n : Names} {h : Fin maxHandles}
    (hok : NameOk (s.handleInfo h) (n h)) {array : List (BitVec 8)}
    (harray : array.head? ≠ some 0) :
    (handleAllocated s h && strncmpEq 8 (s.handleInfo h).name array) =
      match n h with
      | some name => name.head? != some 0 && strncmpEq 8 name array
      | none => false := by
  rcases hok with ⟨hidle, hnone⟩ | ⟨hactive, hlen, hname⟩
  · simp [handleAllocated, hidle, hnone]
  · have halloc : handleAllocated s h = true := by simp [handleAllocated, hactive]
    rw [halloc, Bool.true_and, hname, strncmpEq_append (le_of_eq hlen.symm)]
    cases hset : n h with
    | none =>
        simp only [Option.getD_none]
        rw [Bool.eq_false_iff]
        intro hc
        exact harray (strncmpEq_head hc).1.symm
    | some name =>
        simp only [Option.getD_some]
        by_cases hcmp : strncmpEq 8 name array = true
        · have hhead := (strncmpEq_head hcmp).1
          rw [hcmp, hhead, Bool.and_true, bne_iff_ne.mpr harray]
        · simp [hcmp]

theorem NamesInv.searchNamed_eq {n : Names} (h : NamesInv s n) {array : List (BitVec 8)}
    (harray : array.head? ≠ some 0) : searchNamed s array = findName n array :=
  List.find?_congr fun k _ => (h k).matches_iff harray

/-- Nothing is found under an empty name. -/
theorem findName_empty (n : Names) {array : List (BitVec 8)} (harray : array.head? = some 0) :
    findName n array = none := by
  unfold findName
  rw [List.find?_eq_none]
  intro k _
  cases n k with
  | none => exact Bool.false_ne_true
  | some name =>
      intro hc
      simp only [Bool.and_eq_true, bne_iff_ne] at hc
      exact hc.1 ((strncmpEq_head hc.2).1.trans harray)

theorem ofNat_handle_inj {h k : Fin maxHandles}
    (heq : BitVec.ofNat 16 h.val = BitVec.ofNat 16 k.val) : h = k := by
  have hh : h.val < 255 := h.isLt
  have hk : k.val < 255 := k.isLt
  have hnat := congrArg BitVec.toNat heq
  rw [toNat_ofNat_word (by omega), toNat_ofNat_word (by omega)] at hnat
  exact Fin.ext hnat

/-- A table that holds the names is searched exactly. -/
theorem NamesInv.searchExact {n : Names} (h : NamesInv s n) : SearchExact s n := by
  intro env r k hal
  have hempty : emmHanNoName % 256 ≠ emmNoErr := by decide
  have hmissing : emmNotFound % 256 ≠ emmNoErr := by decide
  unfold handleDir
  simp only [hal]
  cases hfound : searchNamed s (nameBytes env) with
  | none =>
      simp only [report, hiByte_setAh]
      refine iff_of_false (fun hc => hmissing hc.1) ?_
      by_cases harray : (nameBytes env).head? = some 0
      · simp [findName_empty n harray]
      · simp [← h.searchNamed_eq harray, hfound]
  | some m =>
      have hpred := List.find?_some hfound
      rw [Bool.and_eq_true] at hpred
      have hhead := (strncmpEq_head hpred.2).1
      change hiByte (setAh r _).ax = emmNoErr ∧ BitVec.ofNat 16 m = BitVec.ofNat 16 k ↔ _
      rw [hiByte_setAh, hhead]
      by_cases harray : (nameBytes env).head? = some 0
      · rw [if_pos harray, findName_empty n harray]
        exact iff_of_false (fun hc => hempty hc.1) (by simp)
      · rw [if_neg harray, ← h.searchNamed_eq harray, hfound, Option.some.injEq]
        constructor
        · rintro ⟨-, hdx⟩
          exact ofNat_handle_inj hdx
        · rintro rfl
          exact ⟨by decide, rfl⟩

/-! ## Steps -/

/-- The calls that only map, save or resize keep the names. -/
theorem NamesInv.kept {n : Names} (h : NamesInv s n)
    (hkept : ∀ k, (t.handleInfo k).active = (s.handleInfo k).active ∧
      (t.handleInfo k).name = (s.handleInfo k).name) : NamesInv t n := by
  intro k
  unfold NameOk
  rw [(hkept k).1, (hkept k).2]
  exact h k

theorem NamesInv.mapOnly {n : Names} (h : NamesInv s n) (hmap : MapOnly s t) : NamesInv t n := by
  apply h.kept
  intro k
  rw [hmap.handleInfo]
  exact ⟨rfl, rfl⟩

/-- Overwriting one record, together with what was set for it. -/
theorem NamesInv.setInfo {n : Names} (h : NamesInv s n) {i : Fin maxHandles} {r : HandleRecord}
    {o : Option (List (BitVec 8))} (hinfo : t.handleInfo = update s.handleInfo i r)
    (hok : NameOk r o) : NamesInv t (update n i o) := by
  intro k
  rw [hinfo]
  by_cases hk : k = i
  · subst hk
    simpa using hok
  · simpa [hk] using h k

/-- A record that keeps its name and its mark can be overwritten. -/
theorem NamesInv.annotate {n : Names} (h : NamesInv s n) {i : Fin maxHandles} {r : HandleRecord}
    (hinfo : t.handleInfo = update s.handleInfo i r)
    (hactive : r.active = (s.handleInfo i).active) (hname : r.name = (s.handleInfo i).name) :
    NamesInv t n := by
  apply h.kept
  intro k
  rw [hinfo]
  by_cases hk : k = i
  · subst hk
    simp [hactive, hname]
  · simp [hk]

/-- A fresh handle has no name. -/
theorem NamesInv.allocate {n : Names} (h : NamesInv s n) (env : Env) (pagesNeeded : Nat) :
    NamesInv (emmAllocateHandle cfg env s pagesNeeded).2 n := by
  unfold emmAllocateHandle
  split
  · exact h
  · split
    · exact h
    · split
      · exact h
      · split
        · exact h
        · next i hfind =>
            have hfound := List.find?_some hfind
            simp only [decide_eq_true_eq] at hfound
            have hnone : n i = none := by
              rcases h i with ⟨-, hnone⟩ | ⟨hactive, -⟩
              · exact hnone
              · exact absurd hfound.2 hactive
            simp only
            split
            · exact h
            · have hset := h.setInfo (t := s.setInfo i
                { s.handleInfo i with
                  active := 1, numpages := pagesNeeded, object := newMemoryObject env pagesNeeded
                  name := List.replicate 9 0
                  savedMappingsLogical := clearSaved cfg (s.handleInfo i), savedMapping := 0 })
                (o := none) rfl (Or.inr ⟨Nat.one_ne_zero, rfl, rfl⟩)
              rw [← hnone, update_eq_self] at hset
              exact hset

theorem NamesInv.allocateFn {n : Names} (h : NamesInv s n) (env : Env) (r : Regs) :
    NamesInv (allocateFn cfg env s r).s n := by
  have hkeep := @NamesInv.allocate cfg _ _ h env r.bx.toNat
  unfold Ems.allocateFn
  split
  · next heq => rwa [heq] at hkeep
  · next heq => rwa [heq] at hkeep

/-- A handle whose own name is cleared is freed, and so is its name. -/
theorem NamesInv.deallocate {n : Names} (h : NamesInv s n) {i : Fin maxHandles}
    (hclear : ClearsOwn s i) : NamesInv (emmDeallocateHandle s i) (update n i none) := by
  obtain ⟨hothers, -⟩ := (framesOnly_iff s i).mpr hclear
  intro k
  by_cases hk : k = i
  · subst hk
    left
    refine ⟨?_, by simp⟩
    rw [emmDeallocateHandle_info]
    by_cases hown : k.val = s.physPages
    · simp [hown]
    · simp [hown]
  · rw [update_of_ne hk, hothers k hk]
    exact h k

/-- Function 45h either reports an error or deallocates the handle in `DX`. -/
theorem deallocateFn_cases (s : Driver) (r : Regs) :
    ((deallocateFn s r).s = s ∧ hiByte (deallocateFn s r).regs.ax ≠ emmNoErr) ∨
      ∃ i, handleIndex r.dx.toNat = some i ∧ (deallocateFn s r).s = emmDeallocateHandle s i ∧
        hiByte (deallocateFn s r).regs.ax = emmNoErr := by
  have hbad : emmInvHan % 256 ≠ emmNoErr := by decide
  have hsaved : emmHaveSaved % 256 ≠ emmNoErr := by decide
  unfold deallocateFn
  cases hidx : handleIndex r.dx.toNat with
  | none => exact Or.inl ⟨rfl, by rw [report, hiByte_setAh]; exact hbad⟩
  | some i =>
      simp only
      split
      · exact Or.inl ⟨rfl, by rw [report, hiByte_setAh]; exact hbad⟩
      · split
        · exact Or.inl ⟨rfl, by rw [report, hiByte_setAh]; exact hbad⟩
        · split
          · exact Or.inl ⟨rfl, by rw [report, hiByte_setAh]; exact hsaved⟩
          · exact Or.inr ⟨i, rfl, rfl, by rw [report, hiByte_setAh]; rfl⟩

/-- Every handle that the call frees is one whose own name is cleared. -/
def FreesOwn (sn : Driver × Names) (c : EmsCall) : Prop :=
  ∀ h, freedBy sn.1 c = some h → ClearsOwn sn.1 h

theorem nameBytes_length (env : Env) : (nameBytes env).length = 8 :=
  rfl

theorem NamesInv.handleName {n : Names} (h : NamesInv s n) (env : Env) {r : Regs}
    (hinit : s.physPages ≠ 0) (hah : hiByte r.ax = 0x53) :
    NamesInv (handleName env s r).s (namesAfter s n (.fn r env)) := by
  simp only [namesAfter, if_neg hinit, hah]
  unfold Ems.handleName
  cases hactive : activeHandle s r.dx.toNat with
  | none =>
      split
      · exact h
      · exact h
      · exact h
  | some i =>
      have hact := (activeHandle_eq_some.mp hactive).2
      obtain ⟨hlen, hname⟩ : ((n i).getD (List.replicate 8 0)).length = 8 ∧
          (s.handleInfo i).name = (n i).getD (List.replicate 8 0) ++ [0] := by
        rcases h i with ⟨hidle, -⟩ | ⟨-, hok⟩
        · exact absurd hidle hact
        · exact hok
      split
      · next hal =>
          have hkeep : (s.handleInfo i).name.take 8 ++ [0] = (s.handleInfo i).name := by
            rw [hname, List.take_left' hlen]
          simp only [hal, hkeep]
          exact h.annotate (show _ = _ from rfl) rfl rfl
      · next hal =>
          simp only [hal, if_true]
          exact h.setInfo (show _ = _ from rfl) (Or.inr ⟨hact, nameBytes_length env, rfl⟩)
      · next hget hset =>
          simp only [if_neg hset]
          exact h

theorem namesInv_emsReset2 (hsize : cfg.emsSize ≠ 0) (s : Driver) :
    NamesInv (emsReset2 cfg s) resetNames := by
  intro h
  simp only [emsReset2, if_neg hsize, resetNames]
  by_cases hos : h = osHandle
  · simp only [hos, if_true]
    exact Or.inr ⟨show 0xff ≠ 0 by decide, rfl, rfl⟩
  · simp only [if_neg hos]
    exact Or.inl ⟨rfl, rfl⟩

theorem NamesInv.pageMapRegisters {n : Names} (h : NamesInv s n) (hidle : IdleEmpty s)
    (r : Regs) :
    Outcome (env.aliased = true) (fun rep => NamesInv rep.s n) (pageMapRegisters cfg env s r) := by
  have hset : Outcome (env.aliased = true) (fun res => NamesInv res.2 n)
      (emmSetMapRegisters cfg env s) :=
    (emmSetMapRegisters_outcome hidle cfg).mono fun _ hres => h.mapOnly hres
  unfold Ems.pageMapRegisters
  simp only
  split
  · exact h
  · exact hset.map fun _ hres => hres
  · exact hset.map fun _ hres => hres
  · exact h
  · exact h

theorem NamesInv.partialMapRegisters {n : Names} (h : NamesInv s n) (hidle : IdleEmpty s)
    (r : Regs) : Outcome (env.aliased = true) (fun rep => NamesInv rep.s n)
      (partialMapRegisters cfg env s r) := by
  unfold Ems.partialMapRegisters
  split
  · split <;> exact h
  · apply Outcome.map (P := fun res => NamesInv res.2 n)
    · unfold emmSetPartialMapRegisters
      split
      · exact h
      · exact (setPartial_outcome hidle _).mono fun _ hres => h.mapOnly hres
    · exact fun _ hres => hres
  · split <;> exact h
  · exact h

theorem NamesInv.savePageMap {n : Names} (h : NamesInv s n) (r : Regs) :
    NamesInv (savePageMap cfg s r).s n := by
  unfold Ems.savePageMap
  split
  · exact h
  · next i _ =>
      split
      · exact h
      · have hfirst : NamesInv (emmSaveHandleState cfg s i) n :=
          h.annotate (show _ = _ from rfl) rfl rfl
        exact hfirst.annotate (show _ = _ from rfl) rfl rfl

theorem NamesInv.restorePageMap {n : Names} (h : NamesInv s n) (hinv : MapInv cfg s) (r : Regs) :
    Outcome (env.aliased = true) (fun rep => NamesInv rep.s n) (restorePageMap cfg env s r) := by
  unfold Ems.restorePageMap emmRestoreHandleState
  split
  · exact h
  · split
    · exact h
    · refine (restorePages_outcome hinv.idle (hinv.saved _) _).map ?_
      intro u hu
      exact (h.mapOnly hu).annotate (show _ = _ from rfl) rfl rfl

/-- A reallocation gives a record a new size and object, not a new name. -/
theorem NamesInv.reallocate {n : Names} (h : NamesInv s n) (handle newcount : Nat) :
    Outcome (env.aliased = true) (fun res => NamesInv res.2 n)
      (reallocatePages cfg env s handle newcount) := by
  unfold reallocatePages
  split
  · exact h
  · next i _ =>
      split
      · exact h
      · split
        · exact h
        · by_cases hfits :
              s.emmAllocated + ((newcount : Int) - (s.handleInfo i).numpages) ≤ cfg.emmTotal
          · have hcases := reallocObject_cases env (s.handleInfo i) newcount
            cases hobj : reallocObject env (s.handleInfo i) newcount with
            | mk err r =>
                rw [hobj] at hcases
                rcases doReallocate_eq hfits hobj with ⟨-, heq⟩ | ⟨hrefused, heq⟩
                · rw [heq]
                  rcases hcases with hsame | ⟨obj, hnew⟩
                  · simp only at hsame
                    subst hsame
                    exact h.annotate (show _ = _ from rfl) rfl rfl
                  · simp only at hnew
                    subst hnew
                    exact h.annotate (show _ = _ from rfl) rfl rfl
                · rw [heq]
                  simp [hrefused.1]
          · simp only [doReallocate, if_pos (not_le.mp hfits)]
            exact h

/-- A call whose deallocation clears its own name keeps the names. -/
theorem emsFn_names {n : Names} (h : NamesInv s n) (hinv : MapInv cfg s) (r : Regs)
    (hfree : FreesOwn (s, n) (.fn r env)) :
    Outcome (env.aliased = true) (fun rep => NamesInv rep.s (namesAfter s n (.fn r env)))
      (emsFn cfg env s r) := by
  by_cases hinit : s.physPages = 0
  · simp only [emsFn, namesAfter, if_pos hinit, Outcome.some_iff]
    exact h
  have hsize : cfg.emsSize ≠ 0 := by
    rcases hinv.pages with hzero | ⟨hsize, -⟩
    · exact absurd hzero hinit
    · exact hsize
  unfold emsFn
  rw [if_neg hinit]
  split
  · next hah =>
      simp only [namesAfter, if_neg hinit, hah]
      split
      · exact h
      · exact h.allocateFn env r
  · next hah =>
      simp only [namesAfter, if_neg hinit, hah]
      exact ((doMapUnmap_outcome hinv.idle _ _ _).mono fun _ hres => h.mapOnly hres).map
        fun _ hres => hres
  · next hah =>
      simp only [namesAfter, if_neg hinit, hah, Outcome.some_iff]
      rcases deallocateFn_cases s r with ⟨hsame, hfailed⟩ | ⟨i, hidx, hfreed, hstatus⟩
      · have hnone : freedBy s (.fn r env) = none := by
          simp [freedBy, hfailed]
        rw [hnone, hsame]
        exact h
      · have hsome : freedBy s (.fn r env) = some i := by
          simp [freedBy, hinit, hah, hstatus, hidx]
        rw [hsome, hfreed]
        exact h.deallocate (hfree i hsome)
  · next hah =>
      simp only [namesAfter, if_neg hinit, hah]
      exact h.savePageMap r
  · next hah =>
      simp only [namesAfter, if_neg hinit, hah]
      exact h.restorePageMap hinv r
  · next hah =>
      simp only [namesAfter, if_neg hinit, hah]
      exact h.pageMapRegisters hinv.idle r
  · next hah =>
      simp only [namesAfter, if_neg hinit, hah]
      exact h.partialMapRegisters hinv.idle r
  · next hah =>
      simp only [namesAfter, if_neg hinit, hah]
      exact ((mapUnmapMultiple_outcome hinv.idle _ _ _).mono fun _ hres => h.mapOnly hres).map
        fun _ hres => hres
  · next hah =>
      simp only [namesAfter, if_neg hinit, hah]
      exact (h.reallocate _ _).map fun _ hres => hres
  · next hah => exact h.handleName env hinit hah
  · next hah =>
      simp only [namesAfter, if_neg hinit, hah]
      split
      · exact h.allocateFn env r
      · exact h
  · next hah =>
      simp only [namesAfter, if_neg hinit, hah]
      exact namesInv_emsReset2 hsize _
  · next hfree hname hreset =>
      simp only [namesAfter, if_neg hinit]
      exact h

/-- The table keeps the names in every step that frees no name but its own. -/
theorem NamesInv.step {n : Names} (h : NamesInv s n) (hinv : MapInv cfg s) {c : EmsCall}
    (hfree : FreesOwn (s, n) c) (hstep : Ems.step cfg s c = some t) :
    NamesInv t (namesAfter s n c) := by
  cases c with
  | fn r env =>
      obtain ⟨rep, hrep, rfl⟩ := Option.map_eq_some_iff.mp hstep
      exact (emsFn_names h hinv r hfree).post hrep
  | emmInit env =>
      simp only [Ems.step, emmInit, Option.some.injEq] at hstep
      rw [← hstep]
      split
      · exact h
      · split
        · exact h
        · split
          · exact h
          · exact h.kept fun _ => ⟨rfl, rfl⟩
  | alterMap method handle mapLen env =>
      exact h.mapOnly (((mapUnmapMultiple_outcome hinv.idle handle method mapLen).map
        fun _ hres => hres).post hstep)
  | apmapRet bySeg handle mapLen env =>
      exact h.mapOnly (((doMapUnmapMulti_outcome hinv.idle bySeg handle mapLen).map
        fun _ hres => hres).post hstep)
  | setAlternate env =>
      exact h.mapOnly (((emmSetMapRegisters_outcome hinv.idle cfg).map
        fun _ hres => hres).post hstep)

/-! ## Runs -/

/-- Without EMS there is not even a handle of the driver. -/
def initNames (cfg : Config) : Names :=
  if cfg.emsSize = 0 then fun _ => none else resetNames

/-- A call frees only its own record and name, and afterwards a search by name
finds what was set. -/
def HandleStep (cfg : Config) (sn : Driver × Names) (c : EmsCall) : Prop :=
  (∀ h, freedBy sn.1 c = some h → FramesOnly sn.1 h) ∧
    ∀ tn, stepNamed cfg sn c = some tn → SearchExact tn.1 tn.2

/-- What the table of handles and the names hold together. -/
structure HandlesInv (cfg : Config) (sn : Driver × Names) : Prop where
  map : MapInv cfg sn.1
  names : NamesInv sn.1 sn.2

theorem handlesInv_init (cfg : Config) (frame : Nat) :
    HandlesInv cfg (emsInit cfg frame, initNames cfg) := by
  refine ⟨mapInv_emsInit cfg frame, ?_⟩
  unfold initNames emsInit
  by_cases hsize : cfg.emsSize = 0
  · rw [if_pos hsize]
    intro h
    left
    simp [emsReset2, hsize]
  · rw [if_neg hsize]
    exact namesInv_emsReset2 hsize _

theorem HandlesInv.step {sn tn : Driver × Names} (h : HandlesInv cfg sn) {c : EmsCall}
    (hfree : FreesOwn sn c) (hstep : stepNamed cfg sn c = some tn) : HandlesInv cfg tn := by
  obtain ⟨t, ht, rfl⟩ := Option.map_eq_some_iff.mp hstep
  exact ⟨mapInv_step h.map ht, h.names.step h.map hfree ht⟩

theorem handleStep_iff {sn : Driver × Names} (h : HandlesInv cfg sn) (c : EmsCall) :
    HandleStep cfg sn c ↔ FreesOwn sn c := by
  constructor
  · rintro ⟨hframes, -⟩ k hk
    exact (framesOnly_iff sn.1 k).mp (hframes k hk)
  · intro hfree
    refine ⟨fun k hk => (framesOnly_iff sn.1 k).mpr (hfree k hk), ?_⟩
    intro tn htn
    exact (h.step hfree htn).names.searchExact

/-- A deallocation leaves the other handles alone exactly when the name it
clears is its own, or there is none to clear; and in the runs where every
deallocation does, a search by name finds what was set and not freed. -/
theorem names_iff (cfg : Config) (frame : Nat) (calls : List EmsCall) :
    (∀ (s : Driver) (h : Fin maxHandles), FramesOnly s h ↔ ClearsOwn s h) ∧
      (Admits (stepNamed cfg) (HandleStep cfg) (emsInit cfg frame, initNames cfg) calls ↔
        Admits (stepNamed cfg) FreesOwn (emsInit cfg frame, initNames cfg) calls) := by
  refine ⟨framesOnly_iff, ?_⟩
  exact admits_congr (HandlesInv cfg) (fun _ _ _ h hfree ht => h.step hfree ht)
    (fun _ c h => handleStep_iff h c) (handlesInv_init cfg frame)

/-- A buffer with a name. -/
def namedEnv : Env :=
  { buf := fun _ => 0x4141, mapping := some 4096, aliased := true, frameFree := true }

/-- Set up the driver, allocate four handles, and give the last one a name. -/
def namedFour : List EmsCall :=
  [.emmInit namedEnv, .fn ⟨0x4300, 1, 0, 0⟩ namedEnv, .fn ⟨0x4300, 1, 0, 0⟩ namedEnv,
    .fn ⟨0x4300, 1, 0, 0⟩ namedEnv, .fn ⟨0x4300, 1, 0, 0⟩ namedEnv,
    .fn ⟨0x5301, 0, 0, 4⟩ namedEnv]

/-- There are four windows, so freeing the first handle takes the name of the
fourth. -/
theorem free_takes_name :
    ¬Admits (stepNamed twoMegabytes) (HandleStep twoMegabytes)
      (emsInit twoMegabytes 0xe000, initNames twoMegabytes)
      (namedFour ++ [.fn ⟨0x4500, 0, 0, 1⟩ namedEnv]) := by
  intro hall
  have heval : ((run (stepNamed twoMegabytes)
      (emsInit twoMegabytes 0xe000, initNames twoMegabytes) namedFour).map fun sn =>
        decide (freedBy sn.1 (.fn ⟨0x4500, 0, 0, 1⟩ namedEnv) = some handleOne ∧
          sn.1.physPages = 4 ∧ (sn.1.handleInfo ⟨4, by decide⟩).name ≠ noName)) = some true := by
    decide +kernel
  rw [Option.map_eq_some_iff] at heval
  obtain ⟨sn, hsn, hprops⟩ := heval
  rw [decide_eq_true_eq] at hprops
  obtain ⟨hfreed, hphys, hname⟩ := hprops
  have hframes := ((admits_append.mp hall).2 sn hsn).1.1 handleOne hfreed
  rcases (framesOnly_iff sn.1 handleOne).mp hframes with hown | ⟨-, hclear⟩
  · rw [hphys] at hown
    exact absurd hown (by decide)
  · exact hname (hclear ⟨4, by decide⟩ (by rw [hphys]; decide))

end Ems
end Dosemu
