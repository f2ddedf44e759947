import Dosemu.Xms.Model
import Dosemu.Lib.Run

/-!
# Accounting of extended memory

`totalBytes` is meant to be what the live handles cost in whole pages, and
`handle_count` their number.  Sizes are computed as 32-bit products and
compared through a signed `int`, so this holds exactly as long as each granted
request, rounded up to pages and added to what is already in use, stays below
2^31.

Main results:

- Theorem `Accounted.free`, `Accounted.lock`, `Accounted.reset`: the calls that
  take no size keep the accounts.
- Theorem `allocate_good_iff` and `resize_good_iff`: the calls that take one
  keep them exactly when the request fits.
- Theorem `accounting_iff`: the same for whole runs.
-/

namespace Dosemu
namespace Xms

open Function
open MachineInt
open Pgalloc
open Run

variable {cfg : Config} {s t : Driver} {r r' : Regs} {env : Env}

/-! ## The accounts -/

/-- What an entry of the handle table costs: whole pages, if it is in use. -/
def Handle.cost (e : Handle) : Nat :=
  if e.addr ≠ 0 then pageUp e.size else 0

/-- One for an entry in use. -/
def Handle.live (e : Handle) : Nat :=
  if e.addr ≠ 0 then 1 else 0

/-- The total is the cost of the live handles and within the quota, and the
count is their number. -/
structure Accounted (cfg : Config) (s : Driver) : Prop where
  total : s.totalBytes = Table.total Handle.cost s.handles
  bound : s.totalBytes ≤ cfg.xmsSize * 1024
  count : s.handleCount = Table.total Handle.live s.handles

theorem Config.quota_eq (cfg : Config) : quota cfg = cfg.xmsSize * 1024 := by
  have hfits := cfg.fits
  unfold lowmemSize at hfits
  have hlt : cfg.xmsSize * 1024 < 2 ^ (32 - 1) := by omega
  have hwrap := swrap_natCast (show 0 < 32 by decide) hlt
  rw [Nat.cast_mul] at hwrap
  exact hwrap

/-- The total is a small non-negative number. -/
theorem Accounted.range (h : Accounted cfg s) : 0 ≤ s.totalBytes ∧ s.totalBytes < 2 ^ 31 := by
  have hfits := cfg.fits
  unfold lowmemSize at hfits
  have htotal := h.total
  have hbound := h.bound
  constructor <;> omega

/-- A live handle costs no more than the total. -/
theorem Accounted.cost_le (h : Accounted cfg s) (i : Fin numHandles) :
    ((s.handles i).cost : Int) ≤ s.totalBytes := by
  rw [h.total]
  exact_mod_cast Table.weight_le_total Handle.cost s.handles i

/-- The size of a live handle is rounded without a wrap. -/
theorem Accounted.pageAlign_size (h : Accounted cfg s) {i : Fin numHandles}
    (hlive : (s.handles i).addr ≠ 0) :
    pageAlign32 (s.handles i).size = (s.handles i).cost := by
  have hcost := h.cost_le i
  have hrange := h.range
  have hup := le_pageUp (s.handles i).size
  rw [Handle.cost, if_pos hlive] at hcost ⊢
  exact pageAlign32_eq (by omega)

/-- Only the tables and the two counters matter. -/
theorem Accounted.congr (h : Accounted cfg s) (hhandles : t.handles = s.handles)
    (htotal : t.totalBytes = s.totalBytes) (hcount : t.handleCount = s.handleCount) :
    Accounted cfg t := by
  constructor
  · rw [htotal, hhandles, h.total]
  · rw [htotal]
    exact h.bound
  · rw [hcount, hhandles, h.count]

/-- Overwriting an entry exchanges its share of the accounts. -/
theorem Accounted.replace (h : Accounted cfg s) {i : Fin numHandles} {e : Handle}
    (hhandles : t.handles = update s.handles i e)
    (htotal : t.totalBytes + (s.handles i).cost = s.totalBytes + e.cost)
    (hcount : t.handleCount + (s.handles i).live = s.handleCount + e.live)
    (hbound : t.totalBytes ≤ cfg.xmsSize * 1024) : Accounted cfg t := by
  have hcost := Table.total_update Handle.cost s.handles i e
  have hlive := Table.total_update Handle.live s.handles i e
  have hsum := h.total
  have hnum := h.count
  refine ⟨?_, hbound, ?_⟩
  · rw [hhandles]
    omega
  · rw [hhandles]
    omega

/-- Between two accounted states that differ in one entry, the total has
changed by the cost of that entry. -/
theorem Accounted.exchange (h : Accounted cfg s) (ht : Accounted cfg t) {i : Fin numHandles}
    {e : Handle} (hhandles : t.handles = update s.handles i e) :
    t.totalBytes + (s.handles i).cost = s.totalBytes + e.cost := by
  have hcost := Table.total_update Handle.cost s.handles i e
  rw [h.total, ht.total, hhandles]
  exact_mod_cast hcost

/-- An entry that keeps its size and address keeps the accounts. -/
theorem Accounted.relock (h : Accounted cfg s) {i : Fin numHandles} {e : Handle}
    (hhandles : t.handles = update s.handles i e) (htotal : t.totalBytes = s.totalBytes)
    (hcount : t.handleCount = s.handleCount) (haddr : e.addr = (s.handles i).addr)
    (hsize : e.size = (s.handles i).size) : Accounted cfg t := by
  apply h.replace hhandles
  · rw [htotal, Handle.cost, Handle.cost, haddr, hsize]
  · rw [hcount, Handle.live, Handle.live, haddr]
  · rw [htotal]
    exact h.bound

/-! ## Handles -/

theorem validHandle_eq_some {h : Nat} {i : Fin numHandles} :
    validHandle s h = some i ↔ i.val = h ∧ (s.handles i).addr ≠ 0 := by
  unfold validHandle
  constructor
  · intro heq
    split at heq
    next hlt =>
      split at heq
      next hlive =>
        cases heq
        exact ⟨rfl, hlive⟩
      next => cases heq
    next => cases heq
  · rintro ⟨rfl, hlive⟩
    rw [dif_pos i.isLt, if_pos hlive]

theorem findFreeHandle_eq_some {start : Nat} {i : Fin numHandles}
    (h : findFreeHandle s start = some i) : start ≤ i.val ∧ (s.handles i).addr = 0 := by
  have hfound := List.find?_some h
  simpa using hfound

/-! ## Calls that take no size -/

theorem doFreeEMB_eq {i : Fin numHandles} (h : doFreeEMB cfg s i = some t) :
    t.handles = update s.handles i { s.handles i with dst := 0, addr := 0 } ∧
      t.totalBytes = s.totalBytes ∧ t.handleCount = s.handleCount := by
  simp only [doFreeEMB, Option.bind_eq_bind, Option.bind_eq_some_iff] at h
  obtain ⟨pool, -, heq⟩ := h
  cases heq
  exact ⟨rfl, rfl, rfl⟩

/-- A freed handle is taken off the accounts. -/
theorem Accounted.free (h : Accounted cfg s) {err : Nat}
    (hfree : xmsFreeEMB cfg s r = some (err, t, r')) : Accounted cfg t := by
  unfold xmsFreeEMB at hfree
  split at hfree
  next =>
    cases hfree
    exact h
  next i hvalid =>
    obtain ⟨-, hlive⟩ := validHandle_eq_some.mp hvalid
    simp only [Option.bind_eq_bind, Option.bind_eq_some_iff] at hfree
    obtain ⟨u, hu, heq⟩ := hfree
    obtain ⟨hhandles, htotal, hcount⟩ := doFreeEMB_eq hu
    cases heq
    have hrange := h.range
    have hle := h.cost_le i
    have hbound := h.bound
    have hdiff : swrap 32 (s.totalBytes - pageAlign32 (s.handles i).size) =
        s.totalBytes - (s.handles i).cost := by
      rw [h.pageAlign_size hlive]
      exact swrap_of_range (by decide) (by omega) (by omega)
    simp only [hdiff] at htotal hhandles hcount
    refine h.replace (show _ = _ from hhandles) ?_ ?_ ?_
    · simp [htotal, Handle.cost]
    · simp [hcount, Handle.live, hlive]
    · simp only [htotal]
      omega

/-- Locking and unlocking change neither sizes nor addresses. -/
theorem Accounted.lock (h : Accounted cfg s) {flag : Bool} {err : Nat}
    (hlock : xmsLockEMB cfg env flag s r = some (err, t, r')) : Accounted cfg t := by
  unfold xmsLockEMB at hlock
  split at hlock
  next =>
    cases hlock
    exact h
  next i hvalid =>
    split at hlock
    next =>
      simp only [lockEMB, Option.bind_eq_bind, Option.bind_eq_some_iff] at hlock
      obtain ⟨⟨addr, pool⟩, -, heq⟩ := hlock
      simp only at heq
      split at heq
      next =>
        cases heq
        exact h.relock rfl rfl rfl rfl rfl
      next =>
        cases heq
        exact h.congr rfl rfl rfl
    next =>
      unfold unlockEMB at hlock
      simp only at hlock
      split at hlock
      next =>
        cases hlock
        exact h
      next =>
        split at hlock
        next =>
          simp only [Option.bind_eq_bind, Option.bind_eq_some_iff] at hlock
          obtain ⟨pool, -, heq⟩ := hlock
          cases heq
          exact h.relock rfl rfl rfl rfl rfl
        next =>
          cases hlock
          exact h.relock rfl rfl rfl rfl rfl

/-- The loop of the reset frees the handles it visits. -/
theorem freeAllEMB_addr {hs : List (Fin numHandles)} (h : freeAllEMB cfg s hs = some t)
    {i : Fin numHandles} (hi : i ∈ hs ∨ (s.handles i).addr = 0) : (t.handles i).addr = 0 := by
  induction hs generalizing s with
  | nil =>
      cases h
      simpa using hi
  | cons j hs ih =>
      simp only [freeAllEMB, Option.bind_eq_some_iff] at h
      obtain ⟨u, hu, hrest⟩ := h
      obtain ⟨hhandles, -, -⟩ := doFreeEMB_eq hu
      apply ih hrest
      rw [hhandles]
      by_cases hij : i = j
      · right
        rw [hij, update_self]
      · rw [update_of_ne hij]
        rcases hi with hmem | hzero
        · left
          exact (List.mem_cons.mp hmem).resolve_left hij
        · right
          exact hzero

/-- After a reset there is nothing to account for. -/
theorem accounted_reset (hreset : xmsReset cfg s = some t) : Accounted cfg t := by
  simp only [xmsReset, Option.map_eq_some_iff] at hreset
  obtain ⟨u, hu, heq⟩ := hreset
  subst heq
  have hfree : ∀ i, (u.handles i).addr = 0 := fun i =>
    freeAllEMB_addr hu (Or.inl (List.mem_finRange i))
  have hcost : Table.total Handle.cost u.handles = 0 :=
    Table.total_eq_zero fun i => by simp [Handle.cost, hfree i]
  have hlive : Table.total Handle.live u.handles = 0 :=
    Table.total_eq_zero fun i => by simp [Handle.live, hfree i]
  constructor
  · simp [hcost]
  · simp
  · simp [hlive]

/-! ## Calls that take a size -/

/-- The request of an allocate call passes every test of the code, as the code
computes them. -/
def AllocGranted (cfg : Config) (s : Driver) (env : Env) (kb : Nat) : Prop :=
  (findFreeHandle s firstHandle).isSome ∧ kb ≠ 0 ∧
    allocOverQuota cfg s (kbBytes kb) = false ∧ xmsAlloc env ≠ 0

/-- The request of a resize call for an entry passes every test of the code, or
asks for the size the code believes the entry has. -/
def ReallocGranted (cfg : Config) (s : Driver) (env : Env) (e : Handle) (kb : Nat) : Prop :=
  e.lockcount = 0 ∧ (kbBytes kb = e.size ∨
    (reallocOverQuota cfg s e (kbBytes kb) = false ∧ xmsAlloc env ≠ 0))

/-- The state after a granted allocation. -/
def allocated (s : Driver) (h : Fin numHandles) (size addr : Nat) : Driver :=
  { s with
    handles := update s.handles h
      { s.handles h with num := h, size := size, addr := addr, lockcount := 0 }
    totalBytes := swrap 32 (s.totalBytes + pageAlign32 size)
    handleCount := s.handleCount + 1 }

/-- The state after a granted change of size. -/
def resized (s : Driver) (h : Fin numHandles) (size addr : Nat) : Driver :=
  { s with
    handles := update s.handles h { s.handles h with addr := addr, size := size }
    totalBytes := swrap 32 (s.totalBytes + reallocDelta (s.handles h) size) }

/-- An allocate call fails and changes nothing, or it is granted. -/
theorem xmsAllocateEMB_cases (cfg : Config) (hdrv : s.intdrv = true) (api : Api) (env : Env) (r : Regs) :
    (¬AllocGranted cfg s env (allocKb api r) ∧
        ∃ err, err ≠ 0 ∧ err < 256 ∧ xmsAllocateEMB cfg api env s r = (err, s, r)) ∨
      (AllocGranted cfg s env (allocKb api r) ∧
        ∃ h r', findFreeHandle s firstHandle = some h ∧ lword r'.edx = h ∧
          xmsAllocateEMB cfg api env s r =
            (0, allocated s h (kbBytes (allocKb api r)) (xmsAlloc env), r')) := by
  unfold xmsAllocateEMB AllocGranted
  simp only [hdrv, Bool.not_true, Bool.false_eq_true, if_false]
  cases hfind : findFreeHandle s firstHandle with
  | none => simp
  | some h =>
      by_cases hkb : allocKb api r = 0
      · simp [hkb]
      · by_cases hover : allocOverQuota cfg s (kbBytes (allocKb api r)) = true
        · simp [hkb, hover]
        · by_cases haddr : xmsAlloc env = 0
          · simp [hkb, hover, haddr]
          · right
            have hlt : h.val < 2 ^ 16 := lt_trans h.isLt (by decide)
            refine ⟨by simp [hkb, hover, haddr], h, ?_⟩
            cases api with
            | oldxms =>
                refine ⟨{ r with edx := setLword r.edx h }, rfl, ?_, ?_⟩
                · simp only [lword, setLword, BitVec.toNat_ofNat]
                  omega
                · simp [hkb, hover, haddr, hdrv, allocated, Driver.setHandle]
            | newxms =>
                refine ⟨{ r with edx := BitVec.ofNat 32 h }, rfl, ?_, ?_⟩
                · simp only [lword, BitVec.toNat_ofNat]
                  omega
                · simp [hkb, hover, haddr, hdrv, allocated, Driver.setHandle]

theorem kbBytes_eq {kb : Nat} (h : kb * 1024 < 2 ^ 32) : kbBytes kb = kb * 1024 := by
  have hwrap := uwrap_natCast h
  rw [Nat.cast_mul] at hwrap
  exact hwrap

/-- What the accounts and the sizes need of a request: added to the bytes in
use, it stays in the range of `int`. -/
def Fits (used : Int) (kb : Nat) : Prop :=
  used + pageUp (kb * 1024) < 2 ^ 31

/-- A request that fits is computed without a wrap. -/
theorem Fits.exact {used : Int} {kb : Nat} (h : Fits used kb) (hused : 0 ≤ used) :
    kbBytes kb = kb * 1024 ∧ pageAlign32 (kbBytes kb) = pageUp (kb * 1024) := by
  unfold Fits at h
  have hup := le_pageUp (kb * 1024)
  have hbytes : kbBytes kb = kb * 1024 := kbBytes_eq (by omega)
  rw [hbytes]
  exact ⟨rfl, pageAlign32_eq (by omega)⟩

/-- A granted allocation keeps the accounts and gives the size asked for
exactly when the request fits. -/
theorem allocated_good_iff (h : Accounted cfg s) {i : Fin numHandles} {kb addr : Nat}
    (hfree : (s.handles i).addr = 0) (haddr : addr ≠ 0)
    (hquota : allocOverQuota cfg s (kbBytes kb) = false) :
    (Accounted cfg (allocated s i (kbBytes kb) addr) ∧ kbBytes kb = kb * 1024) ↔
      Fits s.totalBytes kb := by
  have hrange := h.range
  have hold : (s.handles i).cost = 0 := by simp [Handle.cost, hfree]
  have hnew : ∀ size, Handle.cost
      { s.handles i with num := i, size := size, addr := addr, lockcount := 0 } = pageUp size := by
    intro size
    simp [Handle.cost, haddr]
  constructor
  · rintro ⟨hacc, hexact⟩
    have hchange := h.exchange hacc (show _ = _ from rfl)
    have hlt := hacc.range.2
    rw [hnew, hold, hexact] at hchange
    rw [hexact] at hlt
    unfold Fits
    omega
  · intro hfits
    obtain ⟨hbytes, hround⟩ := hfits.exact hrange.1
    unfold Fits at hfits
    have hsum : swrap 32 (s.totalBytes + pageUp (kb * 1024)) =
        s.totalBytes + pageUp (kb * 1024) :=
      swrap_of_range (by decide) (by omega) (by omega)
    have hint : swrap 32 (pageUp (kb * 1024)) = pageUp (kb * 1024) :=
      swrap_natCast (by decide) (by omega)
    refine ⟨?_, hbytes⟩
    refine h.replace (show _ = _ from rfl) ?_ ?_ ?_
    · simp only [allocated]
      rw [hround, hsum, hnew, hold, hbytes]
      simp
    · simp [allocated, Handle.live, hfree, haddr]
    · unfold allocOverQuota at hquota
      rw [hround, hint, hsum, cfg.quota_eq] at hquota
      simp only [allocated]
      rw [hround, hsum]
      simpa using hquota

/-- A granted change of size does the same. -/
theorem resized_good_iff (h : Accounted cfg s) {i : Fin numHandles} {kb addr : Nat}
    (hlive : (s.handles i).addr ≠ 0) (haddr : addr ≠ 0)
    (hquota : reallocOverQuota cfg s (s.handles i) (kbBytes kb) = false) :
    (Accounted cfg (resized s i (kbBytes kb) addr) ∧ kbBytes kb = kb * 1024) ↔
      Fits (s.totalBytes - (s.handles i).cost) kb := by
  have hrange := h.range
  have hle := h.cost_le i
  have hnew : ∀ size, Handle.cost { s.handles i with addr := addr, size := size } =
      pageUp size := by
    intro size
    simp [Handle.cost, haddr]
  constructor
  · rintro ⟨hacc, hexact⟩
    have hchange := h.exchange hacc (show _ = _ from rfl)
    have hlt := hacc.range.2
    rw [hnew, hexact] at hchange
    rw [hexact] at hlt
    unfold Fits
    omega
  · intro hfits
    obtain ⟨hbytes, hround⟩ := hfits.exact (by omega)
    unfold Fits at hfits
    -- The unsigned difference, read as an `int`, is the difference of the costs.
    have hdelta : reallocDelta (s.handles i) (kbBytes kb) =
        (pageUp (kb * 1024) : Int) - (s.handles i).cost := by
      unfold reallocDelta
      rw [hround, h.pageAlign_size hlive]
      exact swrap_uwrap (by decide) (by omega) (by omega)
    have hsum : swrap 32 (s.totalBytes + ((pageUp (kb * 1024) : Int) - (s.handles i).cost)) =
        s.totalBytes + ((pageUp (kb * 1024) : Int) - (s.handles i).cost) :=
      swrap_of_range (by decide) (by omega) (by omega)
    refine ⟨?_, hbytes⟩
    refine h.replace (show _ = _ from rfl) ?_ ?_ ?_
    · simp only [resized]
      rw [hdelta, hsum, hnew, hbytes]
      ring
    · simp [resized, Handle.live, hlive, haddr]
    · unfold reallocOverQuota at hquota
      rw [hdelta, hsum, cfg.quota_eq, Bool.or_eq_false_iff] at hquota
      simp only [resized]
      rw [hdelta, hsum]
      simpa using hquota.2

/-- A resize call for a valid handle fails and changes nothing, finds the size
it was asked for, or changes the size. -/
theorem xmsReallocEMB_cases (cfg : Config) {i : Fin numHandles} (api : Api) (env : Env)
    (hvalid : validHandle s (lword r.edx) = some i) :
    (¬ReallocGranted cfg s env (s.handles i) (reallocKb api r) ∧
        ∃ err, err ≠ 0 ∧ err < 256 ∧ xmsReallocEMB cfg api env s r = (err, s, r)) ∨
      (ReallocGranted cfg s env (s.handles i) (reallocKb api r) ∧
        kbBytes (reallocKb api r) = (s.handles i).size ∧
        xmsReallocEMB cfg api env s r = (0, s, r)) ∨
      (ReallocGranted cfg s env (s.handles i) (reallocKb api r) ∧ xmsAlloc env ≠ 0 ∧
        reallocOverQuota cfg s (s.handles i) (kbBytes (reallocKb api r)) = false ∧
        xmsReallocEMB cfg api env s r =
          (0, resized s i (kbBytes (reallocKb api r)) (xmsAlloc env), r)) := by
  unfold xmsReallocEMB ReallocGranted
  simp only [hvalid]
  by_cases hlock : (s.handles i).lockcount = 0
  · by_cases hsame : kbBytes (reallocKb api r) = (s.handles i).size
    · simp [hlock, hsame]
    · by_cases hover :
          reallocOverQuota cfg s (s.handles i) (kbBytes (reallocKb api r)) = true
      · simp [hlock, hsame, hover]
      · by_cases haddr : xmsAlloc env = 0
        · simp [hlock, hsame, hover, haddr]
        · simp [hlock, hsame, hover, haddr, resized, Driver.setHandle]
  · simp [hlock]

/-! ## Steps and runs -/

/-- If a call reports success, an allocate gives the handle it returns, and a
resize the handle it was given, exactly the requested kilobytes. -/
def ExactSize (cfg : Config) (s : Driver) : XmsCall → Prop
  | .control r env => s.intdrv = true → ∀ t r', xmsControl cfg env s r = some (t, r') →
      lword r'.eax = 1 →
        match XmsFn.ofAh (hiByte r.eax) with
        | some (.allocate api) => ∃ h, validHandle t (lword r'.edx) = some h ∧
            (t.handles h).size = allocKb api r * 1024
        | some (.resize api) => ∃ h, validHandle t (lword r.edx) = some h ∧
            (t.handles h).size = reallocKb api r * 1024
        | _ => True
  | _ => True

/-- What a call must meet: a granted request fits beside the bytes in use (for
a resize, those of the other handles). -/
def RequestFits (cfg : Config) (s : Driver) : XmsCall → Prop
  | .control r env => s.intdrv = true →
      match XmsFn.ofAh (hiByte r.eax) with
      | some (.allocate api) =>
          AllocGranted cfg s env (allocKb api r) → Fits s.totalBytes (allocKb api r)
      | some (.resize api) => ∀ h, validHandle s (lword r.edx) = some h →
          ReallocGranted cfg s env (s.handles h) (reallocKb api r) →
          Fits (s.totalBytes - (s.handles h).cost) (reallocKb api r)
      | _ => True
  | _ => True

/-- The accounts hold after the call, and a successful request is given the
size it asked for. -/
def GoodStep (cfg : Config) (s : Driver) (c : XmsCall) : Prop :=
  ∀ t, step cfg s c = some t → Accounted cfg t ∧ ExactSize cfg s c

theorem xmsRet_ok (s : Driver) (r : Regs) :
    xmsRet (0, s, r) = (s, { r with eax := setLword r.eax 1 }) := by
  simp [xmsRet]

theorem xmsRet_err {err : Nat} (herr : err ≠ 0) (s : Driver) (r : Regs) :
    (xmsRet (err, s, r)).1 = s ∧ lword (xmsRet (err, s, r)).2.eax = 0 := by
  simp only [xmsRet, herr, ne_eq, not_false_eq_true, if_true, lword, setLword,
    BitVec.toNat_ofNat, true_and]
  omega

theorem lword_setLword_one (r : BitVec 32) : lword (setLword r 1) = 1 := by
  simp only [lword, setLword, BitVec.toNat_ofNat]
  have := r.isLt
  omega

/-- The dispatcher on a selected function. -/
theorem xmsControl_eq {fn : XmsFn} (hdrv : s.intdrv = true)
    (hfn : XmsFn.ofAh (hiByte r.eax) = some fn) :
    xmsControl cfg env s r = (callFn cfg fn env s r).map xmsRet := by
  simp [xmsControl, hdrv, hfn]

/-- An allocate call is good exactly when its request fits. -/
theorem allocate_good_iff (h : Accounted cfg s) (hdrv : s.intdrv = true) {api : Api}
    (hfn : XmsFn.ofAh (hiByte r.eax) = some (.allocate api)) :
    RequestFits cfg s (.control r env) ↔ GoodStep cfg s (.control r env) := by
  simp only [RequestFits, GoodStep, ExactSize, step, xmsControl_eq hdrv hfn, callFn, hfn, hdrv,
    Option.map_some, Option.some.injEq, forall_eq', forall_true_left]
  rcases xmsAllocateEMB_cases cfg hdrv api env r with
    ⟨hrefused, err, herr, -, heq⟩ | ⟨hgranted, i, r', hfind, hedx, heq⟩
  · -- A refused request changes nothing and is not reported as a success.
    obtain ⟨hstate, heax⟩ := xmsRet_err herr s r
    rw [heq, hstate]
    refine ⟨fun _ => ⟨h, ?_⟩, fun _ hgranted => absurd hgranted hrefused⟩
    intro t r' hret hone
    rw [hret, hone] at heax
    cases heax
  · obtain ⟨-, hfree⟩ := findFreeHandle_eq_some hfind
    have hpassed := hgranted
    obtain ⟨-, -, hquota, haddr⟩ := hpassed
    have hiff := allocated_good_iff h hfree haddr hquota
    have hentry : validHandle (allocated s i (kbBytes (allocKb api r)) (xmsAlloc env)) i =
        some i := by
      rw [validHandle_eq_some]
      simp [allocated, haddr]
    rw [heq, xmsRet_ok]
    constructor
    · intro hfits
      obtain ⟨hacc, hexact⟩ := hiff.mpr (hfits hgranted)
      refine ⟨hacc, ?_⟩
      intro t r'' hret _
      cases hret
      refine ⟨i, by rw [hedx, hentry], ?_⟩
      simp [allocated, hexact]
    · rintro ⟨hacc, hexact⟩ _
      obtain ⟨j, hj, hsize⟩ := hexact _ _ rfl (lword_setLword_one _)
      simp only [hedx, hentry, Option.some.injEq] at hj
      subst hj
      simp only [allocated, update_self] at hsize
      exact hiff.mp ⟨hacc, hsize⟩

/-- A resize call is good exactly when its request fits. -/
theorem resize_good_iff (h : Accounted cfg s) (hdrv : s.intdrv = true) {api : Api}
    (hfn : XmsFn.ofAh (hiByte r.eax) = some (.resize api)) :
    RequestFits cfg s (.control r env) ↔ GoodStep cfg s (.control r env) := by
  simp only [RequestFits, GoodStep, ExactSize, step, xmsControl_eq hdrv hfn, callFn, hfn, hdrv,
    Option.map_some, Option.some.injEq, forall_eq', forall_true_left]
  cases hvalid : validHandle s (lword r.edx) with
  | none =>
      have heq : xmsReallocEMB cfg api env s r = (0xa2, s, r) := by simp [xmsReallocEMB, hvalid]
      obtain ⟨hstate, heax⟩ := xmsRet_err (show 0xa2 ≠ 0 by decide) s r
      rw [heq, hstate]
      refine ⟨fun _ => ⟨h, ?_⟩, fun _ i hi => by cases hi⟩
      intro t r' hret hone
      rw [hret, hone] at heax
      cases heax
  | some i =>
      obtain ⟨hedx, hlive⟩ := validHandle_eq_some.mp hvalid
      simp only [Option.some.injEq, forall_eq']
      rcases xmsReallocEMB_cases cfg api env hvalid with
        ⟨hrefused, err, herr, -, heq⟩ | ⟨hgranted, hsame, heq⟩ | ⟨hgranted, haddr, hquota, heq⟩
      · obtain ⟨hstate, heax⟩ := xmsRet_err herr s r
        rw [heq, hstate]
        refine ⟨fun _ => ⟨h, ?_⟩, fun _ hgranted => absurd hgranted hrefused⟩
        intro t r' hret hone
        rw [hret, hone] at heax
        cases heax
      · -- The code takes the wrapped size for the old one.
        have hrange := h.range
        have hle := h.cost_le i
        rw [heq, xmsRet_ok]
        constructor
        · intro hfits
          refine ⟨h, ?_⟩
          intro t r' hret _
          cases hret
          refine ⟨i, hvalid, ?_⟩
          rw [← hsame]
          exact ((hfits hgranted).exact (by omega)).1
        · rintro ⟨-, hexact⟩ _
          obtain ⟨j, hj, hsize⟩ := hexact _ _ rfl (lword_setLword_one _)
          rw [hvalid] at hj
          cases hj
          unfold Fits
          rw [← hsize]
          rw [Handle.cost, if_pos hlive]
          omega
      · have hiff := resized_good_iff h hlive haddr hquota
        have hentry : validHandle (resized s i (kbBytes (reallocKb api r)) (xmsAlloc env))
            (lword r.edx) = some i := by
          rw [validHandle_eq_some]
          simp [resized, haddr, hedx]
        rw [heq, xmsRet_ok]
        constructor
        · intro hfits
          obtain ⟨hacc, hexact⟩ := hiff.mpr (hfits hgranted)
          refine ⟨hacc, ?_⟩
          intro t r' hret _
          cases hret
          refine ⟨i, hentry, ?_⟩
          simp [resized, hexact]
        · rintro ⟨hacc, hexact⟩ _
          obtain ⟨j, hj, hsize⟩ := hexact _ _ rfl (lword_setLword_one _)
          rw [hentry] at hj
          cases hj
          simp only [resized, update_self] at hsize
          exact hiff.mp ⟨hacc, hsize⟩

theorem xmsRet_fst (res : Nat × Driver × Regs) : (xmsRet res).1 = res.2.1 := by
  obtain ⟨err, s, r⟩ := res
  simp only [xmsRet]
  split <;> rfl

/-- A call of a function that keeps the accounts. -/
theorem accounted_of_callFn {fn : XmsFn} (hdrv : s.intdrv = true)
    (hfn : XmsFn.ofAh (hiByte r.eax) = some fn)
    (hkeep : ∀ err t r', callFn cfg fn env s r = some (err, t, r') → Accounted cfg t)
    (hstep : step cfg s (.control r env) = some t) : Accounted cfg t := by
  simp only [step, xmsControl_eq hdrv hfn, Option.map_map, Option.map_eq_some_iff] at hstep
  obtain ⟨⟨err, u, r'⟩, hcall, heq⟩ := hstep
  rw [comp_apply, xmsRet_fst] at heq
  subst heq
  exact hkeep err u r' hcall

/-- From accounted states, a step is good exactly when its request fits. -/
theorem step_good_iff (h : Accounted cfg s) (c : XmsCall) :
    RequestFits cfg s c ↔ GoodStep cfg s c := by
  cases c with
  | control r env =>
      by_cases hdrv : s.intdrv = true
      · cases hfn : XmsFn.ofAh (hiByte r.eax) with
        | none =>
            have heq : xmsControl cfg env s r = some (s, r) := by simp [xmsControl, hfn]
            simp [RequestFits, GoodStep, ExactSize, step, hfn, heq, h]
        | some fn =>
            -- The other functions carry no condition and promise no size.
            have hother : (∀ t, step cfg s (.control r env) = some t → Accounted cfg t) →
                (∀ api, fn ≠ .allocate api) → (∀ api, fn ≠ .resize api) →
                (RequestFits cfg s (.control r env) ↔ GoodStep cfg s (.control r env)) := by
              intro hkeep halloc hresize
              have hfits : RequestFits cfg s (.control r env) := by
                cases fn <;> simp_all [RequestFits]
              have hexact : ExactSize cfg s (.control r env) := by
                cases fn <;> simp_all [ExactSize]
              exact iff_of_true hfits fun t ht => ⟨hkeep t ht, hexact⟩
            cases fn with
            | allocate api => exact allocate_good_iff h hdrv hfn
            | resize api => exact resize_good_iff h hdrv hfn
            | free =>
                refine hother (fun t ht => accounted_of_callFn hdrv hfn ?_ ht) (by simp) (by simp)
                intro err u r' hcall
                exact h.free hcall
            | lock =>
                refine hother (fun t ht => accounted_of_callFn hdrv hfn ?_ ht) (by simp) (by simp)
                intro err u r' hcall
                exact h.lock hcall
            | unlock =>
                refine hother (fun t ht => accounted_of_callFn hdrv hfn ?_ ht) (by simp) (by simp)
                intro err u r' hcall
                exact h.lock hcall
            | info api =>
                refine hother (fun t ht => accounted_of_callFn hdrv hfn ?_ ht) (by simp) (by simp)
                intro err u r' hcall
                simp only [callFn, xmsEMBInfo] at hcall
                split at hcall <;> cases hcall <;> exact h
      · have heq : xmsControl cfg env s r = some (s, r) := by simp [xmsControl, hdrv]
        simp [RequestFits, GoodStep, ExactSize, step, hdrv, heq, h]
  | helperInit =>
      have hkeep : Accounted cfg (xmsHelperInit cfg s) := by
        unfold xmsHelperInit
        split
        · exact h
        · split
          · exact h
          · exact h.congr rfl rfl rfl
      simp [RequestFits, GoodStep, ExactSize, step, hkeep]
  | localReset =>
      have hkeep : Accounted cfg { s with intdrv := false } := h.congr rfl rfl rfl
      simp [RequestFits, GoodStep, ExactSize, step, hkeep]
  | reset =>
      simp only [RequestFits, GoodStep, ExactSize, step, and_true, true_iff]
      exact fun t ht => accounted_reset ht

/-- Before the first call there is nothing to account for. -/
theorem accounted_xmsInit (cfg : Config) : Accounted cfg (xmsInit cfg) := by
  have hcost : Table.total Handle.cost (xmsInit cfg).handles = 0 :=
    Table.total_eq_zero fun i => by simp [xmsInit, zeroHandle, Handle.cost]
  have hlive : Table.total Handle.live (xmsInit cfg).handles = 0 :=
    Table.total_eq_zero fun i => by simp [xmsInit, zeroHandle, Handle.live]
  constructor
  · rw [hcost]
    rfl
  · have hzero : (xmsInit cfg).totalBytes = 0 := rfl
    rw [hzero]
    exact Int.mul_nonneg (Int.natCast_nonneg _) (by decide)
  · rw [hlive]
    rfl

/-- In a run of calls, every state reached is accounted for and every granted
request gets the size it asked for, exactly when every granted request fits
beside the bytes in use. -/
theorem accounting_iff (cfg : Config) (calls : List XmsCall) :
    Admits (step cfg) (GoodStep cfg) (xmsInit cfg) calls ↔
      Admits (step cfg) (RequestFits cfg) (xmsInit cfg) calls :=
  admits_congr (Accounted cfg) (fun _ c t h hfits ht => ((step_good_iff h c).mp hfits t ht).1)
    (fun _ c h => (step_good_iff h c).symm) (accounted_xmsInit cfg)

/-- A megabyte of extended memory beside the high memory area. -/
def oneMegabyte : Config :=
  { xmsSize := 1024, extMem := 64, fits := by decide }

/-- Function 89h asking for 4194305 kilobytes, a kilobyte beyond 2^32 bytes. -/
def askBeyond4G : Regs :=
  { eax := 0x8900, ebx := 0, ecx := 0, edx := 0x400001 }

/-- The wrapped product is one kilobyte, and the request is granted. -/
theorem beyond4G_granted :
    ¬Admits (step oneMegabyte) (GoodStep oneMegabyte) (xmsInit oneMegabyte)
      [.helperInit, .control askBeyond4G ⟨some 4096, true⟩] := by
  rintro ⟨hinit, hrest⟩
  obtain ⟨hacc, -⟩ := hinit _ rfl
  have hfits := (step_good_iff hacc (.control askBeyond4G ⟨some 4096, true⟩)).mpr
    (hrest _ rfl).1
  have hgranted : AllocGranted oneMegabyte (xmsHelperInit oneMegabyte (xmsInit oneMegabyte))
      ⟨some 4096, true⟩ 4194305 := by
    unfold AllocGranted
    decide +kernel
  have hlt : Fits 0 4194305 := hfits rfl hgranted
  revert hlt
  unfold Fits
  decide +kernel

end Xms
end Dosemu
