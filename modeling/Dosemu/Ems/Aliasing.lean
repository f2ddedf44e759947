import Dosemu.Ems.Steps

/-!
# The page map and the windows

A window should show the page its map entry names, and its own conventional
memory when the entry is empty.  Mapping, deallocation and reallocation
re-establish this entry by entry.  A reset only deallocates the handles that
were given out: a page of the system handle that was mapped elsewhere stays in
its window while the entry is emptied.

Main results:

- Theorem `AliasInv.change`: every change but a reset keeps the windows right.
- Theorem `emsReset_aliased_iff`: a reset does exactly when each window with a
  page of the system handle shows its own memory.
- Theorem `aliasing_iff`: the same for whole runs.
-/

namespace Dosemu
namespace Ems

open Function
open Run

variable {cfg : Config} {frame : Nat} {s t u : Driver}

/-- The number of configured windows. -/
def Config.windows (cfg : Config) : Nat :=
  if cfg.emsSize = 0 then 0 else cfg.cnvPages + cfg.umaPages

/-- Every window shows what its entry names. -/
def Aliased (cfg : Config) (s : Driver) : Prop :=
  ∀ i, i < cfg.windows → s.backing i = shownAddr s i

/-- The address of the conventional memory that the system handle owns. -/
def osObject (cfg : Config) : Nat :=
  (0xa000 - 0x400 * cfg.cnvPages) * 16

/-- The windows are right, and what keeps them so. -/
structure AliasInv (cfg : Config) (frame : Nat) (s : Driver) : Prop extends MapInv cfg s where
  seg : ∀ i, (s.emmMap i).physSeg = windowSeg cfg frame i
  os : cfg.emsSize ≠ 0 → (s.handleInfo osHandle).object = osObject cfg
  shown : Aliased cfg s

/-! ## Windows -/

theorem shownAddr_of_null {i : Nat} (h : (s.emmMap i).handle = nullHandle) :
    shownAddr s i = s.physPageAddr i := by
  simp only [shownAddr, h, handleIndex_null]

theorem shownAddr_of_handle {i : Nat} {k : Fin maxHandles} (h : (s.emmMap i).handle = k) :
    shownAddr s i = (s.handleInfo k).object + (s.emmMap i).logicalPage * emmPageSize := by
  have hidx : handleIndex (s.emmMap i).handle = some k := handleIndex_eq_some.mpr h.symm
  simp only [shownAddr, hidx]

theorem windows_lt {i : Nat} (hi : i < cfg.windows) :
    cfg.emsSize ≠ 0 ∧ i < cfg.cnvPages + cfg.umaPages := by
  unfold Config.windows at hi
  split at hi
  · omega
  · next hsize => exact ⟨hsize, hi⟩

theorem MapInv.entry (h : MapInv cfg s) {i : Nat} (hi : i < cfg.windows) : MapOk s (s.emmMap i) :=
  h.map (windows_lt hi).1 i (windows_lt hi).2

/-- Overwriting the record of a handle does not concern the windows that show
other pages. -/
theorem shownAddr_update {i : Nat} {k : Fin maxHandles} {r : HandleRecord}
    (hinfo : t.handleInfo = update s.handleInfo k r) (hmap : t.emmMap i = s.emmMap i)
    (hother : (s.emmMap i).handle = k → r.object = (s.handleInfo k).object) :
    shownAddr t i = shownAddr s i := by
  cases hidx : handleIndex (s.emmMap i).handle with
  | none => simp only [shownAddr, hmap, hidx, Driver.physPageAddr]
  | some m =>
      simp only [shownAddr, hmap, hidx, hinfo]
      by_cases hm : m = k
      · subst hm
        rw [update_self, hother (handleIndex_eq_some.mp hidx).symm]
      · rw [update_of_ne hm]

/-! ## Changes -/

theorem MapOnly.aliased (hmap : MapOnly s t) (h : Aliased cfg s) : Aliased cfg t := by
  intro i hi
  rcases hmap.emmMap i with ⟨hsame, hback⟩ | ⟨-, hshown⟩
  · rw [hback, shownAddr_congr hmap.handleInfo hsame]
    exact h i hi
  · exact hshown

theorem AliasInv.mapOnly (h : AliasInv cfg frame s) (hmap : MapOnly s t) :
    AliasInv cfg frame t where
  toMapInv := h.toMapInv.mapOnly hmap
  seg i := (hmap.physSeg i).trans (h.seg i)
  os hsize := by
    rw [hmap.handleInfo]
    exact h.os hsize
  shown := hmap.aliased h.shown

theorem AliasInv.annotate (h : AliasInv cfg frame s) {i : Fin maxHandles} {r : HandleRecord}
    (hactive : r.active = (s.handleInfo i).active) (hnum : r.numpages = (s.handleInfo i).numpages)
    (hobject : r.object = (s.handleInfo i).object)
    (hsaved : ∀ j, r.savedMappingsLogical j ≠ nullPage → r.savedMappingsHandle j < maxHandles) :
    AliasInv cfg frame (s.setInfo i r) where
  toMapInv := h.toMapInv.annotate hactive hnum hsaved
  seg := h.seg
  os hsize := by
    by_cases hi : osHandle = i
    · subst hi
      simpa [Driver.setInfo, hobject] using h.os hsize
    · simpa [Driver.setInfo, hi] using h.os hsize
  shown := by
    intro p hp
    rw [shownAddr_update (s := s) (t := s.setInfo i r) (k := i) (r := r) rfl rfl fun _ => hobject]
    exact h.shown p hp

theorem AliasInv.clearName (h : AliasInv cfg frame s) (n : Nat) :
    AliasInv cfg frame (clearName s n) := by
  unfold Ems.clearName
  split
  · exact h.annotate rfl rfl rfl (h.saved _)
  · exact h

/-- A deallocation gives the windows of the handle back to conventional
memory. -/
theorem AliasInv.freed (h : AliasInv cfg frame s) {i : Fin maxHandles} (hos : i ≠ osHandle)
    (hinit : s.physPages ≠ 0) : AliasInv cfg frame (freedHandle s i) := by
  obtain ⟨hinfo, -, hmap, hback⟩ := freedHandle_spec s i
  refine ⟨h.toMapInv.freed i hinit, ?_, ?_, ?_⟩
  · intro p
    rw [hmap p, ← h.seg p]
    split <;> rfl
  · intro hsize
    rw [hinfo, update_of_ne hos.symm]
    exact h.os hsize
  · intro p hp
    have hlt : p < s.physPages := by
      rw [h.physPages_eq hinit]
      exact (windows_lt hp).2
    rw [hback p]
    by_cases hown : (s.emmMap p).handle = i
    · have hentry : (freedHandle s i).emmMap p = ⟨nullHandle, nullPage, (s.emmMap p).physSeg⟩ := by
        rw [hmap p, if_pos ⟨hlt, hown⟩]
      rw [if_pos ⟨hlt, hown⟩, shownAddr_of_null (by rw [hentry])]
      simp only [Driver.physPageAddr, hentry]
    · have hentry : (freedHandle s i).emmMap p = s.emmMap p := by
        rw [hmap p, if_neg fun hc => hown hc.2]
      rw [if_neg fun hc => hown hc.2, shownAddr_update hinfo hentry fun hc => absurd hc hown]
      exact h.shown p hp

theorem AliasInv.deallocate (h : AliasInv cfg frame s) {i : Fin maxHandles} (hos : i ≠ osHandle)
    (hinit : s.physPages ≠ 0) : AliasInv cfg frame (emmDeallocateHandle s i) := by
  rw [emmDeallocateHandle_freed]
  exact (h.freed hos hinit).clearName _

/-- A reallocation shows the pages it keeps at their new place, and
conventional memory in place of those it drops. -/
theorem AliasInv.reallocated (h : AliasInv cfg frame s) {i : Fin maxHandles} {r : HandleRecord}
    {newcount : Nat} (hos : i ≠ osHandle) (hinit : s.physPages ≠ 0)
    (hactive : (s.handleInfo i).active ≠ 0) (hkeep : r.active = (s.handleInfo i).active)
    (hsaved : ∀ j, r.savedMappingsLogical j ≠ nullPage → r.savedMappingsHandle j < maxHandles)
    (hnum : r.numpages = newcount ∨ r = s.handleInfo i) (hsmall : newcount < 0x10000) :
    AliasInv cfg frame (reallocated s i r newcount) where
  toMapInv := h.toMapInv.reallocated hinit hactive hkeep hsaved hnum hsmall
  seg p := by
    simp only [Ems.reallocated, dropPages]
    rw [← h.seg p]
    split <;> rfl
  os hsize := by
    simp only [Ems.reallocated, update_of_ne hos.symm]
    exact h.os hsize
  shown := by
    intro p hp
    have hlt : p < s.physPages := by
      rw [h.physPages_eq hinit]
      exact (windows_lt hp).2
    by_cases hown : (s.emmMap p).handle = i
    · by_cases hout : newcount ≤ (s.emmMap p).logicalPage
      · have hentry : (Ems.reallocated s i r newcount).emmMap p =
            ⟨nullHandle, nullPage, (s.emmMap p).physSeg⟩ := by
          simp [Ems.reallocated, dropPages, hlt, hown, hout]
        rw [shownAddr_of_null (by rw [hentry])]
        simp [Ems.reallocated, Driver.physPageAddr, dropPages, hlt, hown, hout]
      · have hentry : (Ems.reallocated s i r newcount).emmMap p = s.emmMap p := by
          simp [Ems.reallocated, dropPages, hout]
        rw [shownAddr_of_handle (k := i) (by rw [hentry, hown]), hentry]
        simp [Ems.reallocated, hlt, hown, hout]
    · have hentry : (Ems.reallocated s i r newcount).emmMap p = s.emmMap p := by
        simp [Ems.reallocated, dropPages, hown]
      rw [shownAddr_update (k := i) (r := r) rfl hentry fun hc => absurd hc hown, ← h.shown p hp]
      simp [Ems.reallocated, hown]

/-- Every change but a reset keeps the windows right. -/
theorem AliasInv.change {resets : Prop} (h : AliasInv cfg frame s)
    (hchange : Change cfg resets s t) (hreset : ¬resets) : AliasInv cfg frame t := by
  have hinv := h.toMapInv.change hchange
  cases hchange with
  | mapped hmap => exact h.mapOnly hmap
  | noted hmap hactive hnum hobject hsaved =>
      refine (h.mapOnly hmap).annotate ?_ ?_ ?_ hsaved
      · rw [hactive, hmap.handleInfo]
      · rw [hnum, hmap.handleInfo]
      · rw [hobject, hmap.handleInfo]
  | @allocated _ i r hos hinactive hactive hsmall hsaved hinfo hmap hback hphys =>
      -- the handle was free, so no entry names it
      have hunnamed : ∀ p, p < cfg.windows → (s.emmMap p).handle ≠ i := by
        intro p hp hown
        rcases h.toMapInv.entry hp with ⟨hnull, -⟩ | ⟨k, hk, hact, -⟩
        · exact handle_ne_null i (hown.symm.trans hnull)
        · have hki : k = i := Fin.ext (hk.symm.trans hown)
          rw [hki] at hact
          exact hact hinactive
      refine ⟨hinv, ?_, ?_, ?_⟩
      · rw [hmap]
        exact h.seg
      · intro hsize
        rw [hinfo, update_of_ne hos.symm]
        exact h.os hsize
      · intro p hp
        rw [hback, shownAddr_update hinfo (by rw [hmap]) fun hown => absurd hown (hunnamed p hp)]
        exact h.shown p hp
  | freed hos hinit => exact h.deallocate hos hinit
  | resized hos hinit hactive hkeep hsaved hnum hsmall =>
      exact h.reallocated hos hinit hactive hkeep hsaved hnum hsmall
  | reset hresets hsize hinit => exact absurd hresets hreset
  | started hsize hzero => exact ⟨hinv, h.seg, h.os, h.shown⟩

/-! ## Reset -/

/-- A deallocation leaves an entry, or empties one of the handle. -/
theorem emmDeallocateHandle_entry (s : Driver) (i : Fin maxHandles) (p : Nat) :
    (emmDeallocateHandle s i).emmMap p = s.emmMap p ∨
      ((s.emmMap p).handle = i ∧ ((emmDeallocateHandle s i).emmMap p).handle = nullHandle) := by
  obtain ⟨-, -, hmap, -⟩ := freedHandle_spec s i
  rw [emmDeallocateHandle_freed, clearName_emmMap, hmap p]
  split
  · next hown => exact Or.inr ⟨hown.2, rfl⟩
  · exact Or.inl rfl

theorem emmDeallocateHandle_active (s : Driver) (i k : Fin maxHandles) :
    ((emmDeallocateHandle s i).handleInfo k).active =
      if k = i then 0 else (s.handleInfo k).active := by
  obtain ⟨hinfo, -⟩ := freedHandle_spec s i
  rw [emmDeallocateHandle_freed, clearName_active, hinfo]
  by_cases hk : k = i
  · simp [hk]
  · simp [hk]

/-- The loop of the reset keeps the windows right and the entries of the system
handle untouched; it leaves none of the handles it looks at active. -/
theorem deallocateAll_spec (h : AliasInv cfg frame s) (hinit : s.physPages ≠ 0)
    (is : List (Fin maxHandles)) :
    AliasInv cfg frame (deallocateAll s is) ∧
      (∀ p, (deallocateAll s is).emmMap p = s.emmMap p ∨
        ((s.emmMap p).handle ≠ osHandle ∧
          ((deallocateAll s is).emmMap p).handle = nullHandle)) ∧
      (∀ k, (s.handleInfo k).active = 0 → ((deallocateAll s is).handleInfo k).active = 0) ∧
      ∀ k ∈ is, k ≠ osHandle → ((deallocateAll s is).handleInfo k).active = 0 := by
  induction is generalizing s with
  | nil => exact ⟨h, fun _ => Or.inl rfl, fun _ hk => hk, by simp⟩
  | cons i is ih =>
      rw [Ems.deallocateAll]
      split
      · next hfree =>
          have hos : i ≠ osHandle := by
            intro hzero
            rw [hzero] at hfree
            exact absurd hfree.1 (by decide)
          have hphys : (emmDeallocateHandle s i).physPages ≠ 0 := by
            rw [emmDeallocateHandle_freed, clearName_physPages, (freedHandle_spec s i).2.1]
            exact hinit
          obtain ⟨hinv, hmap, hidle, hfreed⟩ := ih (h.deallocate hos hinit) hphys
          refine ⟨hinv, ?_, ?_, ?_⟩
          · intro p
            rcases hmap p with hsame | ⟨hother, hnull⟩
            · rw [hsame]
              rcases emmDeallocateHandle_entry s i p with hkeep | ⟨hown, hnull⟩
              · exact Or.inl hkeep
              · right
                refine ⟨?_, hnull⟩
                rw [hown]
                exact fun hc => hos (Fin.ext hc)
            · right
              refine ⟨?_, hnull⟩
              rcases emmDeallocateHandle_entry s i p with hkeep | ⟨hown, -⟩
              · rwa [hkeep] at hother
              · rw [hown]
                exact fun hc => hos (Fin.ext hc)
          · intro k hk
            apply hidle
            rw [emmDeallocateHandle_active, hk, ite_self]
          · intro k hk hne
            rcases List.mem_cons.mp hk with rfl | hmem
            · apply hidle
              rw [emmDeallocateHandle_active, if_pos rfl]
            · exact hfreed k hmem hne
      · next hskip =>
          obtain ⟨hinv, hmap, hidle, hfreed⟩ := ih h hinit
          refine ⟨hinv, hmap, hidle, ?_⟩
          intro k hk hne
          rcases List.mem_cons.mp hk with rfl | hmem
          · apply hidle
            by_contra hact
            refine hskip ⟨?_, hact⟩
            exact Nat.pos_of_ne_zero fun hzero => hne (Fin.ext hzero)
          · exact hfreed k hmem hne

/-- The address a window has of its own. -/
theorem AliasInv.physPageAddr_eq (h : AliasInv cfg frame s) (p : Nat) :
    s.physPageAddr p = windowSeg cfg frame p * 16 := by
  rw [Driver.physPageAddr, h.seg p]

/-- A reset table asks every window to show its own memory. -/
theorem shownAddr_emsReset2 (hsize : cfg.emsSize ≠ 0)
    (hseg : ∀ p, (s.emmMap p).physSeg = windowSeg cfg frame p) {p : Nat} (hp : p < cfg.windows) :
    shownAddr (emsReset2 cfg s) p = windowSeg cfg frame p * 16 := by
  have hlt := (windows_lt hp).2
  by_cases hcnv : cfg.umaPages ≤ p
  · have hentry : ((emsReset2 cfg s).emmMap p).handle = osHandle ∧
        ((emsReset2 cfg s).emmMap p).logicalPage = p - cfg.umaPages := by
      simp only [emsReset2, if_neg hsize]
      rw [if_pos ⟨hcnv, by omega⟩]
      exact ⟨rfl, rfl⟩
    have hobject : ((emsReset2 cfg s).handleInfo osHandle).object = osObject cfg := by
      simp [emsReset2, hsize, osObject]
    rw [shownAddr_of_handle hentry.1, hentry.2, hobject, osObject, windowSeg,
      if_neg (not_lt.mpr hcnv), emmPageSize]
    ring
  · have hentry : (emsReset2 cfg s).emmMap p =
        { s.emmMap p with handle := nullHandle, logicalPage := nullPage } := by
      simp only [emsReset2, if_neg hsize]
      rw [if_neg fun hc => hcnv hc.1]
    rw [shownAddr_of_null (by rw [hentry]), Driver.physPageAddr, hentry, hseg p]

/-- A window that shows a page of the system handle shows its own memory. -/
def OsAtHome (cfg : Config) (s : Driver) : Prop :=
  ∀ i, i < cfg.windows → (s.emmMap i).handle = osHandle →
    (s.handleInfo osHandle).object + (s.emmMap i).logicalPage * emmPageSize = s.physPageAddr i

/-- A reset leaves the windows right exactly when the system handle is at home. -/
theorem emsReset_aliased_iff (h : AliasInv cfg frame s) (hsize : cfg.emsSize ≠ 0)
    (hinit : s.physPages ≠ 0) : Aliased cfg (emsReset cfg s) ↔ OsAtHome cfg s := by
  obtain ⟨hinv, hmap, -, hfreed⟩ := deallocateAll_spec h hinit (List.finRange maxHandles)
  have hback : (emsReset cfg s).backing =
      (deallocateAll s (List.finRange maxHandles)).backing := by
    simp only [emsReset, emsReset2, if_neg hsize]
  -- afterwards only the system handle is active, so an entry is empty or its own
  have hentry : ∀ p, p < cfg.windows →
      (deallocateAll s (List.finRange maxHandles)).backing p =
        if (s.emmMap p).handle = osHandle then
          osObject cfg + (s.emmMap p).logicalPage * emmPageSize
        else windowSeg cfg frame p * 16 := by
    intro p hp
    rw [hinv.shown p hp]
    rcases hinv.toMapInv.entry hp with ⟨hnull, -⟩ | ⟨k, hk, hact, -⟩
    · rw [shownAddr_of_null hnull, hinv.physPageAddr_eq]
      rcases hmap p with hsame | ⟨hother, -⟩
      · rw [hsame] at hnull
        rw [if_neg]
        rw [hnull]
        exact fun hc => handle_ne_null osHandle hc.symm
      · rw [if_neg hother]
    · have hkos : k = osHandle := by
        by_contra hne
        exact hact (hfreed k (List.mem_finRange k) hne)
      rw [hkos] at hk
      rcases hmap p with hsame | ⟨-, hnull⟩
      · rw [shownAddr_of_handle hk, hinv.os hsize, hsame]
        rw [hsame] at hk
        rw [if_pos hk]
      · exact absurd (hk.symm.trans hnull) (handle_ne_null osHandle)
  unfold Aliased OsAtHome
  constructor
  · intro hall p hp hown
    have hp' := hall p hp
    rw [hback, hentry p hp, if_pos hown, emsReset, shownAddr_emsReset2 hsize hinv.seg hp] at hp'
    rw [h.os hsize, h.physPageAddr_eq]
    exact hp'
  · intro hhome p hp
    rw [hback, hentry p hp, emsReset, shownAddr_emsReset2 hsize hinv.seg hp]
    split
    · next hown =>
        have hown' := hhome p hp hown
        rwa [h.os hsize, h.physPageAddr_eq] at hown'
    · rfl

/-! ## Steps and runs -/

theorem aliasInv_emsReset2 (hinv : MapInv cfg (emsReset2 cfg s)) (hsize : cfg.emsSize ≠ 0)
    (hseg : ∀ p, (s.emmMap p).physSeg = windowSeg cfg frame p)
    (hshown : Aliased cfg (emsReset2 cfg s)) : AliasInv cfg frame (emsReset2 cfg s) := by
  refine ⟨hinv, ?_, ?_, hshown⟩
  · intro p
    simp only [emsReset2, if_neg hsize]
    rw [← hseg p]
    split <;> rfl
  · intro _
    simp [emsReset2, hsize, osObject]

theorem aliasInv_emsInit (cfg : Config) (frame : Nat) :
    AliasInv cfg frame (emsInit cfg frame) := by
  have hinv := mapInv_emsInit cfg frame
  by_cases hsize : cfg.emsSize = 0
  · refine ⟨hinv, ?_, fun hne => absurd hsize hne, ?_⟩
    · intro p
      simp [emsInit, emsReset2, hsize]
    · intro p hp
      exact absurd hsize (windows_lt hp).1
  · apply aliasInv_emsReset2 hinv hsize fun _ => rfl
    intro p hp
    rw [shownAddr_emsReset2 hsize (fun _ => rfl) hp]
    simp [emsReset2, hsize]

/-- What a reset must meet: the system handle's pages are at home. -/
def HomeAtReset (cfg : Config) (s : Driver) (c : EmsCall) : Prop :=
  s.physPages ≠ 0 → Resets c → OsAtHome cfg s

/-- The windows are right after the call. -/
def AliasStep (cfg : Config) (s : Driver) (c : EmsCall) : Prop :=
  ∀ t, step cfg s c = some t → Aliased cfg t

theorem step_of_resets {c : EmsCall} (hinit : s.physPages ≠ 0) (hresets : Resets c) :
    step cfg s c = some (emsReset cfg s) := by
  cases c with
  | fn r env =>
      have hah : hiByte r.ax = 0x5c := hresets
      simp [step, emsFn, hinit, hah, report]
  | emmInit | alterMap | apmapRet | setAlternate => exact hresets.elim

/-- A call that is no reset, or comes before the driver is set up, keeps the
windows right. -/
theorem AliasInv.step (h : AliasInv cfg frame s) {c : EmsCall}
    (hno : s.physPages = 0 ∨ ¬Resets c) (hstep : Ems.step cfg s c = some t) :
    AliasInv cfg frame t := by
  by_cases hresets : Resets c
  · have hzero := hno.resolve_right (not_not.mpr hresets)
    cases c with
    | fn r env =>
        simp only [Ems.step, emsFn, hzero, if_true, Option.map_some, Option.some.injEq] at hstep
        exact hstep ▸ h
    | emmInit | alterMap | apmapRet | setAlternate => exact hresets.elim
  · exact h.change ((step_change h.toMapInv c).post hstep) hresets

theorem aliasStep_iff (h : AliasInv cfg frame s) (c : EmsCall) :
    AliasStep cfg s c ↔ HomeAtReset cfg s c := by
  by_cases hreset : s.physPages ≠ 0 ∧ Resets c
  · obtain ⟨hinit, hresets⟩ := hreset
    have hsize : cfg.emsSize ≠ 0 := by
      rcases h.pages with hzero | ⟨hsize, -⟩
      · exact absurd hzero hinit
      · exact hsize
    have hiff := emsReset_aliased_iff h hsize hinit
    simp only [AliasStep, HomeAtReset, step_of_resets hinit hresets, Option.some.injEq,
      forall_eq', hiff]
    exact ⟨fun hhome _ _ => hhome, fun hhome => hhome hinit hresets⟩
  · refine iff_of_true ?_ fun hinit hresets => absurd ⟨hinit, hresets⟩ hreset
    intro t ht
    apply (h.step _ ht).shown
    by_cases hzero : s.physPages = 0
    · exact Or.inl hzero
    · exact Or.inr fun hresets => hreset ⟨hzero, hresets⟩

theorem AliasInv.homeAtReset (h : AliasInv cfg frame s) {c : EmsCall}
    (hhome : HomeAtReset cfg s c) (hstep : Ems.step cfg s c = some t) : AliasInv cfg frame t := by
  by_cases hreset : s.physPages ≠ 0 ∧ Resets c
  · obtain ⟨hinit, hresets⟩ := hreset
    have hsize : cfg.emsSize ≠ 0 := by
      rcases h.pages with hzero | ⟨hsize, -⟩
      · exact absurd hzero hinit
      · exact hsize
    have hinv := mapInv_step h.toMapInv hstep
    rw [step_of_resets hinit hresets, Option.some.injEq] at hstep
    subst hstep
    refine aliasInv_emsReset2 hinv hsize (deallocateAll_spec h hinit _).1.seg ?_
    exact (emsReset_aliased_iff h hsize hinit).mpr (hhome hinit hresets)
  · apply h.step _ hstep
    by_cases hzero : s.physPages = 0
    · exact Or.inl hzero
    · exact Or.inr fun hresets => hreset ⟨hzero, hresets⟩

/-- In a run of calls the windows are right in every state reached exactly when
at each reset the system handle's pages are at home. -/
theorem aliasing_iff (cfg : Config) (frame : Nat) (calls : List EmsCall) :
    Admits (step cfg) (AliasStep cfg) (emsInit cfg frame) calls ↔
      Admits (step cfg) (HomeAtReset cfg) (emsInit cfg frame) calls :=
  admits_congr (AliasInv cfg frame) (fun _ _ _ h hhome ht => h.homeAtReset hhome ht)
    (fun _ c h => aliasStep_iff h c) (aliasInv_emsInit cfg frame)

/-- Two megabytes of EMS, with four windows in the page frame and one in
conventional memory. -/
def oneConventional : Config :=
  { emsSize := 2048, umaPages := 4, cnvPages := 1, umaMax := twoMegabytes.umaMax, cnvMax := by decide }

/-- Set up the driver and show the page of the system handle in the page frame. -/
def osPageMapped : List EmsCall :=
  [.emmInit ⟨fun _ => 0, none, true, true⟩,
    .fn ⟨0x4400, 0, 0, 0⟩ ⟨fun _ => 0, none, true, true⟩]

theorem osPageMapped_away :
    ∃ t, run (step oneConventional) (emsInit oneConventional 0xe000) osPageMapped = some t ∧
      t.physPages ≠ 0 ∧ (t.emmMap 0).handle = osHandle ∧
        (t.handleInfo osHandle).object + (t.emmMap 0).logicalPage * emmPageSize ≠
          t.physPageAddr 0 := by
  have heval : ((run (step oneConventional) (emsInit oneConventional 0xe000) osPageMapped).map
      fun t => decide (t.physPages ≠ 0 ∧ (t.emmMap 0).handle = (osHandle : Nat) ∧
        (t.handleInfo osHandle).object + (t.emmMap 0).logicalPage * emmPageSize ≠
          t.physPageAddr 0)) = some true := by
    decide +kernel
  rw [Option.map_eq_some_iff] at heval
  obtain ⟨t, ht, hprops⟩ := heval
  rw [decide_eq_true_eq] at hprops
  exact ⟨t, ht, hprops⟩

/-- A reset then empties the entry, and the page of the system handle stays in
the window. -/
theorem reset_leaves_os_page :
    ¬Admits (step oneConventional) (AliasStep oneConventional) (emsInit oneConventional 0xe000)
      (osPageMapped ++ [.fn ⟨0x5c00, 0, 0, 0⟩ ⟨fun _ => 0, none, true, true⟩]) := by
  intro hall
  have hhome := (admits_congr (AliasInv oneConventional 0xe000)
    (fun _ _ _ h hhome ht => h.homeAtReset hhome ht)
    (fun _ c h => aliasStep_iff h c) (aliasInv_emsInit oneConventional 0xe000)).mp hall
  obtain ⟨t, ht, hinit, hown, haway⟩ := osPageMapped_away
  have hresets : Resets (.fn ⟨0x5c00, 0, 0, 0⟩ ⟨fun _ => 0, none, true, true⟩) := by
    change hiByte 0x5c00 = 0x5c
    decide
  exact haway (((admits_append.mp hhome).2 t ht).1 hinit hresets 0 (by decide) hown)

end Ems
end Dosemu
