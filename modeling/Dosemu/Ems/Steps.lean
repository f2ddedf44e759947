import Dosemu.Ems.Bookkeeping

/-!
# What a call of the EMS driver can do

Every call changes the driver in one of seven ways, whatever the mapping layer
answers.  An invariant of the handle table and the page map is shown once for
each of them.

Main results:

- Theorem `step_change`: each call is one of the changes.
- Theorem `mapInv_step`: in every state reached the map names only pages that
  active handles have, also after a reallocation was refused.
-/

namespace Dosemu
namespace Ems

open Function
open Run

variable {cfg : Config} {s t u : Driver} {env : Env} {resets : Prop}

/-- What a call can do to the handles, the page map and the windows; `resets`
says whether the call may be a reset. -/
inductive Change (cfg : Config) (resets : Prop) (s : Driver) : Driver → Prop
  | mapped {t : Driver} (hmap : MapOnly s t) : Change cfg resets s t
  | noted {u : Driver} {i : Fin maxHandles} {r : HandleRecord} (hmap : MapOnly s u)
      (hactive : r.active = (s.handleInfo i).active)
      (hnum : r.numpages = (s.handleInfo i).numpages)
      (hobject : r.object = (s.handleInfo i).object)
      (hsaved : ∀ j, r.savedMappingsLogical j ≠ nullPage → r.savedMappingsHandle j < maxHandles) :
      Change cfg resets s (u.setInfo i r)
  | allocated {t : Driver} {i : Fin maxHandles} {r : HandleRecord} (hos : i ≠ osHandle)
      (hinactive : (s.handleInfo i).active = 0) (hactive : r.active ≠ 0)
      (hsmall : r.numpages < 0x10000)
      (hsaved : ∀ j, r.savedMappingsLogical j ≠ nullPage → r.savedMappingsHandle j < maxHandles)
      (hinfo : t.handleInfo = update s.handleInfo i r) (hmap : t.emmMap = s.emmMap)
      (hback : t.backing = s.backing) (hphys : t.physPages = s.physPages) : Change cfg resets s t
  | freed {i : Fin maxHandles} (hos : i ≠ osHandle) (hinit : s.physPages ≠ 0) :
      Change cfg resets s (emmDeallocateHandle s i)
  | resized {i : Fin maxHandles} {r : HandleRecord} {newcount : Nat} (hos : i ≠ osHandle)
      (hinit : s.physPages ≠ 0) (hactive : (s.handleInfo i).active ≠ 0)
      (hkeep : r.active = (s.handleInfo i).active)
      (hsaved : ∀ j, r.savedMappingsLogical j ≠ nullPage → r.savedMappingsHandle j < maxHandles)
      (hnum : r.numpages = newcount ∨ r = s.handleInfo i) (hsmall : newcount < 0x10000) :
      Change cfg resets s (reallocated s i r newcount)
  | reset (hresets : resets) (hsize : cfg.emsSize ≠ 0) (hinit : s.physPages ≠ 0) : Change cfg resets s (emsReset cfg s)
  | started (hsize : cfg.emsSize ≠ 0) (hzero : s.physPages = 0) :
      Change cfg resets s { s with physPages := cfg.cnvPages + cfg.umaPages }

/-- The map is right, also before the physical pages are set up; free entries
have no pages, the number of pages is a word, and saved maps name entries of the
table. -/
structure MapInv (cfg : Config) (s : Driver) : Prop where
  map : cfg.emsSize ≠ 0 → ∀ i, i < cfg.cnvPages + cfg.umaPages → MapOk s (s.emmMap i)
  pages : s.physPages = 0 ∨ (cfg.emsSize ≠ 0 ∧ s.physPages = cfg.cnvPages + cfg.umaPages)
  idle : IdleEmpty s
  small : ∀ h, (s.handleInfo h).numpages < 0x10000
  saved : SavedOk s

theorem Change.refl (cfg : Config) (resets : Prop) (s : Driver) : Change cfg resets s s :=
  .mapped (MapOnly.refl s)

/-! ## The functions -/

theorem emmAllocateHandle_change (cfg : Config) (resets : Prop) (env : Env) (hsaved : SavedOk s)
    {pagesNeeded : Nat} (hsmall : pagesNeeded < 0x10000) :
    Change cfg resets s (emmAllocateHandle cfg env s pagesNeeded).2 := by
  unfold emmAllocateHandle
  split
  · exact .refl cfg resets s
  · split
    · exact .refl cfg resets s
    · split
      · exact .refl cfg resets s
      · split
        · exact .refl cfg resets s
        · next i hfind =>
            have hfound := List.find?_some hfind
            simp only [decide_eq_true_eq] at hfound
            simp only
            split
            · exact .refl cfg resets s
            · have hos : i ≠ osHandle := by
                intro hzero
                rw [hzero] at hfound
                exact absurd hfound.1 (by decide)
              refine .allocated hos hfound.2 (show (1 : Nat) ≠ 0 by decide) hsmall ?_ rfl rfl rfl rfl
              intro j hj
              simp only [clearSaved] at hj
              split at hj
              · exact absurd rfl hj
              · exact hsaved i j hj

theorem allocateFn_change (hsaved : SavedOk s) (r : Regs) :
    Change cfg resets s (allocateFn cfg env s r).s := by
  have hchange := emmAllocateHandle_change cfg resets env hsaved r.bx.isLt
  unfold allocateFn
  split
  · next heq => rwa [heq] at hchange
  · next heq => rwa [heq] at hchange

theorem deallocateFn_change (hinit : s.physPages ≠ 0) (r : Regs) :
    Change cfg resets s (deallocateFn s r).s := by
  unfold deallocateFn
  split
  · exact .refl cfg resets s
  · split
    · exact .refl cfg resets s
    · next hos =>
        split
        · exact .refl cfg resets s
        · split
          · exact .refl cfg resets s
          · exact .freed hos hinit

/-- Saving a map writes handles that the map names. -/
theorem savedPages_lt (h : MapInv cfg s) (hinit : s.physPages ≠ 0) (i : Fin maxHandles)
    (j : Fin emmMaxSavedPhys)
    (hj : ((emmSaveHandleState cfg s i).handleInfo i).savedMappingsLogical j ≠ nullPage) :
    ((emmSaveHandleState cfg s i).handleInfo i).savedMappingsHandle j < maxHandles := by
  simp only [emmSaveHandleState, Driver.setInfo, update_self] at hj ⊢
  by_cases hsaved : j.val < cfg.savedPhysPages
  · by_cases hnull : (s.emmMap j).handle = nullHandle
    · simp [hsaved, hnull] at hj
    · rw [if_pos ⟨hsaved, hnull⟩]
      have hlt : j.val < cfg.umaPages := lt_of_lt_of_le hsaved (Nat.min_le_left _ _)
      rcases h.pages with hzero | ⟨hsize, -⟩
      · exact absurd hzero hinit
      · rcases h.map hsize j (by omega) with ⟨hempty, -⟩ | ⟨k, hk, -, -⟩
        · exact absurd hempty hnull
        · rw [hk]
          exact k.isLt
  · simp only [hsaved, false_and, if_false] at hj ⊢
    exact h.saved i j hj

theorem savePageMap_change (h : MapInv cfg s) (hinit : s.physPages ≠ 0) (r : Regs) :
    Change cfg resets s (savePageMap cfg s r).s := by
  unfold savePageMap
  split
  · exact .refl cfg resets s
  · next i _ =>
      split
      · exact .refl cfg resets s
      · have hsaved := savedPages_lt h hinit i
        have htwice : ∀ r r' : HandleRecord, (s.setInfo i r).setInfo i r' = s.setInfo i r' := by
          intro r r'
          simp [Driver.setInfo]
        simp only [report, emmSaveHandleState, htwice]
        refine .noted (MapOnly.refl s) ?_ ?_ ?_ ?_
        · simp [Driver.setInfo]
        · simp [Driver.setInfo]
        · simp [Driver.setInfo]
        · exact hsaved

theorem restorePageMap_change (h : MapInv cfg s) (r : Regs) :
    Outcome (env.aliased = true) (fun rep => Change cfg resets s rep.s)
      (restorePageMap cfg env s r) := by
  unfold restorePageMap emmRestoreHandleState
  split
  · exact .refl cfg resets s
  · next i _ =>
      split
      · exact .refl cfg resets s
      · refine (restorePages_outcome h.idle (h.saved i) _).map ?_
        intro t ht
        refine .noted ht ?_ ?_ ?_ ?_
        · simp only [ht.handleInfo]
        · simp only [ht.handleInfo]
        · simp only [ht.handleInfo]
        · simp only [ht.handleInfo]
          exact h.saved i

theorem handleName_change (hsaved : SavedOk s) (r : Regs) :
    Change cfg resets s (handleName env s r).s := by
  unfold handleName
  split
  · split
    · exact .refl cfg resets s
    · exact .noted (MapOnly.refl s) rfl rfl rfl (hsaved _)
  · split
    · exact .refl cfg resets s
    · exact .noted (MapOnly.refl s) rfl rfl rfl (hsaved _)
  · exact .refl cfg resets s

/-- The memory call of a reallocation leaves the entry, or gives it the new
number of pages. -/
theorem reallocObject_cases (env : Env) (r : HandleRecord) (newcount : Nat) :
    (reallocObject env r newcount).2 = r ∨
      ∃ obj, (reallocObject env r newcount).2 = { r with object := obj, numpages := newcount } := by
  unfold reallocObject
  split
  · split
    · exact Or.inl rfl
    · exact Or.inr ⟨_, rfl⟩
  · next hzero =>
      split
      · next hobj =>
          right
          have hcount : newcount = 0 := by
            by_contra hne
            exact hzero ⟨hne, hobj⟩
          exact ⟨0, by rw [hcount]⟩
      · simp only
        split
        · exact Or.inl rfl
        · exact Or.inr ⟨_, rfl⟩

theorem reallocatePages_change (hsaved : SavedOk s) (hinit : s.physPages ≠ 0)
    (handle : Nat) {newcount : Nat} (hsmall : newcount < 0x10000) :
    Outcome (env.aliased = true) (fun res => Change cfg resets s res.2)
      (reallocatePages cfg env s handle newcount) := by
  unfold reallocatePages
  split
  · exact .refl cfg resets s
  · next i hactive =>
      split
      · exact .refl cfg resets s
      · split
        · exact .refl cfg resets s
        · next hos =>
            have hact := (activeHandle_eq_some.mp hactive).2
            by_cases hfits :
                s.emmAllocated + ((newcount : Int) - (s.handleInfo i).numpages) ≤ cfg.emmTotal
            · have hcases := reallocObject_cases env (s.handleInfo i) newcount
              cases hobj : reallocObject env (s.handleInfo i) newcount with
              | mk err r =>
                  rw [hobj] at hcases
                  rcases doReallocate_eq hfits hobj with ⟨-, heq⟩ | ⟨hrefused, heq⟩
                  · rw [heq]
                    rcases hcases with hsame | ⟨obj, hnew⟩
                    · simp only at hsame
                      subst hsame
                      exact .resized hos hinit hact rfl (hsaved i) (Or.inr rfl) hsmall
                    · simp only at hnew
                      subst hnew
                      exact .resized hos hinit hact rfl (hsaved i) (Or.inl rfl) hsmall
                  · rw [heq]
                    simp [hrefused.1]
            · simp [doReallocate, not_le.mp hfits, Change.refl]

theorem pageMapRegisters_change (hidle : IdleEmpty s) (r : Regs) :
    Outcome (env.aliased = true) (fun rep => Change cfg resets s rep.s)
      (pageMapRegisters cfg env s r) := by
  have hset : Outcome (env.aliased = true) (fun res => Change cfg resets s res.2)
      (emmSetMapRegisters cfg env s) :=
    (emmSetMapRegisters_outcome hidle cfg).mono fun _ hres => .mapped hres
  unfold pageMapRegisters
  simp only
  split
  · exact .refl cfg resets s
  · exact hset.map fun _ hres => hres
  · exact hset.map fun _ hres => hres
  · exact .refl cfg resets s
  · exact .refl cfg resets s

theorem partialMapRegisters_change (hidle : IdleEmpty s) (r : Regs) :
    Outcome (env.aliased = true) (fun rep => Change cfg resets s rep.s)
      (partialMapRegisters cfg env s r) := by
  unfold partialMapRegisters
  split
  · split <;> exact Change.refl cfg resets s
  · apply Outcome.map (P := fun res => Change cfg resets s res.2)
    · unfold emmSetPartialMapRegisters
      split
      · exact .refl cfg resets s
      · exact (setPartial_outcome hidle _).mono fun _ hres => .mapped hres
    · exact fun _ hres => hres
  · split <;> exact Change.refl cfg resets s
  · exact .refl cfg resets s

/-! ## The invariant -/

theorem MapInv.mapOnly (h : MapInv cfg s) (hmap : MapOnly s t) : MapInv cfg t := by
  constructor
  · intro hsize i hi
    rcases hmap.emmMap i with ⟨hsame, -⟩ | ⟨hok, -⟩
    · rw [hsame]
      exact (h.map hsize i hi).congr hmap.handleInfo
    · exact hok.congr hmap.handleInfo
  · rw [hmap.physPages]
    exact h.pages
  · exact hmap.idle h.idle
  · rw [hmap.handleInfo]
    exact h.small
  · unfold SavedOk
    rw [hmap.handleInfo]
    exact h.saved

/-- Overwriting the record of a handle, where no map entry depends on what is
lost. -/
theorem MapInv.replace (h : MapInv cfg s) {i : Fin maxHandles} {r : HandleRecord}
    (hinfo : t.handleInfo = update s.handleInfo i r) (hphys : t.physPages = s.physPages)
    (hmap : cfg.emsSize ≠ 0 → ∀ p, p < cfg.cnvPages + cfg.umaPages → MapOk t (t.emmMap p))
    (hidle : r.active = 0 → r.numpages = 0) (hsmall : r.numpages < 0x10000)
    (hsaved : ∀ j, r.savedMappingsLogical j ≠ nullPage → r.savedMappingsHandle j < maxHandles) :
    MapInv cfg t := by
  refine ⟨hmap, ?_, ?_, ?_, ?_⟩
  · rw [hphys]
    exact h.pages
  · intro k
    rw [hinfo]
    by_cases hk : k = i
    · rw [hk, update_self]
      exact hidle
    · rw [update_of_ne hk]
      exact h.idle k
  · intro k
    rw [hinfo]
    by_cases hk : k = i
    · rw [hk, update_self]
      exact hsmall
    · rw [update_of_ne hk]
      exact h.small k
  · intro k
    rw [hinfo]
    by_cases hk : k = i
    · rw [hk, update_self]
      exact hsaved
    · rw [update_of_ne hk]
      exact h.saved k

theorem MapInv.annotate (h : MapInv cfg s) {i : Fin maxHandles} {r : HandleRecord}
    (hactive : r.active = (s.handleInfo i).active) (hnum : r.numpages = (s.handleInfo i).numpages)
    (hsaved : ∀ j, r.savedMappingsLogical j ≠ nullPage → r.savedMappingsHandle j < maxHandles) :
    MapInv cfg (s.setInfo i r) := by
  refine h.replace (show _ = _ from rfl) rfl ?_ ?_ ?_ hsaved
  · intro hsize p hp
    refine (h.map hsize p hp).update (show _ = _ from rfl) ?_
    intro _ hact hlog
    rw [hactive, hnum]
    exact ⟨hact, hlog⟩
  · rw [hactive, hnum]
    exact h.idle i
  · rw [hnum]
    exact h.small i

@[simp]
theorem clearName_emmMap (s : Driver) (n : Nat) : (clearName s n).emmMap = s.emmMap := by
  unfold clearName
  split <;> rfl

@[simp]
theorem clearName_physPages (s : Driver) (n : Nat) : (clearName s n).physPages = s.physPages := by
  unfold clearName
  split <;> rfl

@[simp]
theorem clearName_active (s : Driver) (n : Nat) (k : Fin maxHandles) :
    ((clearName s n).handleInfo k).active = (s.handleInfo k).active := by
  unfold clearName
  split
  · next i _ =>
      by_cases hk : k = i
      · simp [Driver.setInfo, hk]
      · simp [Driver.setInfo, hk]
  · rfl

theorem MapInv.clearName (h : MapInv cfg s) (n : Nat) : MapInv cfg (clearName s n) := by
  unfold Ems.clearName
  split
  · exact h.annotate rfl rfl (h.saved _)
  · exact h

theorem MapInv.physPages_eq (h : MapInv cfg s) (hinit : s.physPages ≠ 0) :
    s.physPages = cfg.cnvPages + cfg.umaPages := by
  rcases h.pages with hzero | ⟨-, hall⟩
  · exact absurd hzero hinit
  · exact hall

/-- The driver after a deallocation, before the name is cleared. -/
def freedHandle (s : Driver) (h : Fin maxHandles) : Driver :=
  let u := unmapHandle s h (List.range s.physPages)
  { u.setInfo h { u.handleInfo h with numpages := 0, active := 0, object := 0 } with
    handleTotal := u.handleTotal - 1
    emmAllocated := u.emmAllocated - (u.handleInfo h).numpages }

theorem emmDeallocateHandle_freed (s : Driver) (h : Fin maxHandles) :
    emmDeallocateHandle s h = clearName (freedHandle s h) s.physPages := by
  obtain ⟨-, hphys, -⟩ :=
    unmapHandle_spec (s := s) (handle_ne_null h) (List.range s.physPages) (by simp)
  rw [emmDeallocateHandle_eq]
  change clearName (freedHandle s h) (unmapHandle s h (List.range s.physPages)).physPages = _
  rw [hphys]

/-- A deallocation clears the record, the entries and the windows of the
handle. -/
theorem freedHandle_spec (s : Driver) (h : Fin maxHandles) :
    (freedHandle s h).handleInfo = update s.handleInfo h
        { s.handleInfo h with numpages := 0, active := 0, object := 0 } ∧
      (freedHandle s h).physPages = s.physPages ∧
      (∀ p, (freedHandle s h).emmMap p =
        if p < s.physPages ∧ (s.emmMap p).handle = h then
          ⟨nullHandle, nullPage, (s.emmMap p).physSeg⟩
        else s.emmMap p) ∧
      ∀ p, (freedHandle s h).backing p =
        if p < s.physPages ∧ (s.emmMap p).handle = h then s.physPageAddr p else s.backing p := by
  obtain ⟨hinfo, hphys, -, -, hmap, hback⟩ :=
    unmapHandle_spec (s := s) (handle_ne_null h) (List.range s.physPages) (by simp)
  simp only [List.mem_range] at hmap hback
  refine ⟨?_, hphys, hmap, hback⟩
  simp only [freedHandle, Driver.setInfo, hinfo]

theorem MapInv.freed (h : MapInv cfg s) (i : Fin maxHandles) (hinit : s.physPages ≠ 0) :
    MapInv cfg (freedHandle s i) := by
  obtain ⟨hinfo, hphys, hmap, -⟩ := freedHandle_spec s i
  have hall := h.physPages_eq hinit
  refine h.replace hinfo hphys ?_ (fun _ => rfl) (show 0 < 0x10000 by decide) (h.saved i)
  intro hsize p hp
  rw [hmap p]
  split
  · exact mapOk_null _
  · next hother =>
      refine (h.map hsize p hp).update hinfo ?_
      intro hown _ _
      exact absurd ⟨by omega, hown⟩ hother

/-- After a reallocation, granted or not, the entries that are kept are in
range. -/
theorem MapInv.reallocated (h : MapInv cfg s) {i : Fin maxHandles} {r : HandleRecord}
    {newcount : Nat} (hinit : s.physPages ≠ 0) (hactive : (s.handleInfo i).active ≠ 0)
    (hkeep : r.active = (s.handleInfo i).active)
    (hsaved : ∀ j, r.savedMappingsLogical j ≠ nullPage → r.savedMappingsHandle j < maxHandles)
    (hnum : r.numpages = newcount ∨ r = s.handleInfo i) (hsmall : newcount < 0x10000) :
    MapInv cfg (reallocated s i r newcount) := by
  have hall := h.physPages_eq hinit
  refine h.replace (show _ = _ from rfl) rfl ?_ ?_ ?_ hsaved
  · intro hsize p hp
    simp only [Ems.reallocated, dropPages]
    split
    · exact mapOk_null _
    · next hout =>
        refine (h.map hsize p hp).update (show _ = _ from rfl) ?_
        intro hown hact hlogical
        rw [hkeep]
        refine ⟨hact, ?_⟩
        rcases hnum with hnew | hold
        · rw [hnew]
          by_contra hge
          exact hout ⟨List.mem_range.mpr (by omega), hown, not_lt.mp hge⟩
        · rw [hold]
          exact hlogical
  · intro hzero
    exact absurd (hkeep ▸ hzero) hactive
  · rcases hnum with hnew | hold
    · rw [hnew]
      exact hsmall
    · rw [hold]
      exact h.small i

theorem emsReset2_small (hsize : cfg.emsSize ≠ 0) (s : Driver) (h : Fin maxHandles) :
    ((emsReset2 cfg s).handleInfo h).numpages < 0x10000 := by
  have hcnv := cfg.cnvMax
  simp only [emsReset2, if_neg hsize]
  split
  · exact lt_of_le_of_lt hcnv (by decide)
  · exact Nat.zero_lt_of_lt (show 0 < 0x10000 by decide)

/-- Every change keeps the map right. -/
theorem MapInv.change (h : MapInv cfg s) (hchange : Change cfg resets s t) : MapInv cfg t := by
  cases hchange with
  | mapped hmap => exact h.mapOnly hmap
  | noted hmap hactive hnum hobject hsaved =>
      refine (h.mapOnly hmap).annotate ?_ ?_ hsaved
      · rw [hactive, hmap.handleInfo]
      · rw [hnum, hmap.handleInfo]
  | allocated hos hinactive hactive hsmall hsaved hinfo hmap hback hphys =>
      refine h.replace hinfo hphys ?_ (fun hzero => absurd hzero hactive) hsmall hsaved
      intro hsize p hp
      rw [hmap]
      refine (h.map hsize p hp).update hinfo ?_
      intro _ hact _
      exact absurd hinactive hact
  | freed hos hinit =>
      rw [emmDeallocateHandle_freed]
      exact (h.freed _ hinit).clearName _
  | resized hos hinit hactive hkeep hsaved hnum hsmall =>
      exact h.reallocated hinit hactive hkeep hsaved hnum hsmall
  | reset hresets hsize hinit =>
      have hreset := bookInv_emsReset2 hsize (h.saved.deallocateAll (List.finRange maxHandles))
      exact ⟨hreset.map, hreset.pages, hreset.idle, emsReset2_small hsize _, hreset.saved⟩
  | started hsize hzero => exact ⟨h.map, Or.inr ⟨hsize, rfl⟩, h.idle, h.small, h.saved⟩

theorem mapInv_emsInit (cfg : Config) (frame : Nat) : MapInv cfg (emsInit cfg frame) := by
  have h := bookInv_emsInit cfg frame
  refine ⟨h.map, h.pages, h.idle, ?_, h.saved⟩
  intro k
  by_cases hsize : cfg.emsSize = 0
  · simp [emsInit, emsReset2, hsize]
  · exact emsReset2_small hsize _ k

/-! ## Calls -/

theorem emsFn_change (h : MapInv cfg s) (r : Regs) :
    Outcome (env.aliased = true) (fun rep => Change cfg (hiByte r.ax = 0x5c) s rep.s)
      (emsFn cfg env s r) := by
  unfold emsFn
  split
  · exact .refl cfg _ s
  · next hinit =>
      have hsize : cfg.emsSize ≠ 0 := by
        rcases h.pages with hzero | ⟨hsize, -⟩
        · exact absurd hzero hinit
        · exact hsize
      split
      · split
        · exact .refl cfg _ s
        · exact allocateFn_change h.saved r
      · exact ((doMapUnmap_outcome h.idle _ _ _).mono fun _ hres => Change.mapped hres).map
          fun _ hres => hres
      · exact deallocateFn_change hinit r
      · exact savePageMap_change h hinit r
      · exact restorePageMap_change h r
      · exact pageMapRegisters_change h.idle r
      · exact partialMapRegisters_change h.idle r
      · exact ((mapUnmapMultiple_outcome h.idle _ _ _).mono fun _ hres =>
          Change.mapped hres).map fun _ hres => hres
      · exact (reallocatePages_change h.saved hinit _ r.bx.isLt).map fun _ hres => hres
      · exact handleName_change h.saved r
      · split
        · exact allocateFn_change h.saved r
        · exact .refl cfg _ s
      · next hah => exact .reset hah hsize hinit
      · exact .refl cfg _ s

/-- The call is a reset. -/
def Resets : EmsCall → Prop
  | .fn r _ => hiByte r.ax = 0x5c
  | _ => False

/-- Each call is one of the changes, and only a refused alias ends the
program. -/
theorem step_change (h : MapInv cfg s) (c : EmsCall) :
    Outcome (¬AliasRefused c) (Change cfg (Resets c) s) (step cfg s c) := by
  cases c with
  | fn r env =>
      refine Outcome.weaken ?_ fun hali => by simpa [AliasRefused] using hali
      exact (emsFn_change h r).map fun _ hres => hres
  | emmInit env =>
      simp only [step, emmInit, Outcome.some_iff]
      split
      · exact .refl cfg _ s
      · next hsize =>
          split
          · exact .refl cfg _ s
          · next hzero =>
              split
              · exact .refl cfg _ s
              · exact .started hsize (not_ne_iff.mp hzero)
  | alterMap method handle mapLen env =>
      refine Outcome.weaken ?_ fun hali => by simpa [AliasRefused] using hali
      exact (mapUnmapMultiple_outcome h.idle handle method mapLen).map fun _ hres => .mapped hres
  | apmapRet bySeg handle mapLen env =>
      refine Outcome.weaken ?_ fun hali => by simpa [AliasRefused] using hali
      exact (doMapUnmapMulti_outcome h.idle bySeg handle mapLen).map fun _ hres => .mapped hres
  | setAlternate env =>
      refine Outcome.weaken ?_ fun hali => by simpa [AliasRefused] using hali
      exact (emmSetMapRegisters_outcome h.idle cfg).map fun _ hres => .mapped hres

/-- The map stays right in every step. -/
theorem mapInv_step (h : MapInv cfg s) {c : EmsCall} (hstep : step cfg s c = some t) :
    MapInv cfg t :=
  h.change ((step_change h c).post hstep)

/-- The map is right in every state reached. -/
theorem mapInv_run (frame : Nat) {calls : List EmsCall}
    (hrun : run (step cfg) (emsInit cfg frame) calls = some s) : MapInv cfg s :=
  run_invariant (fun _ _ => True) (MapInv cfg) (fun _ _ _ h _ hstep => mapInv_step h hstep)
    (mapInv_emsInit cfg frame) (admits_true _ _) hrun

end Ems
end Dosemu
