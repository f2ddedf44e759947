import Dosemu.Ems.Model
import Dosemu.Lib.Run
import Dosemu.Lib.Outcome

/-!
# Bookkeeping of the EMS driver

`handle_total` counts the active handles, `emm_allocated` their pages, and the
page map names only pages that active handles have.  Mapping functions change
only the map, and only to entries that are right; the functions that change
handles keep the counters, except that `reallocate_pages` has already changed
`emm_allocated` when the memory it asks for is refused.

Main results:

- Theorems `mapPage_outcome`, `setMapRegisters_outcome`, `restorePages_outcome`
  and their siblings: mapping functions change only the map.
- Theorem `reallocate_good_iff`: a reallocation keeps the books exactly when it
  gets its memory.
- Theorem `bookkeeping_iff`: the same for whole runs.
-/

namespace Dosemu
namespace Ems

open Function
open Run

variable {cfg : Config} {s t u : Driver} {env : Env}

/-! ## The books -/

/-- One for an active entry. -/
def HandleRecord.live (r : HandleRecord) : Nat :=
  if r.active ≠ 0 then 1 else 0

/-- The pages of an active entry. -/
def HandleRecord.pages (r : HandleRecord) : Nat :=
  if r.active ≠ 0 then r.numpages else 0

/-- A map entry is empty, or names a page that an active handle has. -/
def MapOk (s : Driver) (r : EmmRecord) : Prop :=
  (r.handle = nullHandle ∧ r.logicalPage = nullPage) ∨
    ∃ h : Fin maxHandles, r.handle = h ∧ (s.handleInfo h).active ≠ 0 ∧
      r.logicalPage < (s.handleInfo h).numpages

/-- A free entry has no pages. -/
def IdleEmpty (s : Driver) : Prop :=
  ∀ h, (s.handleInfo h).active = 0 → (s.handleInfo h).numpages = 0

/-- The counters agree with the handle table, and so does the map. -/
structure Booked (cfg : Config) (s : Driver) : Prop where
  total : s.handleTotal = Table.total HandleRecord.live s.handleInfo
  allocated : s.emmAllocated = Table.total HandleRecord.pages s.handleInfo
  bound : s.emmAllocated ≤ cfg.emmTotal
  map : ∀ i, i < s.physPages → MapOk s (s.emmMap i)

/-- The books, and what keeps them: the map is right also before the physical
pages are set up, a free entry has no pages, an entry has an object exactly when
it has pages, and saved maps name entries of the table. -/
structure BookInv (cfg : Config) (s : Driver) : Prop where
  total : s.handleTotal = Table.total HandleRecord.live s.handleInfo
  allocated : s.emmAllocated = Table.total HandleRecord.pages s.handleInfo
  bound : s.emmAllocated ≤ cfg.emmTotal
  map : cfg.emsSize ≠ 0 → ∀ i, i < cfg.cnvPages + cfg.umaPages → MapOk s (s.emmMap i)
  pages : s.physPages = 0 ∨ (cfg.emsSize ≠ 0 ∧ s.physPages = cfg.cnvPages + cfg.umaPages)
  idle : IdleEmpty s
  object : ∀ h, h ≠ osHandle → (s.handleInfo h).active ≠ 0 →
    ((s.handleInfo h).object = 0 ↔ (s.handleInfo h).numpages = 0)
  saved : ∀ h j, (s.handleInfo h).savedMappingsLogical j ≠ nullPage →
    (s.handleInfo h).savedMappingsHandle j < maxHandles

theorem BookInv.booked (h : BookInv cfg s) : Booked cfg s := by
  refine ⟨h.total, h.allocated, h.bound, ?_⟩
  intro i hi
  rcases h.pages with hzero | ⟨hsize, hall⟩
  · omega
  · exact h.map hsize i (by omega)

/-! ## Handles -/

theorem handleIndex_eq_some {n : Nat} {i : Fin maxHandles} :
    handleIndex n = some i ↔ i.val = n := by
  unfold handleIndex
  constructor
  · intro heq
    split at heq
    · cases heq
      rfl
    · cases heq
  · rintro rfl
    rw [dif_pos i.isLt]

theorem activeHandle_eq_some {n : Nat} {i : Fin maxHandles} :
    activeHandle s n = some i ↔ i.val = n ∧ (s.handleInfo i).active ≠ 0 := by
  unfold activeHandle
  cases hidx : handleIndex n with
  | none =>
      constructor
      · intro heq
        cases heq
      · rintro ⟨rfl, -⟩
        rw [handleIndex_eq_some.mpr rfl] at hidx
        cases hidx
  | some j =>
      have hj := handleIndex_eq_some.mp hidx
      simp only
      constructor
      · intro heq
        split at heq
        · cases heq
        · next hact =>
            cases heq
            exact ⟨hj, hact⟩
      · rintro ⟨hi, hact⟩
        have hij : i = j := Fin.ext (hi.trans hj.symm)
        subst hij
        rw [if_neg hact]

/-- A handle number is not the mark of an empty map entry. -/
theorem handle_ne_null (h : Fin maxHandles) : h.val ≠ nullHandle := by
  have hlt := h.isLt
  unfold maxHandles at hlt
  unfold nullHandle
  omega

theorem handleIndex_null : handleIndex nullHandle = none := by
  decide

/-! ## Functions that change only the map -/

/-- The address a window should show: the page its entry names, or its own
conventional memory. -/
def shownAddr (s : Driver) (i : Nat) : Nat :=
  match handleIndex (s.emmMap i).handle with
  | some h => (s.handleInfo h).object + (s.emmMap i).logicalPage * emmPageSize
  | none => s.physPageAddr i

theorem shownAddr_congr {i : Nat} (hinfo : t.handleInfo = s.handleInfo)
    (hmap : t.emmMap i = s.emmMap i) : shownAddr t i = shownAddr s i := by
  simp only [shownAddr, Driver.physPageAddr, hinfo, hmap]

/-- Between the states only the map and the windows have changed; each changed
entry is right, and its window shows what it names. -/
structure MapOnly (s t : Driver) : Prop where
  handleTotal : t.handleTotal = s.handleTotal
  emmAllocated : t.emmAllocated = s.emmAllocated
  physPages : t.physPages = s.physPages
  handleInfo : t.handleInfo = s.handleInfo
  physSeg : ∀ i, (t.emmMap i).physSeg = (s.emmMap i).physSeg
  emmMap : ∀ i, (t.emmMap i = s.emmMap i ∧ t.backing i = s.backing i) ∨
    (MapOk s (t.emmMap i) ∧ t.backing i = shownAddr t i)

theorem MapOnly.refl (s : Driver) : MapOnly s s :=
  ⟨rfl, rfl, rfl, rfl, fun _ => rfl, fun _ => Or.inl ⟨rfl, rfl⟩⟩

theorem MapOk.congr {r : EmmRecord} (h : MapOk s r) (hinfo : t.handleInfo = s.handleInfo) :
    MapOk t r := by
  unfold MapOk
  rw [hinfo]
  exact h

theorem MapOnly.trans (h : MapOnly s t) (h' : MapOnly t u) : MapOnly s u := by
  refine ⟨h'.handleTotal.trans h.handleTotal, h'.emmAllocated.trans h.emmAllocated,
    h'.physPages.trans h.physPages, h'.handleInfo.trans h.handleInfo,
    fun i => (h'.physSeg i).trans (h.physSeg i), ?_⟩
  intro i
  rcases h'.emmMap i with ⟨hsame, hback⟩ | ⟨hok, hshown⟩
  · rw [hsame, hback, shownAddr_congr h'.handleInfo hsame]
    exact h.emmMap i
  · right
    exact ⟨hok.congr h.handleInfo.symm, hshown⟩

theorem MapOnly.idle (h : MapOnly s t) (hidle : IdleEmpty s) : IdleEmpty t := by
  unfold IdleEmpty
  rw [h.handleInfo]
  exact hidle

/-- Such a change keeps the books. -/
theorem BookInv.mapOnly (h : BookInv cfg s) (hmap : MapOnly s t) : BookInv cfg t := by
  constructor
  · rw [hmap.handleTotal, hmap.handleInfo, h.total]
  · rw [hmap.emmAllocated, hmap.handleInfo, h.allocated]
  · rw [hmap.emmAllocated]
    exact h.bound
  · intro hsize i hi
    rcases hmap.emmMap i with ⟨hsame, -⟩ | ⟨hok, -⟩
    · rw [hsame]
      exact (h.map hsize i hi).congr hmap.handleInfo
    · exact hok.congr hmap.handleInfo
  · rw [hmap.physPages]
    exact h.pages
  · exact hmap.idle h.idle
  · rw [hmap.handleInfo]
    exact h.object
  · rw [hmap.handleInfo]
    exact h.saved

/-- Writing one right entry, with its window. -/
theorem setMap_mapOnly {phys handle logical addr : Nat}
    (hok : MapOk s ⟨handle, logical, (s.emmMap phys).physSeg⟩)
    (haddr : addr = shownAddr (s.setMap phys handle logical) phys) :
    MapOnly s ((s.setBacking phys addr).setMap phys handle logical) := by
  refine ⟨rfl, rfl, rfl, rfl, ?_, ?_⟩
  · intro i
    by_cases hi : i = phys
    · simp [Driver.setMap, Driver.setBacking, hi]
    · simp [Driver.setMap, Driver.setBacking, hi]
  · intro i
    by_cases hi : i = phys
    · right
      subst hi
      constructor
      · simpa [Driver.setMap, Driver.setBacking] using hok
      · have hsame : shownAddr ((s.setBacking i addr).setMap i handle logical) i =
            shownAddr (s.setMap i handle logical) i := shownAddr_congr rfl rfl
        rw [hsame, ← haddr]
        simp [Driver.setMap, Driver.setBacking]
    · left
      simp [Driver.setMap, Driver.setBacking, hi]

theorem mapOk_null (phys : Nat) : MapOk s ⟨nullHandle, nullPage, phys⟩ :=
  Or.inl ⟨rfl, rfl⟩

theorem unmapPage_mapOnly (s : Driver) (phys : Nat) : MapOnly s (unmapPage s phys).2 := by
  unfold unmapPage
  split
  · exact MapOnly.refl s
  · split
    · exact MapOnly.refl s
    · apply setMap_mapOnly (mapOk_null _)
      simp [shownAddr, Driver.setMap, Driver.physPageAddr, handleIndex_null]

/-- `map_page` maps only pages that an active handle has. -/
theorem mapPage_outcome (hidle : IdleEmpty s) {handle : Nat} (hrange : handle < maxHandles) (phys logical : Nat) :
    Outcome (env.aliased = true) (fun res => MapOnly s res.2)
      (mapPage env s handle phys logical) := by
  unfold mapPage
  by_cases hphys : s.physPages ≤ phys
  · simp [hphys, MapOnly.refl]
  · by_cases hnull : handle = nullHandle
    · simp [hphys, hnull, MapOnly.refl]
    · have hidx : handleIndex handle = some ⟨handle, hrange⟩ := handleIndex_eq_some.mpr rfl
      simp only [hphys, hnull, if_false, hidx]
      split
      · exact MapOnly.refl s
      · next hlogical =>
          by_cases hali : env.aliased = true
          · simp only [hali, if_true, Outcome.some_iff]
            apply setMap_mapOnly
            · right
              refine ⟨⟨handle, hrange⟩, rfl, ?_, by simpa using hlogical⟩
              intro hinactive
              have := hidle _ hinactive
              omega
            · simp [shownAddr, Driver.setMap, hidx]
          · simp [hali]

theorem mapOrUnmap_outcome (hidle : IdleEmpty s) {handle : Nat} (phys : Nat) {logical : Nat} (hrange : logical ≠ nullPage → handle < maxHandles) :
    Outcome (env.aliased = true) (MapOnly s) (mapOrUnmap env s handle phys logical) := by
  unfold mapOrUnmap
  by_cases hlogical : logical = nullPage
  · simp only [hlogical, ne_eq, not_true_eq_false, if_false, Outcome.some_iff]
    exact unmapPage_mapOnly s phys
  · simp only [ne_eq, hlogical, not_false_eq_true, if_true]
    exact (mapPage_outcome hidle (hrange hlogical) phys logical).map fun _ hres => hres

theorem activeHandle_lt {n : Nat} {i : Fin maxHandles} (h : activeHandle s n = some i) :
    n < maxHandles := by
  rw [← (activeHandle_eq_some.mp h).1]
  exact i.isLt

theorem doMapUnmap_outcome (hidle : IdleEmpty s) (handle phys logical : Nat) :
    Outcome (env.aliased = true) (fun res => MapOnly s res.2)
      (doMapUnmap env s handle phys logical) := by
  unfold doMapUnmap
  split
  · exact MapOnly.refl s
  · split
    · exact unmapPage_mapOnly s phys
    · split
      · exact MapOnly.refl s
      · next i hactive =>
          split
          · exact MapOnly.refl s
          · exact (mapPage_outcome hidle (activeHandle_lt hactive) phys logical).map
              fun _ hres => hres

theorem emmMapUnmapMulti_outcome (hidle : IdleEmpty s) (handle : Nat) (array : List (Nat × Nat)) :
    Outcome (env.aliased = true) (fun res => MapOnly s res.2)
      (emmMapUnmapMulti env handle s array) := by
  induction array generalizing s with
  | nil => exact MapOnly.refl s
  | cons entry rest ih =>
      obtain ⟨log, phys⟩ := entry
      apply Outcome.bind (doMapUnmap_outcome hidle handle phys log)
      intro res hres
      split
      · exact hres
      · exact (ih (hres.idle hidle)).mono fun _ hrest => hres.trans hrest

theorem doMapUnmapMulti_outcome (hidle : IdleEmpty s) (bySeg : Bool) (handle mapLen : Nat) :
    Outcome (env.aliased = true) (fun res => MapOnly s res.2)
      (doMapUnmapMulti env s bySeg handle mapLen) := by
  unfold doMapUnmapMulti
  split
  · split
    · exact MapOnly.refl s
    · exact emmMapUnmapMulti_outcome hidle handle _
  · exact emmMapUnmapMulti_outcome hidle handle _

theorem mapUnmapMultiple_outcome (hidle : IdleEmpty s) (handle method mapLen : Nat) :
    Outcome (env.aliased = true) (fun res => MapOnly s res.2)
      (mapUnmapMultiple env s handle method mapLen) := by
  unfold mapUnmapMultiple
  split
  · exact MapOnly.refl s
  · split
    · exact doMapUnmapMulti_outcome hidle false handle mapLen
    · split
      · exact doMapUnmapMulti_outcome hidle true handle mapLen
      · exact MapOnly.refl s

theorem setMapRegisters_outcome (hidle : IdleEmpty s) (i : Nat) (regs : List (Nat × Nat)) :
    Outcome (env.aliased = true) (fun res => MapOnly s res.2) (setMapRegisters env s i regs) := by
  induction regs generalizing s i with
  | nil => exact MapOnly.refl s
  | cons entry rest ih =>
      obtain ⟨handle, logical⟩ := entry
      rw [setMapRegisters]
      split
      · exact MapOnly.refl s
      · next h hactive =>
          apply Outcome.bind (mapOrUnmap_outcome hidle i fun _ => activeHandle_lt hactive)
          intro t ht
          exact (ih (ht.idle hidle) (i + 1)).mono fun _ hrest => ht.trans hrest

theorem emmSetMapRegisters_outcome (hidle : IdleEmpty s) (cfg : Config) :
    Outcome (env.aliased = true) (fun res => MapOnly s res.2) (emmSetMapRegisters cfg env s) := by
  unfold emmSetMapRegisters
  split
  · exact MapOnly.refl s
  · exact setMapRegisters_outcome hidle 0 _

theorem setPartial_outcome (hidle : IdleEmpty s) (regs : List (Nat × Nat × Nat)) :
    Outcome (env.aliased = true) (fun res => MapOnly s res.2) (setPartial env s regs) := by
  induction regs generalizing s with
  | nil => exact MapOnly.refl s
  | cons entry rest ih =>
      obtain ⟨handle, logical, phys⟩ := entry
      rw [setPartial]
      split
      · exact MapOnly.refl s
      · split
        · exact MapOnly.refl s
        · next h hactive =>
            apply Outcome.bind (mapOrUnmap_outcome hidle phys fun _ => activeHandle_lt hactive)
            intro t ht
            exact (ih (ht.idle hidle)).mono fun _ hrest => ht.trans hrest

/-- A saved map names entries of the table, so restoring it stays inside. -/
theorem restorePages_outcome (hidle : IdleEmpty s) {h : Fin maxHandles}
    (hsaved : ∀ j, (s.handleInfo h).savedMappingsLogical j ≠ nullPage →
      (s.handleInfo h).savedMappingsHandle j < maxHandles) (js : List (Fin emmMaxSavedPhys)) :
    Outcome (env.aliased = true) (MapOnly s) (restorePages env h s js) := by
  induction js generalizing s with
  | nil => exact MapOnly.refl s
  | cons j js ih =>
      apply Outcome.bind (mapOrUnmap_outcome hidle j (hsaved j))
      intro t ht
      have hrest := ih (s := t) (ht.idle hidle) (by rw [ht.handleInfo]; exact hsaved)
      exact hrest.mono fun _ hu => ht.trans hu

/-! ## Functions that change handles -/

/-- Overwriting the record of a handle, where no map entry depends on what is
lost. -/
theorem BookInv.replace (h : BookInv cfg s) {i : Fin maxHandles} {r : HandleRecord}
    (hinfo : t.handleInfo = update s.handleInfo i r)
    (hphys : t.physPages = s.physPages)
    (htotal : t.handleTotal + (s.handleInfo i).live = s.handleTotal + r.live)
    (hallocated : t.emmAllocated + (s.handleInfo i).pages = s.emmAllocated + r.pages)
    (hbound : t.emmAllocated ≤ cfg.emmTotal)
    (hmap : cfg.emsSize ≠ 0 → ∀ p, p < cfg.cnvPages + cfg.umaPages → MapOk t (t.emmMap p))
    (hidle : r.active = 0 → r.numpages = 0)
    (hobject : i ≠ osHandle → r.active ≠ 0 → (r.object = 0 ↔ r.numpages = 0))
    (hsaved : ∀ j, r.savedMappingsLogical j ≠ nullPage → r.savedMappingsHandle j < maxHandles) :
    BookInv cfg t := by
  have hlive := Table.total_update HandleRecord.live s.handleInfo i r
  have hpages := Table.total_update HandleRecord.pages s.handleInfo i r
  have hsum := h.total
  have hsum' := h.allocated
  have heach : ∀ P : Fin maxHandles → HandleRecord → Prop, P i r →
      (∀ k, P k (s.handleInfo k)) → ∀ k, P k (t.handleInfo k) := by
    intro P hnew hold k
    rw [hinfo]
    by_cases hk : k = i
    · rw [hk, update_self]
      exact hnew
    · rw [update_of_ne hk]
      exact hold k
  constructor
  · rw [hinfo]
    omega
  · rw [hinfo]
    omega
  · exact hbound
  · exact hmap
  · rw [hphys]
    exact h.pages
  · exact heach (fun _ e => e.active = 0 → e.numpages = 0) hidle h.idle
  · exact heach (fun k e => k ≠ osHandle → e.active ≠ 0 → (e.object = 0 ↔ e.numpages = 0))
      hobject h.object
  · exact heach (fun _ e => ∀ j, e.savedMappingsLogical j ≠ nullPage →
      e.savedMappingsHandle j < maxHandles) hsaved h.saved

/-- A right entry stays right when another handle changes, or when its own one
keeps its pages. -/
theorem MapOk.update {e : EmmRecord} (h : MapOk s e) {i : Fin maxHandles} {r : HandleRecord}
    (hinfo : t.handleInfo = update s.handleInfo i r)
    (hown : e.handle = i → (s.handleInfo i).active ≠ 0 →
      e.logicalPage < (s.handleInfo i).numpages → r.active ≠ 0 ∧ e.logicalPage < r.numpages) :
    MapOk t e := by
  rcases h with hnull | ⟨k, hk, hactive, hlogical⟩
  · exact Or.inl hnull
  · right
    refine ⟨k, hk, ?_⟩
    rw [hinfo]
    by_cases hki : k = i
    · subst hki
      rw [update_self]
      exact hown hk hactive hlogical
    · rw [update_of_ne hki]
      exact ⟨hactive, hlogical⟩

/-- A record that keeps what the books are about may be overwritten. -/
theorem BookInv.annotate (h : BookInv cfg s) {i : Fin maxHandles} {r : HandleRecord}
    (hactive : r.active = (s.handleInfo i).active) (hnum : r.numpages = (s.handleInfo i).numpages)
    (hobject : r.object = (s.handleInfo i).object)
    (hsaved : ∀ j, r.savedMappingsLogical j ≠ nullPage → r.savedMappingsHandle j < maxHandles) :
    BookInv cfg (s.setInfo i r) := by
  refine h.replace (show _ = _ from rfl) rfl ?_ ?_ h.bound ?_ ?_ ?_ hsaved
  · simp [Driver.setInfo, HandleRecord.live, hactive]
  · simp [Driver.setInfo, HandleRecord.pages, hactive, hnum]
  · intro hsize p hp
    refine (h.map hsize p hp).update (show _ = _ from rfl) ?_
    intro _ hact hlog
    rw [hactive, hnum]
    exact ⟨hact, hlog⟩
  · rw [hactive, hnum]
    exact h.idle i
  · rw [hactive, hnum, hobject]
    exact h.object i

/-- The books after an allocation, granted or not. -/
theorem BookInv.allocate (h : BookInv cfg s) (env : Env) (pagesNeeded : Nat) :
    BookInv cfg (emmAllocateHandle cfg env s pagesNeeded).2 := by
  unfold emmAllocateHandle
  split
  · exact h
  · split
    · exact h
    · split
      · exact h
      · next hroom =>
          split
          · exact h
          · next i hfind =>
              have hfound := List.find?_some hfind
              simp only [decide_eq_true_eq] at hfound
              obtain ⟨hpos, hinactive⟩ := hfound
              simp only
              split
              · exact h
              · next hobj =>
                  have hnum := h.idle i hinactive
                  refine h.replace (show _ = _ from rfl) rfl ?_ ?_ ?_ ?_ ?_ ?_ ?_
                  · simp [HandleRecord.live, hinactive]
                  · simp [HandleRecord.pages, hinactive]
                  · simp only
                    omega
                  · intro hsize p hp
                    refine (h.map hsize p hp).update (show _ = _ from rfl) ?_
                    intro _ hact _
                    exact absurd hinactive hact
                  · intro hzero
                    cases hzero
                  · intro _ _
                    simp only
                    constructor
                    · intro hnull
                      by_contra hzero
                      exact hobj ⟨hnull, by omega⟩
                    · intro hzero
                      simp [newMemoryObject, hzero]
                  · intro j hj
                    simp only [clearSaved] at hj
                    split at hj
                    · exact absurd rfl hj
                    · exact h.saved i j hj

/-- The loop of the deallocation empties the entries of the handle. -/
theorem unmapHandle_spec {h : Nat} (hne : h ≠ nullHandle) (is : List Nat)
    (hin : ∀ i ∈ is, i < s.physPages) :
    (unmapHandle s h is).handleInfo = s.handleInfo ∧
      (unmapHandle s h is).physPages = s.physPages ∧
      (unmapHandle s h is).handleTotal = s.handleTotal ∧
      (unmapHandle s h is).emmAllocated = s.emmAllocated ∧
      (∀ p, (unmapHandle s h is).emmMap p =
        if p ∈ is ∧ (s.emmMap p).handle = h then
          ⟨nullHandle, nullPage, (s.emmMap p).physSeg⟩
        else s.emmMap p) ∧
      ∀ p, (unmapHandle s h is).backing p =
        if p ∈ is ∧ (s.emmMap p).handle = h then s.physPageAddr p else s.backing p := by
  induction is generalizing s with
  | nil => simp [unmapHandle]
  | cons i is ih =>
      rw [unmapHandle]
      have hi := hin i List.mem_cons_self
      have hrest : ∀ k ∈ is, k < s.physPages := fun k hk => hin k (List.mem_cons_of_mem i hk)
      split
      · next hown =>
          have hunmap : (unmapPage s i).2 =
              (s.setBacking i (s.physPageAddr i)).setMap i nullHandle nullPage := by
            simp [unmapPage, Nat.not_le.mpr hi, hown, hne]
          have hset : (unmapPage s i).2.setMap i nullHandle ((unmapPage s i).2.emmMap i).logicalPage
              = (s.setBacking i (s.physPageAddr i)).setMap i nullHandle nullPage := by
            rw [hunmap]
            simp [Driver.setMap]
          rw [hset]
          obtain ⟨hinfo, hphys, htotal, halloc, hmap, hback⟩ :=
            ih (s := (s.setBacking i (s.physPageAddr i)).setMap i nullHandle nullPage) hrest
          refine ⟨hinfo, hphys, htotal, halloc, ?_, ?_⟩
          · intro p
            rw [hmap]
            by_cases hpi : p = i
            · subst hpi
              simp [Driver.setMap, Driver.setBacking, hown, hne.symm]
            · simp [Driver.setMap, Driver.setBacking, hpi]
          · intro p
            rw [hback]
            by_cases hpi : p = i
            · subst hpi
              simp [Driver.setMap, Driver.setBacking, hown, hne.symm]
            · simp [Driver.setMap, Driver.setBacking, Driver.physPageAddr, hpi]
      · next hother =>
          obtain ⟨hinfo, hphys, htotal, halloc, hmap, hback⟩ := ih (s := s) hrest
          refine ⟨hinfo, hphys, htotal, halloc, ?_, ?_⟩
          · intro p
            rw [hmap]
            by_cases hpi : p = i
            · subst hpi
              simp [hother]
            · simp [hpi]
          · intro p
            rw [hback]
            by_cases hpi : p = i
            · subst hpi
              simp [hother]
            · simp [hpi]

/-- A change of a name is nothing to the books. -/
theorem BookInv.clearName (h : BookInv cfg s) (n : Nat) : BookInv cfg (clearName s n) := by
  unfold Ems.clearName
  split
  · exact h.annotate rfl rfl rfl (h.saved _)
  · exact h

/-- The state of a deallocation before the name is cleared. -/
theorem emmDeallocateHandle_eq (s : Driver) (h : Fin maxHandles) :
    emmDeallocateHandle s h =
      let u := unmapHandle s h (List.range s.physPages)
      clearName
        { u.setInfo h { u.handleInfo h with numpages := 0, active := 0, object := 0 } with
          handleTotal := u.handleTotal - 1
          emmAllocated := u.emmAllocated - (u.handleInfo h).numpages }
        u.physPages := by
  unfold emmDeallocateHandle Ems.clearName
  simp only [Driver.setInfo]
  split <;> rfl

/-- A deallocation takes the handle and its pages off the books. -/
theorem BookInv.deallocate (h : BookInv cfg s) {i : Fin maxHandles}
    (hactive : (s.handleInfo i).active ≠ 0) (hinit : s.physPages ≠ 0) :
    BookInv cfg (emmDeallocateHandle s i) := by
  obtain ⟨hinfo, hphys, htotal, halloc, hmap, -⟩ :=
    unmapHandle_spec (s := s) (handle_ne_null i) (List.range s.physPages) (by simp)
  have hall : s.physPages = cfg.cnvPages + cfg.umaPages := by
    rcases h.pages with hzero | ⟨-, hall⟩
    · exact absurd hzero hinit
    · exact hall
  rw [emmDeallocateHandle_eq]
  apply BookInv.clearName
  refine h.replace (i := i) (r := { s.handleInfo i with numpages := 0, active := 0, object := 0 })
    ?_ ?_ ?_ ?_ ?_ ?_ (fun _ => rfl) ?_ (h.saved i)
  · simp only [Driver.setInfo, hinfo]
  · simp only [Driver.setInfo, hphys]
  · simp only [htotal]
    simp [HandleRecord.live, hactive]
  · simp only [halloc, hinfo]
    simp [HandleRecord.pages, hactive]
  · have hbound := h.bound
    simp only [halloc, hinfo]
    omega
  · intro hsize p hp
    simp only [Driver.setInfo]
    rw [hmap p]
    split
    · exact mapOk_null _
    · next hother =>
        refine (h.map hsize p hp).update (i := i)
          (by simp only [hinfo]; rfl) ?_
        intro hown _ _
        exact absurd ⟨List.mem_range.mpr (by omega), hown⟩ hother
  · intro _ hact
    exact absurd rfl hact

/-! ## Reallocation -/

/-- A page of the handle is to be mapped again, and the alias is refused. -/
def RemapRefused (env : Env) (s : Driver) (h newcount : Nat) : Prop :=
  env.aliased = false ∧ ∃ i, i < s.physPages ∧ (s.emmMap i).handle = h ∧
    (s.emmMap i).logicalPage < newcount

/-- The map without the pages of a handle that are out of range. -/
def dropPages (s : Driver) (h newcount : Nat) (is : List Nat) (p : Nat) : EmmRecord :=
  if p ∈ is ∧ (s.emmMap p).handle = h ∧ newcount ≤ (s.emmMap p).logicalPage then
    ⟨nullHandle, nullPage, (s.emmMap p).physSeg⟩
  else s.emmMap p

/-- The windows of a handle, with the pages that are in range shown again. -/
def remapBacking (s : Driver) (h : Fin maxHandles) (newcount : Nat) (is : List Nat) (p : Nat) : Nat :=
  if p ∈ is ∧ (s.emmMap p).handle = h ∧ (s.emmMap p).logicalPage < newcount then
    (s.handleInfo h).object + (s.emmMap p).logicalPage * emmPageSize
  else s.backing p

/-- The first loop of the reallocation shows conventional memory in the windows
of the handle. -/
theorem reunmapPages_eq (h : Nat) (is : List Nat) :
    reunmapPages h s is = { s with
      backing := fun p =>
        if p ∈ is ∧ (s.emmMap p).handle = h then s.physPageAddr p else s.backing p } := by
  induction is generalizing s with
  | nil => simp [reunmapPages]
  | cons i is ih =>
      rw [reunmapPages]
      split
      · next hown =>
          rw [ih]
          simp only [Driver.setBacking, Driver.physPageAddr, Driver.mk.injEq, true_and]
          funext p
          by_cases hp : p = i
          · simp [hp, hown]
          · simp [hp]
      · next hother =>
          rw [ih]
          simp only [Driver.mk.injEq, true_and]
          funext p
          by_cases hp : p = i
          · simp [hp, hother]
          · simp [hp]

/-- The last loop of the reallocation drops the pages that are out of range and
shows the others. -/
theorem remapPages_eq {h : Fin maxHandles} {newcount : Nat} (is : List Nat)
    (hali : env.aliased = true ∨ ∀ i ∈ is, (s.emmMap i).handle = h →
      newcount ≤ (s.emmMap i).logicalPage) :
    remapPages env h newcount s is = some { s with
      emmMap := dropPages s h newcount is, backing := remapBacking s h newcount is } := by
  have hne := (handle_ne_null h).symm
  induction is generalizing s with
  | nil =>
      have hsame : dropPages s h newcount [] = s.emmMap := by
        funext p
        simp [dropPages]
      have hback : remapBacking s h newcount [] = s.backing := by
        funext p
        simp [remapBacking]
      rw [remapPages, hsame, hback]
  | cons i is ih =>
      rw [remapPages]
      have hrest : env.aliased = true ∨ ∀ k ∈ is, (s.emmMap k).handle = h →
          newcount ≤ (s.emmMap k).logicalPage :=
        hali.imp_right fun hall k hk => hall k (List.mem_cons_of_mem i hk)
      split
      · next hown =>
          split
          · next hout =>
              rw [ih]
              · simp only [Option.some.injEq, Driver.mk.injEq]
                refine ⟨rfl, rfl, rfl, ?_, rfl, ?_⟩
                · funext p
                  by_cases hp : p = i
                  · subst hp
                    simp [dropPages, Driver.setMap, hown, hout, hne]
                  · simp [dropPages, Driver.setMap, hp]
                · funext p
                  by_cases hp : p = i
                  · subst hp
                    simp [remapBacking, Driver.setMap, hne, Nat.not_lt.mpr hout]
                  · simp [remapBacking, Driver.setMap, hp]
              · refine hrest.imp_right fun hall k hk => ?_
                by_cases hki : k = i
                · simp [Driver.setMap, hki, hne]
                · simpa [Driver.setMap, hki] using hall k hk
          · next hin =>
              have htrue : env.aliased = true := by
                rcases hali with htrue | hall
                · exact htrue
                · exact absurd (hall i List.mem_cons_self hown) hin
              rw [if_pos htrue, ih (Or.inl htrue)]
              simp only [Option.some.injEq, Driver.mk.injEq]
              refine ⟨rfl, rfl, rfl, ?_, rfl, ?_⟩
              · change dropPages s h newcount is = _
                funext p
                by_cases hp : p = i
                · subst hp
                  simp [dropPages, hin]
                · simp [dropPages, hp]
              · funext p
                by_cases hp : p = i
                · subst hp
                  simp [remapBacking, Driver.setBacking, hown, not_le.mp hin]
                · simp [remapBacking, Driver.setBacking, hp]
      · next hother =>
          rw [ih hrest]
          simp only [Option.some.injEq, Driver.mk.injEq, true_and]
          constructor
          · funext p
            by_cases hp : p = i
            · subst hp
              simp [dropPages, hother]
            · simp [dropPages, hp]
          · funext p
            by_cases hp : p = i
            · subst hp
              simp [remapBacking, hother]
            · simp [remapBacking, hp]

/-- It ends the program when an alias it needs is refused. -/
theorem remapPages_none {h : Fin maxHandles} {newcount : Nat} (hali : env.aliased = false) {is : List Nat}
    (hneed : ∃ i ∈ is, (s.emmMap i).handle = h ∧ (s.emmMap i).logicalPage < newcount) :
    remapPages env h newcount s is = none := by
  induction is generalizing s with
  | nil => simp at hneed
  | cons i is ih =>
      rw [remapPages]
      obtain ⟨k, hk, hown, hlogical⟩ := hneed
      by_cases hki : k = i
      · subst hki
        rw [if_pos hown, if_neg (by omega), if_neg (by simp [hali])]
      · have hmem := (List.mem_cons.mp hk).resolve_left hki
        split
        · split
          · apply ih
            exact ⟨k, hmem, by simpa [Driver.setMap, hki] using hown,
              by simpa [Driver.setMap, hki] using hlogical⟩
          · rw [if_neg (by simp [hali])]
        · exact ih ⟨k, hmem, hown, hlogical⟩

/-- The memory call of a reallocation that changes the size: it fails, or the
entry gets the new size. -/
theorem reallocObject_eq (env : Env) {r : HandleRecord} {newcount : Nat}
    (hobject : r.object = 0 ↔ r.numpages = 0) (hchange : newcount ≠ r.numpages) :
    reallocObject env r newcount =
      if newcount ≠ 0 ∧ reallocMemoryObject env = 0 then (emmOutOfLog, r)
      else (emmNoErr, { r with
        object := if newcount = 0 then 0 else reallocMemoryObject env, numpages := newcount }) := by
  unfold reallocObject newMemoryObject
  by_cases hzero : newcount = 0
  · have hobj : r.object ≠ 0 := by
      rw [ne_eq, hobject]
      omega
    simp [hzero, hobj]
  · by_cases hobj : r.object = 0
    · by_cases hmem : reallocMemoryObject env = 0
      · have hget : env.mapping.getD 0 = 0 := hmem
        simp [hzero, hobj, hmem, hget]
      · have hget : env.mapping.getD 0 ≠ 0 := hmem
        simp only [reallocMemoryObject] at hmem ⊢
        simp [hzero, hobj, hget]
    · by_cases hmem : reallocMemoryObject env = 0
      · simp [hzero, hobj, hmem]
      · simp [hzero, hobj, hmem]

/-- The state after a reallocation, with the given record. -/
def reallocated (s : Driver) (h : Fin maxHandles) (r : HandleRecord) (newcount : Nat) : Driver :=
  { s with
    emmAllocated := s.emmAllocated + ((newcount : Int) - (s.handleInfo h).numpages)
    handleInfo := update s.handleInfo h r
    emmMap := dropPages s h newcount (List.range s.physPages)
    backing := fun p =>
      if p < s.physPages ∧ (s.emmMap p).handle = h then
        if newcount ≤ (s.emmMap p).logicalPage then s.physPageAddr p
        else r.object + (s.emmMap p).logicalPage * emmPageSize
      else s.backing p }

/-- A reallocation within the total, as a change of state. -/
theorem doReallocate_eq {h : Fin maxHandles} {newcount err : Nat} {r : HandleRecord}
    (hfits : s.emmAllocated + ((newcount : Int) - (s.handleInfo h).numpages) ≤ cfg.emmTotal)
    (hobj : reallocObject env (s.handleInfo h) newcount = (err, r)) :
    (¬RemapRefused env s h newcount ∧
        doReallocate cfg env s h newcount = some (err, reallocated s h r newcount)) ∨
      (RemapRefused env s h newcount ∧ doReallocate cfg env s h newcount = none) := by
  unfold doReallocate
  simp only [not_lt.mpr hfits, if_false, reunmapPages_eq, hobj, Driver.setInfo]
  by_cases hrefused : RemapRefused env s h newcount
  · right
    refine ⟨hrefused, ?_⟩
    obtain ⟨hali, i, hi, hown, hlogical⟩ := hrefused
    rw [remapPages_none hali]
    · rfl
    · exact ⟨i, List.mem_range.mpr hi, hown, hlogical⟩
  · left
    refine ⟨hrefused, ?_⟩
    rw [remapPages_eq]
    · simp only [Option.map_some, reallocated, Option.some.injEq, Prod.mk.injEq, true_and,
        Driver.mk.injEq]
      constructor
      · rfl
      · funext p
        by_cases hown : (s.emmMap p).handle = h
        · by_cases hout : newcount ≤ (s.emmMap p).logicalPage
          · simp [remapBacking, Driver.physPageAddr, hown, hout, Nat.not_lt.mpr hout]
          · by_cases hp : p < s.physPages
            · simp [remapBacking, hown, hout, hp, not_le.mp hout]
            · simp [remapBacking, hp]
        · simp [remapBacking, hown]
    · by_cases hali : env.aliased = true
      · exact Or.inl hali
      · right
        intro i hi hown
        by_contra hlogical
        exact hrefused ⟨by simpa using hali, i, List.mem_range.mp hi, hown, by
          simpa using hlogical⟩

/-- A reallocation that gets its memory keeps the books. -/
theorem BookInv.reallocated (h : BookInv cfg s) {i : Fin maxHandles} {newcount obj : Nat}
    (hactive : (s.handleInfo i).active ≠ 0) (hinit : s.physPages ≠ 0)
    (hfits : s.emmAllocated + ((newcount : Int) - (s.handleInfo i).numpages) ≤ cfg.emmTotal)
    (hobj : obj = 0 ↔ newcount = 0) :
    BookInv cfg (reallocated s i
      { s.handleInfo i with object := obj, numpages := newcount } newcount) := by
  have hall : s.physPages = cfg.cnvPages + cfg.umaPages := by
    rcases h.pages with hzero | ⟨-, hall⟩
    · exact absurd hzero hinit
    · exact hall
  refine h.replace (show _ = _ from rfl) rfl ?_ ?_ hfits ?_ ?_ ?_ (h.saved i)
  · simp [Ems.reallocated, HandleRecord.live]
  · simp only [Ems.reallocated, HandleRecord.pages, ne_eq, hactive, not_false_eq_true, if_true]
    ring
  · intro hsize p hp
    simp only [Ems.reallocated, dropPages]
    split
    · exact mapOk_null _
    · next hkeep =>
        refine (h.map hsize p hp).update (show _ = _ from rfl) ?_
        intro hown hact _
        refine ⟨hact, ?_⟩
        by_contra hlogical
        exact hkeep ⟨List.mem_range.mpr (by omega), hown, by simpa using hlogical⟩
  · intro hzero
    exact absurd hzero hactive
  · intro _ _
    exact hobj

/-! ## Saved maps, names, reset -/

theorem BookInv.saveMap (h : BookInv cfg s) (hinit : s.physPages ≠ 0) (i : Fin maxHandles) :
    BookInv cfg (emmSaveHandleState cfg s i) := by
  unfold emmSaveHandleState
  refine h.annotate ?_ ?_ ?_ ?_
  · rfl
  · rfl
  · rfl
  intro j hj
  simp only at hj ⊢
  by_cases hsaved : j.val < cfg.savedPhysPages
  · by_cases hnull : (s.emmMap j).handle = nullHandle
    · simp [hsaved, hnull] at hj
    · rw [if_pos ⟨hsaved, hnull⟩]
      -- The saved pages are physical pages, and their entries are right.
      have hlt : j.val < cfg.umaPages := lt_of_lt_of_le hsaved (Nat.min_le_left _ _)
      have hsize : cfg.emsSize ≠ 0 := by
        rcases h.pages with hzero | ⟨hsize, -⟩
        · exact absurd hzero hinit
        · exact hsize
      rcases h.map hsize j (by omega) with ⟨hempty, -⟩ | ⟨k, hk, -, -⟩
      · exact absurd hempty hnull
      · rw [hk]
        exact k.isLt
  · simp only [hsaved, false_and, if_false] at hj ⊢
    exact h.saved i j hj

theorem BookInv.setSavedMapping (h : BookInv cfg s) (i : Fin maxHandles) (n : Nat) :
    BookInv cfg (s.setInfo i { s.handleInfo i with savedMapping := n }) :=
  h.annotate rfl rfl rfl (h.saved i)

theorem BookInv.savePageMap (h : BookInv cfg s) (hinit : s.physPages ≠ 0) (r : Regs) :
    BookInv cfg (savePageMap cfg s r).s := by
  unfold Ems.savePageMap
  split
  · exact h
  · split
    · exact h
    · exact (h.saveMap hinit _).setSavedMapping _ _

theorem restorePageMap_outcome (h : BookInv cfg s) (r : Regs) :
    Outcome (env.aliased = true) (fun rep => BookInv cfg rep.s)
      (restorePageMap cfg env s r) := by
  unfold restorePageMap emmRestoreHandleState
  split
  · exact h
  · next i _ =>
      split
      · exact h
      · refine (restorePages_outcome h.idle (h.saved i) _).map ?_
        intro t ht
        exact (h.mapOnly ht).setSavedMapping i _

theorem BookInv.handleName (h : BookInv cfg s) (env : Env) (r : Regs) :
    BookInv cfg (handleName env s r).s := by
  unfold Ems.handleName
  split
  · split
    · exact h
    · exact h.annotate rfl rfl rfl (h.saved _)
  · split
    · exact h
    · exact h.annotate rfl rfl rfl (h.saved _)
  · exact h

/-- The handles of saved maps are entries of the table. -/
def SavedOk (s : Driver) : Prop :=
  ∀ h j, (s.handleInfo h).savedMappingsLogical j ≠ nullPage →
    (s.handleInfo h).savedMappingsHandle j < maxHandles

theorem SavedOk.setInfo (hs : SavedOk s) {i : Fin maxHandles} {r : HandleRecord}
    (hlogical : r.savedMappingsLogical = (s.handleInfo i).savedMappingsLogical)
    (hhandle : r.savedMappingsHandle = (s.handleInfo i).savedMappingsHandle) :
    SavedOk (s.setInfo i r) := by
  intro h j hj
  by_cases hi : h = i
  · subst hi
    simp only [Driver.setInfo, update_self, hlogical, hhandle] at hj ⊢
    exact hs h j hj
  · simp only [Driver.setInfo, update_of_ne hi] at hj ⊢
    exact hs h j hj

theorem SavedOk.deallocate (hs : SavedOk s) (i : Fin maxHandles) :
    SavedOk (emmDeallocateHandle s i) := by
  obtain ⟨hinfo, -⟩ :=
    unmapHandle_spec (s := s) (handle_ne_null i) (List.range s.physPages) (by simp)
  rw [emmDeallocateHandle_eq]
  have hunmapped : SavedOk (unmapHandle s i (List.range s.physPages)) := by
    unfold SavedOk
    rw [hinfo]
    exact hs
  have hfreed := hunmapped.setInfo (i := i)
    (r := { (unmapHandle s i (List.range s.physPages)).handleInfo i with
      numpages := 0, active := 0, object := 0 }) rfl rfl
  unfold Ems.clearName
  simp only
  split
  · exact SavedOk.setInfo hfreed rfl rfl
  · exact hfreed

theorem SavedOk.deallocateAll (hs : SavedOk s) (is : List (Fin maxHandles)) :
    SavedOk (deallocateAll s is) := by
  induction is generalizing s with
  | nil => exact hs
  | cons i is ih =>
      rw [Ems.deallocateAll]
      split
      · exact ih (hs.deallocate i)
      · exact ih hs

/-- A reset driver has only the system handle. -/
theorem bookInv_emsReset2 (hsize : cfg.emsSize ≠ 0) (hs : SavedOk s) :
    BookInv cfg (emsReset2 cfg s) := by
  unfold emsReset2
  rw [if_neg hsize]
  constructor
  · rw [Table.total_eq_single osHandle]
    · simp [HandleRecord.live]
    · intro h hne
      simp [HandleRecord.live, hne]
  · rw [Table.total_eq_single osHandle]
    · simp [HandleRecord.pages]
    · intro h hne
      simp [HandleRecord.pages, hne]
  · simp only [Config.emmTotal]
    exact_mod_cast Nat.le_add_left _ _
  · intro _ i hi
    simp only
    split
    · next hcnv =>
        right
        refine ⟨osHandle, rfl, by simp, ?_⟩
        simp only [if_true]
        omega
    · exact mapOk_null _
  · exact Or.inl rfl
  · intro h hidle
    by_cases hos : h = osHandle
    · simp [hos] at hidle
    · simp [hos]
  · intro h hne hact
    simp [hne] at hact
  · intro h j hj
    by_cases hos : h = osHandle
    · subst hos
      simp only [if_true, clearSaved] at hj ⊢
      split at hj
      · exact absurd rfl hj
      · exact hs _ j hj
    · simp only [hos, if_false] at hj ⊢
      exact hs h j hj

theorem bookInv_emsInit (cfg : Config) (frame : Nat) : BookInv cfg (emsInit cfg frame) := by
  by_cases hsize : cfg.emsSize = 0
  · -- Without EMS nothing is set up, and nothing ever will be.
    unfold emsInit emsReset2
    rw [if_pos hsize]
    constructor
    · rw [Table.total_eq_zero]
      · rfl
      · intro i
        rfl
    · rw [Table.total_eq_zero]
      · rfl
      · intro i
        rfl
    · exact Int.natCast_nonneg _
    · intro hne
      exact absurd hsize hne
    · exact Or.inl rfl
    · intro h _
      rfl
    · intro h _ hact
      exact absurd rfl hact
    · intro h j _
      exact Nat.zero_lt_of_lt osHandle.isLt
  · exact bookInv_emsReset2 hsize fun h j _ => Nat.zero_lt_of_lt osHandle.isLt

/-! ## Steps and runs -/

/-- What a call must meet: a reallocation that asks for memory gets it (unless
the program ends there because an alias is refused). -/
def ReallocServed (cfg : Config) (s : Driver) : EmsCall → Prop
  | .fn r env => s.physPages ≠ 0 → hiByte r.ax = 0x51 → ∀ h, activeHandle s r.dx.toNat = some h →
      h ≠ osHandle → r.bx.toNat ≠ (s.handleInfo h).numpages → r.bx.toNat ≠ 0 →
      s.emmAllocated + ((r.bx.toNat : Int) - (s.handleInfo h).numpages) ≤ cfg.emmTotal →
      reallocMemoryObject env ≠ 0 ∨ RemapRefused env s h r.bx.toNat
  | _ => True

/-- The only way for the program to end here. -/
def AliasRefused : EmsCall → Prop
  | .fn _ env | .alterMap _ _ _ env | .apmapRet _ _ _ env | .setAlternate env =>
      env.aliased = false
  | .emmInit _ => False

/-- The books are right after the call, and the call ends the program only when
an alias is refused. -/
def GoodStep (cfg : Config) (s : Driver) (c : EmsCall) : Prop :=
  (∀ t, step cfg s c = some t → Booked cfg t) ∧ (step cfg s c = none → AliasRefused c)

/-- A reallocation that changes the size of an active handle within the total:
the program ends, the memory is refused, or the handle gets its new size. -/
theorem doReallocate_cases (h : BookInv cfg s) (env : Env) {i : Fin maxHandles} {newcount : Nat}
    (hactive : (s.handleInfo i).active ≠ 0) (hos : i ≠ osHandle)
    (hchange : newcount ≠ (s.handleInfo i).numpages)
    (hfits : s.emmAllocated + ((newcount : Int) - (s.handleInfo i).numpages) ≤ cfg.emmTotal) :
    (RemapRefused env s i newcount ∧ doReallocate cfg env s i newcount = none) ∨
      (¬RemapRefused env s i newcount ∧ newcount ≠ 0 ∧ reallocMemoryObject env = 0 ∧
        doReallocate cfg env s i newcount =
          some (emmOutOfLog, reallocated s i (s.handleInfo i) newcount)) ∨
      ∃ obj, (obj = 0 ↔ newcount = 0) ∧
        doReallocate cfg env s i newcount = some (emmNoErr, reallocated s i
          { s.handleInfo i with object := obj, numpages := newcount } newcount) := by
  have hobj := reallocObject_eq env (h.object i hos hactive) hchange
  by_cases hfail : newcount ≠ 0 ∧ reallocMemoryObject env = 0
  · rw [if_pos hfail] at hobj
    rcases doReallocate_eq hfits hobj with ⟨hgo, heq⟩ | hend
    · exact Or.inr (Or.inl ⟨hgo, hfail.1, hfail.2, heq⟩)
    · exact Or.inl hend
  · rw [if_neg hfail] at hobj
    rcases doReallocate_eq hfits hobj with ⟨-, heq⟩ | hend
    · refine Or.inr (Or.inr ⟨_, ?_, heq⟩)
      by_cases hzero : newcount = 0
      · simp [hzero]
      · simp only [hzero, if_false, iff_false]
        intro hmem
        exact hfail ⟨hzero, hmem⟩
    · exact Or.inl hend

/-- A reallocation that is served, or does not get as far as asking, keeps the
books. -/
theorem reallocatePages_outcome (h : BookInv cfg s) (hinit : s.physPages ≠ 0)
    {handle newcount : Nat}
    (hserved : ∀ i, activeHandle s handle = some i → i ≠ osHandle →
      newcount ≠ (s.handleInfo i).numpages → newcount ≠ 0 →
      s.emmAllocated + ((newcount : Int) - (s.handleInfo i).numpages) ≤ cfg.emmTotal →
      reallocMemoryObject env ≠ 0 ∨ RemapRefused env s i newcount) :
    Outcome (env.aliased = true) (fun res => BookInv cfg res.2)
      (reallocatePages cfg env s handle newcount) := by
  unfold reallocatePages
  split
  · exact h
  · next i hactive =>
      split
      · exact h
      · next hchange =>
          split
          · exact h
          · next hos =>
              have hact := (activeHandle_eq_some.mp hactive).2
              by_cases hfits :
                  s.emmAllocated + ((newcount : Int) - (s.handleInfo i).numpages) ≤ cfg.emmTotal
              · rcases doReallocate_cases h env hact hos hchange hfits with
                  ⟨hrefused, heq⟩ | ⟨hgo, hnonzero, hmem, -⟩ | ⟨obj, hobj, heq⟩
                · simp [heq, hrefused.1]
                · rcases hserved i hactive hos hchange hnonzero hfits with hgot | hrefused
                  · exact absurd hmem hgot
                  · exact absurd hrefused hgo
                · rw [heq]
                  exact h.reallocated hact hinit hfits hobj
              · simp [doReallocate, not_le.mp hfits, h]

theorem pageMapRegisters_outcome (h : BookInv cfg s) (r : Regs) :
    Outcome (env.aliased = true) (fun rep => BookInv cfg rep.s)
      (pageMapRegisters cfg env s r) := by
  have hset : Outcome (env.aliased = true) (fun res => BookInv cfg res.2)
      (emmSetMapRegisters cfg env s) :=
    (emmSetMapRegisters_outcome h.idle cfg).mono fun _ hres => h.mapOnly hres
  unfold pageMapRegisters
  simp only
  split
  · exact h
  · exact hset.map fun _ hres => hres
  · exact hset.map fun _ hres => hres
  · exact h
  · exact h

theorem partialMapRegisters_outcome (h : BookInv cfg s) (r : Regs) :
    Outcome (env.aliased = true) (fun rep => BookInv cfg rep.s)
      (partialMapRegisters cfg env s r) := by
  unfold partialMapRegisters
  split
  · split <;> exact h
  · apply Outcome.map (P := fun res => BookInv cfg res.2)
    · unfold emmSetPartialMapRegisters
      split
      · exact h
      · exact (setPartial_outcome h.idle _).mono fun _ hres => h.mapOnly hres
    · exact fun _ hres => hres
  · split <;> exact h
  · exact h

theorem BookInv.allocateFn (h : BookInv cfg s) (env : Env) (r : Regs) :
    BookInv cfg (allocateFn cfg env s r).s := by
  have hkeep := h.allocate env r.bx.toNat
  unfold Ems.allocateFn
  split
  · next heq => rwa [heq] at hkeep
  · next heq => rwa [heq] at hkeep

theorem BookInv.deallocateFn (h : BookInv cfg s) (hinit : s.physPages ≠ 0) (r : Regs) :
    BookInv cfg (deallocateFn s r).s := by
  unfold Ems.deallocateFn
  split
  · exact h
  · split
    · exact h
    · split
      · exact h
      · next hactive =>
          split
          · exact h
          · refine h.deallocate ?_ hinit
            rw [not_ne_iff.mp hactive]
            decide

/-- The memory of the driver after a warm boot. -/
theorem BookInv.reset (h : BookInv cfg s) (hsize : cfg.emsSize ≠ 0) :
    BookInv cfg (emsReset cfg s) :=
  bookInv_emsReset2 hsize (SavedOk.deallocateAll h.saved _)

/-- Each call whose reallocation is served keeps the books, and only a refused
alias ends the program. -/
theorem step_outcome (h : BookInv cfg s) (c : EmsCall) (hserved : ReallocServed cfg s c) :
    Outcome (¬AliasRefused c) (BookInv cfg) (step cfg s c) := by
  cases c with
  | emmInit env =>
      simp only [step, emmInit, Outcome.some_iff]
      split
      · exact h
      · next hsize =>
          split
          · exact h
          · split
            · exact h
            · exact ⟨h.total, h.allocated, h.bound, h.map, Or.inr ⟨hsize, rfl⟩, h.idle,
                h.object, h.saved⟩
  | fn r env =>
      have hfn : Outcome (env.aliased = true) (fun rep => BookInv cfg rep.s)
          (emsFn cfg env s r) := by
        unfold emsFn
        split
        · exact h
        · next hinit =>
            have hsize : cfg.emsSize ≠ 0 := by
              rcases h.pages with hzero | ⟨hsize, -⟩
              · exact absurd hzero hinit
              · exact hsize
            split
            · split
              · exact h
              · exact h.allocateFn env r
            · exact ((doMapUnmap_outcome h.idle _ _ _).mono fun _ hres => h.mapOnly hres).map
                fun _ hres => hres
            · exact h.deallocateFn hinit r
            · exact h.savePageMap hinit r
            · exact restorePageMap_outcome h r
            · exact pageMapRegisters_outcome h r
            · exact partialMapRegisters_outcome h r
            · exact ((mapUnmapMultiple_outcome h.idle _ _ _).mono fun _ hres =>
                h.mapOnly hres).map fun _ hres => hres
            · next hah =>
                exact (reallocatePages_outcome h hinit (hserved hinit hah)).map
                  fun _ hres => hres
            · exact h.handleName env r
            · split
              · exact h.allocateFn env r
              · exact h
            · exact h.reset hsize
            · exact h
      exact (hfn.map fun _ hres => hres).weaken fun hali => by simpa [AliasRefused] using hali
  | alterMap method handle mapLen env =>
      refine Outcome.weaken ?_ fun hali => by simpa [AliasRefused] using hali
      exact (mapUnmapMultiple_outcome h.idle handle method mapLen).map fun _ hres => h.mapOnly hres
  | apmapRet bySeg handle mapLen env =>
      refine Outcome.weaken ?_ fun hali => by simpa [AliasRefused] using hali
      exact (doMapUnmapMulti_outcome h.idle bySeg handle mapLen).map fun _ hres => h.mapOnly hres
  | setAlternate env =>
      refine Outcome.weaken ?_ fun hali => by simpa [AliasRefused] using hali
      exact (emmSetMapRegisters_outcome h.idle cfg).map fun _ hres => h.mapOnly hres

/-- A reallocation that is refused its memory leaves `emm_allocated` changed. -/
theorem reallocServed_of_goodStep (h : BookInv cfg s) {c : EmsCall} (hgood : GoodStep cfg s c) :
    ReallocServed cfg s c := by
  cases c with
  | emmInit | alterMap | apmapRet | setAlternate => trivial
  | fn r env =>
      intro hinit hah i hactive hos hchange hnonzero hfits
      by_contra hunserved
      rw [not_or, not_not] at hunserved
      obtain ⟨hmem, hgo⟩ := hunserved
      have hact := (activeHandle_eq_some.mp hactive).2
      have heq : doReallocate cfg env s i r.bx.toNat =
          some (emmOutOfLog, reallocated s i (s.handleInfo i) r.bx.toNat) := by
        rcases doReallocate_cases h env hact hos hchange hfits with
          ⟨hrefused, -⟩ | ⟨-, -, -, heq⟩ | ⟨obj, hobj, heq⟩
        · exact absurd hrefused hgo
        · exact heq
        · have hobject := reallocObject_eq env (h.object i hos hact) hchange
          rw [if_pos ⟨hnonzero, hmem⟩] at hobject
          rcases doReallocate_eq hfits hobject with ⟨-, heq'⟩ | ⟨hrefused, -⟩
          · exact heq'
          · exact absurd hrefused hgo
      have hstep : step cfg s (.fn r env) =
          some (reallocated s i (s.handleInfo i) r.bx.toNat) := by
        simp [step, emsFn, hinit, hah, reallocatePages, hactive, hchange, hos, heq, report]
      have hbooked := hgood.1 _ hstep
      have hcount := hbooked.allocated
      simp only [reallocated, update_eq_self] at hcount
      have hsum := h.allocated
      omega

/-- From booked states, a step is good exactly when its reallocation is served. -/
theorem goodStep_iff (h : BookInv cfg s) (c : EmsCall) :
    GoodStep cfg s c ↔ ReallocServed cfg s c := by
  constructor
  · exact reallocServed_of_goodStep h
  · intro hserved
    have hout := step_outcome h c hserved
    refine ⟨fun t ht => (hout.post ht).booked, ?_⟩
    intro hnone
    rw [hnone] at hout
    exact not_not.mp hout

/-- In a run of calls the books are right in every state reached, and only a
refused alias ends the run, exactly when every reallocation that asks for
memory gets it. -/
theorem bookkeeping_iff (cfg : Config) (frame : Nat) (calls : List EmsCall) :
    Admits (step cfg) (GoodStep cfg) (emsInit cfg frame) calls ↔
      Admits (step cfg) (ReallocServed cfg) (emsInit cfg frame) calls :=
  admits_congr (BookInv cfg) (fun _ c _ h hserved ht => (step_outcome h c hserved).post ht)
    (fun _ c h => goodStep_iff h c) (bookInv_emsInit cfg frame)

/-- Two megabytes of EMS with a page frame of four pages. -/
def twoMegabytes : Config :=
  { emsSize := 2048, umaPages := 4, cnvPages := 0, umaMax := by decide, cnvMax := by decide }

/-- A buffer of zeros; memory is granted or refused, aliases always work. -/
def plainEnv (mapping : Option Nat) : Env :=
  { buf := fun _ => 0, mapping := mapping, aliased := true, frameFree := true }

/-- Set up the driver and allocate one page. -/
def onePage : List EmsCall :=
  [.emmInit (plainEnv none), .fn ⟨0x4300, 1, 0, 0⟩ (plainEnv (some 4096))]

/-- The first handle that is given out. -/
def handleOne : Fin maxHandles := ⟨1, by decide⟩

theorem onePage_allocated :
    ∃ t, run (step twoMegabytes) (emsInit twoMegabytes 0xe000) onePage = some t ∧
      t.physPages ≠ 0 ∧ activeHandle t 1 = some handleOne ∧ (t.handleInfo handleOne).numpages = 1 ∧
        t.emmAllocated = 1 := by
  have heval : ((run (step twoMegabytes) (emsInit twoMegabytes 0xe000) onePage).map fun t =>
      decide (t.physPages ≠ 0 ∧ activeHandle t 1 = some handleOne ∧ (t.handleInfo handleOne).numpages = 1 ∧
        t.emmAllocated = 1)) = some true := by
    decide +kernel
  rw [Option.map_eq_some_iff] at heval
  obtain ⟨t, ht, hprops⟩ := heval
  rw [decide_eq_true_eq] at hprops
  exact ⟨t, ht, hprops⟩

/-- A second page is asked for in vain: one page is in use, and two are on the
books. -/
theorem refusedRealloc_breaks_books :
    ¬Admits (step twoMegabytes) (GoodStep twoMegabytes) (emsInit twoMegabytes 0xe000)
      (onePage ++ [.fn ⟨0x5100, 2, 0, 1⟩ (plainEnv none)]) := by
  intro hall
  have hserved := (admits_congr (BookInv twoMegabytes)
    (fun _ c _ h hserved ht => (step_outcome h c hserved).post ht)
    (fun _ c h => goodStep_iff h c) (bookInv_emsInit twoMegabytes 0xe000)).mp hall
  obtain ⟨t, ht, hinit, hactive, hpages, hsum⟩ := onePage_allocated
  have hlast := ((admits_append.mp hserved).2 t ht).1 hinit (by decide) handleOne hactive (by decide)
  rw [hpages, hsum] at hlast
  rcases hlast (by decide) (by decide) (by decide) with hmem | hrefused
  · exact hmem rfl
  · exact absurd hrefused.1 (by decide)

end Ems
end Dosemu
