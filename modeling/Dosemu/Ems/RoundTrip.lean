import Dosemu.Ems.Steps

/-!
# Saving and restoring the page map

Functions 4E00h and 4F00h write handle and logical page of the windows into a
buffer, 4E01h and 4F01h map them again.  The getters write `NULL_HANDLE` for a
window that is not mapped, and the setters look at the handle before they look
at the page: they stop at the first such window.

Main results:

- Theorem `setMapRegisters_saved`: the full setter restores the windows before
  the first empty entry and leaves the others.
- Theorem `setPartial_saved`: the partial setter succeeds exactly when it meets
  no empty entry.
- Theorem `page_map_round_trip_iff`: when a saved map is restored.
-/

namespace Dosemu
namespace Ems

open Function
open Run

variable {cfg : Config} {s t u : Driver} {env : Env}

/-! ## Round trips -/

/-- What the map says about a window. -/
def entry (s : Driver) (i : Nat) : Nat × Nat :=
  ((s.emmMap i).handle, (s.emmMap i).logicalPage)

/-- The window is not mapped. -/
def Unmapped (s : Driver) (i : Nat) : Prop :=
  (s.emmMap i).handle = nullHandle

/-- The buffer holds the words that were stored. -/
def Stored (env : Env) (out : List Nat) : Prop :=
  ∀ k w, out[k]? = some w → env.buf k = BitVec.ofNat 16 w

/-- Between the states no handle was freed or shrunk. -/
def KeepsHandles (s t : Driver) : Prop :=
  ∀ h, (s.handleInfo h).active ≠ 0 →
    (t.handleInfo h).active ≠ 0 ∧ (s.handleInfo h).numpages ≤ (t.handleInfo h).numpages

/-- A call that neither resets the driver nor frees or shrinks a handle. -/
def KeepsStep (cfg : Config) (s : Driver) (c : EmsCall) : Prop :=
  ¬Resets c ∧ ∀ t, step cfg s c = some t → KeepsHandles s t

/-- What 4E00h stored in `s`, passed to 4E01h in `t`, gives all windows back. -/
def FullRoundTrip (cfg : Config) (s t : Driver) : Prop :=
  ∀ (r r' : Regs) (env env' : Env), r.ax = 0x4e00 → r'.ax = 0x4e01 → env'.aliased = true →
    ∃ got, emsFn cfg env s r = some got ∧ (Stored env' got.out →
      ∃ put, emsFn cfg env' t r' = some put ∧ hiByte put.regs.ax = emmNoErr ∧
        ∀ i, i < s.physPages → entry put.s i = entry s i)

/-- The segments that the guest lists for 4F00h. -/
def listedSegs (env : Env) : List Nat :=
  (List.range (env.buf 0).toNat).map fun i => (env.buf (i + 1)).toNat

/-- What 4F00h stored in `s` for a list of segments, passed to 4F01h in `t`,
gives the listed windows back. -/
def PartialRoundTrip (cfg : Config) (env : Env) (s t : Driver) : Prop :=
  ∀ (r r' : Regs) (env' : Env), r.ax = 0x4f00 → r'.ax = 0x4f01 → env'.aliased = true →
    ∃ got, emsFn cfg env s r = some got ∧ hiByte got.regs.ax = emmNoErr ∧ (Stored env' got.out →
      ∃ put, emsFn cfg env' t r' = some put ∧ hiByte put.regs.ax = emmNoErr ∧
        ∀ seg ∈ listedSegs env, ∀ i, segToPhys s seg = some i → entry put.s i = entry s i)

/-- From the first window that was not mapped on, nothing has changed. -/
def TailKept (s t : Driver) : Prop :=
  ∀ k, Unmapped s k → ∀ i, k ≤ i → i < s.physPages → entry t i = entry s i

/-- Every listed segment is mappable. -/
def Mappable (env : Env) (s : Driver) : Prop :=
  ∀ seg ∈ listedSegs env, (segToPhys s seg).isSome

/-- Every listed window is mapped. -/
def CoveredMapped (env : Env) (s : Driver) : Prop :=
  ∀ seg ∈ listedSegs env, ∀ i, segToPhys s seg = some i → ¬Unmapped s i

/-! ## Buffers -/

/-- An element of a list that is put together from pieces of one length. -/
theorem getElem?_flatMap {α β : Type} {f : α → List β} {m : Nat} (hf : ∀ a, (f a).length = m)
    (l : List α) (i : Nat) {j : Nat} (hj : j < m) :
    (l.flatMap f)[m * i + j]? = (l[i]?).bind fun a => (f a)[j]? := by
  induction l generalizing i with
  | nil => simp
  | cons a l ih =>
      rw [List.flatMap_cons]
      cases i with
      | zero =>
          rw [List.getElem?_append_left (by rw [hf]; omega)]
          simp
      | succ i =>
          have hidx : m * (i + 1) + j = m + (m * i + j) := by ring
          rw [hidx, List.getElem?_append_right (by rw [hf]; omega), hf, Nat.add_sub_cancel_left, ih]
          simp

theorem MapInv.window (h : MapInv cfg s) (hinit : s.physPages ≠ 0) {i : Nat}
    (hi : i < s.physPages) : MapOk s (s.emmMap i) := by
  rcases h.pages with hzero | ⟨hsize, hall⟩
  · exact absurd hzero hinit
  · exact h.map hsize i (by omega)

/-- The words of a map entry fit the buffer. -/
theorem MapInv.entry_lt (h : MapInv cfg s) {i : Nat} (hok : MapOk s (s.emmMap i)) :
    (s.emmMap i).handle < 2 ^ 16 ∧ (s.emmMap i).logicalPage < 2 ^ 16 := by
  rcases hok with ⟨hnull, hpage⟩ | ⟨k, hk, -, hlogical⟩
  · rw [hnull, hpage]
    decide
  · have hsmall := h.small k
    have hlt := k.isLt
    unfold maxHandles at hlt
    omega

/-- A saved window is mapped to a page of a handle, or it is empty. -/
theorem MapInv.mapped (h : MapInv cfg s) {i : Nat} (hok : MapOk s (s.emmMap i))
    (hmapped : ¬Unmapped s i) : ∃ k : Fin maxHandles, (s.emmMap i).handle = k ∧
      (s.handleInfo k).active ≠ 0 ∧ (s.emmMap i).logicalPage < (s.handleInfo k).numpages ∧
      (s.emmMap i).logicalPage ≠ nullPage := by
  rcases hok with ⟨hnull, -⟩ | ⟨k, hk, hact, hlogical⟩
  · exact absurd hnull hmapped
  · refine ⟨k, hk, hact, hlogical, ?_⟩
    have hsmall := h.small k
    unfold nullPage
    omega

theorem toNat_ofNat_word {w : Nat} (h : w < 2 ^ 16) : (BitVec.ofNat 16 w).toNat = w := by
  rw [BitVec.toNat_ofNat]
  exact Nat.mod_eq_of_lt h

/-! ## Setters -/

/-- Mapping a saved window again, when its handle still has the page. -/
theorem mapOrUnmap_saved (hali : env.aliased = true) {p : Nat} {k : Fin maxHandles}
    (hphys : p < t.physPages) (hk : (s.emmMap p).handle = k)
    (hlogical : (s.emmMap p).logicalPage < (t.handleInfo k).numpages)
    (hpage : (s.emmMap p).logicalPage ≠ nullPage) :
    ∃ u, mapOrUnmap env t (s.emmMap p).handle p (s.emmMap p).logicalPage = some u ∧
      u.handleInfo = t.handleInfo ∧ u.physPages = t.physPages ∧ entry u p = entry s p ∧
      ∀ q, q ≠ p → u.emmMap q = t.emmMap q := by
  have hidx : handleIndex k.val = some k := handleIndex_eq_some.mpr rfl
  refine ⟨(t.setBacking p ((t.handleInfo k).object +
    (s.emmMap p).logicalPage * emmPageSize)).setMap p k (s.emmMap p).logicalPage, ?_, rfl, rfl,
    ?_, ?_⟩
  · simp [mapOrUnmap, mapPage, hpage, hk, hidx, hali, Nat.not_le.mpr hphys,
      Nat.not_le.mpr hlogical, handle_ne_null]
  · simp [entry, Driver.setMap, hk]
  · intro q hq
    simp [Driver.setMap, Driver.setBacking, hq]

/-- The full setter restores the windows before the first empty entry and
leaves the others. -/
theorem setMapRegisters_saved (hs : MapInv cfg s) (hali : env.aliased = true)
    (hinit : s.physPages ≠ 0) (n i : Nat) (hn : i + n = s.physPages)
    (hphys : t.physPages = s.physPages) (hkeep : KeepsHandles s t) :
    ∃ res, setMapRegisters env t i ((List.range n).map fun j => entry s (i + j)) = some res ∧
      ∀ p, p < s.physPages →
        ((i ≤ p ∧ ∀ k, i ≤ k → k ≤ p → ¬Unmapped s k) → entry res.2 p = entry s p) ∧
        ((p < i ∨ ∃ k, i ≤ k ∧ k ≤ p ∧ Unmapped s k) → entry res.2 p = entry t p) := by
  induction n generalizing i t with
  | zero =>
      refine ⟨_, rfl, ?_⟩
      intro p hp
      exact ⟨fun hc => by omega, fun _ => rfl⟩
  | succ n ih =>
      have hok := hs.window hinit (show i < s.physPages by omega)
      rw [List.range_succ_eq_map]
      simp only [List.map_cons, List.map_map, Nat.add_zero]
      by_cases hempty : Unmapped s i
      · -- the handle is checked first, and stops the loop
        have hnone : activeHandle t (s.emmMap i).handle = none := by
          rw [hempty]
          simp [activeHandle, handleIndex_null]
        refine ⟨(emmInvHan, t), ?_, ?_⟩
        · simp only [entry, setMapRegisters, hnone]
        · intro p hp
          exact ⟨fun hc => absurd hempty (hc.2 i le_rfl hc.1), fun _ => rfl⟩
      · obtain ⟨k, hk, hact, hlogical, hpage⟩ := hs.mapped hok hempty
        obtain ⟨hactive, hpages⟩ := hkeep k hact
        obtain ⟨u, hu, hinfo, hphysu, hentry, hframe⟩ :=
          mapOrUnmap_saved (t := t) (p := i) hali (by omega) hk
            (lt_of_lt_of_le hlogical hpages) hpage
        have hsome : activeHandle t (s.emmMap i).handle = some k :=
          activeHandle_eq_some.mpr ⟨hk.symm, hactive⟩
        have hkeepu : KeepsHandles s u := by
          unfold KeepsHandles
          rw [hinfo]
          exact hkeep
        obtain ⟨res, hres, hpost⟩ := ih (t := u) (i + 1) (by omega) (hphysu.trans hphys) hkeepu
        refine ⟨res, ?_, ?_⟩
        · have hshift : ((fun j => entry s (i + j)) ∘ Nat.succ) = fun j => entry s (i + 1 + j) := by
            funext j
            simp [Nat.add_assoc, Nat.add_comm 1]
          rw [hshift, show entry s i = ((s.emmMap i).handle, (s.emmMap i).logicalPage) from rfl,
            setMapRegisters, hsome]
          simp only [hu, Option.bind_some]
          exact hres
        · intro p hp
          obtain ⟨hset, hleft⟩ := hpost p hp
          by_cases hpi : p = i
          · subst hpi
            refine ⟨fun _ => (hleft (Or.inl (by omega))).trans hentry, ?_⟩
            rintro (hlt | ⟨k, hlo, hhi, hk⟩)
            · omega
            · exact absurd (le_antisymm hhi hlo ▸ hk) hempty
          · have hsame : entry u p = entry t p := by
              simp only [entry, hframe p hpi]
            refine ⟨?_, ?_⟩
            · rintro ⟨hlo, hmapped⟩
              exact hset ⟨by omega, fun k hk hkp => hmapped k (by omega) hkp⟩
            · rw [← hsame]
              rintro (hlt | ⟨k, hlo, hhi, hk⟩)
              · exact hleft (Or.inl (by omega))
              · refine hleft (Or.inr ⟨k, ?_, hhi, hk⟩)
                rcases Nat.lt_or_ge i k with hlt | hge
                · exact hlt
                · exact absurd (le_antisymm hge hlo ▸ hk) hempty

/-- The partial setter, on the entries it was saved from: it succeeds and gives
them back when none is empty, and it fails otherwise. -/
theorem setPartial_saved (hs : MapInv cfg s) (hali : env.aliased = true)
    (hinit : s.physPages ≠ 0) (ps : List Nat) (hps : ∀ p ∈ ps, p < s.physPages)
    (hphys : t.physPages = s.physPages) (hkeep : KeepsHandles s t) :
    ∃ res, setPartial env t (ps.map fun p => ((s.emmMap p).handle, (s.emmMap p).logicalPage, p)) =
        some res ∧
      (res.1 = emmNoErr ↔ ∀ p ∈ ps, ¬Unmapped s p) ∧
      ((∀ p ∈ ps, ¬Unmapped s p) →
        ∀ p, p ∈ ps ∨ entry t p = entry s p → entry res.2 p = entry s p) := by
  induction ps generalizing t with
  | nil => exact ⟨_, rfl, by simp, fun _ p hp => by simpa using hp⟩
  | cons q ps ih =>
      have hq := hps q List.mem_cons_self
      have hok := hs.window hinit hq
      rw [List.map_cons, setPartial]
      by_cases hempty : Unmapped s q
      · refine ⟨(emmArrCorrupt, t), ?_, ?_, ?_⟩
        · rw [if_pos]
          rw [hempty]
          decide
        · constructor
          · intro hc
            exact absurd hc (show emmArrCorrupt ≠ emmNoErr by decide)
          · intro hall
            exact absurd hempty (hall q List.mem_cons_self)
        · intro hall
          exact absurd hempty (hall q List.mem_cons_self)
      · obtain ⟨k, hk, hact, hlogical, hpage⟩ := hs.mapped hok hempty
        obtain ⟨hactive, hpages⟩ := hkeep k hact
        obtain ⟨u, hu, hinfo, hphysu, hentry, hframe⟩ :=
          mapOrUnmap_saved (t := t) (p := q) hali (by omega) hk
            (lt_of_lt_of_le hlogical hpages) hpage
        have hsome : activeHandle t (s.emmMap q).handle = some k :=
          activeHandle_eq_some.mpr ⟨hk.symm, hactive⟩
        have hkeepu : KeepsHandles s u := by
          unfold KeepsHandles
          rw [hinfo]
          exact hkeep
        obtain ⟨res, hres, hiff, hpost⟩ := ih (t := u)
          (fun p hp => hps p (List.mem_cons_of_mem q hp)) (hphysu.trans hphys) hkeepu
        refine ⟨res, ?_, ?_, ?_⟩
        · rw [if_neg (not_le.mpr (activeHandle_lt hsome)), hsome]
          simp only [hu, Option.bind_some]
          exact hres
        · rw [hiff, List.forall_mem_cons]
          exact ⟨fun hall => ⟨hempty, hall⟩, fun hall => hall.2⟩
        · intro hall p hp
          apply hpost fun p hp => hall p (List.mem_cons_of_mem q hp)
          by_cases hpq : p = q
          · subst hpq
            exact Or.inr hentry
          · have hsame : entry u p = entry t p := by
              simp only [entry, hframe p hpq]
            rw [hsame]
            exact hp.imp_left fun hmem => (List.mem_cons.mp hmem).resolve_left hpq

/-! ## Getters -/

/-- The words 4E00h stores are read back as the map entries. -/
theorem pairs_saved (hs : MapInv cfg s) (hinit : s.physPages ≠ 0)
    (hstored : Stored env (getMapRegisters s)) :
    pairs env s.physPages = (List.range s.physPages).map (entry s) := by
  unfold pairs
  apply List.map_congr_left
  intro i hi
  have hlt := List.mem_range.mp hi
  obtain ⟨hhandle, hlogical⟩ := hs.entry_lt (hs.window hinit hlt)
  have hget : ∀ j, j < 2 → (getMapRegisters s)[2 * i + j]? =
      [(s.emmMap i).handle, (s.emmMap i).logicalPage][j]? := by
    intro j hj
    unfold getMapRegisters
    rw [getElem?_flatMap (m := 2) (fun _ => rfl) _ i hj, List.getElem?_range hlt]
    rfl
  have hzero := hstored (2 * i) _ (hget 0 (by decide))
  have hone := hstored (2 * i + 1) _ (hget 1 (by decide))
  rw [hzero, hone, toNat_ofNat_word hhandle, toNat_ofNat_word hlogical]
  rfl

/-- The windows of a list of segments. -/
def listedWindows (s : Driver) (segs : List Nat) : List Nat :=
  segs.map fun seg => (segToPhys s seg).getD 0

theorem segToPhys_lt {seg i : Nat} (h : segToPhys s seg = some i) : i < s.physPages :=
  List.mem_range.mp (List.mem_of_find?_eq_some h)

theorem getPartial_eq {segs : List Nat} (h : ∀ seg ∈ segs, (segToPhys s seg).isSome) :
    getPartial s segs = (true, (listedWindows s segs).flatMap fun p =>
      [(s.emmMap p).handle, (s.emmMap p).logicalPage, p]) := by
  induction segs with
  | nil => rfl
  | cons seg segs ih =>
      obtain ⟨p, hp⟩ := Option.isSome_iff_exists.mp (h seg List.mem_cons_self)
      rw [getPartial, hp, ih fun seg hseg => h seg (List.mem_cons_of_mem _ hseg)]
      simp [listedWindows, hp]

theorem mem_listedWindows {segs : List Nat} (h : ∀ seg ∈ segs, (segToPhys s seg).isSome) {p : Nat} :
    p ∈ listedWindows s segs ↔ ∃ seg ∈ segs, segToPhys s seg = some p := by
  unfold listedWindows
  rw [List.mem_map]
  constructor
  · rintro ⟨seg, hseg, hp⟩
    obtain ⟨q, hq⟩ := Option.isSome_iff_exists.mp (h seg hseg)
    rw [hq, Option.getD_some] at hp
    exact ⟨seg, hseg, by rw [hq, hp]⟩
  · rintro ⟨seg, hseg, hp⟩
    exact ⟨seg, hseg, by rw [hp, Option.getD_some]⟩

/-- The words 4F00h stores are read back as the entries of the listed windows. -/
theorem triples_saved (hs : MapInv cfg s) (hinit : s.physPages ≠ 0) {ps : List Nat} {n : Nat}
    (hps : ∀ p ∈ ps, p < s.physPages) (hword : s.physPages ≤ 2 ^ 16)
    (hstored : Stored env (n :: ps.flatMap fun p =>
      [(s.emmMap p).handle, (s.emmMap p).logicalPage, p])) :
    triples env ps.length =
      ps.map fun p => ((s.emmMap p).handle, (s.emmMap p).logicalPage, p) := by
  apply List.ext_getElem
  · simp [triples]
  · intro i hi hi'
    have hlt : i < ps.length := by simpa [triples] using hi
    have hmem := hps ps[i] (List.getElem_mem hlt)
    obtain ⟨hhandle, hlogical⟩ := hs.entry_lt (hs.window hinit hmem)
    have hget : ∀ j, j < 3 → (n :: ps.flatMap fun p =>
        [(s.emmMap p).handle, (s.emmMap p).logicalPage, p])[3 * i + j + 1]? =
          [(s.emmMap ps[i]).handle, (s.emmMap ps[i]).logicalPage, ps[i]][j]? := by
      intro j hj
      rw [List.getElem?_cons_succ, getElem?_flatMap (m := 3) (fun _ => rfl) _ i hj,
        List.getElem?_eq_getElem hlt]
      rfl
    have hzero := hstored (3 * i + 1) _ (hget 0 (by decide))
    have hone := hstored (3 * i + 2) _ (hget 1 (by decide))
    have htwo := hstored (3 * i + 3) _ (hget 2 (by decide))
    simp only [triples, List.getElem_map, List.getElem_range, hzero, hone, htwo,
      toNat_ofNat_word hhandle, toNat_ofNat_word hlogical,
      toNat_ofNat_word (lt_of_lt_of_le hmem hword)]

/-! ## Calls -/

theorem hiByte_setAh (r : Regs) (v : Nat) : hiByte (setAh r v).ax = v % 256 := by
  have hlo : loByte r.ax < 256 := Nat.mod_lt _ (by decide)
  simp only [hiByte, setAh, BitVec.toNat_ofNat]
  omega

/-- A buffer that holds the given words. -/
def storing (out : List Nat) : Env :=
  { buf := fun k => BitVec.ofNat 16 (out[k]?.getD 0), mapping := none, aliased := true
    frameFree := true }

theorem stored_storing (out : List Nat) : Stored (storing out) out := by
  intro k w hk
  simp [storing, hk]

/-- What 4E00h answers. -/
theorem emsFn_getMap (hinit : s.physPages ≠ 0) (hsize : cfg.emsSize ≠ 0) {r : Regs}
    (hax : r.ax = 0x4e00) :
    emsFn cfg env s r = some ⟨s, setAh r emmNoErr, getMapRegisters s⟩ := by
  have hhi : hiByte r.ax = 0x4e := by
    rw [hax]
    decide
  have hlo : loByte r.ax = 0 := by
    rw [hax]
    decide
  simp [emsFn, hinit, hhi, pageMapRegisters, hlo, hsize]

/-- What 4E01h answers. -/
theorem emsFn_setMap (hinit : t.physPages ≠ 0) (hsize : cfg.emsSize ≠ 0) {r : Regs}
    (hax : r.ax = 0x4e01) :
    emsFn cfg env t r = (setMapRegisters env t 0 (pairs env t.physPages)).map fun res =>
      ⟨res.2, setAh r emmNoErr, []⟩ := by
  have hhi : hiByte r.ax = 0x4e := by
    rw [hax]
    decide
  have hlo : loByte r.ax = 1 := by
    rw [hax]
    decide
  simp [emsFn, hinit, hhi, pageMapRegisters, hlo, emmSetMapRegisters, hsize]

theorem fullRoundTrip_iff (hs : MapInv cfg s) (hinit : s.physPages ≠ 0)
    (hphys : t.physPages = s.physPages) (hkeep : KeepsHandles s t) :
    FullRoundTrip cfg s t ↔ TailKept s t := by
  have hsize : cfg.emsSize ≠ 0 := by
    rcases hs.pages with hzero | ⟨hsize, -⟩
    · exact absurd hzero hinit
    · exact hsize
  have hcall : ∀ (r' : Regs) (env' : Env), r'.ax = 0x4e01 → env'.aliased = true →
      Stored env' (getMapRegisters s) →
      ∃ put, emsFn cfg env' t r' = some put ∧ hiByte put.regs.ax = emmNoErr ∧
        ∀ p, p < s.physPages →
          ((∀ k, k ≤ p → ¬Unmapped s k) → entry put.s p = entry s p) ∧
          ((∃ k, k ≤ p ∧ Unmapped s k) → entry put.s p = entry t p) := by
    intro r' env' hax hali hstored
    obtain ⟨res, hres, hpost⟩ :=
      setMapRegisters_saved hs hali hinit s.physPages 0 (by omega) hphys hkeep
    simp only [Nat.zero_add] at hres
    refine ⟨⟨res.2, setAh r' emmNoErr, []⟩, ?_, ?_, ?_⟩
    · rw [emsFn_setMap (by omega) hsize hax, hphys, pairs_saved hs hinit hstored,
        show (List.range s.physPages).map (entry s) =
          (List.range s.physPages).map fun j => entry s j from rfl, hres]
      rfl
    · rw [hiByte_setAh]
      rfl
    · intro p hp
      obtain ⟨hset, hleft⟩ := hpost p hp
      refine ⟨fun hmapped => hset ⟨Nat.zero_le p, fun k _ hk => hmapped k hk⟩, ?_⟩
      rintro ⟨k, hk, hempty⟩
      exact hleft (Or.inr ⟨k, Nat.zero_le k, hk, hempty⟩)
  constructor
  · intro htrip k hempty i hki hi
    obtain ⟨got, hgot, hput⟩ := htrip ⟨0x4e00, 0, 0, 0⟩ ⟨0x4e01, 0, 0, 0⟩ (storing [])
      (storing (getMapRegisters s)) rfl rfl rfl
    rw [emsFn_getMap hinit hsize rfl, Option.some.injEq] at hgot
    subst hgot
    obtain ⟨put, heq, -, hback⟩ := hput (stored_storing _)
    obtain ⟨put', heq', -, hpost⟩ := hcall ⟨0x4e01, 0, 0, 0⟩ (storing (getMapRegisters s)) rfl rfl
      (stored_storing _)
    rw [heq, Option.some.injEq] at heq'
    subst heq'
    rw [← (hpost i hi).2 ⟨k, hki, hempty⟩]
    exact hback i hi
  · intro htail r r' env env' hax hax' hali
    refine ⟨_, emsFn_getMap hinit hsize hax, ?_⟩
    intro hstored
    obtain ⟨put, heq, hok, hpost⟩ := hcall r' env' hax' hali hstored
    refine ⟨put, heq, hok, ?_⟩
    intro i hi
    by_cases hmapped : ∃ k, k ≤ i ∧ Unmapped s k
    · rw [(hpost i hi).2 hmapped]
      obtain ⟨k, hki, hempty⟩ := hmapped
      exact htail k hempty i hki hi
    · exact (hpost i hi).1 fun k hk hempty => hmapped ⟨k, hk, hempty⟩

/-- What 4F00h answers for mappable segments. -/
theorem emsFn_getPartial (hinit : s.physPages ≠ 0) (hsize : cfg.emsSize ≠ 0)
    (hmappable : Mappable env s) {r : Regs} (hax : r.ax = 0x4f00) :
    emsFn cfg env s r = some ⟨s, setAh r emmNoErr,
      (env.buf 0).toNat :: (listedWindows s (listedSegs env)).flatMap fun p =>
        [(s.emmMap p).handle, (s.emmMap p).logicalPage, p]⟩ := by
  have hhi : hiByte r.ax = 0x4f := by
    rw [hax]
    decide
  have hlo : loByte r.ax = 0 := by
    rw [hax]
    decide
  have hpartial := getPartial_eq hmappable
  unfold listedSegs at hpartial ⊢
  simp [emsFn, hinit, hhi, partialMapRegisters, hlo, hsize, hpartial]

/-- What 4F01h answers. -/
theorem emsFn_setPartial (hinit : t.physPages ≠ 0) (hsize : cfg.emsSize ≠ 0) {r : Regs}
    (hax : r.ax = 0x4f01) :
    emsFn cfg env t r = (setPartial env t (triples env (env.buf 0).toNat)).map (report r) := by
  have hhi : hiByte r.ax = 0x4f := by
    rw [hax]
    decide
  have hlo : loByte r.ax = 1 := by
    rw [hax]
    decide
  simp [emsFn, hinit, hhi, partialMapRegisters, hlo, emmSetPartialMapRegisters, hsize]

/-- The partial setter only reports the codes of its checks. -/
theorem setPartial_code {regs : List (Nat × Nat × Nat)} {res : Nat × Driver}
    (h : setPartial env t regs = some res) :
    res.1 = emmNoErr ∨ res.1 = emmArrCorrupt ∨ res.1 = emmInvHan := by
  induction regs generalizing t with
  | nil =>
      cases h
      exact Or.inl rfl
  | cons e regs ih =>
      obtain ⟨handle, logical, phys⟩ := e
      rw [setPartial] at h
      split at h
      · cases h
        exact Or.inr (Or.inl rfl)
      · split at h
        · cases h
          exact Or.inr (Or.inr rfl)
        · obtain ⟨u, -, hrest⟩ := Option.bind_eq_some_iff.mp h
          exact ih hrest

theorem partialRoundTrip_iff (hs : MapInv cfg s) (hinit : s.physPages ≠ 0)
    (hphys : t.physPages = s.physPages) (hkeep : KeepsHandles s t) (hmappable : Mappable env s) :
    PartialRoundTrip cfg env s t ↔ CoveredMapped env s := by
  have hsize : cfg.emsSize ≠ 0 := by
    rcases hs.pages with hzero | ⟨hsize, -⟩
    · exact absurd hzero hinit
    · exact hsize
  have hps : ∀ p ∈ listedWindows s (listedSegs env), p < s.physPages := by
    intro p hp
    obtain ⟨seg, -, hseg⟩ := (mem_listedWindows hmappable).mp hp
    exact segToPhys_lt hseg
  have hword : s.physPages ≤ 2 ^ 16 := by
    have huma := cfg.umaMax
    have hcnv := cfg.cnvMax
    rw [hs.physPages_eq hinit]
    omega
  have hcovered : CoveredMapped env s ↔ ∀ p ∈ listedWindows s (listedSegs env), ¬Unmapped s p := by
    constructor
    · intro hall p hp
      obtain ⟨seg, hmem, hseg⟩ := (mem_listedWindows hmappable).mp hp
      exact hall seg hmem p hseg
    · intro hall seg hmem p hseg
      exact hall p ((mem_listedWindows hmappable).mpr ⟨seg, hmem, hseg⟩)
  have hlen : (listedWindows s (listedSegs env)).length = (env.buf 0).toNat := by
    simp [listedWindows, listedSegs]
  have hcall : ∀ (r' : Regs) (env' : Env), r'.ax = 0x4f01 → env'.aliased = true →
      Stored env' ((env.buf 0).toNat :: (listedWindows s (listedSegs env)).flatMap fun p =>
        [(s.emmMap p).handle, (s.emmMap p).logicalPage, p]) →
      ∃ put, emsFn cfg env' t r' = some put ∧
        (hiByte put.regs.ax = emmNoErr ↔ CoveredMapped env s) ∧
        (CoveredMapped env s → ∀ p ∈ listedWindows s (listedSegs env),
          entry put.s p = entry s p) := by
    intro r' env' hax hali hstored
    obtain ⟨res, hres, hiff, hpost⟩ := setPartial_saved hs hali hinit _ hps hphys hkeep
    have hcount : (env'.buf 0).toNat = (listedWindows s (listedSegs env)).length := by
      rw [hstored 0 _ rfl, toNat_ofNat_word (env.buf 0).isLt, hlen]
    refine ⟨report r' res, ?_, ?_, ?_⟩
    · rw [emsFn_setPartial (by omega) hsize hax, hcount, triples_saved hs hinit hps hword hstored,
        hres]
      rfl
    · rw [hcovered, ← hiff]
      simp only [report, hiByte_setAh]
      rcases setPartial_code hres with hcode | hcode | hcode
      · simp [hcode, emmNoErr]
      · simp [hcode, emmNoErr, emmArrCorrupt]
      · simp [hcode, emmNoErr, emmInvHan]
    · intro hall p hp
      exact hpost (hcovered.mp hall) p (Or.inl hp)
  constructor
  · intro htrip
    obtain ⟨got, hgot, -, hput⟩ := htrip ⟨0x4f00, 0, 0, 0⟩ ⟨0x4f01, 0, 0, 0⟩
      (storing ((env.buf 0).toNat :: (listedWindows s (listedSegs env)).flatMap fun p =>
        [(s.emmMap p).handle, (s.emmMap p).logicalPage, p])) rfl rfl rfl
    rw [emsFn_getPartial hinit hsize hmappable rfl, Option.some.injEq] at hgot
    subst hgot
    obtain ⟨put, heq, hok, -⟩ := hput (stored_storing _)
    obtain ⟨put', heq', hiff, -⟩ := hcall ⟨0x4f01, 0, 0, 0⟩ _ rfl rfl (stored_storing _)
    rw [heq, Option.some.injEq] at heq'
    subst heq'
    exact hiff.mp hok
  · intro hall r r' env' hax hax' hali
    refine ⟨_, emsFn_getPartial hinit hsize hmappable hax, ?_, ?_⟩
    · rw [hiByte_setAh]
      rfl
    · intro hstored
      obtain ⟨put, heq, hiff, hback⟩ := hcall r' env' hax' hali hstored
      refine ⟨put, heq, hiff.mpr hall, ?_⟩
      intro seg hmem i hseg
      exact hback hall i ((mem_listedWindows hmappable).mpr ⟨seg, hmem, hseg⟩)

/-! ## Runs -/

theorem Change.physPages_eq {resets : Prop} (h : Change cfg resets s t) (hreset : ¬resets)
    (hinit : s.physPages ≠ 0) : t.physPages = s.physPages := by
  cases h with
  | mapped hmap => exact hmap.physPages
  | noted hmap => exact hmap.physPages
  | allocated _ _ _ _ _ _ _ _ hphys => exact hphys
  | @freed i =>
      rw [emmDeallocateHandle_freed, clearName_physPages]
      exact (freedHandle_spec s i).2.1
  | resized => rfl
  | reset hresets => exact absurd hresets hreset
  | started _ hzero => exact absurd hzero hinit

/-- Over a run that neither frees nor shrinks, the handles keep their pages. -/
theorem keepsHandles_run (hs : MapInv cfg s) (hinit : s.physPages ≠ 0) {calls : List EmsCall}
    (hkeep : Admits (step cfg) (KeepsStep cfg) s calls)
    (hrun : run (step cfg) s calls = some t) :
    KeepsHandles s t ∧ t.physPages = s.physPages := by
  have hinv : MapInv cfg t ∧ KeepsHandles s t ∧ t.physPages = s.physPages := by
    refine run_invariant (KeepsStep cfg)
      (fun u => MapInv cfg u ∧ KeepsHandles s u ∧ u.physPages = s.physPages) ?_
      ⟨hs, fun _ hact => ⟨hact, le_rfl⟩, rfl⟩ hkeep hrun
    rintro u c v ⟨hu, hsu, hphys⟩ ⟨hreset, hstep⟩ hv
    have hchange := (step_change hu c).post hv
    refine ⟨hu.change hchange, ?_, ?_⟩
    · intro h hact
      obtain ⟨hact', hle⟩ := hsu h hact
      obtain ⟨hact'', hle'⟩ := hstep v hv h hact'
      exact ⟨hact'', le_trans hle hle'⟩
    · rw [hchange.physPages_eq hreset (by omega), hphys]
  exact hinv.2

/-- A map that was saved in a reachable state is restored after any calls that
neither free nor shrink a handle: by 4E01h exactly when nothing has changed from
the first window on that was not mapped, and by 4F01h exactly when all listed
windows were mapped. -/
theorem page_map_round_trip_iff {frame : Nat} {before between : List EmsCall}
    (hs : run (step cfg) (emsInit cfg frame) before = some s) (hinit : s.physPages ≠ 0)
    (hkeep : Admits (step cfg) (KeepsStep cfg) s between)
    (ht : run (step cfg) s between = some t) :
    (FullRoundTrip cfg s t ↔ TailKept s t) ∧
      ∀ env, Mappable env s → (PartialRoundTrip cfg env s t ↔ CoveredMapped env s) := by
  have hinv := mapInv_run frame hs
  obtain ⟨hhandles, hphys⟩ := keepsHandles_run hinv hinit hkeep ht
  exact ⟨fullRoundTrip_iff hinv hinit hphys hhandles,
    fun env hmappable => partialRoundTrip_iff hinv hinit hphys hhandles hmappable⟩

/-- Show the first page of the first handle in the first window. -/
def mapFirst : EmsCall :=
  .fn ⟨0x4400, 0, 0, 1⟩ (storing [])

theorem keepsStep_mapFirst (hs : MapInv cfg s) : KeepsStep cfg s mapFirst := by
  refine ⟨show hiByte 0x4400 ≠ 0x5c by decide, ?_⟩
  intro t ht
  have hmap : MapOnly s t := by
    simp only [mapFirst, step, emsFn, show hiByte 0x4400 = 0x44 by decide] at ht
    split at ht
    · cases ht
      exact MapOnly.refl s
    · simp only [Option.map_map] at ht
      obtain ⟨res, hres, rfl⟩ := Option.map_eq_some_iff.mp ht
      exact (doMapUnmap_outcome hs.idle _ _ _).post hres
  intro h hact
  rw [hmap.handleInfo]
  exact ⟨hact, le_rfl⟩

/-- One page is allocated and no window is mapped; then the first one is. -/
theorem onePage_mapFirst :
    ∃ s t, run (step twoMegabytes) (emsInit twoMegabytes 0xe000) onePage = some s ∧
      s.physPages ≠ 0 ∧ Unmapped s 0 ∧ run (step twoMegabytes) s [mapFirst] = some t ∧
      entry t 0 = (1, 0) := by
  have heval : ((run (step twoMegabytes) (emsInit twoMegabytes 0xe000) onePage).map fun s =>
      decide (s.physPages ≠ 0 ∧ (s.emmMap 0).handle = nullHandle ∧
        ((run (step twoMegabytes) s [mapFirst]).map fun t => entry t 0) = some (1, 0))) =
          some true := by
    decide +kernel
  rw [Option.map_eq_some_iff] at heval
  obtain ⟨s, hs, hprops⟩ := heval
  rw [decide_eq_true_eq, Option.map_eq_some_iff] at hprops
  obtain ⟨hinit, hempty, t, ht, hentry⟩ := hprops
  exact ⟨s, t, hs, hinit, hempty, ht, hentry⟩

theorem page_map_round_trip_onePage :
    ∃ s t, run (step twoMegabytes) (emsInit twoMegabytes 0xe000) onePage = some s ∧
      run (step twoMegabytes) s [mapFirst] = some t ∧
      (FullRoundTrip twoMegabytes s t ↔ TailKept s t) ∧
      ∀ env, Mappable env s → (PartialRoundTrip twoMegabytes env s t ↔ CoveredMapped env s) := by
  obtain ⟨s, t, hs, hinit, -, ht, -⟩ := onePage_mapFirst
  have hkeep : Admits (step twoMegabytes) (KeepsStep twoMegabytes) s [mapFirst] :=
    ⟨keepsStep_mapFirst (mapInv_run 0xe000 hs), fun _ _ => trivial⟩
  exact ⟨s, t, hs, ht, page_map_round_trip_iff hs hinit hkeep ht⟩

/-- A map saved while no window was mapped does not unmap the first window. -/
theorem saved_empty_map_not_restored :
    ¬∀ (before between : List EmsCall) (s t : Driver),
      run (step twoMegabytes) (emsInit twoMegabytes 0xe000) before = some s → s.physPages ≠ 0 →
      Admits (step twoMegabytes) (KeepsStep twoMegabytes) s between →
      run (step twoMegabytes) s between = some t → FullRoundTrip twoMegabytes s t := by
  intro hall
  obtain ⟨s, t, hs, hinit, hempty, ht, hentry⟩ := onePage_mapFirst
  have hinv := mapInv_run 0xe000 hs
  have hkeep : Admits (step twoMegabytes) (KeepsStep twoMegabytes) s [mapFirst] :=
    ⟨keepsStep_mapFirst hinv, fun _ _ => trivial⟩
  have htrip := hall onePage [mapFirst] s t hs hinit hkeep ht
  obtain ⟨hhandles, hphys⟩ := keepsHandles_run hinv hinit hkeep ht
  have htail := (fullRoundTrip_iff hinv hinit hphys hhandles).mp htrip
  have hsame := htail 0 hempty 0 le_rfl (Nat.pos_of_ne_zero hinit)
  rw [hentry] at hsame
  have hhandle : 1 = (s.emmMap 0).handle := congrArg Prod.fst hsame
  rw [hempty] at hhandle
  exact absurd hhandle (by decide)

end Ems
end Dosemu
