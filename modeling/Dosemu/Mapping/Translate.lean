import Dosemu.Mapping.Records

/-!
# Physical and linear addresses

A physical address can be turned into a pointer directly, or by way of its linear
address.  Both ways use the pointer in the page's record, and differ where there
is none: low memory follows linear addresses, but `get_hardware_uaddr` indexes it
by the physical one.

Main results:

- Theorem `LowAgrees.touch`: the slots of the lowest pages follow the records.
- Theorem `translations_agree_iff`: when the two ways agree.
-/

namespace Dosemu
namespace Mapping

open Shadow

/-- A call that changes what addresses mean. -/
inductive MapOp where
  | register (region : Region)
  | unregister (base : Nat)
  | call (op : Op)

/-- Do a call. -/
def mapStep (host : Host) (s : State) : MapOp → Option State
  | .register region => some (s.doRegisterHwram region)
  | .unregister base => some (s.unregisterHardwareRamVirtual base).2
  | .call op => step host s op

/-- Regions are registered apart, and ranges to alias or to unalias lie in one region and are
looked up there. -/
def Legal (s : State) : MapOp → Prop
  | .register region => ∀ hw ∈ s.hardwareRam, region.Separate hw.toRegion
  | .unregister _ => True
  | .call (.aliasPa addr mapsize protect source) =>
      InRegion s (.aliasPa addr mapsize protect source) ∧
        ∀ x ∈ s.doGetHardwareRam addr mapsize, addr + mapsize ≤ x.2.1.base + x.2.1.size
  | .call (.unaliasPa addr mapsize) =>
      InRegion s (.unaliasPa addr mapsize) ∧
        ∀ x ∈ s.doGetHardwareRam addr mapsize, addr + mapsize ≤ x.2.1.base + x.2.1.size
  | .call _ => False

/-- The linear address of a physical address of a region. -/
def HardwareRam.linearOf (hw : HardwareRam) (p : Nat) : Nat :=
  hw.vbase + (p - hw.base)

/-- The pointer of a physical address is that of its linear address, which leads back. -/
def TranslationsAgree (host : Host) (s : State) (p : Nat) : Prop :=
  ∃ va, s.physaddrToDosaddr p 1 = some va ∧
    (∃ u, s.physaddrToUnixaddr host p = some (some u) ∧ s.dosaddrToUnixaddr host va = some u) ∧
    ∃ hw, s.doFindHardwareRam va 1 = some (some (hw, p))

/-- The page has a pointer; or low memory is where the physical address says, too. -/
def HardwareRam.Resolves (host : Host) (s : State) (hw : HardwareRam) (p : Nat) : Prop :=
  (hw.aliasmap (hw.pageOf p)).ptr ≠ 0 ∨
    if hw.linearOf p < aliasSize then
      s.lowmemAliasmap (hw.linearOf p / 4096) = host.lowmem (p - p % 4096)
    else hw.vbase = hw.base

variable {host : Host} {s t : State} {hw hw' : HardwareRam}
variable {addr mapsize va i k n p : Nat} {r : Int}

/-! ## The slots of the lowest pages -/

/-- The slot of a page that has a pointer is that pointer. -/
def State.LowAgrees (s : State) : Prop :=
  ∀ hw ∈ s.hardwareRam, hw.vbase ≠ noAddr → ∀ k < pageCount hw.size, (hw.aliasmap k).ptr ≠ 0 →
    hw.pageAddr k < aliasSize → s.lowmemAliasmap (hw.vbase / 4096 + k) = (hw.aliasmap k).ptr

/-- Nothing is unmapped. -/
def State.AllMapped (s : State) : Prop :=
  ∀ hw ∈ s.hardwareRam, ∀ k, (hw.aliasmap k).mapped = true

/-- If the slots of a range follow its records, and the others stay, all slots do. -/
theorem State.LowAgrees.touch {f : Nat → AliasmapS → AliasmapS} {g : Nat → VPage → VPage}
    (hs : s.LowAgrees) (hd : s.Disjoint) (ht : Touches s t i hw k n f g)
    (hi : s.hardwareRam[i]? = some hw) (hlive : hw.vbase ≠ noAddr)
    (hn : k + n ≤ pageCount hw.size)
    (hin : ∀ m < n, (f m (hw.aliasmap (k + m))).ptr ≠ 0 → hw.pageAddr (k + m) < aliasSize →
      t.lowmemAliasmap (hw.vbase / 4096 + (k + m)) = (f m (hw.aliasmap (k + m))).ptr)
    (hout : ∀ j, j < hw.vbase / 4096 + k ∨ hw.vbase / 4096 + k + n ≤ j →
      t.lowmemAliasmap j = s.lowmemAliasmap j) : t.LowAgrees := by
  intro hw' hmem hlive' l hl hptr hlow
  rcases ht.mem_cases hmem with rfl | ⟨j, hj, hget⟩
  · by_cases hrange : k ≤ l ∧ l < k + n
    · obtain ⟨m, rfl⟩ := Nat.exists_eq_add_of_le hrange.1
      dsimp only at hptr ⊢
      rw [sweep_inside (by omega)] at hptr ⊢
      exact hin m (by omega) hptr hlow
    · dsimp only at hptr hl ⊢
      rw [sweep_outside (by omega)] at hptr ⊢
      rw [hout _ (by omega)]
      exact hs hw (List.mem_of_getElem? hi) hlive l hl hptr hlow
  · -- the slots of another region are not in the range
    rw [hout]
    · exact hs hw' (List.mem_of_getElem? hget) hlive' l hl hptr hlow
    · by_contra hinside
      have hsep := hd.separate hget hi hj
      have hne := hsep.pages (m := hw'.vbase / 4096 + l - hw.vbase / 4096) hlive' hlive hl
        (by omega)
      omega

/-- Records that only lose or gain pointers stay mapped. -/
theorem State.AllMapped.touch {f : Nat → AliasmapS → AliasmapS} {g : Nat → VPage → VPage}
    (hs : s.AllMapped) (ht : Touches s t i hw k n f g) (hi : s.hardwareRam[i]? = some hw)
    (hf : ∀ m am, (f m am).mapped = am.mapped) : t.AllMapped := by
  intro hw' hmem l
  rcases ht.mem_cases hmem with rfl | ⟨j, -, hget⟩
  · have hold := hs hw (List.mem_of_getElem? hi) l
    dsimp only
    rw [sweep_apply]
    split_ifs
    · rw [hf, hold]
    · exact hold
  · exact hs hw' (List.mem_of_getElem? hget) l

/-- The state between calls. -/
structure MapInv (s : State) : Prop where
  disjoint : s.Disjoint
  mapped : s.AllMapped
  low : s.LowAgrees

theorem MapInv.register {region : Region} (h : MapInv s)
    (hlegal : ∀ hw ∈ s.hardwareRam, region.Separate hw.toRegion) :
    MapInv (s.doRegisterHwram region) := by
  refine ⟨?_, ?_, ?_⟩
  · refine List.pairwise_cons.mpr ⟨?_, h.disjoint⟩
    intro a ha
    obtain ⟨hw, hmem, rfl⟩ := List.mem_map.mp ha
    exact hlegal hw hmem
  · intro hw hmem k
    rcases List.mem_cons.mp hmem with rfl | hmem
    · rfl
    · exact h.mapped hw hmem k
  · intro hw hmem hlive k hk hptr hlow
    rcases List.mem_cons.mp hmem with rfl | hmem
    · exact absurd rfl hptr
    · exact h.low hw hmem hlive k hk hptr hlow

theorem MapInv.unregister (h : MapInv s) (base : Nat) :
    MapInv (s.unregisterHardwareRamVirtual base).2 := by
  unfold State.unregisterHardwareRamVirtual
  split_ifs
  · have hsub := List.eraseP_sublist (p := fun hw : HardwareRam => decide (hw.base = base))
      (l := s.hardwareRam)
    refine ⟨h.disjoint.sublist (hsub.map _), ?_, ?_⟩
    · intro hw hmem
      exact h.mapped hw (hsub.subset hmem)
    · intro hw hmem
      exact h.low hw (hsub.subset hmem)
  · exact h

/-- The slots after an alias of a range. -/
theorem LowAliased.slots {source : Nat} (h : LowAliased s t va mapsize source)
    (hfound : Found s addr mapsize i hw va) :
    (∀ m < pageCount mapsize, hw.pageAddr (hw.pageOf addr + m) < aliasSize →
      t.lowmemAliasmap (hw.vbase / 4096 + (hw.pageOf addr + m)) = source + m * 4096) ∧
    ∀ j, j < hw.vbase / 4096 + hw.pageOf addr ∨
        hw.vbase / 4096 + hw.pageOf addr + pageCount mapsize ≤ j →
      t.lowmemAliasmap j = s.lowmemAliasmap j := by
  unfold LowAliased at h
  have hcount := pageCount_of_dvd hfound.size_aligned
  split_ifs at h with hhigh
  · constructor
    · intro m hm hlow
      rw [hfound.pageAddr_eq] at hlow
      omega
    · intro j _
      rw [h]
  · rw [hfound.page_eq, ← hcount] at h
    constructor
    · intro m hm _
      rw [h.2, ← Nat.add_assoc, sweep_inside hm]
    · intro j hj
      rw [h.2, sweep_outside hj]

theorem MapInv.alias (h : MapInv s) {protect source : Nat}
    (hget : s.doGetHardwareRam addr mapsize = some (i, hw, va))
    (hfound : Found s addr mapsize i hw va) (hpos : 0 < mapsize)
    (hx : s.aliasMappingPa addr mapsize protect source = some (r, t)) : MapInv t := by
  obtain rfl | ⟨b, hmapped, hsource, ht⟩ := alias_cases hget hfound hx
  · exact h
  have hcount : 0 < pageCount mapsize := by unfold pageCount; omega
  obtain rfl : true = b := (h.mapped hw hfound.mem _).symm.trans (hmapped 0 hcount)
  obtain ⟨hne, hlow⟩ := hsource rfl
  obtain ⟨hin, hout⟩ := hlow.slots hfound
  refine ⟨ht.disjoint hfound.get h.disjoint, h.mapped.touch ht hfound.get fun _ _ => rfl,
    h.low.touch h.disjoint ht hfound.get hfound.live hfound.pages_le ?_ hout⟩
  intro m hm _ haddr
  rw [hin m hm haddr, aliased, if_neg hne]

theorem MapInv.unalias (h : MapInv s)
    (hget : s.doGetHardwareRam addr mapsize = some (i, hw, va))
    (hfound : Found s addr mapsize i hw va)
    (hx : s.unaliasMappingPa host addr mapsize = some (r, t)) : MapInv t := by
  obtain ⟨ht, hlow⟩ := unalias_touches hget hfound hx
  obtain ⟨-, hout⟩ := hlow.slots hfound
  refine ⟨ht.disjoint hfound.get h.disjoint, h.mapped.touch ht hfound.get fun _ _ => rfl,
    h.low.touch h.disjoint ht hfound.get hfound.live hfound.pages_le ?_ hout⟩
  intro m _ hptr
  exact absurd rfl hptr

/-- A legal call keeps the invariant. -/
theorem MapInv.step {op : MapOp} (h : MapInv s) (hlegal : Legal s op)
    (ht : mapStep host s op = some t) : MapInv t := by
  cases op with
  | register region =>
      cases ht
      exact h.register hlegal
  | unregister base =>
      cases ht
      exact h.unregister base
  | call op =>
      obtain ⟨⟨r, u⟩, hx, rfl⟩ := Option.map_eq_some_iff.mp ht
      cases hget : s.doGetHardwareRam op.addr op.mapsize with
      | none =>
          rw [exec_of_not_found hget] at hx
          cases hx
          exact h
      | some x =>
          obtain ⟨i, hw, va⟩ := x
          cases op with
          | aliasPa addr mapsize protect source =>
              obtain ⟨⟨haddr, hsize, hpos, -⟩, hlook⟩ := hlegal
              exact h.alias hget
                (doGetHardwareRam_found hget (hlook _ hget) haddr hsize hpos) hpos hx
          | unaliasPa addr mapsize =>
              obtain ⟨⟨haddr, hsize, hpos, -⟩, hlook⟩ := hlegal
              exact h.unalias hget (doGetHardwareRam_found hget (hlook _ hget) haddr hsize hpos) hx
          | _ => exact hlegal.elim

/-- No region is registered at the start. -/
theorem MapInv.start (hs : s.hardwareRam = []) : MapInv s := by
  refine ⟨?_, ?_, ?_⟩
  · rw [State.Disjoint, hs]
    exact List.Pairwise.nil
  · intro hw hmem
    rw [hs] at hmem
    cases hmem
  · intro hw hmem
    rw [hs] at hmem
    cases hmem

/-! ## The lookups -/

/-- A lookup that one region passes finds that region. -/
theorem findHw_eq {q : HardwareRam → Bool} (hi : s.hardwareRam[i]? = some hw) (hq : q hw = true)
    (honly : ∀ j hw', s.hardwareRam[j]? = some hw' → q hw' = true → j = i) :
    s.findHw q = some (i, hw) := by
  cases hfind : s.findHw q with
  | none =>
      exfalso
      unfold State.findHw at hfind
      cases hidx : s.hardwareRam.findIdx? q with
      | none =>
          have hnone := List.findIdx?_eq_none_iff.mp hidx hw (List.mem_of_getElem? hi)
          rw [hq] at hnone
          cases hnone
      | some j =>
          obtain ⟨hlt, -⟩ := List.findIdx?_eq_some_iff_getElem.mp hidx
          simp [hidx, List.getElem?_eq_getElem hlt] at hfind
  | some x =>
      obtain ⟨j, hw'⟩ := x
      obtain ⟨hget, hp⟩ := findHw_spec hfind
      obtain rfl := honly j hw' hget hp
      rw [hi] at hget
      cases hget
      rfl

section Lookups

variable (h : MapInv s) (hi : s.hardwareRam[i]? = some hw) (hlive : hw.vbase ≠ noAddr)
include h hi

/-- Only one region has a physical address. -/
theorem MapInv.phys_unique {j : Nat} (hj : s.hardwareRam[j]? = some hw') (hlo : hw.base ≤ p)
    (hhi : p < hw.base + hw.size) (hlo' : hw'.base ≤ p) (hhi' : p < hw'.base + hw'.size) :
    j = i := by
  by_contra hne
  have hsep := (h.disjoint.separate hj hi hne).1
  omega

include hlive

/-- Only one region has a linear address. -/
theorem MapInv.linear_unique {j : Nat} (hj : s.hardwareRam[j]? = some hw')
    (hlive' : hw'.vbase ≠ noAddr) (hlo : hw.vbase ≤ va) (hhi : va < hw.vbase + hw.size)
    (hlo' : hw'.vbase ≤ va) (hhi' : va < hw'.vbase + hw'.size) : j = i := by
  by_contra hne
  have hsep := (h.disjoint.separate hj hi hne).2.resolve_left hlive' |>.resolve_left hlive
  omega

/-- The linear address of a physical one, as far as it can be told from a failure. -/
theorem MapInv.doGet_eq (hlo : hw.base ≤ p) (hhi : p < hw.base + hw.size) (hp : p ≠ noAddr) :
    s.doGetHardwareRam p 1 =
      if hw.linearOf p = noAddr then none else some (i, hw, hw.linearOf p) := by
  have hend := hw.base_end
  have hlin := (hw.linear_aligned hlive).2
  have hsum : (p + 1) % 2 ^ 32 = p + 1 := by
    apply Nat.mod_eq_of_lt
    unfold noAddr at hp
    omega
  have hfind : s.findHw (fun hw => decide (hw.vbase ≠ noAddr ∧ hw.base ≤ p ∧
      (p + 1) % 2 ^ 32 ≤ hw.base + hw.size)) = some (i, hw) := by
    apply findHw_eq hi
    · rw [hsum]
      exact decide_eq_true ⟨hlive, hlo, hhi⟩
    · intro j hw' hj hq
      obtain ⟨-, hlo', hhi'⟩ := of_decide_eq_true hq
      rw [hsum] at hhi'
      exact h.phys_unique hi hj hlo hhi hlo' hhi'
  have hva : (hw.vbase + p - hw.base) % 2 ^ 32 = hw.linearOf p := by
    unfold HardwareRam.linearOf
    rw [Nat.mod_eq_of_lt (by omega)]
    omega
  unfold State.doGetHardwareRam
  simp only [hfind, hva]

/-- The physical address of a linear one. -/
theorem MapInv.doFind_eq (hlo : hw.base ≤ p) (hhi : p < hw.base + hw.size) (hp : p ≠ noAddr)
    (hva : hw.linearOf p ≠ noAddr) :
    s.doFindHardwareRam (hw.linearOf p) 1 = some (some (hw, p)) := by
  have hend := hw.base_end
  have haligned := hw.base_aligned
  have hlin := (hw.linear_aligned hlive).2
  unfold HardwareRam.linearOf noAddr at hva
  have hsum : (hw.linearOf p + 1) % 2 ^ 32 = hw.linearOf p + 1 := by
    unfold HardwareRam.linearOf
    omega
  have hfind : s.findHw (fun hw' => decide (hw'.vbase ≠ noAddr ∧ hw'.vbase ≤ hw.linearOf p ∧
      (hw.linearOf p + 1) % 2 ^ 32 ≤ hw'.vbase + hw'.size)) = some (i, hw) := by
    rw [hsum]
    unfold HardwareRam.linearOf
    apply findHw_eq hi
    · exact decide_eq_true ⟨hlive, by omega, by omega⟩
    · intro j hw' hj hq
      obtain ⟨hlive', hlo', hhi'⟩ := of_decide_eq_true hq
      exact h.linear_unique hi hlive hj hlive' (by omega) (by omega) hlo' hhi'
  have haddr : (hw.base + hw.linearOf p - hw.vbase) % 2 ^ 32 = p := by
    unfold HardwareRam.linearOf
    omega
  have hmapped : hw.isMapped (p / 4096 * 4096) 1 = some true := by
    have hoff : 4096 ∣ p / 4096 * 4096 - hw.base := by omega
    simp [HardwareRam.isMapped, HardwareRam.assertAligned, cAssert, hoff,
      h.mapped hw (List.mem_of_getElem? hi)]
  unfold State.doFindHardwareRam
  simp only [hfind, haddr, hmapped, Option.bind_eq_bind, Option.bind_some, if_true]
  rw [if_neg hp]
  rfl

omit hlive in
/-- The pointer of a physical address. -/
theorem MapInv.uaddr_eq (hlive : hw.vbase ≠ noAddr) (hlo : hw.base ≤ p)
    (hhi : p < hw.base + hw.size) : s.getHardwareUaddr host p =
      some (if (hw.aliasmap (hw.pageOf p)).ptr ≠ 0
        then (hw.aliasmap (hw.pageOf p)).ptr + (p - hw.base) % 4096 else host.lowmem p) := by
  have hfind : s.findHw (fun hw => decide (hw.vbase ≠ noAddr ∧ hw.base ≤ p ∧
      p < hw.base + hw.size)) = some (i, hw) := by
    apply findHw_eq hi
    · exact decide_eq_true ⟨hlive, hlo, hhi⟩
    · intro j hw' hj hq
      obtain ⟨-, hlo', hhi'⟩ := of_decide_eq_true hq
      exact h.phys_unique hi hj hlo hhi hlo' hhi'
  unfold State.getHardwareUaddr HardwareRam.pageOf
  simp only [hfind]
  split_ifs <;> rfl

/-- The pointer of the linear address. -/
theorem MapInv.dosaddr_eq (hlo : hw.base ≤ p) (hhi : p < hw.base + hw.size) (hp : p ≠ noAddr)
    (hva : hw.linearOf p ≠ noAddr) : s.dosaddrToUnixaddr host (hw.linearOf p) =
      some (if hw.linearOf p < aliasSize then
          s.lowmemAliasmap (hw.linearOf p / 4096) + hw.linearOf p % 4096
        else if (hw.aliasmap (hw.pageOf p)).ptr ≠ 0 then
          (hw.aliasmap (hw.pageOf p)).ptr + (p - hw.base) % 4096
        else host.lowmem (hw.linearOf p)) := by
  have hoff : hw.linearOf p - hw.vbase = p - hw.base := by
    unfold HardwareRam.linearOf
    omega
  unfold State.dosaddrToUnixaddr
  simp only [h.doFind_eq hi hlive hlo hhi hp hva, hoff, Option.bind_eq_bind, Option.bind_some]
  split_ifs <;> first | rfl | contradiction

end Lookups

/-- What an inverse lookup found. -/
theorem doFind_spec (h : s.doFindHardwareRam va 1 = some (some (hw, p))) :
    p ≠ noAddr ∧ p = (hw.base + va - hw.vbase) % 2 ^ 32 ∧ hw ∈ s.hardwareRam ∧
      hw.vbase ≠ noAddr ∧ hw.vbase ≤ va ∧ (va + 1) % 2 ^ 32 ≤ hw.vbase + hw.size := by
  unfold State.doFindHardwareRam at h
  split at h
  · cases h
  · next i hw' hfind =>
      obtain ⟨hget, hq⟩ := findHw_spec hfind
      obtain ⟨hlive, hlo, hhi⟩ := of_decide_eq_true hq
      obtain ⟨b, -, hb⟩ := Option.bind_eq_some_iff.mp h
      cases b with
      | true =>
          rw [if_pos rfl] at hb
          split_ifs at hb with haddr
          · cases hb
          · obtain ⟨rfl, rfl⟩ := Prod.mk.inj (Option.some.inj (Option.some.inj hb))
            exact ⟨haddr, rfl, List.mem_of_getElem? hget, hlive, hlo, hhi⟩
      | false =>
          obtain ⟨-, -, hnone⟩ := Option.bind_eq_some_iff.mp hb
          cases hnone

section Agreement

variable (h : MapInv s) (hi : s.hardwareRam[i]? = some hw) (hlive : hw.vbase ≠ noAddr)
  (hlo : hw.base ≤ p) (hhi : p < hw.base + hw.size) (hp : p ≠ noAddr)
include h hi hlive hlo hhi hp

/-- Where the linear address is the one for no address, the physical address is taken for it, and
that does not lead back. -/
theorem MapInv.linear_ne_of_agrees (hagree : TranslationsAgree host s p) :
    hw.linearOf p ≠ noAddr := by
  intro hva
  obtain ⟨va, hdos, -, hw', hfind⟩ := hagree
  unfold State.physaddrToDosaddr at hdos
  rw [h.doGet_eq hi hlive hlo hhi hp, if_pos hva] at hdos
  dsimp only at hdos
  split_ifs at hdos with hlow
  obtain rfl := Option.some.inj hdos
  obtain ⟨-, hback, hmem, hlive', hlo', hhi'⟩ := doFind_spec hfind
  obtain ⟨j, hj⟩ := List.mem_iff_getElem?.mp hmem
  have hend := hw.base_end
  have hend' := hw'.base_end
  unfold noAddr at hp hva
  -- the region found is mapped at its physical address, so it is the region itself
  have hsame : hw'.base = hw'.vbase := by omega
  obtain rfl := h.phys_unique hi hj hlo hhi (by omega) (by omega)
  obtain rfl := Option.some.inj (hi.symm.trans hj)
  unfold HardwareRam.linearOf at hva
  omega

/-- Otherwise the way back is right, and what matters is the pointer. -/
theorem MapInv.agrees_iff (hva : hw.linearOf p ≠ noAddr) :
    TranslationsAgree host s p ↔ hw.Resolves host s p := by
  have hdos : s.physaddrToDosaddr p 1 = some (hw.linearOf p) := by
    unfold State.physaddrToDosaddr
    rw [h.doGet_eq hi hlive hlo hhi hp, if_neg hva]
  have hphys := @MapInv.uaddr_eq host _ _ _ _ h hi hlive hlo hhi
  have hlin := @MapInv.dosaddr_eq host _ _ _ _ h hi hlive hlo hhi hp hva
  have haligned := hw.base_aligned
  have hvaligned := (hw.linear_aligned hlive).1
  have hpage : hw.linearOf p / 4096 = hw.vbase / 4096 + hw.pageOf p := by
    unfold HardwareRam.linearOf HardwareRam.pageOf
    omega
  have hoff : hw.linearOf p % 4096 = (p - hw.base) % 4096 := by
    unfold HardwareRam.linearOf
    omega
  have hagree : TranslationsAgree host s p ↔
      s.getHardwareUaddr host p = s.dosaddrToUnixaddr host (hw.linearOf p) := by
    unfold TranslationsAgree State.physaddrToUnixaddr
    rw [hphys, hlin]
    constructor
    · rintro ⟨va, hva', ⟨u, hu, hu'⟩, -⟩
      obtain rfl := Option.some.inj (hdos.symm.trans hva')
      rw [hlin] at hu'
      rw [Option.some.inj hu, hu']
    · intro heq
      exact ⟨_, hdos, ⟨_, rfl, hlin.trans heq.symm⟩, hw, h.doFind_eq hi hlive hlo hhi hp hva⟩
  rw [hagree, hphys, hlin, Option.some.injEq]
  unfold HardwareRam.Resolves
  by_cases hptr : (hw.aliasmap (hw.pageOf p)).ptr = 0
  · simp only [hptr, ne_eq, not_true_eq_false, if_false, false_or]
    split_ifs with hlow
    · rw [hoff]
      unfold Host.lowmem
      omega
    · unfold Host.lowmem HardwareRam.linearOf
      omega
  · -- a pointer is found both ways
    simp only [ne_eq, hptr, not_false_eq_true, if_true, true_or, iff_true]
    split_ifs with hlow
    · have hslot := h.low hw (List.mem_of_getElem? hi) hlive (hw.pageOf p)
        (by unfold HardwareRam.pageOf pageCount; omega) hptr
        (by
          unfold HardwareRam.linearOf at hlow
          unfold HardwareRam.pageAddr HardwareRam.pageOf
          omega)
      rw [hpage, hslot, hoff]
    · rfl

end Agreement

/-- The ways from a physical address to a pointer agree if and only if neither address is the one
that stands for no address, and the page has a pointer or low memory is the same both ways. -/
theorem translations_agree_iff (hs : s.hardwareRam = []) {ops : List MapOp}
    (hlegal : Run.Admits (mapStep host) Legal s ops) (hrun : Run.run (mapStep host) s ops = some t)
    (hmem : hw ∈ t.hardwareRam) (hlive : hw.vbase ≠ noAddr) (hlo : hw.base ≤ p)
    (hhi : p < hw.base + hw.size) :
    TranslationsAgree host t p ↔
      p ≠ noAddr ∧ hw.linearOf p ≠ noAddr ∧ hw.Resolves host t p := by
  have h : MapInv t := Run.run_invariant Legal MapInv
    (fun s op u hinv hleg hu => hinv.step hleg hu) (MapInv.start hs) hlegal hrun
  obtain ⟨i, hi⟩ := List.mem_iff_getElem?.mp hmem
  by_cases hp : p = noAddr
  · -- an inverse lookup never returns the address of no address
    constructor
    · rintro ⟨va, -, -, hw', hfind⟩
      exact absurd hp (doFind_spec hfind).1
    · exact fun hall => absurd hp hall.1
  by_cases hva : hw.linearOf p = noAddr
  · constructor
    · intro hagree
      exact absurd hva (h.linear_ne_of_agrees hi hlive hlo hhi hp hagree)
    · exact fun hall => absurd hva hall.2.1
  · rw [h.agrees_iff hi hlive hlo hhi hp hva]
    exact ⟨fun hres => ⟨hp, hva, hres⟩, fun hall => hall.2.2⟩

/-! ## Extended memory -/

instance (a b : Region) : Decidable (a.Separate b) :=
  inferInstanceAs (Decidable (_ ∧ _))

instance (s : State) : ∀ op : MapOp, Decidable (Legal s op)
  | .register region =>
      inferInstanceAs (Decidable (∀ hw ∈ s.hardwareRam, region.Separate hw.toRegion))
  | .unregister _ => .isTrue trivial
  | .call (.aliasPa addr mapsize protect source) =>
      inferInstanceAs (Decidable (InRegion s (.aliasPa addr mapsize protect source) ∧ _))
  | .call (.unaliasPa addr mapsize) =>
      inferInstanceAs (Decidable (InRegion s (.unaliasPa addr mapsize) ∧ _))
  | .call (.munmapPa _ _) | .call (.restorePa _ _) | .call (.mprotectPa _ _ _) => .isFalse id

instance (host : Host) (s : State) (hw : HardwareRam) (p : Nat) :
    Decidable (hw.Resolves host s p) :=
  inferInstanceAs (Decidable (_ ∨ _))

/-- Extended memory, mapped above the memory of DPMI. -/
def extMem : Region where
  type := 'X'
  base := 0x110000
  vbase := 0x2000000
  size := 0x2000
  base_aligned := by decide
  size_pos := frameBuffer.size_pos
  size_le := frameBuffer.size_le
  base_end := by decide
  linear := by decide

/-- A process without regions. -/
def bareState : State where
  hardwareRam := []
  lowmemAliasmap := fun k => sampleHost.lowmem (k * 4096)
  pages := fun k => ⟨sampleHost.lowmem (k * 4096), protRW⟩

/-- An address of extended memory that is aliased. -/
theorem translations_agree_extMem :
    ∃ t, Run.run (mapStep sampleHost) bareState
        [.register extMem, .call (.aliasPa 0x110000 0x1000 protRW 0x200000000)] = some t ∧
      TranslationsAgree sampleHost t 0x110004 := by
  have hrun : ∃ t ∈ Run.run (mapStep sampleHost) bareState
      [.register extMem, .call (.aliasPa 0x110000 0x1000 protRW 0x200000000)],
      ∃ hw ∈ t.hardwareRam, hw.vbase ≠ noAddr ∧ hw.base ≤ 0x110004 ∧
        0x110004 < hw.base + hw.size ∧ 0x110004 ≠ noAddr ∧ hw.linearOf 0x110004 ≠ noAddr ∧
        hw.Resolves sampleHost t 0x110004 := by
    decide +kernel
  obtain ⟨t, ht, hw, hmem, hlive, hlo, hhi, hres⟩ := hrun
  exact ⟨t, ht, (translations_agree_iff rfl (by decide +kernel) ht hmem hlive hlo hhi).mpr hres⟩

/-- An address of extended memory that is not: one way leads to low memory at the physical
address, the other to low memory at the linear address. -/
theorem extMem_translations_differ :
    Run.Admits (mapStep sampleHost) Legal bareState [.register extMem] ∧
      ∃ t, Run.run (mapStep sampleHost) bareState [.register extMem] = some t ∧
        t.physaddrToDosaddr 0x110004 1 = some 0x2000004 ∧
        t.physaddrToUnixaddr sampleHost 0x110004 = some (some (sampleHost.lowmem 0x110004)) ∧
        t.dosaddrToUnixaddr sampleHost 0x2000004 = some (sampleHost.lowmem 0x2000004) ∧
        ¬TranslationsAgree sampleHost t 0x110004 := by
  have hrun : ∃ t ∈ Run.run (mapStep sampleHost) bareState [.register extMem],
      t.physaddrToDosaddr 0x110004 1 = some 0x2000004 ∧
      t.physaddrToUnixaddr sampleHost 0x110004 = some (some (sampleHost.lowmem 0x110004)) ∧
      t.dosaddrToUnixaddr sampleHost 0x2000004 = some (sampleHost.lowmem 0x2000004) := by
    decide +kernel
  obtain ⟨t, ht, hdos, hphys, hlin⟩ := hrun
  refine ⟨by decide +kernel, t, ht, hdos, hphys, hlin, ?_⟩
  rintro ⟨va, hva, ⟨u, hu, hu'⟩, -⟩
  obtain rfl := Option.some.inj (hdos.symm.trans hva)
  obtain rfl := Option.some.inj (Option.some.inj (hphys.symm.trans hu))
  have hsame := Option.some.inj (hlin.symm.trans hu')
  unfold Host.lowmem at hsame
  omega

end Mapping
end Dosemu
