import Dosemu.Lib.Run
import Dosemu.Mapping.Model

/-!
# The page records and the real mapping

For each page of a region the library remembers what it is aliased to, its
protection and whether it is mapped.  Record and page form a `Shadow.Cell`: the
record is what is wanted, an unmapped page is backed by low memory, and each call
is one of the operations of a cell, done on a range of pages.

`unalias_mapping_pa` is the exception.  It sets the page back to low memory with
read and write access, whatever its protection was, and leaves the recorded
protection alone.

Main results:

- Theorem `Consistent.touch`: a call that keeps each cell of a range in step keeps
  the whole state in step.
- Theorem `unalias_consistent_iff`: what `unalias_mapping_pa` needs.
- Theorem `records_agree`: in every run in which the pages to unalias are unmapped or
  recorded as read-write, the records describe the real mapping.
-/

namespace Dosemu
namespace Mapping

open Shadow

/-- A call on a range of physical addresses. -/
inductive Op where
  | aliasPa (addr mapsize protect source : Nat)
  | unaliasPa (addr mapsize : Nat)
  | munmapPa (addr mapsize : Nat)
  | restorePa (addr mapsize : Nat)
  | mprotectPa (addr mapsize protect : Nat)
  deriving DecidableEq

namespace Op

def addr : Op → Nat
  | .aliasPa addr _ _ _ | .unaliasPa addr _ | .munmapPa addr _ | .restorePa addr _
  | .mprotectPa addr _ _ => addr

def mapsize : Op → Nat
  | .aliasPa _ mapsize _ _ | .unaliasPa _ mapsize | .munmapPa _ mapsize | .restorePa _ mapsize
  | .mprotectPa _ mapsize _ => mapsize

end Op

def State.exec (host : Host) (s : State) : Op → Option (Int × State)
  | .aliasPa addr mapsize protect source => s.aliasMappingPa addr mapsize protect source
  | .unaliasPa addr mapsize => s.unaliasMappingPa host addr mapsize
  | .munmapPa addr mapsize => s.munmapMappingPa host addr mapsize
  | .restorePa addr mapsize => s.restoreMappingPa addr mapsize
  | .mprotectPa addr mapsize protect => s.mprotectMappingPa addr mapsize protect

def step (host : Host) (s : State) (op : Op) : Option State :=
  (s.exec host op).map Prod.snd

/-! ## What the records promise -/

/-- The linear address of a page. -/
def HardwareRam.pageAddr (hw : HardwareRam) (k : Nat) : Nat :=
  hw.vbase + k * 4096

/-- A page as the mapping has it. -/
def State.page (s : State) (hw : HardwareRam) (k : Nat) : VPage :=
  s.pages (hw.vbase / 4096 + k)

/-- What a page is backed by according to its record. -/
def HardwareRam.target (host : Host) (hw : HardwareRam) (k : Nat) : Nat :=
  if (hw.aliasmap k).ptr = 0 then host.lowmem (hw.pageAddr k) else (hw.aliasmap k).ptr

/-- Each page is as its record says. -/
def State.RecordsAgree (host : Host) (s : State) : Prop :=
  ∀ hw ∈ s.hardwareRam, hw.vbase ≠ noAddr → ∀ k < pageCount hw.size,
    ((hw.aliasmap k).mapped = true →
      s.page hw k = ⟨hw.target host k, (hw.aliasmap k).protect⟩) ∧
    ((hw.aliasmap k).mapped = false → (s.page hw k).backing = host.lowmem (hw.pageAddr k))

/-- A protection that was reported as set is set on the pages that are mapped. -/
def Op.Protects (op : Op) (r : Int) (t : State) : Prop :=
  match op with
  | .mprotectPa addr mapsize protect => r = 0 →
      ∀ hw ∈ t.hardwareRam, hw.vbase ≠ noAddr → ∀ k < pageCount hw.size,
        addr ≤ hw.base + k * 4096 → hw.base + k * 4096 < addr + mapsize →
          (hw.aliasmap k).mapped = true → (t.page hw k).protect = protect
  | _ => True

/-- What a call promises. -/
def Good (host : Host) (s : State) (op : Op) : Prop :=
  ∀ x ∈ s.exec host op, x.2.RecordsAgree host ∧ op.Protects x.1 x.2

/-- Two regions overlap neither physically nor linearly. -/
def Region.Separate (a b : Region) : Prop :=
  (a.base + a.size ≤ b.base ∨ b.base + b.size ≤ a.base) ∧
    (a.vbase = noAddr ∨ b.vbase = noAddr ∨
      a.vbase + a.size ≤ b.vbase ∨ b.vbase + b.size ≤ a.vbase)

/-- The registered regions are disjoint. -/
def State.Disjoint (s : State) : Prop :=
  (s.hardwareRam.map HardwareRam.toRegion).Pairwise Region.Separate

/-- Regions are registered, and nothing has been aliased yet. -/
structure State.Initial (host : Host) (s : State) : Prop where
  disjoint : s.Disjoint
  fresh : ∀ hw ∈ s.hardwareRam, hw.aliasmap = initAliasmap
  pages : ∀ k, s.pages k = ⟨host.lowmem (k * 4096), protRW⟩

/-- The range of a call consists of pages of one region. -/
def InRegion (s : State) (op : Op) : Prop :=
  4096 ∣ op.addr ∧ 4096 ∣ op.mapsize ∧ 0 < op.mapsize ∧ ∃ hw ∈ s.hardwareRam,
    hw.vbase ≠ noAddr ∧ hw.base ≤ op.addr ∧ op.addr + op.mapsize ≤ hw.base + hw.size

/-- The lookup finds the region of the range, which its 32-bit sum may miss at the end of the
address space; and pages to unalias are unmapped or recorded as read-write. -/
def Careful (s : State) (op : Op) : Prop :=
  ∀ x ∈ s.doGetHardwareRam op.addr op.mapsize,
    op.addr + op.mapsize ≤ x.2.1.base + x.2.1.size ∧
      (op = .unaliasPa op.addr op.mapsize → ∀ m < pageCount op.mapsize,
        (x.2.1.aliasmap (x.2.1.pageOf op.addr + m)).mapped = true →
          (x.2.1.aliasmap (x.2.1.pageOf op.addr + m)).protect = protRW)

/-! ## Regions and their pages -/

variable {host : Host} {s t : State} {hw hw' : HardwareRam}
variable {addr mapsize va i k n : Nat} {r : Int}

/-- The region of a range was found. -/
structure Found (s : State) (addr mapsize i : Nat) (hw : HardwareRam) (va : Nat) : Prop where
  get : s.hardwareRam[i]? = some hw
  live : hw.vbase ≠ noAddr
  base_le : hw.base ≤ addr
  end_le : addr + mapsize ≤ hw.base + hw.size
  addr_aligned : 4096 ∣ addr
  size_aligned : 4096 ∣ mapsize
  va_eq : va = hw.vbase + (addr - hw.base)

theorem findHw_spec {p : HardwareRam → Bool} (h : s.findHw p = some (i, hw)) :
    s.hardwareRam[i]? = some hw ∧ p hw = true := by
  unfold State.findHw at h
  simp only [Option.bind_eq_some_iff, Option.map_eq_some_iff, Prod.mk.injEq] at h
  obtain ⟨j, hj, hw', hget, rfl, rfl⟩ := h
  refine ⟨hget, ?_⟩
  obtain ⟨hlt, hp, -⟩ := List.findIdx?_eq_some_iff_getElem.mp hj
  rw [List.getElem?_eq_getElem hlt, Option.some.injEq] at hget
  rw [← hget]
  exact hp

theorem Region.linear_aligned (a : Region) (h : a.vbase ≠ noAddr) :
    4096 ∣ a.vbase ∧ a.vbase + a.size ≤ 2 ^ 32 :=
  a.linear.resolve_left h

/-- What a successful lookup says about a range that its region contains. -/
theorem doGetHardwareRam_found (h : s.doGetHardwareRam addr mapsize = some (i, hw, va))
    (hend : addr + mapsize ≤ hw.base + hw.size) (haddr : 4096 ∣ addr) (hsize : 4096 ∣ mapsize)
    (hpos : 0 < mapsize) : Found s addr mapsize i hw va := by
  unfold State.doGetHardwareRam at h
  split at h
  · cases h
  · next j hw' hfind =>
      dsimp only at h
      split_ifs at h
      cases h
      obtain ⟨hget, hp⟩ := findHw_spec hfind
      simp only [ne_eq, Bool.decide_and, Bool.and_eq_true, decide_eq_true_eq] at hp
      obtain ⟨hlive, hbase, -⟩ := hp
      have hlin := (Region.linear_aligned _ hlive).2
      refine ⟨hget, hlive, hbase, hend, haddr, hsize, ?_⟩
      rw [Nat.mod_eq_of_lt (by omega)]
      omega

theorem pageCount_of_dvd (h : 4096 ∣ n) : pageCount n = n / 4096 := by
  unfold pageCount
  omega

namespace Found

variable (h : Found s addr mapsize i hw va)
include h

theorem mem : hw ∈ s.hardwareRam :=
  List.mem_of_getElem? h.get

theorem pages_le : hw.pageOf addr + pageCount mapsize ≤ pageCount hw.size := by
  have hbase := hw.base_aligned
  have := h.base_le
  have := h.end_le
  have := h.addr_aligned
  have := h.size_aligned
  unfold HardwareRam.pageOf pageCount
  omega

theorem page_eq : va / 4096 = hw.vbase / 4096 + hw.pageOf addr := by
  have hbase := hw.base_aligned
  have := (Region.linear_aligned _ h.live).1
  have := h.base_le
  have := h.addr_aligned
  have := h.va_eq
  unfold HardwareRam.pageOf
  omega

theorem va_aligned : 4096 ∣ va := by
  have hbase := hw.base_aligned
  have := (Region.linear_aligned _ h.live).1
  have := h.addr_aligned
  have := h.base_le
  have := h.va_eq
  omega

theorem pageAddr_eq (m : Nat) : hw.pageAddr (hw.pageOf addr + m) = va + m * 4096 := by
  have hbase := hw.base_aligned
  have := h.addr_aligned
  have := h.base_le
  have := h.va_eq
  unfold HardwareRam.pageAddr HardwareRam.pageOf
  omega

end Found

/-- Pages of different regions are different pages. -/
theorem Region.Separate.pages {a b : Region} {l m : Nat} (h : a.Separate b) (ha : a.vbase ≠ noAddr)
    (hb : b.vbase ≠ noAddr) (hl : l < pageCount a.size) (hm : m < pageCount b.size) :
    a.vbase / 4096 + l ≠ b.vbase / 4096 + m := by
  have hlin := h.2.resolve_left ha |>.resolve_left hb
  have := (a.linear_aligned ha).1
  have := (b.linear_aligned hb).1
  unfold pageCount at hl hm
  omega

theorem Region.Separate.symm {a b : Region} (h : a.Separate b) : b.Separate a := by
  obtain ⟨hphys, hlin⟩ := h
  unfold Region.Separate
  omega

/-- Regions in different places of the list are disjoint. -/
theorem State.Disjoint.separate (hd : s.Disjoint) {j : Nat} (hi : s.hardwareRam[i]? = some hw)
    (hj : s.hardwareRam[j]? = some hw') (hne : i ≠ j) : hw.toRegion.Separate hw'.toRegion := by
  unfold State.Disjoint at hd
  rw [List.pairwise_map, List.pairwise_iff_getElem] at hd
  obtain ⟨hilt, hi⟩ := List.getElem?_eq_some_iff.mp hi
  obtain ⟨hjlt, hj⟩ := List.getElem?_eq_some_iff.mp hj
  rcases lt_or_gt_of_ne hne with hlt | hlt
  · have hsep := hd i j hilt hjlt hlt
    rwa [hi, hj] at hsep
  · have hsep := hd j i hjlt hilt hlt
    rw [hi, hj] at hsep
    exact hsep.symm

/-! ## Records and pages as cells -/

/-- A record beside a page. -/
def cellOf (host : Host) (va : Nat) (am : AliasmapS) (p : VPage) : Cell VPage :=
  ⟨⟨if am.ptr = 0 then host.lowmem va else am.ptr, am.protect⟩, am.mapped, p⟩

/-- Low memory behind a page, with read and write access. -/
def lowPage (host : Host) (va : Nat) : VPage :=
  ⟨host.lowmem va, protRW⟩

/-- Each record is in step with its page. -/
def State.Consistent (host : Host) (s : State) : Prop :=
  ∀ hw ∈ s.hardwareRam, hw.vbase ≠ noAddr → ∀ k < pageCount hw.size,
    (cellOf host (hw.pageAddr k) (hw.aliasmap k) (s.page hw k)).Agrees
      (lowPage host (hw.pageAddr k))

theorem State.Consistent.recordsAgree (h : s.Consistent host) : s.RecordsAgree host := by
  intro hw hmem hlive k hk
  have hcell := h hw hmem hlive k hk
  unfold Cell.Agrees cellOf at hcell
  constructor
  · intro hmapped
    simpa [hmapped, HardwareRam.target] using hcell
  · intro hmapped
    simp only [hmapped, Bool.false_eq_true, if_false] at hcell
    rw [hcell, lowPage]

theorem State.Initial.consistent (h : s.Initial host) : s.Consistent host := by
  intro hw hmem hlive k hk
  have hva := (hw.linear_aligned hlive).1
  have haddr : (hw.vbase / 4096 + k) * 4096 = hw.vbase + k * 4096 := by omega
  rw [h.fresh hw hmem, State.page, h.pages, haddr]
  rfl

/-- A call that writes a range of the records of a region, and the pages behind them. -/
structure Touches (s t : State) (i : Nat) (hw : HardwareRam) (k n : Nat)
    (f : Nat → AliasmapS → AliasmapS) (g : Nat → VPage → VPage) : Prop where
  records : t.hardwareRam =
    s.hardwareRam.set i { hw with aliasmap := sweep f k n hw.aliasmap }
  pages : t.pages = sweep g (hw.vbase / 4096 + k) n s.pages

variable {f : Nat → AliasmapS → AliasmapS} {g : Nat → VPage → VPage}

/-- The regions themselves stay. -/
theorem Touches.disjoint (ht : Touches s t i hw k n f g) (hi : s.hardwareRam[i]? = some hw)
    (hd : s.Disjoint) : t.Disjoint := by
  unfold State.Disjoint
  rw [ht.records, List.map_set]
  have hsame : (s.hardwareRam.map HardwareRam.toRegion).set i hw.toRegion =
      s.hardwareRam.map HardwareRam.toRegion := by
    obtain ⟨hlt, hget⟩ := List.getElem?_eq_some_iff.mp hi
    rw [← List.map_set, ← hget, List.set_getElem_self]
  rwa [hsame]

/-- A region after a call: the one whose records were written, or one that is as before. -/
theorem Touches.mem_cases (ht : Touches s t i hw k n f g) (hmem : hw' ∈ t.hardwareRam) :
    hw' = { hw with aliasmap := sweep f k n hw.aliasmap } ∨
      ∃ j, j ≠ i ∧ s.hardwareRam[j]? = some hw' := by
  rw [ht.records] at hmem
  obtain ⟨j, hj⟩ := List.mem_iff_getElem?.mp hmem
  rw [List.getElem?_set] at hj
  split_ifs at hj with hij hlt
  · exact Or.inl (Option.some.inj hj).symm
  · exact Or.inr ⟨j, Ne.symm hij, hj⟩

/-- The range of a call, seen from the state after it. -/
theorem Found.touched (hfound : Found s addr mapsize i hw va)
    (ht : Touches s t i hw k n f g) :
    Found t addr mapsize i { hw with aliasmap := sweep f k n hw.aliasmap } va := by
  refine ⟨?_, hfound.live, hfound.base_le, hfound.end_le, hfound.addr_aligned,
    hfound.size_aligned, hfound.va_eq⟩
  rw [ht.records, List.getElem?_set_self (List.getElem?_eq_some_iff.mp hfound.get).1]

/-- If the cells of a range stay in step, all cells do. -/
theorem State.Consistent.touch (hs : s.Consistent host) (hd : s.Disjoint)
    (ht : Touches s t i hw k n f g) (hi : s.hardwareRam[i]? = some hw) (hlive : hw.vbase ≠ noAddr)
    (hn : k + n ≤ pageCount hw.size)
    (hcell : ∀ m < n, (cellOf host (hw.pageAddr (k + m)) (f m (hw.aliasmap (k + m)))
      (g m (s.page hw (k + m)))).Agrees (lowPage host (hw.pageAddr (k + m)))) :
    t.Consistent host := by
  intro hw' hmem hlive' l hl
  rcases ht.mem_cases hmem with rfl | ⟨j, hj, hget⟩
  · have haddr : hw.vbase / 4096 + l = hw.vbase / 4096 + k + (l - k) ∨ l < k := by omega
    by_cases hin : k ≤ l ∧ l < k + n
    · have hl : l = k + (l - k) := by omega
      have hgood := hcell (l - k) (by omega)
      unfold State.page at hgood ⊢
      rw [ht.pages, hl]
      dsimp only [HardwareRam.pageAddr] at hgood ⊢
      rw [sweep_inside (by omega), ← Nat.add_assoc, sweep_inside (by omega), Nat.add_assoc]
      exact hgood
    · have hold := hs hw (List.mem_of_getElem? hi) hlive l hl
      unfold State.page at hold ⊢
      rw [ht.pages]
      dsimp only [HardwareRam.pageAddr] at hold ⊢
      rw [sweep_outside (by omega), sweep_outside (by omega)]
      exact hold
  · -- the pages of another region are not in the range
    have hold := hs hw' (List.mem_of_getElem? hget) hlive' l hl
    have hsep := hd.separate hget hi hj
    unfold State.page at hold ⊢
    rw [ht.pages, sweep_apply, if_neg]
    · exact hold
    · intro hin
      have hne := hsep.pages (l := l) (m := hw'.vbase / 4096 + l - hw.vbase / 4096) hlive' hlive
        hl (by omega)
      omega

/-! ## What the parts of a call do -/

/-- What an alias of a range does to the slots of the lowest pages. -/
def LowAliased (s t : State) (targ mapsize source : Nat) : Prop :=
  if aliasSize ≤ targ then t.lowmemAliasmap = s.lowmemAliasmap
  else targ / 4096 + mapsize / 4096 ≤ aliasSize / 4096 ∧ t.lowmemAliasmap =
    sweep (fun i _ => source + i * 4096) (targ / 4096) (mapsize / 4096) s.lowmemAliasmap

/-- A range was aliased to a source. -/
structure Aliased (s t : State) (targ mapsize protect source : Nat) : Prop where
  source_ne : source ≠ 0
  records : t.hardwareRam = s.hardwareRam
  pages : t.pages = sweep (fun i _ => ⟨source + i * 4096, protect⟩) (targ / 4096)
    (pageCount mapsize) s.pages
  low : LowAliased s t targ mapsize source

theorem aliasMapping_cases {targ protect source : Nat}
    (h : s.aliasMapping targ mapsize protect source = some (r, t)) :
    source = 0 ∧ r = -1 ∧ t = s ∨ r = 0 ∧ Aliased s t targ mapsize protect source := by
  simp only [State.aliasMapping, Option.bind_eq_bind, Option.bind_eq_some_iff, cAssert_eq_some,
    exists_const] at h
  obtain ⟨-, -, -, -, h⟩ := h
  by_cases hsource : source = 0
  · rw [if_pos hsource] at h
    cases h
    exact Or.inl ⟨hsource, rfl, rfl⟩
  · rw [if_neg hsource] at h
    obtain ⟨u, hu, h⟩ := Option.bind_eq_some_iff.mp h
    cases h
    refine Or.inr ⟨rfl, ?_⟩
    simp only [State.updateAliasmap, Option.bind_eq_bind, if_neg hsource] at hu
    split_ifs at hu with hhigh
    · cases hu
      refine ⟨hsource, rfl, rfl, ?_⟩
      rw [LowAliased, if_pos hhigh]
      rfl
    · obtain ⟨u, hbound, hu⟩ := Option.bind_eq_some_iff.mp hu
      cases hu
      refine ⟨hsource, rfl, rfl, ?_⟩
      rw [LowAliased, if_neg hhigh]
      exact ⟨cAssert_eq_some.mp hbound, rfl⟩

/-- `restore_mapping` does not fail: low memory is never the null pointer. -/
theorem restoreMapping_spec {targ : Nat}
    (h : s.restoreMapping host targ mapsize = some (r, t)) :
    t.hardwareRam = s.hardwareRam ∧
      t.pages = sweep (fun i _ => lowPage host (targ + i * 4096)) (targ / 4096)
        (pageCount mapsize) s.pages ∧ LowAliased s t targ mapsize (host.lowmem targ) := by
  have hpos := host.lowmemBase_pos
  obtain ⟨hnull, -⟩ | ⟨-, hal⟩ := aliasMapping_cases h
  · unfold Host.lowmem at hnull
    omega
  · refine ⟨hal.records, ?_, hal.low⟩
    rw [hal.pages]
    congr 1
    ext1 i
    ext1 p
    rw [lowPage, Host.lowmem, Host.lowmem, Nat.add_assoc]

/-- The loop of `restore_mapping_aliasmap` gives each page what its record says. -/
theorem restoreLoop_spec {map : Nat → AliasmapS} (hva : 4096 ∣ va)
    (h : s.restoreLoop map k va n = some (r, t)) :
    r = 0 ∧ t.hardwareRam = s.hardwareRam ∧ (∀ m < n, (map (k + m)).ptr ≠ 0) ∧
      t.pages = sweep (fun m _ => ⟨(map (k + m)).ptr, (map (k + m)).protect⟩) (va / 4096) n
        s.pages := by
  induction n generalizing r t with
  | zero =>
      cases h
      exact ⟨rfl, rfl, fun m hm => absurd hm (Nat.not_lt_zero m), rfl⟩
  | succ n ih =>
      simp only [State.restoreLoop, Option.bind_eq_bind, Option.bind_eq_some_iff] at h
      obtain ⟨⟨r', u⟩, hu, h⟩ := h
      obtain ⟨rfl, hlist, hptrs, hpages⟩ := ih hu
      simp only [ne_eq, not_true_eq_false, if_false, cAssert_eq_some, Option.bind_eq_some_iff,
        exists_const] at h
      obtain ⟨hptr, h⟩ := h
      obtain ⟨hnull, -⟩ | ⟨rfl, hal⟩ := aliasMapping_cases h
      · exact absurd hnull hptr
      · refine ⟨rfl, hal.records.trans hlist, ?_, ?_⟩
        · intro m hm
          rcases Nat.lt_succ_iff_lt_or_eq.mp hm with hm | rfl
          · exact hptrs m hm
          · exact hptr
        · have hplace : (va + n * 4096) / 4096 = va / 4096 + n := by omega
          rw [hal.pages, hpages, hplace]
          rfl

theorem isMapped_spec {b : Bool} (h : hw.isMapped addr mapsize = some b) :
    ∀ m < pageCount mapsize, (hw.aliasmap (hw.pageOf addr + m)).mapped = b := by
  simp only [HardwareRam.isMapped, HardwareRam.assertAligned, Option.bind_eq_bind,
    Option.bind_eq_some_iff, cAssert_eq_some, exists_const] at h
  obtain ⟨-, h⟩ := h
  split_ifs at h with hall
  · cases h
    exact hall
  · obtain ⟨u, hnone, h⟩ := Option.bind_eq_some_iff.mp h
    cases h
    exact cAssert_eq_some.mp hnone

theorem eachPage_of_update {src : Nat} (h : hw.updateAliasmap addr mapsize src = some hw') :
    hw' = hw.eachPage addr mapsize
      fun i am => { am with ptr := if src = 0 then 0 else src + i * 4096 } := by
  simp only [HardwareRam.updateAliasmap, Option.bind_eq_bind, Option.bind_eq_some_iff] at h
  obtain ⟨-, -, -, -, h⟩ := h
  exact (Option.some.inj h).symm

theorem eachPage_of_map {mapped : Bool} (h : hw.mapAliasmap addr mapsize mapped = some hw') :
    hw' = hw.eachPage addr mapsize fun _ am => { am with mapped := mapped } := by
  simp only [HardwareRam.mapAliasmap, Option.bind_eq_bind, Option.bind_eq_some_iff] at h
  obtain ⟨-, -, h⟩ := h
  exact (Option.some.inj h).symm

theorem eachPage_of_mprotect {protect : Nat}
    (h : hw.mprotectAliasmap addr mapsize protect = some hw') :
    hw' = hw.eachPage addr mapsize fun _ am => { am with protect := protect } := by
  simp only [HardwareRam.mprotectAliasmap, Option.bind_eq_bind, Option.bind_eq_some_iff] at h
  obtain ⟨-, -, h⟩ := h
  exact (Option.some.inj h).symm

/-! ## What a call does -/

/-- The record of a page that is aliased to a source. -/
def aliased (source protect : Nat) (m : Nat) (am : AliasmapS) : AliasmapS :=
  { am with ptr := if source = 0 then 0 else source + m * 4096, protect := protect }

section Calls

variable (hget : s.doGetHardwareRam addr mapsize = some (i, hw, va))
  (hfound : Found s addr mapsize i hw va)
include hget hfound

theorem alias_cases {protect source : Nat}
    (h : s.aliasMappingPa addr mapsize protect source = some (r, t)) :
    t = s ∨ ∃ b, (∀ m < pageCount mapsize, (hw.aliasmap (hw.pageOf addr + m)).mapped = b) ∧
      (b = true → source ≠ 0 ∧ LowAliased s t va mapsize source) ∧
      Touches s t i hw (hw.pageOf addr) (pageCount mapsize) (aliased source protect)
        fun m p => if b then ⟨source + m * 4096, protect⟩ else p := by
  simp only [State.aliasMappingPa, hget, Option.bind_eq_bind, Option.bind_eq_some_iff,
    cAssert_eq_some, exists_const] at h
  obtain ⟨-, b, hmapped, h⟩ := h
  have hrecords {u : State}
      (hu : ((hw.updateAliasmap addr mapsize source).bind fun hw =>
        (hw.mprotectAliasmap addr mapsize protect).bind fun hw =>
          some ((0 : Int), u.setHw i hw)) = some (r, t)) :
      t = u.setHw i (hw.eachPage addr mapsize (aliased source protect)) := by
    simp only [Option.bind_eq_some_iff] at hu
    obtain ⟨hw₁, h₁, hw₂, h₂, hu⟩ := hu
    cases hu
    rw [eachPage_of_mprotect h₂, eachPage_of_update h₁]
    simp only [HardwareRam.eachPage, HardwareRam.pageOf, sweep_sweep]
    rfl
  cases b with
  | false =>
      refine Or.inr ⟨false, isMapped_spec hmapped, by simp, ?_⟩
      rw [hrecords h]
      exact ⟨rfl, (sweep_id _ _ _).symm⟩
  | true =>
      obtain ⟨⟨err, u⟩, hu, hrest⟩ := Option.bind_eq_some_iff.mp h
      obtain ⟨-, rfl, rfl⟩ | ⟨rfl, hal⟩ := aliasMapping_cases hu
      · cases hrest
        exact Or.inl rfl
      · refine Or.inr ⟨true, isMapped_spec hmapped, ?_⟩
        rw [hrecords hrest]
        refine ⟨fun _ => ⟨hal.source_ne, hal.low⟩, ?_, ?_⟩
        · rw [State.setHw, hal.records]
          rfl
        · rw [State.setHw, hal.pages, hfound.page_eq]
          rfl

theorem unalias_touches (h : s.unaliasMappingPa host addr mapsize = some (r, t)) :
    Touches s t i hw (hw.pageOf addr) (pageCount mapsize) (fun _ am => { am with ptr := 0 })
        (fun m _ => lowPage host (va + m * 4096)) ∧
      LowAliased s t va mapsize (host.lowmem va) := by
  simp only [State.unaliasMappingPa, hget, Option.bind_eq_bind, Option.bind_eq_some_iff,
    cAssert_eq_some, exists_const] at h
  obtain ⟨-, ⟨err, u⟩, hu, hw₁, h₁, h⟩ := h
  cases h
  obtain ⟨hlist, hpages, hlow⟩ := restoreMapping_spec hu
  rw [eachPage_of_update h₁]
  refine ⟨⟨?_, ?_⟩, hlow⟩
  · rw [State.setHw, hlist]
    rfl
  · rw [State.setHw, hpages, hfound.page_eq]

theorem munmap_cases (h : s.munmapMappingPa host addr mapsize = some (r, t)) :
    t = s ∨ Touches s t i hw (hw.pageOf addr) (pageCount mapsize)
      (fun _ am => { am with mapped := false }) fun m _ => lowPage host (va + m * 4096) := by
  simp only [State.munmapMappingPa, hget, Option.bind_eq_bind, Option.bind_eq_some_iff,
    cAssert_eq_some, exists_const] at h
  obtain ⟨-, b, -, h⟩ := h
  cases b with
  | false =>
      cases h
      exact Or.inl rfl
  | true =>
      obtain ⟨kmem, -, h⟩ := Option.bind_eq_some_iff.mp h
      cases kmem with
      | true =>
          cases h
          exact Or.inl rfl
      | false =>
          simp only [Bool.false_eq_true, if_false, Option.bind_eq_some_iff] at h
          obtain ⟨⟨err, u⟩, hu, hw₁, h₁, h⟩ := h
          cases h
          obtain ⟨hlist, hpages, -⟩ := restoreMapping_spec hu
          rw [eachPage_of_map h₁]
          refine Or.inr ⟨?_, ?_⟩
          · rw [State.setHw, hlist]
            rfl
          · rw [State.setHw, hpages, hfound.page_eq]

theorem restore_cases (h : s.restoreMappingPa addr mapsize = some (r, t)) :
    t = s ∨ (∀ m < pageCount mapsize, (hw.aliasmap (hw.pageOf addr + m)).ptr ≠ 0) ∧
      Touches s t i hw (hw.pageOf addr) (pageCount mapsize)
        (fun _ am => { am with mapped := true })
        fun m _ => ⟨(hw.aliasmap (hw.pageOf addr + m)).ptr,
          (hw.aliasmap (hw.pageOf addr + m)).protect⟩ := by
  simp only [State.restoreMappingPa, hget, Option.bind_eq_bind, Option.bind_eq_some_iff,
    cAssert_eq_some, exists_const] at h
  obtain ⟨-, b, -, h⟩ := h
  cases b with
  | true =>
      cases h
      exact Or.inl rfl
  | false =>
      simp only [Bool.false_eq_true, if_false, Option.bind_eq_some_iff, State.hwramRestoreMapping,
        Option.bind_eq_bind] at h
      obtain ⟨⟨err, u⟩, ⟨-, -, hu⟩, h⟩ := h
      obtain ⟨rfl, hlist, hptrs, hpages⟩ := restoreLoop_spec hfound.va_aligned hu
      simp only [ne_eq, not_true_eq_false, if_false, Option.bind_eq_some_iff] at h
      obtain ⟨hw₁, h₁, h⟩ := h
      cases h
      rw [eachPage_of_map h₁]
      refine Or.inr ⟨hptrs, ?_, ?_⟩
      · rw [State.setHw, hlist]
        rfl
      · rw [State.setHw, hpages, hfound.page_eq]

theorem mprotect_cases {protect : Nat}
    (h : s.mprotectMappingPa addr mapsize protect = some (r, t)) :
    t = s ∧ (∀ m < pageCount mapsize,
        (hw.aliasmap (hw.pageOf addr + m)).protect = protect) ∨
      ∃ b, (∀ m < pageCount mapsize, (hw.aliasmap (hw.pageOf addr + m)).mapped = b) ∧
        Touches s t i hw (hw.pageOf addr) (pageCount mapsize)
          (fun _ am => { am with protect := protect })
          fun _ p => if b then { p with protect := protect } else p := by
  simp only [State.mprotectMappingPa, hget, Option.bind_eq_bind, Option.bind_eq_some_iff,
    cAssert_eq_some, exists_const, HardwareRam.protMatch] at h
  obtain ⟨-, same, ⟨-, -, hsame⟩, h⟩ := h
  cases same with
  | true =>
      cases h
      exact Or.inl ⟨rfl, of_decide_eq_true (Option.some.inj hsame)⟩
  | false =>
      simp only [Bool.false_eq_true, if_false, Option.bind_eq_some_iff] at h
      obtain ⟨b, hmapped, hw₁, h₁, h⟩ := h
      cases h
      rw [eachPage_of_mprotect h₁]
      refine Or.inr ⟨b, isMapped_spec hmapped, ?_⟩
      cases b with
      | false => exact ⟨rfl, (sweep_id _ _ _).symm⟩
      | true =>
          refine ⟨rfl, ?_⟩
          simp only [if_true, State.setHw, State.mprotectMapping, hfound.page_eq]

end Calls

/-! ## Each call keeps the cells of its range in step -/

variable {am : AliasmapS} {p : VPage} {protect source m : Nat} {b : Bool}

/-- An alias is a write of the new page. -/
theorem agrees_aliased (h : (cellOf host va am p).Agrees (lowPage host va)) (hb : am.mapped = b)
    (hsource : b = true → source ≠ 0) :
    (cellOf host va (aliased source protect m am)
      (if b then ⟨source + m * 4096, protect⟩ else p)).Agrees (lowPage host va) := by
  have hwrite := h.write ⟨if source = 0 then host.lowmem va else source + m * 4096, protect⟩
  have hcell : cellOf host va (aliased source protect m am)
      (if b then ⟨source + m * 4096, protect⟩ else p) = (cellOf host va am p).write
        ⟨if source = 0 then host.lowmem va else source + m * 4096, protect⟩ := by
    by_cases hnull : source = 0
    · have hunmapped : b = false := by
        cases b with
        | false => rfl
        | true => exact absurd hnull (hsource rfl)
      simp [cellOf, aliased, Cell.write, hb, hnull, hunmapped]
    · simp [cellOf, aliased, Cell.write, hb, hnull]
  rw [hcell]
  exact hwrite

/-- A change of the protection is a write of the page with that protection. -/
theorem agrees_protected (h : (cellOf host va am p).Agrees (lowPage host va))
    (hb : am.mapped = b) :
    (cellOf host va { am with protect := protect }
      (if b then { p with protect := protect } else p)).Agrees (lowPage host va) := by
  have hwrite := h.write ⟨(cellOf host va am p).wanted.backing, protect⟩
  have hcell : cellOf host va { am with protect := protect }
      (if b then { p with protect := protect } else p) = (cellOf host va am p).write
        ⟨(cellOf host va am p).wanted.backing, protect⟩ := by
    cases b with
    | false => simp [cellOf, Cell.write, hb]
    | true =>
        have hpage : p = (cellOf host va am p).wanted := by
          simpa [Cell.Agrees, cellOf, hb] using h
        have hbacking := congrArg VPage.backing hpage
        simpa [cellOf, Cell.write, hb] using hbacking
  rw [hcell]
  exact hwrite

/-- A restored page is as its record says. -/
theorem agrees_restored (hptr : am.ptr ≠ 0) :
    (cellOf host va { am with mapped := true } ⟨am.ptr, am.protect⟩).Agrees
      (lowPage host va) := by
  have hcell : cellOf host va { am with mapped := true } ⟨am.ptr, am.protect⟩ =
      (cellOf host va am ⟨am.ptr, am.protect⟩).restore := by
    simp [cellOf, Cell.restore, hptr]
  rw [hcell]
  exact Cell.agrees_restore _ _

/-- The records after a change of the protection. -/
theorem protect_of_sweep {map : Nat → AliasmapS} :
    ∀ m < n, (sweep (fun _ am => { am with protect := protect }) k n map (k + m)).protect =
      protect := by
  intro m hm
  rw [sweep_inside hm]

/-- The cell of a page that was set back to low memory and lost its pointer. -/
theorem agrees_unaliased_iff :
    (cellOf host va { am with ptr := 0 } (lowPage host va)).Agrees (lowPage host va) ↔
      (am.mapped = true → am.protect = protRW) := by
  have hforce := @Cell.agrees_force_iff _ (cellOf host va am (lowPage host va)) (lowPage host va)
    ⟨host.lowmem va, am.protect⟩
  rw [lowPage, VPage.mk.injEq] at hforce
  simpa [cellOf, Cell.force, lowPage] using hforce

/-- The regions are disjoint, and each record is in step with its page. -/
structure Inv (host : Host) (s : State) : Prop where
  disjoint : s.Disjoint
  consistent : s.Consistent host

theorem Inv.touch (h : Inv host s) (hfound : Found s addr mapsize i hw va)
    (ht : Touches s t i hw (hw.pageOf addr) (pageCount mapsize) f g)
    (hcell : ∀ m < pageCount mapsize,
      (cellOf host (va + m * 4096) (hw.aliasmap (hw.pageOf addr + m))
        (s.page hw (hw.pageOf addr + m))).Agrees (lowPage host (va + m * 4096)) →
      (cellOf host (va + m * 4096) (f m (hw.aliasmap (hw.pageOf addr + m)))
        (g m (s.page hw (hw.pageOf addr + m)))).Agrees (lowPage host (va + m * 4096))) :
    Inv host t := by
  refine ⟨ht.disjoint hfound.get h.disjoint,
    h.consistent.touch h.disjoint ht hfound.get hfound.live hfound.pages_le ?_⟩
  intro m hm
  have hold := h.consistent hw hfound.mem hfound.live (hw.pageOf addr + m)
    (by have := hfound.pages_le; omega)
  rw [hfound.pageAddr_eq] at hold ⊢
  exact hcell m hm hold

/-- What `unalias_mapping_pa` needs to keep the records right. -/
theorem unalias_consistent_iff (h : Inv host s)
    (hget : s.doGetHardwareRam addr mapsize = some (i, hw, va))
    (hfound : Found s addr mapsize i hw va)
    (hx : s.unaliasMappingPa host addr mapsize = some (r, t)) :
    t.Consistent host ↔ ∀ m < pageCount mapsize,
      (hw.aliasmap (hw.pageOf addr + m)).mapped = true →
        (hw.aliasmap (hw.pageOf addr + m)).protect = protRW := by
  have ht := (unalias_touches hget hfound hx).1
  constructor
  · intro hcons m hm
    have htouched := hfound.touched ht
    have hle := hfound.pages_le
    have hcell := hcons _ htouched.mem hfound.live (hw.pageOf addr + m) (by dsimp only; omega)
    unfold State.page at hcell
    rw [ht.pages] at hcell
    dsimp only at hcell
    rw [sweep_inside hm, ← Nat.add_assoc, sweep_inside hm] at hcell
    have haddr := hfound.pageAddr_eq m
    unfold HardwareRam.pageAddr at hcell haddr
    rw [haddr] at hcell
    exact (agrees_unaliased_iff).mp hcell
  · intro hrw
    refine (h.touch hfound ht ?_).consistent
    intro m hm hold
    exact (agrees_unaliased_iff).mpr (hrw m hm)

/-- Where the records of a range have a protection, the mapped pages have it. -/
theorem protects_of_records (hd : t.Disjoint) (hagree : t.RecordsAgree host)
    (hfound : Found t addr mapsize i hw va)
    (hrecords : ∀ m < pageCount mapsize,
      (hw.aliasmap (hw.pageOf addr + m)).protect = protect) :
    (Op.mprotectPa addr mapsize protect).Protects r t := by
  intro _ hw' hmem hlive k hk hlo hhi hmapped
  obtain ⟨j, hj⟩ := List.mem_iff_getElem?.mp hmem
  have hpage := (hagree hw' hmem hlive k hk).1 hmapped
  rw [hpage]
  have haligned := hw.base_aligned
  have haligned' := hw'.base_aligned
  have haddr := hfound.addr_aligned
  have hbase := hfound.base_le
  have hend := hfound.end_le
  have hsize := hfound.size_aligned
  by_cases hij : i = j
  · subst hij
    obtain rfl : hw = hw' := Option.some.inj (hfound.get.symm.trans hj)
    have hrange : k - hw.pageOf addr < pageCount mapsize ∧
        hw.pageOf addr + (k - hw.pageOf addr) = k := by
      unfold HardwareRam.pageOf pageCount
      omega
    have hrecord := hrecords _ hrange.1
    rwa [hrange.2] at hrecord
  · exfalso
    have hsep := (hd.separate hfound.get hj hij).1
    unfold pageCount at hk
    omega

/-- A call whose range lies in no region. -/
theorem exec_of_not_found {op : Op} (hget : s.doGetHardwareRam op.addr op.mapsize = none) :
    s.exec host op = some (-1, s) := by
  cases op <;> simp only [Op.addr, Op.mapsize] at hget <;> simp [State.exec, hget,
    State.aliasMappingPa, State.unaliasMappingPa, State.munmapMappingPa, State.restoreMappingPa,
    State.mprotectMappingPa]

/-- A careful call keeps records and mapping in step. -/
theorem Inv.exec {op : Op} (h : Inv host s) (hrange : InRegion s op) (hcareful : Careful s op)
    (hx : s.exec host op = some (r, t)) : Inv host t ∧ op.Protects r t := by
  obtain ⟨haddr, hsize, hpos, -⟩ := hrange
  cases hget : s.doGetHardwareRam op.addr op.mapsize with
  | none =>
      rw [exec_of_not_found hget] at hx
      cases hx
      refine ⟨h, ?_⟩
      cases op with
      | mprotectPa addr mapsize protect => exact fun hr => absurd hr (by decide)
      | _ => trivial
  | some x =>
      obtain ⟨i, hw, va⟩ := x
      obtain ⟨hend, hunalias⟩ := hcareful _ hget
      have hfound := doGetHardwareRam_found hget hend haddr hsize hpos
      cases op with
      | aliasPa addr mapsize protect source =>
          refine ⟨?_, trivial⟩
          obtain rfl | ⟨b, hmapped, hsource, ht⟩ := alias_cases hget hfound hx
          · exact h
          · exact h.touch hfound ht fun m hm hold =>
              agrees_aliased hold (hmapped m hm) fun hb => (hsource hb).1
      | unaliasPa addr mapsize =>
          have ht := (unalias_touches hget hfound hx).1
          have hcons := (unalias_consistent_iff h hget hfound hx).mpr (hunalias rfl)
          exact ⟨⟨ht.disjoint hfound.get h.disjoint, hcons⟩, trivial⟩
      | munmapPa addr mapsize =>
          refine ⟨?_, trivial⟩
          obtain rfl | ht := munmap_cases hget hfound hx
          · exact h
          · refine h.touch hfound ht fun m hm hold => ?_
            exact Cell.agrees_park (cellOf host (va + m * 4096)
              (hw.aliasmap (hw.pageOf addr + m)) (s.page hw (hw.pageOf addr + m))) _
      | restorePa addr mapsize =>
          refine ⟨?_, trivial⟩
          obtain rfl | ⟨hptrs, ht⟩ := restore_cases hget hfound hx
          · exact h
          · exact h.touch hfound ht fun m hm hold =>
              agrees_restored (hptrs m hm)
      | mprotectPa addr mapsize protect =>
          obtain ⟨rfl, hsame⟩ | ⟨b, hmapped, ht⟩ := mprotect_cases hget hfound hx
          · exact ⟨h, protects_of_records h.disjoint h.consistent.recordsAgree hfound hsame⟩
          · have hinv := h.touch hfound ht fun m hm hold => agrees_protected hold (hmapped m hm)
            refine ⟨hinv, protects_of_records hinv.disjoint hinv.consistent.recordsAgree
              (hfound.touched ht) ?_⟩
            exact protect_of_sweep

/-- In every run whose ranges lie in a region, in which the lookups find that region and pages to
unalias are unmapped or recorded as read-write, the records describe the real mapping after each
call, and a protection that was reported as set is set. -/
theorem records_agree (hs : s.Initial host) {ops : List Op}
    (hrange : Run.Admits (step host) InRegion s ops)
    (hcareful : Run.Admits (step host) Careful s ops) :
    s.RecordsAgree host ∧ Run.Admits (step host) (Good host) s ops := by
  have hboth : Run.Admits (step host) (fun s op => InRegion s op ∧ Careful s op) s ops :=
    hrange.and hcareful
  have hinv : Inv host s := ⟨hs.disjoint, hs.consistent⟩
  refine ⟨hs.consistent.recordsAgree, Run.admits_imp (Inv host) ?_ ?_ hinv hboth⟩
  · rintro s op t h ⟨hr, hc⟩ ht
    obtain ⟨⟨r, u⟩, hx, rfl⟩ := Option.map_eq_some_iff.mp ht
    exact (h.exec hr hc hx).1
  · rintro s op h ⟨hr, hc⟩ ⟨r, t⟩ hx
    obtain ⟨hinv, hprot⟩ := h.exec hr hc hx
    exact ⟨hinv.consistent.recordsAgree, hprot⟩

/-! ## A frame buffer -/

instance (s : State) (op : Op) : Decidable (InRegion s op) :=
  inferInstanceAs (Decidable (_ ∧ _))

instance (s : State) (op : Op) : Decidable (Careful s op) :=
  inferInstanceAs (Decidable (∀ x ∈ s.doGetHardwareRam op.addr op.mapsize, _))

instance (host : Host) (s : State) : Decidable (s.RecordsAgree host) :=
  inferInstanceAs (Decidable (∀ hw ∈ s.hardwareRam, _))

/-- A process with low memory at 4 GiB. -/
def sampleHost : Host := ⟨0x100000000, by decide⟩

/-- Two pages of a frame buffer, away from their physical address. -/
def frameBuffer : Region where
  type := 'e'
  base := 0xe0000000
  vbase := 0x10000000
  size := 0x2000
  base_aligned := by decide
  size_pos := by decide
  size_le := by decide
  base_end := by decide
  linear := by decide

/-- The frame buffer is registered. -/
def sampleState : State where
  hardwareRam := [{ frameBuffer with aliasmap := initAliasmap }]
  lowmemAliasmap := fun k => sampleHost.lowmem (k * 4096)
  pages := fun k => ⟨sampleHost.lowmem (k * 4096), protRW⟩

theorem sampleState_initial : sampleState.Initial sampleHost where
  disjoint := List.pairwise_singleton _ _
  fresh := by
    intro hw hmem
    obtain rfl := List.mem_singleton.mp hmem
    rfl
  pages := fun _ => rfl

/-- The frame buffer is aliased read-only, made writable, unmapped, mapped again and given up. -/
theorem records_agree_frameBuffer :
    sampleState.RecordsAgree sampleHost ∧
      Run.Admits (step sampleHost) (Good sampleHost) sampleState
        [.aliasPa 0xe0000000 0x2000 1 0x200000000, .mprotectPa 0xe0000000 0x2000 protRW,
          .munmapPa 0xe0001000 0x1000, .restorePa 0xe0001000 0x1000,
          .unaliasPa 0xe0000000 0x2000] :=
  records_agree sampleState_initial (by decide +kernel) (by decide +kernel)

/-- Given up while it is read-only, a page is writable, recorded as read-only, and a later call
does not make it read-only. -/
theorem unalias_drifts :
    sampleState.Initial sampleHost ∧
      Run.Admits (step sampleHost) InRegion sampleState
        [.aliasPa 0xe0000000 0x2000 1 0x200000000, .unaliasPa 0xe0000000 0x2000,
          .mprotectPa 0xe0000000 0x2000 1] ∧
      ((Run.run (step sampleHost) sampleState
          [.aliasPa 0xe0000000 0x2000 1 0x200000000, .unaliasPa 0xe0000000 0x2000]).bind fun s =>
        (s.exec sampleHost (.mprotectPa 0xe0000000 0x2000 1)).map fun x =>
          (x.1, x.2.hardwareRam.map fun hw => ((hw.aliasmap 0).mapped, (x.2.page hw 0).protect))) =
        some (0, [(true, protRW)]) ∧
      ¬Run.Admits (step sampleHost) (Good sampleHost) sampleState
        [.aliasPa 0xe0000000 0x2000 1 0x200000000, .unaliasPa 0xe0000000 0x2000] := by
  refine ⟨sampleState_initial, by decide +kernel, by decide +kernel, ?_⟩
  intro hgood
  have hwrong : ∃ t ∈ Run.run (step sampleHost) sampleState
      [.aliasPa 0xe0000000 0x2000 1 0x200000000, .unaliasPa 0xe0000000 0x2000],
      ¬t.RecordsAgree sampleHost := by
    decide +kernel
  obtain ⟨t, ht, hdrift⟩ := hwrong
  refine hdrift (Run.run_invariant (Good sampleHost) (State.RecordsAgree sampleHost) ?_
    sampleState_initial.consistent.recordsAgree hgood ht)
  intro s op u _ hstep hu
  obtain ⟨x, hx, rfl⟩ := Option.map_eq_some_iff.mp hu
  exact (hstep x hx).1

end Mapping
end Dosemu
