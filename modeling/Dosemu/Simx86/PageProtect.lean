import Dosemu.Simx86.QueryMark

/-!
# Protection of pages with translated code

Marks are kept by the byte, protection by the page, and maps by the megabyte.
Every operation is described by what it does to three views of the maps: the
marked bytes, the first bytes of nodes, and the protected pages.

Main results:

- Theorem `eMarkpage_outcome`: a range is marked and its pages are protected.
- Theorem `eUnmarkpage_outcome`: a range is unmarked, and the pages it leaves
  without marks are no longer protected.
- Theorem `marks_protected`: along every run in which ranges are marked once,
  the pages that are protected are those with marks.
-/

namespace Dosemu
namespace Simx86

open BitWords
open Run

namespace Marks

variable {s t : Marks} {k j x p : Nat}

/-! ## Looking through the maps -/

/-- A property of the map of a megabyte, false where there is none. -/
def look (s : Marks) (k : Nat) (g : MpMap → Bool) : Bool :=
  (s.mapAt k).elim false g

/-- The first byte of a node. -/
def node (s : Marks) (x : Nat) : Bool :=
  s.look (x / 1048576) fun m => testBit m.nodemap (x % 1048576)

/-- The page has an entry in its map. -/
def prot (s : Marks) (p : Nat) : Bool :=
  s.look (p / 256) fun m => m.pagemap (p % 256)

theorem marked_eq_look (s : Marks) (x : Nat) :
    s.marked x = s.look (x / 1048576) fun m => testBit m.subpage (x % 1048576) := by
  rw [marked, subBit, look, shiftRight_mega, and_cgrMask]
  cases s.mapAt (x / 1048576) <;> rfl

theorem eQuerymprot_eq (s : Marks) (a : Nat) : s.eQuerymprot a = s.prot (a / 4096) := by
  have hmega : a / 1048576 = a / 4096 / 256 := by omega
  rw [eQuerymprot, prot, look, findM_eq, hmega]
  cases s.mapAt (a / 4096 / 256) <;> rfl

theorem eQuerynode_eq (s : Marks) (x : Nat) : s.eQuerynode x = s.node x := by
  rw [eQuerynode, node, look, findM_eq, and_cgrMask]
  cases s.mapAt (x / 1048576) <;> rfl

theorem mapAt_update (s : Marks) (k j : Nat) (f : MpMap → MpMap) :
    (s.update k f).mapAt j = if j = k then (s.mapAt k).map f else s.mapAt j := by
  by_cases hjk : j = k
  · subst hjk
    rw [if_pos rfl, update]
    cases hm : s.mapAt j with
    | none => simpa using hm
    | some m => simp [mapAt]
  · rw [if_neg hjk, update]
    cases hm : s.mapAt k with
    | none => rfl
    | some m => simp [mapAt, AList.lookup_insert_ne hjk]

theorem mapAt_ensure (s : Marks) (k j : Nat) :
    (s.ensure k).mapAt j = if j = k then some ((s.mapAt k).getD .empty) else s.mapAt j := by
  by_cases hjk : j = k
  · subst hjk
    rw [if_pos rfl, ensure]
    cases hm : s.mapAt j with
    | none => simp [mapAt]
    | some m => simpa using hm
  · rw [if_neg hjk, ensure]
    cases hm : s.mapAt k with
    | none => simp [mapAt, AList.lookup_insert_ne hjk]
    | some m => rfl

theorem look_update (s : Marks) (k j : Nat) (f : MpMap → MpMap) (g : MpMap → Bool) :
    (s.update k f).look j g = if j = k then s.look k fun m => g (f m) else s.look j g := by
  rw [look, mapAt_update]
  by_cases hjk : j = k
  · rw [if_pos hjk, if_pos hjk, look]
    cases s.mapAt k <;> rfl
  · rw [if_neg hjk, if_neg hjk, look]

theorem look_ensure (s : Marks) (k j : Nat) {g : MpMap → Bool} (hg : g .empty = false) :
    (s.ensure k).look j g = s.look j g := by
  rw [look, mapAt_ensure]
  by_cases hjk : j = k
  · subst hjk
    rw [if_pos rfl, look]
    cases s.mapAt j with
    | none => exact hg
    | some m => rfl
  · rw [if_neg hjk, look]

@[simp]
theorem update_clist (f : MpMap → MpMap) : (s.update k f).clist = s.clist := by
  unfold update
  split <;> rfl

@[simp]
theorem update_writeProt (f : MpMap → MpMap) : (s.update k f).writeProt = s.writeProt := by
  unfold update
  split <;> rfl

@[simp]
theorem ensure_clist : (s.ensure k).clist = s.clist := by
  unfold ensure
  split <;> rfl

@[simp]
theorem ensure_writeProt : (s.ensure k).writeProt = s.writeProt := by
  unfold ensure
  split <;> rfl

theorem mapped_update (s : Marks) (k j : Nat) (f : MpMap → MpMap) :
    (s.update k f).mapped j ↔ s.mapped j := by
  unfold mapped
  rw [mapAt_update]
  by_cases hjk : j = k
  · subst hjk
    rw [if_pos rfl]
    cases s.mapAt j <;> simp
  · rw [if_neg hjk]

theorem mapped_ensure (s : Marks) (k j : Nat) : (s.ensure k).mapped j ↔ j = k ∨ s.mapped j := by
  unfold mapped
  rw [mapAt_ensure]
  by_cases hjk : j = k
  · simp [hjk]
  · simp [hjk]

theorem mapped_iff_isSome (s : Marks) (x : Nat) :
    (s.findM x).isSome = true ↔ s.mapped (x / 1048576) := by
  rw [findM_eq, Option.isSome_iff_exists]
  rfl

/-! ## The page cache -/

/-- The page is in the cache. -/
def Cached (cl : List CacheEnt) (a : Nat) : Prop :=
  ∃ ce ∈ cl, isEntry a ce = true

theorem modifyEntry_of_cached {cl : List CacheEnt} {a : Nat} (f : CacheEnt → CacheEnt)
    (h : Cached cl a) : ∃ cl', modifyEntry a f cl = some cl' := by
  induction cl with
  | nil =>
      obtain ⟨ce, hmem, -⟩ := h
      cases hmem
  | cons c cl ih =>
      by_cases hc : isEntry a c = true
      · exact ⟨_, if_pos hc⟩
      · have hrest : Cached cl a := by
          obtain ⟨ce, hmem, hce⟩ := h
          rcases List.mem_cons.mp hmem with rfl | hmem
          · exact absurd hce hc
          · exact ⟨ce, hmem, hce⟩
        obtain ⟨cl', hcl'⟩ := ih hrest
        exact ⟨c :: cl', by simp [modifyEntry, hc, hcl']⟩

/-- The entries of other pages are not touched. -/
theorem cached_of_modifyEntry {cl cl' : List CacheEnt} {a b : Nat} {f : CacheEnt → CacheEnt}
    (h : modifyEntry a f cl = some cl') (hne : b ≠ a) (hb : Cached cl b) : Cached cl' b := by
  induction cl generalizing cl' with
  | nil => simp [modifyEntry] at h
  | cons c cl ih =>
      obtain ⟨ce, hmem, hce⟩ := hb
      rw [modifyEntry] at h
      by_cases hc : isEntry a c = true
      · rw [if_pos hc, Option.some.injEq] at h
        subst h
        rcases List.mem_cons.mp hmem with rfl | hmem
        · simp only [isEntry, Bool.and_eq_true, beq_iff_eq] at hc hce
          exact absurd (hce.2.symm.trans hc.2) hne
        · exact ⟨ce, List.mem_cons_of_mem _ hmem, hce⟩
      · rw [if_neg hc, Option.map_eq_some_iff] at h
        obtain ⟨rest, hrest, rfl⟩ := h
        rcases List.mem_cons.mp hmem with rfl | hmem
        · exact ⟨ce, List.mem_cons_self, hce⟩
        · obtain ⟨ce', hmem', hce'⟩ := ih hrest ⟨ce, hmem, hce⟩
          exact ⟨ce', List.mem_cons_of_mem _ hmem', hce'⟩

/-- Only entries without data are given up at the end. -/
theorem cached_trimC {cl : List CacheEnt} {b : Nat} (hb : Cached cl b) : Cached (trimC cl) b := by
  obtain ⟨ce, hmem, hce⟩ := hb
  refine ⟨ce, ?_, hce⟩
  have hdata : ce.data = true := by
    rw [isEntry, Bool.and_eq_true] at hce
    exact hce.1
  rw [← List.rdropWhile_append_rtakeWhile (p := fun ce : CacheEnt => !ce.data) (l := cl),
    List.mem_append] at hmem
  rcases hmem with hmem | hmem
  · exact hmem
  · have hnone := List.mem_rtakeWhile_imp hmem
    simp [hdata] at hnone

theorem removeC_of_cached {cl : List CacheEnt} {a : Nat} (h : Cached cl a) :
    ∃ cl', removeC cl a = some cl' := by
  obtain ⟨cl', hcl'⟩ := modifyEntry_of_cached (fun ce => { ce with data := false }) h
  exact ⟨trimC cl', by rw [removeC, hcl']; rfl⟩

theorem cached_of_removeC {cl cl' : List CacheEnt} {a b : Nat} (h : removeC cl a = some cl')
    (hne : b ≠ a) (hb : Cached cl b) : Cached cl' b := by
  rw [removeC, Option.map_eq_some_iff] at h
  obtain ⟨rest, hrest, rfl⟩ := h
  exact cached_trimC (cached_of_modifyEntry hrest hne hb)

/-! ## Protection -/

/-- The pages from `page` on, `n` of them, are protected now; nothing is marked or
unmarked. -/
structure Protects (page n : Nat) (s t : Marks) : Prop where
  marked : ∀ x, t.marked x = s.marked x
  node : ∀ x, t.node x = s.node x
  prot : ∀ p, t.prot p = (s.prot p || decide (page ≤ p ∧ p < page + n))
  mapped : ∀ k, s.mapped k → t.mapped k
  cached : ∀ p, (p < page ∨ page + n ≤ p) → Cached s.clist (p * 4096) → Cached t.clist (p * 4096)

/-- The pages that are not protected yet are in the cache. -/
def Fetched (s : Marks) (page n : Nat) : Prop :=
  ∀ p, page ≤ p → p < page + n → s.prot p = true ∨ Cached s.clist (p * 4096)

theorem protects_zero (s : Marks) (page : Nat) : Protects page 0 s s where
  marked _ := rfl
  node _ := rfl
  prot p := by
    have hnone : ¬(page ≤ p ∧ p < page + 0) := by omega
    simp only [hnone, decide_false, Bool.or_false]
  mapped _ h := h
  cached _ _ h := h

theorem Protects.trans {u : Marks} {page n l : Nat} (h : Protects page n s t)
    (h' : Protects (page + n) l t u) : Protects page (n + l) s u where
  marked x := (h'.marked x).trans (h.marked x)
  node x := (h'.node x).trans (h.node x)
  prot p := by
    rw [h'.prot, h.prot, Bool.or_assoc, ← Bool.decide_or]
    congr 2
    exact propext ⟨fun _ => by omega, fun _ => by omega⟩
  mapped k hk := h'.mapped k (h.mapped k hk)
  cached p hp hc := h'.cached p (by omega) (h.cached p (by omega) hc)

/-- A new map has nothing marked and no page. -/
theorem protects_ensure (s : Marks) (k page : Nat) : Protects page 0 s (s.ensure k) where
  marked x := by
    rw [marked_eq_look, marked_eq_look]
    exact look_ensure s _ _ (by simp [MpMap.empty])
  node x := look_ensure s _ _ (by simp [MpMap.empty])
  prot p := by
    have hnone : ¬(page ≤ p ∧ p < page + 0) := by omega
    simp only [hnone, decide_false, Bool.or_false]
    exact look_ensure s _ _ rfl
  mapped j h := (mapped_ensure s k j).mpr (Or.inr h)
  cached p _ h := by
    rw [ensure_clist]
    exact h

theorem Protects.of_ensure {page n : Nat} (h : Protects page n (s.ensure k) t) :
    Protects page n s t := by
  have hboth := (protects_ensure s k page).trans h
  rwa [Nat.zero_add] at hboth

theorem Fetched.ensure {page n : Nat} (h : s.Fetched page n) (k : Nat) :
    (s.ensure k).Fetched page n := by
  intro q hlo hhi
  rcases h q hlo hhi with hprot | hcached
  · rw [(protects_ensure s k page).prot, hprot]
    exact Or.inl rfl
  · rw [ensure_clist]
    exact Or.inr hcached

/-- One page gets its entry. -/
theorem protects_page (hmap : s.mapped (p / 256)) {cl : List CacheEnt}
    (hcl : ∀ b, b ≠ p * 4096 → Cached s.clist b → Cached cl b) :
    Protects p 1 s ({ s with clist := cl }.update (p / 256) fun m =>
      { m with pagemap := Function.update m.pagemap (p % 256) true }) where
  marked x := by
    rw [marked_eq_look, marked_eq_look, look_update]
    split
    · next h => rw [h]; rfl
    · rfl
  node x := by
    rw [node, look_update]
    split
    · next h => rw [node, h]; rfl
    · rfl
  prot q := by
    rw [Marks.prot, look_update]
    by_cases hmega : q / 256 = p / 256
    · rw [if_pos hmega]
      by_cases hq : q = p
      · subst hq
        obtain ⟨m, hm⟩ := hmap
        have hm' : ({ s with clist := cl } : Marks).mapAt (q / 256) = some m := hm
        simp [look, hm']
      · have hmod : q % 256 ≠ p % 256 := by omega
        have hout : ¬(p ≤ q ∧ q < p + 1) := by omega
        simp only [Function.update_of_ne hmod, hout, decide_false, Bool.or_false]
        rw [Marks.prot, hmega]
        rfl
    · have hout : ¬(p ≤ q ∧ q < p + 1) := by omega
      rw [if_neg hmega]
      simp only [hout, decide_false, Bool.or_false]
      rfl
  mapped k h := (mapped_update _ _ _ _).mpr h
  cached q hq h := by
    rw [update_clist]
    exact hcl _ (by omega) h

/-- A page that has an entry already. -/
theorem protects_again (hprot : s.prot p = true) : Protects p 1 s s where
  marked _ := rfl
  node _ := rfl
  prot q := by
    by_cases hq : p ≤ q ∧ q < p + 1
    · have hsame : q = p := by omega
      simp [hsame, hprot]
    · simp only [hq, decide_false, Bool.or_false]
  mapped _ h := h
  cached _ _ h := h

theorem Fetched.rest {page n l : Nat} (h : s.Fetched page (n + l)) (hstep : Protects page n s t) :
    t.Fetched (page + n) l := by
  intro q hlo hhi
  rcases h q (by omega) (by omega) with hprot | hcached
  · rw [hstep.prot, hprot]
    exact Or.inl rfl
  · exact Or.inr (hstep.cached q (by omega) hcached)

/-- The loop over pages, inside a megabyte. -/
theorem addPages_succ {n mega : Nat} (hpage : p % 256 ≠ 256) :
    addPages (n + 1) (p * 4096) mega (p % 256) s =
      if ((s.mapAt mega).map fun m => m.pagemap (p % 256)) = some true then
        addPages n ((p + 1) * 4096) mega (p % 256 + 1) s
      else (removeC s.clist (p * 4096)).bind fun clist =>
        addPages n ((p + 1) * 4096) mega (p % 256 + 1)
          ({ s with clist := clist }.update mega fun m =>
            { m with pagemap := Function.update m.pagemap (p % 256) true }) := by
  have haddr : p * 4096 + hostPageSize = (p + 1) * 4096 := by
    rw [hostPageSize]
    ring
  rw [addPages]
  simp only [pagesPerMega, hpage, if_false, haddr]
  rfl

theorem addPages_wrap {n mega : Nat} (hpage : p % 256 = 0) :
    addPages (n + 1) (p * 4096) mega 256 s =
      addPages (n + 1) (p * 4096) (p / 256) (p % 256) (s.ensure (p / 256)) := by
  have hmega : (p * 4096) >>> 20 = p / 256 := by
    rw [shiftRight_mega]
    omega
  rw [addPages, addPages]
  simp only [pagesPerMega, if_true, hmega, hpage, show ¬(0 = 256) by decide, if_false]

theorem addPages_outcome {n : Nat} :
    ∀ {p : Nat} {s : Marks}, s.mapped (p / 256) →
      Outcome (s.Fetched p n) (Protects p n s) (addPages n (p * 4096) (p / 256) (p % 256) s) := by
  induction n with
  | zero =>
      intro p s _
      exact protects_zero s p
  | succ n ih =>
      intro p s hmap
      rw [Nat.add_comm n 1]
      -- the rest of the loop, whether it stays in the megabyte or not
      have hrest : ∀ t, Protects p 1 s t →
          Outcome (s.Fetched p (1 + n)) (Protects p (1 + n) s)
            (addPages n ((p + 1) * 4096) (p / 256) (p % 256 + 1) t) := by
        intro t hstep
        have hjoin : ∀ u, Protects (p + 1) n t u → Protects p (1 + n) s u :=
          fun u hu => hstep.trans hu
        cases n with
        | zero => exact hjoin t (protects_zero t (p + 1))
        | succ n =>
            by_cases hlast : p % 256 + 1 = 256
            · rw [hlast, addPages_wrap (by omega)]
              refine ((ih ?_).weaken ?_).mono fun u hu => hjoin u hu.of_ensure
              · exact (mapped_ensure _ _ _).mpr (Or.inl rfl)
              · exact fun hfetched => (hfetched.rest hstep).ensure _
            · have hmega : (p + 1) / 256 = p / 256 := by omega
              have hpage : (p + 1) % 256 = p % 256 + 1 := by omega
              rw [← hmega, ← hpage]
              refine ((ih ?_).weaken fun hfetched => hfetched.rest hstep).mono hjoin
              exact hmega ▸ hstep.mapped _ hmap
      have hlook : ((s.mapAt (p / 256)).map fun m => m.pagemap (p % 256)) = some true ↔
          s.prot p = true := by
        rw [Marks.prot, look]
        obtain ⟨m, hm⟩ := hmap
        simp [hm]
      rw [Nat.add_comm 1 n, addPages_succ (by omega), Nat.add_comm n 1]
      by_cases hprot : s.prot p = true
      · rw [if_pos (hlook.mpr hprot)]
        exact hrest s (protects_again hprot)
      · rw [if_neg (mt hlook.mp hprot)]
        cases hremove : removeC s.clist (p * 4096) with
        | none =>
            intro hfetched
            rcases hfetched p le_rfl (by omega) with hyes | hcached
            · exact hprot hyes
            · obtain ⟨cl', hcl'⟩ := removeC_of_cached hcached
              simp [hremove] at hcl'
        | some cl =>
            exact hrest _ (protects_page hmap fun b hne hb => cached_of_removeC hremove hne hb)

theorem addMpMap_outcome (s : Marks) (p n : Nat) :
    Outcome (s.Fetched p n) (Protects p n s) (s.addMpMap (p * 4096) n) := by
  have hmega : (p * 4096) >>> 20 = p / 256 := by
    rw [shiftRight_mega]
    omega
  have hpage : p * 4096 / hostPageSize % pagesPerMega = p % 256 := by
    rw [hostPageSize, pagesPerMega]
    omega
  rw [addMpMap, hmega, hpage]
  refine ((addPages_outcome ?_).weaken fun h => h.ensure _).mono fun t ht => ht.of_ensure
  exact (mapped_ensure _ _ _).mpr (Or.inl rfl)

theorem addPages_writeProt {n a mega page : Nat} (h : addPages n a mega page s = some t) :
    t.writeProt = s.writeProt := by
  induction n generalizing a mega page s with
  | zero =>
      cases h
      rfl
  | succ n ih =>
      -- from here on the pointer is right, whether it was taken anew or not
      have hhere : ∀ (mega page : Nat) (u : Marks), u.writeProt = s.writeProt →
          (if ((u.mapAt mega).map fun m => m.pagemap page) = some true then
            addPages n (a + hostPageSize) mega (page + 1) u
          else do
            let clist ← removeC u.clist a
            addPages n (a + hostPageSize) mega (page + 1)
              ({ u with clist := clist }.update mega fun m =>
                { m with pagemap := Function.update m.pagemap page true })) = some t →
          t.writeProt = s.writeProt := by
        intro mega page u hu hadd
        split at hadd
        · exact (ih hadd).trans hu
        · obtain ⟨cl, -, hadd⟩ := Option.bind_eq_some_iff.mp hadd
          rw [ih hadd, update_writeProt]
          exact hu
      rw [addPages] at h
      by_cases hpage : page = pagesPerMega
      · rw [if_pos hpage] at h
        exact hhere _ _ _ ensure_writeProt h
      · rw [if_neg hpage] at h
        exact hhere _ _ _ rfl h

theorem addMpMap_writeProt {a n : Nat} (h : s.addMpMap a n = some t) :
    t.writeProt = s.writeProt := by
  rw [addPages_writeProt h, ensure_writeProt]

/-- The host protects exactly the pages that have an entry. -/
def HostSame (s : Marks) : Prop :=
  ∀ p, s.writeProt p = s.prot p

/-- The pages are protected, by the host too. -/
structure Shields (page n : Nat) (s t : Marks) : Prop extends Protects page n s t where
  host : s.HostSame → t.HostSame

theorem Shields.trans {u : Marks} {page n l : Nat} (h : Shields page n s t)
    (h' : Shields (page + n) l t u) : Shields page (n + l) s u :=
  ⟨h.toProtects.trans h'.toProtects, fun hs => h'.host (h.host hs)⟩

/-- A group of pages is protected by the host and gets its entries. -/
theorem protectGroup_outcome (s : Marks) (p n : Nat) :
    Outcome (s.Fetched p n) (Shields p n s)
      ((s.mprotectMapping (p * 4096 / hostPageSize) n true).addMpMap (p * 4096) n) := by
  have hpage : p * 4096 / hostPageSize = p := Nat.mul_div_cancel p (by decide)
  rw [hpage]
  cases hadd : (s.mprotectMapping p n true).addMpMap (p * 4096) n with
  | none =>
      have hout := addMpMap_outcome (s.mprotectMapping p n true) p n
      rw [hadd] at hout
      exact hout
  | some t =>
      have hadded := (addMpMap_outcome (s.mprotectMapping p n true) p n).post hadd
      -- the maps do not depend on what the host does
      have hprot : Protects p n s t :=
        ⟨hadded.marked, hadded.node, hadded.prot, hadded.mapped, hadded.cached⟩
      refine ⟨hprot, fun hsame q => ?_⟩
      rw [addMpMap_writeProt hadd, hprot.prot, ← hsame q, mprotectMapping]
      by_cases hq : p ≤ q ∧ q < p + n
      · simp [hq]
      · simp only [hq, if_false, decide_false, Bool.or_false]

/-- The loop of `do_mprotect`, with `count` pages from `b` on still to be
protected. -/
theorem protectPages_outcome {n : Nat} :
    ∀ (b count abeg1 : Nat) (s : Marks), (count ≠ 0 → abeg1 = b * 4096) → (n = 0 → count = 0) →
      Outcome (s.Fetched b (count + n)) (Shields b (count + n) s)
        (protectPages n ((b + count) * 4096) abeg1 count s) := by
  induction n with
  | zero =>
      intro b count abeg1 s _ hnone
      rw [hnone rfl]
      exact ⟨protects_zero s b, fun h => h⟩
  | succ n ih =>
      intro b count abeg1 s habeg _
      have hnext : (b + count) * 4096 + hostPageSize = (b + count + 1) * 4096 := by
        rw [hostPageSize]
        ring
      have hqp : s.eQuerymprot ((b + count) * 4096) = s.prot (b + count) := by
        rw [eQuerymprot_eq, Nat.mul_div_cancel _ (by decide)]
      rw [protectPages, hqp, hnext]
      by_cases hprot : s.prot (b + count) = true
      · -- the page is protected already: whatever is pending is done first
        have hsplit : count + (n + 1) = count + (1 + n) := by ring
        have hrest : ∀ t, Shields b count s t →
            Outcome (s.Fetched b (count + (1 + n))) (Shields b (count + (1 + n)) s)
              (protectPages n ((b + count + 1) * 4096) abeg1 0 t) := by
          intro t ht
          have hthere : t.prot (b + count) = true := by rw [ht.prot, hprot, Bool.true_or]
          have hagain : Shields (b + count) 1 t t := ⟨protects_again hthere, fun h => h⟩
          have hih := ih (b + count + 1) 0 abeg1 t (fun h => absurd rfl h) fun _ => rfl
          rw [Nat.zero_add] at hih
          refine (hih.weaken fun h => ?_).mono fun u hu => ht.trans (hagain.trans hu)
          exact (h.rest ht.toProtects).rest hagain.toProtects
        rw [hsplit]
        simp only [hprot, Bool.not_true, Bool.false_and, Bool.false_eq_true, if_false, if_true,
          Bool.or_true, Bool.true_and, bne_iff_ne]
        by_cases hcount : count = 0
        · rw [if_neg (not_not.mpr hcount)]
          subst hcount
          exact hrest s ⟨protects_zero s b, fun h => h⟩
        · obtain rfl := habeg hcount
          rw [if_pos hcount]
          refine ((protectGroup_outcome s b count).weaken fun h => ?_).bind fun t ht => ?_
          · exact fun q hlo hhi => h q hlo (by omega)
          · exact hrest t ht
      · -- one more page is pending
        have hstart : (if count = 0 then (b + count) * 4096 else abeg1) = b * 4096 := by
          by_cases hcount : count = 0
          · rw [if_pos hcount, hcount, Nat.add_zero]
          · rw [if_neg hcount, habeg hcount]
        have hsplit : count + (n + 1) = count + 1 + n := by ring
        rw [hsplit]
        simp only [hprot, Bool.not_false, Bool.true_and, beq_iff_eq, hstart, Bool.false_eq_true,
          if_false, Bool.or_false, Bool.and_eq_true, bne_iff_ne, ne_eq, Nat.succ_ne_zero,
          not_false_eq_true, and_true]
        by_cases hlast : n = 0
        · subst hlast
          rw [if_pos rfl]
          refine (protectGroup_outcome s b (count + 1)).bind fun t ht => ?_
          exact ht
        · rw [if_neg hlast]
          exact ih b (count + 1) _ s (fun _ => rfl) fun h => absurd h hlast

/-- `e_mprotect`: the pages of the range are protected; the cache may lose other
pages. -/
theorem eMprotect_outcome (s : Marks) (r : GuestRange) :
    Outcome (r.lastPage ≠ topPage ∧ s.Fetched r.firstPage (r.lastPage + 1 - r.firstPage))
      (fun t => r.lastPage ≠ topPage ∧ ∃ u, Shields r.firstPage (r.lastPage + 1 - r.firstPage) s u ∧
        t = { u with clist := dropC u.clist }) (s.eMprotect r) := by
  unfold eMprotect
  refine Outcome.assert_bind And.left fun htop => ?_
  have hpages := protectPages_outcome (n := r.lastPage + 1 - r.firstPage) r.firstPage 0 0 s
    (fun h => absurd rfl h) fun _ => rfl
  rw [Nat.zero_add, Nat.add_zero] at hpages
  exact (hpages.weaken And.right).bind fun t ht => ⟨htop, t, ht, rfl⟩

/-! ## Marking -/

/-- Protection, the maps there are, the cache and the host are as before. -/
structure Beside (s t : Marks) : Prop where
  prot : ∀ p, t.prot p = s.prot p
  mapped : ∀ k, t.mapped k ↔ s.mapped k
  clist : t.clist = s.clist
  writeProt : t.writeProt = s.writeProt

theorem Beside.refl (s : Marks) : Beside s s :=
  ⟨fun _ => rfl, fun _ => Iff.rfl, rfl, rfl⟩

theorem Beside.trans {u : Marks} (h : Beside s t) (h' : Beside t u) : Beside s u :=
  ⟨fun p => (h'.prot p).trans (h.prot p), fun k => (h'.mapped k).trans (h.mapped k),
    h'.clist.trans h.clist, h'.writeProt.trans h.writeProt⟩

/-- An update of the marks in a map. -/
theorem beside_update (s : Marks) (k : Nat) {f : MpMap → MpMap}
    (hf : ∀ m, (f m).pagemap = m.pagemap) : Beside s (s.update k f) where
  prot p := by
    rw [Marks.prot, look_update]
    simp only [hf]
    split
    · next h => rw [Marks.prot, h]
    · rfl
  mapped j := mapped_update s k j f
  clist := update_clist f
  writeProt := update_writeProt f

/-- A bit of the map of a megabyte, after one of its bytes was given a new one. -/
theorem look_update_bit (new : Bool) {f : MpMap → MpMap} {g : MpMap → Nat → Bool} {a : Nat}
    (hmap : s.mapped (a / 1048576))
    (hf : ∀ m n, g (f m) n = if n = a % 1048576 then new else g m n) (x : Nat) :
    ((s.update (a / 1048576) f).look (x / 1048576) fun m => g m (x % 1048576)) =
      if x = a then new else s.look (x / 1048576) fun m => g m (x % 1048576) := by
  rw [look_update]
  by_cases hmega : x / 1048576 = a / 1048576
  · rw [if_pos hmega]
    obtain ⟨m, hm⟩ := hmap
    simp only [look, hmega, hm, Option.elim_some, hf]
    by_cases hx : x = a
    · rw [if_pos hx, if_pos (by rw [hx])]
    · rw [if_neg hx, if_neg (by omega)]
  · have hx : x ≠ a := fun h => hmega (by rw [h])
    rw [if_neg hmega, if_neg hx]

theorem markByte (hmap : s.mapped (x / 1048576)) :
    let t := s.update (x / 1048576) fun m =>
      { m with subpage := setBit m.subpage (x % 1048576) }
    Beside s t ∧ (∀ y, t.node y = s.node y) ∧
      ∀ y, t.marked y = (s.marked y || decide (y = x)) := by
  refine ⟨beside_update _ _ fun _ => rfl, fun y => ?_, fun y => ?_⟩
  · rw [node, look_update]
    split
    · next h => rw [node, h]
    · rfl
  · have hbit := look_update_bit true hmap (g := fun m n => testBit m.subpage n)
      (f := fun m => { m with subpage := setBit m.subpage (x % 1048576) }) (fun m n => by
        by_cases hn : n = x % 1048576 <;> simp [hn]) y
    rw [marked_eq_look, hbit, marked_eq_look]
    by_cases hy : y = x <;> simp [hy]

/-- Every megabyte that starts within `(lo, hi]` has a map. -/
def NextMapped (s : Marks) (lo hi : Nat) : Prop :=
  ∀ k, lo < k * 1048576 → k * 1048576 ≤ hi → s.mapped k

/-- The bytes of `[lo, hi)` are marked now. -/
structure MarksBytes (lo hi : Nat) (s t : Marks) : Prop extends Beside s t where
  node : ∀ y, t.node y = s.node y
  marked : ∀ y, t.marked y = (s.marked y || decide (lo ≤ y ∧ y < hi))
  next : s.NextMapped lo hi

theorem nextMapped_cons {a n : Nat} (hbeside : Beside s t) (hnext : t.mapped ((a + 1) / 1048576))
    (h : t.NextMapped (a + 1) (a + 1 + n)) : s.NextMapped a (a + (n + 1)) := by
  intro k hlo hhi
  by_cases hfirst : k * 1048576 = a + 1
  · have hk : k = (a + 1) / 1048576 := by omega
    exact (hbeside.mapped k).mp (hk ▸ hnext)
  · exact (hbeside.mapped k).mp (h k (by omega) (by omega))

/-- Mark one byte, and then the bytes after it. -/
theorem MarksBytes.cons {u : Marks} {a n : Nat} (hbeside : Beside s t)
    (hnode : ∀ y, t.node y = s.node y) (hmarked : ∀ y, t.marked y = (s.marked y || decide (y = a)))
    (hnext : t.mapped ((a + 1) / 1048576)) (h : MarksBytes (a + 1) (a + 1 + n) t u) :
    MarksBytes a (a + (n + 1)) s u where
  toBeside := hbeside.trans h.toBeside
  node y := (h.node y).trans (hnode y)
  marked y := by
    rw [h.marked, hmarked, Bool.or_assoc, ← Bool.decide_or]
    congr 2
    exact propext ⟨fun _ => by omega, fun _ => by omega⟩
  next := nextMapped_cons hbeside hnext h.next

theorem markBytes_outcome {n : Nat} :
    ∀ {a : Nat} {s : Marks}, s.mapped (a / 1048576) →
      Outcome (s.Clear a (a + n) ∧ s.NextMapped a (a + n)) (MarksBytes a (a + n) s)
        (markBytes n a (a / 1048576) s) := by
  induction n with
  | zero =>
      intro a s _
      refine ⟨Beside.refl s, fun _ => rfl, fun y => ?_, fun k hlo hhi => by omega⟩
      have hout : ¬(a ≤ y ∧ y < a + 0) := by omega
      simp only [hout, decide_false, Bool.or_false]
  | succ n ih =>
      intro a s hmap
      simp only [markBytes, and_cgrMask, shiftRight_mega]
      refine Outcome.assert_bind (fun h => ?_) fun _ => ?_
      · have hclear := h.1 a le_rfl (by omega)
        rw [marked, shiftRight_mega, and_cgrMask] at hclear
        rw [hclear]
        rfl
      · obtain ⟨hbeside, hnode, hmarked⟩ := markByte hmap
        generalize s.update (a / 1048576) (fun m =>
          { m with subpage := setBit m.subpage (a % 1048576) }) = t at hbeside hnode hmarked
        -- the rest of the loop, whether it stays in the megabyte or not
        have hrest : t.mapped ((a + 1) / 1048576) →
            Outcome (s.Clear a (a + (n + 1)) ∧ s.NextMapped a (a + (n + 1)))
              (MarksBytes a (a + (n + 1)) s) (markBytes n (a + 1) ((a + 1) / 1048576) t) := by
          intro hnext
          refine ((ih hnext).weaken fun h => ⟨?_, ?_⟩).mono fun u hu =>
            hu.cons hbeside hnode hmarked hnext
          · intro y hlo hhi
            have hy : y ≠ a := by omega
            rw [hmarked, h.1 y (by omega) (by omega)]
            simp [hy]
          · intro k hlo hhi
            exact (hbeside.mapped k).mpr (h.2 k (by omega) (by omega))
        by_cases hlast : (a + 1) % 1048576 = 0
        · rw [if_pos hlast]
          refine Outcome.assert_bind (fun h => ?_) fun hsome => ?_
          · rw [mapped_iff_isSome, hbeside.mapped]
            exact h.2 _ (by omega) (by omega)
          · exact hrest ((mapped_iff_isSome _ _).mp hsome)
        · have hsame : (a + 1) / 1048576 = a / 1048576 := by omega
          rw [if_neg hlast, ← hsame]
          exact hrest ((hbeside.mapped _).mpr (hsame ▸ hmap))

theorem markNode (hmap : s.mapped (x / 1048576)) :
    let t := s.update (x / 1048576) fun m =>
      { m with nodemap := setBit m.nodemap (x % 1048576) }
    Beside s t ∧ (∀ y, t.marked y = s.marked y) ∧
      ∀ y, t.node y = (s.node y || decide (y = x)) := by
  refine ⟨beside_update _ _ fun _ => rfl, fun y => ?_, fun y => ?_⟩
  · rw [marked_eq_look, look_update, marked_eq_look]
    split
    · next h => rw [h]
    · rfl
  · have hbit := look_update_bit true hmap (g := fun m n => testBit m.nodemap n)
      (f := fun m => { m with nodemap := setBit m.nodemap (x % 1048576) }) (fun m n => by
        by_cases hn : n = x % 1048576 <;> simp [hn]) y
    rw [node, hbit, node]
    by_cases hy : y = x <;> simp [hy]

theorem mapped_of_prot (h : s.prot p = true) : s.mapped (p / 256) := by
  rw [Marks.prot, look] at h
  cases hm : s.mapAt (p / 256) with
  | none => simp [hm] at h
  | some m => exact ⟨m, hm⟩

/-- What `e_markpage` does, where it returns. -/
structure MarksRange (r : GuestRange) (s t : Marks) : Prop where
  marked : ∀ y, t.marked y = (s.marked y || decide (r.addr ≤ y ∧ y < r.addr + r.len))
  node : ∀ y, t.node y = (s.node y || decide (y = r.addr))
  prot : ∀ p, t.prot p = (s.prot p || decide (r.firstPage ≤ p ∧ p ≤ r.lastPage))
  mapped : ∀ k, s.mapped k → t.mapped k
  host : s.HostSame → t.HostSame
  next : t.NextMapped r.addr (r.addr + r.len)
  below : r.lastPage ≠ topPage

/-- What `e_markpage` asks of the maps: the pages are at hand, the bytes are not
marked, and after a range that ends with its megabyte there is a map for the next
one. -/
structure CanMark (s : Marks) (r : GuestRange) : Prop where
  below : r.lastPage ≠ topPage
  fetched : s.Fetched r.firstPage (r.lastPage + 1 - r.firstPage)
  clear : s.Clear r.addr (r.addr + r.len)
  next : (r.addr + r.len) % 1048576 = 0 → s.mapped ((r.addr + r.len) / 1048576)

/-- `e_markpage`. -/
theorem eMarkpage_outcome (s : Marks) (r : GuestRange) :
    Outcome (s.CanMark r) (MarksRange r s) (s.eMarkpage r) := by
  have hpages := r.firstPage_le
  have hfirst := r.firstPage_eq
  have hlast := r.lastPage_eq
  have hpos := r.pos
  unfold eMarkpage
  refine ((eMprotect_outcome s r).weaken fun h => ⟨h.below, h.fetched⟩).bind ?_
  rintro v ⟨hbelow, u, hshield, rfl⟩
  have hprot : ∀ p, r.firstPage ≤ p → p ≤ r.lastPage → u.prot p = true := by
    intro p hlo hhi
    have hin : r.firstPage ≤ p ∧ p < r.firstPage + (r.lastPage + 1 - r.firstPage) := by omega
    rw [hshield.prot]
    simp [hin]
  have hmap : u.mapped (r.addr / 1048576) := by
    have hpage := mapped_of_prot (hprot r.firstPage le_rfl hpages)
    rwa [show r.firstPage / 256 = r.addr / 1048576 by omega] at hpage
  refine Outcome.assert_bind (fun _ => (mapped_iff_isSome _ _).mpr hmap) fun _ => ?_
  simp only [shiftRight_mega, and_cgrMask]
  -- the cache does not matter any more
  have hmap' : ({ u with clist := dropC u.clist } : Marks).mapped (r.addr / 1048576) := hmap
  obtain ⟨hbeside, hmarked, hnode⟩ := markNode hmap'
  generalize Marks.update { u with clist := dropC u.clist } (r.addr / 1048576) (fun m =>
    { m with nodemap := setBit m.nodemap (r.addr % 1048576) }) = v at hbeside hmarked hnode
  refine ((markBytes_outcome ((hbeside.mapped _).mpr hmap')).weaken fun h => ⟨?_, ?_⟩).mono
    fun t ht => ?_
  · intro y hlo hhi
    rw [hmarked]
    exact (hshield.marked y).trans (h.clear y hlo hhi)
  · intro k hlo hhi
    rw [hbeside.mapped]
    by_cases hend : k * 1048576 = r.addr + r.len
    · have hk : k = (r.addr + r.len) / 1048576 := by omega
      exact hk ▸ hshield.mapped _ (h.next (by omega))
    · have hlo' : r.firstPage ≤ k * 256 := by omega
      replace hhi : k * 1048576 < r.addr + r.len := lt_of_le_of_ne hhi hend
      have hhi' : k * 256 ≤ r.lastPage := by omega
      have hpage := mapped_of_prot (hprot (k * 256) hlo' hhi')
      have hmega : k * 256 / 256 = k := Nat.mul_div_cancel k (by decide)
      rw [hmega] at hpage
      exact hpage
  · refine ⟨fun y => ?_, fun y => ?_, fun p => ?_, fun k hk => ?_, fun hs p => ?_, ?_, hbelow⟩
    · rw [ht.marked, hmarked]
      exact congrArg (· || _) (hshield.marked y)
    · rw [ht.node, hnode]
      exact congrArg (· || _) (hshield.node y)
    · rw [ht.prot, hbeside.prot]
      refine (hshield.prot p).trans ?_
      congr 2
      exact propext ⟨fun _ => by omega, fun _ => by omega⟩
    · exact (ht.mapped k).mpr ((hbeside.mapped k).mpr (hshield.mapped k hk))
    · rw [ht.writeProt, hbeside.writeProt, ht.prot, hbeside.prot]
      exact hshield.host hs p
    · exact fun k hlo hhi => (ht.mapped k).mpr (ht.next k hlo hhi)

/-! ## Unmarking -/

theorem unmarkByte (hmap : s.mapped (x / 1048576)) :
    let t := s.update (x / 1048576) fun m =>
      { m with
        nodemap := clearBit m.nodemap (x % 1048576)
        subpage := clearBit m.subpage (x % 1048576) }
    Beside s t ∧ (∀ y, t.node y = (s.node y && !decide (y = x))) ∧
      ∀ y, t.marked y = (s.marked y && !decide (y = x)) := by
  refine ⟨beside_update _ _ fun _ => rfl, fun y => ?_, fun y => ?_⟩
  · have hbit := look_update_bit false hmap (g := fun m n => testBit m.nodemap n)
      (f := fun m => { m with
        nodemap := clearBit m.nodemap (x % 1048576)
        subpage := clearBit m.subpage (x % 1048576) }) (fun m n => by
        by_cases hn : n = x % 1048576 <;> simp [hn]) y
    rw [node, hbit, node]
    by_cases hy : y = x <;> simp [hy]
  · have hbit := look_update_bit false hmap (g := fun m n => testBit m.subpage n)
      (f := fun m => { m with
        nodemap := clearBit m.nodemap (x % 1048576)
        subpage := clearBit m.subpage (x % 1048576) }) (fun m n => by
        by_cases hn : n = x % 1048576 <;> simp [hn]) y
    rw [marked_eq_look, hbit, marked_eq_look]
    by_cases hy : y = x <;> simp [hy]

/-- The bytes of `[lo, hi)` are no longer marked, and no nodes start there. -/
structure UnmarksBytes (lo hi : Nat) (s t : Marks) : Prop extends Beside s t where
  node : ∀ y, t.node y = (s.node y && !decide (lo ≤ y ∧ y < hi))
  marked : ∀ y, t.marked y = (s.marked y && !decide (lo ≤ y ∧ y < hi))
  next : s.NextMapped lo hi

/-- Unmark one byte, and then the bytes after it. -/
theorem UnmarksBytes.cons {u : Marks} {a n : Nat} (hbeside : Beside s t)
    (hnode : ∀ y, t.node y = (s.node y && !decide (y = a)))
    (hmarked : ∀ y, t.marked y = (s.marked y && !decide (y = a)))
    (hnext : t.mapped ((a + 1) / 1048576)) (h : UnmarksBytes (a + 1) (a + 1 + n) t u) :
    UnmarksBytes a (a + (n + 1)) s u := by
  have hboth : ∀ y, (!decide (y = a) && !decide (a + 1 ≤ y ∧ y < a + 1 + n)) =
      !decide (a ≤ y ∧ y < a + (n + 1)) := by
    intro y
    rw [← Bool.not_or, ← Bool.decide_or]
    congr 2
    exact propext ⟨fun _ => by omega, fun _ => by omega⟩
  refine ⟨hbeside.trans h.toBeside, fun y => ?_, fun y => ?_, ?_⟩
  · rw [h.node, hnode, Bool.and_assoc, hboth]
  · rw [h.marked, hmarked, Bool.and_assoc, hboth]
  · exact nextMapped_cons hbeside hnext h.next

theorem unmarkBytes_outcome {n : Nat} :
    ∀ {a : Nat} {s : Marks}, s.mapped (a / 1048576) →
      Outcome (s.NextMapped a (a + n)) (UnmarksBytes a (a + n) s)
        (unmarkBytes n a (a / 1048576) s) := by
  induction n with
  | zero =>
      intro a s _
      have hout : ∀ y, ¬(a ≤ y ∧ y < a + 0) := by
        intro y
        omega
      refine ⟨Beside.refl s, fun y => ?_, fun y => ?_, fun k hlo hhi => by omega⟩
      · simp only [hout, decide_false, Bool.not_false, Bool.and_true]
      · simp only [hout, decide_false, Bool.not_false, Bool.and_true]
  | succ n ih =>
      intro a s hmap
      simp only [unmarkBytes, and_cgrMask, shiftRight_mega]
      obtain ⟨hbeside, hnode, hmarked⟩ := unmarkByte hmap
      generalize s.update (a / 1048576) (fun m =>
        { m with
          nodemap := clearBit m.nodemap (a % 1048576)
          subpage := clearBit m.subpage (a % 1048576) }) = t at hbeside hnode hmarked
      have hrest : t.mapped ((a + 1) / 1048576) →
          Outcome (s.NextMapped a (a + (n + 1))) (UnmarksBytes a (a + (n + 1)) s)
            (unmarkBytes n (a + 1) ((a + 1) / 1048576) t) := by
        intro hnext
        refine ((ih hnext).weaken fun h => ?_).mono fun u hu =>
          hu.cons hbeside hnode hmarked hnext
        intro k hlo hhi
        exact (hbeside.mapped k).mpr (h k (by omega) (by omega))
      by_cases hlast : (a + 1) % 1048576 = 0
      · rw [if_pos hlast]
        refine Outcome.assert_bind (fun h => ?_) fun hsome => ?_
        · rw [mapped_iff_isSome, hbeside.mapped]
          exact h _ (by omega) (by omega)
        · exact hrest ((mapped_iff_isSome _ _).mp hsome)
      · have hsame : (a + 1) / 1048576 = a / 1048576 := by omega
        rw [if_neg hlast, ← hsame]
        exact hrest ((hbeside.mapped _).mpr (hsame ▸ hmap))

/-! ## Unprotecting -/

/-- Only protected pages have marks. -/
def Covered (s : Marks) : Prop :=
  ∀ x, s.prot (x / 4096) = false → s.marked x = false ∧ s.node x = false

/-- The pages from `page` on, `n` of them, have no marks. -/
def Bare (s : Marks) (page n : Nat) : Prop :=
  ∀ x, page ≤ x / 4096 → x / 4096 < page + n → s.marked x = false ∧ s.node x = false

/-- The pages from `page` on, `n` of them, have no entry any more. -/
structure Unprotects (page n : Nat) (s t : Marks) : Prop where
  marked : ∀ x, t.marked x = s.marked x
  node : ∀ x, t.node x = s.node x
  prot : ∀ p, t.prot p = (s.prot p && !decide (page ≤ p ∧ p < page + n))
  mapped : ∀ k, t.mapped k → s.mapped k
  keeps : ∀ k, (∀ p, page ≤ p → p < page + n → p / 256 ≠ k) → s.mapped k → t.mapped k
  clist : t.clist = s.clist

theorem unprotects_zero (s : Marks) (page : Nat) : Unprotects page 0 s s where
  marked _ := rfl
  node _ := rfl
  prot p := by
    have hnone : ¬(page ≤ p ∧ p < page + 0) := by omega
    simp only [hnone, decide_false, Bool.not_false, Bool.and_true]
  mapped _ h := h
  keeps _ _ h := h
  clist := rfl

theorem Unprotects.trans {u : Marks} {page n l : Nat} (h : Unprotects page n s t)
    (h' : Unprotects (page + n) l t u) : Unprotects page (n + l) s u where
  marked x := (h'.marked x).trans (h.marked x)
  node x := (h'.node x).trans (h.node x)
  prot p := by
    rw [h'.prot, h.prot, Bool.and_assoc, ← Bool.not_or, ← Bool.decide_or]
    congr 3
    exact propext ⟨fun _ => by omega, fun _ => by omega⟩
  mapped k hk := h.mapped k (h'.mapped k hk)
  keeps k hout hk := by
    refine h'.keeps k (fun p hlo hhi => hout p (by omega) (by omega)) ?_
    exact h.keeps k (fun p hlo hhi => hout p hlo (by omega)) hk
  clist := h'.clist.trans h.clist

theorem Unprotects.covered {page n : Nat} (h : Unprotects page n s t) (hs : s.Covered)
    (hbare : s.Bare page n) : t.Covered := by
  intro x hx
  rw [h.prot, Bool.and_eq_false_iff] at hx
  rw [h.marked, h.node]
  rcases hx with hx | hx
  · exact hs x hx
  · simp only [Bool.not_eq_false', decide_eq_true_eq] at hx
    exact hbare x hx.1 hx.2

theorem Unprotects.bare {page n q l : Nat} (h : Unprotects page n s t) (hbare : s.Bare q l) :
    t.Bare q l := by
  intro x hlo hhi
  rw [h.marked, h.node]
  exact hbare x hlo hhi

/-- A page without an entry. -/
theorem unprotects_again (hprot : s.prot p = false) : Unprotects p 1 s s where
  marked _ := rfl
  node _ := rfl
  prot q := by
    by_cases hq : p ≤ q ∧ q < p + 1
    · have hsame : q = p := by omega
      simp [hsame, hprot]
    · simp only [hq, decide_false, Bool.not_false, Bool.and_true]
  mapped _ h := h
  keeps _ _ h := h
  clist := rfl

theorem look_erase (s : Marks) (k j : Nat) (g : MpMap → Bool) :
    ({ s with mpH := s.mpH.erase k } : Marks).look j g = if j = k then false else s.look j g := by
  unfold look mapAt
  by_cases hjk : j = k
  · subst hjk
    simp
  · simp [hjk]

/-- The entry of one page goes. -/
theorem unprotects_entry (s : Marks) (p : Nat) :
    Unprotects p 1 s (s.update (p / 256) fun m =>
      { m with pagemap := Function.update m.pagemap (p % 256) false }) where
  marked x := by
    rw [marked_eq_look, marked_eq_look, look_update]
    split
    · next h => rw [h]
    · rfl
  node x := by
    rw [node, look_update]
    split
    · next h => rw [node, h]
    · rfl
  prot q := by
    rw [Marks.prot, look_update]
    by_cases hmega : q / 256 = p / 256
    · rw [if_pos hmega]
      by_cases hq : q = p
      · subst hq
        have hin : q ≤ q ∧ q < q + 1 := by omega
        simp only [Function.update_self, hin, and_self, decide_true, Bool.not_true, Bool.and_false,
          look]
        cases s.mapAt (q / 256) <;> rfl
      · have hmod : q % 256 ≠ p % 256 := by omega
        have hout : ¬(p ≤ q ∧ q < p + 1) := by omega
        simp only [Function.update_of_ne hmod, hout, decide_false, Bool.not_false, Bool.and_true]
        rw [Marks.prot, hmega]
    · have hout : ¬(p ≤ q ∧ q < p + 1) := by omega
      rw [if_neg hmega]
      simp only [hout, decide_false, Bool.not_false, Bool.and_true]
      rfl
  mapped k h := (mapped_update _ _ _ _).mp h
  keeps k _ h := (mapped_update _ _ _ _).mpr h
  clist := update_clist _

/-- A map without pages goes; its marks are gone already. -/
theorem unprotects_erase (hs : s.Covered) {m : MpMap} (hmap : s.mapAt k = some m)
    (hnone : ∀ j, j < 256 → m.pagemap j = false) (hp : p / 256 = k) :
    Unprotects p 1 s { s with mpH := s.mpH.erase k } := by
  have hprot : ∀ q, q / 256 = k → s.prot q = false := by
    intro q hq
    rw [Marks.prot, look, hq, hmap]
    exact hnone _ (Nat.mod_lt q (by decide))
  refine ⟨fun x => ?_, fun x => ?_, fun q => ?_, fun j hj => ?_, fun j hout hj => ?_, rfl⟩
  · rw [marked_eq_look, look_erase]
    split
    · next h => exact (hs x (hprot _ (by omega))).1.symm
    · rw [marked_eq_look]
  · rw [node, look_erase]
    split
    · next h => exact (hs x (hprot _ (by omega))).2.symm
    · rfl
  · rw [Marks.prot, look_erase]
    by_cases hq : q / 256 = k
    · rw [if_pos hq, hprot q hq]
      rfl
    · have hne : ¬(p ≤ q ∧ q < p + 1) := by omega
      rw [if_neg hq]
      simp only [hne, decide_false, Bool.not_false, Bool.and_true]
      rfl
  · obtain ⟨m', hm'⟩ := hj
    by_cases hjk : j = k
    · exact ⟨m, hjk ▸ hmap⟩
    · exact ⟨m', by simpa [mapAt, hjk] using hm'⟩
  · obtain ⟨m', hm'⟩ := hj
    have hjk : j ≠ k := fun h => hout p le_rfl (by omega) (hp.trans h.symm)
    exact ⟨m', by simpa [mapAt, hjk] using hm'⟩

theorem doRmPage_unprotects (hs : s.Covered) (hbare : s.Bare p 1) :
    Unprotects p 1 s (s.doRmPage (p / 256) (p % 256)) := by
  have hentry := unprotects_entry s p
  have hcovered := hentry.covered hs hbare
  unfold doRmPage
  generalize s.update (p / 256) (fun m =>
    { m with pagemap := Function.update m.pagemap (p % 256) false }) = t at hentry hcovered
  dsimp only
  cases hmap : t.mapAt (p / 256) with
  | none => exact hentry
  | some m =>
      dsimp only
      split
      · exact hentry
      · next hany =>
          have hnone : ∀ j, j < 256 → m.pagemap j = false := by
            simpa [pagesPerMega] using hany
          have herase := unprotects_erase hcovered hmap hnone rfl
          refine ⟨fun x => ?_, fun x => ?_, fun q => ?_, fun k hk => ?_, fun k hout hk => ?_, ?_⟩
          · rw [herase.marked, hentry.marked]
          · rw [herase.node, hentry.node]
          · rw [herase.prot, hentry.prot, Bool.and_assoc, Bool.and_self]
          · exact hentry.mapped k (herase.mapped k hk)
          · exact herase.keeps k hout (hentry.keeps k hout hk)
          · exact herase.clist.trans hentry.clist

theorem doRmPage_writeProt (s : Marks) (k j : Nat) : (s.doRmPage k j).writeProt = s.writeProt := by
  unfold doRmPage
  dsimp only
  split
  · exact update_writeProt _
  · split
    · exact update_writeProt _
    · exact update_writeProt _

theorem rmMpMap_unprotects {n : Nat} :
    ∀ {p : Nat} {s : Marks}, s.Covered → s.Bare p n →
      Unprotects p n s (rmMpMap n (p * 4096) s) ∧
        (rmMpMap n (p * 4096) s).writeProt = s.writeProt := by
  induction n with
  | zero =>
      intro p s _ _
      exact ⟨unprotects_zero s p, rfl⟩
  | succ n ih =>
      intro p s hs hbare
      have hpage : p * 4096 / hostPageSize = p := Nat.mul_div_cancel p (by decide)
      have hnext : p * 4096 + hostPageSize = (p + 1) * 4096 := by
        rw [hostPageSize]
        ring
      have hfirst : s.Bare p 1 := fun x hlo hhi => hbare x hlo (by omega)
      -- one page, and the rest of the loop
      have hrest : ∀ t, Unprotects p 1 s t → t.writeProt = s.writeProt →
          Unprotects p (n + 1) s (rmMpMap n ((p + 1) * 4096) t) ∧
            (rmMpMap n ((p + 1) * 4096) t).writeProt = s.writeProt := by
        intro t hstep hhost
        obtain ⟨hun, hwrite⟩ := ih (p := p + 1) (hstep.covered hs hfirst)
          (hstep.bare fun x hlo hhi => hbare x (by omega) (by omega))
        rw [Nat.add_comm n 1]
        exact ⟨hstep.trans hun, hwrite.trans hhost⟩
      have hlook : s.prot p = (s.mapAt (p / 256)).elim false fun m => m.pagemap (p % 256) := rfl
      simp only [rmMpMap, hpage, hnext, pagesPerMega]
      cases hmap : s.mapAt (p / 256) with
      | none =>
          rw [hmap] at hlook
          exact hrest s (unprotects_again hlook) rfl
      | some m =>
          rw [hmap] at hlook
          dsimp only
          by_cases hbit : m.pagemap (p % 256) = true
          · rw [if_pos hbit]
            exact hrest _ (doRmPage_unprotects hs hfirst) (doRmPage_writeProt _ _ _)
          · rw [if_neg hbit]
            exact hrest s (unprotects_again (hlook.trans (Bool.eq_false_iff.mpr hbit))) rfl

/-- The pages are unprotected, by the host too. -/
structure Unshields (page n : Nat) (s t : Marks) : Prop extends Unprotects page n s t where
  host : s.HostSame → t.HostSame

theorem Unshields.trans {u : Marks} {page n l : Nat} (h : Unshields page n s t)
    (h' : Unshields (page + n) l t u) : Unshields page (n + l) s u :=
  ⟨h.toUnprotects.trans h'.toUnprotects, fun hs => h'.host (h.host hs)⟩

/-- A group of pages is given back by the host and loses its entries. -/
theorem unprotectGroup_unshields (hs : s.Covered) {n : Nat} (hbare : s.Bare p n) :
    Unshields p n s
      (rmMpMap n (p * 4096) (s.mprotectMapping (p * 4096 / hostPageSize) n false)) := by
  have hpage : p * 4096 / hostPageSize = p := Nat.mul_div_cancel p (by decide)
  rw [hpage]
  obtain ⟨hun, hwrite⟩ :=
    rmMpMap_unprotects (s := s.mprotectMapping p n false) (p := p) (n := n) hs hbare
  have hall : Unprotects p n s (rmMpMap n (p * 4096) (s.mprotectMapping p n false)) :=
    ⟨hun.marked, hun.node, hun.prot, hun.mapped, hun.keeps, hun.clist⟩
  refine ⟨hall, fun hsame q => ?_⟩
  rw [hwrite, hall.prot, ← hsame q, mprotectMapping]
  by_cases hq : p ≤ q ∧ q < p + n
  · simp [hq]
  · simp only [hq, if_false, decide_false, Bool.not_false, Bool.and_true]

/-- The loop of `e_munprotect`, with `count` pages from `b` on still to be
unprotected. -/
theorem unprotectPages_unshields {n : Nat} :
    ∀ (b count abeg1 : Nat) (s : Marks), (count ≠ 0 → abeg1 = b * 4096) → (n = 0 → count = 0) →
      s.Covered → s.Bare b (count + n) →
        Unshields b (count + n) s (unprotectPages n ((b + count) * 4096) abeg1 count s) := by
  induction n with
  | zero =>
      intro b count abeg1 s _ hnone _ _
      rw [hnone rfl]
      exact ⟨unprotects_zero s b, fun h => h⟩
  | succ n ih =>
      intro b count abeg1 s habeg _ hs hbare
      have hnext : (b + count) * 4096 + hostPageSize = (b + count + 1) * 4096 := by
        rw [hostPageSize]
        ring
      have hqp : s.eQuerymprot ((b + count) * 4096) = s.prot (b + count) := by
        rw [eQuerymprot_eq, Nat.mul_div_cancel _ (by decide)]
      rw [unprotectPages, hqp, hnext]
      by_cases hprot : s.prot (b + count) = true
      · -- one more page is pending
        have hstart : (if count = 0 then (b + count) * 4096 else abeg1) = b * 4096 := by
          by_cases hcount : count = 0
          · rw [if_pos hcount, hcount, Nat.add_zero]
          · rw [if_neg hcount, habeg hcount]
        have hsplit : count + (n + 1) = count + 1 + n := by ring
        rw [hsplit] at hbare ⊢
        simp only [hprot, Bool.true_and, beq_iff_eq, hstart, if_true, Bool.not_true, Bool.or_false,
          Bool.and_eq_true, bne_iff_ne, ne_eq, Nat.succ_ne_zero, not_false_eq_true, and_true]
        by_cases hlast : n = 0
        · subst hlast
          rw [if_pos rfl]
          exact unprotectGroup_unshields hs hbare
        · rw [if_neg hlast]
          exact ih b (count + 1) _ s (fun _ => rfl) (fun h => absurd h hlast) hs hbare
      · -- the page has no entry: whatever is pending is done first
        have hsplit : count + (n + 1) = count + (1 + n) := by ring
        have hrest : ∀ t, Unshields b count s t → t.Covered →
            Unshields b (count + (1 + n)) s
              (unprotectPages n ((b + count + 1) * 4096) abeg1 0 t) := by
          intro t ht hcovered
          have hthere : t.prot (b + count) = false := by
            rw [ht.prot, Bool.eq_false_iff.mpr hprot, Bool.false_and]
          have hagain : Unshields (b + count) 1 t t := ⟨unprotects_again hthere, fun h => h⟩
          have hih := ih (b + count + 1) 0 abeg1 t (fun h => absurd rfl h) (fun _ => rfl) hcovered
            (ht.bare fun x hlo hhi => hbare x (by omega) (by omega))
          rw [Nat.zero_add] at hih
          exact ht.trans (hagain.trans hih)
        rw [hsplit]
        simp only [hprot, Bool.false_and, Bool.false_eq_true, if_false, Bool.not_false,
          Bool.or_true, Bool.true_and, bne_iff_ne]
        by_cases hcount : count = 0
        · rw [if_neg (not_not.mpr hcount)]
          subst hcount
          exact hrest s ⟨unprotects_zero s b, fun h => h⟩ hs
        · obtain rfl := habeg hcount
          have hgroup : s.Bare b count := fun x hlo hhi => hbare x hlo (by omega)
          have hflush := unprotectGroup_unshields hs hgroup
          rw [if_pos hcount]
          exact hrest _ hflush (hflush.covered hs hgroup)

/-- `e_munprotect` of the pages of `[b * 4096, e * 4096)`. -/
theorem eMunprotect_unshields {b e : Nat} (hlt : b < e) (htop : e ≤ topPage) (hs : s.Covered)
    (hbare : s.Bare b (e - b)) :
    ∃ t, s.eMunprotect (b * 4096) (e * 4096 - b * 4096) = some t ∧ Unshields b (e - b) s t := by
  have hlast : (b * 4096 + (e * 4096 - b * 4096) - 1) / hostPageSize = e - 1 := by
    rw [hostPageSize]
    omega
  have hfirst : b * 4096 / hostPageSize = b := Nat.mul_div_cancel b (by decide)
  have hne : e - 1 ≠ topPage := by omega
  have hcount : e - 1 + 1 - b = e - b := by omega
  have hun := unprotectPages_unshields (n := e - b) b 0 0 s (fun h => absurd rfl h) (fun _ => rfl) hs
    (by rwa [Nat.zero_add])
  rw [Nat.zero_add, Nat.add_zero] at hun
  refine ⟨_, ?_, hun⟩
  simp only [eMunprotect, hlast, hfirst, hcount, Option.bind_eq_bind, cAssert_bind hne]
  rfl

/-! ## `e_unmarkpage` -/

/-- Within a megabyte that has a map, the query is exact. -/
theorem eQuerymark_within {lo hi : Nat} (hlt : lo < hi) (hmega : lo / 1048576 = (hi - 1) / 1048576)
    (htop : hi < 2 ^ 32) (hmap : s.mapped (lo / 1048576)) :
    s.eQuerymark lo (hi - lo) = true ↔ ∃ x, lo ≤ x ∧ x < hi ∧ s.marked x = true := by
  have hiff := eQuerymark_eq_true_iff s ⟨lo, hi - lo, by omega, by omega⟩
  have hstop : queryStop ⟨lo, hi - lo, by omega, by omega⟩ = hi := by
    have hne : lo + (hi - lo) ≠ 2 ^ 32 := by omega
    unfold queryStop
    dsimp only
    rw [if_neg hne]
    split <;> omega
  rw [hstop] at hiff
  rw [hiff]
  constructor
  · rintro ⟨x, hxlo, hxhi, hx, -⟩
    exact ⟨x, hxlo, hxhi, hx⟩
  · rintro ⟨x, hxlo, hxhi, hx⟩
    refine ⟨x, hxlo, hxhi, hx, fun k hk hkx => ?_⟩
    have hsame : k = lo / 1048576 := by
      change lo / 1048576 ≤ k at hk
      omega
    exact hsame ▸ hmap

/-- The first bytes of nodes are marked. -/
def NodesMarked (s : Marks) : Prop :=
  ∀ x, s.node x = true → s.marked x = true

/-- A marked byte is left in the page. -/
def HasMark (s : Marks) (p : Nat) : Prop :=
  ∃ x, x / 4096 = p ∧ s.marked x = true

/-- What `e_unmarkpage` does, where it returns. -/
structure UnmarksRange (r : GuestRange) (s t : Marks) : Prop where
  marked : ∀ y, t.marked y = (s.marked y && !decide (r.addr ≤ y ∧ y < r.addr + r.len))
  node : ∀ y, t.node y = (s.node y && !decide (r.addr ≤ y ∧ y < r.addr + r.len))
  prot : ∀ p, t.prot p = true ↔
    s.prot p = true ∧ (p < r.firstPage ∨ r.lastPage < p ∨ t.HasMark p)
  mapped : ∀ k, t.mapped k → s.mapped k
  keeps : ∀ k, (k < r.firstPage / 256 ∨ r.lastPage / 256 < k) → s.mapped k → t.mapped k
  clist : t.clist = s.clist
  host : s.HostSame → t.HostSame

/-- The pages from `b` to before `e` are given back: all that the range touches,
but for a first or last one with marks beside the range. -/
theorem giveBack (r : GuestRange) (hs : s.Covered) (hnodes : s.NodesMarked)
    (htop : r.lastPage ≠ topPage) (hclear : s.Clear r.addr (r.addr + r.len)) {b e : Nat}
    (hb : (b = r.firstPage ∧ s.Clear (r.firstPage * 4096) r.addr) ∨
      (b = r.firstPage + 1 ∧ s.HasMark r.firstPage))
    (he : (e = r.lastPage + 1 ∧ s.Clear (r.addr + r.len) ((r.lastPage + 1) * 4096)) ∨
      (e = r.lastPage ∧ s.HasMark r.lastPage)) :
    ∃ t, (if b * 4096 < e * 4096 then s.eMunprotect (b * 4096) (e * 4096 - b * 4096) else some s) =
        some t ∧
      (∀ x, t.marked x = s.marked x) ∧ (∀ x, t.node x = s.node x) ∧
      (∀ p, t.prot p = true ↔
        s.prot p = true ∧ (p < r.firstPage ∨ r.lastPage < p ∨ t.HasMark p)) ∧
      (∀ k, t.mapped k → s.mapped k) ∧
      (∀ k, (k < r.firstPage / 256 ∨ r.lastPage / 256 < k) → s.mapped k → t.mapped k) ∧
      t.clist = s.clist ∧ (s.HostSame → t.HostSame) := by
  have hpages := r.firstPage_le
  have hfirst := r.firstPage_eq
  have hlast := r.lastPage_eq
  have hpos := r.pos
  have hfits := r.fits
  have htopEq : topPage = 0xfffff := rfl
  have hbare : s.Bare b (e - b) := by
    intro x hlo hhi
    have hmarked : s.marked x = false := by
      by_cases hbefore : x < r.addr
      · rcases hb with ⟨rfl, hleft⟩ | ⟨rfl, -⟩
        · exact hleft x (by omega) hbefore
        · omega
      · by_cases hafter : r.addr + r.len ≤ x
        · rcases he with ⟨rfl, hright⟩ | ⟨rfl, -⟩
          · exact hright x hafter (by omega)
          · omega
        · exact hclear x (by omega) (by omega)
    refine ⟨hmarked, ?_⟩
    by_contra hnode
    rw [hnodes x (by simpa using hnode)] at hmarked
    cases hmarked
  have hrange : r.firstPage ≤ b ∧ e ≤ r.lastPage + 1 := by omega
  -- a page of the range that is kept has marks
  have hkept : ∀ p, r.firstPage ≤ p → p ≤ r.lastPage → ¬(b ≤ p ∧ p < e) → s.HasMark p := by
    intro p hlo hhi hout
    by_cases hleft : p < b
    · rcases hb with ⟨rfl, -⟩ | ⟨rfl, hmark⟩
      · omega
      · rwa [show p = r.firstPage by omega]
    · rcases he with ⟨rfl, -⟩ | ⟨rfl, hmark⟩
      · omega
      · rwa [show p = r.lastPage by omega]
  by_cases hlt : b < e
  · obtain ⟨t, ht, hun⟩ := eMunprotect_unshields hlt (by omega) hs hbare
    have hmark : ∀ p, t.HasMark p ↔ s.HasMark p := by
      intro p
      simp only [HasMark, hun.marked]
    refine ⟨t, ?_, hun.marked, hun.node, fun p => ?_, hun.mapped, fun k hout => ?_, hun.clist,
      hun.host⟩
    · rw [if_pos (by omega)]
      exact ht
    · rw [hun.prot, hmark, Bool.and_eq_true]
      simp only [Bool.not_eq_true', decide_eq_false_iff_not]
      refine and_congr_right fun _ => ⟨fun hout => ?_, fun hkeep hin => ?_⟩
      · by_cases hlo : p < r.firstPage
        · exact Or.inl hlo
        · by_cases hhi : r.lastPage < p
          · exact Or.inr (Or.inl hhi)
          · exact Or.inr (Or.inr (hkept p (by omega) (by omega) (by omega)))
      · rcases hkeep with hlo | hhi | ⟨x, hx, hmarked⟩
        · omega
        · omega
        · rw [(hbare x (by omega) (by omega)).1] at hmarked
          cases hmarked
    · refine hun.keeps k fun p hlo hhi => ?_
      have hplo : r.firstPage / 256 ≤ p / 256 := Nat.div_le_div_right (by omega)
      have hphi : p / 256 ≤ r.lastPage / 256 := Nat.div_le_div_right (by omega)
      omega
  · refine ⟨s, if_neg (by omega), fun _ => rfl, fun _ => rfl, fun p => ?_, fun _ h => h,
      fun _ _ h => h, rfl, fun h => h⟩
    refine ⟨fun hprot => ⟨hprot, ?_⟩, And.left⟩
    by_cases hlo : p < r.firstPage
    · exact Or.inl hlo
    · by_cases hhi : r.lastPage < p
      · exact Or.inr (Or.inl hhi)
      · exact Or.inr (Or.inr (hkept p (by omega) (by omega) (by omega)))

theorem UnmarksBytes.covered {lo hi : Nat} (h : UnmarksBytes lo hi s t) (hs : s.Covered) :
    t.Covered := by
  intro x hx
  rw [h.prot] at hx
  rw [h.marked, h.node, (hs x hx).1, (hs x hx).2]
  exact ⟨rfl, rfl⟩

theorem UnmarksBytes.nodesMarked {lo hi : Nat} (h : UnmarksBytes lo hi s t) (hs : s.NodesMarked) :
    t.NodesMarked := by
  intro x hx
  rw [h.node, Bool.and_eq_true] at hx
  rw [h.marked, hs x hx.1, hx.2]
  rfl

theorem UnmarksBytes.clear {lo hi : Nat} (h : UnmarksBytes lo hi s t) : t.Clear lo hi := by
  intro x hlo hhi
  rw [h.marked]
  simp [hlo, hhi]

/-- The test of a partial page at the edge of the range, between `lo` and `hi`. -/
theorem edge_iff (lo hi : Nat) (hle : lo ≤ hi) (hpage : (hi - 1) / 4096 ≤ lo / 4096)
    (htop : hi < 2 ^ 32) (hmap : lo < hi → s.mapped (lo / 1048576)) :
    (lo ≠ hi ∧ s.eQuerymark lo (hi - lo) = true) ↔ ¬s.Clear lo hi := by
  by_cases hsame : lo = hi
  · subst hsame
    refine iff_of_false (fun h => h.1 rfl) fun h => h fun x hlo hhi => ?_
    omega
  · have hmega : lo / 1048576 = (hi - 1) / 1048576 := by omega
    rw [eQuerymark_within (by omega) hmega htop (hmap (by omega))]
    simp only [ne_eq, hsame, not_false_eq_true, true_and, Clear, not_forall, Bool.not_eq_false]
    exact ⟨fun ⟨x, hlo, hhi, hx⟩ => ⟨x, hlo, hhi, hx⟩, fun ⟨x, hlo, hhi, hx⟩ => ⟨x, hlo, hhi, hx⟩⟩

theorem hasMark_of_not_clear {lo hi : Nat} (h : ¬s.Clear lo hi) (hlo : p ≤ lo / 4096)
    (hhi : hi ≤ (p + 1) * 4096) : s.HasMark p := by
  simp only [Clear, not_forall, Bool.not_eq_false] at h
  obtain ⟨x, hxlo, hxhi, hx⟩ := h
  exact ⟨x, by omega, hx⟩

/-- `e_unmarkpage` of a range whose first megabyte has a map. -/
theorem eUnmarkpage_outcome (r : GuestRange) (hs : s.Covered) (hnodes : s.NodesMarked)
    (htop : r.lastPage ≠ topPage) (hmap : s.mapped (r.addr / 1048576)) :
    Outcome (s.NextMapped r.addr (r.addr + r.len)) (UnmarksRange r s) (s.eUnmarkpage r) := by
  have hpages := r.firstPage_le
  have hfirst := r.firstPage_eq
  have hlast := r.lastPage_eq
  have hpos := r.pos
  have hfits := r.fits
  have htopEq : topPage = 0xfffff := rfl
  obtain ⟨m, hm⟩ := hmap
  have hstop : r.addr + r.len ≠ 2 ^ 32 := by omega
  have habeg : r.addr / hostPageSize * hostPageSize = r.firstPage * 4096 := rfl
  have haend : (r.addr + r.len + (hostPageSize - 1)) / hostPageSize * hostPageSize % 2 ^ 32 =
      (r.lastPage + 1) * 4096 := by
    rw [hostPageSize]
    omega
  have hlen : (2 ^ 64 + (r.lastPage + 1) * 4096 - (r.addr + r.len)) % 2 ^ 64 =
      (r.lastPage + 1) * 4096 - (r.addr + r.len) := by
    omega
  rw [eUnmarkpage, findM_eq, hm]
  dsimp only
  refine Outcome.assert_bind (fun _ => hstop) fun _ => ?_
  rw [shiftRight_mega, habeg, haend, hlen]
  refine (unmarkBytes_outcome ⟨m, hm⟩).bind fun u hu => ?_
  have hmapu : u.mapped (r.addr / 1048576) := (hu.mapped _).mpr ⟨m, hm⟩
  have hfirstMega : r.firstPage * 4096 / 1048576 = r.addr / 1048576 := by omega
  have hleft := edge_iff (s := u) (r.firstPage * 4096) r.addr (by omega) (by omega)
    (by omega) fun _ => hfirstMega ▸ hmapu
  have hright := edge_iff (s := u) (r.addr + r.len) ((r.lastPage + 1) * 4096)
    (by omega) (by omega) (by omega) fun hinside => by
      by_cases hsame : (r.addr + r.len) / 1048576 = r.addr / 1048576
      · rwa [hsame]
      · exact (hu.mapped _).mpr (hu.next _ (by omega) (by omega))
  obtain ⟨b, hbeq, hb⟩ : ∃ b, (if r.firstPage * 4096 ≠ r.addr ∧
      u.eQuerymark (r.firstPage * 4096) (r.addr - r.firstPage * 4096) = true then
        r.firstPage * 4096 + hostPageSize else r.firstPage * 4096) = b * 4096 ∧
      ((b = r.firstPage ∧ u.Clear (r.firstPage * 4096) r.addr) ∨
        (b = r.firstPage + 1 ∧ u.HasMark r.firstPage)) := by
    by_cases hclear : u.Clear (r.firstPage * 4096) r.addr
    · exact ⟨r.firstPage, if_neg fun h => hleft.mp h hclear, Or.inl ⟨rfl, hclear⟩⟩
    · refine ⟨r.firstPage + 1, ?_, Or.inr ⟨rfl, hasMark_of_not_clear hclear (by omega) (by omega)⟩⟩
      rw [if_pos (hleft.mpr hclear), hostPageSize]
      ring
  obtain ⟨e, heeq, he⟩ : ∃ e, (if (r.lastPage + 1) * 4096 ≠ r.addr + r.len ∧
      u.eQuerymark (r.addr + r.len) ((r.lastPage + 1) * 4096 - (r.addr + r.len)) = true then
        (2 ^ 32 + (r.lastPage + 1) * 4096 - hostPageSize) % 2 ^ 32
        else (r.lastPage + 1) * 4096) = e * 4096 ∧
      ((e = r.lastPage + 1 ∧ u.Clear (r.addr + r.len) ((r.lastPage + 1) * 4096)) ∨
        (e = r.lastPage ∧ u.HasMark r.lastPage)) := by
    rw [ne_comm] at hright
    by_cases hclear : u.Clear (r.addr + r.len) ((r.lastPage + 1) * 4096)
    · exact ⟨r.lastPage + 1, if_neg fun h => hright.mp h hclear, Or.inl ⟨rfl, hclear⟩⟩
    · refine ⟨r.lastPage, ?_, Or.inr ⟨rfl, hasMark_of_not_clear hclear (by omega) (by omega)⟩⟩
      rw [if_pos (hright.mpr hclear), hostPageSize]
      omega
  rw [hbeq, heeq]
  obtain ⟨t, ht, hmarked, hnode, hprot, hmapped, hkeeps, hclist, hhost⟩ :=
    giveBack r (hu.covered hs) (hu.nodesMarked hnodes) htop hu.clear hb he
  have hrun : (if b * 4096 < e * 4096 then u.eMunprotect (b * 4096) (e * 4096 - b * 4096)
      else pure u) = some t := ht
  rw [hrun]
  refine ⟨fun y => (hmarked y).trans (hu.marked y), fun y => (hnode y).trans (hu.node y),
    fun p => ?_, fun k hk => (hu.mapped k).mp (hmapped k hk),
    fun k hout hk => hkeeps k hout ((hu.mapped k).mpr hk), hclist.trans hu.clist, fun hsame => ?_⟩
  · rw [hprot, hu.prot]
  · refine hhost fun p => ?_
    rw [hu.writeProt, hu.prot]
    exact hsame p

/-! ## `e_fetch` -/

/-- The page can be taken into the cache, or is at hand. -/
def HasRoom (s : Marks) (p used : Nat) : Prop :=
  s.prot p = true ∨ Cached s.clist (p * 4096) ∨ s.clist.length + used < clistMax

theorem modifyEntry_length {cl cl' : List CacheEnt} {a : Nat} {f : CacheEnt → CacheEnt}
    (h : modifyEntry a f cl = some cl') : cl'.length = cl.length := by
  induction cl generalizing cl' with
  | nil => simp [modifyEntry] at h
  | cons c cl ih =>
      rw [modifyEntry] at h
      split at h
      · cases h
        rfl
      · obtain ⟨rest, hrest, rfl⟩ := Option.map_eq_some_iff.mp h
        simp [ih hrest]

/-- One page of `e_fetch`: only the cache changes, by one entry at most. -/
theorem fetchPage_spec (h : s.HasRoom p 0) :
    ∃ cl, s.fetchPage (p * 4096) = some { s with clist := cl } ∧ cl.length ≤ s.clist.length + 1 ∧
      ∀ q, q ≠ p → Cached s.clist (q * 4096) → Cached cl (q * 4096) := by
  unfold fetchPage
  cases hfind : findC s.clist (p * 4096) with
  | some cl =>
      refine ⟨cl, rfl, ?_, fun q hq hc => cached_of_modifyEntry hfind (by omega) hc⟩
      exact (modifyEntry_length hfind).le.trans (Nat.le_succ _)
  | none =>
      have hprot : s.eQuerymprot (p * 4096) = s.prot p := by
        rw [eQuerymprot_eq, Nat.mul_div_cancel _ (by decide)]
      dsimp only
      rw [hprot]
      rcases h with hyes | hcached | hroom
      · rw [if_pos hyes]
        exact ⟨s.clist, rfl, Nat.le_succ _, fun _ _ hc => hc⟩
      · obtain ⟨cl, hcl⟩ :=
          modifyEntry_of_cached (fun ce => { ce with aliveCnt := caliveCnt }) hcached
        rw [findC, hcl] at hfind
        cases hfind
      · by_cases hyes : s.prot p = true
        · rw [if_pos hyes]
          exact ⟨s.clist, rfl, Nat.le_succ _, fun _ _ hc => hc⟩
        · rw [Nat.add_zero] at hroom
          rw [if_neg hyes]
          simp only [newC, Option.bind_eq_bind, cAssert_bind hroom]
          refine ⟨_, rfl, by simp, fun q _ ⟨ce, hmem, hce⟩ => ⟨ce, ?_, hce⟩⟩
          exact List.mem_append_left _ hmem

/-- What `e_fetch` asks: at most two pages of one megabyte, and room in the cache
for those that are neither there nor protected. -/
structure CanFetch (s : Marks) (r : GuestRange) : Prop where
  short : r.len ≤ hostPageSize
  sameMega : r.firstPage / 256 = r.lastPage / 256
  first : s.HasRoom r.firstPage 0
  last : r.lastPage ≠ r.firstPage → s.HasRoom r.lastPage 1

theorem eFetch_spec {r : GuestRange} (h : s.CanFetch r) :
    ∃ cl, s.eFetch r = some { s with clist := cl } := by
  have hmega : (r.firstPage * hostPageSize) >>> 20 = (r.lastPage * hostPageSize) >>> 20 := by
    have hsame := h.sameMega
    rw [shiftRight_mega, shiftRight_mega, hostPageSize]
    omega
  obtain ⟨cl, hcl, hlen, hcached⟩ := fetchPage_spec h.first
  simp only [eFetch, Option.bind_eq_bind, cAssert_bind h.short, cAssert_bind hmega]
  rw [show r.firstPage * hostPageSize = r.firstPage * 4096 from rfl, hcl]
  simp only [Option.bind_some]
  by_cases hsame : r.firstPage * 4096 = r.lastPage * hostPageSize
  · exact ⟨cl, if_pos hsame⟩
  · have hne : r.lastPage ≠ r.firstPage := fun heq => hsame (by rw [heq]; rfl)
    have hroom : HasRoom { s with clist := cl } r.lastPage 0 := by
      rcases h.last hne with hyes | hyes | hyes
      · exact Or.inl hyes
      · exact Or.inr (Or.inl (hcached _ hne hyes))
      · refine Or.inr (Or.inr ?_)
        change cl.length + 0 < clistMax
        omega
    obtain ⟨cl', hcl', -⟩ := fetchPage_spec hroom
    rw [if_neg hsame]
    exact ⟨cl', hcl'⟩

end Marks

/-! ## Runs -/

/-- The maps, with the ranges that are marked. -/
structure Tracked where
  marks : Marks
  live : List GuestRange

/-- The marked ranges after a call. -/
def liveAfter (live : List GuestRange) : MarkCall → List GuestRange
  | .fetch _ => live
  | .mark r => r :: live
  | .unmark r => live.erase r

namespace Tracked

/-- One call. -/
def step (s : Tracked) (c : MarkCall) : Option Tracked :=
  (s.marks.step c).map fun m => ⟨m, liveAfter s.live c⟩

/-- Marked ranges have no marked byte before, and unmarked ranges are marked
ones. -/
def Protocol (s : Tracked) : MarkCall → Prop
  | .fetch _ => True
  | .mark r => s.marks.Clear r.addr (r.addr + r.len)
  | .unmark r => r ∈ s.live

/-- After a range that ends with its megabyte there is a map for the next one. -/
def NextMegaMapped (s : Tracked) (r : GuestRange) : Prop :=
  (r.addr + r.len) % 1048576 = 0 → s.marks.mapped ((r.addr + r.len) / 1048576)

/-- The condition under which a call of the protocol does its work. -/
def Ready (s : Tracked) : MarkCall → Prop
  | .fetch r => s.marks.CanFetch r
  | .mark r =>
      r.lastPage ≠ topPage ∧ s.marks.Fetched r.firstPage (r.lastPage + 1 - r.firstPage) ∧
        s.NextMegaMapped r
  | .unmark r => s.NextMegaMapped r

/-- The marks are those of the live ranges, the node bits are their first bytes, and
the pages with an entry, which are those the host protects, are the pages with
marks. -/
structure Right (s : Tracked) : Prop where
  marked : ∀ x, s.marks.marked x = true ↔ ∃ r ∈ s.live, r.addr ≤ x ∧ x < r.addr + r.len
  node : ∀ x, s.marks.eQuerynode x = true ↔ ∃ r ∈ s.live, x = r.addr
  prot : ∀ p, s.marks.eQuerymprot (p * hostPageSize) = true ↔ s.marks.HasMark p
  host : ∀ p, s.marks.writeProt p = s.marks.eQuerymprot (p * hostPageSize)

/-- Unmarking the range again gives back the marks, the node bits and the
protection there were. -/
def Restores (s t : Tracked) (r : GuestRange) : Prop :=
  ∃ u, t.marks.eUnmarkpage r = some u ∧ (∀ x, u.marked x = s.marks.marked x) ∧
    (∀ x, u.eQuerynode x = s.marks.eQuerynode x) ∧
    (∀ p, u.eQuerymprot (p * hostPageSize) = s.marks.eQuerymprot (p * hostPageSize)) ∧
    ∀ p, u.writeProt p = s.marks.writeProt p

/-- The call returns, everything is right afterwards, and marking can be undone. -/
def GoodStep (s : Tracked) (c : MarkCall) : Prop :=
  ∃ t, s.step c = some t ∧ t.Right ∧ ∀ r, c = .mark r → Restores s t r

/-- The invariant: everything is right, and the live ranges are disjoint and below
the last page. -/
structure Inv (s : Tracked) : Prop extends Right s where
  disjoint : s.live.Pairwise fun q r => q.addr + q.len ≤ r.addr ∨ r.addr + r.len ≤ q.addr
  below : ∀ r ∈ s.live, r.lastPage ≠ topPage

variable {s t : Tracked} {r : GuestRange}

theorem eQuerymprot_page (m : Marks) (p : Nat) :
    m.eQuerymprot (p * hostPageSize) = m.prot p := by
  rw [Marks.eQuerymprot_eq, hostPageSize, Nat.mul_div_cancel _ (by decide)]

theorem Inv.hostSame (h : s.Inv) : s.marks.HostSame := by
  intro p
  rw [h.host, eQuerymprot_page]

theorem Inv.prot_iff (h : s.Inv) (p : Nat) : s.marks.prot p = true ↔ s.marks.HasMark p := by
  rw [← eQuerymprot_page, h.prot]

theorem Inv.node_iff (h : s.Inv) (x : Nat) :
    s.marks.node x = true ↔ ∃ r ∈ s.live, x = r.addr := by
  rw [← Marks.eQuerynode_eq, h.node]

theorem Inv.nodesMarked (h : s.Inv) : s.marks.NodesMarked := by
  intro x hx
  obtain ⟨r, hr, rfl⟩ := (h.node_iff x).mp hx
  exact (h.marked _).mpr ⟨r, hr, le_rfl, by have := r.pos; omega⟩

theorem Inv.covered (h : s.Inv) : s.marks.Covered := by
  intro x hx
  have hmarked : s.marks.marked x = false := by
    by_contra hne
    rw [(h.prot_iff _).mpr ⟨x, rfl, by simpa using hne⟩] at hx
    cases hx
  refine ⟨hmarked, ?_⟩
  by_contra hne
  rw [h.nodesMarked x (by simpa using hne)] at hmarked
  cases hmarked

/-- The maps at the start. -/
def init : Tracked :=
  ⟨mprotInit, []⟩

theorem inv_init : init.Inv := by
  have hlook : ∀ k g, mprotInit.look k g = false := by
    intro k g
    rw [Marks.look, show mprotInit.mapAt k = none from rfl]
    rfl
  have hmarked : ∀ x, mprotInit.marked x = false := by
    intro x
    rw [Marks.marked_eq_look, hlook]
  have hprot : ∀ p, mprotInit.prot p = false := fun p => hlook _ _
  refine ⟨⟨fun x => ?_, fun x => ?_, fun p => ?_, fun p => ?_⟩, List.Pairwise.nil, ?_⟩
  · exact iff_of_false (by simp [init, hmarked]) (by simp [init])
  · refine iff_of_false ?_ (by simp [init])
    rw [Marks.eQuerynode_eq, Marks.node, init, hlook]
    simp
  · refine iff_of_false ?_ ?_
    · rw [eQuerymprot_page, init, hprot]
      simp
    · rintro ⟨x, -, hx⟩
      rw [init, hmarked] at hx
      cases hx
  · rw [eQuerymprot_page, init, hprot]
    rfl
  · simp [init]

/-- The cache does not matter for what is right. -/
theorem Inv.fetched (h : s.Inv) (cl : List CacheEnt) :
    Inv ⟨{ s.marks with clist := cl }, s.live⟩ :=
  ⟨⟨h.marked, h.node, h.prot, h.host⟩, h.disjoint, h.below⟩

theorem Inv.clear_of_disjoint (h : s.Inv) (hclear : s.marks.Clear r.addr (r.addr + r.len)) :
    ∀ q ∈ s.live, r.addr + r.len ≤ q.addr ∨ q.addr + q.len ≤ r.addr := by
  intro q hq
  by_contra hmeet
  have hr := r.pos
  have hqpos := q.pos
  -- the later of the two first bytes is in both ranges
  have hboth : s.marks.marked (max r.addr q.addr) = true :=
    (h.marked _).mpr ⟨q, hq, le_max_right _ _, by omega⟩
  rw [hclear _ (le_max_left _ _) (by omega)] at hboth
  cases hboth

theorem Inv.marked_range (h : s.Inv) (hclear : s.marks.Clear r.addr (r.addr + r.len)) {m : Marks}
    (hm : Marks.MarksRange r s.marks m) : Inv ⟨m, r :: s.live⟩ := by
  have hdisj := h.clear_of_disjoint hclear
  have hpos := r.pos
  have hmarked : ∀ x, m.marked x = true ↔
      (r.addr ≤ x ∧ x < r.addr + r.len) ∨ s.marks.marked x = true := by
    intro x
    rw [hm.marked, Bool.or_eq_true, decide_eq_true_eq, or_comm]
  have hprot : ∀ p, m.prot p = true ↔ m.HasMark p := by
    intro p
    rw [hm.prot, Bool.or_eq_true, decide_eq_true_eq, h.prot_iff]
    constructor
    · rintro (⟨x, hx, hmark⟩ | ⟨hlo, hhi⟩)
      · exact ⟨x, hx, (hmarked x).mpr (Or.inr hmark)⟩
      · -- the first byte of the range in the page
        rw [r.firstPage_eq] at hlo
        rw [r.lastPage_eq] at hhi
        refine ⟨max r.addr (p * 4096), by omega, (hmarked _).mpr (Or.inl ⟨le_max_left _ _, ?_⟩)⟩
        omega
    · rintro ⟨x, hx, hmark⟩
      rcases (hmarked x).mp hmark with ⟨hlo, hhi⟩ | hold
      · right
        rw [r.firstPage_eq, r.lastPage_eq]
        omega
      · exact Or.inl ⟨x, hx, hold⟩
  refine ⟨⟨fun x => ?_, fun x => ?_, fun p => ?_, fun p => ?_⟩, ?_, ?_⟩
  · rw [hmarked, h.marked]
    simp
  · rw [Marks.eQuerynode_eq, hm.node, Bool.or_eq_true, decide_eq_true_eq, h.node_iff, or_comm]
    simp
  · rw [eQuerymprot_page, hprot]
  · rw [eQuerymprot_page]
    exact hm.host h.hostSame p
  · refine List.pairwise_cons.mpr ⟨fun q hq => ?_, h.disjoint⟩
    exact hdisj q hq
  · intro q hq
    rcases List.mem_cons.mp hq with rfl | hq
    · exact hm.below
    · exact h.below q hq

/-- Unmarking a range that was just marked. -/
theorem Inv.restores (h : s.Inv) (hclear : s.marks.Clear r.addr (r.addr + r.len)) {m : Marks}
    (hm : Marks.MarksRange r s.marks m) : Restores s ⟨m, r :: s.live⟩ r := by
  have hinv := h.marked_range hclear hm
  have hpos := r.pos
  have hmap : m.mapped (r.addr / 1048576) := by
    apply Marks.mapped_of_marked
    rw [hm.marked]
    simp [hpos]
  obtain ⟨u, hu, hspec⟩ := (Marks.eUnmarkpage_outcome r hinv.covered hinv.nodesMarked hm.below
    hmap).isSome hm.next
  have hmarked : ∀ x, u.marked x = s.marks.marked x := by
    intro x
    rw [hspec.marked, hm.marked]
    by_cases hx : r.addr ≤ x ∧ x < r.addr + r.len
    · simp [hx, hclear x hx.1 hx.2]
    · simp only [hx, decide_false, Bool.or_false, Bool.not_false, Bool.and_true]
  have hnode : ∀ x, u.node x = s.marks.node x := by
    intro x
    rw [hspec.node, hm.node]
    by_cases hx : r.addr ≤ x ∧ x < r.addr + r.len
    · have hnone : s.marks.node x = false := by
        by_contra hne
        have hmark := h.nodesMarked x (by simpa using hne)
        rw [hclear x hx.1 hx.2] at hmark
        cases hmark
      simp [hx, hnone]
    · have hne : x ≠ r.addr := by omega
      simp only [hx, hne, decide_false, Bool.or_false, Bool.not_false, Bool.and_true]
  have hmark : ∀ p, u.HasMark p ↔ s.marks.HasMark p := by
    intro p
    simp only [Marks.HasMark, hmarked]
  have hprot : ∀ p, u.prot p = s.marks.prot p := by
    intro p
    rw [Bool.eq_iff_iff, hspec.prot, hm.prot, hmark, ← h.prot_iff, Bool.or_eq_true,
      decide_eq_true_eq]
    constructor
    · rintro ⟨hyes | hin, hlo | hhi | hold⟩ <;> first | assumption | omega
    · exact fun hyes => ⟨Or.inl hyes, Or.inr (Or.inr hyes)⟩
  refine ⟨u, hu, hmarked, fun x => ?_, fun p => ?_, fun p => ?_⟩
  · rw [Marks.eQuerynode_eq, Marks.eQuerynode_eq, hnode]
  · rw [eQuerymprot_page, eQuerymprot_page, hprot]
  · rw [hspec.host (hm.host h.hostSame) p, hprot, h.hostSame p]

/-- The live ranges but one. -/
theorem Inv.erase (h : s.Inv) (hr : r ∈ s.live) :
    (s.live.erase r).Pairwise (fun q r => q.addr + q.len ≤ r.addr ∨ r.addr + r.len ≤ q.addr) ∧
      ∀ q ∈ s.live.erase r, r.addr + r.len ≤ q.addr ∨ q.addr + q.len ≤ r.addr := by
  have hperm := List.perm_cons_erase hr
  have hall := (hperm.pairwise_iff fun {q r} hqr => Or.symm hqr).mp h.disjoint
  obtain ⟨hfirst, hrest⟩ := List.pairwise_cons.mp hall
  exact ⟨hrest, fun q hq => hfirst q hq⟩

theorem Inv.unmarked_range (h : s.Inv) (hr : r ∈ s.live) {m : Marks}
    (hm : Marks.UnmarksRange r s.marks m) : Inv ⟨m, s.live.erase r⟩ := by
  obtain ⟨hpair, hdisj⟩ := h.erase hr
  have hperm := List.perm_cons_erase hr
  have hmem : ∀ q, q ∈ s.live ↔ q = r ∨ q ∈ s.live.erase r := by
    intro q
    rw [hperm.mem_iff, List.mem_cons]
  have hpos := r.pos
  refine ⟨⟨fun x => ?_, fun x => ?_, fun p => ?_, fun p => ?_⟩, hpair, fun q hq => ?_⟩
  · rw [hm.marked, Bool.and_eq_true, h.marked]
    simp only [Bool.not_eq_true', decide_eq_false_iff_not]
    constructor
    · rintro ⟨⟨q, hq, hx⟩, hout⟩
      rcases (hmem q).mp hq with rfl | hq
      · exact absurd hx hout
      · exact ⟨q, hq, hx⟩
    · rintro ⟨q, hq, hx⟩
      have hsep := hdisj q hq
      exact ⟨⟨q, (hmem q).mpr (Or.inr hq), hx⟩, by omega⟩
  · rw [Marks.eQuerynode_eq, hm.node, Bool.and_eq_true, h.node_iff]
    simp only [Bool.not_eq_true', decide_eq_false_iff_not]
    constructor
    · rintro ⟨⟨q, hq, rfl⟩, hout⟩
      rcases (hmem q).mp hq with rfl | hq
      · exact absurd ⟨le_rfl, by omega⟩ hout
      · exact ⟨q, hq, rfl⟩
    · rintro ⟨q, hq, rfl⟩
      have hsep := hdisj q hq
      have hqpos := q.pos
      exact ⟨⟨q, (hmem q).mpr (Or.inr hq), rfl⟩, by omega⟩
  · rw [eQuerymprot_page, hm.prot, h.prot_iff]
    constructor
    · rintro ⟨⟨x, hx, hmark⟩, hkeep⟩
      by_cases hmarked : m.HasMark p
      · exact hmarked
      · -- a page beside the range keeps its marks
        have hout : ¬(r.addr ≤ x ∧ x < r.addr + r.len) := by
          rw [r.firstPage_eq, r.lastPage_eq] at hkeep
          rcases hkeep with hlo | hhi | hyes
          · omega
          · omega
          · exact absurd hyes hmarked
        refine ⟨x, hx, ?_⟩
        rw [hm.marked, hmark]
        simp [hout]
    · rintro ⟨x, hx, hmark⟩
      have hold := hmark
      rw [hm.marked, Bool.and_eq_true] at hold
      exact ⟨⟨x, hx, hold.1⟩, Or.inr (Or.inr ⟨x, hx, hmark⟩)⟩
  · rw [eQuerymprot_page]
    exact hm.host h.hostSame p
  · exact h.below q ((hmem q).mpr (Or.inr hq))

theorem Inv.nextMapped (h : s.Inv) (hr : r ∈ s.live) (hnext : s.NextMegaMapped r) :
    s.marks.NextMapped r.addr (r.addr + r.len) := by
  intro k hlo hhi
  by_cases hend : k * 1048576 = r.addr + r.len
  · have hk : k = (r.addr + r.len) / 1048576 := by omega
    exact hk ▸ hnext (by omega)
  · have hmark := (h.marked (k * 1048576)).mpr ⟨r, hr, hlo.le, by omega⟩
    have hmap := Marks.mapped_of_marked hmark
    rwa [Nat.mul_div_cancel k (by decide)] at hmap

/-- A call of the protocol does its work, where the maps are ready for it. -/
theorem Inv.good (h : s.Inv) {c : MarkCall} (hproto : s.Protocol c) (hready : s.Ready c) :
    ∃ t, s.step c = some t ∧ t.Inv ∧ ∀ r, c = .mark r → Restores s t r := by
  cases c with
  | fetch r =>
      obtain ⟨cl, hcl⟩ := Marks.eFetch_spec hready
      refine ⟨_, by rw [step, Marks.step, hcl]; rfl, h.fetched cl, ?_⟩
      rintro q ⟨⟩
  | mark r =>
      obtain ⟨hbelow, hfetched, hnext⟩ := hready
      obtain ⟨m, hm, hspec⟩ := (Marks.eMarkpage_outcome s.marks r).isSome
        ⟨hbelow, hfetched, hproto, hnext⟩
      refine ⟨_, by rw [step, Marks.step, hm]; rfl, h.marked_range hproto hspec, ?_⟩
      rintro q ⟨⟩
      exact h.restores hproto hspec
  | unmark r =>
      have hpos := r.pos
      have hmark := (h.marked r.addr).mpr ⟨r, hproto, le_rfl, by omega⟩
      obtain ⟨m, hm, hspec⟩ := (Marks.eUnmarkpage_outcome r h.covered h.nodesMarked
        (h.below r hproto) (Marks.mapped_of_marked hmark)).isSome (h.nextMapped hproto hready)
      refine ⟨_, by rw [step, Marks.step, hm]; rfl, h.unmarked_range hproto hspec, ?_⟩
      rintro q ⟨⟩

/-- Along a run of the protocol no assertion fails, the marks and the node bits are
those of the live ranges, the protected pages are those with marks, and marking can
be undone, as long as the maps are ready for each call. -/
theorem marks_protected (calls : List MarkCall) (hproto : Admits step Protocol init calls)
    (hready : Admits step Ready init calls) : Admits step GoodStep init calls := by
  have hrun : ∀ s : Tracked, s.Inv → Admits step Protocol s calls → Admits step Ready s calls →
      Admits step GoodStep s calls := by
    clear hproto hready
    induction calls with
    | nil => exact fun _ _ _ _ => trivial
    | cons c calls ih =>
        intro s h hproto hready
        obtain ⟨t, ht, hinv, hrestores⟩ := h.good hproto.1 hready.1
        refine ⟨⟨t, ht, hinv.toRight, hrestores⟩, fun u hu => ?_⟩
        rw [ht, Option.some.injEq] at hu
        subst hu
        exact ih t hinv (hproto.2 t ht) (hready.2 t ht)
  exact hrun init inv_init hproto hready

/-- Sixteen bytes of code in the second page and the third. -/
def codeInPage : GuestRange where
  addr := 0x1ff8
  len := 16
  pos := by decide
  fits := by decide

/-- The code is fetched, marked and unmarked. -/
def codeCalls : List MarkCall :=
  [.fetch codeInPage, .mark codeInPage, .unmark codeInPage]

theorem marks_protected_codeInPage :
    Admits step Protocol init codeCalls ∧ Admits step Ready init codeCalls ∧
      Admits step GoodStep init codeCalls := by
  have hfetch : init.step (.fetch codeInPage) =
      some ⟨{ mprotInit with clist := [⟨0x1000, 10, true⟩, ⟨0x2000, 10, true⟩] }, []⟩ := rfl
  have hproto : Admits step Protocol init codeCalls := by
    refine ⟨trivial, fun t ht => ⟨?_, fun u hu => ⟨?_, fun _ _ => trivial⟩⟩⟩
    · rw [hfetch, Option.some.injEq] at ht
      subst ht
      intro x _ _
      rfl
    · rw [hfetch, Option.some.injEq] at ht
      subst ht
      obtain ⟨m, -, rfl⟩ := Option.map_eq_some_iff.mp hu
      exact List.mem_singleton.mpr rfl
  have hready : Admits step Ready init codeCalls := by
    refine ⟨⟨by decide, by decide, .inr (.inr (by decide)), fun _ => .inr (.inr (by decide))⟩,
      fun t ht => ⟨?_, fun _ _ => ⟨fun hend => absurd hend (by decide), fun _ _ => trivial⟩⟩⟩
    rw [hfetch, Option.some.injEq] at ht
    subst ht
    refine ⟨by decide, fun p hlo hhi => Or.inr ?_, fun hend => ?_⟩
    · have hp : p = 1 ∨ p = 2 := by
        change 1 ≤ p at hlo
        change p < 3 at hhi
        omega
      rcases hp with rfl | rfl
      · exact ⟨_, List.mem_cons_self, rfl⟩
      · exact ⟨_, List.mem_cons_of_mem _ List.mem_cons_self, rfl⟩
    · exact absurd hend (by decide)
  exact ⟨hproto, hready, marks_protected _ hproto hready⟩

/-- The last sixteen bytes of a megabyte. -/
def lastOfMega : GuestRange where
  addr := 0xffff0
  len := 16
  pos := by decide
  fits := by decide

/-- Marking the end of a megabyte fails an assertion when the next megabyte has no
map. -/
theorem mark_end_of_mega_aborts :
    Admits step Protocol init [.fetch lastOfMega, .mark lastOfMega] ∧
      ¬Admits step GoodStep init [.fetch lastOfMega, .mark lastOfMega] := by
  have hfetch : init.step (.fetch lastOfMega) =
      some ⟨{ mprotInit with clist := [⟨0xff000, 10, true⟩] }, []⟩ := rfl
  constructor
  · refine ⟨trivial, fun t ht => ⟨?_, fun _ _ => trivial⟩⟩
    rw [hfetch, Option.some.injEq] at ht
    subst ht
    intro x _ _
    rfl
  · rintro ⟨-, hall⟩
    obtain ⟨⟨t, ht, -⟩, -⟩ := hall _ hfetch
    have heval : ((Tracked.step ⟨{ mprotInit with clist := [⟨0xff000, 10, true⟩] }, []⟩
        (.mark lastOfMega)).map fun _ => ()) = none := by
      decide +kernel
    rw [ht] at heval
    cases heval

end Tracked

end Simx86
end Dosemu
