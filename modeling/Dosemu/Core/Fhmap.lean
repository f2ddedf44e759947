import Dosemu.Lib.HeadedList
import Dosemu.Lib.Run

/-!
# The fixed-size hash map

A `fhmap` links its nodes into the buckets that the hash of their keys names.  A new
node goes to the front of its bucket, and so does a node that is looked up.

Main results:

- Theorem `hashFn_lt`: the hash names a bucket of the map.
- Theorems `Holds.find`, `Holds.add` and `Holds.del`: what one call does.
- Theorem `fhmap_run`: over all runs, a lookup finds the newest node with its key, and
  the buckets together hold each live node once.
-/

namespace Dosemu
namespace Core
namespace Fhmap

open HeadedList

/-! ## The hash -/

/-- A map with its `FH_PREHASH`.  The size is an `int`; `zone` is `p2min` where the hash is
zoned. -/
structure Shape (K : Type) where
  prehash : K → BitVec 32
  p2size : Nat
  zone : Option Nat
  isInt : p2size < 31
  zone_le : ∀ p2min ∈ zone, p2min ≤ p2size

/-- `__builtin_popcount` -/
def popcount (n : Nat) : Nat :=
  (List.range 32).countP fun i => n.testBit i

/-- `fh_get_z`, with the scale. -/
def getZ (p2size p2min key : Nat) : Nat × Nat :=
  let scaleS := p2size - p2min
  let scale := 1 <<< scaleS
  if scaleS = 0 then (0, scale)
  else
    let offs := popcount (key >>> p2min)
    let scaleM := scale - 1
    (((offs &&& scaleM) + (offs >>> scaleS)) &&& scaleM, scale)

variable {N K : Type}

/-- `default_fmhash_fn` -/
def Shape.hashFn (fhm : Shape K) (key : BitVec 32) : Nat :=
  match fhm.zone with
  | none => key.toNat &&& ((1 <<< fhm.p2size) - 1)
  | some p2min =>
      let mask := (1 <<< p2min) - 1
      let (z, scale) := getZ fhm.p2size p2min key.toNat
      ((key.toNat &&& mask) * scale + z) % 2 ^ 32

theorem and_mask (n k : Nat) : n &&& ((1 <<< k) - 1) = n % 2 ^ k := by
  rw [Nat.one_shiftLeft, Nat.and_two_pow_sub_one_eq_mod]

theorem getZ_lt (p2size p2min key : Nat) : (getZ p2size p2min key).1 < 2 ^ (p2size - p2min) := by
  rw [getZ]
  split
  · exact Nat.two_pow_pos _
  · dsimp only
    rw [and_mask]
    exact Nat.mod_lt _ (Nat.two_pow_pos _)

theorem getZ_scale (p2size p2min key : Nat) :
    (getZ p2size p2min key).2 = 2 ^ (p2size - p2min) := by
  rw [getZ]
  split
  · exact Nat.one_shiftLeft _
  · exact Nat.one_shiftLeft _

/-- The hash names a bucket of the map. -/
theorem hashFn_lt (fhm : Shape K) (key : BitVec 32) : fhm.hashFn key < 2 ^ fhm.p2size := by
  rw [Shape.hashFn]
  split
  · rw [and_mask]
    exact Nat.mod_lt _ (Nat.two_pow_pos _)
  · next p2min hzone =>
      have hle := fhm.zone_le p2min hzone
      have hz := getZ_lt fhm.p2size p2min key.toNat
      have hmod : key.toNat % 2 ^ p2min < 2 ^ p2min := Nat.mod_lt _ (Nat.two_pow_pos _)
      have hpow : 2 ^ p2min * 2 ^ (fhm.p2size - p2min) = 2 ^ fhm.p2size := by
        rw [← pow_add, Nat.add_sub_cancel' hle]
      dsimp only
      rw [and_mask, getZ_scale]
      calc (key.toNat % 2 ^ p2min * 2 ^ (fhm.p2size - p2min) +
              (getZ fhm.p2size p2min key.toNat).1) % 2 ^ 32
          ≤ key.toNat % 2 ^ p2min * 2 ^ (fhm.p2size - p2min) +
              (getZ fhm.p2size p2min key.toNat).1 := Nat.mod_le _ _
        _ < key.toNat % 2 ^ p2min * 2 ^ (fhm.p2size - p2min) + 2 ^ (fhm.p2size - p2min) :=
            Nat.add_lt_add_left hz _
        _ = (key.toNat % 2 ^ p2min + 1) * 2 ^ (fhm.p2size - p2min) := (Nat.succ_mul _ _).symm
        _ ≤ 2 ^ p2min * 2 ^ (fhm.p2size - p2min) := Nat.mul_le_mul_right _ hmod
        _ = 2 ^ fhm.p2size := hpow

/-! ## The map -/

/-- The links of the nodes and the buckets, and the key that is stored in each node. -/
structure State (N K : Type) where
  links : Links Nat N
  key : N → K

variable [DecidableEq K] (fhm : Shape K)

/-- `fh_find_b` -/
def findB (key : K) : Nat :=
  fhm.hashFn (fhm.prehash key)

namespace State

variable [DecidableEq N]

/-- `fh_find_pos`, with fuel for its loop; `FH_KEQUAL` is the equality of the keys. -/
def fhFindPos (fuel : Nat) (s : State N K) (key : K) : Option (Option N × State N K) :=
  let b := findB fhm key
  (s.links.findFrom (fun pos => s.key pos = key) fuel (s.links.next (.head b))).map fun
    | none => (none, s)
    | some pos =>
        if some pos ≠ s.links.next (.head b) then
          (some pos, { s with links := (s.links.unlink pos).pushFront pos b })
        else (some pos, s)

/-- `fh_add` -/
def fhAdd (s : State N K) (value : N) : State N K :=
  { s with links := s.links.pushFront value (findB fhm (s.key value)) }

/-- `fh_del` -/
def fhDel (s : State N K) (value : N) : State N K :=
  { s with links := s.links.unlink value }

/-- `fh_del_by_key` -/
def fhDelByKey (fuel : Nat) (s : State N K) (key : K) : Option (State N K) :=
  (s.fhFindPos fhm fuel key).bind fun
    | (none, _) => none
    | (some pos, s) => some (s.fhDel pos)

/-- The loop over the buckets in `fh_for_each_safe`, with the nodes that `c` is called on. -/
def eachBucket (c : Links Nat N → N → Links Nat N) (fuel : Nat) :
    List Nat → Links Nat N → Option (List N × Links Nat N)
  | [], l => some ([], l)
  | i :: is, l =>
      (Links.eachFrom c fuel l (l.next (.head i))).bind fun (ns, l') =>
        (eachBucket c fuel is l').map fun (ms, l'') => (ns ++ ms, l'')

/-- `fh_for_each_safe` -/
def fhForEachSafe (c : Links Nat N → N → Links Nat N) (fuel : Nat) (s : State N K) :
    Option (List N × Links Nat N) :=
  eachBucket c fuel (List.range (1 <<< fhm.p2size)) s.links

end State

/-- The calls; a node gets its key before it is added. -/
inductive Op (N K : Type) where
  | add (value : N) (key : K)
  | find (key : K)
  | del (value : N)
  | delByKey (key : K)

def step [DecidableEq N] (fuel : Nat) (s : State N K) : Op N K → Option (State N K)
  | .add value key => some (State.fhAdd fhm { s with key := Function.update s.key value key } value)
  | .find key => (s.fhFindPos fhm fuel key).map Prod.snd
  | .del value => some (s.fhDel value)
  | .delByKey key => s.fhDelByKey fhm fuel key

/-! ## The live nodes -/

/-- The live nodes with their keys, the newest first. -/
abbrev Live (N K : Type) := List (N × K)

namespace Live

/-- A node is not added twice, and only live nodes are deleted. -/
def Legal (live : Live N K) : Op N K → Prop
  | .add value _ => value ∉ live.map Prod.fst
  | .find _ => True
  | .del value => value ∈ live.map Prod.fst
  | .delByKey key => key ∈ live.map Prod.snd

/-- The newest node with a key. -/
def newest (live : Live N K) (key : K) : Option N :=
  (live.find? (·.2 = key)).map Prod.fst

/-- The nodes with a key, the newest first. -/
def nodes (live : Live N K) (key : K) : List N :=
  (live.filter (·.2 = key)).map Prod.fst

variable {live : Live N K} {key : K} {n : N}

theorem newest_eq_head? : live.newest key = (live.nodes key).head? := by
  rw [newest, nodes, List.head?_map, List.head?_filter]

theorem newest_isSome (h : key ∈ live.map Prod.snd) : (live.newest key).isSome := by
  obtain ⟨e, he, hkey⟩ := List.mem_map.mp h
  rw [newest, Option.isSome_map, List.find?_isSome]
  exact ⟨e, he, by simpa using hkey⟩

theorem nodes_cons (value : N) (key' : K) :
    nodes ((value, key') :: live) key =
      if key' = key then value :: live.nodes key else live.nodes key := by
  rw [nodes, List.filter_cons]
  by_cases h : key' = key
  · rw [if_pos h, if_pos (by simpa using h), List.map_cons, nodes]
  · rw [if_neg h, if_neg (by simpa using h), nodes]

variable [DecidableEq N]

def erase (live : Live N K) (value : N) : Live N K :=
  live.filter (·.1 ≠ value)

def after (live : Live N K) : Op N K → Live N K
  | .add value key => (value, key) :: live
  | .find _ => live
  | .del value => live.erase value
  | .delByKey key =>
      match live.newest key with
      | none => live
      | some value => live.erase value

/-- A run of calls, each legal where it is made. -/
def LegalRun : Live N K → List (Op N K) → Prop
  | _, [] => True
  | live, op :: ops => live.Legal op ∧ LegalRun (live.after op) ops

theorem length_after_le (op : Op N K) : (live.after op).length ≤ live.length + 1 := by
  cases op with
  | add value key => exact le_rfl
  | find key => exact Nat.le_succ _
  | del value => exact (List.length_filter_le _ _).trans (Nat.le_succ _)
  | delByKey key =>
      rw [after]
      split
      · exact Nat.le_succ _
      · exact (List.length_filter_le _ _).trans (Nat.le_succ _)

theorem nodes_erase : (live.erase n).nodes key = (live.nodes key).filter (· ≠ n) := by
  rw [nodes, erase, nodes, List.filter_map, List.filter_filter, List.filter_filter]
  congr 1
  apply List.filter_congr
  intro e _
  exact Bool.and_comm _ _

end Live

/-! ## What the buckets hold -/

variable {fhm} {s : State N K} {lists : Nat → List N} {live : Live N K} {key : K} {n : N}

/-- The buckets hold the live nodes, nodes with one key in the order in which they came. -/
structure Holds (fhm : Shape K) (s : State N K) (lists : Nat → List N) (live : Live N K) : Prop where
  links : Lists s.links lists
  bucket : ∀ i, ∀ n ∈ lists i, findB fhm (s.key n) = i
  order : ∀ key, (lists (findB fhm key)).filter (s.key · = key) = live.nodes key
  keys : ∀ e ∈ live, s.key e.1 = e.2
  nodup : (live.map Prod.fst).Nodup

namespace Holds

theorem mem_live_iff (h : Holds fhm s lists live) :
    n ∈ live.map Prod.fst ↔ n ∈ live.nodes (s.key n) := by
  constructor
  · intro hn
    obtain ⟨e, he, rfl⟩ := List.mem_map.mp hn
    refine List.mem_map.mpr ⟨e, List.mem_filter.mpr ⟨he, ?_⟩, rfl⟩
    simpa using (h.keys e he).symm
  · intro hn
    obtain ⟨e, he, heq⟩ := List.mem_map.mp hn
    exact List.mem_map.mpr ⟨e, List.mem_of_mem_filter he, heq⟩

/-- A node is in a bucket if it is live and the bucket is that of its key. -/
theorem mem_lists_iff (h : Holds fhm s lists live) {i : Nat} :
    n ∈ lists i ↔ n ∈ live.map Prod.fst ∧ findB fhm (s.key n) = i := by
  have hfilter : n ∈ live.nodes (s.key n) ↔ n ∈ lists (findB fhm (s.key n)) := by
    rw [← h.order, List.mem_filter]
    simp
  rw [h.mem_live_iff, hfilter]
  constructor
  · intro hn
    have hbucket := h.bucket i n hn
    rw [hbucket]
    exact ⟨hn, rfl⟩
  · rintro ⟨hn, rfl⟩
    exact hn

theorem length_le (h : Holds fhm s lists live) (i : Nat) : (lists i).length ≤ live.length := by
  have hsub : lists i ⊆ live.map Prod.fst := fun n hn => (h.mem_lists_iff.mp hn).1
  have hle := ((h.links.spells i).nodup.subperm hsub).length_le
  rwa [List.length_map] at hle

variable [DecidableEq N]

/-- A new node goes to the front of its bucket. -/
theorem add (h : Holds fhm s lists live) (hn : n ∉ live.map Prod.fst) (key : K) :
    ∃ lists', Holds fhm (State.fhAdd fhm { s with key := Function.update s.key n key } n) lists'
      ((n, key) :: live) := by
  have hfree : ∀ i, n ∉ lists i := fun i hmem => hn (h.mem_lists_iff.mp hmem).1
  have hother : ∀ i, ∀ m ∈ lists i, Function.update s.key n key m = s.key m :=
    by
      intro i m hm
      have hne : m ≠ n := fun heq => hfree i (heq ▸ hm)
      exact Function.update_of_ne hne _ _
  have hself : Function.update s.key n key n = key := Function.update_self _ _ _
  refine ⟨Function.update lists (findB fhm key) (n :: lists (findB fhm key)), ?_, ?_, ?_, ?_, ?_⟩
  · rw [State.fhAdd]
    dsimp only
    rw [hself]
    exact h.links.pushFront hfree _
  · intro i m hm
    change findB fhm (Function.update s.key n key m) = i
    by_cases heq : i = findB fhm key
    · rw [heq, Function.update_self] at hm
      rcases List.mem_cons.mp hm with hmn | hm
      · rw [hmn, hself, heq]
      · rw [hother _ m hm, h.bucket _ m hm, heq]
    · rw [Function.update_of_ne heq] at hm
      rw [hother _ m hm, h.bucket _ m hm]
  · intro key'
    change (Function.update lists _ _ _).filter (Function.update s.key n key · = key') = _
    have hfilter : ∀ i, (lists i).filter (Function.update s.key n key · = key') =
        (lists i).filter (s.key · = key') := by
      intro i
      apply List.filter_congr
      intro m hm
      rw [hother i m hm]
    rw [Live.nodes_cons, ← h.order key']
    by_cases heq : findB fhm key' = findB fhm key
    · rw [heq, Function.update_self, List.filter_cons, hself, hfilter]
      by_cases hkey : key = key'
      · rw [if_pos (by simpa using hkey), if_pos hkey]
      · rw [if_neg (by simpa using hkey), if_neg hkey]
    · have hkey : key ≠ key' := fun hkey => heq (congrArg (findB fhm) hkey.symm)
      rw [Function.update_of_ne heq, hfilter, if_neg hkey]
  · intro e he
    change Function.update s.key n key e.1 = e.2
    rcases List.mem_cons.mp he with heq | he
    · rw [heq, hself]
    · have hne : e.1 ≠ n := fun heq => hn (List.mem_map.mpr ⟨e, he, heq⟩)
      rw [Function.update_of_ne hne]
      exact h.keys e he
  · rw [List.map_cons]
    exact List.nodup_cons.mpr ⟨hn, h.nodup⟩

/-- A live node leaves its bucket. -/
theorem del (h : Holds fhm s lists live) (hn : n ∈ live.map Prod.fst) :
    ∃ lists', Holds fhm (s.fhDel n) lists' (live.erase n) := by
  have hmem := h.mem_lists_iff.mpr ⟨hn, rfl⟩
  have hnodup := (h.links.spells (findB fhm (s.key n))).nodup
  refine ⟨_, h.links.unlink hmem, ?_, ?_, ?_, ?_⟩
  · intro i m hm
    by_cases heq : i = findB fhm (s.key n)
    · rw [heq, Function.update_self] at hm
      rw [heq]
      exact h.bucket _ m (List.mem_of_mem_erase hm)
    · rw [Function.update_of_ne heq] at hm
      exact h.bucket i m hm
  · intro key
    change (Function.update lists _ _ _).filter (s.key · = key) = _
    rw [Live.nodes_erase, ← h.order key, List.filter_filter]
    by_cases heq : findB fhm key = findB fhm (s.key n)
    · rw [heq, Function.update_self, hnodup.erase_eq_filter, List.filter_filter]
      apply List.filter_congr
      intro m _
      rw [Bool.and_comm]
      by_cases hmn : m = n <;> simp [hmn]
    · rw [Function.update_of_ne heq]
      apply List.filter_congr
      intro m hm
      have hne : m ≠ n := by
        intro hmn
        exact heq (((h.bucket _ m hm).symm.trans (by rw [hmn])))
      simp [hne]
  · exact fun e he => h.keys e (List.mem_of_mem_filter he)
  · exact h.nodup.sublist (List.filter_sublist.map _)

/-- Moving a node to the front changes no selection of nodes in which it comes first already, or
does not occur. -/
theorem filter_moved {l : List N} {q : N → Bool} {pos : N} (hq : q pos → l.find? q = some pos) :
    (pos :: l.erase pos).filter q = l.filter q := by
  induction l with
  | nil =>
      have hpos : q pos = false := Bool.eq_false_of_not_eq_true fun hpos => absurd (hq hpos) nofun
      rw [List.erase_nil, List.filter_cons, hpos]
      rfl
  | cons x l ih =>
      by_cases hx : x = pos
      · rw [hx, List.erase_cons_head]
      · have herase : (x :: l).erase pos = x :: l.erase pos := List.erase_cons_tail (by simpa using hx)
        rw [List.find?_cons] at hq
        rw [herase, List.filter_cons, List.filter_cons, @List.filter_cons _ x]
        cases hqx : q x with
        | true =>
            have hpos : q pos = false := by
              apply Bool.eq_false_of_not_eq_true
              intro hpos
              have hfirst := hq hpos
              rw [hqx] at hfirst
              exact hx (Option.some.inj hfirst)
            have hrest := ih fun h => absurd h (by rw [hpos]; exact Bool.false_ne_true)
            rw [List.filter_cons, hpos] at hrest
            rw [hpos]
            exact congrArg (x :: ·) hrest
        | false =>
            rw [hqx] at hq
            have hrest := ih hq
            rw [List.filter_cons] at hrest
            exact hrest

/-- The buckets in another order, which keeps that of the nodes with one key. -/
def Same (s : State N K) (lists lists' : Nat → List N) : Prop :=
  ∀ i, (lists' i).Perm (lists i) ∧
    ∀ key, (lists' i).filter (s.key · = key) = (lists i).filter (s.key · = key)

omit [DecidableEq N] in
theorem same_refl : Same s lists lists :=
  fun _ => ⟨List.Perm.refl _, fun _ => rfl⟩

omit [DecidableEq N] in
theorem reordered (h : Holds fhm s lists live) {l : Links Nat N} {lists' : Nat → List N}
    (hl : Lists l lists') (hsame : Same s lists lists') :
    Holds fhm { s with links := l } lists' live := by
  refine ⟨hl, ?_, ?_, h.keys, h.nodup⟩
  · exact fun i n hn => h.bucket i n ((hsame i).1.mem_iff.mp hn)
  · exact fun key => ((hsame _).2 key).trans (h.order key)

/-- The first node with a key moves to the front of its bucket. -/
theorem same_moved {i : Nat} {pos : N} (hmem : pos ∈ lists i)
    (hfirst : (lists i).find? (fun n => decide (s.key n = s.key pos)) = some pos) :
    Same s lists (Function.update lists i (pos :: (lists i).erase pos)) := by
  intro j
  by_cases heq : j = i
  · rw [heq, Function.update_self]
    refine ⟨(List.perm_cons_erase hmem).symm, ?_⟩
    intro key
    apply filter_moved
    intro hpos
    rw [← of_decide_eq_true hpos]
    exact hfirst
  · rw [Function.update_of_ne heq]
    exact ⟨List.Perm.refl _, fun _ => rfl⟩

/-- A lookup finds the newest node with its key and moves it to the front of its bucket, which
keeps the nodes of each key in their order. -/
theorem find (h : Holds fhm s lists live) {fuel : Nat} (hfuel : live.length ≤ fuel) (key : K) :
    ∃ s' lists', s.fhFindPos fhm fuel key = some (live.newest key, s') ∧
      Holds fhm s' lists' live ∧ s'.key = s.key ∧ Same s lists lists' := by
  have hspells := h.links.spells (findB fhm key)
  have hfind := findFrom_eq (p := fun pos => decide (s.key pos = key)) hspells
    ((h.length_le _).trans hfuel)
  have hnewest : (lists (findB fhm key)).find? (fun pos => decide (s.key pos = key)) =
      live.newest key := by
    rw [← List.head?_filter, h.order, ← Live.newest_eq_head?]
  rw [State.fhFindPos, hfind, hnewest, Option.map_some]
  cases hpos : live.newest key with
  | none => exact ⟨s, lists, rfl, h, rfl, same_refl⟩
  | some pos =>
      rw [hpos] at hnewest
      have hmem := List.mem_of_find?_eq_some hnewest
      have hkey : s.key pos = key := by simpa using List.find?_some hnewest
      dsimp only
      split
      next hmoved =>
        have hout : ∀ i, pos ∉ Function.update lists (findB fhm key)
            ((lists (findB fhm key)).erase pos) i := by
          intro i hi
          by_cases heq : i = findB fhm key
          · rw [heq, Function.update_self] at hi
            exact hspells.nodup.not_mem_erase hi
          · rw [Function.update_of_ne heq] at hi
            exact heq (h.links.eq_head hi hmem)
        have hlists := (h.links.unlink hmem).pushFront hout (findB fhm key)
        rw [Function.update_self, Function.update_idem] at hlists
        have hsame := same_moved (s := s) hmem (by rw [hkey]; exact hnewest)
        exact ⟨_, _, rfl, h.reordered hlists hsame, rfl, hsame⟩
      next hfirst => exact ⟨s, lists, rfl, h, rfl, same_refl⟩

end Holds

/-! ## All buckets -/

/-- The loop over some buckets visits their nodes, whatever is done to each of them. -/
theorem eachBucket_eq {c : Links Nat N → N → Links Nat N} (hc : Local c) {l : Links Nat N}
    {fuel : Nat} {is : List Nat} (his : is.Nodup)
    (hfollows : ∀ i ∈ is, l.next (.head i) = (lists i).head? ∧ Follows l (lists i))
    (hnodup : ∀ i, (lists i).Nodup) (hapart : ∀ i j n, n ∈ lists i → n ∈ lists j → i = j)
    (hfuel : ∀ i, (lists i).length ≤ fuel) :
    ∃ l', State.eachBucket c fuel is l = some (is.flatMap lists, l') := by
  induction is generalizing l with
  | nil => exact ⟨l, rfl⟩
  | cons i is ih =>
      obtain ⟨hi, his⟩ := List.nodup_cons.mp his
      obtain ⟨hhead, hfollow⟩ := hfollows i List.mem_cons_self
      obtain ⟨l', heach, hframe⟩ := eachFrom_eq hc hfollow (hnodup i) (hfuel i)
      have hrest : ∀ j ∈ is, l'.next (.head j) = (lists j).head? ∧ Follows l' (lists j) := by
        intro j hj
        obtain ⟨hhead, hfollow⟩ := hfollows j (List.mem_cons_of_mem i hj)
        refine ⟨(hframe (.head j) fun n _ heq => absurd heq nofun).trans hhead, hfollow.congr ?_⟩
        intro m hm
        apply hframe
        intro n hn heq
        rw [← Ref.entry.inj heq] at hn
        exact hi (hapart i j m hn hm ▸ hj)
      obtain ⟨l'', hbuckets⟩ := ih his hrest
      rw [State.eachBucket, hhead, heach, Option.bind_some]
      dsimp only
      rw [hbuckets]
      exact ⟨l'', rfl⟩

namespace Holds

/-- The nodes of all buckets. -/
theorem forEachSafe (h : Holds fhm s lists live) {fuel : Nat} (hfuel : live.length ≤ fuel)
    {c : Links Nat N → N → Links Nat N} (hc : Local c) :
    ∃ l', s.fhForEachSafe fhm c fuel = some ((List.range (1 <<< fhm.p2size)).flatMap lists, l') := by
  apply eachBucket_eq hc List.nodup_range
  · exact fun i _ => (h.links.spells i).follows
  · exact fun i => (h.links.spells i).nodup
  · exact fun i j n hi hj => h.links.eq_head hi hj
  · exact fun i => (h.length_le i).trans hfuel

theorem nodup_buckets (h : Holds fhm s lists live) (is : List Nat) (his : is.Nodup) :
    (is.flatMap lists).Nodup := by
  rw [List.nodup_flatMap]
  refine ⟨fun i _ => (h.links.spells i).nodup, his.imp ?_⟩
  intro i j hne n hi hj
  exact hne (h.links.eq_head hi hj)

theorem mem_buckets_iff (h : Holds fhm s lists live) :
    n ∈ (List.range (1 <<< fhm.p2size)).flatMap lists ↔ n ∈ live.map Prod.fst := by
  rw [List.mem_flatMap]
  constructor
  · rintro ⟨i, -, hn⟩
    exact (h.mem_lists_iff.mp hn).1
  · intro hn
    refine ⟨findB fhm (s.key n), ?_, h.mem_lists_iff.mpr ⟨hn, rfl⟩⟩
    rw [List.mem_range, Nat.one_shiftLeft]
    exact hashFn_lt fhm _

variable [DecidableEq N]

/-- What one legal call does. -/
theorem step (h : Holds fhm s lists live) {op : Op N K} (hlegal : live.Legal op) {fuel : Nat}
    (hfuel : live.length ≤ fuel) :
    ∃ s' lists', Fhmap.step fhm fuel s op = some s' ∧ Holds fhm s' lists' (live.after op) := by
  cases op with
  | add value key =>
      obtain ⟨lists', hholds⟩ := h.add hlegal key
      exact ⟨_, lists', rfl, hholds⟩
  | find key =>
      obtain ⟨s', lists', hfind, hholds, -, -⟩ := h.find hfuel key
      refine ⟨s', lists', ?_, hholds⟩
      rw [Fhmap.step, hfind]
      rfl
  | del value =>
      obtain ⟨lists', hholds⟩ := h.del hlegal
      exact ⟨_, lists', rfl, hholds⟩
  | delByKey key =>
      obtain ⟨s', lists', hfind, hholds, -, -⟩ := h.find hfuel key
      obtain ⟨value, hvalue⟩ := Option.isSome_iff_exists.mp (Live.newest_isSome hlegal)
      have hlive : value ∈ live.map Prod.fst := by
        rw [Live.newest_eq_head?] at hvalue
        obtain ⟨e, he, heq⟩ := List.mem_map.mp (List.mem_of_head? hvalue)
        exact List.mem_map.mpr ⟨e, List.mem_of_mem_filter he, heq⟩
      obtain ⟨lists'', hdel⟩ := hholds.del hlive
      refine ⟨s'.fhDel value, lists'', ?_, ?_⟩
      · rw [Fhmap.step, State.fhDelByKey, hfind, hvalue]
        rfl
      · rw [Live.after, hvalue]
        exact hdel

/-- What a run of legal calls does. -/
theorem run (h : Holds fhm s lists live) {ops : List (Op N K)} (hlegal : live.LegalRun ops)
    {fuel : Nat} (hfuel : live.length + ops.length ≤ fuel) :
    ∃ s' lists', Run.run (Fhmap.step fhm fuel) s ops = some s' ∧
      Holds fhm s' lists' (ops.foldl Live.after live) ∧
      (ops.foldl Live.after live).length ≤ fuel := by
  induction ops generalizing s lists live with
  | nil => exact ⟨s, lists, rfl, h, hfuel⟩
  | cons op ops ih =>
      rw [List.length_cons] at hfuel
      have hroom : live.length ≤ fuel := by omega
      obtain ⟨t, lists', hstep, hholds⟩ := h.step hlegal.1 hroom
      have hlen := @Live.length_after_le N K _ live _ op
      obtain ⟨s', lists'', hrun, hrest⟩ := ih hholds hlegal.2 (by omega)
      exact ⟨s', lists'', Run.run_cons_eq_some.mpr ⟨t, hstep, hrun⟩, hrest⟩

end Holds

/-! ## Runs -/

/-- A map at its start: the callers clear the buckets, and whatever else is in memory stays. -/
def State.cleared (s : State N K) : State N K where
  links := { s.links with
    next := fun
      | .head _ => none
      | .entry n => s.links.next (.entry n) }
  key := s.key

theorem holds_cleared (fhm : Shape K) (s : State N K) : Holds fhm s.cleared (fun _ => []) [] := by
  refine ⟨⟨fun i => ⟨trivial, rfl⟩, ?_⟩, ?_, fun _ => rfl, ?_, List.nodup_nil⟩
  · exact fun i n hn => absurd hn List.not_mem_nil
  · exact fun i n hn => absurd hn List.not_mem_nil
  · exact fun e he => absurd he List.not_mem_nil

/-- The buckets together hold each live node once, and a walk that destroys the nodes meets
them all. -/
def VisitsEach (fhm : Shape K) (fuel : Nat) (s : State N K) (live : Live N K) : Prop :=
  ∀ c, Local c → ∃ ns l', s.fhForEachSafe fhm c fuel = some (ns, l') ∧ ns.Nodup ∧
    ∀ n, n ∈ ns ↔ n ∈ live.map Prod.fst

variable [DecidableEq N]

/-- A lookup returns the newest live node with its key.  It loses and doubles no node, and keeps
the order of the nodes of each key. -/
def FindsNewest (fhm : Shape K) (fuel : Nat) (s : State N K) (live : Live N K) (key : K) : Prop :=
  ∃ s', s.fhFindPos fhm fuel key = some (live.newest key, s') ∧ s'.key = s.key ∧
    ∃ ns ns', (s.fhForEachSafe fhm (fun l _ => l) fuel).map Prod.fst = some ns ∧
      (s'.fhForEachSafe fhm (fun l _ => l) fuel).map Prod.fst = some ns' ∧ ns'.Perm ns ∧
      ∀ key, ns'.filter (s.key · = key) = ns.filter (s.key · = key)

omit [DecidableEq N] in
theorem Holds.visitsEach (h : Holds fhm s lists live) {fuel : Nat} (hfuel : live.length ≤ fuel) :
    VisitsEach fhm fuel s live := by
  intro c hc
  obtain ⟨l', heach⟩ := h.forEachSafe hfuel hc
  exact ⟨_, l', heach, h.nodup_buckets _ List.nodup_range, fun n => h.mem_buckets_iff⟩

theorem Holds.findsNewest (h : Holds fhm s lists live) {fuel : Nat} (hfuel : live.length ≤ fuel)
    (key : K) : FindsNewest fhm fuel s live key := by
  have hid : Local fun (l : Links Nat N) (_ : N) => l := fun l n r _ => rfl
  obtain ⟨s', lists', hfind, hholds, hkey, hsame⟩ := h.find hfuel key
  obtain ⟨l, heach⟩ := h.forEachSafe hfuel hid
  obtain ⟨l', heach'⟩ := hholds.forEachSafe hfuel hid
  refine ⟨s', hfind, hkey, _, _, by rw [heach]; rfl, by rw [heach']; rfl, ?_, ?_⟩
  · exact List.Perm.flatMap_left _ fun i _ => (hsame i).1
  · intro key'
    rw [List.filter_flatMap, List.filter_flatMap]
    congr 1
    funext i
    exact (hsame i).2 key'

/-- In every run of legal calls the hash stays in the map, each lookup finds the newest node with
its key, and the buckets hold each live node once. -/
theorem fhmap_run (fhm : Shape K) (blank : State N K) {ops : List (Op N K)}
    (hlegal : Live.LegalRun [] ops) {fuel : Nat} (hfuel : ops.length ≤ fuel) :
    ∃ s, Run.run (step fhm fuel) blank.cleared ops = some s ∧
      (∀ key, fhm.hashFn key < 2 ^ fhm.p2size) ∧
      (∀ key, FindsNewest fhm fuel s (ops.foldl Live.after []) key) ∧
      VisitsEach fhm fuel s (ops.foldl Live.after []) := by
  have hroom : ([] : Live N K).length + ops.length ≤ fuel := by
    rw [List.length_nil, Nat.zero_add]
    exact hfuel
  obtain ⟨s, lists, hrun, hholds, hlen⟩ := (holds_cleared fhm blank).run hlegal hroom
  exact ⟨s, hrun, hashFn_lt fhm, hholds.findsNewest hlen, hholds.visitsEach hlen⟩

/-- Sixteen buckets in four zones, over memory that is not clear. -/
def smallMap : Shape Nat := ⟨BitVec.ofNat 32, 4, some 2, by decide, by simp⟩

def noise : State Nat Nat := ⟨⟨fun _ => some 7, fun _ => .head 9, fun _ => 3⟩, fun _ => 5⟩

theorem fhmap_run_twoNodes :
    ∃ s, Run.run (step smallMap 4) noise.cleared [.add 1 5, .add 2 5, .find 5, .del 2] = some s ∧
      (∀ key, smallMap.hashFn key < 2 ^ smallMap.p2size) ∧
      (∀ key, FindsNewest smallMap 4 s [(1, 5)] key) ∧ VisitsEach smallMap 4 s [(1, 5)] := by
  have hlegal : Live.LegalRun [] [Op.add 1 5, .add 2 5, .find 5, .del 2] := by
    simp [Live.LegalRun, Live.Legal, Live.after]
  exact fhmap_run smallMap noise hlegal le_rfl

end Fhmap
end Core
end Dosemu
