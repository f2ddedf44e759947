import Mathlib.Tactic

/-!
# Linked lists with heads of their own

Lists in memory: each head, and each node, points to the node after it, each node points
back to what stands before it, and each node knows the head of its list.  A node is put
in behind a head, and taken out through its own links alone.

Main results:

- Theorem `Lists.pushFront` and Theorem `Lists.unlink`: what the two operations do to the
  lists that the links spell.
- Theorem `findFrom_eq`: a walk along the links finds what is first in the list.
- Theorem `eachFrom_eq`: a walk that may destroy each node behind it visits them all.
-/

namespace HeadedList

/-- What can stand before a node. -/
inductive Ref (H N : Type) where
  | head (h : H)
  | entry (n : N)
  deriving DecidableEq

/-- The links in memory. -/
structure Links (H N : Type) where
  next : Ref H N → Option N
  prev : N → Ref H N
  head : N → H

variable {H N : Type}

/-! ## What the links spell -/

/-- The nodes in a row behind `r`. -/
def Path (l : Links H N) : Ref H N → List N → Prop
  | _, [] => True
  | r, n :: ns => l.next r = some n ∧ l.prev n = r ∧ Path l (.entry n) ns

/-- What stands last, behind `r`. -/
def lastRef (r : Ref H N) : List N → Ref H N
  | [] => r
  | n :: ns => lastRef (.entry n) ns

/-- The nodes behind `r`, up to the end of the list. -/
def Spells (l : Links H N) (r : Ref H N) (ns : List N) : Prop :=
  Path l r ns ∧ l.next (lastRef r ns) = none

variable {l l' : Links H N} {n m : N} {h : H} {r : Ref H N} {ns front back : List N}

theorem lastRef_append : lastRef r (front ++ back) = lastRef (lastRef r front) back := by
  induction front generalizing r with
  | nil => rfl
  | cons n front ih => exact ih

theorem lastRef_eq : lastRef r ns = r ∨ ∃ n ∈ ns, lastRef r ns = .entry n := by
  induction ns generalizing r with
  | nil => exact .inl rfl
  | cons n ns ih =>
      rcases @ih (.entry n) with heq | ⟨m, hm, heq⟩
      · exact .inr ⟨n, List.mem_cons_self, heq⟩
      · exact .inr ⟨m, List.mem_cons_of_mem n hm, heq⟩

theorem path_append : Path l r (front ++ back) ↔ Path l r front ∧ Path l (lastRef r front) back := by
  induction front generalizing r with
  | nil => exact (true_and _).symm ▸ Iff.rfl
  | cons n front ih =>
      rw [List.cons_append, Path, ih, Path, lastRef, and_assoc, and_assoc]

theorem spells_append :
    Spells l r (front ++ back) ↔ Path l r front ∧ Spells l (lastRef r front) back := by
  rw [Spells, path_append, lastRef_append, and_assoc, Spells]

/-- A row of nodes depends on the links between them only. -/
theorem Path.congr (hp : Path l r (ns ++ [n])) (hnext : l'.next r = l.next r)
    (hnexts : ∀ m ∈ ns, l'.next (.entry m) = l.next (.entry m))
    (hprevs : ∀ m ∈ ns ++ [n], l'.prev m = l.prev m) : Path l' r (ns ++ [n]) := by
  induction ns generalizing r with
  | nil =>
      obtain ⟨hfirst, hback, -⟩ := hp
      exact ⟨hnext.trans hfirst, (hprevs n List.mem_cons_self).trans hback, trivial⟩
  | cons m ns ih =>
      obtain ⟨hfirst, hback, hrest⟩ := hp
      refine ⟨hnext.trans hfirst, (hprevs m List.mem_cons_self).trans hback, ih hrest ?_ ?_ ?_⟩
      · exact hnexts m List.mem_cons_self
      · exact fun k hk => hnexts k (List.mem_cons_of_mem m hk)
      · exact fun k hk => hprevs k (List.mem_cons_of_mem m hk)

/-- A whole list depends on the links of its own nodes and on what it begins behind. -/
theorem Spells.congr (hs : Spells l r ns) (hnext : l'.next r = l.next r)
    (hnexts : ∀ m ∈ ns, l'.next (.entry m) = l.next (.entry m))
    (hprevs : ∀ m ∈ ns, l'.prev m = l.prev m) : Spells l' r ns := by
  rcases List.eq_nil_or_concat ns with rfl | ⟨ms, n, rfl⟩
  · exact ⟨trivial, hnext.trans hs.2⟩
  · rw [List.concat_eq_append] at hs hnexts hprevs ⊢
    refine ⟨hs.1.congr hnext (fun m hm => hnexts m (List.mem_append_left _ hm)) hprevs, ?_⟩
    have hend := hs.2
    rw [lastRef_append] at hend ⊢
    exact (hnexts n (List.mem_append_right _ List.mem_cons_self)).trans hend

/-- The list behind a place is what its links say. -/
theorem Spells.unique {ms : List N} (hs : Spells l r ns) (hs' : Spells l r ms) : ns = ms := by
  induction ns generalizing r ms with
  | nil =>
      cases ms with
      | nil => rfl
      | cons m ms => exact absurd (hs.2.symm.trans hs'.1.1) nofun
  | cons n ns ih =>
      cases ms with
      | nil => exact absurd (hs'.2.symm.trans hs.1.1) nofun
      | cons m ms =>
          obtain rfl := Option.some.inj (hs.1.1.symm.trans hs'.1.1)
          rw [ih ⟨hs.1.2.2, hs.2⟩ ⟨hs'.1.2.2, hs'.2⟩]

theorem Spells.tail (hs : Spells l r (n :: ns)) : Spells l (.entry n) ns :=
  ⟨hs.1.2.2, hs.2⟩

/-- No node is in its list twice: the list behind it would be its own tail. -/
theorem Spells.nodup (hs : Spells l r ns) : ns.Nodup := by
  induction ns generalizing r with
  | nil => exact List.nodup_nil
  | cons n ns ih =>
      refine List.nodup_cons.mpr ⟨?_, ih hs.tail⟩
      intro hmem
      obtain ⟨front, back, rfl⟩ := List.append_of_mem hmem
      have htail := hs.tail
      have hagain := (spells_append.mp htail).2.tail
      have hlen := congrArg List.length (htail.unique hagain)
      rw [List.length_append, List.length_cons] at hlen
      omega

/-- What stands before and behind a node in the middle of a list. -/
theorem Spells.middle (hs : Spells l r (front ++ n :: back)) :
    l.prev n = lastRef r front ∧ Spells l (.entry n) back := by
  obtain ⟨-, hrest⟩ := spells_append.mp hs
  exact ⟨hrest.1.2.1, hrest.tail⟩

/-! ## The lists of all heads -/

/-- The links spell a list for each head, and every node is in the list of its head. -/
structure Lists (l : Links H N) (lists : H → List N) : Prop where
  spells : ∀ h, Spells l (.head h) (lists h)
  head : ∀ h, ∀ n ∈ lists h, l.head n = h

variable {lists : H → List N} {h' : H}

theorem Lists.eq_head (hl : Lists l lists) (hn : n ∈ lists h) (hn' : n ∈ lists h') : h = h' :=
  (hl.head h n hn).symm.trans (hl.head h' n hn')

/-- The first node of a list is in it. -/
theorem Spells.mem_of_next (hs : Spells l r ns) (hn : l.next r = some n) : n ∈ ns := by
  cases ns with
  | nil => exact absurd (hs.2.symm.trans hn) nofun
  | cons m ns =>
      rw [Option.some.inj (hn.symm.trans hs.1.1)]
      exact List.mem_cons_self

/-! ## The operations -/

section Operations

variable [DecidableEq N]

namespace Links

/-- Change what stands before a node, if there is one. -/
def setPrev (l : Links H N) (n : Option N) (r : Ref H N) : Links H N :=
  match n with
  | none => l
  | some n => { l with prev := Function.update l.prev n r }

section

variable (l : Links H N) (n : N) (r : Ref H N)

@[simp]
theorem setPrev_next (m : Option N) : (l.setPrev m r).next = l.next := by
  cases m <;> rfl

@[simp]
theorem setPrev_head (m : Option N) : (l.setPrev m r).head = l.head := by
  cases m <;> rfl

theorem setPrev_prev_of_ne {m : Option N} (hm : m ≠ some n) :
    (l.setPrev m r).prev n = l.prev n := by
  cases m with
  | none => rfl
  | some m => exact Function.update_of_ne (fun heq => hm (congrArg some heq.symm)) _ _

end

variable [DecidableEq H]

def setNext (l : Links H N) (r : Ref H N) (n : Option N) : Links H N :=
  { l with next := Function.update l.next r n }

def setHead (l : Links H N) (n : N) (h : H) : Links H N :=
  { l with head := Function.update l.head n h }

/-- Put a node in behind a head. -/
def pushFront (l : Links H N) (n : N) (h : H) : Links H N :=
  let next := l.next (.head h)
  ((((l.setPrev next (.entry n)).setNext (.entry n) next).setPrev (some n) (.head h)).setHead n
    h).setNext (.head h) (some n)

/-- Take a node out. -/
def unlink (l : Links H N) (n : N) : Links H N :=
  let next := l.next (.entry n)
  let prev := l.prev n
  (l.setPrev next prev).setNext prev next

variable (l : Links H N) (n : N) (h : H) (r : Ref H N)

theorem pushFront_next_head : (l.pushFront n h).next (.head h) = some n :=
  Function.update_self _ _ _

theorem pushFront_next_self : (l.pushFront n h).next (.entry n) = l.next (.head h) := by
  simp [pushFront, setNext, setHead]

theorem pushFront_next_of_ne (hhead : r ≠ .head h) (hentry : r ≠ .entry n) :
    (l.pushFront n h).next r = l.next r := by
  simp [pushFront, setNext, setHead, hhead, hentry]

theorem pushFront_prev_self : (l.pushFront n h).prev n = .head h :=
  Function.update_self _ _ _

theorem pushFront_prev_next {m : N} (hm : l.next (.head h) = some m) (hne : m ≠ n) :
    (l.pushFront n h).prev m = .entry n := by
  simp [pushFront, setNext, setHead, setPrev, hm, hne]

theorem pushFront_prev_of_ne {m : N} (hm : l.next (.head h) ≠ some m) (hne : m ≠ n) :
    (l.pushFront n h).prev m = l.prev m := by
  have hstep : (l.pushFront n h).prev m = (l.setPrev (l.next (.head h)) (.entry n)).prev m := by
    simp [pushFront, setNext, setHead, setPrev, hne]
  rw [hstep, setPrev_prev_of_ne _ _ _ hm]

theorem pushFront_head : (l.pushFront n h).head = Function.update l.head n h := by
  simp [pushFront, setNext, setHead]

theorem unlink_next_prev : (l.unlink n).next (l.prev n) = l.next (.entry n) :=
  Function.update_self _ _ _

theorem unlink_next_of_ne (hr : r ≠ l.prev n) : (l.unlink n).next r = l.next r := by
  simp [unlink, setNext, hr]

theorem unlink_prev_next {m : N} (hm : l.next (.entry n) = some m) :
    (l.unlink n).prev m = l.prev n := by
  simp [unlink, setNext, setPrev, hm]

theorem unlink_prev_of_ne {m : N} (hm : l.next (.entry n) ≠ some m) :
    (l.unlink n).prev m = l.prev m := by
  rw [unlink]
  exact setPrev_prev_of_ne _ _ _ hm

theorem unlink_head : (l.unlink n).head = l.head := by
  simp [unlink, setNext]

end Links

variable [DecidableEq H]

theorem Spells.pushFront (hs : Spells l (.head h) ns) (hn : n ∉ ns) :
    Spells (l.pushFront n h) (.head h) (n :: ns) := by
  have hnodup := hs.nodup
  have hrest : Spells (l.pushFront n h) (.entry n) ns := by
    cases ns with
    | nil => exact ⟨trivial, (l.pushFront_next_self n h).trans hs.2⟩
    | cons m ms =>
        have hmn : m ≠ n := fun heq => hn (heq ▸ List.mem_cons_self)
        have hms := hs.tail
        have hnode : ∀ k ∈ m :: ms, (Ref.entry k : Ref H N) ≠ .entry n :=
          fun k hk heq => hn (Ref.entry.inj heq ▸ hk)
        have htail : Spells (l.pushFront n h) (.entry m) ms := by
          apply hms.congr
          · exact l.pushFront_next_of_ne n h _ nofun (hnode m List.mem_cons_self)
          · exact fun k hk =>
              l.pushFront_next_of_ne n h _ nofun (hnode k (List.mem_cons_of_mem m hk))
          · intro k hk
            apply l.pushFront_prev_of_ne n h
            · rw [hs.1.1]
              intro heq
              exact (List.nodup_cons.mp hnodup).1 (Option.some.inj heq ▸ hk)
            · exact fun heq => hn (heq ▸ List.mem_cons_of_mem m hk)
        exact ⟨⟨(l.pushFront_next_self n h).trans hs.1.1, l.pushFront_prev_next n h hs.1.1 hmn,
          htail.1⟩, htail.2⟩
  exact ⟨⟨l.pushFront_next_head n h, l.pushFront_prev_self n h, hrest.1⟩, hrest.2⟩

/-- A node that is in no list is put in front of one of them. -/
theorem Lists.pushFront (hl : Lists l lists) (hn : ∀ h, n ∉ lists h) (h : H) :
    Lists (l.pushFront n h) (Function.update lists h (n :: lists h)) := by
  constructor
  · intro h'
    by_cases heq : h' = h
    · rw [heq, Function.update_self]
      exact (hl.spells h).pushFront (hn h)
    · rw [Function.update_of_ne heq]
      have hnode : ∀ m ∈ lists h', m ≠ n := fun m hm hmn => hn h' (hmn ▸ hm)
      apply (hl.spells h').congr
      · exact l.pushFront_next_of_ne n h _ (fun h => heq (Ref.head.inj h)) nofun
      · exact fun m hm =>
          l.pushFront_next_of_ne n h _ nofun fun h => hnode m hm (Ref.entry.inj h)
      · intro m hm
        apply l.pushFront_prev_of_ne n h _ (hnode m hm)
        intro hfirst
        exact heq (hl.eq_head hm ((hl.spells h).mem_of_next hfirst))
  · intro h' m hm
    rw [Links.pushFront_head]
    by_cases heq : h' = h
    · rw [heq, Function.update_self] at hm
      rw [heq]
      rcases List.mem_cons.mp hm with hmn | hm
      · rw [hmn, Function.update_self]
      · have hmn : m ≠ n := fun hmn => hn h (hmn ▸ hm)
        rw [Function.update_of_ne hmn]
        exact hl.head h m hm
    · rw [Function.update_of_ne heq] at hm
      have hmn : m ≠ n := fun hmn => hn h' (hmn ▸ hm)
      rw [Function.update_of_ne hmn]
      exact hl.head h' m hm

theorem Spells.unlink (hs : Spells l (.head h) (front ++ n :: back)) :
    Spells (l.unlink n) (.head h) (front ++ back) := by
  obtain ⟨hprev, hback⟩ := hs.middle
  have hnodup := hs.nodup
  have hapart : ∀ m ∈ front, ∀ k ∈ n :: back, m ≠ k :=
    fun m hm k hk => (List.nodup_append.mp hnodup).2.2 m hm k hk
  have hnback := (List.nodup_cons.mp (List.nodup_append.mp hnodup).2.1)
  obtain ⟨hpath, -⟩ := spells_append.mp hs
  have hnotprev : ∀ m ∈ back, (Ref.entry m : Ref H N) ≠ l.prev n := by
    intro m hm heq
    rw [hprev] at heq
    rcases @lastRef_eq H N (Ref.head h) front with hlast | ⟨k, hk, hlast⟩
    · exact absurd (heq.trans hlast) nofun
    · rw [hlast] at heq
      exact hapart k hk m (List.mem_cons_of_mem n hm) (Ref.entry.inj heq).symm
  rw [spells_append]
  constructor
  · -- the links in front of the node stay, up to the one that leads to it
    rcases List.eq_nil_or_concat front with hnil | ⟨ms, k, hconcat⟩
    · rw [hnil]
      trivial
    · rw [List.concat_eq_append] at hconcat
      rw [hconcat] at hpath hprev hapart hs ⊢
      rw [lastRef_append] at hprev
      have hms := (List.nodup_append.mp (List.nodup_append.mp hs.nodup).1).2.2
      have hne : ∀ m ∈ ms, (Ref.entry m : Ref H N) ≠ l.prev n := by
        intro m hm heq
        exact hms m hm k List.mem_cons_self (Ref.entry.inj (heq.trans hprev))
      apply hpath.congr
      · exact l.unlink_next_of_ne n _ (fun heq => absurd (heq.trans hprev) nofun)
      · exact fun m hm => l.unlink_next_of_ne n _ (hne m hm)
      · intro m hm
        apply l.unlink_prev_of_ne n
        intro hnext
        exact hapart m hm m (List.mem_cons_of_mem n (hback.mem_of_next hnext)) rfl
  · rw [← hprev]
    cases back with
    | nil => exact ⟨trivial, (l.unlink_next_prev n).trans hback.2⟩
    | cons m ms =>
        have hms := (List.nodup_cons.mp hnback.2).1
        have htail : Spells (l.unlink n) (.entry m) ms := by
          apply hback.tail.congr
          · exact l.unlink_next_of_ne n _ (hnotprev m List.mem_cons_self)
          · exact fun k hk => l.unlink_next_of_ne n _ (hnotprev k (List.mem_cons_of_mem m hk))
          · intro k hk
            apply l.unlink_prev_of_ne n
            rw [hback.1.1]
            intro heq
            exact hms (Option.some.inj heq ▸ hk)
        exact ⟨⟨(l.unlink_next_prev n).trans hback.1.1, l.unlink_prev_next n hback.1.1, htail.1⟩,
          htail.2⟩

/-- A node of a list is taken out of it. -/
theorem Lists.unlink (hl : Lists l lists) (hn : n ∈ lists h) :
    Lists (l.unlink n) (Function.update lists h ((lists h).erase n)) := by
  obtain ⟨front, back, hsplit⟩ := List.append_of_mem hn
  have hs := hl.spells h
  rw [hsplit] at hs
  have hnodup := hs.nodup
  have hfront : n ∉ front := fun hmem =>
    (List.nodup_append.mp hnodup).2.2 n hmem n List.mem_cons_self rfl
  have herase : (lists h).erase n = front ++ back := by
    rw [hsplit, List.erase_append_right _ hfront, List.erase_cons_head]
  obtain ⟨hprev, hback⟩ := hs.middle
  constructor
  · intro h'
    by_cases heq : h' = h
    · rw [heq, Function.update_self, herase]
      exact hs.unlink
    · rw [Function.update_of_ne heq]
      have hother : ∀ m ∈ lists h', m ∉ lists h := fun m hm hm' => heq (hl.eq_head hm hm')
      rcases @lastRef_eq H N (Ref.head h) front with hlast | ⟨k, hk, hlast⟩
      all_goals
        rw [hlast] at hprev
        apply (hl.spells h').congr
      · exact l.unlink_next_of_ne n _ fun h => heq (Ref.head.inj (h.trans hprev))
      · exact fun m hm => l.unlink_next_of_ne n _ fun h => absurd (h.trans hprev) nofun
      · intro m hm
        apply l.unlink_prev_of_ne n
        intro hnext
        apply hother m hm
        rw [hsplit]
        exact List.mem_append_right _ (List.mem_cons_of_mem n (hback.mem_of_next hnext))
      · exact l.unlink_next_of_ne n _ fun h => absurd (h.trans hprev) nofun
      · intro m hm
        apply l.unlink_next_of_ne n
        intro h
        apply hother m hm
        rw [Ref.entry.inj (h.trans hprev), hsplit]
        exact List.mem_append_left _ hk
      · intro m hm
        apply l.unlink_prev_of_ne n
        intro hnext
        apply hother m hm
        rw [hsplit]
        exact List.mem_append_right _ (List.mem_cons_of_mem n (hback.mem_of_next hnext))
  · intro h' m hm
    rw [Links.unlink_head]
    by_cases heq : h' = h
    · rw [heq, Function.update_self] at hm
      rw [heq]
      exact hl.head h m (List.mem_of_mem_erase hm)
    · rw [Function.update_of_ne heq] at hm
      exact hl.head h' m hm

end Operations

/-! ## Walks -/

namespace Links

/-- A walk along the links, from a node to the first one that is looked for; it returns
nothing at all where the fuel does not last to the end. -/
def findFrom (l : Links H N) (p : N → Bool) : Nat → Option N → Option (Option N)
  | _, none => some none
  | 0, some _ => none
  | fuel + 1, some n => if p n then some (some n) else l.findFrom p fuel (l.next (.entry n))

/-- A walk that reads the link of each node before it calls a function on the node. -/
def eachFrom (c : Links H N → N → Links H N) :
    Nat → Links H N → Option N → Option (List N × Links H N)
  | _, l, none => some ([], l)
  | 0, _, some _ => none
  | fuel + 1, l, some n =>
      (eachFrom c fuel (c l n) (l.next (.entry n))).map fun (ns, l') => (n :: ns, l')

end Links

/-- A walk finds what a search through the list finds. -/
theorem findFrom_eq {p : N → Bool} {fuel : Nat} (hs : Spells l r ns) (hfuel : ns.length ≤ fuel) :
    l.findFrom p fuel (l.next r) = some (ns.find? p) := by
  induction ns generalizing r fuel with
  | nil =>
      have hend : l.next r = none := hs.2
      rw [hend, Links.findFrom, List.find?_nil]
  | cons n ns ih =>
      obtain ⟨k, rfl⟩ : ∃ k, fuel = k + 1 := ⟨fuel - 1, by
        rw [List.length_cons] at hfuel
        omega⟩
      rw [hs.1.1, Links.findFrom, List.find?_cons]
      split
      next hp => rw [hp]
      next hp =>
        rw [Bool.eq_false_of_not_eq_true hp]
        exact ih hs.tail (Nat.le_of_succ_le_succ hfuel)

/-- What is done to a node changes none of the links of the others. -/
def Local (c : Links H N → N → Links H N) : Prop :=
  ∀ l n r, r ≠ .entry n → (c l n).next r = l.next r

/-- Each node leads to the one after it. -/
def Follows (l : Links H N) : List N → Prop
  | [] => True
  | n :: ns => l.next (.entry n) = ns.head? ∧ Follows l ns

theorem Spells.follows (hs : Spells l r ns) : l.next r = ns.head? ∧ Follows l ns := by
  induction ns generalizing r with
  | nil => exact ⟨hs.2, trivial⟩
  | cons n ns ih =>
      obtain ⟨hnext, hrest⟩ := ih hs.tail
      exact ⟨hs.1.1, hnext, hrest⟩

theorem Follows.congr (hs : Follows l ns)
    (hnexts : ∀ m ∈ ns, l'.next (.entry m) = l.next (.entry m)) : Follows l' ns := by
  induction ns with
  | nil => trivial
  | cons n ns ih =>
      refine ⟨(hnexts n List.mem_cons_self).trans hs.1, ih hs.2 ?_⟩
      exact fun m hm => hnexts m (List.mem_cons_of_mem n hm)

/-- A walk that may destroy each node visits them all, and changes no link but theirs. -/
theorem eachFrom_eq {c : Links H N → N → Links H N} (hc : Local c) {fuel : Nat}
    (hs : Follows l ns) (hnodup : ns.Nodup) (hfuel : ns.length ≤ fuel) :
    ∃ l', Links.eachFrom c fuel l ns.head? = some (ns, l') ∧
      ∀ r, (∀ n ∈ ns, r ≠ .entry n) → l'.next r = l.next r := by
  induction ns generalizing l fuel with
  | nil =>
      rw [List.head?_nil, Links.eachFrom]
      exact ⟨l, rfl, fun _ _ => rfl⟩
  | cons n ns ih =>
      obtain ⟨k, rfl⟩ : ∃ k, fuel = k + 1 := ⟨fuel - 1, by
        rw [List.length_cons] at hfuel
        omega⟩
      obtain ⟨hn, hns⟩ := List.nodup_cons.mp hnodup
      have hrest : Follows (c l n) ns := by
        apply hs.2.congr
        intro m hm
        exact hc l n _ fun heq => hn (Ref.entry.inj heq ▸ hm)
      obtain ⟨l', heach, hframe⟩ := ih hrest hns (Nat.le_of_succ_le_succ hfuel)
      rw [List.head?_cons, Links.eachFrom, hs.1, heach]
      refine ⟨l', rfl, fun r hr => ?_⟩
      rw [hframe r fun m hm => hr m (List.mem_cons_of_mem n hm), hc l n r (hr n List.mem_cons_self)]

end HeadedList
