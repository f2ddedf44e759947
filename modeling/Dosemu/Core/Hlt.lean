import Dosemu.Lib.Run

/-!
# Handlers of the HLT block

A block of HLT instructions, each of which calls the handler that was registered
for its address.  The handlers are in a table, and the block has for each
address the number of its handler, or 0.  Entry 0 of the table is the handler of
all addresses that nobody registered.

A new handler gets the entry behind the last one in use.  An entry is given back
only if it is the last one, when its function is the default one.

Main results:

- Theorem `findBlock_eq_some_iff`: the search finds the first run of free
  addresses, if there is one.
- Theorem `contract_iff`: what a call does wrong in a sound state.
- Theorem `handlers_iff`: the runs in which every call does what it promises.
-/

namespace Dosemu
namespace Core
namespace Hlt

variable {F : Type*}

/-- `MAX_HLT_HANDLERS` and `MAX_HLT_BLK_SIZE` -/
def maxHandlers : Nat := 100
def maxBlkSize : Nat := 4096

/-- `emu_hlt_t`, less the name and the argument, with `func` for the function.  No caller has
`hlt_default`, which is `none` in the table. -/
structure EmuHlt (F : Type*) where
  func : F
  len : Nat
  ret : Int

/-- `struct hlt_handler`; nothing but the function is set in entry 0. -/
structure Handler (F : Type*) where
  func : Option F
  len : Nat
  ret : Int
  startAddr : Nat

/-- `struct hlt_struct` -/
structure State (F : Type*) where
  handler : Nat → Handler F
  handlerId : Nat → Nat
  count : Nat
  blockSize : Nat

namespace State

/-- `hlt_init`; `blank` is what the memory of the table was before. -/
def hltInit (blank : Nat → Handler F) (size : Nat) : Option (State F) :=
  if size ≤ maxBlkSize then
    some { handler := Function.update blank 0 { blank 0 with func := none }
           handlerId := fun _ => 0
           count := 1
           blockSize := size }
  else none

/-- `hlt_handle`: the function that is called, and its first argument. -/
def hltHandle (s : State F) (offs : Nat) : Option F × Int :=
  let hlt := s.handler (s.handlerId offs)
  (hlt.func, offs - hlt.startAddr)

/-- The inner loop of the search: the first of `n` addresses that is in use. -/
def firstUsed (s : State F) (i : Nat) : Nat → Nat → Option Nat
  | 0, _ => none
  | n + 1, j => if s.handlerId (i + j) ≠ 0 then some j else firstUsed s i n (j + 1)

/-- The search of a free block; `fuel` bounds its turns. -/
def findBlock (s : State F) (len : Nat) : Nat → Nat → Option Nat
  | 0, _ => none
  | fuel + 1, i =>
      if i + len ≤ s.blockSize then
        match s.firstUsed i len 0 with
        | some j => findBlock s len fuel (i + j + 1)
        | none => some i
      else none

/-- `hlt_register_handler`: the address, or none for -1.  An assertion fails without entries. -/
def hltRegisterHandler (s : State F) (h : EmuHlt F) : Option (Option Nat × State F) :=
  if s.count = 0 then none
  else if maxHandlers ≤ s.count then some (none, s)
  else
    match s.findBlock h.len (s.blockSize + 1) 0 with
    | none => some (none, s)
    | some start =>
        some (some start, { s with
          handler := Function.update s.handler s.count ⟨some h.func, h.len, h.ret, start⟩
          handlerId := fun a => if start ≤ a ∧ a < start + h.len then s.count else s.handlerId a
          count := s.count + 1 })

/-- The end of `hlt_unregister_handler`: entries with the default function are given back. -/
def dropUnused (handler : Nat → Handler F) : Nat → Nat
  | 0 => 0
  | n + 1 => if (handler n).func.isNone then dropUnused handler n else n + 1

/-- `hlt_unregister_handler` -/
def hltUnregisterHandler (s : State F) (start : Nat) : Option (Int × State F) :=
  if s.blockSize ≤ start then none
  else
    let handle := s.handlerId start
    if handle = 0 then some (-1, s)
    else
      let h := s.handler handle
      let handler := Function.update s.handler handle { h with func := none }
      some (0, { s with
        handler := handler
        handlerId := fun a => if start ≤ a ∧ a < start + h.len then 0 else s.handlerId a
        count := dropUnused handler s.count })

/-- The addresses from `a` on are free. -/
def FreeRun (s : State F) (a len : Nat) : Prop :=
  a + len ≤ s.blockSize ∧ ∀ j, j < len → s.handlerId (a + j) = 0

variable {s t : State F} {i j n a len fuel : Nat}

/-! ## The search -/

theorem firstUsed_eq_none_iff :
    s.firstUsed i n j = none ↔ ∀ k, j ≤ k → k < j + n → s.handlerId (i + k) = 0 := by
  induction n generalizing j with
  | zero =>
      simp only [firstUsed, Nat.add_zero, true_iff]
      intro k hle hlt
      omega
  | succ n ih =>
      rw [firstUsed]
      by_cases hused : s.handlerId (i + j) ≠ 0
      · simp only [if_pos hused, reduceCtorEq, false_iff, not_forall]
        exact ⟨j, Nat.le_refl j, by omega, hused⟩
      · rw [if_neg hused, ih]
        rw [not_not] at hused
        constructor
        · intro h k hle hlt
          rcases Nat.eq_or_lt_of_le hle with rfl | hlt'
          · exact hused
          · exact h k hlt' (by omega)
        · intro h k hle hlt
          exact h k (by omega) (by omega)

theorem firstUsed_eq_some {k : Nat} (h : s.firstUsed i n j = some k) :
    j ≤ k ∧ k < j + n ∧ s.handlerId (i + k) ≠ 0 := by
  induction n generalizing j with
  | zero => cases h
  | succ n ih =>
      rw [firstUsed] at h
      by_cases hused : s.handlerId (i + j) ≠ 0
      · rw [if_pos hused] at h
        obtain rfl := Option.some.inj h
        exact ⟨Nat.le_refl _, by omega, hused⟩
      · rw [if_neg hused] at h
        have hrest := ih h
        exact ⟨by omega, by omega, hrest.2.2⟩

/-- The search from `i` on finds a free run exactly if there is one, and the first one. -/
theorem findBlock_spec (hlen : 0 < len) (hfuel : s.blockSize < i + fuel) :
    match s.findBlock len fuel i with
    | some a => i ≤ a ∧ s.FreeRun a len ∧ ∀ b, i ≤ b → b < a → ¬s.FreeRun b len
    | none => ∀ b, i ≤ b → ¬s.FreeRun b len := by
  induction fuel generalizing i with
  | zero =>
      rw [findBlock]
      intro b hle hfree
      have := hfree.1
      omega
  | succ fuel ih =>
      rw [findBlock]
      by_cases hin : i + len ≤ s.blockSize
      · rw [if_pos hin]
        cases hused : s.firstUsed i len 0 with
        | none =>
            rw [firstUsed_eq_none_iff] at hused
            refine ⟨Nat.le_refl i, ⟨hin, fun j hj => hused j (Nat.zero_le j) (by omega)⟩, ?_⟩
            intro b hle hlt
            omega
        | some j =>
            obtain ⟨-, hj, hne⟩ := firstUsed_eq_some hused
            -- A run that begins before the used address has it in it.
            have hskip : ∀ b, i ≤ b → b < i + j + 1 → ¬s.FreeRun b len := by
              intro b hle hlt hfree
              have hcell := hfree.2 (i + j - b) (by omega)
              rw [show b + (i + j - b) = i + j by omega] at hcell
              exact hne hcell
            have hrest := ih (i := i + j + 1) (by omega)
            simp only
            cases hfind : s.findBlock len fuel (i + j + 1) with
            | none =>
                rw [hfind] at hrest
                intro b hle
                rcases Nat.lt_or_ge b (i + j + 1) with hlt | hge
                · exact hskip b hle hlt
                · exact hrest b hge
            | some a =>
                rw [hfind] at hrest
                refine ⟨by have := hrest.1; omega, hrest.2.1, ?_⟩
                intro b hle hlt
                rcases Nat.lt_or_ge b (i + j + 1) with hlt' | hge
                · exact hskip b hle hlt'
                · exact hrest.2.2 b hge hlt
      · rw [if_neg hin]
        intro b hle hfree
        have := hfree.1
        omega

/-- There is a free run. -/
def HasRoom (s : State F) (len : Nat) : Prop :=
  ∃ a, s.FreeRun a len

/-- The search from the start of the block. -/
theorem findBlock_zero (hlen : 0 < len) :
    match s.findBlock len (s.blockSize + 1) 0 with
    | some a => 0 ≤ a ∧ s.FreeRun a len ∧ ∀ b, 0 ≤ b → b < a → ¬s.FreeRun b len
    | none => ∀ b, 0 ≤ b → ¬s.FreeRun b len :=
  findBlock_spec hlen (by omega)

theorem findBlock_eq_none_iff (hlen : 0 < len) :
    s.findBlock len (s.blockSize + 1) 0 = none ↔ ¬s.HasRoom len := by
  have hspec := findBlock_zero (s := s) hlen
  cases hfind : s.findBlock len (s.blockSize + 1) 0 with
  | none =>
      rw [hfind] at hspec
      simp only [true_iff]
      rintro ⟨a, ha⟩
      exact hspec a (Nat.zero_le a) ha
  | some a =>
      rw [hfind] at hspec
      simp only [reduceCtorEq, false_iff, not_not]
      exact ⟨a, hspec.2.1⟩

theorem findBlock_free (hlen : 0 < len) (h : s.findBlock len (s.blockSize + 1) 0 = some a) :
    s.FreeRun a len := by
  have hspec := findBlock_zero (s := s) hlen
  rw [h] at hspec
  exact hspec.2.1

/-! ## Entries that are given back -/

theorem dropUnused_le (handler : Nat → Handler F) (n : Nat) : dropUnused handler n ≤ n := by
  induction n with
  | zero => exact Nat.le_refl 0
  | succ n ih =>
      rw [dropUnused]
      split
      · omega
      · exact Nat.le_refl _

/-- An entry with a function of its own is kept. -/
theorem lt_dropUnused {handler : Nat → Handler F} {k : Nat} (hk : k < n)
    (hfunc : (handler k).func.isNone = false) : k < dropUnused handler n := by
  induction n with
  | zero => omega
  | succ n ih =>
      rw [dropUnused]
      split
      · next hnone =>
          apply ih
          rcases Nat.eq_or_lt_of_le (Nat.le_of_lt_succ hk) with heq | hlt
          · rw [heq, hnone] at hfunc
            cases hfunc
          · exact hlt
      · exact hk

end State

/-! ## Registrations -/

/-- A registration: the address that was returned for a handler. -/
structure Live (F : Type*) where
  start : Nat
  handler : EmuHlt F

def Live.len (l : Live F) : Nat :=
  l.handler.len

/-- The address is in the block of the registration. -/
def Live.Has (l : Live F) (offs : Nat) : Prop :=
  l.start ≤ offs ∧ offs < l.start + l.len

/-- The blocks share no address. -/
def Live.Apart (l l' : Live F) : Prop :=
  ∀ offs, l.Has offs → ¬l'.Has offs

/-- The table, and the registrations that were not taken back. -/
structure World (F : Type*) where
  state : State F
  live : List (Live F)

inductive Call (F : Type*) where
  | register (h : EmuHlt F)
  | unregister (start : Nat)

namespace World

/-- Blocks have at least one address, and only a live registration is taken back. -/
def Valid (w : World F) : Call F → Prop
  | .register h => 1 ≤ h.len
  | .unregister start => ∃ l ∈ w.live, l.start = start

instance (w : World F) (c : Call F) : Decidable (w.Valid c) :=
  match c with
  | .register h => inferInstanceAs (Decidable (1 ≤ h.len))
  | .unregister start => inferInstanceAs (Decidable (∃ l ∈ w.live, l.start = start))

/-- A call; there is no next state if an assertion fails. -/
def exec (w : World F) : Call F → Option (World F)
  | .register h => do
      let (r, state) ← w.state.hltRegisterHandler h
      match r with
      | none => return ⟨state, w.live⟩
      | some start => return ⟨state, ⟨start, h⟩ :: w.live⟩
  | .unregister start => do
      let (_, state) ← w.state.hltUnregisterHandler start
      return ⟨state, w.live.filter fun l => l.start ≠ start⟩

/-- The blocks of the registrations are apart and in the block of HLTs, and every address calls the
handler that is registered for it. -/
structure Sound (w : World F) : Prop where
  apart : w.live.Pairwise Live.Apart
  inside : ∀ l ∈ w.live, l.start + l.len ≤ w.state.blockSize
  handled : ∀ l ∈ w.live, ∀ offs, l.Has offs →
    w.state.hltHandle offs = (some l.handler.func, (offs : Int) - l.start)
  unhandled : ∀ offs, offs < w.state.blockSize → (∀ l ∈ w.live, ¬l.Has offs) →
    (w.state.hltHandle offs).1 = none

/-- There are `len` addresses that belong to no registration. -/
def HasRoom (w : World F) (len : Nat) : Prop :=
  ∃ a, a + len ≤ w.state.blockSize ∧ ∀ j, j < len → ∀ l ∈ w.live, ¬l.Has (a + j)

/-- What a valid call promises. -/
def Contract (w : World F) (c : Call F) : Prop :=
  w.Valid c → ∃ t, w.exec c = some t ∧ t.Sound ∧
    match c with
    | .register h =>
        (∃ start state, w.state.hltRegisterHandler h = some (some start, state)) ↔
          w.HasRoom h.len ∧ w.live.length < maxHandlers - 1
    | .unregister _ => True

/-- The table has an entry, and is not full of entries that cannot be given back. -/
def Careful (w : World F) (c : Call F) : Prop :=
  match c with
  | .register h => 1 ≤ h.len → w.state.count ≠ 0 ∧
      (w.state.count < maxHandlers ∨ maxHandlers - 1 ≤ w.live.length ∨ ¬w.HasRoom h.len)
  | .unregister _ => True

/-- The entry of a registration. -/
structure Registered (s : State F) (l : Live F) : Prop where
  pos : 0 < l.len
  inside : l.start + l.len ≤ s.blockSize
  cells : ∀ offs, l.Has offs → s.handlerId offs = s.handlerId l.start
  used : 0 < s.handlerId l.start ∧ s.handlerId l.start < s.count
  entry : s.handler (s.handlerId l.start) =
    ⟨some l.handler.func, l.handler.len, l.handler.ret, l.start⟩

/-- The invariant. -/
structure Inv (w : World F) : Prop where
  first : (w.state.handler 0).func = none
  count : w.state.count ≤ maxHandlers
  registered : ∀ l ∈ w.live, Registered w.state l
  distinct : w.live.Pairwise fun l l' =>
    w.state.handlerId l.start ≠ w.state.handlerId l'.start
  owned : ∀ offs, offs < w.state.blockSize → w.state.handlerId offs ≠ 0 →
    ∃ l ∈ w.live, l.Has offs

variable {w t : World F} {h : EmuHlt F} {l l' : Live F} {start : Nat}

theorem Inv.sound (hw : w.Inv) : w.Sound := by
  refine ⟨?_, fun l hl => (hw.registered l hl).inside, ?_, ?_⟩
  · apply hw.distinct.imp_of_mem
    intro l l' hl hl' hne offs hoffs hoffs'
    apply hne
    rw [← (hw.registered l hl).cells offs hoffs, ← (hw.registered l' hl').cells offs hoffs']
  · intro l hl offs hoffs
    have hreg := hw.registered l hl
    rw [State.hltHandle, hreg.cells offs hoffs, hreg.entry]
  · intro offs hlt hfree
    rw [State.hltHandle]
    by_cases hused : w.state.handlerId offs ≠ 0
    · obtain ⟨l, hl, hoffs⟩ := hw.owned offs hlt hused
      exact absurd hoffs (hfree l hl)
    · rw [not_not] at hused
      rw [hused]
      exact hw.first

/-- Addresses of no registration are free. -/
theorem Inv.hasRoom_iff (hw : w.Inv) (len : Nat) : w.HasRoom len ↔ w.state.HasRoom len := by
  constructor
  · rintro ⟨a, hin, hfree⟩
    refine ⟨a, hin, fun j hj => ?_⟩
    by_contra hused
    obtain ⟨l, hl, hoffs⟩ := hw.owned (a + j) (by omega) hused
    exact hfree j hj l hl hoffs
  · rintro ⟨a, hin, hfree⟩
    refine ⟨a, hin, fun j hj l hl hoffs => ?_⟩
    have hreg := hw.registered l hl
    have hused := hreg.used.1
    rw [← hreg.cells _ hoffs, hfree j hj] at hused
    exact absurd hused (Nat.lt_irrefl 0)

/-- Every registration has an entry of its own, behind the first. -/
theorem Inv.length_lt (hw : w.Inv) : w.live.length ≤ w.state.count - 1 := by
  have hnodup : (w.live.map fun l => w.state.handlerId l.start).Nodup := by
    rw [List.Nodup, List.pairwise_map]
    exact hw.distinct
  have hsub : w.live.map (fun l => w.state.handlerId l.start) ⊆
      List.range' 1 (w.state.count - 1) := by
    intro k hk
    rw [List.mem_map] at hk
    obtain ⟨l, hl, rfl⟩ := hk
    have hused := (hw.registered l hl).used
    rw [List.mem_range'_1]
    omega
  have hle := (hnodup.subperm hsub).length_le
  rw [List.length_map, List.length_range'] at hle
  exact hle

/-- The outcomes of a registration. -/
theorem register_cases (hcount : w.state.count ≠ 0) :
    (w.exec (.register h) = some w ∧
      w.state.hltRegisterHandler h = some (none, w.state) ∧
      (maxHandlers ≤ w.state.count ∨
        w.state.findBlock h.len (w.state.blockSize + 1) 0 = none)) ∨
    ∃ a state, w.state.count < maxHandlers ∧
      w.state.findBlock h.len (w.state.blockSize + 1) 0 = some a ∧
      w.state.hltRegisterHandler h = some (some a, state) ∧
      w.exec (.register h) = some ⟨state, ⟨a, h⟩ :: w.live⟩ ∧
      state.handler = Function.update w.state.handler w.state.count
        ⟨some h.func, h.len, h.ret, a⟩ ∧
      (∀ offs, state.handlerId offs =
        if a ≤ offs ∧ offs < a + h.len then w.state.count else w.state.handlerId offs) ∧
      state.count = w.state.count + 1 ∧ state.blockSize = w.state.blockSize := by
  rw [exec, State.hltRegisterHandler, if_neg hcount]
  by_cases hfull : maxHandlers ≤ w.state.count
  · left
    rw [if_pos hfull]
    exact ⟨rfl, rfl, .inl hfull⟩
  · rw [if_neg hfull]
    cases hfind : w.state.findBlock h.len (w.state.blockSize + 1) 0 with
    | none =>
        left
        exact ⟨rfl, rfl, .inr rfl⟩
    | some a =>
        right
        exact ⟨a, _, Nat.not_le.mp hfull, rfl, rfl, rfl, rfl, fun _ => rfl, rfl, rfl⟩

/-- A registration keeps the others. -/
theorem Inv.register {state : State F} {a : Nat} (hw : w.Inv) (hlen : 1 ≤ h.len)
    (hlt : w.state.count < maxHandlers) (hcount : w.state.count ≠ 0)
    (hfree : w.state.FreeRun a h.len)
    (hhandler : state.handler = Function.update w.state.handler w.state.count
      ⟨some h.func, h.len, h.ret, a⟩)
    (hid : ∀ offs, state.handlerId offs =
      if a ≤ offs ∧ offs < a + h.len then w.state.count else w.state.handlerId offs)
    (hnext : state.count = w.state.count + 1) (hsize : state.blockSize = w.state.blockSize) :
    Inv ⟨state, ⟨a, h⟩ :: w.live⟩ := by
  -- The block was free, so that it has no address of a live block.
  have hkept : ∀ l ∈ w.live, ∀ offs, l.Has offs →
      state.handlerId offs = w.state.handlerId offs := by
    intro l hl offs hoffs
    have hreg := hw.registered l hl
    rw [hid, if_neg]
    intro hin
    have hcell := hfree.2 (offs - a) (by omega)
    rw [Nat.add_sub_cancel' hin.1, hreg.cells offs hoffs] at hcell
    exact absurd hcell (Nat.pos_iff_ne_zero.mp hreg.used.1)
  have hstart : ∀ l ∈ w.live, state.handlerId l.start = w.state.handlerId l.start := by
    intro l hl
    have hpos := (hw.registered l hl).pos
    exact hkept l hl l.start ⟨Nat.le_refl _, by omega⟩
  have hnew : state.handlerId a = w.state.count := by
    rw [hid, if_pos ⟨Nat.le_refl a, by omega⟩]
  refine ⟨?_, ?_, ?_, ?_, ?_⟩
  · rw [hhandler, Function.update_of_ne hcount.symm]
    exact hw.first
  · rw [hnext]
    exact hlt
  · intro l hl
    rcases List.mem_cons.mp hl with rfl | hl
    · refine ⟨hlen, by rw [hsize]; exact hfree.1, ?_, ?_, ?_⟩
      · intro offs hoffs
        rw [hnew, hid]
        exact if_pos hoffs
      · rw [hnew, hnext]
        exact ⟨Nat.pos_of_ne_zero hcount, Nat.lt_succ_self _⟩
      · rw [hnew, hhandler, Function.update_self]
    · have hreg := hw.registered l hl
      refine ⟨hreg.pos, by rw [hsize]; exact hreg.inside, ?_, ?_, ?_⟩
      · intro offs hoffs
        rw [hstart l hl, hkept l hl offs hoffs]
        exact hreg.cells offs hoffs
      · rw [hstart l hl, hnext]
        exact ⟨hreg.used.1, Nat.lt_succ_of_lt hreg.used.2⟩
      · rw [hstart l hl, hhandler, Function.update_of_ne (Nat.ne_of_lt hreg.used.2)]
        exact hreg.entry
  · rw [List.pairwise_cons]
    constructor
    · intro l hl
      have hused := (hw.registered l hl).used
      rw [hnew, hstart l hl]
      exact (Nat.ne_of_lt hused.2).symm
    · apply hw.distinct.imp_of_mem
      intro l l' hl hl' hne
      rw [hstart l hl, hstart l' hl']
      exact hne
  · intro offs hoffs hused
    by_cases hin : a ≤ offs ∧ offs < a + h.len
    · exact ⟨⟨a, h⟩, List.mem_cons_self, hin⟩
    · rw [hid, if_neg hin] at hused
      obtain ⟨l, hl, hhas⟩ := hw.owned offs (hsize ▸ hoffs) hused
      exact ⟨l, List.mem_cons_of_mem _ hl, hhas⟩

/-- A registration that is taken back leaves the others. -/
theorem Inv.unregister (hw : w.Inv) (hl : l ∈ w.live) :
    ∃ state, w.exec (.unregister l.start) =
        some ⟨state, w.live.filter fun l' => l'.start ≠ l.start⟩ ∧
      Inv ⟨state, w.live.filter fun l' => l'.start ≠ l.start⟩ := by
  have hreg := hw.registered l hl
  have hin : ¬w.state.blockSize ≤ l.start := by
    have := hreg.inside
    have := hreg.pos
    omega
  have hne : w.state.handlerId l.start ≠ 0 := Nat.pos_iff_ne_zero.mp hreg.used.1
  rw [exec, State.hltUnregisterHandler, if_neg hin]
  simp only [if_neg hne, Option.bind_eq_bind, Option.bind_some]
  refine ⟨_, rfl, ?_⟩
  rw [hreg.entry]
  -- Another live block has another entry, and none of the addresses that are freed.
  have hother : ∀ l' ∈ w.live, l'.start ≠ l.start →
      w.state.handlerId l'.start ≠ w.state.handlerId l.start := by
    intro l' hl' hstart heq
    have hentry := (hw.registered l' hl').entry
    rw [heq, hreg.entry] at hentry
    exact hstart (congrArg Handler.startAddr hentry).symm
  have hkept : ∀ l' ∈ w.live, l'.start ≠ l.start → ∀ offs, l'.Has offs →
      (if l.start ≤ offs ∧ offs < l.start + l.handler.len then 0 else w.state.handlerId offs) =
        w.state.handlerId offs := by
    intro l' hl' hstart offs hoffs
    rw [if_neg]
    intro hfreed
    apply hother l' hl' hstart
    rw [← (hw.registered l' hl').cells offs hoffs, hreg.cells offs hfreed]
  refine ⟨?_, ?_, ?_, ?_, ?_⟩
  · simp only
    rw [Function.update_of_ne hne.symm]
    exact hw.first
  · exact (State.dropUnused_le _ _).trans hw.count
  · intro l' hl'
    rw [List.mem_filter, decide_eq_true_eq] at hl'
    have hreg' := hw.registered l' hl'.1
    have hhas : l'.Has l'.start := ⟨Nat.le_refl _, by have := hreg'.pos; omega⟩
    have hentry : Function.update w.state.handler (w.state.handlerId l.start)
        ⟨none, l.handler.len, l.handler.ret, l.start⟩ (w.state.handlerId l'.start) =
        ⟨some l'.handler.func, l'.handler.len, l'.handler.ret, l'.start⟩ := by
      rw [Function.update_of_ne (hother l' hl'.1 hl'.2)]
      exact hreg'.entry
    refine ⟨hreg'.pos, hreg'.inside, ?_, ?_, ?_⟩
    · intro offs hoffs
      simp only
      rw [hkept l' hl'.1 hl'.2 offs hoffs, hkept l' hl'.1 hl'.2 _ hhas]
      exact hreg'.cells offs hoffs
    · simp only
      rw [hkept l' hl'.1 hl'.2 _ hhas]
      refine ⟨hreg'.used.1, State.lt_dropUnused hreg'.used.2 ?_⟩
      rw [hentry]
      rfl
    · simp only
      rw [hkept l' hl'.1 hl'.2 _ hhas]
      exact hentry
  · apply (hw.distinct.filter _).imp_of_mem
    intro l₁ l₂ hl₁ hl₂ hdistinct
    rw [List.mem_filter, decide_eq_true_eq] at hl₁ hl₂
    have hhas₁ : l₁.Has l₁.start := ⟨Nat.le_refl _, by have := (hw.registered l₁ hl₁.1).pos; omega⟩
    have hhas₂ : l₂.Has l₂.start := ⟨Nat.le_refl _, by have := (hw.registered l₂ hl₂.1).pos; omega⟩
    simp only
    rw [hkept l₁ hl₁.1 hl₁.2 _ hhas₁, hkept l₂ hl₂.1 hl₂.2 _ hhas₂]
    exact hdistinct
  · intro offs hoffs hused
    simp only at hused
    by_cases hfreed : l.start ≤ offs ∧ offs < l.start + l.handler.len
    · rw [if_pos hfreed] at hused
      exact absurd rfl hused
    · rw [if_neg hfreed] at hused
      obtain ⟨l', hl', hhas⟩ := hw.owned offs hoffs hused
      refine ⟨l', ?_, hhas⟩
      rw [List.mem_filter, decide_eq_true_eq]
      refine ⟨hl', fun hstart => ?_⟩
      have hentry := (hw.registered l' hl').entry
      rw [hstart, hreg.entry] at hentry
      have hlen := congrArg Handler.len hentry
      apply hfreed
      rw [← hstart]
      have := hhas
      simp only [Live.Has, Live.len] at this
      simp only at hlen
      omega

/-- A valid call keeps its promise exactly if it is careful. -/
theorem contract_iff (hw : w.Inv) (c : Call F) : w.Contract c ↔ w.Careful c := by
  cases c with
  | unregister start =>
      refine iff_of_true ?_ trivial
      rintro ⟨l, hl, rfl⟩
      obtain ⟨state, hexec, hinv⟩ := hw.unregister hl
      exact ⟨_, hexec, hinv.sound, trivial⟩
  | register h =>
      have hroom := hw.hasRoom_iff h.len
      have hlength := hw.length_lt
      constructor
      · intro hcontract hlen
        obtain ⟨t, hexec, -, hregistered⟩ := hcontract hlen
        have hcount : w.state.count ≠ 0 := by
          intro hzero
          rw [exec, State.hltRegisterHandler, if_pos hzero] at hexec
          cases hexec
        refine ⟨hcount, ?_⟩
        by_contra hbad
        rw [not_or, not_or, not_not, Nat.not_lt, Nat.not_le] at hbad
        obtain ⟨start, state, hsome⟩ := hregistered.mpr ⟨hbad.2.2, hbad.2.1⟩
        rw [State.hltRegisterHandler, if_neg hcount, if_pos hbad.1] at hsome
        cases hsome
      · intro hcareful hlen
        obtain ⟨hcount, hok⟩ := hcareful hlen
        rcases register_cases (h := h) hcount with ⟨hexec, hnone, hwhy⟩ |
          ⟨a, state, hlt, hfind, hsome, hexec, hhandler, hid, hnext, hsize⟩
        · refine ⟨w, hexec, hw.sound, ?_⟩
          simp only [hnone, Option.some.injEq, Prod.mk.injEq, reduceCtorEq, false_and,
            exists_false, false_iff, not_and, Nat.not_lt]
          intro hhas
          rcases hwhy with hfull | hfind
          · rcases hok with hlt | hlive | hno
            · omega
            · exact hlive
            · exact absurd hhas hno
          · exact absurd (hroom.mp hhas) ((State.findBlock_eq_none_iff hlen).mp hfind)
        · have hfree := State.findBlock_free hlen hfind
          have hinv := hw.register hlen hlt hcount hfree hhandler hid hnext hsize
          refine ⟨_, hexec, hinv.sound, ?_⟩
          refine iff_of_true ⟨a, state, hsome⟩ ⟨hroom.mpr ⟨a, hfree⟩, ?_⟩
          omega

theorem Inv.exec (hw : w.Inv) {c : Call F} (hc : w.Careful c) (hvalid : w.Valid c)
    (h : w.exec c = some t) : t.Inv := by
  cases c with
  | unregister start =>
      obtain ⟨l, hl, rfl⟩ := hvalid
      obtain ⟨state, hexec, hinv⟩ := hw.unregister hl
      rw [hexec] at h
      cases h
      exact hinv
  | register h' =>
      obtain ⟨hcount, -⟩ := hc hvalid
      rcases register_cases (h := h') hcount with ⟨hexec, -⟩ |
        ⟨a, state, hlt, hfind, -, hexec, hhandler, hid, hnext, hsize⟩
      · rw [hexec] at h
        cases h
        exact hw
      · rw [hexec] at h
        cases h
        exact hw.register hvalid hlt hcount (State.findBlock_free hvalid hfind) hhandler hid
          hnext hsize

/-! ## Runs -/

/-- A table that was just set up. -/
def fresh (blank : Nat → Handler F) (size : Nat) : Option (World F) :=
  (State.hltInit blank size).map fun s => ⟨s, []⟩

/-- One valid call. -/
def next (w : World F) (c : Call F) : Option (World F) :=
  if w.Valid c then w.exec c else none

theorem fresh_inv {blank : Nat → Handler F} {size : Nat} (h : fresh blank size = some w) :
    w.Inv := by
  rw [fresh, State.hltInit] at h
  split at h
  · cases h
    refine ⟨?_, show 1 ≤ maxHandlers by decide, fun l hl => absurd hl List.not_mem_nil,
      List.Pairwise.nil, ?_⟩
    · simp only
      rw [Function.update_self]
    · intro offs _ hused
      exact absurd rfl hused
  · cases h

/-- In a run every valid call keeps its promise exactly if every registration finds an entry in the
table, and the table full only of entries in use. -/
theorem handlers_iff (blank : Nat → Handler F) (size : Nat) (hsize : size ≤ maxBlkSize) :
    ∃ w, fresh blank size = some w ∧ w.Sound ∧
      ∀ cs, Run.Admits next Contract w cs ↔ Run.Admits next Careful w cs := by
  have hfresh : ∃ w, fresh blank size = some w := by
    rw [fresh, State.hltInit, if_pos hsize]
    exact ⟨_, rfl⟩
  obtain ⟨w, hw⟩ := hfresh
  have hinv := fresh_inv hw
  refine ⟨w, hw, hinv.sound, fun cs => ?_⟩
  apply Run.admits_congr Inv _ (fun w c hw => contract_iff hw c) hinv
  intro w c t hw hc hnext
  rw [next] at hnext
  split at hnext
  · next hvalid => exact hw.exec hc hvalid hnext
  · cases hnext

/-- A table of no handlers. -/
def noHandlers (_ : Nat) : Handler Unit :=
  ⟨none, 0, 0, 0⟩

theorem handlers_iff_block : ∃ w, fresh noHandlers 16 = some w ∧ w.Sound ∧
    ∀ cs, Run.Admits next Contract w cs ↔ Run.Admits next Careful w cs :=
  handlers_iff noHandlers 16 (by decide)

/-- Once the only handler is taken back, there is no entry left, and the next registration fails
its assertion. -/
theorem last_unregistration_aborts : ∃ w, fresh noHandlers 16 = some w ∧
    ¬∀ cs, Run.Admits next Contract w cs := by
  refine ⟨_, rfl, fun hall => ?_⟩
  have hcontract := (((hall [.register ⟨(), 1, 2⟩, .unregister 0, .register ⟨(), 1, 2⟩]).2 _
    rfl).2 _ rfl).1
  obtain ⟨t, hexec, -⟩ := hcontract (Nat.le_refl 1)
  cases hexec

end World

end Hlt
end Core
end Dosemu
