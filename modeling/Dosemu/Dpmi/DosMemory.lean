import Dosemu.Dpmi.Ownership

/-!
# DOS memory and its descriptors

Functions 0100h, 0101h and 0102h of the host: a client asks DOS for memory, gives
it back or resizes it, and the memory is described by consecutive descriptors of
64 KiB each.

The descriptors are allocated, freed or resized before DOS is asked; when DOS
refuses, the return path takes that back with `ResizeDescriptorBlock`.

Main results:

- Theorem `resize_fails`, `resize_succeeds`: what `ResizeDescriptorBlock` does to
  a block.
- Theorem `allocate_cases`: what function 0100h does, with either answer of DOS.
-/

namespace Dosemu
namespace Dpmi
namespace DosMemory

/-- The registers of the client that these functions use. -/
structure Regs where
  ax : BitVec 16
  bx : BitVec 16
  dx : BitVec 16
  cf : Bool
  ds : BitVec 16
  es : BitVec 16
  fs : BitVec 16
  gs : BitVec 16

/-- The host and the client that it serves. -/
structure Machine where
  state : State
  regs : Regs

/-- `FreeSegRegs` -/
def freeSegRegs (r : Regs) (selector : BitVec 16) : Regs :=
  let clear (seg : BitVec 16) : BitVec 16 :=
    if seg ||| 7#16 = selector ||| 7#16 then 0 else seg
  { r with ds := clear r.ds, es := clear r.es, fs := clear r.fs, gs := clear r.gs }

/-- `num_descs`, an `unsigned short`. -/
def numDescs (is32 : BitVec 1) (length : Nat) : Nat :=
  (if length = 0 then 0
  else if is32 = 1 then 1
  else length / 0x10000 + if length % 0x10000 ≠ 0 then 1 else 0) % 2 ^ 16

/-- `begin_selector + (i<<3)` as an argument of type `unsigned short`. -/
def blockSelector (begin : BitVec 16) (i : Nat) : BitVec 16 :=
  begin + BitVec.ofNat 16 (8 * i)

/-- The limit of the last of several descriptors. -/
def lastLimit (length : BitVec 32) : BitVec 32 :=
  if length % 0x10000#32 ≠ 0 then length % 0x10000#32 - 1 else 0xffff#32

/-- A loop that writes the descriptors from number `i` on, until a write fails. -/
def fillBlock (host : Host) (begin : BitVec 16) (fields : Nat → SegDesc) :
    State → Nat → Nat → Bool × State
  | s, _, 0 => (true, s)
  | s, i, n + 1 =>
      let (ret, s) := s.setSelector host (blockSelector begin i) (fields i)
      if ret ≠ 0 then (false, s) else fillBlock host begin fields s (i + 1) n

/-- The first part of `ResizeDescriptorBlock`: a block that grows. -/
def growBlock (host : Host) (m : Machine) (begin : BitVec 16) (base oldLength : BitVec 32)
    (old num : Nat) : Bool × Machine :=
  if num ≤ old then (true, m)
  else
    let (selector, s) := m.state.allocateDescriptorsAt host (blockSelector begin old) (num - old)
    if selector = 0 then
      (false, ⟨s, { m.regs with ax := 0x8011, bx := (oldLength >>> 4).setWidth 16 }⟩)
    else
      let (ret, s) := s.setSegmentLimit host (blockSelector begin old - 8#16) 0xffff
      if ret ≠ 0 then (false, { m with state := s })
      else
        let (done, s) := fillBlock host begin
          (fun i => dataSegment (base + BitVec.ofNat 32 (i * 0x10000)) 0xffff m.state.dpmiClient.is32)
          s old (num - old)
        (done, { m with state := s })

/-- The loop of `ResizeDescriptorBlock` for a block that shrinks. -/
def freeBlock (host : Host) (begin : BitVec 16) : Machine → Nat → Nat → Machine
  | m, _, 0 => m
  | m, i, n + 1 =>
      let selector := blockSelector begin i
      freeBlock host begin
        ⟨(m.state.freeDescriptor host selector).2, freeSegRegs m.regs selector⟩ (i + 1) n

/-- The last part of `ResizeDescriptorBlock`: the limits of the first and the last descriptor. -/
def limitBlock (host : Host) (s : State) (begin : BitVec 16) (num : Nat) (length : BitVec 32) :
    Bool × State :=
  let (ret, s) := if 0 < num then s.setSegmentLimit host begin (length - 1) else (0, s)
  if ret ≠ 0 then (false, s)
  else
    let (ret, s) :=
      if 1 < num then s.setSegmentLimit host (blockSelector begin (num - 1)) (lastLimit length)
      else (0, s)
    (ret = 0, s)

/-- `ResizeDescriptorBlock` -/
def resizeDescriptorBlock (host : Host) (m : Machine) (begin : BitVec 16) (length : BitVec 32) :
    Bool × Machine :=
  if !m.state.validAndUsedSelector begin then (false, m)
  else
    let is32 := m.state.dpmiClient.is32
    let base := m.state.getSegmentBase begin
    let oldLength := m.state.getSegmentLimit begin + 1#32
    let old := numDescs is32 oldLength.toNat
    let num := numDescs is32 length.toNat
    let (grown, m) := growBlock host m begin base oldLength old num
    if !grown then (false, m)
    else
      let m := freeBlock host begin m num (old - num)
      let (done, s) := limitBlock host m.state begin num length
      (done, { m with state := s })

/-- `_LWORD(ebx) << 4` -/
def bytes (paras : BitVec 16) : BitVec 32 :=
  paras.setWidth 32 <<< 4

/-- `_LWORD(ebx) = length >> 4` -/
def paragraphs (length : BitVec 32) : BitVec 16 :=
  (length >>> 4).setWidth 16

/-- Function 0100h, before DOS is asked: whether DOS is. -/
def allocateDos (host : Host) (m : Machine) : Bool × Machine :=
  let is32 := m.state.dpmiClient.is32
  let length := bytes m.regs.bx
  let num := numDescs is32 length.toNat
  if num = 0 then (false, m)
  else
    let (selector, s) := m.state.allocateDescriptors host num
    if selector = 0 then (false, { m with state := s })
    else
      let regs := { m.regs with dx := selector }
      let (ret, s) := s.setSelector host selector (dataSegment 0 (length - 1) is32)
      if ret ≠ 0 then (false, ⟨s, regs⟩)
      else
        let (done, s) := fillBlock host selector (fun _ => dataSegment 0 0xffff is32) s 1 (num - 2)
        if !done then (false, ⟨s, regs⟩)
        else
          let (ret, s) :=
            if 1 < num then
              s.setSelector host (blockSelector selector (num - 1))
                (dataSegment 0 (lastLimit length) is32)
            else (0, s)
          (ret = 0, ⟨s, regs⟩)

/-- Functions 0101h and 0102h, before DOS is asked. -/
def freeDos (host : Host) (m : Machine) : Bool × Machine :=
  resizeDescriptorBlock host m m.regs.dx 0

def resizeDos (host : Host) (m : Machine) : Bool × Machine :=
  if !m.state.validAndUsedSelector m.regs.dx then (false, m)
  else
    let oldLength := m.state.getSegmentLimit m.regs.dx + 1#32
    let (done, m) := resizeDescriptorBlock host m m.regs.dx (bytes m.regs.bx)
    if !done then (false, m)
    else (true, { m with regs := { m.regs with bx := paragraphs oldLength } })

/-- What DOS answers. -/
structure DosAnswer where
  carry : Bool
  ax : BitVec 16
  bx : BitVec 16

/-- The loop that sets the base addresses of a new block; errors are only reported. -/
def baseBlock (host : Host) (begin : BitVec 16) (base : BitVec 32) : State → Nat → Nat → State
  | s, _, 0 => s
  | s, i, n + 1 =>
      baseBlock host begin base
        (s.setSegmentBaseAddress host (blockSelector begin i)
          (base + BitVec.ofNat 32 (i * 0x10000))).2 (i + 1) n

/-- The end of a call for which DOS has reported an error. -/
def returnError (host : Host) (m : Machine) (a : DosAnswer) : Machine :=
  let m :=
    if m.regs.ax = 0x0100 then (resizeDescriptorBlock host m m.regs.dx 0).2
    else if m.regs.ax = 0x0102 then
      (resizeDescriptorBlock host m m.regs.dx (bytes m.regs.bx)).2
    else m
  { m with
    regs := { m.regs with
      bx := if m.regs.ax ≠ 0x0101 then a.bx else m.regs.bx
      ax := a.ax
      cf := true } }

/-- The end of a call that DOS has completed. -/
def returnDone (host : Host) (m : Machine) (a : DosAnswer) : Machine :=
  if m.regs.ax = 0x0100 then
    let length := m.state.getSegmentLimit m.regs.dx + 1#32
    let num := numDescs m.state.dpmiClient.is32 length.toNat
    ⟨baseBlock host m.regs.dx (bytes a.ax) m.state 0 num,
      { m.regs with ax := a.ax, bx := paragraphs length }⟩
  else if m.regs.ax = 0x0102 then
    let length :=
      if m.state.validAndUsedSelector m.regs.dx then m.state.getSegmentLimit m.regs.dx + 1#32
      else 0
    { m with regs := { m.regs with bx := paragraphs length } }
  else m

/-- `do_int31` for the functions of DOS memory, up to where DOS is asked. -/
def askDos (host : Host) (m : Machine) : Bool × Machine :=
  if m.regs.ax = 0x0100 then allocateDos host m
  else if m.regs.ax = 0x0101 then freeDos host m
  else resizeDos host m

/-- A call of a DOS memory function: `do_int31`, and `dpmi_realmode_hlt` when DOS returns. -/
def int31 (host : Host) (m : Machine) (a : DosAnswer) : Machine :=
  let (asked, m) := askDos host { m with regs := { m.regs with cf := false } }
  if !asked then { m with regs := { m.regs with cf := true } }
  else if a.carry then returnError host m a
  else returnDone host m a

/-! ## Single descriptors -/

/-- The kernel takes the data segments that it is asked to install. -/
def Accepts (host : Host) : Prop :=
  host.native = true → ∀ n info, info.entryNumber < maxSelectors → info.contents = 0 →
    info.limit.toNat < 2 ^ 20 → host.nativeWriteLdt n info = 0

/-- One entry was written. -/
structure Sets (s t : State) (e : Nat) (f : SegDesc) : Prop extends OnlyTable s t where
  written : t.segments e = f
  others : ∀ x, x ≠ e → t.segments x = s.segments x

variable {host : Host} {s t : State} {f : SegDesc} {sel : BitVec 16}

theorem setLdtEntry_sets (hhost : Accepts host) {e : Nat} (he : e < maxSelectors)
    (htype : f.type = 0) (hlimit : f.limit.toNat < 2 ^ 20) :
    (s.setLdtEntry host e f).1 = 0 ∧ Sets s (s.setLdtEntry host e f).2 e f := by
  have htable := setLdtEntry_onlyTable host s e f
  revert htable
  unfold State.setLdtEntry State.putLdt emuWriteLdt
  have hret : (if host.native = true then host.nativeWriteLdt s.kernelWrites
      ⟨e, f.baseAddr, f.limit, f.is32, f.type, f.readonly, f.isBig, f.notPresent, f.useable⟩
      else 0) = 0 := by
    split
    · next hnative => exact hhost hnative _ _ he htype hlimit
    · rfl
  have hcontents : ¬(f.type = 3 ∧ f.notPresent = 0) := by
    rw [htype]
    rintro ⟨h, -⟩
    cases h
  simp only [hret, ne_eq, not_true_eq_false, if_false, if_neg (Nat.not_le.mpr he), if_neg hcontents]
  intro htable
  refine ⟨trivial, htable, ?_, ?_⟩
  · simp only [State.segments, Function.update_self]
    exact segments_emuUpdateLdt hlimit
  · intro x hx
    simp only [State.segments, Function.update_of_ne hx]
    split <;> rfl

/-- An entry of the client whose descriptors are considered. -/
def Owned (s : State) (sel : BitVec 16) : Prop :=
  sel.getLsbD 2 = true ∧ s.user (ldtEntry sel) = s.currentClient + 1 ∧ s.currentClient < maxClients

theorem Owned.byClient (h : Owned s sel) : s.OwnedByClient sel :=
  ⟨h.1, _, h.2.2, h.2.1⟩

theorem Owned.mono (h : Owned s sel) (ht : OnlyTable s t) : Owned t sel := by
  rw [Owned, ht.user, ht.currentClient]
  exact h

theorem setSelector_sets (hhost : Accepts host) (howned : Owned s sel) (htype : f.type = 0)
    (hlimit : f.limit.toNat < 2 ^ 20) :
    (s.setSelector host sel f).1 = 0 ∧ Sets s (s.setSelector host sel f).2 (ldtEntry sel) f := by
  obtain ⟨hret, hsets⟩ := setLdtEntry_sets (s := s) hhost (ldtEntry_lt sel) htype hlimit
  have hvalid := howned.byClient.valid
  rw [State.validAndUsedSelector, Bool.and_eq_true, bne_iff_ne] at hvalid
  have huse : (!s.dpmiValidSelector sel || s.user (ldtEntry sel) == 0) = false := by
    rw [hvalid.1, beq_eq_false_iff_ne.mpr hvalid.2]
    rfl
  unfold State.setSelector
  rw [huse]
  simp only [Bool.false_eq_true, if_false]
  refine ⟨?_, hsets⟩
  rw [if_neg (not_not.mpr hret)]

theorem ldtSelector_owned (howned : Owned s sel) : Owned s (ldtSelector (ldtEntry sel)) := by
  refine ⟨ldtSelector_ti _, ?_, howned.2.2⟩
  rw [ldtEntry_ldtSelector (ldtEntry_lt sel)]
  exact howned.2.1

theorem setSegmentBaseAddress_sets (hhost : Accepts host) (howned : Owned s sel)
    (htype : (s.segments (ldtEntry sel)).type = 0) (base : BitVec 32) :
    Sets s (s.setSegmentBaseAddress host sel base).2 (ldtEntry sel)
      { s.segments (ldtEntry sel) with baseAddr := base } := by
  unfold State.setSegmentBaseAddress
  simp only [(ldtSelector_owned howned).byClient.valid, Bool.not_true, Bool.false_eq_true, if_false]
  exact (setLdtEntry_sets (f := { s.segments (ldtEntry sel) with baseAddr := base }) hhost
    (ldtEntry_lt sel) htype (limit_lt _)).2

theorem setSegmentLimit_sets (hhost : Accepts host) (howned : Owned s sel)
    (htype : (s.segments (ldtEntry sel)).type = 0) {limit : BitVec 32}
    (hlimit : limit.toNat < 2 ^ 20) :
    (s.setSegmentLimit host sel limit).1 = 0 ∧
      Sets s (s.setSegmentLimit host sel limit).2 (ldtEntry sel)
        { s.segments (ldtEntry sel) with limit := limit, isBig := 0 } := by
  have hsmall : ¬0x0fffff#32 < limit := by
    rw [BitVec.lt_def]
    exact Nat.not_lt.mpr (Nat.le_of_lt_succ hlimit)
  unfold State.setSegmentLimit
  simp only [(ldtSelector_owned howned).byClient.valid, Bool.not_true, Bool.false_eq_true, if_false,
    if_neg hsmall]
  exact setLdtEntry_sets hhost (ldtEntry_lt sel) htype hlimit

/-! ## Consecutive descriptors -/

/-- The entries from `first` on belong to the client. -/
structure OwnsRange (s : State) (first n : Nat) : Prop where
  client : s.currentClient < maxClients
  fits : first + n ≤ maxSelectors
  user : ∀ x, first ≤ x → x < first + n → s.user x = s.currentClient + 1

/-- The entries from `first` on were written, and no others. -/
structure Fills (s t : State) (first n : Nat) (g : Nat → SegDesc) : Prop extends OnlyTable s t where
  inside : ∀ x, first ≤ x → x < first + n → t.segments x = g x
  outside : ∀ x, ¬(first ≤ x ∧ x < first + n) → t.segments x = s.segments x

variable {u : State} {g : Nat → SegDesc} {begin : BitVec 16} {first i n : Nat}

theorem Fills.nothing (s : State) (first : Nat) (g : Nat → SegDesc) : Fills s s first 0 g where
  toOnlyTable := OnlyTable.refl s
  inside _ hlo hhi := absurd hhi (Nat.not_lt.mpr hlo)
  outside _ _ := rfl

/-- One entry more, at the front. -/
theorem Sets.cons {f : SegDesc} (h : Sets s t first f) (h' : Fills t u (first + 1) n g)
    (hf : g first = f) : Fills s u first (n + 1) g where
  toOnlyTable := h.toOnlyTable.trans h'.toOnlyTable
  inside x hlo hhi := by
    by_cases hx : x = first
    · rw [h'.outside x (by omega), hx, h.written, hf]
    · exact h'.inside x (by omega) (by omega)
  outside x hx := by
    rw [h'.outside x (by omega), h.others x (by omega)]

theorem OwnsRange.mono (h : OwnsRange s first n) (ht : OnlyTable s t) : OwnsRange t first n where
  client := ht.currentClient ▸ h.client
  fits := h.fits
  user x hlo hhi := by
    rw [ht.user, ht.currentClient]
    exact h.user x hlo hhi

theorem OwnsRange.tail (h : OwnsRange s first (n + 1)) : OwnsRange s (first + 1) n where
  client := h.client
  fits := by
    have := h.fits
    omega
  user x hlo hhi := h.user x (by omega) (by omega)

theorem OwnsRange.owned (h : OwnsRange s first n) (hti : sel.getLsbD 2 = true)
    (hlo : first ≤ ldtEntry sel) (hhi : ldtEntry sel < first + n) : Owned s sel :=
  ⟨hti, h.user _ hlo hhi, h.client⟩

theorem ldtEntry_eq_div (sel : BitVec 16) : ldtEntry sel = sel.toNat / 8 := by
  rw [ldtEntry, BitVec.toNat_ushiftRight, Nat.shiftRight_eq_div_pow]

theorem toNat_blockSelector (begin : BitVec 16) (i : Nat) :
    (blockSelector begin i).toNat = (begin.toNat + 8 * i) % 65536 := by
  rw [blockSelector, BitVec.toNat_add, BitVec.toNat_ofNat]
  omega

/-- The entries of a block that ends within the table are consecutive. -/
theorem ldtEntry_blockSelector (h : ldtEntry begin + i < maxSelectors) :
    ldtEntry (blockSelector begin i) = ldtEntry begin + i := by
  have hlt := begin.isLt
  rw [maxSelectors] at h
  rw [ldtEntry_eq_div] at h ⊢
  rw [ldtEntry_eq_div, toNat_blockSelector]
  omega

/-- Behind the end of the table the selector starts over. -/
theorem ldtEntry_blockSelector_end (h : ldtEntry begin + i = maxSelectors) :
    ldtEntry (blockSelector begin i) = 0 := by
  have hlt := begin.isLt
  rw [maxSelectors] at h
  rw [ldtEntry_eq_div] at h ⊢
  rw [toNat_blockSelector]
  omega

theorem blockSelector_ti (hti : begin.getLsbD 2 = true) (i : Nat) :
    (blockSelector begin i).getLsbD 2 = true := by
  rw [BitVec.getLsbD, Nat.testBit_eq_decide_div_mod_eq, decide_eq_true_eq] at hti ⊢
  rw [toNat_blockSelector]
  omega

theorem blockSelector_pred (begin : BitVec 16) (hi : 0 < i) :
    blockSelector begin i - 8#16 = blockSelector begin (i - 1) := by
  apply BitVec.eq_of_toNat_eq
  rw [BitVec.toNat_sub, toNat_blockSelector, toNat_blockSelector]
  simp only [BitVec.toNat_ofNat]
  omega

/-- The loop writes its entries. -/
theorem fillBlock_fills (hhost : Accepts host) (hti : begin.getLsbD 2 = true)
    (fields : Nat → SegDesc) (hfields : ∀ i, (fields i).type = 0 ∧ (fields i).limit.toNat < 2 ^ 20)
    (howns : OwnsRange s (ldtEntry begin + i) n) :
    (fillBlock host begin fields s i n).1 = true ∧
      Fills s (fillBlock host begin fields s i n).2 (ldtEntry begin + i) n
        (fun x => fields (x - ldtEntry begin)) := by
  induction n generalizing s i with
  | zero => exact ⟨rfl, Fills.nothing s _ _⟩
  | succ n ih =>
      have hfits := howns.fits
      have hentry : ldtEntry (blockSelector begin i) = ldtEntry begin + i :=
        ldtEntry_blockSelector (by omega)
      have howned : Owned s (blockSelector begin i) :=
        howns.owned (blockSelector_ti hti i) hentry.ge (by omega)
      obtain ⟨hret, hsets⟩ :=
        setSelector_sets hhost howned (hfields i).1 (hfields i).2
      rw [hentry] at hsets
      obtain ⟨hdone, hrest⟩ := ih (i := i + 1) (howns.tail.mono hsets.toOnlyTable)
      rw [fillBlock]
      simp only [hret, ne_eq, not_true_eq_false, if_false]
      refine ⟨hdone, hsets.cons hrest ?_⟩
      simp only [Nat.add_sub_cancel_left]

theorem dpmiClient_eq (h : SameClients s t) : t.dpmiClient = s.dpmiClient := by
  rw [State.dpmiClient, h.client, h.currentClient]
  rfl

theorem initDescriptors_fills (hhost : Accepts host) (howns : OwnsRange s first n) :
    (State.initDescriptors host s first n).1 = true ∧
      Fills s (State.initDescriptors host s first n).2 first n
        (fun _ => dataSegment 0 0 s.dpmiClient.is32) := by
  induction n generalizing s first with
  | zero => exact ⟨rfl, Fills.nothing s _ _⟩
  | succ n ih =>
      have hfits := howns.fits
      have hentry := ldtEntry_ldtSelector (show first < maxSelectors by omega)
      have howned : Owned s (ldtSelector first) :=
        howns.owned (ldtSelector_ti first) hentry.ge (by omega)
      obtain ⟨hret, hsets⟩ := setSelector_sets hhost howned
        (f := dataSegment 0 0 s.dpmiClient.is32) rfl (by show (0#32).toNat < 2 ^ 20; decide)
      rw [hentry] at hsets
      obtain ⟨hdone, hrest⟩ := ih (howns.tail.mono hsets.toOnlyTable)
      rw [State.initDescriptors]
      simp only [hret, ne_eq, not_true_eq_false, if_false]
      refine ⟨hdone, hsets.cons ?_ rfl⟩
      rw [dpmiClient_eq hsets.toSameClients] at hrest
      exact hrest

/-- The base addresses of a block are set. -/
theorem baseBlock_fills (hhost : Accepts host) (hti : begin.getLsbD 2 = true) (base : BitVec 32)
    (howns : OwnsRange s (ldtEntry begin + i) n)
    (htype : ∀ x, ldtEntry begin + i ≤ x → x < ldtEntry begin + i + n → (s.segments x).type = 0) :
    Fills s (baseBlock host begin base s i n) (ldtEntry begin + i) n
      (fun x => { s.segments x with
        baseAddr := base + BitVec.ofNat 32 ((x - ldtEntry begin) * 0x10000) }) := by
  induction n generalizing s i with
  | zero => exact Fills.nothing s _ _
  | succ n ih =>
      have hfits := howns.fits
      have hentry : ldtEntry (blockSelector begin i) = ldtEntry begin + i :=
        ldtEntry_blockSelector (by omega)
      have howned : Owned s (blockSelector begin i) :=
        howns.owned (blockSelector_ti hti i) hentry.ge (by omega)
      have hsets := setSegmentBaseAddress_sets hhost howned
        (by rw [hentry]; exact htype _ le_rfl (by omega))
        (base + BitVec.ofNat 32 (i * 0x10000))
      rw [hentry] at hsets
      have hrest := ih (i := i + 1) (howns.tail.mono hsets.toOnlyTable) fun x hlo hhi => by
        rw [hsets.others x (by omega)]
        exact htype x (by omega) (by omega)
      rw [baseBlock]
      refine hsets.cons (n := n) ⟨hrest.toOnlyTable, ?_, hrest.outside⟩ ?_
      · intro x hlo hhi
        rw [hrest.inside x (by omega) (by omega), hsets.others x (by omega)]
      · rw [Nat.add_sub_cancel_left]

/-- Entries have a new owner; descriptors elsewhere are not changed. -/
structure Moves (s t : State) (first n owner : Nat) : Prop extends SameClients s t where
  user : ∀ x, t.user x = if first ≤ x ∧ x < first + n then owner else s.user x
  outside : ∀ x, ¬(first ≤ x ∧ x < first + n) → t.segments x = s.segments x

theorem freeDescriptor_moves (hhost : Accepts host) (howned : Owned s sel) :
    Moves s (s.freeDescriptor host sel).2 (ldtEntry sel) 1 0 := by
  obtain ⟨hti, huser, hclient⟩ := howned
  have hsystem : s.systemSelector sel = false := by
    rw [maxClients] at hclient
    rw [State.systemSelector, State.dpmiValidSelector, huser, hti, Bool.and_true,
      bne_iff_ne.mpr (by omega), beq_eq_false_iff_ne.mpr (by omega)]
    rfl
  obtain ⟨-, hsets⟩ := setSelector_sets hhost ⟨hti, huser, hclient⟩ (f := emptySegment) rfl
    (by show (0#32).toNat < 2 ^ 20; decide)
  unfold State.freeDescriptor
  rw [hsystem, if_neg Bool.false_ne_true, if_neg (not_not.mpr huser)]
  refine ⟨⟨hsets.inDpmi, hsets.currentClient, hsets.client⟩, ?_, ?_⟩
  · intro x
    simp only
    by_cases hx : x = ldtEntry sel
    · rw [hx, Function.update_self, if_pos ⟨le_rfl, Nat.lt_succ_self _⟩]
    · rw [Function.update_of_ne hx, hsets.user, if_neg (by omega)]
  · intro x hx
    exact hsets.others x (by omega)

theorem Moves.cons {owner : Nat} (h : Moves s t first 1 owner) (h' : Moves t u (first + 1) n owner) :
    Moves s u first (n + 1) owner where
  toSameClients := h.toSameClients.trans h'.toSameClients
  user x := by
    rw [h'.user, h.user]
    by_cases hx : x = first
    · rw [if_neg (by omega), if_pos (by omega), if_pos (by omega)]
    · by_cases hin : first + 1 ≤ x ∧ x < first + 1 + n
      · rw [if_pos hin, if_pos (by omega)]
      · rw [if_neg hin, if_neg (by omega), if_neg (by omega)]
  outside x hx := by
    rw [h'.outside x (by omega), h.outside x (by omega)]

theorem freeBlock_moves (hhost : Accepts host) (hti : begin.getLsbD 2 = true) (m : Machine)
    (howns : OwnsRange m.state (ldtEntry begin + i) n) :
    Moves m.state (freeBlock host begin m i n).state (ldtEntry begin + i) n 0 := by
  induction n generalizing m i with
  | zero =>
      refine ⟨⟨rfl, rfl, rfl⟩, fun x => ?_, fun _ _ => rfl⟩
      rw [if_neg (by omega)]
      rfl
  | succ n ih =>
      have hfits := howns.fits
      have hentry : ldtEntry (blockSelector begin i) = ldtEntry begin + i :=
        ldtEntry_blockSelector (by omega)
      have howned : Owned m.state (blockSelector begin i) :=
        howns.owned (blockSelector_ti hti i) hentry.ge (by omega)
      have hone := freeDescriptor_moves hhost howned
      rw [hentry] at hone
      refine hone.cons (ih ⟨_, _⟩ ⟨hone.currentClient ▸ howns.client, by omega, ?_⟩)
      intro x hlo hhi
      rw [hone.user, if_neg (by omega), hone.currentClient]
      exact howns.user x (by omega) (by omega)

/-! ## Allocation -/

/-- The entries from `first` on are within the table and belong to nobody. -/
def Free (s : State) (first n : Nat) : Prop :=
  first + n ≤ maxSelectors ∧ ∀ x, first ≤ x → x < first + n → s.user x = 0

theorem systemSelector_of_free {x : Nat} (hx : x < maxSelectors) (huser : s.user x = 0) :
    s.systemSelector (ldtSelector x) = false := by
  rw [State.systemSelector, State.dpmiValidSelector, ldtEntry_ldtSelector hx, ldtSelector_ti, huser]
  rfl

/-- The check of both allocation functions. -/
theorem any_used_eq_false (hfits : first + n ≤ maxSelectors) :
    ((List.range n).any fun i =>
      s.user (first + i) != 0 || s.systemSelector (ldtSelector (first + i))) = false ↔
      Free s first n := by
  rw [List.any_eq_false]
  constructor
  · intro h
    refine ⟨hfits, fun x hlo hhi => ?_⟩
    have hx := h (x - first) (List.mem_range.mpr (by omega))
    rw [Nat.add_sub_cancel' hlo, Bool.or_eq_true, not_or, bne_iff_ne, not_not] at hx
    exact hx.1
  · intro h i hi
    have hi' := List.mem_range.mp hi
    have hzero := h.2 (first + i) (by omega) (by omega)
    rw [systemSelector_of_free (by omega) hzero, hzero]
    decide

theorem takeDescriptorsAt_of_free (hin : s.inDpmi ≠ 0) (sel : BitVec 16)
    (hfree : Free s (ldtEntry sel) n) :
    (s.takeDescriptorsAt sel n).1 = n ∧
      Moves s (s.takeDescriptorsAt sel n).2 (ldtEntry sel) n (s.currentClient + 1) := by
  unfold State.takeDescriptorsAt
  simp only [if_neg (Nat.not_lt.mpr hfree.1), (any_used_eq_false hfree.1).mpr hfree,
    Bool.false_eq_true, if_false, if_pos hin]
  exact ⟨trivial, ⟨rfl, rfl, rfl⟩, fun _ => rfl, fun _ _ => rfl⟩

theorem takeDescriptorsAt_of_used (hused : ¬Free s (ldtEntry sel) n) :
    s.takeDescriptorsAt sel n = (0, s) := by
  unfold State.takeDescriptorsAt
  by_cases hfits : maxSelectors < ldtEntry sel + n
  · exact if_pos hfits
  · have hany := mt (any_used_eq_false (Nat.not_lt.mp hfits)).mp hused
    rw [Bool.not_eq_false] at hany
    simp only [if_neg hfits, hany, if_true]

/-- Free entries are the client's now, as data segments of base and limit 0. -/
structure Takes (s t : State) (first n : Nat) : Prop
    extends Moves s t first n (s.currentClient + 1) where
  inside : ∀ x, first ≤ x → x < first + n → t.segments x = dataSegment 0 0 s.dpmiClient.is32

theorem Moves.owns (h : Moves s t first n (s.currentClient + 1)) (hclient : s.currentClient < maxClients)
    (hfits : first + n ≤ maxSelectors) : OwnsRange t first n where
  client := h.currentClient ▸ hclient
  fits := hfits
  user x hlo hhi := by rw [h.user, if_pos ⟨hlo, hhi⟩, h.currentClient]

theorem Moves.fill {owner first' n' : Nat} (h : Moves s t first n owner)
    (h' : Fills t u first' n' g) (hlo : first ≤ first') (hhi : first' + n' ≤ first + n) :
    Moves s u first n owner where
  toSameClients := h.toSameClients.trans h'.toSameClients
  user x := by rw [h'.user, h.user]
  outside x hx := by rw [h'.outside x (by omega), h.outside x hx]

theorem Moves.set {owner x : Nat} (h : Moves s t first n owner) (h' : Sets t u x f)
    (hlo : first ≤ x) (hhi : x < first + n) : Moves s u first n owner where
  toSameClients := h.toSameClients.trans h'.toSameClients
  user y := by rw [h'.user, h.user]
  outside y hy := by rw [h'.others y (by omega), h.outside y hy]

/-- The fresh descriptors are written without failure. -/
theorem Moves.init (hhost : Accepts host) (h : Moves s t first n (s.currentClient + 1))
    (hclient : s.currentClient < maxClients) (hfits : first + n ≤ maxSelectors) :
    (State.initDescriptors host t first n).1 = true ∧
      Takes s (State.initDescriptors host t first n).2 first n := by
  obtain ⟨hdone, hfills⟩ := initDescriptors_fills hhost (h.owns hclient hfits)
  refine ⟨hdone, h.fill hfills le_rfl le_rfl, ?_⟩
  intro x hlo hhi
  rw [hfills.inside x hlo hhi, dpmiClient_eq h.toSameClients]

theorem allocateDescriptorsAt_of_free (hhost : Accepts host) (hin : s.inDpmi ≠ 0)
    (hclient : s.currentClient < maxClients) (hn : n ≠ 0) (sel : BitVec 16)
    (hfree : Free s (ldtEntry sel) n) :
    (s.allocateDescriptorsAt host sel n).1 = sel ∧
      Takes s (s.allocateDescriptorsAt host sel n).2 (ldtEntry sel) n := by
  obtain ⟨htaken, hmoves⟩ := takeDescriptorsAt_of_free hin sel hfree
  obtain ⟨hdone, htakes⟩ := hmoves.init hhost hclient hfree.1
  unfold State.allocateDescriptorsAt
  simp only [if_neg hin, htaken, if_neg hn, hdone, if_true]
  exact ⟨trivial, htakes⟩

theorem allocateDescriptorsAt_of_used (hused : ¬Free s (ldtEntry sel) n) :
    s.allocateDescriptorsAt host sel n = (0, s) := by
  unfold State.allocateDescriptorsAt
  rw [takeDescriptorsAt_of_used hused]
  split
  · rfl
  · rfl

theorem nextFree_free {fuel e : Nat} (h : s.nextFree n fuel first = some e) : Free s e n := by
  induction fuel generalizing first with
  | zero => cases h
  | succ fuel ih =>
      rw [State.nextFree] at h
      by_cases hfits : maxSelectors < first + n
      · rw [if_pos hfits] at h
        cases h
      · rw [if_neg hfits] at h
        split at h
        · exact ih h
        · next hany =>
            cases h
            rw [Bool.not_eq_true] at hany
            exact (any_used_eq_false (Nat.not_lt.mp hfits)).mp hany

/-- An allocation takes free entries or changes nothing. -/
theorem allocateDescriptors_cases (hhost : Accepts host) (hin : s.inDpmi ≠ 0)
    (hclient : s.currentClient < maxClients) (hn : n ≠ 0) :
    s.allocateDescriptors host n = (0, s) ∨ ∃ e, Free s e n ∧
      (s.allocateDescriptors host n).1 = ldtSelector e ∧
      Takes s (s.allocateDescriptors host n).2 e n := by
  unfold State.allocateDescriptors State.takeDescriptors
  rw [if_neg hin]
  cases hnext : s.nextFree n maxSelectors (0x10 + 1) with
  | none => exact .inl rfl
  | some e =>
      have hfree := nextFree_free hnext
      have hlt : e < maxSelectors := by
        have := hfree.1
        omega
      have hentry := ldtEntry_ldtSelector hlt
      obtain ⟨htaken, hmoves⟩ := takeDescriptorsAt_of_free hin (ldtSelector e)
        (by rw [hentry]; exact hfree)
      rw [hentry] at hmoves
      obtain ⟨hdone, htakes⟩ := hmoves.init hhost hclient hfree.1
      right
      refine ⟨e, hfree, ?_⟩
      simp only [htaken, ne_eq, not_true_eq_false, if_false, if_neg (ldtSelector_ne_zero e), hentry,
        hdone, if_true]
      exact ⟨trivial, htakes⟩

/-! ## Blocks -/

/-- The number of descriptors of a block, one for each 64 KiB begun. -/
def descs (length : Nat) : Nat :=
  (length + 0xffff) / 0x10000

/-- The limit of descriptor `i` of a block. -/
def blockLimit (length i : Nat) : Nat :=
  if i = 0 then length - 1 else if i + 1 = descs length then (length - 1) % 0x10000 else 0xffff

/-- Descriptor `i` of a block. -/
def blockSegment (base : BitVec 32) (length i : Nat) : SegDesc :=
  dataSegment (base + BitVec.ofNat 32 (i * 0x10000)) (BitVec.ofNat 32 (blockLimit length i)) 0

/-- The client owns the descriptors of a block, and they describe it. -/
structure HasBlock (s : State) (first : Nat) (base : BitVec 32) (length : Nat) : Prop
    extends OwnsRange s first (descs length) where
  segments : ∀ i, i < descs length → s.segments (first + i) = blockSegment base length i

/-- A running 16-bit client. -/
structure Client16 (s : State) : Prop where
  inDpmi : s.inDpmi ≠ 0
  client : s.currentClient < maxClients
  is16 : s.dpmiClient.is32 = 0

/-- A block whose limits are not all set yet. -/
def Unlimited (s : State) (first n : Nat) (base : BitVec 32) : Prop :=
  ∀ i, i < n → ∃ limit, s.segments (first + i) =
    dataSegment (base + BitVec.ofNat 32 (i * 0x10000)) limit 0 ∧
      (0 < i → i + 1 < n → limit = 0xffff)

theorem Client16.mono (h : Client16 s) (ht : SameClients s t) : Client16 t where
  inDpmi := ht.inDpmi ▸ h.inDpmi
  client := ht.currentClient ▸ h.client
  is16 := dpmiClient_eq ht ▸ h.is16

theorem numDescs_eq {length : Nat} (h : length < 2 ^ 20) : numDescs 0 length = descs length := by
  rw [numDescs, descs, if_neg (show (0 : BitVec 1) ≠ 1 by decide)]
  by_cases hzero : length = 0
  · rw [if_pos hzero, hzero]
    rfl
  · rw [if_neg hzero]
    split
    · omega
    · omega

theorem descs_pos {length : Nat} (h : 0 < length) : 0 < descs length := by
  rw [descs]
  omega

theorem lastLimit_eq {length : BitVec 32} (hpos : 0 < length.toNat) :
    (lastLimit length).toNat = (length.toNat - 1) % 0x10000 := by
  have hlt := length.isLt
  have hmod : (length % 0x10000#32).toNat = length.toNat % 0x10000 := BitVec.toNat_umod
  rw [lastLimit]
  by_cases hzero : length % 0x10000#32 = 0
  · have hnat : length.toNat % 0x10000 = 0 := by
      rw [← hmod, hzero]
      rfl
    rw [if_neg (not_not.mpr hzero)]
    show 0xffff = _
    omega
  · have hne : length.toNat % 0x10000 ≠ 0 := by
      intro h
      apply hzero
      apply BitVec.eq_of_toNat_eq
      rw [hmod, h]
      rfl
    rw [if_pos hzero, BitVec.toNat_sub, hmod, show (1 : BitVec 32).toNat = 1 from rfl]
    omega

/-- A limit is written. -/
theorem limit_sets (hhost : Accepts host) (howned : Owned s sel) {base limit : BitVec 32}
    (hseg : s.segments (ldtEntry sel) = dataSegment base limit 0) {limit' : BitVec 32} (hlimit : limit'.toNat < 2 ^ 20) :
    (s.setSegmentLimit host sel limit').1 = 0 ∧
      Sets s (s.setSegmentLimit host sel limit').2 (ldtEntry sel) (dataSegment base limit' 0) := by
  have hset := setSegmentLimit_sets hhost howned (by rw [hseg]; rfl) hlimit
  rw [hseg] at hset
  exact hset

/-- The limits of the first and the last descriptor make it the block that was asked for. -/
theorem limitBlock_spec (hhost : Accepts host) (hti : begin.getLsbD 2 = true) {base length : BitVec 32}
    (hlength : length.toNat < 2 ^ 20) (howns : OwnsRange s (ldtEntry begin) (descs length.toNat))
    (hseg : Unlimited s (ldtEntry begin) (descs length.toNat) base) :
    (limitBlock host s begin (descs length.toNat) length).1 = true ∧
      Fills s (limitBlock host s begin (descs length.toNat) length).2 (ldtEntry begin)
        (descs length.toNat)
        (fun x => blockSegment base length.toNat (x - ldtEntry begin)) := by
  by_cases hzero : length.toNat = 0
  · have hn : descs length.toNat = 0 := by rw [hzero]; rfl
    rw [hn]
    exact ⟨rfl, Fills.nothing s _ _⟩
  have hpos := descs_pos (Nat.pos_of_ne_zero hzero)
  have hfits := howns.fits
  have hfirst : (length - 1).toNat = length.toNat - 1 := by
    have hlt := length.isLt
    rw [BitVec.toNat_sub, show (1 : BitVec 32).toNat = 1 from rfl]
    omega
  obtain ⟨limit, hseg₀, -⟩ := hseg 0 hpos
  rw [Nat.add_zero] at hseg₀
  obtain ⟨hret, hsets⟩ := limit_sets hhost (howns.owned hti le_rfl (by omega)) hseg₀
    (show (length - 1).toNat < 2 ^ 20 by omega)
  have hzeroth : dataSegment (base + BitVec.ofNat 32 (0 * 0x10000)) (length - 1) 0 =
      blockSegment base length.toNat 0 := by
    rw [blockSegment, blockLimit, if_pos rfl, ← hfirst, BitVec.ofNat_toNat, BitVec.setWidth_eq]
  rw [limitBlock]
  simp only [if_pos hpos, hret, ne_eq, not_true_eq_false, if_false]
  by_cases hone : 1 < descs length.toNat
  · have hentry : ldtEntry (blockSelector begin (descs length.toNat - 1)) =
        ldtEntry begin + (descs length.toNat - 1) := ldtEntry_blockSelector (by omega)
    obtain ⟨limit', hlast, -⟩ := hseg (descs length.toNat - 1) (by omega)
    rw [← hsets.others _ (by omega), ← hentry] at hlast
    have hsmall : (lastLimit length).toNat < 2 ^ 20 := by
      rw [lastLimit_eq (Nat.pos_of_ne_zero hzero)]
      omega
    obtain ⟨hret', hsets'⟩ := limit_sets hhost
      ((howns.mono hsets.toOnlyTable).owned (blockSelector_ti hti _) (by omega) (by omega))
      hlast hsmall
    rw [if_pos hone]
    refine ⟨by rw [hret']; rfl, hsets.toOnlyTable.trans hsets'.toOnlyTable, ?_, ?_⟩
    · intro x hlo hhi
      by_cases hx : x = ldtEntry begin + (descs length.toNat - 1)
      · rw [hx, ← hentry, hsets'.written, hentry, Nat.add_sub_cancel_left, blockSegment, blockLimit,
          if_neg (by omega), if_pos (by omega), ← lastLimit_eq (Nat.pos_of_ne_zero hzero),
          BitVec.ofNat_toNat, BitVec.setWidth_eq]
      · rw [hsets'.others x (by omega)]
        by_cases hx₀ : x = ldtEntry begin
        · rw [hx₀, hsets.written, Nat.sub_self, hzeroth]
        · obtain ⟨limit'', hmid, hmax⟩ := hseg (x - ldtEntry begin) (by omega)
          rw [Nat.add_sub_cancel' hlo, hmax (by omega) (by omega)] at hmid
          rw [hsets.others x hx₀, hmid, blockSegment, blockLimit, if_neg (by omega),
            if_neg (by omega)]
          rfl
    · intro x hx
      rw [hsets'.others x (by omega), hsets.others x (by omega)]
  · rw [if_neg hone]
    refine ⟨rfl, hsets.toOnlyTable, ?_, fun x hx => hsets.others x (by omega)⟩
    intro x hlo hhi
    rw [show x = ldtEntry begin by omega, hsets.written, Nat.sub_self, hzeroth]

/-! ## `ResizeDescriptorBlock` -/

variable {m : Machine} {base length : BitVec 32} {old : Nat}

/-- A block of `n` descriptors has become one of `n'`, for a length of its own. -/
structure Resized (s t : State) (first n : Nat) (base : BitVec 32) (length : Nat) : Prop
    extends SameClients s t where
  user : ∀ x, t.user x =
    if first ≤ x ∧ x < first + descs length then s.currentClient + 1
    else if first ≤ x ∧ x < first + n then 0
    else s.user x
  fresh : ∀ x, first + n ≤ x → x < first + descs length → s.user x = 0
  block : HasBlock t first base length
  outside : ∀ x, ¬(first ≤ x ∧ x < first + max n (descs length)) → t.segments x = s.segments x

/-- The first descriptor of the client's entries has the base and the length of all of them. -/
structure Leads (s : State) (first : Nat) (base : BitVec 32) (length : Nat) : Prop
    extends OwnsRange s first (descs length) where
  head : s.segments first = dataSegment base (BitVec.ofNat 32 (length - 1)) 0
  pos : 0 < length
  small : length < 2 ^ 20

theorem HasBlock.leads (h : HasBlock s first base old) (hpos : 0 < old) (hold : old < 2 ^ 20) :
    Leads s first base old := by
  refine ⟨h.toOwnsRange, ?_, hpos, hold⟩
  have hseg := h.segments 0 (descs_pos hpos)
  rw [Nat.add_zero, blockSegment, blockLimit, if_pos rfl, Nat.zero_mul] at hseg
  rw [hseg, show base + BitVec.ofNat 32 0 = base from BitVec.add_zero base]

theorem Leads.valid (h : Leads s (ldtEntry begin) base old) (hti : begin.getLsbD 2 = true) :
    s.validAndUsedSelector begin = true := by
  have hn := descs_pos h.pos
  exact (h.owned hti le_rfl (by omega)).byClient.valid

theorem Leads.baseAddr (h : Leads s (ldtEntry begin) base old) (hti : begin.getLsbD 2 = true) :
    s.getSegmentBase begin = base := by
  rw [State.getSegmentBase, if_pos (h.valid hti), h.head]
  rfl

theorem Leads.lengthOf (h : Leads s (ldtEntry begin) base old) (hti : begin.getLsbD 2 = true) :
    (s.getSegmentLimit begin + 1#32).toNat = old := by
  have hpos := h.pos
  have hsmall := h.small
  have hlimit : (s.getSegmentLimit begin).toNat = old - 1 := by
    rw [toNat_getSegmentLimit (h.valid hti), h.head]
    show (BitVec.ofNat 32 (old - 1)).toNat = old - 1
    rw [BitVec.toNat_ofNat]
    omega
  rw [BitVec.toNat_add, hlimit, show (1#32).toNat = 1 from rfl]
  omega

/-- The descriptors of a block up to the last but one keep their limits when its length changes. -/
theorem HasBlock.unlimited (h : HasBlock s first base old) (hle : n ≤ descs old) :
    Unlimited s first n base := by
  intro i hi
  refine ⟨_, h.segments i (by omega), fun hpos hlast => ?_⟩
  rw [blockLimit, if_neg (by omega), if_neg (by omega)]
  rfl

/-- A block that grows, with the entries behind it free. -/
theorem growBlock_free (hhost : Accepts host) (hclient : Client16 m.state)
    (hti : begin.getLsbD 2 = true) (h : HasBlock m.state (ldtEntry begin) base old) (hpos : 0 < old)
    (hgrow : descs old < n) (hfree : Free m.state (ldtEntry begin + descs old) (n - descs old))
    (oldLength : BitVec 32) :
    ∃ t, growBlock host m begin base oldLength (descs old) n = (true, { m with state := t }) ∧
      SameClients m.state t ∧
      (∀ x, t.user x =
        if ldtEntry begin + descs old ≤ x ∧ x < ldtEntry begin + n then
          m.state.currentClient + 1
        else m.state.user x) ∧
      Unlimited t (ldtEntry begin) n base ∧
      ∀ x, ¬(ldtEntry begin ≤ x ∧ x < ldtEntry begin + n) →
        t.segments x = m.state.segments x := by
  have hn := descs_pos hpos
  have hfits := hfree.1
  have hentry : ldtEntry (blockSelector begin (descs old)) = ldtEntry begin + descs old :=
    ldtEntry_blockSelector (by omega)
  have hsel : blockSelector begin (descs old) ≠ 0 := by
    intro hzero
    have hset := blockSelector_ti hti (descs old)
    rw [hzero] at hset
    cases hset
  obtain ⟨hselector, htakes⟩ := allocateDescriptorsAt_of_free hhost hclient.inDpmi hclient.client
    (show n - descs old ≠ 0 by omega) (blockSelector begin (descs old)) (by rw [hentry]; exact hfree)
  rw [hentry] at htakes
  -- The last descriptor of the old block gets the limit of a middle one.
  have hlastEntry : ldtEntry (blockSelector begin (descs old - 1)) =
      ldtEntry begin + (descs old - 1) := ldtEntry_blockSelector (by omega)
  have howns : OwnsRange (m.state.allocateDescriptorsAt host (blockSelector begin (descs old))
      (n - descs old)).2 (ldtEntry begin) n := by
    refine ⟨htakes.currentClient ▸ hclient.client, by omega, fun x hlo hhi => ?_⟩
    rw [htakes.user, htakes.currentClient]
    split
    · rfl
    · exact h.user x hlo (by omega)
  have hseg := h.segments (descs old - 1) (by omega)
  rw [← htakes.outside _ (by omega), ← hlastEntry] at hseg
  obtain ⟨hret, hsets⟩ := limit_sets hhost
    (howns.owned (blockSelector_ti hti _) (by omega) (by omega)) hseg
    (show (0xffff : BitVec 32).toNat < 2 ^ 20 by decide)
  rw [hlastEntry] at hsets
  -- The new descriptors are written.
  have howns' : OwnsRange _ (ldtEntry begin + descs old) (n - descs old) :=
    ⟨(howns.mono hsets.toOnlyTable).client, by omega, fun x hlo hhi =>
      (howns.mono hsets.toOnlyTable).user x (by omega) (by omega)⟩
  obtain ⟨hdone, hfills⟩ := fillBlock_fills hhost hti
    (fun i => dataSegment (base + BitVec.ofNat 32 (i * 0x10000)) 0xffff m.state.dpmiClient.is32)
    (fun i => ⟨rfl, by show (0xffff#32).toNat < 2 ^ 20; decide⟩) howns'
  refine ⟨_, ?_, (htakes.toSameClients.trans hsets.toSameClients).trans hfills.toSameClients, ?_, ?_, ?_⟩
  · rw [growBlock, if_neg (by omega)]
    simp only [hselector, if_neg hsel, blockSelector_pred begin hn, hret, ne_eq, not_true_eq_false,
      if_false, hdone]
  · intro x
    rw [hfills.user, hsets.user, htakes.user, show ldtEntry begin + descs old + (n - descs old) =
      ldtEntry begin + n by omega]
  · intro i hi
    by_cases hnew : descs old ≤ i
    · refine ⟨0xffff, ?_, fun _ _ => rfl⟩
      rw [hfills.inside _ (by omega) (by omega), Nat.add_sub_cancel_left, hclient.is16]
    · rw [hfills.outside _ (by omega)]
      by_cases hlast : i = descs old - 1
      · exact ⟨0xffff, by rw [hlast, hsets.written], fun _ _ => rfl⟩
      · obtain ⟨limit, hold, hmax⟩ := h.unlimited le_rfl i (by omega)
        refine ⟨limit, ?_, fun hpos _ => hmax hpos (by omega)⟩
        rw [hsets.others _ (by omega), htakes.outside _ (by omega), hold]
  · intro x hx
    rw [hfills.outside _ (by omega), hsets.others _ (by omega), htakes.outside _ (by omega)]

/-- Only segment registers differ. -/
structure SameRegs (r r' : Regs) : Prop where
  ax : r'.ax = r.ax
  bx : r'.bx = r.bx
  dx : r'.dx = r.dx
  cf : r'.cf = r.cf

theorem freeBlock_regs (host : Host) (begin : BitVec 16) (m : Machine) (i n : Nat) :
    SameRegs m.regs (freeBlock host begin m i n).regs := by
  induction n generalizing m i with
  | zero => exact ⟨rfl, rfl, rfl, rfl⟩
  | succ n ih =>
      obtain ⟨hax, hbx, hdx, hcf⟩ := ih ⟨(m.state.freeDescriptor host (blockSelector begin i)).2,
        freeSegRegs m.regs (blockSelector begin i)⟩ (i + 1)
      exact ⟨hax, hbx, hdx, hcf⟩

theorem resize_eq (hclient : Client16 m.state) (hti : begin.getLsbD 2 = true)
    (h : Leads m.state (ldtEntry begin) base old) (hlength : length.toNat < 2 ^ 20) :
    resizeDescriptorBlock host m begin length =
      (let (grown, m) := growBlock host m begin base (m.state.getSegmentLimit begin + 1#32)
        (descs old) (descs length.toNat)
      if !grown then (false, m)
      else
        let m := freeBlock host begin m (descs length.toNat) (descs old - descs length.toNat)
        let (done, s) := limitBlock host m.state begin (descs length.toNat) length
        (done, { m with state := s })) := by
  unfold resizeDescriptorBlock
  rw [h.valid hti]
  simp only [Bool.not_true, Bool.false_eq_true, if_false, hclient.is16, h.baseAddr hti,
    h.lengthOf hti, numDescs_eq h.small, numDescs_eq hlength]

/-- A block cannot grow into entries that are in use; nothing is changed then. -/
theorem resize_fails (host : Host) (hclient : Client16 m.state) (hti : begin.getLsbD 2 = true)
    (h : HasBlock m.state (ldtEntry begin) base old) (hpos : 0 < old) (hold : old < 2 ^ 20)
    (hlength : length.toNat < 2 ^ 20) (hgrow : descs old < descs length.toNat)
    (hused : ¬Free m.state (ldtEntry (blockSelector begin (descs old)))
      (descs length.toNat - descs old)) :
    ∃ r, resizeDescriptorBlock host m begin length = (false, ⟨m.state, r⟩) := by
  rw [resize_eq hclient hti (h.leads hpos hold) hlength, growBlock, if_neg (by omega),
    allocateDescriptorsAt_of_used hused]
  exact ⟨_, rfl⟩

/-- Otherwise the block gets the descriptors of its new length. -/
theorem resize_succeeds (hhost : Accepts host) (hclient : Client16 m.state)
    (hti : begin.getLsbD 2 = true) (h : HasBlock m.state (ldtEntry begin) base old) (hpos : 0 < old)
    (hold : old < 2 ^ 20) (hlength : length.toNat < 2 ^ 20)
    (hroom : descs length.toNat ≤ descs old ∨
      Free m.state (ldtEntry begin + descs old) (descs length.toNat - descs old)) :
    ∃ m', resizeDescriptorBlock host m begin length = (true, m') ∧ SameRegs m.regs m'.regs ∧
      Resized m.state m'.state (ldtEntry begin) (descs old) base length.toNat := by
  have hfits := h.fits
  rw [resize_eq hclient hti (h.leads hpos hold) hlength]
  by_cases hle : descs length.toNat ≤ descs old
  · -- The block shrinks, or has the descriptors it had.
    have howns : OwnsRange m.state (ldtEntry begin + descs length.toNat)
        (descs old - descs length.toNat) :=
      ⟨h.client, by omega, fun x hlo hhi => h.user x (by omega) (by omega)⟩
    have hmoves := freeBlock_moves hhost hti m howns
    have hregs := freeBlock_regs host begin m (descs length.toNat) (descs old - descs length.toNat)
    have hkept : OwnsRange
        (freeBlock host begin m (descs length.toNat) (descs old - descs length.toNat)).state
        (ldtEntry begin) (descs length.toNat) := by
      refine ⟨hmoves.currentClient ▸ h.client, by omega, fun x hlo hhi => ?_⟩
      rw [hmoves.user, if_neg (by omega), hmoves.currentClient]
      exact h.user x hlo (by omega)
    have hseg : Unlimited
        (freeBlock host begin m (descs length.toNat) (descs old - descs length.toNat)).state
        (ldtEntry begin) (descs length.toNat) base := by
      intro i hi
      rw [hmoves.outside _ (by omega)]
      exact h.unlimited hle i hi
    obtain ⟨hdone, hfills⟩ := limitBlock_spec hhost hti hlength hkept hseg
    rw [growBlock, if_pos hle]
    simp only [Bool.not_true, Bool.false_eq_true, if_false, hdone]
    refine ⟨_, rfl, hregs, hmoves.toSameClients.trans hfills.toSameClients, ?_,
      (fun x hlo hhi => by omega), ⟨hkept.mono hfills.toOnlyTable, ?_⟩, ?_⟩
    · intro x
      rw [hfills.user, hmoves.user]
      by_cases hx : ldtEntry begin ≤ x ∧ x < ldtEntry begin + descs length.toNat
      · rw [if_neg (by omega), if_pos hx]
        exact h.user x hx.1 (by omega)
      · rw [if_neg hx]
        by_cases hx' : ldtEntry begin ≤ x ∧ x < ldtEntry begin + descs old
        · rw [if_pos (by omega), if_pos hx']
        · rw [if_neg (by omega), if_neg hx']
    · intro i hi
      rw [hfills.inside _ (by omega) (by omega), Nat.add_sub_cancel_left]
    · intro x hx
      rw [hfills.outside _ (by omega), hmoves.outside _ (by omega)]
  · -- The block grows.
    have hfree := hroom.resolve_left hle
    have hfits' := hfree.1
    obtain ⟨t, hgrown, hsame, huser, hseg, hout⟩ :=
      growBlock_free hhost hclient hti h hpos (Nat.not_le.mp hle) hfree
        (m.state.getSegmentLimit begin + 1#32)
    have howns : OwnsRange t (ldtEntry begin) (descs length.toNat) := by
      refine ⟨hsame.currentClient ▸ h.client, by omega, fun x hlo hhi => ?_⟩
      rw [huser, hsame.currentClient]
      split
      · rfl
      · exact h.user x hlo (by omega)
    obtain ⟨hdone, hfills⟩ := limitBlock_spec hhost hti hlength howns hseg
    rw [hgrown, show descs old - descs length.toNat = 0 by omega]
    simp only [Bool.not_true, Bool.false_eq_true, if_false, freeBlock, hdone]
    refine ⟨_, rfl, ⟨rfl, rfl, rfl, rfl⟩, hsame.trans hfills.toSameClients, ?_,
      (fun x hlo hhi => hfree.2 x hlo (by omega)), ⟨howns.mono hfills.toOnlyTable, ?_⟩, ?_⟩
    · intro x
      rw [hfills.user, huser]
      by_cases hx : ldtEntry begin ≤ x ∧ x < ldtEntry begin + descs length.toNat
      · rw [if_pos hx]
        split
        · rfl
        · exact h.user x hx.1 (by omega)
      · rw [if_neg hx, if_neg (by omega), if_neg (by omega)]
    · intro i hi
      rw [hfills.inside _ (by omega) (by omega), Nat.add_sub_cancel_left]
    · intro x hx
      rw [hfills.outside _ (by omega), hout _ (by omega)]

/-- A length of zero frees all descriptors, whatever their base addresses are. -/
theorem resize_frees (hhost : Accepts host) (hclient : Client16 m.state)
    (hti : begin.getLsbD 2 = true) (h : Leads m.state (ldtEntry begin) base old) :
    ∃ m', resizeDescriptorBlock host m begin 0 = (true, m') ∧ SameRegs m.regs m'.regs ∧
      Moves m.state m'.state (ldtEntry begin) (descs old) 0 := by
  rw [resize_eq hclient hti h (by decide : (0 : BitVec 32).toNat < 2 ^ 20),
    show descs (0 : BitVec 32).toNat = 0 from rfl, growBlock, if_pos (Nat.zero_le _)]
  exact ⟨_, rfl, freeBlock_regs host begin m 0 (descs old - 0),
    freeBlock_moves hhost hti m (i := 0) h.toOwnsRange⟩

/-! ## Calls -/

/-- The client's descriptors are what they were. -/
structure SameTable (s t : State) : Prop extends SameClients s t where
  user : t.user = s.user
  segments : ∀ x, s.user x = s.currentClient + 1 → t.segments x = s.segments x

theorem SameTable.refl (s : State) : SameTable s s :=
  ⟨⟨rfl, rfl, rfl⟩, rfl, fun _ _ => rfl⟩

theorem toNat_bytes (paras : BitVec 16) : (bytes paras).toNat = 16 * paras.toNat := by
  have hlt := paras.isLt
  rw [bytes, BitVec.toNat_shiftLeft, BitVec.toNat_setWidth, Nat.shiftLeft_eq]
  omega

theorem bytes_lt (paras : BitVec 16) : (bytes paras).toNat < 2 ^ 20 := by
  have hlt := paras.isLt
  rw [toNat_bytes]
  omega

theorem bytes_paragraphs {length : BitVec 32} {paras : BitVec 16}
    (h : length.toNat = (bytes paras).toNat) : bytes (paragraphs length) = bytes paras := by
  have hlength : length = bytes paras := BitVec.eq_of_toNat_eq h
  have hlt := paras.isLt
  apply BitVec.eq_of_toNat_eq
  rw [toNat_bytes, toNat_bytes, paragraphs, BitVec.toNat_setWidth, BitVec.toNat_ushiftRight,
    hlength, toNat_bytes, Nat.shiftRight_eq_div_pow]
  omega

/-- New descriptors whose base addresses are not set yet. -/
structure Prepared (s t : State) (first length : Nat) : Prop
    extends Moves s t first (descs length) (s.currentClient + 1) where
  free : Free s first (descs length)
  segments : ∀ i, i < descs length →
    t.segments (first + i) = dataSegment 0 (BitVec.ofNat 32 (blockLimit length i)) 0

/-- Function 0100h asks DOS once it has the descriptors. -/
theorem allocateDos_cases (hhost : Accepts host) (hclient : Client16 m.state) :
    (∃ r, allocateDos host m = (false, ⟨m.state, r⟩)) ∨
      ∃ e t, allocateDos host m = (true, ⟨t, { m.regs with dx := ldtSelector e }⟩) ∧
        0 < (bytes m.regs.bx).toNat ∧ Prepared m.state t e (bytes m.regs.bx).toNat := by
  have hsmall := bytes_lt m.regs.bx
  unfold allocateDos
  simp only [hclient.is16, numDescs_eq hsmall]
  generalize hlen : bytes m.regs.bx = length at hsmall ⊢
  by_cases hnone : descs length.toNat = 0
  · rw [if_pos hnone]
    exact .inl ⟨_, rfl⟩
  rw [if_neg hnone]
  have hpos : 0 < length.toNat := by
    by_contra hzero
    rw [Nat.eq_zero_of_not_pos hzero] at hnone
    exact hnone rfl
  rcases allocateDescriptors_cases hhost hclient.inDpmi hclient.client hnone with
    hused | ⟨e, hfree, hselector, htakes⟩
  · rw [hused]
    exact .inl ⟨_, rfl⟩
  · right
    have hfits := hfree.1
    have hbegin := ldtEntry_ldtSelector (show e < maxSelectors by omega)
    have hti := ldtSelector_ti e
    have howns := htakes.owns hclient.client hfree.1
    -- The first descriptor.
    have hfirst : (length - 1).toNat = length.toNat - 1 := by
      rw [BitVec.toNat_sub, show (1 : BitVec 32).toNat = 1 from rfl]
      omega
    obtain ⟨hret, hsets⟩ := setSelector_sets hhost
      (howns.owned hti hbegin.ge (by rw [hbegin]; omega)) (f := dataSegment 0 (length - 1) 0) rfl
      (show (length - 1).toNat < 2 ^ 20 by omega)
    -- Those in the middle.
    have howns₁ := howns.mono hsets.toOnlyTable
    obtain ⟨hdone, hfills⟩ := fillBlock_fills hhost hti (i := 1) (n := descs length.toNat - 2)
      (fun _ => dataSegment 0 0xffff 0)
      (fun _ => ⟨rfl, by show (0xffff : BitVec 32).toNat < 2 ^ 20; decide⟩)
      ⟨howns₁.client, by omega, fun x hlo hhi => howns₁.user x (by omega) (by omega)⟩
    have howns₂ := howns₁.mono hfills.toOnlyTable
    rw [hbegin] at hsets hfills
    have hlimits : ∀ i, i < descs length.toNat → i + 1 < descs length.toNat ∨ i = 0 →
        (fillBlock host (ldtSelector e) (fun _ => dataSegment 0 0xffff 0)
          ((m.state.allocateDescriptors host (descs length.toNat)).2.setSelector host
            (ldtSelector e) (dataSegment 0 (length - 1) 0)).2 1
          (descs length.toNat - 2)).2.segments (e + i) =
          dataSegment 0 (BitVec.ofNat 32 (blockLimit length.toNat i)) 0 := by
      intro i hi hnotlast
      by_cases hzero : i = 0
      · rw [hzero, hfills.outside _ (by omega), Nat.add_zero, hsets.written, blockLimit, if_pos rfl,
          ← hfirst, BitVec.ofNat_toNat, BitVec.setWidth_eq]
      · rw [hfills.inside _ (by omega) (by omega), blockLimit, if_neg hzero, if_neg (by omega)]
        rfl
    simp only [hselector, if_neg (ldtSelector_ne_zero e), hret, ne_eq, not_true_eq_false, if_false,
      hdone, Bool.not_true, Bool.false_eq_true]
    have hmoves := (htakes.toMoves.set hsets le_rfl (by omega)).fill hfills (by omega) (by omega)
    by_cases hone : 1 < descs length.toNat
    · -- The last one.
      have hentry : ldtEntry (blockSelector (ldtSelector e) (descs length.toNat - 1)) =
          e + (descs length.toNat - 1) := by
        rw [ldtEntry_blockSelector (by omega), hbegin]
      have hlast := lastLimit_eq hpos
      obtain ⟨hret', hsets'⟩ := setSelector_sets hhost
        (howns₂.owned (blockSelector_ti hti (descs length.toNat - 1)) (by omega) (by omega))
        (f := dataSegment 0 (lastLimit length) 0) rfl
        (show (lastLimit length).toNat < 2 ^ 20 by omega)
      rw [hentry] at hsets'
      simp only [if_pos hone, hret', decide_true]
      refine ⟨e, _, rfl, hpos, hmoves.set hsets' (by omega) (by omega), hfree, ?_⟩
      intro i hi
      by_cases hi' : i = descs length.toNat - 1
      · rw [hi', hsets'.written, blockLimit, if_neg (by omega), if_pos (by omega), ← hlast,
          BitVec.ofNat_toNat, BitVec.setWidth_eq]
      · rw [hsets'.others _ (by omega)]
        exact hlimits i hi (.inl (by omega))
    · simp only [if_neg hone, decide_true]
      exact ⟨e, _, rfl, hpos, hmoves, hfree, fun i hi => hlimits i hi (.inr (by omega))⟩

variable {r : Regs} {a : DosAnswer}

theorem Prepared.leads {len e : Nat} (h : Prepared s t e len) (hclient : s.currentClient < maxClients)
    (hpos : 0 < len) (hsmall : len < 2 ^ 20) : Leads t e 0 len := by
  refine ⟨h.owns hclient h.free.1, ?_, hpos, hsmall⟩
  have hseg := h.segments 0 (descs_pos hpos)
  rw [blockLimit, if_pos rfl] at hseg
  exact hseg

/-- The entries that were taken are given back. -/
theorem Prepared.undo {len e : Nat} (h : Prepared s t e len) (h' : Moves t u e (descs len) 0) :
    SameTable s u where
  toSameClients := h.toSameClients.trans h'.toSameClients
  user := by
    funext x
    rw [h'.user, h.user]
    split
    · next hx => exact (h.free.2 x hx.1 hx.2).symm
    · rfl
  segments x hx := by
    have hout : ¬(e ≤ x ∧ x < e + descs len) := by
      rintro ⟨hlo, hhi⟩
      rw [h.free.2 x hlo hhi] at hx
      cases hx
    rw [h'.outside x hout, h.outside x hout]

/-- With its base addresses the new block is complete. -/
theorem Prepared.complete {len e : Nat} (hhost : Accepts host) (h : Prepared s t e len)
    (hclient : s.currentClient < maxClients) (he : ldtEntry begin = e)
    (hti : begin.getLsbD 2 = true) (base : BitVec 32) :
    Moves s (baseBlock host begin base t 0 (descs len)) e (descs len) (s.currentClient + 1) ∧
      HasBlock (baseBlock host begin base t 0 (descs len)) e base len := by
  have howns := h.owns hclient h.free.1
  have hfills := baseBlock_fills hhost hti base (i := 0) (n := descs len) (by rw [he]; exact howns)
    (fun x hlo hhi => by
      have hseg := h.segments (x - e) (by omega)
      rw [Nat.add_sub_cancel' (by omega)] at hseg
      rw [hseg]
      rfl)
  rw [he] at hfills
  refine ⟨h.fill hfills le_rfl le_rfl, howns.mono hfills.toOnlyTable, ?_⟩
  intro i hi
  rw [hfills.inside _ (by omega) (by omega), h.segments i hi, Nat.add_sub_cancel_left]
  rfl

/-- Function 0100h: a new block, or nothing. -/
theorem allocate_cases (hhost : Accepts host) (hclient : Client16 s) (hax : r.ax = 0x0100)
    (a : DosAnswer) :
    ((int31 host ⟨s, r⟩ a).regs.cf = true ∧ SameTable s (int31 host ⟨s, r⟩ a).state) ∨
      (int31 host ⟨s, r⟩ a).regs.cf = false ∧ 0 < (bytes r.bx).toNat ∧
        ∃ e, ldtEntry (int31 host ⟨s, r⟩ a).regs.dx = e ∧ Free s e (descs (bytes r.bx).toNat) ∧
          Moves s (int31 host ⟨s, r⟩ a).state e (descs (bytes r.bx).toNat) (s.currentClient + 1) ∧
          HasBlock (int31 host ⟨s, r⟩ a).state e (bytes a.ax) (bytes r.bx).toNat := by
  have hsmall := bytes_lt r.bx
  unfold int31 askDos
  simp only [hax, if_true]
  rcases allocateDos_cases (m := ⟨s, { r with ax := 0x0100, cf := false }⟩) hhost hclient with
    ⟨r', hrefused⟩ | ⟨e, t, hasked, hpos, hprepared⟩
  · left
    rw [hrefused]
    exact ⟨rfl, SameTable.refl s⟩
  · have hlt : e < maxSelectors := by
      have := hprepared.free.1
      have := descs_pos hpos
      omega
    have hentry := ldtEntry_ldtSelector hlt
    have hti := ldtSelector_ti e
    have hleads : Leads t (ldtEntry (ldtSelector e)) 0 (bytes r.bx).toNat := by
      rw [hentry]
      exact hprepared.leads hclient.client hpos hsmall
    have hclient' := hclient.mono hprepared.toSameClients
    rw [hasked]
    cases hcarry : a.carry with
    | true =>
        left
        obtain ⟨m', hresize, -, hmoves⟩ := resize_frees
          (m := ⟨t, { r with ax := 0x0100, cf := false, dx := ldtSelector e }⟩)
          hhost hclient' hti hleads
        rw [hentry] at hmoves
        simp only [Bool.not_true, Bool.false_eq_true, if_false, if_true, returnError, hresize]
        exact ⟨trivial, hprepared.undo hmoves⟩
    | false =>
        right
        obtain ⟨hmoves, hblock⟩ := hprepared.complete hhost hclient.client hentry hti (bytes a.ax)
        simp only [Bool.not_true, Bool.false_eq_true, if_false, if_true, returnDone, hclient'.is16,
          hleads.lengthOf hti, numDescs_eq hsmall]
        exact ⟨trivial, hpos, e, hentry, hprepared.free, hmoves, hblock⟩

/-- A selector that is not in use names no block. -/
theorem unused_cases (host : Host) (hax : r.ax = 0x0101 ∨ r.ax = 0x0102)
    (hunused : s.validAndUsedSelector r.dx = false) (a : DosAnswer) :
    (int31 host ⟨s, r⟩ a).regs.cf = true ∧ (int31 host ⟨s, r⟩ a).state = s := by
  have hfree : freeDos host ⟨s, { r with cf := false }⟩ = (false, ⟨s, { r with cf := false }⟩) := by
    unfold freeDos resizeDescriptorBlock
    simp only [hunused, Bool.not_false, if_true]
  have hresize : resizeDos host ⟨s, { r with cf := false }⟩ =
      (false, ⟨s, { r with cf := false }⟩) := by
    unfold resizeDos
    simp only [hunused, Bool.not_false, if_true]
  unfold int31 askDos
  rcases hax with hax | hax
  · simp only [hax, show (0x0101 : BitVec 16) ≠ 0x0100 by decide, if_false, if_true]
    rw [hax] at hfree
    rw [hfree]
    exact ⟨rfl, rfl⟩
  · simp only [hax, show (0x0102 : BitVec 16) ≠ 0x0100 by decide,
      show (0x0102 : BitVec 16) ≠ 0x0101 by decide, if_false]
    rw [hax] at hresize
    rw [hresize]
    exact ⟨rfl, rfl⟩

/-- Function 0101h frees the descriptors, whatever DOS answers. -/
theorem free_cases (hhost : Accepts host) (hclient : Client16 s) (hax : r.ax = 0x0101)
    (hti : r.dx.getLsbD 2 = true) (h : Leads s (ldtEntry r.dx) base old) (a : DosAnswer) :
    (int31 host ⟨s, r⟩ a).regs.cf = a.carry ∧
      Moves s (int31 host ⟨s, r⟩ a).state (ldtEntry r.dx) (descs old) 0 := by
  obtain ⟨⟨t, r'⟩, hresize, hregs, hmoves⟩ := resize_frees (m := ⟨s, { r with cf := false }⟩)
    hhost hclient hti h
  have hne : (0x0101 : BitVec 16) ≠ 0x0100 := by decide
  have hne' : (0x0101 : BitVec 16) ≠ 0x0102 := by decide
  have hax' : r'.ax = 0x0101 := hregs.ax.trans hax
  rw [hax] at hresize
  unfold int31 askDos freeDos
  simp only [hax, hne, if_false, if_true, hresize, Bool.not_true, Bool.false_eq_true]
  cases hcarry : a.carry with
  | true =>
      simp only [if_true, returnError, hax', hne, hne', if_false]
      exact ⟨trivial, hmoves⟩
  | false =>
      simp only [Bool.false_eq_true, if_false, returnDone, hax', hne, hne']
      exact ⟨hregs.cf, hmoves⟩

/-- The block that was resized is resized back to its length. -/
theorem Resized.undo {len len' : Nat} (h : HasBlock s first base len)
    (hto : Resized s t first (descs len) base len')
    (hback : Resized t u first (descs len') base len) : SameTable s u where
  toSameClients := hto.toSameClients.trans hback.toSameClients
  user := by
    funext x
    rw [hback.user, hto.user, hto.currentClient]
    by_cases hin : first ≤ x ∧ x < first + descs len
    · rw [if_pos hin]
      exact (h.user x hin.1 hin.2).symm
    · rw [if_neg hin]
      by_cases hin' : first ≤ x ∧ x < first + descs len'
      · rw [if_pos hin']
        exact (hto.fresh x (by omega) hin'.2).symm
      · rw [if_neg hin', if_neg hin', if_neg hin]
  segments x hx := by
    by_cases hin : first ≤ x ∧ x < first + descs len
    · have hold := h.segments (x - first) (by omega)
      have hnew := hback.block.segments (x - first) (by omega)
      rw [Nat.add_sub_cancel' hin.1] at hold hnew
      rw [hold, hnew]
    · have hout : ¬(first ≤ x ∧ x < first + descs len') := by
        intro hin'
        rw [hto.fresh x (by omega) hin'.2] at hx
        cases hx
      rw [hback.outside x (by omega), hto.outside x (by omega)]

/-- Function 0102h: the block has its new length, or everything is as it was.  The block must not
be lost to a resize to zero that DOS refuses, nor grow beyond the end of the table. -/
theorem resize_cases (hhost : Accepts host) (hclient : Client16 s) (hax : r.ax = 0x0102)
    (hti : r.dx.getLsbD 2 = true) {paras : BitVec 16} (hpos : 0 < (bytes paras).toNat)
    (h : HasBlock s (ldtEntry r.dx) base (bytes paras).toNat) (hkept : r.bx = 0 → a.carry = false)
    (hend : descs (bytes paras).toNat < descs (bytes r.bx).toNat →
      ldtEntry r.dx + descs (bytes paras).toNat = maxSelectors →
        ¬Free s 0 (descs (bytes r.bx).toNat - descs (bytes paras).toNat)) :
    ((int31 host ⟨s, r⟩ a).regs.cf = true ∧ SameTable s (int31 host ⟨s, r⟩ a).state) ∨
      (int31 host ⟨s, r⟩ a).regs.cf = false ∧
        Resized s (int31 host ⟨s, r⟩ a).state (ldtEntry r.dx) (descs (bytes paras).toNat) base
          (bytes r.bx).toNat := by
  have hfits := h.fits
  have hold := bytes_lt paras
  have hnew := bytes_lt r.bx
  have hne : (0x0102 : BitVec 16) ≠ 0x0100 := by decide
  have hne' : (0x0102 : BitVec 16) ≠ 0x0101 := by decide
  have hleads := h.leads hpos hold
  have hvalid := hleads.valid hti
  unfold int31 askDos resizeDos
  simp only [hax, hne, hne', if_false, hvalid, Bool.not_true, Bool.false_eq_true]
  by_cases hroom : descs (bytes r.bx).toNat ≤ descs (bytes paras).toNat ∨
      Free s (ldtEntry r.dx + descs (bytes paras).toNat)
        (descs (bytes r.bx).toNat - descs (bytes paras).toNat)
  · obtain ⟨⟨t, r'⟩, hresize, hregs, hresized⟩ := resize_succeeds
      (m := ⟨s, { r with ax := 0x0102, cf := false }⟩) hhost hclient hti h hpos hold hnew hroom
    have hax' : r'.ax = 0x0102 := hregs.ax
    have hdx' : r'.dx = r.dx := hregs.dx
    simp only [hresize, Bool.not_true, Bool.false_eq_true, if_false]
    cases hcarry : a.carry with
    | true =>
        left
        have hpos' : 0 < (bytes r.bx).toNat := by
          rw [toNat_bytes]
          have hbx : r.bx.toNat ≠ 0 := by
            intro hzero
            have hfalse := hkept (BitVec.eq_of_toNat_eq hzero)
            rw [hcarry] at hfalse
            cases hfalse
          omega
        have hroom' : descs (bytes paras).toNat ≤ descs (bytes r.bx).toNat ∨
            Free t (ldtEntry r.dx + descs (bytes r.bx).toNat)
              (descs (bytes paras).toNat - descs (bytes r.bx).toNat) := by
          by_cases hle : descs (bytes paras).toNat ≤ descs (bytes r.bx).toNat
          · exact .inl hle
          · refine .inr ⟨by omega, fun x hlo hhi => ?_⟩
            rw [hresized.user, if_neg (by omega), if_pos (by omega)]
        have hbx := bytes_paragraphs (hleads.lengthOf hti)
        obtain ⟨m', hback, -, hresized'⟩ := resize_succeeds
          (m := ⟨t, { r' with bx := paragraphs (s.getSegmentLimit r.dx + 1#32) }⟩) hhost
          (hclient.mono hresized.toSameClients) hti hresized.block hpos' hnew hold hroom'
        simp only [hax', hdx'] at hback
        simp only [if_true, returnError, hax', hdx', hne, if_false, hbx, hback]
        exact ⟨trivial, hresized.undo h hresized'⟩
    | false =>
        right
        simp only [Bool.false_eq_true, if_false, returnDone, hax', hne, if_true]
        exact ⟨hregs.cf, hresized⟩
  · left
    have hgrow : descs (bytes paras).toNat < descs (bytes r.bx).toNat := by
      by_contra hle
      exact hroom (.inl (Nat.not_lt.mp hle))
    have hused : ¬Free s (ldtEntry (blockSelector r.dx (descs (bytes paras).toNat)))
        (descs (bytes r.bx).toNat - descs (bytes paras).toNat) := by
      rcases Nat.lt_or_eq_of_le hfits with hlt | heq
      · rw [ldtEntry_blockSelector hlt]
        exact fun hfree => hroom (.inr hfree)
      · rw [ldtEntry_blockSelector_end heq]
        exact hend hgrow heq
    obtain ⟨r', hresize⟩ := resize_fails (m := ⟨s, { r with ax := 0x0102, cf := false }⟩) host
      hclient hti h hpos hold hnew hgrow hused
    simp only [hresize, Bool.not_false, if_true]
    exact ⟨trivial, SameTable.refl s⟩

end DosMemory
end Dpmi
end Dosemu
