import Dosemu.Dpmi.Ownership
import Dosemu.Lib.Run
import Dosemu.Lib.Slots

/-!
# The memory map of a client of the DOS extender

Functions 48h to 4Ah of int 21h take their memory from DPMI.  The extender keeps
a table of the blocks of each client and finds a block by its base.  A slot whose
block was freed keeps its contents, less the size, and a lookup ends at the first
slot with the base, free or not.

`blocks` is what DPMI holds for the client; which blocks DPMI hands out, and
which requests fail, is an input.  `freed` and `issued` record the calls of
`DPMIfree` and the handles handed out.

Main results:

- Theorems `Inv.malloc`, `Inv.free` and `Inv.realloc`: what a call does to the
  table.
- Theorem `memory_accounted`: in a run, each call acts on the block it names and
  no block is lost.
-/

namespace Dosemu
namespace Msdos
namespace MemMap

open Dpmi

/-- What the extender uses of `dpmi_pm_block`. -/
structure PmBlock where
  handle : BitVec 32
  base : BitVec 32
  size : BitVec 32
  deriving DecidableEq

/-- The block of a failed request, and a slot that was never used. -/
def noBlock : PmBlock :=
  ⟨0, 0, 0⟩

/-- `MSDOS_MAX_MEM_ALLOCS` -/
def msdosMaxMemAllocs : Nat := 1024

/-- The registers that the three functions use. -/
structure Regs where
  ax : BitVec 16
  bx : BitVec 16
  ds : BitVec 16
  es : BitVec 16
  fs : BitVec 16
  gs : BitVec 16
  cf : Bool
  deriving DecidableEq

structure State where
  memMap : List PmBlock
  ldt : Dpmi.State
  blocks : List PmBlock
  freed : List (BitVec 32)
  issued : List (BitVec 32)

/-- What DPMI answers during a call. -/
structure Answers where
  malloc : Option PmBlock
  realloc : BitVec 32 → Option (BitVec 32 × BitVec 32)
  meminfo : BitVec 32

inductive Function where
  | allocate
  | free
  | reallocate
  deriving DecidableEq

/-- A call of int 21h. -/
structure Call where
  ah : Function
  regs : Regs
  answers : Answers

namespace State

/-- `DPMImalloc` -/
def dpmiMalloc (s : State) (answer : Option PmBlock) : PmBlock × State :=
  match answer with
  | none => (noBlock, s)
  | some b => (b, { s with blocks := b :: s.blocks, issued := b.handle :: s.issued })

/-- `DPMIfree` -/
def dpmiFree (s : State) (handle : BitVec 32) : State :=
  { s with
    blocks := s.blocks.eraseP (·.handle = handle)
    freed := handle :: s.freed }

/-- `DPMIrealloc` -/
def dpmiRealloc (s : State) (answer : BitVec 32 → Option (BitVec 32 × BitVec 32))
    (handle : BitVec 32) : PmBlock × State :=
  match s.blocks.find? (·.handle = handle) with
  | none => (noBlock, s)
  | some old =>
      match answer handle with
      | none => (noBlock, s)
      | some (base, size) =>
          (⟨handle, base, size⟩, { s with blocks := ⟨handle, base, size⟩ :: s.blocks.erase old })

/-- `msdos_malloc` -/
def msdosMalloc (s : State) (answer : Option PmBlock) : BitVec 32 × State :=
  let (block, s) := s.dpmiMalloc answer
  if block.size = 0 then (0, s)
  else
    match s.memMap.findIdx? (·.size = 0) with
    | none => (block.base, s)
    | some i => (block.base, { s with memMap := s.memMap.set i block })

/-- `msdos_free` -/
def msdosFree (s : State) (addr : BitVec 32) : Int × State :=
  match s.memMap.findIdx? (·.base = addr) with
  | none => (-1, s)
  | some i =>
      let slot := s.memMap.getD i noBlock
      let s := s.dpmiFree slot.handle
      (0, { s with memMap := s.memMap.set i { slot with size := 0 } })

/-- `msdos_realloc` -/
def msdosRealloc (s : State) (answer : BitVec 32 → Option (BitVec 32 × BitVec 32))
    (addr : BitVec 32) : BitVec 32 × State :=
  match s.memMap.findIdx? (·.base = addr) with
  | none => (0, s)
  | some i =>
      let slot := s.memMap.getD i noBlock
      if slot.size = 0 then (0, s)
      else
        let (block, s) := s.dpmiRealloc answer slot.handle
        if block.size = 0 then (0, s)
        else (block.base, { s with memMap := s.memMap.set i block })

/-- `msdos_free_mem` -/
def msdosFreeMem (s : State) : State :=
  let s := s.memMap.foldl (fun s b => if b.size ≠ 0 then s.dpmiFree b.handle else s) s
  { s with memMap := s.memMap.map fun b => { b with size := 0 } }

end State

/-- `FreeSegRegs` -/
def Regs.freeSegRegs (r : Regs) (selector : BitVec 16) : Regs :=
  let clear (seg : BitVec 16) := if seg ||| 7#16 = selector ||| 7#16 then 0 else seg
  { r with ds := clear r.ds, es := clear r.es, fs := clear r.fs, gs := clear r.gs }

/-- The registers of a request that there is no memory for. -/
def Regs.noMemory (r : Regs) (meminfo : BitVec 32) : Regs :=
  { r with cf := true, bx := (meminfo >>> 4).setWidth 16, ax := 0x08 }

/-- The cases 48h, 49h and 4Ah of `msdos_pre_extender`. -/
def State.exec (host : Host) (s : State) (c : Call) : Regs × State :=
  let r := c.regs
  match c.ah with
  | .allocate =>
      let size := r.bx.setWidth 32 <<< 4
      let (addr, s) := s.msdosMalloc c.answers.malloc
      if addr = 0 then (r.noMemory c.answers.meminfo, s)
      else
        let (sel, ldt) := s.ldt.allocateDescriptors host 1
        let (_, ldt) := ldt.setSegmentBaseAddress host sel addr
        let (_, ldt) := ldt.setSegmentLimit host sel (size - 1)
        ({ r with ax := sel, cf := false }, { s with ldt := ldt })
  | .free =>
      let (ret, s) := s.msdosFree (s.ldt.getSegmentBase r.es)
      if ret = -1 then ({ r with cf := true }, s)
      else
        let (_, ldt) := s.ldt.freeDescriptor host r.es
        ({ r with cf := false }.freeSegRegs r.es, { s with ldt := ldt })
  | .reallocate =>
      let newSize := r.bx.setWidth 32 <<< 4
      let (addr, s) := s.msdosRealloc c.answers.realloc (s.ldt.getSegmentBase r.es)
      if addr = 0 then (r.noMemory c.answers.meminfo, s)
      else
        let (_, ldt) := s.ldt.setSegmentBaseAddress host r.es addr
        let (_, ldt) := ldt.setSegmentLimit host r.es (newSize - 1)
        ({ r with cf := false }, { s with ldt := ldt })

def step (host : Host) (s : State) (c : Call) : Option State :=
  some (s.exec host c).2

/-! ## What the calls promise -/

/-- The addresses of a block. -/
def PmBlock.Separate (a b : PmBlock) : Prop :=
  a.base.toNat + a.size.toNat ≤ b.base.toNat ∨ b.base.toNat + b.size.toNat ≤ a.base.toNat

/-- DPMI hands out memory that is not in use, at least as much as was asked for, under a handle
that is new.  Address 0 belongs to DOS. -/
def Legal (s : State) (c : Call) : Prop :=
  (∀ b ∈ c.answers.malloc, b.size ≠ 0 ∧ b.base ≠ 0 ∧ b.handle ∉ s.issued ∧
    (∀ b' ∈ s.blocks, b.Separate b') ∧ (c.ah = .allocate → 16 * c.regs.bx.toNat ≤ b.size.toNat)) ∧
  ∀ b ∈ s.blocks, ∀ m ∈ c.answers.realloc b.handle, m.2 ≠ 0 ∧ m.1 ≠ 0 ∧
    ∀ b' ∈ s.blocks, b' ≠ b → (PmBlock.mk b.handle m.1 m.2).Separate b'

/-- The kernel takes what is written to its table. -/
def Accepts (host : Host) : Prop :=
  host.native = true → ∀ n info, host.nativeWriteLdt n info = 0

/-- An allocation is reported as a success only together with an entry that was free and describes
the block. -/
def Allocates (host : Host) (s : State) (c : Call) : Prop :=
  let (r, t) := s.exec host c
  t.freed = s.freed ∧ t.blocks = c.answers.malloc.toList ++ s.blocks ∧
    (r.cf = false → ∃ b, c.answers.malloc = some b ∧ s.ldt.user (ldtEntry r.ax) = 0 ∧
      t.ldt.OwnedByClient r.ax ∧ t.ldt.getSegmentBase r.ax = b.base ∧
      (t.ldt.getSegmentLimit r.ax).toNat + 1 = 16 * c.regs.bx.toNat ∧
      16 * c.regs.bx.toNat ≤ b.size.toNat)

/-- The block at the address is freed, and no other. -/
def Frees (host : Host) (s : State) (c : Call) : Prop :=
  let (r, t) := s.exec host c
  let addr := s.ldt.getSegmentBase c.regs.es
  (∀ b ∈ s.blocks, b.base = addr →
      r.cf = false ∧ t.freed = b.handle :: s.freed ∧ t.blocks = s.blocks.erase b) ∧
    ((∀ b ∈ s.blocks, b.base ≠ addr) → r.cf = true ∧ t.freed = s.freed ∧ t.blocks = s.blocks)

/-- DPMI is asked about the block at the address, and about no other. -/
def Reallocates (host : Host) (s : State) (c : Call) : Prop :=
  let (r, t) := s.exec host c
  let addr := s.ldt.getSegmentBase c.regs.es
  t.freed = s.freed ∧
    (∀ b ∈ s.blocks, b.base = addr →
      match c.answers.realloc b.handle with
      | none => r.cf = true ∧ t.blocks = s.blocks
      | some (base, size) => r.cf = false ∧ t.blocks = ⟨b.handle, base, size⟩ :: s.blocks.erase b) ∧
    ((∀ b ∈ s.blocks, b.base ≠ addr) → r.cf = true ∧ t.blocks = s.blocks)

/-- If the client ended here, each block that was ever handed out would be freed once. -/
def State.Accounted (s : State) : Prop :=
  s.issued.Nodup ∧ s.msdosFreeMem.freed.Perm s.issued

/-- What a call promises. -/
def Contract (host : Host) (s : State) (c : Call) : Prop :=
  (match c.ah with
    | .allocate => Allocates host s c
    | .free => Frees host s c
    | .reallocate => Reallocates host s c) ∧
    (s.exec host c).2.Accounted

/-- The first slot with a base is in use. -/
def State.Leads (s : State) (addr : BitVec 32) : Prop :=
  ∀ slot ∈ s.memMap.find? (·.base = addr), slot.size ≠ 0

/-- A call that the table is good for. -/
def Careful (s : State) (c : Call) : Prop :=
  match c.ah with
  | .allocate => c.answers.malloc.isSome = true →
      c.regs.bx ≠ 0 ∧ (∃ slot ∈ s.memMap, slot.size = 0) ∧
        (s.ldt.nextFree 1 maxSelectors (0x10 + 1)).isSome = true
  | .free => s.Leads (s.ldt.getSegmentBase c.regs.es)
  | .reallocate => (∃ b ∈ s.blocks, b.base = s.ldt.getSegmentBase c.regs.es) →
      s.Leads (s.ldt.getSegmentBase c.regs.es)

/-- A client without memory. -/
structure State.Fresh (s : State) : Prop where
  memMap : s.memMap = List.replicate msdosMaxMemAllocs noBlock
  blocks : s.blocks = []
  freed : s.freed = []
  issued : s.issued = []
  inDpmi : s.ldt.inDpmi ≠ 0
  currentClient : s.ldt.currentClient < maxClients

/-- What the extender does for the first client: memory for a register structure, and for a name
that is freed again. -/
def State.firstClient (s : State) (rmcb name : PmBlock) : State :=
  let (_, s) := s.msdosMalloc (some rmcb)
  let (addr, s) := s.msdosMalloc (some name)
  (s.msdosFree addr).2

/-- The start of a client, which may be the first one. -/
def State.Initial (s : State) : Prop :=
  s.Fresh ∨ ∃ (t : State) (rmcb name : PmBlock), t.Fresh ∧ rmcb.size ≠ 0 ∧ name.size ≠ 0 ∧
    rmcb.handle ≠ name.handle ∧ name.base ≠ 0 ∧ name.Separate rmcb ∧ s = t.firstClient rmcb name

/-! ## The table -/

/-- A slot is in use. -/
def live (b : PmBlock) : Bool :=
  b.size ≠ 0

/-- The slots in use are the blocks that DPMI holds. -/
structure Inv (s : State) : Prop where
  held : (s.memMap.filter live).Perm s.blocks
  bases : (s.blocks.map PmBlock.base).Nodup
  fresh : s.issued.Nodup
  account : (s.freed ++ s.blocks.map PmBlock.handle).Perm s.issued

variable {host : Host} {s t : State} {b b' : PmBlock} {addr : BitVec 32}

theorem Inv.mem_iff (h : Inv s) : b ∈ s.blocks ↔ b ∈ s.memMap ∧ b.size ≠ 0 := by
  rw [← h.held.mem_iff, List.mem_filter, live, decide_eq_true_eq]

theorem Inv.handles (h : Inv s) : (s.blocks.map PmBlock.handle).Nodup :=
  (List.nodup_append.mp (h.account.nodup_iff.mpr h.fresh)).2.1

theorem Inv.eq_of_base (h : Inv s) (hb : b ∈ s.blocks) (hb' : b' ∈ s.blocks)
    (hbase : b.base = b'.base) : b = b' :=
  List.inj_on_of_nodup_map h.bases hb hb' hbase

/-- DPMI finds the block of a handle. -/
theorem Inv.eraseP_handle (h : Inv s) (hb : b ∈ s.blocks) :
    s.blocks.eraseP (·.handle = b.handle) = s.blocks.erase b := by
  have hhandles := h.handles
  generalize s.blocks = l at hb hhandles
  induction l with
  | nil => cases hb
  | cons x l ih =>
      rw [List.map_cons, List.nodup_cons] at hhandles
      by_cases hx : x = b
      · rw [hx, List.erase_cons_head, List.eraseP_cons_of_pos (by simp)]
      · have hmem := (List.mem_cons.mp hb).resolve_left (Ne.symm hx)
        have hne : x.handle ≠ b.handle := by
          intro heq
          exact hhandles.1 (heq ▸ List.mem_map_of_mem hmem)
        rw [List.erase_cons_tail (by simpa using hx), List.eraseP_cons_of_neg (by simpa using hne),
          ih hmem hhandles.2]

theorem Inv.find_handle (h : Inv s) (hb : b ∈ s.blocks) :
    s.blocks.find? (·.handle = b.handle) = some b := by
  cases hfind : s.blocks.find? (·.handle = b.handle) with
  | none =>
      have hnone := List.find?_eq_none.mp hfind b hb
      simp at hnone
  | some x =>
      have hx : x.handle = b.handle := by simpa using List.find?_some hfind
      rw [List.inj_on_of_nodup_map h.handles (List.mem_of_find?_eq_some hfind) hb hx]

/-- A block leaves the table as it leaves DPMI. -/
theorem Inv.account_erase (h : Inv s) (hb : b ∈ s.blocks) :
    ((b.handle :: s.freed) ++ (s.blocks.erase b).map PmBlock.handle).Perm s.issued := by
  have hblocks : (s.blocks.map PmBlock.handle).Perm
      (b.handle :: (s.blocks.erase b).map PmBlock.handle) :=
    (List.perm_cons_erase hb).map PmBlock.handle
  exact (List.perm_middle.symm.trans (hblocks.symm.append_left s.freed)).trans h.account

/-- Blocks apart from each other have different bases. -/
theorem PmBlock.Separate.base_ne (h : b.Separate b') (hb : b.size ≠ 0) (hb' : b'.size ≠ 0) :
    b.base ≠ b'.base := by
  intro heq
  have hpos : 0 < b.size.toNat := Nat.pos_of_ne_zero fun hz => hb (BitVec.eq_of_toNat_eq hz)
  have hpos' : 0 < b'.size.toNat := Nat.pos_of_ne_zero fun hz => hb' (BitVec.eq_of_toNat_eq hz)
  unfold PmBlock.Separate at h
  rw [heq] at h
  omega

/-- Where the first slot is in use, a lookup finds the block at the address. -/
theorem Inv.lookup (h : Inv s) (hlead : s.Leads addr) :
    (s.memMap.findIdx? (·.base = addr) = none ∧ ∀ b ∈ s.blocks, b.base ≠ addr) ∨
      ∃ i b, s.memMap.findIdx? (·.base = addr) = some i ∧ s.memMap[i]? = some b ∧
        b ∈ s.blocks ∧ b.base = addr := by
  rcases Slots.first_cases (fun b : PmBlock => decide (b.base = addr)) s.memMap with
    ⟨hidx, hall⟩ | ⟨i, b, hidx, hfind, hget, hb⟩
  · refine Or.inl ⟨hidx, fun b hb => ?_⟩
    simpa using hall b (h.mem_iff.mp hb).1
  · refine Or.inr ⟨i, b, hidx, hget, ?_, by simpa using hb⟩
    exact h.mem_iff.mpr ⟨List.mem_of_getElem? hget, hlead b hfind⟩

/-! ## The operations -/

variable {answer : Option PmBlock} {moves : BitVec 32 → Option (BitVec 32 × BitVec 32)}

/-- A fresh block goes to the first free slot. -/
theorem Inv.malloc (h : Inv s) (hanswer : ∀ b, answer = some b → b.size ≠ 0 ∧
      b.handle ∉ s.issued ∧ ∀ b' ∈ s.blocks, b.Separate b')
    (hroom : answer.isSome = true → ∃ slot ∈ s.memMap, slot.size = 0) :
    Inv (s.msdosMalloc answer).2 := by
  unfold State.msdosMalloc State.dpmiMalloc
  cases answer with
  | none => exact h
  | some b =>
      obtain ⟨hsize, hhandle, hsep⟩ := hanswer b rfl
      dsimp only
      rw [if_neg hsize]
      rcases Slots.first_cases (fun b : PmBlock => decide (b.size = 0)) s.memMap with
        ⟨-, hall⟩ | ⟨i, old, hidx, -, hget, hold⟩
      · obtain ⟨slot, hslot, hzero⟩ := hroom rfl
        exact absurd hzero (by simpa using hall slot hslot)
      · rw [hidx]
        refine ⟨?_, ?_, ?_, ?_⟩
        · have hfill := @Slots.filter_fill _ live s.memMap i b old hget
            (by simpa [live] using hold) (by simpa [live] using hsize)
          exact hfill.trans (h.held.cons b)
        · refine List.nodup_cons.mpr ⟨fun hmem => ?_, h.bases⟩
          obtain ⟨b', hb', heq⟩ := List.mem_map.mp hmem
          exact (hsep b' hb').base_ne hsize (h.mem_iff.mp hb').2 heq.symm
        · exact List.nodup_cons.mpr ⟨hhandle, h.fresh⟩
        · exact List.perm_middle.trans (h.account.cons b.handle)

/-- A freed block leaves its slot. -/
theorem Inv.free (h : Inv s) (hlead : s.Leads addr) :
    Inv (s.msdosFree addr).2 ∧
      ((∀ b ∈ s.blocks, b.base = addr → (s.msdosFree addr).1 = 0 ∧
          (s.msdosFree addr).2.freed = b.handle :: s.freed ∧
          (s.msdosFree addr).2.blocks = s.blocks.erase b) ∧
        ((∀ b ∈ s.blocks, b.base ≠ addr) → s.msdosFree addr = (-1, s))) := by
  unfold State.msdosFree
  rcases h.lookup hlead with ⟨hidx, hall⟩ | ⟨i, b, hidx, hget, hb, hbase⟩
  · rw [hidx]
    exact ⟨h, fun b hb hbase => absurd hbase (hall b hb), fun _ => rfl⟩
  · rw [hidx]
    dsimp only
    rw [List.getD_eq_getElem?_getD, hget, Option.getD_some]
    unfold State.dpmiFree
    dsimp only
    rw [h.eraseP_handle hb]
    refine ⟨⟨?_, ?_, h.fresh, h.account_erase hb⟩, ?_, ?_⟩
    · have hclear := @Slots.filter_clear _ live s.memMap i { b with size := 0 } b hget
        (by simpa [live] using (h.mem_iff.mp hb).2) rfl
      exact (hclear.symm.trans (h.held.trans (List.perm_cons_erase hb))).cons_inv
    · exact h.bases.sublist ((List.erase_sublist).map _)
    · intro b' hb' hbase'
      obtain rfl := h.eq_of_base hb hb' (hbase.trans hbase'.symm)
      exact ⟨rfl, rfl, rfl⟩
    · intro hnone
      exact absurd hbase (hnone b hb)

/-- Where no block has the address, nothing is asked of DPMI. -/
theorem Inv.realloc_none (h : Inv s) (hnone : ∀ b ∈ s.blocks, b.base ≠ addr) :
    s.msdosRealloc moves addr = (0, s) := by
  unfold State.msdosRealloc
  rcases Slots.first_cases (fun b : PmBlock => decide (b.base = addr)) s.memMap with
    ⟨hidx, -⟩ | ⟨i, b, hidx, -, hget, hb⟩
  · rw [hidx]
  · rw [hidx]
    dsimp only
    rw [List.getD_eq_getElem?_getD, hget, Option.getD_some, if_pos]
    by_contra hsize
    exact hnone b (h.mem_iff.mpr ⟨List.mem_of_getElem? hget, hsize⟩) (by simpa using hb)

/-- A block that moves stays in its slot. -/
theorem Inv.realloc (h : Inv s) (hb : b ∈ s.blocks) (hlead : s.Leads b.base)
    (hanswer : ∀ base size, moves b.handle = some (base, size) →
      size ≠ 0 ∧ base ≠ 0 ∧ ∀ b' ∈ s.blocks, b' ≠ b →
        (PmBlock.mk b.handle base size).Separate b') :
    match moves b.handle with
    | none => s.msdosRealloc moves b.base = (0, s)
    | some (base, size) => ∃ t, s.msdosRealloc moves b.base = (base, t) ∧ base ≠ 0 ∧ Inv t ∧
        t.freed = s.freed ∧ t.ldt = s.ldt ∧
          t.blocks = ⟨b.handle, base, size⟩ :: s.blocks.erase b := by
  obtain ⟨i, hidx, hget⟩ : ∃ i, s.memMap.findIdx? (·.base = b.base) = some i ∧
      s.memMap[i]? = some b := by
    rcases h.lookup hlead with ⟨-, hall⟩ | ⟨i, b', hidx, hget, hb', hbase⟩
    · exact absurd rfl (hall b hb)
    · exact ⟨i, hidx, by rw [hget, h.eq_of_base hb' hb hbase]⟩
  have hlive := (h.mem_iff.mp hb).2
  unfold State.msdosRealloc
  rw [hidx]
  dsimp only
  rw [List.getD_eq_getElem?_getD, hget, Option.getD_some, if_neg hlive]
  unfold State.dpmiRealloc
  rw [h.find_handle hb]
  dsimp only
  cases hmove : moves b.handle with
  | none => rfl
  | some p =>
      obtain ⟨base, size⟩ := p
      obtain ⟨hsize, hbase, hsep⟩ := hanswer base size hmove
      dsimp only
      rw [if_neg hsize]
      have hnodup : s.blocks.Nodup := h.bases.of_map
      have hheld : (s.memMap.set i ⟨b.handle, base, size⟩ |>.filter live).Perm
          (⟨b.handle, base, size⟩ :: s.blocks.erase b) :=
        (Slots.filter_replace hget (by simpa [live] using hlive)
          (by simpa [live] using hsize)).trans ((h.held.erase b).cons _)
      refine ⟨_, rfl, hbase, ⟨hheld, ?_, h.fresh, ?_⟩, rfl, rfl, rfl⟩
      · refine List.nodup_cons.mpr ⟨fun hmem => ?_, h.bases.sublist (List.erase_sublist.map _)⟩
        obtain ⟨b', hb', heq⟩ := List.mem_map.mp hmem
        obtain ⟨hne, hb'⟩ := hnodup.mem_erase_iff.mp hb'
        exact (hsep b' hb' hne).base_ne hsize (h.mem_iff.mp hb').2 heq.symm
      · exact List.perm_middle.trans (h.account_erase hb)

/-- `msdos_free_mem` frees the blocks of the slots in use. -/
theorem freed_foldl (l : List PmBlock) (s : State) :
    (l.foldl (fun s b => if b.size ≠ 0 then s.dpmiFree b.handle else s) s).freed =
      ((l.filter live).map PmBlock.handle).reverse ++ s.freed := by
  induction l generalizing s with
  | nil => rfl
  | cons b l ih =>
      rw [List.foldl_cons, ih, List.filter_cons]
      by_cases hb : b.size ≠ 0
      · rw [if_pos hb, if_pos (by simpa [live] using hb), List.map_cons, List.reverse_cons,
          List.append_assoc]
        rfl
      · rw [if_neg hb, if_neg (by simpa [live] using hb)]

theorem Inv.accounted (h : Inv s) : s.Accounted := by
  refine ⟨h.fresh, ?_⟩
  have hfreed : s.msdosFreeMem.freed =
      ((s.memMap.filter live).map PmBlock.handle).reverse ++ s.freed := freed_foldl s.memMap s
  rw [hfreed]
  have hheld := (List.reverse_perm _).trans (h.held.map PmBlock.handle)
  exact ((hheld.append_right s.freed).trans List.perm_append_comm).trans h.account

/-! ## The descriptor of a new block -/

variable {l : Dpmi.State} {sel : BitVec 16}

/-- A write to an entry succeeds, except that of a present conforming descriptor. -/
theorem setLdtEntry_ok (haccept : Accepts host) {e : Nat} {f : SegDesc} (he : e < maxSelectors)
    (htype : f.type ≠ 3) (hlimit : f.limit.toNat < 2 ^ 20) :
    (l.setLdtEntry host e f).1 = 0 ∧ (l.setLdtEntry host e f).2.segments e = f := by
  have hret : (if host.native then host.nativeWriteLdt l.kernelWrites
      ⟨e, f.baseAddr, f.limit, f.is32, f.type, f.readonly, f.isBig, f.notPresent, f.useable⟩
      else 0) = 0 := by
    split
    · next hnative => exact haccept hnative _ _
    · rfl
  unfold Dpmi.State.setLdtEntry Dpmi.State.putLdt emuWriteLdt
  dsimp only
  rw [if_neg (not_not.mpr hret), if_neg (Nat.not_le.mpr he), if_neg (fun hboth => htype hboth.1)]
  refine ⟨rfl, ?_⟩
  unfold Dpmi.State.segments
  dsimp only
  rw [Function.update_self]
  exact segments_emuUpdateLdt hlimit

/-- What the search for a free entry finds. -/
theorem nextFree_some {fuel next e : Nat} (h : l.nextFree 1 fuel next = some e) :
    e < maxSelectors ∧ l.user e = 0 ∧ l.systemSelector (ldtSelector e) = false := by
  induction fuel generalizing next with
  | zero => cases h
  | succ fuel ih =>
      rw [Dpmi.State.nextFree] at h
      split at h
      · cases h
      · next hfits =>
          split at h
          · exact ih h
          · next hfree =>
              obtain rfl := Option.some.inj h
              simp only [List.any_eq_true, List.mem_range, Bool.or_eq_true, bne_iff_ne, not_exists,
                not_and, not_or, not_not, Bool.not_eq_true] at hfree
              have hzero := hfree 0 Nat.one_pos
              exact ⟨by omega, hzero.1, hzero.2⟩

/-- A client that runs. -/
def Runs (l : Dpmi.State) : Prop :=
  l.inDpmi ≠ 0 ∧ l.currentClient < maxClients

theorem Runs.of_same (h : Runs l) {l' : Dpmi.State} (hsame : SameClients l l') : Runs l' := by
  unfold Runs
  rw [hsame.inDpmi, hsame.currentClient]
  exact h

theorem valid_of_user {e : Nat} (he : e < maxSelectors) (hrun : Runs l)
    (huser : l.user e = l.currentClient + 1) : l.OwnedByClient (ldtSelector e) :=
  ⟨ldtSelector_ti e, l.currentClient, hrun.2, by rwa [ldtEntry_ldtSelector he]⟩

/-- `AllocateDescriptors(1)`, where there is a free entry. -/
theorem allocateDescriptors_one (haccept : Accepts host) (hrun : Runs l) {e : Nat}
    (hfree : l.nextFree 1 maxSelectors (0x10 + 1) = some e) :
    ∃ l', l.allocateDescriptors host 1 = (ldtSelector e, l') ∧ SameClients l l' ∧
      l.user e = 0 ∧ l'.user e = l.currentClient + 1 ∧ (l'.segments e).type = 0 := by
  obtain ⟨he, hzero, hsystem⟩ := nextFree_some hfree
  have hentry := ldtEntry_ldtSelector he
  have hany : ((List.range 1).any fun i =>
      l.user (e + i) != 0 || l.systemSelector (ldtSelector (e + i))) = false := by
    simp [hzero, hsystem]
  obtain ⟨t, htake, hsame, huser⟩ : ∃ t, l.takeDescriptors 1 = (ldtSelector e, t) ∧
      SameClients l t ∧ t.user e = l.currentClient + 1 := by
    unfold Dpmi.State.takeDescriptors
    rw [hfree]
    unfold Dpmi.State.takeDescriptorsAt
    dsimp only
    rw [hentry, if_neg (Nat.not_lt.mpr he), hany, if_neg Bool.false_ne_true]
    refine ⟨_, rfl, ⟨rfl, rfl, rfl⟩, ?_⟩
    dsimp only
    rw [if_pos ⟨le_rfl, Nat.lt_succ_self e⟩, if_pos hrun.1]
  have howned := valid_of_user he (hrun.of_same hsame) (by rw [huser, hsame.currentClient])
  have hvalid := howned.valid
  unfold Dpmi.State.validAndUsedSelector at hvalid
  obtain ⟨hdpmi, hused⟩ := Bool.and_eq_true_iff.mp hvalid
  obtain ⟨hret, hseg⟩ := @setLdtEntry_ok host t haccept e (dataSegment 0 0 t.dpmiClient.is32) he
    (by simp [dataSegment]) (by simp [dataSegment])
  unfold Dpmi.State.allocateDescriptors
  rw [if_neg hrun.1, htake]
  dsimp only
  rw [if_neg (ldtSelector_ne_zero e), hentry]
  unfold Dpmi.State.initDescriptors Dpmi.State.initDescriptors Dpmi.State.setSelector
  rw [hdpmi, hentry]
  rw [hentry] at hused
  have hguard : (!true || t.user e == 0) = false := by simpa using hused
  rw [hguard, if_neg Bool.false_ne_true]
  have htable := setLdtEntry_onlyTable host t e (dataSegment 0 0 t.dpmiClient.is32)
  rcases hwrite : t.setLdtEntry host e (dataSegment 0 0 t.dpmiClient.is32) with ⟨ret, u⟩
  rw [hwrite] at hret hseg htable
  obtain rfl : ret = 0 := hret
  refine ⟨_, rfl, hsame.trans htable.toSameClients, hzero, ?_, ?_⟩
  · exact (congrFun htable.user e).trans huser
  · exact congrArg SegDesc.type hseg

theorem setSegmentBaseAddress_onlyTable (host : Host) (l : Dpmi.State) (sel : BitVec 16)
    (addr : BitVec 32) : OnlyTable l (l.setSegmentBaseAddress host sel addr).2 := by
  unfold Dpmi.State.setSegmentBaseAddress
  dsimp only
  split
  · exact OnlyTable.refl l
  · exact setLdtEntry_onlyTable host l _ _

theorem setSegmentLimit_onlyTable (host : Host) (l : Dpmi.State) (sel : BitVec 16)
    (limit : BitVec 32) : OnlyTable l (l.setSegmentLimit host sel limit).2 := by
  unfold Dpmi.State.setSegmentLimit
  dsimp only
  split
  · exact OnlyTable.refl l
  · split
    · split
      · exact OnlyTable.refl l
      · exact setLdtEntry_onlyTable host l _ _
    · exact setLdtEntry_onlyTable host l _ _

/-- Base and limit of a descriptor of the client, one written after the other. -/
theorem describes (haccept : Accepts host) {e : Nat} (he : e < maxSelectors)
    (howned : l.OwnedByClient (ldtSelector e)) (htype : (l.segments e).type ≠ 3) {addr : BitVec 32}
    {limit : BitVec 32} (hlimit : limit.toNat < 2 ^ 20) {l₁ l₂ : Dpmi.State}
    (h₁ : l₁ = (l.setSegmentBaseAddress host (ldtSelector e) addr).2)
    (h₂ : l₂ = (l₁.setSegmentLimit host (ldtSelector e) limit).2) :
    OnlyTable l l₂ ∧ l₂.getSegmentBase (ldtSelector e) = addr ∧
      l₂.getSegmentLimit (ldtSelector e) = limit := by
  have hentry := ldtEntry_ldtSelector he
  have htable₁ : OnlyTable l l₁ := h₁ ▸ setSegmentBaseAddress_onlyTable host l _ addr
  have htable₂ : OnlyTable l₁ l₂ := h₂ ▸ setSegmentLimit_onlyTable host l₁ _ limit
  have howned₁ := howned.congr htable₁.user
  have howned₂ := howned₁.congr htable₂.user
  have hseg₁ : l₁.segments e = { l.segments e with baseAddr := addr } := by
    rw [h₁]
    unfold Dpmi.State.setSegmentBaseAddress
    dsimp only
    rw [hentry, howned.valid, Bool.not_true, if_neg Bool.false_ne_true]
    exact (@setLdtEntry_ok host l haccept e { l.segments e with baseAddr := addr } he htype
      (limit_lt (l.ldtBuffer e))).2
  have hsmall : ¬0x0fffff#32 < limit := by
    rw [BitVec.lt_def, BitVec.toNat_ofNat]
    omega
  have hseg₂ : l₂.segments e = { l₁.segments e with limit := limit, isBig := 0 } := by
    rw [h₂]
    unfold Dpmi.State.setSegmentLimit
    dsimp only
    rw [hentry, howned₁.valid, Bool.not_true, if_neg Bool.false_ne_true, if_neg hsmall]
    refine (@setLdtEntry_ok host l₁ haccept e { l₁.segments e with limit := limit, isBig := 0 } he
      ?_ hlimit).2
    exact hseg₁ ▸ htype
  refine ⟨htable₁.trans htable₂, ?_, ?_⟩
  · unfold Dpmi.State.getSegmentBase
    rw [if_pos howned₂.valid, hentry, hseg₂, hseg₁]
  · unfold Dpmi.State.getSegmentLimit
    rw [if_pos howned₂.valid, hentry, hseg₂]
    rfl

/-! ## Calls -/

variable {c : Call}

/-- The size of a request, less one. -/
theorem toNat_size_sub_one {bx : BitVec 16} (hbx : bx ≠ 0) :
    (bx.setWidth 32 <<< 4 - 1#32).toNat + 1 = 16 * bx.toNat := by
  have hpos : 0 < bx.toNat := Nat.pos_of_ne_zero fun hz => hbx (BitVec.eq_of_toNat_eq hz)
  have hlt := bx.isLt
  have hshift : (bx.setWidth 32 <<< 4).toNat = bx.toNat * 16 := by
    rw [BitVec.toNat_shiftLeft, BitVec.toNat_setWidth, Nat.shiftLeft_eq]
    omega
  rw [BitVec.toNat_sub, hshift]
  change (2 ^ 32 - 1 + bx.toNat * 16) % 2 ^ 32 + 1 = 16 * bx.toNat
  omega

theorem msdosMalloc_some (hsize : b.size ≠ 0) :
    (s.msdosMalloc (some b)).1 = b.base ∧ (s.msdosMalloc (some b)).2.freed = s.freed ∧
      (s.msdosMalloc (some b)).2.blocks = b :: s.blocks ∧
      (s.msdosMalloc (some b)).2.issued = b.handle :: s.issued ∧
      (s.msdosMalloc (some b)).2.ldt = s.ldt := by
  unfold State.msdosMalloc State.dpmiMalloc
  dsimp only
  rw [if_neg hsize]
  split
  · exact ⟨rfl, rfl, rfl, rfl, rfl⟩
  · exact ⟨rfl, rfl, rfl, rfl, rfl⟩

theorem Inv.of_ldt (h : Inv s) : Inv { s with ldt := l } :=
  ⟨h.held, h.bases, h.fresh, h.account⟩

theorem allocate_served (haccept : Accepts host) (h : Inv s) (hrun : Runs s.ldt)
    (hc : c.ah = .allocate) (hlegal : Legal s c) (hcareful : Careful s c) :
    Allocates host s c ∧ Inv (s.exec host c).2 ∧ Runs (s.exec host c).2.ldt := by
  unfold Careful at hcareful
  rw [hc] at hcareful
  unfold Allocates State.exec
  rw [hc]
  dsimp only
  cases hanswer : c.answers.malloc with
  | none => exact ⟨⟨rfl, rfl, fun hcf => by cases hcf⟩, h, hrun⟩
  | some b =>
      obtain ⟨hsize, hbase, hhandle, hsep, hfits⟩ := hlegal.1 b hanswer
      obtain ⟨hbx, hroom, hfree⟩ := hcareful (by rw [hanswer]; rfl)
      have hinv := @Inv.malloc s (some b) h
        (fun b' hb' => by cases hb'; exact ⟨hsize, hhandle, hsep⟩) fun _ => hroom
      obtain ⟨haddr, hfreed, hblocks, -, hldt⟩ := @msdosMalloc_some s b hsize
      rcases hmalloc : s.msdosMalloc (some b) with ⟨addr, t⟩
      rw [hmalloc] at hinv haddr hfreed hblocks hldt
      obtain rfl : addr = b.base := haddr
      obtain ⟨e, he⟩ := Option.isSome_iff_exists.mp hfree
      have hlt := (nextFree_some he).1
      obtain ⟨l, hdesc, hsame, huser, howner, htype⟩ := allocateDescriptors_one haccept hrun he
      have hlrun := hrun.of_same hsame
      have howned := valid_of_user hlt hlrun (by rw [howner, hsame.currentClient])
      have hlimit := toNat_size_sub_one hbx
      have hbits := c.regs.bx.isLt
      have hsmall : (c.regs.bx.setWidth 32 <<< 4 - 1#32).toNat < 2 ^ 20 := by omega
      obtain ⟨htable, hreadBase, hreadLimit⟩ := @describes host l haccept e hlt howned
        (by rw [htype]; decide) b.base _ hsmall _ _ rfl rfl
      dsimp only
      rw [if_neg hbase, hldt, hdesc]
      refine ⟨⟨hfreed, hblocks, fun _ => ⟨b, rfl, ?_, ?_, hreadBase, ?_, hfits hc⟩⟩, hinv.of_ldt,
        ?_⟩
      · dsimp only
        rw [ldtEntry_ldtSelector hlt]
        exact huser
      · exact howned.congr htable.user
      · exact (congrArg (fun w : BitVec 32 => w.toNat + 1) hreadLimit).trans hlimit
      · exact hlrun.of_same htable.toSameClients

theorem msdosFree_ldt (s : State) (addr : BitVec 32) : (s.msdosFree addr).2.ldt = s.ldt := by
  unfold State.msdosFree
  split
  · rfl
  · rfl

theorem free_served (h : Inv s) (hrun : Runs s.ldt) (hc : c.ah = .free)
    (hcareful : Careful s c) :
    Frees host s c ∧ Inv (s.exec host c).2 ∧ Runs (s.exec host c).2.ldt := by
  unfold Careful at hcareful
  rw [hc] at hcareful
  obtain ⟨hinv, hfreed, hnone⟩ := h.free hcareful
  have hldt := msdosFree_ldt s (s.ldt.getSegmentBase c.regs.es)
  unfold Frees State.exec
  rw [hc]
  dsimp only
  rcases hfree : s.msdosFree (s.ldt.getSegmentBase c.regs.es) with ⟨ret, t⟩
  rw [hfree] at hinv hfreed hnone hldt
  dsimp only at hinv hfreed hnone hldt ⊢
  by_cases hex : ∃ b ∈ s.blocks, b.base = s.ldt.getSegmentBase c.regs.es
  · obtain ⟨b, hb, hbase⟩ := hex
    obtain ⟨rfl, hfr, hbl⟩ := hfreed b hb hbase
    rw [if_neg (by decide)]
    refine ⟨⟨fun b' hb' hbase' => ?_, fun hall => absurd hbase (hall b hb)⟩, hinv.of_ldt, ?_⟩
    · obtain rfl := h.eq_of_base hb hb' (hbase.trans hbase'.symm)
      exact ⟨rfl, hfr, hbl⟩
    · rw [hldt]
      have hreleases := freeDescriptor_releases host s.ldt c.regs.es
      exact hrun.of_same hreleases.toSameClients
  · have hall : ∀ b ∈ s.blocks, b.base ≠ s.ldt.getSegmentBase c.regs.es :=
      fun b hb hbase => hex ⟨b, hb, hbase⟩
    obtain ⟨rfl, rfl⟩ := Prod.mk.inj (hnone hall)
    rw [if_pos rfl]
    exact ⟨⟨fun b hb hbase => absurd hbase (hall b hb), fun _ => ⟨rfl, rfl, rfl⟩⟩, h, hrun⟩

theorem reallocate_served (h : Inv s) (hrun : Runs s.ldt) (hc : c.ah = .reallocate)
    (hlegal : Legal s c) (hcareful : Careful s c) :
    Reallocates host s c ∧ Inv (s.exec host c).2 ∧ Runs (s.exec host c).2.ldt := by
  unfold Careful at hcareful
  rw [hc] at hcareful
  unfold Reallocates State.exec
  rw [hc]
  dsimp only
  by_cases hex : ∃ b ∈ s.blocks, b.base = s.ldt.getSegmentBase c.regs.es
  · have hlead := hcareful hex
    obtain ⟨b, hb, hbase⟩ := hex
    have honly (b' : PmBlock) (hb' : b' ∈ s.blocks)
        (hbase' : b'.base = s.ldt.getSegmentBase c.regs.es) : b = b' :=
      h.eq_of_base hb hb' (hbase.trans hbase'.symm)
    rw [← hbase] at hlead
    have hmoved := h.realloc hb hlead fun base size hmove => hlegal.2 b hb (base, size) hmove
    rw [hbase] at hmoved
    cases hanswer : c.answers.realloc b.handle with
    | none =>
        rw [hanswer] at hmoved
        dsimp only at hmoved
        rw [hmoved, if_pos rfl]
        refine ⟨⟨rfl, fun b' hb' hbase' => ?_, fun hall => absurd hbase (hall b hb)⟩, h, hrun⟩
        obtain rfl := honly b' hb' hbase'
        rw [hanswer]
        exact ⟨rfl, rfl⟩
    | some p =>
        obtain ⟨base, size⟩ := p
        rw [hanswer] at hmoved
        obtain ⟨t, hrealloc, hne, hinv, hfreed, hldt, hblocks⟩ := hmoved
        rw [hrealloc]
        dsimp only
        rw [if_neg hne]
        refine ⟨⟨hfreed, fun b' hb' hbase' => ?_, fun hall => absurd hbase (hall b hb)⟩,
          hinv.of_ldt, ?_⟩
        · obtain rfl := honly b' hb' hbase'
          rw [hanswer]
          exact ⟨rfl, hblocks⟩
        · rw [hldt]
          have hbase := setSegmentBaseAddress_onlyTable host s.ldt c.regs.es base
          have hlimit := setSegmentLimit_onlyTable host
            (s.ldt.setSegmentBaseAddress host c.regs.es base).2 c.regs.es
            (c.regs.bx.setWidth 32 <<< 4 - 1)
          exact hrun.of_same (hbase.trans hlimit).toSameClients
  · have hall : ∀ b ∈ s.blocks, b.base ≠ s.ldt.getSegmentBase c.regs.es :=
      fun b hb hbase => hex ⟨b, hb, hbase⟩
    rw [h.realloc_none hall, if_pos rfl]
    exact ⟨⟨rfl, fun b hb hbase => absurd hbase (hall b hb), fun _ => ⟨rfl, rfl⟩⟩, h, hrun⟩

theorem exec_served (haccept : Accepts host) (h : Inv s) (hrun : Runs s.ldt) (hlegal : Legal s c)
    (hcareful : Careful s c) :
    Contract host s c ∧ Inv (s.exec host c).2 ∧ Runs (s.exec host c).2.ldt := by
  unfold Contract
  cases hc : c.ah with
  | allocate =>
      obtain ⟨hacts, hinv, hruns⟩ := allocate_served haccept h hrun hc hlegal hcareful
      exact ⟨⟨hacts, hinv.accounted⟩, hinv, hruns⟩
  | free =>
      obtain ⟨hacts, hinv, hruns⟩ := @free_served host s c h hrun hc hcareful
      exact ⟨⟨hacts, hinv.accounted⟩, hinv, hruns⟩
  | reallocate =>
      obtain ⟨hacts, hinv, hruns⟩ := @reallocate_served host s c h hrun hc hlegal hcareful
      exact ⟨⟨hacts, hinv.accounted⟩, hinv, hruns⟩

/-! ## Runs -/

theorem State.Fresh.inv (h : s.Fresh) : Inv s where
  held := by
    rw [h.memMap, h.blocks, List.filter_replicate]
    exact List.Perm.refl _
  bases := by
    rw [h.blocks]
    exact List.nodup_nil
  fresh := by
    rw [h.issued]
    exact List.nodup_nil
  account := by
    rw [h.freed, h.blocks, h.issued]
    exact List.Perm.refl _

/-- While DPMI holds fewer blocks than there are slots, one is free. -/
theorem Inv.room (h : Inv s) (hlen : s.blocks.length < s.memMap.length) :
    ∃ slot ∈ s.memMap, slot.size = 0 := by
  by_contra hnone
  have hall : s.memMap.filter live = s.memMap := by
    refine List.filter_eq_self.mpr fun b hb => ?_
    simpa [live] using fun hzero => hnone ⟨b, hb, hzero⟩
  have hperm := h.held.length_eq
  rw [hall] at hperm
  omega

theorem length_msdosMalloc (answer : Option PmBlock) :
    (s.msdosMalloc answer).2.memMap.length = s.memMap.length := by
  unfold State.msdosMalloc State.dpmiMalloc
  cases answer with
  | none => rfl
  | some b =>
      dsimp only
      split
      · rfl
      · split
        · rfl
        · exact List.length_set

theorem mem_msdosMalloc {slot : PmBlock} (h : slot ∈ (s.msdosMalloc (some b)).2.memMap) :
    slot = b ∨ slot ∈ s.memMap := by
  unfold State.msdosMalloc State.dpmiMalloc at h
  dsimp only at h
  split at h
  · exact Or.inr h
  · split at h
    · exact Or.inr h
    · exact (List.mem_or_eq_of_mem_set h).symm

theorem State.Initial.start (h : s.Initial) : Inv s ∧ Runs s.ldt := by
  rcases h with hfresh | ⟨t, rmcb, name, hfresh, hrmcb, hname, hhandle, hbase, hsep, rfl⟩
  · exact ⟨hfresh.inv, hfresh.inDpmi, hfresh.currentClient⟩
  have hinv := hfresh.inv
  have hlen : t.memMap.length = msdosMaxMemAllocs := by rw [hfresh.memMap, List.length_replicate]
  obtain ⟨-, -, hblocks₁, hissued₁, hldt₁⟩ := @msdosMalloc_some t rmcb hrmcb
  rw [hfresh.blocks] at hblocks₁
  rw [hfresh.issued] at hissued₁
  have hinv₁ : Inv (t.msdosMalloc (some rmcb)).2 := hinv.malloc (fun b hb => by
    cases hb
    refine ⟨hrmcb, ?_, fun b' hb' => ?_⟩
    · rw [hfresh.issued]
      exact List.not_mem_nil
    · rw [hfresh.blocks] at hb'
      cases hb') fun _ => hinv.room (by rw [hfresh.blocks, hlen]; decide)
  have hslots₁ (slot : PmBlock) (h : slot ∈ (t.msdosMalloc (some rmcb)).2.memMap) :
      slot = rmcb ∨ slot = noBlock := by
    refine (mem_msdosMalloc h).imp id fun h => ?_
    rw [hfresh.memMap] at h
    exact List.eq_of_mem_replicate h
  have hlen₁ := (@length_msdosMalloc t (some rmcb)).trans hlen
  unfold State.firstClient
  dsimp only
  generalize (t.msdosMalloc (some rmcb)).2 = u at *
  have hinv₂ : Inv (u.msdosMalloc (some name)).2 := hinv₁.malloc (fun b hb => by
    cases hb
    refine ⟨hname, ?_, fun b' hb' => ?_⟩
    · rw [hissued₁]
      exact fun hmem => hhandle (List.mem_singleton.mp hmem).symm
    · rw [hblocks₁] at hb'
      rw [List.mem_singleton.mp hb']
      exact hsep) fun _ => hinv₁.room (by
      rw [hblocks₁, hlen₁, List.length_singleton]
      decide)
  obtain ⟨haddr, -, -, -, hldt₂⟩ := @msdosMalloc_some u name hname
  rw [haddr]
  have hlead : (u.msdosMalloc (some name)).2.Leads name.base := by
    intro slot hfind hzero
    have hslot : slot.base = name.base := by simpa using List.find?_some hfind
    rcases mem_msdosMalloc (List.mem_of_find?_eq_some hfind) with rfl | hmem
    · exact hname hzero
    · rcases hslots₁ slot hmem with rfl | rfl
      · exact hrmcb hzero
      · exact hbase hslot.symm
  refine ⟨(hinv₂.free hlead).1, ?_⟩
  rw [msdosFree_ldt, hldt₂, hldt₁]
  exact ⟨hfresh.inDpmi, hfresh.currentClient⟩

/-- In a run of a client, each call acts on the block that it names, and each block that was ever
handed out is freed once, at the end of the client at the latest. -/
theorem memory_accounted (host : Host) (haccept : Accepts host) (s : State) (hinit : s.Initial)
    (cs : List Call) (hlegal : Run.Admits (step host) Legal s cs)
    (hcareful : Run.Admits (step host) Careful s cs) :
    Run.Admits (step host) (Contract host) s cs := by
  refine Run.admits_imp (fun s => Inv s ∧ Runs s.ldt) (fun s c t hinv hok hstep => ?_)
    (fun s c hinv hok => (exec_served haccept hinv.1 hinv.2 hok.1 hok.2).1) hinit.start
    (hlegal.and hcareful)
  obtain rfl := Option.some.inj hstep
  exact (exec_served haccept hinv.1 hinv.2 hok.1 hok.2).2

/-! ## Instances -/

instance : DecidableRel PmBlock.Separate :=
  fun _ _ => inferInstanceAs (Decidable (_ ∨ _))

instance (s : State) (c : Call) : Decidable (Legal s c) :=
  -- decided on the answer, not over all pairs of words
  letI (b : PmBlock) : Decidable (∀ m ∈ c.answers.realloc b.handle, m.2 ≠ 0 ∧ m.1 ≠ 0 ∧
      ∀ b' ∈ s.blocks, b' ≠ b → (PmBlock.mk b.handle m.1 m.2).Separate b') :=
    Option.decidableForallMem _
  inferInstanceAs (Decidable (_ ∧ _))

instance (s : State) (addr : BitVec 32) : Decidable (s.Leads addr) :=
  inferInstanceAs (Decidable (∀ slot ∈ s.memMap.find? (·.base = addr), slot.size ≠ 0))

instance (s : State) (c : Call) : Decidable (Careful s c) :=
  match h : c.ah with
  | .allocate => decidable_of_iff (c.answers.malloc.isSome = true → c.regs.bx ≠ 0 ∧
      (∃ slot ∈ s.memMap, slot.size = 0) ∧
        (s.ldt.nextFree 1 maxSelectors (0x10 + 1)).isSome = true) (by rw [Careful, h])
  | .free => decidable_of_iff (s.Leads (s.ldt.getSegmentBase c.regs.es)) (by rw [Careful, h])
  | .reallocate => decidable_of_iff ((∃ b ∈ s.blocks, b.base = s.ldt.getSegmentBase c.regs.es) →
      s.Leads (s.ldt.getSegmentBase c.regs.es)) (by rw [Careful, h])

/-- A client that has no memory yet. -/
def noMemoryYet : State :=
  ⟨List.replicate msdosMaxMemAllocs noBlock, oneClient, [], [], []⟩

theorem noMemoryYet_initial : noMemoryYet.Initial :=
  Or.inl ⟨rfl, rfl, rfl, rfl, by decide, by decide⟩

/-- A call with its arguments in BX and ES; DPMI answers with a block or moves one. -/
def Call.of (ah : Function) (bx es : BitVec 16) (malloc : Option PmBlock)
    (realloc : BitVec 32 → Option (BitVec 32 × BitVec 32)) : Call :=
  ⟨ah, ⟨0, bx, 0, es, 0, 0, false⟩, ⟨malloc, realloc, 0⟩⟩

/-- Two blocks; the first one is freed and the second one moves there. -/
def movedToFreed : List Call :=
  [.of .allocate 0x200#16 0 (some ⟨1, 0x20000000#32, 0x2000#32⟩) fun _ => none,
    .of .allocate 0x100#16 0 (some ⟨2, 0x20002000#32, 0x1000#32⟩) fun _ => none,
    .of .free 0 0x8f#16 none fun _ => none,
    .of .reallocate 0x200#16 0x97#16 none fun _ => some (0x20000000#32, 0x2000#32)]

def soft : Host :=
  ⟨false, fun _ _ => 0⟩

theorem soft_accepts : Accepts soft := by
  intro hnative
  cases hnative

/-- A run of careful calls, up to the move. -/
theorem memory_accounted_moved : Run.Admits (step soft) (Contract soft) noMemoryYet movedToFreed :=
  memory_accounted soft soft_accepts noMemoryYet noMemoryYet_initial movedToFreed
    (by decide +kernel) (by decide +kernel)

/-- The block that moved cannot be freed any more: its address leads to the slot of the block that
was there before, whose handle is freed again. -/
theorem memory_accounted_fails :
    ¬∀ (host : Host) (s : State) (cs : List Call), Accepts host → s.Initial →
      Run.Admits (step host) Legal s cs → Run.Admits (step host) (Contract host) s cs := by
  intro h
  have hrun := h soft noMemoryYet
    (movedToFreed ++ [.of .free 0 0x97#16 none fun _ => none]) soft_accepts noMemoryYet_initial
    (by decide +kernel)
  have hcounts : ((Run.run (step soft) noMemoryYet movedToFreed).map fun t =>
      let u := (t.exec soft (.of .free 0 0x97#16 none fun _ => none)).2
      (u.msdosFreeMem.freed.length, u.issued.length)) = some (3, 2) := by decide +kernel
  obtain ⟨t, ht, hlengths⟩ := Option.map_eq_some_iff.mp hcounts
  obtain ⟨⟨-, -, hperm⟩, -⟩ := (Run.admits_append.mp hrun).2 t ht
  obtain ⟨hfreed, hissued⟩ := Prod.mk.inj hlengths
  have hlen := hperm.length_eq
  rw [hfreed, hissued] at hlen
  exact absurd hlen (by decide)

end MemMap
end Msdos
end Dosemu
