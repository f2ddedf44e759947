import Dosemu.Vga.Access

/-!
# Copies from and to guest memory

The copy routines of `dos2linux.c`.  They ask the video emulation about the two start
addresses, and otherwise go page by page, since EMS can give neighbouring pages of the
guest any places in host memory.

Main results:

- Theorem `pageCopies_follows`: the page loops go from the one region to the other.
- Theorem `transfers_iff`: without the planar logic of the VGA a routine brings the bytes
  of its source to its destination exactly if its copies are sound.
- Theorem `Clear.transfers`: with it, the bytes go through `vga_read` and `vga_write` in
  order, if those do not spoil what is still to be read.
-/

namespace Dosemu
namespace Vga

open ByteCopy MachineInt

/-! ## The routines -/

/-- The bytes from an address to the end of its page, `bound - src` -/
def pageRoom (addr : Nat) : Nat :=
  uwrap 32 (uwrap 32 ((addr &&& (2 ^ 32 - 2 ^ 12) : Nat) + 4096) - addr)

namespace End

/-- How much of `n` bytes fits in the page of an end -/
def room (n : Nat) : End → Nat
  | .unix _ => n
  | .dos addr => pageRoom addr

def advance (k : Nat) : End → End
  | .unix l => .unix (l.add k)
  | .dos addr => .dos (dosAddr addr k)

/-- The address of an end in guest memory -/
def addr : End → Nat
  | .unix _ => 0
  | .dos addr => addr

/-- A `dosaddr_t` has 32 bits. -/
def Fits : End → Prop
  | .unix _ => True
  | .dos addr => addr < 2 ^ 32

end End

variable (v : Adapter)

/-- The loop of the routines: as much as fits in the current pages, then the rest -/
def pageCopies : Nat → End → End → Nat → List (Copy Space)
  | 0, _, _, _ => []
  | fuel + 1, d, s, n =>
      if n = 0 then []
      else
        let toCopy := min n (min (s.room n) (d.room n))
        ⟨v.ptr d, v.ptr s, toCopy⟩ ::
          pageCopies fuel (d.advance toCopy) (s.advance toCopy) (n - toCopy)

section Routines

variable (memcpy : Memory → Loc → Loc → Nat → Memory)

/-- `memcpy_2unix` -/
def memcpy2unix (dst : Loc) (src n : Nat) (st : State) : State :=
  if v.readAccess src then memcpyFromVga v memcpy dst src n st
  else { st with mem := perform memcpy st.mem (pageCopies v n (.unix dst) (.dos src) n) }

/-- `memcpy_2dos` -/
def memcpy2dos (dst : Nat) (src : Loc) (n : Nat) (st : State) : State :=
  if v.writeAccess dst then memcpyToVga v memcpy dst src n st
  else { st with mem := perform memcpy st.mem (pageCopies v n (.dos dst) (.unix src) n) }

/-- The common body of `memcpy_dos2dos` and `memmove_dos2dos`, by the function that their
page loops call -/
def copyDos2dos (inPage : Memory → Loc → Loc → Nat → Memory) (dst src n : Nat)
    (st : State) : Option State :=
  if v.readAccess src then
    if v.writeAccess dst then vgaMemcpy v memcpy dst src n st
    else some (memcpyDosFromVga v memcpy dst src n st)
  else if v.writeAccess dst then some (memcpyDosToVga v memcpy dst src n st)
  else some { st with mem := perform inPage st.mem (pageCopies v n (.dos dst) (.dos src) n) }

/-- `memcpy_dos2dos` -/
def memcpyDos2dos : Nat → Nat → Nat → State → Option State :=
  copyDos2dos v memcpy memcpy

/-- `memmove_dos2dos` -/
def memmoveDos2dos : Nat → Nat → Nat → State → Option State :=
  copyDos2dos v memcpy copied

/-- The routine for two ends; with `move`, ends of one kind are copied by `memmove`. -/
def copyEnds (move : Bool) (n : Nat) (st : State) : End → End → Option State
  | .unix d, .unix s => some { st with mem := (if move then copied else memcpy) st.mem d s n }
  | .dos d, .unix s => some (memcpy2dos v memcpy d s n st)
  | .unix d, .dos s => some (memcpy2unix v memcpy d s n st)
  | .dos d, .dos s =>
      if move then memmoveDos2dos v memcpy d s n st else memcpyDos2dos v memcpy d s n st

end Routines

/-! ## What a copy is to do -/

/-- `vga_read_access` for an end -/
def Adapter.reads : End → Bool
  | .unix _ => false
  | .dos addr => v.readAccess addr

/-- `vga_write_access` for an end -/
def Adapter.writes : End → Bool
  | .unix _ => false
  | .dos addr => v.writeAccess addr

/-- The planar logic has a part in the copy. -/
def Adapter.Planar (d s : End) : Prop :=
  v.instEmu = true ∧ (v.reads s = true ∨ v.writes d = true)

/-- The calls of `memcpy` and `memmove`, without the planar logic -/
def calls (n : Nat) : End → End → List (Copy Space)
  | .unix d, .unix s => [⟨d, s, n⟩]
  | d, s => if v.writes d then [⟨v.ptr d, v.ptr s, n⟩] else pageCopies v n d s n

/-- They are calls of `memmove`. -/
def byMemmove (move : Bool) : End → End → Bool
  | .unix _, .unix _ => move
  | .dos d, .dos _ => move && !v.writeAccess d
  | _, _ => false

/-- The bytes that `vga_read` looks at -/
def readCells (addr : Nat) : List (Loc) :=
  if v.instEmu && v.readAccess addr then
    [0, 1, 2, 3].map (v.planeCell (uwrap 32 ((addr : Int) - v.bankBase)))
  else [⟨.host, v.unix addr⟩]

/-- The bytes that `vga_write` may change -/
def writeCells (addr : Nat) : List (Loc) :=
  if v.instEmu && v.bankAccess addr then
    [0, 1, 2, 3].map (v.planeCell (uwrap 32 ((addr : Int) - v.bankBase)))
  else
    match v.offset addr with
    | some offs => [⟨.host, v.base + offs⟩]
    | none => [⟨.host, v.unix addr⟩]

/-- `vga_write` of given values, in order -/
def putBytes (dst : Nat) (vals : Nat → Byte) : Nat → State → State :=
  forBytes fun i s => vgaWrite v (dosAddr dst i) (vals i) s

/-- What a copy makes of the state: bytes arrive as they were before.  Through the planar
logic they are handed to `vga_write` in order, or are what `vga_read` gives for them; with
both, each is written before the next one is read, as it uses the latch. -/
structure Moved (d s : End) (n : Nat) (st st' : State) : Prop where
  plain : ¬v.Planar d s → Brings st.mem st'.mem (v.cell d) (v.cell s) n
  toVga : v.Planar d s → v.reads s = false →
    st' = putBytes v d.addr (fun i => st.mem.at (v.cell s i)) n st
  fromVga : v.Planar d s → v.writes d = false →
    (∀ i < n, st'.mem.at (v.cell d i) = (vgaRead v (dosAddr s.addr i) st).1) ∧
      ∀ l, (∀ i < n, l ≠ v.cell d i) → st'.mem.at l = st.mem.at l
  within : v.reads s = true → v.writes d = true → st' = bytesInVga v d.addr s.addr n st

/-- The condition on a copy: its calls are sound; or no byte that goes through the planar
logic is spoiled before its turn. -/
structure Clear (move : Bool) (d s : End) (n : Nat) : Prop where
  plain : ¬v.Planar d s → Sound (byMemmove v move d s) (calls v n d s) (v.cell d) (v.cell s) n
  toVga : v.Planar d s → v.reads s = false → ∀ j < n, ∀ i < j,
    v.cell s j ∉ writeCells v (dosAddr d.addr i)
  fromVga : v.Planar d s → v.writes d = false → ∀ j < n, ∀ i < j,
    v.cell d i ∉ readCells v (dosAddr s.addr j) ∧ v.cell d i ≠ v.cell d j

/-- The routine for two ends comes back from every state and has moved the bytes. -/
def Transfers (move : Bool) (d s : End) (n : Nat) : Prop :=
  ∀ memcpy, Conforms memcpy → ∀ st, ∃ st', copyEnds v memcpy move n st d s = some st' ∧
    Moved v d s n st st'

/-! ## The page loops -/

section Pages

variable {v} {d s e : End} {n fuel k : Nat}

theorem pageRoom_eq {addr : Nat} (h : addr < 2 ^ 32) : pageRoom addr = 4096 - addr % 4096 := by
  have hmask := land_compl_mask (show 12 ≤ 32 by decide) h
  unfold pageRoom
  rw [hmask]
  unfold uwrap
  omega

theorem room_pos (he : e.Fits) (hn : n ≠ 0) : 0 < e.room n := by
  cases e with
  | unix l => exact Nat.pos_of_ne_zero hn
  | dos addr =>
      have hroom := pageRoom_eq he
      simp only [End.room]
      omega

/-- A byte of the first piece, which is in one page -/
theorem ptr_add (he : e.Fits) (hk : k < e.room n) : (v.ptr e).add k = v.cell e k := by
  cases e with
  | unix l => rfl
  | dos addr =>
      have hroom := pageRoom_eq he
      have haddr : addr < 2 ^ 32 := he
      simp only [End.room] at hk
      simp only [Adapter.ptr, Adapter.cell, dosAddr, Loc.add]
      rw [Nat.mod_eq_of_lt (by omega), Adapter.unix_add v (by omega)]

theorem cell_advance (i : Nat) : v.cell (e.advance k) i = v.cell e (k + i) := by
  cases e with
  | unix l => exact Loc.add_add l k i
  | dos addr =>
      simp only [End.advance, Adapter.cell, dosAddr, Nat.mod_add_mod, Nat.add_assoc]

theorem End.Fits.advance (he : e.Fits) : (e.advance k).Fits := by
  cases e with
  | unix l => trivial
  | dos addr => exact Nat.mod_lt _ (by decide)

/-- The page loops go from the one region to the other, wherever they wrap. -/
theorem pageCopies_follows (hd : d.Fits) (hs : s.Fits) (hn : n ≤ fuel) :
    Follows (pageCopies v fuel d s n) (v.cell d) (v.cell s) n := by
  induction fuel generalizing d s n with
  | zero =>
      obtain rfl : n = 0 := by omega
      simp [Follows, pageCopies]
  | succ fuel ih =>
      by_cases hzero : n = 0
      · subst hzero
        simp [Follows, pageCopies]
      · have hroomd := room_pos hd hzero
        have hrooms := room_pos hs hzero
        intro x y
        rw [pageCopies, if_neg hzero]
        simp only
        generalize hk : min n (min (s.room n) (d.room n)) = k
        have hrest := ih (hd.advance (k := k)) (hs.advance (k := k))
          (show n - k ≤ fuel by omega) x y
        simp only [cell_advance] at hrest
        rw [List.exists_mem_cons_iff, hrest]
        constructor
        · rintro (⟨j, hj, rfl, rfl⟩ | ⟨i, hi, hx, hy⟩)
          · simp only at hj
            exact ⟨j, by omega, ptr_add hd (show j < d.room n by omega),
              ptr_add hs (show j < s.room n by omega)⟩
          · exact ⟨k + i, by omega, hx, hy⟩
        · rintro ⟨i, hi, hx, hy⟩
          by_cases hfirst : i < k
          · left
            refine ⟨i, hfirst, ?_, ?_⟩
            · rw [hx, ptr_add hd (show i < d.room n by omega)]
            · rw [hy, ptr_add hs (show i < s.room n by omega)]
          · right
            refine ⟨i - k, by omega, ?_, ?_⟩
            · rw [hx, Nat.add_sub_cancel' (by omega)]
            · rw [hy, Nat.add_sub_cancel' (by omega)]

end Pages

/-! ## Copies without the planar logic -/

section Plain

variable {v} {d s : End} {n : Nat} {move : Bool}
  {memcpy : Memory → Loc → Loc → Nat → Memory} {st : State}

theorem instEmu_of_reads {addr : Nat} (h : v.readAccess addr = true) : v.instEmu = true := by
  unfold Adapter.readAccess at h
  by_contra hoff
  simp [hoff] at h

theorem reads_eq_false (h : ¬v.Planar d s) : v.reads s = false := by
  by_contra hreads
  rw [Bool.not_eq_false] at hreads
  refine h ⟨?_, Or.inl hreads⟩
  cases s with
  | unix l => cases hreads
  | dos addr => exact instEmu_of_reads hreads

theorem instEmu_eq_false (h : ¬v.Planar d s) (hwrites : v.writes d = true) :
    v.instEmu = false := by
  by_contra hemu
  exact h ⟨Bool.not_eq_false _ ▸ hemu, Or.inr hwrites⟩

/-- The routines are their calls. -/
theorem copyEnds_calls (h : ¬v.Planar d s) : ∃ st', copyEnds v memcpy move n st d s = some st' ∧
    st'.mem = perform (if byMemmove v move d s then copied else memcpy) st.mem (calls v n d s) := by
  have hreads := reads_eq_false h
  cases d with
  | unix d =>
      cases s with
      | unix s => exact ⟨_, rfl, rfl⟩
      | dos s =>
          have hread : ¬v.readAccess s = true := Bool.eq_false_iff.mp hreads
          refine ⟨_, rfl, ?_⟩
          rw [memcpy2unix, if_neg hread]
          rfl
  | dos d =>
      by_cases hwrite : v.writeAccess d = true
      · have hemu := instEmu_eq_false h hwrite
        cases s with
        | unix s =>
            refine ⟨_, rfl, ?_⟩
            rw [memcpy2dos, if_pos hwrite, memcpyToVga, copyToVga_mem hemu, calls]
            · simp only [Adapter.writes, hwrite, if_true, byMemmove, Bool.false_eq_true, if_false]
              rfl
            · exact fun _ _ heq _ => by cases heq
        | dos s =>
            have hread : ¬v.readAccess s = true := Bool.eq_false_iff.mp hreads
            refine ⟨memcpyDosToVga v memcpy d s n st, ?_, ?_⟩
            · simp only [copyEnds, memmoveDos2dos, memcpyDos2dos, copyDos2dos, if_neg hread,
                if_pos hwrite, ite_self]
            · rw [memcpyDosToVga, copyToVga_mem hemu, calls]
              · simp only [Adapter.writes, hwrite, if_true, byMemmove, Bool.not_true,
                  Bool.and_false, Bool.false_eq_true, if_false]
                rfl
              · exact fun _ _ heq _ => by cases heq
      · cases s with
        | unix s =>
            refine ⟨_, rfl, ?_⟩
            rw [memcpy2dos, if_neg hwrite, calls,
              if_neg (show ¬v.writes (.dos d) = true from hwrite)]
            · rfl
            · exact fun _ _ heq _ => by cases heq
        | dos s =>
            have hread : ¬v.readAccess s = true := Bool.eq_false_iff.mp hreads
            have hoff : v.writeAccess d = false := Bool.eq_false_iff.mpr hwrite
            have hcalls : calls v n (.dos d) (.dos s) = pageCopies v n (.dos d) (.dos s) n :=
              if_neg hwrite
            rw [hcalls]
            simp only [copyEnds, memmoveDos2dos, memcpyDos2dos, copyDos2dos, if_neg hread,
              byMemmove, hoff, Bool.not_false, Bool.and_true]
            cases move with
            | true => exact ⟨_, rfl, rfl⟩
            | false => exact ⟨_, rfl, rfl⟩

/-- What is not one `memcpy` goes from the one region to the other. -/
theorem calls_follows (hd : d.Fits) (hs : s.Fits) :
    Follows (calls v n d s) (v.cell d) (v.cell s) n ∨
      (byMemmove v move d s = false ∧ ∃ p q, calls v n d s = [⟨p, q, n⟩]) := by
  by_cases hwrites : v.writes d = true
  · right
    cases d with
    | unix d => cases hwrites
    | dos d =>
        have hwrite : v.writeAccess d = true := hwrites
        cases s with
        | unix s => exact ⟨rfl, _, _, if_pos hwrites⟩
        | dos s =>
            refine ⟨?_, _, _, if_pos hwrites⟩
            simp only [byMemmove, hwrite, Bool.not_true, Bool.and_false]
  · left
    have hpages := pageCopies_follows (v := v) hd hs (le_refl n)
    cases d with
    | unix d =>
        cases s with
        | unix s => simp [Follows, calls, Adapter.cell]
        | dos s => exact hpages
    | dos d =>
        have hcalls : ∀ s, calls v n (.dos d) s = pageCopies v n (.dos d) s n := by
          intro s
          cases s <;> exact if_neg hwrites
        rw [hcalls]
        exact hpages

/-- Regions of ordinary memory that share no byte, the first without a byte twice -/
theorem clear_of_apart (hd : d.Fits) (hs : s.Fits) (h : ¬v.Planar d s)
    (hwrites : v.writes d = false) (hapart : ∀ i < n, ∀ j < n, v.cell d i ≠ v.cell s j)
    (hinj : ∀ i < n, ∀ j < n, v.cell d i = v.cell d j → i = j)
    (hends : ∀ p q, d = .unix p → s ≠ .unix q) : Clear v move d s n := by
  have hcalls : calls v n d s = pageCopies v n d s n := by
    cases d with
    | unix d =>
        cases s with
        | unix s => exact absurd rfl (hends d s rfl)
        | dos s => rfl
    | dos d => cases s <;> exact if_neg (Bool.eq_false_iff.mp hwrites)
  have hfollows := pageCopies_follows (v := v) hd hs (le_refl n)
  rw [← hcalls] at hfollows
  have hcell : ∀ c ∈ calls v n d s, ∀ k < c.len, ∃ i < n,
      c.dst.add k = v.cell d i ∧ c.src.add k = v.cell s i := fun c hc k hk =>
    (hfollows _ _).mp ⟨c, hc, k, hk, rfl, rfl⟩
  refine ⟨fun _ => ⟨hfollows, fun _ c hc hmeets => ?_, ?_⟩, fun hp => absurd hp h,
    fun hp => absurd hp h⟩
  · obtain ⟨i, hi, j, hj, heq⟩ := exists_of_meets hmeets
    obtain ⟨i', hi', hdst, -⟩ := hcell c hc i hi
    obtain ⟨j', hj', -, hsrc⟩ := hcell c hc j hj
    exact hapart i' hi' j' hj' (hdst.symm.trans (heq.trans hsrc))
  · apply List.pairwise_of_forall_mem_list
    intro c hc c' hc' i hi j hj hcommon
    obtain ⟨i', hi', hdst, hsrc⟩ := hcell c hc i hi
    obtain ⟨j', hj', hdst', hsrc'⟩ := hcell c' hc' j hj
    rw [hdst, hsrc', hdst'] at hcommon
    rcases hcommon with heq | heq
    · exact absurd heq (hapart i' hi' j' hj')
    · rw [hsrc, hsrc', hinj i' hi' j' hj' heq]

/-- Without the planar logic a routine brings the bytes of its source to its destination
exactly if its copies are sound. -/
theorem transfers_iff (hd : d.Fits) (hs : s.Fits) (h : ¬v.Planar d s) :
    Transfers v move d s n ↔ Clear v move d s n := by
  have hbyte : Nontrivial Byte := ⟨0, 1, by decide⟩
  have hfollows : Follows (calls v n d s) (v.cell d) (v.cell s) n ∨
      (byMemmove v move d s = false ∧ ∃ p q, calls v n d s = [⟨p, q, n⟩]) := calls_follows hd hs
  have hsound := sound_iff (β := Byte) hfollows
  constructor
  · intro htransfers
    refine ⟨fun _ => hsound.mp fun memcpy hconf m => ?_, fun hp => absurd hp h,
      fun hp => absurd hp h⟩
    obtain ⟨st', hst', hmoved⟩ := htransfers memcpy hconf ⟨m, 0, fun _ => false⟩
    obtain ⟨st'', hst'', hmem⟩ := @copyEnds_calls v d s n move memcpy ⟨m, 0, fun _ => false⟩ h
    obtain rfl := Option.some.inj (hst'.symm.trans hst'')
    rw [← hmem]
    exact hmoved.plain h
  · intro hclear memcpy hconf st
    obtain ⟨st', hst', hmem⟩ := @copyEnds_calls v d s n move memcpy st h
    refine ⟨st', hst', ?_, fun hp => absurd hp h, fun hp => absurd hp h, ?_⟩
    · intro _
      rw [hmem]
      exact hsound.mpr (hclear.plain h) memcpy hconf st.mem
    · intro hreads
      rw [reads_eq_false h] at hreads
      cases hreads

end Plain

/-! ## Copies through the planar logic -/

section Planar

variable {v} {d s : End} {n : Nat} {move : Bool} {st st' : State} {addr : Nat}

theorem vgaRead_mem (addr : Nat) (st : State) : (vgaRead v addr st).2.mem = st.mem := by
  unfold vgaRead logicalVgaRead
  split
  · rfl
  · simp only
    split <;> rfl

/-- What `vga_read` gives depends on the bytes it looks at. -/
theorem vgaRead_congr (h : ∀ l ∈ readCells v addr, st.mem.at l = st'.mem.at l) :
    (vgaRead v addr st).1 = (vgaRead v addr st').1 := by
  unfold readCells at h
  unfold vgaRead
  rw [← Bool.not_and]
  cases hcells : v.instEmu && v.readAccess addr with
  | false =>
      rw [hcells, if_neg Bool.false_ne_true] at h
      exact h _ List.mem_cons_self
  | true =>
      rw [hcells, if_pos rfl] at h
      simp only [List.map_cons, List.map_nil, List.forall_mem_cons] at h
      simp only [Bool.not_true, Bool.false_eq_true, if_false, logicalVgaRead, h.1, h.2.1, h.2.2.1,
        h.2.2.2.1]
      split <;> rfl

/-- `vga_write` changes no other bytes. -/
theorem vgaWrite_frame {l : Loc} {val : Byte} (h : l ∉ writeCells v addr) :
    (vgaWrite v addr val st).mem.at l = st.mem.at l := by
  unfold writeCells at h
  unfold vgaWrite
  rw [← Bool.not_and]
  cases hcells : v.instEmu && v.bankAccess addr with
  | false =>
      rw [hcells, if_neg Bool.false_ne_true] at h
      rw [Bool.not_false, if_pos rfl]
      cases hoffs : v.offset addr with
      | none =>
          rw [hoffs] at h
          exact (Mem.at_set _ _ _ _).trans (if_neg fun heq => h (List.mem_singleton.mpr heq))
      | some offs =>
          rw [hoffs] at h
          simp only [markDirty_mem]
          exact (Mem.at_set _ _ _ _).trans (if_neg fun heq => h (List.mem_singleton.mpr heq))
  | true =>
      rw [hcells, if_pos rfl] at h
      simp only [List.map_cons, List.map_nil, List.mem_cons, List.not_mem_nil, or_false,
        not_or] at h
      rw [Bool.not_true, if_neg Bool.false_ne_true]
      have hmem : ∀ m : Memory, ([0, 1, 2, 3].foldl (fun mem p =>
          if v.gfx.mapMask.getLsbD p then
            mem.set (v.planeCell (uwrap 32 ((addr : Int) - v.bankBase)) p)
              (planeByte (v.gfx.calcNewVal st.latch val) p)
          else mem) m).at l = m.at l := by
        intro m
        simp only [List.foldl_cons, List.foldl_nil, apply_ite (Mem.at · l), Mem.at_set, h, if_false,
          ite_self]
      unfold logicalVgaWrite
      simp only
      split <;> exact hmem st.mem

/-- Bytes on their way to video memory -/
theorem bytesToVga_eq {src : End} {dst : Nat}
    (h : ∀ j < n, ∀ i < j, v.cell src j ∉ writeCells v (dosAddr dst i)) :
    bytesToVga v dst src n st = putBytes v dst (fun i => st.mem.at (v.cell src i)) n st := by
  induction n with
  | zero => rfl
  | succ n ih =>
      have hkeep : ∀ k ≤ n, (putBytes v dst (fun i => st.mem.at (v.cell src i)) k st).mem.at
          (v.cell src n) = st.mem.at (v.cell src n) := by
        intro k hk
        induction k with
        | zero => rfl
        | succ k ihk =>
            exact (vgaWrite_frame (h n (Nat.lt_succ_self n) k hk)).trans (ihk (by omega))
      have hrest := ih fun j hj => h j (by omega)
      change vgaWrite v (dosAddr dst n) ((bytesToVga v dst src n st).mem.at (v.cell src n))
        (bytesToVga v dst src n st) = vgaWrite v (dosAddr dst n) (st.mem.at (v.cell src n)) _
      rw [hrest, hkeep n le_rfl]
      rfl

/-- Bytes on their way from video memory -/
theorem bytesFromVga_eq {dst : End} {src : Nat}
    (h : ∀ j < n, ∀ i < j,
      v.cell dst i ∉ readCells v (dosAddr src j) ∧ v.cell dst i ≠ v.cell dst j) :
    (∀ i < n, (bytesFromVga v dst src n st).mem.at (v.cell dst i) =
        (vgaRead v (dosAddr src i) st).1) ∧
      ∀ l, (∀ i < n, l ≠ v.cell dst i) → (bytesFromVga v dst src n st).mem.at l = st.mem.at l := by
  induction n with
  | zero => exact ⟨fun i hi => absurd hi (Nat.not_lt_zero i), fun l _ => rfl⟩
  | succ n ih =>
      obtain ⟨hdone, hframe⟩ := ih fun j hj => h j (by omega)
      have hstep : ∀ l, (bytesFromVga v dst src (n + 1) st).mem.at l = if l = v.cell dst n then
          (vgaRead v (dosAddr src n) st).1 else (bytesFromVga v dst src n st).mem.at l := by
        intro l
        have hread : (vgaRead v (dosAddr src n) (bytesFromVga v dst src n st)).1 =
            (vgaRead v (dosAddr src n) st).1 := by
          refine vgaRead_congr fun l hl => hframe l fun i hi heq => ?_
          exact (h n (Nat.lt_succ_self n) i hi).1 (heq ▸ hl)
        rw [← hread]
        unfold bytesFromVga
        rw [forBytes]
        exact (Mem.at_set _ _ _ _).trans (by rw [vgaRead_mem])
      constructor
      · intro i hi
        rw [hstep]
        by_cases hlast : i = n
        · subst hlast
          exact if_pos rfl
        · rw [if_neg ((h n (Nat.lt_succ_self n) i (by omega)).2)]
          exact hdone i (by omega)
      · intro l hl
        rw [hstep, if_neg (hl n (Nat.lt_succ_self n))]
        exact hframe l fun i hi => hl i (by omega)

/-- A copy that is clear moves the bytes, with the planar logic or without it. -/
theorem Clear.transfers (hd : d.Fits) (hs : s.Fits) (h : Clear v move d s n) :
    Transfers v move d s n := by
  by_cases hplanar : v.Planar d s
  · intro memcpy _ st
    have hemu := hplanar.1
    have hto := h.toVga hplanar
    have hfrom := h.fromVga hplanar
    cases d with
    | unix d =>
        cases s with
        | unix s => exact (hplanar.2.elim Bool.false_ne_true Bool.false_ne_true).elim
        | dos s =>
            have hread : v.readAccess s = true := hplanar.2.resolve_right Bool.false_ne_true
            refine ⟨bytesFromVga v (.unix d) s n st, ?_, fun hno => absurd hplanar hno, ?_, ?_, ?_⟩
            · simp only [copyEnds, memcpy2unix, if_pos hread, memcpyFromVga, copyFromVga, hemu,
                if_true]
            · exact fun _ hreads => absurd (hread.symm.trans hreads) (by decide)
            · exact fun _ _ => bytesFromVga_eq (hfrom rfl)
            · exact fun _ hwrites => absurd hwrites Bool.false_ne_true
    | dos d =>
        cases s with
        | unix s =>
            have hwrite : v.writeAccess d = true := hplanar.2.resolve_left Bool.false_ne_true
            refine ⟨bytesToVga v d (.unix s) n st, ?_, fun hno => absurd hplanar hno, ?_, ?_, ?_⟩
            · simp only [copyEnds, memcpy2dos, if_pos hwrite, memcpyToVga, copyToVga, hemu,
                if_true]
            · exact fun _ _ => bytesToVga_eq (hto rfl)
            · exact fun _ hwrites => absurd (hwrite.symm.trans hwrites) (by decide)
            · exact fun hreads => absurd hreads Bool.false_ne_true
        | dos s =>
            have hends : copyEnds v memcpy move n st (.dos d) (.dos s) =
                if v.readAccess s then
                  if v.writeAccess d then some (bytesInVga v d s n st)
                  else some (bytesFromVga v (.dos d) s n st)
                else some (bytesToVga v d (.dos s) n st) := by
              have hone : v.readAccess s = true ∨ v.writeAccess d = true := hplanar.2
              simp only [copyEnds, memmoveDos2dos, memcpyDos2dos, copyDos2dos, vgaMemcpy,
                memcpyDosFromVga, memcpyDosToVga, copyFromVga, copyToVga, hemu, if_true]
              rcases hone with hone | hone <;> simp [hone]
            cases hread : v.readAccess s with
            | false =>
                have hwrite : v.writeAccess d = true :=
                  hplanar.2.resolve_left fun hreads => absurd (hread.symm.trans hreads) (by decide)
                refine ⟨bytesToVga v d (.dos s) n st, ?_, fun hno => absurd hplanar hno, ?_, ?_, ?_⟩
                · rw [hends, if_neg (Bool.eq_false_iff.mp hread)]
                · exact fun _ _ => bytesToVga_eq (hto hread)
                · exact fun _ hwrites => absurd (hwrite.symm.trans hwrites) (by decide)
                · exact fun hreads => absurd (hread.symm.trans hreads) (by decide)
            | true =>
                rw [hends, if_pos hread]
                cases hwrite : v.writeAccess d with
                | false =>
                    rw [if_neg Bool.false_ne_true]
                    refine ⟨_, rfl, fun hno => absurd hplanar hno, ?_, ?_, ?_⟩
                    · exact fun _ hreads => absurd (hread.symm.trans hreads) (by decide)
                    · exact fun _ _ => bytesFromVga_eq (hfrom hwrite)
                    · exact fun _ hwrites => absurd (hwrite.symm.trans hwrites) (by decide)
                | true =>
                    rw [if_pos rfl]
                    refine ⟨_, rfl, fun hno => absurd hplanar hno, ?_, ?_, fun _ _ => rfl⟩
                    · exact fun _ hreads => absurd (hread.symm.trans hreads) (by decide)
                    · exact fun _ hwrites => absurd (hwrite.symm.trans hwrites) (by decide)
  · exact (transfers_iff hd hs hplanar).mpr h

end Planar

end Vga
end Dosemu
