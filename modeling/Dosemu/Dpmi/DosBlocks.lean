import Dosemu.Dpmi.DosMemory

/-!
# Blocks of DOS memory over whole runs

The blocks that a client has from function 0100h and has not given back: which
descriptors each of them has, over any sequence of calls and answers of DOS.

`World` adds the live blocks to the host, which the source does not record.  A
refused call has to leave everything as it was.  It does not if DOS refuses to
free a block, or to resize it to nothing: the descriptors were freed before DOS
was asked, and are not brought back.  A block that ends with the last entry of
the table grows into the first entries, since the selector behind it overflows.

Main results:

- Theorem `next_sound`: one call keeps what is known of the blocks.
- Theorem `dos_blocks_kept`: so does every run of careful calls, and a refused
  call changes nothing.
-/

namespace Dosemu
namespace Dpmi
namespace DosMemory

/-- A block: its base address and its size. -/
structure Block where
  base : BitVec 32
  paras : BitVec 16
  deriving DecidableEq

/-- The length of a block in bytes. -/
def Block.length (b : Block) : Nat :=
  (bytes b.paras).toNat

/-- The host, and the live blocks by their first entries. -/
structure World where
  state : State
  blocks : Nat → Option Block

/-- A call of a DOS memory function, with the answer that DOS would give. -/
structure DosCall where
  regs : Regs
  answer : DosAnswer
  service : regs.ax = 0x0100 ∨ regs.ax = 0x0101 ∨ regs.ax = 0x0102

/-- The host after the call. -/
def World.machine (host : Host) (w : World) (call : DosCall) : Machine :=
  int31 host ⟨w.state, call.regs⟩ call.answer

/-- The blocks change when a call succeeds.  A block of no paragraphs has no descriptor by which
it could be named. -/
def World.next (host : Host) (w : World) (call : DosCall) : World :=
  let m := w.machine host call
  { state := m.state
    blocks :=
      if m.regs.cf then w.blocks
      else if call.regs.ax = 0x0100 then
        Function.update w.blocks (ldtEntry m.regs.dx) (some ⟨bytes call.answer.ax, call.regs.bx⟩)
      else if call.regs.ax = 0x0101 then
        Function.update w.blocks (ldtEntry call.regs.dx) none
      else
        Function.update w.blocks (ldtEntry call.regs.dx)
          (if call.regs.bx = 0 then none
          else (w.blocks (ldtEntry call.regs.dx)).map fun b => { b with paras := call.regs.bx }) }

/-- The selector of the call is that of a live block. -/
def World.Names (w : World) (call : DosCall) (b : Block) : Prop :=
  call.regs.dx.getLsbD 2 = true ∧ w.blocks (ldtEntry call.regs.dx) = some b

/-- The client frees and resizes its blocks, by their first descriptors; it may also use a
selector that is not in use. -/
def World.Proper (w : World) (call : DosCall) : Prop :=
  call.regs.ax = 0x0100 ∨ (∃ b, w.Names call b) ∨
    w.state.validAndUsedSelector call.regs.dx = false

/-- The calls that meet none of the defects: DOS does not refuse to free a block or to resize it
to nothing, and a block that ends with the table does not grow into free entries at its start. -/
def World.Careful (w : World) (call : DosCall) : Prop :=
  ∀ b, w.Names call b →
    (call.regs.ax = 0x0101 → call.answer.carry = false) ∧
    (call.regs.ax = 0x0102 → (call.regs.bx = 0 → call.answer.carry = false) ∧
      (descs b.length < descs (bytes call.regs.bx).toNat →
        ldtEntry call.regs.dx + descs b.length = maxSelectors →
          ¬Free w.state 0 (descs (bytes call.regs.bx).toNat - descs b.length)))

/-- The state of the host after careful calls. -/
inductive Reached (host : Host) (s : State) : World → Prop where
  | start : Reached host s ⟨s, fun _ => none⟩
  | step {w : World} {call : DosCall} (h : Reached host s w) (hproper : w.Proper call)
      (hcareful : w.Careful call) : Reached host s (w.next host call)

/-- The entry is one of the block's. -/
def Within (e : Nat) (b : Block) (x : Nat) : Prop :=
  e ≤ x ∧ x < e + descs b.length

/-- What is known of the live blocks: each has its descriptors, none shares one with another, and
beside them the client owns what it owned before. -/
structure Sound (others : Set Nat) (w : World) : Prop where
  client : Client16 w.state
  used : ∀ e b, w.blocks e = some b → 0 < b.length
  has : ∀ e b, w.blocks e = some b → HasBlock w.state e b.base b.length
  apart : ∀ e b e' b' x, w.blocks e = some b → w.blocks e' = some b' → Within e b x →
    Within e' b' x → e = e'
  beside : ∀ e b x, w.blocks e = some b → Within e b x → x ∉ others
  exact : ∀ x, w.state.user x = w.state.currentClient + 1 ↔
    x ∈ others ∨ ∃ e b, w.blocks e = some b ∧ Within e b x

variable {host : Host} {s t : State} {w : World} {call : DosCall} {others : Set Nat}
variable {b : Block} {e : Nat}

theorem HasBlock.congr {base : BitVec 32} {len : Nat} (h : HasBlock s e base len)
    (hclient : t.currentClient = s.currentClient)
    (huser : ∀ x, e ≤ x → x < e + descs len → t.user x = s.user x)
    (hseg : ∀ x, e ≤ x → x < e + descs len → t.segments x = s.segments x) :
    HasBlock t e base len where
  client := hclient ▸ h.client
  fits := h.fits
  user x hlo hhi := by rw [huser x hlo hhi, hclient, h.user x hlo hhi]
  segments i hi := by rw [hseg _ (by omega) (by omega), h.segments i hi]

/-- The entries of a block are the client's. -/
theorem Sound.owner (h : Sound others w) (hb : w.blocks e = some b) {x : Nat} (hx : Within e b x) :
    w.state.user x = w.state.currentClient + 1 :=
  (h.has e b hb).user x hx.1 hx.2

/-- Nothing has changed. -/
theorem Sound.same (h : Sound others w) (hsame : SameTable w.state t) :
    Sound others ⟨t, w.blocks⟩ where
  client := h.client.mono hsame.toSameClients
  used := h.used
  has e b hb := by
    refine (h.has e b hb).congr hsame.currentClient (fun x _ _ => by rw [hsame.user]) ?_
    intro x hlo hhi
    exact hsame.segments x (h.owner hb ⟨hlo, hhi⟩)
  apart := h.apart
  beside := h.beside
  exact x := by
    simp only [hsame.user, hsame.currentClient]
    exact h.exact x

/-- The blocks after the one at `e` has been replaced. -/
theorem update_cases {blocks : Nat → Option Block} {new : Option Block} {e' : Nat} {b' : Block}
    (h : Function.update blocks e new e' = some b') :
    (e' = e ∧ new = some b') ∨ (e' ≠ e ∧ blocks e' = some b') := by
  by_cases he : e' = e
  · rw [he, Function.update_self] at h
    exact .inl ⟨he, h⟩
  · rw [Function.update_of_ne he] at h
    exact .inr ⟨he, h⟩

theorem Moves.user_in {owner : Nat} (h : Moves s t e (descs b.length) owner) {x : Nat}
    (hx : Within e b x) : t.user x = owner := by
  rw [h.user]
  exact if_pos hx

theorem Moves.user_out {owner : Nat} (h : Moves s t e (descs b.length) owner) {x : Nat}
    (hx : ¬Within e b x) : t.user x = s.user x := by
  rw [h.user]
  exact if_neg hx

/-- The block at `e` is replaced: all changes are made to its entries and to free ones. -/
theorem Sound.replace (h : Sound others w) (hsame : SameClients w.state t) {new : Option Block}
    {R : Nat → Prop}
    (hR : ∀ x, R x → w.state.user x = 0 ∨ ∃ b, w.blocks e = some b ∧ Within e b x)
    (hold : ∀ b x, w.blocks e = some b → Within e b x → R x)
    (hnew : ∀ b, new = some b → 0 < b.length ∧ HasBlock t e b.base b.length ∧
      ∀ x, Within e b x → R x)
    (hin : ∀ x, R x → (t.user x = w.state.currentClient + 1 ↔ ∃ b, new = some b ∧ Within e b x))
    (hout : ∀ x, ¬R x → t.user x = w.state.user x ∧ t.segments x = w.state.segments x) :
    Sound others ⟨t, Function.update w.blocks e new⟩ := by
  have hapart : ∀ e' b' x, e' ≠ e → w.blocks e' = some b' → Within e' b' x → ¬R x := by
    intro e' b' x hne hb' hx hRx
    rcases hR x hRx with hfree | ⟨b, hb, hxb⟩
    · have howner := h.owner hb' hx
      rw [hfree] at howner
      cases howner
    · exact hne (h.apart e' b' e b x hb' hb hx hxb)
  have hbeside : ∀ x, R x → x ∉ others := by
    intro x hRx hother
    rcases hR x hRx with hfree | ⟨b, hb, hxb⟩
    · have howner := (h.exact x).mpr (.inl hother)
      rw [hfree] at howner
      cases howner
    · exact h.beside e b x hb hxb hother
  refine ⟨h.client.mono hsame, ?_, ?_, ?_, ?_, ?_⟩
  · intro e' b' hb'
    rcases update_cases hb' with ⟨-, hb⟩ | ⟨-, hb⟩
    · exact (hnew b' hb).1
    · exact h.used e' b' hb
  · intro e' b' hb'
    rcases update_cases hb' with ⟨rfl, hb⟩ | ⟨hne, hb⟩
    · exact (hnew b' hb).2.1
    · refine (h.has e' b' hb).congr hsame.currentClient ?_ ?_
      · intro x hlo hhi
        exact (hout x (hapart e' b' x hne hb ⟨hlo, hhi⟩)).1
      · intro x hlo hhi
        exact (hout x (hapart e' b' x hne hb ⟨hlo, hhi⟩)).2
  · intro e₁ b₁ e₂ b₂ x h₁ h₂ hx₁ hx₂
    rcases update_cases h₁ with ⟨rfl, hb₁⟩ | ⟨hne₁, hb₁⟩
    · rcases update_cases h₂ with ⟨rfl, -⟩ | ⟨hne₂, hb₂⟩
      · rfl
      · exact absurd ((hnew b₁ hb₁).2.2 x hx₁) (hapart e₂ b₂ x hne₂ hb₂ hx₂)
    · rcases update_cases h₂ with ⟨rfl, hb₂⟩ | ⟨-, hb₂⟩
      · exact absurd ((hnew b₂ hb₂).2.2 x hx₂) (hapart e₁ b₁ x hne₁ hb₁ hx₁)
      · exact h.apart e₁ b₁ e₂ b₂ x hb₁ hb₂ hx₁ hx₂
  · intro e' b' x hb' hx
    rcases update_cases hb' with ⟨rfl, hb⟩ | ⟨-, hb⟩
    · exact hbeside x ((hnew b' hb).2.2 x hx)
    · exact h.beside e' b' x hb hx
  · intro x
    simp only [hsame.currentClient]
    by_cases hRx : R x
    · rw [hin x hRx]
      constructor
      · rintro ⟨b, hb, hx⟩
        exact .inr ⟨e, b, by rw [Function.update_self, hb], hx⟩
      · rintro (hother | ⟨e', b', hb', hx⟩)
        · exact absurd hother (hbeside x hRx)
        · rcases update_cases hb' with ⟨rfl, hb⟩ | ⟨hne, hb⟩
          · exact ⟨b', hb, hx⟩
          · exact absurd hRx (hapart e' b' x hne hb hx)
    · rw [(hout x hRx).1, h.exact]
      refine or_congr_right ⟨?_, ?_⟩
      · rintro ⟨e', b', hb, hx⟩
        have hne : e' ≠ e := by
          rintro rfl
          exact hRx (hold b' x hb hx)
        exact ⟨e', b', by rw [Function.update_of_ne hne, hb], hx⟩
      · rintro ⟨e', b', hb', hx⟩
        rcases update_cases hb' with ⟨rfl, hb⟩ | ⟨-, hb⟩
        · exact absurd ((hnew b' hb).2.2 x hx) hRx
        · exact ⟨e', b', hb, hx⟩

/-- A new block, of entries that belonged to nobody. -/
theorem Sound.add (h : Sound others w) (hpos : 0 < b.length) (hfree : Free w.state e (descs b.length))
    (hmoves : Moves w.state t e (descs b.length) (w.state.currentClient + 1))
    (hblock : HasBlock t e b.base b.length) :
    Sound others ⟨t, Function.update w.blocks e (some b)⟩ := by
  refine h.replace hmoves.toSameClients (R := Within e b) ?_ ?_ ?_ ?_ ?_
  · intro x hx
    exact .inl (hfree.2 x hx.1 hx.2)
  · intro b' x hb' hx
    -- The first entry of the old block would be free.
    have hn := descs_pos (h.used e b' hb')
    have hn' := descs_pos hpos
    have howner := h.owner hb' (x := e) ⟨le_rfl, by omega⟩
    rw [hfree.2 e le_rfl (by omega)] at howner
    cases howner
  · rintro b' ⟨⟩
    exact ⟨hpos, hblock, fun x hx => hx⟩
  · intro x hx
    rw [hmoves.user_in hx]
    exact ⟨fun _ => ⟨b, rfl, hx⟩, fun _ => rfl⟩
  · intro x hx
    exact ⟨hmoves.user_out hx, hmoves.outside x hx⟩

/-- A block is given back. -/
theorem Sound.remove (h : Sound others w) (hb : w.blocks e = some b)
    (hmoves : Moves w.state t e (descs b.length) 0) :
    Sound others ⟨t, Function.update w.blocks e none⟩ := by
  refine h.replace hmoves.toSameClients (R := Within e b) ?_ ?_ ?_ ?_ ?_
  · intro x hx
    exact .inr ⟨b, hb, hx⟩
  · intro b' x hb' hx
    rw [hb] at hb'
    cases hb'
    exact hx
  · intro b' hb'
    cases hb'
  · intro x hx
    rw [hmoves.user_in hx]
    constructor
    · intro hzero
      cases hzero
    · rintro ⟨b', hb', -⟩
      cases hb'
  · intro x hx
    exact ⟨hmoves.user_out hx, hmoves.outside x hx⟩

/-- A block has a new size. -/
theorem Sound.resize (h : Sound others w) (hb : w.blocks e = some b) {paras : BitVec 16}
    (hresized : Resized w.state t e (descs b.length) b.base (bytes paras).toNat) :
    Sound others ⟨t, Function.update w.blocks e
      (if paras = 0 then none else some { b with paras := paras })⟩ := by
  have hlen : ∀ b', (if paras = 0 then none else some { b with paras := paras }) = some b' →
      0 < b'.length ∧ b' = { b with paras := paras } := by
    intro b' hb'
    split at hb'
    · cases hb'
    · next hne =>
        cases hb'
        refine ⟨?_, rfl⟩
        have hnat : paras.toNat ≠ 0 := fun hzero => hne (BitVec.eq_of_toNat_eq hzero)
        show 0 < (bytes paras).toNat
        rw [toNat_bytes]
        omega
  refine h.replace hresized.toSameClients
    (R := fun x => e ≤ x ∧ x < e + max (descs b.length) (descs (bytes paras).toNat)) ?_ ?_ ?_ ?_ ?_
  · intro x hx
    by_cases hold : x < e + descs b.length
    · exact .inr ⟨b, hb, hx.1, hold⟩
    · exact .inl (hresized.fresh x (by omega) (by omega))
  · intro b' x hb' hx
    rw [hb] at hb'
    cases hb'
    obtain ⟨hlo, hhi⟩ := hx
    exact ⟨hlo, by omega⟩
  · intro b' hb'
    obtain ⟨hpos, rfl⟩ := hlen b' hb'
    refine ⟨hpos, hresized.block, ?_⟩
    rintro x ⟨hlo, hhi⟩
    have hhi' : x < e + descs (bytes paras).toNat := hhi
    exact ⟨hlo, by omega⟩
  · intro x hx
    rw [hresized.user]
    constructor
    · intro howned
      by_cases hin : e ≤ x ∧ x < e + descs (bytes paras).toNat
      · have hne : paras ≠ 0 := by
          intro hzero
          have hnone : descs (bytes paras).toNat = 0 := by
            rw [hzero]
            decide
          omega
        exact ⟨{ b with paras := paras }, if_neg hne, hin⟩
      · rw [if_neg hin, if_pos (by omega)] at howned
        cases howned
    · rintro ⟨b', hb', hx'⟩
      obtain ⟨-, rfl⟩ := hlen b' hb'
      exact if_pos hx'
  · intro x hx
    refine ⟨?_, hresized.outside x hx⟩
    rw [hresized.user, if_neg (by omega), if_neg (by omega)]

/-- What one call does. -/
structure Kept (host : Host) (others : Set Nat) (w : World) (call : DosCall) : Prop where
  sound : Sound others (w.next host call)
  refused : (w.machine host call).regs.cf = true → SameTable w.state (w.machine host call).state

theorem next_refused (hcf : (w.machine host call).regs.cf = true) :
    w.next host call = ⟨(w.machine host call).state, w.blocks⟩ := by
  rw [World.next]
  simp only [hcf, if_true]

theorem kept_refused (h : Sound others w) (hcf : (w.machine host call).regs.cf = true)
    (hsame : SameTable w.state (w.machine host call).state) : Kept host others w call :=
  ⟨by rw [next_refused hcf]; exact h.same hsame, fun _ => hsame⟩

theorem kept_granted (hcf : (w.machine host call).regs.cf = false)
    (hsound : Sound others (w.next host call)) : Kept host others w call :=
  ⟨hsound, fun htrue => by rw [hcf] at htrue; cases htrue⟩

/-- One careful call keeps what is known of the blocks. -/
theorem next_sound (hhost : Accepts host) (h : Sound others w) (hproper : w.Proper call)
    (hcareful : w.Careful call) : Kept host others w call := by
  by_cases halloc : call.regs.ax = 0x0100
  · rcases allocate_cases hhost h.client halloc call.answer with
      ⟨hcf, hsame⟩ | ⟨hcf, hpos, e, he, hfree, hmoves, hblock⟩
    · exact kept_refused h hcf hsame
    · apply kept_granted hcf
      have hnext : w.next host call = ⟨(w.machine host call).state,
          Function.update w.blocks e (some ⟨bytes call.answer.ax, call.regs.bx⟩)⟩ := by
        rw [World.next, ← he]
        simp only [World.machine, hcf, Bool.false_eq_true, if_false, if_pos halloc]
      rw [hnext]
      exact h.add (b := ⟨_, _⟩) hpos hfree hmoves hblock
  · rcases hproper with hax | ⟨b, hti, hb⟩ | hunused
    · exact absurd hax halloc
    · obtain ⟨hfree, hresize⟩ := hcareful b ⟨hti, hb⟩
      have hblock := h.has _ b hb
      have hpos := h.used _ b hb
      by_cases hax : call.regs.ax = 0x0101
      · obtain ⟨hcf, hmoves⟩ := free_cases hhost h.client hax hti
          (hblock.leads hpos (bytes_lt b.paras)) call.answer
        rw [hfree hax] at hcf
        apply kept_granted hcf
        have hnext : w.next host call = ⟨(w.machine host call).state,
            Function.update w.blocks (ldtEntry call.regs.dx) none⟩ := by
          rw [World.next]
          simp only [World.machine, hcf, Bool.false_eq_true, if_false, if_neg halloc, if_pos hax]
        rw [hnext]
        exact h.remove hb hmoves
      · have hax' : call.regs.ax = 0x0102 := (call.service.resolve_left halloc).resolve_left hax
        obtain ⟨hkept, hend⟩ := hresize hax'
        rcases resize_cases hhost h.client hax' hti hpos hblock hkept hend with
          ⟨hcf, hsame⟩ | ⟨hcf, hresized⟩
        · exact kept_refused h hcf hsame
        · apply kept_granted hcf
          have hnext : w.next host call = ⟨(w.machine host call).state,
              Function.update w.blocks (ldtEntry call.regs.dx)
                (if call.regs.bx = 0 then none else some { b with paras := call.regs.bx })⟩ := by
            rw [World.next]
            simp only [World.machine, hcf, Bool.false_eq_true, if_false, if_neg halloc, if_neg hax,
              hb, Option.map_some]
          rw [hnext]
          exact h.resize hb hresized
    · obtain ⟨hcf, hsame⟩ := unused_cases host (call.service.resolve_left halloc) hunused
        call.answer
      apply kept_refused h hcf
      rw [World.machine, hsame]
      exact SameTable.refl w.state

/-- Before its first call the client has no block. -/
theorem sound_start (hclient : Client16 s) :
    Sound {x | s.user x = s.currentClient + 1} ⟨s, fun _ => none⟩ where
  client := hclient
  used _ _ h := by cases h
  has _ _ h := by cases h
  apart _ _ _ _ _ h := by cases h
  beside _ _ _ h := by cases h
  exact x := ⟨Or.inl, fun h => h.elim id fun ⟨_, _, hb, _⟩ => by cases hb⟩

/-- In every run of careful calls each live block has exactly its descriptors, and a refused call
leaves the descriptors of the client as they were. -/
theorem dos_blocks_kept (hhost : Accepts host) (hclient : Client16 s) (hreached : Reached host s w) :
    Sound {x | s.user x = s.currentClient + 1} w ∧
      ∀ call, w.Proper call → w.Careful call → (w.machine host call).regs.cf = true →
        SameTable w.state (w.machine host call).state := by
  have hsound : Sound {x | s.user x = s.currentClient + 1} w := by
    induction hreached with
    | start => exact sound_start hclient
    | step h hproper hcareful ih => exact (next_sound hhost ih hproper hcareful).sound
  exact ⟨hsound, fun call hproper hcareful => (next_sound hhost hsound hproper hcareful).refused⟩

/-- A 16-bit client on the emulated cpu, which owns entry 32. -/
def client16 : State :=
  { oneClient with client := fun _ => ⟨0, fun _ => ⟨0, 0, 0, 0, 0⟩, 0, 0, false⟩ }

def emulated : Host :=
  ⟨false, fun _ _ => 0⟩

/-- A call of the client for 65552 bytes, which DOS grants. -/
def grantedCall : DosCall :=
  ⟨⟨0x0100, 0x1001, 0, false, 0, 0, 0, 0⟩, ⟨false, 0x2000, 0⟩, .inl rfl⟩

/-- Calls for the block that DOS refuses. -/
def refusedFree : DosCall :=
  ⟨⟨0x0101, 0, 0x8f, false, 0, 0, 0, 0⟩, ⟨true, 7, 0⟩, .inr (.inl rfl)⟩

def refusedResize : DosCall :=
  ⟨⟨0x0102, 0, 0x8f, false, 0, 0, 0, 0⟩, ⟨true, 7, 0⟩, .inr (.inr rfl)⟩

theorem client16_runs : Client16 client16 :=
  ⟨by decide, by decide, rfl⟩

theorem reached_granted :
    Reached emulated client16 (World.next emulated ⟨client16, fun _ => none⟩ grantedCall) :=
  .step .start (.inl rfl) fun b h => by cases h.2

/-- A block of two descriptors. -/
theorem dos_blocks_kept_granted :
    Sound {x | client16.user x = client16.currentClient + 1}
      (World.next emulated ⟨client16, fun _ => none⟩ grantedCall) :=
  (dos_blocks_kept (fun h => by cases h) client16_runs reached_granted).1

/-- DOS refuses to free the block, or to resize it to nothing: the call reports that, but the
descriptors of the block are gone. -/
theorem refused_calls_lose_block :
    let w := World.next emulated ⟨client16, fun _ => none⟩ grantedCall
    Reached emulated client16 w ∧ w.Proper refusedFree ∧ w.Proper refusedResize ∧
      w.state.user 17 = 1 ∧ w.state.user 18 = 1 ∧
      (w.machine emulated refusedFree).regs.cf = true ∧
      (w.machine emulated refusedFree).state.user 17 = 0 ∧
      (w.machine emulated refusedResize).regs.cf = true ∧
      (w.machine emulated refusedResize).state.user 17 = 0 := by
  have hblock : (World.next emulated ⟨client16, fun _ => none⟩ grantedCall).blocks 17 =
      some ⟨0x20000, 0x1001⟩ := by decide +kernel
  refine ⟨reached_granted, .inr (.inl ⟨_, by decide, hblock⟩), .inr (.inl ⟨_, by decide, hblock⟩), ?_⟩
  decide +kernel

end DosMemory
end Dpmi
end Dosemu
