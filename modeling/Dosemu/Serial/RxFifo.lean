import Dosemu.Lib.Run
import Dosemu.Serial.Model

/-!
# The receive buffer as a queue

The receive buffer slides: bytes arrive behind `rx_buf_end` and are moved to the
bottom before more are read from the line.  Bytes that the port loops back to
itself are not stored that way, and nothing keeps their cursor inside the buffer.

Main results:

- Theorem `RxQueue.Ok.append`: bytes that fit are queued behind the others.
- Theorem `Com.getRx_ok`: a read of the data register delivers the oldest byte.
- Theorem `rx_fifo_iff`: in a run, the buffer is a queue exactly as long as each
  looped-back byte finds the cursor inside the buffer.
-/

namespace Dosemu
namespace Serial

open Fifo

/-- The bytes that wait. -/
def RxQueue.contents (q : RxQueue) : List Byte :=
  (List.range' q.rxBufStart q.bytes).map q.rxBuf

/-- The cursors are in order and inside the buffer, and what is between them is what came in and
did not go out. -/
structure RxQueue.Ok (q : RxQueue) : Prop where
  start_le : q.rxBufStart ≤ q.rxBufEnd
  end_le : q.rxBufEnd ≤ rxBufferSize
  replay_eq : replay q.log = some q.contents

/-- The operation reads the data register. -/
def ReadsData (c : Com) (op : Op) : Prop :=
  op = .inp .data ∧ c.dlab = false

/-- The operation is a push that is accepted outside loopback mode. -/
def PushesLine (c : Com) : Op → Prop
  | .push bs => bs ≠ [] ∧ c.rx.bytes + bs.length ≤ rxBufferSize ∧ c.loop = false
  | _ => False

/-- What an operation promises about received bytes.  With `everywhere`, the data ready bit must
also be right after reads in loopback mode. -/
def Good (everywhere : Bool) (w : World) (c : Com) (op : Op) : Prop :=
  ∃ t, step w c op = some t ∧ t.rx.Ok ∧
    (ReadsData c op ∧ (c.loop = false ∨ everywhere = true) ∨ PushesLine c op →
      (t.dr = true ↔ t.rx.contents ≠ [])) ∧
    (ReadsData c op →
      delivered t.rx.log = delivered c.rx.log ++ [(c.doSerialIn w .data).1] ∨
        delivered t.rx.log = delivered c.rx.log ∧ t.rx.contents = [] ∧
          (c.doSerialIn w .data).1 = 0) ∧
    (¬ReadsData c op → delivered t.rx.log = delivered c.rx.log)

/-- A byte that is looped back is stored in FIFO mode if the emulated FIFO has room, and always
without FIFO mode. -/
def Stores (c : Com) : Prop :=
  c.fifoEnable = false ∨ c.rx.bytes < c.rxFifoSize

/-- A byte that is looped back finds the cursor inside the buffer; and a read in loopback mode
takes the last byte or finds the data ready bit set. -/
def Careful (everywhere : Bool) (c : Com) : Op → Prop
  | .out .data _ => c.dlab = false → c.loop = true → Stores c → c.rx.rxBufEnd < rxBufferSize
  | .inp .data => c.dlab = false → c.loop = true → everywhere = true →
      c.rx.bytes ≤ 1 ∨ c.dr = true
  | _ => True

/-! ## The buffer -/

variable {q : RxQueue} {bs : List Byte}

@[simp]
theorem RxQueue.length_contents (q : RxQueue) : q.contents.length = q.bytes := by
  simp [RxQueue.contents]

theorem RxQueue.contents_eq_nil : q.contents = [] ↔ q.bytes = 0 := by
  rw [← List.length_eq_zero_iff, q.length_contents]

@[simp]
theorem RxQueue.contents_slide : q.slide.contents = q.contents := by
  unfold RxQueue.slide
  split_ifs with hstart
  · rfl
  · unfold RxQueue.contents RxQueue.bytes
    dsimp only
    rw [Nat.sub_zero, List.range'_eq_map_range, List.range'_eq_map_range, List.map_map, List.map_map]
    apply List.map_congr_left
    intro i hi
    have hlt := List.mem_range.mp hi
    simp [hlt, Nat.add_comm]

@[simp]
theorem RxQueue.slide_log (q : RxQueue) : q.slide.log = q.log := by
  unfold RxQueue.slide
  split_ifs <;> rfl

/-- After sliding, the buffer begins at the bottom. -/
theorem RxQueue.slide_end (q : RxQueue) : q.slide.rxBufEnd = q.bytes := by
  unfold RxQueue.slide RxQueue.bytes
  split_ifs with hstart
  · rw [hstart, Nat.sub_zero]
  · rfl

namespace RxQueue.Ok

theorem slide (h : q.Ok) : q.slide.Ok := by
  have hstart := h.start_le
  have hend := h.end_le
  refine ⟨?_, ?_, ?_⟩
  · unfold RxQueue.slide
    split_ifs
    · exact hstart
    · exact Nat.zero_le _
  · unfold RxQueue.slide
    split_ifs
    · exact hend
    · dsimp only
      omega
  · rw [contents_slide, slide_log, h.replay_eq]

/-- Bytes that fit are queued behind the others. -/
theorem append (h : q.Ok) (hfit : q.rxBufEnd + bs.length ≤ rxBufferSize) :
    (q.append bs).Ok ∧ (q.append bs).contents = q.contents ++ bs := by
  have hstart := h.start_le
  have hcontents : (q.append bs).contents = q.contents ++ bs := by
    have hbytes : (q.append bs).bytes = q.bytes + bs.length := by
      unfold RxQueue.append RxQueue.bytes
      dsimp only
      omega
    have hold : (List.range' q.rxBufStart q.bytes).map (q.append bs).rxBuf = q.contents := by
      apply List.map_congr_left
      intro i hi
      obtain ⟨-, hlt⟩ := List.mem_range'_1.mp hi
      unfold RxQueue.bytes at hlt
      exact if_neg (by omega)
    have hnew : (List.range' (q.rxBufStart + q.bytes) bs.length).map (q.append bs).rxBuf = bs := by
      apply List.ext_getElem
      · simp
      · intro i hi hi'
        have hplace : q.rxBufStart + q.bytes + i = q.rxBufEnd + i := by
          unfold RxQueue.bytes
          omega
        simp [RxQueue.append, hplace, hi']
    have hfrom : (q.append bs).rxBufStart = q.rxBufStart := rfl
    unfold RxQueue.contents at hold ⊢
    rw [hbytes, hfrom, ← List.range'_append_1, List.map_append, hnew]
    exact congrArg (· ++ bs) hold
  refine ⟨⟨?_, hfit, ?_⟩, hcontents⟩
  · unfold RxQueue.append
    dsimp only
    omega
  · rw [hcontents]
    exact replay_concat h.replay_eq _

theorem clear (h : q.Ok) : q.clear.Ok :=
  ⟨Nat.le_refl _, Nat.zero_le _, replay_concat h.replay_eq _⟩

/-- The first byte is taken. -/
theorem take (h : q.Ok) (hne : q.bytes ≠ 0) :
    q.take.2.Ok ∧ delivered q.take.2.log = delivered q.log ++ [q.take.1] := by
  have hend := h.end_le
  have hcontents : q.contents = q.take.1 :: q.take.2.contents := by
    obtain ⟨n, hn⟩ := Nat.exists_eq_succ_of_ne_zero hne
    have hrest : q.take.2.bytes = n := by
      unfold RxQueue.bytes RxQueue.take at *
      dsimp only
      omega
    unfold RxQueue.contents
    rw [hrest, hn, List.range'_succ, List.map_cons]
    rfl
  refine ⟨⟨?_, hend, ?_⟩, delivered_concat _ _⟩
  · unfold RxQueue.bytes at hne
    change q.rxBufStart + 1 ≤ q.rxBufEnd
    omega
  · have hnext := replay_concat h.replay_eq (.deliver q.take.1)
    rw [hcontents] at hnext
    exact hnext.trans (if_pos rfl)

end RxQueue.Ok

/-! ## What the engines leave alone -/

variable {w : World} {c t : Com}

/-- The receive buffer, the mode and the data ready bit are as before. -/
structure SameRx (c t : Com) : Prop where
  rx : t.rx = c.rx
  mcr : t.mcr = c.mcr
  dr : t.dr = c.dr

namespace SameRx

theorem rfl' : SameRx c c :=
  ⟨rfl, rfl, rfl⟩

theorem trans {u : Com} (h : SameRx c t) (h' : SameRx t u) : SameRx c u :=
  ⟨h'.rx.trans h.rx, h'.mcr.trans h.mcr, h'.dr.trans h.dr⟩

theorem ite {u : Com} {p : Prop} [Decidable p] (ht : SameRx c t) (hu : SameRx c u) :
    SameRx c (if p then t else u) := by
  by_cases hp : p
  · rwa [if_pos hp]
  · rwa [if_neg hp]

theorem loop (h : SameRx c t) : t.loop = c.loop := by
  unfold Com.loop
  rw [h.mcr]

end SameRx

/-- Bits other than data ready can be set. -/
theorem orLsr_sameRx (c : Com) {m : Byte} (hm : m &&& uartLsrDr = 0) :
    SameRx c { c with lsr := c.lsr ||| m } := by
  refine ⟨rfl, rfl, ?_⟩
  unfold Com.dr
  rw [BitVec.and_or_distrib_right, hm]
  simp

theorem clearIntCond_sameRx (c : Com) (val : Byte) : SameRx c (c.clearIntCond val) := by
  unfold Com.clearIntCond
  dsimp only
  split_ifs <;> exact ⟨rfl, rfl, rfl⟩

theorem requestInt_sameRx (c : Com) (req : Byte) : SameRx c (c.requestInt req) := by
  unfold Com.requestInt
  dsimp only
  split_ifs <;> exact ⟨rfl, rfl, rfl⟩

theorem updateTxCnt_sameRx (c : Com) (w : World) : SameRx c (c.updateTxCnt w) :=
  ⟨rfl, rfl, rfl⟩

theorem temt_sameRx (c : Com) : SameRx c { c with lsr := c.lsr ||| uartLsrTemt } :=
  orLsr_sameRx c (by decide)

theorem transmitDone_sameRx (c : Com) : SameRx c c.transmitDone := by
  have hthre : SameRx c { c with lsr := c.lsr ||| uartLsrThre } := orLsr_sameRx c (by decide)
  exact (hthre.trans (.ite (temt_sameRx _) .rfl')).trans (requestInt_sameRx _ _)

theorem transmitEngine_sameRx (c : Com) (w : World) : SameRx c (c.transmitEngine w) := by
  refine .ite (.ite ?_ .rfl') ?_
  · exact (SameRx.ite (updateTxCnt_sameRx c w) .rfl').trans (.ite (temt_sameRx _) .rfl')
  · have hclock : SameRx c (if w.cfg.systemRtscts then { c with clock := c.clock + 1 } else c) :=
      .ite ⟨rfl, rfl, rfl⟩ .rfl'
    refine hclock.trans (.ite .rfl' ?_)
    exact (SameRx.ite (updateTxCnt_sameRx _ w) .rfl').trans (.ite .rfl' (transmitDone_sameRx _))

theorem serialIntEngine_sameRx (c : Com) (w : World) (req : Byte) :
    SameRx c (c.serialIntEngine w req) :=
  (SameRx.ite (transmitEngine_sameRx c w) .rfl').trans (requestInt_sameRx _ _)

theorem receiveTimeouts_sameRx (c : Com) (w : World) : SameRx c (c.receiveTimeouts w) := by
  have hcount : SameRx c { c with rxTimeout := c.rxTimeout - 1 } := ⟨rfl, rfl, rfl⟩
  have hcti (c : Com) : SameRx c { c with cti := true } := ⟨rfl, rfl, rfl⟩
  exact .ite (hcount.trans (.ite ((hcti _).trans (serialIntEngine_sameRx _ w _)) .rfl')) .rfl'

theorem modstatEngine_sameRx (c : Com) (w : World) : SameRx c (c.modstatEngine w) := by
  have hclock : SameRx c (if w.cfg.pseudo then c else { c with clock := c.clock + 1 }) :=
    .ite .rfl' ⟨rfl, rfl, rfl⟩
  have hmsr (c : Com) (v : Byte) : SameRx c { c with msr := v } := ⟨rfl, rfl, rfl⟩
  exact .ite .rfl' ((hclock.trans (hmsr _ _)).trans (.ite (serialIntEngine_sameRx _ w _) .rfl'))

@[simp]
theorem setDr_dr (c : Com) : c.setDr.dr = true := by
  have hset : ∀ lsr : Byte, (lsr ||| uartLsrDr) &&& uartLsrDr ≠ 0 := by decide
  exact decide_eq_true (hset c.lsr)

@[simp]
theorem clearDr_dr (c : Com) : c.clearDr.dr = false := by
  have hclear : ∀ lsr : Byte, lsr &&& ~~~uartLsrDr &&& uartLsrDr = 0 := by decide
  exact decide_eq_false (not_not_intro (hclear c.lsr))

/-- The receive engine sets data ready where there is data. -/
theorem receiveEngine_spec (c : Com) (w : World) :
    (c.receiveEngine w).rx = c.rx ∧ (c.receiveEngine w).mcr = c.mcr ∧
      (c.receiveEngine w).dr = (c.dr || (!c.loop && decide (c.rx.bytes ≠ 0))) := by
  unfold Com.receiveEngine
  by_cases hloop : c.loop = true
  · simp [hloop]
  by_cases hbytes : c.rx.bytes = 0
  · simp [hbytes]
  rw [if_neg hloop, if_neg hbytes]
  have htimeout : SameRx c
      (if !c.dr ∧ c.fifoEnable then { c with rxTimeout := timeoutRx } else c) :=
    .ite ⟨rfl, rfl, rfl⟩ .rfl'
  generalize (if !c.dr ∧ c.fifoEnable then { c with rxTimeout := timeoutRx } else c) = u at htimeout
  have hreset (c : Com) : SameRx c { c with rxTimeout := 0 } := ⟨rfl, rfl, rfl⟩
  have hlast : SameRx u.setDr (if !u.setDr.fifoEnable ∨ u.setDr.rxFifoTrigger ≤ u.setDr.rx.bytes
      then { u.setDr with rxTimeout := 0 }.serialIntEngine w rxIntr else u.setDr) :=
    .ite ((hreset _).trans (serialIntEngine_sameRx _ w _)) .rfl'
  have hdata : (c.dr || (!c.loop && decide (c.rx.bytes ≠ 0))) = true := by
    simp [hloop, hbytes]
  rw [hdata]
  exact ⟨hlast.rx.trans htimeout.rx, hlast.mcr.trans htimeout.mcr, hlast.dr.trans (setDr_dr u)⟩

/-! ## Bytes from the line -/

/-- Bytes are queued behind the others, and none is delivered. -/
theorem RxQueue.Ok.receive (h : q.Ok) (hfit : q.bytes + bs.length ≤ rxBufferSize) :
    (q.slide.append bs).Ok ∧ (q.slide.append bs).contents = q.contents ++ bs ∧
      delivered (q.slide.append bs).log = delivered q.log := by
  obtain ⟨hok, hcontents⟩ := @append _ bs h.slide (by rwa [q.slide_end])
  rw [contents_slide] at hcontents
  refine ⟨hok, hcontents, (delivered_concat _ _).trans ?_⟩
  rw [slide_log]
  exact List.append_nil _

/-- A fill keeps the buffer in order and delivers nothing; in loopback mode it does nothing. -/
theorem ttyUartFill_spec (h : c.rx.Ok) :
    (c.ttyUartFill w).2.rx.Ok ∧
      delivered (c.ttyUartFill w).2.rx.log = delivered c.rx.log ∧
      (c.ttyUartFill w).2.mcr = c.mcr ∧ (c.ttyUartFill w).2.dr = c.dr ∧
      ((c.ttyUartFill w).1 = 0 → (c.ttyUartFill w).2.rx.contents = c.rx.contents) ∧
      (c.loop = true → (c.ttyUartFill w).1 = 0) := by
  unfold Com.ttyUartFill
  split_ifs with hloop hfull
  · exact ⟨h, rfl, rfl, rfl, fun _ => rfl, fun _ => rfl⟩
  · exact ⟨h, rfl, rfl, rfl, fun _ => rfl, fun _ => rfl⟩
  · have hslid : ∀ closed : Bool,
        let t : Com := { c with rx := c.rx.slide, clock := c.clock + 1, isClosed := closed }
        t.rx.Ok ∧ delivered t.rx.log = delivered c.rx.log ∧ t.mcr = c.mcr ∧ t.dr = c.dr ∧
          (0 = 0 → t.rx.contents = c.rx.contents) ∧ (c.loop = true → 0 = 0) := fun _ =>
      ⟨h.slide, by rw [RxQueue.slide_log], rfl, rfl, fun _ => RxQueue.contents_slide, fun _ => rfl⟩
    dsimp only
    cases hread : w.read c.clock with
    | eof => exact hslid true
    | again => exact hslid false
    | error => exact hslid c.isClosed
    | data first rest =>
        have hend := c.rx.slide_end
        have hfit : ((first :: rest).take (rxBufferSize - c.rx.slide.rxBufEnd)).length ≤
            rxBufferSize - c.rx.bytes := by
          rw [List.length_take, hend]
          exact Nat.min_le_left _ _
        obtain ⟨hok, -, hlog⟩ := @RxQueue.Ok.receive _
          ((first :: rest).take (rxBufferSize - c.rx.slide.rxBufEnd)) h (by omega)
        refine ⟨hok, hlog, rfl, rfl, ?_, fun hl => absurd hl hloop⟩
        intro hnone
        have hlen : ((first :: rest).take (rxBufferSize - c.rx.slide.rxBufEnd)).length = 0 := hnone
        rw [List.length_take, hend, List.length_cons] at hlen
        omega

/-- A fill outside loopback mode, with its receive engine. -/
theorem fill_spec (c : Com) (w : World) (h : c.rx.Ok) :
    (c.fill w).rx.Ok ∧ delivered (c.fill w).rx.log = delivered c.rx.log ∧
      (c.fill w).loop = c.loop ∧
      (c.loop = true → (c.fill w).rx.contents = c.rx.contents ∧ (c.fill w).dr = c.dr) := by
  obtain ⟨hok, hlog, hmcr, hdr, hnone, hloop⟩ := @ttyUartFill_spec w c h
  obtain ⟨hrx, hmcr', -⟩ := receiveEngine_spec (c.ttyUartFill w).2 w
  unfold Com.fill Com.loop
  dsimp only
  split_ifs with hsize
  · rw [hrx, hmcr', hmcr]
    refine ⟨hok, hlog, rfl, fun hl => ?_⟩
    have := hloop (by unfold Com.loop; exact hl)
    omega
  · rw [hmcr]
    have hsize : (c.ttyUartFill w).1 = 0 := by omega
    exact ⟨hok, hlog, rfl, fun _ => ⟨hnone hsize, hdr⟩⟩

/-! ## The registers -/

/-- What is delivered once the attempt to get data is over. -/
theorem takeRx_spec (h : c.rx.Ok) :
    (c.takeRx w).2.rx.Ok ∧
      (delivered (c.takeRx w).2.rx.log = delivered c.rx.log ++ [(c.takeRx w).1] ∨
        delivered (c.takeRx w).2.rx.log = delivered c.rx.log ∧
          (c.takeRx w).2.rx.contents = [] ∧ (c.takeRx w).1 = 0) ∧
      ((c.takeRx w).2.rx.contents ≠ [] ↔ 1 < c.rx.bytes) ∧
      ((c.takeRx w).2.dr = true ↔ 1 < c.rx.bytes ∧ (c.loop = false ∨ c.dr = true)) := by
  unfold Com.takeRx
  by_cases hbytes : c.rx.bytes = 0
  · have hnil := RxQueue.contents_eq_nil.mpr hbytes
    rw [if_pos hbytes]
    have hlast : (if c.dr then c.clearDr else c).rx = c.rx ∧
        (if c.dr then c.clearDr else c).dr = false := by
      split_ifs with hdr
      · exact ⟨rfl, clearDr_dr c⟩
      · exact ⟨rfl, eq_false_of_ne_true hdr⟩
    simp [hlast.1, hlast.2, h, hnil, hbytes]
  rw [if_neg hbytes]
  obtain ⟨hok, hlog⟩ := h.take hbytes
  have hclear := clearIntCond_sameRx { c with rx := c.rx.take.2 } rxIntr
  obtain ⟨hrx, -, hdr⟩ := receiveEngine_spec ({ c with rx := c.rx.take.2 }.clearIntCond rxIntr) w
  rw [hclear.rx] at hrx hdr
  rw [hclear.loop, hclear.dr] at hdr
  dsimp only at hrx ⊢
  generalize ({ c with rx := c.rx.take.2 }.clearIntCond rxIntr).receiveEngine w = v at hrx hdr ⊢
  have hrest : v.rx.bytes = c.rx.bytes - 1 := by
    rw [hrx]
    unfold RxQueue.bytes RxQueue.take
    dsimp only
    omega
  have hlast : (if v.rx.bytes = 0 then v.clearDr else v).rx = v.rx := by
    split_ifs <;> rfl
  rw [hlast, Ne, RxQueue.contents_eq_nil, hrest, hrx]
  refine ⟨hok, Or.inl hlog, by omega, ?_⟩
  have hready : v.dr = (c.dr || (!c.loop && decide (c.rx.bytes - 1 ≠ 0))) := by
    rw [← hrest, hrx]
    exact hdr
  split_ifs with hempty
  · simp only [clearDr_dr, Bool.false_eq_true, false_iff]
    omega
  · rw [hready]
    have hmore : 1 < c.rx.bytes := by omega
    cases c.loop <;> cases c.dr <;> simp [hmore, hempty]

/-- A read of the data register delivers the oldest byte, if there is one. -/
theorem Com.getRx_ok (h : c.rx.Ok) :
    (c.getRx w).2.rx.Ok ∧
      (delivered (c.getRx w).2.rx.log = delivered c.rx.log ++ [(c.getRx w).1] ∨
        delivered (c.getRx w).2.rx.log = delivered c.rx.log ∧
          (c.getRx w).2.rx.contents = [] ∧ (c.getRx w).1 = 0) ∧
      (c.loop = false → ((c.getRx w).2.dr = true ↔ (c.getRx w).2.rx.contents ≠ [])) ∧
      (c.loop = true → (((c.getRx w).2.dr = true ↔ (c.getRx w).2.rx.contents ≠ []) ↔
        c.rx.bytes ≤ 1 ∨ c.dr = true)) := by
  have hu : ∃ u : Com, c.getRx w = u.takeRx w ∧ u.rx.Ok ∧
      delivered u.rx.log = delivered c.rx.log ∧ u.loop = c.loop ∧
      (c.loop = true → u.rx.bytes = c.rx.bytes ∧ u.dr = c.dr) := by
    unfold Com.getRx
    dsimp only
    split_ifs
    · obtain ⟨hok, hlog, hloop, hin⟩ := fill_spec { c with rxTimeout := 0, cti := false } w h
      refine ⟨_, rfl, hok, hlog, hloop, fun hl => ?_⟩
      obtain ⟨hsame, hdr⟩ := hin hl
      have hlen := congrArg List.length hsame
      rw [RxQueue.length_contents, RxQueue.length_contents] at hlen
      exact ⟨hlen, hdr⟩
    · exact ⟨_, rfl, h, rfl, rfl, fun _ => ⟨rfl, rfl⟩⟩
  obtain ⟨u, hget, hok, hlog, hloop, hin⟩ := hu
  obtain ⟨hok', hdel, hmore, hdr⟩ := @takeRx_spec w u hok
  rw [hget, ← hlog, ← hloop]
  refine ⟨hok', hdel, ?_, ?_⟩
  · intro hl
    rw [hdr, hmore]
    simp [hl]
  · intro hl
    obtain ⟨hbytes, hsame⟩ := hin (hloop ▸ hl)
    rw [hdr, hmore, ← hbytes, ← hsame, hl]
    by_cases hone : u.rx.bytes ≤ 1
    · simp [hone, Nat.not_lt.mpr hone]
    · simp [hone, Nat.not_le.mp hone]

/-- The buffer stays in order, and nothing is delivered. -/
def Keeps (c t : Com) : Prop :=
  c.rx.Ok → t.rx.Ok ∧ delivered t.rx.log = delivered c.rx.log

namespace Keeps

theorem of_eq (h : t.rx = c.rx) : Keeps c t := by
  intro hok
  rw [h]
  exact ⟨hok, rfl⟩

theorem trans {u : Com} (h : Keeps c t) (h' : Keeps t u) : Keeps c u := by
  intro hok
  obtain ⟨hok', hlog⟩ := h hok
  obtain ⟨hok'', hlog'⟩ := h' hok'
  exact ⟨hok'', hlog'.trans hlog⟩

theorem ite {u : Com} {p : Prop} [Decidable p] (ht : Keeps c t) (hu : Keeps c u) :
    Keeps c (if p then t else u) := by
  by_cases hp : p
  · rwa [if_pos hp]
  · rwa [if_neg hp]

end Keeps

theorem SameRx.keeps (h : SameRx c t) : Keeps c t :=
  Keeps.of_eq h.rx

theorem Keeps.requestIf (h : Keeps c t) {p : Prop} [Decidable p] {req : Byte} :
    Keeps c (if p then t.serialIntEngine w req else t) :=
  .ite (h.trans (serialIntEngine_sameRx t w req).keeps) h

theorem keeps_fill (c : Com) (w : World) : Keeps c (c.fill w) := by
  intro hok
  obtain ⟨hok', hlog, -⟩ := fill_spec c w hok
  exact ⟨hok', hlog⟩

theorem keeps_clear (h : t.rx = c.rx.clear) : Keeps c t := by
  intro hok
  rw [h]
  exact ⟨hok.clear, (delivered_concat _ _).trans (List.append_nil _)⟩

theorem keeps_uartClearFifo (c : Com) (fifo : Byte) : Keeps c (c.uartClearFifo fifo) := by
  have hrcvr : Keeps c
      ({ c with
        lsr := c.lsr &&& ~~~(uartLsrErr ||| uartLsrDr)
        rx := c.rx.clear
        cti := false
        rxTimeout := 0 }.clearIntCond (lsIntr ||| rxIntr)) :=
    keeps_clear (clearIntCond_sameRx _ _).rx
  have hxmit (c : Com) : Keeps c
      ({ c with lsr := c.lsr ||| (uartLsrTemt ||| uartLsrThre) }.clearIntCond txIntr) :=
    .of_eq (clearIntCond_sameRx _ _).rx
  exact (Keeps.ite hrcvr (.of_eq rfl)).trans (.ite (hxmit _) (.of_eq rfl))

theorem keeps_putFcr (c : Com) (val : Byte) : Keeps c (c.putFcr val) := by
  have hclear : Keeps c
      (if c.fcReg &&& uartFcrEnableFifo = 0 then c.uartClearFifo uartFcrClearCmd
        else if val &&& 0xcf &&& uartFcrClearCmd ≠ 0 then
          c.uartClearFifo (val &&& 0xcf &&& uartFcrClearCmd)
        else c) :=
    .ite (keeps_uartClearFifo c _) (.ite (keeps_uartClearFifo c _) (.of_eq rfl))
  have hset (c : Com) (reg : Byte) (on : Bool) (level : Nat) :
      Keeps c { c with fcReg := reg, fifoEnable := on, rxFifoTrigger := level } :=
    .of_eq rfl
  refine .ite (hclear.trans (hset _ _ _ _)) ?_
  exact (hset c _ _ c.rxFifoTrigger).trans (keeps_uartClearFifo _ _)

theorem keeps_putLcr (c : Com) (w : World) (val : Byte) : Keeps c (c.putLcr w val) := by
  have hset : Keeps c { c with lcr := val } := .of_eq rfl
  exact hset.trans (.ite (keeps_uartClearFifo _ _) (.of_eq rfl))

theorem keeps_putMcr (c : Com) (w : World) (val : Byte) : Keeps c (c.putMcr w val) := by
  have hset (c : Com) (mcr msr : Byte) : Keeps c { c with mcr := mcr, msr := msr } := .of_eq rfl
  have hline (c : Com) : Keeps c { c with line := false } := .of_eq rfl
  have hint (c : Com) (req : Byte) : Keeps c (c.serialIntEngine w req) :=
    (serialIntEngine_sameRx c w req).keeps
  have hfifo : Keeps { c with mcr := val &&& uartMcrValid }
      (if (c.mcr ^^^ val) &&& uartMcrLoop ≠ 0 ∧ c.fifoEnable then
        { c with mcr := val &&& uartMcrValid }.uartClearFifo uartFcrClearCmd
      else { c with mcr := val &&& uartMcrValid }) :=
    .ite (keeps_uartClearFifo _ _) (.of_eq rfl)
  refine ((hset c _ c.msr).trans hfifo).trans (.ite ?_ (.ite (hint _ _) (hline _)))
  exact .requestIf (hset _ _ _)

theorem keeps_receiveEngine (c : Com) (w : World) : Keeps c (c.receiveEngine w) :=
  .of_eq (receiveEngine_spec c w).1

theorem keeps_clearIntCond (c : Com) (val : Byte) : Keeps c (c.clearIntCond val) :=
  (clearIntCond_sameRx c val).keeps

theorem keeps_putLsr (c : Com) (w : World) (val : Byte) : Keeps c (c.putLsr w val) := by
  have hset (c : Com) (lsr : Byte) : Keeps c { c with lsr := lsr } := .of_eq rfl
  have hunflag (c : Com) (bit cond : Byte) :
      Keeps c (if val &&& bit ≠ 0 then c else c.clearIntCond cond) :=
    .ite (.of_eq rfl) (keeps_clearIntCond _ _)
  have hthre (c : Com) : Keeps c
      (if val &&& uartLsrThre ≠ 0 then { c with lsr := c.lsr ||| (uartLsrTemt ||| uartLsrThre) }
      else { c with lsr := c.lsr &&& ~~~(uartLsrThre ||| uartLsrTemt) }.clearIntCond txIntr) :=
    .ite (hset _ _) ((hset _ _).trans (keeps_clearIntCond _ _))
  have hbits := (((hset c (val &&& 0x1F)).trans (hunflag _ uartLsrErr lsIntr)).trans
    (hunflag _ uartLsrDr rxIntr)).trans (hthre _)
  exact hbits.requestIf.trans (keeps_receiveEngine _ w)

theorem keeps_putMsr (c : Com) (w : World) (val : Byte) : Keeps c (c.putMsr w val) := by
  have hset (c : Com) (msr : Byte) : Keeps c { c with msr := msr } := .of_eq rfl
  exact .requestIf (hset c _)

theorem keeps_writeIER (c : Com) (w : World) (val : Byte) : Keeps c (c.writeIER w val) := by
  have hset (c : Com) (cond ier : Byte) (line : Bool) :
      Keeps c { c with intCondition := cond, ier := ier, line := line } := .of_eq rfl
  have hcond : Keeps c (if decide (c.ier &&& txIntr = 0 ∧ val &&& txIntr ≠ 0) then
      { c with intCondition := c.intCondition ||| txIntr } else c) :=
    .ite (hset _ _ _ _) (.of_eq rfl)
  have hline (c : Com) : Keeps c (if c.intRequest = 0 then { c with line := false } else c) :=
    .ite (hset _ _ _ _) (.of_eq rfl)
  exact ((hcond.trans (hset _ _ (val &&& uartIerValid) _)).trans (hline _)).requestIf

theorem keeps_readIIR (c : Com) : Keeps c c.readIIR.2 := by
  have hrecalc : Keeps c c.recalcIIR := by
    unfold Com.recalcIIR
    dsimp only
    split_ifs <;> exact .of_eq rfl
  exact (Keeps.ite hrecalc (.of_eq rfl)).trans (.ite (keeps_clearIntCond _ _) (.of_eq rfl))

theorem rxTimeout_sameRx (c : Com) (n : Nat) : SameRx c { c with rxTimeout := n } :=
  ⟨rfl, rfl, rfl⟩

/-- A byte was put behind the others. -/
theorem keeps_append (hend : c.rx.rxBufEnd + bs.length ≤ rxBufferSize)
    (h : t.rx = c.rx.append bs) : Keeps c t := by
  intro hok
  rw [h]
  exact ⟨(hok.append hend).1, (delivered_concat _ _).trans (List.append_nil _)⟩

theorem loopedFifo_rx {rx : RxQueue} (hend : rx.rxBufEnd ≤ rxBufferSize) :
    (c.loopedFifo w rx).rx = rx := by
  have hslide : (if rxBufferSize ≤ rx.rxBufEnd - 1 then rx.slide else rx) = rx := by
    apply if_neg
    unfold rxBufferSize at hend ⊢
    omega
  have hint : SameRx { c with rx := rx }
      (if c.rxFifoTrigger ≤ rx.bytes then
        { c with rx := rx, rxTimeout := 0 }.serialIntEngine w rxIntr
      else { c with rx := rx }) :=
    .ite ((rxTimeout_sameRx { c with rx := rx } 0).trans (serialIntEngine_sameRx _ w _)) .rfl'
  unfold Com.loopedFifo Com.setDr
  rw [hslide]
  exact hint.rx

theorem overrun_sameRx (c : Com) (w : World) : SameRx c (c.overrun w) :=
  (orLsr_sameRx c (show uartLsrOe &&& uartLsrDr = 0 by decide)).trans
    (serialIntEngine_sameRx _ w lsIntr)

theorem loopedByte_rx (rx : RxQueue) : (c.loopedByte w rx).rx = rx := by
  unfold Com.loopedByte
  dsimp only
  split_ifs
  · exact (overrun_sameRx { c with rx := rx } w).rx
  · exact (serialIntEngine_sameRx { { c with rx := rx }.setDr with rxTimeout := 0 } w rxIntr).rx

/-- A byte that is looped back is stored behind the others if the cursor allows. -/
theorem loopTx_store {val : Byte} (hstores : Stores c) :
    (c.rx.rxBufEnd < rxBufferSize → ∃ t, c.loopTx w val = some t ∧ Keeps c t) ∧
      (rxBufferSize ≤ c.rx.rxBufEnd → c.loopTx w val = none) := by
  have hroom : c.fifoEnable = true → ¬c.rxFifoSize ≤ c.rx.bytes := by
    intro hfifo
    rcases hstores with hoff | hlt
    · rw [hfifo] at hoff
      cases hoff
    · omega
  unfold Com.loopTx RxQueue.store
  dsimp only
  constructor
  · intro hend
    have hfit : c.rx.rxBufEnd + [Com.wordAdjust c.lcr val].length ≤ rxBufferSize := hend
    rw [if_pos hend]
    by_cases hfifo : c.fifoEnable = true
    · rw [if_pos hfifo, if_neg (hroom hfifo)]
      exact ⟨_, rfl, keeps_append hfit (loopedFifo_rx hfit)⟩
    · rw [if_neg hfifo]
      exact ⟨_, rfl, keeps_append hfit (loopedByte_rx _)⟩
  · intro hend
    rw [if_neg (Nat.not_lt.mpr hend)]
    by_cases hfifo : c.fifoEnable = true
    · rw [if_pos hfifo, if_neg (hroom hfifo)]
      rfl
    · rw [if_neg hfifo]
      rfl

/-- A byte that is looped back while the emulated FIFO is full is refused. -/
theorem loopTx_full {val : Byte} (hfull : ¬Stores c) :
    ∃ t, c.loopTx w val = some t ∧ Keeps c t := by
  unfold Stores at hfull
  rw [not_or, Bool.not_eq_false, Nat.not_lt] at hfull
  unfold Com.loopTx
  rw [if_pos hfull.1, if_pos hfull.2]
  exact ⟨_, rfl, .of_eq (overrun_sameRx c w).rx⟩

theorem keeps_lineTx (c : Com) (w : World) : Keeps c (c.lineTx w) := by
  have hclock : Keeps c { c with clock := c.clock + 1 } := .of_eq rfl
  have hsent (c : Com) : Keeps c
      (if w.writes (c.clock - 1) then
        { c with lsr := c.lsr &&& ~~~(uartLsrThre ||| uartLsrTemt), txCnt := c.txCnt + 1 }
      else c) :=
    .ite (.of_eq rfl) (.of_eq rfl)
  exact .ite (.of_eq rfl) ((hclock.trans (hsent _)).trans (transmitEngine_sameRx _ w).keeps)

/-- `put_tx` first clears the transmit condition, which does not matter here. -/
theorem putTx_cases (val : Byte) :
    (c.loop = false → ∃ t, c.putTx w val = some t ∧ Keeps c t) ∧
      (c.loop = true → ∃ u : Com, c.putTx w val = u.loopTx w val ∧ u.rx = c.rx ∧
        u.fifoEnable = c.fifoEnable ∧ u.rxFifoSize = c.rxFifoSize) := by
  have hclear := clearIntCond_sameRx c txIntr
  unfold Com.putTx
  dsimp only
  rw [hclear.loop]
  constructor
  · intro hloop
    rw [hloop]
    exact ⟨_, rfl, hclear.keeps.trans (keeps_lineTx _ w)⟩
  · intro hloop
    rw [hloop]
    refine ⟨_, rfl, hclear.rx, ?_⟩
    unfold Com.clearIntCond
    dsimp only
    split_ifs <;> exact ⟨rfl, rfl⟩

/-! ## Steps and runs -/

theorem keeps_serialUpdate (c : Com) (w : World) : Keeps c (c.serialUpdate w) := by
  have hfill : Keeps c
      (if c.rx.bytes < c.rxFifoTrigger ∧ !c.ioselCur w ∧ w.cfg.hasDev then c.fill w else c) :=
    .ite (keeps_fill c w) (.of_eq rfl)
  have htimeouts (c : Com) :
      Keeps c (if c.rx.bytes ≠ 0 then c.receiveTimeouts w else c) :=
    .ite (receiveTimeouts_sameRx c w).keeps (.of_eq rfl)
  exact ((hfill.trans (htimeouts _)).trans (transmitEngine_sameRx _ w).keeps).trans
    (modstatEngine_sameRx _ w).keeps

theorem keeps_getMsr (c : Com) (w : World) : Keeps c (c.getMsr w).2 :=
  (modstatEngine_sameRx c w).keeps.trans (.of_eq (clearIntCond_sameRx _ msIntr).rx)

theorem keeps_getLsr (c : Com) : Keeps c c.getLsr.2 :=
  .of_eq (clearIntCond_sameRx c lsIntr).rx

theorem keeps_serialRxPush (c : Com) (w : World) : Keeps c (c.serialRxPush w bs).2 := by
  unfold Com.serialRxPush
  split_ifs with hfull
  · exact .of_eq rfl
  · intro hok
    obtain ⟨hok', -, hlog⟩ := @RxQueue.Ok.receive _ bs hok (by omega)
    obtain ⟨hrx, -⟩ := receiveEngine_spec { c with rx := c.rx.slide.append bs } w
    dsimp only
    rw [hrx]
    exact ⟨hok', hlog⟩

/-- An accepted push outside loopback mode leaves data ready. -/
theorem push_ready (h : c.rx.Ok) (hne : bs ≠ []) (hfit : c.rx.bytes + bs.length ≤ rxBufferSize)
    (hloop : c.loop = false) :
    (c.serialRxPush w bs).2.dr = true ∧ (c.serialRxPush w bs).2.rx.contents ≠ [] := by
  obtain ⟨-, hcontents, -⟩ := h.receive hfit
  obtain ⟨hrx, -, hdr⟩ := receiveEngine_spec { c with rx := c.rx.slide.append bs } w
  have hsome : (c.rx.slide.append bs).contents ≠ [] := by
    rw [hcontents]
    exact List.append_ne_nil_of_right_ne_nil _ hne
  have hmode : Com.loop { c with rx := c.rx.slide.append bs } = c.loop := rfl
  unfold Com.serialRxPush
  rw [if_neg (by omega)]
  dsimp only
  rw [hrx, hdr, hmode, hloop]
  refine ⟨?_, hsome⟩
  have hbytes := (not_congr RxQueue.contents_eq_nil).mp hsome
  simp [hbytes]

/-- What an operation does that neither takes a byte nor stores one. -/
theorem step_keeps {op : Op} (hdata : ¬ReadsData c op)
    (hstore : ∀ val, op = .out .data val → c.dlab = false → c.loop = true → ¬Stores c) :
    ∃ t, step w c op = some t ∧ Keeps c t := by
  have hend (c : Com) : Keeps c (c.serialIntEngine w 0) := (serialIntEngine_sameRx c w 0).keeps
  cases op with
  | inp reg =>
      refine ⟨_, rfl, ?_⟩
      cases reg with
      | data =>
          have hdlab : c.dlab = true := by
            by_contra hoff
            exact hdata ⟨rfl, eq_false_of_ne_true hoff⟩
          simp only [Com.doSerialIn, hdlab, if_true]
          exact .of_eq rfl
      | ier =>
          simp only [Com.doSerialIn]
          split_ifs <;> exact .of_eq rfl
      | iirFcr => exact keeps_readIIR c
      | lsr => exact keeps_getLsr c
      | msr => exact keeps_getMsr c w
      | lcr | mcr | scr => exact .of_eq rfl
  | out reg val =>
      cases reg with
      | data =>
          by_cases hdlab : c.dlab = true
          · refine ⟨_, by rw [step, Com.doSerialOut, Com.writeReg, if_pos hdlab]; rfl, ?_⟩
            exact (Keeps.of_eq (t := { c with dll := val }) rfl).trans (hend _)
          · have hput : ∃ t, c.putTx w val = some t ∧ Keeps c t := by
              by_cases hloop : c.loop = true
              · obtain ⟨u, hput, hrx, hfifo, hsize⟩ := (@putTx_cases w c val).2 hloop
                have hfull : ¬Stores u := by
                  unfold Stores
                  rw [hfifo, hsize, hrx]
                  exact hstore val rfl (eq_false_of_ne_true hdlab) hloop
                obtain ⟨t, ht, hkeeps⟩ := @loopTx_full w u val hfull
                exact ⟨t, hput.trans ht, (Keeps.of_eq hrx).trans hkeeps⟩
              · exact (@putTx_cases w c val).1 (eq_false_of_ne_true hloop)
            obtain ⟨t, ht, hkeeps⟩ := hput
            refine ⟨_, by rw [step, Com.doSerialOut, Com.writeReg, if_neg hdlab, ht]; rfl, ?_⟩
            exact hkeeps.trans (hend _)
      | ier =>
          have hwrite : Keeps c (if c.dlab then { c with dlm := val } else c.writeIER w val) :=
            .ite (.of_eq rfl) (keeps_writeIER c w val)
          exact ⟨_, rfl, hwrite.trans (hend _)⟩
      | iirFcr => exact ⟨_, rfl, (keeps_putFcr c val).trans (hend _)⟩
      | lcr => exact ⟨_, rfl, (keeps_putLcr c w val).trans (hend _)⟩
      | mcr => exact ⟨_, rfl, (keeps_putMcr c w val).trans (hend _)⟩
      | lsr => exact ⟨_, rfl, (keeps_putLsr c w val).trans (hend _)⟩
      | msr => exact ⟨_, rfl, (keeps_putMsr c w val).trans (hend _)⟩
      | scr =>
          have hset : Keeps c { c with scr := val } := .of_eq rfl
          exact ⟨_, rfl, hset.trans (hend _)⟩
  | push bs => exact ⟨_, rfl, keeps_serialRxPush c w⟩
  | fill => exact ⟨_, rfl, keeps_fill c w⟩
  | update => exact ⟨_, rfl, keeps_serialUpdate c w⟩
  | receive => exact ⟨_, rfl, keeps_receiveEngine c w⟩
  | timeouts => exact ⟨_, rfl, (receiveTimeouts_sameRx c w).keeps⟩
  | transmit => exact ⟨_, rfl, (transmitEngine_sameRx c w).keeps⟩
  | modstat => exact ⟨_, rfl, (modstatEngine_sameRx c w).keeps⟩
  | interrupt req => exact ⟨_, rfl, (serialIntEngine_sameRx c w req).keeps⟩

/-- A read of the data register. -/
theorem good_read_iff (everywhere : Bool) (h : c.rx.Ok) (hdlab : c.dlab = false) :
    Good everywhere w c (.inp .data) ↔ Careful everywhere c (.inp .data) := by
  have hin : c.doSerialIn w .data = c.getRx w := by
    rw [Com.doSerialIn, hdlab]
    rfl
  obtain ⟨hok, hdel, hline, hloop⟩ := @Com.getRx_ok w c h
  constructor
  · rintro ⟨t, ht, -, hdr, -⟩ - hl heverywhere
    obtain rfl := Option.some.inj ht
    rw [hin] at hdr
    exact (hloop hl).mp (hdr (Or.inl ⟨⟨rfl, hdlab⟩, Or.inr heverywhere⟩))
  · intro hcareful
    refine ⟨_, rfl, ?_⟩
    rw [hin]
    refine ⟨hok, ?_, fun _ => hdel, fun hno => absurd ⟨rfl, hdlab⟩ hno⟩
    rintro (⟨-, hmode⟩ | hpush)
    · by_cases hl : c.loop = true
      · rw [hl, Bool.true_eq_false, false_or] at hmode
        exact (hloop hl).mpr (hcareful hdlab hl hmode)
      · exact hline (eq_false_of_ne_true hl)
    · exact hpush.elim

/-- A byte that is looped back and stored. -/
theorem good_store_iff (everywhere : Bool) (h : c.rx.Ok) {val : Byte} (hdlab : c.dlab = false)
    (hl : c.loop = true) (hstores : Stores c) :
    Good everywhere w c (.out .data val) ↔ Careful everywhere c (.out .data val) := by
  obtain ⟨u, hput, hrx, hfifo, hsize⟩ := (@putTx_cases w c val).2 hl
  have hstores' : Stores u := by
    unfold Stores
    rw [hfifo, hsize, hrx]
    exact hstores
  obtain ⟨hinside, houtside⟩ := @loopTx_store w u val hstores'
  rw [hrx] at hinside houtside
  have hstep : step w c (.out .data val) =
      (u.loopTx w val).map fun c => c.serialIntEngine w 0 := by
    rw [step, Com.doSerialOut, Com.writeReg, hdlab, ← hput]
    rfl
  constructor
  · rintro ⟨t, ht, -⟩ - - -
    by_contra hend
    rw [hstep, houtside (Nat.le_of_not_lt hend)] at ht
    cases ht
  · intro hcareful
    obtain ⟨t, ht, hkeeps⟩ := hinside (hcareful hdlab hl hstores)
    obtain ⟨hok, hlog⟩ := ((Keeps.of_eq hrx).trans hkeeps).trans
      (serialIntEngine_sameRx t w 0).keeps h
    refine ⟨t.serialIntEngine w 0, by rw [hstep, ht]; rfl, hok, ?_, ?_, fun _ => hlog⟩
    · rintro (⟨⟨hno, -⟩, -⟩ | hno)
      · cases hno
      · exact hno.elim
    · rintro ⟨hno, -⟩
      cases hno

/-- The other operations are always as promised. -/
theorem good_other (everywhere : Bool) (h : c.rx.Ok) {op : Op} (hreads : ¬ReadsData c op)
    (hstore : ∀ val, op = .out .data val → c.dlab = false → c.loop = true → ¬Stores c) :
    Good everywhere w c op := by
  obtain ⟨t, ht, hkeeps⟩ := @step_keeps w c op hreads hstore
  obtain ⟨hok, hlog⟩ := hkeeps h
  refine ⟨t, ht, hok, ?_, fun hno => absurd hno hreads, fun _ => hlog⟩
  rintro (⟨hno, -⟩ | hpush)
  · exact absurd hno hreads
  · cases op with
    | push bs =>
        obtain ⟨hne, hfit, hl⟩ := hpush
        obtain rfl := Option.some.inj ht
        obtain ⟨hdr, hsome⟩ := @push_ready _ w c h hne hfit hl
        exact iff_of_true hdr hsome
    | _ => exact hpush.elim

/-- An operation is as promised if and only if it is careful. -/
theorem good_iff_careful (everywhere : Bool) {op : Op} (h : c.rx.Ok) :
    Good everywhere w c op ↔ Careful everywhere c op := by
  by_cases hreads : ReadsData c op
  · obtain ⟨rfl, hdlab⟩ := hreads
    exact good_read_iff everywhere h hdlab
  by_cases hstore : ∃ val, op = .out .data val ∧ c.dlab = false ∧ c.loop = true ∧ Stores c
  · obtain ⟨val, rfl, hdlab, hl, hstores⟩ := hstore
    exact good_store_iff everywhere h hdlab hl hstores
  refine iff_of_true (good_other everywhere h hreads
    fun val hop hdlab hl hstores => hstore ⟨val, hop, hdlab, hl, hstores⟩) ?_
  cases op with
  | inp reg =>
      cases reg with
      | data => exact fun hdlab => absurd ⟨rfl, hdlab⟩ hreads
      | _ => trivial
  | out reg val =>
      cases reg with
      | data => exact fun hdlab hl hstores => absurd ⟨val, rfl, hdlab, hl, hstores⟩ hstore
      | _ => trivial
  | _ => trivial

/-- In a run, received bytes are queued, delivered in order, and flagged as promised if and only
if each byte that is looped back and stored finds the cursor inside the buffer; and, for reads in
loopback mode, if more than one byte waits only while the data ready bit is set. -/
theorem rx_fifo_iff (hc : c.Initial) (everywhere : Bool) (ops : List Op) :
    Run.Admits (step w) (Good everywhere w) c ops ↔
      Run.Admits (step w) (Careful everywhere) c ops := by
  have hok : c.rx.Ok := by
    refine ⟨by rw [hc.start]; exact Nat.zero_le _, by rw [hc.stop]; exact Nat.zero_le _, ?_⟩
    rw [hc.log]
    unfold RxQueue.contents RxQueue.bytes
    rw [hc.start, hc.stop]
    rfl
  refine Run.admits_congr (fun c => c.rx.Ok) ?_ (fun c op h => good_iff_careful everywhere h) hok
  intro c op t h hcareful ht
  obtain ⟨u, hu, hgood, -⟩ := (good_iff_careful everywhere h).mpr hcareful
  obtain rfl := Option.some.inj (hu.symm.trans ht)
  exact hgood

/-! ## A port in loopback mode -/

instance (c : Com) : Decidable (Stores c) :=
  inferInstanceAs (Decidable (_ ∨ _))

instance (everywhere : Bool) (c : Com) : ∀ op : Op, Decidable (Careful everywhere c op)
  | .out .data _ => inferInstanceAs (Decidable (c.dlab = false → c.loop = true → _))
  | .inp .data => inferInstanceAs (Decidable (c.dlab = false → c.loop = true → _))
  | .out .ier _ | .out .iirFcr _ | .out .lcr _ | .out .mcr _ | .out .lsr _ | .out .msr _
  | .out .scr _ | .inp .ier | .inp .iirFcr | .inp .lcr | .inp .mcr | .inp .lsr | .inp .msr
  | .inp .scr | .push _ | .fill | .update | .receive | .timeouts | .transmit | .modstat
  | .interrupt _ => .isTrue trivial

/-- A host with one byte on the line and nothing else to say. -/
def quietWorld : World where
  cfg := ⟨false, true, true, false⟩
  read := fun n => if n = 0 then .data 0x41 [] else .eof
  queued := fun _ => 0
  msr := fun _ => 0
  writes := fun _ => true

/-- A port that was not used before. -/
def resetCom : Com where
  rx := ⟨fun _ => 0, 0, 0, []⟩
  isClosed := false
  rxTimeout := 0
  rxFifoTrigger := 0
  rxFifoSize := 0
  intCondition := 0
  dll := 0x30
  dlm := 0
  ier := 0
  iirMask := 0
  cti := false
  fifoEnable := false
  lcr := uartLcrWlen8
  fcReg := 0
  mcr := 0
  lsr := 0
  msr := 0
  scr := 0
  txCnt := 0
  line := false
  clock := 0

theorem resetCom_initial : resetCom.Initial where
  start := rfl
  stop := rfl
  log := rfl
  intCondition := rfl
  ier := rfl
  mcr := rfl
  iirMask := rfl
  line := rfl

/-- Bytes from the line, pushed, and looped back. -/
theorem rx_fifo_quiet :
    Run.Admits (step quietWorld) (Good true quietWorld) resetCom
      [.inp .data, .push [0x42, 0x43], .inp .data, .inp .data, .out .mcr 0x10, .out .data 0x44,
        .out .data 0x45, .inp .data, .inp .data] :=
  (rx_fifo_iff resetCom_initial true _).mpr (by decide +kernel)

/-- Nobody reads in loopback mode: the byte after the first 128 is stored behind the buffer. -/
theorem loopback_overflows :
    resetCom.Initial ∧ ¬Run.Admits (step quietWorld) (Good false quietWorld) resetCom
      (.out .mcr 0x10 :: List.replicate 129 (.out .data 0x44)) := by
  refine ⟨resetCom_initial, fun hgood => ?_⟩
  have hstop : (Run.run (step quietWorld) resetCom
      (.out .mcr 0x10 :: List.replicate 129 (.out .data 0x44))).isNone = true := by
    decide +kernel
  obtain ⟨t, ht, -⟩ := Run.run_isSome (fun c op _ hg => by
    obtain ⟨t, ht, -⟩ := hg
    exact ⟨t, ht, trivial⟩) trivial hgood
  rw [ht] at hstop
  cases hstop

end Serial
end Dosemu
