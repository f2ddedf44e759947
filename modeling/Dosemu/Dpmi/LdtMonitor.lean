import Dosemu.Lib.BitRuns
import Dosemu.Lib.Outcome

/-!
# The monitor of the descriptor table

A client can ask to be told which entries of its LDT have changed.  Changes are
collected in a bitmap of 32-bit words, with a count of its bits, and reported by
calls of the client: one for each run of consecutive entries, or a single one
for all of them when a client exits.

A run that reaches the end of a word is carried over to the next one, where
another function goes on with it.

Main results:

- Theorem `processChunk_spec`, `processChunkC_spec`: each word takes the scan for
  runs 32 entries further.
- Theorem `ldtCall_spec`, `exitCall_spec`: what is reported.
- Theorem `monitor_reports`: the same over every sequence of changes and reports.
-/

namespace Dosemu
namespace Dpmi
namespace LdtMonitor

open BitRuns

/-- `LDT_ENTRIES` -/
def ldtEntries : Nat := 8192

/-- `ldt_bitmap`, `ldt_bitmap_cnt` and `ldt_mon_on`. -/
structure Monitor where
  bitmap : Nat → BitVec 32
  cnt : Nat
  on : Bool

/-- `find_bit`: the lowest set bit, if there is one. -/
def findBit (w : BitVec 32) : Option Nat :=
  (List.range 32).find? fun j => w.getLsbD j

/-- `find_bit_r`: the highest set bit. -/
def findBitR (w : BitVec 32) : Option Nat :=
  ((List.range 32).find? fun k => w.getLsbD (31 - k)).map fun k => 31 - k

/-- `__builtin_popcount` -/
def popcount (w : BitVec 32) : Nat :=
  left (fun j => w.getLsbD j) 32 0

/-- A round of the loop in `ldt_bitmap_update`. -/
def setEntry (m : Monitor) (ent : Nat) : Monitor :=
  let b := m.bitmap (ent / 32)
  if b.getLsbD (ent % 32) then m
  else
    { m with
      bitmap := Function.update m.bitmap (ent / 32) (b ||| 1#32 <<< (ent % 32))
      cnt := m.cnt + 1 }

/-- The loop of `ldt_bitmap_update`. -/
def setEntries (m : Monitor) (entry : Nat) : Nat → Monitor
  | 0 => m
  | num + 1 => setEntries (setEntry m entry) (entry + 1) num

/-- `ldt_bitmap_update` -/
def ldtBitmapUpdate (m : Monitor) (entry num : Nat) : Monitor :=
  if !m.on then m else setEntries m entry num

/-- `reset_ldt_bmp` -/
def resetLdtBmp (m : Monitor) : Monitor :=
  { m with bitmap := fun _ => 0, cnt := 0 }

/-- `struct chunk_state` beside the monitor, and the calls that were made; an entry of -1 is
none. -/
structure Report where
  mon : Monitor
  carry : Bool
  ent : Option Nat
  num : Nat
  cnt : Nat
  calls : List Run

/-- A bit is cleared and no longer counted. -/
def clearBit (m : Monitor) (i j : Nat) : Option Monitor := do
  cAssert (m.cnt ≠ 0)
  return { m with
    bitmap := Function.update m.bitmap i (m.bitmap i &&& ~~~(1#32 <<< j))
    cnt := m.cnt - 1 }

/-- `do_ldt_call` or `do_ldt_call_b`, with what is around each of its calls. -/
def doLdtCall (r : Report) : Option Report := do
  let ent ← r.ent
  cAssert (r.num ≠ 0)
  return { r with calls := r.calls ++ [(ent, r.num)], num := 0, cnt := r.cnt + 1 }

/-- The inner loop over the bits of word `i` from `j` on, and where it ends. -/
def takeBits (i : Nat) : Nat → Nat → Report → Option (Nat × Report)
  | 0, j, r => some (j, r)
  | k + 1, j, r =>
      if (r.mon.bitmap i).getLsbD j then do
        let mon ← clearBit r.mon i j
        takeBits i k (j + 1) { r with mon := mon, num := r.num + 1 }
      else some (j, r)

/-- `ldt_process_chunk`; a round takes at least one bit of the word. -/
def processChunk (i : Nat) : Nat → Report → Option Report
  | 0, r => some r
  | fuel + 1, r =>
      if r.mon.bitmap i = 0 then some r
      else do
        let j ← findBit (r.mon.bitmap i)
        let mon ← clearBit r.mon i j
        let (j, r) ← takeBits i (32 - (j + 1)) (j + 1)
          { r with mon := mon, ent := some (32 * i + j), num := 1 }
        if j < 32 then
          let r ← doLdtCall r
          processChunk i fuel r
        else
          cAssert (r.mon.bitmap i = 0)
          return { r with carry := true }

/-- `ldt_process_chunk_c` -/
def processChunkC (i : Nat) (r : Report) : Option Report :=
  if r.mon.bitmap i = 0 then doLdtCall { r with carry := false }
  else do
    let (j, r) ← takeBits i 32 0 r
    if j < 32 then
      let r ← doLdtCall { r with carry := false }
      processChunk i 33 r
    else return r

/-- `ldt_process_end` -/
def processEnd (r : Report) : Option Report :=
  if r.carry then doLdtCall { r with carry := false } else some r

/-- The loop over the words, while bits are left. -/
def eachWord (f : Nat → Report → Option Report) : Nat → Nat → Report → Option Report
  | 0, _, r => some r
  | k + 1, i, r =>
      if r.mon.cnt = 0 then some r
      else do
        let r ← f i r
        eachWord f k (i + 1) r

/-- What a report begins with. -/
def newReport (m : Monitor) : Report :=
  { mon := m, carry := false, ent := none, num := 0, cnt := 0, calls := [] }

/-- `dpmi_ldt_call`, with the selector of the call, and the calls made. -/
def ldtCall (m : Monitor) (selector : BitVec 16) : Option (Monitor × List Run) :=
  if m.cnt = 0 then some (m, [])
  else if selector = 0 then some (resetLdtBmp m, [])
  else do
    let r ← eachWord (fun i r => if r.carry then processChunkC i r else processChunk i 33 r)
      (ldtEntries / 32) 0 (newReport m)
    let r ← processEnd r
    return (r.mon, r.calls)

/-- The word is cleared and no longer counted. -/
def clearWord (m : Monitor) (i : Nat) : Option Monitor := do
  let n := popcount (m.bitmap i)
  cAssert (n ≤ m.cnt)
  return { m with bitmap := Function.update m.bitmap i 0, cnt := m.cnt - n }

/-- `ldt_process_chunk_b` -/
def processChunkB (i : Nat) (r : Report) : Option Report :=
  match findBit (r.mon.bitmap i) with
  | none => some r
  | some j => do
      let k ← findBitR (r.mon.bitmap i)
      cAssert (j ≤ k)
      let mon ← clearWord r.mon i
      return { r with mon := mon, ent := some (32 * i + j), num := k - j + 1, carry := true }

/-- `ldt_process_chunk_b_c` -/
def processChunkBC (i : Nat) (r : Report) : Option Report :=
  match findBitR (r.mon.bitmap i) with
  | none => some r
  | some k => do
      let ent ← r.ent
      cAssert (ent ≤ 32 * i + k)
      let mon ← clearWord r.mon i
      return { r with mon := mon, num := 32 * i + k - ent + 1 }

/-- `ldt_process_end_b` -/
def processEndB (r : Report) : Option Report := do
  cAssert (r.carry = true)
  doLdtCall { r with carry := false }

/-- `dpmi_ldt_exitcall` -/
def exitCall (m : Monitor) (selector : BitVec 16) : Option (Monitor × List Run) :=
  if m.cnt = 0 then some (m, [])
  else if selector = 0 then some (resetLdtBmp m, [])
  else do
    let r ← eachWord (fun i r => if r.carry then processChunkBC i r else processChunkB i r)
      (ldtEntries / 32) 0 (newReport m)
    let r ← processEndB r
    return (r.mon, r.calls)

/-- `dpmi_ext_ldt_monitor_enable` -/
def monitorEnable (m : Monitor) (on : Bool) : Monitor :=
  resetLdtBmp { m with on := on }

/-! ## Words and bits -/

/-- An entry of the table is set. -/
def Monitor.bit (m : Monitor) (q : Nat) : Bool :=
  (m.bitmap (q / 32)).getLsbD (q % 32)

theorem bit_word (m : Monitor) {i j : Nat} (hj : j < 32) :
    m.bit (32 * i + j) = (m.bitmap i).getLsbD j := by
  rw [Monitor.bit]
  congr 2
  · omega
  · omega

theorem word_eq_zero_iff (w : BitVec 32) : w = 0 ↔ ∀ j, j < 32 → w.getLsbD j = false := by
  constructor
  · rintro rfl j -
    exact BitVec.getLsbD_zero
  · intro h
    apply BitVec.eq_of_getLsbD_eq
    intro j hj
    rw [h j hj]
    exact BitVec.getLsbD_zero.symm

theorem findBit_eq_some {w : BitVec 32} {j : Nat} (h : findBit w = some j) :
    j < 32 ∧ w.getLsbD j = true ∧ ∀ k, k < j → w.getLsbD k = false := by
  rw [findBit, List.find?_range_eq_some] at h
  exact ⟨List.mem_range.mp h.2.1, h.1, fun k hk => by simpa using h.2.2 k hk⟩

theorem findBit_isSome {w : BitVec 32} (hw : w ≠ 0) : ∃ j, findBit w = some j := by
  apply Option.isSome_iff_exists.mp
  rw [findBit, List.find?_isSome]
  by_contra hnone
  apply hw
  rw [word_eq_zero_iff]
  intro j hj
  by_contra hbit
  exact hnone ⟨j, List.mem_range.mpr hj, by simpa using hbit⟩

theorem findBitR_eq_some {w : BitVec 32} {j : Nat} (h : findBitR w = some j) :
    j < 32 ∧ w.getLsbD j = true ∧ ∀ k, j < k → k < 32 → w.getLsbD k = false := by
  obtain ⟨i, hi, rfl⟩ := Option.map_eq_some_iff.mp h
  rw [List.find?_range_eq_some] at hi
  refine ⟨by omega, hi.1, ?_⟩
  intro k hlo hhi
  have hk := hi.2.2 (31 - k) (by omega)
  rw [show 31 - (31 - k) = k by omega] at hk
  simpa using hk

theorem findBitR_isSome {w : BitVec 32} (hw : w ≠ 0) : ∃ j, findBitR w = some j := by
  apply Option.isSome_iff_exists.mp
  rw [findBitR, Option.isSome_map, List.find?_isSome]
  by_contra hnone
  apply hw
  rw [word_eq_zero_iff]
  intro j hj
  by_contra hbit
  refine hnone ⟨31 - j, List.mem_range.mpr (by omega), ?_⟩
  rw [show 31 - (31 - j) = j by omega]
  simpa using hbit

theorem getLsbD_clear (w : BitVec 32) {j k : Nat} (hk : k < 32) :
    (w &&& ~~~(1#32 <<< j)).getLsbD k = (w.getLsbD k && !(k == j)) := by
  rw [BitVec.getLsbD_and, BitVec.getLsbD_not, BitVec.getLsbD_shiftLeft, BitVec.getLsbD_one]
  congr 1
  rw [Bool.eq_iff_iff]
  simp
  omega

theorem getLsbD_set (w : BitVec 32) {j k : Nat} (hk : k < 32) :
    (w ||| 1#32 <<< j).getLsbD k = (w.getLsbD k || k == j) := by
  rw [BitVec.getLsbD_or, BitVec.getLsbD_shiftLeft, BitVec.getLsbD_one]
  congr 1
  rw [Bool.eq_iff_iff]
  simp
  omega

/-! ## How far a report has come -/

variable {D : Nat → Bool} {m : Monitor} {r : Report} {p i j : Nat}

/-- Below `p` the bitmap is cleared; from there on it holds the entries `D`, which came in while
the monitor was on. -/
structure At (D : Nat → Bool) (p : Nat) (m : Monitor) : Prop where
  bits : ∀ q, q < 8192 → m.bit q = (decide (p ≤ q) && D q)
  cnt : m.cnt = left D 8192 p
  on : ∀ q, D q = true → m.on = true

theorem At.word (h : At D p m) (hi : i < 256) (hj : j < 32) :
    (m.bitmap i).getLsbD j = (decide (p ≤ 32 * i + j) && D (32 * i + j)) := by
  rw [← bit_word m hj]
  exact h.bits _ (by omega)

theorem At.word_eq (h : At D (32 * i) m) (hi : i < 256) (hj : j < 32) :
    (m.bitmap i).getLsbD j = D (32 * i + j) := by
  rw [h.word hi hj, decide_eq_true (Nat.le_add_right _ _), Bool.true_and]

/-- Bits that are clear are entries that are not set. -/
theorem At.unset {k : Nat} (h : At D p m) (hlo : p ≤ k) (hhi : k < 8192)
    (hbit : (m.bitmap (k / 32)).getLsbD (k % 32) = false) : D k = false := by
  have hk := h.bits k hhi
  rw [decide_eq_true hlo, Bool.true_and] at hk
  rw [← hk]
  exact hbit

theorem At.unset_of_word (h : At D p m) (hi : i < 256) (hp : 32 * i ≤ p)
    (hzero : m.bitmap i = 0) : ∀ k, p ≤ k → k < 32 * (i + 1) → D k = false := by
  intro k hlo hhi
  apply h.unset hlo (by omega)
  rw [show k / 32 = i by omega, hzero]
  exact BitVec.getLsbD_zero

/-- Entries that are not set need no clearing. -/
theorem At.skip {q : Nat} (h : At D p m) (hle : p ≤ q) (hq : q ≤ 8192)
    (hfalse : ∀ k, p ≤ k → k < q → D k = false) : At D q m := by
  refine ⟨?_, by rw [h.cnt, left_skip hle hq hfalse], h.on⟩
  intro k hk
  rw [h.bits k hk]
  by_cases hkq : q ≤ k
  · rw [decide_eq_true hkq, decide_eq_true (hle.trans hkq)]
  · rw [decide_eq_false hkq]
    by_cases hpk : p ≤ k
    · rw [hfalse k hpk (Nat.not_le.mp hkq), Bool.and_false, Bool.and_false]
    · rw [decide_eq_false hpk]

/-- One word is changed; the others hold what they held. -/
theorem At.update_word {q c : Nat} {w : BitVec 32} (h : At D p m) (hp : 32 * i ≤ p) (hle : p ≤ q)
    (hq : q ≤ 32 * (i + 1))
    (hw : ∀ j, j < 32 → w.getLsbD j = (decide (q ≤ 32 * i + j) && D (32 * i + j)))
    (hc : c = left D 8192 q) :
    At D q { m with bitmap := Function.update m.bitmap i w, cnt := c } := by
  refine ⟨?_, hc, h.on⟩
  intro k hk
  simp only [Monitor.bit]
  by_cases hki : k / 32 = i
  · rw [hki, Function.update_self, hw _ (Nat.mod_lt _ (by decide)),
      show 32 * i + k % 32 = k by omega]
  · have hbit := h.bits k hk
    rw [Monitor.bit] at hbit
    rw [Function.update_of_ne hki, hbit]
    congr 1
    rw [decide_eq_decide]
    omega

/-- The next entry is cleared and not counted any more. -/
theorem At.clearBit (h : At D (32 * i + j) m) (hi : i < 256) (hj : j < 32)
    (hD : D (32 * i + j) = true) :
    ∃ m', clearBit m i j = some m' ∧ At D (32 * i + (j + 1)) m' := by
  have hcnt : m.cnt = 1 + left D 8192 (32 * i + j + 1) := by
    rw [h.cnt, left_succ (by omega), hD]
    rfl
  have hne : m.cnt ≠ 0 := by omega
  refine ⟨{ m with
      bitmap := Function.update m.bitmap i (m.bitmap i &&& ~~~(1#32 <<< j))
      cnt := m.cnt - 1 }, ?_, ?_⟩
  · rw [LdtMonitor.clearBit]
    simp only [Option.bind_eq_bind]
    rw [cAssert_bind hne]
    rfl
  · apply h.update_word (Nat.le_add_right _ _) (by omega) (by omega)
    · intro k hk
      rw [getLsbD_clear _ hk, h.word hi hk, Bool.and_right_comm]
      congr 1
      rw [Bool.eq_iff_iff]
      simp
      omega
    · rw [hcnt, Nat.add_sub_cancel_left]
      rfl

/-- A run is open: the scan has it as the chunk state has. -/
def Open (D : Nat → Bool) (p : Nat) (r : Report) : Prop :=
  At D p r.mon ∧ ∃ e, r.ent = some e ∧ scan D p = { done := r.calls, pending := some (e, r.num) }

/-- No run is open. -/
def Idle (D : Nat → Bool) (p : Nat) (r : Report) : Prop :=
  At D p r.mon ∧ scan D p = { done := r.calls, pending := none }

/-- What is known of the entries below `p`, carried to the next word. -/
def Carried (D : Nat → Bool) (p : Nat) (r : Report) : Prop :=
  (r.carry = true ∧ Open D p r) ∨ (r.carry = false ∧ Idle D p r)

/-- The open run is reported. -/
theorem Open.report (h : Open D p r) :
    ∃ e r', doLdtCall r = some r' ∧ r'.mon = r.mon ∧ r'.carry = r.carry ∧
      r'.calls = (scan D p).runs ∧ scan D p = { done := r.calls, pending := some (e, r.num) } := by
  obtain ⟨hat, e, hent, hscan⟩ := h
  have hpos := ((scan_inv D p).pending (e, r.num) (by rw [hscan])).1
  refine ⟨e, { r with calls := r.calls ++ [(e, r.num)], num := 0, cnt := r.cnt + 1 }, ?_, rfl,
    rfl, ?_, hscan⟩
  · rw [doLdtCall, hent]
    simp only [Option.bind_eq_bind, Option.bind_some]
    rw [cAssert_bind (Nat.pos_iff_ne_zero.mp hpos)]
    rfl
  · rw [hscan]
    rfl

/-- The open run is reported when the next entry is not set. -/
theorem Open.close (h : Open D p r) (hp : p < 8192) (hD : D p = false) :
    ∃ r', doLdtCall r = some r' ∧ r'.carry = r.carry ∧ Idle D (p + 1) r' := by
  obtain ⟨e, r', hcall, hmon, hcarry, hcalls, hscan⟩ := h.report
  refine ⟨r', hcall, hcarry, ?_, ?_⟩
  · rw [hmon]
    refine h.1.skip (Nat.le_succ p) hp fun k hlo hhi => ?_
    rw [show k = p by omega, hD]
  · rw [scan_succ_close hD (by rw [hscan]), hcalls, hscan]
    rfl

theorem Idle.skip {q : Nat} (h : Idle D p r) (hle : p ≤ q) (hq : q ≤ 8192)
    (hfalse : ∀ k, p ≤ k → k < q → D k = false) : Idle D q r := by
  refine ⟨h.1.skip hle hq hfalse, ?_⟩
  rw [scan_skip (by rw [h.2]) hle hfalse, h.2]

/-! ## The words -/

/-- The inner loop follows the open run through the word. -/
theorem takeBits_spec (hi : i < 256) {k : Nat} (hk : j + k = 32)
    (h : Open D (32 * i + j) r) :
    ∃ j' r', takeBits i k j r = some (j', r') ∧ j ≤ j' ∧ j' ≤ 32 ∧ r'.carry = r.carry ∧
      Open D (32 * i + j') r' ∧ (j' < 32 → D (32 * i + j') = false) := by
  induction k generalizing j r with
  | zero => exact ⟨j, r, rfl, le_rfl, hk.le, rfl, h, fun hlt => by omega⟩
  | succ k ih =>
      have hj : j < 32 := by omega
      have hbit := h.1.word hi hj
      rw [decide_eq_true le_rfl, Bool.true_and] at hbit
      rw [takeBits]
      cases hD : D (32 * i + j) with
      | false =>
          rw [hbit, hD]
          exact ⟨j, r, rfl, le_rfl, hj.le, rfl, h, fun _ => hD⟩
      | true =>
          obtain ⟨m', hclear, hat⟩ := h.1.clearBit hi hj hD
          obtain ⟨e, hent, hscan⟩ := h.2
          have hopen : Open D (32 * i + (j + 1)) { r with mon := m', num := r.num + 1 } := by
            refine ⟨hat, e, hent, ?_⟩
            rw [← Nat.add_assoc, scan_succ_extend hD (by rw [hscan]), hscan]
          obtain ⟨j', r', htake, hle, hle', hcarry, hopen', hstop⟩ := ih (by omega) hopen
          refine ⟨j', r', ?_, by omega, hle', hcarry, hopen', hstop⟩
          rw [hbit, hD, if_pos rfl, hclear]
          exact htake

/-- The loop over the runs that begin in a word. -/
theorem processChunk_spec (hi : i < 256) {fuel : Nat} (hfuel : 32 < fuel + j) (hj : j ≤ 32)
    (hcarry : r.carry = false) (h : Idle D (32 * i + j) r) :
    ∃ r', processChunk i fuel r = some r' ∧ Carried D (32 * (i + 1)) r' := by
  induction fuel generalizing j r with
  | zero => omega
  | succ fuel ih =>
      rw [processChunk]
      by_cases hzero : r.mon.bitmap i = 0
      · rw [if_pos hzero]
        have hunset := h.1.unset_of_word hi (Nat.le_add_right _ _) hzero
        exact ⟨r, rfl, .inr ⟨hcarry, h.skip (by omega) (by omega) hunset⟩⟩
      · rw [if_neg hzero]
        obtain ⟨j₀, hfind⟩ := findBit_isSome hzero
        obtain ⟨hj₀, hset, hlow⟩ := findBit_eq_some hfind
        rw [h.1.word hi hj₀, Bool.and_eq_true, decide_eq_true_eq] at hset
        obtain ⟨hle, hD⟩ := hset
        have hidle : Idle D (32 * i + j₀) r := by
          refine h.skip hle (by omega) ?_
          intro k hlo hhi
          apply h.1.unset hlo (by omega)
          rw [show k / 32 = i by omega]
          exact hlow _ (by omega)
        obtain ⟨m', hclear, hat⟩ := hidle.1.clearBit hi hj₀ hD
        have hopen : Open D (32 * i + (j₀ + 1))
            { r with mon := m', ent := some (32 * i + j₀), num := 1 } := by
          refine ⟨hat, _, rfl, ?_⟩
          rw [← Nat.add_assoc, scan_succ_open hD (by rw [hidle.2]), hidle.2]
        obtain ⟨j', r', htake, hjle, hj', hcarry', hopen', hstop⟩ :=
          takeBits_spec hi (by omega : j₀ + 1 + (32 - (j₀ + 1)) = 32) hopen
        simp only [hfind, hclear, htake, Option.bind_eq_bind, Option.bind_some]
        by_cases hlt : j' < 32
        · -- The run ends within the word.
          obtain ⟨r'', hcall, hcarry'', hidle''⟩ :=
            hopen'.close (show 32 * i + j' < 8192 by omega) (hstop hlt)
          rw [if_pos hlt, hcall]
          exact ih (j := j' + 1) (by omega) hlt (by rw [hcarry'', hcarry', hcarry]) hidle''
        · -- The run reaches the end of the word.
          have hend : j' = 32 := by omega
          subst hend
          have hempty : r'.mon.bitmap i = 0 := by
            rw [word_eq_zero_iff]
            intro k hk
            rw [hopen'.1.word hi hk, decide_eq_false (by omega), Bool.false_and]
          rw [if_neg hlt, cAssert_bind hempty]
          exact ⟨_, rfl, .inl ⟨rfl, hopen'⟩⟩

/-- A word behind an open run. -/
theorem processChunkC_spec (hi : i < 256) (hcarry : r.carry = true) (h : Open D (32 * i) r) :
    ∃ r', processChunkC i r = some r' ∧ Carried D (32 * (i + 1)) r' := by
  have hopen : Open D (32 * i + 0) r := h
  rw [processChunkC]
  by_cases hzero : r.mon.bitmap i = 0
  · have hfalse := h.1.unset_of_word hi le_rfl hzero
    have hopen' : Open D (32 * i) { r with carry := false } := h
    obtain ⟨r', hcall, hcarry', hidle⟩ :=
      hopen'.close (by omega) (hfalse _ le_rfl (by omega))
    rw [if_pos hzero, hcall]
    refine ⟨r', rfl, .inr ⟨hcarry', hidle.skip (by omega) (by omega) ?_⟩⟩
    intro k hlo hhi
    exact hfalse k (by omega) hhi
  · rw [if_neg hzero]
    obtain ⟨j', r', htake, -, hj', hcarry', hopen', hstop⟩ := takeBits_spec hi (Nat.zero_add 32) hopen
    simp only [htake, Option.bind_eq_bind, Option.bind_some]
    by_cases hlt : j' < 32
    · have hopen'' : Open D (32 * i + j') { r' with carry := false } := hopen'
      obtain ⟨r'', hcall, hcarry'', hidle⟩ :=
        hopen''.close (show 32 * i + j' < 8192 by omega) (hstop hlt)
      rw [if_pos hlt, hcall]
      exact processChunk_spec hi (by omega) hlt hcarry'' hidle
    · have hend : j' = 32 := by omega
      subst hend
      rw [if_neg hlt]
      exact ⟨r', rfl, .inl ⟨by rw [hcarry', hcarry], hopen'⟩⟩

/-- The loop over the words keeps what each word keeps; it ends when nothing is left. -/
theorem eachWord_spec {f : Nat → Report → Option Report} {Inv : Nat → Report → Prop}
    (hat : ∀ i r, Inv i r → At D (32 * i) r.mon)
    (hf : ∀ i r, i < 256 → Inv i r → ∃ r', f i r = some r' ∧ Inv (i + 1) r')
    {k : Nat} (hk : i + k = 256) (h : Inv i r) :
    ∃ i' r', eachWord f k i r = some r' ∧ i' ≤ 256 ∧ Inv i' r' ∧ left D 8192 (32 * i') = 0 := by
  induction k generalizing i r with
  | zero =>
      refine ⟨i, r, rfl, hk.le, h, ?_⟩
      rw [left_eq_zero]
      intro q hlo hhi
      omega
  | succ k ih =>
      rw [eachWord]
      by_cases hzero : r.mon.cnt = 0
      · rw [if_pos hzero]
        exact ⟨i, r, rfl, by omega, h, by rw [← (hat i r h).cnt, hzero]⟩
      · obtain ⟨r', hstep, hinv⟩ := hf i r (by omega) h
        rw [if_neg hzero, hstep]
        exact ih (by omega) hinv

/-- The bitmap is empty. -/
structure Monitor.Empty (m : Monitor) : Prop where
  bits : ∀ q, q < 8192 → m.bit q = false
  cnt : m.cnt = 0

theorem At.empty (h : At D p m) (hleft : left D 8192 p = 0) : m.Empty := by
  refine ⟨?_, by rw [h.cnt, hleft]⟩
  intro q hq
  rw [h.bits q hq]
  by_cases hle : p ≤ q
  · rw [left_eq_zero.mp hleft q hle hq, Bool.and_false]
  · rw [decide_eq_false hle, Bool.false_and]

theorem resetLdtBmp_empty (m : Monitor) : (resetLdtBmp m).Empty :=
  ⟨fun _ _ => BitVec.getLsbD_zero, rfl⟩

theorem At.exists_of_cnt (h : At D p m) (hne : m.cnt ≠ 0) : ∃ q, q < 8192 ∧ D q = true := by
  by_contra hnone
  apply hne
  rw [h.cnt, left_eq_zero]
  intro q _ hq
  by_contra hD
  exact hnone ⟨q, hq, by simpa using hD⟩

theorem at_newReport (h : At D 0 m) : Idle D (32 * 0) (newReport m) :=
  ⟨h, rfl⟩

/-- Nothing is set from where nothing is left. -/
theorem unset_of_left (hD : ∀ q, 8192 ≤ q → D q = false) (hleft : left D 8192 p = 0) :
    ∀ q, p ≤ q → D q = false := by
  intro q hlo
  by_cases hq : q < 8192
  · exact left_eq_zero.mp hleft q hlo hq
  · exact hD q (Nat.not_lt.mp hq)

/-- A report lists the maximal runs of the entries, and empties the bitmap. -/
theorem ldtCall_spec (hD : ∀ q, 8192 ≤ q → D q = false) (h : At D 0 m) (selector : BitVec 16) :
    ∃ m' calls, ldtCall m selector = some (m', calls) ∧ m'.Empty ∧ m'.on = m.on ∧
      (selector ≠ 0 → Lists D calls) := by
  rw [ldtCall]
  by_cases hzero : m.cnt = 0
  · have hleft : left D 8192 0 = 0 := by rw [← h.cnt, hzero]
    rw [if_pos hzero]
    exact ⟨m, [], rfl, h.empty hleft, rfl, fun _ => @scan_lists D 0 (unset_of_left hD hleft)⟩
  rw [if_neg hzero]
  by_cases hsel : selector = 0
  · rw [if_pos hsel]
    exact ⟨_, [], rfl, resetLdtBmp_empty m, rfl, fun hne => absurd hsel hne⟩
  rw [if_neg hsel]
  have hword : ∀ i r, i < 256 → Carried D (32 * i) r →
      ∃ r', (if r.carry then processChunkC i r else processChunk i 33 r) = some r' ∧
        Carried D (32 * (i + 1)) r' := by
    rintro i r hi (⟨hcarry, hopen⟩ | ⟨hcarry, hidle⟩)
    · rw [hcarry, if_pos rfl]
      exact processChunkC_spec hi hcarry hopen
    · rw [hcarry, if_neg Bool.false_ne_true]
      exact processChunk_spec hi (by omega) (Nat.zero_le 32) hcarry hidle
  have hat : ∀ i r, Carried D (32 * i) r → At D (32 * i) r.mon := by
    rintro i r (⟨-, hopen⟩ | ⟨-, hidle⟩)
    · exact hopen.1
    · exact hidle.1
  obtain ⟨i, r, hloop, hi, hcarried, hleft⟩ :=
    eachWord_spec hat hword (by rfl : 0 + ldtEntries / 32 = 256) (.inr ⟨rfl, at_newReport h⟩)
  have hlists := @scan_lists D (32 * i) (unset_of_left hD hleft)
  have hempty := (hat i r hcarried).empty hleft
  have hon : r.mon.on = m.on := by
    obtain ⟨q, -, hq⟩ := h.exists_of_cnt hzero
    rw [(hat i r hcarried).on q hq, h.on q hq]
  simp only [hloop, Option.bind_eq_bind, Option.bind_some]
  rw [processEnd]
  rcases hcarried with ⟨hcarry, hopen⟩ | ⟨hcarry, hidle⟩
  · have hopen' : Open D (32 * i) { r with carry := false } := hopen
    obtain ⟨e, r', hcall, hmon, -, hcalls, -⟩ := hopen'.report
    rw [hcarry, if_pos rfl, hcall]
    refine ⟨_, _, rfl, by rw [hmon]; exact hempty, by rw [hmon]; exact hon, fun _ => ?_⟩
    rw [hcalls]
    exact hlists
  · rw [hcarry, if_neg Bool.false_ne_true]
    refine ⟨_, _, rfl, hempty, hon, fun _ => ?_⟩
    rw [hidle.2] at hlists
    simpa [Scan.runs] using hlists

/-! ## The single call -/

/-- Between the first entry and the last one of those below `p`. -/
def Spans (D : Nat → Bool) (p : Nat) (e n : Nat) : Prop :=
  0 < n ∧ e + n ≤ p ∧ D e = true ∧ D (e + n - 1) = true ∧
    ∀ q, q < p → D q = true → e ≤ q ∧ q < e + n

/-- What the chunk state holds of the entries below `p`. -/
def Spanned (D : Nat → Bool) (p : Nat) (r : Report) : Prop :=
  At D p r.mon ∧ r.calls = [] ∧
    ((r.carry = false ∧ ∀ q, q < p → D q = false) ∨
      (r.carry = true ∧ ∃ e, r.ent = some e ∧ Spans D p e r.num))

/-- The bits of a word, as entries. -/
theorem popcount_word (h : At D (32 * i) m) (hi : i < 256) :
    left D 8192 (32 * i) = popcount (m.bitmap i) + left D 8192 (32 * (i + 1)) := by
  have hpart : ∀ k, k ≤ 32 → left D 8192 (32 * i + (32 - k)) =
      left (fun j => (m.bitmap i).getLsbD j) 32 (32 - k) + left D 8192 (32 * (i + 1)) := by
    intro k hk
    induction k with
    | zero =>
        have hnone : left (fun j => (m.bitmap i).getLsbD j) 32 32 = 0 :=
          left_eq_zero.mpr fun q hlo hhi => by omega
        rw [Nat.sub_zero, hnone, Nat.zero_add]
        rfl
    | succ k ih =>
        rw [left_succ (by omega), left_succ (show 32 - (k + 1) < 32 by omega),
          h.word_eq hi (by omega), show 32 * i + (32 - (k + 1)) + 1 = 32 * i + (32 - k) by omega,
          show 32 - (k + 1) + 1 = 32 - k by omega, ih (by omega), Nat.add_assoc]
  exact hpart 32 le_rfl

/-- A word is cleared as a whole. -/
theorem At.clearWord (h : At D (32 * i) m) (hi : i < 256) :
    ∃ m', clearWord m i = some m' ∧ At D (32 * (i + 1)) m' := by
  have hcount := popcount_word h hi
  have hle : popcount (m.bitmap i) ≤ m.cnt := by
    rw [h.cnt, hcount]
    exact Nat.le_add_right _ _
  refine ⟨{ m with
    bitmap := Function.update m.bitmap i 0
    cnt := m.cnt - popcount (m.bitmap i) }, ?_, ?_⟩
  · rw [LdtMonitor.clearWord]
    simp only [Option.bind_eq_bind]
    rw [cAssert_bind hle]
    rfl
  · apply h.update_word le_rfl (by omega) le_rfl
    · intro j hj
      rw [decide_eq_false (by omega), Bool.false_and]
      exact BitVec.getLsbD_zero
    · rw [h.cnt, hcount, Nat.add_sub_cancel_left]

/-- A word behind entries that are not set. -/
theorem processChunkB_spec (hi : i < 256) (hcarry : r.carry = false)
    (h : Spanned D (32 * i) r) :
    ∃ r', processChunkB i r = some r' ∧ Spanned D (32 * (i + 1)) r' := by
  obtain ⟨hat, hcalls, ⟨-, hbelow⟩ | ⟨htrue, -⟩⟩ := h
  · rw [processChunkB]
    by_cases hzero : r.mon.bitmap i = 0
    · have hunset := hat.unset_of_word hi le_rfl hzero
      have hnone : findBit (r.mon.bitmap i) = none := by rw [hzero]; decide
      rw [hnone]
      refine ⟨r, rfl, hat.skip (by omega) (by omega) hunset, hcalls, .inl ⟨hcarry, ?_⟩⟩
      intro q hq
      by_cases hlo : 32 * i ≤ q
      · exact hunset q hlo hq
      · exact hbelow q (Nat.not_le.mp hlo)
    · obtain ⟨j, hj⟩ := findBit_isSome hzero
      obtain ⟨k, hk⟩ := findBitR_isSome hzero
      obtain ⟨hj32, hjset, hjlow⟩ := findBit_eq_some hj
      obtain ⟨hk32, hkset, hkhigh⟩ := findBitR_eq_some hk
      have hle : j ≤ k := by
        by_contra hlt
        rw [hkhigh j (by omega) hj32] at hjset
        cases hjset
      obtain ⟨m', hclear, hat'⟩ := hat.clearWord hi
      rw [hj, hk]
      simp only [Option.bind_eq_bind, Option.bind_some]
      rw [cAssert_bind hle, hclear]
      refine ⟨_, rfl, hat', hcalls, .inr ⟨rfl, _, rfl, Nat.succ_pos _, ?_, ?_, ?_, ?_⟩⟩
      · simp only
        omega
      · rw [← hat.word_eq hi hj32]
        exact hjset
      · simp only
        rw [show 32 * i + j + (k - j + 1) - 1 = 32 * i + k by omega, ← hat.word_eq hi hk32]
        exact hkset
      · intro q hq hD
        by_cases hlo : 32 * i ≤ q
        · have hbit := hat.word_eq hi (show q - 32 * i < 32 by omega)
          rw [Nat.add_sub_cancel' hlo, hD] at hbit
          constructor
          · by_contra hlt
            rw [hjlow _ (by omega)] at hbit
            cases hbit
          · by_contra hge
            simp only at hge
            rw [hkhigh _ (by omega) (by omega)] at hbit
            cases hbit
        · rw [hbelow q (Nat.not_le.mp hlo)] at hD
          cases hD
  · rw [hcarry] at htrue
    cases htrue

/-- A word behind the first entry. -/
theorem processChunkBC_spec (hi : i < 256) (hcarry : r.carry = true)
    (h : Spanned D (32 * i) r) :
    ∃ r', processChunkBC i r = some r' ∧ Spanned D (32 * (i + 1)) r' := by
  obtain ⟨hat, hcalls, ⟨hfalse, -⟩ | ⟨-, e, hent, hpos, hend, hfirst, hlast, hspan⟩⟩ := h
  · rw [hcarry] at hfalse
    cases hfalse
  · rw [processChunkBC]
    by_cases hzero : r.mon.bitmap i = 0
    · have hunset := hat.unset_of_word hi le_rfl hzero
      have hnone : findBitR (r.mon.bitmap i) = none := by rw [hzero]; decide
      rw [hnone]
      refine ⟨r, rfl, hat.skip (by omega) (by omega) hunset, hcalls,
        .inr ⟨hcarry, e, hent, hpos, by omega, hfirst, hlast, ?_⟩⟩
      intro q hq hD
      by_cases hlo : 32 * i ≤ q
      · rw [hunset q hlo hq] at hD
        cases hD
      · exact hspan q (Nat.not_le.mp hlo) hD
    · obtain ⟨k, hk⟩ := findBitR_isSome hzero
      obtain ⟨hk32, hkset, hkhigh⟩ := findBitR_eq_some hk
      obtain ⟨m', hclear, hat'⟩ := hat.clearWord hi
      rw [hk, hent]
      simp only [Option.bind_eq_bind, Option.bind_some]
      rw [cAssert_bind (by omega), hclear]
      refine ⟨_, rfl, hat', hcalls, .inr ⟨hcarry, e, rfl, Nat.succ_pos _, ?_, hfirst, ?_, ?_⟩⟩
      · simp only
        omega
      · simp only
        rw [show e + (32 * i + k - e + 1) - 1 = 32 * i + k by omega, ← hat.word_eq hi hk32]
        exact hkset
      · intro q hq hD
        simp only
        by_cases hlo : 32 * i ≤ q
        · have hbit := hat.word_eq hi (show q - 32 * i < 32 by omega)
          rw [Nat.add_sub_cancel' hlo, hD] at hbit
          refine ⟨by omega, ?_⟩
          by_contra hge
          rw [hkhigh _ (by omega) (by omega)] at hbit
          cases hbit
        · have hin := hspan q (Nat.not_le.mp hlo) hD
          omega

/-- The one call reaches from the first entry to the last one. -/
def Bounds (D : Nat → Bool) (r : Run) : Prop :=
  0 < r.2 ∧ IsLeast {q | D q = true} r.1 ∧ IsGreatest {q | D q = true} (r.1 + r.2 - 1)

theorem Spans.bounds {e n : Nat} (h : Spans D p e n) (hD : ∀ q, p ≤ q → D q = false) :
    Bounds D (e, n) := by
  obtain ⟨hpos, -, hfirst, hlast, hspan⟩ := h
  have hin : ∀ q, D q = true → e ≤ q ∧ q < e + n := by
    intro q hq
    apply hspan q _ hq
    by_contra hge
    rw [hD q (Nat.not_lt.mp hge)] at hq
    cases hq
  refine ⟨hpos, ⟨hfirst, fun q hq => (hin q hq).1⟩, hlast, ?_⟩
  intro q hq
  have hlt := (hin q hq).2
  exact Nat.le_sub_one_of_lt hlt

/-- The report at the exit of a client is a single call, and empties the bitmap. -/
theorem exitCall_spec (hD : ∀ q, 8192 ≤ q → D q = false) (h : At D 0 m) (selector : BitVec 16) :
    ∃ m' calls, exitCall m selector = some (m', calls) ∧ m'.Empty ∧ m'.on = m.on ∧
      (selector ≠ 0 → ((∀ q, D q = false) ∧ calls = []) ∨ ∃ c, calls = [c] ∧ Bounds D c) := by
  rw [exitCall]
  by_cases hzero : m.cnt = 0
  · have hleft : left D 8192 0 = 0 := by rw [← h.cnt, hzero]
    have hunset : ∀ q, D q = false := fun q => unset_of_left hD hleft q (Nat.zero_le q)
    rw [if_pos hzero]
    exact ⟨m, [], rfl, h.empty hleft, rfl, fun _ => .inl ⟨hunset, rfl⟩⟩
  rw [if_neg hzero]
  by_cases hsel : selector = 0
  · rw [if_pos hsel]
    exact ⟨_, [], rfl, resetLdtBmp_empty m, rfl, fun hne => absurd hsel hne⟩
  rw [if_neg hsel]
  have hword : ∀ i r, i < 256 → Spanned D (32 * i) r →
      ∃ r', (if r.carry then processChunkBC i r else processChunkB i r) = some r' ∧
        Spanned D (32 * (i + 1)) r' := by
    intro i r hi hspanned
    cases hcarry : r.carry with
    | true => exact processChunkBC_spec hi hcarry hspanned
    | false => exact processChunkB_spec hi hcarry hspanned
  have hnew : Spanned D (32 * 0) (newReport m) :=
    ⟨h, rfl, .inl ⟨rfl, fun q hq => absurd hq (Nat.not_lt_zero q)⟩⟩
  obtain ⟨i, r, hloop, hi, ⟨hat, hcalls, hcarried⟩, hleft⟩ :=
    eachWord_spec (fun _ _ hs => hs.1) hword (by rfl : 0 + ldtEntries / 32 = 256) hnew
  have hunset := unset_of_left hD hleft
  obtain ⟨q, hq, hDq⟩ := h.exists_of_cnt hzero
  simp only [hloop, Option.bind_eq_bind, Option.bind_some]
  rcases hcarried with ⟨-, hbelow⟩ | ⟨hcarry, e, hent, hspans⟩
  · -- The entry `q` would be on neither side.
    exfalso
    by_cases hlo : 32 * i ≤ q
    · rw [hunset q hlo] at hDq
      cases hDq
    · rw [hbelow q (Nat.not_le.mp hlo)] at hDq
      cases hDq
  · rw [processEndB]
    simp only [Option.bind_eq_bind]
    rw [cAssert_bind hcarry, doLdtCall]
    simp only [hent, Option.bind_eq_bind, Option.bind_some]
    rw [cAssert_bind (Nat.pos_iff_ne_zero.mp hspans.1)]
    refine ⟨_, _, rfl, hat.empty hleft, by rw [hat.on q hDq, h.on q hDq], fun _ => .inr ?_⟩
    exact ⟨(e, r.num), by rw [hcalls]; rfl, hspans.bounds hunset⟩

/-! ## Changes -/

/-- One entry is set and counted, if it was not set. -/
theorem setEntry_spec {ent : Nat} (h : At D 0 m) (hon : m.on = true) (hent : ent < 8192) :
    At (fun k => D k || k == ent) 0 (setEntry m ent) ∧ (setEntry m ent).on = true := by
  have hword : (m.bitmap (ent / 32)).getLsbD (ent % 32) = D ent := by
    rw [h.word (by omega) (Nat.mod_lt _ (by decide)), decide_eq_true (Nat.zero_le _),
      Bool.true_and, Nat.div_add_mod]
  have hcount := @left_insert D 0 8192 ent (Nat.zero_le ent) hent
  rw [setEntry]
  cases hD : D ent with
  | true =>
      have hsame : (fun k => D k || k == ent) = D := by
        funext k
        by_cases hk : k = ent
        · rw [hk, hD, Bool.true_or]
        · rw [beq_eq_false_iff_ne.mpr hk, Bool.or_false]
      rw [hword, hD, if_pos rfl, hsame]
      exact ⟨h, hon⟩
  | false =>
      rw [hword, hD, if_neg Bool.false_ne_true]
      refine ⟨⟨?_, ?_, fun _ _ => hon⟩, hon⟩
      · intro q hq
        have hbit := h.bits q hq
        simp only [Monitor.bit] at hbit ⊢
        rw [decide_eq_true (Nat.zero_le q), Bool.true_and] at hbit ⊢
        by_cases hqe : q / 32 = ent / 32
        · rw [hqe] at hbit
          rw [hqe, Function.update_self, getLsbD_set _ (Nat.mod_lt _ (by decide)), hbit]
          congr 1
          rw [Bool.eq_iff_iff, beq_iff_eq, beq_iff_eq]
          omega
        · have hne : q ≠ ent := by
            rintro rfl
            exact hqe rfl
          rw [Function.update_of_ne hqe, hbit, beq_eq_false_iff_ne.mpr hne, Bool.or_false]
      · simp only
        rw [hcount, hD, h.cnt]
        rfl

/-- The entries of a change. -/
def Within (entry num k : Nat) : Bool :=
  decide (entry ≤ k ∧ k < entry + num)

theorem setEntries_spec {entry num : Nat} (h : At D 0 m) (hon : m.on = true)
    (hfits : entry + num ≤ 8192) :
    At (fun k => D k || Within entry num k) 0 (setEntries m entry num) ∧
      (setEntries m entry num).on = true := by
  induction num generalizing m D entry with
  | zero =>
      have hsame : (fun k => D k || Within entry 0 k) = D := by
        funext k
        rw [Within, decide_eq_false (by omega), Bool.or_false]
      rw [hsame]
      exact ⟨h, hon⟩
  | succ num ih =>
      have hone : (fun k => (D k || k == entry) || Within (entry + 1) num k) =
          fun k => D k || Within entry (num + 1) k := by
        funext k
        rw [Bool.or_assoc, Within, Within]
        congr 1
        rw [Bool.eq_iff_iff, Bool.or_eq_true, beq_iff_eq, decide_eq_true_iff, decide_eq_true_iff]
        omega
      obtain ⟨hat, hon'⟩ := setEntry_spec h hon (show entry < 8192 by omega)
      have hrest := ih hat hon' (show entry + 1 + num ≤ 8192 by omega)
      rw [hone] at hrest
      exact hrest

/-! ## Sequences of changes and reports -/

/-- What happens to the monitor. -/
inductive Op
  | enable (on : Bool)
  | update (entry num : Nat) (fits : entry + num ≤ ldtEntries)
  | call (selector : BitVec 16)
  | exit (selector : BitVec 16)

def step (m : Monitor) : Op → Option (Monitor × List Run)
  | .enable on => some (monitorEnable m on, [])
  | .update entry num _ => some (ldtBitmapUpdate m entry num, [])
  | .call selector => ldtCall m selector
  | .exit selector => exitCall m selector

/-- The entries that were changed since the last report, while the monitor was on. -/
structure Dirty where
  on : Bool
  entries : Nat → Bool

/-- The changes that the next report is about. -/
def Dirty.next (d : Dirty) : Op → Dirty
  | .enable on => { on := on, entries := fun _ => false }
  | .update entry num _ =>
      if d.on then { d with entries := fun k => d.entries k || Within entry num k } else d
  | .call _ => { d with entries := fun _ => false }
  | .exit _ => { d with entries := fun _ => false }

/-- The calls that a report makes. -/
def Reported (d : Dirty) : Op → List Run → Prop
  | .enable _, calls => calls = []
  | .update _ _ _, calls => calls = []
  | .call selector, calls => selector ≠ 0 → Lists d.entries calls
  | .exit selector, calls => selector ≠ 0 →
      ((∀ q, d.entries q = false) ∧ calls = []) ∨ ∃ c, calls = [c] ∧ Bounds d.entries c

/-- The bitmap holds the changes, and the count is the number of its bits. -/
structure Tracks (d : Dirty) (m : Monitor) : Prop where
  bits : ∀ q, q < ldtEntries → m.bit q = d.entries q
  cnt : m.cnt = left m.bit ldtEntries 0

/-- Every operation is completed and reports what it should, and the bitmap follows the
changes. -/
def Reports : Dirty → Monitor → List Op → Prop
  | d, m, [] => Tracks d m
  | d, m, op :: ops => Tracks d m ∧
      ∃ m' calls, step m op = some (m', calls) ∧ Reported d op calls ∧ Reports (d.next op) m' ops

/-- What every operation keeps. -/
structure Good (d : Dirty) (m : Monitor) : Prop where
  at_zero : At d.entries 0 m
  on : m.on = d.on
  below : ∀ q, 8192 ≤ q → d.entries q = false

variable {d : Dirty}

theorem Good.tracks (h : Good d m) : Tracks d m := by
  have hbits : ∀ q, q < 8192 → m.bit q = d.entries q := by
    intro q hq
    rw [h.at_zero.bits q hq, decide_eq_true (Nat.zero_le q), Bool.true_and]
  refine ⟨hbits, ?_⟩
  rw [h.at_zero.cnt, left, left]
  congr 1
  apply Finset.filter_congr
  intro q hq
  rw [hbits q (Finset.mem_Ico.mp hq).2]

theorem Monitor.Empty.good (h : m.Empty) (hon : m.on = d.on) :
    Good { d with entries := fun _ => false } m := by
  refine ⟨⟨?_, ?_, fun q hq => by cases hq⟩, hon, fun _ _ => rfl⟩
  · intro q hq
    rw [h.bits q hq, Bool.and_false]
  · rw [h.cnt]
    exact (left_eq_zero.mpr fun _ _ _ => rfl).symm

/-- One operation. -/
theorem step_spec (h : Good d m) (op : Op) :
    ∃ m' calls, step m op = some (m', calls) ∧ Reported d op calls ∧ Good (d.next op) m' := by
  cases op with
  | enable on =>
      refine ⟨_, _, rfl, rfl, ?_⟩
      exact @Monitor.Empty.good _ { d with on := on } (resetLdtBmp_empty _) rfl
  | update entry num fits =>
      refine ⟨_, _, rfl, rfl, ?_⟩
      have hon := h.on
      rw [Dirty.next, ldtBitmapUpdate]
      cases hd : d.on with
      | false =>
          rw [hd] at hon
          rw [hon]
          exact h
      | true =>
          rw [hd] at hon
          rw [hon]
          obtain ⟨hat, hon'⟩ := setEntries_spec h.at_zero hon fits
          refine ⟨hat, hon', ?_⟩
          intro q hq
          have hout : Within entry num q = false := by
            rw [Within, decide_eq_false]
            have hfits : entry + num ≤ 8192 := fits
            omega
          show (d.entries q || Within entry num q) = false
          rw [h.below q hq, hout, Bool.or_false]
  | call selector =>
      obtain ⟨m', calls, hcall, hempty, hon, hlists⟩ := ldtCall_spec h.below h.at_zero selector
      exact ⟨m', calls, hcall, hlists, hempty.good (hon.trans h.on)⟩
  | exit selector =>
      obtain ⟨m', calls, hcall, hempty, hon, hbounds⟩ := exitCall_spec h.below h.at_zero selector
      exact ⟨m', calls, hcall, hbounds, hempty.good (hon.trans h.on)⟩

theorem reports_of_good (ops : List Op) (h : Good d m) : Reports d m ops := by
  induction ops generalizing d m with
  | nil => exact h.tracks
  | cons op ops ih =>
      obtain ⟨m', calls, hstep, hreported, hgood⟩ := step_spec h op
      exact ⟨h.tracks, m', calls, hstep, hreported, ih hgood⟩

/-- The monitor as it is at the start. -/
def Monitor.initial : Monitor :=
  { bitmap := fun _ => 0, cnt := 0, on := false }

/-- Whatever happens to the monitor, its reports are about exactly the entries that were
changed. -/
theorem monitor_reports (ops : List Op) :
    Reports { on := false, entries := fun _ => false } Monitor.initial ops := by
  apply reports_of_good
  exact @Monitor.Empty.good _ { on := false, entries := fun _ => false }
    (resetLdtBmp_empty Monitor.initial) rfl

end LdtMonitor
end Dpmi
end Dosemu
