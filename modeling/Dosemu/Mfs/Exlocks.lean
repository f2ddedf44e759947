import Dosemu.Lib.LockOrder
import Dosemu.Lib.Run

/-!
# Exclusive locks of the file operations

The operations of `share.c` take an exclusive lock on the file name for their whole
duration, and a rename takes a second one on the new name while it holds the first.
Any number of processes run them one step at a time; acquiring a lock that somebody
holds, the process itself included, is not a step, so the process waits.

What an operation does to files under its locks decides only the result of
`file_is_opened`, which the steps take from outside.

Main results:

- Theorem `State.step_inv`: no step closes a cycle of pending renames.
- Theorem `rename_deadlock_free`: no set of processes deadlocks on a run that starts no
  rename whose new name leads back to its old name through pending renames.
-/

namespace Dosemu
namespace Mfs

open LockOrder Relation

/-! ## The operations -/

/-- `prepare_shlock_name` -/
def prepareShlockName (fname : String) : String :=
  fname.map fun c => if c = '/' then '\\' else c

/-- A call with its file names; `force` is the caller's own file being open. -/
inductive Op
  | rename (fname fname2 : String) (force : Bool)
  | unlink (fname : String) (force : Bool)
  | setattr (fname : String) (force : Bool)
  | open (fname : String)
  | creat (fname : String)
deriving DecidableEq

/-- The lock each operation takes first. -/
def Op.exlock : Op → String
  | .rename fname _ _ | .unlink fname _ | .setattr fname _ | .open fname | .creat fname =>
      prepareShlockName fname

/-- The result of `file_is_opened`. -/
inductive FileIsOpened
  | notFound
  | no
  | yes
deriving DecidableEq

/-- Where a process is in its call. -/
inductive Pc
  | idle
  /-- in `apply_exlock(fname)` -/
  | first (op : Op)
  /-- behind it, with the lock -/
  | locked (op : Op)
  /-- in `apply_exlock(fname2)` of `do_mfs_rename` -/
  | second (exlock exlock2 : String)
  /-- behind it, with both locks -/
  | both (exlock exlock2 : String)
  /-- about to `shlock_close(exlock)` -/
  | done (exlock : String)
deriving DecidableEq

/-- The process is in `apply_exlock` for the lock. -/
def Pc.Waits : Pc → String → Prop
  | .first op, lock => op.exlock = lock
  | .second _ exlock2, lock => exlock2 = lock
  | _, _ => False

/-- The process has the lock. -/
def Pc.Holds : Pc → String → Prop
  | .locked op, lock => op.exlock = lock
  | .second exlock _, lock | .done exlock, lock => exlock = lock
  | .both exlock exlock2, lock => exlock = lock ∨ exlock2 = lock
  | _, _ => False

/-- The locks of a rename that is not past its second lock. -/
def Pc.Pending : Pc → String → String → Prop
  | .first (.rename fname fname2 _), a, b | .locked (.rename fname fname2 _), a, b =>
      a = prepareShlockName fname ∧ b = prepareShlockName fname2
  | .second exlock exlock2, a, b => a = exlock ∧ b = exlock2
  | _, _, _ => False

/-- The processes and who holds each lock. -/
structure State (N : Nat) where
  pc : Fin N → Pc
  owner : String → Option (Fin N)

/-- What a process does next. -/
inductive Action
  /-- call an operation -/
  | call (op : Op)
  /-- `apply_exlock` returns with the lock it waits for -/
  | acquire
  /-- `apply_exlock` returns `NULL` -/
  | fail
  /-- go on with this result of `file_is_opened` up to the next lock operation -/
  | check (rc : FileIsOpened)
  /-- `shlock_close` -/
  | close

namespace State

variable {N : Nat}

/-- All processes are idle. -/
def init (N : Nat) : State N :=
  ⟨fun _ => .idle, fun _ => none⟩

/-- A process goes on. -/
def goto (s : State N) (p : Fin N) (pc : Pc) : State N :=
  { s with pc := Function.update s.pc p pc }

/-- `shlock_open` with `excl` and `block`: not a step while somebody holds the lock. -/
def take (s : State N) (p : Fin N) (lock : String) (pc : Pc) : Option (State N) :=
  match s.owner lock with
  | some _ => none
  | none => some { s.goto p pc with owner := Function.update s.owner lock (some p) }

/-- `shlock_close` -/
def drop (s : State N) (p : Fin N) (lock : String) (pc : Pc) : State N :=
  { s.goto p pc with owner := Function.update s.owner lock none }

/-- What follows the first lock: a rename goes for its second one unless `file_is_opened`
sends it back, every other operation does its work and closes. -/
def checked : Op → FileIsOpened → Pc
  | .rename fname fname2 force, rc =>
      if rc = .notFound ∨ rc = .yes ∧ !force then .done (prepareShlockName fname)
      else .second (prepareShlockName fname) (prepareShlockName fname2)
  | op, _ => .done op.exlock

/-- One step of one process. -/
def step (s : State N) : Fin N × Action → Option (State N)
  | (p, .call op) => if s.pc p = .idle then some (s.goto p (.first op)) else none
  | (p, .acquire) =>
      match s.pc p with
      | .first op => s.take p op.exlock (.locked op)
      | .second exlock exlock2 => s.take p exlock2 (.both exlock exlock2)
      | _ => none
  | (p, .fail) =>
      match s.pc p with
      | .first _ => some (s.goto p .idle)
      | .second exlock _ => some (s.goto p (.done exlock))
      | _ => none
  | (p, .check rc) =>
      match s.pc p with
      | .locked op => some (s.goto p (checked op rc))
      | _ => none
  | (p, .close) =>
      match s.pc p with
      | .both exlock exlock2 => some (s.drop p exlock2 (.done exlock))
      | .done exlock => some (s.drop p exlock .idle)
      | _ => none

@[simp]
theorem goto_self (s : State N) (p : Fin N) (pc : Pc) : (s.goto p pc).pc p = pc :=
  Function.update_self ..

@[simp]
theorem goto_other {s : State N} {p q : Fin N} {pc : Pc} (h : q ≠ p) :
    (s.goto p pc).pc q = s.pc q :=
  Function.update_of_ne h ..

@[simp]
theorem drop_owner_self (s : State N) (p : Fin N) (lock : String) (pc : Pc) :
    (s.drop p lock pc).owner lock = none :=
  Function.update_self ..

@[simp]
theorem drop_owner_other {s : State N} {p : Fin N} {lock l : String} {pc : Pc} (h : l ≠ lock) :
    (s.drop p lock pc).owner l = s.owner l :=
  Function.update_of_ne h ..

/-! ## Waiting -/

/-- Some set of processes is deadlocked. -/
def Deadlock (s : State N) : Prop :=
  ∃ S, Deadlocked (fun p => (s.pc p).Waits) s.owner S

/-- Some pending rename leads from one lock to the other. -/
def Pending (s : State N) (a b : String) : Prop :=
  ∃ p, (s.pc p).Pending a b

/-- A rename is started only if no chain of pending renames leads from its new name back to
its old name; the empty chain does when the names are equal. -/
def NoCrossing (s : State N) : Fin N × Action → Prop
  | (_, .call (.rename fname fname2 _)) =>
      ¬ReflTransGen s.Pending (prepareShlockName fname2) (prepareShlockName fname)
  | _ => True

/-! ## The invariant -/

/-- Pending renames form no cycle, and a lock is held by the process that is recorded. -/
structure Inv (s : State N) : Prop where
  acyclic : Acyclic s.Pending
  holds : ∀ lock p, s.owner lock = some p → (s.pc p).Holds lock

theorem inv_init (N : Nat) : (init N).Inv where
  acyclic := by
    intro x hx
    obtain ⟨_, ⟨p, hp⟩, -⟩ := TransGen.head'_iff.mp hx
    exact hp
  holds := by
    intro lock p h
    cases h

/-- A waiting process holds a lock only as a pending rename. -/
theorem Inv.not_deadlock {s : State N} (hs : s.Inv) : ¬s.Deadlock := by
  rintro ⟨S, hS⟩
  refine not_deadlocked hs.acyclic (fun p x r howner hwaits => ?_) S hS
  have hholds := hs.holds x p howner
  refine ⟨p, ?_⟩
  cases hpc : s.pc p with
  | second exlock exlock2 =>
      rw [hpc] at hholds hwaits
      exact ⟨hholds.symm, hwaits.symm⟩
  | first op =>
      rw [hpc] at hholds
      exact hholds.elim
  | _ =>
      rw [hpc] at hwaits
      exact hwaits.elim

variable {s t : State N} {p : Fin N} {pc : Pc}

/-- The edges after one process has moved. -/
theorem pending_goto {a b : String} (h : (s.goto p pc).Pending a b) :
    s.Pending a b ∨ pc.Pending a b := by
  obtain ⟨q, hq⟩ := h
  by_cases hqp : q = p
  · subst hqp
    rw [goto_self] at hq
    exact Or.inr hq
  · rw [goto_other hqp] at hq
    exact Or.inl ⟨q, hq⟩

/-- A move that starts no rename adds no edge. -/
theorem acyclic_goto (hs : s.Inv) (hpc : ∀ a b, pc.Pending a b → (s.pc p).Pending a b) :
    Acyclic (s.goto p pc).Pending := by
  refine hs.acyclic.mono fun a b h => ?_
  rcases pending_goto h with h | h
  · exact h
  · exact ⟨p, hpc a b h⟩

/-- A move that keeps the locks of the process. -/
theorem Inv.goto (hs : s.Inv) (hpending : ∀ a b, pc.Pending a b → (s.pc p).Pending a b)
    (hholds : ∀ lock, (s.pc p).Holds lock → pc.Holds lock) : (s.goto p pc).Inv := by
  refine ⟨acyclic_goto hs hpending, fun lock q howner => ?_⟩
  have hq := hs.holds lock q howner
  by_cases hqp : q = p
  · subst hqp
    rw [goto_self]
    exact hholds lock hq
  · rwa [goto_other hqp]

/-- A process gets a lock. -/
theorem Inv.take {lock : String} (hs : s.Inv) (h : s.take p lock pc = some t)
    (hpending : ∀ a b, pc.Pending a b → (s.pc p).Pending a b)
    (hholds : ∀ l, (s.pc p).Holds l → pc.Holds l) (hlock : pc.Holds lock) : t.Inv := by
  rw [State.take] at h
  cases howner : s.owner lock with
  | some q => simp [howner] at h
  | none =>
      rw [howner] at h
      cases h
      have hgoto := hs.goto hpending hholds
      refine ⟨hgoto.acyclic, fun l q hq => ?_⟩
      by_cases hl : l = lock
      · subst hl
        dsimp only at hq
        rw [Function.update_self] at hq
        cases hq
        change ((s.goto p pc).pc p).Holds l
        rwa [goto_self]
      · dsimp only at hq
        rw [Function.update_of_ne hl] at hq
        exact hgoto.holds l q hq

/-- A process gives a lock back. -/
theorem Inv.drop {lock : String} (hs : s.Inv)
    (hpending : ∀ a b, pc.Pending a b → (s.pc p).Pending a b)
    (hholds : ∀ l, l ≠ lock → (s.pc p).Holds l → pc.Holds l) : (s.drop p lock pc).Inv := by
  refine ⟨acyclic_goto hs hpending, fun l q howner => ?_⟩
  by_cases hl : l = lock
  · subst hl
    rw [drop_owner_self] at howner
    cases howner
  rw [drop_owner_other hl] at howner
  have hq := hs.holds l q howner
  change ((s.goto p pc).pc q).Holds l
  by_cases hqp : q = p
  · subst hqp
    rw [goto_self]
    exact hholds l hl hq
  · rwa [goto_other hqp]

/-- What `check` leads to keeps the lock and adds no edge. -/
theorem checked_spec (op : Op) (rc : FileIsOpened) :
    (∀ a b, (checked op rc).Pending a b → (Pc.locked op).Pending a b) ∧
      ∀ lock, (Pc.locked op).Holds lock → (checked op rc).Holds lock := by
  cases op with
  | rename fname fname2 force =>
      rw [checked]
      split
      · exact ⟨fun a b h => h.elim, fun lock h => h⟩
      · exact ⟨fun a b h => h, fun lock h => h⟩
  | _ => exact ⟨fun a b h => h.elim, fun lock h => h⟩

/-- A rename that starts without crossing a chain of pending ones. -/
theorem acyclic_call {op : Op} (hs : s.Inv) (hok : s.NoCrossing (p, .call op)) :
    Acyclic (s.goto p (.first op)).Pending := by
  cases op with
  | rename fname fname2 force =>
      refine (acyclic_insert hs.acyclic hok).mono fun a b h => ?_
      rcases pending_goto h with h | h
      · exact Or.inl h
      · exact Or.inr h
  | _ =>
      refine hs.acyclic.mono fun a b h => ?_
      rcases pending_goto h with h | h
      · exact h
      · exact h.elim

theorem step_inv {e : Fin N × Action} (hs : s.Inv) (hok : s.NoCrossing e)
    (h : s.step e = some t) : t.Inv := by
  obtain ⟨p, action⟩ := e
  cases action with
  | call op =>
      rw [step] at h
      split at h
      · next hidle =>
          cases h
          refine ⟨acyclic_call hs hok, fun lock q howner => ?_⟩
          have hq := hs.holds lock q howner
          by_cases hqp : q = p
          · subst hqp
            rw [hidle] at hq
            exact hq.elim
          · rwa [goto_other hqp]
      · cases h
  | acquire =>
      rw [step] at h
      cases hpc : s.pc p with
      | first op =>
          rw [hpc] at h
          refine hs.take h ?_ ?_ rfl
          · rw [hpc]
            cases op <;> exact fun a b h => h
          · rw [hpc]
            exact fun l hl => hl.elim
      | second exlock exlock2 =>
          rw [hpc] at h
          refine hs.take h (fun a b h => h.elim) ?_ (Or.inr rfl)
          rw [hpc]
          exact fun l hl => Or.inl hl
      | _ =>
          rw [hpc] at h
          cases h
  | fail =>
      rw [step] at h
      cases hpc : s.pc p with
      | first op =>
          rw [hpc] at h
          cases h
          refine hs.goto (fun a b h => h.elim) ?_
          rw [hpc]
          exact fun l hl => hl.elim
      | second exlock exlock2 =>
          rw [hpc] at h
          cases h
          refine hs.goto (fun a b h => h.elim) ?_
          rw [hpc]
          exact fun l hl => hl
      | _ =>
          rw [hpc] at h
          cases h
  | check rc =>
      rw [step] at h
      cases hpc : s.pc p with
      | locked op =>
          rw [hpc] at h
          cases h
          obtain ⟨hpending, hholds⟩ := checked_spec op rc
          exact hs.goto (hpc ▸ hpending) (hpc ▸ hholds)
      | _ =>
          rw [hpc] at h
          cases h
  | close =>
      rw [step] at h
      cases hpc : s.pc p with
      | both exlock exlock2 =>
          rw [hpc] at h
          cases h
          refine hs.drop (fun a b h => h.elim) ?_
          rw [hpc]
          exact fun l hne hl => hl.resolve_right (Ne.symm hne)
      | done exlock =>
          rw [hpc] at h
          cases h
          refine hs.drop (fun a b h => h.elim) ?_
          rw [hpc]
          exact fun l hne hl => hne hl.symm
      | _ =>
          rw [hpc] at h
          cases h

/-! ## The contract -/

/-- On a run that starts no rename whose new name leads back to its old name through the
pending renames, no state has a deadlocked set of processes. -/
theorem rename_deadlock_free {N : Nat} {es : List (Fin N × Action)} {t : State N}
    (hok : Run.Admits step NoCrossing (init N) es) (hrun : Run.run step (init N) es = some t) :
    ¬t.Deadlock :=
  (Run.run_invariant NoCrossing Inv (fun _ _ _ hs hok h => step_inv hs hok h) (inv_init N) hok
    hrun).not_deadlock

/-- A rename that waits for its second lock while an unlink of the new name has it. -/
theorem rename_deadlock_free_behind_unlink :
    ∃ t, Run.run step (init 2) [(0, .call (.rename "a" "b" false)), (0, .acquire), (0, .check .no),
        (1, .call (.unlink "b" false)), (1, .acquire)] = some t ∧ ¬t.Deadlock := by
  have hstart : (init 2).NoCrossing (0, .call (.rename "a" "b" false)) := by
    intro hpath
    rcases ReflTransGen.cases_head hpath with hsame | ⟨_, ⟨p, hp⟩, -⟩
    · exact absurd hsame (by decide +kernel)
    · exact hp
  have hok : Run.Admits step NoCrossing (init 2) [(0, .call (.rename "a" "b" false)),
      (0, .acquire), (0, .check .no), (1, .call (.unlink "b" false)), (1, .acquire)] :=
    ⟨hstart, fun _ _ => ⟨trivial, fun _ _ => ⟨trivial, fun _ _ => ⟨trivial, fun _ _ =>
      ⟨trivial, fun _ _ => trivial⟩⟩⟩⟩⟩
  have hsome : (Run.run step (init 2) [(0, .call (.rename "a" "b" false)), (0, .acquire),
      (0, .check .no), (1, .call (.unlink "b" false)), (1, .acquire)]).isSome = true := by
    decide +kernel
  obtain ⟨t, hrun⟩ := Option.isSome_iff_exists.mp hsome
  exact ⟨t, hrun, rename_deadlock_free hok hrun⟩

/-- Two renames that cross, each holding the lock the other one waits for. -/
theorem crossing_renames_deadlock :
    ¬∀ (N : Nat) (es : List (Fin N × Action)) (t : State N),
      Run.run step (init N) es = some t → ¬t.Deadlock := by
  intro hall
  have heval : (Run.run step (init 2) [(0, .call (.rename "a" "b" false)),
      (1, .call (.rename "b" "a" false)), (0, .acquire), (1, .acquire), (0, .check .no),
      (1, .check .no)]).map (fun t => (t.pc 0, t.pc 1, t.owner "a", t.owner "b")) =
        some (.second "a" "b", .second "b" "a", some 0, some 1) := by
    decide +kernel
  obtain ⟨t, hrun, ht⟩ := Option.map_eq_some_iff.mp heval
  simp only [Prod.mk.injEq] at ht
  obtain ⟨h0, h1, ha, hb⟩ := ht
  have hwaits0 : (t.pc 0).Waits "b" := by rw [h0]; rfl
  have hwaits1 : (t.pc 1).Waits "a" := by rw [h1]; rfl
  refine hall 2 _ t hrun ⟨Set.univ, ⟨0, trivial⟩, fun p _ => ?_⟩
  fin_cases p
  · exact ⟨"b", hwaits0, 1, trivial, hb⟩
  · exact ⟨"a", hwaits1, 0, trivial, ha⟩

end State

end Mfs
end Dosemu
