import Mathlib.Tactic

/-!
# Logs of a first-in first-out queue

What goes in and out of a queue, as a list of events, and what such a log says is
left in the queue.  A log that has no answer delivered something that was not the
oldest element.

Main results:

- Theorem `replay_concat`: the log of one more event.
- Theorem `delivered_concat`: what goes out with it.
-/

namespace Fifo

/-- What happens to a queue. -/
inductive Event (α : Type*) where
  | accept (xs : List α)
  | deliver (x : α)
  | clear
  deriving DecidableEq

variable {α : Type*}

/-- What went out. -/
def delivered (log : List (Event α)) : List α :=
  log.filterMap fun
    | .deliver x => some x
    | _ => none

theorem delivered_concat (log : List (Event α)) (e : Event α) :
    delivered (log ++ [e]) = delivered log ++ delivered [e] :=
  List.filterMap_append

variable [DecidableEq α]

/-- The elements after an event. -/
def next : List α → Event α → Option (List α)
  | q, .accept xs => some (q ++ xs)
  | y :: q, .deliver x => if x = y then some q else none
  | [], .deliver _ => none
  | _, .clear => some []

/-- The elements after all events of a log. -/
def replay (log : List (Event α)) : Option (List α) :=
  log.foldlM next []

theorem replay_concat {log : List (Event α)} {q : List α} (h : replay log = some q)
    (e : Event α) : replay (log ++ [e]) = next q e := by
  unfold replay at h ⊢
  rw [List.foldlM_append, h]
  exact bind_pure (next q e)

end Fifo
