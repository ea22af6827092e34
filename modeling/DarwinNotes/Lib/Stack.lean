import Mathlib

/-!
# A plain stack

A list with its top at the end, and the ways it can change. What is put on a stack
in the course of a run is what is taken off it, up to what was there before and what
is left.
-/

namespace DarwinNotes.Lib.Stack
open List

variable {α : Type}

/-- What happens to a stack in one step. -/
inductive Event (α : Type)
  | put (a : α)
  | take (a : α)
  | silent
  deriving DecidableEq, Repr

/-- The stack before and after. Only the top is taken. -/
inductive Moves : Event α → List α → List α → Prop
  | put (a : α) (stack : List α) : Moves (.put a) stack (stack ++ [a])
  | take (a : α) (stack : List α) : Moves (.take a) (stack ++ [a]) stack
  | silent (stack : List α) : Moves .silent stack stack

/-- A run, with the events in their order. -/
inductive Runs : List (Event α) → List α → List α → Prop
  | done (stack : List α) : Runs [] stack stack
  | step {event : Event α} {events : List (Event α)} {before between after : List α} :
      Runs events before between → Moves event between after → Runs (events ++ [event]) before after

variable (events : List (Event α))

/-- What is put on the stack. -/
def puts : List α :=
  events.filterMap fun
    | .put a => some a
    | _ => none

/-- What is taken off the stack, in this order. -/
def takes : List α :=
  events.filterMap fun
    | .take a => some a
    | _ => none

variable (events events' : List (Event α))

theorem puts_append : puts (events ++ events') = puts events ++ puts events' := filterMap_append

theorem takes_append : takes (events ++ events') = takes events ++ takes events' := filterMap_append

/-- **Everything that is put on the stack and is not left there is taken off it, once.** -/
theorem Runs.perm {events : List (Event α)} {before after : List α} (run : Runs events before after) :
    (before ++ puts events).Perm (after ++ takes events) := by
  induction run with
  | done => exact List.Perm.refl _
  | step _ moves ih =>
    rw [puts_append, takes_append]
    cases moves with
    | put a =>
      have put : puts [Event.put a] = [a] ∧ takes [Event.put a] = [] := ⟨rfl, rfl⟩
      rw [put.1, put.2, append_nil, ← append_assoc]
      refine (ih.append_right [a]).trans ?_
      rw [append_assoc, append_assoc]
      exact perm_append_comm.append_left _
    | take a =>
      have take : puts [Event.take a] = [] ∧ takes [Event.take a] = [a] := ⟨rfl, rfl⟩
      rw [take.1, take.2, append_nil]
      refine ih.trans ?_
      rw [append_assoc]
      exact perm_append_comm.append_left _
    | silent =>
      have silent : puts [(Event.silent : Event α)] = [] ∧ takes [(Event.silent : Event α)] = [] := ⟨rfl, rfl⟩
      rw [silent.1, silent.2, append_nil, append_nil]
      exact ih

/-- What is below stays. -/
theorem Moves.take_eq {event : Event α} {before after : List α} (moves : Moves event before after) {n : Nat}
    (enough : n ≤ before.length) (enough' : n ≤ after.length) : after.take n = before.take n := by
  cases moves with
  | put => exact take_append_of_le_length enough
  | take => exact (take_append_of_le_length enough').symm
  | silent => rfl

end DarwinNotes.Lib.Stack
