import Mathlib

/-!
# Interleaved threads

Threads with a local state each, over one shared state. A step of the system is a
step of one thread. An invariant is a predicate of the shared state together with
one of every thread; a thread has to keep its own and leave those of the others
intact.
-/

namespace DarwinNotes.Lib.Threads
open Function

variable {Thread Shared Local : Type}

structure Config (Thread Shared Local : Type) where
  shared : Shared
  threads : Thread → Local

/-- What one thread can do. -/
abbrev ThreadStep (Thread Shared Local : Type) := Thread → Shared → Local → Shared → Local → Prop

variable [DecidableEq Thread]

/-- Some thread takes a step. -/
inductive Step (step : ThreadStep Thread Shared Local) : Config Thread Shared Local → Config Thread Shared Local → Prop
  | of (thread : Thread) {config : Config Thread Shared Local} {shared : Shared} {here : Local} :
      step thread config.shared (config.threads thread) shared here → Step step config ⟨shared, update config.threads thread here⟩

/-- The configurations of the runs from an initial one. -/
inductive Reachable (step : ThreadStep Thread Shared Local) (init : Config Thread Shared Local → Prop) : Config Thread Shared Local → Prop
  | start {config : Config Thread Shared Local} : init config → Reachable step init config
  | next {config config' : Config Thread Shared Local} : Reachable step init config → Step step config config' → Reachable step init config'

/-- A predicate of the configuration and one of each thread that every step keeps. -/
structure Invariant (step : ThreadStep Thread Shared Local) (whole : Config Thread Shared Local → Prop)
    (each : Thread → Shared → Local → Prop) : Prop where
  own : ∀ {thread config shared' here'}, step thread config.shared (config.threads thread) shared' here' →
    whole config → each thread config.shared (config.threads thread) →
    whole ⟨shared', update config.threads thread here'⟩ ∧ each thread shared' here'
  others : ∀ {thread config shared' here'}, step thread config.shared (config.threads thread) shared' here' →
    whole config → each thread config.shared (config.threads thread) →
    ∀ other, other ≠ thread → ∀ there, each other config.shared there → each other shared' there

variable {step : ThreadStep Thread Shared Local} {init whole : Config Thread Shared Local → Prop}
  {each : Thread → Shared → Local → Prop}

theorem Invariant.preserved (invariant : Invariant step whole each) {config config' : Config Thread Shared Local}
    (move : Step step config config') (holds : whole config)
    (holdsEach : ∀ thread, each thread config.shared (config.threads thread)) :
    whole config' ∧ ∀ thread, each thread config'.shared (config'.threads thread) := by
  obtain ⟨thread, taken⟩ := move
  obtain ⟨wholeAfter, ownAfter⟩ := invariant.own taken holds (holdsEach thread)
  refine ⟨wholeAfter, fun other => ?_⟩
  by_cases same : other = thread
  · subst same
    simpa only [update_self] using ownAfter
  · simp only [update_of_ne same]
    exact invariant.others taken holds (holdsEach thread) other same _ (holdsEach other)

/-- **What holds initially and is kept by every step holds in every run.** -/
theorem Invariant.reachable (invariant : Invariant step whole each)
    (initial : ∀ config, init config → whole config ∧ ∀ thread, each thread config.shared (config.threads thread))
    {config : Config Thread Shared Local} (reached : Reachable step init config) :
    whole config ∧ ∀ thread, each thread config.shared (config.threads thread) := by
  induction reached with
  | start starts => exact initial _ starts
  | next _ move ih => exact invariant.preserved move ih.1 ih.2

variable [Fintype Thread] (amount : Local → Nat)

/-- An amount of all threads when one of them changes. -/
theorem sum_update (threads : Thread → Local) (thread : Thread) (here' : Local) :
    (∑ t, amount (update threads thread here' t)) + amount (threads thread) = (∑ t, amount (threads t)) + amount here' := by
  rw [← Finset.add_sum_erase _ _ (Finset.mem_univ thread), ← Finset.add_sum_erase _ (fun t => amount (threads t))
    (Finset.mem_univ thread), update_self]
  have same : ∑ t ∈ Finset.univ.erase thread, amount (update threads thread here' t) =
      ∑ t ∈ Finset.univ.erase thread, amount (threads t) := by
    refine Finset.sum_congr rfl fun t member => ?_
    rw [update_of_ne (Finset.ne_of_mem_erase member)]
  omega

omit [DecidableEq Thread] in
theorem amount_le_sum (threads : Thread → Local) (thread : Thread) : amount (threads thread) ≤ ∑ t, amount (threads t) :=
  Finset.single_le_sum (f := fun t => amount (threads t)) (fun _ _ => Nat.zero_le _) (Finset.mem_univ thread)

end DarwinNotes.Lib.Threads
