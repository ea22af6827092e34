import Mathlib

/-!
# Iterations in an arbitrary order

A parallel loop runs its iterations in an order nobody controls. When iteration
`i` writes slot `i` only, and computes it from what no iteration writes (or from
slot `i` itself), the final slots do not depend on the order.
-/

namespace DarwinNotes.Lib
open List

/-- Run the iterations of a parallel loop in the given order. -/
def parallelFor {σ : Type} (order : List Nat) (body : Nat → σ → σ) (state : σ) : σ := order.foldl (fun state i => body i state) state

/-- The order is one of the `n` iterations `0 .. n - 1`. -/
def IsOrderOf (order : List Nat) (n : Nat) : Prop := order.Perm (range n)

theorem IsOrderOf.mem_iff {order : List Nat} {n : Nat} (isOrder : IsOrderOf order n) (i : Nat) : i ∈ order ↔ i < n := by
  rw [List.Perm.mem_iff isOrder, mem_range]

theorem IsOrderOf.nodup {order : List Nat} {n : Nat} (isOrder : IsOrderOf order n) : order.Nodup :=
  (List.Perm.nodup_iff isOrder).2 nodup_range

variable {σ : Type}

@[simp] theorem parallelFor_cons (i : Nat) (order : List Nat) (body : Nat → σ → σ) (state : σ) :
    parallelFor (i :: order) body state = parallelFor order body (body i state) := rfl

/-- What one iteration establishes in any state and every iteration keeps holds after the loop. -/
theorem parallelFor_establishes {body : Nat → σ → σ} (post : σ → Prop) (keeps : ∀ i state, post state → post (body i state)) {i : Nat}
    (sets : ∀ state, post (body i state)) : ∀ order state, i ∈ order → post (parallelFor order body state) := by
  intro order
  induction order with
  | nil => intro state member; cases member
  | cons j order ih =>
    intro state member
    by_cases later : i ∈ order
    · exact ih _ later
    · have here : i = j := (mem_cons.1 member).resolve_right later
      subst here
      exact foldlRecOn order _ (sets state) (fun state holds k _ => keeps k state holds)

/-- Every iteration replaces the one slot `target i` of a view of the state and keeps an invariant, so the
order does not matter: each target holds what its own iteration makes of its old value. -/
theorem parallelFor_slots {β : Type} (body : Nat → σ → σ) (inv : σ → Prop) (view : σ → Nat → β) (target : Nat → Nat)
    (injective : Function.Injective target) (f : Nat → β → β) : ∀ order : List Nat, order.Nodup →
      (∀ i ∈ order, ∀ state, inv state → inv (body i state) ∧
        view (body i state) = Function.update (view state) (target i) (f i (view state (target i)))) → ∀ state, inv state →
        inv (parallelFor order body state) ∧ (∀ i ∈ order, view (parallelFor order body state) (target i) = f i (view state (target i))) ∧
        ∀ slot, (∀ i ∈ order, target i ≠ slot) → view (parallelFor order body state) slot = view state slot := by
  intro order
  induction order with
  | nil =>
    intro _ _ state holds
    refine ⟨holds, fun i member => ?_, fun _ _ => rfl⟩
    cases member
  | cons j order ih =>
    intro nodup writes state holds
    obtain ⟨fresh, rest⟩ := nodup_cons.1 nodup
    obtain ⟨holds', written⟩ := writes j mem_cons_self state holds
    obtain ⟨final, targets, others⟩ := ih rest (fun i member => writes i (mem_cons_of_mem _ member)) _ holds'
    refine ⟨final, ?_, ?_⟩
    · intro i member
      rw [parallelFor_cons]
      rcases mem_cons.1 member with rfl | later
      · have apart : ∀ k ∈ order, target k ≠ target i := fun k later same => fresh (injective same ▸ later)
        rw [others _ apart, written, Function.update_self]
      · have apart : target i ≠ target j := fun same => fresh (injective same ▸ later)
        rw [targets i later, written, Function.update_of_ne apart]
    · intro slot untouched
      rw [parallelFor_cons, others slot (fun i later => untouched i (mem_cons_of_mem _ later)), written,
        Function.update_of_ne (untouched j mem_cons_self).symm]

end DarwinNotes.Lib
