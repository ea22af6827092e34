import Mathlib

/-!
# Chains of links

A singly linked list whose links are a function of the node: `Chain next start
list` says that following `next` from `start` spells `list` and ends. The lemmas
are for pushing a node in front and for unlinking one.
-/

namespace DarwinNotes.Lib
open Function List

variable {Node : Type}

inductive Chain (next : Node → Option Node) : Option Node → List Node → Prop
  | nil : Chain next none []
  | cons {node : Node} {rest : List Node} : Chain next (next node) rest → Chain next (some node) (node :: rest)

namespace Chain

variable {next next' : Node → Option Node} {start : Option Node} {list : List Node}

theorem head_eq (chain : Chain next start list) : start = list.head? := by cases chain <;> rfl

/-- A chain depends on the links of its own nodes only. -/
theorem congr (chain : Chain next start list) (same : ∀ node ∈ list, next' node = next node) : Chain next' start list := by
  induction chain with
  | nil => exact .nil
  | @cons node _ _ ih =>
    refine .cons ?_
    rw [same node mem_cons_self]
    exact ih fun other inRest => same other (mem_cons_of_mem _ inRest)

/-- The link of a node in the chain starts what follows it. -/
theorem drop {before rest : List Node} {node : Node} (chain : Chain next start (before ++ node :: rest)) : Chain next (next node) rest := by
  induction before generalizing start with
  | nil =>
    cases chain with
    | cons tail => exact tail
  | cons _ _ ih =>
    cases chain with
    | cons tail => exact ih tail

variable [DecidableEq Node]

theorem push (chain : Chain next start list) {node : Node} (new : node ∉ list) :
    Chain (update next node start) (some node) (node :: list) := by
  refine .cons ?_
  rw [update_self]
  exact chain.congr fun other inList => update_of_ne (ne_of_mem_of_not_mem inList new) _ _

/-- A chain that is linked past its second node. -/
theorem skip {first node : Node} {rest : List Node} (chain : Chain next start (first :: node :: rest))
    (distinct : (first :: node :: rest).Nodup) : Chain (update next first (next node)) start (first :: rest) := by
  cases chain with
  | cons tail =>
    refine .cons ?_
    rw [update_self]
    have after : Chain next (next node) rest := by
      generalize next first = link at tail
      cases tail with
      | cons after => exact after
    refine after.congr fun other inRest => update_of_ne ?_ _ _
    rintro rfl
    exact (nodup_cons.mp distinct).1 (mem_cons_of_mem _ inRest)

end Chain

/-- The loop that looks for the link to `node`, from the link of `here` on, and
makes it the link of `node`. -/
def unlink [DecidableEq Node] (next : Node → Option Node) (node : Node) : Nat → Node → Option (Node → Option Node)
  | 0, _ => none
  | fuel + 1, here =>
    match next here with
    | none => some (update next here (next node))
    | some there => if there = node then some (update next here (next node)) else unlink next node fuel there

/-- What `unlink` does to the chain it walks along. -/
theorem unlink_chain [DecidableEq Node] {next next' : Node → Option Node} {node here : Node} {fuel : Nat}
    {rest : List Node} (chain : Chain next (some here) (here :: rest)) (distinct : (here :: rest).Nodup)
    (inRest : node ∈ rest) (done : unlink next node fuel here = some next') :
    Chain next' (some here) (here :: rest.erase node) ∧ ∀ other, other ∉ here :: rest → next' other = next other := by
  induction fuel generalizing here rest with
  | zero => cases done
  | succ _ ih =>
    cases chain with
    | cons tail =>
      cases rest with
      | nil => cases inRest
      | cons there rest =>
        have link : next here = some there := tail.head_eq
        rw [unlink, link] at done
        dsimp only at done
        by_cases found : there = node
        · subst found
          rw [if_pos rfl, Option.some.injEq] at done
          subst done
          rw [erase_cons_head]
          refine ⟨Chain.skip (.cons tail) distinct, fun other outside => ?_⟩
          exact update_of_ne (ne_of_mem_of_not_mem mem_cons_self outside).symm _ _
        · rw [if_neg found] at done
          obtain ⟨distinctHere, distinctRest⟩ := nodup_cons.mp distinct
          have inTail : node ∈ rest := (mem_cons.mp inRest).resolve_left (Ne.symm found)
          rw [link] at tail
          obtain ⟨after, others⟩ := ih tail distinctRest inTail done
          have unchanged := (others here distinctHere).trans link
          rw [erase_cons_tail (by simpa using found)]
          refine ⟨.cons (unchanged ▸ after), fun other outside => others other ?_⟩
          exact fun inside => outside (mem_cons_of_mem _ inside)

end DarwinNotes.Lib
