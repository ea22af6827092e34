import DarwinNotes.Lib.Chain

/-!
# Doubly linked lists

A list of nodes with a link to the one before and to the one behind each of them. `Linked` is about a segment, between
the nodes before and behind it. A node is taken out by setting a link on both sides of it.
-/

namespace DarwinNotes.Lib
open Function List

variable {Node : Type}

/-- The links of the nodes of a segment. -/
def Linked (prev next : Node → Option Node) : Option Node → List Node → Option Node → Prop
  | _, [], _ => True
  | before, node :: rest, after => prev node = before ∧ next node = rest.head?.or after ∧ Linked prev next (some node) rest after

/-- Set the link of a node, if there is one. -/
def setLink [DecidableEq Node] (link : Node → Option Node) (node target : Option Node) : Node → Option Node :=
  match node with
  | none => link
  | some node => update link node target

section Linked

variable {prev next prev' next' : Node → Option Node} {before after : Option Node} {list left right : List Node}

/-- A segment depends on the links of its own nodes only. -/
theorem Linked.congr (linked : Linked prev next before list after)
    (same : ∀ node ∈ list, prev' node = prev node ∧ next' node = next node) : Linked prev' next' before list after := by
  induction list generalizing before with
  | nil => trivial
  | cons node _ ih =>
    obtain ⟨isPrev, isNext, linked⟩ := linked
    obtain ⟨samePrev, sameNext⟩ := same node mem_cons_self
    exact ⟨samePrev.trans isPrev, sameNext.trans isNext, ih linked fun other isOther => same other (mem_cons_of_mem _ isOther)⟩

theorem linked_append : Linked prev next before (left ++ right) after ↔
    Linked prev next before left (right.head?.or after) ∧ Linked prev next (left.getLast?.or before) right after := by
  induction left generalizing before with
  | nil => simp [Linked]
  | cons node rest ih =>
    have isLast : (node :: rest).getLast?.or before = rest.getLast?.or (some node) := by
      rw [getLast?_cons]
      cases rest.getLast? <;> rfl
    rw [cons_append, Linked, Linked, ih, isLast, head?_append, Option.or_assoc, and_assoc, and_assoc]

/-- Following the links to the nodes behind spells the list, -/
theorem Linked.chain (linked : Linked prev next before list none) : Chain next list.head? list := by
  induction list generalizing before with
  | nil => exact .nil
  | cons _ _ ih =>
    apply Chain.cons
    rw [linked.2.1, Option.or_none]
    exact ih linked.2.2

/-- and following those to the nodes before spells it backwards. -/
theorem Linked.chain_reverse (linked : Linked prev next none list after) : Chain prev list.getLast? list.reverse := by
  induction list using reverseRecOn generalizing after with
  | nil => exact .nil
  | append_singleton _ _ ih =>
    obtain ⟨isRest, isPrev, -⟩ := linked_append.mp linked
    rw [getLast?_concat, reverse_append, reverse_singleton, singleton_append]
    apply Chain.cons
    rw [isPrev, Option.or_none]
    exact ih isRest

variable [DecidableEq Node] (link : Node → Option Node)

theorem setLink_of_ne {node : Option Node} (target : Option Node) {other : Node} (different : node ≠ some other) :
    setLink link node target other = link other := by
  cases node with
  | none => rfl
  | some => exact update_of_ne (fun same => different (congrArg some same.symm)) _ _

/-- The first node gets another one before it. -/
theorem Linked.setPrev (linked : Linked prev next before list after) (distinct : list.Nodup) (before' : Option Node) :
    Linked (setLink prev list.head? before') next before' list after := by
  cases list with
  | nil => trivial
  | cons =>
    refine ⟨update_self _ _ _, linked.2.1, linked.2.2.congr fun other isOther => ⟨?_, rfl⟩⟩
    exact update_of_ne (ne_of_mem_of_not_mem isOther (nodup_cons.mp distinct).1) _ _

/-- The last node gets another one behind it. -/
theorem Linked.setNext (linked : Linked prev next before list after) (distinct : list.Nodup) (after' : Option Node) :
    Linked prev (setLink next list.getLast? after') before list after' := by
  cases list using reverseRecOn with
  | nil => trivial
  | append_singleton _ node =>
    rw [nodup_append] at distinct
    obtain ⟨isRest, isPrev, -⟩ := linked_append.mp linked
    rw [getLast?_concat]
    refine linked_append.mpr ⟨isRest.congr fun other isOther => ⟨rfl, ?_⟩, isPrev, update_self _ _ _, trivial⟩
    exact update_of_ne (distinct.2.2 other isOther node (mem_singleton_self _)) _ _

theorem Linked.remove {node : Node} (linked : Linked prev next before (left ++ node :: right) after)
    (distinct : (left ++ node :: right).Nodup) :
    Linked (setLink prev right.head? (left.getLast?.or before)) (setLink next left.getLast? (right.head?.or after)) before
      (left ++ right) after := by
  obtain ⟨isLeft, -, -, isRight⟩ := linked_append.mp linked
  have fewer := distinct.sublist ((sublist_cons_self node right).append_left left)
  obtain ⟨distinctLeft, distinctRight, apart⟩ := nodup_append.mp fewer
  refine linked_append.mpr ⟨(isLeft.setNext distinctLeft _).congr fun other isOther => ⟨?_, rfl⟩,
    (isRight.setPrev distinctRight _).congr fun other isOther => ⟨rfl, ?_⟩⟩
  · apply setLink_of_ne
    intro isHead
    exact apart other isOther other (mem_of_mem_head? isHead) rfl
  · apply setLink_of_ne
    intro isLast
    exact apart other (mem_of_getLast? isLast) other isOther rfl

theorem Linked.push (linked : Linked prev next none list none) (distinct : list.Nodup) {node : Node} (isNew : node ∉ list) :
    Linked (setLink (update prev node none) list.head? (some node)) (update next node list.head?) none (node :: list)
      none := by
  have notFirst : list.head? ≠ some node := fun isHead => isNew (mem_of_mem_head? isHead)
  refine ⟨?_, ?_, ?_⟩
  · rw [setLink_of_ne _ _ notFirst, update_self]
  · rw [update_self, Option.or_none]
  · refine (linked.congr ?_).setPrev distinct (some node)
    intro other isOther
    have different := ne_of_mem_of_not_mem isOther isNew
    exact ⟨update_of_ne different _ _, update_of_ne different _ _⟩

end Linked

end DarwinNotes.Lib
