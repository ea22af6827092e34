import DarwinNotes.YYCache.MemoryCache.Model
import DarwinNotes.Lib.LinkedList

/-!
# The linked map is a list without repetitions

`Represents map order` says that the nodes at the addresses `order` are linked in this order, that they are the nodes of the
dictionary, and what the totals are. Each operation on the map is one on the order.
-/

namespace DarwinNotes.YYCache.MemoryCache
open Lib Function List

/-- What a node is for. -/
structure Entry (Key Value : Type) where
  key : Key
  value : Value
  cost : BitVec 64

section Links

variable {Key Value : Type} (nodes : Address → Node Key Value) (address : Address)

def prevOf : Option Address := (nodes address).prev

def nextOf : Option Address := (nodes address).next

def Node.entry (node : Node Key Value) : Entry Key Value where
  key := node.key
  value := node.value
  cost := node.cost

def entryOf : Entry Key Value := (nodes address).entry

/-! ## Setting links -/

/-- The node at the address, if there is one, gets another one before it. -/
def linkPrev (pointer target : Option Address) : Address → Node Key Value :=
  match pointer with
  | none => nodes
  | some address => update nodes address { nodes address with prev := target }

def linkNext (pointer target : Option Address) : Address → Node Key Value :=
  match pointer with
  | none => nodes
  | some address => update nodes address { nodes address with next := target }

variable (pointer target : Option Address)

/-- A part of the nodes that stays as it is. -/
theorem update_eq_self {β : Type} {f : Node Key Value → β} {address : Address} {node : Node Key Value} (same : f node = f (nodes address)) :
    (fun a => f (update nodes address node a)) = fun a => f (nodes a) := by
  funext other
  rw [update_apply]
  split
  case isTrue isSame => rw [same, isSame]
  case isFalse => rfl

@[simp] theorem prevOf_linkPrev : prevOf (linkPrev nodes pointer target) = setLink (prevOf nodes) pointer target := by
  cases pointer with
  | none => rfl
  | some address =>
    funext other
    exact Function.apply_update (fun _ => Node.prev) nodes address _ other

@[simp] theorem nextOf_linkPrev : nextOf (linkPrev nodes pointer target) = nextOf nodes := by
  cases pointer with
  | none => rfl
  | some => exact update_eq_self nodes rfl

@[simp] theorem entryOf_linkPrev : entryOf (linkPrev nodes pointer target) = entryOf nodes := by
  cases pointer with
  | none => rfl
  | some => exact update_eq_self nodes rfl

@[simp] theorem prevOf_linkNext : prevOf (linkNext nodes pointer target) = prevOf nodes := by
  cases pointer with
  | none => rfl
  | some => exact update_eq_self nodes rfl

@[simp] theorem nextOf_linkNext : nextOf (linkNext nodes pointer target) = setLink (nextOf nodes) pointer target := by
  cases pointer with
  | none => rfl
  | some address =>
    funext other
    exact Function.apply_update (fun _ => Node.next) nodes address _ other

@[simp] theorem entryOf_linkNext : entryOf (linkNext nodes pointer target) = entryOf nodes := by
  cases pointer with
  | none => rfl
  | some => exact update_eq_self nodes rfl

end Links

section Maps

variable {Key Value : Type} {map : LinkedMap Key Value} {order left right : List Address} {node : Address} (address : Address)

theorem setPrev_some (target : Option Address) :
    map.setPrev (some address) target = .ok { map with nodes := linkPrev map.nodes (some address) target } := rfl

theorem setNext_some (target : Option Address) :
    map.setNext (some address) target = .ok { map with nodes := linkNext map.nodes (some address) target } := rfl

/-! ## The order of the nodes -/

/-- The nodes are linked in this order. -/
structure InOrder (map : LinkedMap Key Value) (order : List Address) : Prop where
  linked : Linked (prevOf map.nodes) (nextOf map.nodes) none order none
  head : map.head = order.head?
  tail : map.tail = order.getLast?
  distinct : order.Nodup

/-- The dictionary and the totals are about entries at these addresses. -/
structure Counted (map : LinkedMap Key Value) (order : List Address) : Prop where
  nonNil : 0 ∉ order
  dic : ∀ key address, map.dic key = some address ↔ address ∈ order ∧ (entryOf map.nodes address).key = key
  count : map.totalCount = BitVec.ofNat 64 order.length
  cost : map.totalCost = (order.map fun address => (entryOf map.nodes address).cost).sum

structure Represents (map : LinkedMap Key Value) (order : List Address) : Prop where
  inOrder : InOrder map order
  counted : Counted map order

variable (inOrder : InOrder map (left ++ node :: right))
include inOrder

theorem InOrder.links : prevOf map.nodes node = left.getLast? ∧ nextOf map.nodes node = right.head? := by
  obtain ⟨-, isPrev, isNext, -⟩ := linked_append.mp inOrder.linked
  rw [Option.or_none] at isPrev isNext
  exact ⟨isPrev, isNext⟩

omit inOrder in
/-- The last one in the order is the only one with nothing behind it. -/
theorem getLast?_eq_some_iff_of_nodup (distinct : (left ++ node :: right).Nodup) :
    (left ++ node :: right).getLast? = some node ↔ right = [] := by
  constructor
  · intro isLast
    cases right with
    | nil => rfl
    | cons =>
      rw [getLast?_append_cons, getLast?_cons_cons] at isLast
      exact absurd (mem_of_getLast? isLast) (nodup_cons.mp (nodup_append.mp distinct).2.1).1
  · rintro rfl
    exact getLast?_concat

omit inOrder in
theorem head?_eq_some_iff_of_nodup (distinct : (left ++ node :: right).Nodup) : (left ++ node :: right).head? = some node ↔ left = [] := by
  constructor
  · intro isHead
    cases left with
    | nil => rfl
    | cons =>
      obtain rfl := Option.some_inj.mp isHead
      exact absurd (mem_append_right _ mem_cons_self) (nodup_cons.mp distinct).1
  · rintro rfl
    rfl

theorem InOrder.fewer : (left ++ right).Nodup ∧ node ∉ left ++ right := (nodup_cons.mp (nodup_middle.mp inOrder.distinct)).symm

/-- Neither neighbour of a node is the node. -/
theorem InOrder.neighbours : right.head? ≠ some node ∧ left.getLast? ≠ some node := by
  obtain ⟨-, isNew⟩ := inOrder.fewer
  refine ⟨fun isHead => isNew ?_, fun isLast => isNew ?_⟩
  · exact mem_append_right _ (mem_of_mem_head? isHead)
  · exact mem_append_left _ (mem_of_getLast? isLast)

/-- The links on both sides of a node are set past it. -/
def unlinked (nodes : Address → Node Key Value) (node : Address) : Address → Node Key Value :=
  linkNext (linkPrev nodes (nextOf nodes node) (prevOf nodes node)) (prevOf nodes node) (nextOf nodes node)

theorem InOrder.linked_unlinked :
    Linked (prevOf (unlinked map.nodes node)) (nextOf (unlinked map.nodes node)) none (left ++ right) none := by
  obtain ⟨isPrev, isNext⟩ := inOrder.links
  simp only [unlinked, prevOf_linkNext, prevOf_linkPrev, nextOf_linkNext, nextOf_linkPrev, isPrev, isNext]
  simpa using inOrder.linked.remove inOrder.distinct

/-! ## The dictionary and the totals -/

omit inOrder in
/-- Two nodes do not have the same key. -/
theorem Counted.key_inj (counted : Counted map order) {address other : Address} (mem : address ∈ order) (isOther : other ∈ order)
    (sameKey : (entryOf map.nodes address).key = (entryOf map.nodes other).key) : address = other := by
  have isHere := (counted.dic _ address).mpr ⟨mem, sameKey⟩
  have isThere := (counted.dic _ other).mpr ⟨isOther, rfl⟩
  exact Option.some_inj.mp (isHere.symm.trans isThere)

omit inOrder in
/-- There are fewer nodes than addresses. -/
theorem Represents.length_lt (represents : Represents map order) : order.length < 2 ^ 64 := by
  have distinct := nodup_cons.mpr ⟨represents.counted.nonNil, represents.inOrder.distinct⟩
  have bound := distinct.length_le_card
  rwa [Fintype.card_fin] at bound

omit inOrder in
theorem Represents.toNat_totalCount (represents : Represents map order) : map.totalCount.toNat = order.length := by
  rw [represents.counted.count, BitVec.toNat_ofNat, Nat.mod_eq_of_lt represents.length_lt]

/-- What `removeNode:` and `removeTailNode` do first. -/
def forget [DecidableEq Key] (map : LinkedMap Key Value) (node : Address) : LinkedMap Key Value :=
  { map with
    dic := update map.dic (map.nodes node).key none
    totalCost := map.totalCost - (map.nodes node).cost
    totalCount := map.totalCount - 1 }

omit inOrder in
theorem Counted.forget [DecidableEq Key] (counted : Counted map (node :: order)) (isNew : node ∉ order) :
    Counted (MemoryCache.forget map node) order := by
  refine ⟨fun isNil => counted.nonNil (mem_cons_of_mem _ isNil), fun key address => ?_, ?_, ?_⟩
  · simp only [MemoryCache.forget, update_apply]
    split
    case isTrue isKey =>
      refine iff_of_false nofun ?_
      rintro ⟨isOther, sameKey⟩
      have isNode := counted.key_inj (mem_cons_of_mem _ isOther) mem_cons_self (sameKey.trans isKey)
      exact isNew (isNode ▸ isOther)
    case isFalse otherKey =>
      rw [counted.dic, mem_cons]
      exact and_congr_left fun sameKey => or_iff_right fun isNode => otherKey (isNode ▸ sameKey.symm)
  · simp only [MemoryCache.forget, counted.count, length_cons, BitVec.ofNat_add]
    exact BitVec.add_sub_cancel _ _
  · simp only [MemoryCache.forget, counted.cost, map_cons, sum_cons]
    exact add_sub_cancel_left _ _

omit inOrder in
/-- The dictionary and the totals stay, and so do the entries. -/
theorem Counted.congr (counted : Counted map order) {map' : LinkedMap Key Value} {order' : List Address} (perm : order'.Perm order)
    (sameDic : map'.dic = map.dic) (sameCount : map'.totalCount = map.totalCount) (sameCost : map'.totalCost = map.totalCost)
    (sameEntries : entryOf map'.nodes = entryOf map.nodes) : Counted map' order' := by
  refine ⟨fun isNil => counted.nonNil (perm.mem_iff.mp isNil), fun key address => ?_, ?_, ?_⟩
  · rw [sameDic, sameEntries, counted.dic, perm.mem_iff]
  · rw [sameCount, counted.count, perm.length_eq]
  · rw [sameCost, sameEntries, counted.cost]
    exact (perm.map _).sum_eq.symm

/-! ## The operations of the map -/

omit inOrder in
theorem setPrev_or (pointer target : Option Address) :
    (if pointer ≠ none then map.setPrev pointer target else .ok map) = .ok { map with nodes := linkPrev map.nodes pointer target } := by
  cases pointer <;> rfl

omit inOrder in
theorem setNext_or (pointer target : Option Address) :
    (if pointer ≠ none then map.setNext pointer target else .ok map) = .ok { map with nodes := linkNext map.nodes pointer target } := by
  cases pointer <;> rfl

/-- The links of the node itself stay. -/
theorem InOrder.links_linkPrev : (linkPrev map.nodes right.head? left.getLast? node).prev = left.getLast? ∧
      (linkPrev map.nodes right.head? left.getLast? node).next = right.head? := by
  obtain ⟨isPrev, isNext⟩ := inOrder.links
  constructor
  · change prevOf (linkPrev map.nodes right.head? left.getLast?) node = _
    rw [prevOf_linkPrev, setLink_of_ne _ _ inOrder.neighbours.1, isPrev]
  · change nextOf (linkPrev map.nodes right.head? left.getLast?) node = _
    rw [nextOf_linkPrev, isNext]

theorem InOrder.links_unlinked :
    (unlinked map.nodes node node).prev = left.getLast? ∧ (unlinked map.nodes node node).next = right.head? := by
  obtain ⟨isPrev, isNext⟩ := inOrder.links
  obtain ⟨samePrev, sameNext⟩ := inOrder.links_linkPrev
  rw [unlinked, isPrev, isNext]
  constructor
  · change prevOf (linkNext (linkPrev map.nodes right.head? left.getLast?) left.getLast? right.head?) node = _
    rw [prevOf_linkNext]
    exact samePrev
  · change nextOf (linkNext (linkPrev map.nodes right.head? left.getLast?) left.getLast? right.head?) node = _
    rw [nextOf_linkNext, setLink_of_ne _ _ inOrder.neighbours.2]
    exact sameNext

theorem removeNode_eq [DecidableEq Key] : map.removeNode node = .ok
      { forget map node with
        nodes := unlinked map.nodes node
        head := if map.head = some node then right.head? else map.head
        tail := if map.tail = some node then left.getLast? else map.tail } := by
  obtain ⟨isPrev, isNext⟩ := inOrder.links
  obtain ⟨samePrev, sameNext⟩ := inOrder.links_linkPrev
  obtain ⟨isPrev', isNext'⟩ := inOrder.links_unlinked
  have isUnlinked : unlinked map.nodes node = linkNext (linkPrev map.nodes right.head? left.getLast?) left.getLast? right.head? := by
    rw [unlinked, isPrev, isNext]
  rw [isUnlinked] at isPrev' isNext' ⊢
  rw [prevOf] at isPrev
  rw [nextOf] at isNext
  rw [LinkedMap.removeNode]
  simp only [setPrev_or, setNext_or, isPrev, isNext, samePrev, sameNext, bind, Except.bind]
  by_cases isHead : map.head = some node <;> by_cases isTail : map.tail = some node <;>
    simp [forget, isHead, isTail, isPrev', isNext', pure, Except.pure]

omit inOrder

theorem Represents.removeNode [DecidableEq Key] (represents : Represents map (left ++ node :: right)) :
    ∃ map', map.removeNode node = .ok map' ∧ Represents map' (left ++ right) ∧ entryOf map'.nodes = entryOf map.nodes := by
  obtain ⟨inOrder, counted⟩ := represents
  have sameEntries : entryOf (unlinked map.nodes node) = entryOf map.nodes := by rw [unlinked, entryOf_linkNext, entryOf_linkPrev]
  refine ⟨_, removeNode_eq inOrder, ⟨⟨inOrder.linked_unlinked, ?_, ?_, inOrder.fewer.1⟩, ?_⟩, sameEntries⟩
  · simp only [inOrder.head, head?_eq_some_iff_of_nodup inOrder.distinct]
    cases left <;> simp
  · simp only [inOrder.tail, getLast?_eq_some_iff_of_nodup inOrder.distinct]
    cases right <;> simp
  · have removed := (counted.congr perm_middle.symm rfl rfl rfl rfl).forget inOrder.fewer.2
    exact removed.congr (.refl _) rfl rfl rfl sameEntries

/-- The last node is removed as every other one. -/
theorem removeTailNode_eq [DecidableEq Key] (inOrder : InOrder map (left ++ [node])) : map.removeTailNode = map.removeNode node := by
  obtain ⟨isPrev, isNext⟩ := inOrder.links
  have isTail : map.tail = some node := by rw [inOrder.tail, getLast?_concat]
  have isHead := inOrder.head
  rw [removeNode_eq inOrder, LinkedMap.removeTailNode, isTail, unlinked, isPrev, isNext]
  rw [prevOf] at isPrev
  rcases eq_nil_or_concat left with rfl | ⟨_, _, rfl⟩
  · simp [isHead, forget, linkPrev, linkNext, pure, Except.pure]
  · have notHead := (head?_eq_some_iff_of_nodup inOrder.distinct).not.mpr (by simp)
    rw [← isHead] at notHead
    simp [isPrev, notHead, forget, linkPrev, setNext_some]

theorem Represents.removeTailNode [DecidableEq Key] (represents : Represents map order) :
    ∃ map', map.removeTailNode = .ok map' ∧ Represents map' order.dropLast ∧ entryOf map'.nodes = entryOf map.nodes := by
  rcases eq_nil_or_concat order with rfl | ⟨left, node, rfl⟩
  · refine ⟨map, ?_, represents, rfl⟩
    rw [LinkedMap.removeTailNode, represents.inOrder.tail]
    rfl
  rw [concat_eq_append] at represents ⊢
  rw [dropLast_concat, removeTailNode_eq represents.inOrder, ← append_nil left]
  exact represents.removeNode

/-- The links of a node that is put before the head. -/
def pushed (nodes : Address → Node Key Value) (head : Option Address) (node : Address) : Address → Node Key Value :=
  linkPrev (linkPrev (linkNext nodes (some node) head) (some node) none) head (some node)

theorem linked_pushed {nodes : Address → Node Key Value} (linked : Linked (prevOf nodes) (nextOf nodes) none order none)
    (distinct : order.Nodup) (isNew : node ∉ order) :
    Linked (prevOf (pushed nodes order.head? node)) (nextOf (pushed nodes order.head? node)) none (node :: order) none := by
  simp only [pushed, prevOf_linkPrev, prevOf_linkNext, nextOf_linkPrev, nextOf_linkNext]
  exact linked.push distinct isNew

/-- The node is first. -/
theorem Represents.bringNodeToHead (represents : Represents map (left ++ node :: right)) :
    ∃ map', map.bringNodeToHead node = .ok map' ∧ Represents map' (node :: (left ++ right)) ∧ entryOf map'.nodes = entryOf map.nodes := by
  obtain ⟨inOrder, counted⟩ := represents
  by_cases isHead : left = []
  · subst isHead
    refine ⟨map, ?_, ⟨inOrder, counted⟩, rfl⟩
    rw [LinkedMap.bringNodeToHead, if_pos (by rw [inOrder.head]; rfl)]
    rfl
  · have notHead : map.head ≠ some node := by
      rw [inOrder.head]
      exact fun isFirst => isHead ((head?_eq_some_iff_of_nodup inOrder.distinct).mp isFirst)
    obtain ⟨last, isLast⟩ := Option.ne_none_iff_exists'.mp (fun isNone => isHead (getLast?_eq_none_iff.mp isNone))
    obtain ⟨first, isFirst⟩ := Option.ne_none_iff_exists'.mp (fun isNone => isHead (head?_eq_none_iff.mp isNone))
    have headIs : (left ++ right).head? = some first := by rw [head?_append_of_ne_nil _ isHead, isFirst]
    have mapHead : map.head = some first := by rw [inOrder.head, head?_append_of_ne_nil _ isHead, isFirst]
    obtain ⟨isPrev, isNext⟩ := inOrder.links
    -- whether the node is the last one or not, the links on both sides are set past it
    have isUnlinked : (if map.tail = some node then { map with tail := (map.nodes node).prev }.setNext (map.nodes node).prev none
        else do
          let map ← map.setPrev (map.nodes node).next (map.nodes node).prev
          map.setNext (map.nodes node).prev (map.nodes node).next) =
        .ok { map with nodes := unlinked map.nodes node, tail := (left ++ right).getLast? } := by
      obtain ⟨samePrev, sameNext⟩ := inOrder.links_linkPrev
      rw [unlinked, isPrev, isNext, isLast]
      rw [isLast] at samePrev sameNext isPrev
      rw [prevOf] at isPrev
      rw [nextOf] at isNext
      cases right with
      | nil =>
        rw [if_pos (by rw [inOrder.tail]; exact getLast?_concat), isPrev, setNext_some, append_nil, isLast]
        rfl
      | cons =>
        have notTail : map.tail ≠ some node := by
          rw [inOrder.tail]
          exact fun isTail => nomatch (getLast?_eq_some_iff_of_nodup inOrder.distinct).mp isTail
        rw [if_neg notTail, isPrev, isNext, head?_cons, setPrev_some]
        rw [head?_cons] at samePrev sameNext
        simp only [bind, Except.bind, samePrev, sameNext, setNext_some]
        rw [inOrder.tail, getLast?_append_cons, getLast?_append_cons, getLast?_cons_cons]
    obtain ⟨distinct, isNew⟩ := inOrder.fewer
    have sameEntries : entryOf (pushed (unlinked map.nodes node) (some first) node) = entryOf map.nodes := by
      rw [pushed, entryOf_linkPrev, entryOf_linkPrev, entryOf_linkNext, unlinked, entryOf_linkNext, entryOf_linkPrev]
    have isPushed := linked_pushed inOrder.linked_unlinked distinct isNew
    rw [headIs] at isPushed
    rw [LinkedMap.bringNodeToHead, if_neg notHead, isUnlinked]
    refine ⟨{ map with nodes := pushed (unlinked map.nodes node) (some first) node, tail := (left ++ right).getLast?, head := some node },
      ?_, ⟨⟨isPushed, rfl, ?_, nodup_cons.mpr ⟨isNew, distinct⟩⟩, ?_⟩, sameEntries⟩
    · simp only [bind, Except.bind, setNext_some, setPrev_some, mapHead]
      rfl
    · have notNil : left ++ right ≠ [] := fun isNil => isHead (append_eq_nil_iff.mp isNil).1
      obtain ⟨other, _, isList⟩ := exists_cons_of_ne_nil notNil
      rw [isList, getLast?_cons_cons]
    · exact counted.congr perm_middle.symm rfl rfl rfl sameEntries

theorem Represents.insertNodeAtHead [DecidableEq Key] (represents : Represents map order) (isNew : node ∉ order) (nonNil : node ≠ 0)
    (isPrev : (map.nodes node).prev = none) (isNext : (map.nodes node).next = none) (newKey : map.dic (map.nodes node).key = none) :
    ∃ map', map.insertNodeAtHead node = .ok map' ∧ Represents map' (node :: order) ∧ entryOf map'.nodes = entryOf map.nodes := by
  obtain ⟨inOrder, counted⟩ := represents
  have added : Counted
      { map with
        dic := update map.dic (map.nodes node).key (some node)
        totalCost := map.totalCost + (map.nodes node).cost
        totalCount := map.totalCount + 1 } (node :: order) := by
    refine ⟨?_, fun key address => ?_, ?_, ?_⟩
    · rw [mem_cons, not_or]
      exact ⟨nonNil.symm, counted.nonNil⟩
    · simp only [update_apply]
      rw [mem_cons]
      split
      case isTrue isKey =>
        subst isKey
        rw [Option.some_inj]
        constructor
        · rintro rfl
          exact ⟨.inl rfl, rfl⟩
        · rintro ⟨rfl | isOld, sameKey⟩
          · rfl
          · exact nomatch newKey.symm.trans ((counted.dic _ address).mpr ⟨isOld, sameKey⟩)
      case isFalse otherKey =>
        rw [counted.dic]
        refine and_congr_left fun sameKey => (or_iff_right ?_).symm
        exact fun isNode => otherKey (isNode ▸ sameKey.symm)
    · simp only [counted.count, length_cons, BitVec.ofNat_add]
      rfl
    · simp only [counted.cost, map_cons, sum_cons]
      exact add_comm _ _
  rw [LinkedMap.insertNodeAtHead]
  cases isHead : map.head with
  | none =>
    have isEmpty : order = [] := head?_eq_none_iff.mp (inOrder.head.symm.trans isHead)
    subst isEmpty
    exact ⟨_, rfl, ⟨⟨⟨isPrev, isNext, trivial⟩, rfl, rfl, nodup_singleton node⟩, added.congr (.refl _) rfl rfl rfl rfl⟩, rfl⟩
  | some first =>
    have sameEntries : entryOf (linkPrev (linkNext map.nodes (some node) (some first)) (some first) (some node)) = entryOf map.nodes := by
      rw [entryOf_linkPrev, entryOf_linkNext]
    have samePrev : update (prevOf map.nodes) node none = prevOf map.nodes := by
      rw [Function.update_eq_self_iff]
      exact isPrev.symm
    have isPushed := inOrder.linked.push inOrder.distinct isNew
    rw [samePrev, ← inOrder.head, isHead] at isPushed
    refine ⟨_, rfl, ⟨⟨?_, rfl, ?_, nodup_cons.mpr ⟨isNew, inOrder.distinct⟩⟩, added.congr (.refl _) rfl rfl rfl sameEntries⟩, sameEntries⟩
    · change Linked (prevOf (linkPrev (linkNext map.nodes (some node) (some first)) (some first) (some node)))
        (nextOf (linkPrev (linkNext map.nodes (some node) (some first)) (some first) (some node))) none (node :: order) none
      rw [prevOf_linkPrev, prevOf_linkNext, nextOf_linkPrev, nextOf_linkNext]
      exact isPushed
    · cases order with
      | nil => exact nomatch isHead.symm.trans inOrder.head
      | cons => exact inOrder.tail

theorem represents_removeAll : Represents map.removeAll [] := by
  refine ⟨⟨trivial, rfl, rfl, .nil⟩, not_mem_nil, fun key address => ?_, rfl, rfl⟩
  exact iff_of_false nofun fun mem => nomatch mem.1

end Maps

end DarwinNotes.YYCache.MemoryCache
