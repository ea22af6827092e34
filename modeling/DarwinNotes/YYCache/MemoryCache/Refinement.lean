import DarwinNotes.YYCache.MemoryCache.Lists

/-!
# The memory cache is a list of entries, the most recently used one first

An operation of the cache is one on the list. A trim removes the entries at the end until the limit is met, except that a cost limit
of 0 removes all of them.
-/

namespace DarwinNotes.YYCache.MemoryCache
open Function List

section Lists

variable {Key Value : Type} [DecidableEq Key]

/-- The entries, the most recently used one first, and the limits. -/
structure Lru (Key Value : Type) where
  entries : List (Entry Key Value)
  countLimit : BitVec 64
  costLimit : BitVec 64
  queued : Nat

def totalCost (entries : List (Entry Key Value)) : BitVec 64 := (entries.map (·.cost)).sum

def without (key : Key) (entries : List (Entry Key Value)) : List (Entry Key Value) := entries.filter fun entry => entry.key ≠ key

/-- The longest list from the start of `before` that meets a limit. -/
structure Trimmed (meets : List (Entry Key Value) → Prop) (before after : List (Entry Key Value)) : Prop where
  isPrefix : after <+: before
  isMet : meets after
  longest : ∀ longer, longer <+: before → after.length < longer.length → ¬ meets longer

/-- The entry is first, and the last one is removed if there are too many. -/
def Lru.set (lru : Lru Key Value) (key : Key) (value : Value) (cost : BitVec 64) : Lru Key Value :=
  let entries := { key := key, value := value, cost := cost } :: without key lru.entries
  { lru with
    entries := if lru.countLimit.toNat < entries.length then entries.dropLast else entries
    queued := if lru.costLimit < totalCost entries then lru.queued + 1 else lru.queued }

/-- What is left after a trim to a cost. -/
def TrimmedToCost (cost : BitVec 64) (before after : List (Entry Key Value)) : Prop :=
  if cost = 0 then after = [] else Trimmed (fun entries => totalCost entries ≤ cost) before after

/-- An operation on the list. -/
def Step (lru : Lru Key Value) : Op Key Value → Lru Key Value → Answer Value → Prop
  | .setObject object key cost _, lru', answer => answer = .done ∧
    match key, object with
    | none, _ => lru' = lru
    | some key, none => lru' = { lru with entries := without key lru.entries }
    | some key, some object => lru' = lru.set key object cost
  | .objectForKey key, lru', answer =>
    match key.bind fun key => lru.entries.find? fun entry => entry.key = key with
    | none => lru' = lru ∧ answer = .object none
    | some entry => lru' = { lru with entries := entry :: without entry.key lru.entries } ∧ answer = .object (some entry.value)
  | .containsObjectForKey key, lru', answer => lru' = lru ∧ answer = .contains (decide (∃ entry ∈ lru.entries, some entry.key = key))
  | .removeObjectForKey key, lru', answer => answer = .done ∧
    match key with
    | none => lru' = lru
    | some key => lru' = { lru with entries := without key lru.entries }
  | .removeAllObjects, lru', answer => answer = .done ∧ lru' = { lru with entries := [] }
  | .trimToCount count, lru', answer => answer = .done ∧ ∃ entries, lru' = { lru with entries := entries } ∧
    Trimmed (fun entries => entries.length ≤ count.toNat) lru.entries entries
  | .trimToCost cost, lru', answer => answer = .done ∧ ∃ entries, lru' = { lru with entries := entries } ∧
    TrimmedToCost cost lru.entries entries
  | .trimNodeToCount count, lru', answer => answer = .done ∧
    lru' = if count.toNat < lru.entries.length then { lru with entries := lru.entries.dropLast } else lru
  | .trimNodeToCost cost, lru', answer => answer = .done ∧
    lru' = if cost < totalCost lru.entries then { lru with entries := lru.entries.dropLast } else lru
  | .setCountLimit countLimit, lru', answer => answer = .done ∧ lru' = { lru with countLimit := countLimit }
  | .setCostLimit costLimit, lru', answer => answer = .done ∧ lru' = { lru with costLimit := costLimit }
  | .runQueued, lru', answer => answer = .done ∧
    if lru.queued = 0 then lru' = lru
    else ∃ entries, lru' = { lru with entries := entries, queued := lru.queued - 1 } ∧ TrimmedToCost lru.costLimit lru.entries entries

end Lists

section Refinement

variable {Key Value : Type} {map : LinkedMap Key Value} {order : List Address} (nodes : Address → Node Key Value)

def entriesOf (order : List Address) : List (Entry Key Value) := order.map (entryOf nodes)

theorem Represents.totalCost_eq (represents : Represents map order) : map.totalCost = totalCost (entriesOf map.nodes order) := by
  rw [represents.counted.cost, totalCost, entriesOf, map_map]
  rfl

/-! ## Trims -/

variable {meets : List (Entry Key Value) → Prop}

theorem Trimmed.dropLast {before after : List (Entry Key Value)} (notMet : ¬ meets before) (trimmed : Trimmed meets before.dropLast after)
    : Trimmed meets before after := by
  refine ⟨trimmed.isPrefix.trans ( dropLast_prefix before), trimmed.isMet, fun longer isPrefix isLonger => ?_⟩
  by_cases isWhole : longer.length = before.length
  · rw [List.IsPrefix.eq_of_length isPrefix isWhole]
    exact notMet
  · apply trimmed.longest longer _ isLonger
    have isLess := Nat.lt_of_le_of_ne isPrefix.length_le isWhole
    exact prefix_of_prefix_length_le isPrefix ( dropLast_prefix before) (by rw [length_dropLast]; omega)

theorem Trimmed.refl {before : List (Entry Key Value)} (isMet : meets before) :
    Trimmed meets before before := ⟨prefix_rfl, isMet, fun _ isPrefix isLonger => absurd isPrefix.length_le (Nat.not_le_of_gt isLonger)⟩

theorem entriesOf_dropLast (order : List Address) : entriesOf nodes order.dropLast = (entriesOf nodes order).dropLast := map_dropLast

/-- A total that the map keeps. -/
structure IsTotal (total : LinkedMap Key Value → BitVec 64) (totalOf : List (Entry Key Value) → BitVec 64) : Prop where
  nil : totalOf [] = 0
  isTotal : ∀ {map order}, Represents map order → total map = totalOf (entriesOf map.nodes order)

section Trim

variable [DecidableEq Key] {total : LinkedMap Key Value → BitVec 64} {totalOf : List (Entry Key Value) → BitVec 64}

/-- The loop ends, when the limit is met or no node is left. -/
theorem IsTotal.trimLoop (isTotal : IsTotal total totalOf) (limit : BitVec 64) {fuel : Nat} (enough : order.length < fuel)
    (represents : Represents map order) : ∃ map' order', map.trimLoop total limit fuel = .ok map' ∧ Represents map' order' ∧
      Trimmed (fun entries => totalOf entries ≤ limit) (entriesOf map.nodes order) (entriesOf map'.nodes order') := by
  induction fuel generalizing map order with
  | zero => exact absurd enough (Nat.not_lt_zero _)
  | succ fuel ih =>
    rw [LinkedMap.trimLoop]
    split
    case isFalse isMet =>
      refine ⟨map, order, rfl, represents, .refl ?_⟩
      rw [← isTotal.isTotal represents]
      exact BitVec.not_lt.mp isMet
    case isTrue notMet =>
      rw [isTotal.isTotal represents] at notMet
      have notEmpty : order ≠ [] := by
        rintro rfl
        rw [entriesOf, map_nil, isTotal.nil] at notMet
        exact absurd notMet (BitVec.not_lt_zero)
      have fewer : order.dropLast.length < fuel := by
        have positive := length_pos_iff.mpr notEmpty
        rw [length_dropLast]
        omega
      obtain ⟨_, isRemoved, represents₁, sameEntries⟩ := represents.removeTailNode
      obtain ⟨map', order', isLoop, represents', trimmed⟩ := ih fewer represents₁
      refine ⟨map', order', ?_, represents', .dropLast (BitVec.not_le.mpr notMet) ?_⟩
      · rw [isRemoved]
        exact isLoop
      · rw [entriesOf, sameEntries] at trimmed
        rwa [← entriesOf_dropLast]

theorem IsTotal.trim (isTotal : IsTotal total totalOf) (limit : BitVec 64) (represents : Represents map order) :
    ∃ map' order', map.trim total limit = .ok map' ∧ Represents map' order' ∧
      if limit = 0 then entriesOf map'.nodes order' = []
      else Trimmed (fun entries => totalOf entries ≤ limit) (entriesOf map.nodes order) (entriesOf map'.nodes order') := by
  rw [LinkedMap.trim]
  split
  case isTrue => exact ⟨_, _, rfl, represents_removeAll, rfl⟩
  case isFalse =>
  split
  case isTrue =>
    refine ⟨map, order, rfl, represents, .refl ?_⟩
    rwa [← isTotal.isTotal represents]
  case isFalse =>
    apply isTotal.trimLoop limit _ represents
    rw [represents.toNat_totalCount]
    exact Nat.lt_succ_self _

end Trim

theorem isTotal_totalCost : IsTotal (fun map : LinkedMap Key Value => map.totalCost) totalCost :=
  ⟨rfl, fun represents => represents.totalCost_eq⟩

theorem isTotal_totalCount : IsTotal (fun map : LinkedMap Key Value => map.totalCount) fun entries => BitVec.ofNat 64 entries.length := by
  refine ⟨rfl, fun represents => ?_⟩
  rw [represents.counted.count, entriesOf, length_map]

theorem Trimmed.congr {meets' : List (Entry Key Value) → Prop} {before after : List (Entry Key Value)}
    (same : ∀ entries, entries <+: before → (meets entries ↔ meets' entries)) (trimmed : Trimmed meets before after) :
    Trimmed meets' before after := by
  refine ⟨trimmed.isPrefix, (same after trimmed.isPrefix).mp trimmed.isMet, fun longer isPrefix isLonger isMet => ?_⟩
  exact trimmed.longest longer isPrefix isLonger ((same longer isPrefix).mpr isMet)

/-- A number of nodes is an `NSUInteger`. -/
theorem Represents.count_le_iff (represents : Represents map order) {entries : List (Entry Key Value)}
    (isPrefix : entries <+: entriesOf map.nodes order) (limit : BitVec 64) :
    BitVec.ofNat 64 entries.length ≤ limit ↔ entries.length ≤ limit.toNat := by
  have isLess := isPrefix.length_le.trans_lt ((length_map _).trans_lt represents.length_lt)
  rw [BitVec.le_def, BitVec.toNat_ofNat, Nat.mod_eq_of_lt isLess]

/-! ## Looking up a key -/

section Keys

variable {left right : List Address} {node : Address} {key : Key}

theorem Represents.exists_split (represents : Represents map order) (isNode : map.dic key = some node) :
    ∃ left right, order = left ++ node :: right ∧ (entryOf map.nodes node).key = key := by
  obtain ⟨mem, isKey⟩ := (represents.counted.dic key node).mp isNode
  obtain ⟨left, right, isOrder⟩ := append_of_mem mem
  exact ⟨left, right, isOrder, isKey⟩

theorem Represents.otherKey (represents : Represents map (left ++ node :: right)) {other : Address} (isOther : other ∈ left ++ right) :
    (entryOf map.nodes other).key ≠ (entryOf map.nodes node).key := by
  intro sameKey
  have mem := ((sublist_cons_self node right).append_left left).subset isOther
  have isNode := represents.counted.key_inj mem (mem_append_right _ mem_cons_self) sameKey
  exact represents.inOrder.fewer.2 (isNode ▸ isOther)

variable [DecidableEq Key]

theorem Represents.without_eq (represents : Represents map (left ++ node :: right)) :
    without (entryOf map.nodes node).key (entriesOf map.nodes (left ++ node :: right)) = entriesOf map.nodes (left ++ right) := by
  have kept : ∀ list, (∀ other ∈ list, other ∈ left ++ right) →
      without (entryOf map.nodes node).key (entriesOf map.nodes list) = entriesOf map.nodes list := by
    intro list isSubset
    rw [without, filter_eq_self, entriesOf, forall_mem_map]
    exact fun other isOther => decide_eq_true (represents.otherKey (isSubset other isOther))
  have keptLeft := kept left fun other => mem_append_left _
  have keptRight := kept right fun other => mem_append_right _
  simp only [without, entriesOf, map_append, map_cons, filter_append] at keptLeft keptRight ⊢
  rw [keptLeft, filter_cons_of_neg (by simp), keptRight]

theorem Represents.without_none (represents : Represents map order) (isNone : map.dic key = none) :
    without key (entriesOf map.nodes order) = entriesOf map.nodes order := by
  rw [without, filter_eq_self, entriesOf, forall_mem_map]
  intro address mem
  apply decide_eq_true
  intro isKey
  exact nomatch isNone.symm.trans ((represents.counted.dic key address).mpr ⟨mem, isKey⟩)

theorem Represents.find? (represents : Represents map order) (key : Key) :
    (entriesOf map.nodes order).find? (fun entry => entry.key = key) = (map.dic key).map (entryOf map.nodes) := by
  cases isNode : map.dic key with
  | none =>
    rw [Option.map_none, find?_eq_none, entriesOf, forall_mem_map]
    intro address mem isKey
    exact nomatch isNode.symm.trans ((represents.counted.dic key address).mpr ⟨mem, of_decide_eq_true isKey⟩)
  | some node =>
    obtain ⟨mem, isKey⟩ := (represents.counted.dic key node).mp isNode
    cases isFound : (entriesOf map.nodes order).find? (fun entry => entry.key = key) with
    | none => exact absurd (decide_eq_true isKey) (find?_eq_none.mp isFound _ (mem_map_of_mem mem))
    | some =>
      obtain ⟨address, isAddress, rfl⟩ := mem_map.mp (mem_of_find?_eq_some isFound)
      have sameKey := find?_some isFound
      rw [decide_eq_true_eq] at sameKey
      rw [represents.counted.key_inj isAddress mem (sameKey.trans isKey.symm)]
      rfl

end Keys

/-! ## The operations of the cache -/

variable (cache : Cache Key Value)

/-- What the cache stands for, with its nodes in this order. -/
def lruOf (order : List Address) : Lru Key Value where
  entries := entriesOf cache.lru.nodes order
  countLimit := cache.countLimit
  costLimit := cache.costLimit
  queued := cache.queued

/-- The allocator gives an address that no node of the cache has. -/
def Op.Allocated : Op Key Value → Prop
  | setObject _ _ _ address => address ≠ 0 ∧ ∀ key, cache.lru.dic key ≠ some address
  | _ => True

section Storing

variable {cache : Cache Key Value} {left right : List Address} {node : Address} (nodes : Address → Node Key Value)

theorem entriesOf_update (notMember : node ∉ order) (changed : Node Key Value) :
    entriesOf (update nodes node changed) order = entriesOf nodes order := by
  apply map_congr_left
  intro address mem
  rw [entryOf, entryOf, update_of_ne (ne_of_mem_of_not_mem mem notMember)]

theorem entryOf_update_self (node : Address) (changed : Node Key Value) :
    entryOf (update nodes node changed) node = changed.entry := by
  rw [entryOf, update_self]

/-- The value and the cost of a node are changed. -/
theorem Represents.change (represents : Represents map (left ++ node :: right)) (changed : Node Key Value)
    (isPrev : changed.prev = (map.nodes node).prev) (isNext : changed.next = (map.nodes node).next)
    (isKey : changed.key = (map.nodes node).key) : Represents
      { map with
        totalCost := map.totalCost - (map.nodes node).cost + changed.cost
        nodes := update map.nodes node changed } (left ++ node :: right) := by
  obtain ⟨inOrder, counted⟩ := represents
  have samePrev : prevOf (update map.nodes node changed) = prevOf map.nodes := update_eq_self map.nodes isPrev
  have sameNext : nextOf (update map.nodes node changed) = nextOf map.nodes := update_eq_self map.nodes isNext
  have sameKey := update_eq_self map.nodes isKey
  refine ⟨⟨?_, inOrder.head, inOrder.tail, inOrder.distinct⟩, counted.nonNil, fun key address => ?_, counted.count, ?_⟩
  · rw [samePrev, sameNext]
    exact inOrder.linked
  · rw [counted.dic, entryOf, entryOf, Node.entry, Node.entry, congrFun sameKey address]
  obtain ⟨-, isNew⟩ := inOrder.fewer
  have kept : ∀ list : List Address, node ∉ list → (list.map fun address => (entryOf (update map.nodes node changed) address).cost) =
      list.map fun address => (entryOf map.nodes address).cost := by
    intro list notMember
    have same := congrArg (List.map (·.cost)) (entriesOf_update map.nodes notMember changed)
    simpa [entriesOf] using same
  rw [mem_append, not_or] at isNew
  simp only [counted.cost, map_append, map_cons, sum_append, sum_cons, kept left isNew.1, kept right isNew.2]
  simp only [entryOf, Node.entry, update_self]
  abel

/-- A node that is not in the cache is changed. -/
theorem Represents.allocate (represents : Represents map order) {address : Address} (isNew : address ∉ order) (made : Node Key Value) :
    Represents { map with nodes := update map.nodes address made } order := by
  obtain ⟨inOrder, counted⟩ := represents
  have same : ∀ other ∈ order, update map.nodes address made other = map.nodes other :=
    fun other isOther => update_of_ne (ne_of_mem_of_not_mem isOther isNew) _ _
  refine ⟨⟨?_, inOrder.head, inOrder.tail, inOrder.distinct⟩, counted.nonNil, fun key other => ?_, counted.count, ?_⟩
  · apply inOrder.linked.congr
    intro other isOther
    simp [prevOf, nextOf, same other isOther]
  · rw [counted.dic]
    apply and_congr_right
    intro isOther
    simp [entryOf, same other isOther]
  · rw [counted.cost]
    congr 1
    apply map_congr_left
    intro other isOther
    simp [entryOf, same other isOther]

variable [DecidableEq Key]

theorem Represents.storeNode (represents : Represents cache.lru order) (object : Value) (key : Key) (cost : BitVec 64) {address : Address}
    (nonNil : address ≠ 0) (isFree : ∀ key, cache.lru.dic key ≠ some address) :
    ∃ map' order', cache.storeNode object key cost address = .ok map' ∧ Represents map' order' ∧
      entriesOf map'.nodes order' = { key := key, value := object, cost := cost } :: without key (entriesOf cache.lru.nodes order) := by
  rw [Cache.storeNode]
  cases isNode : cache.lru.dic key with
  | some node =>
    obtain ⟨left, right, rfl, rfl⟩ := represents.exists_split isNode
    obtain ⟨map', isBrought, represents', sameEntries⟩ :=
      (represents.change { cache.lru.nodes node with cost := cost, value := object } rfl rfl rfl).bringNodeToHead
    refine ⟨map', _, isBrought, represents', ?_⟩
    rw [entriesOf, map_cons, sameEntries]
    change _ :: entriesOf _ (left ++ right) = _
    rw [entriesOf_update _ represents.inOrder.fewer.2, represents.without_eq]
    exact congrArg (· :: _) (entryOf_update_self _ _ _)
  | none =>
    have isNew : address ∉ order := fun mem => isFree _ ((represents.counted.dic _ address).mpr ⟨mem, rfl⟩)
    let made : Node Key Value := { prev := none, next := none, key := key, value := object, cost := cost }
    have isMade : update cache.lru.nodes address made address = made := update_self _ _ _
    obtain ⟨map', isInserted, represents', sameEntries⟩ := (represents.allocate isNew made).insertNodeAtHead isNew nonNil
      (congrArg Node.prev isMade) (congrArg Node.next isMade) ((congrArg (fun made => cache.lru.dic (Node.key made)) isMade).trans isNode)
    refine ⟨map', _, isInserted, represents', ?_⟩
    rw [entriesOf, map_cons, sameEntries]
    change _ :: entriesOf _ order = _
    rw [entriesOf_update _ isNew, represents.without_none isNode]
    exact congrArg (· :: _) (entryOf_update_self _ _ _)

end Storing

section Performing

variable [DecidableEq Key] {cache : Cache Key Value}

section

variable (represents : Represents cache.lru order)
include represents

theorem Represents.removeObject (key : Key) :
    ∃ cache' order', cache.removeObjectForKey (some key) = .ok cache' ∧ Represents cache'.lru order' ∧
      Step (lruOf cache order) (.removeObjectForKey (some key)) (lruOf cache' order') .done := by
  simp only [Cache.removeObjectForKey]
  cases isNode : cache.lru.dic key with
  | none =>
    refine ⟨cache, order, rfl, represents, rfl, ?_⟩
    simp only [lruOf, represents.without_none isNode]
  | some =>
    obtain ⟨_, _, rfl, rfl⟩ := represents.exists_split isNode
    obtain ⟨_, isRemoved, represents', sameEntries⟩ := represents.removeNode
    simp only [isRemoved, bind, Except.bind]
    refine ⟨_, _, rfl, represents', rfl, ?_⟩
    simp only [lruOf, represents.without_eq]
    simp only [entriesOf, sameEntries]

omit [DecidableEq Key] in
theorem Represents.count_lt_iff (count : BitVec 64) :
    count < cache.lru.totalCount ↔ count.toNat < (lruOf cache order).entries.length := by
  rw [BitVec.lt_def, represents.toNat_totalCount, lruOf, entriesOf, length_map]

/-- One node is removed, unless the limit is met. -/
theorem Represents.trimNode {isAbove isAbove' : Prop} [Decidable isAbove] [Decidable isAbove'] (same : isAbove ↔ isAbove') :
    ∃ map' order', (if isAbove then cache.lru.removeTailNode else .ok cache.lru) = .ok map' ∧ Represents map' order' ∧
      lruOf { cache with lru := map' } order' =
        if isAbove' then { lruOf cache order with entries := (lruOf cache order).entries.dropLast } else lruOf cache order := by
  simp only [same]
  split
  case isFalse => exact ⟨_, _, rfl, represents, rfl⟩
  case isTrue =>
    obtain ⟨map', isRemoved, represents', sameEntries⟩ := represents.removeTailNode
    refine ⟨map', _, isRemoved, represents', ?_⟩
    simp [lruOf, entriesOf, sameEntries]

theorem Represents.setObject (object : Value) (key : Key) (cost : BitVec 64) {address : Address} (nonNil : address ≠ 0)
    (isFree : ∀ key, cache.lru.dic key ≠ some address) :
    ∃ cache' order', cache.setObject (some object) (some key) cost address = .ok cache' ∧ Represents cache'.lru order' ∧
      Step (lruOf cache order) (.setObject (some object) (some key) cost address) (lruOf cache' order') .done := by
  obtain ⟨map₁, order₁, isStored, represents₁, isEntries⟩ := represents.storeNode object key cost nonNil isFree
  let cache₁ : Cache Key Value :=
    { cache with lru := map₁, queued := if cache.costLimit < map₁.totalCost then cache.queued + 1 else cache.queued }
  have isStoredIn : Represents cache₁.lru order₁ := represents₁
  obtain ⟨map', order', isTrimmed, represents', isLru⟩ := isStoredIn.trimNode (isStoredIn.count_lt_iff cache.countLimit)
  refine ⟨{ cache₁ with lru := map' }, order', ?_, represents', rfl, isLru.trans ?_⟩
  · simp only [Cache.setObject, isStored, bind, Except.bind]
    rw [isTrimmed]
    rfl
  · simp [cache₁, lruOf, Lru.set, ← isEntries, represents₁.totalCost_eq]
    split <;> rfl

theorem Represents.trimToCost (cost : BitVec 64) : ∃ cache' order', cache.trimToCost cost = .ok cache' ∧ Represents cache'.lru order' ∧
      Step (lruOf cache order) (.trimToCost cost) (lruOf cache' order') .done := by
  obtain ⟨_, order', isTrimmed, represents', trimmed⟩ := isTotal_totalCost.trim cost represents
  simp only [Cache.trimToCost, isTrimmed, bind, Except.bind]
  exact ⟨_, _, rfl, represents', rfl, _, rfl, trimmed⟩

theorem Represents.trimToCount (count : BitVec 64) : ∃ cache' order', cache.trimToCount count = .ok cache' ∧ Represents cache'.lru order' ∧
      Step (lruOf cache order) (.trimToCount count) (lruOf cache' order') .done := by
  rw [Cache.trimToCount]
  split
  case isTrue isZero =>
    refine ⟨_, [], rfl, represents_removeAll, rfl, _, rfl, nil_prefix, Nat.zero_le _, fun longer _ isLonger isMet => ?_⟩
    rw [isZero] at isMet
    exact absurd isLonger (Nat.not_lt_of_le isMet)
  case isFalse notZero =>
    obtain ⟨_, order', isTrimmed, represents', trimmed⟩ := isTotal_totalCount.trim count represents
    rw [if_neg notZero] at trimmed
    simp only [isTrimmed, bind, Except.bind]
    exact ⟨_, _, rfl, represents', rfl, _, rfl, trimmed.congr fun entries isPrefix => represents.count_le_iff isPrefix count⟩

end

end Performing

end Refinement

end DarwinNotes.YYCache.MemoryCache
