import DarwinNotes.YYCache.MemoryCache.Refinement

/-!
# Sequences of operations on the memory cache

Every sequence of operations, in whatever order the threads get the lock, is one of operations on the list of entries. The
links in both directions, the dictionary and the totals are always those of the list.
-/

namespace DarwinNotes.YYCache.MemoryCache
open Lib List

section Runs

variable {Key Value : Type} [DecidableEq Key] {cache : Cache Key Value} {order : List Address} (represents : Represents cache.lru order)
include represents

theorem Represents.objectForKey (key : Key) :
    ∃ cache' order' object, cache.objectForKey (some key) = .ok (cache', object) ∧ Represents cache'.lru order' ∧
      Step (lruOf cache order) (.objectForKey (some key)) (lruOf cache' order') (.object object) := by
  have isFound := represents.find? key
  simp only [Cache.objectForKey, Step, Option.bind_some, lruOf, isFound]
  cases isNode : cache.lru.dic key with
  | none => exact ⟨cache, order, none, rfl, represents, rfl, rfl⟩
  | some node =>
    obtain ⟨_, _, rfl, rfl⟩ := represents.exists_split isNode
    obtain ⟨map', isBrought, represents', sameEntries⟩ := represents.bringNodeToHead
    have sameValue : (map'.nodes node).value = (entryOf cache.lru.nodes node).value := congrArg Entry.value (congrFun sameEntries node)
    simp only [isBrought, bind, Except.bind, Option.map_some]
    refine ⟨_, _, _, rfl, represents', ?_, by rw [sameValue]⟩
    rw [represents.without_eq]
    simp [entriesOf, sameEntries]

theorem Represents.contains (key : Option Key) :
    cache.containsObjectForKey key = decide (∃ entry ∈ (lruOf cache order).entries, some entry.key = key) := by
  have mem : ∀ key, (∃ entry ∈ entriesOf cache.lru.nodes order, entry.key = key) ↔ ∃ address, cache.lru.dic key = some address := by
    intro key
    simp only [entriesOf, mem_map, exists_exists_and_eq_and, represents.counted.dic]
  cases key with
  | none => simp [Cache.containsObjectForKey]
  | some key =>
    rw [Cache.containsObjectForKey, Bool.eq_iff_iff, decide_eq_true_eq, Option.isSome_iff_exists, ← mem key]
    simp [lruOf]

omit represents in
/-- An operation that only tells its caller that it is done. -/
theorem performed {run : Except Fault (Cache Key Value)} {lru : Lru Key Value} {op : Op Key Value}
    (done : ∃ cache' order', run = .ok cache' ∧ Represents cache'.lru order' ∧ Step lru op (lruOf cache' order') .done) :
    ∃ cache' answer order', (do return (← run, Answer.done)) = .ok (cache', answer) ∧ Represents cache'.lru order' ∧
      Step lru op (lruOf cache' order') answer := by
  obtain ⟨cache', order', rfl, represents', step⟩ := done
  exact ⟨cache', .done, order', rfl, represents', step⟩

theorem Represents.perform {op : Op Key Value} (allocated : op.Allocated cache) :
    ∃ cache' answer order', MemoryCache.perform cache op = .ok (cache', answer) ∧ Represents cache'.lru order' ∧
      Step (lruOf cache order) op (lruOf cache' order') answer := by
  cases op with
  | setObject object key cost =>
    cases key with
    | none => exact ⟨cache, .done, order, rfl, represents, rfl, rfl⟩
    | some key =>
      cases object with
      | none => exact performed (represents.removeObject key)
      | some object => exact performed (represents.setObject object key cost allocated.1 allocated.2)
  | objectForKey key =>
    cases key with
    | none => exact ⟨cache, .object none, order, rfl, represents, rfl, rfl⟩
    | some key =>
      obtain ⟨cache', order', object, isObject, represents', isStep⟩ := represents.objectForKey key
      refine ⟨cache', .object object, order', ?_, represents', isStep⟩
      rw [MemoryCache.perform, isObject]
      rfl
  | containsObjectForKey =>
    refine ⟨cache, _, order, rfl, represents, rfl, ?_⟩
    rw [represents.contains]
  | removeObjectForKey key =>
    cases key with
    | none => exact ⟨cache, .done, order, rfl, represents, rfl, rfl⟩
    | some key => exact performed (represents.removeObject key)
  | removeAllObjects => exact ⟨_, .done, [], rfl, represents_removeAll, rfl, rfl⟩
  | trimToCount count => exact performed (represents.trimToCount count)
  | trimToCost cost => exact performed (represents.trimToCost cost)
  | trimNodeToCount count =>
    obtain ⟨map', order', isTrimmed, represents', isLru⟩ := represents.trimNode (represents.count_lt_iff count)
    refine ⟨{ cache with lru := map' }, .done, order', ?_, represents', rfl, isLru⟩
    rw [MemoryCache.perform, isTrimmed]
    rfl
  | trimNodeToCost cost =>
    have same : cost < cache.lru.totalCost ↔ cost < totalCost (lruOf cache order).entries := by rw [represents.totalCost_eq, lruOf]
    obtain ⟨map', order', isTrimmed, represents', isLru⟩ := represents.trimNode same
    refine ⟨{ cache with lru := map' }, .done, order', ?_, represents', rfl, isLru⟩
    rw [MemoryCache.perform, isTrimmed]
    rfl
  | setCountLimit | setCostLimit => exact ⟨_, .done, order, rfl, represents, rfl, rfl⟩
  | runQueued =>
    have sameQueued : (lruOf cache order).queued = cache.queued := rfl
    simp only [MemoryCache.perform, Step, sameQueued]
    split
    case isTrue => exact ⟨cache, .done, order, rfl, represents, rfl, rfl⟩
    case isFalse =>
      obtain ⟨cache', order', isTrimmed, represents', -, entries, isLru, trimmed⟩ := represents.trimToCost cache.costLimit
      rw [isTrimmed]
      refine ⟨_, .done, order', rfl, represents', rfl, entries, ?_, trimmed⟩
      exact congrArg (fun lru => { lru with queued := lru.queued - 1 }) isLru

/-! ## Runs -/

def performAll (cache : Cache Key Value) : List (Op Key Value) → Except Fault (Cache Key Value × List (Answer Value))
  | [] => .ok (cache, [])
  | op :: ops => do
    let (cache, answer) ← perform cache op
    let (cache, answers) ← performAll cache ops
    return (cache, answer :: answers)

/-- Operations on the list, one after the other. -/
inductive Steps : Lru Key Value → List (Op Key Value) → Lru Key Value → List (Answer Value) → Prop
  | nil {lru : Lru Key Value} : Steps lru [] lru []
  | cons {lru lru₁ lru' : Lru Key Value} {op : Op Key Value} {ops : List (Op Key Value)} {answer : Answer Value}
    {answers : List (Answer Value)} : Step lru op lru₁ answer → Steps lru₁ ops lru' answers → Steps lru (op :: ops) lru' (answer :: answers)

/-- The allocator gives addresses that are free. -/
def AllAllocated (cache : Cache Key Value) : List (Op Key Value) → Prop
  | [] => True
  | op :: ops => op.Allocated cache ∧ ∀ cache' answer, perform cache op = .ok (cache', answer) → AllAllocated cache' ops

/-- No operation lowers the limit of the count. -/
def NotLowered (countLimit : BitVec 64) : List (Op Key Value) → Prop
  | [] => True
  | .setCountLimit limit :: ops => countLimit ≤ limit ∧ NotLowered limit ops
  | _ :: ops => NotLowered countLimit ops

/-- The cache is the list of entries. -/
structure IsLru (cache : Cache Key Value) (lru : Lru Key Value) (order : List Address) : Prop where
  forward : Chain (fun node => (cache.lru.nodes node).next) cache.lru.head order
  backward : Chain (fun node => (cache.lru.nodes node).prev) cache.lru.tail order.reverse
  distinct : order.Nodup
  dic : ∀ key node, cache.lru.dic key = some node ↔ node ∈ order ∧ (cache.lru.nodes node).key = key
  entries : order.map (fun node => (cache.lru.nodes node).entry) = lru.entries
  totalCount : cache.lru.totalCount.toNat = order.length
  totalCost : cache.lru.totalCost = (order.map fun node => (cache.lru.nodes node).cost).sum
  countLimit : cache.countLimit = lru.countLimit
  costLimit : cache.costLimit = lru.costLimit
  queued : cache.queued = lru.queued

omit [DecidableEq Key] in
theorem Represents.isLru : IsLru cache (lruOf cache order) order where
  forward := represents.inOrder.head ▸ represents.inOrder.linked.chain
  backward := represents.inOrder.tail ▸ represents.inOrder.linked.chain_reverse
  distinct := represents.inOrder.distinct
  dic := represents.counted.dic
  entries := rfl
  totalCount := represents.toNat_totalCount
  totalCost := represents.counted.cost
  countLimit := rfl
  costLimit := rfl
  queued := rfl

theorem Represents.performAll {ops : List (Op Key Value)} (allocated : AllAllocated cache ops) :
    ∃ cache' answers order', MemoryCache.performAll cache ops = .ok (cache', answers) ∧ Represents cache'.lru order' ∧
      Steps (lruOf cache order) ops (lruOf cache' order') answers := by
  induction ops generalizing cache order with
  | nil => exact ⟨cache, [], order, rfl, represents, .nil⟩
  | cons _ _ ih =>
    obtain ⟨_, answer, _, isFirst, represents₁, step⟩ := represents.perform allocated.1
    obtain ⟨cache', answers, order', isRest, represents', steps⟩ := ih represents₁ (allocated.2 _ _ isFirst)
    refine ⟨cache', answer :: answers, order', ?_, represents', .cons step steps⟩
    rw [MemoryCache.performAll, isFirst]
    simp only [bind, Except.bind, isRest]
    rfl

omit represents

/-! ## The limit of the count -/

section Limit

variable {lru lru' : Lru Key Value} {op : Op Key Value} {answer : Answer Value}

theorem length_without_le (key : Key) (entries : List (Entry Key Value)) : (without key entries).length ≤ entries.length :=
  length_filter_le _ _

theorem length_without_lt {entry : Entry Key Value} {entries : List (Entry Key Value)} (mem : entry ∈ entries) :
    (without entry.key entries).length < entries.length := by
  rw [without, length_filter_lt_length_iff_exists]
  exact ⟨entry, mem, by simp⟩

omit [DecidableEq Key] in
theorem TrimmedToCost.length_le {cost : BitVec 64} {before after : List (Entry Key Value)} (trimmed : TrimmedToCost cost before after) :
    after.length ≤ before.length := by
  rw [TrimmedToCost] at trimmed
  split at trimmed
  case isTrue =>
    rw [trimmed]
    exact Nat.zero_le _
  case isFalse => exact trimmed.isPrefix.length_le

/-- Only `setObject:forKey:withCost:` makes the list longer, and then not longer than the limit. -/
theorem Step.bounded (step : Step lru op lru' answer) (other : ∀ limit, op ≠ .setCountLimit limit)
    (bounded : lru.entries.length ≤ lru.countLimit.toNat) :
    lru'.countLimit = lru.countLimit ∧ lru'.entries.length ≤ lru.countLimit.toNat := by
  have unchanged : lru' = lru → lru'.countLimit = lru.countLimit ∧ lru'.entries.length ≤ lru.countLimit.toNat := by
    rintro rfl
    exact ⟨rfl, bounded⟩
  cases op with
  | setCountLimit countLimit => exact absurd rfl (other countLimit)
  | setObject object key =>
    cases key with
    | none => exact unchanged step.2
    | some key =>
      have fewer := length_without_le key lru.entries
      obtain ⟨-, step⟩ := step
      cases object with
      | none => exact step ▸ ⟨rfl, fewer.trans bounded⟩
      | some =>
        obtain rfl := step
        refine ⟨rfl, ?_⟩
        simp only [Lru.set]
        split
        case isTrue =>
          rw [length_dropLast, length_cons]
          exact fewer.trans bounded
        case isFalse notTooMany => exact Nat.not_lt.mp notTooMany
  | objectForKey key =>
    rw [Step] at step
    split at step
    case h_1 => exact unchanged step.1
    case h_2 _ isFound =>
      obtain ⟨rfl, -⟩ := step
      obtain ⟨key, rfl, isFound⟩ := Option.bind_eq_some_iff.mp isFound
      exact ⟨rfl, (length_without_lt (mem_of_find?_eq_some isFound)).trans_le bounded⟩
  | containsObjectForKey => exact unchanged step.1
  | removeObjectForKey key =>
    cases key with
    | none => exact unchanged step.2
    | some key => exact step.2 ▸ ⟨rfl, (length_without_le key lru.entries).trans bounded⟩
  | removeAllObjects => exact step.2 ▸ ⟨rfl, Nat.zero_le _⟩
  | trimToCount =>
    obtain ⟨-, entries, rfl, trimmed⟩ := step
    exact ⟨rfl, trimmed.isPrefix.length_le.trans bounded⟩
  | trimToCost =>
    obtain ⟨-, entries, rfl, trimmed⟩ := step
    exact ⟨rfl, trimmed.length_le.trans bounded⟩
  | trimNodeToCount | trimNodeToCost =>
    obtain ⟨-, rfl⟩ := step
    split
    · exact ⟨rfl, (dropLast_sublist lru.entries).length_le.trans bounded⟩
    · exact ⟨rfl, bounded⟩
  | setCostLimit => exact step.2 ▸ ⟨rfl, bounded⟩
  | runQueued =>
    obtain ⟨-, step⟩ := step
    split at step
    case isTrue => exact unchanged step
    case isFalse =>
      obtain ⟨entries, rfl, trimmed⟩ := step
      exact ⟨rfl, trimmed.length_le.trans bounded⟩

variable {ops : List (Op Key Value)}

omit [DecidableEq Key] in
theorem NotLowered.cons {countLimit : BitVec 64} (notLowered : NotLowered countLimit (op :: ops)) :
    (∃ limit, op = .setCountLimit limit ∧ countLimit ≤ limit ∧ NotLowered limit ops) ∨
      ((∀ limit, op ≠ .setCountLimit limit) ∧ NotLowered countLimit ops) := by
  cases op with
  | setCountLimit limit => exact .inl ⟨limit, rfl, notLowered⟩
  | _ => exact .inr ⟨nofun, notLowered⟩

theorem Steps.bounded {answers : List (Answer Value)} (steps : Steps lru ops lru' answers) (notLowered : NotLowered lru.countLimit ops)
    (bounded : lru.entries.length ≤ lru.countLimit.toNat) : lru'.entries.length ≤ lru'.countLimit.toNat := by
  induction steps with
  | nil => exact bounded
  | cons step _ ih =>
    rcases notLowered.cons with ⟨limit, rfl, isGreater, later⟩ | ⟨other, later⟩
    · obtain rfl := step.2
      exact ih later (bounded.trans isGreater)
    · obtain ⟨sameLimit, bounded⟩ := step.bounded other bounded
      rw [← sameLimit] at later bounded
      exact ih later bounded

end Limit

/-- After every sequence of operations the cache is the list of entries, with the same answers; and from then on the count stays below its
limit if it is, as long as the limit is not lowered. -/
theorem performAll_isLru (nodes : Address → Node Key Value) (ops : List (Op Key Value)) (allocated : AllAllocated (Cache.init nodes) ops) :
    ∃ cache answers lru order, performAll (Cache.init nodes) ops = .ok (cache, answers) ∧
      Steps { entries := [], countLimit := BitVec.allOnes 64, costLimit := BitVec.allOnes 64, queued := 0 } ops lru answers ∧
      IsLru cache lru order ∧ ∀ more, AllAllocated cache more → NotLowered cache.countLimit more → cache.lru.totalCount ≤ cache.countLimit →
        ∃ cache' answers', performAll cache more = .ok (cache', answers') ∧ cache'.lru.totalCount ≤ cache'.countLimit := by
  have isEmpty : (Cache.init nodes).lru.removeAll = (Cache.init nodes).lru := rfl
  have isInit := isEmpty ▸ represents_removeAll
  obtain ⟨cache, answers, order, isRun, represents, steps⟩ := isInit.performAll allocated
  refine ⟨cache, answers, _, order, isRun, steps, represents.isLru, fun more allocated' notLowered bounded => ?_⟩
  obtain ⟨cache', answers', _, isRun', represents', steps'⟩ := represents.performAll allocated'
  refine ⟨cache', answers', isRun', ?_⟩
  rw [BitVec.le_def, represents'.toNat_totalCount]
  rw [BitVec.le_def, represents.toNat_totalCount] at bounded
  have bounded' := steps'.bounded notLowered (by simpa [lruOf, entriesOf] using bounded)
  simpa [lruOf, entriesOf] using bounded'

end Runs

/-- What is in the memory of a node that is not allocated. -/
def blank : Node Nat Nat where
  prev := none
  next := none
  key := 0
  value := 0
  cost := 0

/-- Two entries are set, the first one is fetched, and one is trimmed. -/
def setTwo : List (Op Nat Nat) :=
  [.setObject (some 10) (some 1) 3 1, .setObject (some 20) (some 2) 4 2, .objectForKey (some 1), .trimToCost 3]

theorem setTwo_isLru : AllAllocated (Cache.init fun _ => blank) setTwo ∧
    ∃ cache answers lru order, performAll (Cache.init fun _ => blank) setTwo = .ok (cache, answers) ∧
      Steps { entries := [], countLimit := BitVec.allOnes 64, costLimit := BitVec.allOnes 64, queued := 0 } setTwo lru answers ∧
      IsLru cache lru order ∧ ∀ more, AllAllocated cache more → NotLowered cache.countLimit more → cache.lru.totalCount ≤ cache.countLimit →
        ∃ cache' answers', performAll cache more = .ok (cache', answers') ∧ cache'.lru.totalCount ≤ cache'.countLimit := by
  have allocated : AllAllocated (Cache.init fun _ => blank) setTwo := by
    refine ⟨⟨by decide, by rintro key ⟨⟩⟩, fun cache answer isFirst => ?_⟩
    cases isFirst
    refine ⟨⟨by decide, fun key => ?_⟩, fun _ _ _ => ⟨trivial, fun _ _ _ => ⟨trivial, fun _ _ _ => trivial⟩⟩⟩
    change Function.update (fun _ => none) 1 (some 1) key ≠ some (2 : Address)
    rw [Function.update_apply]
    split
    · decide
    · exact Option.some_ne_none 2 ∘ Eq.symm
  exact ⟨allocated, performAll_isLru _ _ allocated⟩

/-- An entry without a cost is trimmed to the cost 0. -/
theorem zeroCost_removed : ∃ cache cache' : Cache Nat Nat, ∃ answer answer',
    perform (Cache.init fun _ => blank) (.setObject (some 10) (some 1) 0 1) = .ok (cache, answer) ∧ cache.lru.totalCost ≤ 0 ∧
      cache.lru.totalCount = 1 ∧ perform cache (.trimToCost 0) = .ok (cache', answer') ∧ cache'.lru.totalCount = 0 :=
  ⟨_, _, _, _, rfl, by decide, by decide, rfl, rfl⟩

end DarwinNotes.YYCache.MemoryCache
