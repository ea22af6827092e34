import Mathlib

/-!
# The memory cache of YYCache (`YYMemoryCache.m`)

The nodes of the cache are in a dictionary and in a doubly linked list, the most recently used one first. An operation holds
the lock; a trim only holds it for each node that it removes. `setObject:forKey:withCost:` puts a trim to the cost limit on a
queue if the total cost is too large, and removes the last node itself if there are too many.
-/

namespace DarwinNotes.YYCache.MemoryCache

/-- Where an object is; that of `nil` is 0. -/
abbrev Address : Type := Fin (2 ^ 64)

instance addressNeZero : NeZero (2 ^ 64) := ⟨by decide⟩

inductive Fault
  /-- A field of `nil` is read or written. -/
  | nilAccess
  /-- The loop is not over. -/
  | fuel
deriving DecidableEq, Repr

/-- `_YYLinkedMapNode`, without the time. -/
structure Node (Key Value : Type) where
  prev : Option Address
  next : Option Address
  key : Key
  value : Value
  cost : BitVec 64

/-- `_YYLinkedMap`, with the memory of the nodes. -/
structure LinkedMap (Key Value : Type) where
  dic : Key → Option Address
  totalCost : BitVec 64
  totalCount : BitVec 64
  head : Option Address
  tail : Option Address
  nodes : Address → Node Key Value

/-- `YYMemoryCache`, with the number of trims on the queue. -/
structure Cache (Key Value : Type) where
  lru : LinkedMap Key Value
  countLimit : BitVec 64
  costLimit : BitVec 64
  queued : Nat

section Model

variable {Key Value : Type} [DecidableEq Key]

/-! ## The linked map -/

namespace LinkedMap

variable (map : LinkedMap Key Value) (pointer target : Option Address)

/-- `pointer->_prev = target` -/
def setPrev : Except Fault (LinkedMap Key Value) :=
  match pointer with
  | none => .error .nilAccess
  | some address => .ok { map with nodes := Function.update map.nodes address { map.nodes address with prev := target } }

/-- `pointer->_next = target` -/
def setNext : Except Fault (LinkedMap Key Value) :=
  match pointer with
  | none => .error .nilAccess
  | some address => .ok { map with nodes := Function.update map.nodes address { map.nodes address with next := target } }

variable (node : Address)

/-- `insertNodeAtHead:` -/
def insertNodeAtHead : Except Fault (LinkedMap Key Value) := do
  let map :=
    { map with
      dic := Function.update map.dic (map.nodes node).key (some node)
      totalCost := map.totalCost + (map.nodes node).cost
      totalCount := map.totalCount + 1 }
  if map.head ≠ none then do
    let map ← map.setNext (some node) map.head
    let map ← map.setPrev map.head (some node)
    return { map with head := some node }
  else return { map with head := some node, tail := some node }

/-- `bringNodeToHead:` -/
def bringNodeToHead : Except Fault (LinkedMap Key Value) := do
  if map.head = some node then return map
  else
    let map ← (if map.tail = some node then do
        let map := { map with tail := (map.nodes node).prev }
        map.setNext map.tail none
      else do
        let map ← map.setPrev (map.nodes node).next (map.nodes node).prev
        map.setNext (map.nodes node).prev (map.nodes node).next)
    let map ← map.setNext (some node) map.head
    let map ← map.setPrev (some node) none
    let map ← map.setPrev map.head (some node)
    return { map with head := some node }

/-- `removeNode:` -/
def removeNode : Except Fault (LinkedMap Key Value) := do
  let map :=
    { map with
      dic := Function.update map.dic (map.nodes node).key none
      totalCost := map.totalCost - (map.nodes node).cost
      totalCount := map.totalCount - 1 }
  let map ← (if (map.nodes node).next ≠ none then map.setPrev (map.nodes node).next (map.nodes node).prev else .ok map)
  let map ← (if (map.nodes node).prev ≠ none then map.setNext (map.nodes node).prev (map.nodes node).next else .ok map)
  let map := if map.head = some node then { map with head := (map.nodes node).next } else map
  return if map.tail = some node then { map with tail := (map.nodes node).prev } else map

/-- `removeTailNode` -/
def removeTailNode : Except Fault (LinkedMap Key Value) := do
  match map.tail with
  | none => return map
  | some tail =>
    let map :=
      { map with
        dic := Function.update map.dic (map.nodes tail).key none
        totalCost := map.totalCost - (map.nodes tail).cost
        totalCount := map.totalCount - 1 }
    if map.head = map.tail then return { map with head := none, tail := none }
    else
      let map := { map with tail := (map.nodes tail).prev }
      map.setNext map.tail none

/-- `removeAll` -/
def removeAll : LinkedMap Key Value :=
  { map with totalCost := 0, totalCount := 0, head := none, tail := none, dic := fun _ => none }

/-- The loop of a trim, until the total is at most the limit. -/
def trimLoop (total : LinkedMap Key Value → BitVec 64) (limit : BitVec 64) : Nat → LinkedMap Key Value → Except Fault (LinkedMap Key Value)
  | 0, _ => .error .fuel
  | fuel + 1, map =>
    if limit < total map then do
      let map ← map.removeTailNode
      trimLoop total limit fuel map
    else .ok map

/-- `_trimToCost:` and `_trimToCount:` -/
def trim (total : LinkedMap Key Value → BitVec 64) (limit : BitVec 64) (map : LinkedMap Key Value) : Except Fault (LinkedMap Key Value) :=
  if limit = 0 then .ok map.removeAll
  else if total map ≤ limit then .ok map
  else trimLoop total limit (map.totalCount.toNat + 1) map

end LinkedMap

/-! ## The cache -/

/-- What a caller gets. -/
inductive Answer (Value : Type)
  | done
  | object (object : Option Value)
  | contains (contains : Bool)
deriving DecidableEq

namespace Cache

variable (cache : Cache Key Value)

/-- `init` -/
def init (nodes : Address → Node Key Value) : Cache Key Value where
  lru :=
    { dic := fun _ => none
      totalCost := 0
      totalCount := 0
      head := none
      tail := none
      nodes := nodes }
  countLimit := BitVec.allOnes 64
  costLimit := BitVec.allOnes 64
  queued := 0

variable (key : Option Key)

/-- `containsObjectForKey:` -/
def containsObjectForKey : Bool :=
  match key with
  | none => false
  | some key => (cache.lru.dic key).isSome

/-- `objectForKey:` -/
def objectForKey : Except Fault (Cache Key Value × Option Value) := do
  match key with
  | none => return (cache, none)
  | some key =>
    match cache.lru.dic key with
    | none => return (cache, none)
    | some node =>
      let lru ← cache.lru.bringNodeToHead node
      return ({ cache with lru := lru }, some (lru.nodes node).value)

/-- `removeObjectForKey:` -/
def removeObjectForKey : Except Fault (Cache Key Value) := do
  match key with
  | none => return cache
  | some key =>
    match cache.lru.dic key with
    | none => return cache
    | some node =>
      let lru ← cache.lru.removeNode node
      return { cache with lru := lru }

/-- The node for the key is changed or made, at an address that the allocator gives, and brought to the head. -/
def storeNode (object : Value) (key : Key) (cost : BitVec 64) (address : Address) : Except Fault (LinkedMap Key Value) :=
  let lru := cache.lru
  match lru.dic key with
  | some node =>
    let lru :=
      { lru with
        totalCost := lru.totalCost - (lru.nodes node).cost + cost
        nodes := Function.update lru.nodes node { lru.nodes node with cost := cost, value := object } }
    lru.bringNodeToHead node
  | none =>
    let node : Node Key Value := { prev := none, next := none, key := key, value := object, cost := cost }
    { lru with nodes := Function.update lru.nodes address node }.insertNodeAtHead address

/-- `setObject:forKey:withCost:` -/
def setObject (object : Option Value) (key : Option Key) (cost : BitVec 64) (address : Address) : Except Fault (Cache Key Value) := do
  match key with
  | none => return cache
  | some key =>
    match object with
    | none => cache.removeObjectForKey (some key)
    | some object =>
      let lru ← cache.storeNode object key cost address
      let queued := if cache.costLimit < lru.totalCost then cache.queued + 1 else cache.queued
      let lru ← (if cache.countLimit < lru.totalCount then lru.removeTailNode else .ok lru)
      return { cache with lru := lru, queued := queued }

/-- `removeAllObjects` -/
def removeAllObjects : Cache Key Value := { cache with lru := cache.lru.removeAll }

/-- `trimToCount:` -/
def trimToCount (count : BitVec 64) : Except Fault (Cache Key Value) := do
  if count = 0 then return cache.removeAllObjects
  else
    let lru ← cache.lru.trim (·.totalCount) count
    return { cache with lru := lru }

/-- `trimToCost:` -/
def trimToCost (cost : BitVec 64) : Except Fault (Cache Key Value) := do
  let lru ← cache.lru.trim (·.totalCost) cost
  return { cache with lru := lru }

end Cache

/-- What a thread does while it holds the lock. A trim may also be made node by node, with other operations in between. -/
inductive Op (Key Value : Type)
  | setObject (object : Option Value) (key : Option Key) (cost : BitVec 64) (address : Address)
  | objectForKey (key : Option Key)
  | containsObjectForKey (key : Option Key)
  | removeObjectForKey (key : Option Key)
  | removeAllObjects
  | trimToCount (count : BitVec 64)
  | trimToCost (cost : BitVec 64)
  | trimNodeToCount (count : BitVec 64)
  | trimNodeToCost (cost : BitVec 64)
  | setCountLimit (countLimit : BitVec 64)
  | setCostLimit (costLimit : BitVec 64)
  | runQueued

def perform (cache : Cache Key Value) : Op Key Value → Except Fault (Cache Key Value × Answer Value)
  | .setObject object key cost address => do
    let cache ← cache.setObject object key cost address
    return (cache, .done)
  | .objectForKey key => do
    let (cache, object) ← cache.objectForKey key
    return (cache, .object object)
  | .containsObjectForKey key => .ok (cache, .contains (cache.containsObjectForKey key))
  | .removeObjectForKey key => do
    let cache ← cache.removeObjectForKey key
    return (cache, .done)
  | .removeAllObjects => .ok (cache.removeAllObjects, .done)
  | .trimToCount count => do
    let cache ← cache.trimToCount count
    return (cache, .done)
  | .trimToCost cost => do
    let cache ← cache.trimToCost cost
    return (cache, .done)
  | .trimNodeToCount count => do
    let lru ← (if count < cache.lru.totalCount then cache.lru.removeTailNode else .ok cache.lru)
    return ({ cache with lru := lru }, .done)
  | .trimNodeToCost cost => do
    let lru ← (if cost < cache.lru.totalCost then cache.lru.removeTailNode else .ok cache.lru)
    return ({ cache with lru := lru }, .done)
  | .setCountLimit countLimit => .ok ({ cache with countLimit := countLimit }, .done)
  | .setCostLimit costLimit => .ok ({ cache with costLimit := costLimit }, .done)
  | .runQueued =>
    if cache.queued = 0 then .ok (cache, .done)
    else do
      let cache ← cache.trimToCost cache.costLimit
      return ({ cache with queued := cache.queued - 1 }, .done)

end Model

end DarwinNotes.YYCache.MemoryCache
