import DarwinNotes.Lib.Threads

/-!
# `@synchronized` (`objc-sync.mm`)

`objc_sync_enter`, `objc_sync_try_enter` and `objc_sync_exit` find the `SyncData` of an
object with `id2data`: in the fast cache of the thread, in its other cache, or under a
spin lock in the list of the object's stripe. There a block that no thread uses is
taken over for another object. The count of the threads is decremented outside of the
spin lock.

A step is the check of one cached block, the section under the spin lock, an atomic
decrement, or an operation on the mutex. `nil` is never synchronized on.
-/

namespace DarwinNotes.Objc.Sync

variable {Thread Object : Type} [DecidableEq Thread] [DecidableEq Object]

/-- The value of an `int32_t`. -/
def int32 (x : Int) : Int := (x + 2 ^ 31) % 2 ^ 32 - 2 ^ 31

structure SyncData (Thread Object : Type) where
  object : Object
  threadCount : Int
  /-- the owner of the recursive mutex, and how often it has locked it -/
  mutex : Option (Thread × Nat)

/-- The blocks by number, and the lists of `sDataLists`. -/
structure Shared (Thread Object : Type) where
  allocated : Nat
  blocks : Nat → SyncData Thread Object
  lists : Nat → List Nat

/-- `enum usage` -/
inductive Usage
  | acquire
  | release
  | check
deriving DecidableEq, Repr

/-- The function that calls `id2data`. -/
inductive Caller
  | enter
  | tryEnter
  | exit
deriving DecidableEq, Repr

def Caller.why : Caller → Usage
  | .enter => .acquire
  | .tryEnter => .acquire
  | .exit => .release

inductive Pc (Object : Type)
  | idle
  /-- about to check the fast cache -/
  | fast (caller : Caller) (object : Object)
  /-- about to check `cache->list[i]` -/
  | scan (caller : Caller) (object : Object) (i : Nat) (fastCacheOccupied : Bool)
  /-- about to take the spin lock -/
  | list (caller : Caller) (object : Object) (fastCacheOccupied : Bool)
  /-- past the spin lock -/
  | save (caller : Caller) (object : Object) (fastCacheOccupied : Bool) (result : Option Nat)
  /-- about to decrement `threadCount` -/
  | decrement (result : Nat)
  /-- about to call `mutex.lock()` -/
  | lock (object : Object) (data : Nat)
  | tryLock (object : Object) (data : Nat)
  | tryUnlock (data : Nat)
  | fatal (message : String)
deriving DecidableEq, Repr

/-- The caches of a thread, each item with its `lockCount`; then, as history, the objects it
is synchronized on, with the block of each, and the block it is about to unlock. -/
structure Local (Object : Type) where
  fast : Option (Nat × Nat)
  cache : List (Nat × Nat)
  inside : List (Object × Nat)
  leaving : Option Nat
  pc : Pc Object
deriving DecidableEq, Repr

/-! ## Steps -/

/-- `lockCount` after a hit in a cache that has counts of so many bits. -/
def lockCountAfter (why : Usage) (bits lockCount : Nat) : Nat :=
  match why with
  | .acquire => (lockCount + 1) % 2 ^ bits
  | .release => lockCount - 1
  | .check => lockCount

/-- The item is removed from its cache. -/
def isRemoved (why : Usage) (lockCount : Nat) : Bool := why == .release && lockCount - 1 == 0

/-- Where the caller goes on when `id2data` has found the block in a cache. -/
def Caller.found (caller : Caller) (object : Object) (data : Nat) (removed : Bool) : Pc Object :=
  match caller with
  | .enter => .lock object data
  | .tryEnter => .tryLock object data
  | .exit => if removed then .decrement data else .tryUnlock data

/-- `cache->list[i] = cache->list[--cache->used]` -/
def removeAt (cache : List (Nat × Nat)) (i : Nat) : List (Nat × Nat) :=
  match cache.getLast? with
  | none => cache
  | some last => (cache.set i last).dropLast

namespace Shared

variable (g : Shared Thread Object)

def setBlock (n : Nat) (data : SyncData Thread Object) : Shared Thread Object :=
  { g with blocks := Function.update g.blocks n data }

/-- A new block at the head of a list. -/
def allocate (stripe : Nat) (data : SyncData Thread Object) : Shared Thread Object where
  allocated := g.allocated + 1
  blocks := Function.update g.blocks g.allocated data
  lists := Function.update g.lists stripe (g.allocated :: g.lists stripe)

end Shared

/-- The section of `id2data` under the spin lock: the block it comes to. -/
def listSection (stripe : Object → Nat) (why : Usage) (g : Shared Thread Object) (object : Object) : Shared Thread Object × Option Nat :=
  match (g.lists (stripe object)).find? fun p => (g.blocks p).object = object with
  | some p => (g.setBlock p { g.blocks p with threadCount := int32 ((g.blocks p).threadCount + 1) }, some p)
  | none =>
    -- no SyncData currently associated with object
    if why ≠ .acquire then (g, none)
    else
      match (g.lists (stripe object)).find? fun p => (g.blocks p).threadCount = 0 with
      | some p => (g.setBlock p { g.blocks p with object, threadCount := 1 }, some p)
      | none => (g.allocate (stripe object) { object, threadCount := 1, mutex := none }, some g.allocated)

/-- `mutex.lock()` or `mutex.tryLock()`, unless another thread has the mutex. -/
def lockMutex (thread : Thread) : Option (Thread × Nat) → Option (Option (Thread × Nat))
  | none => some (some (thread, 1))
  | some (owner, times) => if owner = thread then some (some (thread, times + 1)) else none

/-- `mutex.tryUnlock()`; nothing happens if another thread has the mutex. -/
def unlockMutex (thread : Thread) : Option (Thread × Nat) → Option (Thread × Nat)
  | none => none
  | some (owner, times) => if owner = thread then (if times ≤ 1 then none else some (thread, times - 1)) else some (owner, times)

/-- The next step of the code; `none` while it has to wait for the mutex. -/
def advance (directKeys : Bool) (stripe : Object → Nat) (thread : Thread) (g : Shared Thread Object)
    (here : Local Object) : Option (Shared Thread Object × Local Object) :=
  match here.pc with
  | .idle => none
  | .fast caller object =>
    match (if directKeys then here.fast else none) with
    | none => some (g, { here with pc := .scan caller object 0 false })
    | some (data, lockCount) =>
      if (g.blocks data).object ≠ object then some (g, { here with pc := .scan caller object 0 true })
      else if (g.blocks data).threadCount ≤ 0 ∨ lockCount = 0 then
        some (g, { here with pc := .fatal "id2data fastcache is buggy" })
      else
        let removed := isRemoved caller.why lockCount
        some (g, { here with
          fast := if removed then none else some (data, lockCountAfter caller.why 64 lockCount)
          pc := caller.found object data removed })
  | .scan caller object i fastCacheOccupied =>
    match here.cache[i]? with
    | none => some (g, { here with pc := .list caller object fastCacheOccupied })
    | some (data, lockCount) =>
      if (g.blocks data).object ≠ object then some (g, { here with pc := .scan caller object (i + 1) fastCacheOccupied })
      else if (g.blocks data).threadCount ≤ 0 ∨ lockCount = 0 then
        some (g, { here with pc := .fatal "id2data cache is buggy" })
      else
        let removed := isRemoved caller.why lockCount
        some (g, { here with
          cache := if removed then removeAt here.cache i
            else here.cache.set i (data, lockCountAfter caller.why 32 lockCount)
          pc := caller.found object data removed })
  | .list caller object fastCacheOccupied =>
    let (g, result) := listSection stripe caller.why g object
    some (g, { here with pc := .save caller object fastCacheOccupied result })
  | .save _ _ _ none => some (g, { here with pc := .idle })
  | .save caller object fastCacheOccupied (some result) =>
    if caller.why = .release then some (g, { here with pc := .idle })
    else if caller.why ≠ .acquire then some (g, { here with pc := .fatal "id2data is buggy" })
    else if (g.blocks result).object ≠ object then some (g, { here with pc := .fatal "id2data is buggy" })
    else if directKeys && !fastCacheOccupied then
      some (g, { here with fast := some (result, 1), pc := caller.found object result false })
    else some (g, { here with cache := here.cache ++ [(result, 1)], pc := caller.found object result false })
  | .decrement result =>
    some (g.setBlock result { g.blocks result with threadCount := int32 ((g.blocks result).threadCount - 1) },
      { here with pc := .tryUnlock result })
  | .lock object data =>
    (lockMutex thread (g.blocks data).mutex).map fun mutex =>
      (g.setBlock data { g.blocks data with mutex },
        { here with inside := (object, data) :: here.inside, pc := .idle })
  | .tryLock object data =>
    match lockMutex thread (g.blocks data).mutex with
    | none => some (g, { here with pc := .idle })
    | some mutex =>
      some (g.setBlock data { g.blocks data with mutex },
        { here with inside := (object, data) :: here.inside, pc := .idle })
  | .tryUnlock data =>
    some (g.setBlock data { g.blocks data with mutex := unlockMutex thread (g.blocks data).mutex },
      { here with leaving := none, pc := .idle })
  | .fatal _ => none

/-- The `lockCount` of the object can be incremented. -/
structure Room (g : Shared Thread Object) (here : Local Object) (object : Object) : Prop where
  fast : ∀ data lockCount, here.fast = some (data, lockCount) → (g.blocks data).object = object → lockCount + 1 < 2 ^ 64
  cache : ∀ item ∈ here.cache, (g.blocks item.1).object = object → item.2 + 1 < 2 ^ 32

/-- What a thread can do: the code, and calls; it exits only what it has entered. When the
runs are `limited`, a `lockCount` that would overflow is not incremented. -/
inductive ThreadStep (directKeys : Bool) (stripe : Object → Nat) (limited : Prop) :
    Lib.Threads.ThreadStep Thread (Shared Thread Object) (Local Object)
  | code {thread g here g' here'} : advance directKeys stripe thread g here = some (g', here') →
      ThreadStep directKeys stripe limited thread g here g' here'
  | enter {thread g here} (caller : Caller) (object : Object) : caller ≠ .exit → here.pc = .idle → (limited → Room g here object) →
      ThreadStep directKeys stripe limited thread g here g { here with pc := .fast caller object }
  | exit {thread g here object data} : here.pc = .idle → (object, data) ∈ here.inside → ThreadStep directKeys stripe limited thread g here g
        { here with inside := here.inside.erase (object, data), leaving := some data, pc := .fast .exit object }

/-- No thread has synchronized yet. -/
def Initial (config : Lib.Threads.Config Thread (Shared Thread Object) (Local Object)) : Prop :=
  (∀ stripe, config.shared.lists stripe = []) ∧ (∀ n, (config.shared.blocks n).mutex = none) ∧
    ∀ thread, config.threads thread = { fast := none, cache := [], inside := [], leaving := none, pc := .idle }

end DarwinNotes.Objc.Sync
