import DarwinNotes.Objc.Sync.Model

/-!
# What a thread of `@synchronized` knows

A thread uses a block while it is in one of its caches, while it is between the spin
lock and the cache, and until it has decremented the thread count. A block in use keeps
its object. A `lockCount` covers the synchronized sections the thread is in and the one
it is entering or leaving; so does the count of the mutex.
-/

namespace DarwinNotes.Objc.Sync
open List

variable {Thread Object : Type} [DecidableEq Thread]

/-! ## Uses of a block -/

variable (here : Local Object)

/-- The items of both caches. -/
def Local.items : List (Nat × Nat) := here.fast.toList ++ here.cache

def Local.cached : List Nat := here.items.map Prod.fst

/-- The block that is in use and in no cache. -/
def Pc.uses : Pc Object → List Nat
  | .save _ _ _ (some result) => [result]
  | .decrement result => [result]
  | _ => []

def Local.uses : List Nat := here.cached ++ here.pc.uses

/-- The `lockCount` of a block. -/
def lockCountIn (items : List (Nat × Nat)) (n : Nat) : Nat := (items.map fun item => if item.1 = n then item.2 else 0).sum

/-- How often the thread is inside on a block. -/
def Local.depth (n : Nat) : Nat := (here.inside.map Prod.snd).count n

/-- The call under way is one more reason for the `lockCount` of the block. -/
def Local.pending (n : Nat) : Nat :=
  match here.pc with
  | .lock _ data => if data = n then 1 else 0
  | .tryLock _ data => if data = n then 1 else 0
  | .fast .exit _ => if here.leaving = some n then 1 else 0
  | .scan .exit _ _ _ => if here.leaving = some n then 1 else 0
  | _ => 0

/-- How often the thread has locked a mutex. -/
def timesLocked (thread : Thread) : Option (Thread × Nat) → Nat
  | none => 0
  | some (owner, times) => if owner = thread then times else 0

variable (g : Shared Thread Object)

def owned (thread : Thread) (n : Nat) : Nat := timesLocked thread (g.blocks n).mutex

/-! ## The invariant of a thread -/

/-- What is looked for can be found, or counted. -/
def Search (here : Local Object) (object : Object) : Caller → Prop
  | .exit => ∃ n, here.leaving = some n ∧ n ∈ here.cached ∧ (g.blocks n).object = object
  | _ => here.leaving = none ∧ Room g here object

def PcOk (here : Local Object) : Pc Object → Prop
  | .idle => here.leaving = none
  | .fast caller object => Search g here object caller
  | .scan caller object i occupied => Search g here object caller ∧ occupied = here.fast.isSome ∧
      (∀ item, here.fast = some item → (g.blocks item.1).object ≠ object) ∧
      ∀ j < i, ∀ item, here.cache[j]? = some item → (g.blocks item.1).object ≠ object
  | .list caller object occupied => caller ≠ .exit ∧ here.leaving = none ∧ occupied = here.fast.isSome ∧
      ∀ n ∈ here.cached, (g.blocks n).object ≠ object
  | .save caller object occupied result => caller ≠ .exit ∧ here.leaving = none ∧ occupied = here.fast.isSome ∧
      ∃ n, result = some n ∧ (g.blocks n).object = object
  | .decrement result => here.leaving = some result
  | .lock object data => here.leaving = none ∧ data ∈ here.cached ∧ (g.blocks data).object = object
  | .tryLock object data => here.leaving = none ∧ data ∈ here.cached ∧ (g.blocks data).object = object
  | .tryUnlock data => here.leaving = some data
  | .fatal _ => False

structure ThreadOk (directKeys : Bool) (stripe : Object → Nat) (g : Shared Thread Object) (thread : Thread)
    (here : Local Object) : Prop where
  nodup : here.uses.Nodup
  listed : ∀ n ∈ here.uses, n ∈ g.lists (stripe (g.blocks n).object)
  positive : ∀ item ∈ here.items, 1 ≤ item.2
  covered : ∀ n, here.depth n + here.pending n ≤ lockCountIn here.items n
  inside : ∀ entry ∈ here.inside, (g.blocks entry.2).object = entry.1
  mutex : ∀ n, here.depth n + (if here.leaving = some n then 1 else 0) ≤ owned g thread n
  direct : directKeys = false → here.fast = none
  pc : PcOk g here here.pc

/-- Each list has one block for an object of its stripe. -/
structure ListsOk (stripe : Object → Nat) (g : Shared Thread Object) : Prop where
  unlocked : ∀ n, g.allocated ≤ n → (g.blocks n).mutex = none
  bound : ∀ s, ∀ n ∈ g.lists s, n < g.allocated
  home : ∀ s, ∀ n ∈ g.lists s, stripe (g.blocks n).object = s
  unique : ∀ s, ∀ n ∈ g.lists s, ∀ m ∈ g.lists s, (g.blocks n).object = (g.blocks m).object → n = m

variable {directKeys : Bool} {stripe : Object → Nat} {g g' : Shared Thread Object} {thread : Thread} {here : Local Object}

theorem lockCountIn_cons {item : Nat × Nat} {items : List (Nat × Nat)} {n : Nat} :
    lockCountIn (item :: items) n = (if item.1 = n then item.2 else 0) + lockCountIn items n := sum_cons

theorem lockCountIn_perm {items items' : List (Nat × Nat)} (perm : items.Perm items') {n : Nat} :
    lockCountIn items n = lockCountIn items' n := (perm.map _).sum_eq

theorem mem_cached_of_item {item : Nat × Nat} (mem : item ∈ here.items) : item.1 ∈ here.cached := mem_map_of_mem mem

theorem mem_uses_of_cached {n : Nat} (mem : n ∈ here.cached) : n ∈ here.uses := mem_append_left _ mem

theorem mem_cached_of_lockCount {n : Nat} (counted : 0 < lockCountIn here.items n) : n ∈ here.cached := by
  by_contra missing
  refine counted.ne' (sum_eq_zero fun count mem => ?_)
  obtain ⟨item, isItem, rfl⟩ := mem_map.mp mem
  exact if_neg fun same : item.1 = n => missing (same ▸ mem_cached_of_item isItem)

variable (ok : ThreadOk directKeys stripe g thread here)
include ok

/-- The block of a synchronized section is in a cache. -/
theorem ThreadOk.cached {entry : Object × Nat} (mem : entry ∈ here.inside) : entry.2 ∈ here.cached := by
  have counted : 0 < here.depth entry.2 := count_pos_iff.mpr (mem_map_of_mem mem)
  exact mem_cached_of_lockCount ((Nat.add_pos_left counted _).trans_le (ok.covered _))

theorem ThreadOk.at {pc : Pc Object} (is : here.pc = pc) : PcOk g here pc := is ▸ ok.pc

/-- Two blocks in use by a thread have different objects. -/
theorem ThreadOk.uses_unique (lists : ListsOk stripe g) {n m : Nat} (useN : n ∈ here.uses) (useM : m ∈ here.uses)
    (same : (g.blocks n).object = (g.blocks m).object) : n = m := by
  have listedM := ok.listed m useM
  rw [← same] at listedM
  exact lists.unique _ n (ok.listed n useN) m listedM same

/-! ## What a step keeps -/

/-- A step keeps what is known of blocks in use. -/
structure Keeps (g g' : Shared Thread Object) (uses : List Nat) : Prop where
  object : ∀ n ∈ uses, (g'.blocks n).object = (g.blocks n).object
  lists : ∀ n ∈ uses, ∀ s, n ∈ g.lists s → n ∈ g'.lists s

omit ok [DecidableEq Thread] in
theorem Keeps.refl (uses : List Nat) : Keeps g g uses := ⟨fun _ _ => rfl, fun _ _ _ mem => mem⟩

omit ok [DecidableEq Thread] in
theorem search_keeps (keeps : Keeps g g' here.uses) {object : Object} {caller : Caller}
    (search : Search g here object caller) : Search g' here object caller := by
  have room : Room g here object → Room g' here object := by
    rintro ⟨fast, cache⟩
    refine ⟨fun data lockCount found same => fast data lockCount found ?_, fun item mem same => cache item mem ?_⟩
    · have mem : (data, lockCount) ∈ here.items := by simp [Local.items, found]
      rwa [keeps.object _ (mem_uses_of_cached (mem_cached_of_item mem))] at same
    · have mem : item ∈ here.items := mem_append_right _ mem
      rwa [keeps.object _ (mem_uses_of_cached (mem_cached_of_item mem))] at same
  cases caller with
  | exit =>
    obtain ⟨n, leaving, cached, same⟩ := search
    exact ⟨n, leaving, cached, (keeps.object n (mem_uses_of_cached cached)).trans same⟩
  | enter | tryEnter => exact ⟨search.1, room search.2⟩

omit ok [DecidableEq Thread] in
theorem pcOk_keeps (keeps : Keeps g g' here.uses) (ok : PcOk g here here.pc) : PcOk g' here here.pc := by
  have object : ∀ n ∈ here.cached, (g'.blocks n).object = (g.blocks n).object :=
    fun n cached => keeps.object n (mem_uses_of_cached cached)
  cases pc : here.pc with
  | idle | decrement | tryUnlock | fatal => rwa [pc] at ok
  | fast =>
    rw [pc] at ok
    exact search_keeps keeps ok
  | scan =>
    rw [pc] at ok
    obtain ⟨search, same, fast, cache⟩ := ok
    refine ⟨search_keeps keeps search, same, fun item found => ?_, fun j before item found => ?_⟩
    · rw [object _ (mem_cached_of_item (by simp [Local.items, found]))]
      exact fast item found
    · rw [object _ (mem_cached_of_item (mem_append_right _ (mem_of_getElem? found)))]
      exact cache j before item found
  | list =>
    rw [pc] at ok
    obtain ⟨acquires, leaving, same, others⟩ := ok
    refine ⟨acquires, leaving, same, fun n cached => ?_⟩
    rw [object n cached]
    exact others n cached
  | save =>
    rw [pc] at ok
    obtain ⟨acquires, leaving, same, n, rfl, is⟩ := ok
    have used : n ∈ here.uses := mem_append_right _ (by rw [pc]; exact mem_singleton_self n)
    exact ⟨acquires, leaving, same, n, rfl, (keeps.object n used).trans is⟩
  | lock _ data | tryLock _ data =>
    rw [pc] at ok
    exact ⟨ok.1, ok.2.1, (object data ok.2.1).trans ok.2.2⟩

/-- **What a thread knows survives such a step.** -/
theorem ThreadOk.keeps (keeps : Keeps g g' here.uses)
    (mutex : ∀ n, here.depth n + (if here.leaving = some n then 1 else 0) ≤ owned g' thread n) :
    ThreadOk directKeys stripe g' thread here where
  nodup := ok.nodup
  listed n used := by
    rw [keeps.object n used]
    exact keeps.lists n used _ (ok.listed n used)
  positive := ok.positive
  covered := ok.covered
  inside entry mem := (keeps.object _ (mem_uses_of_cached (ok.cached mem))).trans (ok.inside entry mem)
  mutex := mutex
  direct := ok.direct
  pc := pcOk_keeps keeps ok.pc

/-- A step of the thread that leaves its caches and uses no block beside them. -/
theorem ThreadOk.move (keeps : ∀ uses, Keeps g g' uses) (here' : Local Object) (fast : here'.fast = here.fast) (cache : here'.cache = here.cache)
    (unused : here.pc.uses = []) (unused' : here'.pc.uses = [])
    (covered : ∀ n, here'.depth n + here'.pending n ≤ here.depth n + here.pending n)
    (inside : ∀ entry ∈ here'.inside, (g.blocks entry.2).object = entry.1)
    (mutex : ∀ n, here'.depth n + (if here'.leaving = some n then 1 else 0) ≤ owned g' thread n) (pc : PcOk g here' here'.pc)
    : ThreadOk directKeys stripe g' thread here' ∧ here'.uses.Perm here.uses := by
  have items : here'.items = here.items := by rw [Local.items, fast, cache, Local.items]
  have uses : here'.uses = here.uses := by rw [Local.uses, Local.uses, Local.cached, items, Local.cached, unused, unused']
  have objects : ∀ n, (g'.blocks n).object = (g.blocks n).object := fun n => (keeps [n]).object n (mem_singleton_self n)
  refine ⟨⟨uses ▸ ok.nodup, fun n used => ?_, items ▸ ok.positive, fun n => items ▸ (covered n).trans (ok.covered n),
    fun entry mem => (objects _).trans (inside entry mem), mutex, fast ▸ ok.direct, pcOk_keeps (keeps _) pc⟩, .of_eq uses⟩
  rw [objects]
  exact (keeps here.uses).lists n (uses ▸ used) _ (ok.listed n (uses ▸ used))

end DarwinNotes.Objc.Sync
