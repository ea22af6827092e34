import DarwinNotes.Objc.Sync.Caches

/-!
# The steps of `@synchronized`

Each step of a thread keeps what the thread knows, and what every other thread knows of
the blocks it uses; the thread counts change as the uses of the thread do.
-/

namespace DarwinNotes.Objc.Sync
open List

variable {Thread Object : Type} {directKeys : Bool} {stripe : Object → Nat} {g g' : Shared Thread Object} {thread : Thread}
  {here here' : Local Object}

section Blocks

variable {n : Nat}

@[simp]
theorem setBlock_lists (g : Shared Thread Object) (n : Nat) (data : SyncData Thread Object) : (g.setBlock n data).lists = g.lists := rfl

@[simp]
theorem setBlock_self (g : Shared Thread Object) (n : Nat) (data : SyncData Thread Object) :
    (g.setBlock n data).blocks n = data := Function.update_self ..

theorem setBlock_of_ne (g : Shared Thread Object) {m : Nat} (other : m ≠ n) (data : SyncData Thread Object) :
    (g.setBlock n data).blocks m = g.blocks m := Function.update_of_ne other ..

variable {data : SyncData Thread Object}

/-- What the new block has in common with the old one. -/
theorem setBlock_same {α : Type} (of : SyncData Thread Object → α) (same : of data = of (g.blocks n)) (m : Nat) :
    of ((g.setBlock n data).blocks m) = of (g.blocks m) := by
  by_cases here : m = n
  · rw [here, setBlock_self, same]
  · rw [setBlock_of_ne g here]

theorem keeps_setBlock (same : data.object = (g.blocks n).object) (uses : List Nat) :
    Keeps g (g.setBlock n data) uses := ⟨fun m _ => setBlock_same _ same m, fun _ _ _ mem => mem⟩

theorem listsOk_setBlock (lists : ListsOk stripe g) (inRange : n < g.allocated) (same : data.object = (g.blocks n).object)
    : ListsOk stripe (g.setBlock n data) := by
  have objects := setBlock_same SyncData.object same
  refine ⟨fun m beyond => ?_, lists.bound, fun s m mem => ?_, fun s m memM k memK equal => ?_⟩
  · rw [setBlock_of_ne g (inRange.trans_le beyond).ne']
    exact lists.unlocked m beyond
  · rw [objects]
    exact lists.home s m mem
  · rw [objects, objects] at equal
    exact lists.unique s m memM k memK equal

end Blocks

variable [DecidableEq Thread]

/-- The block is in a list, and some thread uses it. -/
def InUse (g : Shared Thread Object) (n : Nat) : Prop := (∃ s, n ∈ g.lists s) ∧ (g.blocks n).threadCount ≠ 0

/-- What the thread counts say to one thread. -/
def Counts (g : Shared Thread Object) (here : Local Object) : Prop := ∀ s, ∀ n ∈ g.lists s,
  (here.uses.count n : Int) ≤ (g.blocks n).threadCount ∧ (g.blocks n).threadCount + 1 < 2 ^ 31 + (here.uses.count n : Int)

theorem ThreadOk.inUse (ok : ThreadOk directKeys stripe g thread here) (counts : Counts g here) {n : Nat} (used : n ∈ here.uses) :
    InUse g n ∧ 1 ≤ (g.blocks n).threadCount ∧ (g.blocks n).threadCount < 2 ^ 31 := by
  have listed := ok.listed n used
  have counted := counts _ n listed
  rw [count_eq_one_of_mem ok.nodup used] at counted
  exact ⟨⟨⟨_, listed⟩, by omega⟩, by omega, by omega⟩

/-- What a step of a thread comes to. -/
structure StepOk (directKeys : Bool) (stripe : Object → Nat) (g : Shared Thread Object) (thread : Thread)
    (here : Local Object) (g' : Shared Thread Object) (here' : Local Object) : Prop where
  lists : ListsOk stripe g'
  own : ThreadOk directKeys stripe g' thread here'
  others : ∀ uses : List Nat, (∀ n ∈ uses, InUse g n) → Keeps g g' uses
  mutexes : ∀ other, other ≠ thread → ∀ n, owned g other n ≤ owned g' other n
  counted : ∀ s, ∀ n ∈ g'.lists s, (∃ s', n ∈ g.lists s') ∧
      (g'.blocks n).threadCount + (here.uses.count n : Int) = (g.blocks n).threadCount + (here'.uses.count n : Int) ∨
    g.allocated ≤ n ∧ (g'.blocks n).threadCount = (here'.uses.count n : Int)

/-- A step of the thread's own state. -/
theorem stepOk_local (lists : ListsOk stripe g) (uses : here'.uses.Perm here.uses)
    (own : ThreadOk directKeys stripe g thread here') : StepOk directKeys stripe g thread here g here' where
  lists := lists
  own := own
  others uses _ := .refl uses
  mutexes _ _ _ := le_rfl
  counted s n mem := .inl ⟨⟨s, mem⟩, by rw [uses.count_eq]⟩

variable (lists : ListsOk stripe g) (ok : ThreadOk directKeys stripe g thread here)

/-! ## Operations on the mutex -/

section Mutex

variable {n : Nat} {mutex : Option (Thread × Nat)}

theorem owned_setBlock (data : SyncData Thread Object) (thread : Thread) (m : Nat) :
    owned (g.setBlock n data) thread m = if m = n then timesLocked thread data.mutex else owned g thread m := by
  unfold owned
  split
  case isTrue here => rw [here, setBlock_self]
  case isFalse other => rw [setBlock_of_ne g other]

/-- The mutex is free, or the thread has it. -/
def MayLock (thread : Thread) (mutex : Option (Thread × Nat)) : Prop := ∀ owner times, mutex = some (owner, times) → owner = thread

theorem lockMutex_spec {mutex' : Option (Thread × Nat)} (locked : lockMutex thread mutex = some mutex') :
    MayLock thread mutex ∧ timesLocked thread mutex' = timesLocked thread mutex + 1 := by
  cases mutex with
  | none =>
    cases locked
    exact ⟨nofun, if_pos rfl⟩
  | some =>
    rw [lockMutex] at locked
    split at locked
    next same =>
      cases locked
      subst same
      exact ⟨fun _ _ is => by cases is; rfl, by simp [timesLocked]⟩
    next => cases locked

theorem unlockMutex_spec (has : 1 ≤ timesLocked thread mutex) :
    MayLock thread mutex ∧ timesLocked thread (unlockMutex thread mutex) + 1 = timesLocked thread mutex := by
  cases mutex with
  | none => exact absurd has (Nat.not_succ_le_zero 0)
  | some pair =>
    obtain ⟨owner, times⟩ := pair
    by_cases same : owner = thread
    · subst same
      rw [timesLocked, if_pos rfl] at has
      refine ⟨fun _ _ is => by cases is; rfl, ?_⟩
      rw [unlockMutex, if_pos rfl]
      by_cases last : times ≤ 1
      · rw [if_pos last, timesLocked, timesLocked, if_pos rfl]
        omega
      · rw [if_neg last, timesLocked, if_pos rfl, timesLocked, if_pos rfl]
        omega
    · rw [timesLocked, if_neg same] at has
      exact absurd has (Nat.not_succ_le_zero 0)

include lists ok

/-- The thread changes a mutex that no other thread has, and is in other sections then. -/
theorem stepOk_mutex {inside : List (Object × Nat)} {leaving : Option Nat} (unused : here.pc.uses = []) (inRange : n < g.allocated)
    (may : MayLock thread (g.blocks n).mutex) (stays : leaving = none)
    (covered : ∀ m, (inside.map Prod.snd).count m ≤ here.depth m + here.pending m)
    (objects : ∀ entry ∈ inside, (g.blocks entry.2).object = entry.1)
    (locked : ∀ m, (inside.map Prod.snd).count m ≤ if m = n then timesLocked thread mutex else owned g thread m) :
    StepOk directKeys stripe g thread here (g.setBlock n { g.blocks n with mutex }) { here with inside, leaving, pc := .idle } := by
  have keeps : ∀ uses, Keeps g (g.setBlock n { g.blocks n with mutex }) uses := keeps_setBlock rfl
  obtain ⟨own, uses⟩ := ok.move keeps { here with inside, leaving, pc := .idle } rfl rfl unused rfl covered objects
    (fun m => by subst stays; rw [owned_setBlock]; exact locked m) stays
  refine ⟨listsOk_setBlock lists inRange rfl, own, fun uses _ => keeps uses, fun other different m => ?_,
    fun s m mem => .inl ⟨⟨s, mem⟩, ?_⟩⟩
  · rw [owned_setBlock]
    split
    case isTrue here =>
      -- the other thread has no share in it
      unfold owned
      cases is : (g.blocks m).mutex with
      | none => exact Nat.zero_le _
      | some pair =>
        rw [here] at is
        exact (if_neg fun same => different (same.symm.trans (may pair.1 pair.2 is))).trans_le (Nat.zero_le _)
    case isFalse => exact le_rfl
  · rw [setBlock_same SyncData.threadCount (by rfl), uses.count_eq]

/-- `mutex.lock()` or `mutex.tryLock()` succeeds: the thread is inside. -/
theorem stepOk_lock {object : Object} (pc : here.pc = .lock object n ∨ here.pc = .tryLock object n)
    (locked : lockMutex thread (g.blocks n).mutex = some mutex) :
    StepOk directKeys stripe g thread here (g.setBlock n { g.blocks n with mutex })
      { here with inside := (object, n) :: here.inside, pc := .idle } := by
  obtain ⟨may, more⟩ := lockMutex_spec locked
  obtain ⟨leaving, cached, same⟩ : here.leaving = none ∧ n ∈ here.cached ∧ (g.blocks n).object = object := by
    rcases pc with pc | pc
    · exact ok.at pc
    · exact ok.at pc
  have pending : ∀ m, here.pending m = if n = m then 1 else 0 := by rcases pc with pc | pc <;> simp [Local.pending, pc]
  have unused : here.pc.uses = [] := by rcases pc with pc | pc <;> simp [pc, Pc.uses]
  have depth : ∀ m, (((object, n) :: here.inside).map Prod.snd).count m = here.depth m + if n = m then 1 else 0 := by
    intro m
    simp only [Local.depth, map_cons, count_cons, beq_iff_eq]
  refine stepOk_mutex lists ok unused (lists.bound _ n (ok.listed n (mem_uses_of_cached cached))) may leaving
    (fun m => by rw [depth, pending]) (forall_mem_cons.mpr ⟨same, ok.inside⟩) fun m => ?_
  have := ok.mutex m
  rw [depth]
  split
  case isTrue here =>
    subst here
    rw [more, if_pos rfl]
    exact Nat.succ_le_succ ((Nat.le_add_right _ _).trans this)
  case isFalse other =>
    rw [if_neg (Ne.symm other)]
    exact (Nat.le_add_right _ _).trans this

theorem stepOk_tryUnlock (pc : here.pc = .tryUnlock n) : StepOk directKeys stripe g thread here
      (g.setBlock n { g.blocks n with mutex := unlockMutex thread (g.blocks n).mutex })
      { here with leaving := none, pc := .idle } := by
  have leaving : here.leaving = some n := ok.at pc
  have covered : here.depth n + 1 ≤ timesLocked thread (g.blocks n).mutex := by simpa [leaving, owned] using ok.mutex n
  obtain ⟨may, less⟩ := unlockMutex_spec ((Nat.le_add_left 1 _).trans covered)
  have inRange : n < g.allocated := by
    by_contra beyond
    rw [lists.unlocked n (by omega)] at covered
    exact absurd covered (Nat.not_succ_le_zero _)
  refine stepOk_mutex lists ok (by rw [pc]; rfl) inRange may rfl (fun m => Nat.le_add_right _ _) ok.inside fun m => ?_
  show here.depth m ≤ _
  split
  case isTrue here =>
    subst here
    omega
  case isFalse => exact (Nat.le_add_right _ _).trans (ok.mutex m)

end Mutex

/-! ## Calls, and the search in the caches -/

variable {caller : Caller}

theorem why_eq_acquire (acquires : caller ≠ .exit) : caller.why = .acquire := by
  cases caller with
  | exit => exact absurd rfl acquires
  | enter | tryEnter => rfl

variable {object : Object}

omit [DecidableEq Thread] in
theorem search_iff (acquires : caller ≠ .exit) : Search g here object caller ↔ here.leaving = none ∧ Room g here object := by
  cases caller with
  | exit => exact absurd rfl acquires
  | enter | tryEnter => rfl

omit [DecidableEq Thread] in
theorem Search.with_pc (search : Search g here object caller) (pc : Pc Object) : Search g { here with pc } object caller := by
  by_cases exits : caller = .exit
  · subst exits
    exact search
  · obtain ⟨leaving, fast, cache⟩ := (search_iff exits).mp search
    exact (search_iff exits).mpr ⟨leaving, fast, cache⟩

include lists ok

theorem stepOk_exit [DecidableEq Object] {data : Nat} (pc : here.pc = .idle) (entered : (object, data) ∈ here.inside) :
    StepOk directKeys stripe g thread here g
      { here with inside := here.inside.erase (object, data), leaving := some data, pc := .fast .exit object } := by
  -- the section that is left counts as one that is being left
  have moved : ∀ n, Local.depth { here with inside := here.inside.erase (object, data), leaving := some data, pc := .fast .exit object } n +
      (if some data = some n then 1 else 0) = here.depth n := by
    intro n
    have split := ((perm_cons_erase entered).map Prod.snd).count_eq n
    simp only [map_cons, count_cons, beq_iff_eq] at split
    simp only [Local.depth, Option.some.injEq]
    exact split.symm
  obtain ⟨own, uses⟩ := ok.move .refl
    { here with inside := here.inside.erase (object, data), leaving := some data, pc := .fast .exit object } rfl rfl
    (by rw [pc]; rfl) rfl (fun n => (moved n).le.trans (Nat.le_add_right _ _))
    (fun entry mem => ok.inside entry (mem_of_mem_erase mem))
    (fun n => (moved n).le.trans ((Nat.le_add_right _ _).trans (ok.mutex n))) ⟨data, rfl, ok.cached entered, ok.inside _ entered⟩
  exact stepOk_local lists uses own

/-- The search goes on, in the same state of the caches. -/
theorem stepOk_search {pc : Pc Object} (unused : here.pc.uses = []) (unused' : pc.uses = []) (pending : ∀ n, Local.pending { here with pc } n ≤ here.pending n)
    (pcOk : PcOk g { here with pc } pc) : StepOk directKeys stripe g thread here g { here with pc } := by
  obtain ⟨own, uses⟩ := ok.move .refl { here with pc } rfl rfl unused unused' (fun n => Nat.add_le_add_left (pending n) _)
    ok.inside ok.mutex pcOk
  exact stepOk_local lists uses own

theorem stepOk_enter (acquires : caller ≠ .exit) (pc : here.pc = .idle) (room : Room g here object) :
    StepOk directKeys stripe g thread here g { here with pc := .fast caller object } := by
  refine stepOk_search lists ok (by rw [pc]; rfl) rfl (fun n => ?_) (((search_iff acquires).mpr ⟨ok.at pc, room⟩).with_pc _)
  cases caller with
  | exit => exact absurd rfl acquires
  | enter | tryEnter => exact Nat.zero_le _

theorem Hit.stepOk {data lockCount : Nat} {rest : List (Nat × Nat)} (hit : Hit g here here' caller object data lockCount rest)
    (direct : directKeys = false → here'.fast = none) : StepOk directKeys stripe g thread here g here' :=
  stepOk_local lists hit.uses_perm (hit.threadOk lists ok direct)

section Search

variable [DecidableEq Object] {caller : Caller} {object : Object}

omit lists ok [DecidableEq Thread] [DecidableEq Object] in
/-- Looking at the fast cache and at the others counts alike. -/
theorem pending_search (caller : Caller) (object : Object) (n : Nat) {pc : Pc Object}
    (is : pc = .fast caller object ∨ ∃ i occupied, pc = .scan caller object i occupied) (here : Local Object) :
    Local.pending { here with pc } n = if caller = .exit ∧ here.leaving = some n then 1 else 0 := by
  rcases is with rfl | ⟨i, occupied, rfl⟩ <;> cases caller <;> simp [Local.pending]

omit lists [DecidableEq Object] in
theorem ThreadOk.item_live (counts : Counts g here) {data lockCount : Nat} (item : (data, lockCount) ∈ here.items) :
    ¬ ((g.blocks data).threadCount ≤ 0 ∨ lockCount = 0) := by
  have positive := (ok.inUse counts (mem_uses_of_cached (mem_cached_of_item item))).2
  have counted := ok.positive _ item
  dsimp only at positive counted
  omega

variable (step : advance directKeys stripe thread g here = some (g', here'))
include step

theorem stepOk_fast (counts : Counts g here) (pc : here.pc = .fast caller object) : StepOk directKeys stripe g thread here g' here' := by
  have search := ok.at pc
  have unused : here.pc.uses = [] := by rw [pc]; rfl
  have pending : ∀ n, here.pending n = if caller = .exit ∧ here.leaving = some n then 1 else 0 :=
    fun n => pending_search caller object n (.inl pc) here
  -- the search in the other cache
  have goesOn : ∀ occupied, occupied = here.fast.isSome → (∀ item, here.fast = some item → (g.blocks item.1).object ≠ object) →
      StepOk directKeys stripe g thread here g { here with pc := .scan caller object 0 occupied } := by
    intro occupied same other
    refine stepOk_search lists ok unused rfl (fun n => ?_)
      ⟨search.with_pc _, same, other, fun j before => absurd before (Nat.not_lt_zero j)⟩
    rw [pending, pending_search caller object n (.inr ⟨0, occupied, rfl⟩) here]
  simp only [advance, pc] at step
  split at step
  next empty =>
    cases step
    have none : here.fast = none := by
      cases keys : directKeys with
      | true => simpa [keys] using empty
      | false => exact ok.direct keys
    exact goesOn false (by rw [none]; rfl) (fun item is => by rw [none] at is; cases is)
  next data lockCount found =>
    have is : here.fast = some (data, lockCount) := by
      cases keys : directKeys with
      | true => simpa [keys] using found
      | false => simp [keys] at found
    have items : here.items = (data, lockCount) :: here.cache := by rw [Local.items, is]; rfl
    have item : (data, lockCount) ∈ here.items := by rw [items]; exact mem_cons_self ..
    split at step
    next other =>
      cases step
      exact goesOn true (by rw [is]; rfl) (fun item' is' => by rw [is] at is'; cases is'; exact other)
    next same =>
      have same := not_not.mp same
      rw [if_neg (ok.item_live counts item), isRemoved_eq,
        lockCountAfter_eq fun acquires => ((search_iff acquires).mp search).2.fast data lockCount is same] at step
      cases step
      refine Hit.stepOk lists ok ⟨search, same, .of_eq items, ?_, rfl, rfl, unused, pending, rfl⟩ fun keys => ?_
      · unfold Local.items
        split <;> exact .refl _
      · rw [ok.direct keys] at is
        cases is

theorem stepOk_scan (counts : Counts g here) {i : Nat} {occupied : Bool} (pc : here.pc = .scan caller object i occupied) :
    StepOk directKeys stripe g thread here g' here' := by
  obtain ⟨search, sameOccupied, notFast, notBefore⟩ := ok.at pc
  have unused : here.pc.uses = [] := by rw [pc]; rfl
  have pending : ∀ n, here.pending n = if caller = .exit ∧ here.leaving = some n then 1 else 0 :=
    fun n => pending_search caller object n (.inr ⟨i, occupied, pc⟩) here
  simp only [advance, pc] at step
  split at step
  next past =>
    cases step
    -- no cache has the block
    have others : ∀ n ∈ here.cached, (g.blocks n).object ≠ object := by
      intro n cached
      obtain ⟨item, mem, rfl⟩ := mem_map.mp cached
      rcases mem_append.mp mem with inFast | inCache
      · exact notFast item (by simpa using inFast)
      · obtain ⟨j, inRange, rfl⟩ := getElem_of_mem inCache
        have := List.getElem?_eq_none_iff.mp past
        exact notBefore j (by omega) _ (getElem?_eq_getElem inRange)
    have acquires : caller ≠ .exit := by
      rintro rfl
      obtain ⟨n, -, cached, same⟩ := search
      exact others n cached same
    exact stepOk_search lists ok unused rfl (fun n => Nat.zero_le _)
      ⟨acquires, ((search_iff acquires).mp search).1, sameOccupied, others⟩
  next data lockCount found =>
    obtain ⟨inRange, at_⟩ := List.getElem?_eq_some_iff.mp found
    have item : (data, lockCount) ∈ here.items := mem_append_right _ (mem_of_getElem? found)
    split at step
    next other =>
      cases step
      refine stepOk_search lists ok unused rfl (fun n => ?_)
        ⟨search.with_pc _, sameOccupied, notFast, fun j before item' is => ?_⟩
      · rw [pending, pending_search caller object n (.inr ⟨i + 1, occupied, rfl⟩) here]
      · rcases Nat.lt_succ_iff_lt_or_eq.mp before with before | rfl
        · exact notBefore j before item' is
        · rw [found] at is
          cases is
          exact other
    next same =>
      have same := not_not.mp same
      rw [if_neg (ok.item_live counts item), isRemoved_eq,
        lockCountAfter_eq fun acquires => ((search_iff acquires).mp search).2.cache _ (mem_of_getElem? found) same] at step
      cases step
      have before : here.items.Perm ((data, lockCount) :: (here.fast.toList ++ here.cache.eraseIdx i)) := by
        rw [← at_]
        exact (((getElem_cons_eraseIdx_perm inRange).symm).append_left here.fast.toList).trans perm_middle
      refine Hit.stepOk lists ok ⟨search, same, before, ?_, rfl, rfl, unused, pending, rfl⟩ ok.direct
      split
      next => exact (removeAt_perm inRange).append_left _
      next => exact ((set_perm inRange _).append_left _).trans perm_middle

end Search

omit lists ok

/-! ## The lists -/

theorem int32_of_bounds {x : Int} (lower : -2 ^ 31 ≤ x) (upper : x < 2 ^ 31) : int32 x = x := by
  unfold int32
  omega

section Lists

variable [DecidableEq Object] {caller : Caller} {object : Object} {occupied : Bool}

/-- The section under the spin lock comes to a block that is new to the thread: it has the object and is on
the list of the object, where no other block has it. -/
structure Obtained (stripe : Object → Nat) (g g' : Shared Thread Object) (cached : List Nat) (object : Object) (n : Nat) : Prop where
  grows : g.allocated ≤ g'.allocated
  below : n < g'.allocated
  others : ∀ m, m ≠ n → g'.blocks m = g.blocks m
  listed : ∀ s m, m ∈ g'.lists s ↔ s = stripe object ∧ m = n ∨ m ∈ g.lists s
  home : ∀ s, n ∈ g.lists s → s = stripe object
  missing : ∀ m ∈ g.lists (stripe object), m ≠ n → (g.blocks m).object ≠ object
  new : n ∉ cached
  same : (g'.blocks n).object = object
  inUse : InUse g n → (g.blocks n).object = object
  mutex : (g'.blocks n).mutex = (g.blocks n).mutex
  counts : (∃ s, n ∈ g.lists s) ∧ (g'.blocks n).threadCount = (g.blocks n).threadCount + 1 ∨ g.allocated ≤ n ∧ (g'.blocks n).threadCount = 1

section Obtained

omit [DecidableEq Thread] [DecidableEq Object]

variable {cached : List Nat} {n : Nat}

section

variable (obtained : Obtained stripe g g' cached object n)
include obtained

theorem Obtained.old {s m : Nat} (mem : m ∈ g'.lists s) (other : m ≠ n) : m ∈ g.lists s :=
  ((obtained.listed s m).mp mem).resolve_left fun new => other new.2

theorem Obtained.listsOk (lists : ListsOk stripe g) : ListsOk stripe g' := by
  have home : ∀ s, n ∈ g'.lists s → s = stripe object := fun s mem => ((obtained.listed s n).mp mem).elim And.left (obtained.home s)
  -- no other block of a list has the object
  have apart : ∀ s, ∀ m ∈ g'.lists s, m ≠ n → n ∈ g'.lists s → (g'.blocks m).object ≠ (g'.blocks n).object := by
    intro s m mem other memN
    rw [obtained.same, obtained.others m other]
    exact obtained.missing m (home s memN ▸ obtained.old mem other) other
  refine ⟨fun m beyond => ?_, fun s m mem => ?_, fun s m mem => ?_, fun s m memM k memK equal => ?_⟩
  · rw [obtained.others m (obtained.below.trans_le beyond).ne']
    exact lists.unlocked m (obtained.grows.trans beyond)
  · by_cases isN : m = n
    · exact isN ▸ obtained.below
    · exact (lists.bound s m (obtained.old mem isN)).trans_le obtained.grows
  · by_cases isN : m = n
    · subst isN
      rw [obtained.same, home s mem]
    · rw [obtained.others m isN]
      exact lists.home s m (obtained.old mem isN)
  · by_cases isM : m = n <;> by_cases isK : k = n
    · rw [isM, isK]
    · subst isM
      exact absurd equal.symm (apart s k memK isK memM)
    · subst isK
      exact absurd equal (apart s m memM isM memK)
    · rw [obtained.others m isM, obtained.others k isK] at equal
      exact lists.unique s m (obtained.old memM isM) k (obtained.old memK isK) equal

theorem Obtained.keeps (uses : List Nat) (used : ∀ m ∈ uses, InUse g m) : Keeps g g' uses := by
  refine ⟨fun m mem => ?_, fun m _ s mem => (obtained.listed s m).mpr (.inr mem)⟩
  by_cases isN : m = n
  · subst isN
    rw [obtained.same, obtained.inUse (used m mem)]
  · rw [obtained.others m isN]

theorem Obtained.mutexes [DecidableEq Thread] (thread : Thread) (m : Nat) : owned g' thread m = owned g thread m := by
  by_cases isN : m = n
  · rw [owned, owned, isN, obtained.mutex]
  · rw [owned, owned, obtained.others m isN]

end

/-- A listed block is obtained: it has a new count, and perhaps another object. -/
theorem obtained_setBlock {data : SyncData Thread Object} (lists : ListsOk stripe g) (mem : n ∈ g.lists (stripe object))
    (missing : ∀ m ∈ g.lists (stripe object), m ≠ n → (g.blocks m).object ≠ object) (new : n ∉ cached) (same : data.object = object)
    (inUse : InUse g n → (g.blocks n).object = object) (mutex : data.mutex = (g.blocks n).mutex)
    (count : data.threadCount = (g.blocks n).threadCount + 1) : Obtained stripe g (g.setBlock n data) cached object n where
  grows := le_rfl
  below := lists.bound _ n mem
  others m other := setBlock_of_ne g other data
  listed s m := (or_iff_right_of_imp (by rintro ⟨rfl, rfl⟩; exact mem)).symm
  home s mem' := (lists.home s n mem').symm.trans (lists.home _ n mem)
  missing := missing
  new := new
  same := by rw [setBlock_self, same]
  inUse := inUse
  mutex := by rw [setBlock_self, mutex]
  counts := .inl ⟨⟨_, mem⟩, by rw [setBlock_self, count]⟩

end Obtained

include lists ok

theorem listSection_obtained (counts : Counts g here) (unused : here.pc.uses = [])
    (others : ∀ n ∈ here.cached, (g.blocks n).object ≠ object) : ∃ n, (listSection stripe .acquire g object).2 = some n ∧
      Obtained stripe g (listSection stripe .acquire g object).1 here.cached object n := by
  have uses : here.uses = here.cached := by rw [Local.uses, unused, append_nil]
  unfold listSection
  split
  next p found =>
    have listed := mem_of_find?_eq_some found
    have same : (g.blocks p).object = object := by simpa using find?_some found
    have new : p ∉ here.cached := fun cached => others p cached same
    have counted := counts _ p listed
    rw [uses, count_eq_zero.mpr new] at counted
    exact ⟨p, rfl, obtained_setBlock lists listed (fun m mem other equal => other (lists.unique _ m mem p listed (equal.trans same.symm)))
      new same (fun _ => same) rfl (int32_of_bounds (by omega) (by omega))⟩
  next missing =>
    have missing : ∀ m ∈ g.lists (stripe object), (g.blocks m).object ≠ object := by simpa using missing
    rw [if_neg (by decide)]
    split
    next p found =>
      have listed := mem_of_find?_eq_some found
      have free : (g.blocks p).threadCount = 0 := by simpa using find?_some found
      have new : p ∉ here.cached := by
        intro cached
        have := (ok.inUse counts (mem_uses_of_cached cached)).2
        omega
      exact ⟨p, rfl, obtained_setBlock lists listed (fun m mem _ => missing m mem) new rfl (fun inUse => absurd free inUse.2) rfl (by rw [free]; rfl)⟩
    next =>
      have unlisted : ∀ s, g.allocated ∉ g.lists s := fun s mem => (lists.bound s _ mem).ne rfl
      have isNew : (g.allocate (stripe object) ⟨object, 1, none⟩).blocks g.allocated = ⟨object, 1, none⟩ := Function.update_self ..
      refine ⟨g.allocated, rfl, Nat.le_succ _, Nat.lt_succ_self _, fun m other => Function.update_of_ne other .., fun s m => ?_,
        fun s mem => absurd mem (unlisted s), fun m mem _ => missing m mem, fun cached => ?_, by rw [isNew],
        fun inUse => absurd inUse.1.choose_spec (unlisted _), by rw [isNew, lists.unlocked _ le_rfl], .inr ⟨le_rfl, by rw [isNew]⟩⟩
      · unfold Shared.allocate
        by_cases here_ : s = stripe object
        · subst here_
          simp
        · simp [here_]
      · exact unlisted _ (ok.listed _ (mem_uses_of_cached cached))

variable (step : advance directKeys stripe thread g here = some (g', here'))
include step

/-- **The section under the spin lock.** -/
theorem stepOk_list (counts : Counts g here) (pc : here.pc = .list caller object occupied) : StepOk directKeys stripe g thread here g' here' := by
  obtain ⟨acquires, leaving, same, others⟩ := ok.at pc
  have why := why_eq_acquire acquires
  have unused : here.pc.uses = [] := by rw [pc]; rfl
  have uses : here.uses = here.cached := by rw [Local.uses, unused, append_nil]
  obtain ⟨n, result, obtained⟩ := listSection_obtained lists ok counts unused others
  simp only [advance, pc, why, Option.some.injEq, Prod.mk.injEq] at step
  obtain ⟨rfl, rfl⟩ := step
  rw [result]
  have uses' : Local.uses { here with pc := .save caller object occupied (some n) } = here.uses ++ [n] := by
    rw [uses]
    rfl
  have kept := ok.keeps (obtained.keeps _ fun m used => (ok.inUse counts used).1) fun m => by rw [obtained.mutexes]; exact ok.mutex m
  refine ⟨obtained.listsOk lists, ⟨?_, fun m used => ?_, ok.positive, fun m => (Nat.le_add_right _ _).trans (ok.covered m),
    kept.inside, kept.mutex, ok.direct,
    acquires, leaving, same, n, rfl, obtained.same⟩, obtained.keeps, fun other _ m => (obtained.mutexes other m).ge,
    fun s m mem => ?_⟩
  · rw [uses']
    exact nodup_append.mpr ⟨ok.nodup, nodup_singleton n, fun a used b isN equal => by
      rw [mem_singleton.mp isN] at equal
      exact obtained.new (uses ▸ equal ▸ used)⟩
  · rw [uses'] at used
    rcases mem_append.mp used with used | isN
    · exact kept.listed m used
    · rw [mem_singleton.mp isN, obtained.same]
      exact (obtained.listed _ n).mpr (.inl ⟨rfl, rfl⟩)
  · rw [uses', count_append]
    by_cases isN : m = n
    · subst isN
      have none := count_eq_zero.mpr (uses ▸ obtained.new)
      rw [none, count_singleton_self]
      rcases obtained.counts with ⟨listed, more⟩ | ⟨beyond, one⟩
      · exact .inl ⟨listed, by rw [more]; simp⟩
      · exact .inr ⟨beyond, by rw [one]; rfl⟩
    · have none : count m [n] = 0 := count_eq_zero.mpr (by simpa using isN)
      exact .inl ⟨⟨s, obtained.old mem isN⟩, by rw [obtained.others m isN, none, Nat.add_zero]⟩

theorem stepOk_save {result : Option Nat} (pc : here.pc = .save caller object occupied result) : StepOk directKeys stripe g thread here g' here' := by
  obtain ⟨acquires, leaving, same, n, rfl, is⟩ := ok.at pc
  have why := why_eq_acquire acquires
  have uses : here.uses = here.cached ++ [n] := by rw [Local.uses, pc]; rfl
  -- either cache is one item larger
  have saved : ∀ here', here'.items.Perm ((n, 1) :: here.items) → here'.inside = here.inside → here'.leaving = none →
      here'.pc = caller.found object n false → (directKeys = false → here'.fast = none) →
      StepOk directKeys stripe g thread here g here' := by
    intro here' items inside leaving' pc' direct
    have cached := items.map Prod.fst
    have unused' : here'.pc.uses = [] := by
      rw [pc']
      cases caller <;> rfl
    have uses' : here'.uses.Perm here.uses := by
      rw [Local.uses, unused', append_nil, uses]
      exact cached.trans (perm_append_singleton _ _).symm
    have depth : ∀ m, here'.depth m = here.depth m := fun m => by rw [Local.depth, Local.depth, inside]
    have pending : ∀ m, here'.pending m = if n = m then 1 else 0 := by
      intro m
      rw [Local.pending, pc']
      cases caller with
      | exit => exact absurd rfl acquires
      | enter | tryEnter => rfl
    refine stepOk_local lists uses' ⟨uses'.nodup_iff.mpr ok.nodup, fun m used => ok.listed m (uses'.mem_iff.mp used),
      fun item mem => ?_, fun m => ?_, inside ▸ ok.inside, fun m => ?_, direct, ?_⟩
    · rcases mem_cons.mp (items.mem_iff.mp mem) with rfl | old
      · exact le_rfl
      · exact ok.positive item old
    · have := ok.covered m
      rw [depth, pending, lockCountIn_perm items, lockCountIn_cons]
      dsimp only
      omega
    · rw [depth, leaving', ← leaving]
      exact ok.mutex m
    · have inCache : n ∈ here'.cached := cached.mem_iff.mpr (mem_cons_self ..)
      rw [pc']
      cases caller with
      | exit => exact absurd rfl acquires
      | enter | tryEnter => exact ⟨leaving', inCache, is⟩
  simp only [advance, pc, why] at step
  rw [if_neg (by decide), if_neg (by decide), if_neg (not_not.mpr is)] at step
  split at step
  next free =>
    cases step
    obtain ⟨keys, free⟩ := Bool.and_eq_true_iff.mp free
    have none : here.fast = none := by
      rw [same] at free
      simpa using free
    refine saved _ (.of_eq ?_) rfl leaving rfl fun noKeys => ?_
    · simp [Local.items, none]
    · rw [keys] at noKeys
      cases noKeys
  next =>
    cases step
    refine saved _ ?_ rfl leaving rfl ok.direct
    unfold Local.items
    rw [← append_assoc]
    exact perm_append_singleton _ _

omit step

omit [DecidableEq Object] in
/-- `OSAtomicDecrement32Barrier(&result->threadCount)` -/
theorem stepOk_decrement (counts : Counts g here) {n : Nat} (pc : here.pc = .decrement n) : StepOk directKeys stripe g thread here
      (g.setBlock n { g.blocks n with threadCount := int32 ((g.blocks n).threadCount - 1) })
      { here with pc := .tryUnlock n } := by
  have leaving := ok.at pc
  have uses : here.uses = here.cached ++ [n] := by rw [Local.uses, pc]; rfl
  have uses' : Local.uses { here with pc := .tryUnlock n } = here.cached := append_nil _
  have used : n ∈ here.uses := by rw [uses]; simp
  obtain ⟨-, lower, upper⟩ := ok.inUse counts used
  have inRange := lists.bound _ n (ok.listed n used)
  have keeps : ∀ uses : List Nat, Keeps g (g.setBlock n { g.blocks n with threadCount := int32 ((g.blocks n).threadCount - 1) }) uses :=
    keeps_setBlock (by rfl)
  have mutexes : ∀ other m, owned (g.setBlock n { g.blocks n with threadCount := int32 ((g.blocks n).threadCount - 1) }) other m =
      owned g other m := fun other m => congrArg (timesLocked other) (setBlock_same SyncData.mutex (by rfl) m)
  have kept := ok.keeps (keeps _) fun m => by rw [mutexes]; exact ok.mutex m
  refine ⟨listsOk_setBlock lists inRange (by rfl), ⟨?_, fun m mem => ?_, ok.positive,
    fun m => (Nat.le_add_right _ _).trans (ok.covered m), kept.inside, kept.mutex, ok.direct, leaving⟩,
    fun uses _ => keeps uses, fun other _ m => (mutexes other m).ge, fun s m mem => .inl ⟨⟨s, mem⟩, ?_⟩⟩
  · rw [uses']
    exact List.Nodup.of_append_left ok.nodup
  · rw [uses'] at mem
    exact kept.listed m (uses ▸ mem_append_left _ mem)
  · rw [uses, uses', count_append]
    by_cases isN : m = n
    · subst isN
      rw [int32_of_bounds (by omega) (by omega)]
      simp
    · have none : count m [n] = 0 := count_eq_zero.mpr (by simpa using isN)
      rw [setBlock_of_ne g isN, none, Nat.add_zero]

end Lists

include lists ok in
/-- **Every step of a thread.** -/
theorem stepOk [DecidableEq Object] (counts : Counts g here) (step : ThreadStep directKeys stripe True thread g here g' here') :
    StepOk directKeys stripe g thread here g' here' := by
  cases step with
  | enter _ _ acquires pc room => exact stepOk_enter lists ok acquires pc (room trivial)
  | exit pc entered => exact stepOk_exit lists ok pc entered
  | code step =>
    cases pc : here.pc with
    | idle | fatal => simp [advance, pc] at step
    | fast => exact stepOk_fast lists ok step counts pc
    | scan => exact stepOk_scan lists ok step counts pc
    | list => exact stepOk_list lists ok step counts pc
    | save => exact stepOk_save lists ok step pc
    | decrement =>
      simp only [advance, pc, Option.some.injEq, Prod.mk.injEq] at step
      obtain ⟨rfl, rfl⟩ := step
      exact stepOk_decrement lists ok counts pc
    | lock =>
      simp only [advance, pc, Option.map_eq_some_iff, Prod.mk.injEq] at step
      obtain ⟨mutex, locked, rfl, rfl⟩ := step
      exact stepOk_lock lists ok (.inl pc) locked
    | tryLock =>
      simp only [advance, pc] at step
      split at step
      next =>
        cases step
        exact stepOk_search lists ok (by rw [pc]; rfl) rfl (fun _ => Nat.zero_le _) (ok.at pc).1
      next mutex locked =>
        cases step
        exact stepOk_lock lists ok (.inr pc) locked
    | tryUnlock =>
      simp only [advance, pc, Option.some.injEq, Prod.mk.injEq] at step
      obtain ⟨rfl, rfl⟩ := step
      exact stepOk_tryUnlock lists ok pc

end DarwinNotes.Objc.Sync
