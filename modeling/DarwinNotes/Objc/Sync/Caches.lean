import DarwinNotes.Objc.Sync.Invariant

/-!
# The caches of a thread

Hits in a cache, the calls, and the operations on the mutex: the steps that change
neither the lists nor the use of a block.
-/

namespace DarwinNotes.Objc.Sync
open List

variable {Thread Object : Type} [DecidableEq Thread]
  {directKeys : Bool} {stripe : Object → Nat} {g g' : Shared Thread Object} {thread : Thread} {here here' : Local Object}

/-! ## Removing an item -/

theorem set_perm {α : Type} {list : List α} {i : Nat} (inRange : i < list.length) (a : α) : (list.set i a).Perm (a :: list.eraseIdx i) := by
  rw [set_eq_take_append_cons_drop, if_pos inRange, eraseIdx_eq_take_drop_succ]
  exact perm_middle

/-- The last item takes the place of the removed one. -/
theorem removeAt_perm {cache : List (Nat × Nat)} {i : Nat} (inRange : i < cache.length) : (removeAt cache i).Perm (cache.eraseIdx i) := by
  rcases cache.eq_nil_or_concat' with rfl | ⟨front, last, rfl⟩
  · exact absurd inRange (Nat.not_lt_zero i)
  simp only [removeAt, getLast?_concat]
  by_cases before : i < front.length
  · rw [set_append_left _ _ before, dropLast_concat, eraseIdx_append_of_lt_length before]
    exact (set_perm before last).trans (perm_append_singleton _ _).symm
  · obtain rfl : i = front.length := by
      rw [length_append, length_singleton] at inRange
      omega
    rw [set_append_right _ _ le_rfl, eraseIdx_append_of_length_le le_rfl]
    simp

/-! ## Hits -/

variable {caller : Caller} {lockCount : Nat}

/-- The `lockCount` after a call, if there is room for it. -/
def Caller.counts (caller : Caller) (lockCount : Nat) : Nat := if caller = .exit then lockCount - 1 else lockCount + 1

theorem isRemoved_eq : isRemoved caller.why lockCount = (caller.counts lockCount == 0) := by
  cases caller <;> simp [isRemoved, Caller.why, Caller.counts]

theorem lockCountAfter_eq {bits : Nat} (room : caller ≠ .exit → lockCount + 1 < 2 ^ bits) :
    lockCountAfter caller.why bits lockCount = caller.counts lockCount := by
  cases caller with
  | exit => rfl
  | enter | tryEnter => exact Nat.mod_eq_of_lt (room nofun)

/-- A hit in a cache: the thread, its caches apart, and what the cache holds. -/
structure Hit (g : Shared Thread Object) (here here' : Local Object) (caller : Caller) (object : Object)
    (data lockCount : Nat) (rest : List (Nat × Nat)) : Prop where
  search : Search g here object caller
  same : (g.blocks data).object = object
  before : here.items.Perm ((data, lockCount) :: rest)
  after : here'.items.Perm (if caller.counts lockCount == 0 then rest else (data, caller.counts lockCount) :: rest)
  inside : here'.inside = here.inside
  leaving : here'.leaving = here.leaving
  unused : here.pc.uses = []
  pending : ∀ n, here.pending n = if caller = .exit ∧ here.leaving = some n then 1 else 0
  pc : here'.pc = caller.found object data (caller.counts lockCount == 0)

variable {object : Object} {data : Nat} {rest : List (Nat × Nat)} (hit : Hit g here here' caller object data lockCount rest)
include hit

omit [DecidableEq Thread] in
theorem Hit.cached : here.cached.Perm (data :: rest.map Prod.fst) := hit.before.map Prod.fst

omit [DecidableEq Thread] in
/-- The block is in use as before. -/
theorem Hit.uses_perm : here'.uses.Perm here.uses := by
  have before : here.uses.Perm (data :: rest.map Prod.fst) := by
    rw [Local.uses, hit.unused, append_nil]
    exact hit.cached
  refine List.Perm.trans ?_ before.symm
  have after := hit.after.map Prod.fst
  rw [Local.uses, hit.pc, Local.cached]
  split at after
  case isTrue removed =>
    obtain rfl : caller = .exit := by
      by_contra acquires
      simp [Caller.counts, acquires] at removed
    rw [removed]
    exact (after.append_right [data]).trans (perm_append_singleton _ _)
  case isFalse kept =>
    have none : (caller.found object data false).uses = [] := by cases caller <;> rfl
    rw [Bool.eq_false_iff.mpr kept, none, append_nil]
    exact after

/-- **A hit in a cache** counts the call. -/
theorem Hit.threadOk (lists : ListsOk stripe g) (ok : ThreadOk directKeys stripe g thread here)
    (direct : directKeys = false → here'.fast = none) : ThreadOk directKeys stripe g thread here' := by
  have cachedData := hit.cached.mem_iff.mpr (mem_cons_self ..)
  -- an exit finds the block it is to leave
  have leavesData : caller = .exit → here.leaving = some data := by
    rintro rfl
    obtain ⟨n, leaving, cached, same⟩ := hit.search
    rw [leaving, ok.uses_unique lists (mem_uses_of_cached cached) (mem_uses_of_cached cachedData) (same.trans hit.same.symm)]
  have pending' : ∀ n, here'.pending n = if caller ≠ .exit ∧ data = n then 1 else 0 := by
    intro n
    rw [Local.pending, hit.pc]
    cases caller with
    | enter | tryEnter => simp [Caller.found]
    | exit => cases Caller.exit.counts lockCount == 0 <;> simp [Caller.found]
  have covered : ∀ n, here'.depth n + here'.pending n ≤ lockCountIn here'.items n := by
    intro n
    have before := ok.covered n
    have after : lockCountIn here'.items n = (if data = n then caller.counts lockCount else 0) + lockCountIn rest n := by
      rw [lockCountIn_perm hit.after]
      split
      case isTrue removed => simp [eq_of_beq removed]
      case isFalse => exact lockCountIn_cons
    rw [lockCountIn_perm hit.before, lockCountIn_cons, hit.pending] at before
    rw [after, pending', Local.depth, hit.inside, ← Local.depth, Caller.counts]
    by_cases exits : caller = .exit
    · rw [leavesData exits] at before
      grind
    · grind
  refine ⟨hit.uses_perm.nodup_iff.mpr ok.nodup, fun n used => ok.listed n (hit.uses_perm.mem_iff.mp used), fun item mem => ?_,
    covered, hit.inside ▸ ok.inside, fun n => ?_, direct, ?_⟩
  · have old : ∀ item ∈ rest, 1 ≤ item.2 := fun item mem => ok.positive item (hit.before.mem_iff.mpr (mem_cons_of_mem _ mem))
    have mem := hit.after.mem_iff.mp mem
    split at mem
    case isTrue => exact old item mem
    case isFalse kept =>
      rcases mem_cons.mp mem with rfl | mem
      · exact Nat.pos_of_ne_zero fun none => kept (beq_iff_eq.mpr none)
      · exact old item mem
  · rw [Local.depth, hit.inside, hit.leaving]
    exact ok.mutex n
  · rw [hit.pc]
    have cached' : caller ≠ .exit → data ∈ here'.cached := by
      intro acquires
      have := covered data
      rw [pending', if_pos ⟨acquires, rfl⟩] at this
      exact mem_cached_of_lockCount ((Nat.succ_pos _).trans_le this)
    cases caller with
    | enter | tryEnter => exact ⟨hit.leaving.trans hit.search.1, cached' nofun, hit.same⟩
    | exit =>
      have leaving := hit.leaving.trans (leavesData rfl)
      cases Caller.exit.counts lockCount == 0 with
      | true | false => exact leaving

end DarwinNotes.Objc.Sync
