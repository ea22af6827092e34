import DarwinNotes.Xnu.Locks.Overlap

/-!
# Queues of blocked requests

A request is on the queue of the lock that its `lf_next` points to, and on no other. While locks are set and cleared
queues are woken, or moved to a lock of the same owner that is wider and of no weaker type, so that
what makes a request wait for its lock stays true.
-/

namespace DarwinNotes.Xnu.Locks
open List

/-! ## Waking and moving -/

/-- All the requests of a queue are woken. -/
def Queues.wakeAll (queues : Queues) (ref : Ref) : Queues where
  blkhd := Function.update queues.blkhd ref []
  lfNext := fun request => if request ∈ queues.blkhd ref then none else queues.lfNext request

/-- The whole queue is woken: it is not allowed to wake one request only, or there are no others. -/
def WakesAll (queues : Queues) (listhead : Lockf) (forceAll : Bool) : Prop :=
  forceAll = true ∨ listhead.wake1Safe = false ∨ (queues.blkhd listhead.ref).length ≤ 1

theorem wakeLock_eq_wakeAll {queues : Queues} {listhead : Lockf} {forceAll : Bool} (wakesAll : WakesAll queues listhead forceAll) :
    queues.wakeLock listhead forceAll = queues.wakeAll listhead.ref := by
  rw [Queues.wakeLock, Queues.wakeAll]
  cases isQueue : queues.blkhd listhead.ref with
  | nil =>
    have unchanged : Function.update queues.blkhd listhead.ref [] = queues.blkhd := by rw [← isQueue, Function.update_eq_self]
    simp [unchanged]
  | cons wakelock others =>
    simp only
    split
    case isTrue => rfl
    case isFalse one =>
    have isOne : others = [] := by
      rw [WakesAll, isQueue, length_cons] at wakesAll
      rcases wakesAll with force | unsafeOne | _
      · exact absurd (.inl force) one
      · exact absurd (.inr (by simp [unsafeOne])) one
      · exact length_eq_zero_iff.mp (by omega)
    subst isOne
    have sameNext : Function.update queues.lfNext wakelock none =
        fun request => if request ∈ [wakelock] then none else queues.lfNext request := by
      funext request
      simp only [Function.update_apply, mem_singleton]
    rw [if_pos rfl, sameNext]

theorem WakesAll.wake {queues : Queues} {lf lf' : Lockf} (wakesAll : WakesAll queues lf false) (first : WakesAll queues lf' false) :
    WakesAll (queues.wakeLock lf' false) lf false := by
  refine wakesAll.imp_right (.imp_right fun short => ?_)
  simp only [wakeLock_eq_wakeAll first, Queues.wakeAll, Function.update_apply]
  split
  · exact Nat.zero_le _
  · exact short

/-- A lock of the same owner that is wider and not weaker. What a request needs of the lock that it waits for stays true. -/
def Wider (lf lf' : Lockf) : Prop :=
  lf'.lfId = lf.lfId ∧ lf'.lfStart ≤ lf.lfStart ∧ (lf'.lfEnd = -1 ∨ (lf.lfEnd ≠ -1 ∧ lf.lfEnd ≤ lf'.lfEnd)) ∧ ¬ IsDowngrade lf' lf

theorem not_downgrade {lf lf' : Lockf} (sameType : lf'.lfType = lf.lfType) : ¬ IsDowngrade lf' lf := by
  rintro ⟨isRead, isWrite⟩
  exact nomatch isRead.symm.trans (sameType.trans isWrite)

def Stable (rel : Ref → Lockf → Prop) : Prop := ∀ request lf lf', rel request lf → Wider lf lf' → rel request lf'

/-- The queues of the locks on a list: each request is on the queue of the lock that it points to, once, and on no other one, and `rel` holds
of it and the lock. -/
structure Queued (rel : Ref → Lockf → Prop) (locks : List Lockf) (queues : Queues) : Prop where
  onList : ∀ {request r}, queues.lfNext request = some r → ∃ lf ∈ locks, lf.ref = r ∧ lf.Valid ∧ rel request lf
  once : ∀ request r, (queues.blkhd r).count request = if queues.lfNext request = some r then 1 else 0

section Operations

variable {rel : Ref → Lockf → Prop} {locks locks' : List Lockf} {queues : Queues} (queued : Queued rel locks queues)
include queued

theorem Queued.next (request r : Ref) : request ∈ queues.blkhd r ↔ queues.lfNext request = some r := by
  rw [← count_pos_iff, queued.once]
  split <;> simp [*]

/-- The locks with requests may be replaced. -/
theorem Queued.replace (kept : ∀ {request lf}, lf ∈ locks → lf.Valid → rel request lf → ∃ lf' ∈ locks', lf'.ref = lf.ref ∧ lf'.Valid ∧ rel request lf')
    : Queued rel locks' queues := by
  refine ⟨fun isNext => ?_, queued.once⟩
  obtain ⟨_, mem, rfl, valid, isRel⟩ := queued.onList isNext
  exact kept mem valid isRel

theorem Queued.subset (isSubset : ∀ lf ∈ locks, lf ∈ locks') : Queued rel locks' queues :=
  queued.replace fun {_ lf} mem valid isRel => ⟨lf, isSubset lf mem, rfl, valid, isRel⟩

/-- A lock is woken and then changed or deleted. -/
theorem Queued.wake_replace {ref : Ref} (kept : ∀ lf ∈ locks, lf.ref ≠ ref → lf ∈ locks') : Queued rel locks' (queues.wakeAll ref) := by
  refine ⟨fun {request r} isNext => ?_, fun request r => ?_⟩
  · simp only [Queues.wakeAll, queued.next] at isNext
    split at isNext
    case isTrue => cases isNext
    case isFalse notWoken =>
      obtain ⟨lf, mem, rfl, valid, isRel⟩ := queued.onList isNext
      refine ⟨lf, kept lf mem ?_, rfl, valid, isRel⟩
      rintro rfl
      exact notWoken isNext
  · simp only [Queues.wakeAll, queued.next, Function.update_apply, apply_ite (count request), count_nil, queued.once]
    grind

/-- The requests of one lock wait for another one now. -/
theorem Queued.move {target source : Ref} (other : source ≠ target)
    (kept : ∀ {request lf}, lf ∈ locks → lf.Valid → rel request lf → ∃ lf' ∈ locks', lf'.ref = (if lf.ref = source then target else lf.ref) ∧ lf'.Valid ∧ rel request lf')
    : Queued rel locks' (queues.moveBlocked target source) := by
  refine ⟨fun {request r} isNext => ?_, fun request r => ?_⟩
  · simp only [Queues.moveBlocked, queued.next] at isNext
    split at isNext
    case isTrue isMoved =>
      obtain ⟨_, mem, isRef, valid, isRel⟩ := queued.onList isMoved
      have isKept := kept mem valid isRel
      rwa [if_pos isRef, Option.some.inj isNext] at isKept
    case isFalse notMoved =>
      obtain ⟨lf, mem, rfl, valid, isRel⟩ := queued.onList isNext
      have isKept := kept mem valid isRel
      rwa [if_neg fun isSource : lf.ref = source => notMoved (isSource ▸ isNext)] at isKept
  · simp only [Queues.moveBlocked, queued.next, Function.update_apply, apply_ite (count request), count_append, count_nil, queued.once]
    grind

end Operations

/-! ## What the loops do -/

/-- The other locks on the list have other addresses. -/
theorem other_refs {lf : Lockf} {before behind : List Lockf} (distinct : ((before ++ lf :: behind).map (·.ref)).Nodup) :
    ∀ lf' ∈ before ++ behind, lf'.ref ≠ lf.ref := by
  rw [map_append, map_cons, perm_middle.nodup_iff, ← map_append, nodup_cons] at distinct
  intro lf' mem sameRef
  exact distinct.1 (sameRef ▸ mem_map_of_mem mem)

theorem nodup_insert {lf : Lockf} {before behind : List Lockf} (distinct : ((before ++ behind).map (·.ref)).Nodup)
    (others : ∀ lf' ∈ before ++ behind, lf'.ref ≠ lf.ref) : ((before ++ lf :: behind).map (·.ref)).Nodup := by
  rw [map_append, map_cons, perm_middle.nodup_iff, ← map_append, nodup_cons]
  refine ⟨?_, distinct⟩
  intro mem
  obtain ⟨lf', mem, sameRef⟩ := mem_map.mp mem
  exact others lf' mem sameRef

/-- Whatever holds of requests and the locks they wait for, and stays true for wider locks, is preserved. -/
def Transfers (locks locks' : List Lockf) (queues queues' : Queues) : Prop := ∀ rel, Stable rel → Queued rel locks queues → Queued rel locks' queues'

section Transfers

variable {locks locks' : List Lockf} {queues : Queues} {lf lock : Lockf}

theorem Transfers.trans {locks'' : List Lockf} {queues' queues'' : Queues} (first : Transfers locks locks' queues queues')
    (second : Transfers locks' locks'' queues' queues'') : Transfers locks locks'' queues queues'' :=
  fun rel stable queued => second rel stable (first rel stable queued)

theorem transfers_subset (isSubset : ∀ lf ∈ locks, lf ∈ locks') : Transfers locks locks' queues queues := fun _ _ queued => queued.subset isSubset

/-- A lock is woken, and then changed or deleted. -/
theorem transfers_wake (lf : Lockf) {forceAll : Bool} (wakesAll : WakesAll queues lf forceAll) (kept : ∀ x ∈ locks, x ≠ lf → x ∈ locks') :
    Transfers locks locks' queues (queues.wakeLock lf forceAll) := by
  intro rel stable queued
  rw [wakeLock_eq_wakeAll wakesAll]
  exact queued.wake_replace fun x mem otherRef => kept x mem fun same => otherRef (congrArg _ same)

/-- The type of a lock is changed; it is woken if others may have the range now. -/
theorem transfers_retype (onList : { lf with lfType := lock.lfType } ∈ locks') (kept : ∀ x ∈ locks, x ≠ lf → x ∈ locks') :
    Transfers locks locks' queues (if IsDowngrade lock lf then queues.wakeLock lf true else queues) := by
  split
  case isTrue => exact transfers_wake lf (.inl rfl) kept
  case isFalse notDowngrade =>
  intro rel stable queued
  apply queued.replace
  intro request x mem valid isRel
  by_cases isLf : x = lf
  · subst isLf
    exact ⟨_, onList, rfl, { valid with }, stable _ _ _ isRel ⟨rfl, Int.le_refl _, by grind, notDowngrade⟩⟩
  · exact ⟨x, kept x mem isLf, rfl, valid, isRel⟩

variable (distinct : (locks.map (·.ref)).Nodup) (mem : lf ∈ locks) (onList : lock ∈ locks) (otherRef : lf.ref ≠ lock.ref)
include distinct mem onList otherRef

/-- A lock takes in another one, and its queue. -/
theorem transfers_absorb (lock' : Lockf) (onList' : lock' ∈ locks') (kept : ∀ x ∈ locks, x ≠ lf → x ≠ lock → x ∈ locks') (sameRef : lock'.ref = lock.ref)
    (valid : lock'.Valid) (wider : Wider lock lock') (widerLf : lf.Valid → Wider lf lock') :
    Transfers locks locks' queues (queues.moveBlocked lock.ref lf.ref) := by
  intro rel stable queued
  apply queued.move otherRef
  intro request x memX validX isRel
  by_cases isLf : x = lf
  · subst isLf
    rw [if_pos rfl]
    exact ⟨lock', onList', sameRef, valid, stable _ _ _ isRel (widerLf validX)⟩
  rw [if_neg fun same => isLf (inj_on_of_nodup_map distinct memX mem same)]
  by_cases isLock : x = lock
  · subst isLock
    exact ⟨lock', onList', sameRef, valid, stable _ _ _ isRel wider⟩
  · exact ⟨x, kept x memX isLf isLock, rfl, validX, isRel⟩

/-- A lock is deleted that is inside of another one of the owner. -/
theorem transfers_contained (kept : ∀ x ∈ locks, x ≠ lf → x ∈ locks') (valid : lock.Valid) (sameId : lf.lfId = lock.lfId)
    (describes : Overlap.containedByLock.Describes lf lock) :
    Transfers locks locks' queues (if IsDowngrade lock lf then queues.wakeLock lf true else queues.moveBlocked lock.ref lf.ref) := by
  split
  case isTrue => exact transfers_wake lf (.inl rfl) kept
  case isFalse notDowngrade =>
    have onList' : lock ∈ locks' := kept lock onList fun same => otherRef (congrArg _ same.symm)
    exact transfers_absorb distinct mem onList otherRef lock onList' (fun x memX isLf _ => kept x memX isLf) rfl valid
      ⟨rfl, Int.le_refl _, by grind, not_downgrade rfl⟩ fun _ => ⟨sameId.symm, describes.1, describes.2, notDowngrade⟩

end Transfers

end DarwinNotes.Xnu.Locks
