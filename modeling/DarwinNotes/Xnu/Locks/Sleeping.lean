import DarwinNotes.Xnu.Locks.Owners
import DarwinNotes.Xnu.Locks.Waiting

/-!
# Sleeping requests

Every request that sleeps and was not woken is on the queue of one lock, which conflicts with it. This
holds from step to step as long as the whole queue of a lock is woken when its bytes are cleared.
-/

namespace DarwinNotes.Xnu.Locks
open List

/-! ## One file -/

/-- What holds of requests and the locks they wait for is preserved. -/
def Preserves (file file' : File) : Prop := Transfers file.locks file'.locks file.queues file'.queues

structure FileSound (file : File) : Prop where
  grouped : Grouped file.locks
  distinct : (file.locks.map (·.ref)).Nodup

/-- A file has changed, and locks and addresses were added. -/
structure Changed (file file' : File) (added : List Lockf) (extra : List Ref) : Prop where
  sound : FileSound file'
  flags : ∀ lf ∈ file'.locks, FlagsFrom (added ++ file.locks) lf
  refs : ∀ ref ∈ file'.locks.map (·.ref), ref ∈ extra ++ file.locks.map (·.ref)
  preserves : Preserves file file'

/-- Setting the lock does not cut off a lock without a length at the last byte. -/
def SetWhole (locks : List Lockf) (lock : Lockf) : Prop :=
  lock.lfEnd = offMax → ∀ lf ∈ locks, lf.lfId = lock.lfId → lf.lfEnd = -1 → lf.lfType = lock.lfType

/-- Nor does clearing it. -/
def ClearWhole (locks : List Lockf) (unlock : Lockf) : Prop := unlock.lfEnd = offMax → ∀ lf ∈ locks, lf.lfId = unlock.lfId → lf.lfEnd ≠ -1

/-- Where bytes of a lock are cleared, its whole queue is woken. -/
def ClearWakesAll (file : File) (unlock : Lockf) : Prop :=
  ∀ lf ∈ file.locks, lf.lfId = unlock.lfId → ¬ Apart lf unlock → WakesAll file.queues lf false

section Files

variable {file file' : File} {lock : Lockf} {splitlock : Ref}

theorem FileSound.replace (sound : FileSound file) {id : Nat} {front mine back mine' : List Lockf}
    (together : Together file.locks id front mine back) {extra : List Ref} {isHeld : Int → LockType → Prop}
    (becomes : Becomes id mine extra isHeld mine') (distinct : (extra ++ file.locks.map (·.ref)).Nodup) {queues : Queues}
    {added : List Lockf} (flags : ∀ lf ∈ mine', FlagsFrom (added ++ mine) lf)
    (preserves : Preserves file { locks := front ++ mine' ++ back, queues := queues }) :
    Changed file { locks := front ++ mine' ++ back, queues := queues } added extra := by
  have refs : ((front ++ mine' ++ back).map (·.ref)).Subperm (extra ++ file.locks.map (·.ref)) := by
    rw [together.isList]
    exact refs_replace becomes.refs
  refine ⟨⟨sound.grouped.replace together becomes.own, nodup_of_subperm distinct refs⟩, ?_, fun ref mem => refs.subset mem, preserves⟩
  simp only [forall_mem_append, together.isList]
  exact ⟨⟨fun lf mem => flagsFrom_self (by simp [mem]), fun lf mem => (flags lf mem).mono (by grind)⟩, fun lf mem => flagsFrom_self (by simp [mem])⟩

variable (distinct : (lock.ref :: splitlock :: file.locks.map (·.ref)).Nodup)
include distinct

theorem grant_changed (sound : FileSound file) (validLock : lock.Valid)
    (whole : SetWhole file.locks lock) : ∃ locks queues, grant lock splitlock file.locks file.queues = .ok (locks, queues) ∧
      Changed file { locks := locks, queues := queues } [lock] [lock.ref, splitlock] := by
  obtain ⟨_, mine, _, together, isOwn⟩ := sound.grouped lock.lfId
  have sameBehind : SameBehind lock mine := by
    intro isMax lf mem infinite
    obtain ⟨onList, isId⟩ := together.mem.mp mem
    exact whole isMax lf onList isId infinite
  obtain ⟨_, queues, sets⟩ := grant_spec file.queues together isOwn validLock sameBehind distinct
  exact ⟨_, queues, sets.isGranted, sound.replace together sets.becomes distinct sets.flags sets.transfers⟩

theorem clear_changed (sound : FileSound file) (validLock : lock.Valid)
    (whole : ClearWhole file.locks lock) (wakesAll : ClearWakesAll file lock) :
    ∃ locks queues, clearLock lock splitlock file.locks file.queues = .ok (locks, queues) ∧
      Changed file { locks := locks, queues := queues } [] [splitlock] ∧ ∀ lf ∈ file.locks, lf.lfId ≠ lock.lfId → lf ∈ locks := by
  obtain ⟨_, mine, _, together, isOwn⟩ := sound.grouped lock.lfId
  have noWrap : NoWrap lock mine fun _ => False := by
    intro isMax lf mem infinite
    obtain ⟨onList, isId⟩ := together.mem.mp mem
    exact whole isMax lf onList isId infinite
  obtain ⟨_, queues, isCleared, becomes, flags, transfers⟩ := clearLock_spec together isOwn validLock noWrap distinct file.queues
  refine ⟨_, queues, isCleared, sound.replace together becomes (nodup_cons.mp distinct).2 flags (transfers ?_), ?_⟩
  · intro lf mem
    obtain ⟨onList, isId⟩ := together.mem.mp mem
    exact wakesAll lf onList isId
  · intro lf mem isOther
    rw [together.isList] at mem
    have notMine : lf ∉ mine := fun isMine => isOther (together.own lf isMine)
    grind

omit distinct

theorem detach_locks (lock : Lockf) (file : File) : (detach lock file).locks = file.locks := by
  rw [detach.eq_def]
  split <;> rfl

variable {rel : Ref → Lockf → Prop}

theorem detach_lfNext (request : Ref) :
    (detach lock file).queues.lfNext request = if request = lock.ref then none else file.queues.lfNext request := by
  rw [detach.eq_def]
  split
  case h_1 => simp only [Queues.remove, Function.update_apply]
  case h_2 isNone =>
    split
    case isTrue isLock => rw [isLock, isNone]
    case isFalse => rfl

theorem detach_preserves : Preserves file (detach lock file) := by
  intro rel stable queued
  refine ⟨fun isNext => ?_, fun request r => ?_⟩
  · rw [detach_lfNext] at isNext
    rw [detach_locks]
    split at isNext
    · cases isNext
    · exact queued.onList isNext
  · rw [detach_lfNext, detach.eq_def]
    split
    case h_1 =>
      simp only [Queues.remove, Function.update_apply, apply_ite (count request), count_erase, queued.once]
      grind
    case h_2 =>
      rw [queued.once]
      grind

/-- Only flags are changed. -/
theorem Grouped.map {locks : List Lockf} (grouped : Grouped locks) (flag : Lockf → Bool) :
    Grouped (locks.map fun lf => { lf with wake1Safe := flag lf }) := by
  let withFlag (lf : Lockf) : Lockf := { lf with wake1Safe := flag lf }
  intro id
  obtain ⟨front, mine, back, together, isOwn⟩ := grouped id
  refine ⟨front.map withFlag, mine.map withFlag, back.map withFlag, ⟨?_, forall_mem_map.mpr together.othersFront, forall_mem_map.mpr together.own,
    forall_mem_map.mpr together.othersBack, ?_⟩, pairwise_map.mpr isOwn.coalesced, ?_, forall_mem_map.mpr isOwn.own⟩
  · rw [together.isList, map_append, map_append]
  · rw [ne_eq, map_eq_nil_iff, map_eq_nil_iff]
    exact together.place
  · exact forall_mem_map.mpr fun lf mem => { isOwn.valid lf mem with }

theorem clearWake1Safe_changed (sound : FileSound file) (block : Ref) :
    Changed file { file with locks := clearWake1Safe block file.locks } [] [] := by
  have isMap : clearWake1Safe block file.locks = file.locks.map fun lf => { lf with wake1Safe := lf.wake1Safe && lf.ref ≠ block } := by
    apply map_congr_left
    intro lf _
    split <;> simp [*]
  have sameRefs : (clearWake1Safe block file.locks).map (·.ref) = file.locks.map (·.ref) := by
    rw [isMap, map_map]
    rfl
  refine ⟨⟨isMap ▸ sound.grouped.map _, sameRefs ▸ sound.distinct⟩, ?_, fun ref mem => sameRefs ▸ mem, fun rel stable queued => ?_⟩
  · simp only [isMap, forall_mem_map]
    exact fun lf mem => ⟨lf, mem, rfl, rfl, fun isSafe => (Bool.and_eq_true_iff.mp isSafe).1⟩
  · apply queued.replace
    intro request lf mem valid isRel
    rw [isMap]
    exact ⟨_, mem_map_of_mem mem, rfl, { valid with }, stable _ _ _ isRel ⟨rfl, Int.le_refl _, by grind, not_downgrade rfl⟩⟩

theorem Queued.insert {locks : List Lockf} {queues : Queues} (queued : Queued rel locks queues) {lf : Lockf} (onList : lf ∈ locks)
    (valid : lf.Valid) {request : Ref} (isRel : rel request lf) (unqueued : queues.lfNext request = none) (atHead : Bool)
    : Queued rel locks (queues.insert lf.ref request atHead) := by
  refine ⟨fun {request' r} isNext => ?_, fun request' r => ?_⟩
  · simp only [Queues.insert, Function.update_apply] at isNext
    split at isNext
    case isTrue isRequest => exact ⟨lf, onList, Option.some.inj isNext, valid, isRequest ▸ isRel⟩
    case isFalse => exact queued.onList isNext
  · have isCount : ((queues.insert lf.ref request atHead).blkhd r).count request' =
        (queues.blkhd r).count request' + if r = lf.ref ∧ request' = request then 1 else 0 := by
      simp only [Queues.insert, Function.update_apply]
      cases atHead <;> grind
    rw [isCount, queued.once]
    simp only [Queues.insert, Function.update_apply]
    grind

end Files

/-! ## The system -/

variable (sleeping : List Sleeper)

/-- A request that sleeps waits for a lock that conflicts with it. -/
def Waits (vnode : Nat) (request : Ref) (lf : Lockf) : Prop :=
  ∃ sleeper ∈ sleeping, sleeper.vnode = vnode ∧ sleeper.request.ref = request ∧ Blocks lf sleeper.request

theorem Blocks.wider {lf lf' lock : Lockf} (blocks : Blocks lf lock) (wider : Wider lf lf') : Blocks lf' lock := by
  obtain ⟨otherId, overlaps, conflict⟩ := blocks
  obtain ⟨sameId, _, _, notDowngrade⟩ := wider
  refine ⟨sameId ▸ otherId, ?_, ?_⟩
  · rw [Apart] at overlaps ⊢
    omega
  rcases conflict with isWrite | isWrite
  · exact .inl isWrite
  · refine .inr ?_
    by_contra notWrite
    have isRead : lf'.lfType = .rdlck := by
      cases isType : lf'.lfType with
      | rdlck => rfl
      | wrlck => exact absurd isType notWrite
    exact notDowngrade ⟨isRead, isWrite⟩

theorem waits_stable (vnode : Nat) : Stable (Waits sleeping vnode) := by
  rintro _ _ _ ⟨sleeper, mem, isVnode, isRequest, blocks⟩ wider
  exact ⟨sleeper, mem, isVnode, isRequest, blocks.wider wider⟩

structure Sound (system : System) : Prop where
  files : ∀ vnode, FileSound (system.files vnode)
  allocated : ∀ vnode, ∀ ref ∈ (system.files vnode).locks.map (·.ref), ref < system.fresh
  queued : ∀ vnode, Queued (Waits system.sleeping vnode) (system.files vnode).locks (system.files vnode).queues
  threads : (system.sleeping.map (·.thread)).Nodup
  requests : (system.sleeping.map (·.request.ref)).Nodup
  valid : ∀ sleeper ∈ system.sleeping, sleeper.request.Valid
  pending : ∀ sleeper ∈ system.sleeping, sleeper.request.ref < system.fresh
  offList : ∀ sleeper ∈ system.sleeping, sleeper.request.ref ∉ (system.files sleeper.vnode).locks.map (·.ref)

/-- A request is about to be tried. -/
structure Ready (system : System) (vnode : Nat) (lock : Lockf) : Prop where
  sound : Sound system
  valid : lock.Valid
  allocated : lock.ref < system.fresh
  offList : lock.ref ∉ (system.files vnode).locks.map (·.ref)
  awake : ∀ sleeper ∈ system.sleeping, sleeper.request.ref ≠ lock.ref

section Ready

variable {system : System} {vnode : Nat} {lock : Lockf} (ready : Ready system vnode lock)
include ready

theorem Ready.distinct : (lock.ref :: system.fresh :: (system.files vnode).locks.map (·.ref)).Nodup := by
  rw [nodup_cons, nodup_cons, mem_cons]
  refine ⟨?_, ?_, (ready.sound.files vnode).distinct⟩
  · rintro (same | mem)
    · exact Nat.lt_irrefl _ (same ▸ ready.allocated)
    · exact ready.offList mem
  · intro mem
    exact Nat.lt_irrefl _ (ready.sound.allocated vnode _ mem)

theorem Ready.emptyQueue : (system.files vnode).queues.blkhd lock.ref = [] := by
  rw [eq_nil_iff_forall_not_mem]
  intro request isQueued
  have queued := ready.sound.queued vnode
  obtain ⟨_, mem, isRef, -⟩ := queued.onList ((queued.next _ _).mp isQueued)
  exact ready.offList (isRef ▸ mem_map_of_mem mem)

omit ready

theorem Sound.waits (sound : Sound system) {file : File} {added : List Lockf} {extra : List Ref}
    (changed : Changed (system.files vnode) file added extra) : Queued (Waits system.sleeping vnode) file.locks file.queues :=
  changed.preserves _ (waits_stable _ _) (sound.queued _)

/-- The file of the vnode changes, and nothing else does. -/
theorem Sound.setFile (sound : Sound system) {file : File} {added : List Lockf} {extra : List Ref}
    (changed : Changed (system.files vnode) file added extra) {queues : Queues} (queued : Queued (Waits system.sleeping vnode) file.locks queues)
    {fresh : Ref} (grows : system.fresh ≤ fresh) (isNew : ∀ ref ∈ extra, ref < fresh)
    (unused : ∀ ref ∈ extra, ∀ sleeper ∈ system.sleeping, sleeper.request.ref ≠ ref) :
    Sound { system.setFile vnode { file with queues := queues } with fresh := fresh } := by
  have allocated : ∀ vnode', ∀ ref ∈ (system.files vnode').locks.map (·.ref), ref < fresh :=
    fun vnode' ref mem => Nat.lt_of_lt_of_le (sound.allocated vnode' ref mem) grows
  refine ⟨System.forall_setFile { changed.sound with } sound.files, ?_, ?_, sound.threads, sound.requests, sound.valid, ?_, ?_⟩
  · refine System.forall_setFile (P := fun _ file => ∀ ref ∈ file.locks.map (·.ref), ref < fresh) (fun ref mem => ?_) allocated
    rcases mem_append.mp (changed.refs ref mem) with isExtra | isOld
    · exact isNew ref isExtra
    · exact allocated _ ref isOld
  · exact System.forall_setFile (P := fun vnode' file => Queued (Waits system.sleeping vnode') file.locks file.queues) queued sound.queued
  · exact fun sleeper mem => Nat.lt_of_lt_of_le (sound.pending sleeper mem) grows
  · intro sleeper mem
    refine System.forall_setFile (P := fun vnode' file => sleeper.vnode = vnode' → sleeper.request.ref ∉ file.locks.map (·.ref))
      (fun same onList => ?_) (fun vnode' same => same ▸ sound.offList sleeper mem) _ rfl
    rcases mem_append.mp (changed.refs _ onList) with isExtra | isOld
    · exact unused _ isExtra sleeper mem rfl
    · exact sound.offList sleeper mem (same ▸ isOld)

end Ready

/-! ## Trying a request -/

section Trying

variable {uthlist : Nat → List Nat} {system : System} {thread vnode : Nat} {lock : Lockf}

theorem Sound.lockf_next (sound : Sound system) {request ref : Ref} (isNext : (system.files vnode).queues.lfNext request = some ref) :
    ∃ lf ∈ (system.files vnode).locks, lf.ref = ref ∧ system.lockf vnode ref = some lf ∧ Waits system.sleeping vnode request lf := by
  obtain ⟨lf, mem, rfl, -, waits⟩ := (sound.queued vnode).onList isNext
  refine ⟨lf, mem, rfl, ?_, waits⟩
  rw [System.lockf, find?_append]
  cases isFound : (system.files vnode).locks.find? (·.ref = lf.ref) with
  | none => exact absurd (decide_eq_true rfl) (find?_eq_none.mp isFound lf mem)
  | some lf' =>
    have sameRef := find?_some isFound
    rw [decide_eq_true_eq] at sameRef
    rw [inj_on_of_nodup_map (sound.files vnode).distinct (mem_of_find?_eq_some isFound) mem sameRef]
    rfl

theorem checkThread_ok (sound : Sound system) (lock : Lockf) (ut depth : Nat) :
    ∃ result, checkThread system lock ut depth = .ok result := by
  induction depth with
  | zero => exact ⟨_, rfl⟩
  | succ depth ih =>
    rw [checkThread]
    split
    case h_1 => exact ⟨_, rfl⟩
    case h_2 sleeper _ =>
    split
    case h_1 => exact ⟨_, rfl⟩
    case h_2 ref isNext =>
    obtain ⟨_, -, -, isFound, -⟩ := sound.lockf_next isNext
    simp only [isFound]
    split
    · exact ⟨_, rfl⟩
    · split
      · exact ⟨_, rfl⟩
      · exact ih

theorem checkDeadlock_ok (sound : Sound system) (uthlist : Nat → List Nat) (lock block : Lockf) :
    ∃ deadlock, checkDeadlock system lock uthlist block = .ok deadlock := by
  have threads : ∀ threads depth, ∃ deadlock, checkThreads system lock threads depth = .ok deadlock := by
    intro threads
    induction threads with
    | nil => exact fun _ => ⟨_, rfl⟩
    | cons ut threads ih =>
      intro depth
      obtain ⟨⟨deadlock, depth'⟩, isChecked⟩ := checkThread_ok sound lock ut depth
      simp only [checkThreads, isChecked, bind, Except.bind]
      cases deadlock with
      | true => exact ⟨_, rfl⟩
      | false => exact ih depth'
  rw [checkDeadlock]
  split
  · exact threads _ _
  · exact ⟨_, rfl⟩

/-- What comes of trying a request. -/
inductive Tried (uthlist : Nat → List Nat) (system : System) (thread vnode : Nat) (lock : Lockf) : System → Option Answer → Prop
  | granted {file : File} (free : getBlock lock (system.files vnode).locks = .ok none)
    (changed : Changed (system.files vnode) file [lock] [lock.ref, system.fresh]) :
    Tried uthlist system thread vnode lock { system.setFile vnode file with fresh := system.fresh + 1 } (some .done)
  | refused {block : Lockf} (isBlock : getBlock lock (system.files vnode).locks = .ok (some block)) (noWait : lock.wait = false) :
    Tried uthlist system thread vnode lock system (some (.error .EAGAIN))
  | deadlock {block : Lockf} (isBlock : getBlock lock (system.files vnode).locks = .ok (some block)) (waits : lock.wait = true)
    (isDeadlock : checkDeadlock system lock uthlist block = .ok true) :
    Tried uthlist system thread vnode lock system (some (.error .EDEADLK))
  | asleep {block block' : Lockf} {file : File} {atHead : Bool}
    (isBlock : getBlock lock (system.files vnode).locks = .ok (some block)) (waits : lock.wait = true)
    (noDeadlock : checkDeadlock system lock uthlist block = .ok false)
    (changed : Changed (system.files vnode) file [] [system.fresh]) (onList : block' ∈ file.locks) (sameRef : block'.ref = block.ref)
    (sameId : block'.lfId = block.lfId) (blocks : Blocks block' lock) : Tried uthlist system thread vnode lock
      { system.setFile vnode { file with queues := file.queues.insert block.ref lock.ref atHead } with
        sleeping := system.sleeping ++ [{ thread := thread, vnode := vnode, request := lock }], fresh := system.fresh + 1 } none

/-- A request can be tried: no lock is cut off at the last byte, and if shared locks are given up, all that wait for them are woken. -/
structure CanTry (file : File) (lock : Lockf) : Prop where
  whole : SetWhole file.locks lock
  wholeShared : lock.posix = false → lock.lfType = .wrlck → ClearWhole file.locks lock
  wakesAll : lock.posix = false → lock.lfType = .wrlck → ClearWakesAll file lock

variable {file : File}

theorem Changed.refl (sound : FileSound file) : Changed file file [] [] :=
  ⟨sound, fun _ => flagsFrom_self, fun _ mem => mem, fun _ _ queued => queued⟩

theorem Changed.extra {file' : File} {added : List Lockf} {extra extra' : List Ref} (changed : Changed file file' added extra)
    (isSubset : ∀ ref ∈ extra, ref ∈ extra') : Changed file file' added extra' := by
  refine ⟨changed.sound, changed.flags, fun ref mem => ?_, changed.preserves⟩
  rcases mem_append.mp (changed.refs ref mem) with isExtra | isOld
  · exact mem_append_left _ (isSubset ref isExtra)
  · exact mem_append_right _ isOld

theorem Changed.trans_nil {file' file'' : File} {added : List Lockf} {extra : List Ref} (first : Changed file file' added extra)
    (second : Changed file' file'' [] []) : Changed file file'' added extra := by
  exact ⟨second.sound, fun lf mem => (second.flags lf mem).trans first.flags, fun ref mem => first.refs ref (second.refs ref mem),
    Transfers.trans first.preserves second.preserves⟩

variable (ready : Ready system vnode lock)
include ready

theorem giveUpShared_changed (canTry : CanTry (system.files vnode) lock) :
    ∃ file, giveUpShared system vnode lock = .ok file ∧ Changed (system.files vnode) file [] [system.fresh] ∧
      ∀ lf ∈ (system.files vnode).locks, lf.lfId ≠ lock.lfId → lf ∈ file.locks := by
  rw [giveUpShared]
  split
  case isTrue isExclusive =>
    have notPosix : lock.posix = false := by simpa using isExclusive.1
    obtain ⟨locks, _, isCleared, changed, kept⟩ := clear_changed ready.distinct (ready.sound.files vnode) ready.valid
      (canTry.wholeShared notPosix isExclusive.2) (canTry.wakesAll notPosix isExclusive.2)
    refine ⟨_, ?_, changed, kept⟩
    simp only [isCleared, bind, Except.bind]
    rfl
  case isFalse => exact ⟨_, rfl, (Changed.refl (ready.sound.files vnode)).extra (by simp), fun lf mem _ => mem⟩

theorem setLock_tried (canTry : CanTry (system.files vnode) lock) (donor : Bool) :
    ∃ system' answer, setLock uthlist system thread vnode lock donor = .ok (system', answer) ∧
      Tried uthlist system thread vnode lock system' answer := by
  obtain ⟨block, isBlock, spec⟩ := getBlock_spec lock (system.files vnode).locks
  simp only [setLock, isBlock, bind, Except.bind]
  cases block with
  | none =>
    obtain ⟨locks, _, isGranted, changed⟩ := grant_changed ready.distinct (ready.sound.files vnode) ready.valid canTry.whole
    simp only [isGranted]
    exact ⟨_, _, rfl, .granted isBlock changed⟩
  | some block =>
    cases isWait : lock.wait with
    | false => exact ⟨_, _, rfl, .refused isBlock isWait⟩
    | true =>
      obtain ⟨deadlock, isChecked⟩ := checkDeadlock_ok ready.sound uthlist lock block
      simp only [isChecked]
      cases deadlock with
      | true => exact ⟨_, _, rfl, .deadlock isBlock isWait isChecked⟩
      | false =>
        obtain ⟨file, isGivenUp, changed, kept⟩ := giveUpShared_changed ready canTry
        simp only [isGivenUp]
        obtain ⟨onList, blocks⟩ := spec
        have stillOn := kept block onList blocks.1
        refine ⟨_, _, rfl, ?_⟩
        cases isPosix : lock.posix with
        | true =>
          have onCleared : { block with wake1Safe := false } ∈ clearWake1Safe block.ref file.locks :=
            mem_map.mpr ⟨block, stillOn, if_pos rfl⟩
          simp only [sleep, isPosix, if_true]
          exact .asleep isBlock isWait isChecked (changed.trans_nil (clearWake1Safe_changed changed.sound block.ref)) onCleared rfl rfl
            (blocks.wider ⟨rfl, Int.le_refl _, by grind, not_downgrade rfl⟩)
        | false =>
          simp only [sleep, isPosix, Bool.false_eq_true, if_false]
          exact .asleep isBlock isWait isChecked changed stillOn rfl rfl blocks

omit ready in
theorem Waits.mono {sleeping sleeping' : List Sleeper} (isSubset : ∀ sleeper ∈ sleeping, sleeper ∈ sleeping') {request : Ref} {lf : Lockf}
    (waits : Waits sleeping vnode request lf) : Waits sleeping' vnode request lf := by
  obtain ⟨sleeper, mem, isWaiting⟩ := waits
  exact ⟨sleeper, isSubset sleeper mem, isWaiting⟩

omit ready in
theorem Queued.imp {rel rel' : Ref → Lockf → Prop} {locks : List Lockf} {queues : Queues} (queued : Queued rel locks queues)
    (imp : ∀ request lf, queues.lfNext request = some lf.ref → rel request lf → rel' request lf) : Queued rel' locks queues := by
  refine ⟨fun isNext => ?_, queued.once⟩
  obtain ⟨lf, mem, rfl, valid, isRel⟩ := queued.onList isNext
  exact ⟨lf, mem, rfl, valid, imp _ lf isNext isRel⟩

/-- The file has changed before the thread sleeps. -/
theorem Ready.sound_setFile (changed : Changed (system.files vnode) file [] [system.fresh]) :
    Sound { system.setFile vnode file with fresh := system.fresh + 1 } := by
  apply ready.sound.setFile changed (ready.sound.waits changed) (Nat.le_succ _)
  · simp
  · simpa using fun sleeper mem => Nat.ne_of_lt (ready.sound.pending sleeper mem)

theorem Ready.sleep (awake : system.wchan thread = none) {block : Lockf} (changed : Changed (system.files vnode) file [] [system.fresh])
    (onList : block ∈ file.locks) (blocks : Blocks block lock) (atHead : Bool)
    : Sound { system.setFile vnode { file with queues := file.queues.insert block.ref lock.ref atHead } with
      sleeping := system.sleeping ++ [{ thread := thread, vnode := vnode, request := lock }], fresh := system.fresh + 1 } := by
  have sound := ready.sound
  have newThread : thread ∉ system.sleeping.map (·.thread) := by
    intro mem
    obtain ⟨sleeper, mem, isThread⟩ := mem_map.mp mem
    exact absurd (decide_eq_true isThread) (find?_eq_none.mp awake sleeper mem)
  have newRequest : lock.ref ∉ system.sleeping.map (·.request.ref) := by
    intro mem
    obtain ⟨sleeper, mem, isRequest⟩ := mem_map.mp mem
    exact ready.awake sleeper mem isRequest
  have unqueued : file.queues.lfNext lock.ref = none := by
    rw [Option.eq_none_iff_forall_ne_some]
    intro r isNext
    obtain ⟨_, -, -, -, sleeper, mem, -, isRequest, -⟩ := (sound.waits changed).onList isNext
    exact ready.awake sleeper mem isRequest
  -- the request joins the sleepers before it is on a queue
  have joined : Sound { system with sleeping := system.sleeping ++ [⟨thread, vnode, lock⟩] } := by
    refine ⟨sound.files, sound.allocated, fun vnode' => ?_, ?_, ?_, ?_, ?_, ?_⟩
    · exact (sound.queued vnode').imp fun _ _ _ waits => waits.mono fun _ => mem_append_left _
    · rw [map_append, (perm_append_comm).nodup_iff]
      exact nodup_cons.mpr ⟨newThread, sound.threads⟩
    · rw [map_append, (perm_append_comm).nodup_iff]
      exact nodup_cons.mpr ⟨newRequest, sound.requests⟩
    · exact forall_mem_append.mpr ⟨sound.valid, forall_mem_singleton.mpr ready.valid⟩
    · exact forall_mem_append.mpr ⟨sound.pending, forall_mem_singleton.mpr ready.allocated⟩
    · exact forall_mem_append.mpr ⟨sound.offList, forall_mem_singleton.mpr ready.offList⟩
  have waits : Waits (system.sleeping ++ [⟨thread, vnode, lock⟩]) vnode lock.ref block :=
    ⟨_, mem_append_right _ (mem_singleton_self _), rfl, rfl, blocks⟩
  refine joined.setFile changed ((joined.waits changed).insert onList (changed.sound.grouped.valid onList) waits unqueued atHead) (Nat.le_succ _) ?_ ?_
  · simp
  · simpa using fun sleeper mem => Nat.ne_of_lt (joined.pending sleeper mem)

/-- The system is sound after a request was tried. -/
theorem Tried.sound (awake : system.wchan thread = none) {system' : System} {answer : Option Answer}
    (tried : Tried uthlist system thread vnode lock system' answer) : Sound system' := by
  cases tried with
  | granted free changed =>
    refine ready.sound.setFile changed (ready.sound.waits changed) (Nat.le_succ _) ?_ ?_
    · simp only [forall_mem_cons]
      exact ⟨Nat.lt_succ_of_lt ready.allocated, Nat.lt_succ_self _, by simp⟩
    · simp only [forall_mem_cons]
      exact ⟨ready.awake, fun sleeper mem => Nat.ne_of_lt (ready.sound.pending sleeper mem), by simp⟩
  | refused | deadlock => exact ready.sound
  | asleep isBlock waits noDeadlock changed onList sameRef sameId blocks =>
    rw [← sameRef]
    exact ready.sleep awake changed onList blocks _

end Trying

end DarwinNotes.Xnu.Locks
