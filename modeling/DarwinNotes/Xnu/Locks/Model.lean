import Mathlib

/-!
# Advisory locks (`kern_lockf.c`)

The locks of a file are on one list, those of one owner next to each other and in the order of their
ranges. An end of -1 stands for the end of the file, however large it is. A lock that is set or cleared is compared
with each lock of its owner that it overlaps, and those are split, shrunk or deleted. A request that
another owner's lock blocks may wait on the queue of that lock.

The list is a list here, and the pointer `prev` into it splits it in two. Memory is always
there.
-/

namespace DarwinNotes.Xnu.Locks

/-- `OFF_MAX` -/
def offMax : Int := 2 ^ 63 - 1

/-- The number after an `off_t`, which comes round. -/
def offSucc (offset : Int) : Int := Int.bmod (offset + 1) (2 ^ 64)

/-- `F_RDLCK` and `F_WRLCK` -/
inductive LockType
  | rdlck
  | wrlck
deriving DecidableEq, Repr

/-- The address of a `struct lockf`. -/
abbrev Ref := Nat

/-- `struct lockf`, with its flags, except the queue and the pointer to another lock. -/
structure Lockf where
  ref : Ref
  posix : Bool
  wait : Bool
  wake1Safe : Bool
  lfType : LockType
  lfStart : Int
  lfEnd : Int
  lfId : Nat
deriving DecidableEq, Repr

/-- What must not happen. -/
inductive Fault
  /-- "lf_findoverlap: default" -/
  | panic
  /-- A lock that is on the list is linked or freed, or locks between two others are lost. -/
  | corrupt
  /-- The loop is not over. -/
  | fuel
deriving DecidableEq, Repr

/-! ## Overlapping locks -/

/-- `overlap_t`, but for `OVERLAP_NONE` -/
inductive Overlap
  | equalsLock
  | containsLock
  | containedByLock
  | startsBeforeLock
  | endsAfterLock
deriving DecidableEq, Repr

/-- Case 0. -/
def Apart (lf lock : Lockf) : Prop := (lf.lfEnd ≠ -1 ∧ lf.lfEnd < lock.lfStart) ∨ (lock.lfEnd ≠ -1 ∧ lock.lfEnd < lf.lfStart)

instance (lf lock : Lockf) : Decidable (Apart lf lock) := inferInstanceAs (Decidable (_ ∨ _))

def overlapCase (lf lock : Lockf) : Except Fault Overlap :=
  if lf.lfStart = lock.lfStart ∧ lf.lfEnd = lock.lfEnd then .ok .equalsLock
  else if lf.lfStart ≤ lock.lfStart ∧ lock.lfEnd ≠ -1 ∧ (lock.lfEnd ≤ lf.lfEnd ∨ lf.lfEnd = -1) then .ok .containsLock
  else if lock.lfStart ≤ lf.lfStart ∧ (lock.lfEnd = -1 ∨ (lf.lfEnd ≠ -1 ∧ lf.lfEnd ≤ lock.lfEnd)) then
    .ok .containedByLock
  else if lf.lfStart < lock.lfStart ∧ (lock.lfStart ≤ lf.lfEnd ∨ lf.lfEnd = -1) then .ok .startsBeforeLock
  else if lock.lfStart < lf.lfStart ∧ lock.lfEnd ≠ -1 ∧ (lock.lfEnd < lf.lfEnd ∨ lf.lfEnd = -1) then
    .ok .endsAfterLock
  else .error .panic

/-- `SELF` and `OTHERS` -/
inductive Check
  | self
  | others
deriving DecidableEq, Repr

/-- What `lf_findoverlap` returns: the locks that it went past, and those that are left. -/
inductive Found
  | nothing (skipped rest : List Lockf)
  | overlap (ovcase : Overlap) (skipped : List Lockf) (overlap : Lockf) (rest : List Lockf)

def Found.skip (lf : Lockf) : Found → Found
  | nothing skipped rest => nothing (lf :: skipped) rest
  | overlap ovcase skipped lock rest => overlap ovcase (lf :: skipped) lock rest

/-- `lf_findoverlap` -/
def findOverlap (lock : Lockf) (check : Check) : Bool → List Lockf → Except Fault Found
  | _, [] => .ok (.nothing [] [])
  | foundSelf, lf :: locks =>
    if (check = .self ∧ lf.lfId ≠ lock.lfId) ∨ (check = .others ∧ lf.lfId = lock.lfId) then
      if check = .self ∧ foundSelf then .ok (.nothing [] (lf :: locks))
      else (findOverlap lock check foundSelf locks).map (.skip lf)
    else if Apart lf lock then
      if check = .self ∧ lock.lfEnd ≠ -1 ∧ lock.lfEnd < lf.lfStart then .ok (.nothing [] (lf :: locks))
      else (findOverlap lock check (foundSelf || check = .self) locks).map (.skip lf)
    else (overlapCase lf lock).map fun ovcase => .overlap ovcase [] lf locks

/-- The loop of `lf_getblock`. -/
def getBlockLoop (lock : Lockf) : Nat → List Lockf → Except Fault (Option Lockf)
  | 0, _ => .error .fuel
  | fuel + 1, locks => do
    match ← findOverlap lock .others false locks with
    | .nothing _ _ => return none
    | .overlap _ _ overlap rest =>
      if lock.lfType = .wrlck ∨ overlap.lfType = .wrlck then return some overlap
      else getBlockLoop lock fuel rest

/-- `lf_getblock` -/
def getBlock (lock : Lockf) (locks : List Lockf) : Except Fault (Option Lockf) := getBlockLoop lock (locks.length + 1) locks

/-! ## The queues -/

/-- The queue `lf_blkhd` of each lock, and for each request the lock that blocks it. -/
structure Queues where
  blkhd : Ref → List Ref
  lfNext : Ref → Option Ref

/-- `lf_move_blocked` -/
def Queues.moveBlocked (queues : Queues) (target source : Ref) : Queues where
  blkhd := Function.update (Function.update queues.blkhd source []) target (queues.blkhd target ++ queues.blkhd source)
  lfNext := fun request => if request ∈ queues.blkhd source then some target else queues.lfNext request

/-- `lf_wakelock`. If only the first request is woken, the others wait for it. -/
def Queues.wakeLock (queues : Queues) (listhead : Lockf) (forceAll : Bool) : Queues :=
  match queues.blkhd listhead.ref with
  | [] => queues
  | wakelock :: others =>
    if forceAll ∨ ¬ listhead.wake1Safe then
      { blkhd := Function.update queues.blkhd listhead.ref []
        lfNext := fun request => if request ∈ wakelock :: others then none else queues.lfNext request }
    else
      let queues : Queues :=
        { blkhd := Function.update queues.blkhd listhead.ref others
          lfNext := Function.update queues.lfNext wakelock none }
      if others = [] then queues else
        { blkhd := Function.update (Function.update queues.blkhd listhead.ref []) wakelock
            (queues.blkhd wakelock ++ others)
          lfNext := fun request => if request ∈ queues.blkhd wakelock ++ others then some wakelock else queues.lfNext request }

/-! ## Setting a lock -/

/-- `lf_split`: what is in the place of the first lock. -/
def split (splitlock : Ref) (lock1 lock2 : Lockf) : List Lockf :=
  if lock1.lfStart = lock2.lfStart then [lock2, { lock1 with lfStart := offSucc lock2.lfEnd }]
  else if lock1.lfEnd = lock2.lfEnd then [{ lock1 with lfEnd := lock2.lfStart - 1 }, lock2]
  else
    [{ lock1 with lfEnd := lock2.lfStart - 1 }, lock2,
      { lock1 with ref := splitlock, lfStart := offSucc lock2.lfEnd }]

/-- Whether others may acquire an overlapping lock now. -/
def IsDowngrade (lock overlap : Lockf) : Prop := lock.lfType = .rdlck ∧ overlap.lfType = .wrlck

instance (lock overlap : Lockf) : Decidable (IsDowngrade lock overlap) := inferInstanceAs (Decidable (_ ∧ _))

section Setting

variable (lock : Lockf) (splitlock : Ref)

/-- The lock, where it has yet to be linked. -/
def linked (needtolink : Bool) : List Lockf := if needtolink then [lock] else []

/-- The loop of `lf_setlock` over the locks of the owner, with the locks in front of `prev`. It gives the
list, the queues, and the lock that is granted. -/
def grantLoop : Nat → Queues → List Lockf → Bool → List Lockf → Except Fault (List Lockf × Queues × Lockf)
  | 0, _, _, _, _ => .error .fuel
  | fuel + 1, queues, before, needtolink, block => do
    match ← findOverlap lock .self false block with
    | .nothing skipped rest => return (before ++ skipped ++ linked lock needtolink ++ rest, queues, lock)
    | .overlap .equalsLock skipped overlap rest =>
      if needtolink then
        let queues := if IsDowngrade lock overlap then queues.wakeLock overlap true else queues
        let overlap := { overlap with lfType := lock.lfType }
        return (before ++ skipped ++ overlap :: rest, queues, overlap)
      else throw .corrupt
    | .overlap .containsLock skipped overlap rest =>
      if needtolink then
        if overlap.lfType = lock.lfType then return (before ++ skipped ++ overlap :: rest, queues, overlap)
        else
          let pieces := if overlap.lfStart = lock.lfStart then [lock, { overlap with lfStart := offSucc lock.lfEnd }]
            else split splitlock overlap lock
          return (before ++ skipped ++ pieces ++ rest, queues.wakeLock overlap true, lock)
      else throw .corrupt
    | .overlap .containedByLock skipped overlap rest =>
      let queues := if IsDowngrade lock overlap then queues.wakeLock overlap true
        else queues.moveBlocked lock.ref overlap.ref
      grantLoop fuel queues (before ++ skipped ++ linked lock needtolink) false rest
    | .overlap .startsBeforeLock skipped overlap rest =>
      if needtolink then
        grantLoop fuel (queues.wakeLock overlap true)
          (before ++ skipped ++ [{ overlap with lfEnd := lock.lfStart - 1 }, lock]) false rest
      else throw .corrupt
    | .overlap .endsAfterLock skipped overlap rest =>
      return (before ++ skipped ++ linked lock needtolink ++ { overlap with lfStart := offSucc lock.lfEnd } :: rest,
        queues.wakeLock overlap true, lock)

/-- The loop of `lf_coalesce_adjacent`; the lock on the list is replaced by what has become of it at the
end. Two locks that are adjacent on the number line are assumed to be adjacent on the list. -/
def coalesceLoop : Lockf → Queues → List Lockf → List Lockf → Except Fault (List Lockf × Queues)
  | lock, queues, before, [] => .ok (before.map fun lf => if lf.ref = lock.ref then lock else lf, queues)
  | lock, queues, before, lf :: locks =>
    if lf.ref = lock.ref ∨ lf.lfId ≠ lock.lfId ∨ lf.lfType ≠ lock.lfType then
      coalesceLoop lock queues (before ++ [lf]) locks
    else if lf.lfEnd ≠ -1 ∧ offSucc lf.lfEnd = lock.lfStart then
      match locks with
      | next :: locks =>
        if next.ref = lock.ref then
          coalesceLoop { lock with lfStart := lf.lfStart } (queues.moveBlocked lock.ref lf.ref) (before ++ [next]) locks
        else .error .corrupt
      | [] => .error .corrupt
    else if lock.lfEnd ≠ -1 ∧ offSucc lock.lfEnd = lf.lfStart then
      if before.getLast?.map (·.ref) = some lock.ref then
        coalesceLoop { lock with lfEnd := lf.lfEnd } (queues.moveBlocked lock.ref lf.ref) before locks
      else .error .corrupt
    else coalesceLoop lock queues (before ++ [lf]) locks

/-- The grant part of `lf_setlock`. -/
def grant (locks : List Lockf) (queues : Queues) : Except Fault (List Lockf × Queues) := do
  let (locks, queues, lock) ← grantLoop lock splitlock (locks.length + 1) queues [] true locks
  coalesceLoop lock queues [] locks

end Setting

/-! ## Clearing a lock -/

section Clearing

variable (unlock : Lockf) (splitlock : Ref)

/-- The loop of `lf_clearlock`. -/
def clearLoop : Nat → Queues → List Lockf → List Lockf → Except Fault (List Lockf × Queues)
  | 0, _, _, _ => .error .fuel
  | fuel + 1, queues, before, lf => do
    match ← findOverlap unlock .self false lf with
    | .nothing skipped rest => return (before ++ skipped ++ rest, queues)
    | .overlap ovcase skipped overlap rest =>
      let queues := queues.wakeLock overlap false
      match ovcase with
      | .equalsLock => return (before ++ skipped ++ rest, queues)
      | .containsLock =>
        if overlap.lfStart = unlock.lfStart then
          return (before ++ skipped ++ { overlap with lfStart := offSucc unlock.lfEnd } :: rest, queues)
        else
          -- `overlap->lf_next = unlock->lf_next` takes the unlock off the list again
          return (before ++ skipped ++ (split splitlock overlap unlock).filter (·.ref ≠ unlock.ref) ++ rest, queues)
      | .containedByLock => clearLoop fuel queues (before ++ skipped) rest
      | .startsBeforeLock => clearLoop fuel queues (before ++ skipped ++ [{ overlap with lfEnd := unlock.lfStart - 1 }]) rest
      | .endsAfterLock => return (before ++ skipped ++ { overlap with lfStart := offSucc unlock.lfEnd } :: rest, queues)

/-- `lf_clearlock` -/
def clearLock (locks : List Lockf) (queues : Queues) : Except Fault (List Lockf × Queues) :=
  clearLoop unlock splitlock (locks.length + 1) queues [] locks

end Clearing

/-! ## Requests that do not wait -/

inductive Whence
  | seekSet
  | seekCur
  | seekEnd
  | other
deriving DecidableEq, Repr

inductive Errno
  | EAGAIN
  | EDEADLK
  | EINTR
  | EINVAL
  | EOVERFLOW
  | ETIMEDOUT
deriving DecidableEq, Repr

/-- The start in the flock structure, from the start of the file; `size` is that of the file. -/
def convertStart (size : Nat) (whence : Whence) (lStart : Int) : Except Errno Int :=
  match whence with
  | .seekSet | .seekCur => .ok lStart
  | .seekEnd => if offMax < size ∨ (0 < lStart ∧ offMax - lStart < size) then .error .EOVERFLOW else .ok (size + lStart)
  | .other => .error .EINVAL

/-- The start and end that the flock structure is converted to. -/
def convertRange (size : Nat) (whence : Whence) (lStart lLen : Int) : Except Errno (Int × Int) := do
  let start ← convertStart size whence lStart
  if start < 0 then .error .EINVAL
  else if lLen < 0 then
    if start = 0 ∨ start + lLen < 0 then .error .EINVAL else .ok (start + lLen, start - 1)
  else if lLen = 0 then .ok (start, -1)
  else if offMax - start < lLen - 1 then .error .EOVERFLOW
  else .ok (start, start + (lLen - 1))

/-- `a_op` -/
inductive Op
  | setlk
  | unlck
  | getlk
deriving DecidableEq, Repr

/-- The values of an `off_t`. -/
def IsOff (offset : Int) : Prop := -2 ^ 63 ≤ offset ∧ offset ≤ offMax

instance (offset : Int) : Decidable (IsOff offset) := inferInstanceAs (Decidable (_ ∧ _))

theorem isOff_zero : IsOff 0 := by decide

theorem isOff_one : IsOff 1 := by decide

theorem isOff_two : IsOff 2 := by decide

/-- `struct vnop_advlock_args` of a request that does not wait. -/
structure Request where
  op : Op
  id : Nat
  posix : Bool
  lType : LockType
  whence : Whence
  lStart : Int
  lLen : Int
  size : Nat
  isOffStart : IsOff lStart
  isOffLen : IsOff lLen

/-- What `lf_getlock` writes to the flock structure. -/
structure Flock where
  lType : LockType
  lStart : Int
  lLen : Int
  lPid : Int
deriving DecidableEq, Repr

/-- What the caller gets: an error number, success, or the answer of `F_GETLK`, `none` for `F_UNLCK`. -/
inductive Answer
  | error (errno : Errno)
  | done
  | flock (answer : Option Flock)
deriving DecidableEq, Repr

/-- `lf_getlock` -/
def getLock (lock : Lockf) (locks : List Lockf) : Except Fault (Option Flock) := do
  match ← getBlock lock locks with
  | none => return none
  | some block =>
    return some
      { lType := block.lfType
        lStart := block.lfStart
        lLen := if block.lfEnd = -1 then 0 else block.lfEnd - block.lfStart + 1
        lPid := if block.posix then block.lfId else -1 }

def Request.range (request : Request) : Except Errno (Int × Int) := convertRange request.size request.whence request.lStart request.lLen

/-- The lockf structure that `lf_advlock` creates. -/
def Request.lockf (request : Request) (ref : Ref) (start last : Int) : Lockf where
  ref := ref
  posix := request.posix
  wait := false
  wake1Safe := !request.posix
  lfType := request.lType
  lfStart := start
  lfEnd := last
  lfId := request.id

/-- The locks of a file, the queues, and the next address that is free. -/
structure State where
  locks : List Lockf
  queues : Queues
  fresh : Ref

/-- `lf_setlock` for a request that does not wait; `lf_split` may need another address. -/
def State.setLock (state : State) (lock : Lockf) : Except Fault (State × Answer) := do
  match ← getBlock lock state.locks with
  | some _ => return ({ state with fresh := state.fresh + 2 }, .error .EAGAIN)
  | none =>
    let (locks, queues) ← grant lock (state.fresh + 1) state.locks state.queues
    return ({ locks := locks, queues := queues, fresh := state.fresh + 2 }, .done)

/-- `lf_advlock` for a request that does not wait. -/
def advlock (state : State) (request : Request) : Except Fault (State × Answer) :=
  if state.locks = [] ∧ request.op ≠ .setlk then .ok (state, match request.op with | .getlk => .flock none | _ => .done)
  else match request.range with
    | .error errno => .ok (state, .error errno)
    | .ok (start, last) => do
      let lock := request.lockf state.fresh start last
      match request.op with
      | .setlk => state.setLock lock
      | .unlck =>
        let (locks, queues) ← clearLock lock (state.fresh + 1) state.locks state.queues
        return ({ locks := locks, queues := queues, fresh := state.fresh + 2 }, .done)
      | .getlk =>
        let flock ← getLock lock state.locks
        return ({ state with fresh := state.fresh + 2 }, .flock flock)

end DarwinNotes.Xnu.Locks
