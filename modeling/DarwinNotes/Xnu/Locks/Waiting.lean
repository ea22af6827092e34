import DarwinNotes.Xnu.Locks.Model

/-!
# Requests that wait (`lf_setlock`)

A request with `F_WAIT` that a lock blocks is put on the queue of that lock, and its thread sleeps. When the thread runs
again, because the request was woken, because of a signal or a timeout or for no reason, it tries again or gives up.
What a thread does up to the next sleep is one step, under the lock of the vnode.

Before a thread sleeps for a record lock, the wait channels are looked through for a cycle.
-/

namespace DarwinNotes.Xnu.Locks

/-- `MAXDEPTH` -/
def maxlockdepth : Nat := 50

/-- The locks of a vnode, and the queues. -/
structure File where
  locks : List Lockf
  queues : Queues

/-- A thread that sleeps in `lf_setlock`: `uu_wchan` is the request. -/
structure Sleeper where
  thread : Nat
  vnode : Nat
  request : Lockf
deriving DecidableEq, Repr

structure System where
  files : Nat → File
  sleeping : List Sleeper
  fresh : Ref

namespace System

variable (system : System)

def wchan (thread : Nat) : Option Sleeper := system.sleeping.find? (·.thread = thread)

variable (vnode : Nat)

/-- The lock or request at an address. -/
def lockf (ref : Ref) : Option Lockf := ((system.files vnode).locks ++ system.sleeping.map (·.request)).find? (·.ref = ref)

def setFile (file : File) : System := { system with files := Function.update system.files vnode file }

theorem files_setFile (file : File) : (system.setFile vnode file).files vnode = file := Function.update_self _ _ _

theorem files_setFile_of_ne {vnode vnode' : Nat} (file : File) (other : vnode' ≠ vnode) :
    (system.setFile vnode file).files vnode' = system.files vnode' := Function.update_of_ne other _ _

variable {system vnode}

theorem forall_setFile {P : Nat → File → Prop} {file : File} (isFile : P vnode file) (others : ∀ vnode', P vnode' (system.files vnode'))
    (vnode' : Nat) : P vnode' ((system.setFile vnode file).files vnode') :=
  (Function.forall_update_iff _ P).mpr ⟨isFile, fun vnode' _ => others vnode'⟩ vnode'

end System

/-! ## Deadlock detection -/

section Deadlock

variable (system : System) (lock : Lockf)

/-- The inner loop, for one thread of the owner of the blocking lock: whether it would be a deadlock, and what is left
of the depth. The loop reads the wait channel of the same thread each time. -/
def checkThread (ut : Nat) : Nat → Except Fault (Bool × Nat)
  | 0 => .ok (false, 0)
  | depth + 1 =>
    match system.wchan ut with
    | none => .ok (false, depth + 1)
    | some sleeper =>
      match (system.files sleeper.vnode).queues.lfNext sleeper.request.ref with
      | none => .ok (false, depth)
      | some ref =>
        match system.lockf sleeper.vnode ref with
        | none => .error .corrupt
        | some waitblock =>
          if ¬ waitblock.posix then .ok (false, depth)
          else if waitblock.lfId = lock.lfId then .ok (true, depth)
          else checkThread ut depth

/-- The loop over the threads `p_uthlist`. -/
def checkThreads : List Nat → Nat → Except Fault Bool
  | [], _ => .ok false
  | ut :: threads, depth => do
    let (deadlock, depth) ← checkThread system lock ut depth
    if deadlock then return true else checkThreads threads depth

/-- Whether the request would deadlock if it waited for the block. -/
def checkDeadlock (uthlist : Nat → List Nat) (block : Lockf) : Except Fault Bool :=
  if lock.posix ∧ block.posix then checkThreads system lock (uthlist block.lfId) maxlockdepth else .ok false

end Deadlock

/-! ## Sleeping -/

/-- The request is put on the queue of the block; `lf_jump_to_queue_head` puts it first. -/
def Queues.insert (queues : Queues) (block request : Ref) (atHead : Bool) : Queues where
  blkhd := Function.update queues.blkhd block (if atHead then request :: queues.blkhd block else queues.blkhd block ++ [request])
  lfNext := Function.update queues.lfNext request (some block)

/-- The request is taken off the queue it is on. -/
def Queues.remove (queues : Queues) (block request : Ref) : Queues where
  blkhd := Function.update queues.blkhd block ((queues.blkhd block).erase request)
  lfNext := Function.update queues.lfNext request none

/-- Another request than one of `flock` waits for the block, so all have to be woken. -/
def clearWake1Safe (block : Ref) (locks : List Lockf) : List Lockf :=
  locks.map fun lf => if lf.ref = block then { lf with wake1Safe := false } else lf

section SetLock

variable (uthlist : Nat → List Nat) (system : System) (thread vnode : Nat) (lock : Lockf)

/-- A request of `flock` for an exclusive lock first gives up the shared locks of its owner. -/
def giveUpShared : Except Fault File :=
  let file := system.files vnode
  if ¬ lock.posix ∧ lock.lfType = .wrlck then do
    let (locks, queues) ← clearLock lock system.fresh file.locks file.queues
    return { locks := locks, queues := queues }
  else .ok file

/-- The request waits for the block. -/
def sleep (block : Ref) (donor : Bool) (file : File) : System :=
  let file : File :=
    { locks := if lock.posix then clearWake1Safe block file.locks else file.locks
      queues := file.queues.insert block lock.ref donor }
  { system.setFile vnode file with
    sleeping := system.sleeping ++ [{ thread := thread, vnode := vnode, request := lock }]
    fresh := system.fresh + 1 }

/-- `lf_setlock` up to the sleep, or to the end: the answer, unless the thread sleeps. `donor` is
whether its task donates importance to the owner of the block. -/
def setLock (donor : Bool) : Except Fault (System × Option Answer) := do
  let file := system.files vnode
  match ← getBlock lock file.locks with
  | none =>
    let (locks, queues) ← grant lock system.fresh file.locks file.queues
    return ({ system.setFile vnode { locks := locks, queues := queues } with fresh := system.fresh + 1 }, some .done)
  | some block =>
    if ¬ lock.wait then return (system, some (.error .EAGAIN))
    else if ← checkDeadlock system lock uthlist block then return (system, some (.error .EDEADLK))
    else
      let file ← giveUpShared system vnode lock
      return (sleep system thread vnode lock block.ref (donor && lock.posix && block.posix) file, none)

end SetLock

/-! ## Steps -/

/-- The errors of `msleep`. -/
inductive SleepError
  | interrupted
  | timedOut
deriving DecidableEq, Repr

def SleepError.errno : SleepError → Errno
  | interrupted => .EINTR
  | timedOut => .ETIMEDOUT

/-- What a thread does: it makes a request, or it runs again after a sleep, with the error of `msleep`. -/
inductive Event
  | call (thread vnode : Nat) (request : Request) (wait donor : Bool)
  | resume (thread : Nat) (error : Option SleepError) (donor : Bool)

section Steps

variable (uthlist : Nat → List Nat) (system : System)

/-- `lf_advlock` -/
def call (thread vnode : Nat) (request : Request) (wait donor : Bool) : Except Fault (System × Option Answer) :=
  let file := system.files vnode
  if file.locks = [] ∧ request.op ≠ .setlk then
    .ok (system, some (match request.op with | .getlk => .flock none | _ => .done))
  else match request.range with
    | .error errno => .ok (system, some (.error errno))
    | .ok (start, last) =>
      let lock := { request.lockf system.fresh start last with wait := wait }
      let system := { system with fresh := system.fresh + 1 }
      match request.op with
      | .setlk => setLock uthlist system thread vnode lock donor
      | .unlck => do
        let (locks, queues) ← clearLock lock system.fresh file.locks file.queues
        return ({ system.setFile vnode { locks := locks, queues := queues } with fresh := system.fresh + 1 }, some .done)
      | .getlk => do
        let flock ← getLock lock file.locks
        return (system, some (.flock flock))

/-- The requests that wait for this one wait for what blocks it now, if anything does. -/
def passOnQueue (lock : Lockf) (file : File) : Except Fault File :=
  if file.queues.blkhd lock.ref = [] then .ok file
  else do
    match ← getBlock lock file.locks with
    | none => return file
    | some block => return { file with queues := file.queues.moveBlocked block.ref lock.ref }

/-- The request is freed; whoever waits for it is woken. -/
def giveUp (lock : Lockf) (file : File) : File := { file with queues := file.queues.wakeLock lock true }

/-- The request was woken early, and is taken off the queue it is still on. -/
def detach (lock : Lockf) (file : File) : File :=
  match file.queues.lfNext lock.ref with
  | some block => { file with queues := file.queues.remove block lock.ref }
  | none => file

/-- `lf_setlock` from the return of `msleep` on. After a spurious wakeup it only tries again. -/
def resume (sleeper : Sleeper) (error : Option SleepError) (donor : Bool) : Except Fault (System × Option Answer) := do
  let lock := sleeper.request
  let file := system.files sleeper.vnode
  let system := { system with sleeping := system.sleeping.filter (·.thread ≠ sleeper.thread) }
  let isSpurious := (file.queues.lfNext lock.ref).isSome && error.isNone
  let file ← (if isSpurious then .ok (detach lock file) else passOnQueue lock (detach lock file))
  match error with
  | none => setLock uthlist (system.setFile sleeper.vnode file) sleeper.thread sleeper.vnode lock donor
  | some error => return (system.setFile sleeper.vnode (giveUp lock file), some (.error error.errno))

/-- A step of the system. A thread that sleeps makes no requests, and only such a thread is woken. -/
def step : Event → Except Fault (System × Option Answer)
  | .call thread vnode request wait donor =>
    match system.wchan thread with
    | some _ => .ok (system, none)
    | none => call uthlist system thread vnode request wait donor
  | .resume thread error donor =>
    match system.wchan thread with
    | none => .ok (system, none)
    | some sleeper => resume uthlist system sleeper error donor

end Steps

end DarwinNotes.Xnu.Locks
