import DarwinNotes.Xnu.Locks.Sleeping

/-!
# Runs of threads that wait

A step of the system leaves it sound: every request that sleeps and was not woken is on the queue of a lock that conflicts
with it. So no request sleeps without a reason, if the whole queue of a lock is woken when its bytes are cleared.
-/

namespace DarwinNotes.Xnu.Locks
open List

/-! ## Steps -/

section Steps

variable {uthlist : Nat → List Nat} {system : System} {sleeper : Sleeper}

theorem Sound.sleeper_eq (sound : Sound system) {sleeper' : Sleeper} (mem : sleeper ∈ system.sleeping)
    (mem' : sleeper' ∈ system.sleeping) (same : sleeper.request.ref = sleeper'.request.ref) : sleeper = sleeper' :=
  inj_on_of_nodup_map sound.requests mem mem' same

/-- The system without a thread that was asleep, whose request is off its queue. -/
def wakeUp (system : System) (sleeper : Sleeper) : System :=
  { system with sleeping := system.sleeping.filter (·.thread ≠ sleeper.thread) }.setFile sleeper.vnode
    (detach sleeper.request (system.files sleeper.vnode))

theorem wakeUp_locks (vnode : Nat) : ((wakeUp system sleeper).files vnode).locks = (system.files vnode).locks :=
  System.forall_setFile (P := fun vnode file => file.locks = (system.files vnode).locks) (detach_locks _ _) (fun _ => rfl) vnode

/-- A thread that was asleep runs again. -/
theorem Sound.wakeUp (sound : Sound system) (mem : sleeper ∈ system.sleeping) :
    Ready (wakeUp system sleeper) sleeper.vnode sleeper.request := by
  have kept : ∀ other ∈ (Locks.wakeUp system sleeper).sleeping, other ∈ system.sleeping ∧ other.thread ≠ sleeper.thread := by
    intro other isOther
    exact ⟨mem_of_mem_filter isOther, by simpa using of_mem_filter isOther⟩
  have sublist : (Locks.wakeUp system sleeper).sleeping.Sublist system.sleeping := filter_sublist
  have remains : ∀ {vnode request lf}, (vnode = sleeper.vnode → request ≠ sleeper.request.ref) → Waits system.sleeping vnode request lf →
      Waits (Locks.wakeUp system sleeper).sleeping vnode request lf := by
    rintro _ _ lf otherRequest ⟨other, isOther, rfl, rfl, blocks⟩
    refine ⟨other, mem_filter.mpr ⟨isOther, ?_⟩, rfl, rfl, blocks⟩
    rw [decide_eq_true_eq]
    intro sameThread
    obtain rfl := inj_on_of_nodup_map sound.threads isOther mem sameThread
    exact otherRequest rfl rfl
  have sound' : Sound (Locks.wakeUp system sleeper) := by
    constructor
    · intro vnode
      exact ⟨by rw [wakeUp_locks]; exact (sound.files vnode).grouped, by rw [wakeUp_locks]; exact (sound.files vnode).distinct⟩
    · intro vnode
      rw [wakeUp_locks]
      exact sound.allocated vnode
    · intro vnode
      by_cases same : vnode = sleeper.vnode
      · subst same
        rw [Locks.wakeUp, System.files_setFile]
        exact (detach_preserves _ (waits_stable _ _) (sound.queued sleeper.vnode)).imp
          fun request lf isNext => remains fun _ isSleeper => by simp [detach_lfNext, isSleeper] at isNext
      · rw [Locks.wakeUp, System.files_setFile_of_ne _ _ same]
        exact (sound.queued vnode).imp fun request lf _ => remains fun isVnode => absurd isVnode same
    · exact sound.threads.sublist (sublist.map _)
    · exact sound.requests.sublist (sublist.map _)
    · exact fun other isOther => sound.valid other (kept other isOther).1
    · exact fun other isOther => sound.pending other (kept other isOther).1
    · intro other isOther
      rw [wakeUp_locks]
      exact sound.offList other (kept other isOther).1
  refine ⟨sound', sound.valid sleeper mem, sound.pending sleeper mem, ?_, ?_⟩
  · rw [wakeUp_locks]
    exact sound.offList sleeper mem
  · intro other isOther sameRequest
    obtain ⟨isOther, otherThread⟩ := kept other isOther
    exact otherThread (congrArg (·.thread) (sound.sleeper_eq isOther mem sameRequest))

/-- A request that was taken off its queue has no requests that wait for it. -/
theorem Sound.emptyQueue (sound : Sound system) (mem : sleeper ∈ system.sleeping) :
    (detach sleeper.request (system.files sleeper.vnode)).queues.blkhd sleeper.request.ref = [] := by
  have isEmpty := (sound.wakeUp mem).emptyQueue
  rwa [Locks.wakeUp, System.files_setFile] at isEmpty

/-- The condition on the file where the request sleeps is one on the file after it was taken off its queue. -/
theorem CanTry.detach {file : File} {lock : Lockf} (canTry : CanTry file lock) : CanTry (Locks.detach lock file) lock := by
  have shorter : ∀ r, ((Locks.detach lock file).queues.blkhd r).length ≤ (file.queues.blkhd r).length := by
    intro r
    rw [Locks.detach.eq_def]
    split
    case h_2 => exact Nat.le_refl _
    case h_1 block _ =>
    simp only [Queues.remove]
    by_cases isBlock : r = block
    · subst isBlock
      rw [Function.update_self]
      exact length_erase_le
    · apply Nat.le_of_eq
      rw [Function.update_of_ne isBlock]
  obtain ⟨whole, wholeShared, wakesAll⟩ := canTry
  refine ⟨by rw [detach_locks]; exact whole, by rw [detach_locks]; exact wholeShared, ?_⟩
  intro notPosix isWrite lf mem isOwn overlaps
  rw [detach_locks] at mem
  rcases wakesAll notPosix isWrite lf mem isOwn overlaps with force | unsafeOne | short
  · exact .inl force
  · exact .inr (.inl unsafeOne)
  · exact .inr (.inr (Nat.le_trans (shorter lf.ref) short))

theorem wchan_wakeUp (sleeper : Sleeper) : (wakeUp system sleeper).wchan sleeper.thread = none := by
  rw [System.wchan, find?_eq_none]
  intro other isOther
  have := of_mem_filter isOther
  simpa using this

/-- The lock that a call asks for. -/
def asked (system : System) (request : Request) (wait : Bool) (start last : Int) : Lockf :=
  { request.lockf system.fresh start last with wait := wait }

/-- The step tries a request. -/
inductive Event.Tries (system : System) : Event → Nat → Lockf → Prop
  | call {thread vnode : Nat} {request : Request} {wait donor : Bool} {start last : Int} (awake : system.wchan thread = none)
    (isOp : request.op = .setlk) (accepted : request.range = .ok (start, last)) :
    Event.Tries system (.call thread vnode request wait donor) vnode (asked system request wait start last)
  | resume {thread : Nat} {donor : Bool} {sleeper : Sleeper} (isSleeper : system.wchan thread = some sleeper) :
    Event.Tries system (.resume thread none donor) sleeper.vnode sleeper.request

/-- What a step needs: no lock is cut off at the last byte, and where bytes of a lock are cleared, its whole queue is woken. -/
def Event.CanStep (system : System) : Event → Prop
  | call _ vnode request wait _ => ∀ start last, request.range = .ok (start, last) →
    (request.op = .setlk → CanTry (system.files vnode) (asked system request wait start last)) ∧
      (request.op = .unlck → ClearWhole (system.files vnode).locks (asked system request wait start last) ∧
        ClearWakesAll (system.files vnode) (asked system request wait start last))
  | resume thread error _ => error = none → ∀ sleeper, system.wchan thread = some sleeper →
    CanTry (system.files sleeper.vnode) sleeper.request

def Event.thread : Event → Nat
  | call thread _ _ _ _ | resume thread _ _ => thread

/-- The system in which the request is tried. -/
def Event.start (system : System) : Event → System
  | call _ _ _ _ _ => { system with fresh := system.fresh + 1 }
  | resume thread _ _ => (system.wchan thread).elim system (wakeUp system)

/-- What comes of a step. -/
inductive Stepped (uthlist : Nat → List Nat) (system : System) (event : Event) : System → Option Answer → Prop
  | answered {fresh : Ref} {answer : Option Answer} (grows : system.fresh ≤ fresh) (noDeadlock : answer ≠ some (.error .EDEADLK))
    (notTried : ∀ vnode lock, ¬ event.Tries system vnode lock) : Stepped uthlist system event { system with fresh := fresh } answer
  | unlocked {vnode : Nat} {file : File} (changed : Changed (system.files vnode) file [] [system.fresh + 1])
    (notTried : ∀ vnode lock, ¬ event.Tries system vnode lock) :
    Stepped uthlist system event { system.setFile vnode file with fresh := system.fresh + 1 + 1 } (some .done)
  | givenUp {sleeper : Sleeper} (mem : sleeper ∈ system.sleeping) (error : SleepError)
    (notTried : ∀ vnode lock, ¬ event.Tries system vnode lock) :
    Stepped uthlist system event (wakeUp system sleeper) (some (.error error.errno))
  | tried {vnode : Nat} {lock : Lockf} {system' : System} {answer : Option Answer} (tries : event.Tries system vnode lock)
    (tried : Tried uthlist (event.start system) event.thread vnode lock system' answer) : Stepped uthlist system event system' answer

theorem System.mem_of_wchan {thread : Nat} (isSleeper : system.wchan thread = some sleeper) :
    sleeper ∈ system.sleeping ∧ sleeper.thread = thread :=
  ⟨mem_of_find?_eq_some isSleeper, by simpa using find?_some isSleeper⟩

section Sound

variable (sound : Sound system)
include sound

theorem Sound.grow {fresh : Ref} (grows : system.fresh ≤ fresh) : Sound { system with fresh := fresh } :=
  { sound with
    allocated := fun vnode ref mem => Nat.lt_of_lt_of_le (sound.allocated vnode ref mem) grows
    pending := fun sleeper mem => Nat.lt_of_lt_of_le (sound.pending sleeper mem) grows }

theorem Sound.ask {request : Request} {start last : Int} (accepted : request.range = .ok (start, last)) (wait : Bool) (vnode : Nat) :
    Ready { system with fresh := system.fresh + 1 } vnode (asked system request wait start last) := by
  refine ⟨sound.grow (Nat.le_succ _), { Request.range_valid accepted system.fresh with }, Nat.lt_succ_self _, ?_, ?_⟩
  · intro mem
    exact Nat.lt_irrefl _ (sound.allocated vnode _ mem)
  · intro sleeper mem
    exact Nat.ne_of_lt (sound.pending sleeper mem)

theorem Event.Tries.ready {event : Event} {vnode : Nat} {lock : Lockf} (tries : event.Tries system vnode lock) :
    Ready (event.start system) vnode lock ∧ (event.start system).wchan event.thread = none := by
  cases tries with
  | call awake _ accepted => exact ⟨sound.ask accepted _ vnode, awake⟩
  | resume isSleeper =>
    obtain ⟨mem, rfl⟩ := System.mem_of_wchan isSleeper
    rw [Event.start, isSleeper]
    exact ⟨sound.wakeUp mem, wchan_wakeUp _⟩

theorem resume_stepped {thread : Nat} (isSleeper : system.wchan thread = some sleeper) (error : Option SleepError) (donor : Bool)
    (canStep : (Event.resume thread error donor).CanStep system) :
    ∃ system' answer, resume uthlist system sleeper error donor = .ok (system', answer) ∧
      Stepped uthlist system (.resume thread error donor) system' answer := by
  obtain ⟨mem, rfl⟩ := System.mem_of_wchan isSleeper
  have isEmpty := sound.emptyQueue mem
  have passedOn : passOnQueue sleeper.request (detach sleeper.request (system.files sleeper.vnode)) =
      .ok (detach sleeper.request (system.files sleeper.vnode)) := if_pos isEmpty
  have givenUp : giveUp sleeper.request (detach sleeper.request (system.files sleeper.vnode)) =
      detach sleeper.request (system.files sleeper.vnode) := by
    rw [giveUp, Queues.wakeLock, isEmpty]
  simp only [resume, passedOn, ite_self, bind, Except.bind]
  cases error with
  | none =>
    have canTry : CanTry ((wakeUp system sleeper).files sleeper.vnode) sleeper.request := by
      rw [wakeUp, System.files_setFile]
      exact (canStep rfl sleeper isSleeper).detach
    obtain ⟨system', answer, isTried, tried⟩ := setLock_tried (sound.wakeUp mem) canTry donor
    refine ⟨system', answer, isTried, .tried (.resume isSleeper) ?_⟩
    rw [Event.start, isSleeper]
    exact tried
  | some error =>
    simp only [givenUp]
    exact ⟨_, _, rfl, .givenUp mem error (by rintro _ _ ⟨⟩)⟩

theorem call_stepped {thread vnode : Nat} {request : Request} {wait donor : Bool} (awake : system.wchan thread = none)
    (canStep : (Event.call thread vnode request wait donor).CanStep system) :
    ∃ system' answer, call uthlist system thread vnode request wait donor = .ok (system', answer) ∧
      Stepped uthlist system (.call thread vnode request wait donor) system' answer := by
  rw [call]
  split
  case isTrue notSet =>
    refine ⟨_, _, rfl, .answered (Nat.le_refl _) ?_ ?_⟩
    · split <;> exact nofun
    · rintro _ _ ⟨-, isOp⟩
      exact notSet.2 isOp
  case isFalse =>
  cases isRange : request.range with
  | error errno =>
    refine ⟨_, _, rfl, .answered (Nat.le_refl _) ?_ ?_⟩
    · rintro ⟨⟩
      rcases Request.range_error isRange with isErrno | isErrno <;> cases isErrno
    · rintro _ _ ⟨-, -, accepted⟩
      exact nomatch isRange.symm.trans accepted
  | ok range =>
    obtain ⟨start, last⟩ := range
    obtain ⟨canTry, canClear⟩ := canStep start last isRange
    have ready := sound.ask isRange wait vnode
    have notTried : request.op ≠ .setlk → ∀ vnode' lock, ¬ (Event.call thread vnode request wait donor).Tries system vnode' lock := by
      rintro notSet _ _ ⟨-, isOp⟩
      exact notSet isOp
    cases isOp : request.op with
    | setlk =>
      obtain ⟨system', answer, isTried, tried⟩ := setLock_tried ready (canTry isOp) donor
      exact ⟨system', answer, isTried, .tried (.call awake isOp isRange) tried⟩
    | unlck =>
      obtain ⟨whole, wakesAll⟩ := canClear isOp
      obtain ⟨locks, _, isCleared, changed, -⟩ := clear_changed ready.distinct (ready.sound.files vnode) ready.valid whole wakesAll
      refine ⟨_, _, ?_, .unlocked changed (notTried (isOp ▸ nofun))⟩
      simp only [asked] at isCleared
      simp only [isCleared, bind, Except.bind]
      rfl
    | getlk =>
      obtain ⟨block, isBlock, -⟩ := getBlock_spec (asked system request wait start last) (system.files vnode).locks
      simp only [asked] at isBlock
      simp only [getLock, isBlock]
      cases block with
      | none | some block => exact ⟨_, _, rfl, .answered (Nat.le_succ _) nofun (notTried (isOp ▸ nofun))⟩

theorem step_stepped {event : Event} (canStep : event.CanStep system) :
    ∃ system' answer, step uthlist system event = .ok (system', answer) ∧ Stepped uthlist system event system' answer := by
  cases event with
  | call thread =>
    rw [step]
    cases awake : system.wchan thread with
    | some sleeper =>
      refine ⟨_, _, rfl, .answered (Nat.le_refl _) nofun ?_⟩
      rintro _ _ ⟨isAwake⟩
      exact nomatch awake.symm.trans isAwake
    | none => exact call_stepped sound awake canStep
  | resume thread error donor =>
    rw [step]
    cases isSleeper : system.wchan thread with
    | none =>
      refine ⟨_, _, rfl, .answered (Nat.le_refl _) nofun ?_⟩
      rintro _ _ (_ | isSleeper')
      exact nomatch isSleeper.symm.trans isSleeper'
    | some sleeper => exact resume_stepped sound isSleeper error donor canStep

end Sound

theorem Stepped.sound (sound : Sound system) {event : Event} {system' : System} {answer : Option Answer}
    (stepped : Stepped uthlist system event system' answer) : Sound system' := by
  cases stepped with
  | answered grows => exact sound.grow grows
  | unlocked changed =>
    refine sound.setFile changed (sound.waits changed) (Nat.le_add_right _ 2) (by simp) ?_
    simpa using fun sleeper mem => Nat.ne_of_lt (Nat.lt_succ_of_lt (sound.pending sleeper mem))
  | givenUp mem => exact (sound.wakeUp mem).sound
  | tried tries tried =>
    obtain ⟨ready, awake⟩ := tries.ready sound
    exact tried.sound ready awake

end Steps

/-! ## Runs -/

/-- No locks, and no thread sleeps. -/
def idleSystem : System where
  files := fun _ => { locks := [], queues := { blkhd := fun _ => [], lfNext := fun _ => none } }
  sleeping := []
  fresh := 0

section Runs

variable (uthlist : Nat → List Nat)

def run (system : System) : List Event → Except Fault System
  | [] => .ok system
  | event :: events => do
    let (system, _) ← step uthlist system event
    run system events

/-- Each step of a run meets a condition on the state that it starts from. -/
def AllMeet (condition : System → Event → Prop) : System → List Event → Prop
  | _, [] => True
  | system, event :: events => condition system event ∧
    ∀ system' answer, step uthlist system event = .ok (system', answer) → AllMeet condition system' events

theorem sound_idleSystem : Sound idleSystem where
  files := fun _ => ⟨grouped_nil, .nil⟩
  allocated := nofun
  queued := fun _ => ⟨nofun, fun _ _ => rfl⟩
  threads := .nil
  requests := .nil
  valid := nofun
  pending := nofun
  offList := nofun

variable {uthlist}

/-- What holds of a system and is preserved by the steps that meet a condition holds after the run. -/
theorem run_preserves {condition : System → Event → Prop} {property : System → Prop}
    (isStep : ∀ system event, property system → condition system event →
      ∃ system' answer, step uthlist system event = .ok (system', answer) ∧ property system')
    {system : System} (holds : property system) {events : List Event} (allMeet : AllMeet uthlist condition system events) :
    ∃ system', run uthlist system events = .ok system' ∧ property system' := by
  induction events generalizing system with
  | nil => exact ⟨system, rfl, holds⟩
  | cons event events ih =>
    obtain ⟨meets, later⟩ := allMeet
    obtain ⟨system₁, answer, isFirst, holds₁⟩ := isStep system event holds meets
    obtain ⟨system', isRun, holds'⟩ := ih holds₁ (later system₁ answer isFirst)
    refine ⟨system', ?_, holds'⟩
    rw [run, isFirst]
    exact isRun

end Runs

/-- No request sleeps without a reason. -/
structure Reasoned (system : System) : Prop where
  conflicts : (∀ sleeper ∈ system.sleeping, (system.files sleeper.vnode).queues.lfNext sleeper.request.ref ≠ none) →
    ∀ sleeper ∈ system.sleeping, ∃ lf ∈ (system.files sleeper.vnode).locks, Blocks lf sleeper.request
  onQueue : ∀ sleeper ∈ system.sleeping, ∀ r, sleeper.request.ref ∈ (system.files sleeper.vnode).queues.blkhd r ↔
    (system.files sleeper.vnode).queues.lfNext sleeper.request.ref = some r
  onGranted : ∀ sleeper ∈ system.sleeping, ∀ r, (system.files sleeper.vnode).queues.lfNext sleeper.request.ref = some r →
    ∃ lf ∈ (system.files sleeper.vnode).locks, lf.ref = r

theorem Sound.reasoned {system : System} (sound : Sound system) : Reasoned system := by
  have waits : ∀ sleeper ∈ system.sleeping, ∀ r, (system.files sleeper.vnode).queues.lfNext sleeper.request.ref = some r →
      ∃ lf ∈ (system.files sleeper.vnode).locks, lf.ref = r ∧ Blocks lf sleeper.request := by
    intro sleeper mem r isNext
    obtain ⟨lf, onList, isRef, -, _, isOther, -, sameRequest, blocks⟩ := sound.lockf_next isNext
    rw [sound.sleeper_eq isOther mem sameRequest] at blocks
    exact ⟨lf, onList, isRef, blocks⟩
  refine ⟨fun noneWoken sleeper mem => ?_, fun sleeper mem => (sound.queued _).next _, fun sleeper mem r isNext => ?_⟩
  · obtain ⟨r, isNext⟩ := Option.ne_none_iff_exists'.mp (noneWoken sleeper mem)
    obtain ⟨lf, onList, -, blocks⟩ := waits sleeper mem r isNext
    exact ⟨lf, onList, blocks⟩
  · obtain ⟨lf, onList, isRef, -⟩ := waits sleeper mem r isNext
    exact ⟨lf, onList, isRef⟩

instance (lf lock : Lockf) : Decidable (Blocks lf lock) := inferInstanceAs (Decidable (_ ∧ _))

/-- A request of `flock`, which is for the whole file. -/
def flockRequest (op : Op) (id : Nat) (lType : LockType) : Request where
  op := op
  id := id
  posix := false
  lType := lType
  whence := .seekSet
  lStart := 0
  lLen := 0
  size := 0
  isOffStart := isOff_zero
  isOffLen := isOff_zero

/-- A shared request waits for an exclusive lock. -/
def oneWaiter : List Event := [.call 1 0 (flockRequest .setlk 1 .wrlck) true false, .call 2 0 (flockRequest .setlk 2 .rdlck) true false]

/-- A range without a length cuts nothing off. A shared request gives up nothing, nor does one on a file without locks. -/
theorem canStep_flock {system : System} {thread vnode id : Nat} {lType : LockType} {wait donor : Bool}
    (nothingGivenUp : lType = .rdlck ∨ (system.files vnode).locks = []) :
    (Event.call thread vnode (flockRequest .setlk id lType) wait donor).CanStep system := by
  intro start last accepted
  cases accepted
  have notMax : (-1 : Int) ≠ offMax := by decide
  refine ⟨fun _ => ⟨fun isMax => absurd isMax notMax, fun _ _ isMax => absurd isMax notMax, fun _ isWrite => ?_⟩, nofun⟩
  intro lf mem
  rcases nothingGivenUp with isRead | noLocks
  · exact nomatch isWrite.symm.trans isRead
  · rw [noLocks] at mem
    cases mem

/-- Two shared requests wait for an exclusive lock that is released; only the first one is woken, and granted. -/
def twoWaiters : List Event :=
  [.call 1 0 (flockRequest .setlk 1 .wrlck) true false, .call 2 0 (flockRequest .setlk 2 .rdlck) true false,
    .call 3 0 (flockRequest .setlk 3 .rdlck) true false, .call 1 0 (flockRequest .unlck 1 .wrlck) true false, .resume 2 none false]

end DarwinNotes.Xnu.Locks
