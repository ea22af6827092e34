import DarwinNotes.Xnu.Locks.Reasons
import DarwinNotes.Xnu.Locks.Runs

/-!
# Deadlocks of record locks

A process that sleeps waits for the owner of the lock that its request is queued on. Before it sleeps, the wait channels are
looked through for a cycle; but the loop reads the channel of the first owner each time, and never gets to the next one. So
it finds a cycle of two processes and no longer one. As long as no request closes a longer one, there is no cycle in any
state that is reached.
-/

namespace DarwinNotes.Xnu.Locks
open Relation List

/-! ## Graphs -/

section Graphs

variable {α : Type} {edge edge' : α → α → Prop} {p q : α}

def Acyclic (edge : α → α → Prop) : Prop := ∀ a, ¬ TransGen edge a a

theorem Acyclic.mono (acyclic : Acyclic edge) (isSubset : ∀ a b, edge' a b → edge a b) : Acyclic edge' :=
  fun a isCycle => acyclic a (TransGen.mono isSubset _ _ isCycle)

/-- A path with an added edge is an old one, or leads to the start of the edge and on from its end. -/
theorem transGen_added (isAdded : ∀ a b, edge' a b → edge a b ∨ a = p ∧ b = q) {a b : α} (path : TransGen edge' a b) :
    TransGen edge a b ∨ ReflTransGen edge a p ∧ ReflTransGen edge q b := by
  induction path with
  | single first =>
    rcases isAdded _ _ first with isOld | ⟨rfl, rfl⟩
    · exact .inl (.single isOld)
    · exact .inr ⟨.refl, .refl⟩
  | tail _ last ih =>
    rcases isAdded _ _ last with isOld | ⟨rfl, rfl⟩
    · rcases ih with path | ⟨front, back⟩
      · exact .inl (path.tail isOld)
      · exact .inr ⟨front, back.tail isOld⟩
    · rcases ih with path | ⟨front, -⟩
      · exact .inr ⟨path.to_reflTransGen, .refl⟩
      · exact .inr ⟨front, .refl⟩

/-- An edge that closes no cycle can be added. -/
theorem Acyclic.add (acyclic : Acyclic edge) (isAdded : ∀ a b, edge' a b → edge a b ∨ a = p ∧ b = q)
    (noPath : ¬ ReflTransGen edge q p) : Acyclic edge' := by
  intro a isCycle
  rcases transGen_added isAdded isCycle with isOld | ⟨front, back⟩
  · exact acyclic a isOld
  · exact noPath (back.trans front)

end Graphs

/-! ## The wait-for graph -/

/-- Each process has one thread. -/
def single (p : Nat) : List Nat := [p]

/-- The owner of the lock that the request of a sleeping process is queued on. -/
def System.waitsFor (system : System) (p : Nat) : Option Nat := do
  let sleeper ← system.wchan p
  let ref ← (system.files sleeper.vnode).queues.lfNext sleeper.request.ref
  let waitblock ← system.lockf sleeper.vnode ref
  return waitblock.lfId

def WaitsFor (system : System) (p q : Nat) : Prop := system.waitsFor p = some q

instance (system : System) (p q : Nat) : Decidable (WaitsFor system p q) := inferInstanceAs (Decidable (_ = _))

section Graph

variable {system : System}

theorem Sound.wchan (sound : Sound system) {sleeper : Sleeper} (mem : sleeper ∈ system.sleeping) :
    system.wchan sleeper.thread = some sleeper := by
  cases isFound : system.wchan sleeper.thread with
  | none => exact absurd (decide_eq_true rfl) (find?_eq_none.mp isFound sleeper mem)
  | some =>
    obtain ⟨isOther, sameThread⟩ := System.mem_of_wchan isFound
    rw [inj_on_of_nodup_map sound.threads isOther mem sameThread]

theorem Sound.waitsFor_iff (sound : Sound system) (p q : Nat) :
    WaitsFor system p q ↔ ∃ sleeper ∈ system.sleeping, sleeper.thread = p ∧ ∃ lf ∈ (system.files sleeper.vnode).locks,
      (system.files sleeper.vnode).queues.lfNext sleeper.request.ref = some lf.ref ∧ lf.lfId = q := by
  simp only [WaitsFor, System.waitsFor, Option.bind_eq_bind, Option.bind_eq_some_iff]
  constructor
  · rintro ⟨sleeper, isSleeper, ref, isNext, waitblock, isFound, isOwner⟩
    obtain ⟨mem, isThread⟩ := System.mem_of_wchan isSleeper
    obtain ⟨lf, onList, rfl, isLockf, -⟩ := sound.lockf_next isNext
    obtain rfl := Option.some_inj.mp (isFound.symm.trans isLockf)
    exact ⟨sleeper, mem, isThread, waitblock, onList, isNext, Option.some_inj.mp isOwner⟩
  · rintro ⟨sleeper, mem, rfl, lf, onList, isNext, rfl⟩
    obtain ⟨_, onList', sameRef, isLockf, -⟩ := sound.lockf_next isNext
    rw [inj_on_of_nodup_map (sound.files _).distinct onList' onList sameRef] at isLockf
    exact ⟨sleeper, sound.wchan mem, lf.ref, isNext, lf, isLockf, rfl⟩

/-- What wider locks keep: who the owner is that a request waits for. -/
theorem Preserves.owner {file file' : File} (preserves : Preserves file file') {rel : Ref → Lockf → Prop}
    (queued : Queued rel file.locks file.queues) (distinct' : (file'.locks.map (·.ref)).Nodup) {request : Ref} {lf' : Lockf}
    (onList' : lf' ∈ file'.locks) (isNext' : file'.queues.lfNext request = some lf'.ref) :
    ∃ lf ∈ file.locks, file.queues.lfNext request = some lf.ref ∧ lf.lfId = lf'.lfId := by
  let sameOwner (request : Ref) (lf' : Lockf) : Prop := ∃ lf ∈ file.locks, file.queues.lfNext request = some lf.ref ∧ lf.lfId = lf'.lfId
  have stable : Stable sameOwner := by
    rintro request lf lf' ⟨lf₀, onList, isNext, isOwner⟩ wider
    exact ⟨lf₀, onList, isNext, isOwner.trans wider.1.symm⟩
  have owners : Queued sameOwner file.locks file.queues := by
    refine ⟨fun isNext => ?_, queued.once⟩
    obtain ⟨lf, onList, rfl, valid, -⟩ := queued.onList isNext
    exact ⟨lf, onList, rfl, valid, lf, onList, isNext, rfl⟩
  obtain ⟨lf, onList, sameRef, -, isOwner⟩ := (preserves sameOwner stable owners).onList isNext'
  rwa [inj_on_of_nodup_map distinct' onList onList' sameRef] at isOwner

/-- A process waits for no other one when a file changes. -/
theorem Sound.waitsFor_setFile (sound : Sound system) {vnode : Nat} {file : File} {added : List Lockf} {extra : List Ref}
    (changed : Changed (system.files vnode) file added extra) {fresh : Ref}
    (sound' : Sound { system.setFile vnode file with fresh := fresh }) (p q : Nat)
    (waits : WaitsFor { system.setFile vnode file with fresh := fresh } p q) : WaitsFor system p q := by
  rw [sound'.waitsFor_iff] at waits
  rw [sound.waitsFor_iff]
  obtain ⟨sleeper, mem, isThread, lf', onList', isNext', isOwner⟩ := waits
  by_cases same : sleeper.vnode = vnode
  · subst same
    simp only [System.files_setFile] at onList' isNext'
    obtain ⟨lf, onList, isNext, sameOwner⟩ := changed.preserves.owner (sound.queued _) changed.sound.distinct onList' isNext'
    exact ⟨sleeper, mem, isThread, lf, onList, isNext, sameOwner.trans isOwner⟩
  · simp only [System.files_setFile_of_ne _ _ same] at onList' isNext'
    exact ⟨sleeper, mem, isThread, lf', onList', isNext', isOwner⟩

/-- The processes wait as before when one of them runs again. -/
theorem Sound.waitsFor_wakeUp (sound : Sound system) {sleeper : Sleeper} (mem : sleeper ∈ system.sleeping) (p q : Nat) :
    WaitsFor (Locks.wakeUp system sleeper) p q ↔ p ≠ sleeper.thread ∧ WaitsFor system p q := by
  rw [(sound.wakeUp mem).sound.waitsFor_iff, sound.waitsFor_iff]
  have sameNext : ∀ other ∈ system.sleeping, other.thread ≠ sleeper.thread →
      ((Locks.wakeUp system sleeper).files other.vnode).queues.lfNext other.request.ref =
        (system.files other.vnode).queues.lfNext other.request.ref := by
    intro other isOther otherThread
    by_cases same : other.vnode = sleeper.vnode
    · have otherRequest : other.request.ref ≠ sleeper.request.ref :=
        fun sameRequest => otherThread (congrArg (·.thread) (sound.sleeper_eq isOther mem sameRequest))
      rw [same, Locks.wakeUp, System.files_setFile, detach_lfNext, if_neg otherRequest]
    · rw [Locks.wakeUp, System.files_setFile_of_ne _ _ same]
  have isSleeping : ∀ other, other ∈ (Locks.wakeUp system sleeper).sleeping ↔ other ∈ system.sleeping ∧ other.thread ≠ sleeper.thread := by
    intro other
    simp [Locks.wakeUp, System.setFile]
  constructor
  · rintro ⟨other, isOther, rfl, lf, onList, isNext, isOwner⟩
    obtain ⟨isOther, otherThread⟩ := (isSleeping other).mp isOther
    rw [wakeUp_locks] at onList
    rw [sameNext other isOther otherThread] at isNext
    exact ⟨otherThread, other, isOther, rfl, lf, onList, isNext, isOwner⟩
  · rintro ⟨otherThread, other, isOther, rfl, lf, onList, isNext, isOwner⟩
    refine ⟨other, (isSleeping other).mpr ⟨isOther, otherThread⟩, rfl, lf, ?_, ?_, isOwner⟩
    · rw [wakeUp_locks]
      exact onList
    · rw [sameNext other isOther otherThread]
      exact isNext

end Graph

/-! ## Record locks -/

/-- A record lock of a process. -/
def IsRecordOf (lf : Lockf) (p : Nat) : Prop := lf.posix = true ∧ lf.wake1Safe = false ∧ lf.lfId = p

/-- All locks are record locks. -/
structure Records (system : System) : Prop where
  sound : Sound system
  locks : ∀ vnode, ∀ lf ∈ (system.files vnode).locks, IsRecordOf lf lf.lfId
  requests : ∀ sleeper ∈ system.sleeping, IsRecordOf sleeper.request sleeper.thread

section Records

variable {system : System}

variable (records : Records system)
include records

/-- The loop only sees whom the thread itself waits for. -/
theorem Records.checkThread (lock : Lockf) (ut depth : Nat) :
    ∃ left, Locks.checkThread system lock ut depth = .ok (decide (0 < depth ∧ WaitsFor system ut lock.lfId), left) := by
  induction depth with
  | zero => exact ⟨0, by simp [Locks.checkThread]⟩
  | succ depth ih =>
    rw [Locks.checkThread]
    cases isSleeper : system.wchan ut with
    | none => exact ⟨depth + 1, by simp [WaitsFor, System.waitsFor, isSleeper]⟩
    | some sleeper =>
      simp only
      cases isNext : (system.files sleeper.vnode).queues.lfNext sleeper.request.ref with
      | none => exact ⟨depth, by simp [WaitsFor, System.waitsFor, isSleeper, isNext]⟩
      | some =>
        obtain ⟨waitblock, onList, rfl, isLockf, -⟩ := records.sound.lockf_next isNext
        have isWaiting : WaitsFor system ut lock.lfId ↔ waitblock.lfId = lock.lfId := by
          simp [WaitsFor, System.waitsFor, isSleeper, isNext, isLockf]
        have isPosix := (records.locks _ waitblock onList).1
        simp only [isLockf, isPosix, not_true_eq_false, if_false]
        split
        case isTrue isOwner => exact ⟨depth, by simp [isWaiting, isOwner]⟩
        case isFalse otherOwner =>
          obtain ⟨left, isChecked⟩ := ih
          exact ⟨left, by simp [isChecked, isWaiting, otherOwner]⟩

theorem Records.checkDeadlock {lock block : Lockf} (isPosix : lock.posix = true) (isPosixBlock : block.posix = true) :
    Locks.checkDeadlock system lock single block = .ok (decide (WaitsFor system block.lfId lock.lfId)) := by
  obtain ⟨_, isChecked⟩ := records.checkThread lock block.lfId maxlockdepth
  rw [Locks.checkDeadlock, if_pos ⟨isPosix, isPosixBlock⟩, single, checkThreads, isChecked]
  simp only [maxlockdepth, Nat.zero_lt_succ, true_and, bind, Except.bind]
  split
  case isTrue isWaiting =>
    rw [isWaiting]
    rfl
  case isFalse notWaiting => rw [eq_false_of_ne_true notWaiting, checkThreads]

theorem Records.setFile {vnode : Nat} {file : File} {added : List Lockf} {extra : List Ref}
    (changed : Changed (system.files vnode) file added extra) (isRecord : ∀ lf ∈ added, IsRecordOf lf lf.lfId) {fresh : Ref}
    (sound' : Sound { system.setFile vnode file with fresh := fresh }) : Records { system.setFile vnode file with fresh := fresh } := by
  refine ⟨sound', System.forall_setFile (P := fun _ file => ∀ lf ∈ file.locks, IsRecordOf lf lf.lfId) (fun lf' mem => ?_) records.locks,
    records.requests⟩
  obtain ⟨lf, isOld, samePosix, -, sameSafe⟩ := changed.flags lf' mem
  obtain ⟨isPosix, notSafe, -⟩ := forall_mem_append.mpr ⟨isRecord, records.locks vnode⟩ lf isOld
  refine ⟨samePosix.trans isPosix, ?_, rfl⟩
  by_contra isSafe
  rw [sameSafe (by simpa using isSafe)] at notSafe
  cases notSafe

theorem Records.grow {fresh : Ref} (grows : system.fresh ≤ fresh) : Records { system with fresh := fresh } :=
  ⟨records.sound.grow grows, records.locks, records.requests⟩

theorem Records.wakeUp {sleeper : Sleeper} (mem : sleeper ∈ system.sleeping) : Records (Locks.wakeUp system sleeper) := by
  refine ⟨(records.sound.wakeUp mem).sound, fun vnode => ?_, fun other isOther => ?_⟩
  · rw [wakeUp_locks]
    exact records.locks vnode
  · exact records.requests other (mem_of_mem_filter isOther)

end Records

/-! ## Trying a request -/

/-- If the request would close a cycle, the owner of the lock that blocks it waits for it directly. -/
def Detectable (system : System) (vnode : Nat) (lock : Lockf) : Prop :=
  ∀ block, getBlock lock (system.files vnode).locks = .ok (some block) →
    TransGen (WaitsFor system) block.lfId lock.lfId → WaitsFor system block.lfId lock.lfId

/-- The request would wait, and close a cycle. -/
def ClosesCycle (system : System) (vnode : Nat) (lock : Lockf) : Prop :=
  lock.wait = true ∧ ∃ block, getBlock lock (system.files vnode).locks = .ok (some block) ∧ TransGen (WaitsFor system) block.lfId lock.lfId

section Trying

variable {system system' : System} {thread vnode : Nat} {lock : Lockf} {answer : Option Answer}

theorem getBlock_mem {block : Lockf} {locks : List Lockf} (isBlock : getBlock lock locks = .ok (some block)) :
    block ∈ locks ∧ Blocks block lock := by
  obtain ⟨_, isBlock', spec⟩ := getBlock_spec lock locks
  obtain rfl := Except.ok.inj (isBlock.symm.trans isBlock')
  exact spec

theorem Tried.records (records : Records system) (ready : Ready system vnode lock) (awake : system.wchan thread = none)
    (isRecord : IsRecordOf lock thread) (tried : Tried single system thread vnode lock system' answer) : Records system' := by
  have sound' := tried.sound ready awake
  cases tried with
  | granted _ changed =>
    refine records.setFile changed (forall_mem_singleton.mpr ?_) sound'
    exact ⟨isRecord.1, isRecord.2.1, rfl⟩
  | refused | deadlock => exact records
  | asleep _ _ _ changed =>
    have changedRecords := records.setFile changed (by simp) (ready.sound_setFile changed)
    refine ⟨sound', System.forall_setFile (P := fun _ file => ∀ lf ∈ file.locks, IsRecordOf lf lf.lfId) ?_ records.locks,
      forall_mem_append.mpr ⟨records.requests, forall_mem_singleton.mpr isRecord⟩⟩
    have isRecord' := changedRecords.locks vnode
    simp only [System.files_setFile] at isRecord'
    exact isRecord'

/-- The process that sleeps waits for the owner of the block, and the others wait as before. -/
theorem Ready.waitsFor_sleep (ready : Ready system vnode lock) (awake : system.wchan thread = none) {file : File} {block : Lockf}
    (changed : Changed (system.files vnode) file [] [system.fresh]) (onList : block ∈ file.locks) (blocks : Blocks block lock)
    {atHead : Bool} (p q : Nat)
    (waits : WaitsFor { system.setFile vnode { file with queues := file.queues.insert block.ref lock.ref atHead } with
      sleeping := system.sleeping ++ [{ thread := thread, vnode := vnode, request := lock }], fresh := system.fresh + 1 } p q) :
    WaitsFor system p q ∨ p = thread ∧ q = block.lfId := by
  have changedSound := ready.sound_setFile changed
  rw [(ready.sleep awake changed onList blocks atHead).waitsFor_iff] at waits
  obtain ⟨sleeper, mem, rfl, lf, isLf, isNext, rfl⟩ := waits
  rcases mem_append.mp mem with isOld | isNew
  · left
    apply ready.sound.waitsFor_setFile changed changedSound
    rw [changedSound.waitsFor_iff]
    refine ⟨sleeper, isOld, rfl, lf, ?_, ?_, rfl⟩
    · by_cases same : sleeper.vnode = vnode
      · simpa only [same, System.files_setFile] using isLf
      · simpa only [System.files_setFile_of_ne _ _ same] using isLf
    · by_cases same : sleeper.vnode = vnode
      · simpa only [same, System.files_setFile, Queues.insert, Function.update_of_ne (ready.awake sleeper isOld)] using isNext
      · simpa only [System.files_setFile_of_ne _ _ same] using isNext
  · right
    obtain rfl := mem_singleton.mp isNew
    simp only [System.files_setFile, Queues.insert, Function.update_self, Option.some_inj] at isLf isNext
    rw [inj_on_of_nodup_map changed.sound.distinct onList isLf isNext]
    exact ⟨rfl, rfl⟩

/-- A request that closes a cycle of two processes is refused, and no other one is; the graph has no cycle. -/
theorem Tried.acyclic (records : Records system) (ready : Ready system vnode lock) (awake : system.wchan thread = none)
    (isRecord : IsRecordOf lock thread) (detectable : Detectable system vnode lock)
    (tried : Tried single system thread vnode lock system' answer) :
    (answer = some (.error .EDEADLK) ↔ ClosesCycle system vnode lock) ∧ (Acyclic (WaitsFor system) → Acyclic (WaitsFor system')) := by
  have sound' := tried.sound ready awake
  have checked : ∀ {block}, getBlock lock (system.files vnode).locks = .ok (some block) →
      checkDeadlock system lock single block = .ok (decide (WaitsFor system block.lfId lock.lfId)) :=
    fun {block} isBlock => records.checkDeadlock isRecord.1 (records.locks vnode block (getBlock_mem isBlock).1).1
  have sameBlock : ∀ {block block'}, getBlock lock (system.files vnode).locks = .ok (some block) →
      getBlock lock (system.files vnode).locks = .ok (some block') → block = block' :=
    fun isBlock isBlock' => Option.some_inj.mp (Except.ok.inj (isBlock.symm.trans isBlock'))
  cases tried with
  | granted free changed =>
    refine ⟨⟨by rintro ⟨⟩, ?_⟩, fun acyclic => acyclic.mono (ready.sound.waitsFor_setFile changed sound')⟩
    rintro ⟨-, block, isBlock, -⟩
    cases free.symm.trans isBlock
  | refused _ noWait =>
    refine ⟨⟨by rintro ⟨⟩, ?_⟩, id⟩
    rintro ⟨waits, -⟩
    cases noWait.symm.trans waits
  | deadlock isBlock waits isDeadlock =>
    refine ⟨⟨fun _ => ⟨waits, _, isBlock, .single ?_⟩, fun _ => rfl⟩, id⟩
    rw [checked isBlock, Except.ok.injEq, decide_eq_true_eq] at isDeadlock
    exact isDeadlock
  | asleep isBlock _ noDeadlock changed onList sameRef sameId blocks =>
    rw [checked isBlock, Except.ok.injEq, decide_eq_false_iff_not] at noDeadlock
    have noPath := fun path => noDeadlock (detectable _ isBlock path)
    refine ⟨⟨by rintro ⟨⟩, ?_⟩, fun acyclic => ?_⟩
    · rintro ⟨-, block', isBlock', path⟩
      exact absurd (sameBlock isBlock isBlock' ▸ path) noPath
    · rw [← sameRef]
      refine acyclic.add (ready.waitsFor_sleep awake changed onList blocks) ?_
      rw [sameId, reflTransGen_iff_eq_or_transGen]
      rintro (isOwn | path)
      · exact blocks.1 (sameId.trans (isOwn.symm.trans isRecord.2.2.symm))
      · exact noPath (isRecord.2.2.symm ▸ path)

end Trying

/-! ## Steps -/

/-- The event is one of a process that only uses record locks. -/
def Event.IsRecord : Event → Prop
  | call thread _ request _ _ => request.posix = true ∧ request.id = thread
  | resume _ _ _ => True

/-- The step cuts no lock without a length off at the last byte. -/
def Event.CutsNone (system : System) : Event → Prop
  | call _ vnode request wait _ => ∀ start last, request.range = .ok (start, last) →
    (request.op = .setlk → SetWhole (system.files vnode).locks (asked system request wait start last)) ∧
      (request.op = .unlck → ClearWhole (system.files vnode).locks (asked system request wait start last))
  | resume thread error _ => error = none → ∀ sleeper, system.wchan thread = some sleeper →
    SetWhole (system.files sleeper.vnode).locks sleeper.request

/-- What a step needs so that no deadlock stays undetected. -/
structure Event.CanDetect (system : System) (event : Event) : Prop where
  isRecord : event.IsRecord
  cutsNone : event.CutsNone system
  detectable : ∀ vnode lock, event.Tries system vnode lock → Detectable system vnode lock

/-- `EDEADLK` is the answer to the requests that would close a cycle. -/
def RefusesCycles (system : System) (event : Event) (answer : Option Answer) : Prop :=
  answer = some (.error .EDEADLK) ↔ ∃ vnode lock, event.Tries system vnode lock ∧ ClosesCycle system vnode lock

section Steps

variable {system system' : System} {answer : Option Answer} (records : Records system)
include records

theorem Records.wakesAll (vnode : Nat) (lock : Lockf) : ClearWakesAll (system.files vnode) lock := by
  intro lf mem _ _
  exact .inr (.inl (records.locks vnode lf mem).2.1)

theorem Records.canTry {vnode : Nat} {lock : Lockf} (isPosix : lock.posix = true) (whole : SetWhole (system.files vnode).locks lock)
    : CanTry (system.files vnode) lock := by
  refine ⟨whole, fun notPosix => ?_, fun _ _ => records.wakesAll vnode lock⟩
  exact nomatch isPosix.symm.trans notPosix

theorem Records.canStep {event : Event} (isRecord : event.IsRecord) (cutsNone : event.CutsNone system) : event.CanStep system := by
  cases event with
  | call _ vnode =>
    intro start last accepted
    obtain ⟨whole, wholeClear⟩ := cutsNone start last accepted
    exact ⟨fun isOp => records.canTry isRecord.1 (whole isOp), fun isOp => ⟨wholeClear isOp, records.wakesAll vnode _⟩⟩
  | resume =>
    intro isNone sleeper isSleeper
    exact records.canTry (records.requests sleeper (System.mem_of_wchan isSleeper).1).1 (cutsNone isNone sleeper isSleeper)

omit records in
theorem isRecordOf_asked (system : System) {request : Request} {thread : Nat} (isPosix : request.posix = true) (isId : request.id = thread) (wait : Bool)
    (start last : Int) : IsRecordOf (asked system request wait start last) thread :=
  ⟨isPosix, by simp [asked, Request.lockf, isPosix], isId⟩

/-- What the request is tried in: the thread does not wait, and the others wait as before. -/
theorem Event.Tries.start {event : Event} {vnode : Nat} {lock : Lockf} (tries : event.Tries system vnode lock) (isRecord : event.IsRecord) :
    Records (event.start system) ∧ IsRecordOf lock event.thread ∧
      ((event.start system).files vnode).locks = (system.files vnode).locks ∧
      ∀ p q, WaitsFor (event.start system) p q ↔ p ≠ event.thread ∧ WaitsFor system p q := by
  cases tries with
  | call awake =>
    refine ⟨records.grow (Nat.le_succ _), isRecordOf_asked system isRecord.1 isRecord.2 _ _ _, rfl, fun p q => iff_and_self.mpr ?_⟩
    rintro waits rfl
    have waits : WaitsFor system _ q := waits
    simp [WaitsFor, System.waitsFor, awake] at waits
  | resume isSleeper =>
    obtain ⟨mem, rfl⟩ := System.mem_of_wchan isSleeper
    rw [Event.start, isSleeper]
    exact ⟨records.wakeUp mem, records.requests _ mem, wakeUp_locks _, records.sound.waitsFor_wakeUp mem⟩

omit records in
theorem Event.Tries.unique {event : Event} {vnode vnode' : Nat} {lock lock' : Lockf} (tries : event.Tries system vnode lock)
    (tries' : event.Tries system vnode' lock') : vnode' = vnode ∧ lock' = lock := by
  cases tries with
  | call _ _ accepted =>
    obtain ⟨-, -, accepted'⟩ := tries'
    obtain ⟨rfl, rfl⟩ := Prod.mk.inj (Except.ok.inj (accepted.symm.trans accepted'))
    exact ⟨rfl, rfl⟩
  | resume isSleeper =>
    obtain _ | isSleeper' := tries'
    obtain rfl := Option.some_inj.mp (isSleeper.symm.trans isSleeper')
    exact ⟨rfl, rfl⟩

theorem Stepped.acyclic {event : Event} (canDetect : event.CanDetect system) (stepped : Stepped single system event system' answer) :
    Records system' ∧ RefusesCycles system event answer ∧ (Acyclic (WaitsFor system) → Acyclic (WaitsFor system')) := by
  have sound' := stepped.sound records.sound
  have refusesNone : ∀ {answer}, answer ≠ some (.error .EDEADLK) → (∀ vnode lock, ¬ event.Tries system vnode lock) →
      RefusesCycles system event answer :=
    fun noDeadlock notTried => iff_of_false noDeadlock fun ⟨vnode, lock, tries, _⟩ => notTried vnode lock tries
  cases stepped with
  | answered grows noDeadlock notTried => exact ⟨records.grow grows, refusesNone noDeadlock notTried, id⟩
  | unlocked changed notTried =>
    exact ⟨records.setFile changed (by simp) sound', refusesNone nofun notTried,
      fun acyclic => acyclic.mono (records.sound.waitsFor_setFile changed sound')⟩
  | givenUp mem error notTried =>
    refine ⟨records.wakeUp mem, refusesNone ?_ notTried,
      fun acyclic => acyclic.mono fun p q waits => ((records.sound.waitsFor_wakeUp mem p q).mp waits).2⟩
    cases error <;> exact nofun
  | @tried vnode lock _ _ tries tried =>
    obtain ⟨ready, awake⟩ := tries.ready records.sound
    obtain ⟨records₁, isRecord, sameLocks, stillWaits⟩ := tries.start records canDetect.isRecord
    have detectable := canDetect.detectable vnode lock tries
    have fewer : ∀ p q, WaitsFor (event.start system) p q → WaitsFor system p q := fun p q waits => ((stillWaits p q).mp waits).2
    -- the owner of the block is another process, which waits as before
    have direct : ∀ {block}, getBlock lock (system.files vnode).locks = .ok (some block) →
        WaitsFor system block.lfId lock.lfId → WaitsFor (event.start system) block.lfId lock.lfId := by
      intro block isBlock waits
      exact (stillWaits _ _).mpr ⟨fun isOwn => (getBlock_mem isBlock).2.1 (isOwn.trans isRecord.2.2.symm), waits⟩
    have detectable₁ : Detectable (event.start system) vnode lock := by
      intro block isBlock path
      rw [sameLocks] at isBlock
      exact direct isBlock (detectable block isBlock (TransGen.mono fewer _ _ path))
    have sameCycles : ClosesCycle (event.start system) vnode lock ↔ ClosesCycle system vnode lock := by
      rw [ClosesCycle, ClosesCycle, sameLocks]
      constructor
      · rintro ⟨waits, block, isBlock, path⟩
        exact ⟨waits, block, isBlock, TransGen.mono fewer _ _ path⟩
      · rintro ⟨waits, block, isBlock, path⟩
        exact ⟨waits, block, isBlock, .single (direct isBlock (detectable block isBlock path))⟩
    obtain ⟨refuses, acyclic⟩ := tried.acyclic records₁ ready awake isRecord detectable₁
    refine ⟨tried.records records₁ ready awake isRecord, (refuses.trans sameCycles).trans ⟨fun closes => ⟨_, _, tries, closes⟩, ?_⟩,
      fun isAcyclic => acyclic (isAcyclic.mono fewer)⟩
    rintro ⟨_, _, tries', closes⟩
    obtain ⟨rfl, rfl⟩ := tries.unique tries'
    exact closes

end Steps

/-! ## Runs -/

/-- In every run of processes with one thread each, in which no lock is cut off at the last byte and no request closes a cycle of more than
two processes, there is never a cycle, and the requests refused with `EDEADLK` are those that would close one. -/
theorem run_acyclic (events : List Event) (allMeet : AllMeet single (fun system event => event.CanDetect system) idleSystem events) :
    ∃ system, run single idleSystem events = .ok system ∧ Acyclic (WaitsFor system) ∧
      ∀ event, event.CanDetect system → ∃ system' answer, step single system event = .ok (system', answer) ∧
        RefusesCycles system event answer ∧ Acyclic (WaitsFor system') := by
  have isStep : ∀ system event, Records system ∧ Acyclic (WaitsFor system) → event.CanDetect system →
      ∃ system' answer, step single system event = .ok (system', answer) ∧ RefusesCycles system event answer ∧
        Records system' ∧ Acyclic (WaitsFor system') := by
    rintro system event ⟨records, acyclic⟩ canDetect
    obtain ⟨system', answer, isStep, stepped⟩ := step_stepped records.sound (records.canStep canDetect.isRecord canDetect.cutsNone)
    obtain ⟨records', refuses, isAcyclic⟩ := stepped.acyclic records canDetect
    exact ⟨system', answer, isStep, refuses, records', isAcyclic acyclic⟩
  have isIdle : Records idleSystem ∧ Acyclic (WaitsFor idleSystem) := by
    refine ⟨⟨sound_idleSystem, nofun, nofun⟩, fun p isCycle => ?_⟩
    obtain ⟨q, waits, -⟩ := TransGen.head'_iff.mp isCycle
    cases waits
  obtain ⟨system, isRun, records, acyclic⟩ := run_preserves
    (fun system event holds canDetect => by
      obtain ⟨system', answer, isStep, -, holds'⟩ := isStep system event holds canDetect
      exact ⟨system', answer, isStep, holds'⟩) isIdle allMeet
  refine ⟨system, isRun, acyclic, fun event canDetect => ?_⟩
  obtain ⟨system', answer, isStep, refuses, -, acyclic'⟩ := isStep system event ⟨records, acyclic⟩ canDetect
  exact ⟨system', answer, isStep, refuses, acyclic'⟩

/-- A process asks for a byte of the file, and waits for it. -/
def takeByte (p : Nat) (byte : Int) (isOff : IsOff byte) : Event := .call p 0 (posixRequest .setlk p .wrlck byte 1 isOff isOff_one) true false

/-- Two processes each hold a byte. The first one waits for that of the other one, which is refused that of the first one. -/
def crossed : List Event := [takeByte 1 0 isOff_zero, takeByte 2 1 isOff_one, takeByte 1 1 isOff_one, takeByte 2 0 isOff_zero]

theorem canDetect_takeByte {system : System} {p : Nat} {byte : Int} {isOff : IsOff byte}
    (accepted : (posixRequest .setlk p .wrlck byte 1 isOff (by decide)).range = .ok (byte, byte)) (notMax : byte ≠ offMax)
    (detectable : Detectable system 0 (asked system (posixRequest .setlk p .wrlck byte 1 isOff (by decide)) true byte byte)) :
    (takeByte p byte isOff).CanDetect system := by
  refine ⟨⟨rfl, rfl⟩, ?_, ?_⟩
  · intro start last accepted'
    obtain ⟨rfl, rfl⟩ := Prod.mk.inj (Except.ok.inj (accepted.symm.trans accepted'))
    exact ⟨fun _ isMax => absurd isMax notMax, by rintro ⟨⟩⟩
  · intro vnode lock tries
    cases tries with
    | call _ _ accepted' =>
      obtain ⟨rfl, rfl⟩ := Prod.mk.inj (Except.ok.inj (accepted.symm.trans accepted'))
      exact detectable

/-- Nobody waits, so no request closes a cycle. -/
theorem detectable_of_awake {system : System} (noneSleep : system.sleeping = []) (vnode : Nat) (lock : Lockf) :
    Detectable system vnode lock := by
  intro block _ path
  obtain ⟨q, waits, -⟩ := TransGen.head'_iff.mp path
  rw [WaitsFor, System.waitsFor, System.wchan, noneSleep] at waits
  cases waits

theorem crossed_acyclic : AllMeet single (fun system event => event.CanDetect system) idleSystem crossed ∧
      ∃ system, run single idleSystem crossed = .ok system ∧ Acyclic (WaitsFor system) ∧
        ∀ event, event.CanDetect system → ∃ system' answer, step single system event = .ok (system', answer) ∧
          RefusesCycles system event answer ∧ Acyclic (WaitsFor system') := by
  have allMeet : AllMeet single (fun system event => event.CanDetect system) idleSystem crossed := by
    refine ⟨canDetect_takeByte rfl (by decide) (detectable_of_awake rfl _ _), fun _ _ isStep => ?_⟩
    cases isStep
    refine ⟨canDetect_takeByte rfl (by decide) (detectable_of_awake rfl _ _), fun _ _ isStep => ?_⟩
    cases isStep
    refine ⟨canDetect_takeByte rfl (by decide) (detectable_of_awake rfl _ _), fun _ _ isStep => ?_⟩
    cases isStep
    refine ⟨canDetect_takeByte rfl (by decide) ?_, fun _ _ _ => trivial⟩
    intro block isBlock _
    obtain rfl := Option.some_inj.mp (Except.ok.inj isBlock)
    rfl
  exact ⟨allMeet, run_acyclic _ allMeet⟩

/-- Three processes each hold a byte, and each waits for that of the next one. -/
def threeCrossed : List Event :=
  [takeByte 1 0 isOff_zero, takeByte 2 1 isOff_one, takeByte 3 2 isOff_two, takeByte 1 1 isOff_one, takeByte 2 2 isOff_two,
    takeByte 3 0 isOff_zero]

/-- All three sleep. -/
theorem threeCrossed_cycle : ∃ system, run single idleSystem threeCrossed = .ok system ∧ ¬ Acyclic (WaitsFor system) := by
  refine ⟨_, rfl, fun acyclic => acyclic 1 ?_⟩
  apply TransGen.tail (b := 3)
  · apply TransGen.tail (b := 2)
    · exact .single (by rfl)
    · rfl
  · rfl

end DarwinNotes.Xnu.Locks
