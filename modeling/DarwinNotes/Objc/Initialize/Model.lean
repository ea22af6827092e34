import DarwinNotes.Lib.Threads

/-!
# The `+initialize` protocol

`initializeNonMetaClass` as a machine of threads. A thread is a stack of
activations of `initializeNonMetaClass`; above an activation whose `+initialize`
(or will-initialize callback) is running there may be further ones, for any
classes, which that user code triggered. Sections under `classInitLock` do not
overlap; the tests the source makes without the lock are steps of their own. The
process is not the child of a multithreaded `fork`.
-/

namespace DarwinNotes.Objc.Initialize

/-- The calls of `_objc_fatal`, and the assertion of `_finishInitializing`. -/
inductive Fatal
  /-- "thread is already initializing this class!" -/
  | alreadyInitializing
  /-- "thread is not initializing this class!" -/
  | notInitializing
  /-- "thread-safe class init in objc runtime is buggy!" -/
  | buggy
  /-- `ASSERT(!supercls || supercls->isInitialized())` -/
  | superclassNotInitialized
  deriving DecidableEq, Repr

/-- `RW_INITIALIZING` and `RW_INITIALIZED` of the metaclass. -/
structure Info where
  initializing : Bool
  initialized : Bool
  deriving DecidableEq, Repr

variable {Class Thread : Type}

/-! ## The per-thread list -/

/-- `initializingClasses` of a thread: `none` until it is first created, then
`classesAllocated` slots. -/
abbrev ClassList (Class : Type) := Option (List (Option Class))

/-- `_fetchInitializingClassList`. -/
def fetchInitializingClassList (create : Bool) (list : ClassList Class) : ClassList Class :=
  match list with
  | some slots => some slots
  | none => if create then some (List.replicate 4 none) else none

section Slots

variable [DecidableEq Class] (list : ClassList Class)

/-- `_thisThreadIsInitializingClass`. -/
def thisThreadIsInitializingClass (cls : Class) : Bool :=
  match fetchInitializingClassList false list with
  | some slots => decide (some cls ∈ slots)
  | none => false

/-- The first free slot takes the class; a full list grows to `2 * n + 1` slots. -/
def fillSlot (cls : Class) (allocated : Nat) : List (Option Class) → List (Option Class)
  | [] => some cls :: List.replicate allocated none
  | none :: slots => some cls :: slots
  | some other :: slots => some other :: fillSlot cls allocated slots

/-- `_setThisThreadIsInitializingClass`. -/
def setThisThreadIsInitializingClass (cls : Class) : Except Fatal (ClassList Class) :=
  let slots := (fetchInitializingClassList true list).getD []
  if some cls ∈ slots then .error .alreadyInitializing
  else .ok (some (fillSlot cls slots.length slots))

/-- The first slot of the class is cleared. -/
def clearSlot (cls : Class) : List (Option Class) → List (Option Class)
  | [] => []
  | slot :: slots => if slot = some cls then none :: slots else slot :: clearSlot cls slots

/-- `_setThisThreadIsNotInitializingClass`. -/
def setThisThreadIsNotInitializingClass (cls : Class) : Except Fatal (ClassList Class) :=
  match fetchInitializingClassList false list with
  | some slots => if some cls ∈ slots then .ok (some (clearSlot cls slots)) else .error .notInitializing
  | none => .error .notInitializing

end Slots

/-! ## States -/

/-- Where an activation of `initializeNonMetaClass` stands. -/
inductive Pc (Class : Type)
  /-- about to test `supercls->isInitialized()` -/
  | start
  /-- inside `initializeNonMetaClass(supercls)` -/
  | inSuper
  /-- about to enter the section that tries to set `CLS_INITIALIZING` -/
  | tryInitializing
  /-- about to record the class in the thread's list -/
  | record (callbacks : Nat)
  /-- in the will-initialize callbacks, so many not yet returned -/
  | callbacks (remaining : Nat)
  /-- in `callInitialize` -/
  | initializing
  /-- about to enter `lockAndFinishInitializing` -/
  | finish (rethrow : Bool)
  /-- in `_finishInitializing`, with the calls of it still to be made -/
  | finishing (work : List (Class × Option Class)) (rethrow : Bool)
  /-- about to test `cls->isInitializing()` -/
  | checkInitializing
  /-- about to test `_thisThreadIsInitializingClass(cls)` -/
  | checkThread
  /-- in `waitForInitializeToComplete` -/
  | waiting
  /-- about to test `cls->isInitialized()` -/
  | checkInitialized

/-- An activation of `initializeNonMetaClass`. -/
structure Frame (Class : Type) where
  cls : Class
  pc : Pc Class

structure Local (Class : Type) where
  list : ClassList Class
  stack : List (Frame Class)
  throwing : Bool

/-- What the threads share. `pendingInitializeMap` is `[]` where the map has no
entry. The last three fields are history: who set `CLS_INITIALIZING`, and how
often `+initialize` was sent to the class and came back from it. -/
structure Shared (Class Thread : Type) where
  info : Class → Info
  pendingInitializeMap : Class → List Class
  classInitLock : Option Thread
  willInitializeFuncs : Nat
  fatal : Option Fatal
  initializer : Class → Option Thread
  started : Class → Nat
  returned : Class → Nat

namespace Shared

variable (g : Shared Class Thread) (cls : Class)

def isInitialized : Bool := (g.info cls).initialized

def isInitializing : Bool := (g.info cls).initializing

variable [DecidableEq Class]

/-- `setInfo(RW_INITIALIZING)`. -/
def setInitializing (thread : Thread) (cls : Class) : Shared Class Thread :=
  { g with
    info := Function.update g.info cls { g.info cls with initializing := true }
    initializer := Function.update g.initializer cls (some thread) }

/-- `changeInfo(RW_INITIALIZED, RW_INITIALIZING)`. -/
def setInitialized : Shared Class Thread :=
  { g with info := Function.update g.info cls ⟨false, true⟩ }

/-- `pendingInitializeMap->erase`. -/
def erasePending : Shared Class Thread :=
  { g with pendingInitializeMap := Function.update g.pendingInitializeMap cls [] }

/-- `_finishInitializingAfter`: the new entry goes to the front. -/
def finishInitializingAfter (cls supercls : Class) : Shared Class Thread :=
  { g with
    pendingInitializeMap := Function.update g.pendingInitializeMap supercls (cls :: g.pendingInitializeMap supercls) }

def noteStarted : Shared Class Thread :=
  { g with started := Function.update g.started cls (g.started cls + 1) }

def noteReturned : Shared Class Thread :=
  { g with returned := Function.update g.returned cls (g.returned cls + 1) }

variable {g} {thread : Thread} {cls x : Class}

@[simp] theorem isInitialized_setInitializing : (g.setInitializing thread cls).isInitialized x = g.isInitialized x := by
  by_cases same : x = cls <;> simp [setInitializing, isInitialized, same]

@[simp] theorem isInitializing_setInitializing :
    (g.setInitializing thread cls).isInitializing x = (decide (x = cls) || g.isInitializing x) := by
  by_cases same : x = cls <;> simp [setInitializing, isInitializing, same]

@[simp] theorem initializer_setInitializing :
    (g.setInitializing thread cls).initializer x = if x = cls then some thread else g.initializer x := by
  simp [setInitializing, Function.update_apply]

@[simp] theorem isInitialized_setInitialized : (g.setInitialized cls).isInitialized x = (decide (x = cls) || g.isInitialized x) := by
  by_cases same : x = cls <;> simp [setInitialized, isInitialized, same]

@[simp] theorem isInitializing_setInitialized : (g.setInitialized cls).isInitializing x = (!decide (x = cls) && g.isInitializing x) := by
  by_cases same : x = cls <;> simp [setInitialized, isInitializing, same]

@[simp] theorem pending_setInitialized : (g.setInitialized cls).pendingInitializeMap = g.pendingInitializeMap := rfl

@[simp] theorem isInitialized_erasePending : (g.erasePending cls).isInitialized x = g.isInitialized x := rfl

@[simp] theorem isInitializing_erasePending : (g.erasePending cls).isInitializing x = g.isInitializing x := rfl

@[simp] theorem mem_pending_erasePending {sup : Class} :
    x ∈ (g.erasePending cls).pendingInitializeMap sup ↔ sup ≠ cls ∧ x ∈ g.pendingInitializeMap sup := by
  by_cases same : sup = cls <;> simp [erasePending, same]

@[simp] theorem mem_pending_finishInitializingAfter {supercls sup : Class} :
    x ∈ (g.finishInitializingAfter cls supercls).pendingInitializeMap sup ↔ sup = supercls ∧ x = cls ∨ x ∈ g.pendingInitializeMap sup := by
  by_cases same : sup = supercls <;> simp [finishInitializingAfter, same]

@[simp] theorem started_noteStarted : (g.noteStarted cls).started x = g.started x + if x = cls then 1 else 0 := by
  by_cases same : x = cls <;> simp [noteStarted, same]

@[simp] theorem returned_noteReturned : (g.noteReturned cls).returned x = g.returned x + if x = cls then 1 else 0 := by
  by_cases same : x = cls <;> simp [noteReturned, same]

end Shared

/-! ## Steps -/

/-- Leave the top activation: its caller goes on, or unwinds. -/
def leave (here : Local Class) (rest : List (Frame Class)) (rethrow : Bool) : Local Class :=
  if rethrow then { here with stack := rest, throwing := true }
  else
    match rest with
    | ⟨caller, .inSuper⟩ :: outer => { here with stack := ⟨caller, .tryInitializing⟩ :: outer }
    | _ => { here with stack := rest }

section Code

variable [DecidableEq Class] (superclass : Class → Option Class) (thread : Thread)

/-- One call of `_finishInitializing`, up to its recursive calls: those are put in
front of the calls that are still to be made. -/
def finishOne (g : Shared Class Thread) (list : ClassList Class) (cls : Class) (supercls : Option Class)
    (work : List (Class × Option Class)) : Except Fatal (Shared Class Thread × ClassList Class × List (Class × Option Class)) :=
  if supercls.any fun sup => !g.isInitialized sup then .error .superclassNotInitialized
  else
    match setThisThreadIsNotInitializingClass list cls with
    | .error fatal => .error fatal
    | .ok list =>
      let pending := g.pendingInitializeMap cls
      .ok ((g.setInitialized cls).erasePending cls, list, pending.map (fun sub => (sub, some cls)) ++ work)

/-- The next action of the runtime's own code in the top activation; `none` while
user code runs above it, while it unwinds and while it has to wait. -/
def advance (g : Shared Class Thread) (here : Local Class) : Option (Shared Class Thread × Local Class) :=
  match here.throwing, here.stack with
  | true, _ => none
  | false, [] => none
  | false, ⟨cls, pc⟩ :: rest =>
    let goto := fun pc => { here with stack := ⟨cls, pc⟩ :: rest }
    match pc with
    | .start =>
      match superclass cls with
      | none => some (g, goto .tryInitializing)
      | some sup =>
        if g.isInitialized sup then some (g, goto .tryInitializing)
        else some (g, { here with stack := ⟨sup, .start⟩ :: ⟨cls, .inSuper⟩ :: rest })
    | .inSuper => none
    | .tryInitializing =>
      if g.classInitLock.isSome then none
      else if !g.isInitialized cls && !g.isInitializing cls then
        some (g.setInitializing thread cls, goto (.record g.willInitializeFuncs))
      else some (g, goto .checkInitializing)
    | .record callbacks =>
      match setThisThreadIsInitializingClass here.list cls with
      | .error fatal => some ({ g with fatal := some fatal }, here)
      | .ok list => some (g, { here with list, stack := ⟨cls, .callbacks callbacks⟩ :: rest })
    | .callbacks 0 => some (g.noteStarted cls, goto .initializing)
    | .callbacks (_ + 1) => none
    | .initializing => none
    | .finish rethrow =>
      if g.classInitLock.isSome then none
      else
        match superclass cls with
        | none => some ({ g with classInitLock := some thread }, goto (.finishing [(cls, none)] rethrow))
        | some sup =>
          if g.isInitialized sup then
            some ({ g with classInitLock := some thread }, goto (.finishing [(cls, some sup)] rethrow))
          else some (g.finishInitializingAfter cls sup, leave here rest rethrow)
    | .finishing [] rethrow => some ({ g with classInitLock := none }, leave here rest rethrow)
    | .finishing ((next, supercls) :: work) rethrow =>
      match finishOne g here.list next supercls work with
      | .error fatal => some ({ g with fatal := some fatal }, here)
      | .ok (g, list, work) => some (g, { here with list, stack := ⟨cls, .finishing work rethrow⟩ :: rest })
    | .checkInitializing => if g.isInitializing cls then some (g, goto .checkThread) else some (g, goto .checkInitialized)
    | .checkThread => if thisThreadIsInitializingClass here.list cls then some (g, leave here rest false) else some (g, goto .waiting)
    | .waiting =>
      if g.classInitLock.isSome then none
      else if g.isInitialized cls then some (g, leave here rest false) else none
    | .checkInitialized =>
      if g.isInitialized cls then some (g, leave here rest false)
      else some ({ g with fatal := some .buggy }, here)

/-- User code runs on top of such a stack. -/
def InUserCode : List (Frame Class) → Prop
  | [] => True
  | ⟨_, .callbacks (_ + 1)⟩ :: _ => True
  | ⟨_, .initializing⟩ :: _ => True
  | _ => False

/-- What one thread can do: the runtime's code, and user code that triggers
`initializeNonMetaClass`, returns, throws or catches. -/
inductive ThreadStep : Lib.Threads.ThreadStep Thread (Shared Class Thread) (Local Class)
  | code {thread g here g' here'} : advance superclass thread g here = some (g', here') → ThreadStep thread g here g' here'
  | call {thread g list stack} (cls : Class) : InUserCode stack →
      ThreadStep thread g ⟨list, stack, false⟩ g ⟨list, ⟨cls, .start⟩ :: stack, false⟩
  | callbackReturns {thread g list cls remaining rest} : ThreadStep thread g ⟨list, ⟨cls, .callbacks (remaining + 1)⟩ :: rest, false⟩
        g ⟨list, ⟨cls, .callbacks remaining⟩ :: rest, false⟩
  | initializeReturns {thread g list cls rest} : ThreadStep thread g ⟨list, ⟨cls, .initializing⟩ :: rest, false⟩
        (g.noteReturned cls) ⟨list, ⟨cls, .finish false⟩ :: rest, false⟩
  | throws {thread g list stack} : InUserCode stack → ThreadStep thread g ⟨list, stack, false⟩ g ⟨list, stack, true⟩
  | catches {thread g list stack} : InUserCode stack → ThreadStep thread g ⟨list, stack, true⟩ g ⟨list, stack, false⟩
  /-- An exception leaves `+initialize`, which counts as complete: `@finally`. -/
  | initializeThrows {thread g list cls rest} : ThreadStep thread g ⟨list, ⟨cls, .initializing⟩ :: rest, true⟩
        (g.noteReturned cls) ⟨list, ⟨cls, .finish true⟩ :: rest, false⟩
  /-- An exception leaves an activation outside of its `@try`. -/
  | unwind {thread g list cls pc rest} : (pc = .inSuper ∨ ∃ remaining, pc = .callbacks (remaining + 1)) →
      ThreadStep thread g ⟨list, ⟨cls, pc⟩ :: rest, true⟩ g ⟨list, rest, true⟩
  /-- `_objc_addWillInitializeClassFunc`. -/
  | addWillInitializeClassFunc {thread g here} : ThreadStep thread g here { g with willInitializeFuncs := g.willInitializeFuncs + 1 } here

end Code

/-- No class has been initialized and no thread has called the runtime. -/
def Initial (config : Lib.Threads.Config Thread (Shared Class Thread) (Local Class)) : Prop :=
  config.shared = ⟨fun _ => ⟨false, false⟩, fun _ => [], none, 0, none, fun _ => none, fun _ => 0, fun _ => 0⟩ ∧
  ∀ thread, config.threads thread = ⟨none, [], false⟩

end DarwinNotes.Objc.Initialize
