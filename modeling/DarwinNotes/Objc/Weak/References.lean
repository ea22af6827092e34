import DarwinNotes.Lib.Threads
import DarwinNotes.Objc.Weak.Model

/-!
# Weak variables

`storeWeak`, `objc_loadWeakRetained` and the functions made of them, with the retain
counts and the deallocation of the objects. What a function does while it holds the
locks of the side tables is one step of its thread; the read of the variable before
it takes them is another.

The conditions on the caller are conditions of the steps: a weak variable is
initialised where there is none, is used while there is one, an object that is stored
has not been through the end of its deallocation, and a release is of a reference.
A thread for which they fail, or that meets a fatal error, takes no step.
-/

namespace DarwinNotes.Objc.Weak.References
open Function

/-- `cleared` is after the weak references have been cleared and before the memory is freed. -/
inductive Phase
  | unallocated
  | alive
  | deallocating
  | cleared
  deriving DecidableEq, Repr

/-- An object. The bits are those of its isa, or of its word of the side table if the isa is raw. -/
structure ObjectState where
  phase : Phase
  cls : Nat
  nonpointer : Bool
  weaklyReferenced : Bool
  hasSidetableRc : Bool
  deallocating : Bool
  retainCount : Nat

/-- What does not change: the hash functions, the number of the side table of an address, which addresses
are tagged pointers, and the classes with their own retain and release. -/
structure Runtime where
  hashes : Hashes
  sideTables : Nat → Nat
  isTaggedPointer : Nat → Bool
  hasCustomRR : Nat → Bool

/-- The contents of the variables, the weak tables, the objects, and the classes that are initialized. As
history, the variables that were initialised as weak ones and not destroyed since. -/
structure Shared where
  memory : Nat → Nat
  live : Nat → Bool
  weakTables : Nat → WeakTable
  objects : Nat → ObjectState
  isInitialized : Nat → Bool

/-- The calls, and the statements of `objc_copyWeak` and `objc_moveWeak` that follow their first call;
these use the local variable `obj`. -/
inductive Call
  | initWeak (location newObj : Nat) (orNil : Bool)
  | storeWeak (location newObj : Nat) (orNil : Bool)
  | destroyWeak (location : Nat)
  | loadWeakRetained (location : Nat)
  | copyWeak (dst src : Nat)
  | moveWeak (dst src : Nat)
  | initWeakObj (dst : Nat)
  | releaseObj
  | setNil (src : Nat)
  | alloc (obj cls : Nat) (nonpointer : Bool)
  | retain (obj : Nat)
  | release (obj : Nat)
  /-- `clearDeallocating`, in `objc_destructInstance` -/
  | clearDeallocating (obj : Nat)
  | free (obj : Nat)

/-- The arguments of `storeWeak` and its variable `previouslyInitializedClass`. -/
structure Store where
  haveOld : Bool
  haveNew : Bool
  crashIfDeallocating : Bool
  location : Nat
  newObj : Nat
  previouslyInitializedClass : Option Nat

inductive Pc
  /-- about to make the next call -/
  | next
  /-- at `retry` in `storeWeak` -/
  | storeRead (store : Store)
  | storeLock (store : Store) (oldObj : Nat)
  | storeInitialize (store : Store) (cls : Nat)
  /-- at `retry` in `objc_loadWeakRetained` -/
  | loadRead (location : Nat)
  | loadLock (location obj : Nat)
  | loadInitialize (location cls : Nat)
  /-- about to lock in `clearDeallocating_slow` or `sidetable_clearDeallocating` -/
  | clearLock (obj : Nat)

/-- A thread: where it is, the rest of what it is doing, and `obj`, which also has the result of a call of
`objc_loadWeakRetained`. -/
structure Local where
  pc : Pc
  todo : List Call
  obj : Nat

/-- What is not decided here: the next call of a thread that is not in the middle of one, the answers of
the methods of classes with their own retain and release, `none` where they are forwarded, where memory is
allocated, whether a retain overflows to the side table, and the progress of `class_initialize`. -/
structure Choice where
  call : Call
  allowsWeakReference : Option Bool
  retainWeakReference : Option Bool
  newBlock : Nat
  overflow : Bool
  initialized : Bool
  thisThreadIsInitializingClass : Bool

variable (runtime : Runtime) (choice : Choice)

/-! ## Retain and release -/

variable (g : Shared) (obj : Nat)

/-- `objc_retain`. -/
def retain : Option Shared :=
  if obj = 0 ∨ runtime.isTaggedPointer obj = true then some g
  else
    let object := g.objects obj
    if object.phase = .alive ∨ object.phase = .deallocating then
      some { g with
        objects := update g.objects obj { object with
          retainCount := object.retainCount + 1
          hasSidetableRc := object.hasSidetableRc || choice.overflow } }
    else none

/-- `objc_release`: the last reference sets the deallocating bit. A reference that was taken during the
deallocation is given back before its end. -/
def release : Option Shared :=
  if obj = 0 ∨ runtime.isTaggedPointer obj = true then some g
  else
    let object := g.objects obj
    if object.phase = .alive then
      if object.retainCount ≤ 1 then
        some { g with
          objects := update g.objects obj { object with
            retainCount := 0
            deallocating := true
            phase := .deallocating } }
      else
        some { g with
          objects := update g.objects obj { object with
            retainCount := object.retainCount - 1 } }
    else if object.phase = .deallocating ∧ 1 ≤ object.retainCount then
      some { g with
        objects := update g.objects obj { object with
          retainCount := object.retainCount - 1 } }
    else none

/-- `rootTryRetain`, or `retainWeakReference`, which refuses an object that is deallocating. -/
def tryRetain : Option (Shared × Nat) :=
  let object := g.objects obj
  let retained : Shared := { g with
    objects := update g.objects obj { object with
      retainCount := object.retainCount + 1
      hasSidetableRc := object.hasSidetableRc || choice.overflow } }
  if runtime.hasCustomRR object.cls then
    match choice.retainWeakReference with
    | some true => if object.deallocating then none else some (retained, obj)
    | _ => some (g, 0)
  else if object.deallocating then some (g, 0)
  else some (retained, obj)

/-! ## Weak variables -/

/-- `*location = nil` where there is no weak variable yet. -/
def setNil (location : Nat) : Option Shared :=
  if location = 0 ∨ g.live location = true then none
  else some { g with memory := update g.memory location 0, live := update g.live location true }

/-- What `weak_register_no_lock` sees of an object; `allowsWeakReference` refuses an object that is
deallocating. -/
def registrant : Option Object :=
  let object := g.objects obj
  if choice.allowsWeakReference = some true ∧ object.deallocating = true then none
  else some ⟨runtime.isTaggedPointer obj, runtime.hasCustomRR object.cls, object.deallocating, choice.allowsWeakReference⟩

/-- The old value is unregistered, if there is one. -/
def unregisterOld (store : Store) (oldObj : Nat) : Option (Nat → WeakTable) :=
  if store.haveOld then
    let table := runtime.sideTables oldObj
    (weakUnregisterNoLock runtime.hashes (g.weakTables table) oldObj store.location).map
      (update g.weakTables table)
  else some g.weakTables

/-- The new value is registered and stored, or nil. -/
def registerNew (store : Store) (weakTables : Nat → WeakTable) : Option Shared :=
  let table := runtime.sideTables store.newObj
  (registrant runtime choice g store.newObj).bind fun object =>
    (weakRegisterNoLock runtime.hashes (weakTables table) object store.newObj store.location choice.newBlock
      store.crashIfDeallocating).map fun (weakTable, newObj) =>
        { g with
          weakTables := update weakTables table weakTable
          -- setWeaklyReferenced_nolock
          objects :=
            if newObj = 0 ∨ runtime.isTaggedPointer newObj = true then g.objects
            else
              update g.objects newObj { g.objects newObj with
                weaklyReferenced := true }
          memory := update g.memory store.location newObj
          live := update g.live store.location true }

/-- An object that can be stored. -/
def storable : Bool :=
  decide (obj = 0) || runtime.isTaggedPointer obj || decide ((g.objects obj).phase = .alive) ||
    decide ((g.objects obj).phase = .deallocating)

variable (here : Local)

/-- `storeWeak` with the locks held. -/
def storeLocked (store : Store) (oldObj : Nat) : Option (Shared × Local) :=
  if store.location = 0 ∨ g.live store.location ≠ store.haveOld ∨ storable runtime g store.newObj = false then none
  else if store.haveOld = true ∧ g.memory store.location ≠ oldObj then
    some (g, { here with pc := .storeRead store })
  else
    let cls := (g.objects store.newObj).cls
    if store.haveNew = true ∧ store.newObj ≠ 0 ∧ store.previouslyInitializedClass ≠ some cls ∧ g.isInitialized cls = false then
      some (g, { here with pc := .storeInitialize store cls })
    else
      (unregisterOld runtime g store oldObj).bind fun weakTables =>
        if store.haveNew then
          (registerNew runtime choice g store weakTables).map (·, { here with pc := .next })
        else
          -- the storage is not changed
          some ({ g with weakTables := weakTables, live := update g.live store.location false },
            { here with pc := .next })

/-- `objc_loadWeakRetained` with the lock held. -/
def loadLocked (location obj : Nat) : Option (Shared × Local) :=
  if g.live location = false then none
  else if g.memory location ≠ obj then some (g, { here with pc := .loadRead location })
  else
    let cls := (g.objects obj).cls
    if runtime.hasCustomRR cls = true ∧ g.isInitialized cls = false ∧ choice.thisThreadIsInitializingClass = false then
      some (g, { here with pc := .loadInitialize location cls })
    else
      (tryRetain runtime choice g obj).map fun (g', result) => (g', { here with pc := .next, obj := result })

/-! ## Deallocation -/

/-- `clearDeallocating` up to the lock, which it does not take for an object without weak references. -/
def clearDeallocating (obj : Nat) : Option (Shared × Local) :=
  let object := g.objects obj
  if object.phase ≠ .deallocating then none
  else if object.nonpointer = false ∨ object.weaklyReferenced = true ∨ object.hasSidetableRc = true then
    some (g, { here with pc := .clearLock obj })
  else
    some ({ g with
      objects := update g.objects obj { object with
        phase := .cleared } }, here)

/-- `clearDeallocating_slow` or `sidetable_clearDeallocating` with the lock held. The word of an object
with a raw isa is erased from the side table. -/
def clearLocked (obj : Nat) : Option (Shared × Local) :=
  let object := g.objects obj
  if object.phase ≠ .deallocating then none
  else
    let cleared : ObjectState := { object with
      phase := .cleared
      weaklyReferenced := object.nonpointer && object.weaklyReferenced
      deallocating := object.nonpointer && object.deallocating }
    let objects := update g.objects obj cleared
    if object.weaklyReferenced then
      let table := runtime.sideTables obj
      (weakClearNoLock runtime.hashes (g.weakTables table) g.memory obj).map fun (weakTable, memory) =>
        ({ g with objects := objects, weakTables := update g.weakTables table weakTable, memory := memory },
          { here with pc := .next })
    else some ({ g with objects := objects }, { here with pc := .next })

/-- A new object. -/
def alloc (obj cls : Nat) (nonpointer : Bool) : Option Shared :=
  if obj = 0 ∨ runtime.isTaggedPointer obj = true ∨ (g.objects obj).phase ≠ .unallocated then none
  else some { g with objects := update g.objects obj ⟨.alive, cls, nonpointer, false, false, false, 1⟩ }

def free : Option Shared :=
  if (g.objects obj).phase ≠ .cleared then none
  else some { g with
    objects := update g.objects obj { g.objects obj with
      phase := .unallocated } }

/-! ## Threads -/

/-- `objc_initWeak` and `objc_initWeakOrNil`. -/
def initWeak (location newObj : Nat) (orNil : Bool) : Option (Shared × Local) :=
  if newObj = 0 then (setNil g location).map (·, here)
  else some (g, { here with pc := .storeRead ⟨false, true, !orNil, location, newObj, none⟩ })

/-- A thread makes a call. -/
def enter : Call → Option (Shared × Local)
  | .initWeak location newObj orNil => initWeak g here location newObj orNil
  | .storeWeak location newObj orNil => some (g, { here with pc := .storeRead ⟨true, true, !orNil, location, newObj, none⟩ })
  | .destroyWeak location => some (g, { here with pc := .storeRead ⟨true, false, false, location, 0, none⟩ })
  | .loadWeakRetained location => some (g, { here with pc := .loadRead location })
  | .copyWeak dst src => some (g, { here with todo := .loadWeakRetained src :: .initWeakObj dst :: .releaseObj :: here.todo })
  | .moveWeak dst src => some (g, { here with todo := .copyWeak dst src :: .destroyWeak src :: .setNil src :: here.todo })
  | .initWeakObj dst => initWeak g here dst here.obj false
  | .releaseObj => (release runtime g here.obj).map (·, here)
  | .setNil src => (setNil g src).map (·, here)
  | .alloc obj cls nonpointer => (alloc runtime g obj cls nonpointer).map (·, here)
  | .retain obj => (retain runtime choice g obj).map (·, here)
  | .release obj => (release runtime g obj).map (·, here)
  | .clearDeallocating obj => clearDeallocating g here obj
  | .free obj => (free g obj).map (·, here)

/-- The next step of a thread. -/
def advance : Option (Shared × Local) :=
  match here.pc with
  | .next =>
    match here.todo with
    | [] => enter runtime choice g here choice.call
    | call :: todo => enter runtime choice g { here with todo := todo } call
  | .storeRead store => some (g, { here with pc := .storeLock store (if store.haveOld then g.memory store.location else 0) })
  | .storeLock store oldObj => storeLocked runtime choice g here store oldObj
  | .storeInitialize store cls =>
    some ({ g with isInitialized := update g.isInitialized cls (g.isInitialized cls || choice.initialized) },
      { here with pc := .storeRead { store with previouslyInitializedClass := some cls } })
  | .loadRead location =>
    let obj := g.memory location
    if obj = 0 ∨ runtime.isTaggedPointer obj = true then some (g, { here with pc := .next, obj := obj })
    else some (g, { here with pc := .loadLock location obj })
  | .loadLock location obj => loadLocked runtime choice g here location obj
  | .loadInitialize location cls =>
    some ({ g with isInitialized := update g.isInitialized cls (g.isInitialized cls || choice.initialized) },
      { here with pc := .loadRead location })
  | .clearLock obj => clearLocked runtime g here obj

/-- What a thread can do. -/
def ThreadStep {Thread : Type} : Lib.Threads.ThreadStep Thread Shared Local := fun _ g here g' here' =>
  ∃ choice, advance runtime choice g here = some (g', here')

/-- No weak variable and no object exists yet. -/
structure Initial {Thread : Type} (config : Lib.Threads.Config Thread Shared Local) : Prop where
  unused : ∀ location, config.shared.live location = false
  zeroed : ∀ table, config.shared.weakTables table = zeroTable runtime.hashes
  unallocated : ∀ obj, (config.shared.objects obj).phase = .unallocated
  idle : ∀ thread, (config.threads thread).pc = .next ∧ (config.threads thread).todo = []

end DarwinNotes.Objc.Weak.References
