import DarwinNotes.Lib.Threads

/-!
# Retain and release of a nonpointer-isa object

`rootRetain`, `rootTryRetain` and `rootRelease` on one object. Each
`LoadExclusive` and each `StoreExclusive` is a step; a store fails when the isa
has changed, and may fail for no reason. The side table of the object has a lock.
`rootTryRetain` runs with it held by its caller.

`extra_rc` is the most significant field of the isa, so adding `RC_ONE` to the
bits carries exactly when the field is full. The other fields are one number: no
step here changes them, but the comparison covers them.
-/

namespace DarwinNotes.Objc.Refcount

/-- The targets with a packed isa. -/
inductive Arch
  | arm64
  | x86_64
  deriving DecidableEq, Repr

/-- The width of `extra_rc`. -/
def Arch.extraRcBits : Arch → Nat
  | .arm64 => 19
  | .x86_64 => 8

/-- `RC_HALF`: the high bit of `extra_rc`. -/
def Arch.rcHalf (arch : Arch) : Nat := 2 ^ (arch.extraRcBits - 1)

structure Isa where
  other : Nat
  deallocating : Bool
  hasSidetableRc : Bool
  extraRc : Nat
  deriving DecidableEq, Repr

/-! ## The side table -/

/-- `SIDE_TABLE_RC_PINNED` is the top bit, `SIDE_TABLE_FLAG_MASK` the two lowest. -/
def sideTableRcPinned : Nat := 2 ^ 63

variable (refcnt : Option Nat)

/-- `sidetable_addExtraRC_nolock`, on the word of `refcnts` for the object. -/
def sidetableAddExtraRC (deltaRc : Nat) : Option Nat :=
  let oldRefcnt := refcnt.getD 0
  if oldRefcnt.testBit 63 then some oldRefcnt
  else
    let newRefcnt := oldRefcnt + deltaRc * 4
    if 2 ^ 64 ≤ newRefcnt then some (sideTableRcPinned + oldRefcnt % 4) else some newRefcnt

/-- `sidetable_subExtraRC_nolock`: the amount borrowed, the new word, and whether
`ASSERT(oldRefcnt > newRefcnt)` fails. -/
def sidetableSubExtraRC (deltaRc : Nat) : Nat × Option Nat × Bool :=
  match refcnt with
  | none => (0, none, false)
  | some oldRefcnt =>
    if oldRefcnt = 0 then (0, some oldRefcnt, false)
    else
      let newRefcnt := (oldRefcnt + 2 ^ 64 - deltaRc * 4) % 2 ^ 64
      (deltaRc, some newRefcnt, decide (oldRefcnt ≤ newRefcnt))

/-- `sidetable_getExtraRC_nolock`. -/
def sidetableGetExtraRC : Nat := refcnt.getD 0 / 4

/-! ## States -/

/-- Where a thread stands. -/
inductive Pc
  | idle
  /-- `rootRetain(tryRetain, handleOverflow)`, about to load -/
  | retainLoad (tryRetain handleOverflow sideTableLocked : Bool)
  /-- about to lock the side table for the overflow of `oldisa` -/
  | retainLock (oldisa : Isa)
  | retainStore (tryRetain handleOverflow sideTableLocked : Bool) (oldisa : Isa)
  /-- about to move `RC_HALF` to the side table -/
  | retainTranscribe (tryRetain : Bool)
  | retainUnlock
  /-- `rootTryRetain` has returned to its caller, which holds the lock -/
  | tryRetained (result : Bool)
  /-- `rootRelease(performDealloc, handleUnderflow)`, at `retry` -/
  | releaseLoad (handleUnderflow sideTableLocked : Bool)
  | releaseLock
  | releaseStore (handleUnderflow sideTableLocked : Bool) (oldisa : Isa)
  /-- at `underflow`, with the side table locked -/
  | releaseBorrow (oldisa : Isa)
  | releaseStoreBorrowed (oldisa : Isa) (borrowed : Nat)
  /-- the store failed: try again right now -/
  | releaseReload (borrowed : Nat)
  | releaseStoreMerged (oldisa2 : Isa) (borrowed : Nat)
  /-- put the borrowed amount back -/
  | releaseUndo (borrowed : Nat)
  /-- about to set the deallocating bit -/
  | releaseStoreDeallocating (handleUnderflow sideTableLocked : Bool) (oldisa : Isa)
  | releaseUnlock
  deriving DecidableEq, Repr

/-- A thread, with the number of references to the object it holds. -/
structure Local where
  held : Nat
  pc : Pc
  deriving DecidableEq, Repr

/-- The isa, the word of `refcnts` and the lock of the side table; then, as
history, the count that is on its way between isa and side table, the completed
retains and releases, the releases that set the deallocating bit, the references
kept by no thread, and whether an assertion or `overrelease_error` was hit. -/
structure Shared (Thread : Type) where
  isa : Isa
  refcnt : Option Nat
  lock : Option Thread
  inflight : Nat
  retains : Nat
  releases : Nat
  deallocators : Nat
  parked : Nat
  underflow : Bool
  overreleased : Bool

variable {Thread : Type} (g : Shared Thread)

/-- The side table's share of the count. -/
def Shared.sideCount : Nat := sidetableGetExtraRC g.refcnt

/-! ## Steps -/

/-- Where `rootRetain` goes when its count is in place. -/
def afterRetain (tryRetain sideTableLocked : Bool) : Pc :=
  if tryRetain then .tryRetained true else if sideTableLocked then .retainUnlock else .idle

def afterRelease (sideTableLocked : Bool) : Pc := if sideTableLocked then .releaseUnlock else .idle

/-- The end of `rootRelease`, past the side table. -/
def releaseLast (here : Local) (handleUnderflow sideTableLocked : Bool) (oldisa : Isa) : Shared Thread × Local :=
  if oldisa.deallocating then ({ g with overreleased := true }, { here with pc := afterRelease sideTableLocked })
  else (g, { here with pc := .releaseStoreDeallocating handleUnderflow sideTableLocked oldisa })

/-- The release is complete with the new isa. -/
def completeRelease (here : Local) (newisa : Isa) (pc : Pc) : Shared Thread × Local :=
  ({ g with isa := newisa, inflight := 0, releases := g.releases + 1 }, { held := here.held - 1, pc })

/-- The next step of the code; `none` while it has to wait for the lock. With
`fail` a store fails although the isa is unchanged. -/
def advance (arch : Arch) (thread : Thread) (fail : Bool) (g : Shared Thread) (here : Local) : Option (Shared Thread × Local) :=
  let goto := fun pc => { here with pc }
  match here.pc with
  | .idle => none
  | .retainLoad tryRetain handleOverflow locked =>
    let oldisa := g.isa
    if tryRetain && oldisa.deallocating then some (g, goto (.tryRetained false))
    else if oldisa.extraRc + 1 < 2 ^ arch.extraRcBits then
      some (g, goto (.retainStore tryRetain handleOverflow locked oldisa))
    else if !handleOverflow then some (g, goto (.retainLoad tryRetain true false))
    else if !tryRetain && !locked then some (g, goto (.retainLock oldisa))
    else some (g, goto (.retainStore tryRetain handleOverflow true oldisa))
  | .retainLock oldisa =>
    if g.lock.isSome then none
    else some ({ g with lock := some thread }, goto (.retainStore false true true oldisa))
  | .retainStore tryRetain handleOverflow locked oldisa =>
    if fail = true ∨ g.isa ≠ oldisa then some (g, goto (.retainLoad tryRetain handleOverflow locked))
    else if oldisa.extraRc + 1 < 2 ^ arch.extraRcBits then
      some ({ g with isa := { oldisa with extraRc := oldisa.extraRc + 1 }, retains := g.retains + 1 },
        { held := here.held + 1, pc := afterRetain tryRetain locked })
    else
      some ({ g with
          isa := { oldisa with extraRc := arch.rcHalf, hasSidetableRc := true }
          inflight := arch.rcHalf, retains := g.retains + 1 },
        { held := here.held + 1, pc := .retainTranscribe tryRetain })
  | .retainTranscribe tryRetain =>
    some ({ g with refcnt := sidetableAddExtraRC g.refcnt arch.rcHalf, inflight := 0 }, goto (afterRetain tryRetain true))
  | .retainUnlock => some ({ g with lock := none }, goto .idle)
  | .tryRetained _ => some ({ g with lock := none }, goto .idle)
  | .releaseLoad handleUnderflow locked =>
    let oldisa := g.isa
    if 1 ≤ oldisa.extraRc then some (g, goto (.releaseStore handleUnderflow locked oldisa))
    else if oldisa.hasSidetableRc then
      if !handleUnderflow then some (g, goto (.releaseLoad true false))
      else if !locked then some (g, goto .releaseLock)
      else some (g, goto (.releaseBorrow oldisa))
    else some (releaseLast g here handleUnderflow locked oldisa)
  | .releaseLock => if g.lock.isSome then none else some ({ g with lock := some thread }, goto (.releaseLoad true true))
  | .releaseStore handleUnderflow locked oldisa =>
    if fail = true ∨ g.isa ≠ oldisa then some (g, goto (.releaseLoad handleUnderflow locked))
    else
      some ({ g with isa := { oldisa with extraRc := oldisa.extraRc - 1 }, releases := g.releases + 1 },
        { held := here.held - 1, pc := afterRelease locked })
  | .releaseBorrow oldisa =>
    let (borrowed, refcnt, underflow) := sidetableSubExtraRC g.refcnt arch.rcHalf
    if 0 < borrowed then
      some ({ g with refcnt, inflight := borrowed, underflow := g.underflow || underflow }, goto (.releaseStoreBorrowed oldisa borrowed))
    else some (releaseLast g here true true oldisa)
  | .releaseStoreBorrowed oldisa borrowed =>
    if fail = true ∨ g.isa ≠ oldisa then some (g, goto (.releaseReload borrowed))
    else some (completeRelease g here { oldisa with extraRc := borrowed - 1 } .releaseUnlock)
  | .releaseReload borrowed =>
    let oldisa2 := g.isa
    if oldisa2.extraRc + (borrowed - 1) < 2 ^ arch.extraRcBits then
      some (g, goto (.releaseStoreMerged oldisa2 borrowed))
    else some (g, goto (.releaseUndo borrowed))
  | .releaseStoreMerged oldisa2 borrowed =>
    if fail = true ∨ g.isa ≠ oldisa2 then some (g, goto (.releaseUndo borrowed))
    else some (completeRelease g here { oldisa2 with extraRc := oldisa2.extraRc + (borrowed - 1) } .releaseUnlock)
  | .releaseUndo borrowed => some ({ g with refcnt := sidetableAddExtraRC g.refcnt borrowed, inflight := 0 }, goto (.releaseLoad true true))
  | .releaseStoreDeallocating handleUnderflow locked oldisa =>
    if fail = true ∨ g.isa ≠ oldisa then some (g, goto (.releaseLoad handleUnderflow locked))
    else
      some ({ g with
          isa := { oldisa with deallocating := true }
          releases := g.releases + 1, deallocators := g.deallocators + 1 },
        { held := here.held - 1, pc := afterRelease locked })
  | .releaseUnlock => some ({ g with lock := none }, goto .idle)

/-- The total count stays below `2 ^ 60`. -/
def Bounded (initialExtra : Nat) (g : Shared Thread) : Prop := 1 + initialExtra + g.retains < 2 ^ 60 + g.releases

/-- What a thread can do in a run whose total count stays bounded: the code, a
call of one of the three functions, and handing a reference on. A thread releases
only a reference it holds. -/
inductive ThreadStep (arch : Arch) (initialExtra : Nat) : Lib.Threads.ThreadStep Thread (Shared Thread) Local
  | code {thread g here g' here'} (fail : Bool) : advance arch thread fail g here = some (g', here') →
      Bounded initialExtra g' → ThreadStep arch initialExtra thread g here g' here'
  | retain {thread g held} : ThreadStep arch initialExtra thread g ⟨held, .idle⟩ g ⟨held, .retainLoad false false false⟩
  | tryRetain {thread g held} : g.lock = none → ThreadStep arch initialExtra thread g ⟨held, .idle⟩
        { g with lock := some thread } ⟨held, .retainLoad true false false⟩
  | release {thread g held} : 1 ≤ held → ThreadStep arch initialExtra thread g ⟨held, .idle⟩ g ⟨held, .releaseLoad false false⟩
  | park {thread g held} : ThreadStep arch initialExtra thread g ⟨held + 1, .idle⟩ { g with parked := g.parked + 1 } ⟨held, .idle⟩
  | take {thread g held parked} : g.parked = parked + 1 →
      ThreadStep arch initialExtra thread g ⟨held, .idle⟩ { g with parked } ⟨held + 1, .idle⟩

/-- An object that has just been allocated, or one with a larger count: `extraRc`
inline and `chunks` times `RC_HALF` in the side table. Its references are spread
over the threads and the rest of memory in any way. -/
structure Initial [Fintype Thread] (arch : Arch) (initialExtra : Nat)
    (config : Lib.Threads.Config Thread (Shared Thread) Local) : Prop where
  idle : ∀ thread, (config.threads thread).pc = .idle
  references : (∑ thread, (config.threads thread).held) + config.shared.parked = 1 + initialExtra
  bounded : 1 + initialExtra < 2 ^ 60
  shared : ∃ other extraRc chunks, extraRc < 2 ^ arch.extraRcBits ∧ initialExtra = extraRc + chunks * arch.rcHalf ∧ config.shared = {
      isa := ⟨other, false, decide (0 < chunks), extraRc⟩
      refcnt := if chunks = 0 then none else some (chunks * arch.rcHalf * 4)
      lock := none, inflight := 0, retains := 0, releases := 0, deallocators := 0
      parked := config.shared.parked, underflow := false, overreleased := false }

end DarwinNotes.Objc.Refcount
