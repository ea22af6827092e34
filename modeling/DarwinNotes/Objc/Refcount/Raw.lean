import DarwinNotes.Objc.Refcount.Model

/-!
# Raw and nonpointer isa

The reference counting functions called one after another, on an object whose isa is
a class pointer or a bit field. `changeIsa` turns the bit field into a class pointer
when the new class asks for it; the count and the flags then move to the side table.
No other thread interferes, so that every `StoreExclusive` is taken to succeed.
-/

namespace DarwinNotes.Objc.Refcount

/-- What the functions ask of a class. -/
structure Class where
  address : Nat
  isFuture : Bool
  isMetaClass : Bool
  instancesRequireRawIsa : Bool
  hasCxxDtor : Bool
deriving DecidableEq, Repr

/-- The new class can be packed. -/
def Class.allowsNonpointer (cls : Class) : Bool := !cls.isFuture && !cls.instancesRequireRawIsa

/-- The fields of a nonpointer isa. -/
structure IsaFields where
  cls : Class
  hasAssoc : Bool
  hasCxxDtor : Bool
  weaklyReferenced : Bool
  deallocating : Bool
  hasSidetableRc : Bool
  extraRc : Nat
deriving DecidableEq, Repr

inductive IsaT
  | raw (cls : Class)
  | nonpointer (fields : IsaFields)
deriving DecidableEq, Repr

/-- An object, with its word in `refcnts`. -/
structure Object where
  isa : IsaT
  refcnt : Option Nat
deriving DecidableEq, Repr

/-! ## The side table of a raw isa

`SIDE_TABLE_WEAKLY_REFERENCED` is bit 0, `SIDE_TABLE_DEALLOCATING` bit 1, `SIDE_TABLE_RC_ONE` is 4. -/

/-- `refcnt += SIDE_TABLE_RC_ONE`, unless the count is pinned. -/
def addOne (refcnt : Nat) : Nat := if refcnt.testBit 63 then refcnt else (refcnt + 4) % 2 ^ 64

variable (refcnt : Option Nat)

/-- `sidetable_retain` -/
def sidetableRetain : Option Nat := some (addOne (refcnt.getD 0))

/-- `sidetable_tryRetain` -/
def sidetableTryRetain : Option Nat → Option Nat × Bool
  | none => (some 4, true)
  | some refcnt => if refcnt.testBit 1 then (some refcnt, false) else (some (addOne refcnt), true)

/-- `sidetable_release`: the word, and whether the object is to be deallocated. -/
def sidetableRelease : Option Nat → Option Nat × Bool
  | none => (some 2, true)
  | some refcnt =>
    if refcnt < 2 then (some (refcnt ||| 2), true)
    else if !refcnt.testBit 63 then (some ((refcnt + 2 ^ 64 - 4) % 2 ^ 64), false)
    else (some refcnt, false)

/-- `sidetable_retainCount` -/
def sidetableRetainCount : Nat := 1 + refcnt.getD 0 / 4

/-- `sidetable_isDeallocating` -/
def sidetableIsDeallocating : Bool := (refcnt.getD 0).testBit 1

/-- `sidetable_isWeaklyReferenced` -/
def sidetableIsWeaklyReferenced : Bool := (refcnt.getD 0).testBit 0

/-- `sidetable_moveExtraRC_nolock` -/
def sidetableMoveExtraRC (extraRc : Nat) (isDeallocating weaklyReferenced : Bool) : Option Nat :=
  let oldRefcnt := refcnt.getD 0
  let sum := oldRefcnt + extraRc * 4
  let moved := if 2 ^ 64 ≤ sum then sideTableRcPinned else sum
  let moved := if isDeallocating then moved ||| 2 else moved
  some (if weaklyReferenced then moved ||| 1 else moved)

/-! ## The functions of an object -/

variable (arch : Arch)

namespace Object

/-- `rootRetain` and `rootTryRetain`: the object is returned, or nil. -/
def rootRetain (tryRetain : Bool) (object : Object) : Object × Bool :=
  match object.isa with
  | .raw cls =>
    if cls.isMetaClass then (object, true)
    else if tryRetain then
      let (refcnt, result) := sidetableTryRetain object.refcnt
      ({ object with refcnt }, result)
    else ({ object with refcnt := sidetableRetain object.refcnt }, true)
  | .nonpointer fields =>
    if tryRetain && fields.deallocating then (object, false)
    else if fields.extraRc + 1 < 2 ^ arch.extraRcBits then
      ({ object with isa := .nonpointer { fields with extraRc := fields.extraRc + 1 } }, true)
    else
      -- leave half of the retain counts inline
      ({ isa := .nonpointer { fields with extraRc := arch.rcHalf, hasSidetableRc := true }
         refcnt := sidetableAddExtraRC object.refcnt arch.rcHalf }, true)

variable (object : Object)

/-- The end of `rootRelease`; `overrelease_error` returns 0. -/
def releaseLast (fields : IsaFields) : Object × Bool :=
  if fields.deallocating then (object, false)
  else ({ object with isa := .nonpointer { fields with deallocating := true } }, true)

/-- `rootRelease`: whether the object is to be deallocated. -/
def rootRelease : Object × Bool :=
  match object.isa with
  | .raw cls =>
    if cls.isMetaClass then (object, false)
    else
      let (refcnt, result) := sidetableRelease object.refcnt
      ({ object with refcnt }, result)
  | .nonpointer fields =>
    if 1 ≤ fields.extraRc then
      ({ object with isa := .nonpointer { fields with extraRc := fields.extraRc - 1 } }, false)
    else if fields.hasSidetableRc then
      let (borrowed, refcnt, _) := sidetableSubExtraRC object.refcnt arch.rcHalf
      if 0 < borrowed then ({ isa := .nonpointer { fields with extraRc := borrowed - 1 }, refcnt }, false)
      else object.releaseLast fields
    else object.releaseLast fields

/-- `rootRetainCount` -/
def rootRetainCount : Nat :=
  match object.isa with
  | .raw _ => sidetableRetainCount object.refcnt
  | .nonpointer fields => 1 + fields.extraRc + if fields.hasSidetableRc then sidetableGetExtraRC object.refcnt else 0

/-- `rootIsDeallocating` -/
def rootIsDeallocating : Bool :=
  match object.isa with
  | .raw _ => sidetableIsDeallocating object.refcnt
  | .nonpointer fields => fields.deallocating

def isWeaklyReferenced : Bool :=
  match object.isa with
  | .raw _ => sidetableIsWeaklyReferenced object.refcnt
  | .nonpointer fields => fields.weaklyReferenced

def changeIsa (newCls : Class) : Object :=
  match object.isa with
  | .raw _ => { object with isa := .raw newCls }
  | .nonpointer fields =>
    if newCls.allowsNonpointer then
      { object with isa := .nonpointer { fields with cls := newCls, hasCxxDtor := newCls.hasCxxDtor } }
    else
      { isa := .raw newCls
        refcnt := sidetableMoveExtraRC object.refcnt fields.extraRc fields.deallocating fields.weaklyReferenced }

end Object

/-! ## Sequences of calls -/

inductive Call
  | retain
  | release
  | tryRetain
  | retainCount
  | setClass (newCls : Class)
deriving DecidableEq, Repr

inductive Reply
  | done
  | retained (result : Bool)
  | released (dealloc : Bool)
  | count (retainCount : Nat)
deriving DecidableEq, Repr

def Object.call (object : Object) : Call → Object × Reply
  | .retain => ((object.rootRetain arch false).1, .done)
  | .release => ((object.rootRelease arch).1, .released (object.rootRelease arch).2)
  | .tryRetain => ((object.rootRetain arch true).1, .retained (object.rootRetain arch true).2)
  | .retainCount => (object, .count object.rootRetainCount)
  | .setClass newCls => (object.changeIsa newCls, .done)

/-- The calls in turn, with the replies. -/
def Object.calls (object : Object) : List Call → Object × List Reply
  | [] => (object, [])
  | call :: rest =>
    let (object, reply) := object.call arch call
    let (object, replies) := object.calls rest
    (object, reply :: replies)

end DarwinNotes.Objc.Refcount
