import DarwinNotes.Lib.Buffer

/-!
# Mutable arrays (`CFArray.c`)

The values of a mutable array are in a deque: a block of buckets with free ones at both
ends. A replaced range is closed or opened by moving the part on one side of it, by
moving both parts, or in a new block. Every bucket that is moved or written is checked against the block
here, and so is the size of a block.
-/

namespace DarwinNotes.CF.Array
open Lib

inductive Fault
  /-- A bucket outside the deque is read or written. -/
  | outOfBounds
  /-- Memory of a negative size is asked for. -/
  | badAllocation
deriving DecidableEq, Repr

@[simp] theorem ok_bind {α β : Type} (a : α) (f : α → Except Fault β) : (Except.ok a : Except Fault α) >>= f = f a := rfl

/-- `struct __CFArrayDeque`; a bucket that holds no value is empty. -/
structure Deque (α : Type) where
  leftIdx : Int
  capacity : Int
  buckets : Nat → Option α

/-- `struct __CFArray` for a mutable array. -/
structure MutableArray (α : Type) where
  count : Nat
  store : Option (Deque α)

section Model

variable {α : Type}

/-! ## Blocks of buckets -/

/-- `flsl`: the number of the highest bit that is set, counted from one. -/
def flsl (mask : Nat) : Nat := mask.size

/-- `__CFArrayDequeRoundUpCapacity`. The number that is shifted is an `int`: its shift goes by
the low five bits of the distance, and the result has a sign. -/
def roundUpCapacity (capacity : Int) : Int :=
  if capacity < 4 then 4 else Int.bmod (2 ^ (flsl capacity.toNat % 32) : Nat) (2 ^ 32)

def allocate (capacity : Int) : Except Fault Unit :=
  if 0 ≤ capacity then .ok () else .error .badAllocation

variable (deque : Deque α) (start length : Int)

def Deque.read : Except Fault (List (Option α)) :=
  if 0 ≤ start ∧ start + length ≤ deque.capacity then .ok (load deque.buckets start.toNat length.toNat)
  else .error .outOfBounds

def Deque.write (start : Int) (values : List (Option α)) : Except Fault (Deque α) :=
  if 0 ≤ start ∧ start + values.length ≤ deque.capacity then
    .ok { deque with buckets := store deque.buckets start.toNat values }
  else .error .outOfBounds

/-- `objc_memmove_collectable`, for a length that is positive. -/
def Deque.moveTo (target source : Deque α) (dst src length : Int) : Except Fault (Deque α) :=
  if 0 < length then do
    let values ← source.read src length
    target.write dst values
  else .ok target

/-- `memset` with zero. -/
def Deque.clear : Except Fault (Deque α) := deque.write start (List.replicate length.toNat none)

/-! ## Opening and closing a range -/

/-- The lengths of the regions in `__CFArrayRepositionDequeRegions`: what is left of the replaced range, the
range, and what is right of it; and the number of values that come in its place. -/
structure Regions where
  A : Int
  B : Int
  C : Int
  newCount : Int

variable (regions : Regions)

def Regions.futureCnt : Int := regions.A + regions.C + regions.newCount

def Regions.numNewElems : Int := regions.newCount - regions.B

/-- `wiggle`: the free buckets that a block should keep. -/
def Deque.wiggle : Int := max (deque.capacity / 2 ^ 17) 4

/-- Reallocate and re-center everything. -/
def Deque.reallocate : Except Fault (Deque α) := do
  let capacity := roundUpCapacity (regions.futureCnt + deque.wiggle)
  allocate capacity
  let newL := (capacity - regions.futureCnt).tdiv 2
  let oldC0 := deque.leftIdx + regions.A + regions.B
  let newC0 := newL + regions.A + regions.newCount
  let newDeque : Deque α := { leftIdx := newL, capacity := capacity, buckets := fun _ => none }
  let newDeque ← newDeque.moveTo deque newL deque.leftIdx regions.A
  newDeque.moveTo deque newC0 oldC0 regions.C

/-- Move C. -/
def Deque.moveC : Except Fault (Deque α) := do
  let oldC0 := deque.leftIdx + regions.A + regions.B
  let newC0 := deque.leftIdx + regions.A + regions.newCount
  let deque ← deque.moveTo deque newC0 oldC0 regions.C
  if newC0 < oldC0 then deque.clear (newC0 + regions.C) (oldC0 - newC0) else .ok deque

/-- Move A. -/
def Deque.moveA : Except Fault (Deque α) := do
  let oldL := deque.leftIdx
  let newL := oldL - regions.numNewElems
  let deque ← { deque with leftIdx := newL }.moveTo deque newL oldL regions.A
  if oldL < newL then deque.clear oldL (newL - oldL) else .ok deque

/-- Where the values start when they are re-centered in the block. -/
def Deque.centeredL : Int :=
  let L := deque.leftIdx
  let R := deque.capacity - (regions.A + regions.B + regions.C) - L
  let newL := (L + R - regions.numNewElems).tdiv 2
  newL - newL.tdiv 2

/-- Re-center everything in the block: both parts are moved, in the order that keeps them. -/
def Deque.recenter : Except Fault (Deque α) :=
  let oldL := deque.leftIdx
  let newL := deque.centeredL regions
  let oldC0 := oldL + regions.A + regions.B
  let newC0 := newL + regions.A + regions.newCount
  let deque := { deque with leftIdx := newL }
  if newL < oldL then do
    let deque ← deque.moveTo deque newL oldL regions.A
    let deque ← deque.moveTo deque newC0 oldC0 regions.C
    if newC0 < oldC0 then deque.clear (newC0 + regions.C) (oldC0 - newC0) else .ok deque
  else do
    let deque ← deque.moveTo deque newC0 oldC0 regions.C
    let deque ← deque.moveTo deque newL oldL regions.A
    if oldL < newL then deque.clear oldL (newL - oldL) else .ok deque

/-- Whether a new block is needed. -/
def Deque.isTight : Prop :=
  let cnt := regions.A + regions.B + regions.C
  let L := deque.leftIdx
  let R := deque.capacity - cnt - L
  deque.capacity < regions.futureCnt % 2 ^ 32 ∨ (cnt < regions.futureCnt ∧ L + R < deque.wiggle)

instance (deque : Deque α) (regions : Regions) : Decidable (deque.isTight regions) := inferInstanceAs (Decidable (_ ∨ _))

/-- `__CFArrayRepositionDequeRegions` -/
def Deque.repositionRegions : Except Fault (Deque α) :=
  let L := deque.leftIdx
  let R := deque.capacity - (regions.A + regions.B + regions.C) - L
  if deque.isTight regions then deque.reallocate regions
  else if (regions.numNewElems < 0 ∧ regions.C < regions.A) ∨ (regions.numNewElems ≤ R ∧ regions.C < regions.A) then
    deque.moveC regions
  else if regions.numNewElems < 0 ∨ (regions.numNewElems ≤ L ∧ regions.A ≤ regions.C) then deque.moveA regions
  else deque.recenter regions

/-! ## The functions of the array -/

/-- `CFArrayGetValues` -/
def getValues (array : MutableArray α) (location length : Nat) : Except Fault (List (Option α)) :=
  if 0 < length then
    match array.store with
    | none => .error .outOfBounds
    | some deque => deque.read (deque.leftIdx + location) length
  else .ok []

/-- A new block for an array that has none. -/
def newDeque (futureCnt newCount : Nat) : Except Fault (Deque α) := do
  let capacity := roundUpCapacity futureCnt
  allocate capacity
  return { leftIdx := (capacity - newCount).tdiv 2, capacity := capacity, buckets := fun _ => none }

/-- The first part of `_CFArrayReplaceValues`: the buckets of the range are emptied, and there are
`newCount` of them afterwards. -/
def openRange (array : MutableArray α) (location length newCount : Nat) : Except Fault (Deque α) :=
  match array.store with
  | none => newDeque (array.count - length + newCount) newCount
  | some deque => do
    let deque ← (if 0 < length then deque.clear (deque.leftIdx + location) length else .ok deque)
    if length ≠ newCount then
      deque.repositionRegions
        { A := location, B := length, C := array.count - length - location, newCount := newCount }
    else .ok deque

-- the `retain` callback, which may give another pointer
variable (retain : α → α) (array : MutableArray α)

/-- `_CFArrayReplaceValues` -/
def replaceValues (location length : Nat) (newValues : List α) : Except Fault (MutableArray α) := do
  let newv := (newValues.map retain).map some
  let newCount := newValues.length
  let futureCnt := array.count - length + newCount
  let deque ← openRange array location length newCount
  let deque ← (if 0 < newCount then deque.write (deque.leftIdx + location) newv else .ok deque)
  return { count := futureCnt, store := some deque }

/-- `CFArrayAppendValue` -/
def appendValue (value : α) : Except Fault (MutableArray α) := replaceValues retain array array.count 0 [value]

variable (idx : Nat)

/-- `CFArrayInsertValueAtIndex` -/
def insertValueAtIndex (value : α) : Except Fault (MutableArray α) := replaceValues retain array idx 0 [value]

/-- `CFArrayRemoveValueAtIndex` -/
def removeValueAtIndex : Except Fault (MutableArray α) := replaceValues retain array idx 1 []

/-- The bucket of an index is written. -/
def setBucket (item : Option α) : Except Fault (MutableArray α) :=
  match array.store with
  | none => .error .outOfBounds
  | some deque => do
    let deque ← deque.write (deque.leftIdx + idx) [item]
    return { array with store := some deque }

/-- `CFArraySetValueAtIndex` -/
def setValueAtIndex (value : α) : Except Fault (MutableArray α) :=
  if idx = array.count then replaceValues retain array idx 0 [value] else setBucket array idx (some (retain value))

/-- `CFArrayExchangeValuesAtIndices` -/
def exchangeValuesAtIndices (idx1 idx2 : Nat) : Except Fault (MutableArray α) := do
  let tmp ← getValues array idx1 1
  let item2 ← getValues array idx2 1
  let array ← setBucket array idx1 (item2.head?.join)
  setBucket array idx2 (tmp.head?.join)

/-- `CFArrayRemoveAllValues`: the buckets are emptied, and the block is given back. -/
def removeAllValues : Except Fault (MutableArray α) := do
  match array.store with
  | none => return { count := 0, store := none }
  | some deque => do
    let _ ← (if 0 < array.count then deque.clear deque.leftIdx array.count else .ok deque)
    return { count := 0, store := none }

/-- `_CFArraySetCapacity`: the whole old block is copied to a new one. -/
def setCapacity (cap : Nat) : Except Fault (MutableArray α) := do
  let capacity := roundUpCapacity cap
  allocate capacity
  match array.store with
  | none => return { array with store := some { leftIdx := capacity / 2, capacity := capacity, buckets := fun _ => none } }
  | some olddeque => do
    let deque : Deque α := { leftIdx := olddeque.leftIdx, capacity := capacity, buckets := fun _ => none }
    let deque ← deque.moveTo olddeque 0 0 olddeque.capacity
    return { array with store := some deque }

end Model

end DarwinNotes.CF.Array
