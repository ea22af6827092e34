import DarwinNotes.CF.Array.Model
import DarwinNotes.Lib.HeapOrder

/-!
# Binary heaps (`CFBinaryHeap.c`)

The items are in level order in a block of buckets that grows by powers of two. A new item is sifted up from behind
the last one, and the last item is sifted down from the place of the minimum. Items are pointers, which are compared
by a callback or by their addresses.
-/

namespace DarwinNotes.CF.BinaryHeap

/-- `CFComparisonResult` -/
inductive ComparisonResult
  | lessThan
  | equalTo
  | greaterThan
deriving DecidableEq, Repr

inductive Fault
  /-- The new block was not allocated. -/
  | halt
deriving DecidableEq, Repr

/-- `CFBinaryHeapCallBacks`, as far as it is used, with the context of the heap. -/
structure CallBacks (Item : Type) where
  retain : Option (Item → Item)
  compare : Option (Item → Item → ComparisonResult)

/-- `struct __CFBinaryHeap` -/
structure Heap (Item : Type) where
  count : Nat
  capacity : Int
  callbacks : CallBacks Item
  buckets : Nat → Item

section Model

variable {Item : Type} [LinearOrder Item] (callbacks : CallBacks Item)

/-- Whether an item is greater than another one. -/
def CallBacks.isGreater (item item2 : Item) : Bool :=
  match callbacks.compare with
  | none => item2 < item
  | some compare => compare item item2 = .greaterThan

/-- The value that is put in the heap. -/
def CallBacks.retained (value : Item) : Item :=
  match callbacks.retain with
  | none => value
  | some retain => retain value

/-- `__CFBinaryHeapRoundUpCapacity`, which shifts an `int`. -/
def roundUpCapacity (capacity : Int) : Int :=
  if capacity < 4 then 4 else Int.bmod (2 ^ (Array.flsl capacity.toNat % 32) : Nat) (2 ^ 32)

variable (heap : Heap Item)

/-- `__CFBinaryHeapGrow` -/
def grow (numNewValues : Nat) : Except Fault (Heap Item) :=
  let capacity := roundUpCapacity (heap.count + numNewValues)
  if 0 ≤ capacity then .ok { heap with capacity := capacity } else .error .halt

/-- The loop of `CFBinaryHeapAddValue`: the buckets, and the place for the value. -/
def siftUp (callbacks : CallBacks Item) (value : Item) (buckets : Nat → Item) (idx : Nat) : (Nat → Item) × Nat :=
  if isInner : 0 < idx then
    let pidx := (idx - 1) / 2
    let item := buckets pidx
    if ¬ callbacks.isGreater item value then (buckets, idx)
    else siftUp callbacks value (Function.update buckets idx item) pidx
  else (buckets, idx)
termination_by idx
decreasing_by omega

/-- `CFBinaryHeapAddValue` -/
def addValue (value : Item) : Except Fault (Heap Item) := do
  let heap ← (if heap.count = heap.capacity then grow heap 1 else .ok heap)
  let (buckets, idx) := siftUp heap.callbacks value heap.buckets heap.count
  return { heap with count := heap.count + 1, buckets := Function.update buckets idx (heap.callbacks.retained value) }

/-- The child that is not greater than the other one. -/
def smallerChild (count : Nat) (buckets : Nat → Item) (cidx : Nat) : Nat :=
  if cidx + 1 < count ∧ callbacks.isGreater (buckets cidx) (buckets (cidx + 1)) then cidx + 1 else cidx

/-- The loop of `CFBinaryHeapRemoveMinimumValue`: the buckets, and the place for the value. -/
def siftDown (callbacks : CallBacks Item) (count : Nat) (val : Item) (buckets : Nat → Item) (idx : Nat) : (Nat → Item) × Nat :=
  if isInner : idx * 2 + 1 < count then
    let cidx := smallerChild callbacks count buckets (idx * 2 + 1)
    let item := buckets cidx
    if callbacks.isGreater item val then (buckets, idx)
    else siftDown callbacks count val (Function.update buckets idx item) cidx
  else (buckets, idx)
termination_by count - idx
decreasing_by
  simp only [smallerChild]
  split <;> omega

/-- `CFBinaryHeapRemoveMinimumValue` -/
def removeMinimumValue : Heap Item :=
  if heap.count = 0 then heap
  else
    let count := heap.count - 1
    let val := heap.buckets (heap.count - 1)
    let (buckets, idx) := siftDown heap.callbacks count val heap.buckets 0
    { heap with count := count, buckets := Function.update buckets idx val }

/-- `CFBinaryHeapRemoveAllValues` -/
def removeAllValues : Heap Item := { heap with count := 0 }

/-- `CFBinaryHeapGetMinimum` -/
def getMinimum : Option Item := if 0 < heap.count then some (heap.buckets 0) else none

/-- The new block of `__CFBinaryHeapInit`, whose buckets may hold anything. -/
def empty (buckets : Nat → Item) : Heap Item where
  count := 0
  capacity := roundUpCapacity 1
  callbacks := callbacks
  buckets := buckets

/-- The loop of `__CFBinaryHeapInit`. -/
def addValues : Heap Item → List Item → Except Fault (Heap Item)
  | heap, [] => .ok heap
  | heap, value :: values => do
    let heap ← addValue heap value
    addValues heap values

/-- The values of the heap, in the order of the buckets. -/
def values : List Item := (List.range heap.count).map heap.buckets

variable (buckets : Nat → Item)

/-- `CFBinaryHeapCreateCopy`, where `buckets` is what is in the new block. -/
def createCopy (heap : Heap Item) : Except Fault (Heap Item) := addValues (empty heap.callbacks buckets) (values heap)

/-- The loop of `CFBinaryHeapGetValues` and of `CFBinaryHeapApplyFunction`: the values in the order in
which they are given out. -/
def drain (heapCopy : Heap Item) : List Item :=
  if _ : heapCopy.count = 0 then [] else heapCopy.buckets 0 :: drain (removeMinimumValue heapCopy)
termination_by heapCopy.count
decreasing_by
  simp only [removeMinimumValue, if_neg ‹_›]
  omega

/-- `CFBinaryHeapGetValues` -/
def getValues (heap : Heap Item) : Except Fault (List Item) :=
  if heap.count = 0 then .ok []
  else do
    let heapCopy ← createCopy buckets heap
    return drain heapCopy

/-- `CFBinaryHeapApplyFunction`, where `applier` takes the state of its context to the next one. -/
def applyFunction {σ : Type} (buckets : Nat → Item) (heap : Heap Item) (applier : σ → Item → σ) (context : σ) : Except Fault σ :=
  if heap.count = 0 then .ok context
  else do
    let heapCopy ← createCopy buckets heap
    return (drain heapCopy).foldl applier context

end Model

end DarwinNotes.CF.BinaryHeap
