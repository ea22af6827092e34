import DarwinNotes.Lib.OpenAddressing

/-!
# Map tables (`maptable.mm`)

An `NXMapTable` is a power of two of buckets; a pair is looked for from the bucket of
its key's hash on. A full stretch is closed again after a removal by taking all of its
pairs out and inserting those that stay. The table is doubled when it is three
quarters full.

Pointers are numbers; `unsigned` arithmetic is modulo 2³². The recursion between
insertion and rehashing is bounded by a depth; `none` is a recursion that goes deeper,
or a behaviour C does not define: too wide a shift, an access beyond the buckets.
-/

namespace DarwinNotes.Objc.MapTable
open Lib.Probing

/-- `unsigned` arithmetic. -/
def u32 (n : Nat) : Nat := n % 2 ^ 32

/-- `NX_MAPNOTAKEY` -/
def notAKey : Nat := 2 ^ 64 - 1

structure MapPair where
  key : Nat
  value : Nat
deriving DecidableEq, Repr

/-- The functions of `NXMapTablePrototype` that decide where keys are. -/
structure Prototype where
  hash : Nat → Nat
  isEqual : Nat → Nat → Bool

/-- `NXMapTable`, with the messages the table has caused. -/
structure Table where
  count : Nat
  nbBucketsMinusOne : Nat
  buckets : Nat → MapPair
  informed : List String

variable (proto : Prototype)

namespace Table

variable (table : Table)

def bucketOf (key : Nat) : Nat := proto.hash key &&& table.nbBucketsMinusOne

def nextIndex (index : Nat) : Nat := u32 (index + 1) &&& table.nbBucketsMinusOne

def numBuckets : Nat := u32 (table.nbBucketsMinusOne + 1)

def inform (message : String) : Table := { table with informed := table.informed ++ [message] }

end Table

def isEqual (key1 key2 : Nat) : Bool := if key1 = key2 then true else proto.isEqual key1 key2

/-- `allocBuckets` -/
def allocBuckets : Nat → MapPair := fun _ => ⟨notAKey, 0⟩

/-- `NXPtrValueMapPrototype` (`_mapPtrHash`, `_mapPtrIsEqual`) -/
def ptrValueMapPrototype : Prototype where
  hash key := u32 (key >>> 3)
  isEqual key1 key2 := key1 == key2

/-! ## Creation -/

def log2u (x : Nat) : Nat := if x < 2 then 0 else log2u (x >>> 1) + 1

/-- `1 << x`, which is undefined when the shift is not smaller than the width of an `int`. -/
def exp2u (x : Nat) : Option Nat := if x < 32 then some (u32 (1 <<< x)) else none

/-- `NXCreateMapTable` -/
def nxCreateMapTable (capacity : Nat) : Option Table := do
  let buckets ← exp2u (log2u capacity + 1)
  return { count := 0, nbBucketsMinusOne := buckets - 1, buckets := allocBuckets, informed := [] }

variable (table : Table)

/-- `NXResetMapTable`, with the pairs that are passed to the prototype's `free`. -/
def nxResetMapTable : Table × List MapPair :=
  let freed := ((List.range (table.nbBucketsMinusOne + 1)).map table.buckets).filter fun pair => pair.key ≠ notAKey
  ({ table with
    buckets := fun i => if (table.buckets i).key ≠ notAKey then ⟨notAKey, 0⟩ else table.buckets i
    count := 0 }, freed)

/-! ## Lookup -/

/-- A lookup is over at this bucket. -/
def ends (key i : Nat) : Bool := (table.buckets i).key == notAKey || isEqual proto (table.buckets i).key key

/-- The loop over the buckets from the one of the key on, until one ends the lookup. -/
def probe (key : Nat) : Scan :=
  let index := table.bucketOf proto key
  scan table.nextIndex (fun i _ => ends proto table key i) index (table.nbBucketsMinusOne + 1) index 0

/-- `_NXMapMember`: the pair, or nothing for `NX_MAPNOTAKEY`. -/
def nxMapMember (key : Nat) : Option MapPair :=
  match probe proto table key with
  | .stopped i _ => if (table.buckets i).key = notAKey then none else some (table.buckets i)
  | _ => none

/-! ## Insertion -/

variable (insert : Table → Nat → Nat → Option (Table × Nat))

/-- `_NXMapRehash`; `insert` is `NXMapInsert`. -/
def nxMapRehash (table : Table) : Option Table := do
  let numBuckets := table.numBuckets
  let bigger := { table with
    nbBucketsMinusOne := u32 (2 * numBuckets + (2 ^ 32 - 1))
    count := 0
    buckets := allocBuckets }
  let filled ← ((List.range numBuckets).map table.buckets).foldlM (fun filled pair =>
    if pair.key ≠ notAKey then (insert filled pair.key pair.value).map Prod.fst else some filled) bigger
  if table.count ≠ filled.count then
    return filled.inform "*** maptable: count differs after rehashing; probably indicates a broken invariant: there are x and y such as isEqual(x, y) is TRUE but hash(x) != hash (y)\n"
  else return filled

/-- A new pair at an empty bucket; the table may have to grow. -/
def place (table : Table) (i key value : Nat) : Option (Table × Nat) :=
  let placed := { table with
    buckets := Function.update table.buckets i ⟨key, value⟩
    count := u32 (table.count + 1) }
  if u32 (table.numBuckets * 3) < u32 (placed.count * 4) then (nxMapRehash insert placed).map fun table => (table, 0)
  else some (placed, 0)

/-- A new value for the key at a bucket. -/
def overwrite (i value : Nat) : Table × Nat :=
  let old := (table.buckets i).value
  (if old ≠ value then
    { table with buckets := Function.update table.buckets i ⟨(table.buckets i).key, value⟩ } else table, old)

/-- `NXMapInsert`: the table and the old value. -/
def nxMapInsert : (depth : Nat) → Table → Nat → Nat → Option (Table × Nat)
  | 0, _, _, _ => none
  | depth + 1, table, key, value =>
    let insert := nxMapInsert depth
    let index := table.bucketOf proto key
    if key = notAKey then some (table.inform "*** NXMapInsert: invalid key: -1\n", 0)
    -- `2 * numBuckets` has become 0: there is no bucket at the index
    else if table.numBuckets = 0 then none
    else if (table.buckets index).key = notAKey then place insert table index key value
    else if isEqual proto (table.buckets index).key key then some (overwrite table index value)
    else if table.count = table.numBuckets then do
      -- no room: rehash and retry
      let bigger ← nxMapRehash insert table
      insert bigger key value
    else
      match probe proto table key with
      | .stopped index2 _ =>
        if (table.buckets index2).key = notAKey then place insert table index2 key value
        else some (overwrite table index2 value)
      -- no room: can't happen!
      | _ => some (table.inform "**** NXMapInsert: bug\n", 0)

/-! ## Removal -/

/-- What the first loop of `NXMapRemove` counts. -/
structure Chain where
  chain : Nat
  found : Nat
  old : Nat

/-- `if (isEqual(table, pair->key, key)) {found ++; old = pair->value; }` -/
def Chain.meet (self : Chain) (key : Nat) (pair : MapPair) : Chain :=
  if isEqual proto pair.key key then { self with found := self.found + 1, old := pair.value } else self

/-- The loop that computes the chain. -/
def chainLoop (table : Table) (key index : Nat) : (fuel index2 : Nat) → Chain → Chain
  | 0, _, self => self
  | fuel + 1, index2, self =>
    let index2 := table.nextIndex index2
    if index2 = index then self
    else if (table.buckets index2).key = notAKey then self
    else
      let self := self.meet proto key (table.buckets index2)
      chainLoop table key index fuel index2 { self with chain := self.chain + 1 }

/-- The loop that takes the pairs of the chain out; the ones with other keys go to `aux`. -/
def pullOut (key : Nat) : (nb index2 : Nat) → Table → List MapPair → Table × List MapPair
  | 0, _, table, aux => (table, aux)
  | nb + 1, index2, table, aux =>
    let pair := table.buckets index2
    let aux := if !isEqual proto pair.key key then aux ++ [pair] else aux
    let table := { table with buckets := Function.update table.buckets index2 ⟨notAKey, 0⟩ }
    pullOut key nb (table.nextIndex index2) table aux

/-- The part of `NXMapRemove` that takes the chain out and inserts the pairs that stay. -/
def removeThenReinsert (depth : Nat) (table : Table) (key : Nat) (counted : Chain) : Option (Table × Nat) := do
  let table := if counted.found ≠ 1 then table.inform "**** NXMapRemove: incorrect table\n" else table
  let (table, aux) := pullOut proto key counted.chain (table.bucketOf proto key) table []
  let table := { table with count := u32 (table.count + 2 ^ 32 - counted.chain) }
  let table := if aux.length ≠ counted.chain - 1 then table.inform "**** NXMapRemove: bug\n" else table
  let table ← aux.reverse.foldlM (fun table pair => (nxMapInsert proto depth table pair.key pair.value).map Prod.fst) table
  return (table, counted.old)

/-- `NXMapRemove`: the table and the old value. -/
def nxMapRemove (depth : Nat) (table : Table) (key : Nat) : Option (Table × Nat) :=
  let index := table.bucketOf proto key
  if (table.buckets index).key = notAKey then some (table, 0)
  else
    let first := ({ chain := 1, found := 0, old := 0 } : Chain).meet proto key (table.buckets index)
    let counted := chainLoop proto table key index table.nbBucketsMinusOne index first
    if counted.found = 0 then some (table, 0) else removeThenReinsert proto depth table key counted

/-! ## Enumeration -/

/-- `NXNextMapState`: the pair it comes to, and the state after it. -/
def nxNextMapState (table : Table) : (index : Nat) → Option (MapPair × Nat)
  | 0 => none
  | index + 1 => if (table.buckets index).key ≠ notAKey then some (table.buckets index, index) else nxNextMapState table index

/-- `while (NXNextMapState(table, &state, &key, &value))`, at most `fuel` times. -/
def enumerateFrom (table : Table) : (fuel index : Nat) → List MapPair
  | 0, _ => []
  | fuel + 1, index =>
    match nxNextMapState table index with
    | none => []
    | some (pair, index) => pair :: enumerateFrom table fuel index

/-- `NXInitMapState`. The state is an `int`: from 2³¹ buckets on it is negative, and counting it down is undefined. -/
def nxInitMapState : Option Nat := if table.numBuckets < 2 ^ 31 then some table.numBuckets else none

/-- All pairs, in the order in which they are enumerated. -/
def enumerate : Option (List MapPair) := do
  let index ← nxInitMapState table
  return enumerateFrom table index index

end DarwinNotes.Objc.MapTable
