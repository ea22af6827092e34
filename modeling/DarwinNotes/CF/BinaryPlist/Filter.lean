import DarwinNotes.CF.BinaryPlist.Lookup

/-!
# Reading a part of a property list (`CFBinaryPList.c`, `CFPropertyList.c`)

With a set of key paths, only those parts of an array or a dictionary are read whose index
or key is the first component of a key path; below them the rest of the key paths counts, and
everything is read where no key path is left.
-/

namespace DarwinNotes.CF.BinaryPlist

/-- A key, or an index in decimal. -/
abbrev Key := List (BitVec 16)

/-- A set of key paths that are separated into components. -/
abbrev KeyPaths := List (List Key)

/-- A set is made when the first value is added to it. -/
def makeSet {α : Type} [DecidableEq α] (values : List α) : Option (List α) :=
  if values = [] then none else some values.dedup

/-- `__CFPropertyListCreateSplitKeypaths`: the first component of each key path, and the others of those
that have more. -/
def createSplitKeypaths (currentKeys : KeyPaths) : Option (List Key) × Option KeyPaths :=
  (makeSet (currentKeys.filterMap List.head?), makeSet ((currentKeys.filter (1 < ·.length)).map List.tail))

section Filtered

variable (file : File) (trailer : Trailer) (option : Mutability)

-- the order in which `CFSetGetValues` gives the values of a set of keys
variable (order : List Key → List Key)

-- what the string functions give for a key that is searched for in the dictionary at an offset
variable (form : Nat → (key : Key) → KeyForm key)

/-- The loop over the keys: a key that is not found is left out. -/
def createFound (find : Key → Read Nat) (create : Option Objects → Nat → Read (Plist × Option Objects)) :
    List Key → Option Objects → Read (List (Key × Plist) × Option Objects)
  | [], objects => .ok ([], objects)
  | key :: keys, objects =>
    match find key with
    | .error .fail => createFound find create keys objects
    | .error e => .error e
    | .ok valueOffset => do
      let (result, objects) ← create objects valueOffset
      let (entries, objects) ← createFound find create keys objects
      return ((key, result) :: entries, objects)

/-- The parts of an array or a dictionary that the key paths name. The keys are counted before it is looked
whether there are any. -/
def createSubset (find : Key → Read Nat)
    (create : Option KeyPaths → Option Objects → Nat → Read (Plist × Option Objects)) (keyPaths : KeyPaths)
    (objects : Option Objects) : Read (List (Key × Plist) × Option Objects) :=
  match createSplitKeypaths keyPaths with
  | (none, _) => .error .nullSet
  | (some theseKeys, nextKeys) => createFound find (create nextKeys) (order theseKeys) objects

variable (startOffset : Nat)

/-- The element of an array that a key stands for. -/
def findIndex (key : Key) : Read Nat :=
  match indexValue key with
  | none => .error .fail
  | some idx => getOffsetForValueFromArray2 file startOffset trailer idx

/-- The value of a key of a dictionary. -/
def findKey (key : Key) : Read Nat := do
  let (_, valueOffset) ← getOffsetForValueFromDictionary3 file startOffset trailer (.string key (form startOffset key))
  return valueOffset

/-- The kinds of objects that key paths make a difference for. -/
inductive Kind
  | array
  | dict
  | other

/-- The kind of the object at an offset; the references of an array or a dictionary are checked. -/
def openContainer : Read Kind := do
  let objectsRangeEnd := trailer.offsetTableOffset - 1
  check (8 ≤ startOffset ∧ startOffset ≤ objectsRangeEnd)
  let marker ← file.byte startOffset
  let kind := marker &&& 0xf0
  if kind = kCFBinaryPlistMarkerArray then
    let ptr ← file.ptrAdd startOffset 1
    let (arrayCount, ptr) ← readCount file marker ptr objectsRangeEnd
    checkRefs file trailer ptr arrayCount
    return .array
  else if kind = kCFBinaryPlistMarkerDict then
    let ptr ← file.ptrAdd startOffset 1
    let (count, ptr) ← readCount file marker ptr objectsRangeEnd
    let dictionaryCount ← sizeMul count 2
    checkRefs file trailer ptr dictionaryCount
    return .dict
  else return .other

/-- The object at an offset with key paths, when it is not remembered. `create` reads the parts; other objects
than arrays and dictionaries are read as a whole. -/
def readFiltered (create : Option KeyPaths → Option Objects → Nat → Read (Plist × Option Objects)) (keyPaths : KeyPaths)
    (objects : Option Objects) (startOffset : Nat) : Read (Plist × Option Objects) := do
  match ← openContainer file trailer startOffset with
  | .array =>
    let (entries, objects) ← createSubset order (findIndex file trailer startOffset) create keyPaths objects
    let plist := Plist.array (entries.map Prod.snd)
    return (plist, remember objects (option = .immutable) startOffset plist)
  | .dict =>
    let (entries, objects) ← createSubset order (findKey file trailer form startOffset) create keyPaths objects
    let plist := Plist.dict (entries.map fun entry => .leaf (.string entry.1)) (entries.map Prod.snd)
    return (plist, remember objects (option = .immutable) startOffset plist)
  | .other => readObject file trailer option (create none) objects startOffset

/-- `__CFBinaryPlistCreateObjectFiltered` with or without key paths. -/
def createObjectFiltered :
    (fuel : Nat) → (path : Option (List Nat)) → (curDepth : Nat) → Option KeyPaths → Option Objects → (startOffset : Nat) →
      Read (Plist × Option Objects)
  | 0, _, _, _, _, _ => .error .outOfFuel
  | fuel + 1, path, curDepth, keyPaths, objects, startOffset =>
    match (objects.getD []).lookup startOffset with
    | some plist => .ok (plist, objects)
    | none => do
      check (startOffset ∉ path.getD [])
      let create := createObjectFiltered fuel (extendPath path curDepth startOffset) (curDepth + 1)
      match keyPaths with
      | none => readObject file trailer option (create none) objects startOffset
      | some keyPaths => readFiltered file trailer option order form create keyPaths objects startOffset

/-- The call of `_CFPropertyListCreateFiltered`, with the objects already read; the fuel is the one
of `binaryPlistCreateObject`. -/
def binaryPlistCreateObjectFiltered (keyPaths : Option KeyPaths) (objects : Option Objects) : Read (Plist × Option Objects) :=
  createObjectFiltered file trailer option order form (file.bytes.length + 18) none 0 keyPaths objects startOffset

/-- Without key paths the whole object is read. -/
theorem createObjectFiltered_none (fuel : Nat) (path : Option (List Nat)) (curDepth : Nat) (objects : Option Objects)
    (startOffset : Nat) : createObjectFiltered file trailer option order form fuel path curDepth none objects startOffset =
      createObject file trailer option fuel path curDepth objects startOffset := by
  induction fuel generalizing path curDepth objects startOffset with
  | zero => rfl
  | succ fuel ih =>
    have parts : createObjectFiltered file trailer option order form fuel (extendPath path curDepth startOffset)
        (curDepth + 1) none = createObject file trailer option fuel (extendPath path curDepth startOffset) (curDepth + 1) := by
      funext objects off
      exact ih _ _ objects off
    cases isRead : (objects.getD []).lookup startOffset with
    | some => simp only [createObjectFiltered, createObject, isRead]
    | none => simp [createObjectFiltered, createObject, isRead, parts]

end Filtered

end DarwinNotes.CF.BinaryPlist
