import DarwinNotes.CF.BinaryPlist.Model

/-!
# Reading binary property lists (`CFBinaryPList.c`)

The reader works on a file in memory. Every byte it reads is checked here: a read behind
the end is an error of its own, different from the failures of the source. Pointers into
the file are offsets from its start; the overflow checks of the source are on addresses.
-/

namespace DarwinNotes.CF.BinaryPlist
open Lib

/-- The bytes of a `CFData`, and where they are in memory. -/
structure File where
  bytes : List Byte
  base : Nat
  isIndex : bytes.length < 2 ^ 63
  inMemory : base + bytes.length < 2 ^ 64

inductive Err
  /-- The source returns false. -/
  | fail
  /-- A byte behind the end of the file is read. -/
  | outOfBounds
  /-- The recursion is deeper than the model follows it. -/
  | outOfFuel
  /-- The values of a set that was not made are counted. -/
  | nullSet
deriving DecidableEq, Repr

abbrev Read (α : Type) := Except Err α

@[simp] theorem ok_bind {α β : Type} (a : α) (f : α → Read β) : (Except.ok a : Read α) >>= f = f a := rfl

@[simp] theorem error_bind {α β : Type} (e : Err) (f : α → Read β) : (Except.error e : Read α) >>= f = .error e := rfl

/-- A sequence succeeds if both its parts do. -/
theorem bind_eq_ok {α β : Type} {x : Read α} {f : α → Read β} {b : β} : x >>= f = .ok b ↔ ∃ a, x = .ok a ∧ f a = .ok b := by
  cases x with
  | error | ok => simp

/-- `FAIL_FALSE` unless `condition` holds. -/
def check (condition : Prop) [Decidable condition] : Read Unit :=
  if condition then .ok () else .error .fail

/-! ## Bytes and integers -/

def File.byte (file : File) (ptr : Nat) : Read Byte :=
  match file.bytes[ptr]? with
  | some byte => .ok byte
  | none => .error .outOfBounds

variable (file : File)

/-- `memmove` out of the file. -/
def File.copy (ptr count : Nat) : Read (List Byte) :=
  if count = 0 ∨ ptr + count ≤ file.bytes.length then .ok ((file.bytes.drop ptr).take count)
  else .error .outOfBounds

/-- `check_ptr_add` -/
def File.ptrAdd (ptr a : Nat) : Read Nat :=
  if 2 ^ 64 - 1 - a < file.base + ptr then .error .fail else .ok (ptr + a)

/-- `check_size_t_mul` -/
def sizeMul (b a : Nat) : Read Nat :=
  if b = 0 then .ok 0 else if (2 ^ 64 - 1) / b < a then .error .fail else .ok (b * a)

/-- The loop of `_getSizedInt`. -/
def shiftBytes (file : File) : Nat → Nat → Nat → Read Nat
  | 0, _, res => .ok res
  | valSize + 1, data, res => do
    let byte ← file.byte data
    shiftBytes file valSize (data + 1) (shiftIn res byte % 2 ^ 64)

/-- `_getSizedInt`; the size is a byte. -/
def getSizedInt (data valSize : Nat) : Read Nat := shiftBytes file (valSize % 2 ^ 8) data 0

/-- `_readInt`: the integer, and the pointer behind it. -/
def readInt (ptr end_byte_ptr : Nat) : Read (Nat × Nat) := do
  check (ptr ≤ end_byte_ptr)
  let marker ← file.byte ptr
  let ptr := ptr + 1
  check (marker &&& 0xf0 = kCFBinaryPlistMarkerInt)
  let cnt := 2 ^ (marker &&& 0x0f).toNat
  let behind ← file.ptrAdd ptr cnt
  check (behind - 1 ≤ end_byte_ptr)
  let bigint ← getSizedInt file ptr cnt
  return (bigint, ptr + cnt)

/-- The count in a marker, or behind it; `ptr` is behind the marker. -/
def readCount (marker : Byte) (ptr end_byte_ptr : Nat) : Read (Nat × Nat) :=
  let cnt := (marker &&& 0x0f).toNat
  if cnt = 0xf then do
    let (bigint, ptr) ← readInt file ptr end_byte_ptr
    check (bigint ≤ 2 ^ 63 - 1)
    return (bigint, ptr)
  else .ok (cnt, ptr)

/-! ## The top level -/

/-- The loop over the offset table. -/
def checkOffsets (file : File) (offsetIntSize maxOffset : Nat) : Nat → Nat → Read Unit
  | 0, _ => .ok ()
  | count + 1, bytesptr => do
    let off ← getSizedInt file bytesptr offsetIntSize
    check (off ≤ maxOffset)
    checkOffsets file offsetIntSize maxOffset count (bytesptr + offsetIntSize)

/-- The trailer is moved out of the file, and its words are swapped. -/
def readTrailer : Read Trailer := do
  let start := file.bytes.length - 32
  let offsetIntSize ← file.byte (start + 6)
  let objectRefSize ← file.byte (start + 7)
  let numObjects ← getSizedInt file (start + 8) 8
  let topObject ← getSizedInt file (start + 16) 8
  let offsetTableOffset ← getSizedInt file (start + 24) 8
  return { offsetIntSize := offsetIntSize.toNat, objectRefSize := objectRefSize.toNat, numObjects := numObjects,
           topObject := topObject, offsetTableOffset := offsetTableOffset }

/-- `__CFBinaryPlistGetTopLevelInfo`: the marker and the offset of the top object, and the trailer. -/
def getTopLevelInfo : Read (Byte × Nat × Trailer) := do
  let datalen := file.bytes.length
  check (32 + 8 + 1 ≤ datalen)
  let magic ← file.copy 0 7
  check (magic = header.take 7)
  let trail ← readTrailer file
  check (trail.numObjects ≤ 2 ^ 63 - 1)
  check (trail.offsetTableOffset ≤ 2 ^ 63 - 1)
  check (1 ≤ trail.numObjects)
  check (trail.topObject < trail.numObjects)
  check (9 ≤ trail.offsetTableOffset)
  check (trail.offsetTableOffset < datalen - 32)
  check (1 ≤ trail.offsetIntSize)
  check (1 ≤ trail.objectRefSize)
  let offsetTableSize ← sizeMul trail.numObjects trail.offsetIntSize
  check (1 ≤ offsetTableSize)
  let objectDataSize := trail.offsetTableOffset - 8
  check (8 + objectDataSize + offsetTableSize + 32 < 2 ^ 64)
  check (datalen = 8 + objectDataSize + offsetTableSize + 32)
  check (trail.objectRefSize < 8 → trail.numObjects < 2 ^ (8 * trail.objectRefSize))
  check (trail.offsetIntSize < 8 → trail.offsetTableOffset < 2 ^ (8 * trail.offsetIntSize))
  let _ ← file.ptrAdd 0 8
  let offsetsFirstByte ← file.ptrAdd 0 trail.offsetTableOffset
  let _ ← file.ptrAdd offsetsFirstByte (offsetTableSize - 1)
  checkOffsets file trail.offsetIntSize (trail.offsetTableOffset - 1) trail.numObjects trail.offsetTableOffset
  let off ← getSizedInt file (trail.offsetTableOffset + trail.topObject * trail.offsetIntSize) trail.offsetIntSize
  check (8 ≤ off ∧ off < trail.offsetTableOffset)
  let marker ← file.byte off
  return (marker, off, trail)

/-! ## Objects without parts -/

/-- A block of `count` bytes behind the marker, which must not reach into the offset table: where it
starts. -/
def block (startOffset count objectsRangeEnd : Nat) : Read Nat := do
  let ptr ← file.ptrAdd startOffset 1
  let behind ← file.ptrAdd ptr count
  check (behind - 1 ≤ objectsRangeEnd)
  return ptr

/-- An unsigned 64-bit word read as a signed one. -/
def toSigned (bigint : Nat) : Int := (BitVec.ofNat 64 bigint).toInt

variable (objectsRangeEnd startOffset : Nat) (marker : Byte)

def readIntObject : Read Value := do
  let cnt := 2 ^ (marker &&& 0x0f).toNat
  let ptr ← block file startOffset cnt objectsRangeEnd
  check (cnt ≤ 16)
  let bigint ← getSizedInt file ptr cnt
  -- a number of 16 bytes gets the high word 0
  return .int (if 8 < cnt then bigint else toSigned bigint)

def readReal : Read Value :=
  if marker &&& 0x0f = 2 then do
    let ptr ← block file startOffset 4 objectsRangeEnd
    let swapped ← file.copy ptr 4
    return .float32 (BitVec.ofNat 32 (swapped.foldl shiftIn 0))
  else if marker &&& 0x0f = 3 then do
    let ptr ← block file startOffset 8 objectsRangeEnd
    let swapped ← file.copy ptr 8
    return .float64 (BitVec.ofNat 64 (swapped.foldl shiftIn 0))
  else .error .fail

def readDate : Read Value :=
  if marker = kCFBinaryPlistMarkerDate then do
    let ptr ← block file startOffset 8 objectsRangeEnd
    let swapped ← file.copy ptr 8
    return .date (BitVec.ofNat 64 (swapped.foldl shiftIn 0))
  else .error .fail

/-- The bytes of a data object or an ASCII string. -/
def readCounted : Read (List Byte) := do
  let ptr ← file.ptrAdd startOffset 1
  let (cnt, ptr) ← readCount file marker ptr objectsRangeEnd
  let behind ← file.ptrAdd ptr cnt
  check (behind - 1 ≤ objectsRangeEnd)
  file.copy ptr cnt

/-- Big-endian characters of two bytes. -/
def swapChars : List Byte → List (BitVec 16)
  | high :: low :: bytes => BitVec.ofNat 16 (shiftIn high.toNat low) :: swapChars bytes
  | _ => []

def readUnicode : Read Value := do
  let ptr ← file.ptrAdd startOffset 1
  let (cnt, ptr) ← readCount file marker ptr objectsRangeEnd
  let behind ← file.ptrAdd ptr cnt
  let extent ← file.ptrAdd (behind - 1) cnt
  check (extent ≤ objectsRangeEnd)
  let byte_cnt ← sizeMul cnt 2
  let bytes ← file.copy ptr byte_cnt
  return .string (swapChars bytes)

def readUID : Read Value := do
  let cnt := (marker &&& 0x0f).toNat + 1
  let ptr ← block file startOffset cnt objectsRangeEnd
  let bigint ← getSizedInt file ptr cnt
  check (bigint ≤ 2 ^ 32 - 1)
  return .uid (BitVec.ofNat 32 bigint)

def readNull : Read Value :=
  if marker = kCFBinaryPlistMarkerNull then .ok .null
  else if marker = kCFBinaryPlistMarkerFalse then .ok (.bool false)
  else if marker = kCFBinaryPlistMarkerTrue then .ok (.bool true)
  else .error .fail

/-- The branches of `__CFBinaryPlistCreateObjectFiltered` for objects without parts. An ASCII string
may have any bytes, and they become the characters of the same numbers. -/
def readLeaf : Read Value :=
  let kind := marker &&& 0xf0
  if kind = kCFBinaryPlistMarkerNull then readNull marker
  else if kind = kCFBinaryPlistMarkerInt then readIntObject file objectsRangeEnd startOffset marker
  else if kind = kCFBinaryPlistMarkerReal then readReal file objectsRangeEnd startOffset marker
  else if kind = kCFBinaryPlistMarkerDate &&& 0xf0 then readDate file objectsRangeEnd startOffset marker
  else if kind = kCFBinaryPlistMarkerData then do
    let bytes ← readCounted file objectsRangeEnd startOffset marker
    return .data bytes
  else if kind = kCFBinaryPlistMarkerASCIIString then do
    let bytes ← readCounted file objectsRangeEnd startOffset marker
    return .string (bytes.map (·.setWidth 16))
  else if kind = kCFBinaryPlistMarkerUnicode16String then readUnicode file objectsRangeEnd startOffset marker
  else if kind = kCFBinaryPlistMarkerUID then readUID file objectsRangeEnd startOffset marker
  else .error .fail

/-! ## Objects with parts -/

inductive Mutability
  | immutable
  | mutableContainers
  | mutableContainersAndLeaves
deriving DecidableEq, Repr

/-- The objects already read, by offset. -/
abbrev Objects := List (Nat × Plist)

/-- Which objects without parts are remembered. -/
def Value.isRemembered (option : Mutability) : Value → Bool
  | .null | .bool _ => false
  | .data _ | .string _ => option ≠ .mutableContainersAndLeaves
  | .int _ | .float32 _ | .float64 _ | .date _ | .uid _ => true

/-- `_plistIsPrimitive` -/
def Plist.isPrimitive : Plist → Bool
  | leaf _ => true
  | array _ | set _ | dict _ _ => false

variable (trailer : Trailer)

/-- `_getOffsetOfRefAt`; a bad reference has the offset `UINT64_MAX`. -/
def getOffsetOfRefAt (bytesptr : Nat) : Read Nat :=
  if bytesptr < 8 ∨ trailer.offsetTableOffset < bytesptr + trailer.objectRefSize then .ok (2 ^ 64 - 1)
  else do
    let ref ← getSizedInt file bytesptr trailer.objectRefSize
    if trailer.numObjects ≤ ref then .ok (2 ^ 64 - 1)
    else getSizedInt file (trailer.offsetTableOffset + ref * trailer.offsetIntSize) trailer.offsetIntSize

/-- The references of an object with parts: `count` of them must fit before the offset table, and a
list of `count` pointers in memory. -/
def checkRefs (ptr count : Nat) : Read Unit := do
  let byte_cnt ← sizeMul count trailer.objectRefSize
  let behind ← file.ptrAdd ptr byte_cnt
  check (behind - 1 ≤ trailer.offsetTableOffset - 1)
  let _ ← sizeMul count 8
  return ()

/-- The loop over the references; the first `keys` parts must be primitive. -/
def createParts (file : File) (trailer : Trailer) (create : Option Objects → Nat → Read (Plist × Option Objects)) :
    (keys count ptr : Nat) → Option Objects → Read (List Plist × Option Objects)
  | _, 0, _, objects => .ok ([], objects)
  | keys, count + 1, ptr, objects => do
    let off ← getOffsetOfRefAt file trailer ptr
    let (pl, objects) ← create objects off
    check (keys = 0 ∨ pl.isPrimitive)
    let (pls, objects) ← createParts file trailer create (keys - 1) count (ptr + trailer.objectRefSize) objects
    return (pl :: pls, objects)

/-- The offsets on the path are kept from depth 16 on. -/
def extendPath (path : Option (List Nat)) (curDepth startOffset : Nat) : Option (List Nat) :=
  match path with
  | some set => some (startOffset :: set)
  | none => if 15 < curDepth then some [startOffset] else none

/-- An object that is read is remembered, if it may be shared. -/
def remember (objects : Option Objects) (shared : Bool) (startOffset : Nat) (plist : Plist) : Option Objects :=
  if shared then objects.map ((startOffset, plist) :: ·) else objects

/-- The object at an offset, when it is not remembered; `create` reads the parts. -/
def readObject (option : Mutability)
    (create : Option Objects → Nat → Read (Plist × Option Objects)) (objects : Option Objects) (startOffset : Nat) :
    Read (Plist × Option Objects) := do
  let objectsRangeEnd := trailer.offsetTableOffset - 1
  check (8 ≤ startOffset ∧ startOffset ≤ objectsRangeEnd)
  let marker ← file.byte startOffset
  let kind := marker &&& 0xf0
  if kind = kCFBinaryPlistMarkerArray ∨ kind = kCFBinaryPlistMarkerSet then
    let ptr ← file.ptrAdd startOffset 1
    let (arrayCount, ptr) ← readCount file marker ptr objectsRangeEnd
    checkRefs file trailer ptr arrayCount
    let (list, objects) ← createParts file trailer create 0 arrayCount ptr objects
    let plist := if kind = kCFBinaryPlistMarkerArray then Plist.array list else Plist.set list
    return (plist, remember objects (option = .immutable) startOffset plist)
  else if kind = kCFBinaryPlistMarkerDict then
    let ptr ← file.ptrAdd startOffset 1
    let (count, ptr) ← readCount file marker ptr objectsRangeEnd
    let dictionaryCount ← sizeMul count 2
    checkRefs file trailer ptr dictionaryCount
    let (list, objects) ← createParts file trailer create (dictionaryCount / 2) dictionaryCount ptr objects
    let plist := Plist.dict (list.take (dictionaryCount / 2)) (list.drop (dictionaryCount / 2))
    return (plist, remember objects (option = .immutable) startOffset plist)
  else
    let value ← readLeaf file objectsRangeEnd startOffset marker
    return (.leaf value, remember objects (value.isRemembered option) startOffset (.leaf value))

/-- `__CFBinaryPlistCreateObjectFiltered` without key paths; `path` is the set of the source. -/
def createObject (file : File) (trailer : Trailer) (option : Mutability) :
    (fuel : Nat) → (path : Option (List Nat)) → (curDepth : Nat) → Option Objects → (startOffset : Nat) → Read (Plist × Option Objects)
  | 0, _, _, _, _ => .error .outOfFuel
  | fuel + 1, path, curDepth, objects, startOffset =>
    match (objects.getD []).lookup startOffset with
    | some plist => .ok (plist, objects)
    | none => do
      check (startOffset ∉ path.getD [])
      readObject file trailer option
        (createObject file trailer option fuel (extendPath path curDepth startOffset) (curDepth + 1)) objects startOffset

/-- `__CFBinaryPlistCreateObject`. Below depth 16 a path has no offset twice, so it is shorter than
the fuel. -/
def binaryPlistCreateObject (startOffset : Nat) (option : Mutability)
    (objects : Option Objects) : Read (Plist × Option Objects) :=
  createObject file trailer option (file.bytes.length + 18) none 0 objects startOffset

end DarwinNotes.CF.BinaryPlist
