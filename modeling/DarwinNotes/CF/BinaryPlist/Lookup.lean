import DarwinNotes.CF.BinaryPlist.Reader

/-!
# Looking up single values (`CFBinaryPList.c`, `CFPropertyList.c`)

A value can be taken out of a file without reading the rest: an array by index, a
dictionary by searching its keys. ASCII keys are compared byte by byte in the file, other
keys are read first.
-/

namespace DarwinNotes.CF.BinaryPlist
open Lib List

/-! ## Arrays -/

variable (file : File) (trailer : Trailer)

/-- The references of an object with parts must fit before the offset table. -/
def checkExtent (ptr count : Nat) : Read Unit := do
  let byte_cnt ← sizeMul count trailer.objectRefSize
  let behind ← file.ptrAdd ptr byte_cnt
  check (behind - 1 ≤ trailer.offsetTableOffset - 1)

variable (startOffset : Nat)

/-- `__CFBinaryPlistGetOffsetForValueFromArray2` -/
def getOffsetForValueFromArray2 (trailer : Trailer) (idx : Nat) : Read Nat := do
  let objectsRangeEnd := trailer.offsetTableOffset - 1
  check (8 ≤ startOffset ∧ startOffset ≤ objectsRangeEnd)
  let marker ← file.byte startOffset
  check (marker &&& 0xf0 = kCFBinaryPlistMarkerArray)
  let ptr ← file.ptrAdd startOffset 1
  let (cnt, ptr) ← readCount file marker ptr objectsRangeEnd
  check (idx < cnt)
  checkExtent file trailer ptr cnt
  getOffsetOfRefAt file trailer (ptr + idx * trailer.objectRefSize)

/-! ## Dictionaries -/

/-- `KEY_BUFF_SIZE` -/
def keyBuffSize : Nat := 16

variable (chars : List (BitVec 16))

/-- The bytes begin with a string in MacRoman: ASCII characters are themselves, and every other
character makes a byte that is not ASCII. -/
def Encodes (bytes : List Byte) : Prop :=
  ((∀ c ∈ chars, c.toNat < 0x80) → bytes.take chars.length = chars.map (·.setWidth 8)) ∧
    (¬ (∀ c ∈ chars, c.toNat < 0x80) → ∃ byte ∈ bytes.take chars.length, 0x80 ≤ byte.toNat)

/-- What the string functions give for a key string in MacRoman: the pointer of
`CFStringGetCStringPtr`, which not every string has, and what `CFStringGetCString` leaves in `keyBuffer`
if the string is shorter than the buffer. It fails for other characters than those of MacRoman: then
the first byte is 0, and the others are whatever they were. -/
structure KeyForm (chars : List (BitVec 16)) where
  cStringPtr : Option (List Byte)
  keyBuffer : List Byte
  pointed : ∀ bytes, cStringPtr = some bytes → Encodes chars bytes
  sized : keyBuffer.length = keyBuffSize
  buffered : chars.length < keyBuffSize → Encodes chars keyBuffer ∨ ¬ (∀ c ∈ chars, c.toNat < 0x80) ∧ keyBuffer.head? = some 0

/-- `keyBufferPtr` -/
def KeyForm.keyBufferPtr {chars : List (BitVec 16)} (form : KeyForm chars) : Option (List Byte) :=
  match form.cStringPtr with
  | some bytes => some bytes
  | none => if chars.length < keyBuffSize then some form.keyBuffer else none

/-- A key string without a pointer, copied to a buffer of zeros if all its characters are ASCII. -/
def copiedForm : KeyForm chars where
  cStringPtr := none
  keyBuffer :=
    if (∀ c ∈ chars, c.toNat < 0x80) ∧ chars.length < keyBuffSize then
      chars.map (·.setWidth 8) ++ replicate (keyBuffSize - chars.length) 0
    else replicate keyBuffSize 0
  pointed _ isPointer := nomatch isPointer
  sized := by
    split
    case isTrue short =>
      rw [length_append, length_map, length_replicate]
      omega
    case isFalse => exact length_replicate
  buffered short := by
    by_cases ascii : ∀ c ∈ chars, c.toNat < 0x80
    · rw [if_pos ⟨ascii, short⟩]
      refine .inl ⟨fun _ => ?_, fun other => absurd ascii other⟩
      rw [take_left' (length_map _)]
    · rw [if_neg fun both => ascii both.1]
      exact .inr ⟨ascii, rfl⟩

/-- A key to search for: a string, or another property list. -/
inductive SearchKey
  | string (chars : List (BitVec 16)) (form : KeyForm chars)
  | other (key : Plist)

/-- `CFEqual` of the key and a primitive key of the file. -/
def SearchKey.isEqual : SearchKey → Plist → Bool
  | string chars _, .leaf value => value = .string chars
  | other (.leaf key), .leaf value => value = key
  | _, _ => false

/-- The length and the bytes to compare with, for a string that has them. -/
def SearchKey.bytes : SearchKey → Option (Nat × List Byte)
  | string chars form => form.keyBufferPtr.map fun bytes => (chars.length, bytes)
  | other _ => none

/-- An ASCII string of the file is compared byte by byte. A long length is only read if the key is long
too: otherwise it is 15 in the marker, and the key is shorter. -/
def compareASCII (stringKeyLen : Nat) (keyBufferPtr : List Byte) (off : Nat)
    (marker : Byte) : Read Bool := do
  let ptr2 ← file.ptrAdd off 1
  let (len, ptr2) ← (if 0xf ≤ stringKeyLen then readCount file marker ptr2 (trailer.offsetTableOffset - 1)
    else .ok ((marker &&& 0x0f).toNat, ptr2))
  if len = stringKeyLen then do
    let extent ← file.ptrAdd ptr2 len
    check (extent < trailer.offsetTableOffset)
    let bytes ← file.copy ptr2 len
    return bytes = keyBufferPtr.take stringKeyLen
  else return false

/-- Whether the key of the file at an offset matches. Other keys than ASCII strings are read, without
remembering them. -/
def matchKey (key : SearchKey) (off : Nat) : Read Bool := do
  let marker ← file.byte off
  match key.bytes with
  | some (stringKeyLen, keyBufferPtr) =>
    if marker &&& 0xf0 = kCFBinaryPlistMarkerASCIIString then
      compareASCII file trailer stringKeyLen keyBufferPtr off marker
    else readKey off
  | none => readKey off
where
  readKey (off : Nat) : Read Bool := do
    let (keyInData, _) ← binaryPlistCreateObject file trailer off .immutable none
    check keyInData.isPrimitive
    return key.isEqual keyInData

/-- The linear search of the keys: the offsets of the key and of its value. -/
def searchKeys (file : File) (trailer : Trailer) (key : SearchKey) (totalKeySize : Nat) : Nat → Nat → Read (Nat × Nat)
  | 0, _ => .error .fail
  | count + 1, ptr => do
    let off ← getOffsetOfRefAt file trailer ptr
    let isMatch ← matchKey file trailer key off
    if isMatch then do
      let voffset ← getOffsetOfRefAt file trailer (ptr + totalKeySize)
      return (off, voffset)
    else searchKeys file trailer key totalKeySize count (ptr + trailer.objectRefSize)

def SearchKey.isPrimitive : SearchKey → Bool
  | string _ _ => true
  | other key => key.isPrimitive

/-- The count and the references of the dictionary that is searched. -/
def dictionaryHeader (trailer : Trailer) : Read (Nat × Nat) := do
  let objectsRangeEnd := trailer.offsetTableOffset - 1
  check (8 ≤ startOffset ∧ startOffset ≤ objectsRangeEnd)
  let marker ← file.byte startOffset
  check (marker &&& 0xf0 = kCFBinaryPlistMarkerDict)
  let ptr ← file.ptrAdd startOffset 1
  let (cnt, ptr) ← readCount file marker ptr objectsRangeEnd
  let cnt ← sizeMul cnt 2
  checkExtent file trailer ptr cnt
  return (cnt / 2, ptr)

/-- `__CFBinaryPlistGetOffsetForValueFromDictionary3` -/
def getOffsetForValueFromDictionary3 (trailer : Trailer) (key : SearchKey) : Read (Nat × Nat) := do
  check key.isPrimitive
  let (cnt, ptr) ← dictionaryHeader file startOffset trailer
  searchKeys file trailer key (cnt * trailer.objectRefSize) cnt ptr

/-! ## Key paths -/

/-- `__CFIsWhitespace` -/
def isWhitespace (c : BitVec 16) : Bool :=
  c.toNat < 0x21 || (0x7e < c.toNat && c.toNat < 0xa1) || (0x2000 ≤ c.toNat && c.toNat ≤ 0x200b) || c.toNat = 0x3000

def isDigit (c : BitVec 16) : Bool := 0x30 ≤ c.toNat && c.toNat ≤ 0x39

def intMax : Int := 2 ^ 31 - 1
def intMin : Int := -2 ^ 31

/-- The digits of `__CFStringScanInteger` for an `int`, which stays at its limit when it overflows. -/
def scanDigits (neg : Bool) (intResult : Int) : List (BitVec 16) → Int
  | [] => if neg then -intResult else intResult
  | c :: chars =>
    if isDigit c then
      let value : Int := c.toNat - 0x30
      if intMax / 10 ≤ intResult ∧ (intMax / 10 < intResult ∨ intMax - intResult * 10 ≤ value - (if neg then 1 else 0)) then
        if neg then intMin else intMax
      else scanDigits neg (intResult * 10 + value) chars
    else if neg then -intResult else intResult

/-- `CFStringGetIntValue` -/
def getIntValue : Int :=
  let chars := chars.dropWhile isWhitespace
  let signed := chars.head? = some 0x2d ∨ chars.head? = some 0x2b
  let rest := if signed then (chars.drop 1).dropWhile isWhitespace else chars
  if (rest.head?.map isDigit).getD false then scanDigits (chars.head? = some 0x2d) 0 rest else 0

/-- The index that a component of a key path stands for, unless it is a key of a dictionary. -/
def indexValue (oneKey : List (BitVec 16)) : Option Nat :=
  let intValue := getIntValue oneKey
  if (intValue = 0 ∧ oneKey ≠ [0x30]) ∨ intValue = intMax ∨ intValue = intMin ∨ intValue < 0 then none
  else some intValue.toNat

/-- One component: the offset of the part that it names. -/
def followKey (oneKey : List (BitVec 16)) (form : KeyForm oneKey) (valueOffset : Nat) : Read Nat :=
  match indexValue oneKey with
  | none => do
    let (_, voffset) ← getOffsetForValueFromDictionary3 file valueOffset trailer (.string oneKey form)
    return voffset
  | some idx => getOffsetForValueFromArray2 file valueOffset trailer idx

/-- The loop over the components: the offset where it ends. -/
def followKeys (file : File) (trailer : Trailer) : List ((chars : List (BitVec 16)) × KeyForm chars) → Nat → Read Nat
  | [], valueOffset => .ok valueOffset
  | ⟨oneKey, form⟩ :: keys, valueOffset => do
    let valueOffset ← followKey file trailer oneKey form valueOffset
    followKeys file trailer keys valueOffset

/-- `_CFPropertyListCreateSingleValue` for a binary property list; `form` is what the string functions
give for each of the strings that the key path is separated into. -/
def createSingleValue (option : Mutability) (keyPath : List (BitVec 16))
    (form : Nat → (chars : List (BitVec 16)) → KeyForm chars) : Read Plist := do
  check (keyPath ≠ [])
  let (_, offset, trailer) ← getTopLevelInfo file
  let valueOffset ← followKeys file trailer ((keyPath.splitOn 0x3a).mapIdx fun i oneKey => ⟨oneKey, form i oneKey⟩) offset
  let (value, _) ← binaryPlistCreateObject file trailer valueOffset option (some [])
  return value

end DarwinNotes.CF.BinaryPlist
