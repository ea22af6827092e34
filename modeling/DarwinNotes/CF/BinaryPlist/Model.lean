import DarwinNotes.Lib.Bytes

/-!
# Writing binary property lists (`CFBinaryPList.c`)

A property list is a tree of objects that may share parts. Writing flattens it: every
object gets a number, and arrays and dictionaries refer to their parts by number. The
file is a header, the objects, the offsets of the objects and a trailer; it goes
through a buffer of 8160 bytes into a data object.

Reals and dates are the bit patterns of their floating point numbers.
-/

namespace DarwinNotes.CF.BinaryPlist
open Lib

/-! ## Objects -/

/-- The integer types of `CFNumber`. -/
inductive IntType
  | sInt8
  | sInt16
  | sInt32
  | sInt64
  | sInt128
deriving DecidableEq, Repr

def IntType.bits : IntType → Nat
  | sInt8 => 8
  | sInt16 => 16
  | sInt32 => 32
  | sInt64 => 64
  | sInt128 => 128

/-- A `CFNumber` that is an integer. -/
structure IntNumber where
  type : IntType
  value : Int
  lower : -2 ^ (type.bits - 1) ≤ value
  upper : value < 2 ^ (type.bits - 1)
deriving DecidableEq, Repr

/-- The objects without parts. -/
inductive Leaf
  | null
  | bool (value : Bool)
  | int (number : IntNumber)
  | float32 (bits : BitVec 32)
  | float64 (bits : BitVec 64)
  | date (absoluteTime : BitVec 64)
  | data (bytes : List Byte)
  | string (chars : List (BitVec 16))
  | uid (value : BitVec 32)
deriving DecidableEq, Repr

/-- Objects, with their addresses. A dictionary has its keys and its values in the order of
`CFDictionaryGetKeysAndValues`. -/
inductive Obj
  | leaf (ptr : Nat) (content : Leaf)
  | array (ptr : Nat) (values : List Obj)
  | dict (ptr : Nat) (keys values : List Obj)

def Obj.ptr : Obj → Nat
  | leaf ptr _ => ptr
  | array ptr _ => ptr
  | dict ptr _ _ => ptr

/-- What an object without parts means: the type of an integer does not matter. -/
inductive Value
  | null
  | bool (value : Bool)
  | int (value : Int)
  | float32 (bits : BitVec 32)
  | float64 (bits : BitVec 64)
  | date (absoluteTime : BitVec 64)
  | data (bytes : List Byte)
  | string (chars : List (BitVec 16))
  | uid (value : BitVec 32)
deriving DecidableEq, Repr

/-- Property lists without addresses. A set or a dictionary is what its constructor is given; of two
equal keys the first counts. -/
inductive Plist
  | leaf (value : Value)
  | array (values : List Plist)
  | set (values : List Plist)
  | dict (keys values : List Plist)

def Leaf.value : Leaf → Value
  | null => .null
  | bool value => .bool value
  | int number => .int number.value
  | float32 bits => .float32 bits
  | float64 bits => .float64 bits
  | date absoluteTime => .date absoluteTime
  | data bytes => .data bytes
  | string chars => .string chars
  | uid value => .uid value

mutual

def Obj.value : Obj → Plist
  | .leaf _ content => .leaf content.value
  | .array _ values => .array (valuesOf values)
  | .dict _ keys values => .dict (valuesOf keys) (valuesOf values)

def valuesOf : List Obj → List Plist
  | [] => []
  | obj :: objs => obj.value :: valuesOf objs

end

/-! ## The buffer -/

/-- `sizeof(buf->buffer)` -/
def bufferSize : Nat := 8192 - 32

/-- `__CFBinaryPlistWriteBuffer` for a stream that is a `CFMutableData`: the bytes in the stream, and
the bytes in the buffer that are used. -/
structure WriteBuffer where
  stream : List Byte
  written : Nat
  buffer : List Byte
  counted : written = stream.length
  room : buffer.length < bufferSize

namespace WriteBuffer

variable (buf : WriteBuffer)

def used : Nat := buf.buffer.length

def start : WriteBuffer where
  stream := []
  written := 0
  buffer := []
  counted := rfl
  room := by decide

/-- `writeBytes`; then `buffer` is what is left in the buffer. -/
def writeBytes (bytes buffer : List Byte) (room : buffer.length < bufferSize) : WriteBuffer where
  stream := buf.stream ++ bytes
  written := buf.written + bytes.length
  buffer := buffer
  counted := by rw [buf.counted, List.length_append]
  room := room

def bufferFlush : WriteBuffer := buf.writeBytes buf.buffer [] (by decide)

def bufferWrite (bytes : List Byte) : WriteBuffer :=
  let count := bytes.length
  if count = 0 then buf
  else if large : bufferSize ≤ count then buf.bufferFlush.writeBytes bytes [] (by decide)
  else
    let copyLen := min count (bufferSize - buf.used)
    let buffer := buf.buffer ++ bytes.take copyLen
    if full : buffer.length = bufferSize then
      buf.writeBytes buffer (bytes.drop copyLen) (by
        rw [List.length_drop]
        omega)
    else
      { buf with
        buffer := buffer
        room := by
          refine Nat.lt_of_le_of_ne ?_ full
          have room := buf.room
          simp only [buffer, List.length_append, List.length_take, copyLen, used]
          omega }

end WriteBuffer

/-! ## Objects in the file -/

def kCFBinaryPlistMarkerNull : Byte := 0x00
def kCFBinaryPlistMarkerFalse : Byte := 0x08
def kCFBinaryPlistMarkerTrue : Byte := 0x09
def kCFBinaryPlistMarkerInt : Byte := 0x10
def kCFBinaryPlistMarkerReal : Byte := 0x20
def kCFBinaryPlistMarkerDate : Byte := 0x33
def kCFBinaryPlistMarkerData : Byte := 0x40
def kCFBinaryPlistMarkerASCIIString : Byte := 0x50
def kCFBinaryPlistMarkerUnicode16String : Byte := 0x60
def kCFBinaryPlistMarkerUID : Byte := 0x80
def kCFBinaryPlistMarkerArray : Byte := 0xA0
def kCFBinaryPlistMarkerSet : Byte := 0xC0
def kCFBinaryPlistMarkerDict : Byte := 0xD0

open WriteBuffer

/-- The size and the marker that `_appendInt` chooses. -/
def intSize (bigint : Nat) : Nat × Byte :=
  if bigint ≤ 0xff then (1, kCFBinaryPlistMarkerInt ||| 0)
  else if bigint ≤ 0xffff then (2, kCFBinaryPlistMarkerInt ||| 1)
  else if bigint ≤ 0xffffffff then (4, kCFBinaryPlistMarkerInt ||| 2)
  else (8, kCFBinaryPlistMarkerInt ||| 3)

variable (buf : WriteBuffer)

/-- `_appendInt` -/
def appendInt (bigint : Nat) : WriteBuffer :=
  let (nbytes, marker) := intSize bigint
  let bytes := (bigEndian 8 bigint).drop (8 - nbytes)
  (buf.bufferWrite [marker]).bufferWrite bytes

/-- `_appendUID` -/
def appendUID (uid : BitVec 32) : WriteBuffer :=
  let bigint := uid.toNat
  let nbytes := if bigint ≤ 0xff then 1 else if bigint ≤ 0xffff then 2 else if bigint ≤ 0xffffffff then 4 else 8
  let marker := kCFBinaryPlistMarkerUID ||| BitVec.ofNat 8 (nbytes - 1)
  let bytes := (bigEndian 8 bigint).drop (8 - nbytes)
  (buf.bufferWrite [marker]).bufferWrite bytes

/-- A marker with a count, which follows as an integer if it is large. -/
def appendCount (kind : Byte) (count : Nat) : WriteBuffer :=
  let marker := kind ||| BitVec.ofNat 8 (if count < 15 then count else 0xf)
  let buf := buf.bufferWrite [marker]
  if 15 ≤ count then appendInt buf count else buf

/-- `CFStringGetBytes` for ASCII without a loss byte: it stops at the first character that is not
ASCII. -/
def asciiBytes (chars : List (BitVec 16)) : List Byte :=
  (chars.takeWhile fun c => decide (c.toNat < 0x80)).map fun c => BitVec.ofNat 8 c.toNat

/-- `_appendString` -/
def appendString (chars : List (BitVec 16)) : WriteBuffer :=
  let count := chars.length
  let bytes := asciiBytes chars
  if bytes.length = count then
    (appendCount buf kCFBinaryPlistMarkerASCIIString bytes.length).bufferWrite bytes
  else
    (appendCount buf kCFBinaryPlistMarkerUnicode16String count).bufferWrite (chars.flatMap fun c => bigEndian 2 c.toNat)

/-- `_appendNumber` for an integer. -/
def appendIntNumber (num : IntNumber) : WriteBuffer :=
  if num.type = .sInt128 then
    let high := (num.value / 2 ^ 64 % 2 ^ 64).toNat
    let low := (num.value % 2 ^ 64).toNat
    (buf.bufferWrite [kCFBinaryPlistMarkerInt ||| 4]).bufferWrite (bigEndian 8 high ++ bigEndian 8 low)
  else appendInt buf (num.value % 2 ^ 64).toNat

/-- The branches of `_appendObject` for objects without parts. -/
def appendLeaf : Leaf → Option WriteBuffer
  | .string chars => some (appendString buf chars)
  | .int number => some (appendIntNumber buf number)
  | .float32 bits => some ((buf.bufferWrite [kCFBinaryPlistMarkerReal ||| 2]).bufferWrite (bigEndian 4 bits.toNat))
  | .float64 bits => some ((buf.bufferWrite [kCFBinaryPlistMarkerReal ||| 3]).bufferWrite (bigEndian 8 bits.toNat))
  | .bool value => some (buf.bufferWrite [if value then kCFBinaryPlistMarkerTrue else kCFBinaryPlistMarkerFalse])
  | .data bytes => some ((appendCount buf kCFBinaryPlistMarkerData bytes.length).bufferWrite bytes)
  | .date absoluteTime => some ((buf.bufferWrite [kCFBinaryPlistMarkerDate]).bufferWrite (bigEndian 8 absoluteTime.toNat))
  | .uid value => some (appendUID buf value)
  | .null => none

/-- The numbers of the objects, by address. -/
abbrev ObjTable := List (Nat × Nat)

/-- The reference to a part: the last bytes of its number. -/
def appendRef (objtable : ObjTable) (objRefSize : Nat) (buf : WriteBuffer) (value : Obj) : WriteBuffer :=
  let refnum := ((objtable.lookup value.ptr).getD 0) % 2 ^ 32
  buf.bufferWrite ((bigEndian 4 refnum).drop (4 - objRefSize))

/-- `_appendObject`; `none` for an object that is no property list. -/
def appendObject (objtable : ObjTable) (objRefSize : Nat) (buf : WriteBuffer) : Obj → Option WriteBuffer
  | .leaf _ content => appendLeaf buf content
  | .dict _ keys values =>
    some ((keys ++ values).foldl (appendRef objtable objRefSize) (appendCount buf kCFBinaryPlistMarkerDict keys.length))
  | .array _ values => some (values.foldl (appendRef objtable objRefSize) (appendCount buf kCFBinaryPlistMarkerArray values.length))

/-! ## Flattening -/

structure Flat where
  objlist : List Obj
  objtable : ObjTable
  uniquingset : List Nat

/-- Strings, numbers, dates and data are uniqued. -/
def Leaf.isUniqued : Leaf → Bool
  | .string _ | .int _ | .float32 _ | .float64 _ | .date _ | .data _ => true
  | .null | .bool _ | .uid _ => false

/-- The object is appended; `CFDictionaryAddValue` keeps a number that is already there. -/
def Flat.add (flat : Flat) (plist : Obj) : Flat :=
  let refnum := flat.objlist.length % 2 ^ 32
  { flat with
    objlist := flat.objlist ++ [plist]
    objtable := if (flat.objtable.lookup plist.ptr).isSome then flat.objtable else flat.objtable ++ [(plist.ptr, refnum)] }

mutual

/-- `_flattenPlist`. The set and the table compare addresses, so an object that is already in the
set is the object itself. -/
def flattenPlist (flat : Flat) : Obj → Flat
  | .leaf ptr content =>
    if content.isUniqued then
      if ptr ∈ flat.uniquingset then flat
      else { flat with uniquingset := ptr :: flat.uniquingset }.add (.leaf ptr content)
    else flat.add (.leaf ptr content)
  | .dict ptr keys values => flattenAll (flattenAll (flat.add (.dict ptr keys values)) keys) values
  | .array ptr values => flattenAll (flat.add (.array ptr values)) values

def flattenAll (flat : Flat) : List Obj → Flat
  | [] => flat
  | plist :: plists => flattenAll (flattenPlist flat plist) plists

end

/-! ## The file -/

/-- The first loop of `_byteCount`: one more byte while something of `count` is above. -/
def neededBytes (count : Nat) : Nat → Nat → Nat
  | 0, size => size
  | masks + 1, size => if count / 256 ^ size ≠ 0 then neededBytes count masks (size + 1) else size

/-- The second loop of `_byteCount`: up to a power of two. -/
def roundSize : Nat → Nat → Nat
  | 0, size => size
  | turns + 1, size => if (size ≠ 1 ∧ size ≠ 2 ∧ size ≠ 4 ∧ size ≠ 8) ∧ size ≤ 8 then roundSize turns (size + 1) else size

/-- `_byteCount`; the mask is empty after eight shifts. -/
def byteCount (count : Nat) : Nat := roundSize 9 (neededBytes (count % 2 ^ 64) 8 0)

/-- "bplist00" -/
def header : List Byte := [0x62, 0x70, 0x6c, 0x69, 0x73, 0x74, 0x30, 0x30]

/-- `CFBinaryPlistTrailer`, without the bytes that nothing reads. -/
structure Trailer where
  offsetIntSize : Nat
  objectRefSize : Nat
  numObjects : Nat
  topObject : Nat
  offsetTableOffset : Nat
deriving DecidableEq, Repr

def Trailer.bytes (trailer : Trailer) : List Byte :=
  [0, 0, 0, 0, 0, 0, BitVec.ofNat 8 trailer.offsetIntSize, BitVec.ofNat 8 trailer.objectRefSize] ++
    bigEndian 8 trailer.numObjects ++ bigEndian 8 trailer.topObject ++ bigEndian 8 trailer.offsetTableOffset

/-- The loop over the objects: the buffer and the offsets, or the buffer where it gives up. -/
def appendObjects (objtable : ObjTable) (objRefSize : Nat) : WriteBuffer → List Obj → Except WriteBuffer (WriteBuffer × List Nat)
  | buf, [] => .ok (buf, [])
  | buf, obj :: objlist =>
    let offset := buf.written + buf.used
    match appendObject objtable objRefSize buf obj with
    | none => .error buf
    | some buf => do
      let (buf, offsets) ← appendObjects objtable objRefSize buf objlist
      return (buf, offset :: offsets)

/-- `__CFBinaryPlistWrite` to an empty data object: what it returns, and the data. -/
def binaryPlistWrite (plist : Obj) : Nat × List Byte :=
  let flat := flattenPlist ⟨[], [], []⟩ plist
  let cnt := flat.objlist.length
  let buf := start.bufferWrite header
  let objectRefSize := byteCount cnt
  match appendObjects flat.objtable objectRefSize buf flat.objlist with
  | .error buf => (0, buf.stream)
  | .ok (buf, offsets) =>
    let length_so_far := buf.written + buf.used
    let offsetIntSize := byteCount length_so_far
    let trailer : Trailer :=
      { offsetIntSize := offsetIntSize, objectRefSize := objectRefSize, numObjects := cnt, topObject := 0,
        offsetTableOffset := length_so_far }
    let buf := offsets.foldl (fun buf offset => buf.bufferWrite ((bigEndian 8 offset).drop (8 - offsetIntSize))) buf
    let length_so_far := length_so_far + cnt * offsetIntSize
    let buf := (buf.bufferWrite trailer.bytes).bufferFlush
    (length_so_far + trailer.bytes.length, buf.stream)

end DarwinNotes.CF.BinaryPlist
