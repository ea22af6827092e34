import DarwinNotes.CF.BinaryPlist.Model

/-!
# The bytes of a written property list

The buffer is transparent: what is written is appended to what has been written. So the
file is the header, the bytes of the objects one after another, the offsets of the
objects and the trailer.
-/

namespace DarwinNotes.CF.BinaryPlist
open Lib WriteBuffer List

/-! ## The buffer is transparent -/

namespace WriteBuffer

variable (buf : WriteBuffer)

/-- Everything that has been written. -/
def contents : List Byte := buf.stream ++ buf.buffer

theorem written_add_used : buf.written + buf.used = buf.contents.length := by rw [contents, length_append, buf.counted, used]

@[simp] theorem contents_start : start.contents = [] := rfl

theorem contents_writeBytes (bytes buffer : List Byte) (room : buffer.length < bufferSize) :
    (buf.writeBytes bytes buffer room).contents = buf.stream ++ bytes ++ buffer := rfl

theorem stream_bufferFlush : buf.bufferFlush.stream = buf.contents := rfl

@[simp] theorem contents_bufferWrite (bytes : List Byte) : (buf.bufferWrite bytes).contents = buf.contents ++ bytes := by
  simp only [bufferWrite]
  split
  case isTrue empty => rw [eq_nil_of_length_eq_zero empty, append_nil]
  case isFalse =>
  split
  case isTrue => rw [contents_writeBytes, append_nil, stream_bufferFlush]
  case isFalse =>
  split
  case isTrue => rw [contents_writeBytes, contents, append_assoc, append_assoc, append_assoc, take_append_drop]
  case isFalse _ notFull =>
  -- the buffer does not get full, so there is room for all of the bytes
  have all : bytes.take (min bytes.length (bufferSize - buf.used)) = bytes := by
    refine take_of_length_le (Nat.le_of_not_lt fun cut => notFull ?_)
    have room := buf.room
    simp only [length_append, length_take, used] at cut ⊢
    omega
  simp [contents, all]

theorem contents_foldl_bufferWrite {α : Type} (bytes : α → List Byte) (items : List α) :
    (items.foldl (fun buf item => buf.bufferWrite (bytes item)) buf).contents = buf.contents ++ items.flatMap bytes := by
  induction items generalizing buf with
  | nil => rw [foldl_nil, flatMap_nil, append_nil]
  | cons _ _ ih => rw [foldl_cons, ih, contents_bufferWrite, flatMap_cons, append_assoc]

end WriteBuffer

/-! ## Integers -/

variable (bigint : Nat)

/-- An integer in the file. -/
def intBytes : List Byte := (intSize bigint).2 :: bigEndian (intSize bigint).1 bigint

theorem intSize_spec : ∃ n, n ≤ 3 ∧ intSize bigint = (2 ^ n, kCFBinaryPlistMarkerInt ||| BitVec.ofNat 8 n) ∧
      (bigint < 2 ^ 64 → bigint < 256 ^ 2 ^ n) ∧ (2 ^ 32 ≤ bigint → n = 3) ∧ (bigint < 2 ^ 32 → n ≤ 2) := by
  unfold intSize
  split
  · exact ⟨0, by omega, rfl, by omega, by omega, by omega⟩
  · split
    · exact ⟨1, by omega, rfl, by omega, by omega, by omega⟩
    · split
      · exact ⟨2, by omega, rfl, by omega, by omega, by omega⟩
      · exact ⟨3, by omega, rfl, by omega, by omega, by omega⟩

theorem intSize_le : (intSize bigint).1 ≤ 8 := by
  obtain ⟨n, small, size, -⟩ := intSize_spec bigint
  rw [size]
  exact Nat.pow_le_pow_right (by decide) small

/-- The last bytes of an integer of eight bytes. -/
theorem drop_bigEndian_of_le {width wide : Nat} (narrow : width ≤ wide) (value : Nat) :
    (bigEndian wide value).drop (wide - width) = bigEndian width value := by
  obtain ⟨_, rfl⟩ := Nat.exists_eq_add_of_le' narrow
  rw [Nat.add_sub_cancel, drop_bigEndian]

variable (buf : WriteBuffer)

@[simp] theorem contents_appendInt (bigint : Nat) :
    (appendInt buf bigint).contents = buf.contents ++ intBytes bigint := by
  simp [appendInt, intBytes, drop_bigEndian_of_le (intSize_le bigint)]

def countMarker (kind : Byte) (count : Nat) : Byte := kind ||| BitVec.ofNat 8 (if count < 15 then count else 0xf)

/-- A marker with a count in the file. -/
def countBytes (kind : Byte) (count : Nat) : List Byte := countMarker kind count :: if 15 ≤ count then intBytes count else []

@[simp] theorem contents_appendCount (kind : Byte) (count : Nat) :
    (appendCount buf kind count).contents = buf.contents ++ countBytes kind count := by
  simp only [appendCount, countBytes, countMarker]
  split <;> simp

/-! ## Objects -/

def uidSize (value : Nat) : Nat :=
  if value ≤ 0xff then 1 else if value ≤ 0xffff then 2 else if value ≤ 0xffffffff then 4 else 8

variable (chars : List (BitVec 16))

/-- A string is written in ASCII if it can be. -/
def isASCII : Prop := ∀ c ∈ chars, c.toNat < 0x80

instance (chars : List (BitVec 16)) : Decidable (isASCII chars) := inferInstanceAs (Decidable (∀ c ∈ chars, _))

def stringBytes : List Byte :=
  if isASCII chars then countBytes kCFBinaryPlistMarkerASCIIString chars.length ++ chars.map (·.setWidth 8)
  else countBytes kCFBinaryPlistMarkerUnicode16String chars.length ++ chars.flatMap fun c => bigEndian 2 c.toNat

def intNumberBytes (num : IntNumber) : List Byte :=
  if num.type = .sInt128 then
    (kCFBinaryPlistMarkerInt ||| 4) :: (bigEndian 8 (num.value / 2 ^ 64 % 2 ^ 64).toNat ++ bigEndian 8 (num.value % 2 ^ 64).toNat)
  else intBytes (num.value % 2 ^ 64).toNat

/-- An object without parts in the file. -/
def Leaf.bytes : Leaf → List Byte
  | null => []
  | bool value => [if value then kCFBinaryPlistMarkerTrue else kCFBinaryPlistMarkerFalse]
  | int number => intNumberBytes number
  | float32 bits => (kCFBinaryPlistMarkerReal ||| 2) :: bigEndian 4 bits.toNat
  | float64 bits => (kCFBinaryPlistMarkerReal ||| 3) :: bigEndian 8 bits.toNat
  | date absoluteTime => kCFBinaryPlistMarkerDate :: bigEndian 8 absoluteTime.toNat
  | data bytes => countBytes kCFBinaryPlistMarkerData bytes.length ++ bytes
  | string chars => stringBytes chars
  | uid value => (kCFBinaryPlistMarkerUID ||| BitVec.ofNat 8 (uidSize value.toNat - 1)) :: bigEndian (uidSize value.toNat) value.toNat

variable (objtable : ObjTable)

/-- The number of an object. -/
def refnum (obj : Obj) : Nat := ((objtable.lookup obj.ptr).getD 0) % 2 ^ 32

/-- References to objects in the file. -/
def refsBytes (objRefSize : Nat) (objs : List Obj) : List Byte :=
  objs.flatMap fun obj => (bigEndian 4 (refnum objtable obj)).drop (4 - objRefSize)

/-- An object in the file. -/
def Obj.bytes (objRefSize : Nat) : Obj → List Byte
  | leaf _ content => content.bytes
  | array _ values => countBytes kCFBinaryPlistMarkerArray values.length ++ refsBytes objtable objRefSize values
  | dict _ keys values => countBytes kCFBinaryPlistMarkerDict keys.length ++ refsBytes objtable objRefSize (keys ++ values)

theorem asciiBytes_of_isASCII {chars : List (BitVec 16)} (ascii : isASCII chars) : asciiBytes chars = chars.map (·.setWidth 8) := by
  rw [asciiBytes, takeWhile_eq_self_iff.mpr fun c isChar => decide_eq_true (ascii c isChar)]
  rfl

theorem length_asciiBytes_eq_iff : (asciiBytes chars).length = chars.length ↔ isASCII chars := by
  constructor
  · intro all c isChar
    rw [asciiBytes, length_map] at all
    rw [← (takeWhile_sublist _).eq_of_length all] at isChar
    simpa using mem_takeWhile_imp isChar
  · intro ascii
    rw [asciiBytes_of_isASCII ascii, length_map]

theorem contents_appendString (chars : List (BitVec 16)) :
    (appendString buf chars).contents = buf.contents ++ stringBytes chars := by
  simp only [appendString, length_asciiBytes_eq_iff, stringBytes]
  split
  case isTrue ascii => rw [contents_bufferWrite, contents_appendCount, asciiBytes_of_isASCII ascii, length_map, append_assoc]
  case isFalse => rw [contents_bufferWrite, contents_appendCount, append_assoc]

theorem contents_appendIntNumber (num : IntNumber) :
    (appendIntNumber buf num).contents = buf.contents ++ intNumberBytes num := by
  simp only [appendIntNumber, intNumberBytes]
  split <;> simp

theorem uidSize_le (value : Nat) : uidSize value ≤ 8 := by
  unfold uidSize
  split_ifs <;> decide

theorem contents_appendUID (uid : BitVec 32) : (appendUID buf uid).contents = buf.contents ++ (Leaf.uid uid).bytes := by
  have size : (if uid.toNat ≤ 0xff then 1 else if uid.toNat ≤ 0xffff then 2 else if uid.toNat ≤ 0xffffffff then 4 else 8) =
      uidSize uid.toNat := rfl
  simp [appendUID, size, contents_bufferWrite, Leaf.bytes, drop_bigEndian_of_le (uidSize_le _)]

theorem appendLeaf_spec {content : Leaf} (supported : content ≠ .null) :
    ∃ buf', appendLeaf buf content = some buf' ∧ buf'.contents = buf.contents ++ content.bytes := by
  cases content with
  | null => exact absurd rfl supported
  | int number => exact ⟨_, rfl, contents_appendIntNumber buf number⟩
  | string chars => exact ⟨_, rfl, contents_appendString buf chars⟩
  | uid value => exact ⟨_, rfl, contents_appendUID buf value⟩
  | bool => exact ⟨_, rfl, contents_bufferWrite buf _⟩
  | float32 | float64 | date | data => exact ⟨_, rfl, by simp [Leaf.bytes]⟩

/-- The object is one that the writer knows. -/
def Obj.Supported : Obj → Prop
  | leaf _ content => content ≠ .null
  | array _ _ | dict _ _ _ => True

variable (objtable : ObjTable) (objRefSize : Nat)

theorem contents_foldl_appendRef (objs : List Obj) :
    (objs.foldl (appendRef objtable objRefSize) buf).contents = buf.contents ++ refsBytes objtable objRefSize objs :=
  contents_foldl_bufferWrite buf _ objs

theorem appendObject_spec {obj : Obj} (supported : obj.Supported) :
    ∃ buf', appendObject objtable objRefSize buf obj = some buf' ∧ buf'.contents = buf.contents ++ obj.bytes objtable objRefSize := by
  cases obj with
  | leaf => exact appendLeaf_spec buf supported
  | array | dict => exact ⟨_, rfl, by rw [contents_foldl_appendRef, contents_appendCount, append_assoc]; rfl⟩

theorem Leaf.bytes_ne_nil {content : Leaf} (supported : content ≠ .null) : content.bytes ≠ [] := by
  cases content with
  | null => exact absurd rfl supported
  | int =>
    rw [Leaf.bytes, intNumberBytes]
    split <;> exact cons_ne_nil _ _
  | string =>
    rw [Leaf.bytes, stringBytes]
    split <;> exact cons_ne_nil _ _
  | bool | float32 | float64 | date | data | uid => exact cons_ne_nil _ _

theorem Obj.bytes_ne_nil {obj : Obj} (supported : obj.Supported) : obj.bytes objtable objRefSize ≠ [] := by
  cases obj with
  | leaf => exact Leaf.bytes_ne_nil supported
  | array | dict => exact cons_ne_nil _ _

/-- All objects one after another, with their offsets. -/
theorem appendObjects_spec {objlist : List Obj} (supported : ∀ obj ∈ objlist, obj.Supported) :
    ∃ buf', appendObjects objtable objRefSize buf objlist =
        .ok (buf', starts buf.contents.length (objlist.map (Obj.bytes objtable objRefSize))) ∧
      buf'.contents = buf.contents ++ objlist.flatMap (Obj.bytes objtable objRefSize) := by
  induction objlist generalizing buf with
  | nil => exact ⟨buf, rfl, by rw [flatMap_nil, append_nil]⟩
  | cons obj _ ih =>
    obtain ⟨buf₁, append, written⟩ := appendObject_spec buf objtable objRefSize (supported obj mem_cons_self)
    obtain ⟨buf', rest, written'⟩ := ih buf₁ fun obj inList => supported obj (mem_cons_of_mem _ inList)
    refine ⟨buf', ?_, ?_⟩
    · rw [appendObjects, append]
      simp only [rest, written_add_used, written, length_append]
      rfl
    · rw [written', written, flatMap_cons, append_assoc]

/-! ## Sizes of integers -/

/-- The first loop ends with the bytes that are needed and no more. -/
theorem neededBytes_spec {count masks size : Nat} (fits : count < 256 ^ (size + masks)) : count < 256 ^ neededBytes count masks size ∧
      ∀ enough, count < 256 ^ enough → neededBytes count masks size ≤ max size enough := by
  induction masks generalizing size with
  | zero => exact ⟨fits, fun enough _ => le_max_left _ _⟩
  | succ _ ih =>
    rw [neededBytes]
    split
    case isTrue above =>
      rw [← Nat.add_assoc, Nat.add_right_comm] at fits
      have reaches := Nat.le_of_not_lt fun below => above (Nat.div_eq_of_lt below)
      refine ⟨(ih fits).1, fun enough isEnough => ((ih fits).2 enough isEnough).trans ?_⟩
      have longer : size < enough := (Nat.pow_lt_pow_iff_right (a := 256) (by decide)).mp (Nat.lt_of_le_of_lt reaches isEnough)
      omega
    case isFalse nothing =>
      have positive : 0 < 256 ^ size := Nat.pow_pos (by decide)
      rw [not_not, Nat.div_eq_zero_iff] at nothing
      exact ⟨nothing.resolve_left positive.ne', fun enough _ => le_max_left _ _⟩

theorem roundSize_spec : ∀ size ≤ 8,
    size ≤ roundSize 9 size ∧ 1 ≤ roundSize 9 size ∧ roundSize 9 size ≤ 8 ∧ (size ≤ 4 → roundSize 9 size ≤ 4) := by
  decide

variable (count : Nat)

theorem neededBytes_byteCount : count % 2 ^ 64 < 256 ^ neededBytes (count % 2 ^ 64) 8 0 ∧ neededBytes (count % 2 ^ 64) 8 0 ≤ 8 ∧
      (count < 2 ^ 32 → neededBytes (count % 2 ^ 64) 8 0 ≤ 4) := by
  have fits : count % 2 ^ 64 < 256 ^ (0 + 8) := by omega
  obtain ⟨enough, least⟩ := neededBytes_spec fits
  refine ⟨enough, by simpa using least 8 (by omega), fun small => by simpa using least 4 (by omega)⟩

theorem byteCount_pos : 1 ≤ byteCount count := (roundSize_spec _ (neededBytes_byteCount count).2.1).2.1

theorem byteCount_le : byteCount count ≤ 8 := (roundSize_spec _ (neededBytes_byteCount count).2.1).2.2.1

theorem byteCount_le_four {count : Nat} (small : count < 2 ^ 32) : byteCount count ≤ 4 :=
  (roundSize_spec _ (neededBytes_byteCount count).2.1).2.2.2 ((neededBytes_byteCount count).2.2 small)

theorem lt_byteCount {count : Nat} (small : count < 2 ^ 64) : count < 256 ^ byteCount count := by
  obtain ⟨enough, few, -⟩ := neededBytes_byteCount count
  rw [Nat.mod_eq_of_lt small] at enough few
  have rounded := (roundSize_spec _ few).1
  rw [byteCount, Nat.mod_eq_of_lt small]
  exact Nat.lt_of_lt_of_le enough (Nat.pow_le_pow_right (by decide) rounded)

/-! ## The file -/

namespace Flat

variable (flat : Flat)

def refSize : Nat := byteCount flat.objlist.length

/-- The bytes of an object of the list. -/
abbrev bytesOf (obj : Obj) : List Byte := obj.bytes flat.objtable flat.refSize

/-- The header and the objects. -/
def objectBytes : List Byte := header ++ flat.objlist.flatMap flat.bytesOf

def offsets : List Nat := starts 8 (flat.objlist.map flat.bytesOf)

def trailer : Trailer where
  offsetIntSize := byteCount flat.objectBytes.length
  objectRefSize := flat.refSize
  numObjects := flat.objlist.length
  topObject := 0
  offsetTableOffset := flat.objectBytes.length

/-- The file that is written for the flattened objects. -/
def fileBytes : List Byte := flat.objectBytes ++ flat.offsets.flatMap (bigEndian flat.trailer.offsetIntSize) ++ flat.trailer.bytes

theorem length_trailer_bytes (trailer : Trailer) : trailer.bytes.length = 32 := by simp [Trailer.bytes]

theorem length_fileBytes : flat.fileBytes.length =
      flat.objectBytes.length + flat.objlist.length * flat.trailer.offsetIntSize + flat.trailer.bytes.length := by
  simp [fileBytes, offsets, length_flatMap, Nat.add_assoc]

end Flat

/-- What `_flattenPlist` makes of a property list. -/
def flattened (plist : Obj) : Flat := flattenPlist ⟨[], [], []⟩ plist

theorem binaryPlistWrite_eq {plist : Obj} (supported : ∀ obj ∈ (flattened plist).objlist, obj.Supported) :
    binaryPlistWrite plist = ((flattened plist).fileBytes.length, (flattened plist).fileBytes) := by
  obtain ⟨buf', append, written⟩ := appendObjects_spec (start.bufferWrite header) (flattened plist).objtable
    (flattened plist).refSize supported
  have isObjects : buf'.contents = (flattened plist).objectBytes := by
    rw [written, contents_bufferWrite, contents_start, nil_append, Flat.objectBytes]
  have isOffsets : starts (start.bufferWrite header).contents.length
      ((flattened plist).objlist.map (flattened plist).bytesOf) = (flattened plist).offsets := by
    rfl
  have narrow : ∀ offset, (bigEndian 8 offset).drop (8 - byteCount (flattened plist).objectBytes.length) =
      bigEndian (flattened plist).trailer.offsetIntSize offset := drop_bigEndian_of_le (byteCount_le _)
  rw [binaryPlistWrite]
  simp only [flattened, Flat.refSize] at append isObjects narrow ⊢
  rw [append]
  simp only [written_add_used, isObjects, stream_bufferFlush, contents_bufferWrite, contents_foldl_bufferWrite, narrow]
  exact Prod.ext (Flat.length_fileBytes _).symm rfl

end DarwinNotes.CF.BinaryPlist
