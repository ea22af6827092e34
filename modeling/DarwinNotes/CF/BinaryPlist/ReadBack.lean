import DarwinNotes.CF.BinaryPlist.Encoding
import DarwinNotes.CF.BinaryPlist.Reader

/-!
# Reading what was written

The reader on a file that has the bytes of an integer, a count or an object without
parts at an offset.
-/

namespace DarwinNotes.CF.BinaryPlist
open Lib List

/-! ## Bytes and integers -/

theorem check_of {condition : Prop} [Decidable condition] (holds : condition) : check condition = .ok () := if_pos holds

section Pieces

variable {file : File} {ptr : Nat} {piece : List Byte}

theorem byte_placed {byte : Byte} (placed : Placed file.bytes ptr (byte :: piece)) : file.byte ptr = .ok byte := by
  have isByte := placed.getElem? (Nat.zero_lt_succ piece.length)
  rw [Nat.add_zero, getElem?_cons_zero] at isByte
  rw [File.byte, isByte]

theorem copy_placed (placed : Placed file.bytes ptr piece) : file.copy ptr piece.length = .ok piece := by
  have inside : piece.length = 0 ∨ ptr + piece.length ≤ file.bytes.length := by
    cases piece with
    | nil => exact .inl rfl
    | cons => exact .inr (placed.length_le (cons_ne_nil _ _))
  obtain ⟨_, split⟩ := placed
  rw [File.copy, if_pos inside, split, take_left]

theorem ptrAdd_inside {a : Nat} (inside : ptr + a ≤ file.bytes.length) : file.ptrAdd ptr a = .ok (ptr + a) := by
  have inMemory := file.inMemory
  rw [File.ptrAdd, if_neg (by omega)]

theorem sizeMul_small {b a : Nat} (small : b * a < 2 ^ 64) : sizeMul b a = .ok (b * a) := by
  rw [sizeMul]
  split
  case isTrue zero => rw [zero, Nat.zero_mul]
  case isFalse nonzero =>
    rw [if_neg (Nat.not_lt.mpr ((Nat.le_div_iff_mul_le (Nat.pos_of_ne_zero nonzero)).mpr ?_))]
    rw [Nat.mul_comm]
    omega

theorem shiftBytes_placed (res : Nat) (placed : Placed file.bytes ptr piece) :
    shiftBytes file piece.length ptr (res % 2 ^ 64) = .ok (piece.foldl shiftIn res % 2 ^ 64) := by
  induction piece generalizing ptr res with
  | nil => rfl
  | cons byte _ ih =>
    have shifted : shiftIn (res % 2 ^ 64) byte % 2 ^ 64 = shiftIn res byte % 2 ^ 64 := by
      simp only [shiftIn]
      omega
    rw [length_cons, shiftBytes, byte_placed placed, ok_bind, shifted, foldl_cons, ih (shiftIn res byte) placed.tail]

theorem getSizedInt_placed (placed : Placed file.bytes ptr piece) (short : piece.length < 256) :
    getSizedInt file ptr piece.length = .ok (piece.foldl shiftIn 0 % 2 ^ 64) := by
  rw [getSizedInt, Nat.mod_eq_of_lt (by exact short : piece.length < 2 ^ 8)]
  exact shiftBytes_placed 0 placed

theorem getSizedInt_bigEndian {width value : Nat} (placed : Placed file.bytes ptr (bigEndian width value))
    (narrow : width ≤ 8) (fits : value < 256 ^ width) : getSizedInt file ptr width = .ok value := by
  have wide : 256 ^ width ≤ 256 ^ 8 := Nat.pow_le_pow_right (by decide) narrow
  have read := getSizedInt_placed placed (by rw [length_bigEndian]; omega)
  rw [length_bigEndian, foldl_shiftIn_bigEndian, Nat.zero_mul, Nat.zero_add, Nat.mod_eq_of_lt fits] at read
  rw [read, Nat.mod_eq_of_lt (by omega)]

/-- Of two words only the last one is kept. -/
theorem getSizedInt_words {high low : Nat} (placed : Placed file.bytes ptr (bigEndian 8 high ++ bigEndian 8 low))
    (fits : low < 2 ^ 64) : getSizedInt file ptr (2 ^ 4) = .ok low := by
  have read := getSizedInt_placed placed (by simp)
  simp only [length_append, length_bigEndian, foldl_append, foldl_shiftIn_bigEndian] at read
  rw [show 2 ^ 4 = 8 + 8 from rfl, read]
  congr 1
  omega

end Pieces

/-! ## Markers and counts -/

/-- Both halves of a marker can be read. -/
theorem marker_halves : ∀ k < 16, ∀ n < 16, (BitVec.ofNat 8 (16 * k) ||| BitVec.ofNat 8 n) &&& 0xf0 = BitVec.ofNat 8 (16 * k) ∧
      ((BitVec.ofNat 8 (16 * k) ||| BitVec.ofNat 8 n) &&& 0x0f).toNat = n := by
  decide

/-- The lower half of a byte like this is free for a count. -/
def IsKind (kind : Byte) : Prop := ∃ k < 16, kind = BitVec.ofNat 8 (16 * k)

section Counts

variable {file : File} {ptr objectsRangeEnd : Nat} {kind : Byte}

theorem IsKind.kind_marker (isKind : IsKind kind) {n : Nat} (small : n < 16) : (kind ||| BitVec.ofNat 8 n) &&& 0xf0 = kind := by
  obtain ⟨k, half, rfl⟩ := isKind
  exact (marker_halves k half n small).1

theorem IsKind.count_marker (isKind : IsKind kind) {n : Nat} (small : n < 16) : ((kind ||| BitVec.ofNat 8 n) &&& 0x0f).toNat = n := by
  obtain ⟨k, half, rfl⟩ := isKind
  exact (marker_halves k half n small).2

theorem isKind_int : IsKind kCFBinaryPlistMarkerInt := ⟨0x1, by decide, rfl⟩
theorem isKind_data : IsKind kCFBinaryPlistMarkerData := ⟨0x4, by decide, rfl⟩
theorem isKind_ascii : IsKind kCFBinaryPlistMarkerASCIIString := ⟨0x5, by decide, rfl⟩
theorem isKind_unicode : IsKind kCFBinaryPlistMarkerUnicode16String := ⟨0x6, by decide, rfl⟩
theorem isKind_uid : IsKind kCFBinaryPlistMarkerUID := ⟨0x8, by decide, rfl⟩
theorem isKind_array : IsKind kCFBinaryPlistMarkerArray := ⟨0xa, by decide, rfl⟩
theorem isKind_dict : IsKind kCFBinaryPlistMarkerDict := ⟨0xd, by decide, rfl⟩

theorem countMarker_kind (isKind : IsKind kind) (count : Nat) : countMarker kind count &&& 0xf0 = kind :=
  isKind.kind_marker (by split <;> omega)

theorem length_intBytes (bigint : Nat) : (intBytes bigint).length = 1 + (intSize bigint).1 := by
  rw [intBytes, length_cons, length_bigEndian, Nat.add_comm]

theorem readInt_placed {bigint : Nat} (small : bigint < 2 ^ 64) (placed : Placed file.bytes ptr (intBytes bigint))
    (inside : ptr + (intBytes bigint).length ≤ objectsRangeEnd + 1) :
    readInt file ptr objectsRangeEnd = .ok (bigint, ptr + (intBytes bigint).length) := by
  have inFile := placed.length_le (cons_ne_nil _ _)
  obtain ⟨n, few, size, fits, -⟩ := intSize_spec bigint
  rw [length_intBytes, size] at inside inFile ⊢
  rw [intBytes, size] at placed
  have width : 2 ^ n ≤ 8 := Nat.pow_le_pow_right (n := 2) (by decide) few
  have positive : 0 < 2 ^ n := Nat.two_pow_pos n
  have behind : file.ptrAdd (ptr + 1) (2 ^ n) = .ok (ptr + 1 + 2 ^ n) := ptrAdd_inside (by omega)
  simp only [readInt, check_of (by omega : ptr ≤ objectsRangeEnd), byte_placed placed, ok_bind,
    isKind_int.kind_marker (by omega : n < 16), isKind_int.count_marker (by omega : n < 16), check_of, behind,
    check_of (by omega : ptr + 1 + 2 ^ n - 1 ≤ objectsRangeEnd), getSizedInt_bigEndian placed.tail width (fits small)]
  rw [Nat.add_assoc]
  rfl

theorem length_countBytes (kind : Byte) (count : Nat) :
    (countBytes kind count).length = 1 + if 15 ≤ count then (intBytes count).length else 0 := by
  rw [countBytes, length_cons, Nat.add_comm]
  split <;> rfl

/-- The count behind a marker; `ptr` is the place of the marker. -/
theorem readCount_placed {count : Nat} (isKind : IsKind kind) (small : count < 2 ^ 63)
    (placed : Placed file.bytes ptr (countBytes kind count))
    (inside : ptr + (countBytes kind count).length ≤ objectsRangeEnd + 1) :
    readCount file (countMarker kind count) (ptr + 1) objectsRangeEnd = .ok (count, ptr + (countBytes kind count).length) := by
  rw [length_countBytes] at inside ⊢
  have low : (countMarker kind count &&& 0x0f).toNat = if count < 15 then count else 0xf := isKind.count_marker (by split <;> omega)
  rw [readCount]
  simp only [low]
  rcases Nat.lt_or_ge count 15 with few | many
  · rw [if_pos few, if_neg (Nat.ne_of_lt few), if_neg (Nat.not_le.mpr few)]
  · rw [countBytes, if_pos many] at placed
    rw [if_pos many] at inside ⊢
    rw [if_neg (Nat.not_lt.mpr many), if_pos rfl, readInt_placed (by omega) placed.tail (by omega)]
    simp only [ok_bind]
    rw [check_of (by omega), ok_bind, Nat.add_assoc]
    rfl

theorem block_inside {count : Nat} (inFile : ptr + 1 + count ≤ file.bytes.length)
    (inside : ptr + 1 + count ≤ objectsRangeEnd + 1) : block file ptr count objectsRangeEnd = .ok (ptr + 1) := by
  rw [block, ptrAdd_inside (by omega), ok_bind, ptrAdd_inside (by omega), ok_bind, check_of (by omega), ok_bind]
  rfl

theorem readCounted_placed {bytes : List Byte} (isKind : IsKind kind)
    (placed : Placed file.bytes ptr (countBytes kind bytes.length ++ bytes))
    (inside : ptr + (countBytes kind bytes.length ++ bytes).length ≤ objectsRangeEnd + 1) :
    readCounted file objectsRangeEnd ptr (countMarker kind bytes.length) = .ok bytes := by
  have inFile := placed.length_le (append_ne_nil_of_left_ne_nil (cons_ne_nil _ _) _)
  have isIndex := file.isIndex
  rw [length_append] at inFile inside
  have marker := length_countBytes kind bytes.length
  rw [readCounted, ptrAdd_inside (by omega), ok_bind, readCount_placed isKind (by omega) placed.left (by omega)]
  simp only [ok_bind]
  rw [ptrAdd_inside (by omega), ok_bind, check_of (by omega), ok_bind, copy_placed placed.right]

end Counts

/-! ## Objects without parts -/

/-- What the reader makes of an object without parts: a 128-bit integer loses its high word. -/
def Leaf.decoded : Leaf → Value
  | int number => .int (if number.type = .sInt128 then number.value % 2 ^ 64 else number.value)
  | content => content.value

section Leaves

variable {file : File} {ptr objectsRangeEnd : Nat}

theorem toSigned_toNat {value : Int} (lower : -2 ^ 63 ≤ value) (upper : value < 2 ^ 63) : toSigned (value % 2 ^ 64).toNat = value := by
  rw [toSigned, BitVec.toInt_ofNat', Int.toNat_of_nonneg (Int.emod_nonneg _ (by decide))]
  rw [show ((2 : Int) ^ 64) = ((2 ^ 64 : Nat) : Int) from rfl, Int.emod_bmod]
  exact Int.bmod_eq_of_le (by omega) (by omega)

theorem IntNumber.inWord {num : IntNumber} (short : num.type ≠ .sInt128) : -2 ^ 63 ≤ num.value ∧ num.value < 2 ^ 63 := by
  obtain ⟨type, value, lower, upper⟩ := num
  cases type with
  | sInt128 => exact absurd rfl short
  | sInt8 | sInt16 | sInt32 | sInt64 =>
    simp only [IntType.bits] at lower upper ⊢
    omega

theorem readIntObject_placed {num : IntNumber} (placed : Placed file.bytes ptr (intNumberBytes num))
    (inside : ptr + (intNumberBytes num).length ≤ objectsRangeEnd + 1) :
    ∃ n < 16, ∃ digits, intNumberBytes num = (kCFBinaryPlistMarkerInt ||| BitVec.ofNat 8 n) :: digits ∧
      readIntObject file objectsRangeEnd ptr (kCFBinaryPlistMarkerInt ||| BitVec.ofNat 8 n) = .ok (Leaf.int num).decoded := by
  by_cases long : num.type = .sInt128
  · rw [intNumberBytes, if_pos long] at placed inside ⊢
    refine ⟨4, by decide, _, rfl, ?_⟩
    have inFile := placed.length_le (cons_ne_nil _ _)
    simp only [length_cons, length_append, length_bigEndian] at inside inFile
    have digits := getSizedInt_words placed.tail (by omega : (num.value % 2 ^ 64).toNat < 2 ^ 64)
    have nonneg : 0 ≤ num.value % 2 ^ 64 := Int.emod_nonneg _ (by decide)
    have opened : block file ptr (2 ^ 4) objectsRangeEnd = .ok (ptr + 1) := block_inside (by omega) (by omega)
    rw [readIntObject, isKind_int.count_marker (by decide)]
    simp only [opened, ok_bind,
      check_of (by decide : 2 ^ 4 ≤ 16), digits, if_pos (by decide : 8 < 2 ^ 4), Int.toNat_of_nonneg nonneg, Leaf.decoded, if_pos long]
    rfl
  · rw [intNumberBytes, if_neg long] at placed inside ⊢
    obtain ⟨n, few, size, fits, -⟩ := intSize_spec (num.value % 2 ^ 64).toNat
    have inFile := placed.length_le (cons_ne_nil _ _)
    rw [length_intBytes, size] at inside inFile
    rw [intBytes, size] at placed ⊢
    refine ⟨n, by omega, _, rfl, ?_⟩
    have width : 2 ^ n ≤ 8 := Nat.pow_le_pow_right (n := 2) (by decide) few
    obtain ⟨lower, upper⟩ := IntNumber.inWord long
    have opened : block file ptr (2 ^ n) objectsRangeEnd = .ok (ptr + 1) := block_inside (by omega) (by omega)
    rw [readIntObject, isKind_int.count_marker (by omega : n < 16)]
    simp only [opened, ok_bind, check_of (by omega : 2 ^ n ≤ 16), getSizedInt_bigEndian placed.tail width (fits (by omega)),
      if_neg (by omega : ¬ 8 < 2 ^ n), toSigned_toNat lower upper, Leaf.decoded, if_neg long]
    rfl

theorem readUID_placed {value : BitVec 32} (placed : Placed file.bytes ptr (Leaf.uid value).bytes)
    (inside : ptr + (Leaf.uid value).bytes.length ≤ objectsRangeEnd + 1) :
    readUID file objectsRangeEnd ptr (kCFBinaryPlistMarkerUID ||| BitVec.ofNat 8 (uidSize value.toNat - 1)) = .ok (.uid value) := by
  have size : 1 ≤ uidSize value.toNat ∧ uidSize value.toNat ≤ 8 ∧ value.toNat < 256 ^ uidSize value.toNat := by
    unfold uidSize
    split_ifs <;> omega
  obtain ⟨positive, narrow, fits⟩ := size
  have inFile := placed.length_le (cons_ne_nil _ _)
  simp only [Leaf.bytes, length_cons, length_bigEndian] at inside inFile
  have opened : block file ptr (uidSize value.toNat) objectsRangeEnd = .ok (ptr + 1) := block_inside (by omega) (by omega)
  rw [readUID, isKind_uid.count_marker (by omega), Nat.sub_add_cancel positive]
  simp only [opened, ok_bind, getSizedInt_bigEndian placed.tail narrow fits, check_of (by omega : value.toNat ≤ 2 ^ 32 - 1),
    BitVec.ofNat_toNat, BitVec.setWidth_eq]
  rfl

/-- A word behind the marker. -/
theorem word_placed {marker : Byte} {size width : Nat} {word : BitVec width} (fits : word.toNat < 256 ^ size)
    (placed : Placed file.bytes ptr (marker :: bigEndian size word.toNat))
    (inside : ptr + (marker :: bigEndian size word.toNat).length ≤ objectsRangeEnd + 1) (value : BitVec width → Value) :
    (do let ptr ← block file ptr size objectsRangeEnd
        let swapped ← file.copy ptr size
        return value (BitVec.ofNat width (swapped.foldl shiftIn 0)) : Read Value) = .ok (value word) := by
  have inFile := placed.length_le (cons_ne_nil _ _)
  simp only [length_cons, length_bigEndian] at inside inFile
  have copied := copy_placed placed.tail
  rw [length_bigEndian] at copied
  rw [block_inside (by omega) (by omega), ok_bind, copied, ok_bind, foldl_shiftIn_bigEndian, Nat.zero_mul, Nat.zero_add,
    Nat.mod_eq_of_lt fits, BitVec.ofNat_toNat, BitVec.setWidth_eq]
  rfl

theorem swapChars_flatMap (chars : List (BitVec 16)) : swapChars (chars.flatMap fun c => bigEndian 2 c.toNat) = chars := by
  induction chars with
  | nil => rfl
  | cons c _ ih =>
    have isChar : BitVec.ofNat 16 (shiftIn (BitVec.ofNat 8 (c.toNat / 256)).toNat (BitVec.ofNat 8 c.toNat)) = c := by
      refine BitVec.eq_of_toNat_eq ?_
      simp only [shiftIn, BitVec.toNat_ofNat]
      omega
    have pair : bigEndian 2 c.toNat = [BitVec.ofNat 8 (c.toNat / 256), BitVec.ofNat 8 c.toNat] := by simp [bigEndian]
    rw [flatMap_cons, pair, cons_append, cons_append, nil_append, swapChars, isChar, ih]

variable {chars : List (BitVec 16)}

theorem readUnicode_placed
    (placed : Placed file.bytes ptr (countBytes kCFBinaryPlistMarkerUnicode16String chars.length ++ chars.flatMap fun c => bigEndian 2 c.toNat))
    (inside : ptr + (countBytes kCFBinaryPlistMarkerUnicode16String chars.length).length + chars.length * 2 ≤ objectsRangeEnd + 1) :
    readUnicode file objectsRangeEnd ptr (countMarker kCFBinaryPlistMarkerUnicode16String chars.length) = .ok (.string chars) := by
  have size : (chars.flatMap fun c => bigEndian 2 c.toNat).length = chars.length * 2 := by simp [length_flatMap]
  have inFile := placed.length_le (append_ne_nil_of_left_ne_nil (cons_ne_nil _ _) _)
  have isIndex := file.isIndex
  have copied := copy_placed placed.right
  rw [length_append] at inFile
  rw [size] at inFile copied
  have marker := length_countBytes kCFBinaryPlistMarkerUnicode16String chars.length
  rw [readUnicode, ptrAdd_inside (by omega), ok_bind, readCount_placed isKind_unicode (by omega) placed.left (by omega)]
  simp only [ok_bind]
  rw [ptrAdd_inside (by omega), ok_bind, ptrAdd_inside (by omega), ok_bind, check_of (by omega), ok_bind,
    sizeMul_small (by omega), ok_bind, copied, ok_bind, swapChars_flatMap]
  rfl

theorem setWidth_setWidth_of_isASCII (ascii : isASCII chars) : (chars.map (·.setWidth 8)).map (·.setWidth 16) = chars := by
  rw [map_map]
  refine (map_congr_left fun c isChar => ?_).trans (map_id chars)
  have small := ascii c isChar
  refine BitVec.eq_of_toNat_eq ?_
  simp only [Function.comp_apply, BitVec.toNat_setWidth, id_eq]
  omega

theorem readLeaf_string (placed : Placed file.bytes ptr (stringBytes chars))
    (inside : ptr + (stringBytes chars).length ≤ objectsRangeEnd + 1) :
    ∃ kind rest, (kind = kCFBinaryPlistMarkerASCIIString ∨ kind = kCFBinaryPlistMarkerUnicode16String) ∧
      countMarker kind chars.length &&& 0xf0 = kind ∧ stringBytes chars = countMarker kind chars.length :: rest ∧
      readLeaf file objectsRangeEnd ptr (countMarker kind chars.length) = .ok (.string chars) := by
  rw [stringBytes] at placed inside ⊢
  split at placed
  case isTrue ascii =>
    rw [if_pos ascii] at inside ⊢
    refine ⟨_, _, .inl rfl, countMarker_kind isKind_ascii _, rfl, ?_⟩
    have size : (chars.map (·.setWidth 8)).length = chars.length := length_map _
    rw [← size] at placed inside ⊢
    simp only [readLeaf, countMarker_kind isKind_ascii, readCounted_placed isKind_ascii placed inside, ok_bind,
      setWidth_setWidth_of_isASCII ascii]
    rfl
  case isFalse wide =>
    rw [if_neg wide] at inside ⊢
    refine ⟨_, _, .inr rfl, countMarker_kind isKind_unicode _, rfl, ?_⟩
    have size : (chars.flatMap fun c => bigEndian 2 c.toNat).length = chars.length * 2 := by simp [length_flatMap]
    rw [length_append, size, ← Nat.add_assoc] at inside
    simp only [readLeaf, countMarker_kind isKind_unicode]
    exact readUnicode_placed placed inside

/-- The object without parts at an offset is read back; its marker is not one of an object with parts. -/
theorem readLeaf_placed {content : Leaf} (supported : content ≠ .null) (placed : Placed file.bytes ptr content.bytes)
    (inside : ptr + content.bytes.length ≤ objectsRangeEnd + 1) :
    ∃ marker rest, content.bytes = marker :: rest ∧ marker &&& 0xf0 ≠ kCFBinaryPlistMarkerArray ∧
      marker &&& 0xf0 ≠ kCFBinaryPlistMarkerSet ∧ marker &&& 0xf0 ≠ kCFBinaryPlistMarkerDict ∧
      readLeaf file objectsRangeEnd ptr marker = .ok content.decoded := by
  cases content with
  | null => exact absurd rfl supported
  | bool value => cases value <;> exact ⟨_, _, rfl, by decide, by decide, by decide, rfl⟩
  | int =>
    obtain ⟨n, half, digits, bytes, read⟩ := readIntObject_placed placed inside
    refine ⟨_, digits, bytes, ?_⟩
    rw [isKind_int.kind_marker half]
    refine ⟨by decide, by decide, by decide, ?_⟩
    simp only [readLeaf, isKind_int.kind_marker half]
    exact read
  | float32 bits =>
    refine ⟨_, _, rfl, by decide, by decide, by decide, ?_⟩
    change readReal file objectsRangeEnd ptr (kCFBinaryPlistMarkerReal ||| 2) = _
    rw [readReal, if_pos (by decide)]
    exact word_placed bits.isLt placed inside .float32
  | float64 bits =>
    refine ⟨_, _, rfl, by decide, by decide, by decide, ?_⟩
    change readReal file objectsRangeEnd ptr (kCFBinaryPlistMarkerReal ||| 3) = _
    rw [readReal, if_neg (by decide), if_pos (by decide)]
    exact word_placed bits.isLt placed inside .float64
  | date absoluteTime =>
    refine ⟨_, _, rfl, by decide, by decide, by decide, ?_⟩
    change readDate file objectsRangeEnd ptr kCFBinaryPlistMarkerDate = _
    rw [readDate, if_pos rfl]
    exact word_placed absoluteTime.isLt placed inside .date
  | data =>
    have read := readCounted_placed isKind_data placed inside
    refine ⟨_, _, rfl, ?_⟩
    rw [countMarker_kind isKind_data]
    refine ⟨by decide, by decide, by decide, ?_⟩
    simp only [readLeaf, countMarker_kind isKind_data, read]
    rfl
  | string =>
    obtain ⟨_, rest, isString, half, bytes, read⟩ := readLeaf_string placed inside
    refine ⟨_, rest, bytes, ?_⟩
    rw [half]
    rcases isString with rfl | rfl <;> exact ⟨by decide, by decide, by decide, read⟩
  | uid value =>
    have read := readUID_placed placed inside
    have narrow := uidSize_le value.toNat
    have half : uidSize value.toNat - 1 < 16 := by omega
    refine ⟨_, _, rfl, ?_⟩
    rw [isKind_uid.kind_marker half]
    refine ⟨by decide, by decide, by decide, ?_⟩
    simp only [readLeaf, isKind_uid.kind_marker half]
    exact read

end Leaves

end DarwinNotes.CF.BinaryPlist
