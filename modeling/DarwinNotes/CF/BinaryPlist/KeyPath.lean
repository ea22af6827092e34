import DarwinNotes.CF.BinaryPlist.Components
import DarwinNotes.CF.BinaryPlist.RoundTrip

/-!
# Key paths and whole property lists

Looking up along a key path finds the value that reading the whole property list and
walking down gives, with two exceptions. The search of a dictionary gives up at an ASCII
key of the length it looks for if that key is the last object of the file, since it takes the end of the
key for one byte too many. And where the characters of the key have no MacRoman form, it compares
with what was left in the buffer.
-/

namespace DarwinNotes.CF.BinaryPlist
open Lib List

theorem check_of_not {condition : Prop} [Decidable condition] (fails : ¬ condition) : check condition = .error .fail := if_neg fails

section Lookup

variable {file : File} {trailer : Trailer} {objtable : ObjTable} {offsetOf : Obj → Nat} {plist : Obj}

/-! ## Arrays -/

theorem checkExtent_of_checkRefs {ptr count : Nat} (checked : checkRefs file trailer ptr count = .ok ()) :
    checkExtent file trailer ptr count = .ok () := by
  obtain ⟨_, size, checked⟩ := bind_eq_ok.mp checked
  obtain ⟨_, add, checked⟩ := bind_eq_ok.mp checked
  obtain ⟨_, inside, -⟩ := bind_eq_ok.mp checked
  rw [checkExtent, size, ok_bind, add, ok_bind, inside]

/-- The reference to a part leads to the part. -/
theorem getOffsetOfRefAt_part (image : Image file trailer objtable offsetOf plist) {parts : List Obj} {ptr : Nat}
    (areSubs : ∀ part ∈ parts, part ∈ plist.subs) (behindHeader : 8 ≤ ptr)
    (beforeTable : ptr + parts.length * trailer.objectRefSize ≤ trailer.offsetTableOffset)
    (placed : Placed file.bytes ptr (refsBytes objtable trailer.objectRefSize parts)) {i : Nat} {part : Obj}
    (isPart : parts[i]? = some part) : getOffsetOfRefAt file trailer (ptr + i * trailer.objectRefSize) = .ok (offsetOf part) := by
  have bound := (List.getElem?_eq_some_iff.mp isPart).1
  have room : (i + 1) * trailer.objectRefSize ≤ parts.length * trailer.objectRefSize := Nat.mul_le_mul_right _ bound
  rw [Nat.succ_mul] at room
  apply image.refs part (areSubs part (mem_of_getElem? isPart))
  · omega
  · omega
  · exact placed.flatMap (length_refBytes image.refSize_le) isPart

theorem getOffsetForValueFromArray2_array (image : Image file trailer objtable offsetOf plist)
    (wellFormed : WellFormed plist) {ptr : Nat} {values : List Obj} (isSub : .array ptr values ∈ plist.subs) (idx : Nat) :
    getOffsetForValueFromArray2 file (offsetOf (.array ptr values)) trailer idx =
      match values[idx]? with
      | some value => .ok (offsetOf value)
      | none => .error .fail := by
  have inRange := image.inRange wellFormed isSub
  have areSubs : ∀ part ∈ values, part ∈ plist.subs := fun part => Obj.mem_subs_of_mem_parts isSub
  obtain ⟨_, isMarker, next, isCount, checked, later, beforeTable, placed⟩ :=
    readHeader image isSub (wellFormed.inMemory _ isSub) isKind_array (le_refl values.length) rfl
  rw [Obj.parts] at checked beforeTable placed
  simp only [getOffsetForValueFromArray2, check_of inRange, isMarker, ok_bind, countMarker_kind isKind_array, check_of, next, isCount]
  cases isValue : values[idx]? with
  | none => rw [check_of_not (Nat.not_lt.mpr (List.getElem?_eq_none_iff.mp isValue)), error_bind]
  | some =>
    rw [check_of (List.getElem?_eq_some_iff.mp isValue).1, ok_bind, checkExtent_of_checkRefs checked, ok_bind]
    exact getOffsetOfRefAt_part image areSubs later beforeTable placed isValue

/-! ## Keys -/

/-- The bytes of an ASCII string in the file. -/
abbrev asciiString (chars : List (BitVec 16)) : List Byte :=
  countBytes kCFBinaryPlistMarkerASCIIString chars.length ++ chars.map (·.setWidth 8)

section Compare

variable {off stringKeyLen : Nat} {chars : List (BitVec 16)} {keyBufferPtr : List Byte}

theorem length_asciiString (chars : List (BitVec 16)) : (asciiString chars).length =
      (countBytes kCFBinaryPlistMarkerASCIIString chars.length).length + chars.length := by
  rw [length_append, length_map]

variable (inside : off + (asciiString chars).length ≤ trailer.offsetTableOffset)
include inside

/-- The length that is compared with that of the key. -/
theorem keyLength (stringKeyLen : Nat) (placed : Placed file.bytes off (asciiString chars)) : ∃ len ptr2, (if 0xf ≤ stringKeyLen then
          readCount file (countMarker kCFBinaryPlistMarkerASCIIString chars.length) (off + 1) (trailer.offsetTableOffset - 1)
        else .ok ((countMarker kCFBinaryPlistMarkerASCIIString chars.length &&& 0x0f).toNat, off + 1)) = .ok (len, ptr2) ∧
      (len = stringKeyLen ↔ chars.length = stringKeyLen) ∧
      (chars.length = stringKeyLen → ptr2 = off + (countBytes kCFBinaryPlistMarkerASCIIString chars.length).length) := by
  have inFile := placed.length_le (cons_ne_nil _ _)
  have isIndex := file.isIndex
  have marker := length_countBytes kCFBinaryPlistMarkerASCIIString chars.length
  have size := length_asciiString chars
  by_cases long : 0xf ≤ stringKeyLen
  · rw [if_pos long]
    exact ⟨_, _, readCount_placed isKind_ascii (by omega) placed.left (by omega), Iff.rfl, fun _ => rfl⟩
  · have low : (countMarker kCFBinaryPlistMarkerASCIIString chars.length &&& 0x0f).toNat =
        if chars.length < 15 then chars.length else 0xf := isKind_ascii.count_marker (by split <;> omega)
    rw [if_neg long, low]
    refine ⟨_, _, rfl, ?_, fun same => ?_⟩
    · split <;> omega
    · rw [marker, if_neg (by omega)]

/-- An ASCII string of the same length is compared, unless it ends where the offset table begins. One of
another length does not match. -/
theorem compareASCII_spec (placed : Placed file.bytes off (asciiString chars)) :
    compareASCII file trailer stringKeyLen keyBufferPtr off (countMarker kCFBinaryPlistMarkerASCIIString chars.length) =
      if chars.length ≠ stringKeyLen then .ok false
      else if off + (asciiString chars).length = trailer.offsetTableOffset then .error .fail
      else .ok (decide (chars.map (·.setWidth 8) = keyBufferPtr.take stringKeyLen)) := by
  have inFile := placed.length_le (cons_ne_nil _ _)
  have marker := length_countBytes kCFBinaryPlistMarkerASCIIString chars.length
  have size := length_asciiString chars
  obtain ⟨_, ptr2, read, isLen, isPtr⟩ := keyLength inside stringKeyLen placed
  rw [compareASCII, ptrAdd_inside (by omega), ok_bind, read]
  split
  case isTrue other =>
    simp only [ok_bind]
    rw [if_neg (isLen.not.mpr other)]
    rfl
  case isFalse same =>
    rw [not_not] at same
    have copied := copy_placed placed.right
    rw [length_map, ← isPtr same, same] at copied
    have behind : file.ptrAdd ptr2 stringKeyLen = .ok (ptr2 + stringKeyLen) := by
      apply ptrAdd_inside
      omega
    have isEnd : off + (asciiString chars).length = ptr2 + stringKeyLen := by omega
    simp only [ok_bind, isLen.mpr same, if_true, behind, copied, isEnd]
    by_cases last : ptr2 + stringKeyLen = trailer.offsetTableOffset
    · rw [if_pos last, check_of_not (by omega), error_bind]
    · rw [if_neg last, check_of (by omega), ok_bind]
      rfl

end Compare

/-- The last object of the file. -/
def IsLast (trailer : Trailer) (objtable : ObjTable) (offsetOf : Obj → Nat) (obj : Obj) : Prop :=
  offsetOf obj + (obj.bytes objtable trailer.objectRefSize).length = trailer.offsetTableOffset

section Match

variable {name : List (BitVec 16)} {form : KeyForm name}

/-- The search gives up at this key of a dictionary: it is an ASCII string of the length that is
searched for, and the last object of the file. -/
def KeyForm.Blocked (form : KeyForm name) (isLast : Obj → Prop) (key : Obj) : Prop :=
  form.keyBufferPtr.isSome ∧ isLast key ∧ ∃ chars, key.chars = some chars ∧ isASCII chars ∧ chars.length = name.length

/-- The search takes this key of a dictionary for another one: the name that is searched for has no
MacRoman form, and the buffer happens to hold the bytes of the key. -/
def KeyForm.Mistaken (form : KeyForm name) (key : Obj) : Prop :=
  ¬ isASCII name ∧ ∃ chars, key.chars = some chars ∧ isASCII chars ∧ chars.length = name.length ∧
    form.keyBufferPtr.map (·.take name.length) = some (chars.map (·.setWidth 8))

/-- The search gives up before it comes to the key. -/
def KeyForm.GivesUp {name : List (BitVec 16)} (form : KeyForm name) (isLast : Obj → Prop) (keys : List Obj) : Prop :=
  ∃ key after, key :: after <:+ keys ∧ form.Blocked isLast key ∧ ∃ key' ∈ key :: after, key'.chars = some name

theorem KeyForm.givesUp_cons {isLast : Obj → Prop} {key : Obj} {keys : List Obj} : form.GivesUp isLast (key :: keys) ↔
      (form.Blocked isLast key ∧ ∃ key' ∈ key :: keys, key'.chars = some name) ∨ form.GivesUp isLast keys := by
  constructor
  · rintro ⟨key', after, isSuffix, blocked, isKey⟩
    rcases suffix_cons_iff.mp isSuffix with whole | inner
    · cases whole
      exact .inl ⟨blocked, isKey⟩
    · exact .inr ⟨key', after, inner, blocked, isKey⟩
  · rintro (⟨blocked, isKey⟩ | ⟨key', after, isSuffix, blocked, isKey⟩)
    · exact ⟨key, keys, suffix_rfl, blocked, isKey⟩
    · exact ⟨key', after, isSuffix.trans (suffix_cons _ _), blocked, isKey⟩

/-- A lookup comes to the part that is named. Where it fails, none is named or it was missed. -/
def Reaches (offsetOf : Obj → Nat) (named : Option Obj) (missed : Prop) (result : Read Nat) : Prop :=
  (∃ part, named = some part ∧ ¬ missed ∧ result = .ok (offsetOf part)) ∨ (named.isSome → missed) ∧ result = .error .fail

variable {chars : List (BitVec 16)}

theorem setWidth_injective {chars' : List (BitVec 16)} (ascii : isASCII chars) (ascii' : isASCII chars')
    (same : chars.map (·.setWidth 8) = chars'.map (·.setWidth 8)) : chars = chars' := by
  rw [← setWidth_setWidth_of_isASCII ascii, same, setWidth_setWidth_of_isASCII ascii']

theorem KeyForm.take_keyBufferPtr (form : KeyForm name) (ascii : isASCII name) {bytes : List Byte}
    (isBuffer : form.keyBufferPtr = some bytes) : bytes.take name.length = name.map (·.setWidth 8) := by
  rw [keyBufferPtr] at isBuffer
  split at isBuffer
  case h_1 _ pointer =>
    cases isBuffer
    exact (form.pointed _ pointer).1 ascii
  case h_2 =>
  split at isBuffer
  case isTrue short =>
    cases isBuffer
    rcases form.buffered short with encodes | ⟨notASCII, -⟩
    · exact encodes.1 ascii
    · exact absurd ascii notASCII
  case isFalse => cases isBuffer

/-- What the comparison of the bytes finds. -/
theorem bytes_eq_iff {key : Obj} (isString : key.chars = some chars) (ascii : isASCII chars) (same : chars.length = name.length)
    (unmistaken : ¬ form.Mistaken key) {bytes : List Byte} (isBuffer : form.keyBufferPtr = some bytes) :
    chars.map (·.setWidth 8) = bytes.take name.length ↔ key.chars = some name := by
  rw [isString, Option.some.injEq]
  constructor
  · intro equal
    by_cases asciiName : isASCII name
    · rw [form.take_keyBufferPtr asciiName isBuffer] at equal
      exact setWidth_injective ascii asciiName equal
    · exact absurd ⟨asciiName, chars, isString, ascii, same, by rw [isBuffer, Option.map_some, equal]⟩ unmistaken
  · rintro rfl
    exact (form.take_keyBufferPtr ascii isBuffer).symm

variable (image : Image file trailer objtable offsetOf plist) (wellFormed : WellFormed plist)
include image wellFormed

theorem readKey_spec (form : KeyForm name) {key : Obj} (isSub : key ∈ plist.subs) (isString : key.chars = some chars) :
    matchKey.readKey file trailer (.string name form) (offsetOf key) = .ok (decide (key.chars = some name)) := by
  have leaf : key.height = 0 := by
    cases key with
    | leaf => rfl
    | array | dict => cases isString
  obtain ⟨objects', created⟩ := binaryPlistCreateObject_spec image wellFormed .immutable isSub (by omega) Option.getD_none
  rw [matchKey.readKey, created, (decoded_of_chars isString).1, isString]
  simp only [ok_bind, Plist.isPrimitive, check_of, SearchKey.isEqual, Value.string.injEq, Option.some.injEq]
  rfl

/-- What the search does at a key of a dictionary. -/
theorem matchKey_spec (form : KeyForm name) {key : Obj} (isSub : key ∈ plist.subs) (isString : key.chars.isSome)
    (unmistaken : ¬ form.Mistaken key) :
    (form.Blocked (IsLast trailer objtable offsetOf) key ∧ matchKey file trailer (.string name form) (offsetOf key) = .error .fail) ∨
      ¬ form.Blocked (IsLast trailer objtable offsetOf) key ∧
        matchKey file trailer (.string name form) (offsetOf key) = .ok (decide (key.chars = some name)) := by
  obtain ⟨chars, isString⟩ := Option.isSome_iff_exists.mp isString
  have readKey := readKey_spec image wellFormed form isSub isString
  have placed := image.placed key isSub
  have inside := image.beforeTable key isSub
  obtain ⟨ptr, rfl⟩ := Obj.eq_leaf_of_chars isString
  by_cases ascii : isASCII chars
  · have bytes : (Obj.leaf ptr (.string chars)).bytes objtable trailer.objectRefSize = asciiString chars := if_pos ascii
    rw [bytes] at placed inside
    cases isBuffer : form.keyBufferPtr with
    | none =>
      refine .inr ⟨fun blocked => ?_, ?_⟩
      · rw [KeyForm.Blocked, isBuffer] at blocked
        exact nomatch blocked.1
      · simp [matchKey, byte_placed placed, ok_bind, SearchKey.bytes, isBuffer, readKey]
    | some buffer =>
      simp only [matchKey, byte_placed placed, ok_bind, SearchKey.bytes, isBuffer, Option.map_some, countMarker_kind isKind_ascii, if_true]
      rw [compareASCII_spec inside placed, ← bytes]
      by_cases same : chars.length = name.length
      · rw [if_neg (not_not.mpr same)]
        split
        case isTrue isLast => exact .inl ⟨⟨by rw [isBuffer]; rfl, isLast, chars, isString, ascii, same⟩, rfl⟩
        case isFalse notLast =>
          simp only [bytes_eq_iff isString ascii same unmistaken isBuffer]
          exact .inr ⟨fun blocked => notLast blocked.2.1, trivial⟩
      · rw [if_pos same]
        refine .inr ⟨?_, congrArg _ (decide_eq_false fun equal => ?_).symm⟩
        · rintro ⟨-, -, _, isString', -, same'⟩
          cases isString.symm.trans isString'
          exact same same'
        · cases isString.symm.trans equal
          exact same rfl
  · have bytes : (Obj.leaf ptr (.string chars)).bytes objtable trailer.objectRefSize =
        countBytes kCFBinaryPlistMarkerUnicode16String chars.length ++ chars.flatMap fun c => bigEndian 2 c.toNat := if_neg ascii
    rw [bytes] at placed inside
    refine .inr ⟨?_, ?_⟩
    · rintro ⟨-, -, _, isString', ascii', -⟩
      cases isString.symm.trans isString'
      exact ascii ascii'
    · simp only [matchKey, byte_placed placed, ok_bind, countMarker_kind isKind_unicode, readKey]
      split
      · rw [if_neg (by decide)]
      · rfl

/-- The search of the keys comes to the value of the key, unless it gives up. -/
theorem searchKeys_spec {totalKeySize : Nat} {keys values : List Obj} (paired : keys.length = values.length) (ptr : Nat)
    (areSubs : ∀ key ∈ keys, key ∈ plist.subs) (strings : ∀ key ∈ keys, key.chars.isSome) (different : (keys.map Obj.chars).Nodup)
    (unmistaken : ∀ key ∈ keys, ¬ form.Mistaken key)
    (keyRefs : ∀ i key, keys[i]? = some key → getOffsetOfRefAt file trailer (ptr + i * trailer.objectRefSize) = .ok (offsetOf key))
    (valueRefs : ∀ i value, values[i]? = some value →
      getOffsetOfRefAt file trailer (ptr + totalKeySize + i * trailer.objectRefSize) = .ok (offsetOf value)) :
    Reaches offsetOf (((keys.zip values).find? fun entry => entry.1.chars = some name).map Prod.snd)
      (form.GivesUp (IsLast trailer objtable offsetOf) keys)
      ((searchKeys file trailer (.string name form) totalKeySize keys.length ptr).map Prod.snd) := by
  induction keys generalizing values ptr with
  | nil => exact .inr ⟨nofun, rfl⟩
  | cons key keys ih =>
    cases values with
    | nil => cases paired
    | cons value values =>
      have isKey := keyRefs 0 key rfl
      have isValue := valueRefs 0 value rfl
      rw [Nat.zero_mul, Nat.add_zero] at isKey isValue
      have next : ∀ start i, start + trailer.objectRefSize + i * trailer.objectRefSize = start + (i + 1) * trailer.objectRefSize := by
        intro start i
        ring
      rw [map_cons, nodup_cons] at different
      rw [forall_mem_cons] at areSubs strings unmistaken
      rw [length_cons, searchKeys, isKey, ok_bind, KeyForm.givesUp_cons]
      rcases matchKey_spec image wellFormed form areSubs.1 strings.1 unmistaken.1 with ⟨blocked, fails⟩ | ⟨free, matched⟩
      · rw [fails, error_bind]
        refine .inr ⟨fun named => .inl ⟨blocked, ?_⟩, rfl⟩
        rw [Option.isSome_map, find?_isSome] at named
        obtain ⟨entry, mem, isName⟩ := named
        exact ⟨entry.1, (of_mem_zip mem).1, by simpa using isName⟩
      · rw [matched, ok_bind, zip_cons_cons, find?_cons]
        by_cases isName : key.chars = some name
        · -- the key that is searched for: it is not found again behind
          have notBehind : ¬ form.GivesUp (IsLast trailer objtable offsetOf) keys := by
            rintro ⟨_, _, isSuffix, -, _, inSuffix, isName'⟩
            exact different.1 (isName.trans isName'.symm ▸ mem_map_of_mem (isSuffix.subset inSuffix))
          simp only [isName, decide_true, if_true, isValue]
          exact .inl ⟨value, rfl, fun missed => missed.elim (fun blocked => free blocked.1) notBehind, rfl⟩
        · have rest := ih (by simpa using paired : keys.length = values.length) (ptr + trailer.objectRefSize) areSubs.2 strings.2 different.2
            unmistaken.2 (fun i key isKey => by rw [next]; exact keyRefs (i + 1) key isKey)
            (fun i value isValue => by rw [Nat.add_right_comm ptr, next]; exact valueRefs (i + 1) value isValue)
          simp only [isName, decide_false, Bool.false_eq_true, if_false]
          rcases rest with ⟨part, named, goesOn, isOffset⟩ | ⟨missed, fails⟩
          · exact .inl ⟨part, named, fun missed => missed.elim (fun blocked => free blocked.1) goesOn, isOffset⟩
          · exact .inr ⟨fun named => .inr (missed named), fails⟩

theorem getOffsetForValueFromDictionary3_dict (form : KeyForm name) {ptr : Nat} {keys values : List Obj}
    (isSub : .dict ptr keys values ∈ plist.subs) (unmistaken : ∀ key ∈ keys, ¬ form.Mistaken key) :
    Reaches offsetOf (((keys.zip values).find? fun entry => entry.1.chars = some name).map Prod.snd)
      (form.GivesUp (IsLast trailer objtable offsetOf) keys)
      ((getOffsetForValueFromDictionary3 file (offsetOf (.dict ptr keys values)) trailer (.string name form)).map Prod.snd) := by
  have inRange := image.inRange wellFormed isSub
  have paired := wellFormed.paired _ _ _ isSub
  have inMemory : (keys ++ values).length * 8 < 2 ^ 64 := wellFormed.inMemory _ isSub
  have double : (keys ++ values).length = keys.length * 2 := by
    rw [length_append]
    omega
  have areSubs : ∀ part ∈ keys ++ values, part ∈ plist.subs := fun part => Obj.mem_subs_of_mem_parts isSub
  obtain ⟨start, isMarker, next, isCount, checked, later, beforeTable, placed⟩ :=
    readHeader image isSub inMemory isKind_dict (by rw [Obj.parts]; omega) rfl
  rw [Obj.parts] at checked beforeTable placed
  have refs : ∀ i part, (keys ++ values)[i]? = some part →
      getOffsetOfRefAt file trailer (start + i * trailer.objectRefSize) = .ok (offsetOf part) := fun i part isPart =>
    getOffsetOfRefAt_part image areSubs later beforeTable placed isPart
  have searched : getOffsetForValueFromDictionary3 file (offsetOf (.dict ptr keys values)) trailer (.string name form) =
      searchKeys file trailer (.string name form) (keys.length * trailer.objectRefSize) keys.length start := by
    rw [double] at checked inMemory
    have header : dictionaryHeader file (offsetOf (.dict ptr keys values)) trailer = .ok (keys.length, start) := by
      simp only [dictionaryHeader, check_of inRange, isMarker, ok_bind, check_of, countMarker_kind isKind_dict, next, isCount,
        sizeMul_small (by omega : keys.length * 2 < 2 ^ 64), checkExtent_of_checkRefs checked, Nat.mul_div_cancel _ (by decide : 0 < 2)]
      rfl
    simp [getOffsetForValueFromDictionary3, SearchKey.isPrimitive, check_of, ok_bind, header]
  rw [searched]
  apply searchKeys_spec image wellFormed paired
  · exact fun key isKey => areSubs key (mem_append_left _ isKey)
  · exact wellFormed.strings _ _ _ isSub
  · exact wellFormed.different _ _ _ isSub
  · exact unmistaken
  · intro i key isKey
    apply refs i key
    rw [getElem?_append_left (List.getElem?_eq_some_iff.mp isKey).1, isKey]
  · intro i value isValue
    rw [Nat.add_assoc, ← Nat.add_mul]
    apply refs
    rw [getElem?_append_right (Nat.le_add_right _ _), Nat.add_sub_cancel_left, isValue]

end Match

/-! ## One component -/

def Obj.isArray : Obj → Bool
  | array _ _ => true
  | leaf _ _ | dict _ _ _ => false

def Obj.isDict : Obj → Bool
  | dict _ _ _ => true
  | leaf _ _ | array _ _ => false

variable (image : Image file trailer objtable offsetOf plist) (wellFormed : WellFormed plist) {obj : Obj}
include image wellFormed

/-- The marker of an object tells its kind. -/
theorem marker_spec (isSub : obj ∈ plist.subs) :
    ∃ marker, file.byte (offsetOf obj) = .ok marker ∧ (marker &&& 0xf0 = kCFBinaryPlistMarkerArray ↔ obj.isArray) ∧
      (marker &&& 0xf0 = kCFBinaryPlistMarkerDict ↔ obj.isDict) := by
  have placed := image.placed obj isSub
  have beforeTable := image.beforeTable obj isSub
  cases obj with
  | leaf =>
    rw [Obj.bytes] at beforeTable placed
    obtain ⟨marker, _, bytes, notArray, _, notDict, -⟩ := readLeaf_placed (wellFormed.supported _ isSub) placed
      (by omega : _ ≤ trailer.offsetTableOffset - 1 + 1)
    rw [bytes] at placed
    exact ⟨marker, byte_placed placed, iff_of_false notArray Bool.false_ne_true, iff_of_false notDict Bool.false_ne_true⟩
  | array =>
    refine ⟨_, byte_placed placed.left, ?_, ?_⟩ <;> rw [countMarker_kind isKind_array]
    · exact iff_of_true rfl rfl
    · exact iff_of_false (by decide) Bool.false_ne_true
  | dict =>
    refine ⟨_, byte_placed placed.left, ?_, ?_⟩ <;> rw [countMarker_kind isKind_dict]
    · exact iff_of_false (by decide) Bool.false_ne_true
    · exact iff_of_true rfl rfl

end Lookup

end DarwinNotes.CF.BinaryPlist
