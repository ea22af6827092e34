import DarwinNotes.CF.BinaryPlist.KeyPath

/-!
# Key paths and the property list that is read

Walking down the property list that is read takes at each component the value of a key or
the element at an index. The lookup in the file takes the same step, unless the search gives up before
it comes to the key, takes another key for the one it looks for, or the index is not below the
largest `int` and so is searched for as a key.
-/

namespace DarwinNotes.CF.BinaryPlist
open List

/-! ## Walks -/

/-- What a component names in a property list. -/
def Plist.child : Plist → Component → Option Plist
  | array values, .index n => values[n]?
  | dict keys values, .key chars => findValue (.string chars) keys values
  | _, _ => none

/-- What a key path names in a property list. -/
def Plist.walk : Plist → List Component → Option Plist
  | plist, [] => some plist
  | plist, component :: path => (plist.child component).bind (walk · path)

/-- What a component names in a property list to be written. -/
def Obj.child : Obj → Component → Option Obj
  | array _ values, .index n => values[n]?
  | dict _ keys values, .key chars => ((keys.zip values).find? fun entry => entry.1.chars = some chars).map Prod.snd
  | _, _ => none

def Obj.walk : Obj → List Component → Option Obj
  | obj, [] => some obj
  | obj, component :: path => (obj.child component).bind (walk · path)

theorem isLeaf_decoded (obj : Obj) (chars : List (BitVec 16)) : obj.decoded.isLeaf (.string chars) = decide (obj.chars = some chars) := by
  cases obj with
  | leaf _ content =>
    rw [Obj.decoded]
    cases content <;> simp [Plist.isLeaf, Leaf.decoded, Leaf.value, Obj.chars]
  | array | dict => simp [Obj.decoded, Plist.isLeaf, Obj.chars]

theorem child_decoded (obj : Obj) (component : Component) : obj.decoded.child component = (obj.child component).map Obj.decoded := by
  cases obj with
  | leaf => rw [Obj.decoded, Plist.child, Obj.child] <;> simp
  | array =>
    rw [Obj.decoded, decodedOf_eq_map]
    cases component with
    | key => rw [Plist.child, Obj.child] <;> simp
    | index => rw [Plist.child, Obj.child, getElem?_map]
  | dict =>
    rw [Obj.decoded, decodedOf_eq_map, decodedOf_eq_map]
    cases component with
    | key chars =>
      have same : ((fun entry : Plist × Plist => entry.1.isLeaf (.string chars)) ∘ Prod.map Obj.decoded Obj.decoded) =
          fun entry => decide (entry.1.chars = some chars) := funext fun entry => isLeaf_decoded entry.1 chars
      rw [Plist.child, Obj.child, findValue, zip_map, find?_map, same, Option.map_map, Option.map_map]
      rfl
    | index => rw [Plist.child, Obj.child] <;> simp

theorem walk_decoded (obj : Obj) (path : List Component) : obj.decoded.walk path = (obj.walk path).map Obj.decoded := by
  induction path generalizing obj with
  | nil => rfl
  | cons _ _ ih =>
    rw [Plist.walk, Obj.walk, child_decoded, Option.map_bind, Option.bind_map]
    congr 1
    funext part
    exact ih part

theorem Obj.mem_parts_of_child {obj part : Obj} {component : Component} (isChild : obj.child component = some part) : part ∈ obj.parts := by
  cases obj with
  | leaf => cases isChild
  | array =>
    cases component with
    | key => cases isChild
    | index => exact mem_of_getElem? isChild
  | dict =>
    cases component with
    | key =>
      obtain ⟨_, found, rfl⟩ := Option.map_eq_some_iff.mp isChild
      exact mem_append_right _ (of_mem_zip (mem_of_find?_eq_some found)).2
    | index => cases isChild

/-! ## Steps where the lookup goes another way -/

/-- What the string functions give for each component of a key path. -/
abbrev Forms := Nat → (chars : List (BitVec 16)) → KeyForm chars

/-- The component names a part, but the lookup does not come to it: the search gives up at
the key or before it, or the index is not below the largest `int`. -/
def Missed (isLast : Obj → Prop) (form : (chars : List (BitVec 16)) → KeyForm chars) : Obj → Component → Prop
  | .array _ values, .index n => 2 ^ 31 - 1 ≤ n ∧ n < values.length
  | .dict _ keys _, .key chars => (form chars).GivesUp isLast keys
  | _, _ => False

/-- The lookup may come to a part that the component does not name: a key is taken for another one, or the
decimal digits of an index that is not below the largest `int` are a key. -/
def Mistook (form : (chars : List (BitVec 16)) → KeyForm chars) : Obj → Component → Prop
  | .dict _ keys _, .key chars => ∃ key ∈ keys, (form chars).Mistaken key
  | .dict _ keys _, .index n => 2 ^ 31 - 1 ≤ n ∧ ∃ key ∈ keys, key.chars = some (decimal n)
  | _, _ => False

/-- A step of the walk along a key path is of some kind. -/
def SomeStep (kind : ((chars : List (BitVec 16)) → KeyForm chars) → Obj → Component → Prop) : Forms → Obj → List Component → Prop
  | _, _, [] => False
  | forms, obj, component :: path =>
    kind (forms 0) obj component ∨ ∃ part, obj.child component = some part ∧ SomeStep kind (fun i => forms (i + 1)) part path

/-! ## One step -/

theorem isASCII_decimal (n : Nat) : isASCII (decimal n) := by
  intro c isChar
  obtain ⟨d, inDigits, rfl⟩ := mem_map.mp isChar
  have small := digitsOf_lt inDigits
  rw [toNat_digitChar small]
  omega

theorem not_mistaken_of_isASCII {name : List (BitVec 16)} {form : KeyForm name} (ascii : isASCII name) (key : Obj) :
    ¬ form.Mistaken key := fun mistaken => mistaken.1 ascii

variable {plist : Obj}

section Lookup

variable {file : File} {trailer : Trailer} {objtable : ObjTable} {offsetOf : Obj → Nat}

/-- The lookup takes the step of the walk, if it does not miss it. -/
theorem followKey_spec (image : Image file trailer objtable offsetOf plist) (wellFormed : WellFormed plist) {obj : Obj} (isSub : obj ∈ plist.subs)
    {form : (chars : List (BitVec 16)) → KeyForm chars} {component : Component} (valid : component.Valid) (unmistaken : ¬ Mistook form obj component) :
    Reaches offsetOf (obj.child component) (Missed (IsLast trailer objtable offsetOf) form obj component)
      (followKey file trailer component.chars (form component.chars) (offsetOf obj)) := by
  obtain ⟨_, isMarker, array_iff, dict_iff⟩ := marker_spec image wellFormed isSub
  have inRange := image.inRange wellFormed isSub
  have isSearch (notIndex : indexValue component.chars = none) : followKey file trailer component.chars (form component.chars) (offsetOf obj) =
      (getOffsetForValueFromDictionary3 file (offsetOf obj) trailer (.string component.chars (form component.chars))).map Prod.snd := by
    rw [followKey, notIndex]
    cases getOffsetForValueFromDictionary3 file (offsetOf obj) trailer (.string component.chars (form component.chars)) <;> rfl
  have notDict (isOther : ¬ obj.isDict) (notIndex : indexValue component.chars = none) :
      followKey file trailer component.chars (form component.chars) (offsetOf obj) = .error .fail := by
    rw [isSearch notIndex]
    simp only [getOffsetForValueFromDictionary3, dictionaryHeader, SearchKey.isPrimitive, check_of inRange, check_of,
      isMarker, ok_bind, check_of_not (dict_iff.not.mpr isOther), error_bind]
    rfl
  cases component with
  | key chars =>
    cases obj with
    | leaf | array => exact .inr ⟨by rintro ⟨⟩, notDict (by rintro ⟨⟩) valid.1⟩
    | dict =>
      rw [isSearch valid.1]
      exact getOffsetForValueFromDictionary3_dict image wellFormed _ isSub fun key inKeys mistaken => unmistaken ⟨key, inKeys, mistaken⟩
  | index n =>
    have isIndex : indexValue (Component.index n).chars = _ := indexValue_decimal n
    by_cases small : n < 2 ^ 31 - 1
    · rw [if_pos small] at isIndex
      cases obj with
      | array _ values =>
        have found := getOffsetForValueFromArray2_array image wellFormed isSub n
        rw [followKey, isIndex]
        cases isPart : values[n]? with
        | none =>
          rw [isPart] at found
          exact .inr ⟨fun named => by simp [Obj.child, isPart] at named, found⟩
        | some part =>
          rw [isPart] at found
          exact .inl ⟨part, isPart, fun missed => absurd missed.1 (by omega), found⟩
      | leaf | dict =>
        refine .inr ⟨by rintro ⟨⟩, ?_⟩
        rw [followKey, isIndex]
        simp only [getOffsetForValueFromArray2, check_of inRange, isMarker, ok_bind, check_of_not (array_iff.not.mpr (by rintro ⟨⟩)), error_bind]
    · rw [if_neg small] at isIndex
      cases obj with
      | leaf => exact .inr ⟨by rintro ⟨⟩, notDict (by rintro ⟨⟩) isIndex⟩
      | array =>
        refine .inr ⟨fun named => ⟨by omega, ?_⟩, notDict (by rintro ⟨⟩) isIndex⟩
        simpa [Obj.child] using named
      | dict =>
        rw [isSearch isIndex]
        rcases getOffsetForValueFromDictionary3_dict image wellFormed (form (decimal n)) isSub
          fun key _ => not_mistaken_of_isASCII (isASCII_decimal n) key with ⟨part, named, -⟩ | ⟨-, fails⟩
        · obtain ⟨entry, found, -⟩ := Option.map_eq_some_iff.mp named
          exact absurd ⟨by omega, entry.1, (of_mem_zip (mem_of_find?_eq_some found)).1, by simpa using find?_some found⟩ unmistaken
        · exact .inr ⟨by rintro ⟨⟩, fails⟩

/-! ## Whole key paths -/

theorem followKeys_spec (image : Image file trailer objtable offsetOf plist) (wellFormed : WellFormed plist) {obj : Obj} (isSub : obj ∈ plist.subs)
    {path : List Component} (valid : ∀ component ∈ path, component.Valid) {forms : Forms} (unmistaken : ¬ SomeStep Mistook forms obj path) :
    (∃ part ∈ plist.subs, obj.walk path = some part ∧ ¬ SomeStep (Missed (IsLast trailer objtable offsetOf)) forms obj path ∧
        followKeys file trailer ((path.map Component.chars).mapIdx fun i oneKey => ⟨oneKey, forms i oneKey⟩) (offsetOf obj) =
          .ok (offsetOf part)) ∨ ((obj.walk path).isSome → SomeStep (Missed (IsLast trailer objtable offsetOf)) forms obj path) ∧
        followKeys file trailer ((path.map Component.chars).mapIdx fun i oneKey => ⟨oneKey, forms i oneKey⟩) (offsetOf obj) =
          .error .fail := by
  induction path generalizing obj forms with
  | nil => exact .inl ⟨obj, isSub, rfl, id, rfl⟩
  | cons component path ih =>
    rw [map_cons, mapIdx_cons, followKeys]
    rcases followKey_spec image wellFormed isSub (valid component mem_cons_self) (fun mistook => unmistaken (.inl mistook)) with
      ⟨part, isChild, notMissed, isOffset⟩ | ⟨missed, fails⟩
    · have isPart := Obj.mem_subs_of_mem_parts isSub (Obj.mem_parts_of_child isChild)
      have missed_iff : SomeStep (Missed (IsLast trailer objtable offsetOf)) forms obj (component :: path) ↔
          SomeStep (Missed (IsLast trailer objtable offsetOf)) (fun i => forms (i + 1)) part path := by
        rw [SomeStep, or_iff_right notMissed, isChild]
        simp
      rw [isOffset, ok_bind, missed_iff, Obj.walk, isChild, Option.bind_some]
      exact ih isPart (fun component inPath => valid component (mem_cons_of_mem _ inPath))
        (fun mistook => unmistaken (.inr ⟨part, isChild, mistook⟩))
    · refine .inr ⟨fun reaches => .inl (missed ?_), by rw [fails, error_bind]⟩
      obtain ⟨part, isChild, -⟩ := Option.bind_eq_some_iff.mp (Option.eq_some_of_isSome reaches)
      exact isChild ▸ rfl

end Lookup

/-- The key ends the objects of the file that the property list is written to. -/
def IsLastObject (plist : Obj) : Obj → Prop := IsLast (flattened plist).trailer (flattened plist).objtable (offsetOf plist)

/-- Looking up a key path in the file gives what the walk down the whole property list gives. -/
def AgreesWithWalk (file : File) (option : Mutability) (path : List Component) (forms : Forms) : Prop :=
  ∃ marker offset trailer whole objects, getTopLevelInfo file = .ok (marker, offset, trailer) ∧
    binaryPlistCreateObject file trailer offset option (some []) = .ok (whole, objects) ∧
      ∀ value, createSingleValue file option (keyPath path) forms = .ok value ↔ whole.walk path = some value

/-- The lookup of a key path: what it comes to is read. -/
theorem createSingleValue_written (wellFormed : WellFormed plist) (few : (flattened plist).objlist.length < 2 ^ 32) {file : File}
    (isFile : file.bytes = (flattened plist).fileBytes) (option : Mutability) {path : List Component} (nonempty : path ≠ [])
    (valid : ∀ component ∈ path, component.Valid) {forms : Forms} (unmistaken : ¬ SomeStep Mistook forms plist path) (value : Plist) :
    createSingleValue file option (keyPath path) forms = .ok value ↔ plist.decoded.walk path = some value ∧ keyPath path ≠ [] ∧
        ¬ SomeStep (Missed (IsLastObject plist)) forms plist path := by
  obtain ⟨_, accepted⟩ := getTopLevelInfo_written wellFormed few isFile
  rw [createSingleValue, walk_decoded]
  by_cases given : keyPath path ≠ []
  · rw [check_of given, ok_bind, accepted]
    simp only [ok_bind, splitOn_keyPath valid nonempty]
    rcases followKeys_spec (image_written wellFormed few isFile) wellFormed plist.self_mem_subs valid unmistaken with
      ⟨part, isSub, reached, goesOn, followed⟩ | ⟨missed, fails⟩
    · obtain ⟨_, created⟩ := binaryPlistCreateObject_written wellFormed few isFile option
        (rfl : (some [] : Option Objects).getD [] = []) isSub
      have returned : ∀ value', (Except.ok value' : Read Plist) = .ok value ↔ some value' = some value := by simp
      simp only [followed, ok_bind, created, reached, Option.map_some]
      exact (returned _).trans (and_iff_left ⟨given, goesOn⟩).symm
    · rw [fails, error_bind]
      refine iff_of_false nofun ?_
      rintro ⟨reached, -, goesOn⟩
      obtain ⟨part, isPart, -⟩ := Option.map_eq_some_iff.mp reached
      exact goesOn (missed (by rw [isPart]; rfl))
  · rw [check_of_not given, error_bind]
    exact iff_of_false nofun (fun reached => given reached.2.1)

/-- The key `a` of a dictionary. -/
abbrev keyA : Component := .key [0x61]

theorem keyA_valid : keyA.Valid := by
  constructor
  · simp [indexValue, getIntValue, isWhitespace, isDigit]
  · simp

/-- `{"a": "a"}`, where the key and the value are one string. -/
def keyIsValue : Obj := .dict 1 [.leaf 2 (.string [0x61])] [.leaf 2 (.string [0x61])]

theorem keyIsValue_wellFormed : WellFormed keyIsValue := by
  constructor <;> simp +contextual [keyIsValue, Obj.subs, subsOf, Obj.ptr, Obj.Supported, Obj.chars, Obj.parts]

def keyIsValueFile : File := ⟨(binaryPlistWrite keyIsValue).2, 4096, by decide +kernel, by decide +kernel⟩

end DarwinNotes.CF.BinaryPlist
