import DarwinNotes.CF.BinaryPlist.Written

/-!
# Property lists read back

A written property list is read back equal, for every mutability option, if and only if no
negative integer of it is held as a 128-bit number: such a number is written with both
its words, but the reader takes the high word for 0.
-/

namespace DarwinNotes.CF.BinaryPlist
open List

/-! ## Equal property lists -/

def Plist.isLeaf (value : Value) : Plist → Bool
  | leaf value' => value' = value
  | array _ | set _ | dict _ _ => false

/-- The value of a key in a dictionary. -/
def findValue (key : Value) (keys values : List Plist) : Option Plist :=
  ((keys.zip values).find? fun entry => entry.1.isLeaf key).map Prod.snd

mutual

/-- `CFEqual` for property lists; the order of a dictionary or a set does not matter. -/
def Plist.equal : Plist → Plist → Bool
  | .leaf value, .leaf value' => value = value'
  | .array values, .array values' => equalAll values values'
  | .set values, .set values' => values.length = values'.length && equalMembers values values'
  | .dict keys values, .dict keys' values' => keys.length = keys'.length && equalEntries keys values keys' values'
  | _, _ => false

def equalAll : List Plist → List Plist → Bool
  | [], [] => true
  | plist :: plists, plist' :: plists' => plist.equal plist' && equalAll plists plists'
  | _, _ => false

/-- Every member of the first set is in the second. -/
def equalMembers : List Plist → List Plist → Bool
  | [], _ => true
  | plist :: plists, plists' => plists'.any (fun plist' => plist.equal plist') && equalMembers plists plists'

/-- Every key of the first dictionary has an equal value in the second. -/
def equalEntries (keys : List Plist) : List Plist → List Plist → List Plist → Bool
  | [], _, _ => true
  | value :: values, keys', values' =>
    match keys with
    | .leaf key :: keys =>
      match findValue key keys' values' with
      | some value' => value.equal value' && equalEntries keys values keys' values'
      | none => false
    | _ => false

end

theorem valuesOf_eq_map (objs : List Obj) : valuesOf objs = objs.map Obj.value := by
  induction objs with
  | nil => rw [valuesOf, map_nil]
  | cons _ _ ih => rw [valuesOf, map_cons, ih]

/-- An integer held as a 128-bit number is not negative. -/
def Obj.Kept : Obj → Prop
  | leaf _ (.int number) => number.type = .sInt128 → 0 ≤ number.value
  | _ => True

/-- No negative integer is held as a 128-bit number. -/
def NoNegative128 (plist : Obj) : Prop := ∀ obj ∈ plist.subs, obj.Kept

variable {obj : Obj}

theorem noNegative128_iff : NoNegative128 obj ↔ obj.Kept ∧ ∀ part ∈ obj.parts, NoNegative128 part := by
  rw [NoNegative128, Obj.subs_eq, forall_mem_cons]
  simp only [mem_flatMap, NoNegative128]
  exact and_congr_right fun _ => ⟨fun all part isPart sub isSub => all sub ⟨part, isPart, isSub⟩,
    fun all sub ⟨part, isPart, isSub⟩ => all part isPart sub isSub⟩

theorem decoded_eq_value_iff {ptr : Nat} {content : Leaf}
    (inRange : ∀ number, content = .int number → number.value < 2 ^ 64) :
    content.decoded = content.value ↔ (Obj.leaf ptr content).Kept := by
  cases content with
  | int number =>
    have upper := inRange number rfl
    simp only [Leaf.decoded, Leaf.value, Obj.Kept, Value.int.injEq]
    split
    case isTrue long =>
      simp only [long, true_imp_iff]
      constructor
      · intro same
        rw [← same]
        exact Int.emod_nonneg _ (by decide)
      · exact fun positive => Int.emod_eq_of_lt positive upper
    case isFalse short => simp [short]
  | null | bool | float32 | float64 | date | data | string | uid => simp [Leaf.decoded, Obj.Kept]

theorem equalAll_map {objs : List Obj} :
    equalAll (objs.map Obj.decoded) (objs.map Obj.value) = true ↔ ∀ obj ∈ objs, obj.decoded.equal obj.value = true := by
  induction objs with
  | nil => simp [equalAll]
  | cons _ _ ih => simp [equalAll, ih]

variable {chars : List (BitVec 16)}

/-- A string is read as it is. -/
theorem decoded_of_chars (isString : obj.chars = some chars) :
    obj.decoded = .leaf (.string chars) ∧ obj.value = .leaf (.string chars) ∧ obj.Kept := by
  obtain ⟨ptr, rfl⟩ := Obj.eq_leaf_of_chars isString
  exact ⟨by rw [Obj.decoded]; rfl, by rw [Obj.value]; rfl, trivial⟩

theorem isLeaf_value_iff : obj.value.isLeaf (.string chars) = true ↔ obj.chars = some chars := by
  cases obj with
  | leaf _ content =>
    rw [Obj.value]
    cases content <;> simp [Plist.isLeaf, Leaf.value, Obj.chars]
  | array | dict => simp [Obj.value, Plist.isLeaf, Obj.chars]

/-- In a dictionary with different keys each key finds its own value. -/
theorem findValue_map {before after before' after' : List Obj} {key value : Obj} (isString : key.chars = some chars)
    (different : ((before ++ key :: after).map Obj.chars).Nodup) (paired : before.length = before'.length) :
    findValue (.string chars) ((before ++ key :: after).map Obj.value) ((before' ++ value :: after').map Obj.value) = some value.value := by
  have notBefore : ∀ entry ∈ (before.map Obj.value).zip (before'.map Obj.value), ¬ entry.1.isLeaf (.string chars) = true := by
    intro entry inZip isKey
    obtain ⟨key', inBefore, same⟩ := mem_map.mp (of_mem_zip inZip).1
    rw [← same, isLeaf_value_iff] at isKey
    rw [map_append, map_cons, nodup_middle, nodup_cons, isString, ← isKey] at different
    exact different.1 (mem_append_left _ (mem_map_of_mem inBefore))
  rw [findValue, map_append, map_append, map_cons, map_cons, zip_append (by rw [length_map, length_map, paired]), find?_append,
    find?_eq_none.mpr notBefore, Option.none_or, zip_cons_cons]
  simp [isLeaf_value_iff.mpr isString]

/-- The entries behind `before` are equal in both dictionaries if their values are. -/
theorem equalEntries_map (before before' keys values : List Obj) (strings : ∀ key ∈ keys, key.chars.isSome)
    (different : ((before ++ keys).map Obj.chars).Nodup) (pairedBefore : before.length = before'.length)
    (paired : keys.length = values.length) : equalEntries (keys.map Obj.decoded) (values.map Obj.decoded) ((before ++ keys).map Obj.value)
        ((before' ++ values).map Obj.value) = true ↔ ∀ value ∈ values, value.decoded.equal value.value = true := by
  induction values generalizing before keys before' with
  | nil => simp [equalEntries]
  | cons value values ih =>
    cases keys with
    | nil => cases paired
    | cons key keys =>
      obtain ⟨chars, isString⟩ := Option.isSome_iff_exists.mp (strings key mem_cons_self)
      have rest := ih (before ++ [key]) (before' ++ [value]) keys
        (fun key inKeys => strings key (mem_cons_of_mem _ inKeys)) (by simpa using different) (by simp [pairedBefore])
        (by simpa using paired)
      rw [append_assoc, append_assoc, singleton_append, singleton_append] at rest
      change equalEntries (key.decoded :: keys.map Obj.decoded) (value.decoded :: values.map Obj.decoded) _ _ = true ↔ _
      rw [(decoded_of_chars isString).1, equalEntries]
      simp only [findValue_map isString different pairedBefore, Bool.and_eq_true, mem_cons, forall_eq_or_imp, rest]

theorem equal_value_iff {plist : Obj} (wellFormed : WellFormed plist) (isSub : obj ∈ plist.subs) :
    obj.decoded.equal obj.value = true ↔ NoNegative128 obj := by
  induction obj using Obj.induction with
  | step obj ih =>
    have areSubs : ∀ part ∈ obj.parts, part ∈ plist.subs := fun part => Obj.mem_subs_of_mem_parts isSub
    have parts : NoNegative128 obj ↔ obj.Kept ∧ ∀ part ∈ obj.parts, part.decoded.equal part.value = true := by
      rw [noNegative128_iff]
      exact and_congr_right fun _ => forall₂_congr fun part isPart => (ih part isPart (areSubs part isPart)).symm
    rw [parts]
    cases obj with
    | leaf ptr content =>
      have inRange : ∀ number, content = .int number → number.value < 2 ^ 64 := by
        rintro number rfl
        exact (wellFormed.inRange ptr number isSub).2
      rw [Obj.decoded, Obj.value, ← decoded_eq_value_iff inRange]
      simp [Plist.equal, Obj.parts]
    | array =>
      rw [Obj.decoded, Obj.value, decodedOf_eq_map, valuesOf_eq_map, Plist.equal, equalAll_map]
      simp [Obj.Kept, Obj.parts]
    | dict _ keys values =>
      have strings := wellFormed.strings _ _ _ isSub
      have entries := equalEntries_map [] [] keys values strings (wellFormed.different _ _ _ isSub) rfl
        (wellFormed.paired _ _ _ isSub)
      rw [nil_append, nil_append] at entries
      rw [Obj.decoded, Obj.value, decodedOf_eq_map, decodedOf_eq_map, valuesOf_eq_map, valuesOf_eq_map, Plist.equal,
        Bool.and_eq_true, entries]
      simp only [length_map, decide_true, true_and, Obj.Kept, Obj.parts, mem_append]
      refine ⟨fun all part isPart => isPart.elim (fun isKey => ?_) (all part), fun all value inValues => all value (.inr inValues)⟩
      obtain ⟨chars, isString⟩ := Option.isSome_iff_exists.mp (strings part isKey)
      rw [(decoded_of_chars isString).1, (decoded_of_chars isString).2.1]
      simp [Plist.equal]

/-! ## Writing and reading -/

theorem length_add_heightOf_le {objs : List Obj}
    (one : ∀ obj ∈ objs, ∀ flat : Flat, flat.objlist.length + obj.height ≤ (flattenPlist flat obj).objlist.length) (flat : Flat) :
    flat.objlist.length + Obj.heightOf objs ≤ (objs.foldl flattenPlist flat).objlist.length := by
  induction objs generalizing flat with
  | nil => exact le_rfl
  | cons obj objs ih =>
    obtain ⟨first, later⟩ := forall_mem_cons.mp one
    have := first flat
    have := ih later (flattenPlist flat obj)
    rw [Obj.heightOf, foldl_cons]
    omega

/-- Each object on the way down has its own place in the list. -/
theorem length_add_height_le (flat : Flat) (obj : Obj) : flat.objlist.length + obj.height ≤ (flattenPlist flat obj).objlist.length := by
  induction obj using Obj.induction generalizing flat with
  | step obj ih =>
    have parts := length_add_heightOf_le ih (flat.enter obj)
    rw [← flattenPlist_parts] at parts
    cases obj with
    | leaf =>
      rw [flattenPlist_parts, Obj.parts, foldl_nil, Flat.enter]
      split_ifs <;> simp [Flat.add, Obj.height]
    | array ptr values =>
      have entered : (flat.enter (.array ptr values)).objlist.length = flat.objlist.length + 1 := length_append
      rw [entered, Nat.add_right_comm] at parts
      exact parts
    | dict ptr keys values =>
      have entered : (flat.enter (.dict ptr keys values)).objlist.length = flat.objlist.length + 1 := length_append
      rw [entered, Nat.add_right_comm, Obj.parts, Obj.heightOf_append] at parts
      exact parts

/-- A property list is written and the file is read: the length is right, the top level is accepted,
and the object there is equal. -/
def ReadsBack (plist : Obj) (file : File) (option : Mutability) (objects : Option Objects) : Prop :=
  (binaryPlistWrite plist).1 = file.bytes.length ∧ ∃ marker offset trailer, getTopLevelInfo file = .ok (marker, offset, trailer) ∧
      ∃ value objects', binaryPlistCreateObject file trailer offset option objects = .ok (value, objects') ∧ value.equal plist.value = true

/-- Every object of a written property list is read at its offset. -/
theorem binaryPlistCreateObject_written {plist : Obj} (wellFormed : WellFormed plist) (few : (flattened plist).objlist.length < 2 ^ 32)
    {file : File} (isFile : file.bytes = (flattened plist).fileBytes) (option : Mutability) {objects : Option Objects}
    (empty : objects.getD [] = []) (isSub : obj ∈ plist.subs) :
    ∃ objects', binaryPlistCreateObject file (flattened plist).trailer (offsetOf plist obj) option objects =
      .ok (obj.decoded, objects') := by
  have deep := length_add_height_le ⟨[], [], []⟩ plist
  have inner := Obj.height_le_of_mem_subs isSub
  have long := Flat.length_fileBytes (flattened plist)
  have wide : (flattened plist).objlist.length ≤ (flattened plist).objlist.length * (flattened plist).trailer.offsetIntSize :=
    Nat.le_mul_of_pos_right _ (byteCount_pos _)
  rw [← isFile] at long
  refine binaryPlistCreateObject_spec (image_written wellFormed few isFile) wellFormed option isSub ?_ empty
  rw [flattened] at wide long
  omega

/-- A property list reads back equal exactly if none of its negative integers is a 128-bit number. -/
theorem reads_back_iff {plist : Obj} (wellFormed : WellFormed plist)
    (few : (flattened plist).objlist.length < 2 ^ 32) (file : File) (isFile : file.bytes = (binaryPlistWrite plist).2)
    (option : Mutability) (objects : Option Objects) (empty : objects.getD [] = []) :
    ReadsBack plist file option objects ↔ NoNegative128 plist := by
  have written := binaryPlistWrite_eq (supported_flattened wellFormed)
  rw [written] at isFile
  obtain ⟨marker, accepted⟩ := getTopLevelInfo_written wellFormed few isFile
  obtain ⟨objects', created⟩ := binaryPlistCreateObject_written wellFormed few isFile option empty plist.self_mem_subs
  rw [← equal_value_iff wellFormed plist.self_mem_subs]
  constructor
  · rintro ⟨-, marker', offset, trailer, accepted', value, objects₁, created', equal⟩
    rw [accepted] at accepted'
    cases accepted'
    rw [created] at created'
    cases created'
    exact equal
  · intro equal
    exact ⟨by rw [written, isFile], marker, _, _, accepted, _, _, created, equal⟩

/-- `{"a": ["a", -5, 2 ^ 64 - 1]}`; the string is shared, and only the last integer is a 128-bit number. -/
def sharedString : Obj :=
  .dict 1 [.leaf 2 (.string [0x61])]
    [.array 3 [.leaf 2 (.string [0x61]), .leaf 4 (.int ⟨.sInt64, -5, by decide, by decide⟩),
      .leaf 5 (.int ⟨.sInt128, 2 ^ 64 - 1, by decide, by decide⟩)]]

theorem sharedString_wellFormed : WellFormed sharedString := by
  constructor <;> simp +contextual [sharedString, Obj.subs, subsOf, Obj.ptr, Obj.Supported, Obj.chars, Obj.parts]
  rintro ptr number (⟨-, rfl⟩ | ⟨-, rfl⟩) <;> decide

theorem sharedString_reads_back : ∃ file : File, file.bytes = (binaryPlistWrite sharedString).2 ∧
      (ReadsBack sharedString file .mutableContainers (some []) ↔ NoNegative128 sharedString) :=
  ⟨⟨(binaryPlistWrite sharedString).2, 4096, by decide +kernel, by decide +kernel⟩, rfl,
    reads_back_iff sharedString_wellFormed (by decide +kernel) _ rfl _ _ rfl⟩

/-- A 128-bit number that is -1. -/
def minusOne128 : Obj := .leaf 1 (.int ⟨.sInt128, -1, by decide, by decide⟩)

theorem minusOne128_wellFormed : WellFormed minusOne128 := by
  constructor <;> simp [minusOne128, Obj.subs, Obj.Supported, Obj.parts]

def minusOne128File : File := ⟨(binaryPlistWrite minusOne128).2, 4096, by decide +kernel, by decide +kernel⟩

/-- It reads back as `2 ^ 64 - 1`. -/
theorem minusOne128_reads_back_positive : WellFormed minusOne128 ∧ (flattened minusOne128).objlist.length = 1 ∧
      (∃ trailer, getTopLevelInfo minusOne128File = .ok (0x14, 8, trailer) ∧
        binaryPlistCreateObject minusOne128File trailer 8 .immutable none = .ok (.leaf (.int (2 ^ 64 - 1)), none)) ∧
      ¬ ReadsBack minusOne128 minusOne128File .immutable none := by
  have accepted : getTopLevelInfo minusOne128File = .ok (0x14, 8, (flattened minusOne128).trailer) := by decide +kernel
  have created : binaryPlistCreateObject minusOne128File (flattened minusOne128).trailer 8 .immutable none =
      .ok (.leaf (.int (2 ^ 64 - 1)), none) := rfl
  refine ⟨minusOne128_wellFormed, rfl, ⟨_, accepted, created⟩, ?_⟩
  rintro ⟨-, marker, offset, trailer, accepted', value, objects, created', equal⟩
  rw [accepted] at accepted'
  cases accepted'
  cases created'
  exact absurd equal (by decide +kernel)

end DarwinNotes.CF.BinaryPlist
