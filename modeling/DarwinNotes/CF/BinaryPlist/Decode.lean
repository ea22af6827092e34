import DarwinNotes.CF.BinaryPlist.Flatten
import DarwinNotes.CF.BinaryPlist.ReadBack

/-!
# Reading the objects of a file

A file is an image of a property list if each object of it has an offset where its bytes
are, and the references lead to the offsets of the objects. Then the reader makes of
the object at an offset its value, whatever it remembers of other objects.
-/

namespace DarwinNotes.CF.BinaryPlist
open Lib List

/-! ## Property lists that can be written -/

/-- The characters of a string. -/
def Obj.chars : Obj → Option (List (BitVec 16))
  | leaf _ (.string chars) => some chars
  | _ => none

variable {obj : Obj}

theorem Obj.eq_leaf_of_chars {chars : List (BitVec 16)} (isString : obj.chars = some chars) : ∃ ptr, obj = leaf ptr (.string chars) := by
  unfold Obj.chars at isString
  split at isString
  case h_1 ptr chars' =>
    cases isString
    exact ⟨ptr, rfl⟩
  case h_2 => cases isString

/-- A property list: an address belongs to one object, the keys of a dictionary are different
strings, integers are between `-2 ^ 63` and `2 ^ 64`, and the pointers to the parts of an object fit in
memory. -/
structure WellFormed (plist : Obj) : Prop where
  shared : ∀ obj ∈ plist.subs, ∀ obj' ∈ plist.subs, obj.ptr = obj'.ptr → obj = obj'
  supported : ∀ obj ∈ plist.subs, obj.Supported
  paired : ∀ ptr keys values, .dict ptr keys values ∈ plist.subs → keys.length = values.length
  strings : ∀ ptr keys values, .dict ptr keys values ∈ plist.subs → ∀ key ∈ keys, key.chars.isSome
  different : ∀ ptr keys values, .dict ptr keys values ∈ plist.subs → (keys.map Obj.chars).Nodup
  inRange : ∀ ptr number, .leaf ptr (.int number) ∈ plist.subs → -2 ^ 63 ≤ number.value ∧ number.value < 2 ^ 64
  inMemory : ∀ obj ∈ plist.subs, obj.parts.length * 8 < 2 ^ 64

mutual

/-- What the reader makes of an object. -/
def Obj.decoded : Obj → Plist
  | .leaf _ content => .leaf content.decoded
  | .array _ values => .array (decodedOf values)
  | .dict _ keys values => .dict (decodedOf keys) (decodedOf values)

def decodedOf : List Obj → List Plist
  | [] => []
  | obj :: objs => obj.decoded :: decodedOf objs

end

theorem decodedOf_eq_map (objs : List Obj) : decodedOf objs = objs.map Obj.decoded := by
  induction objs with
  | nil => rw [decodedOf, map_nil]
  | cons obj objs ih => rw [decodedOf, map_cons, ih]

theorem isPrimitive_of_chars (isString : obj.chars.isSome) : obj.decoded.isPrimitive := by
  cases obj with
  | leaf ptr content => rfl
  | array | dict => cases isString

/-! ## Images -/

/-- The reference to an object in the file. -/
abbrev refBytes (objtable : ObjTable) (objRefSize : Nat) (obj : Obj) : List Byte :=
  (bigEndian 4 (refnum objtable obj)).drop (4 - objRefSize)

/-- The file has the objects of a property list at offsets of their own. -/
structure Image (file : File) (trailer : Trailer) (objtable : ObjTable) (offsetOf : Obj → Nat) (plist : Obj) : Prop where
  tableInside : trailer.offsetTableOffset ≤ file.bytes.length
  refSize_pos : 1 ≤ trailer.objectRefSize
  refSize_le : trailer.objectRefSize ≤ 4
  placed : ∀ obj ∈ plist.subs, Placed file.bytes (offsetOf obj) (obj.bytes objtable trailer.objectRefSize)
  behindHeader : ∀ obj ∈ plist.subs, 8 ≤ offsetOf obj
  beforeTable : ∀ obj ∈ plist.subs, offsetOf obj + (obj.bytes objtable trailer.objectRefSize).length ≤ trailer.offsetTableOffset
  refs : ∀ obj ∈ plist.subs, ∀ ptr, 8 ≤ ptr → ptr + trailer.objectRefSize ≤ trailer.offsetTableOffset →
    Placed file.bytes ptr (refBytes objtable trailer.objectRefSize obj) → getOffsetOfRefAt file trailer ptr = .ok (offsetOf obj)
  apart : ∀ obj ∈ plist.subs, ∀ obj' ∈ plist.subs, offsetOf obj = offsetOf obj' → obj = obj'

section Decode

variable {file : File} {trailer : Trailer} {objtable : ObjTable} {offsetOf : Obj → Nat} {plist : Obj}

/-- What is remembered is what was read. -/
def Remembers (offsetOf : Obj → Nat) (plist : Obj) (objects : Option Objects) : Prop :=
  ∀ off value, (objects.getD []).lookup off = some value → ∃ obj ∈ plist.subs, offsetOf obj = off ∧ value = obj.decoded

/-- An object is read, and only what was read is remembered. -/
def Reads (offsetOf : Obj → Nat) (plist obj : Obj) (read : Read (Plist × Option Objects)) : Prop :=
  ∃ objects', read = .ok (obj.decoded, objects') ∧ Remembers offsetOf plist objects'

/-- `create` reads the parts. -/
def CreatesParts (offsetOf : Obj → Nat) (plist : Obj) (create : Option Objects → Nat → Read (Plist × Option Objects)) (parts : List Obj) : Prop :=
  ∀ part ∈ parts, ∀ objects, Remembers offsetOf plist objects → Reads offsetOf plist part (create objects (offsetOf part))

variable {objects : Option Objects} {create : Option Objects → Nat → Read (Plist × Option Objects)}

theorem Remembers.remember (remembers : Remembers offsetOf plist objects) (isSub : obj ∈ plist.subs) (shared : Bool) :
    Remembers offsetOf plist (remember objects shared (offsetOf obj) obj.decoded) := by
  rw [BinaryPlist.remember]
  split
  case isFalse => exact remembers
  case isTrue =>
  cases objects with
  | none => exact remembers
  | some objects =>
    intro off value found
    rw [Option.map_some, Option.getD_some, lookup_cons] at found
    split at found
    case h_1 same => exact ⟨obj, isSub, (beq_iff_eq.mp same).symm, (Option.some.inj found).symm⟩
    case h_2 => exact remembers off value found

theorem length_refBytes (small : trailer.objectRefSize ≤ 4) (obj : Obj) :
    (refBytes objtable trailer.objectRefSize obj).length = trailer.objectRefSize := by
  rw [refBytes, length_drop, length_bigEndian]
  omega

variable (image : Image file trailer objtable offsetOf plist)
include image

/-- The loop over the references reads the parts, if `create` reads each of them. -/
theorem createParts_spec {parts : List Obj} (areSubs : ∀ part ∈ parts, part ∈ plist.subs) (creates : CreatesParts offsetOf plist create parts)
    {keys ptr : Nat} (primitive : ∀ part ∈ parts.take keys, part.decoded.isPrimitive) (behindHeader : 8 ≤ ptr)
    (beforeTable : ptr + parts.length * trailer.objectRefSize ≤ trailer.offsetTableOffset)
    (placed : Placed file.bytes ptr (refsBytes objtable trailer.objectRefSize parts)) (remembers : Remembers offsetOf plist objects) :
    ∃ objects', createParts file trailer create keys parts.length ptr objects = .ok (parts.map Obj.decoded, objects') ∧
      Remembers offsetOf plist objects' := by
  induction parts generalizing keys ptr objects with
  | nil => exact ⟨objects, rfl, remembers⟩
  | cons part parts ih =>
    rw [length_cons, Nat.succ_mul] at beforeTable
    have later := placed.right
    rw [length_refBytes image.refSize_le] at later
    have isOffset := image.refs part (areSubs part mem_cons_self) ptr behindHeader (by omega) placed.left
    obtain ⟨_, created, remembers₁⟩ := creates part mem_cons_self objects remembers
    have isKey : keys = 0 ∨ part.decoded.isPrimitive := by
      cases keys with
      | zero => exact .inl rfl
      | succ keys => exact .inr (primitive part mem_cons_self)
    have primitive' : ∀ part ∈ parts.take (keys - 1), part.decoded.isPrimitive := by
      cases keys with
      | zero => exact nofun
      | succ keys => exact fun part inKeys => primitive part (mem_cons_of_mem _ inKeys)
    obtain ⟨objects', rest, remembers'⟩ := ih (fun part inParts => areSubs part (mem_cons_of_mem _ inParts))
      (fun part inParts => creates part (mem_cons_of_mem _ inParts)) primitive' (by omega) (by omega) later remembers₁
    refine ⟨objects', ?_, remembers'⟩
    simp only [length_cons, createParts, isOffset, created, ok_bind, check_of isKey, rest, map_cons]
    rfl

theorem Image.inRange (wellFormed : WellFormed plist) (isSub : obj ∈ plist.subs)
    : 8 ≤ offsetOf obj ∧ offsetOf obj ≤ trailer.offsetTableOffset - 1 := by
  have beforeTable := image.beforeTable obj isSub
  have nonempty := Obj.bytes_ne_nil objtable trailer.objectRefSize (wellFormed.supported obj isSub)
  have := length_pos_iff.mpr nonempty
  exact ⟨image.behindHeader obj isSub, by omega⟩

/-- The count and the references of an object with parts. -/
theorem readHeader (isSub : obj ∈ plist.subs) (inMemory : obj.parts.length * 8 < 2 ^ 64) {kind : Byte} {count : Nat}
    (isKind : IsKind kind) (few : count ≤ obj.parts.length)
    (bytes : obj.bytes objtable trailer.objectRefSize = countBytes kind count ++ refsBytes objtable trailer.objectRefSize obj.parts) :
    ∃ ptr, file.byte (offsetOf obj) = .ok (countMarker kind count) ∧ file.ptrAdd (offsetOf obj) 1 = .ok (offsetOf obj + 1) ∧
      readCount file (countMarker kind count) (offsetOf obj + 1) (trailer.offsetTableOffset - 1) = .ok (count, ptr) ∧
      checkRefs file trailer ptr obj.parts.length = .ok () ∧ 8 ≤ ptr ∧
      ptr + obj.parts.length * trailer.objectRefSize ≤ trailer.offsetTableOffset ∧
      Placed file.bytes ptr (refsBytes objtable trailer.objectRefSize obj.parts) := by
  have placed := image.placed obj isSub
  have beforeTable := image.beforeTable obj isSub
  have behindHeader := image.behindHeader obj isSub
  have tableInside := image.tableInside
  have isIndex := file.isIndex
  have size : (refsBytes objtable trailer.objectRefSize obj.parts).length = obj.parts.length * trailer.objectRefSize := by
    simp [refsBytes, length_flatMap, length_refBytes image.refSize_le]
  rw [bytes] at placed
  rw [bytes, length_append, size] at beforeTable
  have marker := length_countBytes kind count
  refine ⟨offsetOf obj + (countBytes kind count).length, byte_placed placed.left, ptrAdd_inside (by omega),
    readCount_placed isKind (by omega) placed.left (by omega), ?_, by omega, by omega, placed.right⟩
  rw [checkRefs, sizeMul_small (by omega), ok_bind, ptrAdd_inside (by omega), ok_bind, check_of (by omega), ok_bind, sizeMul_small inMemory]
  rfl

omit image

section ReadObject

variable {option : Mutability} {ptr : Nat} (image : Image file trailer objtable offsetOf plist) (wellFormed : WellFormed plist)
  (remembers : Remembers offsetOf plist objects)
include image wellFormed remembers

theorem readObject_leaf {content : Leaf} (isSub : .leaf ptr content ∈ plist.subs) :
    Reads offsetOf plist (.leaf ptr content) (readObject file trailer option create objects (offsetOf (.leaf ptr content))) := by
  have inRange := image.inRange wellFormed isSub
  have beforeTable := image.beforeTable _ isSub
  have placed := image.placed _ isSub
  rw [Obj.bytes] at beforeTable placed
  obtain ⟨_, _, bytes, notArray, notSet, notDict, read⟩ := readLeaf_placed (wellFormed.supported _ isSub) placed
    (by omega : _ ≤ trailer.offsetTableOffset - 1 + 1)
  rw [bytes] at placed
  refine ⟨_, ?_, remembers.remember isSub (content.decoded.isRemembered option)⟩
  simp only [readObject, check_of inRange, byte_placed placed, ok_bind, notArray, notSet, notDict, or_self, if_false, read]
  rfl

theorem readObject_array {values : List Obj} (isSub : .array ptr values ∈ plist.subs)
    (areSubs : ∀ part ∈ values, part ∈ plist.subs) (creates : CreatesParts offsetOf plist create values) :
    Reads offsetOf plist (.array ptr values) (readObject file trailer option create objects (offsetOf (.array ptr values))) := by
  have inRange := image.inRange wellFormed isSub
  obtain ⟨_, isMarker, next, isCount, checked, later, beforeTable, placed⟩ :=
    readHeader image isSub (wellFormed.inMemory _ isSub) isKind_array (le_refl values.length) rfl
  obtain ⟨objects', created, remembers'⟩ := createParts_spec image areSubs creates
    (by simp : ∀ part ∈ values.take 0, _) later beforeTable placed remembers
  rw [Obj.parts] at checked
  refine ⟨_, ?_, remembers'.remember isSub (option = .immutable)⟩
  simp only [readObject, check_of inRange, isMarker, ok_bind, countMarker_kind isKind_array, true_or, if_true, next, isCount,
    checked, created]
  rw [Obj.decoded, decodedOf_eq_map]
  rfl

theorem readObject_dict {keys values : List Obj} (isSub : .dict ptr keys values ∈ plist.subs)
    (areSubs : ∀ part ∈ keys ++ values, part ∈ plist.subs) (creates : CreatesParts offsetOf plist create (keys ++ values)) :
    Reads offsetOf plist (.dict ptr keys values) (readObject file trailer option create objects (offsetOf (.dict ptr keys values))) := by
  have inRange := image.inRange wellFormed isSub
  have paired := wellFormed.paired _ _ _ isSub
  have inMemory : (keys ++ values).length * 8 < 2 ^ 64 := wellFormed.inMemory _ isSub
  have double : (keys ++ values).length = keys.length * 2 := by
    rw [length_append]
    omega
  obtain ⟨_, isMarker, next, isCount, checked, later, beforeTable, placed⟩ :=
    readHeader image isSub inMemory isKind_dict (by rw [Obj.parts]; omega) rfl
  have primitive : ∀ part ∈ (keys ++ values).take keys.length, part.decoded.isPrimitive := by
    intro part isKey
    rw [take_left] at isKey
    exact isPrimitive_of_chars (wellFormed.strings _ _ _ isSub part isKey)
  obtain ⟨objects', created, remembers'⟩ := createParts_spec image areSubs creates primitive later beforeTable placed
    remembers
  rw [Obj.parts] at checked
  rw [double] at created checked inMemory
  refine ⟨_, ?_, remembers'.remember isSub (option = .immutable)⟩
  simp only [readObject, check_of inRange, isMarker, ok_bind, countMarker_kind isKind_dict, next, isCount,
    sizeMul_small (by omega : keys.length * 2 < 2 ^ 64), Nat.mul_div_cancel _ (by decide : 0 < 2), checked, created]
  rw [if_neg (by decide), if_pos trivial, map_append]
  rw [Obj.decoded, decodedOf_eq_map, decodedOf_eq_map, take_left' (length_map _), drop_left' (length_map _)]
  rfl

end ReadObject

variable {path : Option (List Nat)}

theorem mem_extendPath {curDepth startOffset off : Nat} (onPath : off ∈ (extendPath path curDepth startOffset).getD [])
    : off = startOffset ∨ off ∈ path.getD [] := by
  cases path with
  | some set => exact mem_cons.mp onPath
  | none =>
    rw [extendPath] at onPath
    split at onPath
    · exact .inl (mem_singleton.mp onPath)
    · cases onPath

/-- The object at an offset is read, with enough fuel, unless the path says that it is being read. -/
theorem createObject_spec (image : Image file trailer objtable offsetOf plist) (wellFormed : WellFormed plist) (option : Mutability)
    (isSub : obj ∈ plist.subs) {fuel : Nat} (enough : obj.height < fuel)
    (notAbove : ∀ off ∈ path.getD [], ∀ sub ∈ obj.subs, offsetOf sub ≠ off) {curDepth : Nat}
    (remembers : Remembers offsetOf plist objects) :
    Reads offsetOf plist obj (createObject file trailer option fuel path curDepth objects (offsetOf obj)) := by
  induction obj using Obj.induction generalizing fuel path curDepth objects with
  | step obj ih =>
    obtain ⟨fuel, rfl⟩ := Nat.exists_eq_add_of_lt (Nat.zero_lt_of_lt enough)
    rw [Nat.zero_add] at enough ⊢
    have notOnPath : offsetOf obj ∉ path.getD [] := fun onPath => notAbove _ onPath obj obj.self_mem_subs rfl
    rw [createObject]
    cases found : (objects.getD []).lookup (offsetOf obj) with
    | some value =>
      obtain ⟨obj', isSub', same, isValue⟩ := remembers _ _ found
      rw [image.apart obj' isSub' obj isSub same] at isValue
      exact ⟨objects, by rw [isValue], remembers⟩
    | none =>
      -- the parts are read with one unit of fuel less and this object on the path
      have creates : CreatesParts offsetOf plist
          (createObject file trailer option fuel (extendPath path curDepth (offsetOf obj)) (curDepth + 1)) obj.parts := by
        intro part isPart objects remembers
        have isSub' : ∀ sub ∈ part.subs, sub ∈ plist.subs := fun sub isInner => Obj.subs_trans (Obj.subs_of_mem_parts isPart isInner) isSub
        refine ih part isPart (isSub' part part.self_mem_subs)
          (Nat.lt_of_lt_of_le (Obj.height_lt_of_mem_parts isPart) (Nat.le_of_lt_succ enough)) ?_ remembers
        intro off onPath sub isInner
        rcases mem_extendPath onPath with rfl | above
        · exact fun same => Obj.ne_of_mem_part isPart isInner (image.apart sub (isSub' sub isInner) obj isSub same)
        · exact notAbove off above sub (Obj.subs_of_mem_parts isPart isInner)
      have areSubs : ∀ part ∈ obj.parts, part ∈ plist.subs := fun part => Obj.mem_subs_of_mem_parts isSub
      simp only [check_of notOnPath, ok_bind]
      cases obj with
      | leaf ptr content => exact readObject_leaf image wellFormed remembers isSub
      | array ptr values => exact readObject_array image wellFormed remembers isSub areSubs creates
      | dict ptr keys values => exact readObject_dict image wellFormed remembers isSub areSubs creates

/-- An object is read when nothing has been read yet. -/
theorem binaryPlistCreateObject_spec (image : Image file trailer objtable offsetOf plist) (wellFormed : WellFormed plist) (option : Mutability)
    (isSub : obj ∈ plist.subs) (low : obj.height < file.bytes.length + 18) (empty : objects.getD [] = []) :
    ∃ objects', binaryPlistCreateObject file trailer (offsetOf obj) option objects = .ok (obj.decoded, objects') := by
  have noneRead : Remembers offsetOf plist objects := by
    rw [Remembers, empty]
    exact nofun
  obtain ⟨objects', created, -⟩ : Reads offsetOf plist obj (createObject file trailer option _ none 0 objects (offsetOf obj)) :=
    createObject_spec image wellFormed option isSub low (by simp) noneRead
  exact ⟨objects', created⟩

end Decode

end DarwinNotes.CF.BinaryPlist
