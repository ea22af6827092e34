import DarwinNotes.CF.BinaryPlist.Decode

/-!
# The written file is an image

The file that is written for a property list has its objects where the offsets say, and
the reader accepts its top level.
-/

namespace DarwinNotes.CF.BinaryPlist
open Lib List

/-! ## The list of the objects -/

section Flattened

variable {plist : Obj}

theorem entered_flattened (plist : Obj) : (flattened plist).Entered plist.subs := by
  have none : Flat.Entered ⟨[], [], []⟩ [] := ⟨nofun, nofun, nofun, nofun⟩
  rw [flattened, flattenPlist_eq]
  exact none.foldl plist.subs

/-- The number of an object is a place in the list where the object is. -/
theorem getElem?_refnum (wellFormed : WellFormed plist) (few : (flattened plist).objlist.length < 2 ^ 32) {obj : Obj}
    (isSub : obj ∈ plist.subs) : (flattened plist).objlist[refnum (flattened plist).objtable obj]? = some obj := by
  have entered := entered_flattened plist
  obtain ⟨i, isNumber⟩ := Option.isSome_iff_exists.mp (entered.known obj isSub)
  obtain ⟨obj', inList, same⟩ := entered.numbered few.le obj.ptr i isNumber
  have inBounds := (List.getElem?_eq_some_iff.mp inList).1
  have isSub' := entered.members obj' (mem_of_getElem? inList)
  rw [refnum, isNumber, Option.getD_some, Nat.mod_eq_of_lt (by omega), inList, wellFormed.shared obj' isSub' obj isSub same]

/-- The property list itself has the number 0. -/
theorem refnum_top (plist : Obj) : refnum (flattened plist).objtable plist = 0 := by
  have entered : (Flat.enter ⟨[], [], []⟩ plist).objtable = [(plist.ptr, 0)] := by
    rw [Flat.enter]
    split <;> rfl
  have isNumber : (Flat.enter ⟨[], [], []⟩ plist).objtable.lookup plist.ptr = some 0 := by rw [entered, lookup_cons_self]
  rw [refnum, flattened, flattenPlist_eq, Obj.subs_eq, foldl_cons, Flat.lookup_foldl_enter isNumber]
  rfl

end Flattened

/-! ## The pieces of the file -/

namespace Flat

variable (flat : Flat)

theorem length_objectBytes : flat.objectBytes.length = 8 + (flat.objlist.map flat.bytesOf).flatten.length := by
  rw [objectBytes, length_append, flatMap_def]
  rfl

theorem placed_objects : Placed flat.fileBytes 8 (flat.objlist.map flat.bytesOf).flatten := by
  rw [fileBytes, objectBytes, flatMap_def, append_assoc _ _ flat.trailer.bytes]
  exact placed_append header _ _

theorem placed_offsets :
    Placed flat.fileBytes flat.trailer.offsetTableOffset (flat.offsets.flatMap (bigEndian flat.trailer.offsetIntSize)) :=
  placed_append flat.objectBytes _ _

theorem placed_trailer : Placed flat.fileBytes (flat.fileBytes.length - 32) flat.trailer.bytes := by
  have start : flat.fileBytes.length - 32 = (flat.objectBytes ++ flat.offsets.flatMap (bigEndian flat.trailer.offsetIntSize)).length := by
    rw [fileBytes, length_append, length_trailer_bytes, Nat.add_sub_cancel]
  rw [start, fileBytes, ← append_nil (_ ++ flat.trailer.bytes)]
  exact placed_append _ _ _

variable {flat}

/-- Each object of the list is where its offset says. -/
theorem placed_object {i : Nat} {obj : Obj} (inList : flat.objlist[i]? = some obj) :
    ∃ off, flat.offsets[i]? = some off ∧ Placed flat.fileBytes off (flat.bytesOf obj) ∧ 8 ≤ off ∧
      off + (flat.bytesOf obj).length ≤ flat.trailer.offsetTableOffset := by
  have isPiece : (flat.objlist.map flat.bytesOf)[i]? = some (flat.bytesOf obj) := by rw [getElem?_map, inList, Option.map_some]
  obtain ⟨off, isStart, placed, later, inside⟩ := placed_starts flat.placed_objects isPiece
  rw [← length_objectBytes] at inside
  exact ⟨off, isStart, placed, later, inside⟩

theorem nodup_offsets (supported : ∀ obj ∈ flat.objlist, obj.Supported) : flat.offsets.Nodup := by
  refine nodup_starts fun piece isPiece => ?_
  obtain ⟨obj, inList, rfl⟩ := mem_map.mp isPiece
  exact Obj.bytes_ne_nil _ _ (supported obj inList)

theorem lt_of_mem_offsets (supported : ∀ obj ∈ flat.objlist, obj.Supported) {off : Nat} (inTable : off ∈ flat.offsets) :
    off < flat.trailer.offsetTableOffset := by
  obtain ⟨i, isOffset⟩ := mem_iff_getElem?.mp inTable
  have bound := (List.getElem?_eq_some_iff.mp isOffset).1
  rw [offsets, length_starts, length_map] at bound
  obtain ⟨_, isOffset', -, -, inside⟩ := placed_object (getElem?_eq_getElem bound)
  have nonempty := length_pos_iff.mpr (Obj.bytes_ne_nil flat.objtable flat.refSize
    (supported _ (getElem_mem bound)))
  rw [isOffset, Option.some.injEq] at isOffset'
  rw [isOffset']
  exact Nat.lt_of_lt_of_le (Nat.lt_add_of_pos_right nonempty) inside

end Flat

/-! ## The image -/

section Image

variable {plist : Obj} {file : File}

/-- Where an object is in the file. -/
def offsetOf (plist obj : Obj) : Nat := (flattened plist).offsets.getD (refnum (flattened plist).objtable obj) 0

theorem supported_flattened (wellFormed : WellFormed plist) : ∀ obj ∈ (flattened plist).objlist, obj.Supported :=
  fun obj inList => wellFormed.supported obj ((entered_flattened plist).members obj inList)

/-- The offset of an object is in the table, at the number of the object. -/
theorem getElem?_offsets (wellFormed : WellFormed plist) (few : (flattened plist).objlist.length < 2 ^ 32) {obj : Obj}
    (isSub : obj ∈ plist.subs) : (flattened plist).offsets[refnum (flattened plist).objtable obj]? = some (offsetOf plist obj) ∧
      Placed (flattened plist).fileBytes (offsetOf plist obj) ((flattened plist).bytesOf obj) ∧ 8 ≤ offsetOf plist obj ∧
      offsetOf plist obj + ((flattened plist).bytesOf obj).length ≤ (flattened plist).trailer.offsetTableOffset := by
  obtain ⟨off, isOffset, facts⟩ := Flat.placed_object (getElem?_refnum wellFormed few isSub)
  have same : offsetOf plist obj = off := by rw [offsetOf, getD_eq_getElem?_getD, isOffset, Option.getD_some]
  rw [same]
  exact ⟨isOffset, facts⟩

theorem getSizedInt_offsets (isFile : file.bytes = (flattened plist).fileBytes) {i off : Nat}
    (isOffset : (flattened plist).offsets[i]? = some off)
    (inside : off < (flattened plist).trailer.offsetTableOffset) :
    getSizedInt file ((flattened plist).trailer.offsetTableOffset + i * (flattened plist).trailer.offsetIntSize)
      (flattened plist).trailer.offsetIntSize = .ok off := by
  have isIndex := file.isIndex
  have table : (flattened plist).trailer.offsetTableOffset ≤ file.bytes.length := by
    rw [isFile, Flat.length_fileBytes]
    exact Nat.le_trans (Nat.le_add_right _ _) (Nat.le_add_right _ _)
  have placed := (flattened plist).placed_offsets.flatMap (length_bigEndian _) isOffset
  rw [← isFile] at placed
  exact getSizedInt_bigEndian placed (byteCount_le _) (inside.trans (lt_byteCount (by omega)))

theorem image_written (wellFormed : WellFormed plist) (few : (flattened plist).objlist.length < 2 ^ 32)
    (isFile : file.bytes = (flattened plist).fileBytes) :
    Image file (flattened plist).trailer (flattened plist).objtable (offsetOf plist) plist where
  tableInside := by
    rw [isFile, Flat.length_fileBytes]
    exact Nat.le_trans (Nat.le_add_right _ _) (Nat.le_add_right _ _)
  refSize_pos := byteCount_pos _
  refSize_le := byteCount_le_four few
  placed obj isSub := by
    rw [isFile]
    exact (getElem?_offsets wellFormed few isSub).2.1
  behindHeader obj isSub := (getElem?_offsets wellFormed few isSub).2.2.1
  beforeTable obj isSub := (getElem?_offsets wellFormed few isSub).2.2.2
  refs obj isSub ptr behindHeader beforeTable placed := by
    have inList : refnum (flattened plist).objtable obj < (flattened plist).trailer.numObjects :=
      (List.getElem?_eq_some_iff.mp (getElem?_refnum wellFormed few isSub)).1
    obtain ⟨isOffset, -, -, _⟩ := getElem?_offsets wellFormed few isSub
    have nonempty : 0 < ((flattened plist).bytesOf obj).length := length_pos_iff.mpr (Obj.bytes_ne_nil _ _ (wellFormed.supported obj isSub))
    have small : (flattened plist).trailer.objectRefSize ≤ 4 := byteCount_le_four few
    rw [refBytes, drop_bigEndian_of_le small] at placed
    rw [getOffsetOfRefAt, if_neg (by omega), getSizedInt_bigEndian placed (by omega)
      (inList.trans (lt_byteCount (few.trans (by decide)))), ok_bind, if_neg (Nat.not_le.mpr inList)]
    exact getSizedInt_offsets isFile isOffset (by omega)
  apart obj isSub obj' isSub' same := by
    have isOffset := (getElem?_offsets wellFormed few isSub).1
    have isOffset' := (getElem?_offsets wellFormed few isSub').1
    rw [← same, ← isOffset] at isOffset'
    have bound := (List.getElem?_eq_some_iff.mp isOffset).1
    have number := (getElem?_inj bound (Flat.nodup_offsets (supported_flattened wellFormed))).mp isOffset'.symm
    have inList := getElem?_refnum wellFormed few isSub
    rw [number, getElem?_refnum wellFormed few isSub'] at inList
    exact (Option.some.inj inList).symm

end Image

/-! ## The top level -/

section TopLevel

variable {plist : Obj} {file : File}

theorem readTrailer_placed {trailer : Trailer} (intSize : trailer.offsetIntSize < 256) (refSize : trailer.objectRefSize < 256)
    (objects : trailer.numObjects < 2 ^ 64) (top : trailer.topObject < 2 ^ 64) (table : trailer.offsetTableOffset < 2 ^ 64)
    (placed : Placed file.bytes (file.bytes.length - 32) trailer.bytes) : readTrailer file = .ok trailer := by
  have isByte : ∀ {i : Nat} {byte : Byte}, i < 32 → trailer.bytes[i]? = some byte → file.byte (file.bytes.length - 32 + i) = .ok byte := by
    intro i byte inside isByte
    rw [File.byte, placed.getElem? (by rwa [Flat.length_trailer_bytes]), isByte]
  have first : Placed file.bytes (file.bytes.length - 32 + 8) (bigEndian 8 trailer.numObjects) := placed.left.left.right
  have second : Placed file.bytes (file.bytes.length - 32 + 16) (bigEndian 8 trailer.topObject) := placed.left.right
  have third : Placed file.bytes (file.bytes.length - 32 + 24) (bigEndian 8 trailer.offsetTableOffset) := placed.right
  rw [readTrailer, isByte (by decide) (rfl : trailer.bytes[6]? = _), ok_bind,
    isByte (by decide) (rfl : trailer.bytes[7]? = _), ok_bind, getSizedInt_bigEndian first le_rfl objects, ok_bind,
    getSizedInt_bigEndian second le_rfl top, ok_bind, getSizedInt_bigEndian third le_rfl table, ok_bind,
    BitVec.toNat_ofNat, BitVec.toNat_ofNat, Nat.mod_eq_of_lt intSize, Nat.mod_eq_of_lt refSize]
  rfl

theorem checkOffsets_placed {offsets : List Nat} {size maxOffset ptr : Nat} (narrow : size ≤ 8)
    (inside : ∀ off ∈ offsets, off ≤ maxOffset ∧ off < 256 ^ size)
    (placed : Placed file.bytes ptr (offsets.flatMap (bigEndian size))) : checkOffsets file size maxOffset offsets.length ptr = .ok () := by
  induction offsets generalizing ptr with
  | nil => rfl
  | cons off _ ih =>
    obtain ⟨small, fits⟩ := inside off mem_cons_self
    have later := placed.right
    rw [length_bigEndian] at later
    rw [length_cons, checkOffsets, getSizedInt_bigEndian placed.left narrow fits, ok_bind, check_of small, ok_bind,
      ih (fun off inList => inside off (mem_cons_of_mem _ inList)) later]

/-- The reader accepts the top level of a file that has a header, objects, offsets and a trailer. -/
theorem getTopLevelInfo_eq {trailer : Trailer} {offsets : List Nat} {off : Nat}
    (length : file.bytes.length = trailer.offsetTableOffset + trailer.numObjects * trailer.offsetIntSize + 32)
    (magic : Placed file.bytes 0 (header.take 7))
    (placedTrailer : Placed file.bytes (file.bytes.length - 32) trailer.bytes)
    (placedOffsets : Placed file.bytes trailer.offsetTableOffset (offsets.flatMap (bigEndian trailer.offsetIntSize)))
    (count : offsets.length = trailer.numObjects) (inside : ∀ off ∈ offsets, off < trailer.offsetTableOffset)
    (isTop : offsets[trailer.topObject]? = some off) (behindHeader : 8 ≤ off)
    (intSize_pos : 1 ≤ trailer.offsetIntSize) (intSize_le : trailer.offsetIntSize ≤ 8)
    (refSize_pos : 1 ≤ trailer.objectRefSize) (refSize_le : trailer.objectRefSize ≤ 8)
    (tableFits : trailer.offsetTableOffset < 256 ^ trailer.offsetIntSize)
    (objectsFit : trailer.numObjects < 256 ^ trailer.objectRefSize) : ∃ marker, getTopLevelInfo file = .ok (marker, off, trailer) := by
  have isIndex := file.isIndex
  have topObject : trailer.topObject < trailer.numObjects := count ▸ (List.getElem?_eq_some_iff.mp isTop).1
  have offInside := inside off (mem_of_getElem? isTop)
  have wide : trailer.numObjects ≤ trailer.numObjects * trailer.offsetIntSize := Nat.le_mul_of_pos_right _ intSize_pos
  have copied : file.copy 0 7 = .ok (header.take 7) := copy_placed magic
  have read := readTrailer_placed (by omega) (by omega) (by omega) (by omega) (by omega) placedTrailer
  have powers : ∀ size, 256 ^ size = 2 ^ (8 * size) := fun size => by rw [Nat.pow_mul]
  have placedTop := placedOffsets.flatMap (length_bigEndian _) isTop
  have checked : checkOffsets file trailer.offsetIntSize (trailer.offsetTableOffset - 1) trailer.numObjects
      trailer.offsetTableOffset = .ok () := by
    rw [← count]
    refine checkOffsets_placed intSize_le (fun off inList => ?_) placedOffsets
    have := inside off inList
    exact ⟨by omega, this.trans tableFits⟩
  rw [powers] at tableFits objectsFit
  obtain ⟨marker, isMarker⟩ : ∃ marker, file.bytes[off]? = some marker := ⟨_, getElem?_eq_getElem (by omega)⟩
  have byte : file.byte off = .ok marker := by rw [File.byte, isMarker]
  refine ⟨marker, ?_⟩
  rw [getTopLevelInfo, check_of (by omega), ok_bind, copied, ok_bind, check_of rfl, ok_bind, read]
  simp only [ok_bind]
  rw [check_of (by omega), ok_bind, check_of (by omega), ok_bind, check_of (by omega), ok_bind, check_of topObject, ok_bind,
    check_of (by omega), ok_bind, check_of (by omega), ok_bind, check_of intSize_pos, ok_bind, check_of refSize_pos, ok_bind,
    sizeMul_small (by omega), ok_bind, check_of (by omega), ok_bind, check_of (by omega), ok_bind, check_of (by omega),
    ok_bind, check_of (fun _ => objectsFit), ok_bind, check_of (fun _ => tableFits), ok_bind, ptrAdd_inside (by omega),
    ok_bind, ptrAdd_inside (by omega), ok_bind, ptrAdd_inside (by omega), ok_bind, checked, ok_bind,
    getSizedInt_bigEndian placedTop intSize_le (by rw [powers]; omega), ok_bind, check_of (by omega), ok_bind, byte]
  rfl

/-- The reader accepts the top level of a written file, and reports the offset of the property list. -/
theorem getTopLevelInfo_written (wellFormed : WellFormed plist) (few : (flattened plist).objlist.length < 2 ^ 32)
    (isFile : file.bytes = (flattened plist).fileBytes) :
    ∃ marker, getTopLevelInfo file = .ok (marker, offsetOf plist plist, (flattened plist).trailer) := by
  have image := image_written wellFormed few isFile
  have isIndex := file.isIndex
  have tableInside := image.tableInside
  have isTop := (getElem?_offsets wellFormed few plist.self_mem_subs).1
  rw [refnum_top] at isTop
  refine getTopLevelInfo_eq ?_ ?_ ?_ ?_ ?_ ?_ isTop (image.behindHeader plist plist.self_mem_subs)
    (byteCount_pos _) (byteCount_le _) (byteCount_pos _) (byteCount_le _) (lt_byteCount ?_)
    (lt_byteCount (few.trans (by decide)))
  · rw [isFile, Flat.length_fileBytes, Flat.length_trailer_bytes]
    rfl
  · rw [isFile, Flat.fileBytes, Flat.objectBytes, ← take_append_drop 7 header, append_assoc, append_assoc, append_assoc]
    exact ⟨_, rfl⟩
  · rw [isFile]
    exact Flat.placed_trailer _
  · rw [isFile]
    exact Flat.placed_offsets _
  · rw [Flat.offsets, length_starts, length_map]
    rfl
  · exact fun off => Flat.lt_of_mem_offsets (supported_flattened wellFormed)
  · exact Nat.lt_of_le_of_lt tableInside (by omega)

end TopLevel

end DarwinNotes.CF.BinaryPlist
