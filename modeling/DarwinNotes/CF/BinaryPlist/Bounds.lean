import DarwinNotes.CF.BinaryPlist.Filter

/-!
# Reads inside the file

What the readers do with a file that comes from anywhere. Once the top level is accepted, every
integer, every object and every array is read inside the file, and the path ends every cycle. The search
of a dictionary is the exception: it looks at the marker of a key before it looks whether the reference
to the key is one.
-/

namespace DarwinNotes.CF.BinaryPlist
open Lib

/-! ## Computations that succeed or fail -/

/-- Nothing worse happens than a failure of the source. -/
def Safe {α : Type} (x : Read α) : Prop := ∀ e, x = .error e → e = .fail

variable {α : Type}

theorem Safe.ok (a : α) : Safe (.ok a : Read α) := nofun

theorem Safe.fail : Safe (.error .fail : Read α) := fun _ isError => by cases isError; rfl

theorem Safe.bind {β : Type} {x : Read α} {f : α → Read β} (first : Safe x) (second : ∀ a, x = .ok a → Safe (f a)) : Safe (x >>= f) := by
  cases x with
  | error e =>
    cases first e rfl
    exact Safe.fail
  | ok a => exact second a rfl

variable {condition : Prop}

theorem Safe.ite [Decidable condition] {x y : Read α} (first : condition → Safe x) (second : ¬ condition → Safe y)
    : Safe (if condition then x else y) := by
  split
  case isTrue holds => exact first holds
  case isFalse fails => exact second fails

theorem Safe.check (condition : Prop) [Decidable condition] : Safe (check condition) := Safe.ite (fun _ => Safe.ok _) fun _ => Safe.fail

theorem of_check [Decidable condition] {u : Unit} (checked : check condition = .ok u) : condition := by
  by_contra fails
  rw [check, if_neg fails] at checked
  cases checked

/-- A check, and what follows under its condition. -/
theorem Safe.check_bind {β : Type} [Decidable condition] {f : Unit → Read β} (second : condition → Safe (f ()))
    : Safe (BinaryPlist.check condition >>= f) := (Safe.check condition).bind fun _ checked => second (of_check checked)

section Bytes

variable {file : File}

theorem Safe.ptrAdd (ptr a : Nat) : Safe (file.ptrAdd ptr a) := Safe.ite (fun _ => Safe.fail) fun _ => Safe.ok _

variable {ptr : Nat}

theorem of_ptrAdd {a behind : Nat} (added : file.ptrAdd ptr a = .ok behind) : behind = ptr + a := by
  unfold File.ptrAdd at added
  split at added
  · cases added
  · cases added
    rfl

theorem Safe.sizeMul (b a : Nat) : Safe (sizeMul b a) :=
  Safe.ite (fun _ => Safe.ok _) fun _ => Safe.ite (fun _ => Safe.fail) fun _ => Safe.ok _

theorem of_sizeMul {b a product : Nat} (multiplied : sizeMul b a = .ok product) : product = b * a := by
  unfold sizeMul at multiplied
  split at multiplied
  case isTrue zero =>
    cases multiplied
    rw [zero, Nat.zero_mul]
  case isFalse =>
    split at multiplied
    · cases multiplied
    · cases multiplied
      rfl

theorem Safe.byte (inside : ptr < file.bytes.length) : Safe (file.byte ptr) := by
  rw [File.byte, List.getElem?_eq_getElem inside]
  exact Safe.ok _

theorem Safe.copy {count : Nat} (inside : ptr + count ≤ file.bytes.length) : Safe (file.copy ptr count) := by
  rw [File.copy, if_pos (.inr inside)]
  exact Safe.ok _

theorem shiftBytes_ok (size data res : Nat) (inside : data + size ≤ file.bytes.length) :
    ∃ value, shiftBytes file size data res = .ok value := by
  induction size generalizing data res with
  | zero => exact ⟨res, rfl⟩
  | succ _ ih =>
    have bound : data < file.bytes.length := by omega
    obtain ⟨value, shifted⟩ := ih (data + 1) (shiftIn res file.bytes[data] % 2 ^ 64) (by omega)
    refine ⟨value, ?_⟩
    rw [shiftBytes, File.byte, List.getElem?_eq_getElem bound]
    exact shifted

theorem getSizedInt_ok {data valSize : Nat} (inside : data + valSize ≤ file.bytes.length) :
    ∃ value, getSizedInt file data valSize = .ok value := by
  exact shiftBytes_ok _ _ _ (by omega)

theorem Safe.getSizedInt {data valSize : Nat} (inside : data + valSize ≤ file.bytes.length) : Safe (getSizedInt file data valSize) := by
  obtain ⟨_, read⟩ := getSizedInt_ok inside
  rw [read]
  exact Safe.ok _

variable {end_byte_ptr : Nat} (inside : end_byte_ptr < file.bytes.length)
include inside

theorem Safe.readInt : Safe (readInt file ptr end_byte_ptr) := by
  refine Safe.check_bind fun before => (Safe.byte (by omega)).bind fun marker _ => Safe.check_bind fun _ => ?_
  refine (Safe.ptrAdd _ _).bind fun behind added => Safe.check_bind fun inRange => ?_
  have := of_ptrAdd added
  exact (Safe.getSizedInt (by omega)).bind fun _ _ => Safe.ok _

theorem Safe.readCount {marker : Byte} : Safe (readCount file marker ptr end_byte_ptr) := by
  apply Safe.ite
  · exact fun _ => (Safe.readInt inside).bind fun _ _ => Safe.check_bind fun _ => Safe.ok _
  · exact fun _ => Safe.ok _

end Bytes

/-! ## Accepted files -/

/-- What the check of the top level leaves to rely on. -/
structure Accepted (file : File) (trailer : Trailer) : Prop where
  length : trailer.offsetTableOffset + trailer.numObjects * trailer.offsetIntSize + 32 = file.bytes.length
  behindHeader : 9 ≤ trailer.offsetTableOffset
  offsets : ∀ i < trailer.numObjects, ∀ off,
    getSizedInt file (trailer.offsetTableOffset + i * trailer.offsetIntSize) trailer.offsetIntSize = .ok off →
      off < trailer.offsetTableOffset

section Accepted

variable {file : File} {trailer : Trailer} {count : Nat}

theorem le_of_checkOffsets {size maxOffset ptr : Nat} {u : Unit} (checked : checkOffsets file size maxOffset count ptr = .ok u) {i : Nat}
    (inTable : i < count) {off : Nat} (isOffset : getSizedInt file (ptr + i * size) size = .ok off) : off ≤ maxOffset := by
  induction count generalizing ptr i with
  | zero => exact absurd inTable (Nat.not_lt_zero i)
  | succ _ ih =>
    obtain ⟨_, read, checked⟩ := bind_eq_ok.mp checked
    obtain ⟨_, small, rest⟩ := bind_eq_ok.mp checked
    cases i with
    | zero =>
      rw [Nat.zero_mul, Nat.add_zero, read] at isOffset
      cases isOffset
      exact of_check small
    | succ =>
      refine ih rest (Nat.lt_of_succ_lt_succ inTable) ?_
      rwa [Nat.add_assoc, Nat.add_comm size, ← Nat.succ_mul]

variable {marker : Byte}

theorem accepted_of_getTopLevelInfo {offset : Nat} (accepted : getTopLevelInfo file = .ok (marker, offset, trailer))
    : Accepted file trailer := by
  simp only [getTopLevelInfo, bind_eq_ok] at accepted
  obtain ⟨_, -, _, -, _, -, _, -, _, -, _, -, _, -, _, -, _, behindHeader, _, -, _, -, _, -, _, isSize, _, -,
    _, -, _, isLength, _, -, _, -, _, -, _, -, _, -, _, checked, _, -, _, -, _, -, accepted⟩ := accepted
  cases accepted
  have behindHeader := of_check behindHeader
  have isLength := of_check isLength
  rw [of_sizeMul isSize] at isLength
  refine ⟨by omega, behindHeader, fun i inTable off isOffset => ?_⟩
  have := le_of_checkOffsets checked inTable isOffset
  omega

/-! ## References -/

/-- The reference at a place of the file is below the number of objects. -/
def IsRef (file : File) (trailer : Trailer) (bytesptr : Nat) : Prop :=
  ∃ ref, getSizedInt file bytesptr trailer.objectRefSize = .ok ref ∧ ref < trailer.numObjects

/-- A reference has an offset before the offset table, and what is not a reference has the offset
`UINT64_MAX`. -/
theorem getOffsetOfRefAt_cases (accepted : Accepted file trailer) {bytesptr : Nat} (behindHeader : 8 ≤ bytesptr)
    (beforeTable : bytesptr + trailer.objectRefSize ≤ trailer.offsetTableOffset) :
    (IsRef file trailer bytesptr ∧ ∃ off < trailer.offsetTableOffset, getOffsetOfRefAt file trailer bytesptr = .ok off) ∨
      ¬ IsRef file trailer bytesptr ∧ getOffsetOfRefAt file trailer bytesptr = .ok (2 ^ 64 - 1) := by
  have length := accepted.length
  obtain ⟨ref, read⟩ := getSizedInt_ok (by omega : bytesptr + trailer.objectRefSize ≤ file.bytes.length)
  have isRef_iff : IsRef file trailer bytesptr ↔ ref < trailer.numObjects := by
    constructor
    · rintro ⟨_, read', isRef⟩
      rw [read] at read'
      cases read'
      exact isRef
    · exact fun isRef => ⟨ref, read, isRef⟩
  rw [isRef_iff, getOffsetOfRefAt, if_neg (by omega), read, ok_bind]
  by_cases isRef : ref < trailer.numObjects
  · have room : (ref + 1) * trailer.offsetIntSize ≤ trailer.numObjects * trailer.offsetIntSize :=
      Nat.mul_le_mul_right _ isRef
    rw [Nat.succ_mul] at room
    obtain ⟨off, isOffset⟩ := getSizedInt_ok (by omega :
      trailer.offsetTableOffset + ref * trailer.offsetIntSize + trailer.offsetIntSize ≤ file.bytes.length)
    rw [if_neg (by omega)]
    exact .inl ⟨isRef, off, accepted.offsets ref isRef off isOffset, isOffset⟩
  · rw [if_pos (by omega)]
    exact .inr ⟨isRef, rfl⟩

theorem Safe.getOffsetOfRefAt (accepted : Accepted file trailer) (bytesptr : Nat) : Safe (getOffsetOfRefAt file trailer bytesptr) := by
  by_cases outside : bytesptr < 8 ∨ trailer.offsetTableOffset < bytesptr + trailer.objectRefSize
  · rw [BinaryPlist.getOffsetOfRefAt, if_pos outside]
    exact Safe.ok _
  · have read := @getOffsetOfRefAt_cases _ _ accepted bytesptr (by omega) (by omega)
    rcases read with ⟨-, _, -, isOffset⟩ | ⟨-, isOffset⟩ <;> rw [isOffset] <;> exact Safe.ok _

/-! ## Objects -/

theorem Safe.block (startOffset count objectsRangeEnd : Nat) : Safe (block file startOffset count objectsRangeEnd) :=
  (Safe.ptrAdd _ _).bind fun _ _ => (Safe.ptrAdd _ _).bind fun _ _ => Safe.check_bind fun _ => Safe.ok _

variable {startOffset objectsRangeEnd : Nat}

theorem of_block {ptr : Nat} (isBlock : block file startOffset count objectsRangeEnd = .ok ptr) : ptr + count ≤ objectsRangeEnd + 1 := by
  obtain ⟨_, _, isBlock⟩ := bind_eq_ok.mp isBlock
  obtain ⟨_, added', isBlock⟩ := bind_eq_ok.mp isBlock
  obtain ⟨_, inside, isBlock⟩ := bind_eq_ok.mp isBlock
  have inside := of_check inside
  rw [of_ptrAdd added'] at inside
  cases isBlock
  omega

variable (inside : objectsRangeEnd < file.bytes.length)
include inside

theorem Safe.block_copy {β : Type} {f : List Byte → Read β} (second : ∀ bytes, Safe (f bytes)) :
    Safe (BinaryPlist.block file startOffset count objectsRangeEnd >>= fun ptr => file.copy ptr count >>= f) := by
  refine (Safe.block _ _ _).bind fun ptr isBlock => ?_
  have := of_block isBlock
  exact (Safe.copy (by omega)).bind fun bytes _ => second bytes

theorem Safe.readCounted : Safe (readCounted file objectsRangeEnd startOffset marker) := by
  refine (Safe.ptrAdd _ _).bind fun _ _ => (Safe.readCount inside).bind fun ⟨cnt, ptr⟩ _ => ?_
  refine (Safe.ptrAdd _ _).bind fun behind added => Safe.check_bind fun inRange => ?_
  rw [of_ptrAdd added] at inRange
  exact Safe.copy (by omega)

theorem Safe.readUnicode : Safe (readUnicode file objectsRangeEnd startOffset marker) := by
  refine (Safe.ptrAdd _ _).bind fun _ _ => (Safe.readCount inside).bind fun ⟨cnt, ptr⟩ _ => ?_
  refine (Safe.ptrAdd _ _).bind fun behind added => (Safe.ptrAdd _ _).bind fun extent added' => ?_
  refine Safe.check_bind fun inRange => (Safe.sizeMul _ _).bind fun byte_cnt multiplied => ?_
  rw [of_ptrAdd added', of_ptrAdd added] at inRange
  have size := of_sizeMul multiplied
  exact (Safe.copy (by omega)).bind fun _ _ => Safe.ok _

omit inside

theorem Safe.readNull (marker : Byte) : Safe (readNull marker) :=
  Safe.ite (fun _ => Safe.ok _) fun _ => Safe.ite (fun _ => Safe.ok _) fun _ => Safe.ite (fun _ => Safe.ok _) fun _ => Safe.fail

section

variable (inside : objectsRangeEnd < file.bytes.length)
include inside

theorem Safe.readIntObject : Safe (readIntObject file objectsRangeEnd startOffset marker) := by
  refine (Safe.block _ _ _).bind fun ptr isBlock => Safe.check_bind fun _ => ?_
  have := of_block isBlock
  exact (Safe.getSizedInt (by omega)).bind fun _ _ => Safe.ok _

theorem Safe.readUID : Safe (readUID file objectsRangeEnd startOffset marker) := by
  refine (Safe.block _ _ _).bind fun ptr isBlock => ?_
  have := of_block isBlock
  exact (Safe.getSizedInt (by omega)).bind fun _ _ => Safe.check_bind fun _ => Safe.ok _

theorem Safe.readReal : Safe (readReal file objectsRangeEnd startOffset marker) := by
  apply Safe.ite
  · exact fun _ => Safe.block_copy inside fun _ => Safe.ok _
  · exact fun _ => Safe.ite (fun _ => Safe.block_copy inside fun _ => Safe.ok _) fun _ => Safe.fail

theorem Safe.readLeaf : Safe (readLeaf file objectsRangeEnd startOffset marker) := by
  apply Safe.ite (fun _ => Safe.readNull _)
  refine fun _ => Safe.ite (fun _ => Safe.readIntObject inside) fun _ => ?_
  refine Safe.ite (fun _ => Safe.readReal inside) fun _ => ?_
  refine Safe.ite (fun _ => Safe.ite (fun _ => Safe.block_copy inside fun _ => Safe.ok _) fun _ => Safe.fail) fun _ => ?_
  refine Safe.ite (fun _ => (Safe.readCounted inside).bind fun _ _ => Safe.ok _) fun _ => ?_
  refine Safe.ite (fun _ => (Safe.readCounted inside).bind fun _ _ => Safe.ok _) fun _ => ?_
  refine Safe.ite (fun _ => Safe.readUnicode inside) fun _ => ?_
  exact Safe.ite (fun _ => Safe.readUID inside) fun _ => Safe.fail

end

theorem Safe.checkRefs (ptr count : Nat) : Safe (checkRefs file trailer ptr count) :=
  (Safe.sizeMul _ _).bind fun _ _ => (Safe.ptrAdd _ _).bind fun _ _ => Safe.check_bind fun _ => (Safe.sizeMul _ _).bind fun _ _ => Safe.ok _

theorem Safe.checkExtent (ptr count : Nat) : Safe (checkExtent file trailer ptr count) :=
  (Safe.sizeMul _ _).bind fun _ _ => (Safe.ptrAdd _ _).bind fun _ _ => Safe.check _

variable (accepted : Accepted file trailer)
include accepted

variable {create : Option Objects → Nat → Read (Plist × Option Objects)}

theorem Safe.createParts (creates : ∀ objects off, Safe (create objects off)) (keys count ptr : Nat) (objects : Option Objects)
    : Safe (createParts file trailer create keys count ptr objects) := by
  induction count generalizing keys ptr objects with
  | zero => exact Safe.ok _
  | succ _ ih =>
    refine (Safe.getOffsetOfRefAt accepted ptr).bind fun off _ => (creates objects off).bind fun ⟨pl, objects⟩ _ => ?_
    exact Safe.check_bind fun _ => (ih _ _ _).bind fun _ _ => Safe.ok _

/-- An object is read safely if its parts are. It is looked whether the offset is in range first. -/
theorem Safe.readObject {option : Mutability} {objects : Option Objects}
    (creates : startOffset < trailer.offsetTableOffset → ∀ objects off, Safe (create objects off)) :
    Safe (readObject file trailer option create objects startOffset) := by
  have length := accepted.length
  refine Safe.check_bind fun inRange => (Safe.byte (by omega)).bind fun marker _ => ?_
  have creates := creates (by omega)
  refine Safe.ite (fun _ => ?_) fun _ => Safe.ite (fun _ => ?_) fun _ => ?_
  · refine (Safe.ptrAdd _ _).bind fun _ _ => (Safe.readCount (by omega)).bind fun ⟨count, ptr⟩ _ => ?_
    exact (Safe.checkRefs _ _).bind fun _ _ => (Safe.createParts accepted creates _ _ _ _).bind fun _ _ => Safe.ok _
  · refine (Safe.ptrAdd _ _).bind fun _ _ => (Safe.readCount (by omega)).bind fun ⟨count, ptr⟩ _ => ?_
    refine (Safe.sizeMul _ _).bind fun _ _ => (Safe.checkRefs _ _).bind fun _ _ => ?_
    exact (Safe.createParts accepted creates _ _ _ _).bind fun _ _ => Safe.ok _
  · exact (Safe.readLeaf (by omega)).bind fun _ _ => Safe.ok _

/-! ## Cycles -/

/-- The fuel is enough for every path that is left: above depth 16 one unit a level, below it one for each
offset that is not on the path yet. -/
def Enough (table fuel : Nat) (path : Option (List Nat)) (curDepth : Nat) : Prop :=
  match path with
  | none => 17 - curDepth + table < fuel
  | some set => set.Nodup ∧ (∀ off ∈ set, off < table) ∧ table < set.length + fuel

variable {curDepth : Nat} {path : Option (List Nat)}

omit accepted in
theorem not_enough_zero {table : Nat} : ¬ Enough table 0 path curDepth := by
  cases path with
  | none => exact Nat.not_lt_zero _
  | some set =>
    rintro ⟨nodup, inTable, _⟩
    have within : set ⊆ List.range table := fun off onPath => List.mem_range.mpr (inTable off onPath)
    have few := (List.subperm_of_subset nodup within).length_le
    rw [List.length_range] at few
    omega

omit accepted in
theorem Enough.extendPath {table fuel : Nat} (enough : Enough table (fuel + 1) path curDepth) (inTable : startOffset < table)
    (notOnPath : startOffset ∉ path.getD []) : Enough table fuel (extendPath path curDepth startOffset) (curDepth + 1) := by
  cases path with
  | none =>
    simp only [Enough] at enough
    rw [BinaryPlist.extendPath]
    split
    case isTrue =>
      refine ⟨List.nodup_singleton _, fun off isStart => ?_, ?_⟩
      · rwa [List.mem_singleton.mp isStart]
      · rw [List.length_singleton]
        omega
    case isFalse =>
      simp only [Enough]
      omega
  | some =>
    obtain ⟨nodup, inTable', _⟩ := enough
    refine ⟨List.nodup_cons.mpr ⟨notOnPath, nodup⟩, List.forall_mem_cons.mpr ⟨inTable, inTable'⟩, ?_⟩
    rw [List.length_cons]
    omega

/-- Whatever the objects refer to, reading ends and stays inside the file. -/
theorem Safe.createObject (option : Mutability) {fuel : Nat} (enough : Enough trailer.offsetTableOffset fuel path curDepth)
    (objects : Option Objects) (startOffset : Nat) : Safe (createObject file trailer option fuel path curDepth objects startOffset) := by
  induction fuel generalizing path curDepth objects startOffset with
  | zero => exact absurd enough not_enough_zero
  | succ _ ih =>
    rw [BinaryPlist.createObject]
    split
    case h_1 => exact Safe.ok _
    case h_2 =>
      refine Safe.check_bind fun notOnPath => Safe.readObject accepted fun inTable objects off => ?_
      exact ih (enough.extendPath inTable notOnPath) objects off

theorem Accepted.enough : Enough trailer.offsetTableOffset (file.bytes.length + 18) none 0 := by
  have length := accepted.length
  simp only [Enough]
  omega

/-! ## Arrays and dictionaries -/

theorem Safe.getOffsetForValueFromArray2 (startOffset idx : Nat) : Safe (getOffsetForValueFromArray2 file startOffset trailer idx) := by
  have length := accepted.length
  refine Safe.check_bind fun inRange => (Safe.byte (by omega)).bind fun marker _ => Safe.check_bind fun _ => ?_
  refine (Safe.ptrAdd _ _).bind fun _ _ => (Safe.readCount (by omega)).bind fun ⟨cnt, ptr⟩ _ => Safe.check_bind fun _ => ?_
  exact (Safe.checkExtent _ _).bind fun _ _ => Safe.getOffsetOfRefAt accepted _

theorem Safe.dictionaryHeader (startOffset : Nat) : Safe (dictionaryHeader file startOffset trailer) := by
  have length := accepted.length
  refine Safe.check_bind fun inRange => (Safe.byte (by omega)).bind fun marker _ => Safe.check_bind fun _ => ?_
  refine (Safe.ptrAdd _ _).bind fun _ _ => (Safe.readCount (by omega)).bind fun ⟨cnt, ptr⟩ _ => ?_
  exact (Safe.sizeMul _ _).bind fun _ _ => (Safe.checkExtent _ _).bind fun _ _ => Safe.ok _

theorem Safe.compareASCII (stringKeyLen : Nat) (keyBufferPtr : List Byte) (off : Nat) (marker : Byte)
    : Safe (compareASCII file trailer stringKeyLen keyBufferPtr off marker) := by
  have length := accepted.length
  refine (Safe.ptrAdd _ _).bind fun _ _ => ?_
  refine (Safe.ite (fun _ => Safe.readCount (by omega)) fun _ => Safe.ok _).bind fun ⟨len, ptr2⟩ _ => ?_
  refine Safe.ite (fun _ => (Safe.ptrAdd _ _).bind fun extent added => Safe.check_bind fun inside => ?_) fun _ => Safe.ok _
  rw [of_ptrAdd added] at inside
  exact (Safe.copy (by omega)).bind fun _ _ => Safe.ok _

/-- A key at an offset of the table is compared inside the file. -/
theorem Safe.matchKey (key : SearchKey) {off : Nat} (inTable : off < trailer.offsetTableOffset) : Safe (matchKey file trailer key off) := by
  have length := accepted.length
  have readKey : Safe (matchKey.readKey file trailer key off) :=
    (Safe.createObject accepted .immutable accepted.enough none off).bind fun ⟨keyInData, _⟩ _ => Safe.check_bind fun _ => Safe.ok _
  refine (Safe.byte (by omega)).bind fun marker _ => ?_
  cases key.bytes with
  | none => exact readKey
  | some =>
    apply Safe.ite
    · exact fun _ => Safe.compareASCII accepted _ _ _ _
    · exact fun _ => readKey

end Accepted

end DarwinNotes.CF.BinaryPlist
