import DarwinNotes.CF.BinaryPlist.Bounds
import DarwinNotes.CF.BinaryPlist.Walk

/-!
# Files that come from anywhere

The search of a dictionary leaves the file exactly if it comes to a key reference that is not
below the number of objects: the reference has no offset, and the byte before the file is read for the
marker. Reading with key paths searches dictionaries too; and with an empty set of key paths it counts the
values of a set that was not made.
-/

namespace DarwinNotes.CF.BinaryPlist
open Lib List

section Search

variable {file : File} {trailer : Trailer}

theorem Safe.exists_ok_or_fail {α : Type} {x : Read α} (safe : Safe x) : (∃ a, x = .ok a) ∨ x = .error .fail := by
  cases x with
  | error e => exact .inr (by rw [safe e rfl])
  | ok a => exact .inl ⟨a, rfl⟩

/-! ## The search -/

/-- The search for a key passes the first `i` keys. -/
def Passes (file : File) (trailer : Trailer) (key : SearchKey) (ptr i : Nat) : Prop :=
  ∀ j < i, ∃ off, getOffsetOfRefAt file trailer (ptr + j * trailer.objectRefSize) = .ok off ∧ matchKey file trailer key off = .ok false

/-- Whenever the search for a key comes to a key of the dictionary at an offset, the key has a reference. -/
def KeysInRange (file : File) (trailer : Trailer) (key : SearchKey) (startOffset : Nat) : Prop :=
  ∀ cnt ptr, dictionaryHeader file startOffset trailer = .ok (cnt, ptr) → ∀ i < cnt, Passes file trailer key ptr i →
    IsRef file trailer (ptr + i * trailer.objectRefSize)

variable {ptr : Nat}

theorem passes_succ {key : SearchKey} {i off : Nat} (isOffset : getOffsetOfRefAt file trailer ptr = .ok off) :
    Passes file trailer key ptr (i + 1) ↔
      matchKey file trailer key off = .ok false ∧ Passes file trailer key (ptr + trailer.objectRefSize) i := by
  have next : ∀ j, ptr + trailer.objectRefSize + j * trailer.objectRefSize = ptr + (j + 1) * trailer.objectRefSize := by
    intro j
    ring
  rw [Passes, Nat.forall_lt_succ_left, Nat.zero_mul, Nat.add_zero, isOffset]
  simp only [Passes, next, Except.ok.injEq, exists_eq_left']

variable (key : SearchKey)

theorem matchKey_of_not_isRef : matchKey file trailer key (2 ^ 64 - 1) = .error .outOfBounds := by
  have isIndex := file.isIndex
  rw [matchKey, File.byte, getElem?_eq_none (by omega)]
  rfl

/-- The search stays inside the file exactly if it comes to no key without a reference. -/
theorem safe_searchKeys_iff (accepted : Accepted file trailer) (totalKeySize count : Nat) (behindHeader : 8 ≤ ptr)
    (beforeTable : ptr + count * trailer.objectRefSize ≤ trailer.offsetTableOffset) :
    Safe (searchKeys file trailer key totalKeySize count ptr) ↔
      ∀ i < count, Passes file trailer key ptr i → IsRef file trailer (ptr + i * trailer.objectRefSize) := by
  induction count generalizing ptr with
  | zero => exact iff_of_true Safe.fail fun i none => absurd none (Nat.not_lt_zero i)
  | succ count ih =>
    rw [Nat.succ_mul] at beforeTable
    rw [searchKeys]
    have startsThere : Passes file trailer key ptr 0 := fun j none => absurd none (Nat.not_lt_zero j)
    -- the keys behind the first one only count if it is passed
    rw [Nat.forall_lt_succ_left, imp_iff_right startsThere, Nat.zero_mul, Nat.add_zero]
    rcases getOffsetOfRefAt_cases accepted behindHeader (by omega) with ⟨isRef, _, inTable, isOffset⟩ | ⟨notRef, isOffset⟩
    · rw [isOffset, ok_bind, and_iff_right isRef]
      simp only [passes_succ isOffset]
      rcases (Safe.matchKey accepted key inTable).exists_ok_or_fail with ⟨isMatch, matched⟩ | fails
      · rw [matched, ok_bind]
        cases isMatch with
        | true =>
          refine iff_of_true ?_ (by rintro i before ⟨⟨⟩, -⟩)
          exact (Safe.getOffsetOfRefAt accepted _).bind fun _ _ => Safe.ok _
        | false =>
          rw [if_neg (by decide), ih (by omega) (by omega)]
          simp only [true_and, Nat.succ_mul, Nat.add_assoc, Nat.add_comm trailer.objectRefSize]
      · rw [fails, error_bind]
        exact iff_of_true Safe.fail (by rintro i before ⟨⟨⟩, -⟩)
    · rw [isOffset, ok_bind, matchKey_of_not_isRef key, error_bind]
      exact iff_of_false (by intro safe; cases safe _ rfl) (fun all => notRef all.1)

theorem le_of_readCount {marker : Byte} {end_byte_ptr cnt behind : Nat}
    (read : readCount file marker ptr end_byte_ptr = .ok (cnt, behind)) : ptr ≤ behind := by
  simp only [readCount] at read
  split at read
  case isTrue =>
    simp only [readInt, bind_eq_ok] at read
    obtain ⟨⟨_, _⟩, ⟨_, -, _, -, _, -, _, -, _, -, _, -, isInt⟩, _, -, isCount⟩ := read
    cases isInt
    cases isCount
    exact (Nat.le_add_right ptr 1).trans (Nat.le_add_right _ _)
  case isFalse =>
    cases read
    exact le_rfl

/-- The references of a dictionary are before the offset table. -/
theorem of_dictionaryHeader {startOffset cnt : Nat}
    (header : dictionaryHeader file startOffset trailer = .ok (cnt, ptr)) :
    8 ≤ ptr ∧ ptr + cnt * trailer.objectRefSize ≤ trailer.offsetTableOffset := by
  simp only [dictionaryHeader, checkExtent, bind_eq_ok] at header
  obtain ⟨_, inRange, _, -, _, -, _, added, ⟨_, _⟩, isCount, double, _, _, ⟨_, isSize, _, added',
    checked⟩, header⟩ := header
  cases header
  have inRange := of_check inRange
  have checked := of_check checked
  have later := le_of_readCount isCount
  have half : double / 2 * trailer.objectRefSize ≤ double * trailer.objectRefSize := Nat.mul_le_mul_right _ (Nat.div_le_self _ _)
  rw [of_ptrAdd added] at later
  rw [of_ptrAdd added', of_sizeMul isSize] at checked
  omega

theorem safe_dictionary3_iff (accepted : Accepted file trailer) (startOffset : Nat) :
    Safe (getOffsetForValueFromDictionary3 file startOffset trailer key) ↔
      (key.isPrimitive → KeysInRange file trailer key startOffset) := by
  rw [getOffsetForValueFromDictionary3]
  by_cases primitive : key.isPrimitive
  · rw [check_of primitive, ok_bind, imp_iff_right primitive]
    rcases (Safe.dictionaryHeader accepted startOffset).exists_ok_or_fail with ⟨⟨cnt, ptr⟩, header⟩ | fails
    · obtain ⟨behindHeader, beforeTable⟩ := of_dictionaryHeader header
      have header_iff : KeysInRange file trailer key startOffset ↔
          ∀ i < cnt, Passes file trailer key ptr i → IsRef file trailer (ptr + i * trailer.objectRefSize) := by
        constructor
        · exact fun inRange => inRange cnt ptr header
        · intro inRange cnt' ptr' header'
          rw [header] at header'
          cases header'
          exact inRange
      rw [header, header_iff]
      exact safe_searchKeys_iff key accepted _ cnt behindHeader beforeTable
    · rw [fails, error_bind]
      refine iff_of_true Safe.fail fun cnt ptr header => ?_
      rw [fails] at header
      cases header
  · rw [check_of_not primitive, error_bind]
    exact iff_of_true Safe.fail fun isPrimitive => absurd isPrimitive primitive

end Search

/-! ## Key paths -/

section Filtered

variable {file : File} {trailer : Trailer}

/-- Some key path has a component. -/
def HasComponent (keyPaths : KeyPaths) : Prop := ∃ path ∈ keyPaths, path ≠ []

variable {keyPaths : KeyPaths}

theorem createSplitKeypaths_fst_eq_none_iff : (createSplitKeypaths keyPaths).1 = none ↔ ¬ HasComponent keyPaths := by
  simp only [createSplitKeypaths, makeSet]
  split
  case isTrue empty =>
    refine iff_of_true rfl ?_
    rintro ⟨path, inSet, nonempty⟩
    obtain ⟨key, _, rfl⟩ := exists_cons_of_ne_nil nonempty
    have isKey : key ∈ keyPaths.filterMap head? := mem_filterMap.mpr ⟨_, inSet, rfl⟩
    rw [empty] at isKey
    cases isKey
  case isFalse nonempty =>
    refine iff_of_false nofun (not_not.mpr ?_)
    obtain ⟨key, isKey⟩ := exists_mem_of_ne_nil _ nonempty
    obtain ⟨path, inSet, isHead⟩ := mem_filterMap.mp isKey
    refine ⟨path, inSet, ?_⟩
    rintro rfl
    cases isHead

/-- The key paths that are left below have components again. -/
theorem hasComponent_of_createSplitKeypaths {nextKeys : KeyPaths} (isNext : (createSplitKeypaths keyPaths).2 = some nextKeys)
    : HasComponent nextKeys := by
  simp only [createSplitKeypaths, makeSet] at isNext
  split at isNext
  case isTrue => cases isNext
  case isFalse nonempty =>
  cases isNext
  obtain ⟨path, isPath⟩ := exists_mem_of_ne_nil _ nonempty
  refine ⟨path, mem_dedup.mpr isPath, ?_⟩
  obtain ⟨whole, long, rfl⟩ := mem_map.mp isPath
  rw [mem_filter, decide_eq_true_iff] at long
  intro empty
  have length : whole.tail.length = whole.length - 1 := length_tail
  rw [empty, length_nil] at length
  omega

variable {option : Mutability} {order : List Key → List Key} {form : Nat → (key : Key) → KeyForm key} {find : Key → Read Nat}

theorem Safe.createFound {create : Option Objects → Nat → Read (Plist × Option Objects)} (finds : ∀ key, Safe (find key))
    (creates : ∀ objects off, Safe (create objects off)) (keys : List Key) (objects : Option Objects)
    : Safe (createFound find create keys objects) := by
  induction keys generalizing objects with
  | nil => exact Safe.ok _
  | cons key _ ih =>
    rw [BinaryPlist.createFound]
    rcases (finds key).exists_ok_or_fail with ⟨off, found⟩ | missing
    · rw [found]
      exact (creates objects off).bind fun ⟨_, objects⟩ _ => (ih objects).bind fun _ _ => Safe.ok _
    · rw [missing]
      exact ih objects

variable {create : Option KeyPaths → Option Objects → Nat → Read (Plist × Option Objects)}

theorem Safe.createSubset (named : HasComponent keyPaths) (finds : ∀ key, Safe (find key))
    (creates : ∀ nextKeys, (∀ keyPaths, nextKeys = some keyPaths → HasComponent keyPaths) → ∀ objects off, Safe (create nextKeys objects off))
    (objects : Option Objects) : Safe (createSubset order find create keyPaths objects) := by
  rw [BinaryPlist.createSubset]
  split
  case h_1 _ split =>
    have noKeys : (createSplitKeypaths keyPaths).1 = none := by rw [split]
    exact absurd named (createSplitKeypaths_fst_eq_none_iff.mp noKeys)
  case h_2 _ nextKeys split =>
    refine Safe.createFound finds (creates nextKeys fun keyPaths' isNext => ?_) _ _
    exact hasComponent_of_createSplitKeypaths (by rw [split, isNext])

variable (accepted : Accepted file trailer)
include accepted

theorem Safe.openContainer (startOffset : Nat) : Safe (openContainer file trailer startOffset) := by
  have length := accepted.length
  refine Safe.check_bind fun inRange => (Safe.byte (by omega)).bind fun marker _ => ?_
  refine Safe.ite (fun _ => ?_) fun _ => Safe.ite (fun _ => ?_) fun _ => Safe.ok _
  · refine (Safe.ptrAdd _ _).bind fun _ _ => (Safe.readCount (by omega)).bind fun ⟨count, ptr⟩ _ => ?_
    exact (Safe.checkRefs _ _).bind fun _ _ => Safe.ok _
  · refine (Safe.ptrAdd _ _).bind fun _ _ => (Safe.readCount (by omega)).bind fun ⟨count, ptr⟩ _ => ?_
    exact (Safe.sizeMul _ _).bind fun _ _ => (Safe.checkRefs _ _).bind fun _ _ => Safe.ok _

variable {startOffset : Nat}

omit accepted in
theorem lt_of_openContainer {kind : Kind} (opened : openContainer file trailer startOffset = .ok kind)
    : startOffset < trailer.offsetTableOffset := by
  obtain ⟨_, inRange, -⟩ := bind_eq_ok.mp opened
  have inRange := of_check inRange
  omega

theorem Safe.findIndex (startOffset : Nat) (key : Key) : Safe (findIndex file trailer startOffset key) := by
  rw [BinaryPlist.findIndex]
  split
  · exact Safe.fail
  · exact Safe.getOffsetForValueFromArray2 accepted _ _

/-- There is an array or a dictionary at an offset. -/
def IsContainer (file : File) (trailer : Trailer) (startOffset : Nat) : Prop :=
  openContainer file trailer startOffset = .ok .array ∨ openContainer file trailer startOffset = .ok .dict

/-- Reading with key paths stays inside the file and ends, if the searches do. An empty set of key paths must not meet a container. -/
theorem Safe.createObjectFiltered (finds : ∀ startOffset key, Safe (findKey file trailer form startOffset key)) {fuel : Nat}
    {path : Option (List Nat)} {curDepth : Nat} (enough : Enough trailer.offsetTableOffset fuel path curDepth)
    {keyPaths : Option KeyPaths} (objects : Option Objects) (startOffset : Nat)
    (named : ∀ keyPaths', keyPaths = some keyPaths' → HasComponent keyPaths' ∨ ¬ IsContainer file trailer startOffset) :
    Safe (createObjectFiltered file trailer option order form fuel path curDepth keyPaths objects startOffset) := by
  induction fuel generalizing path curDepth keyPaths objects startOffset with
  | zero => exact absurd enough not_enough_zero
  | succ _ ih =>
    cases keyPaths with
    | none =>
      rw [createObjectFiltered_none]
      exact Safe.createObject accepted option enough objects startOffset
    | some =>
      rw [BinaryPlist.createObjectFiltered]
      split
      case h_1 => exact Safe.ok _
      case h_2 =>
      refine Safe.check_bind fun notOnPath => (Safe.openContainer accepted startOffset).bind fun kind opened => ?_
      have enough' := enough.extendPath (lt_of_openContainer opened) notOnPath
      have creates := fun nextKeys (named' : ∀ keyPaths', nextKeys = some keyPaths' → HasComponent keyPaths') objects off =>
        @ih _ _ enough' nextKeys objects off fun keyPaths' isNext => .inl (named' keyPaths' isNext)
      cases kind with
      | array =>
        have component := (named _ rfl).resolve_right (not_not.mpr (.inl opened))
        exact (Safe.createSubset component (Safe.findIndex accepted _) creates _).bind fun _ _ => Safe.ok _
      | dict =>
        have component := (named _ rfl).resolve_right (not_not.mpr (.inr opened))
        exact (Safe.createSubset component (finds _) creates _).bind fun _ _ => Safe.ok _
      | other => exact Safe.readObject accepted fun _ => creates none (by rintro _ ⟨⟩)

omit accepted in
theorem createSubset_of_not_hasComponent (empty : ¬ HasComponent keyPaths) (objects : Option Objects)
    : createSubset order find create keyPaths objects = .error .nullSet := by
  have noKeys := createSplitKeypaths_fst_eq_none_iff.mpr empty
  rw [createSubset]
  split
  case h_1 => rfl
  case h_2 _ _ split =>
    rw [split] at noKeys
    cases noKeys

omit accepted in
/-- With an empty set of key paths, the keys of a container are counted that were not made. -/
theorem createObjectFiltered_nullSet (option : Mutability) (order : List Key → List Key) (form : Nat → (key : Key) → KeyForm key)
    (empty : ¬ HasComponent keyPaths) (isContainer : IsContainer file trailer startOffset) :
    binaryPlistCreateObjectFiltered file trailer option order form startOffset (some keyPaths) none = .error .nullSet := by
  have notOnPath : startOffset ∉ ([] : List Nat) := not_mem_nil
  rw [binaryPlistCreateObjectFiltered, createObjectFiltered]
  simp only [Option.getD_none, lookup_nil, check_of notOnPath, ok_bind]
  rw [readFiltered]
  rcases isContainer with isArray | isDict
  · rw [isArray]
    simp [ok_bind, createSubset_of_not_hasComponent empty]
  · rw [isDict]
    simp [ok_bind, createSubset_of_not_hasComponent empty]

end Filtered

/-! ## Accepted files -/

/-- The three readers stay inside the file and end, for every start offset, index, search key and table of objects, and
a set of key paths. -/
def StaysInside (file : File) (trailer : Trailer) (keyPaths : Option KeyPaths) : Prop :=
  (∀ option order form objects startOffset,
      Safe (binaryPlistCreateObjectFiltered file trailer option order form startOffset keyPaths objects)) ∧
    (∀ startOffset idx, Safe (getOffsetForValueFromArray2 file startOffset trailer idx)) ∧
      ∀ startOffset key, Safe (getOffsetForValueFromDictionary3 file startOffset trailer key)

/-- The readers stay inside an accepted file exactly if no search of a dictionary comes to a key without a
reference, and an empty set of key paths meets no container. -/
theorem stays_inside_iff {file : File} {trailer : Trailer} {marker : Byte} {offset : Nat}
    (accepted : getTopLevelInfo file = .ok (marker, offset, trailer)) (keyPaths : Option KeyPaths) : StaysInside file trailer keyPaths ↔
      (∀ startOffset key, key.isPrimitive → KeysInRange file trailer key startOffset) ∧ ∀ keyPaths', keyPaths = some keyPaths' →
          HasComponent keyPaths' ∨ ∀ startOffset, ¬ IsContainer file trailer startOffset := by
  have accepted := accepted_of_getTopLevelInfo accepted
  constructor
  · rintro ⟨filtered, -, searches⟩
    constructor
    · exact fun startOffset key => (safe_dictionary3_iff key accepted startOffset).mp (searches startOffset key)
    · rintro keyPaths' rfl
      by_contra empty
      obtain ⟨empty, container⟩ := not_or.mp empty
      obtain ⟨startOffset, isContainer⟩ := not_forall_not.mp container
      have crash := createObjectFiltered_nullSet .immutable id (fun _ => copiedForm) empty isContainer
      exact nomatch filtered _ _ _ _ _ _ crash
  · rintro ⟨inRange, named⟩
    have searches : ∀ startOffset key, Safe (getOffsetForValueFromDictionary3 file startOffset trailer key) :=
      fun startOffset key => (safe_dictionary3_iff key accepted startOffset).mpr (inRange startOffset key)
    have finds : ∀ form startOffset key, Safe (findKey file trailer form startOffset key) :=
      fun form startOffset key => (searches _ _).bind fun _ _ => Safe.ok _
    refine ⟨fun option order form objects startOffset => ?_, Safe.getOffsetForValueFromArray2 accepted, searches⟩
    refine Safe.createObjectFiltered accepted (finds form) accepted.enough _ _ fun keyPaths' isSome => ?_
    exact (named keyPaths' isSome).imp_right fun noContainer => noContainer startOffset

/-- A key path `a` in `{"a": "a"}`. -/
theorem keyIsValue_stays_inside : ∃ marker offset trailer, getTopLevelInfo keyIsValueFile = .ok (marker, offset, trailer) ∧
      (StaysInside keyIsValueFile trailer (some [[[0x61]]]) ↔
        (∀ startOffset key, key.isPrimitive → KeysInRange keyIsValueFile trailer key startOffset) ∧
          ∀ keyPaths', some [[[0x61]]] = some keyPaths' →
            HasComponent keyPaths' ∨ ∀ startOffset, ¬ IsContainer keyIsValueFile trailer startOffset) := by
  have isFile : keyIsValueFile.bytes = (flattened keyIsValue).fileBytes :=
    congrArg Prod.snd (binaryPlistWrite_eq (supported_flattened keyIsValue_wellFormed))
  obtain ⟨marker, accepted⟩ := getTopLevelInfo_written keyIsValue_wellFormed (by decide +kernel) isFile
  exact ⟨marker, _, _, accepted, stays_inside_iff accepted _⟩

/-- A dictionary with one entry: the key is object 5, but there is only the dictionary itself. -/
def strayKeyFile : File where
  bytes := [0x62, 0x70, 0x6c, 0x69, 0x73, 0x74, 0x30, 0x30, 0xd1, 0x05, 0x00, 0x08] ++
    [0, 0, 0, 0, 0, 0, 1, 1, 0, 0, 0, 0, 0, 0, 0, 1, 0, 0, 0, 0, 0, 0, 0, 0, 0, 0, 0, 0, 0, 0, 0, 11]
  base := 4096
  isIndex := by decide
  inMemory := by decide

def strayKeyTrailer : Trailer :=
  { offsetIntSize := 1, objectRefSize := 1, numObjects := 1, topObject := 0, offsetTableOffset := 11 }

/-- The top level is accepted, the search reads the byte before the file, and so does a key path that
leads to the dictionary. -/
theorem strayKey_leaves_the_file : getTopLevelInfo strayKeyFile = .ok (0xd1, 8, strayKeyTrailer) ∧
      getOffsetForValueFromDictionary3 strayKeyFile 8 strayKeyTrailer (.string [0x61] (copiedForm [0x61])) = .error .outOfBounds ∧
      binaryPlistCreateObjectFiltered strayKeyFile strayKeyTrailer .immutable id (fun _ => copiedForm) 8 (some [[[0x61]]])
        (some []) = .error .outOfBounds ∧ ¬ StaysInside strayKeyFile strayKeyTrailer none := by
  have searched : getOffsetForValueFromDictionary3 strayKeyFile 8 strayKeyTrailer (.string [0x61] (copiedForm [0x61])) =
      .error .outOfBounds := rfl
  refine ⟨by decide +kernel, searched, rfl, ?_⟩
  rintro ⟨-, -, searches⟩
  exact nomatch searches _ _ _ searched

end DarwinNotes.CF.BinaryPlist
