import Mathlib

/-!
# Offsets of instance variables (`objc-runtime-new.mm`)

`class_addIvar` places an ivar behind the others of a class that is under construction. The offset is rounded up with a
mask, and it and the instance size are kept in 32 bits. `reconcileInstanceVariables` slides the ivars of a class whose
superclass has grown.
-/

namespace DarwinNotes.Objc.Ivars
open List

/-- `ivar_t` -/
structure Ivar where
  /-- `*offset`; an anonymous bitfield has none -/
  offset : Option Int
  name : Option String
  type : String
  alignmentRaw : Nat
  size : Nat

/-- What an `int32_t` holds after these bits were stored to it. -/
def int32 (bits : Nat) : Int := Int.bmod bits (2 ^ 32)

/-- `(offset + alignMask) & ~alignMask` of a `uint32_t` -/
def maskUp (offset alignMask : Nat) : Nat := (offset + alignMask) % 2 ^ 32 &&& (2 ^ 32 - 1 - alignMask)

/-- A class, with what it inherits. -/
structure Class where
  isMetaClass : Bool
  /-- `RW_CONSTRUCTING` -/
  constructing : Bool
  inherited : List Ivar
  ivars : List Ivar
  instanceSize : Nat

namespace Class

variable (cls : Class)

/-- Whether there is an ivar of this name. -/
def getIvar (name : String) : Bool := cls.ivars.any fun ivar => ivar.offset.isSome && ivar.name == some name

/-- `class_addIvar`; nothing if it returns `NO`. -/
def addIvar (name : Option String) (size alignment : Nat) (type : Option String) : Option Class :=
  let name := if name = some "" then none else name
  if cls.isMetaClass then none
  else if !cls.constructing then none
  else if name.any cls.getIvar ∨ 2 ^ 32 - 1 < size then none
  else
    let offset := maskUp cls.instanceSize (2 ^ alignment - 1)
    some { cls with
      ivars := cls.ivars ++ [⟨int32 offset, name, type.getD "", alignment, size % 2 ^ 32⟩]
      instanceSize := (offset + size) % 2 ^ 32 }

end Class

/-! ## Rounding up -/

/-- The next multiple. -/
def roundUp (n alignment : Nat) : Nat := (n + (alignment - 1)) / alignment * alignment

theorem and_not_mask {n k : Nat} (small : n < 2 ^ 32) (le : k ≤ 32) : n &&& (2 ^ 32 - 1 - (2 ^ k - 1)) = n / 2 ^ k * 2 ^ k := by
  have masked : 2 ^ k - 1 < 2 ^ 32 :=
    Nat.lt_of_lt_of_le (Nat.sub_one_lt (Nat.two_pow_pos k).ne') (Nat.pow_le_pow_right Nat.two_pos le)
  apply Nat.eq_of_testBit_eq
  intro i
  have inWord : n.testBit i = true → i < 32 :=
    fun isSet => (Nat.pow_lt_pow_iff_right Nat.one_lt_two).mp (Nat.lt_of_le_of_lt (Nat.ge_two_pow_of_testBit isSet) small)
  rw [Nat.sub_sub, Nat.add_comm 1, Nat.testBit_and, Nat.testBit_two_pow_sub_succ masked, Nat.testBit_two_pow_sub_one, Nat.mul_comm,
    Nat.testBit_two_pow_mul, Nat.testBit_div_two_pow]
  by_cases isLow : i < k
  · simp [isLow]
  · simpa [isLow, Nat.sub_add_cancel (Nat.not_lt.mp isLow), Nat.not_lt.mp isLow] using inWord

theorem maskUp_eq {k : Nat} (le : k ≤ 32) (n : Nat) : maskUp n (2 ^ k - 1) = roundUp n (2 ^ k) % 2 ^ 32 := by
  have isWord : 2 ^ k * 2 ^ (32 - k) = 2 ^ 32 := by rw [← Nat.pow_add, Nat.add_sub_cancel' le]
  rw [maskUp, and_not_mask (Nat.mod_lt _ (Nat.two_pow_pos 32)) le, roundUp, ← isWord, Nat.mod_mul_right_div_self,
    Nat.mul_comm (2 ^ k) (2 ^ (32 - k)), Nat.mul_mod_mul_right]

theorem dvd_roundUp (n alignment : Nat) : alignment ∣ roundUp n alignment := Nat.dvd_mul_left _ _

theorem le_roundUp {alignment : Nat} (positive : 0 < alignment) (n : Nat) : n ≤ roundUp n alignment := by
  have parts := Nat.div_add_mod' (n + (alignment - 1)) alignment
  have rest := Nat.mod_lt (n + (alignment - 1)) positive
  rw [roundUp]
  omega

/-- Rounding up stops at a multiple. -/
theorem roundUp_le {alignment bound n : Nat} (positive : 0 < alignment) (isMultiple : alignment ∣ bound) (le : n ≤ bound) :
    roundUp n alignment ≤ bound := by
  obtain ⟨q, rfl⟩ := isMultiple
  rw [roundUp, Nat.mul_comm alignment]
  refine Nat.mul_le_mul_right _ (Nat.le_of_lt_succ ((Nat.div_lt_iff_lt_mul positive).mpr ?_))
  rw [Nat.succ_mul, Nat.mul_comm q]
  omega

theorem int32_low {bits : Nat} (low : bits < 2 ^ 31) : int32 (bits % 2 ^ 32) = bits := by
  unfold int32
  rw [Int.bmod_eq_of_le] <;> omega

theorem int32_high {bits : Nat} (high : 2 ^ 31 ≤ bits) (le : bits ≤ 2 ^ 32) : int32 (bits % 2 ^ 32) = bits - 2 ^ 32 := by
  unfold int32
  rw [Int.bmod_eq_iff (Nat.two_pow_pos 32)]
  omega

/-! ## Adding ivars -/

/-- The ivar is in front of an offset. -/
def Ivar.EndsBy (ivar : Ivar) (bound : Int) : Prop := ∀ offset, ivar.offset = some offset → offset + ivar.size ≤ bound

theorem Ivar.EndsBy.mono {ivar : Ivar} {bound bound' : Int} (ends : ivar.EndsBy bound) (le : bound ≤ bound') : ivar.EndsBy bound' :=
  fun offset isOffset => Int.le_trans (ends offset isOffset) le

/-- The ivars of the class and its superclasses are in an instance. -/
structure Class.Sound (cls : Class) : Prop where
  isWord : cls.instanceSize < 2 ^ 32
  inside : ∀ ivar ∈ cls.inherited ++ cls.ivars, ivar.EndsBy cls.instanceSize

/-- The new ivar is aligned, behind the others and in an instance. -/
def Placed (cls : Class) (alignment : Nat) (cls' : Class) : Prop :=
  ∃ (ivar : Ivar) (offset : Int), cls'.ivars = cls.ivars ++ [ivar] ∧ ivar.offset = some offset ∧ 2 ^ alignment ∣ offset ∧
    (∀ earlier ∈ cls.inherited ++ cls.ivars, earlier.EndsBy offset) ∧ offset + ivar.size ≤ cls'.instanceSize

/-- The offset is an `int32_t` and the end a `uint32_t`; or the offset becomes negative, and all the ivars are in front of it. -/
def Fits (cls : Class) (size alignment : Nat) : Prop :=
  let offset := roundUp cls.instanceSize (2 ^ alignment)
  (offset < 2 ^ 31 ∧ offset + size < 2 ^ 32) ∨
    (2 ^ 31 ≤ offset ∧ ∀ earlier ∈ cls.inherited ++ cls.ivars, earlier.EndsBy (offset - 2 ^ 32 : Int))

/-- The arguments of a call. -/
structure Call where
  name : Option String
  size : Nat
  alignment : Nat
  type : Option String

/-- `P` holds of each call that returns `YES`, and of the class before and after it. -/
def EachAdded (P : Class → Call → Class → Prop) : Class → List Call → Prop
  | _, [] => True
  | cls, call :: calls =>
    match cls.addIvar call.name call.size call.alignment call.type with
    | none => EachAdded P cls calls
    | some cls' => P cls call cls' ∧ EachAdded P cls' calls

section Adding

variable {cls cls' : Class} {name type : Option String} {size alignment : Nat}

theorem addIvar_eq (added : cls.addIvar name size alignment type = some cls') : size < 2 ^ 32 ∧
    ∃ name, cls' = { cls with
      ivars := cls.ivars ++ [⟨int32 (maskUp cls.instanceSize (2 ^ alignment - 1)), name, type.getD "", alignment, size⟩]
      instanceSize := (maskUp cls.instanceSize (2 ^ alignment - 1) + size) % 2 ^ 32 } := by
  rw [Class.addIvar] at added
  generalize (if name = some "" then none else name) = newName at added
  split at added
  · cases added
  split at added
  · cases added
  split at added
  case isTrue => cases added
  case isFalse =>
    have small : size < 2 ^ 32 := by omega
    rw [Nat.mod_eq_of_lt small] at added
    exact ⟨small, _, (Option.some.inj added).symm⟩

theorem placed_iff_fits (sound : cls.Sound) (le : alignment ≤ 31) (added : cls.addIvar name size alignment type = some cls') :
    Placed cls alignment cls' ↔ Fits cls size alignment := by
  obtain ⟨_, name, rfl⟩ := addIvar_eq added
  have positive := Nat.two_pow_pos alignment
  have isMultiple : 2 ^ alignment ∣ 2 ^ 32 := Nat.pow_dvd_pow 2 (by omega)
  have le_word := roundUp_le positive isMultiple sound.isWord.le
  have behind := le_roundUp positive cls.instanceSize
  have isAligned := dvd_roundUp cls.instanceSize (2 ^ alignment)
  rw [Placed, Fits]
  simp only [append_cancel_left_eq, cons.injEq, and_true, exists_and_left, exists_eq_left', maskUp_eq (by omega : alignment ≤ 32), Option.some.injEq]
  generalize roundUp cls.instanceSize (2 ^ alignment) = offset at *
  have isAligned' : (2 ^ alignment : Int) ∣ offset := by exact_mod_cast isAligned
  by_cases low : offset < 2 ^ 31
  · rw [int32_low low]
    constructor
    · rintro ⟨-, -, inside⟩
      exact .inl ⟨low, by omega⟩
    · intro fits
      refine ⟨isAligned', fun earlier mem => (sound.inside earlier mem).mono (by omega), ?_⟩
      omega
  · have isAligned'' : (2 ^ alignment : Int) ∣ offset - 2 ^ 32 := Int.dvd_sub isAligned' (by exact_mod_cast isMultiple)
    rw [int32_high (by omega) le_word]
    constructor
    · rintro ⟨-, front, -⟩
      exact .inr ⟨by omega, front⟩
    · intro fits
      refine ⟨isAligned'', (fits.resolve_left fun fits => low fits.1).2, ?_⟩
      omega

theorem Placed.sound (placed : Placed cls alignment cls') (added : cls.addIvar name size alignment type = some cls') : cls'.Sound := by
  obtain ⟨_, _, isAdded, isOffset, -, front, inside⟩ := placed
  obtain ⟨-, name, isClass⟩ := addIvar_eq added
  refine ⟨?_, ?_⟩
  · rw [isClass]
    exact Nat.mod_lt _ (Nat.two_pow_pos 32)
  · have sameInherited : cls'.inherited = cls.inherited := by rw [isClass]
    rw [isAdded, sameInherited, ← append_assoc, forall_mem_append, forall_mem_singleton]
    refine ⟨fun earlier mem => (front earlier mem).mono (by omega), fun offset' isOffset' => ?_⟩
    rw [Option.some.inj (isOffset'.symm.trans isOffset)]
    exact inside

/-- **Ivars that are added do not overlap** as long as offsets and sizes fit their types. -/
theorem eachAdded_placed_iff (sound : cls.Sound) {calls : List Call} (alignments : ∀ call ∈ calls, call.alignment ≤ 31) :
    EachAdded (fun cls call cls' => Placed cls call.alignment cls') cls calls ↔
      EachAdded (fun cls call _ => Fits cls call.size call.alignment) cls calls := by
  induction calls generalizing cls with
  | nil => exact Iff.rfl
  | cons _ _ ih =>
    obtain ⟨le, alignmentsLater⟩ := forall_mem_cons.mp alignments
    rw [EachAdded, EachAdded]
    split
    case h_1 => exact ih sound alignmentsLater
    case h_2 _ added =>
      rw [← placed_iff_fits sound le added]
      exact and_congr_right fun placed => ih (placed.sound added) alignmentsLater

end Adding

/-- A class under construction with an `isa`. -/
def subclass : Class := ⟨false, true, [⟨some 0, some "isa", "#", 3, 8⟩], [], 8⟩

theorem subclass_sound : subclass.Sound := by
  refine ⟨by decide, ?_⟩
  simp [subclass, Ivar.EndsBy]

/-- A byte and a word -/
theorem eachAdded_byte_word : EachAdded (fun cls call cls' => Placed cls call.alignment cls') subclass
    [⟨some "b", 1, 0, some "c"⟩, ⟨some "w", 8, 3, none⟩] :=
  (eachAdded_placed_iff subclass_sound (by decide)).mpr ⟨.inl ⟨by decide, by decide⟩, .inl ⟨by decide, by decide⟩, trivial⟩

/-- The instance size becomes 7. -/
theorem not_placed_of_large : ¬ EachAdded (fun cls call cls' => Placed cls call.alignment cls') subclass [⟨none, 2 ^ 32 - 1, 0, none⟩] := by
  rintro ⟨placed, -⟩
  have added : subclass.addIvar none (2 ^ 32 - 1) 0 none = some _ := rfl
  rcases (placed_iff_fits subclass_sound (Nat.zero_le 31) added).mp placed with ⟨-, ends⟩ | ⟨high, -⟩
  · exact absurd ends (by decide)
  · exact absurd high (by decide)

/-! ## Sliding ivars -/

/-- `alignment()`, a word's if the compiler gave -1 -/
def Ivar.alignment (ivar : Ivar) : Nat := 2 ^ if ivar.alignmentRaw = 2 ^ 32 - 1 then 3 else ivar.alignmentRaw

/-- `class_ro_t`; a class that has no list of ivars is like one that has an empty list. -/
structure Ro where
  instanceStart : Nat
  instanceSize : Nat
  ivars : List Ivar

/-- The first loop of `moveIvars` -/
def findMaxAlignment (maxAlignment : Nat) (ivar : Ivar) : Nat :=
  if ivar.offset.isSome ∧ maxAlignment < ivar.alignment then ivar.alignment else maxAlignment

def Ro.moveIvars (ro : Ro) (superSize : Nat) : Ro :=
  let diff := maskUp (superSize - ro.instanceStart) (ro.ivars.foldl findMaxAlignment 1 - 1)
  let newOffset := fun oldOffset : Int => int32 (((oldOffset % 2 ^ 32).toNat + diff) % 2 ^ 32)
  ⟨(ro.instanceStart + diff) % 2 ^ 32, (ro.instanceSize + diff) % 2 ^ 32,
    ro.ivars.map fun ivar => { ivar with offset := ivar.offset.map newOffset }⟩

/-- `reconcileInstanceVariables` -/
def Ro.reconcile (ro : Ro) (superSize : Nat) : Ro := if superSize ≤ ro.instanceStart then ro else ro.moveIvars superSize

/-- Classes are reconciled, each with the one in front of it. In front of a root class there is nothing. -/
def reconcileAll : Nat → List Ro → List Ro
  | _, [] => []
  | superSize, ro :: subclasses => ro.reconcile superSize :: reconcileAll (ro.reconcile superSize).instanceSize subclasses

def Ivar.Apart (ivar other : Ivar) : Prop := ∀ a b, ivar.offset = some a → other.offset = some b → a + ivar.size ≤ b ∨ b + other.size ≤ a

/-- The ivars are aligned, apart and in the part of an instance that belongs to the class. -/
structure Ro.Sound (ro : Ro) : Prop where
  ordered : ro.instanceStart ≤ ro.instanceSize
  placed : ∀ ivar ∈ ro.ivars, ∀ offset, ivar.offset = some offset → ivar.alignment < 2 ^ 32 ∧ (ivar.alignment : Int) ∣ offset ∧
    ro.instanceStart ≤ offset ∧ offset + ivar.size ≤ ro.instanceSize
  apart : ro.ivars.Pairwise Ivar.Apart

/-- The ivars keep their distances. -/
def Ro.slide (diff : Nat) (ro : Ro) : Ro :=
  ⟨ro.instanceStart + diff, ro.instanceSize + diff, ro.ivars.map fun ivar => { ivar with offset := ivar.offset.map (· + (diff : Int)) }⟩

section Sliding

variable {ro : Ro} {superSize : Nat}

/-- The largest alignment is a power of two, so that the others divide it. -/
theorem findMaxAlignment_spec {ivars : List Ivar} (small : ∀ ivar ∈ ivars, ivar.offset.isSome → ivar.alignment < 2 ^ 32)
    {j : Nat} (le : j < 32) : ∃ k, j ≤ k ∧ k < 32 ∧ ivars.foldl findMaxAlignment (2 ^ j) = 2 ^ k ∧
      ∀ ivar ∈ ivars, ivar.offset.isSome → ivar.alignment ∣ 2 ^ k := by
  induction ivars generalizing j with
  | nil => exact ⟨j, le_rfl, le, rfl, nofun⟩
  | cons ivar ivars ih =>
    obtain ⟨small, smallLater⟩ := forall_mem_cons.mp small
    obtain ⟨e, isPower⟩ : ∃ e, ivar.alignment = 2 ^ e := ⟨_, rfl⟩
    simp only [foldl_cons, findMaxAlignment, forall_mem_cons, isPower, Nat.pow_lt_pow_iff_right Nat.one_lt_two,
      Nat.pow_dvd_pow_iff_le_right'] at small ⊢
    split
    case isTrue larger =>
      obtain ⟨k, le', bound, isMax, divides⟩ := ih smallLater (small larger.1)
      exact ⟨k, larger.2.le.trans le', bound, isMax, fun _ => le', divides⟩
    case isFalse smaller =>
      obtain ⟨k, le', bound, isMax, divides⟩ := ih smallLater le
      exact ⟨k, le', bound, isMax, fun isSome => (Nat.not_lt.mp fun less => smaller ⟨isSome, less⟩).trans le', divides⟩

theorem Ro.Sound.slide (sound : ro.Sound) {diff : Nat} (divides : ∀ ivar ∈ ro.ivars, ivar.offset.isSome → ivar.alignment ∣ diff) :
    (ro.slide diff).Sound := by
  refine ⟨Nat.add_le_add_right sound.ordered diff, fun ivar mem offset isOffset => ?_, pairwise_map.mpr (sound.apart.imp ?_)⟩
  · obtain ⟨ivar, isIvar, rfl⟩ := mem_map.mp mem
    obtain ⟨offset, isOld, rfl⟩ := Option.map_eq_some_iff.mp isOffset
    obtain ⟨small, aligned, start, stop⟩ := sound.placed ivar isIvar offset isOld
    have multiple : (ivar.alignment : Int) ∣ diff := by exact_mod_cast divides ivar isIvar (by rw [isOld]; rfl)
    refine ⟨small, Int.dvd_add aligned multiple, ?_, ?_⟩ <;> simp only [Ro.slide] <;> omega
  · intro ivar other apart _ _ isA isB
    obtain ⟨a, isOldA, rfl⟩ := Option.map_eq_some_iff.mp isA
    obtain ⟨b, isOldB, rfl⟩ := Option.map_eq_some_iff.mp isB
    have := apart a b isOldA isOldB
    simp only
    omega

/-- The class slides by a multiple of the alignments, behind its superclass. -/
theorem Ro.Sound.reconcile_eq (sound : ro.Sound) (superSmall : superSize < 2 ^ 31) (small : ro.instanceSize < 2 ^ 31)
    (small' : (ro.reconcile superSize).instanceSize < 2 ^ 31) :
    ∃ diff, ro.reconcile superSize = ro.slide diff ∧ superSize ≤ ro.instanceStart + diff ∧ (ro.slide diff).Sound := by
  rw [Ro.reconcile] at small' ⊢
  split
  case isTrue fits => exact ⟨0, by simp [Ro.slide], fits, sound.slide fun ivar _ _ => Nat.dvd_zero _⟩
  case isFalse less =>
    rw [if_neg less] at small'
    obtain ⟨k, -, bound, isMax, divides⟩ := findMaxAlignment_spec (fun ivar mem isSome =>
      (sound.placed ivar mem _ (Option.some_get isSome).symm).1) (j := 0) (by decide)
    have positive := Nat.two_pow_pos k
    have le_word := roundUp_le (n := superSize - ro.instanceStart) positive (Nat.pow_dvd_pow 2 (by omega : k ≤ 31)) (by omega)
    have behind := le_roundUp positive (superSize - ro.instanceStart)
    have isMultiple := dvd_roundUp (superSize - ro.instanceStart) (2 ^ k)
    rw [pow_zero] at isMax
    simp only [Ro.moveIvars, isMax, maskUp_eq bound.le] at small' ⊢
    generalize roundUp (superSize - ro.instanceStart) (2 ^ k) = diff at *
    refine ⟨diff, ?_, by omega, sound.slide fun ivar mem isSome => (divides ivar mem isSome).trans isMultiple⟩
    rw [Nat.mod_eq_of_lt (by omega : diff < 2 ^ 32), Nat.mod_eq_of_lt (by omega)] at small' ⊢
    rw [Ro.slide, Nat.mod_eq_of_lt (by omega)]
    refine congrArg (Ro.mk _ _) (map_congr_left fun ivar mem => ?_)
    cases isOffset : ivar.offset with
    | none => rw [Option.map_none, Option.map_none]
    | some offset =>
      obtain ⟨-, -, start, stop⟩ := sound.placed ivar mem offset isOffset
      rw [Option.map_some, int32_low (by omega), Option.map_some]
      congr 2
      omega

/-- **Sliding keeps ivars apart** along a chain of classes: those of a class slide together, behind its superclasses. -/
theorem reconcileAll_sound {chain : List Ro} (sound : ∀ ro ∈ chain, ro.Sound) (superSmall : superSize < 2 ^ 31)
    (small : ∀ ro ∈ chain ++ reconcileAll superSize chain, ro.instanceSize < 2 ^ 31) :
    (∀ ro ∈ reconcileAll superSize chain, ro.Sound ∧ superSize ≤ ro.instanceStart) ∧
      ((reconcileAll superSize chain).flatMap Ro.ivars).Pairwise Ivar.Apart ∧
      Forall₂ (fun ro ro' => ∃ diff, ro' = ro.slide diff) chain (reconcileAll superSize chain) := by
  induction chain generalizing superSize with
  | nil => exact ⟨nofun, .nil, .nil⟩
  | cons ro chain ih =>
    obtain ⟨soundFirst, soundLater⟩ := forall_mem_cons.mp sound
    rw [reconcileAll] at small ⊢
    have small' := small (ro.reconcile superSize) (by simp)
    obtain ⟨diff, isSlid, behind, slid⟩ := soundFirst.reconcile_eq superSmall (small ro (by simp)) small'
    obtain ⟨later, apart, slides⟩ := ih soundLater small' fun ro' mem => small ro' (by simp at mem ⊢; tauto)
    rw [isSlid] at later apart slides ⊢
    have ordered : superSize ≤ (ro.slide diff).instanceSize := behind.trans slid.ordered
    refine ⟨forall_mem_cons.mpr ⟨⟨slid, behind⟩, fun ro' mem => (later ro' mem).imp_right ordered.trans⟩, ?_, .cons ⟨diff, rfl⟩ slides⟩
    rw [flatMap_cons, pairwise_append]
    refine ⟨slid.apart, apart, fun ivar mem other isLater a b isA isB => .inl ?_⟩
    obtain ⟨ro', isClass, isOther⟩ := mem_flatMap.mp isLater
    obtain ⟨-, -, -, stop⟩ := slid.placed ivar mem a isA
    obtain ⟨-, -, start, -⟩ := (later ro' isClass).1.placed other isOther b isB
    have := (later ro' isClass).2
    omega

end Sliding

/-- A class that was compiled when its superclass was half as large -/
theorem reconcileAll_sound_grown : ((reconcileAll 0 [⟨0, 8, [⟨some 0, some "isa", "#", 3, 8⟩]⟩,
    ⟨4, 9, [⟨some 4, some "i", "i", 2, 4⟩, ⟨some 8, some "c", "c", 0, 1⟩]⟩]).flatMap Ro.ivars).Pairwise Ivar.Apart := by
  refine (reconcileAll_sound (forall_mem_cons.mpr ⟨?_, forall_mem_singleton.mpr ?_⟩) (by decide) (by decide)).2.1
  · exact ⟨by decide, by simp [Ivar.alignment], by simp⟩
  · exact ⟨by decide, by simp [Ivar.alignment], by simp [Ivar.Apart]⟩

end DarwinNotes.Objc.Ivars
