import DarwinNotes.CF.Array.Regions

/-!
# A mutable array is a list

Each function of the array does to the values in the deque what the corresponding list function does,
as long as a new block is not asked to be smaller than the old one and its size stays an
`int`. So an array that starts empty is a list after every sequence of such calls.
-/

namespace DarwinNotes.CF.Array
open Lib List

section Refinement

variable {α : Type}

/-- The array has the values of a list, inside its block. -/
structure Refines (array : MutableArray α) (list : List α) : Prop where
  count : array.count = list.length
  empty : array.store = none → list = []
  holds : ∀ deque, array.store = some deque → Holds deque deque.leftIdx (list.map some)

variable {array : MutableArray α} {list : List α} {deque : Deque α}

/-- The block has room for the values. -/
theorem Refines.inside (refines : Refines array list) (isStore : array.store = some deque)
    : 0 ≤ deque.leftIdx ∧ deque.leftIdx + array.count ≤ deque.capacity := by
  have holds := refines.holds deque isStore
  have inside := holds.inside
  rw [length_map] at inside
  rw [refines.count]
  exact ⟨holds.nonneg, inside⟩

variable {location length : Nat}

theorem length_left (inRange : location ≤ list.length) : ((list.take location).map some).length = location := by
  rw [length_map, length_take_of_le inRange]

/-- What is in front of a range of the list, the range and what is behind it. -/
theorem Holds.parts {start : Int} (holds : Holds deque start (list.map some)) (inRange : location + length ≤ list.length) :
    Holds deque start ((list.take location).map some) ∧ Holds deque (start + location) (((list.drop location).take length).map some) ∧
      Holds deque (start + location + length) ((list.drop (location + length)).map some) := by
  have middle := length_left (by rw [length_drop]; omega : length ≤ (list.drop location).length)
  rw [← take_append_drop location list, ← take_append_drop length (list.drop location), drop_drop, map_append, map_append, holds_append,
    holds_append, length_left (by omega), middle] at holds
  exact holds

/-- `CFArrayGetValues` gives the values of the list. -/
theorem Refines.getValues (refines : Refines array list) (inRange : location + length ≤ list.length) :
    getValues array location length = .ok (((list.drop location).take length).map some) := by
  rw [Array.getValues]
  by_cases positive : 0 < length
  · rw [if_pos positive]
    cases isStore : array.store with
    | none =>
      rw [refines.empty isStore, length_nil] at inRange
      omega
    | some deque =>
      have read := ((refines.holds deque isStore).parts inRange).2.1.read
      rwa [length_left (by rw [length_drop]; omega)] at read
  · have zero : length = 0 := by omega
    rw [if_neg positive, zero, take_zero, map_nil]

theorem Refines.of_holds (holds : Holds deque deque.leftIdx (list.map some)) {count : Nat} (isCount : count = list.length)
    : Refines { count := count, store := some deque } list where
  count := isCount
  empty := nofun
  holds := by
    rintro _ ⟨rfl⟩
    exact holds

/-! ## Replacing a range -/

variable (retain : α → α)

/-- The list with a range replaced. -/
def replaceList (list : List α) (location length : Nat) (newValues : List α) : List α :=
  list.take location ++ newValues.map retain ++ list.drop (location + length)

/-- Every new block that a replacement needs has a size that is an `int`. -/
def FitsReplace (array : MutableArray α) (location length newCount : Nat) : Prop :=
  match array.store with
  | none => array.count - length + newCount < 2 ^ 30
  | some deque => length ≠ newCount → deque.Fits
      { A := location, B := length, C := array.count - length - location, newCount := newCount }

instance (array : MutableArray α) (location length newCount : Nat) : Decidable (FitsReplace array location length newCount) :=
  match array with
  | ⟨_, none⟩ => inferInstanceAs (Decidable (_ < _))
  | ⟨_, some _⟩ => inferInstanceAs (Decidable (_ → _))

/-- The gap is filled with the new values. -/
theorem fill_spec {left right : List (Option α)} {newv : List (Option α)} (opened : Opened deque left right newv.length) :
    ∃ after, (if 0 < newv.length then deque.write (deque.leftIdx + left.length) newv else .ok deque) = .ok after ∧
      Holds after after.leftIdx (left ++ newv ++ right) := by
  have nonneg := opened.heldLeft.nonneg
  have inside := opened.heldRight.inside
  split
  case isTrue =>
    obtain ⟨after, isAfter, wrote⟩ := write_spec (by omega : 0 ≤ deque.leftIdx + left.length)
      (by omega : deque.leftIdx + left.length + newv.length ≤ deque.capacity)
    have keptLeft := wrote.others _ _ opened.heldLeft (.inl (by omega))
    have keptRight := wrote.others _ _ opened.heldRight (.inr (by omega))
    refine ⟨after, isAfter, ?_⟩
    rw [wrote.leftIdx]
    rw [append_assoc]
    exact holds_append.mpr ⟨keptLeft, holds_append.mpr ⟨wrote.holds, keptRight⟩⟩
  case isFalse =>
    have isNil : newv = [] := length_eq_zero_iff.mp (by omega)
    subst isNil
    refine ⟨deque, rfl, ?_⟩
    rw [append_nil]
    exact holds_append.mpr ⟨opened.heldLeft, by simpa using opened.heldRight⟩

theorem Deque.Fits.congr {after : Deque α} {regions : Regions} (fits : deque.Fits regions) (leftIdx : after.leftIdx = deque.leftIdx)
    (capacity : after.capacity = deque.capacity) : after.Fits regions := by
  intro tight
  simp only [Deque.isTight, Deque.wiggle, leftIdx, capacity] at tight
  simp only [Deque.wiggle, capacity]
  exact fits tight

/-- The two sides of a range of the list are on the two sides of its buckets. -/
theorem opened_of_holds (holds : Holds deque deque.leftIdx (list.map some)) (inRange : location + length ≤ list.length) :
    Opened deque ((list.take location).map some) ((list.drop (location + length)).map some) length := by
  obtain ⟨left, -, right⟩ := holds.parts inRange
  refine ⟨left, ?_⟩
  rwa [length_left (by omega)]

theorem newDeque_spec {newCount : Nat} (small : newCount < 2 ^ 30) :
    ∃ deque : Deque α, newDeque newCount newCount = .ok deque ∧ Opened deque [] [] newCount := by
  have large := roundUpCapacity_gt (by omega : (newCount : Int) < 2 ^ 30)
  rw [newDeque]
  simp only [allocate]
  rw [if_pos (by omega), Int.tdiv_eq_ediv_of_nonneg (by omega)]
  refine ⟨_, rfl, Holds.nil ?_ ?_, Holds.nil ?_ ?_⟩ <;> simp only [length_nil] <;> omega

variable (refines : Refines array list)
include refines

/-- The range of the list is empty buckets, and its two sides are around them. -/
theorem openRange_spec {newCount : Nat} (inRange : location + length ≤ list.length) (small : list.length - length + newCount < 2 ^ 31)
    (fits : FitsReplace array location length newCount) : ∃ deque, openRange array location length newCount = .ok deque ∧
      Opened deque ((list.take location).map some) ((list.drop (location + length)).map some) newCount := by
  have count := refines.count
  rw [FitsReplace] at fits
  rw [openRange]
  cases isStore : array.store with
  | none =>
    have empty := refines.empty isStore
    subst empty
    rw [length_nil] at count inRange
    rw [isStore] at fits
    have isNew : array.count - length + newCount = newCount := by omega
    rw [isNew] at fits
    simp only [isNew, take_nil, drop_nil, map_nil]
    exact newDeque_spec fits
  | some deque =>
    have leftSize := length_left (by omega : location ≤ list.length)
    have rightSize : ((list.drop (location + length)).map some).length = (array.count - length - location : Int) := by
      rw [length_map, length_drop, count]
      omega
    have regions : Regions.mk location length (array.count - length - location) newCount =
        regionsOf ((list.take location).map some) ((list.drop (location + length)).map some) length newCount := by
      rw [regionsOf, leftSize, rightSize]
    rw [isStore] at fits
    have opened := opened_of_holds (refines.holds deque isStore) inRange
    have nonneg := opened.heldLeft.nonneg
    have inside := opened.heldRight.inside
    obtain ⟨cleared, isCleared, opened, leftIdx, capacity⟩ := opened.clear_if (0 < length)
      (by omega : _ → 0 ≤ deque.leftIdx + location ∧ (0 : Int) ≤ length ∧ _) (by omega) (by omega)
    simp only [isCleared, ok_bind]
    split
    case isTrue differs =>
      rw [regions]
      refine repositionRegions_spec opened ?_ ?_
      · simp only [Regions.futureCnt]
        omega
      · rw [← regions]
        exact (fits differs).congr leftIdx capacity
    case isFalse =>
      have isLength : length = newCount := by omega
      subst isLength
      exact ⟨cleared, rfl, opened⟩

theorem replaceValues_spec {newValues : List α} (inRange : location + length ≤ list.length)
    (small : list.length - length + newValues.length < 2 ^ 31) (fits : FitsReplace array location length newValues.length) :
    ∃ after, replaceValues retain array location length newValues = .ok after ∧
      Refines after (replaceList retain list location length newValues) := by
  have count := refines.count
  obtain ⟨_, isOpen, opened⟩ := openRange_spec refines inRange small fits
  have newSize : ((newValues.map retain).map some).length = newValues.length := by rw [length_map, length_map]
  rw [← newSize] at opened
  obtain ⟨after, isFilled, holds⟩ := fill_spec opened
  rw [length_left (by omega), newSize] at isFilled
  refine ⟨{ count := array.count - length + newValues.length, store := some after }, ?_, ?_⟩
  · simp only [replaceValues, isOpen, ok_bind, isFilled]
    rfl
  · apply Refines.of_holds
    · rw [replaceList, map_append, map_append]
      exact holds
    · simp only [replaceList, length_append, length_take, length_map, length_drop]
      omega

/-! ## Single buckets -/

theorem setBucket_spec {idx : Nat} (inRange : idx < list.length) (value : α) :
    ∃ after, setBucket array idx (some value) = .ok after ∧ Refines after (list.set idx value) := by
  cases isStore : array.store with
  | none =>
    rw [refines.empty isStore, length_nil] at inRange
    omega
  | some deque =>
    have opened : Opened deque _ _ [some value].length := opened_of_holds (refines.holds deque isStore) (by omega : idx + 1 ≤ list.length)
    obtain ⟨after, isFilled, holds⟩ := fill_spec opened
    rw [length_singleton, if_pos Nat.one_pos, length_left (by omega)] at isFilled
    refine ⟨{ array with store := some after }, ?_, ?_⟩
    · simp only [setBucket, isStore, isFilled, ok_bind]
      rfl
    · apply Refines.of_holds
      · rw [set_eq_take_append_cons_drop, if_pos inRange, map_append, map_cons]
        rw [append_assoc] at holds
        exact holds
      · rw [length_set, refines.count]

/-- The list with two values exchanged. -/
def exchangeList (list : List α) (idx1 idx2 : Nat) : List α :=
  match list[idx1]?, list[idx2]? with
  | some value1, some value2 => (list.set idx1 value2).set idx2 value1
  | _, _ => list

theorem Refines.getBucket {idx : Nat} (inRange : idx < list.length) : Array.getValues array idx 1 = .ok [some list[idx]] := by
  rw [refines.getValues (by omega), drop_eq_getElem_cons inRange, take_succ_cons, take_zero]
  rfl

theorem exchangeValuesAtIndices_spec {idx1 idx2 : Nat} (inRange1 : idx1 < list.length) (inRange2 : idx2 < list.length) :
    ∃ after, exchangeValuesAtIndices array idx1 idx2 = .ok after ∧ Refines after (exchangeList list idx1 idx2) := by
  obtain ⟨_, isHalf, refinesHalf⟩ := setBucket_spec refines inRange1 list[idx2]
  obtain ⟨after, isAfter, refinesAfter⟩ :=
    setBucket_spec refinesHalf (by rw [length_set]; exact inRange2 : idx2 < (list.set idx1 list[idx2]).length) list[idx1]
  refine ⟨after, ?_, ?_⟩
  · simp only [exchangeValuesAtIndices, refines.getBucket inRange1, refines.getBucket inRange2, ok_bind, head?_cons,
      Option.join_some, isHalf, isAfter]
  · simp only [exchangeList, getElem?_eq_getElem inRange1, getElem?_eq_getElem inRange2]
    exact refinesAfter

/-! ## The block -/

theorem removeAllValues_spec : removeAllValues array = .ok { count := 0, store := none } := by
  rw [removeAllValues]
  cases isStore : array.store with
  | none => rfl
  | some =>
    obtain ⟨nonneg, inside⟩ := refines.inside isStore
    obtain ⟨_, isAfter, -⟩ := clear_spec nonneg (by omega : (0 : Int) ≤ array.count) inside
    simp only [isAfter]
    split <;> rfl

omit refines

theorem refines_nil : Refines ({ count := 0, store := none } : MutableArray α) [] where
  count := rfl
  empty := fun _ => rfl
  holds := nofun

/-- The size of the block. -/
def MutableArray.capacity (array : MutableArray α) : Int :=
  match array.store with
  | none => 0
  | some deque => deque.capacity

/-- A list is in the block between what is in front of it and what is behind it. -/
theorem Holds.whole {start : Int} {values : List (Option α)} (holds : Holds deque start values) :
    ∃ front back : List (Option α), (front.length : Int) = start ∧
      ((front ++ (values ++ back)).length : Int) = deque.capacity ∧ Holds deque 0 (front ++ (values ++ back)) := by
  have nonneg := holds.nonneg
  have inside := holds.inside
  have isFront : ((load deque.buckets 0 start.toNat).length : Int) = start := by
    rw [length_load]
    omega
  generalize isBack : (deque.capacity - start - values.length).toNat = rest
  have isSize : ((load deque.buckets 0 start.toNat ++
      (values ++ load deque.buckets (start.toNat + values.length) rest)).length : Int) = deque.capacity := by
    simp only [length_append, length_load]
    omega
  refine ⟨_, _, isFront, isSize, holds_append.mpr ⟨⟨Int.le_refl 0, by omega, ?_⟩, ?_⟩⟩
  · rw [length_load]
    rfl
  · rw [isFront, Int.zero_add]
    refine holds_append.mpr ⟨holds, by omega, ?_, ?_⟩
    · rw [length_load]
      omega
    · rw [length_load]
      congr 1
      omega

/-- A block that is copied to one that is not smaller keeps its values. -/
theorem setCapacity_spec (refines : Refines array list) {cap : Nat} (larger : array.capacity ≤ roundUpCapacity cap) :
    ∃ after, setCapacity array cap = .ok after ∧ Refines after list := by
  rw [MutableArray.capacity] at larger
  rw [setCapacity]
  cases isStore : array.store with
  | none =>
    rw [isStore] at larger
    simp only at larger
    have empty := refines.empty isStore
    subst empty
    simp only [allocate, if_pos larger, ok_bind]
    refine ⟨_, rfl, Refines.of_holds (Holds.nil ?_ ?_) refines.count⟩ <;> simp only <;> omega
  | some deque =>
    rw [isStore] at larger
    simp only at larger
    obtain ⟨_, _, isFront, whole⟩ := (refines.holds deque isStore).whole
    have total := whole.1
    obtain ⟨after, isAfter, wrote⟩ := moveTo_spec ⟨deque.leftIdx, roundUpCapacity cap, fun _ => none⟩ 0 whole.2
      (Int.le_refl 0) (by simp only; omega)
    rw [total] at isAfter
    simp only [allocate, if_pos (by omega : 0 ≤ roundUpCapacity cap), ok_bind, isAfter]
    refine ⟨_, rfl, Refines.of_holds ?_ refines.count⟩
    have held := (holds_append.mp (holds_append.mp wrote.holds).2).1
    rw [Int.zero_add, isFront] at held
    rw [wrote.leftIdx]
    exact held

end Refinement

end DarwinNotes.CF.Array
