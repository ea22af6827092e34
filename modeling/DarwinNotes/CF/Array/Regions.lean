import DarwinNotes.CF.Array.Model

/-!
# Moving the regions of a deque

A range of buckets holds a list of values. A write puts a list into a range and
keeps what other ranges hold. From that, each of the five ways to open or close a range of the deque
keeps the values on both sides of it.
-/

namespace DarwinNotes.CF.Array
open Lib List

section Deque

variable {α : Type} {deque : Deque α}

/-! ## Ranges of buckets -/

/-- The buckets from `start` on hold the values. -/
structure Holds (deque : Deque α) (start : Int) (values : List (Option α)) : Prop where
  nonneg : 0 ≤ start
  inside : start + values.length ≤ deque.capacity
  loaded : load deque.buckets start.toNat values.length = values

variable {start : Int}

theorem Holds.nil (nonneg : 0 ≤ start) (inside : start ≤ deque.capacity) : Holds deque start [] := ⟨nonneg, by simpa using inside, rfl⟩

variable {values values' : List (Option α)}

theorem holds_append : Holds deque start (values ++ values') ↔ Holds deque start values ∧ Holds deque (start + values.length) values' := by
  constructor
  · rintro ⟨nonneg, inside, loaded⟩
    rw [length_append] at inside loaded
    rw [load_append] at loaded
    obtain ⟨first, second⟩ := append_inj loaded (length_load _ _ _)
    have offset : start.toNat + values.length = (start + values.length).toNat := by omega
    exact ⟨⟨nonneg, by omega, first⟩, by omega, by omega, offset ▸ second⟩
  · rintro ⟨⟨nonneg, _, first⟩, _, inside, second⟩
    have offset : start.toNat + values.length = (start + values.length).toNat := by omega
    rw [← offset] at second
    refine ⟨nonneg, ?_, by rw [length_append, load_append, first, second]⟩
    rw [length_append]
    omega

theorem Holds.read (holds : Holds deque start values) : deque.read start values.length = .ok values := by
  rw [Deque.read, if_pos ⟨holds.nonneg, holds.inside⟩, Int.toNat_natCast, holds.loaded]

/-- A list was written to the buckets from `start` on. -/
structure Wrote (before after : Deque α) (start : Int) (values : List (Option α)) : Prop where
  leftIdx : after.leftIdx = before.leftIdx
  capacity : after.capacity = before.capacity
  holds : Holds after start values
  others : ∀ start' values', Holds before start' values' →
    start' + values'.length ≤ start ∨ start + values.length ≤ start' → Holds after start' values'

theorem write_spec (nonneg : 0 ≤ start) (inside : start + values.length ≤ deque.capacity) :
    ∃ after, deque.write start values = .ok after ∧ Wrote deque after start values := by
  refine ⟨_, if_pos ⟨nonneg, inside⟩, rfl, rfl, ⟨nonneg, inside, load_store_same _ _ rfl⟩, ?_⟩
  intro start' values' holds apart
  have nonneg' := holds.nonneg
  refine ⟨nonneg', holds.inside, ?_⟩
  have kept := load_store_disjoint deque.buckets
    (by omega : start'.toNat + values'.length ≤ start.toNat ∨ start.toNat + values.length ≤ start'.toNat)
  exact kept.trans holds.loaded

theorem clear_spec {length : Int} (nonneg : 0 ≤ start) (positive : 0 ≤ length) (inside : start + length ≤ deque.capacity) :
    ∃ after, deque.clear start length = .ok after ∧ Wrote deque after start (replicate length.toNat none) := by
  apply write_spec nonneg
  rw [length_replicate]
  omega

theorem moveTo_spec (deque : Deque α) {source : Deque α} (dst : Int) {src : Int} (holds : Holds source src values) (nonneg : 0 ≤ dst)
    (inside : dst + values.length ≤ deque.capacity) :
    ∃ after, deque.moveTo source dst src values.length = .ok after ∧ Wrote deque after dst values := by
  by_cases some : (0 : Int) < values.length
  · rw [Deque.moveTo, if_pos some, holds.read]
    exact write_spec nonneg inside
  · have empty : values = [] := length_eq_zero_iff.mp (by omega)
    subst empty
    exact ⟨deque, if_neg some, rfl, rfl, Holds.nil nonneg (by simpa using inside), fun _ _ holds' _ => holds'⟩

/-! ## The two sides of a range -/

/-- The deque holds the values on both sides of a range of `gap` buckets. -/
structure Opened (deque : Deque α) (left right : List (Option α)) (gap : Nat) : Prop where
  heldLeft : Holds deque deque.leftIdx left
  heldRight : Holds deque (deque.leftIdx + left.length + gap) right

/-- The regions of a range between two lists of values. -/
abbrev regionsOf (left right : List (Option α)) (length newCount : Nat) : Regions :=
  { A := left.length, B := length, C := right.length, newCount := newCount }

variable {left right : List (Option α)} {length newCount : Nat}

/-- Buckets that hold none of the values are emptied, where it is necessary. -/
theorem Opened.clear_if (opened : Opened deque left right newCount) (p : Prop) [Decidable p] {length : Int}
    (bounds : p → 0 ≤ start ∧ 0 ≤ length ∧ start + length ≤ deque.capacity)
    (apartLeft : p → deque.leftIdx + left.length ≤ start ∨ start + length ≤ deque.leftIdx)
    (apartRight : p → deque.leftIdx + left.length + newCount + right.length ≤ start ∨ start + length ≤ deque.leftIdx + left.length + newCount) :
    ∃ after, (if p then deque.clear start length else .ok deque) = .ok after ∧ Opened after left right newCount ∧
      after.leftIdx = deque.leftIdx ∧ after.capacity = deque.capacity := by
  split
  case isTrue isNeeded =>
    obtain ⟨nonneg, positive, inside⟩ := bounds isNeeded
    have isApart := apartLeft isNeeded
    have isApart' := apartRight isNeeded
    obtain ⟨after, isAfter, wrote⟩ := clear_spec nonneg positive inside
    have cleared : (replicate length.toNat (none : Option α)).length = length := by
      rw [length_replicate]
      omega
    refine ⟨after, isAfter, ⟨?_, ?_⟩, wrote.leftIdx, wrote.capacity⟩ <;> rw [wrote.leftIdx]
    · exact wrote.others _ _ opened.heldLeft (by omega)
    · exact wrote.others _ _ opened.heldRight (by omega)
  case isFalse => exact ⟨deque, rfl, opened, rfl, rfl⟩

theorem roundUpCapacity_gt {capacity : Int} (small : capacity < 2 ^ 30) : capacity < roundUpCapacity capacity := by
  rw [roundUpCapacity]
  split
  case isTrue tiny => exact tiny
  case isFalse =>
  have size_le : flsl capacity.toNat ≤ 30 := Nat.size_le.mpr (by omega)
  have lt_size : capacity.toNat < 2 ^ flsl capacity.toNat := Nat.lt_size_self _
  have bound : 2 ^ flsl capacity.toNat ≤ 2 ^ 30 := Nat.pow_le_pow_right (by decide) size_le
  rw [Nat.mod_eq_of_lt (by omega), Int.bmod_eq_of_le]
  · omega
  · omega
  · omega

/-- The parts are copied to a block that is large enough. -/
theorem reallocate_spec (opened : Opened deque left right length)
    (fits : (regionsOf left right length newCount).futureCnt + deque.wiggle < 2 ^ 30) :
    ∃ after, deque.reallocate (regionsOf left right length newCount) = .ok after ∧ Opened after left right newCount := by
  have large := roundUpCapacity_gt fits
  have wiggle : 4 ≤ deque.wiggle := Int.le_max_right _ _
  simp only [Deque.reallocate]
  generalize roundUpCapacity _ = capacity at large
  simp only [Regions.futureCnt] at large ⊢
  rw [allocate, if_pos (by omega), Int.tdiv_eq_ediv_of_nonneg (by omega)]
  generalize isL : (capacity - (left.length + right.length + newCount)) / 2 = newL
  obtain ⟨copied, isCopied, wrote⟩ := moveTo_spec ⟨newL, capacity, fun _ => none⟩ newL opened.heldLeft (by omega)
    (by simp only; omega)
  have isCapacity := wrote.capacity
  obtain ⟨after, isAfter, wrote'⟩ := moveTo_spec copied (newL + left.length + newCount) opened.heldRight
    (by omega) (by simp only at isCapacity; omega)
  refine ⟨after, ?_, ?_⟩
  · rw [ok_bind, isCopied, ok_bind, isAfter]
  · have isLeft : after.leftIdx = newL := by rw [wrote'.leftIdx, wrote.leftIdx]
    constructor
    · rw [isLeft]
      exact wrote'.others _ _ wrote.holds (.inl (by omega))
    · rw [isLeft]
      exact wrote'.holds

section Moves

variable {newL oldL oldC : Int} (isLeft : deque.leftIdx = newL)
include isLeft

/-- What is right of the range moves, and the buckets it leaves are emptied. -/
theorem moveRight_spec (newCount : Nat) (heldLeft : Holds deque newL left) (heldRight : Holds deque oldC right)
    (room : newL + left.length + newCount + right.length ≤ deque.capacity) :
    ∃ after, (deque.moveTo deque (newL + left.length + newCount) oldC right.length >>= fun moved =>
        if newL + left.length + newCount < oldC then
          moved.clear (newL + left.length + newCount + right.length) (oldC - (newL + left.length + newCount)) else .ok moved) = .ok after ∧
      Opened after left right newCount := by
  have nonneg := heldLeft.nonneg
  have inside := heldRight.inside
  obtain ⟨moved, isMoved, wrote⟩ := moveTo_spec deque (newL + left.length + newCount) heldRight (by omega) room
  have isLeft' : moved.leftIdx = newL := wrote.leftIdx.trans isLeft
  have opened : Opened moved left right newCount :=
    ⟨isLeft' ▸ wrote.others _ _ heldLeft (.inl (by omega)), isLeft' ▸ wrote.holds⟩
  have capacity := wrote.capacity
  rw [isMoved, ok_bind]
  exact (opened.clear_if _ (by omega) (by omega) (by omega)).imp fun _ cleared => ⟨cleared.1, cleared.2.1⟩

/-- What is left of the range moves, and the buckets it leaves are emptied. -/
theorem moveLeft_spec {source : Deque α} (heldLeft : Holds source oldL left)
    (heldRight : Holds deque (newL + left.length + newCount) right) (nonnegL : 0 ≤ newL) :
    ∃ after, (deque.moveTo source newL oldL left.length >>= fun moved =>
        if oldL < newL then moved.clear oldL (newL - oldL) else .ok moved) = .ok after ∧ Opened after left right newCount := by
  have nonneg := heldLeft.nonneg
  have inside := heldRight.inside
  obtain ⟨moved, isMoved, wrote⟩ := moveTo_spec deque newL heldLeft nonnegL (by omega)
  have isLeft' : moved.leftIdx = newL := wrote.leftIdx.trans isLeft
  have opened : Opened moved left right newCount :=
    ⟨isLeft' ▸ wrote.holds, isLeft' ▸ wrote.others _ _ heldRight (.inr (by omega))⟩
  have capacity := wrote.capacity
  rw [isMoved, ok_bind]
  exact (opened.clear_if _ (by omega) (by omega) (by omega)).imp fun _ cleared => ⟨cleared.1, cleared.2.1⟩

end Moves

variable (newCount : Nat) (opened : Opened deque left right length)
include opened

theorem moveC_spec (room : deque.leftIdx + left.length + newCount + right.length ≤ deque.capacity) :
    ∃ after, deque.moveC (regionsOf left right length newCount) = .ok after ∧ Opened after left right newCount :=
  moveRight_spec rfl newCount opened.heldLeft opened.heldRight room

theorem moveA_spec (room : newCount ≤ deque.leftIdx + length) :
    ∃ after, deque.moveA (regionsOf left right length newCount) = .ok after ∧ Opened after left right newCount := by
  have nonnegL : 0 ≤ deque.leftIdx - (newCount - length : Int) := by omega
  have place : deque.leftIdx + left.length + length = deque.leftIdx - (newCount - length) + left.length + newCount := by omega
  exact moveLeft_spec rfl opened.heldLeft { place ▸ opened.heldRight with } nonnegL

/-- To the left A moves first, to the right C. -/
theorem recenter_spec (room : left.length + right.length + newCount ≤ deque.capacity) :
    ∃ after, deque.recenter (regionsOf left right length newCount) = .ok after ∧ Opened after left right newCount := by
  have bounds : 0 ≤ deque.centeredL (regionsOf left right length newCount) ∧
      deque.centeredL (regionsOf left right length newCount) + left.length + newCount + right.length ≤ deque.capacity := by
    simp only [Deque.centeredL, Regions.numNewElems]
    rw [Int.tdiv_eq_ediv_of_nonneg (by omega), Int.tdiv_eq_ediv_of_nonneg (by omega)]
    omega
  rw [Deque.recenter]
  generalize deque.centeredL (regionsOf left right length newCount) = newL at bounds
  have heldLeft : Holds { deque with leftIdx := newL } deque.leftIdx left := { opened.heldLeft with }
  have heldRight : Holds { deque with leftIdx := newL } (deque.leftIdx + left.length + length) right := { opened.heldRight with }
  dsimp only
  split
  case isTrue =>
    obtain ⟨moved, isMoved, wrote⟩ := moveTo_spec { deque with leftIdx := newL } newL heldLeft bounds.1 (by simp only; omega)
    have capacity : moved.capacity = deque.capacity := wrote.capacity
    rw [isMoved, ok_bind]
    exact moveRight_spec wrote.leftIdx newCount wrote.holds (wrote.others _ _ heldRight (.inr (by omega)))
      (by simp only; omega)
  case isFalse =>
    obtain ⟨moved, isMoved, wrote⟩ := moveTo_spec { deque with leftIdx := newL } (newL + left.length + newCount) heldRight (by omega) bounds.2
    rw [isMoved, ok_bind]
    exact moveLeft_spec wrote.leftIdx (wrote.others _ _ heldLeft (.inl (by omega))) wrote.holds bounds.1

omit opened

/-- The size of a new block stays an `int`. -/
def Deque.Fits (deque : Deque α) (regions : Regions) : Prop := deque.isTight regions → regions.futureCnt + deque.wiggle < 2 ^ 30

instance (deque : Deque α) (regions : Regions) : Decidable (deque.Fits regions) := inferInstanceAs (Decidable (_ → _))

/-- Whichever way it is done, the values on both sides of the range are kept. -/
theorem repositionRegions_spec {newCount : Nat} (opened : Opened deque left right length)
    (small : (regionsOf left right length newCount).futureCnt < 2 ^ 31)
    (fits : deque.Fits (regionsOf left right length newCount)) :
    ∃ after, deque.repositionRegions (regionsOf left right length newCount) = .ok after ∧ Opened after left right newCount := by
  have nonneg := opened.heldLeft.nonneg
  have inside := opened.heldRight.inside
  rw [Deque.repositionRegions]
  dsimp only
  split
  case isTrue tight => exact reallocate_spec opened (fits tight)
  case isFalse tight =>
  have enough := (not_or.mp tight).1
  simp only [Regions.futureCnt] at small enough
  have isNew : (regionsOf left right length newCount).numNewElems = newCount - length := rfl
  split
  case isTrue => exact moveC_spec newCount opened (by omega)
  case isFalse =>
  split
  case isTrue => exact moveA_spec newCount opened (by omega)
  case isFalse => exact recenter_spec newCount opened (by omega)

end Deque

end DarwinNotes.CF.Array
