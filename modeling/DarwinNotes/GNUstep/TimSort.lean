import DarwinNotes.Lib.StableSort

/-!
# Galloping search (`GSTimSort.m`)

The place of a key in a sorted range of a buffer is looked for from a hint on. Steps of 1, 3, 7, … go from the hint in the direction in which
the place is, until they have passed it or the end of the range, and a binary search between the last two of them finds it.
-/

namespace DarwinNotes.GNUstep.TimSort
open List

variable {α : Type}

/-- A range of a buffer, and the comparison it is searched with. -/
structure Search (α : Type) where
  buf : List α
  location : Nat
  length : Nat
  compare : α → α → Ordering
  inside : location + length ≤ buf.length
  /-- The elements of the buffer are pointers. -/
  fits : 8 * buf.length < 2 ^ 64

/-- `offset = (offset << 1) + 1; if (offset <= 0) offset = maxOffset;` -/
def nextOffset (maxOffset offset : Int) : Int :=
  let next := (2 * offset + 1).bmod (2 ^ 64)
  if next ≤ 0 then maxOffset else next

/-- The loop `while (offset < maxOffset)`, which goes on where `test` holds; its `offset` and `lastOffset`. -/
def gallop (test : Int → Option Bool) (maxOffset : Int) : Nat → Int → Int → Option (Int × Int)
  | 0, _, _ => none
  | fuel + 1, offset, lastOffset => do
    if offset < maxOffset then
      if ← test offset then gallop test maxOffset fuel (nextOffset maxOffset offset) offset else return (offset, lastOffset)
    else return (offset, lastOffset)

/-- The loop `while (lastOffset < offset)`; the place is behind those where `test` holds. -/
def bisect (test : Int → Option Bool) : Nat → Int → Int → Option Int
  | 0, _, _ => none
  | fuel + 1, lastOffset, offset => do
    if lastOffset < offset then
      let midPoint := lastOffset + (offset - lastOffset) / 2
      if ← test midPoint then bisect test fuel (midPoint + 1) offset else bisect test fuel lastOffset midPoint
    else return offset

namespace Search

variable (r : Search α) (key : α) (hint : Nat)

/-- The elements of the range. -/
def range : List α := (r.buf.drop r.location).take r.length

/-- `buf[place]`, for a place in the range; there is nothing to read outside of it. -/
def read (place : Int) : Option α :=
  if r.location ≤ place ∧ place < r.location + r.length then r.buf[place.toNat]? else none

/-- `buf[place]` is ascending to `key`. -/
def below (place : Int) : Option Bool := (r.read place).map fun item => r.compare item key = .lt

/-- `key` is ascending to `buf[place]`. -/
def above (place : Int) : Option Bool := (r.read place).map fun item => r.compare key item = .lt

/-- The end of `gallopLeft` and `gallopRight`: the offsets are moved into the range, and the search is between them. `MIN` compares
with the `NSUInteger` that is `NSMaxRange(r)`. -/
def between (test : Int → Option Bool) (lastOffset offset : Int) : Option Int :=
  bisect test (r.length + 1) (if lastOffset < r.location then r.location else lastOffset)
    (if offset % 2 ^ 64 < r.location + r.length then offset else r.location + r.length)

def gallopLeft : Option Int := do
  let base : Int := r.location + hint
  if ← r.below key base then
    let maxOffset : Int := r.length - hint
    let (offset, lastOffset) ← gallop (fun offset => r.below key (base + offset)) maxOffset r.length 1 0
    let offset := if offset > maxOffset then maxOffset else offset
    r.between (r.below key) (lastOffset + base) (offset + base)
  else
    let maxOffset : Int := hint + 1
    let (offset, lastOffset) ← gallop (fun offset => (r.below key (base - offset)).map not) maxOffset r.length 1 0
    r.between (r.below key) (base - offset) (base - lastOffset)

def gallopRight : Option Int := do
  let base : Int := r.location + hint
  if ← r.above key base then
    let maxOffset : Int := hint + 1
    let (offset, lastOffset) ← gallop (fun offset => r.above key (base - offset)) maxOffset r.length 1 0
    let offset := if offset > maxOffset then maxOffset else offset
    r.between (fun place => (r.above key place).map not) (base - offset + 1) (base - lastOffset)
  else
    let maxOffset : Int := r.length - hint
    let (offset, lastOffset) ← gallop (fun offset => (r.above key (base + offset)).map not) maxOffset r.length 1 0
    r.between (fun place => (r.above key place).map not) (lastOffset + base + 1) (offset + base)

/-- `GSLeftInsertionPointForKeyInSortedRange` -/
def leftInsertionPoint : Option Int := r.gallopLeft key 0

/-- `GSRightInsertionPointForKeyInSortedRange` -/
def rightInsertionPoint : Option Int := r.gallopRight key 0

/-- In the range `test` tells the places in front of `point`, where it is `front`, from the others. -/
def Splits (test : Int → Option Bool) (front : Bool) (point : Int) : Prop :=
  ∀ place : Int, r.location ≤ place → place < r.location + r.length → test place = some (decide (place < point) == front)

end Search

/-- What is known behind the steps: they stop where the test holds no longer or behind the end, with the last one in front of that. -/
def Stops (maxOffset stop : Int) (result : Option (Int × Int)) : Prop :=
  ∃ offset lastOffset, result = some (offset, lastOffset) ∧ 0 ≤ lastOffset ∧ lastOffset < stop ∧ offset < 2 ^ 63 ∧
    (offset < maxOffset → stop ≤ offset)

variable {test : Int → Option Bool} {r : Search α} {hint : Nat} {point : Int} (key : α)

theorem gallop_stops {maxOffset stop : Int} (tests : ∀ offset, 0 < offset → offset < maxOffset → test offset = some (decide (offset < stop)))
    (small : maxOffset < 2 ^ 61) {fuel : Nat} {offset lastOffset : Int} (positive : 0 < fuel) (enough : maxOffset < fuel + offset)
    (nonneg : 0 ≤ lastOffset) (next : lastOffset < offset) (before : lastOffset < stop) (bound : offset < 2 ^ 63) :
    Stops maxOffset stop (gallop test maxOffset fuel offset lastOffset) := by
  induction fuel generalizing offset lastOffset with
  | zero => cases positive
  | succ fuel ih =>
    rw [gallop]
    split
    case isFalse past => exact ⟨offset, lastOffset, rfl, nonneg, before, bound, fun inside => absurd inside past⟩
    case isTrue inside =>
    rw [tests offset (by omega) inside, Option.bind_eq_bind, Option.bind_some]
    split
    case isTrue holds =>
      rw [decide_eq_true_iff] at holds
      have isNext : nextOffset maxOffset offset = 2 * offset + 1 := by
        unfold nextOffset
        rw [Int.bmod_eq_of_le (by omega) (by omega), if_neg (by omega)]
      rw [isNext]
      exact ih (by omega) (by omega) (by omega) (by omega) holds (by omega)
    case isFalse stops => exact ⟨offset, lastOffset, rfl, nonneg, before, bound, fun _ => by simpa using stops⟩

theorem bisect_eq (splits : r.Splits test true point) {fuel : Nat} {lastOffset offset : Int} (enough : offset < fuel + lastOffset)
    (first : r.location ≤ lastOffset) (last : offset ≤ r.location + r.length) (before : lastOffset ≤ point) (behind : point ≤ offset) :
    bisect test fuel lastOffset offset = some point := by
  induction fuel generalizing lastOffset offset with
  | zero => omega
  | succ fuel ih =>
    rw [bisect]
    split
    case isFalse =>
      obtain rfl : offset = point := by omega
      rfl
    case isTrue =>
    simp only [splits (lastOffset + (offset - lastOffset) / 2) (by omega) (by omega), Option.bind_eq_bind, Option.bind_some, beq_true,
      decide_eq_true_iff]
    split
    · exact ih (by omega) (by omega) last (by omega) behind
    · exact ih (by omega) first (by omega) before (by omega)

theorem Search.Splits.not {front : Bool} (splits : r.Splits test front point) :
    r.Splits (fun place => (test place).map Bool.not) (!front) point := by
  intro place first last
  simp only [splits place first last, Option.map_some]
  cases front <;> simp

section Directions

variable (below : hint < r.length)
include below

theorem gallop_up (splits : r.Splits test true point) (before : r.location + hint < point) :
    Stops (r.length - hint) (point - (r.location + hint))
      (gallop (fun offset => test (r.location + hint + offset)) (r.length - hint) r.length 1 0) := by
  have := r.inside
  have := r.fits
  apply gallop_stops
  case tests =>
    intro offset _ inside
    rw [splits _ (by omega) (by omega), beq_true]
    exact congrArg some (decide_eq_decide.mpr (by omega))
  all_goals omega

theorem gallop_down (splits : r.Splits test false point) (behind : point ≤ r.location + hint) :
    Stops (hint + 1) (r.location + hint - point + 1)
      (gallop (fun offset => test (r.location + hint - offset)) (hint + 1) r.length 1 0) := by
  have := r.inside
  have := r.fits
  apply gallop_stops
  case tests =>
    intro offset _ inside
    rw [splits _ (by omega) (by omega), beq_false, ← decide_not]
    exact congrArg some (decide_eq_decide.mpr (by omega))
  all_goals omega

variable (first : r.location ≤ point) (last : point ≤ r.location + r.length)
include first last

omit below in
theorem between_eq (splits : r.Splits test true point) {lastOffset offset : Int} (before : lastOffset < r.location ∨ lastOffset ≤ point)
    (behind : point ≤ offset) (small : offset < 2 ^ 64) : r.between test lastOffset offset = some point := by
  rw [Search.between, Int.emod_eq_of_lt (by omega) small]
  apply bisect_eq splits <;> grind

theorem gallopLeft_eq (splits : r.Splits (r.below key) true point) : r.gallopLeft key hint = some point := by
  have := r.inside
  have := r.fits
  unfold Search.gallopLeft
  simp only [splits (r.location + hint) (by omega) (by omega), Option.bind_eq_bind, Option.bind_some, beq_true, decide_eq_true_iff]
  split
  case isTrue before =>
    obtain ⟨offset, lastOffset, gallops, _⟩ := gallop_up below splits before
    rw [gallops, Option.bind_some]
    apply between_eq first last splits <;> grind
  case isFalse behind =>
    obtain ⟨offset, lastOffset, gallops, _⟩ := gallop_down below splits.not (by omega)
    rw [gallops, Option.bind_some]
    apply between_eq first last splits <;> grind

theorem gallopRight_eq (splits : r.Splits (r.above key) false point) : r.gallopRight key hint = some point := by
  have := r.inside
  have := r.fits
  unfold Search.gallopRight
  simp only [splits (r.location + hint) (by omega) (by omega), Option.bind_eq_bind, Option.bind_some, beq_false, Bool.not_eq_true',
    decide_eq_false_iff_not]
  split
  case isTrue behind =>
    obtain ⟨offset, lastOffset, gallops, _⟩ := gallop_down below splits (by omega)
    rw [gallops, Option.bind_some]
    apply between_eq first last splits.not <;> grind
  case isFalse before =>
    obtain ⟨offset, lastOffset, gallops, _⟩ := gallop_up below splits.not (by omega)
    rw [gallops, Option.bind_some]
    apply between_eq first last splits.not <;> grind

end Directions

section Counting

variable {p : α → Bool}

theorem splits_of_pairwise (front : r.range.Pairwise fun a b => p b = true → p a = true) :
    r.Splits (fun place => (r.read place).map p) true (r.location + r.range.countP p) := by
  intro place first last
  obtain ⟨item, isItem, isP⟩ := Lib.slice_countP r.inside front (i := place.toNat - r.location) (by omega)
  rw [show r.location + (place.toNat - r.location) = place.toNat by omega] at isItem
  simp only [Search.read, if_pos (And.intro first last), isItem, Option.map_some, beq_true, Option.some_inj]
  rw [Bool.eq_iff_iff, isP, decide_eq_true_iff, Search.range]
  omega

theorem countP_range_le : (r.location + r.range.countP p : Int) ≤ r.location + r.length := by
  have bound : r.range.countP p ≤ r.length := Nat.le_trans countP_le_length (length_take_le _ _)
  omega

variable [Std.TransCmp r.compare] (sorted : r.range.Pairwise fun a b => (r.compare a b).isLE) (below : hint < r.length)
include sorted below

theorem gallopLeft_count : r.gallopLeft key hint = some (r.location + r.range.countP fun item => r.compare item key = .lt : Int) := by
  apply gallopLeft_eq key below (by omega) countP_range_le
  apply splits_of_pairwise
  apply sorted.imp
  intro a b isLE less
  rw [decide_eq_true_iff] at less ⊢
  exact Std.TransCmp.lt_of_isLE_of_lt isLE less

theorem gallopRight_count : r.gallopRight key hint = some (r.location + r.range.countP fun item => r.compare item key ≠ .gt : Int) := by
  apply gallopRight_eq key below (by omega) countP_range_le
  have isAbove : r.above key = fun place => ((r.read place).map fun item => decide (r.compare item key ≠ .gt)).map Bool.not := by
    funext place
    simp [Search.above, Function.comp_def, Std.OrientedCmp.gt_iff_lt]
  rw [isAbove]
  apply (splits_of_pairwise ?_).not
  apply sorted.imp
  intro a b isLE notGreater
  rw [decide_eq_true_iff, Ne, ← Ordering.isLE_iff_ne_gt] at notGreater ⊢
  exact Std.TransCmp.isLE_trans isLE notGreater

end Counting

/-- **Galloping finds the insertion points, from any hint.** In a sorted range the one is behind the elements that are less than the key
and the other one behind those that are not greater, and no element outside of the range is read. -/
theorem gallop_eq (r : Search α) [Std.TransCmp r.compare] (sorted : r.range.Pairwise fun a b => (r.compare a b).isLE) (key : α) (hint : Nat)
    (below : hint < r.length) :
    r.gallopLeft key hint = some (r.location + r.range.countP fun item => r.compare item key = .lt : Int) ∧
      r.gallopRight key hint = some (r.location + r.range.countP fun item => r.compare item key ≠ .gt : Int) ∧
      r.leftInsertionPoint key = r.gallopLeft key hint ∧ r.rightInsertionPoint key = r.gallopRight key hint := by
  have nonempty : 0 < r.length := by omega
  have isLeft := gallopLeft_count key sorted below
  have isRight := gallopRight_count key sorted below
  exact ⟨isLeft, isRight, (gallopLeft_count key sorted nonempty).trans isLeft.symm,
    (gallopRight_count key sorted nonempty).trans isRight.symm⟩

theorem gallop_eq_ties : (Search.mk [9, 1, 3, 3, 5, 0] 1 4 (@compare Nat _) (by decide) (by decide)).gallopRight 3 3 = some 4 :=
  have : Std.TransCmp (@compare Nat _) := inferInstance
  (@gallop_eq Nat ⟨[9, 1, 3, 3, 5, 0], 1, 4, compare, by decide, by decide⟩ this (by decide) 3 3 (by decide)).2.1

end DarwinNotes.GNUstep.TimSort
