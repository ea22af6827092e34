import DarwinNotes.CF.Array.Model
import DarwinNotes.Lib.StableSort

/-!
# Searching a sorted range (`CFArrayBSearchValues`)

The search goes by powers of two. The first probe is at the largest one that fits into the range, and the part on either
side of it that is searched then has that length, so that the two parts overlap.
-/

namespace DarwinNotes.CF.Array
open List

variable {α : Type}

/-- The arguments of `CFArrayBSearchValues`, with the values of the array. -/
structure BSearch (α : Type) where
  values : List α
  location : Nat
  length : Nat
  value : α
  comparator : α → α → Ordering

/-- `1 << lg` for an `int`. -/
def shifted (lg : Nat) : Int := Int.bmod (2 ^ (lg % 32) : Nat) (2 ^ 32)

namespace BSearch

variable (call : BSearch α)

/-- `CFArrayGetValueAtIndex`, for a place in the range; there is nothing to read outside of it. -/
def item (place : Int) : Option α :=
  if 0 ≤ place ∧ place < call.length then call.values[call.location + place.toNat]? else none

/-- The loop `while (lg--)`. -/
def probe (idx : Int) : Nat → Option Int
  | 0 => some idx
  | lg + 1 => do
    let item ← call.item (idx + shifted lg)
    probe (if call.comparator item call.value = .lt then idx + shifted lg else idx) lg

/-- `CFArrayBSearchValues` -/
def bSearchValues : Option Int := do
  if call.length = 0 then return call.location
  let item ← call.item (call.length - 1)
  if call.comparator item call.value = .lt then return call.location + call.length
  let item ← call.item 0
  if call.comparator call.value item = .lt then return call.location
  let lg := flsl call.length - 1
  let item ← call.item (-1 + shifted lg)
  let idx ← call.probe (if call.comparator item call.value = .lt then call.length - shifted lg else -1) lg
  return idx + 1 + call.location

/-- The values of the range. -/
def range : List α := (call.values.drop call.location).take call.length

/-- How many of them are less. -/
def lessCount : Nat := call.range.countP fun item => call.comparator item call.value = .lt

/-- The first `count` values of the range are those that are less. -/
def Splits (count : Nat) : Prop := ∀ place : Int, 0 ≤ place → place < call.length →
  ∃ item, call.item place = some item ∧ (call.comparator item call.value = .lt ↔ place < count)

end BSearch

theorem shifted_eq {lg : Nat} (small : lg ≤ 30) : shifted lg = (2 ^ lg : Nat) := by
  have bound : 2 ^ lg ≤ 2 ^ 30 := Nat.pow_le_pow_right (by decide) small
  unfold shifted
  rw [Nat.mod_eq_of_lt (by omega)]
  generalize 2 ^ lg = power at bound ⊢
  exact Int.bmod_eq_of_le (by omega) (by omega)

variable {call : BSearch α}

/-- In a sorted range the values that are less come first. -/
theorem splits_of_sorted [Std.TransCmp call.comparator] (inBounds : call.location + call.length ≤ call.values.length)
    (sorted : call.range.Pairwise fun a b => (call.comparator a b).isLE) : call.Splits call.lessCount := by
  intro place nonneg inside
  have first : call.range.Pairwise fun a b =>
      decide (call.comparator b call.value = .lt) = true → decide (call.comparator a call.value = .lt) = true := by
    apply sorted.imp
    intro a b isLE less
    rw [decide_eq_true_iff] at less ⊢
    exact Std.TransCmp.lt_of_isLE_of_lt isLE less
  obtain ⟨item, isItem, isLess⟩ := Lib.slice_countP inBounds first (i := place.toNat) (by omega)
  rw [decide_eq_true_iff] at isLess
  rw [BSearch.item, if_pos ⟨nonneg, inside⟩, BSearch.lessCount, BSearch.range]
  exact ⟨item, isItem, isLess.trans (by omega)⟩

/-- What is searched for is at one of the `2 ^ lg` places behind `idx`. -/
theorem probe_eq {count lg : Nat} (splits : call.Splits count) {idx : Int} (small : lg ≤ 31) (isIdx : -1 ≤ idx)
    (inside : idx + (2 ^ lg : Nat) ≤ call.length) (above : idx < count) (below : count ≤ idx + (2 ^ lg : Nat)) :
    call.probe idx lg = some (count - 1 : Int) := by
  induction lg generalizing idx with
  | zero =>
    rw [BSearch.probe, Option.some_inj]
    omega
  | succ lg ih =>
    obtain ⟨_, isItem, isLess⟩ := splits (idx + (2 ^ lg : Nat)) (by omega) (by omega)
    rw [BSearch.probe, shifted_eq (by omega), isItem, Option.bind_eq_bind, Option.bind_some]
    split
    case isTrue less => exact ih (by omega) (by omega) (by omega) (isLess.mp less) (by omega)
    case isFalse notLess =>
      rw [isLess] at notLess
      exact ih (by omega) isIdx (by omega) above (by omega)

/-- **The search finds the lower bound.** In a sorted range the call returns, without reading outside of the range, the place
behind the values that are less. -/
theorem bSearchValues_eq (call : BSearch α) [Std.TransCmp call.comparator] (inBounds : call.location + call.length ≤ call.values.length)
    (short : call.length < 2 ^ 31) (sorted : call.range.Pairwise fun a b => (call.comparator a b).isLE) :
    call.bSearchValues = some (call.location + call.lessCount : Int) := by
  have splits := splits_of_sorted inBounds sorted
  have bound : call.lessCount ≤ call.length := Nat.le_trans countP_le_length (length_take_le _ _)
  generalize call.lessCount = count at splits bound
  rw [BSearch.bSearchValues]
  split
  case isTrue =>
    obtain rfl : count = 0 := by omega
    rfl
  case isFalse nonempty =>
  obtain ⟨_, isLast, lastLess⟩ := splits (call.length - 1) (by omega) (by omega)
  obtain ⟨first, isFirst, firstLess⟩ := splits 0 (by omega) (by omega)
  simp only [isLast, isFirst, Option.bind_eq_bind, Option.bind_some]
  split
  case isTrue less =>
    rw [lastLess] at less
    obtain rfl : count = call.length := by omega
    rfl
  case isFalse =>
  split
  case isTrue greater =>
    rw [← Std.OrientedCmp.gt_iff_lt] at greater
    rw [greater] at firstLess
    obtain rfl : count = 0 := by simpa using firstLess
    rfl
  case isFalse =>
  generalize isLg : flsl call.length - 1 = lg
  have isSize : call.length.size = lg + 1 := by
    have := Nat.size_pos.mpr (Nat.pos_of_ne_zero nonempty)
    rw [flsl] at isLg
    omega
  have lower : 2 ^ lg ≤ call.length := Nat.lt_size.mp (by omega)
  have upper : call.length < 2 ^ (lg + 1) := Nat.size_le.mp (by omega)
  have small := Nat.size_le.mpr short
  obtain ⟨item, isItem, isLess⟩ := splits (-1 + (2 ^ lg : Nat)) (by omega) (by omega)
  rw [shifted_eq (by omega), isItem, Option.bind_some]
  -- on both sides of the first probe as many places are left as its distance
  have found : call.probe (if call.comparator item call.value = .lt then call.length - (2 ^ lg : Nat) else -1) lg = some (count - 1 : Int) := by
    simp only [isLess]
    split
    · exact probe_eq splits (by omega) (by omega) (by omega) (by omega) (by omega)
    · exact probe_eq splits (by omega) (by omega) (by omega) (by omega) (by omega)
  rw [found, Option.bind_some, Option.pure_def, Option.some_inj]
  omega

theorem bSearchValues_eq_ties : (BSearch.mk [9, 1, 3, 3, 5] 1 4 3 (@compare Nat _)).bSearchValues = some 2 :=
  have : Std.TransCmp (@compare Nat _) := inferInstance
  @bSearchValues_eq Nat ⟨[9, 1, 3, 3, 5], 1, 4, 3, compare⟩ this (by decide) (by decide) (by decide)

end DarwinNotes.CF.Array
