import DarwinNotes.CF.Array.Refinement

/-!
# Sequences of calls on a mutable array

A call of the array's functions is an operation on lists. An array that starts empty is
the list after every sequence of allowed calls that do not ask for a smaller block, or for one whose size is not
an `int`.
-/

namespace DarwinNotes.CF.Array
open List

section Runs

variable {α : Type}

/-- A call that changes the array. -/
inductive Op (α : Type)
  | replaceValues (location length : Nat) (newValues : List α)
  | appendValue (value : α)
  | insertValueAtIndex (idx : Nat) (value : α)
  | removeValueAtIndex (idx : Nat)
  | setValueAtIndex (idx : Nat) (value : α)
  | exchangeValuesAtIndices (idx1 idx2 : Nat)
  | removeAllValues
  | setCapacity (cap : Nat)

/-- What the assertions allow, for an array with the values of a list. -/
def Op.Allowed (list : List α) : Op α → Prop
  | replaceValues location length newValues => location + length ≤ list.length ∧ list.length - length + newValues.length < 2 ^ 31
  | appendValue _ => list.length + 1 < 2 ^ 31
  | insertValueAtIndex idx _ => idx ≤ list.length ∧ list.length + 1 < 2 ^ 31
  | removeValueAtIndex idx => idx < list.length ∧ list.length ≤ 2 ^ 31
  | setValueAtIndex idx _ => idx ≤ list.length ∧ list.length + 1 < 2 ^ 31
  | exchangeValuesAtIndices idx1 idx2 => idx1 < list.length ∧ idx2 < list.length
  | removeAllValues => True
  | setCapacity cap => list.length ≤ cap

/-- The new blocks that a call needs have a size that is an `int`, and a block is not copied to a smaller one. -/
def Op.Fits (array : MutableArray α) : Op α → Prop
  | replaceValues location length newValues => FitsReplace array location length newValues.length
  | appendValue _ => FitsReplace array array.count 0 1
  | insertValueAtIndex idx _ => FitsReplace array idx 0 1
  | removeValueAtIndex idx => FitsReplace array idx 1 0
  | setValueAtIndex idx _ => idx = array.count → FitsReplace array idx 0 1
  | exchangeValuesAtIndices _ _ => True
  | removeAllValues => True
  | setCapacity cap => array.capacity ≤ roundUpCapacity cap

instance (array : MutableArray α) (op : Op α) : Decidable (op.Fits array) :=
  match op with
  | .replaceValues _ _ _ | .appendValue _ | .insertValueAtIndex _ _ | .removeValueAtIndex _ =>
    inferInstanceAs (Decidable (FitsReplace _ _ _ _))
  | .setValueAtIndex _ _ => inferInstanceAs (Decidable (_ → _))
  | .exchangeValuesAtIndices _ _ | .removeAllValues => inferInstanceAs (Decidable True)
  | .setCapacity _ => inferInstanceAs (Decidable (_ ≤ _))

variable (retain : α → α)

def perform (array : MutableArray α) : Op α → Except Fault (MutableArray α)
  | .replaceValues location length newValues => replaceValues retain array location length newValues
  | .appendValue value => appendValue retain array value
  | .insertValueAtIndex idx value => insertValueAtIndex retain array idx value
  | .removeValueAtIndex idx => removeValueAtIndex retain array idx
  | .setValueAtIndex idx value => setValueAtIndex retain array idx value
  | .exchangeValuesAtIndices idx1 idx2 => exchangeValuesAtIndices array idx1 idx2
  | .removeAllValues => removeAllValues array
  | .setCapacity cap => setCapacity array cap

/-- What a call does to a list. -/
def Op.onList (list : List α) : Op α → List α
  | replaceValues location length newValues => replaceList retain list location length newValues
  | appendValue value => list ++ [retain value]
  | insertValueAtIndex idx value => list.insertIdx idx (retain value)
  | removeValueAtIndex idx => list.eraseIdx idx
  | setValueAtIndex idx value => if idx = list.length then list ++ [retain value] else list.set idx (retain value)
  | exchangeValuesAtIndices idx1 idx2 => exchangeList list idx1 idx2
  | removeAllValues => []
  | setCapacity _ => list

def performAll (array : MutableArray α) (ops : List (Op α)) : Except Fault (MutableArray α) := ops.foldlM (perform retain) array

def onListAll (list : List α) (ops : List (Op α)) : List α := ops.foldl (Op.onList retain) list

/-- Each call of a sequence is allowed. -/
def AllAllowed : List α → List (Op α) → Prop
  | _, [] => True
  | list, op :: ops => op.Allowed list ∧ AllAllowed (op.onList retain list) ops

/-- The blocks fit in each call of a sequence. -/
def AllFit : MutableArray α → List (Op α) → Prop
  | _, [] => True
  | array, op :: ops => op.Fits array ∧ ∀ after, perform retain array op = .ok after → AllFit after ops

/-! ## One call -/

variable (list : List α)

theorem replaceList_append (value : α) : replaceList retain list list.length 0 [value] = list ++ [retain value] := by
  rw [replaceList, take_length, map_singleton, Nat.add_zero, drop_length, append_nil]

theorem replaceList_insert (idx : Nat) (value : α) (inRange : idx ≤ list.length) :
    replaceList retain list idx 0 [value] = list.insertIdx idx (retain value) := by
  rw [replaceList, map_singleton, Nat.add_zero, append_assoc]
  induction idx generalizing list with
  | zero => rfl
  | succ _ ih =>
    cases list with
    | nil => simp at inRange
    | cons _ list => rw [take_succ_cons, drop_succ_cons, insertIdx_succ_cons, cons_append, ih list (Nat.le_of_succ_le_succ inRange)]

theorem replaceList_remove (idx : Nat) : replaceList retain list idx 1 [] = list.eraseIdx idx := by
  rw [replaceList, map_nil, append_nil, eraseIdx_eq_take_drop_succ]

variable {array : MutableArray α}

/-- A call does to the array what it does to the list. -/
theorem perform_spec {list : List α} (refines : Refines array list) {op : Op α} (allowed : op.Allowed list) (fits : op.Fits array) :
    ∃ after, perform retain array op = .ok after ∧ Refines after (op.onList retain list) := by
  have count := refines.count
  cases op with
  | replaceValues => exact replaceValues_spec retain refines allowed.1 allowed.2 fits
  | appendValue =>
    rw [Op.onList, ← replaceList_append, ← count]
    exact replaceValues_spec retain refines (by omega) allowed fits
  | insertValueAtIndex idx value =>
    rw [Op.onList, ← replaceList_insert retain list idx value allowed.1]
    exact replaceValues_spec retain refines allowed.1 allowed.2 fits
  | removeValueAtIndex =>
    obtain ⟨inRange, small⟩ := allowed
    rw [Op.onList, ← replaceList_remove retain]
    exact replaceValues_spec retain refines inRange (by simp only [length_nil]; omega) fits
  | setValueAtIndex _ value =>
    obtain ⟨inRange, small⟩ := allowed
    simp only [perform, setValueAtIndex, Op.onList, ← count]
    split
    case isTrue atEnd =>
      rw [← replaceList_append, ← count, ← atEnd]
      exact replaceValues_spec retain refines (by omega) small (fits atEnd)
    case isFalse => exact setBucket_spec refines (by omega) (retain value)
  | exchangeValuesAtIndices => exact exchangeValuesAtIndices_spec refines allowed.1 allowed.2
  | removeAllValues => exact ⟨_, removeAllValues_spec refines, refines_nil⟩
  | setCapacity => exact setCapacity_spec refines fits

/-! ## All calls -/

theorem performAll_spec {list : List α} (refines : Refines array list) {ops : List (Op α)} (allowed : AllAllowed retain list ops)
    (fits : AllFit retain array ops) : ∃ after, performAll retain array ops = .ok after ∧ Refines after (onListAll retain list ops) := by
  induction ops generalizing array list with
  | nil => exact ⟨array, rfl, refines⟩
  | cons _ _ ih =>
    obtain ⟨next, isNext, refines'⟩ := perform_spec retain refines allowed.1 fits.1
    obtain ⟨after, isAfter, refinesAfter⟩ := ih refines' allowed.2 (fits.2 next isNext)
    refine ⟨after, ?_, refinesAfter⟩
    rw [performAll, foldlM_cons, isNext]
    exact isAfter

/-- The array is the list: it gives its values, and they are inside its block. -/
structure IsList (array : MutableArray α) (list : List α) : Prop where
  count : array.count = list.length
  values : ∀ location length, location + length ≤ list.length →
    getValues array location length = .ok (((list.drop location).take length).map some)
  inside : ∀ deque, array.store = some deque → 0 ≤ deque.leftIdx ∧ deque.leftIdx + array.count ≤ deque.capacity

end Runs

end DarwinNotes.CF.Array
