import Mathlib

/-!
# Heap order

A binary tree in level order, in the cells of a buffer. A value that is sifted up or down is
kept outside: the cell for it is a hole, and values of the tree are moved into the hole. What is described
here is the buffer with the value in the hole.
-/

namespace DarwinNotes.Lib
open Function

variable {α : Type}

/-! ## The values of a buffer -/

variable (buffer : Nat → α)

/-- The values of the first cells. -/
def cells (count : Nat) : Multiset α := (Multiset.range count).map buffer

@[simp] theorem cells_zero : cells buffer 0 = 0 := rfl

theorem cells_succ (count : Nat) : cells buffer (count + 1) = buffer count ::ₘ cells buffer count := by
  rw [cells, Multiset.range_succ, Multiset.map_cons, cells]

@[simp] theorem card_cells (count : Nat) : (cells buffer count).card = count := by rw [cells, Multiset.card_map, Multiset.card_range]

variable {buffer : Nat → α} {count : Nat}

theorem mem_cells {value : α} : value ∈ cells buffer count ↔ ∃ i < count, buffer i = value := by simp [cells]

theorem cells_congr {other : Nat → α} (same : ∀ i < count, buffer i = other i) : cells buffer count = cells other count := by
  apply Multiset.map_congr rfl
  intro i mem
  exact same i (Multiset.mem_range.mp mem)

/-- A cell is overwritten. -/
theorem cells_update (buffer : Nat → α) {i : Nat} (inside : i < count) (value : α) :
    buffer i ::ₘ cells (update buffer i value) count = value ::ₘ cells buffer count := by
  induction count with
  | zero => exact absurd inside (Nat.not_lt_zero i)
  | succ _ ih =>
    rw [cells_succ, cells_succ]
    rcases Nat.lt_succ_iff_lt_or_eq.mp inside with earlier | rfl
    · rw [update_of_ne (Nat.ne_of_gt earlier), Multiset.cons_swap, ih earlier, Multiset.cons_swap]
    · rw [update_self, Multiset.cons_swap, cells_congr]
      intro j before
      rw [update_of_ne (Nat.ne_of_lt before)]

/-- The hole moves from one cell to another one. -/
theorem cells_move {i j : Nat} (inside : i < count) (inside' : j < count) (other : i ≠ j) (value : α) :
    cells (update (update buffer i (buffer j)) j value) count = cells (update buffer i value) count := by
  have filled := cells_update (update buffer i (buffer j)) inside' value
  have moved := cells_update buffer inside (buffer j)
  have target := cells_update buffer inside value
  rw [update_of_ne other.symm] at filled
  rw [← Multiset.cons_inj_right (buffer j), ← Multiset.cons_inj_right (buffer i), filled, Multiset.cons_swap (buffer i), moved,
    Multiset.cons_swap (buffer i) (buffer j), target, Multiset.cons_swap]

/-! ## Order -/

/-- The cell of the parent. -/
def parent (i : Nat) : Nat := (i - 1) / 2

theorem parent_lt {i : Nat} (notRoot : 0 < i) : parent i < i := by
  rw [parent]
  omega

/-- No value is before that of its parent. -/
def HeapOrdered (le : α → α → Prop) (buffer : Nat → α) (count : Nat) : Prop := ∀ i < count, 0 < i → le (buffer (parent i)) (buffer i)

/-- A total preorder. -/
structure TotalPreorder (le : α → α → Prop) : Prop where
  total : ∀ a b, le a b ∨ le b a
  trans : ∀ a b c, le a b → le b c → le a c

section Sift

variable {le : α → α → Prop} {buffer : Nat → α} {count hole : Nat} {value : α}

theorem TotalPreorder.refl (order : TotalPreorder le) (a : α) : le a a := (order.total a a).elim id id

/-- The value may be before that of its parent, but the parent's is not behind those below the hole. -/
structure SiftedUp (le : α → α → Prop) (buffer : Nat → α) (count hole : Nat) : Prop where
  others : ∀ i < count, 0 < i → i ≠ hole → le (buffer (parent i)) (buffer i)
  below : ∀ i < count, 0 < i → parent i = hole → 0 < hole → le (buffer (parent hole)) (buffer i)

/-- Values below the hole may be before the value in it, but not before that of its parent. -/
structure SiftedDown (le : α → α → Prop) (buffer : Nat → α) (count hole : Nat) : Prop where
  others : ∀ i < count, 0 < i → parent i ≠ hole → le (buffer (parent i)) (buffer i)
  below : ∀ i < count, 0 < i → parent i = hole → 0 < hole → le (buffer (parent hole)) (buffer i)

/-- The value of the parent moves down into the hole. -/
theorem SiftedUp.step (order : TotalPreorder le) (sifted : SiftedUp le (update buffer hole value) count hole)
    (notRoot : 0 < hole) (inside : hole < count) (before : le value (buffer (parent hole))) :
    SiftedUp le (update (update buffer hole (buffer (parent hole))) (parent hole) value) count (parent hole) := by
  have isLess := parent_lt notRoot
  have others := sifted.others
  have below := sifted.below
  simp only [update_apply] at others below
  constructor
  · intro i bound positive otherHole
    simp only [update_apply, if_neg otherHole]
    by_cases isHole : i = hole
    · subst isHole
      simpa using before
    have edge := others i bound positive isHole
    rw [if_neg isHole] at edge ⊢
    by_cases isBelow : parent i = hole
    · rw [if_neg (by omega), if_pos isBelow]
      simpa [isHole, Nat.ne_of_lt isLess] using below i bound positive isBelow notRoot
    · rw [if_neg isBelow] at edge ⊢
      split
      case isTrue isSibling => exact order.trans _ _ _ before (isSibling ▸ edge)
      case isFalse => exact edge
  · intro i bound positive isBelow stillBelow
    have isLess' := parent_lt stillBelow
    have edge := others (parent hole) (by omega) stillBelow (by omega)
    simp only [update_apply]
    rw [if_neg (by omega), if_neg (by omega)] at edge
    rw [if_neg (by omega), if_neg (by omega), if_neg (by have := parent_lt positive; omega)]
    by_cases isHole : i = hole
    · rw [if_pos isHole]
      exact edge
    · have sibling := others i bound positive isHole
      rw [if_neg (by omega), if_neg isHole, isBelow] at sibling
      rw [if_neg isHole]
      exact order.trans _ _ _ edge sibling

/-- The value is not before that of the parent, or it is at the root. -/
theorem SiftedUp.ordered (sifted : SiftedUp le (update buffer hole value) count hole)
    (stops : 0 < hole → le (buffer (parent hole)) value) : HeapOrdered le (update buffer hole value) count := by
  intro i bound positive
  by_cases isHole : i = hole
  · subst isHole
    rw [update_self, update_of_ne (Nat.ne_of_lt (parent_lt positive))]
    exact stops positive
  · exact sifted.others i bound positive isHole

variable (sifted : SiftedDown le (update buffer hole value) count hole)
include sifted

/-- A least value below the hole moves up into it. -/
theorem SiftedDown.step {child : Nat}
    (bound : child < count) (positive : 0 < child) (isBelow : parent child = hole) (before : le (buffer child) value)
    (least : ∀ i < count, 0 < i → parent i = hole → le (buffer child) (buffer i)) :
    SiftedDown le (update (update buffer hole (buffer child)) child value) count child := by
  have isLess : hole < child := isBelow ▸ parent_lt positive
  have others := sifted.others
  have below := sifted.below
  simp only [update_apply] at others below
  constructor
  · intro i bound' positive' notBelow
    simp only [update_apply, if_neg notBelow]
    by_cases isHole : parent i = hole
    · have isLess' := parent_lt positive'
      rw [if_pos isHole]
      by_cases isChild : i = child
      · rw [if_pos isChild]
        exact before
      · rw [if_neg isChild, if_neg (by omega)]
        exact least i bound' positive' isHole
    · have edge := others i bound' positive' isHole
      have otherChild : i ≠ child := fun isChild => isHole (isChild ▸ isBelow)
      rw [if_neg isHole] at edge ⊢
      rw [if_neg otherChild]
      split
      case isTrue isTop =>
        subst isTop
        simpa [Nat.ne_of_gt isLess, isBelow, Nat.ne_of_lt (parent_lt positive')] using below child bound positive isBelow positive'
      case isFalse notTop =>
        rw [if_neg notTop] at edge
        exact edge
  · intro i bound' positive' isChild _
    have isLess' := parent_lt positive'
    have edge := others i bound' positive' (by omega)
    simp only [update_apply]
    rw [if_neg (by omega), if_neg (by omega)] at edge
    rw [if_neg (by omega), if_pos isBelow, if_neg (by omega), if_neg (by omega)]
    rwa [isChild] at edge

/-- No value below the hole is before the value. -/
theorem SiftedDown.ordered
    (stops : ∀ i < count, 0 < i → parent i = hole → le value (buffer i)) : HeapOrdered le (update buffer hole value) count := by
  intro i bound positive
  by_cases isBelow : parent i = hole
  · rw [isBelow, update_self, update_of_ne (by have := parent_lt positive; omega)]
    exact stops i bound positive isBelow
  · exact sifted.others i bound positive isBelow

omit sifted

/-- The root is least. -/
theorem HeapOrdered.root (order : TotalPreorder le) (ordered : HeapOrdered le buffer count) {i : Nat} (bound : i < count) :
    le (buffer 0) (buffer i) := by
  induction i using Nat.strongRecOn with
  | ind i ih =>
    rcases Nat.eq_zero_or_pos i with rfl | positive
    · exact order.refl _
    · have isLess := parent_lt positive
      exact order.trans _ _ _ (ih (parent i) isLess (Nat.lt_trans isLess bound)) (ordered i bound positive)

theorem HeapOrdered.siftedUp (ordered : HeapOrdered le buffer count) (value : α) :
    SiftedUp le (update buffer count value) (count + 1) count := by
  constructor
  · intro i bound positive notHole
    have isLess := parent_lt positive
    rw [update_of_ne (by omega), update_of_ne notHole]
    exact ordered i (by omega) positive
  · intro i bound positive isBelow _
    have isLess := parent_lt positive
    omega

theorem HeapOrdered.siftedDown (ordered : HeapOrdered le buffer count) (value : α) : SiftedDown le (update buffer 0 value) count 0 := by
  constructor
  · intro i bound positive notBelow
    rw [update_of_ne notBelow, update_of_ne (by omega)]
    exact ordered i bound positive
  · intro i _ _ _ positive
    exact absurd positive (Nat.lt_irrefl 0)

end Sift

end DarwinNotes.Lib
