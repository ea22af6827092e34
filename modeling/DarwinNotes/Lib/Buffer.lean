import Mathlib

/-!
# Buffers of cells

A buffer is a function from cell numbers to values; `load` reads a range as a
list and `store` writes a list over a range, as `memmove` does from one buffer
to another.
-/

namespace DarwinNotes.Lib

variable {β : Type} (buffer : Nat → β)

/-- The `len` cells from `base` on. -/
def load (base len : Nat) : List β := (List.range len).map fun i => buffer (base + i)

/-- Overwrite the cells from `base` on. -/
def store (base : Nat) (values : List β) : Nat → β :=
  fun cell => if base ≤ cell then (values[cell - base]?).getD (buffer cell) else buffer cell

@[simp] theorem length_load (base len : Nat) : (load buffer base len).length = len := by simp [load]

theorem load_eq_iff {buffer other : Nat → β} {base base' len : Nat} :
    load buffer base len = load other base' len ↔ ∀ i < len, buffer (base + i) = other (base' + i) := by
  simp [load]

theorem load_append (base len more : Nat) : load buffer base (len + more) = load buffer base len ++ load buffer (base + len) more := by
  simp [load, List.range_add, Nat.add_assoc]

theorem load_store_same (base : Nat) {values : List β} {len : Nat}
    (full : values.length = len) : load (store buffer base values) base len = values := by
  subst full
  apply List.ext_getElem
  · simp
  · intro i _ bound
    simp [load, store, bound]

/-- Stores do not reach outside their range. -/
theorem load_store_disjoint {base base' len : Nat} {values : List β}
    (apart : base' + len ≤ base ∨ base + values.length ≤ base') : load (store buffer base values) base' len = load buffer base' len := by
  rw [load_eq_iff]
  intro i bound
  unfold store
  rcases apart with _ | _
  · rw [if_neg (by omega)]
  · rw [if_pos (by omega), List.getElem?_eq_none (by omega)]
    rfl

end DarwinNotes.Lib
