import Mathlib

/-!
# Stable sorting by a key

A stable sort keeps the elements of one key in their order, so the first element
of a key is the same before and after. In a sorted list the elements of a key are
the ones between the smaller and the larger keys.
-/

namespace DarwinNotes.Lib
open List

variable {α κ : Type} [LinearOrder κ] (key : α → κ) (list : List α)

/-- The elements in ascending order of their keys. -/
def stableSort : List α := list.mergeSort fun a b => decide (key a ≤ key b)

theorem key_trans (a b c : α) : decide (key a ≤ key b) = true → decide (key b ≤ key c) = true → decide (key a ≤ key c) = true := by
  simpa using le_trans

theorem key_total (a b : α) : (decide (key a ≤ key b) || decide (key b ≤ key a)) = true := by
  simpa using le_total (key a) (key b)

theorem pairwise_stableSort : (stableSort key list).Pairwise fun a b => key a ≤ key b := by
  have sorted : (stableSort key list).Pairwise _ := pairwise_mergeSort (key_trans key) (key_total key) list
  simpa using sorted

theorem stableSort_perm : (stableSort key list).Perm list := mergeSort_perm list _

/-- **The elements of one key keep their order.** -/
theorem filter_stableSort (k : κ) : (stableSort key list).filter (fun a => key a = k) = list.filter fun a => key a = k := by
  have ordered : (list.filter fun a => key a = k).Pairwise fun a b => decide (key a ≤ key b) = true := by
    refine pairwise_of_forall_mem_list fun a inA b inB => ?_
    simp only [mem_filter, decide_eq_true_eq] at inA inB
    simp [inA.2, inB.2]
  have kept := sublist_mergeSort (key_trans key) (key_total key) ordered filter_sublist
  have within : List.Sublist (list.filter fun a => key a = k) ((stableSort key list).filter fun a => key a = k) := by
    have := kept.filter fun a => decide (key a = k)
    rwa [filter_filter, show (fun a => decide (key a = k) && decide (key a = k)) = fun a => decide (key a = k) by simp]
      at this
  exact (within.eq_of_length (((stableSort_perm key list).filter _).length_eq).symm).symm

/-- Another element comes behind those of smaller keys. -/
theorem stableSort_cons (a : α) : ∃ front back, stableSort key (a :: list) = front ++ a :: back ∧ stableSort key list = front ++ back ∧
    ∀ b ∈ front, key b < key a := by
  obtain ⟨front, back, isSorted, same, notLe⟩ := mergeSort_cons (key_trans key) (key_total key) a list
  exact ⟨front, back, isSorted, same, fun b mem => by simpa using notLe b mem⟩

theorem find?_stableSort (k : κ) : (stableSort key list).find? (fun a => key a = k) = list.find? fun a => key a = k := by
  rw [← head?_filter, ← head?_filter, filter_stableSort]

/-- The values with a property are the first ones, as many as there are. -/
theorem lt_countP_iff {values : List α} {p : α → Bool} (first : values.Pairwise fun a b => p b = true → p a = true) {i : Nat}
    (inside : i < values.length) : i < values.countP p ↔ p values[i] = true := by
  induction values generalizing i with
  | nil => cases inside
  | cons a values ih =>
    obtain ⟨isFirst, later⟩ := pairwise_cons.mp first
    cases has : p a with
    | true =>
      rw [countP_cons_of_pos has]
      cases i with
      | zero => simp [has]
      | succ => rw [Nat.succ_lt_succ_iff, ih later (Nat.lt_of_succ_lt_succ inside), getElem_cons_succ]
    | false =>
      have none : ∀ b ∈ a :: values, ¬ p b = true := by
        rw [forall_mem_cons, has]
        exact ⟨Bool.false_ne_true, fun b mem isP => Bool.false_ne_true (has.symm.trans (isFirst b mem isP))⟩
      simp [countP_eq_zero.mpr none, none _ (getElem_mem inside)]

/-- The same for a part of the values. -/
theorem slice_countP {values : List α} {p : α → Bool} {location length : Nat} (inside : location + length ≤ values.length)
    (first : ((values.drop location).take length).Pairwise fun a b => p b = true → p a = true) {i : Nat} (below : i < length) :
    ∃ a, values[location + i]? = some a ∧ (p a = true ↔ i < ((values.drop location).take length).countP p) := by
  have inRange : i < ((values.drop location).take length).length := by
    rw [length_take, length_drop]
    omega
  refine ⟨values[location + i], getElem?_eq_getElem _, ?_⟩
  rw [lt_countP_iff first inRange, getElem_take, getElem_drop]

end DarwinNotes.Lib
