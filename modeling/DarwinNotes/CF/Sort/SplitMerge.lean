import DarwinNotes.CF.Sort.Merge

/-!
# `__CFSortIndexesNMerge`

One merge-split of two sorted sections. The same call writes the `cnt1` smallest
values or the `cnt2` largest, by two different loops; both resolve ties as the
stable merge does, so the two halves fit together.
-/

namespace DarwinNotes.CF.Sort
open List

/-- The `!right` loop: `rounds` values left to write, `listp1` and `listp2`
advanced by `idx1` and `idx2`. -/
def mergeLeft (cmp : Comparator) (listp1 : List Nat) (cnt1 : Nat) (listp2 : List Nat) (cnt2 : Nat) : Nat → Nat → Nat → List Nat → List Nat
  | 0, _, _, tmp => tmp
  | rounds + 1, idx1, idx2, tmp =>
    if cnt2 ≤ idx2 then mergeLeft cmp listp1 cnt1 listp2 cnt2 rounds (idx1 + 1) idx2 (tmp ++ [listp1.getD idx1 0])
    else if cnt1 ≤ idx1 then
      mergeLeft cmp listp1 cnt1 listp2 cnt2 rounds idx1 (idx2 + 1) (tmp ++ [listp2.getD idx2 0])
    else
      let v1 := listp1.getD idx1 0
      let v2 := listp2.getD idx2 0
      if cmp v1 v2 ≤ 0 then mergeLeft cmp listp1 cnt1 listp2 cnt2 rounds (idx1 + 1) idx2 (tmp ++ [v1])
      else mergeLeft cmp listp1 cnt1 listp2 cnt2 rounds idx1 (idx2 + 1) (tmp ++ [v2])

/-- The `right` loop, from the back: `left1` and `left2` are one more than the
offsets of the pointers `listp1` and `listp2`, so `0` is a pointer before its
list. The two branches that decrement before they read are as in the source. -/
def mergeRight (cmp : Comparator) (listp1 listp2 : List Nat) : Nat → Nat → Nat → List Nat → List Nat
  | 0, _, _, tmp => tmp
  | rounds + 1, left1, left2, tmp =>
    if left2 = 0 then mergeRight cmp listp1 listp2 rounds (left1 - 1) left2 (listp1.getD (left1 - 2) 0 :: tmp)
    else if left1 = 0 then
      mergeRight cmp listp1 listp2 rounds left1 (left2 - 1) (listp2.getD (left2 - 2) 0 :: tmp)
    else
      let v1 := listp1.getD (left1 - 1) 0
      let v2 := listp2.getD (left2 - 1) 0
      if cmp v1 v2 ≤ 0 then mergeRight cmp listp1 listp2 rounds left1 (left2 - 1) (v2 :: tmp)
      else mergeRight cmp listp1 listp2 rounds (left1 - 1) left2 (v1 :: tmp)

/-- `__CFSortIndexesNMerge`: the `cnt1` smallest values, or the `cnt2` largest. -/
def sortIndexesNMerge (cmp : Comparator) (listp1 : List Nat) (cnt1 : Nat) (listp2 : List Nat) (cnt2 : Nat)
    (right : Bool) : List Nat :=
  if 16 < cnt1 + cnt2 ∧ cmp (listp1.getD (cnt1 - 1) 0) (listp2.getD 0 0) ≤ 0 then
    if right then listp2.take cnt2 else listp1.take cnt1
  else if right then mergeRight cmp listp1 listp2 cnt2 cnt1 cnt2 []
  else mergeLeft cmp listp1 cnt1 listp2 cnt2 cnt1 0 0 []

section Merge

variable {cmp : Comparator}

theorem mergeLeft_eq (cmp : Comparator) (l m : List Nat) : ∀ rounds idx1 idx2 tmp, idx1 ≤ l.length → idx2 ≤ m.length →
    rounds + idx1 + idx2 ≤ l.length + m.length → mergeLeft cmp l l.length m m.length rounds idx1 idx2 tmp =
      tmp ++ (mergeLists cmp (l.drop idx1) (m.drop idx2)).take rounds := by
  intro rounds
  induction rounds with
  | zero => intro idx1 idx2 tmp _ _ _; simp [mergeLeft]
  | succ _ ih =>
    intro idx1 idx2 tmp low1 low2 fits
    unfold mergeLeft
    by_cases done2 : m.length ≤ idx2
    · have left : l.drop idx1 = l[idx1] :: l.drop (idx1 + 1) := drop_eq_getElem_cons (by omega)
      rw [if_pos done2, ih _ _ _ (by omega) low2 (by omega), drop_eq_nil_of_le done2, mergeLists_nil_right,
        mergeLists_nil_right, left, getD_eq_getElem _ _ (by omega), take_succ_cons, append_assoc]
      rfl
    · have right : m.drop idx2 = m[idx2] :: m.drop (idx2 + 1) := drop_eq_getElem_cons (by omega)
      rw [if_neg done2]
      by_cases done1 : l.length ≤ idx1
      · rw [if_pos done1, ih _ _ _ low1 (by omega) (by omega), drop_eq_nil_of_le done1, mergeLists_nil_left,
          mergeLists_nil_left, right, getD_eq_getElem _ _ (by omega), take_succ_cons, append_assoc]
        rfl
      have left : l.drop idx1 = l[idx1] :: l.drop (idx1 + 1) := drop_eq_getElem_cons (by omega)
      rw [if_neg done1, getD_eq_getElem l _ (by omega), getD_eq_getElem m _ (by omega), left, right, mergeLists_cons, ← left, ← right]
      dsimp only
      split
      · rw [ih _ _ _ (by omega) low2 (by omega), take_succ_cons, append_assoc]
        rfl
      · rw [ih _ _ _ low1 (by omega) (by omega), take_succ_cons, append_assoc]
        rfl

/-- The `right` loop never runs a list dry, as it stops after `cnt2 ≤ cnt1` rounds: it merges
the two lists from their ends, and on a tie takes from the right one. -/
theorem mergeRight_reverse (l m : List Nat) : ∀ rounds left1 left2 tmp, left1 ≤ l.length → left2 ≤ m.length → rounds ≤ left2 →
    rounds ≤ left1 → mergeRight cmp l m rounds left1 left2 tmp =
      (((m.take left2).reverse.merge (l.take left1).reverse fun v2 v1 => decide (cmp v1 v2 ≤ 0)).take rounds).reverse ++ tmp := by
  intro rounds
  induction rounds with
  | zero => intro left1 left2 tmp _ _ _ _; simp [mergeRight]
  | succ _ ih =>
    intro left1 left2 tmp low1 low2 enough2 enough1
    obtain ⟨k1, rfl⟩ : ∃ k, left1 = k + 1 := ⟨left1 - 1, by omega⟩
    obtain ⟨k2, rfl⟩ : ∃ k, left2 = k + 1 := ⟨left2 - 1, by omega⟩
    have ends (list : List Nat) (k : Nat) (fits : k < list.length) : (list.take (k + 1)).reverse = list[k] :: (list.take k).reverse := by
      rw [take_succ_eq_append_getElem fits, reverse_append]
      rfl
    unfold mergeRight
    rw [if_neg (by omega), if_neg (by omega), Nat.add_sub_cancel, Nat.add_sub_cancel, getD_eq_getElem l _ (by omega),
      getD_eq_getElem m _ (by omega), ends l k1 (by omega), ends m k2 (by omega), cons_merge_cons, ← ends l, ← ends m]
    simp only [decide_eq_true_eq]
    split
    · rw [ih _ _ _ low1 (by omega) (by omega) (by omega), take_succ_cons, reverse_cons, append_assoc]
      rfl
    · rw [ih _ _ _ (by omega) low2 (by omega) (by omega), take_succ_cons, reverse_cons, append_assoc]
      rfl

variable {l m : List Nat}

theorem mergeRight_eq (order : TotalPreorder cmp) (mergeable : Mergeable cmp l m) (shorter : m.length ≤ l.length)
    : mergeRight cmp l m m.length l.length m.length [] = (mergeLists cmp l m).drop l.length := by
  have perm : (m.reverse.merge l.reverse fun v2 v1 => decide (cmp v1 v2 ≤ 0)).Perm (m ++ l) :=
    (merge_perm_append _).trans ((reverse_perm m).append (reverse_perm l))
  have ordered : (m.reverse.merge l.reverse fun v2 v1 => decide (cmp v1 v2 ≤ 0)).Pairwise fun a b => Before cmp b a := by
    refine merge_ordered (fun _ _ _ ab bc => bc.trans order ab) (fun a b => Before.total order b a) (pairwise_reverse.2 mergeable.right)
      (pairwise_reverse.2 mergeable.left) fun x hx y hy => decide_eq_decide.2 ⟨?_, And.left⟩
    exact mergeable.ties y (mem_reverse.1 hy) x (mem_reverse.1 hx)
  -- the whole merge from the ends, reversed, is the merge
  have whole : mergeLists cmp l m = (m.reverse.merge l.reverse fun v2 v1 => decide (cmp v1 v2 ≤ 0)).reverse :=
    ordered_unique (mergeable.ordered order) (pairwise_reverse.2 ordered)
      ((mergeLists_perm l m).trans (((reverse_perm _).trans perm).trans perm_append_comm).symm)
  rw [mergeRight_reverse l m _ _ _ _ (Nat.le_refl _) (Nat.le_refl _) (Nat.le_refl _) shorter, take_length, take_length, append_nil, reverse_take,
    whole, perm.length_eq, length_append, Nat.add_sub_cancel_left]

theorem length_mergeLeft (l m : List Nat) (cnt1 cnt2 : Nat) : ∀ rounds idx1 idx2 tmp,
    (mergeLeft cmp l cnt1 m cnt2 rounds idx1 idx2 tmp).length = tmp.length + rounds := by
  intro rounds
  induction rounds with
  | zero => intro idx1 idx2 tmp; rfl
  | succ _ ih =>
    intro idx1 idx2 tmp
    simp only [mergeLeft]
    split_ifs <;> rw [ih, length_append, length_singleton] <;> omega

theorem length_mergeRight (l m : List Nat) : ∀ rounds left1 left2 tmp,
    (mergeRight cmp l m rounds left1 left2 tmp).length = tmp.length + rounds := by
  intro rounds
  induction rounds with
  | zero => intro left1 left2 tmp; rfl
  | succ _ ih =>
    intro left1 left2 tmp
    simp only [mergeRight]
    split_ifs <;> rw [ih, length_cons] <;> omega

/-- Each half has the length of the section it replaces, whatever the comparator. -/
theorem length_sortIndexesNMerge (l m : List Nat) (right : Bool) :
    (sortIndexesNMerge cmp l l.length m m.length right).length = if right then m.length else l.length := by
  unfold sortIndexesNMerge
  cases right
  · split <;> simp [length_mergeLeft]
  · split <;> simp [length_mergeRight]

/-- **Both halves are those of the stable merge.** -/
theorem sortIndexesNMerge_eq (order : TotalPreorder cmp) (mergeable : Mergeable cmp l m) (shorter : m.length ≤ l.length)
    (nonempty : 0 < l.length) (right : Bool) : sortIndexesNMerge cmp l l.length m m.length right =
      if right then (mergeLists cmp l m).drop l.length else (mergeLists cmp l m).take l.length := by
  unfold sortIndexesNMerge
  split
  · rename_i first
    rw [mergeable.shortcut order nonempty first.2]
    cases right
    · simp
    · simp
  · cases right
    · have left := mergeLeft_eq cmp l m l.length 0 0 [] (by omega) (by omega) (by omega)
      simpa using left
    · simpa using mergeRight_eq order mergeable shorter

end Merge

end DarwinNotes.CF.Sort
