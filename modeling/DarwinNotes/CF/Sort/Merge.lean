import Mathlib

/-!
# The merges of `CFSortFunctions.c`

`__CFSimpleMerge` and `__CFSimpleMergeSort`, the serial stable merge sort, and
`__CFSortIndexesNMerge`, which produces one half of a merge for the concurrent
path. A buffer is the list of its values; a loop that fills `tmp` carries the
values written so far.

The comparator is a total preorder on indexes. Ties are broken by the index
(`Before`), which makes the order linear on distinct indexes, so a sorted
permutation is unique and every merge is compared with `List.merge`.
-/

namespace DarwinNotes.CF.Sort
open List

/-- `COMPARATOR_BLOCK`: a `CFComparisonResult` for two indexes. -/
abbrev Comparator := Nat → Nat → Int

/-- The comparator is a total preorder. The code only asks whether a result is
at most zero. -/
structure TotalPreorder (cmp : Comparator) : Prop where
  total : ∀ a b, cmp a b ≤ 0 ∨ cmp b a ≤ 0
  trans : ∀ a b c, cmp a b ≤ 0 → cmp b c ≤ 0 → cmp a c ≤ 0

/-- The stable order: by the comparator, ties in increasing index order. -/
def Before (cmp : Comparator) (a b : Nat) : Prop := cmp a b ≤ 0 ∧ (cmp b a ≤ 0 → a ≤ b)

instance (cmp : Comparator) : DecidableRel (Before cmp) := fun a b => inferInstanceAs (Decidable (cmp a b ≤ 0 ∧ (cmp b a ≤ 0 → a ≤ b)))

/-- Two elements in this order in the list may still be out of order, but not
because of a tie. -/
def TieOrdered (cmp : Comparator) (a b : Nat) : Prop := cmp a b ≤ 0 → Before cmp a b

section Order

variable {cmp : Comparator} {a b : Nat}

theorem Before.trans (order : TotalPreorder cmp) {c : Nat} (ab : Before cmp a b) (bc : Before cmp b c) : Before cmp a c := by
  refine ⟨order.trans a b c ab.1 bc.1, fun ca => ?_⟩
  have ba := order.trans b c a bc.1 ca
  have cb := order.trans c a b ca ab.1
  exact (ab.2 ba).trans (bc.2 cb)

theorem Before.total (order : TotalPreorder cmp) (a b : Nat) : Before cmp a b ∨ Before cmp b a := by
  by_cases ab : cmp a b ≤ 0
  · by_cases ba : cmp b a ≤ 0
    · rcases Nat.le_total a b with le | le
      · exact Or.inl ⟨ab, fun _ => le⟩
      · exact Or.inr ⟨ba, fun _ => le⟩
    · exact Or.inl ⟨ab, fun other => absurd other ba⟩
  · exact Or.inr ⟨(order.total a b).resolve_left ab, fun other => absurd other ab⟩

theorem Before.tieOrdered (before : Before cmp a b) : TieOrdered cmp a b := fun _ => before

theorem Before.antisymm (ab : Before cmp a b) (ba : Before cmp b a) : a = b := Nat.le_antisymm (ab.2 ba.1) (ba.2 ab.1)

theorem Before.of_not (order : TotalPreorder cmp) (above : ¬ cmp a b ≤ 0) : Before cmp b a :=
  ⟨(order.total a b).resolve_left above, fun other => absurd other above⟩

variable {l m : List Nat}

/-- A stably ordered list is determined by its elements. -/
theorem ordered_unique (ordered : l.Pairwise (Before cmp)) (other : m.Pairwise (Before cmp)) (perm : l.Perm m) : l = m :=
  List.Perm.eq_of_pairwise (fun _ _ _ _ ab => ab.antisymm) ordered other perm

/-- `merge` with the test the code makes. -/
def mergeLists (cmp : Comparator) (l m : List Nat) : List Nat := l.merge m fun a b => decide (cmp a b ≤ 0)

@[simp] theorem mergeLists_nil_left (m : List Nat) : mergeLists cmp [] m = m := by simp [mergeLists]

@[simp] theorem mergeLists_nil_right (l : List Nat) : mergeLists cmp l [] = l := by simp [mergeLists]

theorem mergeLists_cons (a b : Nat) (l m : List Nat) : mergeLists cmp (a :: l) (b :: m) =
      if cmp a b ≤ 0 then a :: mergeLists cmp l (b :: m) else b :: mergeLists cmp (a :: l) m := by
  by_cases first : cmp a b ≤ 0
  · simp [mergeLists, first]
  · simp [mergeLists, first]

theorem mergeLists_perm (l m : List Nat) : (mergeLists cmp l m).Perm (l ++ m) := merge_perm_append _

theorem mergeLists_length (l m : List Nat) : (mergeLists cmp l m).length = l.length + m.length := by
  rw [(mergeLists_perm l m).length_eq, length_append]

/-- A merge only tests elements of the first list against elements of the second. -/
theorem merge_congr {le le' : Nat → Nat → Bool} (same : ∀ x ∈ l, ∀ y ∈ m, le x y = le' x y) : l.merge m le = l.merge m le' := by
  induction l generalizing m with
  | nil => simp
  | cons a l ihl =>
    induction m with
    | nil => simp
    | cons b m ihm =>
      rw [cons_merge_cons, cons_merge_cons, same a mem_cons_self b mem_cons_self, ihl fun x hx => same x (mem_cons_of_mem _ hx),
        ihm fun x hx y hy => same x hx y (mem_cons_of_mem _ hy)]

/-- Merging lists ordered by a relation orders them when the test agrees with it. -/
theorem merge_ordered {R : Nat → Nat → Prop} [DecidableRel R] {le : Nat → Nat → Bool} (trans : ∀ a b c, R a b → R b c → R a c)
    (total : ∀ a b, R a b ∨ R b a) (left : l.Pairwise R) (right : m.Pairwise R) (test : ∀ x ∈ l, ∀ y ∈ m, le x y = decide (R x y)) :
    (l.merge m le).Pairwise R := by
  rw [merge_congr test]
  have ordered : (l.merge m fun a b => decide (R a b)).Pairwise fun a b => decide (R a b) = true := by apply pairwise_merge <;> simpa
  simpa using ordered

end Order

/-! ## `__CFSimpleMerge` -/

/-- `while (idx--) listp[idx] = tmp[idx];` -/
def copyBack (tmp : List Nat) : Nat → List Nat → List Nat
  | 0, listp => listp
  | idx + 1, listp => copyBack tmp idx (listp.set idx (tmp.getD idx 0))

/-- `for (t = cnt1 + cnt2 - 1; idx <= t; t--) listp[t] = listp[t - cnt2];`, with
the number of rounds left instead of `t = idx + rounds - 1`. -/
def moveUp (cnt2 idx : Nat) : Nat → List Nat → List Nat
  | 0, listp => listp
  | rounds + 1, listp => moveUp cnt2 idx rounds (listp.set (idx + rounds) (listp.getD (idx + rounds - cnt2) 0))

/-- The `for (;;)` of `__CFSimpleMerge`; `idx` is the length of `tmp`. -/
def simpleMergeLoop (cmp : Comparator) (listp : List Nat) (cnt1 cnt2 : Nat) (tmp : List Nat) (idx1 idx2 : Nat) : List Nat :=
  if cnt1 ≤ idx1 then copyBack tmp tmp.length listp
  else if cnt1 + cnt2 ≤ idx2 then
    copyBack tmp tmp.length (moveUp cnt2 tmp.length (cnt1 + cnt2 - tmp.length) listp)
  else
    let v1 := listp.getD idx1 0
    let v2 := listp.getD idx2 0
    if cmp v1 v2 ≤ 0 then simpleMergeLoop cmp listp cnt1 cnt2 (tmp ++ [v1]) (idx1 + 1) idx2
    else simpleMergeLoop cmp listp cnt1 cnt2 (tmp ++ [v2]) idx1 (idx2 + 1)
termination_by (cnt1 - idx1) + (cnt1 + cnt2 - idx2)

/-- `__CFSimpleMerge`: merges the two runs `listp[0 .. cnt1)` and
`listp[cnt1 .. cnt1 + cnt2)` in place. -/
def simpleMerge (cmp : Comparator) (listp : List Nat) (cnt1 cnt2 : Nat) : List Nat :=
  if cnt1 = 0 ∨ cnt2 = 0 then listp
  else if 16 < cnt1 + cnt2 ∧ cmp (listp.getD (cnt1 - 1) 0) (listp.getD cnt1 0) ≤ 0 then listp
  else simpleMergeLoop cmp listp cnt1 cnt2 [] 0 cnt1

/-- The second half of the `3 == cnt` case: `v2` sinks into the ordered pair. -/
def sinkThird (cmp : Comparator) (v0 v1 v2 : Nat) : List Nat :=
  if 0 < cmp v1 v2 then
    if 0 < cmp v0 v2 then [v2, v0, v1] else [v0, v2, v1]
  else [v0, v1, v2]

/-- `__CFSimpleMergeSort` on the `cnt = listp.length` values at `listp`. -/
def simpleMergeSort (cmp : Comparator) : List Nat → List Nat
  | [] => []
  | [v] => [v]
  | [v0, v1] => if 0 < cmp v0 v1 then [v1, v0] else [v0, v1]
  | [v0, v1, v2] => if 0 < cmp v0 v1 then sinkThird cmp v1 v0 v2 else sinkThird cmp v0 v1 v2
  | v0 :: v1 :: v2 :: v3 :: rest =>
    let listp := v0 :: v1 :: v2 :: v3 :: rest
    let half_cnt := listp.length / 2
    let left := simpleMergeSort cmp (listp.take half_cnt)
    let right := simpleMergeSort cmp (listp.drop half_cnt)
    simpleMerge cmp (left ++ right) half_cnt (listp.length - half_cnt)
termination_by listp => listp.length
decreasing_by
  · simp only [length_take, length_cons]; omega
  · simp only [length_drop, length_cons]; omega

section Serial

variable {cmp : Comparator}

theorem copyBack_eq (tmp : List Nat) : ∀ idx listp, idx ≤ tmp.length → idx ≤ listp.length →
    copyBack tmp idx listp = tmp.take idx ++ listp.drop idx := by
  intro idx
  induction idx with
  | zero => intro listp _ _; rfl
  | succ _ ih =>
    intro listp written fits
    rw [copyBack, ih _ (by omega) (by rw [length_set]; omega), drop_eq_getElem_cons (by rw [length_set]; omega), getElem_set_self,
      drop_set_of_lt (by omega), getD_eq_getElem _ _ (by omega), take_succ_eq_append_getElem (by omega), append_assoc, singleton_append]

/-- The overlapping move: each round reads a slot that no earlier round wrote. -/
theorem moveUp_eq (cnt2 idx : Nat) : ∀ rounds (listp : List Nat), cnt2 ≤ idx → idx + rounds ≤ listp.length → moveUp cnt2 idx rounds listp =
      listp.take idx ++ ((listp.drop (idx - cnt2)).take rounds ++ listp.drop (idx + rounds)) := by
  intro rounds
  induction rounds with
  | zero => intro listp _ _; simp [moveUp]
  | succ rounds ih =>
    intro listp low fits
    rw [moveUp, ih _ low (by rw [length_set]; omega), take_set_of_le (by omega)]
    congr 1
    have reads : ((listp.set (idx + rounds) (listp.getD (idx + rounds - cnt2) 0)).drop (idx - cnt2)).take rounds =
        (listp.drop (idx - cnt2)).take rounds := by
      apply ext_getElem?
      intro i
      by_cases hi : i < rounds
      · rw [getElem?_take_of_lt hi, getElem?_take_of_lt hi, getElem?_drop, getElem?_drop, getElem?_set_ne (by omega)]
      · rw [getElem?_take_eq_none (by omega), getElem?_take_eq_none (by omega)]
    have write : (listp.set (idx + rounds) (listp.getD (idx + rounds - cnt2) 0)).drop (idx + rounds) =
        listp.getD (idx + rounds - cnt2) 0 :: listp.drop (idx + (rounds + 1)) := by
      rw [drop_eq_getElem_cons (by rw [length_set]; omega), getElem_set_self, drop_set_of_lt (by omega)]
      rfl
    rw [reads, write, take_succ_eq_append_getElem (by rw [length_drop]; omega), getElem_drop, getD_eq_getElem _ _ (by omega), append_assoc]
    simp [show idx - cnt2 + rounds = idx + rounds - cnt2 by omega]

/-- The loop finishes the merge of what is left of the two runs. -/
theorem simpleMergeLoop_eq (l m : List Nat) : ∀ tmp idx1 idx2, idx1 ≤ l.length → l.length ≤ idx2 →
    idx2 ≤ l.length + m.length → tmp.length + l.length = idx1 + idx2 → simpleMergeLoop cmp (l ++ m) l.length m.length tmp idx1 idx2 =
      tmp ++ mergeLists cmp (l.drop idx1) (m.drop (idx2 - l.length)) := by
  intro tmp idx1 idx2
  induction hk : (l.length - idx1) + (l.length + m.length - idx2) using Nat.strongRecOn generalizing tmp idx1 idx2 with
  | ind _ ih =>
    intro low mid high written
    rw [simpleMergeLoop]
    split
    · have : idx1 = l.length := by omega
      subst this
      rw [copyBack_eq _ _ _ (Nat.le_refl _) (by simp; omega), take_length, drop_length]
      rw [mergeLists_nil_left, drop_append, drop_eq_nil_of_le (by omega), nil_append]
      congr 2
      omega
    · split
      · have : idx2 = l.length + m.length := by omega
        subst this
        rw [moveUp_eq _ _ _ _ (by omega) (by simp; omega)]
        rw [copyBack_eq _ _ _ (Nat.le_refl _) (by simp; omega), take_length]
        rw [show l.length + m.length - l.length = m.length by omega, drop_length]
        have rest : (l ++ m).drop (tmp.length + (l.length + m.length - tmp.length)) = [] := drop_eq_nil_of_le (by simp; omega)
        rw [mergeLists_nil_right, rest, append_nil, drop_left' (by simp; omega),
          drop_append_of_le_length (by omega), take_left' (by simp; omega)]
        congr 2
        omega
      · have v1 : (l ++ m).getD idx1 0 = l[idx1] := by rw [getD_eq_getElem _ _ (by simp; omega), getElem_append_left]
        have v2 : (l ++ m).getD idx2 0 = m[idx2 - l.length] := by rw [getD_eq_getElem _ _ (by simp; omega), getElem_append_right (by omega)]
        simp only [v1, v2]
        have left : l.drop idx1 = l[idx1] :: l.drop (idx1 + 1) := drop_eq_getElem_cons (by omega)
        have right : m.drop (idx2 - l.length) = m[idx2 - l.length] :: m.drop (idx2 - l.length + 1) := drop_eq_getElem_cons (by omega)
        rw [left, right, mergeLists_cons, ← left, ← right]
        split
        · rw [ih _ (by omega) _ _ _ rfl (by omega) mid high (by simp; omega), append_assoc]
          rfl
        · rw [ih _ (by omega) _ _ _ rfl low (by omega) (by omega) (by simp; omega), append_assoc,
            show idx2 + 1 - l.length = idx2 - l.length + 1 by omega]
          rfl

/-- Two ordered lists whose ties are in order: what every merge starts from. -/
structure Mergeable (cmp : Comparator) (l m : List Nat) : Prop where
  left : l.Pairwise (Before cmp)
  right : m.Pairwise (Before cmp)
  ties : ∀ x ∈ l, ∀ y ∈ m, TieOrdered cmp x y

variable {l m : List Nat} (order : TotalPreorder cmp)
include order

theorem Mergeable.ordered (mergeable : Mergeable cmp l m) : (mergeLists cmp l m).Pairwise (Before cmp) :=
  merge_ordered (fun _ _ _ => Before.trans order) (Before.total order) mergeable.left mergeable.right
    fun x hx y hy => decide_eq_decide.2 ⟨mergeable.ties x hx y hy, And.left⟩

/-- The short cut both merges take: when the last of the left list is not after
the first of the right one, nothing has to move. -/
theorem Mergeable.shortcut (mergeable : Mergeable cmp l m) (nonempty : 0 < l.length)
    (first : cmp (l.getD (l.length - 1) 0) (m.getD 0 0) ≤ 0) : mergeLists cmp l m = l ++ m := by
  have refl (a : Nat) : Before cmp a a := (Before.total order a a).elim id id
  refine merge_of_le fun x y hx hy => decide_eq_true ?_
  have toLast := (mergeable.left.rel_getLast_of_rel_getLast_getLast hx (refl _)).1
  have fromHead := (mergeable.right.rel_head_of_rel_head_head hy (refl _)).1
  rw [getD_eq_getElem _ _ (by omega), ← getLast_eq_getElem (ne_nil_of_mem hx), getD_eq_getElem _ _ (length_pos_of_mem hy),
    ← head_eq_getElem (ne_nil_of_mem hy)] at first
  exact order.trans _ _ _ toLast (order.trans _ _ _ first fromHead)

theorem simpleMerge_eq (mergeable : Mergeable cmp l m) : simpleMerge cmp (l ++ m) l.length m.length = mergeLists cmp l m := by
  rw [simpleMerge]
  split
  · rename_i empty
    rcases empty with none | none
    · rw [length_eq_zero_iff.1 none]; simp
    · rw [length_eq_zero_iff.1 none]; simp
  · split
    · rename_i first
      have atLast : (l ++ m).getD (l.length - 1) 0 = l.getD (l.length - 1) 0 := by
        rw [getD_eq_getElem _ _ (by simp; omega), getD_eq_getElem _ _ (by omega), getElem_append_left]
      have atFirst : (l ++ m).getD l.length 0 = m.getD 0 0 := by
        rw [getD_eq_getElem _ _ (by simp; omega), getD_eq_getElem _ _ (by omega), getElem_append_right (Nat.le_refl _)]
        simp
      rw [atLast, atFirst] at first
      exact (mergeable.shortcut order (by omega) first.2).symm
    · rw [simpleMergeLoop_eq l m [] 0 l.length (by omega) (by omega) (by omega) (by simp)]
      simp

/-- A sorted permutation of the input. -/
structure Sorts (cmp : Comparator) (l result : List Nat) : Prop where
  perm : result.Perm l
  ordered : result.Pairwise (Before cmp)

theorem simpleMergeSort_two {v0 v1 : Nat} (ties : TieOrdered cmp v0 v1) : Sorts cmp [v0, v1] (simpleMergeSort cmp [v0, v1]) := by
  rw [simpleMergeSort]
  split
  · exact ⟨List.Perm.swap _ _ _, by simpa using Before.of_not order (by omega)⟩
  · exact ⟨List.Perm.refl _, by simpa using ties (by omega)⟩

theorem sinkThird_sorts {x y z : Nat} (xy : Before cmp x y) (xz : TieOrdered cmp x z) (yz : TieOrdered cmp y z)
    : Sorts cmp [x, y, z] (sinkThird cmp x y z) := by
  rw [sinkThird]
  split
  · have zy := Before.of_not order (a := y) (b := z) (by omega)
    split
    · have zx := Before.of_not order (a := x) (b := z) (by omega)
      have cycle : ([z] ++ [x, y]).Perm ([x, y] ++ [z]) := perm_append_comm
      refine ⟨cycle, ?_⟩
      simpa using ⟨⟨zx, zy⟩, xy⟩
    · refine ⟨List.Perm.cons _ (List.Perm.swap _ _ _), ?_⟩
      simpa using ⟨⟨xz (by omega), xy⟩, zy⟩
  · have yz' := yz (by omega)
    refine ⟨List.Perm.refl _, ?_⟩
    simpa using ⟨⟨xy, xy.trans order yz'⟩, yz'⟩

theorem simpleMergeSort_three {v0 v1 v2 : Nat} (t01 : TieOrdered cmp v0 v1) (t02 : TieOrdered cmp v0 v2) (t12 : TieOrdered cmp v1 v2)
    : Sorts cmp [v0, v1, v2] (simpleMergeSort cmp [v0, v1, v2]) := by
  rw [simpleMergeSort]
  split
  · have sorts := sinkThird_sorts order (Before.of_not order (a := v0) (b := v1) (by omega)) t12 t02
    exact ⟨sorts.perm.trans (List.Perm.swap _ _ _), sorts.ordered⟩
  · exact sinkThird_sorts order (t01 (by omega)) t02 t12

theorem simpleMerge_sorts {l' m' : List Nat} (left : Sorts cmp l l') (right : Sorts cmp m m') (ties : (l ++ m).Pairwise (TieOrdered cmp))
    : Sorts cmp (l ++ m) (simpleMerge cmp (l' ++ m') l.length m.length) := by
  have mergeable : Mergeable cmp l' m' := by
    refine ⟨left.ordered, right.ordered, fun x hx y hy => ?_⟩
    exact (pairwise_append.1 ties).2.2 x (left.perm.mem_iff.1 hx) y (right.perm.mem_iff.1 hy)
  rw [← left.perm.length_eq, ← right.perm.length_eq, simpleMerge_eq order mergeable]
  exact ⟨(mergeLists_perm l' m').trans (left.perm.append right.perm), mergeable.ordered order⟩

/-- **The serial sort is a stable sort**, on any list whose ties are in index order. -/
theorem simpleMergeSort_sorts : ∀ l : List Nat, l.Pairwise (TieOrdered cmp) → Sorts cmp l (simpleMergeSort cmp l) := by
  intro l
  induction size : l.length using Nat.strongRecOn generalizing l with
  | ind _ ih =>
    intro ties
    match l, size, ties with
    | [], _, _ => rw [simpleMergeSort]; exact ⟨List.Perm.refl _, List.Pairwise.nil⟩
    | [v], _, _ => rw [simpleMergeSort]; exact ⟨List.Perm.refl _, pairwise_singleton _ _⟩
    | [v0, v1], _, ties =>
      simp only [pairwise_cons, mem_cons, not_mem_nil, or_false, forall_eq] at ties
      exact simpleMergeSort_two order ties.1
    | [v0, v1, v2], _, ties =>
      simp only [pairwise_cons, mem_cons, not_mem_nil, or_false, forall_eq_or_imp, forall_eq] at ties
      exact simpleMergeSort_three order ties.1.1 ties.1.2 ties.2.1
    | v0 :: v1 :: v2 :: v3 :: rest, size, ties =>
      rw [simpleMergeSort]
      generalize whole : v0 :: v1 :: v2 :: v3 :: rest = listp at size ties
      have long : 4 ≤ listp.length := by rw [← whole]; simp
      have split : listp.take (listp.length / 2) ++ listp.drop (listp.length / 2) = listp := take_append_drop _ _
      rw [← split] at ties
      have left := ih _ (by rw [length_take]; omega) _ rfl (pairwise_append.1 ties).1
      have right := ih _ (by rw [length_drop]; omega) _ rfl (pairwise_append.1 ties).2.1
      have sorts := simpleMerge_sorts order left right ties
      rw [split, length_take, length_drop, Nat.min_eq_left (Nat.div_le_self _ _)] at sorts
      exact sorts

end Serial

end DarwinNotes.CF.Sort
