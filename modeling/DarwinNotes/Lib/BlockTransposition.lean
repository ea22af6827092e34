import Mathlib

/-!
# Odd-even transposition of sorted blocks

`n` blocks, all of one length `c` but the last, which may be shorter. A phase
merge-splits the neighbouring pairs of one parity: the left block keeps the
smallest elements, the right block the rest. Alternating the parity, `n` phases
sort the concatenation.

The proof counts, for a threshold, the elements below it in the first `k`
blocks. A phase changes that count by the tropical recurrence
`L k := min (L (k - 1) + c) (L (k + 1))`; unfolding it `n - 1` times leaves no
term that is smaller than `min (k * c) Z`, which is the sorted value.
-/

namespace DarwinNotes.Lib.BlockTransposition
open List

variable {α : Type} {le : α → α → Prop}

/-- One merge-split: the two blocks keep their lengths and hold, in order, what
they held before. -/
structure MergeSplit (le : α → α → Prop) (left right left' right' : List α) : Prop where
  leftLength : left'.length = left.length
  perm : (left' ++ right').Perm (left ++ right)
  ordered : (left' ++ right').Pairwise le

variable {left right left' right' : List α} (split : MergeSplit le left right left' right')
include split

theorem MergeSplit.rightLength : right'.length = right.length := by
  have total := split.perm.length_eq
  have first := split.leftLength
  simp only [length_append] at total
  omega

theorem MergeSplit.left_ordered : left'.Pairwise le := (pairwise_append.1 split.ordered).1

theorem MergeSplit.right_ordered : right'.Pairwise le := (pairwise_append.1 split.ordered).2.1

omit split

/-- A phase of parity `p` on the blocks `0 .. n - 1`: the pairs that start at a
block of that parity are merge-split, an unpaired first or last block is kept. -/
structure Phase (le : α → α → Prop) (n p : Nat) (s s' : Nat → List α) : Prop where
  pair : ∀ i, i % 2 = p % 2 → i + 1 < n → MergeSplit le (s i) (s (i + 1)) (s' i) (s' (i + 1))
  first : p % 2 = 1 → 0 < n → s' 0 = s 0
  last : ∀ i, i % 2 = p % 2 → i + 1 = n → s' i = s i

/-- The blocks are full and ordered, the last one possibly short. -/
structure Blocks (le : α → α → Prop) (n c : Nat) (s : Nat → List α) : Prop where
  full : ∀ i, i + 1 < n → (s i).length = c
  short : ∀ i, i < n → (s i).length ≤ c
  ordered : ∀ i, i < n → (s i).Pairwise le

variable {n p : Nat} {s s' : Nat → List α}

/-- Every block takes part in a phase as a left half, as a right half or idly. -/
theorem Phase.cases (phase : Phase le n p s s') {i : Nat} (hi : i < n) :
    (i % 2 = p % 2 ∧ i + 1 < n ∧ MergeSplit le (s i) (s (i + 1)) (s' i) (s' (i + 1))) ∨
    (∃ j, i = j + 1 ∧ j % 2 = p % 2 ∧ MergeSplit le (s j) (s i) (s' j) (s' i)) ∨
    s' i = s i ∧ (i % 2 = p % 2 → i + 1 = n) ∧ (i % 2 ≠ p % 2 → i = 0) := by
  by_cases same : i % 2 = p % 2
  · rcases Nat.lt_or_ge (i + 1) n with inner | _
    · exact Or.inl ⟨same, inner, phase.pair i same inner⟩
    · exact Or.inr (Or.inr ⟨phase.last i same (by omega), by omega⟩)
  · cases i with
    | zero => exact Or.inr (Or.inr ⟨phase.first (by omega) hi, by omega⟩)
    | succ j => exact Or.inr (Or.inl ⟨j, rfl, by omega, phase.pair j (by omega) hi⟩)

theorem Phase.congr_parity {q : Nat} (phase : Phase le n p s s') (same : p % 2 = q % 2) : Phase le n q s s' := by
  obtain ⟨pair, first, last⟩ := phase
  rw [same] at pair first last
  exact ⟨pair, first, last⟩

variable {c : Nat}

theorem Phase.blocks (phase : Phase le n p s s') (blocks : Blocks le n c s) : Blocks le n c s' := by
  have each : ∀ i, i < n → (s' i).length = (s i).length ∧ (s' i).Pairwise le := by
    intro i hi
    rcases phase.cases hi with ⟨_, _, split⟩ | ⟨j, _, _, split⟩ | ⟨same, _⟩
    · exact ⟨split.leftLength, split.left_ordered⟩
    · exact ⟨split.rightLength, split.right_ordered⟩
    · rw [same]; exact ⟨rfl, blocks.ordered i hi⟩
  refine ⟨fun i hi => ?_, fun i hi => ?_, fun i hi => (each i hi).2⟩
  · rw [(each i (by omega)).1]; exact blocks.full i hi
  · rw [(each i hi).1]; exact blocks.short i hi

/-! ## Counting below a threshold -/

section Threshold

variable (b : α → Bool)

/-- The elements below the threshold in the first `k` blocks. -/
def countBelow (s : Nat → List α) : Nat → Nat
  | 0 => 0
  | k + 1 => countBelow s k + (s k).countP b

/-- `b` is a lower set of the order. -/
def LowerSet (le : α → α → Prop) (b : α → Bool) : Prop := ∀ x y, le x y → b y = true → b x = true

theorem countP_zero_of_lower (lower : LowerSet le b) {x : α} {l : List α}
    (ordered : (x :: l).Pairwise le) (above : b x = false) : l.countP b = 0 := by
  rw [countP_eq_zero]
  intro y member small
  have bad := lower x y ((pairwise_cons.1 ordered).1 y member) small
  rw [above] at bad
  exact Bool.noConfusion bad

/-- In an ordered list everything below the threshold comes first. -/
theorem countP_take (lower : LowerSet le b) {l : List α} (ordered : l.Pairwise le) (c : Nat)
    (fits : c ≤ l.length) : (l.take c).countP b = min c (l.countP b) := by
  induction l generalizing c with
  | nil =>
    have : c = 0 := by simpa using fits
    simp [this]
  | cons x _ ih =>
    cases c with
    | zero => simp
    | succ c =>
      have rest := ih (pairwise_cons.1 ordered).2 c (by simpa using fits)
      cases small : b x with
      | true =>
        simp only [take_succ_cons, countP_cons, small, if_true, rest]
        omega
      | false =>
        have none := countP_zero_of_lower b lower ordered small
        simp only [take_succ_cons, countP_cons, small, none, rest]
        simp

variable {b}

/-- A merge-split packs the elements below the threshold to the left. -/
theorem MergeSplit.count_left (lower : LowerSet le b) (split : MergeSplit le left right left' right') :
    left'.countP b = min left.length (left.countP b + right.countP b) := by
  have packed := countP_take b lower split.ordered left.length
    (by rw [length_append, split.leftLength]; omega)
  rw [split.perm.countP_eq, countP_append] at packed
  rw [← packed, ← split.leftLength, take_left]

theorem MergeSplit.count_total (split : MergeSplit le left right left' right') :
    left'.countP b + right'.countP b = left.countP b + right.countP b := by
  have same := split.perm.countP_eq b
  simpa only [countP_append] using same

/-- A phase does not move anything across the start of one of its pairs. -/
theorem Phase.count_start (phase : Phase le n p s s') : ∀ k, k ≤ n → k % 2 = p % 2 → countBelow b s' k = countBelow b s k := by
  intro k
  induction k using Nat.strongRecOn with
  | ind k ih =>
    intro bound parity
    match k, ih, bound, parity with
    | 0, _, _, _ => rfl
    | 1, _, bound, parity =>
      simp only [countBelow]
      rw [phase.first (by omega) (by omega)]
    | k + 2, ih, bound, parity =>
      have start := ih k (by omega) (by omega) (by omega)
      have split := phase.pair k (by omega) (by omega)
      have total := split.count_total (b := b)
      simp only [countBelow]
      omega

theorem Phase.count_all (phase : Phase le n p s s') : countBelow b s' n = countBelow b s n := by
  by_cases parity : n % 2 = p % 2
  · exact phase.count_start n (Nat.le_refl n) parity
  · cases n with
    | zero => rfl
    | succ m =>
      have start := phase.count_start (b := b) m (by omega) (by omega)
      have kept := phase.last m (by omega) rfl
      simp [countBelow, start, kept]

variable {k : Nat}

/-- The tropical recurrence at a boundary inside a pair. -/
theorem Phase.count_inner (lower : LowerSet le b) (phase : Phase le n p s s') (blocks : Blocks le n c s) (inner : k + 1 < n)
    (parity : k % 2 = p % 2) : countBelow b s' (k + 1) = min (countBelow b s k + c) (countBelow b s (k + 2)) := by
  have start := phase.count_start (b := b) k (by omega) parity
  have left := (phase.pair k parity inner).count_left lower
  have full := blocks.full k inner
  simp only [countBelow]
  omega

theorem countBelow_le (blocks : Blocks le n c s) {i : Nat} (bound : i + k ≤ n) : countBelow b s (i + k) ≤ countBelow b s i + k * c := by
  induction k with
  | zero => simp
  | succ k =>
    have short := blocks.short (i + k) (by omega)
    have small := countP_le_length (p := b) (l := s (i + k))
    have grow : (k + 1) * c = k * c + c := by ring
    change countBelow b s (i + k) + (s (i + k)).countP b ≤ _
    omega

/-- After `m` unfoldings of the recurrence the count `v` in the first `k` blocks
is bounded below along every path: one with `a` steps to the left passes as many
full blocks, and what is not in front of its end is in the blocks behind it. -/
def Settled (n c total m k v : Nat) : Prop := ∀ a ≤ k, a * c ≤ v ∨ total ≤ v + (n + a - k - (m + 1)) * c

variable {total m v : Nat}

theorem Settled.weaken (settled : Settled n c total (m + 1) k v) : Settled n c total m k v := by
  intro a bound
  refine (settled a bound).imp_right fun high => high.trans ?_
  exact Nat.add_le_add_left (Nat.mul_le_mul_right c (by omega)) v

/-- One unfolding towards the left neighbour. -/
theorem Settled.fromLeft (settled : Settled n c total m k v) : Settled n c total (m + 1) (k + 1) (v + c) := by
  intro a bound
  cases a with
  | zero => exact Or.inl (by simp)
  | succ a =>
    rw [Nat.succ_mul]
    rcases settled a (by omega) with low | high
    · exact Or.inl (Nat.add_le_add_right low c)
    · have step : (n + a - k - (m + 1)) * c ≤ (n + (a + 1) - (k + 1) - (m + 1 + 1)) * c + c := by
        rw [← Nat.succ_mul]
        exact Nat.mul_le_mul_right c (by omega)
      exact Or.inr (by omega)

/-- One unfolding towards the right neighbour. -/
theorem Settled.fromRight (settled : Settled n c total m (k + 2) v) : Settled n c total (m + 1) (k + 1) v := by
  intro a bound
  rw [show n + a - (k + 1) - (m + 1 + 1) = n + a - (k + 2) - (m + 1) by omega]
  exact settled a (by omega)

theorem Settled.smaller {w : Nat} (left : Settled n c total m k v) (right : Settled n c total m k w) : Settled n c total m k (min v w) := by
  rcases Nat.le_total v w with small | small
  · rw [Nat.min_eq_left small]; exact left
  · rw [Nat.min_eq_right small]; exact right

/-- With `n - 1` unfoldings every path has met an end. -/
theorem Settled.done (settled : Settled n c total m k v) (enough : n ≤ m + 1) : min (k * c) total ≤ v := by
  have last := settled k (Nat.le_refl k)
  rw [show n + k - k - (m + 1) = 0 by omega, Nat.zero_mul] at last
  omega

end Threshold

/-! ## The run of the phases -/

/-- `t` phases of alternating parity, the first one even. -/
inductive Run (le : α → α → Prop) (n : Nat) (s : Nat → List α) : Nat → (Nat → List α) → Prop
  | start : Run le n s 0 s
  | step {t : Nat} {s' s'' : Nat → List α} : Run le n s t s' → Phase le n t s' s'' → Run le n s (t + 1) s''

variable {t : Nat}

theorem Run.blocks (run : Run le n s t s') (blocks : Blocks le n c s) : Blocks le n c s' := by
  induction run with
  | start => exact blocks
  | step _ phase ih => exact phase.blocks ih

variable {b : α → Bool}

theorem Run.count_all (run : Run le n s t s') : countBelow b s' n = countBelow b s n := by
  induction run with
  | start => rfl
  | step _ phase ih => rw [phase.count_all, ih]

variable {k : Nat}

theorem settled_start (blocks : Blocks le n c s) (bound : k ≤ n) : Settled n c (countBelow b s n) 0 k (countBelow b s k) := by
  intro a _
  cases a with
  | zero => exact Or.inl (by simp)
  | succ a =>
    have rest := countBelow_le (b := b) blocks (i := k) (k := n - k) (by omega)
    rw [show k + (n - k) = n by omega] at rest
    exact Or.inr (rest.trans (Nat.add_le_add_left (Nat.mul_le_mul_right c (by omega)) _))

/-- The invariant of the run: the boundaries the last phase updated are `t`
unfoldings deep, the others one less. -/
theorem Run.settled (run : Run le n s t s') (blocks : Blocks le n c s) (lower : LowerSet le b) : ∀ k, k ≤ n →
      Settled n c (countBelow b s n) (t - 1) k (countBelow b s' k) ∧
      (k % 2 = t % 2 → Settled n c (countBelow b s n) t k (countBelow b s' k)) := by
  induction run with
  | start => intro k bound; exact ⟨settled_start blocks bound, fun _ => settled_start blocks bound⟩
  | @step t _ s'' run phase before =>
    intro k within
    by_cases parity : k % 2 = t % 2
    · -- not touched by this phase, so as deep as before
      rw [phase.count_start (b := b) k within parity]
      exact ⟨(before k within).2 parity, fun other => by omega⟩
    have deep : Settled n c (countBelow b s n) (t + 1) k (countBelow b s'' k) := by
      rcases Nat.lt_or_ge k n with inner | _
      · cases k with
        | zero => exact fun a bound => Or.inl (by simp [Nat.le_zero.1 bound])
        | succ k =>
          rw [phase.count_inner lower (run.blocks blocks) inner (by omega)]
          have left := ((before k (by omega)).2 (by omega)).fromLeft
          have right := ((before (k + 2) (by omega)).2 (by omega)).fromRight
          exact left.smaller right
      · rw [show k = n by omega, (Run.step run phase).count_all]
        exact fun _ _ => Or.inr (Nat.le_add_right _ _)
    exact ⟨deep.weaken, fun _ => deep⟩

/-- The concatenation of the blocks. -/
def concat (n : Nat) (s : Nat → List α) : List α := ((range n).map s).flatten

theorem concat_succ (n : Nat) (s : Nat → List α) : concat (n + 1) s = concat n s ++ s n := by simp [concat, range_succ]

theorem concat_perm (each : ∀ i < n, (s' i).Perm (s i)) : (concat n s').Perm (concat n s) := by
  induction n with
  | zero => exact List.Perm.refl _
  | succ n ih =>
    rw [concat_succ, concat_succ]
    exact (ih fun i bound => each i (Nat.lt_succ_of_lt bound)).append (each n (Nat.lt_succ_self n))

theorem length_concat (blocks : Blocks le n c s) (bound : k < n) : (concat k s).length = k * c := by
  induction k with
  | zero => simp [concat]
  | succ k ih =>
    rw [concat_succ, length_append, ih (by omega), blocks.full k bound]
    ring

theorem countP_concat (b : α → Bool) (k : Nat) (s : Nat → List α) : (concat k s).countP b = countBelow b s k := by
  induction k with
  | zero => rfl
  | succ _ ih => rw [concat_succ, countP_append, ih]; rfl

theorem Phase.perm (phase : Phase le n p s s') : (concat n s').Perm (concat n s) := by
  classical
  rw [perm_iff_count]
  intro x
  simp only [count, countP_concat]
  exact phase.count_all

theorem Run.perm (run : Run le n s t s') : (concat n s').Perm (concat n s) := by
  induction run with
  | start => exact List.Perm.refl _
  | step _ phase ih => exact phase.perm.trans ih

/-- Elements of an earlier block precede those of a later one once `n` phases
have run. -/
theorem Run.across (trans : ∀ x y z, le x y → le y z → le x z) (total : ∀ x y, le x y ∨ le y x) (run : Run le n s t s')
    (blocks : Blocks le n c s) (enough : n ≤ t) (bound : k < n) {x y : α} (left : x ∈ concat k s') (right : y ∈ s' k) : le x y := by
  classical
  -- everything at most `y`, of which `y` itself is not in the first `k` blocks
  let b : α → Bool := fun z => decide (le z y)
  have lower : LowerSet le b := by
    intro u v small member
    exact decide_eq_true (trans u v y small (of_decide_eq_true member))
  have settled := ((run.settled blocks lower k (by omega)).1).done (by omega)
  have more : countBelow b s' k < countBelow b s n := by
    rw [← run.count_all]
    have here : 0 < (s' k).countP b := countP_pos_iff.2 ⟨y, right, decide_eq_true ((total y y).elim id id)⟩
    have mono : ∀ j, countBelow b s' (k + 1) ≤ countBelow b s' (k + 1 + j) := by
      intro j
      induction j with
      | zero => exact Nat.le_refl _
      | succ _ ih => exact ih.trans (Nat.le_add_right _ _)
    have reach := mono (n - (k + 1))
    rw [show k + 1 + (n - (k + 1)) = n by omega] at reach
    simp only [countBelow] at reach
    omega
  have full := length_concat (run.blocks blocks) bound
  have every : (concat k s').countP b = (concat k s').length := by
    have most := countP_le_length (p := b) (l := concat k s')
    rw [countP_concat] at most ⊢
    omega
  exact of_decide_eq_true (countP_eq_length.1 every x left)

/-- **`n` phases sort `n` blocks.** -/
theorem Run.sorted (trans : ∀ x y z, le x y → le y z → le x z) (total : ∀ x y, le x y ∨ le y x) (run : Run le n s t s')
    (blocks : Blocks le n c s) (enough : n ≤ t) : (concat n s').Pairwise le := by
  have upto : ∀ k, k ≤ n → (concat k s').Pairwise le := by
    intro k
    induction k with
    | zero => intro _; simp [concat]
    | succ k ih =>
      intro bound
      rw [concat_succ, pairwise_append]
      exact ⟨ih (by omega), (run.blocks blocks).ordered k bound,
        fun x left y => run.across trans total blocks enough bound left⟩
  exact upto n (Nat.le_refl _)

/-! ## Relations across blocks -/

/-- `q` holds from every block to every later one. -/
def Across (q : α → α → Prop) (n : Nat) (s : Nat → List α) : Prop := ∀ i j, i < j → j < n → ∀ x ∈ s i, ∀ y ∈ s j, q x y

variable {q : α → α → Prop}

theorem across_of_pairwise (pairwise : (concat n s).Pairwise q) : Across q n s ∧ ∀ i < n, (s i).Pairwise q := by
  obtain ⟨inside, between⟩ := pairwise_flatten.1 pairwise
  refine ⟨fun i j less bound => ?_, fun i bound => ?_⟩
  · rw [pairwise_map, pairwise_iff_getElem] at between
    have related := between i j (by rw [length_range]; omega) (by rw [length_range]; exact bound) less
    simpa only [getElem_range] using related
  · exact inside _ (mem_map.2 ⟨i, mem_range.2 bound, rfl⟩)

/-- Where an element of a block was before the phase. -/
theorem Phase.origin (phase : Phase le n p s s') {i : Nat} (hi : i < n) {x : α} (member : x ∈ s' i) : ∃ j, x ∈ s j ∧ j < n ∧
      (j = i ∧ (i % 2 = p % 2 → i + 1 = n) ∧ (i % 2 ≠ p % 2 → i = 0) ∨
        i % 2 = p % 2 ∧ i ≤ j ∧ j ≤ i + 1 ∨ i % 2 ≠ p % 2 ∧ i ≤ j + 1 ∧ j ≤ i) := by
  rcases phase.cases hi with ⟨_, inner, split⟩ | ⟨j, rfl, _, split⟩ | ⟨same, _⟩
  · rcases mem_append.1 (split.perm.mem_iff.1 (mem_append_left _ member)) with here | there
    · exact ⟨i, here, hi, by omega⟩
    · exact ⟨i + 1, there, inner, by omega⟩
  · rcases mem_append.1 (split.perm.mem_iff.1 (mem_append_right _ member)) with there | here
    · exact ⟨j, there, by omega, by omega⟩
    · exact ⟨j + 1, here, hi, by omega⟩
  · exact ⟨i, same ▸ member, hi, by omega⟩

/-- A phase only moves elements inside a pair, which it leaves in order. -/
theorem Phase.across (weaker : ∀ x y, le x y → q x y) (phase : Phase le n p s s') (across : Across q n s) : Across q n s' := by
  intro i j less bound x hx y hy
  by_cases pair : i % 2 = p % 2 ∧ j = i + 1
  · obtain ⟨same, rfl⟩ := pair
    exact weaker x y ((pairwise_append.1 (phase.pair i same bound).ordered).2.2 x hx y hy)
  · obtain ⟨i', from_i, _, _⟩ := phase.origin (by omega) hx
    obtain ⟨j', from_j, bound', _⟩ := phase.origin bound hy
    exact across i' j' (by omega) bound' x from_i y from_j

end DarwinNotes.Lib.BlockTransposition
