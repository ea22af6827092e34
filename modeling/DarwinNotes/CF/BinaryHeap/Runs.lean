import DarwinNotes.CF.BinaryHeap.Model

/-!
# A binary heap is a multiset with a minimum

Sifting keeps the values, and leaves the heap in order. A heap that starts empty holds the values that were added to it,
without the minima that were removed, as long as the values stay what they are when they are retained and there are never more
than `2 ^ 30`: then the size of the next block is no `int`.
-/

namespace DarwinNotes.CF.BinaryHeap
open Lib Function List

section Order

variable {Item : Type} [LinearOrder Item] {callbacks : CallBacks Item}

def CallBacks.Le (callbacks : CallBacks Item) (item item2 : Item) : Prop := callbacks.isGreater item item2 = false

/-- The comparator, if there is one, is a total preorder. -/
def CallBacks.IsPreorder (callbacks : CallBacks Item) : Prop :=
  ∀ compare, callbacks.compare = some compare → TotalPreorder fun item item2 => compare item item2 ≠ .greaterThan

variable (isPreorder : callbacks.IsPreorder)
include isPreorder

theorem CallBacks.IsPreorder.le : TotalPreorder callbacks.Le := by
  cases isCompare : callbacks.compare with
  | none =>
    have isLe : callbacks.Le = (· ≤ ·) := by
      funext item item2
      simp [CallBacks.Le, CallBacks.isGreater, isCompare]
    rw [isLe]
    exact ⟨le_total, fun _ _ _ => le_trans⟩
  | some compare =>
    have isLe : callbacks.Le = fun item item2 => compare item item2 ≠ .greaterThan := by
      funext item item2
      simp [CallBacks.Le, CallBacks.isGreater, isCompare]
    rw [isLe]
    exact isPreorder compare isCompare

theorem CallBacks.IsPreorder.le_of_greater {item item2 : Item} (isGreater : callbacks.isGreater item item2 = true)
    : callbacks.Le item2 item := by
  apply (isPreorder.le.total item item2).resolve_left
  intro isLe
  exact nomatch isGreater.symm.trans isLe

/-! ## Sifting -/

variable {buckets : Nat → Item}

theorem siftUp_spec {value : Item} {count idx : Nat} (inside : idx < count)
    (sifted : SiftedUp callbacks.Le (update buckets idx value) count idx) : HeapOrdered callbacks.Le
        (update (siftUp callbacks value buckets idx).1 (siftUp callbacks value buckets idx).2 value) count ∧
      cells (update (siftUp callbacks value buckets idx).1 (siftUp callbacks value buckets idx).2 value) count =
        cells (update buckets idx value) count := by
  induction idx using Nat.strongRecOn generalizing buckets with
  | ind idx ih =>
    rw [siftUp]
    split
    case isFalse isRoot => exact ⟨sifted.ordered fun notRoot => absurd notRoot isRoot, rfl⟩
    case isTrue notRoot =>
    simp only
    split
    case isTrue stops =>
      have isLe := Bool.eq_false_iff.mpr stops
      exact ⟨sifted.ordered fun _ => isLe, rfl⟩
    case isFalse isGreater =>
      have isLess := parent_lt notRoot
      have before := isPreorder.le_of_greater (by simpa using isGreater)
      obtain ⟨ordered, same⟩ := ih (parent idx) isLess (isLess.trans inside) (sifted.step isPreorder.le notRoot inside before)
      exact ⟨ordered, same.trans (cells_move inside (isLess.trans inside) (Nat.ne_of_gt isLess) value)⟩

omit isPreorder in
theorem parent_eq_iff {i idx : Nat} (positive : 0 < i) : parent i = idx ↔ i = idx * 2 + 1 ∨ i = idx * 2 + 1 + 1 := by
  rw [parent]
  omega

theorem smallerChild_spec (buckets : Nat → Item) {count idx : Nat} (hasChild : idx * 2 + 1 < count) :
    smallerChild callbacks count buckets (idx * 2 + 1) < count ∧ parent (smallerChild callbacks count buckets (idx * 2 + 1)) = idx ∧
      idx < smallerChild callbacks count buckets (idx * 2 + 1) ∧
      ∀ i < count, 0 < i → parent i = idx → callbacks.Le (buckets (smallerChild callbacks count buckets (idx * 2 + 1))) (buckets i) := by
  have isChild := @parent_eq_iff
  rw [smallerChild]
  split
  case isTrue isSecond =>
    refine ⟨isSecond.1, (isChild (Nat.succ_pos _)).mpr (.inr rfl), by omega, fun i bound positive isBelow => ?_⟩
    rcases (isChild positive).mp isBelow with rfl | rfl
    · exact isPreorder.le_of_greater isSecond.2
    · exact isPreorder.le.refl _
  case isFalse notSecond =>
    refine ⟨hasChild, (isChild (Nat.succ_pos _)).mpr (.inl rfl), by omega, fun i bound positive isBelow => ?_⟩
    rcases (isChild positive).mp isBelow with rfl | rfl
    · exact isPreorder.le.refl _
    · rw [not_and, Bool.not_eq_true] at notSecond
      exact notSecond bound

theorem siftDown_spec {val : Item} {count idx : Nat} (inside : idx < count)
    (sifted : SiftedDown callbacks.Le (update buckets idx val) count idx) : HeapOrdered callbacks.Le
        (update (siftDown callbacks count val buckets idx).1 (siftDown callbacks count val buckets idx).2 val) count ∧
      cells (update (siftDown callbacks count val buckets idx).1 (siftDown callbacks count val buckets idx).2 val) count =
        cells (update buckets idx val) count := by
  induction left : count - idx using Nat.strongRecOn generalizing buckets idx with
  | ind _ ih =>
    rw [siftDown]
    split
    case isFalse =>
      refine ⟨sifted.ordered fun i bound positive isBelow => ?_, rfl⟩
      rcases (parent_eq_iff positive).mp isBelow with rfl | rfl <;> omega
    case isTrue hasChild =>
    obtain ⟨bound, isBelow, isLess, least⟩ := smallerChild_spec isPreorder buckets hasChild
    simp only
    split
    case isTrue isGreater =>
      refine ⟨sifted.ordered fun i bound' positive' isBelow' => ?_, rfl⟩
      exact isPreorder.le.trans _ _ _ (isPreorder.le_of_greater isGreater) (least i bound' positive' isBelow')
    case isFalse notGreater =>
      have before := Bool.eq_false_iff.mpr notGreater
      have sifted' := sifted.step bound (by omega) isBelow before least
      obtain ⟨ordered, same⟩ := ih _ (by omega) bound sifted' rfl
      exact ⟨ordered, same.trans (cells_move inside bound (Nat.ne_of_lt isLess) val)⟩

end Order

/-! ## Calls -/

section Calls

variable {Item : Type} [LinearOrder Item] {heap : Heap Item}

/-- The heap is in order, and its block is of a size that `__CFBinaryHeapRoundUpCapacity` gives. -/
structure Good (heap : Heap Item) : Prop where
  isPreorder : heap.callbacks.IsPreorder
  ordered : HeapOrdered heap.callbacks.Le heap.buckets heap.count
  fits : heap.count ≤ heap.capacity
  block : ∃ k, 2 ≤ k ∧ k ≤ 30 ∧ heap.capacity = (2 ^ k : Nat)

theorem roundUpCapacity_next {k : Nat} (small : 2 ≤ k) (large : k < 30) : roundUpCapacity ((2 ^ k : Nat) + (1 : Nat)) = (2 ^ (k + 1) : Nat) := by
  have isSize : Array.flsl (2 ^ k + 1) = k + 1 := by
    apply Nat.le_antisymm
    · rw [Array.flsl, Nat.size_le, Nat.pow_succ]
      have := Nat.one_lt_two_pow (show k ≠ 0 by omega)
      omega
    · exact Nat.lt_size.mpr (Nat.le_succ _)
  have fourth := Nat.pow_le_pow_right Nat.two_pos small
  have bound := Nat.pow_le_pow_right Nat.two_pos large
  rw [roundUpCapacity, if_neg (by omega), show ((2 ^ k : Nat) + (1 : Nat) : Int).toNat = 2 ^ k + 1 by omega, isSize,
    Nat.mod_eq_of_lt (by omega)]
  apply Int.bmod_eq_of_le <;> omega

variable (good : Good heap)
include good

theorem Good.grow (isFull : heap.count = heap.capacity) (hasRoom : heap.count < 2 ^ 30) :
    ∃ capacity, BinaryHeap.grow heap 1 = .ok { heap with capacity := capacity } ∧ (heap.count : Int) + 1 ≤ capacity ∧
      ∃ k, 2 ≤ k ∧ k ≤ 30 ∧ capacity = (2 ^ k : Nat) := by
  obtain ⟨k, small, -, _⟩ := good.block
  have isCount : heap.count = 2 ^ k := by omega
  have large : k < 30 := (Nat.pow_lt_pow_iff_right (by omega)).mp (isCount ▸ hasRoom)
  have next := roundUpCapacity_next small large
  rw [BinaryHeap.grow, isCount, next, Nat.pow_succ]
  have positive := Nat.two_pow_pos k
  refine ⟨_, if_pos (by omega), by omega, k + 1, by omega, by omega, by rw [Nat.pow_succ]⟩

theorem Good.addValue (hasRoom : heap.count < 2 ^ 30) {value : Item} (isSame : heap.callbacks.retained value = value) :
    ∃ heap', BinaryHeap.addValue heap value = .ok heap' ∧ Good heap' ∧ heap'.callbacks = heap.callbacks ∧ heap'.count = heap.count + 1 ∧
      cells heap'.buckets heap'.count = value ::ₘ cells heap.buckets heap.count := by
  have grown : ∃ capacity, (if heap.count = heap.capacity then BinaryHeap.grow heap 1 else .ok heap) =
      .ok { heap with capacity := capacity } ∧ (heap.count : Int) + 1 ≤ capacity ∧ ∃ k, 2 ≤ k ∧ k ≤ 30 ∧ capacity = (2 ^ k : Nat) := by
    split
    case isTrue isFull => exact good.grow isFull hasRoom
    case isFalse =>
      have fits := good.fits
      exact ⟨heap.capacity, rfl, by omega, good.block⟩
  obtain ⟨capacity, isGrown, fits, block⟩ := grown
  obtain ⟨ordered, same⟩ := siftUp_spec good.isPreorder (Nat.lt_succ_self _) (good.ordered.siftedUp value)
  rw [BinaryHeap.addValue, isGrown]
  refine ⟨_, rfl, ⟨good.isPreorder, ?_, ?_, block⟩, rfl, rfl, ?_⟩
  · simp only [isSame]
    exact ordered
  · simpa using fits
  · simp only [isSame, same]
    rw [cells_succ, update_self, cells_congr]
    intro i before
    rw [update_of_ne (Nat.ne_of_lt before)]

theorem Good.removeMinimumValue (notEmpty : 0 < heap.count) :
    Good (BinaryHeap.removeMinimumValue heap) ∧ (BinaryHeap.removeMinimumValue heap).callbacks = heap.callbacks ∧
      (BinaryHeap.removeMinimumValue heap).count = heap.count - 1 ∧
      heap.buckets 0 ::ₘ cells (BinaryHeap.removeMinimumValue heap).buckets (BinaryHeap.removeMinimumValue heap).count =
        cells heap.buckets heap.count := by
  have split : heap.count = heap.count - 1 + 1 := by omega
  have isLast := cells_succ heap.buckets (heap.count - 1)
  rw [← split] at isLast
  rw [BinaryHeap.removeMinimumValue, if_neg (Nat.ne_of_gt notEmpty)]
  have fits := good.fits
  have fewer : HeapOrdered heap.callbacks.Le heap.buckets (heap.count - 1) :=
    fun i bound => good.ordered i (by omega)
  rcases Nat.eq_zero_or_pos (heap.count - 1) with isOnly | hasMore
  · simp only [isOnly]
    refine ⟨⟨good.isPreorder, fun i bound => absurd bound (Nat.not_lt_zero i), by simp only; omega, good.block⟩, trivial, trivial, ?_⟩
    rw [isLast, isOnly]
    simp
  · obtain ⟨ordered, same⟩ := siftDown_spec good.isPreorder hasMore (fewer.siftedDown (heap.buckets (heap.count - 1)))
    refine ⟨⟨good.isPreorder, ordered, by simp only; omega, good.block⟩, rfl, rfl, ?_⟩
    rw [same, cells_update _ hasMore, isLast]

theorem Good.minimum {value : Item} (mem : value ∈ cells heap.buckets heap.count) : heap.callbacks.Le (heap.buckets 0) value := by
  obtain ⟨i, bound, rfl⟩ := mem_cells.mp mem
  exact good.ordered.root good.isPreorder.le bound

/-! ## The values in order -/

theorem drain_spec :
    (drain heap).Pairwise heap.callbacks.Le ∧ ((drain heap : List Item) : Multiset Item) = cells heap.buckets heap.count := by
  induction isCount : heap.count generalizing heap with
  | zero =>
    rw [drain, dif_pos isCount]
    exact ⟨.nil, rfl⟩
  | succ _ ih =>
    obtain ⟨good', sameCallbacks, fewer, values⟩ := good.removeMinimumValue (by omega)
    obtain ⟨sorted, same⟩ := ih good' (by omega)
    rw [isCount, Nat.add_sub_cancel] at fewer
    rw [fewer, isCount] at values
    rw [drain, dif_neg (by omega), ← Multiset.cons_coe, same, values, pairwise_cons]
    refine ⟨⟨fun value mem => ?_, sameCallbacks ▸ sorted⟩, rfl⟩
    apply good.minimum
    rw [isCount, ← values, ← same]
    exact Multiset.mem_cons_of_mem mem

theorem addValues_spec (list : List Item) (hasRoom : heap.count + list.length ≤ 2 ^ 30)
    (isSame : ∀ value ∈ list, heap.callbacks.retained value = value) :
    ∃ heap', addValues heap list = .ok heap' ∧ Good heap' ∧ heap'.callbacks = heap.callbacks ∧
      cells heap'.buckets heap'.count = list + cells heap.buckets heap.count := by
  induction list generalizing heap with
  | nil => exact ⟨heap, rfl, good, rfl, by simp⟩
  | cons _ _ ih =>
    rw [length_cons] at hasRoom
    rw [forall_mem_cons] at isSame
    obtain ⟨_, isAdded, good₁, sameCallbacks, isCount, values⟩ := good.addValue (by omega) isSame.1
    obtain ⟨heap', isRest, good', sameCallbacks', values'⟩ := ih good₁ (by omega) (sameCallbacks.symm ▸ isSame.2)
    refine ⟨heap', ?_, good', sameCallbacks'.trans sameCallbacks, ?_⟩
    · rw [addValues, isAdded]
      exact isRest
    · rw [values', values, ← Multiset.cons_coe, Multiset.add_cons, Multiset.cons_add]

omit good

theorem good_empty {callbacks : CallBacks Item} (isPreorder : callbacks.IsPreorder) (buckets : Nat → Item) :
    Good (empty callbacks buckets) := by
  have isCapacity : roundUpCapacity 1 = (2 ^ 2 : Nat) := by decide
  refine ⟨isPreorder, fun i bound => absurd bound (Nat.not_lt_zero i), ?_, 2, Nat.le_refl 2, by omega, isCapacity⟩
  simp only [empty, isCapacity]
  omega

omit [LinearOrder Item] in
theorem coe_values (heap : Heap Item) : ((values heap : List Item) : Multiset Item) = cells heap.buckets heap.count := rfl

/-- A call that changes the heap. -/
inductive Call (Item : Type)
  | addValue (value : Item)
  | removeMinimumValue
  | removeAllValues

def perform (heap : Heap Item) : Call Item → Except Fault (Heap Item)
  | .addValue value => addValue heap value
  | .removeMinimumValue => .ok (removeMinimumValue heap)
  | .removeAllValues => .ok (removeAllValues heap)

/-- What becomes of the contents: the minimum is the one that `CFBinaryHeapGetMinimum` gives before the call. -/
def contentsAfter (heap : Heap Item) (contents : Multiset Item) : Call Item → Multiset Item
  | .addValue value => value ::ₘ contents
  | .removeMinimumValue =>
    match getMinimum heap with
    | some minimum => contents.erase minimum
    | none => contents
  | .removeAllValues => 0

def performAll (heap : Heap Item) (contents : Multiset Item) : List (Call Item) → Except Fault (Heap Item × Multiset Item)
  | [] => .ok (heap, contents)
  | call :: calls => do
    let heap' ← perform heap call
    performAll heap' (contentsAfter heap contents call) calls

/-- A value that is added is the one that is stored, and there is a size for the block. -/
def Call.Fits (heap : Heap Item) : Call Item → Prop
  | addValue value => heap.count < 2 ^ 30 ∧ heap.callbacks.retained value = value
  | _ => True

def AllFit (heap : Heap Item) : List (Call Item) → Prop
  | [] => True
  | call :: calls => call.Fits heap ∧ ∀ heap', perform heap call = .ok heap' → AllFit heap' calls

/-- The heap holds the contents. -/
structure Holds (heap : Heap Item) (contents : Multiset Item) : Prop where
  ordered : ∀ i < heap.count, 0 < i → heap.callbacks.Le (heap.buckets (parent i)) (heap.buckets i)
  isContents : ((values heap : List Item) : Multiset Item) = contents
  minimum : ∀ minimum, getMinimum heap = some minimum → minimum ∈ contents ∧ ∀ value ∈ contents, heap.callbacks.Le minimum value
  noMinimum : getMinimum heap = none ↔ contents = 0
  inOrder : ∀ buckets, ∃ list, getValues buckets heap = .ok list ∧ list.Pairwise heap.callbacks.Le ∧ (list : Multiset Item) = contents ∧
    ∀ {σ : Type} (applier : σ → Item → σ) (context : σ), applyFunction buckets heap applier context = .ok (list.foldl applier context)

/-- The values are those that are stored, and there are not too many for a block. -/
structure Retained (heap : Heap Item) (contents : Multiset Item) : Prop where
  good : Good heap
  isContents : cells heap.buckets heap.count = contents
  bounded : heap.count ≤ 2 ^ 30
  isSame : ∀ value ∈ contents, heap.callbacks.retained value = value

variable {contents : Multiset Item}

theorem Retained.holds (retained : Retained heap contents) : Holds heap contents := by
  obtain ⟨good, rfl, bounded, isSame⟩ := retained
  refine ⟨good.ordered, coe_values heap, fun minimum isMinimum => ?_, ?_, fun buckets => ?_⟩
  · rw [getMinimum, Option.ite_none_right_eq_some, Option.some_inj] at isMinimum
    obtain ⟨notEmpty, rfl⟩ := isMinimum
    exact ⟨mem_cells.mpr ⟨0, notEmpty, rfl⟩, fun value => good.minimum⟩
  · rw [← Multiset.card_eq_zero, card_cells, getMinimum]
    split <;> simp <;> omega
  · by_cases isEmpty : heap.count = 0
    · refine ⟨[], if_pos isEmpty, .nil, by rw [isEmpty]; rfl, fun applier context => if_pos isEmpty⟩
    have isLength : (values heap).length = heap.count := by rw [values, length_map, length_range]
    obtain ⟨heapCopy, isCopy, good', sameCallbacks, sameCells⟩ := addValues_spec (good_empty good.isPreorder buckets) (values heap)
      (by rw [isLength]; simpa [empty] using bounded) (fun value mem => isSame value (Multiset.mem_coe.mp mem))
    obtain ⟨sorted, same⟩ := drain_spec good'
    rw [sameCallbacks] at sorted
    refine ⟨drain heapCopy, ?_, sorted, ?_, fun applier context => ?_⟩
    · rw [getValues, if_neg isEmpty, createCopy, isCopy]
      rfl
    · rw [same, sameCells, coe_values]
      simp [empty]
    · rw [applyFunction, if_neg isEmpty, createCopy, isCopy]
      rfl

theorem Retained.perform (retained : Retained heap contents) {call : Call Item} (fits : call.Fits heap) :
    ∃ heap', BinaryHeap.perform heap call = .ok heap' ∧ Retained heap' (contentsAfter heap contents call) := by
  obtain ⟨good, rfl, bounded, isSame⟩ := retained
  cases call with
  | addValue =>
    obtain ⟨heap', isAdded, good', sameCallbacks, isCount, isContents⟩ := good.addValue fits.1 fits.2
    refine ⟨heap', isAdded, good', isContents, by have := fits.1; omega, ?_⟩
    rw [contentsAfter, Multiset.forall_mem_cons, sameCallbacks]
    exact ⟨fits.2, isSame⟩
  | removeMinimumValue =>
    refine ⟨_, rfl, ?_⟩
    rw [contentsAfter]
    by_cases isEmpty : heap.count = 0
    · rw [removeMinimumValue, if_pos isEmpty, getMinimum, if_neg (by omega)]
      exact ⟨good, rfl, bounded, isSame⟩
    · obtain ⟨good', sameCallbacks, _, isContents⟩ := good.removeMinimumValue (by omega)
      rw [getMinimum, if_pos (by omega)]
      simp only
      rw [← isContents] at isSame ⊢
      rw [Multiset.erase_cons_head]
      rw [Multiset.forall_mem_cons] at isSame
      exact ⟨good', rfl, by omega, sameCallbacks.symm ▸ isSame.2⟩
  | removeAllValues =>
    refine ⟨_, rfl, ⟨good.isPreorder, fun i bound => absurd bound (Nat.not_lt_zero i), ?_, good.block⟩, rfl, Nat.zero_le _, ?_⟩
    · obtain ⟨k, -, -, isCapacity⟩ := good.block
      simp only [removeAllValues, isCapacity]
      exact Int.natCast_nonneg _
    · exact fun value mem => absurd mem (Multiset.notMem_zero value)

/-- After every sequence of calls that fit, the heap holds the values that were added without the minima that were removed. -/
theorem performAll_holds (callbacks : CallBacks Item) (isPreorder : callbacks.IsPreorder) (buckets : Nat → Item) (calls : List (Call Item))
    (allFit : AllFit (empty callbacks buckets) calls) :
    ∃ heap contents, performAll (empty callbacks buckets) 0 calls = .ok (heap, contents) ∧ Holds heap contents := by
  have isRun : ∀ {calls} {heap : Heap Item} {contents}, Retained heap contents → AllFit heap calls →
      ∃ heap' contents', performAll heap contents calls = .ok (heap', contents') ∧ Retained heap' contents' := by
    intro calls
    induction calls with
    | nil => exact fun retained _ => ⟨_, _, rfl, retained⟩
    | cons _ _ ih =>
      intro heap contents retained allFit
      obtain ⟨heap₁, isFirst, retained₁⟩ := retained.perform allFit.1
      obtain ⟨heap', contents', isRest, retained'⟩ := ih retained₁ (allFit.2 heap₁ isFirst)
      refine ⟨heap', contents', ?_, retained'⟩
      rw [performAll, isFirst]
      exact isRest
  have isEmpty : Retained (empty callbacks buckets) 0 :=
    ⟨good_empty isPreorder buckets, rfl, Nat.zero_le _, fun value mem => absurd mem (Multiset.notMem_zero value)⟩
  obtain ⟨heap, contents, isPerformed, retained⟩ := isRun isEmpty allFit
  exact ⟨heap, contents, isPerformed, retained.holds⟩

end Calls

/-- Numbers without callbacks. -/
def plain : CallBacks Nat where
  retain := none
  compare := none

theorem isPreorder_plain : plain.IsPreorder := nofun

/-- Two values are added, and the lesser one is removed. -/
def addTwo : List (Call Nat) := [.addValue 5, .addValue 3, .removeMinimumValue]

theorem addTwo_holds : AllFit (empty plain id) addTwo ∧
    ∃ heap contents, performAll (empty plain id) 0 addTwo = .ok (heap, contents) ∧ Holds heap contents := by
  have allFit : AllFit (empty plain id) addTwo := by
    refine ⟨⟨by decide, rfl⟩, fun heap isFirst => ⟨?_, fun _ _ => ⟨trivial, fun _ _ => trivial⟩⟩⟩
    cases isFirst
    exact ⟨by decide, rfl⟩
  exact ⟨allFit, performAll_holds plain isPreorder_plain id addTwo allFit⟩

/-- A heap of `2 ^ 30` values is full, and there is no size for a larger block. -/
theorem Good.addValue_halts {heap : Heap Nat} (good : Good heap) (isFull : heap.count = 2 ^ 30) (value : Nat) :
    BinaryHeap.addValue heap value = .error .halt := by
  obtain ⟨k, -, large, _⟩ := good.block
  have fits := good.fits
  have bound : 2 ^ k ≤ 2 ^ 30 := Nat.pow_le_pow_right Nat.two_pos large
  have noSize : roundUpCapacity ((2 ^ 30 : Nat) + (1 : Nat)) < 0 := by decide +kernel
  rw [BinaryHeap.addValue, if_pos (by omega), BinaryHeap.grow, isFull, if_neg (by omega)]
  rfl

theorem Good.performAll_halts {heap : Heap Nat} (good : Good heap) (isPlain : heap.callbacks = plain) (contents : Multiset Nat) {more : Nat}
    (isFull : heap.count + more = 2 ^ 30) : performAll heap contents (replicate (more + 1) (.addValue 0)) = .error .halt := by
  induction more generalizing heap contents with
  | zero =>
    rw [replicate_succ, performAll, BinaryHeap.perform, good.addValue_halts isFull]
    rfl
  | succ _ ih =>
    have isSame : heap.callbacks.retained 0 = 0 := by rw [isPlain]; rfl
    obtain ⟨_, isAdded, good', sameCallbacks, isCount, isContents⟩ := good.addValue (by omega) isSame
    rw [replicate_succ, performAll, BinaryHeap.perform, isAdded]
    exact ih good' (sameCallbacks.trans isPlain) _ (by omega)

/-- One value too many is added. -/
theorem tooMany_halts : performAll (empty plain id) 0 (replicate (2 ^ 30 + 1) (.addValue 0)) = .error .halt := by
  apply (good_empty isPreorder_plain id).performAll_halts rfl
  exact Nat.zero_add _

end DarwinNotes.CF.BinaryHeap
