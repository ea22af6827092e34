import Mathlib

/-!
# Enumeration of index sets (`NSIndexSet.m`)

The indexes are in an array of ranges, in increasing order and with a gap between two ranges. An enumeration finds the first and the last
range that it has to go through by binary search, and then runs over their indexes upwards or downwards. An `NSUInteger` is
a number below `2 ^ 64` here, and sums and differences wrap around.
-/

namespace DarwinNotes.GNUstep.IndexSet
open List

inductive Fault
  /-- `NSCAssert(index < array->count, …)` -/
  | outOfRange
  /-- The loop is not over. -/
  | fuel
deriving DecidableEq

/-- `NSRange` -/
structure Range where
  location : Nat
  length : Nat
deriving DecidableEq

/-- `NSIntegerMax` -/
def notFound : Nat := 2 ^ 63 - 1

/-- The sum of two `NSUInteger`s -/
def add (a b : Nat) : Nat := (a + b) % 2 ^ 64

/-- The difference of two `NSUInteger`s -/
def sub (a b : Nat) : Nat := (a + (2 ^ 64 - b)) % 2 ^ 64

/-- `NSMaxRange` -/
def maxRange (r : Range) : Nat := add r.location r.length

/-- `GSIArrayItemAtIndex` -/
def itemAtIndex (array : List Range) (index : Nat) : Except Fault Range :=
  match array[index]? with
  | some item => .ok item
  | none => .error .outOfRange

/-- The binary search of `posForIndex` -/
def searchLoop (array : List Range) (index : Nat) : Nat → Nat → Nat → Except Fault Nat
  | 0, _, _ => .error .fuel
  | fuel + 1, lower, upper =>
    let pos := (upper + lower) / 2
    if upper = lower then .ok pos
    else do
      let r ← itemAtIndex array pos
      if index < r.location then searchLoop array index fuel lower pos
      else if maxRange r < index then searchLoop array index fuel (pos + 1) upper
      else return pos

/-- `posForIndex`, which goes on behind any item containing no values as high as the index. -/
def posForIndex (array : List Range) (index : Nat) : Except Fault Nat := do
  let pos ← searchLoop array index (array.length + 1) 0 array.length
  return pos + (array.drop pos).findIdx fun r => index < maxRange r

def count (array : List Range) : Nat := array.foldl (fun total r => add total r.length) 0

/-! ## The loops -/

/-- Whether the block sets the flag when it is called with an index, after the calls that were made before. -/
abbrev Block := List Nat → Nat → Bool

/-- The indexes that the block was called with, and `shouldStop` -/
structure Calls where
  indexes : List Nat
  shouldStop : Bool

/-- Both loops go from `i` to `c`, and stop when the flag is set. Downwards they also stop at zero. -/
def countLoop (isReverse : Bool) (c : Nat) (body : Nat → Calls → Except Fault Calls) : Nat → Nat → Calls → Except Fault Calls
  | 0, _, _ => .error .fuel
  | fuel + 1, i, calls =>
    if (if isReverse then c ≤ i else i ≤ c) then do
      let calls ← body i calls
      if calls.shouldStop then return calls
      else if isReverse then
        if i = 0 then return calls else countLoop isReverse c body fuel (i - 1) calls
      else countLoop isReverse c body fuel (add i 1) calls
    else .ok calls

/-- The body of the inner loop -/
def submitBlock (aBlock : Block) (location lastInRange innerI : Nat) (calls : Calls) : Calls :=
  if innerI ≤ lastInRange ∧ location ≤ innerI then ⟨calls.indexes ++ [innerI], aBlock calls.indexes innerI⟩ else calls

/-- The body of the outer loop -/
def enumerateItem (array : List Range) (isReverse : Bool) (aBlock : Block) (location lastInRange i : Nat) (calls : Calls) :
    Except Fault Calls := do
  let r ← itemAtIndex array i
  let last := sub (maxRange r) 1
  let innerI := if isReverse then last else r.location
  let innerC := if isReverse then r.location else last
  countLoop isReverse innerC (fun innerI calls => .ok (submitBlock aBlock location lastInRange innerI calls)) (r.length + 1) innerI calls

/-- `enumerateIndexesInRange:options:usingBlock:` -/
def enumerateIndexesInRange (array : List Range) (range : Range) (isReverse : Bool) (aBlock : Block) : Except Fault (List Nat) :=
  if count array = 0 ∨ range.location = notFound then .ok []
  else do
    let pos ← posForIndex array range.location
    let startArrayIndex := if pos = notFound then 0 else pos
    let lastInRange := sub (maxRange range) 1
    let pos ← posForIndex array lastInRange
    let last := min pos (sub array.length 1)
    let endArrayIndex := if last = notFound then sub array.length 1 else last
    let i := if isReverse then endArrayIndex else startArrayIndex
    let c := if isReverse then startArrayIndex else endArrayIndex
    let calls ← countLoop isReverse c (enumerateItem array isReverse aBlock range.location lastInRange) (array.length + 1) i ⟨[], false⟩
    return calls.indexes

/-! ## What an enumeration is for -/

/-- The number behind a range -/
def Range.stop (r : Range) : Nat := r.location + r.length

/-- An index set in normal form -/
structure NormalSet where
  ranges : List Range
  nonempty : ∀ r ∈ ranges, 0 < r.length
  below : ∀ r ∈ ranges, r.stop ≤ notFound
  gaps : ranges.Pairwise fun r r' => r.stop < r'.location

/-- The members of a range, in ascending order -/
def NormalSet.members (set : NormalSet) (range : Range) : List Nat :=
  (range' range.location range.length).filter fun index => set.ranges.any fun r => r.location ≤ index ∧ index < r.stop

/-- The calls of a block for some indexes: one after the other, and none after a call that sets the flag. -/
def callAll (aBlock : Block) (indexes : List Nat) (calls : Calls) : Calls :=
  indexes.foldl (fun calls index => if calls.shouldStop then calls else ⟨calls.indexes ++ [index], aBlock calls.indexes index⟩) calls

def directed (isReverse : Bool) (indexes : List Nat) : List Nat := if isReverse then indexes.reverse else indexes

theorem mem_directed {isReverse : Bool} {numbers : List Nat} {i : Nat} : i ∈ directed isReverse numbers ↔ i ∈ numbers := by
  cases isReverse <;> simp [directed]

theorem directed_flatMap (isReverse : Bool) (numbers : List Nat) (inner : Nat → List Nat) :
    (directed isReverse numbers).flatMap (fun i => directed isReverse (inner i)) = directed isReverse (numbers.flatMap inner) := by
  cases isReverse with
  | false => rfl
  | true => exact reverse_flatMap.symm

theorem filter_directed (isReverse : Bool) (numbers : List Nat) (p : Nat → Bool) :
    (directed isReverse numbers).filter p = directed isReverse (numbers.filter p) := by
  cases isReverse <;> simp [directed, filter_reverse]

/-! ## Positions -/

theorem maxRange_eq {r : Range} (below : r.stop ≤ notFound) : maxRange r = r.stop := by
  rw [notFound, Range.stop] at below
  exact Nat.mod_eq_of_lt (by omega)

theorem sub_one {a : Nat} (positive : 0 < a) (small : a < 2 ^ 64) : sub a 1 = a - 1 := by
  rw [sub]
  omega

section Positions

variable (set : NormalSet)

theorem NormalSet.stop_lt {i j : Nat} (isLess : i < j) (bound : j < set.ranges.length) :
    set.ranges[i].stop < set.ranges[j].location := pairwise_iff_getElem.mp set.gaps i j _ bound isLess

theorem itemAtIndex_eq {array : List Range} {i : Nat} (bound : i < array.length) : itemAtIndex array i = .ok array[i] := by
  rw [itemAtIndex, getElem?_eq_getElem bound]

variable (index : Nat)

/-- The items that end in front of an index are those in front of the first one that does not. -/
theorem NormalSet.lt_position {j : Nat} (bound : j < set.ranges.length) : j < set.ranges.findIdx (index < maxRange ·) ↔ set.ranges[j].stop ≤ index := by
  have isMax (i : Nat) (bound : i < set.ranges.length) := maxRange_eq (set.below _ (getElem_mem bound))
  simp only [lt_findIdx_iff, isMax, bound, exists_true_left, decide_eq_false_iff_not, Nat.not_lt]
  refine ⟨fun ends => ends j (Nat.le_refl j), fun isEnd i isLe => ?_⟩
  rcases Nat.lt_or_eq_of_le isLe with isLess | rfl
  · have isGap := set.stop_lt isLess bound
    have isStop : set.ranges[j].location ≤ set.ranges[j].stop := Nat.le_add_right _ _
    omega
  · exact isEnd

/-- The search does not pass that item. -/
theorem searchLoop_le {fuel lower upper : Nat} (isLe : lower ≤ upper) (bound : upper ≤ set.ranges.length) (enough : upper - lower < fuel)
    (notPassed : lower ≤ set.ranges.findIdx (index < maxRange ·)) :
    ∃ pos, searchLoop set.ranges index fuel lower upper = .ok pos ∧ pos ≤ set.ranges.findIdx (index < maxRange ·) := by
  induction fuel generalizing lower upper with
  | zero => omega
  | succ fuel ih =>
    rw [searchLoop]
    split
    case isTrue isDone => exact ⟨_, rfl, by omega⟩
    case isFalse notDone =>
      have isItem : (upper + lower) / 2 < set.ranges.length := by omega
      have isMax := maxRange_eq (set.below _ (getElem_mem isItem))
      have isBefore := set.lt_position index isItem
      simp only [itemAtIndex_eq isItem, bind, Except.bind]
      split
      case isTrue => exact ih (by omega) (by omega) (by omega) notPassed
      case isFalse notLess =>
        split
        case isTrue => exact ih (by omega) bound (by omega) (by omega)
        case isFalse =>
          refine ⟨_, rfl, Nat.not_lt.mp fun isLess => ?_⟩
          have isGap := set.stop_lt isLess isItem
          exact Nat.lt_irrefl _ ((set.lt_position index (Nat.lt_trans isLess isItem)).mpr (by omega))

theorem posForIndex_eq : posForIndex set.ranges index = .ok (set.ranges.findIdx (index < maxRange ·)) := by
  have enough : set.ranges.length - 0 < set.ranges.length + 1 := Nat.lt_succ_self _
  obtain ⟨pos, isFound, isLe⟩ := searchLoop_le set index (Nat.zero_le _) (Nat.le_refl _) enough (Nat.zero_le _)
  have bound : pos ≤ set.ranges.length := Nat.le_trans isLe findIdx_le_length
  rw [posForIndex, isFound]
  conv_rhs => rw [← take_append_drop pos set.ranges, findIdx_append, findIdx_take, length_take, Nat.min_eq_left isLe, Nat.min_eq_left bound,
    if_neg (Nat.lt_irrefl _), Nat.add_comm]
  rfl

end Positions

/-! ## Loops -/

section Loops

theorem ok_bind {α β : Type} (a : α) (f : α → Except Fault β) : (Except.ok a >>= f) = f a := rfl

variable {aBlock : Block} {calls : Calls}

theorem callAll_append (front back : List Nat) : callAll aBlock (front ++ back) calls = callAll aBlock back (callAll aBlock front calls) :=
  foldl_append

theorem callAll_stopped (stopped : calls.shouldStop = true) (indexes : List Nat) : callAll aBlock indexes calls = calls := by
  induction indexes with
  | nil => rfl
  | cons index indexes ih =>
    rw [callAll, foldl_cons, if_pos stopped]
    exact ih

theorem indexes_ne_nil (nonempty : calls.indexes ≠ []) (indexes : List Nat) : (callAll aBlock indexes calls).indexes ≠ [] := by
  induction indexes generalizing calls with
  | nil => exact nonempty
  | cons index indexes ih =>
    apply ih
    beta_reduce
    split
    case isTrue => exact nonempty
    case isFalse => simp

/-- A loop calls the block for all the indexes for which its body does. -/
theorem countLoop_calls (isReverse : Bool) {body : Nat → Calls → Except Fault Calls} {inner : Nat → List Nat} (lower : Nat) {upper fuel : Nat}
    (isBody : ∀ i, i ≤ upper → ∀ calls : Calls, calls.shouldStop = false → body i calls = .ok (callAll aBlock (inner i) calls))
    (small : upper + 1 < 2 ^ 64) (enough : upper + 1 - lower < fuel) (running : calls.shouldStop = false) :
    countLoop isReverse (if isReverse then lower else upper) body fuel (if isReverse then upper else lower) calls =
      .ok (callAll aBlock ((directed isReverse (range' lower (upper + 1 - lower))).flatMap inner) calls) := by
  induction fuel generalizing lower upper calls with
  | zero => omega
  | succ fuel ih =>
    by_cases isLe : lower ≤ upper
    · obtain ⟨n, rfl⟩ := Nat.exists_eq_add_of_le isLe
      have isList : directed isReverse (range' lower (lower + n + 1 - lower)) =
          (if isReverse then lower + n else lower) :: directed isReverse (range' (if isReverse then lower else lower + 1) n) := by
        rw [show lower + n + 1 - lower = n + 1 by omega]
        cases isReverse with
        | false => rfl
        | true => simp [directed, range'_concat]
      rw [countLoop, isList, if_pos (by cases isReverse <;> simp), isBody _ (by split <;> omega) calls running, ok_bind, flatMap_cons, callAll_append]
      generalize callAll aBlock (inner _) calls = calls'
      cases running' : calls'.shouldStop with
      | true => exact congrArg _ (callAll_stopped running' _).symm
      | false =>
        cases isReverse with
        | false =>
          have later := @ih calls' (lower + 1) (lower + n) isBody small (by omega) running'
          have isSum : add lower 1 = lower + 1 := Nat.mod_eq_of_lt (by omega)
          simpa [isSum] using later
        | true =>
          have later := @ih calls' lower (lower + n - 1) (fun i _ => isBody i (by omega))
          by_cases isZero : lower + n = 0
          · obtain ⟨rfl, rfl⟩ : lower = 0 ∧ n = 0 := by omega
            rfl
          · rw [show lower + n - 1 + 1 - lower = n by omega] at later
            simp only [if_true, if_neg isZero]
            exact later (by omega) (by omega) running'
    · have isEmpty : upper + 1 - lower = 0 := by omega
      cases isReverse <;> simp [countLoop, isEmpty, isLe, directed, callAll]

end Loops

/-! ## The enumeration -/

section Enumeration

/-- The ranges are not empty, and there is a gap behind each of them. -/
theorem total_bounds {ranges : List Range} {total : Nat} (nonempty : ∀ r ∈ ranges, 0 < r.length) (below : ∀ r ∈ ranges, r.stop ≤ notFound)
    (gaps : ranges.Pairwise fun r r' => r.stop < r'.location) (behind : ∀ r ∈ ranges, total ≤ r.location) (small : total ≤ notFound) :
    total + ranges.length ≤ ranges.foldl (fun total r => add total r.length) total ∧
      ranges.foldl (fun total r => add total r.length) total ≤ notFound := by
  induction ranges generalizing total with
  | nil => exact ⟨Nat.le_refl _, small⟩
  | cons r ranges ih =>
    obtain ⟨nonemptyFirst, nonemptyLater⟩ := forall_mem_cons.mp nonempty
    obtain ⟨belowFirst, belowLater⟩ := forall_mem_cons.mp below
    obtain ⟨gapsFirst, gapsLater⟩ := pairwise_cons.mp gaps
    have behindFirst := behind r mem_cons_self
    have isStop : r.stop = r.location + r.length := rfl
    have isSum : add total r.length = total + r.length := Nat.mod_eq_of_lt (by rw [notFound] at belowFirst; omega)
    have later := @ih (total + r.length) nonemptyLater belowLater gapsLater (fun r' mem => by have := gapsFirst r' mem; omega) (by omega)
    rw [foldl_cons, isSum, length_cons]
    omega

variable (set : NormalSet)

def NormalSet.indexesAt (i : Nat) : List Nat := (set.ranges[i]?.map fun r => range' r.location r.length).getD []

theorem NormalSet.mem_indexesAt {i index : Nat} :
    index ∈ set.indexesAt i ↔ ∃ _ : i < set.ranges.length, set.ranges[i].location ≤ index ∧ index < set.ranges[i].stop := by
  by_cases bound : i < set.ranges.length <;> simp [indexesAt, bound, Range.stop]

theorem NormalSet.sorted (numbers : List Nat) (increasing : numbers.Pairwise (· < ·)) : (numbers.flatMap set.indexesAt).Pairwise (· < ·) := by
  refine pairwise_flatMap.mpr ⟨fun i _ => ?_, increasing.imp fun isLess index mem index' mem' => ?_⟩
  · rw [indexesAt]
    cases set.ranges[i]? with
    | none => exact .nil
    | some => exact pairwise_lt_range' 1
  · obtain ⟨_, -, isLast⟩ := set.mem_indexesAt.mp mem
    obtain ⟨bound, isFirst, -⟩ := set.mem_indexesAt.mp mem'
    have isGap := set.stop_lt isLess bound
    omega

variable (isReverse : Bool) (aBlock : Block)

theorem enumerateItem_calls (location lastInRange : Nat) {i : Nat} (bound : i < set.ranges.length) {calls : Calls}
    (running : calls.shouldStop = false) : enumerateItem set.ranges isReverse aBlock location lastInRange i calls =
      .ok (callAll aBlock (directed isReverse ((set.indexesAt i).filter fun i => i ≤ lastInRange ∧ location ≤ i)) calls) := by
  have below := set.below _ (getElem_mem bound)
  have nonempty := set.nonempty _ (getElem_mem bound)
  have isStop : set.ranges[i].stop = set.ranges[i].location + set.ranges[i].length := rfl
  have isSubmit (innerI : Nat) (calls : Calls) (running : calls.shouldStop = false) : Except.ok (submitBlock aBlock location lastInRange innerI calls) =
      (.ok (callAll aBlock ([innerI].filter fun i => i ≤ lastInRange ∧ location ≤ i) calls) : Except Fault Calls) := by
    by_cases inRange : innerI ≤ lastInRange ∧ location ≤ innerI <;> simp [submitBlock, callAll, inRange, running]
  rw [enumerateItem, itemAtIndex_eq bound, ok_bind, maxRange_eq below]
  rw [notFound] at below
  rw [sub_one (by omega) (by omega), countLoop_calls isReverse _ (fun i _ => isSubmit i) (by omega) (by omega) running, NormalSet.indexesAt,
    getElem?_eq_getElem bound, Nat.sub_add_cancel (by omega), isStop, Nat.add_sub_cancel_left, ← filter_flatMap, flatMap_singleton', filter_directed]
  rfl

/-- The block is called for the indexes of the set from the location of the range to `lastInRange`. -/
theorem enumerate_calls (range : Range) :
    ∃ indexes, enumerateIndexesInRange set.ranges range isReverse aBlock = .ok (callAll aBlock (directed isReverse indexes) ⟨[], false⟩).indexes ∧
      indexes.Pairwise (· < ·) ∧ ∀ index, index ∈ indexes ↔
        (∃ r ∈ set.ranges, r.location ≤ index ∧ index < r.stop) ∧ index ≤ sub (maxRange range) 1 ∧ range.location ≤ index := by
  obtain ⟨isCount, isSmall⟩ := total_bounds set.nonempty set.below set.gaps (fun _ _ => Nat.zero_le _) (Nat.zero_le _)
  rw [enumerateIndexesInRange, count]
  split
  case isTrue isNothing =>
    refine ⟨[], by cases isReverse <;> rfl, .nil, fun index => iff_of_false nofun ?_⟩
    rintro ⟨⟨r, mem, -, isLess⟩, -, isLe⟩
    have positive := length_pos_of_mem mem
    have below := set.below r mem
    omega
  case isFalse isSomething =>
    generalize sub (maxRange range) 1 = last
    have beforeStart (j : Nat) (bound : j < set.ranges.length) := set.lt_position range.location bound
    have beforePos (j : Nat) (bound : j < set.ranges.length) := set.lt_position last bound
    simp only [posForIndex_eq, ok_bind]
    generalize set.ranges.findIdx (range.location < maxRange ·) = start at beforeStart ⊢
    generalize set.ranges.findIdx (last < maxRange ·) = pos at beforePos ⊢
    have isMax : notFound = 2 ^ 63 - 1 := rfl
    have positive : 0 < set.ranges.length := length_pos_iff.mpr fun isEmpty => isSomething (.inl (by rw [isEmpty]; rfl))
    rw [sub_one positive (by omega)]
    generalize isStart : (if start = notFound then 0 else start) = start'
    generalize isStop : (if min pos (set.ranges.length - 1) = notFound then set.ranges.length - 1 else min pos (set.ranges.length - 1)) = stop
    have bounds : start' ≤ start ∧ min pos (set.ranges.length - 1) ≤ stop ∧ stop < set.ranges.length := by grind
    have isLoop := countLoop_calls isReverse start'
      (fun i isLe _ => enumerateItem_calls set isReverse aBlock range.location last (Nat.lt_of_le_of_lt isLe bounds.2.2)) (by omega)
      (by omega : _ < set.ranges.length + 1) (rfl : (⟨[], false⟩ : Calls).shouldStop = false)
    rw [directed_flatMap, ← filter_flatMap] at isLoop
    refine ⟨_, by rw [isLoop]; rfl, (set.sorted _ (pairwise_lt_range' 1)).filter _, fun index => ?_⟩
    simp only [mem_filter, mem_flatMap, mem_range'_1, decide_eq_true_eq, set.mem_indexesAt]
    refine and_congr_left fun inRange => ⟨?_, ?_⟩
    · rintro ⟨i, -, bound, isIndex⟩
      exact ⟨_, getElem_mem bound, isIndex⟩
    · rintro ⟨r, mem, isIndex⟩
      obtain ⟨i, bound, rfl⟩ := getElem_of_mem mem
      have isStart := beforeStart i bound
      have isPos : ¬ pos < i := by
        intro isLess
        have isGap := set.stop_lt isLess bound
        have isBehind := beforePos pos (by omega)
        omega
      exact ⟨i, by omega, bound, isIndex⟩

/-- The enumeration is right, except for the empty range at zero: `lastInRange` is the largest `NSUInteger` then. -/
theorem enumerateIndexesInRange_iff (range : Range) (inside : range.stop ≤ notFound) : enumerateIndexesInRange set.ranges range isReverse aBlock =
      .ok (callAll aBlock (directed isReverse (set.members range)) ⟨[], false⟩).indexes ↔
      ¬ (range.location = 0 ∧ range.length = 0 ∧ set.ranges ≠ []) := by
  rw [Range.stop, notFound] at inside
  obtain ⟨indexes, isRun, sorted, isMem⟩ := enumerate_calls set isReverse aBlock range
  rw [isRun]
  by_cases isBad : range.location = 0 ∧ range.length = 0 ∧ set.ranges ≠ []
  · obtain ⟨isZero, isEmpty, nonempty⟩ := id isBad
    obtain ⟨r, isFirst⟩ := exists_mem_of_ne_nil _ nonempty
    have below := set.below r isFirst
    have visited : r.location ∈ directed isReverse indexes := by
      rw [mem_directed, isMem, maxRange, isZero, isEmpty]
      refine ⟨⟨r, isFirst, Nat.le_refl _, Nat.lt_add_of_pos_right (set.nonempty r isFirst)⟩, ?_, Nat.zero_le _⟩
      rw [Range.stop, notFound] at below
      exact Nat.le_trans (show r.location ≤ 2 ^ 63 by omega) (by decide)
    obtain ⟨first, others, isCons⟩ := exists_cons_of_ne_nil (ne_nil_of_mem visited)
    refine iff_of_false (fun isEq => ?_) fun right => right isBad
    rw [isCons, NormalSet.members, isEmpty] at isEq
    have isVisited : (callAll aBlock others ⟨[first], aBlock [] first⟩).indexes ≠ [] := indexes_ne_nil (by simp) _
    exact isVisited ((Except.ok.inj isEq).trans (by cases isReverse <;> rfl))
  · have isMembers : indexes = set.members range := by
      refine sorted.eq_of_mem_iff ((pairwise_lt_range' 1).filter _) fun index => ?_
      have isMember : index ∈ set.members range ↔ (∃ r ∈ set.ranges, r.location ≤ index ∧ index < r.stop) ∧
          range.location ≤ index ∧ index < range.location + range.length := by
        simp [NormalSet.members, mem_range'_1, and_comm]
      rw [isMem, isMember]
      refine and_congr_right fun ⟨r, mem, _⟩ => ?_
      have isLast : sub (maxRange range) 1 = range.location + range.length - 1 := by
        rw [maxRange, add, sub]
        grind
      grind
    rw [isMembers]
    exact iff_of_true rfl isBad

/-- The set of one index -/
def NormalSet.three : NormalSet := ⟨[⟨3, 1⟩], by decide, by decide, by decide⟩

theorem enumerateIndexesInRange_iff_three : enumerateIndexesInRange NormalSet.three.ranges ⟨2, 5⟩ true (fun _ _ => false) =
      .ok (callAll (fun _ _ => false) (directed true (NormalSet.three.members ⟨2, 5⟩)) ⟨[], false⟩).indexes ↔
    ¬ ((⟨2, 5⟩ : Range).location = 0 ∧ (⟨2, 5⟩ : Range).length = 0 ∧ NormalSet.three.ranges ≠ []) :=
  enumerateIndexesInRange_iff .three true (fun _ _ => false) ⟨2, 5⟩ (by decide)

theorem enumerateIndexesInRange_empty : enumerateIndexesInRange NormalSet.three.ranges ⟨0, 0⟩ false (fun _ _ => false) = .ok [3] ∧
    NormalSet.three.members ⟨0, 0⟩ = [] := by decide

end Enumeration

end DarwinNotes.GNUstep.IndexSet
