import DarwinNotes.GNUstep.Decimal.Model

/-!
# The order of decimals

`GSDecimalCompare` goes by the signs, by the places of the first digits and by the digits. This is the order of the values, but for
zero: it has no digit, and is taken to be above a positive number with a 0 behind the point.
-/

namespace DarwinNotes.GNUstep.Decimal
open List

/-- The loop over the digits, and the comparison of the lengths. -/
def compareDigits : List Nat → List Nat → Ordering
  | left :: lefts, right :: rights => if left < right then .lt else if right < left then .gt else compareDigits lefts rights
  | _ :: _, [] => .gt
  | [], _ :: _ => .lt
  | [], [] => .eq

namespace GSDecimal

variable (number left right : GSDecimal)

def size : Int := number.exponent + number.cMantissa.length

/-- Same sign, check size. -/
def compareSizes : Ordering :=
  if left.size < right.size then .lt
  else if right.size < left.size then .gt
  else compareDigits left.cMantissa right.cMantissa

/-- `GSDecimalCompare` -/
def compare : Ordering :=
  if left.validNumber ≠ right.validNumber then if right.validNumber then .gt else .lt
  else if left.isNegative ≠ right.isNegative then if right.isNegative then .gt else .lt
  else if right.isNegative then (left.compareSizes right).swap
  else left.compareSizes right

end GSDecimal

/-! ## The digits -/

/-- The number with these digits behind the point. -/
def fraction : List Nat → ℚ
  | [] => 0
  | digit :: digits => (digit + fraction digits) / 10

theorem foldl_eq (start : ℚ) (digits : List Nat) : digits.foldl appendDigit start = (start + fraction digits) * 10 ^ digits.length := by
  induction digits generalizing start with
  | nil => simp [fraction]
  | cons digit digits ih =>
    rw [foldl_cons, ih, appendDigit, fraction, length_cons, pow_succ]
    ring

theorem fraction_nonneg (digits : List Nat) : 0 ≤ fraction digits := by
  induction digits with
  | nil => rfl
  | cons digit digits ih => exact div_nonneg (add_nonneg digit.cast_nonneg ih) (by norm_num)

theorem fraction_lt {digits : List Nat} (small : ∀ digit ∈ digits, digit < 10) : fraction digits < 1 := by
  induction digits with
  | nil => exact zero_lt_one
  | cons digit digits ih =>
    obtain ⟨first, small⟩ := forall_mem_cons.1 small
    have first : (digit : ℚ) ≤ 9 := by exact_mod_cast Nat.le_of_lt_succ first
    have rest := ih small
    unfold fraction
    linarith

theorem fraction_lt_fraction {left right : Nat} {lefts : List Nat} (less : left < right) (small : ∀ digit ∈ lefts, digit < 10)
    (rights : List Nat) : fraction (left :: lefts) < fraction (right :: rights) := by
  have step : (left : ℚ) + 1 ≤ right := by exact_mod_cast less
  have := fraction_lt small
  have := fraction_nonneg rights
  unfold fraction
  linarith

theorem fraction_pos {digits : List Nat} {digit : Nat} (inside : digit ∈ digits) (nonzero : digit ≠ 0) : 0 < fraction digits := by
  induction inside with
  | head digits =>
    have first : (1 : ℚ) ≤ digit := by exact_mod_cast Nat.one_le_iff_ne_zero.2 nonzero
    have rest := fraction_nonneg digits
    unfold fraction
    linarith
  | tail digit inside ih =>
    have first : (0 : ℚ) ≤ digit := digit.cast_nonneg
    unfold fraction
    linarith

/-- **Digits are compared as fractions**, if the longer one has not only 0s more. -/
theorem compareDigits_compares {lefts rights : List Nat} (small : ∀ digit ∈ lefts, digit < 10) (small' : ∀ digit ∈ rights, digit < 10)
    (longer : rights.length < lefts.length → 0 < fraction (lefts.drop rights.length))
    (longer' : lefts.length < rights.length → 0 < fraction (rights.drop lefts.length)) :
    (compareDigits lefts rights).Compares (fraction lefts) (fraction rights) := by
  fun_induction compareDigits lefts rights with
  | case1 left lefts right rights less => exact fraction_lt_fraction less (forall_mem_cons.1 small).2 rights
  | case2 left lefts right rights _ less => exact fraction_lt_fraction less (forall_mem_cons.1 small').2 lefts
  | case3 left lefts right rights notLess notGreater ih =>
    obtain rfl : left = right := by omega
    have mono : StrictMono fun rest : ℚ => (left + rest) / 10 := fun _ _ less => by dsimp only; linarith
    exact mono.compares.2 (ih (forall_mem_cons.1 small).2 (forall_mem_cons.1 small').2 (fun less => longer (Nat.succ_lt_succ less))
      fun less => longer' (Nat.succ_lt_succ less))
  | case4 => exact longer (Nat.succ_pos _)
  | case5 => exact longer' (Nat.succ_pos _)
  | case6 => rfl

namespace GSDecimal

/-! ## The amounts -/

def amount (number : GSDecimal) : ℚ := fraction number.cMantissa * 10 ^ number.size

variable (number : GSDecimal)

theorem value_eq : number.value = if number.isNegative then -number.amount else number.amount := by
  have scale : (10 : ℚ) ^ number.size = 10 ^ number.cMantissa.length * 10 ^ number.exponent := by
    rw [size, add_comm, zpow_add₀ (by norm_num), zpow_natCast]
  rw [value, amount, foldl_eq, scale]
  split <;> ring

theorem amount_nonneg : 0 ≤ number.amount := mul_nonneg (fraction_nonneg _) (by positivity)

namespace Compacted

section

variable {number} (compacted : number.Compacted)
include compacted

theorem size_zero (zero : number.cMantissa = []) : number.size = 0 := by
  rw [size, zero, (compacted.zero zero).1]
  rfl

theorem amount_lt : number.amount < 10 ^ number.size := by
  have scale : (0 : ℚ) < 10 ^ number.size := by positivity
  have := mul_lt_mul_of_pos_right (fraction_lt compacted.digits) scale
  rwa [one_mul] at this

theorem le_amount (some : number.cMantissa ≠ []) : 10 ^ (number.size - 1) ≤ number.amount := by
  obtain ⟨digit, digits, cons⟩ := exists_cons_of_ne_nil some
  have nonzero : digit ≠ 0 := fun zero => compacted.leading (by rw [cons, zero]; rfl)
  have first : (1 : ℚ) ≤ digit := by exact_mod_cast Nat.one_le_iff_ne_zero.2 nonzero
  have rest := fraction_nonneg digits
  rw [amount, zpow_sub_one₀ (by norm_num), mul_comm, cons, fraction]
  exact mul_le_mul_of_nonneg_right (by linarith) (by positivity)

theorem amount_pos (negative : number.isNegative = true) : 0 < number.amount := by
  have some : number.cMantissa ≠ [] := fun none => Bool.noConfusion ((compacted.zero none).2.symm.trans negative)
  exact lt_of_lt_of_le (by positivity) (compacted.le_amount some)

/-- Where a longer mantissa goes on, it has a digit other than 0. -/
theorem fraction_drop_pos (below : number.exponent < 127) {count : Nat} (longer : count < number.cMantissa.length) :
    0 < fraction (number.cMantissa.drop count) := by
  have some : number.cMantissa.drop count ≠ [] := by
    rw [ne_eq, drop_eq_nil_iff]
    omega
  refine fraction_pos (getLast_mem some) fun zero => below.ne (compacted.trailing ?_)
  rw [getLast_drop] at zero
  rw [getLast?_eq_some_getLast (ne_nil_of_length_pos (Nat.zero_lt_of_lt longer)), zero]

end

variable {left right : GSDecimal} (compacted : left.Compacted) (compacted' : right.Compacted)
include compacted compacted'

/-- The number with the larger size is larger, unless it is zero. -/
theorem amount_lt_iff (less : left.size < right.size) : left.amount < right.amount ↔ ¬ (right.cMantissa = [] ∧ left.size < 0) := by
  constructor
  · rintro below ⟨zero, -⟩
    rw [amount, amount, zero, fraction, zero_mul] at below
    exact not_lt_of_ge left.amount_nonneg below
  · intro proper
    have some : right.cMantissa ≠ [] := fun zero => proper ⟨zero, by rwa [compacted'.size_zero zero] at less⟩
    have step : (10 : ℚ) ^ left.size ≤ 10 ^ (right.size - 1) := zpow_le_zpow_right₀ (by norm_num) (by omega)
    exact compacted.amount_lt.trans_le (step.trans (compacted'.le_amount some))

theorem compareSizes_compares : (left.compareSizes right).Compares left.amount right.amount ↔
    ¬ (left.cMantissa = [] ∧ right.size < 0) ∧ ¬ (right.cMantissa = [] ∧ left.size < 0) := by
  have zero := compacted.size_zero
  have zero' := compacted'.size_zero
  unfold compareSizes
  split
  case isTrue less =>
    refine (compacted.amount_lt_iff compacted' less).trans (iff_and_self.2 fun _ zeroBelow => ?_)
    have := zero zeroBelow.1
    omega
  case isFalse notLess =>
  split
  case isTrue less =>
    refine (compacted'.amount_lt_iff compacted less).trans (and_iff_left_of_imp fun _ zeroBelow => ?_).symm
    have := zero' zeroBelow.1
    omega
  case isFalse notGreater =>
    have same : left.size = right.size := by omega
    have lengths : left.exponent + left.cMantissa.length = right.exponent + right.cMantissa.length := same
    have := compacted.exponent
    have := compacted'.exponent
    refine iff_of_true ?_ (by grind)
    have mono : StrictMono fun rest : ℚ => rest * 10 ^ right.size := fun _ _ less => mul_lt_mul_of_pos_right less (by positivity)
    rw [amount, amount, same]
    -- the longer mantissa has the smaller exponent
    exact mono.compares.2 (compareDigits_compares compacted.digits compacted'.digits
      (fun longer => compacted.fraction_drop_pos (by omega) longer) fun longer => compacted'.fraction_drop_pos (by omega) longer)

end Compacted

/-- The first number is zero, the second is positive and less than 0.1. -/
def ZeroAbove (left right : GSDecimal) : Prop := left.cMantissa = [] ∧ right.isNegative = false ∧ right.size < 0

/-- **Decimals are compared as their values**, unless zero is compared with a positive number less than 0.1. -/
theorem compare_eq_iff {left right : GSDecimal} (compacted : left.Compacted) (compacted' : right.Compacted) :
    left.compare right = cmp left.value right.value ↔ ¬ ZeroAbove left right ∧ ¬ ZeroAbove right left := by
  have compares : left.compare right = cmp left.value right.value ↔ (left.compare right).Compares left.value right.value :=
    ⟨fun same => same ▸ cmp_compares _ _, fun compares => compares.cmp_eq.symm⟩
  have sizes := compacted.compareSizes_compares compacted'
  have zero := compacted.zero
  have zero' := compacted'.zero
  rw [compares, compare, if_neg (by rw [compacted.valid, compacted'.valid]; decide), value_eq, value_eq]
  unfold ZeroAbove
  cases sign : left.isNegative <;> cases sign' : right.isNegative
  · simpa using sizes
  · have := compacted'.amount_pos sign'
    have := left.amount_nonneg
    exact iff_of_true (show -right.amount < left.amount by linarith) (by grind)
  · have := compacted.amount_pos sign
    have := right.amount_nonneg
    exact iff_of_true (show -left.amount < right.amount by linarith) (by grind)
  · have anti : StrictAnti fun amount : ℚ => -amount := fun _ _ => neg_lt_neg
    have nonzero : left.cMantissa ≠ [] ∧ right.cMantissa ≠ [] := by grind
    exact (anti.compares.trans (Ordering.compares_swap.trans sizes)).trans (by grind)

/-- 0.5 and 2 -/
theorem compare_half_two : compare ⟨-1, false, true, [5]⟩ ⟨0, false, true, [2]⟩ =
    cmp (value ⟨-1, false, true, [5]⟩) (value ⟨0, false, true, [2]⟩) := by
  refine (compare_eq_iff ?_ ?_).2 (by unfold ZeroAbove; decide)
  · exact ⟨rfl, by decide, by decide, by decide, by decide, nofun⟩
  · exact ⟨rfl, by decide, by decide, by decide, by decide, nofun⟩

/-- **Zero is above 0.01.** -/
theorem compare_zero_hundredth : compare ⟨0, false, true, []⟩ ⟨-2, false, true, [1]⟩ = .gt ∧
    value ⟨0, false, true, []⟩ < value ⟨-2, false, true, [1]⟩ := by
  refine ⟨by decide, ?_⟩
  norm_num [value, appendDigit]

end GSDecimal

end DarwinNotes.GNUstep.Decimal
