import Mathlib

/-!
# Decimal numbers (`NSDecimal.m`)

A number is a sign, a mantissa of decimal digits and an exponent in a `signed char`.
-/

namespace DarwinNotes.GNUstep.Decimal
open List

/-- The list has the first `length` digits of the array. -/
structure GSDecimal where
  exponent : Int
  isNegative : Bool
  validNumber : Bool
  cMantissa : List Nat
deriving DecidableEq, Repr

/-- Cut off trailing 0's, on the mantissa from its end. -/
def cutTrailing : List Nat → Int → List Nat × Int
  -- at 127 the remaining 0s are left there
  | 0 :: rest, exponent => if exponent = 127 then (0 :: rest, exponent) else cutTrailing rest (exponent + 1)
  | digits, exponent => (digits, exponent)

/-- `d *= 10; d += number->cMantissa[i];`, as in `GSDecimalDouble` -/
def appendDigit (d : ℚ) (digit : Nat) : ℚ := d * 10 + digit

namespace GSDecimal

variable (number : GSDecimal)

/-- `GSDecimalCompact` -/
def compact : GSDecimal :=
  if !number.validNumber then number
  else
    let (reversed, exponent) := cutTrailing (number.cMantissa.dropWhile (· == 0)).reverse number.exponent
    if reversed = [] then { number with exponent := 0, isNegative := false, cMantissa := [] }
    else { number with exponent, cMantissa := reversed.reverse }

/-- What the number stands for. -/
def value : ℚ :=
  let d := number.cMantissa.foldl appendDigit 0 * 10 ^ number.exponent
  if number.isNegative then -d else d

/-- A valid number in the form `GSDecimalCompact` leaves it. -/
structure Compacted : Prop where
  valid : number.validNumber = true
  exponent : number.exponent ≤ 127
  digits : ∀ digit ∈ number.cMantissa, digit < 10
  leading : number.cMantissa.head? ≠ some 0
  trailing : number.cMantissa.getLast? = some 0 → number.exponent = 127
  zero : number.cMantissa = [] → number.exponent = 0 ∧ number.isNegative = false

end GSDecimal

theorem cutTrailing_spec (reversed : List Nat) {exponent : Int} (small : exponent ≤ 127) :
    (cutTrailing reversed exponent).1 <:+ reversed ∧ (cutTrailing reversed exponent).2 ≤ 127 ∧
      ((cutTrailing reversed exponent).1.head? = some 0 → (cutTrailing reversed exponent).2 = 127) := by
  fun_induction cutTrailing reversed exponent with
  | case1 rest => exact ⟨suffix_rfl, small, fun _ => rfl⟩
  | case2 rest exponent below ih =>
    obtain ⟨suffix, small, last⟩ := ih (by omega)
    exact ⟨suffix.trans (suffix_cons 0 rest), small, last⟩
  | case3 digits exponent other =>
    refine ⟨suffix_rfl, small, fun zero => ?_⟩
    obtain ⟨rest, rfl⟩ := head?_eq_some_iff.1 zero
    exact absurd rfl (other rest)

/-- **Compaction leaves a compacted number.** -/
theorem GSDecimal.compacted_compact {number : GSDecimal} (valid : number.validNumber = true) (small : number.exponent ≤ 127)
    (digits : ∀ digit ∈ number.cMantissa, digit < 10) : number.compact.Compacted := by
  obtain ⟨⟨before, split⟩, small, last⟩ := cutTrailing_spec (number.cMantissa.dropWhile (· == 0)).reverse small
  have first := head?_dropWhile_not (· == 0) number.cMantissa
  unfold compact
  rw [if_neg (by rw [valid]; decide)]
  generalize cutTrailing (number.cMantissa.dropWhile (· == 0)).reverse number.exponent = cut at split small last
  obtain ⟨reversed, exponent⟩ := cut
  rw [eq_comm, reverse_eq_iff, reverse_append] at split
  dsimp only at split small last ⊢
  split
  case isTrue => exact ⟨valid, by dsimp only; decide, nofun, nofun, nofun, fun _ => ⟨rfl, rfl⟩⟩
  case isFalse some =>
    refine ⟨valid, small, fun digit inside => ?_, fun zero => ?_, fun zero => ?_, fun none => absurd (reverse_eq_nil_iff.1 none) some⟩
    · exact digits digit ((dropWhile_sublist (· == 0)).mem (split ▸ mem_append_left _ inside))
    · obtain ⟨rest, cons⟩ : ∃ rest, reversed.reverse = 0 :: rest := head?_eq_some_iff.1 zero
      rw [split, cons] at first
      cases first
    · rw [getLast?_reverse] at zero
      exact last zero

end DarwinNotes.GNUstep.Decimal
