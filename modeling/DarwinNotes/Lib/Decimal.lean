import Mathlib

/-!
# Decimal numbers

The digits of a number stand with the first one first. A reader multiplies by ten for each of them.
-/

namespace DarwinNotes.Lib
open List

/-- One more digit. -/
def appendDigit (value d : Nat) : Nat := value * 10 + d

theorem le_foldl_appendDigit (digits : List Nat) (value : Nat) : value ≤ digits.foldl appendDigit value := by
  induction digits generalizing value with
  | nil => exact le_rfl
  | cons d _ ih =>
    have more : value ≤ appendDigit value d := by
      simp only [appendDigit]
      omega
    exact more.trans (ih _)

theorem foldl_appendDigit_digits (n : Nat) : (Nat.digits 10 n).reverse.foldl appendDigit 0 = n := by
  rw [foldl_reverse]
  conv_rhs => rw [← Nat.ofDigits_digits 10 n, Nat.ofDigits_eq_foldr]
  congr 1
  funext d value
  simp only [appendDigit, Nat.cast_id]
  ring

end DarwinNotes.Lib
