import DarwinNotes.CF.BinaryPlist.Lookup
import DarwinNotes.Lib.Decimal

/-!
# The components of key paths

A key path names a way down a property list: keys of dictionaries and indices of arrays,
separated by colons. An index is written in decimal; the scanner of the source reads it back
as long as it is below the largest `int`.
-/

namespace DarwinNotes.CF.BinaryPlist
open List

open Lib

/-! ## Decimal numbers -/

/-- A digit as a character. -/
def digitChar (d : Nat) : BitVec 16 := BitVec.ofNat 16 (0x30 + d)

variable (n : Nat)

/-- The digits of a number, the first one first. -/
def digitsOf : List Nat := if n = 0 then [0] else (Nat.digits 10 n).reverse

/-- A number in decimal. -/
def decimal : List (BitVec 16) := (digitsOf n).map digitChar

theorem toNat_digitChar {d : Nat} (isDigit : d < 10) : (digitChar d).toNat = 0x30 + d := by
  rw [digitChar, BitVec.toNat_ofNat]
  omega

theorem isDigit_digitChar {d : Nat} (small : d < 10) : isDigit (digitChar d) = true := by
  simp only [isDigit, toNat_digitChar small, Bool.and_eq_true, decide_eq_true_eq]
  omega

/-- The scanner reads digits up to the largest `int`. -/
theorem scanDigits_map (digits : List Nat) (areDigits : ∀ d ∈ digits, d < 10) (value : Nat) (small : (value : Int) ≤ intMax) :
    scanDigits false value (digits.map digitChar) = min ((digits.foldl appendDigit value : Nat) : Int) intMax := by
  induction digits generalizing value with
  | nil =>
    rw [map_nil, scanDigits, foldl_nil, min_eq_left small]
    simp
  | cons d digits ih =>
    have isDigit := areDigits d mem_cons_self
    have rest := le_foldl_appendDigit digits (appendDigit value d)
    have digit : ((0x30 + d : Nat) : Int) - 0x30 = d := by omega
    have next : (value : Int) * 10 + d = (appendDigit value d : Nat) := by simp [appendDigit]
    rw [map_cons, foldl_cons, scanDigits, if_pos (isDigit_digitChar isDigit), toNat_digitChar isDigit]
    simp only [Bool.false_eq_true, if_false, digit, next]
    by_cases overflow : intMax ≤ (appendDigit value d : Nat)
    · rw [if_pos (by omega), min_eq_right (by omega)]
    · rw [if_neg (by omega)]
      exact ih (fun d inDigits => areDigits d (mem_cons_of_mem _ inDigits)) _ (by omega)

theorem foldl_digitsOf : (digitsOf n).foldl appendDigit 0 = n := by
  rw [digitsOf]
  split
  case isTrue zero => rw [zero]; rfl
  case isFalse => exact foldl_appendDigit_digits n

theorem digitsOf_lt {n d : Nat} (isDigit : d ∈ digitsOf n) : d < 10 := by
  rw [digitsOf] at isDigit
  split at isDigit
  case isTrue =>
    rw [mem_singleton.mp isDigit]
    decide
  case isFalse => exact Nat.digits_lt_base (by decide) (mem_reverse.mp isDigit)

theorem exists_cons_digitsOf : ∃ d digits, digitsOf n = d :: digits := by
  apply exists_cons_of_ne_nil
  rw [digitsOf]
  split
  case isTrue => exact cons_ne_nil _ _
  case isFalse nonzero => exact reverse_ne_nil_iff.mpr (Nat.digits_ne_nil_iff_ne_zero.mpr nonzero)

theorem getIntValue_decimal : getIntValue (decimal n) = min (n : Int) intMax := by
  obtain ⟨d, _, isFirst⟩ := exists_cons_digitsOf n
  have small : d < 10 := digitsOf_lt (isFirst ▸ mem_cons_self)
  have code := toNat_digitChar small
  have notSpace : isWhitespace (digitChar d) = false := by
    simp only [isWhitespace, code, Bool.or_eq_false_iff, Bool.and_eq_false_iff, decide_eq_false_iff_not]
    omega
  have notSign : ∀ c : BitVec 16, c.toNat < 0x30 → digitChar d ≠ c := by
    intro c sign same
    rw [← same] at sign
    omega
  have notMinus := notSign 45#16 (by decide)
  have notPlus := notSign 43#16 (by decide)
  have scanned := scanDigits_map (digitsOf n) (fun d => digitsOf_lt) 0 (by decide)
  rw [foldl_digitsOf] at scanned
  rw [decimal, ← scanned, isFirst, map_cons, getIntValue, dropWhile_cons_of_neg (by rw [notSpace]; simp)]
  simp [notMinus, notPlus, isDigit_digitChar small]

/-- An index is recognised, if it is below the largest `int`. -/
theorem indexValue_decimal : indexValue (decimal n) = if n < 2 ^ 31 - 1 then some n else none := by
  by_cases small : n < 2 ^ 31 - 1
  · have value : min (n : Int) intMax = n := min_eq_left (by simp only [intMax]; omega)
    have isZero : n = 0 → decimal n = [0x30] := by
      rintro rfl
      rfl
    have isIndex : ¬ (((n : Int) = 0 ∧ decimal n ≠ [0x30]) ∨ (n : Int) = intMax ∨ (n : Int) = intMin ∨ (n : Int) < 0) := by
      rintro (⟨_, other⟩ | limit)
      · exact other (isZero (by omega))
      · simp only [intMax, intMin] at limit
        omega
    simp only [indexValue, getIntValue_decimal, value, if_neg isIndex, if_pos small, Int.toNat_natCast]
  · have value : min (n : Int) intMax = intMax := min_eq_right (by simp only [intMax]; omega)
    simp only [indexValue, getIntValue_decimal, value, if_neg small, true_or, or_true, if_true]

/-! ## Paths -/

/-- A key of a dictionary or an index of an array. -/
inductive Component
  | key (chars : List (BitVec 16))
  | index (n : Nat)

def Component.chars : Component → List (BitVec 16)
  | key chars => chars
  | index n => decimal n

/-- A key is not numeric, and has no colon. -/
def Component.Valid : Component → Prop
  | key chars => indexValue chars = none ∧ 0x3a ∉ chars
  | index _ => True

/-- The components separated by colons. -/
def keyPath (path : List Component) : List (BitVec 16) := [0x3a].intercalate (path.map Component.chars)

theorem colon_notMem_chars {component : Component} (valid : component.Valid) : 0x3a ∉ component.chars := by
  cases component with
  | key => exact valid.2
  | index =>
    intro isColon
    obtain ⟨d, inDigits, same⟩ := mem_map.mp isColon
    have code := toNat_digitChar (digitsOf_lt inDigits)
    have small := digitsOf_lt inDigits
    rw [same] at code
    simp at code
    omega

theorem splitOn_keyPath {path : List Component} (valid : ∀ component ∈ path, component.Valid) (nonempty : path ≠ []) :
    (keyPath path).splitOn 0x3a = path.map Component.chars := by
  apply splitOn_intercalate
  · intro chars isComponent
    obtain ⟨component, inPath, rfl⟩ := mem_map.mp isComponent
    exact colon_notMem_chars (valid component inPath)
  · simpa using nonempty

end DarwinNotes.CF.BinaryPlist
