import DarwinNotes.Lib.CString
import DarwinNotes.Lib.Decimal

/-!
# Mangled Swift names (`objc-runtime-new.mm`)

The name of a Swift class or protocol is its module and its own name with a dot between them. In the mangled form each part
stands behind its length; the module `Swift` is a single letter.
-/

namespace DarwinNotes.Objc.SwiftNames
open List

open Lib

def bytes (chars : List Char) : List Byte := chars.map fun c => BitVec.ofNat 8 c.toNat

def dot : Byte := 0x2e

def swift : List Byte := bytes ['S', 'w', 'i', 'f', 't']

/-- The character of a digit. -/
def digitChar (d : Nat) : Byte := BitVec.ofNat 8 (0x30 + d)

/-- `isdigit` -/
def isDigit (c : Byte) : Bool := 0x30 ≤ c.toNat && c.toNat ≤ 0x39

/-! ## Demangling -/

/-- The loop of `scanMangledField`: the length and what follows it, unless an `int` overflows. -/
def scanLength (length : Nat) : List Byte → Option (Nat × List Byte)
  | [] => some (length, [])
  | c :: field =>
    if isDigit c then
      if 2 ^ 31 ≤ length * 10 then none
      else if 2 ^ 31 ≤ length * 10 + (c.toNat - 0x30) then none
      else scanLength (length * 10 + (c.toNat - 0x30)) field
    else some (length, c :: field)

/-- `scanMangledField`: the field, and the string behind it. -/
def scanMangledField (string : List Byte) : Option (List Byte × List Byte) :=
  if string.head? = some (digitChar 0) then none
  else do
    let (length, field) ← scanLength 0 string
    if 0 < length ∧ length ≤ field.length then some (field.take length, field.drop length) else none

/-- The module name; `s` is the Swift module. -/
def scanModule (string : List Byte) : Option (List Byte × List Byte) :=
  if string.head? = some 0x73 then some (swift, string.tail) else scanMangledField string

/-- `asprintf`, which fails for a text that is longer than an `int` can say. -/
def asprintf (text : List Byte) : Option (List Byte) := if text.length < 2 ^ 31 then some text else none

/-- The start of a mangled name. -/
def kind (isProtocol : Bool) : List Byte := bytes ['_', 'T', 't', if isProtocol then 'P' else 'C']

/-- What stands behind the parts. -/
def ending (isProtocol : Bool) : List Byte := if isProtocol then bytes ['_'] else []

/-- `copySwiftV1DemangledName` -/
def copySwiftV1DemangledName (string : Option (List Byte)) (isProtocol : Bool) : Option (List Byte) := do
  let string ← string
  if string.take 4 ≠ kind isProtocol then none
  else
    let string := string.drop 4
    let (first, string) ← scanModule string
    let (suffix, string) ← scanMangledField string
    if string = ending isProtocol then asprintf (first ++ dot :: suffix) else none

/-! ## Mangling -/

/-- `%zu` -/
def decimal (n : Nat) : List Byte := (if n = 0 then [0] else (Nat.digits 10 n).reverse).map digitChar

/-- `%.*s` with the length as an `int`; a negative one is taken as none at all. -/
def precise (length : Nat) (text : List Byte) : List Byte :=
  let precision := Int.bmod length (2 ^ 32)
  if precision < 0 then text else text.take precision.toNat

/-- The loop over the string: `dotCount` and `dotIndex`. -/
def findDots (string : List Byte) : Nat × Nat :=
  string.zipIdx.foldl (fun dots c => if c.1 = dot then (dots.1 + 1, c.2) else dots) (0, 0)

/-- `copySwiftV1MangledName` -/
def copySwiftV1MangledName (string : Option (List Byte)) (isProtocol : Bool) : Option (List Byte) := do
  let string ← string
  let (dotCount, dotIndex) := findDots string
  if dotCount ≠ 1 ∨ dotIndex = 0 ∨ string.length - 1 ≤ dotIndex then none
  else
    let suffix := string.drop (dotIndex + 1)
    let suffixLength := string.length - (dotIndex + 1)
    let named := decimal suffixLength ++ precise suffixLength suffix ++ ending isProtocol
    if dotIndex = 5 ∧ string.take 5 = swift then asprintf (kind isProtocol ++ 0x73 :: named)
    else asprintf (kind isProtocol ++ (decimal dotIndex ++ precise dotIndex string ++ named))

/-! ## The round trip -/

/-- A part of a name: the length in front of it ends where it starts. -/
structure Part (text : List Byte) : Prop where
  nonempty : text ≠ []
  noDot : dot ∉ text
  notDigit : ∀ c ∈ text.head?, isDigit c = false

theorem digitChar_spec : ∀ d < 10, isDigit (digitChar d) = true ∧ (digitChar d).toNat - 0x30 = d ∧ (digitChar d = digitChar 0 → d = 0) := by decide

theorem scanLength_digits {digits : List Nat} (areDigits : ∀ d ∈ digits, d < 10) {value : Nat} (small : digits.foldl appendDigit value < 2 ^ 31)
    {rest : List Byte} (ends : ∀ c ∈ rest.head?, isDigit c = false) :
    scanLength value (digits.map digitChar ++ rest) = some (digits.foldl appendDigit value, rest) := by
  induction digits generalizing value with
  | nil =>
    cases rest with
    | nil => rfl
    | cons c rest =>
      rw [map_nil, nil_append, scanLength, ends c rfl]
      rfl
  | cons d digits ih =>
    obtain ⟨isFirst, areLater⟩ := forall_mem_cons.mp areDigits
    obtain ⟨isDigit, isValue, -⟩ := digitChar_spec d isFirst
    have more : value * 10 + d ≤ digits.foldl appendDigit (value * 10 + d) := le_foldl_appendDigit digits _
    rw [foldl_cons, appendDigit] at small ⊢
    rw [map_cons, cons_append, scanLength, if_pos isDigit, isValue, if_neg (by omega), if_neg (by omega)]
    exact ih areLater small

variable {first suffix : List Byte}

/-- A length of a part is read back, and the part after it. -/
theorem scanMangledField_part (part : Part suffix) (small : suffix.length < 2 ^ 31) (rest : List Byte) :
    scanMangledField (decimal suffix.length ++ suffix ++ rest) = some (suffix, rest) := by
  have positive : suffix.length ≠ 0 := length_eq_zero_iff.not.mpr part.nonempty
  have isNumber := foldl_appendDigit_digits suffix.length
  have areDigits : ∀ d ∈ (Nat.digits 10 suffix.length).reverse, d < 10 := fun d mem => Nat.digits_lt_base (by decide) (mem_reverse.mp mem)
  have notZero : ∀ d ∈ (Nat.digits 10 suffix.length).reverse.head?, d ≠ 0 := by
    intro d isFirst
    rw [head?_reverse, Option.mem_def, getLast?_eq_some_getLast (Nat.digits_ne_nil_iff_ne_zero.mpr positive)] at isFirst
    exact Option.some.inj isFirst ▸ Nat.getLast_digit_ne_zero 10 positive
  rw [decimal, if_neg positive]
  generalize (Nat.digits 10 suffix.length).reverse = digits at *
  obtain ⟨d, digits, rfl⟩ := exists_cons_of_ne_nil (show digits ≠ [] by rintro rfl; exact positive isNumber.symm)
  have first : ((d :: digits).map digitChar ++ suffix ++ rest).head? ≠ some (digitChar 0) := fun isZero =>
    notZero d rfl ((digitChar_spec d (areDigits d mem_cons_self)).2.2 (Option.some.inj isZero))
  have ends : ∀ c ∈ (suffix ++ rest).head?, isDigit c = false := by
    obtain ⟨c, text, rfl⟩ := exists_cons_of_ne_nil part.nonempty
    exact part.notDigit
  have scanned := scanLength_digits areDigits (isNumber ▸ small) ends
  rw [isNumber] at scanned
  rw [scanMangledField, if_neg first, append_assoc, scanned]
  simp [Nat.pos_of_ne_zero positive]

theorem precise_eq {length : Nat} (small : length < 2 ^ 31) (text : List Byte) : precise length text = text.take length := by
  have isInt : Int.bmod length (2 ^ 32) = length := Int.bmod_eq_of_le (by omega) (by omega)
  unfold precise
  simp only [isInt, if_neg (Int.natCast_nonneg length).not_gt, Int.toNat_natCast]

theorem length_decimal {n : Nat} (small : n < 2 ^ 31) : (decimal n).length ≤ 10 := by
  rw [decimal, length_map]
  split
  · decide
  · rw [length_reverse, Nat.digits_length_le_iff (by decide)]
    omega

theorem findDots_eq (noDot : dot ∉ first) (noDot' : dot ∉ suffix) : findDots (first ++ dot :: suffix) = (1, first.length) := by
  have skip (text : List Byte) (noDot : dot ∉ text) (start : Nat) (dots : Nat × Nat) :
      (text.zipIdx start).foldl (fun dots c => if c.1 = dot then (dots.1 + 1, c.2) else dots) dots = dots := by
    induction text generalizing start with
    | nil => rfl
    | cons c text ih =>
      obtain ⟨other, later⟩ := not_or.mp (mem_cons.not.mp noDot)
      rw [zipIdx_cons, foldl_cons, if_neg (Ne.symm other), ih later]
  rw [findDots, zipIdx_append, foldl_append, skip first noDot, zipIdx_cons, foldl_cons, if_pos rfl, skip suffix noDot']
  simp

/-- What is behind the first part is read back. -/
theorem demangle_body {body : List Byte} (isProtocol : Bool) (isSuffix : Part suffix) (small : (first ++ dot :: suffix).length < 2 ^ 31 - 32)
    (isModule : scanModule body = some (first, decimal suffix.length ++ suffix ++ ending isProtocol)) :
    copySwiftV1DemangledName (some (kind isProtocol ++ body)) isProtocol = some (first ++ dot :: suffix) ∧
      copySwiftV1DemangledName (some (kind isProtocol ++ body)) (!isProtocol) = none := by
  have isKind : (kind isProtocol ++ body).take 4 = kind isProtocol := rfl
  have isBody : (kind isProtocol ++ body).drop 4 = body := rfl
  have isOther : kind isProtocol ≠ kind !isProtocol := by cases isProtocol <;> decide
  have isText : asprintf (first ++ dot :: suffix) = some (first ++ dot :: suffix) := if_pos (by omega)
  rw [length_append, length_cons] at small
  have isNamed := scanMangledField_part isSuffix (by omega) (ending isProtocol)
  constructor
  · rw [copySwiftV1DemangledName]
    simp only [bind, Option.bind, isKind, ne_eq, not_true, if_false, isBody, isModule, isNamed, if_true, isText]
  · rw [copySwiftV1DemangledName]
    simp [isKind, isOther]

/-- **A name is mangled and demangled to itself**, and not to anything in the other form. -/
theorem copySwiftV1DemangledName_mangled (isFirst : Part first) (isSuffix : Part suffix) (small : (first ++ dot :: suffix).length < 2 ^ 31 - 32)
    (isProtocol : Bool) : ∃ name, copySwiftV1MangledName (some (first ++ dot :: suffix)) isProtocol = some name ∧
      copySwiftV1DemangledName (some name) isProtocol = some (first ++ dot :: suffix) ∧
      copySwiftV1DemangledName (some name) (!isProtocol) = none := by
  have demangled {body : List Byte} := @demangle_body first suffix body isProtocol isSuffix small
  have isCount := findDots_eq isFirst.noDot isSuffix.noDot
  have positive := length_pos_iff.mpr isFirst.nonempty
  have positive' := length_pos_iff.mpr isSuffix.nonempty
  have isSize : (first ++ dot :: suffix).length = first.length + 1 + suffix.length := by
    rw [length_append, length_cons]
    omega
  have isRest : (first ++ dot :: suffix).drop (first.length + 1) = suffix := by simp
  have short := length_decimal (show first.length < 2 ^ 31 by omega)
  have short' := length_decimal (show suffix.length < 2 ^ 31 by omega)
  have isEnding : (ending isProtocol).length ≤ 1 := by cases isProtocol <;> decide
  have isKind : (kind isProtocol).length = 4 := rfl
  rw [copySwiftV1MangledName]
  simp only [bind, Option.bind, isCount, isSize, isRest, Nat.add_sub_cancel_left, precise_eq (show suffix.length < 2 ^ 31 by omega),
    precise_eq (show first.length < 2 ^ 31 by omega), take_length, take_left]
  rw [if_neg (by omega)]
  split
  case isTrue isSwift =>
    obtain rfl : first = swift := by rw [← isSwift.2, ← isSwift.1, take_left]
    exact ⟨_, if_pos (by simp only [length_append, length_cons]; omega), demangled rfl⟩
  case isFalse =>
    have scanned := scanMangledField_part isFirst (by omega) (decimal suffix.length ++ suffix ++ ending isProtocol)
    refine ⟨_, if_pos (by simp only [length_append]; omega), demangled ?_⟩
    rw [scanModule, if_neg, scanned]
    intro isS
    obtain ⟨rest, isCons⟩ := head?_eq_some_iff.mp isS
    rw [isCons] at scanned
    cases scanned

/-- The protocol `Swift.Set` -/
theorem copySwiftV1DemangledName_mangled_set : ∃ name, copySwiftV1MangledName (some (swift ++ dot :: bytes ['S', 'e', 't'])) true = some name ∧
      copySwiftV1DemangledName (some name) true = some (swift ++ dot :: bytes ['S', 'e', 't']) ∧ copySwiftV1DemangledName (some name) false = none :=
  copySwiftV1DemangledName_mangled ⟨by decide, by decide, by decide⟩ ⟨by decide, by decide, by decide⟩ (by decide) true

end DarwinNotes.Objc.SwiftNames
