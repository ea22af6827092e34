import Mathlib

/-!
# Appending characters to an XML property list

`_plistAppendCharacters` appends a buffer of UTF-16 to a data in UTF-8. It flushes the ASCII characters at the front through a
buffer of 400 bytes and converts the rest as one string. The counter `cnt` is declared inside of the outer loop: a second round
starts at the first character again, while its bound is relative to `curLoc`, and writes behind the end of the buffer.
-/

namespace DarwinNotes.CF.PropertyList
open List

/-- `BUFLEN` -/
def bufLen : Nat := 400

/-- The outer loop, with a bound for its rounds. The result is `none` if a byte is written behind the buffer. -/
def flushASCII (chars : List UInt16) : Nat → Nat → List UInt8 → Option (Nat × List UInt8)
  | 0, _, _ => none
  | rounds + 1, curLoc, mData =>
    -- the inner loop, from `cnt = 0` on
    let copied := (chars.take (curLoc + bufLen)).takeWhile (· < 128)
    if bufLen < copied.length then none
    else
      let mData := mData ++ (copied.take (copied.length - curLoc)).map UInt16.toUInt8
      let curLoc := max curLoc copied.length
      if chars[curLoc]?.any (· < 128) then flushASCII chars rounds curLoc mData else some (curLoc, mData)

/-- `_plistAppendCharacters`. A string that is not converted is not appended. -/
def plistAppendCharacters (convert : List UInt16 → Option (List UInt8)) (mData : List UInt8) (chars : List UInt16) :
    Option (List UInt8) := do
  let (curLoc, mData) ← flushASCII chars (chars.length + 1) 0 mData
  return if curLoc < chars.length then mData ++ (convert (chars.drop curLoc)).getD [] else mData

/-- The ASCII characters at the front. -/
def asciiRun (chars : List UInt16) : List UInt16 := chars.takeWhile (· < 128)

theorem any_getElem? (chars : List UInt16) {index : Nat} (inside : index ≤ (asciiRun chars).length) :
    chars[index]?.any (· < 128) = decide (index < (asciiRun chars).length) := by
  induction chars generalizing index with
  | nil => simp [asciiRun]
  | cons char rest next =>
    unfold asciiRun at inside next ⊢
    rw [takeWhile_cons] at inside ⊢
    cases index with
    | zero => split <;> simp [*]
    | succ index =>
      split at inside
      · simp_all
      · simp at inside

/-- One round is enough for a run that fits. A second round leaves the buffer. -/
theorem flushASCII_eq (chars : List UInt16) (rounds : Nat) (mData : List UInt8) :
    flushASCII chars (rounds + 1) 0 mData =
      if (asciiRun chars).length ≤ bufLen then some ((asciiRun chars).length, mData ++ (asciiRun chars).map UInt16.toUInt8)
      else none := by
  have copied : ∀ n, (chars.take n).takeWhile (· < 128) = (asciiRun chars).take n := fun n => take_takeWhile.symm
  simp only [flushASCII, copied, Nat.zero_add, length_take]
  rw [if_neg (Nat.not_lt.2 (Nat.min_le_left _ _)), Nat.zero_max, any_getElem? chars (Nat.min_le_right _ _)]
  by_cases fits : (asciiRun chars).length ≤ bufLen
  · simp [fits, take_of_length_le]
  · rw [if_neg fits, Nat.min_eq_left (Nat.le_of_not_le fits), if_pos (by simpa using fits)]
    cases rounds with
    | zero => rfl
    | succ rounds =>
      simp only [flushASCII, copied, length_take]
      exact if_pos (Nat.lt_min.2 ⟨by decide, Nat.not_le.1 fits⟩)

/-- The code units of a character. -/
def utf16EncodeChar (c : Char) : List UInt16 :=
  if c.toNat < 0x10000 then [.ofNat c.toNat]
  else [.ofNat (0xD800 + (c.toNat - 0x10000) / 0x400), .ofNat (0xDC00 + (c.toNat - 0x10000) % 0x400)]

/-- An ASCII character is one unit and one byte. Another one begins with a unit that is not ASCII. -/
theorem encodeChar_cases (c : Char) : (∃ unit < 128, utf16EncodeChar c = [unit] ∧ String.utf8EncodeChar c = [unit.toUInt8]) ∨
    ∃ unit units, utf16EncodeChar c = unit :: units ∧ ¬ unit < 128 := by
  have bounded : c.toNat < 0x110000 := by
    have := c.valid
    grind [Char.toNat]
  by_cases ascii : c.toNat < 128
  · refine .inl ⟨.ofNat c.toNat, ?_, if_pos (by omega), ?_⟩
    · simp [UInt16.lt_iff_toNat_lt, Nat.mod_eq_of_lt (show c.toNat < 65536 by omega), ascii]
    · simp [String.utf8EncodeChar, Nat.not_lt.2 (Nat.le_of_lt_succ ascii)]
  · right
    unfold utf16EncodeChar
    split
    all_goals
      refine ⟨_, _, rfl, ?_⟩
      rw [UInt16.lt_iff_toNat_lt, UInt16.toNat_ofNat', Nat.mod_eq_of_lt (by omega)]
      change ¬ _ < 128
      omega

/-- The ASCII characters at the front of a text, and what is behind them. -/
theorem exists_front (text : List Char) : ∃ front rest : List Char, text = front ++ rest ∧
    (asciiRun (text.flatMap utf16EncodeChar)).map UInt16.toUInt8 = front.flatMap String.utf8EncodeChar ∧
    asciiRun (text.flatMap utf16EncodeChar) ++ rest.flatMap utf16EncodeChar = text.flatMap utf16EncodeChar := by
  induction text with
  | nil => exact ⟨[], [], rfl, rfl, rfl⟩
  | cons c text next =>
    rcases encodeChar_cases c with ⟨unit, below, units, bytes⟩ | ⟨unit, units, encoded, above⟩
    · obtain ⟨front, rest, rfl, run, behind⟩ := next
      refine ⟨c :: front, rest, rfl, ?_⟩
      unfold asciiRun at run behind ⊢
      simp_all
    · exact ⟨[], c :: text, rfl, by simp [asciiRun, encoded, above]⟩

/-- Where the conversion gives the UTF-8 of the pieces of a text, the whole text is appended as UTF-8, once
and in order, exactly when the ASCII characters at its front fit into the buffer. -/
theorem plistAppendCharacters_eq_iff (convert : List UInt16 → Option (List UInt8)) (mData : List UInt8) (text : List Char)
    (converts : ∀ piece ∈ text.tails, convert (piece.flatMap utf16EncodeChar) = some (piece.flatMap String.utf8EncodeChar)) :
    plistAppendCharacters convert mData (text.flatMap utf16EncodeChar) = some (mData ++ text.flatMap String.utf8EncodeChar) ↔
      (asciiRun (text.flatMap utf16EncodeChar)).length ≤ bufLen := by
  obtain ⟨front, rest, rfl, run, behind⟩ := exists_front text
  have converted := converts rest ((mem_tails _ _).2 (suffix_append front rest))
  have nothing := converts [] ((mem_tails _ _).2 nil_suffix)
  generalize (front ++ rest).flatMap utf16EncodeChar = chars at run behind ⊢
  rw [plistAppendCharacters, flushASCII_eq]
  by_cases fits : (asciiRun chars).length ≤ bufLen
  · refine iff_of_true ?_ fits
    have dropped : chars.drop (asciiRun chars).length = rest.flatMap utf16EncodeChar := by
      rw [← congrArg (drop (asciiRun chars).length) behind, drop_left]
    rw [if_pos fits, flatMap_append, ← append_assoc, ← run]
    dsimp only [bind, Option.bind]
    rw [dropped, converted]
    split
    case isTrue => rfl
    case isFalse noRest =>
      rw [flatMap_nil, ← drop_eq_nil_of_le (Nat.le_of_not_lt noRest), dropped, converted, Option.some_inj] at nothing
      rw [nothing, flatMap_nil, append_nil]
      rfl
  · rw [if_neg fits]
    exact iff_of_false nofun fits

theorem plistAppendCharacters_accent :
    plistAppendCharacters (fun units => some (units.flatMap fun unit => String.utf8EncodeChar (.ofNat unit.toNat))) []
      (['n', 'é', 'e'].flatMap utf16EncodeChar) = some ([] ++ ['n', 'é', 'e'].flatMap String.utf8EncodeChar) :=
  (plistAppendCharacters_eq_iff _ [] ['n', 'é', 'e'] (by decide)).2 (by decide)

/-- The second round for 401 letters `a` writes behind the buffer. -/
theorem plistAppendCharacters_overflow :
    plistAppendCharacters (fun units => some (units.map UInt16.toUInt8)) [] (replicate 401 97) = none := by
  have run : asciiRun (replicate 401 97) = replicate 401 97 := by
    rw [asciiRun, takeWhile_replicate_eq_filter, filter_replicate_of_pos (by decide)]
  rw [plistAppendCharacters, flushASCII_eq, run, length_replicate, if_neg (by decide)]
  rfl

end DarwinNotes.CF.PropertyList
