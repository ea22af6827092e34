import DarwinNotes.Objc.Weak.Model

/-!
# The referrers of an entry are a set

`append_referrer` adds and `remove_referrer` removes one address, inline, out of
line, and when an entry grows from one to the other or to a larger table.
-/

namespace DarwinNotes.Objc.Weak
open Lib.HashTable List

variable {hashes : Hashes}

/-- The addresses in an entry. -/
def Referrers.Has : Referrers → Nat → Prop
  | .inline inlineReferrers, referrer => referrer ≠ 0 ∧ ∃ i, inlineReferrers i = referrer
  | .outOfLine _ table, referrer => referrer ≠ 0 ∧ ∃ i ≤ table.mask, table.slots i = referrer

/-- No address is stored twice, and the hash table is one. -/
def Referrers.Sound (hashes : Hashes) : Referrers → Prop
  | .inline inlineReferrers => ∀ i j, inlineReferrers i ≠ 0 → inlineReferrers i = inlineReferrers j → i = j
  | .outOfLine _ table => table.Ok (referrerScheme hashes) ∧ 8 ≤ table.mask + 1

theorem tableSize_eq {mask : Nat} (positive : 0 < mask) : tableSize mask = mask + 1 := if_neg positive.ne'

/-! ## Growing -/

variable {referrer : Nat}

/-- A table with room is not grown. -/
theorem appendOutOfLine_insert {fuel : Nat} {table : Table Nat} (room : table.count < tableSize table.mask * 3 / 4) :
    appendOutOfLine hashes (fuel + 1) table referrer = table.insert (referrerScheme hashes) referrer := by
  rw [appendOutOfLine, if_neg (Nat.not_le.mpr room)]

/-- The loop over the old referrers inserts them all, and does not grow the new table. -/
theorem reinsert_eq {fuel : Nat} {old : List Nat} : ∀ {numRefs : Nat} {table : Table Nat},
    numRefs = (Table.elements (referrerScheme hashes) old).length → table.count + numRefs ≤ tableSize table.mask * 3 / 4 →
    reinsert (appendOutOfLine hashes (fuel + 1)) old numRefs table = table.insertAll (referrerScheme hashes) old := by
  induction old with
  | nil => exact fun _ _ => rfl
  | cons referrer old ih =>
    intro numRefs table counted room
    rw [reinsert]
    by_cases done : numRefs = 0
    · rw [if_pos done, Table.insertAll_nothing (length_eq_zero_iff.mp (counted ▸ done))]
    rw [if_neg done, Table.insertAll]
    by_cases empty : referrer = 0
    · have same : Table.elements (referrerScheme hashes) (referrer :: old) = Table.elements (referrerScheme hashes) old := by
        simp [Table.elements, referrerScheme, empty]
      rw [if_neg (not_not.mpr empty), if_pos (show (referrerScheme hashes).key referrer = 0 from empty)]
      exact ih (same ▸ counted) room
    · have split : Table.elements (referrerScheme hashes) (referrer :: old) = referrer :: Table.elements (referrerScheme hashes) old := by
        simp [Table.elements, referrerScheme, empty]
      rw [split, length_cons] at counted
      rw [if_pos empty, if_neg (show (referrerScheme hashes).key referrer ≠ 0 from empty), appendOutOfLine_insert (by omega)]
      cases inserted : table.insert (referrerScheme hashes) referrer with
      | none => rfl
      | some =>
        obtain ⟨mask, count⟩ := Table.insert_mask_count inserted
        exact ih (by omega) (by rw [mask, count]; omega)

/-- **A full table is grown and takes one more.** The old table need not be a valid hash table. -/
theorem appendOutOfLine_grow (fuel : Nat) {n : Nat} {t : Table Nat} (size : t.mask + 1 = 2 ^ n) (four : 4 ≤ t.mask + 1)
    (full : tableSize t.mask * 3 / 4 ≤ t.count) (counted : (Table.elements (referrerScheme hashes) t.toList).length = t.count)
    (distinct : (Table.elements (referrerScheme hashes) t.toList).Nodup) (valid : referrer ≠ 0)
    (new : referrer ∉ Table.elements (referrerScheme hashes) t.toList) :
    ∃ t', appendOutOfLine hashes (fuel + 2) t referrer = some t' ∧ t'.Ok (referrerScheme hashes) ∧ 8 ≤ t'.mask + 1 ∧
      ∀ other, t'.Has (referrerScheme hashes) other ↔ other ∈ Table.elements (referrerScheme hashes) t.toList ∨ other = referrer := by
  have fits : t.count ≤ t.mask + 1 := by
    rw [← counted]
    refine (length_filter_le _ _).trans ?_
    simp [Table.toList]
  have oldSize : tableSize t.mask = t.mask + 1 := tableSize_eq (by omega)
  have newSize : tableSize (2 * (t.mask + 1) - 1) = 2 * (t.mask + 1) := by
    rw [tableSize_eq (by omega)]
    omega
  have newPower : 2 * (t.mask + 1) - 1 + 1 = 2 ^ (n + 1) := by omega
  -- the old referrers
  have vacantOk := Table.vacant_ok (referrerScheme hashes) newPower (by omega)
  obtain ⟨table₁, moved, ok₁, mask₁, count₁, has₁⟩ := vacantOk.insertAll t.toList
    (by rw [show (referrerScheme hashes).key = id from rfl, map_id]; exact distinct)
    (fun a inTable i _ same => by
      have used : a ≠ 0 := of_decide_eq_true (mem_filter.mp inTable).2
      exact used same.symm)
    (by rw [counted]; show 0 + t.count ≤ 2 * (t.mask + 1) - 1; omega)
  have mask₁ : table₁.mask = 2 * (t.mask + 1) - 1 := mask₁
  have count₁ : table₁.count = t.count := count₁.trans (by rw [counted]; exact Nat.zero_add _)
  have has₁ : ∀ other, table₁.Has (referrerScheme hashes) other ↔ other ∈ Table.elements (referrerScheme hashes) t.toList := fun other =>
    (has₁ other).trans (or_iff_right (Table.vacant_has other))
  -- the new one
  obtain ⟨table₂, inserted, ok₂, _, _, has₂⟩ := ok₁.insert (a := referrer) valid
    (fun i small same => new ((has₁ referrer).mp ⟨valid, i, small, same⟩)) (by omega)
  refine ⟨table₂, ?_, ok₂, by omega, fun other => by rw [has₂, has₁]⟩
  have loop : reinsert (appendOutOfLine hashes (fuel + 1)) t.toList t.count
      (Table.vacant (referrerScheme hashes) (2 * (t.mask + 1) - 1)) = some table₁ := by
    rw [reinsert_eq counted.symm ?_, moved]
    show 0 + t.count ≤ tableSize (2 * (t.mask + 1) - 1) * 3 / 4
    omega
  have last : appendOutOfLine hashes (fuel + 1) table₁ referrer = some table₂ := by
    rw [appendOutOfLine_insert ?_, inserted]
    rw [mask₁, newSize, count₁]
    omega
  rw [appendOutOfLine, if_pos full]
  simp only [oldSize, Nat.succ_ne_zero, if_false, Nat.mul_comm _ 2]
  rw [show (range (t.mask + 1)).map t.slots = t.toList from rfl, loop, Option.bind_some]
  exact last

theorem appendOutOfLine_ok (fuel : Nat) {table : Table Nat} (ok : table.Ok (referrerScheme hashes)) (eight : 8 ≤ table.mask + 1)
    (valid : referrer ≠ 0) (new : ¬ table.Has (referrerScheme hashes) referrer) :
    ∃ table', appendOutOfLine hashes (fuel + 2) table referrer = some table' ∧ table'.Ok (referrerScheme hashes) ∧ 8 ≤ table'.mask + 1 ∧
      ∀ other, table'.Has (referrerScheme hashes) other ↔ table.Has (referrerScheme hashes) other ∨ other = referrer := by
  by_cases full : tableSize table.mask * 3 / 4 ≤ table.count
  · obtain ⟨n, size⟩ := ok.size
    have distinct := ok.nodup_elements
    rw [show (referrerScheme hashes).key = id from rfl, map_id] at distinct
    obtain ⟨table', grown, ok', eight', has⟩ := appendOutOfLine_grow fuel size (by omega) full
      ok.length_elements distinct valid (fun old => new ((Table.mem_elements_toList table referrer).mp old))
    exact ⟨table', grown, ok', eight', fun other => by rw [has, Table.mem_elements_toList]⟩
  · have sized : tableSize table.mask = table.mask + 1 := tableSize_eq (by omega)
    obtain ⟨table', inserted, ok', mask, _, has⟩ := ok.insert (a := referrer) valid
      (fun i small same => new ⟨valid, i, small, same⟩) (by omega)
    exact ⟨table', (appendOutOfLine_insert (Nat.not_le.mp full)).trans inserted, ok', by omega, has⟩

/-! ## Adding and removing -/

variable {words : Fin weakInlineCount → Nat}

theorem find_inline {word : Nat} {i : Fin weakInlineCount}
    (found : (finRange weakInlineCount).find? (fun i => words i = word) = some i) : words i = word := by
  simpa using find?_some found

theorem find_inline_none {word : Nat} (nowhere : (finRange weakInlineCount).find? (fun i => words i = word) = none)
    (i : Fin weakInlineCount) : words i ≠ word := by
  simpa using find?_eq_none.mp nowhere i (mem_finRange i)

theorem inlineTable_elements (hashes : Hashes) (full : ∀ i, words i ≠ 0) :
    Table.elements (referrerScheme hashes) (inlineTable words).toList = (finRange weakInlineCount).map words := by
  have all : (inlineTable words).toList = (finRange weakInlineCount).map words := rfl
  rw [all]
  refine filter_eq_self.mpr fun word inWords => ?_
  obtain ⟨i, _, rfl⟩ := mem_map.mp inWords
  exact decide_eq_true (full i)

/-- **`append_referrer` adds a new referrer.** It calls itself at most once on the way. -/
theorem appendReferrer_ok {entry : Referrers} (newBlock : Nat) (sound : entry.Sound hashes) (valid : referrer ≠ 0)
    (new : ¬ entry.Has referrer) : ∃ entry', appendReferrer hashes 2 entry referrer newBlock = some entry' ∧ entry'.Sound hashes ∧
      ∀ other, entry'.Has other ↔ entry.Has other ∨ other = referrer := by
  cases entry with
  | outOfLine =>
    obtain ⟨table', grown, ok, eight, has⟩ := appendOutOfLine_ok 0 sound.1 sound.2 valid new
    rw [appendReferrer, grown, Option.map_some]
    exact ⟨_, rfl, ⟨ok, eight⟩, has⟩
  | inline words =>
    rw [appendReferrer]
    cases found : (finRange weakInlineCount).find? fun i => words i = 0 with
    | some i =>
      have free : words i = 0 := find_inline found
      have absent : ∀ j, words j ≠ referrer := fun j same => new ⟨valid, j, same⟩
      have distinct : ∀ i, True → ∀ j, True → id (words i) ≠ 0 → id (words i) = id (words j) → i = j := fun i _ j _ => sound i j
      refine ⟨_, rfl, fun j k => unique_update id distinct (fun _ k _ same => absurd same (absent k)) j trivial k trivial, fun other => ?_⟩
      simpa [Referrers.Has] using stored_insert id distinct (i := i) trivial free valid other
    | none =>
      have full : ∀ i, words i ≠ 0 := find_inline_none found
      have distinct := (nodup_finRange _).map fun i j => sound i j (full i)
      have elements := inlineTable_elements hashes full
      have members : ∀ other, other ∈ (finRange weakInlineCount).map words ↔ (Referrers.inline words).Has other := by
        intro other
        constructor
        · intro inWords
          obtain ⟨i, _, rfl⟩ := mem_map.mp inWords
          exact ⟨full i, i, rfl⟩
        · rintro ⟨_, i, same⟩
          exact mem_map.mpr ⟨i, mem_finRange i, same⟩
      obtain ⟨table', grown, ok, eight, has⟩ := appendOutOfLine_grow 0 (n := 2) (t := inlineTable words) rfl
        (Nat.le_refl 4) (by simp [tableSize, inlineTable, weakInlineCount]) (by rw [elements]; rfl)
        (elements ▸ distinct) valid (by rw [elements, members]; exact new)
      rw [grown, Option.map_some]
      refine ⟨_, rfl, ⟨ok, eight⟩, fun other => ?_⟩
      rw [← members, ← elements]
      exact has other

/-- **`remove_referrer` removes a referrer**, or nothing. -/
theorem removeReferrer_ok {entry : Referrers} (sound : entry.Sound hashes) (valid : referrer ≠ 0) :
    ∃ entry', removeReferrer hashes entry referrer = some entry' ∧ entry'.Sound hashes ∧
      entry'.isOutOfLine = entry.isOutOfLine ∧ ∀ other, entry'.Has other ↔ entry.Has other ∧ other ≠ referrer := by
  cases entry with
  | outOfLine _ table =>
    obtain ⟨ok, eight⟩ := sound
    rw [removeReferrer]
    by_cases absent : ∀ i ≤ table.mask, table.slots i ≠ referrer
    · rw [ok.find_absent absent]
      refine ⟨_, rfl, ⟨ok, eight⟩, rfl, fun other => ?_⟩
      refine ⟨fun has => ⟨has, ?_⟩, And.left⟩
      rintro rfl
      obtain ⟨_, i, small, same⟩ := has
      exact absent i small same
    · push Not at absent
      obtain ⟨i, small, rfl⟩ := absent
      obtain ⟨cleared, _, has⟩ := ok.clear small valid
      have found : table.find (referrerScheme hashes) (table.slots i) = .found i := ok.find_found small valid
      rw [found]
      exact ⟨_, rfl, ⟨cleared, eight⟩, rfl, has⟩
  | inline words =>
    rw [removeReferrer]
    cases found : (finRange weakInlineCount).find? fun i => words i = referrer with
    | none =>
      refine ⟨_, rfl, sound, rfl, fun other => ⟨fun has => ⟨has, ?_⟩, And.left⟩⟩
      rintro rfl
      obtain ⟨_, i, same⟩ := has
      exact find_inline_none found i same
    | some i =>
      obtain rfl : words i = referrer := find_inline found
      have distinct : ∀ i, True → ∀ j, True → id (words i) ≠ 0 → id (words i) = id (words j) → i = j := fun i _ j _ => sound i j
      refine ⟨_, rfl, fun j k => unique_update id distinct (absurd rfl) j trivial k trivial, rfl, fun other => ?_⟩
      simpa [Referrers.Has] using stored_update id distinct (i := i) (a := 0) trivial other

/-- **The test for an empty entry never succeeds out of line**: the second word has its low bits set. -/
theorem isEmpty_iff (entry : Referrers) : isEmpty entry = true ↔ entry.isOutOfLine = false ∧ ∀ referrer, ¬ entry.Has referrer := by
  cases entry with
  | outOfLine =>
    refine iff_of_false ?_ (fun inline => Bool.noConfusion inline.1)
    rw [isEmpty]
    split
    · exact Bool.false_ne_true
    · intro zero
      have word := of_decide_eq_true (all_eq_true.mp zero 1 (mem_finRange 1))
      exact absurd word (Nat.succ_ne_zero _)
  | inline =>
    rw [isEmpty, all_eq_true]
    constructor
    · rintro zero
      refine ⟨rfl, ?_⟩
      rintro referrer ⟨nonzero, i, rfl⟩
      exact nonzero (of_decide_eq_true (zero i (mem_finRange i)))
    · rintro ⟨_, none⟩ i _
      refine decide_eq_true (not_not.mp fun nonzero => none _ ⟨nonzero, i, rfl⟩)

end DarwinNotes.Objc.Weak
