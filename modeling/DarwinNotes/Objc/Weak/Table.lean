import DarwinNotes.Objc.Weak.Referrers

/-!
# The weak table holds the registered pairs

What each operation does to the set of pairs of a referent and a referrer. The
table always agrees with the set, except that an entry can stay behind without
referrers: `weak_unregister_no_lock` never finds an entry empty that is out of line.
-/

namespace DarwinNotes.Objc.Weak
open Lib.HashTable

variable {hashes : Hashes}

namespace WeakTable

/-- The table is zeroed, or a hash table with at least the size it is first allocated with. -/
structure Ok (hashes : Hashes) (weakTable : WeakTable) : Prop where
  zeroed : weakTable.allocated = false → weakTable.entries = Table.vacant (entryScheme hashes) 0
  table : weakTable.allocated = true → weakTable.entries.Ok (entryScheme hashes)
  size : weakTable.allocated = true → 64 ≤ weakTable.entries.mask + 1

/-- The table has this entry. -/
def Has (hashes : Hashes) (weakTable : WeakTable) (entry : WeakEntry) : Prop := weakTable.entries.Has (entryScheme hashes) entry

/-- The table has an entry for the referent. -/
def Knows (hashes : Hashes) (weakTable : WeakTable) (referent : Nat) : Prop :=
  ∃ entry, weakTable.Has hashes entry ∧ entry.referent = referent

/-- The table has an entry for the referent, and its referrers are out of line. -/
def OutOfLine (hashes : Hashes) (weakTable : WeakTable) (referent : Nat) : Prop :=
  ∃ entry, weakTable.Has hashes entry ∧ entry.referent = referent ∧ entry.referrers.isOutOfLine = true

end WeakTable

variable {weakTable : WeakTable}

theorem zeroTable_ok : (zeroTable hashes).Ok hashes where
  zeroed _ := rfl
  table := nofun
  size := nofun

/-! ## Entries -/

variable (ok : weakTable.Ok hashes)
include ok

theorem WeakTable.Ok.not_has (zeroed : weakTable.allocated = false) (entry : WeakEntry) : ¬ weakTable.Has hashes entry := by
  rw [WeakTable.Has, ok.zeroed zeroed]
  exact Table.vacant_has entry

theorem WeakTable.Ok.unique {a b : WeakEntry} (hasA : weakTable.Has hashes a) (hasB : weakTable.Has hashes b)
    (same : a.referent = b.referent) : a = b := by
  cases allocated : weakTable.allocated with
  | false => exact absurd hasA (ok.not_has allocated a)
  | true =>
    obtain ⟨used, i, small, rfl⟩ := hasA
    obtain ⟨_, j, small', rfl⟩ := hasB
    rw [(ok.table allocated).unique i small j small' used same]

/-- A lookup finds the entry of the referent, or there is none. -/
theorem WeakTable.Ok.lookup {referent : Nat} (valid : referent ≠ 0) :
    (∃ i, weakEntryForReferent hashes weakTable referent = .found i ∧ weakTable.allocated = true ∧
      i ≤ weakTable.entries.mask ∧ (weakTable.entries.slots i).referent = referent) ∨
    weakEntryForReferent hashes weakTable referent = .absent ∧ ¬ weakTable.Knows hashes referent := by
  cases allocated : weakTable.allocated with
  | false =>
    refine Or.inr ⟨by rw [weakEntryForReferent, allocated]; rfl, ?_⟩
    rintro ⟨entry, has, _⟩
    exact ok.not_has allocated entry has
  | true =>
    have table := ok.table allocated
    rw [weakEntryForReferent, if_pos allocated]
    by_cases absent : ∀ i ≤ weakTable.entries.mask, (weakTable.entries.slots i).referent ≠ referent
    · refine Or.inr ⟨table.find_absent absent, ?_⟩
      rintro ⟨_, ⟨_, i, small, rfl⟩, same⟩
      exact absent i small same
    · push Not at absent
      obtain ⟨i, small, rfl⟩ := absent
      exact Or.inl ⟨i, table.find_found small valid, rfl, small, rfl⟩

omit ok in
theorem has_slot {i : Nat} {referent : Nat} (valid : referent ≠ 0) (small : i ≤ weakTable.entries.mask)
    (here : (weakTable.entries.slots i).referent = referent) : weakTable.Has hashes (weakTable.entries.slots i) :=
  ⟨fun none => valid (here ▸ none), i, small, rfl⟩

/-! ## Resizing -/

omit ok in
/-- **`weak_resize` keeps the entries.** -/
theorem weakResize_ok (newSize : Nat) {n : Nat} (ok : weakTable.Ok hashes) (power : newSize = 2 ^ n) (large : 64 ≤ newSize)
    (room : weakTable.entries.count < newSize) :
    ∃ resized, weakResize hashes weakTable newSize = some resized ∧ resized.Ok hashes ∧ resized.allocated = true ∧
      resized.entries.mask + 1 = newSize ∧ resized.entries.count = weakTable.entries.count ∧
      ∀ entry, resized.Has hashes entry ↔ weakTable.Has hashes entry := by
  have newPower : newSize - 1 + 1 = 2 ^ n := by omega
  rw [weakResize]
  cases allocated : weakTable.allocated with
  | false =>
    have vacantOk := Table.vacant_ok (entryScheme hashes) newPower (by omega)
    refine ⟨_, rfl, ⟨nofun, fun _ => vacantOk, fun _ => ?_⟩, rfl, ?_, ?_, fun entry => ?_⟩
    · show 64 ≤ newSize - 1 + 1
      omega
    · show newSize - 1 + 1 = newSize
      omega
    · rw [ok.zeroed allocated]
      rfl
    · exact iff_of_false (Table.vacant_has entry) (ok.not_has allocated entry)
  | true =>
    obtain ⟨entries, moved, ok', mask, count, has⟩ := (ok.table allocated).rehash newPower (by omega) (by omega)
    have sized : tableSize weakTable.entries.mask = weakTable.entries.mask + 1 := tableSize_eq (by have := ok.size allocated; omega)
    rw [if_pos rfl, sized]
    refine ⟨⟨true, entries⟩, ?_, ⟨nofun, fun _ => ok', fun _ => ?_⟩, rfl, ?_, count, has⟩
    · exact congrArg (Option.map _) moved
    · show 64 ≤ entries.mask + 1
      omega
    · show entries.mask + 1 = newSize
      omega

/-- **`weak_grow_maybe` makes room for an entry.** -/
theorem weakGrowMaybe_ok : ∃ grown, weakGrowMaybe hashes weakTable = some grown ∧ grown.Ok hashes ∧ grown.allocated = true ∧
      grown.entries.count < grown.entries.mask ∧ ∀ entry, grown.Has hashes entry ↔ weakTable.Has hashes entry := by
  cases allocated : weakTable.allocated with
  | false =>
    have empty := ok.zeroed allocated
    have none : weakTable.entries.count = 0 := by rw [empty]; rfl
    have unsized : tableSize weakTable.entries.mask = 0 := by rw [empty]; rfl
    obtain ⟨grown, resized, ok', allocated', size, count, has⟩ := weakResize_ok 64 (n := 6) ok (by decide)
      (by omega) (by omega)
    refine ⟨grown, ?_, ok', allocated', by omega, has⟩
    rw [weakGrowMaybe, unsized, if_pos (Nat.zero_le _)]
    exact resized
  | true =>
    have large := ok.size allocated
    obtain ⟨n, size⟩ := (ok.table allocated).size
    have fits := (ok.table allocated).count_le
    have sized : tableSize weakTable.entries.mask = weakTable.entries.mask + 1 := tableSize_eq (by omega)
    rw [weakGrowMaybe, sized]
    by_cases full : (weakTable.entries.mask + 1) * 3 / 4 ≤ weakTable.entries.count
    · obtain ⟨grown, resized, ok', allocated', _, count, has⟩ :=
        weakResize_ok ((weakTable.entries.mask + 1) * 2) (n := n + 1) ok (by rw [size, Nat.pow_succ])
          (by omega) (by omega)
      refine ⟨grown, ?_, ok', allocated', by omega, has⟩
      simp only [if_pos full, Nat.succ_ne_zero, if_false]
      exact resized
    · simp only [if_neg full]
      exact ⟨weakTable, rfl, ok, allocated, by omega, fun _ => Iff.rfl⟩

variable {i : Nat} (used : (weakTable.entries.slots i).referent ≠ 0)
include used

/-- **`weak_entry_remove` removes an entry.** -/
theorem weakEntryRemove_ok (allocated : weakTable.allocated = true) (small : i ≤ weakTable.entries.mask) : ∃ removed, weakEntryRemove hashes weakTable i = some removed ∧ removed.Ok hashes ∧
      ∀ entry, removed.Has hashes entry ↔ weakTable.Has hashes entry ∧ entry ≠ weakTable.entries.slots i := by
  have large := ok.size allocated
  obtain ⟨cleared, _, has⟩ := (ok.table allocated).clear small used
  have clearedOk : WeakTable.Ok hashes
      { weakTable with
        entries := weakTable.entries.clear (entryScheme hashes) i } :=
    ⟨fun zeroed => absurd (allocated.symm.trans zeroed) nofun, fun _ => cleared, fun _ => large⟩
  obtain ⟨n, size⟩ := (ok.table allocated).size
  have sized : tableSize weakTable.entries.mask = weakTable.entries.mask + 1 := tableSize_eq (by omega)
  rw [weakEntryRemove, weakCompactMaybe]
  simp only [show (weakTable.entries.clear (entryScheme hashes) i).mask = weakTable.entries.mask from rfl, sized]
  by_cases sparse : 1024 ≤ weakTable.entries.mask + 1 ∧
      (weakTable.entries.clear (entryScheme hashes) i).count ≤ (weakTable.entries.mask + 1) / 16
  · have power : (weakTable.entries.mask + 1) / 8 = 2 ^ (n - 3) := by
      have exponent : 3 ≤ n := by
        by_contra less
        have := Nat.pow_le_pow_right (n := 2) (by decide) (show n ≤ 3 by omega)
        omega
      rw [size]
      exact Nat.pow_div exponent (Nat.succ_pos 1)
    rw [if_pos sparse]
    obtain ⟨resized, moved, ok', _, _, _, has'⟩ := weakResize_ok _ clearedOk power (by omega) (by
      show (weakTable.entries.clear (entryScheme hashes) i).count < _
      omega)
    exact ⟨resized, moved, ok', fun entry => (has' entry).trans (has entry)⟩
  · rw [if_neg sparse]
    exact ⟨_, rfl, clearedOk, has⟩

omit ok

/-- **The referrers of an entry are changed in place.** -/
theorem setReferrers_ok (referrers : Referrers) (ok : weakTable.Ok hashes)
    (allocated : weakTable.allocated = true) (small : i ≤ weakTable.entries.mask) : (setReferrers weakTable i referrers).Ok hashes ∧
      ∀ entry, (setReferrers weakTable i referrers).Has hashes entry ↔ entry = ⟨(weakTable.entries.slots i).referent, referrers⟩ ∨
          weakTable.Has hashes entry ∧ entry ≠ weakTable.entries.slots i := by
  obtain ⟨replaced, has⟩ := (ok.table allocated).replace
    (a := ⟨(weakTable.entries.slots i).referent, referrers⟩) small used rfl
  exact ⟨⟨fun zeroed => absurd (allocated.symm.trans zeroed) nofun, fun _ => replaced, fun _ => ok.size allocated⟩, has⟩

end DarwinNotes.Objc.Weak
