import DarwinNotes.Objc.Weak.Table

/-!
# Registering, unregistering and clearing

Each operation of the weak table changes the set of registered pairs of a referent
and a referrer as it should, and does not fail. What it does to the entries is
stated as well, because an entry can be left without referrers.
-/

namespace DarwinNotes.Objc.Weak
open Lib.HashTable

variable {hashes : Hashes}

/-- An entry has the referrers that are registered for its referent. One without referrers is out of line. -/
structure EntryOk (hashes : Hashes) (registered : Nat → Nat → Prop) (entry : WeakEntry) : Prop where
  sound : entry.referrers.Sound hashes
  referrers : ∀ referrer, entry.referrers.Has referrer ↔ registered entry.referent referrer
  inline : entry.referrers.isOutOfLine = false → ∃ referrer, entry.referrers.Has referrer

/-- The table agrees with the registered pairs. -/
structure Agrees (hashes : Hashes) (weakTable : WeakTable) (registered : Nat → Nat → Prop) : Prop where
  ok : weakTable.Ok hashes
  entry : ∀ entry, weakTable.Has hashes entry → EntryOk hashes registered entry
  known : ∀ referent referrer, registered referent referrer → weakTable.Knows hashes referent

variable {weakTable weakTable' : WeakTable} {registered registered' : Nat → Nat → Prop}

theorem zeroTable_agrees : Agrees hashes (zeroTable hashes) fun _ _ => False where
  ok := zeroTable_ok
  entry entry has := absurd has (Table.vacant_has entry)
  known := nofun

variable {referent referrer : Nat} (agrees : Agrees hashes weakTable registered)
include agrees

theorem Agrees.congr (same : ∀ referent referrer, registered' referent referrer ↔ registered referent referrer) :
    Agrees hashes weakTable registered' :=
  (funext fun referent => funext fun referrer => propext (same referent referrer) : registered' = registered) ▸ agrees

theorem Agrees.referrer_ne_zero (pair : registered referent referrer) : referrer ≠ 0 := by
  obtain ⟨entry, has, rfl⟩ := agrees.known _ _ pair
  have inEntry := ((agrees.entry entry has).referrers referrer).mpr pair
  cases shape : entry.referrers <;> rw [shape] at inEntry <;> exact inEntry.1

omit agrees in
/-- The entries other than the one at `i` are those of other referents. -/
theorem WeakTable.Ok.other_iff (ok : weakTable.Ok hashes) {i : Nat} (valid : referent ≠ 0) (small : i ≤ weakTable.entries.mask)
    (here : (weakTable.entries.slots i).referent = referent) (entry : WeakEntry) :
    weakTable.Has hashes entry ∧ entry ≠ weakTable.entries.slots i ↔ weakTable.Has hashes entry ∧ entry.referent ≠ referent := by
  refine and_congr_right fun has => not_congr ⟨fun same => by rw [same, here], fun same => ?_⟩
  exact ok.unique has (has_slot valid small here) (same.trans here.symm)

/-- The table gets another entry for a referent, or loses the one it has. -/
theorem Agrees.set (new : Option Referrers) (ok : weakTable'.Ok hashes) (has : ∀ other, weakTable'.Has hashes other ↔
      (∃ referrers ∈ new, other = ⟨referent, referrers⟩) ∨ weakTable.Has hashes other ∧ other.referent ≠ referent)
    (here : ∀ referrers ∈ new, EntryOk hashes registered' ⟨referent, referrers⟩)
    (nothing : new = none → ∀ referrer, ¬ registered' referent referrer)
    (elsewhere : ∀ other ≠ referent, ∀ referrer, registered' other referrer ↔ registered other referrer) :
    Agrees hashes weakTable' registered' ∧ ∀ other, weakTable'.Knows hashes other ↔
      (∃ referrers ∈ new, other = referent) ∨ weakTable.Knows hashes other ∧ other ≠ referent := by
  have knows : ∀ other, weakTable'.Knows hashes other ↔
      (∃ referrers ∈ new, other = referent) ∨ weakTable.Knows hashes other ∧ other ≠ referent := by
    intro other
    constructor
    · rintro ⟨entry, found, rfl⟩
      obtain ⟨referrers, isNew, rfl⟩ | ⟨old, different⟩ := (has entry).mp found
      · exact .inl ⟨referrers, isNew, rfl⟩
      · exact .inr ⟨⟨entry, old, rfl⟩, different⟩
    · rintro (⟨referrers, isNew, rfl⟩ | ⟨⟨entry, old, rfl⟩, different⟩)
      · exact ⟨_, (has _).mpr (.inl ⟨referrers, isNew, rfl⟩), rfl⟩
      · exact ⟨entry, (has entry).mpr (.inr ⟨old, different⟩), rfl⟩
  refine ⟨⟨ok, fun entry found => ?_, fun other referrer pair => (knows other).mpr ?_⟩, knows⟩
  · obtain ⟨referrers, isNew, rfl⟩ | ⟨old, different⟩ := (has entry).mp found
    · exact here referrers isNew
    · have before := agrees.entry entry old
      exact { before with referrers := fun referrer => by rw [elsewhere _ different, before.referrers] }
  · by_cases this : other = referent
    · obtain ⟨referrers, isNew⟩ := Option.ne_none_iff_exists'.mp fun none => nothing none referrer (this ▸ pair)
      exact .inl ⟨referrers, isNew, this⟩
    · exact .inr ⟨agrees.known _ _ ((elsewhere _ this _).mp pair), this⟩

/-! ## Registering -/

/-- **A new pair is registered.** -/
theorem remember_agrees (newBlock : Nat) (object : referent ≠ 0) (location : referrer ≠ 0) (new : ¬ registered referent referrer)
    : ∃ weakTable', remember hashes weakTable referent referrer newBlock = some weakTable' ∧
      Agrees hashes weakTable' (fun other place => registered other place ∨ other = referent ∧ place = referrer) ∧
      ∀ other, weakTable'.Knows hashes other ↔ weakTable.Knows hashes other ∨ other = referent := by
  have elsewhere : ∀ other ≠ referent, ∀ place, registered other place ∨ other = referent ∧ place = referrer ↔ registered other place :=
    fun other different place => or_iff_left fun same => different same.1
  have registers : ∀ {weakTable' : WeakTable} {entry : Referrers}, weakTable'.Ok hashes → (∀ other, weakTable'.Has hashes other ↔
      other = ⟨referent, entry⟩ ∨ weakTable.Has hashes other ∧ other.referent ≠ referent) → entry.Sound hashes →
      (∀ place, entry.Has place ↔ registered referent place ∨ place = referrer) →
      Agrees hashes weakTable' (fun other place => registered other place ∨ other = referent ∧ place = referrer) ∧
        ∀ other, weakTable'.Knows hashes other ↔ weakTable.Knows hashes other ∨ other = referent := by
    intro weakTable' entry ok has sound now
    obtain ⟨agrees', knows⟩ := agrees.set (some entry) ok (by simpa using has) (by
      rintro _ ⟨⟩
      exact ⟨sound, fun place => by simp [now], fun _ => ⟨referrer, (now referrer).mpr (.inr rfl)⟩⟩) nofun elsewhere
    refine ⟨agrees', fun other => (knows other).trans ?_⟩
    simp only [Option.mem_some, exists_eq_left']
    tauto
  rw [remember]
  obtain ⟨i, found, allocated, small, here⟩ | ⟨absent, unknown⟩ := agrees.ok.lookup object
  · have has : weakTable.Has hashes (weakTable.entries.slots i) := has_slot object small here
    obtain ⟨isSound, old, -⟩ := agrees.entry _ has
    rw [here] at old
    obtain ⟨entry, appended, sound, now⟩ := appendReferrer_ok newBlock isSound location
      (fun registered => new ((old referrer).mp registered))
    obtain ⟨ok, changed⟩ := setReferrers_ok (here ▸ object) entry agrees.ok allocated small
    simp only [agrees.ok.other_iff object small here, here] at changed
    rw [found]
    exact ⟨_, congrArg (Option.map _) appended, registers ok changed sound fun place => by rw [now, old]⟩
  · obtain ⟨grown, growing, grownOk, allocated, room, same⟩ := weakGrowMaybe_ok agrees.ok
    have fresh : ∀ i ≤ grown.entries.mask, (grown.entries.slots i).referent ≠ referent := by
      intro i small here
      exact unknown ⟨_, (same _).mp (has_slot object small here), here⟩
    obtain ⟨entries, inserted, ok, mask, _, changed⟩ := (grownOk.table allocated).insert
      (a := ⟨referent, .inline fun i => if i.val = 0 then referrer else 0⟩) object fresh room
    have newOk : WeakTable.Ok hashes { grown with entries := entries } :=
      ⟨fun zeroed => absurd (allocated.symm.trans zeroed) nofun, fun _ => ok, fun _ => mask ▸ grownOk.size allocated⟩
    have now : ∀ place, (Referrers.inline fun i => if i.val = 0 then referrer else 0).Has place ↔
        registered referent place ∨ place = referrer := by
      intro place
      rw [or_iff_right fun old => unknown (agrees.known _ _ old)]
      constructor
      · rintro ⟨nonzero, i, at'⟩
        by_cases zero : i.val = 0
        · exact at'.symm.trans (if_pos zero)
        · exact absurd (at'.symm.trans (if_neg zero)) nonzero
      · rintro rfl
        exact ⟨location, 0, rfl⟩
    rw [absent]
    simp only [growing, Option.bind_some, weakEntryInsert, inserted, Option.map_some]
    refine ⟨_, rfl, registers newOk (fun other => ?_) ?_ now⟩
    · rw [or_comm]
      refine (changed other).trans (or_congr_left ((same other).trans ?_))
      refine ⟨fun has => ⟨has, fun known => unknown ⟨other, has, known⟩⟩, And.left⟩
    · intro i j used equal
      have atI : i.val = 0 := not_not.mp fun other => used (if_neg other)
      have atJ : j.val = 0 := not_not.mp fun other => used (equal.trans (if_neg other))
      exact Fin.ext (atI.trans atJ.symm)

/-- **A weak variable is registered** for an object that is not being deallocated. -/
theorem weakRegisterNoLock_agrees {object : Object} (newBlock : Nat) (crashIfDeallocating : Bool) (valid : referent ≠ 0)
    (untagged : object.isTaggedPointer = false) (live : object.deallocating = some false) (location : referrer ≠ 0)
    (new : ¬ registered referent referrer) :
    ∃ weakTable', weakRegisterNoLock hashes weakTable object referent referrer newBlock crashIfDeallocating = some (weakTable', referent) ∧
      Agrees hashes weakTable' (fun other place => registered other place ∨ other = referent ∧ place = referrer) ∧
      ∀ other, weakTable'.Knows hashes other ↔ weakTable.Knows hashes other ∨ other = referent := by
  obtain ⟨weakTable', remembered, agrees', knows⟩ := remember_agrees agrees newBlock valid location new
  have registers : ¬ (referent = 0 ∨ object.isTaggedPointer = true) := by
    rintro (none | tagged)
    · exact valid none
    · exact absurd (untagged.symm.trans tagged) Bool.false_ne_true
  refine ⟨weakTable', ?_, agrees', knows⟩
  rw [weakRegisterNoLock, if_neg registers, live, remembered]
  rfl

/-! ## Unregistering -/

/-- **A pair is unregistered.** The entry stays if another referrer is registered, and also if it is out
of line. -/
theorem weakUnregisterNoLock_agrees (referent : Nat) (location : referrer ≠ 0) :
    ∃ weakTable', weakUnregisterNoLock hashes weakTable referent referrer = some weakTable' ∧
      Agrees hashes weakTable' (fun other place => registered other place ∧ ¬ (other = referent ∧ place = referrer)) ∧
      ∀ other, weakTable'.Knows hashes other ↔ weakTable.Knows hashes other ∧ (other = referent →
          weakTable.OutOfLine hashes referent ∨ ∃ place ≠ referrer, registered referent place) := by
  rw [weakUnregisterNoLock]
  -- an object without an entry has nothing registered
  have nothing (unknown : ¬ weakTable.Knows hashes referent) :
      Agrees hashes weakTable (fun other place => registered other place ∧ ¬ (other = referent ∧ place = referrer)) ∧
        ∀ other, weakTable.Knows hashes other ↔ weakTable.Knows hashes other ∧ (other = referent →
            weakTable.OutOfLine hashes referent ∨ ∃ place ≠ referrer, registered referent place) := by
    refine ⟨agrees.congr fun other place => and_iff_left_of_imp fun pair same => unknown (same.1 ▸ agrees.known _ _ pair),
      fun other => ⟨fun known => ⟨known, ?_⟩, And.left⟩⟩
    rintro rfl
    exact absurd known unknown
  by_cases nil : referent = 0
  · rw [if_pos nil]
    refine ⟨weakTable, rfl, nothing ?_⟩
    rintro ⟨entry, has, same⟩
    exact has.1 (same.trans nil)
  rw [if_neg nil]
  obtain ⟨i, found, allocated, small, here⟩ | ⟨absent, unknown⟩ := agrees.ok.lookup nil
  · have has : weakTable.Has hashes (weakTable.entries.slots i) := has_slot nil small here
    have knows : weakTable.Knows hashes referent := ⟨_, has, here⟩
    obtain ⟨isSound, old, -⟩ := agrees.entry _ has
    rw [here] at old
    have elsewhere : ∀ other ≠ referent, ∀ place, registered other place ∧ ¬ (other = referent ∧ place = referrer) ↔ registered other place :=
      fun other different place => and_iff_left fun same => different same.1
    obtain ⟨entry, removed, sound, shape, now⟩ := removeReferrer_ok isSound location
    obtain ⟨ok, changed⟩ := setReferrers_ok (here ▸ nil) entry agrees.ok allocated small
    simp only [agrees.ok.other_iff nil small here, here] at changed
    have now : ∀ place, entry.Has place ↔ registered referent place ∧ ¬ (referent = referent ∧ place = referrer) := fun place => by
      simp [now, old]
    have outOfLine : weakTable.OutOfLine hashes referent ↔ entry.isOutOfLine = true := by
      rw [shape]
      refine ⟨fun ⟨other, hasOther, same, out⟩ => ?_, fun out => ⟨_, has, here, out⟩⟩
      rwa [← agrees.ok.unique hasOther has (same.trans here.symm)]
    rw [found]
    simp only [removed, Option.bind_some]
    by_cases empty : isEmpty entry = true
    · obtain ⟨inline, none⟩ := (isEmpty_iff entry).mp empty
      have slot : (setReferrers weakTable i entry).entries.slots i = ⟨referent, entry⟩ := (Function.update_self _ _ _).trans (by rw [here])
      obtain ⟨weakTable', done, ok', left⟩ := weakEntryRemove_ok ok (by rw [slot]; exact nil) allocated small
      have others : ∀ other, weakTable'.Has hashes other ↔ weakTable.Has hashes other ∧ other.referent ≠ referent := by
        intro other
        rw [left, changed, slot]
        constructor
        · rintro ⟨same | kept, different⟩
          · exact absurd same different
          · exact kept
        · exact fun kept => ⟨Or.inr kept, fun same => kept.2 (by rw [same])⟩
      obtain ⟨agrees', known⟩ := agrees.set .none ok' (by simpa using others) nofun (fun _ place pair => none place ((now place).mpr pair)) elsewhere
      rw [if_pos empty]
      refine ⟨weakTable', done, agrees', fun other => (known other).trans ((or_iff_right nofun).trans (and_congr_right fun _ => ?_))⟩
      refine ⟨fun different same => absurd same different, fun kept same => ?_⟩
      obtain out | ⟨place, different, pair⟩ := kept same
      · exact absurd (outOfLine.mp out) (by rw [inline]; exact Bool.false_ne_true)
      · exact none place ((now place).mpr ⟨pair, fun same => different same.2⟩)
    · rw [if_neg empty]
      have full : entry.isOutOfLine = true ∨ ∃ place, entry.Has place := by
        by_contra gone
        push Not at gone
        exact empty ((isEmpty_iff entry).mpr ⟨Bool.eq_false_iff.mpr gone.1, gone.2⟩)
      have stays : weakTable.OutOfLine hashes referent ∨ ∃ place ≠ referrer, registered referent place := by
        refine full.imp outOfLine.mpr fun ⟨place, inEntry⟩ => ?_
        obtain ⟨pair, different⟩ := (now place).mp inEntry
        exact ⟨place, fun same => different ⟨rfl, same⟩, pair⟩
      have nonempty (inline : entry.isOutOfLine = false) := full.resolve_left (Bool.eq_false_iff.mp inline)
      obtain ⟨agrees', known⟩ := agrees.set (some entry) ok (by simpa using changed)
        (by rintro _ ⟨⟩; exact ⟨sound, now, nonempty⟩) nofun elsewhere
      refine ⟨_, rfl, agrees', fun other => (known other).trans ⟨?_, fun both => ?_⟩⟩
      · rintro (⟨-, -, rfl⟩ | ⟨old, -⟩)
        · exact ⟨knows, fun _ => stays⟩
        · exact ⟨old, fun _ => stays⟩
      · exact (em (other = referent)).imp (⟨entry, rfl, ·⟩) (⟨both.1, ·⟩)
  · rw [absent]
    exact ⟨weakTable, rfl, nothing unknown⟩

/-! ## Clearing -/

omit agrees in
theorem mem_toList {referrers : Referrers} (sound : referrers.Sound hashes) (valid : referrer ≠ 0) :
    referrer ∈ referrers.toList ↔ referrers.Has referrer := by
  cases referrers with
  | inline => simp [Referrers.toList, Referrers.Has, valid]
  | outOfLine _ table =>
    have sized : tableSize table.mask = table.mask + 1 := tableSize_eq (by have := sound.2; omega)
    simp [Referrers.toList, Referrers.Has, valid, sized, Nat.lt_succ_iff]

omit agrees in
/-- The weak variables in the list that hold the object become nil. -/
theorem zeroOut_eq (referent location : Nat) : ∀ (list : List Nat) (memory : Nat → Nat), zeroOut referent list memory location =
      if (location ∈ list ∧ location ≠ 0) ∧ memory location = referent then 0 else memory location := by
  intro list
  induction list with
  | nil => exact fun _ => by simp [zeroOut]
  | cons head _ ih =>
    intro memory
    rw [zeroOut, ih]
    by_cases here : location = head
    · subst here
      by_cases holds : location ≠ 0 ∧ memory location = referent
      · rw [if_pos holds, Function.update_self, ite_self, if_pos ⟨⟨List.mem_cons_self, holds.1⟩, holds.2⟩]
      · rw [if_neg holds, if_neg fun both => holds ⟨both.1.2, both.2⟩, if_neg fun both => holds ⟨both.1.2, both.2⟩]
    · have same : (if head ≠ 0 ∧ memory head = referent then Function.update memory head 0 else memory) location = memory location := by
        split
        · exact Function.update_of_ne here _ _
        · rfl
      simp [same, or_iff_right here]

/-- **Everything registered for an object is cleared**: its weak variables become nil and its entry goes. -/
theorem weakClearNoLock_agrees (memory : Nat → Nat) (object : referent ≠ 0) :
    ∃ weakTable' memory', weakClearNoLock hashes weakTable memory referent = some (weakTable', memory') ∧
      (∀ location (p : Prop) [Decidable p], (registered referent location ∧ memory location = referent ↔ p) →
        memory' location = if p then 0 else memory location) ∧
      Agrees hashes weakTable' (fun other place => registered other place ∧ other ≠ referent) ∧
      ∀ other, weakTable'.Knows hashes other ↔ weakTable.Knows hashes other ∧ other ≠ referent := by
  rw [weakClearNoLock]
  obtain ⟨i, found, allocated, small, here⟩ | ⟨absent, unknown⟩ := agrees.ok.lookup object
  · have has : weakTable.Has hashes (weakTable.entries.slots i) := has_slot object small here
    obtain ⟨isSound, old, -⟩ := agrees.entry _ has
    rw [here] at old
    obtain ⟨weakTable', removed, ok, left⟩ := weakEntryRemove_ok agrees.ok (here ▸ object) allocated small
    simp only [agrees.ok.other_iff object small here] at left
    rw [found]
    refine ⟨weakTable', _, congrArg (Option.map _) removed, fun location p _ same => ?_,
      And.imp_right (fun knows other => (knows other).trans (or_iff_right nofun))
        (agrees.set none ok (by simpa using left) nofun (by simp) fun other different place => and_iff_left different)⟩
    rw [zeroOut_eq]
    refine if_congr (.trans (and_congr_left fun _ => ?_) same) rfl rfl
    constructor
    · rintro ⟨inList, valid⟩
      exact (old location).mp ((mem_toList isSound valid).mp inList)
    · intro pair
      have valid := agrees.referrer_ne_zero pair
      exact ⟨(mem_toList isSound valid).mpr ((old location).mpr pair), valid⟩
  · rw [absent]
    refine ⟨weakTable, memory, rfl, fun location p _ same => ?_,
      agrees.congr fun other place => and_iff_left_of_imp fun pair same => unknown (same ▸ agrees.known _ _ pair),
      fun other => ⟨fun known => ⟨known, ?_⟩, And.left⟩⟩
    · exact (if_neg fun holds => unknown (agrees.known _ _ (same.mpr holds).1)).symm
    · rintro rfl
      exact unknown known

end DarwinNotes.Objc.Weak
