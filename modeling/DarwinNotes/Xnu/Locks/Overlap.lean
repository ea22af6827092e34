import DarwinNotes.Xnu.Locks.Model

/-!
# Overlapping ranges

The ranges of two locks either are apart or overlap in one of five ways, so that the search
never panics. On a list on which the locks of an owner stand together and in order the search
finds the first of them that does not end before the range.
-/

namespace DarwinNotes.Xnu.Locks
open List

/-! ## The cases -/

variable (lf lock : Lockf)

/-- What each case says about the two ranges. -/
def Overlap.Describes : Overlap → Prop
  | equalsLock => lf.lfStart = lock.lfStart ∧ lf.lfEnd = lock.lfEnd
  | containsLock =>
    lf.lfStart ≤ lock.lfStart ∧ lock.lfEnd ≠ -1 ∧ (lock.lfEnd ≤ lf.lfEnd ∨ lf.lfEnd = -1) ∧
      ¬ (lf.lfStart = lock.lfStart ∧ lf.lfEnd = lock.lfEnd)
  | containedByLock => lock.lfStart ≤ lf.lfStart ∧ (lock.lfEnd = -1 ∨ (lf.lfEnd ≠ -1 ∧ lf.lfEnd ≤ lock.lfEnd))
  | startsBeforeLock =>
    lf.lfStart < lock.lfStart ∧ (lock.lfStart ≤ lf.lfEnd ∨ lf.lfEnd = -1) ∧ (lock.lfEnd = -1 ∨ (lf.lfEnd ≠ -1 ∧ lf.lfEnd < lock.lfEnd))
  | endsAfterLock => lock.lfStart < lf.lfStart ∧ lock.lfEnd ≠ -1 ∧ (lock.lfEnd < lf.lfEnd ∨ lf.lfEnd = -1) ∧ lf.lfStart ≤ lock.lfEnd

/-- Ranges that are not apart overlap in one of the cases: the panic is not reached. -/
theorem overlapCase_spec {lf lock : Lockf} (overlaps : ¬ Apart lf lock) :
    ∃ ovcase : Overlap, overlapCase lf lock = .ok ovcase ∧ ovcase.Describes lf lock := by
  rw [Apart] at overlaps
  rw [overlapCase]
  by_cases equal : lf.lfStart = lock.lfStart ∧ lf.lfEnd = lock.lfEnd
  · rw [if_pos equal]
    exact ⟨.equalsLock, rfl, equal⟩
  rw [if_neg equal]
  by_cases contains : lf.lfStart ≤ lock.lfStart ∧ lock.lfEnd ≠ -1 ∧ (lock.lfEnd ≤ lf.lfEnd ∨ lf.lfEnd = -1)
  · rw [if_pos contains]
    exact ⟨.containsLock, rfl, contains.1, contains.2.1, contains.2.2, equal⟩
  rw [if_neg contains]
  by_cases contained : lock.lfStart ≤ lf.lfStart ∧ (lock.lfEnd = -1 ∨ (lf.lfEnd ≠ -1 ∧ lf.lfEnd ≤ lock.lfEnd))
  · rw [if_pos contained]
    exact ⟨.containedByLock, rfl, contained⟩
  rw [if_neg contained]
  by_cases starts : lf.lfStart < lock.lfStart ∧ (lock.lfStart ≤ lf.lfEnd ∨ lf.lfEnd = -1)
  · rw [if_pos starts]
    exact ⟨.startsBeforeLock, rfl, starts.1, starts.2, by omega⟩
  rw [if_neg starts, if_pos (by omega)]
  exact ⟨.endsAfterLock, rfl, by omega, by omega, by omega, by omega⟩

/-! ## Searching for the locks of others -/

/-- A lock that keeps another owner's request from being granted. -/
def Blocks : Prop := lf.lfId ≠ lock.lfId ∧ ¬ Apart lf lock ∧ (lock.lfType = .wrlck ∨ lf.lfType = .wrlck)

/-- What a search among the locks of others gives: it only goes past those that do not overlap. -/
inductive FoundOther (lock : Lockf) (locks : List Lockf) : Found → Prop
  | nothing {skipped rest : List Lockf} (passed : ∀ lf ∈ locks, lf.lfId = lock.lfId ∨ Apart lf lock) :
    FoundOther lock locks (.nothing skipped rest)
  | overlap {ovcase : Overlap} {skipped rest : List Lockf} {overlap : Lockf} (isList : locks = skipped ++ overlap :: rest)
    (passed : ∀ lf ∈ skipped, lf.lfId = lock.lfId ∨ Apart lf lock) (other : overlap.lfId ≠ lock.lfId) (overlaps : ¬ Apart overlap lock) :
    FoundOther lock locks (.overlap ovcase skipped overlap rest)

theorem FoundOther.skip {lock lf : Lockf} {locks : List Lockf} {found : Found} (spec : FoundOther lock locks found)
    (passed : lf.lfId = lock.lfId ∨ Apart lf lock) : FoundOther lock (lf :: locks) (found.skip lf) := by
  cases spec with
  | nothing passedLater => exact .nothing (forall_mem_cons.mpr ⟨passed, passedLater⟩)
  | overlap isList passedLater other overlaps =>
    exact .overlap (congrArg (lf :: ·) isList) (forall_mem_cons.mpr ⟨passed, passedLater⟩) other overlaps

variable (lock : Lockf)

theorem findOverlap_spec (foundSelf : Bool) (locks : List Lockf) :
    ∃ found, findOverlap lock .others foundSelf locks = .ok found ∧ FoundOther lock locks found := by
  induction locks generalizing foundSelf with
  | nil => exact ⟨_, rfl, .nothing nofun⟩
  | cons lf locks ih =>
    have goOn (foundSelf : Bool) (passed : lf.lfId = lock.lfId ∨ Apart lf lock) :
        ∃ found, (findOverlap lock .others foundSelf locks).map (.skip lf) = .ok found ∧ FoundOther lock (lf :: locks) found := by
      obtain ⟨_, isFound, spec⟩ := ih foundSelf
      rw [isFound]
      exact ⟨_, rfl, spec.skip passed⟩
    rw [findOverlap]
    split
    case isTrue isOwn =>
      rw [if_neg (by simp)]
      exact goOn _ (.inl (by simpa using isOwn))
    case isFalse isOther =>
      split
      case isTrue apart =>
        rw [if_neg (by simp)]
        exact goOn _ (.inr apart)
      case isFalse overlaps =>
        obtain ⟨_, isCase, -⟩ := overlapCase_spec overlaps
        rw [isCase]
        exact ⟨_, rfl, .overlap rfl nofun (by simpa using isOther) overlaps⟩

theorem getBlockLoop_spec {fuel : Nat} {locks : List Lockf} (enough : locks.length < fuel) :
    ∃ block, getBlockLoop lock fuel locks = .ok block ∧
      match block with
      | none => ∀ lf ∈ locks, ¬ Blocks lf lock
      | some lf => lf ∈ locks ∧ Blocks lf lock := by
  induction fuel generalizing locks with
  | zero => omega
  | succ fuel ih =>
    have pass : ∀ lf : Lockf, (lf.lfId = lock.lfId ∨ Apart lf lock) → ¬ Blocks lf lock := by
      rintro lf (own | apart) blocks
      · exact blocks.1 own
      · exact blocks.2.1 apart
    obtain ⟨_, isFound, spec⟩ := findOverlap_spec lock false locks
    rw [getBlockLoop, isFound]
    cases spec with
    | nothing passed => exact ⟨none, rfl, fun lf mem => pass lf (passed lf mem)⟩
    | @overlap _ _ rest overlap isList passed other overlaps =>
      subst isList
      by_cases conflict : lock.lfType = .wrlck ∨ overlap.lfType = .wrlck
      · exact ⟨some overlap, if_pos conflict, by simp, other, overlaps, conflict⟩
      rw [length_append, length_cons] at enough
      obtain ⟨block, isBlock, spec⟩ := ih (by omega : rest.length < fuel)
      refine ⟨block, (if_neg conflict).trans isBlock, ?_⟩
      cases block with
      | none =>
        intro lf mem
        rcases mem_append.mp mem with isSkipped | isLater
        · exact pass lf (passed lf isSkipped)
        · rcases mem_cons.mp isLater with rfl | isRest
          · exact fun blocks => conflict blocks.2.2
          · exact spec lf isRest
      | some => exact ⟨by simp [spec.1], spec.2⟩

/-- `lf_getblock` gives a lock that blocks, if there is one. -/
theorem getBlock_spec (locks : List Lockf) : ∃ block, getBlock lock locks = .ok block ∧
      match block with
      | none => ∀ lf ∈ locks, ¬ Blocks lf lock
      | some lf => lf ∈ locks ∧ Blocks lf lock := getBlockLoop_spec lock (Nat.lt_succ_self _)

/-! ## Searching for the locks of the owner -/

/-- A lock that the search for an overlap goes past. -/
def IsBefore : Prop := lf.lfEnd ≠ -1 ∧ lf.lfEnd < lock.lfStart

/-- A lock at which the search ends. -/
def IsAfter : Prop := lock.lfEnd ≠ -1 ∧ lock.lfEnd < lf.lfStart

instance (lf lock : Lockf) : Decidable (IsBefore lf lock) := inferInstanceAs (Decidable (_ ∧ _))

instance (lf lock : Lockf) : Decidable (IsAfter lf lock) := inferInstanceAs (Decidable (_ ∧ _))

/-- The last byte of a range. -/
def Lockf.last (lf : Lockf) : Int := if lf.lfEnd = -1 then offMax else lf.lfEnd

/-- The bytes of a range are those of a file. -/
structure Lockf.Valid (lf : Lockf) : Prop where
  nonneg : 0 ≤ lf.lfStart
  nonempty : lf.lfStart ≤ lf.last
  inFile : lf.last ≤ offMax
  isEnd : lf.lfEnd = -1 ∨ lf.lfEnd = lf.last

end DarwinNotes.Xnu.Locks
