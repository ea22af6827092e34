import DarwinNotes.Xnu.Locks.Ranges

/-!
# Coalescing adjacent locks

The lock that is granted takes in the one in front of it and the one behind it, if they are
adjacent and of its type. Afterwards the locks of the owner are coalesced, and hold what they
held.
-/

namespace DarwinNotes.Xnu.Locks
open List

/-- Two ranges are adjacent if the numbers are. -/
theorem adjacent_iff {lf : Lockf} (valid : lf.Valid) {start : Int} (nonneg : 0 ≤ start) (inFile : start ≤ offMax) :
    (lf.lfEnd ≠ -1 ∧ offSucc lf.lfEnd = start) ↔ lf.last + 1 = start := by
  have ends := valid.ends
  have range := valid.range
  rcases ends with ⟨infinite, isLast⟩ | ⟨isLast, finite⟩
  · constructor
    · rintro ⟨finite, -⟩
      exact absurd infinite finite
    · intro isNext
      omega
  · rw [isLast]
    by_cases isMax : lf.last = offMax
    · have wraps : offSucc lf.last = -2 ^ 63 := by
        rw [isMax]
        decide
      constructor
      · rintro ⟨-, _⟩
        omega
      · intro isNext
        omega
    · rw [offSucc_eq (by omega) (by omega)]
      exact ⟨And.right, fun isNext => ⟨by omega, isNext⟩⟩

/-- A lock that `lf_coalesce_adjacent` goes past. -/
def Ignored (lock lf : Lockf) : Prop :=
  lf.ref = lock.ref ∨ lf.lfId ≠ lock.lfId ∨ lf.lfType ≠ lock.lfType ∨
    (¬ (lf.lfEnd ≠ -1 ∧ offSucc lf.lfEnd = lock.lfStart) ∧ ¬ (lock.lfEnd ≠ -1 ∧ offSucc lock.lfEnd = lf.lfStart))

theorem coalesceLoop_skip {lock : Lockf} {skipped : List Lockf} (ignored : ∀ lf ∈ skipped, Ignored lock lf) (queues : Queues)
    (before locks : List Lockf) :
    coalesceLoop lock queues before (skipped ++ locks) = coalesceLoop lock queues (before ++ skipped) locks := by
  induction skipped generalizing before with
  | nil => rw [nil_append, append_nil]
  | cons lf skipped ih =>
    obtain ⟨ignoredFirst, ignoredLater⟩ := forall_mem_cons.mp ignored
    have step : coalesceLoop lock queues before (lf :: (skipped ++ locks)) =
        coalesceLoop lock queues (before ++ [lf]) (skipped ++ locks) := by
      rw [coalesceLoop.eq_def]
      simp only
      by_cases rejected : lf.ref = lock.ref ∨ lf.lfId ≠ lock.lfId ∨ lf.lfType ≠ lock.lfType
      · rw [if_pos rejected]
      · have apart : ¬ (lf.lfEnd ≠ -1 ∧ offSucc lf.lfEnd = lock.lfStart) ∧ ¬ (lock.lfEnd ≠ -1 ∧ offSucc lock.lfEnd = lf.lfStart) := by
          rcases ignoredFirst with same | otherId | otherType | apart
          · exact absurd (.inl same) rejected
          · exact absurd (.inr (.inl otherId)) rejected
          · exact absurd (.inr (.inr otherType)) rejected
          · exact apart
        rw [if_neg rejected, if_neg apart.1, if_neg apart.2]
    rw [cons_append, step, ih ignoredLater, append_assoc, singleton_append]

/-- Where nothing is taken in any more, the lock takes its place on the list. -/
theorem coalesceLoop_end {lock : Lockf} {rest : List Lockf} (ignored : ∀ lf ∈ rest, Ignored lock lf) (queues : Queues) (before : List Lockf) :
    coalesceLoop lock queues before rest = .ok ((before ++ rest).map fun lf => if lf.ref = lock.ref then lock else lf, queues) := by
  have isEnd := coalesceLoop_skip ignored queues before []
  rwa [append_nil, coalesceLoop] at isEnd

section Merging

variable {granted : Lockf} {left right : List Lockf}

/-- A lock that is separate from the granted one is not taken in. -/
theorem ignored_of_separate {lf : Lockf} (valid : lf.Valid) (validGranted : granted.Valid)
    (separate : Separate lf granted ∨ Separate granted lf) : Ignored granted lf := by
  by_cases sameType : lf.lfType = granted.lfType
  · have nonneg := valid.nonneg
    have range := valid.range
    have nonnegGranted := validGranted.nonneg
    have rangeValidGranted := validGranted.range
    refine .inr (.inr (.inr ⟨?_, ?_⟩))
    · rw [adjacent_iff valid nonnegGranted (by omega)]
      rcases separate with front | behind
      · have := front.2 sameType
        omega
      · have := behind.1
        omega
    · rw [adjacent_iff validGranted nonneg (by omega)]
      rcases separate with front | behind
      · have := front.1
        omega
      · have := behind.2 sameType.symm
        omega
  · exact .inr (.inr (.inl sameType))

/-- The lock in front of the granted one is taken in, if it can be. -/
theorem coalesceLoop_left (isOwn : Own granted.lfId left) (front : ∀ lf ∈ left, lf.last < granted.lfStart) (valid : granted.Valid)
    {queues : Queues} {before locks : List Lockf} (distinct : ((before ++ (left ++ granted :: locks)).map (·.ref)).Nodup) :
    ∃ left' start queues', coalesceLoop granted queues before (left ++ granted :: locks) =
        coalesceLoop { granted with lfStart := start } queues' (before ++ left' ++ [granted]) locks ∧
      left'.Sublist left ∧ (∀ lf ∈ left', Separate lf { granted with lfStart := start }) ∧ 0 ≤ start ∧ start ≤ granted.lfStart ∧
      (∀ byte mode, HeldIn (left' ++ [{ granted with lfStart := start }]) byte mode ↔ HeldIn (left ++ [granted]) byte mode) ∧
      Transfers (before ++ (left ++ granted :: locks)) (before ++ left' ++ { granted with lfStart := start } :: locks) queues queues' := by
  have nonneg := valid.nonneg
  have range := valid.range
  have skipSelf : ∀ lf ∈ [granted], Ignored granted lf := by
    rw [forall_mem_singleton]
    exact .inl rfl
  rcases eq_nil_or_concat left with rfl | ⟨init, last, rfl⟩
  · refine ⟨[], granted.lfStart, queues, ?_, .refl _, by simp, nonneg, Int.le_refl _, fun _ _ => Iff.rfl, transfers_subset (by simp)⟩
    exact (coalesceLoop_skip skipSelf queues before locks).trans (by rw [append_nil])
  rw [concat_eq_append] at isOwn front distinct ⊢
  obtain ⟨_, -, separateLast⟩ := pairwise_append.mp isOwn.coalesced
  have validLast : last.Valid := isOwn.valid last (by simp)
  have frontLast := front last (by simp)
  have nonemptyLast := validLast.nonempty
  have separateInit : ∀ lf ∈ init, Separate lf granted := by
    intro lf mem
    have separate := (separateLast lf mem last (by simp)).1
    exact ⟨by omega, fun _ => by omega⟩
  have skipInit : ∀ lf ∈ init, Ignored granted lf := by
    intro lf mem
    exact ignored_of_separate (isOwn.valid lf (by simp [mem])) valid (.inl (separateInit lf mem))
  rw [append_assoc] at distinct ⊢
  rw [coalesceLoop_skip skipInit]
  by_cases merges : last.lfType = granted.lfType ∧ last.last + 1 = granted.lfStart
  · obtain ⟨sameType, isNext⟩ := merges
    have adjacent := (adjacent_iff validLast nonneg (by omega)).mpr isNext
    have otherRef : last.ref ≠ granted.ref := @other_refs granted (before ++ (init ++ [last])) locks (by simpa using distinct) last (by simp)
    have kept : ¬ (last.ref = granted.ref ∨ last.lfId ≠ granted.lfId ∨ last.lfType ≠ granted.lfType) := by
      simp [otherRef, isOwn.own last (by simp), sameType]
    refine ⟨init, last.lfStart, queues.moveBlocked granted.ref last.ref, ?_, sublist_append_left _ _, ?_, validLast.nonneg, by omega, ?_, ?_⟩
    · rw [singleton_append, coalesceLoop.eq_def]
      simp only
      rw [if_neg kept, if_pos adjacent, if_pos trivial]
    · intro lf mem
      have separate := separateLast lf mem last (by simp)
      exact ⟨separate.1, fun same => separate.2 (same.trans sameType.symm)⟩
    · intro byte mode
      have isLast : ({ granted with lfStart := last.lfStart } : Lockf).last = granted.last := rfl
      simp only [heldIn_append, heldIn_cons, Lockf.Covers, isLast]
      clear * - sameType isNext range nonemptyLast
      grind
    · have range := validLast.range
      refine transfers_absorb distinct (by simp) (by simp) otherRef { granted with lfStart := last.lfStart } (by simp) (by grind) rfl
        (valid.withStart validLast.nonneg (by omega) _) ⟨rfl, by dsimp only; omega, by dsimp only; omega, not_downgrade rfl⟩
        fun _ => ⟨(isOwn.own last (by simp)).symm, Int.le_refl _, by dsimp only; omega, not_downgrade sameType.symm⟩
  · have separateLock : Separate last granted := by
      refine ⟨frontLast, fun same => ?_⟩
      have notNext : last.last + 1 ≠ granted.lfStart := fun isNext => merges ⟨same, isNext⟩
      omega
    have skipLast : ∀ lf ∈ [last, granted], Ignored granted lf := by
      refine forall_mem_cons.mpr ⟨ignored_of_separate validLast valid (.inl separateLock), skipSelf⟩
    refine ⟨init ++ [last], granted.lfStart, queues, ?_, .refl _, ?_, nonneg, Int.le_refl _, fun _ _ => Iff.rfl, transfers_subset (by simp)⟩
    · exact (coalesceLoop_skip skipLast queues (before ++ init) locks).trans (by simp)
    · refine forall_mem_append.mpr ⟨separateInit, ?_⟩
      rw [forall_mem_singleton]
      exact separateLock

/-- The granted lock may have taken in the first one behind it. -/
structure Takes (granted : Lockf) (right right' : List Lockf) (last : Int) : Prop where
  sublist : right'.Sublist right
  valid : ({ granted with lfEnd := last } : Lockf).Valid
  separate : ∀ lf ∈ right', Separate { granted with lfEnd := last } lf
  held : ∀ byte mode, HeldIn ({ granted with lfEnd := last } :: right') byte mode ↔ HeldIn (granted :: right) byte mode

/-- The lock behind the granted one is taken in, if it can be, and the rest is kept. -/
theorem coalesceLoop_right (valid : granted.Valid) (isOwn : Own granted.lfId right) (behind : ∀ lf ∈ right, granted.last < lf.lfStart)
    (onList : Lockf) (isRef : onList.ref = granted.ref) {back : List Lockf} (othersBack : ∀ lf ∈ back, lf.lfId ≠ granted.lfId) (queues : Queues)
    {before : List Lockf} (distinct : ((before ++ granted :: (right ++ back)).map (·.ref)).Nodup) :
    ∃ right' last queues', coalesceLoop granted queues (before ++ [onList]) (right ++ back) =
        .ok ((before ++ [onList] ++ (right' ++ back)).map fun lf => if lf.ref = granted.ref then { granted with lfEnd := last } else lf,
          queues') ∧ Takes granted right right' last ∧
      Transfers (before ++ granted :: (right ++ back)) (before ++ { granted with lfEnd := last } :: (right' ++ back)) queues queues' := by
  have nonneg := valid.nonneg
  have nonempty := valid.nonempty
  have ignoredBack : ∀ lf ∈ back, Ignored granted lf := fun lf mem => .inr (.inl (othersBack lf mem))
  cases right with
  | nil =>
    exact ⟨[], granted.lfEnd, queues, coalesceLoop_end ignoredBack queues _, ⟨.refl _, valid, nofun, fun _ _ => Iff.rfl⟩,
      transfers_subset (by simp)⟩
  | cons first right =>
    obtain ⟨separateFirst, -⟩ := pairwise_cons.mp isOwn.coalesced
    have validFirst := isOwn.validFirst
    have behindFirst := behind first (by simp)
    have nonnegFirst := validFirst.nonneg
    have rangeValidFirst := validFirst.range
    by_cases merges : first.lfType = granted.lfType ∧ granted.last + 1 = first.lfStart
    · obtain ⟨sameType, isNext⟩ := merges
      have adjacent := (adjacent_iff valid nonnegFirst (by omega)).mpr isNext
      have notFront : ¬ (first.lfEnd ≠ -1 ∧ offSucc first.lfEnd = granted.lfStart) := by
        rw [adjacent_iff validFirst nonneg (by omega)]
        omega
      have otherRef : first.ref ≠ granted.ref := other_refs distinct first (by simp)
      have kept : ¬ (first.ref = granted.ref ∨ first.lfId ≠ granted.lfId ∨ first.lfType ≠ granted.lfType) := by
        simp [otherRef, isOwn.ownFirst, sameType]
      have onTop : (before ++ [onList]).getLast?.map (·.ref) = some granted.ref := by simp [isRef]
      have isLast : ({ granted with lfEnd := first.lfEnd } : Lockf).last = first.last := rfl
      have validMerged : ({ granted with lfEnd := first.lfEnd } : Lockf).Valid :=
        ⟨nonneg, by rw [isLast]; simp only; omega, validFirst.inFile, validFirst.isEnd⟩
      have separateMerged : ∀ lf ∈ right, Separate { granted with lfEnd := first.lfEnd } lf := by
        intro lf mem
        have separate := separateFirst lf mem
        exact ⟨separate.1, fun same => separate.2 (sameType.trans same)⟩
      have ignored : ∀ lf ∈ right, Ignored { granted with lfEnd := first.lfEnd } lf := by
        intro lf mem
        exact ignored_of_separate (isOwn.tail.valid lf mem) validMerged (.inr (separateMerged lf mem))
      refine ⟨right, first.lfEnd, queues.moveBlocked granted.ref first.ref, ?_, ⟨sublist_cons_self _ _, validMerged, separateMerged, ?_⟩, ?_⟩
      · rw [cons_append, coalesceLoop.eq_def]
        simp only
        rw [if_neg kept, if_neg notFront, if_pos adjacent, if_pos onTop]
        exact coalesceLoop_end (forall_mem_append.mpr ⟨ignored, fun lf mem => .inr (.inl (othersBack lf mem))⟩) _ _
      · intro byte mode
        simp only [heldIn_cons, Lockf.Covers, isLast]
        clear * - sameType isNext nonempty rangeValidFirst
        grind
      · have range := valid.range
        exact transfers_absorb distinct (by simp) (by simp) otherRef { granted with lfEnd := first.lfEnd } (by simp) (by grind) rfl validMerged
          ⟨rfl, Int.le_refl _, by dsimp only; omega, not_downgrade rfl⟩
          fun _ => ⟨isOwn.ownFirst.symm, by dsimp only; omega, by dsimp only; omega, not_downgrade sameType.symm⟩
    · have separateLock : Separate granted first := by
        refine ⟨behindFirst, fun same => ?_⟩
        have notNext : granted.last + 1 ≠ first.lfStart := fun isNext => merges ⟨same.symm, isNext⟩
        omega
      have separateAll : ∀ lf ∈ first :: right, Separate granted lf := by
        refine forall_mem_cons.mpr ⟨separateLock, fun lf mem => ?_⟩
        have separate := (separateFirst lf mem).1
        exact ⟨by omega, fun _ => by omega⟩
      have ignored : ∀ lf ∈ first :: right, Ignored granted lf := by
        intro lf mem
        exact ignored_of_separate (isOwn.valid lf mem) valid (.inr (separateAll lf mem))
      exact ⟨first :: right, granted.lfEnd, queues, coalesceLoop_end (forall_mem_append.mpr ⟨ignored, ignoredBack⟩) queues _,
        ⟨.refl _, valid, separateAll, fun _ _ => Iff.rfl⟩, transfers_subset (by simp)⟩

/-- The granted lock and those on its sides, after the walk, are the locks of the owner. -/
theorem own_merged {left' right' : List Lockf} {merged : Lockf} (valid : merged.Valid) (ownLeft : Own merged.lfId left')
    (ownRight : Own merged.lfId right') (separateLeft : ∀ lf ∈ left', Separate lf merged) (separateRight : ∀ lf ∈ right', Separate merged lf) :
    Own merged.lfId (left' ++ merged :: right') := by
  have nonempty := valid.nonempty
  refine ⟨pairwise_append.mpr ⟨ownLeft.coalesced, pairwise_cons.mpr ⟨separateRight, ownRight.coalesced⟩, ?_⟩,
    forall_mem_append.mpr ⟨ownLeft.valid, forall_mem_cons.mpr ⟨valid, ownRight.valid⟩⟩,
    forall_mem_append.mpr ⟨ownLeft.own, forall_mem_cons.mpr ⟨rfl, ownRight.own⟩⟩⟩
  intro lf isLeft
  have before := (separateLeft lf isLeft).1
  refine forall_mem_cons.mpr ⟨separateLeft lf isLeft, fun lf' isRight => ?_⟩
  have behind := (separateRight lf' isRight).1
  exact ⟨by omega, fun _ => by omega⟩

/-- What has become of the granted lock takes its place. -/
theorem map_replace {before behind : List Lockf} (onList merged : Lockf) (isRef : onList.ref = merged.ref)
    (otherBefore : ∀ lf ∈ before, lf.ref ≠ merged.ref) (otherBehind : ∀ lf ∈ behind, lf.ref ≠ merged.ref) :
    (before ++ onList :: behind).map (fun lf => if lf.ref = merged.ref then merged else lf) = before ++ merged :: behind := by
  have unchanged : ∀ locks : List Lockf, (∀ lf ∈ locks, lf.ref ≠ merged.ref) →
      locks.map (fun lf => if lf.ref = merged.ref then merged else lf) = locks := by
    intro locks others
    conv_rhs => rw [← map_id locks]
    exact map_congr_left fun lf mem => if_neg (others lf mem)
  rw [map_append, map_cons, unchanged before otherBefore, unchanged behind otherBehind, if_pos isRef]

/-- `lf_coalesce_adjacent`, where the locks of the owner stand together. What the walk does behind the lock does not depend on
where it starts. -/
theorem coalesceLoop_spec {front back right right₀ : List Lockf} (subRight : right₀.Sublist right) (valid : granted.Valid)
    (ownLeft : Own granted.lfId left) (ownRight : Own granted.lfId right₀) (before : ∀ lf ∈ left, lf.last < granted.lfStart)
    (othersFront : ∀ lf ∈ front, lf.lfId ≠ granted.lfId) (distinct : ((front ++ (left ++ granted :: right) ++ back).map (·.ref)).Nodup)
    (isRight : ∀ start, ({ granted with lfStart := start } : Lockf).Valid → ∀ (queues : Queues) {before : List Lockf},
      ((before ++ granted :: (right ++ back)).map (·.ref)).Nodup → ∃ right' last queues',
      coalesceLoop { granted with lfStart := start } queues (before ++ [granted]) (right ++ back) =
        .ok ((before ++ [granted] ++ (right' ++ back)).map fun lf =>
          if lf.ref = granted.ref then { granted with lfStart := start, lfEnd := last } else lf, queues') ∧
        Takes { granted with lfStart := start } right₀ right' last ∧
        Transfers (before ++ { granted with lfStart := start } :: (right ++ back))
          (before ++ { granted with lfStart := start, lfEnd := last } :: (right' ++ back)) queues queues')
    (queues : Queues) :
    ∃ mine queues', coalesceLoop granted queues [] (front ++ (left ++ granted :: right) ++ back) = .ok (front ++ mine ++ back, queues') ∧
      mine ≠ [] ∧ Own granted.lfId mine ∧ (mine.map (·.ref)).Sublist ((left ++ granted :: right).map (·.ref)) ∧
      (∀ lf ∈ mine, FlagsFrom (left ++ granted :: right) lf) ∧
      Transfers (front ++ (left ++ granted :: right) ++ back) (front ++ mine ++ back) queues queues' ∧
      ∀ byte mode, HeldIn mine byte mode ↔ HeldIn (left ++ granted :: right₀) byte mode := by
  have ignoredFront : ∀ lf ∈ front, Ignored granted lf := fun lf mem => .inr (.inl (othersFront lf mem))
  rw [append_assoc, append_assoc, cons_append] at distinct ⊢
  obtain ⟨left', start, queues₁, isLeft, subLeft, separateLeft, nonneg, starts, heldLeft, movedLeft⟩ := coalesceLoop_left ownLeft before valid distinct
  have distinctLeft : ((front ++ left' ++ granted :: (right ++ back)).map (·.ref)).Nodup := by
    rw [append_assoc]
    exact distinct.sublist (.map _ (.append_left (subLeft.append_right _) front))
  obtain ⟨right', last, queues₂, isRight, takes, movedRight⟩ := isRight start
    (valid.withStart nonneg (Int.le_trans starts valid.nonempty) granted.ref) queues₁ distinctLeft
  have subRight' := takes.sublist.trans subRight
  refine ⟨left' ++ { granted with lfStart := start, lfEnd := last } :: right', queues₂, ?_, by simp, ?_, ?_, ?_, ?_, ?_⟩
  · have otherRefs := other_refs distinctLeft
    have replaced := map_replace granted { granted with lfStart := start, lfEnd := last } rfl (fun lf mem => otherRefs lf (mem_append_left _ mem))
      (fun lf mem => otherRefs lf (mem_append_right _ ((subRight'.append_right back).subset mem)))
    have isWalk := (coalesceLoop_skip ignoredFront queues [] _).trans (isLeft.trans isRight)
    simp only [append_assoc, cons_append, nil_append] at isWalk replaced ⊢
    rw [isWalk, replaced]
  · have validMerged : ({ granted with lfStart := start, lfEnd := last } : Lockf).Valid := takes.valid
    exact own_merged validMerged (ownLeft.sublist subLeft) (ownRight.sublist takes.sublist) separateLeft takes.separate
  · rw [map_append, map_append, map_cons, map_cons]
    exact (subLeft.map _).append ((subRight'.map _).cons_cons _)
  · rw [forall_mem_append, forall_mem_cons]
    exact ⟨fun lf mem => flagsFrom_self (mem_append_left _ (subLeft.subset mem)), .change (flagsFrom_self (by simp)) _ _ _ _,
      fun lf mem => flagsFrom_self (by simp [subRight'.subset mem])⟩
  · simpa using movedLeft.trans movedRight
  · intro byte mode
    have left := heldLeft byte mode
    have right := takes.held byte mode
    simp only [heldIn_append, heldIn_cons] at left right ⊢
    have := heldIn_nil mode byte
    grind

end Merging

end DarwinNotes.Xnu.Locks
