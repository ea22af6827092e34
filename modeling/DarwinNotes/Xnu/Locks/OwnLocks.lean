import DarwinNotes.Xnu.Locks.Queued

/-!
# What the loops do to the locks of the owner

On a list on which the locks of the owner stand together, the loops of `lf_setlock` and `lf_clearlock` change these only.
What they do is a recursion over them.
-/

namespace DarwinNotes.Xnu.Locks
open List

/-! ## The locks of an owner -/

/-- The list has the locks of an owner in one place. Where there are none the place is the end, where the first one would be put. -/
structure Together (locks : List Lockf) (id : Nat) (front mine back : List Lockf) : Prop where
  isList : locks = front ++ mine ++ back
  othersFront : ∀ lf ∈ front, lf.lfId ≠ id
  own : ∀ lf ∈ mine, lf.lfId = id
  othersBack : ∀ lf ∈ back, lf.lfId ≠ id
  place : mine ≠ [] ∨ back = []

@[simp] theorem ok_bind {α β : Type} (a : α) (f : α → Except Fault β) : (Except.ok a >>= f) = f a := rfl

@[simp] theorem pure_eq_ok {α : Type} (a : α) : (pure a : Except Fault α) = .ok a := rfl

/-- Two locks of one owner are in order, and they are not adjacent if they have one type. -/
def Separate (lf lf' : Lockf) : Prop := lf.last < lf'.lfStart ∧ (lf.lfType = lf'.lfType → lf.last + 1 < lf'.lfStart)

def Coalesced (mine : List Lockf) : Prop := mine.Pairwise Separate

/-- All the locks of an owner, in the order of their ranges. -/
structure Own (id : Nat) (mine : List Lockf) : Prop where
  coalesced : Coalesced mine
  valid : ∀ lf ∈ mine, lf.Valid
  own : ∀ lf ∈ mine, lf.lfId = id

section Own

variable {id : Nat} {mine side : List Lockf} {lf : Lockf} (isOwn : Own id (lf :: mine))
include isOwn

omit isOwn in
theorem Own.sublist (isOwn : Own id mine) (isSublist : side.Sublist mine) : Own id side :=
  ⟨isOwn.coalesced.sublist isSublist, fun lf mem => isOwn.valid lf (isSublist.subset mem), fun lf mem => isOwn.own lf (isSublist.subset mem)⟩

theorem Own.tail : Own id mine := isOwn.sublist (sublist_cons_self _ _)

theorem Own.behind : ∀ lf' ∈ mine, lf.last < lf'.lfStart :=
  fun lf' mem => ((pairwise_cons.mp isOwn.coalesced).1 lf' mem).1

theorem Own.validFirst : lf.Valid := isOwn.valid lf mem_cons_self

theorem Own.ownFirst : lf.lfId = id := isOwn.own lf mem_cons_self

end Own

theorem Lockf.Valid.ends {lf : Lockf} (valid : lf.Valid) : (lf.lfEnd = -1 ∧ lf.last = offMax) ∨ (lf.lfEnd = lf.last ∧ lf.lfEnd ≠ -1) := by
  have nonneg := valid.nonneg
  have nonempty := valid.nonempty
  rcases valid.isEnd with infinite | finite
  · exact .inl ⟨infinite, if_pos infinite⟩
  · exact .inr ⟨finite, by omega⟩

/-- The bounds of a range -/
theorem Lockf.Valid.range {lf : Lockf} (valid : lf.Valid) : 0 ≤ lf.lfStart ∧ lf.lfStart ≤ lf.last ∧ lf.last ≤ offMax ∧
    ((lf.lfEnd = -1 ∧ lf.last = offMax) ∨ (lf.lfEnd = lf.last ∧ lf.lfEnd ≠ -1)) := ⟨valid.nonneg, valid.nonempty, valid.inFile, valid.ends⟩

/-- The range ends at infinity, or it can be followed by another one. -/
theorem offSucc_eq {offset : Int} (nonneg : 0 ≤ offset) (small : offset < offMax) : offSucc offset = offset + 1 := by
  rw [offMax] at small
  rw [offSucc, Int.bmod_eq_of_le] <;> omega

theorem convertStart_le {size : Nat} {whence : Whence} {lStart start : Int} (isOff : IsOff lStart)
    (isStart : convertStart size whence lStart = .ok start) : start ≤ offMax := by
  rw [convertStart.eq_def] at isStart
  split at isStart
  · exact Except.ok.inj isStart ▸ isOff.2
  · exact Except.ok.inj isStart ▸ isOff.2
  · split at isStart
    case isTrue => cases isStart
    case isFalse =>
      have isSum := Except.ok.inj isStart
      omega
  · cases isStart

/-- A range that is accepted is one of bytes of a file. -/
theorem Request.range_valid {request : Request} {start last : Int} (accepted : request.range = .ok (start, last)) (ref : Ref) :
    (request.lockf ref start last).Valid := by
  rw [Request.range, convertRange] at accepted
  cases isStart : convertStart request.size request.whence request.lStart with
  | error =>
    rw [isStart] at accepted
    cases accepted
  | ok =>
    have inFile := convertStart_le request.isOffStart isStart
    simp only [isStart, bind, Except.bind] at accepted
    have isRange : 0 ≤ start ∧ start ≤ offMax ∧ (last = -1 ∨ start ≤ last ∧ last ≤ offMax) := by grind
    have bounds : ∀ last', last' = (if last = -1 then offMax else last) → start ≤ last' ∧ last' ≤ offMax ∧ (last = -1 ∨ last = last') := by
      rintro last' rfl
      split <;> omega
    obtain ⟨nonempty, inFile, isEnd⟩ := bounds _ rfl
    exact ⟨isRange.1, nonempty, inFile, isEnd⟩

/-- The conversion of a range does not report a deadlock. -/
theorem Request.range_error {request : Request} {errno : Errno} (isError : request.range = .error errno) :
    errno = .EINVAL ∨ errno = .EOVERFLOW := by
  rw [Request.range, convertRange] at isError
  cases isStart : convertStart request.size request.whence request.lStart with
  | error =>
    rw [isStart] at isError
    obtain rfl := Except.error.inj isError
    rw [convertStart.eq_def] at isStart
    grind
  | ok =>
    simp only [isStart, bind, Except.bind] at isError
    grind

/-! ## Both sides of a range -/

section Pieces

variable (range : Lockf) (splitlock : Ref) (lf : Lockf)

/-- What is left of a lock in front of a range. -/
def frontPiece : Option Lockf :=
  if lf.lfStart < range.lfStart then some (if IsBefore lf range then lf else { lf with lfEnd := range.lfStart - 1 }) else none

/-- What is left of a lock behind a range, with another address if there is also something left in front. -/
def backPiece : Option Lockf :=
  if range.lfEnd ≠ -1 ∧ (range.lfEnd < lf.lfEnd ∨ lf.lfEnd = -1) then
    some (if IsAfter lf range then lf
      else { lf with ref := if lf.lfStart < range.lfStart then splitlock else lf.ref, lfStart := offSucc range.lfEnd })
  else none

/-- What is left in the cases of an overlap. -/
def Overlap.pieces : Overlap → Option Lockf × Option Lockf
  | equalsLock | containedByLock => (none, none)
  | containsLock => (if lf.lfStart = range.lfStart then none else some { lf with lfEnd := range.lfStart - 1 },
    if lf.lfEnd = range.lfEnd then none
    else some { lf with ref := if lf.lfStart = range.lfStart then lf.ref else splitlock, lfStart := offSucc range.lfEnd })
  | startsBeforeLock => (some { lf with lfEnd := range.lfStart - 1 }, none)
  | endsAfterLock => (none, some { lf with lfStart := offSucc range.lfEnd })

def fronts (mine : List Lockf) : List Lockf := mine.filterMap (frontPiece range)

def backs (mine : List Lockf) : List Lockf := mine.filterMap (backPiece range splitlock)

variable {range lf} {mine : List Lockf}

theorem fronts_append (before : List Lockf) : fronts range (before ++ lf :: mine) = fronts range before ++ (frontPiece range lf).toList ++ fronts range mine := by
  cases isFront : frontPiece range lf <;> simp [fronts, isFront]

theorem backs_append (before : List Lockf) : backs range splitlock (before ++ lf :: mine) =
    backs range splitlock before ++ (backPiece range splitlock lf).toList ++ backs range splitlock mine := by
  cases isBack : backPiece range splitlock lf <;> simp [backs, isBack]

variable (validRange : range.Valid)
include validRange

theorem pieces_overlap (valid : lf.Valid) (notBefore : ¬ IsBefore lf range) (notAfter : ¬ IsAfter lf range) {ovcase : Overlap}
    (describes : ovcase.Describes lf range) : (frontPiece range lf, backPiece range splitlock lf) = ovcase.pieces range splitlock lf := by
  simp only [frontPiece, backPiece, if_neg notBefore, if_neg notAfter]
  cases ovcase <;> simp only [Overlap.Describes, Overlap.pieces] at describes ⊢ <;> grind

variable (valid : ∀ lf ∈ mine, lf.Valid)
include valid

theorem pieces_after (after : ∀ lf ∈ mine, range.last < lf.lfStart) : fronts range mine = [] ∧ backs range splitlock mine = mine := by
  have rangeRange := validRange.range
  refine ⟨filterMap_eq_nil_iff.mpr fun lf mem => ?_, (filterMap_congr fun lf mem => ?_).trans filterMap_some⟩
  all_goals
    have isAfter := after lf mem
    have range := (valid lf mem).range
  · exact if_neg (by omega)
  · rw [backPiece, if_pos (by omega), if_pos ⟨by omega, by omega⟩]

end Pieces

/-! ## The search -/

section Search

/-- What the search among the locks of the owner comes to: none overlaps the range, or there is a first one that does. -/
inductive Finds (range : Lockf) (splitlock : Ref) (foundSelf : Bool) (front mine back : List Lockf) : Found → Prop
  | nothing {skipped rest : List Lockf} (isList : skipped ++ rest = front ++ (mine ++ back))
    (whole : fronts range mine ++ backs range splitlock mine = mine) (apart : ∀ lf ∈ mine, lf.lfEnd ≠ -1 ∨ range.lfStart < lf.lfStart)
    (place : foundSelf = true ∨ mine ≠ [] ∨ back = [] → skipped = front ++ fronts range mine) :
    Finds range splitlock foundSelf front mine back (.nothing skipped rest)
  | overlap {ovcase : Overlap} {before later : List Lockf} {lf : Lockf} (isMine : mine = before ++ lf :: later)
    (overlaps : ¬ Apart lf range) (describes : ovcase.Describes lf range) (bounded : ∀ lf' ∈ before, lf'.lfEnd ≠ -1) (behind : ∀ lf' ∈ later, range.lfStart < lf'.lfStart)
    (isFronts : fronts range mine = before ++ (ovcase.pieces range splitlock lf).1.toList)
    (isBacks : backs range splitlock mine = (ovcase.pieces range splitlock lf).2.toList ++ backs range splitlock later)
    (whole : range.last ≤ lf.last → backs range splitlock later = later) :
    Finds range splitlock foundSelf front mine back (.overlap ovcase (front ++ before) lf (later ++ back))

variable {range lf : Lockf} {splitlock : Ref} {foundSelf : Bool} {front mine back : List Lockf} {found : Found}

theorem Finds.skip_other (finds : Finds range splitlock foundSelf front mine back found) :
    Finds range splitlock foundSelf (lf :: front) mine back (found.skip lf) := by
  cases finds with
  | nothing isList whole apart place =>
    exact .nothing (congrArg (lf :: ·) isList) whole apart fun known => congrArg (lf :: ·) (place known)
  | overlap isMine overlaps describes bounded behind isFronts isBacks whole =>
    exact .overlap isMine overlaps describes bounded behind isFronts isBacks whole

/-- A lock in front of the range is passed. -/
theorem Finds.skip_own (finds : Finds range splitlock true [] mine back found) (bounded : lf.lfEnd ≠ -1)
    (isFront : frontPiece range lf = some lf) (isBack : backPiece range splitlock lf = none) :
    Finds range splitlock foundSelf [] (lf :: mine) back (found.skip lf) := by
  have isFronts : fronts range (lf :: mine) = lf :: fronts range mine := filterMap_cons_some isFront
  have isBacks : backs range splitlock (lf :: mine) = backs range splitlock mine := filterMap_cons_none isBack
  cases finds with
  | nothing isList whole apart place =>
    refine .nothing (congrArg (lf :: ·) isList) ?_ (forall_mem_cons.mpr ⟨.inl bounded, apart⟩) fun _ => ?_
    · rw [isFronts, isBacks]
      exact congrArg (lf :: ·) whole
    · rw [isFronts]
      exact congrArg (lf :: ·) (place (.inl rfl))
  | overlap isMine overlaps describes boundedLater behind isFronts' isBacks' whole =>
    exact .overlap (congrArg (lf :: ·) isMine) overlaps describes (forall_mem_cons.mpr ⟨bounded, boundedLater⟩) behind
      (isFronts.trans (congrArg (lf :: ·) isFronts')) (isBacks.trans isBacks') whole

theorem findOverlap_others (others : ∀ lf ∈ back, lf.lfId ≠ range.lfId) (foundSelf : Bool) : ∃ skipped rest,
    findOverlap range .self foundSelf back = .ok (.nothing skipped rest) ∧ skipped ++ rest = back ∧
      (foundSelf = true ∨ back = [] → skipped = []) := by
  induction back with
  | nil => exact ⟨[], [], rfl, rfl, fun _ => rfl⟩
  | cons lf back ih =>
    obtain ⟨other, othersLater⟩ := forall_mem_cons.mp others
    rw [findOverlap, if_pos (.inl ⟨rfl, other⟩)]
    cases foundSelf with
    | true => exact ⟨[], lf :: back, rfl, rfl, fun _ => rfl⟩
    | false =>
      obtain ⟨skipped, rest, isFound, rfl, -⟩ := ih othersLater
      rw [if_neg (by simp), isFound]
      exact ⟨lf :: skipped, rest, rfl, rfl, by simp⟩

variable (splitlock) (validRange : range.Valid) (isOwn : Own range.lfId mine) (othersBack : ∀ lf ∈ back, lf.lfId ≠ range.lfId)
include validRange isOwn othersBack

theorem findOverlap_mine (foundSelf : Bool) : ∃ found, findOverlap range .self foundSelf (mine ++ back) = .ok found ∧
    Finds range splitlock foundSelf [] mine back found := by
  induction mine generalizing foundSelf with
  | nil =>
    obtain ⟨skipped, rest, isFound, isList, place⟩ := findOverlap_others othersBack foundSelf
    exact ⟨_, isFound, .nothing isList rfl (by rintro _ ⟨⟩) fun known => place (by simpa using known)⟩
  | cons lf mine ih =>
    have valid := isOwn.validFirst
    have rangeLf := valid.range
    have rangeRange := validRange.range
    rw [cons_append, findOverlap, if_neg (by simp [isOwn.ownFirst])]
    by_cases isAfter : IsAfter lf range
    · obtain ⟨_, _⟩ := id isAfter
      have after : ∀ lf' ∈ lf :: mine, range.last < lf'.lfStart := by
        refine forall_mem_cons.mpr ⟨by omega, fun lf' mem => ?_⟩
        have := isOwn.behind lf' mem
        omega
      obtain ⟨noFronts, isBacks⟩ := pieces_after splitlock validRange isOwn.valid after
      rw [if_pos (.inr isAfter), if_pos ⟨rfl, isAfter⟩]
      refine ⟨_, rfl, .nothing rfl (by rw [noFronts, isBacks, nil_append]) (fun lf' mem => .inr ?_) fun _ => by rw [noFronts, append_nil]⟩
      have := after lf' mem
      omega
    by_cases isBefore : IsBefore lf range
    · obtain ⟨_, isFound, finds⟩ := ih isOwn.tail true
      rw [if_pos (.inl isBefore), if_neg fun stops => isAfter stops.2, show (foundSelf || decide (Check.self = .self)) = true by simp, isFound]
      obtain ⟨_, _⟩ := id isBefore
      refine ⟨_, rfl, finds.skip_own isBefore.1 ?_ (if_neg (by omega))⟩
      rw [frontPiece, if_pos (by omega), if_pos isBefore]
    have overlaps : ¬ Apart lf range := not_or.mpr ⟨isBefore, isAfter⟩
    obtain ⟨_, isCase, describes⟩ := overlapCase_spec overlaps
    have pieces := pieces_overlap splitlock validRange valid isBefore isAfter describes
    have behind : ∀ lf' ∈ mine, range.lfStart < lf'.lfStart := by
      intro lf' mem
      have := isOwn.behind lf' mem
      rw [IsBefore] at isBefore
      omega
    have noFronts : fronts range mine = [] := filterMap_eq_nil_iff.mpr fun lf' mem => if_neg (Int.not_lt.mpr (Int.le_of_lt (behind lf' mem)))
    rw [if_neg overlaps, isCase]
    refine ⟨_, rfl, .overlap rfl overlaps describes (by rintro _ ⟨⟩) behind ?_ ?_ fun reaches => ?_⟩
    · rw [← pieces]
      exact (fronts_append []).trans (by rw [noFronts, append_nil]; rfl)
    · rw [← pieces]
      exact backs_append splitlock []
    · exact (pieces_after splitlock validRange isOwn.tail.valid fun lf' mem => Int.lt_of_le_of_lt reaches (isOwn.behind lf' mem)).2

theorem findOverlap_own (othersFront : ∀ lf ∈ front, lf.lfId ≠ range.lfId) : ∃ found,
    findOverlap range .self false (front ++ (mine ++ back)) = .ok found ∧ Finds range splitlock false front mine back found := by
  induction front with
  | nil => exact findOverlap_mine splitlock validRange isOwn othersBack false
  | cons lf front ih =>
    obtain ⟨other, othersLater⟩ := forall_mem_cons.mp othersFront
    obtain ⟨_, isFound, finds⟩ := ih othersLater
    rw [cons_append, findOverlap, if_pos (.inl ⟨rfl, other⟩), if_neg (by simp), isFound]
    exact ⟨_, rfl, finds.skip_other⟩

end Search

/-! ## Setting -/

/-- Where the number behind the range comes round, it is not needed: a lock that goes on is not cut off. -/
def NoWrap (lock : Lockf) (mine : List Lockf) (isWhole : Lockf → Prop) : Prop :=
  lock.lfEnd = offMax → ∀ lf ∈ mine, lf.lfEnd = -1 → isWhole lf

/-- The lock is inside another one of its type. -/
def InsideSame (lock lf : Lockf) : Prop := lf.lfStart ≤ lock.lfStart ∧ lf.lfType = lock.lfType

/-- The locks of the owner after the loop of `lf_setlock`: those in front of the lock that is granted, that
lock, and those behind it. -/
inductive Places (lock : Lockf) (splitlock : Ref) : List Lockf → List Lockf → Lockf → List Lockf → Prop
  | inside {before rest : List Lockf} {lf : Lockf} (contains : lf.lfStart ≤ lock.lfStart ∧ lock.last ≤ lf.last)
    (same : lf.lfType = lock.lfType ∨ lf.lfStart = lock.lfStart ∧ lf.last = lock.last) :
    Places lock splitlock (before ++ lf :: rest) before { lf with lfType := lock.lfType } rest
  | between {mine : List Lockf} (cuts : NoWrap lock mine (InsideSame lock) → NoWrap lock mine fun _ => False) :
    Places lock splitlock mine (fronts lock mine) lock (backs lock splitlock mine)

section Setting

variable {lock : Lockf} {splitlock : Ref}

variable (validLock : lock.Valid) {mine back : List Lockf} (isOwn : Own lock.lfId mine)
include validLock isOwn

/-- When the lock is linked, the loop only looks at locks that start behind it. -/
theorem grantLoop_linked (others : ∀ lf ∈ back, lf.lfId ≠ lock.lfId) (later : ∀ lf ∈ mine, lock.lfStart < lf.lfStart) {fuel : Nat}
    (enough : mine.length < fuel) (queues : Queues) {before : List Lockf} (onList : lock ∈ before)
    (distinct : ((before ++ (mine ++ back)).map (·.ref)).Nodup) :
    ∃ queues', grantLoop lock splitlock fuel queues before false (mine ++ back) =
        .ok (before ++ backs lock splitlock mine ++ back, queues', lock) ∧
      Transfers (before ++ (mine ++ back)) (before ++ backs lock splitlock mine ++ back) queues queues' := by
  induction fuel generalizing mine queues before with
  | zero => omega
  | succ fuel ih =>
    have noFronts : fronts lock mine = [] := filterMap_eq_nil_iff.mpr fun lf mem => if_neg (Int.not_lt.mpr (Int.le_of_lt (later lf mem)))
    obtain ⟨_, isFound, finds⟩ := findOverlap_mine splitlock validLock isOwn others false
    rw [grantLoop, isFound]
    cases finds with
    | nothing isList whole =>
      rw [noFronts, nil_append] at whole
      rw [whole]
      exact ⟨queues, by simpa [linked] using isList, transfers_subset (by simp)⟩
    | @overlap ovcase _ rest lf isMine _ describes _ _ isFronts isBacks whole =>
      obtain ⟨rfl, -⟩ := append_eq_nil_iff.mp (isFronts.symm.trans noFronts)
      subst isMine
      obtain ⟨starts, laterRest⟩ := forall_mem_cons.mp later
      have range := isOwn.validFirst.range
      have rangeLock := validLock.range
      rw [isBacks]
      cases ovcase with
      | equalsLock | containsLock | startsBeforeLock => exact absurd describes.1 (by omega)
      | containedByLock =>
        obtain ⟨queues', isGranted, transfers⟩ := ih isOwn.tail laterRest (by simpa using enough)
          (if IsDowngrade lock lf then queues.wakeLock lf true else queues.moveBlocked lock.ref lf.ref) onList
          (distinct.sublist (.map _ (.append_left (sublist_cons_self lf _) before)))
        refine ⟨queues', by simpa [linked, Overlap.pieces] using isGranted, .trans ?_ transfers⟩
        exact transfers_contained distinct (by simp) (by simp [onList]) (other_refs distinct lock (by simp [onList])).symm (by grind) validLock
          isOwn.ownFirst describes
      | endsAfterLock =>
        obtain ⟨_, finite, _, _⟩ := describes
        rw [whole (by omega)]
        exact ⟨_, by simp [linked, Overlap.pieces], transfers_wake lf (.inl rfl) (by grind)⟩

/-- The loop of `lf_setlock` places the lock among those of its owner. -/
theorem grantLoop_places {locks front : List Lockf} (together : Together locks lock.lfId front mine back) {fuel : Nat}
    (enough : locks.length < fuel) (distinct : (lock.ref :: splitlock :: locks.map (·.ref)).Nodup) (queues : Queues) : ∃ queues' left granted right,
      grantLoop lock splitlock fuel queues [] true locks = .ok (front ++ (left ++ granted :: right) ++ back, queues', granted) ∧
      Places lock splitlock mine left granted right ∧ Transfers locks (front ++ (left ++ granted :: right) ++ back) queues queues' := by
  obtain ⟨fuel, rfl⟩ := Nat.exists_eq_succ_of_ne_zero (Nat.ne_of_gt (Nat.zero_lt_of_lt enough))
  obtain ⟨rfl, othersFront, -, othersBack, isPlace⟩ := together
  obtain ⟨_, isFound, finds⟩ := findOverlap_own splitlock validLock isOwn othersBack othersFront
  rw [grantLoop, append_assoc, isFound]
  cases finds with
  | @nothing _ rest isList whole apart place =>
    obtain rfl := place (.inr isPlace)
    have isRest : rest = backs lock splitlock mine ++ back := by simpa using isList.trans (congrArg (fun mine => front ++ (mine ++ back)) whole.symm)
    refine ⟨queues, _, _, _, by simp [linked, isRest], .between fun noWrap isMax lf mem infinite => ?_, transfers_subset (by grind)⟩
    exact (apart lf mem).elim (· infinite) fun starts => Int.not_le.mpr starts (noWrap isMax lf mem infinite).1
  | @overlap ovcase before rest lf isMine _ describes bounded behind isFronts isBacks whole =>
    subst isMine
    have ownTail := isOwn.sublist (sublist_append_right before (lf :: rest))
    have range := ownTail.validFirst.range
    have rangeLock := validLock.range
    have cuts (first : lock.lfEnd = offMax → lf.lfEnd = -1 → ¬ InsideSame lock lf)
        (noWrap : NoWrap lock (before ++ lf :: rest) (InsideSame lock)) : NoWrap lock (before ++ lf :: rest) fun _ => False := by
      intro isMax lf' mem infinite
      have inside := noWrap isMax lf' mem infinite
      rcases mem_append.mp mem with isBefore | mem
      · exact bounded lf' isBefore infinite
      · rcases mem_cons.mp mem with rfl | isLater
        · exact first isMax infinite inside
        · exact Int.not_le.mpr (behind lf' isLater) inside.1
    obtain ⟨freshLock, distinct⟩ := nodup_cons.mp (distinct.sublist (.cons_cons _ (sublist_cons_self _ _)))
    have distinctLinked : ((front ++ before ++ [lf] ++ lock :: (rest ++ back)).map (·.ref)).Nodup :=
      nodup_insert (by simpa using distinct) fun lf' mem sameRef => freshLock (sameRef ▸ mem_map_of_mem (by simpa using mem))
    -- once the lock is linked, the others start behind it
    have linkedLoop {queues₁ : Queues} (pieces : List Lockf) (isPiece : (pieces.map (·.ref)).Sublist [lf.ref])
        (first : Transfers (front ++ (before ++ lf :: rest) ++ back) (front ++ before ++ pieces ++ [lock] ++ (rest ++ back)) queues queues₁) :
        ∃ queues', grantLoop lock splitlock fuel queues₁ (front ++ before ++ pieces ++ [lock]) false (rest ++ back) =
            .ok (front ++ before ++ pieces ++ [lock] ++ backs lock splitlock rest ++ back, queues', lock) ∧
          Transfers (front ++ (before ++ lf :: rest) ++ back) (front ++ before ++ pieces ++ [lock] ++ backs lock splitlock rest ++ back)
            queues queues' := by
      have distinctPieces : ((front ++ before ++ pieces ++ [lock] ++ (rest ++ back)).map (·.ref)).Nodup := by
        refine distinctLinked.sublist ?_
        simpa using isPiece.append_right _
      have shorter : rest.length < fuel := by
        simp at enough
        omega
      obtain ⟨queues', isGranted, transfers⟩ := grantLoop_linked validLock ownTail.tail othersBack behind shorter queues₁ (by simp) distinctPieces
      exact ⟨queues', isGranted, first.trans transfers⟩
    cases ovcase with
    | equalsLock =>
      obtain ⟨_, _⟩ := describes
      exact ⟨_, _, _, _, by simp; rfl, .inside (by omega) (by omega), transfers_retype (by simp) (by grind)⟩
    | containsLock =>
      obtain ⟨_, finite, longer, notEqual⟩ := describes
      by_cases sameType : lf.lfType = lock.lfType
      · exact ⟨queues, _, _, _, by simp [← sameType], .inside (by omega) (.inl sameType), transfers_subset (by simp [← sameType])⟩
      refine ⟨queues.wakeLock lf true, _, _, _, ?_, .between (cuts fun _ _ inside => sameType inside.2), transfers_wake lf (.inl rfl) ?_⟩
      all_goals rw [isFronts, isBacks, whole (by omega)]
      · by_cases sameStart : lf.lfStart = lock.lfStart
        · have otherEnd : lf.lfEnd ≠ lock.lfEnd := fun sameEnd => notEqual ⟨sameStart, sameEnd⟩
          simp [Overlap.pieces, sameType, sameStart, otherEnd]
        · by_cases sameEnd : lf.lfEnd = lock.lfEnd <;> simp [Overlap.pieces, split, sameType, sameStart, sameEnd]
      · grind
    | containedByLock =>
      have contained : Transfers _ (front ++ before ++ [] ++ [lock] ++ (rest ++ back)) queues _ := transfers_contained distinctLinked
        (by simp) (by simp) (fun sameRef => freshLock (sameRef ▸ mem_map_of_mem (by simp))) (by grind) validLock ownTail.ownFirst describes
      obtain ⟨queues', isGranted, transfers⟩ := linkedLoop [] (nil_sublist _) ((transfers_subset (by grind)).trans contained)
      refine ⟨queues', fronts lock _, lock, backs lock splitlock _, ?_, .between (cuts (by have := describes.2; omega)), ?_⟩
      · simpa [linked, isFronts, isBacks, Overlap.pieces] using isGranted
      · simpa [isFronts, isBacks, Overlap.pieces] using transfers
    | startsBeforeLock =>
      obtain ⟨queues', isGranted, transfers⟩ := linkedLoop [{ lf with lfEnd := lock.lfStart - 1 }] (.refl _)
        (transfers_wake lf (.inl rfl) (by grind))
      refine ⟨queues', fronts lock _, lock, backs lock splitlock _, ?_, .between (cuts (by have := describes.2.2; omega)), ?_⟩
      · simpa [isFronts, isBacks, Overlap.pieces] using isGranted
      · simpa [isFronts, isBacks, Overlap.pieces] using transfers
    | endsAfterLock =>
      obtain ⟨_, finite, longer, _⟩ := describes
      refine ⟨queues.wakeLock lf true, _, _, _, ?_, .between (cuts fun _ _ inside => absurd inside.1 (by omega)), transfers_wake lf (.inl rfl) ?_⟩
      all_goals rw [isFronts, isBacks, whole (by omega)]
      · simp [linked, Overlap.pieces]
      · grind

end Setting

/-! ## Clearing -/

section Clearing

variable {unlock : Lockf} {splitlock : Ref}

/-- The loop of `lf_clearlock` clears the range among the locks of its owner. -/
theorem clearLoop_clear {front mine back : List Lockf} (validUnlock : unlock.Valid) (isOwn : Own unlock.lfId mine)
    (othersFront : ∀ lf ∈ front, lf.lfId ≠ unlock.lfId) (othersBack : ∀ lf ∈ back, lf.lfId ≠ unlock.lfId)
    (unlinked : ∀ lf ∈ mine, lf.ref ≠ unlock.ref) (freshSplit : splitlock ≠ unlock.ref) {fuel : Nat} (enough : mine.length < fuel)
    (queues : Queues) (done : List Lockf) : ∃ queues', clearLoop unlock splitlock fuel queues done (front ++ (mine ++ back)) =
        .ok (done ++ (front ++ (fronts unlock mine ++ backs unlock splitlock mine ++ back)), queues') ∧
      ((∀ lf ∈ mine, ¬ Apart lf unlock → WakesAll queues lf false) → Transfers (done ++ (front ++ (mine ++ back)))
        (done ++ (front ++ (fronts unlock mine ++ backs unlock splitlock mine ++ back))) queues queues') := by
  induction fuel generalizing front mine queues done with
  | zero => omega
  | succ fuel ih =>
    obtain ⟨_, isFound, finds⟩ := findOverlap_own splitlock validUnlock isOwn othersBack othersFront
    rw [clearLoop, isFound]
    cases finds with
    | nothing isList whole =>
      rw [whole, ← isList]
      exact ⟨queues, by simp, fun _ => transfers_subset (by simp)⟩
    | @overlap ovcase before rest lf isMine overlaps describes bounded behind isFronts isBacks whole =>
      subst isMine
      have ownTail := isOwn.sublist (sublist_append_right before (lf :: rest))
      have range := ownTail.validFirst.range
      have rangeUnlock := validUnlock.range
      obtain ⟨unlinkedFirst, unlinkedLater⟩ := forall_mem_cons.mp (forall_mem_append.mp unlinked).2
      rw [isFronts, isBacks]
      have woken (pieces : List Lockf) (wakesAll : ∀ lf' ∈ before ++ lf :: rest, ¬ Apart lf' unlock → WakesAll queues lf' false) :
          Transfers (done ++ (front ++ (before ++ lf :: rest ++ back))) (done ++ (front ++ (before ++ pieces)) ++ (rest ++ back)) queues
            (queues.wakeLock lf false) := transfers_wake lf (wakesAll lf (by simp) overlaps) (by grind)
      -- the search goes on behind the overlap
      have continued (pieces : List Lockf) : ∃ queues', clearLoop unlock splitlock fuel (queues.wakeLock lf false)
          (done ++ (front ++ (before ++ pieces))) (rest ++ back) =
            .ok (done ++ (front ++ (before ++ pieces)) ++ (backs unlock splitlock rest ++ back), queues') ∧
          ((∀ lf' ∈ before ++ lf :: rest, ¬ Apart lf' unlock → WakesAll queues lf' false) →
            Transfers (done ++ (front ++ (before ++ lf :: rest ++ back)))
              (done ++ (front ++ (before ++ pieces)) ++ (backs unlock splitlock rest ++ back)) queues queues') := by
        have noFronts : fronts unlock rest = [] := filterMap_eq_nil_iff.mpr fun lf mem => if_neg (Int.not_lt.mpr (Int.le_of_lt (behind lf mem)))
        obtain ⟨queues', isCleared, transfers⟩ := @ih [] rest ownTail.tail nofun unlinkedLater (by simp at enough; omega)
          (queues.wakeLock lf false) (done ++ (front ++ (before ++ pieces)))
        rw [noFronts] at isCleared transfers
        refine ⟨queues', isCleared, fun wakesAll => (woken pieces wakesAll).trans (transfers fun lf' mem overlaps' => ?_)⟩
        exact (wakesAll lf' (by simp [mem]) overlaps').wake (wakesAll lf (by simp) overlaps)
      cases ovcase with
      | equalsLock =>
        obtain ⟨_, _⟩ := describes
        rw [whole (by omega)]
        exact ⟨queues.wakeLock lf false, by simp [Overlap.pieces], by simpa using woken (_ ++ _)⟩
      | endsAfterLock =>
        obtain ⟨_, _, _, _⟩ := describes
        rw [whole (by omega)]
        exact ⟨queues.wakeLock lf false, by simp [Overlap.pieces], by simpa using woken (_ ++ _)⟩
      | containsLock =>
        obtain ⟨_, _, _, notEqual⟩ := describes
        rw [whole (by omega)]
        refine ⟨queues.wakeLock lf false, ?_, by simpa using woken (_ ++ _)⟩
        by_cases sameStart : lf.lfStart = unlock.lfStart
        · have otherEnd : lf.lfEnd ≠ unlock.lfEnd := fun sameEnd => notEqual ⟨sameStart, sameEnd⟩
          simp [Overlap.pieces, sameStart, otherEnd]
        · by_cases sameEnd : lf.lfEnd = unlock.lfEnd
          · simp [Overlap.pieces, split, sameStart, sameEnd, unlinkedFirst]
          · simp [Overlap.pieces, split, sameStart, sameEnd, unlinkedFirst, freshSplit]
      | containedByLock =>
        obtain ⟨queues', isCleared, transfers⟩ := continued []
        exact ⟨queues', by simpa [Overlap.pieces] using isCleared, by simpa [Overlap.pieces] using transfers⟩
      | startsBeforeLock =>
        obtain ⟨queues', isCleared, transfers⟩ := continued [{ lf with lfEnd := unlock.lfStart - 1 }]
        exact ⟨queues', by simpa [Overlap.pieces] using isCleared, by simpa [Overlap.pieces] using transfers⟩

end Clearing

end DarwinNotes.Xnu.Locks
