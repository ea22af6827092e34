import DarwinNotes.Xnu.Locks.OwnLocks

/-!
# The bytes of an owner's locks

Placing a lock among the others of its owner changes the mode of the bytes of its range and
of no others, and clearing a range those of the range. The locks stay in order and apart.
-/

namespace DarwinNotes.Xnu.Locks
open List

/-! ## Bytes -/

def Lockf.Covers (lf : Lockf) (byte : Int) : Prop := lf.lfStart ≤ byte ∧ byte ≤ lf.last

/-- A byte is held in a mode. -/
def HeldIn (mine : List Lockf) (byte : Int) (mode : LockType) : Prop := ∃ lf ∈ mine, lf.Covers byte ∧ lf.lfType = mode

variable (mode : LockType)

theorem heldIn_nil (byte : Int) : ¬ HeldIn [] byte mode := by
  rintro ⟨_, mem, -⟩
  cases mem

theorem heldIn_cons (lf : Lockf) (mine : List Lockf) (byte : Int) :
    HeldIn (lf :: mine) byte mode ↔ (lf.Covers byte ∧ lf.lfType = mode) ∨ HeldIn mine byte mode := by
  simp [HeldIn]

theorem heldIn_append (front back : List Lockf) (byte : Int) :
    HeldIn (front ++ back) byte mode ↔ HeldIn front byte mode ∨ HeldIn back byte mode := by
  simp [HeldIn, or_and_right, exists_or]

variable {mine : List Lockf}

theorem HeldIn.behind {byte bound : Int} {mode : LockType} (held : HeldIn mine byte mode) (behind : ∀ lf ∈ mine, bound < lf.lfStart)
    : bound < byte := by
  obtain ⟨lf, mem, covers, -⟩ := held
  exact Int.lt_of_lt_of_le (behind lf mem) covers.1

theorem HeldIn.front {byte bound : Int} {mode : LockType} (held : HeldIn mine byte mode) (front : ∀ lf ∈ mine, lf.last < bound)
    : byte < bound := by
  obtain ⟨lf, mem, covers, -⟩ := held
  exact Int.lt_of_le_of_lt covers.2 (front lf mem)

variable {lf : Lockf}

theorem last_of_end {newEnd : Int} (finite : newEnd ≠ -1) : ({ lf with lfEnd := newEnd } : Lockf).last = newEnd := if_neg finite

theorem Lockf.Valid.withStart (valid : lf.Valid) {newStart : Int} (nonneg : 0 ≤ newStart) (nonempty : newStart ≤ lf.last) (newRef : Ref)
    : ({ lf with ref := newRef, lfStart := newStart } : Lockf).Valid := ⟨nonneg, nonempty, valid.inFile, valid.isEnd⟩

theorem Lockf.Valid.withEnd (valid : lf.Valid) {newEnd : Int} (nonempty : lf.lfStart ≤ newEnd) (inFile : newEnd ≤ offMax)
    : ({ lf with lfEnd := newEnd } : Lockf).Valid := by
  have nonneg := valid.nonneg
  have isLast : ({ lf with lfEnd := newEnd } : Lockf).last = newEnd := last_of_end (by omega)
  exact ⟨nonneg, Int.le_trans nonempty (Int.le_of_eq isLast.symm), Int.le_trans (Int.le_of_eq isLast) inFile, .inr isLast.symm⟩

theorem Lockf.Valid.withType (valid : lf.Valid) (newType : LockType) : ({ lf with lfType := newType } : Lockf).Valid :=
  { valid with }

/-! ## Both sides of a range -/

/-- Locks of an owner that hold those bytes of others that satisfy a condition. -/
structure Side (id : Nat) (mine : List Lockf) (isByte : Int → Prop) (side : List Lockf) : Prop where
  coalesced : Coalesced side
  valid : ∀ lf ∈ side, lf.Valid
  own : ∀ lf ∈ side, lf.lfId = id
  held : ∀ byte mode, HeldIn side byte mode ↔ HeldIn mine byte mode ∧ isByte byte

section Sides

variable {id : Nat} {mine side : List Lockf} {isByte : Int → Prop}

theorem Side.start (isSide : Side id mine isByte side) (mem : lf ∈ side) : isByte lf.lfStart :=
  ((isSide.held lf.lfStart lf.lfType).mp ⟨lf, mem, ⟨Int.le_refl _, (isSide.valid lf mem).nonempty⟩, rfl⟩).2

theorem Side.last (isSide : Side id mine isByte side) (mem : lf ∈ side) : isByte lf.last :=
  ((isSide.held lf.last lf.lfType).mp ⟨lf, mem, ⟨(isSide.valid lf mem).nonempty, Int.le_refl _⟩, rfl⟩).2

/-- The bytes of a lock that satisfy a condition, as another lock. -/
structure Piece (isByte : Int → Prop) (lf lf' : Lockf) : Prop where
  valid : lf'.Valid
  sameId : lf'.lfId = lf.lfId
  sameType : lf'.lfType = lf.lfType
  covers : ∀ byte, lf'.Covers byte ↔ lf.Covers byte ∧ isByte byte

theorem side_pieces (isOwn : Own id mine) {piece : Lockf → Option Lockf} (isPiece : ∀ lf ∈ mine, ∀ lf', piece lf = some lf' → Piece isByte lf lf')
    (isNone : ∀ lf ∈ mine, piece lf = none → ∀ byte, lf.Covers byte → ¬ isByte byte) : Side id mine isByte (mine.filterMap piece) := by
  refine ⟨pairwise_filterMap.mpr (isOwn.coalesced.imp_of_mem ?_), ?_, ?_, fun byte mode => ⟨?_, ?_⟩⟩
  · intro a b memA memB separate a' isA b' isB
    obtain ⟨validA, -, typeA, coversA⟩ := isPiece a memA a' isA
    obtain ⟨validB, -, typeB, coversB⟩ := isPiece b memB b' isB
    obtain ⟨⟨_, _⟩, -⟩ := (coversA a'.last).mp ⟨validA.nonempty, Int.le_refl _⟩
    obtain ⟨⟨_, _⟩, -⟩ := (coversB b'.lfStart).mp ⟨Int.le_refl _, validB.nonempty⟩
    rw [Separate] at separate
    rw [Separate, typeA, typeB]
    exact ⟨by omega, fun same => by have := separate.2 same; omega⟩
  · exact forall_mem_filterMap.mpr fun lf mem lf' isSome => (isPiece lf mem lf' isSome).valid
  · exact forall_mem_filterMap.mpr fun lf mem lf' isSome => (isPiece lf mem lf' isSome).sameId.trans (isOwn.own lf mem)
  · rintro ⟨lf', isSome, covers, rfl⟩
    obtain ⟨lf, mem, isSome⟩ := mem_filterMap.mp isSome
    obtain ⟨-, -, sameType, isCovers⟩ := isPiece lf mem lf' isSome
    obtain ⟨covers, holds⟩ := (isCovers byte).mp covers
    exact ⟨⟨lf, mem, covers, sameType.symm⟩, holds⟩
  · rintro ⟨⟨lf, mem, covers, rfl⟩, holds⟩
    cases isSome : piece lf with
    | none => exact absurd holds (isNone lf mem isSome byte covers)
    | some lf' =>
      obtain ⟨-, -, sameType, isCovers⟩ := isPiece lf mem lf' isSome
      exact ⟨lf', mem_filterMap.mpr ⟨lf, mem, isSome⟩, (isCovers byte).mpr ⟨covers, holds⟩, sameType⟩

variable {range : Lockf} (splitlock : Ref) (validRange : range.Valid)
include validRange

theorem side_fronts (isOwn : Own id mine) : Side id mine (· < range.lfStart) (fronts range mine) := by
  have rangeRange := validRange.range
  refine side_pieces isOwn (fun lf mem lf' isSome => ?_) fun lf mem isNone byte covers => ?_
  all_goals
    have valid := isOwn.valid lf mem
    have rangeLf := valid.range
  · rw [frontPiece, Option.ite_none_right_eq_some] at isSome
    obtain ⟨starts, isSome⟩ := isSome
    obtain rfl := Option.some.inj isSome
    split
    case isTrue isBefore =>
      obtain ⟨_, _⟩ := isBefore
      exact ⟨valid, rfl, rfl, fun byte => ⟨fun covers => ⟨covers, by have := covers.2; omega⟩, And.left⟩⟩
    case isFalse notBefore =>
      rw [IsBefore] at notBefore
      have isLast : ({ lf with lfEnd := range.lfStart - 1 } : Lockf).last = range.lfStart - 1 := last_of_end (by omega)
      refine ⟨valid.withEnd (by omega) (by omega), rfl, rfl, fun byte => ?_⟩
      rw [Lockf.Covers, Lockf.Covers, isLast]
      simp only
      omega
  · have notStarts : ¬ lf.lfStart < range.lfStart := fun starts => by cases isNone.symm.trans (if_pos starts)
    have := covers.1
    omega

theorem side_backs (isOwn : Own id mine) (noWrap : NoWrap range mine fun _ => False) :
    Side id mine (range.last < ·) (backs range splitlock mine) := by
  have rangeRange := validRange.range
  refine side_pieces isOwn (fun lf mem lf' isSome => ?_) fun lf mem isNone byte covers => ?_
  all_goals
    have valid := isOwn.valid lf mem
    have rangeLf := valid.range
    have notMax : ¬ (range.lfEnd = offMax ∧ lf.lfEnd = -1) := fun both => noWrap both.1 lf mem both.2
  · rw [backPiece, Option.ite_none_right_eq_some] at isSome
    obtain ⟨longer, isSome⟩ := isSome
    obtain rfl := Option.some.inj isSome
    split
    case isTrue isAfter =>
      obtain ⟨_, _⟩ := isAfter
      exact ⟨valid, rfl, rfl, fun byte => ⟨fun covers => ⟨covers, by have := covers.1; omega⟩, And.left⟩⟩
    case isFalse notAfter =>
      rw [IsAfter] at notAfter
      rw [offSucc_eq (by omega) (by omega)]
      refine ⟨valid.withStart (by omega) (by omega) _, rfl, rfl, fun byte => ?_⟩
      have isLast : ∀ ref start, ({ lf with ref := ref, lfStart := start } : Lockf).last = lf.last := fun _ _ => rfl
      rw [Lockf.Covers, Lockf.Covers, isLast]
      simp only
      omega
  · have notLonger : ¬ (range.lfEnd ≠ -1 ∧ (range.lfEnd < lf.lfEnd ∨ lf.lfEnd = -1)) := fun longer => by cases isNone.symm.trans (if_pos longer)
    have := covers.2
    omega

/-- A lock that is cut in two needs the other address. -/
theorem refs_pieces (isOwn : Own id mine) :
    ((fronts range mine ++ backs range splitlock mine).map (·.ref)).Subperm (splitlock :: mine.map (·.ref)) := by
  induction mine with
  | nil => exact nil_subperm
  | cons lf mine ih =>
    have refs := ih isOwn.tail
    have rangeRange := validRange.range
    have rangeLf := isOwn.validFirst.range
    have refsCons := ((subperm_cons lf.ref).mpr refs).trans (List.Perm.swap _ _ _).subperm
    have isFronts : fronts range (lf :: mine) = (frontPiece range lf).toList ++ fronts range mine := fronts_append []
    have isBacks : backs range splitlock (lf :: mine) = (backPiece range splitlock lf).toList ++ backs range splitlock mine := backs_append splitlock []
    have frontRef : ∀ piece, frontPiece range lf = some piece → piece.ref = lf.ref ∧ lf.lfStart < range.lfStart := by grind [frontPiece]
    have backRef : ∀ piece, backPiece range splitlock lf = some piece →
        piece.ref = (if lf.lfStart < range.lfStart then splitlock else lf.ref) ∧ range.last ≤ lf.last := by
      grind [backPiece, IsAfter]
    rw [isFronts, isBacks]
    cases isBack : backPiece range splitlock lf with
    | none =>
      cases isFront : frontPiece range lf with
      | none => exact refs.trans (List.Sublist.subperm (.cons_cons _ (.cons _ (.refl _))))
      | some piece => simpa [(frontRef piece isFront).1] using refsCons
    | some piece =>
      obtain ⟨isRef, reaches⟩ := backRef piece isBack
      obtain ⟨noFronts, whole⟩ := pieces_after splitlock validRange isOwn.tail.valid fun lf' mem =>
        Int.lt_of_le_of_lt reaches (isOwn.behind lf' mem)
      rw [noFronts, whole]
      cases isFront : frontPiece range lf with
      | none =>
        rw [if_neg fun starts => by cases isFront.symm.trans (if_pos starts)] at isRef
        simpa [isRef] using List.Sublist.subperm (.cons splitlock (.refl (lf.ref :: mine.map (·.ref))))
      | some front =>
        obtain ⟨isFrontRef, starts⟩ := frontRef front isFront
        rw [if_pos starts] at isRef
        simpa [isFrontRef, isRef] using (List.Perm.swap _ _ _).subperm

/-- The two sides of the range together are all the bytes outside of it. -/
theorem sides_append {left right : List Lockf} (isLeft : Side id mine (· < range.lfStart) left)
    (isRight : Side id mine (range.last < ·) right) : Side id mine (fun byte => ¬ range.Covers byte) (left ++ right) := by
  have nonempty := validRange.nonempty
  refine ⟨pairwise_append.mpr ⟨isLeft.coalesced, isRight.coalesced, ?_⟩,
    forall_mem_append.mpr ⟨isLeft.valid, isRight.valid⟩, forall_mem_append.mpr ⟨isLeft.own, isRight.own⟩, ?_⟩
  · intro lf isLeftLock lf' isRightLock
    have before := isLeft.last isLeftLock
    have behind := isRight.start isRightLock
    exact ⟨by omega, fun _ => by omega⟩
  · intro byte mode
    rw [heldIn_append, isLeft.held, isRight.held, Lockf.Covers]
    grind

end Sides

/-! ## Flags -/

/-- A lock has its owner and its flags from another one; only the permission to wake one request is ever taken away. -/
def SameFlags (lf lf' : Lockf) : Prop := lf'.posix = lf.posix ∧ lf'.lfId = lf.lfId ∧ (lf'.wake1Safe = true → lf.wake1Safe = true)

def FlagsFrom (source : List Lockf) (lf' : Lockf) : Prop := ∃ lf ∈ source, SameFlags lf lf'

variable {source : List Lockf}

theorem flagsFrom_self {lf : Lockf} (mem : lf ∈ source) : FlagsFrom source lf := ⟨lf, mem, rfl, rfl, id⟩

/-- The other fields may change. -/
theorem FlagsFrom.change {lf : Lockf} (flags : FlagsFrom source lf) (ref : Ref) (lfType : LockType) (start last : Int) :
    FlagsFrom source { lf with ref := ref, lfType := lfType, lfStart := start, lfEnd := last } := by
  obtain ⟨lf', mem, same⟩ := flags
  exact ⟨lf', mem, same⟩

theorem FlagsFrom.mono {source' : List Lockf} (isSubset : ∀ lf ∈ source, lf ∈ source') (flags : FlagsFrom source lf) : FlagsFrom source' lf := by
  obtain ⟨lf', mem, same⟩ := flags
  exact ⟨lf', isSubset lf' mem, same⟩

theorem flags_pieces (range : Lockf) (splitlock : Ref) (mine : List Lockf) :
    ∀ lf ∈ fronts range mine ++ backs range splitlock mine, FlagsFrom mine lf := by
  refine forall_mem_append.mpr ⟨forall_mem_filterMap.mpr fun lf mem piece isPiece => ?_, forall_mem_filterMap.mpr fun lf mem piece isPiece => ?_⟩
  · exact ⟨lf, mem, by grind [frontPiece, SameFlags]⟩
  · exact ⟨lf, mem, by grind [backPiece, SameFlags]⟩

/-! ## Placing a lock -/

section Setting

variable {lock : Lockf} {splitlock : Ref}

/-- A lock was placed among those of its owner. -/
structure Placed (lock : Lockf) (mine left : List Lockf) (granted : Lockf) (right : List Lockf) : Prop where
  ownLeft : Own lock.lfId left
  ownRight : Own lock.lfId right
  front : ∀ lf ∈ left, lf.last < granted.lfStart
  behind : ∀ lf ∈ right, granted.last < lf.lfStart
  valid : granted.Valid
  own : granted.lfId = lock.lfId
  held : ∀ byte mode, HeldIn (left ++ granted :: right) byte mode ↔
    (lock.Covers byte ∧ mode = lock.lfType) ∨ (¬ lock.Covers byte ∧ HeldIn mine byte mode)

variable (validLock : lock.Valid) (isOwn : Own lock.lfId mine)
include validLock isOwn

/-- The lock goes between what is left of the others on both sides of its range. -/
theorem placed_between (noWrap : NoWrap lock mine fun _ => False) :
    Placed lock mine (fronts lock mine) lock (backs lock splitlock mine) := by
  have isLeft := side_fronts validLock isOwn
  have isRight := side_backs splitlock validLock isOwn noWrap
  refine ⟨{ isLeft with }, { isRight with }, fun _ => isLeft.last, fun _ => isRight.start, validLock, rfl, fun byte mode => ?_⟩
  rw [heldIn_append, heldIn_cons, isLeft.held, isRight.held, Lockf.Covers]
  grind

variable {left right : List Lockf} {granted : Lockf} (places : Places lock splitlock mine left granted right)
include places

theorem Places.refs : ((left ++ granted :: right).map (·.ref)).Subperm (lock.ref :: splitlock :: mine.map (·.ref)) := by
  cases places with
  | between =>
    have refs := refs_pieces splitlock validLock isOwn
    rw [map_append, map_cons]
    rw [map_append] at refs
    exact perm_middle.subperm.trans ((subperm_cons _).mpr refs)
  | inside =>
    rw [map_append, map_append]
    exact List.Sublist.subperm (.cons _ (.cons _ (.refl _)))

omit validLock isOwn in
/-- The lock that is placed has its own flags, or those of the lock that it becomes part of. -/
theorem Places.flags : ∀ lf ∈ left ++ granted :: right, FlagsFrom (lock :: mine) lf := by
  cases places with
  | inside =>
    rw [forall_mem_append, forall_mem_cons]
    exact ⟨fun lf mem => flagsFrom_self (by simp [mem]), .change (flagsFrom_self (by simp)) _ _ _ _, fun lf mem => flagsFrom_self (by simp [mem])⟩
  | between =>
    have flags := fun lf mem => (flags_pieces lock splitlock mine lf mem).mono fun _ => mem_cons_of_mem lock
    simp only [forall_mem_append, forall_mem_cons] at flags ⊢
    exact ⟨flags.1, flagsFrom_self mem_cons_self, flags.2⟩

theorem Places.placed (noWrap : NoWrap lock mine (InsideSame lock)) : Placed lock mine left granted right := by
  cases places with
  | between cuts => exact placed_between validLock isOwn (cuts noWrap)
  | @inside _ _ lf contains same =>
    have separate := (pairwise_append.mp isOwn.coalesced).2.2
    have front : ∀ lf' ∈ left, lf'.last < lf.lfStart := fun lf' mem => (separate lf' mem lf mem_cons_self).1
    have isOwn' := isOwn.sublist (sublist_append_right left (lf :: right))
    refine ⟨isOwn.sublist (sublist_append_left _ _), isOwn'.tail, front, isOwn'.behind, isOwn'.validFirst.withType _, isOwn'.ownFirst,
      fun byte mode => ?_⟩
    have earlier : HeldIn left byte mode → byte < lf.lfStart := fun held => held.front front
    have later : HeldIn right byte mode → lf.last < byte := fun held => held.behind isOwn'.behind
    have isLast : ({ lf with lfType := lock.lfType } : Lockf).last = lf.last := rfl
    simp only [heldIn_append, heldIn_cons, Lockf.Covers, isLast]
    grind

end Setting

end DarwinNotes.Xnu.Locks
