import DarwinNotes.Xnu.Locks.Coalesce

/-!
# The locks of all owners

Setting and clearing change the place of one owner on the list, so that the locks of the others
stay as they are, and together.
-/

namespace DarwinNotes.Xnu.Locks
open List

/-! ## Up to the last byte

A range with an explicit length that ends at the last byte and one without a length are the same bytes, but the number
behind the first comes round. A lock without a length that goes on behind it then starts at a negative
number; it is taken in if it has the same type.
-/

section LastByte

variable {lock last : Lockf} {splitlock : Ref} {init : List Lockf}

/-- The range without a length that has the same bytes. -/
def Lockf.unbounded (lock : Lockf) : Lockf := { lock with lfEnd := -1 }

theorem Lockf.Valid.unbounded (valid : lock.Valid) : lock.unbounded.Valid :=
  ⟨valid.nonneg, Int.le_trans valid.nonempty valid.inFile, Int.le_refl _, .inl rfl⟩

theorem covers_unbounded (isMax : lock.lfEnd = offMax) (byte : Int) : lock.unbounded.Covers byte ↔ lock.Covers byte := by
  simp [Lockf.Covers, Lockf.unbounded, Lockf.last, isMax]

/-- A lock in front of another one of the owner has a length, and does not end at the last byte. -/
theorem Own.bounded {lf : Lockf} {id : Nat} (isOwn : Own id (init ++ [last])) (mem : lf ∈ init) :
    lf.last < last.lfStart ∧ lf.lfEnd ≠ -1 ∧ lf.lfEnd < offMax := by
  have separate := ((pairwise_append.mp isOwn.coalesced).2.2 lf mem last mem_cons_self).1
  have range := (isOwn.valid last (by simp)).range
  have ends := (isOwn.valid lf (by simp [mem])).ends
  omega

theorem backs_last (isMax : lock.lfEnd = offMax) (isOwn : Own lock.lfId (init ++ [last])) (infinite : last.lfEnd = -1)
    (starts : lock.lfStart < last.lfStart) : backs lock splitlock (init ++ [last]) = [{ last with lfStart := offSucc offMax }] := by
  have range := (isOwn.valid last (by simp)).range
  have noBacks : backs lock splitlock init = [] := by
    refine filterMap_eq_nil_iff.mpr fun lf mem => if_neg ?_
    obtain ⟨-, finite, small⟩ := isOwn.bounded mem
    omega
  have isBack : backPiece lock splitlock last = some { last with lfStart := offSucc offMax } := by
    rw [backPiece, if_pos (by omega), if_neg (by rw [IsAfter]; omega), if_neg (by omega), isMax]
  rw [backs_append, noBacks, isBack]
  rfl

end LastByte

/-! ## Addresses -/

section Addresses

variable {front mine mine' back : List Lockf} {extra : List Ref}

theorem refs_replace (refs : (mine'.map (·.ref)).Subperm (extra ++ mine.map (·.ref))) :
    ((front ++ mine' ++ back).map (·.ref)).Subperm (extra ++ (front ++ mine ++ back).map (·.ref)) := by
  simp only [map_append, append_assoc]
  have inPlace := (subperm_append_left (front.map (·.ref))).mpr ((subperm_append_right (back.map (·.ref))).mpr refs)
  rw [append_assoc] at inPlace
  exact inPlace.trans (perm_append_comm_assoc _ _ _).subperm

theorem nodup_of_subperm {refs refs' : List Ref} (distinct : refs'.Nodup) (isSubperm : refs.Subperm refs') : refs.Nodup := by
  obtain ⟨_, isPerm, isSublist⟩ := isSubperm
  exact isPerm.nodup_iff.mp (distinct.sublist isSublist)

end Addresses

/-! ## Setting -/

/-- What has become of the locks of an owner. -/
structure Becomes (id : Nat) (mine : List Lockf) (extra : List Ref) (isHeld : Int → LockType → Prop) (mine' : List Lockf) : Prop where
  own : Own id mine'
  refs : (mine'.map (·.ref)).Subperm (extra ++ mine.map (·.ref))
  held : ∀ byte mode, HeldIn mine' byte mode ↔ isHeld byte mode

/-- The bytes that are held after a lock was set. -/
def SetIn (lock : Lockf) (mine : List Lockf) (byte : Int) (mode : LockType) : Prop :=
  (lock.Covers byte ∧ mode = lock.lfType) ∨ (¬ lock.Covers byte ∧ HeldIn mine byte mode)

section Setting

variable {lock : Lockf} {splitlock : Ref} {locks front mine back : List Lockf}

/-- What `lf_setlock` makes of the locks of an owner, and of the queues. -/
structure Sets (lock : Lockf) (splitlock : Ref) (locks front mine back : List Lockf) (queues : Queues) (mine' : List Lockf) (queues' : Queues) :
    Prop where
  isGranted : grant lock splitlock locks queues = .ok (front ++ mine' ++ back, queues')
  nonempty : mine' ≠ []
  becomes : Becomes lock.lfId mine [lock.ref, splitlock] (SetIn lock mine) mine'
  flags : ∀ lf ∈ mine', FlagsFrom (lock :: mine) lf
  transfers : Transfers locks (front ++ mine' ++ back) queues queues'

theorem Places.distinct {left right : List Lockf} {granted : Lockf} (places : Places lock splitlock mine left granted right)
    (validLock : lock.Valid) (isOwn : Own lock.lfId mine) (together : Together locks lock.lfId front mine back)
    (distinct : (lock.ref :: splitlock :: locks.map (·.ref)).Nodup) : ((front ++ (left ++ granted :: right) ++ back).map (·.ref)).Nodup := by
  rw [together.isList] at distinct
  have refs : ((left ++ granted :: right).map (·.ref)).Subperm ([lock.ref, splitlock] ++ mine.map (·.ref)) := places.refs validLock isOwn
  exact nodup_of_subperm distinct (refs_replace refs)

theorem FlagsFrom.trans {source source' : List Lockf} {lf : Lockf} (flags : FlagsFrom source' lf) (isSource : ∀ lf' ∈ source', FlagsFrom source lf') :
    FlagsFrom source lf := by
  obtain ⟨lf', mem', same'⟩ := flags
  obtain ⟨lf, mem, same⟩ := isSource lf' mem'
  exact ⟨lf, mem, same'.1.trans same.1, same'.2.1.trans same.2.1, fun isSafe => same.2.2 (same'.2.2 isSafe)⟩

variable (queues : Queues)

/-- `lf_setlock`, where nothing comes round. -/
theorem grant_noWrap (together : Together locks lock.lfId front mine back) (isOwn : Own lock.lfId mine) (validLock : lock.Valid)
    (noWrap : NoWrap lock mine (InsideSame lock)) (distinct : (lock.ref :: splitlock :: locks.map (·.ref)).Nodup) :
    ∃ mine' queues', Sets lock splitlock locks front mine back queues mine' queues' := by
  obtain ⟨queues₁, _, granted, _, isGranted, places, transfers⟩ :=
    grantLoop_places validLock isOwn together (Nat.lt_succ_self _) distinct queues
  have placed := places.placed validLock isOwn noWrap
  have ownGranted := placed.own
  obtain ⟨mine', queues', isMerged, nonempty, ownMerged, refs, flags, transfers', held⟩ := coalesceLoop_spec (.refl _) placed.valid
    (ownGranted ▸ placed.ownLeft) (ownGranted ▸ placed.ownRight) placed.front (ownGranted ▸ together.othersFront)
    (places.distinct validLock isOwn together distinct)
    (fun start valid queues _ distinct => coalesceLoop_right valid (ownGranted ▸ placed.ownRight) placed.behind granted rfl
      (ownGranted ▸ together.othersBack) queues (by simpa using distinct)) queues₁
  refine ⟨mine', queues', ?_, nonempty, ⟨ownGranted ▸ ownMerged, refs.subperm.trans (places.refs validLock isOwn), ?_⟩,
    fun lf mem => (flags lf mem).trans places.flags, transfers.trans transfers'⟩
  · rw [grant, isGranted]
    exact isMerged
  · intro byte mode
    rw [held, placed.held, SetIn]

/-- The lock goes up to the last byte, and the owner has a lock of the same type that goes on behind it. -/
theorem grant_wraps {init : List Lockf} {last : Lockf} (together : Together locks lock.lfId front (init ++ [last]) back)
    (isOwn : Own lock.lfId (init ++ [last])) (validLock : lock.Valid) (isMax : lock.lfEnd = offMax) (infinite : last.lfEnd = -1)
    (starts : lock.lfStart < last.lfStart) (sameType : last.lfType = lock.lfType)
    (distinct : (lock.ref :: splitlock :: locks.map (·.ref)).Nodup) :
    ∃ mine' queues', Sets lock splitlock locks front (init ++ [last]) back queues mine' queues' := by
  have rangeLock := validLock.range
  obtain ⟨queues₁, left, granted, right, isGranted, places, transfers⟩ :=
    grantLoop_places validLock isOwn together (Nat.lt_succ_self _) distinct queues
  have refs := places.refs validLock isOwn
  have flags := places.flags
  have distinctPlaced := places.distinct validLock isOwn together distinct
  generalize isMine : init ++ [last] = mine at places
  cases places with
  | @inside _ _ lf contains =>
    -- the lock that goes on starts behind the range, and no other one reaches the last byte
    have mem : lf ∈ init ++ [last] := by simp [isMine]
    rcases mem_append.mp mem with isFront | isLast
    · have bounded := isOwn.bounded isFront
      have range := (isOwn.valid last (by simp)).range
      omega
    · rw [mem_singleton.mp isLast] at contains
      omega
  | between =>
  subst isMine
  rw [backs_last isMax isOwn infinite starts] at isGranted transfers distinctPlaced refs flags
  have notInfinite : (-1 : Int) ≠ offMax := by decide
  have noBacks : backs lock.unbounded splitlock (init ++ [last]) = [] := filterMap_eq_nil_iff.mpr fun _ _ => if_neg fun longer => longer.1 rfl
  have placed : Placed lock.unbounded (init ++ [last]) (fronts lock (init ++ [last])) lock.unbounded (backs lock.unbounded splitlock _) :=
    placed_between validLock.unbounded isOwn fun isMax => absurd isMax notInfinite
  rw [noBacks] at placed
  generalize fronts lock (init ++ [last]) = left at placed isGranted transfers distinctPlaced refs flags
  have adjacent : lock.lfEnd ≠ -1 ∧ offSucc lock.lfEnd = offSucc offMax := by
    rw [isMax]
    exact ⟨by decide, rfl⟩
  obtain ⟨mine', queues', isMerged, nonempty, ownMerged, refs', flags', transfers', held⟩ := coalesceLoop_spec (nil_sublist _) validLock
    placed.ownLeft placed.ownRight placed.front together.othersFront distinctPlaced
    (fun start valid queues before distinct => by
      have otherRef : last.ref ≠ lock.ref := other_refs distinct { last with lfStart := offSucc offMax } (by simp)
      have kept : ¬ (last.ref = lock.ref ∨ last.lfId ≠ lock.lfId ∨ last.lfType ≠ lock.lfType) := by
        simp [otherRef, isOwn.own last (by simp), sameType]
      refine ⟨[], -1, queues.moveBlocked lock.ref last.ref, ?_, ⟨.refl _, valid.unbounded, nofun, fun byte mode => ?_⟩, ?_⟩
      · rw [singleton_append, coalesceLoop.eq_def]
        simp only
        rw [if_neg kept, if_neg fun adjacent => adjacent.1 infinite, if_pos adjacent, if_pos (by simp), infinite]
        apply coalesceLoop_end
        exact fun lf mem => .inr (.inl (together.othersBack lf mem))
      · have isMaxStart : ({ lock with lfStart := start } : Lockf).lfEnd = offMax := isMax
        rw [heldIn_cons, heldIn_cons, ← covers_unbounded isMaxStart]
        rfl
      · -- nobody waits for the lock that was cut off
        refine @transfers_absorb _ _ _ { last with lfStart := offSucc offMax } { lock with lfStart := start } (by simpa using distinct) (by simp)
          (by simp) otherRef { lock with lfStart := start, lfEnd := -1 } (by simp) (by grind) rfl valid.unbounded
          ⟨rfl, Int.le_refl _, .inl rfl, not_downgrade rfl⟩ fun validCut => absurd validCut.nonneg (by dsimp only; decide)) queues₁
  refine ⟨mine', queues', ?_, nonempty, ⟨ownMerged, refs'.subperm.trans refs, fun byte mode => ?_⟩, fun lf mem => (flags' lf mem).trans flags,
    transfers.trans transfers'⟩
  · rw [grant, isGranted]
    exact isMerged
  · have placedHeld := placed.held byte mode
    rw [heldIn_append, heldIn_cons, covers_unbounded isMax] at placedHeld
    rw [held, SetIn, heldIn_append, heldIn_cons]
    exact placedHeld

/-- The number behind the range comes round only where the lock that goes on has the same type. -/
def SameBehind (lock : Lockf) (mine : List Lockf) : Prop := lock.lfEnd = offMax → ∀ lf ∈ mine, lf.lfEnd = -1 → lf.lfType = lock.lfType

/-- A lock without a length is the last one of its owner. -/
theorem Own.isLast_of_infinite {init : List Lockf} {last lf : Lockf} {id : Nat} (isOwn : Own id (init ++ [last]))
    (mem : lf ∈ init ++ [last]) (infinite : lf.lfEnd = -1) : lf = last := by
  rcases mem_append.mp mem with isFront | isLast
  · exact absurd infinite (isOwn.bounded isFront).2.1
  · exact mem_singleton.mp isLast

/-- `lf_setlock` sets the lock for its owner. -/
theorem grant_spec (together : Together locks lock.lfId front mine back) (isOwn : Own lock.lfId mine) (validLock : lock.Valid)
    (sameBehind : SameBehind lock mine) (distinct : (lock.ref :: splitlock :: locks.map (·.ref)).Nodup) :
    ∃ mine' queues', Sets lock splitlock locks front mine back queues mine' queues' := by
  by_cases noWrap : NoWrap lock mine (InsideSame lock)
  · exact grant_noWrap queues together isOwn validLock noWrap distinct
  rw [NoWrap] at noWrap
  push Not at noWrap
  obtain ⟨isMax, lf, mem, infinite, cut⟩ := noWrap
  have sameType := sameBehind isMax lf mem infinite
  obtain rfl | ⟨_, _, rfl⟩ := eq_nil_or_concat mine
  · cases mem
  · rw [concat_eq_append] at *
    obtain rfl := isOwn.isLast_of_infinite mem infinite
    have starts := Int.not_le.mp fun starts => cut ⟨starts, sameType⟩
    exact grant_wraps queues together isOwn validLock isMax infinite starts sameType distinct

end Setting

/-! ## Clearing -/

/-- The bytes that are held after a range was cleared. -/
def ClearedIn (unlock : Lockf) (mine : List Lockf) (byte : Int) (mode : LockType) : Prop := HeldIn mine byte mode ∧ ¬ unlock.Covers byte

/-- `lf_clearlock` clears the range for its owner. -/
theorem clearLock_spec {unlock : Lockf} {splitlock : Ref} {locks front mine back : List Lockf}
    (together : Together locks unlock.lfId front mine back) (isOwn : Own unlock.lfId mine) (validUnlock : unlock.Valid)
    (noWrap : NoWrap unlock mine fun _ => False) (distinct : (unlock.ref :: splitlock :: locks.map (·.ref)).Nodup)
    (queues : Queues) : ∃ mine' queues', clearLock unlock splitlock locks queues = .ok (front ++ mine' ++ back, queues') ∧
      Becomes unlock.lfId mine [splitlock] (ClearedIn unlock mine) mine' ∧ (∀ lf ∈ mine', FlagsFrom mine lf) ∧
      ((∀ lf ∈ mine, ¬ Apart lf unlock → WakesAll queues lf false) → Transfers locks (front ++ mine' ++ back) queues queues') := by
  obtain ⟨rfl, othersFront, -, othersBack, -⟩ := together
  obtain ⟨unlinked, -⟩ := nodup_cons.mp distinct
  have otherRefs : ∀ lf ∈ mine, lf.ref ≠ unlock.ref := by
    intro lf mem sameRef
    have onList : lf ∈ front ++ mine ++ back := by simp [mem]
    exact unlinked (mem_cons_of_mem _ (sameRef ▸ mem_map_of_mem onList))
  have otherSplit : splitlock ≠ unlock.ref := fun same => unlinked (by simp [same])
  have enough : mine.length < (front ++ mine ++ back).length + 1 := by
    simp only [length_append]
    omega
  obtain ⟨queues', isCleared, transfers⟩ := clearLoop_clear validUnlock isOwn othersFront othersBack otherRefs otherSplit enough queues []
  have isSide := sides_append validUnlock (side_fronts validUnlock isOwn) (side_backs splitlock validUnlock isOwn noWrap)
  refine ⟨_, queues', ?_, ⟨{ isSide with }, refs_pieces splitlock validUnlock isOwn, isSide.held⟩, flags_pieces unlock splitlock mine, ?_⟩
  · simpa [clearLock] using isCleared
  · simpa using transfers

/-! ## The others -/

/-- The locks of each owner stand together, in order and coalesced. -/
def Grouped (locks : List Lockf) : Prop := ∀ id, ∃ front mine back, Together locks id front mine back ∧ Own id mine

theorem grouped_nil : Grouped [] :=
  fun _ => ⟨[], [], [], ⟨rfl, by simp, by simp, by simp, .inr rfl⟩, .nil, by simp, by simp⟩

section Others

variable {locks front mine mine' back : List Lockf} {id : Nat} (together : Together locks id front mine back)
include together

theorem Together.mem {lf : Lockf} : lf ∈ mine ↔ lf ∈ locks ∧ lf.lfId = id := by
  rw [together.isList, mem_append, mem_append]
  constructor
  · exact fun mem => ⟨.inl (.inr mem), together.own lf mem⟩
  · rintro ⟨(isFront | isMine) | isBack, isOwn⟩
    · exact absurd isOwn (together.othersFront lf isFront)
    · exact isMine
    · exact absurd isOwn (together.othersBack lf isBack)

omit together in
theorem Grouped.valid (grouped : Grouped locks) {lf : Lockf} (mem : lf ∈ locks) : lf.Valid := by
  obtain ⟨_, _, _, together, isOwn⟩ := grouped lf.lfId
  exact isOwn.valid lf (together.mem.mpr ⟨mem, rfl⟩)

/-- Locks of another owner that stand together are in front of those of the owner, or behind them. -/
theorem Together.place_other {other : Nat} (isOther : other ≠ id) {front₀ mine₀ back₀ : List Lockf}
    (isList : locks = front₀ ++ mine₀ ++ back₀) (own₀ : ∀ lf ∈ mine₀, lf.lfId = other) (nonempty₀ : mine₀ ≠ [])
    : (∃ between, front = front₀ ++ mine₀ ++ between ∧ back₀ = between ++ (mine ++ back)) ∨
      ∃ between, back = between ++ mine₀ ++ back₀ ∧ front₀ = front ++ mine ++ between := by
  have disjoint : ∀ lf, lf ∈ mine → lf ∉ mine₀ := by
    intro lf isMine isMine₀
    exact isOther ((own₀ lf isMine₀).symm.trans (together.own lf isMine))
  have isList' := together.isList.symm.trans isList
  rw [append_assoc, append_assoc] at isList'
  rcases append_eq_append_iff.mp isList' with ⟨between, rfl, isRest⟩ | ⟨between, rfl, isRest⟩
  · rcases append_eq_append_iff.mp isRest with ⟨between', rfl, isBack⟩ | ⟨between', rfl, isBack⟩
    · refine .inr ⟨between', ?_, ?_⟩
      · rw [isBack, append_assoc]
      · rw [append_assoc]
    · cases between' with
      | nil => exact .inr ⟨[], by simpa using isBack.symm, by simp⟩
      | cons =>
        obtain ⟨first, mine₀, rfl⟩ := exists_cons_of_ne_nil nonempty₀
        obtain rfl := (cons.inj isBack).1
        exact absurd mem_cons_self (disjoint first (by simp))
  · rcases append_eq_append_iff.mp isRest with ⟨between', rfl, isBack⟩ | ⟨between', rfl, isBack⟩
    · exact .inl ⟨between', by rw [append_assoc], isBack⟩
    cases between' with
    | nil => exact .inl ⟨[], by simp, by simpa using isBack.symm⟩
    | cons =>
      cases mine with
      | nil =>
        obtain rfl := together.place.resolve_left (fun nonempty => nonempty rfl)
        cases isBack
      | cons first =>
        obtain rfl := (cons.inj isBack).1
        exact absurd (mem_append_right _ mem_cons_self) (disjoint first mem_cons_self)

/-- Where the locks of an owner are replaced, those of another one stay together. -/
theorem Together.replace_other (ownNew : ∀ lf ∈ mine', lf.lfId = id) {other : Nat} (isOther : other ≠ id)
    {front₀ mine₀ back₀ : List Lockf} (togetherOther : Together locks other front₀ mine₀ back₀) :
    ∃ front' back', Together (front ++ mine' ++ back) other front' mine₀ back' := by
  have othersNew : ∀ lf ∈ mine', lf.lfId ≠ other := fun lf mem isOwn => isOther (isOwn.symm.trans (ownNew lf mem))
  obtain ⟨isList, othersFront, own, othersBack, isPlace⟩ := togetherOther
  by_cases isEmpty : mine₀ = []
  · obtain rfl := isPlace.resolve_left fun nonempty => nonempty isEmpty
    subst isEmpty
    have others : ∀ lf ∈ front ++ mine ++ back, lf.lfId ≠ other := by
      rw [← together.isList, isList, append_nil, append_nil]
      exact othersFront
    refine ⟨front ++ mine' ++ back, [], by simp, ?_, own, othersBack, isPlace⟩
    simp only [forall_mem_append] at others ⊢
    exact ⟨⟨others.1.1, othersNew⟩, others.2⟩
  · rcases together.place_other isOther isList own isEmpty with ⟨between, rfl, rfl⟩ | ⟨between, rfl, rfl⟩
    · refine ⟨front₀, between ++ (mine' ++ back), by simp, othersFront, own, ?_, .inl isEmpty⟩
      simp only [forall_mem_append] at othersBack ⊢
      exact ⟨othersBack.1, othersNew, othersBack.2.2⟩
    · refine ⟨front ++ mine' ++ between, back₀, by simp, ?_, own, othersBack, .inl isEmpty⟩
      simp only [forall_mem_append] at othersFront ⊢
      exact ⟨⟨othersFront.1.1, othersNew⟩, othersFront.2⟩

omit together

/-- The list stays grouped when the locks of one owner are replaced. -/
theorem Grouped.replace (grouped : Grouped locks) (together : Together locks id front mine back) (isOwn : Own id mine') :
    Grouped (front ++ mine' ++ back) := by
  intro other
  by_cases same : other = id
  · subst same
    by_cases isEmpty : mine' = []
    · subst isEmpty
      refine ⟨front ++ back, [], [], ⟨by simp, ?_, by simp, by simp, .inr rfl⟩, isOwn⟩
      exact forall_mem_append.mpr ⟨together.othersFront, together.othersBack⟩
    · exact ⟨front, mine', back, ⟨rfl, together.othersFront, isOwn.own, together.othersBack, .inl isEmpty⟩, isOwn⟩
  · obtain ⟨_, mine₀, _, togetherOther, ownOther⟩ := grouped other
    obtain ⟨front', back', togetherNew⟩ := together.replace_other isOwn.own same togetherOther
    exact ⟨front', mine₀, back', togetherNew, ownOther⟩

end Others

end DarwinNotes.Xnu.Locks
