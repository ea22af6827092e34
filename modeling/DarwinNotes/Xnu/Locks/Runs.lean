import DarwinNotes.Xnu.Locks.Owners

/-!
# The locks as a map of bytes

The locks of a file say in which mode each owner holds each byte. Requests change this map, and they are answered by
it, as long as no lock that has no length is cut off at the last byte.
-/

namespace DarwinNotes.Xnu.Locks
open List

/-! ## The map -/

/-- The mode in which each owner holds each byte. -/
abbrev Held := Nat → Int → Option LockType

def InRange (start last byte : Int) : Prop := start ≤ byte ∧ byte ≤ if last = -1 then offMax else last

instance (start last byte : Int) : Decidable (InRange start last byte) := inferInstanceAs (Decidable (_ ∧ _))

/-- Some byte of the range is held by another owner in a conflicting mode. -/
def Held.Conflict (held : Held) (id : Nat) (mode : LockType) (start last : Int) : Prop :=
  ∃ owner byte mode', owner ≠ id ∧ InRange start last byte ∧ held owner byte = some mode' ∧ (mode = .wrlck ∨ mode' = .wrlck)

/-- An owner's bytes of the range are set to a mode, or made unlocked. -/
def Held.set (held : Held) (id : Nat) (start last : Int) (mode : Option LockType) : Held :=
  fun owner byte => if owner = id ∧ InRange start last byte then mode else held owner byte

/-- What a request is to do, and to answer. -/
inductive Meets (held : Held) (request : Request) : Held → Answer → Prop
  /-- A range that is not accepted is only reported if there are any locks. -/
  | rejected {errno : Errno} (isError : request.range = .error errno) {answer : Answer}
    (reported : answer = .error errno ∨ ∀ owner byte, held owner byte = none) : Meets held request held answer
  | refused {start last : Int} (accepted : request.range = .ok (start, last)) (isOp : request.op = .setlk)
    (conflict : held.Conflict request.id request.lType start last) : Meets held request held (.error .EAGAIN)
  | granted {start last : Int} (accepted : request.range = .ok (start, last)) (isOp : request.op = .setlk)
    (free : ¬ held.Conflict request.id request.lType start last) : Meets held request (held.set request.id start last request.lType) .done
  | unlocked {start last : Int} (accepted : request.range = .ok (start, last)) (isOp : request.op = .unlck) :
    Meets held request (held.set request.id start last none) .done
  | tested {start last : Int} (accepted : request.range = .ok (start, last)) (isOp : request.op = .getlk)
    {answer : Option Flock} (reported : answer.isSome ↔ held.Conflict request.id request.lType start last) :
    Meets held request held (.flock answer)

/-! ## The map of a list -/

instance (lf : Lockf) (byte : Int) : Decidable (lf.Covers byte) := inferInstanceAs (Decidable (_ ∧ _))

/-- The map that the locks stand for. -/
def held (locks : List Lockf) : Held :=
  fun owner byte => (locks.find? fun lf => lf.lfId = owner ∧ lf.Covers byte).map (·.lfType)

section Lists

variable {locks front mine back : List Lockf} {id : Nat}

/-- The locks of an owner do not overlap. -/
theorem Own.mode_unique (isOwn : Own id mine) {byte : Int} {mode mode' : LockType} (isHeld : HeldIn mine byte mode)
    (isHeld' : HeldIn mine byte mode') : mode = mode' := by
  induction mine with
  | nil => exact absurd isHeld (heldIn_nil mode byte)
  | cons lf mine ih =>
    rw [heldIn_cons] at isHeld isHeld'
    have behind : ∀ mode, HeldIn mine byte mode → lf.last < byte := fun mode later => later.behind isOwn.behind
    rcases isHeld with ⟨covers, rfl⟩ | later <;> rcases isHeld' with ⟨covers', rfl⟩ | later'
    · rfl
    · exact absurd covers.2 (Int.not_le.mpr (behind _ later'))
    · exact absurd covers'.2 (Int.not_le.mpr (behind _ later))
    · exact ih isOwn.tail later later'

theorem held_eq_some (together : Together locks id front mine back) (isOwn : Own id mine) (byte : Int) (mode : LockType) :
    held locks id byte = some mode ↔ HeldIn mine byte mode := by
  have found : ∀ mode, held locks id byte = some mode → HeldIn mine byte mode := by
    intro mode isMode
    obtain ⟨lf, isFound, rfl⟩ := Option.map_eq_some_iff.mp isMode
    have isLock := find?_some isFound
    rw [decide_eq_true_eq] at isLock
    exact ⟨lf, together.mem.mpr ⟨mem_of_find?_eq_some isFound, isLock.1⟩, isLock.2, rfl⟩
  refine ⟨found mode, fun isHeld => ?_⟩
  cases isMode : held locks id byte with
  | some mode' => rw [isOwn.mode_unique isHeld (found mode' isMode)]
  | none =>
    obtain ⟨lf, mem, covers, -⟩ := isHeld
    obtain ⟨onList, isId⟩ := together.mem.mp mem
    have isNone := find?_eq_none.mp (Option.map_eq_none_iff.mp isMode) lf onList
    exact absurd (decide_eq_true (And.intro isId covers)) isNone

theorem Grouped.held_iff (grouped : Grouped locks) (owner : Nat) (byte : Int) (mode : LockType) :
    held locks owner byte = some mode ↔ ∃ lf ∈ locks, lf.lfId = owner ∧ lf.Covers byte ∧ lf.lfType = mode := by
  obtain ⟨_, _, _, together, isOwn⟩ := grouped owner
  rw [held_eq_some together isOwn, HeldIn]
  simp only [together.mem, and_assoc]

theorem Grouped.held_set (grouped : Grouped locks) (together : Together locks id front mine back) (isOwn : Own id mine) {mine' : List Lockf}
    (isOwn' : Own id mine') {start last : Int} {mode : Option LockType}
    (isHeld : ∀ byte mode', HeldIn mine' byte mode' ↔ (InRange start last byte ∧ mode = some mode') ∨ (¬ InRange start last byte ∧ HeldIn mine byte mode'))
    : held (front ++ mine' ++ back) = (held locks).set id start last mode := by
  funext owner byte
  refine Option.ext fun mode' => ?_
  have others (lf : Lockf) (isOther : lf ∈ front ∨ lf ∈ back) : lf.lfId ≠ id := isOther.elim (together.othersFront lf) (together.othersBack lf)
  rw [(grouped.replace together isOwn').held_iff, Held.set]
  by_cases isId : owner = id
  · subst isId
    have isMine : (∃ lf ∈ front ++ mine' ++ back, lf.lfId = owner ∧ lf.Covers byte ∧ lf.lfType = mode') ↔ HeldIn mine' byte mode' := by
      refine exists_congr fun lf => ?_
      have := others lf
      have := isOwn'.own lf
      rw [mem_append, mem_append]
      tauto
    rw [isMine, isHeld, ← held_eq_some together isOwn]
    by_cases inRange : InRange start last byte
    · simp [inRange]
    · simp [inRange]
  · rw [if_neg fun both => isId both.1, grouped.held_iff, together.isList]
    refine exists_congr fun lf => ?_
    have := together.own lf
    have := isOwn'.own lf
    grind

end Lists

/-! ## Conflicts -/

/-- Ranges that are not apart have a byte in common. -/
theorem overlaps_iff {lf lock : Lockf} (valid : lf.Valid) (validLock : lock.Valid) :
    ¬ Apart lf lock ↔ ∃ byte, lf.Covers byte ∧ lock.Covers byte := by
  have range := valid.range
  have rangeLock := validLock.range
  rw [Apart]
  constructor
  · intro overlaps
    refine ⟨max lf.lfStart lock.lfStart, ⟨?_, ?_⟩, ?_, ?_⟩ <;> omega
  · rintro ⟨byte, ⟨_, _⟩, _, _⟩
    omega

theorem Grouped.conflict_iff {locks : List Lockf} (grouped : Grouped locks) {lock : Lockf} (validLock : lock.Valid) :
    (held locks).Conflict lock.lfId lock.lfType lock.lfStart lock.lfEnd ↔ ∃ lf ∈ locks, Blocks lf lock := by
  constructor
  · rintro ⟨owner, byte, mode, isOther, inRange, isHeld, conflicts⟩
    obtain ⟨lf, mem, rfl, covers, rfl⟩ := (grouped.held_iff owner byte mode).mp isHeld
    exact ⟨lf, mem, isOther, (overlaps_iff (grouped.valid mem) validLock).mpr ⟨byte, covers, inRange⟩, conflicts⟩
  · rintro ⟨lf, mem, isOther, overlaps, conflicts⟩
    obtain ⟨byte, covers, inRange⟩ := (overlaps_iff (grouped.valid mem) validLock).mp overlaps
    exact ⟨lf.lfId, byte, lf.lfType, isOther, inRange, (grouped.held_iff _ _ _).mpr ⟨lf, mem, rfl, covers, rfl⟩, conflicts⟩

/-! ## One request -/

/-- The locks have addresses of their own. -/
structure State.Good (state : State) : Prop where
  grouped : Grouped state.locks
  distinct : (state.locks.map (·.ref)).Nodup
  allocated : ∀ ref ∈ state.locks.map (·.ref), ref < state.fresh

/-- A lock without a length is cut off at the last byte: the request ends there and has a length, and it makes
the bytes of the owner's lock unlocked or changes their mode. -/
def CutsUnbounded (state : State) (request : Request) : Prop :=
  ∃ start, request.range = .ok (start, offMax) ∧ ∃ lf ∈ state.locks, lf.lfId = request.id ∧ lf.lfEnd = -1 ∧
    (request.op = .unlck ∨ (request.op = .setlk ∧ lf.lfType ≠ request.lType ∧
      ¬ (held state.locks).Conflict request.id request.lType start offMax))

variable {state : State} (good : state.Good)
include good

theorem State.Good.fresh_distinct : (state.fresh :: (state.fresh + 1) :: state.locks.map (·.ref)).Nodup := by
  rw [nodup_cons, nodup_cons, mem_cons]
  refine ⟨?_, ?_, good.distinct⟩
  · rintro (same | mem)
    · exact Nat.succ_ne_self _ same.symm
    · exact Nat.lt_irrefl _ (good.allocated _ mem)
  · intro mem
    exact Nat.not_succ_lt_self (good.allocated _ mem)

/-- A state after the locks of one owner were replaced. -/
theorem State.Good.replace {id : Nat} {front mine back mine' : List Lockf} (together : Together state.locks id front mine back)
    (isOwn : Own id mine') {extra : List Ref} (refs : (mine'.map (·.ref)).Subperm (extra ++ mine.map (·.ref)))
    (isExtra : extra.Sublist [state.fresh, state.fresh + 1]) (queues : Queues)
    : State.Good { locks := front ++ mine' ++ back, queues := queues, fresh := state.fresh + 2 } := by
  have refsNew : ((front ++ mine' ++ back).map (·.ref)).Subperm ([state.fresh, state.fresh + 1] ++ state.locks.map (·.ref)) := by
    rw [together.isList]
    exact (refs_replace refs).trans (isExtra.append (.refl _)).subperm
  refine ⟨good.grouped.replace together isOwn, nodup_of_subperm good.fresh_distinct refsNew, ?_⟩
  intro ref mem
  have isOld := refsNew.subset mem
  simp only [cons_append, nil_append, mem_cons] at isOld
  rcases isOld with rfl | rfl | isOld
  · exact Nat.lt_add_of_pos_right (by decide)
  · exact Nat.lt_succ_self _
  · exact Nat.lt_add_right 2 (good.allocated ref isOld)

theorem State.Good.bump : State.Good { state with fresh := state.fresh + 2 } :=
  ⟨good.grouped, good.distinct, fun ref mem => Nat.lt_add_right 2 (good.allocated ref mem)⟩

variable {start last : Int}

variable {request : Request}

omit good in
/-- Without any locks there is nothing to unlock or to report. -/
theorem empty_meets (isOp : request.op ≠ .setlk) :
    Meets (held []) request (held []) (match request.op with | .getlk => .flock none | _ => .done) := by
  have isNone : ∀ owner byte, held [] owner byte = none := fun _ _ => rfl
  cases isRange : request.range with
  | error => exact .rejected isRange (.inr isNone)
  | ok range =>
    obtain ⟨start, last⟩ := range
    cases isOp' : request.op with
    | setlk => exact absurd isOp' isOp
    | unlck =>
      have unchanged : (held []).set request.id start last none = held [] := by
        funext owner byte
        rw [Held.set, isNone, ite_self]
      have unlocked : Meets (held []) request _ _ := .unlocked isRange isOp'
      rwa [unchanged] at unlocked
    | getlk =>
      have noConflict : ¬ (held []).Conflict request.id request.lType start last := by
        rintro ⟨owner, byte, _, -, -, isHeld, -⟩
        cases isHeld
      exact .tested isRange isOp' (by simp [noConflict])

/-- `lf_setlock` without waiting. -/
theorem setlk_meets (whole : ¬ CutsUnbounded state request) (accepted : request.range = .ok (start, last)) (isOp : request.op = .setlk) :
    ∃ state' answer, state.setLock (request.lockf state.fresh start last) = .ok (state', answer) ∧ state'.Good ∧
      Meets (held state.locks) request (held state'.locks) answer := by
  have valid := Request.range_valid accepted state.fresh
  obtain ⟨block, isBlock, spec⟩ := getBlock_spec (request.lockf state.fresh start last) state.locks
  rw [State.setLock, isBlock]
  have conflict := good.grouped.conflict_iff valid
  cases block with
  | some lf => exact ⟨_, _, rfl, good.bump, .refused accepted isOp (conflict.mpr ⟨lf, spec⟩)⟩
  | none =>
    have free : ¬ (held state.locks).Conflict request.id request.lType start last := by
      intro isConflict
      obtain ⟨lf, mem, blocks⟩ := conflict.mp isConflict
      exact spec lf mem blocks
    obtain ⟨front, mine, back, together, isOwn⟩ := good.grouped request.id
    have sameBehind : SameBehind (request.lockf state.fresh start last) mine := by
      intro isMax lf mem infinite
      obtain ⟨onList, isId⟩ := together.mem.mp mem
      obtain rfl : last = offMax := isMax
      by_contra otherType
      exact whole ⟨start, accepted, lf, onList, isId, infinite, .inr ⟨isOp, otherType, free⟩⟩
    have togetherLock : Together state.locks (request.lockf state.fresh start last).lfId front mine back := together
    obtain ⟨mine', queues, isGranted, -, becomes, -⟩ := grant_spec state.queues togetherLock isOwn valid sameBehind good.fresh_distinct
    refine ⟨_, _, by simp only [bind, Except.bind, isGranted]; rfl, good.replace together becomes.own becomes.refs (.refl _) queues, ?_⟩
    have isSet : held (front ++ mine' ++ back) = (held state.locks).set request.id start last request.lType := by
      refine good.grouped.held_set together isOwn becomes.own fun byte mode' => ?_
      rw [becomes.held, SetIn, Option.some_inj, eq_comm]
      rfl
    rw [isSet]
    exact .granted accepted isOp free

/-- A request is answered by the map, and changes it. -/
theorem advlock_meets (whole : ¬ CutsUnbounded state request) :
    ∃ state' answer, advlock state request = .ok (state', answer) ∧ state'.Good ∧
      Meets (held state.locks) request (held state'.locks) answer := by
  rw [advlock]
  split
  case isTrue shortcut =>
    have meets := empty_meets shortcut.2
    rw [← shortcut.1] at meets
    exact ⟨_, _, rfl, good, meets⟩
  case isFalse =>
    cases isRange : request.range with
    | error => exact ⟨_, _, rfl, good, .rejected isRange (.inl rfl)⟩
    | ok range =>
      obtain ⟨start, last⟩ := range
      have valid := Request.range_valid isRange state.fresh
      cases isOp : request.op with
      | setlk => exact setlk_meets good whole isRange isOp
      | unlck =>
        obtain ⟨front, mine, back, together, isOwn⟩ := good.grouped request.id
        have noWrap : NoWrap (request.lockf state.fresh start last) mine fun _ => False := by
          intro isMax lf mem infinite
          obtain ⟨onList, isId⟩ := together.mem.mp mem
          obtain rfl : last = offMax := isMax
          exact whole ⟨start, isRange, lf, onList, isId, infinite, .inl isOp⟩
        have togetherUnlock : Together state.locks (request.lockf state.fresh start last).lfId front mine back := together
        obtain ⟨mine', queues, isCleared, becomes, -⟩ := clearLock_spec togetherUnlock isOwn valid noWrap good.fresh_distinct state.queues
        refine ⟨_, _, by simp only [bind, Except.bind, isCleared]; rfl,
          good.replace together becomes.own becomes.refs (.cons _ (.refl _)) queues, ?_⟩
        have isSet : held (front ++ mine' ++ back) = (held state.locks).set request.id start last none := by
          refine good.grouped.held_set together isOwn becomes.own fun byte mode' => ?_
          have sameRange : (request.lockf state.fresh start last).Covers byte ↔ InRange start last byte := Iff.rfl
          simp [becomes.held, ClearedIn, sameRange, and_comm]
        rw [isSet]
        exact .unlocked isRange isOp
      | getlk =>
        obtain ⟨block, isBlock, spec⟩ := getBlock_spec (request.lockf state.fresh start last) state.locks
        have conflict := good.grouped.conflict_iff valid
        simp only [getLock, isBlock]
        cases block with
        | none =>
          refine ⟨_, _, rfl, good.bump, .tested isRange isOp ?_⟩
          refine ⟨nofun, fun isConflict => ?_⟩
          obtain ⟨lf, mem, blocks⟩ := conflict.mp isConflict
          exact absurd blocks (spec lf mem)
        | some lf => exact ⟨_, _, rfl, good.bump, .tested isRange isOp ⟨fun _ => conflict.mpr ⟨lf, spec⟩, fun _ => rfl⟩⟩

/-! ## All requests -/

/-- A file without locks. -/
def noLocks : State where
  locks := []
  queues := { blkhd := fun _ => [], lfNext := fun _ => none }
  fresh := 0

def advlockAll (state : State) : List Request → Except Fault (State × List Answer)
  | [] => .ok (state, [])
  | request :: requests => do
    let (state, answer) ← advlock state request
    let (state, answers) ← advlockAll state requests
    return (state, answer :: answers)

inductive MeetAll : Held → List Request → Held → List Answer → Prop
  | nil {held : Held} : MeetAll held [] held []
  | cons {held held' held'' : Held} {request : Request} {requests : List Request} {answer : Answer} {answers : List Answer}
    (meets : Meets held request held' answer) (later : MeetAll held' requests held'' answers) :
    MeetAll held (request :: requests) held'' (answer :: answers)

/-- No lock without a length is cut off at the last byte. -/
def NoneCut : State → List Request → Prop
  | _, [] => True
  | state, request :: requests =>
    ¬ CutsUnbounded state request ∧ ∀ state' answer, advlock state request = .ok (state', answer) → NoneCut state' requests

variable {requests : List Request}

theorem advlockAll_meet (noneCut : NoneCut state requests) :
    ∃ state' answers, advlockAll state requests = .ok (state', answers) ∧ state'.Good ∧
      MeetAll (held state.locks) requests (held state'.locks) answers := by
  induction requests generalizing state with
  | nil => exact ⟨state, [], rfl, good, .nil⟩
  | cons _ _ ih =>
    obtain ⟨whole, noneCutLater⟩ := noneCut
    obtain ⟨state₁, answer, isStep, good₁, meets⟩ := advlock_meets good whole
    obtain ⟨state₂, answers, isRun, good₂, meetLater⟩ := ih good₁ (noneCutLater state₁ answer isStep)
    refine ⟨state₂, answer :: answers, ?_, good₂, .cons meets meetLater⟩
    rw [advlockAll, isStep]
    simp only [bind, Except.bind, isRun]
    rfl

omit good

/-- The locks of a file are a map from owners and bytes to modes: every sequence of requests in which no lock without a length
is cut off at the last byte runs without a fault, is answered by the map and changes it, and the list stays grouped. -/
theorem advlockAll_refines (requests : List Request) (noneCut : NoneCut noLocks requests) :
    ∃ state answers, advlockAll noLocks requests = .ok (state, answers) ∧
      MeetAll (fun _ _ => none) requests (held state.locks) answers ∧ Grouped state.locks := by
  have good : noLocks.Good := ⟨grouped_nil, .nil, nofun⟩
  obtain ⟨state, answers, isRun, good', meet⟩ := advlockAll_meet good noneCut
  exact ⟨state, answers, isRun, meet, good'.grouped⟩

/-- Requests that have no length, or end before the last byte. -/
theorem noneCut_of_range (before : ∀ request ∈ requests, request.range.map (·.2) ≠ .ok offMax) (state : State)
    : NoneCut state requests := by
  induction requests generalizing state with
  | nil => trivial
  | cons _ _ ih =>
    obtain ⟨beforeFirst, beforeLater⟩ := forall_mem_cons.mp before
    refine ⟨?_, fun state' _ _ => ih beforeLater state'⟩
    rintro ⟨_, isRange, -⟩
    exact beforeFirst (by rw [isRange]; rfl)

/-- A request of an owner for a range from the start of the file. -/
def posixRequest (op : Op) (id : Nat) (lType : LockType) (lStart lLen : Int) (isOffStart : IsOff lStart) (isOffLen : IsOff lLen) :
    Request where
  op := op
  id := id
  posix := true
  lType := lType
  whence := .seekSet
  lStart := lStart
  lLen := lLen
  size := 0
  isOffStart := isOffStart
  isOffLen := isOffLen

/-- One owner reads the whole file and then gives up some bytes, which the other one writes. -/
def handOver : List Request :=
  [posixRequest .setlk 1 .rdlck 0 0 (by decide) (by decide), posixRequest .setlk 2 .wrlck 5 10 (by decide) (by decide),
    posixRequest .unlck 1 .rdlck 5 10 (by decide) (by decide), posixRequest .setlk 2 .wrlck 5 10 (by decide) (by decide)]

theorem handOver_refines : NoneCut noLocks handOver ∧ ∃ state answers, advlockAll noLocks handOver = .ok (state, answers) ∧
      MeetAll (fun _ _ => none) handOver (held state.locks) answers ∧ Grouped state.locks := by
  have noneCut : NoneCut noLocks handOver := noneCut_of_range (by decide) noLocks
  exact ⟨noneCut, advlockAll_refines handOver noneCut⟩

theorem Meets.set_of_done {held held' : Held} (meets : Meets held request held' .done) (isOp : request.op = .setlk)
    (accepted : request.range = .ok (start, last)) : held' = held.set request.id start last request.lType := by
  cases meets with
  | rejected isError => exact nomatch isError.symm.trans accepted
  | granted accepted' =>
    obtain ⟨rfl, rfl⟩ := Prod.mk.inj (Except.ok.inj (accepted'.symm.trans accepted))
    rfl
  | unlocked _ isOp' => exact nomatch isOp'.symm.trans isOp

theorem Meets.conflict_of_refused {held held' : Held} (meets : Meets held request held' (.error .EAGAIN))
    (accepted : request.range = .ok (start, last)) : held.Conflict request.id request.lType start last := by
  cases meets with
  | rejected isError => exact nomatch isError.symm.trans accepted
  | refused accepted' _ conflict =>
    obtain ⟨rfl, rfl⟩ := Prod.mk.inj (Except.ok.inj (accepted'.symm.trans accepted))
    exact conflict

/-- An owner reads from byte 1 on, without a length, and then writes from byte 1 to the last one; another one writes byte 0. -/
def cutOff : List Request :=
  [posixRequest .setlk 1 .rdlck 1 0 (by decide) (by decide), posixRequest .setlk 1 .wrlck 1 offMax (by decide) (by decide),
    posixRequest .setlk 2 .wrlck 0 1 (by decide) (by decide)]

/-- The first owner does not hold byte 0, but the second one is refused it. -/
theorem cutOff_refused : ¬ ∃ state answers, advlockAll noLocks cutOff = .ok (state, answers) ∧
      MeetAll (fun _ _ => none) cutOff (held state.locks) answers := by
  have run : (advlockAll noLocks cutOff).map (·.2) = .ok [.done, .done, .error .EAGAIN] := by decide +kernel
  rintro ⟨state, answers, isRun, meet⟩
  rw [isRun] at run
  obtain rfl : answers = _ := Except.ok.inj run
  obtain _ | ⟨meets₁, _ | ⟨meets₂, _ | ⟨meets₃, -⟩⟩⟩ := meet
  obtain ⟨_, byte, _, -, inRange, isHeld, -⟩ := meets₃.conflict_of_refused rfl
  -- only byte 0 was asked for
  obtain rfl : byte = 0 := Int.le_antisymm inRange.2 inRange.1
  rw [meets₂.set_of_done rfl rfl, meets₁.set_of_done rfl rfl, Held.set, Held.set, if_neg fun both => absurd both.2.1 (by decide),
    if_neg fun both => absurd both.2.1 (by decide)] at isHeld
  cases isHeld

/-! ## Mutual exclusion -/

/-- A byte that one owner writes is held by no other one. -/
def Held.Exclusive (held : Held) : Prop := ∀ owner other byte, owner ≠ other → held owner byte = some .wrlck → held other byte = none

theorem Meets.exclusive {held held' : Held} {answer : Answer} (meets : Meets held request held' answer) (exclusive : held.Exclusive) :
    held'.Exclusive := by
  intro owner other byte different
  have old := exclusive owner other byte different
  cases meets with
  | rejected | refused | tested => exact old
  | granted _ _ free =>
    -- another owner of a byte of the range only reads it, and so does the request
    have others (id mode) (isOther : id ≠ request.id) (inRange : InRange _ _ byte) (isHeld : held id byte = some mode) :
        request.lType ≠ .wrlck ∧ mode ≠ .wrlck := not_or.mp fun conflict => free ⟨id, byte, mode, isOther, inRange, isHeld, conflict⟩
    unfold Held.set
    cases isHeld : held other byte <;> grind
  | unlocked =>
    unfold Held.set
    grind

theorem MeetAll.exclusive {held held' : Held} {answers : List Answer} (meet : MeetAll held requests held' answers)
    (exclusive : held.Exclusive) : held'.Exclusive := by
  induction meet with
  | nil => exact exclusive
  | cons meets _ later => exact later (meets.exclusive exclusive)

/-- **No lock of a file blocks another one**, after every sequence of requests in which no lock without a length is cut off. -/
theorem advlockAll_exclusive (requests : List Request) (noneCut : NoneCut noLocks requests) :
    ∃ state answers, advlockAll noLocks requests = .ok (state, answers) ∧ ∀ lf ∈ state.locks, ∀ lock ∈ state.locks, ¬ Blocks lf lock := by
  have good : noLocks.Good := ⟨grouped_nil, .nil, nofun⟩
  obtain ⟨state, answers, isRun, ⟨grouped, -, -⟩, meet⟩ := advlockAll_meet good noneCut
  have exclusive := meet.exclusive fun _ _ _ _ _ => rfl
  refine ⟨state, answers, isRun, fun lf mem lock mem' blocks => ?_⟩
  obtain ⟨owner, byte, mode, other, inRange, isHeld, conflict⟩ := (grouped.conflict_iff (grouped.valid mem')).mpr ⟨lf, mem, blocks⟩
  have own := (grouped.held_iff _ _ _).mpr ⟨lock, mem', rfl, inRange, rfl⟩
  rcases conflict with isWrite | isWrite
  · cases (exclusive _ _ _ other.symm (isWrite ▸ own)).symm.trans isHeld
  · cases (exclusive _ _ _ other (isWrite ▸ isHeld)).symm.trans own

theorem handOver_exclusive : NoneCut noLocks handOver ∧ ∃ state answers, advlockAll noLocks handOver = .ok (state, answers) ∧
    ∀ lf ∈ state.locks, ∀ lock ∈ state.locks, ¬ Blocks lf lock := by
  have noneCut : NoneCut noLocks handOver := noneCut_of_range (by decide) noLocks
  exact ⟨noneCut, advlockAll_exclusive handOver noneCut⟩

end DarwinNotes.Xnu.Locks
