import DarwinNotes.Objc.Sync.Runs

/-!
# Calls that fail

`id2data` counts before the mutex is tried, and nothing is taken back when that fails. A failed call leaves the counts alone
only if it is an exit that comes to no `SyncData` of its object.
-/

namespace DarwinNotes.Objc.Sync
open List

variable {Thread Object : Type} [DecidableEq Thread]

/-- Whether the call succeeds, if the next step is its last one. -/
def answer (thread : Thread) (g : Shared Thread Object) (here : Local Object) : Option Bool :=
  match here.pc with
  | .save _ _ _ none => some false
  | .save caller _ _ (some _) => if caller.why = .release then some false else none
  | .lock _ _ => some true
  | .tryLock _ data => some (lockMutex thread (g.blocks data).mutex).isSome
  | .tryUnlock data => some ((g.blocks data).mutex.any fun held => held.1 = thread)
  | _ => none

/-- A call returns, and the other threads do nothing until then. -/
inductive Returns [DecidableEq Object] (directKeys : Bool) (stripe : Object → Nat) (thread : Thread) :
    Shared Thread Object → Local Object → Bool → Shared Thread Object → Local Object → Prop
  | last {g here success g' here'} : answer thread g here = some success → advance directKeys stripe thread g here = some (g', here') →
    Returns directKeys stripe thread g here success g' here'
  | next {g here g₁ here₁ success g' here'} : answer thread g here = none → advance directKeys stripe thread g here = some (g₁, here₁) →
    Returns directKeys stripe thread g₁ here₁ success g' here' → Returns directKeys stripe thread g here success g' here'

/-- The `lockCount`s in the caches of the thread are what they were. -/
def SameCaches (here here' : Local Object) : Prop := here'.fast = here.fast ∧ here'.cache = here.cache

/-- So are the `threadCount`s. -/
def SameCounts (g : Shared Thread Object) (here : Local Object) (g' : Shared Thread Object) (here' : Local Object) : Prop :=
  SameCaches here here' ∧ ∀ n, (g'.blocks n).threadCount = (g.blocks n).threadCount

/-- There is no `SyncData` for the object in a cache of the thread. -/
def Uncached (directKeys : Bool) (g : Shared Thread Object) (here : Local Object) (object : Object) : Prop :=
  (∀ item ∈ if directKeys then here.fast else none, (g.blocks item.1).object ≠ object) ∧
    ∀ item ∈ here.cache, (g.blocks item.1).object ≠ object

/-- There is none on the list. -/
def Unlisted (stripe : Object → Nat) (g : Shared Thread Object) (object : Object) : Prop :=
  ∀ n ∈ g.lists (stripe object), (g.blocks n).object ≠ object

variable {directKeys : Bool} {stripe : Object → Nat} {thread : Thread} {g g' : Shared Thread Object}
  {here here' : Local Object} {caller : Caller} {object : Object} {occupied success : Bool}

/-! ## The end of a call -/

variable [DecidableEq Object]

theorem sameCounts_of_last (isLast : answer thread g here = some success)
    (step : advance directKeys stripe thread g here = some (g', here')) : SameCounts g here g' here' := by
  unfold answer at isLast
  unfold advance at step
  split at isLast
  case h_1 pc =>
    rw [pc] at step
    cases step
    exact ⟨⟨rfl, rfl⟩, fun _ => rfl⟩
  case h_2 pc =>
    split at isLast
    case isFalse => cases isLast
    case isTrue isRelease =>
      simp only [pc, isRelease, if_true] at step
      cases step
      exact ⟨⟨rfl, rfl⟩, fun _ => rfl⟩
  case h_3 pc =>
    rw [pc] at step
    obtain ⟨_, -, ⟨⟩⟩ := Option.map_eq_some_iff.mp step
    exact ⟨⟨rfl, rfl⟩, setBlock_same _ (by rfl)⟩
  case h_4 pc =>
    rw [pc] at step
    dsimp only at step
    split at step
    · cases step
      exact ⟨⟨rfl, rfl⟩, fun _ => rfl⟩
    · cases step
      exact ⟨⟨rfl, rfl⟩, setBlock_same _ (by rfl)⟩
  case h_5 pc =>
    rw [pc] at step
    cases step
    exact ⟨⟨rfl, rfl⟩, setBlock_same _ (by rfl)⟩
  case h_6 => cases isLast

theorem not_returns_fatal {message : String} : ¬ Returns directKeys stripe thread g { here with pc := .fatal message } success g' here' := by
  intro returns
  cases returns with
  | last isLast => cases isLast
  | next _ step => cases step

variable (returns : Returns directKeys stripe thread g here success g' here')
include returns

/-- The caches are not changed behind `id2data`. -/
theorem Returns.sameCaches {data : Nat} {removed : Bool} (pc : here.pc = caller.found object data removed) : SameCaches here here' := by
  cases returns with
  | last isLast step => exact (sameCounts_of_last isLast step).1
  | next notLast step later =>
    unfold answer at notLast
    cases caller with
    | enter | tryEnter => simp [pc, Caller.found] at notLast
    | exit =>
      cases removed with
      | false => simp [pc, Caller.found] at notLast
      | true =>
        simp only [advance, pc, Caller.found, if_true] at step
        cases step
        cases later with
        | last isLast step => exact (sameCounts_of_last isLast step).1
        | next notLast => cases notLast

variable (empty : directKeys = true → occupied = false → here.fast = none)
include empty

/-- Behind the spin lock, a call that acquires puts the block in a cache. -/
theorem Returns.save {result : Option Nat} (pc : here.pc = .save caller object occupied result) :
    if caller = .exit ∨ result = none then SameCounts g here g' here' else ¬ SameCaches here here' := by
  cases returns with
  | last isLast step =>
    rw [if_pos]
    · exact sameCounts_of_last isLast step
    · cases result with
      | none => exact .inr rfl
      | some result =>
        cases caller with
        | exit => exact .inl rfl
        | enter | tryEnter => simp [answer, pc, Caller.why] at isLast
  | next notLast step later =>
    cases result with
    | none => simp [answer, pc] at notLast
    | some result =>
      have acquires : caller.why = .acquire ∧ caller ≠ .exit := by
        cases caller with
        | exit => simp [answer, pc, Caller.why] at notLast
        | enter | tryEnter => exact ⟨rfl, by rintro ⟨⟩⟩
      rw [if_neg (by simp [acquires.2])]
      simp only [advance, pc, acquires.1] at step
      split at step
      · contradiction
      split at step
      · contradiction
      split at step
      · cases step
        exact absurd later not_returns_fatal
      split at step
      case isTrue isFast =>
        cases step
        rintro ⟨same, -⟩
        rw [Bool.and_eq_true, Bool.not_eq_true'] at isFast
        cases (later.sameCaches rfl).1.symm.trans (same.trans (empty isFast.1 isFast.2))
      case isFalse =>
        cases step
        rintro ⟨-, same⟩
        have longer := congrArg length ((later.sameCaches rfl).2.symm.trans same)
        simp at longer

/-! ## The searches -/

omit returns empty [DecidableEq Thread] in
theorem find?_unlisted : (g.lists (stripe object)).find? (fun p => (g.blocks p).object = object) = none ↔ Unlisted stripe g object := by
  simp [Unlisted]

theorem Returns.list (pc : here.pc = .list caller object occupied) :
    SameCounts g here g' here' ↔ caller = .exit ∧ Unlisted stripe g object := by
  cases returns with
  | last isLast => simp [answer, pc] at isLast
  | next notLast step later =>
    simp only [advance, pc] at step
    cases step
    have saved := later.save empty rfl
    rw [← find?_unlisted]
    unfold listSection at saved
    split at saved
    case h_1 p isFound =>
      have listed : ¬ SameCounts g here g' here' := by
        rintro ⟨caches, counts⟩
        split at saved
        case isTrue =>
          have counted := saved.2 p
          rw [setBlock_self, counts p] at counted
          simp only [int32] at counted
          omega
        case isFalse => exact saved caches
      simp [isFound, listed]
    case h_2 isNone =>
      cases caller with
      | exit =>
        have same : SameCounts g here g' here' := saved
        simp [isNone, same]
      | enter | tryEnter =>
        have listed : ¬ SameCaches here here' := by
          simp only [Caller.why, ne_eq, not_true, if_false] at saved
          split at saved
          · exact saved
          · exact saved
        simpa using fun same : SameCounts g here g' here' => listed same.1

omit returns empty in
theorem lockCountAfter_ne {bits lockCount : Nat} (some_ : lockCount ≠ 0) : lockCountAfter caller.why bits lockCount ≠ lockCount := by
  have increment : (lockCount + 1) % 2 ^ bits ≠ lockCount := by
    intro same
    rcases Nat.lt_or_ge (lockCount + 1) (2 ^ bits) with less | large
    · rw [Nat.mod_eq_of_lt less] at same
      omega
    · rw [Nat.le_antisymm large (by omega), Nat.mod_self] at same
      exact some_ same.symm
  cases caller with
  | enter | tryEnter => exact increment
  | exit =>
    show lockCount - 1 ≠ lockCount
    omega

theorem Returns.scan {i : Nat} (pc : here.pc = .scan caller object i occupied) : SameCounts g here g' here' ↔
      caller = .exit ∧ (∀ item ∈ here.cache.drop i, (g.blocks item.1).object ≠ object) ∧ Unlisted stripe g object := by
  induction returns generalizing i with
  | last isLast => simp [answer, pc] at isLast
  | @next g here g₁ here₁ _ g' here' notLast step later ih =>
    simp only [advance, pc] at step
    split at step
    case h_1 isEnd =>
      cases step
      rw [drop_eq_nil_iff.mpr (getElem?_eq_none_iff.mp isEnd)]
      have listed : SameCounts g here g' here' ↔ _ := later.list empty rfl
      simpa using listed
    case h_2 data lockCount isItem =>
      obtain ⟨inRange, isItem'⟩ := List.getElem?_eq_some_iff.mp isItem
      rw [drop_eq_getElem_cons inRange, isItem', forall_mem_cons]
      split at step
      case isTrue other =>
        cases step
        have scanned : SameCounts g here g' here' ↔ _ := ih empty rfl
        simpa [other] using scanned
      case isFalse isObject =>
        split at step
        · cases step
          exact absurd later not_returns_fatal
        case isFalse valid =>
          have changed : ¬ SameCounts g here g' here' := by
            rintro ⟨⟨-, same⟩, -⟩
            cases step
            have unchanged := (later.sameCaches rfl).2.symm.trans same
            split at unchanged
            case isTrue =>
              have shorter := congrArg length unchanged
              rw [removeAt, getLast?_eq_some_getLast (ne_nil_of_length_pos (by omega)), length_dropLast, length_set] at shorter
              omega
            case isFalse =>
              have item := congrArg (·[i]?) unchanged
              simp only [getElem?_set_self inRange, isItem, Option.some.injEq, Prod.mk.injEq, true_and] at item
              exact lockCountAfter_ne (by omega) item
          simp [changed, isObject]

omit returns empty

/-- **A failed call keeps the counts** only if it is an exit and there is no `SyncData` for the object. -/
theorem sameCounts_iff (failed : Returns directKeys stripe thread g { here with pc := .fast caller object } false g' here') :
    SameCounts g here g' here' ↔ caller = .exit ∧ Uncached directKeys g here object ∧ Unlisted stripe g object := by
  rw [Uncached]
  cases failed with
  | last isLast => cases isLast
  | next _ step later =>
    simp only [advance] at step
    split at step
    case h_1 none =>
      cases step
      have scanned : SameCounts g here g' here' ↔ _ := later.scan (by simpa using none) rfl
      simpa [none] using scanned
    case h_2 data lockCount isFast =>
      split at step
      case isTrue other =>
        cases step
        have scanned : SameCounts g here g' here' ↔ _ := later.scan (by simp) rfl
        simpa [isFast, other] using scanned
      case isFalse isObject =>
        split at step
        · cases step
          exact absurd later not_returns_fatal
        case isFalse valid =>
          have changed : ¬ SameCounts g here g' here' := by
            rintro ⟨⟨same, -⟩, -⟩
            cases step
            have unchanged := (later.sameCaches rfl).1.symm.trans (same.trans (Option.ite_none_right_eq_some.mp isFast).2)
            split at unchanged
            case isTrue => cases unchanged
            case isFalse => exact lockCountAfter_ne (by omega) (Prod.mk.inj (Option.some.inj unchanged)).2
          simp [changed, isFast, isObject]

/-! ## A failed attempt -/

/-- An exit of an object that no thread has synchronized on. -/
theorem sameCounts_stranger : Returns true (fun _ => 0) false taken { newThread with pc := .fast .exit 5 } false taken newThread ∧
    SameCounts taken newThread taken newThread := by
  have failed : Returns true (fun _ => 0) false taken { newThread with pc := .fast .exit 5 } false taken newThread :=
    .next rfl rfl (.next rfl rfl (.next rfl rfl (.last rfl rfl)))
  refine ⟨failed, (sameCounts_iff failed).mpr ⟨rfl, ⟨nofun, nofun⟩, ?_⟩⟩
  unfold Unlisted
  decide

/-- A thread that fails to get in has the `SyncData` in its cache. -/
theorem not_sameCounts_tried : ∃ g' here', Reached True taken owner newThread ∧
    Returns true (fun _ => 0) false taken { newThread with pc := .fast .tryEnter 0 } false g' here' ∧
    ¬ SameCounts taken newThread g' here' := by
  refine ⟨_, _, reached_taken, .next rfl rfl (.next rfl rfl (.next rfl rfl (.next rfl rfl (.last rfl rfl)))), ?_⟩
  rintro ⟨⟨sameFast, -⟩, -⟩
  cases sameFast

end DarwinNotes.Objc.Sync
