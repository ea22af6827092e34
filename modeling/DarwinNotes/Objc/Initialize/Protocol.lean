import DarwinNotes.Objc.Initialize.Model

/-!
# Safety of the `+initialize` protocol

The thread that sets `CLS_INITIALIZING` of a class owns it. An activation past
its superclass test finds the superclass initialized or in its own thread's list;
so a class whose completion is deferred is owned by the thread that owns its
superclass, and that thread finds it in its list when it completes the
superclass.
-/

namespace DarwinNotes.Objc.Initialize
open List

variable {Class Thread : Type} [DecidableEq Class]

/-! ## The per-thread list -/

/-- How many slots hold the class. -/
def mentions (list : ClassList Class) (cls : Class) : Nat := (list.getD []).count (some cls)

theorem count_fillSlot (cls x : Class) (allocated : Nat) (slots : List (Option Class)) :
    (fillSlot cls allocated slots).count (some x) = slots.count (some x) + if cls = x then 1 else 0 := by
  induction slots with
  | nil => simp [fillSlot, count_cons, count_replicate]
  | cons slot _ ih =>
    cases slot with
    | none => simp [fillSlot, count_cons]
    | some =>
      rw [fillSlot, count_cons, count_cons, ih]
      omega

theorem count_clearSlot (cls x : Class) (slots : List (Option Class)) (found : some cls ∈ slots) :
    (clearSlot cls slots).count (some x) = slots.count (some x) - if cls = x then 1 else 0 := by
  induction slots with
  | nil => simp at found
  | cons _ slots ih =>
    unfold clearSlot
    split
    · rename_i here
      subst here
      simp [count_cons]
    · rename_i other
      have later : some cls ∈ slots := (mem_cons.1 found).resolve_left (Ne.symm other)
      rw [count_cons, count_cons, ih later]
      by_cases same : cls = x
      · subst same
        simp [other]
      · simp [same]

theorem thisThreadIsInitializingClass_iff (list : ClassList Class) (cls : Class) :
    thisThreadIsInitializingClass list cls = true ↔ 0 < mentions list cls := by
  cases list with
  | none | some => simp [thisThreadIsInitializingClass, fetchInitializingClassList, mentions]

variable {list : ClassList Class}

theorem setThisThreadIsInitializingClass_ok {cls : Class} (fresh : mentions list cls = 0) :
    ∃ list', setThisThreadIsInitializingClass list cls = .ok list' ∧
      ∀ x, mentions list' x = mentions list x + if cls = x then 1 else 0 := by
  have same : ∀ x, ((fetchInitializingClassList true list).getD []).count (some x) = mentions list x := by
    intro x
    cases list with
    | none => simp [fetchInitializingClassList, mentions]
    | some => rfl
  unfold setThisThreadIsInitializingClass
  generalize (fetchInitializingClassList true list).getD [] = slots at same
  have absent : some cls ∉ slots := by
    rw [← count_pos_iff, same, fresh]
    exact Nat.lt_irrefl 0
  refine ⟨some (fillSlot cls slots.length slots), if_neg absent, fun x => ?_⟩
  rw [← same, ← count_fillSlot cls x slots.length]
  rfl

theorem setThisThreadIsNotInitializingClass_ok {cls : Class} (found : 0 < mentions list cls)
    : ∃ list', setThisThreadIsNotInitializingClass list cls = .ok list' ∧
      ∀ x, mentions list' x = mentions list x - if cls = x then 1 else 0 := by
  cases list with
  | none => simp [mentions] at found
  | some slots =>
    have member : some cls ∈ slots := count_pos_iff.1 found
    refine ⟨some (clearSlot cls slots), ?_, fun x => count_clearSlot cls x slots member⟩
    simp [setThisThreadIsNotInitializingClass, fetchInitializingClassList, member]

/-! ## The invariant -/

/-- The classes whose completion is up to this activation. -/
def Frame.held (frame : Frame Class) : List Class :=
  match frame.pc with
  | .record _ | .callbacks _ | .initializing | .finish _ => [frame.cls]
  | .finishing work _ => work.map Prod.fst
  | _ => []

def heldBy (stack : List (Frame Class)) : List Class := stack.flatMap Frame.held

section Invariant

variable (superclass : Class → Option Class) (g : Shared Class Thread) (thread : Thread) (list : ClassList Class)

/-- The class is initialized, or this thread is initializing it. -/
def Settled (cls : Class) : Prop := g.isInitialized cls = true ∨ mentions list cls = 1

def SuperSettled (cls : Class) : Prop := ∀ sup, superclass cls = some sup → Settled g list sup

/-- The thread is to complete the class, which no pending list mentions. -/
structure Owned (cls : Class) : Prop where
  initializer : g.initializer cls = some thread
  initializing : g.isInitializing cls = true
  free : ∀ sup, cls ∉ g.pendingInitializeMap sup

/-- The class may be marked as initialized. -/
structure Ready (cls : Class) (supercls : Option Class) : Prop where
  superclass : superclass cls = supercls
  superInitialized : ∀ sup, supercls = some sup → g.isInitialized sup = true
  owned : Owned g thread cls
  listed : mentions list cls = 1
  returned : 0 < g.returned cls

def FrameOk (frame : Frame Class) : Prop :=
  match frame.pc with
  | .start | .inSuper => True
  | .tryInitializing => SuperSettled superclass g list frame.cls
  | .record _ => SuperSettled superclass g list frame.cls ∧ Owned g thread frame.cls ∧ mentions list frame.cls = 0 ∧ g.started frame.cls = 0
  | .callbacks _ =>
    SuperSettled superclass g list frame.cls ∧ Owned g thread frame.cls ∧ mentions list frame.cls = 1 ∧ g.started frame.cls = 0
  | .initializing => SuperSettled superclass g list frame.cls ∧ Owned g thread frame.cls ∧ mentions list frame.cls = 1
  | .finish _ =>
    SuperSettled superclass g list frame.cls ∧ Owned g thread frame.cls ∧ mentions list frame.cls = 1 ∧ 0 < g.returned frame.cls
  | .finishing work _ =>
    (∀ item ∈ work, Ready superclass g thread list item.1 item.2) ∧ (g.isInitialized frame.cls = true ∨ frame.cls ∈ work.map Prod.fst)
  | .checkInitializing | .checkThread | .waiting => g.isInitializing frame.cls = true ∨ g.isInitialized frame.cls = true
  | .checkInitialized => g.isInitialized frame.cls = true

/-- An activation that waits for the one above it called it for its superclass. -/
def Calls (frame : Frame Class) : List (Frame Class) → Prop
  | ⟨caller, .inSuper⟩ :: _ => superclass caller = some frame.cls
  | _ => True

/-- Every activation stands well, and no class is held twice. -/
def StackOk : List (Frame Class) → Prop
  | [] => True
  | frame :: rest =>
    FrameOk superclass g thread list frame ∧ frame.held.Nodup ∧ (∀ cls ∈ frame.held, cls ∉ heldBy rest) ∧
      Calls superclass frame rest ∧ StackOk rest

/-- The thread lists the class at most once. It owns what it lists and lists what is pending of its own. -/
structure ListOk (cls : Class) : Prop where
  once : mentions list cls ≤ 1
  owned : 0 < mentions list cls → g.initializer cls = some thread ∧ g.isInitializing cls = true
  pending : ∀ sup, cls ∈ g.pendingInitializeMap sup → g.initializer cls = some thread → mentions list cls = 1

/-- The invariant of a thread. -/
structure ThreadOk (here : Local Class) : Prop where
  stack : StackOk superclass g thread here.list here.stack
  list : ∀ cls, ListOk g thread here.list cls

/-- The invariant of a class. -/
structure ClassOk (cls : Class) : Prop where
  exclusive : ¬ (g.isInitializing cls = true ∧ g.isInitialized cls = true)
  closed : g.isInitialized cls = true → (∀ sup, superclass cls = some sup → g.isInitialized sup = true) ∧ 0 < g.returned cls
  fresh : g.isInitializing cls = false → g.isInitialized cls = false → g.initializer cls = none ∧ g.started cls = 0
  owned : g.isInitializing cls = true → ∃ owner, g.initializer cls = some owner
  once : g.started cls ≤ 1
  pending : ∀ sup, cls ∈ g.pendingInitializeMap sup → superclass cls = some sup ∧ g.isInitializing cls = true ∧ 0 < g.returned cls ∧
      g.initializer cls = g.initializer sup

/-- The invariant of what the threads share. -/
structure SharedOk : Prop where
  noFatal : g.fatal = none
  classes : ∀ cls, ClassOk superclass g cls
  pendingOnce : ∀ sup, (g.pendingInitializeMap sup).Nodup

end Invariant

/-! ## Stability -/

section Stability

variable {superclass : Class → Option Class} {g g' : Shared Class Thread} {thread : Thread}
  {list list' : ClassList Class}

theorem FrameOk.owned {frame : Frame Class} (ok : FrameOk superclass g thread list frame) : ∀ cls ∈ frame.held, Owned g thread cls := by
  obtain ⟨cls, pc⟩ := frame
  intro x member
  cases pc with
  | record | callbacks | initializing | finish => rw [mem_singleton.1 member]; exact ok.2.1
  | finishing =>
    obtain ⟨item, inWork, rfl⟩ := mem_map.1 member
    exact (ok.1 item inWork).owned
  | _ => cases member

variable {stack : List (Frame Class)}

theorem StackOk.owned (ok : StackOk superclass g thread list stack) : ∀ cls ∈ heldBy stack, Owned g thread cls := by
  induction stack with
  | nil => intro cls member; cases member
  | cons _ _ ih =>
    intro cls member
    rcases mem_append.1 member with top | below
    · exact ok.1.owned cls top
    · exact ih ok.2.2.2.2 cls below

/-- Nothing that is recorded of the class changes, but it may be pending no longer. -/
structure Unchanged (g g' : Shared Class Thread) (cls : Class) : Prop where
  info : g'.info cls = g.info cls
  initializer : g'.initializer cls = g.initializer cls
  started : g'.started cls = g.started cls
  returned : g'.returned cls = g.returned cls
  pending : ∀ sup, cls ∈ g'.pendingInitializeMap sup → cls ∈ g.pendingInitializeMap sup

/-- A step that changes what is recorded of the classes of `mine` only. -/
structure Touches (mine : Class → Prop) (g g' : Shared Class Thread) : Prop where
  noFatal : g'.fatal = g.fatal
  initialized : ∀ cls, g.isInitialized cls = true → g'.isInitialized cls = true
  begun : ∀ cls, g.isInitializing cls = true ∨ g.isInitialized cls = true → g'.isInitializing cls = true ∨ g'.isInitialized cls = true
  owner : ∀ cls owner, g.initializer cls = some owner → g'.initializer cls = some owner
  same : ∀ cls, ¬ mine cls → Unchanged g g' cls

/-- A change also of the thread's list. Activations that hold no class of `mine` still stand well. -/
structure Keeps (mine : Class → Prop) (g g' : Shared Class Thread) (list list' : ClassList Class) : Prop
    extends Touches mine g g' where
  settled : ∀ cls, mentions list cls = 1 → Settled g' list' cls
  listed : ∀ cls, ¬ mine cls → mentions list' cls = mentions list cls

variable {mine : Class → Prop} {cls : Class}

omit [DecidableEq Class] in
theorem Unchanged.initializing (same : Unchanged g g' cls) : g'.isInitializing cls = g.isInitializing cls :=
  congrArg Info.initializing same.info

omit [DecidableEq Class] in
theorem Unchanged.owned (same : Unchanged g g' cls) (owned : Owned g thread cls) : Owned g' thread cls :=
  ⟨same.initializer.trans owned.initializer, same.initializing.trans owned.initializing, fun sup => mt (same.pending sup) (owned.free sup)⟩

theorem Touches.keeps (touches : Touches mine g g') : Keeps mine g g' list list :=
  { touches with settled := fun _ => Or.inr, listed := fun _ _ => rfl }

section Keeps

variable (keeps : Keeps mine g g' list list')
include keeps

theorem Keeps.superSettled (settled : SuperSettled superclass g list cls) : SuperSettled superclass g' list' cls := by
  intro sup isSuper
  cases settled sup isSuper with
  | inl done => exact Or.inl (keeps.initialized sup done)
  | inr listed => exact keeps.settled sup listed

theorem Keeps.ready {supercls : Option Class} (ready : Ready superclass g thread list cls supercls) (apart : ¬ mine cls)
    : Ready superclass g' thread list' cls supercls := by
  have same := keeps.same cls apart
  exact ⟨ready.superclass, fun sup isSuper => keeps.initialized sup (ready.superInitialized sup isSuper), same.owned ready.owned,
    (keeps.listed cls apart).trans ready.listed, same.returned ▸ ready.returned⟩

theorem FrameOk.keep {frame : Frame Class} (ok : FrameOk superclass g thread list frame) (apart : ∀ x ∈ frame.held, ¬ mine x)
    : FrameOk superclass g' thread list' frame := by
  obtain ⟨cls, pc⟩ := frame
  cases pc with
  | start | inSuper => trivial
  | tryInitializing => exact keeps.superSettled ok
  | record | callbacks =>
    obtain ⟨settled, owned, listed, fresh⟩ := ok
    have other := apart cls (mem_singleton_self cls)
    have same := keeps.same cls other
    exact ⟨keeps.superSettled settled, same.owned owned, (keeps.listed cls other).trans listed, same.started.trans fresh⟩
  | initializing =>
    obtain ⟨settled, owned, listed⟩ := ok
    have other := apart cls (mem_singleton_self cls)
    exact ⟨keeps.superSettled settled, (keeps.same cls other).owned owned, (keeps.listed cls other).trans listed⟩
  | finish =>
    obtain ⟨settled, owned, listed, returned⟩ := ok
    have other := apart cls (mem_singleton_self cls)
    have same := keeps.same cls other
    exact ⟨keeps.superSettled settled, same.owned owned, (keeps.listed cls other).trans listed, same.returned ▸ returned⟩
  | finishing =>
    obtain ⟨ready, covered⟩ := ok
    refine ⟨fun item inWork => keeps.ready (ready item inWork) (apart _ (mem_map_of_mem inWork)), ?_⟩
    exact covered.imp_left (keeps.initialized cls)
  | checkInitializing | checkThread | waiting => exact keeps.begun cls ok
  | checkInitialized => exact keeps.initialized cls ok

theorem StackOk.keep (ok : StackOk superclass g thread list stack) (apart : ∀ x ∈ heldBy stack, ¬ mine x)
    : StackOk superclass g' thread list' stack := by
  induction stack with
  | nil => trivial
  | cons _ _ ih =>
    obtain ⟨top, nodup, disjoint, calls, below⟩ := ok
    exact ⟨top.keep keeps fun x held => apart x (mem_append_left _ held), nodup, disjoint, calls,
      ih below fun x held => apart x (mem_append_right _ held)⟩

theorem Keeps.classOk (ok : ClassOk superclass g cls) (apart : ¬ mine cls) : ClassOk superclass g' cls := by
  have same := keeps.same cls apart
  have done : g'.isInitialized cls = g.isInitialized cls := congrArg Info.initialized same.info
  obtain ⟨exclusive, closed, fresh, owned, once, pending⟩ := ok
  simp only [← same.initializing, ← done, ← same.initializer, ← same.started, ← same.returned] at *
  refine ⟨exclusive, fun done => ?_, fresh, owned, once, fun sup member => ?_⟩
  · exact ⟨fun sup isSuper => keeps.initialized sup ((closed done).1 sup isSuper), (closed done).2⟩
  · obtain ⟨isSuper, begun, positive, owner⟩ := pending sup (same.pending sup member)
    obtain ⟨other, isOther⟩ := owned begun
    exact ⟨isSuper, begun, positive, isOther.trans (keeps.owner sup other (owner.symm.trans isOther)).symm⟩

theorem Keeps.listOk (ok : ListOk g thread list cls) (apart : ¬ mine cls) : ListOk g' thread list' cls := by
  have same := keeps.same cls apart
  obtain ⟨once, owned, pending⟩ := ok
  rw [← keeps.listed cls apart, ← same.initializer] at *
  refine ⟨once, fun positive => ?_, fun sup member => pending sup (same.pending sup member)⟩
  rw [same.initializing]
  exact owned positive

end Keeps

/-- The other threads do not notice a step that changes what this thread owns then. -/
theorem Touches.threadOk (touches : Touches mine g g') (own : ∀ cls, mine cls → g'.initializer cls = some thread) {other : Thread}
    (different : other ≠ thread) {there : Local Class} (ok : ThreadOk superclass g other there) : ThreadOk superclass g' other there := by
  have apart : ∀ cls, g'.initializer cls = some other → ¬ mine cls :=
    fun cls owned this => different (Option.some.inj (owned.symm.trans (own cls this)))
  refine ⟨ok.stack.keep touches.keeps fun cls held => apart cls ?_, fun cls => ?_⟩
  · exact touches.owner cls other (ok.stack.owned cls held).initializer
  by_cases this : mine cls
  · refine ⟨(ok.list cls).once, fun listed => ?_, fun sup member owned => (apart cls owned this).elim⟩
    exact (apart cls (touches.owner cls other ((ok.list cls).owned listed).1) this).elim
  · exact touches.keeps.listOk (ok.list cls) this

end Stability

/-! ## Steps -/

section Steps

variable {superclass : Class → Option Class} {g g' : Shared Class Thread} {thread : Thread}
  {list list' : ClassList Class} {cls : Class} {pc : Pc Class} {rest stack : List (Frame Class)}

/-- What a step has to establish. -/
structure Preserves (superclass : Class → Option Class) (thread : Thread) (g g' : Shared Class Thread)
    (here' : Local Class) : Prop where
  shared : SharedOk superclass g'
  own : ThreadOk superclass g' thread here'
  others : ∀ other ≠ thread, ∀ there, ThreadOk superclass g other there → ThreadOk superclass g' other there
  initialized : ∀ cls, g.isInitialized cls = true → g'.isInitialized cls = true

variable (shared : SharedOk superclass g)
include shared

/-- The invariant has to be shown of the classes that change. -/
theorem preserves_keeps {mine : Class → Prop} {here' : Local Class} (keeps : Keeps mine g g' list here'.list)
    (listOk : ∀ x, ListOk g thread list x)
    (changed : ∀ x, mine x → g'.initializer x = some thread ∧ ClassOk superclass g' x ∧ ListOk g' thread here'.list x)
    (pendingOnce : ∀ sup, (g'.pendingInitializeMap sup).Nodup) (stack : StackOk superclass g' thread here'.list here'.stack) :
    Preserves superclass thread g g' here' := by
  refine ⟨⟨keeps.noFatal.trans shared.noFatal, fun x => ?_, pendingOnce⟩, ⟨stack, fun x => ?_⟩,
    fun _ different _ => keeps.threadOk (fun x this => (changed x this).1) different, keeps.initialized⟩
  all_goals by_cases this : mine x
  · exact (changed x this).2.1
  · exact keeps.classOk (shared.classes x) this
  · exact (changed x this).2.2
  · exact keeps.listOk (listOk x) this

omit shared in
theorem listOk_of_unlisted (unlisted : mentions list cls = 0) (unpending : ∀ sup, cls ∉ g.pendingInitializeMap sup) :
    ListOk g thread list cls :=
  ⟨by omega, by omega, fun sup member => (unpending sup member).elim⟩

/-- Steps that at most take or release the lock or add a callback. -/
theorem preserves_quiet (here' : Local Class) (listOk : ∀ x, ListOk g thread here'.list x)
    (stackOk : StackOk superclass g thread here'.list here'.stack) {lock : Option Thread} {funcs : Nat} :
    Preserves superclass thread g { g with classInitLock := lock, willInitializeFuncs := funcs } here' := by
  have touches : Touches (fun _ => False) g { g with classInitLock := lock, willInitializeFuncs := funcs } :=
    ⟨rfl, fun _ => id, fun _ => id, fun _ _ => id, fun _ _ => ⟨rfl, rfl, rfl, rfl, fun _ => id⟩⟩
  exact preserves_keeps shared touches.keeps listOk nofun shared.pendingOnce (stackOk.keep touches.keeps fun _ _ => id)

omit shared in
omit [DecidableEq Class] in
theorem leave_list (here : Local Class) (rethrow : Bool) : (leave here rest rethrow).list = here.list := by
  unfold leave
  split
  · rfl
  · split <;> rfl

omit shared in
/-- The caller of an activation that is left goes on past its superclass test. -/
theorem leave_stackOk (here : Local Class) (rethrow : Bool) (below : StackOk superclass g thread list rest)
    (calls : Calls superclass ⟨cls, pc⟩ rest) (settled : Settled g list cls) :
    StackOk superclass g thread list (leave here rest rethrow).stack := by
  unfold leave
  split
  · exact below
  split
  · rename_i caller outer
    obtain ⟨_, nodup, apart, outerCalls, outerOk⟩ := below
    refine ⟨fun sup isSuper => ?_, nodup, apart, outerCalls, outerOk⟩
    have same : superclass caller = some cls := calls
    cases isSuper.symm.trans same
    exact settled
  · exact below

theorem preserves_leave (here : Local Class) (rethrow : Bool) (listOk : ∀ x, ListOk g thread here.list x)
    (below : StackOk superclass g thread here.list rest) (calls : Calls superclass ⟨cls, pc⟩ rest) (settled : Settled g here.list cls)
    (lock : Option Thread) : Preserves superclass thread g { g with classInitLock := lock } (leave here rest rethrow) := by
  refine preserves_quiet shared _ ?_ ?_
  · rw [leave_list]
    exact listOk
  · rw [leave_list]
    exact leave_stackOk here rethrow below calls settled

variable {throwing : Bool}

/-- Setting `CLS_INITIALIZING` takes the ownership of the class. -/
theorem preserves_setInitializing (ok : ThreadOk superclass g thread ⟨list, ⟨cls, .tryInitializing⟩ :: rest, throwing⟩)
    (notInitialized : g.isInitialized cls = false) (notInitializing : g.isInitializing cls = false) (callbacks : Nat)
    : Preserves superclass thread g (g.setInitializing thread cls)
      ⟨list, ⟨cls, .record callbacks⟩ :: rest, throwing⟩ := by
  obtain ⟨⟨settled, _, _, calls, below⟩, listOk⟩ := ok
  obtain ⟨unowned, unstarted⟩ := (shared.classes cls).fresh notInitializing notInitialized
  have unpending : ∀ sup, cls ∉ g.pendingInitializeMap sup := by
    intro sup member
    cases notInitializing.symm.trans ((shared.classes cls).pending sup member).2.1
  have unlisted : mentions list cls = 0 := by
    refine Nat.eq_zero_of_not_pos fun listed => ?_
    cases unowned.symm.trans ((listOk cls).owned listed).1
  have apart : ∀ x ∈ heldBy rest, x ≠ cls := by
    rintro x held rfl
    cases unowned.symm.trans (below.owned x held).initializer
  have touches : Touches (· = cls) g (g.setInitializing thread cls) := by
    refine ⟨rfl, by simp, fun x begun => ?_, fun x owner owned => ?_, fun x different => ?_⟩
    · simp only [Shared.isInitializing_setInitializing, Shared.isInitialized_setInitializing, Bool.or_eq_true]
      exact begun.imp_left Or.inr
    · have different : x ≠ cls := by
        rintro rfl
        cases unowned.symm.trans owned
      simpa [different] using owned
    · exact ⟨Function.update_of_ne different _ _, Function.update_of_ne different _ _, rfl, rfl, fun _ => id⟩
  refine preserves_keeps shared touches.keeps listOk ?_ shared.pendingOnce ⟨⟨touches.keeps.superSettled settled,
    ⟨by simp, by simp, unpending⟩, unlisted, unstarted⟩, nodup_singleton cls, ?_, calls, below.keep touches.keeps apart⟩
  · rintro x rfl
    exact ⟨by simp, ⟨by simp [notInitialized], by simp [notInitialized], by simp, by simp, (shared.classes x).once,
      fun sup member => (unpending sup member).elim⟩, listOk_of_unlisted unlisted unpending⟩
  · intro x top member
    exact apart x member (mem_singleton.1 top)

omit shared in
omit [DecidableEq Class] in
theorem touches_self : Touches (· = cls) g g :=
  ⟨rfl, fun _ => id, fun _ => id, fun _ _ => id, fun _ _ => ⟨rfl, rfl, rfl, rfl, fun _ => id⟩⟩

omit shared in
omit [DecidableEq Class] in
theorem ne_of_held (held : ∀ x ∈ [cls], x ∉ heldBy rest) : ∀ x ∈ heldBy rest, x ≠ cls := by
  rintro x member rfl
  exact held x (mem_singleton_self x) member

/-- Recording the class in the list cannot fail. -/
theorem preserves_record {callbacks : Nat} (ok : ThreadOk superclass g thread ⟨list, ⟨cls, .record callbacks⟩ :: rest, throwing⟩) :
    ∃ list', setThisThreadIsInitializingClass list cls = .ok list' ∧
      Preserves superclass thread g g ⟨list', ⟨cls, .callbacks callbacks⟩ :: rest, throwing⟩ := by
  obtain ⟨⟨⟨settled, owned, unlisted, unstarted⟩, nodup, apart, calls, below⟩, listOk⟩ := ok
  obtain ⟨list', recorded, counts⟩ := setThisThreadIsInitializingClass_ok unlisted
  have elsewhere : ∀ x, x ≠ cls → mentions list' x = mentions list x := by
    intro x different
    rw [counts, if_neg (Ne.symm different), Nat.add_zero]
  have here : mentions list' cls = 1 := by rw [counts, if_pos rfl, unlisted]
  have keeps : Keeps (· = cls) g g list list' := by
    refine ⟨touches_self, fun x listed => ?_, elsewhere⟩
    by_cases same : x = cls
    · rw [same]; exact Or.inr here
    · exact Or.inr ((elsewhere x same).trans listed)
  refine ⟨list', recorded, preserves_keeps shared keeps listOk ?_ shared.pendingOnce
    ⟨⟨keeps.superSettled settled, owned, here, unstarted⟩, nodup, apart, calls, below.keep keeps (ne_of_held apart)⟩⟩
  · rintro x rfl
    exact ⟨owned.initializer, shared.classes x, Nat.le_of_eq here, fun _ => ⟨owned.initializer, owned.initializing⟩, fun _ _ _ => here⟩

/-- `+initialize` is sent: it was not before. -/
theorem preserves_noteStarted (ok : ThreadOk superclass g thread ⟨list, ⟨cls, .callbacks 0⟩ :: rest, throwing⟩) :
    Preserves superclass thread g (g.noteStarted cls) ⟨list, ⟨cls, .initializing⟩ :: rest, throwing⟩ := by
  obtain ⟨⟨⟨settled, owned, listed, unstarted⟩, nodup, apart, calls, below⟩, listOk⟩ := ok
  have touches : Touches (· = cls) g (g.noteStarted cls) :=
    ⟨rfl, fun _ => id, fun _ => id, fun _ _ => id, fun x different => ⟨rfl, rfl, by simp [different], rfl, fun _ => id⟩⟩
  refine preserves_keeps shared touches.keeps listOk ?_ shared.pendingOnce ⟨⟨settled, { owned with }, listed⟩, nodup,
    apart, calls, below.keep touches.keeps (ne_of_held apart)⟩
  · rintro x rfl
    refine ⟨owned.initializer, { shared.classes x with fresh := fun notBegun => ?_, once := by simp [unstarted] }, { listOk x with }⟩
    cases notBegun.symm.trans owned.initializing

/-- `+initialize` has come back, by a return or by an exception. -/
theorem preserves_noteReturned (ok : ThreadOk superclass g thread ⟨list, ⟨cls, .initializing⟩ :: rest, throwing⟩) (rethrow : Bool) :
    Preserves superclass thread g (g.noteReturned cls) ⟨list, ⟨cls, .finish rethrow⟩ :: rest, false⟩ := by
  obtain ⟨⟨⟨settled, owned, listed⟩, nodup, apart, calls, below⟩, listOk⟩ := ok
  have touches : Touches (· = cls) g (g.noteReturned cls) :=
    ⟨rfl, fun _ => id, fun _ => id, fun _ _ => id, fun x different => ⟨rfl, rfl, rfl, by simp [different], fun _ => id⟩⟩
  refine preserves_keeps shared touches.keeps listOk ?_ shared.pendingOnce ⟨⟨settled, { owned with }, listed, by simp⟩,
    nodup, apart, calls, below.keep touches.keeps (ne_of_held apart)⟩
  · rintro x rfl
    refine ⟨owned.initializer, { shared.classes x with closed := fun done => ?_, pending := fun sup member => ?_ }, { listOk x with }⟩
    · exact ⟨((shared.classes x).closed done).1, by simp⟩
    · exact (owned.free sup member).elim

/-- The superclass is not initialized, so this thread is initializing it. -/
theorem preserves_finishInitializingAfter (here : Local Class) {rethrow : Bool}
    (ok : ThreadOk superclass g thread { here with stack := ⟨cls, .finish rethrow⟩ :: rest }) {sup : Class}
    (isSuper : superclass cls = some sup) (notDone : g.isInitialized sup = false) :
    Preserves superclass thread g (g.finishInitializingAfter cls sup) (leave here rest rethrow) := by
  obtain ⟨⟨⟨settled, owned, listed, returned⟩, _, apart, calls, below⟩, listOk⟩ := ok
  have superListed : mentions here.list sup = 1 := by
    refine (settled sup isSuper).resolve_left fun done => ?_
    exact Bool.noConfusion (notDone.symm.trans done)
  have superOwner : g.initializer sup = some thread := ((listOk sup).owned (Nat.lt_of_lt_of_eq Nat.one_pos superListed.symm)).1
  have touches : Touches (· = cls) g (g.finishInitializingAfter cls sup) := by
    refine ⟨rfl, fun _ => id, fun _ => id, fun _ _ => id, fun x different => ⟨rfl, rfl, rfl, rfl, fun key => ?_⟩⟩
    simp [show x ≠ cls from different]
  have keeps : Keeps (· = cls) g (g.finishInitializingAfter cls sup) here.list (leave here rest rethrow).list := by
    rw [leave_list]
    exact touches.keeps
  refine preserves_keeps shared keeps listOk ?_ ?_ ?_
  · rintro x rfl
    rw [leave_list]
    refine ⟨owned.initializer, { shared.classes x with pending := fun key member => ?_ }, { listOk x with pending := fun _ _ _ => listed }⟩
    obtain ⟨rfl, _⟩ := (Shared.mem_pending_finishInitializingAfter.1 member).resolve_right (owned.free key)
    exact ⟨isSuper, owned.initializing, returned, owned.initializer.trans superOwner.symm⟩
  · intro key
    by_cases same : key = sup
    · subst same
      simpa [Shared.finishInitializingAfter] using ⟨owned.free key, shared.pendingOnce key⟩
    · simpa [Shared.finishInitializingAfter, same] using shared.pendingOnce key
  · rw [leave_list]
    exact leave_stackOk here rethrow (below.keep touches.keeps (ne_of_held apart)) calls
      (Or.inr listed)

omit shared in
omit [DecidableEq Class] in
theorem heldWork (subs : List Class) (next : Class) (work : List (Class × Option Class)) (rethrow : Bool) :
    Frame.held ⟨cls, .finishing (subs.map (fun sub => (sub, some next)) ++ work) rethrow⟩ = subs ++ work.map Prod.fst := by
  simp [Frame.held, Function.comp_def]

/-- One call of `_finishInitializing` marks its class and takes over the classes
that were waiting for it; they are in this thread's list. -/
theorem preserves_finishOne {rethrow : Bool} {next : Class} {supercls : Option Class} {work : List (Class × Option Class)}
    (ok : ThreadOk superclass g thread ⟨list, ⟨cls, .finishing ((next, supercls) :: work) rethrow⟩ :: rest, throwing⟩) :
    ∃ g' list' work', finishOne g list next supercls work = .ok (g', list', work') ∧
      Preserves superclass thread g g' ⟨list', ⟨cls, .finishing work' rethrow⟩ :: rest, throwing⟩ := by
  obtain ⟨⟨⟨ready, covered⟩, nodup, apart, calls, below⟩, listOk⟩ := ok
  have this := ready (next, supercls) mem_cons_self
  obtain ⟨list', cleared, counts⟩ := setThisThreadIsNotInitializingClass_ok (by rw [this.listed]; exact Nat.one_pos)
  have asserted : (supercls.any fun sup => !g.isInitialized sup) = false := by
    cases supercls with
    | none => rfl
    | some sup => simp [this.superInitialized sup rfl]
  obtain ⟨freshNext, restNodup⟩ := nodup_cons.1 nodup
  refine ⟨(g.setInitialized next).erasePending next, list', (g.pendingInitializeMap next).map (fun sub => (sub, some next)) ++ work, ?_, ?_⟩
  · simp [finishOne, asserted, cleared]
  have elsewhere : ∀ x, x ≠ next → mentions list' x = mentions list x := by
    intro x different
    rw [counts, if_neg (Ne.symm different), Nat.sub_zero]
  have gone : mentions list' next = 0 := by rw [counts, if_pos rfl, this.listed]
  have touches : Touches (· = next) g ((g.setInitialized next).erasePending next) := by
    refine ⟨rfl, fun x done => by simp [done], fun x begun => ?_, fun _ _ => id, fun x different => ?_⟩
    · by_cases same : x = next
      · simp [same]
      · simpa [same] using begun
    · exact ⟨Function.update_of_ne different _ _, rfl, rfl, rfl, fun key => by simp⟩
  have keeps : Keeps (· = next) g ((g.setInitialized next).erasePending next) list list' := by
    refine ⟨touches, fun x listed => ?_, elsewhere⟩
    by_cases same : x = next
    · exact Or.inl (by simp [same])
    · exact Or.inr ((elsewhere x same).trans listed)
  have subReady : ∀ sub ∈ g.pendingInitializeMap next,
      Ready superclass ((g.setInitialized next).erasePending next) thread list' sub (some next) := by
    intro sub member
    obtain ⟨isSuper, begun, returned, owner⟩ := (shared.classes sub).pending next member
    have different : sub ≠ next := by
      rintro rfl
      exact this.owned.free sub member
    have owned := owner.trans this.owned.initializer
    refine ⟨isSuper, ?_, ⟨owned, by simp [different, begun], fun key => ?_⟩, ?_, returned⟩
    · rintro sup ⟨⟩
      simp
    · rw [Shared.mem_pending_erasePending]
      rintro ⟨other, again⟩
      have isOther := ((shared.classes sub).pending key again).1
      exact other (Option.some.inj (isOther.symm.trans isSuper))
    · rw [elsewhere sub different]
      exact (listOk sub).pending next member owned
  refine preserves_keeps shared keeps listOk ?_ ?_ ⟨⟨?_, ?_⟩, ?_, ?_, calls, ?_⟩
  · rintro x rfl
    have unpended : ∀ key, x ∉ ((g.setInitialized x).erasePending x).pendingInitializeMap key := by simp [this.owned.free]
    refine ⟨this.owned.initializer, ⟨by simp, fun _ => ⟨fun sup isSuper => ?_, this.returned⟩, by simp, by simp, (shared.classes x).once,
      fun key member => (unpended key member).elim⟩, listOk_of_unlisted gone unpended⟩
    exact keeps.initialized sup (this.superInitialized sup (this.superclass.symm.trans isSuper))
  · intro key
    by_cases same : key = next
    · simp [Shared.erasePending, same]
    · simpa [Shared.erasePending, same] using shared.pendingOnce key
  · intro item member
    rcases mem_append.1 member with sub | later
    · obtain ⟨x, pending, rfl⟩ := mem_map.1 sub
      exact subReady x pending
    · refine keeps.ready (ready item (mem_cons_of_mem _ later)) ?_
      rintro rfl
      exact freshNext (mem_map.2 ⟨item, later, rfl⟩)
  · rcases covered with done | listed
    · exact Or.inl (keeps.initialized cls done)
    · rcases mem_cons.1 listed with here | later
      · exact Or.inl (by simp [show cls = next from here])
      · exact Or.inr (by rw [map_append]; exact mem_append_right _ later)
  · rw [heldWork]
    refine nodup_append.2 ⟨shared.pendingOnce next, restNodup, ?_⟩
    rintro x pending _ later rfl
    obtain ⟨item, inWork, rfl⟩ := mem_map.1 later
    exact (ready item (mem_cons_of_mem _ inWork)).owned.free next pending
  · intro x member held
    rw [heldWork] at member
    rcases mem_append.1 member with pending | later
    · exact (below.owned x held).free next pending
    · exact apart x (mem_cons_of_mem _ later) held
  · refine below.keep keeps fun x member => ?_
    rintro rfl
    exact apart x mem_cons_self member

omit shared in
/-- A stack that differs in where its top activation stands, which holds what it held. -/
theorem StackOk.retop (ok : StackOk superclass g thread list (⟨cls, pc⟩ :: rest)) (pc' : Pc Class)
    (top : FrameOk superclass g thread list ⟨cls, pc'⟩) (held : Frame.held ⟨cls, pc'⟩ = Frame.held ⟨cls, pc⟩) :
    StackOk superclass g thread list (⟨cls, pc'⟩ :: rest) := by
  obtain ⟨_, nodup, apart, calls, below⟩ := ok
  exact ⟨top, held ▸ nodup, held ▸ apart, calls, below⟩

/-- The code of the runtime keeps the invariant, so that none of its fatal branches is taken. -/
theorem preserves_advance {here here' : Local Class} (ok : ThreadOk superclass g thread here)
    (run : advance superclass thread g here = some (g', here')) : Preserves superclass thread g g' here' := by
  obtain ⟨list, stack, throwing⟩ := here
  cases throwing with
  | true => cases run
  | false =>
  cases stack with
  | nil => cases run
  | cons frame rest =>
  obtain ⟨cls, pc⟩ := frame
  have quiet : ∀ pc', FrameOk superclass g thread list ⟨cls, pc'⟩ → Frame.held ⟨cls, pc'⟩ = Frame.held ⟨cls, pc⟩ →
      ∀ lock, Preserves superclass thread g { g with classInitLock := lock } ⟨list, ⟨cls, pc'⟩ :: rest, false⟩ :=
    fun pc' top held lock => preserves_quiet shared ⟨list, ⟨cls, pc'⟩ :: rest, false⟩ ok.list
      (ok.stack.retop pc' top held)
  have returns : Settled g list cls → ∀ rethrow lock, Preserves superclass thread g
      { g with classInitLock := lock } (leave ⟨list, ⟨cls, pc⟩ :: rest, false⟩ rest rethrow) :=
    fun settled rethrow => preserves_leave shared _ rethrow ok.list ok.stack.2.2.2.2 ok.stack.2.2.2.1 settled
  simp only [advance] at run
  cases pc with
  | start =>
    dsimp only at run
    split at run
    · rename_i root
      cases run
      refine quiet .tryInitializing (fun sup isSuper => ?_) rfl g.classInitLock
      cases root.symm.trans isSuper
    · rename_i sup isSuper
      split at run
      · rename_i done
        cases run
        refine quiet .tryInitializing (fun other isOther => ?_) rfl g.classInitLock
        cases isSuper.symm.trans isOther
        exact Or.inl done
      · cases run
        have link : Calls superclass ⟨sup, .start⟩ (⟨cls, .inSuper⟩ :: rest) := isSuper
        refine preserves_quiet shared ⟨list, ⟨sup, .start⟩ :: ⟨cls, .inSuper⟩ :: rest, false⟩ ok.list
          ⟨trivial, nodup_nil, ?_, link, ?_⟩
        · intro x member; cases member
        · exact ok.stack.retop .inSuper trivial rfl
  | inSuper | initializing => cases run
  | tryInitializing =>
    dsimp only at run
    split at run
    · cases run
    split at run
    · rename_i clear
      cases run
      simp only [Bool.and_eq_true, Bool.not_eq_true'] at clear
      exact preserves_setInitializing shared ok clear.1 clear.2 _
    · rename_i begun
      cases run
      refine quiet .checkInitializing ?_ rfl g.classInitLock
      show g.isInitializing cls = true ∨ g.isInitialized cls = true
      revert begun
      cases g.isInitializing cls <;> cases g.isInitialized cls <;> simp
  | record =>
    obtain ⟨_, recorded, preserves⟩ := preserves_record shared ok
    simp only [recorded] at run
    cases run
    exact preserves
  | callbacks remaining =>
    cases remaining with
    | zero => cases run; exact preserves_noteStarted shared ok
    | succ => cases run
  | finish rethrow =>
    obtain ⟨settled, owned, listed, returned⟩ := ok.stack.1
    dsimp only at run
    split at run
    · cases run
    split at run
    · rename_i root
      cases run
      refine quiet (.finishing [(cls, none)] rethrow)
        ⟨fun item member => ?_, Or.inr (mem_singleton_self cls)⟩ rfl _
      rw [mem_singleton.1 member]
      refine ⟨root, fun _ isSuper => ?_, owned, listed, returned⟩
      cases isSuper
    · rename_i sup isSuper
      split at run
      · rename_i done
        cases run
        refine quiet (.finishing [(cls, some sup)] rethrow)
          ⟨fun item member => ?_, Or.inr (mem_singleton_self cls)⟩ rfl _
        rw [mem_singleton.1 member]
        refine ⟨isSuper, fun _ same => ?_, owned, listed, returned⟩
        cases same
        exact done
      · rename_i notDone
        cases run
        exact preserves_finishInitializingAfter shared _ ok isSuper (by simpa using notDone)
  | finishing work rethrow =>
    cases work with
    | nil =>
      cases run
      exact returns (Or.inl (ok.stack.1.2.resolve_right not_mem_nil)) rethrow none
    | cons =>
      obtain ⟨_, _, _, finished, preserves⟩ := preserves_finishOne shared ok
      simp only [finished] at run
      cases run
      exact preserves
  | checkInitializing =>
    have begun : g.isInitializing cls = true ∨ g.isInitialized cls = true := ok.stack.1
    dsimp only at run
    split at run
    · cases run
      exact quiet .checkThread begun rfl g.classInitLock
    · rename_i notInitializing
      cases run
      exact quiet .checkInitialized (begun.resolve_left notInitializing) rfl g.classInitLock
  | checkThread =>
    dsimp only at run
    split at run
    · rename_i listed
      cases run
      have once := (ok.list cls).once
      have positive := (thisThreadIsInitializingClass_iff list cls).1 listed
      exact returns (Or.inr (Nat.le_antisymm once positive)) false g.classInitLock
    · cases run
      exact quiet .waiting ok.stack.1 rfl g.classInitLock
  | waiting =>
    dsimp only at run
    split at run
    · cases run
    · split at run
      · rename_i done
        cases run
        exact returns (Or.inl done) false g.classInitLock
      · cases run
  | checkInitialized =>
    have done : g.isInitialized cls = true := ok.stack.1
    simp only [done, if_true] at run
    cases run
    exact returns (Or.inl done) false g.classInitLock

omit shared in
omit [DecidableEq Class] in
theorem inUserCode_calls (userCode : InUserCode stack) (frame : Frame Class) : Calls superclass frame stack := by
  unfold Calls
  split
  · exact userCode.elim
  · trivial

theorem preserves_step {here here' : Local Class} (ok : ThreadOk superclass g thread here)
    (step : ThreadStep superclass thread g here g' here') : Preserves superclass thread g g' here' := by
  cases step with
  | code run => exact preserves_advance shared ok run
  | @call _ _ list stack callee userCode =>
    refine preserves_quiet shared ⟨list, ⟨callee, .start⟩ :: stack, false⟩ ok.list ⟨trivial, nodup_nil, ?_,
      inUserCode_calls userCode _, ok.stack⟩
    intro x member
    cases member
  | @callbackReturns _ _ list callee remaining rest =>
    exact preserves_quiet shared ⟨list, ⟨callee, .callbacks remaining⟩ :: rest, false⟩ ok.list
      (ok.stack.retop (.callbacks remaining) ok.stack.1 rfl)
  | initializeReturns => exact preserves_noteReturned shared ok false
  | @throws _ _ list stack => exact preserves_quiet shared ⟨list, stack, true⟩ ok.list ok.stack
  | @catches _ _ list stack => exact preserves_quiet shared ⟨list, stack, false⟩ ok.list ok.stack
  | initializeThrows => exact preserves_noteReturned shared ok true
  | @unwind _ _ list _ _ rest => exact preserves_quiet shared ⟨list, rest, true⟩ ok.list ok.stack.2.2.2.2
  | addWillInitializeClassFunc => exact preserves_quiet shared _ ok.list ok.stack

end Steps

/-! ## Every run -/

section Runs

open Lib.Threads

variable [DecidableEq Thread] (superclass : Class → Option Class)

theorem invariant : Invariant (ThreadStep superclass) (fun config => SharedOk superclass config.shared)
    (fun (thread : Thread) g here => ThreadOk superclass g thread here) where
  own step shared ok := ⟨(preserves_step shared ok step).shared, (preserves_step shared ok step).own⟩
  others step shared ok _ different _ there := (preserves_step shared ok step).others _ different _ there

omit [DecidableEq Thread] in
theorem invariant_initial (config : Config Thread (Shared Class Thread) (Local Class)) (initial : Initial config) :
    SharedOk superclass config.shared ∧ ∀ thread, ThreadOk superclass config.shared thread (config.threads thread) := by
  obtain ⟨shared, locals⟩ := initial
  rw [shared]
  constructor
  · refine ⟨rfl, fun cls => ?_, fun _ => nodup_nil⟩
    constructor <;> simp [Shared.isInitializing, Shared.isInitialized]
  · intro thread
    rw [locals]
    exact ⟨trivial, fun cls => ⟨by simp [mentions], by simp [mentions], by simp⟩⟩

/-- **The `+initialize` protocol is safe.** In every configuration that any number
of threads reach from the initial one, under every class tree: `+initialize` was
sent to each class at most once; a class that is initialized has an initialized
superclass and its own `+initialize` has come back; the two flags exclude each
other; nothing fatal happened; and no step takes `CLS_INITIALIZED` back. -/
theorem initialize_safe (config : Config Thread (Shared Class Thread) (Local Class))
    (reached : Reachable (ThreadStep superclass) Initial config) : (∀ cls, config.shared.started cls ≤ 1) ∧
    (∀ cls, config.shared.isInitialized cls = true → (∀ sup, superclass cls = some sup → config.shared.isInitialized sup = true) ∧
        0 < config.shared.returned cls) ∧ (∀ cls, ¬ (config.shared.isInitializing cls = true ∧ config.shared.isInitialized cls = true)) ∧
    config.shared.fatal = none ∧ ∀ config', Step (ThreadStep superclass) config config' →
      ∀ cls, config.shared.isInitialized cls = true → config'.shared.isInitialized cls = true := by
  obtain ⟨shared, locals⟩ := (invariant superclass).reachable (invariant_initial superclass) reached
  refine ⟨fun cls => (shared.classes cls).once, fun cls => (shared.classes cls).closed, fun cls => (shared.classes cls).exclusive,
    shared.noFatal, fun config' move => ?_⟩
  obtain ⟨thread, step⟩ := move
  exact (preserves_step shared (locals thread) step).initialized

/-- A single root class, initialized by a single thread. -/
theorem initialize_safe_root : ∃ config : Config Unit (Shared Unit Unit) (Local Unit),
    Reachable (ThreadStep fun _ => none) Initial config ∧ config.shared.isInitialized () = true ∧ config.shared.started () ≤ 1 := by
  let code {g g' : Shared Unit Unit} {here here' : Local Unit}
      (run : advance (fun _ => none) () g here = some (g', here')) : ThreadStep (fun _ => none) () g here g' here' := .code run
  have start : Initial (⟨⟨fun _ => ⟨false, false⟩, fun _ => [], none, 0, none, fun _ => none, fun _ => 0, fun _ => 0⟩,
    fun _ => ⟨none, [], false⟩⟩ : Config Unit (Shared Unit Unit) (Local Unit)) := ⟨rfl, fun _ => rfl⟩
  have reached := ((((((((Reachable.start start |>.next (.of () (.call () trivial))) |>.next (.of () (code rfl))) |>.next (.of () (code
    rfl))) |>.next (.of () (code rfl))) |>.next (.of () (code rfl))) |>.next (.of () .initializeReturns)) |>.next (.of () (code rfl)))
    |>.next (.of () (code rfl))) |>.next (.of () (code rfl))
  exact ⟨_, reached, rfl, (initialize_safe _ _ reached).1 ()⟩

end Runs

end DarwinNotes.Objc.Initialize
