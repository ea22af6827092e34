import DarwinNotes.Objc.Sync.Steps

/-!
# One lock for an object

In every run the thread count of a block is the number of the threads that use it, and
every thread knows what it has to know. So the block of an object that some thread is
synchronized on, or is about to be, is the one all other threads find.
-/

namespace DarwinNotes.Objc.Sync
open Lib.Threads

variable {Thread Object : Type} [Fintype Thread] [DecidableEq Thread] {directKeys : Bool} {stripe : Object → Nat}

/-- How many threads use a block. -/
def users (config : Config Thread (Shared Thread Object) (Local Object)) (n : Nat) : Nat := ∑ thread, (config.threads thread).uses.count n

structure Ok (directKeys : Bool) (stripe : Object → Nat) (config : Config Thread (Shared Thread Object) (Local Object)) : Prop where
  lists : ListsOk stripe config.shared
  threads : ∀ thread, ThreadOk directKeys stripe config.shared thread (config.threads thread)
  counted : ∀ s, ∀ n ∈ config.shared.lists s, (config.shared.blocks n).threadCount = (users config n : Int)

variable {config config' : Config Thread (Shared Thread Object) (Local Object)}

namespace Ok
variable (ok : Ok directKeys stripe config)
include ok

/-- Every other thread is counted at most once. -/
theorem users_le (n : Nat) (thread : Thread) : users config n + 1 ≤ Fintype.card Thread + (config.threads thread).uses.count n := by
  have split := Finset.add_sum_erase Finset.univ (fun thread => (config.threads thread).uses.count n) (Finset.mem_univ thread)
  have rest : ∑ other ∈ Finset.univ.erase thread, (config.threads other).uses.count n ≤ Fintype.card Thread - 1 := by
    simpa using Finset.sum_le_card_nsmul (Finset.univ.erase thread) (fun thread => (config.threads thread).uses.count n) 1
      fun thread _ => List.nodup_iff_count_le_one.mp (ok.threads thread).nodup n
  have := Fintype.card_pos_iff.mpr ⟨thread⟩
  unfold users
  omega

variable (few : Fintype.card Thread < 2 ^ 31)
include few

theorem counts (thread : Thread) : Counts config.shared (config.threads thread) := by
  intro s n mem
  rw [ok.counted s n mem]
  have atLeast : _ ≤ users config n := amount_le_sum (fun here : Local Object => here.uses.count n) config.threads thread
  have := ok.users_le n thread
  omega

theorem inUse (thread : Thread) : ∀ n ∈ (config.threads thread).uses, InUse config.shared n :=
  fun _ used => ((ok.threads thread).inUse (ok.counts few thread) used).1

/-- **One step of some thread.** -/
theorem step [DecidableEq Object] (move : Step (ThreadStep directKeys stripe True) config config') : Ok directKeys stripe config' := by
  obtain @⟨thread, _, _, here', taken⟩ := move
  have done := stepOk ok.lists (ok.threads thread) (ok.counts few thread) taken
  refine ⟨done.lists, fun other => ?_, fun s n mem => ?_⟩
  · dsimp only
    by_cases same : other = thread
    · subst same
      rw [Function.update_self]
      exact done.own
    · rw [Function.update_of_ne same]
      exact (ok.threads other).keeps (done.others _ (ok.inUse few other))
        fun n => ((ok.threads other).mutex n).trans (done.mutexes other same n)
  · have change := sum_update (fun here : Local Object => here.uses.count n) config.threads thread here'
    unfold users
    dsimp only at change ⊢
    rcases done.counted s n mem with ⟨⟨s', listed⟩, counted⟩ | ⟨_, counted⟩
    · have before := ok.counted s' n listed
      unfold users at before
      omega
    -- no thread has seen the new block
    have none : ∀ t, (config.threads t).uses.count n = 0 := by
      intro t
      refine List.count_eq_zero.mpr fun used => ?_
      have := ok.lists.bound _ n ((ok.threads t).listed n used)
      omega
    simp only [none, Finset.sum_const_zero] at change
    omega

end Ok

theorem ok_initial (initial : Initial config) : Ok directKeys stripe config := by
  obtain ⟨empty, unlocked, idle⟩ := initial
  refine ⟨⟨fun n _ => unlocked n, ?_, ?_, ?_⟩, fun thread => ?_, ?_⟩
  case refine_4 =>
    rw [idle thread]
    exact ⟨List.nodup_nil, nofun, nofun, fun n => Nat.zero_le _, nofun, fun n => Nat.zero_le _, fun _ => rfl, rfl⟩
  all_goals simp [empty]

/-- **Every run.** -/
theorem ok_reachable [DecidableEq Object] (few : Fintype.card Thread < 2 ^ 31)
    (reached : Reachable (ThreadStep directKeys stripe True) Initial config) : Ok directKeys stripe config := by
  induction reached with
  | start initial => exact ok_initial initial
  | next _ move ih => exact ih.step few move

/-- The thread is synchronized on the block, or waits for its mutex. -/
def Involved (here : Local Object) (n : Nat) : Prop :=
  ∃ object, (object, n) ∈ here.inside ∨ here.pc = .lock object n ∨ here.pc = .tryLock object n

variable {g : Shared Thread Object}

omit [Fintype Thread] in
/-- Then it uses the block, and the block is the one of the object. -/
theorem ThreadOk.involved {thread : Thread} {here : Local Object} (ok : ThreadOk directKeys stripe g thread here) {n : Nat}
    (involved : Involved here n) : n ∈ here.uses := by
  obtain ⟨_, inside | waits | tries⟩ := involved
  · exact mem_uses_of_cached (ok.cached inside)
  · have := ok.pc
    rw [waits] at this
    exact mem_uses_of_cached this.2.1
  · have := ok.pc
    rw [tries] at this
    exact mem_uses_of_cached this.2.1

omit [Fintype Thread] in
theorem ThreadOk.owns {thread : Thread} {here : Local Object} (ok : ThreadOk directKeys stripe g thread here) {object : Object} {n : Nat}
    (inside : (object, n) ∈ here.inside) : ∃ times, (g.blocks n).mutex = some (thread, times) := by
  have covered := ok.mutex n
  have positive : 0 < here.depth n := List.count_pos_iff.mpr (List.mem_map_of_mem inside)
  unfold owned at covered
  cases is : (g.blocks n).mutex with
  | none =>
    rw [is, timesLocked] at covered
    omega
  | some pair =>
    obtain ⟨owner, times⟩ := pair
    by_cases same : owner = thread
    · exact ⟨times, by rw [same]⟩
    · rw [is, timesLocked, if_neg same] at covered
      omega

/-- **`@synchronized` uses one lock for an object.** -/
theorem one_lock_per_object {Thread Object : Type} [Fintype Thread] [DecidableEq Thread] [DecidableEq Object]
    (few : Fintype.card Thread < 2 ^ 31) {directKeys : Bool} {stripe : Object → Nat}
    {config : Config Thread (Shared Thread Object) (Local Object)}
    (reached : Reachable (ThreadStep directKeys stripe True) Initial config) :
    (∀ s, ∀ n ∈ config.shared.lists s, ∀ m ∈ config.shared.lists s, (config.shared.blocks n).object = (config.shared.blocks m).object →
      0 < (config.shared.blocks n).threadCount → 0 < (config.shared.blocks m).threadCount → n = m) ∧
    (∀ config', Step (ThreadStep directKeys stripe True) config config' → ∀ thread n, Involved (config.threads thread) n →
        (config'.shared.blocks n).object = (config.shared.blocks n).object) ∧
    (∀ thread thread' object n n', (object, n) ∈ (config.threads thread).inside → (object, n') ∈ (config.threads thread').inside →
      n = n' ∧ (config.shared.blocks n).object = object ∧ (∃ times, (config.shared.blocks n).mutex = some (thread, times)) ∧
        ∃ times, (config.shared.blocks n').mutex = some (thread', times)) ∧
    ∀ thread message, (config.threads thread).pc ≠ .fatal message := by
  have ok := ok_reachable few reached
  refine ⟨fun s n memN m memM same _ _ => ok.lists.unique s n memN m memM same, fun config' move thread n involved => ?_,
    fun thread thread' object n n' inside inside' => ?_, fun thread message fatal => ?_⟩
  · obtain ⟨mover, taken⟩ := move
    have done := stepOk ok.lists (ok.threads mover) (ok.counts few mover) taken
    have used := (ok.threads thread).involved involved
    exact (done.others _ (ok.inUse few thread)).object n used
  · have same := (ok.threads thread).inside _ inside
    have same' := (ok.threads thread').inside _ inside'
    have listed := (ok.threads thread).listed n (mem_uses_of_cached ((ok.threads thread).cached inside))
    have listed' := (ok.threads thread').listed n' (mem_uses_of_cached ((ok.threads thread').cached inside'))
    rw [same] at listed
    rw [same'] at listed'
    exact ⟨ok.lists.unique _ n listed n' listed' (same.trans same'.symm), same, (ok.threads thread).owns inside,
      (ok.threads thread').owns inside'⟩
  · have := (ok.threads thread).pc
    rw [fatal] at this
    exact this

/-! ## Too many attempts -/

section Attempts

variable {limited : Prop} {g g' : Shared Bool Nat} {a b a' b' : Local Nat}

/-- Two threads. -/
def both (a b : Local Nat) : Bool → Local Nat
  | true => a
  | false => b

/-- The runs of two threads, with one list. -/
abbrev Reached (limited : Prop) (g : Shared Bool Nat) (a b : Local Nat) : Prop :=
  Reachable (ThreadStep true (fun _ => 0) limited) Initial ⟨g, both a b⟩

variable (reached : Reached limited g a b)
include reached

theorem reached_true (step : ThreadStep true (fun _ => 0) limited true g a g' a') : Reached limited g' a' b := by
  have moved := Reachable.next reached (.of true step)
  have same : Function.update (both a b) true a' = both a' b := by
    funext t
    cases t <;> rfl
  rwa [same] at moved

theorem reached_false (step : ThreadStep true (fun _ => 0) limited false g b g' b') : Reached limited g' a b' := by
  have moved := Reachable.next reached (.of false step)
  have same : Function.update (both a b) false b' = both a b' := by
    funext t
    cases t <;> rfl
  rwa [same] at moved

theorem code_true {g' : Shared Bool Nat} {a' : Local Nat} (step : advance true (fun _ => 0) true g a = some (g', a'))
    : Reached limited g' a' b := reached_true reached (.code step)

theorem code_false (g' : Shared Bool Nat) (b' : Local Nat) (step : advance true (fun _ => 0) false g b = some (g', b'))
    : Reached limited g' a b' := reached_false reached (.code step)

omit reached

/-- Nothing is synchronized. -/
def unused : Shared Bool Nat := { allocated := 0, blocks := fun _ => ⟨0, 0, none⟩, lists := fun _ => [] }

def newThread : Local Nat := { fast := none, cache := [], inside := [], leaving := none, pc := .idle }

/-- One thread is synchronized on the object 0. -/
def taken : Shared Bool Nat := (unused.allocate 0 ⟨0, 1, none⟩).setBlock 0 ⟨0, 1, some (true, 1)⟩

def owner : Local Nat := { newThread with fast := some (0, 1), inside := [(0, 0)] }

theorem reached_taken : Reached limited taken owner newThread := by
  have start : Reached limited unused newThread newThread := .start ⟨fun _ => rfl, fun _ => rfl, fun thread => by cases thread <;> rfl⟩
  have calls := reached_true start (.enter .enter 0 nofun rfl fun _ => ⟨nofun, nofun⟩)
  have scans := code_true calls rfl
  have lists := code_true scans rfl
  have saves := code_true lists rfl
  have locks := code_true saves rfl
  exact code_true locks rfl

theorem one_lock_per_object_taken :
    Reached True taken owner newThread ∧ ∀ thread message, (both owner newThread thread).pc ≠ .fatal message :=
  ⟨reached_taken, (one_lock_per_object (by decide) reached_taken).2.2.2⟩

/-- The other thread is synchronized on the object 1, and has tried to get in on the object 0. -/
def tried : Shared Bool Nat := ((taken.allocate 0 ⟨1, 1, none⟩).setBlock 1 ⟨1, 1, some (false, 1)⟩).setBlock 0 ⟨0, 2, some (true, 1)⟩

def trier (lockCount : Nat) (pc : Pc Nat) : Local Nat :=
  { fast := some (1, 1), cache := [(0, lockCount)], inside := [(1, 1)], leaving := none, pc }

theorem reached_tried : Reached False tried owner (trier 1 .idle) := by
  let second := taken.allocate 0 ⟨1, 1, none⟩
  let inside := second.setBlock 1 ⟨1, 1, some (false, 1)⟩
  let other : Local Nat := { newThread with fast := some (1, 1), inside := [(1, 1)] }
  have start : Reached False taken owner newThread := reached_taken
  have calls := reached_false start (.enter .enter 1 nofun rfl nofun)
  have scans := code_false calls taken { newThread with pc := .scan .enter 1 0 false } rfl
  have lists := code_false scans taken { newThread with pc := .list .enter 1 false } rfl
  have saves := code_false lists second { newThread with pc := .save .enter 1 false (some 1) } rfl
  have locks := code_false saves second { newThread with fast := some (1, 1), pc := .lock 1 1 } rfl
  have enters := code_false locks inside other rfl
  have tries := reached_false enters (.enter .tryEnter 0 nofun rfl nofun)
  have scans := code_false tries inside { other with pc := .scan .tryEnter 0 0 true } rfl
  have lists := code_false scans inside { other with pc := .list .tryEnter 0 true } rfl
  have saves := code_false lists tried { other with pc := .save .tryEnter 0 true (some 0) } rfl
  have locks := code_false saves tried (trier 1 (.tryLock 0 0)) rfl
  exact code_false locks tried (trier 1 .idle) rfl

/-- A failed `objc_sync_try_enter` leaves the `lockCount` incremented. -/
theorem reached_again {lockCount : Nat} (reached : Reached False tried owner (trier lockCount .idle)) (some_ : lockCount ≠ 0) :
    Reached False tried owner (trier ((lockCount + 1) % 2 ^ 32) .idle) := by
  have tries := reached_false reached (.enter .tryEnter 0 nofun rfl nofun)
  have scans := code_false tries tried (trier lockCount (.scan .tryEnter 0 0 true)) rfl
  have hits := code_false scans tried (trier ((lockCount + 1) % 2 ^ 32) (.tryLock 0 0)) (by
    show (if _ ∨ lockCount = 0 then _ else _) = _
    rw [if_neg (by simp [some_, tried])]
    rfl)
  exact code_false hits tried (trier ((lockCount + 1) % 2 ^ 32) .idle) rfl

theorem reached_attempts (k : Nat) (small : k < 2 ^ 32 - 1) : Reached False tried owner (trier (k + 1) .idle) := by
  induction k with
  | zero => exact reached_tried
  | succ k ih =>
    have again := reached_again (ih (by omega)) (Nat.succ_ne_zero k)
    rwa [Nat.mod_eq_of_lt (by omega)] at again

/-- **After 2³² failed attempts** to get in on an object, the next one is fatal. -/
theorem sync_cache_buggy : ∃ config : Config Bool (Shared Bool Nat) (Local Nat),
    Reachable (ThreadStep true (fun _ => 0) False) Initial config ∧ (config.threads false).pc = .fatal "id2data cache is buggy" := by
  have last := reached_again (reached_attempts (2 ^ 32 - 2) (by decide)) (Nat.succ_ne_zero _)
  have wrapped : Reached False tried owner (trier 0 .idle) := last
  have tries := reached_false wrapped (.enter .tryEnter 0 nofun rfl nofun)
  have scans := code_false tries tried (trier 0 (.scan .tryEnter 0 0 true)) rfl
  exact ⟨_, code_false scans tried (trier 0 (.fatal "id2data cache is buggy")) rfl, rfl⟩

end Attempts

end DarwinNotes.Objc.Sync
