import DarwinNotes.Objc.Weak.Registration

/-!
# The weak table as a map from referents to sets of referrers

Runs of `weak_register_no_lock`, `weak_unregister_no_lock` and `weak_clear_no_lock`
from the zeroed table. A run keeps the table equal to the map as long as no entry
that is out of line loses its last referrer, and no longer.
-/

namespace DarwinNotes.Objc.Weak
open Lib.HashTable

/-- The calls. `memory` are the weak variables at the time of the call. -/
inductive Op
  | register (object : Object) (referent referrer newBlock : Nat) (crashIfDeallocating : Bool)
  | unregister (referent referrer : Nat)
  | clear (referent : Nat) (memory : Nat → Nat)

/-- The table, and what is registered in it. -/
structure State where
  weakTable : WeakTable
  registered : Finset (Nat × Nat)

variable (hashes : Hashes)

def zeroState : State := ⟨zeroTable hashes, ∅⟩

/-- What a call does to the table. -/
def Op.call (op : Op) (weakTable : WeakTable) : Option WeakTable :=
  match op with
  | .register object referent referrer newBlock crashIfDeallocating =>
    (weakRegisterNoLock hashes weakTable object referent referrer newBlock crashIfDeallocating).map Prod.fst
  | .unregister referent referrer => weakUnregisterNoLock hashes weakTable referent referrer
  | .clear referent memory => (weakClearNoLock hashes weakTable memory referent).map Prod.fst

/-- What a call is for. -/
def Op.meaning (op : Op) (registered : Finset (Nat × Nat)) : Finset (Nat × Nat) :=
  match op with
  | .register _ referent referrer _ _ => insert (referent, referrer) registered
  | .unregister referent referrer => registered.erase (referent, referrer)
  | .clear referent _ => registered.filter fun pair => pair.1 ≠ referent

def Op.exec (op : Op) (state : State) : Option State := (op.call hashes state.weakTable).map (⟨·, op.meaning state.registered⟩)

/-- The calls that are made: objects and weak variables are not nil, and a weak variable is registered
for an object that is not tagged, is not being deallocated and for which it is not registered. -/
def Legal (state : State) : Op → Prop
  | .register object referent referrer _ _ =>
    referent ≠ 0 ∧ object.isTaggedPointer = false ∧ object.deallocating = some false ∧ referrer ≠ 0 ∧
      (referent, referrer) ∉ state.registered
  | .unregister _ referrer => referrer ≠ 0
  | .clear referent _ => referent ≠ 0

instance (state : State) (op : Op) : Decidable (Legal state op) := by cases op <;> unfold Legal <;> infer_instance

/-- The call does not unregister the last referrer of an entry that is out of line. -/
def Careful (state : State) : Op → Prop
  | .unregister referent referrer => state.weakTable.OutOfLine hashes referent → ∃ place ≠ referrer, (referent, place) ∈ state.registered
  | _ => True

/-- The states that calls of some kind lead to. -/
inductive Run (hashes : Hashes) (allowed : State → Op → Prop) : State → Prop
  | zeroed : Run hashes allowed (zeroState hashes)
  | step {state state' : State} {op : Op} : Run hashes allowed state → allowed state op →
      op.exec hashes state = some state' → Run hashes allowed state'

/-- **The table is the map.** -/
structure Refines (hashes : Hashes) (state : State) : Prop where
  found_iff : ∀ referent ≠ 0, (∃ i, weakEntryForReferent hashes state.weakTable referent = .found i) ↔
    ∃ referrer, (referent, referrer) ∈ state.registered
  referrers : ∀ referent ≠ 0, ∀ i, weakEntryForReferent hashes state.weakTable referent = .found i →
    ∀ referrer, (state.weakTable.entries.slots i).referrers.Has referrer ↔ (referent, referrer) ∈ state.registered
  num_entries : state.weakTable.entries.count = (state.registered.image Prod.fst).card
  never_bad : ∀ referent ≠ 0, weakEntryForReferent hashes state.weakTable referent ≠ .bad

variable {hashes : Hashes} {state : State}

def State.Agrees (hashes : Hashes) (state : State) : Prop :=
  Weak.Agrees hashes state.weakTable fun referent referrer => (referent, referrer) ∈ state.registered

/-- No entry is without referrers. -/
def Tight (hashes : Hashes) (state : State) : Prop :=
  ∀ referent, state.weakTable.Knows hashes referent → ∃ referrer, (referent, referrer) ∈ state.registered

/-! ## Entries and referents -/

theorem State.Agrees.found_iff (agrees : state.Agrees hashes) {referent : Nat}
    (object : referent ≠ 0) : (∃ i, weakEntryForReferent hashes state.weakTable referent = .found i) ↔
      state.weakTable.Knows hashes referent := by
  obtain ⟨i, found, _, small, here⟩ | ⟨absent, unknown⟩ := agrees.ok.lookup object
  · exact iff_of_true ⟨i, found⟩ ⟨_, has_slot object small here, here⟩
  · refine iff_of_false ?_ unknown
    rintro ⟨i, found⟩
    exact nomatch absent.symm.trans found

/-- `num_entries` counts the referents that have an entry. -/
theorem State.Agrees.num_entries (agrees : state.Agrees hashes) (referents : Finset Nat)
    (exactly : ∀ referent, referent ∈ referents ↔ state.weakTable.Knows hashes referent) :
    state.weakTable.entries.count = referents.card := by
  cases allocated : state.weakTable.allocated with
  | false =>
    have none : referents = ∅ := by
      refine Finset.eq_empty_of_forall_notMem fun referent known => ?_
      obtain ⟨entry, has, _⟩ := (exactly referent).mp known
      exact agrees.ok.not_has allocated entry has
    rw [agrees.ok.zeroed allocated, none]
    rfl
  | true =>
    have table := agrees.ok.table allocated
    have keys : referents =
        ((Table.elements (entryScheme hashes) state.weakTable.entries.toList).map (entryScheme hashes).key).toFinset := by
      ext referent
      rw [exactly, List.mem_toFinset, List.mem_map]
      simp only [Table.mem_elements_toList]
      rfl
    rw [keys, List.toFinset_card_of_nodup table.nodup_elements, List.length_map, table.length_elements]

/-- The table is the map if no entry is without referrers. -/
theorem State.Agrees.refines_iff (agrees : state.Agrees hashes) : Refines hashes state ↔ Tight hashes state := by
  constructor
  · intro refines referent known
    have object : referent ≠ 0 := by
      obtain ⟨_, has, rfl⟩ := known
      exact has.1
    exact (refines.found_iff referent object).mp ((agrees.found_iff object).mpr known)
  · intro tight
    refine ⟨fun referent object => ?_, fun referent object i found referrer => ?_, ?_, fun referent object bad => ?_⟩
    · rw [agrees.found_iff object]
      exact ⟨tight referent, fun ⟨referrer, pair⟩ => agrees.known _ _ pair⟩
    · obtain ⟨j, found', _, small, here⟩ | ⟨absent, _⟩ := agrees.ok.lookup object
      · obtain rfl : j = i := Lookup.found.inj (found'.symm.trans found)
        rw [(agrees.entry _ (has_slot object small here)).referrers, here]
      · exact nomatch absent.symm.trans found
    · refine agrees.num_entries _ fun referent => ?_
      simp only [Finset.mem_image, Prod.exists, exists_and_right, exists_eq_right]
      exact ⟨fun ⟨referrer, pair⟩ => agrees.known _ _ pair, tight referent⟩
    · obtain ⟨i, found, _⟩ | ⟨absent, _⟩ := agrees.ok.lookup object
      · exact nomatch found.symm.trans bad
      · exact nomatch absent.symm.trans bad

/-! ## Runs -/

/-- **One call**: it succeeds, does what it is for, and leaves no entry without referrers if it is careful. -/
theorem exec_agrees (agrees : state.Agrees hashes) (tight : Tight hashes state) {op : Op}
    (legal : Legal state op) : ∃ state', op.exec hashes state = some state' ∧ state'.Agrees hashes ∧
      (Tight hashes state' ↔ Careful hashes state op) := by
  rw [Op.exec]
  cases op with
  | register _ _ referrer newBlock crashIfDeallocating =>
    obtain ⟨valid, untagged, live, location, new⟩ := legal
    obtain ⟨weakTable', done, agrees', knows⟩ :=
      weakRegisterNoLock_agrees agrees newBlock crashIfDeallocating valid untagged live location new
    rw [Op.call, done]
    refine ⟨_, rfl, agrees'.congr fun _ _ => by simp [Op.meaning, or_comm], iff_of_true (fun other known => ?_) trivial⟩
    obtain old | rfl := (knows other).mp known
    · obtain ⟨place, pair⟩ := tight other old
      exact ⟨place, Finset.mem_insert_of_mem pair⟩
    · exact ⟨referrer, Finset.mem_insert_self _ _⟩
  | clear _ memory =>
    obtain ⟨weakTable', _, done, -, agrees', knows⟩ := weakClearNoLock_agrees agrees memory legal
    rw [Op.call, done]
    refine ⟨_, rfl, agrees'.congr fun _ _ => Finset.mem_filter, iff_of_true (fun other known => ?_) trivial⟩
    obtain ⟨old, different⟩ := (knows other).mp known
    obtain ⟨place, pair⟩ := tight other old
    exact ⟨place, Finset.mem_filter.mpr ⟨pair, different⟩⟩
  | unregister referent referrer =>
    obtain ⟨weakTable', done, agrees', knows⟩ := weakUnregisterNoLock_agrees agrees referent legal
    rw [Op.call, done]
    have erased : ∀ other place, (other, place) ∈ state.registered.erase (referent, referrer) ↔
        (other, place) ∈ state.registered ∧ ¬ (other = referent ∧ place = referrer) := by
      intro other place
      rw [Finset.mem_erase, and_comm, ne_eq, Prod.mk.injEq]
    refine ⟨_, rfl, agrees'.congr erased, fun tight' out => ?_, fun careful other known => ?_⟩
    · obtain ⟨entry, has, here, _⟩ := id out
      obtain ⟨place, pair⟩ := tight' referent ((knows referent).mpr ⟨⟨entry, has, here⟩, fun _ => Or.inl out⟩)
      obtain ⟨pair, different⟩ := (erased _ _).mp pair
      exact ⟨place, fun same => different ⟨rfl, same⟩, pair⟩
    · obtain ⟨old, stays⟩ := (knows other).mp known
      by_cases this : other = referent
      · subst this
        obtain ⟨place, different, pair⟩ := (stays rfl).elim careful id
        exact ⟨place, (erased _ _).mpr ⟨pair, fun same => different same.2⟩⟩
      · obtain ⟨place, pair⟩ := tight other old
        exact ⟨place, (erased _ _).mpr ⟨pair, fun same => this same.1⟩⟩

variable (run : Run hashes (fun state op => Legal state op ∧ Careful hashes state op) state)
include run

/-- **Every run of careful calls** has a table that agrees with what is registered and has no entry
without referrers. -/
theorem Run.agrees : state.Agrees hashes ∧ Tight hashes state := by
  induction run with
  | zeroed =>
    refine ⟨zeroTable_agrees.congr fun _ _ => iff_of_false (Finset.notMem_empty _) not_false, ?_⟩
    rintro _ ⟨entry, has, _⟩
    exact absurd has (Table.vacant_has entry)
  | step _ allowed done ih =>
    obtain ⟨legal, careful⟩ := allowed
    obtain ⟨_, done', agrees, tight⟩ := exec_agrees ih.1 ih.2 legal
    obtain rfl := Option.some.inj (done'.symm.trans done)
    exact ⟨agrees, tight.mpr careful⟩

/-- **The weak table is a map from referents to sets of referrers** in every run whose calls are careful.
The next call succeeds, and the table is still the map if and only if it is careful as well. -/
theorem weak_table_refines_map : Refines hashes state ∧ ∀ op, Legal state op →
        ∃ state', op.exec hashes state = some state' ∧ (Refines hashes state' ↔ Careful hashes state op) := by
  obtain ⟨agrees, tight⟩ := run.agrees
  refine ⟨agrees.refines_iff.mpr tight, fun op legal => ?_⟩
  obtain ⟨state', done, agrees', tight'⟩ := exec_agrees agrees tight legal
  exact ⟨state', done, agrees'.refines_iff.trans tight'⟩

omit run

theorem weak_table_refines_map_one : ∃ state, Refines ⟨id, id⟩ state ∧ state.registered = {(16, 1000)} := by
  let object : Object := ⟨false, false, false, none⟩
  have legal : Legal (zeroState ⟨id, id⟩) (.register object 16 1000 0 false) := by decide
  obtain ⟨state, done, _⟩ := (weak_table_refines_map Run.zeroed).2 _ legal
  obtain ⟨_, _, rfl⟩ := Option.map_eq_some_iff.mp done
  exact ⟨_, (weak_table_refines_map (Run.step Run.zeroed ⟨legal, trivial⟩ done)).1, rfl⟩

/-! ## An entry that is not removed -/

/-- The calls one after the other, as long as they are legal. -/
def execAll (hashes : Hashes) : List Op → State → Option State
  | [], state => some state
  | op :: ops, state => if Legal state op then (op.exec hashes state).bind (execAll hashes ops) else none

theorem execAll_run {state' : State} : ∀ {ops : List Op} {state : State}, Run hashes Legal state →
    execAll hashes ops state = some state' → Run hashes Legal state' := by
  intro ops
  induction ops with
  | nil => exact fun run done => Option.some.inj done ▸ run
  | cons op _ ih =>
    intro state run done
    rw [execAll] at done
    by_cases legal : Legal state op
    · rw [if_pos legal] at done
      obtain ⟨_, first, rest⟩ := Option.bind_eq_some_iff.mp done
      exact ih (run.step legal first) rest
    · rw [if_neg legal] at done
      cases done

/-- Five weak variables come to hold the object 16, and cease to. -/
def fiveVariables : List Op :=
  ([1000, 1008, 1016, 1024, 1032].map fun referrer => .register ⟨false, false, false, none⟩ 16 referrer 4096 false) ++
    [1000, 1008, 1016, 1024, 1032].map fun referrer => .unregister 16 referrer

/-- **An entry stays in the table** when the five weak variables are unregistered again. -/
theorem entry_stays_without_referrers : ∃ state, Run ⟨id, id⟩ Legal state ∧ state.registered = ∅ ∧
      weakEntryForReferent ⟨id, id⟩ state.weakTable 16 = .found 16 ∧ state.weakTable.entries.count = 1 ∧ ¬ Refines ⟨id, id⟩ state := by
  have ran : (execAll ⟨id, id⟩ fiveVariables (zeroState ⟨id, id⟩)).map (fun state =>
      (state.registered, weakEntryForReferent ⟨id, id⟩ state.weakTable 16, state.weakTable.entries.count)) = some (∅, .found 16, 1) := by
    decide +kernel
  obtain ⟨state, done, view⟩ := Option.map_eq_some_iff.mp ran
  obtain ⟨none, found, count⟩ := Prod.mk.injEq .. ▸ (Prod.mk.injEq .. ▸ view)
  refine ⟨state, execAll_run Run.zeroed done, none, found, count, fun refines => ?_⟩
  obtain ⟨_, pair⟩ := (refines.found_iff 16 (by decide)).mp ⟨16, found⟩
  exact absurd (none ▸ pair) (Finset.notMem_empty _)

end DarwinNotes.Objc.Weak
