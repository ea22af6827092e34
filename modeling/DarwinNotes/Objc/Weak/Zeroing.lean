import DarwinNotes.Objc.Weak.References
import DarwinNotes.Objc.Weak.Registration

/-!
# Weak variables do not dangle

In every interleaving, the weak tables hold exactly the weak variables that hold an
object, and an object that a weak variable holds has not been through the end of its
deallocation.
-/

namespace DarwinNotes.Objc.Weak.References
open Lib.HashTable Lib.Threads Function List

/-! ## What is stored in a table -/

/-- The pairs of a referent and a referrer as they are stored in a weak table. -/
def pairs (hashes : Hashes) (weakTable : WeakTable) : List (Nat × Nat) :=
  (Table.elements (entryScheme hashes) weakTable.entries.toList).flatMap fun entry =>
    (entry.referrers.toList.filter fun referrer => referrer ≠ 0).map (entry.referent, ·)

variable {hashes : Hashes} {weakTable : WeakTable} {registered : Nat → Nat → Prop}

theorem mem_pairs (agrees : Agrees hashes weakTable registered) (referent referrer : Nat) :
    (referent, referrer) ∈ pairs hashes weakTable ↔ registered referent referrer := by
  simp only [pairs, mem_flatMap, Table.mem_elements_toList, mem_map, mem_filter, decide_eq_true_eq, Prod.mk.injEq]
  constructor
  · rintro ⟨entry, has, place, ⟨stored, nonzero⟩, rfl, rfl⟩
    obtain ⟨sound, referrers, -⟩ := agrees.entry entry has
    exact (referrers place).mp ((mem_toList sound nonzero).mp stored)
  · intro pair
    obtain ⟨entry, has, rfl⟩ := agrees.known _ _ pair
    have nonzero := agrees.referrer_ne_zero pair
    obtain ⟨sound, referrers, -⟩ := agrees.entry entry has
    have stored := (mem_toList sound nonzero).mpr ((referrers referrer).mpr pair)
    exact ⟨entry, has, referrer, ⟨stored, nonzero⟩, rfl, rfl⟩

theorem nodup_toList {referrers : Referrers} (sound : referrers.Sound hashes) :
    (referrers.toList.filter fun referrer => referrer ≠ 0).Nodup := by
  cases referrers with
  | inline =>
    rw [Referrers.toList, filter_map]
    refine List.Nodup.map_on (fun i inList j _ same => ?_) ((nodup_finRange _).filter _)
    exact sound i j (of_decide_eq_true (mem_filter.mp inList).2) same
  | outOfLine =>
    obtain ⟨ok, _⟩ := sound
    have distinct := ok.nodup_elements
    rw [show (referrerScheme hashes).key = id from rfl, map_id] at distinct
    rw [Referrers.toList, tableSize_eq (by omega)]
    exact distinct

theorem nodup_pairs (agrees : Agrees hashes weakTable registered) : (pairs hashes weakTable).Nodup := by
  refine nodup_flatMap.mpr ⟨fun entry stored => ?_, ?_⟩
  · have has := (Table.mem_elements_toList _ entry).mp stored
    exact (nodup_toList (agrees.entry entry has).sound).map fun _ _ same => (Prod.mk.inj same).2
  cases allocated : weakTable.allocated with
  | false =>
    have none : Table.elements (entryScheme hashes) weakTable.entries.toList = [] := by
      refine eq_nil_iff_forall_not_mem.mpr fun entry stored => ?_
      exact agrees.ok.not_has allocated entry ((Table.mem_elements_toList _ entry).mp stored)
    rw [none]
    exact List.Pairwise.nil
  | true =>
    refine (pairwise_map.mp (agrees.ok.table allocated).nodup_elements).imp fun different => ?_
    rintro ⟨_, _⟩ first second
    obtain ⟨_, _, same⟩ := mem_map.mp first
    obtain ⟨_, _, same'⟩ := mem_map.mp second
    exact different ((Prod.mk.inj same).1.trans (Prod.mk.inj same').1.symm)

/-! ## The side tables -/

variable {runtime : Runtime}

/-- The side tables together hold these pairs, each in the table of its referent. -/
def Tables (runtime : Runtime) (weakTables : Nat → WeakTable) (holds : Nat → Nat → Prop) : Prop :=
  ∀ table, Agrees runtime.hashes (weakTables table) fun obj location => runtime.sideTables obj = table ∧ holds obj location

variable {weakTables : Nat → WeakTable} {holds holds' : Nat → Nat → Prop} (tables : Tables runtime weakTables holds)
include tables

theorem Tables.congr (same : ∀ obj location, holds' obj location ↔ holds obj location) : Tables runtime weakTables holds' :=
  fun table => (tables table).congr fun obj location => and_congr_right fun _ => same obj location

/-- A change of the table of one object that concerns this object only. -/
theorem Tables.replaceAt (obj : Nat) (agrees : Agrees runtime.hashes weakTable registered)
    (exactly : ∀ other location, runtime.sideTables other = runtime.sideTables obj ∧ holds' other location ↔ registered other location)
    (elsewhere : ∀ other ≠ obj, ∀ location, holds' other location ↔ holds other location) :
    Tables runtime (update weakTables (runtime.sideTables obj) weakTable) holds' := by
  intro table
  by_cases here : table = runtime.sideTables obj
  · subst here
    rw [update_self]
    exact agrees.congr exactly
  · rw [update_of_ne here]
    refine (tables table).congr fun other location => and_congr_right fun there => elsewhere other ?_ location
    rintro rfl
    exact here there.symm

variable {location : Nat}

theorem Tables.unregister (obj : Nat) (valid : location ≠ 0) :
    ∃ weakTable, weakUnregisterNoLock runtime.hashes (weakTables (runtime.sideTables obj)) obj location = some weakTable ∧
      Tables runtime (update weakTables (runtime.sideTables obj) weakTable)
        fun other place => holds other place ∧ ¬ (other = obj ∧ place = location) := by
  obtain ⟨weakTable, done, agrees, _⟩ := weakUnregisterNoLock_agrees (tables (runtime.sideTables obj)) obj valid
  refine ⟨weakTable, done, tables.replaceAt obj agrees (fun other place => and_assoc.symm) fun other different place => ?_⟩
  exact and_iff_left fun same => different same.1

variable {obj : Nat}

theorem Tables.remember (newBlock : Nat) (object : obj ≠ 0) (valid : location ≠ 0) (new : ¬ holds obj location) :
    ∃ weakTable, remember runtime.hashes (weakTables (runtime.sideTables obj)) obj location newBlock = some weakTable ∧
      Tables runtime (update weakTables (runtime.sideTables obj) weakTable)
        fun other place => holds other place ∨ other = obj ∧ place = location := by
  obtain ⟨weakTable, done, agrees, _⟩ := remember_agrees (tables (runtime.sideTables obj)) newBlock object valid fun old => new old.2
  refine ⟨weakTable, done, tables.replaceAt obj agrees (fun other place => ?_) fun other different place => ?_⟩
  · rw [and_or_left]
    exact or_congr_right (and_iff_right_of_imp fun same => congrArg _ same.1)
  · exact or_iff_left fun same => different same.1

theorem Tables.clear (memory : Nat → Nat) (object : obj ≠ 0) :
    ∃ weakTable memory', weakClearNoLock runtime.hashes (weakTables (runtime.sideTables obj)) memory obj = some (weakTable, memory') ∧
      (∀ location (p : Prop) [Decidable p], (holds obj location ∧ memory location = obj ↔ p) →
        memory' location = if p then 0 else memory location) ∧
      Tables runtime (update weakTables (runtime.sideTables obj) weakTable)
        fun other place => holds other place ∧ other ≠ obj := by
  obtain ⟨weakTable, memory', done, values, agrees, _⟩ := weakClearNoLock_agrees (tables (runtime.sideTables obj)) memory object
  refine ⟨weakTable, memory', done, fun location p _ same => values location p ?_,
    tables.replaceAt obj agrees (fun other place => and_assoc.symm) fun other different place => and_iff_left different⟩
  rw [and_iff_right rfl]
  exact same

omit tables

/-! ## States -/

/-- A weak variable holds an object that can be registered. -/
def Holds (runtime : Runtime) (g : Shared) (obj location : Nat) : Prop :=
  g.live location = true ∧ g.memory location = obj ∧ obj ≠ 0 ∧ runtime.isTaggedPointer obj = false

/-- The object has not been through the end of its deallocation. -/
def ObjectState.Valid (object : ObjectState) : Prop := object.phase = .alive ∨ object.phase = .deallocating

theorem ObjectState.Valid.phase_ne {object : ObjectState} (valid : object.Valid) {phase : Phase} (other : phase ≠ .alive)
    (other' : phase ≠ .deallocating) : object.phase ≠ phase := by
  rintro rfl
  exact valid.elim other other'

/-- **The invariant.** -/
structure Sound (runtime : Runtime) (g : Shared) : Prop where
  tables : Tables runtime g.weakTables (Holds runtime g)
  valid : ∀ obj location, Holds runtime g obj location → (g.objects obj).Valid ∧ (g.objects obj).weaklyReferenced = true
  allocated : ∀ obj, (g.objects obj).phase ≠ .unallocated → obj ≠ 0 ∧ runtime.isTaggedPointer obj = false

/-- What every step does: it keeps the invariant, and if it ends the clearing of an object, the weak
variables that held the object become nil and no other changes. -/
structure StepOk (runtime : Runtime) (g g' : Shared) : Prop where
  sound : Sound runtime g'
  clears : ∀ obj, (g.objects obj).phase ≠ .cleared → (g'.objects obj).phase = .cleared → ∀ location,
    g'.memory location = if g.live location = true ∧ g.memory location = obj then 0 else g.memory location

variable {choice : Choice} {g g' : Shared} (sound : Sound runtime g)
include sound

theorem StepOk.refl : StepOk runtime g g := ⟨sound, fun _ before after => absurd after before⟩

/-- Only an object changes. -/
theorem StepOk.update_object (obj : Nat) (object : ObjectState)
    (held : ∀ location, Holds runtime g obj location → object.Valid ∧ object.weaklyReferenced = true)
    (allocated : object.phase ≠ .unallocated → obj ≠ 0 ∧ runtime.isTaggedPointer obj = false)
    (cleared : object.phase = .cleared → ∀ location, ¬ Holds runtime g obj location) :
    StepOk runtime g { g with objects := update g.objects obj object } := by
  refine ⟨⟨sound.tables, fun other location holding => ?_, fun other => ?_⟩, fun other before after location => ?_⟩
  · by_cases here : other = obj
    · subst here
      simp only [update_self]
      exact held location holding
    · simp only [update_of_ne here]
      exact sound.valid other location holding
  · by_cases here : other = obj
    · subst here
      simp only [update_self]
      exact allocated
    · simp only [update_of_ne here]
      exact sound.allocated other
  · by_cases here : other = obj
    · subst here
      simp only [update_self] at after
      obtain ⟨nonzero, untagged⟩ := allocated (by rw [after]; exact Phase.noConfusion)
      refine (if_neg fun holding => ?_).symm
      exact cleared after location ⟨holding.1, holding.2, nonzero, untagged⟩
    · simp only [update_of_ne here] at after
      exact absurd after before

/-- Only the count of an object changes, or its state while it is in use. -/
theorem StepOk.update_valid (obj : Nat) (object : ObjectState) (now : object.Valid) (before : (g.objects obj).Valid)
    (bit : object.weaklyReferenced = (g.objects obj).weaklyReferenced) :
    StepOk runtime g { g with objects := update g.objects obj object } := by
  refine StepOk.update_object sound obj object (fun location holding => ⟨now, ?_⟩) (fun _ => ?_) fun cleared => ?_
  · rw [bit]
    exact (sound.valid obj location holding).2
  · exact sound.allocated obj (before.phase_ne nofun nofun)
  · exact absurd cleared (now.phase_ne nofun nofun)

/-! ## Retain and release -/

theorem retain_ok (done : retain runtime choice g obj = some g') : StepOk runtime g g' := by
  simp only [retain] at done
  split at done
  next => exact Option.some.inj done ▸ StepOk.refl sound
  next =>
    split at done
    next valid => exact Option.some.inj done ▸ StepOk.update_valid sound obj _ valid valid rfl
    next => cases done

theorem release_ok (done : release runtime g obj = some g') : StepOk runtime g g' := by
  simp only [release] at done
  split at done
  next => exact Option.some.inj done ▸ StepOk.refl sound
  next =>
    split at done
    next alive =>
      split at done
      next => exact Option.some.inj done ▸ StepOk.update_valid sound obj _ (Or.inr rfl) (Or.inl alive) rfl
      next => exact Option.some.inj done ▸ StepOk.update_valid sound obj _ (Or.inl alive) (Or.inl alive) rfl
    next =>
      split at done
      next deallocating =>
        have valid : (g.objects obj).Valid := Or.inr deallocating.1
        exact Option.some.inj done ▸ StepOk.update_valid sound obj _ valid valid rfl
      next => cases done

/-- **`objc_loadWeakRetained` retains** an object that is not deallocating, or returns nil. -/
theorem tryRetain_ok {result : Nat} (valid : (g.objects obj).Valid) (done : tryRetain runtime choice g obj = some (g', result)) :
    StepOk runtime g g' ∧ (result = 0 ∨ result = obj ∧ (g.objects obj).deallocating = false ∧
      (g'.objects obj).retainCount = (g.objects obj).retainCount + 1) := by
  simp only [tryRetain] at done
  split at done
  · split at done
    · split at done
      next => cases done
      next live =>
        cases done
        exact ⟨StepOk.update_valid sound _ _ valid valid rfl, Or.inr ⟨rfl, Bool.eq_false_iff.mpr live, by simp⟩⟩
    · cases done
      exact ⟨StepOk.refl sound, Or.inl rfl⟩
  · split at done
    next =>
      cases done
      exact ⟨StepOk.refl sound, Or.inl rfl⟩
    next live =>
      cases done
      exact ⟨StepOk.update_valid sound _ _ valid valid rfl, Or.inr ⟨rfl, Bool.eq_false_iff.mpr live, by simp⟩⟩

/-! ## Storing -/

variable (runtime g) in
omit sound in
/-- What the weak variables hold after one of them is written. -/
theorem holds_update (location value : Nat) (alive : Bool) (obj place : Nat) : Holds runtime { g with
      memory := update g.memory location value
      live := update g.live location alive } obj place ↔ Holds runtime g obj place ∧ place ≠ location ∨
        (obj = value ∧ place = location) ∧ alive = true ∧ value ≠ 0 ∧ runtime.isTaggedPointer value = false := by
  by_cases here : place = location
  · subst here
    simp only [Holds, update_self]
    grind
  · simp [Holds, here]

/-- A weak variable is written, and its registration changes. -/
theorem StepOk.update_location (location value : Nat) (alive : Bool) (tables : Tables runtime weakTables fun obj place =>
      Holds runtime g obj place ∧ place ≠ location ∨
        (obj = value ∧ place = location) ∧ alive = true ∧ value ≠ 0 ∧ runtime.isTaggedPointer value = false)
    (held : alive = true → value ≠ 0 → runtime.isTaggedPointer value = false →
      (g.objects value).Valid ∧ (g.objects value).weaklyReferenced = true) :
    StepOk runtime g { g with
      memory := update g.memory location value
      live := update g.live location alive
      weakTables := weakTables } := by
  have holds := holds_update runtime g location value alive
  refine ⟨⟨tables.congr holds, fun obj place holding => ?_, sound.allocated⟩, fun obj before after => absurd after before⟩
  obtain ⟨old, _⟩ | ⟨⟨rfl, _⟩, isAlive, nonzero, untagged⟩ := (holds obj place).mp holding
  · exact sound.valid obj place old
  · exact held isAlive nonzero untagged

theorem setNil_ok (done : setNil g location = some g') : StepOk runtime g g' := by
  rw [setNil] at done
  split at done
  next => cases done
  next unused =>
    cases done
    refine StepOk.update_location sound location 0 true (sound.tables.congr fun obj place => ?_) fun _ nonzero => absurd rfl nonzero
    rw [or_iff_left fun nil => nil.2.2.1 rfl]
    exact and_iff_left_of_imp fun holding here => unused (Or.inr (here ▸ holding.1))

variable {store : Store} {oldObj : Nat}

/-- After the old value is unregistered, the variable is not registered. -/
theorem unregisterOld_tables (valid : store.location ≠ 0) (alive : g.live store.location = store.haveOld)
    (current : store.haveOld = true → g.memory store.location = oldObj) (done : unregisterOld runtime g store oldObj = some weakTables) :
    Tables runtime weakTables fun obj place => Holds runtime g obj place ∧ place ≠ store.location := by
  simp only [unregisterOld] at done
  split at done
  next haveOld =>
    obtain ⟨_, unregistered, tables⟩ := sound.tables.unregister oldObj valid
    rw [unregistered, Option.map_some] at done
    cases done
    refine tables.congr fun obj place => and_congr_right fun holding => not_congr ⟨fun here => ⟨?_, here⟩, And.right⟩
    rw [← holding.2.1, here]
    exact current haveOld
  next noOld =>
    cases done
    refine sound.tables.congr fun obj place => and_iff_left_iff_imp.mpr fun holding here => noOld ?_
    rw [← alive, ← here]
    exact holding.1

omit sound in
/-- `weak_register_no_lock` returns nil or a tagged pointer, or registers the variable. -/
theorem weakRegisterNoLock_cases {weakTable' : WeakTable} {object : Object} {referent referrer newBlock result : Nat}
    {crashIfDeallocating : Bool}
    (done : weakRegisterNoLock hashes weakTable object referent referrer newBlock crashIfDeallocating = some (weakTable', result)) :
    weakTable' = weakTable ∧ (result = 0 ∨ result = referent ∧ object.isTaggedPointer = true) ∨
      remember hashes weakTable referent referrer newBlock = some weakTable' ∧ result = referent ∧ referent ≠ 0 ∧
        object.isTaggedPointer = false := by
  rw [weakRegisterNoLock] at done
  split at done
  next early =>
    cases done
    exact Or.inl ⟨rfl, early.imp id fun tagged => ⟨rfl, tagged⟩⟩
  next object =>
    split at done
    · cases done
      exact Or.inl ⟨rfl, Or.inl rfl⟩
    · split at done
      · cases done
      · cases done
        exact Or.inl ⟨rfl, Or.inl rfl⟩
    · obtain ⟨_, remembered, same⟩ := Option.map_eq_some_iff.mp done
      cases same
      push Not at object
      exact Or.inr ⟨remembered, rfl, object.1, Bool.eq_false_iff.mpr object.2⟩

/-- **The new value is registered and stored.** -/
theorem registerNew_ok (tables : Tables runtime weakTables fun obj place => Holds runtime g obj place ∧ place ≠ store.location)
    (valid : store.location ≠ 0) (canStore : storable runtime g store.newObj = true)
    (done : registerNew runtime choice g store weakTables = some g') : StepOk runtime g g' := by
  obtain ⟨object, sees, done⟩ := Option.bind_eq_some_iff.mp done
  obtain ⟨⟨_, result⟩, registered, rfl⟩ := Option.map_eq_some_iff.mp done
  have tag : object.isTaggedPointer = runtime.isTaggedPointer store.newObj := by
    simp only [registrant] at sees
    split at sees
    · cases sees
    · rw [← Option.some.inj sees]
  obtain ⟨rfl, nothing⟩ | ⟨remembered, rfl, nonzero, untagged⟩ := weakRegisterNoLock_cases registered
  · -- nothing is registered, and the variable holds nil or a tagged pointer
    have plain : result = 0 ∨ runtime.isTaggedPointer result = true := nothing.imp id fun kept => by rw [kept.1, ← tag, kept.2]
    have none : ¬ (result ≠ 0 ∧ runtime.isTaggedPointer result = false) := fun both =>
      plain.elim both.1 fun tagged => absurd (both.2.symm.trans tagged) Bool.false_ne_true
    simp only [if_pos plain, Function.update_eq_self]
    exact StepOk.update_location sound store.location result true (tables.congr fun obj place => or_iff_left fun held => none held.2.2)
      fun _ nonzero untagged => absurd ⟨nonzero, untagged⟩ none
  · have untagged := tag ▸ untagged
    have object : ¬ (store.newObj = 0 ∨ runtime.isTaggedPointer store.newObj = true) := by
      rintro (nil | tagged)
      · exact nonzero nil
      · exact absurd (untagged.symm.trans tagged) Bool.false_ne_true
    have inUse : (g.objects store.newObj).Valid := by
      simp only [storable, nonzero, untagged, Bool.or_eq_true, decide_eq_true_eq, Bool.false_eq_true, false_or] at canStore
      exact canStore
    obtain ⟨_, remembered', tables⟩ := tables.remember choice.newBlock nonzero valid fun old => old.2 rfl
    obtain rfl := Option.some.inj (remembered'.symm.trans remembered)
    -- the flag first, then the variable
    have flagged := StepOk.update_object sound store.newObj { g.objects store.newObj with
        weaklyReferenced := true } (fun _ _ => ⟨inUse, rfl⟩)
      (fun _ => ⟨nonzero, untagged⟩) (fun cleared => absurd cleared (inUse.phase_ne (by rintro ⟨⟩) (by rintro ⟨⟩)))
    have stored := StepOk.update_location flagged.sound store.location store.newObj true
      (tables.congr fun obj place => or_congr_right (and_iff_left ⟨rfl, nonzero, untagged⟩)) fun _ _ _ => by
        simp only [update_self]
        exact ⟨inUse, trivial⟩
    simp only [if_neg object]
    refine ⟨stored.sound, fun obj before after => absurd ?_ before⟩
    by_cases here : obj = store.newObj
    · subst here
      simpa only [update_self] using after
    · simpa only [update_of_ne here] using after

/-- What a thread that is about to lock has read. -/
def Read (runtime : Runtime) (here : Local) : Prop :=
  ∀ location obj, here.pc = .loadLock location obj → obj ≠ 0 ∧ runtime.isTaggedPointer obj = false

variable {here here' : Local}

/-- **`storeWeak`** under its locks. -/
theorem storeLocked_ok (done : storeLocked runtime choice g here store oldObj = some (g', here'))
    : StepOk runtime g g' ∧ Read runtime here' := by
  simp only [storeLocked] at done
  split at done
  next => cases done
  next allowed =>
    push Not at allowed
    obtain ⟨valid, alive, canStore⟩ := allowed
    split at done
    next =>
      cases done
      exact ⟨StepOk.refl sound, by rintro _ _ ⟨⟩⟩
    next unchanged =>
      split at done
      next =>
        cases done
        exact ⟨StepOk.refl sound, by rintro _ _ ⟨⟩⟩
      next =>
        obtain ⟨_, unregistered, done⟩ := Option.bind_eq_some_iff.mp done
        have tables := unregisterOld_tables sound valid alive
          (fun haveOld => not_not.mp fun changed => unchanged ⟨haveOld, changed⟩) unregistered
        split at done
        next =>
          obtain ⟨_, registered, same⟩ := Option.map_eq_some_iff.mp done
          cases same
          exact ⟨registerNew_ok sound tables valid (Bool.eq_true_of_not_eq_false canStore) registered, by rintro _ _ ⟨⟩⟩
        next =>
          cases done
          have destroyed := StepOk.update_location sound store.location (g.memory store.location) false
            (tables.congr fun obj place => or_iff_left fun held => Bool.false_ne_true held.2.1) (by rintro ⟨⟩)
          rw [update_eq_self] at destroyed
          exact ⟨destroyed, by rintro _ _ ⟨⟩⟩

/-! ## Loading -/

/-- **`objc_loadWeakRetained`** under its lock. -/
theorem loadLocked_ok (object : obj ≠ 0) (untagged : runtime.isTaggedPointer obj = false)
    (done : loadLocked runtime choice g here location obj = some (g', here')) : StepOk runtime g g' ∧ Read runtime here' ∧
      (here'.pc = .next → here'.obj = 0 ∨ (g.objects here'.obj).deallocating = false ∧
        (g'.objects here'.obj).retainCount = (g.objects here'.obj).retainCount + 1) := by
  simp only [loadLocked] at done
  split at done
  next => cases done
  next alive =>
    split at done
    next =>
      cases done
      exact ⟨StepOk.refl sound, nofun, nofun⟩
    next current =>
      split at done
      next =>
        cases done
        exact ⟨StepOk.refl sound, nofun, nofun⟩
      next =>
        obtain ⟨⟨_, _⟩, tried, same⟩ := Option.map_eq_some_iff.mp done
        cases same
        have holding : Holds runtime g obj location := ⟨Bool.eq_true_of_not_eq_false alive, not_not.mp current, object, untagged⟩
        obtain ⟨step, outcome⟩ := tryRetain_ok sound (sound.valid obj location holding).1 tried
        refine ⟨step, nofun, fun _ => outcome.imp id ?_⟩
        rintro ⟨rfl, live, counted⟩
        exact ⟨live, counted⟩

/-! ## Deallocation -/

omit sound in
theorem Read.of_next (next : here.pc = .next) : Read runtime here := by
  intro location obj load
  exact nomatch next.symm.trans load

theorem clearDeallocating_ok (next : here.pc = .next) (done : clearDeallocating g here obj = some (g', here')) :
    StepOk runtime g g' ∧ Read runtime here' := by
  simp only [clearDeallocating] at done
  split at done
  next => cases done
  next deallocating =>
    split at done
    next =>
      obtain ⟨rfl, rfl⟩ := Prod.mk.inj (Option.some.inj done)
      exact ⟨StepOk.refl sound, nofun⟩
    next unreferenced =>
      push Not at unreferenced deallocating
      have free : ∀ location, ¬ Holds runtime g obj location := fun location holding =>
        unreferenced.2.1 (sound.valid obj location holding).2
      obtain ⟨rfl, rfl⟩ := Prod.mk.inj (Option.some.inj done)
      refine ⟨StepOk.update_object sound obj _ (fun location holding => absurd holding (free location)) (fun _ => ?_)
        fun _ => free, Read.of_next next⟩
      exact sound.allocated obj (by rw [deallocating]; exact Phase.noConfusion)

/-- **The weak variables of an object are cleared** with the lock held. -/
theorem clearLocked_ok (done : clearLocked runtime g here obj = some (g', here')) : StepOk runtime g g' ∧ Read runtime here' := by
  simp only [clearLocked] at done
  split at done
  next => cases done
  next deallocating =>
    push Not at deallocating
    obtain ⟨object, untagged⟩ := sound.allocated obj (by rw [deallocating]; exact Phase.noConfusion)
    split at done
    next =>
      obtain ⟨_, memory, cleared, values, tables⟩ := sound.tables.clear g.memory object
      rw [cleared, Option.map_some] at done
      cases done
      have value := fun location => values location (g.live location = true ∧ g.memory location = obj)
        ⟨fun held => ⟨held.1.1, held.2⟩, fun holding => ⟨⟨holding.1, holding.2, object, untagged⟩, holding.2⟩⟩
      have holds : ∀ other location, Holds runtime { g with memory := memory } other location ↔
          Holds runtime g other location ∧ other ≠ obj := by
        intro other location
        simp only [Holds, value]
        constructor
        · rintro ⟨live, same, nonzero, plain⟩
          by_cases holding : g.live location = true ∧ g.memory location = obj
          · exact absurd ((if_pos holding).symm.trans same) nonzero.symm
          · rw [if_neg holding] at same
            exact ⟨⟨live, same, nonzero, plain⟩, fun this => holding ⟨live, same.trans this⟩⟩
        · rintro ⟨⟨live, same, nonzero, plain⟩, different⟩
          exact ⟨live, (if_neg fun holding => different (same.symm.trans holding.2)).trans same, nonzero, plain⟩
      refine ⟨⟨⟨tables.congr holds, fun other location holding => ?_, fun other => ?_⟩, fun other before after => ?_⟩, nofun⟩
      · obtain ⟨held, different⟩ := (holds other location).mp holding
        simp only [update_of_ne different]
        exact sound.valid other location held
      · by_cases this : other = obj
        · exact fun _ => this ▸ ⟨object, untagged⟩
        · simp only [update_of_ne this]
          exact sound.allocated other
      · by_cases this : other = obj
        · subst this
          exact value
        · simp only [update_of_ne this] at after
          exact absurd after before
    next unreferenced =>
      have free : ∀ location, ¬ Holds runtime g obj location := fun location holding => unreferenced (sound.valid obj location holding).2
      cases done
      exact ⟨StepOk.update_object sound obj _ (fun location holding => absurd holding (free location))
        (fun _ => ⟨object, untagged⟩) fun _ => free, nofun⟩

theorem alloc_ok {cls : Nat} {nonpointer : Bool} (done : alloc runtime g obj cls nonpointer = some g') : StepOk runtime g g' := by
  rw [alloc] at done
  split at done
  next => cases done
  next fresh =>
    push Not at fresh
    obtain ⟨object, untagged, unallocated⟩ := fresh
    cases done
    refine StepOk.update_object sound obj _ (fun location holding => ?_)
      (fun _ => ⟨object, Bool.eq_false_iff.mpr untagged⟩) nofun
    exact absurd unallocated ((sound.valid obj location holding).1.phase_ne nofun nofun)

theorem free_ok (done : free g obj = some g') : StepOk runtime g g' := by
  rw [free] at done
  split at done
  next => cases done
  next cleared =>
    push Not at cleared
    cases done
    refine StepOk.update_object sound obj _ (fun location holding => ?_) (absurd rfl) nofun
    exact absurd cleared ((sound.valid obj location holding).1.phase_ne nofun nofun)

/-! ## Runs -/

/-- A thread is in `objc_loadWeakRetained`, outside of `class_initialize`. -/
def Pc.loads : Pc → Bool
  | .loadRead _ => true
  | .loadLock _ _ => true
  | _ => false

/-- The result of `objc_loadWeakRetained` when it returns. -/
def Returned (runtime : Runtime) (g g' : Shared) (result : Nat) : Prop :=
  result = 0 ∨ runtime.isTaggedPointer result = true ∨ (g.objects result).deallocating = false ∧
      (g'.objects result).retainCount = (g.objects result).retainCount + 1

theorem initWeak_ok {newObj : Nat} {orNil : Bool} (next : here.pc = .next)
    (done : initWeak g here location newObj orNil = some (g', here')) : StepOk runtime g g' ∧ Read runtime here' := by
  rw [initWeak] at done
  split at done
  next =>
    obtain ⟨_, cleared, same⟩ := Option.map_eq_some_iff.mp done
    cases same
    exact ⟨setNil_ok sound cleared, Read.of_next next⟩
  next =>
    cases done
    exact ⟨StepOk.refl sound, nofun⟩

theorem enter_ok (next : here.pc = .next) {call : Call} (done : enter runtime choice g here call = some (g', here'))
    : StepOk runtime g g' ∧ Read runtime here' := by
  -- the calls that only change the shared state
  have shared : ∀ {change : Option Shared}, (∀ {g''}, change = some g'' → StepOk runtime g g'') →
      change.map (·, here) = some (g', here') → StepOk runtime g g' ∧ Read runtime here' := by
    intro change ok changed
    obtain ⟨g'', happened, same⟩ := Option.map_eq_some_iff.mp changed
    cases same
    exact ⟨ok happened, Read.of_next next⟩
  -- those that only change the thread
  have thread : ∀ {moved : Local}, some (g, moved) = some (g', here') → Read runtime moved → StepOk runtime g g' ∧ Read runtime here' := by
    intro moved same read
    cases same
    exact ⟨StepOk.refl sound, read⟩
  cases call with
  | initWeak | initWeakObj => exact initWeak_ok sound next done
  | storeWeak | destroyWeak | loadWeakRetained => exact thread done nofun
  | copyWeak | moveWeak => exact thread done (Read.of_next next)
  | releaseObj | release => exact shared (release_ok sound) done
  | setNil => exact shared (setNil_ok sound) done
  | alloc => exact shared (alloc_ok sound) done
  | retain => exact shared (retain_ok sound) done
  | clearDeallocating => exact clearDeallocating_ok sound next done
  | free => exact shared (free_ok sound) done

/-- The progress of `class_initialize` concerns no weak variable. -/
theorem StepOk.update_isInitialized (isInitialized : Nat → Bool) : StepOk runtime g { g with isInitialized := isInitialized } :=
  ⟨⟨sound.tables, sound.valid, sound.allocated⟩, fun _ before after => absurd after before⟩

/-- **Every step** keeps the invariant, clears what it should, and returns from `objc_loadWeakRetained`
with nil, a tagged pointer or an object it has retained. -/
theorem advance_ok (read : Read runtime here) (done : advance runtime choice g here = some (g', here')) :
    StepOk runtime g g' ∧ Read runtime here' ∧ (here.pc.loads = true → here'.pc = .next → Returned runtime g g' here'.obj) := by
  rw [advance.eq_def] at done
  cases pc : here.pc with
  | next =>
    simp only [pc] at done
    suffices both : StepOk runtime g g' ∧ Read runtime here' from ⟨both.1, both.2, nofun⟩
    cases todo : here.todo with
    | nil =>
      rw [todo] at done
      exact enter_ok sound pc done
    | cons call rest =>
      rw [todo] at done
      have entered : enter runtime choice g ⟨.next, rest, here.obj⟩ call = some (g', here') := done
      exact enter_ok sound rfl entered
  | storeRead =>
    simp only [pc] at done
    cases done
    exact ⟨StepOk.refl sound, nofun, nofun⟩
  | storeLock =>
    simp only [pc] at done
    obtain ⟨step, read'⟩ := storeLocked_ok sound done
    exact ⟨step, read', nofun⟩
  | storeInitialize | loadInitialize =>
    simp only [pc] at done
    cases done
    exact ⟨StepOk.update_isInitialized sound _, nofun, nofun⟩
  | loadRead =>
    simp only [pc] at done
    split at done
    next early =>
      cases done
      exact ⟨StepOk.refl sound, nofun, fun _ _ => early.imp id Or.inl⟩
    next object =>
      cases done
      push Not at object
      refine ⟨StepOk.refl sound, ?_, nofun⟩
      rintro _ _ ⟨⟩
      exact ⟨object.1, Bool.eq_false_iff.mpr object.2⟩
  | loadLock location obj =>
    simp only [pc] at done
    obtain ⟨object, untagged⟩ := read location obj pc
    obtain ⟨step, read', result⟩ := loadLocked_ok sound object untagged done
    exact ⟨step, read', fun _ returns => (result returns).imp id Or.inr⟩
  | clearLock =>
    simp only [pc] at done
    obtain ⟨step, read'⟩ := clearLocked_ok sound done
    exact ⟨step, read', nofun⟩

omit sound

variable {Thread : Type} [DecidableEq Thread]

theorem invariant : Invariant (ThreadStep runtime : Lib.Threads.ThreadStep Thread Shared Local)
    (fun config => Sound runtime config.shared) (fun _ _ => Read runtime) where
  own := by
    rintro _ config _ _ ⟨_, done⟩ sound read
    obtain ⟨step, read', _⟩ := advance_ok sound read done
    exact ⟨step.sound, read'⟩
  others := fun _ _ _ _ _ _ read => read

omit [DecidableEq Thread] in
theorem initial_sound (config : Config Thread Shared Local) (starts : Initial runtime config) :
    Sound runtime config.shared ∧ ∀ thread, Read runtime (config.threads thread) := by
  have none : ∀ obj location, ¬ Holds runtime config.shared obj location := fun obj location holding =>
    absurd ((starts.unused location).symm.trans holding.1) Bool.false_ne_true
  refine ⟨⟨fun table => ?_, fun obj location holding => absurd holding (none obj location),
    fun obj => absurd (starts.unallocated obj)⟩, fun thread => Read.of_next (starts.idle thread).1⟩
  rw [starts.zeroed table]
  exact zeroTable_agrees.congr fun obj location => iff_of_false (fun both => none obj location both.2) not_false

/-- The variable is stored once in the side tables, as a referrer of the object. -/
def RegisteredOnce (runtime : Runtime) (g : Shared) (location obj : Nat) : Prop :=
  ∀ table other, (pairs runtime.hashes (g.weakTables table)).count (other, location) =
    if table = runtime.sideTables obj ∧ other = obj then 1 else 0

theorem Sound.registeredOnce (sound : Sound runtime g) (holding : Holds runtime g obj location) :
    RegisteredOnce runtime g location obj := by
  intro table other
  have agrees := sound.tables table
  rw [(nodup_pairs agrees).count]
  refine if_congr ?_ rfl rfl
  rw [mem_pairs agrees]
  constructor
  · rintro ⟨rfl, held⟩
    obtain rfl : other = obj := held.2.1.symm.trans holding.2.1
    exact ⟨rfl, rfl⟩
  · rintro ⟨rfl, rfl⟩
    exact ⟨rfl, holding⟩

/-- **Weak variables never dangle.** At every point of a run a weak variable that holds an object is
registered with it, once, and with no other, and the object is not at the end of its deallocation. When an
object is cleared, the weak variables that held it become nil and nothing else changes. When
`objc_loadWeakRetained` returns an object, it has retained it while it was not deallocating. -/
theorem weak_references_never_dangle {config : Config Thread Shared Local}
    (reached : Reachable (ThreadStep runtime) (Initial runtime) config) : (∀ location obj, Holds runtime config.shared obj location →
      RegisteredOnce runtime config.shared location obj ∧ (config.shared.objects obj).Valid) ∧
    ∀ thread g' here', ThreadStep runtime thread config.shared (config.threads thread) g' here' →
      (∀ obj, (config.shared.objects obj).phase ≠ .cleared → (g'.objects obj).phase = .cleared → ∀ location,
        g'.memory location = if config.shared.live location = true ∧ config.shared.memory location = obj then 0
          else config.shared.memory location) ∧ ((config.threads thread).pc.loads = true → here'.pc = .next →
        Returned runtime config.shared g' here'.obj) := by
  obtain ⟨sound, read⟩ := invariant.reachable initial_sound reached
  refine ⟨fun location obj holding => ⟨sound.registeredOnce holding, (sound.valid obj location holding).1⟩, ?_⟩
  rintro thread g' here' ⟨_, done⟩
  obtain ⟨step, _, returned⟩ := advance_ok sound (read thread) done
  exact ⟨step.clears, returned⟩

/-! ## A variable that was destroyed -/

/-- One thread on its own. -/
def advanceAll (runtime : Runtime) : List Choice → Shared → Local → Option (Shared × Local)
  | [], g, here => some (g, here)
  | choice :: choices, g, here => (advance runtime choice g here).bind fun (g', here') => advanceAll runtime choices g' here'

theorem advanceAll_reachable {g'' : Shared} {there : Local} : ∀ {choices : List Choice} {g : Shared} {here : Local},
    Reachable (ThreadStep runtime) (Initial runtime) (⟨g, fun _ : Unit => here⟩ : Config Unit Shared Local) →
    advanceAll runtime choices g here = some (g'', there) →
    Reachable (ThreadStep runtime) (Initial runtime) (⟨g'', fun _ : Unit => there⟩ : Config Unit Shared Local) := by
  intro choices
  induction choices with
  | nil =>
    intro g here reached done
    cases done
    exact reached
  | cons choice _ ih =>
    intro g here reached done
    obtain ⟨⟨g', here'⟩, first, rest⟩ := Option.bind_eq_some_iff.mp done
    refine ih (reached.next ?_) rest
    have step : Step (ThreadStep runtime) (⟨g, fun _ => here⟩ : Config Unit Shared Local)
        ⟨g', update (fun _ => here) () here'⟩ := Step.of () ⟨choice, first⟩
    rwa [show update (fun _ : Unit => here) () here' = fun _ => here' from funext fun _ => rfl] at step

/-- One side table, and no tagged pointers or classes with their own retain and release. -/
def plainRuntime : Runtime := ⟨⟨id, id⟩, fun _ => 0, fun _ => false, fun _ => false⟩

def plainShared : Shared :=
  ⟨fun _ => 0, fun _ => false, fun _ => zeroTable plainRuntime.hashes,
    fun _ => ⟨.unallocated, 0, true, false, false, false, 0⟩, fun _ => true⟩

def makes (call : Call) : Choice := ⟨call, none, none, 4096, false, true, false⟩

theorem plainShared_reachable : Reachable (ThreadStep plainRuntime) (Initial plainRuntime)
    (⟨plainShared, fun _ : Unit => ⟨.next, [], 0⟩⟩ : Config Unit Shared Local) :=
  Reachable.start ⟨fun _ => rfl, fun _ => rfl, fun _ => rfl, fun _ => ⟨rfl, rfl⟩⟩

/-- The object 16 is stored in the new weak variable 1000. -/
def initialised : List Choice := [makes (.alloc 16 7 true), makes (.initWeak 1000 16 false), makes .releaseObj, makes .releaseObj]

/-- **A destroyed variable keeps its value** and is not registered. -/
theorem destroyed_variable_holds_object :
    ∃ config : Config Unit Shared Local, Reachable (ThreadStep plainRuntime) (Initial plainRuntime) config ∧
      config.shared.memory 1000 = 16 ∧ plainRuntime.isTaggedPointer 16 = false ∧
      (pairs plainRuntime.hashes (config.shared.weakTables (plainRuntime.sideTables 16))).count (16, 1000) = 0 := by
  have ran : (advanceAll plainRuntime (initialised ++ [makes (.destroyWeak 1000), makes .releaseObj, makes .releaseObj])
      plainShared ⟨.next, [], 0⟩).map (fun after => (after.1.memory 1000,
        (pairs plainRuntime.hashes (after.1.weakTables (plainRuntime.sideTables 16))).count (16, 1000))) = some (16, 0) := by
    decide +kernel
  obtain ⟨⟨g, _⟩, done, view⟩ := Option.map_eq_some_iff.mp ran
  obtain ⟨holding, unregistered⟩ := Prod.mk.inj view
  exact ⟨_, advanceAll_reachable plainShared_reachable done, holding, rfl, unregistered⟩

/-- The variable before it is destroyed. -/
theorem weak_references_never_dangle_initialised : ∃ config : Config Unit Shared Local, config.shared.memory 1000 = 16 ∧
      RegisteredOnce plainRuntime config.shared 1000 16 := by
  have ran : (advanceAll plainRuntime initialised plainShared ⟨.next, [], 0⟩).map (fun after =>
      (after.1.memory 1000, after.1.live 1000)) = some (16, true) := by
    decide +kernel
  obtain ⟨⟨g, _⟩, done, view⟩ := Option.map_eq_some_iff.mp ran
  obtain ⟨holding, live⟩ := Prod.mk.inj view
  have reached := advanceAll_reachable plainShared_reachable done
  exact ⟨_, holding, ((weak_references_never_dangle reached).1 1000 16 ⟨live, holding, by decide, rfl⟩).1⟩

end DarwinNotes.Objc.Weak.References
