import DarwinNotes.Objc.MapTable.Model

/-!
# The buckets of a map table

A table of a power of two of buckets is a case of open addressing; lookup, insertion
without growth and the pairs a table holds are read off that.
-/

namespace DarwinNotes.Objc.MapTable
open Lib.Probing Lib.OpenAddressing Function

/-- The prototype's `isEqual` is an equivalence and its `hash` respects it. -/
structure Lawful (proto : Prototype) : Prop where
  refl : ∀ a, proto.isEqual a a = true
  symm : ∀ a b, proto.isEqual a b = true → proto.isEqual b a = true
  trans : ∀ a b c, proto.isEqual a b = true → proto.isEqual b c = true → proto.isEqual a c = true
  hash_eq : ∀ a b, proto.isEqual a b = true → proto.hash a = proto.hash b

namespace Lawful
variable {proto : Prototype} (lawful : Lawful proto)
include lawful

/-- Comparing the addresses first makes no difference. -/
theorem isEqual_eq (a b : Nat) : isEqual proto a b = proto.isEqual a b := by
  unfold isEqual
  split
  next same => rw [same, lawful.refl]
  next => rfl

theorem isEqual_refl (a : Nat) : isEqual proto a a = true := by rw [lawful.isEqual_eq, lawful.refl]

variable {a b : Nat}

theorem isEqual_symm (equal : isEqual proto a b = true) : isEqual proto b a = true := by
  rw [lawful.isEqual_eq] at *
  exact lawful.symm a b equal

theorem isEqual_trans {c : Nat} (first : isEqual proto a b = true) (second : isEqual proto b c = true) : isEqual proto a c = true := by
  rw [lawful.isEqual_eq] at *
  exact lawful.trans a b c first second

theorem bucketOf_eq (table : Table) (equal : isEqual proto a b = true) : table.bucketOf proto a = table.bucketOf proto b := by
  rw [lawful.isEqual_eq] at equal
  rw [Table.bucketOf, Table.bucketOf, lawful.hash_eq a b equal]

end Lawful

/-- The buckets as slots. -/
def slots (table : Table) (i : Nat) : Option MapPair :=
  if (table.buckets i).key = notAKey then none else some (table.buckets i)

variable {i : Nat} {table : Table}

theorem slots_eq_none : slots table i = none ↔ (table.buckets i).key = notAKey := by
  unfold slots
  split <;> simp [*]

variable {pair : MapPair}

theorem slots_eq_some : slots table i = some pair ↔ table.buckets i = pair ∧ pair.key ≠ notAKey := by
  unfold slots
  split
  next empty => exact ⟨nofun, fun ⟨same, valid⟩ => absurd (same ▸ empty) valid⟩
  next used => exact ⟨fun same => ⟨Option.some.inj same, Option.some.inj same ▸ used⟩, fun same => congrArg some same.1⟩

theorem slots_update {count : Nat} (valid : pair.key ≠ notAKey) :
    slots { table with buckets := update table.buckets i pair, count } = update (slots table) i (some pair) := by
  funext j
  by_cases here : j = i
  · subst here
    rw [update_self]
    exact slots_eq_some.mpr ⟨update_self j pair table.buckets, valid⟩
  · simp [slots, update_of_ne here]

/-- The pair is in the table. -/
def Has (table : Table) (pair : MapPair) : Prop := ∃ i ≤ table.nbBucketsMinusOne, slots table i = some pair

theorem Has.valid (has : Has table pair) : pair.key ≠ notAKey := by
  obtain ⟨i, _, used⟩ := has
  exact (slots_eq_some.mp used).2

/-- `numBuckets * 3`, as it is computed. -/
def limit (n : Nat) : Nat := u32 (2 ^ n * 3)

theorem limit_of_le {n : Nat} (small : n ≤ 30) : limit n = 2 ^ n * 3 := by
  have := Nat.pow_le_pow_right (n := 2) (by decide) small
  exact Nat.mod_eq_of_lt (by omega)

theorem limit_le (n : Nat) : limit n ≤ 2 ^ n * 3 := Nat.mod_le _ _

theorem limit_le_of_le {n : Nat} (small : n ≤ 31) : limit n ≤ 3 * 2 ^ 30 := by
  rcases Nat.le_or_eq_of_le_succ small with smaller | rfl
  · rw [limit_of_le smaller, Nat.mul_comm]
    exact Nat.mul_le_mul_left 3 (Nat.pow_le_pow_right (by decide) smaller)
  · decide

variable (proto : Prototype)

/-- A table of `2 ^ n` buckets that has caused no message. -/
structure Core (table : Table) (n : Nat) : Prop where
  size : table.nbBucketsMinusOne = 2 ^ n - 1
  exponent : 1 ≤ n ∧ n ≤ 31
  ok : Ok table.nextIndex (2 ^ n) (fun pair => table.bucketOf proto pair.key)
    (fun a b => isEqual proto a.key b.key = true) (slots table)
  counted : table.count = used (slots table) (2 ^ n)
  quiet : table.informed = []

/-- The table is not due to grow. -/
def Sparse (table : Table) (n : Nat) : Prop := table.count * 4 ≤ limit n

theorem Sparse.count_lt {n : Nat} (sparse : Sparse table n) : table.count < 2 ^ n := by
  have := sparse.trans (limit_le n)
  have := Nat.two_pow_pos n
  omega

namespace Core
variable {proto} {table : Table} {n : Nat} (core : Core proto table n)
include core

theorem size_add_one : table.nbBucketsMinusOne + 1 = 2 ^ n := by
  have := core.size
  have := Nat.two_pow_pos n
  omega

theorem has_iff (pair : MapPair) : Has table pair ↔ ∃ i < 2 ^ n, slots table i = some pair := by
  unfold Has
  simp [← Nat.lt_add_one_iff, core.size_add_one]

/-- No two pairs of the table have equal keys. -/
theorem has_unique {a b : MapPair} (hasA : Has table a) (hasB : Has table b) (equal : isEqual proto a.key b.key = true) : a = b := by
  obtain ⟨i, inRange, used⟩ := (core.has_iff a).mp hasA
  obtain ⟨j, inRange', used'⟩ := (core.has_iff b).mp hasB
  rw [core.ok.unique i inRange j inRange' a b used used' equal, used'] at used
  exact (Option.some.inj used).symm

theorem pow_le : 2 ^ n ≤ 2 ^ 31 := Nat.pow_le_pow_right (by decide) core.exponent.2

theorem numBuckets_eq : table.numBuckets = 2 ^ n := by
  have := core.pow_le
  rw [Table.numBuckets, core.size_add_one, u32, Nat.mod_eq_of_lt (by omega)]

theorem nextIndex_eq : table.nextIndex = fun i => (i + 1) % 2 ^ n := by
  funext i
  rw [Table.nextIndex, core.size, Nat.and_two_pow_sub_one_eq_mod, u32]
  exact Nat.mod_mod_of_dvd _ (Nat.pow_dvd_pow 2 (by have := core.exponent; omega))

theorem cycle : Cycle table.nextIndex (2 ^ n) := by
  rw [core.nextIndex_eq]
  exact cycle_up (2 ^ n)

theorem bucketOf_lt (key : Nat) : table.bucketOf proto key < 2 ^ n := by
  rw [Table.bucketOf, core.size, Nat.and_two_pow_sub_one_eq_mod]
  exact Nat.mod_lt _ (Nat.two_pow_pos n)

end Core

/-! ## Lookup -/

/-- The lookup for a key ends after `d` moves. -/
abbrev Found (table : Table) (n key d : Nat) : Prop :=
  Ends table.nextIndex (2 ^ n) (slots table) (fun pair => isEqual proto pair.key key = true) (table.bucketOf proto key) d

variable {proto} {table : Table} {n : Nat} (core : Core proto table n)
include core

/-- A table that is not full ends every lookup. -/
theorem Core.exists_found (sparse : Sparse table n) (key : Nat) : ∃ d, Found proto table n key d := by
  have few := sparse.count_lt
  rw [core.counted] at few
  obtain ⟨_, inTable, empty⟩ := exists_not_of_count_lt few
  exact exists_ends core.cycle _ (core.bucketOf_lt key) inTable (by simpa using empty)

variable {key d : Nat}

theorem Core.probe_eq (found : Found proto table n key d) :
    probe proto table key = .stopped (table.nextIndex^[d] (table.bucketOf proto key)) d := by
  refine scan_stopped core.cycle (core.bucketOf_lt key) found.short ?_ (fun m before => ?_)
    (by rw [core.size_add_one]; exact found.short)
  · unfold ends
    by_cases empty : (table.buckets (table.nextIndex^[d] (table.bucketOf proto key))).key = notAKey
    · simp [empty]
    · simp [found.stops _ (if_neg empty)]
  · obtain ⟨_, used, other⟩ := found.passed m before
    obtain ⟨rfl, valid⟩ := slots_eq_some.mp used
    simp [ends, valid, other]

theorem Core.nxMapMember_eq (found : Found proto table n key d) :
    nxMapMember proto table key = slots table (table.nextIndex^[d] (table.bucketOf proto key)) := by
  rw [nxMapMember, core.probe_eq found]
  rfl

omit core in
/-- **A lookup finds a pair exactly if the pair is in the table.** -/
theorem Core.nxMapMember_iff (lawful : Lawful proto) (core : Core proto table n) (sparse : Sparse table n) (key : Nat)
    (pair : MapPair) : nxMapMember proto table key = some pair ↔ Has table pair ∧ isEqual proto pair.key key = true := by
  obtain ⟨d, found⟩ := core.exists_found sparse key
  have inTable := core.cycle.iterate_lt (core.bucketOf_lt key) d
  rw [core.nxMapMember_eq found, core.has_iff]
  constructor
  · intro used
    exact ⟨⟨_, inTable, used⟩, found.stops pair used⟩
  · rintro ⟨⟨i, inRange, used⟩, equal⟩
    cases here : slots table (table.nextIndex^[d] (table.bucketOf proto key)) with
    | none => exact absurd equal (core.ok.absent (fun a => lawful.bucketOf_eq table) found here inRange used)
    | some other =>
      have same := core.ok.unique _ inTable i inRange other pair here used
        (lawful.isEqual_trans (found.stops other here) (lawful.isEqual_symm equal))
      rw [← here, same, used]

/-! ## Insertion without growth -/

/-- `NXMapInsert` in a table with room acts on the bucket at which the lookup ends. -/
theorem Core.nxMapInsert_eq (sparse : Sparse table n) (valid : key ≠ notAKey) (found : Found proto table n key d) (depth value : Nat)
    : nxMapInsert proto (depth + 1) table key value = (let i := table.nextIndex^[d] (table.bucketOf proto key)
      if (table.buckets i).key = notAKey then place (nxMapInsert proto depth) table i key value
      else some (overwrite table i value)) := by
  have some_ : table.numBuckets ≠ 0 := by
    rw [core.numBuckets_eq]
    exact (Nat.two_pow_pos n).ne'
  have room : table.count ≠ table.numBuckets := by
    rw [core.numBuckets_eq]
    exact (sparse.count_lt).ne
  rw [nxMapInsert]
  rw [if_neg valid, if_neg some_]
  cases d with
  | zero =>
    by_cases empty : (table.buckets (table.bucketOf proto key)).key = notAKey
    · simp [empty, id]
    · have equal := found.stops _ (if_neg empty)
      simp only [iterate_zero, id] at equal ⊢
      rw [if_neg empty, if_pos equal]
      exact (if_neg empty).symm
  | succ d =>
    obtain ⟨_, used, other⟩ := found.passed 0 (Nat.succ_pos d)
    obtain ⟨rfl, taken⟩ := slots_eq_some.mp used
    simp only [iterate_zero, id] at taken other
    rw [if_neg taken, if_neg other, if_neg room, core.probe_eq found]

theorem Core.has_update (inTable : i < 2 ^ n) (valid : pair.key ≠ notAKey) (count : Nat) (other : MapPair) :
    Has { table with buckets := update table.buckets i pair, count } other ↔
      other = pair ∨ ∃ j < 2 ^ n, j ≠ i ∧ slots table j = some other := by
  unfold Has
  rw [slots_update valid]
  simp only [← Nat.lt_add_one_iff, core.size_add_one]
  constructor
  · rintro ⟨j, inRange, used⟩
    by_cases here : j = i
    · rw [here, update_self] at used
      exact .inl (Option.some.inj used).symm
    · rw [update_of_ne here] at used
      exact .inr ⟨j, inRange, here, used⟩
  · rintro (rfl | ⟨j, inRange, apart, used⟩)
    · exact ⟨i, inTable, update_self i _ _⟩
    · exact ⟨j, inRange, (update_of_ne apart _ _).trans used⟩

omit core

/-- **The insertion of a new key** puts the pair into the table, which then may grow. -/
theorem Core.insert_fresh (lawful : Lawful proto) (core : Core proto table n) (sparse : Sparse table n) (valid : key ≠ notAKey)
    (fresh : ∀ pair, Has table pair → isEqual proto pair.key key ≠ true) (value : Nat) :
    ∃ placed, Core proto placed n ∧ placed.count = table.count + 1 ∧ (∀ pair, Has placed pair ↔ Has table pair ∨ pair = ⟨key, value⟩) ∧
      ∀ depth, nxMapInsert proto (depth + 1) table key value =
        if limit n < (table.count + 1) * 4 then (nxMapRehash (nxMapInsert proto depth) placed).map fun table => (table, 0)
        else some (placed, 0) := by
  obtain ⟨d, found⟩ := core.exists_found sparse key
  have inTable := core.cycle.iterate_lt (core.bucketOf_lt key) d
  have empty : slots table (table.nextIndex^[d] (table.bucketOf proto key)) = none := by
    refine Option.eq_none_iff_forall_ne_some.mpr fun pair used => ?_
    exact fresh pair ((core.has_iff pair).mpr ⟨_, inTable, used⟩) (found.stops pair used)
  have bounds : table.count * 4 ≤ 3 * 2 ^ 30 := sparse.trans (limit_le_of_le core.exponent.2)
  have counted : u32 (table.count + 1) = table.count + 1 := Nat.mod_eq_of_lt (by omega)
  have here : (⟨key, value⟩ : MapPair).key ≠ notAKey := valid
  refine ⟨{ table with
      buckets := update table.buckets (table.nextIndex^[d] (table.bucketOf proto key)) ⟨key, value⟩
      count := u32 (table.count + 1) }, ⟨core.size, core.exponent, ?_, ?_, core.quiet⟩, counted, fun pair => ?_, fun depth => ?_⟩
  · rw [slots_update here]
    exact core.ok.insert (b := ⟨key, value⟩) (fun a same => same.elim (fun same => lawful.isEqual_symm same) id)
      (fun a equal => lawful.bucketOf_eq table equal) found empty
  · rw [slots_update here, used_insert inTable empty, ← core.counted]
    exact counted
  · rw [core.has_update inTable here, core.has_iff, or_comm]
    refine or_congr_left ⟨fun ⟨j, inRange, _, used⟩ => ⟨j, inRange, used⟩, fun ⟨j, inRange, used⟩ => ⟨j, inRange, ?_, used⟩⟩
    rintro rfl
    rw [empty] at used
    cases used
  · rw [core.nxMapInsert_eq sparse valid found]
    rw [if_pos (slots_eq_none.mp empty), place, core.numBuckets_eq]
    rw [counted]
    have product : u32 ((table.count + 1) * 4) = (table.count + 1) * 4 := Nat.mod_eq_of_lt (by omega)
    rw [product]
    rfl

/-- **The insertion of a key the table has** gives its pair the new value. -/
theorem Core.insert_known (lawful : Lawful proto) (core : Core proto table n) (sparse : Sparse table n) (valid : key ≠ notAKey)
    {old : MapPair} (known : nxMapMember proto table key = some old) (value : Nat) :
    ∃ written, Core proto written n ∧ written.count = table.count ∧
      (∀ pair, Has written pair ↔ Has table pair ∧ isEqual proto pair.key key ≠ true ∨ pair = ⟨old.key, value⟩) ∧
      ∀ depth, nxMapInsert proto (depth + 1) table key value = some (written, old.value) := by
  obtain ⟨d, found⟩ := core.exists_found sparse key
  have inTable := core.cycle.iterate_lt (core.bucketOf_lt key) d
  rw [core.nxMapMember_eq found] at known
  have equal := found.stops old known
  obtain ⟨stored, taken⟩ := slots_eq_some.mp known
  have here : (⟨old.key, value⟩ : MapPair).key ≠ notAKey := taken
  -- writing the value that is there already changes nothing
  have written : (overwrite table (table.nextIndex^[d] (table.bucketOf proto key)) value) = ({ table with
        buckets := update table.buckets (table.nextIndex^[d] (table.bucketOf proto key)) ⟨old.key, value⟩ }, old.value) := by
    unfold overwrite
    rw [stored]
    dsimp only
    split
    next => rfl
    next same =>
      have same : (⟨old.key, value⟩ : MapPair) = table.buckets (table.nextIndex^[d] (table.bucketOf proto key)) := by
        rw [stored, ← not_not.mp same]
      rw [same, Function.update_eq_self]
  refine ⟨{ table with
      buckets := update table.buckets (table.nextIndex^[d] (table.bucketOf proto key)) ⟨old.key, value⟩ },
    ⟨core.size, core.exponent, ?_, ?_, core.quiet⟩, rfl, fun pair => ?_, fun depth => ?_⟩
  · rw [slots_update here]
    exact core.ok.replace inTable known rfl fun c same => same.elim (fun same => lawful.isEqual_symm same) id
  · rw [slots_update here, used_replace known, ← core.counted]
  · rw [core.has_update inTable here, core.has_iff, or_comm]
    refine or_congr_left ⟨fun ⟨j, inRange, apart, used⟩ => ⟨⟨j, inRange, used⟩, fun same => apart ?_⟩,
      fun ⟨⟨j, inRange, used⟩, other⟩ => ⟨j, inRange, ?_, used⟩⟩
    · exact core.ok.unique j inRange _ inTable pair old used known (lawful.isEqual_trans same (lawful.isEqual_symm equal))
    · rintro rfl
      rw [known] at used
      cases used
      exact other equal
  · rw [core.nxMapInsert_eq sparse valid found]
    rw [if_neg (by rw [stored]; exact taken), written]

end DarwinNotes.Objc.MapTable
