import DarwinNotes.Objc.MapTable.Removal

/-!
# A map table is a finite map

What a key is mapped to is decided by the operations so far. As long as the tables
stay below 2³¹ buckets, a map table answers every operation that way, counts and
enumerates the pairs that are stored, and causes no message.
-/

namespace DarwinNotes.Objc.MapTable
open Lib.Probing Lib.OpenAddressing List

variable {proto : Prototype} {table : Table} {n : Nat}

/-! ## The finite map -/

inductive Op
  | insert (key value : Nat)
  | remove (key : Nat)
  | member (key : Nat)
  | reset
deriving DecidableEq, Repr

inductive Answer
  /-- the old value -/
  | value (old : Nat)
  /-- the stored pair -/
  | pair (found : Option MapPair)
  | done
deriving DecidableEq, Repr

/-- The pair that is stored for a key after these operations, the latest first. The key
of the pair is the one with which it was inserted first. -/
def stored (proto : Prototype) : List Op → Nat → Option MapPair
  | [], _ => none
  | .insert key' value :: before, key =>
    if isEqual proto key' key then some ⟨((stored proto before key').map MapPair.key).getD key', value⟩
    else stored proto before key
  | .remove key' :: before, key => if isEqual proto key' key then none else stored proto before key
  | .member _ :: before, key => stored proto before key
  | .reset :: _, _ => none

/-- What a finite map answers after these operations. -/
def answer (proto : Prototype) (history : List Op) : Op → Answer
  | .insert key _ => .value (((stored proto history key).map MapPair.value).getD 0)
  | .remove key => .value (((stored proto history key).map MapPair.value).getD 0)
  | .member key => .pair (stored proto history key)
  | .reset => .done

/-- The operation on a table. -/
def perform (proto : Prototype) (depth : Nat) (table : Table) : Op → Option (Table × Answer)
  | .insert key value => (nxMapInsert proto depth table key value).map (Prod.map id Answer.value)
  | .remove key => (nxMapRemove proto depth table key).map (Prod.map id Answer.value)
  | .member key => some (table, .pair (nxMapMember proto table key))
  | .reset => some ((nxResetMapTable table).1, .done)

/-- Keys are not `NX_MAPNOTAKEY`, and a table that still may need room for a key has some in 2³⁰ buckets. -/
def Allowed (table : Table) : Op → Prop
  | .insert key _ => key ≠ notAKey ∧ table.count < maxCount
  | .remove key => key ≠ notAKey
  | .member key => key ≠ notAKey
  | .reset => True

/-- The tables that come out of sequences of operations. -/
inductive Run (proto : Prototype) (depth capacity : Nat) : List Op → Table → Prop
  | create {table : Table} (created : nxCreateMapTable capacity = some table) : Run proto depth capacity [] table
  | step {history : List Op} {table table' : Table} {op : Op} {result : Answer} (run : Run proto depth capacity history table)
      (allowed : Allowed table op) (performed : perform proto depth table op = some (table', result)) :
      Run proto depth capacity (op :: history) table'

/-! ## Creation and reset -/

theorem log2u_le {x k : Nat} (small : x < 2 ^ (k + 1)) : log2u x ≤ k := by
  induction k generalizing x with
  | zero => rw [log2u, if_pos (by omega)]
  | succ _ ih =>
    rw [log2u]
    split
    next => exact Nat.zero_le _
    next => exact Nat.succ_le_succ (ih (by rw [Nat.shiftRight_one]; omega))

/-- Fewer than 2³⁰ pairs are given at most 2³⁰ buckets. -/
theorem nxCreateMapTable_eq (capacity : Nat) (small : capacity < 2 ^ 30) :
    ∃ n, 1 ≤ n ∧ n ≤ 30 ∧ nxCreateMapTable capacity = some (emptyTable (2 ^ n - 1)) := by
  have bound := log2u_le small
  refine ⟨log2u capacity + 1, by omega, by omega, ?_⟩
  have fits : 2 ^ (log2u capacity + 1) < 2 ^ 32 := Nat.pow_lt_pow_right (by decide) (by omega)
  rw [nxCreateMapTable, exp2u, if_pos (by omega), Nat.one_shiftLeft, u32, Nat.mod_eq_of_lt fits]
  rfl

theorem good_emptyTable (large : 1 ≤ n) (small : n ≤ 30) : Good proto (emptyTable (2 ^ n - 1)) n :=
  ⟨core_emptyTable ⟨large, by omega⟩, Nat.zero_le _, small⟩

theorem slots_nxResetMapTable (table : Table) : slots (nxResetMapTable table).1 = fun _ => none := by
  funext i
  unfold slots nxResetMapTable
  dsimp only
  split <;> simp_all

theorem Good.reset (good : Good proto table n) : Good proto (nxResetMapTable table).1 n ∧ ∀ pair, ¬ Has (nxResetMapTable table).1 pair := by
  have slots_eq := slots_nxResetMapTable table
  refine ⟨⟨⟨good.core.size, good.core.exponent, ?_, ?_, good.core.quiet⟩, Nat.zero_le _, good.small⟩, ?_⟩
  · rw [slots_eq]
    exact ok_empty
  · rw [slots_eq]
    exact (count_eq_zero fun _ _ => by simp).symm
  · rintro pair ⟨i, _, used⟩
    rw [slots_eq] at used
    cases used

/-! ## Enumeration -/

theorem enumerateFrom_eq (table : Table) (fuel : Nat) {index : Nat} (enough : index ≤ fuel) :
    enumerateFrom table fuel index = (elements (slots table) index).reverse := by
  induction index generalizing fuel with
  | zero =>
    cases fuel with
    | zero | succ => rfl
  | succ index ih =>
    obtain ⟨fuel, rfl⟩ := Nat.exists_eq_succ_of_ne_zero (Nat.ne_zero_of_lt enough)
    have last : elements (slots table) (index + 1) = elements (slots table) index ++ (slots table index).toList := by
      simp only [elements, range_succ, filterMap_append, filterMap_cons, filterMap_nil]
      cases slots table index <;> rfl
    rw [enumerateFrom, nxNextMapState, last, reverse_append]
    by_cases empty : (table.buckets index).key = notAKey
    · rw [if_neg (not_not.mpr empty), slots_eq_none.mpr empty]
      exact ih (fuel + 1) (by omega)
    · rw [if_pos empty, slots, if_neg empty, ← ih fuel (by omega)]
      rfl

theorem Good.enumerate_eq (good : Good proto table n) : enumerate table = some (live table).reverse := by
  have small := Nat.pow_le_pow_right (n := 2) (by decide) good.small
  have buckets := good.core.numBuckets_eq
  rw [enumerate, nxInitMapState, if_pos (by omega), live, good.core.size_add_one]
  show some (enumerateFrom table table.numBuckets table.numBuckets) = _
  rw [enumerateFrom_eq table _ le_rfl, buckets]

/-! ## Refinement -/

/-- The table holds exactly what is stored. -/
structure Refines (proto : Prototype) (history : List Op) (table : Table) (n : Nat) : Prop where
  good : Good proto table n
  holds : ∀ key pair, stored proto history key = some pair ↔ Has table pair ∧ isEqual proto pair.key key = true

variable {history : List Op} (lawful : Lawful proto)
include lawful

theorem Refines.member (refines : Refines proto history table n) (key : Nat) : nxMapMember proto table key = stored proto history key := by
  refine Option.ext fun pair => ?_
  rw [refines.good.core.nxMapMember_iff lawful refines.good.sparse key pair, refines.holds]

theorem Refines.stored_self (refines : Refines proto history table n) (pair : MapPair) :
    stored proto history pair.key = some pair ↔ Has table pair := by
  rw [refines.holds, and_iff_left (lawful.isEqual_refl pair.key)]

/-- **One operation**: the table answers as the map does, and then holds what is stored. -/
theorem Refines.step (refines : Refines proto history table n) {op : Op} (allowed : Allowed table op)
    : ∃ table' n', Refines proto (op :: history) table' n' ∧
      ∀ depth, perform proto (depth + 2) table op = some (table', answer proto history op) := by
  cases op with
  | insert key value =>
    obtain ⟨table', n', good, -, has, inserted⟩ := refines.good.insert lawful allowed.1 allowed.2 value
    rw [refines.member lawful] at has
    refine ⟨table', n', ⟨good, fun key' pair => ?_⟩, fun depth => ?_⟩
    · -- the stored key is equal to the one that is inserted
      have same : isEqual proto (((stored proto history key).map MapPair.key).getD key) key = true := by
        cases before : stored proto history key with
        | none => exact lawful.isEqual_refl key
        | some old => exact ((refines.holds key old).mp before).2
      rw [has, stored]
      split
      next equal =>
        refine ⟨fun is => ?_, fun ⟨inTable, equal'⟩ => ?_⟩
        · cases is
          exact ⟨.inr rfl, lawful.isEqual_trans same equal⟩
        · rcases inTable with ⟨-, other⟩ | rfl
          · exact absurd (lawful.isEqual_trans equal' (lawful.isEqual_symm equal)) other
          · rfl
      next other =>
        rw [refines.holds]
        refine ⟨fun ⟨inTable, equal'⟩ => ⟨.inl ⟨inTable, fun equal => other ?_⟩, equal'⟩, fun ⟨inTable, equal'⟩ => ?_⟩
        · exact lawful.isEqual_trans (lawful.isEqual_symm equal) equal'
        · rcases inTable with ⟨inTable, -⟩ | rfl
          · exact ⟨inTable, equal'⟩
          · exact absurd (lawful.isEqual_trans (lawful.isEqual_symm same) equal') other
    · rw [perform, inserted, refines.member lawful]
      rfl
  | remove key =>
    obtain ⟨table', good, has, removed⟩ := refines.good.remove lawful key
    refine ⟨table', n, ⟨good, fun key' pair => ?_⟩, fun depth => ?_⟩
    · rw [has, stored]
      split
      next equal =>
        refine ⟨nofun, fun ⟨⟨_, other⟩, equal'⟩ => ?_⟩
        exact absurd (lawful.isEqual_trans equal' (lawful.isEqual_symm equal)) other
      next other =>
        rw [refines.holds]
        refine ⟨fun ⟨inTable, equal'⟩ => ⟨⟨inTable, fun equal => other ?_⟩, equal'⟩, fun ⟨⟨inTable, _⟩, equal'⟩ => ⟨inTable, equal'⟩⟩
        exact lawful.isEqual_trans (lawful.isEqual_symm equal) equal'
    · rw [perform, removed, refines.member lawful]
      rfl
  | member =>
    refine ⟨table, n, ⟨refines.good, refines.holds⟩, fun depth => ?_⟩
    rw [perform, refines.member lawful]
    rfl
  | reset =>
    obtain ⟨good, empty⟩ := refines.good.reset
    refine ⟨_, n, ⟨good, fun key pair => ⟨nofun, fun ⟨has, _⟩ => absurd has (empty pair)⟩⟩, fun depth => rfl⟩

/-- **Every sequence of operations.** -/
theorem Run.refines (depth : Nat) {capacity : Nat} (small : capacity < 2 ^ 30) (run : Run proto (depth + 2) capacity history table)
    : ∃ n, Refines proto history table n := by
  induction run with
  | create created =>
    obtain ⟨n, large, small, created'⟩ := nxCreateMapTable_eq capacity small
    rw [created] at created'
    cases created'
    exact ⟨n, good_emptyTable large small, fun key pair => ⟨nofun, fun ⟨has, _⟩ => absurd has (not_has_emptyTable _ pair)⟩⟩
  | step _ allowed performed ih =>
    obtain ⟨n, refines⟩ := ih
    obtain ⟨_, n', refines', performed'⟩ := refines.step lawful allowed
    rw [performed'] at performed
    cases performed
    exact ⟨n', refines'⟩

omit lawful

/-- **A map table is a finite map.** -/
theorem map_table_is_map {proto : Prototype} (lawful : Lawful proto) (depth : Nat) {capacity : Nat} (small : capacity < 2 ^ 30)
    {history : List Op} {table : Table} (run : Run proto (depth + 2) capacity history table) :
    (∀ key, nxMapMember proto table key = stored proto history key) ∧
    table.count = {pair : MapPair | stored proto history pair.key = some pair}.ncard ∧
    (∃ pairs, enumerate table = some pairs ∧ pairs.Nodup ∧ ∀ pair, pair ∈ pairs ↔ stored proto history pair.key = some pair) ∧
    table.informed = [] ∧ (∃ created, nxCreateMapTable capacity = some created) ∧
    ∀ op, Allowed table op → ∃ table', perform proto (depth + 2) table op = some (table', answer proto history op) := by
  obtain ⟨n, refines⟩ := run.refines lawful depth small
  have core := refines.good.core
  have nodup : (live table).Nodup := by
    refine core.pairwise_live.imp ?_
    rintro a b apart rfl
    exact apart (lawful.isEqual_refl a.key)
  have mem : ∀ pair, pair ∈ live table ↔ stored proto history pair.key = some pair :=
    fun pair => mem_live.trans (refines.stored_self lawful pair).symm
  refine ⟨refines.member lawful, ?_, ⟨_, refines.good.enumerate_eq, nodup_reverse.mpr nodup, fun pair => ?_⟩,
    core.quiet, ?_, fun op allowed => ?_⟩
  · have asSet : {pair : MapPair | stored proto history pair.key = some pair} = (live table).toFinset := by
      ext pair
      simp [mem]
    rw [asSet, Set.ncard_coe_finset, toFinset_card_of_nodup nodup, core.length_live]
  · rw [mem_reverse, mem]
  · obtain ⟨n, -, -, created⟩ := nxCreateMapTable_eq capacity small
    exact ⟨_, created⟩
  · obtain ⟨table', -, -, performed⟩ := refines.step lawful allowed
    exact ⟨table', performed depth⟩

theorem lawful_ptrValueMapPrototype : Lawful ptrValueMapPrototype where
  refl key := beq_self_eq_true key
  symm a b equal := by rw [eq_of_beq equal]; exact beq_self_eq_true b
  trans a b c first second := by rw [eq_of_beq first]; exact second
  hash_eq a b equal := by rw [eq_of_beq equal]

theorem map_table_is_map_pointers : ∃ table, Run ptrValueMapPrototype 2 0 [.insert 8 1] table ∧
    nxMapMember ptrValueMapPrototype table 8 = some ⟨8, 1⟩ := by
  obtain ⟨n, -, -, created⟩ := nxCreateMapTable_eq 0 (by decide)
  have run : Run ptrValueMapPrototype 2 0 [] (emptyTable (2 ^ n - 1)) := .create created
  have allowed : Allowed (emptyTable (2 ^ n - 1)) (.insert 8 1) := ⟨by decide, show 0 < maxCount by decide⟩
  obtain ⟨table, performed⟩ := (map_table_is_map lawful_ptrValueMapPrototype 0 (by decide) run).2.2.2.2.2 _ allowed
  have run' := run.step allowed performed
  exact ⟨table, run', (map_table_is_map lawful_ptrValueMapPrototype 0 (by decide) run').1 8⟩

/-! ## Where the arithmetic ends -/

/-- A table of 2³¹ buckets has the size 0 after it is doubled. -/
theorem rehash_no_buckets (core : Core proto table 31) (some_ : table.count ≠ 0) (depth : Nat) :
    nxMapRehash (nxMapInsert proto depth) table = none := by
  have length := core.length_live
  rw [nxMapRehash_eq core]
  cases pairs : live table with
  | nil =>
    rw [pairs] at length
    exact absurd length.symm some_
  | cons first =>
    have failed : nxMapInsert proto depth (emptyTable (u32 (2 ^ 32 + (2 ^ 32 - 1)))) first.key first.value = none := by
      cases depth with
      | zero => rfl
      | succ =>
        rw [nxMapInsert, if_neg (mem_live.mp (by simp [pairs] : first ∈ live table)).valid]
        exact if_pos (by decide)
    rw [insertAll, foldlM_cons, failed]
    rfl

/-- 2³¹ buckets are doubled when they hold 2²⁹ pairs. -/
theorem insertAll_too_many (lawful : Lawful proto) {pairs : List MapPair}
    (fresh : Fresh proto (emptyTable (2 ^ 31 - 1)) pairs) (many : 2 ^ 29 < pairs.length) (depth : Nat) :
    insertAll proto depth (emptyTable (2 ^ 31 - 1)) pairs = none := by
  have atLimit : limit 31 = 2 ^ 29 * 4 := by decide
  generalize 2 ^ 29 = k at many atLimit
  obtain ⟨front, last, rest, length, rfl⟩ : ∃ front last rest, front.length = k ∧ pairs = front ++ last :: rest := by
    refine ⟨pairs.take k, pairs.get ⟨k, many⟩, pairs.drop (k + 1), by rw [length_take]; omega, ?_⟩
    exact (take_append_drop k pairs).symm.trans (congrArg _ (drop_eq_getElem_cons many))
  have parts := pairwise_append.mp fresh.distinct
  cases depth with
  | zero => cases front <;> rfl
  | succ depth =>
    have fresh' : Fresh proto (emptyTable (2 ^ 31 - 1)) front :=
      ⟨fun pair mem => fresh.valid pair (mem_append_left _ mem), parts.1,
        fun pair mem => fresh.new pair (mem_append_left _ mem)⟩
    have unused : (emptyTable (2 ^ 31 - 1)).count = 0 := rfl
    obtain ⟨filled, core, count, has, all⟩ := (core_emptyTable (n := 31) (by decide)).insertAll lawful fresh'
      (by rw [unused, length, atLimit]; omega)
    have new : ∀ pair, Has filled pair → isEqual proto pair.key last.key ≠ true := by
      intro pair inTable
      have mem := ((has pair).mp inTable).resolve_left (not_has_emptyTable _ pair)
      exact parts.2.2 pair mem last (mem_cons_self ..)
    obtain ⟨_, core', _, -, inserted⟩ := core.insert_fresh lawful (by unfold Sparse; omega)
      (fresh.valid last (by simp)) new last.value
    rw [insertAll, foldlM_append]
    show (insertAll proto (depth + 1) _ front >>= _) = none
    rw [all depth, Option.bind_eq_bind, Option.bind_some, foldlM_cons, inserted depth, if_pos (by omega), rehash_no_buckets core' (by omega)]
    rfl

/-- A new key does not fit into a table of 2³⁰ buckets that is as full as it may be. -/
theorem Good.insert_full (lawful : Lawful proto) (good : Good proto table n) (full : table.count = maxCount) {key : Nat}
    (valid : key ≠ notAKey) (fresh : ∀ pair, Has table pair → isEqual proto pair.key key ≠ true) (value depth : Nat) :
    nxMapInsert proto depth table key value = none := by
  cases depth with
  | zero => rfl
  | succ =>
    have sparse := good.sparse
    rw [Sparse, limit_of_le good.small, full, maxCount] at sparse
    obtain rfl : n = 30 := by
      by_contra other
      have := Nat.pow_le_pow_right (n := 2) (by decide) (show n ≤ 29 from by have := good.small; omega)
      omega
    obtain ⟨placed, core, count, -, inserted⟩ := good.core.insert_fresh lawful good.sparse valid fresh value
    have many : 2 ^ 29 < (live placed).length := by
      rw [core.length_live, count, full]
      decide
    have size : u32 (2 ^ (30 + 1) + (2 ^ 32 - 1)) = 2 ^ 31 - 1 := by decide
    rw [inserted, if_pos (by rw [full]; decide), nxMapRehash_eq core, size, insertAll_too_many lawful (core.fresh_live _) many]
    rfl

/-- Any number of pointers up to that can be inserted. -/
theorem exists_run_pointers {m : Nat} (fits : m ≤ maxCount) :
    ∃ history table, Run ptrValueMapPrototype 2 0 history table ∧ table.count = m ∧ ∀ pair, Has table pair → pair.key < m := by
  induction m with
  | zero =>
    obtain ⟨n, -, -, created⟩ := nxCreateMapTable_eq 0 (by decide)
    exact ⟨[], _, .create created, rfl, fun pair has => absurd has (not_has_emptyTable _ pair)⟩
  | succ m ih =>
    obtain ⟨history, table, run, count, below⟩ := ih (by omega)
    have lawful := lawful_ptrValueMapPrototype
    obtain ⟨n, refines⟩ := run.refines lawful 0 (by decide)
    have valid : m ≠ notAKey := by
      unfold maxCount notAKey at *
      omega
    have room : table.count < maxCount := by omega
    obtain ⟨table', _, -, count', has, inserted⟩ := refines.good.insert lawful valid room 0
    have unknown : nxMapMember ptrValueMapPrototype table m = none := by
      refine Option.eq_none_iff_forall_ne_some.mpr fun pair found => ?_
      obtain ⟨inTable, equal⟩ := (refines.good.core.nxMapMember_iff lawful refines.good.sparse m pair).mp found
      rw [lawful.isEqual_eq] at equal
      exact (below pair inTable).ne (eq_of_beq equal)
    rw [unknown] at count' has inserted
    have performed : perform ptrValueMapPrototype 2 table (.insert m 0) = some (table', .value 0) := by
      rw [perform, inserted 0]
      rfl
    have allowed : Allowed table (.insert m 0) := ⟨valid, room⟩
    refine ⟨_, table', run.step allowed performed, by simpa [count] using count', fun pair inTable => ?_⟩
    rcases (has pair).mp inTable with ⟨old, -⟩ | rfl
    · exact (below pair old).trans (Nat.lt_succ_self m)
    · exact Nat.lt_succ_self m

/-- **Too large a capacity, too many buckets to enumerate, too many pairs**: the shift of the size is undefined, the
`int` of an enumeration is negative, the size of a table is doubled to 0. -/
theorem map_table_limits : nxCreateMapTable (2 ^ 31) = none ∧ (∃ table, nxCreateMapTable (2 ^ 30) = some table ∧ enumerate table = none) ∧
    ∃ history table, Run ptrValueMapPrototype 2 0 history table ∧ table.count = 3 * 2 ^ 28 ∧
      ∀ depth, nxMapInsert ptrValueMapPrototype depth table (3 * 2 ^ 28) 0 = none := by
  have log2u_pow : ∀ k, log2u (2 ^ k) = k := by
    intro k
    induction k with
    | zero => rw [log2u, if_pos (by decide)]
    | succ k ih =>
      have := Nat.two_pow_pos k
      rw [log2u, if_neg (by omega), Nat.shiftRight_one, Nat.pow_succ, Nat.mul_div_cancel _ (by decide), ih]
  refine ⟨?_, ⟨emptyTable (2 ^ 31 - 1), ?_, ?_⟩, ?_⟩
  · rw [nxCreateMapTable, log2u_pow]
    rfl
  · rw [nxCreateMapTable, log2u_pow]
    rfl
  · rfl
  · obtain ⟨history, table, run, count, below⟩ := exists_run_pointers (le_refl maxCount)
    have lawful := lawful_ptrValueMapPrototype
    obtain ⟨n, refines⟩ := run.refines lawful 0 (by decide)
    refine ⟨history, table, run, count, refines.good.insert_full lawful count (by decide) (fun pair inTable equal => ?_) 0⟩
    rw [lawful.isEqual_eq] at equal
    exact (below pair inTable).ne (eq_of_beq equal)

end DarwinNotes.Objc.MapTable
