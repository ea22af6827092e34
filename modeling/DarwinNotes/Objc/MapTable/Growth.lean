import DarwinNotes.Objc.MapTable.Invariant

/-!
# Growing map tables

Pairs with new keys can be inserted one after another as long as the table has room.
That is what `_NXMapRehash` does with a table twice as large, and what closes a gap
after a removal.
-/

namespace DarwinNotes.Objc.MapTable
open Lib.Probing Lib.OpenAddressing List

variable {proto : Prototype} {table : Table} {n : Nat}

/-! ## The pairs of a table -/

/-- The pairs of the table, in the order of the buckets. -/
def live (table : Table) : List MapPair := elements (slots table) (table.nbBucketsMinusOne + 1)

theorem mem_live {pair : MapPair} : pair ∈ live table ↔ Has table pair := by simp only [live, mem_elements, Has, Nat.lt_add_one_iff]

theorem live_eq_filter (table : Table) : live table =
      ((range (table.nbBucketsMinusOne + 1)).map table.buckets).filter fun pair => pair.key ≠ notAKey := by
  unfold live elements
  induction range (table.nbBucketsMinusOne + 1) with
  | nil => rfl
  | cons i _ ih => by_cases empty : (table.buckets i).key = notAKey <;> simp [slots, empty, ih]

theorem Core.length_live (core : Core proto table n) : (live table).length = table.count := by
  rw [live, length_elements, core.size_add_one, core.counted]

theorem Core.pairwise_live (core : Core proto table n) : (live table).Pairwise fun a b => isEqual proto a.key b.key ≠ true := by
  rw [live, core.size_add_one]
  exact core.ok.pairwise_elements

/-- A table right after its buckets were allocated. -/
def emptyTable (nbBucketsMinusOne : Nat) : Table :=
  { count := 0, nbBucketsMinusOne, buckets := allocBuckets, informed := [] }

theorem not_has_emptyTable (size : Nat) (pair : MapPair) : ¬ Has (emptyTable size) pair := by
  rintro ⟨i, _, used⟩
  cases used

theorem core_emptyTable (exponent : 1 ≤ n ∧ n ≤ 31) : Core proto (emptyTable (2 ^ n - 1)) n where
  size := rfl
  exponent := exponent
  ok := ok_empty
  counted := (count_eq_zero fun _ _ => by simp [slots, emptyTable, allocBuckets]).symm
  quiet := rfl

/-! ## Insertion of a list of pairs -/

/-- `NXMapInsert` of one pair after another. -/
def insertAll (proto : Prototype) (depth : Nat) (table : Table) (pairs : List MapPair) : Option Table :=
  pairs.foldlM (fun table pair => (nxMapInsert proto depth table pair.key pair.value).map Prod.fst) table

/-- Pairs with keys, all different from each other and from those of the table. -/
structure Fresh (proto : Prototype) (table : Table) (pairs : List MapPair) : Prop where
  valid : ∀ pair ∈ pairs, pair.key ≠ notAKey
  distinct : pairs.Pairwise fun a b => isEqual proto a.key b.key ≠ true
  new : ∀ pair ∈ pairs, ∀ other, Has table other → isEqual proto other.key pair.key ≠ true

/-- All pairs of a table are new to an empty one. -/
theorem Core.fresh_live (core : Core proto table n) (size : Nat) : Fresh proto (emptyTable size) (live table) where
  valid _ mem := (mem_live.mp mem).valid
  distinct := core.pairwise_live
  new _ _ other inTable := absurd inTable (not_has_emptyTable size other)

/-- **New pairs go into a table that has room for all of them.** -/
theorem Core.insertAll (lawful : Lawful proto) (core : Core proto table n) {pairs : List MapPair}
    (fresh : Fresh proto table pairs) (room : (table.count + pairs.length) * 4 ≤ limit n) :
    ∃ filled, Core proto filled n ∧ filled.count = table.count + pairs.length ∧ (∀ pair, Has filled pair ↔ Has table pair ∨ pair ∈ pairs) ∧
      ∀ depth, insertAll proto (depth + 1) table pairs = some filled := by
  induction pairs generalizing table with
  | nil => exact ⟨table, core, rfl, fun pair => by simp, fun depth => rfl⟩
  | cons first rest ih =>
    rw [length_cons] at room ⊢
    obtain ⟨placed, core', count, has, inserted⟩ := core.insert_fresh lawful (by unfold Sparse; omega)
      (fresh.valid first (mem_cons_self ..)) (fresh.new first (mem_cons_self ..)) first.value
    have apart := pairwise_cons.mp fresh.distinct
    have fresh' : Fresh proto placed rest := by
      refine ⟨fun pair mem => fresh.valid pair (mem_cons_of_mem _ mem), apart.2, fun pair mem other inTable => ?_⟩
      rcases (has other).mp inTable with old | rfl
      · exact fresh.new pair (mem_cons_of_mem _ mem) other old
      · exact apart.1 pair mem
    obtain ⟨filled, core'', _, has', all⟩ := ih core' fresh' (by omega)
    refine ⟨filled, core'', by omega, fun pair => ?_, fun depth => ?_⟩
    · rw [has', has, mem_cons, or_assoc]
    · rw [MapTable.insertAll, foldlM_cons, inserted, if_neg (by omega)]
      exact all depth

/-! ## Rehashing -/

theorem nxMapRehash_eq (core : Core proto table n) (depth : Nat) : nxMapRehash (nxMapInsert proto depth) table = (do
      let filled ← insertAll proto depth (emptyTable (u32 (2 ^ (n + 1) + (2 ^ 32 - 1)))) (live table)
      if table.count ≠ filled.count then
        return filled.inform "*** maptable: count differs after rehashing; probably indicates a broken invariant: there are x and y such as isEqual(x, y) is TRUE but hash(x) != hash (y)\n"
      else return filled) := by
  have sizes : 2 * table.numBuckets = 2 ^ (n + 1) := by rw [core.numBuckets_eq, Nat.pow_succ, Nat.mul_comm]
  have buckets : table.numBuckets = table.nbBucketsMinusOne + 1 := by rw [core.numBuckets_eq, core.size_add_one]
  rw [nxMapRehash, insertAll, live_eq_filter, foldlM_filter]
  simp only [decide_eq_true_eq, sizes, core.quiet, ← buckets]
  rfl

/-- **Rehashing keeps the pairs.** -/
theorem Core.rehash (lawful : Lawful proto) (core : Core proto table n) (small : n ≤ 30)
    (room : table.count * 4 ≤ limit (n + 1)) :
    ∃ bigger, Core proto bigger (n + 1) ∧ bigger.count = table.count ∧ (∀ pair, Has bigger pair ↔ Has table pair) ∧
      ∀ depth, nxMapRehash (nxMapInsert proto (depth + 1)) table = some bigger := by
  have size : u32 (2 ^ (n + 1) + (2 ^ 32 - 1)) = 2 ^ (n + 1) - 1 := by
    have := Nat.pow_le_pow_right (n := 2) (by decide) (Nat.succ_le_succ small)
    have := Nat.two_pow_pos (n + 1)
    unfold u32
    omega
  have unused : (emptyTable (2 ^ (n + 1) - 1)).count = 0 := rfl
  obtain ⟨bigger, core', count, has, all⟩ :=
    (core_emptyTable (n := n + 1) ⟨by omega, by omega⟩).insertAll lawful (core.fresh_live _)
      (by rw [core.length_live, unused]; omega)
  have same : bigger.count = table.count := by rw [count, core.length_live, unused, Nat.zero_add]
  refine ⟨bigger, core', same, fun pair => ?_, fun depth => ?_⟩
  · simp [has, not_has_emptyTable, mem_live]
  · rw [nxMapRehash_eq core, size, all]
    simp [same]

/-! ## `NXMapInsert` -/

/-- A table of at most 2³⁰ buckets between two operations. -/
structure Good (proto : Prototype) (table : Table) (n : Nat) : Prop where
  core : Core proto table n
  sparse : Sparse table n
  small : n ≤ 30

/-- The number of keys for which a table of 2³⁰ buckets has room. -/
def maxCount : Nat := 3 * 2 ^ 28

/-- **`NXMapInsert`**: the pair of the key has the value; the other pairs are as before. -/
theorem Good.insert (lawful : Lawful proto) (good : Good proto table n) {key : Nat} (valid : key ≠ notAKey)
    (room : table.count < maxCount) (value : Nat) : ∃ table' n', Good proto table' n' ∧
      table'.count = table.count + (if (nxMapMember proto table key).isSome then 0 else 1) ∧
      (∀ pair, Has table' pair ↔ Has table pair ∧ isEqual proto pair.key key ≠ true ∨
        pair = ⟨((nxMapMember proto table key).map MapPair.key).getD key, value⟩) ∧ ∀ depth, nxMapInsert proto (depth + 2) table key value =
        some (table', ((nxMapMember proto table key).map MapPair.value).getD 0) := by
  have member := good.core.nxMapMember_iff lawful good.sparse key
  cases known : nxMapMember proto table key with
  | some =>
    obtain ⟨written, core, count, has, inserted⟩ := good.core.insert_known lawful good.sparse valid known value
    refine ⟨written, n, ⟨core, ?_, good.small⟩, count, has, fun depth => inserted (depth + 1)⟩
    rw [Sparse, count]
    exact good.sparse
  | none =>
    have fresh : ∀ pair, Has table pair → isEqual proto pair.key key ≠ true := by
      intro pair has equal
      have found := (member pair).mpr ⟨has, equal⟩
      rw [known] at found
      cases found
    obtain ⟨placed, core, count, has, inserted⟩ := good.core.insert_fresh lawful good.sparse valid fresh value
    have has : ∀ pair, Has placed pair ↔ Has table pair ∧ isEqual proto pair.key key ≠ true ∨ pair = ⟨key, value⟩ := by
      intro pair
      rw [has, and_iff_left_of_imp (fresh pair)]
    by_cases grows : limit n < (table.count + 1) * 4
    · -- a table of 2³⁰ buckets does not grow
      have less : n ≤ 29 := by
        by_contra large
        obtain rfl : n = 30 := by have := good.small; omega
        rw [limit_of_le le_rfl] at grows
        unfold maxCount at room
        omega
      have twice := Nat.pow_le_pow_right (n := 2) (by decide) good.core.exponent.1
      have sparse := good.sparse
      rw [Sparse, limit_of_le good.small] at sparse
      have fits : placed.count * 4 ≤ limit (n + 1) := by
        rw [limit_of_le (by omega), count, Nat.pow_succ]
        omega
      obtain ⟨bigger, core', count', has', rehashed⟩ := core.rehash lawful good.small fits
      refine ⟨bigger, n + 1, ⟨core', by rw [Sparse, count']; exact fits, by omega⟩, count'.trans count, fun pair => ?_, fun depth => ?_⟩
      · rw [has', has]
        rfl
      · rw [inserted, if_pos grows, rehashed]
        rfl
    · refine ⟨placed, n, ⟨core, by rw [Sparse, count]; omega, good.small⟩, count, has, fun depth => ?_⟩
      rw [inserted, if_neg grows]
      rfl

end DarwinNotes.Objc.MapTable
