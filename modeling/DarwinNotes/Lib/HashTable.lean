import DarwinNotes.Lib.Probing

/-!
# Open addressing with a displacement bound

A table of a power of two slots in which an element is put at the first empty slot
from its home on. A lookup gives up after the largest displacement of any insertion,
so that elements can be removed by emptying their slot.

`Ok` is the invariant of such a table; for each operation there is a lemma that it
succeeds, keeps the invariant and does what is expected to the elements.
-/

namespace DarwinNotes.Lib.HashTable
open Lib.Probing Function List

/-! ## A slot is written -/

section Slots

variable {α ι : Type} [DecidableEq ι] {within : ι → Prop} (key : α → Nat) {slots : ι → α} {i : ι} {a : α}
  (unique : ∀ i, within i → ∀ j, within j → key (slots i) ≠ 0 → key (slots i) = key (slots j) → i = j)
include unique

/-- No key is stored twice if the new one is stored nowhere else. -/
theorem unique_update (new : key a ≠ 0 → ∀ j, within j → key (slots j) = key a → j = i) (j : ι) (inJ : within j) (k : ι) (inK : within k)
    (used : key (update slots i a j) ≠ 0) (same : key (update slots i a j) = key (update slots i a k)) : j = k := by
  by_cases atJ : j = i <;> by_cases atK : k = i <;> grind

theorem stored_update (inRange : within i) (b : α) : (key b ≠ 0 ∧ ∃ j, within j ∧ update slots i a j = b) ↔
    key a ≠ 0 ∧ b = a ∨ (key b ≠ 0 ∧ ∃ j, within j ∧ slots j = b) ∧ b ≠ slots i := by
  constructor
  · rintro ⟨used, j, inJ, rfl⟩
    by_cases here : j = i
    · rw [here, update_self] at used ⊢
      exact .inl ⟨used, rfl⟩
    · rw [update_of_ne here] at used ⊢
      exact .inr ⟨⟨used, j, inJ, rfl⟩, fun same => here (unique j inJ i inRange used (congrArg key same))⟩
  · rintro (⟨used, rfl⟩ | ⟨⟨used, j, inJ, rfl⟩, other⟩)
    · exact ⟨used, i, inRange, update_self _ _ _⟩
    · exact ⟨used, j, inJ, update_of_ne (fun here => other (congrArg slots here)) _ _⟩

theorem stored_insert (inRange : within i) (empty : key (slots i) = 0) (valid : key a ≠ 0) (b : α) :
    (key b ≠ 0 ∧ ∃ j, within j ∧ update slots i a j = b) ↔ (key b ≠ 0 ∧ ∃ j, within j ∧ slots j = b) ∨ b = a := by
  rw [stored_update key unique inRange, or_comm, and_iff_right valid, and_iff_left_of_imp]
  rintro ⟨used, _⟩ rfl
  exact used empty

end Slots

/-- How elements are hashed. Key 0 is an empty slot. -/
structure Scheme (α : Type) where
  key : α → Nat
  hash : Nat → Nat
  empty : α
  key_empty : key empty = 0

structure Table (α : Type) where
  slots : Nat → α
  mask : Nat
  count : Nat
  maxDisplacement : Nat

variable {α : Type} (scheme : Scheme α)

namespace Table

variable (table : Table α)

def next (i : Nat) : Nat := (i + 1) &&& table.mask

def home (k : Nat) : Nat := scheme.hash k &&& table.mask

/-- A table without elements. -/
def vacant (mask : Nat) : Table α := ⟨fun _ => scheme.empty, mask, 0, 0⟩

/-- Put an element into the first empty slot. `none` is a table without one. -/
def insert (a : α) : Option (Table α) :=
  let start := table.home scheme (scheme.key a)
  match scan table.next (fun i _ => scheme.key (table.slots i) == 0) start (table.mask + 1) start 0 with
  | .stopped i displacement => some { table with
      slots := update table.slots i a
      count := table.count + 1
      maxDisplacement :=
        if table.maxDisplacement < displacement then displacement else table.maxDisplacement }
  | _ => none

end Table

inductive Lookup
  | found (index : Nat)
  | absent
  /-- the lookup is back where it began -/
  | bad
  deriving DecidableEq, Repr

namespace Table

variable (table : Table α)

/-- A lookup of the key ends at a slot with it, or too far from home. -/
def ends (k i displacement : Nat) : Bool := decide (table.maxDisplacement < displacement) || scheme.key (table.slots i) == k

/-- Look for a key, not farther than `maxDisplacement`. -/
def find (k : Nat) : Lookup :=
  let start := table.home scheme k
  match scan table.next (table.ends scheme k) start (table.mask + 1) start 0 with
  | .stopped i displacement => if table.maxDisplacement < displacement then .absent else .found i
  | _ => .bad

/-- Empty a slot. -/
def clear (i : Nat) : Table α :=
  { table with slots := update table.slots i scheme.empty, count := table.count - 1 }

/-! ## The invariant -/

structure Ok (table : Table α) : Prop where
  size : ∃ n, table.mask + 1 = 2 ^ n
  placed : ∀ i ≤ table.mask, scheme.key (table.slots i) ≠ 0 → ∃ displacement ≤ table.maxDisplacement,
    table.next^[displacement] (table.home scheme (scheme.key (table.slots i))) = i
  unique : ∀ i ≤ table.mask, ∀ j ≤ table.mask, scheme.key (table.slots i) ≠ 0 →
    scheme.key (table.slots i) = scheme.key (table.slots j) → i = j
  count_eq : table.count = Probing.count (fun i => scheme.key (table.slots i) ≠ 0) (table.mask + 1)
  short : table.maxDisplacement < table.mask

/-- The elements of a table. -/
def Has (table : Table α) (a : α) : Prop := scheme.key a ≠ 0 ∧ ∃ i ≤ table.mask, table.slots i = a

variable {scheme} {table table' : Table α}

theorem next_eq {n : Nat} (size : table.mask + 1 = 2 ^ n) : table.next = fun i => (i + 1) % (table.mask + 1) := by
  funext i
  have mask : table.mask = 2 ^ n - 1 := by omega
  rw [next, size, mask, Nat.and_two_pow_sub_one_eq_mod]

theorem Ok.cycle (ok : table.Ok scheme) : Cycle table.next (table.mask + 1) := by
  obtain ⟨n, size⟩ := ok.size
  rw [next_eq size]
  exact cycle_up _

theorem Ok.home_lt (_ok : table.Ok scheme) (k : Nat) : table.home scheme k < table.mask + 1 := Nat.lt_succ_of_le Nat.and_le_right

theorem vacant_ok (scheme : Scheme α) {mask n : Nat} (size : mask + 1 = 2 ^ n) (positive : 0 < mask) : (vacant scheme mask).Ok scheme where
  size := ⟨n, size⟩
  placed _ _ used := absurd scheme.key_empty used
  unique _ _ _ _ used := absurd scheme.key_empty used
  count_eq := (count_eq_zero fun _ _ used => used scheme.key_empty).symm
  short := positive

theorem vacant_has {mask : Nat} (a : α) : ¬ (vacant scheme mask).Has scheme a := by
  rintro ⟨used, i, _, rfl⟩
  exact used scheme.key_empty

/-! ## Lookup -/

variable (ok : table.Ok scheme)
include ok

theorem Ok.find_eq {k : Nat} (displacement : Nat) (near : displacement ≤ table.mask)
    (stops : table.ends scheme k (table.next^[displacement] (table.home scheme k)) displacement = true)
    (before : ∀ m < displacement, table.ends scheme k (table.next^[m] (table.home scheme k)) m = false) :
    table.find scheme k = if table.maxDisplacement < displacement then .absent
      else .found (table.next^[displacement] (table.home scheme k)) := by
  rw [find, scan_stopped ok.cycle (ok.home_lt k) (by omega) stops before (by omega)]

/-- **A lookup finds an element that is there.** -/
theorem Ok.find_found {i : Nat} (inRange : i ≤ table.mask) (used : scheme.key (table.slots i) ≠ 0)
    : table.find scheme (scheme.key (table.slots i)) = .found i := by
  obtain ⟨displacement, _, there⟩ := ok.placed i inRange used
  have short := ok.short
  rw [ok.find_eq displacement (by omega) (by simp [ends, there]) ?_, if_neg (by omega), there]
  intro m early
  -- an earlier slot with the key would be this one
  have different : scheme.key (table.slots (table.next^[m] (table.home scheme (scheme.key (table.slots i))))) ≠
      scheme.key (table.slots i) := by
    intro same
    have inTable := ok.cycle.iterate_lt (ok.home_lt (scheme.key (table.slots i))) m
    have here := ok.unique i inRange _ (Nat.le_of_lt_succ inTable) used same.symm
    have := ok.cycle.iterate_inj (ok.home_lt (scheme.key (table.slots i))) early.le (by omega) (here.symm.trans there.symm)
    omega
  simp only [ends, Bool.or_eq_false_iff, decide_eq_false_iff_not, beq_eq_false_iff_ne]
  exact ⟨by omega, different⟩

/-- **A lookup of a key that is not there gives up.** -/
theorem Ok.find_absent {k : Nat} (absent : ∀ i ≤ table.mask, scheme.key (table.slots i) ≠ k) : table.find scheme k = .absent := by
  have short := ok.short
  rw [ok.find_eq (table.maxDisplacement + 1) (by omega) (by simp [ends]) ?_, if_pos (by omega)]
  intro m early
  have inTable := ok.cycle.iterate_lt (ok.home_lt k) m
  simp only [ends, Bool.or_eq_false_iff, decide_eq_false_iff_not, beq_eq_false_iff_ne]
  exact ⟨by omega, absent _ (Nat.le_of_lt_succ inTable)⟩

/-! ## Insertion -/

/-- **There is room for an element if two slots are empty.** -/
theorem Ok.insert {a : α} (valid : scheme.key a ≠ 0) (new : ∀ i ≤ table.mask, scheme.key (table.slots i) ≠ scheme.key a)
    (room : table.count < table.mask) : ∃ table', table.insert scheme a = some table' ∧ table'.Ok scheme ∧ table'.mask = table.mask ∧
      table'.count = table.count + 1 ∧ ∀ b, table'.Has scheme b ↔ table.Has scheme b ∨ b = a := by
  have few : Probing.count (fun i => scheme.key (table.slots i) ≠ 0) (table.mask + 1) < table.mask + 1 := by
    rw [← ok.count_eq]
    omega
  obtain ⟨_, inRange, empty⟩ := exists_not_of_count_lt few
  obtain ⟨displacement, near, isEmpty, before⟩ := ok.cycle.first (ok.home_lt (scheme.key a)) inRange
    (fun i => scheme.key (table.slots i) = 0) (not_not.mp empty)
  have slotInRange := ok.cycle.iterate_lt (ok.home_lt (scheme.key a)) displacement
  have walked : displacement ≤ table.count := by
    rw [ok.count_eq]
    exact ok.cycle.le_count (ok.home_lt _) near before
  have stopped : scan table.next (fun i _ => scheme.key (table.slots i) == 0) (table.home scheme (scheme.key a))
      (table.mask + 1) (table.home scheme (scheme.key a)) 0 =
        .stopped (table.next^[displacement] (table.home scheme (scheme.key a))) displacement :=
    scan_stopped ok.cycle (ok.home_lt _) near (by simpa using isEmpty) (by simpa using before) near
  rw [Table.insert, stopped]
  generalize there : table.next^[displacement] (table.home scheme (scheme.key a)) = slot at *
  refine ⟨_, rfl, ?_, rfl, rfl, ?_⟩
  · refine { size := ok.size, placed := ?placed, unique := ?unique, count_eq := ?count_eq, short := ?short }
    case placed =>
      intro i small used
      by_cases here : i = slot
      · subst here
        simp only [update_self] at used ⊢
        refine ⟨displacement, ?_, there⟩
        split <;> omega
      · simp only [update_of_ne here] at used ⊢
        obtain ⟨old, _, path⟩ := ok.placed i small used
        refine ⟨old, ?_, path⟩
        split <;> omega
    case unique => exact unique_update scheme.key ok.unique fun _ j small same => absurd same (new j small)
    case count_eq =>
      have more : Probing.count (fun i => scheme.key (update table.slots slot a i) ≠ 0) (table.mask + 1) =
          Probing.count (fun i => scheme.key (table.slots i) ≠ 0) (table.mask + 1) + 1 := by
        refine count_add_one slotInRange (not_not.mpr isEmpty) (by simpa using valid) fun i _ other => ?_
        rw [update_of_ne other]
      simp only [more, ok.count_eq]
    case short =>
      have := ok.short
      simp only
      split <;> omega
  · exact stored_insert scheme.key ok.unique (Nat.le_of_lt_succ slotInRange) isEmpty valid

omit ok in
theorem insert_mask_count {a : α}
    (done : table.insert scheme a = some table') : table'.mask = table.mask ∧ table'.count = table.count + 1 := by
  simp only [Table.insert] at done
  split at done
  · cases done
    exact ⟨rfl, rfl⟩
  · cases done

/-! ## Removal and replacement -/

/-- **Emptying a slot removes its element.** -/
theorem Ok.clear {i : Nat} (inRange : i ≤ table.mask) (used : scheme.key (table.slots i) ≠ 0) :
    (table.clear scheme i).Ok scheme ∧ (table.clear scheme i).count + 1 = table.count ∧
      ∀ b, (table.clear scheme i).Has scheme b ↔ table.Has scheme b ∧ b ≠ table.slots i := by
  have emptied : ∀ {j}, scheme.key (update table.slots i scheme.empty j) ≠ 0 → j ≠ i := by
    rintro j stillUsed rfl
    simp only [update_self] at stillUsed
    exact stillUsed scheme.key_empty
  have less : Probing.count (fun j => scheme.key (table.slots j) ≠ 0) (table.mask + 1) =
      Probing.count (fun j => scheme.key (update table.slots i scheme.empty j) ≠ 0) (table.mask + 1) + 1 := by
    refine count_add_one (Nat.lt_succ_of_le inRange) (fun still => emptied still rfl) used fun j _ other => ?_
    rw [update_of_ne other]
  have counted := ok.count_eq
  refine ⟨{ size := ok.size, placed := ?_, unique := ?_, count_eq := ?_, short := ok.short }, ?_, fun b => ?_⟩
  · intro j small stillUsed
    have other := emptied stillUsed
    simp only [Table.clear, update_of_ne other] at stillUsed ⊢
    exact ok.placed j small stillUsed
  · exact unique_update scheme.key ok.unique (absurd scheme.key_empty)
  · show table.count - 1 = _
    rw [counted, less]
    exact Nat.add_sub_cancel _ 1
  · show table.count - 1 + 1 = table.count
    omega
  · exact (stored_update scheme.key ok.unique inRange b).trans (or_iff_right fun new => new.1 scheme.key_empty)

/-- **An element can be replaced by one with its key.** -/
theorem Ok.replace {i : Nat} {a : α} (inRange : i ≤ table.mask) (used : scheme.key (table.slots i) ≠ 0)
    (same : scheme.key a = scheme.key (table.slots i)) :
    let replaced := { table with slots := update table.slots i a }
    replaced.Ok scheme ∧ ∀ b, replaced.Has scheme b ↔ b = a ∨ table.Has scheme b ∧ b ≠ table.slots i := by
  have keys : ∀ j, scheme.key (update table.slots i a j) = scheme.key (table.slots j) := by
    intro j
    by_cases here : j = i
    · rw [here, update_self, same]
    · rw [update_of_ne here]
  refine ⟨{ size := ok.size, placed := ?_, unique := ?_, count_eq := ?_, short := ok.short }, fun b => ?_⟩
  · intro j small stillUsed
    simp only [keys] at stillUsed ⊢
    exact ok.placed j small stillUsed
  · intro j small j' small' stillUsed equal
    simp only [keys] at stillUsed equal
    exact ok.unique j small j' small' stillUsed equal
  · simp only [keys]
    exact ok.count_eq
  · exact (stored_update scheme.key ok.unique inRange b).trans (or_congr_left (and_iff_right (same ▸ used)))

/-! ## Rehashing -/

/-- Insert the elements of a list of slots. -/
def insertAll (scheme : Scheme α) : Table α → List α → Option (Table α)
  | table, [] => some table
  | table, a :: rest => if scheme.key a = 0 then insertAll scheme table rest
    else (table.insert scheme a).bind fun table => insertAll scheme table rest

/-- The elements in a list of slots. -/
def elements (scheme : Scheme α) (slots : List α) : List α := slots.filter fun a => scheme.key a ≠ 0

omit ok in
theorem insertAll_nothing {slots : List α} (nothing : elements scheme slots = []) : table.insertAll scheme slots = some table := by
  induction slots with
  | nil => rfl
  | cons a _ ih =>
    have empty : scheme.key a = 0 := by
      by_contra used
      simp [elements, used] at nothing
    rw [Table.insertAll, if_pos empty]
    exact ih (by simpa [elements, empty] using nothing)

omit ok in
/-- **Elements with different keys can be inserted one after the other.** -/
theorem Ok.insertAll (slots : List α) : ∀ {table : Table α}, table.Ok scheme → ((elements scheme slots).map scheme.key).Nodup →
    (∀ a ∈ elements scheme slots, ∀ i ≤ table.mask, scheme.key (table.slots i) ≠ scheme.key a) →
    table.count + (elements scheme slots).length ≤ table.mask →
    ∃ table', table.insertAll scheme slots = some table' ∧ table'.Ok scheme ∧ table'.mask = table.mask ∧
      table'.count = table.count + (elements scheme slots).length ∧
      ∀ b, table'.Has scheme b ↔ table.Has scheme b ∨ b ∈ elements scheme slots := by
  induction slots with
  | nil => exact fun {table} ok _ _ _ => ⟨table, rfl, ok, rfl, rfl, fun b => by simp [elements]⟩
  | cons a slots ih =>
    intro table ok distinct new room
    rw [Table.insertAll]
    by_cases empty : scheme.key a = 0
    · have same : elements scheme (a :: slots) = elements scheme slots := by simp [elements, empty]
      rw [same] at distinct new room ⊢
      rw [if_pos empty]
      exact ih ok distinct new room
    · have split : elements scheme (a :: slots) = a :: elements scheme slots := by simp [elements, empty]
      rw [split] at distinct new room ⊢
      rw [map_cons, nodup_cons] at distinct
      rw [length_cons] at room ⊢
      obtain ⟨table₁, inserted, ok₁, mask₁, _, has₁⟩ := ok.insert empty (new a mem_cons_self) (by omega)
      have new₁ : ∀ b ∈ elements scheme slots, ∀ i ≤ table₁.mask, scheme.key (table₁.slots i) ≠ scheme.key b := by
        intro b inRest i small same
        have used : scheme.key b ≠ 0 := by simpa [elements] using (mem_filter.mp inRest).2
        rcases (has₁ (table₁.slots i)).mp ⟨same ▸ used, i, small, rfl⟩ with ⟨_, j, small', old⟩ | here
        · exact new b (mem_cons_of_mem _ inRest) j small' (old ▸ same)
        · rw [here] at same
          exact distinct.1 (same ▸ mem_map_of_mem inRest)
      obtain ⟨table₂, done, ok₂, mask₂, _, has₂⟩ := ih ok₁ distinct.2 new₁ (by omega)
      rw [if_neg empty, inserted, Option.bind_some]
      refine ⟨table₂, done, ok₂, mask₂.trans mask₁, by omega, fun b => ?_⟩
      rw [has₂, has₁, mem_cons, or_assoc]

/-- The slots of a table, as a list. -/
def toList (table : Table α) : List α := (range (table.mask + 1)).map table.slots

omit ok in
theorem elements_toList (table : Table α) : elements scheme table.toList =
    ((range (table.mask + 1)).filter fun i => scheme.key (table.slots i) ≠ 0).map table.slots := by
  rw [elements, toList, filter_map]
  rfl

omit ok in
theorem mem_elements_toList (table : Table α) (b : α) : b ∈ elements scheme table.toList ↔ table.Has scheme b := by
  rw [elements_toList, mem_map]
  constructor
  · rintro ⟨i, inRange, rfl⟩
    obtain ⟨small, used⟩ := mem_filter.mp inRange
    exact ⟨by simpa using used, i, Nat.le_of_lt_succ (mem_range.mp small), rfl⟩
  · rintro ⟨used, i, small, rfl⟩
    exact ⟨i, mem_filter.mpr ⟨mem_range.mpr (Nat.lt_succ_of_le small), by simpa using used⟩, rfl⟩

theorem Ok.length_elements : (elements scheme table.toList).length = table.count := by
  rw [elements_toList, length_map, ok.count_eq]
  rfl

theorem Ok.count_le : table.count ≤ table.mask + 1 := by
  rw [← ok.length_elements]
  refine (length_filter_le _ _).trans ?_
  rw [toList, length_map, length_range]

theorem Ok.nodup_elements : ((elements scheme table.toList).map scheme.key).Nodup := by
  rw [elements_toList, map_map]
  refine List.Nodup.map_on ?_ ((nodup_range).filter _)
  intro i inRange j inRange' same
  obtain ⟨small, used⟩ := mem_filter.mp inRange
  obtain ⟨small', _⟩ := mem_filter.mp inRange'
  exact ok.unique i (Nat.le_of_lt_succ (mem_range.mp small)) j (Nat.le_of_lt_succ (mem_range.mp small'))
    (by simpa using used) same

/-- **A table can be moved to another size that has room for its elements.** -/
theorem Ok.rehash {mask n : Nat} (size : mask + 1 = 2 ^ n) (positive : 0 < mask) (room : table.count ≤ mask)
    : ∃ table', (vacant scheme mask).insertAll scheme table.toList = some table' ∧ table'.Ok scheme ∧
      table'.mask = mask ∧ table'.count = table.count ∧ ∀ b, table'.Has scheme b ↔ table.Has scheme b := by
  have empty : ∀ a ∈ elements scheme table.toList, ∀ i ≤ (vacant scheme mask).mask,
      scheme.key ((vacant scheme mask).slots i) ≠ scheme.key a := by
    intro a inTable i _ same
    exact ((mem_elements_toList table a).mp inTable).1 (same ▸ scheme.key_empty)
  have length := ok.length_elements
  obtain ⟨table', done, ok', mask', count', has'⟩ := (vacant_ok scheme size positive).insertAll _ ok.nodup_elements empty
    (by rw [length]; exact (Nat.zero_add _).trans_le room)
  refine ⟨table', done, ok', mask', ?_, fun b => ?_⟩
  · rw [count', length]
    exact Nat.zero_add _
  · rw [has', mem_elements_toList]
    exact or_iff_right (vacant_has b)

end Table

end DarwinNotes.Lib.HashTable
