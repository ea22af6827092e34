import DarwinNotes.Objc.MapTable.Growth

/-!
# `NXMapRemove`

The pairs from the bucket of the key up to the next empty bucket are counted, taken
out, and inserted again without the one that is removed.
-/

namespace DarwinNotes.Objc.MapTable
open Lib.Probing Lib.OpenAddressing Function List

variable {proto : Prototype} {table : Table} {n : Nat}

/-- The pairs of `nb` buckets in a row. -/
def cluster (table : Table) (index nb : Nat) : List MapPair := (range nb).map fun m => table.buckets (table.nextIndex^[m] index)

theorem cluster_succ (table : Table) (index nb : Nat) :
    cluster table index (nb + 1) = table.buckets index :: cluster table (table.nextIndex index) nb := by
  simp only [cluster, range_succ_eq_map, map_cons, map_map, iterate_zero, id]
  rfl

/-! ## Counting the chain -/

/-- The chain is one pair longer. -/
def Chain.step (proto : Prototype) (key : Nat) (self : Chain) (pair : MapPair) : Chain :=
  { self.meet proto key pair with chain := self.chain + 1 }

theorem Chain.meet_chain (self : Chain) (key : Nat) (pair : MapPair) : (self.meet proto key pair).chain = self.chain := by
  unfold Chain.meet
  split <;> rfl

/-- The loop goes through the buckets up to the first empty one. -/
theorem chainLoop_eq {key index : Nat} (nb : Nat) {index2 fuel : Nat} (self : Chain) (enough : nb ≤ fuel)
    (inUse : ∀ m < nb, slots table (table.nextIndex^[m + 1] index2) ≠ none)
    (apart : ∀ m < nb, table.nextIndex^[m + 1] index2 ≠ index)
    (empty : slots table (table.nextIndex^[nb + 1] index2) = none) : chainLoop proto table key index fuel index2 self =
      (cluster table (table.nextIndex index2) nb).foldl (Chain.step proto key) self := by
  induction nb generalizing index2 fuel self with
  | zero =>
    cases fuel with
    | zero => rfl
    | succ =>
      have stop := slots_eq_none.mp empty
      simp only [iterate_succ_apply, iterate_zero, id] at stop
      rw [chainLoop]
      rw [if_pos stop, ite_self]
      rfl
  | succ nb ih =>
    obtain ⟨fuel, rfl⟩ := Nat.exists_eq_succ_of_ne_zero (Nat.ne_zero_of_lt enough)
    have used := mt slots_eq_none.mpr (inUse 0 (Nat.succ_pos nb))
    have away := apart 0 (Nat.succ_pos nb)
    simp only [iterate_succ_apply, iterate_zero, id] at used away
    rw [cluster_succ, foldl_cons, chainLoop]
    dsimp only
    rw [if_neg away, if_neg used, Chain.meet_chain]
    exact ih _ (Nat.le_of_succ_le_succ enough) (fun m less => inUse (m + 1) (Nat.succ_lt_succ less))
      (fun m less => apart (m + 1) (Nat.succ_lt_succ less)) empty

theorem foldl_step (key : Nat) (pairs : List MapPair) (self : Chain) : pairs.foldl (Chain.step proto key) self =
      { chain := self.chain + pairs.length
        found := self.found + (pairs.filter fun pair => isEqual proto pair.key key).length
        old := ((pairs.filter fun pair => isEqual proto pair.key key).getLast?.map MapPair.value).getD self.old } := by
  induction pairs generalizing self with
  | nil => rfl
  | cons pair rest ih =>
    rw [foldl_cons, ih]
    by_cases equal : isEqual proto pair.key key = true
    · cases (rest.filter fun pair => isEqual proto pair.key key).eq_nil_or_concat' with
      | inl none => simp [Chain.step, Chain.meet, equal, none]; omega
      | inr some_ =>
        obtain ⟨_, _, shape⟩ := some_
        simp [Chain.step, Chain.meet, equal, shape, getLast?_cons]
        omega
    · simp [Chain.step, Chain.meet, equal]
      omega

/-! ## Taking the pairs out -/

/-- The table with `nb` buckets emptied. -/
def wipe (table : Table) (index nb : Nat) : Table :=
  { table with buckets := fun i => if ∃ m < nb, table.nextIndex^[m] index = i then ⟨notAKey, 0⟩ else table.buckets i }

theorem slots_wipe (table : Table) (index nb count : Nat) :
    slots { wipe table index nb with count } = clear table.nextIndex index nb (slots table) := by
  funext i
  unfold slots wipe clear
  split <;> split <;> simp_all

theorem wipe_succ (table : Table) (index nb : Nat) :
    wipe { table with buckets := update table.buckets index ⟨notAKey, 0⟩ } (table.nextIndex index) nb = wipe table index (nb + 1) := by
  unfold wipe
  congr 1
  funext i
  have split_ : (∃ m < nb + 1, table.nextIndex^[m] index = i) ↔ i = index ∨ ∃ m < nb, table.nextIndex^[m] (table.nextIndex index) = i := by
    constructor
    · rintro ⟨m, less, there⟩
      cases m with
      | zero => exact .inl there.symm
      | succ m => exact .inr ⟨m, Nat.lt_of_succ_lt_succ less, there⟩
    · rintro (rfl | ⟨m, less, there⟩)
      · exact ⟨0, Nat.succ_pos nb, rfl⟩
      · exact ⟨m + 1, Nat.succ_lt_succ less, there⟩
  show (if ∃ m < nb, table.nextIndex^[m] (table.nextIndex index) = i then _ else update _ _ _ i) = _
  simp only [split_]
  by_cases here : i = index
  · subst here
    simp
  · simp [here]

theorem cluster_update {cap : Nat} (cycle : Cycle table.nextIndex cap) {index nb : Nat} (inRange : index < cap)
    (short : nb < cap) (pair : MapPair) : cluster { table with buckets := update table.buckets index pair } (table.nextIndex index) nb =
      cluster table (table.nextIndex index) nb := by
  refine map_congr_left fun m less => update_of_ne ?_ _ _
  intro back
  have := cycle.le_period inRange (Nat.succ_pos m) back
  have := mem_range.mp less
  omega

/-- The loop empties the buckets and keeps the pairs with other keys. -/
theorem pullOut_eq (table : Table) {cap : Nat} (cycle : Cycle table.nextIndex cap) {key index nb : Nat} (inRange : index < cap)
    (short : nb ≤ cap) (aux : List MapPair) : pullOut proto key nb index table aux =
      (wipe table index nb, aux ++ (cluster table index nb).filter fun pair => !isEqual proto pair.key key) := by
  induction nb generalizing index table aux with
  | zero => simp [pullOut, wipe, cluster]
  | succ _ ih =>
    have := ih { table with buckets := update table.buckets index ⟨notAKey, 0⟩ } cycle
      (cycle.closed index inRange) (by omega)
    refine (this _).trans ?_
    rw [wipe_succ, cluster_update cycle inRange (by omega), cluster_succ, filter_cons]
    split <;> simp

/-! ## The chain of a key -/

theorem u32_sub {a b c : Nat} (sum : a + b = c) (small : c ≤ 2 ^ 31) : u32 (c + 2 ^ 32 - b) = a := by
  unfold u32
  omega

/-- The buckets in use from the one of the key on. -/
abbrev Stretch (proto : Prototype) (table : Table) (n key c : Nat) : Prop :=
  Ends table.nextIndex (2 ^ n) (slots table) (fun _ => False) (table.bucketOf proto key) c

section Stretch

variable {key c : Nat} (stretch : Stretch proto table n key c)
include stretch

theorem stretch_empty : slots table (table.nextIndex^[c] (table.bucketOf proto key)) = none :=
  Option.eq_none_iff_forall_ne_some.mpr stretch.stops

theorem stretch_used {m : Nat} (less : m < c) : slots table (table.nextIndex^[m] (table.bucketOf proto key)) =
      some (table.buckets (table.nextIndex^[m] (table.bucketOf proto key))) := by
  obtain ⟨_, used, -⟩ := stretch.passed m less
  rw [used, (slots_eq_some.mp used).1]

theorem stretch_ne_none (m : Nat) (less : m < c) : slots table (table.nextIndex^[m] (table.bucketOf proto key)) ≠ none := by
  rw [stretch_used stretch less]
  exact Option.some_ne_none _

variable (core : Core proto table n)
include core

theorem has_of_mem_cluster {pair : MapPair}
    (mem : pair ∈ cluster table (table.bucketOf proto key) c) : Has table pair := by
  obtain ⟨m, less, rfl⟩ := mem_map.mp mem
  exact (core.has_iff _).mpr
    ⟨_, core.cycle.iterate_lt (core.bucketOf_lt key) m, stretch_used stretch (mem_range.mp less)⟩

theorem pairwise_cluster :
    (cluster table (table.bucketOf proto key) c).Pairwise fun a b => isEqual proto a.key b.key ≠ true := by
  refine pairwise_map.mpr (pairwise_lt_range.imp_of_mem fun {m k} less less' before equal => ?_)
  have less := mem_range.mp less
  have less' := mem_range.mp less'
  have inTable := core.cycle.iterate_lt (core.bucketOf_lt key)
  have same := core.ok.unique _ (inTable m) _ (inTable k) _ _ (stretch_used stretch less) (stretch_used stretch less') equal
  exact before.ne (core.cycle.iterate_inj (core.bucketOf_lt key) before.le (less'.trans stretch.short) same)

/-- At most one pair of the chain has the key: the one a lookup finds. -/
theorem filter_cluster (lawful : Lawful proto) (sparse : Sparse table n) :
    (cluster table (table.bucketOf proto key) c).filter (fun pair => isEqual proto pair.key key) =
      (nxMapMember proto table key).toList := by
  have distinct := (pairwise_cluster stretch core).filter fun pair => isEqual proto pair.key key
  have member := core.nxMapMember_iff lawful sparse key
  match here : (cluster table (table.bucketOf proto key) c).filter fun pair => isEqual proto pair.key key with
  | [] =>
    have found : Found proto table n key c := by
      refine ⟨stretch.short, fun pair used => (stretch.stops pair used).elim, fun m less => ⟨_, stretch_used stretch less, ?_⟩⟩
      exact filter_eq_nil_iff.mp here _ (mem_map.mpr ⟨m, mem_range.mpr less, rfl⟩)
    rw [here, core.nxMapMember_eq found, stretch_empty stretch]
    rfl
  | [pair] =>
    obtain ⟨mem, equal⟩ := mem_filter.mp (here ▸ mem_singleton_self pair)
    rw [here, (member pair).mpr ⟨has_of_mem_cluster stretch core mem, equal⟩]
    rfl
  | first :: second :: rest =>
    rw [here] at distinct
    have equal : ∀ pair ∈ first :: second :: rest, isEqual proto pair.key key = true := by
      intro pair mem
      rw [← here] at mem
      exact (mem_filter.mp mem).2
    exact absurd (lawful.isEqual_trans (equal first (by simp)) (lawful.isEqual_symm (equal second (by simp))))
      ((pairwise_cons.mp distinct).1 second (by simp))

theorem counted_eq (lawful : Lawful proto) (sparse : Sparse table n) (some_ : c ≠ 0) :
    chainLoop proto table key (table.bucketOf proto key) table.nbBucketsMinusOne (table.bucketOf proto key)
      (({ chain := 1, found := 0, old := 0 } : Chain).meet proto key (table.buckets (table.bucketOf proto key))) =
      { chain := c
        found := (nxMapMember proto table key).toList.length
        old := ((nxMapMember proto table key).map MapPair.value).getD 0 } := by
  obtain ⟨c, rfl⟩ := Nat.exists_eq_succ_of_ne_zero some_
  have short := stretch.short
  have size := core.size_add_one
  have first : ({ chain := 1, found := 0, old := 0 } : Chain).meet proto key (table.buckets (table.bucketOf proto key)) =
      Chain.step proto key { chain := 0, found := 0, old := 0 } (table.buckets (table.bucketOf proto key)) := by
    unfold Chain.step Chain.meet
    split <;> rfl
  rw [chainLoop_eq c _ (by omega) (fun m less => stretch_ne_none stretch _ (Nat.succ_lt_succ less)) (fun m less back => ?apart) (stretch_empty stretch), first,
    ← foldl_cons, ← cluster_succ, foldl_step, filter_cluster stretch core lawful sparse]
  case apart =>
    have := core.cycle.le_period (core.bucketOf_lt key) (Nat.succ_pos m) back
    omega
  simp only [Nat.zero_add, cluster, length_map, length_range]
  cases nxMapMember proto table key <;> rfl

theorem core_wipe : ∃ count, u32 (table.count + 2 ^ 32 - c) = count ∧ count + c = table.count ∧
      Core proto { wipe table (table.bucketOf proto key) c with count } n := by
  have shrunk := used_clear core.cycle (core.bucketOf_lt key) stretch.short (stretch_ne_none stretch)
  rw [← core.counted] at shrunk
  have bound : table.count ≤ 2 ^ n := by
    rw [core.counted]
    exact (Finset.card_filter_le _ _).trans (Finset.card_range _).le
  refine ⟨_, u32_sub shrunk (bound.trans core.pow_le), shrunk, core.size, core.exponent, ?_, ?_, core.quiet⟩
  · rw [slots_wipe]
    exact core.ok.clear (stretch_empty stretch)
  · rw [slots_wipe]

theorem has_wipe (lawful : Lawful proto) (count : Nat) (pair : MapPair) :
    Has { wipe table (table.bucketOf proto key) c with count } pair ↔
      Has table pair ∧ pair ∉ cluster table (table.bucketOf proto key) c := by
  have inTable := core.cycle.iterate_lt (core.bucketOf_lt key)
  unfold Has
  rw [slots_wipe]
  show (∃ i ≤ table.nbBucketsMinusOne, _) ↔ (∃ i ≤ table.nbBucketsMinusOne, _) ∧ _
  simp only [← Nat.lt_add_one_iff, core.size_add_one, clear]
  constructor
  · rintro ⟨i, inRange, used⟩
    split at used
    next => cases used
    next outside =>
      refine ⟨⟨i, inRange, used⟩, fun mem => ?_⟩
      obtain ⟨m, less, rfl⟩ := mem_map.mp mem
      have less := mem_range.mp less
      exact outside ⟨m, less, core.ok.unique _ (inTable m) i inRange _ _ (stretch_used stretch less) used
        (lawful.isEqual_refl _)⟩
  · rintro ⟨⟨i, inRange, used⟩, apart⟩
    refine ⟨i, inRange, (if_neg ?_).trans used⟩
    rintro ⟨m, less, rfl⟩
    exact apart (mem_map.mpr ⟨m, mem_range.mpr less, (slots_eq_some.mp used).1⟩)

/-- The other pairs of the chain are new to the table without it. -/
theorem fresh_rest (lawful : Lawful proto) (count : Nat) :
    Fresh proto { wipe table (table.bucketOf proto key) c with count }
      ((cluster table (table.bucketOf proto key) c).filter fun pair => !isEqual proto pair.key key).reverse := by
  refine ⟨fun pair mem => ?_, ?_, fun pair mem other has equal => ?_⟩
  · have mem := (mem_filter.mp (mem_reverse.mp mem)).1
    exact (has_of_mem_cluster stretch core mem).valid
  · refine pairwise_reverse.mpr (((pairwise_cluster stretch core).filter _).imp fun apart equal => apart ?_)
    exact lawful.isEqual_symm equal
  · have mem := (mem_filter.mp (mem_reverse.mp mem)).1
    obtain ⟨has, outside⟩ := (has_wipe stretch core lawful count other).mp has
    rw [core.has_unique has (has_of_mem_cluster stretch core mem) equal] at outside
    exact outside mem

end Stretch

/-- **`NXMapRemove`**: the pair of the key is gone; the other pairs are as before. -/
theorem Good.remove (lawful : Lawful proto) (good : Good proto table n) (key : Nat) :
    ∃ table', Good proto table' n ∧ (∀ pair, Has table' pair ↔ Has table pair ∧ isEqual proto pair.key key ≠ true) ∧
      ∀ depth, nxMapRemove proto (depth + 1) table key = some (table', ((nxMapMember proto table key).map MapPair.value).getD 0) := by
  have core := good.core
  have member := core.nxMapMember_iff lawful good.sparse key
  have few := good.sparse.count_lt
  rw [core.counted] at few
  obtain ⟨_, inTable, unused⟩ := exists_not_of_count_lt few
  obtain ⟨c, stretch⟩ : ∃ c, Stretch proto table n key c := exists_ends core.cycle _ (core.bucketOf_lt key) inTable (by simpa using unused)
  have filtered := filter_cluster stretch core lawful good.sparse
  cases known : nxMapMember proto table key with
  | none =>
    refine ⟨table, good, fun pair => (and_iff_left_of_imp fun has equal => ?_).symm, fun depth => ?_⟩
    · have := (member pair).mpr ⟨has, equal⟩
      rw [known] at this
      cases this
    rw [nxMapRemove]
    dsimp only
    split
    next => rfl
    next used =>
      have some_ : c ≠ 0 := by
        rintro rfl
        exact used (slots_eq_none.mp (stretch_empty stretch))
      rw [counted_eq stretch core lawful good.sparse some_, known]
      rfl
  | some old =>
    rw [known] at filtered
    have isOld : old ∈ (cluster table (table.bucketOf proto key) c).filter fun pair => isEqual proto pair.key key := by
      rw [filtered]
      exact mem_singleton_self old
    obtain ⟨isOld, hasKey⟩ := mem_filter.mp isOld
    have some_ : c ≠ 0 := by
      rintro rfl
      cases isOld
    obtain ⟨count, lessened, _, wiped⟩ := core_wipe stretch core
    -- the pairs that are inserted again
    have length : ((cluster table (table.bucketOf proto key) c).filter fun pair => !isEqual proto pair.key key).length = c - 1 := by
      have parts := length_eq_length_filter_add (l := cluster table (table.bucketOf proto key) c)
        fun pair => isEqual proto pair.key key
      rw [filtered] at parts
      simp only [cluster, length_map, length_range, Option.toList_some, length_singleton] at parts ⊢
      omega
    have isRest : ∀ pair, pair ∈ ((cluster table (table.bucketOf proto key) c).filter fun pair => !isEqual proto pair.key key).reverse ↔
        pair ∈ cluster table (table.bucketOf proto key) c ∧ isEqual proto pair.key key ≠ true := by
      simp
    obtain ⟨filled, core', count', has, all⟩ := wiped.insertAll lawful (fresh_rest stretch core lawful count)
      (by rw [length_reverse, length]; have := good.sparse; unfold Sparse at this; dsimp only; omega)
    rw [length_reverse, length] at count'
    refine ⟨filled, ⟨core', ?_, good.small⟩, fun pair => ?_, fun depth => ?_⟩
    · have := good.sparse
      unfold Sparse at this ⊢
      dsimp only at count'
      omega
    · rw [has, isRest, has_wipe stretch core lawful]
      constructor
      · rintro (⟨has, apart⟩ | ⟨mem, other⟩)
        · refine ⟨has, fun equal => apart ?_⟩
          rw [core.has_unique has (has_of_mem_cluster stretch core isOld)
            (lawful.isEqual_trans equal (lawful.isEqual_symm hasKey))]
          exact isOld
        · exact ⟨has_of_mem_cluster stretch core mem, other⟩
      · rintro ⟨has, other⟩
        by_cases mem : pair ∈ cluster table (table.bucketOf proto key) c
        · exact .inr ⟨mem, other⟩
        · exact .inl ⟨has, mem⟩
    · have used : (table.buckets (table.bucketOf proto key)).key ≠ notAKey :=
        mt slots_eq_none.mpr (stretch_ne_none stretch 0 (Nat.pos_of_ne_zero some_))
      rw [nxMapRemove]
      dsimp only
      rw [if_neg used, counted_eq stretch core lawful good.sparse some_, known]
      simp only [Option.toList_some, length_singleton, one_ne_zero, if_false, removeThenReinsert, ne_eq,
        not_true_eq_false, pullOut_eq table core.cycle (core.bucketOf_lt key) stretch.short.le, nil_append, length]
      have before : (wipe table (table.bucketOf proto key) c).count = table.count := rfl
      rw [before, lessened]
      exact congrArg (fun filled => filled >>= fun table => some (table, old.value)) (all depth)

end DarwinNotes.Objc.MapTable
