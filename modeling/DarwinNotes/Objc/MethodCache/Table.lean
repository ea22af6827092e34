import DarwinNotes.Objc.MethodCache.Model

/-!
# The method cache is a hash table

What `insert` and `cache_erase_nolock` keep of a cache. A cache is either vacant,
pointing to a shared block of zeroes, or live: each selector is at the first slot
of its probe sequence that was free when it came, three quarters of the slots at
most are in use, and the slot of the end marker holds it.
-/

namespace DarwinNotes.Objc.MethodCache
open Lib.Probing Function List

/-! ## Sizes, hashes and the probe order -/

/-- The capacities of caches that are not empty. -/
def Sized (capacity : Nat) : Prop := ∃ k, 2 ≤ k ∧ k ≤ 16 ∧ capacity = 2 ^ k

theorem Sized.four_le {capacity : Nat} (sized : Sized capacity) : 4 ≤ capacity := by
  obtain ⟨k, low, _, rfl⟩ := sized
  exact Nat.pow_le_pow_right (by decide : 0 < 2) low

theorem Sized.le_max {capacity : Nat} (sized : Sized capacity) : capacity ≤ maxCacheSize := by
  obtain ⟨k, _, high, rfl⟩ := sized
  exact Nat.pow_le_pow_right (by decide) high

theorem sized_init : Sized initCacheSize := ⟨2, le_rfl, by decide, rfl⟩

theorem sized_max : Sized maxCacheSize := ⟨16, by decide, le_rfl, rfl⟩

theorem Sized.double {capacity : Nat} (sized : Sized capacity) :
    Sized (if maxCacheSize < capacity * 2 then maxCacheSize else capacity * 2) := by
  obtain ⟨k, _, _, rfl⟩ := sized
  split
  · exact sized_max
  · rename_i fits
    refine ⟨k + 1, by omega, ?_, rfl⟩
    exact (Nat.pow_le_pow_iff_right (by decide : 1 < 2)).mp (Nat.le_of_not_lt fits)

/-- Three quarters of the slots are not all. -/
theorem Sized.three_quarters {capacity : Nat} (sized : Sized capacity) : capacity / 4 * 3 < capacity := by
  have := sized.four_le
  omega

theorem cacheHash_eq {capacity : Nat} (sized : Sized capacity) (sel : Nat) : cacheHash sel (capacity - 1) = sel % capacity := by
  obtain ⟨k, _, _, rfl⟩ := sized
  rw [cacheHash, Nat.and_two_pow_sub_one_eq_mod]
  exact Nat.mod_mod_of_dvd _ (Nat.pow_dvd_pow 2 (by omega))

theorem cacheHash_lt {capacity : Nat} (sized : Sized capacity) (sel : Nat) : cacheHash sel (capacity - 1) < capacity := by
  rw [cacheHash_eq sized]
  exact Nat.mod_lt _ (by have := sized.four_le; omega)

theorem cacheNext_x86_64 {capacity : Nat} (sized : Sized capacity) (i : Nat) : cacheNext .x86_64 (capacity - 1) i = (i + 1) % capacity := by
  obtain ⟨k, _, _, rfl⟩ := sized
  exact Nat.and_two_pow_sub_one_eq_mod _ _

variable (arch : Arch)

/-- `cache_next` visits every slot. -/
theorem cacheNext_cycle {capacity : Nat} (sized : Sized capacity) : Cycle (cacheNext arch (capacity - 1)) capacity := by
  cases arch with
  | x86_64 =>
    have upwards := funext (cacheNext_x86_64 sized)
    rw [upwards]
    exact cycle_up capacity
  | arm64 =>
    obtain ⟨last, rfl⟩ := Nat.exists_eq_succ_of_ne_zero (by have := sized.four_le; omega : capacity ≠ 0)
    exact cycle_down last

/-! ## Storage -/

theorem bucketsMask_eq : bucketsMask = 2 ^ 44 - 1 := rfl

theorem setBucketsAndMask_eq {buckets mask : Nat} (small : buckets < 2 ^ 44) :
    (arch.setBucketsAndMask buckets mask).buckets = buckets ∧ (arch.setBucketsAndMask buckets mask).mask = mask := by
  cases arch with
  | x86_64 => exact ⟨rfl, rfl⟩
  | arm64 =>
    have packed : (mask <<< 48) ||| buckets = mask <<< 48 + buckets := (Nat.shiftLeft_add_eq_or_of_lt (by omega) mask).symm
    rw [Arch.setBucketsAndMask, maskShift, packed, Storage.buckets, bucketsMask_eq, Nat.and_two_pow_sub_one_eq_mod, Storage.mask,
      maskShift, Nat.shiftRight_eq_div_pow, Nat.shiftLeft_eq]
    omega

/-! ## The state of a cache -/

/-- What a method can be called: 0 is an unused slot, 1 the end marker. -/
def Real (sel : Nat) : Prop := sel ≠ 0 ∧ sel ≠ 1

instance (sel : Nat) : Decidable (Real sel) := inferInstanceAs (Decidable (_ ∧ _))

/-- A slot that ends the probe sequence of a selector. -/
def Stops (cache : Cache) (sel i : Nat) : Prop := (cache.bucket i).sel = 0 ∨ (cache.bucket i).sel = sel

instance (cache : Cache) (sel i : Nat) : Decidable (Stops cache sel i) := inferInstanceAs (Decidable (_ ∨ _))

/-- The slots from `i` on: the first to stop the probe sequence comes after `k` moves. -/
structure EndsFrom (next : Nat → Nat) (cache : Cache) (sel i k : Nat) : Prop where
  stops : Stops cache sel (next^[k] i)
  before : ∀ m < k, ¬ Stops cache sel (next^[m] i)

theorem EndsFrom.unique {next : Nat → Nat} {cache : Cache} {sel i k l : Nat} (ends : EndsFrom next cache sel i k)
    (ends' : EndsFrom next cache sel i l) : k = l := by
  rcases Nat.lt_trichotomy k l with first | same | second
  · exact absurd ends.stops (ends'.before k first)
  · exact same
  · exact absurd ends'.stops (ends.before l second)

variable (process : Process)

/-- The slots that are probed for a selector. -/
abbrev probe (capacity sel k : Nat) : Nat := (cacheNext process.arch (capacity - 1))^[k] (cacheHash sel (capacity - 1))

/-- The slot where the probe sequence of a selector ends, after `k` moves. -/
structure EndsAt (cache : Cache) (capacity sel k : Nat) : Prop
    extends EndsFrom (cacheNext process.arch (capacity - 1)) cache sel (cacheHash sel (capacity - 1)) k where
  lt : k < capacity

/-- A block of its own at `base`, with the insertions that went into it. -/
structure Live (cache : Cache) (base capacity : Nat) (log : List (Nat × Nat)) : Prop where
  sized : Sized capacity
  stored : cache.storage = process.arch.setBucketsAndMask base (capacity - 1)
  base_lt : base < 2 ^ 44
  used : count (fun i => (cache.bucket i).sel ≠ 0) capacity = cache.occupied + process.arch.cacheEndMarker
  threeQuarters : cache.occupied + process.arch.cacheEndMarker ≤ capacity / 4 * 3
  marker : process.arch = .x86_64 → cache.bucket (capacity - 1) = ⟨1, base⟩
  reserved : ∀ i < capacity, (cache.bucket i).sel = 1 → process.arch = .x86_64 ∧ i = capacity - 1
  /-- a selector is behind used slots with other selectors -/
  placed : ∀ j < capacity, Real (cache.bucket j).sel →
    ∃ k, EndsAt process cache capacity (cache.bucket j).sel k ∧ probe process capacity (cache.bucket j).sel k = j
  absent : ∀ sel, Real sel → log.lookup sel = none → ∀ j < capacity, (cache.bucket j).sel ≠ sel
  present : ∀ sel imp, Real sel → log.lookup sel = some imp → ∃ j < capacity, cache.bucket j = ⟨sel, imp ^^^ process.cls⟩
  started : log ≠ [] → 0 < cache.occupied

/-- A shared block. -/
structure Vacant (state : State) (capacity : Nat) (log : List (Nat × Nat)) : Prop where
  sized : capacity = 0 ∨ Sized capacity
  stored : state.cache.storage = process.arch.setBucketsAndMask
    (emptyBucketsForCapacity process state.emptyBucketsList capacity none).1 (capacity - 1)
  allocated : 0 < (emptyBucketsForCapacity process state.emptyBucketsList capacity none).1
  occupied : state.cache.occupied = 0
  zeroes : state.cache.bucket = zeroes
  log : log = []

/-- The address of a block that is not shared. -/
structure Own (state : State) (base : Nat) : Prop where
  pos : 0 < base
  ne_empty : base ≠ process.emptyCache
  ne_shared : base ∉ state.emptyBucketsList

structure Table (traced : Traced) : Prop where
  shared : ∀ address ∈ traced.state.emptyBucketsList, 0 < address ∧ address < 2 ^ 44
  block : (∃ capacity, Vacant process traced.state capacity traced.log) ∨
    ∃ base capacity, Own process traced.state base ∧ Live process traced.state.cache base capacity traced.log

variable {process}

theorem capacity_eq {cache : Cache} {base capacity : Nat} (small : base < 2 ^ 44)
    (stored : cache.storage = process.arch.setBucketsAndMask base (capacity - 1))
    (sized : capacity = 0 ∨ Sized capacity) : cache.capacity = capacity := by
  rw [Cache.capacity, stored, (setBucketsAndMask_eq _ small).2]
  rcases sized with rfl | sized
  · rfl
  · have := sized.four_le
    rw [if_neg (by omega)]
    omega

/-! ## The shared blocks -/

theorem emptyBucketsForCapacity_none (list : List Nat) (capacity : Nat) :
    let address := (emptyBucketsForCapacity process list capacity none).1
    address = process.emptyCache ∨ address = 0 ∨ address ∈ list := by
  simp only [emptyBucketsForCapacity]
  split
  · exact Or.inl rfl
  · split
    · exact Or.inr (Or.inl rfl)
    · rename_i known
      rw [getD_eq_getElem _ _ (Nat.lt_of_not_le known)]
      exact Or.inr (Or.inr (getElem_mem _))

theorem Own.ne_emptyBuckets {state : State} {base : Nat} (own : Own process state base) (capacity : Nat) :
    base ≠ (emptyBucketsForCapacity process state.emptyBucketsList capacity none).1 := by
  intro same
  rcases @emptyBucketsForCapacity_none process state.emptyBucketsList capacity with empty | nil | shared
  · exact own.ne_empty (same.trans empty)
  · exact own.pos.ne' (same.trans nil)
  · exact own.ne_shared (same ▸ shared)

/-- The list only grows at its end, by the new block. -/
theorem emptyBucketsForCapacity_list (list : List Nat) (capacity newBuckets : Nat) :
    ∃ n, (emptyBucketsForCapacity process list capacity (some newBuckets)).2 = list ++ replicate n newBuckets := by
  simp only [emptyBucketsForCapacity]
  split
  · exact ⟨0, by simp⟩
  · split
    · exact ⟨_, rfl⟩
    · exact ⟨0, by simp⟩

variable {list : List Nat}

/-- A shared block that exists stays the one for its capacity. -/
theorem emptyBucketsForCapacity_append (more : List Nat) {capacity : Nat}
    (known : 0 < (emptyBucketsForCapacity process list capacity none).1) :
    (emptyBucketsForCapacity process (list ++ more) capacity none).1 = (emptyBucketsForCapacity process list capacity none).1 := by
  simp only [emptyBucketsForCapacity] at known ⊢
  split
  · rfl
  rename_i large
  rw [if_neg large] at known
  by_cases short : list.length ≤ capacity.log2
  · simp [short] at known
  · have inList := Nat.lt_of_not_le short
    have longer : ¬ (list ++ more).length ≤ capacity.log2 := by
      rw [length_append]
      omega
    rw [if_neg longer, if_neg short, getD_append _ _ _ _ inList]

/-- The block of an erased cache is the one that `isConstantEmptyCache` compares with. -/
theorem emptyBucketsForCapacity_some (list : List Nat) (capacity newBuckets : Nat) :
    let made := emptyBucketsForCapacity process list capacity (some newBuckets)
    made.1 = (emptyBucketsForCapacity process made.2 capacity none).1 := by
  simp only [emptyBucketsForCapacity]
  split
  · rfl
  · split
    · rename_i short
      have length : (list ++ replicate (capacity.log2 + 1 - list.length) newBuckets).length = capacity.log2 + 1 := by
        rw [length_append, length_replicate]
        omega
      rw [length, if_neg (by omega), getD_append_right _ _ _ _ short, getD_replicate _ (by omega)]
    · rfl

variable (shared : ∀ address ∈ list, 0 < address ∧ address < 2 ^ 44)
include shared

theorem emptyBucketsForCapacity_lt (capacity : Nat)
    : (emptyBucketsForCapacity process list capacity none).1 < 2 ^ 44 := by
  rcases @emptyBucketsForCapacity_none process list capacity with empty | nil | known
  · rw [empty]
    exact process.emptyCache_lt
  · rw [nil]
    decide
  · exact (shared _ known).2

theorem emptyBucketsForCapacity_pos (capacity : Nat) {newBuckets : Nat}
    (pos : 0 < newBuckets) : 0 < (emptyBucketsForCapacity process list capacity (some newBuckets)).1 := by
  simp only [emptyBucketsForCapacity]
  split
  · exact process.emptyCache_pos
  · split
    · exact pos
    · rename_i known
      rw [getD_eq_getElem _ _ (Nat.lt_of_not_le known)]
      exact (shared _ (getElem_mem _)).1

omit shared

/-! ## Live blocks -/

section Live

variable {cache : Cache} {base capacity : Nat} {log : List (Nat × Nat)}

section

variable (live : Live process cache base capacity log)
include live

theorem Live.capacity_eq : cache.capacity = capacity := MethodCache.capacity_eq live.base_lt live.stored (Or.inr live.sized)

theorem Live.buckets_eq : cache.storage.buckets = base := by rw [live.stored, (setBucketsAndMask_eq _ live.base_lt).1]

theorem Live.exists_empty : ∃ i < capacity, (cache.bucket i).sel = 0 := by
  have few : count (fun i => (cache.bucket i).sel ≠ 0) capacity < capacity := by
    rw [live.used]
    exact live.threeQuarters.trans_lt live.sized.three_quarters
  obtain ⟨i, inRange, empty⟩ := exists_not_of_count_lt few
  exact ⟨i, inRange, not_not.mp empty⟩

/-- The slots in use are those of selectors, and the marker's. -/
theorem Live.occupied_eq : cache.occupied = count (fun i => Real (cache.bucket i).sel) capacity := by
  have used := live.used
  have positive := live.sized.four_le
  cases target : process.arch with
  | x86_64 =>
    have marker := live.marker target
    have withMarker : count (fun i => (cache.bucket i).sel ≠ 0) capacity = count (fun i => Real (cache.bucket i).sel) capacity + 1 := by
      refine count_add_one (j := capacity - 1) (by omega) ?_ ?_ ?_
      · simp [marker, Real]
      · simp [marker]
      · intro i inRange other
        exact ⟨fun used => ⟨used, fun reserved => other (live.reserved i inRange reserved).2⟩, fun real => real.1⟩
    simp only [target, Arch.cacheEndMarker] at used
    omega
  | arm64 =>
    have noMarker : ∀ i < capacity, (cache.bucket i).sel ≠ 1 := by
      intro i inRange reserved
      exact nomatch target.symm.trans (live.reserved i inRange reserved).1
    have same : count (fun i => (cache.bucket i).sel ≠ 0) capacity = count (fun i => Real (cache.bucket i).sel) capacity := by
      refine congrArg Finset.card (Finset.filter_congr fun i inRange => ?_)
      exact ⟨fun used => ⟨used, noMarker i (Finset.mem_range.mp inRange)⟩, fun real => real.1⟩
    simp only [target, Arch.cacheEndMarker] at used
    omega

theorem Live.unique {i j : Nat} (inRange : i < capacity) (inTable : j < capacity) (real : Real (cache.bucket i).sel)
    (same : (cache.bucket i).sel = (cache.bucket j).sel) : i = j := by
  obtain ⟨k, ends, there⟩ := live.placed i inRange real
  obtain ⟨l, ends', there'⟩ := live.placed j inTable (same ▸ real)
  rw [← same] at there' ends'
  rw [← there, ← there', ends.unique ends'.toEndsFrom]

end

variable (live : Live process cache base capacity log)
include live

theorem Live.probe_lt (sel k : Nat) : probe process capacity sel k < capacity :=
  (cacheNext_cycle process.arch live.sized).iterate_lt (cacheHash_lt live.sized sel) k

theorem Live.exists_endsAt (sel : Nat) : ∃ k, EndsAt process cache capacity sel k := by
  obtain ⟨i, inRange, empty⟩ := live.exists_empty
  obtain ⟨k, small, stops, before⟩ := (cacheNext_cycle process.arch live.sized).first
    (cacheHash_lt live.sized sel) inRange (Stops cache sel) (Or.inl empty)
  exact ⟨k, ⟨stops, before⟩, small⟩

/-- The first insertion of a selector is found where its probe sequence ends. -/
theorem Live.find_some {sel imp k : Nat} (real : Real sel) (known : log.lookup sel = some imp)
    (ends : EndsAt process cache capacity sel k) :
    cache.bucket (probe process capacity sel k) = ⟨sel, imp ^^^ process.cls⟩ := by
  obtain ⟨j, inRange, bucket⟩ := live.present sel imp real known
  have selector := congrArg Bucket.sel bucket
  obtain ⟨l, ends', there⟩ := live.placed j inRange (selector ▸ real)
  rw [selector] at there ends'
  rw [ends.unique ends'.toEndsFrom, there, bucket]

theorem Live.find_none {sel k : Nat} (real : Real sel) (unknown : log.lookup sel = none) (ends : EndsAt process cache capacity sel k) :
    (cache.bucket (probe process capacity sel k)).sel = 0 := by
  exact ends.stops.resolve_right (live.absent sel real unknown _ (live.probe_lt sel k))

/-! ## Insertion -/

omit live in
theorem lookup_snoc (log : List (Nat × Nat)) (sel imp other : Nat) :
    (log ++ [(sel, imp)]).lookup other = (log.lookup other).or (if other = sel then some imp else none) := by
  rw [lookup_append]
  congr 1
  split <;> simp_all

/-- A selector that is already there stays as it is. -/
theorem Live.again {sel imp old : Nat} (known : log.lookup sel = some old) : Live process cache base capacity (log ++ [(sel, imp)]) := by
  have same : ∀ other, (log ++ [(sel, imp)]).lookup other = log.lookup other := by
    intro other
    rw [lookup_snoc]
    split
    · rename_i again
      rw [again, known]
      rfl
    · exact Option.or_none
  have nonempty : log ≠ [] := by
    rintro rfl
    cases known
  exact { live with
    absent := fun other real unknown => live.absent other real (same other ▸ unknown)
    present := fun other _ real found => live.present other _ real (same other ▸ found)
    started := fun _ => live.started nonempty }

/-- A new selector goes to the slot where its probe sequence ends. -/
theorem Live.fill {sel imp k : Nat} (real : Real sel) (unknown : log.lookup sel = none) (ends : EndsAt process cache capacity sel k)
    (room : cache.occupied + 1 + process.arch.cacheEndMarker ≤ capacity / 4 * 3) : Live process { cache with
      occupied := cache.occupied + 1
      bucket := update cache.bucket (probe process capacity sel k) ⟨sel, imp ^^^ process.cls⟩ }
      base capacity (log ++ [(sel, imp)]) := by
  have inRange := live.probe_lt sel k
  have free := live.find_none real unknown ends
  generalize there : probe process capacity sel k = slot at inRange free ⊢
  -- a slot in use is another one
  have other_of_used : ∀ {i}, (cache.bucket i).sel ≠ 0 → i ≠ slot := by
    rintro i used rfl
    exact used free
  have kept : ∀ {i}, (cache.bucket i).sel ≠ 0 → update cache.bucket slot ⟨sel, imp ^^^ process.cls⟩ i = cache.bucket i :=
    fun used => update_of_ne (other_of_used used) _ _
  have passed : ∀ {other i}, ¬ Stops cache other i →
      ¬ Stops { cache with occupied := cache.occupied + 1, bucket := update cache.bucket slot ⟨sel, imp ^^^ process.cls⟩ } other i := by
    intro other i goesOn
    obtain ⟨used, differs⟩ := not_or.mp goesOn
    simp only [Stops, kept used]
    exact goesOn
  refine { sized := live.sized, stored := live.stored, base_lt := live.base_lt, used := ?used, threeQuarters := room,
           marker := ?marker, reserved := ?reserved, placed := ?placed, absent := ?absent, present := ?present,
           started := fun _ => Nat.succ_pos _ }
  case used =>
    have more : count (fun i => (update cache.bucket slot ⟨sel, imp ^^^ process.cls⟩ i).sel ≠ 0) capacity =
        count (fun i => (cache.bucket i).sel ≠ 0) capacity + 1 := by
      refine count_add_one inRange (not_not.mpr free) ?_ ?_
      · simpa using real.1
      · intro i _ other
        rw [update_of_ne other]
    have used := live.used
    simp only at used ⊢
    omega
  case marker =>
    intro target
    have marker := live.marker target
    exact (kept (by simp [marker])).trans marker
  case reserved =>
    intro i small one
    by_cases here : i = slot
    · subst here
      simp only [update_self] at one
      exact absurd one real.2
    · simp only [update_of_ne here] at one
      exact live.reserved i small one
  case placed =>
    intro j small
    by_cases here : j = slot
    · subst here
      simp only [update_self]
      intro _
      exact ⟨k, ⟨⟨.inr (by simp [there]), fun m first => passed (ends.before m first)⟩, ends.lt⟩, there⟩
    · simp only [update_of_ne here]
      intro realThere
      obtain ⟨l, ends', path⟩ := live.placed j small realThere
      exact ⟨l, ⟨⟨.inr (by simp [path, here]), fun m first => passed (ends'.before m first)⟩, ends'.lt⟩, path⟩
  case absent =>
    intro other realOther nowhere j small
    rw [lookup_snoc, Option.or_eq_none_iff] at nowhere
    have differs : other ≠ sel := fun same => by simp [same] at nowhere
    by_cases here : j = slot
    · subst here
      simpa using differs.symm
    · simp only [update_of_ne here]
      exact live.absent other realOther nowhere.1 j small
  case present =>
    intro other value realOther found
    rw [lookup_snoc, Option.or_eq_some_iff] at found
    rcases found with earlier | ⟨_, now⟩
    · obtain ⟨j, small, bucket⟩ := live.present other value realOther earlier
      refine ⟨j, small, (kept ?_).trans bucket⟩
      rw [bucket]
      exact realOther.1
    · obtain ⟨rfl, rfl⟩ : other = sel ∧ imp = value := by
        by_cases same : other = sel
        · simpa [same] using now
        · simp [same] at now
      exact ⟨slot, inRange, update_self _ _ _⟩

/-- `insert`, after it has made room. -/
theorem Live.insertInto {sel imp : Nat} (real : Real sel) (valid : imp ≠ 0) (reallocated : Bool)
    (room : cache.occupied + 1 + process.arch.cacheEndMarker ≤ capacity / 4 * 3) :
    ∃ cache', insertInto process ⟨cache, capacity, reallocated⟩ sel imp = .ok cache' ∧
      Live process cache' base capacity (log ++ [(sel, imp)]) := by
  obtain ⟨k, ends⟩ := live.exists_endsAt sel
  unfold MethodCache.insertInto
  dsimp only
  rw [scan_stopped (cacheNext_cycle process.arch live.sized) (cacheHash_lt live.sized sel) ends.lt ?stops ?before ends.lt]
  case stops => simpa [Stops] using ends.stops
  case before =>
    intro m first
    simpa [Stops] using ends.before m first
  dsimp only
  cases known : log.lookup sel with
  | none =>
    have small : cache.occupied + 1 < 2 ^ 16 := by
      have := live.sized.le_max
      have : maxCacheSize = 2 ^ 16 := rfl
      omega
    rw [if_pos (live.find_none real known ends), Cache.incrementOccupied, encodeImp, if_neg valid, Nat.mod_eq_of_lt small]
    exact ⟨_, rfl, live.fill real known ends room⟩
  | some =>
    rw [live.find_some real known ends, if_neg real.1]
    exact ⟨_, rfl, live.again known⟩

end Live

/-- A new block holds the marker at most. -/
theorem allocateBuckets_sel (capacity newBuckets i : Nat) : (allocateBuckets process capacity newBuckets i).sel =
      if process.arch = .x86_64 ∧ i = capacity - 1 then 1 else 0 := by
  rw [allocateBuckets]
  cases process.arch with
  | x86_64 =>
    by_cases last : i = capacity - 1
    · simp [last]
    · simp [last, zeroes]
  | arm64 => rfl

theorem reallocate_live {capacity newBuckets : Nat} (sized : Sized capacity) (small : newBuckets < 2 ^ 44) :
    Live process (reallocate process capacity newBuckets) newBuckets capacity [] := by
  have positive := sized.four_le
  have notReal : ∀ i, ¬ Real (allocateBuckets process capacity newBuckets i).sel := by
    intro i
    rw [allocateBuckets_sel]
    split <;> simp [Real]
  refine { sized := sized, stored := rfl, base_lt := small, used := ?used, threeQuarters := ?threeQuarters, marker := ?marker,
           reserved := ?reserved, placed := fun j _ real => absurd real (notReal j),
           absent := ?absent, present := fun _ _ _ found => (nomatch found), started := absurd rfl }
  case used =>
    simp only [reallocate, allocateBuckets_sel]
    cases target : process.arch with
    | x86_64 =>
      have none : count (fun _ => False) capacity = 0 := count_eq_zero fun _ _ => id
      refine (count_add_one (p := fun _ => False) (by omega : capacity - 1 < capacity) id (by simp) ?_).trans (congrArg (· + 1) none)
      intro i _ other
      simp [other]
    | arm64 => exact count_eq_zero fun i _ => by simp
  case threeQuarters =>
    show 0 + process.arch.cacheEndMarker ≤ capacity / 4 * 3
    cases process.arch <;> simp only [Arch.cacheEndMarker] <;> omega
  case marker =>
    intro target
    simp [reallocate, allocateBuckets, target]
  case reserved =>
    intro i _ one
    simp only [reallocate, allocateBuckets_sel] at one
    by_contra other
    simp [other] at one
  case absent =>
    rintro sel real - j - rfl
    exact notReal j real

variable (process) in
/-- What an insertion scans: a block with room for one more. -/
structure HasRoom (state : State) (log : List (Nat × Nat)) (room : Room) : Prop where
  live : ∃ base, Own process state base ∧ Live process room.cache base room.capacity (if room.reallocated then [] else log)
  free : room.cache.occupied + 1 + process.arch.cacheEndMarker ≤ room.capacity / 4 * 3
  grows : state.cache.capacity ≤ room.capacity

variable {traced : Traced}

theorem Vacant.isConstantEmptyCache {capacity : Nat} (table : Table process traced)
    (vacant : Vacant process traced.state capacity traced.log) : isConstantEmptyCache process traced.state = true := by
  have lt := @emptyBucketsForCapacity_lt process _ table.shared capacity
  simp [MethodCache.isConstantEmptyCache, vacant.occupied, capacity_eq lt vacant.stored vacant.sized, vacant.stored,
    (setBucketsAndMask_eq _ lt).1]

theorem makeRoom_hasRoom {newBuckets : Nat} (table : Table process traced) (fresh : Fresh process traced.state newBuckets) :
    HasRoom process traced.state traced.log (makeRoom process traced.state newBuckets) := by
  have own : Own process traced.state newBuckets := ⟨fresh.pos, fresh.ne_empty, fresh.ne_shared⟩
  have replaced : ∀ {capacity}, Sized capacity → traced.state.cache.capacity ≤ capacity →
      HasRoom process traced.state traced.log ⟨reallocate process capacity newBuckets, capacity, true⟩ := by
    intro capacity sized grows
    refine ⟨⟨newBuckets, own, reallocate_live sized fresh.lt⟩, ?_, grows⟩
    have := sized.four_le
    show 0 + 1 + process.arch.cacheEndMarker ≤ capacity / 4 * 3
    cases process.arch <;> simp only [Arch.cacheEndMarker] <;> omega
  rcases table.block with ⟨capacity, vacant⟩ | ⟨base, capacity, ownBase, live⟩
  · have lt := @emptyBucketsForCapacity_lt process _ table.shared capacity
    have same := capacity_eq lt vacant.stored vacant.sized
    simp only [makeRoom, vacant.isConstantEmptyCache table, if_true]
    rcases vacant.sized with rfl | sized
    · rw [same, if_pos rfl]
      exact replaced sized_init (same ▸ Nat.zero_le _)
    · have := sized.four_le
      rw [same, if_neg (by omega)]
      exact replaced sized same.le
  · have same := live.capacity_eq
    have notConstant : isConstantEmptyCache process traced.state = false := by
      have differs := ownBase.ne_emptyBuckets capacity
      simp only [isConstantEmptyCache, same, live.buckets_eq]
      simp [differs]
    have positive := live.sized.four_le
    simp only [makeRoom, notConstant, if_false, same, Bool.false_eq_true]
    split
    · rename_i fits
      exact ⟨⟨base, ownBase, live⟩, fits, same.le⟩
    · rw [if_neg (by omega : capacity ≠ 0)]
      refine replaced live.sized.double ?_
      have := live.sized.le_max
      split <;> omega

/-! ## Runs -/

/-- The list of shared blocks grows. -/
theorem Table.grow {newBuckets n : Nat} (table : Table process traced) (fresh : Fresh process traced.state newBuckets)
    : Table process { traced with
      state.emptyBucketsList := traced.state.emptyBucketsList ++ replicate n newBuckets } := by
  refine ⟨?_, ?_⟩
  · intro address known
    rcases mem_append.mp known with old | new
    · exact table.shared address old
    · rw [eq_of_mem_replicate new]
      exact ⟨fresh.pos, fresh.lt⟩
  · rcases table.block with ⟨capacity, vacant⟩ | ⟨base, capacity, own, live⟩
    · have same := emptyBucketsForCapacity_append (replicate n newBuckets) vacant.allocated
      exact Or.inl ⟨capacity, { vacant with
        stored := by rw [same]; exact vacant.stored
        allocated := by rw [same]; exact vacant.allocated }⟩
    · refine Or.inr ⟨base, capacity, { own with ne_shared := ?_ }, live⟩
      intro known
      rcases mem_append.mp known with old | new
      · exact own.ne_shared old
      · exact fresh.ne_own (live.buckets_eq.trans (eq_of_mem_replicate new)).symm

theorem Table.insert {sel imp newBuckets : Nat} (table : Table process traced) (real : Real sel) (valid : imp ≠ 0)
    (fresh : Fresh process traced.state newBuckets) :
    ∃ traced', step process traced (.insert sel imp newBuckets) = .ok traced' ∧ Table process traced' ∧
      traced.state.cache.capacity ≤ traced'.state.cache.capacity ∧ Sized traced'.state.cache.capacity := by
  obtain ⟨⟨base, own, live⟩, free, grows⟩ := makeRoom_hasRoom table fresh
  obtain ⟨cache', done, live'⟩ := live.insertInto real valid (makeRoom process traced.state newBuckets).reallocated free
  refine ⟨⟨{ traced.state with cache := cache' }, _⟩, ?_, ⟨table.shared, Or.inr ⟨base, _, ⟨own.1, own.2, own.3⟩, live'⟩⟩, ?_, ?_⟩
  · simp only [step, MethodCache.insert, done]
    rfl
  · exact grows.trans live'.capacity_eq.ge
  · exact live'.capacity_eq ▸ live'.sized

theorem Table.capacity (table : Table process traced) : traced.state.cache.capacity = 0 ∨ Sized traced.state.cache.capacity := by
  rcases table.block with ⟨capacity, vacant⟩ | ⟨_, capacity, _, live⟩
  · rw [capacity_eq (emptyBucketsForCapacity_lt table.shared capacity) vacant.stored vacant.sized]
    exact vacant.sized
  · rw [live.capacity_eq]
    exact Or.inr live.sized

theorem Table.erase {newBuckets : Nat} (table : Table process traced) (fresh : Fresh process traced.state newBuckets) :
    let state' := cacheEraseNolock process traced.state newBuckets
    Table process ⟨state', []⟩ ∧ state'.cache.capacity = traced.state.cache.capacity := by
  simp only [cacheEraseNolock]
  split
  · obtain ⟨n, grown⟩ := @emptyBucketsForCapacity_list process traced.state.emptyBucketsList
      traced.state.cache.capacity newBuckets
    have made := @emptyBucketsForCapacity_some process traced.state.emptyBucketsList
      traced.state.cache.capacity newBuckets
    have shared := (table.grow (n := n) fresh).shared
    have pos := @emptyBucketsForCapacity_pos process _ table.shared traced.state.cache.capacity _ fresh.pos
    rw [← grown] at shared
    have lt := @emptyBucketsForCapacity_lt process _ shared traced.state.cache.capacity
    refine ⟨⟨shared, Or.inl ⟨traced.state.cache.capacity, table.capacity, ?_, ?_, rfl, rfl, rfl⟩⟩, ?_⟩
    · exact congrArg (process.arch.setBucketsAndMask · _) made
    · exact made ▸ pos
    · exact capacity_eq (made ▸ lt) rfl table.capacity
  · rename_i untouched
    refine ⟨⟨table.shared, ?_⟩, rfl⟩
    rcases table.block with ⟨capacity, vacant⟩ | ⟨base, capacity, own, live⟩
    · exact Or.inl ⟨capacity, { vacant with log := rfl }⟩
    · -- nothing was inserted into this block
      have positive := live.sized.four_le
      have unused : ¬ 0 < traced.state.cache.occupied := fun used => untouched ⟨live.capacity_eq ▸ (by omega : 0 < capacity), used⟩
      have nothing : traced.log = [] := by
        by_contra nonempty
        exact unused (live.started nonempty)
      exact Or.inr ⟨base, capacity, own, nothing ▸ live⟩

/-- **Every allowed operation succeeds and keeps the table.** -/
theorem Table.step {op : Op} (table : Table process traced) (allowed : Allowed process traced.state op) :
    ∃ traced', step process traced op = .ok traced' ∧ Table process traced' ∧ traced.state.cache.capacity ≤ traced'.state.cache.capacity ∧
      (∀ sel imp newBuckets, op = .insert sel imp newBuckets → Sized traced'.state.cache.capacity) := by
  cases op with
  | insert =>
    obtain ⟨notNil, notMarker, valid, fresh⟩ := allowed
    obtain ⟨traced', done, table', grows, sized⟩ := table.insert ⟨notNil, notMarker⟩ valid fresh
    exact ⟨traced', done, table', grows, fun _ _ _ _ => sized⟩
  | erase =>
    obtain ⟨table', same⟩ := table.erase allowed
    exact ⟨_, rfl, table', same.ge, nofun⟩
  | eraseOther capacity newBuckets =>
    obtain ⟨n, grown⟩ := @emptyBucketsForCapacity_list process traced.state.emptyBucketsList capacity newBuckets
    refine ⟨_, ?_, table.grow (n := n) allowed, le_rfl, nofun⟩
    rw [MethodCache.step, ← grown]

theorem initial_table : Table process (initial process) := by
  refine ⟨nofun, Or.inl ⟨0, Or.inl rfl, rfl, process.emptyCache_pos, rfl, rfl, rfl⟩⟩

/-- **In every run the cache is a table.** -/
theorem Reachable.table (reached : Reachable process traced) : Table process traced := by
  induction reached with
  | start => exact initial_table
  | next _ allowed taken ih =>
    obtain ⟨_, done, table, _⟩ := ih.step allowed
    rw [taken] at done
    exact Except.ok.inj done ▸ table

end DarwinNotes.Objc.MethodCache
