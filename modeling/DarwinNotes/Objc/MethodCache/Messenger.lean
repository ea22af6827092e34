import DarwinNotes.Objc.MethodCache.Table

/-!
# The cache lookup of `objc_msgSend`

The `CacheLookup` macros of `objc-msg-x86_64.s` and `objc-msg-arm64.s`, on the
registers they use. Each has its scanning loop twice: the first is left for the
second when the end of the buckets is reached, and the second misses there.

On every table the loops end where the probe sequence of the selector ends, so
they agree with `insert` although neither computes `cache_next`.
-/

namespace DarwinNotes.Objc.MethodCache
open Lib.Probing Function

/-! ## The code -/

inductive Outcome
  /-- jumps to this address -/
  | hit (imp : Nat)
  | miss
  /-- reads outside of the buckets -/
  | fault
  | outOfFuel
  deriving DecidableEq, Repr

/-- The bucket at an address. -/
def Cache.load (cache : Cache) (address : Nat) : Option Bucket :=
  let offset := address - cache.storage.buckets
  if cache.storage.buckets ≤ address ∧ offset % 16 = 0 ∧ offset / 16 ≤ cache.storage.mask then
    some (cache.bucket (offset / 16))
  else none

namespace X86

/-- The second loop: `r10` is the class, `a2` the selector, `r11` the bucket. -/
def scanClone (cache : Cache) (r10 a2 : Nat) : Nat → Nat → Outcome
  | 0, _ => .outOfFuel
  | fuel + 1, r11 =>
    match cache.load r11 with
    | none => .fault
    | some bucket =>
      if bucket.sel = a2 then .hit (bucket.imp ^^^ r10)
      else if bucket.sel ≤ 1 then .miss
      else scanClone cache r10 a2 fuel (r11 + 16)

/-- The first loop, from its comparison on. -/
def scan (cache : Cache) (r10 a2 : Nat) : Nat → Nat → Outcome
  | 0, _ => .outOfFuel
  | fuel + 1, r11 =>
    match cache.load r11 with
    | none => .fault
    | some bucket =>
      if bucket.sel = a2 then .hit (bucket.imp ^^^ r10)
      else if bucket.sel ≤ 1 then
        -- the marker's imp is really the first bucket
        if bucket.sel < 1 then .miss else scanClone cache r10 a2 fuel bucket.imp
      else scan cache r10 a2 fuel (r11 + 16)

def cacheLookup (cache : Cache) (buckets mask r10 a2 fuel : Nat) : Outcome :=
  scan cache r10 a2 fuel ((((a2 % 2 ^ 32) &&& mask) <<< 4) + buckets)

end X86

namespace Arm64

/-- The second loop: `p16` is the class, `p1` the selector, `p10` the first bucket, `p12` the bucket. -/
def scanClone (cache : Cache) (p16 p1 p10 : Nat) : Nat → Nat → Outcome
  | 0, _ => .outOfFuel
  | fuel + 1, p12 =>
    match cache.load p12 with
    | none => .fault
    | some bucket =>
      if bucket.sel = p1 then .hit (bucket.imp ^^^ p16)
      else if bucket.sel = 0 then .miss
      else if p12 = p10 then .miss
      else scanClone cache p16 p1 p10 fuel (p12 - 16)

/-- The first loop; `p11` is `_maskAndBuckets`. -/
def scan (cache : Cache) (p16 p1 p10 p11 : Nat) : Nat → Nat → Outcome
  | 0, _ => .outOfFuel
  | fuel + 1, p12 =>
    match cache.load p12 with
    | none => .fault
    | some bucket =>
      if bucket.sel = p1 then .hit (bucket.imp ^^^ p16)
      else if bucket.sel = 0 then .miss
      else if p12 = p10 then scanClone cache p16 p1 p10 fuel (p12 + (p11 >>> (48 - 4)))
      else scan cache p16 p1 p10 p11 fuel (p12 - 16)

def cacheLookup (cache : Cache) (p11 p16 p1 fuel : Nat) : Outcome :=
  let p10 := p11 &&& 0x0000ffffffffffff
  let p12 := p1 &&& (p11 >>> 48)
  scan cache p16 p1 p10 p11 fuel (p10 + (p12 <<< 4))

end Arm64

/-- `CacheLookup` in a class that stores its cache this way. -/
def cacheLookup (cache : Cache) (cls sel fuel : Nat) : Outcome :=
  match cache.storage with
  | .outlined buckets mask => X86.cacheLookup cache buckets mask cls sel fuel
  | .high16 maskAndBuckets => Arm64.cacheLookup cache maskAndBuckets cls sel fuel

/-! ## The loops on a table -/

section Live

variable {process : Process} {cache : Cache} {base capacity : Nat} {log : List (Nat × Nat)} {i : Nat}

theorem load_bucket {mask : Nat} (small : base < 2 ^ 44) (stored : cache.storage = process.arch.setBucketsAndMask base mask)
    (inRange : i ≤ mask) : cache.load (base + 16 * i) = some (cache.bucket i) := by
  have offset : base + 16 * i - base = 16 * i := by omega
  have aligned : 16 * i % 16 = 0 ∧ 16 * i / 16 = i := by omega
  simp only [Cache.load, stored, setBucketsAndMask_eq _ small, offset, aligned]
  rw [if_pos ⟨by omega, trivial, inRange⟩]

theorem Live.load_bucket (live : Live process cache base capacity log) (inRange : i < capacity) :
    cache.load (base + 16 * i) = some (cache.bucket i) := MethodCache.load_bucket live.base_lt live.stored (by omega)

/-- What a lookup does with the slot where the probe sequence ends. -/
def outcomeAt (cache : Cache) (cls sel i : Nat) : Outcome :=
  if (cache.bucket i).sel = sel then .hit ((cache.bucket i).imp ^^^ cls) else .miss

variable {sel : Nat}

theorem outcomeAt_miss {cls : Nat} (differs : (cache.bucket i).sel ≠ sel) : outcomeAt cache cls sel i = .miss := if_neg differs

variable {next : Nat → Nat} {k : Nat}

theorem EndsFrom.tail (ends : EndsFrom next cache sel i (k + 1)) : EndsFrom next cache sel (next i) k :=
  ⟨ends.stops, fun m first => ends.before (m + 1) (by omega)⟩

theorem EndsFrom.head (ends : EndsFrom next cache sel i (k + 1)) :
    (cache.bucket i).sel ≠ 0 ∧ (cache.bucket i).sel ≠ sel := not_or.mp (ends.before 0 (Nat.succ_pos k))

/-- Where the sequence ends, the loops compare the selector and leave at an empty slot. -/
theorem EndsFrom.outcomeAt_eq (ends : EndsFrom next cache sel i 0) {cls : Nat} {other : Outcome}
    (miss : (cache.bucket i).sel = 0 → other = .miss) :
    (if (cache.bucket i).sel = sel then .hit ((cache.bucket i).imp ^^^ cls) else other) = outcomeAt cache cls sel i := by
  rw [outcomeAt]
  split
  case isTrue => rfl
  case isFalse differs => exact miss (ends.stops.resolve_right differs)

namespace X86

section

variable (live : Live process cache base capacity log)
include live

/-- Before the last slot there is no marker. -/
theorem sel_not_le_one (inRange : i + 1 < capacity) (used : (cache.bucket i).sel ≠ 0) : ¬ (cache.bucket i).sel ≤ 1 := by
  intro small
  have := (live.reserved i (by omega) (by omega)).2
  omega

theorem next_eq (inRange : i + 1 < capacity) : cacheNext .x86_64 (capacity - 1) i = i + 1 := by
  rw [cacheNext_x86_64 live.sized, Nat.mod_eq_of_lt inRange]

/-- The second loop does not come to the last slot. -/
theorem scanClone_eq {fuel : Nat} (enough : k < fuel) (short : i + k + 1 < capacity)
    (ends : EndsFrom (cacheNext .x86_64 (capacity - 1)) cache sel i k) : scanClone cache process.cls sel fuel (base + 16 * i) =
      outcomeAt cache process.cls sel ((cacheNext .x86_64 (capacity - 1))^[k] i) := by
  induction k generalizing i fuel with
  | zero =>
    obtain ⟨fuel, rfl⟩ := Nat.exists_eq_add_of_lt enough
    rw [scanClone, live.load_bucket (by omega), iterate_zero_apply]
    exact ends.outcomeAt_eq fun empty => if_pos (by omega)
  | succ _ ih =>
    obtain ⟨fuel, rfl⟩ := Nat.exists_eq_add_of_lt enough
    obtain ⟨used, differs⟩ := ends.head
    have onward := next_eq live (by omega : i + 1 < capacity)
    rw [scanClone, live.load_bucket (by omega), iterate_succ_apply, onward]
    dsimp only
    rw [if_neg differs, if_neg (sel_not_le_one live (by omega) used)]
    exact ih (i := i + 1) (by omega) (by omega) (onward ▸ ends.tail)

/-- The first loop goes from slot `start` to the marker at most; from there the second one goes
on before `start`. -/
theorem scan_eq (target : process.arch = .x86_64) {start fuel : Nat} (enough : k < fuel) (after : start ≤ i) (inRange : i < capacity)
    (short : i + k < capacity + start) (ends : EndsFrom (cacheNext .x86_64 (capacity - 1)) cache sel i k) :
    scan cache process.cls sel fuel (base + 16 * i) = outcomeAt cache process.cls sel ((cacheNext .x86_64 (capacity - 1))^[k] i) := by
  induction k generalizing i fuel with
  | zero =>
    obtain ⟨fuel, rfl⟩ := Nat.exists_eq_add_of_lt enough
    rw [scan, live.load_bucket inRange, iterate_zero_apply]
    exact ends.outcomeAt_eq fun empty => by rw [if_pos (by omega), if_pos (by omega)]
  | succ _ ih =>
    obtain ⟨fuel, rfl⟩ := Nat.exists_eq_add_of_lt enough
    obtain ⟨used, differs⟩ := ends.head
    rw [scan, live.load_bucket inRange, iterate_succ_apply]
    dsimp only
    rw [if_neg differs]
    by_cases last : i = capacity - 1
    · have marker := live.marker target
      rw [← last] at marker
      have onward : cacheNext .x86_64 (capacity - 1) i = 0 := by
        rw [cacheNext_x86_64 live.sized, last, Nat.sub_add_cancel (by omega), Nat.mod_self]
      rw [marker, if_pos le_rfl, if_neg (Nat.lt_irrefl 1), onward]
      exact scanClone_eq live (i := 0) (by omega) (by omega) (onward ▸ ends.tail)
    · have onward := next_eq live (by omega : i + 1 < capacity)
      rw [if_neg (sel_not_le_one live (by omega) used), onward]
      exact ih (i := i + 1) (by omega) (by omega) (by omega) (by omega) (onward ▸ ends.tail)

end

theorem cacheLookup_unpack (cache : Cache) (buckets mask cls sel fuel : Nat) : X86.cacheLookup cache buckets mask cls sel fuel =
      scan cache cls sel fuel (buckets + 16 * ((sel % 2 ^ 32) &&& mask)) := by
  rw [X86.cacheLookup, Nat.shiftLeft_eq, Nat.mul_comm, Nat.add_comm]

end X86

namespace Arm64

variable (live : Live process cache base capacity log)
include live

/-- The second loop does not come to the first slot. -/
theorem scanClone_eq {fuel : Nat} (enough : k < fuel) (inRange : i < capacity) (short : k < i)
    (ends : EndsFrom (cacheNext .arm64 (capacity - 1)) cache sel i k) : scanClone cache process.cls sel base fuel (base + 16 * i) =
      outcomeAt cache process.cls sel ((cacheNext .arm64 (capacity - 1))^[k] i) := by
  induction k generalizing i fuel with
  | zero =>
    obtain ⟨fuel, rfl⟩ := Nat.exists_eq_add_of_lt enough
    rw [scanClone, live.load_bucket inRange, iterate_zero_apply]
    exact ends.outcomeAt_eq fun empty => if_pos empty
  | succ _ ih =>
    obtain ⟨fuel, rfl⟩ := Nat.exists_eq_add_of_lt enough
    obtain ⟨used, differs⟩ := ends.head
    have onward : cacheNext .arm64 (capacity - 1) i = i - 1 := if_neg (by omega)
    have bucket : base + 16 * i - 16 = base + 16 * (i - 1) := by omega
    rw [scanClone, live.load_bucket inRange, iterate_succ_apply, onward]
    dsimp only
    rw [if_neg differs, if_neg used, if_neg (by omega), bucket]
    exact ih (by omega) (by omega) (by omega) (onward ▸ ends.tail)

/-- The first loop goes from slot `start` down to the first; from there the second one goes on
after `start`. -/
theorem scan_eq {start p11 fuel : Nat} (wrap : p11 >>> (48 - 4) = 16 * (capacity - 1)) (startInRange : start < capacity)
    (enough : k < fuel) (below : i ≤ start) (short : k + start < capacity + i)
    (ends : EndsFrom (cacheNext .arm64 (capacity - 1)) cache sel i k) : scan cache process.cls sel base p11 fuel (base + 16 * i) =
      outcomeAt cache process.cls sel ((cacheNext .arm64 (capacity - 1))^[k] i) := by
  induction k generalizing i fuel with
  | zero =>
    obtain ⟨fuel, rfl⟩ := Nat.exists_eq_add_of_lt enough
    rw [scan, live.load_bucket (by omega), iterate_zero_apply]
    exact ends.outcomeAt_eq fun empty => if_pos empty
  | succ _ ih =>
    obtain ⟨fuel, rfl⟩ := Nat.exists_eq_add_of_lt enough
    obtain ⟨used, differs⟩ := ends.head
    rw [scan, live.load_bucket (by omega), iterate_succ_apply]
    dsimp only
    rw [if_neg differs, if_neg used]
    by_cases first : i = 0
    · have onward : cacheNext .arm64 (capacity - 1) i = capacity - 1 := if_pos first
      have tail := ends.tail
      rw [onward] at tail
      rw [if_pos (by omega), onward, wrap, first, Nat.mul_zero, Nat.add_zero]
      exact scanClone_eq live (by omega) (by omega) (by omega) tail
    · have onward : cacheNext .arm64 (capacity - 1) i = i - 1 := if_neg first
      have bucket : base + 16 * i - 16 = base + 16 * (i - 1) := by omega
      rw [if_neg (by omega), onward, bucket]
      exact ih (by omega) (by omega) (by omega) (onward ▸ ends.tail)

omit live in
/-- The mask and the buckets are taken out of one word. -/
theorem cacheLookup_unpack (cache : Cache) {buckets mask : Nat} (small : buckets < 2 ^ 44) (cls sel fuel : Nat) :
    ∃ p11, p11 >>> (48 - 4) = 16 * mask ∧ Arm64.cacheLookup cache ((mask <<< maskShift) ||| buckets) cls sel fuel =
        scan cache cls sel buckets p11 fuel (buckets + 16 * (sel &&& mask)) := by
  have packed : (mask <<< maskShift) ||| buckets = mask * 2 ^ 48 + buckets := by
    rw [maskShift, ← Nat.shiftLeft_add_eq_or_of_lt (by omega), Nat.shiftLeft_eq]
  have p10 : (mask * 2 ^ 48 + buckets) &&& 0x0000ffffffffffff = buckets := by
    rw [(by rfl : 0x0000ffffffffffff = 2 ^ 48 - 1), Nat.and_two_pow_sub_one_eq_mod]
    omega
  have high : (mask * 2 ^ 48 + buckets) >>> 48 = mask := by omega
  refine ⟨mask * 2 ^ 48 + buckets, ?_, ?_⟩
  · omega
  · simp only [Arm64.cacheLookup, packed, p10, high]
    rw [Nat.shiftLeft_eq, Nat.mul_comm (sel &&& mask)]

end Arm64

/-- Both lookups look at the slot where the probe sequence ends. -/
theorem Live.cacheLookup_eq (live : Live process cache base capacity log) {fuel : Nat} (ends : EndsAt process cache capacity sel k)
    (enough : k < fuel) : cacheLookup cache process.cls sel fuel = outcomeAt cache process.cls sel (probe process capacity sel k) := by
  have inRange := cacheHash_lt live.sized sel
  have few := ends.lt
  rw [cacheLookup, live.stored, probe]
  cases target : process.arch with
  | x86_64 =>
    show X86.cacheLookup cache base (capacity - 1) process.cls sel fuel = _
    rw [X86.cacheLookup_unpack, ← cacheHash]
    exact X86.scan_eq live target enough le_rfl inRange (by omega) (target ▸ ends.toEndsFrom)
  | arm64 =>
    have hash : sel &&& (capacity - 1) = cacheHash sel (capacity - 1) := by
      rw [cacheHash_eq live.sized]
      obtain ⟨k, _, _, rfl⟩ := live.sized
      exact Nat.and_two_pow_sub_one_eq_mod _ _
    show Arm64.cacheLookup cache (((capacity - 1) <<< maskShift) ||| base) process.cls sel fuel = _
    obtain ⟨_, wrap, unpacked⟩ := Arm64.cacheLookup_unpack cache live.base_lt process.cls sel fuel
    rw [unpacked, hash]
    exact Arm64.scan_eq live wrap inRange enough le_rfl (by omega) (target ▸ ends.toEndsFrom)

/-- A lookup of a method ends with the first insertion, or misses. -/
theorem Live.cacheLookup_real (live : Live process cache base capacity log) {fuel : Nat} (real : Real sel) (enough : capacity < fuel) :
    cacheLookup cache process.cls sel fuel = ((log.lookup sel).map Outcome.hit).getD .miss := by
  obtain ⟨k, ends⟩ := live.exists_endsAt sel
  rw [live.cacheLookup_eq ends (ends.lt.trans enough)]
  cases known : log.lookup sel with
  | none =>
    have empty := live.find_none real known ends
    exact outcomeAt_miss (empty ▸ real.1.symm)
  | some =>
    rw [outcomeAt, live.find_some real known ends, if_pos rfl, Nat.xor_assoc, Nat.xor_self, Nat.xor_zero]
    rfl

end Live

/-! ## A block of zeroes -/

section Zeroes

variable {process : Process} {cache : Cache} {base mask fuel : Nat}

theorem cacheLookup_zeroes (small : base < 2 ^ 44) (stored : cache.storage = process.arch.setBucketsAndMask base mask)
    (empty : cache.bucket = zeroes) (sel : Nat) (enough : 0 < fuel) :
    cacheLookup cache process.cls sel fuel = if sel = 0 then .hit (0 ^^^ process.cls) else .miss := by
  obtain ⟨fuel, rfl⟩ := Nat.exists_eq_add_of_lt enough
  have loaded : ∀ i ≤ mask, cache.load (base + 16 * i) = some ⟨0, 0⟩ := fun i inRange =>
    (load_bucket small stored inRange).trans (congrArg some (congrFun empty i))
  rw [cacheLookup, stored]
  cases process.arch with
  | x86_64 =>
    simp only [Arch.setBucketsAndMask, X86.cacheLookup_unpack, X86.scan, loaded _ Nat.and_le_right]
    simp [eq_comm]
  | arm64 =>
    obtain ⟨_, _, unpacked⟩ := @Arm64.cacheLookup_unpack cache base mask small process.cls sel (0 + fuel + 1)
    simp only [Arch.setBucketsAndMask, unpacked, Arm64.scan, loaded _ Nat.and_le_right]
    simp [eq_comm]

end Zeroes

/-! ## Every run -/

/-- A lookup of `sel` ends, and it hits exactly the implementation that was inserted first. -/
def Looks (process : Process) (traced : Traced) (sel : Nat) : Prop :=
  ∃ outcome, outcome ≠ .fault ∧ outcome ≠ .outOfFuel ∧
    (∀ fuel, traced.state.cache.capacity < fuel → cacheLookup traced.state.cache process.cls sel fuel = outcome) ∧
    (sel ≠ 0 → sel ≠ 1 → ∀ imp, outcome = .hit imp ↔ traced.log.lookup sel = some imp)

variable {process : Process} {traced : Traced}

theorem Live.looks {base capacity : Nat} (live : Live process traced.state.cache base capacity traced.log) (sel : Nat)
    : Looks process traced sel := by
  obtain ⟨k, ends⟩ := live.exists_endsAt sel
  have ended : ∀ fuel, traced.state.cache.capacity < fuel →
      cacheLookup traced.state.cache process.cls sel fuel =
        outcomeAt traced.state.cache process.cls sel (probe process capacity sel k) := fun fuel enough =>
    live.cacheLookup_eq ends (ends.lt.trans (live.capacity_eq ▸ enough))
  refine ⟨_, ?_, ?_, ended, fun notNil notMarker imp => ?_⟩
  · rw [outcomeAt]
    split <;> exact nofun
  · rw [outcomeAt]
    split <;> exact nofun
  · have enough : capacity < traced.state.cache.capacity + 1 := live.capacity_eq ▸ Nat.lt_succ_self _
    rw [← ended _ (Nat.lt_succ_self _), live.cacheLookup_real ⟨notNil, notMarker⟩ enough]
    cases traced.log.lookup sel <;> simp

theorem Vacant.looks {capacity : Nat} (table : Table process traced) (vacant : Vacant process traced.state capacity traced.log)
    (sel : Nat) : Looks process traced sel := by
  have ended : ∀ fuel, traced.state.cache.capacity < fuel → cacheLookup traced.state.cache process.cls sel fuel =
      if sel = 0 then .hit (0 ^^^ process.cls) else .miss := fun fuel enough =>
    cacheLookup_zeroes (emptyBucketsForCapacity_lt table.shared capacity) vacant.stored vacant.zeroes sel
      (Nat.zero_lt_of_lt enough)
  refine ⟨_, ?_, ?_, ended, fun notNil _ imp => ?_⟩
  · split <;> exact nofun
  · split <;> exact nofun
  · simp [notNil, vacant.log]

/-- What a table is, seen from outside. -/
structure WellFormed (process : Process) (state : State) : Prop where
  exists_empty : ∃ i ≤ state.cache.storage.mask, (state.cache.bucket i).sel = 0
  marker : process.arch = .x86_64 → isConstantEmptyCache process state = false →
    state.cache.bucket (state.cache.capacity - 1) = ⟨1, state.cache.storage.buckets⟩
  occupied : state.cache.occupied = count (fun i => Real (state.cache.bucket i).sel) state.cache.capacity
  unique : ∀ i < state.cache.capacity, ∀ j < state.cache.capacity, Real (state.cache.bucket i).sel →
    (state.cache.bucket i).sel = (state.cache.bucket j).sel → i = j
  capacity : state.cache.capacity = 0 ∨ ∃ k, 2 ≤ k ∧ state.cache.capacity = 2 ^ k ∧ state.cache.capacity ≤ maxCacheSize

theorem Table.wellFormed (table : Table process traced) : WellFormed process traced.state := by
  have capacity : traced.state.cache.capacity = 0 ∨
      ∃ k, 2 ≤ k ∧ traced.state.cache.capacity = 2 ^ k ∧ traced.state.cache.capacity ≤ maxCacheSize := by
    refine table.capacity.imp_right fun sized => ?_
    obtain ⟨k, low, _, size⟩ := id sized
    exact ⟨k, low, size, sized.le_max⟩
  rcases table.block with ⟨size, vacant⟩ | ⟨_, size, _, live⟩
  · have empty : ∀ i, (traced.state.cache.bucket i).sel = 0 := fun i => by rw [vacant.zeroes]; rfl
    exact {
      exists_empty := ⟨0, Nat.zero_le _, empty 0⟩
      marker := fun _ live => absurd ((vacant.isConstantEmptyCache table).symm.trans live) nofun
      occupied := vacant.occupied.trans (count_eq_zero fun i _ real => real.1 (empty i)).symm
      unique := fun i _ _ _ real => absurd (empty i) real.1
      capacity := capacity }
  · have mask : traced.state.cache.storage.mask = size - 1 := by
      rw [live.stored, (setBucketsAndMask_eq _ live.base_lt).2]
    obtain ⟨i, inRange, empty⟩ := live.exists_empty
    refine ⟨⟨i, by omega, empty⟩, ?_, ?_, ?_, capacity⟩
    · intro target _
      rw [live.capacity_eq, live.buckets_eq]
      exact live.marker target
    · rw [live.capacity_eq]
      exact live.occupied_eq
    · rw [live.capacity_eq]
      exact fun i inRange j => live.unique inRange

/-- **The cache that C fills and assembly reads is one hash table.** In every run the table is well
formed, every operation succeeds and does not shrink it, and every lookup ends with what was
inserted first. -/
theorem cache_is_one_table {process : Process} {traced : Traced} (reached : Reachable process traced) : WellFormed process traced.state ∧
    (∀ op, Allowed process traced.state op → ∃ traced', step process traced op = .ok traced' ∧
      traced.state.cache.capacity ≤ traced'.state.cache.capacity ∧
      ((∃ sel imp newBuckets, op = .insert sel imp newBuckets) → 0 < traced'.state.cache.capacity)) ∧
    (∀ sel, Looks process traced sel) := by
  have table := reached.table
  refine ⟨table.wellFormed, fun op allowed => ?_, fun sel => ?_⟩
  · obtain ⟨traced', done, _, grows, inserted⟩ := table.step allowed
    refine ⟨traced', done, grows, fun ⟨sel, imp, newBuckets, same⟩ => ?_⟩
    have := (inserted sel imp newBuckets same).four_le
    omega
  · rcases table.block with ⟨_, vacant⟩ | ⟨_, _, _, live⟩
    · exact vacant.looks table sel
    · exact live.looks sel

/-! ## A run -/

theorem sample_pos : 0 < 0x1000 := by decide

def sample : Process := ⟨.x86_64, 0x4000, 0x1000, sample_pos, by decide⟩

/-- Two methods whose selectors hash to slot 1 fill the slots before the marker. -/
def oneMethod : Traced := ⟨⟨⟨.outlined 0x2000 3, 1, update (update zeroes 3 ⟨1, 0x2000⟩) 1 ⟨5, 0x4100⟩⟩, []⟩, [(5, 0x100)]⟩

def twoMethods : Traced := ⟨⟨⟨.outlined 0x2000 3, 2, update oneMethod.state.cache.bucket 2 ⟨9, 0x4200⟩⟩, []⟩, [(5, 0x100), (9, 0x200)]⟩

theorem twoMethods_reachable : Reachable sample twoMethods := by
  have first : Reachable sample oneMethod := @Reachable.next _ _ _ (.insert 5 0x100 0x2000) .start
    ⟨by decide, by decide, by decide, by decide, by decide, by decide, nofun, by decide⟩ rfl
  exact @Reachable.next _ _ _ (.insert 9 0x200 0x3000) first
    ⟨by decide, by decide, by decide, by decide, by decide, by decide, nofun, by decide⟩ rfl

/-- The second method is found behind the first. -/
theorem cache_is_one_table_twoMethods : cacheLookup twoMethods.state.cache sample.cls 9 5 = .hit 0x200 := by
  obtain ⟨_, _, looks⟩ := cache_is_one_table twoMethods_reachable
  obtain ⟨_, _, _, _, _⟩ := looks 9
  rfl

/-- A cache starts without buckets of its own, and a lookup of the reserved selectors does not miss:
0 is found in an empty bucket and 1 in the end marker. -/
theorem cache_capacity_and_reserved_selectors : ((initial sample).state.cache.capacity = 0 ∧ ¬ ∃ k, 0 = 2 ^ k) ∧
    (Reachable sample twoMethods ∧ twoMethods.log.lookup 1 = none ∧
      cacheLookup twoMethods.state.cache sample.cls 1 5 = .hit (0x2000 ^^^ 0x4000)) ∧
    (twoMethods.log.lookup 0 = none ∧ cacheLookup twoMethods.state.cache sample.cls 0 5 = .hit 0x4000) := by
  refine ⟨⟨rfl, ?_⟩, ⟨twoMethods_reachable, rfl, rfl⟩, rfl, rfl⟩
  rintro ⟨k, power⟩
  exact (Nat.two_pow_pos k).ne power

end DarwinNotes.Objc.MethodCache
