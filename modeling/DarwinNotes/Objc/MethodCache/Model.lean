import DarwinNotes.Lib.Probing

/-!
# The method cache of a class

`cache_t` on LP64 as `objc-cache.mm` fills it, for the two ways it is laid out:
x86_64 keeps the buckets and the mask in two words, probes upwards and ends its
buckets with a marker; arm64 packs both in one word, probes downwards and has no
marker.

A cache points to a block of buckets. The block is either its own or one of the
shared blocks of zeroes, which `emptyBucketsForCapacity` hands out; these are told
apart by their address.
-/

namespace DarwinNotes.Objc.MethodCache
open Lib.Probing

inductive Arch
  | x86_64
  | arm64
  deriving DecidableEq, Repr

/-- `CACHE_END_MARKER`. -/
def Arch.cacheEndMarker : Arch → Nat
  | .x86_64 => 1
  | .arm64 => 0

def initCacheSize : Nat := 1 <<< 2

def maxCacheSize : Nat := 1 <<< 16

/-- `EMPTY_BYTES`: the size of `_objc_empty_cache`. -/
def emptyBytes : Nat := (1024 + 1) * 16

/-- `cache_next`. -/
def cacheNext (arch : Arch) (mask i : Nat) : Nat :=
  match arch with
  | .x86_64 => (i + 1) &&& mask
  | .arm64 => if i = 0 then mask else i - 1

/-- `cache_hash`: `mask_t` has 32 bits. -/
def cacheHash (sel mask : Nat) : Nat := (sel % 2 ^ 32) &&& mask

/-! ## Buckets and where they are stored -/

structure Bucket where
  sel : Nat
  imp : Nat
  deriving DecidableEq, Repr

/-- `bucket_t::encodeImp` with `CACHE_IMP_ENCODING_ISA_XOR`. -/
def encodeImp (newImp cls : Nat) : Nat := if newImp = 0 then 0 else newImp ^^^ cls

/-- `_buckets` and `_mask`, or `_maskAndBuckets`. -/
inductive Storage
  | outlined (buckets mask : Nat)
  | high16 (maskAndBuckets : Nat)
  deriving DecidableEq, Repr

def maskShift : Nat := 48

def maskZeroBits : Nat := 4

def bucketsMask : Nat := (1 <<< (maskShift - maskZeroBits)) - 1

def Storage.buckets : Storage → Nat
  | .outlined buckets _ => buckets
  | .high16 maskAndBuckets => maskAndBuckets &&& bucketsMask

def Storage.mask : Storage → Nat
  | .outlined _ mask => mask
  | .high16 maskAndBuckets => maskAndBuckets >>> maskShift

/-- `setBucketsAndMask`, without `_occupied`. -/
def Arch.setBucketsAndMask (arch : Arch) (newBuckets newMask : Nat) : Storage :=
  match arch with
  | .x86_64 => .outlined newBuckets newMask
  | .arm64 => .high16 ((newMask <<< maskShift) ||| newBuckets)

structure Cache where
  storage : Storage
  occupied : Nat
  /-- the contents of the block at `buckets()` -/
  bucket : Nat → Bucket

def Cache.capacity (cache : Cache) : Nat := if cache.storage.mask = 0 then 0 else cache.storage.mask + 1

/-- `incrementOccupied`: `_occupied` has 16 bits. -/
def Cache.incrementOccupied (cache : Cache) : Cache := { cache with occupied := (cache.occupied + 1) % 2 ^ 16 }

/-- What a class and its process have before any message is sent. User addresses
fit in `bucketsMask`. -/
structure Process where
  arch : Arch
  cls : Nat
  /-- the address of `_objc_empty_cache` -/
  emptyCache : Nat
  emptyCache_pos : 0 < emptyCache
  emptyCache_lt : emptyCache < 2 ^ 44

structure State where
  cache : Cache
  /-- `emptyBucketsList`, shared by all classes -/
  emptyBucketsList : List Nat

def zeroes (_ : Nat) : Bucket := ⟨0, 0⟩

variable (process : Process)

/-- `initializeToEmpty`. -/
def initializeToEmpty : Cache where
  storage := process.arch.setBucketsAndMask process.emptyCache 0
  occupied := 0
  bucket := zeroes

/-! ## Allocation -/

def bytesForCapacity (cap : Nat) : Nat := 16 * cap

/-- `emptyBucketsForCapacity`: the address of the block and the list of shared
blocks. `allocate` is the address of a new block, if one may be made. -/
def emptyBucketsForCapacity (emptyBucketsList : List Nat) (capacity : Nat) (allocate : Option Nat) : Nat × List Nat :=
  if bytesForCapacity capacity ≤ emptyBytes then (process.emptyCache, emptyBucketsList)
  else
    let index := Nat.log2 capacity
    if emptyBucketsList.length ≤ index then
      match allocate with
      | none => (0, emptyBucketsList)
      | some newBuckets => (newBuckets, emptyBucketsList ++ List.replicate (index + 1 - emptyBucketsList.length) newBuckets)
    else (emptyBucketsList.getD index 0, emptyBucketsList)

variable (state : State)

def isConstantEmptyCache : Bool :=
  state.cache.occupied == 0 &&
    state.cache.storage.buckets == (emptyBucketsForCapacity process state.emptyBucketsList state.cache.capacity none).1

variable (newCapacity newBuckets : Nat)

/-- The contents of a block made by `allocateBuckets` at this address. -/
def allocateBuckets : Nat → Bucket :=
  match process.arch with
  | .x86_64 => Function.update zeroes (newCapacity - 1) ⟨1, newBuckets⟩
  | .arm64 => zeroes

/-- `reallocate`. The old contents are not propagated. -/
def reallocate : Cache where
  storage := process.arch.setBucketsAndMask newBuckets (newCapacity - 1)
  occupied := 0
  bucket := allocateBuckets process newCapacity newBuckets

/-! ## Insertion and erasure -/

inductive Fatal
  | badCache
  /-- the loop has not ended after as many turns as there are buckets -/
  | noEnd
  deriving DecidableEq, Repr

/-- The cache that an insertion scans. -/
structure Room where
  cache : Cache
  capacity : Nat
  reallocated : Bool

/-- The first part of `insert`: use the cache as it is, or replace it. -/
def makeRoom (newBuckets : Nat) : Room :=
  let newOccupied := state.cache.occupied + 1
  let capacity := state.cache.capacity
  if isConstantEmptyCache process state then
    let capacity := if capacity = 0 then initCacheSize else capacity
    ⟨reallocate process capacity newBuckets, capacity, true⟩
  else if newOccupied + process.arch.cacheEndMarker ≤ capacity / 4 * 3 then
    ⟨state.cache, capacity, false⟩
  else
    let capacity := if capacity = 0 then initCacheSize else capacity * 2
    let capacity := if maxCacheSize < capacity then maxCacheSize else capacity
    ⟨reallocate process capacity newBuckets, capacity, true⟩

/-- The second part of `insert`: scan for the first unused slot. -/
def insertInto (room : Room) (sel imp : Nat) : Except Fatal Cache :=
  let b := room.cache.bucket
  let m := room.capacity - 1
  let start := cacheHash sel m
  match scan (cacheNext process.arch m) (fun i _ => (b i).sel == 0 || (b i).sel == sel) start room.capacity start 0 with
  | .stopped i _ =>
    if (b i).sel = 0 then
      .ok { room.cache.incrementOccupied with bucket := Function.update b i ⟨sel, encodeImp imp process.cls⟩ }
    else .ok room.cache
  | .wrapped => .error .badCache
  | .outOfFuel => .error .noEnd

/-- `cache_t::insert`; `newBuckets` is the block it gets if it reallocates. -/
def insert (sel imp newBuckets : Nat) : Except Fatal State := do
  let cache ← insertInto process (makeRoom process state newBuckets) sel imp
  return { state with cache := cache }

/-- `cache_erase_nolock`; `newBuckets` is for a new shared block. -/
def cacheEraseNolock (newBuckets : Nat) : State :=
  let capacity := state.cache.capacity
  if 0 < capacity ∧ 0 < state.cache.occupied then
    let (buckets, emptyBucketsList) := emptyBucketsForCapacity process state.emptyBucketsList capacity (some newBuckets)
    { cache := ⟨process.arch.setBucketsAndMask buckets (capacity - 1), 0, zeroes⟩
      emptyBucketsList := emptyBucketsList }
  else state

/-! ## Runs -/

inductive Op
  | insert (sel imp newBuckets : Nat)
  | erase (newBuckets : Nat)
  /-- the cache of another class, with this capacity, is erased -/
  | eraseOther (capacity newBuckets : Nat)
  deriving DecidableEq, Repr

/-- The state with the insertions since the last reallocation or erasure. -/
structure Traced where
  state : State
  log : List (Nat × Nat)

/-- An address that `calloc` can return. -/
structure Fresh (state : State) (newBuckets : Nat) : Prop where
  pos : 0 < newBuckets
  lt : newBuckets < 2 ^ 44
  ne_empty : newBuckets ≠ process.emptyCache
  ne_shared : newBuckets ∉ state.emptyBucketsList
  ne_own : newBuckets ≠ state.cache.storage.buckets

def Allowed (state : State) : Op → Prop
  | .insert sel imp newBuckets => sel ≠ 0 ∧ sel ≠ 1 ∧ imp ≠ 0 ∧ Fresh process state newBuckets
  | .erase newBuckets => Fresh process state newBuckets
  | .eraseOther _ newBuckets => Fresh process state newBuckets

def step (traced : Traced) : Op → Except Fatal Traced
  | .insert sel imp newBuckets => do
    let state ← insert process traced.state sel imp newBuckets
    let before := if (makeRoom process traced.state newBuckets).reallocated then [] else traced.log
    return ⟨state, before ++ [(sel, imp)]⟩
  | .erase newBuckets => .ok ⟨cacheEraseNolock process traced.state newBuckets, []⟩
  | .eraseOther capacity newBuckets =>
    let (_, emptyBucketsList) := emptyBucketsForCapacity process traced.state.emptyBucketsList capacity (some newBuckets)
    .ok { traced with state.emptyBucketsList := emptyBucketsList }

def initial : Traced := ⟨⟨initializeToEmpty process, []⟩, []⟩

inductive Reachable : Traced → Prop
  | start : Reachable (initial process)
  | next {traced traced' : Traced} {op : Op} :
      Reachable traced → Allowed process traced.state op → step process traced op = .ok traced' → Reachable traced'

end DarwinNotes.Objc.MethodCache
