import DarwinNotes.CF.BurstTrie.Insertion

/-!
# Sequences of insertions

After any sequence of insertions the trie is the finite map of the keys that were added, as long as
the keys are not too long to be looked up and the counters do not come round.
-/

namespace DarwinNotes.CF.BurstTrie
open Lib List Function

/-- A call of `CFBurstTrieAddUTF8String`. -/
structure Call where
  key : List Byte
  payload : BitVec 32
deriving DecidableEq, Repr

/-- The trie after a call, and the calls that returned true. -/
def addCall (state : CFBurstTrie × List Call) (call : Call) : CFBurstTrie × List Call :=
  let (trie, success) := addUTF8String state.1 call.key call.payload
  (trie, if success then state.2 ++ [call] else state.2)

def addAll (trie : CFBurstTrie) (calls : List Call) : CFBurstTrie × List Call := calls.foldl addCall (trie, [])

variable (calls : List Call)

/-- The last of the calls with a key. -/
def lastCall (key : List Byte) : Option Call := calls.reverse.find? (·.key = key)

def keysOf : Finset (List Byte) := (calls.map (·.key)).toFinset

/-- The trie is the finite map of the calls that returned true. -/
structure IsMap (trie : CFBurstTrie) (successful : List Call) : Prop where
  contains : ∀ key, containsUTF8String trie key = (lastCall successful key).map (·.payload)
  count : getCount trie = (keysOf successful).card

/-- The length that an insertion accepts. -/
def Call.Accepted (call : Call) : Prop := call.key.length < maxStringSize * 4

instance (call : Call) : Decidable call.Accepted := inferInstanceAs (Decidable (_ < _))

def acceptedCalls : List Call := calls.filter (·.Accepted)

/-- The key can be looked up, and the counters of the trie do not come round. -/
structure Call.Fits (before : List Call) (call : Call) : Prop where
  short : call.key.length < maxStringSize
  seldom : (before.filter (·.key = call.key)).length < 2 ^ 32
  few : (keysOf (acceptedCalls (before ++ [call]))).card < 2 ^ 32

/-- Every call that is accepted fits. -/
def AllFit : Prop := ∀ before call after, calls = before ++ call :: after → call.Accepted → call.Fits before

/-! ## Calls as an abstract map -/

variable (call : Call)

theorem lastCall_append (key : List Byte) :
    lastCall (calls ++ [call]) key = if call.key = key then some call else lastCall calls key := by
  rw [lastCall, lastCall, reverse_append, reverse_singleton, singleton_append, find?_cons]
  by_cases same : call.key = key
  · rw [if_pos same, decide_eq_true same]
  · rw [if_neg same, decide_eq_false same]

variable {calls : List Call} {key : List Byte}

theorem lastCall_eq_none : lastCall calls key = none ↔ key ∉ keysOf calls := by simp [lastCall, keysOf]

theorem keysOf_append (calls : List Call) : keysOf (calls ++ [call]) = insert call.key (keysOf calls) := by
  ext key
  simp [keysOf]

/-- How often a key was added. -/
def times (calls : List Call) (key : List Byte) : Nat := (calls.filter (·.key = key)).length

theorem times_append (calls : List Call) (key : List Byte) :
    times (calls ++ [call]) key = times calls key + if call.key = key then 1 else 0 := by
  rw [times, times, filter_append, length_append]
  by_cases same : call.key = key <;> simp [same]

theorem times_pos : times calls key ≠ 0 ↔ key ∈ keysOf calls := by simp [times, keysOf]

theorem acceptedCalls_append (calls : List Call) :
    acceptedCalls (calls ++ [call]) = if call.Accepted then acceptedCalls calls ++ [call] else acceptedCalls calls := by
  by_cases accepted : call.Accepted <;> simp [acceptedCalls, accepted]

/-- The entries of the trie are those of the calls. -/
structure Holds (trie : CFBurstTrie) (successful : List Call) : Prop where
  good : trie.root.Good
  entry : ∀ key, trie.root.entry key = (lastCall successful key).map fun call => (BitVec.ofNat 32 (times successful key), call.payload)
  count : trie.count = BitVec.ofNat 32 (keysOf successful).card

variable (value : Option Int)

theorem holds_create : Holds (createWithOptions value) [] := ⟨good_empty, entry_empty, rfl⟩

variable {trie : CFBurstTrie} {successful : List Call} (holds : Holds trie successful)
include holds

/-- The weight of a key is how often it was added. -/
theorem Holds.added (key : List Byte) (payload : BitVec 32) :
    added (trie.root.entry key) 1 payload = (BitVec.ofNat 32 (times successful key + 1), payload) := by
  rw [holds.entry, BurstTrie.added]
  cases isLast : lastCall successful key with
  | none =>
    have zero : times successful key = 0 := by
      by_contra positive
      exact lastCall_eq_none.mp isLast (times_pos.mp positive)
    rw [zero]
    rfl
  | some =>
    rw [BitVec.ofNat_add]
    rfl

/-- The code of an insertion tells whether the key was added before. -/
theorem Holds.code (seldom : times successful key < 2 ^ 32) {code : InsertCode} (tells : Tells (trie.root.entry key) code)
    : code = if key ∈ keysOf successful then .existingTerm else .newTerm := by
  rw [holds.entry] at tells
  by_cases known : key ∈ keysOf successful
  · rw [if_pos known]
    cases isLast : lastCall successful key with
    | none => exact absurd known (lastCall_eq_none.mp isLast)
    | some call =>
      apply tells.existing (BitVec.ofNat 32 (times successful key), call.payload)
      · rw [isLast]
        rfl
      · intro zero
        have positive := times_pos.mpr known
        have isZero := congrArg BitVec.toNat zero
        rw [BitVec.toNat_ofNat, Nat.mod_eq_of_lt seldom] at isZero
        exact positive isZero
  · rw [if_neg known]
    apply tells.new
    rw [lastCall_eq_none.mpr known]
    rfl

variable {call : Call}

theorem Holds.addUTF8String (accepted : call.Accepted) (positive : 0 < call.payload) (seldom : times successful call.key < 2 ^ 32)
    : Holds (addUTF8String trie call.key call.payload).1 (successful ++ [call]) ∧
      (BurstTrie.addUTF8String trie call.key call.payload).2 = true := by
  have set : call.payload ≠ 0 := by
    intro zero
    rw [zero] at positive
    exact absurd positive (by decide)
  have bounds : call.key.length < maxStringSize * 4 ∧ 0 < call.payload := ⟨accepted, positive⟩
  have adds := addLevel_spec trie.containerSize 1 set holds.good call.key
  simp only [BurstTrie.addUTF8String, addUTF8StringWithWeight, if_pos bounds]
  refine ⟨⟨adds.good, ?_, ?_⟩, decide_eq_true adds.tells.inserted⟩
  · intro key
    rw [adds.entry, lastCall_append, times_append]
    by_cases same : call.key = key
    · subst same
      rw [update_self, if_pos rfl, if_pos rfl, holds.added]
      rfl
    · rw [update_of_ne (Ne.symm same), if_neg same, if_neg same, holds.entry]
      rfl
  · rw [holds.code seldom adds.tells, keysOf_append, holds.count]
    by_cases known : call.key ∈ keysOf successful
    · rw [if_pos known, Finset.insert_eq_of_mem known]
      rfl
    · rw [if_neg known, Finset.card_insert_of_notMem known, if_pos rfl, BitVec.ofNat_add]
      rfl

omit holds

/-! ## Sequences of calls -/

theorem AllFit.left (allFit : AllFit (calls ++ [call])) : AllFit calls := by
  rintro before call' after rfl accepted
  apply allFit before call' (after ++ [call]) _ accepted
  rw [append_assoc, cons_append]

/-- The trie after the calls holds those that are accepted. -/
theorem holds_addAll (positive : ∀ call ∈ calls, 0 < call.payload) (allFit : AllFit calls) :
    (addAll (createWithOptions value) calls).2 = acceptedCalls calls ∧
      Holds (addAll (createWithOptions value) calls).1 (acceptedCalls calls) := by
  induction calls using reverseRecOn with
  | nil => exact ⟨rfl, holds_create value⟩
  | append_singleton calls call ih =>
    obtain ⟨isSuccessful, holds⟩ := ih (fun call' isCall => positive call' (mem_append_left _ isCall)) allFit.left
    have step : addAll (createWithOptions value) (calls ++ [call]) = addCall (addAll (createWithOptions value) calls) call := by
      rw [addAll, foldl_append]
      rfl
    rw [step, addCall, isSuccessful, acceptedCalls_append]
    by_cases accepted : call.Accepted
    · have fits := allFit calls call [] rfl accepted
      have seldom : times (acceptedCalls calls) call.key < 2 ^ 32 := by
        refine Nat.lt_of_le_of_lt ?_ fits.seldom
        exact (List.Sublist.filter _ filter_sublist).length_le
      obtain ⟨holds', success⟩ := holds.addUTF8String accepted (positive call (by simp)) seldom
      rw [if_pos accepted]
      simp only [success, if_true]
      exact ⟨trivial, holds'⟩
    · have refused : addUTF8String (addAll (createWithOptions value) calls).1 call.key call.payload =
          ((addAll (createWithOptions value) calls).1, false) := if_neg fun bounds => accepted bounds.1
      rw [if_neg accepted, refused]
      exact ⟨rfl, holds⟩

/-- The last call of a key that is accepted. -/
theorem AllFit.short (allFit : AllFit calls) (isCall : call ∈ acceptedCalls calls) : call.key.length < maxStringSize := by
  obtain ⟨mem, accepted⟩ := mem_filter.mp isCall
  obtain ⟨before, after, isSplit⟩ := append_of_mem mem
  exact (allFit before call after isSplit (of_decide_eq_true accepted)).short

theorem AllFit.few (allFit : AllFit calls) : (keysOf (acceptedCalls calls)).card < 2 ^ 32 := by
  induction calls using reverseRecOn with
  | nil => decide
  | append_singleton calls call ih =>
    by_cases accepted : call.Accepted
    · exact (allFit calls call [] rfl accepted).few
    · rw [acceptedCalls_append, if_neg accepted]
      exact ih allFit.left

/-- For every container size, the trie after a sequence of calls is the finite map of those that
returned true. -/
theorem addAll_isMap (calls : List Call) (positive : ∀ call ∈ calls, 0 < call.payload)
    (allFit : AllFit calls) : IsMap (addAll (createWithOptions value) calls).1 (addAll (createWithOptions value) calls).2 := by
  obtain ⟨isSuccessful, holds⟩ := holds_addAll value positive allFit
  rw [isSuccessful]
  constructor
  · intro key
    have found : findLevel (addAll (createWithOptions value) calls).1.root key = (lastCall (acceptedCalls calls) key).map (·.payload) := by
      rw [findLevel_eq holds.good, holds.entry, Option.map_map]
      rfl
    rw [containsUTF8String]
    split
    case isTrue => exact found
    case isFalse long =>
    have absent : lastCall (acceptedCalls calls) key = none := by
      rw [lastCall, find?_eq_none]
      intro call isCall isKey
      rw [← of_decide_eq_true isKey] at long
      exact long (allFit.short (mem_reverse.mp isCall))
    rw [absent]
    rfl
  · rw [getCount, holds.count, BitVec.toNat_ofNat, Nat.mod_eq_of_lt allFit.few]

/-- Fewer than 2 ^ 32 calls with short keys fit. -/
theorem allFit_of_short (short : ∀ call ∈ calls, call.key.length < maxStringSize) (small : calls.length < 2 ^ 32) : AllFit calls := by
  rintro before call _ rfl -
  rw [length_append, length_cons] at small
  refine ⟨short call (by simp), ?_, ?_⟩
  · have fewer := length_filter_le (fun other => decide (other.key = call.key)) before
    omega
  · have distinct := toFinset_card_le ((acceptedCalls (before ++ [call])).map (·.key))
    have fewer := length_filter_le (fun other : Call => decide other.Accepted) (before ++ [call])
    rw [length_map, acceptedCalls] at distinct
    rw [length_append, length_singleton] at fewer
    rw [keysOf, acceptedCalls]
    omega

/-- A key is added twice, and another one that it begins with once. -/
theorem addAll_isMap_two_keys : IsMap (addAll (createWithOptions (some 3)) [⟨[0x61], 1⟩, ⟨[0x61, 0x62], 2⟩, ⟨[0x61], 3⟩]).1
      (addAll (createWithOptions (some 3)) [⟨[0x61], 1⟩, ⟨[0x61, 0x62], 2⟩, ⟨[0x61], 3⟩]).2 :=
  addAll_isMap (some 3) [⟨[0x61], 1⟩, ⟨[0x61, 0x62], 2⟩, ⟨[0x61], 3⟩] (by decide)
    (allFit_of_short (by decide) (by decide))

theorem addAll_singleton (trie : CFBurstTrie) (call : Call) :
    (addAll trie [call]).2 = if (addUTF8String trie call.key call.payload).2 then [call] else [] := rfl

/-- A key of 1024 bytes is added, but it is not found. -/
theorem long_key_is_not_found : (addAll (createWithOptions none) [⟨replicate 1024 0x61, 7⟩]).2 = [⟨replicate 1024 0x61, 7⟩] ∧
      ¬ IsMap (addAll (createWithOptions none) [⟨replicate 1024 0x61, 7⟩]).1
        (addAll (createWithOptions none) [⟨replicate 1024 0x61, 7⟩]).2 := by
  have accepted : Call.Accepted ⟨replicate 1024 0x61, 7⟩ := by
    rw [Call.Accepted, length_replicate]
    decide
  obtain ⟨-, success⟩ := (holds_create none).addUTF8String accepted (by decide) (by decide)
  have isSuccessful : (addAll (createWithOptions none) [⟨replicate 1024 0x61, 7⟩]).2 =
      [⟨replicate 1024 0x61, 7⟩] := by rw [addAll_singleton, if_pos success]
  refine ⟨isSuccessful, ?_⟩
  intro isMap
  have contains := isMap.contains (replicate 1024 0x61)
  rw [isSuccessful, containsUTF8String, if_neg (by rw [length_replicate]; decide)] at contains
  have last := lastCall_append [] ⟨replicate 1024 0x61, 7⟩ (replicate 1024 0x61)
  rw [nil_append, if_pos rfl] at last
  rw [last] at contains
  cases contains

end DarwinNotes.CF.BurstTrie
