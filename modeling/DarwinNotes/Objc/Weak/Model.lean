import DarwinNotes.Lib.HashTable

/-!
# The weak reference table

`objc-weak.mm`: a hash table of entries, one for each object that is referenced
weakly, and in each entry the set of the weak variables that hold the object, its
referrers. Up to four referrers are stored in the entry itself; the same words of
the entry describe a hash table of referrers when there are more. The two are told
apart by the low bits of the second word, which no aligned address has.

Addresses are numbers, 0 is nil. `none` is a fatal error.
-/

namespace DarwinNotes.Objc.Weak
open Lib.HashTable

/-- `hash_pointer` and `w_hash_pointer`. -/
structure Hashes where
  hashPointer : Nat → Nat
  wHashPointer : Nat → Nat

abbrev weakInlineCount : Nat := 4

/-- The union of `weak_entry_t`. -/
inductive Referrers
  | inline (inlineReferrers : Fin weakInlineCount → Nat)
  /-- `referrers` is the address of the block, `table` its contents with `mask`, `num_refs` and
  `max_hash_displacement` -/
  | outOfLine (referrers : Nat) (table : Table Nat)

structure WeakEntry where
  referent : Nat
  referrers : Referrers

structure WeakTable where
  /-- `weak_entries` is not nil -/
  allocated : Bool
  /-- the entries with `mask`, `num_entries` and `max_hash_displacement` -/
  entries : Table WeakEntry

/-- The words of an entry after the referent, as `inline_referrers`. -/
def Referrers.inlineReferrers : Referrers → Fin weakInlineCount → Nat
  | .inline words, i => words i
  | .outOfLine referrers _, 0 => referrers
  | .outOfLine _ table, 1 => table.count * 4 + 2
  | .outOfLine _ table, 2 => table.mask
  | .outOfLine _ table, 3 => table.maxDisplacement

def Referrers.isOutOfLine : Referrers → Bool
  | .inline _ => false
  | .outOfLine _ _ => true

def zeroEntry : WeakEntry := ⟨0, .inline fun _ => 0⟩

variable (hashes : Hashes)

def referrerScheme : Scheme Nat := ⟨id, hashes.wHashPointer, 0, rfl⟩

def entryScheme : Scheme WeakEntry := ⟨WeakEntry.referent, hashes.hashPointer, zeroEntry, rfl⟩

/-- A zeroed `weak_table_t`. -/
def zeroTable : WeakTable := ⟨false, Table.vacant (entryScheme hashes) 0⟩

/-- `TABLE_SIZE`. -/
def tableSize (mask : Nat) : Nat := if mask = 0 then 0 else mask + 1

/-! ## The referrers of an entry -/

/-- The loop of `grow_refs_and_insert` over the old referrers. -/
def reinsert (append : Table Nat → Nat → Option (Table Nat)) : List Nat → Nat → Table Nat → Option (Table Nat)
  | [], _, table => some table
  | old :: rest, numRefs, table =>
    if numRefs = 0 then some table
    else if old ≠ 0 then (append table old).bind (reinsert append rest (numRefs - 1))
    else reinsert append rest numRefs table

/-- `append_referrer` and `grow_refs_and_insert` out of line. The calls of each other nest `fuel` deep. -/
def appendOutOfLine : Nat → Table Nat → Nat → Option (Table Nat)
  | 0, _, _ => none
  | fuel + 1, table, newReferrer =>
    if tableSize table.mask * 3 / 4 ≤ table.count then
      let oldSize := tableSize table.mask
      let newSize := if oldSize = 0 then 8 else oldSize * 2
      let oldRefs := (List.range oldSize).map table.slots
      (reinsert (appendOutOfLine fuel) oldRefs table.count (Table.vacant (referrerScheme hashes) (newSize - 1))).bind
        fun table => appendOutOfLine fuel table newReferrer
    else table.insert (referrerScheme hashes) newReferrer

/-- The table that `append_referrer` makes of the inline referrers. It is not a valid hash table. -/
def inlineTable (inlineReferrers : Fin weakInlineCount → Nat) : Table Nat where
  slots i := if small : i < weakInlineCount then inlineReferrers ⟨i, small⟩ else 0
  mask := weakInlineCount - 1
  count := weakInlineCount
  maxDisplacement := 0

/-- `append_referrer`; `newBlock` is the block it gets if it grows. -/
def appendReferrer (fuel : Nat) (entry : Referrers) (newReferrer newBlock : Nat) : Option Referrers :=
  match entry with
  | .inline inlineReferrers =>
    match (List.finRange weakInlineCount).find? fun i => inlineReferrers i = 0 with
    | some i => some (.inline (Function.update inlineReferrers i newReferrer))
    | none => (appendOutOfLine hashes fuel (inlineTable inlineReferrers) newReferrer).map (.outOfLine newBlock)
  | .outOfLine referrers table =>
    (appendOutOfLine hashes fuel table newReferrer).map fun grown =>
      .outOfLine (if grown.mask = table.mask then referrers else newBlock) grown

/-- `remove_referrer`; an unknown referrer is reported and left. -/
def removeReferrer (entry : Referrers) (oldReferrer : Nat) : Option Referrers :=
  match entry with
  | .inline inlineReferrers =>
    match (List.finRange weakInlineCount).find? fun i => inlineReferrers i = oldReferrer with
    | some i => some (.inline (Function.update inlineReferrers i 0))
    | none => some entry
  | .outOfLine referrers table =>
    match table.find (referrerScheme hashes) oldReferrer with
    | .found i => some (.outOfLine referrers (table.clear (referrerScheme hashes) i))
    | .absent => some entry
    | .bad => none

/-! ## The table of entries -/

variable (weakTable : WeakTable)

/-- `weak_entry_insert`. -/
def weakEntryInsert (newEntry : WeakEntry) : Option WeakTable :=
  (weakTable.entries.insert (entryScheme hashes) newEntry).map fun entries => { weakTable with entries := entries }

/-- `weak_resize`. -/
def weakResize (newSize : Nat) : Option WeakTable :=
  let newEntries := Table.vacant (entryScheme hashes) (newSize - 1)
  if weakTable.allocated then
    let oldEntries := (List.range (tableSize weakTable.entries.mask)).map weakTable.entries.slots
    (newEntries.insertAll (entryScheme hashes) oldEntries).map (⟨true, ·⟩)
  else some ⟨true, newEntries⟩

def weakGrowMaybe : Option WeakTable :=
  let oldSize := tableSize weakTable.entries.mask
  if oldSize * 3 / 4 ≤ weakTable.entries.count then weakResize hashes weakTable (if oldSize = 0 then 64 else oldSize * 2)
  else some weakTable

def weakCompactMaybe : Option WeakTable :=
  let oldSize := tableSize weakTable.entries.mask
  if 1024 ≤ oldSize ∧ weakTable.entries.count ≤ oldSize / 16 then weakResize hashes weakTable (oldSize / 8)
  else some weakTable

/-- `weak_entry_remove`. -/
def weakEntryRemove (i : Nat) : Option WeakTable :=
  weakCompactMaybe hashes { weakTable with entries := weakTable.entries.clear (entryScheme hashes) i }

/-- `weak_entry_for_referent`. -/
def weakEntryForReferent (referent : Nat) : Lookup :=
  if weakTable.allocated then weakTable.entries.find (entryScheme hashes) referent else .absent

/-- The entry at `i` is changed in place. -/
def setReferrers (i : Nat) (referrers : Referrers) : WeakTable :=
  let entries := weakTable.entries
  { weakTable with
    entries := { entries with slots := Function.update entries.slots i { entries.slots i with referrers := referrers } } }

/-! ## Registration -/

/-- What `weak_register_no_lock` asks of the referent. -/
structure Object where
  isTaggedPointer : Bool
  hasCustomRR : Bool
  rootIsDeallocating : Bool
  /-- what the method says, if the class has one -/
  allowsWeakReference : Option Bool

/-- `deallocating`, or `none` where `allowsWeakReference` is forwarded. -/
def Object.deallocating (object : Object) : Option Bool :=
  if object.hasCustomRR then object.allowsWeakReference.map not else some object.rootIsDeallocating

/-- The end of `weak_register_no_lock`. -/
def remember (referent referrer newBlock : Nat) : Option WeakTable :=
  match weakEntryForReferent hashes weakTable referent with
  | .found i => (appendReferrer hashes 2 (weakTable.entries.slots i).referrers referrer newBlock).map (setReferrers weakTable i)
  | .absent =>
    let newEntry : WeakEntry := ⟨referent, .inline fun i => if i.val = 0 then referrer else 0⟩
    (weakGrowMaybe hashes weakTable).bind (weakEntryInsert hashes · newEntry)
  | .bad => none

/-- `weak_register_no_lock`: the table and the object that is returned. -/
def weakRegisterNoLock (object : Object) (referent referrer newBlock : Nat)
    (crashIfDeallocating : Bool) : Option (WeakTable × Nat) :=
  if referent = 0 ∨ object.isTaggedPointer = true then some (weakTable, referent)
  else
    match object.deallocating with
    | none => some (weakTable, 0)
    | some true => if crashIfDeallocating then none else some (weakTable, 0)
    | some false => (remember hashes weakTable referent referrer newBlock).map (·, referent)

/-- The test in `weak_unregister_no_lock`, which reads the words of an entry that is out of line as
referrers when it has none. -/
def isEmpty (entry : Referrers) : Bool :=
  match entry with
  | .outOfLine _ table => if table.count ≠ 0 then false else (List.finRange weakInlineCount).all fun i => entry.inlineReferrers i = 0
  | .inline _ => (List.finRange weakInlineCount).all fun i => entry.inlineReferrers i = 0

def weakUnregisterNoLock (referent referrer : Nat) : Option WeakTable :=
  if referent = 0 then some weakTable
  else
    match weakEntryForReferent hashes weakTable referent with
    | .found i =>
      (removeReferrer hashes (weakTable.entries.slots i).referrers referrer).bind fun entry =>
        let weakTable := setReferrers weakTable i entry
        if isEmpty entry then weakEntryRemove hashes weakTable i else some weakTable
    | .absent => some weakTable
    | .bad => none

/-- The referrers that `weak_clear_no_lock` goes through. -/
def Referrers.toList : Referrers → List Nat
  | .inline inlineReferrers => (List.finRange weakInlineCount).map inlineReferrers
  | .outOfLine _ table => (List.range (tableSize table.mask)).map table.slots

/-- The loop of `weak_clear_no_lock` over the weak variables; one that holds another object is
reported. -/
def zeroOut (referent : Nat) : List Nat → (Nat → Nat) → Nat → Nat
  | [], memory => memory
  | referrer :: rest, memory =>
    zeroOut referent rest
      (if referrer ≠ 0 ∧ memory referrer = referent then Function.update memory referrer 0 else memory)

/-- `weak_clear_no_lock`: the table and the weak variables. -/
def weakClearNoLock (memory : Nat → Nat) (referent : Nat) : Option (WeakTable × (Nat → Nat)) :=
  match weakEntryForReferent hashes weakTable referent with
  | .found i =>
    (weakEntryRemove hashes weakTable i).map
      (·, zeroOut referent (weakTable.entries.slots i).referrers.toList memory)
  | .absent => some (weakTable, memory)
  | .bad => none

end DarwinNotes.Objc.Weak
