import DarwinNotes.Lib.Bytes

/-!
# Burst tries (`CFBurstTrie.c`)

A burst trie maps byte strings to payloads. A level has one slot for each byte; behind a slot is
nothing, another level, or a list of the strings that are left. A list that has become too long is burst:
its strings are put into a new level, one byte shorter. Here the trie is in memory, not mapped
from a file.
-/

namespace DarwinNotes.CF.BurstTrie
open Lib

def maxStringSize : Nat := 1024
def maxListSize : Nat := 256

/-- `struct _ListNode`; the length is that of the string. -/
structure ListNode where
  weight : BitVec 32
  payload : BitVec 32
  string : List Byte
deriving DecidableEq, Repr

/-- `struct _TrieLevel`, over what its slots hold. -/
structure LevelOf (slot : Type) where
  slots : Byte → slot
  weight : BitVec 32
  payload : BitVec 32

/-- `NextTrie`: a pointer with its kind. A list has at least one node. -/
inductive NextTrie
  | nothing
  | trie (level : LevelOf NextTrie)
  | list (nodes : List ListNode)

abbrev TrieLevel := LevelOf NextTrie

/-- `NextTrie_GetPtr` where the pointer is to a list or to nothing. -/
def NextTrie.getList : NextTrie → List ListNode
  | list nodes => nodes
  | _ => []

/-- A level as `calloc` gives it. -/
def TrieLevel.empty : TrieLevel := { slots := fun _ => .nothing, weight := 0, payload := 0 }

def TrieLevel.setSlot (level : TrieLevel) (byte : Byte) (next : NextTrie) : TrieLevel :=
  { level with slots := fun other => if other = byte then next else level.slots other }

/-- `struct _CFBurstTrie` without a map. -/
structure CFBurstTrie where
  root : TrieLevel
  count : BitVec 32
  containerSize : Nat

/-- `CFBurstTrieCreateWithOptions`, with the container size of the options if they have one. -/
def createWithOptions (value : Option Int) : CFBurstTrie where
  root := TrieLevel.empty
  count := 0
  containerSize :=
    match value with
    | none => maxListSize
    | some value => if 2 < value ∧ value < 4096 then value.toNat else maxListSize

/-! ## Insertion -/

/-- `CFBTInsertCode` -/
inductive InsertCode
  | failedInsert
  | newTerm
  | existingTerm
deriving DecidableEq, Repr

section Insertion

variable (containerSize : Nat) (weight payload : BitVec 32)

/-- `addCFBurstTrieBurstLevel` -/
def addBurstLevel (root : TrieLevel) (node : ListNode) : TrieLevel :=
  match node.string with
  | byte :: key => root.setSlot byte (.list ({ node with string := key } :: (root.slots byte).getList))
  | [] => { root with weight := node.weight, payload := node.payload }

/-- `burstCFBurstTrieLevel` -/
def burstLevel (list : List ListNode) : TrieLevel := list.foldl addBurstLevel TrieLevel.empty

/-- The loop of `addCFBurstTrieListNode`: the list afterwards, the code, and the number of nodes that were looked
at. -/
def addListNode (key : List Byte) : Nat → List ListNode → List ListNode × InsertCode × Nat
  | count, [] => ([{ weight := weight, payload := payload, string := key }], .newTerm, count)
  | count, node :: list =>
    if node.string = key then
      ({ node with weight := node.weight + weight, payload := payload } :: list, .existingTerm, count)
    else
      let (list, code, count) := addListNode key (count + 1) list
      (node :: list, code, count)

/-- What `addCFBurstTrieLevel` puts into the slot of a list: the list, or a new level. -/
def burstIfLong (list : List ListNode) (listCount : Nat) : NextTrie :=
  if containerSize < listCount then .trie (burstLevel list) else .list list

/-- `addCFBurstTrieLevel` -/
def addLevel (root : TrieLevel) : List Byte → TrieLevel × InsertCode
  | byte :: key =>
    match root.slots byte with
    | .trie nextLevel =>
      let (nextLevel, code) := addLevel nextLevel key
      (root.setSlot byte (.trie nextLevel), code)
    | .list nodes =>
      let (nodes, code, listCount) := addListNode weight payload key 1 nodes
      (root.setSlot byte (burstIfLong containerSize nodes listCount), code)
    | .nothing => (root.setSlot byte (.list [{ weight := weight, payload := payload, string := key }]), .newTerm)
  | [] =>
    ({ root with weight := root.weight + weight, payload := payload },
      if root.weight = 0 then .newTerm else .existingTerm)

end Insertion

variable (trie : CFBurstTrie)

/-- `CFBurstTrieAddUTF8StringWithWeight` -/
def addUTF8StringWithWeight (chars : List Byte) (weight payload : BitVec 32) : CFBurstTrie × Bool :=
  if chars.length < maxStringSize * 4 ∧ 0 < payload then
    let (root, code) := addLevel trie.containerSize weight payload trie.root chars
    ({ trie with root := root, count := if code = .newTerm then trie.count + 1 else trie.count }, code ≠ .failedInsert)
  else (trie, false)

/-- `CFBurstTrieAddUTF8String` -/
def addUTF8String (chars : List Byte) (payload : BitVec 32) : CFBurstTrie × Bool := addUTF8StringWithWeight trie chars 1 payload

/-! ## Searching -/

/-- `containsKey`: what is found, which also ends the search. -/
def containsKey (payload : BitVec 32) (exact : Bool) : Option (BitVec 32) := if exact then some payload else none

/-- `findCFBurstTrieList`, for what is left of the key. -/
def findList (key : List Byte) : List ListNode → Option (BitVec 32)
  | [] => none
  | node :: list =>
    if key.length ≤ node.string.length ∧ node.string.take key.length = key ∧ node.payload ≠ 0 then
      match containsKey node.payload (node.string.length = key.length) with
      | some found => some found
      | none => findList key list
    else findList key list

/-- `findCFBurstTrieLevel` for an exact match. -/
def findLevel (root : TrieLevel) : List Byte → Option (BitVec 32)
  | byte :: key =>
    match root.slots byte with
    | .trie level => findLevel level key
    | .list nodes => findList key nodes
    | .nothing => none
  | [] => if root.payload ≠ 0 then containsKey root.payload true else none

/-- `CFBurstTrieContainsUTF8String`: the payload, if it succeeds. -/
def containsUTF8String (key : List Byte) : Option (BitVec 32) :=
  if key.length < maxStringSize then findLevel trie.root key else none

/-- `CFBurstTrieGetCount` -/
def getCount : Nat := trie.count.toNat

end DarwinNotes.CF.BurstTrie
