import DarwinNotes.CF.BurstTrie.Model

/-!
# What a burst trie holds

Whatever the shape of a level, it holds an entry for some keys: the weight and the payload. A search gives the payload of
the entry. Bursting a list keeps its entries, and an insertion changes the entry of its
key only.
-/

namespace DarwinNotes.CF.BurstTrie
open Lib List Function

/-! ## Entries -/

abbrev Entry := BitVec 32 × BitVec 32

def entryList (nodes : List ListNode) (key : List Byte) : Option Entry :=
  (nodes.find? (·.string = key)).map fun node => (node.weight, node.payload)

/-- The entry of a key; a level without a payload has none of its own. -/
def LevelOf.entry (root : TrieLevel) : List Byte → Option Entry
  | [] => if root.payload = 0 then none else some (root.weight, root.payload)
  | byte :: key =>
    match root.slots byte with
    | .nothing => none
    | .trie level => level.entry key
    | .list nodes => entryList nodes key

def NextTrie.entry (next : NextTrie) (key : List Byte) : Option Entry :=
  match next with
  | nothing => none
  | trie level => level.entry key
  | list nodes => entryList nodes key

variable (root : TrieLevel)

theorem entry_cons (byte : Byte) (key : List Byte) : root.entry (byte :: key) = (root.slots byte).entry key := rfl

/-- A new entry behind a slot is one of the level. -/
theorem entry_setSlot {byte : Byte} {next : NextTrie} {key : List Byte} {entry : Option Entry}
    (isNext : next.entry = update (root.slots byte).entry key entry) :
    (root.setSlot byte next).entry = update root.entry (byte :: key) entry := by
  funext other
  cases other with
  | nil => exact (update_of_ne (cons_ne_nil byte key).symm _ _).symm
  | cons byte' =>
    rw [entry_cons, TrieLevel.setSlot, update_apply]
    by_cases same : byte' = byte
    · simp [same, isNext, update_apply, entry_cons]
    · simp [same, entry_cons]

theorem entryList_cons (node : ListNode) (nodes : List ListNode) :
    entryList (node :: nodes) = update (entryList nodes) node.string (some (node.weight, node.payload)) := by
  funext key
  rw [entryList, find?_cons]
  by_cases same : node.string = key
  · rw [decide_eq_true same, same, update_self]
    rfl
  · rw [decide_eq_false same, update_of_ne (Ne.symm same)]
    rfl

/-- The strings of a list differ, and have a payload. -/
inductive GoodList : List ListNode → Prop
  | nil : GoodList []
  | cons {node : ListNode} {nodes : List ListNode} (payload : node.payload ≠ 0) (absent : entryList nodes node.string = none)
      (good : GoodList nodes) : GoodList (node :: nodes)

/-- The lists are good, and a level without a payload was never given a weight. -/
inductive NextTrie.Good : NextTrie → Prop
  | nothing : Good .nothing
  | list {nodes : List ListNode} (good : GoodList nodes) : Good (.list nodes)
  | trie {level : TrieLevel} (slots : ∀ byte, Good (level.slots byte)) (unset : level.payload = 0 → level.weight = 0) : Good (.trie level)

abbrev LevelOf.Good (level : TrieLevel) : Prop := NextTrie.Good (.trie level)

variable {level : TrieLevel}

theorem LevelOf.Good.slot (good : level.Good) (byte : Byte) : (level.slots byte).Good := by
  cases good with
  | trie slots => exact slots byte

theorem LevelOf.Good.unset (good : level.Good) (empty : level.payload = 0) : level.weight = 0 := by
  cases good with
  | trie _ unset => exact unset empty

theorem LevelOf.Good.setSlot (good : level.Good) (byte : Byte) {next : NextTrie} (goodNext : next.Good) :
    (TrieLevel.setSlot level byte next).Good := by
  refine .trie ?_ good.unset
  intro other
  simp only [TrieLevel.setSlot]
  split
  case isTrue => exact goodNext
  case isFalse => exact good.slot other

theorem good_empty : TrieLevel.empty.Good := .trie (fun _ => .nothing) fun _ => rfl

theorem entry_empty (key : List Byte) : TrieLevel.empty.entry key = none := by cases key <;> rfl

variable {nodes : List ListNode}

theorem entryList_eq_none {key : List Byte} : entryList nodes key = none ↔ ∀ node ∈ nodes, node.string ≠ key := by
  rw [entryList, Option.map_eq_none_iff, find?_eq_none]
  simp

/-! ## Searching -/

theorem findList_eq (good : GoodList nodes) (key : List Byte) : findList key nodes = (entryList nodes key).map (·.2) := by
  induction good with
  | nil => rfl
  | @cons node _ payload _ _ ih =>
    rw [findList, entryList_cons, ih]
    by_cases same : node.string = key
    · subst same
      rw [if_pos ⟨Nat.le_refl _, take_length, payload⟩, update_self, containsKey, if_pos (decide_eq_true rfl)]
      rfl
    rw [update_of_ne (Ne.symm same)]
    split
    case isTrue starts =>
      have longer : node.string.length ≠ key.length := by
        intro sameLength
        apply same
        rw [← starts.2.1, ← sameLength, take_length]
      rw [containsKey, if_neg (by simpa using longer)]
    case isFalse => rfl

/-- A search gives the payload of the entry. -/
theorem findLevel_eq {root : TrieLevel} (good : root.Good) (key : List Byte) : findLevel root key = (root.entry key).map (·.2) := by
  induction key generalizing root with
  | nil =>
    rw [findLevel, LevelOf.entry]
    by_cases unset : root.payload = 0
    · rw [if_pos unset, if_neg (not_not.mpr unset)]
      rfl
    · rw [if_neg unset, if_pos unset]
      rfl
  | cons byte key ih =>
    have goodSlot := good.slot byte
    rw [findLevel, entry_cons]
    cases isNext : root.slots byte with
    | nothing => rfl
    | trie =>
      rw [isNext] at goodSlot
      exact ih goodSlot
    | list =>
      rw [isNext] at goodSlot
      cases goodSlot with
      | list goodNodes => exact findList_eq goodNodes key

end DarwinNotes.CF.BurstTrie
