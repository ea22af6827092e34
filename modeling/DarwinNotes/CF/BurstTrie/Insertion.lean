import DarwinNotes.CF.BurstTrie.Entries

/-!
# Insertion into a burst trie

An insertion changes the entry of its key only, whether it ends in a level or in a list and whether or not the list
is burst.
-/

namespace DarwinNotes.CF.BurstTrie
open Lib List Function

/-! ## Bursting a list -/

/-- No slot of the level leads to another level. -/
def IsFlat (root : TrieLevel) : Prop := ∀ byte level, root.slots byte ≠ .trie level

/-- A node that is put into a new level gets an entry. -/
structure Bursts (root after : TrieLevel) (node : ListNode) : Prop where
  good : after.Good
  isFlat : IsFlat after
  entry : after.entry = update root.entry node.string (some (node.weight, node.payload))

theorem addBurstLevel_spec {root : TrieLevel} (good : root.Good) (isFlat : IsFlat root) {node : ListNode}
    (payload : node.payload ≠ 0) (absent : root.entry node.string = none) : Bursts root (addBurstLevel root node) node := by
  obtain ⟨_, _, string⟩ := node
  cases string with
  | nil =>
    refine ⟨.trie good.slot fun unset => absurd unset payload, isFlat, ?_⟩
    funext key
    cases key with
    | nil => exact if_neg payload
    | cons => rfl
  | cons byte rest =>
    -- the list that is there already
    obtain ⟨goodNext, sameEntry⟩ : GoodList (root.slots byte).getList ∧ (root.slots byte).entry = entryList (root.slots byte).getList := by
      have goodSlot := good.slot byte
      cases isSlot : root.slots byte with
      | nothing => exact ⟨.nil, rfl⟩
      | trie level => exact absurd isSlot (isFlat byte level)
      | list =>
        rw [isSlot] at goodSlot
        cases goodSlot with
        | list goodNodes => exact ⟨goodNodes, rfl⟩
    rw [entry_cons, sameEntry] at absent
    simp only [addBurstLevel]
    refine ⟨good.setSlot byte (.list (.cons payload absent goodNext)), ?_, entry_setSlot root ?_⟩
    · intro other level isLevel
      simp only [TrieLevel.setSlot] at isLevel
      split at isLevel
      case isTrue => cases isLevel
      case isFalse => exact isFlat other level isLevel
    · rw [sameEntry]
      exact entryList_cons _ _

theorem foldl_addBurstLevel {nodes : List ListNode} (goodNodes : GoodList nodes) {root : TrieLevel} (good : root.Good)
    (isFlat : IsFlat root) (absent : ∀ node ∈ nodes, root.entry node.string = none) : (nodes.foldl addBurstLevel root).Good ∧
      ∀ key, (nodes.foldl addBurstLevel root).entry key = (entryList nodes key).or (root.entry key) := by
  induction goodNodes generalizing root with
  | nil => exact ⟨good, fun _ => rfl⟩
  | @cons node nodes payload new goodNodes ih =>
    have bursts := addBurstLevel_spec good isFlat payload (absent node mem_cons_self)
    have still : ∀ other ∈ nodes, (addBurstLevel root node).entry other.string = none := by
      intro other mem
      rw [bursts.entry, update_of_ne (entryList_eq_none.mp new other mem)]
      exact absent other (mem_cons_of_mem _ mem)
    obtain ⟨goodAfter, entryAfter⟩ := ih bursts.good bursts.isFlat still
    refine ⟨goodAfter, ?_⟩
    intro key
    rw [foldl_cons, entryAfter, entryList_cons, bursts.entry]
    by_cases same : key = node.string
    · rw [same, update_self, update_self, new]
      rfl
    · rw [update_of_ne same, update_of_ne same]

/-- A new level has the entries of the list. -/
theorem burstLevel_spec {nodes : List ListNode} (good : GoodList nodes) :
    (burstLevel nodes).Good ∧ (burstLevel nodes).entry = entryList nodes := by
  obtain ⟨goodAfter, entryAfter⟩ := foldl_addBurstLevel good good_empty (nofun) fun _ _ => entry_empty _
  refine ⟨goodAfter, funext fun key => ?_⟩
  rw [burstLevel, entryAfter, entry_empty, Option.or_none]

/-! ## The entry of a key -/

/-- The entry of the key after an insertion. -/
def added (old : Option Entry) (weight payload : BitVec 32) : Entry := ((old.map (·.1)).getD 0 + weight, payload)

/-- The code tells whether the key had an entry, unless its weight has come round to zero. -/
structure Tells (old : Option Entry) (code : InsertCode) : Prop where
  new : old = none → code = .newTerm
  existing : ∀ entry, old = some entry → entry.1 ≠ 0 → code = .existingTerm
  inserted : code ≠ .failedInsert

section Insertion

variable (containerSize : Nat) (weight : BitVec 32) {payload : BitVec 32}

theorem addListNode_spec (set : payload ≠ 0) {nodes : List ListNode} (good : GoodList nodes) (key : List Byte) (count : Nat) :
    GoodList (addListNode weight payload key count nodes).1 ∧ entryList (addListNode weight payload key count nodes).1 =
        update (entryList nodes) key (some (added (entryList nodes key) weight payload)) ∧
      Tells (entryList nodes key) (addListNode weight payload key count nodes).2.1 := by
  induction good generalizing count with
  | nil =>
    have isAdded : added (entryList [] key) weight payload = (weight, payload) := congrArg (·, payload) (BitVec.zero_add weight)
    refine ⟨.cons set rfl .nil, ?_, ⟨fun _ => rfl, nofun, nofun⟩⟩
    rw [addListNode, entryList_cons, isAdded]
  | @cons node nodes payloadSet new good ih =>
    rw [addListNode, entryList_cons node]
    by_cases same : node.string = key
    · subst same
      rw [if_pos rfl, update_self, update_idem]
      exact ⟨.cons set new good, entryList_cons _ _, ⟨nofun, fun _ _ _ => rfl, nofun⟩⟩
    · rw [if_neg same, update_of_ne (Ne.symm same)]
      obtain ⟨goodAfter, entryAfter, tells⟩ := ih (count + 1)
      refine ⟨.cons payloadSet ?_ goodAfter, ?_, tells⟩
      · rw [entryAfter, update_of_ne same, new]
      · rw [entryList_cons, entryAfter, update_comm (Ne.symm same)]

theorem burstIfLong_spec {nodes : List ListNode} (good : GoodList nodes) (listCount : Nat) :
    (burstIfLong containerSize nodes listCount).Good ∧ (burstIfLong containerSize nodes listCount).entry = entryList nodes := by
  rw [burstIfLong]
  split
  case isTrue => exact burstLevel_spec good
  case isFalse => exact ⟨.list good, rfl⟩

/-- An insertion into a level. -/
structure Adds (root after : TrieLevel) (code : InsertCode) (key : List Byte) (weight payload : BitVec 32) : Prop where
  good : after.Good
  entry : after.entry = update root.entry key (some (added (root.entry key) weight payload))
  tells : Tells (root.entry key) code

theorem addLevel_spec (set : payload ≠ 0) {root : TrieLevel} (good : root.Good) (key : List Byte) :
    Adds root (addLevel containerSize weight payload root key).1 (addLevel containerSize weight payload root key).2 key
      weight payload := by
  induction key generalizing root with
  | nil =>
    rw [addLevel]
    refine ⟨.trie good.slot fun unset => absurd unset set, ?_, ?_, ?_, ?_⟩
    · funext other
      cases other with
      | nil =>
        refine (if_neg set).trans ?_
        simp only [LevelOf.entry, added]
        by_cases unset : root.payload = 0
        · rw [if_pos unset, good.unset unset]
          rfl
        · rw [if_neg unset]
          rfl
      | cons => rfl
    · intro isNone
      have unset : root.payload = 0 := by simpa [LevelOf.entry] using isNone
      exact if_pos (good.unset unset)
    · intro entry isEntry nonzero
      have isWeight : root.weight = entry.1 := by
        simp only [LevelOf.entry] at isEntry
        split at isEntry
        case isTrue => cases isEntry
        case isFalse => exact congrArg Prod.fst (Option.some.inj isEntry)
      rw [← isWeight] at nonzero
      exact if_neg nonzero
    · split <;> rintro ⟨⟩
  | cons byte key ih =>
    have goodSlot := good.slot byte
    rw [addLevel]
    cases isNext : root.slots byte with
    | trie =>
      rw [isNext] at goodSlot
      have adds := ih goodSlot
      refine ⟨good.setSlot byte adds.good, entry_setSlot root ?_, ?_⟩
      all_goals rw [entry_cons, isNext]
      · exact adds.entry
      · exact adds.tells
    | list nodes =>
      rw [isNext] at goodSlot
      cases goodSlot with
      | list goodNodes =>
        obtain ⟨goodAfter, entryAfter, tells⟩ := addListNode_spec weight set goodNodes key 1
        obtain ⟨goodBurst, entryBurst⟩ := burstIfLong_spec containerSize goodAfter (addListNode weight payload key 1 nodes).2.2
        refine ⟨good.setSlot byte goodBurst, entry_setSlot root ?_, ?_⟩
        all_goals rw [entry_cons, isNext]
        · exact entryBurst.trans entryAfter
        · exact tells
    | nothing =>
      obtain ⟨goodAfter, entryAfter, tells⟩ := addListNode_spec weight set .nil key 1
      refine ⟨good.setSlot byte (.list goodAfter), entry_setSlot root ?_, ?_⟩
      all_goals rw [entry_cons, isNext]
      · exact entryAfter
      · exact tells

end Insertion

end DarwinNotes.CF.BurstTrie
