import DarwinNotes.Objc.MethodLists.Model

/-!
# What a lookup in method lists finds

The binary search with its rewinding finds the first method of the selector, as the
linear search does; fixing a list up does not change which method that is. A lookup
in a class is therefore the first match in the concatenation of its lists
(`answer_eq`), and the operations on lists are followed through `entriesOf`.
-/

namespace DarwinNotes.Objc.MethodLists
open List

open Lib

/-! ## Binary search -/

section Bisect

variable {entries : List Method} {key : Nat}

theorem name_le (sorted : entries.Pairwise fun a b => a.name ≤ b.name) {i j : Nat} (le : i ≤ j) {a b : Method}
    (atI : entries[i]? = some a) (atJ : entries[j]? = some b) : a.name ≤ b.name := by
  obtain ⟨iBound, rfl⟩ := List.getElem?_eq_some_iff.mp atI
  obtain ⟨jBound, rfl⟩ := List.getElem?_eq_some_iff.mp atJ
  rcases Nat.lt_or_eq_of_le le with lt | rfl
  · exact pairwise_iff_getElem.mp sorted i j iBound jBound lt
  · exact Nat.le_refl _

variable {probe : Nat} (matches_ : (entries[probe]?).map Method.name = some key)
include matches_

/-- Rewinding stops at a match without a match right before it. -/
theorem rewind_spec :
    (entries[rewind entries key probe]?).map Method.name = some key ∧
      ∀ before, rewind entries key probe = before + 1 → (entries[before]?).map Method.name ≠ some key := by
  induction probe with
  | zero => exact ⟨matches_, nofun⟩
  | succ _ ih =>
    rw [rewind]
    split
    next earlier => exact ih earlier
    next differs =>
      refine ⟨matches_, fun before same => ?_⟩
      cases same
      exact differs

theorem rewind_eq_findIdx (sorted : entries.Pairwise fun a b => a.name ≤ b.name) :
    entries.findIdx? (fun m => m.name = key) = some (rewind entries key probe) := by
  obtain ⟨found, stops⟩ := rewind_spec matches_
  obtain ⟨m, at_, named⟩ := Option.map_eq_some_iff.mp found
  obtain ⟨bound, value⟩ := List.getElem?_eq_some_iff.mp at_
  rw [findIdx?_eq_some_iff_getElem]
  refine ⟨bound, by simp [value, named], fun j before => ?_⟩
  obtain ⟨last, isLast⟩ : ∃ last, rewind entries key probe = last + 1 := ⟨rewind entries key probe - 1, by omega⟩
  have jBound : j < entries.length := by omega
  have lastBound : last < entries.length := by omega
  have other := stops last isLast
  have low := name_le sorted (show j ≤ last by omega) (getElem?_eq_getElem jBound) (getElem?_eq_getElem lastBound)
  have high := name_le sorted (show last ≤ rewind entries key probe by omega) (getElem?_eq_getElem lastBound) at_
  rw [getElem?_eq_getElem lastBound] at other
  simp only [Option.map_some, ne_eq, Option.some.injEq] at other
  simp only [decide_eq_true_eq]
  omega

omit matches_

/-- The loop keeps every match inside `[base, base + count)`. -/
theorem bisect_eq (sorted : entries.Pairwise fun a b => a.name ≤ b.name) (base count : Nat)
    (inside : base + count ≤ entries.length) (below : ∀ i m, entries[i]? = some m → i < base → m.name < key)
    (above : ∀ i m, entries[i]? = some m → base + count ≤ i → key < m.name) :
    bisect entries key base count = entries.findIdx? fun m => m.name = key := by
  induction count using Nat.strong_induction_on generalizing base with
  | _ count ih =>
    rw [bisect]
    split
    next empty =>
      rw [eq_comm, findIdx?_eq_none_iff]
      intro m mem
      obtain ⟨i, bound, rfl⟩ := getElem_of_mem mem
      have at_ := getElem?_eq_getElem bound
      rcases Nat.lt_or_ge i base with left | _
      · have := below i _ at_ left
        simp only [decide_eq_false_iff_not]
        omega
      · have := above i _ at_ (by omega)
        simp only [decide_eq_false_iff_not]
        omega
    next more =>
      have bound : base + count / 2 < entries.length := by omega
      have at_ := getElem?_eq_getElem bound
      simp only [at_]
      split
      next same => exact (rewind_eq_findIdx (by rw [at_, same]; rfl) sorted).symm
      next differs =>
        split
        next smaller =>
          refine ih ((count - 1) / 2) (by omega) (base + count / 2 + 1) (by omega) (fun i m at' before => ?_)
            fun i m at' behind => above i m at' (by omega)
          exact Nat.lt_of_le_of_lt (name_le sorted (by omega) at' at_) smaller
        next larger =>
          refine ih (count / 2) (by omega) base (by omega) below fun i m at' behind => ?_
          have := name_le sorted (by omega) at_ at'
          omega

end Bisect

/-- **Both searches find the first method of the selector.** -/
theorem searchMethodList_eq (mlist : MethodList) (sel : Nat) :
    searchMethodList mlist sel = mlist.entries.findIdx? fun m => m.name = sel := by
  unfold searchMethodList
  split
  next fast =>
    have fixedUp : mlist.isFixedUp = true := (Bool.and_eq_true_iff.mp fast).1
    refine bisect_eq (mlist.sorted fixedUp) 0 _ (by omega) (fun i m _ before => absurd before (Nat.not_lt_zero i)) ?_
    intro i m at_ behind
    rw [getElem?_eq_none (by omega)] at at_
    cases at_
  next => rfl

theorem bind_findIdx? (p : Method → Bool) (entries : List Method) : (entries.findIdx? p).bind (entries[·]?) = entries.find? p := by
  cases found : entries.findIdx? p with
  | none => exact (find?_eq_none.mpr fun m mem => by simp [findIdx?_eq_none_iff.mp found m mem]).symm
  | some index =>
    obtain ⟨bound, named, first⟩ := findIdx?_eq_some_iff_getElem.mp found
    rw [Option.bind_some, getElem?_eq_getElem bound, eq_comm]
    exact find?_eq_some_iff_getElem.mpr ⟨named, index, bound, rfl, fun j before => by simpa using first j before⟩

section Sorted

variable (register : Nat → Nat) (mlist : MethodList) (sel : Nat)

/-- The methods of a category's list under their selectors, in the list's own order. -/
def uniquedEntries : List Method :=
  if mlist.isFixedUp || mlist.isUniqued then mlist.entries
  else mlist.entries.map fun meth => { meth with name := register meth.name }

/-- Preparing a list does not change its first method of a selector. -/
theorem find?_prepareMethodList : (prepareMethodList register mlist).entries.find? (fun m => m.name = sel) =
      (uniquedEntries register mlist).find? fun m => m.name = sel := by
  unfold prepareMethodList uniquedEntries
  split
  next fixedUp => rw [fixedUp, Bool.true_or, if_pos rfl]
  next loose =>
    rw [Bool.not_eq_true _ |>.mp loose, Bool.false_or]
    exact find?_stableSort Method.name _ sel

/-- The indexes that are read when a match is rewound -/
def rewindReads (entries : List Method) (keyValue : Nat) : (probe : Nat) → List Nat
  | 0 => []
  | probe + 1 => probe :: if (entries[probe]?).map Method.name = some keyValue then rewindReads entries keyValue probe else []

/-- The indexes that the loop of `findMethodInSortedMethodList` reads -/
def bisectReads (entries : List Method) (keyValue base count : Nat) : List Nat :=
  if count = 0 then []
  else
    let probe := base + count / 2
    probe :: match entries[probe]? with
      | none => []
      | some m =>
        if keyValue = m.name then rewindReads entries keyValue probe
        else if m.name < keyValue then bisectReads entries keyValue (probe + 1) ((count - 1) / 2)
        else bisectReads entries keyValue base (count / 2)
termination_by count

theorem rewindReads_lt (entries : List Method) (key probe : Nat) : ∀ i ∈ rewindReads entries key probe, i < probe := by
  induction probe with
  | zero => exact nofun
  | succ _ ih =>
    rw [rewindReads, forall_mem_cons]
    refine ⟨Nat.lt_succ_self _, fun i mem => ?_⟩
    split at mem
    · exact Nat.lt_succ_of_lt (ih i mem)
    · cases mem

theorem bisectReads_lt (entries : List Method) (key base count : Nat) : ∀ i ∈ bisectReads entries key base count, i < base + count := by
  fun_induction bisectReads entries key base count with
  | case1 => exact nofun
  | case2 _ _ _ probe right left =>
    rw [forall_mem_cons]
    refine ⟨by omega, fun i mem => ?_⟩
    split at mem
    case h_1 => cases mem
    case h_2 =>
    split at mem
    · have := rewindReads_lt entries key probe i mem
      omega
    · split at mem
      · have := right i mem
        omega
      · have := left i mem
        omega

/-- **Binary search agrees with linear search**, and does not read outside of the list. -/
theorem sorted_search_agrees (loose : MethodList.isFixedUp mlist = false) :
    let list := fixupMethodList register mlist
    findMethodInSortedMethodList sel list = (list.entries.findIdx? fun m => m.name = sel) ∧
      searchMethodList { list with hasExpectedSize := false } sel = findMethodInSortedMethodList sel list ∧
      (findMethodInSortedMethodList sel list).bind (list.entries[·]?) = (uniquedEntries register mlist).find? (fun m => m.name = sel) ∧
      (findMethodInSortedMethodList sel list = none ↔ ∀ m ∈ uniquedEntries register mlist, m.name ≠ sel) ∧
      ∀ i ∈ bisectReads list.entries sel 0 list.entries.length, i < list.entries.length := by
  intro list
  have found : findMethodInSortedMethodList sel list = list.entries.findIdx? fun m => m.name = sel :=
    searchMethodList_eq { list with hasExpectedSize := true } sel
  have first : list.entries.find? (fun m => m.name = sel) = (uniquedEntries register mlist).find? fun m => m.name = sel := by
    rw [← find?_prepareMethodList, prepareMethodList, loose, if_neg Bool.false_ne_true]
  refine ⟨found, found.symm, ?_, ?_, ?_⟩
  · rw [found, bind_findIdx?, first]
  · have absent : list.entries.find? (fun m => m.name = sel) = none ↔ (uniquedEntries register mlist).find? (fun m => m.name = sel) = none := by
      rw [first]
    simpa [found] using absent
  · simpa using bisectReads_lt list.entries sel 0 list.entries.length

end Sorted

/-- Two methods of one selector: the first of them is found. -/
theorem sorted_search_agrees_two :
    let list := fixupMethodList id ⟨[⟨7, 0, 1⟩, ⟨5, 0, 2⟩, ⟨5, 0, 3⟩], false, false, true, nofun⟩
    (findMethodInSortedMethodList 5 list).bind (list.entries[·]?) = some ⟨5, 0, 2⟩ :=
  (sorted_search_agrees id ⟨[⟨7, 0, 1⟩, ⟨5, 0, 2⟩, ⟨5, 0, 3⟩], false, false, true, nofun⟩ 5 rfl).2.2.1

/-! ## Lists of lists -/

namespace ListArray

variable {L : Type}

/-- **The added lists come first, whatever the representation was.** -/
theorem lists_attachLists (fresh : Nat → L) (self : ListArray L) (addedLists : List L) :
    (self.attachLists fresh addedLists).lists = addedLists ++ self.lists := by
  unfold attachLists
  dsimp only
  split
  next empty => rw [length_eq_zero_iff.mp empty, nil_append]
  next some =>
    cases self with
    | array lists =>
      simp only [ListArray.lists]
      rw [Nat.add_comm, load_append, load_store_same _ _ rfl, load_store_disjoint _ (by omega), Nat.zero_add,
        load_store_same _ _ (length_load _ _ _)]
      congr 1
      rw [load_eq_iff]
      intro i bound
      rw [Nat.zero_add, if_pos bound]
    | list oldList =>
      dsimp only
      split
      next one =>
        obtain ⟨_, rfl⟩ := length_eq_one_iff.mp one.2
        rw [Option.isNone_iff_eq_none.mp one.1]
        rfl
      next =>
        have size : oldList.toList.length = if oldList.isSome then 1 else 0 := by cases oldList <;> rfl
        simp only [ListArray.lists]
        rw [Nat.add_comm, load_append, load_store_same _ _ rfl, load_store_disjoint _ (by omega), Nat.zero_add, load_store_same _ _ size]

theorem lists_modify (self : ListArray L) (i : Nat) (f : L → L) : (self.modify i f).lists = self.lists.modify i f := by
  cases self with
  | list only =>
    cases only with
    | none => simp [ListArray.modify, ListArray.lists]
    | some => cases i <;> simp [ListArray.modify, ListArray.lists]
  | array lists count =>
    apply ext_getElem?
    intro j
    simp only [ListArray.modify, ListArray.lists, load, getElem?_map, getElem?_modify, Nat.zero_add]
    by_cases bound : j < count
    · rw [getElem?_range bound]
      by_cases same : i = j
      · simp [same]
      · simp [same, Ne.symm same]
    · rw [getElem?_eq_none (by simpa using bound)]
      rfl

end ListArray

/-! ## The answer of a class -/

variable {P Q : Type}

namespace ClassData

/-- The method a class answers a selector with. -/
def answer (data : ClassData P Q) (sel : Nat) : Option Method := (data.getMethodNoSuper sel).map Prod.snd

/-- The methods of the lists, in the order they are searched. -/
def entriesOf (lists : List MethodList) : List Method := lists.flatMap MethodList.entries

theorem find?_entriesOf_cons (p : Method → Bool) (mlist : MethodList) (lists : List MethodList) :
    (entriesOf (mlist :: lists)).find? p = (mlist.entries.find? p).or ((entriesOf lists).find? p) := by
  rw [entriesOf, flatMap_cons, find?_append, entriesOf]

theorem findInLists_eq (sel i : Nat) (lists : List MethodList) :
    (findInLists sel i lists).map Prod.snd = (entriesOf lists).find? fun m => m.name = sel := by
  induction lists generalizing i with
  | nil => rfl
  | cons mlist _ ih =>
    rw [find?_entriesOf_cons, findInLists, searchMethodList_eq, ← bind_findIdx?]
    cases found : mlist.entries.findIdx? fun m => m.name = sel with
    | none => exact ih (i + 1)
    | some =>
      have bound := (findIdx?_eq_some_iff_getElem.mp found).1
      simp [bound]

theorem answer_eq (data : ClassData P Q) (sel : Nat) :
    data.answer sel = (entriesOf data.methods.lists).find? fun m => m.name = sel := findInLists_eq sel 0 _

/-- Allocating the extension keeps the lists. -/
theorem lists_extAllocIfNeeded (env : Env P Q) (data : ClassData P Q) : (data.extAllocIfNeeded env).methods.lists = data.methods.lists ∧
    (data.extAllocIfNeeded env).properties.lists = data.properties.lists ∧
    (data.extAllocIfNeeded env).protocols.lists = data.protocols.lists := by
  unfold extAllocIfNeeded methods properties protocols
  cases data.ext with
  | some => exact ⟨rfl, rfl, rfl⟩
  | none =>
    simp only [ListArray.lists_attachLists]
    simp [ListArray.lists]

end ClassData

end DarwinNotes.Objc.MethodLists
