import DarwinNotes.Lib.StableSort

/-!
# Canonical order of combining characters (`priortysort`)

A bubble sort by combining class, in which nothing moves past a character of class 0. To swap two neighbours does not change what an
insertion sort with the same comparison makes of the characters, and when there is nothing to swap they are in its order.
-/

namespace DarwinNotes.Xnu.PrioritySort
open List Lib

variable {Character : Type} (priority : Character → Nat)

/-! ## The code -/

/-- The inner loop from `ch1` on, with the class in `p2`: the characters, and whether there were `changes`. -/
def pass (p2 : Nat) (ch1 : Character) : List Character → List Character × Bool
  | [] => ([ch1], false)
  | ch2 :: characters =>
    let p1 := p2
    let p2 := priority ch2
    if p2 < p1 ∧ p2 ≠ 0 then
      let later := pass p1 ch1 characters
      (ch2 :: later.1, true)
    else
      let later := pass p2 ch2 characters
      (ch1 :: later.1, later.2)

/-- One turn of the outer loop. -/
def turn : List Character → List Character × Bool
  | [] => ([], false)
  | ch1 :: characters => pass priority (priority ch1) ch1 characters

/-- The pairs that are out of order, for the termination of the loop. -/
def inversions : List Character → Nat
  | [] => 0
  | ch :: characters => characters.countP (priority · < priority ch) + inversions characters

/-- Two neighbours that are not swapped. -/
def Ordered (ch1 ch2 : Character) : Prop := priority ch2 = 0 ∨ priority ch1 ≤ priority ch2

instance : DecidableRel (Ordered priority) := fun _ _ => inferInstanceAs (Decidable (_ ∨ _))

variable {priority} in
theorem insert_swap {ch1 ch2 : Character} (swaps : ¬ Ordered priority ch1 ch2) (characters : List Character) :
    (characters.orderedInsert (Ordered priority) ch1).orderedInsert (Ordered priority) ch2 =
      (characters.orderedInsert (Ordered priority) ch2).orderedInsert (Ordered priority) ch1 := by
  have ordered : Ordered priority ch2 ch1 := by
    rw [Ordered] at swaps ⊢
    omega
  induction characters with
  | nil => simp [swaps, ordered]
  | cons ch characters ih =>
    have trans : Ordered priority ch1 ch → Ordered priority ch2 ch := by
      rw [Ordered] at swaps
      rw [Ordered, Ordered]
      omega
    by_cases first : Ordered priority ch1 ch
    · simp [first, trans first, swaps, ordered]
    · by_cases second : Ordered priority ch2 ch <;> simp [first, second, swaps, ih]

/-- What a turn makes of the characters. -/
structure Turned (characters : List Character) (result : List Character × Bool) : Prop where
  perm : result.1.Perm characters
  fewer : inversions priority result.1 + result.2.toNat ≤ inversions priority characters
  sameSort : result.1.insertionSort (Ordered priority) = characters.insertionSort (Ordered priority)
  unchanged : result.2 = false → result.1 = characters ∧ characters.insertionSort (Ordered priority) = characters

theorem pass_turned (ch1 : Character) (characters : List Character) :
    Turned priority (ch1 :: characters) (pass priority (priority ch1) ch1 characters) := by
  induction characters generalizing ch1 with
  | nil => exact ⟨.refl _, Nat.le_refl _, rfl, fun _ => ⟨rfl, rfl⟩⟩
  | cons ch2 characters ih =>
    rw [pass]
    split
    case isTrue swaps =>
      obtain ⟨perm, fewer, sameSort, -⟩ := ih ch1
      have notOrdered : ¬ Ordered priority ch1 ch2 := by
        rw [Ordered]
        omega
      refine ⟨(perm.cons _).trans (.swap _ _ _), ?_, ?_, nofun⟩
      · have notSmaller : ¬ priority ch1 < priority ch2 := by omega
        simp only [inversions, perm.countP_eq, countP_cons, swaps.1, notSmaller, decide_true, decide_false, if_true, Bool.toNat_true] at fewer ⊢
        simp
        omega
      · rw [insertionSort_cons, sameSort, insertionSort_cons, insert_swap notOrdered]
        rfl
    case isFalse notSwapped =>
      obtain ⟨perm, fewer, sameSort, unchanged⟩ := ih ch2
      have ordered : Ordered priority ch1 ch2 := by
        rw [Ordered]
        omega
      refine ⟨perm.cons _, ?_, congrArg (orderedInsert _ ch1) sameSort, fun none => ?_⟩
      · simp only [inversions, perm.countP_eq] at fewer ⊢
        omega
      · obtain ⟨same, isSorted⟩ := unchanged none
        rw [insertionSort_cons, isSorted]
        simp [same, ordered]

theorem turn_turned (characters : List Character) : Turned priority characters (turn priority characters) := by
  cases characters with
  | nil => exact ⟨.nil, Nat.le_refl _, rfl, fun _ => ⟨rfl, rfl⟩⟩
  | cons ch1 characters => exact pass_turned priority ch1 characters

/-- `priortysort` -/
def priortysort (characters : List Character) : List Character :=
  if (turn priority characters).2 then priortysort (turn priority characters).1 else (turn priority characters).1
termination_by inversions priority characters
decreasing_by
  rename_i changes
  have fewer := (turn_turned priority characters).fewer
  rwa [changes] at fewer

/-! ## Canonical order -/

/-- The characters of class 0 stay in their places, and each block of others is sorted; with the block in front of the characters. -/
def canonicalOrder (block : List Character) : List Character → List Character
  | [] => stableSort priority block
  | ch :: characters =>
    if priority ch = 0 then stableSort priority block ++ ch :: canonicalOrder [] characters
    else canonicalOrder (block ++ [ch]) characters

theorem priortysort_eq (characters : List Character) : priortysort priority characters = characters.insertionSort (Ordered priority) := by
  fun_induction priortysort priority characters with
  | case1 characters _ ih => exact ih.trans (turn_turned priority characters).sameSort
  | case2 characters unchanged =>
    obtain ⟨same, isSorted⟩ := (turn_turned priority characters).unchanged (Bool.eq_false_of_not_eq_true unchanged)
    exact same.trans isSorted.symm

variable {priority}

/-- A character is put in its place in a sorted block, and does not get past the end of it. -/
theorem insert_stableSort {block tail : List Character} (combining : ∀ ch ∈ block, priority ch ≠ 0)
    (isEnd : ∀ ch ∈ tail.head?, priority ch = 0) (ch : Character) :
    (stableSort priority block ++ tail).orderedInsert (Ordered priority) ch = stableSort priority (ch :: block) ++ tail := by
  obtain ⟨front, back, isSorted, same, smaller⟩ := stableSort_cons priority block ch
  have ascending := pairwise_stableSort priority (ch :: block)
  rw [isSorted, pairwise_append, pairwise_cons] at ascending
  have before : ∀ ch' ∈ front, decide (¬ Ordered priority ch ch') = true := by
    intro ch' mem
    have isMember := (stableSort_perm priority block).mem_iff.mp (same ▸ mem_append_left _ mem)
    simp [Ordered, combining ch' isMember, smaller ch' mem]
  have behind : ∀ ch' ∈ (back ++ tail).head?, Ordered priority ch ch' := by
    cases back with
    | nil => exact fun ch' isHead => .inl (isEnd ch' isHead)
    | cons first =>
      rintro _ ⟨⟩
      exact .inr (ascending.2.1.1 first mem_cons_self)
  rw [isSorted, same, append_assoc, append_assoc, cons_append, orderedInsert_eq_take_drop, takeWhile_append_of_pos before,
    dropWhile_append_of_pos before]
  cases rest : back ++ tail with
  | nil => simp
  | cons first => simp [behind first (by simp [rest])]

theorem insertionSort_block {block tail : List Character} (combining : ∀ ch ∈ block, priority ch ≠ 0)
    (isEnd : ∀ ch ∈ (tail.insertionSort (Ordered priority)).head?, priority ch = 0) :
    (block ++ tail).insertionSort (Ordered priority) = stableSort priority block ++ tail.insertionSort (Ordered priority) := by
  induction block with
  | nil => rw [stableSort, mergeSort_nil, nil_append, nil_append]
  | cons ch block ih =>
    obtain ⟨_, combining⟩ := forall_mem_cons.mp combining
    rw [cons_append, insertionSort_cons, ih combining, insert_stableSort combining isEnd]

theorem insertionSort_eq {block : List Character} (combining : ∀ ch ∈ block, priority ch ≠ 0) (characters : List Character) :
    (block ++ characters).insertionSort (Ordered priority) = canonicalOrder priority block characters := by
  induction characters generalizing block with
  | nil =>
    rw [insertionSort_block combining (by simp)]
    exact append_nil _
  | cons ch characters ih =>
    rw [canonicalOrder]
    split
    case isTrue isBase =>
      have stays : (ch :: characters).insertionSort (Ordered priority) = ch :: characters.insertionSort (Ordered priority) :=
        insertionSort_cons_of_forall_rel _ fun ch' _ => .inr (isBase ▸ Nat.zero_le _)
      rw [insertionSort_block combining (by simp [stays, isBase]), stays]
      exact congrArg (stableSort priority block ++ ch :: ·) (@ih [] (by simp))
    case isFalse notBase =>
      rw [append_cons]
      exact ih (forall_mem_append.mpr ⟨combining, forall_mem_singleton.mpr notBase⟩)

/-- **The result is in canonical order.** -/
theorem priortysort_canonical (priority : Character → Nat) (characters : List Character) :
    (priortysort priority characters).Perm characters ∧ priortysort priority characters = canonicalOrder priority [] characters := by
  rw [priortysort_eq]
  exact ⟨perm_insertionSort _ _, @insertionSort_eq _ priority [] (by simp) characters⟩

/-! ## Canonical equivalence -/

variable (priority) in
/-- Neighbours of different classes, neither of which is 0, may be exchanged. -/
inductive Equivalent : List Character → List Character → Prop
  | refl (text : List Character) : Equivalent text text
  | swap {ch1 ch2 : Character} (swaps : ¬ Ordered priority ch1 ch2) (text : List Character) :
    Equivalent (ch1 :: ch2 :: text) (ch2 :: ch1 :: text)
  | cons (ch : Character) {text text' : List Character} (later : Equivalent text text') : Equivalent (ch :: text) (ch :: text')
  | symm {text text' : List Character} (other : Equivalent text text') : Equivalent text' text
  | trans {a b c : List Character} (first : Equivalent a b) (second : Equivalent b c) : Equivalent a c

theorem equivalent_insert (ch : Character) (text : List Character) :
    Equivalent priority (ch :: text) (text.orderedInsert (Ordered priority) ch) := by
  induction text with
  | nil => exact .refl _
  | cons ch' text ih =>
    rw [orderedInsert_cons]
    split
    case isTrue => exact .refl _
    case isFalse swaps => exact (Equivalent.swap swaps text).trans (ih.cons ch')

theorem equivalent_priortysort (text : List Character) : Equivalent priority text (priortysort priority text) := by
  rw [priortysort_eq]
  induction text with
  | nil => exact .refl _
  | cons ch text ih => exact (ih.cons ch).trans (equivalent_insert ch _)

/-- **Two texts have the same canonical order exactly if they are canonically equivalent.** -/
theorem priortysort_eq_iff {text text' : List Character} :
    priortysort priority text = priortysort priority text' ↔ Equivalent priority text text' := by
  constructor
  · intro same
    apply (equivalent_priortysort text).trans
    rw [same]
    exact (equivalent_priortysort text').symm
  · intro equivalent
    rw [priortysort_eq, priortysort_eq]
    induction equivalent with
    | refl => rfl
    | swap swaps => exact (insert_swap swaps _).symm
    | cons ch _ same => exact congrArg (orderedInsert _ ch) same
    | symm _ same => exact same.symm
    | trans _ _ first second => exact first.trans second

end DarwinNotes.Xnu.PrioritySort
