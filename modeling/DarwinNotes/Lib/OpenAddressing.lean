import DarwinNotes.Lib.Probing

/-!
# Open addressing without tombstones

A table in which every element is reached from its home slot through slots in use.
A lookup therefore may stop at the first empty slot; an element can be put there; and
a whole stretch of used slots up to an empty one can be emptied without cutting off
any of the elements that stay.
-/

namespace DarwinNotes.Lib.OpenAddressing
open Lib.Probing Function

variable {α : Type} {next : Nat → Nat} {cap : Nat} {home : α → Nat} {same : α → α → Prop} {slots : Nat → Option α}

/-- The slots of such a table; no two elements in it are the `same`. -/
structure Ok (next : Nat → Nat) (cap : Nat) (home : α → Nat) (same : α → α → Prop) (slots : Nat → Option α) : Prop where
  reached : ∀ i < cap, ∀ a, slots i = some a → ∃ d < cap, next^[d] (home a) = i ∧ ∀ m < d, slots (next^[m] (home a)) ≠ none
  unique : ∀ i < cap, ∀ j < cap, ∀ a b, slots i = some a → slots j = some b → same a b → i = j

/-- A lookup from `start` ends after `d` moves, at a wanted element or an empty slot. -/
structure Ends (next : Nat → Nat) (cap : Nat) (slots : Nat → Option α) (wanted : α → Prop) (start d : Nat) : Prop where
  short : d < cap
  stops : ∀ a, slots (next^[d] start) = some a → wanted a
  passed : ∀ m < d, ∃ a, slots (next^[m] start) = some a ∧ ¬ wanted a

theorem ok_empty : Ok next cap home same fun _ => none := ⟨nofun, nofun⟩

/-- A lookup in a table with an empty slot ends. -/
theorem exists_ends (cycle : Cycle next cap) (wanted : α → Prop) {start hole : Nat} (inRange : start < cap)
    (inTable : hole < cap) (empty : slots hole = none) : ∃ d, Ends next cap slots wanted start d := by
  classical
  obtain ⟨d, short, stops, passed⟩ :=
    cycle.first inRange inTable (fun i => ∀ a, slots i = some a → wanted a) (fun a used => by rw [empty] at used; cases used)
  refine ⟨d, short, stops, fun m before => ?_⟩
  have := passed m before
  push Not at this
  exact this

variable (ok : Ok next cap home same slots)
include ok

variable {i : Nat}

/-- **What is not met before the first empty slot is not in the table.** -/
theorem Ok.absent {wanted : α → Prop} {start d : Nat} (homes : ∀ a, wanted a → home a = start) (ends : Ends next cap slots wanted start d)
    (empty : slots (next^[d] start) = none) (inRange : i < cap) {a : α} (used : slots i = some a) : ¬ wanted a := by
  intro isWanted
  obtain ⟨k, -, there, through⟩ := ok.reached i inRange a used
  rw [homes a isWanted] at there through
  rcases Nat.lt_trichotomy d k with before | rfl | behind
  · exact through d before empty
  · rw [there, used] at empty
    cases empty
  · obtain ⟨b, here, other⟩ := ends.passed k behind
    rw [there, used] at here
    cases here
    exact other isWanted

/-- Putting an element into a slot that is reached from its home, and that has the only element that is the same. -/
theorem Ok.write {b : α} {d : Nat} (short : d < cap) (there : next^[d] (home b) = i) (through : ∀ m < d, slots (next^[m] (home b)) ≠ none)
    (new : ∀ j < cap, ∀ a, slots j = some a → same b a ∨ same a b → j = i) : Ok next cap home same (update slots i (some b)) := by
  have kept : ∀ j, slots j ≠ none → update slots i (some b) j ≠ none := by
    intro j inUse
    by_cases here : j = i
    · rw [here, update_self]
      exact Option.some_ne_none b
    · rwa [update_of_ne here]
  refine ⟨fun j inRange a used => ?_, fun j inRange k inRange' a a' used used' equal => ?_⟩
  · by_cases here : j = i
    · rw [here, update_self] at used
      cases used
      exact ⟨d, short, there.trans here.symm, fun m before => kept _ (through m before)⟩
    · rw [update_of_ne here] at used
      obtain ⟨k, short, there, through⟩ := ok.reached j inRange a used
      exact ⟨k, short, there, fun m before => kept _ (through m before)⟩
  · have unique := ok.unique j inRange k inRange' a a'
    by_cases here : j = i <;> by_cases here' : k = i <;> grind

/-- Putting an element where the lookup for it ended. -/
theorem Ok.insert {b : α} {d : Nat} {wanted : α → Prop} (isWanted : ∀ a, same b a ∨ same a b → wanted a) (homes : ∀ a, wanted a → home a = home b)
    (ends : Ends next cap slots wanted (home b) d) (empty : slots (next^[d] (home b)) = none) : Ok next cap home same (update slots (next^[d] (home b)) (some b)) := by
  refine ok.write ends.short rfl (fun m before => ?_) fun j inRange a used equal => ?_
  · obtain ⟨a, passed, -⟩ := ends.passed m before
    rw [passed]
    exact Option.some_ne_none a
  · exact absurd (isWanted a equal) (ok.absent homes ends empty inRange used)

/-- An element gives its place to one with the same home. -/
theorem Ok.replace {a b : α} (inRange : i < cap) (used : slots i = some a) (homes : home b = home a)
    (equal : ∀ c, same b c ∨ same c b → same c a) : Ok next cap home same (update slots i (some b)) := by
  obtain ⟨d, short, there, through⟩ := ok.reached i inRange a used
  rw [← homes] at there through
  exact ok.write short there through fun j inTable c usedC isSame => ok.unique j inTable i inRange c a usedC used (equal c isSame)

/-- The slots of a stretch are emptied. -/
def clear (next : Nat → Nat) (start chain : Nat) (slots : Nat → Option α) (i : Nat) : Option α :=
  if ∃ m < chain, next^[m] start = i then none else slots i

/-- **A stretch up to an empty slot can be emptied.** -/
theorem Ok.clear {start chain : Nat} (empty : slots (next^[chain] start) = none) :
    Ok next cap home same (clear next start chain slots) := by
  have outside : ∀ {i a}, OpenAddressing.clear next start chain slots i = some a →
      slots i = some a ∧ ¬ ∃ m < chain, next^[m] start = i := by
    intro i a used
    unfold OpenAddressing.clear at used
    split at used
    next => cases used
    next out => exact ⟨used, out⟩
  refine ⟨fun i inRange a used => ?_, fun i inRange j inRange' a b used used' equal => ?_⟩
  · obtain ⟨used, out⟩ := outside used
    obtain ⟨d, short, there, through⟩ := ok.reached i inRange a used
    refine ⟨d, short, there, fun p before => ?_⟩
    unfold OpenAddressing.clear
    split
    next inside =>
      -- a path that enters the stretch would have to leave it through the empty slot
      obtain ⟨m, early, at_⟩ := inside
      exfalso
      have onward : ∀ k, next^[p + k] (home a) = next^[m + k] start := by
        intro k
        rw [Nat.add_comm p, iterate_add_apply, ← at_, ← iterate_add_apply, Nat.add_comm k]
      have end_ := onward (d - p)
      rw [Nat.add_sub_cancel' before.le, there] at end_
      by_cases stays : m + (d - p) < chain
      · exact out ⟨m + (d - p), stays, end_.symm⟩
      · have hole := onward (chain - m)
        rw [Nat.add_sub_cancel' early.le] at hole
        by_cases last : p + (chain - m) = d
        · rw [last, there] at hole
          rw [← hole, used] at empty
          cases empty
        · exact through (p + (chain - m)) (by omega) (by rw [hole, empty])
    next => exact through p before
  · exact ok.unique i inRange j inRange' a b (outside used).1 (outside used').1 equal

omit ok

/-- The number of slots in use. -/
def used (slots : Nat → Option α) (cap : Nat) : Nat := Probing.count (fun i => (slots i).isSome = true) cap

theorem used_insert (inRange : i < cap) (empty : slots i = none) (b : α) : used (update slots i (some b)) cap = used slots cap + 1 := by
  refine count_add_one inRange (by simp [empty]) (by simp) fun j _ other => ?_
  rw [update_of_ne other]

theorem used_replace {a : α} (inUse : slots i = some a) (b : α) : used (update slots i (some b)) cap = used slots cap := by
  unfold used Probing.count
  congr 1
  refine Finset.filter_congr fun j _ => ?_
  by_cases here : j = i
  · simp [here, inUse]
  · rw [update_of_ne here]

theorem used_clear (cycle : Cycle next cap) {start chain : Nat} (inRange : start < cap) (short : chain < cap)
    (inUse : ∀ m < chain, slots (next^[m] start) ≠ none) : used (clear next start chain slots) cap + chain = used slots cap := by
  have parts : (Finset.range cap).filter (fun i => (slots i).isSome = true) =
      (Finset.range cap).filter (fun i => (clear next start chain slots i).isSome = true) ∪
        (Finset.range chain).image fun m => next^[m] start := by
    ext i
    simp only [Finset.mem_filter, Finset.mem_range, Finset.mem_union, Finset.mem_image]
    by_cases inside : ∃ m < chain, next^[m] start = i
    · obtain ⟨m, early, rfl⟩ := inside
      have := inUse m early
      simp only [cycle.iterate_lt inRange m, Option.isSome_iff_ne_none.mpr this, true_and, true_iff]
      exact .inr ⟨m, early, rfl⟩
    · have kept : clear next start chain slots i = slots i := if_neg inside
      simp [kept, inside]
  have apart : Disjoint ((Finset.range cap).filter fun i => (clear next start chain slots i).isSome = true)
      ((Finset.range chain).image fun m => next^[m] start) := by
    refine Finset.disjoint_left.mpr fun i mem inside => ?_
    obtain ⟨m, early, rfl⟩ := Finset.mem_image.mp inside
    have cleared := (Finset.mem_filter.mp mem).2
    rw [clear, if_pos ⟨m, Finset.mem_range.mp early, rfl⟩] at cleared
    cases cleared
  unfold used Probing.count
  rw [parts, Finset.card_union_of_disjoint apart, cycle.card_walk inRange short]

/-- The elements of the table, in the order of their slots. -/
def elements (slots : Nat → Option α) (cap : Nat) : List α := (List.range cap).filterMap slots

theorem mem_elements {a : α} : a ∈ elements slots cap ↔ ∃ i < cap, slots i = some a := by simp [elements]

theorem length_elements (slots : Nat → Option α) (cap : Nat) : (elements slots cap).length = used slots cap := by
  have asList : (Finset.range cap).filter (fun i => (slots i).isSome = true) =
      ((List.range cap).filter fun i => (slots i).isSome).toFinset := by
    ext i
    simp
  rw [elements, List.length_filterMap_eq_countP, List.countP_eq_length_filter, used, Probing.count, asList,
    List.toFinset_card_of_nodup (List.nodup_range.filter _)]

/-- No two elements are the same. -/
theorem Ok.pairwise_elements (ok : Ok next cap home same slots) : (elements slots cap).Pairwise fun a b => ¬ same a b := by
  refine List.pairwise_filterMap.mpr (List.pairwise_lt_range.imp_of_mem ?_)
  intro i j inRange inRange' less a used b used' equal
  exact less.ne (ok.unique i (List.mem_range.mp inRange) j (List.mem_range.mp inRange') a b used used' equal)

end DarwinNotes.Lib.OpenAddressing
