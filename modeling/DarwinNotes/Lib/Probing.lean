import Mathlib

/-!
# Probe sequences of open addressing

A probe order on the slots `0 … cap - 1` is a function `next` that visits every
slot before it returns to the one it started from. `scan` is the loop of a table
that leaves it at the first slot with a given property, and gives up when it is
back at the start.
-/

namespace DarwinNotes.Lib.Probing
open Function

/-- `next` walks through all slots below `cap`, from each of them. -/
structure Cycle (next : Nat → Nat) (cap : Nat) : Prop where
  closed : ∀ i < cap, next i < cap
  covers : ∀ i < cap, ∀ j < cap, ∃ k < cap, next^[k] i = j

section Cycle

variable {next : Nat → Nat} {cap : Nat} (cycle : Cycle next cap)
include cycle

theorem Cycle.iterate_lt {i : Nat} (inRange : i < cap) (k : Nat) : next^[k] i < cap := by
  induction k with
  | zero => exact inRange
  | succ _ ih =>
    rw [iterate_succ_apply']
    exact cycle.closed _ ih

/-- A walk is not back at its start before it has seen every slot. -/
theorem Cycle.le_period {i k : Nat} (inRange : i < cap) (moved : 0 < k) (back : next^[k] i = i) : cap ≤ k := by
  have seen : Finset.range cap ⊆ (Finset.range k).image (fun m => next^[m] i) := by
    intro j inTable
    obtain ⟨m, _, there⟩ := cycle.covers i inRange j (Finset.mem_range.mp inTable)
    refine Finset.mem_image.mpr ⟨m % k, Finset.mem_range.mpr (Nat.mod_lt _ moved), ?_⟩
    have periodic : Function.IsPeriodicPt next k i := back
    exact (periodic.iterate_mod_apply m).trans there
  calc cap = (Finset.range cap).card := (Finset.card_range cap).symm
    _ ≤ ((Finset.range k).image (fun m => next^[m] i)).card := Finset.card_le_card seen
    _ ≤ k := Finset.card_image_le.trans (Finset.card_range k).le

/-- A walk of less than `cap` moves sees a slot once. -/
theorem Cycle.iterate_inj {start m k : Nat} (inRange : start < cap) (less : m ≤ k) (short : k < cap)
    (same : next^[m] start = next^[k] start) : m = k := by
  by_contra different
  have back : next^[k - m] (next^[m] start) = next^[m] start := by rw [← iterate_add_apply, Nat.sub_add_cancel less, same]
  have := cycle.le_period (cycle.iterate_lt inRange m) (by omega) back
  omega

/-- As many slots as moves -/
theorem Cycle.card_walk {start k : Nat} (inRange : start < cap) (short : k < cap) :
    ((Finset.range k).image fun m => next^[m] start).card = k := by
  rw [Finset.card_image_of_injOn, Finset.card_range]
  intro m early m' early' same
  have early := Finset.mem_range.mp (Finset.mem_coe.mp early)
  have early' := Finset.mem_range.mp (Finset.mem_coe.mp early')
  rcases Nat.le_total m m' with less | more
  · exact cycle.iterate_inj inRange less (by omega) same
  · exact (cycle.iterate_inj inRange more (by omega) same.symm).symm

/-- If some slot has a property, then one is the first to have it. -/
theorem Cycle.first {start target : Nat} (inRange : start < cap) (inTable : target < cap) (p : Nat → Prop) [DecidablePred p]
    (holds : p target) : ∃ k < cap, p (next^[k] start) ∧ ∀ m < k, ¬ p (next^[m] start) := by
  obtain ⟨k, small, there⟩ := cycle.covers start inRange target inTable
  have found : ∃ m, p (next^[m] start) := ⟨k, there ▸ holds⟩
  refine ⟨Nat.find found, ?_, Nat.find_spec found, fun m => Nat.find_min found⟩
  exact (Nat.find_min' found (there ▸ holds)).trans_lt small

end Cycle

/-! ## The two orders in use -/

theorem iterate_succ_mod (cap i k : Nat) (inRange : i < cap) : (fun i => (i + 1) % cap)^[k] i = (i + k) % cap := by
  induction k with
  | zero => exact (Nat.mod_eq_of_lt inRange).symm
  | succ _ ih => rw [iterate_succ_apply', ih, Nat.mod_add_mod, Nat.add_assoc]

/-- Upwards, from the last slot to the first. -/
theorem cycle_up (cap : Nat) : Cycle (fun i => (i + 1) % cap) cap where
  closed i inRange := Nat.mod_lt _ (by omega)
  covers i inRange j inTable := by
    by_cases below : i ≤ j
    · refine ⟨j - i, by omega, ?_⟩
      rw [iterate_succ_mod cap i _ inRange, Nat.add_sub_cancel' below, Nat.mod_eq_of_lt inTable]
    · refine ⟨j + cap - i, by omega, ?_⟩
      have sum : i + (j + cap - i) = j + cap := by omega
      rw [iterate_succ_mod cap i _ inRange, sum, Nat.add_mod_right, Nat.mod_eq_of_lt inTable]

theorem iterate_pred (last i k : Nat) (small : k ≤ i) : (fun i => if i = 0 then last else i - 1)^[k] i = i - k := by
  induction k with
  | zero => rfl
  | succ k ih =>
    rw [iterate_succ_apply', ih (by omega)]
    have positive : i - k ≠ 0 := by omega
    simp only [positive, if_false]
    omega

/-- Downwards, from the first slot to the last. -/
theorem cycle_down (last : Nat) : Cycle (fun i => if i = 0 then last else i - 1) (last + 1) where
  closed i inRange := by split <;> omega
  covers i inRange j inTable := by
    by_cases below : j ≤ i
    · refine ⟨i - j, by omega, ?_⟩
      rw [iterate_pred last i _ (by omega)]
      omega
    · refine ⟨(last - j) + 1 + i, by omega, ?_⟩
      rw [iterate_add_apply, iterate_pred last i i le_rfl, Nat.sub_self, iterate_succ_apply]
      simp only [if_true]
      rw [iterate_pred last last _ (by omega)]
      omega

/-! ## How many slots are in use -/

/-- The number of slots below `cap` with a property. -/
def count (p : Nat → Prop) [DecidablePred p] (cap : Nat) : Nat := ((Finset.range cap).filter p).card

variable {p : Nat → Prop} {cap : Nat}

theorem count_eq_zero [DecidablePred p] (unused : ∀ i < cap, ¬ p i) : count p cap = 0 := by
  rw [count, Finset.card_eq_zero, Finset.filter_eq_empty_iff]
  exact fun i inRange => unused i (Finset.mem_range.mp inRange)

theorem exists_not_of_count_lt [DecidablePred p] (few : count p cap < cap) : ∃ i < cap, ¬ p i := by
  by_contra full
  push Not at full
  have all := Finset.filter_true_of_mem fun i inRange => full i (Finset.mem_range.mp inRange)
  rw [count, all, Finset.card_range] at few
  exact few.false

/-- A walk through slots in use only is at most as long as there are such slots. -/
theorem Cycle.le_count {next : Nat → Nat} (cycle : Cycle next cap) [DecidablePred p] {start k : Nat} (inRange : start < cap)
    (short : k < cap) (used : ∀ m < k, p (next^[m] start)) : k ≤ count p cap := by
  have seen : (Finset.range k).image (fun m => next^[m] start) ⊆ (Finset.range cap).filter p := by
    intro slot inWalk
    obtain ⟨m, early, rfl⟩ := Finset.mem_image.mp inWalk
    exact Finset.mem_filter.mpr
      ⟨Finset.mem_range.mpr (cycle.iterate_lt inRange m), used m (Finset.mem_range.mp early)⟩
  calc k = ((Finset.range k).image (fun m => next^[m] start)).card := (cycle.card_walk inRange short).symm
    _ ≤ count p cap := Finset.card_le_card seen

/-- One more slot gets the property. -/
theorem count_add_one {q : Nat → Prop} [DecidablePred p] [DecidablePred q] {j : Nat} (inRange : j < cap) (before : ¬ p j) (after : q j)
    (others : ∀ i < cap, i ≠ j → (q i ↔ p i)) : count q cap = count p cap + 1 := by
  have grown : (Finset.range cap).filter q = insert j ((Finset.range cap).filter p) := by
    ext i
    simp only [Finset.mem_filter, Finset.mem_range, Finset.mem_insert]
    by_cases same : i = j
    · subst same
      simp [inRange, after]
    · constructor
      · intro ⟨small, has⟩
        exact Or.inr ⟨small, (others i small same).mp has⟩
      · intro has
        obtain ⟨small, has⟩ := has.resolve_left same
        exact ⟨small, (others i small same).mpr has⟩
  have absent : j ∉ (Finset.range cap).filter p := by simp [before]
  rw [count, grown, Finset.card_insert_of_notMem absent, count]

/-! ## The scan -/

inductive Scan
  /-- the loop is left at this slot, after so many moves -/
  | stopped (index displacement : Nat)
  /-- the loop is back at the first slot -/
  | wrapped
  | outOfFuel
  deriving DecidableEq, Repr

/-- `do { if (stop) leave } while ((index = next(index)) != begin)`. -/
def scan (next : Nat → Nat) (stop : Nat → Nat → Bool) (start : Nat) : Nat → Nat → Nat → Scan
  | 0, _, _ => .outOfFuel
  | fuel + 1, index, displacement =>
    if stop index displacement then .stopped index displacement
    else if next index = start then .wrapped
    else scan next stop start fuel (next index) (displacement + 1)

/-- **A scan is left at the first slot that stops it**, before it is back at its start. -/
theorem scan_stopped {next : Nat → Nat} {start k fuel : Nat} {stop : Nat → Nat → Bool} (cycle : Cycle next cap) (inRange : start < cap)
    (small : k < cap) (stops : stop (next^[k] start) k = true) (before : ∀ m < k, stop (next^[m] start) m = false) (enough : k < fuel)
    : scan next stop start fuel start 0 = .stopped (next^[k] start) k := by
  -- the loop after `m` moves, by induction on the moves that are left
  suffices afterMoves : ∀ left m fuel, m + left = k → left < fuel →
      scan next stop start fuel (next^[m] start) m = .stopped (next^[k] start) k from
    afterMoves k 0 fuel (Nat.zero_add k) enough
  intro left
  induction left with
  | zero =>
    intro m fuel moves enough
    obtain ⟨fuel, rfl⟩ := Nat.exists_eq_succ_of_ne_zero (Nat.ne_of_gt enough)
    obtain rfl : m = k := moves
    rw [scan, if_pos stops]
  | succ _ ih =>
    intro m fuel moves enough
    obtain ⟨fuel, rfl⟩ := Nat.exists_eq_succ_of_ne_zero (Nat.ne_of_gt (Nat.zero_lt_of_lt enough))
    have onward := (iterate_succ_apply' next m start).symm
    have away : next^[m + 1] start ≠ start := by
      intro back
      have := cycle.le_period inRange (Nat.succ_pos m) back
      omega
    rw [scan, before m (by omega), onward, if_neg away]
    exact ih (m + 1) fuel (by omega) (by omega)

end DarwinNotes.Lib.Probing
