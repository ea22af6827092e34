import DarwinNotes.CF.Sort.SplitMerge
import DarwinNotes.Lib.BlockTransposition
import DarwinNotes.Lib.Buffer
import DarwinNotes.Lib.ParallelFor

/-!
# `CFSortIndexes`

The concurrent path `__CFSortIndexesN` cuts the index buffer into sections of
`sz` values, sorts each, and runs `(num_sect + 1) / 2` rounds of even and odd
merge-splits between `listp` and the buffers `tmps`. The iterations of a
`dispatch_apply` run in whatever order the schedule gives for that call; what
`malloc` returns is arbitrary.
-/

namespace DarwinNotes.CF.Sort
open Lib Lib.BlockTransposition Function

/-- The orders in which the calls of `dispatch_apply` run their iterations. -/
abbrev Schedule := Nat → Nat → List Nat

/-- Every call runs each of its iterations once. -/
def Schedule.Complete (schedule : Schedule) : Prop := ∀ call n, IsOrderOf (schedule call n) n

/-! ## `__CFSortIndexesN` -/

/-- How the buffer is cut. -/
structure Sections where
  sz : Nat
  numSect : Nat
  lastSectLen : Nat

/-- Up to `ncores` chunks, their size a multiple of 16. -/
def sections (count ncores : Nat) : Sections :=
  let sz := ((count + ncores - 1) / ncores + 15) / 16 * 16
  let numSect := (count + sz - 1) / sz
  ⟨sz, numSect, count + sz - sz * numSect⟩

/-- The index buffer and the malloced sections. -/
structure Buffers where
  listp : Nat → Nat
  tmps : Nat → Nat → Nat

section Concurrent

variable (cmp : Comparator) (cut : Sections) (sect : Nat)

/-- The first `dispatch_apply`. `__CFSimpleMergeSort` also scribbles on
`tmps[sect]`, which is written before it is next read. -/
def sortSection (mem : Buffers) : Buffers :=
  let sectLen := if sect < cut.numSect - 1 then cut.sz else cut.lastSectLen
  { mem with
    listp := store mem.listp (sect * cut.sz) (simpleMergeSort cmp (load mem.listp (sect * cut.sz) sectLen)) }

/-- Merge even: from `listp` into `tmps[sect]`. -/
def mergeEven (mem : Buffers) : Buffers :=
  let right := sect % 2 == 1
  let leftBase := sect * cut.sz - (if right then cut.sz else 0)
  let rightBase := sect * cut.sz + (if right then 0 else cut.sz)
  let sect2Len := if sect + 1 + (if right then 0 else 1) = cut.numSect then cut.lastSectLen else cut.sz
  let half := sortIndexesNMerge cmp (load mem.listp leftBase cut.sz) cut.sz
    (load mem.listp rightBase sect2Len) sect2Len right
  { mem with tmps := update mem.tmps sect (store (mem.tmps sect) 0 half) }

/-- Merge odd: from two of `tmps` into `listp + sect * sz + sz`. -/
def mergeOdd (mem : Buffers) : Buffers :=
  let right := sect % 2 == 1
  let leftBase := mem.tmps (sect + (if right then 0 else 1))
  let rightBase := mem.tmps (sect + (if right then 1 else 2))
  let sect2Len := if sect + 1 + (if right then 1 else 2) = cut.numSect then cut.lastSectLen else cut.sz
  let half := sortIndexesNMerge cmp (load leftBase 0 cut.sz) cut.sz (load rightBase 0 sect2Len) sect2Len right
  { mem with listp := store mem.listp (sect * cut.sz + cut.sz) half }

/-- The even half of a round, with the copy of an unpaired last section. -/
def evenPhase (order : List Nat) (mem : Buffers) : Buffers :=
  let mem := parallelFor order (mergeEven cmp cut) mem
  let last := cut.numSect - 1
  if cut.numSect % 2 = 1 then
    { mem with
      tmps := update mem.tmps last
        (store (mem.tmps last) 0 (load mem.listp (last * cut.sz) cut.lastSectLen)) }
  else mem

/-- The odd half of a round, with the copies of the unpaired sections. -/
def oddPhase (order : List Nat) (mem : Buffers) : Buffers :=
  let mem := parallelFor order (mergeOdd cmp cut) mem
  let mem := { mem with listp := store mem.listp (0 * cut.sz) (load (mem.tmps 0) 0 cut.sz) }
  let last := cut.numSect - 1
  if cut.numSect % 2 = 0 then
    { mem with listp := store mem.listp (last * cut.sz) (load (mem.tmps last) 0 cut.lastSectLen) }
  else mem

/-- The rounds `0 .. idx - 1`; the calls of `dispatch_apply` are numbered in program order. -/
def mergeRounds (schedule : Schedule) : Nat → Buffers → Buffers
  | 0, mem => mem
  | idx + 1, mem =>
    let evenPhaseCnt := cut.numSect / 2 * 2
    let oddPhaseCnt := (cut.numSect - 1) / 2 * 2
    oddPhase cmp cut (schedule (2 * idx + 3) oddPhaseCnt)
      (evenPhase cmp cut (schedule (2 * idx + 2) evenPhaseCnt) (mergeRounds schedule idx mem))

/-- `__CFSortIndexesN`. -/
def sortIndexesN (listp : Nat → Nat) (count ncores : Nat) (schedule : Schedule) (malloced : Nat → Nat → Nat) : Nat → Nat :=
  let cut := sections count ncores
  let mem := parallelFor (schedule 1 cut.numSect) (sortSection cmp cut) ⟨listp, malloced⟩
  (mergeRounds cmp cut schedule ((cut.numSect + 1) / 2) mem).listp

end Concurrent

/-! ## `CFSortIndexes` -/

/-- `for (; idx < lim; idx++) indexBuffer[idx] = idx;`, with `lim - idx` rounds to go. -/
def fillLoop : Nat → Nat → (Nat → Nat) → Nat → Nat
  | 0, _, indexBuffer => indexBuffer
  | rounds + 1, idx, indexBuffer => fillLoop rounds (idx + 1) (update indexBuffer idx idx)

/-- The buffer is filled in one loop, or in eight when it is large. -/
def fillIndexes (dispatch : Bool) (order : List Nat) (count : Nat) (indexBuffer : Nat → Nat) : Nat → Nat :=
  if dispatch = false ∨ count ≤ 65536 then fillLoop count 0 indexBuffer
  else
    let sz := (count + 15) / 16 * 16 / 8
    parallelFor order (fun n indexBuffer =>
      let idx := n * sz
      let lim := min (idx + sz) count
      fillLoop (lim - idx) idx indexBuffer) indexBuffer

/-- `INTPTR_MAX`. -/
def intptrMax : Nat := 2 ^ 63 - 1

def kCFSortConcurrent : BitVec 64 := 1

/-- The options and the number of cores the sort goes on with. -/
def chooseCores (opts : BitVec 64) (count activeProcessorCount : Nat) : BitVec 64 × Nat :=
  if opts &&& kCFSortConcurrent ≠ 0 then
    let ncores := activeProcessorCount
    let (opts, ncores) :=
      if count < 160 ∨ ncores < 2 then (opts &&& ~~~ kCFSortConcurrent, ncores)
      else if count < 640 ∧ 2 < ncores then (opts, 2)
      else if count < 3200 ∧ 4 < ncores then (opts, 4)
      else if count < 16000 ∧ 8 < ncores then (opts, 8)
      else (opts, ncores)
    if 16 < ncores then (opts, 16) else (opts, ncores)
  else (opts, 0)

/-- What a call of `CFSortIndexes` finds in its surroundings: whether the target
has `dispatch`, the number of active processors, the schedule and the malloced
memory. -/
structure Surroundings where
  dispatch : Bool
  activeProcessorCount : Nat
  schedule : Schedule
  malloced : Nat → Nat → Nat

/-- `CFSortIndexes`. A negative `count` returns at once, as `0` does. -/
def sortIndexes (around : Surroundings) (indexBuffer : Nat → Nat) (count : Nat) (opts : BitVec 64)
    (cmp : Comparator) : Nat → Nat :=
  if count < 1 then indexBuffer
  else if intptrMax / 8 < count then indexBuffer
  else
    let (opts, ncores) := chooseCores opts count around.activeProcessorCount
    let indexBuffer := fillIndexes around.dispatch (around.schedule 0 8) count indexBuffer
    if around.dispatch = true ∧ opts &&& kCFSortConcurrent ≠ 0 then
      sortIndexesN cmp indexBuffer count ncores around.schedule around.malloced
    else store indexBuffer 0 (simpleMergeSort cmp (load indexBuffer 0 count))

/-! ## The sections as blocks -/

/-- The cut covers the buffer and leaves a last section that is not empty. -/
structure Sections.Covers (cut : Sections) (count : Nat) : Prop where
  several : 2 ≤ cut.numSect
  positive : 0 < cut.lastSectLen
  short : cut.lastSectLen ≤ cut.sz
  total : (cut.numSect - 1) * cut.sz + cut.lastSectLen = count

theorem covers_of_size {count sz : Nat} (positive : 0 < sz) (less : sz < count) :
    Sections.Covers ⟨sz, (count + sz - 1) / sz, count + sz - sz * ((count + sz - 1) / sz)⟩ count := by
  have upper := Nat.div_mul_le_self (count + sz - 1) sz
  have lower := Nat.lt_div_mul_add positive (a := count + sz - 1)
  have two : 2 ≤ (count + sz - 1) / sz := by
    rw [Nat.le_div_iff_mul_le positive]
    omega
  generalize (count + sz - 1) / sz = numSect at upper lower two
  obtain ⟨k, rfl⟩ : ∃ k, numSect = k + 1 := ⟨numSect - 1, by omega⟩
  have grow : (k + 1) * sz = k * sz + sz := Nat.succ_mul k sz
  have swap : sz * (k + 1) = k * sz + sz := by rw [Nat.mul_comm, grow]
  refine ⟨two, ?_, ?_, ?_⟩ <;> simp only [swap, Nat.add_sub_cancel] <;> omega

theorem sections_covers {count ncores : Nat} (large : 160 ≤ count) (cores : 2 ≤ ncores) : (sections count ncores).Covers count := by
  have share : (count + ncores - 1) / ncores ≤ (count + 1) / 2 := by
    rw [Nat.div_le_iff_le_mul_add_pred (by omega)]
    have : 2 * ((count + 1) / 2) ≤ ncores * ((count + 1) / 2) := Nat.mul_le_mul_right _ cores
    omega
  have some : 0 < (count + ncores - 1) / ncores := Nat.div_pos (by omega) (by omega)
  exact covers_of_size (by omega) (by omega)

/-- The length of a section. -/
def Sections.len (cut : Sections) (sect : Nat) : Nat :=
  if sect + 1 = cut.numSect then cut.lastSectLen else cut.sz

/-- The sections of the index buffer. -/
def Sections.ofList (cut : Sections) (mem : Buffers) (sect : Nat) : List Nat := load mem.listp (sect * cut.sz) (cut.len sect)

/-- The sections held in the malloced buffers. -/
def Sections.ofTmps (cut : Sections) (mem : Buffers) (sect : Nat) : List Nat := load (mem.tmps sect) 0 (cut.len sect)

section Views

variable {cmp : Comparator} {cut : Sections} {count : Nat}

theorem Sections.Covers.len_le (covers : cut.Covers count) (sect : Nat) : cut.len sect ≤ cut.sz := by
  unfold Sections.len
  split
  · exact covers.short
  · exact Nat.le_refl _

variable {sect : Nat}

theorem len_inner (inner : sect + 1 < cut.numSect) : cut.len sect = cut.sz := if_neg (by omega)

theorem len_last (last : sect + 1 = cut.numSect) : cut.len sect = cut.lastSectLen := if_pos last

variable {values : List Nat} (full : values.length = cut.len sect)
include full

/-- Storing a whole section replaces that section only. -/
theorem ofList_store (covers : cut.Covers count) (mem : Buffers) {base : Nat} (at_sect : base = sect * cut.sz) : cut.ofList { mem with listp := store mem.listp base values } =
      update (cut.ofList mem) sect values := by
  subst at_sect
  funext other
  have small := covers.len_le sect
  have small' := covers.len_le other
  rcases Nat.lt_trichotomy other sect with less | rfl | more
  · rw [update_of_ne (Nat.ne_of_lt less)]
    have step : (other + 1) * cut.sz ≤ sect * cut.sz := Nat.mul_le_mul_right _ less
    rw [Nat.succ_mul] at step
    exact load_store_disjoint _ (Or.inl (by omega))
  · rw [update_self]
    exact load_store_same _ _ full
  · rw [update_of_ne (Nat.ne_of_gt more)]
    have step : (sect + 1) * cut.sz ≤ other * cut.sz := Nat.mul_le_mul_right _ more
    rw [Nat.succ_mul] at step
    exact load_store_disjoint _ (Or.inr (by omega))

theorem ofTmps_store (mem : Buffers) :
    cut.ofTmps { mem with tmps := update mem.tmps sect (store (mem.tmps sect) 0 values) } = update (cut.ofTmps mem) sect values := by
  funext other
  by_cases same : other = sect
  · subst same
    simp only [Sections.ofTmps, update_self]
    exact load_store_same _ _ full
  · simp [Sections.ofTmps, update_of_ne same]

omit full

/-- The sections, in order, are the buffer. -/
theorem concat_ofList (covers : cut.Covers count) (mem : Buffers) : concat cut.numSect (cut.ofList mem) = load mem.listp 0 count := by
  have upto : ∀ k, k < cut.numSect → concat k (cut.ofList mem) = load mem.listp 0 (k * cut.sz) := by
    intro k
    induction k with
    | zero => intro _; simp [concat, load]
    | succ _ ih =>
      intro bound
      rw [concat_succ, ih (by omega), Nat.succ_mul, load_append, Sections.ofList, len_inner bound, Nat.zero_add]
  obtain ⟨k, last⟩ : ∃ k, k + 1 = cut.numSect := ⟨cut.numSect - 1, by have := covers.several; omega⟩
  rw [← last, concat_succ, upto k (by omega), Sections.ofList, len_last last, ← covers.total, ← last, load_append,
    Nat.add_sub_cancel, Nat.zero_add]

end Views

/-! ## A round is two phases -/

/-- What a section becomes in a phase of parity `p`: the left half of its merge
with the next section, or the right half of its merge with the previous one. -/
def splitHalf (cmp : Comparator) (p : Nat) (s : Nat → List Nat) (sect : Nat) : List Nat :=
  if sect % 2 = p then sortIndexesNMerge cmp (s sect) (s sect).length (s (sect + 1)) (s (sect + 1)).length false
  else sortIndexesNMerge cmp (s (sect - 1)) (s (sect - 1)).length (s sect) (s sect).length true

theorem length_splitHalf (cmp : Comparator) (p : Nat) (s : Nat → List Nat) (sect : Nat) :
    (splitHalf cmp p s sect).length = (s sect).length := by
  unfold splitHalf
  split
  · rw [length_sortIndexesNMerge]; rfl
  · rw [length_sortIndexesNMerge]; rfl

section Phases

variable {cmp : Comparator} {cut : Sections} {count : Nat} (mem : Buffers)

@[simp] theorem length_ofList (sect : Nat) : (cut.ofList mem sect).length = cut.len sect := length_load _ _ _

@[simp] theorem length_ofTmps (sect : Nat) : (cut.ofTmps mem sect).length = cut.len sect := length_load _ _ _

theorem mergeEven_view (cmp : Comparator) (mem : Buffers) {sect : Nat} (bound : sect < cut.numSect / 2 * 2) :
    cut.ofTmps (mergeEven cmp cut sect mem) = update (cut.ofTmps mem) sect (splitHalf cmp 0 (cut.ofList mem) sect) := by
  rw [← ofTmps_store (by rw [length_splitHalf, length_ofList]) mem]
  unfold mergeEven splitHalf
  rcases Nat.mod_two_eq_zero_or_one sect with even | odd
  · have inner : sect + 1 ≠ cut.numSect := by omega
    simp [even, inner, Sections.ofList, Sections.len, Nat.succ_mul]
  · obtain ⟨k, rfl⟩ : ∃ k, sect = k + 1 := ⟨sect - 1, by omega⟩
    have inner : k + 1 ≠ cut.numSect := by omega
    simp [odd, inner, Sections.ofList, Sections.len, Nat.succ_mul]

theorem mergeOdd_view (cmp : Comparator) (covers : cut.Covers count) (mem : Buffers) {sect : Nat}
    (bound : sect < (cut.numSect - 1) / 2 * 2) : cut.ofList (mergeOdd cmp cut sect mem) =
      update (cut.ofList mem) (sect + 1) (splitHalf cmp 1 (cut.ofTmps mem) (sect + 1)) := by
  rw [← ofList_store (by rw [length_splitHalf, length_ofTmps]) covers mem (Nat.succ_mul sect _).symm]
  unfold mergeOdd splitHalf
  rcases Nat.mod_two_eq_zero_or_one sect with even | odd
  · have inner : sect + 1 + 1 ≠ cut.numSect := by omega
    rw [if_pos (by omega)]
    simp [even, inner, Sections.ofTmps, Sections.len]
  · have inner : sect + 1 ≠ cut.numSect := by omega
    rw [if_neg (by omega)]
    simp [odd, inner, Sections.ofTmps, Sections.len]

/-- What the merge-splits need of the sections: ordered blocks without a tie
that is out of order between them. -/
structure Splittable (cmp : Comparator) (cut : Sections) (s : Nat → List Nat) : Prop where
  blocks : Blocks (Before cmp) cut.numSect cut.sz s
  ties : Across (TieOrdered cmp) cut.numSect s

variable (order : TotalPreorder cmp)
include order

theorem Splittable.phase (covers : cut.Covers count) {s s' : Nat → List Nat} {p : Nat} (splittable : Splittable cmp cut s)
    (parity : p < 2) (paired : ∀ i, i % 2 = p → i + 1 < cut.numSect → s' i = splitHalf cmp p s i ∧ s' (i + 1) = splitHalf cmp p s (i + 1))
    (first : p = 1 → s' 0 = s 0) (last : ∀ i, i % 2 = p → i + 1 = cut.numSect → s' i = s i) : Phase (Before cmp) cut.numSect p s s' := by
  have reduce : p % 2 = p := Nat.mod_eq_of_lt parity
  refine ⟨fun i same inner => ?_, fun odd _ => first (by omega), fun i same => last i (by omega)⟩
  rw [reduce] at same
  obtain ⟨left, right⟩ := paired i same inner
  have mergeable : Mergeable cmp (s i) (s (i + 1)) :=
    ⟨splittable.blocks.ordered i (by omega), splittable.blocks.ordered (i + 1) inner, splittable.ties i (i + 1) (Nat.lt_succ_self i) inner⟩
  have full := splittable.blocks.full i inner
  have shorter : (s (i + 1)).length ≤ (s i).length := by
    rw [full]
    exact splittable.blocks.short (i + 1) inner
  have nonempty : 0 < (s i).length := by
    have := covers.positive
    have := covers.short
    omega
  rw [splitHalf, if_pos same, sortIndexesNMerge_eq order mergeable shorter nonempty] at left
  rw [splitHalf, if_neg (by omega), Nat.add_sub_cancel, sortIndexesNMerge_eq order mergeable shorter nonempty] at right
  simp only [Bool.false_eq_true, if_false, if_true] at left right
  rw [left, right]
  refine ⟨?_, ?_, ?_⟩
  · rw [List.length_take, mergeLists_length]
    omega
  · rw [List.take_append_drop]
    exact mergeLists_perm _ _
  · rw [List.take_append_drop]
    exact mergeable.ordered order

omit order in
theorem Splittable.after {p : Nat} {s s' : Nat → List Nat} (splittable : Splittable cmp cut s)
    (phase : Phase (Before cmp) cut.numSect p s s') : Splittable cmp cut s' := ⟨phase.blocks splittable.blocks,
    phase.across (fun _ _ before => before.tieOrdered) splittable.ties⟩

omit order in
/-- The even loop keeps `listp` and leaves in `tmps` the halves of its pairs. -/
theorem mergeEven_loop (cmp : Comparator) {order : List Nat} (complete : IsOrderOf order (cut.numSect / 2 * 2)) (mem : Buffers) :
    (parallelFor order (mergeEven cmp cut) mem).listp = mem.listp ∧ ∀ sect < cut.numSect / 2 * 2,
      cut.ofTmps (parallelFor order (mergeEven cmp cut) mem) sect = splitHalf cmp 0 (cut.ofList mem) sect := by
  have slots := parallelFor_slots (mergeEven cmp cut) (fun state => state.listp = mem.listp) cut.ofTmps
    id Function.injective_id (fun sect _ => splitHalf cmp 0 (cut.ofList mem) sect) order complete.nodup
  obtain ⟨kept, halves, _⟩ := slots (fun sect member state same => by
    refine ⟨same, ?_⟩
    have written := mergeEven_view cmp state ((complete.mem_iff sect).1 member)
    have source : cut.ofList state = cut.ofList mem := by unfold Sections.ofList; rw [same]
    rw [source] at written
    exact written) mem rfl
  exact ⟨kept, fun sect bound => halves sect ((complete.mem_iff sect).2 bound)⟩

variable (covers : cut.Covers count)
include covers

variable {calls : List Nat}

theorem evenPhase_phase (complete : IsOrderOf calls (cut.numSect / 2 * 2)) (mem : Buffers)
    (splittable : Splittable cmp cut (cut.ofList mem)) :
    Phase (Before cmp) cut.numSect 0 (cut.ofList mem) (cut.ofTmps (evenPhase cmp cut calls mem)) := by
  obtain ⟨kept, halves⟩ := mergeEven_loop cmp complete mem
  unfold evenPhase
  split
  · have edge : cut.numSect - 1 + 1 = cut.numSect := by omega
    have copied := (len_last edge).symm
    rw [ofTmps_store (by rw [length_load, copied]) _]
    refine splittable.phase order covers (by decide) (fun i even inner => ?_) nofun (fun i _ last => ?_)
    · rw [update_of_ne (by omega), update_of_ne (by omega), halves i (by omega), halves (i + 1) (by omega)]
      exact ⟨rfl, rfl⟩
    · obtain rfl : i = cut.numSect - 1 := by omega
      rw [update_self, kept, copied]
      rfl
  · refine splittable.phase order covers (by decide) (fun i even inner => ?_) nofun (fun i _ last => ?_)
    · exact ⟨halves i (by omega), halves (i + 1) (by omega)⟩
    · omega

omit covers in
omit order in
/-- The odd loop keeps `tmps` and leaves in `listp` the halves of its pairs. -/
theorem mergeOdd_loop (cmp : Comparator) (covers : cut.Covers count) {order : List Nat}
    (complete : IsOrderOf order ((cut.numSect - 1) / 2 * 2)) (mem : Buffers) : (parallelFor order (mergeOdd cmp cut) mem).tmps = mem.tmps ∧
    ∀ sect < (cut.numSect - 1) / 2 * 2, cut.ofList (parallelFor order (mergeOdd cmp cut) mem) (sect + 1) =
        splitHalf cmp 1 (cut.ofTmps mem) (sect + 1) := by
  have slots := parallelFor_slots (mergeOdd cmp cut) (fun state => state.tmps = mem.tmps) cut.ofList
    (· + 1) (fun _ _ => Nat.succ.inj) (fun sect _ => splitHalf cmp 1 (cut.ofTmps mem) (sect + 1))
    order complete.nodup
  obtain ⟨kept, halves, _⟩ := slots (fun sect member state same => by
    refine ⟨same, ?_⟩
    have written := mergeOdd_view cmp covers state ((complete.mem_iff sect).1 member)
    have source : cut.ofTmps state = cut.ofTmps mem := by unfold Sections.ofTmps; rw [same]
    rw [source] at written
    exact written) mem rfl
  exact ⟨kept, fun sect bound => halves sect ((complete.mem_iff sect).2 bound)⟩

theorem oddPhase_phase (complete : IsOrderOf calls ((cut.numSect - 1) / 2 * 2)) (mem : Buffers)
    (splittable : Splittable cmp cut (cut.ofTmps mem)) :
    Phase (Before cmp) cut.numSect 1 (cut.ofTmps mem) (cut.ofList (oddPhase cmp cut calls mem)) := by
  obtain ⟨kept, halves⟩ := mergeOdd_loop cmp covers complete mem
  have several := covers.several
  have start : cut.sz = cut.len 0 := (len_inner (by omega)).symm
  have edge : cut.numSect - 1 + 1 = cut.numSect := by omega
  have copied := (len_last edge).symm
  have paired : ∀ i, i % 2 = 1 → i + 1 < cut.numSect →
      cut.ofList (parallelFor calls (mergeOdd cmp cut) mem) i = splitHalf cmp 1 (cut.ofTmps mem) i ∧
      cut.ofList (parallelFor calls (mergeOdd cmp cut) mem) (i + 1) = splitHalf cmp 1 (cut.ofTmps mem) (i + 1) := by
    intro i odd inner
    obtain ⟨k, rfl⟩ : ∃ k, i = k + 1 := ⟨i - 1, by omega⟩
    exact ⟨halves k (by omega), halves (k + 1) (by omega)⟩
  unfold oddPhase
  split
  · rw [ofList_store (by rw [length_load, copied]) covers _ rfl, ofList_store (by rw [length_load]; exact start) covers _ rfl]
    refine splittable.phase order covers (by decide) (fun i odd inner => ?_) (fun _ => ?_) (fun i _ last => ?_)
    · rw [update_of_ne (by omega), update_of_ne (by omega), update_of_ne (by omega), update_of_ne (by omega)]
      exact paired i odd inner
    · rw [update_of_ne (by omega), update_self, kept, start]
      rfl
    · obtain rfl : i = cut.numSect - 1 := by omega
      rw [update_self]
      simp only [kept, copied]
      rfl
  · rw [ofList_store (by rw [length_load]; exact start) covers _ rfl]
    refine splittable.phase order covers (by decide) (fun i odd inner => ?_) (fun _ => ?_) (fun i odd last => ?_)
    · rw [update_of_ne (by omega), update_of_ne (by omega)]
      exact paired i odd inner
    · rw [update_self, kept, start]
      rfl
    · omega

/-- `k` rounds run `2 * k` phases. -/
theorem mergeRounds_run {schedule : Schedule} (complete : schedule.Complete) (mem : Buffers)
    (splittable : Splittable cmp cut (cut.ofList mem)) (k : Nat) :
    Run (Before cmp) cut.numSect (cut.ofList mem) (2 * k) (cut.ofList (mergeRounds cmp cut schedule k mem)) ∧
    Splittable cmp cut (cut.ofList (mergeRounds cmp cut schedule k mem)) := by
  induction k with
  | zero => exact ⟨Run.start, splittable⟩
  | succ k ih =>
    obtain ⟨run, before⟩ := ih
    have even := evenPhase_phase order covers (complete (2 * k + 2) _) _ before
    have between := before.after even
    have odd := oddPhase_phase order covers (complete (2 * k + 3) _) _ between
    refine ⟨?_, between.after odd⟩
    have first := Run.step run (even.congr_parity (by omega : 0 % 2 = 2 * k % 2))
    exact Run.step first (odd.congr_parity (by omega : 1 % 2 = (2 * k + 1) % 2))

/-- The first loop sorts every section. -/
theorem sortSection_loop (complete : IsOrderOf calls cut.numSect) (mem : Buffers)
    (ties : ∀ sect < cut.numSect, (cut.ofList mem sect).Pairwise (TieOrdered cmp)) : ∀ sect < cut.numSect, Sorts cmp (cut.ofList mem sect)
      (cut.ofList (parallelFor calls (sortSection cmp cut) mem) sect) := by
  have slots := parallelFor_slots (sortSection cmp cut) (fun state => ∀ other < cut.numSect, (cut.ofList state other).Pairwise
    (TieOrdered cmp)) cut.ofList id Function.injective_id (fun _ => simpleMergeSort cmp) calls complete.nodup
  obtain ⟨_, sorted, _⟩ := slots (fun sect member state holds => by
    have bound := (complete.mem_iff sect).1 member
    have sorts := simpleMergeSort_sorts order _ (holds sect bound)
    have len : (if sect < cut.numSect - 1 then cut.sz else cut.lastSectLen) = cut.len sect := by
      unfold Sections.len
      split <;> split <;> omega
    have written : cut.ofList (sortSection cmp cut sect state) =
        update (cut.ofList state) sect (simpleMergeSort cmp (cut.ofList state sect)) := by
      unfold sortSection
      rw [len]
      refine ofList_store ?_ covers state rfl
      exact sorts.perm.length_eq.trans (length_ofList state sect)
    refine ⟨fun other within => ?_, written⟩
    rw [written]
    by_cases same : other = sect
    · subst same
      rw [update_self]
      exact sorts.ordered.imp Before.tieOrdered
    · rw [update_of_ne same]
      exact holds other within) mem ties
  intro sect bound
  rw [show cut.ofList _ sect = simpleMergeSort cmp (cut.ofList mem sect) from
    sorted sect ((complete.mem_iff sect).2 bound)]
  exact simpleMergeSort_sorts order _ (ties sect bound)

end Phases

/-! ## The whole sort -/

section Whole

variable {cmp : Comparator}

theorem range_tieOrdered (cmp : Comparator) (count : Nat) : (List.range count).Pairwise (TieOrdered cmp) :=
  List.pairwise_lt_range.imp fun less below => ⟨below, fun _ => Nat.le_of_lt less⟩

/-- The concurrent path sorts a buffer that holds the indexes. -/
theorem sortIndexesN_sorts (order : TotalPreorder cmp) {listp : Nat → Nat} {count ncores : Nat} (large : 160 ≤ count)
    (cores : 2 ≤ ncores) {schedule : Schedule} (complete : schedule.Complete) (malloced : Nat → Nat → Nat)
    (filled : load listp 0 count = List.range count) :
    Sorts cmp (List.range count) (load (sortIndexesN cmp listp count ncores schedule malloced) 0 count) := by
  have covers := sections_covers large cores
  unfold sortIndexesN
  dsimp only
  generalize sections count ncores = cut at covers
  have initial : (concat cut.numSect (cut.ofList ⟨listp, malloced⟩)).Pairwise (TieOrdered cmp) := by
    rw [concat_ofList covers, filled]
    exact range_tieOrdered cmp count
  obtain ⟨across, inside⟩ := across_of_pairwise initial
  have sorted := sortSection_loop order covers (complete 1 cut.numSect) ⟨listp, malloced⟩ inside
  generalize parallelFor (schedule 1 cut.numSect) (sortSection cmp cut) ⟨listp, malloced⟩ = mem at sorted
  have splittable : Splittable cmp cut (cut.ofList mem) := by
    refine ⟨⟨fun i inner => ?_, fun i _ => ?_, fun i bound => (sorted i bound).ordered⟩, ?_⟩
    · rw [length_ofList, len_inner inner]
    · rw [length_ofList]
      exact covers.len_le i
    · intro i j less bound x hx y hy
      exact across i j less bound x ((sorted i (by omega)).perm.mem_iff.1 hx) y
        ((sorted j bound).perm.mem_iff.1 hy)
  obtain ⟨run, _⟩ := mergeRounds_run order covers complete mem splittable ((cut.numSect + 1) / 2)
  have final := run.sorted (fun _ _ _ ab => ab.trans order) (Before.total order) splittable.blocks (by omega)
  have kept := run.perm
  rw [concat_ofList covers] at final kept
  refine ⟨kept.trans ?_, final⟩
  rw [← filled, ← concat_ofList covers ⟨listp, malloced⟩]
  exact concat_perm fun i bound => (sorted i bound).perm

theorem fillLoop_eq : ∀ rounds idx (indexBuffer : Nat → Nat) cell,
    fillLoop rounds idx indexBuffer cell = if idx ≤ cell ∧ cell < idx + rounds then cell else indexBuffer cell := by
  intro rounds
  induction rounds with
  | zero => intro idx indexBuffer cell; rw [fillLoop, if_neg (by omega)]
  | succ _ ih =>
    intro idx indexBuffer cell
    rw [fillLoop, ih]
    by_cases here : cell = idx
    · subst here
      rw [update_self, if_neg (by omega), if_pos (by omega)]
    · rw [update_of_ne here]
      congr 1
      rw [eq_iff_iff]
      omega

theorem fillIndexes_load {order : List Nat} (complete : IsOrderOf order 8) (dispatch : Bool) (count : Nat)
    (indexBuffer : Nat → Nat) : load (fillIndexes dispatch order count indexBuffer) 0 count = List.range count := by
  have each : ∀ cell < count, fillIndexes dispatch order count indexBuffer cell = cell := by
    intro cell bound
    unfold fillIndexes
    split
    · rw [fillLoop_eq, if_pos (by omega)]
    -- the chunk that holds the cell sets it, and no chunk sets it to anything else
    have chunk : cell / ((count + 15) / 16 * 16 / 8) < 8 := by
      rw [Nat.div_lt_iff_lt_mul (by omega)]
      omega
    have start := Nat.div_mul_le_self cell ((count + 15) / 16 * 16 / 8)
    have stop := Nat.lt_div_mul_add (show 0 < (count + 15) / 16 * 16 / 8 by omega) (a := cell)
    refine parallelFor_establishes (fun buffer => buffer cell = cell) (fun i buffer holds => ?_)
      (fun buffer => ?_) order indexBuffer ((complete.mem_iff _).2 chunk)
    · simp [fillLoop_eq, holds]
    · simp only [fillLoop_eq]
      rw [if_pos ⟨start, by omega⟩]
  refine List.ext_getElem (by simp) fun i bound _ => ?_
  simp only [load, List.getElem_map, List.getElem_range, Nat.zero_add]
  exact each i (by simpa using bound)

/-- The concurrent path is only taken with enough indexes and cores. -/
theorem chooseCores_concurrent {opts : BitVec 64} {count processors : Nat}
    (concurrent : (chooseCores opts count processors).1 &&& kCFSortConcurrent ≠ 0) :
    160 ≤ count ∧ 2 ≤ (chooseCores opts count processors).2 := by
  have cleared : ∀ flags : BitVec 64, flags &&& ~~~ kCFSortConcurrent &&& kCFSortConcurrent = 0 := by
    intro flags
    rw [BitVec.and_assoc, show ~~~ kCFSortConcurrent &&& kCFSortConcurrent = 0#64 by decide, BitVec.and_zero]
    rfl
  unfold chooseCores at concurrent ⊢
  by_cases asked : opts &&& kCFSortConcurrent ≠ 0
  · simp only [if_pos asked] at concurrent ⊢
    by_cases few : count < 160 ∨ processors < 2
    · simp only [if_pos few] at concurrent
      split at concurrent <;> exact absurd (cleared opts) concurrent
    · refine ⟨by omega, ?_⟩
      split_ifs <;> dsimp only <;> omega
  · simp only [if_neg asked] at concurrent
    exact absurd concurrent asked

theorem sortIndexes_sorts (order : TotalPreorder cmp) {around : Surroundings} (complete : around.schedule.Complete)
    (indexBuffer : Nat → Nat) {count : Nat} (opts : BitVec 64) (positive : 1 ≤ count)
    (fits : count ≤ intptrMax / 8) : Sorts cmp (List.range count) (load (sortIndexes around indexBuffer count opts cmp) 0 count) := by
  have filled := fillIndexes_load (complete 0 8) around.dispatch count indexBuffer
  unfold sortIndexes
  rw [if_neg (by omega), if_neg (by omega)]
  dsimp only
  split
  · rename_i concurrent
    obtain ⟨large, cores⟩ := chooseCores_concurrent concurrent.2
    exact sortIndexesN_sorts order large cores complete around.malloced filled
  · have serial := simpleMergeSort_sorts order _ (range_tieOrdered cmp count)
    rw [filled, load_store_same _ _ (by rw [serial.perm.length_eq, List.length_range])]
    exact serial

/-- **`CFSortIndexes` is a stable sort on every path.** Whatever the options, the
processors, the schedule and the prior contents of memory, the buffer ends as the
one stably ordered permutation of the indexes, the list the serial sort returns. -/
theorem sortIndexes_stable_sort (cmp : Comparator) (order : TotalPreorder cmp) (around : Surroundings)
    (complete : around.schedule.Complete) (indexBuffer : Nat → Nat) (count : Nat) (opts : BitVec 64)
    (positive : 1 ≤ count) (fits : count ≤ intptrMax / 8) :
    (load (sortIndexes around indexBuffer count opts cmp) 0 count).Perm (List.range count) ∧
    (load (sortIndexes around indexBuffer count opts cmp) 0 count).Pairwise (Before cmp) ∧
    (∀ other : List Nat, other.Perm (List.range count) → other.Pairwise (Before cmp) →
      other = load (sortIndexes around indexBuffer count opts cmp) 0 count) ∧
    load (sortIndexes around indexBuffer count opts cmp) 0 count = simpleMergeSort cmp (List.range count) := by
  obtain ⟨perm, ordered⟩ := sortIndexes_sorts order complete indexBuffer opts positive fits
  have serial := simpleMergeSort_sorts order _ (range_tieOrdered cmp count)
  refine ⟨perm, ordered, fun other isPerm isOrdered => ?_, ?_⟩
  · exact ordered_unique isOrdered ordered (isPerm.trans perm.symm)
  · exact ordered_unique ordered serial.ordered (perm.trans serial.perm.symm)

/-- Comparing by remainder modulo three. -/
def byRemainder : Comparator := fun a b => (a % 3 : Int) - (b % 3 : Int)

/-- A machine with eight processors that runs iterations in program order. -/
def eightProcessors : Surroundings := ⟨true, 8, fun _ n => List.range n, fun _ _ => 0⟩

theorem sortIndexes_stable_sort_byRemainder : load (sortIndexes eightProcessors (fun _ => 7) 200 kCFSortConcurrent byRemainder) 0 200 =
      simpleMergeSort byRemainder (List.range 200) := by
  have order : TotalPreorder byRemainder := by
    constructor
    · intro a b
      unfold byRemainder
      omega
    · intro a b c
      unfold byRemainder
      omega
  have complete : eightProcessors.schedule.Complete := fun _ n => List.Perm.refl _
  exact (sortIndexes_stable_sort byRemainder order eightProcessors complete (fun _ => 7) 200 kCFSortConcurrent
    (by decide) (by decide)).2.2.2

end Whole

end DarwinNotes.CF.Sort
