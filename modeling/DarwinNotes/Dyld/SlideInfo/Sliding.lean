import DarwinNotes.Dyld.SlideInfo.Model

/-!
# Exactly the recorded pointers are slid

The bits of the bitmap are the recorded pointers, every page's entry is found through the table of contents, and sliding all pages
slides the words of all bits.
-/

namespace DarwinNotes.Dyld.SlideInfo
open Function List

/-! ## The bitmap -/

theorem and_bit_ne_zero {b : BitVec 8} {j : Nat} (bound : j < 8) : b &&& 1#8 <<< j ≠ 0 ↔ b.getLsbD j = true := by
  rw [← BitVec.twoPow_eq, BitVec.and_twoPow]
  split
  case isTrue isSet =>
    refine iff_of_true (fun isZero => ?_) isSet
    have bit := congrArg (BitVec.getLsbD · j) isZero
    simp [bound] at bit
  case isFalse isClear => exact iff_of_false (fun notZero => notZero rfl) isClear

variable (bitmap : Nat → BitVec 8)

/-- The bit of an offset in the mapping. -/
def HasBit (offset : Nat) : Prop := (bitmap (offset / 32)).getLsbD (offset % 32 / 4) = true

/-- Offsets with the same bit are offsets of the same word. -/
theorem hasBit_set (offset other : Nat) : HasBit (update bitmap (offset / 32) (bitmap (offset / 32) ||| 1#8 <<< (offset % 32 / 4))) other ↔
      HasBit bitmap other ∨ offset / 4 = other / 4 := by
  unfold HasBit
  by_cases sameByte : other / 32 = offset / 32
  · rw [sameByte, update_self, BitVec.getLsbD_or, ← BitVec.twoPow_eq, BitVec.getLsbD_twoPow, Bool.or_eq_true]
    apply or_congr_right
    rw [Bool.and_eq_true, decide_eq_true_iff, decide_eq_true_iff]
    omega
  · rw [update_of_ne sameByte]
    exact (or_iff_left fun sameWord => sameByte (by omega)).symm

/-- The recorded offsets: inside of the mapping, and aligned. -/
def Mapping.Location (mapping : Mapping) : Type := { offset : Nat // offset < mapping.size ∧ offset % 4 = 0 }

variable {mapping : Mapping} (locations : List mapping.Location)

/-- The pointers of recorded offsets. -/
def pointersOf : List Nat := locations.map (mapping.fileOffset + ·.1)

theorem setBits_spec (lastPointer : Nat) (bitmap : Nat → BitVec 8)
    (isLast : lastPointer < mapping.fileOffset ∨ HasBit bitmap (lastPointer - mapping.fileOffset)) :
    ∃ bitmap', setBits mapping.fileOffset (mapping.fileOffset + mapping.size) (pointersOf locations) lastPointer bitmap = .ok bitmap' ∧
      ∀ offset, HasBit bitmap' offset ↔ HasBit bitmap offset ∨ ∃ l ∈ locations, l.1 / 4 = offset / 4 := by
  induction locations generalizing lastPointer bitmap with
  | nil => exact ⟨bitmap, rfl, fun offset => by simp⟩
  | cons l _ ih =>
    obtain ⟨_, aligned⟩ := l.2
    rw [pointersOf, map_cons, setBits]
    split
    case isTrue same =>
      obtain ⟨bitmap', isSet, hasBit⟩ := ih _ _ isLast
      refine ⟨bitmap', isSet, fun offset => ?_⟩
      rw [hasBit, exists_mem_cons_iff, ← or_assoc]
      apply or_congr_left
      -- the bit of a repeated pointer is set already
      have isRepeated : HasBit bitmap l.1 := by
        have isBit := isLast.resolve_left (by omega)
        rwa [← same, Nat.add_sub_cancel_left] at isBit
      refine (or_iff_left_of_imp fun sameWord => ?_).symm
      unfold HasBit at isRepeated ⊢
      rwa [show offset / 32 = l.1 / 32 by omega, show offset % 32 / 4 = l.1 % 32 / 4 by omega]
    case isFalse =>
      rw [if_neg (by omega)]
      simp only [Nat.add_sub_cancel_left, Nat.shiftRight_eq_div_pow]
      rw [if_neg (not_not.mpr aligned)]
      obtain ⟨bitmap', isSet, hasBit⟩ := ih (mapping.fileOffset + l.1)
        (update bitmap (l.1 / 32) (bitmap (l.1 / 32) ||| 1#8 <<< (l.1 % 32 / 4)))
        (.inr (by rw [Nat.add_sub_cancel_left, hasBit_set]; exact .inr rfl))
      refine ⟨bitmap', isSet, fun offset => ?_⟩
      rw [hasBit, hasBit_set, exists_mem_cons_iff, or_assoc]

/-! ## The entries -/

section Entries

variable {bitmap : Nat → BitVec 8} {info : Info} {page index entryCount : Nat}

/-- The pages before `done` have their entries, and the table of contents does not reach into the entries. -/
structure Built (bitmap : Nat → BitVec 8) (info : Info) (entryCount done : Nat) : Prop where
  isOffset : info.tocOffset = 24
  isBehind : 24 + 2 * info.tocCount ≤ info.entriesOffset
  isCount : info.tocCount ≤ 2 ^ 16
  fewer : entryCount ≤ done
  isEntry : ∀ page < done, info.toc page < entryCount ∧ info.isEntry bitmap page (info.toc page) = true

theorem isEntry_iff : info.isEntry bitmap page index = true ↔ ∀ i < 128, bitmap (128 * page + i) = info.entry index i := by
  simp [Info.isEntry]

variable (isOffset : info.tocOffset = 24)
include isOffset

theorem toc_setToc (value other : Nat) (small : value < 2 ^ 16) :
    (info.setToc page value).toc other = if other = page then value else info.toc other := by
  simp only [Info.toc, Info.setToc, isOffset, Nat.reducePow, Nat.reduceMod]
  split
  case isTrue same =>
    subst same
    rw [update_of_ne (by omega), update_self, update_self, BitVec.toNat_ofNat, BitVec.toNat_ofNat]
    omega
  case isFalse => rw [update_of_ne (by omega), update_of_ne (by omega), update_of_ne (by omega), update_of_ne (by omega)]

theorem entry_setToc (isBehind : 24 + 2 * info.tocCount ≤ info.entriesOffset) (inside : page < info.tocCount) (value i : Nat)
    : (info.setToc page value).entry index i = info.entry index i := by
  simp only [Info.entry, Info.setToc, isOffset]
  rw [update_of_ne (by omega), update_of_ne (by omega)]

theorem toc_copyEntry (isBehind : 24 + 2 * info.tocCount ≤ info.entriesOffset) {other : Nat} (inside : other < info.tocCount)
    : (info.copyEntry bitmap page index).toc other = info.toc other := by
  simp only [Info.toc, Info.copyEntry, isOffset]
  rw [if_neg (by omega), if_neg (by omega)]

omit isOffset

theorem entry_copyEntry {other i : Nat} (bound : i < 128) :
    (info.copyEntry bitmap page index).entry other i = if other = index then bitmap (128 * page + i) else info.entry other i := by
  simp only [Info.entry, Info.copyEntry]
  by_cases same : other = index
  · subst same
    rw [if_pos (by omega), if_pos rfl, Nat.add_sub_cancel_left]
  · rw [if_neg (by omega), if_neg same]

theorem Built.addPage {done : Nat} (built : Built bitmap info entryCount done) (inside : done < info.tocCount) :
    ∃ info' entryCount', SlideInfo.addPage bitmap (info, entryCount) done = (info', entryCount') ∧ info'.tocCount = info.tocCount ∧
      Built bitmap info' entryCount' (done + 1) := by
  obtain ⟨isOffset, isBehind, isCount, _, isEntry⟩ := built
  -- the new entry is at `index`, and nothing else changes
  have next : ∀ {info' : Info} {index entryCount' : Nat}, info'.tocOffset = 24 → info'.entriesOffset = info.entriesOffset →
      info'.tocCount = info.tocCount → (∀ page < done, info'.toc page = info.toc page) →
      (∀ other < entryCount, ∀ i < 128, info'.entry other i = info.entry other i) → (∀ i < 128, bitmap (128 * done + i) = info'.entry index i) →
      index < entryCount' → entryCount ≤ entryCount' → entryCount' ≤ done + 1 →
      Built bitmap (info'.setToc done index) entryCount' (done + 1) := by
    intro info' index entryCount' isOffset' sameEntries sameCount sameToc sameEntry isNew bound isMore fewer'
    refine ⟨isOffset', by simpa [Info.setToc, sameEntries, sameCount] using isBehind, sameCount ▸ isCount, fewer', fun page isDone => ?_⟩
    rw [toc_setToc isOffset' _ _ (by omega), isEntry_iff]
    simp only [entry_setToc isOffset' (sameEntries ▸ sameCount ▸ isBehind) (sameCount ▸ inside)]
    by_cases same : page = done
    · subst same
      rw [if_pos rfl]
      exact ⟨bound, isNew⟩
    · obtain ⟨isIndex, isOld⟩ := isEntry page (by omega)
      rw [if_neg same, sameToc page (by omega)]
      refine ⟨by omega, fun i bound => ?_⟩
      rw [sameEntry _ isIndex i bound, isEntry_iff.mp isOld i bound]
  unfold SlideInfo.addPage
  simp only
  split
  case h_1 _ isFound =>
    have isIndex := mem_range.mp (mem_of_find?_eq_some isFound)
    refine ⟨_, _, rfl, rfl, next isOffset rfl rfl (fun _ _ => rfl) (fun _ _ _ _ => rfl) ?_ isIndex (Nat.le_refl _) (by omega)⟩
    exact isEntry_iff.mp (find?_some isFound)
  case h_2 =>
    refine ⟨_, _, rfl, rfl, next isOffset rfl rfl (fun page isDone => ?_) (fun other isOld i bound => ?_) (fun i bound => ?_)
      (Nat.lt_succ_self _) (Nat.le_succ _) (by omega)⟩
    · exact toc_copyEntry isOffset isBehind (by omega)
    · rw [entry_copyEntry bound, if_neg (by omega)]
    · rw [entry_copyEntry bound, if_pos rfl]

theorem Built.addPages (built : Built bitmap info 0 0) {done : Nat} (inside : done ≤ info.tocCount) :
    ∃ info' entryCount, (range done).foldl (SlideInfo.addPage bitmap) (info, 0) = (info', entryCount) ∧
      info'.tocCount = info.tocCount ∧ Built bitmap info' entryCount done := by
  induction done with
  | zero => exact ⟨info, 0, rfl, rfl, built⟩
  | succ _ ih =>
    obtain ⟨info', entryCount, isFold, sameCount, built'⟩ := ih (by omega)
    obtain ⟨info'', entryCount', isAdded, sameCount', built''⟩ := built'.addPage (by omega)
    refine ⟨info'', entryCount', ?_, sameCount'.trans sameCount, built''⟩
    rw [range_succ, foldl_append, isFold]
    exact isAdded

/-- Every page finds its entry of the bitmap of the recorded pointers. -/
theorem buildSlideInfo_spec (locations : List mapping.Location) :
    ∃ info bitmap, buildSlideInfo mapping (pointersOf locations) = .ok info ∧ info.tocCount = mapping.pages ∧
      (∀ offset, HasBit bitmap offset ↔ ∃ l ∈ locations, l.1 / 4 = offset / 4) ∧
      ∀ page < mapping.pages, info.toc page < info.entriesCount ∧ ∀ i < 128, bitmap (128 * page + i) = info.entry (info.toc page) i := by
  obtain ⟨bitmap, isSet, hasBit⟩ := setBits_spec locations 0 (fun _ => 0) (.inl mapping.behindHeader)
  have isCount : mapping.size / (4 * 8) / 128 = mapping.pages := by
    rw [Mapping.size]
    omega
  have start : Built bitmap
      { tocOffset := 24, tocCount := mapping.pages, entriesOffset := (24 + 2 * mapping.pages + 127) / 128 * 128, entriesCount := 0,
        bytes := fun _ => 0 } 0 0 :=
    ⟨rfl, by simp only; omega, mapping.isIndexed, Nat.le_refl _, fun _ isLess => absurd isLess (Nat.not_lt_zero _)⟩
  obtain ⟨info, entryCount, isFold, sameCount, built⟩ := start.addPages (Nat.le_refl _)
  refine ⟨{ info with entriesCount := entryCount }, bitmap, ?_, sameCount, fun offset => ?_, fun page inside => ?_⟩
  · rw [buildSlideInfo, isSet]
    simp only [bind, Except.bind, isCount, isFold]
    rfl
  · rw [hasBit, or_iff_right]
    simp [HasBit]
  · obtain ⟨isIndex, isEntry⟩ := built.isEntry page inside
    exact ⟨isIndex, isEntry_iff.mp isEntry⟩

end Entries

/-! ## Sliding -/

section Sliding

variable {is64 : Bool} {slide : BitVec 32}

/-- What a part of the kernel's loops does: it slides a set of words, or there is a carry in one of them. -/
structure Slides (is64 : Bool) (slide : BitVec 32) (run : Words → Except Words Words) (set : Set Nat) : Prop where
  ok : ∀ {words words'}, run words = .ok words' → (∀ i ∈ set, words' i = words i + slide ∧ ¬ (is64 ∧ words i + slide < words i)) ∧
    ∀ i ∉ set, words' i = words i
  error : ∀ {words words'}, run words = .error words' → ∃ i ∈ set, is64 ∧ words i + slide < words i

theorem slides_nothing {set : Set Nat} (isEmpty : ∀ i, i ∉ set) : Slides is64 slide .ok set := by
  constructor
  · rintro _ _ ⟨⟩
    exact ⟨fun i mem => absurd mem (isEmpty i), fun _ _ => rfl⟩
  · exact nofun

theorem slides_ptr (ptr : Nat) : Slides is64 slide (slidePtr is64 slide · ptr) { i | i = ptr } := by
  unfold slidePtr
  constructor
  · intro words words' isOk
    simp only [update_self] at isOk
    split at isOk
    case isTrue => cases isOk
    case isFalse noCarry =>
      cases isOk
      constructor
      · rintro i rfl
        exact ⟨update_self _ _ _, noCarry⟩
      · exact fun i other => update_of_ne other _ _
  · intro words words' isError
    simp only [update_self] at isError
    split at isError
    case isTrue carry => exact ⟨ptr, rfl, carry⟩
    case isFalse => cases isError

/-- A loop whose iterations slide different words slides all of them. -/
theorem Slides.foldlM {body : Words → Nat → Except Words Words} {list : List Nat} (sets : Nat → Set Nat)
    (each : ∀ x ∈ list, Slides is64 slide (body · x) (sets x))
    (disjoint : list.Pairwise fun x y => ∀ i, i ∈ sets x → i ∉ sets y) :
    Slides is64 slide (list.foldlM body) { i | ∃ x ∈ list, i ∈ sets x } := by
  induction list with
  | nil => exact slides_nothing fun i mem => by simp at mem
  | cons x list ih =>
    obtain ⟨first, others⟩ := forall_mem_cons.mp each
    obtain ⟨apart, disjoint⟩ := pairwise_cons.mp disjoint
    have rest := ih others disjoint
    have notFirst : ∀ i, (∃ y ∈ list, i ∈ sets y) → i ∉ sets x := by
      rintro i ⟨y, isLater, mem⟩ isFirst
      exact apart y isLater i isFirst mem
    constructor
    · intro words words' isOk
      rw [foldlM_cons] at isOk
      cases isFirst : body words x with
      | error => rw [isFirst] at isOk; cases isOk
      | ok =>
        rw [isFirst] at isOk
        obtain ⟨slid, same⟩ := first.ok isFirst
        obtain ⟨slid', same'⟩ := rest.ok isOk
        constructor
        · rintro i ⟨y, mem, inSet⟩
          rcases mem_cons.mp mem with rfl | isLater
          · rw [same' i fun isLater => notFirst i isLater inSet]
            exact slid i inSet
          · rw [← same i (notFirst i ⟨y, isLater, inSet⟩)]
            exact slid' i ⟨y, isLater, inSet⟩
        · intro i notMember
          rw [same' i fun ⟨y, isLater, inSet⟩ => notMember ⟨y, mem_cons_of_mem _ isLater, inSet⟩]
          exact same i fun inSet => notMember ⟨x, mem_cons_self, inSet⟩
    · intro words words' isError
      rw [foldlM_cons] at isError
      cases isFirst : body words x with
      | error =>
        obtain ⟨i, inSet, carry⟩ := first.error isFirst
        exact ⟨i, ⟨x, mem_cons_self, inSet⟩, carry⟩
      | ok =>
        rw [isFirst] at isError
        obtain ⟨i, isLater, carry⟩ := rest.error isError
        rw [(first.ok isFirst).2 i (notFirst i isLater)] at carry
        obtain ⟨y, mem, inSet⟩ := isLater
        exact ⟨i, ⟨y, mem_cons_of_mem _ mem, inSet⟩, carry⟩

theorem pairwise_range {n : Nat} {sets : Nat → Set Nat} (disjoint : ∀ x y, x < y → y < n → ∀ i, i ∈ sets x → i ∉ sets y) :
    (range n).Pairwise fun x y => ∀ i, i ∈ sets x → i ∉ sets y :=
  pairwise_lt_range.imp_of_mem fun _ mem isLess => disjoint _ _ isLess (mem_range.mp mem)

theorem slides_byte (first : Nat) (b : BitVec 8) :
    Slides is64 slide (slideByte is64 slide first b) { i | ∃ j ∈ range 8, b.getLsbD j = true ∧ i = first + j } := by
  unfold slideByte
  split
  case isTrue =>
    refine Slides.foldlM (fun j => { i | b.getLsbD j = true ∧ i = first + j }) (fun j mem => ?_)
      (pairwise_range fun x y isLess _ i isFirst isSecond => ?_)
    · have isBit := and_bit_ne_zero (b := b) (mem_range.mp mem)
      split
      case isTrue isSet => simpa [isBit.mp isSet] using slides_ptr (first + j)
      case isFalse isClear => exact slides_nothing fun i isWord => isClear (isBit.mpr isWord.1)
    · obtain ⟨-, rfl⟩ := isFirst
      obtain ⟨-, _⟩ := isSecond
      omega
  case isFalse isZero =>
    rw [not_not.mp isZero]
    exact slides_nothing fun i ⟨j, _, isSet, _⟩ => by simp at isSet

/-- A page slides the words whose bits are in its entry. -/
theorem slides_page {info : Info} {bitmap : Nat → BitVec 8} {page : Nat} (inside : page < info.tocCount)
    (isIndex : info.toc page < info.entriesCount) (isEntry : ∀ i < 128, bitmap (128 * page + i) = info.entry (info.toc page) i) :
    Slides is64 slide (slidePage is64 slide info · page) { i | i / 1024 = page ∧ HasBit bitmap (4 * i) } := by
  have isSet : { i | i / 1024 = page ∧ HasBit bitmap (4 * i) } = { i | ∃ k ∈ range 128, ∃ j ∈ range 8,
      (info.entry (info.toc page) k).getLsbD j = true ∧ i = 1024 * page + k * 8 + j } := ?_
  · simp only [slidePage, if_neg (Nat.not_le.mpr inside), if_neg (Nat.not_le.mpr isIndex), isSet]
    refine Slides.foldlM _ (fun k _ => slides_byte _ _) (pairwise_range fun x y isLess _ i isFirst isSecond => ?_)
    obtain ⟨j, bound, -, rfl⟩ := isFirst
    obtain ⟨k, -, -, _⟩ := isSecond
    have := mem_range.mp bound
    omega
  ext i
  constructor
  · rintro ⟨_, isBit⟩
    refine ⟨i / 8 % 128, mem_range.mpr (by omega), i % 8, mem_range.mpr (by omega), ?_, by omega⟩
    rw [← isEntry _ (by omega)]
    rwa [HasBit, show 4 * i / 32 = 128 * page + i / 8 % 128 by omega, show 4 * i % 32 / 4 = i % 8 by omega] at isBit
  · rintro ⟨k, bound, j, bound', isBit, rfl⟩
    rw [mem_range] at bound bound'
    refine ⟨by omega, ?_⟩
    rwa [HasBit, show 4 * (1024 * page + k * 8 + j) / 32 = 128 * page + k by omega,
      show 4 * (1024 * page + k * 8 + j) % 32 / 4 = j by omega, isEntry k bound]

/-- The slide info is accepted, and sliding every page once, in any order, slides exactly the recorded words; or a carry is reported. -/
theorem slidePages_recorded (mapping : Mapping) (locations : List mapping.Location) (is64 : Bool) (slide : BitVec 32) (words : Words)
    (order : List Nat) (isOrder : order.Perm (range mapping.pages)) :
    ∃ info, buildSlideInfo mapping (pointersOf locations) = .ok info ∧ slideSanityCheck info = true ∧
      match order.foldlM (slidePage is64 slide info) words with
      | .ok words' => (∀ l ∈ locations, words' (l.1 / 4) = words (l.1 / 4) + slide) ∧
        ∀ i, (∀ l ∈ locations, l.1 / 4 ≠ i) → words' i = words i
      | .error _ => is64 = true ∧ ∃ l ∈ locations, words (l.1 / 4) + slide < words (l.1 / 4) := by
  obtain ⟨info, bitmap, isBuilt, isCount, hasBit, isEntry⟩ := buildSlideInfo_spec locations
  have inOrder : ∀ page, page ∈ order ↔ page < mapping.pages := fun page => by rw [isOrder.mem_iff, mem_range]
  have slides : Slides is64 slide (order.foldlM (slidePage is64 slide info))
      { i | ∃ page ∈ order, i / 1024 = page ∧ HasBit bitmap (4 * i) } := by
    refine Slides.foldlM (fun page => { i | i / 1024 = page ∧ HasBit bitmap (4 * i) }) (fun page isPage => ?_) ?_
    · obtain ⟨isIndex, isSame⟩ := isEntry page ((inOrder page).mp isPage)
      exact slides_page (isCount ▸ (inOrder page).mp isPage) isIndex isSame
    · have distinct : order.Nodup := isOrder.nodup_iff.mpr nodup_range
      refine distinct.imp fun different i isFirst isSecond => different (isFirst.1.symm.trans isSecond.1)
  have recorded : ∀ i, (∃ page ∈ order, i / 1024 = page ∧ HasBit bitmap (4 * i)) ↔ ∃ l ∈ locations, l.1 / 4 = i := by
    intro i
    simp only [hasBit, Nat.mul_div_cancel_left i (by decide : 0 < 4), inOrder]
    constructor
    · exact fun ⟨_, _, _, isRecorded⟩ => isRecorded
    · rintro ⟨l, mem, rfl⟩
      have inside : l.1 < mapping.pages * 4096 := l.2.1
      exact ⟨_, by omega, rfl, l, mem, rfl⟩
  refine ⟨info, isBuilt, ?_, ?_⟩
  · rw [slideSanityCheck, all_eq_true]
    intro page isPage
    exact decide_eq_true (isEntry page (isCount ▸ mem_range.mp isPage)).1
  split
  case h_1 _ isOk =>
    obtain ⟨slid, same⟩ := slides.ok isOk
    constructor
    · exact fun l mem => (slid _ ((recorded _).mpr ⟨l, mem, rfl⟩)).1
    · exact fun i notRecorded => same i fun isSlid => (recorded i).mp isSlid |>.elim fun l mem => notRecorded l mem.1 mem.2
  case h_2 _ isError =>
    obtain ⟨i, isSlid, is64, carry⟩ := slides.error isError
    obtain ⟨l, mem, rfl⟩ := (recorded i).mp isSlid
    exact ⟨is64, l, mem, carry⟩

/-- One page with one pointer in it. -/
def onePage : Mapping := { fileOffset := 4096, pages := 1, behindHeader := by decide, isIndexed := by decide }

def thirdWord : onePage.Location := ⟨8, by decide⟩

theorem slidePages_onePage : [0].Perm (range onePage.pages) ∧
    ∃ info, buildSlideInfo onePage (pointersOf [thirdWord]) = .ok info ∧ slideSanityCheck info = true ∧
      match [0].foldlM (slidePage true 16 info) (fun _ => 5) with
      | .ok words' => (∀ l ∈ [thirdWord], words' (l.1 / 4) = 5 + 16) ∧ ∀ i, (∀ l ∈ [thirdWord], l.1 / 4 ≠ i) → words' i = 5
      | .error _ => true = true ∧ ∃ l ∈ [thirdWord], (5 : BitVec 32) + 16 < 5 :=
  ⟨List.Perm.refl _, slidePages_recorded onePage [thirdWord] true 16 (fun _ => 5) [0] (List.Perm.refl _)⟩

end Sliding

end DarwinNotes.Dyld.SlideInfo
