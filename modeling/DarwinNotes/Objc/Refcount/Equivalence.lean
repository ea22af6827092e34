import DarwinNotes.Objc.Refcount.Counting
import DarwinNotes.Objc.Refcount.Raw

/-!
# The representation of the isa cannot be observed

An object is a count and two flags. Both representations of the isa are refinements of
that, and `changeIsa` goes from one to the other without a change of the count and the
flags. Two things are left out: an object whose raw isa is a metaclass is not counted
at all, and a release too many takes a raw count below zero.
-/

namespace DarwinNotes.Objc.Refcount

variable {arch : Arch}

/-! ## The abstract object -/

/-- The references beyond the first, and the flags. -/
structure Counted where
  extra : Nat
  deallocating : Bool
  weaklyReferenced : Bool
deriving DecidableEq, Repr

namespace Counted

/-- A release too many. -/
def Overreleased (counted : Counted) : Prop := counted.extra = 0 ∧ counted.deallocating = true

def call (counted : Counted) : Call → Counted × Reply
  | .retain => ({ counted with extra := counted.extra + 1 }, .done)
  | .release =>
    if counted.extra = 0 then ({ counted with deallocating := true }, .released true)
    else ({ counted with extra := counted.extra - 1 }, .released false)
  | .tryRetain =>
    if counted.deallocating then (counted, .retained false)
    else ({ counted with extra := counted.extra + 1 }, .retained true)
  | .retainCount => (counted, .count (1 + counted.extra))
  | .setClass _ => (counted, .done)

end Counted

/-! ## The word of a raw isa -/

/-- The count above the flags. -/
def Counted.word (counted : Counted) : Nat := 4 * counted.extra + (2 * counted.deallocating.toNat + counted.weaklyReferenced.toNat)

namespace Counted
variable (counted : Counted)

theorem flags_lt : 2 * counted.deallocating.toNat + counted.weaklyReferenced.toNat < 4 := by
  cases counted.deallocating <;> cases counted.weaklyReferenced <;> decide

theorem word_div : counted.word / 4 = counted.extra := by
  have := counted.flags_lt
  unfold word
  omega

theorem testBit_word_one : counted.word.testBit 1 = counted.deallocating := by
  have := Bool.toNat_lt counted.deallocating
  have := Bool.toNat_lt counted.weaklyReferenced
  have : counted.word / 2 % 2 = counted.deallocating.toNat := by unfold word; omega
  rw [Nat.testBit_eq_decide_div_mod_eq, pow_one, this]
  cases counted.deallocating <;> rfl

theorem testBit_word_zero : counted.word.testBit 0 = counted.weaklyReferenced := by
  have := Bool.toNat_lt counted.weaklyReferenced
  have : counted.word % 2 = counted.weaklyReferenced.toNat := by unfold word; omega
  rw [Nat.testBit_zero, this]
  cases counted.weaklyReferenced <;> rfl

variable {counted}

theorem testBit_word_pinned (small : counted.extra ≤ 2 ^ 60) : counted.word.testBit 63 = false := by
  have := counted.flags_lt
  refine Nat.testBit_lt_two_pow ?_
  unfold word
  omega

theorem addOne_word (small : counted.extra < 2 ^ 60) :
    addOne counted.word = ({ counted with extra := counted.extra + 1 } : Counted).word := by
  have := counted.flags_lt
  rw [addOne, testBit_word_pinned small.le, if_neg Bool.false_ne_true]
  unfold word
  dsimp only
  omega

end Counted

/-! ## The representations -/

/-- The object stands for the count and the flags. -/
def Represents (arch : Arch) (object : Object) (counted : Counted) : Prop :=
  match object.isa with
  | .raw cls => cls.isMetaClass = false ∧ object.refcnt.getD 0 = counted.word
  | .nonpointer fields =>
    fields.extraRc < 2 ^ arch.extraRcBits ∧ Chunked arch object.refcnt ∧
    (fields.hasSidetableRc = false → sidetableGetExtraRC object.refcnt = 0) ∧
    counted = ⟨fields.extraRc + sidetableGetExtraRC object.refcnt, fields.deallocating, fields.weaklyReferenced⟩

/-- What can be seen of the object. -/
def Object.view (object : Object) : Nat × Bool × Bool := (object.rootRetainCount, object.rootIsDeallocating, object.isWeaklyReferenced)

variable {object : Object} {counted : Counted}

theorem Represents.view (represents : Represents arch object counted) :
    object.view = (1 + counted.extra, counted.deallocating, counted.weaklyReferenced) := by
  obtain ⟨isa, refcnt⟩ := object
  cases isa with
  | raw =>
    obtain ⟨-, word⟩ : _ ∧ refcnt.getD 0 = counted.word := represents
    simp only [Object.view, Object.rootRetainCount, Object.rootIsDeallocating, Object.isWeaklyReferenced,
      sidetableRetainCount, sidetableIsDeallocating, sidetableIsWeaklyReferenced, word, counted.word_div,
      counted.testBit_word_one, counted.testBit_word_zero]
  | nonpointer fields =>
    obtain ⟨-, -, flag, rfl⟩ := represents
    simp only [Object.view, Object.rootRetainCount, Object.rootIsDeallocating, Object.isWeaklyReferenced]
    cases spilled : fields.hasSidetableRc with
    | true => simp [Nat.add_assoc]
    | false => simp [flag spilled]

/-! ## One call -/

/-- The call neither releases too often nor makes the raw isa a metaclass. -/
def Proper (object : Object) : Call → Prop
  | .release => ¬ (object.rootRetainCount = 1 ∧ object.rootIsDeallocating = true)
  | .setClass newCls => (∃ fields, object.isa = .nonpointer fields) ∧ newCls.allowsNonpointer = true ∨ newCls.isMetaClass = false
  | _ => True

/-- A call refines the one of the abstract object. -/
def Refines (arch : Arch) (object : Object) (counted : Counted) (call : Call) : Prop :=
  Represents arch (object.call arch call).1 (counted.call call).1 ∧ (object.call arch call).2 = (counted.call call).2

section Raw

/-- A word that is missing is like the word 0. -/
theorem sidetableTryRetain_getD (refcnt : Option Nat) : sidetableTryRetain refcnt = sidetableTryRetain (some (refcnt.getD 0)) := by
  cases refcnt <;> rfl

theorem sidetableRelease_getD (refcnt : Option Nat) : sidetableRelease refcnt = sidetableRelease (some (refcnt.getD 0)) := by
  cases refcnt <;> rfl

variable {cls : Class} {refcnt : Option Nat} {counted : Counted} (represents : Represents arch ⟨.raw cls, refcnt⟩ counted)
include represents

variable (small : counted.extra < 2 ^ 60)
include small

theorem raw_retain : Refines arch ⟨.raw cls, refcnt⟩ counted .retain := by
  obtain ⟨ordinary, word⟩ : cls.isMetaClass = false ∧ refcnt.getD 0 = counted.word := represents
  have called : Object.call arch ⟨.raw cls, refcnt⟩ .retain = (⟨.raw cls, some (addOne counted.word)⟩, .done) := by
    simp [Object.call, Object.rootRetain, ordinary, sidetableRetain, word]
  rw [Refines, called]
  exact ⟨⟨ordinary, Counted.addOne_word small⟩, rfl⟩

theorem raw_tryRetain : Refines arch ⟨.raw cls, refcnt⟩ counted .tryRetain := by
  obtain ⟨ordinary, word⟩ : cls.isMetaClass = false ∧ refcnt.getD 0 = counted.word := represents
  have tried : sidetableTryRetain refcnt =
      if counted.deallocating then (some counted.word, false) else (some (addOne counted.word), true) := by
    rw [sidetableTryRetain_getD, word, sidetableTryRetain, counted.testBit_word_one]
  have called : Object.call arch ⟨.raw cls, refcnt⟩ .tryRetain =
      (⟨.raw cls, (sidetableTryRetain refcnt).1⟩, .retained (sidetableTryRetain refcnt).2) := by
    simp [Object.call, Object.rootRetain, ordinary]
  rw [Refines, called, tried, Counted.call]
  split
  next => exact ⟨⟨ordinary, rfl⟩, rfl⟩
  next => exact ⟨⟨ordinary, Counted.addOne_word small⟩, rfl⟩

theorem raw_release (proper : ¬ counted.Overreleased) : Refines arch ⟨.raw cls, refcnt⟩ counted .release := by
  obtain ⟨ordinary, word⟩ : cls.isMetaClass = false ∧ refcnt.getD 0 = counted.word := represents
  have flags := counted.flags_lt
  have released : sidetableRelease refcnt =
      if counted.extra = 0 then (some ({ counted with deallocating := true } : Counted).word, true)
      else (some ({ counted with extra := counted.extra - 1 } : Counted).word, false) := by
    rw [sidetableRelease_getD, word, sidetableRelease, Counted.testBit_word_pinned small.le]
    by_cases none : counted.extra = 0
    · -- only the weak reference flag may be set
      have unset := Bool.eq_false_iff.mpr fun set => proper ⟨none, set⟩
      have few : counted.word = counted.weaklyReferenced.toNat := by simp [Counted.word, none, unset]
      rw [if_pos none, if_pos (by rw [few]; cases counted.weaklyReferenced <;> decide), few]
      simp only [Counted.word, none]
      cases counted.weaklyReferenced <;> rfl
    · have large : ¬ counted.word < 2 := by
        unfold Counted.word
        omega
      have less : (counted.word + 2 ^ 64 - 4) % 2 ^ 64 = ({ counted with extra := counted.extra - 1 } : Counted).word := by
        unfold Counted.word
        dsimp only
        omega
      rw [if_neg none, if_neg large, less]
      rfl
  have called : Object.call arch ⟨.raw cls, refcnt⟩ .release =
      (⟨.raw cls, (sidetableRelease refcnt).1⟩, .released (sidetableRelease refcnt).2) := by
    simp [Object.call, Object.rootRelease, ordinary]
  rw [Refines, called, released, Counted.call]
  split
  next => exact ⟨⟨ordinary, rfl⟩, rfl⟩
  next => exact ⟨⟨ordinary, rfl⟩, rfl⟩

end Raw

section Nonpointer

variable {fields : IsaFields} {refcnt : Option Nat} {counted : Counted}

/-- One more reference, inline or in the side table. -/
theorem nonpointer_add (tryRetain : Bool) (represents : Represents arch ⟨.nonpointer fields, refcnt⟩ counted)
    (small : counted.extra < 2 ^ 60) (alive : (tryRetain && fields.deallocating) = false) :
    Represents arch (Object.rootRetain arch tryRetain ⟨.nonpointer fields, refcnt⟩).1 { counted with extra := counted.extra + 1 } ∧
      (Object.rootRetain arch tryRetain ⟨.nonpointer fields, refcnt⟩).2 = true := by
  obtain ⟨_, chunked, flag, rfl⟩ := represents
  dsimp only at small chunked flag ⊢
  simp only [Object.rootRetain, alive, Bool.false_eq_true, if_false]
  split
  next fits => exact ⟨⟨fits, chunked, flag, by simp only [Nat.add_right_comm]⟩, rfl⟩
  next full =>
    have halves := two_rcHalf arch
    obtain ⟨chunked', sum⟩ := sidetableAddExtraRC_spec chunked (by omega)
    refine ⟨⟨?_, chunked', nofun, ?_⟩, rfl⟩
    · dsimp only
      omega
    · simp only [sum, Counted.mk.injEq, and_true]
      omega

variable (represents : Represents arch ⟨.nonpointer fields, refcnt⟩ counted)
include represents

theorem nonpointer_last (last : counted.extra = 0)
    (proper : ¬ counted.Overreleased) :
    Represents arch (Object.releaseLast ⟨.nonpointer fields, refcnt⟩ fields).1 { counted with deallocating := true } ∧
      (Object.releaseLast ⟨.nonpointer fields, refcnt⟩ fields).2 = true := by
  obtain ⟨width, chunked, flag, rfl⟩ := represents
  have unset : fields.deallocating = false := Bool.eq_false_iff.mpr fun set => proper ⟨last, set⟩
  rw [Object.releaseLast, if_neg (by rw [unset]; decide)]
  exact ⟨⟨width, chunked, flag, rfl⟩, rfl⟩

theorem nonpointer_release
    (small : counted.extra < 2 ^ 60) (proper : ¬ counted.Overreleased) : Refines arch ⟨.nonpointer fields, refcnt⟩ counted .release := by
  have last := fun none => nonpointer_last represents none proper
  obtain ⟨_, chunked, flag, rfl⟩ := represents
  dsimp only at small chunked flag last
  simp only [Refines, Object.call, Object.rootRelease, Counted.call]
  by_cases inline : 1 ≤ fields.extraRc
  · rw [if_pos inline, if_neg (by omega)]
    refine ⟨⟨by dsimp only; omega, chunked, flag, ?_⟩, rfl⟩
    rw [Nat.sub_add_comm inline]
  rw [if_neg inline]
  by_cases empty : sidetableGetExtraRC refcnt = 0
  · -- the side table has nothing to borrow
    have none : fields.extraRc + sidetableGetExtraRC refcnt = 0 := by omega
    obtain ⟨represents', dealloc⟩ := last none
    simp only [sidetableSubExtraRC_empty chunked empty, Nat.lt_irrefl, if_false, ite_self]
    rw [if_pos none]
    exact ⟨represents', congrArg Reply.released dealloc⟩
  · have spilled : fields.hasSidetableRc = true := by
      by_contra unset
      exact empty (flag (Bool.eq_false_iff.mpr unset))
    obtain ⟨_, borrowed, chunked', _⟩ := sidetableSubExtraRC_spec chunked (Nat.pos_of_ne_zero empty) (by omega)
    have positive := rcHalf_pos arch
    have halves := two_rcHalf arch
    rw [if_pos spilled, borrowed, if_pos positive, if_neg (by omega)]
    refine ⟨⟨by dsimp only; omega, chunked', fun unset => ?_, ?_⟩, rfl⟩
    · rw [spilled] at unset
      cases unset
    · dsimp only
      congr 1
      omega

end Nonpointer

/-! ## Changing the class -/

/-- **`sidetable_moveExtraRC_nolock`** writes the word of a raw isa. -/
theorem sidetableMoveExtraRC_eq {refcnt : Option Nat} (chunked : Chunked arch refcnt) {extraRc : Nat}
    (small : extraRc + sidetableGetExtraRC refcnt < 2 ^ 60) (deallocating weaklyReferenced : Bool) :
    sidetableMoveExtraRC refcnt extraRc deallocating weaklyReferenced =
      some (⟨extraRc + sidetableGetExtraRC refcnt, deallocating, weaklyReferenced⟩ : Counted).word := by
  obtain ⟨_, word⟩ := chunked
  have sum : refcnt.getD 0 + extraRc * 4 = 4 * (extraRc + sidetableGetExtraRC refcnt) := by
    unfold sidetableGetExtraRC
    omega
  generalize extraRc + sidetableGetExtraRC refcnt = extra at small sum
  have or_two : 4 * extra ||| 2 = 4 * extra + 2 := (Nat.two_pow_add_eq_or_of_lt (i := 2) (by decide) extra).symm
  have or_one : 4 * extra ||| 1 = 4 * extra + 1 := (Nat.two_pow_add_eq_or_of_lt (i := 2) (by decide) extra).symm
  have or_both : (4 * extra + 2) ||| 1 = 4 * extra + 3 := by
    have := Nat.two_pow_add_eq_or_of_lt (i := 1) (b := 1) (by decide) (2 * extra + 1)
    rw [show 2 ^ 1 * (2 * extra + 1) = 4 * extra + 2 by omega] at this
    exact this.symm
  have fits : ¬ 2 ^ 64 ≤ 4 * extra := by omega
  simp only [sidetableMoveExtraRC, sum, if_neg fits]
  cases deallocating <;> cases weaklyReferenced <;> simp [Counted.word, or_two, or_one, or_both]

variable (represents : Represents arch object counted)
include represents

theorem represents_changeIsa (small : counted.extra < 2 ^ 60) {newCls : Class} (proper : Proper object (.setClass newCls))
    : Represents arch (object.changeIsa newCls) counted := by
  obtain ⟨isa, refcnt⟩ := object
  cases isa with
  | raw =>
    have ordinary := proper.resolve_left fun ⟨⟨_, packed⟩, _⟩ => nomatch packed
    exact ⟨ordinary, represents.2⟩
  | nonpointer fields =>
    obtain ⟨width, chunked, flag, rfl⟩ := represents
    by_cases packs : newCls.allowsNonpointer = true
    · have changed : Object.changeIsa ⟨.nonpointer fields, refcnt⟩ newCls =
          ⟨.nonpointer { fields with cls := newCls, hasCxxDtor := newCls.hasCxxDtor }, refcnt⟩ := if_pos packs
      rw [changed]
      exact ⟨width, chunked, flag, rfl⟩
    · have ordinary := proper.resolve_left fun ⟨_, allowed⟩ => packs allowed
      have changed : Object.changeIsa ⟨.nonpointer fields, refcnt⟩ newCls =
          ⟨.raw newCls, sidetableMoveExtraRC refcnt fields.extraRc fields.deallocating fields.weaklyReferenced⟩ := if_neg packs
      rw [changed, sidetableMoveExtraRC_eq chunked small]
      exact ⟨ordinary, rfl⟩

/-- **Each call does the same to both representations.** -/
theorem Represents.call (small : object.rootRetainCount < 2 ^ 60) {call : Call} (proper : Proper object call)
    : Refines arch object counted call := by
  have view := represents.view
  simp only [Object.view, Prod.mk.injEq] at view
  have few : counted.extra < 2 ^ 60 := by omega
  cases call with
  | retain =>
    obtain ⟨isa, refcnt⟩ := object
    cases isa with
    | raw => exact raw_retain represents few
    | nonpointer => exact ⟨(nonpointer_add false represents few rfl).1, rfl⟩
  | tryRetain =>
    obtain ⟨isa, refcnt⟩ := object
    cases isa with
    | raw => exact raw_tryRetain represents few
    | nonpointer fields =>
      have same : fields.deallocating = counted.deallocating := view.2.1
      rw [Refines, Counted.call]
      split
      case isTrue dying =>
        have nil : Object.rootRetain arch true ⟨.nonpointer fields, refcnt⟩ = (⟨.nonpointer fields, refcnt⟩, false) := by
          simp [Object.rootRetain, same, dying]
        simp only [Object.call, nil]
        exact ⟨represents, trivial⟩
      case isFalse alive =>
        obtain ⟨represents', result⟩ := nonpointer_add true represents few (by simp [same, alive])
        exact ⟨represents', congrArg Reply.retained result⟩
  | release =>
    have enough : ¬ counted.Overreleased := by
      rintro ⟨none, dying⟩
      exact proper ⟨by rw [view.1, none], by rw [view.2.1, dying]⟩
    obtain ⟨isa, refcnt⟩ := object
    cases isa with
    | raw => exact raw_release represents few enough
    | nonpointer => exact nonpointer_release represents few enough
  | retainCount => exact ⟨represents, congrArg Reply.count view.1⟩
  | setClass => exact ⟨represents_changeIsa represents few proper, rfl⟩

/-! ## Sequences of calls -/

/-- The same call, or a change of class after which a nonpointer isa is one still. -/
inductive Alike : Call → Call → Prop
  | same {call : Call} : (∀ newCls, call ≠ .setClass newCls) → Alike call call
  | setClass {newCls newCls' : Class} : newCls'.allowsNonpointer = true → Alike (.setClass newCls) (.setClass newCls')

/-- All calls are proper and the count stays below 2⁶⁰. -/
def AllProper (arch : Arch) (object : Object) : List Call → Prop
  | [] => True
  | call :: rest => object.rootRetainCount < 2 ^ 60 ∧ Proper object call ∧ AllProper arch (object.call arch call).1 rest

def Object.isNonpointer (object : Object) : Prop := ∃ fields, object.isa = .nonpointer fields

omit represents in
/-- Only `changeIsa` to a class that requires it makes a nonpointer isa raw. -/
theorem isNonpointer_call (packed : object.isNonpointer) {call call' : Call} (alike : Alike call call') :
    (object.call arch call').1.isNonpointer := by
  obtain ⟨isa, refcnt⟩ := object
  obtain ⟨fields, rfl⟩ : ∃ fields, isa = .nonpointer fields := packed
  cases call' with
  | retain | tryRetain | release =>
    simp only [Object.call, Object.rootRetain, Object.rootRelease, Object.releaseLast]
    split_ifs <;> exact ⟨_, rfl⟩
  | retainCount => exact ⟨fields, rfl⟩
  | setClass newCls =>
    have packs : newCls.allowsNonpointer = true := by
      cases alike with
      | same other => exact absurd rfl (other newCls)
      | setClass packs => exact packs
    exact ⟨_, congrArg Object.isa (if_pos packs)⟩

/-- Two objects with the same count and flags, one of which stays nonpointer. -/
theorem calls_alike {object' : Object} (represents' : Represents arch object' counted) (packed : object'.isNonpointer)
    {calls calls' : List Call} (alike : List.Forall₂ Alike calls calls') (proper : AllProper arch object calls)
    : (object.calls arch calls).2 = (object'.calls arch calls').2 ∧
      (∃ counted', Represents arch (object.calls arch calls).1 counted' ∧ Represents arch (object'.calls arch calls').1 counted') ∧
      (object'.calls arch calls').1.isNonpointer := by
  induction alike generalizing object object' counted with
  | nil => exact ⟨rfl, ⟨counted, represents, represents'⟩, packed⟩
  | @cons call call' _ _ pair _ ih =>
    obtain ⟨small, allowed, proper⟩ := proper
    have sameView := represents.view.trans represents'.view.symm
    simp only [Object.view, Prod.mk.injEq] at sameView
    have allowed' : Proper object' call' := by
      cases pair with
      | same other =>
        cases call with
        | release => rwa [Proper, ← sameView.1, ← sameView.2.1]
        | setClass newCls => exact absurd rfl (other newCls)
        | retain | tryRetain | retainCount => trivial
      | setClass packs => exact .inl ⟨packed, packs⟩
    have sameCounted : counted.call call' = counted.call call := by cases pair <;> rfl
    obtain ⟨next, reply⟩ := represents.call small allowed
    obtain ⟨next', reply'⟩ := represents'.call (sameView.1 ▸ small) allowed'
    rw [sameCounted] at next' reply'
    obtain ⟨replies, views, packed'⟩ := ih next next' (isNonpointer_call packed pair) proper
    exact ⟨congrArg₂ List.cons (reply.trans reply'.symm) replies, views, packed'⟩

omit represents

/-- A nonpointer object as the runtime leaves it. -/
structure WellFormed (arch : Arch) (object : Object) (fields : IsaFields) : Prop where
  isa : object.isa = .nonpointer fields
  width : fields.extraRc < 2 ^ arch.extraRcBits
  chunked : Chunked arch object.refcnt
  flag : fields.hasSidetableRc = false → sidetableGetExtraRC object.refcnt = 0

/-- **The representation of the isa cannot be observed.** -/
theorem representation_unobservable {arch : Arch} {object : Object} {fields : IsaFields}
    (wellFormed : WellFormed arch object fields) {calls calls' : List Call} (alike : List.Forall₂ Alike calls calls')
    (proper : AllProper arch object calls) : (object.calls arch calls).2 = (object.calls arch calls').2 ∧
    (object.calls arch calls).1.view = (object.calls arch calls').1.view ∧ (object.calls arch calls').1.isNonpointer := by
  obtain ⟨_, refcnt⟩ := object
  obtain ⟨rfl, width, chunked, flag⟩ := wellFormed
  have represents : Represents arch ⟨.nonpointer fields, refcnt⟩
      ⟨fields.extraRc + sidetableGetExtraRC refcnt, fields.deallocating, fields.weaklyReferenced⟩ := ⟨width, chunked, flag, rfl⟩
  obtain ⟨replies, ⟨_, first, second⟩, packed⟩ := calls_alike represents represents ⟨fields, rfl⟩ alike proper
  exact ⟨replies, first.view.trans second.view.symm, packed⟩

/-- A class that can be packed. -/
def plainClass : Class := ⟨0x1000, false, false, false, false⟩

/-- A class whose instances require a raw isa. -/
def rawClass : Class := ⟨0x2000, false, false, true, false⟩

/-- A new object. -/
def newObject : Object := ⟨.nonpointer ⟨plainClass, false, false, false, false, false, 0⟩, none⟩

theorem wellFormed_newObject : WellFormed .arm64 newObject ⟨plainClass, false, false, false, false, false, 0⟩ :=
  ⟨rfl, by decide, ⟨0, by decide⟩, fun _ => rfl⟩

theorem representation_unobservable_released : (newObject.calls .arm64 [.retain, .setClass rawClass, .release, .release, .retainCount]).2 =
      (newObject.calls .arm64 [.retain, .setClass plainClass, .release, .release, .retainCount]).2 := by
  have alike : List.Forall₂ Alike [.retain, .setClass rawClass, .release, .release, .retainCount]
      [.retain, .setClass plainClass, .release, .release, .retainCount] :=
    .cons (.same nofun) (.cons (.setClass rfl) (.cons (.same nofun) (.cons (.same nofun) (.cons (.same nofun) .nil))))
  refine (representation_unobservable wellFormed_newObject alike ?_).1
  refine ⟨by decide, trivial, by decide, .inr rfl, by decide, ?_, by decide, ?_, by decide, trivial, trivial⟩
  · show ¬ (_ ∧ _)
    decide
  · show ¬ (_ ∧ _)
    decide

/-- **A raw isa shows** when an object is released too often, and when the class is a metaclass. -/
theorem raw_isa_observable : (newObject.calls .arm64 [.setClass rawClass, .release, .release, .retainCount]).2 =
      [.done, .released true, .released false, .count (2 ^ 62)] ∧
    (newObject.calls .arm64 [.setClass plainClass, .release, .release, .retainCount]).2 =
      [.done, .released true, .released false, .count 1] ∧
    (newObject.calls .arm64 [.setClass { rawClass with isMetaClass := true }, .retain, .retainCount]).2 = [.done, .done, .count 1] ∧
    (newObject.calls .arm64 [.setClass plainClass, .retain, .retainCount]).2 = [.done, .done, .count 2] := by
  decide

end DarwinNotes.Objc.Refcount
