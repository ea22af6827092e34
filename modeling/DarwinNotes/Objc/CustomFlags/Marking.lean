import DarwinNotes.Objc.CustomFlags.Model
import DarwinNotes.Objc.Dispatch.Coherence

/-!
# What a flag says, and how it is taken back

A class whose flag is set has no selector of the bundle in its own lists, and the
flag of its superclass is set too, up to NSObject. So when a class is marked as
custom, the walk over its subclasses may stop at those that are custom already or
not initialized: nothing below them has the flag.
-/

namespace DarwinNotes.Objc.CustomFlags
open Objc.ClassTree Objc.Dispatch

variable {Class Method : Type} [DecidableEq Class]

/-- The scanner sets the flag of metaclasses, or of the other classes. -/
def Scanner.Covers (scanner : Scanner) (isMeta : Bool) : Prop := scanner.domain ≠ if isMeta then .Instances else .Classes

instance (scanner : Scanner) (isMeta : Bool) : Decidable (scanner.Covers isMeta) := inferInstanceAs (Decidable (_ ≠ _))

/-- The lists of a class that can override NSObject: not the base methods of NSObject itself. -/
def Env.ownMethodLists (env : Env Class) (st : State Class Method) (cls : Class) : List (List Method) :=
  if cls = env.nsoClass (env.isMetaClass cls) then env.categoryMethodLists st cls else st.rt.methods cls

/-- What the flag of a class says. The superclass of an `exempt` class has just been replaced. -/
structure Default (env : Env Class) (scanner : Scanner) (exempt : Class → Prop) (st : State Class Method)
    (cls : Class) : Prop where
  initialized : env.isInitialized st cls = true
  realized : st.rt.isRealized cls = true
  covered : scanner.Covers (env.isMetaClass cls)
  clean : scanner.scanMethodLists st (env.ownMethodLists st cls) = false
  root : cls = env.nsoClass (env.isMetaClass cls) → scanner.isNSObjectSwizzled st (env.isMetaClass cls) = false
  inherits : cls ≠ env.nsoClass (env.isMetaClass cls) → ¬ exempt cls →
    ∃ supercls, st.rt.links.superclass cls = some supercls ∧ scanner.isCustom st supercls = false

/-- All flags of a bundle are right. -/
def Flags (env : Env Class) (scanner : Scanner) (exempt : Class → Prop) (st : State Class Method) : Prop :=
  ∀ cls, scanner.isCustom st cls = false → Default env scanner exempt st cls

/-- No class is exempt. -/
def nobody (_ : Class) : Prop := False

/-- The classes that the walk from a class can come to: all realized ones, except perhaps exempt ones. -/
structure Walkable (exempt : Class → Prop) (rt : Runtime Class Method) : Prop where
  grounded : Grounded rt.links
  forest : ∃ linked, Forest rt.links linked ∧ ∀ cls, rt.isRealized cls = true → ¬ exempt cls → linked cls

omit [DecidableEq Class] in
theorem walkable_of_hierarchy {rt : Runtime Class Method} (hierarchy : Hierarchy rt) : Walkable nobody rt :=
  ⟨hierarchy.grounded, _, hierarchy.forest, fun _ isRealized _ => isRealized⟩

/-- A scan changes the flags of its own bundle, and the bits of NSObject, and nothing else. -/
structure Scanner.Only (scanner : Scanner) (st st' : State Class Method) : Prop where
  rt : st'.rt = st.rt
  hasDefault : ∀ bundle, bundle ≠ scanner.bundle → st'.hasDefault bundle = st.hasDefault bundle
  swizzled : ∀ bundle, bundle ≠ scanner.bundle → st'.swizzled bundle = st.swizzled bundle

section Only

variable {scanner : Scanner} {st st' st'' : State Class Method}

omit [DecidableEq Class]

theorem Scanner.Only.refl : scanner.Only st st := ⟨rfl, fun _ _ => rfl, fun _ _ => rfl⟩

theorem Scanner.Only.trans (first : scanner.Only st st') (second : scanner.Only st' st'') : scanner.Only st st'' :=
  ⟨second.rt.trans first.rt, fun bundle other => (second.hasDefault bundle other).trans (first.hasDefault bundle other),
    fun bundle other => (second.swizzled bundle other).trans (first.swizzled bundle other)⟩

end Only

section Change

variable {env : Env Class} {scanner : Scanner} {exempt : Class → Prop} {st st' : State Class Method}

/-- Flags stay right while fewer classes have them and nothing else is taken away. -/
theorem Default.change {cls : Class} (isDefault : Default env scanner exempt st cls)
    (initialized : ∀ c, env.isInitialized st c = true → env.isInitialized st' c = true)
    (realized : ∀ c, st.rt.isRealized c = true → st'.rt.isRealized c = true)
    (clean : scanner.scanMethodLists st (env.ownMethodLists st cls) = false →
      scanner.scanMethodLists st' (env.ownMethodLists st' cls) = false)
    (swizzled : cls = env.nsoClass (env.isMetaClass cls) →
      scanner.isNSObjectSwizzled st' (env.isMetaClass cls) = scanner.isNSObjectSwizzled st (env.isMetaClass cls))
    (superclass : ∀ supercls, st.rt.links.superclass cls = some supercls → scanner.isCustom st supercls = false →
      st'.rt.links.superclass cls = some supercls ∧ scanner.isCustom st' supercls = false) : Default env scanner exempt st' cls where
  initialized := initialized cls isDefault.initialized
  realized := realized cls isDefault.realized
  covered := isDefault.covered
  clean := clean isDefault.clean
  root isNSObject := (swizzled isNSObject).trans (isDefault.root isNSObject)
  inherits other notExempt := by
    obtain ⟨supercls, super, superDefault⟩ := isDefault.inherits other notExempt
    exact ⟨supercls, superclass supercls super superDefault⟩

theorem Flags.congr (flags : Flags env scanner exempt st) (rt : st'.rt = st.rt)
    (hasDefault : st'.hasDefault scanner.bundle = st.hasDefault scanner.bundle)
    (swizzled : st'.swizzled scanner.bundle = st.swizzled scanner.bundle) : Flags env scanner exempt st' := by
  have custom : ∀ c, scanner.isCustom st' c = scanner.isCustom st c := by
    intro c
    rw [Scanner.isCustom, State.hasCustom, hasDefault]
    rfl
  intro cls isDefault
  rw [custom] at isDefault
  refine (flags cls isDefault).change ?_ ?_ ?_ ?_ ?_
  · simp [Env.isInitialized, rt]
  · rw [rt]
    exact fun _ => id
  · simp [Scanner.scanMethodLists, Env.ownMethodLists, Env.categoryMethodLists, rt]
  · intro _
    rw [Scanner.isNSObjectSwizzled, swizzled]
    rfl
  · intro supercls super superDefault
    rw [rt, custom]
    exact ⟨super, superDefault⟩

end Change

/-! ## Marking -/

section Marking

variable {env : Env Class} {scanner : Scanner} {exempt : Class → Prop} {st st' : State Class Method}

/-- The flags of these classes are gone. -/
structure Scanner.Marked (scanner : Scanner) (st st' : State Class Method) (marked : Class → Prop) : Prop where
  rt : st'.rt = st.rt
  swizzled : st'.swizzled = st.swizzled
  custom : ∀ bundle cls, st'.hasCustom bundle cls = false ↔ st.hasCustom bundle cls = false ∧ ¬ (bundle = scanner.bundle ∧ marked cls)

theorem Scanner.setCustom_custom (bundle : SelectorBundle) (cls c : Class) : (scanner.setCustom st cls).hasCustom bundle c = false ↔
      st.hasCustom bundle c = false ∧ ¬ (bundle = scanner.bundle ∧ c = cls) := by
  simp only [State.hasCustom, Scanner.setCustom, Scanner.setFlag]
  by_cases same : bundle = scanner.bundle
  · subst same
    by_cases here : c = cls
    · simp [here]
    · simp [here]
  · simp [same]

theorem Scanner.foldl_marked (scanner : Scanner) (list : List Class) :
    ∀ st : State Class Method, scanner.Marked st (list.foldl scanner.setCustom st) (· ∈ list) := by
  induction list with
  | nil => exact fun st => ⟨rfl, rfl, fun bundle cls => by simp⟩
  | cons first _ ih =>
    intro st
    have later := ih (scanner.setCustom st first)
    refine ⟨later.rt, later.swizzled, fun bundle cls => ?_⟩
    rw [List.foldl_cons, later.custom, Scanner.setCustom_custom, List.mem_cons]
    tauto

omit [DecidableEq Class] in
theorem Scanner.Marked.only {marked : Class → Prop} (isMarked : scanner.Marked st st' marked) : scanner.Only st st' := by
  refine ⟨isMarked.rt, fun bundle other => funext fun cls => ?_, fun bundle _ => congrFun isMarked.swizzled bundle⟩
  have same := isMarked.custom bundle cls
  simp only [State.hasCustom, Bool.not_eq_false', other, false_and, not_false_eq_true, and_true] at same
  exact Bool.eq_iff_iff.mpr same

/-- **The walk marks what is below, down to the classes it stops at.** -/
theorem Scanner.setCustomRecursively_marked {linked : Class → Prop} (forest : Forest st.rt.links linked)
    (grounded : Grounded st.rt.links) {count : Nat} {cls : Class}
    (run : scanner.setCustomRecursively env st count cls = some st') : scanner.Marked st st' fun c =>
      Below st.rt.links linked ⟨false, env.isMetaClass, scanner.marks env st cls⟩ cls c ∧ scanner.marks env st cls c = true := by
  obtain ⟨⟨_, visited⟩, walked, rfl⟩ := Option.map_eq_some_iff.mp run
  have shown := foreachRealizedClassAndSubclass_visits forest grounded walked
  have isMarked := Scanner.foldl_marked scanner (visited.filter (scanner.marks env st cls)) st
  refine ⟨isMarked.rt, isMarked.swizzled, fun bundle c => (isMarked.custom bundle c).trans ?_⟩
  have iff : c ∈ visited.filter (scanner.marks env st cls) ↔
      Below st.rt.links linked ⟨false, env.isMetaClass, scanner.marks env st cls⟩ cls c ∧ scanner.marks env st cls c = true := by
    rw [List.mem_filter, shown c]
    simp [Visitor.shows]
  rw [iff]

/-- The block marks every class that has the flag. -/
theorem Scanner.marks_of_default {cls c : Class} (initialized : c ≠ cls → env.isInitialized st c = true)
    (isDefault : scanner.isCustom st c = false) : scanner.marks env st cls c = true := by
  by_cases top : c = cls
  · simp [Scanner.marks, top, top ▸ isDefault]
  · simp [Scanner.marks, initialized top, isDefault]

/-- **A class and its subclasses are marked**: all other flags stay right. Nothing is asked of the flag
of the class itself. -/
theorem Flags.setCustomRecursively {cls : Class}
    (flags : ∀ c, c ≠ cls → scanner.isCustom st c = false → Default env scanner exempt st c)
    (walkable : Walkable exempt st.rt) {count : Nat} (run : scanner.setCustomRecursively env st count cls = some st') :
    Flags env scanner exempt st' ∧ scanner.isCustom st' cls = true ∧ scanner.Only st st' ∧ st'.swizzled = st.swizzled := by
  obtain ⟨_, forest, links⟩ := walkable.forest
  have isMarked := Scanner.setCustomRecursively_marked forest walkable.grounded run
  have top : scanner.isCustom st' cls = true := by
    by_contra notCustom
    obtain ⟨was, unmarked⟩ := (isMarked.custom _ cls).mp (Bool.not_eq_true _ ▸ notCustom)
    exact unmarked ⟨rfl, .refl, Scanner.marks_of_default (absurd rfl) was⟩
  refine ⟨fun c isDefault => ?_, top, isMarked.only, isMarked.swizzled⟩
  obtain ⟨was, unmarked⟩ := (isMarked.custom _ c).mp isDefault
  have other : c ≠ cls := by
    rintro rfl
    exact nomatch top.symm.trans isDefault
  have before := flags c other was
  have marksCls : scanner.marks env st cls c = true := Scanner.marks_of_default (fun _ => before.initialized) was
  refine ⟨?_, ?_, before.covered, ?_, ?_, fun notNSObject notExempt => ?_⟩
  · rw [Env.isInitialized, isMarked.rt]
    exact before.initialized
  · rw [isMarked.rt]
    exact before.realized
  · simpa only [Scanner.scanMethodLists, Env.ownMethodLists, Env.categoryMethodLists, isMarked.rt] using before.clean
  · rw [Scanner.isNSObjectSwizzled, isMarked.swizzled]
    exact before.root
  · obtain ⟨supercls, super, superDefault⟩ := before.inherits notNSObject notExempt
    rw [isMarked.rt]
    refine ⟨supercls, super, (isMarked.custom _ supercls).mpr ⟨superDefault, ?_⟩⟩
    -- had the walk marked the superclass, it would have come here too
    rintro ⟨_, below, superMarks⟩
    refine unmarked ⟨rfl, .child below ?_ (links c before.realized notExempt) super, marksCls⟩
    simpa [Visitor.enters, Visitor.shows] using superMarks

end Marking

end DarwinNotes.Objc.CustomFlags
