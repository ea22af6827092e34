import DarwinNotes.Objc.Dispatch.Model

/-!
# Method caches agree with method lists

A lookup copies what it finds into the cache of the class where it began, also from
the caches of superclasses. So an entry is right as long as no class above has
changed. The classes that a change makes stale are those that inherit from a class
it touches; each change flushes a set that covers them.
-/

namespace DarwinNotes.Objc.Dispatch
open Objc.ClassTree Function List

section

variable {Class Method : Type} {image : Image Class} {rt rt' : Runtime Class Method}

section Search

/-- The walk through the method lists of a class and its superclasses, without caches. -/
inductive Finds (image : Image Class) (rt : Runtime Class Method) (sel : Nat) : Class → Nat → Prop
  | here {cls : Class} {m : Method} : getMethodNoSuper rt cls sel = some m → Finds image rt sel cls (rt.imp m)
  | above {cls supercls : Class} {imp : Nat} : getMethodNoSuper rt cls sel = none →
      rt.links.superclass cls = some supercls → Finds image rt sel supercls imp → Finds image rt sel cls imp
  | nowhere {cls : Class} : getMethodNoSuper rt cls sel = none → rt.links.superclass cls = none → Finds image rt sel cls image.forwardImp

variable {cls : Class}

theorem Finds.unique {sel imp imp' : Nat} (finds : Finds image rt sel cls imp) (finds' : Finds image rt sel cls imp') : imp = imp' := by
  induction finds with
  | here found =>
    cases finds' with
    | here found' => rw [Option.some.inj (found.symm.trans found')]
    | above absent | nowhere absent => exact nomatch found.symm.trans absent
  | above absent super _ ih =>
    cases finds' with
    | here found => exact nomatch found.symm.trans absent
    | above _ super' finds' => exact ih (Option.some.inj (super.symm.trans super') ▸ finds')
    | nowhere _ root => exact nomatch super.symm.trans root
  | nowhere absent root =>
    cases finds' with
    | here found => exact nomatch found.symm.trans absent
    | above _ super => exact nomatch super.symm.trans root
    | nowhere => rfl

/-! ## What a class contributes to a lookup -/

/-- The class and its methods are as before. -/
structure Same (rt rt' : Runtime Class Method) (cls : Class) : Prop where
  superclass : rt'.links.superclass cls = rt.links.superclass cls
  methods : rt'.methods cls = rt.methods cls
  name : ∀ m, rt.Has cls m → rt'.name m = rt.name m
  imp : ∀ m, rt.Has cls m → rt'.imp m = rt.imp m

theorem getMethodNoSuper_has {sel : Nat} {m : Method} (found : getMethodNoSuper rt cls sel = some m) : rt.Has cls m := by
  obtain ⟨mlist, inLists, inList⟩ := exists_of_findSome?_eq_some found
  exact ⟨mlist, inLists, mem_of_find?_eq_some inList⟩

theorem findSome?_congr {f g : List Method → Option Method} {lists : List (List Method)}
    (same : ∀ mlist ∈ lists, f mlist = g mlist) : lists.findSome? f = lists.findSome? g := by
  induction lists with
  | nil => rfl
  | cons mlist _ ih =>
    rw [findSome?_cons, findSome?_cons, same mlist mem_cons_self, ih fun other inLists => same other (mem_cons_of_mem _ inLists)]

theorem Same.getMethodNoSuper (same : Same rt rt' cls) (sel : Nat) : getMethodNoSuper rt' cls sel = getMethodNoSuper rt cls sel := by
  rw [Dispatch.getMethodNoSuper, same.methods]
  refine findSome?_congr fun mlist inLists => ?_
  refine find?_congr fun m inList => ?_
  rw [same.name m ⟨mlist, inLists, inList⟩]

/-- A lookup that meets no changed class finds what it found before. -/
theorem Finds.frame {sel imp : Nat} (finds : Finds image rt sel cls imp) (same : ∀ other, Inherits rt'.links cls other → Same rt rt' other)
    : Finds image rt' sel cls imp := by
  induction finds with
  | @here cls m found =>
    have unchanged := same cls .refl
    rw [← unchanged.imp m (getMethodNoSuper_has found)]
    exact .here ((unchanged.getMethodNoSuper sel).trans found)
  | @above cls _ _ absent super _ ih =>
    have unchanged := same cls .refl
    have super' := unchanged.superclass.trans super
    exact .above ((unchanged.getMethodNoSuper sel).trans absent) super' (ih fun other inherits => same other (.head super' inherits))
  | @nowhere cls absent root =>
    have unchanged := same cls .refl
    exact .nowhere ((unchanged.getMethodNoSuper sel).trans absent) (unchanged.superclass.trans root)

/-- The walk does not look at caches. -/
theorem Finds.with_cache {sel imp : Nat} (finds : Finds image rt sel cls imp) (cache : Class → List (Nat × Nat))
    : Finds image { rt with cache := cache } sel cls imp := finds.frame fun _ _ => ⟨rfl, rfl, fun _ _ => rfl, fun _ _ => rfl⟩

end Search

/-! ## The invariant -/

section Invariant

/-- The classes are a forest of realized classes, and each method belongs to one of them. -/
structure Hierarchy (rt : Runtime Class Method) : Prop where
  forest : Forest rt.links (rt.isRealized · = true)
  grounded : Grounded rt.links
  closed : ∀ cls supercls, rt.isRealized cls = true → rt.links.superclass cls = some supercls → rt.isRealized supercls = true
  owner : ∀ cls cls' m, rt.Has cls m → rt.Has cls' m → cls = cls'

/-- The caches of realized classes agree with the method lists. -/
structure Coherent (image : Image Class) (rt : Runtime Class Method) : Prop extends Hierarchy rt where
  realized : ∀ cls entry, entry ∈ rt.cache cls → rt.isRealized cls = true
  agrees : ∀ cls sel imp, (sel, imp) ∈ rt.cache cls → Finds image rt sel cls imp

theorem Hierarchy.inherits_realized (hierarchy : Hierarchy rt) {cls top : Class} (inherits : Inherits rt.links cls top)
    (isRealized : rt.isRealized cls = true) : rt.isRealized top = true := by
  induction inherits with
  | refl => exact isRealized
  | tail _ super ih => exact hierarchy.closed _ _ ih super

/-- Every realized class is below the classes it inherits from. -/
theorem Hierarchy.below (hierarchy : Hierarchy rt) {cls top : Class} (inherits : Inherits rt.links cls top)
    (isRealized : rt.isRealized cls = true) : Below rt.links (rt.isRealized · = true) everyClass top cls := by
  induction inherits using Relation.ReflTransGen.head_induction_on with
  | refl => exact .refl
  | head super _ ih => exact .child (ih (hierarchy.closed _ _ isRealized super)) rfl isRealized super

/-- The superclass chain of a realized class ends at a root in the list. -/
theorem Hierarchy.exists_root (hierarchy : Hierarchy rt) {roots : List Class}
    (mem : ∀ cls, cls ∈ roots ↔ rt.isRealized cls = true ∧ rt.links.superclass cls = none) (cls : Class)
    (isRealized : rt.isRealized cls = true) : ∃ root ∈ roots, Inherits rt.links cls root := by
  induction cls using hierarchy.grounded.induction with
  | _ cls ih =>
    cases super : rt.links.superclass cls with
    | none => exact ⟨cls, (mem cls).mpr ⟨isRealized, super⟩, .refl⟩
    | some supercls =>
      obtain ⟨root, inRoots, inherits⟩ := ih supercls super (hierarchy.closed _ _ isRealized super)
      exact ⟨root, inRoots, .head super inherits⟩

/-- The caches stay right after a change, if no class that still has entries inherits from a class that is
not the same. -/
theorem Coherent.change (coherent : Coherent image rt) (hierarchy : Hierarchy rt')
    (still : ∀ cls, rt.isRealized cls = true → rt'.isRealized cls = true) (entries : ∀ cls entry, entry ∈ rt'.cache cls →
      entry ∈ rt.cache cls ∧ ∀ other, Inherits rt'.links cls other → Same rt rt' other) : Coherent image rt' := by
  refine { hierarchy with realized := fun cls entry inCache => ?_, agrees := fun cls sel imp inCache => ?_ }
  · exact still cls (coherent.realized cls entry (entries cls entry inCache).1)
  · obtain ⟨was, same⟩ := entries cls (sel, imp) inCache
    exact (coherent.agrees cls sel imp was).frame same

end Invariant

/-! ## Flushing -/

section Flush

variable [DecidableEq Class]

theorem mem_eraseCaches {visited : List Class} {cls : Class} {entry : Nat × Nat} :
    entry ∈ (eraseCaches rt visited).cache cls ↔ cls ∉ visited ∧ entry ∈ rt.cache cls := by
  simp only [eraseCaches]
  split
  case isTrue inside => simp [inside]
  case isFalse outside => simp [outside]

/-- **`flushCaches(cls)` empties the caches of the class and of all that inherit from it, `flushCaches(nil)`
all caches.** -/
theorem flushCaches_spec {count : Nat} {top : Option Class} (run : flushCaches rt count top = some rt') (hierarchy : Hierarchy rt) :
    ∃ cache, rt' = { rt with cache := cache } ∧ ∀ cls entry, entry ∈ cache cls → entry ∈ rt.cache cls ∧
      (rt.isRealized cls = true → ∃ changed, top = some changed ∧ ¬ Inherits rt.links cls changed) := by
  cases top with
  | some top =>
    obtain ⟨⟨_, _⟩, walked, rfl⟩ := Option.map_eq_some_iff.mp run
    have shown := foreachRealizedClassAndSubclass_visits hierarchy.forest hierarchy.grounded walked
    refine ⟨_, rfl, fun cls entry inCache => ?_⟩
    obtain ⟨outside, inCache⟩ := mem_eraseCaches.mp inCache
    refine ⟨inCache, fun isRealized => ⟨top, rfl, fun inherits => ?_⟩⟩
    exact outside ((shown cls).mpr ⟨hierarchy.below inherits isRealized, rfl⟩)
  | none =>
    obtain ⟨_, walked, rfl⟩ := Option.map_eq_some_iff.mp run
    obtain ⟨roots, chain, _, mem⟩ := hierarchy.forest.roots
    have shown := foreachRoot_visits hierarchy.forest hierarchy.grounded chain walked
    refine ⟨_, rfl, fun cls entry inCache => ?_⟩
    obtain ⟨outside, inCache⟩ := mem_eraseCaches.mp inCache
    refine ⟨inCache, fun isRealized => absurd ?_ outside⟩
    obtain ⟨root, inRoots, inherits⟩ := hierarchy.exists_root mem cls isRealized
    exact (shown cls).mpr ⟨⟨root, inRoots, hierarchy.below inherits isRealized⟩, rfl⟩

end Flush

/-! ## Lookup -/

section Lookup

variable (coherent : Coherent image rt)
include coherent

variable {cls : Class}

/-- What the cache of a class answers is right. -/
theorem Coherent.cacheGetImp {sel : Nat} (cached : cacheGetImp rt cls sel ≠ 0) : Finds image rt sel cls (cacheGetImp rt cls sel) := by
  cases found : (rt.cache cls).lookup sel with
  | none => simp [Dispatch.cacheGetImp, found] at cached
  | some imp =>
    have answer : Dispatch.cacheGetImp rt cls sel = imp := by simp [Dispatch.cacheGetImp, found]
    obtain ⟨_, _, split, _⟩ := lookup_eq_some_iff.mp found
    rw [answer]
    refine coherent.agrees cls sel imp ?_
    rw [split]
    exact mem_append_right _ mem_cons_self

/-- **The loop of `lookUpImpOrForward` finds what the method lists hold.** -/
theorem Coherent.search {sel attempts imp : Nat} {found : Bool} :
    ∀ {cls}, search image rt sel attempts cls = some (imp, found) → Finds image rt sel cls imp := by
  induction attempts with
  | zero => exact nofun
  | succ _ ih =>
    intro cls run
    rw [Dispatch.search] at run
    cases lists : getMethodNoSuper rt cls sel with
    | some =>
      simp only [lists, Option.some.injEq, Prod.mk.injEq] at run
      exact run.1 ▸ .here lists
    | none =>
      cases super : rt.links.superclass cls with
      | none =>
        simp only [lists, super, Option.some.injEq, Prod.mk.injEq] at run
        exact run.1 ▸ .nowhere lists super
      | some =>
        refine .above lists super ?_
        simp only [lists, super] at run
        split at run
        · cases run
        split at run
        · rename_i forwards
          rw [Option.some.injEq, Prod.mk.injEq] at run
          exact run.1 ▸ coherent.cacheGetImp (forwards ▸ image.forwardImp_ne)
        · split at run
          · rename_i cached
            rw [Option.some.injEq, Prod.mk.injEq] at run
            exact run.1 ▸ coherent.cacheGetImp cached
          · exact ih run

variable [DecidableEq Class]

theorem Coherent.cacheFill {sel imp : Nat} (isRealized : rt.isRealized cls = true) (finds : Finds image rt sel cls imp)
    (reallocates : Bool) : Coherent image (cacheFill rt cls sel imp reallocates) := by
  rw [Dispatch.cacheFill]
  split
  · have entries : ∀ {other entry}, entry ∈ update rt.cache cls ((if reallocates then [] else rt.cache cls) ++ [(sel, imp)]) other →
        entry ∈ rt.cache other ∨ other = cls ∧ entry = (sel, imp) := by
      intro other entry inCache
      by_cases here : other = cls
      · subst here
        rw [update_self, mem_append, mem_singleton] at inCache
        rcases inCache with old | new
        · split at old
          · cases old
          · exact Or.inl old
        · exact Or.inr ⟨rfl, new⟩
      · rw [update_of_ne here] at inCache
        exact Or.inl inCache
    refine { coherent.toHierarchy with realized := fun other entry inCache => ?_, agrees := fun other sel' imp' inCache => ?_ }
    · rcases entries inCache with old | ⟨rfl, _⟩
      · exact coherent.realized other entry old
      · exact isRealized
    · rcases entries inCache with old | ⟨rfl, new⟩
      · exact (coherent.agrees other sel' imp' old).with_cache _
      · cases new
        exact finds.with_cache _
  · exact coherent

theorem Coherent.lookUpImpOrForward {attempts sel : Nat} {resolver cacheIt reallocates : Bool} (isRealized : rt.isRealized cls = true)
    (run : lookUpImpOrForward image rt attempts cls sel resolver cacheIt reallocates = some rt') : Coherent image rt' := by
  rw [Dispatch.lookUpImpOrForward] at run
  split at run
  · cases run
  · rename_i imp found searched
    split at run
    · exact Option.some.inj run ▸ coherent
    · split at run
      · exact Option.some.inj run ▸ coherent.cacheFill isRealized (coherent.search searched) reallocates
      · exact Option.some.inj run ▸ coherent

end Lookup

/-! ## Changes of methods -/

section Methods

variable [DecidableEq Class] {lists : List (List Method)}

theorem attachLists_has {cls other : Class} {m : Method} :
    (attachLists rt cls lists).Has other m ↔ rt.Has other m ∨ other = cls ∧ ∃ mlist ∈ lists, m ∈ mlist := by
  by_cases here : other = cls
  · subst here
    simp only [Runtime.Has, attachLists, update_self, mem_append, or_and_right, exists_or, true_and]
    exact or_comm
  · simp [Runtime.Has, attachLists, here]

/-- New lists, whose methods no other class has. -/
theorem Hierarchy.attachOwnLists (hierarchy : Hierarchy rt) (cls : Class)
    (own : ∀ mlist ∈ lists, ∀ m ∈ mlist, ∀ other, rt.Has other m → other = cls) : Hierarchy (attachLists rt cls lists) where
  forest := hierarchy.forest
  grounded := hierarchy.grounded
  closed := hierarchy.closed
  owner c c' m has has' := by
    rw [attachLists_has] at has has'
    rcases has with old | ⟨rfl, mlist, inLists, inList⟩
    · rcases has' with old' | ⟨rfl, mlist, inLists, inList⟩
      · exact hierarchy.owner c c' m old old'
      · exact own mlist inLists m inList c old
    · rcases has' with old' | ⟨rfl, _⟩
      · exact (own mlist inLists m inList c' old').symm
      · rfl

theorem Hierarchy.attachLists (hierarchy : Hierarchy rt) (cls : Class) (new : ∀ mlist ∈ lists, ∀ m ∈ mlist, ∀ other, ¬ rt.Has other m)
    : Hierarchy (attachLists rt cls lists) :=
  hierarchy.attachOwnLists cls fun mlist inLists m inList other has => absurd has (new mlist inLists m inList other)

variable (coherent : Coherent image rt)
include coherent

variable {count : Nat}

/-- A change to one class, flushed from there; or any change, with all caches flushed. -/
theorem Coherent.change_flush {mid : Runtime Class Method} {top : Option Class} (run : flushCaches mid count top = some rt')
    (hierarchy : Hierarchy mid) (same : ∀ cls, top = some cls → ∀ other, other ≠ cls → Same rt mid other) (caches : mid.cache = rt.cache)
    (realized : mid.isRealized = rt.isRealized) : Coherent image rt' := by
  obtain ⟨cache, rfl, entries⟩ := flushCaches_spec run hierarchy
  refine coherent.change { hierarchy with } (fun other => by rw [realized]; exact id) fun cls entry inCache => ?_
  obtain ⟨was, left⟩ := entries cls entry inCache
  rw [caches] at was
  rw [realized] at left
  obtain ⟨changed, isTop, apart⟩ := left (coherent.realized cls entry was)
  refine ⟨was, fun other inherits => { same changed isTop other ?_ with }⟩
  rintro rfl
  exact apart inherits

/-- A method has been given another implementation: every class stays but its owner. -/
theorem Coherent.methodSetImplementation [DecidableEq Method] {imp : Nat} {cls : Option Class} {m : Method}
    (owner : ∀ top, cls = some top → rt.Has top m) (run : methodSetImplementation rt count cls m imp = some rt')
    : Coherent image rt' := by
  rw [Dispatch.methodSetImplementation] at run
  split at run
  · exact Option.some.inj run ▸ coherent
  refine coherent.change_flush run { coherent.toHierarchy with } (fun top isTop other apart => ?_) rfl rfl
  refine ⟨rfl, rfl, fun _ _ => rfl, fun m' has => update_of_ne ?_ _ _⟩
  rintro rfl
  exact apart (coherent.owner _ _ _ has (owner top isTop))

theorem Coherent.methodExchangeImplementations [DecidableEq Method] {m1 m2 : Method}
    (run : methodExchangeImplementations rt count m1 m2 = some rt') : Coherent image rt' := by
  unfold Dispatch.methodExchangeImplementations at run
  exact coherent.change_flush run { coherent.toHierarchy with } nofun rfl rfl

theorem Coherent.addMethod [DecidableEq Method] {name imp : Nat} {cls : Class} {replace : Bool} {newMethod : Method}
    (new : ∀ other, ¬ rt.Has other newMethod) (run : addMethod rt count cls name imp replace newMethod = some rt')
    : Coherent image rt' := by
  rw [Dispatch.addMethod] at run
  cases exists_ : getMethodNoSuper rt cls name with
  | some =>
    simp only [exists_] at run
    split at run
    · refine coherent.methodSetImplementation (fun top same => ?_) run
      exact Option.some.inj same ▸ getMethodNoSuper_has exists_
    · exact Option.some.inj run ▸ coherent
  | none =>
    simp only [exists_] at run
    have named : Hierarchy { rt with name := update rt.name newMethod name
                                     imp := update rt.imp newMethod imp } :=
      { coherent with }
    have other_of_has : ∀ {other m}, rt.Has other m → m ≠ newMethod := by
      rintro other m has rfl
      exact new other has
    refine coherent.change_flush run (named.attachLists cls ?_) (fun top isTop other apart => ?_) rfl rfl
    · intro mlist inLists m inList other
      obtain rfl := mem_singleton.mp inLists
      obtain rfl := mem_singleton.mp inList
      exact new other
    · rw [← Option.some.inj isTop] at apart
      exact ⟨rfl, update_of_ne apart _ _, fun m has => update_of_ne (other_of_has has) _ _,
        fun m has => update_of_ne (other_of_has has) _ _⟩

end Methods

/-! ## Categories -/

section Categories

variable [DecidableEq Class]

theorem attachLists_nil (cls : Class) : attachLists rt cls [] = rt := by simp [attachLists]

theorem attachLists_append (cls : Class) (first later : List (List Method)) :
    attachLists (attachLists rt cls first) cls later = attachLists rt cls (later ++ first) := by
  simp [attachLists]

variable {cats : List (Option (List Method))}

/-- The loop leaves in the buffer and in the class the lists in reverse order. -/
theorem attachMethodLists_eq (cls : Class) (cats : List (Option (List Method))) :
    ∀ (rt : Runtime Class Method) (mlists : List (List Method)), ∃ attached,
      (attachMethodLists cls rt mlists cats).1 = attachLists rt cls attached ∧
      (attachMethodLists cls rt mlists cats).2 ++ attached = (cats.filterMap id).reverse ++ mlists ∧
      ((attachMethodLists cls rt mlists cats).2 = [] → attached = [] ∧ mlists = []) := by
  induction cats with
  | nil => exact fun rt mlists => ⟨[], (attachLists_nil cls).symm, by simp [attachMethodLists], fun nothing => ⟨rfl, nothing⟩⟩
  | cons cat _ ih =>
    intro rt mlists
    cases cat with
    | none => exact ih rt mlists
    | some mlist =>
      rw [attachMethodLists]
      split
      · -- the buffer is attached, and begun again
        obtain ⟨attached, state, order, last⟩ := ih (attachLists rt cls mlists) [mlist]
        refine ⟨attached ++ mlists, state.trans (attachLists_append cls _ _), ?_, fun nothing => nomatch (last nothing).2⟩
        rw [← append_assoc, order]
        simp
      · obtain ⟨attached, state, order, last⟩ := ih rt (mlist :: mlists)
        exact ⟨attached, state, by rw [order]; simp, fun nothing => nomatch (last nothing).2⟩

/-- `attachCategories` puts the lists of the categories in front, the last one first, and flushes
if there are any. -/
theorem attachCategories_eq (rt : Runtime Class Method) (count : Nat) (cls : Class)
    (cats : List (Option (List Method))) (existing : Bool) : attachCategories rt count cls cats existing =
      let attached := attachLists rt cls (cats.filterMap id).reverse
      if (cats.filterMap id).reverse ≠ [] ∧ existing = true then flushCaches attached count (some cls)
      else some attached := by
  obtain ⟨attached, state, order, last⟩ := attachMethodLists_eq cls cats rt []
  rw [append_nil] at order
  simp only [attachCategories]
  by_cases nothing : (attachMethodLists cls rt [] cats).2 = []
  · rw [(last nothing).1, nothing] at order
    rw [state, (last nothing).1, ← order, nothing, attachLists_nil]
    simp [attachLists_nil]
  · have some_lists : (cats.filterMap id).reverse ≠ [] := by
      rw [← order]
      exact append_ne_nil_of_left_ne_nil nothing _
    rw [if_pos (length_pos_iff.mpr nothing), state, attachLists_append, order]
    simp only [some_lists, ne_eq, not_false_eq_true, true_and]

omit [DecidableEq Class] in
theorem Unattached.new (unattached : Unattached rt cats) :
    ∀ mlist ∈ (cats.filterMap id).reverse, ∀ m ∈ mlist, ∀ other, ¬ rt.Has other m := by
  intro mlist inLists
  refine unattached mlist ?_
  simpa using inLists

variable {cls : Class} {links : Links Class}

section Realize

variable (forest : Forest links fun other => rt.isRealized other = true ∨ other = cls) (superclass : links.superclass = rt.links.superclass)
  (above : ∀ supercls, rt.links.superclass cls = some supercls → rt.isRealized supercls = true)
include forest superclass above

theorem Hierarchy.realize (hierarchy : Hierarchy rt) :
    Hierarchy { rt with links := links, isRealized := update rt.isRealized cls true } := by
  have realized_iff : ∀ other, rt.isRealized other = true ∨ other = cls ↔ update rt.isRealized cls true other = true := by
    intro other
    by_cases here : other = cls
    · simp [here]
    · simp [here]
  refine { forest := forest.congr realized_iff, grounded := ?_, closed := ?_, owner := hierarchy.owner }
  · rw [Grounded, superclass]
    exact hierarchy.grounded
  · intro other supercls isRealized super
    rw [superclass] at super
    refine (realized_iff supercls).mp (Or.inl ?_)
    rcases (realized_iff other).mpr isRealized with was | rfl
    · exact hierarchy.closed other supercls was super
    · exact above supercls super

/-- A class that is realized now has no realized subclass, so no cache is stale. -/
theorem Coherent.realize {lists : List (List Method)} (coherent : Coherent image rt) (unrealized : rt.isRealized cls = false)
    (new : ∀ mlist ∈ lists, ∀ m ∈ mlist, ∀ other, ¬ rt.Has other m) : Coherent image
      (attachLists { rt with links := links, isRealized := update rt.isRealized cls true } cls lists) := by
  have hierarchy := (coherent.toHierarchy.realize forest superclass above).attachLists cls new
  refine coherent.change hierarchy (fun other isRealized => ?_) fun other entry inCache => ⟨inCache, fun top inherits => ?_⟩
  · by_cases here : other = cls
    · simp [attachLists, here]
    · simpa [attachLists, here] using isRealized
  · refine ⟨congrFun superclass top, update_of_ne ?_ _ _, fun _ _ => rfl, fun _ _ => rfl⟩
    rintro rfl
    have inherits' : Inherits rt.links other top := by
      rw [Inherits, ← superclass]
      exact inherits
    have := coherent.inherits_realized inherits' (coherent.realized other entry inCache)
    exact nomatch this.symm.trans unrealized

end Realize

variable (coherent : Coherent image rt)
include coherent

theorem Coherent.attachCategories {count : Nat} (unattached : Unattached rt cats)
    (run : attachCategories rt count cls cats true = some rt') : Coherent image rt' := by
  have hierarchy := coherent.toHierarchy.attachLists cls unattached.new
  rw [attachCategories_eq] at run
  split at run
  · refine coherent.change_flush run hierarchy (fun top isTop other apart => ?_) rfl rfl
    rw [← Option.some.inj isTop] at apart
    exact ⟨rfl, update_of_ne apart _ _, fun _ _ => rfl, fun _ _ => rfl⟩
  · rename_i nothing
    have none_attached : (cats.filterMap id).reverse = [] := by
      by_contra some_attached
      exact nothing ⟨some_attached, rfl⟩
    rw [none_attached, attachLists_nil] at run
    exact Option.some.inj run ▸ coherent

theorem Coherent.realizeClass (unrealized : rt.isRealized cls = false)
    (above : ∀ supercls, rt.links.superclass cls = some supercls → rt.isRealized supercls = true) (unattached : Unattached rt cats)
    (run : realizeClass rt cls cats = some rt') : Coherent image rt' := by
  have unlinked : ¬ rt.isRealized cls = true := by simp [unrealized]
  simp only [Dispatch.realizeClass, attachCategories_eq, Bool.false_eq_true, and_false, if_false, Option.some.injEq] at run
  subst run
  cases super : rt.links.superclass cls with
  | none => exact coherent.realize (coherent.forest.addRootClass unlinked super) rfl above unrealized unattached.new
  | some supercls => exact coherent.realize (coherent.forest.addSubclass supercls cls unlinked super) rfl above unrealized unattached.new

end Categories

/-! ## Another superclass -/

section Superclass

variable [DecidableEq Class] {linked : Class → Prop}

section Forest

variable {links links₁ links₂ : Links Class} {fuel : Nat} {cls oldSuper newSuper : Class} (forest : Forest links linked)
  (isLinked : linked cls) (metaLinked : linked (image.isa cls)) (apart : image.isa cls ≠ cls)
  (under : links.superclass cls = some oldSuper) (metaUnder : links.superclass (image.isa cls) = some (image.isa oldSuper))
include forest isLinked metaLinked apart under metaUnder

/-- The class and its metaclass are unlinked, and have their new superclasses. -/
theorem unlink_forest (first : removeSubclass fuel links oldSuper cls = some links₁)
    (second : removeSubclass fuel links₁ (image.isa oldSuper) (image.isa cls) = some links₂) (newSuper : Class) : Forest { links₂ with
        superclass := update (update links.superclass cls (some newSuper)) (image.isa cls) (some (image.isa newSuper)) }
        (fun other => (linked other ∧ other ≠ cls) ∧ other ≠ image.isa cls) ∧ links₂.superclass = links.superclass := by
  obtain ⟨forest₁, same₁⟩ := forest.removeSubclass isLinked under first
  obtain ⟨forest₂, same₂⟩ := forest₁.removeSubclass ⟨metaLinked, apart⟩ (same₁ ▸ metaUnder) second
  have forest₃ := forest₂.setSuperclass cls (fun left => left.1.2 rfl) (some newSuper)
  have forest₄ := forest₃.setSuperclass (image.isa cls) (fun left => left.2 rfl) (some (image.isa newSuper))
  refine ⟨?_, same₂.trans same₁⟩
  rw [← same₁, ← same₂]
  exact forest₄

/-- The class and its metaclass are unlinked, and linked again elsewhere. -/
theorem relink_forest (run : relink image fuel links cls oldSuper newSuper = some links₂) :
    Forest links₂ linked ∧ links₂.superclass = update (update links.superclass cls (some newSuper))
      (image.isa cls) (some (image.isa newSuper)) := by
  simp only [relink, Option.bind_eq_bind, Option.bind_eq_some_iff, Option.pure_def, Option.some.injEq] at run
  obtain ⟨_, first, _, second, rfl⟩ := run
  obtain ⟨unlinked, same⟩ := unlink_forest forest isLinked metaLinked apart under metaUnder first second newSuper
  have forest₅ := unlinked.addSubclass newSuper cls (fun left => left.1.2 rfl)
    ((update_of_ne apart.symm _ _).trans (update_self _ _ _))
  have forest₆ := forest₅.addSubclass (image.isa newSuper) (image.isa cls)
    (fun left => left.elim (fun old => old.2 rfl) apart) (update_self _ _ _)
  rw [← same] at forest₆ ⊢
  refine ⟨forest₆.congr fun other => ?_, rfl⟩
  constructor
  · rintro ((⟨⟨old, _⟩, _⟩ | rfl) | rfl)
    · exact old
    · exact isLinked
    · exact metaLinked
  · intro old
    by_cases here : other = cls
    · exact Or.inl (Or.inr here)
    · by_cases here' : other = image.isa cls
      · exact Or.inr here'
      · exact Or.inl (Or.inl ⟨⟨old, here⟩, here'⟩)

end Forest

theorem Hierarchy.relink (hierarchy : Hierarchy rt) {fuel count : Nat} {cls oldSuper newSuper : Class} {links : Links Class}
    (allowed : Allowed image rt (.setSuperclass fuel count cls newSuper)) (under : rt.links.superclass cls = some oldSuper)
    (relinked : relink image fuel rt.links cls oldSuper newSuper = some links) :
    Hierarchy { rt with links := links } ∧ links.superclass = update
      (update rt.links.superclass cls (some newSuper)) (image.isa cls) (some (image.isa newSuper)) := by
  obtain ⟨isRealized, newRealized, metaRealized, newMetaRealized, apart, metaUnder, grounded⟩ := allowed
  obtain ⟨forest, superclass⟩ := relink_forest hierarchy.forest isRealized metaRealized apart under (metaUnder oldSuper under) relinked
  refine ⟨{ forest := forest, grounded := ?_, closed := ?_, owner := hierarchy.owner }, superclass⟩
  · rw [Grounded, superclass]
    exact grounded
  intro other supercls otherRealized super
  simp only [superclass] at super
  by_cases isMeta : other = image.isa cls
  · rw [isMeta, update_self] at super
    exact Option.some.inj super ▸ newMetaRealized
  · rw [update_of_ne isMeta] at super
    by_cases here : other = cls
    · rw [here, update_self] at super
      exact Option.some.inj super ▸ newRealized
    · rw [update_of_ne here] at super
      exact hierarchy.closed other supercls otherRealized super

/-- What inherits from the class or from its metaclass is flushed. -/
theorem Coherent.setSuperclass (coherent : Coherent image rt) {fuel count : Nat} {cls newSuper : Class}
    (allowed : Allowed image rt (.setSuperclass fuel count cls newSuper))
    (run : setSuperclass image fuel rt count cls newSuper = some rt') : Coherent image rt' := by
  simp only [Dispatch.setSuperclass, Option.bind_eq_bind, Option.bind_eq_some_iff] at run
  obtain ⟨_, under, links, relinked, _, first, second⟩ := run
  obtain ⟨hierarchy, superclass⟩ := coherent.toHierarchy.relink allowed under relinked
  obtain ⟨_, rfl, entries⟩ := flushCaches_spec first hierarchy
  obtain ⟨_, rfl, metaEntries⟩ := flushCaches_spec second { hierarchy with }
  refine coherent.change { hierarchy with } (fun _ => id) fun other entry inCache => ?_
  obtain ⟨left, metaFlushed⟩ := metaEntries other entry inCache
  obtain ⟨was, flushed⟩ := entries other entry left
  obtain ⟨_, ⟨⟩, notMeta⟩ := metaFlushed (coherent.realized other entry was)
  obtain ⟨_, ⟨⟩, notClass⟩ := flushed (coherent.realized other entry was)
  refine ⟨was, fun top inherits => ⟨?_, rfl, fun _ _ => rfl, fun _ _ => rfl⟩⟩
  have isMeta : top ≠ image.isa cls := fun same => notMeta (same ▸ inherits)
  have isClass : top ≠ cls := fun same => notClass (same ▸ inherits)
  exact (congrFun superclass top).trans ((update_of_ne isMeta _ _).trans (update_of_ne isClass _ _))

end Superclass

/-! ## Every run -/

section Runs

theorem Initial.coherent (initial : Initial rt) : Coherent image rt where
  forest := initial.forest
  grounded := initial.grounded
  closed := initial.closed
  owner := initial.owner
  realized cls entry inCache := by
    rw [initial.empty] at inCache
    cases inCache
  agrees cls sel imp inCache := by
    rw [initial.empty] at inCache
    cases inCache

variable [DecidableEq Class] [DecidableEq Method]

theorem Coherent.apply (coherent : Coherent image rt) {op : Op Class Method}
    (allowed : Allowed image rt op) (run : apply image rt op = some rt') : Coherent image rt' := by
  cases op with
  | lookUpImpOrForward => exact coherent.lookUpImpOrForward allowed run
  | addMethod => exact coherent.addMethod allowed.2 run
  | methodSetImplementation =>
    refine coherent.methodSetImplementation ?_ run
    exact nofun
  | methodExchangeImplementations => exact coherent.methodExchangeImplementations run
  | attachCategories => exact coherent.attachCategories allowed.2 run
  | setSuperclass => exact coherent.setSuperclass allowed run
  | realizeClass => exact coherent.realizeClass allowed.1 allowed.2.1 allowed.2.2 run
  | setInitialized cls =>
    cases run
    exact coherent.change { coherent.toHierarchy with } (fun _ => id)
      fun _ _ inCache => ⟨inCache, fun _ _ => ⟨rfl, rfl, fun _ _ => rfl, fun _ _ => rfl⟩⟩

theorem Reachable.coherent (reached : Reachable image rt) : Coherent image rt := by
  induction reached with
  | start initial => exact initial.coherent
  | next _ allowed run ih => exact ih.apply allowed run

/-- **Method caches are always coherent with method lists.** Whenever the cache of a class answers
with an IMP, that IMP and no other is what the walk through the method lists finds. -/
theorem caches_coherent (reached : Reachable image rt) (cls : Class) (sel imp : Nat)
    (cached : (rt.cache cls).lookup sel = some imp) : ∀ found, Finds image rt sel cls found ↔ found = imp := by
  obtain ⟨_, _, split, _⟩ := lookup_eq_some_iff.mp cached
  have finds : Finds image rt sel cls imp := by
    refine reached.coherent.agrees cls sel imp ?_
    rw [split]
    exact mem_append_right _ mem_cons_self
  exact fun found => ⟨fun finds' => finds'.unique finds, fun same => same ▸ finds⟩

end Runs

end

/-! ## A run

A root class with its metaclass, and a subclass with its metaclass. The root class has a method for
selector 7. A message to the subclass caches it there, the subclass gets a method of its own, and
the next message caches that. -/

inductive SampleClass
  | root
  | rootMeta
  | sub
  | subMeta
  deriving DecidableEq

namespace SampleClass

instance : Fintype SampleClass := ⟨{root, rootMeta, sub, subMeta}, fun cls => by cases cls <;> decide⟩

def image : Image SampleClass where
  isa
    | root => rootMeta
    | rootMeta => rootMeta
    | sub => subMeta
    | subMeta => rootMeta
  forwardImp := 50
  forwardImp_ne := by decide

def links : Links SampleClass where
  superclass
    | root => none
    | rootMeta => some root
    | sub => some root
    | subMeta => some rootMeta
  firstSubclass
    | root => some sub
    | rootMeta => some subMeta
    | _ => none
  nextSiblingClass
    | sub => some rootMeta
    | _ => none
  firstRealizedClass := some root

def start : Runtime SampleClass Bool where
  links := links
  isRealized _ := true
  isInitialized _ := true
  methods
    | root => [[false]]
    | _ => []
  name _ := 7
  imp _ := 100
  cache _ := []

theorem links_grounded : Grounded links := by
  let depth : SampleClass → Nat
    | root => 0
    | rootMeta | sub => 1
    | subMeta => 2
  have deeper : ∀ cls supercls, links.superclass cls = some supercls → depth supercls < depth cls := by decide
  exact Subrelation.wf (deeper _ _) (measure depth).wf

theorem start_initial : Initial start := by
  refine ⟨⟨fun supercls => ?_, [root], .cons .nil, by decide, by decide⟩, links_grounded, by decide, ?_, fun _ => rfl⟩
  · cases supercls with
    | root => exact ⟨[sub, rootMeta], .cons (.cons .nil), by decide, by decide⟩
    | rootMeta => exact ⟨[subMeta], .cons .nil, by decide, by decide⟩
    | sub | subMeta => exact ⟨[], .nil, by decide, by decide⟩
  · have only : ∀ cls m, start.Has cls m → cls = root := by
      unfold Runtime.Has
      decide
    exact fun cls cls' m has has' => (only cls m has).trans (only cls' m has').symm

/-- The message, the new method and the message again. -/
def message : Op SampleClass Bool := .lookUpImpOrForward 16 sub 7 true true false

def newMethod : Op SampleClass Bool := .addMethod 16 sub 7 200 false true

def cached : Runtime SampleClass Bool := (apply image start message).getD start

def flushed : Runtime SampleClass Bool := (apply image cached newMethod).getD cached

def again : Runtime SampleClass Bool := (apply image flushed message).getD flushed

theorem again_reachable : Reachable image again := by
  have first : Reachable image cached := @Reachable.next _ _ _ _ _ _ _ message (.start start_initial) rfl rfl
  have unused : ∀ cls, ¬ cached.Has cls true := by
    unfold Runtime.Has
    decide
  have second := @Reachable.next _ _ _ _ _ _ _ newMethod first ⟨rfl, unused⟩ rfl
  exact @Reachable.next _ _ _ _ _ _ _ message second rfl rfl

end SampleClass

/-- The cache of the subclass first held 100, and after the flush holds what its own method says. -/
theorem caches_coherent_again : (SampleClass.cached.cache .sub).lookup 7 = some 100 ∧
    ∀ found, Finds SampleClass.image SampleClass.again 7 .sub found ↔ found = 200 :=
  ⟨rfl, caches_coherent SampleClass.again_reachable .sub 7 200 rfl⟩

end DarwinNotes.Objc.Dispatch
