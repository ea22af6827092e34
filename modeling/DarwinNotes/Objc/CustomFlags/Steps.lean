import DarwinNotes.Objc.CustomFlags.Scans

/-!
# Every function keeps the flags right

`Inv` is what holds between two functions that take the lock: the flags are right,
the methods that NSObject came with are still there, and those of a bundle whose
bit is not set have the implementations they came with.
-/

namespace DarwinNotes.Objc.CustomFlags
open Objc.Dispatch Function List

variable {Class Method : Type} [DecidableEq Class]

/-! ## The three bundles -/

/-- A property of the flags of one bundle. -/
def Local (P : Scanner → State Class Method → Prop) : Prop :=
  ∀ scanner st st', st'.rt = st.rt → st'.hasDefault scanner.bundle = st.hasDefault scanner.bundle →
    st'.swizzled scanner.bundle = st.swizzled scanner.bundle → P scanner st → P scanner st'

omit [DecidableEq Class] in
theorem Local.only {P : Scanner → State Class Method → Prop} (isLocal : Local P) {scanner scanner' : Scanner}
    {st st' : State Class Method} (only : scanner'.Only st st') (other : scanner.bundle ≠ scanner'.bundle)
    (holds : P scanner st) : P scanner st' := isLocal scanner st st' only.rt (only.hasDefault _ other) (only.swizzled _ other) holds

section EachScanner

variable {env : Env Class} {st st' : State Class Method} {P Q : Scanner → State Class Method → Prop}
  {scan : Scanner → State Class Method → Option (State Class Method)}

omit [DecidableEq Class] in
/-- **The scanners do not disturb each other.** -/
theorem Env.eachScanner_spec (run : env.eachScanner st scan = some st') (localP : Local P) (localQ : Local Q)
    (step : ∀ bundle s s', s.rt = st.rt → P (env.selectors.scanner bundle) s → scan (env.selectors.scanner bundle) s = some s' →
      (env.selectors.scanner bundle).Only s s' ∧ Q (env.selectors.scanner bundle) s')
    (start : ∀ bundle, P (env.selectors.scanner bundle) st) : st'.rt = st.rt ∧ ∀ bundle, Q (env.selectors.scanner bundle) st' := by
  simp only [Env.eachScanner, Option.bind_eq_bind, Option.bind_eq_some_iff] at run
  obtain ⟨st₁, awz, st₂, rr, core⟩ := run
  obtain ⟨only₁, q₁⟩ := step .AWZ st st₁ rfl (start .AWZ) awz
  have p₂ := localP.only only₁ (by decide : SelectorBundle.RR ≠ .AWZ) (start .RR)
  obtain ⟨only₂, q₂⟩ := step .RR st₁ st₂ only₁.rt p₂ rr
  have rt₂ := only₂.rt.trans only₁.rt
  have p₃ := localP.only only₂ (by decide : SelectorBundle.Core ≠ .RR)
    (localP.only only₁ (by decide : SelectorBundle.Core ≠ .AWZ) (start .Core))
  obtain ⟨only₃, q₃⟩ := step .Core st₂ st' rt₂ p₃ core
  refine ⟨only₃.rt.trans rt₂, fun bundle => ?_⟩
  cases bundle with
  | AWZ =>
    exact localQ.only only₃ (by decide : SelectorBundle.AWZ ≠ .Core)
      (localQ.only only₂ (by decide : SelectorBundle.AWZ ≠ .RR) q₁)
  | RR => exact localQ.only only₃ (by decide : SelectorBundle.RR ≠ .Core) q₂
  | Core => exact q₃

end EachScanner

/-! ## The invariant -/

/-- What the runtime keeps: the hierarchy, and the methods that NSObject came with. -/
structure Kept (env : Env Class) (start : State Class Method) (rt : Runtime Class Method) : Prop where
  hierarchy : Hierarchy rt
  metaclasses : Metaclasses env rt.links.superclass
  lists : ∀ isMeta, ∃ cats, rt.methods (env.nsoClass isMeta) = cats ++ start.rt.methods (env.nsoClass isMeta)
  names : ∀ isMeta m, start.rt.Has (env.nsoClass isMeta) m → rt.name m = start.rt.name m

/-- What holds of one bundle: its flags are right, and the methods of NSObject have the implementations they
came with, or the bit is set. The implementations of `except` have just been replaced. -/
structure Right (env : Env Class) (start : State Class Method) (exempt : Class → Prop) (except : Method → Prop) (scanner : Scanner)
    (st : State Class Method) : Prop where
  flags : Flags env scanner exempt st
  builtin : ∀ isMeta, scanner.Covers isMeta → scanner.isNSObjectSwizzled st isMeta = false →
    ∀ m, start.rt.Has (env.nsoClass isMeta) m → ¬ except m →
      scanner.isInterestingSelector (start.rt.name m) = true → st.rt.imp m = start.rt.imp m

structure Inv (env : Env Class) (start st : State Class Method) : Prop where
  kept : Kept env start st.rt
  right : ∀ bundle, Right env start nobody (fun _ => False) (env.selectors.scanner bundle) st

section Invariant

variable {env : Env Class} {start st st' : State Class Method} {exempt : Class → Prop} {except : Method → Prop}

theorem right_local (env : Env Class) (start : State Class Method) (exempt : Class → Prop) (except : Method → Prop) :
    Local (Right env start exempt except) := by
  intro scanner st st' rt hasDefault swizzled right
  refine ⟨right.flags.congr rt hasDefault swizzled, fun isMeta covered unswizzled m has notExcept interesting => ?_⟩
  rw [Scanner.isNSObjectSwizzled, swizzled] at unswizzled
  rw [rt]
  exact right.builtin isMeta covered unswizzled m has notExcept interesting

/-- A scan does not touch implementations, and takes no bit of NSObject back. -/
theorem Scanned.right {scanner : Scanner} {exempt' : Class → Prop} (scanned : Scanned env scanner exempt' st st')
    (right : Right env start exempt except scanner st) : Right env start exempt' except scanner st' := by
  refine ⟨scanned.flags, fun isMeta covered unswizzled m has notExcept interesting => ?_⟩
  rw [scanned.only.rt]
  refine right.builtin isMeta covered ?_ m has notExcept interesting
  by_contra was
  exact nomatch (scanned.swizzled isMeta (Bool.not_eq_false _ ▸ was)).symm.trans unswizzled

omit [DecidableEq Class]

theorem Kept.has {rt : Runtime Class Method} (kept : Kept env start rt) {isMeta : Bool} {m : Method}
    (has : start.rt.Has (env.nsoClass isMeta) m) : rt.Has (env.nsoClass isMeta) m := by
  obtain ⟨mlist, inLists, inList⟩ := has
  obtain ⟨_, lists⟩ := kept.lists isMeta
  exact ⟨mlist, lists ▸ mem_append_right _ inLists, inList⟩

theorem Metaclasses.kind {parent : Class → Option Class} (metaclasses : Metaclasses env parent) (isMeta : Bool) :
    env.isMetaClass (env.nsoClass isMeta) = isMeta := by
  cases isMeta with
  | false => exact metaclasses.nsobject
  | true =>
    rw [Env.nsoClass, if_pos rfl, ← metaclasses.nsobjectMeta]
    exact metaclasses.isa _ metaclasses.nsobject

end Invariant

section Steps

variable {env : Env Class} {start st st' : State Class Method} {count : Nat}

/-- Flags do not depend on implementations and caches. -/
theorem Flags.with_imp {scanner : Scanner} {exempt : Class → Prop} (flags : Flags env scanner exempt st)
    (imp : Method → Nat) (cache : Class → List (Nat × Nat)) :
    Flags env scanner exempt { st with rt := { st.rt with imp := imp, cache := cache } } :=
  fun c isDefault => (flags c isDefault).change (fun _ => id) (fun _ => id) id (fun _ => rfl) fun _ => And.intro

variable {cls : Option Class}

theorem flushCaches_eq (run : Env.flushCaches st count cls = some st') :
    ∃ cache, st' = { st with rt := { st.rt with cache := cache } } := by
  simp only [Env.flushCaches, Option.bind_eq_bind, Option.bind_eq_some_iff] at run
  obtain ⟨rt, flushed, returned⟩ := run
  cases returned
  cases cls with
  | none =>
    obtain ⟨_, _, rfl⟩ := Option.map_eq_some_iff.mp flushed
    exact ⟨_, rfl⟩
  | some =>
    obtain ⟨_, _, rfl⟩ := Option.map_eq_some_iff.mp flushed
    exact ⟨_, rfl⟩

variable (inv : Inv env start st)
include inv

theorem Inv.flushCaches (run : Env.flushCaches st count cls = some st') : Inv env start st' := by
  obtain ⟨cache, rfl⟩ := flushCaches_eq run
  exact ⟨{ inv.kept with hierarchy := { inv.kept.hierarchy with } }, fun bundle => ⟨(inv.right bundle).flags.with_imp st.rt.imp cache, (inv.right bundle).builtin⟩⟩

/-! ## Implementations -/

omit inv in
/-- **The scan after a change of one implementation.** -/
theorem adjustCustomFlagsForMethodChange_spec [DecidableEq Method] (except : Method → Prop) (kept : Kept env start st.rt)
    (right : ∀ bundle, Right env start nobody except (env.selectors.scanner bundle) st) {meth : Method}
    (owner : ∀ top, cls = some top → st.rt.Has top meth) (run : env.adjustCustomFlagsForMethodChange st count cls meth = some st') :
    st'.rt = st.rt ∧ ∀ bundle, Right env start nobody (fun m => except m ∧ m ≠ meth) (env.selectors.scanner bundle) st' := by
  refine Env.eachScanner_spec run (right_local env start nobody except) (right_local env start nobody fun m => except m ∧ m ≠ meth)
    (fun bundle s s' rt right scan => ?_) right
  obtain ⟨scanned, noticed⟩ := right.flags.scanChangedMethod (rt ▸ walkable_of_hierarchy kept.hierarchy) kept.metaclasses.kind scan
  refine ⟨scanned.only, scanned.flags, fun isMeta covered unswizzled m has notExcept interesting => ?_⟩
  refine (scanned.right right).builtin isMeta covered unswizzled m has (fun isExcept => notExcept ⟨isExcept, ?_⟩) interesting
  -- the changed method itself is a method of NSObject, so the bit would be set
  rintro rfl
  rw [rt] at noticed
  have hasNow := kept.has has
  have concerned : Concerns env st.rt cls m isMeta := by
    cases cls with
    | none => exact hasNow
    | some top => exact kept.hierarchy.owner _ _ m (owner top rfl) hasNow
  refine nomatch (noticed isMeta covered ?_ concerned).symm.trans unswizzled
  rw [kept.names isMeta m has]
  exact interesting

theorem Inv.methodSetImplementation [DecidableEq Method] {m : Method} {imp : Nat} (owner : ∀ top, cls = some top → st.rt.Has top m)
    (run : env.methodSetImplementation st count cls m imp = some st') : Inv env start st' ∧ st'.rt.methods = st.rt.methods := by
  rw [Env.methodSetImplementation] at run
  split at run
  · exact Option.some.inj run ▸ ⟨inv, rfl⟩
  simp only [Option.bind_eq_bind, Option.bind_eq_some_iff] at run
  obtain ⟨_, flushed, adjusted⟩ := run
  obtain ⟨cache, rfl⟩ := flushCaches_eq flushed
  have kept : Kept env start { st.rt with imp := update st.rt.imp m imp, cache := cache } :=
    { inv.kept with hierarchy := { inv.kept.hierarchy with } }
  obtain ⟨rt, right⟩ := adjustCustomFlagsForMethodChange_spec (· = m) kept
    (fun bundle => ⟨(inv.right bundle).flags.with_imp _ cache, fun isMeta covered unswizzled other has different interesting =>
      (update_of_ne different _ _).trans ((inv.right bundle).builtin isMeta covered unswizzled other has id interesting)⟩) owner adjusted
  refine ⟨⟨rt ▸ kept, fun bundle => ⟨(right bundle).flags, fun isMeta covered unswizzled other has _ interesting => ?_⟩⟩, by rw [rt]⟩
  exact (right bundle).builtin isMeta covered unswizzled other has (fun both => both.2 both.1) interesting

theorem Inv.methodExchangeImplementations [DecidableEq Method] {m1 m2 : Method}
    (run : env.methodExchangeImplementations st count m1 m2 = some st') : Inv env start st' := by
  simp only [Env.methodExchangeImplementations, Option.bind_eq_bind, Option.bind_eq_some_iff] at run
  obtain ⟨_, flushed, _, first, second⟩ := run
  obtain ⟨cache, rfl⟩ := flushCaches_eq flushed
  have kept : Kept env start { st.rt with
      imp := update (update st.rt.imp m1 (st.rt.imp m2)) m2 (st.rt.imp m1), cache := cache } :=
    { inv.kept with hierarchy := { inv.kept.hierarchy with } }
  obtain ⟨rt₁, right₁⟩ := adjustCustomFlagsForMethodChange_spec (fun m => m = m1 ∨ m = m2) kept
    (fun bundle => ⟨(inv.right bundle).flags.with_imp _ cache, fun isMeta covered unswizzled other has different interesting => by
      obtain ⟨not1, not2⟩ := not_or.mp different
      exact ((update_of_ne not2 _ _).trans (update_of_ne not1 _ _)).trans
        ((inv.right bundle).builtin isMeta covered unswizzled other has id interesting)⟩)
    (by simp) first
  obtain ⟨rt₂, right₂⟩ := adjustCustomFlagsForMethodChange_spec _ (rt₁ ▸ kept) right₁ (by simp) second
  refine ⟨rt₂ ▸ rt₁ ▸ kept, fun bundle => ⟨(right₂ bundle).flags, fun isMeta covered unswizzled other has _ interesting => ?_⟩⟩
  exact (right₂ bundle).builtin isMeta covered unswizzled other has (fun both => both.1.1.elim both.1.2 both.2) interesting

/-! ## Method lists -/

omit inv in
omit [DecidableEq Class] in
theorem Scanner.scanMethodLists_append (scanner : Scanner) (first second : List (List Method)) :
    scanner.scanMethodLists st (first ++ second) = (scanner.scanMethodLists st first || scanner.scanMethodLists st second) := by
  simp [Scanner.scanMethodLists, methodListsContainsAny]

variable (initial : Initial env start)
include initial

omit inv in
/-- The base methods of NSObject stay the last list. -/
theorem ownMethodLists_attachLists (kept : Kept env start st.rt) (cls c : Class) (lists : List (List Method)) :
    env.ownMethodLists (Env.attachLists st cls lists) c = (if c = cls then lists else []) ++ env.ownMethodLists st c := by
  by_cases here : c = cls
  · subst here
    by_cases isNSObject : c = env.nsoClass (env.isMetaClass c)
    · obtain ⟨hasBase, _, came⟩ := initial.baseMethods (env.isMetaClass c)
      obtain ⟨_, now⟩ := kept.lists (env.isMetaClass c)
      rw [came, ← isNSObject] at now
      rw [← isNSObject] at hasBase
      simp only [Env.ownMethodLists, if_pos isNSObject, Env.categoryMethodLists, Env.attachLists, Dispatch.attachLists,
        update_self, now, hasBase]
      simp [← append_assoc]
    · simp [Env.ownMethodLists, isNSObject, Env.attachLists, Dispatch.attachLists]
  · simp only [here, if_false, nil_append, Env.ownMethodLists, Env.categoryMethodLists, Env.attachLists,
      Dispatch.attachLists, update_of_ne here]

variable {cls : Class} {lists : List (List Method)}

/-- **New method lists**, which a class with the flag does not override anything with. -/
theorem Inv.attachLists (own : ∀ mlist ∈ lists, ∀ m ∈ mlist, ∀ other, st.rt.Has other m → other = cls)
    (clean : ∀ bundle, (env.selectors.scanner bundle).isCustom st cls = false → (env.selectors.scanner bundle).scanMethodLists st lists = false)
    : Inv env start (Env.attachLists st cls lists) where
  kept :=
    { hierarchy := inv.kept.hierarchy.attachOwnLists cls own
      metaclasses := inv.kept.metaclasses
      lists := fun isMeta => by
        obtain ⟨cats, now⟩ := inv.kept.lists isMeta
        by_cases here : env.nsoClass isMeta = cls
        · refine ⟨lists ++ cats, ?_⟩
          simp [Env.attachLists, Dispatch.attachLists, ← here, now]
        · exact ⟨cats, (update_of_ne here _ _).trans now⟩
      names := inv.kept.names }
  right bundle := by
    refine ⟨fun c isDefault => ?_, (inv.right bundle).builtin⟩
    refine ((inv.right bundle).flags c isDefault).change (fun _ => id) (fun _ => id) (fun wasClean => ?_) (fun _ => rfl) fun _ => And.intro
    rw [ownMethodLists_attachLists initial inv.kept, Scanner.scanMethodLists_append, Bool.or_eq_false_iff]
    refine ⟨?_, wasClean⟩
    split
    · rename_i here
      exact clean bundle (here ▸ isDefault)
    · rfl

omit initial in
theorem prepareMethodLists_spec (run : env.prepareMethodLists st count cls lists = some st') :
    Inv env start st' ∧ st'.rt = st.rt ∧ ∀ bundle, (env.selectors.scanner bundle).isCustom st' cls = false →
      (env.selectors.scanner bundle).scanMethodLists st lists = false := by
  rw [Env.prepareMethodLists] at run
  split at run
  · rename_i nothing
    cases run
    obtain rfl := length_eq_zero_iff.mp nothing
    exact ⟨inv, rfl, fun _ _ => rfl⟩
  · split at run
    · obtain ⟨rt, holds⟩ := Env.eachScanner_spec run
        (P := Right env start nobody fun _ => False)
        (Q := fun scanner s => Right env start nobody (fun _ => False) scanner s ∧
          (scanner.isCustom s cls = false → scanner.scanMethodLists st lists = false))
        (right_local _ _ _ _)
        (fun scanner s s' rt hasDefault swizzled holds => by
          refine ⟨right_local _ _ _ _ scanner s s' rt hasDefault swizzled holds.1, fun isDefault => holds.2 ?_⟩
          rw [Scanner.isCustom, State.hasCustom, hasDefault] at isDefault
          exact isDefault)
        (fun bundle s s' rt right scan => by
          obtain ⟨scanned, clean⟩ := right.flags.scanAddedMethodLists (rt ▸ walkable_of_hierarchy inv.kept.hierarchy) scan
          refine ⟨scanned.only, scanned.right right, ?_⟩
          simpa only [Scanner.scanMethodLists, rt] using clean)
        inv.right
      exact ⟨⟨rt ▸ inv.kept, fun bundle => (holds bundle).1⟩, rt, fun bundle => (holds bundle).2⟩
    · rename_i uninitialized
      cases run
      exact ⟨inv, rfl, fun bundle isDefault => absurd ((inv.right bundle).flags cls isDefault).initialized uninitialized⟩

theorem Inv.prepareAndAttach (own : ∀ mlist ∈ lists, ∀ m ∈ mlist, ∀ other, st.rt.Has other m → other = cls)
    (run : env.prepareMethodLists st count cls lists = some st') : Inv env start (Env.attachLists st' cls lists) ∧
      ∀ other m, (Env.attachLists st' cls lists).rt.Has other m → st.rt.Has other m ∨ other = cls := by
  obtain ⟨inv', rt, clean⟩ := prepareMethodLists_spec inv run
  refine ⟨inv'.attachLists initial (rt ▸ own) ?_, fun other m has => ?_⟩
  · simpa only [Scanner.scanMethodLists, rt] using clean
  · rcases attachLists_has.mp has with old | ⟨here, _⟩
    · exact Or.inl (rt ▸ old)
    · exact Or.inr here

omit initial in
theorem Inv.nameMethod [DecidableEq Method] {newMethod : Method} (fresh : Fresh st.rt newMethod) (name imp : Nat) :
    Inv env start { st with rt := { st.rt with
      name := update st.rt.name newMethod name, imp := update st.rt.imp newMethod imp } } := by
  have other_of_has : ∀ {other m}, st.rt.Has other m → m ≠ newMethod := by
    rintro other m has rfl
    exact fresh other has
  refine ⟨{ inv.kept with hierarchy := { inv.kept.hierarchy with }, names := fun isMeta m has => ?_ }, fun bundle =>
    ⟨fun c isDefault => ?_, fun isMeta covered unswizzled m has _ interesting => ?_⟩⟩
  · exact (update_of_ne (other_of_has (inv.kept.has has)) _ _).trans (inv.kept.names isMeta m has)
  · refine ((inv.right bundle).flags c isDefault).change (fun _ => id) (fun _ => id) (fun clean => ?_) (fun _ => rfl) fun _ => And.intro
    -- the names in the lists are the same
    have sub : ∀ mlist ∈ env.ownMethodLists st c, mlist ∈ st.rt.methods c := by
      intro mlist inLists
      simp only [Env.ownMethodLists, Env.categoryMethodLists] at inLists
      split at inLists
      · split at inLists
        · exact inLists
        · exact mem_of_mem_dropLast inLists
      · exact inLists
    rw [← clean]
    simp only [Scanner.scanMethodLists, methodListsContainsAny]
    refine Bool.eq_iff_iff.mpr ?_
    simp only [any_eq_true]
    refine exists_congr fun mlist => and_congr_right fun inLists => exists_congr fun sel => and_congr_right fun _ => ?_
    rw [find?_congr fun m inList => ?_]
    simp [update_of_ne (other_of_has ⟨mlist, sub mlist inLists, inList⟩)]
  · exact (update_of_ne (other_of_has (inv.kept.has has)) _ _).trans ((inv.right bundle).builtin isMeta covered unswizzled m has id interesting)

/-- **`class_addMethod` and `class_replaceMethod`.** -/
theorem Inv.addMethod [DecidableEq Method] {name imp : Nat} {replace : Bool} {newMethod : Method} (fresh : Fresh st.rt newMethod)
    (run : env.addMethod st count cls name imp replace newMethod = some st') :
    Inv env start st' ∧ ∀ other m, st'.rt.Has other m → st.rt.Has other m ∨ other = cls := by
  rw [Env.addMethod] at run
  cases found : getMethodNoSuper st.rt cls name with
  | some m =>
    simp only [found] at run
    split at run
    · obtain ⟨inv', methods⟩ := inv.methodSetImplementation
        (fun top same => Option.some.inj same ▸ getMethodNoSuper_has found) run
      refine ⟨inv', fun other m has => Or.inl ?_⟩
      rw [Runtime.Has, methods] at has
      exact has
    · exact Option.some.inj run ▸ ⟨inv, fun _ _ => Or.inl⟩
  | none =>
    simp only [found, Option.bind_eq_bind, Option.bind_eq_some_iff] at run
    obtain ⟨_, prepared, flushed⟩ := run
    obtain ⟨inv', has'⟩ := (inv.nameMethod fresh name imp).prepareAndAttach initial (by
      intro mlist inLists m inList other has
      obtain rfl := mem_singleton.mp inLists
      obtain rfl := mem_singleton.mp inList
      exact absurd has (fresh other)) prepared
    refine ⟨inv'.flushCaches flushed, ?_⟩
    obtain ⟨_, rfl⟩ := flushCaches_eq flushed
    exact has'

/-- The lists of categories that are to be attached to a class have no methods of other classes. -/
def Ours (rt : Runtime Class Method) (cls : Class) (cats : List (Option (List Method))) : Prop :=
  ∀ mlist, some mlist ∈ cats → ∀ m ∈ mlist, ∀ other, rt.Has other m → other = cls

variable {cats : List (Option (List Method))}

omit inv in
/-- The loop of `attachCategories`, by induction on the categories. -/
theorem Inv.attachMethodLists : ∀ {st : State Class Method} {mlists : List (List Method)} {result}, Inv env start st → Ours st.rt cls cats →
      Ours st.rt cls (mlists.map some) → env.attachMethodLists count cls st mlists cats = some result →
      Inv env start result.1 ∧ Ours result.1.rt cls (result.2.map some) := by
  have buffer : ∀ {st : State Class Method} {mlists : List (List Method)}, Ours st.rt cls (mlists.map some) →
      ∀ mlist ∈ mlists, ∀ m ∈ mlist, ∀ other, st.rt.Has other m → other = cls :=
    fun ours mlist inLists => ours mlist (mem_map_of_mem inLists)
  induction cats with
  | nil =>
    intro st mlists result inv _ ours run
    exact Option.some.inj run ▸ ⟨inv, ours⟩
  | cons cat cats ih =>
    intro st mlists result inv later ours run
    have laterRest : Ours st.rt cls cats := fun mlist inCats => later mlist (mem_cons_of_mem _ inCats)
    cases cat with
    | none => exact ih inv laterRest ours run
    | some mlist =>
      have first := later mlist mem_cons_self
      rw [Env.attachMethodLists] at run
      split at run
      · simp only [Option.bind_eq_bind, Option.bind_eq_some_iff] at run
        obtain ⟨mid, prepared, rest⟩ := run
        obtain ⟨inv', has'⟩ := inv.prepareAndAttach initial (buffer ours) prepared
        have still : ∀ {m : Method}, (∀ other, st.rt.Has other m → other = cls) →
            ∀ other, (Env.attachLists mid cls mlists).rt.Has other m → other = cls :=
          fun before other has => (has' other _ has).elim (before other) id
        refine ih inv' (fun list inCats m inList => still (laterRest list inCats m inList)) ?_ rest
        intro list inBuffer m inList
        rw [map_cons, map_nil, mem_singleton, Option.some.injEq] at inBuffer
        exact still (first m (inBuffer ▸ inList))
      · refine ih inv laterRest ?_ run
        intro list inBuffer m inList
        rw [map_cons, mem_cons, Option.some.injEq] at inBuffer
        rcases inBuffer with rfl | inRest
        · exact first m inList
        · exact ours list inRest m inList

/-- **Categories are attached.** -/
theorem Inv.attachCategories {existing : Bool} (ours : Ours st.rt cls cats)
    (run : env.attachCategories st count cls cats existing = some st') : Inv env start st' := by
  simp only [Env.attachCategories, Option.bind_eq_bind, Option.bind_eq_some_iff] at run
  obtain ⟨⟨_, _⟩, looped, run⟩ := run
  obtain ⟨inv', ours'⟩ := Inv.attachMethodLists initial inv ours (fun _ inBuffer => absurd inBuffer not_mem_nil) looped
  split at run
  · simp only [Option.bind_eq_some_iff] at run
    obtain ⟨_, preparing, run⟩ := run
    obtain ⟨attached, _⟩ := inv'.prepareAndAttach initial
      (fun mlist inLists => ours' mlist (mem_map_of_mem inLists)) preparing
    split at run
    · exact attached.flushCaches run
    · exact Option.some.inj run ▸ attached
  · exact Option.some.inj run ▸ inv'

end Steps

end DarwinNotes.Objc.CustomFlags
