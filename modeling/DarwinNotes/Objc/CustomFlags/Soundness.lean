import DarwinNotes.Objc.CustomFlags.Steps

/-!
# A class with the flag does what NSObject does

The functions that change the class tree and the end of `+initialize` keep the
invariant too, so it holds in every run. By it, a lookup in a class that has the flag
of a bundle goes past the class and its superclasses up to NSObject, and finds there
what NSObject came with.
-/

namespace DarwinNotes.Objc.CustomFlags
open Objc.ClassTree Objc.Dispatch Function List

variable {Class Method : Type} [DecidableEq Class]

section Steps

variable {env : Env Class} {start st st' : State Class Method} {count : Nat}

/-! ## The end of `+initialize` -/

/-- The answers of `isInitialized` are replaced. -/
def State.withInitialized (st : State Class Method) (isInitialized : Class → Bool) : State Class Method :=
  { st with rt := { st.rt with isInitialized := isInitialized } }

/-- The scan does not look at `isInitialized`. -/
theorem scanInitializedClass_withInitialized (scanner : Scanner) (cls metacls : Class) (isInitialized : Class → Bool) :
    scanner.scanInitializedClass env (st.withInitialized isInitialized) cls metacls =
      (scanner.scanInitializedClass env st cls metacls).withInitialized isInitialized := by
  have impl : ∀ (st : State Class Method) (cls : Class) (isMeta : Bool),
      scanner.scanAddedClassImpl env (st.withInitialized isInitialized) cls isMeta =
        (scanner.scanAddedClassImpl env st cls isMeta).withInitialized isInitialized := by
    intro st cls isMeta
    rw [Scanner.scanAddedClassImpl, Scanner.scanAddedClassImpl, apply_ite (State.withInitialized · isInitialized)]
    rfl
  simp only [Scanner.scanInitializedClass]
  split <;> split <;> simp [impl]

theorem scanInitializedClass_rt (scanner : Scanner) (cls metacls : Class) :
    (scanner.scanInitializedClass env st cls metacls).rt = st.rt := by
  have impl : ∀ (st : State Class Method) (cls : Class) (isMeta : Bool), (scanner.scanAddedClassImpl env st cls isMeta).rt = st.rt := by
    intro st cls isMeta
    rw [Scanner.scanAddedClassImpl, apply_ite State.rt]
    exact ite_self _
  simp only [Scanner.scanInitializedClass]
  split <;> split <;> simp [impl]

variable {cls : Class}

/-- **A class is initialized.** -/
theorem Inv.setInitialized (inv : Inv env start st) (notMeta : env.isMetaClass cls = false) (realized : st.rt.isRealized cls = true)
    (metaRealized : st.rt.isRealized (env.isa cls) = true) : Inv env start (env.setInitialized st cls) := by
  let isInitialized := update (update st.rt.isInitialized (env.isa cls) true) cls true
  have isMeta := inv.kept.metaclasses.isa cls notMeta
  have run : env.eachScanner (st.withInitialized isInitialized)
      (fun scanner s => some (scanner.scanInitializedClass env s cls (env.isa cls))) = some (env.setInitialized st cls) := by
    simp only [Env.eachScanner, Option.bind_eq_bind, Option.bind_some, scanInitializedClass_withInitialized]
    simp [Env.setInitialized, State.withInitialized, scanInitializedClass_rt, isInitialized]
  have apart : env.isa cls ≠ cls := by
    intro same
    rw [same, notMeta] at isMeta
    cases isMeta
  have here : env.isInitialized (st.withInitialized isInitialized) cls = true := by
    simp [Env.isInitialized, Env.getMeta, notMeta, State.withInitialized, isInitialized, apart]
  have hereMeta : env.isInitialized (st.withInitialized isInitialized) (env.isa cls) = true := by
    simp [Env.isInitialized, Env.getMeta, isMeta, State.withInitialized, isInitialized, apart]
  have still : ∀ c, env.isInitialized st c = true → env.isInitialized (st.withInitialized isInitialized) c = true := by
    intro c was
    simp only [Env.isInitialized, State.withInitialized, isInitialized, update_apply] at was ⊢
    split
    · rfl
    · split
      · rfl
      · exact was
  obtain ⟨rt, right⟩ := Env.eachScanner_spec run (right_local env start nobody fun _ => False) (right_local env start nobody fun _ => False)
    (fun bundle s s' rt right scan => by
      cases scan
      have scanned := right.flags.scanInitializedClass notMeta isMeta (by rw [Env.isInitialized, rt]; exact here)
        (by rw [Env.isInitialized, rt]; exact hereMeta) (by rw [rt]; exact realized) (by rw [rt]; exact metaRealized)
      exact ⟨scanned.only, scanned.right right⟩)
    (fun bundle => ⟨fun c isDefault => ((inv.right bundle).flags c isDefault).change still (fun _ => id) id (fun _ => rfl) fun _ => And.intro,
      (inv.right bundle).builtin⟩)
  refine ⟨?_, right⟩
  rw [rt]
  exact { inv.kept with hierarchy := { inv.kept.hierarchy with } }

/-! ## The class tree -/

/-- A class is linked under its superclass, and inherits the flags. -/
theorem addSubclass_spec {exempt : Class → Prop}
    (right : ∀ bundle, Right env start exempt (fun _ => False) (env.selectors.scanner bundle) st) {supercls subcls : Class}
    (walkable : Walkable exempt { st.rt with links := ClassTree.addSubclass st.rt.links supercls subcls })
    (under : st.rt.links.superclass subcls = some supercls) (run : env.addSubclass st count supercls subcls = some st') :
    st'.rt = { st.rt with links := ClassTree.addSubclass st.rt.links supercls subcls } ∧
      ∀ bundle, Right env start (fun c => exempt c ∧ c ≠ subcls) (fun _ => False) (env.selectors.scanner bundle) st' := by
  rw [Env.addSubclass] at run
  refine Env.eachScanner_spec run (right_local env start exempt _) (right_local env start _ _)
    (fun bundle s s' rt right scan => ?_) fun bundle => ⟨fun c isDefault => ?_, (right bundle).builtin⟩
  · have scanned := right.flags.scanAddedSubClass (rt ▸ walkable) (by rw [rt]; exact under) scan
    exact ⟨scanned.only, scanned.right right⟩
  · exact ((right bundle).flags c isDefault).change (fun _ => id) (fun _ => id) id (fun _ => rfl) fun _ => And.intro

theorem Right.mono {scanner : Scanner} {exempt exempt' : Class → Prop} {except : Method → Prop}
    (right : Right env start exempt except scanner st) (more : ∀ cls, exempt cls → exempt' cls) : Right env start exempt' except scanner st :=
  { right with
    flags := fun c isDefault => { right.flags c isDefault with
      inherits := fun other notExempt => (right.flags c isDefault).inherits other fun was => notExempt (more c was) } }

/-- **A class is realized.** -/
theorem Inv.realizeClass [DecidableEq Method] (inv : Inv env start st) (initial : Initial env start) {bonus : Method}
    {cats : List (Option (List Method))} (allowed : Allowed env st (.realizeClass count cls bonus cats))
    (run : env.realizeClass st count cls bonus cats = some st') : Inv env start st' := by
  obtain ⟨unrealized, above, fresh, unattached⟩ := allowed
  have unlinked : ¬ st.rt.isRealized cls = true := by simp [unrealized]
  simp only [Env.realizeClass, Option.bind_eq_bind, Option.bind_eq_some_iff] at run
  obtain ⟨linkedState, linking, named, naming, run⟩ := run
  have realized : ∀ c, st.rt.isRealized c = true → update st.rt.isRealized cls true c = true := by
    intro c was
    rw [update_apply, was]
    exact ite_self _
  have right : ∀ (links : Links Class), links.superclass = st.rt.links.superclass → ∀ bundle,
      Right env start nobody (fun _ => False) (env.selectors.scanner bundle)
        { st with rt := { st.rt with isRealized := update st.rt.isRealized cls true, links := links } } := by
    intro links superclass bundle
    refine ⟨fun c isDefault => ?_, (inv.right bundle).builtin⟩
    refine ((inv.right bundle).flags c isDefault).change (fun _ => id) realized id (fun _ => rfl) fun _ super superDefault => ?_
    exact ⟨(congrFun superclass c).trans super, superDefault⟩
  -- the class is linked, and no flag changes
  obtain ⟨linked, methods⟩ : Inv env start linkedState ∧ linkedState.rt.methods = st.rt.methods := by
    cases super : st.rt.links.superclass cls with
    | none =>
      simp only [super] at linking
      cases linking
      have hierarchy := inv.kept.hierarchy.realize (inv.kept.hierarchy.forest.addRootClass unlinked super) rfl above
      exact ⟨⟨⟨hierarchy, inv.kept.metaclasses, inv.kept.lists, inv.kept.names⟩, right _ rfl⟩, rfl⟩
    | some supercls =>
      simp only [super] at linking
      have hierarchy := inv.kept.hierarchy.realize (inv.kept.hierarchy.forest.addSubclass supercls cls unlinked super) rfl above
      obtain ⟨rt, right⟩ := addSubclass_spec (right _ rfl) (walkable_of_hierarchy hierarchy) super linking
      refine ⟨⟨?_, fun bundle => (right bundle).mono fun _ => And.left⟩, by rw [rt]⟩
      rw [rt]
      exact ⟨hierarchy, inv.kept.metaclasses, inv.kept.lists, inv.kept.names⟩
  have has : ∀ other m, linkedState.rt.Has other m → st.rt.Has other m := by
    intro other m
    rw [Runtime.Has, methods]
    exact id
  obtain ⟨inv', has'⟩ : Inv env start named ∧ ∀ other m, named.rt.Has other m → st.rt.Has other m ∨ other = cls := by
    split at naming
    · obtain ⟨inv', has'⟩ := linked.addMethod initial (fun other here => fresh other (has other bonus here)) naming
      exact ⟨inv', fun other m here => (has' other m here).imp (has other m) id⟩
    · exact Option.some.inj naming ▸ ⟨linked, fun other m here => Or.inl (has other m here)⟩
  refine inv'.attachCategories initial (fun mlist inCats m inList other here => ?_) run
  exact (has' other m here).resolve_left (unattached mlist inCats m inList other)

variable {parent : Class → Option Class}

omit [DecidableEq Class] in
theorem Metaclasses.ne_isa (metaclasses : Metaclasses env parent) {other : Class} (notMeta : env.isMetaClass cls = false)
    (otherNotMeta : env.isMetaClass other = false) : other ≠ env.isa cls := by
  rintro rfl
  exact nomatch otherNotMeta.symm.trans (metaclasses.isa cls notMeta)

theorem Metaclasses.setSuperclass (metaclasses : Metaclasses env parent) {oldSuper newSuper : Class}
    (notMeta : env.isMetaClass cls = false) (newNotMeta : env.isMetaClass newSuper = false) (under : parent cls = some oldSuper) :
    Metaclasses env (update (update parent cls (some newSuper)) (env.isa cls) (some (env.isa newSuper))) := by
  have ofClass : ∀ {c}, env.isMetaClass c = false → c ≠ cls →
      update (update parent cls (some newSuper)) (env.isa cls) (some (env.isa newSuper)) c = parent c ∧
      update (update parent cls (some newSuper)) (env.isa cls) (some (env.isa newSuper)) (env.isa c) = parent (env.isa c) := by
    intro c classNotMeta other
    have otherMeta : env.isa c ≠ env.isa cls := fun same => other (metaclasses.own c cls classNotMeta notMeta same)
    rw [update_of_ne (metaclasses.ne_isa notMeta classNotMeta), update_of_ne other,
      update_of_ne otherMeta, update_of_ne (metaclasses.ne_isa classNotMeta notMeta).symm]
    exact ⟨rfl, rfl⟩
  refine { metaclasses with superclass := fun c supercls classNotMeta super => ?_, root := fun c classNotMeta super => ?_,
                            nsobjectRoot := ?_ }
  · by_cases here : c = cls
    · subst here
      rw [update_of_ne (metaclasses.ne_isa notMeta notMeta), update_self, Option.some.injEq] at super
      subst super
      exact ⟨newNotMeta, update_self _ _ _⟩
    · rw [(ofClass classNotMeta here).1] at super
      rw [(ofClass classNotMeta here).2]
      exact metaclasses.superclass c supercls classNotMeta super
  · have other : c ≠ cls := by
      rintro rfl
      rw [update_of_ne (metaclasses.ne_isa notMeta notMeta), update_self] at super
      cases super
    rw [(ofClass classNotMeta other).1] at super
    rw [(ofClass classNotMeta other).2]
    exact metaclasses.root c classNotMeta super
  · have other : env.classNSObject ≠ cls := by
      rintro rfl
      exact nomatch under.symm.trans metaclasses.nsobjectRoot
    rw [(ofClass metaclasses.nsobject other).1]
    exact metaclasses.nsobjectRoot

/-- **A class has another superclass.** Until both are linked again, the class and its metaclass are
exempt from having the flag only if their superclass has it. -/
theorem Inv.setSuperclass (inv : Inv env start st) {fuel : Nat} {newSuper : Class}
    (allowed : Allowed env st (.setSuperclass fuel count cls newSuper)) (run : env.setSuperclass fuel st count cls newSuper = some st')
    : Inv env start st' := by
  obtain ⟨notMeta, newNotMeta, realized, newRealized, metaRealized, newMetaRealized, grounded⟩ := allowed
  simp only [Env.setSuperclass, Option.bind_eq_bind, Option.bind_eq_some_iff] at run
  obtain ⟨oldSuper, under, _, first, links₂, second, st₁, linking, st₂, metaLinking, _, flushed, flushedMeta⟩ := run
  have metaclasses := inv.kept.metaclasses
  have apart : env.isa cls ≠ cls := (metaclasses.ne_isa notMeta notMeta).symm
  have metaUnder := (metaclasses.superclass cls oldSuper notMeta under).2
  obtain ⟨unlinked, same⟩ := unlink_forest inv.kept.hierarchy.forest realized metaRealized apart under metaUnder first
    second newSuper
  let parent := update (update st.rt.links.superclass cls (some newSuper)) (env.isa cls)
    (some (env.isa newSuper))
  have hereMeta : parent (env.isa cls) = some (env.isa newSuper) := update_self _ _ _
  have here : parent cls = some newSuper := (update_of_ne apart.symm _ _).trans (update_self _ _ _)
  have relinked : relink env.toImage fuel st.rt.links cls oldSuper newSuper = some
      (ClassTree.addSubclass (ClassTree.addSubclass { links₂ with superclass := parent } newSuper cls)
        (env.isa newSuper) (env.isa cls)) := by
    simp [relink, first, second, same, parent]
  obtain ⟨hierarchy, superclass⟩ := @Hierarchy.relink _ _ _ _ _ inv.kept.hierarchy fuel count cls oldSuper newSuper _
    ⟨realized, newRealized, metaRealized, newMetaRealized, apart,
      fun old oldUnder => (metaclasses.superclass cls old notMeta oldUnder).2, grounded⟩ under relinked
  rw [same] at linking
  let moved : State Class Method := { st with rt := { st.rt with links := { links₂ with superclass := parent } } }
  have right : ∀ bundle, Right env start (fun c => c = cls ∨ c = env.isa cls) (fun _ => False) (env.selectors.scanner bundle) moved := by
    refine fun bundle => ⟨fun c isDefault => ?_, (inv.right bundle).builtin⟩
    have before := (inv.right bundle).flags c isDefault
    refine { before with inherits := fun other notExempt => ?_ }
    obtain ⟨supercls, super, superDefault⟩ := before.inherits other id
    obtain ⟨notClass, notItsMeta⟩ := not_or.mp notExempt
    exact ⟨supercls, ((update_of_ne notItsMeta _ _).trans (update_of_ne notClass _ _)).trans super, superDefault⟩
  have grounded' : ∀ links : Links Class, links.superclass = parent → Grounded links := by
    intro links isParent
    rw [Grounded, isParent]
    exact grounded
  -- the class is linked first, while its metaclass is in no list
  have linked := unlinked.addSubclass newSuper cls (fun left => left.1.2 rfl) here
  have walkable : Walkable (fun c => c = cls ∨ c = env.isa cls)
      { moved.rt with links := ClassTree.addSubclass moved.rt.links newSuper cls } :=
    ⟨grounded' _ rfl, _, linked, fun c isRealized notExempt =>
      Or.inl ⟨⟨isRealized, fun same => notExempt (Or.inl same)⟩, fun same => notExempt (Or.inr same)⟩⟩
  obtain ⟨rt₁, right₁⟩ := addSubclass_spec right walkable here linking
  have metaLinked := linked.addSubclass (env.isa newSuper) (env.isa cls)
    (fun left => left.elim (fun old => old.2 rfl) apart) hereMeta
  have metaWalkable : Walkable (fun c => (c = cls ∨ c = env.isa cls) ∧ c ≠ cls)
      { st₁.rt with links := ClassTree.addSubclass st₁.rt.links (env.isa newSuper) (env.isa cls) } := by
    rw [rt₁]
    refine ⟨grounded' _ rfl, _, metaLinked, fun c isRealized notExempt => Or.inl ?_⟩
    by_cases isClass : c = cls
    · exact Or.inr isClass
    · exact Or.inl ⟨⟨isRealized, isClass⟩, fun same => notExempt ⟨Or.inr same, isClass⟩⟩
  obtain ⟨rt₂, right₂⟩ := addSubclass_spec right₁ metaWalkable (by rw [rt₁]; exact hereMeta) metaLinking
  have inv₂ : Inv env start st₂ := by
    refine ⟨?_, fun bundle => (right₂ bundle).mono ?_⟩
    · rw [rt₂, rt₁]
      exact ⟨hierarchy, superclass ▸ metaclasses.setSuperclass notMeta newNotMeta under, inv.kept.lists, inv.kept.names⟩
    · rintro c ⟨⟨rfl | rfl, notClass⟩, notItsMeta⟩
      · exact notClass rfl
      · exact notItsMeta rfl
  exact (inv₂.flushCaches flushed).flushCaches flushedMeta

/-! ## Every run -/

theorem Initial.inv (initial : Initial env start) : Inv env start start where
  kept :=
    { initial with hierarchy := { initial with }, lists := fun _ => ⟨[], rfl⟩, names := fun _ _ _ => rfl }
  right _ := ⟨fun c isDefault => (nomatch isDefault.symm.trans (initial.custom _ c)), fun _ _ _ _ _ _ _ => rfl⟩

theorem Inv.apply [DecidableEq Method] (inv : Inv env start st) (initial : Initial env start) {op : Op Class Method}
    (allowed : Allowed env st op) (run : apply env st op = some st') : Inv env start st' := by
  cases op with
  | realizeClass => exact inv.realizeClass initial allowed run
  | setInitialized => exact Option.some.inj run ▸ inv.setInitialized allowed.1 allowed.2.1 allowed.2.2
  | attachCategories =>
    refine inv.attachCategories initial (fun mlist inCats m inList other has => ?_) run
    exact absurd has (allowed.2 mlist inCats m inList other)
  | addMethod => exact (inv.addMethod initial allowed.2 run).1
  | methodSetImplementation => exact (inv.methodSetImplementation (by simp) run).1
  | methodExchangeImplementations => exact inv.methodExchangeImplementations run
  | setSuperclass => exact inv.setSuperclass allowed run

theorem Reachable.inv [DecidableEq Method] (initial : Initial env start) (reached : Reachable env start st) : Inv env start st := by
  induction reached with
  | start => exact initial.inv
  | next _ allowed run ih => exact ih.apply initial allowed run

/-! ## Lookup -/

omit [DecidableEq Class] in
theorem Selectors.isInterestingSelector_of_mem (selectors : Selectors) (bundle : SelectorBundle) {sel : Nat}
    (isSel : sel ∈ (selectors.scanner bundle).sels) : (selectors.scanner bundle).isInterestingSelector sel = true := by
  cases bundle <;>
    simpa [Selectors.scanner, Selectors.AWZScanner, Selectors.RRScanner, Selectors.CoreScanner, or_assoc] using isSel

omit [DecidableEq Class] in
/-- Lists that do not override anything have no method for the selectors. -/
theorem Scanner.findSome?_of_clean {scanner : Scanner} {mlists : List (List Method)}
    (clean : scanner.scanMethodLists st mlists = false) {sel : Nat} (isSel : sel ∈ scanner.sels) :
    (mlists.findSome? fun mlist => mlist.find? fun m => st.rt.name m == sel) = none := by
  simp only [Scanner.scanMethodLists, methodListsContainsAny, any_eq_false] at clean
  refine findSome?_eq_none_iff.mpr fun mlist inLists => ?_
  have no := clean mlist inLists
  rw [any_eq_true] at no
  exact Option.not_isSome_iff_eq_none.mp fun found => no ⟨sel, isSel, found⟩

variable {bundle : SelectorBundle}

/-- NSObject has the methods of the bundle that it came with. -/
theorem Inv.nsobject_finds (inv : Inv env start st) (initial : Initial env start)
    (isDefault : (env.selectors.scanner bundle).isCustom st cls = false) (isNSObject : cls = env.nsoClass (env.isMetaClass cls))
    {sel : Nat} (isSel : sel ∈ (env.selectors.scanner bundle).sels) :
    Finds env.toImage st.rt sel cls (builtinImp env start (env.isMetaClass cls) sel) := by
  have flag := (inv.right bundle).flags cls isDefault
  generalize isMeta : env.isMetaClass cls = kind at isNSObject
  obtain ⟨hasBase, base, came⟩ := initial.baseMethods kind
  obtain ⟨cats, now⟩ := inv.kept.lists kind
  rw [came] at now
  -- nothing in front of the base methods counts
  have cleanCats : (env.selectors.scanner bundle).scanMethodLists st cats = false := by
    have clean := flag.clean
    rw [Env.ownMethodLists, isMeta, if_pos isNSObject, Env.categoryMethodLists, isNSObject, now, hasBase] at clean
    simpa using clean
  have names : ∀ m ∈ base, st.rt.name m = start.rt.name m := fun m inBase =>
    inv.kept.names kind m ⟨base, by rw [came]; exact mem_singleton_self base, inBase⟩
  have same : getMethodNoSuper st.rt cls sel = getMethodNoSuper start.rt (env.nsoClass kind) sel := by
    rw [getMethodNoSuper, getMethodNoSuper, isNSObject, now, came, findSome?_append,
      Scanner.findSome?_of_clean cleanCats isSel, Option.none_or]
    refine findSome?_congr fun mlist inLists => ?_
    obtain rfl := mem_singleton.mp inLists
    exact find?_congr fun m inBase => by rw [names m inBase]
  rw [builtinImp]
  cases found : getMethodNoSuper start.rt (env.nsoClass kind) sel with
  | some m =>
    have has := getMethodNoSuper_has found
    have named : start.rt.name m = sel := by
      obtain ⟨mlist, _, inList⟩ := exists_of_findSome?_eq_some found
      simpa using find?_some inList
    have imp := (inv.right bundle).builtin kind (isMeta ▸ flag.covered) (isMeta ▸ flag.root (isMeta ▸ isNSObject)) m has id
      (named.symm ▸ env.selectors.isInterestingSelector_of_mem bundle isSel)
    have finds : Finds env.toImage st.rt sel cls (st.rt.imp m) := .here (same.trans found)
    rw [imp] at finds
    exact finds
  | none =>
    have root : st.rt.links.superclass cls = none := by
      cases kind with
      | false =>
        rw [isNSObject]
        exact inv.kept.metaclasses.nsobjectRoot
      | true =>
        have implemented := initial.builtin bundle true (by rintro ⟨⟩) sel isSel
          (by rintro ⟨⟩)
        rw [found] at implemented
        cases implemented
    exact .nowhere (same.trans found) root

/-- What a class with the flag inherits from is a metaclass just as the class is: the metaclass of
another root class inherits from that class, which has no flag. -/
theorem Inv.same_kind (inv : Inv env start st) {supercls : Class} (other : cls ≠ env.nsoClass (env.isMetaClass cls))
    (super : st.rt.links.superclass cls = some supercls) (superDefault : (env.selectors.scanner bundle).isCustom st supercls = false)
    : env.isMetaClass supercls = env.isMetaClass cls := by
  have metaclasses := inv.kept.metaclasses
  cases isMeta : env.isMetaClass cls with
  | false => exact (metaclasses.superclass cls supercls isMeta super).1
  | true =>
    obtain ⟨c, notMeta, rfl⟩ := metaclasses.instances cls isMeta
    cases above : st.rt.links.superclass c with
    | some s =>
      have metaSuper := (metaclasses.superclass c s notMeta above).2
      obtain rfl := Option.some.inj (super.symm.trans metaSuper)
      exact metaclasses.isa s (metaclasses.superclass c s notMeta above).1
    | none =>
      obtain rfl := Option.some.inj (super.symm.trans (metaclasses.root c notMeta above))
      by_cases isNSObject : supercls = env.nsoClass (env.isMetaClass supercls)
      · rw [notMeta] at isNSObject
        rw [isMeta, isNSObject] at other
        exact absurd metaclasses.nsobjectMeta other
      · obtain ⟨s, superSuper, _⟩ := ((inv.right bundle).flags supercls superDefault).inherits isNSObject id
        exact nomatch above.symm.trans superSuper

/-- The lookup goes up to NSObject, by induction on the superclasses. -/
theorem Inv.finds (inv : Inv env start st) (initial : Initial env start) (bundle : SelectorBundle) (cls : Class)
    (isDefault : (env.selectors.scanner bundle).isCustom st cls = false) : Inherits st.rt.links cls (env.nsoClass (env.isMetaClass cls)) ∧
      ∀ sel ∈ (env.selectors.scanner bundle).sels, Finds env.toImage st.rt sel cls (builtinImp env start (env.isMetaClass cls) sel) := by
  induction cls using inv.kept.hierarchy.grounded.induction with
  | _ cls ih =>
    have flag := (inv.right bundle).flags cls isDefault
    by_cases isNSObject : cls = env.nsoClass (env.isMetaClass cls)
    · exact ⟨isNSObject ▸ .refl, fun sel => inv.nsobject_finds initial isDefault isNSObject⟩
    · obtain ⟨supercls, super, superDefault⟩ := flag.inherits isNSObject id
      obtain ⟨inherits, finds⟩ := ih supercls super superDefault
      rw [inv.same_kind isNSObject super superDefault] at inherits finds
      refine ⟨.head super inherits, fun sel isSel => .above ?_ super (finds sel isSel)⟩
      have clean := flag.clean
      rw [Env.ownMethodLists, if_neg isNSObject] at clean
      exact Scanner.findSome?_of_clean clean isSel

/-- **A flag that is not custom is sound, in every run.** The class is initialized and inherits from
NSObject, and a lookup of any selector of the bundle finds what NSObject came with. This is a method
of NSObject itself, except for `new` in a class that is no metaclass: there is none. -/
theorem custom_flags_sound [DecidableEq Method] (initial : Initial env start) (reached : Reachable env start st) (bundle : SelectorBundle)
    (cls : Class) (notCustom : st.hasCustom bundle cls = false) :
    env.isInitialized st cls = true ∧ Inherits st.rt.links cls (env.nsoClass (env.isMetaClass cls)) ∧
      ∀ sel ∈ (env.selectors.scanner bundle).sels,
        (∀ imp, Finds env.toImage st.rt sel cls imp ↔ imp = builtinImp env start (env.isMetaClass cls) sel) ∧
        ((env.isMetaClass cls = false → sel ≠ env.selectors.new) →
          ∃ m, getMethodNoSuper start.rt (env.nsoClass (env.isMetaClass cls)) sel = some m ∧
            builtinImp env start (env.isMetaClass cls) sel = start.rt.imp m) := by
  have inv := Reachable.inv initial reached
  have isDefault : (env.selectors.scanner bundle).isCustom st cls = false := by cases bundle <;> exact notCustom
  have flag := (inv.right bundle).flags cls isDefault
  obtain ⟨inherits, finds⟩ := inv.finds initial bundle cls isDefault
  refine ⟨flag.initialized, inherits, fun sel isSel => ⟨fun imp => ?_, fun ordinary => ?_⟩⟩
  · exact ⟨fun found => found.unique (finds sel isSel), fun same => same ▸ finds sel isSel⟩
  · have scanned : env.isMetaClass cls = false → bundle ≠ .AWZ := by
      rintro notMeta rfl
      have covered := flag.covered
      rw [notMeta] at covered
      exact covered rfl
    obtain ⟨m, found⟩ := Option.isSome_iff_exists.mp (initial.builtin bundle _ scanned sel isSel ordinary)
    exact ⟨m, found, by rw [builtinImp, found]⟩

end Steps

/-! ## A run

NSObject and a subclass with a category. The selectors are the numbers from 0 on, the methods of
NSObject have the IMPs 100 and up, its class methods 200 and up. -/

namespace SampleClass

open Objc.Dispatch.SampleClass

def env : Env SampleClass where
  toImage := image
  isMetaClass cls := decide (cls = rootMeta ∨ cls = subMeta)
  classNSObject := root
  metaclassNSObject := rootMeta
  baseMethods _ := true
  selectors := ⟨0, 1, 2, 3, 4, 5, 6, 7, 8, 9, 10, 11, 12, 13, 14, 15⟩
  noopImp := 1

def rootLinks : Links SampleClass where
  superclass := links.superclass
  firstSubclass
    | root => some rootMeta
    | _ => none
  nextSiblingClass _ := none
  firstRealizedClass := some root

def loaded : State SampleClass Nat where
  rt :=
    { links := rootLinks
      isRealized := fun cls => decide (cls = root ∨ cls = rootMeta)
      isInitialized := fun _ => false
      methods := fun
        | root => [[102, 103, 104, 105, 106, 107, 108, 109, 111, 112, 113, 114]]
        | rootMeta => [[200, 201, 202, 203, 204, 205, 206, 207, 208, 209, 210, 211, 212, 213, 214, 215]]
        | _ => [[]]
      name := (· % 100)
      imp := id
      cache := fun _ => [] }
  hasDefault _ _ := false
  swizzled _ _ := false

theorem loaded_methods : ∀ cls, ∀ mlist ∈ loaded.rt.methods cls, ∀ m ∈ mlist, m < 300 ∧ cls = if m < 200 then root else rootMeta := by decide

theorem loaded_initial : Initial env loaded := by
  have owned : ∀ cls m, loaded.rt.Has cls m → cls = if m < 200 then root else rootMeta :=
    fun cls m ⟨mlist, inLists, inList⟩ => (loaded_methods cls mlist inLists m inList).2
  refine ⟨⟨fun supercls => ?_, [root], .cons .nil, by decide, by decide⟩, links_grounded, by decide, ?_, ?_, fun _ _ => rfl,
    fun _ _ => rfl, by decide, fun isMeta => ⟨rfl, ?_⟩, ?_⟩
  · cases supercls with
    | root => exact ⟨[rootMeta], .cons .nil, by decide, by decide⟩
    | rootMeta | sub | subMeta => exact ⟨[], .nil, by decide, by decide⟩
  · exact fun cls cls' m has has' => (owned cls m has).trans (owned cls' m has').symm
  · exact ⟨by decide, by decide, by decide, by decide, by decide, rfl, rfl, rfl⟩
  · cases isMeta <;> exact ⟨_, rfl⟩
  · intro bundle isMeta
    cases bundle <;> cases isMeta <;> decide

/-- The subclass is realized, with a category for a selector of its own. -/
def realizedMeta : State SampleClass Nat := (apply env loaded (.realizeClass 16 subMeta 300 [])).getD loaded

def realized : State SampleClass Nat := (apply env realizedMeta (.realizeClass 16 sub 300 [some [350]])).getD loaded

/-- Both classes are initialized. -/
def initializedRoot : State SampleClass Nat := (apply env realized (.setInitialized root)).getD loaded

def ready : State SampleClass Nat := (apply env initializedRoot (.setInitialized sub)).getD loaded

theorem ready_reachable : Reachable env loaded ready := by
  have unused : ∀ m, 300 ≤ m → ∀ cls, ¬ loaded.rt.Has cls m := by
    rintro m _ cls ⟨mlist, inLists, inList⟩
    exact absurd (loaded_methods cls mlist inLists m inList).1 (by omega)
  have first : Reachable env loaded realizedMeta := by
    refine @Reachable.next _ _ _ _ _ _ _ _ (.realizeClass 16 subMeta 300 []) .start ⟨rfl, by decide, unused 300 (by decide), ?_⟩ rfl
    exact fun mlist inCats => nomatch inCats
  have second : Reachable env loaded realized := by
    refine @Reachable.next _ _ _ _ _ _ _ _ (.realizeClass 16 sub 300 [some [350]]) first
      ⟨rfl, by decide, unused 300 (by decide), ?_⟩ rfl
    intro mlist inCats m inList
    obtain rfl := Option.some.inj (mem_singleton.mp inCats)
    obtain rfl := mem_singleton.mp inList
    exact unused 350 (by decide)
  have third := @Reachable.next _ _ _ _ _ _ _ _ (.setInitialized root) second ⟨rfl, rfl, rfl⟩ rfl
  exact @Reachable.next _ _ _ _ _ _ _ _ (.setInitialized sub) third ⟨rfl, rfl, rfl⟩ rfl

end SampleClass

/-- The subclass does not report custom retain and release, and `retain` finds the method of NSObject. -/
theorem custom_flags_sound_ready : SampleClass.ready.hasCustom .RR .sub = false ∧
    ∀ imp, Finds SampleClass.env.toImage SampleClass.ready.rt 2 .sub imp ↔ imp = 102 :=
  ⟨rfl, ((custom_flags_sound SampleClass.loaded_initial SampleClass.ready_reachable .RR .sub rfl).2.2 2 (by decide)).1⟩

end DarwinNotes.Objc.CustomFlags
