import DarwinNotes.Objc.CustomFlags.Marking

/-!
# The scanners keep the flags right

One lemma for each scanner function: what it does to the flags of its bundle, and
what it has noticed when it returns. `eachScanner_spec` puts the three bundles
together.
-/

namespace DarwinNotes.Objc.CustomFlags
open Objc.Dispatch

variable {Class Method : Type} [DecidableEq Class]

/-- A scan has kept the flags right. The bits of NSObject are only ever set. -/
structure Scanned (env : Env Class) (scanner : Scanner) (exempt : Class → Prop) (st st' : State Class Method) : Prop where
  flags : Flags env scanner exempt st'
  only : scanner.Only st st'
  swizzled : ∀ isMeta, scanner.isNSObjectSwizzled st isMeta = true → scanner.isNSObjectSwizzled st' isMeta = true

section Scans

variable {env : Env Class} {scanner : Scanner} {exempt : Class → Prop} {st st' st'' : State Class Method} {count : Nat}

variable (flags : Flags env scanner exempt st)
include flags

theorem Scanned.refl : Scanned env scanner exempt st st := ⟨flags, .refl, fun _ => id⟩

omit flags in
theorem Scanned.trans (first : Scanned env scanner exempt st st') (second : Scanned env scanner exempt st' st'') :
    Scanned env scanner exempt st st'' :=
  ⟨second.flags, first.only.trans second.only, fun isMeta was => second.swizzled isMeta (first.swizzled isMeta was)⟩

omit flags in
theorem Scanned.walkable (scanned : Scanned env scanner exempt st st') (walkable : Walkable exempt st.rt) : Walkable exempt st'.rt := by
  rw [scanned.only.rt]
  exact walkable

variable (walkable : Walkable exempt st.rt)
include walkable

variable {cls : Class}

/-- A class is marked. -/
theorem Flags.mark (run : scanner.setCustomRecursively env st count cls = some st') :
    Scanned env scanner exempt st st' ∧ scanner.isCustom st' cls = true := by
  obtain ⟨flags, custom, only, swizzled⟩ := Flags.setCustomRecursively (fun c _ => flags c) walkable run
  refine ⟨⟨flags, only, fun isMeta => ?_⟩, custom⟩
  rw [Scanner.isNSObjectSwizzled, Scanner.isNSObjectSwizzled, swizzled]
  exact id

/-! ## Methods of NSObject -/

variable {isMeta : Bool}

/-- **A method of NSObject has another implementation**: its bit is set, and no class has the flag. -/
theorem Flags.setNSObjectSwizzled (run : scanner.setNSObjectSwizzled env st count (env.nsoClass isMeta) isMeta = some st') :
    Scanned env scanner exempt st st' ∧ scanner.isNSObjectSwizzled st' isMeta = true := by
  -- the bit alone matters only to the flag of NSObject itself
  let st₁ : State Class Method := { st with
    swizzled := Function.update st.swizzled scanner.bundle (Function.update (st.swizzled scanner.bundle) isMeta true) }
  have swizzledHere : scanner.isNSObjectSwizzled st₁ isMeta = true := by simp [st₁, Scanner.isNSObjectSwizzled]
  have swizzledOther : ∀ k, k ≠ isMeta → scanner.isNSObjectSwizzled st₁ k = scanner.isNSObjectSwizzled st k := by
    intro k other
    simp [st₁, Scanner.isNSObjectSwizzled, other]
  have keepsBits : ∀ k, scanner.isNSObjectSwizzled st k = true → scanner.isNSObjectSwizzled st₁ k = true := by
    intro k was
    by_cases same : k = isMeta
    · exact same ▸ swizzledHere
    · exact (swizzledOther k same).trans was
  have only : scanner.Only st st₁ := ⟨rfl, fun _ _ => rfl, fun bundle other => Function.update_of_ne other _ _⟩
  have others : ∀ c, c ≠ env.nsoClass isMeta → scanner.isCustom st₁ c = false → Default env scanner exempt st₁ c := by
    intro c other isDefault
    refine (flags c isDefault).change (fun _ => id) (fun _ => id) id (fun isNSObject => swizzledOther _ ?_) fun _ => And.intro
    intro sameKind
    exact other (sameKind ▸ isNSObject)
  rw [Scanner.setNSObjectSwizzled] at run
  split at run
  · obtain ⟨flags', _, only', swizzled'⟩ := Flags.setCustomRecursively others walkable run
    refine ⟨⟨flags', only.trans only', fun k was => ?_⟩, ?_⟩
    · rw [Scanner.isNSObjectSwizzled, swizzled']
      exact keepsBits k was
    · rw [Scanner.isNSObjectSwizzled, swizzled']
      exact swizzledHere
  · rename_i uninitialized
    cases run
    refine ⟨⟨fun c isDefault => others c ?_ isDefault, only, keepsBits⟩, swizzledHere⟩
    rintro rfl
    exact uninitialized (flags _ isDefault).initialized

variable {meth : Method}

theorem Flags.scanChangedMethodIn [DecidableEq Method] (isMeta : Bool)
    (run : (if scanner.Covers isMeta then scanner.scanChangedMethodIn env st count isMeta meth else some st) = some st') :
    Scanned env scanner exempt st st' ∧
      (scanner.Covers isMeta → st.rt.Has (env.nsoClass isMeta) meth → scanner.isNSObjectSwizzled st' isMeta = true) := by
  split at run
  case isFalse uncovered => exact Option.some.inj run ▸ ⟨.refl flags, fun covered => absurd covered uncovered⟩
  case isTrue =>
  rw [Scanner.scanChangedMethodIn] at run
  split at run
  · obtain ⟨scanned, bit⟩ := flags.setNSObjectSwizzled walkable run
    exact ⟨scanned, fun _ _ => bit⟩
  rename_i unconcerned
  cases run
  refine ⟨.refl flags, fun _ => ?_⟩
  rintro ⟨mlist, inLists, inList⟩
  by_contra unswizzled
  refine unconcerned ?_
  simp only [Bool.and_eq_true, Bool.not_eq_true', List.any_eq_true, List.contains_iff_mem]
  exact ⟨Bool.not_eq_true _ ▸ unswizzled, mlist, inLists, inList⟩

theorem Flags.scanChangedMethodForUnknownClass [DecidableEq Method]
    (run : scanner.scanChangedMethodForUnknownClass env st count meth = some st') :
    Scanned env scanner exempt st st' ∧ ∀ isMeta, scanner.Covers isMeta → st.rt.Has (env.nsoClass isMeta) meth →
      scanner.isNSObjectSwizzled st' isMeta = true := by
  simp only [Scanner.scanChangedMethodForUnknownClass, Option.bind_eq_bind, Option.bind_eq_some_iff] at run
  obtain ⟨_, first, second⟩ := run
  obtain ⟨instances, bit⟩ := flags.scanChangedMethodIn walkable false first
  obtain ⟨classes, metaBit⟩ := instances.flags.scanChangedMethodIn (instances.walkable walkable) true second
  rw [instances.only.rt] at metaBit
  refine ⟨instances.trans classes, fun isMeta covered has => ?_⟩
  cases isMeta with
  | false => exact classes.swizzled false (bit covered has)
  | true => exact metaBit covered has

/-- The method that was changed is one of NSObject: known by its class, or found in the lists. -/
def Concerns (env : Env Class) (rt : Runtime Class Method) (cls : Option Class) (meth : Method) (isMeta : Bool) : Prop :=
  match cls with
  | some cls => cls = env.nsoClass isMeta
  | none => rt.Has (env.nsoClass isMeta) meth

/-- **A method has another implementation.** -/
theorem Flags.scanChangedMethod [DecidableEq Method] (kind : ∀ isMeta, env.isMetaClass (env.nsoClass isMeta) = isMeta)
    {cls : Option Class} (run : scanner.scanChangedMethod env st count cls meth = some st') :
    Scanned env scanner exempt st st' ∧ ∀ isMeta, scanner.Covers isMeta →
      scanner.isInterestingSelector (st.rt.name meth) = true → Concerns env st.rt cls meth isMeta →
      scanner.isNSObjectSwizzled st' isMeta = true := by
  rw [Scanner.scanChangedMethod.eq_def] at run
  split at run
  · rename_i boring
    refine Option.some.inj run ▸ ⟨.refl flags, fun _ _ interesting => ?_⟩
    simp [interesting] at boring
  cases cls with
  | none =>
    obtain ⟨scanned, bits⟩ := flags.scanChangedMethodForUnknownClass walkable run
    exact ⟨scanned, fun isMeta covered _ => bits isMeta covered⟩
  | some cls =>
    have own : ∀ isMeta, cls = env.nsoClass isMeta → isMeta = env.isMetaClass cls := by
      rintro isMeta rfl
      exact (kind isMeta).symm
    simp only at run
    generalize env.isMetaClass cls = isMeta at run own
    -- at most one of the two branches is for this class
    have branch : (if scanner.Covers isMeta ∧ cls = env.nsoClass isMeta ∧ scanner.isNSObjectSwizzled st isMeta = false
        then scanner.setNSObjectSwizzled env st count cls isMeta else some st) = some st' := by
      cases isMeta <;> simpa [Scanner.Covers, Env.nsoClass] using run
    split at branch
    · rename_i taken
      obtain ⟨_, rfl, _⟩ := taken
      obtain ⟨scanned, bit⟩ := flags.setNSObjectSwizzled walkable branch
      exact ⟨scanned, fun isMeta _ _ here => own isMeta here ▸ bit⟩
    · rename_i skipped
      cases branch
      refine ⟨.refl flags, fun isMeta covered _ here => ?_⟩
      obtain rfl := own isMeta here
      by_contra unswizzled
      exact skipped ⟨covered, here, Bool.not_eq_true _ ▸ unswizzled⟩

/-! ## Method lists and subclasses -/

/-- **New method lists.** If the flag is still set, they do not override anything. -/
theorem Flags.scanAddedMethodLists {mlists : List (List Method)} (run : scanner.scanAddedMethodLists env st count cls mlists = some st') :
    Scanned env scanner exempt st st' ∧ (scanner.isCustom st' cls = false → scanner.scanMethodLists st mlists = false) := by
  rw [Scanner.scanAddedMethodLists] at run
  split at run
  · rename_i custom
    refine Option.some.inj run ▸ ⟨.refl flags, fun isDefault => ?_⟩
    exact nomatch custom.symm.trans isDefault
  · split at run
    · obtain ⟨scanned, custom⟩ := flags.mark walkable run
      exact ⟨scanned, fun isDefault => nomatch custom.symm.trans isDefault⟩
    · rename_i clean
      exact Option.some.inj run ▸ ⟨.refl flags, fun _ => Bool.not_eq_true _ ▸ clean⟩

/-- **A class has another superclass.** It is no longer exempt. -/
theorem Flags.scanAddedSubClass {subcls supercls : Class} (under : st.rt.links.superclass subcls = some supercls)
    (run : scanner.scanAddedSubClass env st count subcls supercls = some st') :
    Scanned env scanner (fun c => exempt c ∧ c ≠ subcls) st st' := by
  -- the others have what they are to inherit, so only the class itself is to be looked at
  have narrow : ∀ {s : State Class Method}, Flags env scanner exempt s → s.rt = st.rt →
      (scanner.isCustom s subcls = false → scanner.isCustom s supercls = false) → Flags env scanner (fun c => exempt c ∧ c ≠ subcls) s := by
    intro s flags rt inherits c isDefault
    refine { flags c isDefault with inherits := fun other notExempt => ?_ }
    by_cases here : c = subcls
    · subst here
      exact ⟨supercls, by rw [rt]; exact under, inherits isDefault⟩
    · exact (flags c isDefault).inherits other fun isExempt => notExempt ⟨isExempt, here⟩
  rw [Scanner.scanAddedSubClass] at run
  split at run
  · obtain ⟨scanned, custom⟩ := flags.mark walkable run
    refine ⟨narrow scanned.flags scanned.only.rt fun isDefault => ?_, scanned.only, scanned.swizzled⟩
    exact nomatch custom.symm.trans isDefault
  · rename_i inherited
    cases run
    refine .refl (narrow flags rfl fun isDefault => ?_)
    by_contra superCustom
    exact inherited (by simp [superCustom, isDefault])

omit walkable

/-! ## Initialized classes -/

omit flags in
theorem Scanner.isCustom_setDefault {c : Class} :
    scanner.isCustom (scanner.setDefault st cls) c = false ↔ scanner.isCustom st c = false ∨ c = cls := by
  simp only [Scanner.isCustom, State.hasCustom, Scanner.setDefault, Scanner.setFlag, Function.update_self]
  by_cases here : c = cls <;> simp [here]

/-- **A class is initialized**, with nothing that overrides NSObject in it and above it. -/
theorem Flags.scanAddedClassImpl (kind : env.isMetaClass cls = isMeta) (initialized : env.isInitialized st cls = true)
    (realized : st.rt.isRealized cls = true) (covered : scanner.Covers isMeta) :
    Scanned env scanner exempt st (scanner.scanAddedClassImpl env st cls isMeta) := by
  subst kind
  suffices new : scanner.scanAddedClassImpl env st cls (env.isMetaClass cls) = st ∨
      scanner.scanAddedClassImpl env st cls (env.isMetaClass cls) = scanner.setDefault st cls ∧ Default env scanner exempt st cls by
    rcases new with same | ⟨isSet, new⟩
    · rw [same]
      exact .refl flags
    rw [isSet]
    refine ⟨fun c isDefault => ?_, ?_, fun _ => id⟩
    · have before : Default env scanner exempt st c := by
        rcases Scanner.isCustom_setDefault.mp isDefault with was | rfl
        · exact flags c was
        · exact new
      exact before.change (fun _ => id) (fun _ => id) id (fun _ => rfl) fun supercls super superDefault =>
        ⟨super, Scanner.isCustom_setDefault.mpr (Or.inl superDefault)⟩
    · exact ⟨rfl, fun bundle other => Function.update_of_ne other _ _, fun _ _ => rfl⟩
  rw [Scanner.scanAddedClassImpl]
  split
  case isTrue => exact .inl rfl
  case isFalse swizzled =>
  have unswizzled := Bool.not_eq_true _ ▸ swizzled
  split
  case isTrue isNSObject =>
    split
    case isTrue => exact .inl rfl
    case isFalse clean =>
      refine .inr ⟨rfl, initialized, realized, covered, ?_, fun _ => unswizzled, absurd isNSObject⟩
      rw [Env.ownMethodLists, if_pos isNSObject]
      exact Bool.not_eq_true _ ▸ clean
  case isFalse other =>
  split
  case h_1 => exact .inl rfl
  case h_2 supercls super =>
  split
  case isTrue => exact .inl rfl
  case isFalse superDefault =>
  split
  case isTrue => exact .inl rfl
  case isFalse clean =>
    refine .inr ⟨rfl, initialized, realized, covered, ?_, fun isRoot => absurd isRoot other, fun _ _ => ⟨supercls, super, ?_⟩⟩
    · rw [Env.ownMethodLists, if_neg other]
      exact Bool.not_eq_true _ ▸ clean
    · exact Bool.not_eq_true _ ▸ superDefault

theorem Flags.scanInitializedClass {metacls : Class} (kind : env.isMetaClass cls = false) (metaKind : env.isMetaClass metacls = true)
    (initialized : env.isInitialized st cls = true) (metaInitialized : env.isInitialized st metacls = true)
    (realized : st.rt.isRealized cls = true) (metaRealized : st.rt.isRealized metacls = true) :
    Scanned env scanner exempt st (scanner.scanInitializedClass env st cls metacls) := by
  have instances : Scanned env scanner exempt st
      (if scanner.domain ≠ .Classes then scanner.scanAddedClassImpl env st cls false else st) := by
    split
    · rename_i covered
      exact flags.scanAddedClassImpl kind initialized realized covered
    · exact .refl flags
  rw [Scanner.scanInitializedClass]
  generalize (if scanner.domain ≠ .Classes then scanner.scanAddedClassImpl env st cls false else st) = mid at instances
  split
  · rename_i covered
    refine instances.trans (instances.flags.scanAddedClassImpl metaKind ?_ ?_ covered)
    · rw [Env.isInitialized, instances.only.rt]
      exact metaInitialized
    · rw [instances.only.rt]
      exact metaRealized
  · exact instances

end Scans

end DarwinNotes.Objc.CustomFlags
