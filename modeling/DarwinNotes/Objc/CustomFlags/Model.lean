import DarwinNotes.Objc.Dispatch.Model

/-!
# Flags for classes that do not override NSObject (`objc-runtime-new.mm`)

Three bundles of selectors that are hardly ever overridden have a flag in every
class. While the flag says that nothing is overridden, callers do not send these
messages but do what NSObject does. A class has the custom behaviour until its
`+initialize` is done; then a scan of its method lists decides. Later changes of
methods and of the class tree are scanned as they happen.

This is the configuration with `SUPPORT_NONPOINTER_ISA`. As in `Dispatch`, `none`
is a crash or a fatal error, `count` is `unreasonableClassCount()`.
-/

namespace DarwinNotes.Objc.CustomFlags
open Objc.ClassTree Objc.Dispatch

inductive SelectorBundle
  | AWZ
  | RR
  | Core
deriving DecidableEq, Repr

inductive Scope
  | Instances
  | Classes
  | Both
deriving DecidableEq, Repr

/-- The selectors that are named in the code. -/
structure Selectors where
  alloc : Nat
  allocWithZone : Nat
  retain : Nat
  release : Nat
  autorelease : Nat
  tryRetain : Nat
  isDeallocating : Nat
  retainCount : Nat
  allowsWeakReference : Nat
  retainWeakReference : Nat
  new : Nat
  self' : Nat
  class' : Nat
  isKindOfClass : Nat
  respondsToSelector : Nat
  initialize' : Nat

/-- The parameters of `scanner::Mixin`; `isCustom`, `setCustom` and `setDefault` are those of the
flag of the bundle. -/
structure Scanner where
  bundle : SelectorBundle
  domain : Scope
  isInterestingSelector : Nat → Bool
  /-- the selectors of `scanMethodLists` -/
  sels : List Nat

namespace Selectors

variable (s : Selectors)

/-- +alloc / +allocWithZone: -/
def AWZScanner : Scanner where
  bundle := .AWZ
  domain := .Classes
  isInterestingSelector sel := sel == s.alloc || sel == s.allocWithZone
  sels := [s.alloc, s.allocWithZone]

def RRScanner : Scanner where
  bundle := .RR
  domain := .Both
  isInterestingSelector sel :=
    sel == s.retain || sel == s.release || sel == s.autorelease || sel == s.tryRetain || sel == s.isDeallocating ||
      sel == s.retainCount || sel == s.allowsWeakReference || sel == s.retainWeakReference
  sels := [s.retain, s.release, s.autorelease, s.tryRetain, s.isDeallocating, s.retainCount, s.allowsWeakReference, s.retainWeakReference]

/-- +new, ±class, ±self, ±isKindOfClass:, ±respondsToSelector: -/
def CoreScanner : Scanner where
  bundle := .Core
  domain := .Both
  isInterestingSelector sel := sel == s.new || sel == s.self' || sel == s.class' || sel == s.isKindOfClass || sel == s.respondsToSelector
  sels := [s.new, s.self', s.class', s.isKindOfClass, s.respondsToSelector]

def scanner : SelectorBundle → Scanner
  | .AWZ => s.AWZScanner
  | .RR => s.RRScanner
  | .Core => s.CoreScanner

end Selectors

/-- What does not change in the process. -/
structure Env (Class : Type) extends Image Class where
  isMetaClass : Class → Bool
  classNSObject : Class
  metaclassNSObject : Class
  /-- `ro()->baseMethods()` is not nil -/
  baseMethods : Class → Bool
  selectors : Selectors
  /-- `objc_noop_imp` -/
  noopImp : Nat

variable {Class Method : Type} [DecidableEq Class] [DecidableEq Method]

structure State (Class Method : Type) where
  rt : Runtime Class Method
  /-- the bits `HAS_DEFAULT_AWZ`, `HAS_DEFAULT_RR` and `HAS_DEFAULT_CORE` of a class -/
  hasDefault : SelectorBundle → Class → Bool
  /-- `NSObjectSwizzledMask`: for each bundle a bit for the class and one for the metaclass -/
  swizzled : SelectorBundle → Bool → Bool

/-- `hasCustomAWZ`, `hasCustomRR` and `hasCustomCore`. -/
def State.hasCustom (st : State Class Method) (bundle : SelectorBundle) (cls : Class) : Bool := !st.hasDefault bundle cls

namespace Env

variable (env : Env Class)

def getMeta (cls : Class) : Class := if env.isMetaClass cls then cls else env.isa cls

/-- `NSOClass` in the scanners. -/
def nsoClass (isMeta : Bool) : Class := if isMeta then env.metaclassNSObject else env.classNSObject

/-- `isInitialized`: the bit of the metaclass. -/
def isInitialized (st : State Class Method) (cls : Class) : Bool := st.rt.isInitialized (env.getMeta cls)

/-- The lists from `beginCategoryMethodLists` to `endCategoryMethodLists`. -/
def categoryMethodLists (st : State Class Method) (cls : Class) : List (List Method) :=
  let mlists := st.rt.methods cls
  if mlists.isEmpty || !env.baseMethods cls then mlists else mlists.dropLast

end Env

/-- `method_lists_contains_any` -/
def methodListsContainsAny (rt : Runtime Class Method) (mlists : List (List Method)) (sels : List Nat) : Bool :=
  mlists.any fun mlist => sels.any fun sel => (mlist.find? fun m => rt.name m == sel).isSome

/-! ## The scanners -/

namespace Scanner

variable (scanner : Scanner) (env : Env Class) (st : State Class Method) (cls : Class)

def isCustom : Bool := st.hasCustom scanner.bundle cls

def setFlag (value : Bool) : State Class Method :=
  { st with
    hasDefault := Function.update st.hasDefault scanner.bundle (Function.update (st.hasDefault scanner.bundle) cls value) }

def setCustom : State Class Method := scanner.setFlag st cls false

def setDefault : State Class Method := scanner.setFlag st cls true

def scanMethodLists (mlists : List (List Method)) : Bool := methodListsContainsAny st.rt mlists scanner.sels

/-- What the block of `setCustomRecursively` returns for a class: whether it is marked. -/
def marks (cls c : Class) : Bool :=
  -- a subclass that is not yet initialized waits for `setInitialized`
  if c ≠ cls ∧ !env.isInitialized st c then false
  else if scanner.isCustom st c then false
  else true

variable (count : Nat)

/-- `setCustomRecursively`. No class is visited twice, so the block can look at the flags as they
were. -/
def setCustomRecursively (cls : Class) : Option (State Class Method) :=
  let marks := scanner.marks env st cls
  (foreachRealizedClassAndSubclass st.rt.links ⟨false, env.isMetaClass, marks⟩ count cls).map fun result =>
    (result.2.filter marks).foldl scanner.setCustom st

def isNSObjectSwizzled (isMeta : Bool) : Bool := st.swizzled scanner.bundle isMeta

def setNSObjectSwizzled (nsoClass : Class) (isMeta : Bool) : Option (State Class Method) :=
  let st := { st with
    swizzled := Function.update st.swizzled scanner.bundle (Function.update (st.swizzled scanner.bundle) isMeta true) }
  if env.isInitialized st nsoClass then scanner.setCustomRecursively env st count nsoClass else some st

/-- One half of `scanChangedMethodForUnknownClass`: NSObject, or its metaclass. -/
def scanChangedMethodIn (isMeta : Bool) (meth : Method) : Option (State Class Method) :=
  if !scanner.isNSObjectSwizzled st isMeta && (st.rt.methods (env.nsoClass isMeta)).any (·.contains meth) then
    scanner.setNSObjectSwizzled env st count (env.nsoClass isMeta) isMeta
  else some st

def scanChangedMethodForUnknownClass (meth : Method) : Option (State Class Method) := do
  let st ← (if scanner.domain ≠ .Classes then scanner.scanChangedMethodIn env st count false meth else some st)
  if scanner.domain ≠ .Instances then scanner.scanChangedMethodIn env st count true meth else some st

def scanAddedClassImpl (isMeta : Bool) : State Class Method :=
  let setCustom :=
    if scanner.isNSObjectSwizzled st isMeta then true
    else if cls = env.nsoClass isMeta then
      -- NSObject is default but we need to check categories
      scanner.scanMethodLists st (env.categoryMethodLists st cls)
    else
      match st.rt.links.superclass cls with
      -- custom root class; a metaclass always has a superclass
      | none => true
      | some supercls => if scanner.isCustom st supercls then true else scanner.scanMethodLists st (st.rt.methods cls)
  if setCustom then st else scanner.setDefault st cls

def scanInitializedClass (cls metacls : Class) : State Class Method :=
  let st := if scanner.domain ≠ .Classes then scanner.scanAddedClassImpl env st cls false else st
  if scanner.domain ≠ .Instances then scanner.scanAddedClassImpl env st metacls true else st

def scanAddedSubClass (subcls supercls : Class) : Option (State Class Method) :=
  if scanner.isCustom st supercls && !scanner.isCustom st subcls then scanner.setCustomRecursively env st count subcls
  else some st

def scanAddedMethodLists (cls : Class) (mlists : List (List Method)) : Option (State Class Method) :=
  if scanner.isCustom st cls then some st
  else if scanner.scanMethodLists st mlists then scanner.setCustomRecursively env st count cls
  else some st

def scanChangedMethod (cls : Option Class) (meth : Method) : Option (State Class Method) :=
  if !scanner.isInterestingSelector (st.rt.name meth) then some st
  else
    match cls with
    | some cls => do
      let isMeta := env.isMetaClass cls
      let st ←
        (if isMeta ∧ scanner.domain ≠ .Instances ∧ cls = env.metaclassNSObject ∧ !scanner.isNSObjectSwizzled st isMeta then
          scanner.setNSObjectSwizzled env st count cls isMeta
        else some st)
      if !isMeta ∧ scanner.domain ≠ .Classes ∧ cls = env.classNSObject ∧ !scanner.isNSObjectSwizzled st isMeta then
        scanner.setNSObjectSwizzled env st count cls isMeta
      else some st
    | none => scanner.scanChangedMethodForUnknownClass env st count meth

end Scanner

namespace Env

variable (env : Env Class) (st : State Class Method)

/-- One scanner after the other: AWZ, RR, Core. -/
def eachScanner (scan : Scanner → State Class Method → Option (State Class Method)) : Option (State Class Method) := do
  let st ← scan env.selectors.AWZScanner st
  let st ← scan env.selectors.RRScanner st
  scan env.selectors.CoreScanner st

/-! ## The functions that call them -/

/-- `objc_class::setInitialized` -/
def setInitialized (cls : Class) : State Class Method :=
  let metacls := env.isa cls
  let st := env.selectors.AWZScanner.scanInitializedClass env st cls metacls
  let st := env.selectors.RRScanner.scanInitializedClass env st cls metacls
  let st := env.selectors.CoreScanner.scanInitializedClass env st cls metacls
  -- the bit `RW_INITIALIZED` of the metaclass is the answer for both
  { st with rt := { st.rt with
      isInitialized := Function.update (Function.update st.rt.isInitialized metacls true) cls true } }

variable (count : Nat)

def adjustCustomFlagsForMethodChange (cls : Option Class) (meth : Method) :
    Option (State Class Method) := env.eachScanner st fun scanner st => scanner.scanChangedMethod env st count cls meth

variable (cls : Class)

/-- `prepareMethodLists`, after the lists are fixed up. -/
def prepareMethodLists (addedLists : List (List Method)) : Option (State Class Method) :=
  if addedLists.length = 0 then some st
  else if env.isInitialized st cls then
    env.eachScanner st fun scanner st => scanner.scanAddedMethodLists env st count cls addedLists
  else some st

def attachLists (st : State Class Method) (cls : Class) (addedLists : List (List Method)) : State Class Method :=
  { st with rt := Dispatch.attachLists st.rt cls addedLists }

def flushCaches (st : State Class Method) (count : Nat) (cls : Option Class) : Option (State Class Method) := do
  let rt ← Dispatch.flushCaches st.rt count cls
  return { st with rt := rt }

/-- `_method_setImplementation` -/
def methodSetImplementation (cls : Option Class) (m : Method) (imp : Nat) : Option (State Class Method) :=
  if imp = 0 then some st
  else do
    let st := { st with rt := { st.rt with imp := Function.update st.rt.imp m imp } }
    let st ← flushCaches st count cls
    env.adjustCustomFlagsForMethodChange st count cls m

def methodExchangeImplementations (m1 m2 : Method) : Option (State Class Method) := do
  let m1_imp := st.rt.imp m1
  let imp := Function.update st.rt.imp m1 (st.rt.imp m2)
  let st := { st with rt := { st.rt with imp := Function.update imp m2 m1_imp } }
  let st ← flushCaches st count none
  let st ← env.adjustCustomFlagsForMethodChange st count none m1
  env.adjustCustomFlagsForMethodChange st count none m2

/-- `addMethod`; `newMethod` is the method of the list it allocates. -/
def addMethod (name imp : Nat) (replace : Bool)
    (newMethod : Method) : Option (State Class Method) :=
  match getMethodNoSuper st.rt cls name with
  | some m => if replace then env.methodSetImplementation st count (some cls) m imp else some st
  | none => do
    let rt := { st.rt with
      name := Function.update st.rt.name newMethod name
      imp := Function.update st.rt.imp newMethod imp }
    let st ← env.prepareMethodLists { st with rt := rt } count cls [[newMethod]]
    flushCaches (attachLists st cls [[newMethod]]) count (some cls)

/-- The loop of `attachCategories` over the method lists of the categories. -/
def attachMethodLists (count : Nat) (cls : Class) : State Class Method → List (List Method) →
    List (Option (List Method)) → Option (State Class Method × List (List Method))
  | st, mlists, [] => some (st, mlists)
  | st, mlists, none :: cats => attachMethodLists count cls st mlists cats
  | st, mlists, some mlist :: cats =>
    if mlists.length = attachBufsiz then do
      let st ← env.prepareMethodLists st count cls mlists
      attachMethodLists count cls (attachLists st cls mlists) [mlist] cats
    else attachMethodLists count cls st (mlist :: mlists) cats

/-- `attachCategories`; `existing` is `ATTACH_EXISTING`. -/
def attachCategories (cats : List (Option (List Method)))
    (existing : Bool) : Option (State Class Method) := do
  let (st, mlists) ← env.attachMethodLists count cls st [] cats
  if 0 < mlists.length then
    let st ← env.prepareMethodLists st count cls mlists
    let st := attachLists st cls mlists
    if existing then flushCaches st count (some cls) else return st
  else return st

/-- `addSubclass`, without the flags for C++ structors and raw isas. -/
def addSubclass (st : State Class Method) (count : Nat) (supercls subcls : Class) : Option (State Class Method) :=
  let st := { st with rt := { st.rt with links := ClassTree.addSubclass st.rt.links supercls subcls } }
  env.eachScanner st fun scanner st => scanner.scanAddedSubClass env st count subcls supercls

/-- `setSuperclass`; a root class has no superclass to be removed from. -/
def setSuperclass (fuel : Nat) (st : State Class Method) (count : Nat) (cls newSuper : Class) : Option (State Class Method) := do
  let oldSuper ← st.rt.links.superclass cls
  let links ← removeSubclass fuel st.rt.links oldSuper cls
  let links ← removeSubclass fuel links (env.isa oldSuper) (env.isa cls)
  let superclass := Function.update links.superclass cls (some newSuper)
  let superclass := Function.update superclass (env.isa cls) (some (env.isa newSuper))
  let st := { st with rt := { st.rt with links := { links with superclass := superclass } } }
  let st ← env.addSubclass st count newSuper cls
  let st ← env.addSubclass st count (env.isa newSuper) (env.isa cls)
  let st ← flushCaches st count (some cls)
  flushCaches st count (some (env.isa cls))

/-- `realizeClassWithoutSwift` for one class, whose superclass is realized: it is linked, and
`methodizeClass` adds the bonus method of a root metaclass and the categories. -/
def realizeClass (bonus : Method)
    (cats : List (Option (List Method))) : Option (State Class Method) := do
  let st := { st with rt := { st.rt with isRealized := Function.update st.rt.isRealized cls true } }
  let st ←
    (match st.rt.links.superclass cls with
    | some supercls => env.addSubclass st count supercls cls
    | none => some { st with rt := { st.rt with links := addRootClass st.rt.links cls } })
  let st ←
    (if env.isa cls = cls then env.addMethod st count cls env.selectors.initialize' env.noopImp false bonus else some st)
  env.attachCategories st count cls cats false

end Env

/-! ## Runs -/

inductive Op (Class Method : Type)
  | realizeClass (count : Nat) (cls : Class) (bonus : Method) (cats : List (Option (List Method)))
  /-- `+initialize` of the class is done -/
  | setInitialized (cls : Class)
  /-- `attachCategories` with `ATTACH_EXISTING`, for a class or a metaclass -/
  | attachCategories (count : Nat) (cls : Class) (cats : List (Option (List Method)))
  /-- `class_addMethod`, or with `replace` `class_replaceMethod` -/
  | addMethod (count : Nat) (cls : Class) (name imp : Nat) (replace : Bool) (newMethod : Method)
  | methodSetImplementation (count : Nat) (m : Method) (imp : Nat)
  | methodExchangeImplementations (count : Nat) (m1 m2 : Method)
  /-- `class_setSuperclass` -/
  | setSuperclass (fuel count : Nat) (cls newSuper : Class)

def apply (env : Env Class) (st : State Class Method) : Op Class Method → Option (State Class Method)
  | .realizeClass count cls bonus cats => env.realizeClass st count cls bonus cats
  | .setInitialized cls => some (env.setInitialized st cls)
  | .attachCategories count cls cats => env.attachCategories st count cls cats true
  | .addMethod count cls name imp replace newMethod => env.addMethod st count cls name imp replace newMethod
  | .methodSetImplementation count m imp => env.methodSetImplementation st count none m imp
  | .methodExchangeImplementations count m1 m2 => env.methodExchangeImplementations st count m1 m2
  | .setSuperclass fuel count cls newSuper => env.setSuperclass fuel st count cls newSuper

/-- A method of no class. -/
def Fresh (rt : Runtime Class Method) (m : Method) : Prop := ∀ cls, ¬ rt.Has cls m

/-- What the assertions ask for; and the superclass that is set must leave a hierarchy. -/
def Allowed (env : Env Class) (st : State Class Method) : Op Class Method → Prop
  | .realizeClass _ cls bonus cats =>
    st.rt.isRealized cls = false ∧ (∀ supercls, st.rt.links.superclass cls = some supercls → st.rt.isRealized supercls = true) ∧
    Fresh st.rt bonus ∧ Unattached st.rt cats
  | .setInitialized cls => env.isMetaClass cls = false ∧ st.rt.isRealized cls = true ∧ st.rt.isRealized (env.isa cls) = true
  | .attachCategories _ cls cats => st.rt.isRealized cls = true ∧ Unattached st.rt cats
  | .addMethod _ cls _ _ _ newMethod => st.rt.isRealized cls = true ∧ Fresh st.rt newMethod
  | .methodSetImplementation _ _ _ => True
  | .methodExchangeImplementations _ _ _ => True
  | .setSuperclass _ _ cls newSuper =>
    env.isMetaClass cls = false ∧ env.isMetaClass newSuper = false ∧ st.rt.isRealized cls = true ∧ st.rt.isRealized newSuper = true ∧
    st.rt.isRealized (env.isa cls) = true ∧ st.rt.isRealized (env.isa newSuper) = true ∧ Grounded { st.rt.links with
      superclass := Function.update (Function.update st.rt.links.superclass cls (some newSuper)) (env.isa cls)
        (some (env.isa newSuper)) }

/-- Every class has a metaclass of its own, whose superclass is the metaclass of its superclass; that
of a root class is the root class. -/
structure Metaclasses (env : Env Class) (parent : Class → Option Class) : Prop where
  isa : ∀ cls, env.isMetaClass cls = false → env.isMetaClass (env.isa cls) = true
  superclass : ∀ cls supercls, env.isMetaClass cls = false → parent cls = some supercls →
    env.isMetaClass supercls = false ∧ parent (env.isa cls) = some (env.isa supercls)
  root : ∀ cls, env.isMetaClass cls = false → parent cls = none → parent (env.isa cls) = some cls
  instances : ∀ metacls, env.isMetaClass metacls = true → ∃ cls, env.isMetaClass cls = false ∧ env.isa cls = metacls
  own : ∀ cls cls', env.isMetaClass cls = false → env.isMetaClass cls' = false → env.isa cls = env.isa cls' → cls = cls'
  nsobject : env.isMetaClass env.classNSObject = false
  nsobjectMeta : env.isa env.classNSObject = env.metaclassNSObject
  nsobjectRoot : parent env.classNSObject = none

/-- The library is loaded: NSObject is realized and has only its own methods, and every flag is still
as it is before `setInitialized`. NSObject implements the selectors of the bundles, `alloc`,
`allocWithZone:` and `new` only as class methods. -/
structure Initial (env : Env Class) (st : State Class Method) : Prop where
  forest : Forest st.rt.links (st.rt.isRealized · = true)
  grounded : Grounded st.rt.links
  closed : ∀ cls supercls, st.rt.isRealized cls = true → st.rt.links.superclass cls = some supercls → st.rt.isRealized supercls = true
  owner : ∀ cls cls' m, st.rt.Has cls m → st.rt.Has cls' m → cls = cls'
  metaclasses : Metaclasses env st.rt.links.superclass
  custom : ∀ bundle cls, st.hasCustom bundle cls = true
  unswizzled : ∀ bundle isMeta, st.swizzled bundle isMeta = false
  realized : ∀ isMeta, st.rt.isRealized (env.nsoClass isMeta) = true
  baseMethods : ∀ isMeta, env.baseMethods (env.nsoClass isMeta) = true ∧ ∃ base, st.rt.methods (env.nsoClass isMeta) = [base]
  builtin : ∀ bundle isMeta, (isMeta = false → bundle ≠ .AWZ) → ∀ sel ∈ (env.selectors.scanner bundle).sels,
    (isMeta = false → sel ≠ env.selectors.new) → (getMethodNoSuper st.rt (env.nsoClass isMeta) sel).isSome = true

/-- What NSObject itself does for a selector: the IMP of its own method, if it has one. -/
def builtinImp (env : Env Class) (st : State Class Method) (isMeta : Bool) (sel : Nat) : Nat :=
  match getMethodNoSuper st.rt (env.nsoClass isMeta) sel with
  | some m => st.rt.imp m
  | none => env.forwardImp

inductive Reachable (env : Env Class) (start : State Class Method) : State Class Method → Prop
  | start : Reachable env start start
  | next {st st' : State Class Method} {op : Op Class Method} :
      Reachable env start st → Allowed env st op → apply env st op = some st' → Reachable env start st'

end DarwinNotes.Objc.CustomFlags
