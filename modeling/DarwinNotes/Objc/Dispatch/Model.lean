import DarwinNotes.Objc.ClassTree.Walk

/-!
# Method lookup and the functions that change methods

The sections of `objc-runtime-new.mm` under `runtimeLock` that read or change method
lists and method caches. A cache is the list of its insertions since it was last
reallocated or erased, the first one counting, which is what a lookup in it sees.
An IMP of 0 is nil.

`none` is a fatal error: the process is gone.
-/

namespace DarwinNotes.Objc.Dispatch
open Objc.ClassTree

variable {Class Method : Type} [DecidableEq Class] [DecidableEq Method]

/-- What does not change: the metaclasses, and `_objc_msgForward_impcache`. -/
structure Image (Class : Type) where
  isa : Class → Class
  forwardImp : Nat
  forwardImp_ne : forwardImp ≠ 0

structure Runtime (Class Method : Type) where
  links : Links Class
  isRealized : Class → Bool
  isInitialized : Class → Bool
  /-- the method lists of a class, the one that is searched first in front -/
  methods : Class → List (List Method)
  name : Method → Nat
  imp : Method → Nat
  cache : Class → List (Nat × Nat)

/-! ## Lookup -/

variable (rt : Runtime Class Method) (cls : Class)

/-- `getMethodNoSuper_nolock`; in each list the first method of the name is found. -/
def getMethodNoSuper (sel : Nat) : Option Method := (rt.methods cls).findSome? fun mlist => mlist.find? fun m => rt.name m == sel

def cacheGetImp (sel : Nat) : Nat := ((rt.cache cls).lookup sel).getD 0

/-- `cache_fill`; `reallocates` is whether the insertion finds the cache full. -/
def cacheFill (sel imp : Nat) (reallocates : Bool) : Runtime Class Method :=
  if rt.isInitialized cls then
    let kept := if reallocates then [] else rt.cache cls
    { rt with cache := Function.update rt.cache cls (kept ++ [(sel, imp)]) }
  else rt

/-- The loop of `lookUpImpOrForward`: the IMP, and whether the loop was left for `done`. -/
def search (image : Image Class) (rt : Runtime Class Method) (sel : Nat) : Nat → Class → Option (Nat × Bool)
  | 0, _ => none
  | attempts + 1, curClass =>
    match getMethodNoSuper rt curClass sel with
    | some meth => some (rt.imp meth, true)
    | none =>
      match rt.links.superclass curClass with
      | none => some (image.forwardImp, false)
      | some supercls =>
        if attempts = 0 then none
        else
          let imp := cacheGetImp rt supercls sel
          if imp = image.forwardImp then some (imp, false)
          else if imp ≠ 0 then some (imp, true)
          else search image rt sel attempts supercls

variable (image : Image Class)

/-- `lookUpImpOrForward` while it holds the lock. With `resolver` it drops the lock to call the
resolver instead of caching the forwarding IMP; `cacheIt` is what the message log answers. -/
def lookUpImpOrForward (rt : Runtime Class Method) (attempts : Nat) (cls : Class) (sel : Nat)
    (resolver cacheIt reallocates : Bool) : Option (Runtime Class Method) :=
  match search image rt sel attempts cls with
  | none => none
  | some (imp, found) =>
    if !found && resolver then some rt
    else if cacheIt then some (cacheFill rt cls sel imp reallocates)
    else some rt

/-! ## Changes -/

/-- The block of `flushCaches`. -/
def everyClass : Visitor Class := ⟨false, fun _ => false, fun _ => true⟩

def eraseCaches (visited : List Class) : Runtime Class Method :=
  { rt with cache := fun cls => if cls ∈ visited then [] else rt.cache cls }

variable (count : Nat)

/-- `flushCaches`; `count` is `unreasonableClassCount()`. -/
def flushCaches : Option Class → Option (Runtime Class Method)
  | some cls => (foreachRealizedClassAndSubclass rt.links everyClass count cls).map fun result => eraseCaches rt result.2
  | none => (foreachRoot rt.links everyClass count count rt.links.firstRealizedClass).map (eraseCaches rt)

/-- `_method_setImplementation`. -/
def methodSetImplementation (cls : Option Class) (m : Method) (imp : Nat) : Option (Runtime Class Method) :=
  if imp = 0 then some rt else flushCaches { rt with imp := Function.update rt.imp m imp } count cls

def methodExchangeImplementations (m1 m2 : Method) : Option (Runtime Class Method) :=
  let m1_imp := rt.imp m1
  let imp := Function.update rt.imp m1 (rt.imp m2)
  flushCaches { rt with imp := Function.update imp m2 m1_imp } count none

/-- `attachLists`: the new lists come first. -/
def attachLists (addedLists : List (List Method)) : Runtime Class Method :=
  { rt with methods := Function.update rt.methods cls (addedLists ++ rt.methods cls) }

/-- `addMethod`; `newMethod` is the method of the list it allocates. -/
def addMethod (cls : Class) (name imp : Nat) (replace : Bool)
    (newMethod : Method) : Option (Runtime Class Method) :=
  match getMethodNoSuper rt cls name with
  | some m => if replace then methodSetImplementation rt count (some cls) m imp else some rt
  | none =>
    let rt := { rt with name := Function.update rt.name newMethod name, imp := Function.update rt.imp newMethod imp }
    flushCaches (attachLists rt cls [[newMethod]]) count (some cls)

def attachBufsiz : Nat := 64

/-- The loop of `attachCategories` over the method lists of the categories: `mlists` is filled from
its end, and attached when it is full. -/
def attachMethodLists (cls : Class) : Runtime Class Method → List (List Method) → List (Option (List Method)) →
    Runtime Class Method × List (List Method)
  | rt, mlists, [] => (rt, mlists)
  | rt, mlists, none :: cats => attachMethodLists cls rt mlists cats
  | rt, mlists, some mlist :: cats =>
    if mlists.length = attachBufsiz then attachMethodLists cls (attachLists rt cls mlists) [mlist] cats
    else attachMethodLists cls rt (mlist :: mlists) cats

/-- `attachCategories`; `existing` is `ATTACH_EXISTING`. -/
def attachCategories (cls : Class) (cats : List (Option (List Method)))
    (existing : Bool) : Option (Runtime Class Method) :=
  let (rt, mlists) := attachMethodLists cls rt [] cats
  if 0 < mlists.length then
    let rt := attachLists rt cls mlists
    if existing then flushCaches rt count (some cls) else some rt
  else some rt

/-- The change of the links in `setSuperclass`. -/
def relink (fuel : Nat) (links : Links Class) (cls oldSuper newSuper : Class) : Option (Links Class) := do
  let links ← removeSubclass fuel links oldSuper cls
  let links ← removeSubclass fuel links (image.isa oldSuper) (image.isa cls)
  let links := { links with superclass := Function.update links.superclass cls (some newSuper) }
  let links := { links with
    superclass := Function.update links.superclass (image.isa cls) (some (image.isa newSuper)) }
  return addSubclass (addSubclass links newSuper cls) (image.isa newSuper) (image.isa cls)

/-- `setSuperclass`; a root class has no superclass to be removed from. -/
def setSuperclass (fuel : Nat) (rt : Runtime Class Method) (count : Nat) (cls newSuper : Class) : Option (Runtime Class Method) := do
  let oldSuper ← rt.links.superclass cls
  let links ← relink image fuel rt.links cls oldSuper newSuper
  let rt ← flushCaches { rt with links := links } count (some cls)
  flushCaches rt count (some (image.isa cls))

/-- `realizeClassWithoutSwift` for one class, whose superclass is realized: it is linked, and its
categories are attached. -/
def realizeClass (cats : List (Option (List Method))) : Option (Runtime Class Method) :=
  let links :=
    match rt.links.superclass cls with
    | some supercls => addSubclass rt.links supercls cls
    | none => addRootClass rt.links cls
  attachCategories { rt with links := links, isRealized := Function.update rt.isRealized cls true } 0 cls cats false

/-! ## Runs -/

inductive Op (Class Method : Type)
  | lookUpImpOrForward (attempts : Nat) (cls : Class) (sel : Nat) (resolver cacheIt reallocates : Bool)
  /-- `class_addMethod`, or with `replace` `class_replaceMethod` -/
  | addMethod (count : Nat) (cls : Class) (name imp : Nat) (replace : Bool) (newMethod : Method)
  | methodSetImplementation (count : Nat) (m : Method) (imp : Nat)
  | methodExchangeImplementations (count : Nat) (m1 m2 : Method)
  /-- `attachCategories` with `ATTACH_EXISTING` -/
  | attachCategories (count : Nat) (cls : Class) (cats : List (Option (List Method)))
  | setSuperclass (fuel count : Nat) (cls newSuper : Class)
  | realizeClass (cls : Class) (cats : List (Option (List Method)))
  /-- `+initialize` of the class is done -/
  | setInitialized (cls : Class)

def apply (rt : Runtime Class Method) : Op Class Method → Option (Runtime Class Method)
  | .lookUpImpOrForward attempts cls sel resolver cacheIt reallocates =>
    lookUpImpOrForward image rt attempts cls sel resolver cacheIt reallocates
  | .addMethod count cls name imp replace newMethod => addMethod rt count cls name imp replace newMethod
  | .methodSetImplementation count m imp => methodSetImplementation rt count none m imp
  | .methodExchangeImplementations count m1 m2 => methodExchangeImplementations rt count m1 m2
  | .attachCategories count cls cats => attachCategories rt count cls cats true
  | .setSuperclass fuel count cls newSuper => setSuperclass image fuel rt count cls newSuper
  | .realizeClass cls cats => realizeClass rt cls cats
  | .setInitialized cls => some { rt with isInitialized := Function.update rt.isInitialized cls true }

/-- The methods of a class. -/
def Runtime.Has (m : Method) : Prop := ∃ mlist ∈ rt.methods cls, m ∈ mlist

/-- The lists of a category belong to no class yet. -/
def Unattached (cats : List (Option (List Method))) : Prop := ∀ mlist, some mlist ∈ cats → ∀ m ∈ mlist, ∀ cls, ¬ rt.Has cls m

/-- What the assertions ask for; and the superclass that is set must leave a hierarchy. -/
def Allowed (rt : Runtime Class Method) : Op Class Method → Prop
  | .lookUpImpOrForward _ cls _ _ _ _ => rt.isRealized cls = true
  | .addMethod _ cls _ _ _ newMethod => rt.isRealized cls = true ∧ ∀ cls, ¬ rt.Has cls newMethod
  | .methodSetImplementation _ _ _ => True
  | .methodExchangeImplementations _ _ _ => True
  | .attachCategories _ cls cats => rt.isRealized cls = true ∧ Unattached rt cats
  | .setSuperclass _ _ cls newSuper =>
    rt.isRealized cls = true ∧ rt.isRealized newSuper = true ∧
    rt.isRealized (image.isa cls) = true ∧ rt.isRealized (image.isa newSuper) = true ∧ image.isa cls ≠ cls ∧
    (∀ oldSuper, rt.links.superclass cls = some oldSuper → rt.links.superclass (image.isa cls) = some (image.isa oldSuper)) ∧
    Grounded { rt.links with
      superclass := Function.update (Function.update rt.links.superclass cls (some newSuper)) (image.isa cls)
        (some (image.isa newSuper)) }
  | .realizeClass cls cats => rt.isRealized cls = false ∧
    (∀ supercls, rt.links.superclass cls = some supercls → rt.isRealized supercls = true) ∧ Unattached rt cats
  | .setInitialized cls => rt.isRealized cls = true

/-- A class hierarchy with empty caches, in which no method belongs to two classes. -/
structure Initial (rt : Runtime Class Method) : Prop where
  forest : Forest rt.links (rt.isRealized · = true)
  grounded : Grounded rt.links
  closed : ∀ cls supercls, rt.isRealized cls = true → rt.links.superclass cls = some supercls → rt.isRealized supercls = true
  owner : ∀ cls cls' m, rt.Has cls m → rt.Has cls' m → cls = cls'
  empty : ∀ cls, rt.cache cls = []

inductive Reachable (image : Image Class) : Runtime Class Method → Prop
  | start {rt : Runtime Class Method} : Initial rt → Reachable image rt
  | next {rt rt' : Runtime Class Method} {op : Op Class Method} :
      Reachable image rt → Allowed image rt op → apply image rt op = some rt' → Reachable image rt'

end DarwinNotes.Objc.Dispatch
