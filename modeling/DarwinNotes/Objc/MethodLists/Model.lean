import DarwinNotes.Lib.Buffer
import DarwinNotes.Lib.StableSort

/-!
# The method lists of one class (`objc-runtime-new`)

A class has a list of method lists, kept as nothing, one list or an array of lists.
New lists are put in front; a lookup takes the first list that has the selector and
in it the first method of that selector, by binary search once the list is fixed up.

Selectors and IMPs are addresses; an IMP of 0 is nil. Blocks from `malloc` and
variables on the stack start with contents that are not known.
-/

namespace DarwinNotes.Objc.MethodLists

open Lib

/-- `method_t` -/
structure Method where
  name : Nat
  types : Nat
  imp : Nat
deriving DecidableEq, Repr

/-- `method_list_t`. A list that is marked as fixed up is sorted by selector. -/
structure MethodList where
  entries : List Method
  isFixedUp : Bool
  isUniqued : Bool
  /-- `entsize() == sizeof(method_t)` -/
  hasExpectedSize : Bool
  sorted : isFixedUp = true → entries.Pairwise fun a b => a.name ≤ b.name
deriving DecidableEq

/-! ## Search -/

/-- `while (probe > first && keyValue == probe[-1].name) probe--;` -/
def rewind (entries : List Method) (keyValue : Nat) : (probe : Nat) → Nat
  | 0 => 0
  | probe + 1 => if (entries[probe]?).map Method.name = some keyValue then rewind entries keyValue probe else probe + 1

/-- The loop of `findMethodInSortedMethodList`. -/
def bisect (entries : List Method) (keyValue base count : Nat) : Option Nat :=
  if count = 0 then none
  else
    let probe := base + count / 2
    match entries[probe]? with
    -- not reached: the probe stays in the list
    | none => none
    | some m =>
      if keyValue = m.name then some (rewind entries keyValue probe)
      else if m.name < keyValue then bisect entries keyValue (probe + 1) ((count - 1) / 2)
      else bisect entries keyValue base (count / 2)
termination_by count

/-- `findMethodInSortedMethodList`: the index of the method. -/
def findMethodInSortedMethodList (key : Nat) (list : MethodList) : Option Nat := bisect list.entries key 0 list.entries.length

/-- `search_method_list_inline` -/
def searchMethodList (mlist : MethodList) (sel : Nat) : Option Nat :=
  if mlist.isFixedUp && mlist.hasExpectedSize then findMethodInSortedMethodList sel mlist
  else mlist.entries.findIdx? fun meth => meth.name = sel

/-! ## Fixing up -/

variable (register : Nat → Nat)

/-- `fixupMethodList` with sorting. `register` is the selector of the string behind a name. -/
def fixupMethodList (mlist : MethodList) : MethodList :=
  let entries :=
    if mlist.isUniqued then mlist.entries else mlist.entries.map fun meth => { meth with name := register meth.name }
  { entries := stableSort Method.name entries
    isFixedUp := true
    isUniqued := true
    hasExpectedSize := mlist.hasExpectedSize
    sorted := fun _ => pairwise_stableSort Method.name entries }

/-- What `prepareMethodLists` does to each added list. -/
def prepareMethodList (mlist : MethodList) : MethodList :=
  if mlist.isFixedUp then mlist else fixupMethodList register mlist

/-! ## Lists of lists -/

/-- `list_array_tt`: one list or none, or an array of `count` lists. -/
inductive ListArray (L : Type)
  | list (only : Option L)
  | array (lists : Nat → L) (count : Nat)

namespace ListArray

variable {L : Type}

/-- The lists from `beginLists` to `endLists`. -/
def lists : ListArray L → List L
  | .list only => only.toList
  | .array lists count => load lists 0 count

/-- `attachLists`; `fresh` is what newly allocated cells hold. -/
def attachLists (fresh : Nat → L) (self : ListArray L) (addedLists : List L) : ListArray L :=
  let addedCount := addedLists.length
  if addedCount = 0 then self
  else
    match self with
    | .array lists oldCount =>
      -- many lists -> many lists
      let newCount := oldCount + addedCount
      let lists := fun i => if i < oldCount then lists i else fresh i
      let lists := store lists addedCount (load lists 0 oldCount)
      .array (store lists 0 addedLists) newCount
    | .list oldList =>
      if oldList.isNone ∧ addedCount = 1 then
        -- 0 lists -> 1 list
        .list addedLists.head?
      else
        -- 1 list -> many lists
        let oldCount := if oldList.isSome then 1 else 0
        let newCount := oldCount + addedCount
        let lists := store fresh addedCount oldList.toList
        .array (store lists 0 addedLists) newCount

/-- Change one of the lists in place. -/
def modify (self : ListArray L) (i : Nat) (f : L → L) : ListArray L :=
  match self with
  | .list only => .list (if i = 0 then only.map f else only)
  | .array lists count => .array (fun j => if j = i then f (lists j) else lists j) count

end ListArray

/-! ## Classes -/

/-- The lists of `class_ro_t`. `P` and `Q` are property lists and protocol lists. -/
structure ClassRo (P Q : Type) where
  baseMethods : Option MethodList
  baseProperties : Option P
  baseProtocols : Option Q

/-- The lists of `class_rw_ext_t`. -/
structure ClassRwExt (P Q : Type) where
  methods : ListArray MethodList
  properties : ListArray P
  protocols : ListArray Q

/-- `class_rw_t`: the extension is allocated when it is first needed. -/
structure ClassData (P Q : Type) where
  ro : ClassRo P Q
  ext : Option (ClassRwExt P Q)

/-- What fresh memory holds, and the selectors of names. -/
structure Env (P Q : Type) where
  register : Nat → Nat
  freshMethods : Nat → MethodList
  freshProperties : Nat → P
  freshProtocols : Nat → Q

variable {P Q : Type}

namespace ClassData

variable (data : ClassData P Q)

def methods : ListArray MethodList :=
  match data.ext with
  | some rwe => rwe.methods
  | none => .list data.ro.baseMethods

def properties : ListArray P :=
  match data.ext with
  | some rwe => rwe.properties
  | none => .list data.ro.baseProperties

def protocols : ListArray Q :=
  match data.ext with
  | some rwe => rwe.protocols
  | none => .list data.ro.baseProtocols

/-- `extAllocIfNeeded`, with the lists of `extAlloc`. -/
def extAllocIfNeeded (env : Env P Q) (data : ClassData P Q) : ClassRwExt P Q :=
  match data.ext with
  | some rwe => rwe
  | none =>
    { methods := (ListArray.list none).attachLists env.freshMethods data.ro.baseMethods.toList
      properties := (ListArray.list none).attachLists env.freshProperties data.ro.baseProperties.toList
      protocols := (ListArray.list none).attachLists env.freshProtocols data.ro.baseProtocols.toList }

/-- Where a method is: the number of its list and its number in the list. -/
structure Place where
  list : Nat
  index : Nat
deriving DecidableEq

/-- `getMethodNoSuper_nolock` from the list `i` on. -/
def findInLists (sel i : Nat) : List MethodList → Option (Place × Method)
  | [] => none
  | mlist :: mlists =>
    match searchMethodList mlist sel with
    | some index => (mlist.entries[index]?).map fun m => (⟨i, index⟩, m)
    | none => findInLists sel (i + 1) mlists

/-- `getMethodNoSuper_nolock`: the method and its place. -/
def getMethodNoSuper (sel : Nat) : Option (Place × Method) := findInLists sel 0 data.methods.lists

end ClassData

/-! ## Categories -/

/-- `category_t`, with what its image says about class properties. -/
structure Category (P Q : Type) where
  instanceMethods : Option MethodList
  classMethods : Option MethodList
  protocols : Option Q
  instanceProperties : Option P
  classProperties : Option P
  hasCategoryClassProperties : Bool

namespace Category

variable (cat : Category P Q)

def methodsForMeta (isMeta : Bool) : Option MethodList :=
  if isMeta then cat.classMethods else cat.instanceMethods

def propertiesForMeta (isMeta : Bool) : Option P :=
  if !isMeta then cat.instanceProperties
  else if cat.hasCategoryClassProperties then cat.classProperties
  else none

def protocolsForMeta (isMeta : Bool) : Option Q := if isMeta then none else cat.protocols

end Category

/-- `ATTACH_BUFSIZ` -/
def attachBufsiz : Nat := 64

/-- One kind of lists during `attachCategories`: the lists of the class, and a buffer that is
filled from its end. -/
structure Collected (L : Type) where
  array : ListArray L
  buffer : Nat → L
  count : Nat

namespace Collected

variable {L : Type} (fresh : Nat → L) (prepare : L → L)

/-- The part of the loop body for one kind of lists; `prepare` is done to lists before they are attached. -/
def collect (self : Collected L) : Option L → Collected L
  | none => self
  | some list =>
    let self :=
      if self.count = attachBufsiz then
        { self with
          array := self.array.attachLists fresh ((load self.buffer 0 self.count).map prepare)
          count := 0 }
      else self
    let count := self.count + 1
    { self with
      buffer := store self.buffer (attachBufsiz - count) [list]
      count := count }

/-- The loop for one kind of lists, one of which or none each category has. -/
def collectAll (array : ListArray L) (lists : List (Option L)) : Collected L :=
  lists.foldl (collect fresh prepare) { array, buffer := fresh, count := 0 }

/-- The lists that are left in the buffer are attached after the loop. -/
def finish (self : Collected L) : ListArray L :=
  self.array.attachLists fresh ((load self.buffer (attachBufsiz - self.count) self.count).map prepare)

end Collected

/-- `attachCategories`. -/
def attachCategories (env : Env P Q) (data : ClassData P Q) (isMeta : Bool) (cats : List (Category P Q)) : ClassData P Q :=
  let rwe := data.extAllocIfNeeded env
  let prepare := prepareMethodList env.register
  let methods := Collected.collectAll env.freshMethods prepare rwe.methods (cats.map (·.methodsForMeta isMeta))
  let properties := Collected.collectAll env.freshProperties id rwe.properties (cats.map (·.propertiesForMeta isMeta))
  let protocols := Collected.collectAll env.freshProtocols id rwe.protocols (cats.map (·.protocolsForMeta isMeta))
  { data with
    ext := some
      { methods := if 0 < methods.count then methods.finish env.freshMethods prepare else methods.array
        properties := properties.finish env.freshProperties id
        protocols := protocols.finish env.freshProtocols id } }

/-! ## Adding methods -/

/-- Writing the IMP of a method. -/
def MethodList.setImp (mlist : MethodList) (index imp : Nat) : MethodList :=
  { mlist with
    entries := mlist.entries.modify index fun m => { m with imp }
    sorted := by
      intro fixedUp
      have names : (mlist.entries.modify index fun m => { m with imp }).map Method.name = mlist.entries.map Method.name := by
        apply List.ext_getElem?
        intro i
        rw [List.getElem?_map, List.getElem?_modify, List.getElem?_map]
        cases mlist.entries[i]? with
        | none => rfl
        | some m => by_cases same : index = i <;> simp [same]
      have sorted := List.pairwise_map.mpr (mlist.sorted fixedUp)
      exact List.pairwise_map.mp (names.symm ▸ sorted) }

namespace ClassData

variable (data : ClassData P Q)

/-- Change the method list `i` of `methods()`. -/
def modifyMethods (i : Nat) (f : MethodList → MethodList) : ClassData P Q :=
  match data.ext with
  | some rwe => { data with ext := some { rwe with methods := rwe.methods.modify i f } }
  | none => { data with
      ro := { data.ro with
        baseMethods := if i = 0 then data.ro.baseMethods.map f else data.ro.baseMethods } }

/-- `_method_setImplementation` for a method of the class: the old IMP. -/
def methodSetImplementation (place : Place) (m : Method) (imp : Nat) : Nat × ClassData P Q :=
  if imp = 0 then (0, data) else (m.imp, data.modifyMethods place.list fun mlist => mlist.setImp place.index imp)

variable (env : Env P Q)

/-- Attach a list that was allocated for the class. -/
def attachMethods (newlist : MethodList) : ClassData P Q :=
  let rwe := data.extAllocIfNeeded env
  { data with
    ext := some { rwe with
      methods := rwe.methods.attachLists env.freshMethods [prepareMethodList env.register newlist] } }

/-- `addMethod` -/
def addMethod (name imp types : Nat) (replace : Bool) : Nat × ClassData P Q :=
  match data.getMethodNoSuper name with
  | some (place, m) => if !replace then (m.imp, data) else data.methodSetImplementation place m imp
  | none =>
    let newlist : MethodList :=
      { entries := [⟨name, types, imp⟩], isFixedUp := true, isUniqued := true, hasExpectedSize := true
        sorted := fun _ => List.pairwise_singleton _ _ }
    (0, data.attachMethods env newlist)

/-- The state of the loop of `addMethods`: the class, the new methods and the failed names. -/
structure Adding (P Q : Type) where
  data : ClassData P Q
  newlist : List Method
  failedNames : List Nat

/-- One turn of the loop of `addMethods`; the arrays hold `method`. -/
def Adding.step (replace : Bool) (self : Adding P Q) (method : Method) : Adding P Q :=
  match self.data.getMethodNoSuper method.name with
  | some (place, m) =>
    if !replace then { self with failedNames := self.failedNames ++ [m.name] }
    else { self with data := (self.data.methodSetImplementation place m method.imp).2 }
  | none => { self with newlist := self.newlist ++ [method] }

/-- The end of `addMethods`: the new methods are sorted and attached, if there are any. -/
def Adding.finish (self : Adding P Q) : List Nat × ClassData P Q :=
  if 0 < self.newlist.length then
    let newlist : MethodList :=
      { entries := stableSort Method.name self.newlist, isFixedUp := true, isUniqued := true, hasExpectedSize := true
        sorted := fun _ => pairwise_stableSort Method.name self.newlist }
    (self.failedNames, self.data.attachMethods env newlist)
  else (self.failedNames, self.data)

/-- `addMethods`: the failed names and the class. The parallel arrays are one list here. -/
def addMethods (data : ClassData P Q) (methods : List Method) (replace : Bool) : List Nat × ClassData P Q :=
  (methods.foldl (Adding.step replace) { data, newlist := [], failedNames := [] }).finish env

end ClassData

/-! ## The calls; a class may be `Nil` -/

variable (env : Env P Q) (cls : Option (ClassData P Q))

/-- `class_addMethod` -/
def classAddMethod (method : Method) : Bool × Option (ClassData P Q) :=
  match cls with
  | none => (false, none)
  | some data =>
    let (result, data) := data.addMethod env method.name method.imp method.types false
    (result == 0, some data)

/-- `class_replaceMethod` -/
def classReplaceMethod (method : Method) : Nat × Option (ClassData P Q) :=
  match cls with
  | none => (0, none)
  | some data =>
    let (result, data) := data.addMethod env method.name method.imp method.types true
    (result, some data)

/-- `class_addMethodsBulk` -/
def classAddMethodsBulk (methods : List Method) : List Nat × Option (ClassData P Q) :=
  match cls with
  | none => (methods.map Method.name, none)
  | some data =>
    let (failed, data) := data.addMethods env methods false
    (failed, some data)

/-- `class_replaceMethodsBulk` -/
def classReplaceMethodsBulk (methods : List Method) : Option (ClassData P Q) :=
  match cls with
  | none => none
  | some data => some (data.addMethods env methods true).2

end DarwinNotes.Objc.MethodLists
