import DarwinNotes.CF.BinaryPlist.Model

/-!
# The numbers of the objects

Flattening enters the objects of a property list one by one, in the order in which they
are reached. Afterwards the table gives for every object the number of a place in the list
where that object is.
-/

namespace DarwinNotes.CF.BinaryPlist
open List

/-! ## Objects and their parts -/

namespace Obj

def parts : Obj → List Obj
  | leaf _ _ => []
  | array _ values => values
  | dict _ keys values => keys ++ values

mutual

/-- How deep the parts of an object are nested. -/
def height : Obj → Nat
  | leaf _ _ => 0
  | array _ values => heightOf values + 1
  | dict _ keys values => max (heightOf keys) (heightOf values) + 1

def heightOf : List Obj → Nat
  | [] => 0
  | obj :: objs => max obj.height (heightOf objs)

end

theorem heightOf_append (objs objs' : List Obj) : heightOf (objs ++ objs') = max (heightOf objs) (heightOf objs') := by
  induction objs with
  | nil => simp [heightOf]
  | cons _ _ ih => rw [cons_append, heightOf, ih, heightOf, max_assoc]

theorem height_le_heightOf {objs : List Obj} {obj : Obj} (isObj : obj ∈ objs) : obj.height ≤ heightOf objs := by
  obtain ⟨before, after, rfl⟩ := append_of_mem isObj
  rw [heightOf_append, heightOf]
  omega

theorem height_lt_of_mem_parts {obj part : Obj} (isPart : part ∈ obj.parts) : part.height < obj.height := by
  cases obj with
  | leaf => cases isPart
  | array => exact Nat.lt_succ_of_le (height_le_heightOf isPart)
  | dict =>
    rw [height, ← heightOf_append]
    exact Nat.lt_succ_of_le (height_le_heightOf isPart)

/-- What holds for an object if it holds for its parts holds for every object. -/
@[elab_as_elim] theorem induction {P : Obj → Prop} (step : ∀ obj : Obj, (∀ part ∈ obj.parts, P part) → P obj) (obj : Obj) : P obj :=
  (measure height).wf.induction obj fun obj ih => step obj fun part isPart => ih part (height_lt_of_mem_parts isPart)

end Obj

mutual

/-- The objects of a property list, each as often as it is reached. -/
def Obj.subs : Obj → List Obj
  | .leaf ptr content => [.leaf ptr content]
  | .array ptr values => .array ptr values :: subsOf values
  | .dict ptr keys values => .dict ptr keys values :: (subsOf keys ++ subsOf values)

def subsOf : List Obj → List Obj
  | [] => []
  | obj :: objs => obj.subs ++ subsOf objs

end

theorem subsOf_eq_flatMap (objs : List Obj) : subsOf objs = objs.flatMap Obj.subs := by
  induction objs with
  | nil => rw [subsOf, flatMap_nil]
  | cons _ _ ih => rw [subsOf, flatMap_cons, ih]

namespace Obj

theorem subs_eq (obj : Obj) : obj.subs = obj :: obj.parts.flatMap subs := by
  cases obj with
  | leaf => rw [subs, parts, flatMap_nil]
  | array => rw [subs, parts, subsOf_eq_flatMap]
  | dict => rw [subs, parts, flatMap_append, subsOf_eq_flatMap, subsOf_eq_flatMap]

theorem self_mem_subs (obj : Obj) : obj ∈ obj.subs := by
  rw [subs_eq]
  exact mem_cons_self

theorem mem_subs {obj sub : Obj} : sub ∈ obj.subs ↔ sub = obj ∨ ∃ part ∈ obj.parts, sub ∈ part.subs := by
  rw [subs_eq, mem_cons, mem_flatMap]

theorem subs_of_mem_parts {obj part sub : Obj} (isPart : part ∈ obj.parts) (isSub : sub ∈ part.subs) : sub ∈ obj.subs :=
  mem_subs.mpr (.inr ⟨part, isPart, isSub⟩)

theorem subs_trans {obj sub inner : Obj} (isInner : inner ∈ sub.subs) (isSub : sub ∈ obj.subs) : inner ∈ obj.subs := by
  induction obj using Obj.induction with
  | step _ ih =>
    rcases mem_subs.mp isSub with rfl | ⟨part, isPart, inPart⟩
    · exact isInner
    · exact subs_of_mem_parts isPart (ih part isPart inPart)

theorem mem_subs_of_mem_parts {plist obj part : Obj} (isSub : obj ∈ plist.subs) (isPart : part ∈ obj.parts) : part ∈ plist.subs :=
  subs_trans (subs_of_mem_parts isPart part.self_mem_subs) isSub

theorem height_le_of_mem_subs {obj sub : Obj} (isSub : sub ∈ obj.subs) : sub.height ≤ obj.height := by
  induction obj using Obj.induction with
  | step _ ih =>
    rcases mem_subs.mp isSub with rfl | ⟨part, isPart, inPart⟩
    · exact le_rfl
    · exact (ih part isPart inPart).trans (height_lt_of_mem_parts isPart).le

/-- An object is not inside one of its parts. -/
theorem ne_of_mem_part {obj part sub : Obj} (isPart : part ∈ obj.parts) (isSub : sub ∈ part.subs) : sub ≠ obj := by
  rintro rfl
  exact Nat.lt_irrefl _ ((height_lt_of_mem_parts isPart).trans_le (height_le_of_mem_subs isSub))

def isUniqued : Obj → Bool
  | leaf _ content => content.isUniqued
  | array _ _ | dict _ _ _ => false

end Obj

/-! ## One object is entered -/

namespace Flat

/-- An object is entered, unless it is uniqued and already there. -/
def enter (flat : Flat) (obj : Obj) : Flat :=
  if obj.isUniqued then
    if obj.ptr ∈ flat.uniquingset then flat else { flat with uniquingset := obj.ptr :: flat.uniquingset }.add obj
  else flat.add obj

end Flat

theorem flattenAll_eq_foldl (flat : Flat) (objs : List Obj) : flattenAll flat objs = objs.foldl flattenPlist flat := by
  induction objs generalizing flat with
  | nil => rw [flattenAll, foldl_nil]
  | cons _ _ ih => rw [flattenAll, foldl_cons, ih]

theorem flattenPlist_parts (flat : Flat) (obj : Obj) : flattenPlist flat obj = obj.parts.foldl flattenPlist (flat.enter obj) := by
  cases obj with
  | leaf => rw [flattenPlist]; rfl
  | array => rw [flattenPlist, flattenAll_eq_foldl]; rfl
  | dict => rw [flattenPlist, flattenAll_eq_foldl, flattenAll_eq_foldl, ← foldl_append]; rfl

/-- The objects are entered in the order in which they are reached. -/
theorem flattenPlist_eq (flat : Flat) (obj : Obj) : flattenPlist flat obj = obj.subs.foldl Flat.enter flat := by
  induction obj using Obj.induction generalizing flat with
  | step obj ih =>
    rw [flattenPlist_parts, Obj.subs_eq, foldl_cons, foldl_flatMap]
    exact foldl_ext _ _ _ fun flat part isPart => ih part isPart flat

namespace Flat

/-- What the list and the table say of the objects that have been entered: the uniqued ones have numbers,
and a number is a place in the list where the object is. -/
structure Entered (flat : Flat) (objs : List Obj) : Prop where
  members : ∀ obj ∈ flat.objlist, obj ∈ objs
  known : ∀ obj ∈ objs, (flat.objtable.lookup obj.ptr).isSome
  seen : ∀ ptr ∈ flat.uniquingset, (flat.objtable.lookup ptr).isSome
  numbered : flat.objlist.length ≤ 2 ^ 32 → ∀ ptr i, flat.objtable.lookup ptr = some i → ∃ obj, flat.objlist[i]? = some obj ∧ obj.ptr = ptr

section Enter

variable (flat : Flat) (obj : Obj)

theorem lookup_add (ptr : Nat) : (flat.add obj).objtable.lookup ptr =
      (flat.objtable.lookup ptr).or (if ptr = obj.ptr then some (flat.objlist.length % 2 ^ 32) else none) := by
  simp only [add]
  split
  case isTrue known =>
    split
    case isTrue same =>
      obtain ⟨i, isNumber⟩ := Option.isSome_iff_exists.mp known
      rw [same, isNumber, Option.some_or]
    case isFalse => rw [Option.or_none]
  case isFalse =>
    rw [lookup_append]
    by_cases same : ptr = obj.ptr <;> simp [same]

variable {flat} {objs : List Obj}

theorem Entered.add (entered : flat.Entered objs) : (flat.add obj).Entered (objs ++ [obj]) where
  members obj' inList := mem_append.mpr ((mem_append.mp inList).imp_left (entered.members obj'))
  known obj' isObj := by
    rw [lookup_add, Option.isSome_or]
    rcases mem_append.mp isObj with before | new
    · rw [entered.known obj' before, Bool.true_or]
    · rw [mem_singleton.mp new, if_pos rfl, Option.isSome_some, Bool.or_true]
  seen ptr inSet := by rw [lookup_add, Option.isSome_or, entered.seen ptr inSet, Bool.true_or]
  numbered few ptr i isNumber := by
    rw [lookup_add, Option.or_eq_some_iff] at isNumber
    change (flat.objlist ++ [obj]).length ≤ 2 ^ 32 at few
    change ∃ obj', (flat.objlist ++ [obj])[i]? = some obj' ∧ obj'.ptr = ptr
    rw [length_append, length_singleton] at few
    rcases isNumber with before | ⟨-, new⟩
    · obtain ⟨obj', inList, isPtr⟩ := entered.numbered (by omega) ptr i before
      exact ⟨obj', by rw [getElem?_append_left (List.getElem?_eq_some_iff.mp inList).1, inList], isPtr⟩
    · split at new
      case isTrue same =>
        rw [Nat.mod_eq_of_lt (by omega), Option.some.injEq] at new
        exact ⟨obj, by rw [← new, getElem?_concat_length], same.symm⟩
      case isFalse => cases new

theorem Entered.enter (entered : flat.Entered objs) : (flat.enter obj).Entered (objs ++ [obj]) := by
  have added := entered.add obj
  rw [Flat.enter]
  split
  case isFalse => exact added
  case isTrue =>
  split
  case isFalse =>
    have isKnown := added.known obj (mem_append_right _ mem_cons_self)
    exact { added with seen := forall_mem_cons.mpr ⟨isKnown, added.seen⟩ }
  case isTrue again =>
    refine ⟨fun obj' inList => mem_append_left _ (entered.members obj' inList), ?_, entered.seen, entered.numbered⟩
    exact forall_mem_append.mpr ⟨entered.known, forall_mem_singleton.mpr (entered.seen _ again)⟩

theorem Entered.foldl (entered : flat.Entered objs) (objs' : List Obj) : (objs'.foldl Flat.enter flat).Entered (objs ++ objs') := by
  induction objs' generalizing flat objs with
  | nil => rwa [append_nil]
  | cons obj objs' ih =>
    have later := ih (entered.enter obj)
    rwa [append_assoc] at later

/-- A number does not change. -/
theorem lookup_foldl_enter {ptr i : Nat} (isNumber : flat.objtable.lookup ptr = some i) (objs : List Obj) :
    (objs.foldl Flat.enter flat).objtable.lookup ptr = some i := by
  induction objs generalizing flat with
  | nil => exact isNumber
  | cons obj objs ih =>
    have added : (flat.add obj).objtable.lookup ptr = some i := by rw [lookup_add, isNumber, Option.some_or]
    refine ih ?_
    rw [Flat.enter]
    split_ifs
    · exact isNumber
    · exact added
    · exact added

end Enter

end Flat

end DarwinNotes.CF.BinaryPlist
