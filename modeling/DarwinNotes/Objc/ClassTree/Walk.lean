import DarwinNotes.Objc.ClassTree.Links

/-!
# The walk over a class and its subclasses

`foreach_realized_class_and_subclass_2` goes down along `firstSubclass`, sideways
along `nextSiblingClass` and up along `superclass`, with one counter for every move
down and up. A walk that ends has called its block for the subtree of the class
where it began, in all of it where the block does not ask to skip subclasses.
-/

namespace DarwinNotes.Objc.ClassTree
open Lib List

variable {Class : Type} [DecidableEq Class]

/-- The arguments of a walk: whether it leaves out metaclasses, and the block. -/
structure Visitor (Class : Type) where
  skipMetaclass : Bool
  isMetaClass : Class → Bool
  code : Class → Bool

/-- The block is called for this class. -/
def Visitor.shows (visitor : Visitor Class) (cls : Class) : Bool := !(visitor.skipMetaclass && visitor.isMetaClass cls)

/-- The subclasses of this class are not skipped. -/
def Visitor.enters (visitor : Visitor Class) (cls : Class) : Bool := visitor.shows cls && visitor.code cls

variable (links : Links Class)

/-- The inner loop: up to the next class that has a sibling, or to `top`. The counter is never 0
before it is decremented. -/
def ascend (top : Class) (count : Nat) (cls : Class) : Option (Nat × Option Class) :=
  if cls = top then some (count, none)
  else
    match links.nextSiblingClass cls with
    | some sibling => some (count, some sibling)
    | none =>
      match count with
      | 0 => none
      | count + 1 =>
        match links.superclass cls with
        | none => none
        | some supercls => if count = 0 then none else ascend top count supercls

/-- `foreach_realized_class_and_subclass_2` from `cls` on: what is left of `count`, and the classes
for which the block is called. `none` is the fatal error. -/
def walk (visitor : Visitor Class) (top : Class) : Nat → Nat → Class → Option (Nat × List Class)
  | 0, _, _ => none
  | fuel + 1, count, cls =>
    if count - 1 = 0 then none
    else
      let rest :=
        match if visitor.enters cls then links.firstSubclass cls else none with
        | some first => walk visitor top fuel (count - 1) first
        | none =>
          match ascend links top (count - 1) cls with
          | none => none
          | some (count, none) => some (count, [])
          | some (count, some sibling) => walk visitor top fuel count sibling
      rest.map fun (count, later) => (count, (if visitor.shows cls then [cls] else []) ++ later)

/-- `foreach_realized_class_and_subclass`; every turn of the loop takes one from `count`. -/
def foreachRealizedClassAndSubclass (visitor : Visitor Class) (count : Nat) (top : Class) : Option (Nat × List Class) :=
  walk links visitor top count count top

/-- `foreach_realized_class_and_metaclass`: the loop over the root classes. -/
def foreachRoot (visitor : Visitor Class) : Nat → Nat → Option Class → Option (List Class)
  | _, _, none => some []
  | 0, _, some _ => none
  | fuel + 1, count, some top =>
    match foreachRealizedClassAndSubclass links visitor count top with
    | none => none
    | some (count, visited) => (foreachRoot visitor fuel count (links.nextSiblingClass top)).map (visited ++ ·)

/-! ## What a walk visits -/

section Below

omit [DecidableEq Class]

variable {links} {linked : Class → Prop} {visitor : Visitor Class} {top : Class}

/-- A class in the subtree, below classes that are entered. -/
inductive Below (links : Links Class) (linked : Class → Prop) (visitor : Visitor Class) (top : Class) : Class → Prop
  | refl : Below links linked visitor top top
  | child {supercls cls : Class} : Below links linked visitor top supercls → visitor.enters supercls = true →
      linked cls → links.superclass cls = some supercls → Below links linked visitor top cls

theorem Below.trans {cls sub : Class} (upper : Below links linked visitor top cls)
    (lower : Below links linked visitor cls sub) : Below links linked visitor top sub := by
  induction lower with
  | refl => exact upper
  | child _ enters isLinked under ih => exact .child ih enters isLinked under

/-- Below a class is the class, and what is below its subclasses if they are entered. -/
theorem below_iff {cls sub : Class} : Below links linked visitor cls sub ↔ sub = cls ∨ visitor.enters cls = true ∧
      ∃ child, linked child ∧ links.superclass child = some cls ∧ Below links linked visitor child sub := by
  constructor
  · intro below
    induction below with
    | refl => exact Or.inl rfl
    | @child _ sub _ enters isLinked under ih =>
      rcases ih with rfl | ⟨entersCls, child, childLinked, childUnder, below⟩
      · exact Or.inr ⟨enters, sub, isLinked, under, .refl⟩
      · exact Or.inr ⟨entersCls, child, childLinked, childUnder, .child below enters isLinked under⟩
  · rintro (rfl | ⟨enters, child, isLinked, under, below⟩)
    · exact .refl
    · exact Below.trans (.child .refl enters isLinked under) below

end Below

/-- The classes that the loop comes to from a class on: the class, those below it, and those from its next sibling on. -/
inductive Preorder (links : Links Class) (visitor : Visitor Class) : Option Class → List Class → Prop
  | nil : Preorder links visitor none []
  | cons {cls : Class} {below siblings : List Class}
      (isBelow : Preorder links visitor (if visitor.enters cls then links.firstSubclass cls else none) below)
      (areSiblings : Preorder links visitor (links.nextSiblingClass cls) siblings) :
      Preorder links visitor (some cls) (cls :: (below ++ siblings))

/-- The classes for which a walk from `top` calls the block, in their order. -/
def Visits (links : Links Class) (visitor : Visitor Class) (top : Class) (visited : List Class) : Prop :=
  ∃ below, Preorder links visitor (if visitor.enters top then links.firstSubclass top else none) below ∧
    visited = (top :: below).filter visitor.shows

/-- The classes for which a part of the walk calls the block. -/
def Shows (visitor : Visitor Class) (visited : List Class) (members : Class → Prop) : Prop :=
  ∀ cls, cls ∈ visited ↔ members cls ∧ visitor.shows cls = true

/-- The superclass chains end. -/
def Grounded (links : Links Class) : Prop := WellFounded fun supercls cls => links.superclass cls = some supercls

/-- `cls` is `top` or inherits from it. -/
def Inherits (links : Links Class) (cls top : Class) : Prop :=
  Relation.ReflTransGen (fun cls supercls => links.superclass cls = some supercls) cls top

section Members

variable {links} {linked : Class → Prop} {visitor : Visitor Class} {cls top : Class}

omit [DecidableEq Class]

/-- A class does not inherit from its subclass. -/
theorem Grounded.ne_of_subclass (grounded : Grounded links) {child : Class} (inherits : Inherits links cls top)
    (under : links.superclass child = some cls) : child ≠ top := by
  rintro rfl
  have cycle : Relation.TransGen (fun cls supercls => links.superclass cls = some supercls) child child :=
    Relation.TransGen.head' under inherits
  have irreflexive := (grounded.transGen).irrefl
  exact irreflexive.irrefl child (Relation.transGen_swap.mp cycle)

variable (forest : Forest links linked)
include forest

/-- The subclasses that the loop enters from a class. -/
theorem Forest.entered (visitor : Visitor Class) (cls : Class) :
    ∃ children, Chain links.nextSiblingClass (if visitor.enters cls then links.firstSubclass cls else none) children ∧ children.Nodup ∧
      ∀ child, child ∈ children ↔ visitor.enters cls = true ∧ linked child ∧ links.superclass child = some cls := by
  split
  case isTrue enters =>
    obtain ⟨list, chain, distinct, mem⟩ := forest.subclasses cls
    exact ⟨list, chain, distinct, fun child => by simp [mem, enters]⟩
  case isFalse enters => exact ⟨[], .nil, .nil, by simp [enters]⟩

theorem Preorder.mem {start : Option Class} {classes : List Class} (preorder : Preorder links visitor start classes) (sub : Class) :
    ∀ {children}, Chain links.nextSiblingClass start children → (sub ∈ classes ↔ ∃ child ∈ children, Below links linked visitor child sub) := by
  induction preorder with
  | nil =>
    rintro _ ⟨⟩
    simp
  | @cons cls _ _ _ _ ihBelow ihSiblings =>
    rintro _ (_ | rest)
    obtain ⟨children, chain, -, isChild⟩ := forest.entered visitor cls
    rw [mem_cons, mem_append, ihBelow chain, ihSiblings rest, ← or_assoc]
    simp only [isChild, and_assoc, exists_and_left, mem_cons, exists_eq_or_imp]
    rw [below_iff]

theorem Preorder.mem_subtree {below : List Class}
    (preorder : Preorder links visitor (if visitor.enters top then links.firstSubclass top else none) below) (sub : Class) :
    sub ∈ top :: below ↔ Below links linked visitor top sub := by
  obtain ⟨_, chain, -, isChild⟩ := forest.entered visitor top
  rw [mem_cons, preorder.mem forest sub chain, below_iff]
  simp only [isChild, and_assoc, exists_and_left]

theorem Visits.shows {visited : List Class} (visits : Visits links visitor top visited) :
    Shows visitor visited (Below links linked visitor top) := by
  obtain ⟨below, preorder, rfl⟩ := visits
  intro cls
  rw [mem_filter, preorder.mem_subtree forest]

end Members

section Visits

variable {links} {linked : Class → Prop} {visitor : Visitor Class} {top : Class}

/-- How the walk goes on when it is done with the subtree of `cls`. -/
def resume (links : Links Class) (visitor : Visitor Class) (top : Class) (fuel count : Nat) (cls : Class) : Option (Nat × List Class) :=
  match ascend links top count cls with
  | none => none
  | some (count, none) => some (count, [])
  | some (count, some sibling) => walk links visitor top fuel count sibling

/-- The walk goes on with a subclass of `cls`, or is done with them. -/
def onward (links : Links Class) (visitor : Visitor Class) (top : Class) (fuel count : Nat) (cls : Class) : Option Class → Option (Nat × List Class)
  | some child => walk links visitor top fuel count child
  | none => resume links visitor top fuel count cls

theorem walk_succ (fuel count : Nat) (cls : Class) : walk links visitor top (fuel + 1) count cls =
      if count - 1 = 0 then none
      else (onward links visitor top fuel (count - 1) cls (if visitor.enters cls then links.firstSubclass cls else none)).map
          fun result => (result.1, [cls].filter visitor.shows ++ result.2) := by
  rw [filter_cons, filter_nil]
  rfl

theorem resume_top (fuel count : Nat) : resume links visitor top fuel count top = some (count, []) := by
  rw [resume, ascend.eq_def, if_pos rfl]

variable {fuel count : Nat} {cls : Class}

theorem walk_some {result : Nat × List Class} (run : walk links visitor top fuel count cls = some result) :
    ∃ fuel' later, fuel = fuel' + 1 ∧ result.2 = [cls].filter visitor.shows ++ later ∧
      onward links visitor top fuel' (count - 1) cls (if visitor.enters cls then links.firstSubclass cls else none) = some (result.1, later) := by
  cases fuel with
  | zero => cases run
  | succ fuel =>
    rw [walk_succ] at run
    split at run
    case isTrue => cases run
    case isFalse =>
      obtain ⟨later, goesOn, rfl⟩ := Option.map_eq_some_iff.mp run
      exact ⟨fuel, later.2, rfl, rfl, goesOn⟩

/-- After a subclass comes its sibling, and after the last one the walk is done with the superclass. -/
theorem resume_child {child : Class} (inside : child ≠ top) (under : links.superclass child = some cls)
    (goesOn : 1 < count ∨ (resume links visitor top fuel count child).isSome = true) : ∃ count', count ≤ count' + 1 ∧
      resume links visitor top fuel count child = onward links visitor top fuel count' cls (links.nextSiblingClass child) := by
  rw [resume, ascend.eq_def, if_neg inside] at goesOn ⊢
  cases next : links.nextSiblingClass child with
  | some sibling => exact ⟨count, Nat.le_succ _, rfl⟩
  | none =>
    cases count with
    | zero => simp [next] at goesOn
    | succ count =>
      simp only [next, under] at goesOn ⊢
      by_cases out : count = 0
      · simp [out] at goesOn
      · rw [if_neg out]
        exact ⟨count, Nat.le_refl _, rfl⟩

variable (forest : Forest links linked)
include forest

/-- **A walk that ends has come to the subtree of every class it comes to.** -/
theorem onward_ends (grounded : Grounded links) :
    ∀ {count cls start children result}, Chain links.nextSiblingClass start children → (∀ child ∈ children, links.superclass child = some cls) →
      Inherits links cls top → onward links visitor top fuel count cls start = some result →
      ∃ fuel' count' classes later, fuel' ≤ fuel ∧ Preorder links visitor start classes ∧
        result.2 = classes.filter visitor.shows ++ later ∧ resume links visitor top fuel' count' cls = some (result.1, later) := by
  induction fuel using Nat.strong_induction_on with
  | h fuel ih =>
    intro count cls start children result chain under inherits run
    cases chain with
    | nil => exact ⟨fuel, count, [], result.2, Nat.le_refl _, .nil, rfl, run⟩
    | @cons child rest siblings =>
      have isUnder := under child mem_cons_self
      obtain ⟨fuel, later, rfl, split, run⟩ := walk_some run
      obtain ⟨_, chain, -, isChild⟩ := forest.entered visitor child
      obtain ⟨fuel₁, count₁, below, later₁, less₁, isBelow, split₁, done₁⟩ :=
        ih fuel (Nat.lt_succ_self _) chain (fun sub inList => ((isChild sub).mp inList).2.2) (.head isUnder inherits) run
      obtain ⟨_, -, goesOn⟩ := resume_child (grounded.ne_of_subclass inherits isUnder) isUnder (.inr (Option.isSome_of_eq_some done₁))
      obtain ⟨fuel₂, count₂, after, later₂, less₂, areSiblings, split₂, done₂⟩ :=
        ih fuel₁ (Nat.lt_succ_of_le less₁) siblings (fun sub inRest => under sub (mem_cons_of_mem _ inRest)) inherits (goesOn ▸ done₁)
      refine ⟨fuel₂, count₂, _, later₂, by omega, .cons isBelow areSiblings, ?_, done₂⟩
      rw [split, show later = _ from split₁, show later₁ = _ from split₂]
      simp only [← singleton_append (l := below ++ after), filter_append, append_assoc]

/-- **The walk from `top` visits its subtree.** -/
theorem foreachRealizedClassAndSubclass_visits (grounded : Grounded links) {left : Nat} {visited : List Class}
    (run : foreachRealizedClassAndSubclass links visitor count top = some (left, visited)) :
    Shows visitor visited (Below links linked visitor top) := by
  obtain ⟨_, later, -, split, run⟩ := walk_some run
  obtain ⟨_, chain, -, isChild⟩ := forest.entered visitor top
  obtain ⟨_, _, below, _, -, preorder, split', done⟩ :=
    onward_ends forest grounded chain (fun child inList => ((isChild child).mp inList).2.2) .refl run
  rw [resume_top, Option.some.injEq, Prod.mk.injEq] at done
  refine Visits.shows forest ⟨below, preorder, ?_⟩
  rw [show visited = _ from split, show later = _ from split', ← done.2, append_nil, ← filter_append]
  rfl

/-- The walks from the roots, one after the other. -/
theorem foreachRoot_visits (grounded : Grounded links) {roots : List Class} :
    ∀ {fuel count start visited}, Chain links.nextSiblingClass start roots → foreachRoot links visitor fuel count start = some visited →
      Shows visitor visited fun cls => ∃ root ∈ roots, Below links linked visitor root cls := by
  induction roots with
  | nil =>
    intro fuel count start visited chain run
    cases chain
    rw [foreachRoot, Option.some.injEq] at run
    subst run
    exact fun cls => by simp
  | cons root _ ih =>
    intro fuel count start visited chain run
    cases chain with
    | cons rest =>
      cases fuel with
      | zero => cases run
      | succ =>
        rw [foreachRoot] at run
        cases walked : foreachRealizedClassAndSubclass links visitor count root with
        | none =>
          rw [walked] at run
          cases run
        | some =>
          rw [walked] at run
          obtain ⟨_, runRest, rfl⟩ := Option.map_eq_some_iff.mp run
          intro cls
          rw [mem_append, foreachRealizedClassAndSubclass_visits forest grounded walked cls, ih rest runRest cls, ← or_and_right]
          simp

end Visits

end DarwinNotes.Objc.ClassTree
