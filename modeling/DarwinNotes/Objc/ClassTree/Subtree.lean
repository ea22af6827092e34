import DarwinNotes.Objc.ClassTree.Walk

/-!
# The walk over a subtree ends

Below a class there are finitely many classes, and none is below itself. So the walk comes to each of them once, and takes at most two
from its counter for each.
-/

namespace DarwinNotes.Objc.ClassTree
open Lib List

variable {Class : Type} {links : Links Class} {linked : Class → Prop} {visitor : Visitor Class} {cls top : Class}

/-- The class is `top` or below it. -/
def InSubtree (links : Links Class) (linked : Class → Prop) (top cls : Class) : Prop :=
  Relation.ReflTransGen (fun supercls cls => linked cls ∧ links.superclass cls = some supercls) top cls

section Siblings

variable {sub : Class} (below : Below links linked visitor cls sub)
include below

theorem Below.inSubtree : InSubtree links linked cls sub := by
  induction below with
  | refl => exact .refl
  | child _ _ isLinked under ih => exact ih.tail ⟨isLinked, under⟩

theorem Below.inherits : Inherits links sub cls := by
  induction below with
  | refl => exact .refl
  | child _ _ _ under ih => exact .head under ih

omit below

variable {first second : Class}

theorem Grounded.sibling_eq (grounded : Grounded links) (under : links.superclass first = some cls) (under' : links.superclass second = some cls)
    (inherits : Inherits links first second) : first = second := by
  rcases inherits.cases_head with same | ⟨_, isSuper, rest⟩
  · exact same
  · rw [under, Option.some_inj] at isSuper
    subst isSuper
    exact absurd rfl (grounded.ne_of_subclass rest under')

/-- No class is below two subclasses of a class. -/
theorem Grounded.siblings_apart (grounded : Grounded links) (under : links.superclass first = some cls)
    (under' : links.superclass second = some cls) (below : Below links linked visitor first sub) (below' : Below links linked visitor second sub) :
    first = second := by
  have unique : Relator.RightUnique fun cls supercls => links.superclass cls = some supercls :=
    fun _ _ _ isSuper isSuper' => Option.some_inj.mp (isSuper.symm.trans isSuper')
  rcases Relation.ReflTransGen.total_of_right_unique unique below.inherits below'.inherits with inherits | inherits
  · exact grounded.sibling_eq under under' inherits
  · exact (grounded.sibling_eq under' under inherits).symm

end Siblings

section Walk

variable (forest : Forest links linked) (grounded : Grounded links)
include forest grounded

theorem exists_preorder [DecidableEq Class] (subtree : Finset Class) : ∀ {cls}, (∀ sub, Below links linked visitor cls sub → sub ∈ subtree) →
    ∃ below, Preorder links visitor (if visitor.enters cls then links.firstSubclass cls else none) below := by
  induction subtree using Finset.strongInduction with
  | H subtree ih =>
    intro cls inSubtree
    obtain ⟨children, chain, -, isChild⟩ := forest.entered visitor cls
    have each : ∀ child ∈ children, ∃ below,
        Preorder links visitor (if visitor.enters child then links.firstSubclass child else none) below := by
      intro child inList
      obtain ⟨enters, isLinked, under⟩ := (isChild child).mp inList
      -- a class is not below its subclasses, so there are fewer classes below these
      apply ih (subtree.erase cls) (Finset.erase_ssubset (inSubtree cls .refl))
      intro sub below
      rw [Finset.mem_erase]
      refine ⟨?_, inSubtree sub (Below.trans (.child .refl enters isLinked under) below)⟩
      rintro rfl
      exact grounded.ne_of_subclass below.inherits under rfl
    clear isChild
    generalize (if visitor.enters cls then links.firstSubclass cls else none) = start at chain
    induction chain with
    | nil => exact ⟨[], .nil⟩
    | cons _ ih =>
      obtain ⟨_, isBelow⟩ := each _ mem_cons_self
      obtain ⟨_, areSiblings⟩ := ih fun child inRest => each child (mem_cons_of_mem _ inRest)
      exact ⟨_, .cons isBelow areSiblings⟩

theorem Preorder.nodup {start : Option Class} {classes : List Class} (preorder : Preorder links visitor start classes) :
    ∀ {cls children}, Chain links.nextSiblingClass start children → children.Nodup → (∀ child ∈ children, links.superclass child = some cls) →
      classes.Nodup := by
  induction preorder with
  | nil => exact fun _ _ _ => .nil
  | @cons first below siblings isBelow areSiblings ihBelow ihSiblings =>
    rintro cls _ (_ | rest) distinct under
    obtain ⟨children, chain, distinct', isChild⟩ := forest.entered visitor first
    rw [nodup_cons] at distinct
    rw [forall_mem_cons] at under
    have apart : ∀ sub ∈ siblings, ¬ Below links linked visitor first sub := by
      intro sub inSiblings isBelow
      obtain ⟨sibling, inRest, isBelow'⟩ := (areSiblings.mem forest sub rest).mp inSiblings
      exact distinct.1 (grounded.siblings_apart under.1 (under.2 sibling inRest) isBelow isBelow' ▸ inRest)
    rw [nodup_cons, mem_append, not_or, nodup_append]
    refine ⟨⟨?_, fun inSiblings => apart first inSiblings .refl⟩, ihBelow chain distinct' fun child inList => ((isChild child).mp inList).2.2,
      ihSiblings rest distinct.2 under.2, ?_⟩
    · intro inBelow
      obtain ⟨child, inList, isBelow'⟩ := (isBelow.mem forest first chain).mp inBelow
      exact grounded.ne_of_subclass isBelow'.inherits ((isChild child).mp inList).2.2 rfl
    · rintro sub inBelow _ inSiblings rfl
      obtain ⟨child, inList, isBelow'⟩ := (isBelow.mem forest sub chain).mp inBelow
      obtain ⟨enters, isLinked, isUnder⟩ := (isChild child).mp inList
      exact apart sub inSiblings (Below.trans (.child .refl enters isLinked isUnder) isBelow')

variable [DecidableEq Class]

/-- With enough of a counter the loop comes to all the classes, and goes on behind them. -/
theorem onward_eq {start : Option Class} {classes : List Class} (preorder : Preorder links visitor start classes) :
    ∀ {cls children fuel count}, Chain links.nextSiblingClass start children → (∀ child ∈ children, links.superclass child = some cls) →
      Inherits links cls top → classes.length ≤ fuel → 2 * classes.length < count →
      ∃ fuel' count', fuel ≤ fuel' + classes.length ∧ count ≤ count' + 2 * classes.length ∧
        onward links visitor top fuel count cls start =
          (resume links visitor top fuel' count' cls).map fun result => (result.1, classes.filter visitor.shows ++ result.2) := by
  induction preorder with
  | nil =>
    intro cls children fuel count _ _ _ _ _
    exact ⟨fuel, count, Nat.le_refl _, Nat.le_refl _, Option.map_id'.symm⟩
  | @cons first below siblings _ _ ihBelow ihSiblings =>
    rintro cls _ fuel count (_ | rest) under inherits enoughFuel enough
    rw [length_cons, length_append] at enoughFuel enough ⊢
    rw [forall_mem_cons] at under
    obtain ⟨fuel, rfl⟩ := Nat.exists_eq_succ_of_ne_zero (by omega : fuel ≠ 0)
    obtain ⟨_, chain, -, isChild⟩ := forest.entered visitor first
    obtain ⟨fuel₁, count₁, leftFuel₁, left₁, isBelow⟩ := @ihBelow first _ fuel (count - 1) chain
      (fun child inList => ((isChild child).mp inList).2.2) (.head under.1 inherits) (by omega) (by omega)
    obtain ⟨count₂, left₂, goesOn⟩ := @resume_child _ _ _ visitor _ fuel₁ count₁ _ _
      (grounded.ne_of_subclass inherits under.1) under.1 (.inl (by omega))
    obtain ⟨fuel₃, count₃, leftFuel₃, left₃, areSiblings⟩ :=
      @ihSiblings cls _ fuel₁ count₂ rest under.2 inherits (by omega) (by omega)
    refine ⟨fuel₃, count₃, by omega, by omega, ?_⟩
    rw [onward, walk_succ, if_neg (by omega), isBelow, goesOn, areSiblings, Option.map_map, Option.map_map]
    congr 1
    funext result
    simp only [Function.comp_apply, ← singleton_append (l := below ++ siblings), filter_append, append_assoc]

/-- **The walk visits the subtree**, each class once and in pre-order, if the counter is more than twice the number of its classes. -/
theorem foreachRealizedClassAndSubclass_preorder (visitor : Visitor Class) {subtree : Finset Class}
    (isSubtree : ∀ cls, cls ∈ subtree ↔ InSubtree links linked top cls) {count : Nat} (enough : 2 * subtree.card < count) :
    ∃ left visited, foreachRealizedClassAndSubclass links visitor count top = some (left, visited) ∧ visited.Nodup ∧
      Shows visitor visited (Below links linked visitor top) ∧ Visits links visitor top visited := by
  obtain ⟨below, preorder⟩ := exists_preorder forest grounded subtree fun sub isBelow => (isSubtree sub).mpr isBelow.inSubtree
  obtain ⟨_, chain, distinct, isChild⟩ := forest.entered visitor top
  have under := fun child inList => ((isChild child).mp inList).2.2
  have nodup : (top :: below).Nodup := by
    refine nodup_cons.mpr ⟨fun inBelow => ?_, preorder.nodup forest grounded chain distinct under⟩
    obtain ⟨child, inList, isBelow⟩ := (preorder.mem forest top chain).mp inBelow
    exact grounded.ne_of_subclass isBelow.inherits (under child inList) rfl
  have inSubtree : top :: below ⊆ subtree.toList := by
    intro sub inList
    rw [Finset.mem_toList, isSubtree]
    exact ((preorder.mem_subtree forest sub).mp inList).inSubtree
  have short := (nodup.subperm inSubtree).length_le
  rw [Finset.length_toList, length_cons] at short
  obtain ⟨count, rfl⟩ := Nat.exists_eq_succ_of_ne_zero (by omega : count ≠ 0)
  obtain ⟨_, count', -, -, isEnd⟩ := @onward_eq _ _ _ visitor top forest grounded _ _ _ preorder top _ count count chain under .refl (by omega) (by omega)
  have visits : Visits links visitor top ((top :: below).filter visitor.shows) := ⟨below, preorder, rfl⟩
  refine ⟨count', _, ?_, nodup.filter _, visits.shows forest, visits⟩
  rw [foreachRealizedClassAndSubclass, walk_succ, if_neg (by omega), Nat.succ_sub_one, isEnd, resume_top]
  simp only [Option.map_some, append_nil, ← filter_append, singleton_append]

end Walk

/-- A root class and its subclass. -/
def pair : Links Bool where
  superclass cls := if cls then none else some true
  firstSubclass cls := if cls then some false else none
  nextSiblingClass _ := none
  firstRealizedClass := some true

theorem foreachRealizedClassAndSubclass_preorder_pair :
    ∃ left visited, foreachRealizedClassAndSubclass pair ⟨true, fun _ => false, id⟩ 5 true = some (left, visited) ∧
      Visits pair ⟨true, fun _ => false, id⟩ true visited := by
  have forest : Forest pair fun _ => True := by
    refine ⟨fun supercls => ?_, [true], .cons .nil, by decide, by decide⟩
    cases supercls with
    | true => exact ⟨[false], .cons .nil, by decide, by decide⟩
    | false => exact ⟨[], .nil, by decide, by decide⟩
  have deeper : ∀ cls supercls, pair.superclass cls = some supercls → (!supercls).toNat < (!cls).toNat := by decide
  have isSubtree : ∀ cls, cls ∈ ({true, false} : Finset Bool) ↔ InSubtree pair (fun _ => True) true cls := by
    intro cls
    cases cls with
    | true => exact iff_of_true (by decide) .refl
    | false => exact iff_of_true (by decide) (.single ⟨trivial, rfl⟩)
  obtain ⟨left, visited, isWalk, -, -, visits⟩ := foreachRealizedClassAndSubclass_preorder forest
    (Subrelation.wf (deeper _ _) (measure fun cls => (!cls).toNat).wf) ⟨true, fun _ => false, id⟩ isSubtree (by decide : _ < 5)
  exact ⟨left, visited, isWalk, visits⟩

end DarwinNotes.Objc.ClassTree
