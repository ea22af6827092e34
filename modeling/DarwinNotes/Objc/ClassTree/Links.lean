import DarwinNotes.Lib.Chain

/-!
# The links between realized classes

Each class has its superclass, its first realized subclass and its next sibling;
root classes hang on `_firstRealizedClass`. `Forest` says which classes the lists
contain: those that are linked, under the superclass they have. The functions that
change the links are `addRootClass`, `addSubclass` and `removeSubclass`.
-/

namespace DarwinNotes.Objc.ClassTree
open Lib Function

variable {Class : Type}

structure Links (Class : Type) where
  superclass : Class → Option Class
  firstSubclass : Class → Option Class
  nextSiblingClass : Class → Option Class
  /-- `_firstRealizedClass` -/
  firstRealizedClass : Option Class

section Operations

variable [DecidableEq Class] (links : Links Class)

def addRootClass (cls : Class) : Links Class :=
  { links with
    nextSiblingClass := update links.nextSiblingClass cls links.firstRealizedClass
    firstRealizedClass := some cls }

/-- `addSubclass`, without the flags that the subclass inherits. -/
def addSubclass (supercls subcls : Class) : Links Class :=
  { links with
    nextSiblingClass := update links.nextSiblingClass subcls (links.firstSubclass supercls)
    firstSubclass := update links.firstSubclass supercls (some subcls) }

/-- `removeSubclass`: the link that is found is `firstSubclass` or a `nextSiblingClass`. -/
def removeSubclass (fuel : Nat) (links : Links Class) (supercls subcls : Class) : Option (Links Class) :=
  let unlinkFirst : Links Class :=
    { links with firstSubclass := update links.firstSubclass supercls (links.nextSiblingClass subcls) }
  match links.firstSubclass supercls with
  | none => some unlinkFirst
  | some first =>
    if first = subcls then some unlinkFirst
    else (unlink links.nextSiblingClass subcls fuel first).map fun next => { links with nextSiblingClass := next }

end Operations

/-! ## Which classes are in the lists -/

/-- A list of links with exactly these nodes. -/
def Lists (next : Class → Option Class) (start : Option Class) (members : Class → Prop) : Prop :=
  ∃ list, Chain next start list ∧ list.Nodup ∧ ∀ cls, cls ∈ list ↔ members cls

structure Forest (links : Links Class) (linked : Class → Prop) : Prop where
  subclasses : ∀ supercls, Lists links.nextSiblingClass (links.firstSubclass supercls)
    fun cls => linked cls ∧ links.superclass cls = some supercls
  roots : Lists links.nextSiblingClass links.firstRealizedClass
    fun cls => linked cls ∧ links.superclass cls = none

variable {next next' : Class → Option Class} {start : Option Class} {members : Class → Prop}
  {links links' : Links Class} {linked : Class → Prop}

/-- A list does not notice changes at other nodes, or other descriptions of its nodes. -/
theorem Lists.congr {members' : Class → Prop} (lists : Lists next start members)
    (same : ∀ cls, members cls → next' cls = next cls) (iff : ∀ cls, members cls ↔ members' cls) : Lists next' start members' := by
  obtain ⟨list, chain, distinct, mem⟩ := lists
  refine ⟨list, chain.congr fun cls inList => same cls ((mem cls).mp inList), distinct, fun cls => ?_⟩
  exact (mem cls).trans (iff cls)

/-- The first class of a list: of the subclasses of a class, or of the root classes. -/
def Links.first (links : Links Class) : Option Class → Option Class
  | some supercls => links.firstSubclass supercls
  | none => links.firstRealizedClass

theorem forest_iff : Forest links linked ↔
    ∀ above, Lists links.nextSiblingClass (links.first above) fun cls => linked cls ∧ links.superclass cls = above := by
  constructor
  · rintro ⟨subclasses, roots⟩ above
    cases above with
    | some supercls => exact subclasses supercls
    | none => exact roots
  · exact fun lists => ⟨fun supercls => lists (some supercls), lists none⟩

variable (forest : Forest links linked)
include forest

theorem Forest.congr {linked' : Class → Prop} (iff : ∀ cls, linked cls ↔ linked' cls) :
    Forest links linked' := forest_iff.mpr fun above => (forest_iff.mp forest above).congr (fun _ _ => rfl) fun cls => and_congr_left fun _ => iff cls

variable [DecidableEq Class]

omit forest in
theorem Lists.push (lists : Lists next start members) (cls : Class) (new : ¬ members cls) :
    Lists (update next cls start) (some cls) fun other => members other ∨ other = cls := by
  obtain ⟨list, chain, distinct, mem⟩ := lists
  have outside : cls ∉ list := fun inList => new ((mem cls).mp inList)
  refine ⟨cls :: list, chain.push outside, List.nodup_cons.mpr ⟨outside, distinct⟩, fun other => ?_⟩
  rw [List.mem_cons, mem other, or_comm]

/-- **Linking a class** at the front of the list it belongs to. -/
theorem Forest.link {cls : Class} {above : Option Class} (unlinked : ¬ linked cls) (under : links.superclass cls = above)
    (nextSibling : links'.nextSiblingClass = update links.nextSiblingClass cls (links.first above)) (front : links'.first above = some cls)
    (others : ∀ other ≠ above, links'.first other = links.first other) (superclass : links'.superclass = links.superclass) :
    Forest links' fun other => linked other ∨ other = cls := by
  refine forest_iff.mpr fun other => ?_
  rw [nextSibling, superclass]
  by_cases here : other = above
  · subst here
    rw [front]
    refine ((forest_iff.mp forest other).push cls fun member => unlinked member.1).congr (fun _ _ => rfl) fun sibling => ?_
    rw [or_and_right]
    exact or_congr_right ⟨fun same => ⟨same, same ▸ under⟩, And.left⟩
  · rw [others other here]
    refine (forest_iff.mp forest other).congr (fun sibling member => update_of_ne ?_ _ _) fun sibling => ?_
    · rintro rfl
      exact unlinked member.1
    · refine and_congr_left fun isAbove => (or_iff_left ?_).symm
      rintro rfl
      exact here (isAbove.symm.trans under)

theorem Forest.addSubclass (supercls subcls : Class) (unlinked : ¬ linked subcls) (under : links.superclass subcls = some supercls) :
    Forest (addSubclass links supercls subcls) fun cls => linked cls ∨ cls = subcls := by
  refine forest.link unlinked under rfl (update_self _ _ _) (fun other different => ?_) rfl
  cases other with
  | some other => exact update_of_ne (fun same => different (congrArg some same)) _ _
  | none => rfl

theorem Forest.addRootClass {cls : Class} (unlinked : ¬ linked cls) (root : links.superclass cls = none)
    : Forest (addRootClass links cls) fun other => linked other ∨ other = cls := by
  refine forest.link unlinked root rfl rfl (fun other different => ?_) rfl
  cases other with
  | some => rfl
  | none => exact absurd rfl different

omit forest in
/-- What the loop of `removeSubclass` leaves of the list it walks along. -/
theorem removeSubclass_list {fuel : Nat} {supercls subcls : Class} {list : List Class}
    (chain : Chain links.nextSiblingClass (links.firstSubclass supercls) list) (distinct : list.Nodup)
    (inList : subcls ∈ list) (done : removeSubclass fuel links supercls subcls = some links') :
    Chain links'.nextSiblingClass (links'.firstSubclass supercls) (list.erase subcls) ∧
      (∀ cls ∉ list, links'.nextSiblingClass cls = links.nextSiblingClass cls) ∧
      (∀ other ≠ some supercls, links'.first other = links.first other) ∧ links'.superclass = links.superclass := by
  cases list with
  | nil => cases inList
  | cons first rest =>
    have start := chain.head_eq
    simp only [removeSubclass, start, List.head?_cons] at done
    by_cases found : first = subcls
    · subst found
      rw [if_pos rfl, Option.some.injEq] at done
      subst done
      rw [List.erase_cons_head]
      refine ⟨?_, fun _ _ => rfl, fun other different => ?_, rfl⟩
      · simp only [update_self]
        exact @Chain.drop _ _ _ [] _ _ chain
      · cases other with
        | some other => exact update_of_ne (fun same => different (congrArg some same)) _ _
        | none => rfl
    · rw [if_neg found, Option.map_eq_some_iff] at done
      obtain ⟨_, unlinked, rfl⟩ := done
      have inRest : subcls ∈ rest := (List.mem_cons.mp inList).resolve_left (Ne.symm found)
      rw [start] at chain
      obtain ⟨after, others⟩ := unlink_chain chain distinct inRest unlinked
      rw [List.erase_cons_tail (by simpa using found), start]
      exact ⟨after, others, fun other _ => by cases other <;> rfl, rfl⟩

/-- **Unlinking a class from its superclass.** -/
theorem Forest.removeSubclass {fuel : Nat} {supercls subcls : Class} (isLinked : linked subcls)
    (under : links.superclass subcls = some supercls) (done : removeSubclass fuel links supercls subcls = some links') :
    Forest links' (fun cls => linked cls ∧ cls ≠ subcls) ∧ links'.superclass = links.superclass := by
  obtain ⟨list, chain, distinct, mem⟩ := forest.subclasses supercls
  obtain ⟨after, nexts, firsts, superclass⟩ := removeSubclass_list chain distinct ((mem subcls).mpr ⟨isLinked, under⟩) done
  refine ⟨forest_iff.mpr fun above => ?_, superclass⟩
  rw [superclass]
  by_cases here : above = some supercls
  · subst here
    refine ⟨list.erase subcls, after, distinct.erase subcls, fun cls => ?_⟩
    rw [distinct.mem_erase_iff, mem cls]
    tauto
  · rw [firsts above here]
    refine (forest_iff.mp forest above).congr (fun cls member => nexts cls fun inList => ?_) fun cls => ?_
    · exact here (member.2.symm.trans ((mem cls).mp inList).2)
    · refine and_congr_left fun isAbove => (and_iff_left ?_).symm
      rintro rfl
      exact here (isAbove.symm.trans under)

/-- The superclass of a class that is not linked is free. -/
theorem Forest.setSuperclass (cls : Class) (unlinked : ¬ linked cls) (supercls : Option Class)
    : Forest { links with superclass := update links.superclass cls supercls } linked := by
  refine forest_iff.mpr fun above => (forest_iff.mp forest above).congr (fun _ _ => rfl) fun other => and_congr_right fun isLinked => ?_
  have different : other ≠ cls := fun same => unlinked (same ▸ isLinked)
  simp [update_of_ne different]

end DarwinNotes.Objc.ClassTree
