import DarwinNotes.Objc.MethodLists.Search

/-!
# The order in which categories are attached

The loop of `attachCategories` keeps, for each kind of lists, that the buffer and the
lists of the class together are the lists seen so far in reverse, in front of those
the class had. Where the buffer is flushed does not matter.
-/

namespace DarwinNotes.Objc.MethodLists
open List

open Lib

namespace Collected

variable {L : Type} {fresh : Nat → L} {prepare : L → L} (self : Collected L)

/-- The lists in the buffer. -/
def pending : List L := load self.buffer (attachBufsiz - self.count) self.count

/-- The lists the class would have if the loop ended here. -/
def view (prepare : L → L) (self : Collected L) : List L := self.pending.map prepare ++ self.array.lists

/-- What goes into the buffer is put in front of it. -/
theorem pending_push (list : L) (room : self.count < attachBufsiz) :
    load (store self.buffer (attachBufsiz - (self.count + 1)) [list]) (attachBufsiz - (self.count + 1)) (self.count + 1) =
      list :: self.pending := by
  have next : attachBufsiz - (self.count + 1) + 1 = attachBufsiz - self.count := by omega
  rw [Nat.add_comm self.count 1, load_append, Nat.add_comm 1 self.count, load_store_same _ _ (show [list].length = 1 from rfl), next,
    load_store_disjoint _ (by simp only [length_singleton]; omega)]
  rfl

/-- One turn puts the category's list in front. -/
theorem view_collect (fits : self.count ≤ attachBufsiz) (list : Option L) : (self.collect fresh prepare list).count ≤ attachBufsiz ∧
      (self.collect fresh prepare list).view prepare = (list.map prepare).toList ++ self.view prepare := by
  cases list with
  | none => exact ⟨fits, rfl⟩
  | some list =>
    unfold collect
    dsimp only
    split
    next full =>
      -- the buffer is attached, and the list is alone in it
      have flushed := pending_push { self with count := 0 } list (Nat.zero_lt_succ 63)
      have all : self.pending = load self.buffer 0 self.count := by rw [pending, full, Nat.sub_self]
      refine ⟨Nat.succ_le_succ (Nat.zero_le 63), ?_⟩
      simp only [view, pending] at flushed ⊢
      rw [flushed, ListArray.lists_attachLists, ← all]
      rfl
    next room =>
      refine ⟨Nat.lt_of_le_of_ne fits room, ?_⟩
      have pushed := pending_push self list (by omega)
      simp only [view, pending] at pushed ⊢
      rw [pushed]
      rfl

/-- The whole loop: the lists in reverse, in front of the old ones. -/
theorem view_foldl (lists : List (Option L)) (self : Collected L) (fits : self.count ≤ attachBufsiz) :
    (lists.foldl (collect fresh prepare) self).count ≤ attachBufsiz ∧ (lists.foldl (collect fresh prepare) self).view prepare =
        ((lists.filterMap id).map prepare).reverse ++ self.view prepare := by
  induction lists generalizing self with
  | nil => exact ⟨fits, rfl⟩
  | cons list _ ih =>
    obtain ⟨fits', step⟩ := self.view_collect fits list
    obtain ⟨bound, run⟩ := ih (self.collect fresh prepare list) fits'
    refine ⟨bound, ?_⟩
    rw [foldl_cons, run, step]
    cases list <;> simp

theorem lists_finish : (self.finish fresh prepare).lists = self.view prepare := ListArray.lists_attachLists _ _ _

theorem view_collectAll (fresh : Nat → L) (prepare : L → L) (array : ListArray L) (lists : List (Option L)) :
    (collectAll fresh prepare array lists).view prepare = ((lists.filterMap id).map prepare).reverse ++ array.lists :=
  (view_foldl lists _ (Nat.zero_le _)).2

end Collected

variable {P Q : Type}

/-- One call: the lists of the categories in reverse order, then the lists the class had. -/
theorem lists_attachCategories (env : Env P Q) (data : ClassData P Q) (isMeta : Bool) (cats : List (Category P Q)) :
    (attachCategories env data isMeta cats).methods.lists =
        ((cats.filterMap (·.methodsForMeta isMeta)).map (prepareMethodList env.register)).reverse ++ data.methods.lists ∧
    (attachCategories env data isMeta cats).properties.lists =
        (cats.filterMap (·.propertiesForMeta isMeta)).reverse ++ data.properties.lists ∧
    (attachCategories env data isMeta cats).protocols.lists =
        (cats.filterMap (·.protocolsForMeta isMeta)).reverse ++ data.protocols.lists := by
  obtain ⟨methods, properties, protocols⟩ := data.lists_extAllocIfNeeded env
  rw [← methods, ← properties, ← protocols]
  refine ⟨?_, ?_, ?_⟩
  · have run := Collected.view_collectAll env.freshMethods (prepareMethodList env.register)
      (data.extAllocIfNeeded env).methods (cats.map (·.methodsForMeta isMeta))
    rw [filterMap_map] at run
    simp only [attachCategories, ClassData.methods]
    split
    · exact (Collected.lists_finish _).trans run
    next none =>
      -- nothing is pending, so nothing has to be attached
      refine Eq.trans ?_ run
      rw [Collected.view, Collected.pending, Nat.eq_zero_of_not_pos none]
      rfl
  · have run := Collected.view_collectAll env.freshProperties id
      (data.extAllocIfNeeded env).properties (cats.map (·.propertiesForMeta isMeta))
    rw [filterMap_map, map_id] at run
    exact (Collected.lists_finish _).trans run
  · have run := Collected.view_collectAll env.freshProtocols id
      (data.extAllocIfNeeded env).protocols (cats.map (·.protocolsForMeta isMeta))
    rw [filterMap_map, map_id] at run
    exact (Collected.lists_finish _).trans run

/-- A call of `attachCategories` for the class (or metaclass). -/
structure Call (P Q : Type) where
  env : Env P Q
  cats : List (Category P Q)

variable (data : ClassData P Q) (isMeta : Bool) (calls : List (Call P Q))

/-- Several calls one after the other. -/
def attachAll : ClassData P Q := calls.foldl (fun data call => attachCategories call.env data isMeta call.cats) data

/-- The method lists of the calls in the order they are attached. -/
def attachedMethods : List (List Method) :=
  calls.flatMap fun call => (call.cats.filterMap (·.methodsForMeta isMeta)).map (uniquedEntries call.env.register)

theorem lists_attachAll : (attachAll data isMeta calls).methods.lists =
        (calls.flatMap fun call => (call.cats.filterMap (·.methodsForMeta isMeta)).map
          (prepareMethodList call.env.register)).reverse ++ data.methods.lists ∧ (attachAll data isMeta calls).properties.lists =
        ((calls.flatMap Call.cats).filterMap (·.propertiesForMeta isMeta)).reverse ++ data.properties.lists ∧
    (attachAll data isMeta calls).protocols.lists =
        ((calls.flatMap Call.cats).filterMap (·.protocolsForMeta isMeta)).reverse ++ data.protocols.lists := by
  unfold attachAll
  induction calls generalizing data with
  | nil => exact ⟨rfl, rfl, rfl⟩
  | cons call _ ih =>
    obtain ⟨methods, properties, protocols⟩ := ih (attachCategories call.env data isMeta call.cats)
    obtain ⟨methods', properties', protocols'⟩ := lists_attachCategories call.env data isMeta call.cats
    rw [foldl_cons, methods, properties, protocols, methods', properties', protocols']
    simp [filterMap_append]

/-- A class answers with the latest category that has the selector, else as before. -/
theorem answer_attachAll (sel : Nat) : (attachAll data isMeta calls).answer sel =
      ((attachedMethods isMeta calls).reverse.findSome? fun methods => methods.find? fun m => m.name = sel).or
        (data.answer sel) := by
  have firsts : (attachedMethods isMeta calls).map (fun methods => methods.find? fun m => m.name = sel) =
      (calls.flatMap fun call => (call.cats.filterMap (·.methodsForMeta isMeta)).map
        (prepareMethodList call.env.register)).map fun mlist => mlist.entries.find? fun m => m.name = sel := by
    simp only [attachedMethods, map_flatMap, map_map, Function.comp_def, find?_prepareMethodList]
  have latest := congrArg (fun firsts => firsts.reverse.findSome? id) firsts
  simp only [← map_reverse, findSome?_map, Function.id_comp] at latest
  rw [ClassData.answer_eq, (lists_attachAll data isMeta calls).1, ClassData.entriesOf, flatMap_append,
    find?_append, find?_flatMap, ← latest, ClassData.answer_eq, ClassData.entriesOf]

/-- **Category attachment order.** However the categories are split into calls, their lists stand
in reverse order of attachment in front of the lists the class had; so the latest category that
has a selector answers it, and the class itself only if none has. -/
theorem category_attachment_order :
    ((attachAll data isMeta calls).methods.lists = (calls.flatMap fun call => (call.cats.filterMap (·.methodsForMeta isMeta)).map
          (prepareMethodList call.env.register)).reverse ++ data.methods.lists ∧ (attachAll data isMeta calls).properties.lists =
        ((calls.flatMap Call.cats).filterMap (·.propertiesForMeta isMeta)).reverse ++ data.properties.lists ∧
      (attachAll data isMeta calls).protocols.lists =
        ((calls.flatMap Call.cats).filterMap (·.protocolsForMeta isMeta)).reverse ++ data.protocols.lists) ∧
    ∀ sel, (∀ before latest after m, attachedMethods isMeta calls = before ++ latest :: after →
        (∀ methods ∈ after, ∀ other ∈ methods, other.name ≠ sel) → (latest.find? fun m => m.name = sel) = some m →
        (attachAll data isMeta calls).answer sel = some m) ∧
      ((∀ methods ∈ attachedMethods isMeta calls, ∀ other ∈ methods, other.name ≠ sel) →
        (attachAll data isMeta calls).answer sel = data.answer sel) := by
  have silent : ∀ {lists : List (List Method)} {sel : Nat}, (∀ methods ∈ lists, ∀ other ∈ methods, other.name ≠ sel) →
      (lists.reverse.findSome? fun methods => methods.find? fun m => m.name = sel) = none := by
    intro lists sel without
    rw [findSome?_eq_none_iff]
    intro methods mem
    simpa using without methods (mem_reverse.mp mem)
  refine ⟨lists_attachAll data isMeta calls, fun sel => ⟨?_, fun without => ?_⟩⟩
  · intro before latest after m attached none found
    rw [answer_attachAll, attached, reverse_append, reverse_cons, findSome?_append, findSome?_append,
      silent none, Option.none_or, findSome?_singleton, found, Option.some_or, Option.some_or]
  · rw [answer_attachAll, silent without, Option.none_or]

/-- A list as the compiler emits it. -/
def rawList (entries : List Method) : MethodList := ⟨entries, false, false, true, nofun⟩

/-- An image that has only this category, with instance methods only. -/
def categoryCall (entries : List Method) : Call Unit Unit where
  env := ⟨id, fun _ => rawList [], fun _ => (), fun _ => ()⟩
  cats := [⟨some (rawList entries), none, none, none, none, false⟩]

/-- Selector 1 of a class is overridden by two categories: the second one counts. -/
theorem category_attachment_order_two : (attachAll ⟨⟨some (rawList [⟨1, 0, 10⟩]), none, none⟩, none⟩ false
      [categoryCall [⟨1, 0, 20⟩], categoryCall [⟨2, 0, 31⟩, ⟨1, 0, 30⟩]]).answer 1 = some ⟨1, 0, 30⟩ :=
  ((category_attachment_order _ false [categoryCall [⟨1, 0, 20⟩], categoryCall [⟨2, 0, 31⟩, ⟨1, 0, 30⟩]]).2 1).1
    [[⟨1, 0, 20⟩]] [⟨2, 0, 31⟩, ⟨1, 0, 30⟩] [] ⟨1, 0, 30⟩ rfl nofun rfl

end DarwinNotes.Objc.MethodLists
