import DarwinNotes.Objc.MethodLists.Search

/-!
# Adding methods in bulk and one by one

What a class answers a selector with only depends on the methods of that selector
that were given to it. One by one, each of them meets the class as the earlier ones
left it; in bulk all of them meet the old class, and the new methods are attached as
one sorted list of which the first of a selector counts. The two agree exactly when
the feedback between the methods of one call would not have changed anything.
-/

namespace DarwinNotes.Objc.MethodLists
open List

open Lib

variable {P Q : Type}

/-! ## The effect on the answers -/

namespace ClassData

variable {place : Place} {m : Method}

/-- The method a lookup found stands behind methods of other names, and its IMP can be written there. -/
theorem findInLists_setImp {name : Nat} (lists : List MethodList) {i : Nat} (found : findInLists name i lists = some (place, m)) :
    ∃ k front back, place.list = i + k ∧ entriesOf lists = front ++ m :: back ∧ m.name = name ∧ (∀ other ∈ front, other.name ≠ name) ∧
      ∀ imp, entriesOf (lists.modify k fun mlist => mlist.setImp place.index imp) = front ++ { m with imp } :: back := by
  induction lists generalizing i with
  | nil => cases found
  | cons mlist lists ih =>
    rw [findInLists, searchMethodList_eq] at found
    cases isIndex : mlist.entries.findIdx? fun m => m.name = name with
    | some index =>
      obtain ⟨bound, named, isFirst⟩ := findIdx?_eq_some_iff_getElem.mp isIndex
      simp only [isIndex, getElem?_eq_getElem bound, Option.map_some, Option.some.injEq, Prod.mk.injEq] at found
      obtain ⟨rfl, rfl⟩ := found
      refine ⟨0, mlist.entries.take index, mlist.entries.drop (index + 1) ++ entriesOf lists, rfl, ?_, by simpa using named, ?_, fun imp => ?_⟩
      · rw [entriesOf, flatMap_cons, ← entriesOf, ← cons_append, getElem_cons_drop, ← append_assoc, take_append_drop]
      · intro other mem
        obtain ⟨j, small, rfl⟩ := mem_take_iff_getElem.mp mem
        simpa using isFirst j (by omega)
      · refine (congrArg (· ++ entriesOf lists) (modify_eq_take_cons_drop bound)).trans ?_
        rw [append_assoc]
        rfl
    | none =>
      simp only [isIndex] at found
      obtain ⟨k, front, back, at_, split, named, others, effect⟩ := ih found
      refine ⟨k + 1, mlist.entries ++ front, back, by omega, ?_, named, ?_, fun imp => ?_⟩
      · rw [entriesOf, flatMap_cons, ← entriesOf, split, append_assoc]
      · exact forall_mem_append.mpr ⟨by simpa using findIdx?_eq_none_iff.mp isIndex, others⟩
      · rw [modify_succ_cons, entriesOf, flatMap_cons, ← entriesOf, effect, append_assoc]

theorem lists_modifyMethods (data : ClassData P Q) (i : Nat) (f : MethodList → MethodList) :
    (data.modifyMethods i f).methods.lists = data.methods.lists.modify i f := by
  unfold modifyMethods methods
  cases data.ext with
  | some => exact ListArray.lists_modify _ _ _
  | none => exact ListArray.lists_modify (.list data.ro.baseMethods) i f

variable {data : ClassData P Q}

/-- Replacing a method that was found; a nil IMP replaces nothing. -/
theorem answer_methodSetImplementation {name : Nat} (found : data.getMethodNoSuper name = some (place, m)) (imp sel : Nat) :
    (data.methodSetImplementation place m imp).2.answer sel =
      if imp ≠ 0 ∧ sel = name then some { m with imp } else data.answer sel := by
  unfold methodSetImplementation
  split
  next nil => rw [if_neg (fun both => both.1 nil)]
  next some =>
    obtain ⟨k, front, back, at_, split, rfl, others, effect⟩ := findInLists_setImp _ found
    rw [Nat.zero_add] at at_
    rw [answer_eq, answer_eq, lists_modifyMethods, at_, effect, split, find?_append, find?_append]
    by_cases same : sel = m.name
    · have absent : front.find? (fun other => other.name = m.name) = none := by simpa using others
      simp [some, same, absent]
    · simp [same, Ne.symm same]

theorem answer_attachMethods (env : Env P Q) (data : ClassData P Q) {newlist : MethodList}
    (fixedUp : newlist.isFixedUp = true) (sel : Nat) :
    (data.attachMethods env newlist).answer sel = (newlist.entries.find? fun m => m.name = sel).or (data.answer sel) := by
  have lists : (data.attachMethods env newlist).methods.lists = newlist :: data.methods.lists := by
    rw [← (data.lists_extAllocIfNeeded env).1]
    simp only [attachMethods, methods, ListArray.lists_attachLists, prepareMethodList, fixedUp, if_true]
    rfl
  rw [answer_eq, lists, find?_entriesOf_cons, answer_eq]

theorem getMethodNoSuper_eq_none {sel : Nat} : data.getMethodNoSuper sel = none ↔ data.answer sel = none := by simp [answer]

theorem answer_of_found {sel : Nat} (found : data.getMethodNoSuper sel = some (place, m))
    : data.answer sel = some m := by simp [answer, found]

end ClassData

/-! ## One by one -/

variable (replace : Bool) (answer : Option Method)

/-- What becomes of the answer to the name of `method` when it is added or replaces. -/
def meet (method : Method) : Option Method :=
  match answer with
  | none => some method
  | some m => if replace && method.imp != 0 then some { m with imp := method.imp } else some m

/-- A method that was found stays, or its IMP is replaced. -/
theorem answer_found {data : ClassData P Q} {method m : Method} {place : ClassData.Place} (found : data.getMethodNoSuper method.name = some (place, m))
    (sel : Nat) : (if replace then (data.methodSetImplementation place m method.imp).2 else data).answer sel =
      if method.name = sel then meet replace (data.answer sel) method else data.answer sel := by
  have present := ClassData.answer_of_found found
  cases replace with
  | false =>
    by_cases same : method.name = sel
    · simp [← same, present, meet]
    · simp [same]
  | true =>
    rw [if_pos rfl, ClassData.answer_methodSetImplementation found]
    by_cases same : method.name = sel
    · by_cases nil : method.imp = 0 <;> simp [← same, present, meet, nil]
    · simp [same, Ne.symm same]

variable (env : Env P Q) (data : ClassData P Q)

/-- `addMethod` changes the answer to its own selector only. -/
theorem answer_addMethod (method : Method) (replace : Bool) (sel : Nat) :
    (data.addMethod env method.name method.imp method.types replace).2.answer sel =
      if method.name = sel then meet replace (data.answer sel) method else data.answer sel := by
  unfold ClassData.addMethod
  cases found : data.getMethodNoSuper method.name with
  | none =>
    have absent := ClassData.getMethodNoSuper_eq_none.mp found
    refine (data.answer_attachMethods env rfl sel).trans ?_
    by_cases same : method.name = sel
    · subst same
      simp [absent, meet]
    · simp [same]
  | some pair =>
    have met := answer_found replace found sel
    cases replace <;> exact met

variable (cls : Option (ClassData P Q)) (calls : List (Env P Q × Method))

/-- `class_addMethod` for each method in turn: the names for which it returned `NO`, and the class. -/
def addInTurn : List Nat × Option (ClassData P Q) :=
  calls.foldl (fun (failed, cls) (env, method) =>
    let (added, cls) := classAddMethod env cls method
    (if added then failed else failed ++ [method.name], cls)) ([], cls)

/-- `class_replaceMethod` for each method in turn. -/
def replaceInTurn : Option (ClassData P Q) := calls.foldl (fun cls (env, method) => (classReplaceMethod env cls method).2) cls

/-- One call in turn, on a class that is not `Nil`. -/
def turn (data : ClassData P Q) (call : Env P Q × Method) : ClassData P Q :=
  (data.addMethod call.1 call.2.name call.2.imp call.2.types replace).2

/-- The methods of a selector. -/
def named (sel : Nat) (methods : List Method) : List Method := methods.filter fun m => m.name = sel

theorem named_cons (sel : Nat) (m : Method) (methods : List Method) :
    named sel (m :: methods) = if m.name = sel then m :: named sel methods else named sel methods := by
  simp [named, filter_cons]

/-- **In turn, the methods of a selector meet its answer one after the other.** -/
theorem answer_turns (sel : Nat) :
    (calls.foldl (turn replace) data).answer sel = (named sel (calls.map Prod.snd)).foldl (meet replace) (data.answer sel) := by
  induction calls generalizing data with
  | nil => rfl
  | cons call _ ih =>
    rw [foldl_cons, ih, turn, answer_addMethod, map_cons, named_cons]
    by_cases same : call.2.name = sel <;> simp [same]

theorem classReplaceMethod_some (method : Method) :
    (classReplaceMethod env (some data) method).2 = some (turn true data (env, method)) := rfl

theorem replaceInTurn_some (calls : List (Env P Q × Method)) :
    replaceInTurn (some data) calls = some (calls.foldl (turn true) data) := by
  unfold replaceInTurn
  induction calls generalizing data with
  | nil => rfl
  | cons _ _ ih => simp [classReplaceMethod_some, ih]

/-- Whether `class_addMethod` returns `NO` for a name that is answered so. -/
def refused : Bool := (answer.map Method.imp).getD 0 != 0

/-- The names refused in turn. -/
def refusals (data : ClassData P Q) : List (Env P Q × Method) → List Nat
  | [] => []
  | call :: calls => (if refused (data.answer call.2.name) then [call.2.name] else []) ++ refusals (turn false data call) calls

theorem classAddMethod_some (method : Method) :
    classAddMethod env (some data) method = (!refused (data.answer method.name), some (turn false data (env, method))) := by
  unfold classAddMethod turn
  simp only [Prod.mk.injEq, and_true]
  unfold ClassData.addMethod
  cases found : data.getMethodNoSuper method.name with
  | none => simp [refused, ClassData.getMethodNoSuper_eq_none.mp found]
  | some => simp [refused, ClassData.answer_of_found found, bne]

theorem addInTurn_some (calls : List (Env P Q × Method)) :
    addInTurn (some data) calls = (refusals data calls, some (calls.foldl (turn false) data)) := by
  have run : ∀ (failed : List Nat) (data : ClassData P Q), calls.foldl (fun (failed, cls) (env, method) =>
      let (added, cls) := classAddMethod env cls method
      (if added then failed else failed ++ [method.name], cls)) (failed, some data) =
      (failed ++ refusals data calls, some (calls.foldl (turn false) data)) := by
    induction calls with
    | nil => intro failed data; simp [refusals]
    | cons call _ ih =>
      intro failed data
      simp only [foldl_cons, classAddMethod_some, ih, refusals]
      cases refused (data.answer call.2.name) <;> simp
  exact run [] data

variable (calls : List (Env P Q × Method))

theorem addInTurn_none : addInTurn none calls = ((calls.map Prod.snd).map Method.name, none) := by
  have run : ∀ failed : List Nat, calls.foldl (fun (failed, cls) (env, method) =>
      let (added, cls) := classAddMethod env cls method
      (if added then failed else failed ++ [method.name], cls)) (failed, none) =
      (failed ++ (calls.map Prod.snd).map Method.name, (none : Option (ClassData P Q))) := by
    induction calls with
    | nil => intro failed; simp
    | cons call _ ih =>
      intro failed
      refine (ih (failed ++ [call.2.name])).trans ?_
      simp
  exact run []

theorem replaceInTurn_none : replaceInTurn none calls = none := by
  induction calls with
  | nil => rfl
  | cons _ _ ih => exact ih

/-! ## In bulk -/

namespace ClassData

theorem name_of_answer {data : ClassData P Q} {sel : Nat} {m : Method} (answered : data.answer sel = some m) : m.name = sel := by
  rw [answer_eq] at answered
  simpa using find?_some answered

variable (replace : Bool) (self : Adding P Q) (method : Method)

/-- One turn of the loop of `addMethods`: an answer the class had can change, a method without one
is collected. -/
theorem answer_step (sel : Nat) : (self.step replace method).data.answer sel =
      if method.name = sel then (self.data.answer sel).bind fun m => meet replace (some m) method
      else self.data.answer sel := by
  unfold Adding.step
  cases found : self.data.getMethodNoSuper method.name with
  | none =>
    have absent := getMethodNoSuper_eq_none.mp found
    by_cases same : method.name = sel
    · simp [← same, absent]
    · simp [same]
  | some pair =>
    have met := answer_found replace found sel
    by_cases same : method.name = sel
    · rw [← same, answer_of_found found] at met ⊢
      cases replace <;> exact met
    · rw [if_neg same] at met ⊢
      cases replace <;> exact met

theorem isSome_answer_step (sel : Nat) : ((self.step replace method).data.answer sel).isSome = (self.data.answer sel).isSome := by
  rw [answer_step]
  split
  · cases self.data.answer sel with
    | none => rfl
    | some =>
      rw [Option.bind_some, meet]
      split <;> rfl
  · rfl

theorem lists_step : (self.step replace method).newlist =
        self.newlist ++ (if (self.data.answer method.name).isSome then [] else [method]) ∧ (self.step replace method).failedNames =
        self.failedNames ++ (if !replace && (self.data.answer method.name).isSome then [method.name] else []) := by
  unfold Adding.step
  cases found : self.data.getMethodNoSuper method.name with
  | none => simp [getMethodNoSuper_eq_none.mp found]
  | some =>
    have present := answer_of_found found
    have name := name_of_answer present
    cases replace <;> simp [present, name]

/-- What the loop of `addMethods` has done. -/
theorem adding_loop (methods : List Method) (self : Adding P Q) : (methods.foldl (Adding.step replace) self).newlist =
        self.newlist ++ methods.filter (fun m => !(self.data.answer m.name).isSome) ∧
    (methods.foldl (Adding.step replace) self).failedNames =
        self.failedNames ++ (methods.filter fun m => !replace && (self.data.answer m.name).isSome).map Method.name ∧
    ∀ sel, (methods.foldl (Adding.step replace) self).data.answer sel =
      (self.data.answer sel).bind fun m => (named sel methods).foldl (meet replace) (some m) := by
  induction methods generalizing self with
  | nil => simp [named]
  | cons method _ ih =>
    obtain ⟨newlist, failedNames, data⟩ := ih (self.step replace method)
    obtain ⟨collected, failed⟩ := lists_step replace self method
    simp only [isSome_answer_step] at newlist failedNames
    rw [foldl_cons, newlist, failedNames, collected, failed]
    refine ⟨?_, ?_, fun sel => ?_⟩
    · cases answered : self.data.answer method.name <;> simp [answered]
    · cases answered : self.data.answer method.name <;> cases replace <;> simp [answered]
    · rw [data, answer_step, named_cons]
      by_cases same : method.name = sel
      · cases self.data.answer sel with
        | none => simp [same]
        | some => simp [same, meet, ← apply_ite some]
      · simp [same]

variable (env : Env P Q) (done : Adding P Q)

theorem answer_finish (sel : Nat) :
    (done.finish env).2.answer sel = (done.newlist.find? fun m => m.name = sel).or (done.data.answer sel) := by
  unfold Adding.finish
  split
  next => rw [answer_attachMethods env done.data rfl, find?_stableSort]
  next none => rw [length_eq_zero_iff.mp (Nat.eq_zero_of_not_pos none), find?_nil, Option.none_or]

theorem failedNames_finish : (done.finish env).1 = done.failedNames := by
  unfold Adding.finish
  split <;> rfl

/-- **In bulk, the methods of a selector meet the answer the class had, or the first of them is
the answer.** -/
theorem addMethods_eq (data : ClassData P Q) (methods : List Method) (replace : Bool) :
    (data.addMethods env methods replace).1 = (methods.filter fun m => !replace && (data.answer m.name).isSome).map Method.name ∧
    ∀ sel, (data.addMethods env methods replace).2.answer sel =
      match data.answer sel with
      | some m => (named sel methods).foldl (meet replace) (some m)
      | none => (named sel methods).head? := by
  obtain ⟨newlist, failedNames, answers⟩ := adding_loop replace methods { data, newlist := [], failedNames := [] }
  rw [addMethods, failedNames_finish, failedNames]
  refine ⟨rfl, fun sel => ?_⟩
  rw [answer_finish, newlist, answers, nil_append, find?_filter, named, head?_filter]
  have collected : (fun m : Method => decide ((!(data.answer m.name).isSome) = true ∧ decide (m.name = sel) = true)) =
      fun m => decide ((data.answer sel).isNone ∧ m.name = sel) := by
    funext m
    by_cases same : m.name = sel <;> simp [same]
  rw [collected]
  cases data.answer sel with
  | none => simp
  | some m => simp [find?_eq_none.mpr]

end ClassData

variable (env : Env P Q) (methods : List Method)

theorem classAddMethodsBulk_some (data : ClassData P Q) :
    classAddMethodsBulk env (some data) methods = ((data.addMethods env methods false).1, some (data.addMethods env methods false).2) := rfl

theorem classReplaceMethodsBulk_some (data : ClassData P Q) :
    classReplaceMethodsBulk env (some data) methods = some (data.addMethods env methods true).2 := rfl

/-! ## When they agree -/

/-- The classes answer every selector alike. -/
def SameAnswers (cls other : Option (ClassData P Q)) : Prop :=
  ∀ sel, (cls.bind fun data => data.answer sel) = other.bind fun data => data.answer sel

variable (cls : Option (ClassData P Q))

/-- What adding in bulk needs: names the class has are not answered with nil, and a new name that
comes again had a nil IMP the first time. -/
def AddsAlike (methods : List Method) : Prop :=
  ∀ data ∈ cls, (∀ method ∈ methods, ∀ m, data.answer method.name = some m → m.imp ≠ 0) ∧
    ∀ before method after first, methods = before ++ method :: after → data.answer method.name = none →
      (named method.name before).head? = some first → first.imp = 0

/-- What replacing in bulk needs: the last non-nil IMP given for a new name after its first is
the first. -/
def ReplacesAlike (methods : List Method) : Prop :=
  ∀ data ∈ cls, ∀ before first after, methods = before ++ first :: after → data.answer first.name = none →
    named first.name before = [] → ∀ last, ((named first.name after).filter fun m => m.imp ≠ 0).getLast? = some last → last.imp = first.imp

theorem foldl_meet_add (m : Method) : methods.foldl (meet false) (some m) = some m := by
  induction methods with
  | nil => rfl
  | cons _ _ ih => exact ih

/-- In turn, a method ends with the last non-nil IMP it was given. -/
theorem foldl_meet_replace (m : Method) : methods.foldl (meet true) (some m) =
      some { m with imp := ((methods.filter fun m => m.imp ≠ 0).getLast?.map Method.imp).getD m.imp } := by
  induction methods generalizing m with
  | nil => rfl
  | cons method methods ih =>
    rw [foldl_cons, meet]
    by_cases nil : method.imp = 0
    · simpa [nil] using ih m
    · simp only [nil, bne_iff_ne, ne_eq, not_false_eq_true, Bool.true_and, if_true, ih, filter_cons, decide_true]
      cases (methods.filter fun m => decide ¬ m.imp = 0) with
      | nil => simp
      | cons => simp [getLast?_cons]

theorem refusals_append (data : ClassData P Q) (calls more : List (Env P Q × Method)) :
    refusals data (calls ++ more) = refusals data calls ++ refusals (calls.foldl (turn false) data) more := by
  induction calls generalizing data with
  | nil => rfl
  | cons _ _ ih => simp [refusals, ih]

/-- A name that is answered with nil is never refused. -/
theorem notMem_refusals {data : ClassData P Q} {name : Nat} {m : Method} (answered : data.answer name = some m)
    (nil : m.imp = 0) (calls : List (Env P Q × Method)) : name ∉ refusals data calls := by
  induction calls generalizing data with
  | nil => simp [refusals]
  | cons call _ ih =>
    have after : (turn false data call).answer name = some m := by
      rw [turn, answer_addMethod, answered]
      simp [meet]
    intro mem
    rw [refusals, mem_append] at mem
    rcases mem with now | later
    · split at now
      next refuses =>
        rw [← mem_singleton.mp now, answered] at refuses
        simp [refused, nil] at refuses
      next => cases now
    · exact ih after later

/-- A class after some methods were added in turn. -/
theorem answer_turns_add (data : ClassData P Q) (calls : List (Env P Q × Method)) (sel : Nat) : (calls.foldl (turn false) data).answer sel =
      (data.answer sel).or (named sel (calls.map Prod.snd)).head? := by
  rw [answer_turns]
  cases data.answer sel with
  | some m => exact foldl_meet_add _ m
  | none =>
    cases named sel (calls.map Prod.snd) with
    | nil => rfl
    | cons first later => exact foldl_meet_add later first

/-- Under the condition for adding, what is refused in turn are the names the class had. -/
theorem refusals_eq {data : ClassData P Q} {methods : List Method} (alike : AddsAlike (some data) methods)
    (earlier calls : List (Env P Q × Method)) (all : methods = (earlier ++ calls).map Prod.snd) :
    refusals (earlier.foldl (turn false) data) calls =
      ((calls.map Prod.snd).filter fun m => (data.answer m.name).isSome).map Method.name := by
  obtain ⟨had, new⟩ := alike data rfl
  induction calls generalizing earlier with
  | nil => rfl
  | cons call calls ih =>
    have split : methods = earlier.map Prod.snd ++ call.2 :: calls.map Prod.snd := by rw [all]; simp
    have rest := ih (earlier ++ [call]) (by rw [all]; simp)
    rw [foldl_append] at rest
    rw [refusals, answer_turns_add]
    refine (congrArg _ rest).trans ?_
    rw [map_cons, filter_cons]
    cases answered : data.answer call.2.name with
    | some m =>
      have nonnil := had call.2 (by rw [split]; simp) m answered
      simp [refused, nonnil]
    | none =>
      cases repeated : (named call.2.name (earlier.map Prod.snd)).head? with
      | none => simp [refused]
      | some first => simp [refused, new _ _ _ first split answered repeated]

/-- **Adding in bulk agrees with adding in turn exactly under `AddsAlike`.** -/
theorem addMethodsBulk_iff (cls : Option (ClassData P Q)) (calls : List (Env P Q × Method)) :
    (SameAnswers (classAddMethodsBulk env cls (calls.map Prod.snd)).2 (addInTurn cls calls).2 ∧
      (classAddMethodsBulk env cls (calls.map Prod.snd)).1 = (addInTurn cls calls).1) ↔ AddsAlike cls (calls.map Prod.snd) := by
  cases cls with
  | none =>
    rw [addInTurn_none]
    exact iff_of_true ⟨fun _ => rfl, rfl⟩ fun data is => absurd is (Option.not_mem_none data)
  | some data =>
    obtain ⟨failed, answers⟩ := data.addMethods_eq env (calls.map Prod.snd) false
    rw [addInTurn_some, classAddMethodsBulk_some]
    have same : SameAnswers (some (data.addMethods env (calls.map Prod.snd) false).2)
        (some (calls.foldl (turn false) data)) := by
      intro sel
      rw [Option.bind_some, Option.bind_some, answers, answer_turns_add]
      cases data.answer sel with
      | some m => exact foldl_meet_add _ m
      | none => rfl
    constructor
    · rintro ⟨-, reported⟩ _ is
      cases is
      have reported : _ = refusals data calls := failed.symm.trans reported
      refine ⟨fun method mem m answered nil => ?_, fun before method after first split absent repeated => ?_⟩
      · refine notMem_refusals answered nil calls ?_
        rw [← reported]
        exact mem_map.mpr ⟨method, mem_filter.mpr ⟨mem, by simp [answered]⟩, rfl⟩
      by_contra nonnil
      obtain ⟨earlier, _, rfl, rfl, cons⟩ := map_eq_append_iff.mp split
      obtain ⟨call, later, rfl, rfl, rfl⟩ := map_eq_cons_iff.mp cons
      have refuses : call.2.name ∈ refusals data (earlier ++ call :: later) := by
        rw [refusals_append, refusals, answer_turns_add, absent, Option.none_or, repeated]
        simp [refused, nonnil]
      rw [← reported] at refuses
      obtain ⟨_, mem, name⟩ := mem_map.mp refuses
      have answered := (mem_filter.mp mem).2
      rw [name, absent] at answered
      cases answered
    · intro alike
      exact ⟨same, failed.trans (refusals_eq alike [] calls rfl).symm⟩

/-- **Replacing in bulk agrees with replacing in turn exactly under `ReplacesAlike`.** -/
theorem replaceMethodsBulk_iff (cls : Option (ClassData P Q)) (calls : List (Env P Q × Method)) :
    SameAnswers (classReplaceMethodsBulk env cls (calls.map Prod.snd)) (replaceInTurn cls calls) ↔
      ReplacesAlike cls (calls.map Prod.snd) := by
  cases cls with
  | none =>
    rw [replaceInTurn_none]
    exact iff_of_true (fun _ => rfl) fun data is => absurd is (Option.not_mem_none data)
  | some data =>
    have answers := (data.addMethods_eq env (calls.map Prod.snd) true).2
    have turns := answer_turns true data calls
    rw [replaceInTurn_some, classReplaceMethodsBulk_some]
    generalize calls.map Prod.snd = methods at *
    constructor
    · rintro same _ is before first after split absent new last isLast
      cases is
      have both := (answers first.name).symm.trans ((same first.name).trans (turns first.name))
      have all : named first.name methods = first :: named first.name after := by
        rw [split, named, filter_append, ← named, new, nil_append, ← named, named_cons, if_pos rfl]
      rw [absent, all] at both
      have stays := both.trans (foldl_meet_replace (named first.name after) first)
      rw [isLast] at stays
      exact (congrArg Method.imp (Option.some.inj stays)).symm
    · intro alike sel
      refine (answers sel).trans (Eq.trans ?_ (turns sel).symm)
      cases answered : data.answer sel with
      | some => rfl
      | none =>
        cases all : named sel methods with
        | nil => rfl
        | cons first later =>
          obtain ⟨before, after, split, none, isNamed, rest⟩ := filter_eq_cons_iff.mp all
          obtain rfl : first.name = sel := by simpa using isNamed
          have new := filter_eq_nil_iff.mpr none
          have last := alike data rfl before first after split answered new
          rw [named, rest] at last
          refine Eq.trans ?_ (foldl_meet_replace later first).symm
          cases isLast : (later.filter fun m => m.imp ≠ 0).getLast? with
          | none => rfl
          | some m => simp [last m isLast]

/-- **Adding or replacing in bulk against doing it in turn.** -/
theorem bulk_agrees_with_turns (cls : Option (ClassData P Q)) (calls : List (Env P Q × Method)) :
    ((SameAnswers (classAddMethodsBulk env cls (calls.map Prod.snd)).2 (addInTurn cls calls).2 ∧
        (classAddMethodsBulk env cls (calls.map Prod.snd)).1 = (addInTurn cls calls).1) ↔ AddsAlike cls (calls.map Prod.snd)) ∧
    (SameAnswers (classReplaceMethodsBulk env cls (calls.map Prod.snd)) (replaceInTurn cls calls) ↔
      ReplacesAlike cls (calls.map Prod.snd)) := ⟨addMethodsBulk_iff env cls calls, replaceMethodsBulk_iff env cls calls⟩

/-- A class without lists, and memory that is zero. -/
def bareClass : ClassData Unit Unit := ⟨⟨none, none, none⟩, none⟩

def zeroed : Env Unit Unit := ⟨id, fun _ => ⟨[], false, false, true, nofun⟩, fun _ => (), fun _ => ()⟩

/-- A class without methods is given two IMPs for one new name: in bulk nothing fails and the first
IMP stays; in turn adding fails for the second and replacing leaves the second. -/
theorem bulk_repeated_name : (classAddMethodsBulk zeroed (some bareClass) [⟨1, 0, 10⟩, ⟨1, 0, 20⟩]).1 = [] ∧
    (addInTurn (some bareClass) [(zeroed, ⟨1, 0, 10⟩), (zeroed, ⟨1, 0, 20⟩)]).1 = [1] ∧
    ((classReplaceMethodsBulk zeroed (some bareClass) [⟨1, 0, 10⟩, ⟨1, 0, 20⟩]).bind fun data => data.answer 1) = some ⟨1, 0, 10⟩ ∧
    ((replaceInTurn (some bareClass) [(zeroed, ⟨1, 0, 10⟩), (zeroed, ⟨1, 0, 20⟩)]).bind fun data => data.answer 1) = some ⟨1, 0, 20⟩ := by
  have bare : ∀ sel, bareClass.answer sel = none := fun _ => rfl
  refine ⟨?_, ?_, ?_, ?_⟩
  · rw [classAddMethodsBulk_some, (bareClass.addMethods_eq zeroed _ false).1]
    simp [bare]
  · have first : (turn false bareClass (zeroed, ⟨1, 0, 10⟩)).answer 1 = some ⟨1, 0, 10⟩ :=
      (answer_addMethod zeroed bareClass ⟨1, 0, 10⟩ false 1).trans rfl
    rw [addInTurn_some]
    simp [refusals, bare, first, refused]
  · rw [classReplaceMethodsBulk_some, Option.bind_some, (bareClass.addMethods_eq zeroed _ true).2, bare]
    rfl
  · rw [replaceInTurn_some, Option.bind_some, answer_turns, bare]
    rfl

end DarwinNotes.Objc.MethodLists
