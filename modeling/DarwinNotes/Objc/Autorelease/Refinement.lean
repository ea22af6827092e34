import DarwinNotes.Objc.Autorelease.Pages

/-!
# The pool is a stack

What a thread does to its pages is what a plain stack allows, at every step and
through every release that runs code of its own. A pop takes everything off the stack
down to its boundary and nothing below.
-/

namespace DarwinNotes.Objc.Autorelease
open Lib List

variable {size : Nat} {pool : Pool} {chain contents : List Nat}

/-! ## The contents of the pages -/

theorem PageOk.part_eq {j : Nat} {page : Page} (ok : PageOk size chain contents j page) :
    (range page.next).map page.slots = (contents.drop (j * capacity size)).take (capacity size) := by
  have next := ok.next
  refine ext_getElem? fun i => ?_
  by_cases small : i < page.next
  · rw [getElem?_map, getElem?_range small, getElem?_take_of_lt (by omega), getElem?_drop, ok.slots i small]
    rfl
  · rw [getElem?_eq_none (by rw [length_map, length_range]; omega), getElem?_eq_none (by rw [length_take, length_drop]; omega)]

theorem contentsUpTo_eq (layout : Layout size pool chain contents) : ∀ {fuel i address : Nat}, chain[i]? = some address → i < fuel →
      pool.contentsUpTo fuel address = contents.take (i * capacity size + capacity size) := by
  intro fuel
  induction fuel with
  | zero => exact fun _ none => absurd none (Nat.not_lt_zero _)
  | succ _ ih =>
    intro i address here enough
    obtain ⟨page, found, ok⟩ := layout.page here
    simp only [Pool.contentsUpTo, found, ok.parent, ok.part_eq]
    rw [take_add]
    congr 1
    obtain _ | i := i
    · rw [if_pos rfl, Nat.zero_mul, take_zero]
    · obtain ⟨parent, there⟩ := exists_parent here
      rw [if_neg (Nat.succ_ne_zero i), Nat.add_sub_cancel, there, Nat.add_mul, Nat.one_mul]
      exact ih there (by omega)

/-- **The pages hold the contents** from the cold page to the hot page. -/
theorem PoolOk.contents_eq (ok : PoolOk size pool chain contents) : pool.contents = contents := by
  rw [Pool.contents]
  cases tls : pool.tls with
  | nil | emptyPoolPlaceholder =>
    rw [PoolOk, tls] at ok
    exact ok.2.1.symm
  | page hot =>
    rw [PoolOk, tls] at ok
    obtain ⟨layout, i, here, _, stop⟩ := ok
    have count := layout.count
    have small := lt_of_index here
    show pool.contentsUpTo (pool.allocated + 1) hot = contents
    rw [contentsUpTo_eq layout here (by omega), take_of_length_le stop]

theorem coldPageFrom_eq (layout : Layout size pool chain contents) :
    ∀ {fuel i address : Nat}, chain[i]? = some address → i < fuel → pool.coldPageFrom fuel address = chain[0]? := by
  intro fuel
  induction fuel with
  | zero => exact fun _ none => absurd none (Nat.not_lt_zero _)
  | succ _ ih =>
    intro i address here enough
    obtain ⟨page, found, ok⟩ := layout.page here
    rw [Pool.coldPageFrom, found, Option.bind_some, ok.parent]
    obtain _ | i := i
    · exact here.symm
    · obtain ⟨parent, there⟩ := exists_parent here
      rw [if_neg (Nat.succ_ne_zero i), Nat.add_sub_cancel, there]
      exact ih there (by omega)

/-! ## Tokens -/

/-- A pool with a page has a hot page. -/
theorem PoolOk.layout (ok : PoolOk size pool chain contents) {j page : Nat} (here : chain[j]? = some page) :
    Layout size pool chain contents ∧ ∃ hot, pool.tls = .page hot := by
  rw [PoolOk] at ok
  split at ok
  case h_3 hot tls => exact ⟨ok.1, hot, tls⟩
  all_goals cases ok.1 ▸ here

/-- The token of what a pop works on. -/
def Target.token : Target → Token
  | .unused => .emptyPoolPlaceholder
  | .slot page stop => .slot page stop

variable {token : Token} {height : Nat}

/-- **`pop` finds the boundary of its token.** -/
theorem popTarget_ok (room : 0 < capacity size) (ok : PoolOk size pool chain contents) (tokenOk : TokenOk size chain height token)
    (boundary : contents[height]? = some 0) : ∃ target, pool.popTarget token = some target ∧ TokenOk size chain height target.token ∧
      (target = .unused → chain = []) := by
  -- a slot of a page with the boundary in it
  have slot : ∀ {page stop : Nat}, TokenOk size chain height (.slot page stop) →
      ∃ found, pool.pages page = some found ∧ found.slots stop = 0 := by
    rintro page stop ⟨j, here, _, rfl⟩
    obtain ⟨found, isPage, pageOk⟩ := (ok.layout here).1.page here
    have next := pageOk.next
    have inside := lt_of_index boundary
    have entry := pageOk.slots stop (by omega)
    exact ⟨found, isPage, (Option.some.inj (boundary.symm.trans entry)).symm⟩
  cases token with
  | slot page index =>
    obtain ⟨found, isPage, zero⟩ := slot tokenOk
    refine ⟨.slot page index, ?_, tokenOk, by rintro ⟨⟩⟩
    simp [Pool.popTarget, isPage, zero]
  | emptyPoolPlaceholder =>
    obtain rfl : height = 0 := tokenOk
    simp only [Pool.popTarget, Pool.hotPage]
    cases tls : pool.tls with
    | nil | emptyPoolPlaceholder =>
      rw [PoolOk, tls] at ok
      exact ⟨.unused, rfl, rfl, fun _ => ok.1⟩
    | page hot =>
      have okHot := ok
      rw [PoolOk, tls] at okHot
      obtain ⟨layout, i, here, _⟩ := okHot
      have count := layout.count
      have bound := lt_of_index here
      obtain ⟨cold, first⟩ : ∃ cold, chain[0]? = some cold := ⟨_, getElem?_eq_getElem (by omega)⟩
      have target : TokenOk size chain 0 (.slot cold 0) := ⟨0, first, room, by rw [Nat.zero_mul]⟩
      obtain ⟨found, isPage, zero⟩ := slot target
      have walked : pool.coldPageFrom (pool.allocated + 1) hot = some cold := (coldPageFrom_eq layout here (by omega)).trans first
      refine ⟨.slot cold 0, ?_, target, by rintro ⟨⟩⟩
      simp [walked, isPage, zero]

/-! ## Activations -/

/-- The boundaries of an activation, with how much is below each. -/
def Frame.marks : Frame → List (Token × Nat)
  | .user tokens => tokens
  | .pop target height => [(target.token, height)]

/-- The boundaries of the activations, the last first. -/
def marks (frames : List Frame) : List (Token × Nat) := frames.flatMap Frame.marks

/-- A boundary is on its page, or everything down to it has been taken off. -/
structure MarkOk (size : Nat) (chain contents : List Nat) (mark : Token × Nat) : Prop where
  token : TokenOk size chain mark.2 mark.1
  large : mark.2 ≤ contents.length
  boundary : mark.2 < contents.length → contents[mark.2]? = some 0

/-- User code is running. -/
def InUser : List Frame → Prop
  | .user _ :: _ => True
  | _ => False

/-- **The invariant.** While user code is running no boundary is missing, and a pop that found no page does not wait. -/
structure Ok (size : Nat) (thread : Thread) (chain contents : List Nat) : Prop where
  pool : PoolOk size thread.pool chain contents
  sorted : (marks thread.frames).Pairwise (·.2 > ·.2)
  mark : ∀ mark ∈ marks thread.frames, MarkOk size chain contents mark
  user : InUser thread.frames → ∀ mark ∈ marks thread.frames, mark.2 < contents.length
  waiting : ∀ {height}, .pop .unused height ∉ thread.frames.tail
  unused : ∀ {height}, thread.frames.head? = some (.pop .unused height) → chain = []

theorem start_ok : Ok size start [] [] := ⟨emptyPool_ok, List.Pairwise.nil, nofun, nofun, nofun, nofun⟩

/-! ## Steps -/

theorem getElem?_concat_of_some {l : List Nat} {k a : Nat} (b : Nat) (there : l[k]? = some a) : (l ++ [b])[k]? = some a := by
  rw [getElem?_append_left (lt_of_index there), there]

/-- What the step of a thread leads to. -/
structure StepOk (size : Nat) (contents : List Nat) (rest : List Frame) (after : Thread) (event : Stack.Event Nat) : Prop where
  ok : ∃ chain' contents', Ok size after chain' contents' ∧ Stack.Moves event contents contents'
  frames : ∃ new, after.frames = new ++ rest

variable {frame : Frame} {rest outer : List Frame} {fresh : Fresh} {after : Thread} {event : Stack.Event Nat} {tokens : List (Token × Nat)}

variable (room : 2 ≤ capacity size)
include room

/-- User code puts an entry on the stack. -/
theorem put_ok (ok : Ok size ⟨pool, .user tokens :: outer⟩ chain contents) (unused : pool.pages fresh.address = none) (obj : Nat)
    : ∃ pool' token, pool.autoreleaseFast size obj fresh = some (pool', token) ∧
      StepOk size contents outer ⟨pool', .user tokens :: outer⟩ (.put obj) ∧ (obj = 0 →
        StepOk size contents outer ⟨pool', .user ((token, pool.contents.length) :: tokens) :: outer⟩ (.put obj)) := by
  obtain ⟨pool', token, chain', added, pool'Ok, tokenOk, extended⟩ := autoreleaseFast_ok room ok.pool unused obj
  have inside := ok.user trivial
  have length : (contents ++ [obj]).length = contents.length + 1 := length_append
  have old : ∀ mark ∈ marks (.user tokens :: outer), MarkOk size chain' (contents ++ [obj]) mark := by
    intro mark isMark
    have less := inside mark isMark
    obtain ⟨tokenOk, _, boundary⟩ := ok.mark mark isMark
    exact ⟨tokenOk.extend extended, by omega, fun _ => getElem?_concat_of_some obj (boundary less)⟩
  have inside' : ∀ mark ∈ marks (.user tokens :: outer), mark.2 < (contents ++ [obj]).length := by
    intro mark isMark
    have less := inside mark isMark
    omega
  refine ⟨pool', token, added, ⟨⟨chain', _, ⟨pool'Ok, ok.sorted, old, fun _ => inside', ok.waiting, nofun⟩, .put obj contents⟩, [_], rfl⟩, ?_⟩
  rintro rfl
  rw [ok.pool.contents_eq]
  refine ⟨⟨chain', _, ⟨pool'Ok, ?_, ?_, fun _ => ?_, ok.waiting, nofun⟩, .put 0 contents⟩, [_], rfl⟩
  · exact pairwise_cons.mpr ⟨inside, ok.sorted⟩
  · exact forall_mem_cons.mpr ⟨⟨tokenOk rfl, by rw [length]; exact Nat.le_succ _, fun _ => getElem?_concat_length⟩, old⟩
  · exact forall_mem_cons.mpr ⟨by rw [length]; exact Nat.lt_succ_self _, inside'⟩

variable {older : List (Token × Nat)}

omit room in
/-- The token that is popped is found among those that were pushed. -/
theorem popped_token {found : Token × Nat} (drops : tokens.dropWhile (fun pushed => pushed.1 ≠ token) = found :: older)
    : found.1 = token ∧ found :: older <:+ tokens := by
  have some' : tokens.dropWhile (fun pushed => pushed.1 ≠ token) ≠ [] := by
    rw [drops]
    exact cons_ne_nil _ _
  have stops := head_dropWhile_not _ some'
  simp only [drops, head_cons] at stops
  exact ⟨by simpa using stops, drops ▸ dropWhile_suffix _⟩

theorem beginPop_ok {token' : Token} (ok : Ok size ⟨pool, .user tokens :: outer⟩ chain contents)
    (drops : tokens.dropWhile (fun pushed => pushed.1 ≠ token) = (token', height) :: older) : ∃ target, pool.popTarget token = some target ∧
      Ok size ⟨pool, .pop target height :: .user older :: outer⟩ chain contents := by
  obtain ⟨rfl, suffix⟩ := popped_token drops
  have sublist : (token', height) :: marks (.user older :: outer) <+ marks (.user tokens :: outer) := suffix.sublist.append_right _
  have isMark := sublist.subset mem_cons_self
  obtain ⟨tokenOk, large, boundary⟩ := ok.mark _ isMark
  obtain ⟨target, found, targetOk, isUnused⟩ := popTarget_ok (by omega) ok.pool tokenOk (boundary (ok.user trivial _ isMark))
  refine ⟨target, found, ok.pool, ?_, ?_, nofun, ?_, ?_⟩
  · have sorted := pairwise_cons.mp (ok.sorted.sublist sublist)
    exact pairwise_cons.mpr sorted
  · refine forall_mem_cons.mpr ⟨⟨targetOk, large, boundary⟩, fun mark older => ?_⟩
    exact ok.mark mark (sublist.subset (mem_cons_of_mem _ older))
  · rintro _ (_ | ⟨_, isFrame⟩)
    exact ok.waiting isFrame
  · rintro _ ⟨⟩
    exact isUnused rfl

omit room in
/-- The boundaries of the activations that wait are there. -/
theorem Ok.below (ok : Ok size ⟨pool, frame :: outer⟩ chain contents) {mark : Token × Nat} (isMark : mark ∈ marks outer)
    : mark.2 < contents.length := by
  cases frame with
  | user => exact ok.user trivial mark (mem_append_right _ isMark)
  | pop => exact Nat.lt_of_lt_of_le ((pairwise_cons.mp ok.sorted).1 mark isMark) (ok.mark _ mem_cons_self).large

omit room in
theorem Ok.finish (ok : Ok size ⟨pool, frame :: outer⟩ chain contents) {pool' : Pool} {chain' : List Nat}
    (pool'Ok : PoolOk size pool' chain' contents) (tokens : ∀ mark ∈ marks outer, TokenOk size chain' mark.2 mark.1) :
    Ok size ⟨pool', outer⟩ chain' contents where
  pool := pool'Ok
  sorted := ok.sorted.sublist (sublist_append_right _ _)
  mark mark isMark := { ok.mark mark (mem_append_right _ isMark) with token := tokens mark isMark }
  user _ _ := ok.below
  waiting isFrame := ok.waiting (mem_of_mem_tail isFrame)
  unused isHead := absurd (mem_of_head? isHead) ok.waiting

omit room in
theorem finish_ok (ok : Ok size ⟨pool, frame :: outer⟩ chain contents) : Ok size ⟨pool, outer⟩ chain contents :=
  ok.finish ok.pool fun mark isMark => (ok.mark mark (mem_append_right _ isMark)).token

variable {stop : Nat}

theorem take_ok {page : Nat} (ok : Ok size ⟨pool, .pop (.slot page stop) height :: outer⟩ chain contents)
    (more : height < contents.length) : ∃ pool' obj, pool.takeNext = some (pool', obj) ∧
      (obj = 0 → StepOk size contents outer ⟨pool', .pop (.slot page stop) height :: outer⟩ (.take 0)) ∧
      (obj ≠ 0 → StepOk size contents outer ⟨pool', .user [] :: .pop (.slot page stop) height :: outer⟩ (.take obj)) := by
  obtain ⟨⟨_, here, -⟩, -, boundary⟩ := ok.mark _ mem_cons_self
  have boundary := boundary more
  obtain ⟨contents, obj, rfl⟩ : ∃ left obj, contents = left ++ [obj] :=
    ⟨_, _, (dropLast_append_getLast (ne_nil_of_length_pos (by omega))).symm⟩
  rw [length_append, length_singleton] at more
  obtain ⟨-, _, tls⟩ := ok.pool.layout here
  obtain ⟨pool', taken, pool'Ok⟩ := takeNext_ok (by omega) tls ok.pool
  have lower : ∀ mark ∈ marks (.pop (.slot page stop) height :: outer), mark.2 ≤ height :=
    forall_mem_cons.mpr ⟨Nat.le_refl _, fun mark isMark => Nat.le_of_lt ((pairwise_cons.mp ok.sorted).1 mark isMark)⟩
  have left : ∀ mark ∈ marks (.pop (.slot page stop) height :: outer), MarkOk size chain contents mark := by
    intro mark isMark
    have small := lower mark isMark
    obtain ⟨tokenOk, _, boundary⟩ := ok.mark mark isMark
    refine ⟨tokenOk, by omega, fun inside => ?_⟩
    rw [← boundary (by rw [length_append]; omega), getElem?_append_left inside]
  refine ⟨pool', obj, taken, ?_, fun isObject => ?_⟩
  · rintro rfl
    exact ⟨⟨chain, contents, ⟨pool'Ok, ok.sorted, left, nofun, ok.waiting, nofun⟩, .take 0 contents⟩, [_], rfl⟩
  · -- the boundary is not what was taken
    have inside : height < contents.length := by
      refine Nat.lt_of_le_of_ne (Nat.le_of_lt_succ more) fun last => isObject ?_
      rw [last, getElem?_concat_length] at boundary
      exact Option.some.inj boundary
    refine ⟨⟨chain, contents, ⟨pool'Ok, ok.sorted, left, fun _ mark isMark => ?_, ?_, nofun⟩, .take obj contents⟩, [_, _], rfl⟩
    · exact Nat.lt_of_le_of_lt (lower mark isMark) inside
    · rintro _ (_ | ⟨_, isFrame⟩)
      exact ok.waiting isFrame

omit room in
/-- Tokens of boundaries on the pages that are kept stay valid. -/
theorem TokenOk.keep {chain' : List Nat} {j : Nat}
    (kept : ∀ {k address : Nat}, k ≤ j → chain[k]? = some address → chain'[k]? = some address) (ok : TokenOk size chain height token)
    (small : stop < capacity size) (below : height < j * capacity size + stop) : TokenOk size chain' height token := by
  cases token with
  | emptyPoolPlaceholder => exact ok
  | slot =>
    obtain ⟨k, here, inside, rfl⟩ := ok
    refine ⟨k, kept ?_ here, inside, rfl⟩
    by_contra after
    have := pages_before (Nat.not_le.mp after) (capacity size)
    omega

omit room in
theorem return_ok {page : Nat} (ok : Ok size ⟨pool, .pop (.slot page stop) height :: outer⟩ chain contents)
    (reached : height = contents.length) :
    ∃ pool', pool.finishPop size page = some pool' ∧ StepOk size contents outer ⟨pool', outer⟩ .silent := by
  obtain ⟨_, here, small, length⟩ := (ok.mark _ mem_cons_self).token
  obtain ⟨layout, -⟩ := ok.pool.layout here
  obtain ⟨pool', chain', finished, pool'Ok, kept⟩ := finishPop_ok layout here small (reached.symm.trans length)
  refine ⟨pool', finished, ⟨chain', contents, ok.finish pool'Ok fun mark isMark => ?_, .silent contents⟩, [], rfl⟩
  refine (ok.mark mark (mem_cons_of_mem _ isMark)).token.keep kept small ?_
  rw [← length]
  exact (pairwise_cons.mp ok.sorted).1 mark isMark

variable {target : Target}

/-- **A pop takes its next step.** -/
theorem popStep_ok (ok : Ok size ⟨pool, .pop target height :: outer⟩ chain contents) :
    ∃ after event, popStep size pool target height outer = some (after, event) ∧ StepOk size contents outer after event ∧
      ((∃ new obj, (new = [] ∨ new = [.user []]) ∧ after.frames = new ++ .pop target height :: outer ∧ event = .take obj) ∨
        after.frames = outer ∧ height = contents.length ∧ event = .silent) := by
  obtain ⟨tokenOk, large, -⟩ := ok.mark _ mem_cons_self
  cases target with
  | unused =>
    obtain rfl : height = 0 := tokenOk
    obtain rfl := ok.unused rfl
    have poolOk := ok.pool
    rw [popStep]
    by_cases placeholder : pool.tls = .emptyPoolPlaceholder
    · rw [PoolOk, placeholder] at poolOk
      obtain ⟨_, rfl, layout⟩ := poolOk
      rw [if_pos placeholder]
      refine ⟨_, _, rfl, ⟨⟨[], [], ⟨⟨rfl, rfl, layout.setTls _⟩, ok.sorted, ?_, by rintro ⟨⟩, ok.waiting, ok.unused⟩, .take 0 []⟩, [_], rfl⟩,
        Or.inl ⟨[], 0, Or.inl rfl, rfl, rfl⟩⟩
      refine forall_mem_cons.mpr ⟨⟨rfl, Nat.le_refl 0, by rintro ⟨⟩⟩, fun mark isMark => ?_⟩
      exact absurd ((pairwise_cons.mp ok.sorted).1 mark isMark) (Nat.not_lt_zero _)
    · have empty : contents = [] := by
        cases tls : pool.tls with
        | nil =>
          rw [PoolOk, tls] at poolOk
          exact poolOk.2.1
        | emptyPoolPlaceholder => exact absurd tls placeholder
        | page =>
          rw [PoolOk, tls] at poolOk
          obtain ⟨_, i, here, _⟩ := poolOk
          cases here
      rw [if_neg placeholder]
      refine ⟨_, _, rfl, ⟨⟨[], contents, finish_ok ok, Stack.Moves.silent contents⟩, [], rfl⟩, Or.inr ⟨rfl, ?_, rfl⟩⟩
      rw [empty]
      rfl
  | slot page stop =>
    obtain ⟨j, here, _, length⟩ := tokenOk
    obtain ⟨found, isPage, pageOk⟩ := (ok.pool.layout here).1.page here
    dsimp only at isPage length large
    have next := pageOk.next
    simp only [popStep, isPage, Option.bind_some]
    by_cases more : height < contents.length
    · obtain ⟨pool', obj, taken, boundaryOk, objectOk⟩ := take_ok room ok more
      rw [if_pos (show found.next ≠ stop by omega), taken, Option.map_some]
      by_cases isBoundary : obj = 0
      · simp only [if_pos isBoundary]
        exact ⟨_, _, rfl, boundaryOk isBoundary, Or.inl ⟨[], 0, Or.inl rfl, rfl, rfl⟩⟩
      · simp only [if_neg isBoundary]
        exact ⟨_, _, rfl, objectOk isBoundary, Or.inl ⟨_, obj, Or.inr rfl, rfl, rfl⟩⟩
    · have reached := Nat.le_antisymm large (Nat.not_lt.mp more)
      obtain ⟨pool', finished, stepOk⟩ := return_ok ok reached
      rw [if_neg (show ¬ found.next ≠ stop by omega), finished]
      exact ⟨_, _, rfl, stepOk, Or.inr ⟨rfl, reached, rfl⟩⟩

/-- What the code that is running may do: push, autorelease an object, pop a pool that it has pushed, and
return if it was called. -/
def Legal (thread : Thread) (action : Action) : Prop :=
  match thread.frames, action with
  | .user _ :: _, .push => True
  | .user _ :: _, .autorelease obj => obj ≠ 0
  | .user tokens :: _, .pop token => token ∈ tokens.map Prod.fst
  | .user _ :: outer, .finish => outer ≠ []
  | .pop _ _ :: _, _ => True
  | [], _ => False

variable {thread : Thread} {action : Action}

/-- **Every legal step succeeds.** -/
theorem step_ok (ok : Ok size thread chain contents) (legal : Legal thread action) (unused : thread.pool.pages fresh.address = none)
    (running : thread.frames = frame :: rest) :
    ∃ after event, step size fresh action thread = some (after, event) ∧ StepOk size contents rest after event := by
  obtain ⟨pool, frames⟩ := thread
  obtain rfl : frames = frame :: rest := running
  cases frame with
  | pop =>
    obtain ⟨after, event, taken, stepOk, _⟩ := popStep_ok room ok
    exact ⟨after, event, taken, stepOk⟩
  | user tokens =>
    simp only [step]
    cases action with
    | push =>
      obtain ⟨pool', token, added, _, pushed⟩ := put_ok room ok unused 0
      rw [userStep, added]
      exact ⟨_, _, rfl, pushed rfl⟩
    | autorelease obj =>
      obtain ⟨pool', token, added, stepOk, _⟩ := put_ok room ok unused obj
      have isObject : obj ≠ 0 := legal
      rw [userStep, if_neg isObject, added]
      exact ⟨_, _, rfl, stepOk⟩
    | pop token =>
      obtain ⟨pushed, inTokens, rfl⟩ := mem_map.mp (show token ∈ tokens.map Prod.fst from legal)
      cases drops : tokens.dropWhile (fun other => other.1 ≠ pushed.1) with
      | nil =>
        have all := dropWhile_eq_nil_iff.mp drops pushed inTokens
        simp at all
      | cons =>
        obtain ⟨target, isTarget, popping⟩ := beginPop_ok room ok drops
        refine ⟨_, _, ?_, ⟨chain, contents, popping, Stack.Moves.silent contents⟩, [_, _], rfl⟩
        simp only [userStep, drops, isTarget, Option.map_some]
    | finish =>
      obtain _ | ⟨_, _⟩ := rest
      · exact absurd rfl (show ([] : List Frame) ≠ [] from legal)
      · exact ⟨_, _, rfl, ⟨chain, contents, finish_ok ok, Stack.Moves.silent contents⟩, [], rfl⟩

omit room in
theorem legal_of_step (taken : step size fresh action thread = some (after, event)) :
    Legal thread action ∧ ∃ frame rest, thread.frames = frame :: rest := by
  obtain ⟨_, frames⟩ := thread
  match frames, action with
  | [], _ => cases taken
  | .pop _ _ :: _, _ => exact ⟨trivial, _, _, rfl⟩
  | .user _ :: _, .push => exact ⟨trivial, _, _, rfl⟩
  | .user _ :: _, .autorelease obj =>
    refine ⟨?_, _, _, rfl⟩
    rintro rfl
    cases taken
  | .user tokens :: _, .pop token =>
    refine ⟨?_, _, _, rfl⟩
    simp only [step, userStep] at taken
    cases drops : tokens.dropWhile (fun other => other.1 ≠ token) with
    | nil =>
      rw [drops] at taken
      cases taken
    | cons =>
      obtain ⟨rfl, suffix⟩ := popped_token drops
      exact mem_map_of_mem (suffix.mem mem_cons_self)
  | .user _ :: outer, .finish =>
    refine ⟨?_, _, _, rfl⟩
    rintro rfl
    cases taken

theorem taken_ok (ok : Ok size thread chain contents) (unused : thread.pool.pages fresh.address = none)
    (taken : step size fresh action thread = some (after, event)) :
    ∃ frame rest, thread.frames = frame :: rest ∧ StepOk size contents rest after event := by
  obtain ⟨legal, frame, rest, running⟩ := legal_of_step taken
  obtain ⟨_, _, taken', stepOk⟩ := step_ok room ok legal unused running
  obtain ⟨rfl, rfl⟩ := Prod.mk.inj (Option.some.inj (taken'.symm.trans taken))
  exact ⟨frame, rest, running, stepOk⟩

/-! ## Runs -/

variable {events : List (Stack.Event Nat)}

/-- **Every run is a run of the plain stack.** -/
theorem Run.ok {inside : Thread → Prop} (run : Run size inside thread events after) (ok : Ok size thread chain contents)
    : ∃ chain' contents', Ok size after chain' contents' ∧ Stack.Runs events contents contents' := by
  induction run with
  | done => exact ⟨chain, contents, ok, Stack.Runs.done contents⟩
  | step _ _ _ _ unused taken ih =>
    obtain ⟨_, _, ok₁, runs⟩ := ih
    obtain ⟨_, _, _, stepOk⟩ := taken_ok room ok₁ unused taken
    obtain ⟨chain₂, contents₂, ok₂, moves⟩ := stepOk.ok
    exact ⟨chain₂, contents₂, ok₂, runs.step moves⟩

/-- A pop is still running, or it has come to its boundary and returned. -/
def Reaches (target : Target) (height : Nat) (outer : List Frame) (thread : Thread) (contents : List Nat) : Prop :=
  (∃ upper, thread.frames = upper ++ .pop target height :: outer) ∨ thread.frames = outer ∧ height = contents.length

/-- **A pop that returns** has taken off everything down to its boundary and nothing below. -/
theorem Run.pop (ok : Ok size thread chain contents) (frames : thread.frames = .pop target height :: outer)
    (run : Run size (fun thread => outer.length < thread.frames.length) thread events after)
    (returned : after.frames.length = outer.length) :
    ∃ chain', Ok size after chain' (contents.take height) ∧ Stack.Runs events contents (contents.take height) := by
  suffices along : ∃ chain' contents', Ok size after chain' contents' ∧ Stack.Runs events contents contents' ∧
      contents'.take height = contents.take height ∧ height ≤ contents'.length ∧ Reaches target height outer after contents' by
    obtain ⟨chain', contents', ok', runs, same, _, ⟨upper, still⟩ | ⟨_, reached⟩⟩ := along
    · rw [still, length_append, length_cons] at returned
      omega
    · rw [reached, take_length] at same
      rw [reached, ← same]
      exact ⟨chain', ok', runs⟩
  clear returned
  induction run with
  | done =>
    have isMark : (target.token, height) ∈ marks thread.frames := by
      rw [frames]
      exact mem_cons_self
    exact ⟨chain, contents, ok, Stack.Runs.done contents, rfl, (ok.mark _ isMark).large, Or.inl ⟨[], frames⟩⟩
  | @step between after _ _ _ _ _ inside unused taken ih =>
    obtain ⟨_, _, ok₁, runs, same, large, position⟩ := ih
    -- the pop has not returned before the step
    obtain ⟨upper, still⟩ := position.resolve_right fun gone => by
      rw [gone.1] at inside
      exact absurd inside (Nat.lt_irrefl _)
    obtain ⟨_, _, running, stepOk⟩ := taken_ok room ok₁ unused taken
    obtain ⟨chain₂, contents₂, ok₂, moves⟩ := stepOk.ok
    suffices reaches : height ≤ contents₂.length ∧ Reaches target height outer after contents₂ from
      ⟨chain₂, contents₂, ok₂, runs.step moves, (moves.take_eq large reaches.1).trans same, reaches⟩
    have stays : (∃ upper, after.frames = upper ++ .pop target height :: outer) → height ≤ contents₂.length := by
      rintro ⟨_, here⟩
      refine (ok₂.mark (target.token, height) ?_).large
      rw [here]
      exact mem_flatMap.mpr ⟨_, mem_append_right _ mem_cons_self, mem_cons_self⟩
    obtain _ | ⟨_, upper⟩ := upper
    · obtain ⟨_, frames₁⟩ := between
      obtain rfl : frames₁ = .pop target height :: outer := still
      obtain ⟨_, _, taken', _, position'⟩ := popStep_ok room ok₁
      obtain ⟨rfl, rfl⟩ := Prod.mk.inj (Option.some.inj (taken'.symm.trans taken))
      obtain ⟨new, _, _, here, _⟩ | ⟨gone, reached, rfl⟩ := position'
      · exact ⟨stays ⟨new, here⟩, Or.inl ⟨new, here⟩⟩
      · cases moves
        exact ⟨large, Or.inr ⟨gone, reached⟩⟩
    · obtain ⟨rfl, rfl⟩ := cons.inj (running.symm.trans still)
      obtain ⟨new, newFrames⟩ := stepOk.frames
      have here : ∃ upper, after.frames = upper ++ .pop target height :: outer := ⟨new ++ upper, newFrames.trans (append_assoc _ _ _).symm⟩
      exact ⟨stays here, Or.inl here⟩

omit room in
/-- There is always memory that is not in use. -/
theorem exists_fresh (ok : PoolOk size pool chain contents) : ∃ fresh : Fresh, pool.pages fresh.address = none := by
  obtain ⟨used, layout⟩ : ∃ used left, Layout size pool used left := by
    rw [PoolOk] at ok
    split at ok
    · exact ⟨_, _, ok.2.2⟩
    · exact ⟨_, _, ok.2.2⟩
    · exact ⟨_, _, ok.1⟩
  obtain ⟨left, layout⟩ := layout
  obtain ⟨address, notUsed⟩ := Infinite.exists_notMem_finset used.toFinset
  refine ⟨⟨address, fun _ => 0⟩, ?_⟩
  cases found : pool.pages address with
  | none => rfl
  | some page => exact absurd (mem_toFinset.mpr (layout.only address page found)) notUsed

/-- A pop returns, or takes off the top and goes on after the release. -/
theorem Run.turn {between : Thread} (ok : Ok size between chain contents) (frames : between.frames = .pop target height :: outer)
    (run : Run size (fun thread => outer.length < thread.frames.length) thread events between) :
    ∃ events' after, Run size (fun thread => outer.length < thread.frames.length) thread events' after ∧ (after.frames = outer ∨
        ∃ chain' contents', Ok size after chain' contents' ∧ after.frames = .pop target height :: outer ∧
          contents'.length + 1 = contents.length) := by
  obtain ⟨pool, current⟩ := between
  obtain rfl : current = .pop target height :: outer := frames
  obtain ⟨fresh, unused⟩ := exists_fresh ok.pool
  obtain ⟨after, _, taken, stepOk, position⟩ := popStep_ok room ok
  have run' := run.step fresh .finish (Nat.lt_succ_self _) unused taken
  obtain ⟨_, _, shape, here, rfl⟩ | ⟨returned, _⟩ := position
  · obtain ⟨chain', contents', ok', moves⟩ := stepOk.ok
    have shorter : contents'.length + 1 = contents.length := by
      cases moves
      rw [length_append]
      rfl
    obtain rfl | rfl := shape
    · exact ⟨_, after, run', Or.inr ⟨chain', contents', ok', here, shorter⟩⟩
    · -- the release returns
      obtain ⟨_, frames'⟩ := after
      obtain rfl : frames' = .user [] :: .pop target height :: outer := here
      obtain ⟨fresh', unused'⟩ := exists_fresh ok'.pool
      have released := run'.step fresh' .finish (Nat.lt_succ_of_lt (Nat.lt_succ_self _)) unused' rfl
      exact ⟨_, _, released, Or.inr ⟨chain', contents', finish_ok ok', rfl, shorter⟩⟩
  · exact ⟨_, after, run', Or.inl returned⟩

/-- **A pop returns** if the releases that it makes do. -/
theorem Run.returns : ∀ (n : Nat) {thread between : Thread} {events : List (Stack.Event Nat)} {chain contents : List Nat},
      Ok size between chain contents → between.frames = .pop target height :: outer → contents.length < height + n →
      Run size (fun thread => outer.length < thread.frames.length) thread events between →
      ∃ events' after, Run size (fun thread => outer.length < thread.frames.length) thread events' after ∧ after.frames = outer := by
  intro n
  induction n with
  | zero =>
    intro thread between events chain contents ok frames short _
    exact absurd (ok.mark (target.token, height) (by rw [frames]; exact mem_cons_self)).large (Nat.not_le.mpr short)
  | succ _ ih =>
    intro thread between events chain contents ok frames short run
    obtain ⟨events', after, run', returned | ⟨_, _, ok', frames', _⟩⟩ := run.turn room ok frames
    · exact ⟨events', after, run', returned⟩
    · exact ih ok' frames' (by omega) run'

omit room

/-- The calls of `objc_release`, in their order. -/
def released (events : List (Stack.Event Nat)) : List Nat := (Stack.takes events).filter (· ≠ 0)

/-- The calls of `autorelease`. -/
def autoreleased (events : List (Stack.Event Nat)) : List Nat := (Stack.puts events).filter (· ≠ 0)

theorem perm_released {below above : List Nat} (runs : Stack.Runs events (below ++ 0 :: above) below) :
    (released events).Perm (above.filter (· ≠ 0) ++ autoreleased events) := by
  have perm := runs.perm
  rw [append_assoc, perm_append_left_iff] at perm
  have objects := (perm.filter (· ≠ 0)).symm
  rwa [cons_append, filter_cons_of_neg (by decide), filter_append] at objects

/-- **The autorelease pool pages of a thread are a stack.** In every run, whatever the releases do, the
contents of the pages are what a plain stack holds after the same events, and whatever the running code may
do next succeeds. A pop returns if its releases do, and when it returns it has taken off, from the top down, what was above its boundary and what
was autoreleased in the meantime, each once, and the boundary; what was below is as it was. -/
theorem autorelease_pool_is_stack (room : 2 ≤ capacity size) {events : List (Stack.Event Nat)} {thread : Thread}
    (run : Run size (fun _ => True) start events thread) : Stack.Runs events [] thread.pool.contents ∧
    (∀ fresh action, thread.pool.pages fresh.address = none → Legal thread action → (step size fresh action thread).isSome = true) ∧
    ∀ tokens outer token, thread.frames = .user tokens :: outer → ∀ fresh popping event, thread.pool.pages fresh.address = none →
        step size fresh (.pop token) thread = some (popping, event) →
        (∃ events' after, Run size (fun thread => outer.length + 1 < thread.frames.length) popping events' after ∧
          after.frames.length = outer.length + 1) ∧
        ∀ events' after, Run size (fun thread => outer.length + 1 < thread.frames.length) popping events' after →
          after.frames.length = outer.length + 1 →
          ∃ below above, (token, below.length) ∈ tokens ∧ thread.pool.contents = below ++ 0 :: above ∧
            after.pool.contents = below ∧ Stack.Runs events' thread.pool.contents below ∧
            (released events').Perm (above.filter (· ≠ 0) ++ autoreleased events') := by
  obtain ⟨_, contents, ok, runs⟩ := run.ok room start_ok
  rw [ok.pool.contents_eq]
  refine ⟨runs, fun fresh action unused legal => ?_, ?_⟩
  · obtain ⟨frame, rest, running⟩ : ∃ frame rest, thread.frames = frame :: rest := by
      cases frames : thread.frames with
      | nil => simp only [Legal, frames] at legal
      | cons frame rest => exact ⟨frame, rest, rfl⟩
    obtain ⟨_, _, taken, _⟩ := step_ok room ok legal unused running
    rw [taken]
    rfl
  · intro tokens outer token running fresh popping event _ taken
    obtain ⟨pool, frames⟩ := thread
    obtain rfl : frames = .user tokens :: outer := running
    simp only [step, userStep] at taken
    cases drops : tokens.dropWhile (fun pushed => pushed.1 ≠ token) with
    | nil =>
      rw [drops] at taken
      cases taken
    | cons found =>
      obtain ⟨_, height⟩ := found
      obtain ⟨_, isTarget, popOk⟩ := beginPop_ok room ok drops
      obtain ⟨rfl, suffix⟩ := popped_token drops
      simp only [drops, isTarget, Option.map_some] at taken
      obtain ⟨rfl, _⟩ := Prod.mk.inj (Option.some.inj taken)
      obtain ⟨events', after, run', returned⟩ := Run.returns room (contents.length + 1) popOk rfl (by omega) (Run.done _)
      refine ⟨⟨events', after, run', congrArg length returned⟩, ?_⟩
      intro events' after run' returned
      obtain ⟨_, after', runs'⟩ := Run.pop room popOk rfl run' returned
      have pushed := suffix.mem mem_cons_self
      have isMark := mem_append_left (marks outer) pushed
      have boundary := (ok.mark _ isMark).boundary (ok.user trivial _ isMark)
      have bound := lt_of_index boundary
      have split : contents = contents.take height ++ 0 :: contents.drop (height + 1) := by
        conv_lhs => rw [← take_append_drop height contents]
        congr 1
        exact drop_eq_getElem?_toList_append ▸ (by rw [boundary]; rfl)
      have length : (contents.take height).length = height := by rw [length_take]; omega
      have whole : Stack.Runs events' (contents.take height ++ 0 :: contents.drop (height + 1)) (contents.take height) := by
        rw [← split]
        exact runs'
      exact ⟨contents.take height, contents.drop (height + 1), by rw [length]; exact pushed, split,
        after'.pool.contents_eq, runs', perm_released whole⟩

/-- **`releaseUntil` never meets two empty pages in a row**: the inner `while` could be an `if`. -/
theorem releaseUntil_meets_one_empty_page (room : 2 ≤ capacity size) {events : List (Stack.Event Nat)} {thread : Thread}
    (run : Run size (fun _ => True) start events thread) {address stop height : Nat} {outer : List Frame}
    (popping : thread.frames = .pop (.slot address stop) height :: outer) {this : Page} (isThis : thread.pool.pages address = some this)
    (more : this.next ≠ stop) : ∃ hot page, thread.pool.hotPage = some hot ∧ thread.pool.pages hot = some page ∧
      (page.empty → ∃ parent page', page.parent = some parent ∧ thread.pool.pages parent = some page' ∧ ¬ page'.empty) ∧
      ∃ result, Pool.skipEmpty 2 thread.pool hot = some result := by
  obtain ⟨_, contents, ok, -⟩ := run.ok room start_ok
  obtain ⟨⟨j, here, -, _⟩, large, -⟩ := ok.mark (.slot address stop, height) (by rw [popping]; exact mem_cons_self)
  have poolOk := ok.pool
  obtain ⟨layout, hot, tls⟩ := poolOk.layout here
  obtain ⟨_, isThis', thisOk⟩ := layout.page here
  obtain rfl := Option.some.inj (isThis.symm.trans isThis')
  rw [PoolOk, tls] at poolOk
  obtain ⟨-, i, there, start, stop⟩ := poolOk
  obtain ⟨page, found, _⟩ := layout.page there
  have some' : contents ≠ [] := by
    rintro rfl
    have next := thisOk.next
    simp only [length_nil] at large next
    omega
  refine ⟨hot, page, by rw [Pool.hotPage, tls], found, fun empty => ?_, ?_⟩
  · obtain ⟨-, parent, page', -, -, -, up⟩ := layout.parent_ok (by omega) there start some' found empty
    exact ⟨parent, page', up⟩
  · obtain ⟨_, -, address, skipped, -⟩ := skipEmpty_ok layout (by omega) 0 there start stop some'
    rw [← tls] at skipped
    exact ⟨_, skipped⟩

/-- Steps with the next free number as the address of a new page. -/
def runAll (size : Nat) : List Action → Thread → Option (Thread × List (Stack.Event Nat))
  | [], thread => some (thread, [])
  | action :: actions, thread =>
    (runAll size actions thread).bind fun (between, events) =>
      let fresh : Fresh := ⟨between.pool.allocated, fun _ => 0⟩
      if (between.pool.pages fresh.address).isNone then
        (step size fresh action between).map fun (after, event) => (after, events ++ [event])
      else none

theorem runAll_run {actions : List Action} : ∀ {thread after : Thread} {events : List (Stack.Event Nat)},
    runAll size actions thread = some (after, events) → Run size (fun _ => True) thread events after := by
  induction actions with
  | nil =>
    intro thread after events done
    cases done
    exact Run.done thread
  | cons action _ ih =>
    intro thread after events done
    obtain ⟨⟨_, _⟩, first, last⟩ := Option.bind_eq_some_iff.mp done
    simp only at last
    split at last
    next unused =>
      obtain ⟨⟨_, _⟩, taken, same⟩ := Option.map_eq_some_iff.mp last
      cases same
      exact Run.step _ action (ih first) trivial (Option.isNone_iff_eq_none.mp unused) taken
    next => cases last

/-- Two pools with an object each, the last action first. -/
theorem autorelease_pool_is_stack_two :
    ∃ (thread : Thread) (events : List (Stack.Event Nat)), thread.pool.contents = [0, 7, 0, 8] ∧ Stack.Runs events [] [0, 7, 0, 8] := by
  have ran : (runAll 4096 [.autorelease 8, .push, .autorelease 7, .push] start).map (fun after => after.1.pool.contents) =
      some [0, 7, 0, 8] := by
    decide +kernel
  obtain ⟨⟨thread, events⟩, done, contents⟩ := Option.map_eq_some_iff.mp ran
  have runs := (autorelease_pool_is_stack (by decide) (runAll_run done)).1
  exact ⟨thread, events, contents, contents ▸ runs⟩

/-- The pool of an object is popped. -/
theorem releaseUntil_meets_one_empty_page_first : ∃ thread : Thread, thread.frames = [.pop (.slot 0 0) 0, .user []] ∧
    ∃ hot result, Pool.skipEmpty 2 thread.pool hot = some result := by
  obtain ⟨pool, events, this, done, isThis, more⟩ : ∃ pool events this, runAll 4096 [.pop .emptyPoolPlaceholder, .autorelease 7, .push] start =
      some (⟨pool, [.pop (.slot 0 0) 0, .user []]⟩, events) ∧ pool.pages 0 = some this ∧ this.next ≠ 0 := ⟨_, _, _, rfl, rfl, by decide⟩
  obtain ⟨hot, _, _, _, _, once⟩ := releaseUntil_meets_one_empty_page (by decide) (runAll_run done) rfl isThis more
  exact ⟨_, rfl, hot, once⟩

end DarwinNotes.Objc.Autorelease
