import DarwinNotes.Objc.Autorelease.Model

/-!
# The pages hold a list

The pages in their order hold consecutive parts of one list, each as long as a page
until the list ends. So the pages before the hot page are full and those after it are
empty. Each function on the pages is described by what it does to the list.
-/

namespace DarwinNotes.Objc.Autorelease
open Function List

variable {size : Nat}

/-- The `j`-th page of a chain, and the part of the contents in it. -/
structure PageOk (size : Nat) (chain contents : List Nat) (j : Nat) (page : Page) : Prop where
  parent : page.parent = if j = 0 then none else chain[j - 1]?
  child : page.child = chain[j + 1]?
  next : page.next = min (capacity size) (contents.length - j * capacity size)
  slots : ∀ i < page.next, contents[j * capacity size + i]? = some (page.slots i)

/-- The pages are this chain and hold these contents. -/
structure Layout (size : Nat) (pool : Pool) (chain contents : List Nat) : Prop where
  nodup : chain.Nodup
  count : pool.allocated = chain.length
  only : ∀ address page, pool.pages address = some page → address ∈ chain
  page : ∀ {j address : Nat}, chain[j]? = some address → ∃ page, pool.pages address = some page ∧ PageOk size chain contents j page
  fits : contents.length ≤ chain.length * capacity size

variable {pool : Pool} {chain contents : List Nat} {j k : Nat}

theorem pages_before (before : j < k) (capacity : Nat) : j * capacity + capacity ≤ k * capacity := by
  have := Nat.mul_le_mul_right capacity (show j + 1 ≤ k from before)
  rwa [Nat.add_mul, Nat.one_mul] at this

variable {address : Nat}

theorem index_inj (nodup : chain.Nodup) (atJ : chain[j]? = some address) (atK : chain[k]? = some address) : j = k := by
  obtain ⟨small, _⟩ := List.getElem?_eq_some_iff.mp atJ
  exact (getElem?_inj small nodup).mp (atJ.trans atK.symm)

theorem lt_of_index (here : chain[j]? = some address) : j < chain.length := (List.getElem?_eq_some_iff.mp here).1

theorem exists_parent (here : chain[j + 1]? = some address) : ∃ parent, chain[j]? = some parent :=
  ⟨_, getElem?_eq_getElem (Nat.lt_of_succ_lt (lt_of_index here))⟩

/-- A page depends on the contents only through its own part. -/
theorem PageOk.congr {contents' : List Nat} {page : Page} (ok : PageOk size chain contents j page)
    (length : min (capacity size) (contents'.length - j * capacity size) = min (capacity size) (contents.length - j * capacity size))
    (same : ∀ n < contents.length, n < contents'.length → contents'[n]? = contents[n]?) : PageOk size chain contents' j page where
  parent := ok.parent
  child := ok.child
  next := ok.next.trans length.symm
  slots i small := by
    have next := ok.next
    rw [same _ (by omega) (by omega)]
    exact ok.slots i small

/-- A page depends on the chain only through its links. -/
theorem PageOk.relink {chain' : List Nat} {page : Page} {child : Option Nat} (ok : PageOk size chain contents j page)
    (same : ∀ i < j, chain'[i]? = chain[i]?) (isChild : child = chain'[j + 1]?) : PageOk size chain' contents j { page with child := child } where
  parent := by
    rw [ok.parent]
    split
    · rfl
    · rw [same _ (by omega)]
  child := isChild
  next := ok.next
  slots := ok.slots

theorem setPage_self (address : Nat) (page : Page) : (pool.setPage address page).pages address = some page := update_self _ _ _

theorem setPage_of_ne {other : Nat} (page : Page) (different : other ≠ address) :
    (pool.setPage address page).pages other = pool.pages other := update_of_ne different _ _

variable (layout : Layout size pool chain contents)
include layout

/-- One page changes, and the contents with it. -/
theorem Layout.setPage {contents' : List Nat} {page : Page} (here : chain[j]? = some address) (ok : PageOk size chain contents' j page)
    (others : ∀ k ≠ j, min (capacity size) (contents'.length - k * capacity size) = min (capacity size) (contents.length - k * capacity size))
    (same : ∀ n < contents.length, n < contents'.length → contents'[n]? = contents[n]?)
    (fits : contents'.length ≤ chain.length * capacity size) : Layout size (pool.setPage address page) chain contents' where
  nodup := layout.nodup
  count := layout.count
  only := by
    intro other page' found
    by_cases this : other = address
    · exact this ▸ mem_of_getElem? here
    · exact layout.only other page' (by rwa [setPage_of_ne page this] at found)
  page := by
    intro k other there
    by_cases this : k = j
    · subst this
      obtain rfl : other = address := Option.some.inj (there.symm.trans here)
      exact ⟨page, setPage_self _ _, ok⟩
    · obtain ⟨page', found, ok'⟩ := layout.page there
      have different : other ≠ address := by
        rintro rfl
        exact this (index_inj layout.nodup there here)
      exact ⟨page', (setPage_of_ne page different).trans found, ok'.congr (others k this) same⟩
  fits := fits

omit layout in
/-- The contents grow or shrink by one entry on the page where they end. -/
theorem other_pages {n capacity : Nat} (start : j * capacity ≤ n) (stop : n < j * capacity + capacity) (other : k ≠ j) :
    min capacity (n + 1 - k * capacity) = min capacity (n - k * capacity) := by
  obtain before | after := Nat.lt_or_gt_of_ne other
  · have := pages_before before capacity
    omega
  · have := pages_before after capacity
    omega

/-! ## Adding -/

variable {i : Nat}

theorem add_ok (obj : Nat) (here : chain[i]? = some address) (start : i * capacity size ≤ contents.length)
    (stop : contents.length < i * capacity size + capacity size) :
    ∃ pool', pool.add size address obj = some (pool', .slot address (contents.length - i * capacity size)) ∧
      Layout size pool' chain (contents ++ [obj]) ∧ pool'.tls = pool.tls := by
  obtain ⟨page, found, ok⟩ := layout.page here
  have next : page.next = contents.length - i * capacity size := by rw [ok.next]; omega
  have room : ¬ page.full size := by rw [Page.full]; omega
  refine ⟨pool.setPage address { page with next := page.next + 1, slots := update page.slots page.next obj },
    by rw [Pool.add, found, Option.bind_some, if_neg room, next], ?_, rfl⟩
  refine layout.setPage here ⟨ok.parent, ok.child, ?_, fun j small => ?_⟩ (fun k other => ?_) (fun n old _ => ?_) ?_
  · show page.next + 1 = _
    rw [length_append, length_singleton]
    omega
  · have small : j < page.next + 1 := small
    by_cases last : j = page.next
    · rw [last]
      simp only [update_self]
      rw [next, Nat.add_sub_cancel' start, getElem?_concat_length]
    · have old : j < page.next := by omega
      simp only [update_of_ne last]
      rw [getElem?_append_left (by omega), ok.slots j old]
  · rw [length_append]
    exact other_pages start stop other
  · rw [getElem?_append_left old]
  · have := lt_of_index here
    have := pages_before this (capacity size)
    rw [length_append, length_singleton]
    omega

variable {fresh : Fresh}

omit layout in
theorem newPage_first (layout : Layout size pool [] []) (unused : pool.pages fresh.address = none) :
    ∃ pool', pool.newPage none fresh = some pool' ∧ Layout size pool' [fresh.address] [] ∧ pool'.tls = pool.tls := by
  have nothing : ∀ address, pool.pages address = none := by
    intro address
    cases found : pool.pages address with
    | none => rfl
    | some page => exact absurd (layout.only address page found) not_mem_nil
  simp only [Pool.newPage, unused, Option.isSome_none, Bool.false_eq_true, if_false]
  refine ⟨_, rfl, ⟨nodup_singleton _, ?_, fun address page found => ?_, fun {j address} here => ?_, Nat.zero_le _⟩, rfl⟩
  · rw [layout.count]
    rfl
  · by_cases this : address = fresh.address
    · exact mem_singleton.mpr this
    · exact nomatch found.symm.trans ((setPage_of_ne _ this).trans (nothing address))
  · obtain rfl : j = 0 := by
      have := lt_of_index here
      rw [length_singleton] at this
      omega
    obtain rfl : fresh.address = address := Option.some.inj here
    refine ⟨_, setPage_self _ _, rfl, rfl, ?_, fun i small => absurd small (Nat.not_lt_zero i)⟩
    simp

theorem newPage_next (unused : pool.pages fresh.address = none) (last : chain[i]? = some address) (end' : i + 1 = chain.length)
    : ∃ pool', pool.newPage (some address) fresh = some pool' ∧
      Layout size pool' (chain ++ [fresh.address]) contents ∧ pool'.tls = pool.tls := by
  obtain ⟨page, found, ok⟩ := layout.page last
  have childless : page.child = none := by rw [ok.child, getElem?_eq_none (by omega)]
  have new : fresh.address ∉ chain := by
    intro inChain
    obtain ⟨j, there⟩ := getElem?_of_mem inChain
    obtain ⟨page', found', _⟩ := layout.page there
    exact nomatch unused.symm.trans found'
  have different : fresh.address ≠ address := by
    rintro rfl
    exact new (mem_of_getElem? last)
  have fits := layout.fits
  simp only [Pool.newPage, unused, found, Option.bind_some, childless, Option.isSome_none, Bool.false_eq_true, if_false]
  refine ⟨_, rfl, ⟨?_, ?_, fun other page' found' => ?_, fun {j other} there => ?_, ?_⟩, rfl⟩
  · exact nodup_append.mpr ⟨layout.nodup, nodup_singleton _, fun a inChain b isNew same => new (mem_singleton.mp isNew ▸ same ▸ inChain)⟩
  · rw [layout.count, length_append]
    rfl
  · by_cases this : other = address
    · exact mem_append_left _ (this ▸ mem_of_getElem? last)
    · by_cases that : other = fresh.address
      · exact mem_append_right _ (mem_singleton.mpr that)
      · have old := ((setPage_of_ne _ this).trans (setPage_of_ne _ that)).symm.trans found'
        exact mem_append_left _ (layout.only other page' old)
  · have bound := lt_of_index there
    rw [length_append, length_singleton] at bound
    by_cases isNew : j = chain.length
    · subst isNew
      rw [getElem?_concat_length] at there
      cases there
      refine ⟨_, (setPage_of_ne _ different).trans (setPage_self _ _), ?_, ?_, ?_, fun i small => absurd small (Nat.not_lt_zero i)⟩
      · rw [if_neg (by omega), getElem?_append_left (by omega), show chain.length - 1 = i by omega, last]
      · rw [getElem?_eq_none (by simp)]
      · show 0 = _
        omega
    · have old : j < chain.length := by omega
      rw [getElem?_append_left old] at there
      by_cases this : j = i
      · subst this
        obtain rfl := Option.some.inj (last.symm.trans there)
        refine ⟨_, setPage_self _ _, ok.relink (fun i small => getElem?_append_left (by omega)) ?_⟩
        rw [end', getElem?_concat_length]
      · obtain ⟨page', found', ok'⟩ := layout.page there
        have notLast : other ≠ address := by
          rintro rfl
          exact this (index_inj layout.nodup there last)
        have notNew : other ≠ fresh.address := by
          rintro rfl
          exact new (mem_of_getElem? there)
        refine ⟨page', ((setPage_of_ne _ notLast).trans (setPage_of_ne _ notNew)).trans found', ok'.relink (fun i small => ?_) ?_⟩
        · exact getElem?_append_left (by omega)
        · rw [getElem?_append_left (by omega), ok'.child]
  · rw [length_append, length_singleton, Nat.add_mul]
    omega

/-- A chain that goes on where another ends. -/
def Extends (chain chain' : List Nat) : Prop := ∀ {j address : Nat}, chain[j]? = some address → chain'[j]? = some address

omit layout in
theorem Extends.refl (chain : List Nat) : Extends chain chain := fun here => here

omit layout in
theorem extends_append (chain chain' : List Nat) : Extends chain (chain ++ chain') := by
  intro j address here
  rw [getElem?_append_left (lt_of_index here), here]

/-- **The page after a full hot page** is the next one of the chain, which is empty, or a new one. -/
theorem nonFullPage_ok (room : 0 < capacity size) (fuel : Nat) (unused : pool.pages fresh.address = none)
    (here : chain[i]? = some address) (full : contents.length = i * capacity size + capacity size) :
    ∃ pool' chain' address', Pool.nonFullPage size fresh (fuel + 1) pool address = some (pool', address') ∧
      Layout size pool' chain' contents ∧ chain'[i + 1]? = some address' ∧ Extends chain chain' := by
  obtain ⟨page, found, ok⟩ := layout.page here
  -- the page found is empty
  have stops : ∀ {pool' : Pool} {chain' : List Nat} {address' : Nat}, Layout size pool' chain' contents →
      chain'[i + 1]? = some address' → ∃ page', pool'.pages address' = some page' ∧ ¬ page'.full size := by
    intro pool' chain' address' layout' there
    obtain ⟨page', found', ok'⟩ := layout'.page there
    have next := ok'.next
    rw [Nat.add_mul, Nat.one_mul] at next
    refine ⟨page', found', ?_⟩
    rw [Page.full]
    omega
  rw [Pool.nonFullPage, found, Option.bind_some]
  cases child : page.child with
  | some address' =>
    have there := ok.child.symm.trans child
    obtain ⟨page', found', notFull⟩ := stops layout there
    refine ⟨pool, chain, address', ?_, layout, there, Extends.refl chain⟩
    simp only [Option.bind_some, found', if_neg notFull]
  | none =>
    have last : i + 1 = chain.length := by
      have := lt_of_index here
      have := List.getElem?_eq_none_iff.mp (ok.child.symm.trans child)
      omega
    obtain ⟨pool', made, layout', _⟩ := newPage_next layout unused here last
    have there : (chain ++ [fresh.address])[i + 1]? = some fresh.address := by rw [last, getElem?_concat_length]
    obtain ⟨page', found', notFull⟩ := stops layout' there
    refine ⟨pool', _, fresh.address, ?_, layout', there, extends_append _ _⟩
    simp only [made, Option.map_some, Option.bind_some, found', if_neg notFull]

/-! ## The thread local variable -/

/-- The contents of the pages up to the hot page are these; the placeholder is one boundary. -/
def PoolOk (size : Nat) (pool : Pool) (chain contents : List Nat) : Prop :=
  match pool.tls with
  | .nil => chain = [] ∧ contents = [] ∧ Layout size pool [] []
  | .emptyPoolPlaceholder => chain = [] ∧ contents = [0] ∧ Layout size pool [] []
  | .page hot => Layout size pool chain contents ∧ ∃ i, chain[i]? = some hot ∧ i * capacity size ≤ contents.length ∧
      contents.length ≤ i * capacity size + capacity size

/-- A token is that of the boundary with so many entries below it. -/
def TokenOk (size : Nat) (chain : List Nat) (height : Nat) : Token → Prop
  | .emptyPoolPlaceholder => height = 0
  | .slot page index => ∃ j, chain[j]? = some page ∧ index < capacity size ∧ height = j * capacity size + index

omit layout in
theorem TokenOk.extend {chain' : List Nat} {height : Nat} {token : Token} (ok : TokenOk size chain height token)
    (extended : Extends chain chain') : TokenOk size chain' height token := by
  cases token with
  | emptyPoolPlaceholder => exact ok
  | slot =>
    obtain ⟨j, here, rest⟩ := ok
    exact ⟨j, extended here, rest⟩

omit layout in
theorem emptyPool_ok : PoolOk size emptyPool [] [] := ⟨rfl, rfl, nodup_nil, rfl, nofun, nofun, Nat.zero_le _⟩

theorem Layout.setTls (tls : Tls) : Layout size { pool with tls := tls } chain contents :=
  { layout with }

/-- A page with room for it takes the entry and is the hot page. -/
theorem add_hot (obj : Nat) (here : chain[i]? = some address) (start : i * capacity size ≤ contents.length)
    (stop : contents.length < i * capacity size + capacity size) :
    ∃ pool' token, (pool.setHotPage address).add size address obj = some (pool', token) ∧
      pool'.tls = .page address ∧ Layout size pool' chain (contents ++ [obj]) ∧
      PoolOk size pool' chain (contents ++ [obj]) ∧ TokenOk size chain contents.length token := by
  obtain ⟨pool', added, layout', tls⟩ := add_ok (layout.setTls (.page address)) obj here start stop
  refine ⟨pool', _, added, tls, layout', ?_, i, here, by omega, by omega⟩
  rw [PoolOk, tls]
  refine ⟨layout', i, here, ?_, ?_⟩ <;> rw [length_append, length_singleton] <;> omega

omit layout in
/-- **`autoreleaseFast` puts an entry on the stack.** -/
theorem autoreleaseFast_ok (room : 2 ≤ capacity size) (ok : PoolOk size pool chain contents) (unused : pool.pages fresh.address = none)
    (obj : Nat) : ∃ pool' token chain', pool.autoreleaseFast size obj fresh = some (pool', token) ∧
      PoolOk size pool' chain' (contents ++ [obj]) ∧ (obj = 0 → TokenOk size chain' contents.length token) ∧ Extends chain chain' := by
  rw [Pool.autoreleaseFast, Pool.hotPage]
  cases tls : pool.tls with
  | nil =>
    rw [PoolOk, tls] at ok
    obtain ⟨rfl, rfl, layout⟩ := ok
    have plain : decide (pool.tls = .emptyPoolPlaceholder) = false := by rw [tls]; rfl
    simp only [Pool.autoreleaseNoPage, plain, true_and]
    by_cases boundary : obj = 0
    · rw [if_pos boundary, boundary]
      exact ⟨_, _, [], rfl, ⟨rfl, rfl, layout.setTls _⟩, fun _ => rfl, Extends.refl _⟩
    · rw [if_neg boundary]
      obtain ⟨pool', made, layout', _⟩ := newPage_first layout unused
      obtain ⟨pool'', token, added, _, _, ok', tokenOk⟩ := add_hot layout' (i := 0) obj rfl (by simp) (by simp; omega)
      refine ⟨pool'', token, _, ?_, ok', fun _ => tokenOk, nofun⟩
      rw [made, Option.bind_some]
      exact added
  | emptyPoolPlaceholder =>
    rw [PoolOk, tls] at ok
    obtain ⟨rfl, rfl, layout⟩ := ok
    have extra : decide (pool.tls = .emptyPoolPlaceholder) = true := by rw [tls]; rfl
    simp only [Pool.autoreleaseNoPage, extra, Bool.true_eq_false, false_and, if_false, if_true]
    obtain ⟨_, made, layout₁, _⟩ := newPage_first layout unused
    obtain ⟨pool₂, _, added₁, tls₂, layout₂, _, _⟩ := add_hot layout₁ (i := 0) 0 rfl (by simp) (by simp; omega)
    obtain ⟨pool₃, token, added₂, _, _, ok', tokenOk⟩ := add_hot layout₂ (i := 0) obj rfl (by simp) (by simp; omega)
    refine ⟨pool₃, token, _, ?_, ok', fun _ => tokenOk, nofun⟩
    have hot : pool₂.setHotPage fresh.address = pool₂ := by rw [Pool.setHotPage, ← tls₂]
    rw [made, Option.bind_some]
    simp only [added₁, Option.bind_some]
    exact hot ▸ added₂
  | page hot =>
    rw [PoolOk, tls] at ok
    obtain ⟨layout, i, here, start, _⟩ := ok
    obtain ⟨page, found, pageOk⟩ := layout.page here
    have next := pageOk.next
    simp only [found, Option.bind_some]
    by_cases full : page.full size
    · have all : contents.length = i * capacity size + capacity size := by
        rw [Page.full] at full
        omega
      obtain ⟨pool', chain', address, walked, layout', there, extended⟩ := nonFullPage_ok layout (by omega) pool.allocated unused here all
      obtain ⟨pool'', token, added, _, _, ok', tokenOk⟩ := add_hot layout' obj there
        (by rw [Nat.add_mul]; omega) (by rw [Nat.add_mul]; omega)
      refine ⟨pool'', token, chain', ?_, ok', fun _ => tokenOk, extended⟩
      rw [if_pos full, Pool.autoreleaseFullPage, walked, Option.bind_some]
      exact added
    · obtain ⟨pool', token, added, _, _, ok', tokenOk⟩ := add_hot layout obj here start (by
        rw [Page.full] at full
        omega)
      have unchanged : pool.setHotPage hot = pool := by rw [Pool.setHotPage, ← tls]
      rw [if_neg full]
      exact ⟨pool', token, chain, unchanged ▸ added, ok', fun _ => tokenOk, Extends.refl chain⟩

/-! ## Taking -/

/-- The page in front of a hot page that is empty is full. -/
theorem Layout.parent_ok (room : 0 < capacity size) {hot : Nat} (here : chain[i]? = some hot) (start : i * capacity size ≤ contents.length)
    (some' : contents ≠ []) {page : Page} (found : pool.pages hot = some page) (empty : page.empty) :
    ∃ k parent page', i = k + 1 ∧ chain[k]? = some parent ∧ contents.length = k * capacity size + capacity size ∧
      page.parent = some parent ∧ pool.pages parent = some page' ∧ ¬ page'.empty := by
  have positive := length_pos_iff.mpr some'
  obtain ⟨_, found', ok⟩ := layout.page here
  obtain rfl := Option.some.inj (found.symm.trans found')
  have next := ok.next
  rw [Page.empty] at empty
  obtain _ | k := i
  · omega
  obtain ⟨parent, there⟩ := exists_parent here
  obtain ⟨page', found', ok'⟩ := layout.page there
  have next' := ok'.next
  rw [Nat.add_mul, Nat.one_mul] at start next
  refine ⟨k, parent, page', rfl, there, by omega, ?_, found', ?_⟩
  · rw [ok.parent, if_neg (Nat.succ_ne_zero k)]
    exact there
  · rw [Page.empty]
    omega

/-- The hot page is not empty, or the one before it becomes the hot page. -/
theorem skipEmpty_ok (room : 0 < capacity size) (fuel : Nat) {hot : Nat} (here : chain[i]? = some hot)
    (start : i * capacity size ≤ contents.length) (stop : contents.length ≤ i * capacity size + capacity size) (some' : contents ≠ []) :
    ∃ tls j address, Pool.skipEmpty (fuel + 2) { pool with tls := .page hot } hot =
        some ({ pool with tls := tls }, address) ∧ tls = .page address ∧ chain[j]? = some address ∧
      j * capacity size < contents.length ∧ contents.length ≤ j * capacity size + capacity size := by
  obtain ⟨page, found, ok⟩ := layout.page here
  have next := ok.next
  rw [Pool.skipEmpty]
  simp only [found, Option.bind_some]
  by_cases empty : page.empty
  · obtain ⟨k, parent, _, rfl, there, length, up, found', nonempty⟩ := layout.parent_ok room here start some' found empty
    refine ⟨_, k, parent, ?_, rfl, there, by omega, by omega⟩
    rw [if_pos empty, up, Option.bind_some, Pool.skipEmpty]
    simp only [Pool.setHotPage, found', Option.bind_some, if_neg nonempty]
  · refine ⟨_, i, hot, by rw [if_neg empty], rfl, here, ?_, stop⟩
    rw [Page.empty] at empty
    omega

omit layout in
/-- **A turn of `releaseUntil` takes the top of the stack.** -/
theorem takeNext_ok (room : 0 < capacity size) {hot obj : Nat} (tls : pool.tls = .page hot)
    (ok : PoolOk size pool chain (contents ++ [obj])) : ∃ pool', pool.takeNext = some (pool', obj) ∧ PoolOk size pool' chain contents := by
  rw [PoolOk, tls] at ok
  obtain ⟨layout, i, here, start, stop⟩ := ok
  obtain ⟨tls', j, address, skipped, isHot, there, start', stop'⟩ := skipEmpty_ok layout room (pool.allocated - 1) here start stop (by simp)
  have count : pool.allocated - 1 + 2 = pool.allocated + 1 := by
    have := layout.count
    have := lt_of_index here
    omega
  have same : { pool with tls := Tls.page hot } = pool := by rw [← tls]
  rw [count, same] at skipped
  obtain ⟨page, found, pageOk⟩ := layout.page there
  have next := pageOk.next
  rw [length_append, length_singleton] at start' stop' next
  have last : page.next - 1 = contents.length - j * capacity size := by omega
  have top : page.slots (page.next - 1) = obj := by
    have slot := pageOk.slots (page.next - 1) (by omega)
    rw [last, Nat.add_sub_cancel' (by omega), getElem?_concat_length] at slot
    rw [last]
    exact (Option.some.inj slot).symm
  rw [Pool.takeNext, Pool.hotPage, tls]
  simp only [Option.bind_some, skipped, found, Option.map_some, top]
  refine ⟨_, rfl, ?_⟩
  rw [PoolOk, show (Pool.setPage { pool with tls := tls' } address _).tls = .page address from isHot]
  have fits := layout.fits
  rw [length_append, length_singleton] at fits
  refine ⟨(layout.setTls tls').setPage there ⟨pageOk.parent, pageOk.child, ?_, fun n small => ?_⟩ (fun k other => ?_)
    (fun n _ small => ?_) (by omega), j, there, by omega, by omega⟩
  · show page.next - 1 = _
    omega
  · have small : n < page.next - 1 := small
    have slot := pageOk.slots n (by omega)
    rw [getElem?_append_left (by omega)] at slot
    simp only [update_of_ne (Nat.ne_of_lt small)]
    exact slot
  · rw [length_append, length_singleton]
    exact (other_pages (by omega) (by omega) other).symm
  · rw [getElem?_append_left small]

/-! ## Deleting pages -/

theorem lastChild_ok {last : Nat} : ∀ {fuel j address : Nat}, chain[j]? = some address → chain.length < j + fuel + 1 →
      chain[chain.length - 1]? = some last → pool.lastChild fuel address = some last := by
  intro fuel
  induction fuel with
  | zero =>
    intro j address here enough
    have := lt_of_index here
    omega
  | succ _ ih =>
    intro j address here enough final
    obtain ⟨page, found, ok⟩ := layout.page here
    rw [Pool.lastChild, found, Option.bind_some]
    cases child : page.child with
    | some => exact ih (ok.child.symm.trans child) (by omega) final
    | none =>
      have := lt_of_index here
      have beyond := List.getElem?_eq_none_iff.mp (ok.child.symm.trans child)
      have at' : j = chain.length - 1 := by omega
      exact here.symm.trans (at' ▸ final)

omit layout in
/-- The last page is unlinked and deleted if it is empty. -/
theorem deleteLast {parent : Nat} (layout : Layout size pool (chain ++ [address]) contents)
    (previous : chain[chain.length - 1]? = some parent) (empty : contents.length ≤ chain.length * capacity size) :
    ∃ dying page pool', pool.pages address = some dying ∧ dying.parent = some parent ∧
      pool.pages parent = some page ∧ (pool.setPage parent { page with child := none }).deletePage address = some pool' ∧
      Layout size pool' chain contents ∧ pool'.tls = pool.tls := by
  have bound := lt_of_index previous
  have first : chain.length ≠ 0 := by omega
  have here : (chain ++ [address])[chain.length]? = some address := getElem?_concat_length
  have there : (chain ++ [address])[chain.length - 1]? = some parent := extends_append _ _ previous
  obtain ⟨dying, found, ok⟩ := layout.page here
  obtain ⟨page, found', ok'⟩ := layout.page there
  have different : address ≠ parent := by
    rintro rfl
    have := index_inj layout.nodup here there
    omega
  have next := ok.next
  have dead : dying.empty ∧ dying.child = none := by
    refine ⟨by rw [Page.empty]; omega, ?_⟩
    rw [ok.child, getElem?_eq_none (by simp)]
  have distinct := (nodup_append.mp layout.nodup).1
  have notIn : ∀ {j other : Nat}, chain[j]? = some other → other ≠ address := by
    rintro j other inChain rfl
    have := index_inj layout.nodup (extends_append _ _ inChain) here
    have := lt_of_index inChain
    omega
  let unlinked := pool.setPage parent { page with child := none }
  refine ⟨dying, page,
    { unlinked with pages := update unlinked.pages address none, allocated := unlinked.allocated - 1 },
    found, ?_, found', ?_, ⟨distinct, ?_, fun other page' found'' => ?_, fun {j other} inChain => ?_, empty⟩, rfl⟩
  · rw [ok.parent, if_neg first, there]
  · rw [Pool.deletePage, setPage_of_ne _ different, found, Option.bind_some, if_pos dead]
  · show pool.allocated - 1 = _
    rw [layout.count, length_append]
    exact Nat.add_sub_cancel _ 1
  · have survivor : other ≠ address := by
      rintro rfl
      exact nomatch (update_self _ _ _).symm.trans found''
    have found'' := (update_of_ne survivor _ _).symm.trans found''
    by_cases this : other = parent
    · exact this ▸ mem_of_getElem? previous
    · rw [setPage_of_ne _ this] at found''
      refine (mem_append.mp (layout.only other page' found'')).resolve_right fun isLast => survivor ?_
      exact mem_singleton.mp isLast
  · have survivor := notIn inChain
    have small := lt_of_index inChain
    have pages : ∀ page', (pool.setPage parent { page with child := none }).pages other = some page' →
        update (pool.setPage parent { page with child := none }).pages address none other = some page' :=
      fun page' => (update_of_ne survivor _ _).trans
    have up : ∀ i < j, chain[i]? = (chain ++ [address])[i]? := fun i small => (getElem?_append_left (by omega)).symm
    by_cases this : j = chain.length - 1
    · subst this
      obtain rfl := Option.some.inj (inChain.symm.trans previous)
      refine ⟨_, pages _ (setPage_self _ _), ok'.relink up ?_⟩
      rw [getElem?_eq_none (by omega)]
    · obtain ⟨page', found'', ok''⟩ := layout.page (extends_append _ _ inChain)
      have notParent : other ≠ parent := by
        rintro rfl
        exact this (index_inj distinct inChain previous)
      refine ⟨page', pages _ ((setPage_of_ne _ notParent).trans found''), ok''.relink up ?_⟩
      rw [ok''.child, getElem?_append_left (by omega)]

variable {m : Nat}

omit layout in
/-- **`kill` deletes the pages from one on**, which are empty. -/
theorem killBack_ok (first : 0 < m) (here : chain[m]? = some address) (empty : contents.length ≤ m * capacity size) :
    ∀ {fuel k : Nat} {pool : Pool} {last : Nat}, k < fuel → m + k < chain.length →
      Layout size pool (chain.take (m + k + 1)) contents → chain[m + k]? = some last →
      ∃ pool', Pool.killBack address fuel pool last = some pool' ∧ Layout size pool' (chain.take m) contents ∧ pool'.tls = pool.tls := by
  intro fuel
  induction fuel with
  | zero => exact fun enough => absurd enough (Nat.not_lt_zero _)
  | succ _ ih =>
    intro k pool last enough small layout there
    have split : chain.take (m + k + 1) = chain.take (m + k) ++ [last] := by rw [take_add_one, there, Option.toList_some]
    have length : (chain.take (m + k)).length = m + k := by rw [length_take]; omega
    obtain ⟨parent, up⟩ : ∃ parent, chain[m + k - 1]? = some parent := ⟨_, getElem?_eq_getElem (by omega)⟩
    have previous : (chain.take (m + k))[(chain.take (m + k)).length - 1]? = some parent := by
      rw [length, getElem?_take_of_lt (by omega)]
      exact up
    have more : m * capacity size ≤ (m + k) * capacity size := Nat.mul_le_mul_right _ (Nat.le_add_right m k)
    rw [split] at layout
    obtain ⟨_, _, pool₁, found, isParent, found', deleted, layout₁, tls₁⟩ := deleteLast layout previous (by rw [length]; omega)
    rw [Pool.killBack, found, Option.bind_some]
    simp only [isParent, found', Option.map_some, Option.bind_some, deleted]
    obtain _ | k := k
    · obtain rfl := Option.some.inj (there.symm.trans here)
      rw [if_pos rfl]
      exact ⟨pool₁, rfl, layout₁, tls₁⟩
    have notYet : last ≠ address := by
      rintro rfl
      have whole : chain.take (m + (k + 1) + 1) = chain.take (m + (k + 1)) ++ [last] := split
      have distinct := layout.nodup
      rw [← whole] at distinct
      have := index_inj distinct ((getElem?_take_of_lt (by omega)).trans there)
        ((getElem?_take_of_lt (by omega)).trans here)
      omega
    rw [if_neg notYet]
    obtain ⟨pool₂, killed, layout₂, tls₂⟩ := ih (k := k) (by omega) (by omega) layout₁ up
    exact ⟨pool₂, killed, layout₂, tls₂.trans tls₁⟩

theorem kill_ok (first : 0 < m) (here : chain[m]? = some address) (empty : contents.length ≤ m * capacity size) :
    ∃ pool', pool.kill address = some pool' ∧ Layout size pool' (chain.take m) contents ∧ pool'.tls = pool.tls := by
  have bound := lt_of_index here
  have count := layout.count
  obtain ⟨last, final⟩ : ∃ last, chain[chain.length - 1]? = some last := ⟨_, getElem?_eq_getElem (by omega)⟩
  have index : m + (chain.length - 1 - m) = chain.length - 1 := by omega
  have walked : pool.lastChild (pool.allocated + 1) address = some last := lastChild_ok layout here (by omega) final
  rw [Pool.kill, walked, Option.bind_some]
  refine killBack_ok (k := chain.length - 1 - m) first here empty (by omega) (by omega) ?_ ?_
  · rw [take_of_length_le (by omega)]
    exact layout
  · rw [index]
    exact final

omit layout in
theorem extends_take (here : chain[j]? = some address) (small : j < m) : (chain.take m)[j]? = some address := by
  rw [getElem?_take_of_lt small, here]

/-- **The end of a pop** keeps the contents and the pages that hold them. -/
theorem finishPop_ok {stop : Nat} (here : chain[j]? = some address) (small : stop < capacity size)
    (length : contents.length = j * capacity size + stop) :
    ∃ pool' chain', pool.finishPop size address = some pool' ∧ PoolOk size pool' chain' contents ∧
      ∀ {k other : Nat}, k ≤ j → chain[k]? = some other → chain'[k]? = some other := by
  obtain ⟨page, found, ok⟩ := layout.page here
  have hot : ∀ {pool' : Pool} {chain' : List Nat}, pool'.tls = .page address → Layout size pool' chain' contents →
      chain'[j]? = some address → PoolOk size pool' chain' contents := by
    intro pool' chain' tls layout' there
    rw [PoolOk, tls]
    exact ⟨layout', j, there, by omega, by omega⟩
  have layout' := layout.setTls (.page address)
  have after : contents.length ≤ (j + 1) * capacity size := by
    rw [Nat.add_mul]
    omega
  have after' : contents.length ≤ (j + 1 + 1) * capacity size := by
    rw [Nat.add_mul (j + 1)]
    omega
  rw [Pool.finishPop]
  simp only [Pool.setHotPage, found, Option.bind_some]
  cases child : page.child with
  | none => exact ⟨_, chain, rfl, hot rfl layout' here, fun _ there => there⟩
  | some =>
    have there := ok.child.symm.trans child
    by_cases sparse : page.lessThanHalfFull size
    · obtain ⟨pool', killed, layout'', tls⟩ := kill_ok layout' (Nat.succ_pos j) there after
      refine ⟨pool', _, by simp only [if_pos sparse]; exact killed,
        hot tls layout'' (extends_take here (Nat.lt_succ_self j)), fun before other => ?_⟩
      exact extends_take other (Nat.lt_succ_of_le before)
    · obtain ⟨page', found', ok'⟩ := layout.page there
      simp only [if_neg sparse, found', Option.bind_some]
      cases grandchild : page'.child with
      | none => exact ⟨_, chain, rfl, hot rfl layout' here, fun _ there => there⟩
      | some =>
        obtain ⟨pool', killed, layout'', tls⟩ := kill_ok layout' (Nat.succ_pos _) (ok'.child.symm.trans grandchild) after'
        refine ⟨pool', _, killed, hot tls layout'' (extends_take here (by omega)), fun before other => ?_⟩
        exact extends_take other (by omega)

end DarwinNotes.Objc.Autorelease
