import DarwinNotes.Objc.Refcount.Model

/-!
# Reference counts are neither lost nor duplicated

The count of the isa, the count of the side table and the amount that a thread
carries between the two, under the side table lock, add up to the references that
are held, one less until the deallocating bit is set. The side table holds whole
chunks of `RC_HALF`, and a count outside of the isa implies `has_sidetable_rc`.
-/

namespace DarwinNotes.Objc.Refcount

variable {Thread : Type} (arch : Arch)

theorem rcHalf_pos : 0 < arch.rcHalf := Nat.two_pow_pos _

/-- Two halves fill `extra_rc`. -/
theorem two_rcHalf : arch.rcHalf + arch.rcHalf = 2 ^ arch.extraRcBits := by cases arch <;> decide

/-! ## The side table word -/

/-- The word holds whole chunks, and no flag. -/
def Chunked (refcnt : Option Nat) : Prop := ∃ chunks, refcnt.getD 0 = chunks * arch.rcHalf * 4

variable {arch : Arch} {refcnt : Option Nat} (chunked : Chunked arch refcnt)
include chunked

theorem sidetableAddExtraRC_spec (small : sidetableGetExtraRC refcnt + arch.rcHalf < 2 ^ 61) :
    Chunked arch (sidetableAddExtraRC refcnt arch.rcHalf) ∧
      sidetableGetExtraRC (sidetableAddExtraRC refcnt arch.rcHalf) = sidetableGetExtraRC refcnt + arch.rcHalf := by
  obtain ⟨chunks, word⟩ := chunked
  unfold sidetableGetExtraRC at small
  have notPinned : (refcnt.getD 0).testBit 63 = false := Nat.testBit_lt_two_pow (by omega)
  have added : sidetableAddExtraRC refcnt arch.rcHalf = some (refcnt.getD 0 + arch.rcHalf * 4) := by
    unfold sidetableAddExtraRC
    simp only [notPinned, Bool.false_eq_true, if_false]
    rw [if_neg (by omega)]
  rw [added]
  constructor
  · refine ⟨chunks + 1, ?_⟩
    rw [Option.getD_some, word]
    ring
  · unfold sidetableGetExtraRC
    rw [Option.getD_some]
    omega

theorem sidetableSubExtraRC_empty (empty : sidetableGetExtraRC refcnt = 0) : (sidetableSubExtraRC refcnt arch.rcHalf).1 = 0 := by
  obtain ⟨_, word⟩ := chunked
  cases refcnt with
  | none => rfl
  | some oldRefcnt =>
    have zero : oldRefcnt = 0 := by
      simp only [sidetableGetExtraRC, Option.getD_some] at empty word
      omega
    simp [sidetableSubExtraRC, zero]

theorem sidetableSubExtraRC_spec (some_left : 0 < sidetableGetExtraRC refcnt) (small : sidetableGetExtraRC refcnt < 2 ^ 61) :
    ∃ refcnt', sidetableSubExtraRC refcnt arch.rcHalf = (arch.rcHalf, refcnt', false) ∧ Chunked arch refcnt' ∧
      sidetableGetExtraRC refcnt' + arch.rcHalf = sidetableGetExtraRC refcnt := by
  obtain ⟨chunks, word⟩ := chunked
  cases refcnt with
  | none => simp [sidetableGetExtraRC] at some_left
  | some oldRefcnt =>
    simp only [sidetableGetExtraRC, Option.getD_some] at some_left small word
    obtain ⟨k, rfl⟩ : ∃ k, chunks = k + 1 := by
      cases chunks with
      | zero => omega
      | succ k => exact ⟨k, rfl⟩
    have split : (k + 1) * arch.rcHalf * 4 = k * arch.rcHalf * 4 + arch.rcHalf * 4 := by ring
    have positive := rcHalf_pos arch
    have reduced : (oldRefcnt + 2 ^ 64 - arch.rcHalf * 4) % 2 ^ 64 = k * arch.rcHalf * 4 := by
      rw [word, split, show k * arch.rcHalf * 4 + arch.rcHalf * 4 + 2 ^ 64 - arch.rcHalf * 4
        = k * arch.rcHalf * 4 + 2 ^ 64 by omega, Nat.add_mod_right]
      exact Nat.mod_eq_of_lt (by omega)
    refine ⟨some (k * arch.rcHalf * 4), ?_, ⟨k, rfl⟩, ?_⟩
    · simp only [sidetableSubExtraRC]
      rw [if_neg (by omega), reduced]
      simp only [Prod.mk.injEq, true_and, decide_eq_false_iff_not]
      omega
    · simp only [sidetableGetExtraRC, Option.getD_some]
      omega

omit chunked

/-! ## The invariant -/

/-- The thread has the side table lock at this point. -/
def Pc.holdsLock : Pc → Bool
  | .idle | .retainLock _ | .releaseLock => false
  | .retainLoad tryRetain _ locked | .retainStore tryRetain _ locked _ => tryRetain || locked
  | .releaseLoad _ locked | .releaseStore _ locked _ | .releaseStoreDeallocating _ locked _ => locked
  | _ => true

/-- The count the thread carries between the isa and the side table. -/
def Pc.inflight (arch : Arch) : Pc → Nat
  | .retainTranscribe _ => arch.rcHalf
  | .releaseStoreBorrowed _ borrowed | .releaseReload borrowed | .releaseStoreMerged _ borrowed
  | .releaseUndo borrowed => borrowed
  | _ => 0

/-- The thread is between its store to the isa and its update of the side table,
in the order of the path it is on. -/
def Pc.betweenUpdates : Pc → Bool
  | .retainTranscribe _ | .releaseStoreBorrowed _ _ | .releaseReload _ | .releaseStoreMerged _ _ | .releaseUndo _ => true
  | _ => false

/-- The thread is in a `rootTryRetain` that is not complete. -/
def Pc.tryRetaining : Pc → Bool
  | .retainLoad true _ _ | .retainStore true _ _ _ => true
  | _ => false

/-- The thread is in a release that is not complete. -/
def Pc.releasing : Pc → Bool
  | .releaseLoad _ _ | .releaseLock | .releaseStore _ _ _ | .releaseBorrow _ | .releaseStoreBorrowed _ _
  | .releaseReload _ | .releaseStoreMerged _ _ | .releaseUndo _ | .releaseStoreDeallocating _ _ _ => true
  | _ => false

/-- What the thread knows from its loads. Only the slow paths lock the side table. -/
def PcOk (arch : Arch) (g : Shared Thread) : Pc → Prop
  | .retainLoad _ handleOverflow locked => handleOverflow = false → locked = false
  | .retainLock oldisa => 2 ^ arch.extraRcBits ≤ oldisa.extraRc + 1
  | .retainStore tryRetain handleOverflow locked oldisa =>
    (handleOverflow = false → locked = false) ∧ (tryRetain = true → oldisa.deallocating = false) ∧
      (2 ^ arch.extraRcBits ≤ oldisa.extraRc + 1 → (tryRetain || locked) = true)
  | .releaseLoad handleUnderflow locked => handleUnderflow = false → locked = false
  | .releaseStore handleUnderflow locked oldisa => (handleUnderflow = false → locked = false) ∧ 1 ≤ oldisa.extraRc
  | .releaseBorrow oldisa => oldisa.extraRc = 0 ∧ (oldisa.deallocating = true → 0 < g.sideCount)
  | .releaseStoreBorrowed oldisa borrowed => oldisa.extraRc = 0 ∧ borrowed = arch.rcHalf
  | .releaseReload borrowed | .releaseUndo borrowed => borrowed = arch.rcHalf
  | .releaseStoreMerged oldisa2 borrowed => borrowed = arch.rcHalf ∧ oldisa2.extraRc + (borrowed - 1) < 2 ^ arch.extraRcBits
  | .releaseStoreDeallocating handleUnderflow locked oldisa =>
    (handleUnderflow = false → locked = false) ∧ oldisa.extraRc = 0 ∧ oldisa.deallocating = false ∧
      (oldisa.hasSidetableRc = true → locked = true ∧ g.sideCount = 0)
  | _ => True

structure ThreadOk (arch : Arch) (thread : Thread) (g : Shared Thread) (here : Local) : Prop where
  lock : g.lock = some thread ↔ here.pc.holdsLock = true
  inflight : here.pc.holdsLock = true → g.inflight = here.pc.inflight arch
  pc : PcOk arch g here.pc
  held : here.pc.releasing = true → 1 ≤ here.held

structure SharedOk (arch : Arch) (initialExtra : Nat) (g : Shared Thread) : Prop where
  width : g.isa.extraRc < 2 ^ arch.extraRcBits
  chunked : Chunked arch g.refcnt
  flag : g.isa.hasSidetableRc = false → g.sideCount = 0 ∧ g.inflight = 0
  unlocked : g.lock = none → g.inflight = 0
  inflight : g.inflight = 0 ∨ g.inflight = arch.rcHalf
  balance : g.isa.extraRc + g.sideCount + g.inflight + 1 + g.releases = 1 + initialExtra + g.retains + g.isa.deallocating.toNat
  deallocators : g.deallocators = g.isa.deallocating.toNat
  bounded : Bounded initialExtra g
  noUnderflow : g.underflow = false
  noOverrelease : g.overreleased = false

/-- What a step leaves alone for the sake of the others. -/
structure Leaves (thread : Thread) (g g' : Shared Thread) : Prop where
  lock : ∀ other, other ≠ thread → (g'.lock = some other ↔ g.lock = some other)
  sideTable : ∀ other, other ≠ thread → g.lock = some other → g'.inflight = g.inflight ∧ g'.refcnt = g.refcnt

theorem Leaves.threadOk {thread other : Thread} {g g' : Shared Thread} {there : Local} (leaves : Leaves thread g g')
    (different : other ≠ thread) (ok : ThreadOk arch other g there) : ThreadOk arch other g' there := by
  refine ⟨(leaves.lock other different).trans ok.lock, fun holds => ?_, ?_, ok.held⟩
  · rw [(leaves.sideTable other different (ok.lock.2 holds)).1]
    exact ok.inflight holds
  have pcOk := ok.pc
  obtain ⟨held, pc⟩ := there
  cases pc with
  | releaseBorrow =>
    have same := (leaves.sideTable other different (ok.lock.2 rfl)).2
    exact ⟨pcOk.1, by rw [Shared.sideCount, same]; exact pcOk.2⟩
  | releaseStoreDeallocating =>
    obtain ⟨slow, empty, alive, side⟩ := pcOk
    refine ⟨slow, empty, alive, fun flagged => ?_⟩
    obtain ⟨isLocked, none⟩ := side flagged
    have same := (leaves.sideTable other different (ok.lock.2 isLocked)).2
    exact ⟨isLocked, by rw [Shared.sideCount, same]; exact none⟩
  | _ => exact pcOk

/-! ## Steps -/

section Steps

variable {arch : Arch} {initialExtra : Nat} {thread : Thread} {g g' : Shared Thread} {here here' : Local}

/-- What a step has to establish. The last two fields say what it does to the
references and to the deallocating bit. -/
structure Preserves (arch : Arch) (initialExtra : Nat) (thread : Thread) (g : Shared Thread) (here : Local)
    (g' : Shared Thread) (here' : Local) : Prop where
  shared : SharedOk arch initialExtra g'
  own : ThreadOk arch thread g' here'
  leaves : Leaves thread g g'
  references : here'.held + g'.parked + g'.releases + g.retains = here.held + g.parked + g.releases + g'.retains
  deallocating : g'.isa.deallocating = g.isa.deallocating ∨ g.isa.deallocating = false ∧
    g'.isa.deallocating = true ∧ g'.releases = g.releases + 1 ∧ g'.releases = 1 + initialExtra + g'.retains

/-- A place outside of a release, where nothing of the shared state matters. -/
structure Resting (Thread : Type) (arch : Arch) (pc : Pc) (locked : Bool) (inflight : Nat) : Prop where
  lock : pc.holdsLock = locked
  inflight : pc.inflight arch = inflight
  ok : ∀ g : Shared Thread, PcOk arch g pc
  releasing : pc.releasing = false

theorem resting_afterRetain (tryRetain locked : Bool) : Resting Thread arch (afterRetain tryRetain locked) (tryRetain || locked) 0 := by
  cases tryRetain <;> cases locked <;> exact ⟨rfl, rfl, fun _ => trivial, rfl⟩

theorem resting_afterRelease (locked : Bool) : Resting Thread arch (afterRelease locked) locked 0 := by
  cases locked <;> exact ⟨rfl, rfl, fun _ => trivial, rfl⟩

/-- A store fails, or finds the isa that was loaded. -/
theorem stored_or {Result : Type} {fail : Bool} {isa oldisa : Isa} {failed done result : Result}
    (run : (if fail = true ∨ isa ≠ oldisa then failed else done) = result) : failed = result ∨ isa = oldisa ∧ done = result := by
  split at run
  case isTrue => exact Or.inl run
  case isFalse stored => exact Or.inr ⟨not_not.1 fun different => stored (Or.inr different), run⟩

theorem Leaves.refl (thread : Thread) (g : Shared Thread) : Leaves thread g g := ⟨fun _ _ => Iff.rfl, fun _ _ _ => ⟨rfl, rfl⟩⟩

/-- A thread that has the lock may do anything with the side table. -/
theorem leaves_of_locked (locked : g.lock = some thread) (kept : g'.lock = some thread ∨ g'.lock = none) : Leaves thread g g' := by
  refine ⟨fun other different => ?_, fun other different isOther => ?_⟩
  · rw [locked]
    cases kept with
    | inl still => rw [still]
    | inr free =>
      rw [free]
      exact ⟨nofun, fun same => absurd (Option.some.inj same) different.symm⟩
  · exact absurd (Option.some.inj (isOther.symm.trans locked)) different

section

variable (shared : SharedOk arch initialExtra g)
include shared

variable (ok : ThreadOk arch thread g here)
include ok

theorem preserves_move {pc' : Pc} (lock : pc'.holdsLock = here.pc.holdsLock) (inflight : pc'.inflight arch = here.pc.inflight arch)
    (pcOk : PcOk arch g pc') (releasing : pc'.releasing = true → 1 ≤ here.held) :
    Preserves arch initialExtra thread g here g { here with pc := pc' } := by
  refine ⟨shared, ⟨?_, ?_, pcOk, releasing⟩, Leaves.refl thread g, rfl, Or.inl rfl⟩
  · rw [lock]
    exact ok.lock
  · rw [lock, inflight]
    exact ok.inflight

omit ok in
theorem preserves_lock (free : g.lock = none) (pc' : Pc) (lock : pc'.holdsLock = true) (inflight : pc'.inflight arch = 0)
    (pcOk : PcOk arch { g with lock := some thread } pc') (releasing : pc'.releasing = true → 1 ≤ here.held) :
    Preserves arch initialExtra thread g here { g with lock := some thread } { here with pc := pc' } := by
  refine ⟨{ shared with unlocked := fun _ => shared.unlocked free }, ⟨?_, fun _ => ?_, pcOk, releasing⟩, ⟨fun other different => ?_, fun other _ isOther => ?_⟩, rfl, Or.inl rfl⟩
  · exact ⟨fun _ => lock, fun _ => rfl⟩
  · exact (shared.unlocked free).trans inflight.symm
  · rw [free]
    exact ⟨fun same => absurd (Option.some.inj same) different.symm, nofun⟩
  · rw [free] at isOther
    cases isOther

theorem preserves_unlock (lock : here.pc.holdsLock = true) (inflight : here.pc.inflight arch = 0) :
    Preserves arch initialExtra thread g here { g with lock := none } { here with pc := .idle } := by
  have settled : g.inflight = 0 := (ok.inflight lock).trans inflight
  exact ⟨{ shared with unlocked := fun _ => settled }, ⟨⟨nofun, nofun⟩, nofun, trivial, nofun⟩, leaves_of_locked (ok.lock.2 lock) (Or.inr rfl), rfl, Or.inl rfl⟩

/-- A store to the isa, which may move a chunk to or from what the thread carries. -/
theorem preserves_store {isa' : Isa} {inflight' retains' releases' deallocators' held' carries : Nat} {pc' : Pc}
    (width : isa'.extraRc < 2 ^ arch.extraRcBits) (flag : isa'.hasSidetableRc = false → g.sideCount = 0 ∧ inflight' = 0)
    (carried : inflight' = g.inflight ∨ here.pc.holdsLock = true ∧ (inflight' = 0 ∨ inflight' = arch.rcHalf))
    (count : isa'.extraRc + inflight' + releases' + g.retains + g.isa.deallocating.toNat = g.isa.extraRc + g.inflight + g.releases + retains' + isa'.deallocating.toNat)
    (references : held' + releases' + g.retains = here.held + g.releases + retains')
    (deallocators : deallocators' = isa'.deallocating.toNat)
    (deallocating : isa'.deallocating = g.isa.deallocating ∨ g.isa.deallocating = false ∧ isa'.deallocating = true ∧ releases' = g.releases + 1 ∧ releases' = 1 + initialExtra + retains')
    (bounded : 1 + initialExtra + retains' < 2 ^ 60 + releases') (resting : Resting Thread arch pc' here.pc.holdsLock carries)
    (inflight : here.pc.holdsLock = true → inflight' = carries) : Preserves arch initialExtra thread g here
      { g with isa := isa', inflight := inflight', retains := retains', releases := releases', deallocators := deallocators' }
      ⟨held', pc'⟩ := by
  obtain ⟨leaves, unlocked, isCarried⟩ : (∀ other, other ≠ thread → g.lock = some other → inflight' = g.inflight) ∧
      (g.lock = none → inflight' = 0) ∧ (inflight' = 0 ∨ inflight' = arch.rcHalf) := by
    rcases carried with rfl | ⟨locked, isCarried⟩
    · exact ⟨fun _ _ _ => rfl, shared.unlocked, shared.inflight⟩
    · have isLocked := ok.lock.2 locked
      exact ⟨fun other different isOther => absurd (Option.some.inj (isOther.symm.trans isLocked)) different,
        fun free => absurd (isLocked.symm.trans free) nofun, isCarried⟩
  refine ⟨{ shared with width, flag, unlocked, inflight := isCarried, balance := ?_, deallocators, bounded },
    ⟨?_, ?_, resting.ok _, ?_⟩, ⟨fun _ _ => Iff.rfl, fun other different isOther => ⟨leaves other different isOther, rfl⟩⟩, ?_, deallocating⟩
  · have before := shared.balance
    show isa'.extraRc + g.sideCount + inflight' + 1 + releases' = 1 + initialExtra + retains' + isa'.deallocating.toNat
    omega
  · rw [resting.lock]
    exact ok.lock
  · rw [resting.lock, resting.inflight]
    exact inflight
  · intro absurd
    rw [resting.releasing] at absurd
    cases absurd
  · show held' + g.parked + releases' + g.retains = here.held + g.parked + g.releases + retains'
    omega

/-- What a thread carries goes into the side table. -/
theorem preserves_add (pc' : Pc) (locked : here.pc.holdsLock = true) (carries : here.pc.inflight arch = arch.rcHalf)
    (lock : pc'.holdsLock = true) (inflight : pc'.inflight arch = 0) (pcOk : ∀ g, PcOk arch (g : Shared Thread) pc')
    (releasing : pc'.releasing = true → 1 ≤ here.held) : Preserves arch initialExtra thread g here
      { g with refcnt := sidetableAddExtraRC g.refcnt arch.rcHalf, inflight := 0 } { here with pc := pc' } := by
  have isLocked := ok.lock.2 locked
  have carried := (ok.inflight locked).trans carries
  have before := shared.balance
  have bounded : 1 + initialExtra + g.retains < 2 ^ 60 + g.releases := shared.bounded
  have bit := Bool.toNat_le g.isa.deallocating
  have positive := rcHalf_pos arch
  have small : sidetableGetExtraRC g.refcnt + arch.rcHalf < 2 ^ 61 := by
    have : g.sideCount = sidetableGetExtraRC g.refcnt := rfl
    omega
  obtain ⟨chunked, _⟩ := sidetableAddExtraRC_spec shared.chunked small
  refine ⟨{ shared with chunked, flag := ?_, unlocked := fun _ => rfl, inflight := Or.inl rfl, balance := ?_ }, ⟨⟨fun _ => lock, fun _ => isLocked⟩, fun _ => inflight.symm, pcOk _,
    releasing⟩, leaves_of_locked isLocked (Or.inl isLocked), rfl, Or.inl rfl⟩
  · intro clear
    have none := (shared.flag clear).2
    omega
  · show g.isa.extraRc + sidetableGetExtraRC (sidetableAddExtraRC g.refcnt arch.rcHalf) + 0 + 1 + g.releases =
      1 + initialExtra + g.retains + g.isa.deallocating.toNat
    have : g.sideCount = sidetableGetExtraRC g.refcnt := rfl
    omega

end

variable {oldisa : Isa} (shared : SharedOk arch initialExtra g)
include shared

/-- A release takes a chunk out of a side table that is not empty. -/
theorem preserves_borrow (ok : ThreadOk arch thread g here) (at_borrow : here.pc = .releaseBorrow oldisa) (left : 0 < g.sideCount) :
    ∃ refcnt', sidetableSubExtraRC g.refcnt arch.rcHalf = (arch.rcHalf, refcnt', false) ∧ Preserves arch initialExtra thread g here
        { g with refcnt := refcnt', inflight := arch.rcHalf, underflow := g.underflow || false }
        { here with pc := .releaseStoreBorrowed oldisa arch.rcHalf } := by
  have locked : here.pc.holdsLock = true := by rw [at_borrow]; rfl
  have isLocked := ok.lock.2 locked
  have none : g.inflight = 0 := by rw [ok.inflight locked, at_borrow]; rfl
  have before := shared.balance
  have bounded : 1 + initialExtra + g.retains < 2 ^ 60 + g.releases := shared.bounded
  have bit := Bool.toNat_le g.isa.deallocating
  have sideCount : g.sideCount = sidetableGetExtraRC g.refcnt := rfl
  obtain ⟨refcnt', sub, chunked, _⟩ := sidetableSubExtraRC_spec shared.chunked left (by omega)
  refine ⟨refcnt', sub, { shared with chunked, flag := ?_, unlocked := ?_, inflight := Or.inr rfl, balance := ?_, noUnderflow := ?_ }, ⟨⟨fun _ => rfl, fun _ => isLocked⟩, fun _ => rfl, ⟨?_, rfl⟩, fun _ => ?_⟩,
    leaves_of_locked isLocked (Or.inl isLocked), rfl, Or.inl rfl⟩
  · intro clear
    have empty := (shared.flag clear).1
    omega
  · intro free
    cases isLocked.symm.trans free
  · show g.isa.extraRc + sidetableGetExtraRC refcnt' + arch.rcHalf + 1 + g.releases =
      1 + initialExtra + g.retains + g.isa.deallocating.toNat
    omega
  · rw [shared.noUnderflow]
    rfl
  · have known := ok.pc
    rw [at_borrow] at known
    exact known.1
  · exact ok.held (by rw [at_borrow]; rfl)

variable {handleUnderflow locked : Bool}

theorem preserves_last (ok : ThreadOk arch thread g here) (held : 1 ≤ here.held) (slow : handleUnderflow = false → locked = false)
    (lock : here.pc.holdsLock = locked) (inflight : here.pc.inflight arch = 0) (empty : oldisa.extraRc = 0)
    (side : oldisa.hasSidetableRc = true → locked = true ∧ g.sideCount = 0) (alive : oldisa.deallocating = false)
    (last : releaseLast g here handleUnderflow locked oldisa = (g', here')) : Preserves arch initialExtra thread g here g' here' := by
  rw [releaseLast, if_neg (by rw [alive]; exact Bool.false_ne_true)] at last
  cases last
  exact preserves_move shared ok lock.symm inflight.symm
    ⟨slow, empty, alive, side⟩ (fun _ => held)

/-- What a step of the code from a place has to establish. -/
def StepOk (arch : Arch) (initialExtra : Nat) (thread : Thread) (g : Shared Thread) (here : Local) : Prop :=
  ∀ {fail g' here'}, ThreadOk arch thread g here → advance arch thread fail g here = some (g', here') → Bounded initialExtra g' →
    Preserves arch initialExtra thread g here g' here'

variable {held : Nat} {tryRetain handleOverflow : Bool}

theorem stepOk_retainLoad : StepOk arch initialExtra thread g ⟨held, .retainLoad tryRetain handleOverflow locked⟩ := by
  intro fail g' here' ok run _
  have slow : handleOverflow = false → locked = false := ok.pc
  simp only [advance] at run
  split at run
  · rename_i dying
    simp only [Bool.and_eq_true] at dying
    cases run
    exact preserves_move shared ok (by simp [Pc.holdsLock, dying.1]) rfl trivial nofun
  rename_i notDying
  have alive : tryRetain = true → g.isa.deallocating = false := by
    intro isTry
    simpa [isTry] using notDying
  split at run
  · cases run
    exact preserves_move shared ok rfl rfl
      ⟨slow, alive, fun full => by omega⟩ nofun
  rename_i full
  cases handleOverflow with
  | false =>
    cases run
    rw [slow rfl] at ok ⊢
    exact preserves_move shared ok rfl rfl nofun nofun
  | true =>
    cases tryRetain <;> cases locked <;> cases run
    · exact preserves_move shared ok rfl rfl (Nat.le_of_not_lt full) nofun
    all_goals exact preserves_move shared ok rfl rfl ⟨nofun, alive, fun _ => rfl⟩ nofun

theorem stepOk_retainStore : StepOk arch initialExtra thread g ⟨held, .retainStore tryRetain handleOverflow locked oldisa⟩ := by
  intro fail g' here' ok run bounded'
  obtain ⟨slow, _, fullLocked⟩ := ok.pc
  rcases stored_or run with run | ⟨rfl, run⟩
  · cases run
    exact preserves_move shared ok rfl rfl slow nofun
  split at run
  · rename_i room
    cases run
    exact preserves_store shared ok room shared.flag (Or.inl rfl) (by dsimp only; omega) (by dsimp only; omega)
      shared.deallocators (Or.inl rfl) bounded' (resting_afterRetain _ _) ok.inflight
  · rename_i full
    cases run
    have isLocked := fullLocked (Nat.le_of_not_lt full)
    have none : g.inflight = 0 := ok.inflight isLocked
    have halves := two_rcHalf arch
    have width := shared.width
    exact preserves_store shared ok (by dsimp only; omega) nofun (Or.inr ⟨isLocked, Or.inr rfl⟩) (by dsimp only; omega)
      (by dsimp only; omega) shared.deallocators (Or.inl rfl) bounded' ⟨isLocked.symm, rfl, fun _ => trivial, rfl⟩ fun _ => rfl

omit shared

section

variable (shared : SharedOk arch initialExtra g)
include shared

variable (holds : held + g.releases ≤ 1 + initialExtra + g.retains)
include holds

/-- With nothing in the isa and nothing elsewhere the object is not deallocating yet: the thread holds a
reference. -/
theorem not_deallocating (mine : 1 ≤ held) (empty : g.isa.extraRc = 0)
    (side : g.sideCount = 0) (none : g.inflight = 0) : g.isa.deallocating = false := by
  have balance := shared.balance
  cases dying : g.isa.deallocating with
  | false => rfl
  | true =>
    rw [dying, Bool.toNat_true] at balance
    omega

theorem stepOk_releaseLoad :
    StepOk arch initialExtra thread g ⟨held, .releaseLoad handleUnderflow locked⟩ := by
  intro fail g' here' ok run _
  have slow : handleUnderflow = false → locked = false := ok.pc
  have mine : 1 ≤ held := ok.held rfl
  simp only [advance] at run
  split at run
  · rename_i room
    cases run
    exact preserves_move shared ok rfl rfl ⟨slow, room⟩ (fun _ => mine)
  have empty : g.isa.extraRc = 0 := by omega
  split at run
  · cases handleUnderflow with
    | false =>
      cases run
      rw [slow rfl] at ok ⊢
      exact preserves_move shared ok rfl rfl nofun (fun _ => mine)
    | true =>
      cases locked with
      | false =>
        cases run
        exact preserves_move shared ok rfl rfl trivial (fun _ => mine)
      | true =>
        cases run
        have none : g.inflight = 0 := ok.inflight rfl
        refine preserves_move shared ok rfl rfl ⟨empty, fun dying => ?_⟩ (fun _ => mine)
        refine Nat.pos_of_ne_zero fun side => ?_
        have alive := not_deallocating shared holds mine empty side none
        exact Bool.noConfusion (alive.symm.trans dying)
  · rename_i clear
    obtain ⟨side, none⟩ := shared.flag (Bool.eq_false_iff.2 clear)
    have alive := not_deallocating shared holds mine empty side none
    exact preserves_last shared ok mine slow rfl rfl empty (fun flagged => absurd flagged clear) alive
      (Option.some.inj run)

omit holds

theorem stepOk_releaseBorrow : StepOk arch initialExtra thread g ⟨held, .releaseBorrow oldisa⟩ := by
  intro fail g' here' ok run _
  obtain ⟨empty, left⟩ := ok.pc
  simp only [advance] at run
  rcases Nat.eq_zero_or_pos g.sideCount with none | some
  · have alive : oldisa.deallocating = false := by
      refine Bool.eq_false_iff.2 fun dying => ?_
      have := left dying
      omega
    rw [if_neg (by rw [sidetableSubExtraRC_empty shared.chunked none]; exact Nat.lt_irrefl 0)] at run
    have slow : true = false → true = false := id
    exact preserves_last shared ok (ok.held rfl) slow rfl rfl empty (fun _ => ⟨rfl, none⟩) alive (Option.some.inj run)
  · obtain ⟨_, sub, preserves⟩ := preserves_borrow shared ok rfl some
    rw [sub, if_pos (rcHalf_pos arch)] at run
    cases run
    exact preserves

/-- Setting the deallocating bit: nothing but this last reference is left. -/
theorem stepOk_storeDeallocating :
    StepOk arch initialExtra thread g ⟨held, .releaseStoreDeallocating handleUnderflow locked oldisa⟩ := by
  intro fail g' here' ok run bounded'
  obtain ⟨slow, _, alive, side⟩ := ok.pc
  have mine : 1 ≤ held := ok.held rfl
  rcases stored_or run with run | ⟨rfl, run⟩
  · cases run
    exact preserves_move shared ok rfl rfl slow (fun _ => mine)
  cases run
  have nothing : g.sideCount = 0 ∧ g.inflight = 0 := by
    cases flagged : g.isa.hasSidetableRc with
    | false => exact shared.flag flagged
    | true =>
      obtain ⟨rfl, none⟩ := side flagged
      exact ⟨none, ok.inflight rfl⟩
  have balance := shared.balance
  have deallocators := shared.deallocators
  rw [alive, Bool.toNat_false] at balance deallocators
  exact preserves_store shared ok shared.width shared.flag (Or.inl rfl) (by rw [alive]; simp; omega) (by dsimp only; omega)
    (by rw [deallocators]; rfl) (Or.inr ⟨alive, rfl, rfl, by omega⟩) bounded' (resting_afterRelease _) ok.inflight

/-- **The code keeps the invariant** when the thread's references are among those that are left. -/
theorem stepOk_advance (holds : here.held + g.releases ≤ 1 + initialExtra + g.retains) :
    StepOk arch initialExtra thread g here := by
  intro fail g' here' ok run bounded'
  obtain ⟨held, pc⟩ := here
  have halves := two_rcHalf arch
  have width := shared.width
  cases pc with
  | idle => cases run
  | retainLoad => exact stepOk_retainLoad shared ok run bounded'
  | retainLock oldisa =>
    simp only [advance] at run
    split at run
    · cases run
    · rename_i free
      cases run
      exact preserves_lock shared (by simpa using free) (.retainStore false true true oldisa) rfl rfl
        ⟨by rintro ⟨⟩, by rintro ⟨⟩, fun _ => rfl⟩ (by rintro ⟨⟩)
  | retainStore => exact stepOk_retainStore shared ok run bounded'
  | retainTranscribe tryRetain =>
    cases run
    have resting : Resting Thread arch _ _ 0 := resting_afterRetain tryRetain true
    exact preserves_add shared ok (afterRetain tryRetain true) rfl rfl (by rw [resting.lock, Bool.or_true]) resting.inflight
      resting.ok (fun releasing => by rw [resting.releasing] at releasing; cases releasing)
  | retainUnlock | tryRetained | releaseUnlock => cases run; exact preserves_unlock shared ok rfl rfl
  | releaseLoad => exact stepOk_releaseLoad shared holds ok run bounded'
  | releaseLock =>
    simp only [advance] at run
    split at run
    · cases run
    · rename_i free
      cases run
      exact preserves_lock shared (by simpa using free) (.releaseLoad true true) rfl rfl (by rintro ⟨⟩) (fun _ => ok.held rfl)
  | releaseStore =>
    obtain ⟨slow, room⟩ := ok.pc
    have mine : 1 ≤ held := ok.held rfl
    rcases stored_or run with run | ⟨rfl, run⟩
    · cases run
      exact preserves_move shared ok rfl rfl slow (fun _ => mine)
    · cases run
      exact preserves_store shared ok (by dsimp only; omega) shared.flag (Or.inl rfl) (by dsimp only; omega)
        (by dsimp only; omega) shared.deallocators (Or.inl rfl) bounded' (resting_afterRelease _) ok.inflight
  | releaseBorrow => exact stepOk_releaseBorrow shared ok run bounded'
  | releaseStoreBorrowed =>
    obtain ⟨_, rfl⟩ := ok.pc
    have mine : 1 ≤ held := ok.held rfl
    have carried : g.inflight = arch.rcHalf := ok.inflight rfl
    rcases stored_or run with run | ⟨rfl, run⟩
    · cases run
      exact preserves_move shared ok rfl rfl rfl (fun _ => mine)
    · cases run
      exact preserves_store shared ok (by dsimp only; omega) (fun clear => ⟨(shared.flag clear).1, rfl⟩) (Or.inr ⟨rfl, Or.inl rfl⟩)
        (by dsimp only; omega) (by dsimp only; omega) shared.deallocators (Or.inl rfl) bounded' ⟨rfl, rfl, fun _ => trivial, rfl⟩ fun _ => rfl
  | releaseReload borrowed =>
    obtain rfl : borrowed = arch.rcHalf := ok.pc
    simp only [advance] at run
    split at run
    · rename_i room
      cases run
      exact preserves_move shared ok rfl rfl ⟨rfl, room⟩ (fun _ => ok.held rfl)
    · cases run
      exact preserves_move shared ok rfl rfl rfl (fun _ => ok.held rfl)
  | releaseStoreMerged =>
    obtain ⟨rfl, room⟩ := ok.pc
    have mine : 1 ≤ held := ok.held rfl
    have carried : g.inflight = arch.rcHalf := ok.inflight rfl
    rcases stored_or run with run | ⟨rfl, run⟩
    · cases run
      exact preserves_move shared ok rfl rfl rfl (fun _ => mine)
    · cases run
      exact preserves_store shared ok room (fun clear => ⟨(shared.flag clear).1, rfl⟩) (Or.inr ⟨rfl, Or.inl rfl⟩)
        (by dsimp only; omega) (by dsimp only; omega) shared.deallocators (Or.inl rfl) bounded' ⟨rfl, rfl, fun _ => trivial, rfl⟩ fun _ => rfl
  | releaseUndo borrowed =>
    obtain rfl : borrowed = arch.rcHalf := ok.pc
    cases run
    exact preserves_add shared ok (.releaseLoad true true) rfl rfl rfl rfl (by rintro _ ⟨⟩) (fun _ => ok.held rfl)
  | releaseStoreDeallocating => exact stepOk_storeDeallocating shared ok run bounded'

theorem preserves_step (ok : ThreadOk arch thread g here) (holds : here.held + g.releases ≤ 1 + initialExtra + g.retains)
    (step : ThreadStep arch initialExtra thread g here g' here') : Preserves arch initialExtra thread g here g' here' := by
  cases step with
  | code _ run bounded' => exact stepOk_advance shared holds ok run bounded'
  | retain => exact preserves_move shared ok rfl rfl (fun _ => rfl) nofun
  | tryRetain free => exact preserves_lock shared free (.retainLoad true false false) rfl rfl (fun _ => rfl) nofun
  | release mine => exact preserves_move shared ok rfl rfl (fun _ => rfl) (fun _ => mine)
  | @park | @take =>
    exact ⟨{ shared with }, ⟨ok.lock, ok.inflight, trivial, nofun⟩, ⟨fun _ _ => Iff.rfl, fun _ _ _ => ⟨rfl, rfl⟩⟩, by dsimp only; omega, Or.inl rfl⟩

end

end Steps

/-! ## Every run -/

section Runs

open Lib.Threads

variable [Fintype Thread] [DecidableEq Thread]

/-- Every reference is held by a thread, parked, or released. -/
def References (initialExtra : Nat) (config : Config Thread (Shared Thread) Local) : Prop :=
  (∑ thread, (config.threads thread).held) + config.shared.parked + config.shared.releases = 1 + initialExtra + config.shared.retains

omit [DecidableEq Thread] in
theorem References.holds {initialExtra : Nat} {config : Config Thread (Shared Thread) Local}
    (references : References initialExtra config) (thread : Thread) :
    (config.threads thread).held + config.shared.releases ≤ 1 + initialExtra + config.shared.retains := by
  have part := amount_le_sum Local.held config.threads thread
  unfold References at references
  omega

theorem invariant (arch : Arch) (initialExtra : Nat) : Invariant (ThreadStep arch initialExtra)
      (fun config : Config Thread (Shared Thread) Local => SharedOk arch initialExtra config.shared ∧ References initialExtra config)
      (ThreadOk arch) where
  own {thread config shared' here'} step whole ok := by
    have preserves := preserves_step whole.1 ok (whole.2.holds thread) step
    refine ⟨⟨preserves.shared, ?_⟩, preserves.own⟩
    have change := sum_update Local.held config.threads thread here'
    have moved := preserves.references
    have before := whole.2
    unfold References at before ⊢
    dsimp only
    omega
  others {thread config shared' here'} step whole ok other different there okThere :=
    (preserves_step whole.1 ok (whole.2.holds thread) step).leaves.threadOk different okThere

omit [DecidableEq Thread] in
theorem invariant_initial {initialExtra : Nat} (config : Config Thread (Shared Thread) Local) (initial : Initial arch initialExtra config) :
    (SharedOk arch initialExtra config.shared ∧ References initialExtra config) ∧
      ∀ thread, ThreadOk arch thread config.shared (config.threads thread) := by
  obtain ⟨shared, threads⟩ := config
  obtain ⟨idle, references, bounded, _, extraRc, chunks, width, split, isShared⟩ := initial
  generalize shared.parked = parked at references isShared
  subst isShared
  have word : (if chunks = 0 then none else some (chunks * arch.rcHalf * 4)).getD 0 = chunks * arch.rcHalf * 4 := by
    split
    case isTrue zero =>
      rw [zero, Nat.zero_mul, Nat.zero_mul]
      rfl
    case isFalse => rfl
  have side : sidetableGetExtraRC (if chunks = 0 then none else some (chunks * arch.rcHalf * 4)) = chunks * arch.rcHalf := by
    rw [sidetableGetExtraRC, word]
    omega
  refine ⟨⟨⟨width, ⟨chunks, word⟩, fun clear => ⟨?_, rfl⟩, fun _ => rfl, .inl rfl, ?_, rfl, ?_, rfl, rfl⟩, ?_⟩, fun thread => ?_⟩
  · have zero : chunks = 0 := by simpa using clear
    rw [Shared.sideCount, side, zero, Nat.zero_mul]
  · simp only [Shared.sideCount, side, Bool.toNat_false]
    omega
  · rw [Bounded, Nat.add_zero, Nat.add_zero]
    exact bounded
  · unfold References
    omega
  · have idle := idle thread
    constructor <;> rw [idle]
    · exact ⟨nofun, nofun⟩
    · exact nofun
    · trivial
    · exact nofun

theorem inflight_of_not_between (arch : Arch) {pc : Pc} (settled : pc.betweenUpdates = false) : pc.inflight arch = 0 := by
  cases pc <;> first | rfl | cases settled

omit [Fintype Thread] [DecidableEq Thread] in
/-- The step that completes a `rootTryRetain`, by a failing load or a successful store, finds the bit. -/
theorem tryRetain_complete {thread : Thread} {g g' : Shared Thread} {here here' : Local} {fail : Bool} (ok : ThreadOk arch thread g here)
    (trying : here.pc.tryRetaining = true) (run : advance arch thread fail g here = some (g', here'))
    (complete : here'.pc = .tryRetained false ∨ g'.retains = g.retains + 1) :
    here'.pc = .tryRetained false ↔ g.isa.deallocating = true := by
  obtain ⟨_, pc⟩ := here
  cases pc with
  | retainLoad tryRetain =>
    cases tryRetain with
    | false => cases trying
    | true =>
      simp only [advance, Bool.true_and] at run
      split at run
      · rename_i dying
        cases run
        exact ⟨fun _ => dying, fun _ => rfl⟩
      · exfalso
        split_ifs at run <;> cases run <;> rcases complete with failed | succeeded <;>
          first | cases failed | exact absurd succeeded (Nat.ne_of_lt (Nat.lt_succ_self _))
  | retainStore tryRetain _ _ oldisa =>
    cases tryRetain with
    | false => cases trying
    | true =>
      have alive : oldisa.deallocating = false := ok.pc.2.1 rfl
      rcases stored_or run with run | ⟨rfl, run⟩
      · exfalso
        cases run
        rcases complete with failed | succeeded
        · cases failed
        · exact absurd succeeded (Nat.ne_of_lt (Nat.lt_succ_self _))
      · rw [alive]
        split at run <;> cases run <;> constructor <;> rintro ⟨⟩
  | _ => cases trying

/-- **Reference counts are neither lost nor duplicated, and the object is deallocated once.** The release that
sets the deallocating bit takes nothing off the counts: from then on they are one more than the references. -/
theorem refcount_safe (arch : Arch) (initialExtra : Nat) (config : Config Thread (Shared Thread) Local)
    (reached : Reachable (ThreadStep arch initialExtra) (Initial arch initialExtra) config) :
    ((∀ thread, (config.threads thread).pc.betweenUpdates = false) →
      1 + config.shared.isa.extraRc + config.shared.sideCount + config.shared.releases =
        1 + initialExtra + config.shared.retains + config.shared.isa.deallocating.toNat) ∧
    config.shared.deallocators = config.shared.isa.deallocating.toNat ∧ (∀ config', Step (ThreadStep arch initialExtra) config config' →
      (config.shared.isa.deallocating = true → config'.shared.isa.deallocating = true) ∧
      (config.shared.isa.deallocating = false → (config'.shared.isa.deallocating = true ↔
        config'.shared.releases = config.shared.releases + 1 ∧ config'.shared.releases = 1 + initialExtra + config'.shared.retains))) ∧
    config.shared.underflow = false ∧ config.shared.overreleased = false ∧
    ∀ thread fail g' here', advance arch thread fail config.shared (config.threads thread) = some (g', here') →
      (config.threads thread).pc.tryRetaining = true → here'.pc = .tryRetained false ∨ g'.retains = config.shared.retains + 1 →
      (here'.pc = .tryRetained false ↔ config.shared.isa.deallocating = true) := by
  obtain ⟨⟨shared, references⟩, threads⟩ := (invariant arch initialExtra).reachable invariant_initial reached
  refine ⟨fun settled => ?_, shared.deallocators, fun config' move => ?_, shared.noUnderflow, shared.noOverrelease,
    fun thread fail g' here' run trying => tryRetain_complete (threads thread) trying run⟩
  · have none : config.shared.inflight = 0 := by
      cases isLocked : config.shared.lock with
      | none => exact shared.unlocked isLocked
      | some thread =>
        rw [(threads thread).inflight ((threads thread).lock.1 isLocked)]
        exact inflight_of_not_between arch (settled thread)
    have balance := shared.balance
    omega
  · obtain ⟨thread, step⟩ := move
    have preserves := preserves_step shared (threads thread) (references.holds thread) step
    have after := preserves.shared.balance
    rcases preserves.deallocating with same | ⟨alive, dying, release, last⟩
    · refine ⟨same.trans, fun alive => ⟨fun dying => ?_, fun ⟨_, last⟩ => ?_⟩⟩
      · exact Bool.noConfusion (alive.symm.trans (same.symm.trans dying))
      · -- nothing is left of the counts, but they were one above zero
        exfalso
        dsimp only at last
        rw [same, alive, Bool.toNat_false] at after
        omega
    · exact ⟨fun _ => dying, fun _ => ⟨fun _ => ⟨release, last⟩, fun _ => dying⟩⟩

/-- A fresh object with one reference, released by its only thread. -/
theorem released_reachable : ∃ config : Config Unit (Shared Unit) Local,
    Reachable (ThreadStep .arm64 0) (Initial .arm64 0) config ∧ (∀ thread, (config.threads thread).pc = .idle) ∧
      config.shared.isa = ⟨0, true, false, 0⟩ ∧ config.shared.sideCount = 0 ∧ config.shared.retains = 0 ∧
      config.shared.releases = 1 ∧ config.shared.deallocators = 1 := by
  have start : Initial .arm64 0 (⟨⟨⟨0, false, false, 0⟩, none, none, 0, 0, 0, 0, 0, false, false⟩,
      fun _ => ⟨1, .idle⟩⟩ : Config Unit (Shared Unit) Local) := ⟨fun _ => rfl, rfl, by decide, 0, 0, 0, by decide, rfl, rfl⟩
  have bounded : ∀ g : Shared Unit, g.retains = 0 → Bounded 0 g := by
    intro g none
    unfold Bounded
    omega
  have reached : Reachable (ThreadStep .arm64 0) (Initial .arm64 0) _ :=
    ((Reachable.start start
      |>.next (.of () (.release (Nat.le_refl 1))))
      |>.next (.of () (.code false rfl (bounded _ rfl))))
      |>.next (.of () (.code false rfl (bounded _ rfl)))
  exact ⟨_, reached, fun _ => rfl, rfl, rfl, rfl, rfl, rfl⟩

/-- Counting every completed release, the counts of a deallocating object are one too many. -/
theorem refcount_off_by_one_when_deallocating :
    ¬ ∀ config : Config Unit (Shared Unit) Local, Reachable (ThreadStep .arm64 0) (Initial .arm64 0) config →
      (∀ thread, (config.threads thread).pc.betweenUpdates = false) →
      1 + config.shared.isa.extraRc + config.shared.sideCount + config.shared.releases = 1 + 0 + config.shared.retains := by
  intro always
  obtain ⟨config, reached, idle, isa, side, retains, releases, _⟩ := released_reachable
  have wrong := always config reached fun thread => by rw [idle]; rfl
  rw [isa, side, retains, releases] at wrong
  cases wrong

theorem refcount_safe_released : ∃ config : Config Unit (Shared Unit) Local,
    Reachable (ThreadStep .arm64 0) (Initial .arm64 0) config ∧ config.shared.releases = 1 ∧
      1 + config.shared.isa.extraRc + config.shared.sideCount + config.shared.releases = 1 + 0 + config.shared.retains + 1 := by
  obtain ⟨config, reached, idle, isa, _, _, releases, _⟩ := released_reachable
  have balance := (refcount_safe .arm64 0 config reached).1 fun thread => by rw [idle]; rfl
  have bit : config.shared.isa.deallocating.toNat = 1 := by rw [isa]; rfl
  rw [bit] at balance
  exact ⟨config, reached, releases, balance⟩

end Runs

end DarwinNotes.Objc.Refcount
