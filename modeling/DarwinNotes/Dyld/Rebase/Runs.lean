import DarwinNotes.Dyld.Rebase.Model

/-!
# Rebasing inside the segments

The only check is that an address is below the end of the segment. An address that comes round is below the start, the slot of an address
that is not aligned may go beyond the end, and a skip of -8 repeats one address for ever. If the sizes and all operands are whole pointers
and no address comes round, the address stays above the start and aligned, so that the check suffices and every loop comes to the end.
-/

namespace DarwinNotes.Dyld.Rebase

variable {segments : List Segment}

inductive Reaches (segments : List Segment) : State → State → Prop
  | refl (state : State) : Reaches segments state state
  | step {state next last : State} : (step segments state).2 = .ok (some next) → Reaches segments next last → Reaches segments state last

/-- The run comes to a step that throws or ends. -/
def Halts (segments : List Segment) (state : State) : Prop :=
  ∃ last, Reaches segments state last ∧ ∀ next, (step segments last).2 ≠ .ok (some next)

/-- The pointer at the address is in the segment. -/
def Segment.Has (segment : Segment) (address : Nat) : Prop := segment.start ≤ address ∧ address + 8 ≤ segment.start + segment.size

/-- The opcode moves the address by whole pointers, and not round. -/
def Opcode.IsWhole (state : State) : Opcode → Prop
  | setSegmentAndOffset segment offset => 8 ∣ offset ∧ segment.start + offset < 2 ^ 64
  | addAddr amount => 8 ∣ amount ∧ state.address + amount < 2 ^ 64
  | doRebaseTimes _ skip => 8 ∣ skip ∧ state.segment.endAddress + skip < 2 ^ 64
  | _ => True

/-- So does what is read next. -/
def State.IsWhole (segments : List Segment) (state : State) : Prop :=
  match state.mode with
  | .opcode => ∀ opcode p, decode segments state.p = .ok (opcode, p) → opcode.IsWhole state
  | .times _ _ _ => True
  | .operand => ∀ amount p, readUleb128 0 0 state.p = .ok (amount, p) → 8 ∣ amount ∧ state.address + (amount + 8) < 2 ^ 64

/-! ## Reading -/

theorem readUleb128_shorter {bit result : Nat} {p p' : List UInt8} {value : Nat} (read : readUleb128 bit result p = .ok (value, p')) :
    p'.length < p.length := by
  induction p generalizing bit result with
  | nil => cases read
  | cons _ _ ih =>
    unfold readUleb128 at read
    split at read
    · cases read
    split at read
    · exact Nat.lt_succ_of_lt (ih read)
    · cases read
      exact Nat.lt_succ_self _

theorem decode_cases {p p' : List UInt8} {opcode : Opcode} (decoded : decode segments p = .ok (opcode, p')) :
    (opcode = .done ∨ p'.length < p.length) ∧ ∀ segment offset, opcode = .setSegmentAndOffset segment offset → segment ∈ segments := by
  cases p with
  | nil =>
    cases decoded
    exact ⟨.inl rfl, nofun⟩
  | cons =>
    simp only [decode, bind, Except.bind, pure, Except.pure] at decoded
    split at decoded <;> grind [→ readUleb128_shorter]

/-! ## Steps -/

/-- Where the address is, and how far a loop moves it. -/
structure Inside (state : State) : Prop where
  whole : 8 ∣ state.segment.size
  above : state.segment.start ≤ state.address
  aligned : 8 ∣ state.address - state.segment.start
  skip : ∀ i count skip, state.mode = .times i count skip → 8 ∣ skip ∧ state.segment.endAddress + skip < 2 ^ 64

def Mode.rank : Mode → Nat
  | times _ _ _ => 1
  | _ => 0

/-- What a step reads or how it gets on -/
def Advances (state next : State) : Prop :=
  Prod.Lex (· < ·) (Prod.Lex (· < ·) (· < ·)) (next.p.length, next.mode.rank, next.segment.endAddress - next.address)
    (state.p.length, state.mode.rank, state.segment.endAddress - state.address)

theorem Inside.has {state : State} (inside : Inside state) (below : state.address < state.segment.endAddress) :
    state.segment.Has state.address ∧ state.segment.endAddress = state.segment.start + state.segment.size := by
  obtain ⟨whole, above, aligned, -⟩ := inside
  have inSpace := state.segment.inSpace
  unfold Segment.endAddress at below ⊢
  unfold Segment.Has
  omega

theorem rebaseAt_spec {state next : State} {good : State → Prop} (inside : Inside state)
    (goesOn : state.address < state.segment.endAddress → good next) :
    (∀ address ∈ (state.rebaseAt next).1, state.segment.Has address) ∧ ∀ after, (state.rebaseAt next).2 = .ok (some after) → good after := by
  unfold State.rebaseAt
  split
  · simp
  case isFalse notBeyond =>
    have below := Nat.not_le.mp notBeyond
    refine ⟨by simp [(inside.has below).1], ?_⟩
    split
    · rintro _ ⟨⟩
      exact goesOn below
    · simp

/-- A step calls `rebaseAt` inside the segment only, and goes on. -/
theorem Inside.step {state : State} (inside : Inside state) (isWhole : state.IsWhole segments)
    (sizes : ∀ segment ∈ segments, 8 ∣ segment.size) : (∀ address ∈ (step segments state).1, state.segment.Has address) ∧
      ∀ next, (Rebase.step segments state).2 = .ok (some next) → Inside next ∧ Advances state next := by
  obtain ⟨whole, above, aligned, skips⟩ := inside
  unfold Rebase.step
  unfold State.IsWhole at isWhole
  cases mode : state.mode with
  | opcode =>
    rw [mode] at isWhole
    cases decoded : decode segments state.p with
    | error => simp
    | ok result =>
      obtain ⟨opcode, p⟩ := result
      have isWhole := isWhole opcode p decoded
      obtain ⟨shorter, mem⟩ := decode_cases decoded
      have advances : ∀ {next : State}, opcode ≠ .done → next.p = p → Advances state next := by
        intro next goesOn same
        exact .left _ _ (same ▸ shorter.resolve_left goesOn)
      simp only [State.perform, State.add]
      cases opcode with
      | done => simp
      | setType =>
        refine ⟨by simp, ?_⟩
        rintro _ ⟨⟩
        exact ⟨⟨whole, above, aligned, nofun⟩, advances nofun rfl⟩
      | setSegmentAndOffset segment =>
        refine ⟨by simp, ?_⟩
        rintro _ ⟨⟩
        rw [Nat.mod_eq_of_lt isWhole.2]
        refine ⟨⟨sizes segment (mem _ _ rfl), Nat.le_add_right _ _, ?_, nofun⟩, advances nofun rfl⟩
        rw [Nat.add_sub_cancel_left]
        exact isWhole.1
      | addAddr =>
        refine ⟨by simp, ?_⟩
        rintro _ ⟨⟩
        obtain ⟨isPointers, inSpace⟩ := isWhole
        exact ⟨⟨whole, by dsimp only; omega, by dsimp only; omega, nofun⟩, advances nofun rfl⟩
      | doRebaseTimes =>
        refine ⟨by simp, ?_⟩
        rintro _ ⟨⟩
        refine ⟨⟨whole, above, aligned, ?_⟩, advances nofun rfl⟩
        rintro _ _ _ ⟨⟩
        exact isWhole
      | doRebaseAddAddr =>
        refine @rebaseAt_spec { state with p } _ _ ⟨whole, above, aligned, skips⟩ fun _ => ?_
        exact ⟨⟨whole, above, aligned, nofun⟩, advances nofun rfl⟩
  | times i count skip =>
    simp only
    split
    · refine rebaseAt_spec ⟨whole, above, aligned, skips⟩ fun below => ?_
      obtain ⟨⟨-, fits⟩, isEnd⟩ := Inside.has ⟨whole, above, aligned, skips⟩ below
      obtain ⟨isPointers, inSpace⟩ := skips i count skip mode
      simp only [State.add, Advances, mode, Nat.mod_eq_of_lt (by omega : state.address + (skip + 8) < 2 ^ 64)]
      refine ⟨⟨whole, by dsimp only; omega, by dsimp only; omega, ?_⟩, .right _ (.right _ (by omega))⟩
      rintro _ _ _ ⟨⟩
      exact ⟨isPointers, inSpace⟩
    · refine ⟨by simp, ?_⟩
      rintro _ ⟨⟩
      refine ⟨⟨whole, above, aligned, nofun⟩, ?_⟩
      rw [Advances, mode]
      exact .right _ (.left _ _ Nat.one_pos)
  | operand =>
    rw [mode] at isWhole
    cases read : readUleb128 0 0 state.p with
    | error => simp
    | ok result =>
      obtain ⟨amount, p⟩ := result
      obtain ⟨isPointers, inSpace⟩ := isWhole amount p read
      refine ⟨by simp, ?_⟩
      rintro _ ⟨⟩
      simp only [State.add, Nat.mod_eq_of_lt inSpace]
      exact ⟨⟨whole, by dsimp only; omega, by dsimp only; omega, nofun⟩, .left _ _ (readUleb128_shorter read)⟩

/-! ## Runs -/

section Runs

variable (sizes : ∀ segment ∈ segments, 8 ∣ segment.size)
include sizes

theorem Inside.reaches {state last : State} (inside : Inside state) (reaches : Reaches segments state last)
    (isWhole : ∀ last, Reaches segments state last → last.IsWhole segments) : Inside last := by
  induction reaches with
  | refl => exact inside
  | step goes _ ih =>
    have next := ((inside.step (isWhole _ (.refl _)) sizes).2 _ goes).1
    exact ih next fun last reaches => isWhole last (.step goes reaches)

theorem Inside.halts {state : State} (inside : Inside state) (isWhole : ∀ last, Reaches segments state last → last.IsWhole segments) :
    Halts segments state := by
  by_cases goes : ∃ next, (Rebase.step segments state).2 = .ok (some next)
  · obtain ⟨next, goes⟩ := goes
    obtain ⟨inside, advances⟩ := (inside.step (isWhole _ (.refl _)) sizes).2 next goes
    obtain ⟨last, reaches, ends⟩ := inside.halts fun last reaches => isWhole last (.step goes reaches)
    exact ⟨last, .step goes reaches, ends⟩
  · exact ⟨state, .refl state, not_exists.mp goes⟩
termination_by (state.p.length, state.mode.rank, state.segment.endAddress - state.address)
decreasing_by exact advances

/-- If the sizes of the segments are whole pointers, and so is what each opcode moves the address by, which does not come round, `rebase`
comes to an end, and it changes pointers inside the selected segment only. -/
theorem rebase_inside {first : Segment} (isFirst : segments.head? = some first) (bytes : List UInt8)
    (isWhole : ∀ state, Reaches segments (start first bytes) state → state.IsWhole segments) : Halts segments (start first bytes) ∧
      ∀ state, Reaches segments (start first bytes) state → ∀ address ∈ (step segments state).1, state.segment.Has address := by
  have inside : Inside (start first bytes) := by
    refine ⟨sizes first (List.mem_of_mem_head? isFirst), Nat.le_refl _, ?_, nofun⟩
    simp [start]
  refine ⟨inside.halts sizes isWhole, fun state reaches => ?_⟩
  exact ((inside.reaches sizes reaches isWhole).step (isWhole state reaches) sizes).1

end Runs

/-- `DO_REBASE_IMM_TIMES` in a segment of two pointers -/
theorem rebase_inside_once : Halts [⟨0x1000, 0x10, by decide⟩] (start ⟨0x1000, 0x10, by decide⟩ [0x51]) := by
  refine (rebase_inside (by simp) rfl [0x51] fun state reaches => ?_).1
  rcases reaches with _ | ⟨goes, reaches⟩
  · intro opcode p decoded
    cases decoded
    exact ⟨Nat.dvd_zero 8, by decide⟩
  cases goes
  rcases reaches with _ | ⟨goes, -⟩
  · exact trivial
  · cases goes

/-- A pointer at the last byte of the segment is changed, and nothing is thrown. -/
theorem rebase_straddles : ∃ state last, Reaches [⟨0x1000, 0x10, by decide⟩]
      (start ⟨0x1000, 0x10, by decide⟩ [0x11, 0x20, 0x0F, 0x51, 0x00]) state ∧
    (step [⟨0x1000, 0x10, by decide⟩] state).1 = [0x100F] ∧ ¬ state.segment.Has 0x100F ∧
    Reaches [⟨0x1000, 0x10, by decide⟩] state last ∧ (step [⟨0x1000, 0x10, by decide⟩] last).2 = .ok none := by
  refine ⟨_, _, .step rfl (.step rfl (.step rfl (.refl _))), rfl, fun has => ?_, .step rfl (.step rfl (.refl _)), rfl⟩
  exact absurd has.2 (by decide)

end DarwinNotes.Dyld.Rebase
