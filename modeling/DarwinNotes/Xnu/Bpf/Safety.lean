import DarwinNotes.Xnu.Bpf.Model

/-!
# Validated filters are safe

A checked instruction returns or leads further down, and a jump stays inside the program. The last instruction returns, so that a run takes
at most one turn for each instruction, and no turn faults.
-/

namespace DarwinNotes.Xnu.Bpf

open List

variable {overshift : UInt32 → UInt32 → UInt32} {packet : Packet} {wirelen : UInt32}

/-! ## Loads -/

section
variable (buflen k X : UInt32)

/-! The tests against `buflen` without wrapping round -/

theorem outside (size : UInt32) : (decide (k > buflen) || decide (size > buflen - k)) = decide (buflen.toNat < k.toNat + size.toNat) := by
  have buflen_lt := buflen.toNat_lt
  rw [Bool.eq_iff_iff]
  simp [UInt32.lt_iff_toNat_lt, UInt32.toNat_sub]
  omega

theorem outside_byte : decide (k ≥ buflen) = decide (buflen.toNat < k.toNat + 1) := by simp [UInt32.le_iff_toNat_le, Nat.lt_succ_iff]

/-- The sum does not come round where the first two tests pass. -/
theorem outside_ind (size : UInt32) : (decide (buflen.toNat < X.toNat + k.toNat) || decide (size > buflen - (X + k))) =
    decide (buflen.toNat < X.toNat + k.toNat + size.toNat) := by
  have buflen_lt := buflen.toNat_lt
  rw [Bool.eq_iff_iff]
  simp [UInt32.lt_iff_toNat_lt, UInt32.toNat_sub]
  omega

theorem outside_byte_ind : (decide (k ≥ buflen) || decide (X ≥ buflen - k)) = decide (buflen.toNat < X.toNat + k.toNat + 1) := by
  have buflen_lt := buflen.toNat_lt
  rw [Bool.eq_iff_iff]
  simp [UInt32.le_iff_toNat_le, UInt32.toNat_sub]
  omega

end

theorem Packet.buflen_flat {bytes : List UInt8} {fits : bytes ≠ [] ∧ bytes.length < 2 ^ 32} :
    (flat bytes fits).buflen.toNat = bytes.length := UInt32.toNat_ofNat_of_lt' fits.2

theorem Width.size_pos (width : Width) : 0 < width.size := by cases width <;> decide

/-- A load that passes its test is inside the flat buffer; no test passes for a chain. -/
theorem Packet.load_ok (width : Width) {place : Nat} {k : UInt32} (at_most : k.toNat ≤ place) :
    ∃ value, packet.load width (decide (packet.buflen.toNat < place + width.size)) k = .ok value := by
  have size := width.size_pos
  unfold load
  cases packet with
  | flat =>
    simp only [buflen_flat, decide_eq_true_eq]
    split
    case isTrue => exact ⟨none, rfl⟩
    case isFalse => exact ⟨_, if_pos (by omega)⟩
  | chain mbufs =>
    have outside : (chain mbufs).buflen.toNat < place + width.size := show 0 < _ by omega
    exact ⟨_, if_pos (decide_eq_true outside)⟩

/-! ## Steps -/

/-- What a turn does: it returns, or goes on without going back, and to no other place than the next unless that is in the program. -/
def Proceeds (len : Nat) (s : State) (p : Insn) (result : Step) : Prop :=
  (∃ value, result = .ok (.inl value)) ∨
    p.code &&& 0x07 ≠ 0x06 ∧ ∃ s', result = .ok (.inr s') ∧ s.pc ≤ s'.pc ∧ (s'.pc = s.pc ∨ s'.pc + 1 < len)

section
variable {len : Nat} {s : State} {p : Insn}

/-! What the validator checks -/

section
variable {bpf_maxbufsize : UInt32} (few : len ≤ BPF_MAXINSNS) (inside : s.pc < len)
  (checked : p.check bpf_maxbufsize len.toUInt32 s.pc.toUInt32)
include few inside checked

omit few in
theorem Insn.check_goto (isJump : p.code &&& 0x07 = 0x05) (always : p.code &&& 0xf0 = 0) : s.pc + p.k.toNat + 1 < len := by
  have k_lt := p.k.toNat_lt
  simp [check, isJump, always, UInt32.lt_iff_toNat_lt, UInt32.le_iff_toNat_le] at checked
  omega

theorem Insn.check_jump (isJump : p.code &&& 0x07 = 0x05) (conditional : p.code &&& 0xf0 ≠ 0) (taken : Bool) :
    s.pc + (if taken then p.jt else p.jf).toNat + 1 < len := by
  have small : len < 2 ^ 10 := by unfold BPF_MAXINSNS at few; omega
  have jt_lt := p.jt.toNat_lt
  have jf_lt := p.jf.toNat_lt
  unfold check at checked
  simp only [isJump] at checked
  split at checked
  case h_1 => contradiction
  case h_6 => cases checked
  all_goals
    simp [UInt32.le_iff_toNat_le] at checked
    cases taken <;> simp <;> omega

omit few inside

theorem Insn.check_mem (isLoad : p.code &&& 0x07 = 0x00 ∨ p.code &&& 0x07 = 0x01) (isMem : p.code &&& 0xe0 = 0x60) : p.k < BPF_MEMWORDS := by
  obtain isLoad | isLoad := isLoad <;> simpa [check, isLoad, isMem] using checked

theorem Insn.check_div (code : p.code = 0x34) : p.k ≠ 0 := by
  have isAlu : p.code &&& 0x07 = 0x04 := by rw [code]; rfl
  have isDiv : p.code &&& 0xf0 = 0x30 := by rw [code]; rfl
  have isK : p.code &&& 0x08 = 0 := by rw [code]; rfl
  simpa [check, isAlu, isDiv, isK] using checked

end

section
variable (goesOn : p.code &&& 0x07 ≠ 0x06)
include goesOn

theorem Proceeds.loadA {value : Except Fault (Option UInt32)} (ok : ∃ result, value = .ok result) : Proceeds len s p (s.loadA value) := by
  obtain ⟨_ | A, rfl⟩ := ok
  · exact .inl ⟨0, rfl⟩
  · exact .inr ⟨goesOn, _, rfl, Nat.le_refl _, .inl rfl⟩

theorem Proceeds.read {into : UInt32 → State} (same : ∀ value, (into value).pc = s.pc) (below : p.k < BPF_MEMWORDS) :
    Proceeds len s p (s.read p.k into) := by
  refine .inr ⟨goesOn, _, if_pos below, ?_, .inl (same _)⟩
  exact Nat.le_of_eq (same _).symm

theorem Proceeds.write {value : UInt32} : Proceeds len s p (s.write p.k value) := by
  unfold State.write
  split
  · exact .inl ⟨0, rfl⟩
  · exact .inr ⟨goesOn, _, rfl, Nat.le_refl _, .inl rfl⟩

end

theorem step_proceeds {bpf_maxbufsize : UInt32} (few : len ≤ BPF_MAXINSNS) (inside : s.pc < len)
    (checked : p.check bpf_maxbufsize len.toUInt32 s.pc.toUInt32) : Proceeds len s p (step overshift packet wirelen s p) := by
  have ind_le : (s.X + p.k).toNat ≤ s.X.toNat + p.k.toNat := by exact Nat.mod_le _ _
  unfold step
  simp only [outside, outside_byte, outside_ind, Nat.add_comm p.k.toNat s.X.toNat, ↓outside_byte_ind]
  split
  all_goals rename_i code
  all_goals try exact .inl ⟨_, rfl⟩
  all_goals have goesOn : p.code &&& 0x07 ≠ 0x06 := by rw [code]; decide
  all_goals try exact .inr ⟨goesOn, _, rfl, Nat.le_refl _, .inl rfl⟩
  all_goals try exact .write goesOn
  case h_18 =>
    exact .inr ⟨goesOn, _, rfl, Nat.le_add_right _ _, .inr (Insn.check_goto inside checked (by rw [code]; rfl) (by rw [code]; rfl))⟩
  all_goals try
    exact .inr ⟨goesOn, _, rfl, Nat.le_add_right _ _, .inr (Insn.check_jump few inside checked (by rw [code]; rfl) (by rw [code]; decide) _)⟩
  case h_14 | h_15 => exact .read goesOn (fun _ => rfl) (Insn.check_mem checked (by rw [code]; decide) (by rw [code]; rfl))
  case h_4 =>
    obtain ⟨_, ok⟩ := packet.load_ok .half (Nat.le_refl p.k.toNat)
    apply Proceeds.loadA goesOn
    split
    · exact ⟨_, congrArg _ ok⟩
    · exact ⟨_, ok⟩
  case h_11 =>
    obtain ⟨_ | byte, ok⟩ := packet.load_ok .byte (Nat.le_refl p.k.toNat)
    · exact .inl ⟨0, congrArg _ ok⟩
    · exact .inr ⟨goesOn, _, congrArg _ ok, Nat.le_refl _, .inl rfl⟩
  case h_30 =>
    split
    · exact .inl ⟨0, rfl⟩
    · exact .inr ⟨goesOn, _, rfl, Nat.le_refl _, .inl rfl⟩
  case h_38 => exact .inr ⟨goesOn, _, if_neg (Insn.check_div checked code), Nat.le_refl _, .inl rfl⟩
  case h_3 | h_5 => exact .loadA goesOn (Packet.load_ok _ (Nat.le_refl _))
  all_goals exact .loadA goesOn (Packet.load_ok _ ind_le)

end

/-! ## Runs -/

structure Validated (bpf_maxbufsize : UInt32) (f : List Insn) : Prop where
  some_insn : 0 < f.length
  few : f.length ≤ BPF_MAXINSNS
  checked {pc : Nat} {p : Insn} : f[pc]? = some p → p.check bpf_maxbufsize f.length.toUInt32 pc.toUInt32
  last {p : Insn} : f[f.length - 1]? = some p → p.code &&& 0x07 = 0x06

section
variable {bpf_maxbufsize : UInt32} {f : List Insn}

theorem validated (valid : bpfValidate bpf_maxbufsize f) : Validated bpf_maxbufsize f := by
  simp only [bpfValidate, Bool.and_eq_true, List.all_eq_true, getLast?_eq_getElem?] at valid
  obtain ⟨⟨size, all⟩, last⟩ := valid
  simp only [Bool.not_eq_true', Bool.or_eq_false_iff, decide_eq_false_iff_not] at size
  constructor
  case some_insn => omega
  case few => omega
  case checked =>
    intro pc p fetched
    exact all (p, pc) (mem_zipIdx_iff_getElem?.mpr fetched)
  case last =>
    intro p fetched
    simpa [fetched] using last

/-- A run that is at an instruction and has a turn left for it and each one after it returns. -/
theorem Validated.run_ok (valid : Validated bpf_maxbufsize f) {turns : Nat} {s : State} (inside : s.pc < f.length)
    (enough : f.length ≤ s.pc + turns) : ∃ value, run overshift packet wirelen f turns s = .ok value := by
  induction turns generalizing s with
  | zero => omega
  | succ turns ih =>
    have fetched : f[s.pc]? = some f[s.pc] := getElem?_eq_getElem inside
    unfold run
    simp only [fetched]
    obtain ⟨value, returns⟩ | ⟨goesOn, s', next, _, _⟩ :=
      @step_proceeds overshift packet wirelen _ _ _ _ valid.few inside (valid.checked fetched)
    · exact ⟨value, by rw [returns]⟩
    rw [next]
    -- The instruction is not the last one, which is of the class RET.
    have before : s.pc ≠ f.length - 1 := fun same => goesOn (valid.last (same ▸ fetched))
    apply ih
    · show s'.pc + 1 < f.length
      omega
    · show f.length ≤ s'.pc + 1 + turns
      omega

variable (overshift packet wirelen) in
/-- A validated filter returns in at most as many turns as it has instructions: it fetches none outside, keeps to `mem`, does not divide by
zero, and reads no byte outside a flat buffer. -/
theorem validated_safe (valid : bpfValidate bpf_maxbufsize f) : ∃ value, bpfFilter overshift packet wirelen f = .ok value :=
  have validated := validated valid
  validated.run_ok validated.some_insn (Nat.le_add_left _ _)

end

theorem validated_safe_byte : ∃ value, bpfFilter (fun A _ => A) (.flat [1] (by decide)) 1 [⟨0x50, 0, 0, 0⟩, ⟨0x16, 0, 0, 0⟩] = .ok value :=
  @validated_safe _ _ _ 1 _ (by decide)

end DarwinNotes.Xnu.Bpf
