import DarwinNotes.Xnu.Bpf.Safety

/-!
# Filtering a chain of mbufs

A load from a chain looks at two mbufs at most, so that a word over three of them is not found, and takes the first byte of the second one
even if that is empty. An indirect load of a chain comes round where that of a flat buffer is rejected, and the half-word at a fixed place
is 0 if there is none. Where no run does either and the mbufs are not too small, chain and flat buffer give the same result.
-/

namespace DarwinNotes.Xnu.Bpf
open List

def Mbuf.bytes (m : Mbuf) : List UInt8 := (range m.len).map m.data

/-- The bytes of the packet -/
def contents (mbufs : List Mbuf) : List UInt8 := mbufs.flatMap Mbuf.bytes

/-- No mbuf behind the first is empty, and those before the last have three bytes. -/
def WellCut : List Mbuf → Prop
  | _ :: m0 :: next => 1 ≤ m0.len ∧ (next ≠ [] → 3 ≤ m0.len) ∧ WellCut (m0 :: next)
  | _ => True

/-! ## Loads -/

/-- What a load from a flat buffer gives -/
def Width.read (width : Width) (bytes : List UInt8) (k : Nat) : Option UInt32 :=
  if k + width.size ≤ bytes.length then some (extract ((bytes.drop k).take width.size)) else none

section
variable {width : Width} {bytes values : List UInt8} {k : Nat}

theorem Width.some_read (size : values.length = width.size) (same : ∀ i < width.size, bytes[k + i]? = values[i]?) :
    some (extract values) = width.read bytes k := by
  have positive := width.size_pos
  have inside : k + (width.size - 1) < bytes.length := by
    have last := same (width.size - 1) (by omega)
    exact (List.getElem?_eq_some_iff.mp (last.trans (getElem?_eq_getElem (by omega)))).1
  have taken : (bytes.drop k).take width.size = values := by
    apply ext_getElem?
    intro i
    rw [getElem?_take, getElem?_drop]
    split
    · exact same i ‹_›
    · exact (getElem?_eq_none (by omega)).symm
  rw [read, if_pos (by omega), taken]

theorem Width.none_read (outside : bytes.length < k + width.size) : none = width.read bytes k := (if_neg (Nat.not_le.mpr outside)).symm

end

section
variable {m : Mbuf} {next : List Mbuf} {k : Nat}

@[grind =] theorem contents_length : (contents (m :: next)).length = m.len + (contents next).length := by simp [contents, Mbuf.bytes]

@[grind =] theorem contents_get : (contents (m :: next))[k]? = if k < m.len then some (m.data k) else (contents next)[k - m.len]? := by
  unfold contents Mbuf.bytes
  grind

theorem mindex_next (behind : m.len ≤ k) : mindex (m :: next) k = mindex next (k - m.len) := if_pos behind

theorem mindex_here (here : k < m.len) : mindex (m :: next) k = some (m, next, k) := if_neg (Nat.not_le.mpr here)

/-- A load that begins in the first mbuf -/
theorem fetch_here (cut : WellCut (m :: next)) (here : k < m.len) (width : Width) :
    width.fetch (m :: next) k = width.read (contents (m :: next)) k := by
  cases width with
  | byte =>
    have isByte : mByte (m :: next) k = some (extract [m.data k]) := by simp [mByte, mindex_here here, extract]
    exact isByte.trans (Width.some_read rfl (by grind [Width.size]))
  | half =>
    simp only [Width.fetch, mXhalf, mindex_here here, Option.bind_some]
    split
    · exact Width.some_read rfl (by grind [Width.size])
    · cases next with
      | nil => exact Width.none_read (by grind [Width.size, contents])
      | cons =>
        have some_byte := cut.1
        exact Width.some_read rfl (by grind [Width.size])
  | word =>
    simp only [Width.fetch, mXword, mindex_here here, Option.bind_some]
    split
    · exact Width.some_read rfl (by grind [Width.size])
    cases next with
    | nil => exact Width.none_read (by grind [Width.size, contents])
    | cons _ next =>
      obtain ⟨some_byte, three, -⟩ := cut
      simp only
      split
      · cases next with
        | nil => exact Width.none_read (by grind [Width.size, contents])
        | cons => have := three (cons_ne_nil _ _); omega
      · split <;> exact Width.some_read rfl (by grind [Width.size])

theorem WellCut.tail (cut : WellCut (m :: next)) : WellCut next := by
  cases next with
  | nil => trivial
  | cons => exact cut.2.2

/-- **A load from a chain that is well cut is a load from its bytes.** -/
theorem fetch_eq {mbufs : List Mbuf} (cut : WellCut mbufs) (width : Width) : width.fetch mbufs k = width.read (contents mbufs) k := by
  induction mbufs generalizing k with
  | nil =>
    cases width <;> rfl
  | cons m next ih =>
    rcases Nat.lt_or_ge k m.len with here | behind
    · exact fetch_here cut here width
    · have passed : width.fetch (m :: next) k = width.fetch next (k - m.len) := by
        cases width <;> simp [Width.fetch, mByte, mXhalf, mXword, mindex_next behind]
      have dropped : (contents (m :: next)).drop k = (contents next).drop (k - m.len) := by
        apply ext_getElem?
        grind
      rw [passed, ih cut.tail, Width.read, Width.read, contents_length, dropped]
      exact if_congr (by omega) rfl rfl

end

/-! ## Runs -/

/-- The packet in one buffer -/
abbrev flattened {mbufs : List Mbuf} (fits : contents mbufs ≠ [] ∧ (contents mbufs).length < 2 ^ 32) : Packet := .flat (contents mbufs) fits

section
variable {overshift : UInt32 → UInt32 → UInt32} {wirelen : UInt32} {mbufs : List Mbuf}
  {fits : contents mbufs ≠ [] ∧ (contents mbufs).length < 2 ^ 32}

/-- The load does not come round, and a half at a fixed place is in the packet. -/
def Insn.Plain (length : Nat) (s : State) (p : Insn) : Prop :=
  (p.code = 0x28 → p.k.toNat + 2 ≤ length) ∧ (p.code = 0x40 ∨ p.code = 0x48 ∨ p.code = 0x50 → s.X.toNat + p.k.toNat < 2 ^ 32)

variable (cut : WellCut mbufs)
include cut

theorem load_chain (width : Width) {place : Nat} {k : UInt32} (isPlace : k.toNat = place) :
    (Packet.chain mbufs).load width (decide ((Packet.chain mbufs).buflen.toNat < place + width.size)) k =
      (flattened fits).load width (decide ((flattened fits).buflen.toNat < place + width.size)) k := by
  have positive := width.size_pos
  have missing : (Packet.chain mbufs).buflen.toNat < place + width.size := show 0 < _ by omega
  simp only [Packet.load, missing, decide_true, if_true, fetch_eq cut, Packet.buflen_flat, Width.read, isPlace]
  split
  case isTrue inside => rw [if_neg (by simpa using inside)]
  case isFalse outside => rw [if_pos (by simpa using outside)]

theorem step_chain {s : State} {p : Insn} (plain : p.Plain (contents mbufs).length s) :
    step overshift (.chain mbufs) wirelen s p = step overshift (flattened fits) wirelen s p := by
  unfold step
  simp only [outside, outside_byte, outside_ind, Nat.add_comm p.k.toNat s.X.toNat, ↓outside_byte_ind]
  split
  all_goals try rfl
  all_goals rename_i code
  case h_3 | h_5 => exact congrArg _ (load_chain cut _ rfl)
  case h_4 =>
    have loaded := @load_chain _ fits cut .half _ p.k rfl
    have inside := plain.1 code
    have present : (flattened fits).buflen ≠ 0 := by
      intro absent
      have length := @Packet.buflen_flat _ fits
      rw [absent] at length
      exact fits.1 (eq_nil_of_length_eq_zero length.symm)
    rw [if_pos (show (Packet.chain mbufs).buflen = 0 from rfl), if_neg present]
    refine congrArg _ ((congrArg _ loaded).trans ?_)
    simp [Packet.load, Packet.buflen_flat, Width.size, inside, Nat.not_lt.mpr inside, Except.map]
  case h_11 => exact congrArg _ (load_chain cut .byte rfl)
  all_goals
    have isPlace : (s.X + p.k).toNat = s.X.toNat + p.k.toNat := by exact Nat.mod_eq_of_lt (plain.2 (by simp [code]))
    exact congrArg _ (load_chain cut _ isPlace)

omit cut

variable (overshift wirelen) in
/-- The states at which a run fetches an instruction -/
inductive Visits (packet : Packet) (f : List Insn) : State → Prop
  | start : Visits packet f {}
  | next {s s' : State} {p : Insn} : Visits packet f s → f[s.pc]? = some p → step overshift packet wirelen s p = .ok (.inr s') →
    Visits packet f { s' with pc := s'.pc + 1 }

variable {f : List Insn} {bpf_maxbufsize : UInt32} (cut : WellCut mbufs)
  (plain : ∀ s p, Visits overshift wirelen (flattened fits) f s → f[s.pc]? = some p → p.Plain (contents mbufs).length s)
include cut plain

theorem run_chain {turns : Nat} {s : State} (visited : Visits overshift wirelen (flattened fits) f s) :
    run overshift (.chain mbufs) wirelen f turns s = run overshift (flattened fits) wirelen f turns s := by
  induction turns generalizing s with
  | zero => rfl
  | succ _ ih =>
    unfold run
    cases fetched : f[s.pc]? with
    | none => rfl
    | some p =>
      simp only [@step_chain _ _ _ fits cut s p (plain s p visited fetched)]
      split
      · rfl
      · rfl
      · exact ih (visited.next fetched ‹_›)

end

/-- A validated filter and a packet for which the chain and the flat buffer give these results -/
def Differs (f : List Insn) (mbufs : List Mbuf) (chain flat : UInt32) : Prop :=
  bpfValidate 2 f ∧ ∃ fits, bpfFilter (fun A _ => A) (.chain mbufs) 4 f = .ok chain ∧
    bpfFilter (fun A _ => A) (@flattened mbufs fits) 4 f = .ok flat

end DarwinNotes.Xnu.Bpf
