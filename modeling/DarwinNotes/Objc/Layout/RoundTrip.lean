import DarwinNotes.Objc.Layout.Model

/-!
# A layout string describes exactly its bitmap

`expand` is the meaning of a layout string: the bits its bytes stand for. The
compressor writes a string that expands to the bitmap, without leaving its buffer;
the decompressor sets the bits of the expansion. Together: a bitmap survives the
way through its string.
-/

namespace DarwinNotes.Objc.Layout
open List

open Lib

/-- The bits the bytes of a layout string stand for. -/
def expand (body : List Byte) : List Bool := body.flatMap fun c => replicate (skipOf c) false ++ replicate (scanOf c) true

@[simp] theorem expand_nil : expand [] = [] := rfl

@[simp] theorem expand_cons (c : Byte) (body : List Byte) :
    expand (c :: body) = replicate (skipOf c) false ++ replicate (scanOf c) true ++ expand body := by
  simp [expand]

@[simp] theorem expand_append (front back : List Byte) : expand (front ++ back) = expand front ++ expand back := by simp [expand]

/-! ## Nibbles -/

/-- The byte that records a skip and a scan below sixteen. -/
def nibbles (skip scan : Nat) : Byte := BitVec.ofNat 8 skip <<< 4 ||| BitVec.ofNat 8 scan

theorem nibbles_parts : ∀ skip < 16, ∀ scan < 16, skipOf (nibbles skip scan) = skip ∧ scanOf (nibbles skip scan) = scan := by decide +kernel

theorem expand_nibbles {skip scan : Nat} (shortSkip : skip ≤ 15) (shortScan : scan ≤ 15) :
    expand [nibbles skip scan] = replicate skip false ++ replicate scan true := by
  obtain ⟨skips, scans⟩ := nibbles_parts skip (by omega) scan (by omega)
  simp [skips, scans]

theorem nibbles_ne_zero {skip scan : Nat} (shortSkip : skip ≤ 15) (shortScan : scan ≤ 15) (some : 0 < skip + scan) :
    nibbles skip scan ≠ 0 := by
  intro zero
  obtain ⟨skips, scans⟩ := nibbles_parts skip (by omega) scan (by omega)
  rw [zero] at skips scans
  have : skip = 0 := skips.symm
  have : scan = 0 := scans.symm
  omega

theorem nibbles_le (c : Byte) : skipOf c ≤ 15 ∧ scanOf c ≤ 15 := by
  revert c
  decide +kernel

/-! ## Writing the string -/

namespace Cursor

/-- `front` is written, and `room` untouched bytes of the calloc'ed buffer are left. -/
def after (front : List Byte) (room : Nat) : Cursor where
  layout := front ++ replicate room 0
  l := front.length

variable (front : List Byte)
include front

theorem assign_after (room : Nat) (c : Byte) : (after front (room + 1)).assign c = .ok ⟨front ++ c :: replicate room 0, front.length⟩ := by
  simp only [assign, after, replicate_succ, updateAt_append]
  rfl

theorem merge_byte (room : Nat) (old c : Byte) :
    merge ⟨front ++ old :: replicate room 0, front.length⟩ c = .ok (after (front ++ [old ||| c]) room) := by
  simp only [merge, after, updateAt_append]
  simp [bind, Except.bind, pure, Except.pure]

/-- The long part of a skip goes out in bytes of fifteen. -/
theorem putSkips_after (room skip : Nat) (fits : skip ≤ room) :
    ∃ body rest, (after front room).putSkips skip = .ok (after (front ++ body) (room - body.length), rest) ∧
      0 ∉ body ∧ expand body ++ replicate rest false = replicate skip false ∧
      rest ≤ 15 ∧ (0 < skip → 0 < rest) ∧ body.length + rest ≤ skip := by
  induction skip using Nat.strong_induction_on generalizing front room with
  | _ skip ih =>
    rw [putSkips]
    split
    next long =>
      obtain ⟨room, rfl⟩ : ∃ k, room = k + 1 := ⟨room - 1, by omega⟩
      obtain ⟨body, rest, done, nonzero, expands, short, left, _⟩ := ih (skip - 15) (by omega) (front ++ [0xf0]) room (by omega)
      refine ⟨0xf0 :: body, rest, ?_, ?_, ?_, short, fun _ => left (by omega), ?_⟩
      · rw [assign_after]
        have moved : ({ layout := front ++ 0xf0 :: replicate room 0, l := front.length + 1 } : Cursor) =
            after (front ++ [0xf0]) room := by simp [after]
        simp only [bind, Except.bind, moved, done]
        simp
      · simpa using nonzero
      · have piece : expand [0xf0#8] = replicate 15 false := by decide
        rw [show (0xf0 : Byte) :: body = [0xf0#8] ++ body from rfl, expand_append, append_assoc, expands, piece, ← replicate_add]
        congr 1
        omega
      · simp only [length_cons]
        omega
    next short => exact ⟨[], skip, by simp, by simp, by simp, by omega, id, by simp⟩

/-- A scan is merged into the byte that carries the rest of the skip. -/
theorem putScans_byte (room skip scan : Nat) (short : skip ≤ 15) (some : 0 < skip + scan) (fits : scan ≤ room + 1)
    : ∃ body, putScans ⟨front ++ BitVec.ofNat 8 skip <<< 4 :: replicate room 0, front.length⟩ scan =
        .ok (after (front ++ body) (room + 1 - body.length)) ∧
      0 ∉ body ∧ expand body = replicate skip false ++ replicate scan true ∧ body.length ≤ skip + scan := by
  induction scan using Nat.strong_induction_on generalizing front room skip with
  | _ scan ih =>
    rw [putScans]
    split
    next long =>
      obtain ⟨room, rfl⟩ : ∃ k, room = k + 1 := ⟨room - 1, by omega⟩
      obtain ⟨body, done, nonzero, expands, _⟩ :=
        ih (scan - 15) (by omega) (front ++ [nibbles skip 15]) room 0 (by omega) (by omega) (by omega)
      refine ⟨nibbles skip 15 :: body, ?_, ?_, ?_, ?_⟩
      · have next : after (front ++ [nibbles skip 15]) (room + 1) =
            ⟨front ++ [nibbles skip 15] ++ BitVec.ofNat 8 0 <<< 4 :: replicate room 0, (front ++ [nibbles skip 15]).length⟩ := by
          simp [after, replicate_succ]
        rw [merge_byte]
        change putScans (after (front ++ [nibbles skip 15]) (room + 1)) (scan - 15) = _
        rw [next, done]
        simp
      · simpa using ⟨(nibbles_ne_zero short (by omega) (by omega)).symm, nonzero⟩
      · rw [show nibbles skip 15 :: body = [nibbles skip 15] ++ body from rfl, expand_append, expands, expand_nibbles short (by omega)]
        rw [replicate_zero, nil_append, append_assoc, ← replicate_add]
        congr 2
        omega
      · simp only [length_cons]
        omega
    next last =>
      refine ⟨[nibbles skip scan], ?_, ?_, expand_nibbles short (by omega), ?_⟩
      · rw [merge_byte]
        rfl
      · simpa using (nibbles_ne_zero short (by omega) some).symm
      · exact some

/-- One pass writes bytes that expand to its skip and its scan. -/
theorem record_after (room skip scan : Nat) (some : 0 < skip + scan) (fits : skip + scan ≤ room) :
    ∃ body, (after front room).record skip scan = .ok (after (front ++ body) (room - body.length)) ∧
      0 ∉ body ∧ expand body = replicate skip false ++ replicate scan true ∧ body.length ≤ skip + scan := by
  obtain ⟨skips, rest, written, free, skipped, short, _, _⟩ := putSkips_after front room skip (by omega)
  obtain ⟨room', more⟩ : ∃ k, room - skips.length = k + 1 := ⟨room - skips.length - 1, by omega⟩
  obtain ⟨scans, done, nonzero, expands, _⟩ := putScans_byte (front ++ skips) room' rest scan short (by omega) (by omega)
  refine ⟨skips ++ scans, ?_, by simpa using ⟨free, nonzero⟩, ?_, ?_⟩
  · unfold record
    rw [written]
    change (if rest ≠ 0 ∨ scan ≠ 0 then _ else _) = _
    rw [if_pos (by omega), more, assign_after]
    change putScans _ scan = _
    rw [done, ← more]
    simp [Nat.sub_sub]
  · rw [expand_append, expands, ← append_assoc, skipped]
  · rw [length_append]
    omega

end Cursor

variable (bits : List Byte)

/-- The bits `i`, …, `i + remaining - 1` of a byte array. -/
def bitsFrom (i remaining : Nat) : List Bool := (range' i remaining).map (bitAt bits)

@[simp] theorem length_bitsFrom (i remaining : Nat) : (bitsFrom bits i remaining).length = remaining := by simp [bitsFrom]

theorem getElem?_bitsFrom {bits : List Byte} {i remaining j : Nat} (inside : j < remaining) :
    (bitsFrom bits i remaining)[j]? = some (bitAt bits (i + j)) := by
  simp [bitsFrom, inside]

/-- A run that was counted is the start of the bits. -/
theorem bitsFrom_run (want : Bool) (i remaining : Nat) : countRun bits want i remaining ≤ remaining ∧
    bitsFrom bits i remaining = replicate (countRun bits want i remaining) want ++
      bitsFrom bits (i + countRun bits want i remaining) (remaining - countRun bits want i remaining) := by
  induction remaining generalizing i with
  | zero => simp [countRun]
  | succ _ ih =>
    rw [countRun]
    split
    next same =>
      obtain ⟨_, split⟩ := ih (i + 1)
      refine ⟨by omega, ?_⟩
      rw [replicate_succ, cons_append, Nat.add_sub_add_right, ← Nat.add_assoc, Nat.add_right_comm, ← split]
      simp [bitsFrom, range'_succ, same]
    next other => simp

/-- The loop writes bytes that expand to the rest of the bitmap. -/
theorem compressLoop_after (bits front : List Byte) (n i room : Nat) (all none : Bool) (fits : n - i ≤ room) :
    ∃ body, compressLoop bits n i ⟨Cursor.after front room, all, none⟩ = .ok ⟨Cursor.after (front ++ body) (room - body.length),
          all && (bitsFrom bits i (n - i)).all id, none && (bitsFrom bits i (n - i)).all not⟩ ∧
      0 ∉ body ∧ expand body = bitsFrom bits i (n - i) ∧ body.length ≤ n - i := by
  induction left : n - i using Nat.strong_induction_on generalizing i front room all none with
  | _ _ ih =>
    subst left
    rw [compressLoop]
    split
    next more =>
      dsimp only
      have progress := countRun_progress bits i (Nat.sub_pos_of_lt more)
      obtain ⟨_, skipped⟩ := bitsFrom_run bits false i (n - i)
      generalize countRun bits false i (n - i) = skip at *
      obtain ⟨_, scanned⟩ := bitsFrom_run bits true (i + skip) (n - i - skip)
      generalize countRun bits true (i + skip) (n - i - skip) = scan at *
      obtain ⟨pass, written, nonzero, expands, _⟩ := Cursor.record_after front room skip scan progress (by omega)
      have rest : n - i - skip - scan = n - (i + skip + scan) := by omega
      rw [rest] at scanned
      obtain ⟨body, done, free, tail, _⟩ :=
        ih (n - (i + skip + scan)) (by omega) (front ++ pass) (i + skip + scan) (room - pass.length)
          (all && skip == 0) (none && scan == 0) (by omega) rfl
      refine ⟨pass ++ body, ?_, by simpa using ⟨nonzero, free⟩, ?_, by rw [length_append]; omega⟩
      · rw [written, skipped, scanned]
        simp only [bind, Except.bind, done]
        simp [Nat.sub_sub, Bool.and_assoc, Bool.beq_eq_decide_eq]
      · rw [expand_append, expands, tail, skipped, scanned, append_assoc]
    next finished =>
      have nothing : n - i = 0 := by omega
      exact ⟨[], by simp [nothing, bitsFrom], by simp, by simp [nothing, bitsFrom], by simp⟩

/-- The string of a bitmap expands to it; the flags decide whether it is kept. -/
theorem layoutStringCreate_eq (b : LayoutBitmap) :
    ∃ body, 0 ∉ body ∧ expand body = bitsFrom b.bits 0 b.bitCount ∧ body.length ≤ b.bitCount ∧
      layoutStringCreate b = .ok (if (bitsFrom b.bits 0 b.bitCount).all not && b.weak then none
        else if (bitsFrom b.bits 0 b.bitCount).all id && !b.weak then none else some (body ++ [0])) := by
  obtain ⟨body, done, free, expands, short⟩ := compressLoop_after b.bits [] b.bitCount 0 (b.bitCount + 1) true true (by omega)
  refine ⟨body, free, expands, short, ?_⟩
  obtain ⟨room, more⟩ : ∃ k, b.bitCount + 1 - body.length = k + 1 := ⟨b.bitCount - body.length, by omega⟩
  have start : ({ layout := replicate (b.bitCount + 1) 0, l := 0 } : Cursor) = Cursor.after [] (b.bitCount + 1) := rfl
  simp only [layoutStringCreate, compressLayout, start, done, bind, Except.bind, more, Cursor.assign_after,
    nil_append, cstring_append free, Bool.true_and, Nat.sub_zero]
  split
  · rfl
  · split <;> rfl

/-! ## Reading the string -/

theorem shifted_bit : ∀ (c : Byte), ∀ k < 8, ((c >>> k) &&& 1 == 1) = c.getLsbD k := by decide +kernel

theorem one_shifted : ∀ k < 8, ∀ m < 8, ((1 : Byte) <<< k).getLsbD m = decide (m = k) := by decide

theorem bitAt_eq (i : Nat) : bitAt bits i = (bits[i / 8]?.getD 0).getLsbD (i % 8) := shifted_bit _ _ (Nat.mod_lt _ (by decide))

theorem bitAt_modify {i : Nat} (inside : i / 8 < bits.length) (j : Nat) :
    bitAt (bits.modify (i / 8) (· ||| (1 : Byte) <<< (i % 8))) j = (bitAt bits j || decide (i = j)) := by
  rw [bitAt_eq, bitAt_eq, getElem?_modify]
  by_cases byte : i / 8 = j / 8
  · rw [byte] at inside
    have bit : i = j ↔ j % 8 = i % 8 := by omega
    rw [getElem?_eq_getElem inside]
    simp only [byte, if_true, Option.map_eq_map, Option.map_some, Option.getD_some, BitVec.getLsbD_or, bit]
    congr 1
    exact one_shifted _ (Nat.mod_lt _ (by decide)) _ (Nat.mod_lt _ (by decide))
  · have : i ≠ j := fun same => byte (by rw [same])
    simp [byte, this]

namespace LayoutBitmap

theorem bit_setBit (b : LayoutBitmap) {i : Nat} (inside : i < b.bitCount) (j : Nat) : (b.setBit i).bit j = (b.bit j || decide (i = j)) := by
  have room : i / 8 < b.bits.length := by
    rw [b.allocated]
    have := b.fits
    omega
  exact bitAt_modify b.bits room j

/-- `set_bits` inside the bitmap sets its range and nothing else. -/
theorem setBits_eq (b : LayoutBitmap) (which count : Nat) (inside : which + count ≤ b.bitCount) :
    ∃ r, b.setBits which count = .ok r ∧ r.bitCount = b.bitCount ∧ r.weak = b.weak ∧
      ∀ j, r.bit j = (b.bit j || decide (which ≤ j ∧ j < which + count)) := by
  unfold setBits
  induction count generalizing b which with
  | zero =>
    have nothing : ∀ j, ¬ (which ≤ j ∧ j < which + 0) := fun j => by omega
    exact ⟨b, rfl, rfl, rfl, fun j => by rw [decide_eq_false (nothing j), Bool.or_false]⟩
  | succ _ ih =>
    obtain ⟨r, done, same, weak, bits⟩ := ih (b.setBit which) (which + 1) (by simp only [setBit]; omega)
    refine ⟨r, ?_, same, weak, fun j => ?_⟩
    · rw [setBitsLoop, if_pos (by omega), done]
    · rw [bits, bit_setBit b (by omega), Bool.or_assoc, ← Bool.decide_or]
      congr 1
      rw [decide_eq_decide]
      omega

end LayoutBitmap

variable (b : LayoutBitmap)

/-- The decompressor sets the bits of the expansion, from the bit it has come to. -/
theorem decompressLayout_eq (bit : Nat) (body : List Byte) (free : 0 ∉ body)
    (inside : bit + (expand body).length ≤ b.bitCount) :
    ∃ r, decompressLayout b bit (body ++ [0]) = .ok r ∧ r.bitCount = b.bitCount ∧ r.weak = b.weak ∧
      ∀ j, r.bit j = (b.bit j || decide (bit ≤ j) && (expand body)[j - bit]?.getD false) := by
  induction body generalizing b bit with
  | nil => exact ⟨b, by simp [decompressLayout], rfl, rfl, fun j => by simp⟩
  | cons c body ih =>
    obtain ⟨nonzero, free⟩ : ¬ 0 = c ∧ 0 ∉ body := by simpa using free
    rw [expand_cons, length_append, length_append, length_replicate, length_replicate] at inside
    obtain ⟨set, setDone, setCount, setWeak, setBits⟩ := b.setBits_eq (bit + skipOf c) (scanOf c) (by omega)
    obtain ⟨r, done, count, weak, bits⟩ := ih set (bit + skipOf c + scanOf c) free (by omega)
    refine ⟨r, ?_, count.trans setCount, weak.trans setWeak, fun j => ?_⟩
    · simp only [cons_append, decompressLayout, if_neg (Ne.symm nonzero), setDone, bind, Except.bind, done]
    rw [bits, setBits, Bool.or_assoc]
    congr 1
    rw [expand_cons, append_assoc, getElem?_append, getElem?_append, length_replicate,
      length_replicate, getElem?_replicate, getElem?_replicate, Nat.sub_sub, Nat.sub_sub]
    rcases Nat.lt_or_ge j bit with _ | _
    · rw [decide_eq_false (by omega), decide_eq_false (by omega), decide_eq_false (by omega)]
      rfl
    rcases Nat.lt_or_ge j (bit + skipOf c) with _ | _
    · rw [decide_eq_false (by omega), decide_eq_false (by omega), if_pos (by omega), if_pos (by omega)]
      simp
    rcases Nat.lt_or_ge j (bit + skipOf c + scanOf c) with _ | _
    · rw [decide_eq_true (by omega), decide_eq_false (by omega), if_neg (by omega), if_pos (by omega), if_pos (by omega),
        decide_eq_true (by omega)]
      rfl
    · rw [decide_eq_false (by omega), decide_eq_true (by omega), decide_eq_true (by omega), if_neg (by omega), if_neg (by omega)]
      simp [Nat.add_assoc]

theorem bit_createEmpty (size : Nat) (weak : Bool) (i : Nat) : (LayoutBitmap.createEmpty size weak).bit i = false := by
  rw [LayoutBitmap.bit, bitAt_eq]
  simp only [LayoutBitmap.createEmpty, getElem?_replicate]
  split <;> simp

/-- The bits of a bitmap as the loops read them. -/
theorem all_bits (p : Bool → Bool) : (bitsFrom b.bits 0 b.bitCount).all p = true ↔ ∀ i < b.bitCount, p (b.bit i) = true := by
  simp [bitsFrom, LayoutBitmap.bit, mem_range']

/-- Reading the string back sets the bits of the bitmap. -/
theorem layoutBitmapCreate_body {body : List Byte} (free : 0 ∉ body)
    (expands : expand body = bitsFrom b.bits 0 b.bitCount) (stringSize : Nat) {size : Nat}
    (words : size / sizeofId = b.bitCount) :
    ∃ r, layoutBitmapCreate (some (body ++ [0])) stringSize size b.weak = .ok r ∧ r.bitCount = b.bitCount ∧
      r.weak = b.weak ∧ ∀ i < b.bitCount, r.bit i = b.bit i := by
  obtain ⟨r, done, count, weak, bits⟩ := decompressLayout_eq (LayoutBitmap.createEmpty size b.weak) 0 body free
    (by simp [expands, LayoutBitmap.createEmpty, words])
  refine ⟨r, done, count.trans words, weak, fun i inside => ?_⟩
  rw [bits, bit_createEmpty, expands, Nat.sub_zero, getElem?_bitsFrom inside]
  simp [LayoutBitmap.bit]

/-- No string for a strong layout means that every word is scanned. -/
theorem layoutBitmapCreate_all {stringSize size count : Nat} (stringWords : stringSize / sizeofId = count)
    (words : size / sizeofId = count) : ∃ r, layoutBitmapCreate none stringSize size false = .ok r ∧ r.bitCount = count ∧ r.weak = false ∧
      ∀ i < count, r.bit i = true := by
  obtain ⟨r, done, same, weak, bits⟩ := (LayoutBitmap.createEmpty size false).setBits_eq 0 (stringSize / sizeofId)
    (by simp [LayoutBitmap.createEmpty, words, stringWords])
  refine ⟨r, done, same.trans words, weak, fun i inside => ?_⟩
  rw [bits, decide_eq_true (by omega), Bool.or_true]

/-- A byte that scans puts a set bit into the expansion. -/
theorem scanOf_eq_zero {body : List Byte} (clear : true ∉ expand body) {c : Byte} (mem : c ∈ body) : scanOf c = 0 := by
  by_contra scans
  refine clear (mem_flatMap.mpr ⟨c, mem, ?_⟩)
  simp [scans]

end DarwinNotes.Objc.Layout
