import DarwinNotes.Lib.CString

/-!
# Pieces of a file, and integers in it

A piece of a file stands at an offset. Integers stand in a file in a fixed number of
bytes, the most significant one first; a reader shifts them in from the left.
-/

namespace DarwinNotes.Lib
open List

/-! ## Pieces -/

section Pieces

variable {α : Type}

/-- The piece of the file that begins at an offset. -/
def Placed (file : List α) (offset : Nat) (piece : List α) : Prop := ∃ rest, file.drop offset = piece ++ rest

variable {file piece piece' : List α} {offset : Nat}

theorem placed_append (before piece after : List α) : Placed (before ++ piece ++ after) before.length piece :=
  ⟨after, by rw [append_assoc, drop_left]⟩

theorem Placed.left (placed : Placed file offset (piece ++ piece')) : Placed file offset piece := by
  obtain ⟨rest, split⟩ := placed
  exact ⟨piece' ++ rest, by rw [split, append_assoc]⟩

theorem Placed.right (placed : Placed file offset (piece ++ piece')) : Placed file (offset + piece.length) piece' := by
  obtain ⟨rest, split⟩ := placed
  exact ⟨rest, by rw [← drop_drop, split, append_assoc, drop_left]⟩

theorem Placed.tail {first : α} (placed : Placed file offset (first :: piece)) : Placed file (offset + 1) piece :=
  Placed.right (by exact placed : Placed file offset ([first] ++ piece))

theorem Placed.getElem? (placed : Placed file offset piece) {i : Nat} (inside : i < piece.length) : file[offset + i]? = piece[i]? := by
  obtain ⟨_, split⟩ := placed
  rw [← getElem?_drop, split, getElem?_append_left inside]

theorem Placed.length_le (placed : Placed file offset piece) (nonempty : piece ≠ []) : offset + piece.length ≤ file.length := by
  obtain ⟨_, split⟩ := placed
  have lengths := congrArg length split
  rw [length_drop, length_append] at lengths
  have := length_pos_iff.mpr nonempty
  omega

/-- Pieces of equal length one after another. -/
theorem Placed.flatMap {β : Type} {f : β → List α} {size : Nat} (sizes : ∀ b, (f b).length = size) {items : List β}
    (placed : Placed file offset (items.flatMap f)) {i : Nat} {item : β} (isItem : items[i]? = some item) :
    Placed file (offset + i * size) (f item) := by
  induction items generalizing offset i with
  | nil => cases isItem
  | cons _ _ ih =>
    cases i with
    | zero =>
      rw [getElem?_cons_zero, Option.some.injEq] at isItem
      rw [Nat.zero_mul, Nat.add_zero, ← isItem]
      exact placed.left
    | succ i =>
      have later := ih placed.right isItem
      rw [sizes] at later
      rwa [Nat.succ_mul, Nat.add_comm (i * size), ← Nat.add_assoc]

/-- Where pieces start that stand one after another. -/
def starts : Nat → List (List α) → List Nat
  | _, [] => []
  | offset, piece :: pieces => offset :: starts (offset + piece.length) pieces

@[simp] theorem length_starts (offset : Nat) (pieces : List (List α)) : (starts offset pieces).length = pieces.length := by
  induction pieces generalizing offset with
  | nil => rfl
  | cons _ _ ih => rw [starts, length_cons, ih, length_cons]

variable {pieces : List (List α)}

/-- Each piece is where it starts, before the end of them all. -/
theorem placed_starts (placed : Placed file offset pieces.flatten) {i : Nat} (isPiece : pieces[i]? = some piece)
    : ∃ at', (starts offset pieces)[i]? = some at' ∧ Placed file at' piece ∧ offset ≤ at' ∧
      at' + piece.length ≤ offset + pieces.flatten.length := by
  induction pieces generalizing offset i with
  | nil => cases isPiece
  | cons _ _ ih =>
    rw [flatten_cons] at placed ⊢
    rw [length_append]
    cases i with
    | zero =>
      rw [getElem?_cons_zero, Option.some.injEq] at isPiece
      subst isPiece
      exact ⟨offset, rfl, placed.left, le_rfl, by omega⟩
    | succ =>
      obtain ⟨at', isStart, placed', _, _⟩ := ih placed.right isPiece
      exact ⟨at', isStart, placed', by omega, by omega⟩

theorem le_of_mem_starts {at' : Nat} (isStart : at' ∈ starts offset pieces) : offset ≤ at' := by
  induction pieces generalizing offset with
  | nil => cases isStart
  | cons _ _ ih =>
    rcases mem_cons.mp isStart with rfl | later
    · exact le_rfl
    · exact Nat.le_of_add_right_le (ih later)

/-- Pieces that are not empty start at different places. -/
theorem nodup_starts (nonempty : ∀ piece ∈ pieces, piece ≠ []) : (starts offset pieces).Nodup := by
  induction pieces generalizing offset with
  | nil => exact nodup_nil
  | cons first _ ih =>
    refine nodup_cons.mpr ⟨fun again => ?_, ih fun piece inRest => nonempty piece (mem_cons_of_mem _ inRest)⟩
    have later := le_of_mem_starts again
    have := length_pos_iff.mpr (nonempty first mem_cons_self)
    omega

end Pieces

/-! ## Big-endian integers -/

/-- The last `width` bytes of an integer. -/
def bigEndian : (width value : Nat) → List Byte
  | 0, _ => []
  | width + 1, value => BitVec.ofNat 8 (value / 256 ^ width) :: bigEndian width value

/-- One more byte is shifted in. -/
def shiftIn (value : Nat) (byte : Byte) : Nat := value * 256 + byte.toNat

@[simp] theorem length_bigEndian (width value : Nat) : (bigEndian width value).length = width := by
  induction width with
  | zero => rfl
  | succ _ ih => rw [bigEndian, length_cons, ih]

/-- A narrower integer is the end of a wider one. -/
theorem drop_bigEndian (more width value : Nat) : (bigEndian (more + width) value).drop more = bigEndian width value := by
  induction more with
  | zero => rw [Nat.zero_add, drop_zero]
  | succ _ ih => rw [Nat.succ_add, bigEndian, drop_succ_cons, ih]

theorem foldl_shiftIn_bigEndian (width value start : Nat) :
    (bigEndian width value).foldl shiftIn start = start * 256 ^ width + value % 256 ^ width := by
  induction width generalizing start with
  | zero => simp [bigEndian, Nat.mod_one]
  | succ width ih =>
    have split : value % (256 ^ width * 256) = value % 256 ^ width + 256 ^ width * (value / 256 ^ width % 256) := Nat.mod_mul
    have byte : (BitVec.ofNat 8 (value / 256 ^ width)).toNat = value / 256 ^ width % 256 := BitVec.toNat_ofNat _ _
    rw [bigEndian, foldl_cons, ih, shiftIn, byte, pow_succ, split]
    ring

end DarwinNotes.Lib
