import Mathlib

/-!
# Blocks of memory and the C strings in them

A block is the list of its bytes. Accesses outside a block are faults, so that a
program that returns has stayed inside every block it was given. A C string is
read from a block up to the first zero byte.
-/

namespace DarwinNotes.Lib

abbrev Byte := BitVec 8

/-- How a modelled C function fails to return. -/
inductive Fault where
  /-- A read or a write outside the block it was aimed at. -/
  | outOfBounds
  /-- A call of a function that aborts the process with this message. -/
  | fatal (message : String)
deriving DecidableEq, Repr

/-- The bytes of the C string at the start of `block`. -/
def cstring (block : List Byte) : Except Fault (List Byte) :=
  match block with
  | [] => .error .outOfBounds
  | c :: rest => if c = 0 then .ok [] else (cstring rest).map (c :: ·)

/-- Overwrite the bytes from `offset` on. -/
def writeAt (block : List Byte) (offset : Nat) (bytes : List Byte) : Except Fault (List Byte) :=
  if offset + bytes.length ≤ block.length then
    .ok (block.take offset ++ bytes ++ block.drop (offset + bytes.length))
  else .error .outOfBounds

/-- Replace the byte at `offset` by a function of it. -/
def updateAt (block : List Byte) (offset : Nat) (f : Byte → Byte) : Except Fault (List Byte) :=
  match block[offset]? with
  | some c => .ok (block.set offset (f c))
  | none => .error .outOfBounds

/-- An allocator: what a fresh block of each size holds is not known. -/
structure Allocator where
  malloc : Nat → List Byte
  length_malloc (size : Nat) : (malloc size).length = size

/-- `strcspn`: how many bytes stand before the first of `reject`. -/
def strcspn (text reject : List Byte) : Nat := (text.takeWhile fun c => decide (c ∉ reject)).length

theorem cstring_append {text rest : List Byte} (free : 0 ∉ text) : cstring (text ++ 0 :: rest) = .ok text := by
  induction text with
  | nil => simp [cstring]
  | cons c text ih =>
    obtain ⟨nonzero, free⟩ : ¬ 0 = c ∧ 0 ∉ text := by simpa using free
    rw [List.cons_append, cstring, if_neg (Ne.symm nonzero), ih free]
    rfl

/-- A span without a rejected byte, up to one that is rejected or the end. -/
theorem strcspn_append {span rest reject : List Byte} (free : ∀ c ∈ span, c ∉ reject)
    (stops : ∀ c ∈ rest.head?, c ∈ reject) : strcspn (span ++ rest) reject = span.length := by
  unfold strcspn
  rw [List.takeWhile_append_of_pos (by simpa using free)]
  cases rest with
  | nil => simp
  | cons c => simp [stops c rfl]

/-- Writing where a block's first part ends replaces what follows that part. -/
theorem writeAt_append (front old bytes rest : List Byte) (same : old.length = bytes.length) :
    writeAt (front ++ (old ++ rest)) front.length bytes = .ok (front ++ (bytes ++ rest)) := by
  unfold writeAt
  simp [List.drop_append, same]

theorem updateAt_append (front rest : List Byte) (c : Byte) (f : Byte → Byte) :
    updateAt (front ++ c :: rest) front.length f = .ok (front ++ f c :: rest) := by
  simp [updateAt]

end DarwinNotes.Lib
