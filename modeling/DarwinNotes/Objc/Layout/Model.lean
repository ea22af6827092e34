import DarwinNotes.Lib.CString

/-!
# Ivar layouts (`objc-layout.mm`)

A layout says which words of an object hold references. In memory it is either a
bitmap, one bit a word, or a zero-terminated string whose bytes carry a skip count
in the high nibble and a scan count in the low one. `compress_layout` writes the
string of a bitmap, `decompress_layout` sets the bits a string describes.
-/

namespace DarwinNotes.Objc.Layout

open Lib

/-- `sizeof(id)` -/
def sizeofId : Nat := 8

/-- Bit `i` of a byte array: `(bits[i/8] >> (i % 8)) & 1`. -/
def bitAt (bits : List Byte) (i : Nat) : Bool := (bits[i / 8]?.getD 0 >>> (i % 8)) &&& 1 == 1

/-- `layout_bitmap`; its byte array is as long as `bitsAllocated` says. -/
structure LayoutBitmap where
  bits : List Byte
  bitCount : Nat
  bitsAllocated : Nat
  weak : Bool
  allocated : bits.length = (bitsAllocated + 7) / 8
  fits : bitCount ≤ bitsAllocated

namespace LayoutBitmap

variable (bitmap : LayoutBitmap)

def bit (i : Nat) : Bool := bitAt bitmap.bits i

/-- `bits.bits[bit/8] |= 1 << (bit % 8)` for a bit inside the bitmap. -/
def setBit (bit : Nat) : LayoutBitmap :=
  { bitmap with
    bits := bitmap.bits.modify (bit / 8) (· ||| (1 : Byte) <<< (bit % 8))
    allocated := by rw [List.length_modify, bitmap.allocated] }

/-- `layout_bitmap_create_empty` -/
def createEmpty (instanceSize : Nat) (weak : Bool) : LayoutBitmap where
  bits := List.replicate ((instanceSize / sizeofId + 7) / 8) 0
  bitCount := instanceSize / sizeofId
  bitsAllocated := instanceSize / sizeofId
  weak := weak
  allocated := List.length_replicate
  fits := Nat.le_refl _

/-- The loop of `set_bits`, with `count` bits left: it stops at the end of the bitmap. -/
def setBitsLoop (bitmap : LayoutBitmap) (bit : Nat) : (count : Nat) → Except Fault LayoutBitmap
  | 0 => .ok bitmap
  | count + 1 =>
    if bit < bitmap.bitCount then setBitsLoop (bitmap.setBit bit) (bit + 1) count
    else if bit = bitmap.bitCount then .error (.fatal "layout bitmap too short")
    -- a range that starts behind the end is dropped without a complaint
    else .ok bitmap

/-- `set_bits` -/
def setBits (which count : Nat) : Except Fault LayoutBitmap := setBitsLoop bitmap which count

end LayoutBitmap

/-! ## From a bitmap to a string -/

/-- The buffer `layout` with its cursor `l`. -/
structure Cursor where
  layout : List Byte
  l : Nat

namespace Cursor

variable (cursor : Cursor)

/-- `*l = c` -/
def assign (c : Byte) : Except Fault Cursor := do
  let layout ← updateAt cursor.layout cursor.l fun _ => c
  return { cursor with layout }

/-- `*l++ |= c` -/
def merge (c : Byte) : Except Fault Cursor := do
  let layout ← updateAt cursor.layout cursor.l (· ||| c)
  return { layout, l := cursor.l + 1 }

/-- `while (skip > 0xf) { *l++ = 0xf0; skip -= 0xf; }`, with the rest of `skip`. -/
def putSkips (cursor : Cursor) (skip : Nat) : Except Fault (Cursor × Nat) :=
  if 0xf < skip then do
    let written ← cursor.assign 0xf0
    putSkips { written with l := written.l + 1 } (skip - 0xf)
  else .ok (cursor, skip)
termination_by skip

/-- `while (scan > 0xf) { *l++ |= 0x0f; scan -= 0xf; }  *l++ |= scan;` -/
def putScans (cursor : Cursor) (scan : Nat) : Except Fault Cursor :=
  if 0xf < scan then do
    let written ← cursor.merge 0x0f
    putScans written (scan - 0xf)
  else cursor.merge (BitVec.ofNat 8 scan)
termination_by scan

/-- The part of the loop of `compress_layout` that records one skip and one scan. -/
def record (skip scan : Nat) : Except Fault Cursor := do
  let (cursor, skip) ← cursor.putSkips skip
  if skip ≠ 0 ∨ scan ≠ 0 then
    let cursor ← cursor.assign (BitVec.ofNat 8 skip <<< 4)
    cursor.putScans scan
  else return cursor

end Cursor

/-- How many bits from `i` on, of the `remaining` ones, are `want`. -/
def countRun (bits : List Byte) (want : Bool) (i : Nat) : (remaining : Nat) → Nat
  | 0 => 0
  | remaining + 1 => if bitAt bits i = want then countRun bits want (i + 1) remaining + 1 else 0

/-- A pass of the loop consumes a bit: one that is not skipped is scanned. -/
theorem countRun_progress (bits : List Byte) (i : Nat) {remaining : Nat} (more : 0 < remaining) : 0 < countRun bits false i remaining +
      countRun bits true (i + countRun bits false i remaining) (remaining - countRun bits false i remaining) := by
  obtain ⟨remaining, rfl⟩ := Nat.exists_eq_add_one.mpr more
  cases first : bitAt bits i with
  | false =>
    have skipped : countRun bits false i (remaining + 1) = countRun bits false (i + 1) remaining + 1 := by simp [countRun, first]
    omega
  | true => simp [countRun, first]

/-- What the loop of `compress_layout` leaves: the buffer and the two flags. -/
structure Compressed where
  cursor : Cursor
  allSet : Bool
  noneSet : Bool

/-- The loop `while (i < bitmap_bits)` of `compress_layout`. -/
def compressLoop (bits : List Byte) (bitmapBits i : Nat) (state : Compressed) : Except Fault Compressed :=
  if i < bitmapBits then do
    let skip := countRun bits false i (bitmapBits - i)
    let scan := countRun bits true (i + skip) (bitmapBits - i - skip)
    let cursor ← state.cursor.record skip scan
    compressLoop bits bitmapBits (i + skip + scan)
      { cursor, allSet := state.allSet && skip == 0, noneSet := state.noneSet && scan == 0 }
  else .ok state
termination_by bitmapBits - i
decreasing_by
  have := countRun_progress bits i (Nat.sub_pos_of_lt ‹i < bitmapBits›)
  omega

/-- `compress_layout`; no string means none set (weak) or all set (strong). -/
def compressLayout (bits : List Byte) (bitmapBits : Nat) (weak : Bool) : Except Fault (Option (List Byte)) := do
  let layout := List.replicate (bitmapBits + 1) 0
  let done ← compressLoop bits bitmapBits 0 { cursor := { layout, l := 0 }, allSet := true, noneSet := true }
  let terminated ← done.cursor.assign 0
  if done.noneSet && weak then return none
  else if done.allSet && !weak then return none
  else
    -- strdup
    let text ← cstring terminated.layout
    return some (text ++ [0])

/-- `layout_string_create` -/
def layoutStringCreate (bitmap : LayoutBitmap) : Except Fault (Option (List Byte)) := compressLayout bitmap.bits bitmap.bitCount bitmap.weak

/-! ## From a string to a bitmap -/

/-- `(c & 0xf0) >> 4` -/
def skipOf (c : Byte) : Nat := ((c &&& 0xf0) >>> 4).toNat

/-- `c & 0x0f` -/
def scanOf (c : Byte) : Nat := (c &&& 0x0f).toNat

/-- `decompress_layout`, with the bit it has come to. -/
def decompressLayout (bitmap : LayoutBitmap) (bit : Nat) : (layoutString : List Byte) → Except Fault LayoutBitmap
  | [] => .error .outOfBounds
  | c :: rest =>
    if c = 0 then .ok bitmap
    else do
      let set ← bitmap.setBits (bit + skipOf c) (scanOf c)
      decompressLayout set (bit + skipOf c + scanOf c) rest

/-- `layout_bitmap_create` -/
def layoutBitmapCreate (layoutString : Option (List Byte)) (layoutStringInstanceSize instanceSize : Nat)
    (weak : Bool) : Except Fault LayoutBitmap :=
  let result := LayoutBitmap.createEmpty instanceSize weak
  match layoutString with
  | none => if weak then .ok result else result.setBits 0 (layoutStringInstanceSize / sizeofId)
  | some text => decompressLayout result 0 text

end DarwinNotes.Objc.Layout
