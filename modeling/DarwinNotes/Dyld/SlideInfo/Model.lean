import Mathlib

/-!
# Slide info of the shared cache

`update_dyld_shared_cache` marks every pointer of the R/W mapping in a bitmap with one bit for each 4 bytes, and cuts the bitmap into one
entry of 128 bytes for each page. The slide info has every entry once, and a table of contents with the index of each page's entry. The
kernel reads it to slide a page (`vm_shared_region.c`). The cache is little-endian.
-/

namespace DarwinNotes.Dyld.SlideInfo

/-! ## The builder -/

inductive Error
  /-- "DATA pointer for sliding, out of range 0x%08lX\n" -/
  | outOfRange (pointer : Nat)
  /-- "pointer not 4-byte aligned in DATA offset 0x%08lX\n" -/
  | notAligned (offset : Nat)
deriving DecidableEq, Repr

/-- The R/W mapping, in pages: it is behind the header of the cache, and has no more pages than 16 bits can index. -/
structure Mapping where
  fileOffset : Nat
  pages : Nat
  behindHeader : 0 < fileOffset
  isIndexed : pages ≤ 2 ^ 16

def Mapping.size (mapping : Mapping) : Nat := mapping.pages * 4096

/-- The bitmap of the pointers, which are offsets in the cache. -/
def setBits (dataStart dataEnd : Nat) : List Nat → (lastPointer : Nat) → (Nat → BitVec 8) → Except Error (Nat → BitVec 8)
  | [], _, bitmap => .ok bitmap
  | p :: pointers, lastPointer, bitmap =>
    if p = lastPointer then setBits dataStart dataEnd pointers lastPointer bitmap
    else if p < dataStart ∨ dataEnd < p then .error (.outOfRange p)
    else
      let offset := p - dataStart
      if offset % 4 ≠ 0 then .error (.notAligned offset)
      else
        let byteIndex := offset / (4 * 8)
        let bitInByte := (offset % 32) >>> 2
        setBits dataStart dataEnd pointers p (Function.update bitmap byteIndex (bitmap byteIndex ||| 1#8 <<< bitInByte))

/-- `dyldCacheSlideInfo`: the fields that the kernel reads, and the bytes of the block -/
structure Info where
  tocOffset : Nat
  tocCount : Nat
  entriesOffset : Nat
  entriesCount : Nat
  bytes : Nat → BitVec 8

namespace Info

variable (info : Info)

/-- `toc[index]` -/
def toc (index : Nat) : Nat := (info.bytes (info.tocOffset + 2 * index)).toNat + 2 ^ 8 * (info.bytes (info.tocOffset + 2 * index + 1)).toNat

/-- `set_toc`, which reads 16 bits of `toc_offset` only -/
def setToc (index value : Nat) : Info :=
  let address := info.tocOffset % 2 ^ 16 + 2 * index
  { info with bytes := Function.update (Function.update info.bytes address (.ofNat 8 value)) (address + 1) (.ofNat 8 (value / 2 ^ 8)) }

/-- A byte of an entry -/
def entry (index i : Nat) : BitVec 8 := info.bytes (info.entriesOffset + 128 * index + i)

variable (bitmap : Nat → BitVec 8)

/-- The `memcmp` of the entry of a page -/
def isEntry (page : Nat) (info : Info) (index : Nat) : Bool := (List.range 128).all fun i => bitmap (128 * page + i) = info.entry index i

/-- The `memcpy` of the entry of a page -/
def copyEntry (page : Nat) (info : Info) (index : Nat) : Info :=
  let address := info.entriesOffset + 128 * index
  { info with bytes := fun a => if address ≤ a ∧ a < address + 128 then bitmap (128 * page + (a - address)) else info.bytes a }

end Info

/-- An iteration of the loop over the pages, with `entry_count` -/
def addPage (bitmap : Nat → BitVec 8) (state : Info × Nat) (page : Nat) : Info × Nat :=
  let (info, entryCount) := state
  match (List.range entryCount).find? (info.isEntry bitmap page) with
  | some index => (info.setToc page index, entryCount)
  | none => ((info.copyEntry bitmap page entryCount).setToc page entryCount, entryCount + 1)

/-- The slide info for the pointers in the mapping -/
def buildSlideInfo (mapping : Mapping) (pointersInData : List Nat) : Except Error Info := do
  let bitmap ← setBits mapping.fileOffset (mapping.fileOffset + mapping.size) pointersInData 0 fun _ => 0
  let bitmapSize := mapping.size / (4 * 8)
  let tocCount := bitmapSize / 128
  let info : Info :=
    { tocOffset := 24, tocCount, entriesOffset := (24 + 2 * tocCount + 127) / 128 * 128, entriesCount := 0, bytes := fun _ => 0 }
  let (info, entryCount) := (List.range tocCount).foldl (addPage bitmap) (info, 0)
  return { info with entriesCount := entryCount }

/-! ## The kernel -/

/-- `vm_shared_region_slide_sanity_check` returns `KERN_SUCCESS`. -/
def slideSanityCheck (info : Info) : Bool := (List.range info.tocCount).all fun pageIndex => info.toc pageIndex < info.entriesCount

/-- The words of the mapping -/
abbrev Words : Type := Nat → BitVec 32

section Kernel

variable (is64 : Bool) (slide : BitVec 32)

/-- A word is slid. `KERN_FAILURE` comes with the words at that time. -/
def slidePtr (words : Words) (ptrToSlide : Nat) : Except Words Words :=
  let oldValue := words ptrToSlide
  let words := Function.update words ptrToSlide (oldValue + slide)
  if is64 ∧ words ptrToSlide < oldValue then .error words else .ok words

/-- The words of a byte of the bitmap -/
def slideByte (first : Nat) (b : BitVec 8) (words : Words) : Except Words Words :=
  if b ≠ 0 then
    (List.range 8).foldlM (fun words j => if b &&& 1#8 <<< j ≠ 0 then slidePtr is64 slide words (first + j) else .ok words) words
  else .ok words

/-- `vm_shared_region_slide_page` of the page at its place in the mapping -/
def slidePage (info : Info) (words : Words) (pageIndex : Nat) : Except Words Words :=
  if info.tocCount ≤ pageIndex then .ok words
  else
    let entryIndex := info.toc pageIndex
    if info.entriesCount ≤ entryIndex then .ok words
    else (List.range 128).foldlM (fun words i => slideByte is64 slide (1024 * pageIndex + i * 8) (info.entry entryIndex i) words) words

end Kernel

end DarwinNotes.Dyld.SlideInfo
