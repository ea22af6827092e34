import Mathlib

/-!
# Rebase opcodes (`ImageLoaderMachOCompressed.cpp`)

`rebase` interprets a string of opcodes that move an address through the segments of an image and add the slide to the pointers there.
Addresses have 64 bits. One step here is the reading of one opcode or one turn of a loop of its own; it gives the addresses for which it
calls `rebaseAt`, and throws, ends or goes on.
-/

namespace DarwinNotes.Dyld.Rebase

/-- A segment, from its actual load address on -/
structure Segment where
  start : Nat
  size : Nat
  inSpace : start + size ≤ 2 ^ 64

/-- `segActualEndAddress` -/
def Segment.endAddress (segment : Segment) : Nat := (segment.start + segment.size) % 2 ^ 64

inductive Throw
  /-- "malformed uleb128" -/
  | malformedUleb
  /-- "uleb128 too big for uint64, bit=%d, result=0x%0llX" -/
  | ulebTooBig (bit result : Nat)
  /-- "REBASE_OPCODE_SET_SEGMENT_AND_OFFSET_ULEB has segment %d which is too large (0..%d)" -/
  | badSegment (segmentIndex : Nat)
  /-- "malformed rebase opcodes (%ld/%ld): address 0x%08lX is beyond end of segment %s (0x%08lX -> 0x%08lX)" -/
  | badAddress (address : Nat)
  /-- "bad rebase opcode %d" -/
  | badOpcode
  /-- "bad rebase type %d" -/
  | badType (type : Nat)

def readUleb128 : (bit result : Nat) → List UInt8 → Except Throw (Nat × List UInt8)
  | _, _, [] => .error .malformedUleb
  | bit, result, byte :: p =>
    let slice := byte.toNat &&& 0x7f
    if bit > 63 then .error (.ulebTooBig bit result)
    else
      let result := result ||| (slice <<< bit) % 2 ^ 64
      if byte &&& 0x80 ≠ 0 then readUleb128 (bit + 7) result p else .ok (result, p)

/-- An opcode with its operands -/
inductive Opcode
  | done
  | setType (type : Nat)
  | setSegmentAndOffset (segment : Segment) (offset : Nat)
  | addAddr (amount : Nat)
  | doRebaseTimes (count skip : Nat)
  | doRebaseAddAddr

def decode (segments : List Segment) : List UInt8 → Except Throw (Opcode × List UInt8)
  | [] => .ok (.done, [])
  | byte :: p => do
    let immediate := (byte &&& 0x0F).toNat
    match (byte &&& 0xF0).toNat with
    | 0x00 => return (.done, p)
    | 0x10 => return (.setType immediate, p)
    | 0x20 =>
      match segments[immediate]? with
      | none => .error (.badSegment immediate)
      | some segment =>
        let (offset, p) ← readUleb128 0 0 p
        return (.setSegmentAndOffset segment offset, p)
    | 0x30 =>
      let (amount, p) ← readUleb128 0 0 p
      return (.addAddr amount, p)
    | 0x40 => return (.addAddr (immediate * 8), p)
    | 0x50 => return (.doRebaseTimes immediate 0, p)
    | 0x60 =>
      let (count, p) ← readUleb128 0 0 p
      return (.doRebaseTimes count 0, p)
    | 0x70 => return (.doRebaseAddAddr, p)
    | 0x80 =>
      let (count, p) ← readUleb128 0 0 p
      let (skip, p) ← readUleb128 0 0 p
      return (.doRebaseTimes count skip, p)
    | _ => .error .badOpcode

/-- What is next: an opcode, a turn of a loop, or the operand of `DO_REBASE_ADD_ADDR_ULEB`, which is read last -/
inductive Mode
  | opcode
  | times (i count skip : Nat)
  | operand

structure State where
  p : List UInt8
  type : Nat
  segment : Segment
  address : Nat
  mode : Mode

namespace State

def add (state : State) (amount : Nat) : State := { state with address := (state.address + amount) % 2 ^ 64 }

/-- The check and the call of `rebaseAt`, which throws if it does not know the type. -/
def rebaseAt (state next : State) : List Nat × Except Throw (Option State) :=
  if state.address ≥ state.segment.endAddress then ([], .error (.badAddress state.address))
  else ([state.address], if state.type = 1 ∨ state.type = 2 then .ok (some next) else .error (.badType state.type))

def perform (state : State) : Opcode → List Nat × Except Throw (Option State)
  | .done => ([], .ok none)
  | .setType type => ([], .ok (some { state with type }))
  | .setSegmentAndOffset segment offset => ([], .ok (some { state with segment, address := (segment.start + offset) % 2 ^ 64 }))
  | .addAddr amount => ([], .ok (some (state.add amount)))
  | .doRebaseTimes count skip => ([], .ok (some { state with mode := .times 0 count skip }))
  | .doRebaseAddAddr => state.rebaseAt { state with mode := .operand }

end State

def step (segments : List Segment) (state : State) : List Nat × Except Throw (Option State) :=
  match state.mode with
  | .opcode =>
    match decode segments state.p with
    | .error thrown => ([], .error thrown)
    | .ok (opcode, p) => { state with p }.perform opcode
  | .times i count skip =>
    -- `i` is a `uint32_t`
    if i < count then state.rebaseAt ({ state with mode := .times ((i + 1) % 2 ^ 32) count skip }.add (skip + 8))
    else ([], .ok (some { state with mode := .opcode }))
  | .operand =>
    match readUleb128 0 0 state.p with
    | .error thrown => ([], .error thrown)
    | .ok (amount, p) => ([], .ok (some ({ state with p, mode := .opcode }.add (amount + 8))))

/-- `rebase` begins in the first segment. -/
def start (first : Segment) (bytes : List UInt8) : State := ⟨bytes, 0, first, first.start, .opcode⟩

end DarwinNotes.Dyld.Rebase
