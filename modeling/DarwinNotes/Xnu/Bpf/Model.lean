import Mathlib

/-!
# Packet filters

`bpf_validate` and the interpreter `bpf_filter`. The interpreter switches on the whole 16-bit code, the validator on parts of it. A packet
is a flat buffer or, if `buflen` is 0, a chain of mbufs. What C leaves open (a fetch beyond the program, an index beyond `mem`, a division
by zero, a read beyond the buffer) is a fault; a shift by 32 or more gives the value that the parameter `overshift` says.
-/

namespace DarwinNotes.Xnu.Bpf

structure Insn where
  code : UInt16
  jt : UInt8 := 0
  jf : UInt8 := 0
  k : UInt32

def BPF_MAXINSNS : Nat := 512

def BPF_MEMWORDS : UInt32 := 16

/-! ## The validator -/

/-- The checks of `bpf_validate` at the instruction `i`, by `BPF_CLASS`, then by `BPF_MODE` or `BPF_OP` -/
def Insn.check (bpf_maxbufsize len i : UInt32) (p : Insn) : Bool :=
  match p.code &&& 0x07 with
  | 0x00 | 0x01 => -- BPF_LD, BPF_LDX
    match p.code &&& 0xe0 with
    | 0x00 | 0x80 => true -- BPF_IMM, BPF_LEN
    | 0x20 | 0x40 | 0xa0 => p.k < bpf_maxbufsize -- BPF_ABS, BPF_IND, BPF_MSH
    | 0x60 => p.k < BPF_MEMWORDS -- BPF_MEM
    | _ => false
  | 0x02 | 0x03 => p.k < BPF_MEMWORDS -- BPF_ST, BPF_STX
  | 0x04 => -- BPF_ALU
    match p.code &&& 0xf0 with
    | 0x00 | 0x10 | 0x20 | 0x40 | 0x50 | 0x60 | 0x70 | 0x80 => true
    | 0x30 => !(p.code &&& 0x08 == 0 && p.k == 0) -- BPF_DIV
    | _ => false
  | 0x05 => -- BPF_JMP
    let start := i + 1
    match p.code &&& 0xf0 with
    | 0x00 => !(start + p.k < start || start + p.k ≥ len) -- BPF_JA
    | 0x10 | 0x20 | 0x30 | 0x40 => !(start + p.jt.toUInt32 ≥ len || start + p.jf.toUInt32 ≥ len)
    | _ => false
  | _ => true -- BPF_RET, BPF_MISC

def bpfValidate (bpf_maxbufsize : UInt32) (f : List Insn) : Bool :=
  !(f.length < 1 || f.length > BPF_MAXINSNS) &&
    (f.zipIdx.all fun (p, i) => p.check bpf_maxbufsize f.length.toUInt32 i.toUInt32) &&
    f.getLast?.any fun p => p.code &&& 0x07 == 0x06

/-! ## Packets -/

/-- The bytes from `len` on are those that happen to be there. -/
structure Mbuf where
  len : Nat
  data : Nat → UInt8

inductive Packet
  | flat (bytes : List UInt8) (fits : bytes ≠ [] ∧ bytes.length < 2 ^ 32)
  | chain (mbufs : List Mbuf)

def Packet.buflen : Packet → UInt32
  | flat bytes _ => bytes.length.toUInt32
  | chain _ => 0

def extract (bytes : List UInt8) : UInt32 := bytes.foldl (fun value byte => value <<< 8 ||| byte.toUInt32) 0

/-- `MINDEX`, and the same loop of `m_xword` and `m_xhalf`: the mbuf of the byte `k`, those after it, and where the byte is in it -/
def mindex : List Mbuf → Nat → Option (Mbuf × List Mbuf × Nat)
  | [], _ => none
  | m :: next, k => if k ≥ m.len then mindex next (k - m.len) else some (m, next, k)

variable (mbufs : List Mbuf)

def mByte (k : Nat) : Option UInt32 := (mindex mbufs k).map fun (m, _, k) => (m.data k).toUInt32

/-- `none` where `err` is set -/
def mXword (k : Nat) : Option UInt32 :=
  (mindex mbufs k).bind fun (m, next, k) =>
    if m.len - k ≥ 4 then some (extract [m.data k, m.data (k + 1), m.data (k + 2), m.data (k + 3)])
    else match next with
      | [] => none
      | m0 :: _ =>
        if m0.len + m.len - k < 4 then none
        else match m.len - k with
          | 1 => some (extract [m.data k, m0.data 0, m0.data 1, m0.data 2])
          | 2 => some (extract [m.data k, m.data (k + 1), m0.data 0, m0.data 1])
          | _ => some (extract [m.data k, m.data (k + 1), m.data (k + 2), m0.data 0])

def mXhalf (k : Nat) : Option UInt32 :=
  (mindex mbufs k).bind fun (m, next, k) =>
    if m.len - k ≥ 2 then some (extract [m.data k, m.data (k + 1)])
    else match next with
      | [] => none
      | m0 :: _ => some (extract [m.data k, m0.data 0])

inductive Width
  | byte
  | half
  | word

def Width.size : Width → Nat
  | byte => 1
  | half => 2
  | word => 4

def Width.fetch : Width → List Mbuf → Nat → Option UInt32
  | byte => mByte
  | half => mXhalf
  | word => mXword

/-! ## The interpreter -/

inductive Fault
  | fetch
  | index
  | division
  | read
  | turns

/-- A load of the width at `k`: `missing` is the test against `buflen`, and the result `none` that the packet is rejected. -/
def Packet.load (width : Width) (missing : Bool) (k : UInt32) : Packet → Except Fault (Option UInt32)
  | flat bytes _ =>
    if missing then .ok none
    else if k.toNat + width.size ≤ bytes.length then .ok (some (extract ((bytes.drop k.toNat).take width.size)))
    else .error .read
  | chain mbufs => if missing then .ok (width.fetch mbufs k.toNat) else .error .read

structure State where
  pc : Nat := 0
  A : UInt32 := 0
  X : UInt32 := 0
  mem : UInt32 → UInt32 := fun _ => 0

/-- The filter returns, or goes on to the instruction after `pc`. -/
abbrev Step := Except Fault (UInt32 ⊕ State)

variable (s : State)

def State.loadA (value : Except Fault (Option UInt32)) : Step :=
  value.map fun
    | none => .inl 0
    | some A => .inr { s with A }

def State.jump (p : Insn) (taken : Bool) : Step := .ok (.inr { s with pc := s.pc + (if taken then p.jt else p.jf).toNat })

def State.read (k : UInt32) (into : UInt32 → State) : Step :=
  if k < BPF_MEMWORDS then .ok (.inr (into (s.mem k))) else .error .index

def State.write (k value : UInt32) : Step :=
  if k ≥ BPF_MEMWORDS then .ok (.inl 0) else .ok (.inr { s with mem := fun i => if i = k then value else s.mem i })

section
variable (overshift : UInt32 → UInt32 → UInt32) (packet : Packet) (wirelen : UInt32)

def step (s : State) (p : Insn) : Step :=
  let setA A : Step := .ok (.inr { s with A })
  let setX X : Step := .ok (.inr { s with X })
  let buflen := packet.buflen
  let k := s.X + p.k
  match p.code with
  | 0x06 => .ok (.inl p.k) -- BPF_RET|BPF_K
  | 0x16 => .ok (.inl s.A) -- BPF_RET|BPF_A
  | 0x20 => s.loadA (packet.load .word (p.k > buflen || 4 > buflen - p.k) p.k) -- BPF_LD|BPF_W|BPF_ABS
  | 0x28 => -- BPF_LD|BPF_H|BPF_ABS: merr is not looked at
    let value := packet.load .half (p.k > buflen || 2 > buflen - p.k) p.k
    s.loadA (if buflen = 0 then value.map fun value => some (value.getD 0) else value)
  | 0x30 => s.loadA (packet.load .byte (p.k ≥ buflen) p.k) -- BPF_LD|BPF_B|BPF_ABS
  | 0x80 => setA wirelen -- BPF_LD|BPF_W|BPF_LEN
  | 0x81 => setX wirelen -- BPF_LDX|BPF_W|BPF_LEN
  | 0x40 => s.loadA (packet.load .word (p.k > buflen || s.X > buflen - p.k || 4 > buflen - k) k) -- BPF_LD|BPF_W|BPF_IND
  | 0x48 => s.loadA (packet.load .half (s.X > buflen || p.k > buflen - s.X || 2 > buflen - k) k) -- BPF_LD|BPF_H|BPF_IND
  | 0x50 => s.loadA (packet.load .byte (p.k ≥ buflen || s.X ≥ buflen - p.k) k) -- BPF_LD|BPF_B|BPF_IND
  | 0xb1 => -- BPF_LDX|BPF_MSH|BPF_B
    (packet.load .byte (p.k ≥ buflen) p.k).map fun
      | none => .inl 0
      | some byte => .inr { s with X := (byte &&& 0xf) <<< 2 }
  | 0x00 => setA p.k -- BPF_LD|BPF_IMM
  | 0x01 => setX p.k -- BPF_LDX|BPF_IMM
  | 0x60 => s.read p.k fun A => { s with A } -- BPF_LD|BPF_MEM
  | 0x61 => s.read p.k fun X => { s with X } -- BPF_LDX|BPF_MEM
  | 0x02 => s.write p.k s.A -- BPF_ST
  | 0x03 => s.write p.k s.X -- BPF_STX
  | 0x05 => .ok (.inr { s with pc := s.pc + p.k.toNat }) -- BPF_JMP|BPF_JA
  | 0x25 => s.jump p (s.A > p.k) -- BPF_JMP|BPF_JGT|BPF_K
  | 0x35 => s.jump p (s.A ≥ p.k) -- BPF_JMP|BPF_JGE|BPF_K
  | 0x15 => s.jump p (s.A = p.k) -- BPF_JMP|BPF_JEQ|BPF_K
  | 0x45 => s.jump p (s.A &&& p.k ≠ 0) -- BPF_JMP|BPF_JSET|BPF_K
  | 0x2d => s.jump p (s.A > s.X) -- BPF_JMP|BPF_JGT|BPF_X
  | 0x3d => s.jump p (s.A ≥ s.X) -- BPF_JMP|BPF_JGE|BPF_X
  | 0x1d => s.jump p (s.A = s.X) -- BPF_JMP|BPF_JEQ|BPF_X
  | 0x4d => s.jump p (s.A &&& s.X ≠ 0) -- BPF_JMP|BPF_JSET|BPF_X
  | 0x0c => setA (s.A + s.X) -- BPF_ALU|BPF_ADD|BPF_X
  | 0x1c => setA (s.A - s.X) -- BPF_ALU|BPF_SUB|BPF_X
  | 0x2c => setA (s.A * s.X) -- BPF_ALU|BPF_MUL|BPF_X
  | 0x3c => if s.X = 0 then .ok (.inl 0) else setA (s.A / s.X) -- BPF_ALU|BPF_DIV|BPF_X
  | 0x5c => setA (s.A &&& s.X) -- BPF_ALU|BPF_AND|BPF_X
  | 0x4c => setA (s.A ||| s.X) -- BPF_ALU|BPF_OR|BPF_X
  | 0x6c => setA (if s.X < 32 then s.A <<< s.X else overshift s.A s.X) -- BPF_ALU|BPF_LSH|BPF_X
  | 0x7c => setA (if s.X < 32 then s.A >>> s.X else overshift s.A s.X) -- BPF_ALU|BPF_RSH|BPF_X
  | 0x04 => setA (s.A + p.k) -- BPF_ALU|BPF_ADD|BPF_K
  | 0x14 => setA (s.A - p.k) -- BPF_ALU|BPF_SUB|BPF_K
  | 0x24 => setA (s.A * p.k) -- BPF_ALU|BPF_MUL|BPF_K
  | 0x34 => if p.k = 0 then .error .division else setA (s.A / p.k) -- BPF_ALU|BPF_DIV|BPF_K
  | 0x54 => setA (s.A &&& p.k) -- BPF_ALU|BPF_AND|BPF_K
  | 0x44 => setA (s.A ||| p.k) -- BPF_ALU|BPF_OR|BPF_K
  | 0x64 => setA (if p.k < 32 then s.A <<< p.k else overshift s.A p.k) -- BPF_ALU|BPF_LSH|BPF_K
  | 0x74 => setA (if p.k < 32 then s.A >>> p.k else overshift s.A p.k) -- BPF_ALU|BPF_RSH|BPF_K
  | 0x84 => setA (-s.A) -- BPF_ALU|BPF_NEG
  | 0x07 => setX s.A -- BPF_MISC|BPF_TAX
  | 0x87 => setA s.X -- BPF_MISC|BPF_TXA
  | _ => .ok (.inl 0)

/-- The loop, for so many turns -/
def run (f : List Insn) : Nat → State → Except Fault UInt32
  | 0, _ => .error .turns
  | turns + 1, s =>
    match f[s.pc]? with
    | none => .error .fetch
    | some p =>
      match step overshift packet wirelen s p with
      | .error fault => .error fault
      | .ok (.inl value) => .ok value
      | .ok (.inr s) => run f turns { s with pc := s.pc + 1 }

/-- The filter in as many turns as the program has instructions -/
def bpfFilter (f : List Insn) : Except Fault UInt32 := run overshift packet wirelen f f.length {}

end

end DarwinNotes.Xnu.Bpf
