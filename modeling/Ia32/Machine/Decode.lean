import Ia32.ModRM
import Ia32.Machine.Memory

/-!
# Decoding

Bytes are read one after the other from a string of which a part may have been read before. A
decoder stops where the string ends and at bytes that start no instruction.

* `Reader`: a string of bytes, and how many of them have been read; `Decoder`: what reads them;
* `Decoder.byte`, `Decoder.value`: a byte, a value of several bytes at once;
* `Decoder.modRM`: an operand in memory or in a register, and the field beside it;
* `Decoder.body`: the instruction that an opcode starts; `Decoder.instr`: an instruction;
* `decode`: the instruction at the start of a string of bytes;
* `sweep`: the instructions in a string of bytes, one after the other.
-/

set_option autoImplicit false

namespace Ia32

/-! ## Readers -/

/-- Why a decoder stops. -/
inductive Stop where
  /-- The string ends before the instruction does. -/
  | truncated
  /-- The bytes start no instruction. -/
  | unsupported
  deriving DecidableEq

/-- A string of bytes, and how many of them have been read. -/
structure Reader where
  bytes : List Byte
  pos : Nat := 0
  deriving DecidableEq

/-- What reads bytes. When it stops, it has read the bytes up to there. -/
abbrev Decoder := EStateM Stop Reader

namespace Decoder

/-- The next byte. -/
def byte : Decoder Byte := do
  let r ← get
  match r.bytes[r.pos]? with
  | some b =>
    set { r with pos := r.pos + 1 }
    return b
  | none => throw .truncated

/-- A value of a width, lowest byte first. Unless all of its bytes are there, none is read. -/
def value (w : Width) : Decoder Long := do
  let r ← get
  match w.readBytes (r.bytes.drop r.pos) with
  | some v =>
    set { r with pos := r.pos + w.bytes }
    return v
  | none => throw .truncated

/-! ## Constants -/

/-- A constant of a width, without a sign. -/
def imm (w : Width) : Decoder Operand := do
  let v ← value w
  return .imm v.toNat

/-- A constant of one byte, its sign extended to a width. -/
def immByte (w : Width) : Decoder Operand := do
  let v ← value .byte
  return .imm (w.truncate (Width.byte.signed v)).toNat

/-- A distance, with its sign. -/
def distance (w : Width) : Decoder Int := do
  let v ← value w
  return w.signed v

/-! ## Operands -/

/-- An address without its offset, given the mode and the low field of the operand byte, and whether
it has no base. -/
def address (mode : BitVec 2) (low : BitVec 3) : Decoder (MemRef × Bool) := do
  if low = ModRM.hasIndex then
    let second := Fields.ofByte (← byte)
    let noBase := mode == ModRM.indirect && second.low == ModRM.noBase
    let base := if noBase then none else some (Reg.ofCode second.low .long)
    if second.mid = ModRM.noIndex then return ({ base }, noBase)
    let index := some (Reg.ofCode second.mid .long)
    return ({ base, index, scale := Scale.ofCode second.high }, noBase)
  else if mode = ModRM.indirect ∧ low = ModRM.noBase then return ({}, true)
  else return ({ base := some (Reg.ofCode low .long) }, false)

/-- The offset of an address, given the mode and whether the address has no base. -/
def offset (mode : BitVec 2) (noBase : Bool) : Decoder Int := do
  if mode = ModRM.offsetByte then distance .byte
  else if mode = ModRM.offsetLong then distance .long
  else if noBase then return (← value .long).toNat
  else return 0

/-- An operand of a width, after the field that stands beside it. -/
def modRM (w : Width) : Decoder (BitVec 3 × Operand) := do
  let f := Fields.ofByte (← byte)
  if f.high = ModRM.direct then return (f.mid, .reg (Reg.ofCode f.low w))
  let (ref, noBase) ← address f.high f.low
  let offset ← offset f.high noBase
  return (f.mid, .mem { ref with offset })

/-! ## Opcodes -/

/-- The width that the lowest bit of an opcode tells, given the width other than a byte. -/
def sizeOf (opcode : Byte) (wide : Width) : Width := if opcode.getLsbD 0 then wide else .byte

/-- The register operand of a width whose number is in the lowest bits of a byte. -/
def register (b : Byte) (w : Width) : Operand := .reg (Reg.ofCode (b.setWidth 3) w)

/-- The six forms of the operations of two operands. -/
def classic (opcode : Byte) (wide : Width) : Decoder Instr := do
  let mnemonic := .alu (AluOp.ofCode (opcode.extractLsb' 3 3))
  let size := sizeOf opcode wide
  if opcode.setWidth 3 ≤ (1 : BitVec 3) then
    let (r, rm) ← modRM size
    return ⟨mnemonic, size, [.reg (Reg.ofCode r size), rm]⟩
  else if opcode.setWidth 3 ≤ (3 : BitVec 3) then
    let (r, rm) ← modRM size
    return ⟨mnemonic, size, [rm, .reg (Reg.ofCode r size)]⟩
  else return ⟨mnemonic, size, [← imm size, .reg (Reg.ofCode 0 size)]⟩

/-- A jump over a distance of a width. -/
def jump (mnemonic : Mnemonic) (w : Width) : Decoder Instr := do
  return ⟨mnemonic, .long, [.imm (← distance w)]⟩

/-- The opcodes of two bytes. -/
def escaped : Decoder Instr := do
  let second ← byte
  if 0x80 ≤ second ∧ second ≤ 0x8F then jump (.jcc (Cond.ofCode (second.setWidth 4))) .long
  else throw .unsupported

/-- An operation with a constant, which for one opcode is a byte. -/
def immediate (opcode : Byte) (wide : Width) : Decoder Instr := do
  let size := sizeOf opcode wide
  let (code, rm) ← modRM size
  let n ← if opcode = 0x83 then immByte size else imm size
  return ⟨.alu (AluOp.ofCode code), size, [n, rm]⟩

/-- A test or a move of a register and an operand, the register first. -/
def store (mnemonic : Mnemonic) (opcode : Byte) (wide : Width) : Decoder Instr := do
  let size := sizeOf opcode wide
  let (r, rm) ← modRM size
  return ⟨mnemonic, size, [.reg (Reg.ofCode r size), rm]⟩

/-- A shift by a constant, once, or by `cl`. -/
def shift (opcode : Byte) (wide : Width) : Decoder Instr := do
  let size := sizeOf opcode wide
  let (code, rm) ← modRM size
  let count ←
    if opcode = 0xC0 ∨ opcode = 0xC1 then imm .byte
    else if opcode = 0xD0 ∨ opcode = 0xD1 then pure (.imm 1)
    else pure (.reg .cl)
  return ⟨.shift (ShiftOp.ofCode code), size, [count, rm]⟩

/-- The instruction that an opcode starts, given the width other than a byte. The operand of a
branch is the distance from the next instruction. -/
def body (opcode : Byte) (wide : Width) : Decoder Instr := do
  let size := sizeOf opcode wide
  if opcode ≤ 0x3F ∧ opcode.setWidth 3 < (6 : BitVec 3) then classic opcode wide
  else if opcode = 0x0F then escaped
  else if 0x40 ≤ opcode ∧ opcode ≤ 0x47 then return ⟨.inc, wide, [register opcode wide]⟩
  else if 0x48 ≤ opcode ∧ opcode ≤ 0x4F then return ⟨.dec, wide, [register opcode wide]⟩
  else if 0x50 ≤ opcode ∧ opcode ≤ 0x57 then return ⟨.push, wide, [register opcode wide]⟩
  else if 0x58 ≤ opcode ∧ opcode ≤ 0x5F then return ⟨.pop, wide, [register opcode wide]⟩
  else if opcode = 0x68 then return ⟨.push, wide, [← imm wide]⟩
  else if opcode = 0x6A then return ⟨.push, wide, [← immByte wide]⟩
  else if 0x70 ≤ opcode ∧ opcode ≤ 0x7F then jump (.jcc (Cond.ofCode (opcode.setWidth 4))) .byte
  else if opcode = 0x80 ∨ opcode = 0x81 ∨ opcode = 0x83 then immediate opcode wide
  else if opcode = 0x84 ∨ opcode = 0x85 then store .test opcode wide
  else if opcode = 0x88 ∨ opcode = 0x89 then store .mov opcode wide
  else if opcode = 0x8A ∨ opcode = 0x8B then
    let (r, rm) ← modRM size
    return ⟨.mov, size, [rm, .reg (Reg.ofCode r size)]⟩
  else if opcode = 0x8D then
    match ← modRM wide with
    | (r, .mem ref) => return ⟨.lea, wide, [.mem ref, .reg (Reg.ofCode r wide)]⟩
    | _ => throw .unsupported
  else if opcode = 0x8F then
    let (code, rm) ← modRM wide
    if code = 0 then return ⟨.pop, wide, [rm]⟩ else throw .unsupported
  else if opcode = 0xA8 ∨ opcode = 0xA9 then
    return ⟨.test, size, [← imm size, .reg (Reg.ofCode 0 size)]⟩
  else if 0xB0 ≤ opcode ∧ opcode ≤ 0xB7 then
    return ⟨.mov, .byte, [← imm .byte, register opcode .byte]⟩
  else if 0xB8 ≤ opcode ∧ opcode ≤ 0xBF then
    return ⟨.mov, wide, [← imm wide, register opcode wide]⟩
  else if opcode = 0xC0 ∨ opcode = 0xC1 ∨ 0xD0 ≤ opcode ∧ opcode ≤ 0xD3 then shift opcode wide
  else if opcode = 0xC6 ∨ opcode = 0xC7 then
    let (code, rm) ← modRM size
    if code = 0 then return ⟨.mov, size, [← imm size, rm]⟩ else throw .unsupported
  else if opcode = 0xE8 then jump .call .long
  else if opcode = 0xE9 then jump .jmp .long
  else if opcode = 0xEB then jump .jmp .byte
  else if opcode = 0xF6 ∨ opcode = 0xF7 then
    let (code, rm) ← modRM size
    match Mnemonic.ofGroupCode? code with
    | some .test => return ⟨.test, size, [← imm size, rm]⟩
    | some m => return ⟨m, size, [rm]⟩
    | none => throw .unsupported
  else if opcode = 0xFE ∨ opcode = 0xFF then
    let (code, rm) ← modRM size
    if code = 0 then return ⟨.inc, size, [rm]⟩
    else if code = 1 then return ⟨.dec, size, [rm]⟩
    else if code = 6 ∧ opcode = 0xFF then return ⟨.push, size, [rm]⟩
    else throw .unsupported
  else
    match PlainOp.ofOpcode? opcode with
    | some op => return ⟨.plain op, wide, []⟩
    | none => throw .unsupported

/-- An instruction, its branches still relative. -/
def instr : Decoder Instr := do
  let first ← byte
  if first = wordMark then body (← byte) .word else body first .long

end Decoder

/-! ## Branches -/

/-- The place that a distance from an address leads to. -/
def Operand.relocate (next : Int) : Operand → Operand
  | imm distance => imm ((next + distance) % 0x100000000)
  | op => op

/-- An instruction of a given length at an address, with the places that its branches lead to. -/
def Instr.place (i : Instr) (address : Long) (length : Nat) : Decoded where
  mnemonic := i.mnemonic
  width := i.width
  operands :=
    if i.mnemonic.isBranch then i.operands.map (Operand.relocate (address.toNat + length))
    else i.operands
  address
  length

/-- The instruction at the start of a string of bytes from an address. There is none if the
string ends before the instruction does. -/
def decode (bs : List Byte) (address : Long) : Except Fault (Option Decoded) :=
  match Decoder.instr { bytes := bs } with
  | .ok i r => .ok (some (i.place address r.pos))
  | .error .truncated _ => .ok none
  | .error .unsupported r => .error (.undecodable (bs.take r.pos))

/-! ## Sweeps -/

/-- The instructions in a string of bytes, how many bytes they take, and why no more follow them:
a fault, or that the bytes end. -/
structure Sweep where
  instructions : List Decoded
  length : Nat
  fault : Option Fault
  deriving DecidableEq

/-- So many instructions at most, one after the other. -/
def sweepFrom : Nat → List Byte → Long → Sweep
  | 0, _, _ => ⟨[], 0, none⟩
  | n + 1, bs, address =>
    match decode bs address with
    | .error f => ⟨[], 0, some f⟩
    | .ok none => ⟨[], 0, none⟩
    | .ok (some d) =>
      let rest := sweepFrom n (bs.drop d.length) d.next
      ⟨d :: rest.instructions, d.length + rest.length, rest.fault⟩

/-- The instructions in a string of bytes, of which each takes one byte at least. -/
def sweep (bs : List Byte) (address : Long) : Sweep := sweepFrom bs.length bs address

end Ia32
