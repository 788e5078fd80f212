import Ia32.Instr

/-!
# Operand bytes

A register or a place in memory is encoded in a byte of three fields of two, three and three
bits: a mode, a register or an extension of the opcode, and the operand itself. A second byte of
the same layout follows when the address has an index, or `esp` as its base.

* `Fields`: the three fields; `Fields.byte`, `Fields.ofByte`: the byte of them, and back;
* `MemRef.form`: the addresses that can be encoded, all of them without an offset;
* `ModRM.encode`, `ModRM.length`: the bytes of an operand, and how many they are.
-/

set_option autoImplicit false

namespace Ia32

/-! ## Fields -/

/-- The three fields of an operand byte. -/
structure Fields where
  high : BitVec 2
  mid : BitVec 3
  low : BitVec 3
  deriving DecidableEq

namespace Fields

/-- The byte that holds three fields. -/
def byte (f : Fields) : Byte := f.high ++ f.mid ++ f.low

/-- The three fields of a byte. -/
def ofByte (b : Byte) : Fields := ⟨b.extractLsb' 6 2, b.extractLsb' 3 3, b.extractLsb' 0 3⟩

end Fields

namespace ModRM

/-- The operand is in memory, and the address has no offset. -/
abbrev indirect : BitVec 2 := 0

/-- The operand is in memory, and the offset is a byte. -/
abbrev offsetByte : BitVec 2 := 1

/-- The operand is in memory, and the offset is a long. -/
abbrev offsetLong : BitVec 2 := 2

/-- The operand is a register. -/
abbrev direct : BitVec 2 := 3

/-- In place of a base register: a second byte describes the address. -/
abbrev hasIndex : BitVec 3 := 4

/-- In place of an index register: the address has none. -/
abbrev noIndex : BitVec 3 := 4

/-- In place of a base register, when there is no offset: the address has no base. -/
abbrev noBase : BitVec 3 := 5

end ModRM

/-! ## Encoding -/

/-- Why an operand has no encoding. -/
inductive EncodeError where
  | offset (n : Int)
  | missingBase
  | narrowRegister (r : Reg)
  | espIndex
  | ebpBase
  | notRM (kind : String)
  deriving DecidableEq

/-- The wording of an encoding error. -/
def EncodeError.message : EncodeError → String
  | offset n => s!"Displacement `{n}` is not supported, only zero offsets can be encoded"
  | missingBase => "Memory operand requires a base register"
  | narrowRegister r =>
    s!"`%{r.name}` cannot be used in an address, only 32-bit registers can"
  | espIndex => "`%esp` cannot be used as an index register"
  | ebpBase => "`(%ebp)` needs a displacement byte"
  | notRM kind => s!"A {kind} operand cannot be encoded in the r/m field"

/-- A register that takes part in an address must be a long one. -/
def Reg.inAddress (r : Reg) : Except EncodeError Reg :=
  if r.width = .long then .ok r else .error (.narrowRegister r)

/-- The low field and, where one is needed, the second byte for an address. -/
def MemRef.form (m : MemRef) : Except EncodeError (BitVec 3 × Option Byte) := do
  if m.offset ≠ 0 then throw (.offset m.offset)
  let some base := m.base | throw .missingBase
  let base ← base.inAddress
  if base = .ebp then throw .ebpBase
  match m.index with
  | some index =>
    let index ← index.inAddress
    if index = .esp then throw .espIndex
    return (ModRM.hasIndex, some (Fields.mk m.scale.code index.code base.code).byte)
  | none =>
    if base = .esp then
      return (ModRM.hasIndex, some (Fields.mk Scale.one.code ModRM.noIndex base.code).byte)
    return (base.code, none)

namespace ModRM

/-- The bytes of an operand, with a register number or an opcode extension in the middle field. -/
def encode (op : Operand) (field : BitVec 3) : Except EncodeError (List Byte) :=
  match op with
  | .reg r => .ok [(Fields.mk direct field r.code).byte]
  | .mem m => do
    let (low, second) ← m.form
    return (Fields.mk indirect field low).byte :: second.toList
  | op => .error (.notRM op.kind)

/-- The number of bytes of an operand. -/
def length (op : Operand) : Except EncodeError Nat :=
  match op with
  | .reg _ => .ok 1
  | .mem m => do
    let (_, second) ← m.form
    return if second.isSome then 2 else 1
  | op => .error (.notRM op.kind)

end ModRM

end Ia32
