import Ia32.Mnemonic
import Ia32.Register
import Ia32.Text.Format

/-!
# Operands and instructions

An operand is a register, a constant, a place in memory, or the name of a place in the code. An
instruction is a mnemonic, a width, and operands, source first and destination last.

* `Scale`, `MemRef`, `Operand`: the operands;
* `MemRef.text`, `Operand.text`, `Operand.coloured`: how they are written;
* `Instr`: the instruction as assembler and machine both know it; `Instr.text`: its written form;
* `Decoded`: an instruction found in memory, with its address and its length.
-/

set_option autoImplicit false

namespace Ia32

/-! ## Places in memory -/

/-- What the index register of an address is multiplied by. -/
inductive Scale where
  | one
  | two
  | four
  | eight
  deriving DecidableEq

namespace Scale

/-- The scales in the order of their codes. -/
def table : Vector Scale 4 := #v[one, two, four, eight]

/-- The two-bit code of a scale. -/
def code : Scale → BitVec 2
  | one => 0
  | two => 1
  | four => 2
  | eight => 3

/-- The scale with a code. -/
def ofCode (c : BitVec 2) : Scale := table.get c.toFin

/-- The factor that a scale stands for. -/
def factor : Scale → Nat
  | one => 1
  | two => 2
  | four => 4
  | eight => 8

/-- The scale that stands for a factor. -/
def ofFactor? (n : Int) : Option Scale := table.toList.find? fun s => (s.factor : Int) == n

end Scale

/-- The address `offset(%base,%index,scale)`. -/
structure MemRef where
  base : Option Reg := none
  offset : Int := 0
  index : Option Reg := none
  scale : Scale := .one
  deriving DecidableEq

/-- The written form of an address. An offset of zero is left out unless it stands alone, and the
scale is written with the index only. -/
def MemRef.text (m : MemRef) : String :=
  let offset := if m.offset ≠ 0 then Text.signedHex m.offset else ""
  let base := m.base.map fun r => "%" ++ r.name
  let index := m.index.map fun r => ",%" ++ r.name ++ "," ++ toString m.scale.factor
  match base, index with
  | none, none => Text.signedHex m.offset
  | base, index => offset ++ "(" ++ base.getD "" ++ index.getD "" ++ ")"

/-! ## Operands -/

/-- An operand of an instruction. -/
inductive Operand where
  | reg (r : Reg)
  | imm (n : Int)
  | mem (m : MemRef)
  | label (name : String)
  deriving DecidableEq

namespace Operand

/-- The word for the kind of an operand. -/
def kind : Operand → String
  | reg _ => "register"
  | imm _ => "constant"
  | mem _ => "memory"
  | label _ => "label"

/-- The register, if the operand is one. -/
def reg? : Operand → Option Reg
  | reg r => some r
  | _ => none

/-- Whether the operand is a register. -/
def isReg (op : Operand) : Bool := op.reg?.isSome

/-- Whether the operand is a place in memory. -/
def isMem : Operand → Bool
  | mem _ => true
  | _ => false

/-- Whether the operand can stand in the r/m field: a register or a place in memory. -/
def isRM (op : Operand) : Bool := op.isReg || op.isMem

/-- Whether the operand is `al`, `ax` or `eax`. -/
def isAccumulator (op : Operand) : Bool := op.reg?.any Reg.isAccumulator

/-- The written form of an operand. -/
def text : Operand → String
  | reg r => "%" ++ r.name
  | imm n => "$" ++ Text.signedHex n
  | mem m => m.text
  | label name => name

/-- The colour that marks the kind of an operand. -/
def colour : Operand → Text.Attribute
  | reg _ => .blue
  | imm _ => .yellow
  | mem _ => .cyan
  | label _ => .green

/-- The written form of an operand in its colour. -/
def coloured (op : Operand) : String := Text.styled [op.colour] op.text

end Operand

/-- The written form of a list of operands. -/
def Operand.listText (ops : List Operand) : String := ", ".intercalate (ops.map Operand.text)

/-- The written form of a list of operands, each in its colour. -/
def Operand.listColoured (ops : List Operand) : String :=
  ", ".intercalate (ops.map Operand.coloured)

/-! ## Instructions -/

/-- An instruction with its operands. -/
structure Instr where
  mnemonic : Mnemonic
  width : Width
  operands : List Operand
  deriving DecidableEq

namespace Instr

/-- The first operand. -/
def source? (i : Instr) : Option Operand := i.operands.head?

/-- The last operand. -/
def destination? (i : Instr) : Option Operand := i.operands.getLast?

end Instr

/-- An operator and its operands as they are written. -/
def Operand.statementText (operator : String) (ops : List Operand) : String :=
  if ops.isEmpty then operator else operator ++ " " ++ Operand.listText ops

/-- The written form of an instruction. -/
def Instr.text (i : Instr) : String := Operand.statementText i.mnemonic.name i.operands

/-- An instruction as it stands in memory. The target of a branch is a constant, its address. -/
structure Decoded extends Instr where
  address : Long
  length : Nat
  deriving DecidableEq

namespace Decoded

/-- The address that follows the instruction. -/
def next (d : Decoded) : Long := d.address + BitVec.ofNat 32 d.length

/-- The written form of the instruction, in colours. -/
def coloured (d : Decoded) : String :=
  Text.styled [.red] d.mnemonic.name ++ " " ++ Operand.listColoured d.operands

end Decoded

end Ia32
