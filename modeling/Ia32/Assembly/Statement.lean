import Ia32.Source
import Ia32.Assembly.Operator
import Ia32.Assembly.Instruction

/-!
# Statements of a program

A statement of a program is an instruction or a directive whose names are known and whose operands
fit together, so that it can be encoded.

* `RawOperand.resolve`: an operand with its registers known;
* `inferWidth`: the width of an instruction, from its registers and its operator;
* `Instruction.ofRaw`, `Directive.ofValues`, `Statement.ofBody`: statements from what is written;
* `Statement.length`, `Statement.bytes`: how long a statement is, and its bytes;
* `Statement.text`, `Statement.coloured`: its written form.
-/

set_option autoImplicit false

namespace Ia32

/-! ## Operands -/

/-- The register with a name. -/
def findRegister (name : String) : Except Cause Reg :=
  match Reg.ofName? name with
  | some r => .ok r
  | none => .error (.unknownRegister name)

/-- The register with a name, in an address. -/
def findAddressRegister (name : String) : Except Cause Reg := do
  let r ← findRegister name
  if r.width = .long then return r else throw (.narrowAddress r)

/-- A part of an address that may be left out. -/
def findPart (name : Option String) : Except Cause (Option Reg) :=
  match name with
  | none => .ok none
  | some name => some <$> findAddressRegister name

/-- A scale by its factor, which is one if it is left out. -/
def findScale (factor : Option Int) : Except Cause Scale :=
  match factor with
  | none => .ok .one
  | some n =>
    match Scale.ofFactor? n with
    | some s => .ok s
    | none => .error (.invalidScale n)

/-- An operand with its registers known. An address must have a base or an index. -/
def RawOperand.resolve : RawOperand → Except Cause Operand
  | .reg name => .reg <$> findRegister name
  | .imm n => .ok (.imm n)
  | .label name => .ok (.label name)
  | .mem base offset index scale => do
    let base ← findPart base
    let index ← findPart index
    if base.isNone && index.isNone then throw (.absoluteAddress offset)
    let scale ← findScale scale
    return .mem { base, offset, index, scale }

/-! ## Widths -/

/-- The operands whose registers decide the width: all, but for the count of a shift. -/
def sizedOperands (m : Mnemonic) (ops : List Operand) : List Operand :=
  if m.isShift && ops.length == 2 then ops.drop 1 else ops

/-- The last of some registers, which must be of one width. -/
def commonRegister (operator : String) (found : Option Reg) : List Reg → Except Cause (Option Reg)
  | [] => .ok found
  | r :: rs =>
    match found with
    | some prev =>
      if prev.width = r.width then commonRegister operator (some r) rs
      else .error (.registersDiffer operator prev r)
    | none => commonRegister operator (some r) rs

/-- The width of an instruction: that of its registers, which must be the one that the operator
fixes; without registers that of the operator; else a long. -/
def inferWidth (operator : String) (m : Mnemonic) (ops : List Operand) (implied : Option Width) :
    Except Cause Width := do
  let found ← commonRegister operator none ((sizedOperands m ops).filterMap Operand.reg?)
  match found, implied with
  | some r, some w => if r.width = w then return w else throw (.widthDiffers operator w r)
  | some r, none => return r.width
  | none, some w => return w
  | none, none => return .long

/-! ## Instructions -/

namespace Instruction

/-- The instruction that an operator and its operands stand for. -/
def ofRaw (operator : String) (raw : List RawOperand) : Except Cause Instruction := do
  let some (mnemonic, implied) := Operator.find? operator | throw (.unknownOperator operator)
  let operands ← raw.mapM RawOperand.resolve
  let width ← inferWidth operator mnemonic operands implied
  let i : Instruction := ⟨operator, ⟨mnemonic, width, operands⟩⟩
  i.validate
  return i

/-- The written form of an instruction. -/
def text (i : Instruction) : String := Operand.statementText i.operator i.instr.operands

end Instruction

/-! ## Directives -/

/-- A directive: data of a width, byte by byte as it is to lie in memory. -/
structure Directive where
  name : String
  width : Width
  values : List Int
  deriving DecidableEq

namespace Directive

/-- The directives and the widths of their values. -/
def table : List (String × Width) :=
  [(".byte", .byte), (".value", .word), (".word", .word), (".long", .long)]

/-- The directive with a name and values, of which there must be some, all of the right size. -/
def ofValues (name : String) (values : List Int) : Except Cause Directive := do
  let some width := table.lookup name | throw (.unknownDirective name)
  if values.isEmpty then throw (.noValues name)
  match values.find? fun v => !width.fits v with
  | some v => throw (.longValue name v width)
  | none => return ⟨name, width, values⟩

/-- The values as they are written. -/
def valueTexts (d : Directive) : List String := d.values.map Text.wrappedHex

/-- The number of bytes of the data. -/
def length (d : Directive) : Nat := d.width.bytes * d.values.length

/-- The bytes of the data. -/
def bytes (d : Directive) : List Byte := d.values.flatMap d.width.immediate

/-- The written form of a directive. -/
def text (d : Directive) : String := d.name ++ " " ++ ", ".intercalate d.valueTexts

end Directive

/-! ## Statements -/

/-- A statement of a program. -/
inductive Statement where
  | instruction (i : Instruction)
  | directive (d : Directive)
  deriving DecidableEq

namespace Statement

/-- The statement that is written. -/
def ofBody : RawBody → Except Cause Statement
  | .instruction operator operands => .instruction <$> Instruction.ofRaw operator operands
  | .directive name values => .directive <$> Directive.ofValues name values

/-- The number of bytes of a statement. -/
def length : Statement → Except Cause Nat
  | instruction i => i.length
  | directive d => .ok d.length

/-- The bytes of a statement of a program. -/
def bytes (layout : Layout) (index : Nat) : Statement → Except Cause (List Byte)
  | instruction i => i.bytes layout index
  | directive d => .ok d.bytes

/-- The first word of a statement. -/
def operator : Statement → String
  | instruction i => i.operator
  | directive d => d.name

/-- The operands or values of a statement as they are written. -/
def operandTexts : Statement → List String
  | instruction i => i.instr.operands.map Operand.text
  | directive d => d.valueTexts

/-- The written form of a statement. -/
def text : Statement → String
  | instruction i => i.text
  | directive d => d.text

/-- The written form of a statement in colours, the operands in a column. -/
def coloured : Statement → String
  | instruction i =>
    Text.styled [.red] (Text.padRight 7 i.operator) ++ Operand.listColoured i.instr.operands
  | directive d =>
    Text.coloured [(.magenta, Text.padRight 7 d.name), (.yellow, ", ".intercalate d.valueTexts)]

end Statement

end Ia32
