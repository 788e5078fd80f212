import Ia32.ModRM

/-!
# Errors of assembly

* `Cause`: what is wrong with a source text; `Cause.kind`, `Cause.message`: its kind and wording;
* `AssemblyError`: a cause and the line it was found on; `AssemblyError.text`: both in words.
-/

set_option autoImplicit false

namespace Ia32

/-- The kinds of errors. -/
inductive ErrorKind where
  | malformed
  | invalidOperator
  | invalidDirective
  | invalidRegister
  | invalidOperandType
  | invalidOperandSize
  | invalidLabel
  | assertion
  deriving DecidableEq

/-- The word for a kind of error. -/
def ErrorKind.name : ErrorKind → String
  | malformed => "SyntaxError"
  | invalidOperator => "InvalidOperator"
  | invalidDirective => "InvalidDirective"
  | invalidRegister => "InvalidRegister"
  | invalidOperandType => "InvalidOperandType"
  | invalidOperandSize => "InvalidOperandSize"
  | invalidLabel => "InvalidLabel"
  | assertion => "AssertionError"

/-- What is wrong with a source text. -/
inductive Cause where
  /-- The statement does not start with an operator or a directive. -/
  | unexpected (head : String)
  | unbalanced (args : String)
  | emptyOperand (args : String)
  | noRegister (found : String)
  | unclosedAddress (found : String)
  | longAddress (found : String)
  | noOperand (found : String)
  | noNumber (found : String)
  | unknownOperator (operator : String)
  | unknownDirective (name : String)
  | unknownRegister (name : String)
  /-- A register in an address is not a long one. -/
  | narrowAddress (r : Reg)
  /-- An address has neither a base nor an index. -/
  | absoluteAddress (offset : Int)
  | invalidScale (scale : Int)
  | rejected (operator : String) (op : Operand)
  | twoInMemory (operator : String)
  | byteWidth (operator : String)
  | longCount (operator : String) (count : Int)
  | registersDiffer (operator : String) (r s : Reg)
  | widthDiffers (operator : String) (width : Width) (r : Reg)
  | longValue (directive : String) (value : Int) (width : Width)
  | undefinedLabel (name : String)
  /-- There are more operands than the most, or fewer than the least. -/
  | arity (operator : String) (least most found : Nat)
  | missingOperand (operator : String)
  | notBranch (operator : String)
  | noFixedOpcode (operator : String)
  | noValues (directive : String)
  | encoding (e : EncodeError)
  /-- The code of a statement is not as long as was foreseen. -/
  | lengthDiffers (statement : String) (actual foreseen : Nat)
  deriving DecidableEq

namespace Cause

/-- The kind of an error. -/
def kind : Cause → ErrorKind
  | unexpected _ | unbalanced _ | emptyOperand _ | noRegister _ | unclosedAddress _
  | longAddress _ | noOperand _ | noNumber _ => .malformed
  | unknownOperator _ => .invalidOperator
  | unknownDirective _ => .invalidDirective
  | unknownRegister _ | narrowAddress _ => .invalidRegister
  | absoluteAddress _ | invalidScale _ | rejected _ _ | twoInMemory _ => .invalidOperandType
  | byteWidth _ | longCount _ _ | registersDiffer _ _ _ | widthDiffers _ _ _
  | longValue _ _ _ => .invalidOperandSize
  | undefinedLabel _ => .invalidLabel
  | arity _ _ _ _ | missingOperand _ | notBranch _ | noFixedOpcode _ | noValues _ | encoding _
  | lengthDiffers _ _ _ => .assertion

/-- The wording of an error. -/
def message : Cause → String
  | unexpected head => s!"Unexpected `{head}`"
  | unbalanced args => s!"Unbalanced parentheses in `{args}`"
  | emptyOperand args => s!"Empty operand in `{args}`"
  | noRegister found => s!"Expected register, found `{found}`"
  | unclosedAddress found => s!"Expected `)` at the end of `{found}`"
  | longAddress found => s!"Too many address parts in `{found}`"
  | noOperand found => s!"Cannot parse operand `{found}`"
  | noNumber found => s!"Cannot parse `{found}` as number"
  | unknownOperator operator => s!"Unknown operator `{operator}`"
  | unknownDirective name => s!"Unknown directive `{name}`"
  | unknownRegister name => s!"Unknown register name: {name}"
  | narrowAddress r =>
    s!"`%{r.name}` cannot be used in an address, only 32-bit registers can"
  | absoluteAddress offset =>
    s!"Memory operand `{Text.wrappedHex offset}` needs a base or index register"
  | invalidScale scale => s!"Scale must be 1, 2, 4 or 8, found {scale}"
  | rejected operator op =>
    s!"`{operator}` does not accept the {op.kind} operand `{op.text}`"
  | twoInMemory operator => s!"`{operator}` cannot take two memory operands"
  | byteWidth operator => s!"`{operator}` cannot operate on a single byte"
  | longCount operator count => s!"`{operator}` count {count} does not fit in a byte"
  | registersDiffer operator r s =>
    s!"Operand size mismatch in `{operator}`: `%{r.name}` and `%{s.name}`"
  | widthDiffers operator width r =>
    s!"`{operator}` operates on {width.bytes} byte(s) but `%{r.name}` is {r.width.bytes} byte(s)"
  | longValue directive value width =>
    s!"`{directive}` value {value} does not fit in {width.bytes} byte(s)"
  | undefinedLabel name => s!"Undefined label `{name}`"
  | arity operator least most found =>
    let expected := if least = most then toString least else s!"{least} to {most}"
    s!"`{operator}` expects {expected} operand(s), found {found}"
  | missingOperand operator => s!"`{operator}` is missing an operand"
  | notBranch operator => s!"`{operator}` is not a branch"
  | noFixedOpcode operator => s!"`{operator}` has no fixed opcode"
  | noValues directive => s!"`{directive}` needs at least one expression"
  | encoding e => e.message
  | lengthDiffers statement actual foreseen =>
    s!"`{statement}` encoded to {actual} byte(s) but {foreseen} were reserved"

end Cause

/-- A cause, and the number of the line it was found on if there is one. -/
structure AssemblyError where
  cause : Cause
  line : Option Nat := none
  deriving DecidableEq

/-- The kind and the wording of an error, after the line. -/
def AssemblyError.text (e : AssemblyError) : String :=
  let line := match e.line with
    | some n => s!"Line {n}, "
    | none => ""
  s!"{line}{e.cause.kind.name}: {e.cause.message}"

/-- The failure of a computation, blamed on a line. -/
def onLine {α : Type} (line : Nat) : Except Cause α → Except AssemblyError α
  | .ok a => .ok a
  | .error cause => .error ⟨cause, some line⟩

end Ia32
