import Ia32.Width

/-!
# Mnemonics

The instructions by name, grouped as their encodings are: a group shares opcodes, and a small
code tells its members apart.

* `AluOp`, `UnaryOp`, `ShiftOp`, `Cond`: the groups with a code in an instruction's fields;
* `PlainOp`: the instructions without operands, told apart by their opcode;
* `Mnemonic`: all instructions; `Mnemonic.name`, `Mnemonic.ofName?`: the spelling, and back.
-/

set_option autoImplicit false

namespace Ia32

/-! ## Two operands: arithmetic and logic -/

/-- The eight operations of two operands that share one encoding. -/
inductive AluOp where
  | add | or | adc | sbb | and | sub | xor | cmp
  deriving DecidableEq

namespace AluOp

/-- The operations in the order of their codes. -/
def table : Vector AluOp 8 := #v[add, or, adc, sbb, and, sub, xor, cmp]

/-- The code of an operation. -/
def code : AluOp → BitVec 3
  | add => 0
  | or => 1
  | adc => 2
  | sbb => 3
  | and => 4
  | sub => 5
  | xor => 6
  | cmp => 7

/-- The operation with a code. -/
def ofCode (c : BitVec 3) : AluOp := table.get c.toFin

/-- The spelling of an operation. -/
def name : AluOp → String
  | add => "add"
  | or => "or"
  | adc => "adc"
  | sbb => "sbb"
  | and => "and"
  | sub => "sub"
  | xor => "xor"
  | cmp => "cmp"

end AluOp

/-! ## One operand: the third opcode group -/

/-- The operations of one operand in the third opcode group. -/
inductive UnaryOp where
  | not | neg | mul | imul | div | idiv
  deriving DecidableEq

namespace UnaryOp

/-- All operations. -/
def all : List UnaryOp := [not, neg, mul, imul, div, idiv]

/-- The code of an operation. The codes 0 and 1 are not operations of one operand. -/
def code : UnaryOp → BitVec 3
  | not => 2
  | neg => 3
  | mul => 4
  | imul => 5
  | div => 6
  | idiv => 7

/-- The operation with a code. -/
def ofCode? (c : BitVec 3) : Option UnaryOp := all.find? fun op => op.code == c

/-- The spelling of an operation. -/
def name : UnaryOp → String
  | not => "not"
  | neg => "neg"
  | mul => "mul"
  | imul => "imul"
  | div => "div"
  | idiv => "idiv"

end UnaryOp

/-! ## Shifts and rotations -/

/-- Shifts and rotations. `sal` is another name of `shl`. -/
inductive ShiftOp where
  | rol | ror | rcl | rcr | shl | shr | sal | sar
  deriving DecidableEq

namespace ShiftOp

/-- The operations in the order of the codes that are read as them. -/
def table : Vector ShiftOp 8 := #v[rol, ror, rcl, rcr, shl, shr, sal, sar]

/-- The code that is written for an operation: `sal` shares that of `shl`. -/
def code : ShiftOp → BitVec 3
  | rol => 0
  | ror => 1
  | rcl => 2
  | rcr => 3
  | shl => 4
  | shr => 5
  | sal => 4
  | sar => 7

/-- The operation that a code is read as. -/
def ofCode (c : BitVec 3) : ShiftOp := table.get c.toFin

/-- The spelling of an operation. -/
def name : ShiftOp → String
  | rol => "rol"
  | ror => "ror"
  | rcl => "rcl"
  | rcr => "rcr"
  | shl => "shl"
  | shr => "shr"
  | sal => "sal"
  | sar => "sar"

end ShiftOp

/-! ## Conditions -/

/-- What a condition asks of the flags. -/
inductive CondTest where
  | overflow | below | equal | belowOrEqual | sign | parity | less | lessOrEqual
  deriving DecidableEq

/-- A condition of a jump: a test, or the opposite of one. -/
structure Cond where
  test : CondTest
  negated : Bool
  deriving DecidableEq

namespace Cond

/-- The tests in the order of their codes. -/
def table : Vector CondTest 8 :=
  #v[.overflow, .below, .equal, .belowOrEqual, .sign, .parity, .less, .lessOrEqual]

/-- The code of a test. -/
def testCode : CondTest → BitVec 3
  | .overflow => 0
  | .below => 1
  | .equal => 2
  | .belowOrEqual => 3
  | .sign => 4
  | .parity => 5
  | .less => 6
  | .lessOrEqual => 7

/-- The code of a condition: its test, and whether it is negated in the lowest bit. -/
def code (c : Cond) : BitVec 4 := testCode c.test ++ BitVec.ofBool c.negated

/-- The condition with a code. -/
def ofCode (c : BitVec 4) : Cond := ⟨table.get (c.extractLsb' 1 3).toFin, c.getLsbD 0⟩

/-- The letters that follow the `j` of a conditional jump. -/
def name (c : Cond) : String :=
  match c.test, c.negated with
  | .overflow, false => "o"
  | .overflow, true => "no"
  | .below, false => "b"
  | .below, true => "ae"
  | .equal, false => "e"
  | .equal, true => "ne"
  | .belowOrEqual, false => "be"
  | .belowOrEqual, true => "a"
  | .sign, false => "s"
  | .sign, true => "ns"
  | .parity, false => "p"
  | .parity, true => "np"
  | .less, false => "l"
  | .less, true => "ge"
  | .lessOrEqual, false => "le"
  | .lessOrEqual, true => "g"

/-- All conditions, in the order of their codes. -/
def all : List Cond := table.toList.flatMap fun t => [⟨t, false⟩, ⟨t, true⟩]

end Cond

/-! ## No operands -/

/-- The instructions without operands. -/
inductive PlainOp where
  | pushf | popf | pusha | popa | ret | nop
  | stc | clc | cmc | std | cld | sti | cli | lahf | sahf
  deriving DecidableEq

namespace PlainOp

/-- All instructions without operands. -/
def all : List PlainOp :=
  [pushf, popf, pusha, popa, ret, nop, stc, clc, cmc, std, cld, sti, cli, lahf, sahf]

/-- The opcode of an instruction without operands. -/
def opcode : PlainOp → Byte
  | pushf => 0x9C
  | popf => 0x9D
  | pusha => 0x60
  | popa => 0x61
  | ret => 0xC3
  | nop => 0x90
  | stc => 0xF9
  | clc => 0xF8
  | cmc => 0xF5
  | std => 0xFD
  | cld => 0xFC
  | sti => 0xFB
  | cli => 0xFA
  | lahf => 0x9F
  | sahf => 0x9E

/-- The instruction without operands that has an opcode. -/
def ofOpcode? (b : Byte) : Option PlainOp := all.find? fun op => op.opcode == b

/-- The spelling of an instruction without operands. -/
def name : PlainOp → String
  | pushf => "pushf"
  | popf => "popf"
  | pusha => "pusha"
  | popa => "popa"
  | ret => "ret"
  | nop => "nop"
  | stc => "stc"
  | clc => "clc"
  | cmc => "cmc"
  | std => "std"
  | cld => "cld"
  | sti => "sti"
  | cli => "cli"
  | lahf => "lahf"
  | sahf => "sahf"

end PlainOp

/-! ## All instructions -/

/-- The name of an instruction. -/
inductive Mnemonic where
  | mov
  | lea
  | push
  | pop
  | alu (op : AluOp)
  | test
  | unary (op : UnaryOp)
  | inc
  | dec
  | shift (op : ShiftOp)
  | jmp
  | jcc (c : Cond)
  | call
  | plain (op : PlainOp)
  deriving DecidableEq

namespace Mnemonic

/-- The spelling of an instruction. -/
def name : Mnemonic → String
  | mov => "mov"
  | lea => "lea"
  | push => "push"
  | pop => "pop"
  | alu op => op.name
  | test => "test"
  | unary op => op.name
  | inc => "inc"
  | dec => "dec"
  | shift op => op.name
  | jmp => "jmp"
  | jcc c => "j" ++ c.name
  | call => "call"
  | plain op => op.name

/-- All instructions. -/
def all : List Mnemonic :=
  [mov, lea, push, pop] ++ AluOp.table.toList.map alu ++ [test] ++ UnaryOp.all.map unary ++
    [inc, dec] ++ ShiftOp.table.toList.map shift ++ [jmp] ++ Cond.all.map jcc ++ [call] ++
    PlainOp.all.map plain

/-- The instruction with a spelling. -/
def ofName? (s : String) : Option Mnemonic := all.find? fun m => m.name == s

/-- The code of a two-operand arithmetic instruction. -/
def aluCode? : Mnemonic → Option (BitVec 3)
  | alu op => some op.code
  | _ => none

/-- The code of an instruction in the third opcode group, to which `test` belongs as well. -/
def groupCode? : Mnemonic → Option (BitVec 3)
  | test => some 0
  | unary op => some op.code
  | _ => none

/-- The instruction of the third opcode group with a code. -/
def ofGroupCode? (c : BitVec 3) : Option Mnemonic :=
  if c = 0 then some test else (UnaryOp.ofCode? c).map unary

/-- The code of a shift or rotation. -/
def shiftCode? : Mnemonic → Option (BitVec 3)
  | shift op => some op.code
  | _ => none

/-- The code of the condition of a conditional jump. -/
def condCode? : Mnemonic → Option (BitVec 4)
  | jcc c => some c.code
  | _ => none

/-- The opcode of an instruction without operands. -/
def plainOpcode? : Mnemonic → Option Byte
  | plain op => some op.opcode
  | _ => none

/-- Whether the instruction shifts or rotates. -/
def isShift (m : Mnemonic) : Bool := m.shiftCode?.isSome

/-- Whether the operand of the instruction is a place in the code. -/
def isBranch : Mnemonic → Bool
  | jmp | call => true
  | m => m.condCode?.isSome

end Mnemonic

end Ia32
