import Ia32.Mnemonic

/-!
# Operators

An operator is a mnemonic, or a mnemonic with a letter for the width, or another name of one.

* `spellings`: all operators, with the mnemonic and, if the operator fixes it, the width;
* `Operator.find?`: what an operator stands for.
-/

set_option autoImplicit false

namespace Ia32

namespace Operator

/-- The mnemonics that take a letter for each width. -/
def sized : List Mnemonic :=
  [.mov] ++ AluOp.table.toList.map .alu ++ [.test] ++ UnaryOp.all.map .unary ++ [.inc, .dec] ++
    ShiftOp.table.toList.map .shift

/-- The mnemonics that take a letter for the widths other than a byte. -/
def wide : List Mnemonic := [.lea, .push, .pop]

/-- The mnemonics that take no letter. -/
def unsized : List Mnemonic :=
  [.jmp, .call] ++ Cond.all.map .jcc ++
    [PlainOp.ret, .nop, .stc, .clc, .cmc, .std, .cld, .sti, .cli, .lahf, .sahf].map .plain

/-- Other names of the conditional jumps. -/
def jumpNames : List (String × Cond) :=
  [("jc", ⟨.below, false⟩), ("jnae", ⟨.below, false⟩), ("jnb", ⟨.below, true⟩),
    ("jnc", ⟨.below, true⟩), ("jz", ⟨.equal, false⟩), ("jnz", ⟨.equal, true⟩),
    ("jna", ⟨.belowOrEqual, false⟩), ("jnbe", ⟨.belowOrEqual, true⟩),
    ("jpe", ⟨.parity, false⟩), ("jpo", ⟨.parity, true⟩), ("jnge", ⟨.less, false⟩),
    ("jnl", ⟨.less, true⟩), ("jng", ⟨.lessOrEqual, false⟩), ("jnle", ⟨.lessOrEqual, true⟩)]

/-- The instructions on whole sets of registers or flags, whose names fix their widths. -/
def setNames : List (String × PlainOp × Width) :=
  [("pushf", .pushf, .word), ("pushfd", .pushf, .long), ("popf", .popf, .word),
    ("popfd", .popf, .long), ("pusha", .pusha, .word), ("pushad", .pusha, .long),
    ("popa", .popa, .word), ("popad", .popa, .long)]

/-- The operators of a mnemonic that takes letters for some widths. -/
def withLetters (widths : List Width) (m : Mnemonic) :
    List (String × Mnemonic × Option Width) :=
  (m.name, m, none) :: widths.map fun w => (m.name.push w.suffix, m, some w)

/-- All operators. -/
def spellings : List (String × Mnemonic × Option Width) :=
  sized.flatMap (withLetters Width.all) ++ wide.flatMap (withLetters [.word, .long]) ++
    unsized.flatMap (withLetters []) ++ (jumpNames.map fun (s, c) => (s, .jcc c, none)) ++
    setNames.map fun (s, op, w) => (s, .plain op, some w)

/-- The mnemonic that an operator stands for, and the width if the operator fixes it. -/
def find? (operator : String) : Option (Mnemonic × Option Width) := spellings.lookup operator

end Operator

end Ia32
