import Ia32.Assembly.Layout

/-!
# Instructions of a program

An instruction belongs to a family, which takes operands of certain kinds. Three functions of the
family look at the operands, each on its own: one checks them, one foresees how many bytes the
instruction takes, and one writes the bytes. Statements have to be laid out before they are
encoded, so the second must agree with the third.

* `Instruction`: an operator as it is written, and the instruction it stands for;
* `Form`, `Form.of`: the families, and that of a mnemonic;
* `Instruction.expectArity`, `Instruction.source`, `Instruction.destination`: operands, which an
  instruction must have; `Instruction.mark`, `Instruction.wide`: what its width adds to its bytes;
* `validateTwo`, `lengthMov`, `encodeMov` and so on: the functions of each family;
* `Instruction.validate`, `Instruction.length`, `Instruction.bytes`: those of all families.
-/

set_option autoImplicit false

namespace Ia32

/-- An instruction of a program: the operator as written, and what it stands for. -/
structure Instruction where
  operator : String
  instr : Instr
  deriving DecidableEq

/-- The family of an instruction, with its code in the opcodes of the family. -/
inductive Form where
  | mov
  | lea
  | push
  | pop
  | fixed
  | binary (code : BitVec 3)
  | test
  | group (code : BitVec 3)
  | step (code : BitVec 3)
  | shift (code : BitVec 3)
  | branch
  deriving DecidableEq

/-- The family that a mnemonic belongs to. -/
def Form.of : Mnemonic → Form
  | .mov => .mov
  | .lea => .lea
  | .push => .push
  | .pop => .pop
  | .test => .test
  | .inc => .step 0
  | .dec => .step 1
  | .jmp | .call => .branch
  | m =>
    match m.aluCode?, m.groupCode?, m.shiftCode?, m.condCode? with
    | some code, _, _, _ => .binary code
    | none, some code, _, _ => .group code
    | none, none, some code, _ => .shift code
    | none, none, none, some _ => .branch
    | none, none, none, none => .fixed

/-- The success of an encoding step, or its failure as a cause. -/
def encoded {α : Type} : Except EncodeError α → Except Cause α
  | .ok a => .ok a
  | .error e => .error (.encoding e)

/-- The bytes of an operand, with a register number or a code in the field beside it. -/
def operandBytes (op : Operand) (field : BitVec 3) : Except Cause (List Byte) :=
  encoded (ModRM.encode op field)

/-- The number of bytes of an operand. -/
def operandLength (op : Operand) : Except Cause Nat := encoded (ModRM.length op)

namespace Instruction

variable (i : Instruction)

/-! ## What the families share -/

/-- The family of the instruction. -/
def form : Form := .of i.instr.mnemonic

/-- The width of the instruction. -/
def width : Width := i.instr.width

/-- A number of operands within bounds. -/
def expectArity (least most : Nat) : Except Cause Unit :=
  if least ≤ i.instr.operands.length ∧ i.instr.operands.length ≤ most then .ok ()
  else .error (.arity i.operator least most i.instr.operands.length)

/-- The first operand, which there must be. -/
def source : Except Cause Operand :=
  match i.instr.source? with
  | some op => .ok op
  | none => .error (.missingOperand i.operator)

/-- The last operand, which there must be. -/
def destination : Except Cause Operand :=
  match i.instr.destination? with
  | some op => .ok op
  | none => .error (.missingOperand i.operator)

/-- An operand that is not of the right kind. -/
def reject (op : Operand) : Cause := .rejected i.operator op

/-- A width other than a byte. -/
def atLeastWord : Except Cause Unit :=
  match i.width with
  | .byte => .error (.byteWidth i.operator)
  | .word | .long => .ok ()

/-- The byte in front of an instruction on words. -/
def mark : List Byte :=
  match i.width with
  | .word => [wordMark]
  | .byte | .long => []

/-- The bit of an opcode that tells words and longs from bytes. -/
def wide : Byte :=
  match i.width with
  | .byte => 0
  | .word | .long => 1

/-- The check of moves and of operations of two operands: into a register or memory, not from a
label, and not from memory into memory. -/
def validateTwo : Except Cause Unit := do
  i.expectArity 2 2
  let src ← i.source
  let dst ← i.destination
  if !dst.isRM then throw (i.reject dst)
  match src with
  | .label _ => throw (i.reject src)
  | .mem _ => if dst.isMem then throw (.twoInMemory i.operator) else return
  | .reg _ | .imm _ => return

/-- The check of operations of one operand: a register or a place in memory. -/
def validateOne : Except Cause Unit := do
  i.expectArity 1 1
  let dst ← i.destination
  if dst.isRM then return else throw (i.reject dst)

/-! ## Moves -/

def lengthMov : Except Cause Nat := do
  let src ← i.source
  let dst ← i.destination
  let body ← match src, dst with
    | .imm _, .reg _ => pure (1 + i.width.bytes)
    | .imm _, _ => do pure (1 + (← operandLength dst) + i.width.bytes)
    | .reg _, _ => do pure (1 + (← operandLength dst))
    | _, _ => do pure (1 + (← operandLength src))
  return i.mark.length + body

def encodeMov : Except Cause (List Byte) := do
  let src ← i.source
  let dst ← i.destination
  match src, dst with
  | .imm n, .reg r =>
    let base : Byte := if i.width = .byte then 0xB0 else 0xB8
    return i.mark ++ [base + r.code.setWidth 8] ++ i.width.immediate n
  | .imm n, _ => return i.mark ++ [0xC6 + i.wide] ++ (← operandBytes dst 0) ++ i.width.immediate n
  | .reg r, _ => return i.mark ++ [0x88 + i.wide] ++ (← operandBytes dst r.code)
  | _, .reg r => return i.mark ++ [0x8A + i.wide] ++ (← operandBytes src r.code)
  | _, _ => throw (.twoInMemory i.operator)

/-! ## Addresses -/

def validateLea : Except Cause Unit := do
  i.expectArity 2 2
  let src ← i.source
  let dst ← i.destination
  if !dst.isReg then throw (i.reject dst)
  if !src.isMem then throw (i.reject src)
  i.atLeastWord

def lengthLea : Except Cause Nat := do
  return i.mark.length + 1 + (← operandLength (← i.source))

def encodeLea : Except Cause (List Byte) := do
  let src ← i.source
  match ← i.destination with
  | .reg r => return i.mark ++ [0x8D] ++ (← operandBytes src r.code)
  | dst => throw (i.reject dst)

/-! ## The stack -/

def validatePush : Except Cause Unit := do
  i.expectArity 1 1
  i.atLeastWord
  match ← i.source with
  | .label name => throw (i.reject (.label name))
  | _ => return

def lengthPush : Except Cause Nat := do
  let op ← i.source
  let body ← match op with
    | .reg _ => pure 1
    | .imm _ => pure (1 + i.width.bytes)
    | _ => do pure (1 + (← operandLength op))
  return i.mark.length + body

def encodePush : Except Cause (List Byte) := do
  let op ← i.source
  match op with
  | .reg r => return i.mark ++ [0x50 + r.code.setWidth 8]
  | .imm n =>
    let opcode : Byte := if i.width = .byte then 0x6A else 0x68
    return i.mark ++ [opcode] ++ i.width.immediate n
  | _ => return i.mark ++ [0xFF] ++ (← operandBytes op 6)

def validatePop : Except Cause Unit := do
  i.expectArity 1 1
  i.atLeastWord
  let dst ← i.destination
  if dst.isRM then return else throw (i.reject dst)

def lengthPop : Except Cause Nat := do
  let op ← i.destination
  let body ← match op with
    | .reg _ => pure 1
    | _ => do pure (1 + (← operandLength op))
  return i.mark.length + body

def encodePop : Except Cause (List Byte) := do
  let op ← i.destination
  match op with
  | .reg r => return i.mark ++ [0x58 + r.code.setWidth 8]
  | _ => return i.mark ++ [0x8F] ++ (← operandBytes op 0)

/-! ## No operands -/

/-- The opcode of an instruction without operands, which there must be. -/
def fixedOpcode : Except Cause Byte :=
  match i.instr.mnemonic.plainOpcode? with
  | some opcode => .ok opcode
  | none => .error (.noFixedOpcode i.operator)

def validateFixed : Except Cause Unit := do
  i.expectArity 0 0
  discard i.fixedOpcode

def lengthFixed : Except Cause Nat := return i.mark.length + 1

def encodeFixed : Except Cause (List Byte) := do return i.mark ++ [← i.fixedOpcode]

/-! ## Arithmetic and logic of two operands -/

def lengthBinary : Except Cause Nat := do
  let src ← i.source
  let dst ← i.destination
  let body ← match src with
    | .imm _ =>
      if dst.isAccumulator then pure (1 + i.width.bytes)
      else do pure (1 + (← operandLength dst) + i.width.bytes)
    | .reg _ => do pure (1 + (← operandLength dst))
    | _ => do pure (1 + (← operandLength src))
  return i.mark.length + body

def encodeBinary (code : BitVec 3) : Except Cause (List Byte) := do
  let src ← i.source
  let dst ← i.destination
  let base : Byte := code.setWidth 8 <<< 3
  match src, dst with
  | .imm n, _ =>
    if dst.isAccumulator then return i.mark ++ [base + 4 + i.wide] ++ i.width.immediate n
    else
      return i.mark ++ [0x80 + i.wide] ++ (← operandBytes dst code) ++ i.width.immediate n
  | .reg r, _ => return i.mark ++ [base + i.wide] ++ (← operandBytes dst r.code)
  | _, .reg r => return i.mark ++ [base + 2 + i.wide] ++ (← operandBytes src r.code)
  | _, _ => throw (.twoInMemory i.operator)

/-! ## Tests -/

def validateTest : Except Cause Unit := do
  i.expectArity 2 2
  let src ← i.source
  let dst ← i.destination
  if !dst.isRM then throw (i.reject dst)
  match src with
  | .imm _ | .reg _ => return
  | .mem _ | .label _ => throw (i.reject src)

def lengthTest : Except Cause Nat := do
  let src ← i.source
  let dst ← i.destination
  let body ← match src with
    | .imm _ =>
      if dst.isAccumulator then pure (1 + i.width.bytes)
      else do pure (1 + (← operandLength dst) + i.width.bytes)
    | _ => do pure (1 + (← operandLength dst))
  return i.mark.length + body

def encodeTest : Except Cause (List Byte) := do
  let src ← i.source
  let dst ← i.destination
  match src with
  | .imm n =>
    if dst.isAccumulator then return i.mark ++ [0xA8 + i.wide] ++ i.width.immediate n
    else return i.mark ++ [0xF6 + i.wide] ++ (← operandBytes dst 0) ++ i.width.immediate n
  | .reg r => return i.mark ++ [0x84 + i.wide] ++ (← operandBytes dst r.code)
  | _ => throw (i.reject src)

/-! ## The third opcode group -/

def lengthGroup : Except Cause Nat := do
  return i.mark.length + 1 + (← operandLength (← i.destination))

def encodeGroup (code : BitVec 3) : Except Cause (List Byte) := do
  return i.mark ++ [0xF6 + i.wide] ++ (← operandBytes (← i.destination) code)

/-! ## Steps by one -/

/-- The number of a register that the opcode can hold: that of a word or a long. -/
def shortForm : Except Cause (Option (BitVec 3)) := do
  match ← i.destination with
  | .reg r => return if i.width = .byte then none else some r.code
  | _ => return none

def lengthStep : Except Cause Nat := do
  let body ← match ← i.shortForm with
    | some _ => pure 1
    | none => do pure (1 + (← operandLength (← i.destination)))
  return i.mark.length + body

def encodeStep (code : BitVec 3) : Except Cause (List Byte) := do
  match ← i.shortForm with
  | some r => return i.mark ++ [0x40 + (code.setWidth 8 <<< 3) + r.setWidth 8]
  | none => return i.mark ++ [0xFE + i.wide] ++ (← operandBytes (← i.destination) code)

/-! ## Shifts and rotations -/

/-- What counts the bits of a shift. -/
inductive Counter where
  | one
  | cl
  | imm (n : Byte)
  deriving DecidableEq

/-- The counter of a shift: the first of two operands. A lone operand is shifted once. -/
def counter : Except Cause Counter := do
  if i.instr.operands.length < 2 then return .one
  match ← i.source with
  | .imm n =>
    if n = 1 then return .one
    else if Width.byte.fits n then return .imm (BitVec.ofInt 8 n)
    else throw (.longCount i.operator n)
  | .reg r => if r = .cl then return .cl else throw (i.reject (.reg r))
  | op => throw (i.reject op)

def validateShift : Except Cause Unit := do
  i.expectArity 1 2
  let dst ← i.destination
  if dst.isRM then discard i.counter else throw (i.reject dst)

def lengthShift : Except Cause Nat := do
  let imm := match ← i.counter with
    | .imm _ => 1
    | .one | .cl => 0
  return i.mark.length + 1 + (← operandLength (← i.destination)) + imm

def encodeShift (code : BitVec 3) : Except Cause (List Byte) := do
  let counter ← i.counter
  let opcode : Byte := match counter with
    | .one => 0xD0
    | .cl => 0xD2
    | .imm _ => 0xC0
  let operand ← operandBytes (← i.destination) code
  let imm := match counter with
    | .imm n => [n]
    | .one | .cl => []
  return i.mark ++ [opcode + i.wide] ++ operand ++ imm

/-! ## Branches -/

def validateBranch : Except Cause Unit := do
  i.expectArity 1 1
  match ← i.destination with
  | .label _ => return
  | op => throw (i.reject op)

/-- The opcode of a branch over a distance of four bytes. -/
def branchOpcode : Except Cause (List Byte) :=
  match i.instr.mnemonic with
  | .jmp => .ok [0xE9]
  | .call => .ok [0xE8]
  | m =>
    match m.condCode? with
    | some code => .ok [0x0F, 0x80 + code.setWidth 8]
    | none => .error (.notBranch i.operator)

def lengthBranch : Except Cause Nat := do return (← i.branchOpcode).length + 4

/-- The bytes of a branch that is a given statement of a program. The distance counts from the next
statement. -/
def encodeBranch (layout : Layout) (index : Nat) : Except Cause (List Byte) := do
  let name ← match ← i.destination with
    | .label name => pure name
    | op => throw (i.reject op)
  let target ← layout.resolve name
  let next : Int := (layout.addressOf index).toNat + (← i.lengthBranch)
  return (← i.branchOpcode) ++ Width.long.immediate (target.toNat - next)

/-! ## All families -/

/-- Checks the operands of an instruction. -/
def validate : Except Cause Unit :=
  match i.form with
  | .mov | .binary _ => i.validateTwo
  | .lea => i.validateLea
  | .push => i.validatePush
  | .pop => i.validatePop
  | .fixed => i.validateFixed
  | .test => i.validateTest
  | .group _ | .step _ => i.validateOne
  | .shift _ => i.validateShift
  | .branch => i.validateBranch

/-- The number of bytes that an instruction is to take. -/
def length : Except Cause Nat :=
  match i.form with
  | .mov => i.lengthMov
  | .lea => i.lengthLea
  | .push => i.lengthPush
  | .pop => i.lengthPop
  | .fixed => i.lengthFixed
  | .binary _ => i.lengthBinary
  | .test => i.lengthTest
  | .group _ => i.lengthGroup
  | .step _ => i.lengthStep
  | .shift _ => i.lengthShift
  | .branch => i.lengthBranch

/-- The bytes of an instruction that is a given statement of a program. -/
def bytes (layout : Layout) (index : Nat) : Except Cause (List Byte) :=
  match i.form with
  | .mov => i.encodeMov
  | .lea => i.encodeLea
  | .push => i.encodePush
  | .pop => i.encodePop
  | .fixed => i.encodeFixed
  | .binary code => i.encodeBinary code
  | .test => i.encodeTest
  | .group code => i.encodeGroup code
  | .step code => i.encodeStep code
  | .shift code => i.encodeShift code
  | .branch => i.encodeBranch layout index

end Instruction

end Ia32
