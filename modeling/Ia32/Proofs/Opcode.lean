import Ia32.ModRM

/-!
# Codes and opcodes, read back

The one- and two-byte opcodes of the instruction set. A flag `wide` is the lowest bit of an
opcode that has a byte form and a form of the current width; a register number or the code of
an operation takes three bits, a condition four.

* `AluOp.ofCode_code`, `ShiftOp.ofCode_code`, `UnaryOp.ofCode?_code`: the codes of operations beside
  an operand; `sal` is read as `shl`, whose code it shares;
* `Reg.ofCode_eq`: a register by its number in the table of its width;
* `Fields.ofByte_byte`: the three fields of an operand byte;
* `Opcode`: the opcodes by what they mean; `Opcode.bytes`: their bytes; `Opcode.ofBytes?`: the
  opcode with given bytes;
* `Opcode.mem_all`, `Opcode.ofBytes?_bytes`: **no opcode is read as another**.
-/

set_option autoImplicit false

namespace Ia32

/-! ## Codes -/

namespace AluOp

theorem mem_table (op : AluOp) : op ∈ table.toList := by
  cases op <;> decide

@[simp] theorem ofCode_code (op : AluOp) : ofCode op.code = op := by
  cases op <;> rfl

end AluOp

namespace UnaryOp

@[simp] theorem ofCode?_code (op : UnaryOp) : ofCode? op.code = some op := by
  cases op <;> rfl

theorem code_ne_zero (op : UnaryOp) : op.code ≠ 0 := by
  cases op <;> decide

end UnaryOp

namespace ShiftOp

/-- The operation that is read for an operation: `sal` is another name of `shl`. -/
def canonical : ShiftOp → ShiftOp
  | sal => shl
  | op => op

@[simp] theorem ofCode_code (op : ShiftOp) : ofCode op.code = op.canonical := by
  cases op <;> rfl

end ShiftOp

theorem Cond.mem_all (c : Cond) : c ∈ all := by
  obtain ⟨test, negated⟩ := c
  cases test <;> cases negated <;> decide

theorem PlainOp.mem_all (op : PlainOp) : op ∈ all := by
  cases op <;> decide

@[simp] theorem Scale.ofCode_code (s : Scale) : ofCode s.code = s := by
  cases s <;> rfl

theorem Reg.mem_codes : ∀ r : BitVec 3, r ∈ codes := by
  decide

@[simp] theorem Reg.ofCode_eq (code : BitVec 3) (w : Width) : ofCode code w = ⟨w, code⟩ := by
  revert code
  cases w <;> decide

/-! ## Operand bytes -/

@[simp] theorem Fields.ofByte_byte (f : Fields) : ofByte f.byte = f := by
  obtain ⟨high, mid, low⟩ := f
  revert high mid low
  decide +kernel

/-! ## Opcodes -/

/-- An opcode, named for the instruction and for where its operands are. -/
inductive Opcode where
  /-- register to r/m -/
  | aluStore (op : AluOp) (wide : Bool)
  /-- r/m to register -/
  | aluLoad (op : AluOp) (wide : Bool)
  /-- constant to accumulator -/
  | aluAcc (op : AluOp) (wide : Bool)
  /-- constant to r/m, the operation in the extension -/
  | aluImm (wide : Bool)
  /-- constant of one byte, its sign extended, to r/m -/
  | aluImmByte
  | incReg (r : BitVec 3)
  | decReg (r : BitVec 3)
  | pushReg (r : BitVec 3)
  | popReg (r : BitVec 3)
  | pushImm
  /-- constant of one byte, its sign extended -/
  | pushImmByte
  | popRM
  /-- conditional jump over a distance of one byte -/
  | jccByte (c : Cond)
  /-- conditional jump over a distance of four bytes -/
  | jcc (c : Cond)
  | jmpByte
  | jmp
  | call
  | testStore (wide : Bool)
  | testAcc (wide : Bool)
  | movStore (wide : Bool)
  | movLoad (wide : Bool)
  /-- constant to the register in the opcode -/
  | movReg (wide : Bool) (r : BitVec 3)
  | movImm (wide : Bool)
  | lea
  | shiftImm (wide : Bool)
  | shiftOne (wide : Bool)
  | shiftCl (wide : Bool)
  /-- `test` with a constant and the operations of one operand -/
  | groupThree (wide : Bool)
  /-- `inc`, `dec` and, in the wide form, `push` -/
  | groupFive (wide : Bool)
  | plain (op : PlainOp)
  deriving DecidableEq

namespace Opcode

/-- The first byte of the opcodes of two bytes. -/
abbrev escape : Byte := 0x0F

/-- What stands in front of an opcode: the mark of a word, or nothing. -/
def mark (word : Bool) : List Byte := if word then [wordMark] else []

/-- The bytes of an opcode. -/
def bytes : Opcode → List Byte
  | aluStore op wide => [0b00#2 ++ op.code ++ 0b00#2 ++ BitVec.ofBool wide]
  | aluLoad op wide => [0b00#2 ++ op.code ++ 0b01#2 ++ BitVec.ofBool wide]
  | aluAcc op wide => [0b00#2 ++ op.code ++ 0b10#2 ++ BitVec.ofBool wide]
  | incReg r => [0b01000#5 ++ r]
  | decReg r => [0b01001#5 ++ r]
  | pushReg r => [0b01010#5 ++ r]
  | popReg r => [0b01011#5 ++ r]
  | pushImm => [0x68]
  | pushImmByte => [0x6A]
  | jccByte c => [0x7#4 ++ c.code]
  | aluImm wide => [0b1000000#7 ++ BitVec.ofBool wide]
  | aluImmByte => [0x83]
  | testStore wide => [0b1000010#7 ++ BitVec.ofBool wide]
  | movStore wide => [0b1000100#7 ++ BitVec.ofBool wide]
  | movLoad wide => [0b1000101#7 ++ BitVec.ofBool wide]
  | lea => [0x8D]
  | popRM => [0x8F]
  | testAcc wide => [0b1010100#7 ++ BitVec.ofBool wide]
  | movReg wide r => [0b1011#4 ++ BitVec.ofBool wide ++ r]
  | shiftImm wide => [0b1100000#7 ++ BitVec.ofBool wide]
  | movImm wide => [0b1100011#7 ++ BitVec.ofBool wide]
  | shiftOne wide => [0b1101000#7 ++ BitVec.ofBool wide]
  | shiftCl wide => [0b1101001#7 ++ BitVec.ofBool wide]
  | call => [0xE8]
  | jmp => [0xE9]
  | jmpByte => [0xEB]
  | groupThree wide => [0b1111011#7 ++ BitVec.ofBool wide]
  | groupFive wide => [0b1111111#7 ++ BitVec.ofBool wide]
  | plain op => [op.opcode]
  | jcc c => [escape, 0x8#4 ++ c.code]

/-- The opcodes that exist in a byte form and a wide one. -/
def sized (wide : Bool) : List Opcode :=
  (AluOp.table.toList.flatMap fun op => [aluStore op wide, aluLoad op wide, aluAcc op wide]) ++
    Reg.codes.map (movReg wide) ++
    [aluImm wide, testStore wide, testAcc wide, movStore wide, movLoad wide, movImm wide,
      shiftImm wide, shiftOne wide, shiftCl wide, groupThree wide, groupFive wide]

/-- All opcodes. -/
def all : List Opcode :=
  sized false ++ sized true ++
    (Reg.codes.flatMap fun r => [incReg r, decReg r, pushReg r, popReg r]) ++
    (Cond.all.flatMap fun c => [jccByte c, jcc c]) ++
    [pushImm, pushImmByte, aluImmByte, lea, popRM, call, jmp, jmpByte] ++
    PlainOp.all.map plain

/-- The opcode with given bytes. -/
def ofBytes? (bs : List Byte) : Option Opcode := all.find? fun o => o.bytes == bs

theorem mem_sized_append (o : Opcode) (wide : Bool) (h : o ∈ sized wide) : o ∈ all := by
  cases wide <;> simp [all, h]

theorem mem_all (o : Opcode) : o ∈ all := by
  cases o with
  | aluStore op wide | aluLoad op wide | aluAcc op wide =>
    exact mem_sized_append _ wide (by simpa [sized] using op.mem_table)
  | movReg wide r =>
    exact mem_sized_append _ wide (by simpa [sized] using Reg.mem_codes r)
  | aluImm wide | testStore wide | testAcc wide | movStore wide | movLoad wide | movImm wide
  | shiftImm wide | shiftOne wide | shiftCl wide | groupThree wide | groupFive wide =>
    exact mem_sized_append _ wide (by simp [sized])
  | incReg r | decReg r | pushReg r | popReg r =>
    simp [all, Reg.mem_codes r]
  | jccByte c | jcc c => simp [all, c.mem_all]
  | plain op => simp [all, op.mem_all]
  | pushImm | pushImmByte | aluImmByte | lea | popRM | call | jmp | jmpByte => simp [all]

theorem all_ofBytes?_bytes : ∀ o ∈ all, ofBytes? o.bytes = some o := by
  decide +kernel

/-- **No opcode is read as another.** -/
theorem ofBytes?_bytes (o : Opcode) : ofBytes? o.bytes = some o :=
  all_ofBytes?_bytes o o.mem_all

theorem ofBytes?_eq_some_iff {bs : List Byte} {o : Opcode} :
    ofBytes? bs = some o ↔ o.bytes = bs := by
  constructor
  · intro h
    unfold ofBytes? at h
    have hbeq := List.find?_some h
    exact beq_iff_eq.mp hbeq
  · rintro rfl
    exact o.ofBytes?_bytes

/-- Whether bytes are those of an opcode of one byte or of two, and not the mark of a word. -/
def startsInstr : List Byte → Bool
  | [b] => b != escape && b != wordMark
  | [b, _] => b == escape
  | _ => false

theorem all_startsInstr : ∀ o ∈ all, startsInstr o.bytes = true := by
  decide +kernel

theorem bytes_cases (o : Opcode) :
    (∃ b, o.bytes = [b] ∧ b ≠ escape ∧ b ≠ wordMark) ∨ ∃ b, o.bytes = [escape, b] := by
  have h := all_startsInstr o o.mem_all
  revert h
  rcases o.bytes with _ | ⟨b, _ | ⟨c, _ | ⟨d, bs⟩⟩⟩
  · exact nofun
  · intro h
    simp only [startsInstr, Bool.and_eq_true, bne_iff_ne] at h
    exact .inl ⟨b, rfl, h⟩
  · intro h
    simp only [startsInstr, beq_iff_eq] at h
    exact .inr ⟨c, by rw [h]⟩
  · exact nofun

end Opcode

end Ia32
