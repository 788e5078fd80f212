import Ia32.Proofs.Selection

/-!
# What the families foresee and write

Each family of instructions foresees lengths and writes bytes by functions of its own. For the
instructions in the table of encodings both give what the table says: the lengths and the bytes of
the parts. So they agree, and where they complain, they complain alike.

* `operandLength_eq`: **an operand is as long as its bytes**;
* `Encoding.length_ofWidth`, `Encoding.bytes_ofWidth` and their like: the parts put together;
* `Opcode.bytes_sized`, `Opcode.bytes_alu`, `Opcode.bytes_register`, `Opcode.bytes_jcc`: opcodes as
  the families add them up;
* `Instruction.lengthMov_eq`, `Instruction.encodeMov_eq` and so on: the families, one by one;
* **`Selects.length_eq`**, **`Selects.bytes_eq`**: all of them.
-/

set_option autoImplicit false

namespace Ia32

/-! ## Parts put together -/

/-- **An operand is as long as its bytes**, whatever field stands beside it, and complained of
alike. -/
theorem operandLength_eq (op : Operand) (field : BitVec 3) :
    operandLength op = List.length <$> operandBytes op field := by
  cases op with
  | reg r | imm n | label name => rfl
  | mem m =>
    have hlength : operandLength (.mem m) =
        encoded (m.form >>= fun f => pure (if f.2.isSome then 2 else 1)) := rfl
    have hbytes : operandBytes (.mem m) field = encoded (m.form >>= fun f =>
        pure ((Fields.mk ModRM.indirect field f.1).byte :: f.2.toList)) := rfl
    rw [hlength, hbytes]
    rcases m.form with x | ⟨low, _ | second⟩ <;> rfl

namespace Encoding

variable (w : Width) (o : Opcode) (op : Operand) (field : BitVec 3) (t : Trailer)

@[simp] theorem length_ofWidth : (ofWidth w o none t).length =
    pure ((Opcode.mark (w == .word)).length + o.bytes.length + t.length) := rfl

@[simp] theorem length_ofWidth_operand : (ofWidth w o (some (op, field)) t).length = do
    return (Opcode.mark (w == .word)).length + o.bytes.length + (← operandLength op) +
      t.length := by
  rw [operandLength_eq op field]
  simp only [length, ofWidth, operandBytes, lengthWith]
  cases Ia32.operandBytes op field <;> rfl

variable (v : Width) (n : Int) (layout : Layout) (index : Nat)

@[simp] theorem bytes_ofWidth : (ofWidth w o).bytes layout index =
    pure (Opcode.mark (w == .word) ++ o.bytes) := by
  simp only [bytes, operandBytes, trailerBytes, bytesWith, ofWidth, pure_bind, List.append_nil]

@[simp] theorem bytes_ofWidth_imm : (ofWidth w o none (.imm v n)).bytes layout index =
    pure (Opcode.mark (w == .word) ++ o.bytes ++ v.immediate n) := by
  simp only [bytes, operandBytes, trailerBytes, bytesWith, ofWidth, pure_bind, List.append_nil]

@[simp] theorem bytes_ofWidth_operand : (ofWidth w o (some (op, field))).bytes layout index = do
    return Opcode.mark (w == .word) ++ o.bytes ++ (← Ia32.operandBytes op field) := by
  simp only [bytes, operandBytes, trailerBytes, bytesWith, ofWidth, pure_bind, List.append_nil]

@[simp] theorem bytes_ofWidth_operand_imm :
    (ofWidth w o (some (op, field)) (.imm v n)).bytes layout index = do
      return Opcode.mark (w == .word) ++ o.bytes ++ (← Ia32.operandBytes op field) ++
        v.immediate n := by
  simp only [bytes, operandBytes, trailerBytes, bytesWith, ofWidth, pure_bind]

@[simp] theorem length_target (o : Opcode) (name : String) :
    length { opcode := o, trailer := .target name } = pure (o.bytes.length + 4) := by
  have hlong : Width.long.bytes = 4 := rfl
  simp [length, operandBytes, lengthWith, Opcode.mark, Trailer.length, hlong]

@[simp] theorem bytes_target (o : Opcode) (name : String) :
    bytes { opcode := o, trailer := .target name } layout index = do
      let target ← layout.resolve name
      let next : Int := (layout.addressOf index).toNat + (o.bytes.length + 4 : Nat)
      return o.bytes ++ Width.long.immediate (target.toNat - next) := by
  have hlong : Width.long.bytes = 4 := rfl
  simp [bytes, operandBytes, lengthWith, trailerBytes, bytesWith, Opcode.mark, Trailer.length,
    hlong]

end Encoding

namespace Opcode

/-- The lowest bit of an opcode that has a byte form and a wide one. -/
def wideBit (wide : Bool) : Byte := if wide then 1 else 0

theorem bytes_sized (wide : Bool) : (aluImm wide).bytes = [0x80 + wideBit wide] ∧
    (testStore wide).bytes = [0x84 + wideBit wide] ∧
    (movStore wide).bytes = [0x88 + wideBit wide] ∧
    (movLoad wide).bytes = [0x8A + wideBit wide] ∧
    (testAcc wide).bytes = [0xA8 + wideBit wide] ∧
    (shiftImm wide).bytes = [0xC0 + wideBit wide] ∧
    (movImm wide).bytes = [0xC6 + wideBit wide] ∧
    (shiftOne wide).bytes = [0xD0 + wideBit wide] ∧
    (shiftCl wide).bytes = [0xD2 + wideBit wide] ∧
    (groupThree wide).bytes = [0xF6 + wideBit wide] ∧
    (groupFive wide).bytes = [0xFE + wideBit wide] := by
  cases wide <;> decide

theorem bytes_alu (op : AluOp) (wide : Bool) :
    (aluStore op wide).bytes = [op.code.setWidth 8 <<< 3 + wideBit wide] ∧
    (aluLoad op wide).bytes = [op.code.setWidth 8 <<< 3 + 2 + wideBit wide] ∧
    (aluAcc op wide).bytes = [op.code.setWidth 8 <<< 3 + 4 + wideBit wide] := by
  cases op <;> cases wide <;> decide

theorem bytes_register : ∀ r : BitVec 3, (pushReg r).bytes = [0x50 + r.setWidth 8] ∧
    (popReg r).bytes = [0x58 + r.setWidth 8] ∧
    (incReg r).bytes = [0x40 + (0 : BitVec 3).setWidth 8 <<< 3 + r.setWidth 8] ∧
    (decReg r).bytes = [0x40 + (1 : BitVec 3).setWidth 8 <<< 3 + r.setWidth 8] := by
  decide

theorem bytes_movReg (w : Width) : ∀ r : BitVec 3,
    (movReg w.isWide r).bytes = [(if w = .byte then 0xB0 else 0xB8) + r.setWidth 8] := by
  cases w <;> decide

theorem bytes_jcc (c : Cond) : (jcc c).bytes = [0x0F, 0x80 + c.code.setWidth 8] := by
  obtain ⟨test, negated⟩ := c
  cases test <;> cases negated <;> decide

end Opcode

namespace Instruction

open Encoding

variable {operator : String} {w : Width} {m : Mnemonic} {src dst op : Operand}
  {ops : List Operand} {e : Encoding}

@[simp] theorem source_two : source ⟨operator, ⟨m, w, [src, dst]⟩⟩ = pure src := rfl

@[simp] theorem destination_two : destination ⟨operator, ⟨m, w, [src, dst]⟩⟩ = pure dst := rfl

@[simp] theorem source_one : source ⟨operator, ⟨m, w, [op]⟩⟩ = pure op := rfl

@[simp] theorem destination_one : destination ⟨operator, ⟨m, w, [op]⟩⟩ = pure op := rfl

@[simp] theorem width_mk : width ⟨operator, ⟨m, w, ops⟩⟩ = w := rfl

@[simp] theorem mark_mk : mark ⟨operator, ⟨m, w, ops⟩⟩ = Opcode.mark (w == .word) := by
  cases w <;> rfl

@[simp] theorem wide_mk : wide ⟨operator, ⟨m, w, ops⟩⟩ = Opcode.wideBit w.isWide := by
  cases w <;> rfl

variable (layout : Layout) (index : Nat)

theorem lengthMov_eq (h : Selects w .mov ops e) :
    lengthMov ⟨operator, ⟨.mov, w, ops⟩⟩ = e.length := by
  cases h <;> simp [lengthMov, Opcode.bytes, Trailer.length, Nat.add_assoc]

theorem encodeMov_eq (h : Selects w .mov ops e) :
    encodeMov ⟨operator, ⟨.mov, w, ops⟩⟩ = e.bytes layout index := by
  cases h with
  | movStore r h =>
    rcases Operand.isRM_iff.mp h with ⟨s, rfl⟩ | ⟨ref, rfl⟩ <;>
      simp [encodeMov, Opcode.bytes_sized]
  | movReg n r => cases w <;> simp [encodeMov, Opcode.bytes_movReg]
  | movImm n ref | movLoad ref r => simp [encodeMov, Opcode.bytes_sized]

theorem lengthBinary_eq {a : AluOp} (h : Selects w (.alu a) ops e) :
    lengthBinary ⟨operator, ⟨.alu a, w, ops⟩⟩ = e.length := by
  cases h with
  | aluAcc op n hr => simp [lengthBinary, hr, Opcode.bytes, Trailer.length, Nat.add_assoc]
  | aluImm op n h hacc => simp [lengthBinary, hacc, Opcode.bytes, Trailer.length, Nat.add_assoc]
  | aluStore op r h | aluLoad op ref r =>
    simp [lengthBinary, Opcode.bytes, Trailer.length, Nat.add_assoc]

theorem encodeBinary_eq {a : AluOp} (h : Selects w (.alu a) ops e) :
    encodeBinary ⟨operator, ⟨.alu a, w, ops⟩⟩ a.code = e.bytes layout index := by
  cases h with
  | aluAcc op n hr => simp [encodeBinary, hr, Opcode.bytes_alu]
  | aluImm op n h hacc => simp [encodeBinary, hacc, Opcode.bytes_sized]
  | aluStore op r h | aluLoad op ref r => simp [encodeBinary, Opcode.bytes_alu]

theorem lengthTest_eq (h : Selects w .test ops e) :
    lengthTest ⟨operator, ⟨.test, w, ops⟩⟩ = e.length := by
  cases h with
  | testAcc n hr => simp [lengthTest, hr, Opcode.bytes, Trailer.length, Nat.add_assoc]
  | testImm n h hacc => simp [lengthTest, hacc, Opcode.bytes, Trailer.length, Nat.add_assoc]
  | testStore r h => simp [lengthTest, Opcode.bytes, Trailer.length, Nat.add_assoc]

theorem encodeTest_eq (h : Selects w .test ops e) :
    encodeTest ⟨operator, ⟨.test, w, ops⟩⟩ = e.bytes layout index := by
  cases h with
  | testAcc n hr => simp [encodeTest, hr, Opcode.bytes_sized]
  | testImm n h hacc => simp [encodeTest, hacc, Opcode.bytes_sized]
  | testStore r h => simp [encodeTest, Opcode.bytes_sized]

theorem lengthLea_eq (h : Selects w .lea ops e) :
    lengthLea ⟨operator, ⟨.lea, w, ops⟩⟩ = e.length := by
  cases h
  simp [lengthLea, Opcode.bytes, Trailer.length]

theorem encodeLea_eq (h : Selects w .lea ops e) :
    encodeLea ⟨operator, ⟨.lea, w, ops⟩⟩ = e.bytes layout index := by
  cases h
  simp [encodeLea, Opcode.bytes]

theorem lengthPush_eq (h : Selects w .push ops e) :
    lengthPush ⟨operator, ⟨.push, w, ops⟩⟩ = e.length := by
  cases h <;> simp [lengthPush, Opcode.bytes, Trailer.length, Nat.add_assoc]

theorem encodePush_eq (h : Selects w .push ops e) :
    encodePush ⟨operator, ⟨.push, w, ops⟩⟩ = e.bytes layout index := by
  cases h with
  | pushReg r hw => simp [encodePush, Opcode.bytes_register]
  | pushImm n hw => simp [encodePush, hw, Opcode.bytes]
  | pushMem ref hw => simp [encodePush, Opcode.bytes]

theorem lengthPop_eq (h : Selects w .pop ops e) :
    lengthPop ⟨operator, ⟨.pop, w, ops⟩⟩ = e.length := by
  cases h <;> simp [lengthPop, Opcode.bytes, Trailer.length, Nat.add_assoc]

theorem encodePop_eq (h : Selects w .pop ops e) :
    encodePop ⟨operator, ⟨.pop, w, ops⟩⟩ = e.bytes layout index := by
  cases h with
  | popReg r hw => simp [encodePop, Opcode.bytes_register]
  | popMem ref hw => simp [encodePop, Opcode.bytes]

theorem lengthFixed_eq {op : PlainOp} (h : Selects w (.plain op) ops e) :
    lengthFixed ⟨operator, ⟨.plain op, w, ops⟩⟩ = e.length := by
  cases h
  simp [lengthFixed, Opcode.bytes, Trailer.length]

theorem encodeFixed_eq {op : PlainOp} (h : Selects w (.plain op) ops e) :
    encodeFixed ⟨operator, ⟨.plain op, w, ops⟩⟩ = e.bytes layout index := by
  cases h
  have hcode : fixedOpcode ⟨operator, ⟨.plain op, w, []⟩⟩ = pure op.opcode := rfl
  simp [encodeFixed, hcode, Opcode.bytes]

theorem lengthGroup_eq {op : UnaryOp} (h : Selects w (.unary op) ops e) :
    lengthGroup ⟨operator, ⟨.unary op, w, ops⟩⟩ = e.length := by
  cases h
  simp [lengthGroup, Opcode.bytes, Trailer.length]

theorem encodeGroup_eq {op : UnaryOp} (h : Selects w (.unary op) ops e) :
    encodeGroup ⟨operator, ⟨.unary op, w, ops⟩⟩ op.code = e.bytes layout index := by
  cases h
  simp [encodeGroup, Opcode.bytes_sized]

theorem shortForm_reg (r : Reg) (hw : w ≠ .byte) :
    shortForm ⟨operator, ⟨m, w, [.reg r]⟩⟩ = pure (some r.code) := by
  simp [shortForm, hw]

theorem shortForm_none (h : op.isRM = true) (hw : w = .byte ∨ op.isMem = true) :
    shortForm ⟨operator, ⟨m, w, [op]⟩⟩ = pure none := by
  rcases Operand.isRM_iff.mp h with ⟨r, rfl⟩ | ⟨ref, rfl⟩
  · obtain rfl : w = .byte := hw.resolve_right nofun
    rfl
  · rfl

theorem lengthInc_eq (h : Selects w .inc ops e) :
    lengthStep ⟨operator, ⟨.inc, w, ops⟩⟩ = e.length := by
  cases h with
  | incReg r hw => simp [lengthStep, shortForm_reg r hw, Opcode.bytes, Trailer.length]
  | incRM h hw =>
    simp [lengthStep, shortForm_none h hw, Opcode.bytes, Trailer.length, Nat.add_assoc]

theorem encodeInc_eq (h : Selects w .inc ops e) :
    encodeStep ⟨operator, ⟨.inc, w, ops⟩⟩ 0 = e.bytes layout index := by
  cases h with
  | incReg r hw => simp [encodeStep, shortForm_reg r hw, Opcode.bytes_register]
  | incRM h hw => simp [encodeStep, shortForm_none h hw, Opcode.bytes_sized]

theorem lengthDec_eq (h : Selects w .dec ops e) :
    lengthStep ⟨operator, ⟨.dec, w, ops⟩⟩ = e.length := by
  cases h with
  | decReg r hw => simp [lengthStep, shortForm_reg r hw, Opcode.bytes, Trailer.length]
  | decRM h hw =>
    simp [lengthStep, shortForm_none h hw, Opcode.bytes, Trailer.length, Nat.add_assoc]

theorem encodeDec_eq (h : Selects w .dec ops e) :
    encodeStep ⟨operator, ⟨.dec, w, ops⟩⟩ 1 = e.bytes layout index := by
  cases h with
  | decReg r hw => simp [encodeStep, shortForm_reg r hw, Opcode.bytes_register]
  | decRM h hw => simp [encodeStep, shortForm_none h hw, Opcode.bytes_sized]

theorem counter_eq {c : Counter} (h : Counts src c) :
    counter ⟨operator, ⟨m, w, [src, dst]⟩⟩ = pure c := counter_ok_iff.mpr h

@[simp] theorem counter_one : counter ⟨operator, ⟨m, w, [op]⟩⟩ = pure .one := rfl

theorem lengthShift_eq {s : ShiftOp} (h : Selects w (.shift s) ops e) :
    lengthShift ⟨operator, ⟨.shift s, w, ops⟩⟩ = e.length := by
  cases h with
  | shiftAlone op h => simp [lengthShift, Opcode.bytes, Trailer.length]
  | shiftOne op h => simp [lengthShift, counter_eq .one, Opcode.bytes, Trailer.length]
  | shiftImm op h hn hfits =>
    have hbyte : Width.byte.bytes = 1 := rfl
    simp [lengthShift, counter_eq (.imm hn hfits), Opcode.bytes, Trailer.length, hbyte]
  | shiftCl op h => simp [lengthShift, counter_eq .cl, Opcode.bytes, Trailer.length]

theorem encodeShift_eq {s : ShiftOp} (h : Selects w (.shift s) ops e) :
    encodeShift ⟨operator, ⟨.shift s, w, ops⟩⟩ s.code = e.bytes layout index := by
  cases h with
  | shiftAlone op h => simp [encodeShift, Opcode.bytes_sized]
  | shiftOne op h => simp [encodeShift, counter_eq .one, Opcode.bytes_sized]
  | shiftImm op h hn hfits =>
    simp [encodeShift, counter_eq (.imm hn hfits), Opcode.bytes_sized, Width.immediate_byte]
  | shiftCl op h => simp [encodeShift, counter_eq .cl, Opcode.bytes_sized]

theorem lengthBranch_eq (h : Selects w m ops e) (hm : m.isBranch = true) :
    lengthBranch ⟨operator, ⟨m, w, ops⟩⟩ = e.length := by
  cases h with
  | jmp name | jcc c name | call name => rfl
  | _ => cases hm

theorem branchOpcode_eq (h : Selects w m ops e) (hm : m.isBranch = true) :
    branchOpcode ⟨operator, ⟨m, w, ops⟩⟩ = pure e.opcode.bytes := by
  cases h with
  | jmp name | call name => rfl
  | jcc c name =>
    rw [Opcode.bytes_jcc]
    rfl
  | _ => cases hm

theorem encodeBranch_eq (h : Selects w m ops e) (hm : m.isBranch = true) :
    encodeBranch ⟨operator, ⟨m, w, ops⟩⟩ layout index = e.bytes layout index := by
  have hlength : lengthBranch ⟨operator, ⟨m, w, ops⟩⟩ = e.length := lengthBranch_eq h hm
  have hopcode : branchOpcode ⟨operator, ⟨m, w, ops⟩⟩ = pure e.opcode.bytes :=
    branchOpcode_eq h hm
  cases h with
  | jmp name | jcc c name | call name => simp [encodeBranch, hlength, hopcode]
  | _ => cases hm

end Instruction

/-! ## All families -/

namespace Encoding.Selects

open Instruction

variable {i : Instruction} {e : Encoding}

/-- **The length that is foreseen** is that of the parts. -/
theorem length_eq (h : Selects i.instr.width i.instr.mnemonic i.instr.operands e) :
    i.length = e.length := by
  obtain ⟨operator, m, w, ops⟩ := i
  cases m with
  | mov => exact lengthMov_eq h
  | lea => exact lengthLea_eq h
  | push => exact lengthPush_eq h
  | pop => exact lengthPop_eq h
  | alu op => exact lengthBinary_eq h
  | test => exact lengthTest_eq h
  | unary op => exact lengthGroup_eq h
  | inc => exact lengthInc_eq h
  | dec => exact lengthDec_eq h
  | shift op => exact lengthShift_eq h
  | jmp | jcc c | call => exact lengthBranch_eq h rfl
  | plain op => exact lengthFixed_eq h

/-- **The bytes that are written** are those of the parts. -/
theorem bytes_eq (h : Selects i.instr.width i.instr.mnemonic i.instr.operands e) (layout : Layout)
    (index : Nat) : i.bytes layout index = e.bytes layout index := by
  obtain ⟨operator, m, w, ops⟩ := i
  cases m with
  | mov => exact encodeMov_eq layout index h
  | lea => exact encodeLea_eq layout index h
  | push => exact encodePush_eq layout index h
  | pop => exact encodePop_eq layout index h
  | alu op => exact encodeBinary_eq layout index h
  | test => exact encodeTest_eq layout index h
  | unary op => exact encodeGroup_eq layout index h
  | inc => exact encodeInc_eq layout index h
  | dec => exact encodeDec_eq layout index h
  | shift op => exact encodeShift_eq layout index h
  | jmp | jcc c | call => exact encodeBranch_eq layout index h rfl
  | plain op => exact encodeFixed_eq layout index h

end Encoding.Selects

end Ia32
