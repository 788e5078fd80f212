import Ia32.Assembly.Instruction
import Ia32.Proofs.OperandBytes

/-!
# The encodings of an instruction

An encoded instruction has up to four parts: a byte for the width of a word, the opcode, the bytes
of an operand, and at the end a constant or the distance to a label. The families of instructions
check operands, foresee lengths and write bytes without these parts. The table of encodings says
which parts stand for an instruction, by the kinds of its operands, and what the families do is
measured against it.

* `Encoding`: the parts; `Encoding.length`, `Encoding.bytes`: how long they are, and their bytes;
* `Encoding.Selects`: the table of encodings;
* **`Instruction.validate_ok_iff`**: the instructions that pass the check of their family are those
  in the table;
* `Selects.operand`, `Selects.mem_mem_iff`, `Selects.label_mem_iff`: where the operands are;
* `Selects.parts_le`: how long the parts are.
-/

set_option autoImplicit false

namespace Ia32

theorem Operand.isRM_iff {op : Operand} :
    op.isRM = true ↔ (∃ r, op = reg r) ∨ ∃ m, op = mem m := by
  cases op <;> simp [isRM, isReg, isMem, reg?]

@[simp] theorem Operand.isAccumulator_reg (r : Reg) : (reg r).isAccumulator = r.isAccumulator := rfl

/-! ## Parts -/

/-- What ends an encoded instruction. -/
inductive Trailer where
  | none
  | imm (width : Width) (n : Int)
  /-- The distance from the next instruction to a label. -/
  | target (label : String)
  deriving DecidableEq

/-- The number of bytes of a trailer. -/
def Trailer.length : Trailer → Nat
  | none => 0
  | imm width _ => width.bytes
  | target _ => Width.long.bytes

/-- The parts of an encoded instruction. -/
structure Encoding where
  /-- Whether the width is a word, which a byte in front announces. -/
  isWord : Bool := false
  opcode : Opcode
  /-- An operand, with the field that stands beside it. -/
  operand : Option (Operand × BitVec 3) := none
  trailer : Trailer := .none
  deriving DecidableEq

/-- Whether the wide form of an opcode stands for the width. -/
def Width.isWide (w : Width) : Bool := w != .byte

namespace Encoding

/-- The bytes of the operand of an encoding, which are none if it has no operand. -/
def operandBytes (e : Encoding) : Except Cause (List Byte) :=
  match e.operand with
  | some (op, field) => Ia32.operandBytes op field
  | none => pure []

/-- The number of bytes of an encoding, given that of its operand. -/
def lengthWith (e : Encoding) (operand : Nat) : Nat :=
  (Opcode.mark e.isWord).length + e.opcode.bytes.length + operand + e.trailer.length

/-- The bytes of an encoding, given those of its operand and its trailer. -/
def bytesWith (e : Encoding) (operand trailer : List Byte) : List Byte :=
  Opcode.mark e.isWord ++ e.opcode.bytes ++ operand ++ trailer

/-- The number of bytes of an encoded instruction. -/
def length (e : Encoding) : Except Cause Nat := do
  return e.lengthWith (← e.operandBytes).length

/-- The bytes of a trailer, given the labels and the address of the next instruction. -/
def trailerBytes (layout : Layout) (next : Int) : Trailer → Except Cause (List Byte)
  | .none => pure []
  | .imm width n => pure (width.immediate n)
  | .target label => do
    let target ← layout.resolve label
    return Width.long.immediate (target.toNat - next)

/-- The bytes of an encoded instruction that is a given statement of a program. -/
def bytes (e : Encoding) (layout : Layout) (index : Nat) : Except Cause (List Byte) := do
  let operand ← e.operandBytes
  let next : Int := (layout.addressOf index).toNat + e.lengthWith operand.length
  let trailer ← trailerBytes layout next e.trailer
  return e.bytesWith operand trailer

/-- An encoding whose width is marked. -/
def ofWidth (w : Width) (opcode : Opcode) (operand : Option (Operand × BitVec 3) := none)
    (trailer : Trailer := .none) : Encoding :=
  ⟨w == .word, opcode, operand, trailer⟩

/-- The parts that stand for an instruction of a width. -/
inductive Selects (w : Width) : Mnemonic → List Operand → Encoding → Prop where
  | movReg (n : Int) (r : Reg) :
      Selects w .mov [.imm n, .reg r] (ofWidth w (.movReg w.isWide r.code) none (.imm w n))
  | movImm (n : Int) (m : MemRef) :
      Selects w .mov [.imm n, .mem m]
        (ofWidth w (.movImm w.isWide) (some (.mem m, 0)) (.imm w n))
  | movStore (r : Reg) {dst : Operand} (h : dst.isRM = true) :
      Selects w .mov [.reg r, dst] (ofWidth w (.movStore w.isWide) (some (dst, r.code)))
  | movLoad (m : MemRef) (r : Reg) :
      Selects w .mov [.mem m, .reg r] (ofWidth w (.movLoad w.isWide) (some (.mem m, r.code)))
  | aluAcc (op : AluOp) (n : Int) {r : Reg} (h : r.isAccumulator = true) :
      Selects w (.alu op) [.imm n, .reg r] (ofWidth w (.aluAcc op w.isWide) none (.imm w n))
  | aluImm (op : AluOp) (n : Int) {dst : Operand} (h : dst.isRM = true)
      (hacc : dst.isAccumulator = false) :
      Selects w (.alu op) [.imm n, dst]
        (ofWidth w (.aluImm w.isWide) (some (dst, op.code)) (.imm w n))
  | aluStore (op : AluOp) (r : Reg) {dst : Operand} (h : dst.isRM = true) :
      Selects w (.alu op) [.reg r, dst] (ofWidth w (.aluStore op w.isWide) (some (dst, r.code)))
  | aluLoad (op : AluOp) (m : MemRef) (r : Reg) :
      Selects w (.alu op) [.mem m, .reg r]
        (ofWidth w (.aluLoad op w.isWide) (some (.mem m, r.code)))
  | testAcc (n : Int) {r : Reg} (h : r.isAccumulator = true) :
      Selects w .test [.imm n, .reg r] (ofWidth w (.testAcc w.isWide) none (.imm w n))
  | testImm (n : Int) {dst : Operand} (h : dst.isRM = true) (hacc : dst.isAccumulator = false) :
      Selects w .test [.imm n, dst]
        (ofWidth w (.groupThree w.isWide) (some (dst, 0)) (.imm w n))
  | testStore (r : Reg) {dst : Operand} (h : dst.isRM = true) :
      Selects w .test [.reg r, dst] (ofWidth w (.testStore w.isWide) (some (dst, r.code)))
  | lea (m : MemRef) (r : Reg) (hw : w ≠ .byte) :
      Selects w .lea [.mem m, .reg r] (ofWidth w .lea (some (.mem m, r.code)))
  | pushReg (r : Reg) (hw : w ≠ .byte) : Selects w .push [.reg r] (ofWidth w (.pushReg r.code))
  | pushImm (n : Int) (hw : w ≠ .byte) :
      Selects w .push [.imm n] (ofWidth w .pushImm none (.imm w n))
  | pushMem (m : MemRef) (hw : w ≠ .byte) :
      Selects w .push [.mem m] (ofWidth w (.groupFive true) (some (.mem m, 6)))
  | popReg (r : Reg) (hw : w ≠ .byte) : Selects w .pop [.reg r] (ofWidth w (.popReg r.code))
  | popMem (m : MemRef) (hw : w ≠ .byte) :
      Selects w .pop [.mem m] (ofWidth w .popRM (some (.mem m, 0)))
  | unary (op : UnaryOp) {dst : Operand} (h : dst.isRM = true) :
      Selects w (.unary op) [dst] (ofWidth w (.groupThree w.isWide) (some (dst, op.code)))
  | incReg (r : Reg) (hw : w ≠ .byte) : Selects w .inc [.reg r] (ofWidth w (.incReg r.code))
  | incRM {dst : Operand} (h : dst.isRM = true) (hw : w = .byte ∨ dst.isMem = true) :
      Selects w .inc [dst] (ofWidth w (.groupFive w.isWide) (some (dst, 0)))
  | decReg (r : Reg) (hw : w ≠ .byte) : Selects w .dec [.reg r] (ofWidth w (.decReg r.code))
  | decRM {dst : Operand} (h : dst.isRM = true) (hw : w = .byte ∨ dst.isMem = true) :
      Selects w .dec [dst] (ofWidth w (.groupFive w.isWide) (some (dst, 1)))
  | shiftAlone (op : ShiftOp) {dst : Operand} (h : dst.isRM = true) :
      Selects w (.shift op) [dst] (ofWidth w (.shiftOne w.isWide) (some (dst, op.code)))
  | shiftOne (op : ShiftOp) {dst : Operand} (h : dst.isRM = true) :
      Selects w (.shift op) [.imm 1, dst]
        (ofWidth w (.shiftOne w.isWide) (some (dst, op.code)))
  | shiftImm (op : ShiftOp) {n : Int} {dst : Operand} (h : dst.isRM = true) (hn : n ≠ 1)
      (hfits : Width.byte.fits n = true) :
      Selects w (.shift op) [.imm n, dst]
        (ofWidth w (.shiftImm w.isWide) (some (dst, op.code)) (.imm .byte n))
  | shiftCl (op : ShiftOp) {dst : Operand} (h : dst.isRM = true) :
      Selects w (.shift op) [.reg .cl, dst]
        (ofWidth w (.shiftCl w.isWide) (some (dst, op.code)))
  | jmp (name : String) : Selects w .jmp [.label name] { opcode := .jmp, trailer := .target name }
  | jcc (c : Cond) (name : String) :
      Selects w (.jcc c) [.label name] { opcode := .jcc c, trailer := .target name }
  | call (name : String) :
      Selects w .call [.label name] { opcode := .call, trailer := .target name }
  | plain (op : PlainOp) : Selects w (.plain op) [] (ofWidth w (.plain op))

end Encoding

/-! ## The table is what passes the checks -/

namespace Instruction

open Encoding

variable {i : Instruction} {operator : String} {w : Width} {m : Mnemonic} {ops : List Operand}
  {u : Unit}

theorem expectArity_ok_iff {least most : Nat} : i.expectArity least most = .ok u ↔
    least ≤ i.instr.operands.length ∧ i.instr.operands.length ≤ most := by
  unfold expectArity
  split_ifs with h
  · exact ⟨fun _ => h, fun _ => rfl⟩
  · exact ⟨nofun, fun h' => absurd h' h⟩

theorem expectOne_ok_iff :
    i.expectArity 1 1 = .ok u ↔ ∃ op, i.instr.operands = [op] := by
  rw [expectArity_ok_iff, ← List.length_eq_one_iff]
  omega

theorem expectTwo_ok_iff :
    i.expectArity 2 2 = .ok u ↔ ∃ src dst, i.instr.operands = [src, dst] := by
  rw [expectArity_ok_iff, ← List.length_eq_two]
  omega

theorem atLeastWord_ok_iff : i.atLeastWord = .ok u ↔ i.width ≠ .byte := by
  unfold atLeastWord
  cases i.width with
  | byte => exact ⟨nofun, fun h => absurd rfl h⟩
  | word | long => exact ⟨fun _ => nofun, fun _ => rfl⟩

theorem selects_of_mov (h : validateTwo ⟨operator, ⟨.mov, w, ops⟩⟩ = .ok u) :
    ∃ e, Selects w .mov ops e := by
  obtain ⟨_, harity, h⟩ := bind_ok_iff.mp h
  obtain ⟨src, dst, rfl⟩ := expectTwo_ok_iff.mp harity
  cases src <;> cases dst <;> try cases h
  case imm.reg n r => exact ⟨_, .movReg n r⟩
  case imm.mem n ref => exact ⟨_, .movImm n ref⟩
  case reg.reg r s => exact ⟨_, .movStore r rfl⟩
  case reg.mem r ref => exact ⟨_, .movStore r rfl⟩
  case mem.reg ref r => exact ⟨_, .movLoad ref r⟩

theorem selects_of_alu {op : AluOp} (h : validateTwo ⟨operator, ⟨.alu op, w, ops⟩⟩ = .ok u) :
    ∃ e, Selects w (.alu op) ops e := by
  obtain ⟨_, harity, h⟩ := bind_ok_iff.mp h
  obtain ⟨src, dst, rfl⟩ := expectTwo_ok_iff.mp harity
  cases src <;> cases dst <;> try cases h
  case imm.reg n r =>
    by_cases hr : r.isAccumulator = true
    · exact ⟨_, .aluAcc op n hr⟩
    · exact ⟨_, .aluImm op n rfl (Bool.eq_false_iff.mpr hr)⟩
  case imm.mem n ref => exact ⟨_, .aluImm op n rfl rfl⟩
  case reg.reg r s => exact ⟨_, .aluStore op r rfl⟩
  case reg.mem r ref => exact ⟨_, .aluStore op r rfl⟩
  case mem.reg ref r => exact ⟨_, .aluLoad op ref r⟩

theorem selects_of_test (h : validateTest ⟨operator, ⟨.test, w, ops⟩⟩ = .ok u) :
    ∃ e, Selects w .test ops e := by
  obtain ⟨_, harity, h⟩ := bind_ok_iff.mp h
  obtain ⟨src, dst, rfl⟩ := expectTwo_ok_iff.mp harity
  cases src <;> cases dst <;> try cases h
  case imm.reg n r =>
    by_cases hr : r.isAccumulator = true
    · exact ⟨_, .testAcc n hr⟩
    · exact ⟨_, .testImm n rfl (Bool.eq_false_iff.mpr hr)⟩
  case imm.mem n ref => exact ⟨_, .testImm n rfl rfl⟩
  case reg.reg r s => exact ⟨_, .testStore r rfl⟩
  case reg.mem r ref => exact ⟨_, .testStore r rfl⟩

theorem selects_of_lea (h : validateLea ⟨operator, ⟨.lea, w, ops⟩⟩ = .ok u) :
    ∃ e, Selects w .lea ops e := by
  obtain ⟨_, harity, h⟩ := bind_ok_iff.mp h
  obtain ⟨src, dst, rfl⟩ := expectTwo_ok_iff.mp harity
  cases dst with
  | reg r =>
    cases src with
    | mem ref => exact ⟨_, .lea ref r (atLeastWord_ok_iff.mp h)⟩
    | reg s | imm n | label name => cases h
  | imm n | mem ref | label name => cases h

theorem selects_of_push (h : validatePush ⟨operator, ⟨.push, w, ops⟩⟩ = .ok u) :
    ∃ e, Selects w .push ops e := by
  obtain ⟨_, harity, h⟩ := bind_ok_iff.mp h
  obtain ⟨op, rfl⟩ := expectOne_ok_iff.mp harity
  obtain ⟨_, hword, h⟩ := bind_ok_iff.mp h
  have hw : w ≠ .byte := atLeastWord_ok_iff.mp hword
  cases op with
  | reg r => exact ⟨_, .pushReg r hw⟩
  | imm n => exact ⟨_, .pushImm n hw⟩
  | mem ref => exact ⟨_, .pushMem ref hw⟩
  | label name => cases h

theorem selects_of_pop (h : validatePop ⟨operator, ⟨.pop, w, ops⟩⟩ = .ok u) :
    ∃ e, Selects w .pop ops e := by
  obtain ⟨_, harity, h⟩ := bind_ok_iff.mp h
  obtain ⟨op, rfl⟩ := expectOne_ok_iff.mp harity
  obtain ⟨_, hword, h⟩ := bind_ok_iff.mp h
  have hw : w ≠ .byte := atLeastWord_ok_iff.mp hword
  cases op with
  | reg r => exact ⟨_, .popReg r hw⟩
  | mem ref => exact ⟨_, .popMem ref hw⟩
  | imm n | label name => cases h

theorem operand_of_validateOne (h : validateOne ⟨operator, ⟨m, w, ops⟩⟩ = .ok u) :
    ∃ op, ops = [op] ∧ op.isRM = true := by
  obtain ⟨_, harity, h⟩ := bind_ok_iff.mp h
  obtain ⟨op, rfl⟩ := expectOne_ok_iff.mp harity
  cases op with
  | reg r | mem ref => exact ⟨_, rfl, rfl⟩
  | imm n | label name => cases h

theorem step_cases (w : Width) {op : Operand} (h : op.isRM = true) :
    (w = .byte ∨ op.isMem = true) ∨ w ≠ .byte ∧ ∃ r, op = .reg r := by
  by_cases hw : w = .byte
  · exact .inl (.inl hw)
  · rcases Operand.isRM_iff.mp h with hr | ⟨ref, rfl⟩
    · exact .inr ⟨hw, hr⟩
    · exact .inl (.inr rfl)

/-- What counts the bits of a shift of two operands. -/
inductive Counts : Operand → Counter → Prop where
  | one : Counts (.imm 1) .one
  | imm {n : Int} (hn : n ≠ 1) (hfits : Width.byte.fits n = true) :
      Counts (.imm n) (.imm (BitVec.ofInt 8 n))
  | cl : Counts (.reg .cl) .cl

theorem counter_ok_iff {src dst : Operand} {c : Counter} :
    counter ⟨operator, ⟨m, w, [src, dst]⟩⟩ = .ok c ↔ Counts src c := by
  constructor
  · intro h
    cases src with
    | imm n =>
      by_cases hn : n = 1
      · obtain rfl := hn
        cases h
        exact .one
      · change (if n = 1 then pure Counter.one else _) = Except.ok c at h
        rw [if_neg hn] at h
        by_cases hfits : Width.byte.fits n = true
        · rw [if_pos hfits] at h
          cases h
          exact .imm hn hfits
        · rw [if_neg hfits] at h
          cases h
    | reg r =>
      by_cases hr : r = .cl
      · obtain rfl := hr
        cases h
        exact .cl
      · change (if r = .cl then pure Counter.cl else _) = Except.ok c at h
        rw [if_neg hr] at h
        cases h
    | mem ref | label name => cases h
  · intro h
    cases h with
    | one | cl => rfl
    | imm hn hfits => exact (if_neg hn).trans (if_pos hfits)

theorem selects_of_shift {op : ShiftOp}
    (h : validateShift ⟨operator, ⟨.shift op, w, ops⟩⟩ = .ok u) :
    ∃ e, Selects w (.shift op) ops e := by
  obtain ⟨_, harity, h⟩ := bind_ok_iff.mp h
  obtain ⟨hleast, hmost⟩ := expectArity_ok_iff.mp harity
  rcases ops with _ | ⟨src, _ | ⟨dst, _ | ⟨x, xs⟩⟩⟩
  · exact absurd hleast (Nat.not_succ_le_zero 0)
  · cases src with
    | reg r | mem ref => exact ⟨_, .shiftAlone op rfl⟩
    | imm n | label name => cases h
  · have hdst : dst.isRM = true := by
      cases dst with
      | reg r | mem ref => rfl
      | imm n | label name => cases h
    obtain ⟨c, hc, -⟩ := map_ok_iff.mp ((if_pos hdst).symm.trans h)
    cases counter_ok_iff.mp hc with
    | one => exact ⟨_, .shiftOne op hdst⟩
    | imm hn hfits => exact ⟨_, .shiftImm op hdst hn hfits⟩
    | cl => exact ⟨_, .shiftCl op hdst⟩
  · exact absurd hmost (by simp)

theorem label_of_validateBranch (h : validateBranch ⟨operator, ⟨m, w, ops⟩⟩ = .ok u) :
    ∃ name, ops = [.label name] := by
  obtain ⟨_, harity, h⟩ := bind_ok_iff.mp h
  obtain ⟨op, rfl⟩ := expectOne_ok_iff.mp harity
  cases op with
  | label name => exact ⟨name, rfl⟩
  | reg r | imm n | mem ref => cases h

theorem validate_of_selects {e : Encoding} (h : Selects w m ops e) :
    validate ⟨operator, ⟨m, w, ops⟩⟩ = .ok () := by
  cases h <;> try rfl
  case movStore h | aluStore h | aluImm h _ | testImm h _ | testStore h | unary h | incRM h _
  | decRM h _ | shiftAlone h | shiftOne h | shiftCl h =>
    rcases Operand.isRM_iff.mp h with ⟨r, rfl⟩ | ⟨ref, rfl⟩ <;> rfl
  case lea hw | pushReg hw | pushImm hw | pushMem hw | popReg hw | popMem hw =>
    cases w with
    | byte => exact absurd rfl hw
    | word | long => rfl
  case shiftImm h hn hfits =>
    rcases Operand.isRM_iff.mp h with ⟨r, rfl⟩ | ⟨ref, rfl⟩
    · exact map_ok_iff.mpr ⟨_, counter_ok_iff.mpr (.imm hn hfits), rfl⟩
    · exact map_ok_iff.mpr ⟨_, counter_ok_iff.mpr (.imm hn hfits), rfl⟩

/-- **The instructions that pass the check** are those in the table of encodings. How the operator
is spelled makes no difference. -/
theorem validate_ok_iff :
    validate ⟨operator, ⟨m, w, ops⟩⟩ = .ok u ↔ ∃ e, Selects w m ops e := by
  constructor
  · intro h
    cases m with
    | mov => exact selects_of_mov h
    | alu op => exact selects_of_alu h
    | test => exact selects_of_test h
    | lea => exact selects_of_lea h
    | push => exact selects_of_push h
    | pop => exact selects_of_pop h
    | unary op =>
      obtain ⟨dst, rfl, hdst⟩ := operand_of_validateOne h
      exact ⟨_, .unary op hdst⟩
    | inc =>
      obtain ⟨dst, rfl, hdst⟩ := operand_of_validateOne h
      rcases step_cases w hdst with hw | ⟨hw, r, rfl⟩
      · exact ⟨_, .incRM hdst hw⟩
      · exact ⟨_, .incReg r hw⟩
    | dec =>
      obtain ⟨dst, rfl, hdst⟩ := operand_of_validateOne h
      rcases step_cases w hdst with hw | ⟨hw, r, rfl⟩
      · exact ⟨_, .decRM hdst hw⟩
      · exact ⟨_, .decReg r hw⟩
    | shift op => exact selects_of_shift h
    | jmp =>
      obtain ⟨name, rfl⟩ := label_of_validateBranch h
      exact ⟨_, .jmp name⟩
    | jcc c =>
      obtain ⟨name, rfl⟩ := label_of_validateBranch h
      exact ⟨_, .jcc c name⟩
    | call =>
      obtain ⟨name, rfl⟩ := label_of_validateBranch h
      exact ⟨_, .call name⟩
    | plain op =>
      obtain ⟨_, harity, h⟩ := bind_ok_iff.mp h
      obtain ⟨-, hmost⟩ := expectArity_ok_iff.mp harity
      obtain rfl := List.length_eq_zero_iff.mp (Nat.le_zero.mp hmost)
      exact ⟨_, .plain op⟩
  · rintro ⟨e, h⟩
    exact validate_of_selects h

end Instruction

namespace Encoding

/-! ## Where the operands are -/

namespace Selects

variable {w : Width} {m : Mnemonic} {ops : List Operand} {e : Encoding}

theorem operand (h : Selects w m ops e) {op : Operand} {field : BitVec 3}
    (he : e.operand = some (op, field)) : op ∈ ops ∧ op.isRM = true := by
  cases h <;> cases he <;> simp_all [Operand.isRM, Operand.isReg, Operand.isMem, Operand.reg?]

theorem mem_mem_iff (h : Selects w m ops e) {ref : MemRef} :
    .mem ref ∈ ops ↔ ∃ field, e.operand = some (.mem ref, field) := by
  constructor
  · intro href
    cases h <;> simp at href <;> subst href <;> exact ⟨_, rfl⟩
  · rintro ⟨field, he⟩
    exact (h.operand he).1

theorem label_mem_iff (h : Selects w m ops e) {name : String} :
    .label name ∈ ops ↔ e.trailer = .target name := by
  cases h <;> simp [ofWidth, eq_comm]
  all_goals
    rintro rfl
    simp_all [Operand.isRM, Operand.isReg, Operand.isMem, Operand.reg?]

theorem no_label (h : Selects w m ops e) (hm : m.isBranch = false) (name : String) :
    .label name ∉ ops := by
  rw [h.label_mem_iff]
  cases h with
  | jmp name | jcc c name | call name => cases hm
  | _ => exact nofun

theorem branch (h : Selects w m ops e) (hm : m.isBranch = true) : ∃ name, ops = [.label name] := by
  cases h with
  | jmp name | jcc c name | call name => exact ⟨name, rfl⟩
  | _ => cases hm

theorem plain_operands (h : Selects w m ops e) (hm : m.plainOpcode?.isSome = true) : ops = [] := by
  cases h with
  | plain op => rfl
  | _ => cases hm

theorem mark_add_bytes_le (w : Width) : (Opcode.mark (w == .word)).length + w.bytes ≤ 4 := by
  cases w <;> decide

/-- The parts of an instruction are short: the longest are a long constant and the two bytes of an
operand after an opcode. -/
theorem parts_le (h : Selects w m ops e) :
    (Opcode.mark e.isWord).length + e.opcode.bytes.length + (if e.operand.isSome then 2 else 0) +
      e.trailer.length ≤ 7 := by
  have hw := mark_add_bytes_le w
  have hpos := w.bytes_pos
  have hbyte : Width.byte.bytes = 1 := rfl
  have hlong : Width.long.bytes = 4 := rfl
  have hnone : (Opcode.mark false).length = 0 := rfl
  cases h <;> simp [ofWidth, Opcode.bytes, Trailer.length, hbyte, hlong, hnone] <;> omega

end Selects

end Encoding

end Ia32
