import Ia32.Proofs.Outline
import Ia32.Proofs.Printed

/-!
# Statements built again

* `Operand.reread`, `Encoding.reread`, `Statement.reread`: what is built from the written form, in
  which an address without an index has no scale;
* `Encoding.Selects.reread`: the table of encodings does not look at scales;
* **`Statement.ofBody_raw`**: a statement is built again from its written form;
* `Statement.WellFormed.bytes_reread`: with the same code;
* `RawBody.Readable`, **`Statement.writable_of_readable`**: statements that were read can be
  written.
-/

set_option autoImplicit false

namespace Ia32

/-! ## Operands -/

namespace Operand

/-- The operand that is built from the written form of an operand. -/
def reread : Operand → Operand
  | mem m => mem m.canonical
  | op => op

@[simp] theorem reg?_reread (op : Operand) : op.reread.reg? = op.reg? := by
  cases op <;> rfl

@[simp] theorem isRM_reread (op : Operand) : op.reread.isRM = op.isRM := by
  cases op <;> rfl

@[simp] theorem isMem_reread (op : Operand) : op.reread.isMem = op.isMem := by
  cases op <;> rfl

@[simp] theorem isAccumulator_reread (op : Operand) :
    op.reread.isAccumulator = op.isAccumulator := by
  cases op <;> rfl

end Operand

theorem MemRef.form_canonical (m : MemRef) : m.canonical.form = m.form := by
  obtain ⟨base, offset, index, scale⟩ := m
  cases index <;> rfl

theorem ModRM.encode_reread (op : Operand) (field : BitVec 3) :
    encode op.reread field = encode op field := by
  cases op with
  | mem m => rw [Operand.reread, encode, encode, m.form_canonical]
  | reg r | imm n | label name => rfl

theorem findRegister_name (r : Reg) : findRegister r.name = .ok r := by
  rw [findRegister, Reg.all_ofName? r r.mem_all]

theorem findPart_name {r : Option Reg} (h : ∀ s, r = some s → s.width = .long) :
    findPart (r.map Reg.name) = .ok r := by
  cases r with
  | none => rfl
  | some r =>
    refine map_ok_iff.mpr ⟨r, bind_ok_iff.mpr ⟨r, findRegister_name r, ?_⟩, rfl⟩
    rw [if_pos (h r rfl)]
    rfl

theorem Scale.ofFactor?_factor (s : Scale) : ofFactor? s.factor = some s := by
  cases s <;> decide

/-- **An operand is built again** from what its written form says. -/
theorem Operand.resolve_raw {op : Operand} (hwritable : op.Writable)
    (hlong : ∀ m, op = .mem m → m.IsLong) : op.raw.resolve = .ok op.reread := by
  cases hwritable with
  | reg r => exact map_ok_iff.mpr ⟨r, findRegister_name r, rfl⟩
  | imm h0 h1 | label h => rfl
  | @mem m hparts h0 h1 =>
    have hm := hlong m rfl
    have hsome : ¬ (m.base.isNone && m.index.isNone) = true := by
      rw [Bool.and_eq_true, Option.isNone_iff_eq_none, Option.isNone_iff_eq_none]
      rintro ⟨hb, hi⟩
      simp [hb, hi] at hparts
    refine bind_ok_iff.mpr ⟨m.base, findPart_name hm.base, ?_⟩
    refine bind_ok_iff.mpr ⟨m.index, findPart_name hm.index, guard_ok_iff.mpr ⟨hsome, ?_⟩⟩
    obtain ⟨base, offset, index, scale⟩ := m
    cases index with
    | none => rfl
    | some i =>
      have hscale : findScale (some (scale.factor : Int)) = .ok scale := by
        rw [findScale, scale.ofFactor?_factor]
      exact bind_ok_iff.mpr ⟨scale, hscale, rfl⟩

/-! ## Encodings -/

theorem inferWidth_reread (operator : String) (m : Mnemonic) (ops : List Operand)
    (implied : Option Width) :
    inferWidth operator m (ops.map Operand.reread) implied = inferWidth operator m ops implied := by
  have hsized : (sizedOperands m (ops.map Operand.reread)).filterMap Operand.reg? =
      (sizedOperands m ops).filterMap Operand.reg? := by
    have hregs : ∀ l : List Operand,
        (l.map Operand.reread).filterMap Operand.reg? = l.filterMap Operand.reg? := by
      intro l
      rw [List.filterMap_map]
      exact congrArg (List.filterMap · l) (funext Operand.reg?_reread)
    unfold sizedOperands
    rw [List.length_map]
    split
    · rw [← List.map_drop, hregs]
    · exact hregs ops
  unfold inferWidth
  rw [hsized]

namespace Encoding

/-- The encoding that is selected for operands that are built again. -/
def reread (e : Encoding) : Encoding :=
  { e with operand := e.operand.map fun p => (p.1.reread, p.2) }

/-- **The table of encodings** does not look at scales. -/
theorem Selects.reread {w : Width} {m : Mnemonic} {ops : List Operand} {e : Encoding}
    (h : Selects w m ops e) : Selects w m (ops.map Operand.reread) e.reread := by
  -- what a rule asks of operands is kept, whichever rule it is
  cases h
  all_goals
    constructor
    all_goals simpa

theorem operandBytes_reread (e : Encoding) : e.reread.operandBytes = e.operandBytes := by
  unfold operandBytes reread
  rcases e.operand with _ | ⟨op, field⟩
  · rfl
  · dsimp only [Option.map_some]
    rw [Ia32.operandBytes, ModRM.encode_reread, Ia32.operandBytes]

theorem bytes_reread (e : Encoding) (layout : Layout) (index : Nat) :
    e.reread.bytes layout index = e.bytes layout index := by
  unfold bytes
  rw [e.operandBytes_reread]
  rfl

end Encoding

/-! ## Statements -/

/-- The instruction that is built from the written form of an instruction. -/
def Instruction.reread (i : Instruction) : Instruction :=
  ⟨i.operator, ⟨i.instr.mnemonic, i.instr.width, i.instr.operands.map Operand.reread⟩⟩

namespace Statement

/-- The statement that is built from the written form of a statement. -/
def reread : Statement → Statement
  | instruction i => instruction i.reread
  | directive d => directive d

/-- **A statement is built again** from what its written form says. -/
theorem ofBody_raw {s : Statement} {body : RawBody} (h : ofBody body = .ok s)
    (hwritable : s.Writable) : ofBody s.raw = .ok s.reread := by
  cases body with
  | directive name values =>
    obtain ⟨d, hd, rfl⟩ := map_ok_iff.mp h
    -- a directive keeps its values, and is built of them again
    have hsame : d.name = name ∧ d.values = values := by
      unfold Directive.ofValues at hd
      split at hd
      · obtain ⟨-, hd⟩ := guard_ok_iff.mp hd
        split at hd
        · cases hd
        · cases hd
          exact ⟨rfl, rfl⟩
      · cases hd
    obtain ⟨rfl, rfl⟩ := hsame
    exact h
  | instruction operator raw =>
    obtain ⟨i, hi, rfl⟩ := map_ok_iff.mp h
    have hwf := Instruction.ofRaw_wellFormed hi
    obtain ⟨m, implied, ops, w, hfind, -, hwidth, ⟨e, he⟩, rfl⟩ := Instruction.ofRaw_ok_iff.mp hi
    cases hwritable with
    | instruction hoperator hoperands =>
      have hops : (ops.map Operand.raw).mapM RawOperand.resolve = .ok (ops.map Operand.reread) := by
        rw [mapM_ok_iff, List.forall₂_map_left_iff, List.forall₂_map_right_iff, List.forall₂_same]
        intro op hop
        refine Operand.resolve_raw (hoperands op hop) ?_
        rintro ref rfl
        exact hwf.isLong ref hop
      refine map_ok_iff.mpr ⟨_, Instruction.ofRaw_ok_iff.mpr ⟨m, implied, _, w, hfind, hops, ?_,
        ⟨e.reread, he.reread⟩, rfl⟩, rfl⟩
      rw [inferWidth_reread]
      exact hwidth

theorem WellFormed.bytes_reread {s : Statement} (hs : s.WellFormed) (layout : Layout)
    (index : Nat) : s.reread.bytes layout index = s.bytes layout index := by
  cases s with
  | instruction i =>
    obtain ⟨e, he⟩ := Instruction.WellFormed.selects hs
    calc i.reread.bytes layout index = e.reread.bytes layout index :=
        he.reread.bytes_eq layout index
      _ = e.bytes layout index := e.bytes_reread layout index
      _ = i.bytes layout index := (he.bytes_eq layout index).symm
  | directive d => rfl

end Statement

/-! ## What was read can be written -/

/-- Operands as they are read: constants fit in 64 bits, and labels are names. -/
inductive RawOperand.Readable : RawOperand → Prop where
  | reg (name : String) : Readable (reg name)
  | imm {n : Int} (h : inRange n = true) : Readable (imm n)
  | mem (base : Option String) (offset : Int) (index : Option String) (scale : Option Int) :
      Readable (mem base offset index scale)
  | label {name : String} (h : isName name.toList = true) : Readable (label name)

/-- Statements as they are read. -/
def RawBody.Readable : RawBody → Prop
  | instruction _ operands => ∀ raw ∈ operands, raw.Readable
  | directive _ _ => True

theorem readable_of_readOperand {cs : List Char} {raw : RawOperand}
    (h : readOperand cs = .ok raw) : raw.Readable := by
  unfold readOperand at h
  split at h
  · obtain ⟨name, -, rfl⟩ := map_ok_iff.mp h
    exact .reg name
  · obtain ⟨n, hn, rfl⟩ := map_ok_iff.mp h
    exact .imm (inRange_of_readNumber hn)
  · split at h
    · obtain ⟨-, h⟩ := guard_ok_iff.mp h
      obtain ⟨offset, -, h⟩ := bind_ok_iff.mp h
      obtain ⟨-, h⟩ := guard_ok_iff.mp h
      obtain ⟨base, -, h⟩ := bind_ok_iff.mp h
      obtain ⟨index, -, h⟩ := bind_ok_iff.mp h
      obtain ⟨scale, -, h⟩ := bind_ok_iff.mp h
      cases h
      exact .mem base offset index scale
    · split at h
      · obtain ⟨n, -, rfl⟩ := map_ok_iff.mp h
        exact .mem _ _ _ _
      · split at h
        · next hname =>
          cases h
          exact .label (by rwa [String.toList_ofList])
        · cases h

theorem readable_of_readBody {cs : List Char} {body : RawBody} (h : readBody cs = .ok body) :
    body.Readable := by
  unfold readBody at h
  dsimp only at h
  split at h
  · obtain ⟨args, -, h⟩ := bind_ok_iff.mp h
    obtain ⟨values, -, h⟩ := bind_ok_iff.mp h
    cases h
    exact trivial
  · obtain ⟨-, h⟩ := guard_ok_iff.mp h
    obtain ⟨args, -, h⟩ := bind_ok_iff.mp h
    obtain ⟨operands, hoperands, h⟩ := bind_ok_iff.mp h
    cases h
    intro raw hraw
    obtain ⟨cs, -, hcs⟩ := exists_of_mapM_ok hoperands hraw
    exact readable_of_readOperand hcs

theorem RawOperand.parts_of_resolve {raw : RawOperand} {m : MemRef}
    (h : raw.resolve = .ok (.mem m)) : m.base.isSome = true ∨ m.index.isSome = true := by
  cases raw with
  | reg name =>
    obtain ⟨_, -, h⟩ := map_ok_iff.mp h
    cases h
  | imm n | label name => cases h
  | mem base offset index scale =>
    obtain ⟨b, -, h⟩ := bind_ok_iff.mp h
    obtain ⟨i, -, h⟩ := bind_ok_iff.mp h
    obtain ⟨hparts, h⟩ := guard_ok_iff.mp h
    obtain ⟨s, -, h⟩ := bind_ok_iff.mp h
    cases h
    cases b <;> cases i <;> simp_all

/-- An operand that is built from what was read can be written, unless it is the least constant or
its offset is out of range. -/
theorem Operand.writable_of_readable {raw : RawOperand} {op : Operand}
    (h : raw.resolve = .ok op) (hread : raw.Readable) (himm : op ≠ .imm (-2 ^ 63))
    (hoffset : ∀ m, op = .mem m → m.offset = 0) : op.Writable := by
  cases hread with
  | reg name =>
    obtain ⟨r, -, rfl⟩ := map_ok_iff.mp h
    exact .reg r
  | @imm n hn =>
    cases h
    obtain ⟨h0, h1⟩ := inRange_iff.mp hn
    refine .imm (lt_of_le_of_ne h0 fun heq => himm ?_) h1
    rw [heq]
  | label hname =>
    cases h
    exact .label hname
  | mem base offset index scale =>
    obtain ⟨m, rfl⟩ : ∃ m, op = .mem m := by
      obtain ⟨b, -, h⟩ := bind_ok_iff.mp h
      obtain ⟨i, -, h⟩ := bind_ok_iff.mp h
      obtain ⟨-, h⟩ := guard_ok_iff.mp h
      obtain ⟨s, -, h⟩ := bind_ok_iff.mp h
      cases h
      exact ⟨_, rfl⟩
    have hzero := hoffset m rfl
    exact .mem (RawOperand.parts_of_resolve h) (by omega) (by omega)

theorem Directive.writable_of_ofValues {name : String} {values : List Int} {d : Directive}
    (h : ofValues name values = .ok d) : (Statement.directive d).Writable := by
  obtain ⟨w, hw, hne, hfits, rfl⟩ := ofValues_ok_iff.mp h
  refine .directive (by rw [hw]; rfl) hne fun v hv => ⟨(hfits v hv).1, (hfits v hv).2.trans_le ?_⟩
  exact pow_le_pow_right₀ (by decide) (w.bits_le.trans (by decide))

/-- **A statement that was read and has a length** can be written, unless it has the least
constant. -/
theorem Statement.writable_of_readable {s : Statement} {body : RawBody}
    (h : ofBody body = .ok s) (hread : body.Readable) (hlength : ∃ n, s.length = .ok n)
    (himm : ∀ i, s = instruction i → .imm (-2 ^ 63) ∉ i.instr.operands) : s.Writable := by
  cases body with
  | directive name values =>
    obtain ⟨d, hd, rfl⟩ := map_ok_iff.mp h
    exact Directive.writable_of_ofValues hd
  | instruction operator raw =>
    obtain ⟨i, hi, rfl⟩ := map_ok_iff.mp h
    have hsupported := (Instruction.ofRaw_wellFormed hi).length_iff.mp hlength
    have hne := himm i rfl
    obtain ⟨m, implied, ops, w, hfind, hops, -, -, rfl⟩ := Instruction.ofRaw_ok_iff.mp hi
    refine .instruction (by rw [hfind]; rfl) fun op hop => ?_
    obtain ⟨r, hr, hresolve⟩ := exists_of_mapM_ok hops hop
    refine Operand.writable_of_readable hresolve (hread r hr) ?_ ?_
    · rintro rfl
      exact hne hop
    · rintro ref rfl
      exact (hsupported ref hop).offset

end Ia32
