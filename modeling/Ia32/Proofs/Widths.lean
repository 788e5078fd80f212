import Ia32.Proofs.Spelling
import Ia32.Proofs.Stages

/-!
# Widths of instructions

An instruction has one width, on which its registers and its operator must agree.

* `Mnemonic.SizedBy`: the registers that decide the width; `Mnemonic.sizedBy_iff`: they are those
  that are looked at;
* `Instruction.ofRaw_eq`: how an instruction is built of a known operator and known operands;
  **`Instruction.ofRaw_clash`**: it is not if the widths differ;
* `Cause.spelledAs`, `Respelled`: complaints that name another spelling of the operator;
  **`Instruction.validate_respelled`**: the check of operands does not depend on the spelling;
* `Operator.find?_suffixed`: an operator with a letter, and the one without it;
  **`Instruction.ofRaw_respelled`**: they make the same instruction of a register of that width;
* **`widths_inferred`**: the width of an instruction, and when it has none.
-/

set_option autoImplicit false

namespace Ia32

/-! ## Registers that decide the width -/

/-- A register among some operands decides the width: at any place, but for the first of two
operands of a shift. -/
def Mnemonic.SizedBy (m : Mnemonic) (ops : List Operand) (r : Reg) : Prop :=
  ∃ k, ops[k]? = some (.reg r) ∧ ¬ (m.isShift = true ∧ ops.length = 2 ∧ k = 0)

theorem Mnemonic.sizedBy_iff {m : Mnemonic} {ops : List Operand} {r : Reg} :
    m.SizedBy ops r ↔ .reg r ∈ sizedOperands m ops := by
  unfold SizedBy sizedOperands
  by_cases hcount : m.isShift = true ∧ ops.length = 2
  · obtain ⟨hm, hlength⟩ := hcount
    obtain ⟨src, dst, rfl⟩ := List.length_eq_two.mp hlength
    simp only [hm, hlength, beq_self_eq_true, Bool.and_self, if_true, true_and, List.drop_one,
      List.tail_cons, List.mem_singleton]
    constructor
    · rintro ⟨_ | _ | k, hk, hne⟩
      · exact absurd rfl hne
      · exact (Option.some.inj hk).symm
      · cases hk
    · rintro rfl
      exact ⟨1, rfl, Nat.one_ne_zero⟩
  · have hall : (m.isShift && ops.length == 2) = false := by
      refine Bool.eq_false_iff.mpr fun h => hcount ?_
      rwa [Bool.and_eq_true, beq_iff_eq] at h
    rw [hall, if_neg Bool.false_ne_true, List.mem_iff_getElem?]
    constructor
    · rintro ⟨k, hk, -⟩
      exact ⟨k, hk⟩
    · rintro ⟨k, hk⟩
      exact ⟨k, hk, fun h => hcount ⟨h.1, h.2.1⟩⟩

/-! ## Building an instruction -/

section Build

variable {operator : String} {m : Mnemonic} {implied : Option Width} {raw : List RawOperand}
  {ops : List Operand}

/-- **An instruction is built** of a known operator and known operands in two steps: its width is
found, then its operands are checked. -/
theorem Instruction.ofRaw_eq (hfind : Operator.find? operator = some (m, implied))
    (hops : raw.mapM RawOperand.resolve = .ok ops) : ofRaw operator raw = do
      let w ← inferWidth operator m ops implied
      validate ⟨operator, ⟨m, w, ops⟩⟩
      return ⟨operator, ⟨m, w, ops⟩⟩ := by
  rw [ofRaw, hfind]
  dsimp only
  rw [hops]
  rfl

/-- **Registers that differ in width**, among each other or from the operator, make no
instruction. -/
theorem Instruction.ofRaw_clash (hfind : Operator.find? operator = some (m, implied))
    (hops : raw.mapM RawOperand.resolve = .ok ops)
    (h : (∃ r s, m.SizedBy ops r ∧ m.SizedBy ops s ∧ r.width ≠ s.width) ∨
      ∃ r w, m.SizedBy ops r ∧ implied = some w ∧ r.width ≠ w) :
    ∃ c, ofRaw operator raw = .error c ∧ c.kind = .invalidOperandSize := by
  rw [ofRaw_eq hfind hops]
  cases hw : inferWidth operator m ops implied with
  | error c => exact ⟨c, rfl, (inferWidth_error hw).1⟩
  | ok w =>
    obtain ⟨hreg, himplied, -⟩ := inferWidth_ok hw
    have hsized : ∀ r, m.SizedBy ops r → r.width = w := fun r hr =>
      hreg r (Mnemonic.sizedBy_iff.mp hr)
    rcases h with ⟨r, s, hr, hs, hne⟩ | ⟨r, v, hr, hv, hne⟩
    · exact absurd ((hsized r hr).trans (hsized s hs).symm) hne
    · exact absurd ((hsized r hr).trans (himplied v hv).symm) hne

end Build

/-! ## Operators that are spelled differently -/

namespace Cause

/-- The same complaint of another spelling of the operator. -/
def spelledAs (operator : String) : Cause → Cause
  | unknownOperator _ => unknownOperator operator
  | rejected _ op => rejected operator op
  | twoInMemory _ => twoInMemory operator
  | byteWidth _ => byteWidth operator
  | longCount _ n => longCount operator n
  | registersDiffer _ r s => registersDiffer operator r s
  | widthDiffers _ w r => widthDiffers operator w r
  | arity _ least most found => arity operator least most found
  | missingOperand _ => missingOperand operator
  | notBranch _ => notBranch operator
  | noFixedOpcode _ => noFixedOpcode operator
  | c => c

@[simp]
theorem kind_spelledAs (c : Cause) (operator : String) : (c.spelledAs operator).kind = c.kind := by
  cases c <;> rfl

theorem IsOfOperand.spelledAs {c : Cause} (h : c.IsOfOperand) (operator : String) :
    c.spelledAs operator = c := by
  cases c <;> first | rfl | exact h.elim

end Cause

/-- Two computations differ at most in the operator that they complain of. -/
def Respelled {α : Type} (operator : String) (x x' : Except Cause α) : Prop :=
  x' = x.mapError (Cause.spelledAs operator)

theorem Respelled.bind {α β : Type} {operator : String} {x x' : Except Cause α}
    {f f' : α → Except Cause β} (hx : Respelled operator x x')
    (hf : ∀ a, x = .ok a → Respelled operator (f a) (f' a)) :
    Respelled operator (x >>= f) (x' >>= f') := by
  cases x with
  | error c =>
    cases hx
    rfl
  | ok a =>
    cases hx
    exact hf a rfl

theorem Respelled.map {α β : Type} {operator : String} {x x' : Except Cause α}
    (hx : Respelled operator x x') (f : α → β) : Respelled operator (f <$> x) (f <$> x') := by
  cases x <;> cases hx <;> rfl

theorem Respelled.refl {α : Type} {operator : String} {x : Except Cause α}
    (h : Raises Cause.IsOfOperand x) : Respelled operator x x := by
  cases x with
  | ok a => rfl
  | error c => exact congrArg Except.error ((h c rfl).spelledAs operator).symm

theorem commonRegister_respelled (o o' : String) (found : Option Reg) (rs : List Reg) :
    Respelled o' (commonRegister o found rs) (commonRegister o' found rs) := by
  induction rs generalizing found with
  | nil => rfl
  | cons r rs ih =>
    cases found with
    | none => exact ih (some r)
    | some prev =>
      unfold commonRegister
      dsimp only
      split_ifs
      · exact ih (some r)
      · rfl

theorem inferWidth_respelled (o o' : String) {m : Mnemonic} {ops : List Operand} {r : Reg}
    (hr : m.SizedBy ops r) :
    Respelled o' (inferWidth o m ops none) (inferWidth o' m ops (some r.width)) := by
  refine .bind (commonRegister_respelled o o' _ _) fun found hfound => ?_
  have hmem : r ∈ (sizedOperands m ops).filterMap Operand.reg? :=
    mem_filterMap_reg?_iff.mpr (Mnemonic.sizedBy_iff.mp hr)
  obtain ⟨s, rfl, hs⟩ := commonRegister_ok hfound r (.inr hmem)
  dsimp only
  rw [if_pos hs, hs]
  rfl

namespace Instruction

variable (o o' : String) (i : Instr)

theorem expectArity_respelled (least most : Nat) :
    Respelled o' (expectArity ⟨o, i⟩ least most) (expectArity ⟨o', i⟩ least most) := by
  unfold expectArity
  split_ifs <;> rfl

theorem source_respelled : Respelled o' (source ⟨o, i⟩) (source ⟨o', i⟩) := by
  unfold source
  dsimp only
  cases i.source? <;> rfl

theorem destination_respelled : Respelled o' (destination ⟨o, i⟩) (destination ⟨o', i⟩) := by
  unfold destination
  dsimp only
  cases i.destination? <;> rfl

theorem atLeastWord_respelled : Respelled o' (atLeastWord ⟨o, i⟩) (atLeastWord ⟨o', i⟩) := by
  obtain ⟨m, w, ops⟩ := i
  cases w <;> rfl

theorem fixedOpcode_respelled : Respelled o' (fixedOpcode ⟨o, i⟩) (fixedOpcode ⟨o', i⟩) := by
  unfold fixedOpcode
  dsimp only
  cases i.mnemonic.plainOpcode? <;> rfl

theorem counter_respelled : Respelled o' (counter ⟨o, i⟩) (counter ⟨o', i⟩) := by
  unfold counter
  dsimp only
  split_ifs
  · rfl
  · refine .bind (source_respelled o o' i) fun op _ => ?_
    cases op with
    | imm n =>
      dsimp only
      split_ifs <;> rfl
    | reg r =>
      dsimp only
      split_ifs <;> rfl
    | mem ref | label name => rfl

theorem validateTwo_respelled : Respelled o' (validateTwo ⟨o, i⟩) (validateTwo ⟨o', i⟩) := by
  refine .bind (expectArity_respelled o o' i 2 2) fun _ _ => ?_
  refine .bind (source_respelled o o' i) fun src _ => ?_
  refine .bind (destination_respelled o o' i) fun dst _ => ?_
  cases src <;> cases dst <;> rfl

theorem validateOne_respelled : Respelled o' (validateOne ⟨o, i⟩) (validateOne ⟨o', i⟩) := by
  refine .bind (expectArity_respelled o o' i 1 1) fun _ _ => ?_
  refine .bind (destination_respelled o o' i) fun dst _ => ?_
  cases dst <;> rfl

theorem validateLea_respelled : Respelled o' (validateLea ⟨o, i⟩) (validateLea ⟨o', i⟩) := by
  refine .bind (expectArity_respelled o o' i 2 2) fun _ _ => ?_
  refine .bind (source_respelled o o' i) fun src _ => ?_
  refine .bind (destination_respelled o o' i) fun dst _ => ?_
  cases src <;> cases dst <;> first | rfl | exact atLeastWord_respelled o o' i

theorem validatePush_respelled : Respelled o' (validatePush ⟨o, i⟩) (validatePush ⟨o', i⟩) := by
  refine .bind (expectArity_respelled o o' i 1 1) fun _ _ => ?_
  refine .bind (atLeastWord_respelled o o' i) fun _ _ => ?_
  refine .bind (source_respelled o o' i) fun op _ => ?_
  cases op <;> rfl

theorem validatePop_respelled : Respelled o' (validatePop ⟨o, i⟩) (validatePop ⟨o', i⟩) := by
  refine .bind (expectArity_respelled o o' i 1 1) fun _ _ => ?_
  refine .bind (atLeastWord_respelled o o' i) fun _ _ => ?_
  refine .bind (destination_respelled o o' i) fun dst _ => ?_
  cases dst <;> rfl

theorem validateFixed_respelled : Respelled o' (validateFixed ⟨o, i⟩) (validateFixed ⟨o', i⟩) := by
  refine .bind (expectArity_respelled o o' i 0 0) fun _ _ => ?_
  exact (fixedOpcode_respelled o o' i).map _

theorem validateTest_respelled : Respelled o' (validateTest ⟨o, i⟩) (validateTest ⟨o', i⟩) := by
  refine .bind (expectArity_respelled o o' i 2 2) fun _ _ => ?_
  refine .bind (source_respelled o o' i) fun src _ => ?_
  refine .bind (destination_respelled o o' i) fun dst _ => ?_
  cases src <;> cases dst <;> rfl

theorem validateShift_respelled : Respelled o' (validateShift ⟨o, i⟩) (validateShift ⟨o', i⟩) := by
  refine .bind (expectArity_respelled o o' i 1 2) fun _ _ => ?_
  refine .bind (destination_respelled o o' i) fun dst _ => ?_
  cases dst <;> first | rfl | exact (counter_respelled o o' i).map _

theorem validateBranch_respelled :
    Respelled o' (validateBranch ⟨o, i⟩) (validateBranch ⟨o', i⟩) := by
  refine .bind (expectArity_respelled o o' i 1 1) fun _ _ => ?_
  refine .bind (destination_respelled o o' i) fun dst _ => ?_
  cases dst <;> rfl

/-- **The check of operands** does not depend on how the operator is spelled. -/
theorem validate_respelled : Respelled o' (validate ⟨o, i⟩) (validate ⟨o', i⟩) := by
  unfold validate form
  dsimp only
  cases Form.of i.mnemonic with
  | mov | binary code => exact validateTwo_respelled o o' i
  | lea => exact validateLea_respelled o o' i
  | push => exact validatePush_respelled o o' i
  | pop => exact validatePop_respelled o o' i
  | fixed => exact validateFixed_respelled o o' i
  | test => exact validateTest_respelled o o' i
  | group code | step code => exact validateOne_respelled o o' i
  | shift code => exact validateShift_respelled o o' i
  | branch => exact validateBranch_respelled o o' i

end Instruction

/-- **An operator with a letter for a width** stands for the mnemonic without it and for the width;
without it, for the mnemonic. -/
theorem Operator.find?_suffixed {m : Mnemonic} {w : Width}
    (h : (find? (m.name.push w.suffix)).isSome = true) :
    find? m.name = some (m, none) ∧ find? (m.name.push w.suffix) = some (m, some w) := by
  have hall : ∀ m ∈ Mnemonic.all, ∀ w ∈ Width.all,
      (find? (m.name.push w.suffix)).isSome = true →
        find? m.name = some (m, none) ∧ find? (m.name.push w.suffix) = some (m, some w) := by
    decide +kernel
  exact hall m m.mem_all w w.mem_all h

/-- **The letter for the width of a register** may be left out: the instruction is the same, or the
complaint is. -/
theorem Instruction.ofRaw_respelled {o o' : String} {m : Mnemonic} {w : Width}
    {raw : List RawOperand} (hbare : Operator.find? o = some (m, none))
    (hfixed : Operator.find? o' = some (m, some w))
    (hsized : ∀ ops, raw.mapM RawOperand.resolve = .ok ops → ∃ r, m.SizedBy ops r ∧ r.width = w) :
    Respelled o' ((fun i => { i with operator := o' }) <$> ofRaw o raw) (ofRaw o' raw) := by
  rw [ofRaw, hbare, ofRaw, hfixed]
  simp only [map_bind]
  refine .bind (.refl (.mapM fun raw _ => raw.resolve_raises)) fun ops hops => ?_
  obtain ⟨r, hr, rfl⟩ := hsized ops hops
  refine .bind (inferWidth_respelled o o' hr) fun w _ => ?_
  exact .bind (validate_respelled o o' ⟨m, w, ops⟩) fun _ _ => rfl

/-- **The width of an instruction is inferred.** An instruction that is built has the width of each
of its registers but for the count of a shift, and the one that its operator fixes, and without
either it is a long. Operands whose registers differ in width, from each other or from the operator,
make none. So a letter for the width of a register may be left out: with and without it, the bytes
are the same, or the complaint is. -/
theorem widths_inferred (raw : List RawOperand) :
    (∀ operator m implied, Operator.find? operator = some (m, implied) →
      (∀ i, Instruction.ofRaw operator raw = .ok i →
        raw.mapM RawOperand.resolve = .ok i.instr.operands ∧ i.instr.mnemonic = m ∧
        (∀ r, m.SizedBy i.instr.operands r → r.width = i.instr.width) ∧
        (∀ w, implied = some w → w = i.instr.width) ∧
        ((∀ r, ¬ m.SizedBy i.instr.operands r) → implied = none → i.instr.width = .long)) ∧
      ∀ ops, raw.mapM RawOperand.resolve = .ok ops →
        ((∃ r s, m.SizedBy ops r ∧ m.SizedBy ops s ∧ r.width ≠ s.width) ∨
          ∃ r w, m.SizedBy ops r ∧ implied = some w ∧ r.width ≠ w) →
        ∃ c, Instruction.ofRaw operator raw = .error c ∧ c.kind = .invalidOperandSize) ∧
    ∀ (m : Mnemonic) (w : Width) operator, m.name.push w.suffix = operator →
      (Operator.find? operator).isSome = true →
      (∀ ops, raw.mapM RawOperand.resolve = .ok ops → ∃ r, m.SizedBy ops r ∧ r.width = w) →
      (∃ i i', Instruction.ofRaw m.name raw = .ok i ∧ Instruction.ofRaw operator raw = .ok i' ∧
        i' = { i with operator } ∧ ∀ layout index,
          (Statement.instruction i').bytes layout index =
            (Statement.instruction i).bytes layout index) ∨
      ∃ c c', Instruction.ofRaw m.name raw = .error c ∧ Instruction.ofRaw operator raw = .error c' ∧
        c' = c.spelledAs operator ∧ c'.kind = c.kind := by
  refine ⟨fun operator m implied hfind => ⟨fun i hi => ?_, fun ops hops =>
    Instruction.ofRaw_clash hfind hops⟩, ?_⟩
  · obtain ⟨m', implied', ops, w, hfind', hops, hw, -, rfl⟩ := Instruction.ofRaw_ok_iff.mp hi
    cases hfind.symm.trans hfind'
    obtain ⟨hreg, himplied, hlong⟩ := inferWidth_ok hw
    refine ⟨hops, rfl, fun r hr => hreg r (Mnemonic.sizedBy_iff.mp hr), himplied, fun hno => ?_⟩
    exact hlong fun r hr => hno r (Mnemonic.sizedBy_iff.mpr hr)
  · rintro m w operator rfl hsome hsized
    obtain ⟨hbare, hfixed⟩ := Operator.find?_suffixed hsome
    have hsame := Instruction.ofRaw_respelled hbare hfixed hsized
    cases hi : Instruction.ofRaw m.name raw with
    | ok i =>
      rw [hi] at hsame
      refine .inl ⟨i, _, rfl, hsame, rfl, fun layout index => ?_⟩
      -- both have the code of the same encoding, which is selected by the operands
      obtain ⟨e, he⟩ := (Instruction.ofRaw_wellFormed hi).selects
      exact (Encoding.Selects.bytes_eq (i := ⟨m.name.push w.suffix, i.instr⟩) he layout index).trans
        (he.bytes_eq layout index).symm
    | error c =>
      rw [hi] at hsame
      exact .inr ⟨c, _, rfl, hsame, rfl, c.kind_spelledAs _⟩

/-- A counter, and the long that is shifted. -/
def counterAndLong : List RawOperand := [.reg "cl", .reg "eax"]

/-- The counter does not decide the width of a shift: with it, a long is shifted with the letter for
longs or without one, and not with the letter for words. -/
theorem widths_inferred_counterAndLong :
    (∃ i i', Instruction.ofRaw "shl" counterAndLong = .ok i ∧
      Instruction.ofRaw "shll" counterAndLong = .ok i' ∧ i.instr.width = .long ∧
        ∀ layout index, (Statement.instruction i').bytes layout index =
          (Statement.instruction i).bytes layout index) ∧
    ∃ c, Instruction.ofRaw "shlw" counterAndLong = .error c ∧ c.kind = .invalidOperandSize := by
  obtain ⟨hinferred, hletter⟩ := widths_inferred counterAndLong
  let eax : Reg := ⟨.long, 0⟩
  have hops : counterAndLong.mapM RawOperand.resolve = .ok [.reg .cl, .reg eax] := by
    decide +kernel
  have heax : (Mnemonic.shift .shl).SizedBy [.reg .cl, .reg eax] eax := ⟨1, rfl, by decide⟩
  have hlong : ∀ ops, counterAndLong.mapM RawOperand.resolve = .ok ops →
      ∃ r, (Mnemonic.shift .shl).SizedBy ops r ∧ r.width = .long := by
    intro ops h
    cases hops.symm.trans h
    exact ⟨eax, heax, rfl⟩
  constructor
  · rcases hletter (.shift .shl) .long "shll" rfl (by decide +kernel) hlong with
      ⟨i, i', hi, hi', -, hbytes⟩ | ⟨c, -, hc, -⟩
    · refine ⟨i, i', hi, hi', ?_, hbytes⟩
      obtain ⟨hraw, -, hsized, -⟩ := (hinferred "shl" (.shift .shl) none (by decide +kernel)).1 i hi
      rw [← Except.ok.inj (hops.symm.trans hraw)] at hsized
      exact (hsized eax heax).symm
    · have hok : (Instruction.ofRaw (Mnemonic.shift .shl).name counterAndLong).isOk = true := by
        decide +kernel
      rw [hc] at hok
      cases hok
  · refine (hinferred "shlw" (.shift .shl) (some .word) (by decide +kernel)).2 _ hops ?_
    exact .inr ⟨eax, .word, heax, rfl, by decide⟩

end Ia32
