import Ia32.Assembly.Program
import Ia32.Proofs.Failure

/-!
# Which step complains of what

* `Stage`, `Cause.stage`: the step of assembling that a cause belongs to;
* `Source.read_raises`: what is read is malformed or well formed;
* `Instruction.ofRaw_raises`, `Directive.ofValues_raises`, `Program.build_raises`: what is wrong
  with a statement by itself.
-/

set_option autoImplicit false

namespace Ia32

/-! ## Steps -/

/-- The steps of assembling. -/
inductive Stage where
  | reading
  | building
  | encoding
  /-- The comparison of the code with the length that was foreseen. -/
  | checking
  deriving DecidableEq

/-- The step that complains of a cause. -/
def Cause.stage : Cause → Stage
  | unexpected _ | unbalanced _ | emptyOperand _ | noRegister _ | unclosedAddress _
  | longAddress _ | noOperand _ | noNumber _ => .reading
  | unknownOperator _ | unknownDirective _ | unknownRegister _ | narrowAddress _
  | absoluteAddress _ | invalidScale _ | rejected _ _ | twoInMemory _ | byteWidth _
  | longCount _ _ | registersDiffer _ _ _ | widthDiffers _ _ _ | longValue _ _ _
  | arity _ _ _ _ | missingOperand _ | notBranch _ | noFixedOpcode _ | noValues _ => .building
  | encoding _ | undefinedLabel _ => .encoding
  | lengthDiffers _ _ _ => .checking

/-! ## Reading -/

theorem readNumber_raises (cs : List Char) : Raises (·.stage = .reading) (readNumber cs) := by
  unfold readNumber
  split
  · exact .ok
  · exact .error rfl

theorem splitArgs_raises (cs : List Char) : Raises (·.stage = .reading) (splitArgs cs) := by
  unfold splitArgs
  dsimp only
  repeat' split
  all_goals first | exact .ok | exact .error rfl

theorem readRegister_raises (cs : List Char) : Raises (·.stage = .reading) (readRegister cs) := by
  unfold readRegister
  repeat' split
  all_goals first | exact .ok | exact .error rfl

theorem readPart_raises {α : Type} {read : List Char → Except Cause α}
    (h : ∀ cs, Raises (·.stage = .reading) (read cs)) (cs : Option (List Char)) :
    Raises (·.stage = .reading) (readPart read cs) := by
  rcases cs with _ | _ | ⟨c, cs⟩
  · exact .ok
  · exact .ok
  · exact (h _).map

theorem readAddress_raises (whole offset inner : List Char) :
    Raises (·.stage = .reading) (readAddress whole offset inner) := by
  refine .guard rfl fun _ => ?_
  refine .bind (readPart_raises readNumber_raises _).map fun _ _ => ?_
  refine .guard rfl fun _ => ?_
  refine .bind (readPart_raises readRegister_raises _) fun _ _ => ?_
  refine .bind (readPart_raises readRegister_raises _) fun _ _ => ?_
  exact .bind (readPart_raises readNumber_raises _) fun _ _ => .ok

theorem readOperand_raises (cs : List Char) : Raises (·.stage = .reading) (readOperand cs) := by
  unfold readOperand
  split
  · exact (readRegister_raises _).map
  · exact (readNumber_raises _).map
  · split
    · exact readAddress_raises _ _ _
    · split
      · exact (readNumber_raises _).map
      · split
        · exact .ok
        · exact .error rfl

theorem readBody_raises (cs : List Char) : Raises (·.stage = .reading) (readBody cs) := by
  unfold readBody
  dsimp only
  split
  · refine .bind (splitArgs_raises _) fun _ _ => ?_
    exact .bind (.mapM fun _ _ => readNumber_raises _) fun _ _ => .ok
  · refine .guard rfl fun _ => ?_
    refine .bind (splitArgs_raises _) fun _ _ => ?_
    exact .bind (.mapM fun _ _ => readOperand_raises _) fun _ _ => .ok

theorem Line.read_raises (cs : List Char) : Raises (·.stage = .reading) (Line.read cs) := by
  unfold Line.read
  dsimp only
  split
  · exact .ok
  · exact .bind (readBody_raises _) fun _ _ => .ok

theorem readLines_raises (n : Nat) (ls : List (List Char)) :
    Raises (·.cause.stage = .reading) (readLines n ls) := by
  induction ls generalizing n with
  | nil => exact .ok
  | cons l ls ih =>
    exact .bind (Line.read_raises l).onLine fun _ _ => .bind (ih (n + 1)) fun _ _ => .ok

theorem Source.read_raises (text : String) :
    Raises (·.cause.stage = .reading) (Source.read text) := (readLines_raises _ _).map

/-! ## Names -/

/-- The complaints about one operand. -/
def Cause.IsOfOperand : Cause → Prop
  | unknownRegister _ | narrowAddress _ | absoluteAddress _ | invalidScale _ => True
  | _ => False

theorem findRegister_raises (name : String) : Raises Cause.IsOfOperand (findRegister name) := by
  unfold findRegister
  split
  · exact .ok
  · exact .error trivial

theorem findAddressRegister_raises (name : String) :
    Raises Cause.IsOfOperand (findAddressRegister name) := by
  refine .bind (findRegister_raises name) fun r _ => ?_
  by_cases hw : r.width = .long
  · rw [if_pos hw]
    exact .ok
  · rw [if_neg hw]
    exact .error trivial

theorem findPart_raises (name : Option String) : Raises Cause.IsOfOperand (findPart name) := by
  cases name with
  | none => exact .ok
  | some name => exact (findAddressRegister_raises name).map

theorem findScale_raises (factor : Option Int) : Raises Cause.IsOfOperand (findScale factor) := by
  unfold findScale
  repeat' split
  all_goals first | exact .ok | exact .error trivial

theorem RawOperand.resolve_raises (raw : RawOperand) : Raises Cause.IsOfOperand raw.resolve := by
  cases raw with
  | reg name => exact (findRegister_raises name).map
  | imm n | label name => exact .ok
  | mem base offset index scale =>
    refine .bind (findPart_raises base) fun _ _ => .bind (findPart_raises index) fun _ _ => ?_
    exact .guard trivial fun _ => .bind (findScale_raises scale) fun _ _ => .ok

theorem Cause.IsOfOperand.stage {c : Cause} (h : c.IsOfOperand) : c.stage = .building := by
  cases c <;> first | rfl | exact h.elim

/-! ## Widths -/

theorem commonRegister_raises (operator : String) (found : Option Reg) (rs : List Reg) :
    Raises (·.stage = .building) (commonRegister operator found rs) := by
  induction rs generalizing found with
  | nil => exact .ok
  | cons r rs ih =>
    unfold commonRegister
    repeat' split
    all_goals first | exact ih _ | exact .error rfl

theorem inferWidth_raises (operator : String) (m : Mnemonic) (ops : List Operand)
    (implied : Option Width) :
    Raises (·.stage = .building) (inferWidth operator m ops implied) := by
  refine .bind (commonRegister_raises _ _ _) fun found _ => ?_
  repeat' split
  all_goals first | exact .ok | exact .error rfl

/-! ## Checks of the families -/

namespace Instruction

variable (i : Instruction)

theorem expectArity_raises (least most : Nat) :
    Raises (·.stage = .building) (i.expectArity least most) := by
  unfold expectArity
  split
  · exact .ok
  · exact .error rfl

theorem source_raises : Raises (·.stage = .building) i.source := by
  unfold source
  split
  · exact .ok
  · exact .error rfl

theorem destination_raises : Raises (·.stage = .building) i.destination := by
  unfold destination
  split
  · exact .ok
  · exact .error rfl

theorem atLeastWord_raises : Raises (·.stage = .building) i.atLeastWord := by
  unfold atLeastWord
  split
  · exact .error rfl
  · exact .ok
  · exact .ok

theorem validateTwo_raises : Raises (·.stage = .building) i.validateTwo := by
  refine .bind (i.expectArity_raises 2 2) fun _ _ => .bind i.source_raises fun src _ => ?_
  refine .bind i.destination_raises fun dst _ => .guard rfl fun _ => ?_
  repeat' split
  all_goals first | exact .ok | exact .error rfl

theorem validateOne_raises : Raises (·.stage = .building) i.validateOne := by
  refine .bind (i.expectArity_raises 1 1) fun _ _ => .bind i.destination_raises fun dst _ => ?_
  split
  · exact .ok
  · exact .error rfl

theorem validateTest_raises : Raises (·.stage = .building) i.validateTest := by
  refine .bind (i.expectArity_raises 2 2) fun _ _ => .bind i.source_raises fun src _ => ?_
  refine .bind i.destination_raises fun dst _ => .guard rfl fun _ => ?_
  split
  all_goals first | exact .ok | exact .error rfl

theorem validateLea_raises : Raises (·.stage = .building) i.validateLea := by
  refine .bind (i.expectArity_raises 2 2) fun _ _ => .bind i.source_raises fun src _ => ?_
  refine .bind i.destination_raises fun dst _ => .guard rfl fun _ => .guard rfl fun _ => ?_
  exact i.atLeastWord_raises

theorem validatePush_raises : Raises (·.stage = .building) i.validatePush := by
  refine .bind (i.expectArity_raises 1 1) fun _ _ => .bind i.atLeastWord_raises fun _ _ => ?_
  refine .bind i.source_raises fun src _ => ?_
  split
  · exact .error rfl
  · exact .ok

theorem validatePop_raises : Raises (·.stage = .building) i.validatePop := by
  refine .bind (i.expectArity_raises 1 1) fun _ _ => .bind i.atLeastWord_raises fun _ _ => ?_
  refine .bind i.destination_raises fun dst _ => ?_
  split
  · exact .ok
  · exact .error rfl

theorem validateFixed_raises : Raises (·.stage = .building) i.validateFixed := by
  refine .bind (i.expectArity_raises 0 0) fun _ _ => .map ?_
  unfold fixedOpcode
  split
  · exact .ok
  · exact .error rfl

theorem counter_raises : Raises (·.stage = .building) i.counter := by
  unfold counter
  split
  · exact .ok
  · refine .bind i.source_raises fun src _ => ?_
    repeat' split
    all_goals first | exact .ok | exact .error rfl

theorem validateShift_raises : Raises (·.stage = .building) i.validateShift := by
  refine .bind (i.expectArity_raises 1 2) fun _ _ => .bind i.destination_raises fun dst _ => ?_
  split
  · exact i.counter_raises.map
  · exact .error rfl

theorem validateBranch_raises : Raises (·.stage = .building) i.validateBranch := by
  refine .bind (i.expectArity_raises 1 1) fun _ _ => .bind i.destination_raises fun dst _ => ?_
  split
  · exact .ok
  · exact .error rfl

theorem validate_raises : Raises (·.stage = .building) i.validate := by
  unfold validate
  split
  · exact i.validateTwo_raises
  · exact i.validateTwo_raises
  · exact i.validateLea_raises
  · exact i.validatePush_raises
  · exact i.validatePop_raises
  · exact i.validateFixed_raises
  · exact i.validateTest_raises
  · exact i.validateOne_raises
  · exact i.validateOne_raises
  · exact i.validateShift_raises
  · exact i.validateBranch_raises

end Instruction

/-! ## Statements -/

theorem Instruction.ofRaw_raises (operator : String) (raw : List RawOperand) :
    Raises (·.stage = .building) (ofRaw operator raw) := by
  unfold ofRaw
  split
  · refine .bind (.mapM fun raw _ => raw.resolve_raises.mono fun _ h => h.stage) fun _ _ => ?_
    refine .bind (inferWidth_raises _ _ _ _) fun _ _ => ?_
    exact .bind (validate_raises _) fun _ _ => .ok
  · exact .error rfl

theorem Directive.ofValues_raises (name : String) (values : List Int) :
    Raises (·.stage = .building) (ofValues name values) := by
  unfold ofValues
  split
  · refine .guard rfl fun _ => ?_
    split
    · exact .error rfl
    · exact .ok
  · exact .error rfl

theorem Statement.ofBody_raises (body : RawBody) : Raises (·.stage = .building) (ofBody body) := by
  cases body with
  | instruction operator raw => exact (Instruction.ofRaw_raises operator raw).map
  | directive name values => exact (Directive.ofValues_raises name values).map

theorem Program.build_raises (raw : List RawStatement) :
    Raises (·.cause.stage = .building) (build raw) :=
  .mapM fun s _ => .bind (Statement.ofBody_raises s.body).onLine fun _ _ => .ok

end Ia32
