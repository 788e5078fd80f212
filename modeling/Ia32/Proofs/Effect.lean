import Ia32.Machine.Execute

/-!
# The effect of each instruction

A family of instructions is executed by one function, which looks at the mnemonic again where its
members differ and refuses what is not of the family. The dispatch hands each family its own
instructions only, so that what an instruction does can be said by its mnemonic alone.

* `Action.mov`, `Action.alu` and so on: what the members of a family do;
* `Action.effect`: what an instruction does;
* **`Action.perform_eq`**: an instruction that is dispatched has that effect, and no family refuses
  it but `lea`, whose first operand has to be in memory.
-/

set_option autoImplicit false

namespace Ia32

namespace Action

/-! ## Members of a family -/

/-- `mov`. -/
def mov (i : Instr) : Action Unit := do
  let v ← read (← i.source) i.width
  write (← i.destination) i.width v

/-- `lea`. -/
def lea (i : Instr) : Action Unit := do
  match ← i.source with
  | .mem ref =>
    let address := (← get).effectiveAddress ref
    write (← i.destination) i.width address
  | _ => throw (.unsupported i)

/-- The result of an operation on a destination `a` and a source `b`. -/
def aluResult (op : AluOp) (a b : Long) (carry : Bool) (w : Width) : Long × FlagUpdate :=
  match op with
  | .add => Alu.add a b false w
  | .adc => Alu.add a b carry w
  | .sub | .cmp => Alu.sub a b false w
  | .sbb => Alu.sub a b carry w
  | .and => Alu.logic (a &&& b) w
  | .or => Alu.logic (a ||| b) w
  | .xor => Alu.logic (a ^^^ b) w

/-- The operations of two operands. A comparison writes no result. -/
def alu (op : AluOp) (i : Instr) : Action Unit := do
  let dst ← i.destination
  let b ← read (← i.source) i.width
  let a ← read dst i.width
  let (res, flags) := aluResult op a b (← get).flags.carry i.width
  if op ≠ .cmp then write dst i.width res
  update flags

/-- `test`: a conjunction that writes no result. -/
def test (i : Instr) : Action Unit := do
  let dst ← i.destination
  let b ← read (← i.source) i.width
  let a ← read dst i.width
  update (Alu.logic (a &&& b) i.width).2

/-- The operations of one operand that replace it. -/
def replace (f : Long → Width → Long × FlagUpdate) (i : Instr) : Action Unit := do
  let dst ← i.destination
  let a ← read dst i.width
  let (res, flags) := f a i.width
  write dst i.width res
  update flags

/-- The products of the accumulator. -/
def multiply (product : Long → Long → Width → Long × Long × Bool) (i : Instr) : Action Unit := do
  let b ← read (← i.destination) i.width
  let a := (← get).get (halves i.width).1
  let (low, high, overflow) := product a b i.width
  setHalves i.width low high
  setCarryOverflow overflow

/-- The quotients of the two halves. -/
def divide (quotient : Nat → Long → Width → Except Fault (Long × Long)) (i : Instr) :
    Action Unit := do
  let divisor ← read (← i.destination) i.width
  if divisor = 0 then throw .divisionByZero
  let m ← get
  let dividend := (m.get (halves i.width).2).toNat <<< i.width.bits +
    (m.get (halves i.width).1).toNat
  match quotient dividend divisor i.width with
  | .ok (q, r) => setHalves i.width q r
  | .error e => throw e

/-- The operations of one operand in the third opcode group. -/
def unary (op : UnaryOp) (i : Instr) : Action Unit :=
  match op with
  | .not => replace complement i
  | .neg => replace Alu.neg i
  | .mul => multiply product i
  | .imul => multiply signedProduct i
  | .div => divide quotient i
  | .idiv => divide signedQuotient i

/-- Shifts and rotations. -/
def shift (op : ShiftOp) (i : Instr) : Action Unit := do
  let dst ← i.destination
  let count ← if i.operands.length = 1 then pure 1 else read (← i.source) .byte
  let a ← read dst i.width
  let (res, flags) := Alu.shift op a (count.toNat % 32) (← get).flags.carry i.width
  write dst i.width res
  update flags

/-- The instructions without operands. -/
def plain (op : PlainOp) (w : Width) : Action Unit :=
  match op with
  | .pushf => pushFlags w
  | .popf => popFlags w
  | .pusha => pushRegisters w
  | .popa => popRegisters w
  | .ret => ret
  | .nop => return
  | .stc => setFlags fun f => { f with carry := true }
  | .clc => setFlags fun f => { f with carry := false }
  | .cmc => setFlags fun f => { f with carry := !f.carry }
  | .std => setFlags fun f => { f with direction := true }
  | .cld => setFlags fun f => { f with direction := false }
  | .sti => setFlags fun f => { f with interrupt := true }
  | .cli => setFlags fun f => { f with interrupt := false }
  | .lahf => modify fun m => m.set .ah (m.flags.bits &&& lahfMask)
  | .sahf => modify fun m => { m with flags := sahfFlags (m.get .ah) m.flags }

/-- The effect of an instruction, by its mnemonic. -/
def effect (i : Instr) : Action Unit :=
  match i.mnemonic with
  | .mov => mov i
  | .lea => lea i
  | .push => pushOperand i
  | .pop => popOperand i
  | .alu op => alu op i
  | .test => test i
  | .unary op => unary op i
  | .inc => replace Alu.inc i
  | .dec => replace Alu.dec i
  | .shift op => shift op i
  | .jmp => jump i
  | .jcc c => jumpIf c i
  | .call => call i
  | .plain op => plain op i.width

/-! ## Families and their members -/

variable {w : Width} {ops : List Operand}

theorem performMove_lea : performMove ⟨.lea, w, ops⟩ = lea ⟨.lea, w, ops⟩ := by
  unfold performMove lea
  congr 1
  funext op
  cases op <;> rfl

theorem performBinary_alu (op : AluOp) :
    performBinary ⟨.alu op, w, ops⟩ = alu op ⟨.alu op, w, ops⟩ := by
  cases op <;> rfl

theorem look_quotient (x : Except Fault (Long × Long)) :
    (do
      let (q, r) ← look fun _ => x
      setHalves w q r) =
    match x with
    | .ok (q, r) => setHalves w q r
    | .error e => throw e := by
  cases x <;> rfl

theorem performDivide_div : performDivide ⟨.unary .div, w, ops⟩ =
    divide quotient ⟨.unary .div, w, ops⟩ := by
  simp only [performDivide, divide, look_quotient]

theorem performDivide_idiv : performDivide ⟨.unary .idiv, w, ops⟩ =
    divide signedQuotient ⟨.unary .idiv, w, ops⟩ := by
  simp only [performDivide, divide, look_quotient]

theorem perform_unary (op : UnaryOp) :
    perform ⟨.unary op, w, ops⟩ = unary op ⟨.unary op, w, ops⟩ := by
  cases op with
  | not | neg | mul | imul => rfl
  | div => exact performDivide_div
  | idiv => exact performDivide_idiv

theorem perform_plain (op : PlainOp) : perform ⟨.plain op, w, ops⟩ = plain op w := by
  cases op <;> rfl

/-! ## All instructions -/

/-- **An instruction has the effect of its mnemonic.** What the families refuse, they are not
handed. -/
theorem perform_eq (i : Instr) : perform i = effect i := by
  obtain ⟨m, w, ops⟩ := i
  cases m with
  | lea => exact performMove_lea
  | alu op => exact performBinary_alu op
  | unary op => exact perform_unary op
  | plain op => exact perform_plain op
  | mov | push | pop | test | inc | dec | shift op | jmp | jcc c | call => rfl

theorem execute_eq {i : Instr} (hi : isStop i = false) :
    execute i = effect i >>= fun _ => pure true := by
  rw [← perform_eq]
  exact if_neg (ne_true_of_eq_false hi)

end Action

end Ia32
