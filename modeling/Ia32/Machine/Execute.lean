import Ia32.Machine.State

/-!
# Execution

Instructions are executed by families. A family is handed instructions of some mnemonics only, and
refuses all others as not supported.

* `Action.performMove`, `Action.performBinary` and so on: the effects of the families;
* `Action.perform`, `Action.execute`: the effect of one instruction;
* `Machine.fetch`: the instruction at the instruction pointer;
* `Action.step`: one instruction fetched and executed;
* `Machine.run`: a number of steps, with what is observed after each of them; `Ending`: why a run is
  over.
-/

set_option autoImplicit false

namespace Ia32

/-! ## Operands -/

/-- The first operand, which an instruction must have. -/
def Instr.source (i : Instr) : Action Operand :=
  match i.source? with
  | some op => return op
  | none => throw (.missingOperand i)

/-- The last operand, which an instruction must have. -/
def Instr.destination (i : Instr) : Action Operand :=
  match i.destination? with
  | some op => return op
  | none => throw (.missingOperand i)

namespace Action

/-! ## Moves -/

/-- `mov` and `lea`. -/
def performMove (i : Instr) : Action Unit := do
  let src ← i.source
  let v ← match i.mnemonic, src with
    | .mov, op => read op i.width
    | .lea, .mem ref => do pure ((← get).effectiveAddress ref)
    | _, _ => throw (.unsupported i)
  write (← i.destination) i.width v

/-! ## Arithmetic -/

/-- The operations of two operands. A comparison and a test write no result. -/
def performBinary (i : Instr) : Action Unit := do
  let dst ← i.destination
  let b ← read (← i.source) i.width
  let a ← read dst i.width
  let carry := (← get).flags.carry
  let (res, flags) ← match i.mnemonic with
    | .alu .add => pure (Alu.add a b false i.width)
    | .alu .adc => pure (Alu.add a b carry i.width)
    | .alu .sub | .alu .cmp => pure (Alu.sub a b false i.width)
    | .alu .sbb => pure (Alu.sub a b carry i.width)
    | .alu .and | .test => pure (Alu.logic (a &&& b) i.width)
    | .alu .or => pure (Alu.logic (a ||| b) i.width)
    | .alu .xor => pure (Alu.logic (a ^^^ b) i.width)
    | _ => throw (.unsupported i)
  if i.mnemonic ≠ .alu .cmp ∧ i.mnemonic ≠ .test then write dst i.width res
  update flags

/-- The complement of a number. It sets no flags. -/
def complement (a : Long) (w : Width) : Long × FlagUpdate := (~~~a &&& w.mask, {})

/-- The operations of one operand that replace it. -/
def performUnary (i : Instr) : Action Unit := do
  let dst ← i.destination
  let a ← read dst i.width
  let (res, flags) ← match i.mnemonic with
    | .unary .not => pure (complement a i.width)
    | .unary .neg => pure (Alu.neg a i.width)
    | .inc => pure (Alu.inc a i.width)
    | .dec => pure (Alu.dec a i.width)
    | _ => throw (.unsupported i)
  write dst i.width res
  update flags

/-- The registers of the low and the high half of a number of twice a width. -/
def halves : Width → Reg × Reg
  | .byte => (.al, .ah)
  | .word => (.ax, .dx)
  | .long => (.eax, .edx)

/-- Gives the two halves values. -/
def setHalves (w : Width) (low high : Long) : Action Unit :=
  modify fun m => (m.set (halves w).1 low).set (halves w).2 high

/-- Sets the carry and overflow flags. -/
def setCarryOverflow (b : Bool) : Action Unit :=
  modify fun m => { m with flags := { m.flags with carry := b, overflow := b } }

/-- The halves of a product of numbers without signs. -/
def product (a b : Long) (w : Width) : Long × Long × Bool :=
  let product := a.toNat * b.toNat
  let high := BitVec.ofNat 32 (product >>> w.bits) &&& w.mask
  (BitVec.ofNat 32 product &&& w.mask, high, high != 0)

/-- The halves of a product of numbers with signs. -/
def signedProduct (a b : Long) (w : Width) : Long × Long × Bool :=
  let product := w.signed a * w.signed b
  let low := w.truncate product
  (low, w.truncate (product >>> w.bits), w.signed low != product)

/-- A product of the accumulator, into the two halves. The carry and overflow flags tell whether
the low half is less than the product. -/
def performMultiply (i : Instr) : Action Unit := do
  let b ← read (← i.destination) i.width
  let a := (← get).get (halves i.width).1
  let (low, high, overflow) ← match i.mnemonic with
    | .unary .mul => pure (product a b i.width)
    | .unary .imul => pure (signedProduct a b i.width)
    | _ => throw (.unsupported i)
  setHalves i.width low high
  setCarryOverflow overflow

/-- The quotient and the remainder of numbers without signs. -/
def quotient (dividend : Nat) (divisor : Long) (w : Width) : Except Fault (Long × Long) :=
  let q := dividend / divisor.toNat
  if w.mask.toNat < q then .error .quotientTooLarge
  else .ok (BitVec.ofNat 32 q, BitVec.ofNat 32 (dividend % divisor.toNat))

/-- The quotient, rounded toward zero, and the remainder of numbers with signs. -/
def signedQuotient (dividend : Nat) (divisor : Long) (w : Width) : Except Fault (Long × Long) :=
  let dividend := (BitVec.ofNat (2 * w.bits) dividend).toInt
  let q := dividend.tdiv (w.signed divisor)
  if w.signed (w.truncate q) = q then
    .ok (w.truncate q, w.truncate (dividend.tmod (w.signed divisor)))
  else .error .quotientTooLarge

/-- A quotient of the two halves, into the low one, and the remainder, into the high one. -/
def performDivide (i : Instr) : Action Unit := do
  let divisor ← read (← i.destination) i.width
  if divisor = 0 then throw .divisionByZero
  let m ← get
  let dividend := (m.get (halves i.width).2).toNat <<< i.width.bits +
    (m.get (halves i.width).1).toNat
  let (q, r) ← match i.mnemonic with
    | .unary .div => look fun _ => quotient dividend divisor i.width
    | .unary .idiv => look fun _ => signedQuotient dividend divisor i.width
    | _ => throw (.unsupported i)
  setHalves i.width q r

/-- Shifts and rotations. The count is taken modulo 32; alone, the destination is shifted once. -/
def performShift (i : Instr) : Action Unit := do
  let op ← match i.mnemonic with
    | .shift op => pure op
    | _ => throw (.unsupported i)
  let dst ← i.destination
  let count ← if i.operands.length = 1 then pure 1 else read (← i.source) .byte
  let a ← read dst i.width
  let (res, flags) := Alu.shift op a (count.toNat % 32) (← get).flags.carry i.width
  write dst i.width res
  update flags

/-! ## The stack -/

/-- `push` of an operand. -/
def pushOperand (i : Instr) : Action Unit := do
  push i.width (← read (← i.source) i.width)

/-- `pop` into an operand. Its address is found after the stack pointer has moved. -/
def popOperand (i : Instr) : Action Unit := do
  let v ← pop i.width
  write (← i.destination) i.width v

/-- The register numbers in the order in which they are pushed. -/
def pushOrder : List (BitVec 3) := Reg.codes

/-- Pushes values, the first first. -/
def pushAll (w : Width) : List Long → Action Unit
  | [] => return
  | v :: vs => do
    push w v
    pushAll w vs

/-- `pusha`: all registers, the stack pointer as it was before. -/
def pushRegisters (w : Width) : Action Unit := do
  let m ← get
  pushAll w (pushOrder.map fun c => m.get ⟨w, c⟩)

/-- Pops values into registers, all but the stack pointer. -/
def popInto (w : Width) : List (BitVec 3) → Action Unit
  | [] => return
  | c :: cs => do
    let v ← pop w
    if c ≠ Reg.esp.code then modify fun m => m.set ⟨w, c⟩ v
    popInto w cs

/-- `popa`: all registers but the stack pointer. -/
def popRegisters (w : Width) : Action Unit := popInto w pushOrder.reverse

/-- `pushf`. -/
def pushFlags (w : Width) : Action Unit := do
  push w (← get).flags.bits

/-- `popf`. The flags above a width stay as they were. -/
def popFlags (w : Width) : Action Unit := do
  let v ← pop w
  modify fun m => { m with flags := .ofBits ((m.flags.bits &&& ~~~w.mask) ||| v) }

/-- The instructions on the stack. -/
def performStack (i : Instr) : Action Unit :=
  match i.mnemonic with
  | .push => pushOperand i
  | .pop => popOperand i
  | .plain .pushf => pushFlags i.width
  | .plain .popf => popFlags i.width
  | .plain .pusha => pushRegisters i.width
  | .plain .popa => popRegisters i.width
  | _ => throw (.unsupported i)

/-! ## Branches -/

/-- A jump. -/
def jump (i : Instr) : Action Unit := do
  let target ← read (← i.destination) .long
  modify fun m => m.setEip target

/-- A jump if a condition holds. -/
def jumpIf (c : Cond) (i : Instr) : Action Unit := do
  if c.holds (← get).flags then jump i

/-- A jump that leaves the address of the next instruction on the stack. -/
def call (i : Instr) : Action Unit := do
  let target ← read (← i.destination) .long
  push .long (← get).eip
  modify fun m => m.setEip target

/-- A jump to the address on the stack. -/
def ret : Action Unit := do
  let target ← pop .long
  modify fun m => m.setEip target

/-- The instructions that go on elsewhere. -/
def performControl (i : Instr) : Action Unit :=
  match i.mnemonic with
  | .jmp => jump i
  | .call => call i
  | .plain .ret => ret
  | .jcc c => jumpIf c i
  | _ => throw (.unsupported i)

/-! ## Flags -/

/-- Changes the flags. -/
def setFlags (f : Flags → Flags) : Action Unit := modify fun m => { m with flags := f m.flags }

/-- The bits of the flags register that `lahf` copies. -/
abbrev lahfMask : Long := 0xD7

/-- The flags that `sahf` copies. -/
def sahfFlags (ah : Long) (f : Flags) : Flags :=
  let g := Flags.ofBits ah
  { f with
    sign := g.sign, zero := g.zero, auxiliary := g.auxiliary, parity := g.parity
    carry := g.carry }

/-- The instructions on flags. All others are left out without a fault. -/
def performFlag (i : Instr) : Action Unit :=
  match i.mnemonic with
  | .plain .stc => setFlags fun f => { f with carry := true }
  | .plain .clc => setFlags fun f => { f with carry := false }
  | .plain .cmc => setFlags fun f => { f with carry := !f.carry }
  | .plain .std => setFlags fun f => { f with direction := true }
  | .plain .cld => setFlags fun f => { f with direction := false }
  | .plain .sti => setFlags fun f => { f with interrupt := true }
  | .plain .cli => setFlags fun f => { f with interrupt := false }
  | .plain .lahf => modify fun m => m.set .ah (m.flags.bits &&& lahfMask)
  | .plain .sahf => modify fun m => { m with flags := sahfFlags (m.get .ah) m.flags }
  | _ => return

/-! ## All instructions -/

/-- The effect of an instruction. The instruction pointer is past it already. -/
def perform (i : Instr) : Action Unit :=
  match i.mnemonic with
  | .plain .nop => return
  | .mov | .lea => performMove i
  | .alu _ | .test => performBinary i
  | .unary .not | .unary .neg | .inc | .dec => performUnary i
  | .unary .mul | .unary .imul => performMultiply i
  | .unary .div | .unary .idiv => performDivide i
  | .shift _ => performShift i
  | .push | .pop | .plain .pushf | .plain .popf | .plain .pusha | .plain .popa => performStack i
  | .plain .stc | .plain .clc | .plain .cmc | .plain .std | .plain .cld | .plain .sti | .plain .cli
  | .plain .lahf | .plain .sahf => performFlag i
  | _ => performControl i

/-- The instruction that stops the machine. -/
def isStop (i : Instr) : Bool := i.mnemonic == .plain .nop

/-- Executes an instruction, and tells whether the machine goes on. -/
def execute (i : Instr) : Action Bool := do
  if isStop i then return false
  perform i
  return true

end Action

/-! ## Steps -/

/-- The number of bytes in which an instruction is looked for. -/
def windowLength : Nat := 10

/-- The instruction at the instruction pointer. There is none outside the program. -/
def Machine.fetch (m : Machine) : Except Fault (Option Decoded) :=
  if m.program.contains m.eip then decode (m.memory.window m.eip windowLength) m.eip
  else .ok none

/-- Executes the instruction at the instruction pointer, and gives it. There is none when the
machine stops: outside the program, at an instruction cut short, and at `nop`. -/
def Action.step : Action (Option Decoded) := do
  match ← look Machine.fetch with
  | none => return none
  | some d =>
    if isStop d.toInstr then return none
    modify fun m => m.setEip d.next
    perform d.toInstr
    return some d

/-! ## Runs -/

/-- Why a run is over. -/
inductive Ending where
  /-- The machine has stopped. -/
  | stopped
  /-- No more steps were allowed. -/
  | outOfSteps
  /-- The step at an address has failed. -/
  | failed (address : Long) (f : Fault)
  deriving DecidableEq

/-- A run: what was observed, its end, and the machine that it leaves. -/
structure Run (α : Type) where
  observed : List α
  ending : Ending
  final : Machine

/-- Runs a machine for a number of steps at most. After each instruction an observation is made. -/
def Machine.run {α : Type} (observe : Decoded → Machine → α) : Nat → Machine → Run α
  | 0, m => ⟨[], .outOfSteps, m⟩
  | n + 1, m =>
    match Action.step m with
    | .ok none m' => ⟨[], .stopped, m'⟩
    | .ok (some d) m' =>
      let rest := Machine.run observe n m'
      { rest with observed := observe d m' :: rest.observed }
    | .error f m' => ⟨[], .failed m.eip f, m'⟩

end Ia32
