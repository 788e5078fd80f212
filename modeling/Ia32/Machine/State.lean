import Ia32.Machine.Alu
import Ia32.Machine.Decode

/-!
# Machines

A machine has registers, flags, a memory, and a range of addresses that holds its program.

* `Machine`: the state; `Machine.new`: a machine without a program;
* `Machine.effectiveAddress`, `Machine.readOperand`: operands;
* `Pc`, `Pc.load`: a machine that is set up anew for every program, and one with a program;
* `Action`: what changes a machine, and can fail after it has changed it;
* `Action.write`, `Action.push`, `Action.pop`: operands and the stack.
-/

set_option autoImplicit false

namespace Ia32

/-! ## State -/

/-- The range of addresses of a program, from its first up to its end. -/
structure AddressRange where
  first : Long := 0
  finish : Long := 0
  deriving DecidableEq

/-- Whether an address lies in a range. -/
def AddressRange.contains (r : AddressRange) (a : Long) : Bool :=
  r.first.toNat ≤ a.toNat && a.toNat < r.finish.toNat

/-- The state of a machine. -/
structure Machine where
  registers : Registers := {}
  flags : Flags := {}
  memory : Memory
  program : AddressRange := {}
  deriving DecidableEq

namespace Machine

/-- A machine with an empty memory of a size, and no program. -/
def new (size : Long) : Machine := { memory := .zeros size.toNat }

/-- The value of a register. -/
def get (m : Machine) (r : Reg) : Long := m.registers.get r

/-- Gives a register a value. -/
def set (m : Machine) (r : Reg) (v : Long) : Machine :=
  { m with registers := m.registers.set r v }

/-- The instruction pointer. -/
def eip (m : Machine) : Long := m.registers.eip

/-- Moves the instruction pointer. -/
def setEip (m : Machine) (v : Long) : Machine :=
  { m with registers := { m.registers with eip := v } }

/-! ## Operands -/

/-- The address that an operand in memory stands for. -/
def effectiveAddress (m : Machine) (ref : MemRef) : Long :=
  let base := match ref.base with
    | some r => m.get r
    | none => 0
  let index := match ref.index with
    | some r => m.get r * BitVec.ofNat 32 ref.scale.factor
    | none => 0
  base + index + BitVec.ofInt 32 ref.offset

/-- The value of an operand. -/
def readOperand (m : Machine) (op : Operand) (w : Width) : Except Fault Long :=
  match op with
  | .reg r => .ok (m.get r &&& w.mask)
  | .imm n => .ok (w.truncate n)
  | .mem ref => m.memory.read (m.effectiveAddress ref) w
  | .label name => .error (.unresolvedLabel name)

end Machine

/-! ## Loading -/

/-- A machine that is set up anew for every program, with a memory of the same size each time. -/
structure Pc where
  memorySize : Long
  machine : Machine
  deriving DecidableEq

namespace Pc

/-- A machine with an empty memory of a size, and no program. -/
def new (size : Long) : Pc := ⟨size, .new size⟩

/-- The machine with nothing but a program in memory. It starts at an offset in the program, with
the stack at the end of memory. -/
def load (pc : Pc) (code : List Byte) (address offset : Long) : Except Fault Pc := do
  let fresh := Machine.new pc.memorySize
  if pc.memorySize.toNat < address.toNat + code.length then throw .codeTooLarge
  let memory ← fresh.memory.load address code
  let program : AddressRange := ⟨address, address + BitVec.ofNat 32 code.length⟩
  let machine := { fresh with memory, program }.setEip (address + offset)
  return { pc with machine := machine.set .esp pc.memorySize }

end Pc

/-! ## Actions -/

/-- What changes a machine. When it fails, the machine stays as the failure left it. -/
abbrev Action := EStateM Fault Machine

namespace Action

/-- What a look at the machine gives. -/
def look {α : Type} (f : Machine → Except Fault α) : Action α := do
  match f (← get) with
  | .ok a => return a
  | .error e => throw e

/-- Puts a value in place in memory. -/
def store (address : Long) (w : Width) (v : Long) : Action Unit := do
  if (← get).memory.covers address w.bytes then
    modify fun m => { m with memory := m.memory.store address (littleEndian w.bytes v) }
  else throw (.illegalAccess address w.bytes)

/-- The value of an operand. -/
def read (op : Operand) (w : Width) : Action Long := look fun m => m.readOperand op w

/-- Gives an operand a value. -/
def write (op : Operand) (w : Width) (v : Long) : Action Unit :=
  match op with
  | .reg r => modify fun m => m.set r (v &&& w.mask)
  | .mem ref => do store ((← get).effectiveAddress ref) w (v &&& w.mask)
  | op => throw (.notWritable op.kind)

/-- Sets the flags that an operation sets. -/
def update (u : FlagUpdate) : Action Unit := modify fun m => { m with flags := u.apply m.flags }

/-- Puts a value on the stack. The stack pointer moves before the value is written. -/
def push (w : Width) (v : Long) : Action Unit := do
  let esp := (← get).get .esp
  if esp.toNat < w.bytes then throw .stackOverflow
  let esp := esp - BitVec.ofNat 32 w.bytes
  modify fun m => m.set .esp esp
  store esp w v

/-- Takes a value off the stack. -/
def pop (w : Width) : Action Long := do
  let esp := (← get).get .esp
  if !(← get).memory.covers esp w.bytes then throw .stackUnderflow
  let v ← look fun m => m.memory.read esp w
  modify fun m => m.set .esp (esp + BitVec.ofNat 32 w.bytes)
  return v

end Action

end Ia32
