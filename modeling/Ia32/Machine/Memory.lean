import Ia32.Instr

/-!
# Faults and memory

* `Fault`: why a machine cannot go on; `Fault.kind`, `Fault.text`: its kind and its wording;
* `Memory`: bytes from address zero on; `Memory.size`: how many;
* `Memory.read`, `Memory.write`: values, lowest byte first, that must lie inside;
* `Memory.load`: bytes put in place; `Memory.window`: the bytes that follow an address.
-/

set_option autoImplicit false

namespace Ia32

/-! ## Faults -/

/-- Why a machine cannot go on. -/
inductive Fault where
  | codeTooLarge
  | illegalAccess (address : Long) (length : Nat)
  /-- The bytes at the instruction pointer start no instruction. -/
  | undecodable (bytes : List Byte)
  | unsupported (i : Instr)
  | divisionByZero
  | quotientTooLarge
  | stackOverflow
  | stackUnderflow
  | missingOperand (i : Instr)
  | unresolvedLabel (name : String)
  | notWritable (kind : String)
  deriving DecidableEq

namespace Fault

/-- The word for the kind of a fault. -/
def kind : Fault → String
  | codeTooLarge => "LowMemoryError"
  | illegalAccess _ _ => "IllegalMemoryAccessError"
  | undecodable _ | unsupported _ => "InstructionNotSupportedError"
  | divisionByZero | quotientTooLarge => "DivideError"
  | stackOverflow | stackUnderflow | missingOperand _ | unresolvedLabel _ | notWritable _ =>
    "AssertionError"

/-- The wording of a fault. -/
def message : Fault → String
  | codeTooLarge => "Code size greater than available memory."
  | illegalAccess address length =>
    s!"Illegal memory access at address {address.toNat} for length {length}."
  | undecodable bytes => s!"Instruction {Text.hexBytes bytes} not yet supported."
  | unsupported i => s!"Instruction {i.text} not yet supported."
  | divisionByZero => "Division by zero."
  | quotientTooLarge => "Quotient too large for the destination."
  | stackOverflow => "Stack overflow!"
  | stackUnderflow => "Stack underflow!"
  | missingOperand i => s!"`{i.text}` is missing an operand"
  | unresolvedLabel name => s!"Unresolved label {name} at run time"
  | notWritable kind => s!"Invalid operand type for write: {kind}"

/-- The kind and the wording of a fault. -/
def text (f : Fault) : String := s!"{f.kind}: {f.message}"

end Fault

/-! ## Memory -/

/-- A memory. -/
structure Memory where
  bytes : Array Byte
  deriving DecidableEq

/-- Bytes put in place of those from an index on. Those beyond the end are dropped. -/
def storeBytes (mem : Array Byte) (start : Nat) : List Byte → Array Byte
  | [] => mem
  | b :: bs => storeBytes (mem.setIfInBounds start b) (start + 1) bs

namespace Memory

/-- A memory of zeros. -/
def zeros (size : Nat) : Memory := ⟨Array.replicate size 0⟩

/-- The number of bytes. -/
def size (m : Memory) : Nat := m.bytes.size

/-- Whether a range of addresses lies in memory. -/
def covers (m : Memory) (address : Long) (length : Nat) : Bool := address.toNat + length ≤ m.size

/-- The bytes that follow an address, up to a number of them or the end of memory. -/
def window (m : Memory) (address : Long) (count : Nat) : List Byte :=
  (m.bytes.extract address.toNat (address.toNat + count)).toList

/-- Puts bytes in place from an address on. Those beyond the end are dropped. -/
def store (m : Memory) (address : Long) (bs : List Byte) : Memory :=
  ⟨storeBytes m.bytes address.toNat bs⟩

/-- The value at an address. -/
def read (m : Memory) (address : Long) (w : Width) : Except Fault Long :=
  if m.covers address w.bytes then .ok (ofLittleEndian (m.window address w.bytes))
  else .error (.illegalAccess address w.bytes)

/-- Puts bytes in place from an address on, if all of them lie in memory. -/
def load (m : Memory) (address : Long) (bs : List Byte) : Except Fault Memory :=
  if m.covers address bs.length then .ok (m.store address bs)
  else .error (.illegalAccess address bs.length)

/-- Puts a value in place at an address. -/
def write (m : Memory) (address : Long) (w : Width) (v : Long) : Except Fault Memory :=
  m.load address (littleEndian w.bytes v)

/-- The bytes of memory in print. -/
def display (m : Memory) : List String := m.bytes.toList.map Text.hexByte

end Memory

end Ia32
