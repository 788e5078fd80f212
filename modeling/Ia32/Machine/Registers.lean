import Ia32.Mnemonic
import Ia32.Register
import Ia32.Text.Format

/-!
# Registers and flags

Nine flags of the flags register are modelled. Bit 1 of the register is always set, and all
other bits are always clear.

* `Registers`: eight longs and the instruction pointer; `Registers.get`, `Registers.set`: a register
  by name, of which the rest stays as it was; `Registers.display`: all long registers in print;
* `Flags`: the flags; `Flag`: their names, `Flag.bit`: where they are in the register;
* `Flags.bits`, `Flags.ofBits`: the register, and the flags in a value loaded into it;
* `Cond.holds`: what a conditional jump asks.
-/

set_option autoImplicit false

namespace Ia32

/-! ## Registers -/

/-- The general registers and the instruction pointer. -/
structure Registers where
  general : Vector Long 8 := Vector.replicate 8 0
  eip : Long := 0
  deriving DecidableEq

namespace Registers

/-- The bits of a physical register that a name shows. -/
def viewMask (r : Reg) : Long := r.width.mask <<< r.shift

/-- The value of a register. -/
def get (regs : Registers) (r : Reg) : Long :=
  (regs.general.get r.slot >>> r.shift) &&& r.width.mask

/-- Gives a register a value. The bits that its name does not show stay as they were. -/
def set (regs : Registers) (r : Reg) (v : Long) : Registers :=
  let old := regs.general.get r.slot
  let new := (old &&& ~~~viewMask r) ||| ((v <<< r.shift) &&& viewMask r)
  { regs with general := regs.general.set r.slot new }

/-- The bytes of a value of a width, highest first. -/
def valueText (w : Width) (v : Long) : String :=
  Text.hexBytes (littleEndian w.bytes v).reverse

/-- The value of a register in print: `00 00 FF FF`. -/
def regText (regs : Registers) (r : Reg) : String := valueText r.width (regs.get r)

/-- The long registers in the order in which they are shown. -/
def shown : List Reg := [.eax, .ebx, .ecx, .edx, .esi, .edi, .esp, .ebp]

/-- The long registers and the instruction pointer in print, each with its name. -/
def display (regs : Registers) : List (String × String) :=
  shown.map (fun r => (r.name, regs.regText r)) ++ [("eip", valueText .long regs.eip)]

end Registers

/-! ## The flags -/

/-- The flags. At the start all are clear. -/
structure Flags where
  carry : Bool := false
  parity : Bool := false
  auxiliary : Bool := false
  zero : Bool := false
  sign : Bool := false
  trap : Bool := false
  interrupt : Bool := false
  direction : Bool := false
  overflow : Bool := false
  deriving DecidableEq

/-- The names of the flags. -/
inductive Flag where
  | carry | parity | auxiliary | zero | sign | trap | interrupt | direction | overflow
  deriving DecidableEq

namespace Flag

/-- All flags, in the order of their bits. -/
def all : List Flag :=
  [carry, parity, auxiliary, zero, sign, trap, interrupt, direction, overflow]

/-- The bit of the flags register that holds a flag. -/
def bit : Flag → Nat
  | carry => 0
  | parity => 2
  | auxiliary => 4
  | zero => 6
  | sign => 7
  | trap => 8
  | interrupt => 9
  | direction => 10
  | overflow => 11

/-- The word for a flag. -/
def name : Flag → String
  | carry => "carry"
  | parity => "parity"
  | auxiliary => "auxiliary"
  | zero => "zero"
  | sign => "sign"
  | trap => "trap"
  | interrupt => "interrupt"
  | direction => "direction"
  | overflow => "overflow"

end Flag

namespace Flags

/-- Whether a flag is set. -/
def get (f : Flags) : Flag → Bool
  | .carry => f.carry
  | .parity => f.parity
  | .auxiliary => f.auxiliary
  | .zero => f.zero
  | .sign => f.sign
  | .trap => f.trap
  | .interrupt => f.interrupt
  | .direction => f.direction
  | .overflow => f.overflow

/-- Sets or clears a flag. -/
def set (f : Flags) (flag : Flag) (b : Bool) : Flags :=
  match flag with
  | .carry => { f with carry := b }
  | .parity => { f with parity := b }
  | .auxiliary => { f with auxiliary := b }
  | .zero => { f with zero := b }
  | .sign => { f with sign := b }
  | .trap => { f with trap := b }
  | .interrupt => { f with interrupt := b }
  | .direction => { f with direction := b }
  | .overflow => { f with overflow := b }

/-- The bit of the flags register that is always set. -/
abbrev reserved : Long := 0x2

/-- The flags register. -/
def bits (f : Flags) : Long :=
  Flag.all.foldr (fun flag v => if f.get flag then BitVec.twoPow 32 flag.bit ||| v else v) reserved

/-- The flags in a value. Its other bits do not count. -/
def ofBits (v : Long) : Flags where
  carry := v.getLsbD Flag.carry.bit
  parity := v.getLsbD Flag.parity.bit
  auxiliary := v.getLsbD Flag.auxiliary.bit
  zero := v.getLsbD Flag.zero.bit
  sign := v.getLsbD Flag.sign.bit
  trap := v.getLsbD Flag.trap.bit
  interrupt := v.getLsbD Flag.interrupt.bit
  direction := v.getLsbD Flag.direction.bit
  overflow := v.getLsbD Flag.overflow.bit

end Flags

/-! ## Conditions -/

/-- Whether a test of the flags succeeds. -/
def CondTest.holds (f : Flags) : CondTest → Bool
  | overflow => f.overflow
  | below => f.carry
  | equal => f.zero
  | belowOrEqual => f.carry || f.zero
  | sign => f.sign
  | parity => f.parity
  | less => f.sign != f.overflow
  | lessOrEqual => f.zero || f.sign != f.overflow

/-- Whether a condition holds. -/
def Cond.holds (f : Flags) (c : Cond) : Bool := c.test.holds f != c.negated

end Ia32
