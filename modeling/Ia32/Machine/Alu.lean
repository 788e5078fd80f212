import Ia32.Machine.Registers

/-!
# Arithmetic, logic and shifts

Each operation gives a result of its width and says which flags it sets to what.

* `FlagUpdate`: the flags that an operation sets; those left out stay as they were;
* `Alu.add`, `Alu.sub`, `Alu.logic`, `Alu.inc`, `Alu.dec`, `Alu.neg`: arithmetic and logic;
* `Alu.shift`: shifts and rotations by a count.
-/

set_option autoImplicit false

namespace Ia32

/-! ## Flags of a result -/

/-- The flags that an operation sets. -/
structure FlagUpdate where
  carry : Option Bool := none
  parity : Option Bool := none
  auxiliary : Option Bool := none
  zero : Option Bool := none
  sign : Option Bool := none
  overflow : Option Bool := none
  deriving DecidableEq

/-- Sets the flags that an operation sets. -/
def FlagUpdate.apply (u : FlagUpdate) (f : Flags) : Flags :=
  { f with
    carry := u.carry.getD f.carry
    parity := u.parity.getD f.parity
    auxiliary := u.auxiliary.getD f.auxiliary
    zero := u.zero.getD f.zero
    sign := u.sign.getD f.sign
    overflow := u.overflow.getD f.overflow }

/-- Whether the number of ones in the lowest byte is even. -/
def evenParity (v : Long) : Bool := (List.range 8).countP v.getLsbD % 2 == 0

/-- The flags that tell of a result alone: zero, sign and parity. -/
def FlagUpdate.ofResult (res : Long) (w : Width) : FlagUpdate :=
  let res := res &&& w.mask
  { zero := some (res == 0), sign := some (w.sign res), parity := some (evenParity res) }

namespace Alu

/-! ## Arithmetic and logic -/

/-- The bit whose carry the auxiliary flag tells of. -/
abbrev auxiliaryBit : Nat := 4

/-- The sum of two numbers and a carry. -/
def add (a b : Long) (carry : Bool) (w : Width) : Long × FlagUpdate :=
  let full := a.toNat + b.toNat + carry.toNat
  let res := BitVec.ofNat 32 full &&& w.mask
  (res,
    { FlagUpdate.ofResult res w with
      carry := some (w.mask.toNat < full)
      auxiliary := some ((a ^^^ b ^^^ res).getLsbD auxiliaryBit)
      overflow := some (w.sign ((a ^^^ res) &&& (b ^^^ res))) })

/-- The difference of two numbers, less a borrow. The carry flag tells of a borrow. -/
def sub (a b : Long) (borrow : Bool) (w : Width) : Long × FlagUpdate :=
  let res := (a - b - BitVec.ofNat 32 borrow.toNat) &&& w.mask
  (res,
    { FlagUpdate.ofResult res w with
      carry := some (a.toNat < b.toNat + borrow.toNat)
      auxiliary := some ((a ^^^ b ^^^ res).getLsbD auxiliaryBit)
      overflow := some (w.sign ((a ^^^ b) &&& (a ^^^ res))) })

/-- A result of bitwise logic, which clears the carry and overflow flags. -/
def logic (res : Long) (w : Width) : Long × FlagUpdate :=
  let res := res &&& w.mask
  (res, { FlagUpdate.ofResult res w with carry := some false, overflow := some false })

/-- A number and one. The carry flag stays as it was. -/
def inc (a : Long) (w : Width) : Long × FlagUpdate :=
  let (res, update) := add a 1 false w
  (res, { update with carry := none })

/-- A number less one. The carry flag stays as it was. -/
def dec (a : Long) (w : Width) : Long × FlagUpdate :=
  let (res, update) := sub a 1 false w
  (res, { update with carry := none })

/-- The negative of a number: it subtracted from zero. -/
def neg (a : Long) (w : Width) : Long × FlagUpdate := sub 0 (a &&& w.mask) false w

/-! ## Shifts and rotations -/

section Shift

variable {n : Nat}

/-- The result and the last bit shifted out, for a value of `n` bits and a count other than
zero. The rotations through the carry rotate a value of `n + 1` bits, the carry on top. -/
def shiftBits (op : ShiftOp) (x : BitVec n) (count : Nat) (carry : Bool) : BitVec n × Bool :=
  match op with
  | .shl | .sal => (x <<< count, decide (count ≤ n) && x.getLsbD (n - count))
  | .shr => (x >>> count, x.getLsbD (count - 1))
  | .sar => (x.sshiftRight count, (x.sshiftRight (count - 1)).getLsbD 0)
  | .rol =>
    let res := x.rotateLeft count
    (res, res.getLsbD 0)
  | .ror =>
    let res := x.rotateRight count
    (res, res.msb)
  | .rcl =>
    let res := (BitVec.cons carry x).rotateLeft count
    (res.setWidth n, res.msb)
  | .rcr =>
    let res := (BitVec.cons carry x).rotateRight count
    (res.setWidth n, res.msb)

/-- The overflow flag after a shift by one: whether the sign of the value has changed. -/
def shiftOverflow (op : ShiftOp) (x res : BitVec n) (carry : Bool) : Bool :=
  match op with
  | .shl | .sal | .rol | .rcl => res.msb != carry
  | .shr => x.msb
  | .sar => false
  | .ror | .rcr => res.msb != res.getLsbD (n - 2)

end Shift

/-- Whether the result of an operation decides the zero, sign and parity flags. -/
def shiftSetsResult : ShiftOp → Bool
  | .shl | .sal | .shr | .sar => true
  | .rol | .ror | .rcl | .rcr => false

/-- A shift or rotation by a count below 32. A count of zero sets no flags. -/
def shift (op : ShiftOp) (a : Long) (count : Nat) (carry : Bool) (w : Width) :
    Long × FlagUpdate :=
  if count = 0 then (a &&& w.mask, {})
  else
    let x := a.setWidth w.bits
    let (res, out) := shiftBits op x count carry
    let long := res.setWidth 32
    let ofResult := if shiftSetsResult op then FlagUpdate.ofResult long w else {}
    (long,
      { ofResult with
        carry := some out
        overflow := if count = 1 then some (shiftOverflow op x res out) else none })

end Alu

end Ia32
