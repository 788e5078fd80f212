/-!
# Operand widths

An instruction works on a byte, a word (16 bits) or a long (32 bits). Values of every width are
carried in 32-bit machine longs; the width says how many of the low bits count.

* `Width.bytes`, `Width.bits`, `Width.mask`, `Width.signMask`: the extent of a width;
* `Width.truncate`, `Width.fits`: integers cut down to a width, and those that survive it;
* `Width.sign`, `Width.signed`: a value read as a two's complement number of the width;
* `wordMark`: the byte that announces a word;
* `littleEndian`, `ofLittleEndian`: a value as bytes, its lowest byte first, and back;
* `Width.immediate`, `Width.readBytes`: the bytes of an integer cut down to a width, and the value
  at the head of a byte string, if it is all there.
-/

set_option autoImplicit false

namespace Ia32

/-- A byte of code or memory. -/
abbrev Byte := BitVec 8

/-- A 32-bit machine value: an address or the contents of a register. -/
abbrev Long := BitVec 32

/-- The width in which an instruction works. -/
inductive Width where
  | byte
  | word
  | long
  deriving DecidableEq

namespace Width

/-- All widths, narrowest first. -/
def all : List Width := [byte, word, long]

/-- The number of bytes of a value. -/
def bytes : Width → Nat
  | byte => 1
  | word => 2
  | long => 4

/-- The width of that many bytes. -/
def ofBytes? (n : Nat) : Option Width := all.find? fun w => w.bytes == n

/-- The number of bits of a value. -/
def bits (w : Width) : Nat := 8 * w.bytes

/-- Ones in the bits that count. -/
def mask : Width → Long
  | byte => 0xFF#32
  | word => 0xFFFF#32
  | long => 0xFFFFFFFF#32

/-- A one in the topmost bit that counts. -/
def signMask (w : Width) : Long := BitVec.twoPow 32 (w.bits - 1)

/-- The letter that an operator appends to name its width. -/
def suffix : Width → Char
  | byte => 'b'
  | word => 'w'
  | long => 'l'

/-- The low bits of an integer, as many as the width has. -/
def truncate (w : Width) (n : Int) : Long := BitVec.ofInt 32 n &&& w.mask

/-- Whether truncation leaves the integer as it is. -/
def fits (w : Width) (n : Int) : Bool := ((w.truncate n).toNat : Int) == n

/-- Whether the topmost bit that counts is set. -/
def sign (w : Width) (v : Long) : Bool := v &&& w.signMask != 0

/-- The bits that count, read as a two's complement number. -/
def signed (w : Width) (v : Long) : Int := (v.setWidth w.bits).toInt

end Width

/-! ## Bytes -/

/-- The byte in front of an instruction that announces the width of a word. -/
abbrev wordMark : Byte := 0x66

/-- The lowest `n` bytes of a value, lowest first. -/
def littleEndian : Nat → Long → List Byte
  | 0, _ => []
  | n + 1, v => v.setWidth 8 :: littleEndian n (v >>> 8)

/-- The value whose bytes are given lowest first. -/
def ofLittleEndian : List Byte → Long
  | [] => 0
  | b :: bs => ofLittleEndian bs <<< 8 ||| b.setWidth 32

namespace Width

/-- The bytes of an integer cut down to a width. -/
def immediate (w : Width) (n : Int) : List Byte := littleEndian w.bytes (w.truncate n)

/-- The value at the head of a byte string, if the string is long enough to hold one. -/
def readBytes (w : Width) (bs : List Byte) : Option Long :=
  if w.bytes ≤ bs.length then some (ofLittleEndian (bs.take w.bytes)) else none

end Width

end Ia32
