import Ia32.Width

/-!
# Registers

Eight 32-bit registers are seen through 24 names: whole, by their low halves, and, for the first
four, by the two low bytes. A name is a width and the three-bit number that encodes it.

* `Reg`: a register name; `Reg.ofCode`: the one with a number, among those of a width;
* `Reg.name`, `Reg.ofName?`: its spelling, and back;
* `Reg.slot`, `Reg.shift`: the physical register behind a name and where the view starts in it.
-/

set_option autoImplicit false

namespace Ia32

/-- A register name. Its number within its width is what instructions encode. -/
structure Reg where
  width : Width
  code : BitVec 3
  deriving DecidableEq

namespace Reg

abbrev eax : Reg := ⟨.long, 0⟩
abbrev ecx : Reg := ⟨.long, 1⟩
abbrev edx : Reg := ⟨.long, 2⟩
abbrev ebx : Reg := ⟨.long, 3⟩
abbrev esp : Reg := ⟨.long, 4⟩
abbrev ebp : Reg := ⟨.long, 5⟩
abbrev esi : Reg := ⟨.long, 6⟩
abbrev edi : Reg := ⟨.long, 7⟩
abbrev ax : Reg := ⟨.word, 0⟩
abbrev cx : Reg := ⟨.word, 1⟩
abbrev dx : Reg := ⟨.word, 2⟩
abbrev bx : Reg := ⟨.word, 3⟩
abbrev sp : Reg := ⟨.word, 4⟩
abbrev bp : Reg := ⟨.word, 5⟩
abbrev si : Reg := ⟨.word, 6⟩
abbrev di : Reg := ⟨.word, 7⟩
abbrev al : Reg := ⟨.byte, 0⟩
abbrev cl : Reg := ⟨.byte, 1⟩
abbrev dl : Reg := ⟨.byte, 2⟩
abbrev bl : Reg := ⟨.byte, 3⟩
abbrev ah : Reg := ⟨.byte, 4⟩
abbrev ch : Reg := ⟨.byte, 5⟩
abbrev dh : Reg := ⟨.byte, 6⟩
abbrev bh : Reg := ⟨.byte, 7⟩

/-- The registers of a width, in the order of their numbers. -/
def table : Width → Vector Reg 8
  | .long => #v[eax, ecx, edx, ebx, esp, ebp, esi, edi]
  | .word => #v[ax, cx, dx, bx, sp, bp, si, di]
  | .byte => #v[al, cl, dl, bl, ah, ch, dh, bh]

/-- The register of a width with a number. -/
def ofCode (code : BitVec 3) (w : Width) : Reg := (table w).get code.toFin

/-- The spellings of a width, in the order of their numbers. -/
def names : Width → Vector String 8
  | .long => #v["eax", "ecx", "edx", "ebx", "esp", "ebp", "esi", "edi"]
  | .word => #v["ax", "cx", "dx", "bx", "sp", "bp", "si", "di"]
  | .byte => #v["al", "cl", "dl", "bl", "ah", "ch", "dh", "bh"]

/-- The spelling of a register, in small letters. -/
def name (r : Reg) : String := (names r.width).get r.code.toFin

/-- The eight register numbers. -/
def codes : List (BitVec 3) := [0, 1, 2, 3, 4, 5, 6, 7]

/-- All 24 names. -/
def all : List Reg := Width.all.flatMap fun w => codes.map fun c => ⟨w, c⟩

/-- The register with a spelling, in capital or small letters. -/
def ofName? (s : String) : Option Reg :=
  all.find? fun r => r.name == s.map Char.toLower

/-- `ah`, `ch`, `dh` and `bh`: the second byte of one of the first four registers. -/
def isHighByte (r : Reg) : Bool := r.width == .byte && r.code.getLsbD 2

/-- The physical register that a name looks into, numbered as the 32-bit names are. -/
def slot (r : Reg) : Fin 8 := (if r.isHighByte then r.code &&& 3 else r.code).toFin

/-- The lowest bit of the physical register that a name shows. -/
def shift (r : Reg) : Nat := if r.isHighByte then 8 else 0

/-- `al`, `ax` and `eax`, for which many instructions have a shorter form. -/
def isAccumulator (r : Reg) : Bool := r.code == 0

end Reg

end Ia32
