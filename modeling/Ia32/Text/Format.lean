import Ia32.Width

/-!
# Numbers and colours in text

* `hex`, `hexCapital`: a number with the digits it needs;
* `signedHex`: an integer with its sign in front of `0x`;
* `wrappedHex`: an integer as the 64-bit pattern of its two's complement;
* `hexBytes`: bytes of two digits each, with blanks between them;
* `padLeft`, `padRight`: text brought to a least width;
* `styled`: text with attributes, which a terminal sets by escape codes; they are taken back in the
  order in which they were set;
* `coloured`: texts of different colours with nothing between them.
-/

set_option autoImplicit false

namespace Ia32.Text

/-! ## Numbers -/

/-- A number in hexadecimal, in small letters and without leading zeros. -/
def hex (n : Nat) : String := String.ofList (Nat.toDigits 16 n)

/-- A number in hexadecimal, in capital letters and without leading zeros. -/
def hexCapital (n : Nat) : String := (hex n).map Char.toUpper

/-- An integer in hexadecimal, its sign in front: `-0x1f`. -/
def signedHex (n : Int) : String := (if n < 0 then "-0x" else "0x") ++ hex n.natAbs

/-- An integer in hexadecimal, a negative one as its 64-bit two's complement. -/
def wrappedHex (n : Int) : String := "0x" ++ hex (BitVec.ofInt 64 n).toNat

/-- Text brought to a least width by characters on its left. -/
def padLeft (width : Nat) (c : Char) (s : String) : String :=
  String.ofList (List.replicate (width - s.length) c) ++ s

/-- Text brought to a least width by blanks on its right. -/
def padRight (width : Nat) (s : String) : String :=
  s ++ String.ofList (List.replicate (width - s.length) ' ')

/-- Two capital hexadecimal digits of a byte. -/
def hexByte (b : Byte) : String := padLeft 2 '0' (hexCapital b.toNat)

/-- Bytes in capital hexadecimal with blanks between them: `66 B8 20 00`. -/
def hexBytes (bs : List Byte) : String := " ".intercalate (bs.map hexByte)

/-- Eight capital hexadecimal digits of a long. -/
def hexLong (v : Long) : String := padLeft 8 '0' (hexCapital v.toNat)

/-! ## Colours -/

/-- An attribute of text on a terminal. -/
inductive Attribute where
  | red
  | green
  | yellow
  | blue
  | magenta
  | cyan
  | bold
  | underline

/-- The code that sets an attribute. -/
def Attribute.on : Attribute → Nat
  | red => 31
  | green => 32
  | yellow => 33
  | blue => 34
  | magenta => 35
  | cyan => 36
  | bold => 1
  | underline => 4

/-- The code that takes an attribute back. -/
def Attribute.off : Attribute → Nat
  | bold => 22
  | underline => 24
  | _ => 39

/-- The escape sequence of a code. -/
def escape (code : Nat) : String := "\x1b[" ++ toString code ++ "m"

/-- Text with attributes set before it and taken back after it. -/
def styled (attrs : List Attribute) (s : String) : String :=
  String.join (attrs.map fun a => escape a.on) ++ s ++
    String.join (attrs.map fun a => escape a.off)

/-- Texts of different colours, one right after the other. A colour gives way to the next, and only
the last is taken back. -/
def coloured (spans : List (Attribute × String)) : String :=
  String.join (spans.map fun (a, s) => escape a.on ++ s) ++
    match spans.getLast? with
    | some (a, _) => escape a.off
    | none => ""

end Ia32.Text
