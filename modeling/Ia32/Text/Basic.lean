/-!
# Characters and lines

* `Text.isBlank`: the characters that count as white space, those with the Unicode property
  `White_Space`; `Text.trimStart`, `Text.trimEnd`, `Text.trim`: text without the blanks at its ends;
* `Text.lines`: the lines of a text without their ends. A line ends in a line feed, before which one
  carriage return belongs to the end as well; the last line need not be ended;
* `Text.nthLine`: a line by its number, counted from one;
* `Text.splitOn`, `Text.join`: text cut at every occurrence of a character, and put together again;
* `digitValue`, `isDigitOf`: digits of bases up to 16, with small letters; `readDigits`: the value
  of a row of digits of a base.
-/

set_option autoImplicit false

namespace Ia32

namespace Text

/-! ## Blanks -/

/-- The first and last code points of the ranges of white space. -/
def blankRanges : List (Nat × Nat) :=
  [(0x9, 0xD), (0x20, 0x20), (0x85, 0x85), (0xA0, 0xA0), (0x1680, 0x1680), (0x2000, 0x200A),
    (0x2028, 0x2029), (0x202F, 0x202F), (0x205F, 0x205F), (0x3000, 0x3000)]

/-- Whether a character is white space. -/
def isBlank (c : Char) : Bool := blankRanges.any fun r => r.1 ≤ c.toNat && c.toNat ≤ r.2

/-- Text without the blanks at its start. -/
def trimStart (cs : List Char) : List Char := cs.dropWhile isBlank

/-- Text without the blanks at its end. -/
def trimEnd (cs : List Char) : List Char := (cs.reverse.dropWhile isBlank).reverse

/-- Text without the blanks at its ends. -/
def trim (cs : List Char) : List Char := trimEnd (trimStart cs)

/-! ## Lines -/

/-- The lines of a text, without their ends. -/
def lines : List Char → List (List Char)
  | [] => []
  | '\n' :: cs => [] :: lines cs
  | '\r' :: '\n' :: cs => [] :: lines cs
  | c :: cs =>
    match lines cs with
    | [] => [[c]]
    | l :: ls => (c :: l) :: ls

/-- The line with a number, counted from one; empty if there is none. -/
def nthLine (text : String) (n : Nat) : String :=
  match n with
  | 0 => ""
  | n + 1 => String.ofList ((lines text.toList)[n]?.getD [])

/-- The pieces of a text between the occurrences of a character, at least one. -/
def splitOn (sep : Char) : List Char → List (List Char)
  | [] => [[]]
  | c :: cs =>
    if c = sep then [] :: splitOn sep cs
    else
      match splitOn sep cs with
      | [] => [[c]]
      | p :: ps => (c :: p) :: ps

/-- Pieces put together with a character between them. -/
def join (sep : Char) (pieces : List (List Char)) : List Char := [sep].intercalate pieces

end Text

/-! ## Digits -/

/-- The value of a digit, a decimal one or a small letter. -/
def digitValue (c : Char) : Nat := if c.isDigit then c.toNat - 48 else c.toNat - 87

/-- Whether a character is a digit of a base up to 16. -/
def isDigitOf (base : Nat) (c : Char) : Bool :=
  (c.isDigit || ('a' ≤ c && c ≤ 'f')) && digitValue c < base

/-- The value of a row of digits, the highest first. -/
def digitsValue (base : Nat) (ds : List Char) : Nat :=
  ds.foldl (fun n c => n * base + digitValue c) 0

/-- The value of a row of digits of a base: at least one, and nothing else. -/
def readDigits (base : Nat) (cs : List Char) : Option Nat :=
  if cs ≠ [] ∧ cs.all (isDigitOf base) then some (digitsValue base cs) else none

end Ia32
