import Ia32.Text.Basic
import Ia32.Assembly.Error

/-!
# Source text

Each line is read on its own: labels, then at most one statement, then a comment. A label belongs
to the next statement, on its line or a later one. Nothing is looked up yet: registers are names,
and a number is decimal, or after `0x`, `0b` or `0o` of base 16, 2 or 8, in capital or small
letters.

* `RawOperand`, `RawBody`, `RawStatement`: operands, statements, and statements with the labels
  in front of them; `Source`: the statements of a text, and the labels after the last of them;
* `readSigned`, `readNumber`: digits after a sign, within 64 bits, and a number as it is written;
* `splitArgs`: operands cut at the commas outside parentheses;
* `readOperand`, `readBody`, `Line.read`: operands, statements and lines;
* `Source.ofLines`: labels handed on to the statements after them;
* `Source.read`: a whole text.
-/

set_option autoImplicit false

namespace Ia32

/-! ## Statements as they are written -/

/-- An operand as written: registers are names, and a scale can be any number. -/
inductive RawOperand where
  | reg (name : String)
  | imm (n : Int)
  | mem (base : Option String) (offset : Int) (index : Option String) (scale : Option Int)
  | label (name : String)
  deriving DecidableEq

/-- A statement: an operator with its operands, or a directive with its values. -/
inductive RawBody where
  | instruction (operator : String) (operands : List RawOperand)
  | directive (name : String) (values : List Int)
  deriving DecidableEq

/-- A statement with the labels in front of it and the number of its line. -/
structure RawStatement where
  labels : List String
  body : RawBody
  line : Nat
  deriving DecidableEq

/-- The statements of a text, and the labels after the last one with the numbers of their lines. -/
structure Source where
  statements : List RawStatement
  trailing : List (String × Nat)
  deriving DecidableEq

/-! ## Numbers -/

/-- The integers that fit in 64 bits. -/
def inRange (n : Int) : Bool := -0x8000000000000000 ≤ n && n < 0x8000000000000000

/-- Digits of a base, after a sign or not, whose value fits in 64 bits. -/
def readSigned (base : Nat) (cs : List Char) : Option Int :=
  let value : Option Int := match cs with
    | '-' :: ds => (readDigits base ds).map fun n => -(n : Int)
    | '+' :: ds => (readDigits base ds).map fun n => (n : Int)
    | ds => (readDigits base ds).map fun n => (n : Int)
  value.filter inRange

/-- The base that small letters in front of digits announce, and the text after them. -/
def splitBase : List Char → Nat × List Char
  | '0' :: 'x' :: cs => (16, cs)
  | '0' :: 'b' :: cs => (2, cs)
  | '0' :: 'o' :: cs => (8, cs)
  | cs => (10, cs)

/-- A number without the sign in front of it. The digits may bring a sign of their own. -/
def readUnsigned (cs : List Char) : Option Int :=
  let (base, body) := splitBase (cs.map Char.toLower)
  readSigned base body

/-- The opposite of an integer in 64 bits. That of the least one is the least one again. -/
def opposite (n : Int) : Int := (-n).bmod 0x10000000000000000

/-- A number as it stands in a source text. Blanks may follow the sign. -/
def readNumber? : List Char → Option Int
  | '-' :: cs => (readUnsigned (Text.trimStart cs)).map opposite
  | cs => readUnsigned cs

/-- A number as it stands in a source text, or the complaint that it is none. -/
def readNumber (cs : List Char) : Except Cause Int :=
  match readNumber? cs with
  | some n => .ok n
  | none => .error (.noNumber (String.ofList cs))

/-! ## Names -/

/-- The characters that can start a name. -/
def isNameStart (c : Char) : Bool := c.isAlpha || c == '_' || c == '.'

/-- The characters that can go on with a name. -/
def isNamePart (c : Char) : Bool := c.isAlphanum || c == '_' || c == '.' || c == '$'

/-- Whether a text is a name of an operator, a register or a label. -/
def isName : List Char → Bool
  | [] => false
  | c :: cs => isNameStart c && cs.all isNamePart

/-- A name in small letters. -/
def lowerName (cs : List Char) : String := String.ofList (cs.map Char.toLower)

/-! ## Operands -/

/-- The pieces of a text between the commas outside parentheses, given whether it starts inside
one. Parentheses must match, and must not be nested. -/
def splitTop : Bool → List Char → Option (List (List Char))
  | inside, [] => if inside then none else some [[]]
  | false, ',' :: cs => (splitTop false cs).map ([] :: ·)
  | inside, c :: cs =>
    let next : Option Bool :=
      if c = '(' then (if inside then none else some true)
      else if c = ')' then (if inside then some false else none)
      else some inside
    match next with
    | none => none
    | some inside => (splitTop inside cs).map fun
      | [] => [[c]]
      | p :: ps => (c :: p) :: ps

/-- The operands of a statement: none in an empty text, else what stands between the commas
outside parentheses, without the blanks around it. -/
def splitArgs (cs : List Char) : Except Cause (List (List Char)) :=
  if cs = [] then .ok []
  else
    match splitTop false cs with
    | none => .error (.unbalanced (String.ofList cs))
    | some pieces =>
      let args := pieces.map Text.trim
      if args.any List.isEmpty then .error (.emptyOperand (String.ofList cs)) else .ok args

/-- A register after its percent sign. -/
def readRegister (cs : List Char) : Except Cause String :=
  match Text.trim cs with
  | '%' :: name =>
    if isName name then .ok (lowerName name) else .error (.noRegister (String.ofList cs))
  | _ => .error (.noRegister (String.ofList cs))

/-- A part of an address that may be left out. -/
def readPart {α : Type} (read : List Char → Except Cause α) :
    Option (List Char) → Except Cause (Option α)
  | none | some [] => .ok none
  | some cs => some <$> read cs

/-- An address: a number that may be left out, and in parentheses a base, an index and a scale,
each of which may be left out. The text is cut at its first parenthesis. -/
def readAddress (whole offset inner : List Char) : Except Cause RawOperand := do
  if inner.getLast? ≠ some ')' then throw (.unclosedAddress (String.ofList whole))
  let offset ← (·.getD 0) <$> readPart readNumber (some (Text.trim offset))
  let parts := (Text.splitOn ',' inner.dropLast).map Text.trim
  if parts.length > 3 then throw (.longAddress (String.ofList whole))
  let base ← readPart readRegister parts[0]?
  let index ← readPart readRegister parts[1]?
  let scale ← readPart readNumber parts[2]?
  return .mem base offset index scale

/-- An operand. A number that stands alone is an address. -/
def readOperand (cs : List Char) : Except Cause RawOperand :=
  match cs with
  | '%' :: _ => .reg <$> readRegister cs
  | '$' :: imm => .imm <$> readNumber (Text.trim imm)
  | _ =>
    match cs.dropWhile (· != '(') with
    | _ :: inner => readAddress cs (cs.takeWhile (· != '(')) inner
    | [] =>
      if cs.head?.any fun c => c.isDigit || c == '-' then
        (fun n => .mem none n none none) <$> readNumber cs
      else if isName cs then .ok (.label (String.ofList cs))
      else .error (.noOperand (String.ofList cs))

/-! ## Statements -/

/-- A statement, from a text that starts with no blank. The operator ends at the first blank. -/
def readBody (cs : List Char) : Except Cause RawBody := do
  let head := (cs.takeWhile fun c => !Text.isBlank c).map Char.toLower
  let tail := Text.trim (cs.dropWhile fun c => !Text.isBlank c)
  if head.head? = some '.' then
    return .directive (String.ofList head) (← (← splitArgs tail).mapM readNumber)
  if !isName head then throw (.unexpected (String.ofList head))
  return .instruction (String.ofList head) (← (← splitArgs tail).mapM readOperand)

/-! ## Lines -/

/-- What a line says: labels, and perhaps a statement. -/
structure Line where
  labels : List String
  body : Option RawBody
  deriving DecidableEq

/-- A line up to its comment. -/
def dropComment (cs : List Char) : List Char := cs.takeWhile fun c => c != ';' && c != '#'

/-- The labels at the start of a line that was cut at its colons, and the text after them. -/
def takeLabels : List (List Char) → List String × List Char
  | [] => ([], [])
  | [p] => ([], p)
  | p :: q :: ps =>
    if isName (Text.trim p) then
      let (labels, rest) := takeLabels (q :: ps)
      (String.ofList (Text.trim p) :: labels, rest)
    else ([], Text.join ':' (p :: q :: ps))

/-- A line: labels, each before a colon, then a statement or nothing, then a comment or nothing. -/
def Line.read (cs : List Char) : Except Cause Line := do
  let (labels, rest) := takeLabels (Text.splitOn ':' (dropComment cs))
  match Text.trim rest with
  | [] => return ⟨labels, none⟩
  | body => return ⟨labels, some (← readBody body)⟩

/-- Lines with their numbers, from the number of the first. -/
def readLines : Nat → List (List Char) → Except AssemblyError (List (Nat × Line))
  | _, [] => .ok []
  | n, l :: ls => do
    let line ← onLine n (Line.read l)
    let rest ← readLines (n + 1) ls
    return (n, line) :: rest

/-! ## Texts -/

/-- The statements of numbered lines, with the labels in front of them. Labels that still wait
for their statement are given with the numbers of their lines. -/
def Source.ofLines (waiting : List (String × Nat)) : List (Nat × Line) → Source
  | [] => ⟨[], waiting⟩
  | (n, line) :: rest =>
    let labels := waiting ++ line.labels.map (·, n)
    match line.body with
    | none => Source.ofLines labels rest
    | some body =>
      let source := Source.ofLines [] rest
      { source with statements := ⟨labels.map Prod.fst, body, n⟩ :: source.statements }

/-- The statements of a text. -/
def Source.read (text : String) : Except AssemblyError Source :=
  Source.ofLines [] <$> readLines 1 (Text.lines text.toList)

end Ia32
