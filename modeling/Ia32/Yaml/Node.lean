import Ia32.Text.Basic
import Ia32.Text.Format

/-!
# Documents

A YAML document is a tree of texts, lists, and maps from nodes to nodes.

* `Style`: how a text is written; `Node`: the trees;
* `Node.natural?`, `Node.bool?`, `Node.isOmitted`: numbers and truth values, and whether a node is
  left out;
* `quoted`, `flowList`, `flowMap`, `fields`: a text in double quotes, a list and a map on one line,
  and a map of one field a line, to be written.
-/

set_option autoImplicit false

namespace Ia32.Yaml

/-! ## Trees -/

/-- How a text is written: plainly, in quotes, or as a block of lines, of which the line ends are
kept or folded into blanks. -/
inductive Style where
  | plain
  | quoted
  | literal
  | folded
  deriving DecidableEq

/-- A part of a document. A text can have a tag that tells its type. -/
inductive Node where
  | scalar (text : String) (style : Style) (tag : Option String)
  | list (items : List Node)
  | map (entries : List (Node × Node))

namespace Node

/-- The node that is left out. -/
def empty : Node := .scalar "" .plain none

/-- A text with a tag, if there is one. -/
def withTag (tag : Option String) : Node → Node
  | .scalar text style old => .scalar text style (tag <|> old)
  | node => node

end Node

/-! ## Values -/

/-- The tags of integers. -/
def integerTags : List String := ["!int", "<tag:yaml.org,2002:int>"]

/-- The tags of truth values. -/
def boolTags : List String := ["!bool", "<tag:yaml.org,2002:bool>"]

/-- A row of digits of a base, the letters capital or small. -/
def readDigitsOf (base : Nat) (cs : List Char) : Option Nat :=
  readDigits base (cs.map Char.toLower)

/-- A number without a sign, or with a plus. A decimal one does not start with a zero. -/
def readNatural (cs : List Char) : Option Nat :=
  match if cs.head? = some '+' then cs.tail else cs with
  | '0' :: 'x' :: ds => readDigitsOf 16 ds
  | '0' :: 'o' :: ds => readDigitsOf 8 ds
  | '0' :: 'b' :: ds => readDigitsOf 2 ds
  | '0' :: _ :: _ => none
  | ds => readDigits 10 ds

namespace Node

/-- The text of a node that can stand for a value: a plain one, or one of whole lines whose tag is
one of those given. -/
def valueText? (tags : List String) : Node → Option String
  | .scalar text .plain _ => some text
  | .scalar text .literal (some tag) => if tags.contains tag then some text else none
  | _ => none

/-- The number that a node stands for. -/
def natural? (n : Node) : Option Nat := do readNatural (← n.valueText? integerTags).toList

/-- The truth value that a node stands for. -/
def bool? (n : Node) : Option Bool := do
  let text ← n.valueText? boolTags
  if ["true", "True", "TRUE"].contains text then some true
  else if ["false", "False", "FALSE"].contains text then some false
  else none

/-- Whether a node is left out: an empty text, or one that stands for nothing. -/
def isOmitted : Node → Bool
  | .scalar text _ _ => ["", "~", "null", "Null", "NULL"].contains text
  | _ => false

end Node

/-! ## Writing -/

/-- A character inside double quotes. -/
def quotedChar (c : Char) : String :=
  match c with
  | '"' => "\\\""
  | '\\' => "\\\\"
  | '\n' => "\\n"
  | '\r' => "\\r"
  | '\t' => "\\t"
  | c =>
    if c.toNat < 32 || c.toNat == 127 then "\\x" ++ Text.padLeft 2 '0' (Text.hex c.toNat)
    else c.toString

/-- A text in double quotes. -/
def quoted (s : String) : String := "\"" ++ String.join (s.toList.map quotedChar) ++ "\""

/-- A list on one line. -/
def flowList (items : List String) : String := "[" ++ ", ".intercalate items ++ "]"

/-- A map on one line. -/
def flowMap (pairs : List (String × String)) : String :=
  "\x7b" ++ ", ".intercalate (pairs.map fun (k, v) => k ++ ": " ++ v) ++ "\x7d"

/-- A map of one field a line. -/
def fields (pairs : List (String × String)) : String :=
  String.join (pairs.map fun (k, v) => k ++ ": " ++ v ++ "\n")

end Ia32.Yaml
