import Ia32.Text.Basic

/-!
# Places and texts in a document

In YAML columns tell what belongs to what, so a place is known with its column.

* `Place`: a place in a document; `Place.skip`: the next place where something stands;
* `Place.atDash`, `Place.atQuestion`, `Place.atColon`, `Place.atEnd`: the marks between texts;
* `Place.belongs`: whether what stands at a place is a part of what is around it;
* `plainLine`, `plainLines`: a plain text, on one line and on several;
* `quotedText`: a text in quotes of either kind; `blockText`: a text of whole lines.
-/

set_option autoImplicit false

namespace Ia32.Yaml

/-! ## Places -/

/-- A document with a line feed at the end of each line. -/
def unifyLineEnds : List Char → List Char
  | [] => []
  | '\r' :: '\n' :: cs => '\n' :: unifyLineEnds cs
  | c :: cs =>
    (if c = '\r' || c = '\x85' || c = '\u2028' || c = '\u2029' then '\n' else c) ::
      unifyLineEnds cs

/-- Whether a character is a blank inside a line. -/
def isSpace (c : Char) : Bool := c = ' ' || c = '\t'

/-- The characters that end a plain text between brackets. -/
def isFlowMark (c : Char) : Bool := c = ',' || c = '[' || c = ']' || c = '\x7b' || c = '\x7d'

/-- Whether a character in front of a text is a mark, given what follows it and whether it stands
between brackets. -/
def endsMark (flow : Bool) (cs : List Char) : Bool :=
  match cs.head? with
  | none => true
  | some c => isSpace c || c = '\n' || (flow && isFlowMark c)

/-- A place in a document: the number of characters before it on its line, whether all of them are
blanks, and what follows. -/
structure Place where
  column : Nat
  fresh : Bool
  rest : List Char

/-- The first place where something stands, given whether a comment is before it. -/
def skipFrom (comment fresh : Bool) (column : Nat) : List Char → Place
  | [] => ⟨column, fresh, []⟩
  | c :: cs =>
    if c = '\n' then skipFrom false true 0 cs
    else if comment || c = '#' then skipFrom true fresh (column + 1) cs
    else if isSpace c then skipFrom false fresh (column + 1) cs
    else ⟨column, fresh, c :: cs⟩

namespace Place

/-- The next place where something stands, after blanks, line ends and comments. -/
def skip (p : Place) : Place := skipFrom false p.fresh p.column p.rest

/-- The place after a number of characters of a line. -/
def advance (n : Nat) (p : Place) : Place := ⟨p.column + n, false, p.rest.drop n⟩

/-- The place after blanks on the same line. -/
def skipSpaces (p : Place) : Place :=
  let n := (p.rest.takeWhile isSpace).length
  { p with column := p.column + n, rest := p.rest.drop n }

/-- The place before some text, of which the column does not matter. -/
def before (rest : List Char) (p : Place) : Place := ⟨p.column, false, rest⟩

/-- Whether nothing more stands on the line. -/
def atLineEnd (p : Place) : Bool := p.rest.head?.all fun c => c = '\n' || c = '#'

/-- Whether a mark is here. -/
def atMark (mark : Char) (p : Place) : Bool :=
  p.rest.head? == some mark && endsMark false p.rest.tail

/-- Whether the dash of an item of a list is here. -/
def atDash (p : Place) : Bool := p.atMark '-'

/-- Whether the question mark of a key is here. -/
def atQuestion (p : Place) : Bool := p.atMark '?'

/-- Whether the colon after a key is here. -/
def atColon (p : Place) : Bool := p.atMark ':'

/-- Whether a line of three dashes or points starts here. -/
def atEnd (p : Place) : Bool :=
  p.fresh && p.column == 0 && (p.rest.take 3 == ['-', '-', '-'] || p.rest.take 3 == ['.', '.', '.'])
    && endsMark false (p.rest.drop 3)

/-- Whether what stands here is a part of what is around it: on the same line, or in a column from
the least one on. Dashes have a least column of their own. -/
def belongs (least dash : Nat) (p : Place) : Bool :=
  !p.rest.isEmpty && !p.atEnd &&
    (!p.fresh || least ≤ p.column || (p.atDash && dash ≤ p.column))

end Place

/-! ## Folding -/

/-- What stands for line ends that are folded: a blank for one, else all but the first. -/
def foldedEnds (n : Nat) : List Char := if n = 1 then [' '] else List.replicate (n - 1) '\n'

/-- Lines put together after a number of line ends, which are folded. -/
def foldFrom : Nat → List (List Char) → List Char
  | _, [] => []
  | n, l :: ls =>
    if l.isEmpty && !ls.isEmpty then foldFrom (n + 1) ls else foldedEnds n ++ l ++ foldFrom 1 ls

/-- A line without blanks at its start. -/
def trimSpacesStart (cs : List Char) : List Char := cs.dropWhile isSpace

/-- A line without blanks at its end. -/
def trimSpacesEnd (cs : List Char) : List Char := (cs.reverse.dropWhile isSpace).reverse

/-- Lines put together, of which the ends, with the blanks around them, are folded. -/
def foldLines : List (List Char) → List Char
  | [] => []
  | [l] => l
  | l :: ls =>
    let inner := ls.dropLast.map fun l => trimSpacesEnd (trimSpacesStart l)
    trimSpacesEnd l ++ foldFrom 1 (inner ++ (ls.getLast?.map trimSpacesStart).toList)

/-! ## Plain texts -/

/-- The characters up to the end of a line, a comment, or a mark that ends a plain text, given
whether there is a blank before them. -/
def plainPart (flow blank : Bool) : List Char → List Char
  | [] => []
  | c :: cs =>
    if c = '\n' || (c = '#' && blank) || (flow && isFlowMark c) || (c = ':' && endsMark flow cs)
    then []
    else c :: plainPart flow (isSpace c) cs

/-- A plain text on one line, without the blanks after it. -/
def plainLine (flow : Bool) (p : Place) : List Char × Place :=
  let text := trimSpacesEnd (plainPart flow false p.rest)
  (text, p.advance text.length)

/-- A plain text with what follows on so many more lines at most. -/
def plainLines (flow : Bool) (least : Nat) : Nat → List Char → Place → List Char × Place
  | 0, text, p => (text, p)
  | fuel + 1, text, p =>
    let next := p.skip
    let (more, after) := plainLine flow next
    if next.fresh && !next.atEnd && (flow || least ≤ next.column) && !more.isEmpty then
      let ends := (p.rest.takeWhile fun c => isSpace c || c = '\n').count '\n'
      plainLines flow least fuel (text ++ foldedEnds ends ++ more) after
    else (text, p)

/-! ## Texts in quotes -/

/-- The characters up to the quotes that end a text, and what follows them. -/
def quotedPart (quote : Char) : List Char → Option (List Char × List Char)
  | [] => none
  | [c] => if c = quote then some ([], []) else none
  | c :: d :: cs =>
    if c = '\\' && quote = '"' || c = quote && d = quote && quote = '\'' then
      (quotedPart quote cs).map fun (text, rest) => (c :: d :: text, rest)
    else if c = quote then some ([], d :: cs)
    else (quotedPart quote (d :: cs)).map fun (text, rest) => (c :: text, rest)

/-- A text without the line ends after a backslash and the blanks after those. -/
def joinEscaped (skipping : Bool) : List Char → List Char
  | [] => []
  | '\\' :: '\n' :: cs => joinEscaped true cs
  | '\\' :: c :: cs => '\\' :: c :: joinEscaped false cs
  | c :: cs => if skipping && isSpace c then joinEscaped true cs else c :: joinEscaped false cs

/-- The character that a letter after a backslash stands for. -/
def escaped : Char → Char
  | '0' => '\x00'
  | 'a' => '\x07'
  | 'b' => '\x08'
  | 't' => '\t'
  | 'n' => '\n'
  | 'v' => '\x0b'
  | 'f' => '\x0c'
  | 'r' => '\r'
  | 'e' => '\x1b'
  | 'N' => '\x85'
  | '_' => '\xa0'
  | 'L' => '\u2028'
  | 'P' => '\u2029'
  | c => c

/-- The character with a code point in hexadecimal. -/
def ofHex (ds : List Char) : Char := Char.ofNat (digitsValue 16 (ds.map Char.toLower))

/-- The text that is meant between double quotes. -/
def unescape : List Char → List Char
  | '\\' :: 'x' :: a :: b :: cs => ofHex [a, b] :: unescape cs
  | '\\' :: 'u' :: a :: b :: c :: d :: cs => ofHex [a, b, c, d] :: unescape cs
  | '\\' :: 'U' :: a :: b :: c :: d :: e :: f :: g :: h :: cs =>
    ofHex [a, b, c, d, e, f, g, h] :: unescape cs
  | '\\' :: c :: cs => escaped c :: unescape cs
  | c :: cs => c :: unescape cs
  | [] => []

/-- The text that is meant between single quotes. -/
def unpair : List Char → List Char
  | '\'' :: '\'' :: cs => '\'' :: unpair cs
  | c :: cs => c :: unpair cs
  | [] => []

/-- A text in quotes, from the first of them on. -/
def quotedText (quote : Char) (p : Place) : Option (List Char × Place) := do
  let (part, rest) ← quotedPart quote p.rest.tail
  let text :=
    if quote = '"' then unescape (foldLines (Text.splitOn '\n' (joinEscaped false part)))
    else unpair (foldLines (Text.splitOn '\n' part))
  return (text, p.before rest)

/-! ## Texts of whole lines -/

/-- The number of blanks at the start of a line. -/
def indent (l : List Char) : Nat := (l.takeWhile (· == ' ')).length

/-- Whether there is nothing on a line but blanks. -/
def isEmptyLine (l : List Char) : Bool := l.all (· == ' ')

/-- Lines that follow a line, given whether that starts with a blank, and after so many empty
lines. Folding spares the ends around lines that start with a blank. -/
def blockFrom (folded : Bool) : Bool → Nat → List (List Char) → List Char
  | _, _, [] => []
  | before, n, l :: ls =>
    if l.isEmpty then blockFrom folded before (n + 1) ls
    else
      let here := l.head?.any isSpace
      let ends :=
        if folded && !before && !here then foldedEnds (n + 1) else List.replicate (n + 1) '\n'
      ends ++ l ++ blockFrom folded here 0 ls

/-- The lines of a block put together. -/
def blockLines (folded : Bool) (ls : List (List Char)) : List Char :=
  let ends := ls.takeWhile List.isEmpty
  List.replicate ends.length '\n' ++
    match ls.drop ends.length with
    | [] => []
    | l :: ls => l ++ blockFrom folded (l.head?.any isSpace) 0 ls

/-- The column of the lines of a block, at least the least one. Without a number that gives it, the
first line that is not empty does. -/
def blockColumn (least : Nat) (digit : Option Char) (ls : List (List Char)) : Nat :=
  match digit with
  | some d => (least - 1) + digitValue d
  | none =>
    let ends := ls.takeWhile isEmptyLine
    let first := ((ls.drop ends.length).head?.map indent).getD 0
    ((first :: ends.map List.length).foldl max (max least 1))

/-- A text of whole lines, from the mark that announces it on. A minus after the mark drops the
line ends after the text, a plus keeps them all; else there is one. -/
def blockText (folded : Bool) (least : Nat) (p : Place) : List Char × Place :=
  let header := (p.rest.drop 1).takeWhile fun c => c = '+' || c = '-' || c.isDigit
  let lines := (Text.splitOn '\n' p.rest).drop 1
  let column := blockColumn least (header.find? Char.isDigit) lines
  let (body, after) := lines.span fun l => isEmptyLine l || column ≤ indent l
  let whole := !after.isEmpty || body.getLast?.all List.isEmpty
  let texts := (if after.isEmpty && whole then body.dropLast else body).map (List.drop column)
  let content := (texts.reverse.dropWhile List.isEmpty).reverse
  let ends : Nat :=
    if header.contains '-' then 0
    else
      let own := if content.isEmpty || !whole then 0 else 1
      if header.contains '+' then texts.length - content.length + own else own
  (blockLines folded content ++ List.replicate ends '\n', ⟨0, true, Text.join '\n' after⟩)

end Ia32.Yaml
