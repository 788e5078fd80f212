import Ia32.Yaml.Node
import Ia32.Yaml.Scalar

/-!
# Reading documents

A YAML document shows by columns, or by brackets, what belongs to what.

* `Reader`: what is read from a place on, with the nodes that have been given names;
* `node`: a node; `items`, `entries`: lists and maps in columns; `flowItems`, `flowEntries`: lists
  and maps in brackets;
* `read`: a document.
-/

set_option autoImplicit false

namespace Ia32.Yaml

/-! ## Readers -/

/-- Where a reader is, and the nodes that have been given names, the last first. -/
structure Position where
  place : Place
  anchors : List (String × Node) := []

/-- What is read from a place on. -/
abbrev Reader := StateT Position Option

namespace Reader

/-- The place where the reader is. -/
def here : Reader Place := do return (← get).place

/-- Goes to another place. -/
def move (f : Place → Place) : Reader Unit := modify fun s => { s with place := f s.place }

/-- Goes where a text ends, and gives the text. -/
def take (style : Style) (r : List Char × Place) : Reader Node := do
  move fun _ => r.2
  return .scalar (String.ofList r.1) style none

/-- What stands in front of a node: a name for it and the tag of its type. -/
structure Properties where
  anchor : Option String := none
  tag : Option String := none

/-- The characters of names for nodes. -/
def isAnchorPart (c : Char) : Bool := c.isAlphanum || c = '-' || c = '_'

/-- So many properties at most, on one line. -/
def properties (flow : Bool) : Nat → Properties → Reader Properties
  | 0, ps => return ps
  | n + 1, ps => do
    match (← here).rest with
    | '&' :: cs =>
      let name := cs.takeWhile isAnchorPart
      move fun p => (p.advance (name.length + 1)).skipSpaces
      properties flow n { ps with anchor := some (String.ofList name) }
    | '!' :: cs =>
      let name := cs.takeWhile fun c => !isSpace c && c != '\n' && !(flow && isFlowMark c)
      move fun p => (p.advance (name.length + 1)).skipSpaces
      properties flow n { ps with tag := some (String.ofList name) }
    | _ => return ps

/-- Gives a node its properties. -/
def give (ps : Properties) (node : Node) : Reader Node := do
  let node := node.withTag ps.tag
  match ps.anchor with
  | some name => modify fun s => { s with anchors := (name, node) :: s.anchors }
  | none => pure ()
  return node

/-- The node that has been given a name. -/
def named (name : String) : Reader Node := do
  match (← get).anchors.lookup name with
  | some node => return node
  | none => failure

/-! ## Nodes -/

mutual

/-- A node at a place where something stands. Its lines start from the least column on, the dashes
of a list from one of their own. -/
def node : Nat → (flow : Bool) → (least dash : Nat) → Reader Node
  | 0, _, _, _ => failure
  | fuel + 1, flow, least, dash => do
    let start ← get
    let ps ← properties flow 2 {}
    let _ ← give ps .empty
    if flow then move Place.skip
    let p ← here
    if !flow && p.atLineEnd then
      move Place.skip
      if (← here).belongs least dash then give ps (← node fuel false least dash)
      else give ps .empty
    else if !flow && p.atDash then give ps (.list (← items fuel p.column))
    else if !flow && (p.atQuestion || p.atColon) then
      give ps (.map (← entries fuel p.column))
    else if !flow && p.rest.head? = some '|' then
      give ps (← take .literal (blockText false least p))
    else if !flow && p.rest.head? = some '>' then
      give ps (← take .folded (blockText true least p))
    else do
      let content ← atom fuel flow
      if !flow && (← here).skipSpaces.atColon then
        set start
        return .map (← entries fuel start.place.column)
      match content with
      | .scalar text .plain _ =>
        give ps (← take .plain (plainLines flow least fuel text.toList (← here)))
      | content => give ps content

/-- A node that can be a key: named before, in brackets, in quotes, or on one line. -/
def atom : Nat → (flow : Bool) → Reader Node
  | 0, _ => failure
  | fuel + 1, flow => do
    let p ← here
    match p.rest with
    | '*' :: cs =>
      let name := cs.takeWhile isAnchorPart
      move (Place.advance (name.length + 1))
      named (String.ofList name)
    | '[' :: _ =>
      move (Place.advance 1)
      return .list (← flowItems fuel)
    | '\x7b' :: _ =>
      move (Place.advance 1)
      return .map (← flowEntries fuel)
    | '"' :: _ => take .quoted (← (quotedText '"' p : Option _))
    | '\'' :: _ => take .quoted (← (quotedText '\'' p : Option _))
    | _ => take .plain (plainLine flow p)

/-- A node after a mark, which may be left out. -/
def value : Nat → (least dash : Nat) → Reader Node
  | 0, _, _ => failure
  | fuel + 1, least, dash => do
    move Place.skip
    if (← here).belongs least dash then node fuel false least dash else return .empty

/-- The items of a list from a dash on, in its column. -/
def items : Nat → (column : Nat) → Reader (List Node)
  | 0, _ => failure
  | fuel + 1, column => do
    move (Place.advance 1)
    let item ← value fuel (column + 1) (column + 1)
    move Place.skip
    let p ← here
    if p.fresh && p.column = column && p.atDash then return item :: (← items fuel column)
    else return [item]

/-- The entries of a map from a key on, in its column. A key after a question mark has its value on
a line of its own. -/
def entries : Nat → (column : Nat) → Reader (List (Node × Node))
  | 0, _ => failure
  | fuel + 1, column => do
    let entry ←
      if (← here).atQuestion then do
        move (Place.advance 1)
        let key ← value fuel (column + 1) column
        move Place.skip
        let p ← here
        if p.fresh && p.column = column && p.atColon then
          move (Place.advance 1)
          pure (key, ← value fuel (column + 1) column)
        else pure (key, .empty)
      else do
        let ps ← properties false 2 {}
        let key ← if (← here).atColon then pure .empty else atom fuel false
        let key ← give ps key
        move Place.skipSpaces
        if !(← here).atColon then failure
        move (Place.advance 1)
        pure (key, ← value fuel (column + 1) column)
    move Place.skip
    let p ← here
    if p.fresh && p.column = column && !p.rest.isEmpty && !p.atEnd then
      return entry :: (← entries fuel column)
    else return [entry]

/-- The entry of a map in brackets from a key on. -/
def flowEntry : Nat → Reader (Node × Node)
  | 0 => failure
  | fuel + 1 => do
    if (← here).rest.head? = some '?' then
      move (Place.advance 1)
      move Place.skip
    let key ← node fuel true 0 0
    move Place.skip
    if (← here).rest.head? = some ':' then
      move (Place.advance 1)
      move Place.skip
      return (key, ← node fuel true 0 0)
    else return (key, .empty)

/-- The items of a list up to its bracket. A key with its value is an item as well. -/
def flowItems : Nat → Reader (List Node)
  | 0 => failure
  | fuel + 1 => do
    move Place.skip
    match (← here).rest with
    | ']' :: _ =>
      move (Place.advance 1)
      return []
    | ',' :: _ =>
      move (Place.advance 1)
      flowItems fuel
    | first :: _ =>
      let start ← get
      let item ← node fuel true 0 0
      move Place.skip
      let p ← here
      if first = '?' || p.rest.head? = some ':' then
        set start
        let entry ← flowEntry fuel
        return .map [entry] :: (← flowItems fuel)
      else if p.rest.head?.any isFlowMark then return item :: (← flowItems fuel)
      else failure
    | [] => failure

/-- The entries of a map up to its bracket. -/
def flowEntries : Nat → Reader (List (Node × Node))
  | 0 => failure
  | fuel + 1 => do
    move Place.skip
    match (← here).rest with
    | '\x7d' :: _ =>
      move (Place.advance 1)
      return []
    | ',' :: _ =>
      move (Place.advance 1)
      flowEntries fuel
    | [] => failure
    | _ =>
      let entry ← flowEntry fuel
      return entry :: (← flowEntries fuel)

end

/-! ## Documents -/

/-- Passes so many directives at most, and the dashes that start a document. -/
def start : Nat → Reader Unit
  | 0 => failure
  | n + 1 => do
    move Place.skip
    let p ← here
    if p.fresh && p.column = 0 && p.rest.head? = some '%' then
      move fun _ => ⟨0, true, (p.rest.dropWhile (· != '\n')).drop 1⟩
      start n
    else if p.atEnd && p.rest.head? = some '-' then move fun p => (p.advance 3).skipSpaces

/-- A document with so many characters at most. -/
def document (size : Nat) : Reader Node := do
  start (size + 1)
  let root ← value (4 * size + 4) 0 0
  move Place.skip
  let p ← here
  if p.rest.isEmpty || p.atEnd then return root else failure

end Reader

/-- A document. An empty one is a text left out. -/
def read (text : String) : Option Node :=
  let cs := unifyLineEnds text.toList
  (Reader.document cs.length).run' ⟨⟨0, true, cs⟩, []⟩

end Ia32.Yaml
