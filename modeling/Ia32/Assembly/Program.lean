import Ia32.Assembly.Statement

/-!
# Assembling

A text is assembled in four steps, of which each looks at all statements before the next begins:
the lines are read, the statements are built, their lengths are found, and they are encoded.

* `Definition`, `Source.definitions`: the labels of a text with what they name;
* `Warning`, `redefinitions`: the warnings about labels that are defined again;
* `Program`: statements with their code; `Program.assemble`: the program of a text;
* `Program.code`, `Program.entryPoint`, `Program.lineAt?`: what the program is run by.
-/

set_option autoImplicit false

namespace Ia32

/-! ## Labels -/

/-- A label, the statement it names, and the line the definition is reported on. -/
structure Definition where
  name : String
  index : Nat
  line : Nat
  deriving DecidableEq

/-- The definitions of statements, from the index of the first. -/
def definitionsFrom : Nat → List RawStatement → List Definition
  | _, [] => []
  | i, s :: ss => s.labels.map (⟨·, i, s.line⟩) ++ definitionsFrom (i + 1) ss

/-- The definitions of a text, in order. A label is reported on the line of its statement, and
where it has none, on its own. -/
def Source.definitions (source : Source) : List Definition :=
  definitionsFrom 0 source.statements ++
    source.trailing.map fun (name, line) => ⟨name, source.statements.length, line⟩

/-- The labels of definitions. Of several definitions of a label the last counts. -/
def Layout.ofDefinitions (defs : List Definition) : Layout :=
  defs.foldl (fun l d => l.define d.name d.index) {}

/-! ## Warnings -/

/-- What a warning says. -/
inductive Notice where
  | redefined (label : String)
  | alreadyDefined
  deriving DecidableEq

/-- Whether a notice explains the warning before it. -/
def Notice.isNote : Notice → Bool
  | redefined _ => false
  | alreadyDefined => true

/-- The wording of a notice. -/
def Notice.message : Notice → String
  | redefined label => s!"Re-defined label `{label}`"
  | alreadyDefined => "Already defined here, the later definition wins"

/-- A notice about a line. -/
structure Warning where
  notice : Notice
  line : Nat
  deriving DecidableEq

/-- The warnings about definitions, given those before them, the nearest first: one about each
definition of a label that has one already, and a note about that one. -/
def redefinitions (before : List Definition) : List Definition → List Warning
  | [] => []
  | d :: ds =>
    (match before.find? fun e => e.name == d.name with
      | some e => [⟨.redefined d.name, d.line⟩, ⟨.alreadyDefined, e.line⟩]
      | none => []) ++ redefinitions (d :: before) ds

/-! ## Programs -/

/-- A statement, its line, and its code. -/
structure Entry where
  statement : Statement
  line : Nat
  code : List Byte
  deriving DecidableEq

/-- An assembled text. -/
structure Program where
  text : String
  entries : List Entry
  layout : Layout
  warnings : List Warning
  deriving DecidableEq

namespace Program

/-- The statements of a text with their lines. -/
def build (raw : List RawStatement) : Except AssemblyError (List (Statement × Nat)) :=
  raw.mapM fun s => do return (← onLine s.line (Statement.ofBody s.body), s.line)

/-- A layout with room for more statements, each right after the one before it. -/
def reserve (layout : Layout) : List (Statement × Nat) → Except AssemblyError Layout
  | [] => .ok layout
  | (s, line) :: rest => do
    let length ← onLine line s.length
    reserve (layout.push length) rest

/-- The code of a statement, which must be as long as was foreseen. -/
def encodeEntry (layout : Layout) (index : Nat) (s : Statement) (line : Nat) :
    Except AssemblyError Entry := do
  let code ← onLine line (s.bytes layout index)
  let foreseen := layout.lengths[index]?.getD 0
  if code.length ≠ foreseen then
    throw ⟨.lengthDiffers s.text code.length foreseen, some line⟩
  return ⟨s, line, code⟩

/-- Statements with their code, from the index of the first. -/
def encode (layout : Layout) : Nat → List (Statement × Nat) → Except AssemblyError (List Entry)
  | _, [] => .ok []
  | i, (s, line) :: rest => do
    let entry ← encodeEntry layout i s line
    return entry :: (← encode layout (i + 1) rest)

/-- The program of a text. -/
def assemble (text : String) : Except AssemblyError Program := do
  let source ← Source.read text
  let statements ← build source.statements
  let definitions := source.definitions
  let layout ← reserve (.ofDefinitions definitions) statements
  let entries ← encode layout 0 statements
  return ⟨text, entries, layout, redefinitions [] definitions⟩

/-- The machine code of a program. -/
def code (p : Program) : List Byte := p.entries.flatMap Entry.code

/-- The offset at which a program starts: its label `start`, else `_start`, else zero. -/
def entryPoint (p : Program) : Long :=
  match p.layout.resolve "start", p.layout.resolve "_start" with
  | .ok address, _ => address
  | _, .ok address => address
  | _, _ => 0

/-- The line of the statement that starts at an offset. -/
def lineAt? (p : Program) (offset : Long) : Option Nat := do
  let index ← p.layout.indexAt? offset
  let entry ← p.entries[index]?
  return entry.line

end Program

end Ia32
