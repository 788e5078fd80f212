import Ia32.Assembly.Program
import Ia32.Yaml.Node

/-!
# Listings

An assembled program in print, and what a debugger wants to know of it.

* `Program.listing`, `Program.table`, `Program.colouredRow`: the program, statement by statement;
* `Metadata`, `Program.metadata`: lines, labels and addresses; `Metadata.yaml`: as a document.
-/

set_option autoImplicit false

namespace Ia32

/-! ## Listings -/

/-- The texts of one statement in a table. -/
structure Row where
  address : String
  label : String
  code : String
  operator : String
  operands : List String

namespace Program

/-- The label of a statement. -/
def labelAt? (p : Program) (index : Nat) : Option String := p.layout.symbols.nameAt? index

/-- A statement with its index. -/
def row (p : Program) (e : Entry) (index : Nat) : Row where
  address := Text.hex (p.layout.addressOf index).toNat
  label := (p.labelAt? index).getD ""
  code := Text.hexBytes e.code
  operator := e.statement.operator
  operands := e.statement.operandTexts

/-- The statements as a table. -/
def table (p : Program) : List Row := p.entries.zipIdx.map fun (e, i) => p.row e i

/-- One line of the listing. -/
def listingLine (p : Program) (e : Entry) (index : Nat) : String :=
  let label := match p.labelAt? index with
    | some name => name ++ ": "
    | none => ""
  Text.hex (p.layout.addressOf index).toNat ++ ":\t\t\t" ++
    Text.padRight 24 (Text.hexBytes e.code) ++ "\t" ++ label ++ e.statement.text

/-- The program in print. -/
def listing (p : Program) : String :=
  let header := ["Addr\t\t\tMachine Code\t\t\tAssembly", String.ofList (List.replicate 80 '-')]
  String.join ((header ++ p.entries.zipIdx.map fun (e, i) => p.listingLine e i).map (· ++ "\n"))

/-- One line of the coloured listing. -/
def colouredRow (p : Program) (e : Entry) (index : Nat) : String :=
  let label := match p.labelAt? index with
    | some name => Text.styled [.green] (name ++ ":") ++ " "
    | none => ""
  "[" ++ Text.hexLong (p.layout.addressOf index) ++ "] " ++
    Text.padRight 24 (Text.hexBytes e.code) ++ "| " ++ Text.padLeft 4 ' ' (toString e.line) ++
    ": " ++ label ++ e.statement.coloured

/-- The coloured listing. -/
def colouredRows (p : Program) : List String :=
  p.entries.zipIdx.map fun (e, i) => p.colouredRow e i

end Program

/-! ## Metadata -/

/-- What a debugger wants to know of a program. -/
structure Metadata where
  program : String
  lineNums : List Nat
  symbolTable : Symbols
  reverseSymbolTable : List (Nat × String)
  startAddresses : List Long
  lengths : List Nat
  addressMap : List (Long × Nat)

namespace Program

/-- The indices that have a label, in order, each with its label. -/
def reverseSymbols (p : Program) : List (Nat × String) :=
  (List.range (p.entries.length + 1)).filterMap fun i => (p.labelAt? i).map (i, ·)

/-- What a debugger wants to know of a program. -/
def metadata (p : Program) : Metadata where
  program := p.text
  lineNums := p.entries.map Entry.line
  symbolTable := p.layout.symbols
  reverseSymbolTable := p.reverseSymbols
  startAddresses := p.layout.starts
  lengths := p.layout.lengths
  addressMap := p.layout.addressMap

end Program

namespace Metadata

/-- The metadata as a document of one field a line. -/
def yaml (m : Metadata) : String :=
  Yaml.fields [
    ("program", Yaml.quoted m.program),
    ("line_nums", Yaml.flowList (m.lineNums.map toString)),
    ("symbol_table", Yaml.flowMap (m.symbolTable.map fun (s, i) => (Yaml.quoted s, toString i))),
    ("reverse_symbol_table",
      Yaml.flowMap (m.reverseSymbolTable.map fun (i, s) => (toString i, Yaml.quoted s))),
    ("instruction_start_addr",
      Yaml.flowList (m.startAddresses.map fun a => toString a.toNat)),
    ("instruction_lengths", Yaml.flowList (m.lengths.map toString)),
    ("addr_instruction_map",
      Yaml.flowMap (m.addressMap.map fun (a, i) => (toString a.toNat, toString i)))]

end Metadata

end Ia32
