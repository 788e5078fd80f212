import Ia32.Assembly.Error

/-!
# Layout of a program

Statements lie in memory one after the other, from address zero on. A label names a statement by
its index, or the end of the program by the number of statements.

* `Symbols`: labels in the order of their first definitions;
* `Layout`: the labels and the lengths of the statements; `Layout.define`, `Layout.push`: with one
  label or one statement more; `Layout.starts`, `Layout.finish`: the addresses of the statements
  and of the end;
* `Layout.addressOf`, `Layout.indexAt?`, `Layout.resolve`: from indices, addresses and labels to
  addresses and indices.
-/

set_option autoImplicit false

namespace Ia32

/-! ## Labels -/

/-- Labels and the indices they name, in the order of their first definitions. -/
abbrev Symbols := List (String × Nat)

namespace Symbols

/-- Gives a label an index. A label that had one keeps its place. -/
def define (name : String) (index : Nat) : Symbols → Symbols
  | [] => [(name, index)]
  | s :: ss => if s.1 = name then (name, index) :: ss else s :: define name index ss

/-- The label of an index. Of several the last counts. -/
def nameAt? (symbols : Symbols) (index : Nat) : Option String :=
  (symbols.reverse.find? fun s => s.2 == index).map Prod.fst

end Symbols

/-! ## Addresses -/

/-- The labels of a program and the lengths of its statements. -/
structure Layout where
  symbols : Symbols := []
  lengths : List Nat := []
  deriving DecidableEq

/-- Where statements of given lengths start, if the first starts at an address. -/
def startsFrom (address : Long) : List Nat → List Long
  | [] => []
  | n :: ns => address :: startsFrom (address + BitVec.ofNat 32 n) ns

namespace Layout

/-- Gives a label an index. -/
def define (name : String) (index : Nat) (l : Layout) : Layout :=
  { l with symbols := l.symbols.define name index }

/-- Appends a statement of a given length. -/
def push (length : Nat) (l : Layout) : Layout := { l with lengths := l.lengths ++ [length] }

/-- The addresses of the statements. -/
def starts (l : Layout) : List Long := startsFrom 0 l.lengths

/-- The first address after the last statement. -/
def finish (l : Layout) : Long := l.lengths.foldl (fun a n => a + BitVec.ofNat 32 n) 0

/-- The address of a statement; for an index that has none, the end of the program. -/
def addressOf (l : Layout) (index : Nat) : Long := l.starts[index]?.getD l.finish

/-- The address that a label names. -/
def resolve (l : Layout) (name : String) : Except Cause Long :=
  match l.symbols.lookup name with
  | some index => .ok (l.addressOf index)
  | none => .error (.undefinedLabel name)

/-- The statement at an address. Of several, which must be empty but for the last, the last
counts. -/
def indexAt? (l : Layout) (address : Long) : Option Nat :=
  (l.starts.zipIdx.reverse.find? fun s => s.1 == address).map Prod.snd

/-- The addresses at which a statement starts, each with the statement. -/
def addressMap (l : Layout) : List (Long × Nat) :=
  l.starts.zipIdx.filter fun s => l.indexAt? s.1 == some s.2

end Layout

end Ia32
