import Ia32.Yaml.Reader

/-!
# Settings for dumps

A settings file says after which instructions, by their addresses, what is to be shown:

    16:
      stack: true
      memory: [0, 4]

* `DumpSettings`: what to show after the instruction at an address;
* `DumpSettings.ofNode?`: the settings of one address;
* `DumpSettings.readAll`: the settings in a file.
-/

set_option autoImplicit false

namespace Ia32

/-- What to show after an instruction. -/
structure DumpSettings where
  stack : Bool := false
  memory : List Long := []
  deriving DecidableEq

namespace DumpSettings

/-- A number that fits in a long. -/
def long? (n : Yaml.Node) : Option Long := do
  let v ← n.natural?
  if Width.long.fits v then some (BitVec.ofNat 32 v) else none

/-- A list of numbers, which may be left out. -/
def longs? (n : Yaml.Node) : Option (List Long) :=
  match n with
  | .list items => items.mapM long?
  | n => if n.isOmitted then some [] else none

/-- The settings after one more entry. Entries of other names say nothing. -/
def withEntry (s : DumpSettings) : Yaml.Node × Yaml.Node → Option DumpSettings
  | (.scalar "stack" _ _, value) => do return { s with stack := ← value.bool? }
  | (.scalar "memory" _ _, value) => do return { s with memory := ← longs? value }
  | _ => some s

/-- The settings of one address: entries by name, or the values alone, the stack first. They may be
left out. -/
def ofNode? (n : Yaml.Node) : Option DumpSettings :=
  match n with
  | .map entries => entries.foldlM withEntry {}
  | .list [] => some {}
  | .list [stack] => do return { stack := ← stack.bool? }
  | .list [stack, memory] => do return { stack := ← stack.bool?, memory := ← longs? memory }
  | n => if n.isOmitted then some {} else none

/-- The settings of an address, put in the place of those it has. -/
def replace (address : Long) (s : DumpSettings) (all : List (Long × DumpSettings)) :
    List (Long × DumpSettings) :=
  all.filter (·.1 != address) ++ [(address, s)]

/-- The settings by the addresses of instructions. Of several settings of an address the last
count. -/
def ofDocument? (n : Yaml.Node) : Option (List (Long × DumpSettings)) :=
  match n with
  | .map entries =>
    entries.foldlM (fun all (key, value) => do
      return replace (← long? key) (← ofNode? value) all) []
  | n => if n.isOmitted then some [] else none

/-- The settings in a file, by the addresses of instructions, or a complaint. -/
def readAll (text : String) : Except String (List (Long × DumpSettings)) :=
  match (Yaml.read text).bind ofDocument? with
  | some all => .ok all
  | none => .error "invalid dump settings"

end DumpSettings

end Ia32
