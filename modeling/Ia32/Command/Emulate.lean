import Ia32.Command.DumpSettings
import Ia32.Command.Host
import Ia32.Machine.Execute
import Ia32.Text.Quoted

/-!
# The emulator as a command

* `Emulate.Options`: what the command is asked to do;
* `Emulate.longsBelow`, `Emulate.stackWords`: the part of the stack that a dump shows;
* `Emulate.registerLines`, `Emulate.stackLines`, `Emulate.memoryLines`: the parts of a dump;
* `Emulate.run`: assembles a source text, runs it, and prints what it does.
-/

set_option autoImplicit false

namespace Ia32.Emulate

open Text

/-- What the emulator is asked to do. -/
structure Options where
  input : String := "main.s"
  /-- The number of instructions after which to stop. -/
  limit : Option Nat := none
  memory : Long := 0x10000
  loadAddress : Long := 0
  /-- The file with settings for dumps. -/
  settings : Option String := none
  /-- Whether to show the registers after every instruction. -/
  dumpAll : Bool := false
  /-- Whether not to show the instructions. -/
  quiet : Bool := false

/-! ## Dumps -/

/-- The frame of a dump of registers. -/
def registerFrame : String := " +----------------+----------------+----------------+"

/-- The end of a dump of the stack or of memory. -/
def dumpEnd : String := " +--------------------------------------------------+"

/-- A register, named, in hexadecimal. -/
def registerCell (name : String) (v : Long) : String := name ++ ": " ++ hexLong v

/-- A row of registers. -/
def registerRow (cells : List String) : String := " | " ++ " | ".intercalate cells ++ " |"

/-- The flags that a dump shows, each by its letter. -/
def flagLetters : List (Flag × Char) :=
  [(.overflow, 'O'), (.direction, 'D'), (.interrupt, 'I'), (.sign, 'S'), (.zero, 'Z'),
    (.auxiliary, 'A'), (.parity, 'P'), (.carry, 'C')]

/-- The letters of the flags that are set, with dashes for the others. -/
def flagText (f : Flags) : String :=
  String.ofList (flagLetters.map fun (flag, c) => if f.get flag then c else '-')

/-- The registers and flags. -/
def registerLines (m : Machine) : List String :=
  let cell (r : Reg) : String := registerCell r.name (m.get r)
  [ registerFrame,
    registerRow [cell .eax, cell .ebx, cell .ecx],
    registerRow [cell .edx, cell .esi, cell .edi],
    registerRow [cell .esp, cell .ebp, registerCell "eip" m.eip],
    " | eflags: " ++ padRight 41 (flagText m.flags) ++ " |",
    registerFrame ]

/-- The longs that a dump shows from an address on, each with its address: those that start below a
top, up to the first that is not all in memory. The address goes up in 32 bits, and there is no
result if the next one does not fit. -/
def longsBelow (mem : Memory) (top : Nat) (address : Long) : Option (List (Long × Long)) := do
  if address.toNat < top then
    match mem.read address .long with
    | .ok v =>
      if address.toNat + 4 ≤ 0xFFFFFFFF then
        return (address, v) :: (← longsBelow mem top (address + 4))
      else none
    | .error _ => return []
  else return []
termination_by 0xFFFFFFFF - address.toNat
decreasing_by bv_omega

/-- The address up to which the stack is shown: the frame pointer if it is above the stack
pointer, else eight longs on. -/
def stackTop (m : Machine) : Nat :=
  if m.get .esp < m.get .ebp then (m.get .ebp).toNat
  else min ((m.get .esp).toNat + 32) 0xFFFFFFFF

/-- The longs on the stack, from the stack pointer on, that start below the top. -/
def stackWords (m : Machine) : Option (List (Long × Long)) :=
  longsBelow m.memory (stackTop m) (m.get .esp)

/-- A line of a dump of the stack or of memory. -/
def dumpLine (address : Long) (value : String) : String :=
  padRight 53 (" | " ++ hexLong address ++ " : " ++ value) ++ "|"

/-- The stack, a line a long. Without a result nothing is shown. -/
def stackLines (m : Machine) : List String :=
  match stackWords m with
  | some words => words.map (fun (address, v) => dumpLine address (hexLong v)) ++ [dumpEnd]
  | none => []

/-- Bytes of memory. -/
def memoryLines (m : Machine) (addresses : List Long) : List String :=
  addresses.map (fun a =>
    match m.memory.read a .byte with
    | .ok v => dumpLine a (padLeft 2 '0' (hexCapital v.toNat))
    | .error f => " | " ++ hexLong a ++ " : " ++ f.text) ++ [dumpEnd]

/-- What is shown after an instruction at an address. -/
def dumpLines (o : Options) (settings : List (Long × DumpSettings)) (address : Long)
    (m : Machine) : List String :=
  match settings.lookup address with
  | some s =>
    registerLines m ++ (if s.stack then stackLines m else []) ++ memoryLines m s.memory
  | none => if o.dumpAll then registerLines m else []

/-! ## Reports -/

/-- An instruction that has been executed, with its number. -/
def traceLine (time : Nat) (d : Decoded) : String :=
  "[" ++ padLeft 4 '0' (toString time) ++ "] " ++
    styled [.blue] (padLeft 8 '0' (hex d.address.toNat)) ++ ": " ++ d.coloured

/-- The name of the file in its frame. -/
def banner (file : String) : List String :=
  let line := "+" ++ String.ofList (List.replicate 47 '-') ++ "+"
  [line, "| " ++ padRight 45 file ++ " |", line]

/-- What is printed before the first instruction. -/
def introduction (o : Options) (settings : List (Long × DumpSettings)) : List String :=
  (if o.dumpAll then [" * Dump all"] else []) ++
    match o.settings with
    | some file => [s!" * Dump[{settings.length}] " ++ quoted file]
    | none => []

/-- What is printed when the machine has stopped. -/
def summary (steps : Nat) (m : Machine) : List String :=
  [String.ofList (List.replicate 49 '='),
    styled [.green, .bold] "Halted" ++ s!": {steps} instruction(s), eip 0x" ++
      hexCapital m.eip.toNat] ++
    m.registers.display.map fun (name, value) => "  " ++ padLeft 3 ' ' name ++ ": " ++ value

/-- What is printed when an instruction at an address has failed. -/
def fault (o : Options) (source : String) (p : Program) (address : Long) (f : Fault) :
    List String :=
  let line : Option Nat :=
    if o.loadAddress ≤ address then p.lineAt? (address - o.loadAddress) else none
  Report.failure "error" f.text ::
    match line with
    | some line => Report.excerpt o.input source line
    | none => []

/-! ## Runs -/

variable {m : Type → Type} [Monad m] (host : Host m)

/-- Prints lines. -/
def printLines (ls : List String) : m Unit := ls.forM host.printLine

/-- Executes a number of instructions at most, and prints what they do. -/
def loop (o : Options) (source : String) (p : Program) (settings : List (Long × DumpSettings)) :
    Nat → Nat → Machine → m ExitCode
  | 0, time, machine => do
    printLines host (summary time machine)
    return .success
  | fuel + 1, time, machine => do
    match Action.step machine with
    | .ok (some d) machine' =>
      if !o.quiet then host.printLine (traceLine time d)
      printLines host (dumpLines o settings d.address machine')
      loop o source p settings fuel (time + 1) machine'
    | .ok none machine' =>
      printLines host (summary time machine')
      return .success
    | .error f _ =>
      printLines host (fault o source p machine.eip f)
      return .failure

/-- The number of instructions that are never exceeded. -/
def unlimited : Nat := 0xFFFFFFFFFFFFFFFF

/-- The settings for dumps, none if there is no file for them. -/
def readSettings (o : Options) : m (Except String (List (Long × DumpSettings))) := do
  match o.settings with
  | none => return .ok []
  | some file =>
    match ← host.readText file with
    | .error why => return .error (file ++ ": " ++ why)
    | .ok text =>
      match DumpSettings.readAll text with
      | .error why => return .error (file ++ ": " ++ why)
      | .ok settings => return .ok settings

/-- Runs a program in a machine that it has been loaded into. -/
def start (o : Options) (source : String) (p : Program) (machine : Machine) : m ExitCode := do
  host.printLine "[INIT]"
  match ← readSettings host o with
  | .error why =>
    host.printLine (Report.failure "Failed to load dump config" why)
    return .failure
  | .ok settings =>
    printLines host (introduction o settings)
    loop host o source p settings (o.limit.getD unlimited) 0 machine

/-- Assembles and runs a file. -/
def run (o : Options) : m ExitCode := do
  host.printLine "x86 Emulator"
  printLines host (banner o.input)
  match ← host.readText o.input with
  | .error why =>
    host.printLine (Report.failure "Failed to open File" (o.input ++ ": " ++ why))
    return .failure
  | .ok source =>
    match Program.assemble source with
    | .error e =>
      printLines host (Report.error o.input source e)
      return .failure
    | .ok p =>
      printLines host (p.warnings.flatMap (Report.warning o.input source))
      match (Pc.new o.memory).load p.code o.loadAddress p.entryPoint with
      | .error f =>
        host.printLine (Report.failure "error" f.text)
        return .failure
      | .ok pc => start host o source p pc.machine

end Ia32.Emulate
