import Ia32.Assembly.Listing
import Ia32.Command.Host

/-!
# The assembler as a command

* `Assemble.Options`: what the command is asked to do;
* `Assemble.run`: reads a source text, writes its code and, if asked, its metadata, and reports.
-/

set_option autoImplicit false

namespace Ia32.Assemble

/-- What the assembler is asked to do. -/
structure Options where
  input : String := "main.s"
  output : String := "main.bin"
  /-- Whether to print the listing. -/
  dump : Bool := false
  /-- The file for the metadata. -/
  metadata : Option String := none

/-- The listing in its frame, under the name of the file. -/
def frame (file : String) (rows : List String) : List String :=
  let dashes (n : Nat) : String := String.ofList (List.replicate n '-')
  [dashes 35 ++ "+------[" ++ file ++ "]" ++ dashes (45 - file.utf8ByteSize)] ++ rows ++
    [dashes 35 ++ "+" ++ dashes 53]

/-- The last line of the report. -/
def summary (p : Program) : String :=
  Text.styled [.green, .bold] "Done" ++
    s!": {p.entries.length} statement(s), {p.code.length} byte(s), entry 0x" ++
    Text.hexCapital p.entryPoint.toNat

variable {m : Type → Type} [Monad m] (host : Host m)

/-- Tells that a file could not be written. -/
def notWritten (path why : String) : m ExitCode := do
  host.printLine (Report.failure "Failed to write File" (path ++ ": " ++ why))
  return .failure

/-- Prints the listing, if asked, and the summary. -/
def finish (o : Options) (p : Program) : m ExitCode := do
  if o.dump then (frame o.input p.colouredRows).forM host.printLine
  host.printLine (summary p)
  return .success

/-- Writes the code of a program and its metadata, if asked. -/
def write (o : Options) (p : Program) : m ExitCode := do
  host.printLine "3. Write Binary"
  host.printLine ("  > " ++ o.output)
  match ← host.writeBytes o.output p.code with
  | .error why => notWritten host o.output why
  | .ok () =>
    match o.metadata with
    | none => finish host o p
    | some path =>
      host.printLine ("  > " ++ path)
      match ← host.writeText path p.metadata.yaml with
      | .error why => notWritten host path why
      | .ok () => finish host o p

/-- Assembles a file. -/
def run (o : Options) : m ExitCode := do
  host.printLine "x86 Assembler"
  host.printLine "1. Read File"
  host.printLine ("  < " ++ o.input)
  match ← host.readText o.input with
  | .error why =>
    host.printLine (Report.failure "Failed to open File" (o.input ++ ": " ++ why))
    return .failure
  | .ok source =>
    host.printLine "2. Assemble"
    match Program.assemble source with
    | .error e =>
      (Report.error o.input source e).forM host.printLine
      return .failure
    | .ok p =>
      (p.warnings.flatMap (Report.warning o.input source)).forM host.printLine
      write host o p

end Ia32.Assemble
