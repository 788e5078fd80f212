import Ia32.Assembly.Program

/-!
# The system around a command

A command reads and writes files and prints lines. What it does it does through a `Host`, so that
one definition serves the system it runs on and a directory held in memory.

* `Host`: what a command can do;
* `FileError`: why a file cannot be read or written; `FileError.text`: its wording;
* `ExitCode`: how a command ends;
* `Report.excerpt`: a line of a source text in its frame;
* `Report.failure`, `Report.error`, `Report.warning`: what could not be done, an error of
  assembly, and a warning, as lines to print.
-/

set_option autoImplicit false

namespace Ia32

/-- What a command can do. A file operation that fails gives the reason in words. -/
structure Host (m : Type → Type) where
  readText : String → m (Except String String)
  writeText : String → String → m (Except String Unit)
  writeBytes : String → List Byte → m (Except String Unit)
  printLine : String → m Unit

/-- Why a file cannot be read or written. -/
inductive FileError where
  | missing
  /-- The path goes through a file as if it were a directory. -/
  | notDirectory
  | isDirectory
  | nameTooLong
  | notText
  deriving DecidableEq

/-- The reason in words. -/
def FileError.text : FileError → String
  | missing => "No such file or directory (os error 2)"
  | notDirectory => "Not a directory (os error 20)"
  | isDirectory => "Is a directory (os error 21)"
  | nameTooLong => "File name too long (os error 36)"
  | notText => "stream did not contain valid UTF-8"

/-- How a command ends. -/
inductive ExitCode where
  | success
  | failure
  deriving DecidableEq

/-- The number that tells how a command has ended. -/
def ExitCode.toNat : ExitCode → Nat
  | success => 0
  | failure => 1

/-! ## Reports -/

namespace Report

open Text

/-- A line of a source text in its frame, under the name of the file. -/
def excerpt (file source : String) (line : Nat) : List String :=
  [ "     " ++ styled [.blue] "-->" ++ " " ++ styled [.underline] (file ++ ":" ++ toString line),
    "      " ++ styled [.blue] "|",
    " " ++ styled [.blue] (padLeft 4 ' ' (toString line) ++ " |") ++ " " ++ nthLine source line,
    "      " ++ styled [.blue] "|" ]

/-- What could not be done, and why. -/
def failure (what why : String) : String := styled [.red, .bold] what ++ ": " ++ why

/-- An error of assembly, with the line that it is blamed on. -/
def error (file source : String) (e : AssemblyError) : List String :=
  failure "error" (e.cause.kind.name ++ ": " ++ e.cause.message) ::
    match e.line with
    | some line => excerpt file source line
    | none => []

/-- A warning, with the line that it is about. -/
def warning (file source : String) (w : Warning) : List String :=
  let headline :=
    if w.notice.isNote then styled [.green, .bold] "note" else styled [.yellow, .bold] "warn"
  (headline ++ ": " ++ w.notice.message) :: excerpt file source w.line

end Report

end Ia32
