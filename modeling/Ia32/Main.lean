import Ia32.Command.Assemble
import Ia32.Command.Emulate

/-!
# The program

The commands on the real system: `assemble` and `emulate`, each with its own arguments.

* `Assemble.Options.read`, `Emulate.Options.read`: what a command is asked to do, from its
  arguments; none if they make no sense;
* `systemHost`: commands on the real system; `main`: the command that the first argument names.
-/

set_option autoImplicit false

namespace Ia32

/-! ## Arguments -/

/-- A number on the command line, in decimal. -/
def readArgument (s : String) (bound : Nat) : Option Nat := do
  let n ← readDigits 10 s.toList
  if n < bound then some n else none

namespace Assemble.Options

/-- Reads arguments one by one, given what those before them ask for and whether a file has been
named. -/
def readFrom (o : Options) (named : Bool) : List String → Option Options
  | [] => some o
  | "-o" :: path :: args | "--output" :: path :: args =>
    readFrom { o with output := path } named args
  | "-m" :: path :: args | "--meta" :: path :: args =>
    readFrom { o with metadata := some path } named args
  | "-d" :: args | "--dump" :: args => readFrom { o with dump := true } named args
  | path :: args =>
    if named || path.startsWith "-" then none else readFrom { o with input := path } true args

/-- What the assembler is asked to do. -/
def read (args : List String) : Option Options := readFrom {} false args

end Assemble.Options

namespace Emulate.Options

/-- Reads arguments one by one, given what those before them ask for and whether a file has been
named. -/
def readFrom (o : Options) (named : Bool) : List String → Option Options
  | [] => some o
  | "-t" :: n :: args | "--tmax" :: n :: args => do
    readFrom { o with limit := some (← readArgument n (2 ^ 64)) } named args
  | "-m" :: n :: args | "--memory" :: n :: args => do
    readFrom { o with memory := BitVec.ofNat 32 (← readArgument n (2 ^ 32)) } named args
  | "-l" :: n :: args | "--load-addr" :: n :: args => do
    readFrom { o with loadAddress := BitVec.ofNat 32 (← readArgument n (2 ^ 32)) } named args
  | "-d" :: path :: args | "--dump-cfg" :: path :: args =>
    readFrom { o with settings := some path } named args
  | "-a" :: args | "--dump-all" :: args => readFrom { o with dumpAll := true } named args
  | "-q" :: args | "--quiet" :: args => readFrom { o with quiet := true } named args
  | path :: args =>
    if named || path.startsWith "-" then none else readFrom { o with input := path } true args

/-- What the emulator is asked to do. -/
def read (args : List String) : Option Options := readFrom {} false args

end Emulate.Options

/-! ## The real system -/

/-- The reason for a failure, in words. -/
def failureText : IO.Error → String
  | .noFileOrDirectory _ _ _ => FileError.missing.text
  | .permissionDenied _ _ _ => "Permission denied (os error 13)"
  | e => toString e

/-- The result of an action, or the reason for its failure. -/
def attempt {α : Type} (action : IO α) : IO (Except String α) := do
  try return .ok (← action)
  catch e => return .error (failureText e)

/-- Commands on the real system. -/
def systemHost : Host IO where
  readText path := attempt (IO.FS.readFile path)
  writeText path s := attempt (IO.FS.writeFile path s)
  writeBytes path bs :=
    attempt (IO.FS.writeBinFile path (ByteArray.mk (bs.map fun b => UInt8.ofBitVec b).toArray))
  printLine s := IO.println s

/-- How the program is called. -/
def usage : String :=
  "usage: assemble [-o FILE] [-m FILE] [-d] [FILE]\n" ++
    "       emulate [-t N] [-m N] [-l N] [-d FILE] [-a] [-q] [FILE]"

/-- Tells how the program is called. -/
def misused : IO UInt32 := do
  IO.eprintln usage
  return 2

end Ia32

open Ia32 in
/-- Runs the command that the first argument names. -/
def main (args : List String) : IO UInt32 := do
  match args with
  | "assemble" :: rest =>
    match Assemble.Options.read rest with
    | some o => return (← Assemble.run systemHost o).toNat.toUInt32
    | none => misused
  | "emulate" :: rest =>
    match Emulate.Options.read rest with
    | some o => return (← Emulate.run systemHost o).toNat.toUInt32
    | none => misused
  | _ => misused
