import Ia32.Command.Host

/-!
# A directory in memory

A directory without subdirectories, in which commands run. Several paths name one file: `x`, `./x`
and `.//x` are the same. Nothing is known of what lies outside, and nothing is found there.

* `Directory`: files held in memory and what has been printed;
* `Directory.locate`: what a path leads to;
* `Directory.read`, `Directory.write`: the contents of a file;
* `Directory.host`: commands on a directory.
-/

set_option autoImplicit false

namespace Ia32

/-- What is in a file. -/
inductive Contents where
  | text (s : String)
  | bytes (bs : List Byte)
  deriving DecidableEq

/-- A directory without subdirectories, and what has been printed. -/
structure Directory where
  files : List (String × Contents) := []
  printed : String := ""
  deriving DecidableEq

namespace Directory

/-! ## Paths -/

/-- What a path leads to. -/
inductive Place where
  | directory
  /-- A file of the directory, which need not exist. -/
  | file (name : String)
  deriving DecidableEq

/-- The names along a path. Slashes at its ends and repeated ones do not count. -/
def pathNames (path : String) : List String :=
  ((Text.splitOn '/' path.toList).filter fun name => !name.isEmpty).map String.ofList

/-- Whether a path has to lead to a directory, since a slash ends it. -/
def endsInSlash (path : String) : Bool := path.toList.getLast? == some '/'

/-- Where names lead from a directory further up, of which nothing is known but that it exists. -/
def outside (names : List String) : Except FileError Place :=
  if names.all fun name => name == "." || name == ".." then .ok .directory else .error .missing

/-- The greatest number of bytes in the name of a file. -/
def nameLimit : Nat := 255

/-- Where names lead from the directory. -/
def follow (d : Directory) : List String → Except FileError Place
  | [] => .ok .directory
  | name :: names =>
    if name = "." then d.follow names
    else if name = ".." then outside names
    else if nameLimit < name.utf8ByteSize then .error .nameTooLong
    else if names.isEmpty then .ok (.file name)
    else if (d.files.lookup name).isSome then .error .notDirectory
    else .error .missing

/-- What a path leads to. An empty path leads nowhere, and one that starts with a slash out of the
directory. -/
def locate (d : Directory) (path : String) : Except FileError Place :=
  match path.toList.head? with
  | none => .error .missing
  | some '/' => outside (pathNames path)
  | some _ => d.follow (pathNames path)

/-! ## Files -/

/-- The contents of a file. -/
def read (d : Directory) (path : String) : Except FileError Contents := do
  match ← d.locate path with
  | .directory => throw .isDirectory
  | .file name =>
    match d.files.lookup name with
    | none => throw .missing
    | some c => if endsInSlash path then throw .notDirectory else return c

/-- The contents of a file, if it can be read. -/
def find? (d : Directory) (path : String) : Option Contents := (d.read path).toOption

/-- Puts a file in the place of the one of its name. -/
def put (d : Directory) (name : String) (c : Contents) : Directory :=
  { d with files := (name, c) :: d.files.filter fun f => f.1 != name }

/-- Gives a file contents. -/
def write (d : Directory) (path : String) (c : Contents) : Except FileError Directory := do
  match ← d.locate path with
  | .directory => throw .isDirectory
  | .file name => if endsInSlash path then throw .isDirectory else return d.put name c

/-! ## Commands -/

/-- The text in a file. -/
def readText (d : Directory) (path : String) : Except FileError String := do
  match ← d.read path with
  | .text s => return s
  | .bytes _ => throw .notText

/-- Changes the directory, or tells why it does not change. -/
def change (f : Directory → Except FileError Directory) :
    StateM Directory (Except String Unit) := do
  match f (← get) with
  | .ok d =>
    set d
    return .ok ()
  | .error e => return .error e.text

/-- Commands on a directory. -/
def host : Host (StateM Directory) where
  readText path := do
    match (← get).readText path with
    | .ok s => return .ok s
    | .error e => return .error e.text
  writeText path s := change fun d => d.write path (.text s)
  writeBytes path bs := change fun d => d.write path (.bytes bs)
  printLine s := modify fun d => { d with printed := d.printed ++ s ++ "\n" }

end Directory

end Ia32
