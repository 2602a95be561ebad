import MipsBackend.Text.Utf8

/-!
# Files and standard streams

The command talks to its surroundings through a host.  A `Workspace` is one that is a value: a
directory of files with the standard streams.
-/

namespace MipsBackend.CommandLine

/-- Why a file could not be used. -/
inductive FileError where
  | notFound
  | notADirectory
  | isADirectory
  | invalidUtf8
  | other (message : String)
deriving DecidableEq

/-- The system's wording of a file error. -/
def FileError.message : FileError → String
  | .notFound => "No such file or directory (os error 2)"
  | .notADirectory => "Not a directory (os error 20)"
  | .isADirectory => "Is a directory (os error 21)"
  | .invalidUtf8 => "stream did not contain valid UTF-8"
  | .other message => message

/-- What a command can do. -/
class Host (m : Type → Type) where
  readInput : m (Except FileError ByteArray)
  readFile : String → m (Except FileError ByteArray)
  /-- Creates an empty file or empties an existing one. -/
  createFile : String → m (Except FileError Unit)
  /-- Appends to a file that was created. -/
  appendFile : String → ByteArray → m (Except FileError Unit)
  writeOutput : ByteArray → m (Except FileError Unit)
  /-- Writes to the standard stream for diagnostics. -/
  writeError : String → m Unit

/-- A directory of files, with the standard streams. -/
structure Workspace where
  files : List (String × ByteArray) := []
  input : ByteArray := .empty
  output : ByteArray := .empty
  errors : String := ""

namespace Workspace

/-- What a path leads to. -/
inductive Place where
  | directory
  /-- A file of the directory, which need not exist. -/
  | file (name : String)

/-- The part of a path is no name: it leads to the directory reached so far or to the one above. -/
def isDots (part : String) : Bool :=
  part = "" ∨ part = "." ∨ part = ".."

/-- Follows the parts of a path from the directory itself.  Nothing is known above it. -/
def walk (w : Workspace) : List String → Except FileError Place
  | [] => .ok .directory
  | part :: rest =>
    if part = "" ∨ part = "." then walk w rest
    else if part = ".." then
      if rest.all isDots then .ok .directory else .error .notFound
    else if rest.isEmpty then .ok (.file part)
    else if (w.files.lookup part).isSome then .error .notADirectory
    else .error .notFound

/-- What the parts of a path lead to.  Of absolute paths only the top directory is known, which is
also the one above itself. -/
def locate (w : Workspace) (absolute : Bool) (parts : List String) : Except FileError Place :=
  if absolute then
    if parts.all isDots then .ok .directory else .error .notFound
  else w.walk parts

/-- What a path leads to. -/
def place (w : Workspace) (path : String) : Except FileError Place :=
  if path.isEmpty then .error .notFound
  else w.locate (path.startsWith "/") (path.splitOn "/")

/-- The content of a file. -/
def read (w : Workspace) (path : String) : Except FileError ByteArray := do
  match ← w.place path with
  | .directory => throw .isADirectory
  | .file name =>
    match w.files.lookup name with
    | some content => return content
    | none => throw .notFound

/-- The directory with the content of a file set. -/
def put (w : Workspace) (name : String) (content : ByteArray) : Workspace :=
  if (w.files.lookup name).isSome then
    { w with files := w.files.map fun file => if file.1 = name then (name, content) else file }
  else { w with files := w.files ++ [(name, content)] }

/-- Where a file of a path would be created.  A path that ends in a slash is a directory's, if
there is a directory to hold it. -/
def target (w : Workspace) (path : String) : Except FileError Place := do
  if path.endsWith "/" then
    let parent := ((path.splitOn "/").reverse.dropWhile (·.isEmpty)).tail.reverse
    match ← w.locate (path.startsWith "/") parent with
    | .directory => return .directory
    | .file name => throw (if (w.files.lookup name).isSome then .notADirectory else .notFound)
  else w.place path

/-- The directory with an empty file at a path. -/
def create (w : Workspace) (path : String) : Except FileError Workspace := do
  match ← w.target path with
  | .directory => throw .isADirectory
  | .file name => return w.put name .empty

/-- The directory with bytes added to a file. -/
def append (w : Workspace) (path : String) (bytes : ByteArray) : Except FileError Workspace := do
  match ← w.place path with
  | .directory => throw .isADirectory
  | .file name => return w.put name (((w.files.lookup name).getD .empty) ++ bytes)

/-- Runs a change of the directory that may fail. -/
def change (f : Workspace → Except FileError Workspace) :
    StateM Workspace (Except FileError Unit) := do
  match f (← get) with
  | .ok w =>
    set w
    return .ok ()
  | .error e => return .error e

instance : Host (StateM Workspace) where
  readInput := do return .ok (← get).input
  readFile path := do return (← get).read path
  createFile path := change (·.create path)
  appendFile path bytes := change (·.append path bytes)
  writeOutput bytes := do
    modify fun w => { w with output := w.output ++ bytes }
    return .ok ()
  writeError text := modify fun w => { w with errors := w.errors ++ text }

end Workspace

end MipsBackend.CommandLine
