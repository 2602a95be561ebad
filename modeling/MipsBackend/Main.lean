import MipsBackend.CommandLine.Run

/-!
# The command

Runs the compiler on the files and standard streams of the system.
-/

namespace MipsBackend

open CommandLine

/-- A file error of the system. -/
def fileError : IO.Error → FileError
  | .noFileOrDirectory .. => .notFound
  | .inappropriateType _ 20 _ => .notADirectory
  | .inappropriateType _ 21 _ => .isADirectory
  | e => .other (toString e)

/-- Runs an operation of the system. -/
def attempt {α : Type} (op : IO α) : IO (Except FileError α) := do
  match ← op.toBaseIO with
  | .ok a => return .ok a
  | .error e => return .error (fileError e)

instance : Host IO where
  readInput := attempt do (← IO.getStdin).readBinToEnd
  readFile path := attempt (IO.FS.readBinFile path)
  createFile path := attempt (IO.FS.writeBinFile path .empty)
  appendFile path bytes := attempt do
    (← IO.FS.Handle.mk path .append).write bytes
  writeOutput bytes := attempt do
    let out ← IO.getStdout
    out.write bytes
    out.flush
  writeError text := do
    (← IO.getStderr).putStr text

end MipsBackend

/-- Runs the compiler with the command's arguments. -/
def main (args : List String) : IO UInt32 :=
  MipsBackend.CommandLine.run args
