import MipsBackend.CommandLine.Host
import MipsBackend.CommandLine.Options
import MipsBackend.Layout.Encode
import MipsBackend.Program.Compile
import MipsBackend.Program.Decode
import MipsBackend.Program.Encode

/-!
# Running the compiler

A run reads a program, creates the output file and compiles into it, in this order.  A fault leaves
the output file empty.
-/

namespace MipsBackend.CommandLine

/-- Why a run did not succeed. -/
inductive RunError where
  | usage (e : UsageError)
  | read (path : String) (e : FileError)
  /-- The input is not the text of a program. -/
  | decode
  | create (path : String) (e : FileError)
  | write (message : String)
  | fault (f : Fault)

/-- The line that names the command and its version. -/
def versionText : String :=
  "talonc 0.1.0\n"

/-- How the command is used. -/
def usageText : String :=
  String.join (List.map (· ++ "\n") [
    "Usage: talonc [OPTIONS] [INPUT]",
    "",
    "Lays out the classes of a program and writes stack-machine MIPS assembly.",
    "",
    "Arguments:",
    "  [INPUT]               The program to compile, as JSON; `-` is standard input",
    "",
    "Options:",
    "  -o, --out <OUT>       File to write the assembly to; standard output if absent",
    "  -j, --threads <N>     Number of threads",
    "      --stop-after <S>  Last stage to run: `layout` or `codegen`",
    "      --annotate        Annotate every line with the source it was generated for",
    "  -h, --help            Print help",
    "  -V, --version         Print version"])

/-- Asks for a report of a fault. -/
def faultNotice (f : Fault) : String :=
  (if f.isDefect then "" else "error: the compiler unexpectedly panicked; this is a bug.\n")
    ++ "note: we would appreciate a bug report: "
    ++ "https://github.com/talon-lang/talon/issues/new/?labels=C-bug%2C+I-ICE\n"

namespace UsageError

/-- Whether arguments asked for a text instead of a run. -/
def isRequest : UsageError → Bool
  | helpRequested | versionRequested => true
  | _ => false

/-- What arguments get in reply. -/
def reply : UsageError → String
  | versionRequested => versionText
  | _ => usageText

end UsageError

namespace RunError

/-- The exit code of a run. -/
def exitCode : RunError → UInt32
  | usage e => if e.isRequest then 0 else 2
  | read .. | decode | create .. | write _ => 1
  | fault _ => 101

/-- What a fault says of itself. -/
def cause : RunError → String
  | fault f => f.message ++ "\n\n"
  | _ => ""

/-- What a run reports about its failure. -/
def report : RunError → String
  | usage e => if e.isRequest then "" else e.reply
  | read path e => "error: couldn't read `" ++ path ++ "`: " ++ e.message ++ "\n"
  | decode => "error: couldn't decode the input program: "
  | create path e => "error: couldn't create `" ++ path ++ "`: " ++ e.message ++ "\n"
  | write message => "error: " ++ message ++ "\n"
  | fault f => faultNotice f

end RunError

section

variable {m : Type → Type} [Monad m] [Host m]

/-- Runs an operation on files whose failure ends the run. -/
def orFail {α : Type} (fail : FileError → RunError) (op : m (Except FileError α)) :
    ExceptT RunError m α :=
  ExceptT.mk do return (← op).mapError fail

/-- The text of a file, or of standard input if the path is `-`. -/
def readText (path : String) : ExceptT RunError m String := do
  let bytes ← orFail (.read path) (if path = "-" then Host.readInput else Host.readFile path)
  match String.fromUTF8? bytes with
  | some text => return text
  | none => throw (.read path .invalidUtf8)

/-- Compiles a program and writes the assembly.  Threads are taken to start. -/
def compileTo (o : Options) (p : Program) (write : ByteArray → m (Except FileError Unit)) :
    ExceptT RunError m Unit := do
  let stream : Stream := { annotate := o.annotate }
  match p.compile o stream with
  | .error f => throw (.fault f)
  | .ok (stream, result) =>
    orFail (fun e => .write ("couldn't write assembly: " ++ e.message))
      (write stream.out.written)
    match result with
    | .error e => throw (.write e.message)
    | .ok layout =>
      if o.dump = some .layout then
        Host.writeError (m := m) (layout.toJson.render ++ "\n")

/-- Runs the compiler with options. -/
def runWith (o : Options) : ExceptT RunError m Unit := do
  let text ← readText (o.input.getD "-")
  let some p := Program.parse text | throw .decode
  if o.dump = some .program then
    Host.writeError (m := m) (p.render ++ "\n")
  match o.out with
  | some path =>
    orFail (.create path) (Host.createFile path)
    compileTo o p (Host.appendFile path)
  | none => compileTo o p Host.writeOutput

/-- Runs the compiler with arguments.  A text that they ask for instead is written to standard
output. -/
def execute (args : List String) : ExceptT RunError m Unit := do
  match parseArguments args with
  | .ok o => runWith o
  | .error e =>
    if e.isRequest then
      orFail (fun e => .write e.message) (Host.writeOutput e.reply.toUTF8)
    throw (.usage e)

/-- Runs the compiler with arguments and reports what went wrong.  The result is the exit code. -/
def run (args : List String) : m UInt32 := do
  match ← (execute args : ExceptT RunError m Unit).run with
  | .ok () => return 0
  | .error e =>
    Host.writeError (e.cause ++ e.report)
    return e.exitCode

end

end MipsBackend.CommandLine
