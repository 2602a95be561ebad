import MipsBackend.CommandLine.Grammar
import MipsBackend.Options

/-!
# The compiler's arguments

The values of the option `-Z` form a second, internal command line: each is read as the option of
that name, after all other arguments.
-/

namespace MipsBackend.CommandLine

/-- What the arguments say before internal options are looked at. -/
structure Settings where
  options : Options := default
  /-- The values of `-Z`, last first. -/
  internal : List String := []

/-- Reports a value that is none of the possible ones. -/
def possible {α : Type} (choice : Except ChoiceError α) : Except UsageError α :=
  choice.mapError fun _ => .invalidValue

namespace Settings

/-- The file to read. -/
def input : Parameter Settings where
  name := "input"
  apply path s := .ok { s with options.input := some path }

/-- The file to write. -/
def out : Parameter Settings where
  name := "out"
  words := ["out"]
  letter := some 'o'
  apply path s :=
    if path.isEmpty then .error .invalidValue else .ok { s with options.out := some path }

/-- The number of threads. -/
def threads : Parameter Settings where
  name := "threads"
  words := ["threads", "jobs"]
  letter := some 'j'
  apply n s :=
    match Threads.parse n with
    | .ok threads => .ok { s with options.threads := threads }
    | .error _ => .error .invalidNumber

/-- The last stage to run. -/
def stopAfter : Parameter Settings where
  name := "stop-after"
  words := ["stop-after"]
  apply name s := do return { s with options.stopAfter := some (← possible (Stage.parse name)) }

/-- Whether lines name their source. -/
def annotate : Parameter Settings where
  name := "annotate"
  words := ["annotate"]
  takesValue := false
  apply _ s := .ok { s with options.annotate := true }

/-- An internal option. -/
def internalOption : Parameter Settings where
  name := "internal"
  letter := some 'Z'
  repeatable := true
  apply value s := .ok { s with internal := value :: s.internal }

/-- Asks for help. -/
def help : Parameter Settings where
  name := "help"
  words := ["help"]
  letter := some 'h'
  takesValue := false
  apply _ _ := .error .helpRequested

/-- Asks for the version. -/
def version : Parameter Settings where
  name := "version"
  words := ["version"]
  letter := some 'V'
  takesValue := false
  apply _ _ := .error .versionRequested

/-- The arguments of the compiler. -/
def grammar : Grammar Settings where
  options := [out, threads, stopAfter, annotate, internalOption, help, version]
  positional := some input
  needsArgument := true

end Settings

namespace Internal

/-- The state to show. -/
def dump : Parameter Options where
  name := "dump"
  words := ["dump"]
  apply name o := do return { o with dump := some (← possible (DumpKind.parse name)) }

/-- Whether methods are generated one after the other. -/
def sequential : Parameter Options where
  name := "sequential"
  words := ["sequential"]
  takesValue := false
  apply _ o := .ok { o with sequential := true }

/-- Asks for help on internal options. -/
def help : Parameter Options where
  name := "help"
  words := ["help"]
  takesValue := false
  apply _ _ := .error .helpRequested

/-- The internal options. -/
def grammar : Grammar Options where
  options := [dump, sequential, help]

end Internal

/-- The options that the compiler's arguments ask for. -/
def parseArguments (args : List String) : Except UsageError Options := do
  let s ← Settings.grammar.parse {} args
  Internal.grammar.parse s.options (s.internal.reverse.map ("--" ++ ·))

end MipsBackend.CommandLine
