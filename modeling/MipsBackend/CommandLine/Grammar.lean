/-!
# Command-line arguments

Arguments are read from left to right.  An option is named by two dashes and a word or by one dash
and a letter; a value follows in the next argument or in the same one.  A value of its own argument
is only looked at when the next option, the positional argument or the end is reached, and an
argument that is not understood at all is reported before it.  After `--` all arguments are
positional.
-/

namespace MipsBackend.CommandLine

/-- Why arguments were not accepted, or what was asked for instead of a run. -/
inductive UsageError where
  /-- No such option, or one positional argument too many. -/
  | unknownArgument
  /-- A value is missing, empty or none of the possible ones. -/
  | invalidValue
  /-- A value is not a number. -/
  | invalidNumber
  /-- An option was given twice. -/
  | repeatedOption
  /-- A value was given to a flag. -/
  | unneededValue
  | nothingGiven
  | helpRequested
  | versionRequested
deriving DecidableEq

/-- What an argument changes in the settings of type `σ`. -/
structure Parameter (σ : Type) where
  /-- What the parameter is called. -/
  name : String
  /-- The words that name the option. -/
  words : List String := []
  /-- The letter that names the option. -/
  letter : Option Char := none
  takesValue : Bool := true
  /-- Whether the option may be given more than once. -/
  repeatable : Bool := false
  /-- Takes in a value; flags get an empty one. -/
  apply : String → σ → Except UsageError σ

/-- The arguments that a command understands. -/
structure Grammar (σ : Type) where
  options : List (Parameter σ)
  positional : Option (Parameter σ) := none
  /-- Whether at least one argument must be given. -/
  needsArgument : Bool := false

/-- What has been read of the arguments. -/
structure Reading (σ : Type) where
  settings : σ
  /-- The names of the parameters taken in so far. -/
  seen : List String := []
  /-- A parameter that waits for its value, or has one that was not looked at yet. -/
  pending : Option (Parameter σ × Option String) := none
  /-- A positional argument was given. -/
  positionalGiven : Bool := false
  /-- All further arguments are positional. -/
  trailing : Bool := false

namespace Reading

variable {σ : Type}

/-- Takes in a value. -/
def accept (r : Reading σ) (param : Parameter σ) (value : String) :
    Except UsageError (Reading σ) := do
  if param.name ∈ r.seen ∧ ¬param.repeatable then
    throw .repeatedOption
  return { r with settings := ← param.apply value r.settings, seen := param.name :: r.seen }

/-- Takes in the value that was not looked at yet. -/
def resolve (r : Reading σ) : Except UsageError (Reading σ) :=
  match r.pending with
  | none => .ok r
  | some (_, none) => .error .invalidValue
  | some (param, some value) => accept { r with pending := none } param value

/-- Takes in an option with a value at hand. -/
def useValue (r : Reading σ) (param : Parameter σ) (value : String) :
    Except UsageError (Reading σ) := do
  (← r.resolve).accept param value

/-- Lets an option wait for its value. -/
def awaitValue (r : Reading σ) (param : Parameter σ) : Except UsageError (Reading σ) := do
  return { ← r.resolve with pending := some (param, none) }

/-- Reads an option named by a word, with its value if there is one after an equals sign. -/
def readWord (g : Grammar σ) (r : Reading σ) (word : String) (value : Option String) :
    Except UsageError (Reading σ) :=
  match g.options.find? (word ∈ ·.words) with
  | none => .error .unknownArgument
  | some param =>
    match param.takesValue, value with
    | true, some value => r.useValue param value
    | true, none => r.awaitValue param
    | false, some _ => .error .unneededValue
    | false, none => r.useValue param ""

/-- Reads the letters of an argument.  What follows the letter of an option with a value is the
value, but for an equals sign in front of it. -/
def readLetters (g : Grammar σ) (r : Reading σ) : List Char → Except UsageError (Reading σ)
  | [] => .ok r
  | c :: rest =>
    match g.options.find? (·.letter = some c) with
    | none => .error .unknownArgument
    | some param =>
      if param.takesValue then
        match rest with
        | [] => r.awaitValue param
        | '=' :: value => r.useValue param (String.ofList value)
        | value => r.useValue param (String.ofList value)
      else do
        readLetters g (← r.useValue param "") rest

/-- Reads a positional argument. -/
def readPositional (g : Grammar σ) (r : Reading σ) (value : String) :
    Except UsageError (Reading σ) := do
  match g.positional with
  | none => throw .unknownArgument
  | some param =>
    if r.positionalGiven then
      throw .unknownArgument
    return { ← r.resolve with pending := some (param, some value), positionalGiven := true }

/-- The word of an option and what stands behind the first equals sign. -/
def splitWord (text : List Char) : String × Option String :=
  match text.span (· ≠ '=') with
  | (word, []) => (String.ofList word, none)
  | (word, _ :: value) => (String.ofList word, some (String.ofList value))

/-- Reads an argument. -/
def step (g : Grammar σ) (r : Reading σ) (arg : String) : Except UsageError (Reading σ) :=
  if r.trailing then r.readPositional g arg
  else
    match arg.toList with
    | ['-', '-'] => .ok { r with trailing := true }
    | '-' :: '-' :: text =>
      let (word, value) := splitWord text
      r.readWord g word value
    | '-' :: c :: letters => r.readLetters g (c :: letters)
    | _ =>
      match r.pending with
      | some (param, none) => .ok { r with pending := some (param, some arg) }
      | _ => r.readPositional g arg

end Reading

/-- The settings that arguments lead to, from given ones. -/
def Grammar.parse {σ : Type} (g : Grammar σ) (settings : σ) (args : List String) :
    Except UsageError σ := do
  let r ← args.foldlM (Reading.step g) { settings }
  let r ← r.resolve
  if g.needsArgument ∧ r.seen.isEmpty then
    throw .nothingGiven
  return r.settings

end MipsBackend.CommandLine
