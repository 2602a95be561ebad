/-!
# Compiler options

What can be chosen for a run of the compiler, and the words that choices are written with.
-/

namespace MipsBackend

/-- Why a word is not the name of a choice. -/
inductive ChoiceError where
  | unknownName
  | emptyNumber
  | invalidDigit
  | numberTooLarge
deriving DecidableEq

/-- The wording of a refused choice. -/
def ChoiceError.message : ChoiceError → String
  | .unknownName => "Matching variant not found"
  | .emptyNumber => "cannot parse integer from empty string"
  | .invalidDigit => "invalid digit found in string"
  | .numberTooLarge => "number too large to fit in target type"

/-- The stages of compilation, in order. -/
inductive Stage where
  /-- Classes and methods are laid out and the data segment is emitted. -/
  | layout
  /-- The code of all methods and of the entry point is emitted. -/
  | codegen
deriving DecidableEq

namespace Stage

/-- All stages. -/
def all : List Stage :=
  [layout, codegen]

/-- The name of a stage. -/
def name : Stage → String
  | layout => "layout"
  | codegen => "codegen"

/-- Reads the name of a stage. -/
def parse (name : String) : Except ChoiceError Stage :=
  match all.find? (·.name = name) with
  | some stage => .ok stage
  | none => .error .unknownName

end Stage

/-- The kinds of internal state that can be shown. -/
inductive DumpKind where
  /-- The program as it was read. -/
  | program
  /-- The tables of the layout pass. -/
  | layout
deriving DecidableEq

namespace DumpKind

/-- All kinds. -/
def all : List DumpKind :=
  [program, layout]

/-- The name of a kind. -/
def name : DumpKind → String
  | program => "program"
  | layout => "layout"

/-- Reads the name of a kind. -/
def parse (name : String) : Except ChoiceError DumpKind :=
  match all.find? (·.name = name) with
  | some kind => .ok kind
  | none => .error .unknownName

end DumpKind

/-- A number of threads. -/
structure Threads where
  count : Nat := 1
  pos : 0 < count := by decide
deriving DecidableEq

namespace Threads

instance : Inhabited Threads :=
  ⟨{}⟩

/-- Adds a digit to a number below `2 ^ 64`.  A character that is no digit is reported first. -/
def pushDigit (n : Nat) (c : Char) : Except ChoiceError Nat :=
  if c.isDigit then
    let next := 10 * n + (c.toNat - '0'.toNat)
    if next < 0x10000000000000000 then .ok next else .error .numberTooLarge
  else .error .invalidDigit

/-- Reads a decimal number below `2 ^ 64`, with or without a plus sign in front. -/
def parseNumber (text : String) : Except ChoiceError Nat :=
  match text.toList with
  | [] => .error .emptyNumber
  | ['+'] => .error .invalidDigit
  | '+' :: digits => digits.foldlM pushDigit 0
  | digits => digits.foldlM pushDigit 0

/-- Reads a number of threads.  Zero asks for as many as there are cores, which is taken to be
one. -/
def parse (text : String) : Except ChoiceError Threads := do
  let n ← parseNumber text
  return if h : 0 < n then ⟨n, h⟩ else {}

/-- The number in decimal. -/
def text (t : Threads) : String :=
  toString t.count

end Threads

/-- The options of a run. -/
structure Options where
  /-- The file to read; standard input if absent. -/
  input : Option String := none
  /-- The file to write; standard output if absent. -/
  out : Option String := none
  threads : Threads := {}
  /-- The last stage to run. -/
  stopAfter : Option Stage := none
  /-- Whether lines name their source. -/
  annotate : Bool := false
  dump : Option DumpKind := none
  /-- Whether methods are generated one after the other, whatever the number of threads. -/
  sequential : Bool := false
deriving DecidableEq

instance : Inhabited Options :=
  ⟨{}⟩

/-- Whether code is to be generated after the layout. -/
def Options.runCodegen (o : Options) : Bool :=
  o.stopAfter != some .layout

end MipsBackend
