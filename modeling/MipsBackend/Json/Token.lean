import MipsBackend.Json.Basic

/-!
# JSON tokens

The lexer reads a text character by character.  Between tokens it skips blanks; inside one it is in
the state of that token.  Words, numbers and strings are checked strictly: no leading zeros or plus
signs, no control characters in strings, no escapes but the standard ones.
-/

namespace MipsBackend.Json

/-- A token of a JSON text. -/
inductive Token where
  | openArray
  | closeArray
  | openObject
  | closeObject
  | comma
  | colon
  /-- A null, truth value or number. -/
  | atom (value : Json)
  /-- A string, which is a value or a member's name. -/
  | string (text : Option String)

/-- How far a number has been read. -/
inductive NumberPart where
  | minus
  | zero
  | digits
  | point
  | fraction
  | exponentMark
  | exponentSign
  | exponent
deriving DecidableEq

namespace NumberPart

/-- The part that a character leads to, if it continues the number. -/
def next? : NumberPart → Char → Option NumberPart
  | minus, c => if c = '0' then some zero else if c.isDigit then some digits else none
  | zero, c => if c = '.' then some point else if c = 'e' ∨ c = 'E' then some exponentMark else none
  | digits, c =>
    if c.isDigit then some digits
    else if c = '.' then some point
    else if c = 'e' ∨ c = 'E' then some exponentMark
    else none
  | point, c => if c.isDigit then some fraction else none
  | fraction, c =>
    if c.isDigit then some fraction
    else if c = 'e' ∨ c = 'E' then some exponentMark
    else none
  | exponentMark, c =>
    if c = '+' ∨ c = '-' then some exponentSign else if c.isDigit then some exponent else none
  | exponentSign, c => if c.isDigit then some exponent else none
  | exponent, c => if c.isDigit then some exponent else none

/-- Whether a number may end here. -/
def isFinal : NumberPart → Bool
  | zero | digits | fraction | exponent => true
  | minus | point | exponentMark | exponentSign => false

/-- Whether a number that ends here has neither fraction nor exponent. -/
def isInteger : NumberPart → Bool
  | zero | digits => true
  | _ => false

end NumberPart

/-- The value of decimal digits. -/
def decimal (digits : List Char) : Nat :=
  digits.foldl (fun n c => 10 * n + (c.toNat - '0'.toNat)) 0

/-- The value of a number that ends in some part. -/
def numberValue (part : NumberPart) (written : List Char) : Json :=
  if part.isInteger then
    match written with
    | ['-', '0'] => real "-0"
    | '-' :: digits => integer (-decimal digits)
    | digits => integer (decimal digits)
  else real (String.ofList written)

/-- What is read of a string. -/
inductive StringPart where
  /-- Plain characters. -/
  | plain
  /-- The character after a backslash. -/
  | escape
  /-- The hexadecimal digits of a code unit: how many are to come and the value so far. -/
  | unit (missing : Nat) (value : Nat)

/-- A string being read. -/
structure StringState where
  part : StringPart := .plain
  /-- The characters so far, last first. -/
  chars : List Char := []
  /-- The first half of a surrogate pair, if that was the last thing read. -/
  high : Option Nat := none
  /-- No half of a surrogate pair was without its partner so far. -/
  wellFormed : Bool := true

namespace StringState

/-- Adds a character, which cannot be the second half of a pair. -/
def pushChar (s : StringState) (c : Char) : StringState :=
  { part := .plain, chars := c :: s.chars, wellFormed := s.wellFormed && s.high.isNone }

/-- The character that two surrogates stand for. -/
def pairChar (high low : Nat) : Char :=
  Char.ofNat (0x10000 + (high - 0xd800) * 0x400 + (low - 0xdc00))

/-- Adds a code unit of sixteen bits. -/
def pushUnit (s : StringState) (unit : Nat) : StringState :=
  if 0xd800 ≤ unit ∧ unit < 0xdc00 then
    { s with part := .plain, high := some unit, wellFormed := s.wellFormed && s.high.isNone }
  else if 0xdc00 ≤ unit ∧ unit < 0xe000 then
    match s.high with
    | some high => { s with part := .plain, chars := pairChar high unit :: s.chars, high := none }
    | none => { s with part := .plain, wellFormed := false }
  else s.pushChar (Char.ofNat unit)

/-- The text of a string that ends here. -/
def result (s : StringState) : Option String :=
  if s.wellFormed ∧ s.high = none then some (String.ofList s.chars.reverse) else none

/-- The character that a one-letter escape stands for. -/
def escaped? : Char → Option Char
  | '"' => some '"'
  | '\\' => some '\\'
  | '/' => some '/'
  | 'b' => some '\x08'
  | 'f' => some '\x0c'
  | 'n' => some '\n'
  | 'r' => some '\r'
  | 't' => some '\t'
  | _ => none

/-- The value of a hexadecimal digit. -/
def hexValue? (c : Char) : Option Nat :=
  if c.isDigit then some (c.toNat - '0'.toNat)
  else if 'a' ≤ c ∧ c ≤ 'f' then some (c.toNat - 'a'.toNat + 10)
  else if 'A' ≤ c ∧ c ≤ 'F' then some (c.toNat - 'A'.toNat + 10)
  else none

/-- Reads a character other than a closing quote. -/
def read? (s : StringState) (c : Char) : Option StringState :=
  match s.part with
  | .plain =>
    if c = '\\' then some { s with part := .escape }
    else if c.toNat < 0x20 then none
    else some (s.pushChar c)
  | .escape =>
    if c = 'u' then some { s with part := .unit 3 0 }
    else (escaped? c).map s.pushChar
  | .unit missing value => do
    let value := 16 * value + (← hexValue? c)
    match missing with
    | 0 => return s.pushUnit value
    | missing + 1 => return { s with part := .unit missing value }

/-- Whether a quote would close the string. -/
def atQuote (s : StringState) (c : Char) : Bool :=
  match s.part with
  | .plain => c == '"'
  | _ => false

end StringState

/-- Where the lexer stands. -/
inductive LexState where
  | between
  /-- Inside a word, with the letters to come and the value it stands for. -/
  | word (rest : List Char) (value : Json)
  /-- Inside a number, with its characters so far, last first. -/
  | number (part : NumberPart) (written : List Char)
  | string (s : StringState)

/-- Reads the first character of a token, or a blank. -/
def lexFirst (done : List Token) (c : Char) : Option (List Token × LexState) :=
  match c with
  | ' ' | '\t' | '\n' | '\r' => some (done, .between)
  | '[' => some (.openArray :: done, .between)
  | ']' => some (.closeArray :: done, .between)
  | '{' => some (.openObject :: done, .between)
  | '}' => some (.closeObject :: done, .between)
  | ',' => some (.comma :: done, .between)
  | ':' => some (.colon :: done, .between)
  | '"' => some (done, .string {})
  | 'n' => some (done, .word ['u', 'l', 'l'] null)
  | 't' => some (done, .word ['r', 'u', 'e'] (bool true))
  | 'f' => some (done, .word ['a', 'l', 's', 'e'] (bool false))
  | '-' => some (done, .number .minus ['-'])
  | '0' => some (done, .number .zero ['0'])
  | c => if c.isDigit then some (done, .number .digits [c]) else none

/-- Reads a character.  Finished tokens are kept last first. -/
def lexStep (state : List Token × LexState) (c : Char) : Option (List Token × LexState) :=
  match state with
  | (done, .between) => lexFirst done c
  | (_, .word [] _) => none
  | (done, .word [last] value) => if c = last then some (.atom value :: done, .between) else none
  | (done, .word (next :: rest) value) => if c = next then some (done, .word rest value) else none
  | (done, .number part written) =>
    match part.next? c with
    | some part => some (done, .number part (c :: written))
    | none =>
      if part.isFinal then lexFirst (.atom (numberValue part written.reverse) :: done) c else none
  | (done, .string s) =>
    if s.atQuote c then some (.string s.result :: done, .between)
    else (s.read? c).map fun s => (done, .string s)

/-- Ends the text.  Only a number may still be open. -/
def lexEnd : List Token × LexState → Option (List Token)
  | (done, .between) => some done.reverse
  | (done, .number part written) =>
    if part.isFinal then some (.atom (numberValue part written.reverse) :: done).reverse else none
  | _ => none

/-- The tokens of a text. -/
def tokens (text : String) : Option (List Token) := do
  lexEnd (← text.toList.foldlM lexStep ([], .between))

end MipsBackend.Json
