import MipsBackend.Json.Basic

/-!
# Writing JSON

Values are written without blanks.  Strings escape the quote, the backslash and control characters,
and nothing else.
-/

namespace MipsBackend.Json

/-- The escape of a control character that has no letter of its own. -/
def unitEscape (n : Nat) : List Char :=
  ['\\', 'u', '0', '0', Nat.digitChar (n / 16), Nat.digitChar (n % 16)]

/-- How a character is written in a string. -/
def stringChar (c : Char) : List Char :=
  match c with
  | '"' => ['\\', '"']
  | '\\' => ['\\', '\\']
  | '\x08' => ['\\', 'b']
  | '\t' => ['\\', 't']
  | '\n' => ['\\', 'n']
  | '\x0c' => ['\\', 'f']
  | '\r' => ['\\', 'r']
  | c => if c.toNat < 0x20 then unitEscape c.toNat else [c]

/-- A string with its quotes.  One that is no text is written as half of a surrogate pair. -/
def stringChars : Option String → List Char
  | some text => '"' :: text.toList.flatMap stringChar ++ ['"']
  | none => "\"\\ud800\"".toList

mutual

/-- The characters of a value. -/
def chars : Json → List Char
  | null => "null".toList
  | bool b => (toString b).toList
  | integer n => (toString n).toList
  | real text => text.toList
  | string text => stringChars text
  | array items => '[' :: List.intercalate [','] (itemChars items) ++ [']']
  | object members => '{' :: List.intercalate [','] (memberChars members) ++ ['}']

/-- The characters of each item. -/
def itemChars : List Json → List (List Char)
  | [] => []
  | item :: items => chars item :: itemChars items

/-- The characters of each member, name first. -/
def memberChars : List (Option String × Json) → List (List Char)
  | [] => []
  | (name, value) :: members => (stringChars name ++ ':' :: chars value) :: memberChars members

end

/-- The text of a value. -/
def render (value : Json) : String :=
  String.ofList value.chars

end MipsBackend.Json
