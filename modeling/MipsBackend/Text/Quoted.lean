import MipsBackend.Text.Printable

/-!
# Quoted text in diagnostics

Names and literals that a diagnostic repeats are put in double quotes.  The quotes, the backslash
and everything that would not show are escaped, so the quoted form always fits on one line.
-/

namespace MipsBackend.Text

/-- The lower-case hexadecimal digits of `n`, with no leading zeros. -/
def hex (n : Nat) : String :=
  String.ofList (Nat.toDigits 16 n)

/-- How one character is written between the quotes. -/
def quotedChar (c : Char) : String :=
  match c with
  | '\x00' => "\\0"
  | '\t' => "\\t"
  | '\n' => "\\n"
  | '\r' => "\\r"
  | '"' => "\\\""
  | '\\' => "\\\\"
  | c => if isPrintable c then c.toString else "\\u\x7b" ++ hex c.toNat ++ "\x7d"

/-- The text between double quotes, escaped. -/
def quoted (text : String) : String :=
  "\"" ++ String.join (text.toList.map quotedChar) ++ "\""

/-- An optional name: `None`, or `Some` of the quoted text. -/
def quotedOption : Option String → String
  | none => "None"
  | some text => "Some(" ++ quoted text ++ ")"

end MipsBackend.Text
