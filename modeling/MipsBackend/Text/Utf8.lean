/-!
# Reading bytes as text

Text that was written in part may end within a character.  Such an end reads as one replacement
character.
-/

namespace MipsBackend.Text

/-- The longest readable part of a run of bytes, when at most `cut` bytes are dropped at its end. -/
def readable (bytes : ByteArray) : Nat → String
  | 0 => (String.fromUTF8? bytes).getD ""
  | cut + 1 =>
    match String.fromUTF8? bytes with
    | some text => text
    | none => readable (bytes.extract 0 (bytes.size - 1)) cut

/-- The text of a run of bytes that is UTF-8 but for a character cut off at its end. -/
def ofUtf8Prefix (bytes : ByteArray) : String :=
  match String.fromUTF8? bytes with
  | some text => text
  | none => readable bytes 3 ++ "\ufffd"

end MipsBackend.Text
