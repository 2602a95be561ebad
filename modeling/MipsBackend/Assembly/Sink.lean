import MipsBackend.Assembly.Printer
import MipsBackend.Text.Utf8

/-!
# Sinks

Generated lines go to a sink.  A *buffer* keeps them.  A *stream* holds them back until it is
flushed, and then writes their text to a writer, which may run out of room at any byte.

`Buffer.toList_lines_emitAll` says what emission does to a buffer.
-/

namespace MipsBackend

/-- Why text could not be written. -/
inductive WriteError where
  | diskFull
deriving DecidableEq

/-- The wording of a failed write. -/
def WriteError.message : WriteError → String
  | .diskFull => "couldn't write assembly: disk full"

/-- What receives generated lines in program order. -/
class Sink (σ : Type) where
  /-- Appends a line. -/
  emit : σ → Line → σ
  /-- Writes out what was appended so far. -/
  flush : σ → σ × Except WriteError Unit

/-- Appends lines in order. -/
def Sink.emitAll {σ : Type} [Sink σ] (sink : σ) (code : Code) : σ :=
  code.foldl Sink.emit sink

theorem Sink.emitAll_append {σ : Type} [Sink σ] (sink : σ) (c d : Code) :
    emitAll sink (c ++ d) = emitAll (emitAll sink c) d :=
  List.foldl_append

/-- Lines kept in memory. -/
structure Buffer where
  lines : Array Line := #[]
deriving DecidableEq

namespace Buffer

/-- A buffer without lines. -/
def empty : Buffer :=
  {}

/-- Appends a line. -/
def emit (b : Buffer) (line : Line) : Buffer :=
  ⟨b.lines.push line⟩

instance : Sink Buffer where
  emit := emit
  flush b := (b, .ok ())

/-- The number of lines. -/
def size (b : Buffer) : Nat :=
  b.lines.size

/-- There are no lines. -/
def isEmpty (b : Buffer) : Bool :=
  b.lines.isEmpty

/-- The text of the lines, never annotated. -/
def text (b : Buffer) : String :=
  Code.text false b.lines.toList

/-- Moves all lines to another sink. -/
def drainInto {σ : Type} [Sink σ] (b : Buffer) (sink : σ) : Buffer × σ :=
  (empty, Sink.emitAll sink b.lines.toList)

/-- A buffer holds what it held and then the new lines. -/
theorem toList_lines_emitAll (b : Buffer) (code : Code) :
    (Sink.emitAll b code).lines.toList = b.lines.toList ++ code := by
  induction code generalizing b with
  | nil => simp [Sink.emitAll]
  | cons line rest ih =>
    have step : Sink.emitAll b (line :: rest) = Sink.emitAll (b.emit line) rest := rfl
    rw [step, ih]
    simp [emit]

end Buffer

/-- The destination of a stream. -/
structure Writer where
  /-- The bytes written so far. -/
  written : ByteArray := .empty
  /-- How many more bytes it takes; unlimited if absent. -/
  room : Option Nat := none

namespace Writer

/-- Writes as many of the bytes as there is room for. -/
def write (w : Writer) (bytes : ByteArray) : Writer × Except WriteError Unit :=
  match w.room with
  | none => ({ w with written := w.written ++ bytes }, .ok ())
  | some room =>
    ({ written := w.written ++ bytes.extract 0 room, room := some (room - bytes.size) },
      if bytes.size ≤ room then .ok () else .error .diskFull)

/-- The bytes written so far, as text. -/
def text (w : Writer) : String :=
  Text.ofUtf8Prefix w.written

end Writer

/-- A sink that writes text when it is flushed. -/
structure Stream where
  /-- Whether lines name their source. -/
  annotate : Bool := false
  /-- The lines not yet written. -/
  pending : Array Line := #[]
  out : Writer := {}

namespace Stream

/-- Appends a line to those not yet written. -/
def emit (s : Stream) (line : Line) : Stream :=
  { s with pending := s.pending.push line }

/-- Writes lines one by one until a write fails. -/
def writeLines (annotate : Bool) (out : Writer) : Code → Writer × Except WriteError Unit
  | [] => (out, .ok ())
  | line :: rest =>
    match out.write (line.text annotate ++ "\n").toUTF8 with
    | (out, .ok ()) => writeLines annotate out rest
    | (out, .error e) => (out, .error e)

/-- Writes the pending lines.  None is pending afterwards, whether all were written or not. -/
def flush (s : Stream) : Stream × Except WriteError Unit :=
  let (out, result) := writeLines s.annotate s.out s.pending.toList
  ({ s with pending := #[], out }, result)

instance : Sink Stream where
  emit := emit
  flush := flush

/-- A one-line summary of the stream's state. -/
def summary (s : Stream) : String :=
  "CodeStream \x7b pending: " ++ toString s.pending.size ++ ", annotate: "
    ++ toString s.annotate ++ ", .. \x7d"

end Stream

end MipsBackend
