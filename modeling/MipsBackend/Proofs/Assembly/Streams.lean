import Mathlib.Data.List.Induction
import Mathlib.Order.WellFounded
import MipsBackend.Assembly.Sink
import MipsBackend.Proofs.Spans

/-!
# What streams write

Lines are emitted into a stream and flushed in any order.  However the flushes are placed, the
writer comes to hold what it would hold if the text of all flushed lines had been written at once
(`Stream.exists_history`), because a writer that has run out of room stays full.

`Stream.prints_display` compares a stream with a buffer.  `Stream.accounts_iff` says when each
emitted line is either written or pending: as long as no flush fails.  A flush that fails drops the
lines that it could not write.
-/

namespace MipsBackend

/-! ## Writers -/

namespace Writer

variable {w : Writer} {xs ys : ByteArray} {n : Nat}

theorem extract_of_size_le (h : xs.size ≤ n) : xs.extract 0 n = xs := by
  rw [← Nat.max_eq_left h, ByteArray.extract_zero_max_size]

theorem extract_append_of_le (h : n ≤ xs.size) : (xs ++ ys).extract 0 n = xs.extract 0 n := by
  rw [ByteArray.extract_append, Nat.sub_eq_zero_of_le h, Nat.zero_sub, ByteArray.extract_same,
    ByteArray.append_empty]

/-- The writer takes so many more bytes. -/
def HasRoom (w : Writer) (n : Nat) : Prop :=
  ∀ room, w.room = some room → n ≤ room

theorem write_eq_ok_iff : (w.write xs).2 = .ok () ↔ w.HasRoom xs.size := by
  obtain ⟨written, _ | room⟩ := w
  · simp [write, HasRoom]
  · simp [write, HasRoom]

theorem write_empty (w : Writer) : w.write .empty = (w, .ok ()) := by
  obtain ⟨written, _ | room⟩ := w
  · simp [write]
  · simp [write, extract_of_size_le]

/-- Two texts are written like one, unless the first one already fails. -/
theorem write_append (w : Writer) (xs ys : ByteArray) :
    w.write (xs ++ ys) =
      match w.write xs with
      | (w, .ok ()) => w.write ys
      | (w, .error e) => (w, .error e) := by
  obtain ⟨written, _ | room⟩ := w
  · simp [write, ByteArray.append_assoc]
  · by_cases h : xs.size ≤ room
    · have hsize : xs.size + ys.size ≤ room ↔ ys.size ≤ room - xs.size := by omega
      simp [write, h, hsize, ByteArray.extract_append, ByteArray.append_assoc, Nat.sub_sub]
    · have hlt : ¬ xs.size + ys.size ≤ room := by omega
      have hle : room ≤ xs.size := by omega
      simp [write, h, hlt, extract_append_of_le hle, Nat.sub_eq_zero_of_le hle]
      omega

/-- The writer holds the same in either case, since it stays full. -/
theorem fst_write_append (w : Writer) (xs ys : ByteArray) :
    (w.write (xs ++ ys)).1 = ((w.write xs).1.write ys).1 := by
  obtain ⟨written, _ | room⟩ := w
  · simp [write, ByteArray.append_assoc]
  · simp [write, ByteArray.extract_append, ByteArray.append_assoc, Nat.sub_sub]

/-- There is room for two texts if there is room for the second one behind the first. -/
theorem hasRoom_add_iff :
    w.HasRoom (xs.size + n) ↔ w.HasRoom xs.size ∧ (w.write xs).1.HasRoom n := by
  obtain ⟨written, _ | room⟩ := w
  · simp [write, HasRoom]
  · simp only [write, HasRoom, Option.some.injEq, forall_eq']
    omega

/-- The writer holds the beginning of the text, as far as there was room. -/
theorem written_write (room : Option Nat) (xs : ByteArray) :
    (({ room } : Writer).write xs).1.written = xs.extract 0 (room.getD xs.size) := by
  cases room with
  | none => simp [write, extract_of_size_le]
  | some room => simp [write]

theorem size_written_le (room : Option Nat) (xs : ByteArray) :
    (({ room } : Writer).write xs).1.written.size ≤ xs.size := by
  rw [written_write, ByteArray.size_extract]
  omega

/-- What is written is determined by how much is written. -/
theorem written_eq_extract (room : Option Nat) (xs : ByteArray) :
    (({ room } : Writer).write xs).1.written =
      xs.extract 0 (({ room } : Writer).write xs).1.written.size := by
  rw [written_write, ByteArray.size_extract, Nat.sub_zero]
  rcases Nat.le_total (room.getD xs.size) xs.size with h | h
  · rw [Nat.min_eq_left h]
  · rw [Nat.min_eq_right h, extract_of_size_le h, ByteArray.extract_zero_size]

theorem size_le_written_iff {room : Option Nat} :
    xs.size ≤ (({ room } : Writer).write xs).1.written.size ↔
      ({ room } : Writer).HasRoom xs.size := by
  rw [written_write, ByteArray.size_extract]
  cases room with
  | none => simp [HasRoom]
  | some room =>
    simp only [HasRoom, Option.getD_some, Option.some.injEq, forall_eq']
    omega

/-- What a writer has written and what it has room for add up to what it takes in all. -/
theorem hasRoom_write_iff {limit : Nat} :
    (({ room := some limit } : Writer).write xs).1.HasRoom n ↔
      (({ room := some limit } : Writer).write xs).1.written.size + n ≤ limit := by
  rw [written_write, ByteArray.size_extract]
  simp only [write, HasRoom, Option.some.injEq, forall_eq', Option.getD_some]
  omega

end Writer

/-! ## Text -/

namespace Code

variable {annotate : Bool} {line : Line} {c d : Code} {n : Nat}

/-- The text of some code, as a writer receives it. -/
def bytes (annotate : Bool) (code : Code) : ByteArray :=
  (code.text annotate).toUTF8

theorem bytes_nil : bytes annotate [] = .empty :=
  rfl

theorem bytes_append : bytes annotate (c ++ d) = bytes annotate c ++ bytes annotate d := by
  rw [bytes, text_append]
  exact String.toByteArray_append

theorem bytes_cons :
    bytes annotate (line :: c) = (line.text annotate ++ "\n").toUTF8 ++ bytes annotate c := by
  have hline : bytes annotate [line] = (line.text annotate ++ "\n").toUTF8 := by
    simp [bytes, text]
  rw [← hline, ← bytes_append, List.singleton_append]

/-- No line is empty, since it has at least its newline. -/
theorem size_line_pos : 0 < (line.text annotate ++ "\n").toUTF8.size := by
  have hsize : (line.text annotate ++ "\n").toUTF8.size = _ := String.size_toByteArray
  rw [hsize, String.utf8ByteSize_append]
  exact Nat.lt_of_lt_of_le Nat.one_pos (Nat.le_add_left _ _)

/-- How many of the lines stand completely within the first bytes of their text. -/
def linesWithin (annotate : Bool) : Code → Nat → Nat
  | [], _ => 0
  | line :: rest, n =>
    let size := (line.text annotate ++ "\n").toUTF8.size
    if size ≤ n then linesWithin annotate rest (n - size) + 1 else 0

theorem linesWithin_le_length : linesWithin annotate c n ≤ c.length := by
  induction c generalizing n with
  | nil => exact Nat.le_refl 0
  | cons line rest ih =>
    rw [linesWithin]
    split
    · exact Nat.succ_le_succ ih
    · exact Nat.zero_le _

theorem linesWithin_eq_length_iff :
    linesWithin annotate c n = c.length ↔ (bytes annotate c).size ≤ n := by
  induction c generalizing n with
  | nil => exact iff_of_true rfl (Nat.zero_le n)
  | cons line rest ih =>
    rw [linesWithin, bytes_cons, ByteArray.size_append, List.length_cons]
    split
    · rw [Nat.succ_inj, ih]
      omega
    · refine iff_of_false (Nat.succ_ne_zero _).symm ?_
      omega

/-- Lines behind the first bytes do not count, not even one that begins right there. -/
theorem linesWithin_append (h : n ≤ (bytes annotate c).size) :
    linesWithin annotate (c ++ d) n = linesWithin annotate c n := by
  induction c generalizing n with
  | nil =>
    obtain rfl : n = 0 := Nat.le_zero.1 h
    cases d with
    | nil => rfl
    | cons line rest => exact if_neg (Nat.not_le.2 size_line_pos)
  | cons line rest ih =>
    rw [bytes_cons, ByteArray.size_append] at h
    rw [List.cons_append, linesWithin, linesWithin, ih (by omega)]

end Code

/-- The comment that names the source of a line.  A line with the span 0..0 has none. -/
def Line.comment (line : Line) : String :=
  if line.span.lo = 0 ∧ line.span.hi = 0 then ""
  else "\t# " ++ toString line.span.lo.toNat ++ ".." ++ toString line.span.hi.toNat

/-- The text of a buffer, where each line is followed by its comment if lines are to be
annotated. -/
def Buffer.display (b : Buffer) (annotate : Bool) : String :=
  if annotate then
    String.join (b.lines.toList.map fun line => line.text false ++ line.comment ++ "\n")
  else b.text

theorem Line.text_true (line : Line) : line.text true = line.text false ++ line.comment := by
  have hdummy : line.span.isDummy = true ↔ line.span.lo = 0 ∧ line.span.hi = 0 := by
    rw [Span.isDummy, beq_iff_eq, Span.ext_iff]
    rfl
  by_cases h : line.span.lo = 0 ∧ line.span.hi = 0
  · simp [text, comment, h, hdummy.2 h]
  · have hnot : line.span.isDummy = false := by rw [← Bool.not_eq_true, hdummy]; exact h
    simp [text, comment, h, hnot, Span.text, String.append_assoc]

/-- The lines of a stream are printed as a buffer displays them. -/
theorem Buffer.display_emitAll (annotate : Bool) (code : Code) :
    (Sink.emitAll Buffer.empty code).display annotate = code.text annotate := by
  have hlines : (Sink.emitAll Buffer.empty code).lines.toList = code := by
    rw [Buffer.toList_lines_emitAll]
    rfl
  cases annotate with
  | false => simp [display, Buffer.text, hlines]
  | true => simp only [display, if_true, hlines, Code.text, Line.text_true]

namespace Stream

variable {annotate : Bool} {room : Option Nat} {s : Stream}

/-- Lines that are written one by one are written like their text. -/
theorem writeLines_eq (annotate : Bool) (out : Writer) (code : Code) :
    writeLines annotate out code = out.write (code.bytes annotate) := by
  induction code generalizing out with
  | nil => exact out.write_empty.symm
  | cons line rest ih =>
    rw [writeLines, Code.bytes_cons, Writer.write_append]
    rcases out.write (line.text annotate ++ "\n").toUTF8 with ⟨out, _ | _⟩
    · rfl
    · exact ih out

/-! ## Runs -/

/-- The operations on a stream. -/
inductive Op where
  | emit (line : Line)
  | flush
deriving DecidableEq

/-- The lines that are emitted. -/
def emitted (ops : List Op) : Code :=
  ops.filterMap fun
    | .emit line => some line
    | .flush => none

/-- The stream after an operation, whether it succeeded or not. -/
def perform (s : Stream) : Op → Stream
  | .emit line => s.emit line
  | .flush => s.flush.1

/-- The stream after some operations. -/
def after (s : Stream) (ops : List Op) : Stream :=
  ops.foldl perform s

/-- Every flush among the operations writes all that is pending then. -/
def FlushesSucceed (s : Stream) (ops : List Op) : Prop :=
  ∀ before rest, ops = before ++ .flush :: rest → (s.after before).flush.2 = .ok ()

/-- A new stream. -/
def opened (annotate : Bool) (room : Option Nat) : Stream :=
  { annotate, out := { room } }

variable {ops : List Op} {op : Op}

theorem emitted_append (before rest : List Op) :
    emitted (before ++ rest) = emitted before ++ emitted rest :=
  List.filterMap_append

theorem after_append (s : Stream) (before rest : List Op) :
    s.after (before ++ rest) = (s.after before).after rest :=
  List.foldl_append

/-- What is pending is written like its text. -/
theorem flush_eq (s : Stream) :
    s.flush =
      let result := s.out.write (Code.bytes s.annotate s.pending.toList)
      ({ s with pending := #[], out := result.1 }, result.2) := by
  rw [flush, writeLines_eq]

theorem flushesSucceed_append_iff : s.FlushesSucceed (ops ++ [op]) ↔
    s.FlushesSucceed ops ∧ (op = .flush → (s.after ops).flush.2 = .ok ()) := by
  constructor
  · intro h
    refine ⟨fun before rest e => h before (rest ++ [op]) (by simp [e]), ?_⟩
    rintro rfl
    exact h ops [] rfl
  · rintro ⟨h, hlast⟩ before rest e
    rcases List.eq_nil_or_concat rest with rfl | ⟨rest, last, rfl⟩
    · obtain ⟨rfl, hop⟩ := List.append_inj' e rfl
      exact hlast (List.cons.inj hop).1
    · rw [List.concat_eq_append, ← List.cons_append, ← List.append_assoc] at e
      exact h before rest (List.append_inj' e rfl).1

/-- What a new stream has been through: some of the lines have been flushed, as if they had been
written in one piece, and the others are pending. -/
structure History (annotate : Bool) (room : Option Nat) (ops : List Op) (flushed : Code) :
    Prop where
  emitted : emitted ops = flushed ++ ((opened annotate room).after ops).pending.toList
  out : ((opened annotate room).after ops).out =
    (({ room } : Writer).write (flushed.bytes annotate)).1
  annotate_eq : ((opened annotate room).after ops).annotate = annotate
  /-- No flush fails if there is room for all that is flushed. -/
  succeed : (opened annotate room).FlushesSucceed ops ↔
    ({ room } : Writer).HasRoom (flushed.bytes annotate).size

/-- After a flush it is as if all lines had been written in one piece. -/
theorem History.out_flush {flushed : Code} (h : History annotate room ops flushed) :
    ((opened annotate room).after ops).flush.1.out =
      (({ room } : Writer).write ((Stream.emitted ops).bytes annotate)).1 := by
  rw [flush_eq, h.emitted, Code.bytes_append, Writer.fst_write_append, ← h.out, h.annotate_eq]

theorem exists_history (annotate : Bool) (room : Option Nat) (ops : List Op) :
    ∃ flushed, History annotate room ops flushed := by
  induction ops using List.reverseRec with
  | nil =>
    refine ⟨[], rfl, ?_, rfl, ?_⟩
    · rw [Code.bytes_nil, Writer.write_empty]
      rfl
    · refine iff_of_true (fun before rest e => ?_) fun _ _ => Nat.zero_le _
      simp at e
  | append_singleton ops op ih =>
    obtain ⟨flushed, h⟩ := ih
    cases op with
    | emit line =>
      refine ⟨flushed, ?_, ?_, ?_, ?_⟩
      · rw [emitted_append, h.emitted, after_append, List.append_assoc]
        simp [after, perform, emit, Stream.emitted]
      · rw [after_append]
        exact h.out
      · rw [after_append]
        exact h.annotate_eq
      · rw [flushesSucceed_append_iff, h.succeed]
        simp
    | flush =>
      have hflush : (opened annotate room).after (ops ++ [.flush]) =
          ((opened annotate room).after ops).flush.1 := by
        rw [after_append]
        rfl
      refine ⟨emitted ops, ?_, ?_, ?_, ?_⟩
      · rw [hflush, flush_eq, emitted_append]
        rfl
      · rw [hflush, h.out_flush]
      · rw [hflush, flush_eq]
        exact h.annotate_eq
      · rw [flushesSucceed_append_iff, h.succeed, h.emitted, Code.bytes_append,
          ByteArray.size_append, Writer.hasRoom_add_iff, flush_eq, ← h.out, h.annotate_eq]
        simp [Writer.write_eq_ok_iff]

/-! ## Streams and buffers -/

/-- The text of what is pending is more than the writer takes behind what it has taken, when it
takes so many bytes in all. -/
def Overflows (s : Stream) (limit : Nat) : Prop :=
  limit < s.out.written.size + (Code.bytes s.annotate s.pending.toList).size

/-- The stream is flushed behind these operations, and this is the first flush to overflow. -/
def FirstOverflow (s : Stream) (limit : Nat) (ops before : List Op) : Prop :=
  (∃ rest, ops = before ++ .flush :: rest) ∧ (s.after before).Overflows limit ∧
    ∀ b rest, before = b ++ .flush :: rest → ¬ (s.after b).Overflows limit

section Limited

variable {limit : Nat}

theorem flush_eq_ok_iff :
    ((opened annotate (some limit)).after ops).flush.2 = .ok () ↔
      ¬ ((opened annotate (some limit)).after ops).Overflows limit := by
  obtain ⟨flushed, h⟩ := exists_history annotate (some limit) ops
  rw [flush_eq, Overflows, Nat.not_lt, h.annotate_eq, h.out]
  exact Writer.write_eq_ok_iff.trans Writer.hasRoom_write_iff

/-- If some flush fails, then some flush is the first to overflow. -/
theorem exists_firstOverflow (h : ¬ (opened annotate (some limit)).FlushesSucceed ops) :
    ∃ before, (opened annotate (some limit)).FirstOverflow limit ops before := by
  let overflowing : Set (List Op) := fun before =>
    (∃ rest, ops = before ++ .flush :: rest) ∧
      ((opened annotate (some limit)).after before).Overflows limit
  have hnonempty : overflowing.Nonempty := by
    simp only [FlushesSucceed, flush_eq_ok_iff, not_forall, not_not] at h
    obtain ⟨before, rest, hops, hover⟩ := h
    exact ⟨before, ⟨rest, hops⟩, hover⟩
  obtain ⟨before, ⟨⟨rest, hops⟩, hover⟩, hmin⟩ :=
    (measure List.length).wf.has_min overflowing hnonempty
  refine ⟨before, ⟨rest, hops⟩, hover, fun b rest' hbefore hover' => ?_⟩
  refine hmin b ⟨⟨rest' ++ .flush :: rest, ?_⟩, hover'⟩ ?_
  · rw [hops, hbefore, List.append_assoc, List.cons_append]
  · change b.length < before.length
    rw [hbefore, List.length_append, List.length_cons]
    omega

/-- The flush that overflows first fails, when the writer holds as much of the text as it takes. -/
theorem FirstOverflow.flush_eq {before : List Op}
    (h : (opened annotate (some limit)).FirstOverflow limit ops before) :
    ((opened annotate (some limit)).after before).flush.2 = .error .diskFull ∧
      ((opened annotate (some limit)).after before).flush.1.out.written =
        ((emitted ops).bytes annotate).extract 0 limit := by
  obtain ⟨⟨rest, hops⟩, hover, hfirst⟩ := h
  obtain ⟨flushed, hhistory⟩ := exists_history annotate (some limit) before
  have hfail : ((opened annotate (some limit)).after before).flush.2 ≠ .ok () :=
    fun hok => flush_eq_ok_iff.1 hok hover
  have hroom : (flushed.bytes annotate).size ≤ limit := by
    refine hhistory.succeed.1 (fun b rest' hbefore => ?_) limit rfl
    exact flush_eq_ok_iff.2 (hfirst b rest' hbefore)
  have hsize : limit ≤ ((emitted before).bytes annotate).size := by
    rw [Overflows, hhistory.annotate_eq, hhistory.out, Writer.written_write,
      ByteArray.size_extract] at hover
    rw [hhistory.emitted, Code.bytes_append, ByteArray.size_append]
    omega
  constructor
  · cases hresult : ((opened annotate (some limit)).after before).flush.2 with
    | ok => exact absurd hresult hfail
    | error e => cases e; rfl
  · rw [hhistory.out_flush, Writer.written_write, hops, emitted_append, Code.bytes_append,
      Writer.extract_append_of_le hsize]
    rfl

/-- Lines are emitted into a stream and a buffer, and the stream is flushed between them in any way
and behind them, on a writer that takes so many bytes.  If the text that the buffer displays is no
longer, every flush succeeds and the writer receives this text.  Else the first flush to overflow
fails, when the writer holds the beginning of this text. -/
theorem prints_display (annotate : Bool) (limit : Nat) (ops : List Op) :
    let s := opened annotate (some limit)
    let text := ((Sink.emitAll Buffer.empty (emitted ops)).display annotate).toUTF8
    (text.size ≤ limit → s.FlushesSucceed (ops ++ [.flush]) ∧
      (s.after (ops ++ [.flush])).out.written = text) ∧
    (limit < text.size → (∃ before, s.FirstOverflow limit (ops ++ [.flush]) before) ∧
      ∀ before, s.FirstOverflow limit (ops ++ [.flush]) before →
        (s.after before).flush.2 = .error .diskFull ∧
          (s.after before).flush.1.out.written = text.extract 0 limit) := by
  intro s text
  obtain ⟨flushed, h⟩ := exists_history annotate (some limit) (ops ++ [.flush])
  have hflushed : flushed = emitted (ops ++ [.flush]) := by
    have hpending : (s.after (ops ++ [.flush])).pending.toList = [] := by
      rw [after_append]
      rfl
    rw [h.emitted, hpending, List.append_nil]
  have htext : text = flushed.bytes annotate := by
    have hemitted : emitted (ops ++ [.flush]) = emitted ops := by simp [emitted]
    rw [hflushed, hemitted, Code.bytes, ← Buffer.display_emitAll]
  have hsucceed : s.FlushesSucceed (ops ++ [.flush]) ↔ text.size ≤ limit := by
    rw [h.succeed, htext]
    simp [Writer.HasRoom]
  refine ⟨fun hle => ⟨hsucceed.2 hle, ?_⟩, fun hlt => ⟨?_, fun before hfirst => ?_⟩⟩
  · rw [h.out, ← htext, Writer.written_write]
    exact Writer.extract_of_size_le hle
  · exact exists_firstOverflow fun hok => Nat.not_lt.2 (hsucceed.1 hok) hlt
  · rw [htext, hflushed]
    exact hfirst.flush_eq

end Limited

/-! ## What becomes of the lines -/

/-- A writer holds the beginning of the text of the lines, and every line is written completely,
lost or pending, in this order.  None is lost exactly if all flushes have succeeded, so only then
the lines written and the lines pending add up to the lines emitted. -/
theorem accounts_iff (annotate : Bool) (room : Option Nat) (ops : List Op) :
    let s := (opened annotate room).after ops
    let complete := (emitted ops).linesWithin annotate s.out.written.size
    s.out.written = ((emitted ops).bytes annotate).extract 0 s.out.written.size ∧
      (∃ lost, emitted ops = (emitted ops).take complete ++ lost ++ s.pending.toList ∧
        (lost = [] ↔ (opened annotate room).FlushesSucceed ops)) ∧
      (complete + s.pending.size = (emitted ops).length ↔
        (opened annotate room).FlushesSucceed ops) := by
  intro s complete
  obtain ⟨flushed, h⟩ := exists_history annotate room ops
  have hle : s.out.written.size ≤ (flushed.bytes annotate).size := by
    rw [h.out]
    exact Writer.size_written_le room _
  have hpending : s.pending.size = ((opened annotate room).after ops).pending.toList.length :=
    Array.length_toList.symm
  have hcomplete : complete = flushed.linesWithin annotate s.out.written.size := by
    rw [← Code.linesWithin_append hle, ← h.emitted]
  have hall : complete = flushed.length ↔ (opened annotate room).FlushesSucceed ops := by
    rw [hcomplete, Code.linesWithin_eq_length_iff, h.succeed, h.out, Writer.size_le_written_iff]
  have hcut : complete ≤ flushed.length := hcomplete ▸ Code.linesWithin_le_length
  refine ⟨?_, ⟨flushed.drop complete, ?_, ?_⟩, ?_⟩
  · rw [h.emitted, Code.bytes_append, Writer.extract_append_of_le hle]
    rw [h.out]
    exact Writer.written_eq_extract room _
  · rw [h.emitted, List.take_append_of_le_length hcut, List.take_append_drop]
  · rw [List.drop_eq_nil_iff, ← hall]
    omega
  · rw [h.emitted, List.length_append, hpending, ← hall]
    omega

/-- Of two lines, the second one is cut off by a writer that takes 10 bytes.  It is not written
completely, and not pending either. -/
theorem drops_cutLine :
    let ops : List Op := [.emit ⟨.dummy, .syscall⟩, .emit ⟨.dummy, .label .main⟩, .flush]
    let s := (opened false (some 10)).after ops
    s.out.text = "\tsyscall\nm" ∧
      (emitted ops).linesWithin false s.out.written.size + s.pending.size ≠
        (emitted ops).length := by
  decide +kernel

end Stream

end MipsBackend
