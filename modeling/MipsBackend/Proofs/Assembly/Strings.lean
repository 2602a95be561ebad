import Mathlib.Tactic.SplitIfs
import MipsBackend.Assembly.Printer

/-!
# Strings in assembly

A string literal is printed byte by byte.  `readString` reads it as an assembler does: up to the
first quote that no backslash stands before, with the escapes that the printer writes.  Each byte
reads back as itself whatever is behind it (`readString_asciiByte`), since an octal escape always
has three digits.  So a whole literal reads back as its bytes (`quotes_asciiText`).
-/

namespace MipsBackend

namespace Inst

/-- The value of an octal digit. -/
def octalDigit? (c : Char) : Option Nat :=
  if '0' ≤ c ∧ c ≤ '7' then some (c.toNat - '0'.toNat) else none

/-- The byte that three octal digits stand for. -/
def octalByte? (c d e : Char) : Option UInt8 := do
  let value := 64 * (← octalDigit? c) + 8 * (← octalDigit? d) + (← octalDigit? e)
  if value < 256 then some (.ofNat value) else none

/-- The character is one of printable ASCII. -/
def IsPrintable (c : Char) : Prop :=
  0x20 ≤ c.toNat ∧ c.toNat ≤ 0x7e

instance (c : Char) : Decidable (IsPrintable c) :=
  inferInstanceAs (Decidable (_ ∧ _))

/-- Reads a string from behind its opening quote: the bytes, and what is behind the closing
quote. -/
def readString : List Char → Option (List UInt8 × List Char)
  | [] => none
  | '"' :: rest => some ([], rest)
  | '\\' :: '"' :: rest => (readString rest).map (Prod.map (0x22 :: ·) id)
  | '\\' :: '\\' :: rest => (readString rest).map (Prod.map (0x5c :: ·) id)
  | '\\' :: 'n' :: rest => (readString rest).map (Prod.map (0x0a :: ·) id)
  | '\\' :: 't' :: rest => (readString rest).map (Prod.map (0x09 :: ·) id)
  | '\\' :: c :: d :: e :: rest => do
    let b ← octalByte? c d e
    (readString rest).map (Prod.map (b :: ·) id)
  | c :: rest =>
    if IsPrintable c ∧ c ≠ '\\' then (readString rest).map (Prod.map (.ofNat c.toNat :: ·) id)
    else none

variable {b : UInt8} {c d e : Char} {rest : List Char}

/-- No digit is read as one of the other escapes. -/
theorem readString_octal (h : octalByte? c d e = some b) :
    readString ('\\' :: c :: d :: e :: rest) = (readString rest).map (Prod.map (b :: ·) id) := by
  rw [readString, h]
  · rfl
  all_goals
    rintro rfl
    cases h

theorem readString_printable (hc : IsPrintable c) (hquote : c ≠ '"') (hescape : c ≠ '\\') :
    readString (c :: rest) = (readString rest).map (Prod.map (.ofNat c.toNat :: ·) id) := by
  rw [readString, if_pos ⟨hc, hescape⟩]
  · exact hquote
  all_goals
    intros
    exact hescape ‹_›

theorem octalDigit?_digitChar {n : Nat} (h : n < 8) :
    octalDigit? n.digitChar = some n ∧ IsPrintable n.digitChar := by
  revert n
  decide

/-- Three octal digits are enough for a byte. -/
theorem octalByte?_octal (b : UInt8) :
    octalByte? (b.toNat / 64).digitChar (b.toNat / 8 % 8).digitChar (b.toNat % 8).digitChar =
      some b := by
  have hlt : b.toNat < 256 := b.toNat_lt
  have hhigh := (octalDigit?_digitChar (n := b.toNat / 64) (by omega)).1
  have hmiddle := (octalDigit?_digitChar (n := b.toNat / 8 % 8) (by omega)).1
  have hlow := (octalDigit?_digitChar (n := b.toNat % 8) (by omega)).1
  have hvalue : 64 * (b.toNat / 64) + 8 * (b.toNat / 8 % 8) + b.toNat % 8 = b.toNat := by omega
  simp only [octalByte?, hhigh, hmiddle, hlow, Option.bind_eq_bind, Option.bind_some, hvalue,
    if_pos hlt, UInt8.ofNat_toNat]

/-- Printable ASCII is the same as a byte and as a character. -/
theorem toNat_ofNat_of_printable {n : Nat} (h : n ≤ 0x7e) : (Char.ofNat n).toNat = n := by
  revert n
  decide

/-- A byte reads back as itself, whatever is behind it. -/
theorem readString_asciiByte (b : UInt8) (rest : List Char) :
    readString (asciiByte b ++ rest) = (readString rest).map (Prod.map (b :: ·) id) := by
  unfold asciiByte
  split_ifs with hquote hescape hnewline htab hprintable
  · rw [hquote]
    rfl
  · rw [hescape]
    rfl
  · rw [hnewline]
    rfl
  · rw [htab]
    rfl
  · have hle : b.toNat ≤ 0x7e := hprintable.2
    have htoNat := toNat_ofNat_of_printable hle
    have hbyte : UInt8.ofNat (Char.ofNat b.toNat).toNat = b := by rw [htoNat, UInt8.ofNat_toNat]
    have hne : ∀ c : Char, b ≠ UInt8.ofNat c.toNat → Char.ofNat b.toNat ≠ c := by
      rintro c hb rfl
      exact hb hbyte.symm
    have hchar : IsPrintable (Char.ofNat b.toNat) := by
      rw [IsPrintable, htoNat]
      exact hprintable
    have hread : readString (Char.ofNat b.toNat :: rest) = _ :=
      readString_printable hchar (hne _ hquote) (hne _ hescape)
    rw [hbyte] at hread
    exact hread
  · exact readString_octal (octalByte?_octal b)

theorem isPrintable_of_mem_escape (hd : IsPrintable d) (h : c ∈ ['\\', d]) : IsPrintable c := by
  rcases List.mem_cons.1 h with rfl | h
  · decide
  · rwa [List.mem_singleton.1 h]

theorem isPrintable_of_mem_asciiByte (h : c ∈ asciiByte b) : IsPrintable c := by
  unfold asciiByte at h
  split_ifs at h with hquote hescape hnewline htab hprintable
  · exact isPrintable_of_mem_escape (by decide) h
  · exact isPrintable_of_mem_escape (by decide) h
  · exact isPrintable_of_mem_escape (by decide) h
  · exact isPrintable_of_mem_escape (by decide) h
  · obtain rfl := List.mem_singleton.1 h
    have hle : b.toNat ≤ 0x7e := hprintable.2
    rw [IsPrintable, toNat_ofNat_of_printable hle]
    exact hprintable
  · have hlt : b.toNat < 256 := b.toNat_lt
    rcases List.mem_cons.1 h with rfl | hdigit
    · decide
    · obtain ⟨n, hn, rfl⟩ := List.mem_map.1 hdigit
      refine (octalDigit?_digitChar ?_).2
      simp only [List.mem_cons, List.not_mem_nil, or_false] at hn
      omega

/-- What stands between quotes is printable, contains no quote without a backslash, and reads back
as some bytes, whatever is behind it. -/
structure Quotes (body : String) (bytes : List UInt8) : Prop where
  printable : ∀ c ∈ body.toList, IsPrintable c
  unclosed : readString body.toList = none
  read : ∀ rest, readString (body.toList ++ '"' :: rest) = some (bytes, rest)

/-- A literal reads back as its bytes. -/
theorem quotes_asciiText (text : String) : Quotes (asciiText text) text.toUTF8.data.toList := by
  have hread : ∀ (bytes : List UInt8) (rest : List Char),
      readString (bytes.flatMap asciiByte ++ rest) =
        (readString rest).map (Prod.map (bytes ++ ·) id) := by
    intro bytes rest
    induction bytes with
    | nil => exact Option.map_id'.symm
    | cons b bytes ih =>
      rw [List.flatMap_cons, List.append_assoc, readString_asciiByte, ih, Option.map_map]
      rfl
  rw [asciiText]
  refine ⟨?_, ?_, fun rest => ?_⟩
  · intro c hc
    rw [String.toList_ofList] at hc
    obtain ⟨b, _, hc⟩ := List.mem_flatMap.1 hc
    exact isPrintable_of_mem_asciiByte hc
  · have hnil := hread text.toUTF8.data.toList []
    rw [List.append_nil] at hnil
    rw [String.toList_ofList, hnil]
    rfl
  · rw [String.toList_ofList, hread]
    simp [readString, Prod.map]

example : asciiText "say \"hi\"\n\\é" = "say \\\"hi\\\"\\n\\\\\\303\\251" := by decide

/-- The operand of the directive is the quoted literal. -/
theorem text_ascii (text : String) :
    (Inst.ascii text).text = ".ascii \"" ++ asciiText text ++ "\"" := by
  rw [Inst.text, form, String.intercalate_singleton, String.append_assoc, String.append_assoc,
    ← String.append_assoc, ← String.append_assoc]
  rfl

end Inst

end MipsBackend
