import Mathlib.Data.List.Forall2
import Mathlib.Tactic.IntervalCases
import MipsBackend.Json.Printer
import MipsBackend.Json.Token

/-!
# The tokens of a printed value

The lexer takes the characters that the printer writes back to the tokens of the value.  A number
has no last character of its own: it ends where a delimiter follows or the text stops.  So what the
lexer reaches behind a value is described by what it does next, and not as a state.
-/

namespace MipsBackend.Json

mutual

/-- The tokens that a value is written with. -/
def lexemes : Json → List Token
  | null => [.atom null]
  | bool b => [.atom (bool b)]
  | integer n => [.atom (integer n)]
  | real text => [.atom (real text)]
  | string text => [.string text]
  | array items => .openArray :: List.intercalate [.comma] (itemLexemes items) ++ [.closeArray]
  | object members =>
    .openObject :: List.intercalate [.comma] (memberLexemes members) ++ [.closeObject]

/-- The tokens of each item. -/
def itemLexemes : List Json → List (List Token)
  | [] => []
  | item :: items => lexemes item :: itemLexemes items

/-- The tokens of each member, name first. -/
def memberLexemes : List (Option String × Json) → List (List Token)
  | [] => []
  | (name, value) :: members => (.string name :: .colon :: lexemes value) :: memberLexemes members

end

/-- All numbers in a value are plain integers, so that nothing of it is kept as it was written. -/
inductive IsPlain : Json → Prop
  | null : IsPlain .null
  | bool (b : Bool) : IsPlain (.bool b)
  | integer (n : Int) : IsPlain (.integer n)
  | string (text : Option String) : IsPlain (.string text)
  | array (items : List Json) : (∀ item ∈ items, IsPlain item) → IsPlain (.array items)
  | object (members : List (Option String × Json)) :
      (∀ m ∈ members, IsPlain m.2) → IsPlain (.object members)

/-! ## Strings -/

/-- A string of which some plain characters have been read, last first. -/
def StringState.reading (chars : List Char) : StringState :=
  { chars := chars }

theorem StringState.hexValue?_digitChar {n : Nat} (h : n < 16) :
    hexValue? (Nat.digitChar n) = some n := by
  interval_cases n <;> rfl

/-- What the printer writes for a control character is read as that character. -/
theorem foldlM_unitEscape (c : Char) (control : c.toNat < 0x20) (done : List Token)
    (chars : List Char) :
    (unitEscape c.toNat).foldlM lexStep (done, .string (.reading chars)) =
      some (done, .string (.reading (c :: chars))) := by
  have high : StringState.hexValue? (Nat.digitChar (c.toNat / 16)) = some (c.toNat / 16) :=
    StringState.hexValue?_digitChar (by omega)
  have low : StringState.hexValue? (Nat.digitChar (c.toNat % 16)) = some (c.toNat % 16) :=
    StringState.hexValue?_digitChar (by omega)
  have value : 16 * (c.toNat / 16) + c.toNat % 16 = c.toNat := Nat.div_add_mod _ _
  have zero : StringState.hexValue? '0' = some 0 := rfl
  have notHigh : ¬(55296 ≤ c.toNat ∧ c.toNat < 56320) := by omega
  have notLow : ¬(56320 ≤ c.toNat ∧ c.toNat < 57344) := by omega
  simp [unitEscape, lexStep, StringState.atQuote, StringState.read?, StringState.reading, zero,
    high, low, value, StringState.pushUnit, notHigh, notLow, StringState.pushChar, Char.ofNat_toNat]

/-- What the printer writes for a character is read as that character. -/
theorem foldlM_stringChar (c : Char) (done : List Token) (chars : List Char) :
    (stringChar c).foldlM lexStep (done, .string (.reading chars)) =
      some (done, .string (.reading (c :: chars))) := by
  unfold stringChar
  split
  case h_8 notQuote notBackslash _ _ _ _ _ =>
    split
    · exact foldlM_unitEscape c ‹_› done chars
    · rename_i notControl
      have quote : ¬c = '"' := notQuote
      have backslash : ¬c = '\\' := notBackslash
      simp [lexStep, StringState.atQuote, StringState.read?, StringState.reading, quote, backslash,
        notControl, StringState.pushChar]
  all_goals rfl

/-- The characters of a text are read as themselves. -/
theorem foldlM_stringChars_body (text : List Char) (done : List Token) (chars : List Char) :
    (text.flatMap stringChar).foldlM lexStep (done, .string (.reading chars)) =
      some (done, .string (.reading (text.reverse ++ chars))) := by
  induction text generalizing chars with
  | nil => rfl
  | cons c rest ih =>
    rw [List.flatMap_cons, List.foldlM_append, foldlM_stringChar]
    simp [ih]

/-- A printed string is read as one token, also where it is no text. -/
theorem foldlM_stringChars (text : Option String) (done : List Token) :
    (stringChars text).foldlM lexStep (done, .between) = some (.string text :: done, .between) := by
  cases text with
  | none =>
    have written : stringChars none = ['"', '\\', 'u', 'd', '8', '0', '0', '"'] := by decide
    rw [written]
    simp [lexStep, lexFirst, StringState.atQuote, StringState.read?, StringState.hexValue?,
      StringState.pushUnit, StringState.result]
  | some text =>
    have written :
        stringChars (some text) = '"' :: (text.toList.flatMap stringChar ++ ['"']) := rfl
    have opens : lexStep (done, .between) '"' = some (done, .string (.reading [])) := rfl
    have closes : lexStep (done, .string (.reading text.toList.reverse)) '"' =
        some (.string (some text) :: done, .between) := by
      simp [lexStep, StringState.atQuote, StringState.reading, StringState.result]
    simp [written, opens, List.foldlM_append, foldlM_stringChars_body, closes]

/-! ## Numbers -/

/-- Where the lexer stands in a number once its digits are read. -/
def NumberPart.ofDigits (n : Nat) : NumberPart :=
  if n = 0 then .zero else .digits

theorem NumberPart.isFinal_ofDigits (n : Nat) : (NumberPart.ofDigits n).isFinal = true := by
  unfold ofDigits
  split <;> rfl

theorem NumberPart.isInteger_ofDigits (n : Nat) : (NumberPart.ofDigits n).isInteger = true := by
  unfold ofDigits
  split <;> rfl

theorem decimal_toDigits (n : Nat) : decimal (Nat.toDigits 10 n) = n := by
  have folded := @Nat.ofDigitChars_ten_toDigits n
  rwa [Nat.ofDigitChars_eq_foldl] at folded

/-- A number other than zero is written without leading zero. -/
theorem exists_toDigits_eq_cons {n : Nat} (h : n ≠ 0) :
    ∃ first rest, Nat.toDigits 10 n = first :: rest ∧ first ≠ '0' := by
  induction n using Nat.strongRecOn with
  | ind n ih =>
    rw [Nat.toDigits_eq_if (by decide)]
    split
    · exact ⟨_, [], rfl, fun zero => h (Nat.digitChar_eq_zero.1 zero)⟩
    · rename_i large
      obtain ⟨first, rest, digits, nonzero⟩ := ih (n / 10) (by omega) (by omega)
      exact ⟨first, rest ++ [(n % 10).digitChar], by rw [digits, List.cons_append], nonzero⟩

/-- Further digits stay in the number. -/
theorem foldlM_digits {digits : List Char} (h : ∀ c ∈ digits, c.isDigit) (done : List Token)
    (written : List Char) :
    digits.foldlM lexStep (done, .number .digits written) =
      some (done, .number .digits (digits.reverse ++ written)) := by
  induction digits generalizing written with
  | nil => rfl
  | cons c rest ih =>
    obtain ⟨digit, digits⟩ := List.forall_mem_cons.1 h
    have step : lexStep (done, .number .digits written) c =
        some (done, .number .digits (c :: written)) := by
      simp [lexStep, NumberPart.next?, digit]
    simp [step, ih digits]

/-- A digit other than zero begins a number. -/
theorem lexFirst_digit {c : Char} (digit : c.isDigit) (nonzero : c ≠ '0') (done : List Token) :
    lexFirst done c = some (done, .number .digits [c]) := by
  unfold lexFirst
  split <;> first | (exfalso; revert digit; decide) | contradiction | simp [digit]

/-- The digits of a number are read, after a minus sign or without. -/
theorem foldlM_toDigits (n : Nat) (done : List Token) :
    (Nat.toDigits 10 n).foldlM lexStep (done, .between) =
        some (done, .number (.ofDigits n) (Nat.toDigits 10 n).reverse) ∧
      (Nat.toDigits 10 n).foldlM lexStep (done, .number .minus ['-']) =
        some (done, .number (.ofDigits n) ((Nat.toDigits 10 n).reverse ++ ['-'])) := by
  by_cases zero : n = 0
  · subst zero
    exact ⟨rfl, rfl⟩
  · obtain ⟨first, rest, digits, nonzero⟩ := exists_toDigits_eq_cons zero
    have all : ∀ c ∈ first :: rest, c.isDigit := fun c mem =>
      Nat.isDigit_of_mem_toDigits (by decide) (by decide) (digits ▸ mem)
    obtain ⟨digit, others⟩ := List.forall_mem_cons.1 all
    have begins : lexStep (done, .between) first = some (done, .number .digits [first]) :=
      lexFirst_digit digit nonzero done
    have continues : lexStep (done, .number .minus ['-']) first =
        some (done, .number .digits [first, '-']) := by
      simp [lexStep, NumberPart.next?, nonzero, digit]
    simp [digits, begins, continues, foldlM_digits others, NumberPart.ofDigits, zero]

theorem numberValue_toDigits (n : Nat) :
    numberValue (.ofDigits n) (Nat.toDigits 10 n) = integer n := by
  have noSign : ∀ digits, Nat.toDigits 10 n ≠ '-' :: digits := fun digits equal => by
    have digit : '-'.isDigit :=
      Nat.isDigit_of_mem_toDigits (n := n) (b := 10) (by decide) (by decide) (by simp [equal])
    exact absurd digit (by decide)
  unfold numberValue
  rw [if_pos (NumberPart.isInteger_ofDigits n)]
  split
  · exact absurd ‹_› (noSign _)
  · exact absurd ‹_› (noSign _)
  · rw [decimal_toDigits]

theorem numberValue_minus {n : Nat} (h : n ≠ 0) :
    numberValue (.ofDigits n) ('-' :: Nat.toDigits 10 n) = integer (-n) := by
  obtain ⟨first, rest, digits, nonzero⟩ := exists_toDigits_eq_cons h
  unfold numberValue
  rw [if_pos (NumberPart.isInteger_ofDigits n)]
  split
  · rename_i equal
    rw [digits] at equal
    simp_all
  · rename_i equal
    rw [← (List.cons.inj equal).2, decimal_toDigits]
  · rename_i notMinus
    exact absurd rfl (notMinus _)

/-! ## Whole values -/

/-- The characters that may follow a value inside an array or object. -/
def IsDelimiter (c : Char) : Prop :=
  c = ',' ∨ c = ']' ∨ c = '}'

/-- The lexer has read a number of tokens and is inside no other: a delimiter begins a new token and
the text may stop. -/
structure Settled (done : List Token) (state : List Token × LexState) : Prop where
  next : ∀ c, IsDelimiter c → lexStep state c = lexFirst done c
  ends : lexEnd state = some done.reverse

theorem settled_between (done : List Token) : Settled done (done, .between) where
  next _ _ := rfl
  ends := rfl

theorem settled_number (done : List Token) {n : Nat} {written : List Char} {value : Json}
    (h : numberValue (.ofDigits n) written.reverse = value) :
    Settled (.atom value :: done) (done, .number (.ofDigits n) written) where
  next c delimiter := by
    have stops : (NumberPart.ofDigits n).next? c = none := by
      unfold NumberPart.ofDigits
      rcases delimiter with rfl | rfl | rfl <;> split <;> rfl
    simp [lexStep, stops, NumberPart.isFinal_ofDigits, h]
  ends := by simp [lexEnd, NumberPart.isFinal_ofDigits, h]

/-- Characters that the lexer takes to some tokens, whatever it has read before. -/
def Lexes (cs : List Char) (ts : List Token) : Prop :=
  ∀ done, ∃ state, cs.foldlM lexStep (done, .between) = some state ∧
    Settled (ts.reverse ++ done) state

theorem lexes_of_between {cs : List Char} {ts : List Token}
    (h : ∀ done, cs.foldlM lexStep (done, .between) = some (ts.reverse ++ done, .between)) :
    Lexes cs ts :=
  fun done => ⟨_, h done, settled_between _⟩

theorem lexes_integer (n : Int) : Lexes (toString n).toList [.atom (integer n)] := by
  intro done
  cases n with
  | ofNat n =>
    have written : (toString (Int.ofNat n)).toList = Nat.toDigits 10 n := by
      rw [Int.toString_eq_repr, Int.repr, Nat.repr_eq_ofList_toDigits, String.toList_ofList]
    rw [written]
    exact ⟨_, (foldlM_toDigits n done).1,
      settled_number done (by rw [List.reverse_reverse, numberValue_toDigits]; rfl)⟩
  | negSucc n =>
    have written : (toString (Int.negSucc n)).toList = '-' :: Nat.toDigits 10 (n + 1) := by
      rw [Int.toString_eq_repr, Int.repr, Nat.repr_eq_ofList_toDigits]
      simp
    have sign : lexStep (done, .between) '-' = some (done, .number .minus ['-']) := rfl
    rw [written]
    refine ⟨_, by simpa [sign] using (foldlM_toDigits (n + 1) done).2, settled_number done ?_⟩
    rw [List.reverse_append, List.reverse_reverse]
    exact (numberValue_minus n.succ_ne_zero).trans rfl

/-- A delimiter after a value is read as the first character of its own token. -/
theorem Lexes.foldlM_append {cs : List Char} {ts : List Token} (h : Lexes cs ts) {c : Char}
    (delimiter : IsDelimiter c) (rest : List Char) (done : List Token) :
    (cs ++ c :: rest).foldlM lexStep (done, .between) =
      (lexFirst (ts.reverse ++ done) c).bind fun state => rest.foldlM lexStep state := by
  obtain ⟨state, reads, settled⟩ := h done
  rw [List.foldlM_append, reads]
  exact congrArg (Option.bind · _) (settled.next c delimiter)

/-- Values with commas between them, up to the bracket that closes them. -/
theorem foldlM_intercalate {css : List (List Char)} {tss : List (List Token)}
    (h : List.Forall₂ Lexes css tss) {c : Char} {close : Token} (delimiter : IsDelimiter c)
    (closes : ∀ done, lexFirst done c = some (close :: done, .between)) (done : List Token) :
    (List.intercalate [','] css ++ [c]).foldlM lexStep (done, .between) =
      some (close :: (List.intercalate [.comma] tss).reverse ++ done, .between) := by
  induction h generalizing done with
  | nil => exact (congrArg (Option.bind · _) (closes done)).trans rfl
  | @cons cs ts css tss first rest ih =>
    cases rest with
    | nil =>
      rw [List.intercalate_singleton, List.intercalate_singleton, first.foldlM_append delimiter,
        closes]
      rfl
    | cons second others =>
      rw [List.intercalate_cons_cons, List.intercalate_cons_cons, List.append_assoc,
        List.append_assoc, List.singleton_append, first.foldlM_append (Or.inl rfl)]
      have comma : lexFirst (ts.reverse ++ done) ',' =
          some (.comma :: (ts.reverse ++ done), .between) := rfl
      rw [comma, Option.bind_some, ih]
      simp

/-- A member's name and colon before its value. -/
theorem Lexes.member {cs : List Char} {ts : List Token} (h : Lexes cs ts) (name : Option String) :
    Lexes (stringChars name ++ ':' :: cs) (.string name :: .colon :: ts) := by
  intro done
  have colon : lexStep (.string name :: done, .between) ':' =
      some (.colon :: .string name :: done, .between) := rfl
  obtain ⟨state, reads, settled⟩ := h (.colon :: .string name :: done)
  refine ⟨state, ?_, by simpa using settled⟩
  rw [List.foldlM_append, foldlM_stringChars]
  simpa [colon] using reads

theorem forall₂_itemChars {items : List Json} (h : ∀ item ∈ items, Lexes item.chars item.lexemes) :
    List.Forall₂ Lexes (itemChars items) (itemLexemes items) := by
  induction items with
  | nil => exact .nil
  | cons item items ih =>
    obtain ⟨first, rest⟩ := List.forall_mem_cons.1 h
    exact .cons first (ih rest)

theorem forall₂_memberChars {members : List (Option String × Json)}
    (h : ∀ m ∈ members, Lexes m.2.chars m.2.lexemes) :
    List.Forall₂ Lexes (memberChars members) (memberLexemes members) := by
  induction members with
  | nil => exact .nil
  | cons m members ih =>
    obtain ⟨first, rest⟩ := List.forall_mem_cons.1 h
    exact .cons (first.member m.1) (ih rest)

/-- A printed value is read as its tokens. -/
theorem IsPlain.lexes {value : Json} (h : value.IsPlain) : Lexes value.chars value.lexemes := by
  induction h with
  | null => exact lexes_of_between fun _ => rfl
  | bool b =>
    cases b
    · exact lexes_of_between fun _ => rfl
    · exact lexes_of_between fun _ => rfl
  | integer n => exact lexes_integer n
  | string text => exact lexes_of_between fun done => foldlM_stringChars text done
  | array items _ ih =>
    refine lexes_of_between fun done => ?_
    have opens : lexStep (done, .between) '[' = some (.openArray :: done, .between) := rfl
    have closes (done : List Token) :
        lexFirst done ']' = some (.closeArray :: done, .between) := rfl
    have inner := foldlM_intercalate (forall₂_itemChars ih)
      (Or.inr (Or.inl rfl)) closes (.openArray :: done)
    simp only [chars, lexemes, List.cons_append, List.foldlM_cons, opens]
    exact inner.trans (by simp)
  | object members _ ih =>
    refine lexes_of_between fun done => ?_
    have opens : lexStep (done, .between) '{' = some (.openObject :: done, .between) := rfl
    have closes (done : List Token) :
        lexFirst done '}' = some (.closeObject :: done, .between) := rfl
    have inner := foldlM_intercalate (forall₂_memberChars ih)
      (Or.inr (Or.inr rfl)) closes (.openObject :: done)
    simp only [chars, lexemes, List.cons_append, List.foldlM_cons, opens]
    exact inner.trans (by simp)

/-- The tokens of a printed value are those it is written with. -/
theorem IsPlain.tokens_render {value : Json} (h : value.IsPlain) :
    tokens value.render = some value.lexemes := by
  obtain ⟨state, reads, settled⟩ := h.lexes []
  have ends := settled.ends
  rw [List.append_nil, List.reverse_reverse] at ends
  simp [tokens, render, String.toList_ofList, reads, ends]

end MipsBackend.Json
