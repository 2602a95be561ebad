import Mathlib.Data.List.Basic
import Mathlib.Data.List.TakeWhile
import MipsBackend.Assembly.Printer
import MipsBackend.Proofs.Assembly.Operands

/-!
# The text of labels

A label is printed as a word that tells its kind, an underscore and what it is made for.  Positions
are printed in decimal, so the text tells a node.  Names stand in the text as they are, and there
one pair of kinds meets: the start of a class named `END_` and a name is printed like the end of the
class of that name (`Label.text_inj`).

The runtime library's symbols have no prefix.  Its routines are never printed like a label of the
program, but a method of its classes is, if its name begins with one of a few words
(`Label.firstWord_of_text_eq`).
-/

namespace MipsBackend

/-- The text up to the first underscore. -/
def firstWord (text : String) : String :=
  .ofList (text.toList.takeWhile (· ≠ '_'))

theorem firstWord_append (text rest : String) :
    firstWord (text ++ "_" ++ rest) = firstWord text := by
  have hrest : ("_" ++ rest).toList = '_' :: rest.toList := by simp
  rw [firstWord, String.append_assoc, String.toList_append, hrest, List.takeWhile_append]
  split
  · rename_i hall
    rw [List.takeWhile_cons_of_neg (by simp), List.append_nil, firstWord,
      (List.takeWhile_prefix _).eq_of_length hall]
  · rfl

theorem firstWord_of_notMem {text : String} (h : '_' ∉ text.toList) : firstWord text = text := by
  have hall : text.toList.takeWhile (· ≠ '_') = text.toList :=
    List.takeWhile_eq_self_iff.2 fun c hc => by
      simp only [decide_eq_true_eq]
      rintro rfl
      exact h hc
  rw [firstWord, hall, String.ofList_toList]

/-- What is cut at its first underscore is cut in one way. -/
theorem append_underscore_inj {word word' rest rest' : String} (h : '_' ∉ word.toList)
    (h' : '_' ∉ word'.toList) (heq : word ++ "_" ++ rest = word' ++ "_" ++ rest') :
    word = word' ∧ rest = rest' := by
  have hword : word = word' := by
    rw [← firstWord_of_notMem h, ← firstWord_append word rest, heq, firstWord_append,
      firstWord_of_notMem h']
  subst hword
  exact ⟨rfl, (String.append_right_inj _).1 heq⟩

/-- The name begins as identifiers do, that is with a character other than digits and the
underscore. -/
def startsLikeIdentifier (name : String) : Bool :=
  name.toList.head?.any fun c => !c.isDigit && c != '_'

namespace NodeId

variable {sort : NodeSort}

theorem toList_text (id : NodeId sort) : id.text.toList = Nat.toDigits 10 id.toNat :=
  Nat.toList_repr

/-- The text of an identifier tells the identifier. -/
theorem text_inj {a b : NodeId sort} : a.text = b.text ↔ a = b := by
  refine ⟨fun h => toNat_inj.1 ?_, fun h => h ▸ rfl⟩
  have hdigits : Nat.toDigits 10 a.toNat = Nat.toDigits 10 b.toNat := by
    rw [← toList_text, ← toList_text, h]
  rw [← @Nat.ofDigitChars_ten_toDigits a.toNat, hdigits, Nat.ofDigitChars_ten_toDigits]

theorem underscore_notMem_text (id : NodeId sort) : '_' ∉ id.text.toList := by
  rw [toList_text]
  exact Nat.underscore_not_in_toDigits

/-- No identifier is a number. -/
theorem startsLikeIdentifier_text (id : NodeId sort) : startsLikeIdentifier id.text = false := by
  rw [startsLikeIdentifier, toList_text]
  cases hdigits : Nat.toDigits 10 id.toNat with
  | nil => rfl
  | cons digit digits =>
    have hdigit : digit.isDigit :=
      Nat.isDigit_of_mem_toDigits (by decide) (by decide) (hdigits ▸ List.mem_cons_self)
    simp [hdigit]

end NodeId

namespace Label

variable {l l' : Label}

/-- The first word of the text of a label. -/
def word : Label → String
  | main => "main"
  | classStart _ | classEnd _ => "CLASS"
  | method _ _ => "fcn"
  | runtimeMethod name _ => firstWord name
  | strLit _ => "strLit"
  | skip _ => "skip"
  | ifElse _ | ifDone _ => "if"
  | whileTop _ | whileEnter _ => "while"
  | breakTarget _ => "break"
  | runtime routine => firstWord routine.text

/-- What stands behind the first word and its underscore. -/
def rest : Label → String
  | main | runtime _ => ""
  | classStart name => name
  | classEnd name => "END_" ++ name
  | method id name => id.text ++ "_" ++ name
  | runtimeMethod _ class_ => class_
  | strLit e | skip e => e.text
  | ifElse s => "else_" ++ s.text
  | ifDone s => "done_" ++ s.text
  | whileTop s => "top_" ++ s.text
  | whileEnter s => "enter_" ++ s.text
  | breakTarget s => "target_" ++ s.text

theorem text_eq (h : l.isRuntime = false) (hmain : l ≠ .main) :
    l.text = l.word ++ "_" ++ l.rest := by
  cases l with
  | main => exact absurd rfl hmain
  | runtimeMethod | runtime => cases h
  | _ => simp [text, word, rest, ← String.append_assoc]

/-- The words that the labels of a program begin with. -/
def words : List String :=
  ["main", "CLASS", "fcn", "strLit", "skip", "if", "while", "break"]

theorem word_mem_words (h : l.isRuntime = false) : l.word ∈ words := by
  cases l with
  | runtimeMethod | runtime => cases h
  | _ => simp [word, words]

theorem underscore_notMem_words : ∀ word ∈ words, '_' ∉ word.toList := by
  decide

theorem underscore_notMem_word (h : l.isRuntime = false) : '_' ∉ l.word.toList :=
  underscore_notMem_words _ (word_mem_words h)

theorem firstWord_text (h : l.isRuntime = false) : firstWord l.text = l.word := by
  by_cases hmain : l = .main
  · rw [hmain]
    exact firstWord_of_notMem (by decide)
  · rw [text_eq h hmain, firstWord_append, firstWord_of_notMem (underscore_notMem_word h)]

/-- A label with an underscore in its text is not that of the entry point. -/
theorem text_ne_main (text rest : String) : text ++ "_" ++ rest ≠ Label.main.text := by
  intro h
  have hmem : '_' ∈ (text ++ "_" ++ rest).toList := by simp
  rw [h] at hmem
  exact absurd hmem (by decide)

theorem word_eq_and_rest_eq (h : l.isRuntime = false) (h' : l'.isRuntime = false)
    (hmain : l ≠ .main) (hmain' : l' ≠ .main) (heq : l.text = l'.text) :
    l.word = l'.word ∧ l.rest = l'.rest := by
  rw [text_eq h hmain, text_eq h' hmain'] at heq
  exact append_underscore_inj (underscore_notMem_word h) (underscore_notMem_word h') heq

/-- A class whose name begins with `END_` starts with the label that the class of the rest of that
name ends with. -/
def Clashes (l l' : Label) : Prop :=
  ∃ name, l = .classStart ("END_" ++ name) ∧ l' = .classEnd name

theorem text_eq_main_iff (h : l.isRuntime = false) : l.text = Label.main.text ↔ l = .main := by
  refine ⟨fun heq => ?_, fun heq => by rw [heq]⟩
  by_contra hmain
  rw [text_eq h hmain] at heq
  exact text_ne_main _ _ heq

/-- Other than that, different labels of a program have different texts. -/
theorem text_inj (h : l.isRuntime = false) (h' : l'.isRuntime = false) (heq : l.text = l'.text) :
    l = l' ∨ l.Clashes l' ∨ l'.Clashes l := by
  by_cases hmain : l = .main
  · rw [hmain, eq_comm, text_eq_main_iff h'] at heq
    exact Or.inl (hmain.trans heq.symm)
  by_cases hmain' : l' = .main
  · rw [hmain', text_eq_main_iff h] at heq
    exact absurd heq hmain
  obtain ⟨hword, hrest⟩ := word_eq_and_rest_eq h h' hmain hmain' heq
  have hsame : ∀ {sort : NodeSort} {a b : NodeId sort} {head : String},
      head ++ a.text = head ++ b.text → a = b := fun h =>
    NodeId.text_inj.1 ((String.append_right_inj _).1 h)
  cases l with
  | main => exact absurd rfl hmain
  | runtimeMethod | runtime => cases h
  | classStart name =>
    cases l' with
    | runtimeMethod | runtime => cases h'
    | classStart name' => exact Or.inl (congrArg _ hrest)
    | classEnd name' => exact Or.inr (Or.inl ⟨name', congrArg _ hrest, rfl⟩)
    | _ => simp [word] at hword
  | classEnd name =>
    cases l' with
    | runtimeMethod | runtime => cases h'
    | classStart name' => exact Or.inr (Or.inr ⟨name, congrArg _ hrest.symm, rfl⟩)
    | classEnd name' => exact Or.inl (congrArg _ ((String.append_right_inj _).1 hrest))
    | _ => simp [word] at hword
  | method id name =>
    cases l' with
    | runtimeMethod | runtime => cases h'
    | method id' name' =>
      obtain ⟨hid, hname⟩ := append_underscore_inj id.underscore_notMem_text
        id'.underscore_notMem_text hrest
      exact Or.inl (by rw [NodeId.text_inj.1 hid, hname])
    | _ => simp [word] at hword
  | strLit e =>
    cases l' with
    | runtimeMethod | runtime => cases h'
    | strLit e' => exact Or.inl (congrArg _ (NodeId.text_inj.1 hrest))
    | _ => simp [word] at hword
  | skip e =>
    cases l' with
    | runtimeMethod | runtime => cases h'
    | skip e' => exact Or.inl (congrArg _ (NodeId.text_inj.1 hrest))
    | _ => simp [word] at hword
  | ifElse s =>
    cases l' with
    | runtimeMethod | runtime => cases h'
    | ifElse s' => exact Or.inl (congrArg _ (hsame hrest))
    | ifDone s' => exact absurd (congrArg String.toList hrest) (by simp [rest])
    | _ => simp [word] at hword
  | ifDone s =>
    cases l' with
    | runtimeMethod | runtime => cases h'
    | ifElse s' => exact absurd (congrArg String.toList hrest) (by simp [rest])
    | ifDone s' => exact Or.inl (congrArg _ (hsame hrest))
    | _ => simp [word] at hword
  | whileTop s =>
    cases l' with
    | runtimeMethod | runtime => cases h'
    | whileTop s' => exact Or.inl (congrArg _ (hsame hrest))
    | whileEnter s' => exact absurd (congrArg String.toList hrest) (by simp [rest])
    | _ => simp [word] at hword
  | whileEnter s =>
    cases l' with
    | runtimeMethod | runtime => cases h'
    | whileTop s' => exact absurd (congrArg String.toList hrest) (by simp [rest])
    | whileEnter s' => exact Or.inl (congrArg _ (hsame hrest))
    | _ => simp [word] at hword
  | breakTarget s =>
    cases l' with
    | runtimeMethod | runtime => cases h'
    | breakTarget s' => exact Or.inl (congrArg _ (hsame hrest))
    | _ => simp [word] at hword

/-! ## Symbols of the runtime library -/

/-- No label of a program is printed like a routine. -/
theorem text_ne_routine (h : l.isRuntime = false) (routine : Routine) : l.text ≠ routine.text := by
  intro heq
  have hword : l.word = firstWord routine.text := by rw [← firstWord_text h, heq]
  have hmem := word_mem_words h
  rw [hword] at hmem
  exact absurd hmem (by cases routine <;> decide)

/-- The words that the name of a runtime method begins with if the method is printed like a label of
the program. -/
def reservedWords : List String :=
  ["CLASS", "fcn", "if", "while", "break"]

theorem firstWord_of_text_eq {name class_ : String} (h : l.isRuntime = false)
    (hclass : startsLikeIdentifier class_) (heq : l.text = (runtimeMethod name class_).text) :
    firstWord name ∈ reservedWords := by
  have hmain : l ≠ .main := by
    rintro rfl
    exact text_ne_main _ _ heq.symm
  -- Behind the word for a literal or a short-circuit operation there are only digits.
  have hdigits : ∀ {sort : NodeSort} {id : NodeId sort}, l.rest ≠ id.text := by
    intro sort id hrest
    rw [text_eq h hmain, hrest] at heq
    have hlists : l.word.toList ++ '_' :: id.text.toList = name.toList ++ '_' :: class_.toList := by
      simpa [text] using congrArg String.toList heq
    obtain ⟨_, _, hclassDigits⟩ := (List.append_cons_inj_of_notMem
      (underscore_notMem_word h) id.underscore_notMem_text).1 hlists
    rw [← String.toList_inj.1 hclassDigits, id.startsLikeIdentifier_text] at hclass
    cases hclass
  have hword : firstWord name = l.word := by
    rw [← firstWord_text h, heq]
    exact (firstWord_append name class_).symm
  rw [hword]
  cases l with
  | main => exact absurd rfl hmain
  | runtimeMethod | runtime => cases h
  | strLit e | skip e => exact absurd rfl hdigits
  | _ => simp [word, reservedWords]

end Label

end MipsBackend
