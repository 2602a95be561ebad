import MipsBackend.Json.Parser
import MipsBackend.Proofs.Json.Lexing

/-!
# Reading back a printed value

The parser takes the tokens of a value to the value, inside any arrays and objects that are still
open around it.  With the lexer this gives the round trip of plain values, whose nesting has no
bound.
-/

namespace MipsBackend.Json

/-- Tokens that the parser takes for a value wherever one may stand. -/
def Parses (ts : List Token) (value : Json) : Prop :=
  ∀ outer, ts.foldlM ParseState.step (.value outer) = some (.plug value outer)

/-- The first token of a value closes no array, so items are read the same at the front of one. -/
theorem foldlM_firstItem (item : Json) (items : List Json) (rest : List Token)
    (outer : List Context) :
    (List.intercalate [Token.comma] (item.lexemes :: itemLexemes items) ++ rest).foldlM
        ParseState.step (.firstItem outer) =
      (List.intercalate [Token.comma] (item.lexemes :: itemLexemes items) ++ rest).foldlM
        ParseState.step (.value (.item [] :: outer)) := by
  cases item <;> cases items <;> rfl

/-- Values with commas between them, up to the end of their array. -/
theorem foldlM_items {item : Json} {items : List Json}
    (h : ∀ v ∈ item :: items, Parses v.lexemes v) (before : List Json) (outer : List Context) :
    (List.intercalate [Token.comma] (item.lexemes :: itemLexemes items) ++
        [Token.closeArray]).foldlM ParseState.step (.value (.item before :: outer)) =
      some (.plug (.array (before.reverse ++ item :: items)) outer) := by
  obtain ⟨first, rest⟩ := List.forall_mem_cons.1 h
  have reads := first (.item before :: outer)
  induction items generalizing item before with
  | nil =>
    have closes : ParseState.step (.plug item (.item before :: outer)) .closeArray =
        some (.plug (.array (item :: before).reverse) outer) := rfl
    rw [itemLexemes, List.intercalate_singleton, List.foldlM_append, reads]
    simp [closes]
  | cons second items ih =>
    have comma : ParseState.step (.plug item (.item before :: outer)) .comma =
        some (.value (.item (item :: before) :: outer)) := rfl
    obtain ⟨next, others⟩ := List.forall_mem_cons.1 rest
    rw [itemLexemes, List.intercalate_cons_cons, List.append_assoc, List.append_assoc,
      List.foldlM_append, reads]
    simpa [comma] using ih rest (item :: before) next others (next _)

/-- Members with commas between them, up to the end of their object. -/
theorem foldlM_members {m : Option String × Json} {members : List (Option String × Json)}
    (h : ∀ v ∈ m :: members, Parses v.2.lexemes v.2) (before : List (Option String × Json))
    (outer : List Context) :
    (List.intercalate [Token.comma] ((.string m.1 :: .colon :: m.2.lexemes) ::
        memberLexemes members) ++ [Token.closeObject]).foldlM ParseState.step (.name before outer) =
      some (.plug (.object (before.reverse ++ m :: members)) outer) := by
  obtain ⟨first, rest⟩ := List.forall_mem_cons.1 h
  have named : ParseState.step (.name before outer) (.string m.1) =
      some (.colon before m.1 outer) := rfl
  have colon : ParseState.step (.colon before m.1 outer) .colon =
      some (.value (.member before m.1 :: outer)) := rfl
  have reads := first (.member before m.1 :: outer)
  induction members generalizing m before with
  | nil =>
    have closes : ParseState.step (.plug m.2 (.member before m.1 :: outer)) .closeObject =
        some (.plug (.object (m :: before).reverse) outer) := rfl
    rw [memberLexemes, List.intercalate_singleton, List.foldlM_append]
    simp [named, colon, reads, closes]
  | cons second members ih =>
    have comma : ParseState.step (.plug m.2 (.member before m.1 :: outer)) .comma =
        some (.name (m :: before) outer) := rfl
    obtain ⟨next, others⟩ := List.forall_mem_cons.1 rest
    rw [memberLexemes, List.intercalate_cons_cons, List.append_assoc, List.append_assoc,
      List.foldlM_append]
    simpa [named, colon, reads, comma] using
      ih rest (m :: before) next others rfl rfl (next _)

/-- The tokens of a plain value are read as that value. -/
theorem IsPlain.parses {value : Json} (h : value.IsPlain) : Parses value.lexemes value := by
  induction h with
  | null => exact fun _ => rfl
  | bool b => exact fun _ => rfl
  | integer n => exact fun _ => rfl
  | string text => exact fun _ => rfl
  | array items _ ih =>
    intro outer
    cases items with
    | nil => rfl
    | cons item items =>
      have opens : ParseState.step (.value outer) .openArray = some (.firstItem outer) := rfl
      have inner := foldlM_items ih [] outer
      rw [← foldlM_firstItem] at inner
      simpa [lexemes, itemLexemes, opens] using inner
  | object members _ ih =>
    intro outer
    cases members with
    | nil => rfl
    | cons m members =>
      have written : (Json.object (m :: members)).lexemes =
          .openObject :: List.intercalate [Token.comma] ((.string m.1 :: .colon :: m.2.lexemes) ::
            memberLexemes members) ++ [.closeObject] := rfl
      have opens (rest : List Token) :
          (.openObject :: .string m.1 :: rest).foldlM ParseState.step (.value outer) =
            (.string m.1 :: rest).foldlM ParseState.step (.name [] outer) := rfl
      have inner := foldlM_members ih [] outer
      rw [written]
      cases members with
      | nil => exact (opens _).trans inner
      | cons second members => exact (opens _).trans inner

/-- What is printed of a plain value is read as that value. -/
theorem IsPlain.parse_render {value : Json} (h : value.IsPlain) :
    parse value.render = some value := by
  simp [parse, h.tokens_render, h.parses [], ParseState.plug]

end MipsBackend.Json
