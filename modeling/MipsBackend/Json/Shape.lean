import MipsBackend.Json.Basic

/-!
# Shapes of data in JSON

Numbers have a fixed width.  Records and choices have more than one written form.  A record is an
object, whose members may come in any order and among others that are not asked for, or an array of
exactly its fields.  A choice is the name of an alternative, or an object whose only member names
it.
-/

namespace MipsBackend.Json

/-- Reads a number of 32 bits. -/
def uint32? (value : Json) : Option UInt32 := do
  let n ← value.integer?
  if 0 ≤ n ∧ n < 0x100000000 then some (.ofNat n.toNat) else none

/-- Reads a signed number of 32 bits. -/
def int32? (value : Json) : Option Int32 := do
  let n ← value.integer?
  if -0x80000000 ≤ n ∧ n < 0x80000000 then some (.ofInt n) else none

/-- The fields of a record, in the order asked for.  A field that an object leaves out is absent;
one that it has twice makes it no record. -/
def fields? (names : List String) : Json → Option (List (Option Json))
  | array items => if items.length = names.length then some (items.map some) else none
  | object members =>
    if members.all (·.1.isSome) then
      names.mapM fun name =>
        match members.filter (·.1 = some name) with
        | [] => some none
        | [member] => some (some member.2)
        | _ => none
    else none
  | _ => none

/-- A record with all its fields. -/
def record (fields : List (String × Json)) : Json :=
  ofMembers fields

/-- The alternative that was chosen, with what comes with it.  A bare name comes with null. -/
def choice? : Json → Option (String × Json)
  | string (some name) => some (name, null)
  | object [(some name, content)] => some (name, content)
  | _ => none

/-- An alternative without content. -/
def choice (name : String) : Json :=
  text name

/-- An alternative with content. -/
def choiceOf (name : String) (content : Json) : Json :=
  ofMembers [(name, content)]

/-- Reads an optional field; one that was left out is absent. -/
def optionalField {α : Type} (read : Json → Option α) (field : Option Json) :
    Option (Option α) :=
  optional read (field.getD null)

/-- Writes an optional field. -/
def ofOption {α : Type} (write : α → Json) : Option α → Json
  | some a => write a
  | none => null

/-- Writes a list. -/
def ofList {α : Type} (write : α → Json) (items : List α) : Json :=
  array (items.map write)

end MipsBackend.Json
