/-!
# JSON values

A value keeps the order of its members and all repetitions, since readers may care about both.
Numbers are told apart by how they are written: plain integers have a value, all others only their
text.  A string may hold a surrogate escape without its partner; such a string is well-formed JSON
but no text, which is `none`.
-/

namespace MipsBackend

/-- A JSON value. -/
inductive Json where
  | null
  | bool (b : Bool)
  /-- A number without fraction and exponent, other than `-0`. -/
  | integer (n : Int)
  /-- Any other number, as written. -/
  | real (text : String)
  | string (text : Option String)
  | array (items : List Json)
  | object (members : List (Option String × Json))

namespace Json

instance : Inhabited Json :=
  ⟨null⟩

/-- Structural induction, with the hypothesis for every item and every member. -/
@[induction_eliminator]
theorem induct {motive : Json → Prop}
    (null : motive .null)
    (bool : ∀ b, motive (.bool b))
    (integer : ∀ n, motive (.integer n))
    (real : ∀ text, motive (.real text))
    (string : ∀ text, motive (.string text))
    (array : ∀ items, (∀ item ∈ items, motive item) → motive (.array items))
    (object : ∀ members, (∀ m ∈ members, motive m.2) → motive (.object members)) :
    ∀ value, motive value :=
  Json.rec (motive_1 := motive) (motive_2 := fun items => ∀ item ∈ items, motive item)
    (motive_3 := fun members => ∀ m ∈ members, motive m.2) (motive_4 := fun m => motive m.2)
    null bool integer real string array object
    (by simp) (fun _ _ h hs => by simpa using ⟨h, hs⟩)
    (by simp) (fun _ _ h hs => by
      intro m mem
      rcases List.mem_cons.1 mem with rfl | mem
      · exact h
      · exact hs m mem)
    (fun _ _ h => h)

/-- A string of a text. -/
def text (s : String) : Json :=
  string (some s)

/-- An object with members of the given names. -/
def ofMembers (members : List (String × Json)) : Json :=
  object (members.map fun m => (some m.1, m.2))

/-- The text of a string. -/
def text? : Json → Option String
  | string s => s
  | _ => none

/-- The value of an integer. -/
def integer? : Json → Option Int
  | integer n => some n
  | _ => none

/-- The truth value. -/
def bool? : Json → Option Bool
  | bool b => some b
  | _ => none

/-- The items of an array. -/
def array? : Json → Option (List Json)
  | array items => some items
  | _ => none

/-- The members of an object. -/
def object? : Json → Option (List (Option String × Json))
  | object members => some members
  | _ => none

/-- Reads a null as absent and anything else by `read`. -/
def optional {α : Type} (read : Json → Option α) : Json → Option (Option α)
  | null => some none
  | value => (read value).map some

/-- Reads all items of an array. -/
def list {α : Type} (read : Json → Option α) (value : Json) : Option (List α) := do
  (← value.array?).mapM read

end Json

end MipsBackend
