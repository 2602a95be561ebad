import MipsBackend.Json.Token

/-!
# Reading JSON

The parser takes tokens one by one and holds the arrays and objects that are still open in a list,
so there is no limit to how deep a value may nest.
-/

namespace MipsBackend.Json

/-- An array or object of which the part before the present place is known, last item first. -/
inductive Context where
  | item (before : List Json)
  | member (before : List (Option String × Json)) (name : Option String)

/-- What the parser expects next, with the open arrays and objects around it, innermost first. -/
inductive ParseState where
  /-- A value. -/
  | value (outer : List Context)
  /-- A first item or the end of an array. -/
  | firstItem (outer : List Context)
  /-- A first member or the end of an object. -/
  | firstMember (outer : List Context)
  /-- The name of a further member. -/
  | name (before : List (Option String × Json)) (outer : List Context)
  /-- The colon after a name. -/
  | colon (before : List (Option String × Json)) (name : Option String) (outer : List Context)
  /-- A comma or the end of an array. -/
  | afterItem (items : List Json) (outer : List Context)
  /-- A comma or the end of an object. -/
  | afterMember (members : List (Option String × Json)) (outer : List Context)
  /-- Nothing more. -/
  | done (value : Json)

namespace ParseState

/-- The state after a complete value. -/
def plug (v : Json) : List Context → ParseState
  | [] => done v
  | .item before :: outer => afterItem (v :: before) outer
  | .member before key :: outer => afterMember ((key, v) :: before) outer

/-- Reads the first token of a value. -/
def readValue (outer : List Context) : Token → Option ParseState
  | .openArray => some (firstItem outer)
  | .openObject => some (firstMember outer)
  | .atom v => some (plug v outer)
  | .string text => some (plug (.string text) outer)
  | .closeArray | .closeObject | .comma | .colon => none

/-- Reads a token. -/
def step : ParseState → Token → Option ParseState
  | value outer, token => readValue outer token
  | firstItem outer, .closeArray => some (plug (.array []) outer)
  | firstItem outer, token => readValue (.item [] :: outer) token
  | firstMember outer, .closeObject => some (plug (.object []) outer)
  | firstMember outer, .string text => some (colon [] text outer)
  | name before outer, .string text => some (colon before text outer)
  | colon before key outer, .colon => some (value (.member before key :: outer))
  | afterItem items outer, .comma => some (value (.item items :: outer))
  | afterItem items outer, .closeArray => some (plug (.array items.reverse) outer)
  | afterMember members outer, .comma => some (name members outer)
  | afterMember members outer, .closeObject => some (plug (.object members.reverse) outer)
  | _, _ => none

end ParseState

/-- The value that a text consists of. -/
def parse (text : String) : Option Json := do
  match ← (← tokens text).foldlM ParseState.step (.value []) with
  | .done value => return value
  | _ => none

end MipsBackend.Json
