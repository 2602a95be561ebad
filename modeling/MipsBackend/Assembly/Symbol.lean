import MipsBackend.Assembly.Basic
import MipsBackend.Program.Lookup

/-!
# Symbols of declarations

The labels that methods and class records are linked under.  Arrays have no class of their own; all
arrays of scalars share one synthetic record and all arrays of references another.
-/

namespace MipsBackend

/-- The record of arrays of scalars, and of string literals if no class was named for them. -/
def scalarArrayRecord : String := "_DataArray"

/-- The record of arrays of references. -/
def referenceArrayRecord : String := "_ObjectArray"

namespace Program

/-- The label of a method's code. -/
def methodLabel (p : Program) (id : MethodId) : Except Fault Label := do
  let decl ← p.methodAt id
  match decl.origin with
  | .runtime => return .runtimeMethod decl.name (← p.classAt decl.owner).name
  | .user _ => return .method id decl.name

/-- The name of the record that values of a type carry. -/
def recordName (p : Program) : Ty → Except Fault String
  | .object c => do return (← p.classAt c).name
  | .array elem => return if elem.isScalar then scalarArrayRecord else referenceArrayRecord
  | ty => defect (.noClassRecord ty)

/-- The labels between which the record of every value of a type lies. -/
def classRange (p : Program) (ty : Ty) : Except Fault (Label × Label) := do
  let name ← p.recordName ty
  return (.classStart name, .classEnd name)

end Program

end MipsBackend
