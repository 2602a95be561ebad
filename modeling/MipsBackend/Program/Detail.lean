import MipsBackend.Program.Basic
import MipsBackend.Text.Quoted

/-!
# Nodes spelled out

Diagnostics about a node that stands where it must not spell it out by its constructors: the name of
its form with its parts in parentheses, children by position only.
-/

namespace MipsBackend

/-- A form with its parts, as in `Not(ExprId(1))`. -/
def detailForm (form : String) (parts : List String) : String :=
  form ++ "(" ++ String.intercalate ", " parts ++ ")"

/-- The variable kind spelled out. -/
def VarKind.detail : VarKind → String
  | .instVar c => detailForm "InstVar" [c.detail]
  | .formal m => detailForm "Formal" [m.detail]
  | .localVar e => "Local \x7b init: " ++ e.detail ++ " \x7d"

/-- The expression form spelled out. -/
def ExprKind.detail : ExprKind → String
  | .int n => detailForm "Int" [toString n.toInt]
  | .str s => detailForm "Str" [Text.quoted s]
  | .bool b => detailForm "Bool" [toString b]
  | .null => "Null"
  | .this => "This"
  | .super => "Super"
  | .ident v => detailForm "Ident" [v.detail]
  | .not e => detailForm "Not" [e.detail]
  | .binary op l r => detailForm "Binary" [op.name, l.detail, r.detail]
  | .arrayLength e => detailForm "ArrayLength" [e.detail]
  | .index a i => detailForm "Index" [a.detail, i.detail]
  | .field o f => detailForm "Field" [o.detail, f.detail]
  | .instanceOf e ty => detailForm "InstanceOf" [e.detail, ty.detail]
  | .cast ty e => detailForm "Cast" [ty.detail, e.detail]
  | .new c => detailForm "New" [c.detail]
  | .newArray ty e => detailForm "NewArray" [ty.detail, e.detail]
  | .call r m args =>
    detailForm "Call"
      [r.detail, m.detail, "[" ++ String.intercalate ", " (args.map NodeId.detail) ++ "]"]

end MipsBackend
