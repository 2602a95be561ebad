import MipsBackend.Json.Printer
import MipsBackend.Json.Shape
import MipsBackend.Program.Basic

/-!
# Writing programs as JSON

Arenas are arrays, identifiers are their positions and spans are pairs.  All fields of a declaration
are written, absent ones as null.
-/

namespace MipsBackend

/-- The position. -/
def NodeId.toJson {sort : NodeSort} (id : NodeId sort) : Json :=
  .integer id.toNat

/-- The pair of the two ends. -/
def Span.toJson (s : Span) : Json :=
  .array [.integer s.lo.toNat, .integer s.hi.toNat]

/-- The type, by constructors. -/
def Ty.toJson : Ty → Json
  | .int => .choice "Int"
  | .bool => .choice "Bool"
  | .void => .choice "Void"
  | .null => .choice "Null"
  | .object c => .choiceOf "Class" c.toJson
  | .array elem => .choiceOf "Array" elem.toJson

/-- The names with their methods, in order. -/
def MethodTable.toJson (t : MethodTable) : Json :=
  .ofMembers (t.entries.map fun entry => (entry.1, entry.2.toJson))

/-- The class declaration. -/
def ClassDecl.toJson (c : ClassDecl) : Json := .record [
  ("name", .text c.name),
  ("span", c.span.toJson),
  ("super_class", .ofOption NodeId.toJson c.superclass),
  ("subclasses", .ofList NodeId.toJson c.subclasses),
  ("inst_vars", .ofList NodeId.toJson c.instVars),
  ("methods", c.methods.toJson)]

/-- The runtime library, or the place in the source. -/
def MethodOrigin.toJson : MethodOrigin → Json
  | .runtime => .choice "Runtime"
  | .user span => .choiceOf "User" span.toJson

/-- The method declaration. -/
def MethodDecl.toJson (m : MethodDecl) : Json := .record [
  ("name", .text m.name),
  ("origin", m.origin.toJson),
  ("class", m.owner.toJson),
  ("formals", .ofList NodeId.toJson m.formals),
  ("ret_ty", m.returnType.toJson),
  ("super_method", .ofOption NodeId.toJson m.overridden),
  ("body", .ofList NodeId.toJson m.body),
  ("ret_expr", .ofOption NodeId.toJson m.result)]

/-- The kind of variable, with its owner or initial value. -/
def VarKind.toJson : VarKind → Json
  | .instVar c => .choiceOf "InstVar" c.toJson
  | .formal m => .choiceOf "Formal" m.toJson
  | .localVar init => .choiceOf "Local" (.record [("init", init.toJson)])

/-- The variable declaration. -/
def VarDecl.toJson (v : VarDecl) : Json := .record [
  ("name", .text v.name),
  ("span", v.span.toJson),
  ("ty", v.ty.toJson),
  ("kind", v.kind.toJson)]

/-- The form of statement with its parts. -/
def StmtKind.toJson : StmtKind → Json
  | .block stmts => .choiceOf "Block" (.ofList NodeId.toJson stmts)
  | .localVar var => .choiceOf "LocalVar" var.toJson
  | .call expr => .choiceOf "Call" expr.toJson
  | .assign target value => .choiceOf "Assign" (.array [target.toJson, value.toJson])
  | .ifElse cond thenStmt elseStmt =>
    .choiceOf "If" (.array [cond.toJson, thenStmt.toJson, .ofOption NodeId.toJson elseStmt])
  | .whileLoop cond body => .choiceOf "While" (.array [cond.toJson, body.toJson])
  | .breakFrom loop => .choiceOf "Break" loop.toJson

/-- The statement. -/
def Stmt.toJson (s : Stmt) : Json := .record [
  ("span", s.span.toJson),
  ("kind", s.kind.toJson)]

/-- The operator's name. -/
def BinOp.toJson (op : BinOp) : Json :=
  .choice op.name

/-- The form of expression with its parts. -/
def ExprKind.toJson : ExprKind → Json
  | .int value => .choiceOf "Int" (.integer value.toInt)
  | .str value => .choiceOf "Str" (.text value)
  | .bool value => .choiceOf "Bool" (.bool value)
  | .null => .choice "Null"
  | .this => .choice "This"
  | .super => .choice "Super"
  | .ident var => .choiceOf "Ident" var.toJson
  | .not operand => .choiceOf "Not" operand.toJson
  | .binary op lhs rhs => .choiceOf "Binary" (.array [op.toJson, lhs.toJson, rhs.toJson])
  | .arrayLength array => .choiceOf "ArrayLength" array.toJson
  | .index array i => .choiceOf "Index" (.array [array.toJson, i.toJson])
  | .field object var => .choiceOf "Field" (.array [object.toJson, var.toJson])
  | .instanceOf operand ty => .choiceOf "InstanceOf" (.array [operand.toJson, ty.toJson])
  | .cast ty operand => .choiceOf "Cast" (.array [ty.toJson, operand.toJson])
  | .new c => .choiceOf "New" c.toJson
  | .newArray elem size => .choiceOf "NewArray" (.array [elem.toJson, size.toJson])
  | .call receiver method args =>
    .choiceOf "Call"
      (.array [receiver.toJson, method.toJson, .ofList NodeId.toJson args])

/-- The expression. -/
def Expr.toJson (e : Expr) : Json := .record [
  ("span", e.span.toJson),
  ("ty", e.ty.toJson),
  ("kind", e.kind.toJson)]

namespace Program

/-- The program. -/
def toJson (p : Program) : Json := .record [
  ("classes", .ofList ClassDecl.toJson p.classes.toList),
  ("methods", .ofList MethodDecl.toJson p.methods.toList),
  ("vars", .ofList VarDecl.toJson p.vars.toList),
  ("stmts", .ofList Stmt.toJson p.stmts.toList),
  ("exprs", .ofList Expr.toJson p.exprs.toList),
  ("main", .ofOption NodeId.toJson p.main),
  ("string_class", .ofOption NodeId.toJson p.stringClass)]

/-- The text of a program. -/
def render (p : Program) : String :=
  p.toJson.render

end Program

end MipsBackend
