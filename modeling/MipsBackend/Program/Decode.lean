import MipsBackend.Json.Parser
import MipsBackend.Json.Shape
import MipsBackend.Program.Basic

/-!
# Reading programs from JSON

Reading accepts every written form of records and choices.  A program may nest arrays and objects
`maxNesting` deep, the outermost included; what stands in a field that is not asked for does not
count.  All of a program has a fixed depth but its types, so these are told how many levels are left
to them.
-/

namespace MipsBackend

/-- How deep a program may nest. -/
def maxNesting : Nat := 127

/-- Reads a position. -/
def NodeId.ofJson? {sort : NodeSort} (value : Json) : Option (NodeId sort) :=
  value.uint32?.map NodeId.mk

/-- Reads a pair of positions, in either order. -/
def Span.ofJson? (value : Json) : Option Span := do
  match ← value.array? with
  | [a, b] => return .ofEnds (← a.uint32?) (← b.uint32?)
  | _ => none

/-- The type of a name that stands alone. -/
def Ty.ofName? : String → Option Ty
  | "Int" => some .int
  | "Bool" => some .bool
  | "Void" => some .void
  | "Null" => some .null
  | _ => none

/-- Reads a type that nests at most `levels` deep. -/
def Ty.ofJson? (levels : Nat) (value : Json) : Option Ty :=
  match value, levels with
  | .string (some name), _ => ofName? name
  | .object [(some "Class", content)], _ + 1 => (NodeId.ofJson? content).map .object
  | .object [(some "Array", content)], levels + 1 => (ofJson? levels content).map .array
  | .object [(some name, .null)], _ + 1 => ofName? name
  | _, _ => none

/-- Reads names with their methods.  Of a repeated name the last method counts. -/
def MethodTable.ofJson? (value : Json) : Option MethodTable := do
  let bindings ← (← value.object?).mapM fun (name, method) => do
    return (← name, ← NodeId.ofJson? method)
  return .ofList bindings

/-- Reads a class declaration. -/
def ClassDecl.ofJson? (value : Json) : Option ClassDecl := do
  let [name, span, superclass, subclasses, instVars, methods] ← value.fields?
    ["name", "span", "super_class", "subclasses", "inst_vars", "methods"] | none
  return {
    name := ← (← name).text?
    span := ← Span.ofJson? (← span)
    superclass := ← Json.optionalField NodeId.ofJson? superclass
    subclasses := ← (← subclasses).list NodeId.ofJson?
    instVars := ← (← instVars).list NodeId.ofJson?
    methods := ← MethodTable.ofJson? (← methods) }

/-- Reads where a method comes from. -/
def MethodOrigin.ofJson? (value : Json) : Option MethodOrigin := do
  match ← value.choice? with
  | ("Runtime", .null) => return .runtime
  | ("User", span) => return .user (← Span.ofJson? span)
  | _ => none

/-- Reads a method declaration. -/
def MethodDecl.ofJson? (value : Json) : Option MethodDecl := do
  let [name, origin, owner, formals, returnType, overridden, body, result] ← value.fields?
    ["name", "origin", "class", "formals", "ret_ty", "super_method", "body", "ret_expr"] | none
  return {
    name := ← (← name).text?
    origin := ← MethodOrigin.ofJson? (← origin)
    owner := ← NodeId.ofJson? (← owner)
    formals := ← (← formals).list NodeId.ofJson?
    returnType := ← Ty.ofJson? (maxNesting - 3) (← returnType)
    overridden := ← Json.optionalField NodeId.ofJson? overridden
    body := ← (← body).list NodeId.ofJson?
    result := ← Json.optionalField NodeId.ofJson? result }

/-- Reads the kind of a variable. -/
def VarKind.ofJson? (value : Json) : Option VarKind := do
  match ← value.choice? with
  | ("InstVar", c) => return .instVar (← NodeId.ofJson? c)
  | ("Formal", m) => return .formal (← NodeId.ofJson? m)
  | ("Local", content) =>
    let [init] ← content.fields? ["init"] | none
    return .localVar (← NodeId.ofJson? (← init))
  | _ => none

/-- Reads a variable declaration. -/
def VarDecl.ofJson? (value : Json) : Option VarDecl := do
  let [name, span, ty, kind] ← value.fields? ["name", "span", "ty", "kind"] | none
  return {
    name := ← (← name).text?
    span := ← Span.ofJson? (← span)
    ty := ← Ty.ofJson? (maxNesting - 3) (← ty)
    kind := ← VarKind.ofJson? (← kind) }

/-- Reads the form of a statement. -/
def StmtKind.ofJson? (value : Json) : Option StmtKind := do
  match ← value.choice? with
  | ("Block", stmts) => return .block (← stmts.list NodeId.ofJson?)
  | ("LocalVar", var) => return .localVar (← NodeId.ofJson? var)
  | ("Call", expr) => return .call (← NodeId.ofJson? expr)
  | ("Assign", .array [target, value]) =>
    return .assign (← NodeId.ofJson? target) (← NodeId.ofJson? value)
  | ("If", .array [cond, thenStmt, elseStmt]) =>
    return .ifElse (← NodeId.ofJson? cond) (← NodeId.ofJson? thenStmt)
      (← Json.optional NodeId.ofJson? elseStmt)
  | ("While", .array [cond, body]) =>
    return .whileLoop (← NodeId.ofJson? cond) (← NodeId.ofJson? body)
  | ("Break", loop) => return .breakFrom (← NodeId.ofJson? loop)
  | _ => none

/-- Reads a statement. -/
def Stmt.ofJson? (value : Json) : Option Stmt := do
  let [span, kind] ← value.fields? ["span", "kind"] | none
  return {
    span := ← Span.ofJson? (← span)
    kind := ← StmtKind.ofJson? (← kind) }

/-- Reads an operator. -/
def BinOp.ofJson? (value : Json) : Option BinOp := do
  match ← value.choice? with
  | (name, .null) => BinOp.ofName? name
  | _ => none

/-- Reads the form of an expression. -/
def ExprKind.ofJson? (value : Json) : Option ExprKind := do
  match ← value.choice? with
  | ("Int", n) => return .int (← n.int32?)
  | ("Str", s) => return .str (← s.text?)
  | ("Bool", b) => return .bool (← b.bool?)
  | ("Null", .null) => return .null
  | ("This", .null) => return .this
  | ("Super", .null) => return .super
  | ("Ident", var) => return .ident (← NodeId.ofJson? var)
  | ("Not", operand) => return .not (← NodeId.ofJson? operand)
  | ("Binary", .array [op, lhs, rhs]) =>
    return .binary (← BinOp.ofJson? op) (← NodeId.ofJson? lhs) (← NodeId.ofJson? rhs)
  | ("ArrayLength", array) => return .arrayLength (← NodeId.ofJson? array)
  | ("Index", .array [array, i]) =>
    return .index (← NodeId.ofJson? array) (← NodeId.ofJson? i)
  | ("Field", .array [object, var]) =>
    return .field (← NodeId.ofJson? object) (← NodeId.ofJson? var)
  | ("InstanceOf", .array [operand, ty]) =>
    return .instanceOf (← NodeId.ofJson? operand) (← Ty.ofJson? (maxNesting - 5) ty)
  | ("Cast", .array [ty, operand]) =>
    return .cast (← Ty.ofJson? (maxNesting - 5) ty) (← NodeId.ofJson? operand)
  | ("New", c) => return .new (← NodeId.ofJson? c)
  | ("NewArray", .array [elem, size]) =>
    return .newArray (← Ty.ofJson? (maxNesting - 5) elem) (← NodeId.ofJson? size)
  | ("Call", .array [receiver, method, args]) =>
    return .call (← NodeId.ofJson? receiver) (← NodeId.ofJson? method)
      (← args.list NodeId.ofJson?)
  | _ => none

/-- Reads an expression. -/
def Expr.ofJson? (value : Json) : Option Expr := do
  let [span, ty, kind] ← value.fields? ["span", "ty", "kind"] | none
  return {
    span := ← Span.ofJson? (← span)
    ty := ← Ty.ofJson? (maxNesting - 3) (← ty)
    kind := ← ExprKind.ofJson? (← kind) }

namespace Program

/-- Reads an arena. -/
def arenaOfJson? {α : Type} (read : Json → Option α) (value : Json) : Option (Array α) := do
  return (← value.list read).toArray

/-- Reads a program. -/
def ofJson? (value : Json) : Option Program := do
  let [classes, methods, vars, stmts, exprs, main, stringClass] ← value.fields?
    ["classes", "methods", "vars", "stmts", "exprs", "main", "string_class"] | none
  return {
    classes := ← arenaOfJson? ClassDecl.ofJson? (← classes)
    methods := ← arenaOfJson? MethodDecl.ofJson? (← methods)
    vars := ← arenaOfJson? VarDecl.ofJson? (← vars)
    stmts := ← arenaOfJson? Stmt.ofJson? (← stmts)
    exprs := ← arenaOfJson? Expr.ofJson? (← exprs)
    main := ← Json.optionalField NodeId.ofJson? main
    stringClass := ← Json.optionalField NodeId.ofJson? stringClass }

/-- Reads the text of a program. -/
def parse (text : String) : Option Program := do
  ofJson? (← Json.parse text)

end Program

end MipsBackend
