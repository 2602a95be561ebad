import MipsBackend.Program.Hierarchy

/-!
# Building programs

A builder makes a program node by node.  It keeps the redundant links in step, that is subclass
lists, method tables, formal parameters and overridden methods, and it finds the static type of
every expression.  Every node gets a span of its own, one byte long, in the order of creation; only
methods of the runtime library have none.
-/

namespace MipsBackend

/-- A program being built. -/
structure Builder where
  program : Program := {}
  /-- The start of the next span. -/
  position : UInt32 := 0

/-- A step of building. -/
abbrev Build := StateT Builder (Except Fault)

/-- The identifier that the next node of an arena gets. -/
def nextId {α : Type} {sort : NodeSort} (arena : Array α) : Except Fault (NodeId sort) :=
  if arena.size < 0x100000000 then .ok (.ofNat arena.size) else .error .arenaFull

/-- The arena with a node changed. -/
def update {α : Type} {sort : NodeSort} (arena : Array α) (id : NodeId sort) (f : α → α) :
    Except Fault (Array α) := do
  let node ← lookup arena id
  return arena.setIfInBounds id.toNat (f node)

/-- The next node's identifier is the number of nodes before it. -/
theorem toNat_of_nextId {α : Type} {sort : NodeSort} {arena : Array α} {id : NodeId sort}
    (h : nextId arena = .ok id) : id.toNat = arena.size := by
  unfold nextId at h
  split at h
  · rename_i room
    cases h
    exact NodeId.toNat_ofNat room
  · cases h

theorem update_eq_ok_iff {α : Type} {sort : NodeSort} {arena arena' : Array α} {id : NodeId sort}
    {f : α → α} :
    update arena id f = .ok arena' ↔
      ∃ node, arena[id.toNat]? = some node ∧ arena' = arena.setIfInBounds id.toNat (f node) := by
  simp only [update, bind_eq_ok_iff, lookup_eq_ok_iff, pure_eq_ok_iff]

namespace Build

/-- The program so far. -/
def program : Build Program := do
  return (← get).program

/-- Changes the program. -/
def setProgram (p : Program) : Build Unit :=
  modify fun b => { b with program := p }

/-- A span that no other node has. -/
def freshSpan : Build Span := do
  let b ← get
  if b.position.toNat + 1 < 0x100000000 then
    set { b with position := b.position + 1 }
    return .ofEnds b.position (b.position + 1)
  else
    throw (.overflow .add)

/-- Adds a variable. -/
def addVar (name : String) (ty : Ty) (kind : VarKind) : Build VarId := do
  let span ← freshSpan
  let p ← program
  let id ← nextId p.vars
  setProgram { p with vars := p.vars.push { name, span, ty, kind } }
  return id

/-- Adds an expression. -/
def addExpr (ty : Ty) (kind : ExprKind) : Build ExprId := do
  let span ← freshSpan
  let p ← program
  let id ← nextId p.exprs
  setProgram { p with exprs := p.exprs.push { span, ty, kind } }
  return id

/-- Adds a statement. -/
def addStmt (kind : StmtKind) : Build StmtId := do
  let span ← freshSpan
  let p ← program
  let id ← nextId p.stmts
  setProgram { p with stmts := p.stmts.push { span, kind } }
  return id

/-! ## Declarations -/

/-- Makes a class the direct superclass of another, which must have none yet. -/
def setSuperclass (c superclass : ClassId) : Build Unit := do
  let p ← program
  let decl ← p.classAt c
  if decl.superclass.isSome then
    throw (.superclassTwice decl.name)
  let classes ← update p.classes c fun d => { d with superclass := some superclass }
  let classes ← update classes superclass fun d => { d with subclasses := d.subclasses ++ [c] }
  setProgram { p with classes }

/-- Declares a class. -/
def declareClass (name : String) (superclass : Option ClassId) : Build ClassId := do
  let span ← freshSpan
  let p ← program
  let id ← nextId p.classes
  setProgram { p with
    classes := p.classes.push
      { name, span, superclass := none, subclasses := [], instVars := [], methods := .empty } }
  if let some s := superclass then
    setSuperclass id s
  return id

/-- Names the class of string literals. -/
def setStringClass (c : ClassId) : Build Unit := do
  setProgram { ← program with stringClass := some c }

/-- Declares an instance variable. -/
def declareField (c : ClassId) (name : String) (ty : Ty) : Build VarId := do
  let id ← addVar name ty (.instVar c)
  let p ← program
  let classes ← update p.classes c fun d => { d with instVars := d.instVars ++ [id] }
  setProgram { p with classes }
  return id

/-- Adds a formal parameter to a method. -/
def declareFormal (m : MethodId) (name : String) (ty : Ty) : Build Unit := do
  let id ← addVar name ty (.formal m)
  let p ← program
  let methods ← update p.methods m fun d => { d with formals := d.formals ++ [id] }
  setProgram { p with methods }

/-- Adds a method to the table of its class. -/
def enterMethod (c : ClassId) (name : String) (id : MethodId) : Build Unit := do
  let p ← program
  let decl ← p.classAt c
  if (decl.methods.find? name).isSome then
    throw (.methodTwice name)
  let classes ← update p.classes c fun d => { d with methods := d.methods.insert name id }
  setProgram { p with classes }

/-- Declares a method.  It overrides what its class inherits under its name at this time. -/
def declareMethod (origin : MethodOrigin) (c : ClassId) (name : String)
    (formals : List (String × Ty)) (returnType : Ty) : Build MethodId := do
  let p ← program
  let overridden ← p.inheritedMethod c name
  let id ← nextId p.methods
  setProgram { p with
    methods := p.methods.push
      { name, origin, owner := c, formals := [], returnType, overridden, body := [],
        result := none } }
  for (formal, ty) in formals do
    declareFormal id formal ty
  enterMethod c name id
  return id

/-- Declares a method of the program. -/
def userMethod (c : ClassId) (name : String) (formals : List (String × Ty)) (returnType : Ty) :
    Build MethodId := do
  declareMethod (.user (← freshSpan)) c name formals returnType

/-- Declares a method of the runtime library. -/
def runtimeMethod (c : ClassId) (name : String) (formals : List (String × Ty))
    (returnType : Ty) : Build MethodId :=
  declareMethod .runtime c name formals returnType

/-- A formal parameter of a method, counted from zero. -/
def formal (m : MethodId) (i : Nat) : Build VarId := do
  let formals := (← (← program).methodAt m).formals
  match formals[i]? with
  | some v => return v
  | none => throw (.indexOutOfBounds formals.length i)

/-- Gives a method its body, and its result exactly if it is not void. -/
def setBody (m : MethodId) (body : List StmtId) (result : Option ExprId) : Build Unit := do
  let p ← program
  let decl ← p.methodAt m
  if decl.origin.isRuntime then
    throw (.bodyOfRuntimeMethod decl.name)
  if decl.isVoid ≠ result.isNone then
    throw (.resultUnexpected decl.name decl.isVoid)
  let methods ← update p.methods m fun d => { d with body, result }
  setProgram { p with methods }

/-- Sets the statement that the entry point runs. -/
def setMain (s : StmtId) : Build Unit := do
  setProgram { ← program with main := some s }

/-! ## Expressions -/

def int (value : Int32) : Build ExprId :=
  addExpr .int (.int value)

def bool (value : Bool) : Build ExprId :=
  addExpr .bool (.bool value)

/-- A string literal.  It belongs to the class named for strings, or else to the root class. -/
def str (value : String) : Build ExprId := do
  let p ← program
  let class_ ←
    match p.stringClass with
    | some c => pure (some c)
    | none => p.rootClass
  addExpr (class_.elim .null .object) (.str value)

def null : Build ExprId :=
  addExpr .null .null

/-- The receiver, in a method of a class. -/
def this (c : ClassId) : Build ExprId :=
  addExpr (.object c) .this

/-- The receiver as an instance of the superclass, in a method of a class. -/
def super (c : ClassId) : Build ExprId := do
  let decl ← (← program).classAt c
  addExpr (.object (decl.superclass.getD c)) .super

def ident (v : VarId) : Build ExprId := do
  addExpr (← (← program).varAt v).ty (.ident v)

def not (operand : ExprId) : Build ExprId :=
  addExpr .bool (.not operand)

def binary (op : BinOp) (lhs rhs : ExprId) : Build ExprId :=
  addExpr op.resultType (.binary op lhs rhs)

def arrayLength (array : ExprId) : Build ExprId :=
  addExpr .int (.arrayLength array)

/-- An element of an array; its type is the array's element type. -/
def index (array i : ExprId) : Build ExprId := do
  match (← (← program).exprAt array).ty with
  | .array elem => addExpr elem (.index array i)
  | ty => throw (.indexingNonArray ty)

def field (object : ExprId) (v : VarId) : Build ExprId := do
  addExpr (← (← program).varAt v).ty (.field object v)

def instanceOf (operand : ExprId) (ty : Ty) : Build ExprId :=
  addExpr .bool (.instanceOf operand ty)

def cast (ty : Ty) (operand : ExprId) : Build ExprId :=
  addExpr ty (.cast ty operand)

def new (c : ClassId) : Build ExprId :=
  addExpr (.object c) (.new c)

def newArray (elem : Ty) (size : ExprId) : Build ExprId :=
  addExpr (.array elem) (.newArray elem size)

/-- A call; its type is the method's return type. -/
def call (receiver : ExprId) (m : MethodId) (args : List ExprId) : Build ExprId := do
  addExpr (← (← program).methodAt m).returnType (.call receiver m args)

/-! ## Statements -/

def block (stmts : List StmtId) : Build StmtId :=
  addStmt (.block stmts)

/-- Declares a local variable by a statement. -/
def localVar (name : String) (ty : Ty) (init : ExprId) : Build (StmtId × VarId) := do
  let v ← addVar name ty (.localVar init)
  return (← addStmt (.localVar v), v)

/-- A call as a statement; nothing else can stand alone. -/
def callStmt (e : ExprId) : Build StmtId := do
  match (← (← program).exprAt e).kind with
  | .call .. => addStmt (.call e)
  | _ => throw .notACall

def assign (target value : ExprId) : Build StmtId :=
  addStmt (.assign target value)

def ifElse (cond : ExprId) (thenStmt : StmtId) (elseStmt : Option StmtId) : Build StmtId :=
  addStmt (.ifElse cond thenStmt elseStmt)

/-- Reserves the place of a loop, so that its body can refer to it. -/
def openLoop : Build StmtId :=
  addStmt (.block [])

/-- Puts a loop into its place. -/
def closeLoop (loop : StmtId) (cond : ExprId) (body : StmtId) : Build Unit := do
  let p ← program
  let stmts ← update p.stmts loop fun s => { s with kind := .whileLoop cond body }
  setProgram { p with stmts }

/-- A loop whose body is built with the loop's identifier at hand. -/
def whileLoop (cond : ExprId) (body : StmtId → Build StmtId) : Build StmtId := do
  let loop ← openLoop
  closeLoop loop cond (← body loop)
  return loop

def breakFrom (loop : StmtId) : Build StmtId :=
  addStmt (.breakFrom loop)

end Build

end MipsBackend
