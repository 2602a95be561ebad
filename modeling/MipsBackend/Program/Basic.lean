import MipsBackend.Span
import MipsBackend.Ty

/-!
# Resolved programs

A program is a set of arenas: classes, methods, variables, statements and expressions.  Nodes refer
to each other by position, names are already resolved and every expression carries its static type.
Nothing here says that the positions are in range; whoever follows one finds out.
-/

namespace MipsBackend

/-- The methods that a class declares, by name and in declaration order. -/
structure MethodTable where
  /-- Names with their methods, first declared first. -/
  entries : List (String × MethodId)
  /-- No name occurs twice. -/
  nodup : (entries.map Prod.fst).Nodup := by simp
deriving DecidableEq

namespace MethodTable

/-- The table of a class without methods. -/
def empty : MethodTable :=
  ⟨[], by simp⟩

instance : Inhabited MethodTable :=
  ⟨empty⟩

/-- The declared names, in order. -/
def names (t : MethodTable) : List String :=
  t.entries.map Prod.fst

/-- The declared methods, in order. -/
def methods (t : MethodTable) : List MethodId :=
  t.entries.map Prod.snd

/-- The method declared under a name. -/
def find? (t : MethodTable) (name : String) : Option MethodId :=
  t.entries.lookup name

/-- Replaces the method of `name` where it stands, or puts a new entry at the end. -/
def put (name : String) (m : MethodId) : List (String × MethodId) → List (String × MethodId)
  | [] => [(name, m)]
  | entry :: rest => if entry.1 = name then (name, m) :: rest else entry :: put name m rest

/-- Setting an entry adds its name at the end if it is new, and changes no name otherwise. -/
theorem map_fst_put (name : String) (m : MethodId) (entries : List (String × MethodId)) :
    (put name m entries).map Prod.fst =
      if name ∈ entries.map Prod.fst then entries.map Prod.fst
      else entries.map Prod.fst ++ [name] := by
  induction entries with
  | nil => simp [put]
  | cons entry rest ih =>
    by_cases h : entry.1 = name
    · simp [put, h]
    · have h' : name ≠ entry.1 := fun e => h e.symm
      by_cases mem : name ∈ rest.map Prod.fst
      · simp only [put, h, ↓reduceIte, List.map_cons, ih, mem, List.mem_cons, or_true]
      · simp only [put, h, ↓reduceIte, List.map_cons, ih, mem, List.mem_cons, h', or_self,
          List.cons_append]

theorem nodup_put {name : String} {m : MethodId} {entries : List (String × MethodId)}
    (h : (entries.map Prod.fst).Nodup) : ((put name m entries).map Prod.fst).Nodup := by
  rw [map_fst_put]
  split
  · exact h
  · rename_i mem
    exact List.nodup_append.2 ⟨h, by simp, fun a ha b hb e => by
      simp only [List.mem_singleton] at hb
      exact mem (hb ▸ e ▸ ha)⟩

/-- The table with `name` bound to `m`: in its old place if it had one, else at the end. -/
def insert (t : MethodTable) (name : String) (m : MethodId) : MethodTable :=
  ⟨put name m t.entries, nodup_put t.nodup⟩

theorem lookup_entry_cons (other : String) (entry : String × MethodId)
    (rest : List (String × MethodId)) :
    List.lookup other (entry :: rest) =
      if other = entry.1 then some entry.2 else rest.lookup other := by
  obtain ⟨name, m⟩ := entry
  by_cases same : other = name
  · simp [same]
  · have differs : (other == name) = false := by simp [same]
    simp [List.lookup_cons, differs, same]

theorem lookup_put (name other : String) (m : MethodId) (entries : List (String × MethodId)) :
    (put name m entries).lookup other =
      if other = name then some m else entries.lookup other := by
  induction entries with
  | nil => exact lookup_entry_cons other (name, m) []
  | cons entry rest ih =>
    by_cases first : entry.1 = name
    · rw [put, if_pos first, lookup_entry_cons, lookup_entry_cons, first]
      split <;> rfl
    · rw [put, if_neg first, lookup_entry_cons, lookup_entry_cons, ih]
      by_cases same : other = entry.1
      · simp [same, first]
      · simp [same]

/-- A new name goes behind all others. -/
theorem put_fresh {name : String} {entries : List (String × MethodId)}
    (h : name ∉ entries.map Prod.fst) (m : MethodId) :
    put name m entries = entries ++ [(name, m)] := by
  induction entries with
  | nil => rfl
  | cons entry rest ih =>
    rw [List.map_cons, List.mem_cons, not_or] at h
    rw [put, if_neg (Ne.symm h.1), ih h.2, List.cons_append]

theorem entries_insert {t : MethodTable} {name : String} (h : name ∉ t.names) (m : MethodId) :
    (t.insert name m).entries = t.entries ++ [(name, m)] :=
  put_fresh h m

theorem find?_eq_none_iff {t : MethodTable} {name : String} :
    t.find? name = none ↔ name ∉ t.names := by
  rw [find?, List.lookup_eq_none_iff, names, List.mem_map]
  constructor
  · rintro h ⟨entry, hentry, rfl⟩
    simpa using h entry hentry
  · intro h entry hentry
    rw [bne_iff_ne]
    rintro rfl
    exact h ⟨entry, hentry, rfl⟩

theorem names_insert (t : MethodTable) (name : String) (m : MethodId) :
    (t.insert name m).names = if name ∈ t.names then t.names else t.names ++ [name] :=
  map_fst_put name m t.entries

theorem find?_insert (t : MethodTable) (name other : String) (m : MethodId) :
    (t.insert name m).find? other = if other = name then some m else t.find? other :=
  lookup_put name other m t.entries

/-- The table of a list of bindings, in which later ones win but keep the first one's place. -/
def ofList (bindings : List (String × MethodId)) : MethodTable :=
  bindings.foldl (fun t b => t.insert b.1 b.2) empty

end MethodTable

/-- A class declaration. -/
structure ClassDecl where
  name : String
  span : Span
  /-- The direct superclass; only a root has none. -/
  superclass : Option ClassId
  /-- The direct subclasses, in declaration order. -/
  subclasses : List ClassId
  /-- The instance variables that the class adds to the inherited ones. -/
  instVars : List VarId
  methods : MethodTable
deriving DecidableEq

instance : Inhabited ClassDecl :=
  ⟨⟨"", default, none, [], [], default⟩⟩

/-- Where the code of a method comes from. -/
inductive MethodOrigin where
  /-- The runtime library, which has no source text. -/
  | runtime
  /-- The program itself, at a place in its source. -/
  | user (span : Span)
deriving DecidableEq

namespace MethodOrigin

/-- The method is part of the program. -/
def isUser : MethodOrigin → Bool
  | user _ => true
  | runtime => false

/-- The method belongs to the runtime library. -/
def isRuntime (origin : MethodOrigin) : Bool :=
  !origin.isUser

end MethodOrigin

/-- A method declaration.  A method of the program that is not void ends by returning the value
of `result`; runtime methods have neither body nor result. -/
structure MethodDecl where
  name : String
  origin : MethodOrigin
  /-- The declaring class. -/
  owner : ClassId
  /-- The formal parameters, in order. -/
  formals : List VarId
  returnType : Ty
  /-- The nearest method that this one overrides. -/
  overridden : Option MethodId
  body : List StmtId
  result : Option ExprId
deriving DecidableEq

namespace MethodDecl

/-- The method returns nothing. -/
def isVoid (m : MethodDecl) : Bool :=
  m.returnType.isVoid

/-- The source of the method, or the dummy span for a runtime method. -/
def span (m : MethodDecl) : Span :=
  match m.origin with
  | .user s => s
  | .runtime => .dummy

end MethodDecl

/-- What a variable is. -/
inductive VarKind where
  /-- An instance variable of a class. -/
  | instVar (class_ : ClassId)
  /-- A formal parameter of a method. -/
  | formal (method : MethodId)
  /-- A local variable with its initial value. -/
  | localVar (init : ExprId)
deriving DecidableEq

/-- A variable declaration. -/
structure VarDecl where
  name : String
  span : Span
  ty : Ty
  kind : VarKind
deriving DecidableEq

/-- The forms of statement. -/
inductive StmtKind where
  /-- A sequence with a scope of its own. -/
  | block (stmts : List StmtId)
  /-- The declaration of a local variable; its initial value stands in the declaration. -/
  | localVar (var : VarId)
  /-- A call whose result is dropped. -/
  | call (expr : ExprId)
  /-- An assignment to a variable, field or element. -/
  | assign (target value : ExprId)
  /-- A choice, with or without an alternative. -/
  | ifElse (cond : ExprId) (thenStmt : StmtId) (elseStmt : Option StmtId)
  /-- A loop that tests its condition before each turn. -/
  | whileLoop (cond : ExprId) (body : StmtId)
  /-- A jump behind an enclosing loop. -/
  | breakFrom (loop : StmtId)
deriving DecidableEq

/-- A statement. -/
structure Stmt where
  span : Span
  kind : StmtKind
deriving DecidableEq

/-- The binary operators. -/
inductive BinOp where
  | add
  | sub
  | mul
  | div
  | rem
  | eq
  | gt
  | lt
  | and
  | or
deriving DecidableEq

namespace BinOp

/-- The operator as a programmer writes it. -/
def text : BinOp → String
  | add => "+"
  | sub => "-"
  | mul => "*"
  | div => "/"
  | rem => "%"
  | eq => "=="
  | gt => ">"
  | lt => "<"
  | and => "&&"
  | or => "||"

/-- The operator's name. -/
def name : BinOp → String
  | add => "Add"
  | sub => "Sub"
  | mul => "Mul"
  | div => "Div"
  | rem => "Rem"
  | eq => "Eq"
  | gt => "Gt"
  | lt => "Lt"
  | and => "And"
  | or => "Or"

/-- All operators, in order. -/
def all : List BinOp :=
  [add, sub, mul, div, rem, eq, gt, lt, and, or]

/-- The operator of a name. -/
def ofName? (name : String) : Option BinOp :=
  all.find? fun op => op.name = name

/-- Whether the left operand can decide the result alone. -/
def isShortCircuit : BinOp → Bool
  | and | or => true
  | _ => false

/-- The type of the result. -/
def resultType : BinOp → Ty
  | add | sub | mul | div | rem => .int
  | eq | gt | lt | and | or => .bool

end BinOp

/-- The forms of expression. -/
inductive ExprKind where
  | int (value : Int32)
  | str (value : String)
  | bool (value : Bool)
  | null
  /-- The receiver of the running method. -/
  | this
  /-- The receiver, where a call skips the overriding method. -/
  | super
  /-- A local variable, a formal parameter or an instance variable of the receiver. -/
  | ident (var : VarId)
  | not (operand : ExprId)
  | binary (op : BinOp) (lhs rhs : ExprId)
  | arrayLength (array : ExprId)
  | index (array index : ExprId)
  | field (object : ExprId) (field : VarId)
  | instanceOf (operand : ExprId) (ty : Ty)
  | cast (ty : Ty) (operand : ExprId)
  | new (class_ : ClassId)
  | newArray (elem : Ty) (size : ExprId)
  | call (receiver : ExprId) (method : MethodId) (args : List ExprId)
deriving DecidableEq

/-- An expression with its static type. -/
structure Expr where
  span : Span
  ty : Ty
  kind : ExprKind
deriving DecidableEq

/-- A whole program. -/
structure Program where
  classes : Array ClassDecl := #[]
  methods : Array MethodDecl := #[]
  vars : Array VarDecl := #[]
  stmts : Array Stmt := #[]
  exprs : Array Expr := #[]
  /-- The statement that the entry point runs. -/
  main : Option StmtId := none
  /-- The class that string literals belong to. -/
  stringClass : Option ClassId := none
deriving DecidableEq

instance : Inhabited Program :=
  ⟨{}⟩

end MipsBackend
