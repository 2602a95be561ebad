import MipsBackend.Fault

/-!
# Following identifiers

Looking a node up fails if its position lies outside the arena.
-/

namespace MipsBackend

/-- The node at a position of an arena. -/
def lookup {α : Type} {sort : NodeSort} (arena : Array α) (id : NodeId sort) : Except Fault α :=
  match arena[id.toNat]? with
  | some node => .ok node
  | none => .error (.indexOutOfBounds arena.size id.toNat)

theorem lookup_eq_ok_iff {α : Type} {sort : NodeSort} {arena : Array α} {id : NodeId sort}
    {node : α} : lookup arena id = .ok node ↔ arena[id.toNat]? = some node := by
  unfold lookup
  split <;> simp_all

theorem lookup_eq_error_iff {α : Type} {sort : NodeSort} {arena : Array α} {id : NodeId sort}
    {f : Fault} :
    lookup arena id = .error f ↔
      arena.size ≤ id.toNat ∧ f = .indexOutOfBounds arena.size id.toNat := by
  unfold lookup
  split
  · rename_i h
    have := (Array.getElem?_eq_some_iff.1 h).1
    simp
    omega
  · rename_i h
    have := Array.getElem?_eq_none_iff.1 h
    simp [this, eq_comm]

namespace Program

/-- The declaration of a class. -/
def classAt (p : Program) (id : ClassId) : Except Fault ClassDecl :=
  lookup p.classes id

/-- The declaration of a method. -/
def methodAt (p : Program) (id : MethodId) : Except Fault MethodDecl :=
  lookup p.methods id

/-- The declaration of a variable. -/
def varAt (p : Program) (id : VarId) : Except Fault VarDecl :=
  lookup p.vars id

/-- A statement. -/
def stmtAt (p : Program) (id : StmtId) : Except Fault Stmt :=
  lookup p.stmts id

/-- An expression. -/
def exprAt (p : Program) (id : ExprId) : Except Fault Expr :=
  lookup p.exprs id

end Program

end MipsBackend
