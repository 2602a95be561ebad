import MipsBackend.ExprTree.Basic

/-!
# Statement trees

A statement with its parts in place, unfolded as far as a pass follows it, as for expressions.  A
declaration holds its initial value; if the variable it names is not local, the declaration is a
broken leaf.

Induction on trees goes by `StmtTree.induct`, which gives the hypothesis for every statement of a
block.
-/

namespace MipsBackend

/-- What every statement has: its position and source. -/
structure StmtInfo where
  id : StmtId
  span : Span
deriving DecidableEq

/-- A statement with its parts in place. -/
inductive StmtTree where
  | broken (id : StmtId) (fault : Fault)
  | block (info : StmtInfo) (stmts : List (Unit → StmtTree))
  | localVar (info : StmtInfo) (var : VarId) (init : ExprTree)
  | call (info : StmtInfo) (expr : ExprTree)
  | assign (info : StmtInfo) (target value : ExprTree)
  | ifThen (info : StmtInfo) (cond : ExprTree) (thenStmt : Unit → StmtTree)
  | ifElse (info : StmtInfo) (cond : ExprTree) (thenStmt elseStmt : Unit → StmtTree)
  | whileLoop (info : StmtInfo) (cond : ExprTree) (body : Unit → StmtTree)
  | breakFrom (info : StmtInfo) (loop : StmtId)

namespace StmtTree

/-- Structural induction, with the hypothesis for every statement of a block. -/
@[induction_eliminator]
theorem induct {motive : StmtTree → Prop}
    (broken : ∀ id fault, motive (.broken id fault))
    (block : ∀ info stmts, (∀ s ∈ stmts, motive (s ())) → motive (.block info stmts))
    (localVar : ∀ info var init, motive (.localVar info var init))
    (call : ∀ info expr, motive (.call info expr))
    (assign : ∀ info target value, motive (.assign info target value))
    (ifThen : ∀ info cond thenStmt, motive (thenStmt ()) → motive (.ifThen info cond thenStmt))
    (ifElse : ∀ info cond thenStmt elseStmt, motive (thenStmt ()) → motive (elseStmt ()) →
      motive (.ifElse info cond thenStmt elseStmt))
    (whileLoop : ∀ info cond body, motive (body ()) → motive (.whileLoop info cond body))
    (breakFrom : ∀ info loop, motive (.breakFrom info loop)) :
    ∀ s, motive s :=
  StmtTree.rec (motive_1 := motive) (motive_2 := fun stmts => ∀ s ∈ stmts, motive (s ()))
    broken block localVar call assign (fun _ _ _ h => ifThen _ _ _ (h ()))
    (fun _ _ _ _ h h' => ifElse _ _ _ _ (h ()) (h' ()))
    (fun _ _ _ h => whileLoop _ _ _ (h ())) breakFrom
    (by simp) (fun _ _ h hs => by simpa using ⟨h (), hs⟩)

/-- The position of the statement. -/
def id : StmtTree → StmtId
  | broken id _ => id
  | block info _ | localVar info _ _ | call info _ | assign info _ _ | ifThen info _ _
  | ifElse info _ _ _ | whileLoop info _ _ | breakFrom info _ => info.id

/-- The source of the statement; a broken leaf has none. -/
def span : StmtTree → Span
  | broken _ _ => .dummy
  | block info _ | localVar info _ _ | call info _ | assign info _ _ | ifThen info _ _
  | ifElse info _ _ _ | whileLoop info _ _ | breakFrom info _ => info.span

end StmtTree

namespace Program

/-- The initial value of the variable that a declaration statement names. -/
def localInit (p : Program) (var : VarId) : Except Fault ExprId := do
  let decl ← p.varAt var
  match decl.kind with
  | .localVar init => return init
  | kind => defect (.notLocal decl.name kind)

/-- Unfolds a statement to a depth of `bound`. -/
def unfoldStmt (p : Program) (bound : Nat) (id : StmtId) : StmtTree :=
  match p.stmtAt id with
  | .error fault => .broken id fault
  | .ok s =>
    match bound with
    | 0 => .broken id .cyclic
    | bound + 1 =>
      let info := ⟨id, s.span⟩
      let go := fun part (_ : Unit) => unfoldStmt p bound part
      match s.kind with
      | .block stmts => .block info (stmts.map go)
      | .localVar var =>
        match p.localInit var with
        | .ok init => .localVar info var (p.exprTree init)
        | .error fault => .broken id fault
      | .call expr => .call info (p.exprTree expr)
      | .assign target value => .assign info (p.exprTree target) (p.exprTree value)
      | .ifElse cond thenStmt none => .ifThen info (p.exprTree cond) (go thenStmt)
      | .ifElse cond thenStmt (some elseStmt) =>
        .ifElse info (p.exprTree cond) (go thenStmt) (go elseStmt)
      | .whileLoop cond body => .whileLoop info (p.exprTree cond) (go body)
      | .breakFrom loop => .breakFrom info loop

@[simp] theorem id_unfoldStmt (p : Program) (bound : Nat) (id : StmtId) :
    (p.unfoldStmt bound id).id = id := by
  unfold unfoldStmt
  split
  · rfl
  · split
    · rfl
    · dsimp only
      split
      case h_2 var _ => cases p.localInit var <;> rfl
      all_goals rfl

/-- A statement with its parts in place.  No statement is deeper than there are any. -/
def stmtTree (p : Program) (id : StmtId) : StmtTree :=
  p.unfoldStmt p.stmts.size id

end Program

end MipsBackend
