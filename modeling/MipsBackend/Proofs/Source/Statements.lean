import MipsBackend.Proofs.Source.Expressions

/-!
# The meaning of structured control flow

Statements over scalar expressions declare and assign variables, choose, repeat and leave loops.
`Executes` is their meaning, big-step: what a statement makes of a store and how it completes.  A
statement that breaks out of a loop ends all statements around it up to that loop.  A division by
zero ends everything.  An execution that goes on for ever has no derivation.

`StmtTree.isScoped` is the scoping rule of all statements: variables are named in their block,
behind the declaration, and loops are left from inside.
-/

namespace MipsBackend

/-! ## Executions -/

/-- How the execution of a statement ends. -/
inductive Completion where
  | normal
  /-- By a jump behind an enclosing loop. -/
  | broke (loop : StmtId)
  /-- By a division by zero. -/
  | trapped
deriving DecidableEq

/-- What is executed: one statement, or all of some in order. -/
inductive Task where
  | one (s : StmtTree)
  | all (ss : List (Unit → StmtTree))

/-- The values of variables after one of them was set. -/
def Store.set (σ : Store) (x : VarId) (v : Value) : Store :=
  Function.update σ x v

/-- Executing a task in a store leads to another store and completes in some way. -/
inductive Executes : Store → Task → Store → Completion → Prop where
  | block {σ σ' info stmts c} :
    Executes σ (.all stmts) σ' c → Executes σ (.one (.block info stmts)) σ' c
  | nil {σ} : Executes σ (.all []) σ .normal
  | cons {σ σ₁ σ' s ss c} : Executes σ (.one (s ())) σ₁ .normal → Executes σ₁ (.all ss) σ' c →
    Executes σ (.all (s :: ss)) σ' c
  /-- What does not complete normally ends the statements around it. -/
  | abrupt {σ σ' s ss c} : Executes σ (.one (s ())) σ' c → c ≠ .normal →
    Executes σ (.all (s :: ss)) σ' c
  | localVar {σ info x init v} : init.eval σ = .ok v →
    Executes σ (.one (.localVar info x init)) (σ.set x v) .normal
  | localVarTrap {σ info x init} : init.eval σ = .error .divisionByZero →
    Executes σ (.one (.localVar info x init)) σ .trapped
  | assign {σ info target x value v} : value.eval σ = .ok v →
    Executes σ (.one (.assign info (.ident target x) value)) (σ.set x v) .normal
  | assignTrap {σ info target x value} : value.eval σ = .error .divisionByZero →
    Executes σ (.one (.assign info (.ident target x) value)) σ .trapped
  | ifThen {σ σ' info cond thenStmt c} : cond.eval σ = .ok (.bool true) →
    Executes σ (.one (thenStmt ())) σ' c → Executes σ (.one (.ifThen info cond thenStmt)) σ' c
  | ifThenSkip {σ info cond thenStmt} : cond.eval σ = .ok (.bool false) →
    Executes σ (.one (.ifThen info cond thenStmt)) σ .normal
  | ifThenTrap {σ info cond thenStmt} : cond.eval σ = .error .divisionByZero →
    Executes σ (.one (.ifThen info cond thenStmt)) σ .trapped
  | ifElseThen {σ σ' info cond thenStmt elseStmt c} : cond.eval σ = .ok (.bool true) →
    Executes σ (.one (thenStmt ())) σ' c →
    Executes σ (.one (.ifElse info cond thenStmt elseStmt)) σ' c
  | ifElseElse {σ σ' info cond thenStmt elseStmt c} : cond.eval σ = .ok (.bool false) →
    Executes σ (.one (elseStmt ())) σ' c →
    Executes σ (.one (.ifElse info cond thenStmt elseStmt)) σ' c
  | ifElseTrap {σ info cond thenStmt elseStmt} : cond.eval σ = .error .divisionByZero →
    Executes σ (.one (.ifElse info cond thenStmt elseStmt)) σ .trapped
  | whileDone {σ info cond body} : cond.eval σ = .ok (.bool false) →
    Executes σ (.one (.whileLoop info cond body)) σ .normal
  | whileTurn {σ σ₁ σ' info cond body c} : cond.eval σ = .ok (.bool true) →
    Executes σ (.one (body ())) σ₁ .normal →
    Executes σ₁ (.one (.whileLoop info cond body)) σ' c →
    Executes σ (.one (.whileLoop info cond body)) σ' c
  | whileBreak {σ σ' info cond body} : cond.eval σ = .ok (.bool true) →
    Executes σ (.one (body ())) σ' (.broke info.id) →
    Executes σ (.one (.whileLoop info cond body)) σ' .normal
  /-- A break out of a loop further out, or a trap. -/
  | whileAbrupt {σ σ' info cond body c} : cond.eval σ = .ok (.bool true) →
    Executes σ (.one (body ())) σ' c → c ≠ .normal → c ≠ .broke info.id →
    Executes σ (.one (.whileLoop info cond body)) σ' c
  | whileTrap {σ info cond body} : cond.eval σ = .error .divisionByZero →
    Executes σ (.one (.whileLoop info cond body)) σ .trapped
  | breakFrom {σ info loop} : Executes σ (.one (.breakFrom info loop)) σ (.broke loop)

/-! ## Scoping -/

/-- The expression names variables in scope only. -/
def ExprTree.isScoped (scope : List VarId) (e : ExprTree) : Bool :=
  e.reads.all (· ∈ scope)

theorem ExprTree.isScoped_of_imp {scope scope' : List VarId} {e : ExprTree} (h : e.isScoped scope)
    (himp : ∀ x ∈ e.reads, x ∈ scope → x ∈ scope') : e.isScoped scope' := by
  refine List.all_eq_true.2 fun x hx => ?_
  have hmem := List.all_eq_true.1 h x hx
  simpa using himp x hx (by simpa using hmem)

theorem ExprTree.reads_subset {scope : List VarId} {e : ExprTree} (h : e.isScoped scope) :
    e.reads ⊆ scope := by
  intro x hx
  simpa using List.all_eq_true.1 h x hx

namespace StmtTree

/-- The variables in scope behind a statement. -/
def scopeAfter (scope : List VarId) : StmtTree → List VarId
  | .localVar _ var _ => var :: scope
  | _ => scope

mutual

/-- With the given variables in scope, and inside the given loops, the statement names variables in
scope and leaves loops around it. -/
def isScoped (loops : List StmtId) (scope : List VarId) : StmtTree → Bool
  | .broken _ _ => true
  | .block _ stmts => isScopedAll loops scope stmts
  | .localVar _ _ init => init.isScoped scope
  | .call _ expr => expr.isScoped scope
  | .assign _ target value => target.isScoped scope && value.isScoped scope
  | .ifThen _ cond thenStmt => cond.isScoped scope && (thenStmt ()).isScoped loops scope
  | .ifElse _ cond thenStmt elseStmt =>
    cond.isScoped scope && (thenStmt ()).isScoped loops scope
      && (elseStmt ()).isScoped loops scope
  | .whileLoop info cond body =>
    cond.isScoped scope && (body ()).isScoped (info.id :: loops) scope
  | .breakFrom _ loop => loop ∈ loops

/-- Some statements in order are well-scoped. -/
def isScopedAll (loops : List StmtId) (scope : List VarId) : List (Unit → StmtTree) → Bool
  | [] => true
  | s :: ss =>
    (s ()).isScoped loops scope && isScopedAll loops ((s ()).scopeAfter scope) ss

end

/-- The variables in scope behind some statements, where their block goes on. -/
def scopeAfterAll (scope : List VarId) (ss : List (Unit → StmtTree)) : List VarId :=
  ss.foldl (fun scope s => (s ()).scopeAfter scope) scope

mutual

/-- The variables that the expressions of a statement name. -/
def reads : StmtTree → List VarId
  | .broken _ _ | .breakFrom _ _ => []
  | .block _ stmts => readsAll stmts
  | .localVar _ _ e | .call _ e => e.reads
  | .assign _ target value => target.reads ++ value.reads
  | .ifThen _ cond thenStmt => cond.reads ++ (thenStmt ()).reads
  | .ifElse _ cond thenStmt elseStmt =>
    cond.reads ++ (thenStmt ()).reads ++ (elseStmt ()).reads
  | .whileLoop _ cond body => cond.reads ++ (body ()).reads

/-- The variables that the expressions of some statements name. -/
def readsAll : List (Unit → StmtTree) → List VarId
  | [] => []
  | s :: ss => (s ()).reads ++ readsAll ss

end

theorem scopeAfter_of_imp {s : StmtTree} {x : VarId} {scope scope' : List VarId}
    (himp : x ∈ scope → x ∈ scope') (h : x ∈ s.scopeAfter scope) : x ∈ s.scopeAfter scope' := by
  cases s with
  | localVar info var init =>
    rw [scopeAfter, List.mem_cons] at h ⊢
    exact h.imp_right himp
  | _ => exact himp h

theorem scopeAfterAll_of_imp {ss : List (Unit → StmtTree)} {x : VarId} {scope scope' : List VarId}
    (himp : x ∈ scope → x ∈ scope') (h : x ∈ scopeAfterAll scope ss) :
    x ∈ scopeAfterAll scope' ss := by
  induction ss generalizing scope scope' with
  | nil => exact himp h
  | cons s ss ih => exact ih (fun hmem => scopeAfter_of_imp himp hmem) h

/-- Only the variables in scope that are named count. -/
theorem isScoped_of_imp {s : StmtTree} {loops : List StmtId} {scope scope' : List VarId}
    (h : s.isScoped loops scope) (himp : ∀ x ∈ s.reads, x ∈ scope → x ∈ scope') :
    s.isScoped loops scope' := by
  induction s generalizing loops scope scope' with
  | broken id fault => rfl
  | block info stmts ih =>
    rw [isScoped] at h ⊢
    rw [reads] at himp
    clear info
    induction stmts generalizing scope scope' with
    | nil => rfl
    | cons s ss ihs =>
      rw [isScopedAll, Bool.and_eq_true] at h ⊢
      rw [readsAll, List.forall_mem_append] at himp
      refine ⟨ih s List.mem_cons_self h.1 himp.1, ?_⟩
      exact ihs (fun s hs => ih s (List.mem_cons_of_mem _ hs)) h.2
        fun x hx => scopeAfter_of_imp (himp.2 x hx)
  | localVar info x init => exact ExprTree.isScoped_of_imp h himp
  | call info expr => exact ExprTree.isScoped_of_imp h himp
  | assign info target value =>
    rw [reads, List.forall_mem_append] at himp
    rw [isScoped, Bool.and_eq_true] at h ⊢
    exact ⟨ExprTree.isScoped_of_imp h.1 himp.1, ExprTree.isScoped_of_imp h.2 himp.2⟩
  | ifThen info cond thenStmt ih =>
    rw [reads, List.forall_mem_append] at himp
    rw [isScoped, Bool.and_eq_true] at h ⊢
    exact ⟨ExprTree.isScoped_of_imp h.1 himp.1, ih h.2 himp.2⟩
  | ifElse info cond thenStmt elseStmt ihThen ihElse =>
    rw [reads, List.forall_mem_append, List.forall_mem_append] at himp
    rw [isScoped, Bool.and_eq_true, Bool.and_eq_true] at h ⊢
    exact ⟨⟨ExprTree.isScoped_of_imp h.1.1 himp.1.1, ihThen h.1.2 himp.1.2⟩, ihElse h.2 himp.2⟩
  | whileLoop info cond body ih =>
    rw [reads, List.forall_mem_append] at himp
    rw [isScoped, Bool.and_eq_true] at h ⊢
    exact ⟨ExprTree.isScoped_of_imp h.1 himp.1, ih h.2 himp.2⟩
  | breakFrom info loop => exact h

theorem isScopedAll_of_imp {ss : List (Unit → StmtTree)} {loops : List StmtId}
    {scope scope' : List VarId} (h : isScopedAll loops scope ss)
    (himp : ∀ x ∈ readsAll ss, x ∈ scope → x ∈ scope') : isScopedAll loops scope' ss :=
  isScoped_of_imp (s := .block ⟨⟨0⟩, .dummy⟩ ss) h himp

/-! ## Types -/

mutual

/-- The statement is built from blocks, local variables, assignments to local variables and formal
parameters, choices, loops and ways out of them, and every type in it is right. -/
def isScalarTyped (p : Program) : StmtTree → Bool
  | .block _ stmts => isScalarTypedAll p stmts
  | .localVar _ var init => p.isLocal var && init.isScalarTyped p && init.ty == p.varTy var
  | .assign _ (.ident info x) value =>
    (ExprTree.ident info x).isScalarTyped p && value.isScalarTyped p && value.ty == info.ty
  | .ifThen _ cond thenStmt =>
    cond.isScalarTyped p && cond.ty == .bool && (thenStmt ()).isScalarTyped p
  | .ifElse _ cond thenStmt elseStmt =>
    cond.isScalarTyped p && cond.ty == .bool && (thenStmt ()).isScalarTyped p
      && (elseStmt ()).isScalarTyped p
  | .whileLoop _ cond body =>
    cond.isScalarTyped p && cond.ty == .bool && (body ()).isScalarTyped p
  | .breakFrom _ _ => true
  | _ => false

/-- All of some statements are such. -/
def isScalarTypedAll (p : Program) : List (Unit → StmtTree) → Bool
  | [] => true
  | s :: ss => (s ()).isScalarTyped p && isScalarTypedAll p ss

end

theorem isScalarTypedAll_iff {p : Program} {ss : List (Unit → StmtTree)} :
    isScalarTypedAll p ss ↔ ∀ s ∈ ss, (s ()).isScalarTyped p := by
  induction ss with
  | nil => simp [isScalarTypedAll]
  | cons s ss ih => simp [isScalarTypedAll, ih]

/-- Right types have the right widths. -/
theorem isWordTyped_of_isScalarTyped {p : Program} {s : StmtTree} (h : s.isScalarTyped p) :
    s.isWordTyped p := by
  induction s with
  | block info stmts ih =>
    rw [isWordTyped, isWordTypedAll_iff]
    exact fun s hs => ih s hs (isScalarTypedAll_iff.1 h s hs)
  | localVar info var init =>
    simp only [isScalarTyped, Bool.and_eq_true, beq_iff_eq] at h
    simp [isWordTyped, ExprTree.isWordTyped_of_isScalarTyped h.1.2, h.2]
  | assign info target value =>
    cases target with
    | ident target x =>
      simp only [isScalarTyped, Bool.and_eq_true, beq_iff_eq] at h
      have hty : value.ty = (ExprTree.ident target x).ty := h.2
      simp [isWordTyped, ExprTree.isWordTyped_of_isScalarTyped h.1.1,
        ExprTree.isWordTyped_of_isScalarTyped h.1.2, hty]
    | _ => simp [isScalarTyped] at h
  | ifThen info cond thenStmt ih =>
    simp only [isScalarTyped, Bool.and_eq_true] at h
    simp [isWordTyped, ExprTree.isWordTyped_of_isScalarTyped h.1.1,
      ExprTree.isScalar_ty h.1.1, ih h.2]
  | ifElse info cond thenStmt elseStmt ihThen ihElse =>
    simp only [isScalarTyped, Bool.and_eq_true] at h
    simp [isWordTyped, ExprTree.isWordTyped_of_isScalarTyped h.1.1.1,
      ExprTree.isScalar_ty h.1.1.1, ihThen h.1.2, ihElse h.2]
  | whileLoop info cond body ih =>
    simp only [isScalarTyped, Bool.and_eq_true] at h
    simp [isWordTyped, ExprTree.isWordTyped_of_isScalarTyped h.1.1,
      ExprTree.isScalar_ty h.1.1, ih h.2]
  | breakFrom info loop => rfl
  | _ => simp [isScalarTyped] at h

end StmtTree

/-! ## Tasks -/

namespace Task

/-- The statements of the task are scalar and have the right types. -/
def isScalarTyped (p : Program) : Task → Bool
  | one s => s.isScalarTyped p
  | all ss => StmtTree.isScalarTypedAll p ss

/-- The statements of the task are well-scoped. -/
def isScoped (loops : List StmtId) (scope : List VarId) : Task → Bool
  | one s => s.isScoped loops scope
  | all ss => StmtTree.isScopedAll loops scope ss

/-- The variables in scope behind the task. -/
def scopeAfter (scope : List VarId) : Task → List VarId
  | one s => s.scopeAfter scope
  | all ss => StmtTree.scopeAfterAll scope ss

end Task

/-- A loop that is left lies around the task. -/
theorem Executes.mem_loops {σ σ' : Store} {t : Task} {c : Completion} {loop : StmtId}
    {loops : List StmtId} {scope : List VarId} (h : Executes σ t σ' c) (hc : c = .broke loop)
    (hscoped : t.isScoped loops scope) : loop ∈ loops := by
  induction h generalizing loops scope with
  | block _ ih => exact ih hc hscoped
  | cons _ _ _ ih =>
    rw [Task.isScoped, StmtTree.isScopedAll, Bool.and_eq_true] at hscoped
    exact ih hc hscoped.2
  | abrupt _ _ ih =>
    rw [Task.isScoped, StmtTree.isScopedAll, Bool.and_eq_true] at hscoped
    exact ih hc hscoped.1
  | ifThen _ _ ih =>
    rw [Task.isScoped, StmtTree.isScoped, Bool.and_eq_true] at hscoped
    exact ih hc hscoped.2
  | ifElseThen _ _ ih =>
    simp only [Task.isScoped, StmtTree.isScoped, Bool.and_eq_true] at hscoped
    exact ih hc hscoped.1.2
  | ifElseElse _ _ ih =>
    simp only [Task.isScoped, StmtTree.isScoped, Bool.and_eq_true] at hscoped
    exact ih hc hscoped.2
  | whileTurn _ _ _ _ ih => exact ih hc hscoped
  | whileAbrupt _ _ _ hne ih =>
    rw [Task.isScoped, StmtTree.isScoped, Bool.and_eq_true] at hscoped
    have hmem := ih hc hscoped.2
    rw [List.mem_cons] at hmem
    refine hmem.resolve_left fun heq => hne ?_
    rw [hc, heq]
  | breakFrom =>
    obtain rfl := Completion.broke.inj hc
    simpa [Task.isScoped, StmtTree.isScoped] using hscoped
  | _ => cases hc

end MipsBackend
