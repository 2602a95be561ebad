import MipsBackend.Proofs.Code.Steps
import MipsBackend.Proofs.Widths

/-!
# Word-typed trees

The code generator trusts the types it finds: from them it takes how many words a value has on the
stack.  A tree is *word-typed* if every type has the width of the value it stands for.  This is much
weaker than being well-typed, since all that counts of a type is whether it is scalar, a reference
or void.

The conditions are functions to `Bool`, so that they can be evaluated on a program.
-/

namespace MipsBackend

/-! ## Widths -/

/-- A value of the type may be read from a place of the other type. -/
def Ty.readsFrom (ty place : Ty) : Bool :=
  !ty.isVoid && ty.isScalar == place.isScalar

/-- The operands have a width that the operator works on: scalars, or two references to compare. -/
def BinOp.takes (op : BinOp) (lhs rhs : Ty) : Bool :=
  lhs.isScalar && rhs.isScalar || op == .eq && lhs.isReference && rhs.isReference

theorem Ty.stackBytes_of_isScalar {ty : Ty} (h : ty.isScalar) : ty.stackBytes = 2 * wordSize := by
  cases ty <;> first | rfl | simp [isScalar] at h

theorem Ty.stackBytes_of_isReference {ty : Ty} (h : ty.isReference) :
    ty.stackBytes = wordSize := by
  cases ty <;> first | rfl | simp [isReference] at h

theorem Ty.stackBytes_of_not_isVoid {ty : Ty} (h : ty.isVoid = false) :
    ty.stackBytes = if ty.isScalar then 2 * wordSize else wordSize := by
  cases ty <;> first | rfl | simp [isVoid] at h

theorem Ty.stackBytes_nonneg (ty : Ty) : 0 ≤ ty.stackBytes := by
  cases ty <;> exact Int.natCast_nonneg _

theorem BinOp.isScalar_of_isShortCircuit {op : BinOp} {lhs rhs : Ty} (h : op.isShortCircuit)
    (htakes : op.takes lhs rhs) : lhs.isScalar ∧ rhs.isScalar := by
  cases op <;> simp_all [isShortCircuit, takes]

theorem Ty.not_isReference_of_isScalar {ty : Ty} (h : ty.isScalar) : ty.isReference = false := by
  rw [isReference_eq, h]
  rfl

theorem Ty.isVoid_of_isScalar {ty : Ty} (h : ty.isScalar) : ty.isVoid = false := by
  cases ty <;> first | rfl | cases h

/-- What is as wide as a value is one. -/
theorem Ty.isVoid_of_stackBytes {ty ty' : Ty} (h : ty.stackBytes = ty'.stackBytes)
    (hvalue : ty'.isVoid = false) : ty.isVoid = false := by
  cases ty <;> first | rfl | cases ty' <;> first | exact hvalue | cases h

/-- What an operator takes, less what it pops, is a scalar. -/
theorem BinOp.stackBytes_of_takes {op : BinOp} {lhs rhs : Ty} {d : Int} (h : op.takes lhs rhs)
    (hd : d = if op = .eq ∧ lhs.isReference then 0 else 2 * wordSize) :
    lhs.stackBytes + rhs.stackBytes - d = 2 * wordSize := by
  simp only [takes, Bool.or_eq_true, Bool.and_eq_true, beq_iff_eq] at h
  rcases h with ⟨hl, hr⟩ | ⟨⟨hop, hl⟩, hr⟩
  · rw [if_neg (by simp [Ty.not_isReference_of_isScalar hl])] at hd
    rw [Ty.stackBytes_of_isScalar hl, Ty.stackBytes_of_isScalar hr, hd]
    omega
  · rw [if_pos ⟨hop, hl⟩] at hd
    rw [Ty.stackBytes_of_isReference hl, Ty.stackBytes_of_isReference hr, hd]
    omega

namespace Program

/-- The type of a variable; one that does not exist has no value. -/
def varTy (p : Program) (var : VarId) : Ty :=
  match p.varAt var with
  | .ok decl => decl.ty
  | .error _ => .void

theorem varTy_eq {p : Program} {var : VarId} {decl : VarDecl} (h : p.varAt var = .ok decl) :
    p.varTy var = decl.ty := by
  rw [varTy, h]

/-- How many bytes the arguments of a method take on the stack. -/
def argumentBytes (p : Program) (decl : MethodDecl) : Int :=
  (decl.formals.map fun formal => (p.varTy formal).stackBytes).sum

end Program

/-! ## Word-typed expressions -/

namespace ExprTree

mutual

/-- Every type in the expression has the width of the value that it stands for. -/
def isWordTyped (p : Program) : ExprTree → Bool
  | .broken _ _ => false
  | .int info _ | .bool info _ => info.ty.isScalar
  | .str info _ | .null info | .this info | .super info | .new info _ => info.ty.isReference
  | .ident info var => info.ty.readsFrom (p.varTy var)
  | .not info operand =>
    info.ty.isScalar && (operand ()).ty.isScalar && (operand ()).isWordTyped p
  | .binary info op lhs rhs =>
    info.ty.isScalar && op.takes (lhs ()).ty (rhs ()).ty
      && (lhs ()).isWordTyped p && (rhs ()).isWordTyped p
  | .arrayLength info array =>
    info.ty.isScalar && (array ()).ty.isReference && (array ()).isWordTyped p
  | .index info array i =>
    !info.ty.isVoid && (array ()).ty.elem?.all info.ty.readsFrom
      && (array ()).ty.isReference && (i ()).ty.isScalar
      && (array ()).isWordTyped p && (i ()).isWordTyped p
  | .field info object var =>
    info.ty.readsFrom (p.varTy var) && (object ()).ty.isReference && (object ()).isWordTyped p
  | .instanceOf info operand _ =>
    info.ty.isScalar && (operand ()).ty.isReference && (operand ()).isWordTyped p
  | .cast info _ operand =>
    info.ty.stackBytes == (operand ()).ty.stackBytes && (operand ()).isWordTyped p
  | .newArray info _ size =>
    info.ty.isReference && (size ()).ty.isScalar && (size ()).isWordTyped p
  | .call info receiver method args =>
    match p.methodAt method with
    | .ok decl =>
      info.ty.stackBytes == decl.returnType.stackBytes && (receiver ()).ty.isReference
        && (args.map fun arg => (arg ()).ty.stackBytes)
          == (decl.formals.map fun formal => (p.varTy formal).stackBytes)
        && (receiver ()).isWordTyped p && isWordTypedAll p args
    | .error _ => false

/-- All of some expressions are word-typed. -/
def isWordTypedAll (p : Program) : List (Unit → ExprTree) → Bool
  | [] => true
  | e :: es => (e ()).isWordTyped p && isWordTypedAll p es

end

theorem isWordTypedAll_iff {p : Program} {es : List (Unit → ExprTree)} :
    isWordTypedAll p es ↔ ∀ e ∈ es, (e ()).isWordTyped p := by
  induction es with
  | nil => simp [isWordTypedAll]
  | cons e es ih => simp [isWordTypedAll, ih]

end ExprTree

/-! ## Word-typed statements -/

namespace StmtTree

mutual

/-- The expressions of the statement are word-typed, conditions are scalar, and what is stored in a
variable, field or element is as wide as that. -/
def isWordTyped (p : Program) : StmtTree → Bool
  | .broken _ _ => false
  | .block _ stmts => isWordTypedAll p stmts
  | .localVar _ var init =>
    init.isWordTyped p && init.ty.stackBytes == (p.varTy var).stackBytes
  | .call _ expr => expr.isWordTyped p
  | .assign _ target value =>
    target.isWordTyped p && value.isWordTyped p && value.ty.stackBytes == target.ty.stackBytes
  | .ifThen _ cond thenStmt =>
    cond.isWordTyped p && cond.ty.isScalar && (thenStmt ()).isWordTyped p
  | .ifElse _ cond thenStmt elseStmt =>
    cond.isWordTyped p && cond.ty.isScalar && (thenStmt ()).isWordTyped p
      && (elseStmt ()).isWordTyped p
  | .whileLoop _ cond body =>
    cond.isWordTyped p && cond.ty.isScalar && (body ()).isWordTyped p
  | .breakFrom _ _ => true

/-- All of some statements are word-typed. -/
def isWordTypedAll (p : Program) : List (Unit → StmtTree) → Bool
  | [] => true
  | s :: ss => (s ()).isWordTyped p && isWordTypedAll p ss

end

theorem isWordTypedAll_iff {p : Program} {ss : List (Unit → StmtTree)} :
    isWordTypedAll p ss ↔ ∀ s ∈ ss, (s ()).isWordTyped p := by
  induction ss with
  | nil => simp [isWordTypedAll]
  | cons s ss ih => simp [isWordTypedAll, ih]

mutual

/-- As `isWordTyped`, but a local variable may be declared with an initial value of any width, on
which nothing depends so long as the variable is not used. -/
def hasWordTypedOperands (p : Program) : StmtTree → Bool
  | .broken _ _ => false
  | .block _ stmts => haveWordTypedOperands p stmts
  | .localVar _ _ init => init.isWordTyped p
  | .call _ expr => expr.isWordTyped p
  | .assign _ target value =>
    target.isWordTyped p && value.isWordTyped p && value.ty.stackBytes == target.ty.stackBytes
  | .ifThen _ cond thenStmt =>
    cond.isWordTyped p && cond.ty.isScalar && (thenStmt ()).hasWordTypedOperands p
  | .ifElse _ cond thenStmt elseStmt =>
    cond.isWordTyped p && cond.ty.isScalar && (thenStmt ()).hasWordTypedOperands p
      && (elseStmt ()).hasWordTypedOperands p
  | .whileLoop _ cond body =>
    cond.isWordTyped p && cond.ty.isScalar && (body ()).hasWordTypedOperands p
  | .breakFrom _ _ => true

/-- All of some statements have word-typed operands. -/
def haveWordTypedOperands (p : Program) : List (Unit → StmtTree) → Bool
  | [] => true
  | s :: ss => (s ()).hasWordTypedOperands p && haveWordTypedOperands p ss

end

theorem haveWordTypedOperands_iff {p : Program} {ss : List (Unit → StmtTree)} :
    haveWordTypedOperands p ss ↔ ∀ s ∈ ss, (s ()).hasWordTypedOperands p := by
  induction ss with
  | nil => simp [haveWordTypedOperands]
  | cons s ss ih => simp [haveWordTypedOperands, ih]

theorem hasWordTypedOperands_of_isWordTyped {p : Program} {s : StmtTree} (h : s.isWordTyped p) :
    s.hasWordTypedOperands p := by
  induction s with
  | broken => exact h
  | block info stmts ih =>
    exact haveWordTypedOperands_iff.2 fun s hs => ih s hs (isWordTypedAll_iff.1 h s hs)
  | localVar => exact (Bool.and_eq_true_iff.1 h).1
  | call | assign | breakFrom => exact h
  | ifThen info cond thenStmt ih =>
    simp only [isWordTyped, hasWordTypedOperands, Bool.and_eq_true] at h ⊢
    exact ⟨h.1, ih h.2⟩
  | ifElse info cond thenStmt elseStmt ihThen ihElse =>
    simp only [isWordTyped, hasWordTypedOperands, Bool.and_eq_true] at h ⊢
    exact ⟨⟨h.1.1, ihThen h.1.2⟩, ihElse h.2⟩
  | whileLoop info cond body ih =>
    simp only [isWordTyped, hasWordTypedOperands, Bool.and_eq_true] at h ⊢
    exact ⟨h.1, ih h.2⟩

end StmtTree

end MipsBackend
