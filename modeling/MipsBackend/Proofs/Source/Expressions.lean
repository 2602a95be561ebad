import MipsBackend.Proofs.Code.Typing
import MipsBackend.Proofs.Machine.Basic

/-!
# The meaning of scalar expressions

Scalar expressions are built from literals, local variables and formal parameters by operators on
integers and truth values.  `ExprTree.eval` is their meaning: operands from left to right, integers
modulo 2^32, and the right operand of `&&` and `||` only where the left one does not decide.  A
division by zero ends the evaluation.

`ExprTree.isScalarTyped` is the type check, on trees that a front end has annotated.  On a typed
expression nothing but a division by zero can go wrong (`ExprTree.eval_cases`).
-/

namespace MipsBackend

/-! ## Values -/

/-- An integer or a truth value. -/
inductive Value where
  | int (n : Int32)
  | bool (b : Bool)
deriving DecidableEq

namespace Value

/-- The type of a value. -/
def ty : Value → Ty
  | int _ => .int
  | bool _ => .bool

/-- The data word of a value. -/
def word : Value → Word
  | int n => n.toBitVec
  | bool b => .ofBool b

theorem exists_bool {v : Value} (h : v.ty = .bool) : ∃ b, v = .bool b := by
  cases v with
  | int n => simp [ty] at h
  | bool b => exact ⟨b, rfl⟩

end Value

/-- What an evaluation can end with instead of a value. -/
inductive EvalFault where
  | divisionByZero
  /-- An operation that the types should have excluded. -/
  | illTyped
deriving DecidableEq

/-- The values of variables. -/
abbrev Store :=
  VarId → Value

namespace BinOp

/-- The result of an operator on two values. -/
def apply : BinOp → Value → Value → Except EvalFault Value
  | .add, .int a, .int b => .ok (.int (a + b))
  | .sub, .int a, .int b => .ok (.int (a - b))
  | .mul, .int a, .int b => .ok (.int (a * b))
  | .div, .int a, .int b => if b = 0 then .error .divisionByZero else .ok (.int (a / b))
  | .rem, .int a, .int b => if b = 0 then .error .divisionByZero else .ok (.int (a % b))
  | .lt, .int a, .int b => .ok (.bool (a < b))
  | .gt, .int a, .int b => .ok (.bool (b < a))
  | .eq, .int a, .int b => .ok (.bool (a == b))
  | .eq, .bool a, .bool b => .ok (.bool (a == b))
  | .and, .bool a, .bool b => .ok (.bool (a && b))
  | .or, .bool a, .bool b => .ok (.bool (a || b))
  | _, _, _ => .error .illTyped

/-- The left operand alone decides the result: false for `&&`, true for `||`. -/
def isDecidedBy : BinOp → Value → Bool
  | .and, .bool a => !a
  | .or, .bool a => a
  | _, _ => false

/-- The types that an operator takes. -/
def takesScalars (op : BinOp) (lhs rhs : Ty) : Bool :=
  match op with
  | .eq => lhs.isScalar && lhs == rhs
  | .and | .or => lhs == .bool && rhs == .bool
  | _ => lhs == .int && rhs == .int

variable {op : BinOp} {a b : Value}

/-- Operands of the right types have a result of the right type, or the divisor is zero. -/
theorem apply_cases (h : op.takesScalars a.ty b.ty) :
    (∃ v, op.apply a b = .ok v ∧ v.ty = op.resultType) ∨
      op.apply a b = .error .divisionByZero := by
  cases a with
  | int a =>
    cases b with
    | int b =>
      by_cases hb : b = 0
      · cases op <;> simp_all [takesScalars, apply, Value.ty, resultType, Ty.isScalar]
      · cases op <;> simp_all [takesScalars, apply, Value.ty, resultType, Ty.isScalar]
    | bool b => cases op <;> simp [takesScalars, Value.ty] at h
  | bool a =>
    cases b with
    | int b => cases op <;> simp [takesScalars, Value.ty] at h
    | bool b => cases op <;> simp_all [takesScalars, apply, Value.ty, resultType]

theorem isDecidedBy_of_not_isShortCircuit (h : op.isShortCircuit = false) :
    op.isDecidedBy a = false := by
  cases op <;> simp_all [isShortCircuit, isDecidedBy]

theorem eq_bool_of_isShortCircuit {lhs rhs : Ty} (hop : op.isShortCircuit)
    (h : op.takesScalars lhs rhs) : lhs = .bool ∧ rhs = .bool := by
  cases op <;> simp_all [isShortCircuit, takesScalars]

/-- A short-circuit operator that the left operand does not decide has the right one's value. -/
theorem apply_of_not_isDecidedBy (hop : op.isShortCircuit) (ha : a.ty = .bool) (hb : b.ty = .bool)
    (h : op.isDecidedBy a = false) : op.apply a b = .ok b := by
  obtain ⟨a, rfl⟩ := Value.exists_bool ha
  obtain ⟨b, rfl⟩ := Value.exists_bool hb
  cases op <;> simp_all [isShortCircuit, isDecidedBy, apply]

end BinOp

/-! ## Expressions -/

/-- The variable is a local variable or a formal parameter, which live on the stack. -/
def Program.isStackVar (p : Program) (x : VarId) : Bool :=
  match p.varAt x with
  | .ok ⟨_, _, _, .formal _⟩ | .ok ⟨_, _, _, .localVar _⟩ => true
  | _ => false

/-- The variable is a local variable. -/
def Program.isLocal (p : Program) (x : VarId) : Bool :=
  match p.varAt x with
  | .ok ⟨_, _, _, .localVar _⟩ => true
  | _ => false

theorem Program.isLocal_iff {p : Program} {x : VarId} :
    p.isLocal x ↔ ∃ decl init, p.varAt x = .ok decl ∧ decl.kind = .localVar init := by
  rw [isLocal]
  split
  · rename_i init h
    exact ⟨fun _ => ⟨_, init, h, rfl⟩, fun _ => rfl⟩
  · rename_i h
    constructor
    · intro hfalse
      cases hfalse
    · rintro ⟨⟨name, span, ty, kind⟩, init, hdecl, hkind⟩
      rw [show kind = .localVar init from hkind] at hdecl
      exact absurd hdecl (h name span ty init)

namespace ExprTree

/-- The value of an expression. -/
def eval (σ : Store) : ExprTree → Except EvalFault Value
  | .int _ n => .ok (.int n)
  | .bool _ b => .ok (.bool b)
  | .ident _ x => .ok (σ x)
  | .not _ operand => do
    match ← (operand ()).eval σ with
    | .bool b => return .bool !b
    | .int _ => .error .illTyped
  | .binary _ op lhs rhs => do
    let a ← (lhs ()).eval σ
    if op.isDecidedBy a then
      return a
    else
      op.apply a (← (rhs ()).eval σ)
  | _ => .error .illTyped

/-- The right operand is evaluated only where the left one does not decide. -/
theorem eval_binary {σ : Store} {info : ExprInfo} {op : BinOp} {lhs rhs : Unit → ExprTree}
    {a : Value} (hleft : (lhs ()).eval σ = .ok a) :
    (ExprTree.binary info op lhs rhs).eval σ =
      if op.isDecidedBy a then .ok a else (rhs ()).eval σ >>= op.apply a := by
  rw [eval, hleft]
  rfl

/-- The expression is built from literals, local variables and formal parameters by operators, and
every type in it is right. -/
def isScalarTyped (p : Program) : ExprTree → Bool
  | .int info _ => info.ty == .int
  | .bool info _ => info.ty == .bool
  | .ident info x => p.isStackVar x && info.ty.isScalar && info.ty == p.varTy x
  | .not info operand =>
    info.ty == .bool && (operand ()).ty == .bool && (operand ()).isScalarTyped p
  | .binary info op lhs rhs =>
    info.ty == op.resultType && op.takesScalars (lhs ()).ty (rhs ()).ty
      && (lhs ()).isScalarTyped p && (rhs ()).isScalarTyped p
  | _ => false

mutual

/-- The variables that an expression names.  A field is not named but selected. -/
def reads : ExprTree → List VarId
  | .ident _ x => [x]
  | .not _ operand | .instanceOf _ operand _ | .cast _ _ operand => (operand ()).reads
  | .arrayLength _ array => (array ()).reads
  | .field _ object _ => (object ()).reads
  | .newArray _ _ size => (size ()).reads
  | .binary _ _ lhs rhs => (lhs ()).reads ++ (rhs ()).reads
  | .index _ array i => (array ()).reads ++ (i ()).reads
  | .call _ receiver _ args => (receiver ()).reads ++ readsAll args
  | _ => []

/-- The variables that some expressions name. -/
def readsAll : List (Unit → ExprTree) → List VarId
  | [] => []
  | e :: es => (e ()).reads ++ readsAll es

end

variable {p : Program} {σ : Store} {e : ExprTree}

theorem isScalar_ty (h : e.isScalarTyped p) : e.ty.isScalar := by
  cases e with
  | int info n | bool info b =>
    rw [ty, eq_of_beq h]
    rfl
  | ident info x =>
    simp only [isScalarTyped, Bool.and_eq_true] at h
    exact h.1.2
  | not info operand =>
    simp only [isScalarTyped, Bool.and_eq_true, beq_iff_eq] at h
    rw [ty, h.1.1]
    rfl
  | binary info op lhs rhs =>
    simp only [isScalarTyped, Bool.and_eq_true, beq_iff_eq] at h
    rw [ty, h.1.1.1]
    cases op <;> rfl
  | _ => simp [isScalarTyped] at h

/-- Typed expressions read nothing but the stack. -/
theorem isStackVar_of_mem_reads (h : e.isScalarTyped p) : ∀ x ∈ e.reads, p.isStackVar x := by
  induction e with
  | ident info x =>
    simp only [isScalarTyped, Bool.and_eq_true] at h
    simpa [reads] using h.1.1
  | not info operand ih =>
    simp only [isScalarTyped, Bool.and_eq_true] at h
    exact ih h.2
  | binary info op lhs rhs ihLeft ihRight =>
    simp only [isScalarTyped, Bool.and_eq_true] at h
    exact List.forall_mem_append.2 ⟨ihLeft h.1.2, ihRight h.2⟩
  | int | bool => simp [reads]
  | _ => simp [isScalarTyped] at h

/-- Right types have the right widths. -/
theorem isWordTyped_of_isScalarTyped (h : e.isScalarTyped p) : e.isWordTyped p := by
  induction e with
  | int info n | bool info b =>
    rw [isWordTyped, eq_of_beq h]
    rfl
  | ident info x =>
    simp only [isScalarTyped, Bool.and_eq_true, beq_iff_eq] at h
    have hvoid : info.ty.isVoid = false := by
      cases hty : info.ty <;> simp_all [Ty.isScalar, Ty.isVoid]
    rw [isWordTyped, Ty.readsFrom, ← h.2, hvoid]
    simp
  | not info operand ih =>
    have hoperand : (operand ()).isScalarTyped p := by
      simp only [isScalarTyped, Bool.and_eq_true] at h
      exact h.2
    have hty : info.ty.isScalar := isScalar_ty h
    simp [isWordTyped, hty, isScalar_ty hoperand, ih hoperand]
  | binary info op lhs rhs ihLeft ihRight =>
    have hparts : (lhs ()).isScalarTyped p ∧ (rhs ()).isScalarTyped p := by
      simp only [isScalarTyped, Bool.and_eq_true] at h
      exact ⟨h.1.2, h.2⟩
    have hty : info.ty.isScalar := isScalar_ty h
    simp [isWordTyped, BinOp.takes, hty, isScalar_ty hparts.1, isScalar_ty hparts.2,
      ihLeft hparts.1, ihRight hparts.2]
  | _ => simp [isScalarTyped] at h

/-- The evaluation of a typed expression ends with a value of its type or with a division by
zero. -/
theorem eval_cases (h : e.isScalarTyped p) (hσ : ∀ x ∈ e.reads, (σ x).ty = p.varTy x) :
    (∃ v, e.eval σ = .ok v ∧ v.ty = e.ty) ∨ e.eval σ = .error .divisionByZero := by
  induction e with
  | int info n | bool info b => exact Or.inl ⟨_, rfl, (eq_of_beq h).symm⟩
  | ident info x =>
    simp only [isScalarTyped, Bool.and_eq_true, beq_iff_eq] at h
    refine Or.inl ⟨σ x, rfl, ?_⟩
    rw [hσ x (by simp [reads]), ty, h.2]
  | not info operand ih =>
    simp only [isScalarTyped, Bool.and_eq_true, beq_iff_eq] at h
    obtain ⟨⟨hty, hoperandTy⟩, hoperand⟩ := h
    rcases ih hoperand hσ with ⟨v, heval, hv⟩ | heval
    · obtain ⟨b, rfl⟩ := Value.exists_bool (hv.trans hoperandTy)
      refine Or.inl ⟨.bool !b, ?_, hty.symm⟩
      rw [eval, heval]
      rfl
    · refine Or.inr ?_
      rw [eval, heval]
      rfl
  | binary info op lhs rhs ihLeft ihRight =>
    simp only [isScalarTyped, Bool.and_eq_true, beq_iff_eq] at h
    obtain ⟨⟨⟨hty, htakes⟩, hlhs⟩, hrhs⟩ := h
    rw [reads, List.forall_mem_append] at hσ
    rcases ihLeft hlhs hσ.1 with ⟨a, hleft, ha⟩ | hleft
    · rw [eval_binary hleft, ty, hty]
      by_cases hdecided : op.isDecidedBy a
      · refine Or.inl ⟨a, if_pos hdecided, ?_⟩
        cases op <;> simp_all [BinOp.isDecidedBy, BinOp.takesScalars, BinOp.resultType]
      · rw [if_neg hdecided]
        rcases ihRight hrhs hσ.2 with ⟨b, hright, hb⟩ | hright
        · rw [hright]
          rw [← ha, ← hb] at htakes
          exact BinOp.apply_cases htakes
        · rw [hright]
          exact Or.inr rfl
    · refine Or.inr ?_
      rw [eval, hleft]
      rfl
  | _ => simp [isScalarTyped] at h

/-- The value of a typed expression has its type. -/
theorem ty_of_eval {v : Value} (h : e.isScalarTyped p) (hσ : ∀ x ∈ e.reads, (σ x).ty = p.varTy x)
    (heval : e.eval σ = .ok v) : v.ty = e.ty := by
  rcases eval_cases h hσ with ⟨w, hw, hty⟩ | htrap
  · obtain rfl := Except.ok.inj (heval.symm.trans hw)
    exact hty
  · rw [heval] at htrap
    cases htrap

/-- Where the left operand of `&&` or `||` does not decide, the result is that of the right one. -/
theorem eval_shortCircuit {op : BinOp} {v : Value} {rhs : ExprTree} (hop : op.isShortCircuit)
    (hv : v.ty = .bool) (hrhs : rhs.isScalarTyped p) (hty : rhs.ty = .bool)
    (hvars : ∀ x ∈ rhs.reads, (σ x).ty = p.varTy x) :
    (if op.isDecidedBy v then .ok v else rhs.eval σ >>= op.apply v) =
      if op.isDecidedBy v then .ok v else rhs.eval σ := by
  by_cases hdecided : op.isDecidedBy v
  · rw [if_pos hdecided, if_pos hdecided]
  · rw [if_neg hdecided, if_neg hdecided]
    rcases eval_cases hrhs hvars with ⟨w, hw, hwty⟩ | hw
    · rw [hw]
      exact BinOp.apply_of_not_isDecidedBy hop hv (hwty.trans hty) (by simpa using hdecided)
    · rw [hw]
      rfl

end ExprTree

end MipsBackend
