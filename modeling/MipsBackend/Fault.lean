import MipsBackend.Program.Detail

/-!
# Faults

Compilation trusts its input tree.  What a broken tree leads to is one of two things: a *defect*,
a broken invariant that the compiler itself notices and reports as an internal error, or a failed
access, sum or precondition.  Each is a value that says what went wrong; `Fault.message` words it.
-/

namespace MipsBackend

/-- A broken invariant that the compiler checks for. -/
inductive Defect where
  /-- More was popped from the operand stack than it held. -/
  | stackUnderflow (bytes : Int)
  /-- A height was to be restored that lies above the present one. -/
  | stackRaised (height current : Int)
  | localRedeclared (var : VarId)
  | localUndeclared (var : VarId)
  | breakOutsideLoop (loop : StmtId)
  /-- The type's values carry no class record. -/
  | noClassRecord (ty : Ty)
  | detachedClass (name : String)
  | classWithoutLayout (class_ : ClassId)
  | methodWithoutLayout (method : MethodId)
  | varWithoutOffset (var : VarId)
  /-- A node was reached twice by the layout pass. -/
  | laidOutTwice {sort : NodeSort} (id : NodeId sort)
  /-- The slot of the overridden method holds another method of the class's table, or none. -/
  | slotMismatch (method overridden : String) (slot : Nat) (class_ : String)
      (holder : Option String)
  /-- An ancestor declares the name, yet the method overrides nothing. -/
  | missingOverride (method class_ ancestor : String)
  | runtimeMethodBody (method : String)
  /-- A method returns a value and is void, or does not and is not. -/
  | resultMismatch (method : String) (ty : Ty)
  | argumentCount (method : String) (passed expected : Nat)
  /-- A declaration statement names a variable that is not local. -/
  | notLocal (var : String) (kind : VarKind)
  | notAssignable (kind : ExprKind)
deriving DecidableEq

/-- The operations of checked 32-bit arithmetic. -/
inductive ArithmeticOp where
  | add
  | subtract
  | multiply
  | negate
deriving DecidableEq

/-- The operation as a verb. -/
def ArithmeticOp.verb : ArithmeticOp → String
  | .add => "add"
  | .subtract => "subtract"
  | .multiply => "multiply"
  | .negate => "negate"

/-- Why an operation did not finish. -/
inductive Fault where
  /-- The compiler found its own invariants broken. -/
  | defect (d : Defect)
  /-- A position beyond the end of an arena or list. -/
  | indexOutOfBounds (size index : Nat)
  /-- A result that does not fit in 32 bits. -/
  | overflow (op : ArithmeticOp)
  /-- An arena has no position left. -/
  | arenaFull
  /-- A node is its own ancestor or part. -/
  | cyclic
  | superclassTwice (class_ : String)
  | methodTwice (method : String)
  /-- A body was given to a method of the runtime library. -/
  | bodyOfRuntimeMethod (method : String)
  /-- A value was returned from a void method, or none from another. -/
  | resultUnexpected (method : String) (isVoid : Bool)
  | indexingNonArray (ty : Ty)
  | notACall
deriving DecidableEq

namespace Defect

/-- What the defect is, in one line. -/
def message : Defect → String
  | stackUnderflow bytes => "operand stack underflow by " ++ toString bytes ++ " bytes"
  | stackRaised height current =>
    "cannot restore stack height " ++ toString height ++ " from lower height " ++ toString current
  | localRedeclared v => "local " ++ v.text ++ " declared twice"
  | localUndeclared v => "local " ++ v.text ++ " used before its declaration"
  | breakOutsideLoop s => "`break` outside of loop " ++ s.text
  | noClassRecord ty => "`" ++ ty.text ++ "` has no class record"
  | detachedClass name => "class `" ++ name ++ "` is not a descendant of the root class"
  | classWithoutLayout c => "class " ++ c.detail ++ " has no layout"
  | methodWithoutLayout m => "method " ++ m.detail ++ " has no layout"
  | varWithoutOffset v => "variable " ++ v.detail ++ " has no offset"
  | laidOutTwice id => "layout of " ++ id.detail ++ " computed twice"
  | slotMismatch method overridden slot class_ holder =>
    "`" ++ method ++ "` overrides `" ++ overridden ++ "`, but slot " ++ toString slot ++ " of `"
      ++ class_ ++ "` holds " ++ Text.quotedOption holder
  | missingOverride method class_ ancestor =>
    "`" ++ method ++ "` in `" ++ class_ ++ "` has no overridden method but `" ++ ancestor
      ++ "` declares one"
  | runtimeMethodBody method => "runtime method `" ++ method ++ "` has no body to generate"
  | resultMismatch method ty =>
    "`" ++ method ++ "` returns `" ++ ty.text ++ "` but its return expression does not match"
  | argumentCount method passed expected =>
    "call to `" ++ method ++ "` passes " ++ toString passed ++ " arguments, expected "
      ++ toString expected
  | notLocal var kind =>
    "`" ++ var ++ "` is declared by a statement but is " ++ kind.detail
  | notAssignable kind => "cannot assign to " ++ kind.detail

end Defect

namespace Fault

/-- Whether the compiler reports the fault as an internal error of its own. -/
def isDefect : Fault → Bool
  | defect _ => true
  | _ => false

/-- The wording of a fault. -/
def message : Fault → String
  | defect d => "internal compiler error: " ++ d.message
  | indexOutOfBounds size index =>
    "index out of bounds: the len is " ++ toString size ++ " but the index is " ++ toString index
  | overflow op => "attempt to " ++ op.verb ++ " with overflow"
  | arenaFull => "index overflowed"
  | cyclic => "a node contains itself"
  | superclassTwice c => "class `" ++ c ++ "` already has a superclass"
  | methodTwice m => "method `" ++ m ++ "` declared twice"
  | bodyOfRuntimeMethod m => "runtime method `" ++ m ++ "` cannot have a body"
  | resultUnexpected m isVoid =>
    "assertion `left == right` failed: method `" ++ m
      ++ "` must return a value iff it is non-void\n  left: " ++ toString isVoid
      ++ "\n right: " ++ toString (!isVoid)
  | indexingNonArray ty => "indexing non-array type `" ++ ty.text ++ "`"
  | notACall => "call statement without a call"

end Fault

/-- Reports a broken invariant. -/
def defect {α : Type} (d : Defect) : Except Fault α :=
  .error (.defect d)

/-! ## When a sequence of operations succeeds -/

theorem bind_eq_ok_iff {α β : Type} {op : Except Fault α} {next : α → Except Fault β} {b : β} :
    op >>= next = .ok b ↔ ∃ a, op = .ok a ∧ next a = .ok b := by
  cases op <;> simp [bind, Except.bind]

@[simp] theorem pure_eq_ok_iff {α : Type} {a b : α} :
    (pure a : Except Fault α) = .ok b ↔ b = a := by
  simp [pure, Except.pure, eq_comm]

@[simp] theorem defect_ne_ok {α : Type} {d : Defect} {a : α} : defect d ≠ .ok a := by
  simp [defect]

end MipsBackend
