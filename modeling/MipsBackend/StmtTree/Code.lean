import MipsBackend.ExprTree.Code
import MipsBackend.StmtTree.Basic

/-!
# Code of statements

A statement leaves the stack as it found it, but for the declaration of a local variable, whose
value stays until the enclosing scope ends.
-/

namespace MipsBackend

namespace Gen

/-- Runs code in a scope of its own: what it leaves on the stack is popped. -/
def inScope (span : Span) (body : Gen Code) : Gen Code := do
  let bottom ← height
  let code ← body
  return code ++ (← popTo span bottom)

/-- Evaluates a condition into `$t0`. -/
def condition (p : Program) (l : Layout) (span : Span) (cond : ExprTree) : Gen Code := do
  let value ← cond.code p l
  return value ++ Code.of span [.lw .t0 0 .sp] ++ (← pop span (2 * wordSize))

/-- Writes the value on top of the stack to an element, below which its array and index lie. -/
def storeElement (width : Int) : List Inst := [
  .lw .t0 0 .sp,
  .lw .t1 (width + 2 * wordSize) .sp,
  .nullCheck .t1,
  .lw .t2 width .sp,
  .lw .t3 arrayLengthOffset .t1,
  .boundsCheck .t2 .t3]
  ++ Inst.elementAddress .t2 .t1
  ++ [.sw .t0 0 .t2]

/-- Evaluates an assignment.  Only variables, fields and elements can be assigned to. -/
def assignment (p : Program) (l : Layout) (span : Span) (target value : ExprTree) :
    Gen Code := do
  let _ ← value.kind?
  let width := value.ty.stackBytes
  match target with
  | .ident _ var =>
    let result ← value.code p l
    let (offset, base) ← varAddress p l var
    return result ++ Code.of span [.lw .t0 0 .sp, .sw .t0 offset base] ++ (← pop span width)
  | .field _ object var =>
    let base ← (object ()).code p l
    let result ← value.code p l
    let offset ← l.varOffset var
    return base ++ result
      ++ Code.of span [.lw .t0 0 .sp, .lw .t1 width .sp, .nullCheck .t1, .sw .t0 offset .t1]
      ++ (← pop span (width + wordSize))
  | .index _ array i =>
    let base ← (array ()).code p l
    let position ← (i ()).code p l
    let result ← value.code p l
    return base ++ position ++ result ++ Code.of span (storeElement width)
      ++ (← pop span (width + 3 * wordSize))
  | other => defect (.notAssignable (← other.kind?))

/-- Leaves a loop: drops what was pushed inside it and jumps behind it.  What follows the jump is
never reached by it, so the frame keeps its height. -/
def leaveLoop (span : Span) (loop : StmtId) : Gen Code := do
  let exit ← (← get).loopExit loop
  let excess ← Offset.sub (← height) exit
  return (if excess = 0 then [] else Code.of span [.adduImm .sp .sp excess])
    ++ Code.of span [.j (.breakTarget loop)]

end Gen

namespace StmtTree

open Gen

mutual

/-- The code that runs a statement. -/
def code (p : Program) (l : Layout) : StmtTree → Gen Code
  | .broken _ fault => throw fault
  | .block info stmts => inScope info.span (codeAll p l stmts)
  | .localVar _ var init => do
    let value ← init.code p l
    declared var
    return value
  | .call info expr => do
    let value ← expr.code p l
    return value ++ (← pop info.span expr.ty.stackBytes)
  | .assign info target value => assignment p l info.span target value
  | .ifThen info cond thenStmt => do
    let test ← condition p l info.span cond
    let body ← inScope (thenStmt ()).span ((thenStmt ()).code p l)
    return test ++ Code.of info.span [.branch .beq .t0 .zero (.ifElse info.id)]
      ++ body
      ++ Code.of info.span [.j (.ifDone info.id), .label (.ifElse info.id),
        .label (.ifDone info.id)]
  | .ifElse info cond thenStmt elseStmt => do
    let test ← condition p l info.span cond
    let body ← inScope (thenStmt ()).span ((thenStmt ()).code p l)
    let other ← inScope (elseStmt ()).span ((elseStmt ()).code p l)
    return test ++ Code.of info.span [.branch .beq .t0 .zero (.ifElse info.id)]
      ++ body
      ++ Code.of info.span [.j (.ifDone info.id), .label (.ifElse info.id)]
      ++ other
      ++ Code.of info.span [.label (.ifDone info.id)]
  | .whileLoop info cond body => do
    modify (·.enterLoop info.id)
    let turn ← inScope (body ()).span ((body ()).code p l)
    let test ← condition p l info.span cond
    return Code.of info.span [.j (.whileEnter info.id), .label (.whileTop info.id)]
      ++ turn
      ++ Code.of info.span [.label (.whileEnter info.id)]
      ++ test
      ++ Code.of info.span [.branch .bne .t0 .zero (.whileTop info.id),
        .label (.breakTarget info.id)]
  | .breakFrom info loop => leaveLoop info.span loop

/-- The code of statements in order. -/
def codeAll (p : Program) (l : Layout) : List (Unit → StmtTree) → Gen Code
  | [] => pure []
  | s :: ss => do
    let first ← (s ()).code p l
    return first ++ (← codeAll p l ss)

end

/-- The code of a statement whose locals end with it. -/
def scopedCode (p : Program) (l : Layout) (s : StmtTree) : Gen Code :=
  inScope s.span (s.code p l)

end StmtTree

end MipsBackend
