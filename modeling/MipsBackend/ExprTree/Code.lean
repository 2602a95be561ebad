import MipsBackend.Assembly.Symbol
import MipsBackend.ExprTree.Basic
import MipsBackend.Gen
import MipsBackend.Layout.Basic
import MipsBackend.Program.Hierarchy

/-!
# Code of expressions

The code of an expression pushes its value.  It works from the operands, which their own code left
on the stack, and it uses no register across them.
-/

namespace MipsBackend

namespace Gen

/-- Where a variable lies: an offset and the register it counts from. -/
def varAddress (p : Program) (l : Layout) (var : VarId) : Gen (Int × Reg) := do
  match (← p.varAt var).kind with
  | .instVar _ => return (← l.varOffset var, .s2)
  | .formal _ =>
    let offset ← l.varOffset var
    return (← Offset.add (← height) offset, .sp)
  | .localVar _ =>
    let offset ← (← get).localOffset var
    return (← Offset.add (← height) offset, .sp)

/-- Loads the bounds of the records that a value of a type may carry. -/
def loadClassRange (p : Program) (ty : Ty) : Except Fault (List Inst) := do
  let (start, end_) ← p.classRange ty
  return [.la .t0 start, .la .t1 end_]

/-- Writes the class record of the object just allocated. -/
def storeClassRecord (record : String) : List Inst :=
  [.la .t0 (.classStart record), .sw .t0 classRecordOffset .s7]

/-- Combines the operands in `$t1` and `$t0` into `$t0`, for an operator with an instruction. -/
def combine : BinOp → List Inst
  | .add => [.alu .addu .t0 .t1 .t0]
  | .sub => [.alu .subu .t0 .t1 .t0]
  | .mul => [.mult .t1 .t0, .mflo .t0]
  | .eq => [.alu .seq .t0 .t1 .t0]
  | .lt => [.alu .slt .t0 .t1 .t0]
  | .gt => [.alu .sgt .t0 .t1 .t0]
  | .div | .rem | .and | .or => []

/-- Replaces two operands on the stack by the result of an operator that evaluates both. -/
def applyOperator (span : Span) (op : BinOp) (onReferences : Bool) : Gen Code := do
  match op with
  | .div =>
    popped (2 * wordSize)
    return Code.of span [.callRoutine .divide]
  | .rem =>
    popped (2 * wordSize)
    return Code.of span [.callRoutine .remainder]
  | op =>
    if op = .eq ∧ onReferences then
      return Code.of span ([.lw .t0 0 .sp, .lw .t1 wordSize .sp]
        ++ combine op ++ [.sw .s5 wordSize .sp, .sw .t0 0 .sp])
    else
      let drop ← pop span (2 * wordSize)
      return Code.of span ([.lw .t0 0 .sp, .lw .t1 (2 * wordSize) .sp] ++ combine op)
        ++ drop ++ Code.of span [.sw .t0 0 .sp]

/-- Loads the address of a method into `$t0`, from an offset in the record of the receiver, which
lies at an offset on the stack. -/
def loadEntry (receiver entry : Int) : List Inst := [
  .lw .t0 receiver .sp,
  .nullCheck .t0,
  .lw .t0 classRecordOffset .t0,
  .lw .t0 entry .t0]

/-- Enters a method through the dispatch table of the receiver.  The caller's stack pointer is a
word above the frame that the callee's offsets count from. -/
def dispatch (m : MethodLayout) : Except Fault (List Inst) := do
  let receiver ← Offset.sub m.receiverOffset wordSize
  let entry ← m.entry
  return loadEntry receiver entry ++ [.jalr .t0]

theorem dispatch_eq_ok_iff {m : MethodLayout} {enter : List Inst} :
    dispatch m = .ok enter ↔
      (Offset.Fits (m.receiverOffset - wordSize) ∧ Offset.Fits m.entryOffset) ∧
        enter = loadEntry (m.receiverOffset - wordSize) m.entryOffset ++ [.jalr .t0] := by
  simp only [dispatch, bind_eq_ok_iff, pure_eq_ok_iff, Offset.sub, Offset.checked_eq_ok_iff,
    MethodLayout.entry_eq_ok_iff]
  constructor
  · rintro ⟨_, ⟨hreceiver, rfl⟩, _, ⟨hentry, rfl⟩, henter⟩
    exact ⟨⟨hreceiver, hentry⟩, henter⟩
  · rintro ⟨⟨hreceiver, hentry⟩, henter⟩
    exact ⟨_, ⟨hreceiver, rfl⟩, _, ⟨hentry, rfl⟩, henter⟩

/-- Replaces an array and an index on the stack by the element. -/
def loadElement (span : Span) (ty : Ty) : Gen Code := do
  let fetch := Code.of span ([
    .lw .t0 (2 * wordSize) .sp,
    .nullCheck .t0,
    .lw .t1 arrayLengthOffset .t0,
    .lw .t2 0 .sp,
    .boundsCheck .t2 .t1]
    ++ Inst.elementAddress .t2 .t0
    ++ [.lw .t0 0 .t2])
  if ty.isScalar then
    let drop ← pop span wordSize
    return fetch ++ drop ++ Code.of span [.sw .s5 wordSize .sp, .sw .t0 0 .sp]
  else
    let drop ← pop span (2 * wordSize)
    return fetch ++ drop ++ Code.of span [.sw .t0 0 .sp]

/-- Replaces an object on the stack by its field at an offset. -/
def loadField (span : Span) (ty : Ty) (offset : Int) : Gen Code := do
  let fetch := [.lw .t0 0 .sp, .nullCheck .t0, .lw .t0 offset .t0]
  if ty.isScalar then
    return Code.of span fetch ++ (← tagTop span)
  else
    return Code.of span (fetch ++ [.sw .t0 0 .sp])

end Gen

namespace ExprTree

open Gen

mutual

/-- The code that pushes the value of an expression. -/
def code (p : Program) (l : Layout) : ExprTree → Gen Code
  | .broken _ fault => throw fault
  | .int info value => do
    return Code.of info.span [.li .t0 value.toInt] ++ (← pushScalar info.span .t0)
  | .bool info true => do
    return Code.of info.span [.li .t0 1] ++ (← pushScalar info.span .t0)
  | .bool info false => pushScalar info.span .zero
  | .null info => pushReference info.span .zero
  | .str info _ => do
    return Code.of info.span [.la .t0 (.strLit info.id)] ++ (← pushReference info.span .t0)
  | .this info => pushReference info.span .s2
  | .super info => pushReference info.span .s2
  | .ident info var => do
    let (offset, base) ← varAddress p l var
    return Code.of info.span [.lw .t0 offset base] ++ (← pushValue info.span info.ty .t0)
  | .not info operand => do
    let value ← (operand ()).code p l
    return value ++ Code.of info.span [.lw .t0 0 .sp, .xorImm .t0 .t0 1, .sw .t0 0 .sp]
  | .binary info op lhs rhs => do
    let left ← (lhs ()).code p l
    if op.isShortCircuit then
      let decided := if op = .and then BranchOp.beq else BranchOp.bne
      let drop ← pop info.span (2 * wordSize)
      let right ← (rhs ()).code p l
      return left
        ++ Code.of info.span [.lw .t0 0 .sp, .branch decided .t0 .zero (.skip info.id)]
        ++ drop ++ right ++ Code.of info.span [.label (.skip info.id)]
    else
      let right ← (rhs ()).code p l
      return left ++ right ++ (← applyOperator info.span op (lhs ()).ty.isReference)
  | .arrayLength info array => do
    let base ← (array ()).code p l
    let fetch := [.lw .t0 0 .sp, .nullCheck .t0, .lw .t0 arrayLengthOffset .t0]
    return base ++ Code.of info.span fetch ++ (← tagTop info.span)
  | .index info array i => do
    let base ← (array ()).code p l
    let position ← (i ()).code p l
    return base ++ position ++ (← loadElement info.span info.ty)
  | .field info object var => do
    let base ← (object ()).code p l
    let offset ← l.varOffset var
    return base ++ (← loadField info.span info.ty offset)
  | .instanceOf info operand ty => do
    let value ← (operand ()).code p l
    let range ← loadClassRange p ty
    return value ++ Code.of info.span (range ++ [.callRoutine .instanceOf, .lw .t0 0 .sp])
      ++ (← tagTop info.span)
  | .cast info ty operand => do
    let value ← (operand ()).code p l
    if ← p.isSubtype (operand ()).ty ty then
      return value
    else
      let range ← loadClassRange p ty
      return value ++ Code.of info.span (range ++ [.callRoutine .checkCast])
  | .new info c => do
    let cl ← l.classAt c
    let scalars ← Offset.add cl.numScalar 1
    pushed wordSize
    let record ← p.recordName (.object c)
    return Code.of info.span ([
      .li .s6 scalars,
      .li .s7 cl.numReference,
      .callRoutine .newObject]
      ++ storeClassRecord record)
  | .newArray info elem size => do
    let length ← (size ()).code p l
    let drop ← pop info.span (2 * wordSize)
    pushed wordSize
    let record ← p.recordName info.ty
    return length ++ Code.of info.span [.lw .s7 0 .sp] ++ drop
      ++ Code.of info.span ([.li .s6 (if elem.isScalar then -1 else 1), .callRoutine .newObject]
        ++ storeClassRecord record)
  | .call info receiver method args => do
    let decl ← p.methodAt method
    if args.length ≠ decl.formals.length then
      defect (.argumentCount decl.name args.length decl.formals.length)
    let bottom ← height
    let target ← (receiver ()).code p l
    let passed ← codeAll p l args
    let enter ←
      if (receiver ()).isSuper then do pure [Inst.jal (← p.methodLabel method)]
      else do dispatch (← l.methodAt method)
    let _ ← restored bottom
    pushed decl.returnType.stackBytes
    return target ++ passed ++ Code.of info.span enter

/-- The code that pushes the values of some expressions in order. -/
def codeAll (p : Program) (l : Layout) : List (Unit → ExprTree) → Gen Code
  | [] => pure []
  | e :: es => do
    let value ← (e ()).code p l
    return value ++ (← codeAll p l es)

end

end ExprTree

end MipsBackend
