import MipsBackend.StmtTree.Code

/-!
# Code of a program

A caller pushes the receiver and then the arguments.  The prologue of a method saves `$s2` below
them, loads the receiver into `$s2` and keeps the return address in the receiver's slot.  The
epilogue pops everything from there on and leaves the result, if any, in its place.
-/

namespace MipsBackend

open Gen

/-- Saves the caller's receiver and the return address. -/
def prologue (receiverOffset : Int) : List Inst := [
  .subuImm .sp .sp wordSize,
  .sw .s2 0 .sp,
  .lw .s2 receiverOffset .sp,
  .sw .ra receiverOffset .sp]

/-- Moves the result from the top of the stack to the receiver's place. -/
def storeResult (ty : Ty) (receiverSlot : Int) : Except Fault (List Inst) :=
  if ty.isVoid then
    .ok []
  else if ty.isScalar then do
    let data ← Offset.sub receiverSlot wordSize
    return [.lw .t0 0 .sp, .sw .t0 data .sp, .sw .s5 receiverSlot .sp]
  else
    .ok [.lw .t0 0 .sp, .sw .t0 receiverSlot .sp]

/-- Restores what the prologue saved, leaves the result and returns. -/
def epilogue (receiverOffset height : Int) (returnType : Ty) : Except Fault (List Inst) := do
  let receiverSlot ← Offset.add receiverOffset height
  let result ← storeResult returnType receiverSlot
  let bottom ← Offset.add (← Offset.add height wordSize) receiverOffset
  let drop ← Offset.sub bottom returnType.stackBytes
  return [.lw .ra receiverSlot .sp, .lw .s2 height .sp] ++ result
    ++ [.adduImm .sp .sp drop, .jr .ra]

/-- Generates the result of a method.  The outcome tells the source of the epilogue. -/
def MethodDecl.resultCode (p : Program) (l : Layout) (decl : MethodDecl) :
    Gen (Code × Span) := do
  match decl.result, decl.isVoid with
  | some result, false =>
    let tree := p.exprTree result
    return (← tree.code p l, tree.span)
  | none, true => return ([], decl.span)
  | _, _ => defect (.resultMismatch decl.name decl.returnType)

namespace Program

/-- The code of a method of the program. -/
def methodCode (p : Program) (l : Layout) (id : MethodId) : Except Fault Code := do
  let decl ← p.methodAt id
  if decl.origin.isRuntime then
    defect (.runtimeMethodBody decl.name)
  let label ← p.methodLabel id
  let receiverOffset := (← l.methodAt id).receiverOffset
  let generate : Gen (Code × Code × Span) := do
    let body ← StmtTree.codeAll p l (decl.body.map fun s _ => p.stmtTree s)
    return (body, ← decl.resultCode p l)
  let ((body, result, span), frame) ← generate.run .empty
  return Code.of decl.span ([.globl label, .label label] ++ prologue receiverOffset)
    ++ body ++ result
    ++ Code.of span (← epilogue receiverOffset frame.height decl.returnType)

/-- The code of the entry point: it starts the runtime, runs the main statement and exits. -/
def entryCode (p : Program) (l : Layout) : Except Fault Code := do
  let span ←
    match p.main with
    | some main => do pure (← p.stmtAt main).span
    | none => pure .dummy
  let body ←
    match p.main with
    | some main => do pure (← ((p.stmtTree main).scopedCode p l).run .empty).1
    | none => pure []
  return Code.of .dummy [.segment .code]
    ++ Code.of span [.globl .main, .label .main, .callRoutine .vmInit]
    ++ body
    ++ Code.of span [.li .v0 10, .syscall]

end Program

end MipsBackend
