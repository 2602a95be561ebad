import MipsBackend.Proofs.Code.Frames

/-!
# How high the stack gets

The peak of a tree is the greatest number of bytes that its code has on the operand stack at any
time, counted from where it starts.  An operand is evaluated above the values of the operands before
it, a statement above the local variables declared before it in its block.

The peaks follow the generator, not the types alone: the right operand of `&&` and `||` starts where
the left one did, and arguments lie on the receiver.
-/

namespace MipsBackend

/-! ## Expressions -/

namespace ExprTree

mutual

/-- The greatest number of bytes on the stack while an expression is evaluated. -/
def peak : ExprTree → Int
  | .broken _ _ => 0
  | .int info _ | .str info _ | .bool info _ | .null info | .this info | .super info
  | .ident info _ | .new info _ => info.ty.stackBytes
  | .not info e | .arrayLength info e | .field info e _ | .instanceOf info e _ | .cast info _ e
  | .newArray info _ e => max (e ()).peak info.ty.stackBytes
  | .binary info op lhs rhs =>
    let left := if op.isShortCircuit then 0 else (lhs ()).ty.stackBytes
    max (max (lhs ()).peak (left + (rhs ()).peak)) info.ty.stackBytes
  | .index info array i =>
    max (max (array ()).peak ((array ()).ty.stackBytes + (i ()).peak)) info.ty.stackBytes
  | .call info receiver _ args =>
    max (max (receiver ()).peak ((receiver ()).ty.stackBytes + peakAll args)) info.ty.stackBytes

/-- The greatest number of bytes on the stack while some expressions are evaluated in order. -/
def peakAll : List (Unit → ExprTree) → Int
  | [] => 0
  | e :: es => max (e ()).peak ((e ()).ty.stackBytes + peakAll es)

end

/-- The value itself is on the stack in the end. -/
theorem stackBytes_le_peak (e : ExprTree) : e.ty.stackBytes ≤ e.peak := by
  cases e with
  | broken id fault => exact Int.le_refl 0
  | int | str | bool | null | this | super | ident | new => exact Int.le_refl _
  | _ =>
    rw [peak]
    exact Int.le_max_right _ _

theorem peak_nonneg (e : ExprTree) : 0 ≤ e.peak :=
  Int.le_trans e.ty.stackBytes_nonneg e.stackBytes_le_peak

end ExprTree

/-! ## Statements -/

/-- The greatest number of bytes on the stack during an assignment. -/
def assignmentPeak (target value : ExprTree) : Int :=
  match target with
  | .field _ object _ => max (object ()).peak ((object ()).ty.stackBytes + value.peak)
  | .index _ array i =>
    max (array ()).peak
      ((array ()).ty.stackBytes + max (i ()).peak ((i ()).ty.stackBytes + value.peak))
  | _ => value.peak

theorem assignmentPeak_nonneg (target value : ExprTree) : 0 ≤ assignmentPeak target value := by
  cases target with
  | field info object =>
    exact Int.le_trans (object ()).peak_nonneg (Int.le_max_left _ _)
  | index info array =>
    exact Int.le_trans (array ()).peak_nonneg (Int.le_max_left _ _)
  | _ => exact value.peak_nonneg

namespace StmtTree

mutual

/-- The greatest number of bytes on the stack while a statement runs. -/
def peak : StmtTree → Int
  | .broken _ _ | .breakFrom _ _ => 0
  | .block _ stmts => peakAll stmts
  | .localVar _ _ e | .call _ e => e.peak
  | .assign _ target value => assignmentPeak target value
  | .ifThen _ cond thenStmt => max cond.peak (thenStmt ()).peak
  | .ifElse _ cond thenStmt elseStmt =>
    max cond.peak (max (thenStmt ()).peak (elseStmt ()).peak)
  | .whileLoop _ cond body => max cond.peak (body ()).peak

/-- The greatest number of bytes on the stack while some statements run in order. -/
def peakAll : List (Unit → StmtTree) → Int
  | [] => 0
  | s :: ss => max (s ()).peak ((s ()).leftBytes + peakAll ss)

end

/-- How many bytes some statements in order leave on the stack. -/
def leftBytesAll (ss : List (Unit → StmtTree)) : Int :=
  (ss.map fun s => (s ()).leftBytes).sum

theorem leftBytesAll_cons (s : Unit → StmtTree) (ss : List (Unit → StmtTree)) :
    leftBytesAll (s :: ss) = (s ()).leftBytes + leftBytesAll ss := by
  rw [leftBytesAll, List.map_cons, List.sum_cons, leftBytesAll]

theorem leftBytesAll_nonneg (ss : List (Unit → StmtTree)) : 0 ≤ leftBytesAll ss := by
  induction ss with
  | nil => exact Int.le_refl 0
  | cons s ss ih =>
    rw [leftBytesAll_cons]
    exact Int.add_nonneg (s ()).leftBytes_nonneg ih

/-- The values that stay are on the stack in the end. -/
theorem leftBytesAll_le_peakAll (ss : List (Unit → StmtTree)) : leftBytesAll ss ≤ peakAll ss := by
  induction ss with
  | nil => exact Int.le_refl 0
  | cons s ss ih =>
    rw [leftBytesAll_cons, peakAll]
    exact Int.le_trans (Int.add_le_add_left ih _) (Int.le_max_right _ _)

theorem peakAll_nonneg (ss : List (Unit → StmtTree)) : 0 ≤ peakAll ss :=
  Int.le_trans (leftBytesAll_nonneg ss) (leftBytesAll_le_peakAll ss)

theorem leftBytes_le_peak (s : StmtTree) : s.leftBytes ≤ s.peak := by
  cases s with
  | broken | breakFrom => exact Int.le_refl 0
  | block info stmts => exact peakAll_nonneg stmts
  | localVar info x init => exact init.stackBytes_le_peak
  | call info expr => exact expr.peak_nonneg
  | assign info target value => exact assignmentPeak_nonneg target value
  | ifThen info cond | ifElse info cond | whileLoop info cond =>
    exact Int.le_trans cond.peak_nonneg (Int.le_max_left _ _)

end StmtTree

/-! ## Bodies -/

/-- The greatest number of bytes on the stack while a body runs. -/
def Body.peak (p : Program) (b : Body) : Int :=
  max (StmtTree.peakAll (b.stmts p))
    ((b.result? p).elim 0 fun result => StmtTree.leftBytesAll (b.stmts p) + result.peak)

/-- The number of bytes on the stack when a body ends: the values of the outermost block and the
result. -/
def Body.leftBytes (p : Program) (b : Body) : Int :=
  StmtTree.leftBytesAll (b.stmts p) + (b.result? p).elim 0 fun result => result.ty.stackBytes

theorem Body.leftBytes_nonneg (p : Program) (b : Body) : 0 ≤ b.leftBytes p := by
  have hstmts := StmtTree.leftBytesAll_nonneg (b.stmts p)
  rw [leftBytes]
  cases b.result? p with
  | none => exact Int.add_nonneg hstmts (Int.le_refl 0)
  | some result => exact Int.add_nonneg hstmts result.ty.stackBytes_nonneg

end MipsBackend
