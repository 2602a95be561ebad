import MipsBackend.Assembly.Sink
import MipsBackend.Program.Code
import MipsBackend.Proofs.Stateful

/-!
# Generating into a sink

Generators return code.  They can as well hand every line to a sink as soon as it is known and
return nothing: `ExprTree.emitTo`, `StmtTree.emitTo` and `Program.emitMethod` do so, in the order in
which code is put together.  `ExprTree.run_emitTo` and `StmtTree.run_emitTo` relate the two forms,
by induction on the tree: the sink receives the code that the generator returns, after whatever it
holds already.  So nothing that was emitted earlier is looked at or changed.
-/

namespace MipsBackend

open Gen

/-- A generator that hands its code to a sink. -/
abbrev Emitter (σ : Type) := StateT σ Gen

variable {σ : Type} [Sink σ]

attribute [local simp] Sink.emitAll_append Code.of_append

namespace Emitter

/-- Hands some instructions to the sink. -/
def emit (span : Span) (insts : List Inst) : Emitter σ Unit :=
  modify fun sink => Sink.emitAll sink (Code.of span insts)

/-- Pushes the scalar in a register. -/
def pushScalar (span : Span) (reg : Reg) : Emitter σ Unit := do
  emit span [.subuImm .sp .sp (2 * wordSize), .sw .s5 wordSize .sp, .sw reg 0 .sp]
  pushed (2 * wordSize)

/-- Pushes the reference in a register. -/
def pushReference (span : Span) (reg : Reg) : Emitter σ Unit := do
  emit span [.subuImm .sp .sp wordSize, .sw reg 0 .sp]
  pushed wordSize

/-- Pushes the value of a type that a register holds. -/
def pushValue (span : Span) (ty : Ty) (reg : Reg) : Emitter σ Unit :=
  if ty.isScalar then pushScalar span reg else pushReference span reg

/-- Makes a scalar of the bare word on top of the stack. -/
def tagTop (span : Span) : Emitter σ Unit := do
  emit span [.subuImm .sp .sp wordSize]
  pushed wordSize
  emit span [.sw .s5 wordSize .sp, .sw .t0 0 .sp]

/-- Pops bytes off the stack. -/
def pop (span : Span) (bytes : Int) : Emitter σ Unit := do
  if bytes ≠ 0 then
    emit span [.adduImm .sp .sp bytes]
    popped bytes

/-- Pops down to an earlier height. -/
def popTo (span : Span) (height : Int) : Emitter σ Unit := do
  let dropped ← restored height
  if dropped ≠ 0 then
    emit span [.adduImm .sp .sp dropped]

/-- Replaces two operands on the stack by the result of an operator that evaluates both. -/
def applyOperator (span : Span) (op : BinOp) (onReferences : Bool) : Emitter σ Unit := do
  match op with
  | .div =>
    emit span [.callRoutine .divide]
    popped (2 * wordSize)
  | .rem =>
    emit span [.callRoutine .remainder]
    popped (2 * wordSize)
  | op =>
    emit span [.lw .t0 0 .sp]
    if op = .eq ∧ onReferences then
      emit span [.lw .t1 wordSize .sp]
      emit span (combine op)
      emit span [.sw .s5 wordSize .sp]
    else
      emit span [.lw .t1 (2 * wordSize) .sp]
      emit span (combine op)
      pop span (2 * wordSize)
    emit span [.sw .t0 0 .sp]

/-- Replaces an array and an index on the stack by the element. -/
def loadElement (span : Span) (ty : Ty) : Emitter σ Unit := do
  emit span [.lw .t0 (2 * wordSize) .sp, .nullCheck .t0, .lw .t1 arrayLengthOffset .t0,
    .lw .t2 0 .sp, .boundsCheck .t2 .t1]
  emit span (Inst.elementAddress .t2 .t0)
  emit span [.lw .t0 0 .t2]
  if ty.isScalar then
    pop span wordSize
    emit span [.sw .s5 wordSize .sp]
  else
    pop span (2 * wordSize)
  emit span [.sw .t0 0 .sp]

/-- Replaces an object on the stack by its field at an offset. -/
def loadField (span : Span) (ty : Ty) (offset : Int) : Emitter σ Unit := do
  emit span [.lw .t0 0 .sp, .nullCheck .t0, .lw .t0 offset .t0]
  if ty.isScalar then
    tagTop span
  else
    emit span [.sw .t0 0 .sp]

/-! ## What the sink receives -/

@[simp] theorem run_emit (span : Span) (insts : List Inst) (sink : σ) :
    (emit span insts).run sink = pure ((), Sink.emitAll sink (Code.of span insts)) :=
  rfl

omit [Sink σ] in
theorem run_liftGen {α : Type} (gen : Gen α) (sink : σ) :
    (liftM gen : Emitter σ α).run sink = gen >>= fun a => pure (a, sink) :=
  rfl

omit [Sink σ] in
theorem run_liftExcept {α : Type} (op : Except Fault α) (sink : σ) :
    (liftM op : Emitter σ α).run sink = (liftM op : Gen α) >>= fun a => pure (a, sink) :=
  rfl

@[simp] theorem emitAll_nil (sink : σ) : Sink.emitAll sink [] = sink :=
  rfl

@[simp] theorem emitAll_of_nil (sink : σ) (span : Span) :
    Sink.emitAll sink (Code.of span []) = sink :=
  rfl

@[simp] theorem emitAll_of_cons (sink : σ) (span : Span) (inst : Inst) (insts : List Inst) :
    Sink.emitAll sink (Code.of span (inst :: insts)) =
      Sink.emitAll (Sink.emit sink ⟨span, inst⟩) (Code.of span insts) :=
  rfl

@[simp] theorem run_pushScalar (span : Span) (reg : Reg) (sink : σ) :
    (pushScalar span reg).run sink =
      (fun code => ((), Sink.emitAll sink code)) <$> Gen.pushScalar span reg := by
  simp [pushScalar, Gen.pushScalar]

@[simp] theorem run_pushReference (span : Span) (reg : Reg) (sink : σ) :
    (pushReference span reg).run sink =
      (fun code => ((), Sink.emitAll sink code)) <$> Gen.pushReference span reg := by
  simp [pushReference, Gen.pushReference]

@[simp] theorem run_pushValue (span : Span) (ty : Ty) (reg : Reg) (sink : σ) :
    (pushValue span ty reg).run sink =
      (fun code => ((), Sink.emitAll sink code)) <$> Gen.pushValue span ty reg := by
  unfold pushValue Gen.pushValue
  split <;> simp

@[simp] theorem run_tagTop (span : Span) (sink : σ) :
    (tagTop span).run sink = (fun code => ((), Sink.emitAll sink code)) <$> Gen.tagTop span := by
  simp [tagTop, Gen.tagTop]

@[simp] theorem run_pop (span : Span) (bytes : Int) (sink : σ) :
    (pop span bytes).run sink =
      (fun code => ((), Sink.emitAll sink code)) <$> Gen.pop span bytes := by
  by_cases hnone : bytes = 0 <;> simp [pop, Gen.pop, hnone]

@[simp] theorem run_popTo (span : Span) (height : Int) (sink : σ) :
    (popTo span height).run sink =
      (fun code => ((), Sink.emitAll sink code)) <$> Gen.popTo span height := by
  simp only [popTo, Gen.popTo, StateT.run_bind, map_bind, run_liftGen, bind_assoc, pure_bind]
  refine bind_congr fun dropped => ?_
  by_cases hnone : dropped = 0 <;> simp [hnone]

@[simp] theorem run_applyOperator (span : Span) (op : BinOp) (onReferences : Bool) (sink : σ) :
    (applyOperator span op onReferences).run sink =
      (fun code => ((), Sink.emitAll sink code)) <$> Gen.applyOperator span op onReferences := by
  cases op with
  | eq => cases onReferences <;> simp [applyOperator, Gen.applyOperator]
  | _ => simp [applyOperator, Gen.applyOperator]

@[simp] theorem run_loadElement (span : Span) (ty : Ty) (sink : σ) :
    (loadElement span ty).run sink =
      (fun code => ((), Sink.emitAll sink code)) <$> Gen.loadElement span ty := by
  by_cases hscalar : ty.isScalar <;> simp [loadElement, Gen.loadElement, hscalar]

@[simp] theorem run_loadField (span : Span) (ty : Ty) (offset : Int) (sink : σ) :
    (loadField span ty offset).run sink =
      (fun code => ((), Sink.emitAll sink code)) <$> Gen.loadField span ty offset := by
  by_cases hscalar : ty.isScalar <;> simp [loadField, Gen.loadField, hscalar]

end Emitter

namespace ExprTree

open Emitter

mutual

/-- Emits the code that pushes the value of an expression. -/
def emitTo (p : Program) (l : Layout) : ExprTree → Emitter σ Unit
  | .broken _ fault => throw fault
  | .int info value => do
    emit info.span [.li .t0 value.toInt]
    pushScalar info.span .t0
  | .bool info true => do
    emit info.span [.li .t0 1]
    pushScalar info.span .t0
  | .bool info false => pushScalar info.span .zero
  | .null info => pushReference info.span .zero
  | .str info _ => do
    emit info.span [.la .t0 (.strLit info.id)]
    pushReference info.span .t0
  | .this info => pushReference info.span .s2
  | .super info => pushReference info.span .s2
  | .ident info var => do
    let (offset, base) ← varAddress p l var
    emit info.span [.lw .t0 offset base]
    pushValue info.span info.ty .t0
  | .not info operand => do
    (operand ()).emitTo p l
    emit info.span [.lw .t0 0 .sp, .xorImm .t0 .t0 1, .sw .t0 0 .sp]
  | .binary info op lhs rhs => do
    (lhs ()).emitTo p l
    if op.isShortCircuit then
      let decided := if op = .and then BranchOp.beq else BranchOp.bne
      emit info.span [.lw .t0 0 .sp, .branch decided .t0 .zero (.skip info.id)]
      pop info.span (2 * wordSize)
      (rhs ()).emitTo p l
      emit info.span [.label (.skip info.id)]
    else
      (rhs ()).emitTo p l
      applyOperator info.span op (lhs ()).ty.isReference
  | .arrayLength info array => do
    (array ()).emitTo p l
    emit info.span [.lw .t0 0 .sp, .nullCheck .t0, .lw .t0 arrayLengthOffset .t0]
    tagTop info.span
  | .index info array i => do
    (array ()).emitTo p l
    (i ()).emitTo p l
    loadElement info.span info.ty
  | .field info object var => do
    (object ()).emitTo p l
    loadField info.span info.ty (← l.varOffset var)
  | .instanceOf info operand ty => do
    (operand ()).emitTo p l
    emit info.span (← loadClassRange p ty)
    emit info.span [.callRoutine .instanceOf, .lw .t0 0 .sp]
    tagTop info.span
  | .cast info ty operand => do
    (operand ()).emitTo p l
    unless ← p.isSubtype (operand ()).ty ty do
      emit info.span (← loadClassRange p ty)
      emit info.span [.callRoutine .checkCast]
  | .new info c => do
    let cl ← l.classAt c
    emit info.span [.li .s6 (← Offset.add cl.numScalar 1), .li .s7 cl.numReference,
      .callRoutine .newObject]
    pushed wordSize
    emit info.span (storeClassRecord (← p.recordName (.object c)))
  | .newArray info elem size => do
    (size ()).emitTo p l
    emit info.span [.lw .s7 0 .sp]
    pop info.span (2 * wordSize)
    emit info.span [.li .s6 (if elem.isScalar then -1 else 1), .callRoutine .newObject]
    pushed wordSize
    emit info.span (storeClassRecord (← p.recordName info.ty))
  | .call info receiver method args => do
    let decl ← p.methodAt method
    if args.length ≠ decl.formals.length then
      defect (.argumentCount decl.name args.length decl.formals.length)
    let bottom ← height
    (receiver ()).emitTo p l
    emitAllTo p l args
    if (receiver ()).isSuper then
      emit info.span [.jal (← p.methodLabel method)]
    else
      emit info.span (← dispatch (← l.methodAt method))
    let _ ← restored bottom
    pushed decl.returnType.stackBytes

/-- Emits the code that pushes the values of some expressions in order. -/
def emitAllTo (p : Program) (l : Layout) : List (Unit → ExprTree) → Emitter σ Unit
  | [] => pure ()
  | e :: es => do
    (e ()).emitTo p l
    emitAllTo p l es

end

/-- The sink receives the code of an expression. -/
theorem run_emitTo (p : Program) (l : Layout) (e : ExprTree) (sink : σ) :
    (e.emitTo p l).run sink = (fun code => ((), Sink.emitAll sink code)) <$> e.code p l := by
  induction e generalizing sink with
  | not info operand ih => simp [emitTo, code, ih]
  | binary info op lhs rhs ihLeft ihRight =>
    by_cases hshort : op.isShortCircuit <;> simp [emitTo, code, ihLeft, ihRight, hshort]
  | arrayLength info array ih => simp [emitTo, code, ih]
  | index info array i ihArray ihIndex => simp [emitTo, code, ihArray, ihIndex]
  | field info object var ih => simp [emitTo, code, ih]
  | instanceOf info operand ty ih => simp [emitTo, code, ih]
  | cast info ty operand ih =>
    simp only [emitTo, code, StateT.run_bind, ih, bind_map_left, map_bind, run_liftExcept,
      bind_assoc, pure_bind]
    refine bind_congr fun value => bind_congr fun known => ?_
    cases known <;> simp
  | newArray info elem size ih => simp [emitTo, code, ih]
  | call info receiver method args ihReceiver ihArgs =>
    have hargs : ∀ sink : σ, (emitAllTo p l args).run sink =
        (fun code => ((), Sink.emitAll sink code)) <$> codeAll p l args := by
      clear ihReceiver
      induction args with
      | nil => simp [emitAllTo, codeAll]
      | cons arg args ih =>
        rw [List.forall_mem_cons] at ihArgs
        simp [emitAllTo, codeAll, ihArgs.1, ih ihArgs.2]
    simp only [emitTo, code, StateT.run_bind, map_bind, run_liftExcept, bind_assoc, pure_bind]
    refine bind_congr fun decl => ?_
    by_cases hlength : args.length = decl.formals.length <;>
      by_cases hsuper : (receiver ()).isSuper <;>
        simp [hlength, hsuper, ihReceiver, hargs]
  | broken id fault => rfl
  | bool info value => cases value <;> simp [emitTo, code]
  | _ => simp [emitTo, code]

end ExprTree

/-! ## Statements -/

namespace Emitter

/-- Runs code in a scope of its own. -/
def inScope (span : Span) (body : Emitter σ Unit) : Emitter σ Unit := do
  let bottom ← height
  body
  popTo span bottom

/-- Evaluates a condition into `$t0`. -/
def condition (p : Program) (l : Layout) (span : Span) (cond : ExprTree) : Emitter σ Unit := do
  cond.emitTo p l
  emit span [.lw .t0 0 .sp]
  pop span (2 * wordSize)

/-- Evaluates an assignment. -/
def assignment (p : Program) (l : Layout) (span : Span) (target value : ExprTree) :
    Emitter σ Unit := do
  let _ ← value.kind?
  let width := value.ty.stackBytes
  match target with
  | .ident _ var =>
    value.emitTo p l
    emit span [.lw .t0 0 .sp]
    let (offset, base) ← varAddress p l var
    emit span [.sw .t0 offset base]
    pop span width
  | .field _ object var =>
    (object ()).emitTo p l
    value.emitTo p l
    emit span [.lw .t0 0 .sp, .lw .t1 width .sp, .nullCheck .t1]
    emit span [.sw .t0 (← l.varOffset var) .t1]
    pop span (width + wordSize)
  | .index _ array i =>
    (array ()).emitTo p l
    (i ()).emitTo p l
    value.emitTo p l
    emit span (storeElement width)
    pop span (width + 3 * wordSize)
  | other => defect (.notAssignable (← other.kind?))

/-- Leaves a loop. -/
def leaveLoop (span : Span) (loop : StmtId) : Emitter σ Unit := do
  let frame ← (get : Gen Frame)
  let exit ← frame.loopExit loop
  let excess ← Offset.sub (← height) exit
  if excess ≠ 0 then
    emit span [.adduImm .sp .sp excess]
  emit span [.j (.breakTarget loop)]

theorem map_liftDefect {α β : Type} (d : Defect) (g : α → β) :
    g <$> (liftM (defect d : Except Fault α) : Gen α) = liftM (defect d : Except Fault β) :=
  rfl

theorem run_inScope {body : Emitter σ Unit} {gen : Gen Code}
    (hbody : ∀ sink, body.run sink = (fun code => ((), Sink.emitAll sink code)) <$> gen)
    (span : Span) (sink : σ) : (inScope span body).run sink =
      (fun code => ((), Sink.emitAll sink code)) <$> Gen.inScope span gen := by
  simp [inScope, Gen.inScope, hbody]

@[simp] theorem run_condition (p : Program) (l : Layout) (span : Span) (cond : ExprTree)
    (sink : σ) : (condition p l span cond).run sink =
      (fun code => ((), Sink.emitAll sink code)) <$> Gen.condition p l span cond := by
  simp [condition, Gen.condition, ExprTree.run_emitTo]

@[simp] theorem run_assignment (p : Program) (l : Layout) (span : Span) (target value : ExprTree)
    (sink : σ) : (assignment p l span target value).run sink =
      (fun code => ((), Sink.emitAll sink code)) <$> Gen.assignment p l span target value := by
  cases target <;> simp [assignment, Gen.assignment, ExprTree.run_emitTo, map_liftDefect]

@[simp] theorem run_leaveLoop (span : Span) (loop : StmtId) (sink : σ) :
    (leaveLoop span loop).run sink =
      (fun code => ((), Sink.emitAll sink code)) <$> Gen.leaveLoop span loop := by
  simp only [leaveLoop, Gen.leaveLoop, StateT.run_bind, map_bind, run_liftGen, run_liftExcept,
    bind_assoc, pure_bind]
  refine bind_congr fun frame => bind_congr fun exit => bind_congr fun height =>
    bind_congr fun excess => ?_
  by_cases hnone : excess = 0 <;> simp [hnone]

end Emitter

namespace StmtTree

open Emitter

mutual

/-- Emits the code that runs a statement. -/
def emitTo (p : Program) (l : Layout) : StmtTree → Emitter σ Unit
  | .broken _ fault => throw fault
  | .block info stmts => inScope info.span (emitAllTo p l stmts)
  | .localVar _ var init => do
    init.emitTo p l
    declared var
  | .call info expr => do
    expr.emitTo p l
    pop info.span expr.ty.stackBytes
  | .assign info target value => assignment p l info.span target value
  | .ifThen info cond thenStmt => do
    condition p l info.span cond
    emit info.span [.branch .beq .t0 .zero (.ifElse info.id)]
    inScope (thenStmt ()).span ((thenStmt ()).emitTo p l)
    emit info.span [.j (.ifDone info.id), .label (.ifElse info.id)]
    emit info.span [.label (.ifDone info.id)]
  | .ifElse info cond thenStmt elseStmt => do
    condition p l info.span cond
    emit info.span [.branch .beq .t0 .zero (.ifElse info.id)]
    inScope (thenStmt ()).span ((thenStmt ()).emitTo p l)
    emit info.span [.j (.ifDone info.id), .label (.ifElse info.id)]
    inScope (elseStmt ()).span ((elseStmt ()).emitTo p l)
    emit info.span [.label (.ifDone info.id)]
  | .whileLoop info cond body => do
    (modify (·.enterLoop info.id) : Gen Unit)
    emit info.span [.j (.whileEnter info.id), .label (.whileTop info.id)]
    inScope (body ()).span ((body ()).emitTo p l)
    emit info.span [.label (.whileEnter info.id)]
    condition p l info.span cond
    emit info.span [.branch .bne .t0 .zero (.whileTop info.id), .label (.breakTarget info.id)]
  | .breakFrom info loop => leaveLoop info.span loop

/-- Emits the code of statements in order. -/
def emitAllTo (p : Program) (l : Layout) : List (Unit → StmtTree) → Emitter σ Unit
  | [] => pure ()
  | s :: ss => do
    (s ()).emitTo p l
    emitAllTo p l ss

end

theorem run_emitAllTo_of_forall {p : Program} {l : Layout} {ss : List (Unit → StmtTree)}
    (h : ∀ s ∈ ss, ∀ sink : σ, ((s ()).emitTo p l).run sink =
      (fun code => ((), Sink.emitAll sink code)) <$> (s ()).code p l) (sink : σ) :
    (emitAllTo p l ss).run sink =
      (fun code => ((), Sink.emitAll sink code)) <$> codeAll p l ss := by
  induction ss generalizing sink with
  | nil => simp [emitAllTo, codeAll]
  | cons s ss ih =>
    rw [List.forall_mem_cons] at h
    simp [emitAllTo, codeAll, h.1, ih h.2]

/-- The sink receives the code of a statement. -/
theorem run_emitTo (p : Program) (l : Layout) (s : StmtTree) (sink : σ) :
    (s.emitTo p l).run sink = (fun code => ((), Sink.emitAll sink code)) <$> s.code p l := by
  induction s generalizing sink with
  | broken id fault => rfl
  | block info stmts ih =>
    rw [emitTo, code]
    exact run_inScope (run_emitAllTo_of_forall ih) info.span sink
  | localVar info var init => simp [emitTo, code, ExprTree.run_emitTo]
  | call info expr => simp [emitTo, code, ExprTree.run_emitTo]
  | assign info target value => simp [emitTo, code]
  | ifThen info cond thenStmt ih => simp [emitTo, code, run_inScope ih]
  | ifElse info cond thenStmt elseStmt ihThen ihElse =>
    simp [emitTo, code, run_inScope ihThen, run_inScope ihElse]
  | whileLoop info cond body ih =>
    simp only [emitTo, code, StateT.run_bind, map_bind, run_liftGen, bind_assoc, pure_bind]
    refine bind_congr fun _ => ?_
    simp [run_inScope ih]
  | breakFrom info loop => simp [emitTo, code]

theorem run_emitAllTo (p : Program) (l : Layout) (ss : List (Unit → StmtTree)) (sink : σ) :
    (emitAllTo p l ss).run sink =
      (fun code => ((), Sink.emitAll sink code)) <$> codeAll p l ss :=
  run_emitAllTo_of_forall (fun s _ => (s ()).run_emitTo p l) sink

end StmtTree

end MipsBackend
