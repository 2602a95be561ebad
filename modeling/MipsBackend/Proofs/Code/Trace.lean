import MipsBackend.Proofs.Code.Steps

/-!
# Traces of the code generator

A trace is the code of a node with marks in it: where the generator came to a node, where it was
done with it, and how high the frame was there.  The traced generators go through a tree as the
generators of code do and leave such marks.  That is all that they add:

* without its marks, the trace of a node is the node's code (`ExprTree.code_map_traced`,
  `StmtTree.code_map_traced`), and the same for a whole method and for the entry point;
* the nodes that a trace starts are nodes of the tree, each as often as it occurs there
  (`ExprTree.started_traced`, `StmtTree.started_traced`).
-/

namespace MipsBackend

/-- A statement or an expression, by its position. -/
inductive Node where
  | stmt (id : StmtId)
  | expr (id : ExprId)
deriving DecidableEq

/-- A line of code, or a mark at a node with the height of the frame there. -/
inductive Event where
  | line (line : Line)
  | starts (node : Node) (height : Int)
  | ends (node : Node) (height : Int)
deriving DecidableEq

/-- The line that an event is. -/
def Event.line? : Event → Option Line
  | .line l => some l
  | .starts _ _ | .ends _ _ => none

/-- The node that an event starts. -/
def Event.started? : Event → Option Node
  | .starts node _ => some node
  | .line _ | .ends _ _ => none

/-- The height of the frame, where the event is a mark. -/
def Event.height? : Event → Option Int
  | .starts _ height | .ends _ height => some height
  | .line _ => none

/-- Code with marks in it. -/
abbrev Trace := List Event

namespace Trace

/-- Code without any marks. -/
def ofCode (code : Code) : Trace :=
  code.map Event.line

theorem ofCode_append (c d : Code) : ofCode (c ++ d) = ofCode c ++ ofCode d :=
  List.map_append

/-- Instructions that are all generated for one node. -/
def of (span : Span) (insts : List Inst) : Trace :=
  ofCode (.of span insts)

/-- The code without the marks. -/
def code (t : Trace) : Code :=
  t.filterMap Event.line?

/-- The nodes that the trace starts, in order. -/
def started (t : Trace) : List Node :=
  t.filterMap Event.started?

@[simp] theorem code_nil : code [] = [] :=
  rfl

@[simp] theorem code_append (t u : Trace) : code (t ++ u) = code t ++ code u := by
  simp [code]

@[simp] theorem code_ofCode (c : Code) : code (ofCode c) = c := by
  simp [code, ofCode, Event.line?, Function.comp_def]

@[simp] theorem code_of (span : Span) (insts : List Inst) :
    code (of span insts) = .of span insts :=
  code_ofCode _

@[simp] theorem code_line (l : Line) (t : Trace) : code (.line l :: t) = l :: code t :=
  rfl

@[simp] theorem code_starts (node : Node) (h : Int) (t : Trace) :
    code (.starts node h :: t) = code t :=
  rfl

@[simp] theorem code_ends (node : Node) (h : Int) (t : Trace) :
    code (.ends node h :: t) = code t :=
  rfl

@[simp] theorem code_map_ite {m : Type → Type} [Functor m] (c : Prop) [Decidable c]
    (op op' : m Trace) :
    code <$> (if c then op else op') = if c then code <$> op else code <$> op' :=
  apply_ite _ c op op'

theorem code_mark {e : Event} {h : Int} (he : e.height? = some h) (t : Trace) :
    code (e :: t) = code t := by
  cases e with
  | line l => simp [Event.height?] at he
  | starts _ _ => rfl
  | ends _ _ => rfl

@[simp] theorem started_nil : started [] = [] :=
  rfl

@[simp] theorem started_append (t u : Trace) : started (t ++ u) = started t ++ started u := by
  simp [started]

@[simp] theorem started_ofCode (c : Code) : started (ofCode c) = [] := by
  simp [started, ofCode, Event.started?]

@[simp] theorem started_of (span : Span) (insts : List Inst) : started (of span insts) = [] :=
  started_ofCode _

@[simp] theorem started_starts (node : Node) (h : Int) (t : Trace) :
    started (.starts node h :: t) = node :: started t :=
  rfl

@[simp] theorem started_ends (node : Node) (h : Int) (t : Trace) :
    started (.ends node h :: t) = started t :=
  rfl

/-- The trace starts nodes at the heights that are given for them. -/
def StartsAt (t : Trace) (heights : Node → Int) : Prop :=
  ∀ node h, .starts node h ∈ t → heights node = h

@[simp] theorem startsAt_append {t u : Trace} {heights : Node → Int} :
    StartsAt (t ++ u) heights ↔ t.StartsAt heights ∧ u.StartsAt heights := by
  simp only [StartsAt, List.mem_append, or_imp, forall_and]

@[simp] theorem startsAt_starts {t : Trace} {heights : Node → Int} {node : Node} {h : Int} :
    StartsAt (.starts node h :: t) heights ↔ heights node = h ∧ t.StartsAt heights := by
  simp only [StartsAt, List.mem_cons, Event.starts.injEq, or_imp, forall_and, and_imp]
  simp

@[simp] theorem startsAt_ofCode (c : Code) (heights : Node → Int) :
    (ofCode c).StartsAt heights := by
  simp [StartsAt, ofCode]

@[simp] theorem startsAt_of (span : Span) (insts : List Inst) (heights : Node → Int) :
    (of span insts).StartsAt heights :=
  startsAt_ofCode _ _

@[simp] theorem startsAt_ends (node : Node) (h : Int) (heights : Node → Int) :
    StartsAt [.ends node h] heights := by
  simp [StartsAt]

/-- Where no node is started twice, there are heights at which all are started. -/
theorem exists_startsAt {t : Trace} (h : t.started.Nodup) :
    ∃ heights : Node → Int, t.StartsAt heights := by
  induction t with
  | nil => exact ⟨fun _ => 0, by simp [StartsAt]⟩
  | cons e t ih =>
    cases e with
    | line l =>
      obtain ⟨heights, hheights⟩ := ih h
      exact ⟨heights, by simpa [StartsAt] using hheights⟩
    | ends node height =>
      obtain ⟨heights, hheights⟩ := ih h
      exact ⟨heights, by simpa [StartsAt] using hheights⟩
    | starts node height =>
      rw [started_starts, List.nodup_cons] at h
      obtain ⟨heights, hheights⟩ := ih h.2
      refine ⟨Function.update heights node height, ?_⟩
      rw [startsAt_starts]
      refine ⟨Function.update_self .., fun other k hother => ?_⟩
      have hne : other ≠ node := by
        rintro rfl
        exact h.1 (List.mem_filterMap.2 ⟨_, hother, rfl⟩)
      rw [Function.update_of_ne hne]
      exact hheights other k hother

end Trace

namespace Gen

/-- Marks where a generator starts and ends on a node. -/
def visiting (node : Node) (body : Gen Trace) : Gen Trace := do
  let start ← height
  let inner ← body
  let stop ← height
  return .starts node start :: inner ++ [.ends node stop]

theorem visiting_run {node : Node} {body : Gen Trace} {t : Trace} {f f' : Frame} :
    (visiting node body).run f = .ok (t, f') ↔ ∃ inner, body.run f = .ok (inner, f') ∧
      t = .starts node f.height :: inner ++ [.ends node f'.height] := by
  simp only [visiting, run_bind_eq_ok_iff, height_run, run_pure_eq_ok_iff]
  constructor
  · rintro ⟨_, _, ⟨rfl, rfl⟩, inner, _, hinner, _, _, ⟨rfl, rfl⟩, rfl, rfl⟩
    exact ⟨inner, hinner, rfl⟩
  · rintro ⟨inner, hinner, rfl⟩
    exact ⟨_, _, ⟨rfl, rfl⟩, inner, _, hinner, _, _, ⟨rfl, rfl⟩, rfl, rfl⟩

/-- A generator of code as one of traces. -/
def unmarked (gen : Gen Code) : Gen Trace := do
  return .ofCode (← gen)

@[simp] theorem code_map_visiting (node : Node) (body : Gen Trace) :
    Trace.code <$> visiting node body = Trace.code <$> body := by
  apply StateT.ext
  intro f
  simp [visiting, height]

@[simp] theorem code_map_unmarked (gen : Gen Code) : Trace.code <$> unmarked gen = gen := by
  simp [unmarked]

end Gen

namespace ExprTree

open Gen

mutual

/-- The nodes of an expression, in the order in which the generator comes to them. -/
def nodes : ExprTree → List Node
  | .not info operand | .instanceOf info operand _ | .cast info _ operand =>
    .expr info.id :: (operand ()).nodes
  | .arrayLength info array => .expr info.id :: (array ()).nodes
  | .field info object _ => .expr info.id :: (object ()).nodes
  | .newArray info _ size => .expr info.id :: (size ()).nodes
  | .binary info _ lhs rhs => .expr info.id :: ((lhs ()).nodes ++ (rhs ()).nodes)
  | .index info array i => .expr info.id :: ((array ()).nodes ++ (i ()).nodes)
  | .call info receiver _ args => .expr info.id :: ((receiver ()).nodes ++ nodesAll args)
  | e => [.expr e.id]

/-- The nodes of some expressions in order. -/
def nodesAll : List (Unit → ExprTree) → List Node
  | [] => []
  | e :: es => (e ()).nodes ++ nodesAll es

end

mutual

/-- The trace of an expression. -/
def traced (p : Program) (l : Layout) : ExprTree → Gen Trace
  | .not info operand => visiting (.expr info.id) do
    let value ← (operand ()).traced p l
    return value ++ .of info.span [.lw .t0 0 .sp, .xorImm .t0 .t0 1, .sw .t0 0 .sp]
  | .binary info op lhs rhs => visiting (.expr info.id) do
    let left ← (lhs ()).traced p l
    if op.isShortCircuit then
      let decided := if op = .and then BranchOp.beq else BranchOp.bne
      let drop ← pop info.span (2 * wordSize)
      let right ← (rhs ()).traced p l
      return left
        ++ .of info.span [.lw .t0 0 .sp, .branch decided .t0 .zero (.skip info.id)]
        ++ .ofCode drop ++ right ++ .of info.span [.label (.skip info.id)]
    else
      let right ← (rhs ()).traced p l
      return left ++ right ++ .ofCode (← applyOperator info.span op (lhs ()).ty.isReference)
  | .arrayLength info array => visiting (.expr info.id) do
    let base ← (array ()).traced p l
    let fetch := [.lw .t0 0 .sp, .nullCheck .t0, .lw .t0 arrayLengthOffset .t0]
    return base ++ .of info.span fetch ++ .ofCode (← tagTop info.span)
  | .index info array i => visiting (.expr info.id) do
    let base ← (array ()).traced p l
    let position ← (i ()).traced p l
    return base ++ position ++ .ofCode (← loadElement info.span info.ty)
  | .field info object var => visiting (.expr info.id) do
    let base ← (object ()).traced p l
    let offset ← l.varOffset var
    return base ++ .ofCode (← loadField info.span info.ty offset)
  | .instanceOf info operand ty => visiting (.expr info.id) do
    let value ← (operand ()).traced p l
    let range ← loadClassRange p ty
    return value ++ .of info.span (range ++ [.callRoutine .instanceOf, .lw .t0 0 .sp])
      ++ .ofCode (← tagTop info.span)
  | .cast info ty operand => visiting (.expr info.id) do
    let value ← (operand ()).traced p l
    if ← p.isSubtype (operand ()).ty ty then
      return value
    else
      let range ← loadClassRange p ty
      return value ++ .of info.span (range ++ [.callRoutine .checkCast])
  | .newArray info elem size => visiting (.expr info.id) do
    let length ← (size ()).traced p l
    let drop ← pop info.span (2 * wordSize)
    pushed wordSize
    let record ← p.recordName info.ty
    return length ++ .of info.span [.lw .s7 0 .sp] ++ .ofCode drop
      ++ .of info.span ([.li .s6 (if elem.isScalar then -1 else 1), .callRoutine .newObject]
        ++ storeClassRecord record)
  | .call info receiver method args => visiting (.expr info.id) do
    let decl ← p.methodAt method
    if args.length ≠ decl.formals.length then
      defect (.argumentCount decl.name args.length decl.formals.length)
    let bottom ← height
    let target ← (receiver ()).traced p l
    let passed ← tracedAll p l args
    let enter ←
      if (receiver ()).isSuper then do pure [Inst.jal (← p.methodLabel method)]
      else do dispatch (← l.methodAt method)
    let _ ← restored bottom
    pushed decl.returnType.stackBytes
    return target ++ passed ++ .of info.span enter
  | e => visiting (.expr e.id) (unmarked (e.code p l))

/-- The trace of some expressions in order. -/
def tracedAll (p : Program) (l : Layout) : List (Unit → ExprTree) → Gen Trace
  | [] => pure []
  | e :: es => do
    let value ← (e ()).traced p l
    return value ++ (← tracedAll p l es)

end

theorem nodesAll_append (es es' : List (Unit → ExprTree)) :
    nodesAll (es ++ es') = nodesAll es ++ nodesAll es' := by
  induction es with
  | nil => rfl
  | cons e es ih => rw [List.cons_append, nodesAll, nodesAll, ih, List.append_assoc]

/-- The trace of an expression has the code of the expression. -/
theorem code_map_traced (p : Program) (l : Layout) (e : ExprTree) :
    Trace.code <$> e.traced p l = e.code p l := by
  induction e with
  | call info receiver method args ihReceiver ihArgs =>
    have hargs : Trace.code <$> tracedAll p l args = codeAll p l args := by
      clear ihReceiver
      induction args with
      | nil => simp [tracedAll, codeAll]
      | cons arg args ih =>
        rw [List.forall_mem_cons] at ihArgs
        simp [tracedAll, codeAll, ← ihArgs.1, ← ih ihArgs.2]
    simp [traced, code, ← ihReceiver, ← hargs]
  | not info operand ih => simp [traced, code, ← ih]
  | binary info op lhs rhs ihLeft ihRight => simp [traced, code, ← ihLeft, ← ihRight]
  | arrayLength info array ih => simp [traced, code, ← ih]
  | index info array i ihArray ihIndex => simp [traced, code, ← ihArray, ← ihIndex]
  | field info object var ih => simp [traced, code, ← ih]
  | instanceOf info operand ty ih => simp [traced, code, ← ih]
  | cast info ty operand ih => simp [traced, code, ← ih]
  | newArray info elem size ih => simp [traced, code, ← ih]
  | _ => simp [traced, code]

/-- The trace of a call is that of the receiver and the arguments, and then enters the method. -/
theorem call_traced_run {p : Program} {l : Layout} {info : ExprInfo} {receiver : Unit → ExprTree}
    {method : MethodId} {args : List (Unit → ExprTree)} {t : Trace} {f f' : Frame}
    (h : ((ExprTree.call info receiver method args).traced p l).run f = .ok (t, f')) :
    ∃ decl target passed enter f₁ f₂, p.methodAt method = .ok decl ∧
      args.length = decl.formals.length ∧
      ((receiver ()).traced p l).run f = .ok (target, f₁) ∧
      (tracedAll p l args).run f₁ = .ok (passed, f₂) ∧
      Enters p l (receiver ()).isSuper method enter ∧
      f' = { f₂ with height := f.height + decl.returnType.stackBytes } ∧
      t = .starts (.expr info.id) f.height :: (target ++ passed ++ .of info.span enter)
        ++ [.ends (.expr info.id) f'.height] := by
  rw [traced, visiting_run] at h
  obtain ⟨inner, hinner, rfl⟩ := h
  obtain ⟨decl, target, passed, enter, f₁, f₂, hdecl, hlength, htarget, hpassed, henter, hf',
    rfl⟩ := Gen.call_run hinner
  exact ⟨decl, target, passed, enter, f₁, f₂, hdecl, hlength, htarget, hpassed, henter, hf', rfl⟩

theorem started_tracedAll {p : Program} {l : Layout} {es : List (Unit → ExprTree)} {t : Trace}
    {f f' : Frame} (h : (tracedAll p l es).run f = .ok (t, f'))
    (heach : ∀ e ∈ es, ∀ {t f f'}, ((e ()).traced p l).run f = .ok (t, f') →
      t.started = (e ()).nodes) : t.started = nodesAll es := by
  induction es generalizing t f f' with
  | nil =>
    obtain ⟨rfl, _⟩ := run_pure_eq_ok_iff.1 h
    rfl
  | cons e es ih =>
    rw [List.forall_mem_cons] at heach
    simp only [tracedAll, run_bind_eq_ok_iff, run_pure_eq_ok_iff] at h
    obtain ⟨value, _, hvalue, rest, _, hrest, rfl, rfl⟩ := h
    rw [Trace.started_append, heach.1 hvalue, ih hrest heach.2, nodesAll]

/-- A trace starts every node of the expression, in order. -/
theorem started_traced {p : Program} {l : Layout} {e : ExprTree} {t : Trace} {f f' : Frame}
    (h : (e.traced p l).run f = .ok (t, f')) : t.started = e.nodes := by
  induction e generalizing t f f' with
  | not info operand ih =>
    simp only [traced, visiting_run, run_bind_eq_ok_iff, run_pure_eq_ok_iff] at h
    obtain ⟨_, ⟨value, _, hvalue, rfl, rfl⟩, rfl⟩ := h
    simp [nodes, ih hvalue]
  | binary info op lhs rhs ihLeft ihRight =>
    simp only [traced, visiting_run, run_bind_eq_ok_iff] at h
    obtain ⟨_, ⟨left, f₁, hleft, h⟩, rfl⟩ := h
    split at h
    · simp only [run_bind_eq_ok_iff, run_pure_eq_ok_iff] at h
      obtain ⟨_, f₂, _, right, _, hright, rfl, rfl⟩ := h
      simp [nodes, ihLeft hleft, ihRight hright]
    · simp only [run_bind_eq_ok_iff, run_pure_eq_ok_iff] at h
      obtain ⟨right, f₂, hright, _, _, _, rfl, rfl⟩ := h
      simp [nodes, ihLeft hleft, ihRight hright]
  | arrayLength info array ih =>
    simp only [traced, visiting_run, run_bind_eq_ok_iff, run_pure_eq_ok_iff] at h
    obtain ⟨_, ⟨base, _, hbase, _, _, _, rfl, rfl⟩, rfl⟩ := h
    simp [nodes, ih hbase]
  | index info array i ihArray ihIndex =>
    simp only [traced, visiting_run, run_bind_eq_ok_iff, run_pure_eq_ok_iff] at h
    obtain ⟨_, ⟨base, _, hbase, position, _, hposition, _, _, _, rfl, rfl⟩, rfl⟩ := h
    simp [nodes, ihArray hbase, ihIndex hposition]
  | field info object var ih =>
    simp only [traced, visiting_run, run_bind_eq_ok_iff, run_pure_eq_ok_iff] at h
    obtain ⟨_, ⟨base, _, hbase, _, _, _, _, _, _, rfl, rfl⟩, rfl⟩ := h
    simp [nodes, ih hbase]
  | instanceOf info operand ty ih =>
    simp only [traced, visiting_run, run_bind_eq_ok_iff, run_pure_eq_ok_iff] at h
    obtain ⟨_, ⟨value, _, hvalue, _, _, _, _, _, _, rfl, rfl⟩, rfl⟩ := h
    simp [nodes, ih hvalue]
  | cast info ty operand ih =>
    simp only [traced, visiting_run, run_bind_eq_ok_iff] at h
    obtain ⟨_, ⟨value, _, hvalue, _, _, _, h⟩, rfl⟩ := h
    split at h
    · obtain ⟨rfl, _⟩ := run_pure_eq_ok_iff.1 h
      simp [nodes, ih hvalue]
    · simp only [run_bind_eq_ok_iff, run_pure_eq_ok_iff] at h
      obtain ⟨_, _, _, rfl, _⟩ := h
      simp [nodes, ih hvalue]
  | newArray info elem size ih =>
    simp only [traced, visiting_run, run_bind_eq_ok_iff, run_pure_eq_ok_iff] at h
    obtain ⟨_, ⟨length, _, hlength, _, _, _, _, _, _, _, _, _, rfl, rfl⟩, rfl⟩ := h
    simp [nodes, ih hlength]
  | call info receiver method args ihReceiver ihArgs =>
    obtain ⟨_, target, passed, _, _, _, _, _, htarget, hpassed, _, _, rfl⟩ := call_traced_run h
    simp [nodes, ihReceiver htarget, started_tracedAll hpassed fun e he _ _ _ => ihArgs e he]
  | _ =>
    simp only [traced, visiting_run, unmarked, run_bind_eq_ok_iff, run_pure_eq_ok_iff] at h
    obtain ⟨_, ⟨_, _, _, rfl, rfl⟩, rfl⟩ := h
    simp [nodes, id]

end ExprTree

/-! ## Statements -/

namespace Gen

/-- The trace of a scope. -/
def inTracedScope (span : Span) (body : Gen Trace) : Gen Trace := do
  let bottom ← height
  let inner ← body
  return inner ++ .ofCode (← popTo span bottom)

/-- The trace of a condition. -/
def tracedCondition (p : Program) (l : Layout) (span : Span) (cond : ExprTree) : Gen Trace := do
  let value ← cond.traced p l
  return value ++ .of span [.lw .t0 0 .sp] ++ .ofCode (← pop span (2 * wordSize))

/-- The trace of an assignment. -/
def tracedAssignment (p : Program) (l : Layout) (span : Span) (target value : ExprTree) :
    Gen Trace := do
  let _ ← value.kind?
  let width := value.ty.stackBytes
  match target with
  | .ident _ var =>
    let result ← value.traced p l
    let (offset, base) ← varAddress p l var
    return result ++ .of span [.lw .t0 0 .sp, .sw .t0 offset base] ++ .ofCode (← pop span width)
  | .field _ object var =>
    let base ← (object ()).traced p l
    let result ← value.traced p l
    let offset ← l.varOffset var
    return base ++ result
      ++ .of span [.lw .t0 0 .sp, .lw .t1 width .sp, .nullCheck .t1, .sw .t0 offset .t1]
      ++ .ofCode (← pop span (width + wordSize))
  | .index _ array i =>
    let base ← (array ()).traced p l
    let position ← (i ()).traced p l
    let result ← value.traced p l
    return base ++ position ++ result ++ .of span (storeElement width)
      ++ .ofCode (← pop span (width + 3 * wordSize))
  | other => defect (.notAssignable (← other.kind?))

end Gen

namespace StmtTree

open Gen

mutual

/-- The nodes of a statement, in the order in which the generator comes to them.  It comes to the
body of a loop before the condition, and to the parts of a target only. -/
def nodes : StmtTree → List Node
  | .broken id _ => [.stmt id]
  | .block info stmts => .stmt info.id :: nodesAll stmts
  | .localVar info _ init => .stmt info.id :: init.nodes
  | .call info expr => .stmt info.id :: expr.nodes
  | .assign info target value => .stmt info.id :: (target.nodes ++ value.nodes)
  | .ifThen info cond thenStmt => .stmt info.id :: (cond.nodes ++ (thenStmt ()).nodes)
  | .ifElse info cond thenStmt elseStmt =>
    .stmt info.id :: (cond.nodes ++ (thenStmt ()).nodes ++ (elseStmt ()).nodes)
  | .whileLoop info cond body => .stmt info.id :: ((body ()).nodes ++ cond.nodes)
  | .breakFrom info _ => [.stmt info.id]

/-- The nodes of some statements in order. -/
def nodesAll : List (Unit → StmtTree) → List Node
  | [] => []
  | s :: ss => (s ()).nodes ++ nodesAll ss

end

mutual

/-- The trace of a statement. -/
def traced (p : Program) (l : Layout) : StmtTree → Gen Trace
  | .broken _ fault => throw fault
  | .block info stmts => visiting (.stmt info.id) (inTracedScope info.span (tracedAll p l stmts))
  | .localVar info var init => visiting (.stmt info.id) do
    let value ← init.traced p l
    declared var
    return value
  | .call info expr => visiting (.stmt info.id) do
    let value ← expr.traced p l
    return value ++ .ofCode (← pop info.span expr.ty.stackBytes)
  | .assign info target value =>
    visiting (.stmt info.id) (tracedAssignment p l info.span target value)
  | .ifThen info cond thenStmt => visiting (.stmt info.id) do
    let test ← tracedCondition p l info.span cond
    let body ← inTracedScope (thenStmt ()).span ((thenStmt ()).traced p l)
    return test ++ .of info.span [.branch .beq .t0 .zero (.ifElse info.id)]
      ++ body
      ++ .of info.span [.j (.ifDone info.id), .label (.ifElse info.id), .label (.ifDone info.id)]
  | .ifElse info cond thenStmt elseStmt => visiting (.stmt info.id) do
    let test ← tracedCondition p l info.span cond
    let body ← inTracedScope (thenStmt ()).span ((thenStmt ()).traced p l)
    let other ← inTracedScope (elseStmt ()).span ((elseStmt ()).traced p l)
    return test ++ .of info.span [.branch .beq .t0 .zero (.ifElse info.id)]
      ++ body
      ++ .of info.span [.j (.ifDone info.id), .label (.ifElse info.id)]
      ++ other
      ++ .of info.span [.label (.ifDone info.id)]
  | .whileLoop info cond body => visiting (.stmt info.id) do
    modify (·.enterLoop info.id)
    let turn ← inTracedScope (body ()).span ((body ()).traced p l)
    let test ← tracedCondition p l info.span cond
    return .of info.span [.j (.whileEnter info.id), .label (.whileTop info.id)]
      ++ turn
      ++ .of info.span [.label (.whileEnter info.id)]
      ++ test
      ++ .of info.span [.branch .bne .t0 .zero (.whileTop info.id), .label (.breakTarget info.id)]
  | .breakFrom info loop => visiting (.stmt info.id) (unmarked (leaveLoop info.span loop))

/-- The trace of statements in order. -/
def tracedAll (p : Program) (l : Layout) : List (Unit → StmtTree) → Gen Trace
  | [] => pure []
  | s :: ss => do
    let first ← (s ()).traced p l
    return first ++ (← tracedAll p l ss)

end

end StmtTree

namespace Gen

variable {p : Program} {l : Layout} {span : Span}

@[simp] theorem code_map_defect (d : Defect) :
    Trace.code <$> (liftM (defect d : Except Fault Trace) : Gen Trace) = liftM (defect d) :=
  rfl

@[simp] theorem code_map_inTracedScope (body : Gen Trace) :
    Trace.code <$> inTracedScope span body = inScope span (Trace.code <$> body) := by
  simp [inTracedScope, inScope]

@[simp] theorem code_map_tracedCondition (cond : ExprTree) :
    Trace.code <$> tracedCondition p l span cond = condition p l span cond := by
  simp [tracedCondition, condition, ← ExprTree.code_map_traced]

@[simp] theorem code_map_tracedAssignment (target value : ExprTree) :
    Trace.code <$> tracedAssignment p l span target value = assignment p l span target value := by
  cases target <;> simp [tracedAssignment, assignment, ← ExprTree.code_map_traced]

theorem inTracedScope_run {body : Gen Trace} {t : Trace} {f f' : Frame}
    (h : (inTracedScope span body).run f = .ok (t, f')) :
    ∃ inner f₁, body.run f = .ok (inner, f₁) ∧
      t = inner ++ .ofCode (dropCode span (f₁.height - f.height)) ∧
      f' = { f₁ with height := f.height } := by
  simp only [inTracedScope, run_bind_eq_ok_iff, run_pure_eq_ok_iff, height_run] at h
  obtain ⟨_, _, ⟨rfl, rfl⟩, inner, f₁, hbody, drop, _, hdrop, rfl, rfl⟩ := h
  obtain ⟨_, rfl, rfl⟩ := popTo_run hdrop
  exact ⟨inner, f₁, hbody, rfl, rfl⟩

theorem tracedCondition_run {cond : ExprTree} {t : Trace} {f f' : Frame}
    (h : (tracedCondition p l span cond).run f = .ok (t, f')) :
    ∃ value f₁, (cond.traced p l).run f = .ok (value, f₁) ∧
      t = value ++ .of span [.lw .t0 0 .sp] ++ .ofCode (dropCode span (2 * wordSize)) ∧
      f' = { f₁ with height := f₁.height - 2 * wordSize } := by
  simp only [tracedCondition, run_bind_eq_ok_iff, run_pure_eq_ok_iff] at h
  obtain ⟨value, f₁, hvalue, drop, _, hdrop, rfl, rfl⟩ := h
  obtain ⟨rfl, rfl⟩ := pop_run hdrop
  exact ⟨value, f₁, hvalue, rfl, rfl⟩

theorem started_inTracedScope {body : Gen Trace} {t : Trace} {f f' : Frame} {nodes : List Node}
    (h : (inTracedScope span body).run f = .ok (t, f'))
    (hbody : ∀ {t f'}, body.run f = .ok (t, f') → t.started.Sublist nodes) :
    t.started.Sublist nodes := by
  obtain ⟨inner, _, hinner, rfl, _⟩ := inTracedScope_run h
  simpa using hbody hinner

theorem started_tracedCondition {cond : ExprTree} {t : Trace} {f f' : Frame}
    (h : (tracedCondition p l span cond).run f = .ok (t, f')) : t.started = cond.nodes := by
  obtain ⟨value, _, hvalue, rfl, _⟩ := tracedCondition_run h
  simpa using ExprTree.started_traced hvalue

/-- An assignment starts no node but those of the value and of the parts of the target. -/
theorem started_tracedAssignment {target value : ExprTree} {t : Trace} {f f' : Frame}
    (h : (tracedAssignment p l span target value).run f = .ok (t, f')) :
    t.started.Sublist (target.nodes ++ value.nodes) := by
  rw [tracedAssignment, run_bind_eq_ok_iff] at h
  obtain ⟨_, _, _, h⟩ := h
  cases target with
  | ident info var =>
    simp only [run_bind_eq_ok_iff, run_pure_eq_ok_iff] at h
    obtain ⟨result, _, hresult, _, _, _, _, _, _, rfl, _⟩ := h
    simp [ExprTree.started_traced hresult]
  | field info object var =>
    simp only [run_bind_eq_ok_iff, run_pure_eq_ok_iff] at h
    obtain ⟨base, _, hbase, result, _, hresult, _, _, _, _, _, _, rfl, _⟩ := h
    simp [ExprTree.started_traced hbase, ExprTree.started_traced hresult, ExprTree.nodes]
  | index info array i =>
    simp only [run_bind_eq_ok_iff, run_pure_eq_ok_iff] at h
    obtain ⟨base, _, hbase, position, _, hposition, result, _, hresult, _, _, _, rfl, _⟩ := h
    simp [ExprTree.started_traced hbase, ExprTree.started_traced hposition,
      ExprTree.started_traced hresult, ExprTree.nodes]
  | _ =>
    simp only [run_bind_eq_ok_iff, run_liftM_eq_ok_iff, defect_ne_ok, false_and, and_false,
      exists_false] at h

end Gen

namespace StmtTree

open Gen

theorem code_map_tracedAll_of_forall {p : Program} {l : Layout} {ss : List (Unit → StmtTree)}
    (h : ∀ s ∈ ss, Trace.code <$> (s ()).traced p l = (s ()).code p l) :
    Trace.code <$> tracedAll p l ss = codeAll p l ss := by
  induction ss with
  | nil => simp [tracedAll, codeAll]
  | cons s ss ih =>
    rw [List.forall_mem_cons] at h
    simp [tracedAll, codeAll, ← h.1, ← ih h.2]

/-- The trace of a statement has the code of the statement. -/
theorem code_map_traced (p : Program) (l : Layout) (s : StmtTree) :
    Trace.code <$> s.traced p l = s.code p l := by
  induction s with
  | broken id fault => rfl
  | block info stmts ih =>
    have hstmts : Trace.code <$> tracedAll p l stmts = codeAll p l stmts :=
      code_map_tracedAll_of_forall ih
    simp [traced, code, hstmts]
  | localVar info var init => simp [traced, code, ← ExprTree.code_map_traced]
  | call info expr => simp [traced, code, ← ExprTree.code_map_traced]
  | assign info target value => simp [traced, code]
  | ifThen info cond thenStmt ih =>
    simp [traced, code, ← ih, ← code_map_tracedCondition, ← code_map_inTracedScope]
  | ifElse info cond thenStmt elseStmt ihThen ihElse =>
    simp [traced, code, ← ihThen, ← ihElse, ← code_map_tracedCondition, ← code_map_inTracedScope]
  | whileLoop info cond body ih =>
    simp [traced, code, ← ih, ← code_map_tracedCondition, ← code_map_inTracedScope]
  | breakFrom info loop => simp [traced, code]

theorem code_map_tracedAll (p : Program) (l : Layout) (ss : List (Unit → StmtTree)) :
    Trace.code <$> tracedAll p l ss = codeAll p l ss :=
  code_map_tracedAll_of_forall fun s _ => code_map_traced p l (s ())

theorem started_tracedAll {p : Program} {l : Layout} {ss : List (Unit → StmtTree)} {t : Trace}
    {f f' : Frame} (h : (tracedAll p l ss).run f = .ok (t, f'))
    (heach : ∀ s ∈ ss, ∀ {t f f'}, ((s ()).traced p l).run f = .ok (t, f') →
      t.started.Sublist (s ()).nodes) : t.started.Sublist (nodesAll ss) := by
  induction ss generalizing t f f' with
  | nil =>
    obtain ⟨rfl, _⟩ := run_pure_eq_ok_iff.1 h
    exact .slnil
  | cons s ss ih =>
    rw [List.forall_mem_cons] at heach
    simp only [tracedAll, run_bind_eq_ok_iff, run_pure_eq_ok_iff] at h
    obtain ⟨first, _, hfirst, rest, _, hrest, rfl, rfl⟩ := h
    rw [Trace.started_append, nodesAll]
    exact (heach.1 hfirst).append (ih hrest heach.2)

/-- A trace starts the nodes of the statement at most as often as they occur there. -/
theorem started_traced {p : Program} {l : Layout} {s : StmtTree} {t : Trace} {f f' : Frame}
    (h : (s.traced p l).run f = .ok (t, f')) : t.started.Sublist s.nodes := by
  induction s generalizing t f f' with
  | broken id fault => exact absurd h run_throw_ne_ok
  | block info stmts ih =>
    rw [traced, visiting_run] at h
    obtain ⟨inner, hinner, rfl⟩ := h
    have := started_inTracedScope hinner fun h => started_tracedAll h fun s hs _ _ _ => ih s hs
    simpa [nodes] using this
  | localVar info var init =>
    simp only [traced, visiting_run, run_bind_eq_ok_iff, run_pure_eq_ok_iff] at h
    obtain ⟨_, ⟨value, _, hvalue, _, _, _, rfl, rfl⟩, rfl⟩ := h
    simp [nodes, ExprTree.started_traced hvalue]
  | call info expr =>
    simp only [traced, visiting_run, run_bind_eq_ok_iff, run_pure_eq_ok_iff] at h
    obtain ⟨_, ⟨value, _, hvalue, _, _, _, rfl, rfl⟩, rfl⟩ := h
    simp [nodes, ExprTree.started_traced hvalue]
  | assign info target value =>
    rw [traced, visiting_run] at h
    obtain ⟨inner, hinner, rfl⟩ := h
    simpa [nodes] using started_tracedAssignment hinner
  | ifThen info cond thenStmt ih =>
    simp only [traced, visiting_run, run_bind_eq_ok_iff, run_pure_eq_ok_iff] at h
    obtain ⟨_, ⟨test, _, htest, body, _, hbody, rfl, rfl⟩, rfl⟩ := h
    simpa [nodes, started_tracedCondition htest] using started_inTracedScope hbody ih
  | ifElse info cond thenStmt elseStmt ihThen ihElse =>
    simp only [traced, visiting_run, run_bind_eq_ok_iff, run_pure_eq_ok_iff] at h
    obtain ⟨_, ⟨test, _, htest, body, _, hbody, other, _, hother, rfl, rfl⟩, rfl⟩ := h
    have hparts := (started_inTracedScope hbody ihThen).append (started_inTracedScope hother ihElse)
    simpa [nodes, started_tracedCondition htest] using hparts
  | whileLoop info cond body ih =>
    simp only [traced, visiting_run, run_bind_eq_ok_iff, run_pure_eq_ok_iff] at h
    obtain ⟨_, ⟨_, _, _, turn, _, hturn, test, _, htest, rfl, rfl⟩, rfl⟩ := h
    simpa [nodes, started_tracedCondition htest] using started_inTracedScope hturn ih
  | breakFrom info loop =>
    simp only [traced, visiting_run, unmarked, run_bind_eq_ok_iff, run_pure_eq_ok_iff] at h
    obtain ⟨_, ⟨_, _, _, rfl, rfl⟩, rfl⟩ := h
    simp [nodes]

end StmtTree

/-! ## Methods and the entry point -/

open Gen

/-- The trace of the result of a method. -/
def MethodDecl.tracedResult (p : Program) (l : Layout) (decl : MethodDecl) :
    Gen (Trace × Span) := do
  match decl.result, decl.isVoid with
  | some result, false =>
    let tree := p.exprTree result
    return (← tree.traced p l, tree.span)
  | none, true => return ([], decl.span)
  | _, _ => defect (.resultMismatch decl.name decl.returnType)

/-- The trace of a method. -/
def Program.methodTrace (p : Program) (l : Layout) (id : MethodId) : Except Fault Trace := do
  let decl ← p.methodAt id
  if decl.origin.isRuntime then
    defect (.runtimeMethodBody decl.name)
  let label ← p.methodLabel id
  let receiverOffset := (← l.methodAt id).receiverOffset
  let generate : Gen (Trace × Trace × Span) := do
    let body ← StmtTree.tracedAll p l (decl.body.map fun s _ => p.stmtTree s)
    return (body, ← decl.tracedResult p l)
  let ((body, result, span), frame) ← generate.run .empty
  return .of decl.span ([.globl label, .label label] ++ prologue receiverOffset)
    ++ body ++ result
    ++ .of span (← epilogue receiverOffset frame.height decl.returnType)

/-- The trace of the entry point. -/
def Program.entryTrace (p : Program) (l : Layout) : Except Fault Trace := do
  let span ←
    match p.main with
    | some main => do pure (← p.stmtAt main).span
    | none => pure .dummy
  let body ←
    match p.main with
    | some main => do
      let tree := p.stmtTree main
      pure (← (inTracedScope tree.span (tree.traced p l)).run .empty).1
    | none => pure []
  return .of .dummy [.segment .code]
    ++ .of span [.globl .main, .label .main, .callRoutine .vmInit]
    ++ body
    ++ .of span [.li .v0 10, .syscall]

theorem MethodDecl.code_map_tracedResult (p : Program) (l : Layout) (decl : MethodDecl) :
    Prod.map Trace.code id <$> decl.tracedResult p l = decl.resultCode p l := by
  cases hresult : decl.result <;> cases hvoid : decl.isVoid
  · rw [tracedResult, resultCode, hresult, hvoid]
    rfl
  · simp [tracedResult, resultCode, hresult, hvoid]
  · simp [tracedResult, resultCode, hresult, hvoid, ← ExprTree.code_map_traced]
  · rw [tracedResult, resultCode, hresult, hvoid]
    rfl

/-- The trace of a method has the code of the method. -/
theorem Program.code_map_methodTrace (p : Program) (l : Layout) (id : MethodId) :
    Trace.code <$> p.methodTrace l id = p.methodCode l id := by
  simp [methodTrace, methodCode, ← StmtTree.code_map_tracedAll, ← MethodDecl.code_map_tracedResult]

/-- The trace of the entry point has the code of the entry point. -/
theorem Program.code_map_entryTrace (p : Program) (l : Layout) :
    Trace.code <$> p.entryTrace l = p.entryCode l := by
  cases h : p.main with
  | none => simp [entryTrace, entryCode, h]
  | some main =>
    simp [entryTrace, entryCode, h, StmtTree.scopedCode, ← StmtTree.code_map_traced,
      ← code_map_inTracedScope]

/-- The trace of a method: label, prologue, body, result and epilogue. -/
theorem Program.methodTrace_eq_ok {p : Program} {l : Layout} {id : MethodId} {t : Trace}
    (h : p.methodTrace l id = .ok t) :
    ∃ decl label receiverOffset body f₁ result span f₂ leave, p.methodAt id = .ok decl ∧
      p.methodLabel id = .ok label ∧
      (StmtTree.tracedAll p l (decl.body.map fun s _ => p.stmtTree s)).run .empty =
        .ok (body, f₁) ∧
      (decl.tracedResult p l).run f₁ = .ok ((result, span), f₂) ∧
      epilogue receiverOffset f₂.height decl.returnType = .ok leave ∧
      t = .of decl.span ([.globl label, .label label] ++ prologue receiverOffset)
        ++ body ++ result ++ .of span leave := by
  rw [methodTrace, bind_eq_ok_iff] at h
  obtain ⟨decl, hdecl, h⟩ := h
  split at h
  · simp only [bind_eq_ok_iff, defect_ne_ok, false_and, exists_false] at h
  · simp only [bind_eq_ok_iff, pure_eq_ok_iff] at h
    obtain ⟨label, hlabel, m, _, ⟨⟨body, result, span⟩, f₂⟩, hgenerate, leave, hleave, rfl⟩ := h
    simp only [run_bind_eq_ok_iff, run_pure_eq_ok_iff, Prod.mk.injEq] at hgenerate
    obtain ⟨_, f₁, hbody, _, _, hresult, ⟨rfl, rfl⟩, rfl⟩ := hgenerate
    exact ⟨decl, label, _, _, f₁, _, _, _, leave, hdecl, hlabel, hbody, hresult, hleave, rfl⟩

/-- The trace of the entry point: label and start of the runtime, the main statement and exit. -/
theorem Program.entryTrace_eq_ok {p : Program} {l : Layout} {t : Trace}
    (h : p.entryTrace l = .ok t) :
    ∃ span body, (p.main = none ∧ body = [] ∨ ∃ main f, p.main = some main ∧
        (inTracedScope (p.stmtTree main).span ((p.stmtTree main).traced p l)).run .empty =
          .ok (body, f)) ∧
      t = .of .dummy [.segment .code] ++ .of span [.globl .main, .label .main, .callRoutine .vmInit]
        ++ body ++ .of span [.li .v0 10, .syscall] := by
  cases hmain : p.main with
  | none =>
    rw [entryTrace, hmain] at h
    exact ⟨.dummy, [], Or.inl ⟨rfl, rfl⟩, (pure_eq_ok_iff.1 h)⟩
  | some main =>
    simp only [entryTrace, hmain, bind_eq_ok_iff, pure_eq_ok_iff] at h
    obtain ⟨_, _, _, rfl, ⟨_, f⟩, htraced, body, rfl, rfl⟩ := h
    exact ⟨_, body, Or.inr ⟨main, f, rfl, htraced⟩, rfl⟩

theorem MethodDecl.tracedResult_run {p : Program} {l : Layout} {decl : MethodDecl} {t : Trace}
    {span : Span} {f f' : Frame} (h : (decl.tracedResult p l).run f = .ok ((t, span), f')) :
    decl.result = none ∧ t = [] ∧ f' = f ∨
      ∃ r, decl.result = some r ∧ ((p.exprTree r).traced p l).run f = .ok (t, f') := by
  rw [tracedResult] at h
  split at h
  · rename_i r hresult _
    simp only [run_bind_eq_ok_iff, run_pure_eq_ok_iff, Prod.mk.injEq] at h
    obtain ⟨_, _, htraced, ⟨rfl, _⟩, rfl⟩ := h
    exact Or.inr ⟨r, hresult, htraced⟩
  · rename_i hresult _
    simp only [run_pure_eq_ok_iff, Prod.mk.injEq] at h
    obtain ⟨⟨rfl, _⟩, rfl⟩ := h
    exact Or.inl ⟨hresult, rfl, rfl⟩
  · simp only [run_liftM_eq_ok_iff, defect_ne_ok, false_and] at h

end MipsBackend
