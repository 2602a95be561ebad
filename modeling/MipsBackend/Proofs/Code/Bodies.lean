import MipsBackend.Proofs.Code.Heights
import MipsBackend.Proofs.Layout.Ranges

/-!
# The stack pointer in the body of a method

Statements jump: behind an alternative, back to the top of a loop, and out of a loop with values
still on the stack.  The trace of a word-typed statement is balanced nevertheless, if nodes are
given the heights at which they start and the frame knows the loops around the statement by the same
heights (`StmtTree.traced_run`).  Where no node occurs twice there are such heights.

A `Body` is what the generator makes code of in one go, a method or the entry point, and
`heightsAgree_of_code` says of every word-typed body that its frame is right: whichever way control
takes through the code, the stack pointer has moved by what the frame says.
-/

namespace MipsBackend

open Gen

/-- The frame has every loop at the height that is given for it. -/
def Frame.ExitsAt (f : Frame) (heights : Node → Int) : Prop :=
  ∀ loop h, f.loopExits.lookup loop = some h → heights (.stmt loop) = h

theorem Frame.ExitsAt.enterLoop {f : Frame} {heights : Node → Int} {loop : StmtId}
    (h : f.ExitsAt heights) (hloop : heights (.stmt loop) = f.height) :
    (f.enterLoop loop).ExitsAt heights := by
  intro other height hother
  rw [Frame.enterLoop, List.lookup_cons] at hother
  split at hother
  · rename_i hsame
    obtain rfl := eq_of_beq hsame
    rw [hloop, Option.some.inj hother]
  · exact h other height hother

theorem Frame.eq_with_height (f : Frame) {height : Int} (h : height = f.height) :
    f = { f with height } := by
  rw [h]

namespace StmtTree

mutual

/-- The methods that the code of a statement calls, in order. -/
def callees : StmtTree → List MethodId
  | .broken _ _ | .breakFrom _ _ => []
  | .block _ stmts => calleesAll stmts
  | .localVar _ _ init => init.callees
  | .call _ expr => expr.callees
  | .assign _ target value => target.callees ++ value.callees
  | .ifThen _ cond thenStmt => cond.callees ++ (thenStmt ()).callees
  | .ifElse _ cond thenStmt elseStmt =>
    cond.callees ++ (thenStmt ()).callees ++ (elseStmt ()).callees
  | .whileLoop _ cond body => (body ()).callees ++ cond.callees

/-- The methods that the code of some statements calls, in order. -/
def calleesAll : List (Unit → StmtTree) → List MethodId
  | [] => []
  | s :: ss => (s ()).callees ++ calleesAll ss

end

section Law

variable {p : Program} {l : Layout} {bottom : Int} {heights : Node → Int} {span : Span} {t : Trace}
  {f f' : Frame}

theorem scope_run {body : Gen Trace} {callees : List MethodId} {bottom : Int}
    (h : (inTracedScope span body).run f = .ok (t, f'))
    (hbody : ∀ {t f'}, body.run f = .ok (t, f') → t.StartsAt heights →
      Balanced p (labelHeight bottom heights) callees t f.height f'.height ∧ f'.ExitsAt heights)
    (hstarts : t.StartsAt heights) :
    Balanced p (labelHeight bottom heights) callees t f.height f.height ∧
      f'.height = f.height ∧ f'.ExitsAt heights := by
  obtain ⟨inner, f₁, hinner, rfl, rfl⟩ := inTracedScope_run h
  obtain ⟨hbalanced, hexits⟩ := hbody hinner (Trace.startsAt_append.1 hstarts).1
  refine ⟨hbalanced.moves (Code.moves_dropCode _ _) ?_, rfl, hexits⟩
  omega

theorem condition_run {cond : ExprTree} (h : (tracedCondition p l span cond).run f = .ok (t, f'))
    (htyped : cond.isWordTyped p) (hscalar : cond.ty.isScalar) (hstarts : t.StartsAt heights) :
    Balanced p (labelHeight bottom heights) cond.callees t f.height f.height ∧ f = f' := by
  obtain ⟨value, f₁, hvalue, rfl, rfl⟩ := tracedCondition_run h
  obtain ⟨hf₁, hbalanced⟩ := (ExprTree.keepsHeight htyped).run hvalue
  rw [Ty.stackBytes_of_isScalar hscalar] at hf₁
  subst hf₁
  simp only [Trace.startsAt_append] at hstarts
  refine ⟨((hbalanced hstarts.1.1).follow (.still rfl rfl .nil)).moves
    (Code.moves_dropCode _ _) ?_, ?_⟩
  · dsimp only
    omega
  · refine f.eq_with_height ?_
    dsimp only
    omega

theorem assignment_run {target value : ExprTree}
    (h : (tracedAssignment p l span target value).run f = .ok (t, f'))
    (htarget : target.isWordTyped p) (hvalue : value.isWordTyped p)
    (hstarts : t.StartsAt heights) :
    Balanced p (labelHeight bottom heights) (target.callees ++ value.callees) t f.height f.height ∧
      f = f' := by
  rw [tracedAssignment, run_bind_eq_ok_iff] at h
  obtain ⟨_, _, hkind, h⟩ := h
  obtain ⟨_, rfl⟩ := run_liftM_eq_ok_iff.1 hkind
  cases target with
  | ident info var =>
    simp only [run_bind_eq_ok_iff, run_pure_eq_ok_iff] at h
    obtain ⟨result, _, hresult, ⟨offset, base⟩, _, haddress, drop, _, hdrop, rfl, rfl⟩ := h
    obtain ⟨rfl, hbalanced⟩ := (ExprTree.keepsHeight hvalue).run hresult
    obtain rfl := varAddress_run haddress
    obtain ⟨hmoves, rfl⟩ := pop_moves hdrop
    simp only [Trace.startsAt_append] at hstarts
    refine ⟨((hbalanced hstarts.1.1).moves (Code.moves_of (d := 0) rfl rfl) rfl).moves
      hmoves ?_, ?_⟩
    · dsimp only
      omega
    · refine f.eq_with_height ?_
      dsimp only
      omega
  | field info object var =>
    simp only [run_bind_eq_ok_iff, run_liftM_eq_ok_iff, run_pure_eq_ok_iff] at h
    obtain ⟨base, _, hbase, result, _, hresult, offset, _, ⟨_, rfl⟩, drop, _, hdrop, rfl, rfl⟩ := h
    simp only [ExprTree.isWordTyped, Bool.and_eq_true] at htarget
    obtain ⟨hf₁, hfirst⟩ := (ExprTree.keepsHeight htarget.2).run hbase
    rw [Ty.stackBytes_of_isReference htarget.1.2] at hf₁
    subst hf₁
    obtain ⟨rfl, hsecond⟩ := (ExprTree.keepsHeight hvalue).run hresult
    obtain ⟨hmoves, rfl⟩ := pop_moves hdrop
    simp only [Trace.startsAt_append] at hstarts
    refine ⟨((((hfirst hstarts.1.1.1).append (hsecond hstarts.1.1.2)).moves
      (Code.moves_of (d := 0) rfl rfl) rfl).moves hmoves ?_), ?_⟩
    · dsimp only
      omega
    · refine f.eq_with_height ?_
      dsimp only
      omega
  | index info array i =>
    simp only [run_bind_eq_ok_iff, run_pure_eq_ok_iff] at h
    obtain ⟨base, _, hbase, position, _, hposition, result, _, hresult, drop, _, hdrop, rfl,
      rfl⟩ := h
    simp only [ExprTree.isWordTyped, Bool.and_eq_true] at htarget
    obtain ⟨⟨⟨⟨_, harray⟩, hi⟩, harrayTyped⟩, hiTyped⟩ := htarget
    obtain ⟨hf₁, hfirst⟩ := (ExprTree.keepsHeight harrayTyped).run hbase
    rw [Ty.stackBytes_of_isReference harray] at hf₁
    subst hf₁
    obtain ⟨hf₂, hsecond⟩ := (ExprTree.keepsHeight hiTyped).run hposition
    rw [Ty.stackBytes_of_isScalar hi] at hf₂
    subst hf₂
    obtain ⟨rfl, hthird⟩ := (ExprTree.keepsHeight hvalue).run hresult
    obtain ⟨hmoves, rfl⟩ := pop_moves hdrop
    simp only [Trace.startsAt_append] at hstarts
    refine ⟨(((((hfirst hstarts.1.1.1.1).append (hsecond hstarts.1.1.1.2)).append
      (hthird hstarts.1.1.2)).moves (Code.moves_of (d := 0) rfl rfl) rfl).moves hmoves ?_), ?_⟩
    · dsimp only
      omega
    · refine f.eq_with_height ?_
      dsimp only
      omega
  | _ =>
    simp only [run_bind_eq_ok_iff, run_liftM_eq_ok_iff, defect_ne_ok, false_and, and_false,
      exists_false] at h

theorem tracedAll_run {ss : List (Unit → StmtTree)} (h : (tracedAll p l ss).run f = .ok (t, f'))
    (heach : ∀ s ∈ ss, ∀ {t f f'}, ((s ()).traced p l).run f = .ok (t, f') →
      t.StartsAt heights → f.ExitsAt heights →
      Balanced p (labelHeight bottom heights) (s ()).callees t f.height f'.height ∧
        f'.ExitsAt heights)
    (hstarts : t.StartsAt heights) (hexits : f.ExitsAt heights) :
    Balanced p (labelHeight bottom heights) (calleesAll ss) t f.height f'.height ∧
      f'.ExitsAt heights := by
  induction ss generalizing t f f' with
  | nil =>
    obtain ⟨rfl, rfl⟩ := run_pure_eq_ok_iff.1 h
    exact ⟨.nil, hexits⟩
  | cons s ss ih =>
    rw [List.forall_mem_cons] at heach
    simp only [tracedAll, run_bind_eq_ok_iff, run_pure_eq_ok_iff] at h
    obtain ⟨first, f₁, hfirst, rest, _, hrest, rfl, rfl⟩ := h
    rw [Trace.startsAt_append] at hstarts
    obtain ⟨hbalanced, hexits₁⟩ := heach.1 hfirst hstarts.1 hexits
    obtain ⟨hbalancedRest, hexits'⟩ := ih hrest heach.2 hstarts.2 hexits₁
    exact ⟨hbalanced.append hbalancedRest, hexits'⟩

/-- The trace of a word-typed statement is balanced. -/
theorem traced_run {s : StmtTree} (h : (s.traced p l).run f = .ok (t, f'))
    (htyped : s.isWordTyped p) (hstarts : t.StartsAt heights) (hexits : f.ExitsAt heights) :
    Balanced p (labelHeight bottom heights) s.callees t f.height f'.height ∧
      f'.ExitsAt heights := by
  induction s generalizing t f f' with
  | broken id fault => exact absurd h run_throw_ne_ok
  | block info stmts ih =>
    rw [traced, visiting_run] at h
    obtain ⟨inner, hinner, rfl⟩ := h
    have htypedAll := isWordTypedAll_iff.1 htyped
    simp only [List.cons_append, Trace.startsAt_starts, Trace.startsAt_append] at hstarts
    obtain ⟨hbalanced, hheight, hexits'⟩ := scope_run hinner
      (fun hrun hstarts => tracedAll_run hrun
        (fun s hs _ _ _ h => ih s hs h (htypedAll s hs)) hstarts hexits) hstarts.2.1
    rw [hheight]
    exact ⟨hbalanced.visit, hexits'⟩
  | localVar info var init =>
    simp only [traced, visiting_run, run_bind_eq_ok_iff, run_pure_eq_ok_iff] at h
    obtain ⟨_, ⟨value, _, hvalue, _, _, hdeclared, rfl, rfl⟩, rfl⟩ := h
    simp only [isWordTyped, Bool.and_eq_true] at htyped
    obtain ⟨rfl, hbalanced⟩ := (ExprTree.keepsHeight htyped.1).run hvalue
    obtain ⟨hheight, hloops⟩ := declared_run hdeclared
    simp only [List.cons_append, Trace.startsAt_starts, Trace.startsAt_append] at hstarts
    rw [hheight]
    refine ⟨(hbalanced hstarts.2.1).visit, ?_⟩
    intro loop h hloop
    rw [hloops] at hloop
    exact hexits loop h hloop
  | call info expr =>
    simp only [traced, visiting_run, run_bind_eq_ok_iff, run_pure_eq_ok_iff] at h
    obtain ⟨_, ⟨value, _, hvalue, drop, _, hdrop, rfl, rfl⟩, rfl⟩ := h
    obtain ⟨rfl, hbalanced⟩ := (ExprTree.keepsHeight htyped).run hvalue
    obtain ⟨hmoves, rfl⟩ := pop_moves hdrop
    simp only [List.cons_append, Trace.startsAt_starts, Trace.startsAt_append] at hstarts
    exact ⟨((hbalanced hstarts.2.1.1).moves hmoves rfl).visit, hexits⟩
  | assign info target value =>
    rw [traced, visiting_run] at h
    obtain ⟨inner, hinner, rfl⟩ := h
    simp only [isWordTyped, Bool.and_eq_true] at htyped
    simp only [List.cons_append, Trace.startsAt_starts, Trace.startsAt_append] at hstarts
    obtain ⟨hbalanced, rfl⟩ := assignment_run hinner htyped.1.1 htyped.1.2 hstarts.2.1
    exact ⟨hbalanced.visit, hexits⟩
  | ifThen info cond thenStmt ih =>
    simp only [traced, visiting_run, run_bind_eq_ok_iff, run_pure_eq_ok_iff] at h
    obtain ⟨_, ⟨test, _, htest, body, f₁, hbody, rfl, rfl⟩, rfl⟩ := h
    simp only [isWordTyped, Bool.and_eq_true] at htyped
    obtain ⟨⟨hcond, hscalar⟩, hthen⟩ := htyped
    simp only [List.cons_append, Trace.startsAt_starts, Trace.startsAt_append] at hstarts
    obtain ⟨hnode, ⟨⟨⟨htestStarts, _⟩, hbodyStarts⟩, _⟩, _⟩ := hstarts
    obtain ⟨hcondition, rfl⟩ := condition_run htest hcond hscalar htestStarts
    obtain ⟨hscope, hheight, hexits'⟩ := scope_run hbody
      (fun hrun hstarts => ih hrun hthen hstarts hexits) hbodyStarts
    have helse : labelHeight bottom heights (.ifElse info.id) = f.height := hnode
    have hdone : labelHeight bottom heights (.ifDone info.id) = f.height := hnode
    rw [hheight]
    refine ⟨?_, hexits'⟩
    exact (((hcondition.follow (.branch helse .nil)).append hscope).follow
      (.jump hdone (.label helse (.label hdone .nil)))).visit
  | ifElse info cond thenStmt elseStmt ihThen ihElse =>
    simp only [traced, visiting_run, run_bind_eq_ok_iff, run_pure_eq_ok_iff] at h
    obtain ⟨_, ⟨test, _, htest, body, f₁, hbody, other, f₂, hother, rfl, rfl⟩, rfl⟩ := h
    simp only [isWordTyped, Bool.and_eq_true] at htyped
    obtain ⟨⟨⟨hcond, hscalar⟩, hthen⟩, helse⟩ := htyped
    simp only [List.cons_append, Trace.startsAt_starts, Trace.startsAt_append] at hstarts
    obtain ⟨hnode, ⟨⟨⟨⟨⟨htestStarts, _⟩, hbodyStarts⟩, _⟩, hotherStarts⟩, _⟩, _⟩ := hstarts
    obtain ⟨hcondition, rfl⟩ := condition_run htest hcond hscalar htestStarts
    obtain ⟨hscope, hheight, hexits₁⟩ := scope_run hbody
      (fun hrun hstarts => ihThen hrun hthen hstarts hexits) hbodyStarts
    obtain ⟨hscope', hheight', hexits'⟩ := scope_run hother
      (fun hrun hstarts => ihElse hrun helse hstarts hexits₁) hotherStarts
    have hother : labelHeight bottom heights (.ifElse info.id) = f.height := hnode
    have hdone : labelHeight bottom heights (.ifDone info.id) = f.height := hnode
    rw [hheight] at hscope' hheight'
    rw [hheight']
    refine ⟨?_, hexits'⟩
    exact (((((hcondition.follow (.branch hother .nil)).append hscope).follow
      (.jump hdone (.label hother .nil))).append hscope').follow (.label hdone .nil)).visit
  | whileLoop info cond body ih =>
    simp only [traced, visiting_run, run_bind_eq_ok_iff, run_pure_eq_ok_iff] at h
    obtain ⟨_, ⟨_, f₀, henter, turn, f₁, hturn, test, _, htest, rfl, rfl⟩, rfl⟩ := h
    obtain rfl := run_modify_eq_ok_iff.1 henter
    simp only [isWordTyped, Bool.and_eq_true] at htyped
    obtain ⟨⟨hcond, hscalar⟩, hbody⟩ := htyped
    simp only [List.cons_append, Trace.startsAt_starts, Trace.startsAt_append] at hstarts
    obtain ⟨hnode, ⟨⟨⟨⟨_, hturnStarts⟩, _⟩, htestStarts⟩, _⟩, _⟩ := hstarts
    obtain ⟨hscope, hheight, hexits'⟩ := scope_run hturn
      (fun hrun hstarts => ih hrun hbody hstarts (hexits.enterLoop hnode)) hturnStarts
    obtain ⟨hcondition, rfl⟩ := condition_run htest hcond hscalar htestStarts
    have htop : labelHeight bottom heights (.whileTop info.id) = f.height := hnode
    have henter : labelHeight bottom heights (.whileEnter info.id) = f.height := hnode
    have hbreak : labelHeight bottom heights (.breakTarget info.id) = f.height := hnode
    rw [hheight] at hcondition ⊢
    refine ⟨?_, hexits'⟩
    have hstart : Balanced p (labelHeight bottom heights) []
        (.of info.span [.j (.whileEnter info.id), .label (.whileTop info.id)])
        f.height f.height := .jump henter (.label htop .nil)
    exact ((((hstart.append hscope).follow (.label henter .nil)).append hcondition).follow
      (.branch htop (.label hbreak .nil))).visit
  | breakFrom info loop =>
    simp only [traced, visiting_run, unmarked, run_bind_eq_ok_iff, run_pure_eq_ok_iff] at h
    obtain ⟨_, ⟨code, _, hcode, rfl, rfl⟩, rfl⟩ := h
    obtain ⟨exit, hexit, rfl, rfl⟩ := leaveLoop_run hcode
    have hbreak : labelHeight bottom heights (.breakTarget loop) = exit := hexits loop exit hexit
    refine ⟨Balanced.visit ?_, hexits⟩
    rw [Trace.ofCode_append]
    -- What follows the jump is at the height of the frame, which the jump did not change.
    exact ((Code.moves_dropCode _ _).balanced (by omega)).follow (.jump hbreak .nil)

end Law

end StmtTree

/-! ## Methods and the entry point -/

/-- What code is generated for: the entry point or a method. -/
inductive Body where
  | entry
  | method (id : MethodId)
deriving DecidableEq

namespace Body

/-- The code of the body. -/
def code (p : Program) (l : Layout) : Body → Except Fault Code
  | .entry => p.entryCode l
  | .method id => p.methodCode l id

/-- The trace of the body. -/
def trace (p : Program) (l : Layout) : Body → Except Fault Trace
  | .entry => p.entryTrace l
  | .method id => p.methodTrace l id

/-- The statements of the body. -/
def stmts (p : Program) : Body → List (Unit → StmtTree)
  | .entry => p.main.toList.map fun main _ => p.stmtTree main
  | .method id =>
    match p.methodAt id with
    | .ok decl => decl.body.map fun s _ => p.stmtTree s
    | .error _ => []

/-- The expression whose value the body returns, if any. -/
def result? (p : Program) : Body → Option ExprTree
  | .entry => none
  | .method id =>
    match p.methodAt id with
    | .ok decl => decl.result.map p.exprTree
    | .error _ => none

/-- The type of the value that the body returns. -/
def returnType (p : Program) : Body → Ty
  | .entry => .void
  | .method id =>
    match p.methodAt id with
    | .ok decl => decl.returnType
    | .error _ => .void

/-- The statements of the body are word-typed, and its result is as wide as its return type. -/
def isWordTyped (p : Program) (b : Body) : Bool :=
  StmtTree.isWordTypedAll p (b.stmts p) && (b.result? p).all fun result =>
    result.isWordTyped p && result.ty.stackBytes == (b.returnType p).stackBytes

/-- The nodes of the body, in the order in which the generator comes to them. -/
def nodes (p : Program) (b : Body) : List Node :=
  StmtTree.nodesAll (b.stmts p) ++ (b.result? p).elim [] ExprTree.nodes

/-- The methods that the code of the body calls, in order. -/
def callees (p : Program) (b : Body) : List MethodId :=
  StmtTree.calleesAll (b.stmts p) ++ (b.result? p).elim [] ExprTree.callees

/-- The height before the first instruction.  The frame of a method does not count the word that the
prologue pushes. -/
def bottom : Body → Int
  | .entry => 0
  | .method _ => -wordSize

/-- The trace of a body has the code of the body. -/
theorem code_map_trace (p : Program) (l : Layout) (b : Body) :
    Trace.code <$> b.trace p l = b.code p l := by
  cases b with
  | entry => exact p.code_map_entryTrace l
  | method id => exact p.code_map_methodTrace l id

variable {p : Program} {l : Layout} {b : Body} {t : Trace} {heights : Node → Int}

/-- A trace starts the nodes of the body at most as often as they occur there. -/
theorem started_trace (h : b.trace p l = .ok t) : t.started.Sublist (b.nodes p) := by
  cases b with
  | entry =>
    obtain ⟨span, body, hbody, rfl⟩ := Program.entryTrace_eq_ok h
    simp only [nodes, stmts, result?, Trace.started_append, Trace.started_of, List.nil_append,
      List.append_nil, Option.elim_none]
    rcases hbody with ⟨hnone, rfl⟩ | ⟨main, _, hsome, htraced⟩
    · rw [hnone]
      exact .slnil
    · rw [hsome]
      simpa [StmtTree.nodesAll] using started_inTracedScope htraced StmtTree.started_traced
  | method id =>
    obtain ⟨decl, label, _, body, f₁, result, span, f₂, leave, hdecl, _, hbody, hresult, _, rfl⟩ :=
      Program.methodTrace_eq_ok h
    have hstmts := StmtTree.started_tracedAll hbody fun s _ _ _ _ h => StmtTree.started_traced h
    simp only [nodes, stmts, result?, hdecl, Trace.started_append, Trace.started_of,
      List.nil_append, List.append_nil]
    refine hstmts.append ?_
    rcases MethodDecl.tracedResult_run hresult with ⟨hnone, rfl, _⟩ | ⟨r, hsome, htraced⟩
    · rw [hnone]
      exact .slnil
    · rw [hsome]
      rw [ExprTree.started_traced htraced]
      exact .refl _

theorem epilogue_moves {receiverOffset height : Int} {ty : Ty} {leave : List Inst} (span : Span)
    (h : epilogue receiverOffset height ty = .ok leave) :
    ∃ d, (Code.of span leave).Moves d := by
  simp only [epilogue, bind_eq_ok_iff, pure_eq_ok_iff] at h
  obtain ⟨slot, _, result, hresult, _, _, bottom, _, drop, _, rfl⟩ := h
  have hstore : ∃ d, (Code.of span result).Moves d := by
    rw [storeResult] at hresult
    split at hresult
    · cases hresult
      exact ⟨0, Code.moves_of rfl rfl⟩
    · split at hresult
      · simp only [bind_eq_ok_iff, pure_eq_ok_iff] at hresult
        obtain ⟨data, _, rfl⟩ := hresult
        exact ⟨0, Code.moves_of rfl rfl⟩
      · cases hresult
        exact ⟨0, Code.moves_of rfl rfl⟩
  obtain ⟨d, hstore⟩ := hstore
  rw [Code.of_append, Code.of_append]
  exact ⟨_, ((Code.moves_of rfl rfl).append hstore).append (Code.moves_of rfl rfl)⟩

theorem exitsAt_empty : Frame.empty.ExitsAt heights := by
  intro loop h hloop
  simp [Frame.empty] at hloop

theorem balanced_entryTrace (h : p.entryTrace l = .ok t)
    (htyped : ∀ s ∈ stmts p .entry, (s ()).isWordTyped p) (hstarts : t.StartsAt heights) :
    Balanced p (labelHeight 0 heights) (callees p .entry) t 0 0 := by
  obtain ⟨span, body, hbody, rfl⟩ := Program.entryTrace_eq_ok h
  have hmain : Balanced p (labelHeight 0 heights) (callees p .entry) body 0 0 := by
    rcases hbody with ⟨hnone, rfl⟩ | ⟨main, f, hsome, htraced⟩
    · simp only [callees, stmts, result?, hnone]
      exact .nil
    · simp only [Trace.startsAt_append] at hstarts
      have hmainTyped := htyped (fun _ => p.stmtTree main) (by simp [stmts, hsome])
      have hscope : Balanced p (labelHeight 0 heights) (p.stmtTree main).callees body 0 0 :=
        (StmtTree.scope_run htraced (fun hrun hstarts =>
          StmtTree.traced_run hrun hmainTyped hstarts exitsAt_empty) hstarts.1.2).1
      simpa [callees, stmts, result?, hsome, StmtTree.calleesAll] using hscope
  have hstart : Balanced p (labelHeight 0 heights) []
      (.of .dummy [.segment .code] ++ .of span [.globl .main, .label .main, .callRoutine .vmInit])
      0 0 :=
    .still rfl rfl (.still rfl rfl (.label rfl (.still rfl rfl .nil)))
  exact (hstart.append hmain).moves (Code.moves_of (d := 0) rfl rfl) rfl

theorem balanced_methodTrace {id : MethodId} {decl : MethodDecl} (h : p.methodTrace l id = .ok t)
    (hdecl : p.methodAt id = .ok decl)
    (hstmts : ∀ s ∈ decl.body, (p.stmtTree s).isWordTyped p)
    (hresult : ∀ r, decl.result = some r → (p.exprTree r).isWordTyped p)
    (hstarts : t.StartsAt heights) :
    ∃ h', Balanced p (labelHeight (-wordSize) heights) (callees p (.method id)) t
      (-wordSize) h' := by
  obtain ⟨decl', label, receiverOffset, body, f₁, result, span, f₂, leave, hdecl', hlabel, hbody,
    htraced, hleave, rfl⟩ := Program.methodTrace_eq_ok h
  obtain rfl : decl = decl' := Except.ok.inj (hdecl.symm.trans hdecl')
  obtain ⟨d, hmoves⟩ := epilogue_moves span hleave
  simp only [Trace.startsAt_append] at hstarts
  obtain ⟨⟨⟨_, hbodyStarts⟩, hresultStarts⟩, _⟩ := hstarts
  have hlabelHeight : labelHeight (-wordSize) heights label = -wordSize := by
    rcases Program.methodLabel_cases hlabel with ⟨_, rfl⟩ | ⟨_, _, rfl⟩ <;> rfl
  have hprologue : Balanced p (labelHeight (-wordSize) heights) []
      (.of decl.span (prologue receiverOffset)) (-wordSize) 0 :=
    (Code.moves_of (d := -wordSize) rfl rfl).balanced rfl
  have hstart : Balanced p (labelHeight (-wordSize) heights) []
      (.of decl.span ([.globl label, .label label] ++ prologue receiverOffset)) (-wordSize) 0 :=
    .still rfl rfl (.label hlabelHeight hprologue)
  have hall : ∀ s ∈ decl.body.map fun s (_ : Unit) => p.stmtTree s, (s ()).isWordTyped p := by
    simpa using hstmts
  have hinner : Balanced p (labelHeight (-wordSize) heights)
      (StmtTree.calleesAll (decl.body.map fun s _ => p.stmtTree s)) body 0 f₁.height :=
    (StmtTree.tracedAll_run hbody (fun s hs _ _ _ h => StmtTree.traced_run h (hall s hs))
      hbodyStarts exitsAt_empty).1
  have hlast : Balanced p (labelHeight (-wordSize) heights)
      ((decl.result.map p.exprTree).elim [] ExprTree.callees) result f₁.height f₂.height := by
    rcases MethodDecl.tracedResult_run htraced with ⟨hnone, rfl, rfl⟩ | ⟨r, hsome, hrun⟩
    · rw [hnone]
      exact .nil
    · rw [hsome]
      exact ((ExprTree.keepsHeight (hresult r hsome)).run hrun).2 hresultStarts
  have hcallees : callees p (.method id) =
      StmtTree.calleesAll (decl.body.map fun s _ => p.stmtTree s) ++
        (decl.result.map p.exprTree).elim [] ExprTree.callees := by
    simp only [callees, stmts, result?, hdecl]
  rw [hcallees]
  exact ⟨_, ((hstart.append hinner).append hlast).moves hmoves rfl⟩

/-- The trace of a word-typed body is balanced. -/
theorem balanced_trace (h : b.trace p l = .ok t) (htyped : b.isWordTyped p)
    (hstarts : t.StartsAt heights) :
    ∃ h', Balanced p (labelHeight b.bottom heights) (b.callees p) t b.bottom h' := by
  rw [isWordTyped, Bool.and_eq_true] at htyped
  obtain ⟨hstmts, hresult⟩ := htyped
  have hall := StmtTree.isWordTypedAll_iff.1 hstmts
  cases b with
  | entry => exact ⟨0, balanced_entryTrace h hall hstarts⟩
  | method id =>
    obtain ⟨decl, _, _, _, _, _, _, _, _, hdecl, _⟩ := Program.methodTrace_eq_ok h
    simp only [stmts, result?, hdecl, List.forall_mem_map] at hall hresult
    refine balanced_methodTrace h hdecl hall ?_ hstarts
    intro r hr
    rw [hr, Option.map_some, Option.all_some, Bool.and_eq_true] at hresult
    exact hresult.1

end Body

/-- The code of a word-typed body in which no node occurs twice moves the stack pointer alike on all
paths to a position, and as the frame says where the generator starts or ends on a node. -/
theorem heightsAgree_of_code {p : Program} {l : Layout} {b : Body} {code : Code}
    (h : b.code p l = .ok code) (htyped : b.isWordTyped p) (hnodup : (b.nodes p).Nodup) :
    ∃ t, b.trace p l = .ok t ∧ t.code = code ∧ HeightsAgree p (b.callees p) t b.bottom := by
  rw [← Body.code_map_trace, map_eq_pure_bind, bind_eq_ok_iff] at h
  obtain ⟨t, ht, hcode⟩ := h
  obtain rfl := pure_eq_ok_iff.1 hcode
  have hstarted : t.started.Nodup := List.Nodup.sublist (Body.started_trace ht) hnodup
  obtain ⟨heights, hstarts⟩ := Trace.exists_startsAt hstarted
  obtain ⟨_, hbalanced⟩ := Body.balanced_trace ht htyped hstarts
  exact ⟨t, ht, rfl, hbalanced.heightsAgree⟩

/-- In `shapes` the entry point calls a method, which has a local variable, a loop and a way out of
it. -/
theorem heightsAgree_shapes : ∃ l, ∀ b ∈ [Body.entry, .method ⟨2⟩], ∃ code,
    b.code shapes l = .ok code ∧ b.isWordTyped shapes ∧ (b.nodes shapes).Nodup ∧
    ∃ t, b.trace shapes l = .ok t ∧ t.code = code ∧
      HeightsAgree shapes (b.callees shapes) t b.bottom := by
  have hbodies : ∀ b ∈ [Body.entry, .method ⟨2⟩],
      b.isWordTyped shapes ∧ (b.nodes shapes).Nodup := by decide +kernel
  obtain ⟨⟨code, code'⟩, hcode⟩ := exists_eq_ok_of_isSome
    (show (do
        let laid ← Layout.compute shapes
        let code ← Body.entry.code shapes laid.1
        let code' ← (Body.method ⟨2⟩).code shapes laid.1
        return (code, code')).toOption.isSome by decide +kernel)
  obtain ⟨⟨l, _⟩, _, hcode⟩ := bind_eq_ok_iff.1 hcode
  obtain ⟨code, hentry, hcode⟩ := bind_eq_ok_iff.1 hcode
  obtain ⟨code', hmethod, _⟩ := bind_eq_ok_iff.1 hcode
  refine ⟨l, fun b hb => ?_⟩
  have hsome : ∃ code, b.code shapes l = .ok code := by
    simp only [List.mem_cons, List.not_mem_nil, or_false] at hb
    rcases hb with rfl | rfl
    · exact ⟨code, hentry⟩
    · exact ⟨code', hmethod⟩
  obtain ⟨code, hcode⟩ := hsome
  obtain ⟨htyped, hnodup⟩ := hbodies b hb
  exact ⟨code, hcode, htyped, hnodup, heightsAgree_of_code hcode htyped hnodup⟩

end MipsBackend
