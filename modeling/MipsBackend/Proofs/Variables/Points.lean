import MipsBackend.Proofs.Execution.Statements

/-!
# The points of the generation

The generator takes a frame through the body of a method.  A *point* is a frame that it has on the
way, together with the local variables that are in scope there: before and behind every expression
and statement, and also inside them, where temporaries are popped.  A generation that fails has the
points up to the failure.

The code of a word-typed expression never goes below the height at which it starts, and on its way
it changes nothing but the height (`ExprTree.raises_of_mem_frames`).
-/

namespace MipsBackend

open Gen

variable {α β : Type} {p : Program} {l : Layout} {f f₁ f' g : Frame} {span : Span} {code : Code}

/-! ## Frames on the way -/

namespace Gen

/-- What comes behind a generator, from the frame that it leaves; nothing where it fails. -/
def following (gen : Gen α) (f : Frame) (next : Frame → List β) : List β :=
  match gen.run f with
  | .ok (_, f') => next f'
  | .error _ => []

theorem mem_following_iff {gen : Gen α} {next : Frame → List β} {b : β} :
    b ∈ gen.following f next ↔ ∃ a f', gen.run f = .ok (a, f') ∧ b ∈ next f' := by
  rw [following]
  cases h : gen.run f with
  | error fault => simp
  | ok result =>
    constructor
    · exact fun hb => ⟨result.1, result.2, rfl, hb⟩
    · rintro ⟨a, f', heq, hb⟩
      obtain rfl := Except.ok.inj heq
      exact hb

end Gen

namespace ExprTree

mutual

/-- The frames from the start of the code of an expression up to the instructions that put the value
in place of the operands. -/
def frames (p : Program) (l : Layout) : ExprTree → Frame → List Frame
  | .broken _ _, f | .int _ _, f | .str _ _, f | .bool _ _, f | .null _, f | .this _, f
  | .super _, f | .ident _ _, f | .new _ _, f => [f]
  | .not _ e, f | .arrayLength _ e, f | .field _ e _, f | .instanceOf _ e _, f | .cast _ _ e, f =>
    (e ()).frames p l f ++ following ((e ()).code p l) f ([·])
  | .binary info op lhs rhs, f =>
    (lhs ()).frames p l f ++ following ((lhs ()).code p l) f fun f =>
      if op.isShortCircuit then
        f :: following (pop info.span (2 * wordSize)) f fun f =>
          (rhs ()).frames p l f ++ following ((rhs ()).code p l) f ([·])
      else
        (rhs ()).frames p l f ++ following ((rhs ()).code p l) f ([·])
  | .index _ array i, f =>
    (array ()).frames p l f ++ following ((array ()).code p l) f fun f =>
      (i ()).frames p l f ++ following ((i ()).code p l) f ([·])
  | .newArray info _ size, f =>
    (size ()).frames p l f ++ following ((size ()).code p l) f fun f =>
      f :: following (pop info.span (2 * wordSize)) f ([·])
  | .call _ receiver _ args, f =>
    (receiver ()).frames p l f ++ following ((receiver ()).code p l) f fun f₁ =>
      framesAll p l args f₁ ++ following (codeAll p l args) f₁ fun f₂ =>
        following (restored f.height) f₂ ([·])

/-- The frames from the start of the code of some expressions to its end. -/
def framesAll (p : Program) (l : Layout) : List (Unit → ExprTree) → Frame → List Frame
  | [], f => [f]
  | e :: es, f => (e ()).frames p l f ++ following ((e ()).code p l) f (framesAll p l es)

end

theorem frames_of_isLeaf {e : ExprTree} (hleaf : e.isLeaf) : e.frames p l f = [f] := by
  cases e with
  | not | binary | arrayLength | index | field | instanceOf | cast | newArray | call =>
    simp [isLeaf] at hleaf
  | _ => rfl

end ExprTree

/-- The frame differs in height only, and is not lower. -/
def Frame.Raises (f g : Frame) : Prop :=
  ∃ height, f.height ≤ height ∧ g = { f with height }

namespace Frame.Raises

theorem refl (f : Frame) : f.Raises f :=
  ⟨f.height, Int.le_refl _, rfl⟩

theorem trans (h : f.Raises f₁) (h' : f₁.Raises f') : f.Raises f' := by
  obtain ⟨height, hle, rfl⟩ := h
  obtain ⟨height', hle', rfl⟩ := h'
  exact ⟨height', Int.le_trans hle hle', rfl⟩

/-- Down again, but not below the start. -/
theorem drop {height : Int} (h : f.Raises f₁) (hle : f.height ≤ height) :
    f.Raises { f₁ with height } := by
  obtain ⟨_, _, rfl⟩ := h
  exact ⟨height, hle, rfl⟩

end Frame.Raises

namespace ExprTree

variable {e : ExprTree} {es : List (Unit → ExprTree)}

theorem raises_of_code (htyped : e.isWordTyped p) (h : (e.code p l).run f = .ok (code, f')) :
    f.Raises f' := by
  obtain rfl := frame_of_code htyped h
  have hbytes := e.ty.stackBytes_nonneg
  exact ⟨_, by omega, rfl⟩

/-- A scalar that is popped leaves no trace. -/
theorem frame_eq_of_pop {drop : Code} (htyped : e.isWordTyped p) (hscalar : e.ty.isScalar)
    (h : (e.code p l).run f = .ok (code, f₁))
    (hdrop : (pop span (2 * wordSize)).run f₁ = .ok (drop, f')) : f = f' := by
  obtain ⟨_, rfl⟩ := pop_run hdrop
  obtain rfl := frame_of_code htyped h
  have hbytes := Ty.stackBytes_of_isScalar hscalar
  exact f.eq_with_height (by dsimp only; omega)

theorem raises_of_codeAll (htyped : ∀ e ∈ es, (e ()).isWordTyped p)
    (h : (codeAll p l es).run f = .ok (code, f')) : f.Raises f' := by
  induction es generalizing code f with
  | nil =>
    obtain ⟨_, rfl⟩ := run_pure_eq_ok_iff.1 h
    exact .refl f
  | cons e es ih =>
    rw [List.forall_mem_cons] at htyped
    simp only [codeAll, run_bind_eq_ok_iff, run_pure_eq_ok_iff] at h
    obtain ⟨_, f₁, hfirst, _, _, hrest, _, rfl⟩ := h
    exact (raises_of_code htyped.1 hfirst).trans (ih htyped.2 hrest)

theorem raises_of_mem_framesAll (htyped : ∀ e ∈ es, (e ()).isWordTyped p)
    (heach : ∀ e ∈ es, ∀ f g, g ∈ (e ()).frames p l f → f.Raises g)
    (h : g ∈ framesAll p l es f) : f.Raises g := by
  induction es generalizing f with
  | nil =>
    obtain rfl := List.mem_singleton.1 h
    exact .refl g
  | cons e es ih =>
    rw [List.forall_mem_cons] at htyped heach
    rw [framesAll, List.mem_append, mem_following_iff] at h
    rcases h with hfirst | ⟨_, f₁, hrun, hrest⟩
    · exact heach.1 f g hfirst
    · exact (raises_of_code htyped.1 hrun).trans (ih htyped.2 heach.2 hrest)

section Operands

variable {lhs rhs : Unit → ExprTree}

theorem raises_of_mem_operand (htyped : (lhs ()).isWordTyped p)
    (hlhs : ∀ {f g}, g ∈ (lhs ()).frames p l f → f.Raises g) (h : g ∈ framesAll p l [lhs] f) :
    f.Raises g :=
  raises_of_mem_framesAll (List.forall_mem_singleton.2 htyped)
    (List.forall_mem_singleton.2 fun _ _ => hlhs) h

theorem raises_of_mem_operands (hl : (lhs ()).isWordTyped p) (hr : (rhs ()).isWordTyped p)
    (hlhs : ∀ {f g}, g ∈ (lhs ()).frames p l f → f.Raises g)
    (hrhs : ∀ {f g}, g ∈ (rhs ()).frames p l f → f.Raises g)
    (h : g ∈ framesAll p l [lhs, rhs] f) : f.Raises g :=
  raises_of_mem_framesAll
    (List.forall_mem_cons.2 ⟨hl, List.forall_mem_singleton.2 hr⟩)
    (List.forall_mem_cons.2 ⟨fun _ _ => hlhs, List.forall_mem_singleton.2 fun _ _ => hrhs⟩) h

end Operands

/-- Whatever the code of an expression does, it does above where the frame ends. -/
theorem raises_of_mem_frames (htyped : e.isWordTyped p) (h : g ∈ e.frames p l f) :
    f.Raises g := by
  induction htyped using isWordTyped_induct generalizing f g with
  | leaf e _ hleaf =>
    rw [frames_of_isLeaf hleaf, List.mem_singleton] at h
    exact h ▸ .refl g
  | not _ _ _ hoperand ih | arrayLength _ _ _ hoperand ih | field _ _ _ _ hoperand ih
  | instanceOf _ _ _ _ hoperand ih | cast _ _ _ _ hoperand ih =>
    exact raises_of_mem_operand hoperand ih h
  | index _ _ _ _ harray hi ihArray ihIndex =>
    exact raises_of_mem_operands harray hi ihArray ihIndex h
  | binary info op lhs rhs htyped hlhs hrhs ihLeft ihRight =>
    rw [frames] at h
    by_cases hop : op.isShortCircuit
    · simp only [if_pos hop, List.mem_append, List.mem_cons, mem_following_iff] at h
      rcases h with h | ⟨_, f₁, hleft, rfl | ⟨_, f₂, hdrop, h⟩⟩
      · exact ihLeft h
      · exact raises_of_code hlhs hleft
      · -- The left operand is popped before the right one is evaluated.
        simp only [isWordTyped, Bool.and_eq_true] at htyped
        have hscalar := (BinOp.isScalar_of_isShortCircuit hop htyped.1.1.2).1
        obtain rfl := frame_eq_of_pop hlhs hscalar hleft hdrop
        refine raises_of_mem_operand hrhs ihRight ?_
        simpa only [framesAll, List.mem_append, List.mem_cons, mem_following_iff] using h
    · simp only [if_neg hop] at h
      exact raises_of_mem_operands hlhs hrhs ihLeft ihRight h
  | newArray info elem size htyped hsize ih =>
    simp only [isWordTyped, Bool.and_eq_true] at htyped
    simp only [frames, List.mem_append, List.mem_cons, List.not_mem_nil, or_false,
      mem_following_iff] at h
    rcases h with h | ⟨_, f₁, hrun, rfl | ⟨_, f₂, hdrop, rfl⟩⟩
    · exact ih h
    · exact raises_of_code hsize hrun
    · obtain rfl := frame_eq_of_pop hsize htyped.1.2 hrun hdrop
      exact .refl f
  | call info receiver method args _ hreceiver hargs ihReceiver ihArgs =>
    simp only [frames, List.mem_append, List.mem_singleton, mem_following_iff] at h
    rcases h with h | ⟨_, f₁, hrun, h | ⟨_, f₂, hpassed, _, f₃, hrestored, rfl⟩⟩
    · exact ihReceiver h
    · exact (raises_of_code hreceiver hrun).trans (raises_of_mem_framesAll hargs
        (fun arg harg _ _ => ihArgs arg harg) h)
    · obtain ⟨_, _, rfl⟩ := restored_run hrestored
      exact ((raises_of_code hreceiver hrun).trans (raises_of_codeAll hargs hpassed)).drop
        (Int.le_refl _)

end ExprTree

/-! ## Points -/

/-- A frame that the generator has on its way, and the local variables in scope there, latest
first. -/
structure Point where
  frame : Frame
  locals : List VarId

namespace ExprTree

/-- The points of the code of some expressions in a scope. -/
def pointsAll (p : Program) (l : Layout) (es : List (Unit → ExprTree)) (scope : List VarId)
    (f : Frame) : List Point :=
  (framesAll p l es f).map (⟨·, scope⟩)

/-- The operands that are evaluated in order to assign to an expression. -/
def addressed : ExprTree → List (Unit → ExprTree)
  | .field _ object _ => [object]
  | .index _ array i => [array, i]
  | _ => []

end ExprTree

/-- Some points and the one where the generator ends, with the given variables in scope. -/
def Gen.closing (gen : Gen α) (f : Frame) (scope : List VarId) (points : List Point) :
    List Point :=
  points ++ gen.following f fun f' => [⟨f', scope⟩]

namespace StmtTree

mutual

/-- The points from the start of the code of a statement to where the statement's own instructions
end it, with the given variables in scope at the start. -/
def points (p : Program) (l : Layout) : StmtTree → List VarId → Frame → List Point
  | .broken _ _, scope, f | .breakFrom _ _, scope, f => [⟨f, scope⟩]
  | .block _ stmts, scope, f => pointsAll p l stmts scope f
  | .localVar _ _ e, scope, f | .call _ e, scope, f => ExprTree.pointsAll p l [fun _ => e] scope f
  | .assign _ target value, scope, f =>
    ExprTree.pointsAll p l (target.addressed ++ [fun (_ : Unit) => value]) scope f
  | .ifThen info cond thenStmt, scope, f =>
    ExprTree.pointsAll p l [fun _ => cond] scope f
      ++ following (condition p l info.span cond) f fun f =>
        closing ((thenStmt ()).code p l) f ((thenStmt ()).scopeAfter scope)
          ((thenStmt ()).points p l scope f)
  | .ifElse info cond thenStmt elseStmt, scope, f =>
    ExprTree.pointsAll p l [fun _ => cond] scope f
      ++ following (condition p l info.span cond) f fun f =>
        closing ((thenStmt ()).code p l) f ((thenStmt ()).scopeAfter scope)
            ((thenStmt ()).points p l scope f)
          ++ following (inScope (thenStmt ()).span ((thenStmt ()).code p l)) f fun f =>
            closing ((elseStmt ()).code p l) f ((elseStmt ()).scopeAfter scope)
              ((elseStmt ()).points p l scope f)
  | .whileLoop info cond body, scope, f =>
    [⟨f, scope⟩] ++ following (modify (·.enterLoop info.id)) f fun f =>
      closing ((body ()).code p l) f ((body ()).scopeAfter scope) ((body ()).points p l scope f)
        ++ following (inScope (body ()).span ((body ()).code p l)) f
          (ExprTree.pointsAll p l [fun _ => cond] scope)

/-- The points from the start of the code of some statements to its end. -/
def pointsAll (p : Program) (l : Layout) :
    List (Unit → StmtTree) → List VarId → Frame → List Point
  | [], scope, f => [⟨f, scope⟩]
  | s :: ss, scope, f =>
    (s ()).points p l scope f
      ++ following ((s ()).code p l) f (pointsAll p l ss ((s ()).scopeAfter scope))

end

end StmtTree

/-- The points of the code between the prologue and the epilogue of a method. -/
def MethodDecl.points (p : Program) (l : Layout) (decl : MethodDecl) : List Point :=
  let body := decl.body.map fun s (_ : Unit) => p.stmtTree s
  StmtTree.pointsAll p l body [] .empty ++ following (StmtTree.codeAll p l body) .empty fun f =>
    match decl.result, decl.isVoid with
    | some result, false =>
      ExprTree.pointsAll p l [fun _ => p.exprTree result] (StmtTree.scopeAfterAll [] body) f
    | _, _ => []

end MipsBackend
