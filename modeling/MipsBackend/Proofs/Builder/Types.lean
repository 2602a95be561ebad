import MipsBackend.Proofs.Builder.Runs

/-!
# Types of built expressions

A builder finds the type of an expression when it adds the expression, and stores it.  The type is
the one that the expression's kind dictates, given the types of its parts (`Program.Dictates`), and
it stays the right one, because no operation changes the type of a variable, a method or an
expression (`Program.KeepsTypes`).

Nothing is asked of the calls here, neither that classes are below one another in a sensible way nor
that loops are closed in the order in which they were opened.  The result is
`Builder.dictates_of_acts`.
-/

namespace MipsBackend

namespace Program

variable {p p' p'' : Program} {kind : ExprKind} {ty : Ty}

/-- The type is what the kind of an expression dictates, given the types of its parts.  The types of
string literals and of the receiver depend on where they stand, so nothing is said of them. -/
def Dictates (p : Program) : ExprKind → Ty → Prop
  | .int _, ty | .arrayLength _, ty => ty = .int
  | .bool _, ty | .not _, ty | .instanceOf _ _, ty => ty = .bool
  | .binary op _ _, ty => ty = if op ∈ [.add, .sub, .mul, .div, .rem] then .int else .bool
  | .null, ty => ty = .null
  | .ident v, ty | .field _ v, ty => ∃ decl, p.varAt v = .ok decl ∧ ty = decl.ty
  | .index array _, ty => ∃ expr, p.exprAt array = .ok expr ∧ expr.ty = .array ty
  | .cast target _, ty => ty = target
  | .new c, ty => ty = .object c
  | .newArray elem _, ty => ty = .array elem
  | .call _ m _, ty => ∃ decl, p.methodAt m = .ok decl ∧ ty = decl.returnType
  | .str _, _ | .this, _ | .super, _ => True

/-- All variables, methods and expressions are still there and have the types that they had. -/
structure KeepsTypes (p p' : Program) : Prop where
  vars : Kept (fun _ : VarId => Eq) p.vars p'.vars
  methods : Kept (fun _ : MethodId => MethodDecl.RebodiedTo) p.methods p'.methods
  exprs : Kept (fun _ : ExprId => Eq) p.exprs p'.exprs

namespace KeepsTypes

theorem refl (p : Program) : p.KeepsTypes p :=
  ⟨.refl fun _ _ => rfl, .refl fun _ => .refl, .refl fun _ _ => rfl⟩

theorem trans (h : p.KeepsTypes p') (h' : p'.KeepsTypes p'') : p.KeepsTypes p'' :=
  ⟨h.vars.trans .trans h'.vars, h.methods.trans .trans h'.methods, h.exprs.trans .trans h'.exprs⟩

end KeepsTypes

theorem Dictates.mono (h : p.Dictates kind ty) (keeps : p.KeepsTypes p') : p'.Dictates kind ty := by
  cases kind with
  | ident v | field _ v =>
    obtain ⟨decl, hv, hty⟩ := h
    obtain ⟨_, hv', rfl⟩ := keeps.vars v decl hv
    exact ⟨decl, hv', hty⟩
  | index array _ =>
    obtain ⟨expr, harray, hty⟩ := h
    obtain ⟨_, harray', rfl⟩ := keeps.exprs array expr harray
    exact ⟨expr, harray', hty⟩
  | call _ m _ =>
    obtain ⟨decl, hm, hty⟩ := h
    obtain ⟨_, hm', _, _, rfl⟩ := keeps.methods m decl hm
    exact ⟨_, hm', hty⟩
  | _ => exact h

/-- Types are kept, and the expressions that have been added have the types that they should. -/
structure GrowsTyped (p p' : Program) : Prop where
  keeps : p.KeepsTypes p'
  added : ∀ e expr, p'.exprAt e = .ok expr →
    p.exprAt e = .ok expr ∨ p'.Dictates expr.kind expr.ty

namespace GrowsTyped

theorem refl (p : Program) : p.GrowsTyped p :=
  ⟨.refl p, fun _ _ => .inl⟩

theorem trans (h : p.GrowsTyped p') (h' : p'.GrowsTyped p'') : p.GrowsTyped p'' := by
  refine ⟨h.keeps.trans h'.keeps, fun e expr he => ?_⟩
  rcases h'.added e expr he with he | hty
  · exact (h.added e expr he).imp_right fun hty => hty.mono h'.keeps
  · exact .inr hty

/-- Without new expressions only the types of variables and methods are to be kept. -/
theorem of_exprs_eq (hexprs : p'.exprs = p.exprs)
    (vars : Kept (fun _ : VarId => Eq) p.vars p'.vars)
    (methods : Kept (fun _ : MethodId => MethodDecl.RebodiedTo) p.methods p'.methods) :
    p.GrowsTyped p' := by
  refine ⟨⟨vars, methods, ?_⟩, fun e expr he => .inl ?_⟩
  · rw [hexprs]
    exact .refl fun _ _ => rfl
  · rw [exprAt, hexprs] at he
    exact he

/-- What concerns neither expressions nor variables nor methods does not concern types. -/
theorem of_eq (hexprs : p'.exprs = p.exprs) (hvars : p'.vars = p.vars)
    (hmethods : p'.methods = p.methods) : p.GrowsTyped p' :=
  of_exprs_eq hexprs (hvars ▸ .refl fun _ _ => rfl) (hmethods ▸ .refl fun _ => .refl)

end GrowsTyped

end Program

/-! ## Operations -/

namespace Build

open Program (GrowsTyped)

variable {b b' : Builder} {u : Unit}

/-- An expression may be added with the type that its kind dictates. -/
theorem addExpr_grows {e : ExprId} {ty : Ty} {kind : ExprKind}
    (h : (addExpr ty kind).run b = .ok (e, b')) (hty : b.program.Dictates kind ty) :
    b.program.GrowsTyped b'.program := by
  obtain ⟨hnew, hprogram, _⟩ := addExpr_run h
  have hkeeps : b.program.KeepsTypes b'.program := by
    rw [hprogram]
    exact { Program.KeepsTypes.refl b.program with exprs := .push fun _ _ => rfl }
  refine ⟨hkeeps, fun e' expr he => ?_⟩
  have hexprs : b'.program.exprs =
      b.program.exprs.push { span := .byte b.position.toNat, ty, kind } := by rw [hprogram]
  rw [Program.exprAt, hexprs, lookup_eq_ok_iff_peek, peek_push hnew] at he
  split at he
  · obtain rfl := Option.some.inj he
    exact .inr (hty.mono hkeeps)
  · exact .inl (lookup_eq_ok_iff_peek.2 he)

theorem addStmt_grows {s : StmtId} {kind : StmtKind} (h : (addStmt kind).run b = .ok (s, b')) :
    b.program.GrowsTyped b'.program := by
  rw [(addStmt_run h).2.1]
  exact .of_eq rfl rfl rfl

theorem addVar_grows {x : VarId} {name : String} {ty : Ty} {kind : VarKind}
    (h : (addVar name ty kind).run b = .ok (x, b')) : b.program.GrowsTyped b'.program := by
  rw [(addVar_run h).2.1]
  exact .of_exprs_eq rfl (.push fun _ _ => rfl) (.refl fun _ => .refl)

theorem setSuperclass_grows {c s : ClassId} (h : (setSuperclass c s).run b = .ok (u, b')) :
    b.program.GrowsTyped b'.program := by
  obtain ⟨_, _, _, _, _, _, _, rfl⟩ := setSuperclass_run h
  exact .of_eq rfl rfl rfl

theorem setStringClass_grows {c : ClassId} (h : (setStringClass c).run b = .ok (u, b')) :
    b.program.GrowsTyped b'.program := by
  obtain rfl := setStringClass_run h
  exact .of_eq rfl rfl rfl

theorem setMain_grows {s : StmtId} (h : (setMain s).run b = .ok (u, b')) :
    b.program.GrowsTyped b'.program := by
  obtain rfl := setMain_run h
  exact .of_eq rfl rfl rfl

theorem declareClass_grows {name : String} {superclass : Option ClassId} {c : ClassId}
    (h : (declareClass name superclass).run b = .ok (c, b')) :
    b.program.GrowsTyped b'.program := by
  obtain ⟨b₁, _, hpushed, hlink⟩ := declareClass_run h
  have hclass : b.program.GrowsTyped b₁.program := by
    rw [hpushed.1]
    exact .of_eq rfl rfl rfl
  rcases hlink with ⟨_, rfl⟩ | ⟨_, _, hlink⟩
  · exact hclass
  · exact hclass.trans (setSuperclass_grows hlink)

theorem declareField_grows {c : ClassId} {name : String} {ty : Ty} {x : VarId}
    (h : (declareField c name ty).run b = .ok (x, b')) : b.program.GrowsTyped b'.program := by
  obtain ⟨_, _, _, hprogram, _⟩ := declareField_run h
  rw [hprogram]
  exact .of_exprs_eq rfl (.push fun _ _ => rfl) (.refl fun _ => .refl)

theorem declareMethod_grows {origin : MethodOrigin} {c : ClassId} {name : String}
    {formals : List (String × Ty)} {returnType : Ty} {id : MethodId}
    (h : (declareMethod origin c name formals returnType).run b = .ok (id, b')) :
    b.program.GrowsTyped b'.program := by
  obtain ⟨_, _, _, _, _, _, _, _, _, hprogram, _⟩ := declareMethod_run h
  rw [hprogram]
  exact .of_exprs_eq rfl (.append (fun _ _ => rfl) _) (.push fun _ => .refl)

theorem setBody_grows {m : MethodId} {body : List StmtId} {result : Option ExprId}
    (h : (setBody m body result).run b = .ok (u, b')) : b.program.GrowsTyped b'.program := by
  obtain ⟨_, _, _, _, _, hmethods, rfl⟩ := setBody_run h
  exact .of_exprs_eq rfl (.refl fun _ _ => rfl)
    (.update (fun _ => .refl) hmethods fun _ _ => ⟨body, result, rfl⟩)

theorem closeLoop_grows {loop : StmtId} {cond : ExprId} {body : StmtId}
    (h : (closeLoop loop cond body).run b = .ok (u, b')) : b.program.GrowsTyped b'.program := by
  obtain ⟨_, _, rfl⟩ := closeLoop_run h
  exact .of_eq rfl rfl rfl

end Build

namespace Builder

variable {b b' : Builder} {u : Unit}

/-- Every expression gets the type that its kind dictates. -/
theorem ExprCall.grows {call : ExprCall} {e : ExprId} (h : call.run.run b = .ok (e, b')) :
    b.program.GrowsTyped b'.program := by
  cases call with
  | int _ | bool _ | null | this _ | not _ | arrayLength _ | instanceOf _ _ | cast _ _ | new _
  | newArray _ _ =>
    refine Build.addExpr_grows h ?_
    simp [Program.Dictates]
  | binary op _ _ =>
    refine Build.addExpr_grows h ?_
    cases op <;> simp [Program.Dictates, BinOp.resultType]
  | super _ =>
    obtain ⟨_, _, h⟩ := Build.lookup_run h
    exact Build.addExpr_grows h trivial
  | ident _ | field _ _ | call _ _ _ =>
    obtain ⟨decl, hdecl, h⟩ := Build.lookup_run h
    exact Build.addExpr_grows h ⟨decl, hdecl, rfl⟩
  | index _ _ =>
    obtain ⟨expr, _, hexpr, hty, h⟩ := Build.index_run h
    exact Build.addExpr_grows h ⟨expr, hexpr, hty⟩
  | str _ =>
    obtain ⟨_, h⟩ := Build.str_run h
    exact Build.addExpr_grows h trivial

/-- No call adds an expression of a wrong type or changes a type. -/
theorem Call.grows {call : Call} (h : call.run.run b = .ok (u, b')) :
    b.program.GrowsTyped b'.program := by
  cases call with
  | declareClass _ _ =>
    obtain ⟨_, h⟩ := effect_run.1 h
    exact Build.declareClass_grows h
  | setSuperclass _ _ => exact Build.setSuperclass_grows h
  | setStringClass _ => exact Build.setStringClass_grows h
  | declareField _ _ _ =>
    obtain ⟨_, h⟩ := effect_run.1 h
    exact Build.declareField_grows h
  | userMethod _ _ _ _ =>
    obtain ⟨_, h⟩ := effect_run.1 h
    obtain ⟨_, _, hspan, hdeclare⟩ := run_bind_eq_ok_iff.1 h
    rw [← (Build.freshSpan_run hspan).2.1]
    exact Build.declareMethod_grows hdeclare
  | runtimeMethod _ _ _ _ =>
    obtain ⟨_, h⟩ := effect_run.1 h
    exact Build.declareMethod_grows h
  | formal _ _ =>
    obtain ⟨_, h⟩ := effect_run.1 h
    obtain rfl := Build.formal_run h
    exact .refl _
  | setBody _ _ _ => exact Build.setBody_grows h
  | setMain _ => exact Build.setMain_grows h
  | expr _ =>
    obtain ⟨_, h⟩ := effect_run.1 h
    exact ExprCall.grows h
  | localVar _ _ _ =>
    obtain ⟨_, h⟩ := effect_run.1 h
    obtain ⟨_, _, hvar, h⟩ := run_bind_eq_ok_iff.1 h
    obtain ⟨_, _, hstmt, h⟩ := run_bind_eq_ok_iff.1 h
    obtain ⟨_, rfl⟩ := run_pure_eq_ok_iff.1 h
    exact (Build.addVar_grows hvar).trans (Build.addStmt_grows hstmt)
  | callStmt _ =>
    obtain ⟨_, h⟩ := effect_run.1 h
    exact Build.addStmt_grows (Build.callStmt_run h)
  | block _ | assign _ _ | ifElse _ _ _ | breakFrom _ =>
    obtain ⟨_, h⟩ := effect_run.1 h
    exact Build.addStmt_grows h

/-! ## Runs -/

/-- One act of building: a call with any arguments, or the end of a loop.  A loop begins with a call
of `block`. -/
inductive Act (b b' : Builder) : Prop where
  | call (call : Call) : call.run.run b = .ok ((), b') → Act b b'
  | closeLoop (loop : StmtId) (cond : ExprId) (body : StmtId) :
      (Build.closeLoop loop cond body).run b = .ok ((), b') → Act b b'

/-- Any number of acts. -/
def Acts : Builder → Builder → Prop :=
  Relation.ReflTransGen Act

/-- A loop whose body is built by acts is built by acts. -/
theorem Acts.whileLoop {cond : ExprId} {body : StmtId → Build StmtId} {loop : StmtId}
    (h : (Build.whileLoop cond body).run b = .ok (loop, b'))
    (hbody : ∀ b₁ s b₂, (body loop).run b₁ = .ok (s, b₂) → b₁.Acts b₂) : b.Acts b' := by
  simp only [Build.whileLoop, run_bind_eq_ok_iff, run_pure_eq_ok_iff] at h
  obtain ⟨_, b₁, hopen, s, b₂, hrun, _, _, hclose, rfl, rfl⟩ := h
  exact .head (.call (.block []) (effect_run.2 ⟨_, hopen⟩))
    (.tail (hbody b₁ s b₂ hrun) (.closeLoop _ cond s hclose))

theorem Acts.calls {calls : List Call} (h : (calls.forM Call.run).run b = .ok ((), b')) :
    b.Acts b' := by
  induction calls generalizing b with
  | nil =>
    obtain ⟨_, rfl⟩ := run_pure_eq_ok_iff.1 h
    exact .refl
  | cons call calls ih =>
    obtain ⟨_, b₁, hcall, hrest⟩ := run_bind_eq_ok_iff.1 h
    exact .head (.call call hcall) (ih hrest)

theorem Act.grows (h : b.Act b') : b.program.GrowsTyped b'.program := by
  cases h with
  | call _ h => exact Call.grows h
  | closeLoop _ _ _ h => exact Build.closeLoop_grows h

theorem Acts.grows (h : b.Acts b') : b.program.GrowsTyped b'.program := by
  induction h with
  | refl => exact .refl _
  | tail _ h ih => exact ih.trans h.grows

/-- Whatever is built, and however building goes on, every expression stays as it is, and has the
type that its kind dictates from the types that its parts have in the end. -/
theorem dictates_of_acts {e : ExprId} {expr : Expr} (made : Acts {} b) (more : b.Acts b')
    (h : b.program.exprAt e = .ok expr) :
    b'.program.exprAt e = .ok expr ∧ b'.program.Dictates expr.kind expr.ty := by
  have hkeeps := more.grows.keeps
  obtain ⟨_, he, rfl⟩ := hkeeps.exprs e expr h
  refine ⟨he, ?_⟩
  rcases made.grows.added e expr h with hempty | hty
  · simp [Program.exprAt, lookup] at hempty
  · exact hty.mono hkeeps

/-- A method that takes a table and returns a row, and an element of the row that a call of it
returns. -/
def rowTaken : Builder where
  program := {
    classes := #[⟨"Table", .byte 0, none, [], [], .ofList [("row", ⟨0⟩)]⟩]
    methods := #[⟨"row", .user (.byte 1), ⟨0⟩, [⟨0⟩], .array .int, none, [], none⟩]
    vars := #[⟨"rows", .byte 2, .array (.array .int), .formal ⟨0⟩⟩]
    exprs := #[⟨.byte 3, .array (.array .int), .ident ⟨0⟩⟩, ⟨.byte 4, .int, .int 0⟩,
      ⟨.byte 5, .object ⟨0⟩, .this⟩, ⟨.byte 6, .array .int, .call ⟨2⟩ ⟨0⟩ [⟨0⟩]⟩,
      ⟨.byte 7, .int, .index ⟨3⟩ ⟨1⟩⟩, ⟨.byte 8, .array .int, .index ⟨0⟩ ⟨1⟩⟩] }
  position := 9

/-- The same when the method has its body, a loop that is left at once. -/
def rowBodied : Builder where
  program := { rowTaken.program with
    methods := #[⟨"row", .user (.byte 1), ⟨0⟩, [⟨0⟩], .array .int, none, [⟨0⟩], some ⟨5⟩⟩]
    exprs := rowTaken.program.exprs.push ⟨.byte 10, .bool, .bool true⟩
    stmts := #[⟨.byte 9, .whileLoop ⟨6⟩ ⟨1⟩⟩, ⟨.byte 11, .breakFrom ⟨0⟩⟩] }
  position := 12

theorem acts_rowTaken : Acts {} rowTaken := by
  have hcalls : ([.declareClass "Table" none,
      .userMethod ⟨0⟩ "row" [("rows", .array (.array .int))] (.array .int), .expr (.ident ⟨0⟩),
      .expr (.int 0), .expr (.this ⟨0⟩), .expr (.call ⟨2⟩ ⟨0⟩ [⟨0⟩]), .expr (.index ⟨3⟩ ⟨1⟩),
      .expr (.index ⟨0⟩ ⟨1⟩)].forM Call.run).run {} = .ok ((), rowTaken) := by
    decide +kernel
  exact .calls hcalls

theorem acts_rowBodied : rowTaken.Acts rowBodied := by
  have hcalls : ([.block [], .expr (.bool true), .breakFrom ⟨0⟩,
      .setBody ⟨0⟩ [⟨0⟩] (some ⟨5⟩)].forM Call.run).run rowTaken = .ok ((), { rowBodied with
        program := { rowBodied.program with
          stmts := #[⟨.byte 9, .block []⟩, ⟨.byte 11, .breakFrom ⟨0⟩⟩] } }) := by
    decide +kernel
  exact .tail (Acts.calls hcalls) (.closeLoop ⟨0⟩ ⟨6⟩ ⟨1⟩ (by decide +kernel))

theorem dictates_rowBodied : Acts {} rowTaken ∧ rowTaken.Acts rowBodied ∧
    rowTaken.program.exprAt ⟨4⟩ = .ok ⟨.byte 7, .int, .index ⟨3⟩ ⟨1⟩⟩ ∧
    rowBodied.program.exprAt ⟨4⟩ = .ok ⟨.byte 7, .int, .index ⟨3⟩ ⟨1⟩⟩ ∧
    rowBodied.program.Dictates (.index ⟨3⟩ ⟨1⟩) .int :=
  ⟨acts_rowTaken, acts_rowBodied, rfl, dictates_of_acts acts_rowTaken acts_rowBodied rfl⟩

end Builder

end MipsBackend
