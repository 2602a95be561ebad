import MipsBackend.Proofs.Builder.Links

/-!
# Runs of a builder

A front end makes a program by calling the operations of a builder in an order of its choice.  Only
the body of a loop is built while the loop is under way, by a function that may call any operation.
A `Draft` is a builder together with the loops whose bodies are being built, so that a run is a
sequence of steps: an operation, the beginning of a loop or its end.  `Draft.Builds.whileLoop` says
that this loses nothing.

Calls are restricted in two ways.  No class may become its own ancestor, and the class of string
literals and the superclass of a new class must be classes of the program.  All other identifiers
may be any; operations on nodes that are not there fail, or do no harm.

The result is `Draft.linked_of_builds`: what is built is linked, its nodes have distinct spans, and
no node ever changes except that a loop takes the place that was reserved for it.
-/

namespace MipsBackend

deriving instance DecidableEq for Builder

namespace Builder

/-! ## Calls -/

/-- The operations that add an expression. -/
inductive ExprCall where
  | int (value : Int32)
  | bool (value : Bool)
  | str (value : String)
  | null
  | this (c : ClassId)
  | super (c : ClassId)
  | ident (v : VarId)
  | not (operand : ExprId)
  | binary (op : BinOp) (lhs rhs : ExprId)
  | arrayLength (array : ExprId)
  | index (array i : ExprId)
  | field (object : ExprId) (v : VarId)
  | instanceOf (operand : ExprId) (ty : Ty)
  | cast (ty : Ty) (operand : ExprId)
  | new (c : ClassId)
  | newArray (elem : Ty) (size : ExprId)
  | call (receiver : ExprId) (m : MethodId) (args : List ExprId)

/-- Adds the expression. -/
def ExprCall.run : ExprCall → Build ExprId
  | .int value => Build.int value
  | .bool value => Build.bool value
  | .str value => Build.str value
  | .null => Build.null
  | .this c => Build.this c
  | .super c => Build.super c
  | .ident v => Build.ident v
  | .not operand => Build.not operand
  | .binary op lhs rhs => Build.binary op lhs rhs
  | .arrayLength array => Build.arrayLength array
  | .index array i => Build.index array i
  | .field object v => Build.field object v
  | .instanceOf operand ty => Build.instanceOf operand ty
  | .cast ty operand => Build.cast ty operand
  | .new c => Build.new c
  | .newArray elem size => Build.newArray elem size
  | .call receiver m args => Build.call receiver m args

/-- The operations of a builder, apart from loops. -/
inductive Call where
  | declareClass (name : String) (superclass : Option ClassId)
  | setSuperclass (c superclass : ClassId)
  | setStringClass (c : ClassId)
  | declareField (c : ClassId) (name : String) (ty : Ty)
  | userMethod (c : ClassId) (name : String) (formals : List (String × Ty)) (returnType : Ty)
  | runtimeMethod (c : ClassId) (name : String) (formals : List (String × Ty)) (returnType : Ty)
  | formal (m : MethodId) (i : Nat)
  | setBody (m : MethodId) (body : List StmtId) (result : Option ExprId)
  | setMain (s : StmtId)
  | expr (call : ExprCall)
  | block (stmts : List StmtId)
  | localVar (name : String) (ty : Ty) (init : ExprId)
  | callStmt (e : ExprId)
  | assign (target value : ExprId)
  | ifElse (cond : ExprId) (thenStmt : StmtId) (elseStmt : Option StmtId)
  | breakFrom (loop : StmtId)

/-- An operation without its result. -/
def effect {α : Type} (op : Build α) : Build Unit := do
  let _ ← op
  return ()

/-- Performs the operation. -/
def Call.run : Call → Build Unit
  | .declareClass name superclass => effect (Build.declareClass name superclass)
  | .setSuperclass c superclass => Build.setSuperclass c superclass
  | .setStringClass c => Build.setStringClass c
  | .declareField c name ty => effect (Build.declareField c name ty)
  | .userMethod c name formals returnType => effect (Build.userMethod c name formals returnType)
  | .runtimeMethod c name formals returnType =>
    effect (Build.runtimeMethod c name formals returnType)
  | .formal m i => effect (Build.formal m i)
  | .setBody m body result => Build.setBody m body result
  | .setMain s => Build.setMain s
  | .expr call => effect call.run
  | .block stmts => effect (Build.block stmts)
  | .localVar name ty init => effect (Build.localVar name ty init)
  | .callStmt e => effect (Build.callStmt e)
  | .assign target value => effect (Build.assign target value)
  | .ifElse cond thenStmt elseStmt => effect (Build.ifElse cond thenStmt elseStmt)
  | .breakFrom loop => effect (Build.breakFrom loop)

/-- The call may be made: it refers to classes of the program and makes none its own ancestor. -/
def Call.Admissible (p : Program) : Call → Prop
  | .declareClass _ (some s) => p.hasClass s
  | .setSuperclass c s => ¬ p.Descends s c
  | .setStringClass c => p.hasClass c
  | _ => True

/-! ## Calls as edits -/

section Effects

variable {b b' : Builder} {u : Unit}

theorem effect_run {α : Type} {op : Build α} :
    (effect op).run b = .ok (u, b') ↔ ∃ a, op.run b = .ok (a, b') := by
  simp only [effect, run_bind_eq_ok_iff, run_pure_eq_ok_iff]
  constructor
  · rintro ⟨a, _, h, _, rfl⟩
    exact ⟨a, h⟩
  · rintro ⟨a, h⟩
    exact ⟨a, b', h, trivial, rfl⟩

/-- Whatever an operation looks up first, in the end it adds one expression. -/
theorem ExprCall.edit {call : ExprCall} {e : ExprId} (h : call.run.run b = .ok (e, b')) :
    b.Edit b' := by
  cases call with
  | int _ | bool _ | null | this _ | not _ | binary _ _ _ | arrayLength _ | instanceOf _ _
  | cast _ _ | new _ | newArray _ _ => exact Build.addExpr_edit h
  | super _ | ident _ | field _ _ | call _ _ _ =>
    obtain ⟨_, _, h⟩ := Build.lookup_run h
    exact Build.addExpr_edit h
  | index _ _ =>
    obtain ⟨_, _, _, _, h⟩ := Build.index_run h
    exact Build.addExpr_edit h
  | str _ =>
    obtain ⟨_, h⟩ := Build.str_run h
    exact Build.addExpr_edit h

/-- A class that has just been declared is not above any other. -/
theorem not_descends_of_push {p p' : Program} {c s : ClassId} (linked : p'.Linked)
    (hnew : nextId p.classes = .ok c) (hs : p.hasClass s)
    (hdown : p'.subclassesOf c = []) : ¬ p'.Descends s c := by
  intro hdesc
  rcases Relation.ReflTransGen.cases_tail hdesc with rfl | ⟨d, _, hstep⟩
  · rw [Program.hasClass, decide_eq_true_iff, toNat_of_nextId hnew] at hs
    exact Nat.lt_irrefl _ hs
  · have hlisted := Program.hasSubclass_iff.1 ((linked.forest.mirror d c).1 hstep)
    rw [hdown] at hlisted
    exact absurd hlisted List.not_mem_nil

/-- A call that succeeds has made a few edits. -/
theorem Call.edits {call : Call} (linked : b.program.Linked) (hcall : call.Admissible b.program)
    (h : call.run.run b = .ok (u, b')) : b.Edits b' := by
  cases call with
  | declareClass name superclass =>
    obtain ⟨c, h⟩ := effect_run.1 h
    obtain ⟨b₁, hnew, hpushed, hlink⟩ := Build.declareClass_run h
    have hedit : b.Edit b₁ := .class_ name hnew hpushed
    rcases hlink with ⟨_, rfl⟩ | ⟨s, rfl, hlink⟩
    · exact .single hedit
    · refine .tail (.single hedit) (Build.setSuperclass_edit hlink ?_)
      refine not_descends_of_push (hedit.linked linked) hnew hcall ?_
      rw [hpushed.1]
      simp [Program.subclassesOf, peekList, peek_push hnew]
  | setSuperclass c s => exact .single (Build.setSuperclass_edit h hcall)
  | setStringClass c => exact .single (Build.setStringClass_edit h hcall)
  | declareField c name ty =>
    obtain ⟨x, h⟩ := effect_run.1 h
    exact .single (Build.declareField_edit h)
  | userMethod c name formals returnType =>
    obtain ⟨m, h⟩ := effect_run.1 h
    exact .single (Build.userMethod_edit h)
  | runtimeMethod c name formals returnType =>
    obtain ⟨m, h⟩ := effect_run.1 h
    exact .single (Build.runtimeMethod_edit h)
  | formal m i =>
    obtain ⟨x, h⟩ := effect_run.1 h
    obtain rfl := Build.formal_run h
    exact .refl
  | setBody m body result => exact .single (Build.setBody_edit h)
  | setMain s => exact .single (Build.setMain_edit h)
  | expr call =>
    obtain ⟨e, h⟩ := effect_run.1 h
    exact .single (ExprCall.edit h)
  | localVar name ty init =>
    obtain ⟨declared, h⟩ := effect_run.1 h
    exact Build.localVar_edits h
  | callStmt e =>
    obtain ⟨s, h⟩ := effect_run.1 h
    exact .single (Build.addStmt_edit (Build.callStmt_run h))
  | block _ | assign _ _ | ifElse _ _ _ | breakFrom _ =>
    obtain ⟨s, h⟩ := effect_run.1 h
    exact .single (Build.addStmt_edit h)

/-- Any number of edits leaves the program linked and its spans distinct, and keeps all nodes. -/
theorem Edits.preserve (h : b.Edits b') (linked : b.program.Linked) (traced : b.Traced) :
    b'.program.Linked ∧ b'.Traced ∧ b.program.Keeps b'.program ∧
      Kept (fun _ : StmtId => Eq) b.program.stmts b'.program.stmts := by
  induction h with
  | refl => exact ⟨linked, traced, .refl _, .refl fun _ _ => rfl⟩
  | tail _ hedit ih =>
    obtain ⟨hlinked, htraced, hkeeps, hstmts⟩ := ih
    obtain ⟨hkeeps', hstmts'⟩ := hedit.keeps
    exact ⟨hedit.linked hlinked, hedit.traced htraced, hkeeps.trans hkeeps',
      hstmts.trans .trans hstmts'⟩

end Effects

end Builder

/-! ## Drafts -/

/-- A program being built, with the loops whose bodies are being built, innermost first, and their
conditions. -/
structure Draft where
  builder : Builder := {}
  opened : List (StmtId × ExprId) := []

namespace Draft

/-- The program so far. -/
def program (d : Draft) : Program :=
  d.builder.program

/-- One step of building: a call, or the beginning or the end of a loop. -/
inductive Step (d : Draft) : Draft → Prop where
  | call {b : Builder} (call : Builder.Call) : call.Admissible d.program →
      call.run.run d.builder = .ok ((), b) → Step d { d with builder := b }
  | openLoop {loop : StmtId} {b : Builder} (cond : ExprId) :
      Build.openLoop.run d.builder = .ok (loop, b) → Step d ⟨b, (loop, cond) :: d.opened⟩
  | closeLoop {loop : StmtId} {cond : ExprId} {rest : List (StmtId × ExprId)} {b : Builder}
      (body : StmtId) : d.opened = (loop, cond) :: rest →
      (Build.closeLoop loop cond body).run d.builder = .ok ((), b) → Step d ⟨b, rest⟩

/-- Any number of steps. -/
def Builds : Draft → Draft → Prop :=
  Relation.ReflTransGen Step

/-- A loop whose body is built in steps is built in steps. -/
theorem Builds.whileLoop {b b' : Builder} {opened : List (StmtId × ExprId)} {cond : ExprId}
    {body : StmtId → Build StmtId} {loop : StmtId}
    (h : (Build.whileLoop cond body).run b = .ok (loop, b'))
    (hbody : ∀ b₁ s b₂, (body loop).run b₁ = .ok (s, b₂) →
      Builds ⟨b₁, (loop, cond) :: opened⟩ ⟨b₂, (loop, cond) :: opened⟩) :
    Builds ⟨b, opened⟩ ⟨b', opened⟩ := by
  simp only [Build.whileLoop, run_bind_eq_ok_iff, run_pure_eq_ok_iff] at h
  obtain ⟨_, b₁, hopen, s, b₂, hrun, _, _, hclose, rfl, rfl⟩ := h
  exact .head (.openLoop cond hopen) (.tail (hbody b₁ s b₂ hrun) (.closeLoop s rfl hclose))

/-- Calls that need no permission are steps. -/
theorem Builds.calls {b b' : Builder} {opened : List (StmtId × ExprId)}
    {calls : List Builder.Call} (h : (calls.forM Builder.Call.run).run b = .ok ((), b'))
    (hcalls : ∀ call ∈ calls, ∀ p, call.Admissible p) : Builds ⟨b, opened⟩ ⟨b', opened⟩ := by
  induction calls generalizing b with
  | nil =>
    obtain ⟨_, rfl⟩ := run_pure_eq_ok_iff.1 h
    exact .refl
  | cons call calls ih =>
    rw [List.forall_mem_cons] at hcalls
    obtain ⟨_, b₁, hcall, hrest⟩ := run_bind_eq_ok_iff.1 h
    exact .head (.call call (hcalls.1 _) hcall) (ih hrest hcalls.2)

/-- What becomes of a statement: it does not change, unless it holds the place of a loop whose body
is being built. -/
def StmtKept (opened : List (StmtId × ExprId)) (s : StmtId) (stmt stmt' : Stmt) : Prop :=
  stmt' = stmt ∨ stmt.kind = .block [] ∧ ∃ cond body, (s, cond) ∈ opened ∧
    stmt' = { stmt with kind := .whileLoop cond body }

/-- All nodes of the first draft are in the second one, and no identifier, kind or type has changed
except where a loop was closed. -/
structure Keeps (d d' : Draft) : Prop where
  nodes : d.program.Keeps d'.program
  stmts : Kept (StmtKept d.opened) d.program.stmts d'.program.stmts
  /-- Loops opened since then are new statements. -/
  opened : ∀ loop cond, (loop, cond) ∈ d'.opened →
    (loop, cond) ∈ d.opened ∨ ∀ stmt, d.program.stmtAt loop ≠ .ok stmt

namespace Keeps

variable {d d' d'' : Draft}

theorem refl (d : Draft) : d.Keeps d :=
  ⟨.refl _, .refl fun _ _ => .inl rfl, fun _ _ h => .inl h⟩

theorem trans (h : d.Keeps d') (h' : d'.Keeps d'') : d.Keeps d'' := by
  refine ⟨h.nodes.trans h'.nodes, fun s stmt hstmt => ?_, fun loop cond hmem => ?_⟩
  · obtain ⟨stmt', hstmt', hkept⟩ := h.stmts s stmt hstmt
    obtain ⟨stmt'', hstmt'', hkept'⟩ := h'.stmts s stmt' hstmt'
    refine ⟨stmt'', hstmt'', ?_⟩
    rcases hkept with rfl | ⟨hblock, cond, body, hmem, rfl⟩
    · rcases hkept' with rfl | ⟨hblock, cond, body, hmem, rfl⟩
      · exact .inl rfl
      · have hold := (h.opened s cond hmem).resolve_right fun hnew => hnew _ hstmt
        exact .inr ⟨hblock, cond, body, hold, rfl⟩
    · -- A loop that was closed is not closed again.
      rcases hkept' with rfl | ⟨hblock', _⟩
      · exact .inr ⟨hblock, cond, body, hmem, rfl⟩
      · cases hblock'
  · rcases h'.opened loop cond hmem with hmem | hnew
    · exact h.opened loop cond hmem
    · refine .inr fun stmt hstmt => ?_
      obtain ⟨stmt', hstmt', _⟩ := h.stmts loop stmt hstmt
      exact hnew stmt' hstmt'

end Keeps

/-- The invariant of building. -/
structure Sound (d : Draft) : Prop where
  linked : d.program.Linked
  traced : d.builder.Traced
  /-- The place of a loop whose body is being built is held by an empty block. -/
  opened : ∀ loop cond, (loop, cond) ∈ d.opened →
    ∃ stmt, d.program.stmtAt loop = .ok stmt ∧ stmt.kind = .block []
  opened_nodup : (d.opened.map Prod.fst).Nodup

theorem sound_empty : Sound {} where
  linked := Program.linked_empty
  traced := .refl _
  opened := fun _ _ h => absurd h List.not_mem_nil
  opened_nodup := List.nodup_nil

variable {d d' : Draft}

/-- Edits keep the invariant, since they do not touch statements. -/
theorem Sound.edits (sound : d.Sound) {b : Builder} (h : d.builder.Edits b) :
    Sound ⟨b, d.opened⟩ ∧ d.Keeps ⟨b, d.opened⟩ := by
  obtain ⟨hlinked, htraced, hkeeps, hstmts⟩ := h.preserve sound.linked sound.traced
  constructor
  · refine ⟨hlinked, htraced, fun loop cond hmem => ?_, sound.opened_nodup⟩
    obtain ⟨stmt, hstmt, hblock⟩ := sound.opened loop cond hmem
    obtain ⟨_, hstmt', rfl⟩ := hstmts loop stmt hstmt
    exact ⟨stmt, hstmt', hblock⟩
  · refine ⟨hkeeps, fun s stmt hstmt => ?_, fun _ _ hmem => .inl hmem⟩
    obtain ⟨stmt', hstmt', rfl⟩ := hstmts s stmt hstmt
    exact ⟨stmt, hstmt', .inl rfl⟩

theorem Sound.openLoop (sound : d.Sound) {loop : StmtId} {cond : ExprId} {b : Builder}
    (h : Build.openLoop.run d.builder = .ok (loop, b)) :
    Sound ⟨b, (loop, cond) :: d.opened⟩ ∧ d.Keeps ⟨b, (loop, cond) :: d.opened⟩ := by
  obtain ⟨hnew, hbecomes⟩ := Build.addStmt_run h
  obtain ⟨⟨hlinked, htraced, hopened, hnodup⟩, hkeeps⟩ :=
    sound.edits (.single (Build.addStmt_edit h))
  have hplace : peek (·) b.program.stmts loop =
      some { span := .byte d.builder.position.toNat, kind := .block [] } := by
    rw [hbecomes.1, peek_push hnew, if_pos rfl]
  have hfresh : ∀ stmt, d.program.stmtAt loop ≠ .ok stmt := by
    intro stmt hstmt
    have hpeek := peek_of_lookup (g := (·)) hstmt
    rw [Draft.program, peek_nextId hnew] at hpeek
    cases hpeek
  constructor
  · refine ⟨hlinked, htraced, fun l c hmem => ?_, List.nodup_cons.2 ⟨fun hmem => ?_, hnodup⟩⟩
    · rcases List.mem_cons.1 hmem with heq | hmem
      · obtain ⟨rfl, rfl⟩ := Prod.mk.inj heq
        exact ⟨_, lookup_eq_ok_iff_peek.2 hplace, rfl⟩
      · exact hopened l c hmem
    · obtain ⟨⟨l, c⟩, hin, hl⟩ := List.mem_map.1 hmem
      obtain rfl : l = loop := hl
      obtain ⟨stmt, hstmt, _⟩ := sound.opened l c hin
      exact hfresh stmt hstmt
  · refine ⟨hkeeps.nodes, hkeeps.stmts, fun l c hmem => ?_⟩
    rcases List.mem_cons.1 hmem with heq | hmem
    · obtain ⟨rfl, rfl⟩ := Prod.mk.inj heq
      exact .inr hfresh
    · exact .inl hmem

theorem Sound.closeLoop (sound : d.Sound) {loop : StmtId} {cond : ExprId} {body : StmtId}
    {rest : List (StmtId × ExprId)} {b : Builder} (hopened : d.opened = (loop, cond) :: rest)
    (h : (Build.closeLoop loop cond body).run d.builder = .ok ((), b)) :
    Sound ⟨b, rest⟩ ∧ d.Keeps ⟨b, rest⟩ := by
  obtain ⟨stmts, hstmts, rfl⟩ := Build.closeLoop_run h
  obtain ⟨stmt, hstmt, hblock⟩ := sound.opened loop cond (hopened ▸ List.mem_cons_self)
  have hnodup := sound.opened_nodup
  rw [hopened, List.map_cons, List.nodup_cons] at hnodup
  constructor
  · refine ⟨sound.linked.withStmts stmts, ?_, fun l c hmem => ?_, hnodup.2⟩
    · have hspans := map_update_of_eq (g := (·.span)) hstmts fun _ => rfl
      simp only [Builder.Traced, Program.spans, hspans]
      exact sound.traced
    · have hrest : (l, c) ∈ rest := hmem
      obtain ⟨stmt', hstmt', hblock'⟩ := sound.opened l c (hopened ▸ List.mem_cons_of_mem _ hrest)
      have hne : l ≠ loop := by
        rintro rfl
        exact hnodup.1 (List.mem_map.2 ⟨(l, c), hrest, rfl⟩)
      have hpeek : peek (·) stmts l = _ := peek_update hstmts
      rw [if_neg hne] at hpeek
      exact ⟨stmt', lookup_eq_ok_iff_peek.2 (hpeek.trans (peek_of_lookup hstmt')), hblock'⟩
  · refine ⟨{ Program.Keeps.refl d.program with }, ?_, fun l c hmem => ?_⟩
    · refine .update (fun _ _ => .inl rfl) hstmts fun old hold => ?_
      obtain rfl := Except.ok.inj (hstmt.symm.trans hold)
      exact .inr ⟨hblock, cond, body, hopened ▸ List.mem_cons_self, rfl⟩
    · exact .inl (hopened ▸ List.mem_cons_of_mem _ hmem)

/-- A step keeps the invariant and the nodes. -/
theorem Step.preserves (h : d.Step d') (sound : d.Sound) : d'.Sound ∧ d.Keeps d' := by
  cases h with
  | call call hcall hrun => exact sound.edits (Builder.Call.edits sound.linked hcall hrun)
  | openLoop cond hrun => exact sound.openLoop hrun
  | closeLoop body hopened hrun => exact sound.closeLoop hopened hrun

theorem Builds.preserves (h : d.Builds d') (sound : d.Sound) : d'.Sound ∧ d.Keeps d' := by
  induction h with
  | refl => exact ⟨sound, .refl d⟩
  | tail _ hstep ih =>
    obtain ⟨hsound, hkeeps⟩ := ih
    obtain ⟨hsound', hkeeps'⟩ := hstep.preserves hsound
    exact ⟨hsound', hkeeps.trans hkeeps'⟩

/-- Whatever is built is linked, no two of its nodes have the same span, every span is one byte of
the source, and building on keeps all nodes. -/
theorem linked_of_builds (made : Builds {} d) (more : d.Builds d') :
    d'.program.Linked ∧ d'.program.spans.Nodup ∧
      (∀ s ∈ d'.program.spans, s.hi.toNat = s.lo.toNat + 1 ∧ s.isDummy = false) ∧ d.Keeps d' := by
  obtain ⟨hsound, hkeeps⟩ := more.preserves (made.preserves sound_empty).1
  exact ⟨hsound.linked, hsound.traced.spans_nodup, fun _ => hsound.traced.isByte, hkeeps⟩

/-! ### A run -/

/-- A class whose superclass is still missing, with a method, and a loop whose body is being
built. -/
def unlinked : Draft where
  builder := {
    program := {
      classes := #[⟨"Object", .byte 0, none, [], [], .empty⟩,
        ⟨"A", .byte 1, none, [], [], .ofList [("f", ⟨0⟩)]⟩]
      methods := #[⟨"f", .user (.byte 2), ⟨1⟩, [⟨0⟩], .void, none, [], none⟩]
      vars := #[⟨"x", .byte 3, .int, .formal ⟨0⟩⟩]
      exprs := #[⟨.byte 4, .bool, .bool true⟩]
      stmts := #[⟨.byte 5, .block []⟩] }
    position := 6 }
  opened := [(⟨0⟩, ⟨0⟩)]

/-- The same program when the superclass has been set and the loop, which is left from inside, has
been closed. -/
def linkedLate : Draft where
  builder := {
    program := {
      classes := #[⟨"Object", .byte 0, none, [⟨1⟩], [], .empty⟩,
        ⟨"A", .byte 1, some ⟨0⟩, [], [], .ofList [("f", ⟨0⟩)]⟩]
      methods := #[⟨"f", .user (.byte 2), ⟨1⟩, [⟨0⟩], .void, none, [], none⟩]
      vars := #[⟨"x", .byte 3, .int, .formal ⟨0⟩⟩]
      exprs := #[⟨.byte 4, .bool, .bool true⟩]
      stmts := #[⟨.byte 5, .whileLoop ⟨0⟩ ⟨1⟩⟩, ⟨.byte 6, .breakFrom ⟨0⟩⟩] }
    position := 7 }

theorem builds_unlinked : Builds {} unlinked := by
  have hcalls : ([.declareClass "Object" none, .declareClass "A" none,
      .userMethod ⟨1⟩ "f" [("x", .int)] .void, .expr (.bool true)].forM Builder.Call.run).run {} =
      .ok ((), { unlinked.builder with
        program := { unlinked.builder.program with stmts := #[] }, position := 5 }) := by
    decide +kernel
  refine .tail (Builds.calls hcalls (by simp [Builder.Call.Admissible])) (.openLoop ⟨0⟩ ?_)
  decide +kernel

theorem builds_linkedLate : unlinked.Builds linkedLate := by
  have hlink : (Build.setSuperclass ⟨1⟩ ⟨0⟩).run unlinked.builder =
      .ok ((), { unlinked.builder with
        program := { unlinked.builder.program with classes := linkedLate.program.classes } }) := by
    decide +kernel
  have hbreak : ([.breakFrom ⟨0⟩].forM Builder.Call.run).run { unlinked.builder with
        program := { unlinked.builder.program with classes := linkedLate.program.classes } } =
      .ok ((), { linkedLate.builder with
        program := { linkedLate.builder.program with
          stmts := #[⟨.byte 5, .block []⟩, ⟨.byte 6, .breakFrom ⟨0⟩⟩] } }) := by
    decide +kernel
  have hroot : ¬ unlinked.program.Descends ⟨0⟩ ⟨1⟩ :=
    Program.not_descends_of_superclassOf (by decide +kernel) (by decide)
  refine .head (.call (.setSuperclass ⟨1⟩ ⟨0⟩) hroot hlink)
    (.tail (Builds.calls hbreak (by simp [Builder.Call.Admissible])) (.closeLoop ⟨1⟩ rfl ?_))
  decide +kernel

theorem linked_linkedLate : Builds {} unlinked ∧ unlinked.Builds linkedLate ∧
    linkedLate.program.Linked ∧ linkedLate.program.spans.Nodup ∧
    (∀ s ∈ linkedLate.program.spans, s.hi.toNat = s.lo.toNat + 1 ∧ s.isDummy = false) ∧
    unlinked.Keeps linkedLate :=
  ⟨builds_unlinked, builds_linkedLate, linked_of_builds builds_unlinked builds_linkedLate⟩

end Draft

end MipsBackend
