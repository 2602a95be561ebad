import MipsBackend.Proofs.Code.Labels
import MipsBackend.Proofs.Code.References

/-!
# The labels of a body

The code of a body begins with the label that it is entered by, and all others are made for its
nodes (`Body.exists_labels`).  It refers to these and to what its literals and callees link to
(`Body.refersTo_code`).  A literal in a body is one of the program (`Body.exists_of_mem_literals`).
-/

namespace MipsBackend

open Gen

variable {p : Program} {l : Layout} {code : Code} {f f' : Frame} {span : Span}
  {known : Label → Prop}

/-- The code of the entry point: label, start of the runtime, main statement and exit. -/
theorem Program.entryCode_eq_ok (h : p.entryCode l = .ok code) :
    ∃ (span : Span) (body : Code), (p.main = none ∧ body = [] ∨ ∃ main f, p.main = some main ∧
        ((p.stmtTree main).scopedCode p l).run .empty = .ok (body, f)) ∧
      code = Code.of .dummy [.segment .code]
        ++ Code.of span [.globl .main, .label .main, .callRoutine .vmInit]
        ++ body ++ Code.of span [.li .v0 10, .syscall] := by
  cases hmain : p.main with
  | none =>
    rw [entryCode, hmain] at h
    exact ⟨.dummy, [], Or.inl ⟨rfl, rfl⟩, pure_eq_ok_iff.1 h⟩
  | some main =>
    simp only [entryCode, hmain, bind_eq_ok_iff, pure_eq_ok_iff] at h
    obtain ⟨_, _, _, rfl, ⟨_, f⟩, hrun, body, rfl, rfl⟩ := h
    exact ⟨_, body, Or.inr ⟨main, f, rfl, hrun⟩, rfl⟩

/-- The result of a method is computed by the code of an expression, if there is one. -/
theorem MethodDecl.resultCode_run {decl : MethodDecl}
    (h : (decl.resultCode p l).run f = .ok ((code, span), f')) :
    decl.result = none ∧ code = [] ∨
      ∃ r, decl.result = some r ∧ ((p.exprTree r).code p l).run f = .ok (code, f') := by
  rw [resultCode] at h
  split at h
  · rename_i r hresult _
    simp only [run_bind_eq_ok_iff, run_pure_eq_ok_iff, Prod.mk.injEq] at h
    obtain ⟨_, _, hrun, ⟨rfl, _⟩, rfl⟩ := h
    exact Or.inr ⟨r, hresult, hrun⟩
  · rename_i hresult _
    simp only [run_pure_eq_ok_iff, Prod.mk.injEq] at h
    obtain ⟨⟨rfl, _⟩, _⟩ := h
    exact Or.inl ⟨hresult, rfl⟩
  · simp only [run_liftM_eq_ok_iff, defect_ne_ok, false_and] at h

/-- The body that a label is the entry of. -/
def Label.body? : Label → Option Body
  | .main => some .entry
  | .method id _ => some (.method id)
  | _ => none

namespace Body

variable {b : Body}

/-- The label that the body is entered by. -/
def label (p : Program) : Body → Except Fault Label
  | .entry => .ok .main
  | .method id => p.methodLabel id

/-- The string literals in the body. -/
def literals (p : Program) (b : Body) : List ExprId :=
  StmtTree.literalsAll (b.stmts p) ++ (b.result? p).elim [] ExprTree.literals

/-- The code of a body defines its label first, and then labels of its nodes. -/
theorem exists_labels (h : b.code p l = .ok code) : ∃ (head : Label) (inner : Code),
    b.label p = .ok head ∧ head.body? = some b ∧ code.labels = head :: inner.labels ∧
      inner.LabelledBy (b.nodes p) := by
  cases b with
  | entry =>
    obtain ⟨span, body, hbody, rfl⟩ := Program.entryCode_eq_ok h
    refine ⟨.main, body, rfl, rfl,
      by simp [Inst.definedLabel, Inst.callRoutine, List.filterMap_cons], ?_⟩
    rcases hbody with ⟨_, rfl⟩ | ⟨main, f, hmain, hrun⟩
    · exact Code.labelledBy_of_labels_eq_nil rfl
    · have hlabelled := labelledBy_inScope hrun StmtTree.labelledBy_code
      simpa [nodes, stmts, result?, hmain, StmtTree.nodesAll] using hlabelled
  | method id =>
    obtain ⟨decl, label, m, body, f₁, result, span, f₂, leave, hdecl, huser, hlabel, _, hbody,
      hresult, hleave, rfl⟩ := Program.methodCode_eq_ok h
    obtain ⟨_, hmoves⟩ := epilogue_moves span hleave
    refine ⟨label, body ++ result, hlabel, ?_, ?_, ?_⟩
    · rw [Program.methodLabel, hdecl] at hlabel
      cases horigin : decl.origin with
      | runtime => simp [horigin, MethodOrigin.isUser] at huser
      | user _ =>
        simp only [horigin, bind, Except.bind] at hlabel
        rw [pure_eq_ok_iff.1 hlabel]
        rfl
    · rw [Code.labels_append, Code.labels_append, Code.labels_append, hmoves.labels_eq_nil]
      simp [Inst.definedLabel, prologue, List.filterMap_cons]
    · have hstmts := StmtTree.labelledBy_codeAll hbody fun _ _ => StmtTree.labelledBy_code
      rcases MethodDecl.resultCode_run hresult with ⟨hnone, rfl⟩ | ⟨r, hsome, hrun⟩
      · simpa [nodes, stmts, result?, hdecl, hnone] using hstmts
      · simpa [nodes, stmts, result?, hdecl, hsome] using
          hstmts.append (ExprTree.labelledBy_code hrun)

theorem refersTo_epilogue {receiverOffset height : Int} {ty : Ty} {leave : List Inst}
    (h : epilogue receiverOffset height ty = .ok leave) : (Code.of span leave).RefersTo known := by
  simp only [epilogue, bind_eq_ok_iff, pure_eq_ok_iff] at h
  obtain ⟨slot, _, result, hresult, _, _, bottom, _, drop, _, rfl⟩ := h
  have hstore : (Code.of span result).RefersTo known := by
    rw [storeResult] at hresult
    split at hresult
    · cases hresult
      exact Code.refersTo_nil
    · split at hresult
      · simp only [bind_eq_ok_iff, pure_eq_ok_iff] at hresult
        obtain ⟨data, _, rfl⟩ := hresult
        simp [Inst.operand?, Inst.written?]
      · cases hresult
        simp [Inst.operand?, Inst.written?]
  rw [Code.of_append, Code.of_append, Code.refersTo_append, Code.refersTo_append]
  refine ⟨⟨?_, hstore⟩, ?_⟩
  · simp [Inst.operand?, Inst.written?]
  · simp [Inst.operand?, Inst.written?]

theorem leavesTo_empty : Frame.empty.LeavesTo known := by
  intro loop h hloop
  simp [Frame.empty] at hloop

/-- The code of a body refers to its own labels and to those that it links to. -/
theorem refersTo_code (h : b.code p l = .ok code)
    (links : Links p known (b.literals p) (b.callees p))
    (defined : ∀ label ∈ code.labels, known label) : code.RefersTo known := by
  cases b with
  | entry =>
    obtain ⟨span, body, hbody, rfl⟩ := Program.entryCode_eq_ok h
    simp only [Code.labels_append, List.forall_mem_append] at defined
    obtain ⟨⟨⟨_, definedStart⟩, definedBody⟩, _⟩ := defined
    have hmain : known .main := definedStart _ (by simp [Inst.definedLabel])
    have hrefers : body.RefersTo known := by
      rcases hbody with ⟨_, rfl⟩ | ⟨main, f, hmain, hrun⟩
      · exact Code.refersTo_nil
      · have linksMain : Links p known (p.stmtTree main).literals (p.stmtTree main).callees := by
          simpa [literals, callees, stmts, result?, hmain, StmtTree.literalsAll,
            StmtTree.calleesAll] using links
        exact (refersTo_inScope hrun (fun hrun defined =>
          StmtTree.refersTo_code hrun linksMain defined leavesTo_empty) definedBody).1
    simp [hrefers, hmain, Inst.operand?, Inst.written?, Inst.callRoutine, links.routine]
  | method id =>
    obtain ⟨decl, label, m, body, f₁, result, span, f₂, leave, hdecl, _, hlabel, _, hbody, hresult,
      hleave, rfl⟩ := Program.methodCode_eq_ok h
    simp only [Code.labels_append, List.forall_mem_append] at defined
    obtain ⟨⟨⟨definedStart, definedBody⟩, definedResult⟩, _⟩ := defined
    have hknown : known label := definedStart _ (by simp [Inst.definedLabel])
    rw [literals, Body.callees] at links
    have hrefers : body.RefersTo known := by
      have linksBody : Links p known (StmtTree.literalsAll (stmts p (.method id)))
          (StmtTree.calleesAll (stmts p (.method id))) := links.left
      simp only [stmts, hdecl] at linksBody
      exact (StmtTree.refersTo_codeAll hbody (fun _ _ _ _ _ => StmtTree.refersTo_code) linksBody
        definedBody leavesTo_empty).1
    have hrefersResult : result.RefersTo known := by
      rcases MethodDecl.resultCode_run hresult with ⟨_, rfl⟩ | ⟨r, hsome, hrun⟩
      · exact Code.refersTo_nil
      · have linksResult := links.right
        simp only [result?, hdecl, hsome, Option.map_some, Option.elim_some] at linksResult
        exact ExprTree.refersTo_code hrun linksResult definedResult
    simp [hrefers, hrefersResult, refersTo_epilogue hleave, prologue, hknown, Inst.operand?,
      Inst.written?]

end Body

/-! ## Literals of a program -/

/-- The expression is a string literal of the program. -/
def Program.IsLiteral (p : Program) (e : ExprId) : Prop :=
  ∃ expr text, p.exprAt e = .ok expr ∧ expr.kind = .str text

namespace ExprTree

theorem mem_literalsAll {e : ExprId} {es : List (Unit → ExprTree)} :
    e ∈ literalsAll es ↔ ∃ tree ∈ es, e ∈ (tree ()).literals := by
  induction es with
  | nil => simp [literalsAll]
  | cons tree trees ih => simp [literalsAll, ih]

end ExprTree

namespace StmtTree

theorem mem_literalsAll {e : ExprId} {ss : List (Unit → StmtTree)} :
    e ∈ literalsAll ss ↔ ∃ tree ∈ ss, e ∈ (tree ()).literals := by
  induction ss with
  | nil => simp [literalsAll]
  | cons tree trees ih => simp [literalsAll, ih]

end StmtTree

namespace Program

theorem isLiteral_of_mem_unfoldExpr {bound : Nat} {id e : ExprId}
    (h : e ∈ (p.unfoldExpr bound id).literals) : p.IsLiteral e := by
  induction bound generalizing id with
  | zero =>
    unfold unfoldExpr at h
    split at h
    · exact absurd h List.not_mem_nil
    · exact absurd h List.not_mem_nil
  | succ bound ih =>
    unfold unfoldExpr at h
    split at h
    · exact absurd h List.not_mem_nil
    · rename_i expr hexpr
      dsimp only at h
      split at h
      case h_2 text hkind =>
        obtain rfl := List.mem_singleton.1 h
        exact ⟨expr, text, hexpr, hkind⟩
      case h_9 | h_11 =>
        rw [ExprTree.literals, List.mem_append] at h
        exact h.elim ih ih
      case h_17 =>
        rw [ExprTree.literals, List.mem_append, ExprTree.mem_literalsAll] at h
        rcases h with h | ⟨tree, htree, h⟩
        · exact ih h
        · obtain ⟨arg, _, rfl⟩ := List.mem_map.1 htree
          exact ih h
      case h_8 | h_10 | h_12 | h_13 | h_14 | h_16 => exact ih h
      all_goals exact absurd h List.not_mem_nil

theorem isLiteral_of_mem_unfoldStmt {bound : Nat} {id : StmtId} {e : ExprId}
    (h : e ∈ (p.unfoldStmt bound id).literals) : p.IsLiteral e := by
  have hexpr : ∀ {id}, e ∈ (p.exprTree id).literals → p.IsLiteral e :=
    fun h => isLiteral_of_mem_unfoldExpr h
  induction bound generalizing id with
  | zero =>
    unfold unfoldStmt at h
    split at h
    · exact absurd h List.not_mem_nil
    · exact absurd h List.not_mem_nil
  | succ bound ih =>
    unfold unfoldStmt at h
    split at h
    · exact absurd h List.not_mem_nil
    · dsimp only at h
      split at h
      case h_1 =>
        rw [StmtTree.literals, StmtTree.mem_literalsAll] at h
        obtain ⟨tree, htree, h⟩ := h
        obtain ⟨stmt, _, rfl⟩ := List.mem_map.1 htree
        exact ih h
      case h_2 =>
        split at h
        · exact hexpr h
        · exact absurd h List.not_mem_nil
      case h_3 => exact hexpr h
      case h_4 =>
        rw [StmtTree.literals, List.mem_append] at h
        exact h.elim hexpr hexpr
      case h_5 =>
        rw [StmtTree.literals, List.mem_append] at h
        exact h.elim hexpr ih
      case h_6 =>
        rw [StmtTree.literals, List.mem_append, List.mem_append] at h
        exact h.elim (fun h => h.elim hexpr ih) ih
      case h_7 =>
        rw [StmtTree.literals, List.mem_append] at h
        exact h.elim ih hexpr
      case h_8 => exact absurd h List.not_mem_nil

end Program

/-- The literals in a body are literals of the program. -/
theorem Body.isLiteral_of_mem {b : Body} {e : ExprId} (h : e ∈ b.literals p) : p.IsLiteral e := by
  rw [literals, List.mem_append, StmtTree.mem_literalsAll] at h
  rcases h with ⟨tree, htree, h⟩ | h
  · cases b with
    | entry =>
      obtain ⟨main, _, rfl⟩ := List.mem_map.1 htree
      exact Program.isLiteral_of_mem_unfoldStmt h
    | method id =>
      rw [stmts] at htree
      split at htree
      · obtain ⟨stmt, _, rfl⟩ := List.mem_map.1 htree
        exact Program.isLiteral_of_mem_unfoldStmt h
      · exact absurd htree List.not_mem_nil
  · cases hresult : b.result? p with
    | none =>
      rw [hresult] at h
      exact absurd h List.not_mem_nil
    | some tree =>
      rw [hresult] at h
      cases b with
      | entry => cases hresult
      | method id =>
        rw [result?] at hresult
        split at hresult
        · obtain ⟨r, _, rfl⟩ := Option.map_eq_some_iff.1 hresult
          exact Program.isLiteral_of_mem_unfoldExpr h
        · cases hresult

end MipsBackend
