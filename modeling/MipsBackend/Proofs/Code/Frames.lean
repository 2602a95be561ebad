import MipsBackend.Proofs.Code.Bodies

/-!
# What a statement does to the frame

The code of a word-typed expression pushes its value, and the frame grows by as many bytes
(`ExprTree.frame_of_code`).  A statement leaves the height alone, unless it declares a variable, but
it does add to the frame's tables: the variables declared in it and the heights of the loops in it.
Entries that the frame has had before stay what they were (`Frame.Extends`), since a variable is
declared once and a loop is a node of its own.
-/

namespace MipsBackend

open Gen

variable {p : Program} {l : Layout} {f f₁ f₂ f' : Frame} {span : Span} {code : Code}
  {declared declared' : List VarId} {nodes nodes' : List Node}

/-! ## Expressions -/

namespace ExprTree

variable {e : ExprTree} {es : List (Unit → ExprTree)}

theorem codeAll_cons_eq_ok {e : Unit → ExprTree} {first rest : Code}
    (hfirst : ((e ()).code p l).run f = .ok (first, f₁))
    (hrest : (codeAll p l es).run f₁ = .ok (rest, f₂)) :
    (codeAll p l (e :: es)).run f = .ok (first ++ rest, f₂) := by
  rw [codeAll, run_bind_eq_ok_iff]
  exact ⟨first, f₁, hfirst, run_bind_eq_ok_iff.2 ⟨rest, f₂, hrest, rfl⟩⟩

theorem codeAll_singleton_eq_ok {e : Unit → ExprTree}
    (h : ((e ()).code p l).run f = .ok (code, f')) : (codeAll p l [e]).run f = .ok (code, f') := by
  rw [← List.append_nil code]
  exact codeAll_cons_eq_ok h rfl

/-- An expression for which code is generated has a trace with that code. -/
theorem exists_traced_run (h : (e.code p l).run f = .ok (code, f')) :
    ∃ t, (e.traced p l).run f = .ok (t, f') ∧ t.code = code := by
  rw [← code_map_traced, StateT.run_map] at h
  cases hrun : (e.traced p l).run f with
  | error fault =>
    rw [hrun] at h
    exact absurd h nofun
  | ok result =>
    rw [hrun] at h
    obtain ⟨rfl, rfl⟩ := Prod.mk.inj (Except.ok.inj h)
    exact ⟨result.1, rfl, rfl⟩

/-- So have expressions in order. -/
theorem exists_tracedAll_run (h : (codeAll p l es).run f = .ok (code, f')) :
    ∃ t, (tracedAll p l es).run f = .ok (t, f') ∧ t.code = code := by
  induction es generalizing f f' code with
  | nil =>
    obtain ⟨rfl, rfl⟩ := run_pure_eq_ok_iff.1 h
    exact ⟨[], rfl, rfl⟩
  | cons e es ih =>
    simp only [codeAll, run_bind_eq_ok_iff, run_pure_eq_ok_iff] at h
    obtain ⟨first, f₁, hfirst, rest, _, hrest, rfl, rfl⟩ := h
    obtain ⟨t, hrun, rfl⟩ := exists_traced_run hfirst
    obtain ⟨t', hrun', rfl⟩ := ih hrest
    simp only [tracedAll, run_bind_eq_ok_iff, run_pure_eq_ok_iff]
    exact ⟨t ++ t', ⟨t, f₁, hrun, t', _, hrun', rfl, rfl⟩, Trace.code_append t t'⟩

/-- The code of an expression pushes a value and changes nothing else in the frame. -/
theorem frame_of_code (htyped : e.isWordTyped p) (h : (e.code p l).run f = .ok (code, f')) :
    f' = { f with height := f.height + e.ty.stackBytes } := by
  obtain ⟨t, hrun, _⟩ := exists_traced_run h
  have hkeeps : KeepsHeight p l 0 (fun _ => 0) e := keepsHeight htyped
  exact (hkeeps.run hrun).1

theorem frame_of_codeAll (htyped : ∀ e ∈ es, (e ()).isWordTyped p)
    (h : (codeAll p l es).run f = .ok (code, f')) :
    f' = { f with height := f.height + valueBytes es } := by
  obtain ⟨t, hrun, _⟩ := exists_tracedAll_run h
  have hkeeps : ∀ e ∈ es, KeepsHeight p l 0 (fun _ => 0) (e ()) :=
    fun e he => keepsHeight (htyped e he)
  exact (KeepsHeight.tracedAll_run hkeeps hrun).1

end ExprTree

/-! ## Tables -/

/-- Entries of the tables stay when code is made of statements that declare some variables and
consist of some nodes, and there are new entries for these only. -/
structure Frame.Extends (f f' : Frame) (declared : List VarId) (nodes : List Node) : Prop where
  kept {x : VarId} {offset : Int} :
    f.locals.lookup x = some offset → f'.locals.lookup x = some offset
  fresh {x : VarId} : x ∉ declared → f'.locals.lookup x = f.locals.lookup x
  exits {loop : StmtId} : .stmt loop ∉ nodes → f'.loopExits.lookup loop = f.loopExits.lookup loop

namespace Frame.Extends

theorem of_eq (hlocals : f'.locals = f.locals) (hexits : f'.loopExits = f.loopExits) :
    f.Extends f' declared nodes := by
  refine ⟨fun h => ?_, fun _ => ?_, fun _ => ?_⟩
  · rw [hlocals, h]
  · rw [hlocals]
  · rw [hexits]

theorem trans (h : f.Extends f₁ declared nodes) (h' : f₁.Extends f' declared' nodes') :
    f.Extends f' (declared ++ declared') (nodes ++ nodes') := by
  refine ⟨fun hx => h'.kept (h.kept hx), fun hx => ?_, fun hloop => ?_⟩
  · rw [List.mem_append, not_or] at hx
    rw [h'.fresh hx.2, h.fresh hx.1]
  · rw [List.mem_append, not_or] at hloop
    rw [h'.exits hloop.2, h.exits hloop.1]

theorem mono (h : f.Extends f' declared nodes) (hdeclared : declared ⊆ declared')
    (hnodes : nodes ⊆ nodes') : f.Extends f' declared' nodes' :=
  ⟨h.kept, fun hx => h.fresh fun hmem => hx (hdeclared hmem),
    fun hloop => h.exits fun hmem => hloop (hnodes hmem)⟩

/-- The height plays no part. -/
theorem with_height {height : Int} (h : f.Extends f' declared nodes) :
    f.Extends { f' with height } declared nodes :=
  ⟨h.kept, h.fresh, h.exits⟩

/-- A new loop adds its height. -/
theorem enterLoop (f : Frame) {loop : StmtId} (hmem : .stmt loop ∈ nodes) :
    f.Extends (f.enterLoop loop) declared nodes := by
  refine ⟨fun h => h, fun _ => rfl, fun {other} hother => ?_⟩
  have hne : other ≠ loop := by
    rintro rfl
    exact hother hmem
  rw [Frame.enterLoop, List.lookup_cons, beq_eq_false_iff_ne.2 hne]

/-- A new variable adds its offset. -/
theorem declare {x : VarId} {u : Unit} (h : (Gen.declared x).run f = .ok (u, f'))
    (hmem : x ∈ declared) : f.Extends f' declared nodes := by
  obtain ⟨hnone, rfl⟩ := declared_frame h
  refine ⟨fun {y offset} hy => ?_, fun {y} hy => ?_, fun _ => rfl⟩
  · have hne : y ≠ x := by
      rintro rfl
      rw [hnone] at hy
      cases hy
    rw [List.lookup_cons, beq_eq_false_iff_ne.2 hne, hy]
  · have hne : y ≠ x := by
      rintro rfl
      exact hy hmem
    rw [List.lookup_cons, beq_eq_false_iff_ne.2 hne]

end Frame.Extends

/-! ## Statements -/

namespace StmtTree

mutual

/-- The variables declared in a statement. -/
def declares : StmtTree → List VarId
  | .broken _ _ | .call _ _ | .assign _ _ _ | .breakFrom _ _ => []
  | .block _ stmts => declaresAll stmts
  | .localVar _ var _ => [var]
  | .ifThen _ _ thenStmt => (thenStmt ()).declares
  | .ifElse _ _ thenStmt elseStmt => (thenStmt ()).declares ++ (elseStmt ()).declares
  | .whileLoop _ _ body => (body ()).declares

/-- The variables declared in some statements. -/
def declaresAll : List (Unit → StmtTree) → List VarId
  | [] => []
  | s :: ss => (s ()).declares ++ declaresAll ss

end

/-- How many bytes a statement leaves on the stack. -/
def leftBytes : StmtTree → Int
  | .localVar _ _ init => init.ty.stackBytes
  | _ => 0

theorem leftBytes_nonneg (s : StmtTree) : 0 ≤ s.leftBytes := by
  cases s with
  | localVar info var init => exact init.ty.stackBytes_nonneg
  | _ => exact Int.le_refl 0

theorem scope_frame {body : Gen Code} (h : (inScope span body).run f = .ok (code, f'))
    (hbody : ∀ {code f'}, body.run f = .ok (code, f') → f.Extends f' declared nodes) :
    f.Extends f' declared nodes ∧ f'.height = f.height := by
  obtain ⟨inner, f₁, hinner, _, rfl⟩ := inScope_run h
  exact ⟨(hbody hinner).with_height, rfl⟩

/-- A condition leaves no trace in the frame. -/
theorem condition_frame {cond : ExprTree} (htyped : cond.isWordTyped p) (hscalar : cond.ty.isScalar)
    (h : (condition p l span cond).run f = .ok (code, f')) : f = f' := by
  obtain ⟨value, f₁, hvalue, _, rfl⟩ := Gen.condition_run h
  obtain rfl := ExprTree.frame_of_code htyped hvalue
  rw [Ty.stackBytes_of_isScalar hscalar]
  exact f.eq_with_height (by simp)

/-- Neither does an assignment. -/
theorem assignment_frame {target value : ExprTree} (htarget : target.isWordTyped p)
    (hvalue : value.isWordTyped p)
    (h : (assignment p l span target value).run f = .ok (code, f')) : f = f' := by
  rw [assignment, run_bind_eq_ok_iff] at h
  obtain ⟨_, _, hkind, h⟩ := h
  obtain ⟨_, rfl⟩ := run_liftM_eq_ok_iff.1 hkind
  cases target with
  | ident info var =>
    simp only [run_bind_eq_ok_iff, run_pure_eq_ok_iff] at h
    obtain ⟨result, _, hresult, _, _, haddress, drop, _, hdrop, _, rfl⟩ := h
    obtain rfl := ExprTree.frame_of_code hvalue hresult
    obtain rfl := varAddress_run haddress
    obtain ⟨_, rfl⟩ := pop_run hdrop
    exact f.eq_with_height (by simp)
  | field info object var =>
    simp only [ExprTree.isWordTyped, Bool.and_eq_true] at htarget
    simp only [run_bind_eq_ok_iff, run_liftM_eq_ok_iff, run_pure_eq_ok_iff] at h
    obtain ⟨base, _, hbase, result, _, hresult, _, _, ⟨_, rfl⟩, drop, _, hdrop, _, rfl⟩ := h
    obtain rfl := ExprTree.frame_of_code htarget.2 hbase
    obtain rfl := ExprTree.frame_of_code hvalue hresult
    obtain ⟨_, rfl⟩ := pop_run hdrop
    rw [Ty.stackBytes_of_isReference htarget.1.2]
    exact f.eq_with_height (by simp only; omega)
  | index info array i =>
    simp only [ExprTree.isWordTyped, Bool.and_eq_true] at htarget
    obtain ⟨⟨⟨⟨_, harray⟩, hi⟩, harrayTyped⟩, hiTyped⟩ := htarget
    simp only [run_bind_eq_ok_iff, run_pure_eq_ok_iff] at h
    obtain ⟨base, _, hbase, position, _, hposition, result, _, hresult, drop, _, hdrop, _,
      rfl⟩ := h
    obtain rfl := ExprTree.frame_of_code harrayTyped hbase
    obtain rfl := ExprTree.frame_of_code hiTyped hposition
    obtain rfl := ExprTree.frame_of_code hvalue hresult
    obtain ⟨_, rfl⟩ := pop_run hdrop
    rw [Ty.stackBytes_of_isReference harray, Ty.stackBytes_of_isScalar hi]
    exact f.eq_with_height (by simp only; omega)
  | _ =>
    simp only [run_bind_eq_ok_iff, run_liftM_eq_ok_iff, defect_ne_ok, false_and, and_false,
      exists_false] at h

theorem codeAll_frame {ss : List (Unit → StmtTree)} (h : (codeAll p l ss).run f = .ok (code, f'))
    (heach : ∀ s ∈ ss, ∀ {code f f'}, ((s ()).code p l).run f = .ok (code, f') →
      f.Extends f' (s ()).declares (s ()).nodes ∧ f'.height = f.height + (s ()).leftBytes) :
    f.Extends f' (declaresAll ss) (nodesAll ss) ∧ f.height ≤ f'.height := by
  induction ss generalizing code f f' with
  | nil =>
    obtain ⟨_, rfl⟩ := run_pure_eq_ok_iff.1 h
    exact ⟨.of_eq rfl rfl, Int.le_refl _⟩
  | cons s ss ih =>
    rw [List.forall_mem_cons] at heach
    simp only [codeAll, run_bind_eq_ok_iff, run_pure_eq_ok_iff] at h
    obtain ⟨first, f₁, hfirst, rest, _, hrest, _, rfl⟩ := h
    obtain ⟨hextends, hheight⟩ := heach.1 hfirst
    obtain ⟨hextendsRest, hle⟩ := ih hrest heach.2
    have hleft := (s ()).leftBytes_nonneg
    exact ⟨hextends.trans hextendsRest, by omega⟩

/-- The frame behind a statement with word-typed operands. -/
theorem frame_of_operands {s : StmtTree} (htyped : s.hasWordTypedOperands p)
    (h : (s.code p l).run f = .ok (code, f')) :
    f.Extends f' s.declares s.nodes ∧ f'.height = f.height + s.leftBytes := by
  have hnode : ∀ {node : Node} {nodes : List Node}, nodes ⊆ node :: nodes :=
    fun hmem => List.mem_cons_of_mem _ hmem
  induction s generalizing code f f' with
  | broken id fault => exact absurd h run_throw_ne_ok
  | block info stmts ih =>
    rw [StmtTree.code] at h
    obtain ⟨hextends, hheight⟩ := scope_frame h fun hrun =>
      (codeAll_frame hrun fun s hs _ _ _ => ih s hs (haveWordTypedOperands_iff.1 htyped s hs)).1
    exact ⟨hextends.mono (List.Subset.refl _) hnode, hheight.trans (Int.add_zero _).symm⟩
  | localVar info var init =>
    simp only [StmtTree.code, run_bind_eq_ok_iff, run_pure_eq_ok_iff] at h
    obtain ⟨value, _, hvalue, _, _, hdeclared, _, rfl⟩ := h
    obtain rfl := ExprTree.frame_of_code htyped hvalue
    have hpushed : f.Extends { f with height := f.height + init.ty.stackBytes } [] [] :=
      .of_eq rfl rfl
    refine ⟨hpushed.trans (.declare hdeclared (by simp)), ?_⟩
    rw [(declared_run hdeclared).1, leftBytes]
  | call info expr =>
    simp only [StmtTree.code, run_bind_eq_ok_iff, run_pure_eq_ok_iff] at h
    obtain ⟨value, _, hvalue, drop, _, hdrop, _, rfl⟩ := h
    obtain rfl := ExprTree.frame_of_code htyped hvalue
    obtain ⟨_, rfl⟩ := pop_run hdrop
    exact ⟨.of_eq rfl rfl, by simp [leftBytes]⟩
  | assign info target value =>
    simp only [hasWordTypedOperands, Bool.and_eq_true] at htyped
    rw [StmtTree.code] at h
    obtain rfl := assignment_frame htyped.1.1 htyped.1.2 h
    exact ⟨.of_eq rfl rfl, by simp [leftBytes]⟩
  | ifThen info cond thenStmt ih =>
    simp only [hasWordTypedOperands, Bool.and_eq_true] at htyped
    simp only [StmtTree.code, run_bind_eq_ok_iff, run_pure_eq_ok_iff] at h
    obtain ⟨test, _, htest, body, _, hbody, _, rfl⟩ := h
    obtain rfl := condition_frame htyped.1.1 htyped.1.2 htest
    obtain ⟨hextends, hheight⟩ := scope_frame hbody fun hrun => (ih htyped.2 hrun).1
    refine ⟨hextends.mono (List.Subset.refl _) ?_, hheight.trans (Int.add_zero _).symm⟩
    exact List.Subset.trans (List.subset_append_right _ _) hnode
  | ifElse info cond thenStmt elseStmt ihThen ihElse =>
    simp only [hasWordTypedOperands, Bool.and_eq_true] at htyped
    obtain ⟨⟨⟨hcond, hscalar⟩, hthen⟩, helse⟩ := htyped
    simp only [StmtTree.code, run_bind_eq_ok_iff, run_pure_eq_ok_iff] at h
    obtain ⟨test, _, htest, body, _, hbody, other, _, hother, _, rfl⟩ := h
    obtain rfl := condition_frame hcond hscalar htest
    obtain ⟨hextends, hheight⟩ := scope_frame hbody fun hrun => (ihThen hthen hrun).1
    obtain ⟨hextendsOther, hheightOther⟩ := scope_frame hother fun hrun => (ihElse helse hrun).1
    refine ⟨(hextends.trans hextendsOther).mono (List.Subset.refl _) ?_, ?_⟩
    · rw [nodes, List.append_assoc]
      exact List.Subset.trans (List.subset_append_right _ _) hnode
    · exact (hheightOther.trans hheight).trans (Int.add_zero _).symm
  | whileLoop info cond body ih =>
    simp only [hasWordTypedOperands, Bool.and_eq_true] at htyped
    simp only [StmtTree.code, run_bind_eq_ok_iff, run_pure_eq_ok_iff] at h
    obtain ⟨_, _, henter, turn, _, hturn, test, _, htest, _, rfl⟩ := h
    obtain rfl := run_modify_eq_ok_iff.1 henter
    obtain ⟨hextends, hheight⟩ := scope_frame hturn fun hrun => (ih htyped.2 hrun).1
    obtain rfl := condition_frame htyped.1.1 htyped.1.2 htest
    have hentered : f.Extends (f.enterLoop info.id) [] [.stmt info.id] :=
      .enterLoop f (by simp)
    refine ⟨(hentered.trans hextends).mono (List.Subset.refl _) ?_, ?_⟩
    · exact List.cons_subset_cons _ (List.subset_append_left _ _)
    · exact hheight.trans (Int.add_zero _).symm
  | breakFrom info loop =>
    rw [StmtTree.code] at h
    obtain ⟨_, _, _, rfl⟩ := leaveLoop_run h
    exact ⟨.of_eq rfl rfl, by simp [leftBytes]⟩

/-- The frame behind a word-typed statement. -/
theorem frame_of_code {s : StmtTree} (htyped : s.isWordTyped p)
    (h : (s.code p l).run f = .ok (code, f')) :
    f.Extends f' s.declares s.nodes ∧ f'.height = f.height + s.leftBytes :=
  frame_of_operands (hasWordTypedOperands_of_isWordTyped htyped) h

end StmtTree

/-- The generator moves the height by what the types say.  Code of a word-typed expression pushes as
many bytes as its type takes and leaves the tables as they were.  Code of a statement with
word-typed operands leaves nothing on the stack, but for a declaration, which leaves the initial
value. -/
theorem heightLaw_of_code (p : Program) (l : Layout) (f : Frame) :
    (∀ e : ExprTree, e.isWordTyped p → ∀ {code f'}, (e.code p l).run f = .ok (code, f') →
      f'.height = f.height + e.ty.stackBytes ∧
        f'.locals = f.locals ∧ f'.loopExits = f.loopExits) ∧
    (∀ s : StmtTree, s.hasWordTypedOperands p → ∀ {code f'},
      (s.code p l).run f = .ok (code, f') → f'.height = f.height + s.leftBytes) := by
  refine ⟨fun e htyped _ _ h => ?_, fun s htyped _ _ h => (StmtTree.frame_of_operands htyped h).2⟩
  obtain rfl := ExprTree.frame_of_code htyped h
  exact ⟨rfl, rfl, rfl⟩

/-- In `shapes`, the call of the entry point and the declaration in `scale`, which leaves the value
of a parameter. -/
theorem heightLaw_shapes : ∃ L data called f' declaration f'',
    Layout.compute shapes = .ok (L, data) ∧
    (shapes.exprTree ⟨18⟩).isWordTyped shapes ∧
    ((shapes.exprTree ⟨18⟩).code shapes L).run .empty = .ok (called, f') ∧
    f'.height = 8 ∧ f'.locals = [] ∧ f'.loopExits = [] ∧
    (shapes.stmtTree ⟨0⟩).hasWordTypedOperands shapes ∧
    ((shapes.stmtTree ⟨0⟩).code shapes L).run .empty = .ok (declaration, f'') ∧
    f''.height = 8 := by
  have htyped : (shapes.exprTree ⟨18⟩).isWordTyped shapes ∧
      (shapes.stmtTree ⟨0⟩).hasWordTypedOperands shapes := by decide +kernel
  obtain ⟨_, hok⟩ := exists_eq_ok_of_isSome
    (show (do
        let laid ← Layout.compute shapes
        let called ← ((shapes.exprTree ⟨18⟩).code shapes laid.1).run .empty
        let declaration ← ((shapes.stmtTree ⟨0⟩).code shapes laid.1).run .empty
        return (called, declaration)).toOption.isSome by decide +kernel)
  obtain ⟨⟨L, data⟩, hcompute, hok⟩ := bind_eq_ok_iff.1 hok
  obtain ⟨⟨called, f'⟩, hcalled, hok⟩ := bind_eq_ok_iff.1 hok
  obtain ⟨⟨declaration, f''⟩, hdeclaration, -⟩ := bind_eq_ok_iff.1 hok
  obtain ⟨hexpr, hstmt⟩ := heightLaw_of_code shapes L .empty
  obtain ⟨hheight, hlocals, hexits⟩ := hexpr _ htyped.1 hcalled
  exact ⟨L, data, called, f', declaration, f'', hcompute, htyped.1, hcalled, hheight, hlocals,
    hexits, htyped.2, hdeclaration, hstmt _ htyped.2 hdeclaration⟩

end MipsBackend
