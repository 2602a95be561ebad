import MipsBackend.Proofs.Code.Progress

/-!
# Statements do not fail

What can go wrong in a statement, beyond its expressions, are the tables of the frame: a variable
declared twice or never, and a loop that is left without having been entered.  `Frame.Admits` is the
invariant that rules it out.  It holds of the empty frame, passes from a statement to its parts
(`Frame.Admits.mono`) and survives whatever a statement does to the frame (`Frame.Admits.after`).

`StmtTree.canGenerate` is the induction on statements.
-/

namespace MipsBackend

open Gen

variable {p : Program} {l : Layout} {f f' : Frame} {top : Int} {span : Span}
  {loops : List StmtId} {scope : List VarId} {declared declared' : List VarId}
  {nodes nodes' : List Node}

/-! ## The frame between statements -/

theorem Addressable.mono {locals locals' : List (VarId × Int)} {x : VarId}
    (h : Addressable p l locals top x)
    (hkept : ∀ {offset}, locals.lookup x = some offset → locals'.lookup x = some offset) :
    Addressable p l locals' top x := by
  cases h with
  | instVar hdecl hkind hoffset => exact .instVar hdecl hkind hoffset
  | formal hdecl hkind hoffset hlow hhigh => exact .formal hdecl hkind hoffset hlow hhigh
  | localVar hdecl hkind hoffset hlow hhigh =>
    exact .localVar hdecl hkind (hkept hoffset) hlow hhigh

/-- The frame is ready for statements that declare some variables and consist of some nodes: the
variables in scope can be addressed, the loops around are known, and what is to be declared is
new. -/
structure Frame.Admits (p : Program) (l : Layout) (top : Int) (loops : List StmtId)
    (scope declared : List VarId) (nodes : List Node) (f : Frame) : Prop where
  vars : ∀ x ∈ scope, Addressable p l f.locals top x
  exits : ∀ loop ∈ loops, ∃ exit, f.loopExits.lookup loop = some exit ∧ 0 ≤ exit ∧ exit ≤ top
  fresh : ∀ x ∈ declared, f.locals.lookup x = none
  outside : ∀ loop ∈ loops, .stmt loop ∉ nodes
  declared_nodup : declared.Nodup
  nodes_nodup : nodes.Nodup

namespace Frame.Admits

theorem mono (h : f.Admits p l top loops scope declared nodes)
    (hdeclared : declared'.Sublist declared) (hnodes : nodes'.Sublist nodes) :
    f.Admits p l top loops scope declared' nodes' where
  vars := h.vars
  exits := h.exits
  fresh x hx := h.fresh x (hdeclared.subset hx)
  outside loop hloop hmem := h.outside loop hloop (hnodes.subset hmem)
  declared_nodup := h.declared_nodup.sublist hdeclared
  nodes_nodup := h.nodes_nodup.sublist hnodes

/-- Whatever an expression in scope reads can be addressed. -/
theorem reads (h : f.Admits p l top loops scope declared nodes) {e : ExprTree}
    (hscoped : e.isScoped scope) : ∀ x ∈ e.reads, Addressable p l f.locals top x :=
  fun x hx => h.vars x (ExprTree.reads_subset hscoped hx)

/-- Other statements have run. -/
theorem after (h : f.Admits p l top loops scope (declared ++ declared') (nodes ++ nodes'))
    (hextends : f.Extends f' declared nodes) :
    f'.Admits p l top loops scope declared' nodes' where
  vars x hx := (h.vars x hx).mono hextends.kept
  exits loop hloop := by
    have hother : .stmt loop ∉ nodes := fun hmem =>
      h.outside loop hloop (List.mem_append_left nodes' hmem)
    rw [hextends.exits hother]
    exact h.exits loop hloop
  fresh x hx := by
    have hother : x ∉ declared := fun hmem =>
      (List.nodup_append.1 h.declared_nodup).2.2 x hmem x hx rfl
    rw [hextends.fresh hother]
    exact h.fresh x (List.mem_append_right declared hx)
  outside loop hloop hmem := h.outside loop hloop (List.mem_append_right nodes hmem)
  declared_nodup := (List.nodup_append.1 h.declared_nodup).2.1
  nodes_nodup := (List.nodup_append.1 h.nodes_nodup).2.1

/-- A loop has been entered. -/
theorem enterLoop {loop : StmtId} (h : f.Admits p l top loops scope declared (.stmt loop :: nodes))
    (hbottom : 0 ≤ f.height) (htop : f.height ≤ top) :
    (f.enterLoop loop).Admits p l top (loop :: loops) scope declared nodes where
  vars := h.vars
  exits other hother := by
    by_cases hsame : other = loop
    · have hexit := Frame.loopExit_eq_ok_iff.1 (f.loopExit_enterLoop loop)
      exact ⟨f.height, hsame ▸ hexit, hbottom, htop⟩
    · have hne : (other == loop) = false := beq_eq_false_iff_ne.2 hsame
      rw [Frame.enterLoop, List.lookup_cons, hne]
      exact h.exits other ((List.mem_cons.1 hother).resolve_left hsame)
  fresh := h.fresh
  outside other hother := by
    rcases List.mem_cons.1 hother with rfl | hother
    · exact (List.nodup_cons.1 h.nodes_nodup).1
    · exact fun hmem => h.outside other hother (List.mem_cons_of_mem _ hmem)
  declared_nodup := h.declared_nodup
  nodes_nodup := (List.nodup_cons.1 h.nodes_nodup).2

end Frame.Admits

/-! ## Parts of statements -/

theorem ExprTree.exists_kind? {e : ExprTree} (h : e.isWordTyped p) :
    ∃ kind, e.kind? = .ok kind := by
  cases e with
  | broken id fault => exact absurd h Bool.false_ne_true
  | _ => exact ⟨_, rfl⟩

namespace Gen

theorem succeeds_declared {x : VarId} (hnew : f.locals.lookup x = none)
    (hfits : Offset.Fits (-f.height)) :
    Succeeds (Gen.declared x) f fun _ f' =>
      f' = { f with locals := (x, -f.height) :: f.locals } := by
  simp only [Gen.declared, succeeds_bind_iff, succeeds_get_iff, succeeds_liftM_iff,
    succeeds_set_iff]
  refine ⟨(-f.height, { f with locals := (x, -f.height) :: f.locals }), ?_, rfl⟩
  rw [Frame.declareLocal, Offset.neg, Offset.checked_of_fits hfits]
  simp [bind, Except.bind, hnew, pure, Except.pure]

theorem succeeds_leaveLoop {loop : StmtId} {exit : Int}
    (hexit : f.loopExits.lookup loop = some exit) (hfits : Offset.Fits (f.height - exit)) :
    Succeeds (leaveLoop span loop) f fun _ _ => True := by
  rw [leaveLoop, height]
  refine succeeds_bind_iff.2 (succeeds_get_iff.2 (succeeds_bind_iff.2 (succeeds_liftM_iff.2 ?_)))
  refine ⟨exit, Frame.loopExit_eq_ok_iff.2 hexit, ?_⟩
  refine succeeds_bind_iff.2 (succeeds_bind_iff.2 (succeeds_get_iff.2 (succeeds_pure_iff.2 ?_)))
  refine succeeds_liftM_bind (Offset.checked_of_fits hfits) ?_
  exact succeeds_pure_iff.2 trivial

/-- A scope can be closed when nothing was popped that lay below it. -/
theorem succeeds_inScope {body : Gen Code}
    (h : Succeeds body f fun _ f' => f.height ≤ f'.height ∧ f'.height ≤ top)
    (hbottom : 0 ≤ f.height) (hsmall : top < 2 ^ 31) :
    Succeeds (inScope span body) f fun _ _ => True := by
  rw [inScope, height]
  refine succeeds_bind_iff.2 (succeeds_bind_iff.2 (succeeds_get_iff.2 (succeeds_pure_iff.2 ?_)))
  refine succeeds_bind_iff.2 (h.mono ?_)
  rintro code f' ⟨hlow, hhigh⟩
  have hrestored : Raises (restored f.height) f' (f.height - f'.height) :=
    raises_restored (by constructor <;> omega) hlow
  rw [popTo]
  refine succeeds_bind_iff.2 (hrestored.succeeds fun _ => ?_)
  exact succeeds_pure_iff.2 (succeeds_pure_iff.2 trivial)

theorem raises_condition {cond : ExprTree} (h : cond.CanGenerate p l top)
    (hscalar : cond.ty.isScalar) (hreads : ∀ x ∈ cond.reads, Addressable p l f.locals top x)
    (hroom : f.HasRoom cond.peak top) : Raises (condition p l span cond) f 0 := by
  have hvalue := h f hreads hroom
  have hpeak := cond.stackBytes_le_peak
  have hword := wordSize_nonneg
  have hbottom := hroom.bottom
  rw [Ty.stackBytes_of_isScalar hscalar] at hvalue hpeak
  refine hvalue.bind (m := -(2 * wordSize)) (fun _ => ?_) (by omega)
  exact (raises_pop_of_room hroom (by omega) (Int.le_refl _) (by omega)).bind
    (fun _ => raises_pure _) (Int.add_zero _).symm

section Assignment

variable {info : ExprInfo} {value : ExprTree} {kind : ExprKind}
  (hkind : value.kind? = .ok kind) (hvalue : value.CanGenerate p l top)
include hkind hvalue

theorem raises_assignVar {x : VarId} (hx : Addressable p l f.locals top x)
    (hreads : ∀ x ∈ value.reads, Addressable p l f.locals top x)
    (hroom : f.HasRoom value.peak top) :
    Raises (assignment p l span (.ident info x) value) f 0 := by
  have hpeak := value.stackBytes_le_peak
  have hnonneg := value.ty.stackBytes_nonneg
  have hbottom := hroom.bottom
  have hbelow := hroom.below
  refine raises_liftM hkind ?_
  refine (hvalue f hreads hroom).bind (m := -value.ty.stackBytes) (fun _ => ?_) (by omega)
  have haddress : Raises (varAddress p l x) { f with height := f.height + value.ty.stackBytes } 0 :=
    Addressable.raises (f := { f with height := f.height + value.ty.stackBytes }) hx
      (by dsimp only; omega) (by dsimp only; omega)
  refine haddress.bind (m := -value.ty.stackBytes) (fun _ => ?_) (by omega)
  simp only [Int.add_zero]
  exact (raises_pop_of_room hroom hnonneg (Int.le_refl _) hpeak).bind
    (fun _ => raises_pure _) (Int.add_zero _).symm

theorem raises_assignField {object : Unit → ExprTree} {x : VarId} {offset : Int}
    (hobject : (object ()).ty.isReference) (hoffset : l.varOffset x = .ok offset)
    (h : (object ()).CanGenerate p l top)
    (hreads : ∀ x ∈ (object ()).reads ++ value.reads, Addressable p l f.locals top x)
    (hroom : f.HasRoom (max (object ()).peak ((object ()).ty.stackBytes + value.peak)) top) :
    Raises (assignment p l span (.field info object x) value) f 0 := by
  have hpeak := value.stackBytes_le_peak
  have hnonneg := value.ty.stackBytes_nonneg
  have hword := wordSize_nonneg
  have hbottom := hroom.bottom
  have hright := Int.le_max_right (object ()).peak ((object ()).ty.stackBytes + value.peak)
  have hwidth := Ty.stackBytes_of_isReference hobject
  refine raises_liftM hkind ?_
  refine h.pair (n := -(value.ty.stackBytes + wordSize)) hvalue hreads hroom
    (Int.le_max_left _ _) hright (fun base result => ?_) (by omega)
  refine raises_liftM hoffset ?_
  exact (raises_pop_of_room hroom (by omega) (by omega) (by omega)).bind
    (fun _ => raises_pure _) (Int.add_zero _).symm

theorem raises_assignElement {array i : Unit → ExprTree} (harray : (array ()).ty.isReference)
    (hi : (i ()).ty.isScalar) (h : (array ()).CanGenerate p l top)
    (h' : (i ()).CanGenerate p l top)
    (hreads : ∀ x ∈ (array ()).reads ++ ((i ()).reads ++ value.reads),
      Addressable p l f.locals top x)
    (hroom : f.HasRoom (assignmentPeak (.index info array i) value) top) :
    Raises (assignment p l span (.index info array i) value) f 0 := by
  have hpeak := value.stackBytes_le_peak
  have hnonneg := value.ty.stackBytes_nonneg
  have hword := wordSize_nonneg
  have hbottom := hroom.bottom
  rw [List.forall_mem_append] at hreads
  have hrest : Frame.HasRoom { f with height := f.height + (array ()).ty.stackBytes }
      (max (i ()).peak ((i ()).ty.stackBytes + value.peak)) top :=
    hroom.raise (array ()).ty.stackBytes_nonneg (Int.le_max_right _ _)
  have hright := Int.le_max_right (i ()).peak ((i ()).ty.stackBytes + value.peak)
  refine raises_liftM hkind ?_
  refine (h f hreads.1 (hroom.mono (Int.le_max_left _ _))).bind (m := -(array ()).ty.stackBytes)
    (fun base => ?_) (by omega)
  have hwidth := Ty.stackBytes_of_isReference harray
  have hwidth' := Ty.stackBytes_of_isScalar hi
  refine h'.pair (n := -(value.ty.stackBytes + 3 * wordSize)) hvalue
    hreads.2 hrest (Int.le_max_left _ _) hright (fun position result => ?_) (by omega)
  have htotal := Int.le_max_right (array ()).peak
    ((array ()).ty.stackBytes + max (i ()).peak ((i ()).ty.stackBytes + value.peak))
  have hpop : Raises (pop span (value.ty.stackBytes + 3 * wordSize)) { f with
      height := f.height +
        ((array ()).ty.stackBytes + ((i ()).ty.stackBytes + value.ty.stackBytes)) }
      (-(value.ty.stackBytes + 3 * wordSize)) :=
    raises_pop_of_room hroom (by omega) (by omega) (by rw [assignmentPeak]; omega)
  rw [← Int.add_assoc] at hpop
  exact hpop.bind (fun _ => raises_pure _) (Int.add_zero _).symm

end Assignment

end Gen

/-! ## Statements -/

namespace StmtTree

/-- The code of a statement can be generated, whatever scope and loops it stands in; the variables
in scope behind it can be addressed again. -/
def CanGenerate (p : Program) (l : Layout) (top : Int) (s : StmtTree) : Prop :=
  ∀ (loops : List StmtId) (scope : List VarId) (f : Frame), s.isScoped loops scope →
    f.Admits p l top loops scope s.declares s.nodes → f.HasRoom s.peak top →
    Succeeds (s.code p l) f fun _ f' => f.Extends f' s.declares s.nodes ∧
      f'.height = f.height + s.leftBytes ∧
      ∀ x ∈ s.scopeAfter scope, Addressable p l f'.locals top x

theorem canGenerate_of_succeeds {s : StmtTree} (htyped : s.isWordTyped p)
    (hscope : ∀ scope, s.scopeAfter scope = scope)
    (h : ∀ (loops : List StmtId) (scope : List VarId) (f : Frame), s.isScoped loops scope →
      f.Admits p l top loops scope s.declares s.nodes → f.HasRoom s.peak top →
      Succeeds (s.code p l) f fun _ _ => True) : s.CanGenerate p l top := by
  intro loops scope f hscoped hadmits hroom
  refine (h loops scope f hscoped hadmits hroom).of_run ?_
  intro code f' hrun _
  obtain ⟨hextends, hheight⟩ := frame_of_code htyped hrun
  rw [hscope]
  exact ⟨hextends, hheight, fun x hx => (hadmits.vars x hx).mono hextends.kept⟩

/-- Statements in order leave their values on the stack and their variables in scope. -/
theorem succeeds_codeAll {ss : List (Unit → StmtTree)}
    (h : ∀ s ∈ ss, (s ()).CanGenerate p l top) (hscoped : isScopedAll loops scope ss)
    (hadmits : f.Admits p l top loops scope (declaresAll ss) (nodesAll ss))
    (hroom : f.HasRoom (peakAll ss) top) :
    Succeeds (codeAll p l ss) f fun _ f' => f'.height = f.height + leftBytesAll ss ∧
      ∀ x ∈ scopeAfterAll scope ss, Addressable p l f'.locals top x := by
  induction ss generalizing f scope with
  | nil => exact succeeds_pure_iff.2 ⟨(Int.add_zero _).symm, hadmits.vars⟩
  | cons s ss ih =>
    rw [List.forall_mem_cons] at h
    rw [isScopedAll, Bool.and_eq_true] at hscoped
    rw [codeAll]
    have hfirst := h.1 _ _ _ hscoped.1
      (hadmits.mono (List.sublist_append_left _ _) (List.sublist_append_left _ _))
      (hroom.mono (Int.le_max_left _ _))
    refine succeeds_bind_iff.2 (hfirst.mono ?_)
    rintro code f₁ ⟨hextends, hheight, hvars⟩
    have hafter := hadmits.after hextends
    have hadmits₁ : f₁.Admits p l top loops ((s ()).scopeAfter scope) (declaresAll ss)
        (nodesAll ss) :=
      { hafter with vars := hvars }
    have hroom₁ : f₁.HasRoom (peakAll ss) top := by
      have hleft := (s ()).leftBytes_nonneg
      have hright := hroom.below
      have hbottom := hroom.bottom
      rw [peakAll] at hright
      exact ⟨by omega, by omega, hroom.small⟩
    refine succeeds_bind_iff.2 ((ih h.2 hscoped.2 hadmits₁ hroom₁).mono ?_)
    rintro rest f' ⟨hheight', hvars'⟩
    refine succeeds_pure_iff.2 ⟨?_, hvars'⟩
    rw [hheight', hheight, leftBytesAll_cons, Int.add_assoc]

/-- A statement in a scope of its own leaves nothing on the stack. -/
theorem CanGenerate.inScope {s : StmtTree} (h : s.CanGenerate p l top) (htyped : s.isWordTyped p)
    (hscoped : s.isScoped loops scope)
    (hadmits : f.Admits p l top loops scope s.declares s.nodes) (hroom : f.HasRoom s.peak top) :
    Succeeds (Gen.inScope span (s.code p l)) f fun _ f' =>
      f.Extends f' s.declares s.nodes ∧ f'.height = f.height := by
  have hbody : Succeeds (s.code p l) f fun _ f' => f.height ≤ f'.height ∧ f'.height ≤ top := by
    refine (h _ _ _ hscoped hadmits hroom).mono ?_
    rintro code f' ⟨_, hheight, _⟩
    have hleft := s.leftBytes_nonneg
    have hpeak := s.leftBytes_le_peak
    have hbelow := hroom.below
    constructor <;> omega
  refine (succeeds_inScope hbody hroom.bottom hroom.small).of_run ?_
  intro code f' hrun _
  exact scope_frame hrun fun hrun => (frame_of_code htyped hrun).1

/-! ### One lemma for each statement -/

theorem canGenerate_block {info : StmtInfo} {stmts : List (Unit → StmtTree)}
    (htyped : (block info stmts).isWordTyped p) (h : ∀ s ∈ stmts, (s ()).CanGenerate p l top) :
    (block info stmts).CanGenerate p l top := by
  refine canGenerate_of_succeeds htyped (fun _ => rfl) ?_
  intro loops scope f hscoped hadmits hroom
  refine succeeds_inScope ?_ hroom.bottom hroom.small
  refine (succeeds_codeAll h hscoped
    (hadmits.mono (List.Sublist.refl _) (List.sublist_cons_self _ _)) hroom).mono ?_
  rintro code f' ⟨hheight, _⟩
  have hleft := leftBytesAll_nonneg stmts
  have hpeak := leftBytesAll_le_peakAll stmts
  have hbelow := hroom.below
  rw [peak] at hbelow
  constructor <;> omega

theorem canGenerate_localVar {info : StmtInfo} {x : VarId} {init : ExprTree}
    (htyped : (localVar info x init).isWordTyped p) (hx : p.isLocal x)
    (h : init.CanGenerate p l top) : (localVar info x init).CanGenerate p l top := by
  intro loops scope f hscoped hadmits hroom
  have hvalue := h _ (hadmits.reads hscoped) hroom
  have hnew := hadmits.fresh x (by simp [declares])
  have hnonneg := init.ty.stackBytes_nonneg
  have hpeak := init.stackBytes_le_peak
  have hbottom := hroom.bottom
  have hbelow := hroom.below
  have hsmall := hroom.small
  rw [peak] at hbelow
  have hfits : Offset.Fits (-(f.height + init.ty.stackBytes)) := by
    constructor <;> omega
  have hrun : Succeeds ((localVar info x init).code p l) f fun _ f' =>
      ∀ y ∈ x :: scope, Addressable p l f'.locals top y := by
    refine hvalue.succeeds fun value => succeeds_bind_iff.2 ?_
    refine (succeeds_declared (f := { f with height := f.height + init.ty.stackBytes }) hnew
      hfits).mono ?_
    intro _ f' hf'
    refine succeeds_pure_iff.2 ?_
    rw [hf', List.forall_mem_cons]
    obtain ⟨decl, init', hdecl, hkind⟩ := Program.isLocal_iff.1 hx
    refine ⟨.localVar hdecl hkind List.lookup_cons_self ?_ ?_, fun y hy => ?_⟩
    · dsimp only
      omega
    · dsimp only
      omega
    · refine (hadmits.vars y hy).mono ?_
      intro offset hoffset
      have hne : (y == x) = false := by
        refine beq_eq_false_iff_ne.2 fun hsame => ?_
        rw [hsame, hnew] at hoffset
        cases hoffset
      rw [List.lookup_cons, hne]
      exact hoffset
  refine hrun.of_run ?_
  intro code f' hcode hvars
  obtain ⟨hextends, hheight⟩ := frame_of_code htyped hcode
  exact ⟨hextends, hheight, hvars⟩

theorem canGenerate_call {info : StmtInfo} {expr : ExprTree}
    (htyped : (call info expr).isWordTyped p) (h : expr.CanGenerate p l top) :
    (call info expr).CanGenerate p l top := by
  refine canGenerate_of_succeeds htyped (fun _ => rfl) ?_
  intro loops scope f hscoped hadmits hroom
  refine (h _ (hadmits.reads hscoped) hroom).succeeds fun value => ?_
  exact (raises_pop_of_room hroom expr.ty.stackBytes_nonneg (Int.le_refl _)
    expr.stackBytes_le_peak).succeeds fun _ => succeeds_pure_iff.2 trivial

theorem canGenerate_ifThen {info : StmtInfo} {cond : ExprTree} {thenStmt : Unit → StmtTree}
    (htyped : (ifThen info cond thenStmt).isWordTyped p) (h : cond.CanGenerate p l top)
    (hbranch : (thenStmt ()).CanGenerate p l top) :
    (ifThen info cond thenStmt).CanGenerate p l top := by
  refine canGenerate_of_succeeds htyped (fun _ => rfl) ?_
  intro loops scope f hscoped hadmits hroom
  simp only [isWordTyped, Bool.and_eq_true] at htyped
  simp only [isScoped, Bool.and_eq_true] at hscoped
  have hadmitsThen := hadmits.mono (List.Sublist.refl _)
    (List.sublist_cons_of_sublist _ (List.sublist_append_right _ _))
  refine (raises_condition h htyped.1.2 (hadmits.reads hscoped.1)
    (hroom.mono (Int.le_max_left _ _))).succeeds fun test => ?_
  simp only [Int.add_zero]
  refine succeeds_bind_iff.2 ((hbranch.inScope htyped.2 hscoped.2 hadmitsThen
    (hroom.mono (Int.le_max_right _ _))).mono ?_)
  exact fun _ _ _ => succeeds_pure_iff.2 trivial

theorem canGenerate_ifElse {info : StmtInfo} {cond : ExprTree}
    {thenStmt elseStmt : Unit → StmtTree}
    (htyped : (ifElse info cond thenStmt elseStmt).isWordTyped p) (h : cond.CanGenerate p l top)
    (hbranch : (thenStmt ()).CanGenerate p l top) (hother : (elseStmt ()).CanGenerate p l top) :
    (ifElse info cond thenStmt elseStmt).CanGenerate p l top := by
  refine canGenerate_of_succeeds htyped (fun _ => rfl) ?_
  intro loops scope f hscoped hadmits hroom
  simp only [isWordTyped, Bool.and_eq_true] at htyped
  simp only [isScoped, Bool.and_eq_true] at hscoped
  obtain ⟨⟨⟨hcond, hscalar⟩, hthen⟩, helse⟩ := htyped
  have hboth : f.Admits p l top loops scope ((thenStmt ()).declares ++ (elseStmt ()).declares)
      ((thenStmt ()).nodes ++ (elseStmt ()).nodes) := by
    refine hadmits.mono (List.Sublist.refl _) ?_
    rw [nodes, List.append_assoc]
    exact List.sublist_cons_of_sublist _ (List.sublist_append_right _ _)
  have hright : max (thenStmt ()).peak (elseStmt ()).peak ≤
      (ifElse info cond thenStmt elseStmt).peak := Int.le_max_right _ _
  have hadmitsThen := hboth.mono (List.sublist_append_left _ _) (List.sublist_append_left _ _)
  refine (raises_condition h hscalar (hadmits.reads hscoped.1.1)
    (hroom.mono (Int.le_max_left _ _))).succeeds fun test => ?_
  simp only [Int.add_zero]
  refine succeeds_bind_iff.2 ((hbranch.inScope hthen hscoped.1.2 hadmitsThen
    (hroom.mono (Int.le_trans (Int.le_max_left _ _) hright))).mono ?_)
  rintro body f₁ ⟨hextends, hheight⟩
  have hroom₁ : f₁.HasRoom (elseStmt ()).peak top :=
    (hroom.mono (Int.le_trans (Int.le_max_right _ _) hright)).of_height_eq hheight
  refine succeeds_bind_iff.2 ((hother.inScope helse hscoped.2 (hboth.after hextends)
    hroom₁).mono ?_)
  exact fun _ _ _ => succeeds_pure_iff.2 trivial

/-- The condition of a loop stands behind the body, where all is as at the beginning. -/
theorem canGenerate_whileLoop {info : StmtInfo} {cond : ExprTree} {body : Unit → StmtTree}
    (htyped : (whileLoop info cond body).isWordTyped p) (h : cond.CanGenerate p l top)
    (hbody : (body ()).CanGenerate p l top) : (whileLoop info cond body).CanGenerate p l top := by
  refine canGenerate_of_succeeds htyped (fun _ => rfl) ?_
  intro loops scope f hscoped hadmits hroom
  simp only [isWordTyped, Bool.and_eq_true] at htyped
  simp only [isScoped, Bool.and_eq_true] at hscoped
  have hbelow := hroom.below
  have hpeak := (whileLoop info cond body).leftBytes_le_peak
  have hleft := (whileLoop info cond body).leftBytes_nonneg
  have hentered := hadmits.enterLoop hroom.bottom (by omega)
  have hroom₀ : (f.enterLoop info.id).HasRoom (whileLoop info cond body).peak top :=
    hroom.of_height_eq rfl
  have hadmitsBody := hentered.mono (List.Sublist.refl _) (List.sublist_append_left _ _)
  have hroomBody : (f.enterLoop info.id).HasRoom (body ()).peak top :=
    hroom₀.mono (Int.le_max_right _ _)
  refine succeeds_bind_iff.2 (succeeds_modify_iff.2 (succeeds_bind_iff.2
    ((hbody.inScope htyped.2 hscoped.2 hadmitsBody hroomBody).mono ?_)))
  rintro turn f₁ ⟨hextends, hheight⟩
  have hreads : ∀ x ∈ cond.reads, Addressable p l f₁.locals top x :=
    fun x hx => (hentered.reads hscoped.1 x hx).mono hextends.kept
  have hroom₁ := (hroom₀.mono (Int.le_max_left _ _)).of_height_eq hheight
  exact (raises_condition h htyped.1.2 hreads hroom₁).succeeds
    fun _ => succeeds_pure_iff.2 trivial

theorem canGenerate_breakFrom {info : StmtInfo} {loop : StmtId} :
    (breakFrom info loop).CanGenerate p l top := by
  refine canGenerate_of_succeeds rfl (fun _ => rfl) ?_
  intro loops scope f hscoped hadmits hroom
  obtain ⟨exit, hexit, hlow, hhigh⟩ := hadmits.exits loop (by simpa [isScoped] using hscoped)
  have hbottom := hroom.bottom
  have hbelow := hroom.below
  have hsmall := hroom.small
  rw [peak] at hbelow
  exact succeeds_leaveLoop hexit (by constructor <;> omega)

section Code

variable (tree : p.IsClassTree) (methods : p.MethodsLinked) (covers : l.Covers p)
include tree methods covers

/-- What is assigned to is a variable, a field or an element. -/
theorem raises_assignment {target value : ExprTree} (hassignable : target.isAssignable)
    (htyped : target.isWordTyped p) (hresolved : target.isResolved p)
    (hvalueTyped : value.isWordTyped p) (hvalueResolved : value.isResolved p)
    (hreads : ∀ x ∈ target.reads ++ value.reads, Addressable p l f.locals top x)
    (hroom : f.HasRoom (assignmentPeak target value) top) :
    Raises (assignment p l span target value) f 0 := by
  have hexpr : ∀ {e : ExprTree}, e.isWordTyped p → e.isResolved p → e.CanGenerate p l top :=
    fun htyped hresolved => ExprTree.canGenerate tree methods covers htyped hresolved
  have hvalue := hexpr hvalueTyped hvalueResolved
  obtain ⟨kind, hkind⟩ := ExprTree.exists_kind? hvalueTyped
  cases target with
  | ident info x =>
    exact raises_assignVar hkind hvalue (hreads x (by simp [ExprTree.reads]))
      (List.forall_mem_append.1 hreads).2 hroom
  | field info object x =>
    simp only [ExprTree.isWordTyped, Bool.and_eq_true] at htyped
    simp only [ExprTree.isResolved, Bool.and_eq_true, Option.any_eq_true] at hresolved
    obtain ⟨⟨varKind, hvar, hinstVar⟩, hobject⟩ := hresolved
    obtain ⟨offset, hoffset⟩ := covers.exists_fieldOffset hvar hinstVar
    exact raises_assignField hkind hvalue htyped.1.2 hoffset (hexpr htyped.2 hobject) hreads hroom
  | index info array i =>
    simp only [ExprTree.isWordTyped, Bool.and_eq_true] at htyped
    simp only [ExprTree.isResolved, Bool.and_eq_true] at hresolved
    refine raises_assignElement hkind hvalue htyped.1.1.1.2 htyped.1.1.2
      (hexpr htyped.1.2 hresolved.1) (hexpr htyped.2 hresolved.2) ?_ hroom
    rw [← List.append_assoc]
    exact hreads
  | _ => exact absurd hassignable Bool.false_ne_true

/-- The code of a word-typed and resolved statement can be generated. -/
theorem canGenerate {s : StmtTree} (htyped : s.isWordTyped p) (hresolved : s.isResolved p) :
    s.CanGenerate p l top := by
  -- What the expressions of a statement contribute.
  have hexpr : ∀ {e : ExprTree}, e.isWordTyped p → e.isResolved p → e.CanGenerate p l top :=
    fun htyped hresolved => ExprTree.canGenerate tree methods covers htyped hresolved
  induction s with
  | broken id fault => exact absurd htyped Bool.false_ne_true
  | block info stmts ih =>
    exact canGenerate_block htyped fun s hs =>
      ih s hs (isWordTypedAll_iff.1 htyped s hs) (isResolvedAll_iff.1 hresolved s hs)
  | localVar info x init =>
    have hparts := htyped
    simp only [isWordTyped, Bool.and_eq_true] at hparts
    simp only [isResolved, Bool.and_eq_true] at hresolved
    exact canGenerate_localVar htyped hresolved.1 (hexpr hparts.1 hresolved.2)
  | call info expr => exact canGenerate_call htyped (hexpr htyped hresolved)
  | assign info target value =>
    refine canGenerate_of_succeeds htyped (fun _ => rfl) ?_
    intro loops scope f hscoped hadmits hroom
    simp only [isWordTyped, Bool.and_eq_true] at htyped
    simp only [isResolved, Bool.and_eq_true] at hresolved
    simp only [isScoped, Bool.and_eq_true] at hscoped
    have hassign : Raises (assignment p l info.span target value) f 0 :=
      raises_assignment tree methods covers hresolved.1.1 htyped.1.1 hresolved.1.2 htyped.1.2
        hresolved.2 (List.forall_mem_append.2 ⟨hadmits.reads hscoped.1, hadmits.reads hscoped.2⟩)
        hroom
    exact hassign.mono fun _ _ _ => trivial
  | ifThen info cond thenStmt ih =>
    have hparts := htyped
    simp only [isWordTyped, Bool.and_eq_true] at hparts
    simp only [isResolved, Bool.and_eq_true] at hresolved
    exact canGenerate_ifThen htyped (hexpr hparts.1.1 hresolved.1) (ih hparts.2 hresolved.2)
  | ifElse info cond thenStmt elseStmt ihThen ihElse =>
    have hparts := htyped
    simp only [isWordTyped, Bool.and_eq_true] at hparts
    simp only [isResolved, Bool.and_eq_true] at hresolved
    exact canGenerate_ifElse htyped (hexpr hparts.1.1.1 hresolved.1.1)
      (ihThen hparts.1.2 hresolved.1.2) (ihElse hparts.2 hresolved.2)
  | whileLoop info cond body ih =>
    have hparts := htyped
    simp only [isWordTyped, Bool.and_eq_true] at hparts
    simp only [isResolved, Bool.and_eq_true] at hresolved
    exact canGenerate_whileLoop htyped (hexpr hparts.1.1 hresolved.1) (ih hparts.2 hresolved.2)
  | breakFrom info loop => exact canGenerate_breakFrom

end Code

end StmtTree

end MipsBackend
