import MipsBackend.Program.Code
import MipsBackend.Proofs.Layout.Ranges

/-!
# Separate compilation

The interface of a program is the program with all method bodies taken out.  The layout pass reads
nothing but the interface, and neither does the generator while it works on the tree of an
expression or a statement: it asks for the declarations of callees, never for their bodies.  So the
code of a method is determined by its own declaration and the interface of the program it is in.
-/

namespace MipsBackend

/-- The declaration of a method without its body and its result. -/
def MethodDecl.interface (m : MethodDecl) : MethodDecl :=
  { m with body := [], result := none }

/-- The program with all method bodies taken out.  The arenas that bodies point into stay. -/
def Program.interface (p : Program) : Program :=
  { p with methods := p.methods.map MethodDecl.interface }

namespace Program

/-! ## What is in the interface -/

section Interface

variable (p : Program)

@[simp] theorem classAt_interface : p.interface.classAt = p.classAt := rfl
@[simp] theorem stmtAt_interface : p.interface.stmtAt = p.stmtAt := rfl
@[simp] theorem ownMethod_interface : p.interface.ownMethod = p.ownMethod := rfl
@[simp] theorem recordName_interface : p.interface.recordName = p.recordName := rfl

/-- Of a method the interface has the declaration, but for the body. -/
theorem methodAt_interface (m : MethodId) :
    p.interface.methodAt m = (p.methodAt m).map MethodDecl.interface := by
  simp only [methodAt, lookup, interface, Array.getElem?_map, Array.size_map]
  cases p.methods[m.toNat]? <;> rfl

variable {p} in
/-- What uses a method's declaration only cannot tell the interface from the program. -/
theorem methodAt_interface_bind {α : Type} {m : MethodId} {use use' : MethodDecl → Except Fault α}
    (h : ∀ decl, use' decl.interface = use decl) :
    p.interface.methodAt m >>= use' = p.methodAt m >>= use := by
  rw [methodAt_interface]
  cases p.methodAt m with
  | error fault => rfl
  | ok decl => exact h decl

variable {p} in
/-- The same in an operation on a state. -/
theorem liftM_methodAt_interface_bind {σ α : Type} {m : MethodId}
    {use use' : MethodDecl → StateT σ (Except Fault) α}
    (h : ∀ decl, use' decl.interface = use decl) :
    (liftM (p.interface.methodAt m) : StateT σ (Except Fault) MethodDecl) >>= use' =
      (liftM (p.methodAt m) : StateT σ (Except Fault) MethodDecl) >>= use := by
  rw [methodAt_interface]
  cases p.methodAt m with
  | error fault => rfl
  | ok decl => exact h decl

@[simp] theorem methodLabel_interface : p.interface.methodLabel = p.methodLabel :=
  funext fun _ => methodAt_interface_bind fun _ => rfl

theorem climb_interface (bound : Nat) (c : Option ClassId) :
    p.interface.climb bound c = p.climb bound c := by
  induction bound generalizing c with
  | zero =>
    cases c with
    | none => rfl
    | some c => rw [climb, climb, classAt_interface]
  | succ bound ih =>
    cases c with
    | none => rfl
    | some c =>
      rw [climb, climb, classAt_interface]
      simp only [ih]

@[simp] theorem lineage_interface : p.interface.lineage = p.lineage := by
  funext c
  simp only [lineage, classAt_interface, climb_interface]
  rfl

@[simp] theorem rootClass_interface : p.interface.rootClass = p.rootClass := by
  simp only [rootClass, superclasses, lineage_interface]
  rfl

@[simp] theorem isSubtype_interface : p.interface.isSubtype = p.isSubtype := by
  funext sub sup
  simp only [isSubtype, isSubclass, lineage_interface, classAt_interface]

@[simp] theorem inheritedMethod_interface : p.interface.inheritedMethod = p.inheritedMethod := by
  funext c name
  simp only [inheritedMethod, lineage_interface, ownMethod_interface]

theorem unfoldClass_interface (bound : Nat) (c : ClassId) :
    p.interface.unfoldClass bound c = p.unfoldClass bound c := by
  induction bound generalizing c with
  | zero => rw [unfoldClass, unfoldClass, classAt_interface]
  | succ bound ih =>
    rw [unfoldClass, unfoldClass, classAt_interface]
    simp only [ih]

@[simp] theorem classTree_interface : p.interface.classTree = p.classTree :=
  funext fun c => p.unfoldClass_interface p.classes.size c

theorem unfoldExpr_interface (bound : Nat) (e : ExprId) :
    p.interface.unfoldExpr bound e = p.unfoldExpr bound e := by
  have hexpr : p.interface.exprAt = p.exprAt := rfl
  induction bound generalizing e with
  | zero => rw [unfoldExpr, unfoldExpr, hexpr]
  | succ bound ih =>
    rw [unfoldExpr, unfoldExpr, hexpr]
    simp only [ih]

@[simp] theorem exprTree_interface : p.interface.exprTree = p.exprTree :=
  funext fun e => p.unfoldExpr_interface p.exprs.size e

theorem unfoldStmt_interface (bound : Nat) (s : StmtId) :
    p.interface.unfoldStmt bound s = p.unfoldStmt bound s := by
  have hinit : p.interface.localInit = p.localInit := rfl
  induction bound generalizing s with
  | zero => rw [unfoldStmt, unfoldStmt, stmtAt_interface]
  | succ bound ih =>
    rw [unfoldStmt, unfoldStmt, stmtAt_interface]
    simp only [exprTree_interface, hinit, ih]

@[simp] theorem stmtTree_interface : p.interface.stmtTree = p.stmtTree :=
  funext fun s => p.unfoldStmt_interface p.stmts.size s

end Interface

end Program

namespace Layout

open Program

variable (p : Program)

/-! ## The layout pass -/

theorem assignSlot_interface (c : ClassId) (m : MethodId) (decl : MethodDecl)
    (vtable : List MethodId) :
    assignSlot p.interface c m decl.interface vtable =
      assignSlot p c m decl vtable := by
  unfold assignSlot
  cases hover : decl.overridden with
  | none =>
    have hover' : decl.interface.overridden = none := hover
    simp only [hover', inheritedMethod_interface, classAt_interface]
    refine bind_congr fun shadowed => ?_
    cases shadowed with
    | none => rfl
    | some shadowed => exact bind_congr fun _ => liftM_methodAt_interface_bind fun _ => rfl
  | some overridden =>
    have hover' : decl.interface.overridden = some overridden := hover
    have hname : (fun m => do return (← liftM (p.interface.methodAt m)).name) =
        (fun m => do return (← liftM (p.methodAt m)).name : MethodId → LayoutM String) :=
      funext fun _ => liftM_methodAt_interface_bind fun _ => rfl
    simp only [hover', classAt_interface, hname]
    refine bind_congr fun l => bind_congr fun laid => ?_
    split
    · rfl
    · exact bind_congr fun _ => liftM_methodAt_interface_bind fun _ => rfl

theorem placeMethod_interface : placeMethod p.interface = placeMethod p := by
  funext c vtable m
  refine liftM_methodAt_interface_bind fun decl => ?_
  rw [assignSlot_interface]
  rfl

theorem recordBody_interface : recordBody p.interface = recordBody p := by
  funext superclass cl
  simp only [recordBody, classAt_interface, methodLabel_interface]

theorem arrayRecords_interface : arrayRecords p.interface = arrayRecords p := by
  funext root cl
  simp only [arrayRecords, recordBody_interface]

theorem visitAll_interface {trees : List (Unit → ClassTree)}
    (h : ∀ t ∈ trees, ∀ inherited, visit p.interface inherited (t ()) =
      visit p inherited (t ())) (inherited : ClassLayout) :
    visitAll p.interface inherited trees = visitAll p inherited trees := by
  induction trees with
  | nil => rfl
  | cons tree trees ih =>
    rw [List.forall_mem_cons] at h
    rw [visitAll, visitAll, h.1, ih h.2]

theorem visit_interface (inherited : ClassLayout) (tree : ClassTree) :
    visit p.interface inherited tree = visit p inherited tree := by
  have hfield : placeField p.interface = placeField p := rfl
  induction tree generalizing inherited with
  | broken id fault => rfl
  | node id decl subclasses ih =>
    simp only [visit, hfield, placeMethod_interface, recordBody_interface,
      arrayRecords_interface, visitAll_interface p ih]

/-- The layout pass reads the interface of a program only. -/
theorem compute_interface : compute p.interface = compute p := by
  have hrecords : classRecords p.interface = classRecords p := by
    simp only [classRecords, rootClass_interface, classTree_interface, visit_interface,
      arrayRecords_interface]
  have hblank : blank p.interface = blank p := by
    simp only [blank, interface, Array.size_map]
  have hliterals : stringLiterals p.interface = stringLiterals p := rfl
  simp only [compute, hrecords, hblank, hliterals]
  rfl

end Layout

/-! ## The generator -/

section Generator

open Gen Program

variable (p : Program) (l : Layout)

theorem varAddress_interface : varAddress p.interface = varAddress p := rfl

theorem loadClassRange_interface : loadClassRange p.interface = loadClassRange p := rfl

namespace ExprTree

theorem codeAll_interface {es : List (Unit → ExprTree)}
    (h : ∀ e ∈ es, (e ()).code p.interface l = (e ()).code p l) :
    codeAll p.interface l es = codeAll p l es := by
  induction es with
  | nil => rfl
  | cons e es ih =>
    rw [List.forall_mem_cons] at h
    rw [codeAll, codeAll, h.1, ih h.2]

/-- An expression needs no more of a callee than its declaration. -/
@[simp] theorem code_interface (e : ExprTree) : e.code p.interface l = e.code p l := by
  induction e with
  | broken | int | str | null | this | super | ident => rfl
  | bool info value => cases value <;> rfl
  | not info operand ih => simp only [code, ih]
  | binary info op lhs rhs ihl ihr => simp only [code, ihl, ihr]
  | arrayLength info array ih => simp only [code, ih]
  | index info array i iha ihi => simp only [code, iha, ihi]
  | field info object var ih => simp only [code, ih]
  | instanceOf info operand ty ih => simp only [code, ih, loadClassRange_interface]
  | cast info ty operand ih => simp only [code, ih, isSubtype_interface, loadClassRange_interface]
  | new => rfl
  | newArray info elem size ih => simp only [code, ih, recordName_interface]
  | call info receiver method args ihr iha =>
    simp only [code, ihr, codeAll_interface p l iha, methodLabel_interface]
    exact liftM_methodAt_interface_bind fun _ => rfl

end ExprTree

namespace StmtTree

theorem codeAll_interface {ss : List (Unit → StmtTree)}
    (h : ∀ s ∈ ss, (s ()).code p.interface l = (s ()).code p l) :
    codeAll p.interface l ss = codeAll p l ss := by
  induction ss with
  | nil => rfl
  | cons s ss ih =>
    rw [List.forall_mem_cons] at h
    rw [codeAll, codeAll, h.1, ih h.2]

theorem condition_interface : condition p.interface l = condition p l := by
  funext span cond
  simp only [condition, ExprTree.code_interface]

theorem assignment_interface : assignment p.interface l = assignment p l := by
  funext span target value
  cases target <;> simp only [assignment, ExprTree.code_interface, varAddress_interface]

/-- Neither does a statement. -/
@[simp] theorem code_interface (s : StmtTree) : s.code p.interface l = s.code p l := by
  induction s with
  | broken | breakFrom => rfl
  | block info stmts ih => simp only [code, codeAll_interface p l ih]
  | localVar | call => simp only [code, ExprTree.code_interface]
  | assign => simp only [code, assignment_interface]
  | ifThen info cond thenStmt ih => simp only [code, condition_interface, ih]
  | ifElse info cond thenStmt elseStmt iht ihe => simp only [code, condition_interface, iht, ihe]
  | whileLoop info cond body ih => simp only [code, condition_interface, ih]

end StmtTree

/-- The result of a method is generated from the interface and the method's own declaration. -/
theorem MethodDecl.resultCode_interface (decl : MethodDecl) :
    decl.resultCode p.interface l = decl.resultCode p l := by
  simp only [resultCode, exprTree_interface, ExprTree.code_interface]

namespace Program

/-- What the entry point runs stands in the interface. -/
theorem entryCode_interface : p.interface.entryCode l = p.entryCode l := by
  simp only [entryCode, stmtAt_interface, stmtTree_interface, StmtTree.scopedCode,
    StmtTree.code_interface]
  rfl

variable {p} {q : Program} {m : MethodId}

/-- A method is generated from its own declaration and the interface. -/
theorem methodCode_eq (same : p.interface = q.interface) (hm : p.methodAt m = q.methodAt m) :
    p.methodCode l m = q.methodCode l m := by
  have hlabel : p.methodLabel = q.methodLabel := by
    rw [← p.methodLabel_interface, same, q.methodLabel_interface]
  have htree : p.stmtTree = q.stmtTree := by
    rw [← p.stmtTree_interface, same, q.stmtTree_interface]
  have hbody (ss) : StmtTree.codeAll p l ss = StmtTree.codeAll q l ss := by
    rw [← StmtTree.codeAll_interface p l fun s _ => StmtTree.code_interface p l (s ()), same,
      StmtTree.codeAll_interface q l fun s _ => StmtTree.code_interface q l (s ())]
  have hresult (decl : MethodDecl) : decl.resultCode p l = decl.resultCode q l := by
    rw [← decl.resultCode_interface p, same, decl.resultCode_interface q]
  simp only [methodCode, hm, hlabel, htree, hbody, hresult]

/-! ## Replacing bodies -/

variable (p) in
/-- The program with other bodies and results in the methods at some positions. -/
def withBodies (bodies : Nat → Option (List StmtId × Option ExprId)) : Program :=
  { p with methods := p.methods.mapIdx fun i decl =>
      match bodies i with
      | some (body, result) => { decl with body, result }
      | none => decl }

variable {bodies : Nat → Option (List StmtId × Option ExprId)}

theorem interface_withBodies : (p.withBodies bodies).interface = p.interface := by
  have hmethods : ((p.methods.mapIdx fun i decl =>
      match bodies i with
      | some (body, result) => { decl with body, result }
      | none => decl).map MethodDecl.interface) = p.methods.map MethodDecl.interface := by
    apply Array.ext_getElem?
    intro i
    simp only [Array.getElem?_map, Array.getElem?_mapIdx]
    cases p.methods[i]? with
    | none => rfl
    | some decl => cases bodies i <;> rfl
  simp only [interface, withBodies, hmethods]

theorem methodAt_withBodies (h : bodies m.toNat = none) :
    (p.withBodies bodies).methodAt m = p.methodAt m := by
  simp only [methodAt, lookup, withBodies, Array.getElem?_mapIdx, Array.size_mapIdx, h]
  cases p.methods[m.toNat]? <;> rfl

variable (p bodies) in
/-- Method bodies are compiled independently: other bodies change neither the layout nor the data
segment, nor the entry point, nor any method that keeps its own body, whomever it calls.  That goes
for faults too. -/
theorem separate_withBodies :
    Layout.compute (p.withBodies bodies) = Layout.compute p ∧
    ∀ l, (p.withBodies bodies).entryCode l = p.entryCode l ∧
      ∀ m, bodies m.toNat = none → (p.withBodies bodies).methodCode l m = p.methodCode l m := by
  refine ⟨?layout, fun l => ⟨?entry, fun m hkept => ?method⟩⟩
  case layout => rw [← Layout.compute_interface, interface_withBodies, Layout.compute_interface]
  case entry => rw [← entryCode_interface, interface_withBodies, entryCode_interface]
  case method => exact methodCode_eq l interface_withBodies (methodAt_withBodies hkept)

/-- In `shapes` the method `scale` calls `area`; here `area` calls `scale` too. -/
def mutualBodies (position : Nat) : Option (List StmtId × Option ExprId) :=
  if position = 1 ∨ position = 3 then some ([⟨5⟩], some ⟨18⟩) else none

theorem separate_shapes : ∃ L data code, Layout.compute shapes = .ok (L, data) ∧
    shapes.methodCode L ⟨2⟩ = .ok code ∧ mutualBodies 2 = none ∧
    shapes.withBodies mutualBodies ≠ shapes ∧
    Layout.compute (shapes.withBodies mutualBodies) = .ok (L, data) ∧
    (shapes.withBodies mutualBodies).methodCode L ⟨2⟩ = .ok code := by
  obtain ⟨_, hok⟩ := exists_eq_ok_of_isSome
    (show (do
        let laid ← Layout.compute shapes
        let code ← shapes.methodCode laid.1 ⟨2⟩
        return (laid.1, laid.2, code)).toOption.isSome by decide +kernel)
  obtain ⟨⟨L, data⟩, hcompute, hok⟩ := bind_eq_ok_iff.1 hok
  obtain ⟨code, hcode, -⟩ := bind_eq_ok_iff.1 hok
  have hkept : mutualBodies (⟨2⟩ : MethodId).toNat = none := by decide
  obtain ⟨hlayout, hbodies⟩ := separate_withBodies shapes mutualBodies
  exact ⟨L, data, code, hcompute, hcode, hkept, by decide +kernel, hlayout.trans hcompute,
    ((hbodies L).2 ⟨2⟩ hkept).trans hcode⟩

end Program

end Generator

end MipsBackend
