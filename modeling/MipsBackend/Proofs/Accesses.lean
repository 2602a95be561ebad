import MipsBackend.Proofs.Collection.Representation
import MipsBackend.Proofs.Layout.Coverage
import MipsBackend.Proofs.Machine.Accesses
import MipsBackend.Proofs.Machine.Convention

/-!
# Guarded nodes

The nodes of the source that use an object are collected in `HeapNode`.  Behind its operands the
code of such a node makes the access that the node is for, and guards it (`HeapNode.Guards`).  Where
the operands lie follows from the widths of the operands above them.
-/

namespace MipsBackend

open Gen ExprTree Layout

/-- A node that uses an object. -/
inductive HeapNode where
  | arrayLength (info : ExprInfo) (array : Unit → ExprTree)
  | index (info : ExprInfo) (array index : Unit → ExprTree)
  | field (info : ExprInfo) (object : Unit → ExprTree) (field : VarId)
  /-- An assignment to an element. -/
  | assignIndex (info : StmtInfo) (target : ExprInfo) (array index : Unit → ExprTree)
    (value : ExprTree)
  /-- An assignment to a field. -/
  | assignField (info : StmtInfo) (target : ExprInfo) (object : Unit → ExprTree) (field : VarId)
    (value : ExprTree)
  /-- A call, through the dispatch table if the receiver is not `super`. -/
  | call (info : ExprInfo) (receiver : Unit → ExprTree) (method : MethodId)
    (args : List (Unit → ExprTree))

namespace HeapNode

/-- The node as an expression or a statement. -/
def tree : HeapNode → ExprTree ⊕ StmtTree
  | arrayLength info array => .inl (.arrayLength info array)
  | index info array i => .inl (.index info array i)
  | field info object var => .inl (.field info object var)
  | assignIndex info target array i value => .inr (.assign info (.index target array i) value)
  | assignField info target object var value => .inr (.assign info (.field target object var) value)
  | call info receiver method args => .inl (.call info receiver method args)

/-- The generator of the node's code. -/
def code (p : Program) (l : Layout) (n : HeapNode) : Gen Code :=
  n.tree.elim (·.code p l) (·.code p l)

/-- The node is word-typed, as an expression or a statement. -/
def isWordTyped (p : Program) (n : HeapNode) : Bool :=
  n.tree.elim (·.isWordTyped p) (·.isWordTyped p)

/-- The node is no call that skips the dispatch table. -/
def isVirtual : HeapNode → Bool
  | call _ receiver _ _ => !(receiver ()).isSuper
  | _ => true

/-- The operands, in the order in which they are evaluated. -/
def operands : HeapNode → List (Unit → ExprTree)
  | arrayLength _ array => [array]
  | index _ array i => [array, i]
  | field _ object _ => [object]
  | assignIndex _ _ array i value => [array, i, fun _ => value]
  | assignField _ _ object _ value => [object, fun _ => value]
  | call _ receiver _ args => receiver :: args

/-- The access that the node is for, with operands of the given data words. -/
def access? (l : Layout) : HeapNode → List Word → Option HeapAccess
  | arrayLength info _, [array] => some ⟨array, none, .load arrayLengthOffset info.ty⟩
  | index info _ _, [array, i] => some ⟨array, some i, .load (i.toInt * wordSize) info.ty⟩
  | field info _ var, [object] =>
    (l.varOffset var).toOption.map fun offset => ⟨object, none, .load offset info.ty⟩
  | assignIndex _ _ _ _ _, [array, i, value] =>
    some ⟨array, some i, .store (i.toInt * wordSize) value⟩
  | assignField _ _ _ var _, [object, value] =>
    (l.varOffset var).toOption.map fun offset => ⟨object, none, .store offset value⟩
  | call _ _ method _, receiver :: _ =>
    (l.methodAt method).toOption.map fun m => ⟨receiver, none, .enter m.entryOffset⟩
  | _, _ => none

/-- The types of the operands. -/
def operandTypes (n : HeapNode) : List Ty :=
  n.operands.map fun e => (e ()).ty

/-- Behind the operands, `rest` makes the node's access, guarded, from any machine that has the
operands on the stack. -/
def Guards (l : Layout) (n : HeapNode) (rest : List Inst) : Prop :=
  ∀ (image : Image) (i : Nat) (m : Machine) (base : Word) (values : List Word),
    values.length = n.operands.length →
    m.Pushed base (operandWords (m.reg .s5) n.operandTypes values) →
    ∃ a, n.access? l values = some a ∧
      ((a.object ≠ 0 → a.index?.isSome → 0 ≤ a.length m) → a.Guarded image i m base rest)

end HeapNode

/-! ## The code behind the operands -/

variable {p : Program} {l : Layout} {f f' : Frame} {code : Code} {span : Span} {ty : Ty}
  {m : Machine}

namespace Gen

theorem insts_dropCode {bytes : Int} (h : bytes ≠ 0) :
    (dropCode span bytes).insts = [.adduImm .sp .sp bytes] := by
  rw [dropCode, if_neg h, Code.insts_of]

theorem loadElement_insts (hvalue : ty.isVoid = false)
    (h : (loadElement span ty).run f = .ok (code, f')) : code.insts = loadIndexed ty := by
  simp only [loadElement] at h
  rw [loadIndexed, Ty.stackBytes_of_not_isVoid hvalue, writeValue]
  split at h
  · rename_i hscalar
    simp only [run_bind_eq_ok_iff, run_pure_eq_ok_iff] at h
    obtain ⟨drop, _, hdrop, rfl, _⟩ := h
    obtain ⟨rfl, _⟩ := pop_run hdrop
    rw [Code.insts_append, Code.insts_append, insts_dropCode (by decide), if_pos hscalar,
      if_pos hscalar]
    rfl
  · rename_i hscalar
    simp only [run_bind_eq_ok_iff, run_pure_eq_ok_iff] at h
    obtain ⟨drop, _, hdrop, rfl, _⟩ := h
    obtain ⟨rfl, _⟩ := pop_run hdrop
    rw [Code.insts_append, Code.insts_append, insts_dropCode (by decide), if_neg hscalar,
      if_neg hscalar]
    rfl

theorem loadField_insts {offset : Int} (h : (loadField span ty offset).run f = .ok (code, f')) :
    code.insts = loadWord ty offset := by
  simp only [loadField] at h
  rw [loadWord, writeValue]
  split at h
  · rename_i hscalar
    simp only [run_bind_eq_ok_iff, run_pure_eq_ok_iff] at h
    obtain ⟨push, _, hpush, rfl, _⟩ := h
    obtain ⟨rfl, _⟩ := tagTop_run hpush
    rw [if_pos hscalar, if_pos hscalar]
    rfl
  · rename_i hscalar
    obtain ⟨rfl, _⟩ := run_pure_eq_ok_iff.1 h
    rw [if_neg hscalar, if_neg hscalar]
    rfl

end Gen

/-- Arguments that are as wide as the parameters are as wide as the types of these. -/
theorem stackBytes_of_widths {args : List (Unit → ExprTree)} {formals : List VarId}
    {tys : List Ty} (htypes : VarTypes p formals tys)
    (hwidths : (args.map fun arg => (arg ()).ty.stackBytes) =
      formals.map fun formal => (p.varTy formal).stackBytes) :
    List.Forall₂ (fun ty ty' => ty.stackBytes = ty'.stackBytes)
      (args.map fun arg => (arg ()).ty) tys := by
  rw [htypes.eq_map, List.forall₂_map_left_iff, List.forall₂_map_right_iff]
  rw [← List.forall₂_eq_eq_eq, List.forall₂_map_left_iff, List.forall₂_map_right_iff] at hwidths
  exact hwidths

namespace HeapNode

variable {n : HeapNode} {insts : List Inst} {first rest : Code}

/-! ## What is to be done behind the operands -/

theorem guards_arrayLength {info : ExprInfo} {array : Unit → ExprTree}
    (hvalue : info.ty.isVoid = false) (hreference : (array ()).ty.isReference) :
    (arrayLength info array).Guards l (loadWord info.ty arrayLengthOffset) := by
  intro image i m base values hlength hpushed
  match values, hlength with
  | [object], _ =>
    simp only [operandTypes, operands, List.map, operandWords,
      valueWords_of_isReference hreference] at hpushed
    exact ⟨_, rfl, fun _ => guarded_loadWord hvalue hpushed⟩

theorem guards_index {info : ExprInfo} {array index : Unit → ExprTree}
    (hvalue : info.ty.isVoid = false) (hreference : (array ()).ty.isReference)
    (hscalar : (index ()).ty.isScalar) :
    (HeapNode.index info array index).Guards l (loadIndexed info.ty) := by
  intro image i m base values hlength hpushed
  match values, hlength with
  | [object, position], _ =>
    simp only [operandTypes, operands, List.map, operandWords,
      valueWords_of_isReference hreference, valueWords_of_isScalar hscalar] at hpushed
    exact ⟨_, rfl, fun hnonneg => guarded_loadIndexed hvalue hpushed fun hreal => hnonneg hreal rfl⟩

theorem guards_field {info : ExprInfo} {object : Unit → ExprTree} {var : VarId} {offset : Int}
    (hoffset : l.varOffset var = .ok offset) (hvalue : info.ty.isVoid = false)
    (hreference : (object ()).ty.isReference) :
    (field info object var).Guards l (loadWord info.ty offset) := by
  intro image i m base values hlength hpushed
  match values, hlength with
  | [word], _ =>
    simp only [operandTypes, operands, List.map, operandWords,
      valueWords_of_isReference hreference] at hpushed
    exact ⟨_, by simp [access?, hoffset, Except.toOption],
      fun _ => guarded_loadWord hvalue hpushed⟩

theorem guards_assignIndex {info : StmtInfo} {target : ExprInfo} {array index : Unit → ExprTree}
    {value : ExprTree} (hvalue : value.ty.isVoid = false)
    (hreference : (array ()).ty.isReference) (hscalar : (index ()).ty.isScalar) :
    (assignIndex info target array index value).Guards l (storeElement value.ty.stackBytes ++
      [.adduImm .sp .sp (value.ty.stackBytes + 3 * wordSize)]) := by
  intro image i m base values hlength hpushed
  match values, hlength with
  | [object, position, word], _ =>
    simp only [operandTypes, operands, List.map, operandWords,
      valueWords_of_isReference hreference, valueWords_of_isScalar hscalar,
      List.append_nil] at hpushed
    have hwords : m.Pushed base ([object, m.reg .s5, position] ++
      valueWords (m.reg .s5) value.ty word) := hpushed
    exact ⟨_, rfl, fun hnonneg => guarded_storeElement (hwords.mem_value hvalue)
      (hwords.mem_below (k := 2) rfl (by simp)) (hwords.mem_below (k := 0) rfl rfl)
      (fun hreal => hnonneg hreal rfl) (hwords.sp_add_value rfl)⟩

theorem guards_assignField {info : StmtInfo} {target : ExprInfo} {object : Unit → ExprTree}
    {var : VarId} {value : ExprTree} {offset : Int} (hoffset : l.varOffset var = .ok offset)
    (hvalue : value.ty.isVoid = false) (hreference : (object ()).ty.isReference) :
    (assignField info target object var value).Guards l (storeWord value.ty.stackBytes offset ++
      [.adduImm .sp .sp (value.ty.stackBytes + wordSize)]) := by
  intro image i m base values hlength hpushed
  match values, hlength with
  | [base', word], _ =>
    simp only [operandTypes, operands, List.map, operandWords,
      valueWords_of_isReference hreference, List.append_nil] at hpushed
    have hwords : m.Pushed base ([base'] ++ valueWords (m.reg .s5) value.ty word) := hpushed
    exact ⟨_, by simp [access?, hoffset, Except.toOption],
      fun _ => guarded_storeWord (hwords.mem_value hvalue)
        (hwords.mem_below (k := 0) rfl (by simp)) (hwords.sp_add_value (by simp [wordSize]))⟩

theorem guards_call {info : ExprInfo} {receiver : Unit → ExprTree} {method : MethodId}
    {args : List (Unit → ExprTree)} {decl : MethodDecl} {ml : MethodLayout} {enter : List Inst}
    {tys : List Ty} (hml : l.methodAt method = .ok ml) (henter : dispatch ml = .ok enter)
    (hplaced : FormalsPlaced p l decl.formals tys ml.receiverOffset)
    (hreference : (receiver ()).ty.isReference)
    (hargs : List.Forall₂ (fun ty ty' => ty.stackBytes = ty'.stackBytes)
      (args.map fun arg => (arg ()).ty) tys) :
    (call info receiver method args).Guards l enter := by
  intro image i m base values hlength hpushed
  match values, hlength with
  | object :: passed, hlength =>
    have hlength' : passed.length = tys.length := by
      rw [← hargs.length_eq, List.length_map]
      exact Nat.succ.inj hlength
    simp only [operandTypes, operands, List.map, operandWords,
      valueWords_of_isReference hreference, operandWords_congr hargs] at hpushed
    exact ⟨_, by simp [access?, hml, Except.toOption],
      fun _ => guarded_dispatch henter (receiver_of_pushed hplaced hlength' hpushed)⟩

/-! ## The code of the nodes -/

/-- Code is that of the operands, and behind it comes what makes the node's access. -/
def Splits (p : Program) (l : Layout) (f : Frame) (n : HeapNode) (code : Code) : Prop :=
  ∃ first f₁ rest, (codeAll p l n.operands).run f = .ok (first, f₁) ∧ code = first ++ rest ∧
    n.Guards l rest.insts

theorem Splits.intro (rest : Code) (hfirst : (codeAll p l n.operands).run f = .ok (first, f'))
    (hcode : code = first ++ rest) (hinsts : rest.insts = insts) (hguards : n.Guards l insts) :
    n.Splits p l f code :=
  ⟨first, f', rest, hfirst, hcode, hinsts ▸ hguards⟩

theorem splits_arrayLength {info : ExprInfo} {array : Unit → ExprTree}
    (h : ((ExprTree.arrayLength info array).code p l).run f = .ok (code, f'))
    (htyped : (ExprTree.arrayLength info array).isWordTyped p) :
    (arrayLength info array).Splits p l f code := by
  simp only [ExprTree.isWordTyped, Bool.and_eq_true] at htyped
  obtain ⟨⟨hscalar, hreference⟩, _⟩ := htyped
  simp only [ExprTree.code, run_bind_eq_ok_iff, run_pure_eq_ok_iff] at h
  obtain ⟨first, f₁, hfirst, push, _, hpush, rfl, _⟩ := h
  obtain ⟨rfl, _⟩ := tagTop_run hpush
  refine .intro (Code.of info.span
    [.lw .t0 0 .sp, .nullCheck .t0, .lw .t0 arrayLengthOffset .t0] ++ Code.of info.span
    [.subuImm .sp .sp wordSize, .sw .s5 wordSize .sp, .sw .t0 0 .sp])
    (codeAll_cons_eq_ok hfirst rfl) ?_ ?_
    (guards_arrayLength (Ty.isVoid_of_isScalar hscalar) hreference)
  · rw [List.append_nil, List.append_assoc]
  · rw [loadWord, writeValue, if_pos hscalar, if_pos hscalar]
    rfl

theorem splits_index {info : ExprInfo} {array index : Unit → ExprTree}
    (h : ((ExprTree.index info array index).code p l).run f = .ok (code, f'))
    (htyped : (ExprTree.index info array index).isWordTyped p) :
    (HeapNode.index info array index).Splits p l f code := by
  simp only [ExprTree.isWordTyped, Bool.and_eq_true, Bool.not_eq_true'] at htyped
  obtain ⟨⟨⟨⟨⟨hvalue, _⟩, hreference⟩, hscalar⟩, _⟩, _⟩ := htyped
  simp only [ExprTree.code, run_bind_eq_ok_iff, run_pure_eq_ok_iff] at h
  obtain ⟨first, f₁, hfirst, second, f₂, hsecond, load, _, hload, rfl, _⟩ := h
  exact .intro load (codeAll_cons_eq_ok hfirst (codeAll_cons_eq_ok hsecond rfl))
    (by rw [List.append_nil]) (loadElement_insts hvalue hload)
    (guards_index hvalue hreference hscalar)

theorem splits_field {info : ExprInfo} {object : Unit → ExprTree} {var : VarId}
    (h : ((ExprTree.field info object var).code p l).run f = .ok (code, f'))
    (htyped : (ExprTree.field info object var).isWordTyped p) :
    (field info object var).Splits p l f code := by
  simp only [ExprTree.isWordTyped, Bool.and_eq_true, Ty.readsFrom, Bool.not_eq_true'] at htyped
  obtain ⟨⟨⟨hvalue, _⟩, hreference⟩, _⟩ := htyped
  simp only [ExprTree.code, run_bind_eq_ok_iff, run_pure_eq_ok_iff, run_liftM_eq_ok_iff] at h
  obtain ⟨first, f₁, hfirst, offset, _, ⟨hoffset, rfl⟩, load, _, hload, rfl, _⟩ := h
  exact .intro load (codeAll_cons_eq_ok hfirst rfl) (by rw [List.append_nil])
    (loadField_insts hload)
    (guards_field hoffset hvalue hreference)

theorem splits_assignIndex {info : StmtInfo} {target : ExprInfo} {array index : Unit → ExprTree}
    {value : ExprTree}
    (h : ((StmtTree.assign info (.index target array index) value).code p l).run f =
      .ok (code, f'))
    (htyped : (StmtTree.assign info (.index target array index) value).isWordTyped p) :
    (assignIndex info target array index value).Splits p l f code := by
  simp only [StmtTree.isWordTyped, ExprTree.isWordTyped, Bool.and_eq_true, Bool.not_eq_true',
    beq_iff_eq] at htyped
  obtain ⟨⟨⟨⟨⟨⟨⟨hplace, _⟩, hreference⟩, hscalar⟩, _⟩, _⟩, _⟩, hwidth⟩ := htyped
  have hvalue := Ty.isVoid_of_stackBytes hwidth hplace
  have hwide := value.ty.stackBytes_nonneg
  simp only [StmtTree.code, assignment, run_bind_eq_ok_iff, run_pure_eq_ok_iff,
    run_liftM_eq_ok_iff] at h
  obtain ⟨_, _, ⟨_, rfl⟩, first, f₁, hfirst, second, f₂, hsecond, third, f₃, hthird, drop, _,
    hdrop, rfl, _⟩ := h
  obtain ⟨rfl, _⟩ := pop_run hdrop
  have hdropped : value.ty.stackBytes + 3 * wordSize ≠ 0 := by
    rw [wordSize]
    omega
  refine .intro (Code.of info.span (storeElement value.ty.stackBytes) ++
    dropCode info.span (value.ty.stackBytes + 3 * wordSize))
    (codeAll_cons_eq_ok hfirst (codeAll_cons_eq_ok hsecond (codeAll_cons_eq_ok hthird rfl))) ?_ ?_
    (guards_assignIndex hvalue hreference hscalar)
  · simp only [List.append_nil, List.append_assoc]
  · rw [Code.insts_append, Code.insts_of, insts_dropCode hdropped]

theorem splits_assignField {info : StmtInfo} {target : ExprInfo} {object : Unit → ExprTree}
    {var : VarId} {value : ExprTree}
    (h : ((StmtTree.assign info (.field target object var) value).code p l).run f =
      .ok (code, f'))
    (htyped : (StmtTree.assign info (.field target object var) value).isWordTyped p) :
    (assignField info target object var value).Splits p l f code := by
  simp only [StmtTree.isWordTyped, ExprTree.isWordTyped, Ty.readsFrom, Bool.and_eq_true,
    Bool.not_eq_true', beq_iff_eq] at htyped
  obtain ⟨⟨⟨⟨⟨hplace, _⟩, hreference⟩, _⟩, _⟩, hwidth⟩ := htyped
  have hvalue := Ty.isVoid_of_stackBytes hwidth hplace
  have hwide := value.ty.stackBytes_nonneg
  simp only [StmtTree.code, assignment, run_bind_eq_ok_iff, run_pure_eq_ok_iff,
    run_liftM_eq_ok_iff] at h
  obtain ⟨_, _, ⟨_, rfl⟩, first, f₁, hfirst, second, f₂, hsecond, offset, _, ⟨hoffset, rfl⟩, drop,
    _, hdrop, rfl, _⟩ := h
  obtain ⟨rfl, _⟩ := pop_run hdrop
  have hdropped : value.ty.stackBytes + wordSize ≠ 0 := by
    rw [wordSize]
    omega
  refine .intro (Code.of info.span (storeWord value.ty.stackBytes offset) ++
    dropCode info.span (value.ty.stackBytes + wordSize))
    (codeAll_cons_eq_ok hfirst (codeAll_cons_eq_ok hsecond rfl)) ?_ ?_
    (guards_assignField hoffset hvalue hreference)
  · simp only [List.append_nil, List.append_assoc]
    rfl
  · rw [Code.insts_append, Code.insts_of, insts_dropCode hdropped]

theorem splits_call {data : Code} {info : ExprInfo} {receiver : Unit → ExprTree}
    {method : MethodId} {args : List (Unit → ExprTree)}
    (hcompute : Layout.compute p = .ok (l, data))
    (h : ((ExprTree.call info receiver method args).code p l).run f = .ok (code, f'))
    (htyped : (ExprTree.call info receiver method args).isWordTyped p)
    (hvirtual : (receiver ()).isSuper = false) :
    (call info receiver method args).Splits p l f code := by
  obtain ⟨decl, first, passed, enter, f₁, f₂, hdecl, _, hfirst, hpassed, henter, _, rfl⟩ :=
    ExprTree.call_run h
  simp only [ExprTree.isWordTyped, hdecl, Bool.and_eq_true, beq_iff_eq] at htyped
  obtain ⟨⟨⟨⟨_, hreference⟩, hwidths⟩, _⟩, _⟩ := htyped
  rw [hvirtual] at henter
  obtain ⟨ml, hml, henter⟩ := henter
  obtain ⟨_, _, _, decl', ml', tys, hdecl', hml', hplaced, _⟩ :=
    (Layout.compute_eq_ok hcompute).exists_methodPlaced hml
  obtain rfl : decl = decl' := Except.ok.inj (hdecl.symm.trans hdecl')
  obtain rfl : ml = ml' := Except.ok.inj (hml.symm.trans hml')
  exact .intro (Code.of info.span enter) (codeAll_cons_eq_ok hfirst hpassed) rfl
    (Code.insts_of _ _)
    (guards_call hml henter hplaced hreference (stackBytes_of_widths hplaced.types hwidths))

/-- The code of a word-typed node that is no call of `super`. -/
theorem splits_of_code {data : Code} (hcompute : Layout.compute p = .ok (l, data))
    (h : (n.code p l).run f = .ok (code, f')) (htyped : n.isWordTyped p) (hvirtual : n.isVirtual) :
    n.Splits p l f code := by
  cases n with
  | arrayLength => exact splits_arrayLength h htyped
  | index => exact splits_index h htyped
  | field => exact splits_field h htyped
  | assignIndex => exact splits_assignIndex h htyped
  | assignField => exact splits_assignField h htyped
  | call => exact splits_call hcompute h htyped (by simpa [isVirtual] using hvirtual)

end HeapNode

/-! ## The states behind the operands -/

/-- The watch over a run from machine `m`: values are on the stack in the end. -/
def Executable.endWatch (exe : Executable) (methods : Nat → Machine → Machine → Prop)
    (tys : List Ty) (m : Machine) (top : Nat) : Watch where
  exe := exe
  methods := methods
  good j m' := j = exe.code.length → m'.HoldsValues (m.reg .sp) tys
  base := m.reg .sp
  marker := m.reg .s5
  top := top

section Watched

variable {exe : Executable} {methods : Nat → Machine → Machine → Prop} {tys : List Ty}
  {es : List (Unit → ExprTree)} {points : List CallPoint} {top : Nat} {m' : Machine}

namespace Watch

/-- At the lines of the code nothing is to hold. -/
theorem good_of_getElem? {j : Nat} {inst : Inst} (h : exe.code.insts[j]? = some inst) :
    (exe.endWatch methods tys m top).good j m' := by
  rintro rfl
  cases h.symm.trans exe.getElem?_length

theorem sound_endWatch {nodes : List Node} (hlabels : exe.code.LabelledBy nodes)
    (hnodes : nodes.Nodup) (hruntime : exe.runtime.LeavesValues top)
    (htop : (m.reg .sp).toNat ≤ top) : (exe.endWatch methods tys m top).Sound where
  nodup := hlabels.nodup hnodes
  outside := hlabels.lineOf_eq_none
  plain hinst _ _ := good_of_getElem? hinst
  base_le := htop
  runtime := hruntime

theorem meets_endWatch (hcalls : exe.code.HasCalls p 0 points)
    (hmethods : ∀ c ∈ points, ∀ id decl, c.callee = .method id → p.methodAt id = .ok decl →
      ∀ m m', methods c.line m m' → decl.LeavesResult p top m m') :
    ∀ c ∈ points, (exe.endWatch methods tys m top).Meets p 0 [] c := by
  intro c hc
  refine ⟨fun _ => ?_, fun hcallee hdecl hmethod => ?_⟩
  · obtain ⟨j, inst, hline, hinst, _⟩ := hcalls.exists_calls hc
    rw [hline, Nat.zero_add, Nat.zero_add]
    exact good_of_getElem? hinst
  · rw [Nat.zero_add] at hmethod
    exact hmethods c hc _ _ hcallee hdecl _ _ hmethod

theorem safe_endWatch (hm' : m'.HasSlots (m.reg .sp) (m.reg .s5) (slotsAll tys)) :
    (exe.endWatch methods tys m top).Safe (.line exe.code.length m') := by
  refine safe_of_advances (fun _ => hm'.holdsValues_of_base) fun c hadvances => ?_
  cases hadvances with
  | step hstep => cases hstep.symm.trans Executable.step_end
  | method hinst => cases hinst.symm.trans exe.getElem?_length

end Watch

/-- In the end the code of word-typed expressions has pushed their values. -/
theorem ExprTree.holdsValues_of_codeAll (h : (codeAll p l es).run f = .ok (exe.code, f'))
    (htyped : isWordTypedAll p es) (hnodes : (nodesAll es).Nodup)
    (hruntime : exe.runtime.LeavesValues top)
    (hmethods : ∀ c ∈ callsAll p l es f, ∀ id decl, c.callee = .method id →
      p.methodAt id = .ok decl → ∀ m m', methods c.line m m' → decl.LeavesResult p top m m')
    (hroom : peakAll es ≤ (m.reg .sp).toNat) (htop : (m.reg .sp).toNat ≤ top)
    (hreaches : exe.Reaches methods (.line 0 m) (.line exe.code.length m')) :
    m'.HoldsValues (m.reg .sp) (es.map fun e => (e ()).ty) := by
  have hcalls := hasCalls_codeAll (fun _ _ _ _ _ => hasCalls_code) h
  have hlabels := labelledBy_codeAll h fun _ _ _ _ _ => labelledBy_code
  have hw : (exe.endWatch methods (es.map fun e => (e ()).ty) m top).Sound :=
    Watch.sound_endWatch hlabels hnodes hruntime htop
  have hpushes : ∀ e ∈ es, Watch.Pushes _ p l (e ()) := fun e he =>
    Watch.pushes_of_isWordTyped hw (isWordTypedAll_iff.1 htyped e he)
  have hspace : peakAll es + ([] : List Slot).length * wordSize ≤ (m.reg .sp).toNat := by
    simpa using hroom
  refine Watch.carries_codeAll hpushes h hspace (Watch.meets_endWatch hcalls hmethods)
    exe.hasAt_self (fun m' hm' => ?_) m ⟨by simp, by simp [Executable.endWatch], rfl, by simp⟩ _ m'
    hreaches rfl
  rw [List.append_nil] at hm'
  rw [Nat.zero_add]
  exact Watch.safe_endWatch hm'

end Watched

namespace HeapNode

variable {n : HeapNode}

theorem isWordTypedAll_operands (h : n.isWordTyped p) : isWordTypedAll p n.operands := by
  cases n with
  | arrayLength | field =>
    simp only [isWordTyped, tree, Sum.elim_inl, ExprTree.isWordTyped, Bool.and_eq_true] at h
    simp only [operands, isWordTypedAll, h.2, Bool.and_true]
  | index =>
    simp only [isWordTyped, tree, Sum.elim_inl, ExprTree.isWordTyped, Bool.and_eq_true] at h
    simp only [operands, isWordTypedAll, h.1.2, h.2, Bool.and_true]
  | assignIndex =>
    simp only [isWordTyped, tree, Sum.elim_inr, StmtTree.isWordTyped, ExprTree.isWordTyped,
      Bool.and_eq_true] at h
    simp only [operands, isWordTypedAll, h.1.1.1.2, h.1.1.2, h.1.2, Bool.and_true]
  | assignField =>
    simp only [isWordTyped, tree, Sum.elim_inr, StmtTree.isWordTyped, ExprTree.isWordTyped,
      Bool.and_eq_true] at h
    simp only [operands, isWordTypedAll, h.1.1.2, h.1.2, Bool.and_true]
  | call info receiver method args =>
    simp only [isWordTyped, tree, Sum.elim_inl, ExprTree.isWordTyped] at h
    split at h
    · simp only [Bool.and_eq_true] at h
      simp only [operands, isWordTypedAll, h.1.2, h.2, Bool.and_true]
    · cases h

/-- Code that uses an object checks it first.  The code of a word-typed node goes on behind the
operands with a guarded access, wherever the operands are on the stack.  They are, if the library
and the methods keep to their contracts and there is room for what is pushed. -/
theorem guarded_of_code {L : Layout} {data : Code} (hcompute : Layout.compute p = .ok (L, data))
    (h : (n.code p L).run f = .ok (code, f')) (htyped : n.isWordTyped p) (hvirtual : n.isVirtual) :
    ∃ first f₁ rest, (codeAll p L n.operands).run f = .ok (first, f₁) ∧ code = first ++ rest ∧
      n.Guards L rest.insts ∧
      ∀ {image : Image} {runtime : Runtime} {methods : Nat → Machine → Machine → Prop}
        {m m' : Machine} {top : Nat}, (nodesAll n.operands).Nodup → runtime.LeavesValues top →
        (∀ c ∈ callsAll p L n.operands f, ∀ id decl, c.callee = .method id →
          p.methodAt id = .ok decl → ∀ m m', methods c.line m m' → decl.LeavesResult p top m m') →
        peakAll n.operands ≤ (m.reg .sp).toNat → (m.reg .sp).toNat ≤ top →
        Executable.Reaches ⟨first, image, runtime⟩ methods (.line 0 m) (.line first.length m') →
        m'.HoldsValues (m.reg .sp) n.operandTypes := by
  obtain ⟨first, f₁, rest, hfirst, hcode, hguards⟩ := splits_of_code hcompute h htyped hvirtual
  refine ⟨first, f₁, rest, hfirst, hcode, hguards,
    fun {image runtime _ _ _ _} hnodes hruntime hmethods hroom htop hreaches => ?_⟩
  let exe : Executable := ⟨first, image, runtime⟩
  have hrun : (codeAll p L n.operands).run f = .ok (exe.code, f₁) := hfirst
  exact holdsValues_of_codeAll hrun (isWordTypedAll_operands htyped) hnodes hruntime hmethods hroom
    htop hreaches

/-- The assignment `new int[3][1] = 7`. -/
def assignedElement : HeapNode :=
  .assignIndex ⟨⟨7⟩, .dummy⟩ ⟨⟨22⟩, .dummy, .int⟩
    (fun _ => .newArray ⟨⟨23⟩, .dummy, .array .int⟩ .int fun _ => .int ⟨⟨24⟩, .dummy, .int⟩ 3)
    (fun _ => .int ⟨⟨25⟩, .dummy, .int⟩ 1) (.int ⟨⟨26⟩, .dummy, .int⟩ 7)

theorem guarded_assignedElement : ∃ L data code f' first f₁ rest,
    Layout.compute shapes = .ok (L, data) ∧
    (assignedElement.code shapes L).run .empty = .ok (code, f') ∧
    (codeAll shapes L assignedElement.operands).run .empty = .ok (first, f₁) ∧
    code = first ++ rest ∧ assignedElement.Guards L rest.insts ∧
    ∀ m', Executable.Reaches ⟨first, ⟨fun _ => 0, fun _ => 0⟩, Runtime.allocating 0x7fff0010⟩
        (fun _ _ _ => False) (.line 0 ⟨fun _ => 0x7fff0000, 0, fun _ => 0⟩)
        (.line first.length m') →
      m'.HoldsValues 0x7fff0000 [.array .int, .int, .int] := by
  obtain ⟨⟨code, f'⟩, hok⟩ := exists_eq_ok_of_isSome
    (show (do
        let laid ← Layout.compute shapes
        (assignedElement.code shapes laid.1).run .empty).toOption.isSome by decide +kernel)
  obtain ⟨⟨L, data⟩, hcompute, hcode⟩ := bind_eq_ok_iff.1 hok
  obtain ⟨first, f₁, rest, hfirst, hsplit, hguards, hreached⟩ :=
    guarded_of_code hcompute hcode (by decide) rfl
  exact ⟨L, data, code, f', first, f₁, rest, hcompute, hcode, hfirst, hsplit, hguards,
    fun m' hreaches => hreached (by decide) Runtime.leavesValues_allocating
      (fun _ _ _ _ _ _ _ _ h => h.elim) (by decide) (by decide) hreaches⟩

end HeapNode

end MipsBackend
