import MipsBackend.Proofs.Code.Writes
import MipsBackend.Proofs.Collection.CallPoints

/-!
# What expressions and assignments write on the stack

The code of a word-typed expression stores into the stack only what it has pushed itself: the words
of its operands, and its own value in their place.  So it leaves alone all that lay on the stack
before, be that variables, saved registers or operands of an enclosing expression.  An assignment
also writes the word of a variable, if that lies on the stack.

There is one lemma for each form of expression, which puts the code of the operands and that of the
operator together (`ExprTree.writes_of_isWordTyped`).  Each operator counts from the bytes of its
operands.
-/

namespace MipsBackend

open Gen

variable {p : Program} {l : Layout} {f f' f₁ : Frame} {code : Code} {span : Span} {ty : Ty}

/-! ## Operators behind their operands -/

namespace WritesPushed

/-- Two scalars become one, and two references that are compared become a scalar. -/
theorem applyOperator {op : BinOp} {lhs rhs : Ty} (htakes : op.takes lhs rhs)
    (h : (Gen.applyOperator span op lhs.isReference).run f = .ok (code, f')) :
    WritesPushed p [] code.insts (rhs.stackBytes + lhs.stackBytes) (2 * wordSize) := by
  simp only [BinOp.takes, Bool.or_eq_true, Bool.and_eq_true, beq_iff_eq] at htakes
  rcases htakes with ⟨hl, hr⟩ | ⟨⟨rfl, hl⟩, hr⟩
  · rw [Ty.stackBytes_of_isScalar hl, Ty.stackBytes_of_isScalar hr]
    rw [Ty.not_isReference_of_isScalar hl] at h
    rcases applyOperator_run h with ⟨rfl, rfl⟩ | ⟨rfl, rfl⟩ | ⟨_, rfl⟩
    · exact .of_all rfl rfl
    · exact .of_all rfl rfl
    · rw [if_neg (by simp)]
      cases op <;> exact .of_all rfl rfl
  · rw [Ty.stackBytes_of_isReference hl, Ty.stackBytes_of_isReference hr]
    rcases applyOperator_run h with ⟨hop, _⟩ | ⟨hop, _⟩ | ⟨_, rfl⟩
    · cases hop
    · cases hop
    · rw [if_pos ⟨rfl, hl⟩]
      exact .of_all rfl rfl

/-- An array and an index become the element. -/
theorem loadElement (hvalue : ty.isVoid = false)
    (h : (Gen.loadElement span ty).run f = .ok (code, f')) :
    WritesPushed p [] code.insts (3 * wordSize) ty.stackBytes := by
  rw [Ty.stackBytes_of_not_isVoid hvalue]
  rw [Gen.loadElement] at h
  split at h
  · rename_i hscalar
    simp only [run_bind_eq_ok_iff, run_pure_eq_ok_iff] at h
    obtain ⟨drop, _, hdrop, rfl, _⟩ := h
    obtain ⟨rfl, _⟩ := pop_run hdrop
    rw [if_pos hscalar]
    exact .of_all rfl rfl
  · rename_i hscalar
    simp only [run_bind_eq_ok_iff, run_pure_eq_ok_iff] at h
    obtain ⟨drop, _, hdrop, rfl, _⟩ := h
    obtain ⟨rfl, _⟩ := pop_run hdrop
    rw [if_neg hscalar]
    exact .of_all rfl rfl

/-- An object becomes the value of its field. -/
theorem loadField (hvalue : ty.isVoid = false) {offset : Int}
    (h : (Gen.loadField span ty offset).run f = .ok (code, f')) :
    WritesPushed p [] code.insts wordSize ty.stackBytes := by
  rw [Ty.stackBytes_of_not_isVoid hvalue]
  rw [Gen.loadField] at h
  split at h
  · rename_i hscalar
    simp only [run_bind_eq_ok_iff, run_pure_eq_ok_iff] at h
    obtain ⟨push, _, hpush, rfl, _⟩ := h
    obtain ⟨rfl, _⟩ := tagTop_run hpush
    rw [if_pos hscalar]
    exact .of_all rfl rfl
  · rename_i hscalar
    obtain ⟨rfl, _⟩ := run_pure_eq_ok_iff.1 h
    rw [if_neg hscalar]
    exact .of_all rfl rfl

/-- The receiver and the arguments become the result of the method. -/
theorem enter {method : MethodId} {decl : MethodDecl} {isSuper : Bool} {insts : List Inst}
    (hdecl : p.methodAt method = .ok decl) (henter : Enters p l isSuper method insts) :
    WritesPushed p [method] insts (p.argumentBytes decl + wordSize)
      decl.returnType.stackBytes := by
  have hcall : p.argumentBytes decl + wordSize - p.callDisplacement method =
      decl.returnType.stackBytes := by
    simp only [Program.callDisplacement, hdecl]
    omega
  cases isSuper with
  | true =>
    obtain ⟨label, hlabel, rfl⟩ := henter
    refine .call ?_ (hcall ▸ .nil)
    rcases Program.methodLabel_cases hlabel with ⟨_, rfl⟩ | ⟨_, _, rfl⟩ <;> rfl
  | false =>
    obtain ⟨m, _, rfl⟩ := henter.exists_loadEntry
    have hload : WritesPushed p [] (loadEntry (m.receiverOffset - wordSize) m.entryOffset)
        (p.argumentBytes decl + wordSize) (p.argumentBytes decl + wordSize) :=
      .of_all rfl (Int.sub_self _).symm
    exact hload.append (.call rfl (hcall ▸ .nil))

end WritesPushed

/-! ## Forms of expressions -/

namespace ExprTree

variable {e : ExprTree} {es : List (Unit → ExprTree)} {info : ExprInfo} {bytes : Int}

/-- The code of the expression pushes its value and stores nothing else on the stack. -/
def Writes (p : Program) (l : Layout) (e : ExprTree) : Prop :=
  ∀ ⦃f f' : Frame⦄ ⦃code : Code⦄, (e.code p l).run f = .ok (code, f') →
    WritesPushed p e.callees code.insts 0 e.ty.stackBytes

/-- An operand is pushed above other bytes. -/
theorem Writes.operand (h : Writes p l e) (hcode : (e.code p l).run f = .ok (code, f'))
    (hbytes : 0 ≤ bytes) :
    WritesPushed p e.callees code.insts bytes (e.ty.stackBytes + bytes) := by
  have hpushed := (h hcode).above hbytes
  rwa [Int.zero_add] at hpushed

theorem writesPushed_codeAll (h : ∀ e ∈ es, Writes p l (e ()))
    (hcode : (codeAll p l es).run f = .ok (code, f')) (hbytes : 0 ≤ bytes) :
    WritesPushed p (calleesAll es) code.insts bytes (valueBytes es + bytes) := by
  induction es generalizing f f' code bytes with
  | nil =>
    obtain ⟨rfl, _⟩ := run_pure_eq_ok_iff.1 hcode
    rw [valueBytes_nil, Int.zero_add]
    exact .nil
  | cons e es ih =>
    rw [List.forall_mem_cons] at h
    simp only [codeAll, run_bind_eq_ok_iff, run_pure_eq_ok_iff] at hcode
    obtain ⟨first, f₁, hfirst, rest, _, hrest, rfl, _⟩ := hcode
    have hvalue := (e ()).ty.stackBytes_nonneg
    have htail := ih h.2 hrest (Int.add_nonneg hvalue hbytes)
    rw [← Int.add_assoc, Int.add_comm (valueBytes es), ← valueBytes_cons] at htail
    rw [Code.insts_append]
    exact (h.1.operand hfirst hbytes).append htail

theorem writes_leaf (hleaf : e.isLeaf) (htyped : e.isWordTyped p) : Writes p l e := by
  intro f f' code h
  cases e with
  | broken => cases htyped
  | int =>
    simp only [ExprTree.code, run_bind_eq_ok_iff, run_pure_eq_ok_iff] at h
    obtain ⟨push, _, hpush, rfl, _⟩ := h
    obtain ⟨rfl, _⟩ := pushScalar_run hpush
    rw [ExprTree.ty, Ty.stackBytes_of_isScalar htyped]
    exact .of_all rfl rfl
  | str =>
    simp only [ExprTree.code, run_bind_eq_ok_iff, run_pure_eq_ok_iff] at h
    obtain ⟨push, _, hpush, rfl, _⟩ := h
    obtain ⟨rfl, _⟩ := pushReference_run hpush
    rw [ExprTree.ty, Ty.stackBytes_of_isReference htyped]
    exact .of_all rfl rfl
  | bool info b =>
    rw [ExprTree.ty, Ty.stackBytes_of_isScalar htyped]
    cases b with
    | true =>
      simp only [ExprTree.code, run_bind_eq_ok_iff, run_pure_eq_ok_iff] at h
      obtain ⟨push, _, hpush, rfl, _⟩ := h
      obtain ⟨rfl, _⟩ := pushScalar_run hpush
      exact .of_all rfl rfl
    | false =>
      obtain ⟨rfl, _⟩ := pushScalar_run h
      exact .of_all rfl rfl
  | null | this | super =>
    obtain ⟨rfl, _⟩ := pushReference_run h
    rw [ExprTree.ty, Ty.stackBytes_of_isReference htyped]
    exact .of_all rfl rfl
  | ident info x =>
    simp only [isWordTyped, Ty.readsFrom, Bool.and_eq_true, Bool.not_eq_true'] at htyped
    simp only [ExprTree.code, run_bind_eq_ok_iff, run_pure_eq_ok_iff, pushValue] at h
    obtain ⟨⟨offset, base⟩, _, _, push, _, hpush, rfl, _⟩ := h
    rw [ExprTree.ty, Ty.stackBytes_of_not_isVoid htyped.1]
    split at hpush
    · rename_i hscalar
      obtain ⟨rfl, _⟩ := pushScalar_run hpush
      rw [if_pos hscalar]
      exact .of_all rfl rfl
    · rename_i hscalar
      obtain ⟨rfl, _⟩ := pushReference_run hpush
      rw [if_neg hscalar]
      exact .of_all rfl rfl
  | new info c =>
    obtain ⟨_, _, _, _, _, _, rfl⟩ := new_run h
    rw [ExprTree.ty, Ty.stackBytes_of_isReference htyped]
    exact .of_all rfl rfl
  | _ => simp [isLeaf] at hleaf

theorem writes_not {operand : Unit → ExprTree}
    (htyped : (ExprTree.not info operand).isWordTyped p) (h : Writes p l (operand ())) :
    Writes p l (.not info operand) := by
  intro f f' code hcode
  simp only [isWordTyped, Bool.and_eq_true] at htyped
  obtain ⟨⟨hscalar, hoperand⟩, _⟩ := htyped
  simp only [ExprTree.code, run_bind_eq_ok_iff, run_pure_eq_ok_iff] at hcode
  obtain ⟨value, _, hvalue, rfl, _⟩ := hcode
  have hpushed := h hvalue
  rw [Ty.stackBytes_of_isScalar hoperand] at hpushed
  rw [ExprTree.ty, Ty.stackBytes_of_isScalar hscalar, Code.insts_append]
  exact hpushed.follow (.of_all rfl rfl)

theorem writes_operator {op : BinOp} {lhs rhs : Unit → ExprTree} (hop : ¬ op.isShortCircuit)
    (htyped : (ExprTree.binary info op lhs rhs).isWordTyped p) (hlhs : Writes p l (lhs ()))
    (hrhs : Writes p l (rhs ())) : Writes p l (.binary info op lhs rhs) := by
  intro f f' code hcode
  simp only [isWordTyped, Bool.and_eq_true] at htyped
  obtain ⟨⟨⟨hscalar, htakes⟩, _⟩, _⟩ := htyped
  obtain ⟨left, rest, f₁, hleft, rfl, hrest⟩ := binary_run hcode
  rw [if_neg hop] at hrest
  obtain ⟨right, apply, f₂, hright, happly, rfl⟩ := hrest
  have hboth := (hlhs hleft).append (hrhs.operand hright (lhs ()).ty.stackBytes_nonneg)
  rw [ExprTree.ty, Ty.stackBytes_of_isScalar hscalar, ← List.append_assoc, Code.insts_append,
    Code.insts_append]
  exact hboth.follow (.applyOperator htakes happly)

/-- In order, the right operand is evaluated where the left one was dropped. -/
theorem writes_shortCircuit {op : BinOp} {lhs rhs : Unit → ExprTree} (hop : op.isShortCircuit)
    (htyped : (ExprTree.binary info op lhs rhs).isWordTyped p) (hlhs : Writes p l (lhs ()))
    (hrhs : Writes p l (rhs ())) : Writes p l (.binary info op lhs rhs) := by
  intro f f' code hcode
  simp only [isWordTyped, Bool.and_eq_true] at htyped
  obtain ⟨⟨⟨hscalar, htakes⟩, _⟩, _⟩ := htyped
  obtain ⟨hl, hr⟩ := BinOp.isScalar_of_isShortCircuit hop htakes
  obtain ⟨left, rest, f₁, hleft, rfl, hrest⟩ := binary_run hcode
  rw [if_pos hop] at hrest
  obtain ⟨right, hright, rfl⟩ := hrest
  have hfirst := hlhs hleft
  have hsecond := hrhs hright
  rw [Ty.stackBytes_of_isScalar hl] at hfirst
  rw [Ty.stackBytes_of_isScalar hr] at hsecond
  have htest : WritesPushed p [] (Code.of info.span [.lw .t0 0 .sp] ++ Code.of info.span
      [.branch (if op = .and then .beq else .bne) .t0 .zero (.skip info.id)]
      ++ dropCode info.span (2 * wordSize)).insts (2 * wordSize) 0 := .of_all rfl rfl
  rw [ExprTree.ty, Ty.stackBytes_of_isScalar hscalar, shortCircuitCode, Code.insts_append,
    Code.insts_append, Code.insts_append (Code.of info.span [.lw .t0 0 .sp] ++ _ ++ _)]
  exact hfirst.append (htest.append (hsecond.follow (.of_all rfl rfl)))

theorem writes_arrayLength {array : Unit → ExprTree}
    (htyped : (ExprTree.arrayLength info array).isWordTyped p) (h : Writes p l (array ())) :
    Writes p l (.arrayLength info array) := by
  intro f f' code hcode
  simp only [isWordTyped, Bool.and_eq_true] at htyped
  obtain ⟨⟨hscalar, hreference⟩, _⟩ := htyped
  simp only [ExprTree.code, run_bind_eq_ok_iff, run_pure_eq_ok_iff] at hcode
  obtain ⟨base, f₁, hbase, push, _, hpush, rfl, _⟩ := hcode
  obtain ⟨rfl, _⟩ := tagTop_run hpush
  have hpushed := h hbase
  rw [Ty.stackBytes_of_isReference hreference] at hpushed
  rw [ExprTree.ty, Ty.stackBytes_of_isScalar hscalar, List.append_assoc, Code.insts_append]
  exact hpushed.follow (.of_all rfl rfl)

theorem writes_index {array i : Unit → ExprTree}
    (htyped : (ExprTree.index info array i).isWordTyped p) (harray : Writes p l (array ()))
    (hi : Writes p l (i ())) : Writes p l (.index info array i) := by
  intro f f' code hcode
  simp only [isWordTyped, Bool.and_eq_true, Bool.not_eq_true'] at htyped
  obtain ⟨⟨⟨⟨⟨hvalue, _⟩, hreference⟩, hscalar⟩, _⟩, _⟩ := htyped
  simp only [ExprTree.code, run_bind_eq_ok_iff, run_pure_eq_ok_iff] at hcode
  obtain ⟨base, f₁, hbase, position, f₂, hposition, load, _, hload, rfl, _⟩ := hcode
  have hboth := (harray hbase).append (hi.operand hposition (array ()).ty.stackBytes_nonneg)
  rw [Ty.stackBytes_of_isReference hreference, Ty.stackBytes_of_isScalar hscalar] at hboth
  rw [ExprTree.ty, Code.insts_append, Code.insts_append]
  exact hboth.follow (.loadElement hvalue hload)

theorem writes_field {object : Unit → ExprTree} {x : VarId}
    (htyped : (ExprTree.field info object x).isWordTyped p) (h : Writes p l (object ())) :
    Writes p l (.field info object x) := by
  intro f f' code hcode
  simp only [isWordTyped, Bool.and_eq_true, Ty.readsFrom, Bool.not_eq_true'] at htyped
  obtain ⟨⟨⟨hvalue, _⟩, hreference⟩, _⟩ := htyped
  simp only [ExprTree.code, run_bind_eq_ok_iff, run_pure_eq_ok_iff, run_liftM_eq_ok_iff] at hcode
  obtain ⟨base, f₁, hbase, offset, _, _, load, _, hload, rfl, _⟩ := hcode
  have hpushed := h hbase
  rw [Ty.stackBytes_of_isReference hreference] at hpushed
  rw [ExprTree.ty, Code.insts_append]
  exact hpushed.follow (.loadField hvalue hload)

theorem writes_instanceOf {operand : Unit → ExprTree} {ty : Ty}
    (htyped : (ExprTree.instanceOf info operand ty).isWordTyped p) (h : Writes p l (operand ())) :
    Writes p l (.instanceOf info operand ty) := by
  intro f f' code hcode
  simp only [isWordTyped, Bool.and_eq_true] at htyped
  obtain ⟨⟨hscalar, hreference⟩, _⟩ := htyped
  simp only [ExprTree.code, run_bind_eq_ok_iff, run_pure_eq_ok_iff, run_liftM_eq_ok_iff] at hcode
  obtain ⟨value, f₁, hvalue, range, _, ⟨hrange, rfl⟩, push, _, hpush, rfl, _⟩ := hcode
  obtain ⟨start, stop, rfl⟩ := loadClassRange_eq_ok hrange
  obtain ⟨rfl, _⟩ := tagTop_run hpush
  have hpushed := h hvalue
  rw [Ty.stackBytes_of_isReference hreference] at hpushed
  rw [ExprTree.ty, Ty.stackBytes_of_isScalar hscalar, List.append_assoc, Code.insts_append]
  exact hpushed.follow (.of_all rfl rfl)

theorem writes_cast {operand : Unit → ExprTree} {ty : Ty}
    (htyped : (ExprTree.cast info ty operand).isWordTyped p) (h : Writes p l (operand ())) :
    Writes p l (.cast info ty operand) := by
  intro f f' code hcode
  simp only [isWordTyped, Bool.and_eq_true, beq_iff_eq] at htyped
  simp only [ExprTree.code, run_bind_eq_ok_iff, run_liftM_eq_ok_iff] at hcode
  obtain ⟨value, f₁, hvalue, narrows, _, ⟨_, rfl⟩, hcode⟩ := hcode
  have hpushed := h hvalue
  rw [ExprTree.ty, htyped.1]
  split at hcode
  · obtain ⟨rfl, _⟩ := run_pure_eq_ok_iff.1 hcode
    exact hpushed
  · simp only [run_bind_eq_ok_iff, run_pure_eq_ok_iff, run_liftM_eq_ok_iff] at hcode
    obtain ⟨range, _, ⟨hrange, rfl⟩, rfl, _⟩ := hcode
    obtain ⟨start, stop, rfl⟩ := loadClassRange_eq_ok hrange
    rw [Code.insts_append]
    exact hpushed.follow (.of_all rfl (Int.sub_self _).symm)

theorem writes_newArray {elem : Ty} {size : Unit → ExprTree}
    (htyped : (ExprTree.newArray info elem size).isWordTyped p) (h : Writes p l (size ())) :
    Writes p l (.newArray info elem size) := by
  intro f f' code hcode
  simp only [isWordTyped, Bool.and_eq_true] at htyped
  obtain ⟨⟨hreference, hscalar⟩, _⟩ := htyped
  simp only [ExprTree.code, run_bind_eq_ok_iff, run_pure_eq_ok_iff] at hcode
  obtain ⟨length, f₁, hlength, drop, _, hdrop, _, _, _, record, _, _, rfl, _⟩ := hcode
  obtain ⟨rfl, _⟩ := pop_run hdrop
  have hpushed := h hlength
  rw [Ty.stackBytes_of_isScalar hscalar] at hpushed
  rw [ExprTree.ty, Ty.stackBytes_of_isReference hreference, List.append_assoc, List.append_assoc,
    Code.insts_append]
  exact hpushed.follow (.of_all rfl rfl)

theorem writes_call {receiver : Unit → ExprTree} {method : MethodId}
    {args : List (Unit → ExprTree)}
    (htyped : (ExprTree.call info receiver method args).isWordTyped p)
    (hreceiver : Writes p l (receiver ())) (hargs : ∀ arg ∈ args, Writes p l (arg ())) :
    Writes p l (.call info receiver method args) := by
  intro f f' code hcode
  obtain ⟨decl, target, passed, enter, f₁, f₂, hdecl, _, htarget, hpassed, henter, _, rfl⟩ :=
    ExprTree.call_run hcode
  simp only [isWordTyped, hdecl, Bool.and_eq_true, beq_iff_eq] at htyped
  obtain ⟨⟨⟨⟨hwidth, hreference⟩, hwidths⟩, _⟩, _⟩ := htyped
  have hboth := (hreceiver htarget).append
    (writesPushed_codeAll hargs hpassed (receiver ()).ty.stackBytes_nonneg)
  rw [Ty.stackBytes_of_isReference hreference, valueBytes, hwidths] at hboth
  rw [ExprTree.ty, hwidth, Code.insts_append, Code.insts_append, Code.insts_of]
  exact hboth.append (.enter hdecl henter)

/-- The code of a word-typed expression stores into the stack only what it has pushed itself. -/
theorem writes_of_isWordTyped (htyped : e.isWordTyped p) : Writes p l e := by
  induction htyped using isWordTyped_induct with
  | leaf e htyped hleaf => exact writes_leaf hleaf htyped
  | not _ _ htyped _ ih => exact writes_not htyped ih
  | binary _ op _ _ htyped _ _ ihLeft ihRight =>
    by_cases hop : op.isShortCircuit
    · exact writes_shortCircuit hop htyped ihLeft ihRight
    · exact writes_operator hop htyped ihLeft ihRight
  | arrayLength _ _ htyped _ ih => exact writes_arrayLength htyped ih
  | index _ _ _ htyped _ _ ihArray ihIndex => exact writes_index htyped ihArray ihIndex
  | field _ _ _ htyped _ ih => exact writes_field htyped ih
  | instanceOf _ _ _ htyped _ ih => exact writes_instanceOf htyped ih
  | cast _ _ _ htyped _ ih => exact writes_cast htyped ih
  | newArray _ _ _ htyped _ ih => exact writes_newArray htyped ih
  | call _ _ _ _ htyped _ _ ihReceiver ihArgs => exact writes_call htyped ihReceiver ihArgs

/-! ## Paths -/

/-- All paths through the code of expressions, and through code without jumps behind it, move the
stack pointer alike. -/
theorem pathsAgree_codeAll (htyped : ∀ e ∈ es, (e ()).isWordTyped p) (hnodup : (nodesAll es).Nodup)
    (h : (codeAll p l es).run f = .ok (code, f')) {rest : Code} {d : Int} (hrest : rest.Moves d) :
    PathsAgree p (calleesAll es) (code ++ rest).insts := by
  obtain ⟨t, hrun, rfl⟩ := exists_tracedAll_run h
  rw [← started_tracedAll hrun fun _ _ _ _ _ hrun => started_traced hrun] at hnodup
  obtain ⟨heights, hstarts⟩ := Trace.exists_startsAt hnodup
  have hkeeps : ∀ e ∈ es, KeepsHeight p l 0 heights (e ()) := fun e he => keepsHeight (htyped e he)
  have hbalanced := (KeepsHeight.tracedAll_run hkeeps hrun).2 hstarts
  have hagree := (hbalanced.moves hrest rfl).heightsAgree
  rw [← Trace.code_ofCode rest, ← Trace.code_append]
  exact fun _ _ _ => hagree.unique

/-! ## Assignments -/

/-- The operands that an assignment evaluates before the value. -/
def targetOperands : ExprTree → List (Unit → ExprTree)
  | .field _ object _ => [object]
  | .index _ array i => [array, i]
  | _ => []

/-- Where an assignment stores if the target is a variable on the stack, counted from the stack
pointer before it. -/
def stackPlace? (p : Program) (l : Layout) (f : Frame) : ExprTree → Option Int
  | .ident _ x => (f.stackOffset? p l x).map (f.height + ·)
  | _ => none

end ExprTree

open ExprTree

/-- The stack pointer has moved where the operands are evaluated. -/
theorem ExprTree.stackPlace?_eq {target : ExprTree} {bytes : Int}
    (hf : f₁ = { f with height := f.height + bytes }) :
    target.stackPlace? p l f = (target.stackPlace? p l f₁).map (· - bytes) := by
  subst hf
  cases target with
  | ident info x =>
    have hoffset : Frame.stackOffset? { f with height := f.height + bytes } p l x =
      f.stackOffset? p l x := rfl
    rw [stackPlace?, stackPlace?, hoffset, Option.map_map]
    refine congrArg (Option.map · _) (funext fun offset => ?_)
    simp only [Function.comp_apply]
    omega
  | _ => rfl

/-- A variable is addressed from the stack pointer if it lies on the stack, and else from the
receiver. -/
theorem Gen.varAddress_cases {x : VarId} {address : Int × Reg}
    (h : (varAddress p l x).run f = .ok (address, f')) :
    (f.stackOffset? p l x = none ∧ address.2 = .s2) ∨
      ∃ offset, f.stackOffset? p l x = some offset ∧ address = (f.height + offset, .sp) := by
  by_cases hstack : p.isStackVar x
  · obtain ⟨offset, hoffset, _, haddress⟩ := varAddress_stackVar_run h hstack
    exact Or.inr ⟨offset, hoffset, haddress⟩
  · rw [varAddress, run_bind_eq_ok_iff] at h
    obtain ⟨⟨name, span, ty, kind⟩, _, hfound, h⟩ := h
    obtain ⟨hdecl, rfl⟩ := run_liftM_eq_ok_iff.1 hfound
    rw [Program.isStackVar, hdecl] at hstack
    rw [Frame.stackOffset?, hdecl]
    cases kind with
    | instVar c =>
      simp only [run_bind_eq_ok_iff, run_pure_eq_ok_iff] at h
      obtain ⟨_, _, _, rfl, _⟩ := h
      exact Or.inl ⟨rfl, rfl⟩
    | formal | localVar => exact absurd rfl hstack

/-- The code of an assignment is that of its operands, instructions that store the value, into the
stack or elsewhere, and code that drops the operands. -/
theorem Gen.assignment_run {target value : ExprTree}
    (h : (assignment p l span target value).run f = .ok (code, f')) : ∃ values f₁ store dropped,
      (codeAll p l (target.targetOperands ++ [fun _ => value])).run f = .ok (values, f₁) ∧
      code = values ++ (Code.of span store ++ dropCode span dropped) ∧
      target.callees ++ value.callees =
        calleesAll (target.targetOperands ++ [fun _ => value]) ∧
      (target.stackPlace? p l f₁ = none ∧ (∀ bytes, writesTopAll bytes store) ∧
          (Code.of span store).Moves 0 ∨
        ∃ place, target.stackPlace? p l f₁ = some place ∧
          store = [.lw .t0 0 .sp, .sw .t0 place .sp]) := by
  rw [assignment, run_bind_eq_ok_iff] at h
  obtain ⟨_, _, hkind, h⟩ := h
  obtain ⟨_, rfl⟩ := run_liftM_eq_ok_iff.1 hkind
  cases target with
  | ident target x =>
    simp only [run_bind_eq_ok_iff, run_pure_eq_ok_iff] at h
    obtain ⟨result, f₁, hresult, ⟨offset, base⟩, _, haddress, drop, _, hdrop, rfl, _⟩ := h
    obtain ⟨rfl, _⟩ := pop_run hdrop
    refine ⟨result, f₁, _, _, codeAll_singleton_eq_ok hresult, List.append_assoc _ _ _,
      by simp [callees, calleesAll, targetOperands], ?_⟩
    rw [stackPlace?]
    rcases varAddress_cases haddress with ⟨hnone, rfl⟩ | ⟨place, hsome, haddress⟩
    · rw [hnone]
      exact Or.inl ⟨rfl, fun _ => rfl, Code.moves_of rfl rfl⟩
    · obtain ⟨rfl, rfl⟩ := Prod.mk.inj haddress
      rw [hsome]
      exact Or.inr ⟨_, rfl, rfl⟩
  | field target object x =>
    simp only [run_bind_eq_ok_iff, run_pure_eq_ok_iff] at h
    obtain ⟨base, _, hbase, result, f₁, hresult, offset, _, _, drop, _, hdrop, rfl, _⟩ := h
    obtain ⟨rfl, _⟩ := pop_run hdrop
    exact ⟨base ++ result, f₁, _, _,
      codeAll_cons_eq_ok hbase (codeAll_singleton_eq_ok hresult), List.append_assoc _ _ _,
      by simp [callees, calleesAll, targetOperands],
      Or.inl ⟨rfl, fun _ => rfl, Code.moves_of rfl rfl⟩⟩
  | index target array i =>
    simp only [run_bind_eq_ok_iff, run_pure_eq_ok_iff] at h
    obtain ⟨base, _, hbase, position, _, hposition, result, f₁, hresult, drop, _, hdrop, rfl,
      _⟩ := h
    obtain ⟨rfl, _⟩ := pop_run hdrop
    exact ⟨base ++ (position ++ result), f₁, storeElement value.ty.stackBytes,
      value.ty.stackBytes + 3 * wordSize,
      codeAll_cons_eq_ok hbase (codeAll_cons_eq_ok hposition (codeAll_singleton_eq_ok hresult)),
      by simp only [List.append_assoc], by simp [callees, calleesAll, targetOperands],
      Or.inl ⟨rfl, fun _ => rfl, Code.moves_of rfl rfl⟩⟩
  | _ =>
    simp only [run_bind_eq_ok_iff, run_liftM_eq_ok_iff, defect_ne_ok, false_and, and_false,
      exists_false] at h

/-- The code of a word-typed expression stores into the stack only what it has pushed itself. -/
theorem storesBelow_of_isWordTyped {e : ExprTree} (htyped : e.isWordTyped p)
    (hnodup : e.nodes.Nodup) (h : (e.code p l).run f = .ok (code, f')) :
    StoresBelow p e.callees code.insts := by
  have hes : ∀ e' ∈ [fun (_ : Unit) => e], (e' ()).isWordTyped p := by simpa using htyped
  have hpaths := pathsAgree_codeAll hes (by simpa [nodesAll] using hnodup)
    (codeAll_singleton_eq_ok (e := fun _ => e) h) (Code.moves_dropCode .dummy 0)
  rw [calleesAll, calleesAll, List.append_nil, dropCode, if_pos rfl, List.append_nil] at hpaths
  exact (writes_of_isWordTyped htyped h).storesBelow hpaths

section Assignments

variable {es : List (Unit → ExprTree)} {values : Code} {bytes : Int}

/-- Behind operands, instructions may store elsewhere, and then the operands are dropped. -/
theorem storesBelow_of_codeAll {store : List Inst} (htyped : ∀ e ∈ es, (e ()).isWordTyped p)
    (hnodup : (nodesAll es).Nodup) (h : (codeAll p l es).run f = .ok (values, f'))
    (hstore : ∀ bytes, writesTopAll bytes store) (hmoves : (Code.of span store).Moves 0)
    (dropped : Int) :
    StoresBelow p (calleesAll es)
      (values ++ (Code.of span store ++ dropCode span dropped)).insts := by
  have hpaths := pathsAgree_codeAll htyped hnodup h
    (hmoves.append (Code.moves_dropCode span dropped))
  have hpushed := writesPushed_codeAll (fun e he => writes_of_isWordTyped (htyped e he)) h
    (Int.le_refl 0)
  have hsum := hmoves.sum
  rw [Code.insts_of] at hsum
  have hstored : WritesPushed p [] store (valueBytes es + 0) (valueBytes es + 0) :=
    .of_all (hstore _) (hsum.trans (Int.sub_self _).symm)
  rw [Code.insts_append, Code.insts_append, Code.insts_of] at hpaths ⊢
  exact (hpushed.follow (hstored.follow (.drop p span _ dropped))).storesBelow hpaths

/-- Behind operands, an instruction may store the topmost word into the stack, and then the operands
are dropped. -/
theorem storesBelowBut_of_codeAll {rt : Reg} {offset dropped : Int}
    (htyped : ∀ e ∈ es, (e ()).isWordTyped p) (hnodup : (nodesAll es).Nodup)
    (h : (codeAll p l es).run f = .ok (values, f')) :
    StoresBelowBut (some (offset - valueBytes es)) p (calleesAll es)
      (values ++ (Code.of span [.lw rt 0 .sp, .sw rt offset .sp]
        ++ dropCode span dropped)).insts := by
  have hmoves : (Code.of span [.lw rt 0 .sp, .sw rt offset .sp]).Moves 0 := Code.moves_of rfl rfl
  have hpaths := pathsAgree_codeAll htyped hnodup h
    (hmoves.append (Code.moves_dropCode span dropped))
  have hpushed := writesPushed_codeAll (fun e he => writes_of_isWordTyped (htyped e he)) h
    (Int.le_refl 0)
  rw [Int.add_zero] at hpushed
  rw [Code.insts_append, Code.insts_append, Code.insts_of] at hpaths ⊢
  refine hpushed.storesBelowBut (WritesPushed.drop p span 0 dropped).fallsThrough ?_ hpaths
  intro rt offset hstore
  rw [dropCode] at hstore
  split at hstore
  · cases hstore
  · simp at hstore

/-- An assignment stores into the stack what the code of its operands has pushed, and a variable
that lies there. -/
theorem storesBelow_of_assignment {info : StmtInfo} {target value : ExprTree}
    (htarget : isWordTypedAll p target.targetOperands) (hvalue : value.isWordTyped p)
    (hnodup : (nodesAll target.targetOperands ++ value.nodes).Nodup)
    (h : ((StmtTree.assign info target value).code p l).run f = .ok (code, f')) :
    StoresBelowBut (target.stackPlace? p l f) p (StmtTree.assign info target value).callees
      code.insts := by
  have htyped : ∀ e ∈ target.targetOperands ++ [fun _ => value], (e ()).isWordTyped p :=
    List.forall_mem_append.2 ⟨isWordTypedAll_iff.1 htarget, by simpa using hvalue⟩
  have hnodes : (nodesAll (target.targetOperands ++ [fun _ => value])).Nodup := by
    rwa [nodesAll_append, nodesAll, nodesAll, List.append_nil]
  obtain ⟨values, f₁, store, dropped, hvalues, rfl, hcallees, hstore⟩ := assignment_run h
  rw [StmtTree.callees, hcallees, stackPlace?_eq (frame_of_codeAll htyped hvalues)]
  rcases hstore with ⟨hnone, hstore, hmoves⟩ | ⟨place, hplace, rfl⟩
  · rw [hnone]
    exact storesBelow_of_codeAll htyped hnodes hvalues hstore hmoves dropped
  · rw [hplace]
    exact storesBelowBut_of_codeAll htyped hnodes hvalues

end Assignments

end MipsBackend
