import MipsBackend.Proofs.Assembly.Operands
import MipsBackend.Proofs.Code.Bodies

/-!
# What generated code refers to

The code of a body refers to labels that it defines itself, to routines of the runtime library and
to labels that other parts of the program define: string literals, class records and methods
(`Links`).  A loop is left towards a label that the frame knows (`Frame.LeavesTo`).  The same walk
over the code shows that no instruction writes `$s5`.
-/

namespace MipsBackend

open Gen

namespace ExprTree

mutual

/-- The string literals in an expression. -/
def literals : ExprTree → List ExprId
  | .str info _ => [info.id]
  | .not _ operand | .instanceOf _ operand _ | .cast _ _ operand => (operand ()).literals
  | .arrayLength _ array => (array ()).literals
  | .field _ object _ => (object ()).literals
  | .newArray _ _ size => (size ()).literals
  | .binary _ _ lhs rhs => (lhs ()).literals ++ (rhs ()).literals
  | .index _ array i => (array ()).literals ++ (i ()).literals
  | .call _ receiver _ args => (receiver ()).literals ++ literalsAll args
  | _ => []

/-- The string literals in some expressions. -/
def literalsAll : List (Unit → ExprTree) → List ExprId
  | [] => []
  | e :: es => (e ()).literals ++ literalsAll es

end

end ExprTree

namespace StmtTree

mutual

/-- The string literals in a statement. -/
def literals : StmtTree → List ExprId
  | .broken _ _ | .breakFrom _ _ => []
  | .block _ stmts => literalsAll stmts
  | .localVar _ _ init => init.literals
  | .call _ expr => expr.literals
  | .assign _ target value => target.literals ++ value.literals
  | .ifThen _ cond thenStmt => cond.literals ++ (thenStmt ()).literals
  | .ifElse _ cond thenStmt elseStmt =>
    cond.literals ++ (thenStmt ()).literals ++ (elseStmt ()).literals
  | .whileLoop _ cond body => (body ()).literals ++ cond.literals

/-- The string literals in some statements. -/
def literalsAll : List (Unit → StmtTree) → List ExprId
  | [] => []
  | s :: ss => (s ()).literals ++ literalsAll ss

end

end StmtTree

/-- The labels of other parts of the program are known that code with the given string literals and
called methods may refer to. -/
structure Links (p : Program) (known : Label → Prop) (literals : List ExprId)
    (callees : List MethodId) : Prop where
  routine (r : Routine) : known (.runtime r)
  record {ty : Ty} {name : String} : p.recordName ty = .ok name →
    known (.classStart name) ∧ known (.classEnd name)
  literal : ∀ e ∈ literals, known (.strLit e)
  method : ∀ m ∈ callees, ∀ label, p.methodLabel m = .ok label → known label

/-- All loops that the frame knows can be left. -/
def Frame.LeavesTo (f : Frame) (known : Label → Prop) : Prop :=
  ∀ loop h, f.loopExits.lookup loop = some h → known (.breakTarget loop)

theorem Frame.LeavesTo.of_eq {f f' : Frame} {known : Label → Prop} (h : f.LeavesTo known)
    (hexits : f'.loopExits = f.loopExits) : f'.LeavesTo known := by
  rw [Frame.LeavesTo, hexits]
  exact h

theorem Frame.LeavesTo.enterLoop {f : Frame} {known : Label → Prop} {loop : StmtId}
    (h : f.LeavesTo known) (hloop : known (.breakTarget loop)) :
    (f.enterLoop loop).LeavesTo known := by
  intro other height hother
  rw [Frame.enterLoop, List.lookup_cons] at hother
  split at hother
  · rename_i same
    exact eq_of_beq same ▸ hloop
  · exact h other height hother

variable {p : Program} {l : Layout} {known : Label → Prop} {literals literals' : List ExprId}
  {callees callees' : List MethodId} {span : Span} {code : Code} {f f' : Frame}

theorem Links.mono (h : Links p known literals callees) (hliterals : literals' ⊆ literals)
    (hcallees : callees' ⊆ callees) : Links p known literals' callees' where
  routine := h.routine
  record := h.record
  literal e mem := h.literal e (hliterals mem)
  method m mem := h.method m (hcallees mem)

theorem Links.left (h : Links p known (literals ++ literals') (callees ++ callees')) :
    Links p known literals callees :=
  h.mono (List.subset_append_left _ _) (List.subset_append_left _ _)

theorem Links.right (h : Links p known (literals ++ literals') (callees ++ callees')) :
    Links p known literals' callees' :=
  h.mono (List.subset_append_right _ _) (List.subset_append_right _ _)

/-! ## Loops of the frame

Only statements enter loops.  An expression leaves the table of loops as it found it, whether it is
typed or not. -/

namespace Gen

/-- The generator enters no loop. -/
def KeepsLoops {α : Type} (gen : Gen α) : Prop :=
  ∀ f a f', gen.run f = .ok (a, f') → f'.loopExits = f.loopExits

namespace KeepsLoops

variable {α β : Type} {gen : Gen α} {next : α → Gen β}

theorem bind (h : gen.KeepsLoops) (hnext : ∀ a, (next a).KeepsLoops) :
    KeepsLoops (gen >>= next) := by
  intro f b f' hrun
  obtain ⟨a, f₁, hgen, hrest⟩ := run_bind_eq_ok_iff.1 hrun
  exact (hnext a _ _ _ hrest).trans (h _ _ _ hgen)

theorem pure (a : α) : KeepsLoops (Pure.pure a) := by
  intro f _ f' hrun
  rw [(run_pure_eq_ok_iff.1 hrun).2]

theorem lift (op : Except Fault α) : KeepsLoops (liftM op) := by
  intro f _ f' hrun
  rw [(run_liftM_eq_ok_iff.1 hrun).2]

theorem pushed (bytes : Int) : (pushed bytes).KeepsLoops := by
  intro f _ f' hrun
  rw [pushed_run hrun]

theorem popped (bytes : Int) : (popped bytes).KeepsLoops := by
  intro f _ f' hrun
  rw [(popped_run hrun).2]

theorem pop (span : Span) (bytes : Int) : (pop span bytes).KeepsLoops := by
  intro f _ f' hrun
  rw [(pop_run hrun).2]

theorem pushScalar (span : Span) (reg : Reg) : (pushScalar span reg).KeepsLoops :=
  (pushed _).bind fun _ => .pure _

theorem pushReference (span : Span) (reg : Reg) : (pushReference span reg).KeepsLoops :=
  (pushed _).bind fun _ => .pure _

theorem tagTop (span : Span) : (tagTop span).KeepsLoops :=
  (pushed _).bind fun _ => .pure _

theorem pushValue (span : Span) (ty : Ty) (reg : Reg) : (pushValue span ty reg).KeepsLoops := by
  rw [Gen.pushValue]
  split
  · exact pushScalar span reg
  · exact pushReference span reg

theorem varAddress (p : Program) (l : Layout) (var : VarId) : (varAddress p l var).KeepsLoops := by
  intro f _ f' hrun
  rw [varAddress_run hrun]

theorem applyOperator (span : Span) (op : BinOp) (onReferences : Bool) :
    (applyOperator span op onReferences).KeepsLoops := by
  cases op
  case div | rem => exact (popped _).bind fun _ => .pure _
  all_goals
    simp only [Gen.applyOperator]
    split
    · exact .pure _
    · exact (pop span _).bind fun _ => .pure _

theorem loadElement (span : Span) (ty : Ty) : (loadElement span ty).KeepsLoops := by
  rw [Gen.loadElement]
  split
  all_goals exact (pop span _).bind fun _ => .pure _

theorem loadField (span : Span) (ty : Ty) (offset : Int) :
    (loadField span ty offset).KeepsLoops := by
  rw [Gen.loadField]
  split
  · exact (tagTop span).bind fun _ => .pure _
  · exact .pure _

end KeepsLoops

end Gen

namespace ExprTree

theorem keepsLoops_codeAll {es : List (Unit → ExprTree)}
    (h : ∀ e ∈ es, ((e ()).code p l).KeepsLoops) : (codeAll p l es).KeepsLoops := by
  induction es with
  | nil => exact .pure _
  | cons e es ih =>
    rw [List.forall_mem_cons] at h
    exact h.1.bind fun _ => (ih h.2).bind fun _ => .pure _

/-- The code of an expression enters no loop. -/
theorem keepsLoops_code (e : ExprTree) : (e.code p l).KeepsLoops := by
  induction e with
  | broken id fault =>
    intro _ _ _ hrun
    exact absurd hrun run_throw_ne_ok
  | int info value => exact (KeepsLoops.pushScalar _ _).bind fun _ => .pure _
  | bool info value =>
    cases value with
    | true => exact (KeepsLoops.pushScalar _ _).bind fun _ => .pure _
    | false => exact .pushScalar _ _
  | str info value => exact (KeepsLoops.pushReference _ _).bind fun _ => .pure _
  | null info | this info | super info => exact .pushReference _ _
  | ident info var =>
    exact (KeepsLoops.varAddress p l var).bind fun _ =>
      (KeepsLoops.pushValue _ _ _).bind fun _ => .pure _
  | new info c =>
    exact (KeepsLoops.lift _).bind fun _ => (KeepsLoops.lift _).bind fun _ =>
      (KeepsLoops.pushed _).bind fun _ => (KeepsLoops.lift _).bind fun _ => .pure _
  | not info operand ih => exact ih.bind fun _ => .pure _
  | binary info op lhs rhs ihLeft ihRight =>
    refine ihLeft.bind fun _ => ?_
    split
    · exact (KeepsLoops.pop _ _).bind fun _ => ihRight.bind fun _ => .pure _
    · exact ihRight.bind fun _ => (KeepsLoops.applyOperator _ _ _).bind fun _ => .pure _
  | arrayLength info array ih => exact ih.bind fun _ => (KeepsLoops.tagTop _).bind fun _ => .pure _
  | index info array i ihArray ihIndex =>
    exact ihArray.bind fun _ => ihIndex.bind fun _ =>
      (KeepsLoops.loadElement _ _).bind fun _ => .pure _
  | field info object var ih =>
    exact ih.bind fun _ => (KeepsLoops.lift _).bind fun _ =>
      (KeepsLoops.loadField _ _ _).bind fun _ => .pure _
  | instanceOf info operand ty ih =>
    exact ih.bind fun _ => (KeepsLoops.lift _).bind fun _ =>
      (KeepsLoops.tagTop _).bind fun _ => .pure _
  | cast info ty operand ih =>
    refine ih.bind fun _ => (KeepsLoops.lift _).bind fun _ => ?_
    split
    · exact .pure _
    · exact (KeepsLoops.lift _).bind fun _ => .pure _
  | newArray info elem size ih =>
    exact ih.bind fun _ => (KeepsLoops.pop _ _).bind fun _ => (KeepsLoops.pushed _).bind fun _ =>
      (KeepsLoops.lift _).bind fun _ => .pure _
  | call info receiver method args ihReceiver ihArgs =>
    intro _ _ _ hrun
    obtain ⟨_, _, _, _, _, _, _, _, htarget, hpassed, _, rfl, _⟩ := call_run hrun
    exact (keepsLoops_codeAll ihArgs _ _ _ hpassed).trans (ihReceiver _ _ _ htarget)

end ExprTree

/-! ## Steps -/

namespace Gen

@[simp] theorem refersTo_dropCode (bytes : Int) : (dropCode span bytes).RefersTo known := by
  unfold dropCode
  split <;> simp [Inst.operand?, Inst.written?]

theorem refersTo_pushScalar {reg : Reg} (h : (pushScalar span reg).run f = .ok (code, f')) :
    code.RefersTo known := by
  obtain ⟨rfl, _⟩ := pushScalar_run h
  simp [Inst.operand?, Inst.written?]

theorem refersTo_pushReference {reg : Reg}
    (h : (pushReference span reg).run f = .ok (code, f')) : code.RefersTo known := by
  obtain ⟨rfl, _⟩ := pushReference_run h
  simp [Inst.operand?, Inst.written?]

theorem refersTo_pushValue {ty : Ty} {reg : Reg}
    (h : (pushValue span ty reg).run f = .ok (code, f')) : code.RefersTo known := by
  rw [pushValue] at h
  split at h
  · exact refersTo_pushScalar h
  · exact refersTo_pushReference h

theorem refersTo_tagTop (h : (tagTop span).run f = .ok (code, f')) : code.RefersTo known := by
  obtain ⟨rfl, _⟩ := tagTop_run h
  simp [Inst.operand?, Inst.written?]

theorem refersTo_pop {bytes : Int} (h : (pop span bytes).run f = .ok (code, f')) :
    code.RefersTo known := by
  obtain ⟨rfl, _⟩ := pop_run h
  exact refersTo_dropCode bytes

section Links

variable (links : Links p known literals callees)
include links

theorem refersTo_applyOperator {op : BinOp} {onReferences : Bool}
    (h : (applyOperator span op onReferences).run f = .ok (code, f')) : code.RefersTo known := by
  cases op
  case div | rem =>
    obtain ⟨rfl, _⟩ := callDivision_run h
    simp [Inst.operand?, Inst.written?, Inst.callRoutine, links.routine]
  all_goals
    simp only [applyOperator] at h
    split at h
    · obtain ⟨rfl, _⟩ := run_pure_eq_ok_iff.1 h
      simp [combine, Inst.operand?, Inst.written?]
    · simp only [run_bind_eq_ok_iff, run_pure_eq_ok_iff] at h
      obtain ⟨drop, _, hdrop, rfl, _⟩ := h
      simp [refersTo_pop hdrop, combine, Inst.operand?, Inst.written?]

theorem refersTo_loadElement {ty : Ty} (h : (loadElement span ty).run f = .ok (code, f')) :
    code.RefersTo known := by
  rw [loadElement] at h
  split at h
  all_goals
    simp only [run_bind_eq_ok_iff, run_pure_eq_ok_iff] at h
    obtain ⟨drop, _, hdrop, rfl, _⟩ := h
    simp [refersTo_pop hdrop, Inst.operand?, Inst.written?, Inst.nullCheck, Inst.boundsCheck,
      Inst.elementAddress, links.routine]

theorem refersTo_loadField {ty : Ty} {offset : Int}
    (h : (loadField span ty offset).run f = .ok (code, f')) : code.RefersTo known := by
  rw [loadField] at h
  split at h
  · simp only [run_bind_eq_ok_iff, run_pure_eq_ok_iff] at h
    obtain ⟨tag, _, htag, rfl, _⟩ := h
    simp [refersTo_tagTop htag, Inst.operand?, Inst.written?, Inst.nullCheck, links.routine]
  · obtain ⟨rfl, _⟩ := run_pure_eq_ok_iff.1 h
    simp [Inst.operand?, Inst.written?, Inst.nullCheck, links.routine]

theorem refersTo_loadClassRange {ty : Ty} {range : List Inst}
    (h : loadClassRange p ty = .ok range) : (Code.of span range).RefersTo known := by
  simp only [loadClassRange, Program.classRange, bind_eq_ok_iff, pure_eq_ok_iff] at h
  obtain ⟨_, ⟨name, hname, rfl⟩, rfl⟩ := h
  obtain ⟨start, stop⟩ := links.record hname
  simp [Inst.operand?, Inst.written?, start, stop]

theorem refersTo_storeClassRecord {ty : Ty} {record : String}
    (h : p.recordName ty = .ok record) :
    (Code.of span (storeClassRecord record)).RefersTo known := by
  simp [storeClassRecord, Inst.operand?, Inst.written?, (links.record h).1]

theorem refersTo_enter {isSuper : Bool} {method : MethodId} {enter : List Inst}
    (h : Enters p l isSuper method enter) (called : method ∈ callees) :
    (Code.of span enter).RefersTo known := by
  cases isSuper with
  | true =>
    obtain ⟨label, hlabel, rfl⟩ := h
    simp [Inst.operand?, Inst.written?, links.method method called label hlabel]
  | false =>
    obtain ⟨_, _, rfl⟩ := h.exists_loadEntry
    simp [loadEntry, Inst.operand?, Inst.written?, Inst.nullCheck, links.routine]

end Links

end Gen

namespace ExprTree

theorem refersTo_codeAll {es : List (Unit → ExprTree)}
    (h : (codeAll p l es).run f = .ok (code, f'))
    (heach : ∀ e ∈ es, ∀ {code f f'}, ((e ()).code p l).run f = .ok (code, f') →
      Links p known (e ()).literals (e ()).callees → (∀ label ∈ code.labels, known label) →
      code.RefersTo known)
    (links : Links p known (literalsAll es) (calleesAll es))
    (defined : ∀ label ∈ code.labels, known label) : code.RefersTo known := by
  induction es generalizing code f f' with
  | nil =>
    obtain ⟨rfl, _⟩ := run_pure_eq_ok_iff.1 h
    exact Code.refersTo_nil
  | cons e es ih =>
    rw [List.forall_mem_cons] at heach
    simp only [codeAll, run_bind_eq_ok_iff, run_pure_eq_ok_iff] at h
    obtain ⟨value, _, hvalue, rest, _, hrest, rfl, _⟩ := h
    rw [Code.labels_append, List.forall_mem_append] at defined
    exact Code.refersTo_append.2 ⟨heach.1 hvalue links.left defined.1,
      ih hrest heach.2 links.right defined.2⟩

/-- The code of an expression refers to its own labels and to those it links to. -/
theorem refersTo_code {e : ExprTree} (h : (e.code p l).run f = .ok (code, f'))
    (links : Links p known e.literals e.callees) (defined : ∀ label ∈ code.labels, known label) :
    code.RefersTo known := by
  induction e generalizing code f f' with
  | broken id fault => exact absurd h run_throw_ne_ok
  | int info value =>
    simp only [ExprTree.code, run_bind_eq_ok_iff, run_pure_eq_ok_iff] at h
    obtain ⟨push, _, hpush, rfl, _⟩ := h
    simp [refersTo_pushScalar hpush, Inst.operand?, Inst.written?]
  | bool info value =>
    cases value with
    | true =>
      simp only [ExprTree.code, run_bind_eq_ok_iff, run_pure_eq_ok_iff] at h
      obtain ⟨push, _, hpush, rfl, _⟩ := h
      simp [refersTo_pushScalar hpush, Inst.operand?, Inst.written?]
    | false => exact refersTo_pushScalar h
  | str info value =>
    simp only [ExprTree.code, run_bind_eq_ok_iff, run_pure_eq_ok_iff] at h
    obtain ⟨push, _, hpush, rfl, _⟩ := h
    have hliteral := links.literal info.id List.mem_cons_self
    simp [refersTo_pushReference hpush, Inst.operand?, Inst.written?, hliteral]
  | null info | this info | super info => exact refersTo_pushReference h
  | ident info var =>
    simp only [ExprTree.code, run_bind_eq_ok_iff, run_pure_eq_ok_iff] at h
    obtain ⟨_, _, _, push, _, hpush, rfl, _⟩ := h
    simp [refersTo_pushValue hpush, Inst.operand?, Inst.written?]
  | new info c =>
    obtain ⟨_, record, _, _, hrecord, _, rfl⟩ := new_run h
    have hstore : (Code.of info.span (storeClassRecord record)).RefersTo known :=
      refersTo_storeClassRecord links hrecord
    rw [Code.of_append, Code.refersTo_append]
    refine ⟨?_, hstore⟩
    simp [Inst.operand?, Inst.written?, Inst.callRoutine, links.routine]
  | not info operand ih =>
    simp only [ExprTree.code, run_bind_eq_ok_iff, run_pure_eq_ok_iff] at h
    obtain ⟨value, _, hvalue, rfl, _⟩ := h
    rw [Code.labels_append, List.forall_mem_append] at defined
    simp [ih hvalue links defined.1, Inst.operand?, Inst.written?]
  | binary info op lhs rhs ihLeft ihRight =>
    simp only [ExprTree.code, run_bind_eq_ok_iff] at h
    obtain ⟨left, _, hleft, h⟩ := h
    split at h
    · simp only [run_bind_eq_ok_iff, run_pure_eq_ok_iff] at h
      obtain ⟨drop, _, hdrop, right, _, hright, rfl, _⟩ := h
      simp only [Code.labels_append, List.forall_mem_append] at defined
      obtain ⟨⟨⟨⟨definedLeft, _⟩, _⟩, definedRight⟩, hend⟩ := defined
      have hskip : known (.skip info.id) := hend _ (by simp [Inst.definedLabel])
      simp [ihLeft hleft links.left definedLeft, ihRight hright links.right definedRight,
        refersTo_pop hdrop, Inst.operand?, Inst.written?, hskip]
    · simp only [run_bind_eq_ok_iff, run_pure_eq_ok_iff] at h
      obtain ⟨right, _, hright, apply, _, happly, rfl, _⟩ := h
      simp only [Code.labels_append, List.forall_mem_append] at defined
      simp [ihLeft hleft links.left defined.1.1, ihRight hright links.right defined.1.2,
        refersTo_applyOperator links happly]
  | arrayLength info array ih =>
    simp only [ExprTree.code, run_bind_eq_ok_iff, run_pure_eq_ok_iff] at h
    obtain ⟨base, _, hbase, tag, _, htag, rfl, _⟩ := h
    simp only [Code.labels_append, List.forall_mem_append] at defined
    simp [ih hbase links defined.1.1, refersTo_tagTop htag, Inst.operand?, Inst.written?,
      Inst.nullCheck, links.routine]
  | index info array i ihArray ihIndex =>
    simp only [ExprTree.code, run_bind_eq_ok_iff, run_pure_eq_ok_iff] at h
    obtain ⟨base, _, hbase, position, _, hposition, load, _, hload, rfl, _⟩ := h
    simp only [Code.labels_append, List.forall_mem_append] at defined
    simp [ihArray hbase links.left defined.1.1, ihIndex hposition links.right defined.1.2,
      refersTo_loadElement links hload]
  | field info object var ih =>
    simp only [ExprTree.code, run_bind_eq_ok_iff, run_pure_eq_ok_iff] at h
    obtain ⟨base, _, hbase, _, _, _, load, _, hload, rfl, _⟩ := h
    simp only [Code.labels_append, List.forall_mem_append] at defined
    simp [ih hbase links defined.1, refersTo_loadField links hload]
  | instanceOf info operand ty ih =>
    simp only [ExprTree.code, run_bind_eq_ok_iff, run_liftM_eq_ok_iff, run_pure_eq_ok_iff] at h
    obtain ⟨value, _, hvalue, range, _, ⟨hrange, rfl⟩, tag, _, htag, rfl, _⟩ := h
    simp only [Code.labels_append, List.forall_mem_append] at defined
    have hload : (Code.of info.span range).RefersTo known :=
      refersTo_loadClassRange links hrange
    rw [Code.of_append]
    simp only [Code.refersTo_append]
    refine ⟨⟨ih hvalue links defined.1.1, hload, ?_⟩, refersTo_tagTop htag⟩
    simp [Inst.operand?, Inst.written?, Inst.callRoutine, links.routine]
  | cast info ty operand ih =>
    simp only [ExprTree.code, run_bind_eq_ok_iff] at h
    obtain ⟨value, _, hvalue, _, _, _, h⟩ := h
    split at h
    · obtain ⟨rfl, _⟩ := run_pure_eq_ok_iff.1 h
      exact ih hvalue links defined
    · simp only [run_bind_eq_ok_iff, run_liftM_eq_ok_iff, run_pure_eq_ok_iff] at h
      obtain ⟨range, _, ⟨hrange, _⟩, rfl, _⟩ := h
      rw [Code.labels_append, List.forall_mem_append] at defined
      have hload : (Code.of info.span range).RefersTo known :=
        refersTo_loadClassRange links hrange
      rw [Code.of_append]
      simp only [Code.refersTo_append]
      refine ⟨ih hvalue links defined.1, hload, ?_⟩
      simp [Inst.operand?, Inst.written?, Inst.callRoutine, links.routine]
  | newArray info elem size ih =>
    simp only [ExprTree.code, run_bind_eq_ok_iff, run_liftM_eq_ok_iff, run_pure_eq_ok_iff] at h
    obtain ⟨length, _, hlength, drop, _, hdrop, _, _, _, record, _, ⟨hrecord, _⟩, rfl, _⟩ := h
    simp only [Code.labels_append, List.forall_mem_append] at defined
    have hstore : (Code.of info.span (storeClassRecord record)).RefersTo known :=
      refersTo_storeClassRecord links hrecord
    rw [Code.of_append]
    simp only [Code.refersTo_append]
    refine ⟨⟨⟨ih hlength links defined.1.1.1, ?_⟩, refersTo_pop hdrop⟩, ?_, hstore⟩
    · simp [Inst.operand?, Inst.written?]
    · simp [Inst.operand?, Inst.written?, Inst.callRoutine, links.routine]
  | call info receiver method args ihReceiver ihArgs =>
    obtain ⟨_, target, passed, enter, _, _, _, _, htarget, hpassed, henter, _, rfl⟩ := call_run h
    simp only [Code.labels_append, List.forall_mem_append] at defined
    have linksReceiver : Links p known (receiver ()).literals (receiver ()).callees :=
      links.mono (List.subset_append_left _ _)
        (List.Subset.trans (List.subset_append_left _ _) (List.subset_append_left _ _))
    have linksArgs : Links p known (literalsAll args) (calleesAll args) :=
      links.mono (List.subset_append_right _ _)
        (List.Subset.trans (List.subset_append_right _ _) (List.subset_append_left _ _))
    have called : method ∈ (ExprTree.call info receiver method args).callees := by simp [callees]
    simp only [Code.refersTo_append]
    exact ⟨⟨ihReceiver htarget linksReceiver defined.1.1,
      refersTo_codeAll hpassed (fun e he _ _ _ h => ihArgs e he h) linksArgs defined.1.2⟩,
      refersTo_enter links henter called⟩

end ExprTree

/-! ## Statements -/

namespace Gen

theorem refersTo_inScope {body : Gen Code} (h : (inScope span body).run f = .ok (code, f'))
    (hbody : ∀ {code f'}, body.run f = .ok (code, f') → (∀ label ∈ code.labels, known label) →
      code.RefersTo known ∧ f'.LeavesTo known)
    (defined : ∀ label ∈ code.labels, known label) : code.RefersTo known ∧ f'.LeavesTo known := by
  obtain ⟨inner, f₁, hinner, rfl, rfl⟩ := inScope_run h
  rw [Code.labels_append, List.forall_mem_append] at defined
  obtain ⟨hrefers, hexits⟩ := hbody hinner defined.1
  exact ⟨Code.refersTo_append.2 ⟨hrefers, refersTo_dropCode _⟩, hexits⟩

theorem refersTo_condition {cond : ExprTree} (h : (condition p l span cond).run f = .ok (code, f'))
    (links : Links p known cond.literals cond.callees)
    (defined : ∀ label ∈ code.labels, known label) (exits : f.LeavesTo known) :
    code.RefersTo known ∧ f'.LeavesTo known := by
  obtain ⟨value, f₁, hvalue, rfl, rfl⟩ := condition_run h
  simp only [Code.labels_append, List.forall_mem_append] at defined
  have hkept : f₁.LeavesTo known := exits.of_eq (ExprTree.keepsLoops_code cond _ _ _ hvalue)
  refine ⟨?_, hkept⟩
  simp [ExprTree.refersTo_code hvalue links defined.1.1, Inst.operand?, Inst.written?]

/-- An assignment refers to what its target and its value refer to. -/
theorem refersTo_assignment {target value : ExprTree}
    (h : (assignment p l span target value).run f = .ok (code, f'))
    (links : Links p known (target.literals ++ value.literals) (target.callees ++ value.callees))
    (defined : ∀ label ∈ code.labels, known label) : code.RefersTo known := by
  rw [assignment, run_bind_eq_ok_iff] at h
  obtain ⟨_, _, _, h⟩ := h
  cases target with
  | ident info var =>
    simp only [run_bind_eq_ok_iff, run_pure_eq_ok_iff] at h
    obtain ⟨result, _, hresult, _, _, _, drop, _, hdrop, rfl, _⟩ := h
    simp only [Code.labels_append, List.forall_mem_append] at defined
    simp [ExprTree.refersTo_code hresult links.right defined.1.1, refersTo_pop hdrop,
      Inst.operand?, Inst.written?]
  | field info object var =>
    simp only [run_bind_eq_ok_iff, run_pure_eq_ok_iff] at h
    obtain ⟨base, _, hbase, result, _, hresult, _, _, _, drop, _, hdrop, rfl, _⟩ := h
    simp only [Code.labels_append, List.forall_mem_append] at defined
    obtain ⟨⟨⟨definedBase, definedResult⟩, _⟩, _⟩ := defined
    simp [ExprTree.refersTo_code hbase links.left definedBase,
      ExprTree.refersTo_code hresult links.right definedResult, refersTo_pop hdrop,
      Inst.operand?, Inst.written?, Inst.nullCheck, links.routine]
  | index info array i =>
    simp only [run_bind_eq_ok_iff, run_pure_eq_ok_iff] at h
    obtain ⟨base, _, hbase, position, _, hposition, result, _, hresult, drop, _, hdrop, rfl, _⟩ := h
    simp only [Code.labels_append, List.forall_mem_append] at defined
    obtain ⟨⟨⟨⟨definedBase, definedPosition⟩, definedResult⟩, _⟩, _⟩ := defined
    simp [ExprTree.refersTo_code hbase links.left.left definedBase,
      ExprTree.refersTo_code hposition links.left.right definedPosition,
      ExprTree.refersTo_code hresult links.right definedResult, refersTo_pop hdrop,
      Inst.operand?, Inst.written?, storeElement, Inst.nullCheck, Inst.boundsCheck,
      Inst.elementAddress, links.routine]
  | _ =>
    simp only [run_bind_eq_ok_iff, run_liftM_eq_ok_iff, defect_ne_ok, false_and, and_false,
      exists_false] at h

/-- Assigning enters no loop. -/
theorem keepsLoops_assignment (target value : ExprTree) :
    (assignment p l span target value).KeepsLoops := by
  refine (KeepsLoops.lift _).bind fun _ => ?_
  cases target with
  | ident info var =>
    exact value.keepsLoops_code.bind fun _ => (KeepsLoops.varAddress p l var).bind fun _ =>
      (KeepsLoops.pop _ _).bind fun _ => .pure _
  | field info object var =>
    exact (object ()).keepsLoops_code.bind fun _ => value.keepsLoops_code.bind fun _ =>
      (KeepsLoops.lift _).bind fun _ => (KeepsLoops.pop _ _).bind fun _ => .pure _
  | index info array i =>
    exact (array ()).keepsLoops_code.bind fun _ => (i ()).keepsLoops_code.bind fun _ =>
      value.keepsLoops_code.bind fun _ => (KeepsLoops.pop _ _).bind fun _ => .pure _
  | _ =>
    intro _ _ _ hrun
    simp only [run_bind_eq_ok_iff, run_liftM_eq_ok_iff, defect_ne_ok, false_and, and_false,
      exists_false] at hrun

end Gen

namespace StmtTree

theorem refersTo_codeAll {ss : List (Unit → StmtTree)}
    (h : (codeAll p l ss).run f = .ok (code, f'))
    (heach : ∀ s ∈ ss, ∀ {code f f'}, ((s ()).code p l).run f = .ok (code, f') →
      Links p known (s ()).literals (s ()).callees → (∀ label ∈ code.labels, known label) →
      f.LeavesTo known → code.RefersTo known ∧ f'.LeavesTo known)
    (links : Links p known (literalsAll ss) (calleesAll ss))
    (defined : ∀ label ∈ code.labels, known label) (exits : f.LeavesTo known) :
    code.RefersTo known ∧ f'.LeavesTo known := by
  induction ss generalizing code f f' with
  | nil =>
    obtain ⟨rfl, rfl⟩ := run_pure_eq_ok_iff.1 h
    exact ⟨Code.refersTo_nil, exits⟩
  | cons s ss ih =>
    rw [List.forall_mem_cons] at heach
    simp only [codeAll, run_bind_eq_ok_iff, run_pure_eq_ok_iff] at h
    obtain ⟨first, _, hfirst, rest, _, hrest, rfl, rfl⟩ := h
    rw [Code.labels_append, List.forall_mem_append] at defined
    obtain ⟨hrefers, exits⟩ := heach.1 hfirst links.left defined.1 exits
    obtain ⟨hrefersRest, exits⟩ := ih hrest heach.2 links.right defined.2 exits
    exact ⟨Code.refersTo_append.2 ⟨hrefers, hrefersRest⟩, exits⟩

/-- The code of a statement refers to its own labels, to those it links to and to the ends of the
loops around it. -/
theorem refersTo_code {s : StmtTree} (h : (s.code p l).run f = .ok (code, f'))
    (links : Links p known s.literals s.callees) (defined : ∀ label ∈ code.labels, known label)
    (exits : f.LeavesTo known) : code.RefersTo known ∧ f'.LeavesTo known := by
  induction s generalizing code f f' with
  | broken id fault => exact absurd h run_throw_ne_ok
  | block info stmts ih =>
    rw [StmtTree.code] at h
    exact refersTo_inScope h (fun hrun defined => refersTo_codeAll hrun
      (fun s hs _ _ _ hs' => ih s hs hs') links defined exits) defined
  | localVar info var init =>
    simp only [StmtTree.code, run_bind_eq_ok_iff, run_pure_eq_ok_iff] at h
    obtain ⟨value, _, hvalue, _, _, hdeclared, rfl, rfl⟩ := h
    refine ⟨ExprTree.refersTo_code hvalue links defined, ?_⟩
    exact (exits.of_eq (init.keepsLoops_code _ _ _ hvalue)).of_eq (declared_run hdeclared).2
  | call info expr =>
    simp only [StmtTree.code, run_bind_eq_ok_iff, run_pure_eq_ok_iff] at h
    obtain ⟨value, _, hvalue, drop, _, hdrop, rfl, rfl⟩ := h
    rw [Code.labels_append, List.forall_mem_append] at defined
    refine ⟨Code.refersTo_append.2 ⟨ExprTree.refersTo_code hvalue links defined.1,
      refersTo_pop hdrop⟩, ?_⟩
    exact (exits.of_eq (expr.keepsLoops_code _ _ _ hvalue)).of_eq (KeepsLoops.pop _ _ _ _ _ hdrop)
  | assign info target value =>
    rw [StmtTree.code] at h
    exact ⟨refersTo_assignment h links defined,
      exits.of_eq (keepsLoops_assignment target value _ _ _ h)⟩
  | ifThen info cond thenStmt ih =>
    simp only [StmtTree.code, run_bind_eq_ok_iff, run_pure_eq_ok_iff] at h
    obtain ⟨test, _, htest, body, _, hbody, rfl, rfl⟩ := h
    simp only [Code.labels_append, List.forall_mem_append] at defined
    obtain ⟨⟨⟨definedTest, _⟩, definedBody⟩, own⟩ := defined
    obtain ⟨hrefers, exits⟩ := refersTo_condition htest links.left definedTest exits
    obtain ⟨hrefersBody, exits⟩ := refersTo_inScope hbody
      (fun hrun defined => ih hrun links.right defined exits) definedBody
    have hother : known (.ifElse info.id) := own _ (by simp [Inst.definedLabel])
    have hdone : known (.ifDone info.id) := own _ (by simp [Inst.definedLabel])
    refine ⟨?_, exits⟩
    simp [hrefers, hrefersBody, Inst.operand?, Inst.written?, hother, hdone]
  | ifElse info cond thenStmt elseStmt ihThen ihElse =>
    simp only [StmtTree.code, run_bind_eq_ok_iff, run_pure_eq_ok_iff] at h
    obtain ⟨test, _, htest, body, _, hbody, other, _, hother, rfl, rfl⟩ := h
    simp only [Code.labels_append, List.forall_mem_append] at defined
    obtain ⟨⟨⟨⟨⟨definedTest, _⟩, definedBody⟩, own⟩, definedOther⟩, own'⟩ := defined
    obtain ⟨hrefers, exits⟩ := refersTo_condition htest links.left.left definedTest exits
    obtain ⟨hrefersBody, exits⟩ := refersTo_inScope hbody
      (fun hrun defined => ihThen hrun links.left.right defined exits) definedBody
    obtain ⟨hrefersOther, exits⟩ := refersTo_inScope hother
      (fun hrun defined => ihElse hrun links.right defined exits) definedOther
    have hother : known (.ifElse info.id) := own _ (by simp [Inst.definedLabel])
    have hdone : known (.ifDone info.id) := own' _ (by simp [Inst.definedLabel])
    refine ⟨?_, exits⟩
    simp [hrefers, hrefersBody, hrefersOther, Inst.operand?, Inst.written?, hother, hdone]
  | whileLoop info cond body ih =>
    simp only [StmtTree.code, run_bind_eq_ok_iff, run_pure_eq_ok_iff] at h
    obtain ⟨_, _, henter, turn, _, hturn, test, _, htest, rfl, rfl⟩ := h
    obtain rfl := run_modify_eq_ok_iff.1 henter
    simp only [Code.labels_append, List.forall_mem_append] at defined
    obtain ⟨⟨⟨⟨top, definedTurn⟩, enter⟩, definedTest⟩, bottom⟩ := defined
    have htop : known (.whileTop info.id) := top _ (by simp [Inst.definedLabel])
    have hentry : known (.whileEnter info.id) := enter _ (by simp [Inst.definedLabel])
    have hbreak : known (.breakTarget info.id) := bottom _ (by simp [Inst.definedLabel])
    obtain ⟨hrefersTurn, exits⟩ := refersTo_inScope hturn
      (fun hrun defined => ih hrun links.left defined (exits.enterLoop hbreak)) definedTurn
    obtain ⟨hrefersTest, exits⟩ := refersTo_condition htest links.right definedTest exits
    refine ⟨?_, exits⟩
    simp [hrefersTurn, hrefersTest, Inst.operand?, Inst.written?, htop, hentry]
  | breakFrom info loop =>
    rw [StmtTree.code] at h
    obtain ⟨exit, hexit, rfl, rfl⟩ := leaveLoop_run h
    have hbreak : known (.breakTarget loop) := exits loop exit hexit
    refine ⟨?_, exits⟩
    simp [Inst.operand?, Inst.written?, hbreak]

end StmtTree

end MipsBackend
