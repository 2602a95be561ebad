import MipsBackend.Proofs.Code.Bodies

/-!
# The labels of generated code

A label in the code of an expression or statement is made for one of its nodes, and a node makes at
most one label of each kind (`Code.LabelledBy`).  So in a tree in which no node occurs twice no
label is defined twice, and a label of a node that is not in the tree is not defined at all.
-/

namespace MipsBackend

open Gen

/-- The node that a label is made for. -/
def Label.node? : Label → Option Node
  | .skip e => some (.expr e)
  | .ifElse s | .ifDone s | .whileTop s | .whileEnter s | .breakTarget s => some (.stmt s)
  | _ => none

namespace Code

variable {code code' : Code} {nodes nodes' : List Node} {node : Node} {l : Label} {d : Int}

/-- Every label of the code is made for one of the nodes, and defined no more often than the node
occurs among them. -/
def LabelledBy (code : Code) (nodes : List Node) : Prop :=
  ∀ l, code.labels.count l ≤ nodes.countP fun node => l.node? == some node

theorem labelledBy_of_labels_eq_nil (h : code.labels = []) : code.LabelledBy nodes := by
  intro l
  rw [h]
  exact Nat.zero_le _

theorem LabelledBy.append (h : code.LabelledBy nodes) (h' : code'.LabelledBy nodes') :
    (code ++ code').LabelledBy (nodes ++ nodes') := by
  intro l
  have hleft := h l
  have hright := h' l
  rw [labels_append, List.count_append, List.countP_append]
  omega

theorem LabelledBy.mono (h : code.LabelledBy nodes) (hsub : nodes.Sublist nodes') :
    code.LabelledBy nodes' :=
  fun l => Nat.le_trans (h l) hsub.countP_le

/-- Code without labels between labelled parts makes no difference. -/
theorem LabelledBy.append_plain (h : code.LabelledBy nodes) (h' : code'.labels = []) :
    (code ++ code').LabelledBy nodes := by
  have hplain : code'.LabelledBy [] := labelledBy_of_labels_eq_nil h'
  simpa using h.append hplain

/-- A node adds labels of its own, each once, to those of its parts. -/
theorem LabelledBy.visit (h : code.LabelledBy nodes) (own : List Label) (hown : own.Nodup)
    (hnode : ∀ l ∈ own, l.node? = some node)
    (hlabels : code'.labels.Perm (own ++ code.labels)) : code'.LabelledBy (node :: nodes) := by
  intro l
  have hparts := h l
  have hcount : own.count l ≤ if l.node? == some node then 1 else 0 := by
    by_cases hmem : l ∈ own
    · rw [if_pos (by simp [hnode l hmem])]
      exact List.nodup_iff_count.1 hown l
    · rw [List.count_eq_zero_of_not_mem hmem]
      exact Nat.zero_le _
  rw [hlabels.count_eq, List.count_append, List.countP_cons]
  omega

/-- Where nothing occurs twice, a label is made for something once at most. -/
theorem countP_le_one_of_nodup {α : Type} [DecidableEq α] {as : List α} (h : as.Nodup)
    (made : Option α) : (as.countP fun a => made == some a) ≤ 1 := by
  cases made with
  | none => simp [List.countP_eq_zero.2]
  | some a =>
    have hcount : (as.countP fun b => some a == some b) = as.count a := by
      rw [List.count]
      congr 1
      funext b
      simp [eq_comm]
    rw [hcount]
    exact List.nodup_iff_count.1 h a

/-- If no node occurs twice, no label does. -/
theorem LabelledBy.nodup (h : code.LabelledBy nodes) (hnodup : nodes.Nodup) : code.labels.Nodup :=
  List.nodup_iff_count.2 fun l => Nat.le_trans (h l) (countP_le_one_of_nodup hnodup l.node?)

/-- Code that control just goes through defines no label. -/
theorem Moves.labels_eq_nil (h : code.Moves d) : code.labels = [] := by
  refine List.filterMap_eq_nil_iff.2 fun inst hinst => ?_
  have hplain := h.plain inst hinst
  simp only [Inst.isPlain, Bool.and_eq_true, Option.isNone_iff_eq_none] at hplain
  exact hplain.1.2

@[simp] theorem labels_dropCode (span : Span) (bytes : Int) :
    Code.labels (dropCode span bytes) = [] :=
  (moves_dropCode span bytes).labels_eq_nil

end Code

variable {p : Program} {l : Layout} {span : Span} {code : Code} {f f' : Frame}

theorem labels_pushValue {ty : Ty} {reg : Reg}
    (h : (pushValue span ty reg).run f = .ok (code, f')) : code.labels = [] := by
  rw [pushValue] at h
  split at h
  · exact (pushScalar_moves h).1.labels_eq_nil
  · exact (pushReference_moves h).1.labels_eq_nil

theorem Enters.labels_eq_nil {isSuper : Bool} {method : MethodId} {enter : List Inst}
    (h : Enters p l isSuper method enter) : enter.filterMap Inst.definedLabel = [] := by
  cases isSuper with
  | true =>
    obtain ⟨_, _, rfl⟩ := h
    rfl
  | false =>
    obtain ⟨_, _, rfl⟩ := h.exists_loadEntry
    rfl

namespace ExprTree

/-- The code of a leaf defines no label. -/
theorem labels_of_isLeaf {e : ExprTree} (hleaf : e.isLeaf)
    (h : (e.code p l).run f = .ok (code, f')) : code.labels = [] := by
  cases e with
  | broken id fault => exact absurd h run_throw_ne_ok
  | int info value =>
    simp only [ExprTree.code, run_bind_eq_ok_iff, run_pure_eq_ok_iff] at h
    obtain ⟨push, _, hpush, rfl, _⟩ := h
    simp [Inst.definedLabel, (pushScalar_moves hpush).1.labels_eq_nil]
  | bool info value =>
    cases value with
    | true =>
      simp only [ExprTree.code, run_bind_eq_ok_iff, run_pure_eq_ok_iff] at h
      obtain ⟨push, _, hpush, rfl, _⟩ := h
      simp [Inst.definedLabel, (pushScalar_moves hpush).1.labels_eq_nil]
    | false => exact (pushScalar_moves h).1.labels_eq_nil
  | str info value =>
    simp only [ExprTree.code, run_bind_eq_ok_iff, run_pure_eq_ok_iff] at h
    obtain ⟨push, _, hpush, rfl, _⟩ := h
    simp [Inst.definedLabel, (pushReference_moves hpush).1.labels_eq_nil]
  | null info | this info | super info => exact (pushReference_moves h).1.labels_eq_nil
  | ident info var =>
    simp only [ExprTree.code, run_bind_eq_ok_iff, run_pure_eq_ok_iff] at h
    obtain ⟨_, _, _, push, _, hpush, rfl, _⟩ := h
    simp [Inst.definedLabel, labels_pushValue hpush]
  | new info c =>
    obtain ⟨_, _, _, _, _, _, rfl⟩ := new_run h
    simp [Inst.definedLabel, Inst.callRoutine, storeClassRecord]
  | _ => simp [isLeaf] at hleaf

theorem labelledBy_codeAll {es : List (Unit → ExprTree)}
    (h : (codeAll p l es).run f = .ok (code, f'))
    (heach : ∀ e ∈ es, ∀ {code f f'}, ((e ()).code p l).run f = .ok (code, f') →
      code.LabelledBy (e ()).nodes) : code.LabelledBy (nodesAll es) := by
  induction es generalizing code f f' with
  | nil =>
    obtain ⟨rfl, _⟩ := run_pure_eq_ok_iff.1 h
    exact Code.labelledBy_of_labels_eq_nil rfl
  | cons e es ih =>
    rw [List.forall_mem_cons] at heach
    simp only [codeAll, run_bind_eq_ok_iff, run_pure_eq_ok_iff] at h
    obtain ⟨value, _, hvalue, rest, _, hrest, rfl, _⟩ := h
    exact (heach.1 hvalue).append (ih hrest heach.2)

/-- The labels of an expression's code are made for its nodes. -/
theorem labelledBy_code {e : ExprTree} (h : (e.code p l).run f = .ok (code, f')) :
    code.LabelledBy e.nodes := by
  have hskip : ∀ {node : Node} {nodes : List Node}, nodes.Sublist (node :: nodes) :=
    List.sublist_cons_self _ _
  induction e generalizing code f f' with
  | not info operand ih =>
    simp only [ExprTree.code, run_bind_eq_ok_iff, run_pure_eq_ok_iff] at h
    obtain ⟨value, _, hvalue, rfl, _⟩ := h
    exact ((ih hvalue).append_plain (by simp [Inst.definedLabel])).mono hskip
  | binary info op lhs rhs ihLeft ihRight =>
    simp only [ExprTree.code, run_bind_eq_ok_iff] at h
    obtain ⟨left, _, hleft, h⟩ := h
    split at h
    · simp only [run_bind_eq_ok_iff, run_pure_eq_ok_iff] at h
      obtain ⟨drop, _, hdrop, right, _, hright, rfl, _⟩ := h
      refine ((ihLeft hleft).append (ihRight hright)).visit [.skip info.id] (by simp)
        (by simp [Label.node?]) (List.perm_iff_count.2 fun label => ?_)
      simp [Inst.definedLabel, List.filterMap_cons, (pop_moves hdrop).1.labels_eq_nil,
        List.count_append, List.count_cons]
      omega
    · simp only [run_bind_eq_ok_iff, run_pure_eq_ok_iff] at h
      obtain ⟨right, _, hright, apply, _, happly, rfl, _⟩ := h
      obtain ⟨_, _, hmoves, _⟩ := applyOperator_moves happly
      exact (((ihLeft hleft).append (ihRight hright)).append_plain hmoves.labels_eq_nil).mono hskip
  | arrayLength info array ih =>
    simp only [ExprTree.code, run_bind_eq_ok_iff, run_pure_eq_ok_iff] at h
    obtain ⟨base, _, hbase, tag, _, htag, rfl, _⟩ := h
    exact (((ih hbase).append_plain (by simp [Inst.definedLabel, Inst.nullCheck])).append_plain
      (tagTop_moves htag).1.labels_eq_nil).mono hskip
  | index info array i ihArray ihIndex =>
    simp only [ExprTree.code, run_bind_eq_ok_iff, run_pure_eq_ok_iff] at h
    obtain ⟨base, _, hbase, position, _, hposition, load, _, hload, rfl, _⟩ := h
    obtain ⟨_, _, hmoves, _⟩ := loadElement_moves hload
    exact (((ihArray hbase).append (ihIndex hposition)).append_plain hmoves.labels_eq_nil).mono
      hskip
  | field info object var ih =>
    simp only [ExprTree.code, run_bind_eq_ok_iff, run_pure_eq_ok_iff] at h
    obtain ⟨base, _, hbase, _, _, _, load, _, hload, rfl, _⟩ := h
    obtain ⟨_, _, hmoves, _⟩ := loadField_moves hload
    exact ((ih hbase).append_plain hmoves.labels_eq_nil).mono hskip
  | instanceOf info operand ty ih =>
    simp only [ExprTree.code, run_bind_eq_ok_iff, run_liftM_eq_ok_iff, run_pure_eq_ok_iff] at h
    obtain ⟨value, _, hvalue, range, _, ⟨hrange, rfl⟩, tag, _, htag, rfl, _⟩ := h
    obtain ⟨_, _, rfl⟩ := loadClassRange_eq_ok hrange
    exact (((ih hvalue).append_plain (by simp [Inst.definedLabel, Inst.callRoutine])).append_plain
      (tagTop_moves htag).1.labels_eq_nil).mono hskip
  | cast info ty operand ih =>
    simp only [ExprTree.code, run_bind_eq_ok_iff] at h
    obtain ⟨value, _, hvalue, _, _, _, h⟩ := h
    split at h
    · obtain ⟨rfl, _⟩ := run_pure_eq_ok_iff.1 h
      exact (ih hvalue).mono hskip
    · simp only [run_bind_eq_ok_iff, run_liftM_eq_ok_iff, run_pure_eq_ok_iff] at h
      obtain ⟨range, _, ⟨hrange, _⟩, rfl, _⟩ := h
      obtain ⟨_, _, rfl⟩ := loadClassRange_eq_ok hrange
      exact ((ih hvalue).append_plain (by simp [Inst.definedLabel, Inst.callRoutine])).mono hskip
  | newArray info elem size ih =>
    simp only [ExprTree.code, run_bind_eq_ok_iff, run_pure_eq_ok_iff] at h
    obtain ⟨length, _, hlength, drop, _, hdrop, _, _, _, _, _, _, rfl, _⟩ := h
    refine ((((ih hlength).append_plain ?_).append_plain ?_).append_plain ?_).mono hskip
    · simp [Inst.definedLabel]
    · exact (pop_moves hdrop).1.labels_eq_nil
    · simp [Inst.definedLabel, Inst.callRoutine, storeClassRecord]
  | call info receiver method args ihReceiver ihArgs =>
    obtain ⟨_, target, passed, enter, _, _, _, _, htarget, hpassed, henter, _, rfl⟩ := call_run h
    exact (((ihReceiver htarget).append (labelledBy_codeAll hpassed
      fun e he _ _ _ => ihArgs e he)).append_plain (by simp [henter.labels_eq_nil])).mono hskip
  | _ => exact Code.labelledBy_of_labels_eq_nil (labels_of_isLeaf rfl h)

end ExprTree

namespace Gen

theorem labelledBy_inScope {body : Gen Code} {nodes : List Node}
    (h : (inScope span body).run f = .ok (code, f'))
    (hbody : ∀ {code f'}, body.run f = .ok (code, f') → code.LabelledBy nodes) :
    code.LabelledBy nodes := by
  obtain ⟨inner, _, hinner, rfl, _⟩ := inScope_run h
  exact (hbody hinner).append_plain (Code.labels_dropCode _ _)

theorem labelledBy_condition {cond : ExprTree}
    (h : (condition p l span cond).run f = .ok (code, f')) : code.LabelledBy cond.nodes := by
  obtain ⟨value, _, hvalue, rfl, _⟩ := condition_run h
  exact ((ExprTree.labelledBy_code hvalue).append_plain (by simp [Inst.definedLabel])).append_plain
    (Code.labels_dropCode _ _)

theorem labelledBy_assignment {target value : ExprTree}
    (h : (assignment p l span target value).run f = .ok (code, f')) :
    code.LabelledBy (target.nodes ++ value.nodes) := by
  rw [assignment, run_bind_eq_ok_iff] at h
  obtain ⟨_, _, _, h⟩ := h
  cases target with
  | ident info var =>
    simp only [run_bind_eq_ok_iff, run_pure_eq_ok_iff] at h
    obtain ⟨result, _, hresult, _, _, _, drop, _, hdrop, rfl, _⟩ := h
    refine (((ExprTree.labelledBy_code hresult).append_plain (by simp [Inst.definedLabel]))
      |>.append_plain (pop_moves hdrop).1.labels_eq_nil).mono (List.sublist_append_right _ _)
  | field info object var =>
    simp only [run_bind_eq_ok_iff, run_pure_eq_ok_iff] at h
    obtain ⟨base, _, hbase, result, _, hresult, _, _, _, drop, _, hdrop, rfl, _⟩ := h
    refine ((((ExprTree.labelledBy_code hbase).append (ExprTree.labelledBy_code hresult))
      |>.append_plain (by simp [Inst.definedLabel, Inst.nullCheck])).append_plain
        (pop_moves hdrop).1.labels_eq_nil).mono ?_
    exact (List.sublist_cons_self _ _).append_right _
  | index info array i =>
    simp only [run_bind_eq_ok_iff, run_pure_eq_ok_iff] at h
    obtain ⟨base, _, hbase, position, _, hposition, result, _, hresult, drop, _, hdrop, rfl, _⟩ := h
    refine (((((ExprTree.labelledBy_code hbase).append (ExprTree.labelledBy_code hposition)).append
      (ExprTree.labelledBy_code hresult)).append_plain ?_).append_plain
        (pop_moves hdrop).1.labels_eq_nil).mono ?_
    · simp [Inst.definedLabel, storeElement, Inst.nullCheck, Inst.boundsCheck, Inst.elementAddress]
    · exact (List.sublist_cons_self _ _).append_right _
  | _ =>
    simp only [run_bind_eq_ok_iff, run_liftM_eq_ok_iff, defect_ne_ok, false_and, and_false,
      exists_false] at h

end Gen

namespace StmtTree

theorem labelledBy_codeAll {ss : List (Unit → StmtTree)}
    (h : (codeAll p l ss).run f = .ok (code, f'))
    (heach : ∀ s ∈ ss, ∀ {code f f'}, ((s ()).code p l).run f = .ok (code, f') →
      code.LabelledBy (s ()).nodes) : code.LabelledBy (nodesAll ss) := by
  induction ss generalizing code f f' with
  | nil =>
    obtain ⟨rfl, _⟩ := run_pure_eq_ok_iff.1 h
    exact Code.labelledBy_of_labels_eq_nil rfl
  | cons s ss ih =>
    rw [List.forall_mem_cons] at heach
    simp only [codeAll, run_bind_eq_ok_iff, run_pure_eq_ok_iff] at h
    obtain ⟨first, _, hfirst, rest, _, hrest, rfl, _⟩ := h
    exact (heach.1 hfirst).append (ih hrest heach.2)

/-- The labels of a statement's code are made for its nodes. -/
theorem labelledBy_code {s : StmtTree} (h : (s.code p l).run f = .ok (code, f')) :
    code.LabelledBy s.nodes := by
  have hskip : ∀ {node : Node} {nodes : List Node}, nodes.Sublist (node :: nodes) :=
    List.sublist_cons_self _ _
  induction s generalizing code f f' with
  | broken id fault => exact absurd h run_throw_ne_ok
  | block info stmts ih =>
    rw [StmtTree.code] at h
    exact (labelledBy_inScope h fun hrun => labelledBy_codeAll hrun fun s hs _ _ _ => ih s hs).mono
      hskip
  | localVar info var init =>
    simp only [StmtTree.code, run_bind_eq_ok_iff, run_pure_eq_ok_iff] at h
    obtain ⟨value, _, hvalue, _, _, _, rfl, _⟩ := h
    exact (ExprTree.labelledBy_code hvalue).mono hskip
  | call info expr =>
    simp only [StmtTree.code, run_bind_eq_ok_iff, run_pure_eq_ok_iff] at h
    obtain ⟨value, _, hvalue, drop, _, hdrop, rfl, _⟩ := h
    exact ((ExprTree.labelledBy_code hvalue).append_plain
      (pop_moves hdrop).1.labels_eq_nil).mono hskip
  | assign info target value =>
    rw [StmtTree.code] at h
    exact (labelledBy_assignment h).mono hskip
  | ifThen info cond thenStmt ih =>
    simp only [StmtTree.code, run_bind_eq_ok_iff, run_pure_eq_ok_iff] at h
    obtain ⟨test, _, htest, body, _, hbody, rfl, _⟩ := h
    refine ((labelledBy_condition htest).append (labelledBy_inScope hbody ih)).visit
      [.ifElse info.id, .ifDone info.id] (by simp) (by simp [Label.node?])
      (List.perm_iff_count.2 fun label => ?_)
    simp [Inst.definedLabel, List.filterMap_cons, List.count_append, List.count_cons]
    omega
  | ifElse info cond thenStmt elseStmt ihThen ihElse =>
    simp only [StmtTree.code, run_bind_eq_ok_iff, run_pure_eq_ok_iff] at h
    obtain ⟨test, _, htest, body, _, hbody, other, _, hother, rfl, _⟩ := h
    refine (((labelledBy_condition htest).append (labelledBy_inScope hbody ihThen)).append
      (labelledBy_inScope hother ihElse)).visit [.ifElse info.id, .ifDone info.id]
      (by simp) (by simp [Label.node?]) (List.perm_iff_count.2 fun label => ?_)
    simp [Inst.definedLabel, List.filterMap_cons, List.count_append, List.count_cons]
    omega
  | whileLoop info cond body ih =>
    simp only [StmtTree.code, run_bind_eq_ok_iff, run_pure_eq_ok_iff] at h
    obtain ⟨_, _, _, turn, _, hturn, test, _, htest, rfl, _⟩ := h
    refine ((labelledBy_inScope hturn ih).append (labelledBy_condition htest)).visit
      [.whileTop info.id, .whileEnter info.id, .breakTarget info.id]
      (by simp) (by simp [Label.node?]) (List.perm_iff_count.2 fun label => ?_)
    simp [Inst.definedLabel, List.filterMap_cons, List.count_append, List.count_cons]
    omega
  | breakFrom info loop =>
    rw [StmtTree.code] at h
    obtain ⟨_, _, rfl, _⟩ := leaveLoop_run h
    exact Code.labelledBy_of_labels_eq_nil (by simp [Inst.definedLabel])

end StmtTree

end MipsBackend
