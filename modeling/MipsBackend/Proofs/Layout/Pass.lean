import MipsBackend.Proofs.Hierarchy.Walk
import MipsBackend.Proofs.Layout.Recording
import MipsBackend.Proofs.Widths

/-!
# What the layout pass leaves behind

`Layout.compute` walks the class tree and records entries as it goes.  Its result can be described
without the walk: the entries of a class follow from those of its superclass by fixed rules.  This
module states the rules and shows that every successful pass obeys them.

* `FieldPlaced`, `FormalsPlaced`, `SlotAssigned` and `MethodPlaced` are the rules for one member,
  and `ClassPlaced` collects them for a class.
* `LaidOut` says the same of a whole tree, together with the code of its records.
* `visit_run` connects the pass with the rules, and `compute_eq_ok` does so for all of it.

The rules speak of the final layout `L` only.  An operation that ran in the middle of the pass is
shown to obey them for every `L` that its own result grows to.
-/

namespace MipsBackend

namespace Layout

variable {p : Program} {l l' L : Layout}

/-! ## The rules -/

/-- A field takes the next word of its region. -/
def FieldPlaced (p : Program) (L : Layout) (cl : ClassLayout) (var : VarId)
    (cl' : ClassLayout) : Prop :=
  ∃ decl, p.varAt var = .ok decl ∧
    if decl.ty.isScalar then
      L.varOffset var = .ok (firstScalarOffset - cl.numScalar * wordSize) ∧
        cl' = { cl with numScalar := cl.numScalar + 1 }
    else
      L.varOffset var = .ok (firstReferenceOffset + cl.numReference * wordSize) ∧
        cl' = { cl with numReference := cl.numReference + 1 }

/-- The types of some variables, in order. -/
def VarTypes (p : Program) : List VarId → List Ty → Prop :=
  List.Forall₂ fun var ty => ∃ decl, p.varAt var = .ok decl ∧ decl.ty = ty

/-- Formal parameters lie below the receiver, each below the ones before it. -/
structure FormalsPlaced (p : Program) (L : Layout) (formals : List VarId) (tys : List Ty)
    (receiverOffset : Int) : Prop where
  types : VarTypes p formals tys
  receiver : receiverOffset = (1 + Ty.frameWords tys) * wordSize
  fits : Offset.Fits receiverOffset
  offset {k : Nat} {var : VarId} : formals[k]? = some var →
    L.varOffset var = .ok (receiverOffset - ((tys.take (k + 1)).map Ty.stackBytes).sum)

/-- An overriding method takes the place of the overridden one.  Any other method opens a slot, and
no ancestor declares its name. -/
inductive SlotAssigned (p : Program) (L : Layout) (c : ClassId) (id : MethodId)
    (decl : MethodDecl) (vtable : List MethodId) : Nat → List MethodId → Prop where
  | override {overridden : MethodId} {m : MethodLayout} :
      decl.overridden = some overridden → L.methodAt overridden = .ok m →
      vtable[m.slot - 1]? = some overridden →
      SlotAssigned p L c id decl vtable m.slot (vtable.set (m.slot - 1) id)
  | opened : decl.overridden = none → p.inheritedMethod c decl.name = .ok none →
      SlotAssigned p L c id decl vtable (vtable.length + 1) (vtable ++ [id])

/-- A method of class `c` gets its formal parameters and its slot. -/
def MethodPlaced (p : Program) (L : Layout) (c : ClassId) (vtable : List MethodId)
    (id : MethodId) (vtable' : List MethodId) : Prop :=
  ∃ decl m tys, p.methodAt id = .ok decl ∧ L.methodAt id = .ok m ∧
    FormalsPlaced p L decl.formals tys m.receiverOffset ∧
    SlotAssigned p L c id decl vtable m.slot vtable'

/-- A class starts from what it inherits and adds its fields, then its methods. -/
structure ClassPlaced (p : Program) (L : Layout) (inherited : ClassLayout) (c : ClassId)
    (decl : ClassDecl) (cl : ClassLayout) : Prop where
  layout : L.classAt c = .ok cl
  exists_fields : ∃ fields : ClassLayout,
    Folds (FieldPlaced p L) inherited decl.instVars fields ∧
      Folds (MethodPlaced p L c) fields.vtable decl.methods.methods cl.vtable ∧
      cl = { fields with vtable := cl.vtable }

mutual

/-- A tree of classes is laid out by the rules, and the code holds its records. -/
def LaidOut (p : Program) (L : Layout) (inherited : ClassLayout) : ClassTree → Code → Prop
  | .broken _ _, _ => False
  | .node id decl subclasses, code => ∃ cl body descendants arrays,
    ClassPlaced p L inherited id decl cl ∧
      recordBody p decl.superclass cl = .ok body ∧
      LaidOutAll p L cl subclasses descendants ∧
      (if decl.superclass.isNone then arrayRecords p (some id) cl else .ok []) = .ok arrays ∧
      code = Code.of decl.span (.label (.classStart decl.name) :: body)
        ++ descendants
        ++ Code.of decl.span (arrays ++ [.label (.classEnd decl.name)])

/-- Sibling classes are laid out one after the other, all from the same inherited layout. -/
def LaidOutAll (p : Program) (L : Layout) (inherited : ClassLayout) :
    List (Unit → ClassTree) → Code → Prop
  | [], code => code = []
  | tree :: trees, code => ∃ first rest,
    LaidOut p L inherited (tree ()) first ∧ LaidOutAll p L inherited trees rest ∧
      code = first ++ rest

end

/-! ## Members -/

theorem placeField_run {cl cl' : ClassLayout} {var : VarId}
    (h : (placeField p cl var).run l = .ok (cl', l')) :
    LaysOut [] [] [var] l l' ∧ ∀ {L}, l'.GrowsTo L → FieldPlaced p L cl var cl' := by
  simp only [placeField, run_bind_eq_ok_iff, run_liftM_eq_ok_iff] at h
  obtain ⟨decl, _, ⟨hdecl, rfl⟩, h⟩ := h
  by_cases hscalar : decl.ty.isScalar
  · simp only [hscalar, if_true, run_bind_eq_ok_iff, run_liftM_eq_ok_iff, run_pure_eq_ok_iff,
      Offset.mul, Offset.sub, Offset.checked_eq_ok_iff] at h
    obtain ⟨_, _, ⟨⟨_, rfl⟩, rfl⟩, _, _, ⟨⟨hfits, rfl⟩, rfl⟩, _, _, hrecord, rfl, rfl⟩ := h
    obtain ⟨hlays, hself⟩ := recordVar_run hrecord hfits
    refine ⟨hlays, fun hgrows => ⟨decl, hdecl, ?_⟩⟩
    rw [if_pos hscalar]
    exact ⟨hgrows.vars hself, rfl⟩
  · simp only [hscalar, Bool.false_eq_true, if_false, run_bind_eq_ok_iff, run_liftM_eq_ok_iff,
      run_pure_eq_ok_iff, Offset.mul, Offset.add, Offset.checked_eq_ok_iff] at h
    obtain ⟨_, _, ⟨⟨_, rfl⟩, rfl⟩, _, _, ⟨⟨hfits, rfl⟩, rfl⟩, _, _, hrecord, rfl, rfl⟩ := h
    obtain ⟨hlays, hself⟩ := recordVar_run hrecord hfits
    refine ⟨hlays, fun hgrows => ⟨decl, hdecl, ?_⟩⟩
    rw [if_neg hscalar]
    exact ⟨hgrows.vars hself, rfl⟩

/-- The types of the formal parameters are read without touching the layout. -/
theorem varTypes_run {vars : List VarId} {tys : List Ty}
    (h : (vars.mapM fun v => do return (← p.varAt v).ty : LayoutM (List Ty)).run l =
      .ok (tys, l')) : VarTypes p vars tys ∧ l = l' := by
  induction vars generalizing tys with
  | nil =>
    rw [List.mapM_nil, run_pure_eq_ok_iff] at h
    obtain ⟨rfl, rfl⟩ := h
    exact ⟨.nil, rfl⟩
  | cons v vars ih =>
    simp only [List.mapM_cons, run_bind_eq_ok_iff, run_liftM_eq_ok_iff, run_pure_eq_ok_iff] at h
    obtain ⟨_, _, ⟨decl, _, ⟨hdecl, rfl⟩, rfl, rfl⟩, rest, _, hrest, rfl, rfl⟩ := h
    obtain ⟨htypes, rfl⟩ := ih hrest
    exact ⟨.cons ⟨decl, hdecl, rfl⟩ htypes, rfl⟩

/-- Formal parameters are placed downward from `above`. -/
theorem placeBelow_run {formals : List VarId} {tys : List Ty} (htypes : VarTypes p formals tys)
    {above bottom : Int}
    (h : ((formals.zip tys).foldlM (fun above (formal, ty) => do
        let offset ← Offset.sub above ty.stackBytes
        LayoutM.recordVar formal offset
        return offset) above : LayoutM Int).run l = .ok (bottom, l')) :
    LaysOut [] [] formals l l' ∧ ∀ {L}, l'.GrowsTo L → ∀ {k var}, formals[k]? = some var →
      L.varOffset var = .ok (above - ((tys.take (k + 1)).map Ty.stackBytes).sum) := by
  induction htypes generalizing above l with
  | nil =>
    rw [List.zip_nil_left, List.foldlM_nil, run_pure_eq_ok_iff] at h
    obtain ⟨_, rfl⟩ := h
    exact ⟨.refl l, fun _ => by simp⟩
  | @cons v ty formals tys _ _ ih =>
    simp only [List.zip_cons_cons, List.foldlM_cons, run_bind_eq_ok_iff, run_liftM_eq_ok_iff,
      run_pure_eq_ok_iff, Offset.sub, Offset.checked_eq_ok_iff] at h
    obtain ⟨_, _, ⟨_, _, ⟨⟨hfits, rfl⟩, rfl⟩, _, _, hrecord, rfl, rfl⟩, hrest⟩ := h
    obtain ⟨hfirst, hself⟩ := recordVar_run hrecord hfits
    obtain ⟨hlays, hoffsets⟩ := ih hrest
    refine ⟨hfirst.trans hlays, fun hgrows k var hk => ?_⟩
    cases k with
    | zero =>
      obtain rfl : v = var := by simpa using hk
      simpa using (hlays.growsTo.trans hgrows).vars hself
    | succ k =>
      rw [hoffsets hgrows (by simpa using hk)]
      simp only [List.take_succ_cons, List.map_cons, List.sum_cons]
      congr 1
      omega

theorem placeFormals_run {formals : List VarId} {receiverOffset : Int}
    (h : (placeFormals p formals).run l = .ok (receiverOffset, l')) :
    LaysOut [] [] formals l l' ∧ ∃ tys, ∀ {L}, l'.GrowsTo L →
      FormalsPlaced p L formals tys receiverOffset := by
  rw [placeFormals, run_bind_eq_ok_iff] at h
  obtain ⟨tys, _, hread, h⟩ := h
  obtain ⟨htypes, rfl⟩ := varTypes_run hread
  simp only [run_bind_eq_ok_iff, run_liftM_eq_ok_iff, run_pure_eq_ok_iff] at h
  obtain ⟨words, _, ⟨hwords, rfl⟩, _, _, ⟨hadd, rfl⟩, _, _, ⟨hmul, rfl⟩, bottom, _, hplaced,
    rfl, rfl⟩ := h
  obtain rfl := Offset.eq_sum_of_sum_eq_ok hwords
  obtain ⟨_, rfl⟩ := Offset.checked_eq_ok_iff.1 hadd
  obtain ⟨hfits, rfl⟩ := Offset.checked_eq_ok_iff.1 hmul
  obtain ⟨hlays, hoffsets⟩ := placeBelow_run htypes hplaced
  exact ⟨hlays, tys, fun hgrows => ⟨htypes, rfl, hfits, hoffsets hgrows⟩⟩

theorem assignSlot_run {c : ClassId} {id : MethodId} {decl : MethodDecl}
    {vtable vtable' : List MethodId} {slot : Nat}
    (h : (assignSlot p c id decl vtable).run l = .ok ((slot, vtable'), l')) :
    l = l' ∧ (l.SlotsPositive → 1 ≤ slot) ∧
      ∀ {L}, l.GrowsTo L → SlotAssigned p L c id decl vtable slot vtable' := by
  unfold assignSlot at h
  cases hover : decl.overridden with
  | some overridden =>
    simp only [hover, run_bind_eq_ok_iff, run_get_eq_ok_iff, run_liftM_eq_ok_iff] at h
    obtain ⟨_, _, ⟨rfl, rfl⟩, m, _, ⟨hm, rfl⟩, h⟩ := h
    by_cases hholder : vtable[m.slot - 1]? = some overridden
    · rw [if_pos hholder, run_pure_eq_ok_iff, Prod.mk.injEq] at h
      obtain ⟨⟨rfl, rfl⟩, rfl⟩ := h
      exact ⟨rfl, fun hl => hl hm, fun hgrows => .override hover (hgrows.methods hm) hholder⟩
    · simp only [hholder, if_false, run_bind_eq_ok_iff, run_liftM_eq_ok_iff, defect_ne_ok,
        false_and, and_false, exists_false] at h
  | none =>
    simp only [hover, run_bind_eq_ok_iff, run_liftM_eq_ok_iff] at h
    obtain ⟨shadowed, _, ⟨hshadowed, rfl⟩, h⟩ := h
    cases shadowed with
    | some m =>
      simp only [run_bind_eq_ok_iff, run_liftM_eq_ok_iff, defect_ne_ok, false_and, and_false,
        exists_false] at h
    | none =>
      rw [run_pure_eq_ok_iff, Prod.mk.injEq] at h
      obtain ⟨⟨rfl, rfl⟩, rfl⟩ := h
      exact ⟨rfl, fun _ => Nat.le_add_left 1 _, fun _ => .opened hover hshadowed⟩

/-- The formal parameters of a method; a method that does not exist has none. -/
def formalsOf (p : Program) (id : MethodId) : List VarId :=
  match p.methodAt id with
  | .ok decl => decl.formals
  | .error _ => []

theorem placeMethod_run {c : ClassId} {id : MethodId} {vtable vtable' : List MethodId}
    (h : (placeMethod p c vtable id).run l = .ok (vtable', l')) :
    LaysOut [] [id] (formalsOf p id) l l' ∧
      ∀ {L}, l'.GrowsTo L → MethodPlaced p L c vtable id vtable' := by
  simp only [placeMethod, run_bind_eq_ok_iff, run_liftM_eq_ok_iff, run_pure_eq_ok_iff] at h
  obtain ⟨decl, _, ⟨hdecl, rfl⟩, receiverOffset, l₁, hformals, ⟨slot, vtable₁⟩, l₂, hslot, _, _,
    hrecord, rfl, rfl⟩ := h
  obtain ⟨hlays, tys, hplaced⟩ := placeFormals_run hformals
  obtain ⟨rfl, hpositive, hassigned⟩ := assignSlot_run hslot
  obtain ⟨hlast, hself⟩ := recordMethod_run hrecord hpositive
  have hall : LaysOut [] [id] (decl.formals ++ []) l _ := hlays.trans hlast
  have hformalsOf : formalsOf p id = decl.formals ++ [] := by
    rw [formalsOf, hdecl, List.append_nil]
  refine ⟨hformalsOf ▸ hall, fun hgrows => ?_⟩
  exact ⟨decl, _, tys, hdecl, hgrows.methods hself, hplaced (hlast.growsTo.trans hgrows),
    hassigned (hlast.growsTo.trans hgrows)⟩

/-! ## Trees -/

/-- The methods that some classes declare. -/
def methodsOf (nodes : List (ClassId × ClassDecl)) : List MethodId :=
  nodes.flatMap fun node => node.2.methods.methods

/-- The variables that some classes declare: their fields and the formals of their methods. -/
def varsOf (p : Program) (nodes : List (ClassId × ClassDecl)) : List VarId :=
  nodes.flatMap fun node => node.2.instVars ++ node.2.methods.methods.flatMap (formalsOf p)

/-- What a part of the pass lays out that visits the given classes. -/
abbrev LaysOutNodes (p : Program) (nodes : List (ClassId × ClassDecl)) : Layout → Layout → Prop :=
  LaysOut (nodes.map Prod.fst) (methodsOf nodes) (varsOf p nodes)

theorem LaysOutNodes.append {nodes nodes' : List (ClassId × ClassDecl)} {l'' : Layout}
    (h : LaysOutNodes p nodes l l') (h' : LaysOutNodes p nodes' l' l'') :
    LaysOutNodes p (nodes ++ nodes') l l'' := by
  have hall := h.trans h'
  simpa only [LaysOutNodes, methodsOf, varsOf, List.map_append, List.flatMap_append] using hall

theorem placeFields_run {cl cl' : ClassLayout} {vars : List VarId}
    (h : (vars.foldlM (placeField p) cl).run l = .ok (cl', l')) :
    LaysOut [] [] vars l l' ∧ ∀ {L}, l'.GrowsTo L → Folds (FieldPlaced p L) cl vars cl' := by
  refine foldlM_run_induction (motive := fun vars cl l cl' l' => LaysOut [] [] vars l l' ∧
    ∀ {L}, l'.GrowsTo L → Folds (FieldPlaced p L) cl vars cl') ?_ ?_ h
  · exact fun cl l => ⟨.refl l, fun _ => .nil⟩
  · rintro var vars cl cl₁ cl' l l₁ l' hfirst ⟨hlays, hrest⟩
    obtain ⟨hlays₁, hplaced⟩ := placeField_run hfirst
    exact ⟨hlays₁.trans hlays,
      fun hgrows => .cons (hplaced (hlays.growsTo.trans hgrows)) (hrest hgrows)⟩

theorem placeMethods_run {c : ClassId} {vtable vtable' : List MethodId} {methods : List MethodId}
    (h : (methods.foldlM (placeMethod p c) vtable).run l = .ok (vtable', l')) :
    LaysOut [] methods (methods.flatMap (formalsOf p)) l l' ∧
      ∀ {L}, l'.GrowsTo L → Folds (MethodPlaced p L c) vtable methods vtable' := by
  refine foldlM_run_induction (motive := fun methods vtable l vtable' l' =>
    LaysOut [] methods (methods.flatMap (formalsOf p)) l l' ∧
      ∀ {L}, l'.GrowsTo L → Folds (MethodPlaced p L c) vtable methods vtable') ?_ ?_ h
  · exact fun vtable l => ⟨.refl l, fun _ => .nil⟩
  · rintro m methods vtable vtable₁ vtable' l l₁ l' hfirst ⟨hlays, hrest⟩
    obtain ⟨hlays₁, hplaced⟩ := placeMethod_run hfirst
    exact ⟨hlays₁.trans hlays,
      fun hgrows => .cons (hplaced (hlays.growsTo.trans hgrows)) (hrest hgrows)⟩

/-- What every walk over a tree does, a walk over sibling trees does. -/
theorem visitAll_run_of {trees : List (Unit → ClassTree)} {inherited : ClassLayout} {code : Code}
    (htrees : ∀ tree ∈ trees, ∀ {l l' : Layout} {inherited : ClassLayout} {code : Code},
      (visit p inherited (tree ())).run l = .ok (code, l') →
      LaysOutNodes p (tree ()).nodes l l' ∧
        ∀ {L}, l'.GrowsTo L → LaidOut p L inherited (tree ()) code)
    (h : (visitAll p inherited trees).run l = .ok (code, l')) :
    LaysOutNodes p (ClassTree.nodesAll trees) l l' ∧
      ∀ {L}, l'.GrowsTo L → LaidOutAll p L inherited trees code := by
  induction trees generalizing code l with
  | nil =>
    obtain ⟨rfl, rfl⟩ := run_pure_eq_ok_iff.1 h
    exact ⟨.refl l, fun _ => rfl⟩
  | cons tree trees ih =>
    rw [List.forall_mem_cons] at htrees
    simp only [visitAll, run_bind_eq_ok_iff, run_pure_eq_ok_iff] at h
    obtain ⟨first, l₁, hfirst, rest, _, hrest, rfl, rfl⟩ := h
    obtain ⟨hlays₁, hout₁⟩ := htrees.1 hfirst
    obtain ⟨hlays₂, hout₂⟩ := ih htrees.2 hrest
    refine ⟨hlays₁.append hlays₂, fun hgrows => ⟨first, rest, ?_, hout₂ hgrows, rfl⟩⟩
    exact hout₁ (hlays₂.growsTo.trans hgrows)

/-- A successful walk over a tree visits its classes, each once, and lays them out by the rules. -/
theorem visit_run {tree : ClassTree} {inherited : ClassLayout} {code : Code}
    (h : (visit p inherited tree).run l = .ok (code, l')) :
    LaysOutNodes p tree.nodes l l' ∧ ∀ {L}, l'.GrowsTo L → LaidOut p L inherited tree code := by
  induction tree generalizing inherited code l l' with
  | broken id fault => exact absurd h run_throw_ne_ok
  | node id decl subclasses ih =>
    simp only [visit, run_bind_eq_ok_iff, run_liftM_eq_ok_iff] at h
    obtain ⟨fields, l₁, hfields, vtable, l₂, hmethods, body, _, ⟨hbody, rfl⟩, descendants, l₃,
      hdescendants, hend⟩ := h
    obtain ⟨hlays₁, hfields⟩ := placeFields_run hfields
    obtain ⟨hlays₂, hmethods⟩ := placeMethods_run hmethods
    obtain ⟨hlays₃, hdescendants⟩ := visitAll_run_of ih hdescendants
    -- Only a root has array records; both branches end by recording the class.
    obtain ⟨arrays, u, harrays, hrecord, rfl⟩ : ∃ arrays u,
        (if decl.superclass.isNone then arrayRecords p (some id) { fields with vtable }
          else .ok []) = .ok arrays ∧
        (LayoutM.recordClass id { fields with vtable }).run l₃ = .ok (u, l') ∧
        code = Code.of decl.span (.label (.classStart decl.name) :: body) ++ descendants
          ++ Code.of decl.span (arrays ++ [.label (.classEnd decl.name)]) := by
      split at hend
      · rename_i hroot
        simp only [run_bind_eq_ok_iff, run_liftM_eq_ok_iff, run_pure_eq_ok_iff] at hend
        obtain ⟨arrays, _, ⟨harrays, rfl⟩, u, _, hrecord, rfl, rfl⟩ := hend
        exact ⟨arrays, u, by rw [if_pos hroot, harrays], hrecord, rfl⟩
      · rename_i hroot
        simp only [run_bind_eq_ok_iff, run_pure_eq_ok_iff] at hend
        obtain ⟨_, _, ⟨rfl, rfl⟩, u, _, hrecord, rfl, rfl⟩ := hend
        exact ⟨[], u, by rw [if_neg hroot], hrecord, rfl⟩
    obtain ⟨hlays₄, hself⟩ := recordClass_run hrecord
    have hwritten := ((hlays₁.trans hlays₂).trans hlays₃).trans hlays₄
    refine ⟨⟨?_, ?_, ?_, hwritten.slots, hwritten.offsets⟩, fun hgrows => ?_⟩
    · exact hwritten.classes.perm (List.perm_append_singleton _ _)
    · simpa [ClassTree.nodes, methodsOf] using hwritten.methods
    · simpa [ClassTree.nodes, varsOf] using hwritten.vars
    · have hgrows₃ := hlays₄.growsTo.trans hgrows
      have hgrows₂ := hlays₃.growsTo.trans hgrows₃
      exact ⟨_, body, descendants, arrays, ⟨hgrows.classes hself, fields,
        hfields (hlays₂.growsTo.trans hgrows₂), hmethods hgrows₂, rfl⟩, hbody,
        hdescendants hgrows₃, harrays, rfl⟩

theorem visitAll_run {trees : List (Unit → ClassTree)} {inherited : ClassLayout} {code : Code}
    (h : (visitAll p inherited trees).run l = .ok (code, l')) :
    LaysOutNodes p (ClassTree.nodesAll trees) l l' ∧
      ∀ {L}, l'.GrowsTo L → LaidOutAll p L inherited trees code :=
  visitAll_run_of (fun _ _ => visit_run) h

/-! ## The whole pass -/

theorem classAt_blank_ne_ok {c : ClassId} {cl : ClassLayout} : (blank p).classAt c ≠ .ok cl := by
  rw [Ne, classAt_eq_ok_iff, blank, Array.getElem?_replicate]
  split <;> simp

theorem methodAt_blank_ne_ok {id : MethodId} {m : MethodLayout} :
    (blank p).methodAt id ≠ .ok m := by
  rw [Ne, methodAt_eq_ok_iff, blank, Array.getElem?_replicate]
  split <;> simp

theorem varOffset_blank_ne_ok {x : VarId} {offset : Int} :
    (blank p).varOffset x ≠ .ok offset := by
  rw [Ne, varOffset_eq_ok_iff, blank, Array.getElem?_replicate]
  split <;> simp

theorem slotsPositive_blank : (blank p).SlotsPositive :=
  fun h => absurd h methodAt_blank_ne_ok

theorem offsetsFit_blank : (blank p).OffsetsFit :=
  fun h => absurd h varOffset_blank_ne_ok

/-- What a successful pass shows: the class records, then the string literals; the classes as they
were reached from the root; and no class without a layout. -/
structure Complete (p : Program) (L : Layout) (data : Code) : Prop where
  slots : L.SlotsPositive
  exists_layout {c : ClassId} {decl : ClassDecl} :
    p.classAt c = .ok decl → ∃ cl, L.classAt c = .ok cl
  exists_code : ∃ records literals, stringLiterals p = .ok literals ∧
    data = Code.of .dummy [.segment .data] ++ records ++ literals ∧
    ((∃ root, p.rootClass = .ok (some root) ∧ LaysOutNodes p (p.classTree root).nodes (blank p) L ∧
        LaidOut p L .root (p.classTree root) records) ∨
      ∃ arrays, p.rootClass = .ok none ∧ L = blank p ∧ arrayRecords p none .root = .ok arrays ∧
        records = Code.of .dummy arrays)

/-- All offsets that a successful pass has recorded are words. -/
theorem Complete.offsetsFit {data : Code} (h : Complete p L data) : L.OffsetsFit := by
  obtain ⟨_, _, _, _, ⟨_, _, hlays, _⟩ | ⟨_, _, rfl, _⟩⟩ := h.exists_code
  · exact hlays.offsets offsetsFit_blank
  · exact offsetsFit_blank

/-- The classes of a program are visited from the root, or there is no class at all. -/
theorem classRecords_run {records : Code}
    (h : (classRecords p).run (blank p) = .ok (records, L)) :
    L.SlotsPositive ∧ L.classes.size = p.classes.size ∧
      ((∃ root, p.rootClass = .ok (some root) ∧
          LaysOutNodes p (p.classTree root).nodes (blank p) L ∧
          LaidOut p L .root (p.classTree root) records) ∨
        ∃ arrays, p.rootClass = .ok none ∧ L = blank p ∧ arrayRecords p none .root = .ok arrays ∧
          records = Code.of .dummy arrays) := by
  have hblank : (blank p).classes.size = p.classes.size := Array.size_replicate
  rw [classRecords, run_bind_eq_ok_iff] at h
  obtain ⟨root, _, hread, h⟩ := h
  obtain ⟨hroot, rfl⟩ := run_liftM_eq_ok_iff.1 hread
  cases root with
  | some root =>
    obtain ⟨hlays, hlaid⟩ := visit_run h
    exact ⟨hlays.slots slotsPositive_blank, hlays.classes.size.trans hblank,
      Or.inl ⟨root, hroot, hlays, hlaid ⟨id, id, id⟩⟩⟩
  | none =>
    simp only [run_bind_eq_ok_iff, run_liftM_eq_ok_iff, run_pure_eq_ok_iff] at h
    obtain ⟨arrays, _, ⟨harrays, rfl⟩, rfl, rfl⟩ := h
    exact ⟨slotsPositive_blank, hblank, Or.inr ⟨arrays, hroot, rfl, harrays, rfl⟩⟩

/-- The pass succeeds when the walk from the root does and has reached every class. -/
theorem compute_eq_ok_iff {data : Code} : compute p = .ok (L, data) ↔
    ∃ records literals, (classRecords p).run (blank p) = .ok (records, L) ∧
      stringLiterals p = .ok literals ∧
      (∀ entry ∈ p.classes.toList.zip L.classes.toList, entry.2.isSome) ∧
      data = Code.of .dummy [.segment .data] ++ records ++ literals := by
  have hnone : ∀ l : Layout, (p.classes.toList.zip l.classes.toList).find? (·.2.isNone) = none ↔
      ∀ entry ∈ p.classes.toList.zip l.classes.toList, entry.2.isSome := by
    intro l
    simp [List.find?_eq_none, Option.isSome_iff_ne_none]
  simp only [compute, bind_eq_ok_iff]
  constructor
  · rintro ⟨⟨records, l⟩, hrecords, literals, hliterals, h⟩
    split at h
    · exact absurd h defect_ne_ok
    · rename_i hall
      obtain ⟨rfl, rfl⟩ := Prod.mk.inj (pure_eq_ok_iff.1 h)
      exact ⟨records, literals, hrecords, hliterals, (hnone L).1 hall, rfl⟩
  · rintro ⟨records, literals, hrecords, hliterals, hall, rfl⟩
    refine ⟨(records, L), hrecords, literals, hliterals, ?_⟩
    rw [(hnone L).2 hall]
    rfl

theorem compute_eq_ok {data : Code} (h : compute p = .ok (L, data)) : Complete p L data := by
  obtain ⟨records, literals, hrecords, hliterals, hall, rfl⟩ := compute_eq_ok_iff.1 h
  obtain ⟨hslots, hsize, hcode⟩ := classRecords_run hrecords
  refine ⟨hslots, fun {c decl} hdecl => ?_, records, literals, hliterals, rfl, hcode⟩
  obtain ⟨hlt, hget⟩ := Array.getElem?_eq_some_iff.1 (lookup_eq_ok_iff.1 hdecl)
  have hmem : (decl, L.classes[c.toNat]) ∈ p.classes.toList.zip L.classes.toList := by
    refine List.mem_iff_getElem.2 ⟨c.toNat, by simp [hsize, hlt], ?_⟩
    simp [hget]
  obtain ⟨cl, hcl⟩ : ∃ cl, L.classes[c.toNat] = some cl :=
    Option.isSome_iff_exists.1 (hall _ hmem)
  refine ⟨cl, classAt_eq_ok_iff.2 ?_⟩
  rw [Array.getElem?_eq_getElem (hsize ▸ hlt), hcl]

end Layout

end MipsBackend
