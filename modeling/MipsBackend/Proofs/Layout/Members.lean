import Mathlib.Algebra.Order.BigOperators.Group.List
import MipsBackend.Proofs.Source.WellFormed

/-!
# Members can be placed

The layout pass places the fields of a class, the formal parameters of its methods and the methods
themselves.  Each of these loops has an invariant that lets all its turns succeed.

* Fields: `ClassLayout.Counts` relates the counters of a class layout to the number of fields that
  the class will have in the end, so no offset leaves the 32-bit words.
* Formal parameters: those still to come fit between the frame and the last one placed.
* Methods: `Answers` says that the table answers names as the class does, so an overriding method
  finds the overridden one in its slot.

`Program.Layable` is what the pass needs of a program: declarations only, no bodies.
-/

namespace MipsBackend

variable {p : Program} {l l' : Layout} {c s : ClassId} {cdecl : ClassDecl} {m : MethodId}
  {decl : MethodDecl} {x : VarId} {cl inherited : ClassLayout} {vtable : List MethodId}

/-- What the layout pass needs of a program: the hierarchy is a tree, declarations and their owners
refer to each other, methods override what their class inherits, and all sizes fit. -/
structure Program.Layable (p : Program) : Prop where
  tree : p.IsClassTree
  subclasses_nodup : ∀ c decl, p.classAt c = .ok decl → decl.subclasses.Nodup
  methods : p.MethodsLinked
  overridden : ∀ m decl, p.methodAt m = .ok decl →
    p.inheritedMethod decl.owner decl.name = .ok decl.overridden
  vars : p.VarsLinked
  stringClass : p.stringClass.all p.hasClass
  classes_small : p.classes.size ≤ 2 ^ 32
  objects_small : ∀ c decl, p.classAt c = .ok decl →
    Offset.Fits (p.lowestOffset (c :: (p.lineage c).ancestors)) ∧
      Offset.Fits (p.highestOffset (c :: (p.lineage c).ancestors))
  formals_small : ∀ m decl, p.methodAt m = .ok decl → Offset.Fits (p.receiverOffset decl)
  literals_small : ∀ literal ∈ p.stringLiterals,
    Offset.Fits (literal.2.2.utf8ByteSize + wordSize)

theorem Program.WellFormed.layable (wf : p.WellFormed) : p.Layable :=
  { wf with }

/-! ## Counting fields -/

/-- A class layout counts the fields of some types, less those that are still to come. -/
structure ClassLayout.Counts (cl : ClassLayout) (tys todo : List Ty) : Prop where
  scalars : cl.numScalar + todo.countP Ty.isScalar = tys.countP Ty.isScalar
  references : cl.numReference + todo.countP (!·.isScalar) = tys.countP (!·.isScalar)

namespace Layout

/-- The next field has an offset if the last one has. -/
theorem succeeds_placeField {cs : List ClassId} {var : VarDecl} {todo : List Ty}
    (hvar : p.varAt x = .ok var) (hfree : l.vars[x.toNat]? = some none)
    (hcounts : cl.Counts (p.fieldTys cs) (var.ty :: todo))
    (hlow : Offset.Fits (p.lowestOffset cs)) (hhigh : Offset.Fits (p.highestOffset cs)) :
    Succeeds (placeField p cl x) l fun cl' l' =>
      cl'.Counts (p.fieldTys cs) todo ∧ LaysOut [] [] [x] l l' := by
  obtain ⟨hscalars, hreferences⟩ := hcounts
  obtain ⟨hlow, _⟩ := hlow
  obtain ⟨_, hhigh⟩ := hhigh
  unfold Program.lowestOffset at hlow
  unfold Program.highestOffset at hhigh
  simp only [firstScalarOffset, firstReferenceOffset, wordSize] at hlow hhigh
  unfold placeField
  refine succeeds_liftM_bind hvar ?_
  by_cases hscalar : var.ty.isScalar
  · simp only [hscalar, if_true, List.countP_cons, Bool.not_true, Bool.false_eq_true,
      if_false] at hscalars hreferences ⊢
    have hmul : Offset.Fits (cl.numScalar * wordSize) := by
      simp only [Offset.Fits, wordSize]
      omega
    have hsub : Offset.Fits (firstScalarOffset - cl.numScalar * wordSize) := by
      simp only [Offset.Fits, firstScalarOffset, wordSize]
      omega
    refine succeeds_liftM_bind (Offset.checked_of_fits hmul) ?_
    refine succeeds_liftM_bind (Offset.checked_of_fits hsub) ?_
    refine succeeds_bind_iff.2 ((succeeds_recordVar hfree hsub).mono ?_)
    intro _ l' hlays
    refine succeeds_pure_iff.2 ⟨⟨?_, hreferences⟩, hlays⟩
    change cl.numScalar + 1 + todo.countP Ty.isScalar = _
    omega
  · simp only [hscalar, Bool.false_eq_true, if_false, List.countP_cons, Bool.not_false,
      if_true] at hscalars hreferences ⊢
    have hmul : Offset.Fits (cl.numReference * wordSize) := by
      simp only [Offset.Fits, wordSize]
      omega
    have hadd : Offset.Fits (firstReferenceOffset + cl.numReference * wordSize) := by
      simp only [Offset.Fits, firstReferenceOffset, wordSize]
      omega
    refine succeeds_liftM_bind (Offset.checked_of_fits hmul) ?_
    refine succeeds_liftM_bind (Offset.checked_of_fits hadd) ?_
    refine succeeds_bind_iff.2 ((succeeds_recordVar hfree hadd).mono ?_)
    intro _ l' hlays
    refine succeeds_pure_iff.2 ⟨⟨hscalars, ?_⟩, hlays⟩
    change cl.numReference + 1 + todo.countP (!·.isScalar) = _
    omega

theorem succeeds_placeFields {cs : List ClassId} {vars : List VarId}
    (hvars : ∀ x ∈ vars, ∃ var, p.varAt x = .ok var) (hblank : Blank vars l.vars)
    (hcounts : cl.Counts (p.fieldTys cs) (vars.map p.varTy))
    (hlow : Offset.Fits (p.lowestOffset cs)) (hhigh : Offset.Fits (p.highestOffset cs)) :
    Succeeds (vars.foldlM (placeField p) cl) l fun cl' _ => cl'.Counts (p.fieldTys cs) [] := by
  refine (succeeds_foldlM (fun (todo : List VarId) (cl : ClassLayout) (l : Layout) =>
    (∀ x ∈ todo, ∃ var, p.varAt x = .ok var) ∧ Blank todo l.vars ∧
      cl.Counts (p.fieldTys cs) (todo.map p.varTy)) ?_ ⟨hvars, hblank, hcounts⟩).mono ?_
  · rintro x todo cl l ⟨hvars, hblank, hcounts⟩
    rw [List.forall_mem_cons] at hvars
    obtain ⟨var, hvar⟩ := hvars.1
    rw [List.map_cons, Program.varTy_eq hvar] at hcounts
    refine (succeeds_placeField hvar (hblank.free List.mem_cons_self) hcounts hlow hhigh).mono ?_
    rintro cl' l' ⟨hcounts', hlays⟩
    exact ⟨hvars.2, hblank.after_one hlays.vars, hcounts'⟩
  · exact fun _ _ h => h.2.2

/-! ## Formal parameters -/

theorem succeeds_varTypes {vars : List VarId} (hvars : ∀ x ∈ vars, ∃ var, p.varAt x = .ok var) :
    Succeeds (vars.mapM fun v => do return (← p.varAt v).ty : LayoutM (List Ty)) l
      fun tys l' => tys = vars.map p.varTy ∧ l' = l := by
  induction vars with
  | nil => exact succeeds_pure_iff.2 ⟨rfl, rfl⟩
  | cons x vars ih =>
    rw [List.forall_mem_cons] at hvars
    obtain ⟨var, hvar⟩ := hvars.1
    rw [List.mapM_cons, succeeds_bind_iff, succeeds_bind_iff, succeeds_liftM_iff]
    refine ⟨var, hvar, succeeds_pure_iff.2 (succeeds_bind_iff.2 ((ih hvars.2).mono ?_))⟩
    rintro tys l' ⟨htys, hl'⟩
    exact succeeds_pure_iff.2 ⟨by rw [htys, List.map_cons, Program.varTy_eq hvar], hl'⟩

/-- The sum of non-negative numbers succeeds if it fits. -/
theorem exists_sum_eq_ok {ns : List Int} (hns : ∀ n ∈ ns, 0 ≤ n) (hfits : ns.sum < 2 ^ 31) :
    ∃ n, Offset.sum ns = .ok n := by
  have hfrom : ∀ {ns : List Int} {a : Int}, (∀ n ∈ ns, 0 ≤ n) → 0 ≤ a → a + ns.sum < 2 ^ 31 →
      ∃ n, ns.foldlM Offset.add a = .ok n := by
    intro ns
    induction ns with
    | nil => exact fun _ _ _ => exists_pure_eq_ok _
    | cons n ns ih =>
      intro a hns ha hfits
      rw [List.forall_mem_cons] at hns
      rw [List.sum_cons] at hfits
      have hrest := List.sum_nonneg hns.2
      have hsmall : Offset.Fits (a + n) := by
        constructor <;> omega
      rw [List.foldlM_cons]
      exact exists_bind_eq_ok_iff.2 ⟨_, Offset.checked_of_fits hsmall,
        ih hns.2 (by omega) (by omega)⟩
  exact hfrom hns (Int.le_refl 0) (by omega)

/-- Formal parameters are placed downward and stay above the frame. -/
theorem succeeds_placeBelow {formals : List (VarId × Ty)} {above : Int}
    (hblank : Blank (formals.map Prod.fst) l.vars)
    (hbottom : (formals.map fun formal => formal.2.stackBytes).sum ≤ above)
    (habove : above < 2 ^ 31) :
    Succeeds (formals.foldlM (fun above (formal, ty) => do
        let offset ← Offset.sub above ty.stackBytes
        LayoutM.recordVar formal offset
        return offset) above : LayoutM Int) l fun _ _ => True := by
  refine (succeeds_foldlM (fun (todo : List (VarId × Ty)) above l =>
    Blank (todo.map Prod.fst) l.vars ∧
      (todo.map fun formal => formal.2.stackBytes).sum ≤ above ∧ above < 2 ^ 31) ?_
    ⟨hblank, hbottom, habove⟩).mono fun _ _ _ => trivial
  rintro ⟨x, ty⟩ todo above l ⟨hblank, hbottom, habove⟩
  rw [List.map_cons, List.sum_cons] at hbottom
  have hrest : 0 ≤ (todo.map fun formal => formal.2.stackBytes).sum := by
    have hsum := sum_stackBytes_nonneg (todo.map Prod.snd)
    rwa [List.map_map] at hsum
  have hnonneg := ty.stackBytes_nonneg
  have hsub : Offset.Fits (above - ty.stackBytes) := by
    dsimp only at hbottom
    constructor <;> omega
  refine succeeds_liftM_bind (Offset.checked_of_fits hsub) ?_
  refine succeeds_bind_iff.2 ((succeeds_recordVar (hblank.free List.mem_cons_self) hsub).mono ?_)
  intro _ l' hlays
  refine succeeds_pure_iff.2 ⟨Blank.after_one hblank hlays.vars, ?_, ?_⟩
  · dsimp only at hbottom
    omega
  · omega

/-- The formal parameters of a method have offsets if the receiver above them has. -/
theorem succeeds_placeFormals (hvars : ∀ x ∈ decl.formals, ∃ var, p.varAt x = .ok var)
    (hblank : Blank decl.formals l.vars) (hfits : Offset.Fits (p.receiverOffset decl)) :
    Succeeds (placeFormals p decl.formals) l fun _ _ => True := by
  have hwords := frameWords_nonneg (decl.formals.map p.varTy)
  have hbottom := sum_stackBytes (decl.formals.map p.varTy)
  have hreceiver := p.receiverOffset_eq decl
  have hsmall := hfits.2
  simp only [wordSize] at hbottom hreceiver
  unfold placeFormals
  refine succeeds_bind_iff.2 ((succeeds_varTypes hvars).mono ?_)
  rintro tys l' ⟨htys, hl'⟩
  subst htys hl'
  obtain ⟨words, hsum⟩ : ∃ words,
      Offset.sum ((decl.formals.map p.varTy).map Ty.words) = .ok words :=
    exists_sum_eq_ok (by simp [words_nonneg]) (by rw [← frameWords_eq_sum]; omega)
  have hwordsEq : words = Ty.frameWords (decl.formals.map p.varTy) :=
    Offset.eq_sum_of_sum_eq_ok hsum
  subst hwordsEq
  have hadd : Offset.Fits (1 + Ty.frameWords (decl.formals.map p.varTy)) := by
    constructor <;> omega
  have hmul : Offset.Fits ((1 + Ty.frameWords (decl.formals.map p.varTy)) * wordSize) := by
    rw [← Program.receiverOffset_eq]
    exact hfits
  refine succeeds_liftM_bind hsum ?_
  refine succeeds_liftM_bind (Offset.checked_of_fits hadd) ?_
  refine succeeds_liftM_bind (Offset.checked_of_fits hmul) ?_
  have hfirsts : (decl.formals.zip (decl.formals.map p.varTy)).map Prod.fst = decl.formals :=
    List.map_fst_zip (by simp)
  have hseconds : (decl.formals.zip (decl.formals.map p.varTy)).map Prod.snd =
      decl.formals.map p.varTy := List.map_snd_zip (by simp)
  have hplaced : ((decl.formals.zip (decl.formals.map p.varTy)).map fun formal =>
      formal.2.stackBytes).sum = ((decl.formals.map p.varTy).map Ty.stackBytes).sum := by
    rw [← hseconds, List.map_map, hseconds]
    rfl
  refine succeeds_bind_iff.2 ((succeeds_placeBelow ?_ ?_ hmul.2).mono ?_)
  · rw [hfirsts]
    exact hblank
  · rw [hplaced, hbottom, wordSize]
    omega
  · exact fun _ _ _ => succeeds_pure_iff.2 trivial

end Layout

/-! ## Methods -/

/-- An inherited method is declared by a strict ancestor. -/
theorem Program.IsClassTree.exists_of_inheritedMethod (tree : p.IsClassTree)
    (hc : p.classAt c = .ok cdecl) {name : String}
    (h : p.inheritedMethod c name = .ok (some m)) :
    ∃ s d ddecl, p.Extends c s ∧ p.Descends s d ∧ p.classAt d = .ok ddecl ∧
      (name, m) ∈ ddecl.methods.entries := by
  refine tree.induction (motive := fun c => p.inheritedMethod c name = .ok (some m) →
    ∃ s d ddecl, p.Extends c s ∧ p.Descends s d ∧ p.classAt d = .ok ddecl ∧
      (name, m) ∈ ddecl.methods.entries) ?_ ?_ hc h
  · intro r hr hnone
    rw [inheritedMethod, (Ancestry.root hr).lineage_eq tree.acyclic] at hnone
    cases hnone
  · intro c s hs ih hsome
    obtain ⟨sdecl, hsdecl⟩ := tree.superclass_exists hs
    rw [tree.inheritedMethod_of_extends hs] at hsome
    by_cases hown : ∃ m', (name, m') ∈ sdecl.methods.entries
    · obtain ⟨m', hm'⟩ := hown
      rw [lookupMethod_of_own hsdecl hm'] at hsome
      cases hsome
      exact ⟨s, s, sdecl, hs, .refl, hsdecl, hm'⟩
    · rw [lookupMethod_of_not_own hsdecl (not_exists.1 hown)] at hsome
      obtain ⟨s', d, ddecl, hs', hdesc, hd, hm⟩ := ih hsome
      exact ⟨s, d, ddecl, hs, .head hs' hdesc, hd, hm⟩

namespace Layout

/-- The invariant of a table speaks of entries that stay. -/
theorem Answers.mono {placed : List MethodId} (h : Answers p l c placed vtable)
    (hgrows : l.GrowsTo l') : Answers p l' c placed vtable := by
  constructor
  · intro i m hm
    obtain ⟨decl, ml, hdecl, hml, hrest⟩ := h.entry hm
    exact ⟨decl, ml, hdecl, hgrows.methods hml, hrest⟩
  · intro m decl hdecl hfrom
    obtain ⟨ml, i, m', decl', hml, hrest⟩ := h.reached hdecl hfrom
    exact ⟨ml, i, m', decl', hgrows.methods hml, hrest⟩

section Methods

variable (wf : p.Layable) {placed todo : List MethodId} (hc : p.classAt c = .ok cdecl)
include wf hc

/-- An overriding method finds the overridden one in its slot, and any other has a new name. -/
theorem succeeds_assignSlot (hlist : placed ++ m :: todo = cdecl.methods.methods)
    (hdecl : p.methodAt m = .ok decl) (howner : decl.owner = c)
    (hanswers : Answers p l c placed vtable) :
    Succeeds (assignSlot p c m decl vtable) l fun _ l' => l' = l := by
  have hinherited := wf.overridden m decl hdecl
  rw [howner] at hinherited
  unfold assignSlot
  cases hover : decl.overridden with
  | none =>
    rw [hover] at hinherited
    exact succeeds_liftM_bind hinherited (succeeds_pure_iff.2 rfl)
  | some o =>
    rw [hover] at hinherited
    obtain ⟨s, d, ddecl, hs, hdesc, hd, hentry⟩ := wf.tree.exists_of_inheritedMethod hc hinherited
    obtain ⟨odecl, hodecl, hname, rfl⟩ := wf.methods.owned hd hentry
    obtain ⟨ml, i, m', decl', hml, hslot, hm', hdecl', hname'⟩ :=
      hanswers.reached hodecl (Or.inr ⟨s, hs, hdesc⟩)
    -- The slot holds a method of the same name, and that can only be the inherited one.
    have hholder : vtable[ml.slot - 1]? = some o := by
      obtain ⟨decl'', _, hdecl'', _, _, hplaced | ⟨hother, _⟩⟩ := hanswers.entry hm'
      · refine absurd ?_ (name_ne_of_methods_eq wf.methods hc hlist hplaced hdecl' hdecl)
        rw [hname', hname]
      · obtain rfl : decl' = decl'' := Except.ok.inj (hdecl'.symm.trans hdecl'')
        rw [hname', hname, hinherited] at hother
        obtain rfl := Option.some.inj (Except.ok.inj hother)
        rw [hslot, Nat.add_sub_cancel]
        exact hm'
    refine succeeds_bind_iff.2 (succeeds_get_iff.2 (succeeds_bind_iff.2 ?_))
    refine succeeds_liftM_iff.2 ⟨ml, hml, ?_⟩
    simp only [hholder, if_true]
    exact succeeds_pure_iff.2 rfl

/-- A method of a class can be placed when those before it have been. -/
theorem succeeds_placeMethod (hlist : placed ++ m :: todo = cdecl.methods.methods)
    (hdecl : p.methodAt m = .ok decl) (howner : decl.owner = c)
    (hanswers : Answers p l c placed vtable) (hmethod : Blank [m] l.methods)
    (hformals : Blank decl.formals l.vars) :
    Succeeds (placeMethod p c vtable m) l fun _ _ => True := by
  have hvars : ∀ x ∈ decl.formals, ∃ var, p.varAt x = .ok var := by
    intro x hx
    obtain ⟨var, hvar, _⟩ := Program.exists_varAt ((wf.vars.formals m decl hdecl).2 x hx)
    exact ⟨var, hvar⟩
  unfold placeMethod
  refine succeeds_liftM_bind hdecl (succeeds_bind_iff.2 ?_)
  refine (succeeds_placeFormals hvars hformals (wf.formals_small m decl hdecl)).of_run ?_
  intro receiverOffset l₁ hrun _
  obtain ⟨hlays, _⟩ := placeFormals_run hrun
  have hslot := succeeds_assignSlot wf hc hlist hdecl howner (hanswers.mono hlays.growsTo)
  refine succeeds_bind_iff.2 (hslot.mono ?_)
  rintro ⟨slot, vtable'⟩ l₂ hl₂
  subst hl₂
  have hfree := (hmethod.after_none hlays.methods).free List.mem_cons_self
  refine succeeds_bind_iff.2 ((succeeds_recordMethod hfree).mono ?_)
  exact fun _ _ _ => succeeds_pure_iff.2 trivial

/-- All methods of a class can be placed, one after the other. -/
theorem succeeds_placeMethods (hanswers : Answers p l c [] vtable) (slots : l.SlotsPositive)
    (hmethods : Blank cdecl.methods.methods l.methods)
    (hformals : Blank (cdecl.methods.methods.flatMap (formalsOf p)) l.vars) :
    Succeeds (cdecl.methods.methods.foldlM (placeMethod p c) vtable) l fun vtable' l' =>
      Answers p l' c cdecl.methods.methods vtable' := by
  refine (succeeds_foldlM (fun (todo : List MethodId) (vtable : List MethodId) (l : Layout) =>
    ∃ placed, placed ++ todo = cdecl.methods.methods ∧ Answers p l c placed vtable ∧
      l.SlotsPositive ∧ Blank todo l.methods ∧ Blank (todo.flatMap (formalsOf p)) l.vars) ?_
    ⟨[], List.nil_append _, hanswers, slots, hmethods, hformals⟩).mono ?_
  · rintro m todo vtable l ⟨placed, hlist, hanswers, slots, hmethods, hformals⟩
    have hmem : m ∈ cdecl.methods.methods := by
      rw [← hlist]
      exact List.mem_append_right _ List.mem_cons_self
    obtain ⟨decl, hdecl, howner⟩ := wf.methods.exists_owned hc hmem
    have hown : formalsOf p m = decl.formals := by
      rw [formalsOf, hdecl]
    rw [List.flatMap_cons] at hformals
    have hnew : Blank ([m] ++ todo) l.methods := hmethods
    refine (succeeds_placeMethod wf hc hlist hdecl howner hanswers hnew.left
      (hown ▸ hformals.left)).of_run ?_
    intro vtable' l' hrun _
    obtain ⟨hlays, hplaced⟩ := placeMethod_run hrun
    refine ⟨placed ++ [m], by simpa using hlist, ?_, hlays.slots slots,
      hmethods.after_one hlays.methods, hformals.after hlays.vars⟩
    refine (hanswers.mono hlays.growsTo).place wf.methods (hlays.slots slots) hdecl
      (hplaced ⟨id, id, id⟩) ?_
    intro m' hm' decl' hdecl'
    exact name_ne_of_methods_eq wf.methods hc hlist hm' hdecl' hdecl
  · rintro vtable' l' ⟨placed, hlist, hanswers', _⟩
    rw [List.append_nil] at hlist
    exact hlist ▸ hanswers'

end Methods

end Layout

end MipsBackend
