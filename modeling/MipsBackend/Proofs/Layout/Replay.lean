import MipsBackend.Proofs.Layout.Coverage
import MipsBackend.Proofs.Layout.Progress
import MipsBackend.Proofs.Layout.References

/-!
# Carrying out the rules

A successful pass obeys the rules that `LaidOut` states (`visit_run`).  This module shows the
converse: where the rules hold for a layout `L`, the pass can be run and finds `L`.  So the rules
determine when the pass succeeds and all that it records, and a layout can be justified without
following the walk that finds it.

`Yields` speaks of an operation that returns a given result and records entries of `L` only.  It
composes along a sequence, so there is one lemma for each rule, from `FieldPlaced.yields` to
`LaidOut.yields`.  Whether an overridden method has a layout already is the one question that an
operation asks about earlier ones.  A method of the dispatch table has one (`Holds`), and by the
rule for slots the overridden method must be such a method.
-/

namespace MipsBackend

namespace Layout

variable {α β : Type} {p : Program} {k l L : Layout} {c : ClassId} {m : MethodId} {x : VarId}
  {decl : MethodDecl} {cl cl' inherited : ClassLayout} {vtable vtable' : List MethodId}
  {cs : List ClassId} {ms : List MethodId} {vs : List VarId} {tys : List Ty} {code : Code}

/-! ## Staying below a layout -/

/-- What was recorded agrees with `L` if all that is new does. -/
theorem LaysOut.growsTo_of (h : LaysOut cs ms vs k l) (hbelow : k.GrowsTo L)
    (classes : ∀ c ∈ cs, l.classAt c = L.classAt c)
    (methods : ∀ m ∈ ms, l.methodAt m = L.methodAt m)
    (vars : ∀ x ∈ vs, l.varOffset x = L.varOffset x) : l.GrowsTo L where
  classes {c cl} hcl := by
    rcases h.classes.new (classAt_eq_ok_iff.1 hcl) with hold | hmem
    · exact hbelow.classes (classAt_eq_ok_iff.2 hold)
    · rwa [← classes c hmem]
  methods {m ml} hml := by
    rcases h.methods.new (methodAt_eq_ok_iff.1 hml) with hold | hmem
    · exact hbelow.methods (methodAt_eq_ok_iff.2 hold)
    · rwa [← methods m hmem]
  vars {x a} ha := by
    rcases h.vars.new (varOffset_eq_ok_iff.1 ha) with hold | hmem
    · exact hbelow.vars (varOffset_eq_ok_iff.2 hold)
    · rwa [← vars x hmem]

/-- The operation returns `a`, and what it records are entries of `L`. -/
def Yields (L : Layout) (op : LayoutM α) (k : Layout) (a : α) : Prop :=
  Succeeds op k fun result l => result = a ∧ l.GrowsTo L

namespace Yields

variable {a : α} {b : β} {next : α → LayoutM β}

theorem pure (hbelow : k.GrowsTo L) : Yields L (Pure.pure a : LayoutM α) k a :=
  succeeds_pure_iff.2 ⟨rfl, hbelow⟩

theorem bind {op : LayoutM α} (h : Yields L op k a)
    (hnext : ∀ l, op.run k = .ok (a, l) → l.GrowsTo L → Yields L (next a) l b) :
    Yields L (op >>= next) k b := by
  refine succeeds_bind_iff.2 (h.of_run ?_)
  rintro _ l hrun ⟨rfl, hbelow⟩
  exact hnext l hrun hbelow

theorem liftM_bind {op : Except Fault α} (hop : op = .ok a) (hnext : Yields L (next a) k b) :
    Yields L (liftM op >>= next) k b :=
  succeeds_liftM_bind hop hnext

end Yields

theorem yields_recordVar {offset : Int} (hbelow : k.GrowsTo L)
    (hfree : k.vars[x.toNat]? = some none) (hL : L.varOffset x = .ok offset)
    (hfits : Offset.Fits offset) : Yields L (LayoutM.recordVar x offset) k ⟨⟩ := by
  refine (succeeds_recordVar hfree hfits).of_run fun _ l hrun _ => ⟨rfl, ?_⟩
  obtain ⟨hlays, hself⟩ := recordVar_run hrun hfits
  exact hlays.growsTo_of hbelow (by simp) (by simp) (by simp [hself, hL])

theorem yields_recordMethod {ml : MethodLayout} (hbelow : k.GrowsTo L)
    (hfree : k.methods[m.toNat]? = some none) (hL : L.methodAt m = .ok ml) (hslot : 1 ≤ ml.slot) :
    Yields L (LayoutM.recordMethod m ml) k ⟨⟩ := by
  refine (succeeds_recordMethod hfree).of_run fun _ l hrun _ => ⟨rfl, ?_⟩
  obtain ⟨hlays, hself⟩ := recordMethod_run hrun fun _ => hslot
  exact hlays.growsTo_of hbelow (by simp) (by simp [hself, hL]) (by simp)

theorem yields_recordClass (hbelow : k.GrowsTo L) (hfree : k.classes[c.toNat]? = some none)
    (hL : L.classAt c = .ok cl) : Yields L (LayoutM.recordClass c cl) k ⟨⟩ := by
  refine (succeeds_recordClass hfree).of_run fun _ l hrun _ => ⟨rfl, ?_⟩
  obtain ⟨hlays, hself⟩ := recordClass_run hrun
  exact hlays.growsTo_of hbelow (by simp [hself, hL]) (by simp) (by simp)

/-! ## Members -/

/-- A field is placed by the rule, since the offsets in between fit if the result does. -/
theorem FieldPlaced.yields (h : FieldPlaced p L cl x cl') (fits : L.OffsetsFit)
    (hbelow : k.GrowsTo L) (hfree : k.vars[x.toNat]? = some none) :
    Yields L (placeField p cl x) k cl' := by
  obtain ⟨var, hvar, hplaced⟩ := h
  unfold placeField
  refine .liftM_bind hvar ?_
  by_cases hscalar : var.ty.isScalar
  · rw [if_pos hscalar] at hplaced ⊢
    obtain ⟨hoffset, rfl⟩ := hplaced
    have hsub := fits hoffset
    have hmul : Offset.Fits (cl.numScalar * wordSize) := by
      simp only [Offset.Fits, firstScalarOffset, wordSize] at hsub ⊢
      omega
    refine .liftM_bind (Offset.checked_of_fits hmul) ?_
    refine .liftM_bind (Offset.checked_of_fits hsub) ?_
    exact (yields_recordVar hbelow hfree hoffset hsub).bind fun _ _ hbelow => .pure hbelow
  · rw [if_neg hscalar] at hplaced ⊢
    obtain ⟨hoffset, rfl⟩ := hplaced
    have hadd := fits hoffset
    have hmul : Offset.Fits (cl.numReference * wordSize) := by
      rwa [firstReferenceOffset, Int.zero_add] at hadd
    refine .liftM_bind (Offset.checked_of_fits hmul) ?_
    refine .liftM_bind (Offset.checked_of_fits hadd) ?_
    exact (yields_recordVar hbelow hfree hoffset hadd).bind fun _ _ hbelow => .pure hbelow

theorem yields_placeFields (h : Folds (FieldPlaced p L) cl vs cl') (fits : L.OffsetsFit)
    (hbelow : k.GrowsTo L) (hblank : Blank vs k.vars) :
    Yields L (vs.foldlM (placeField p) cl) k cl' := by
  induction h generalizing k with
  | nil => exact .pure hbelow
  | cons hfirst _ ih =>
    rw [List.foldlM_cons]
    refine (hfirst.yields fits hbelow (hblank.free List.mem_cons_self)).bind ?_
    intro l hrun hbelow
    exact ih hbelow (hblank.after_one (placeField_run hrun).1.vars)

theorem VarTypes.exists_varAt (h : VarTypes p vs tys) : ∀ x ∈ vs, ∃ var, p.varAt x = .ok var := by
  induction h with
  | nil => simp
  | cons hfirst _ ih =>
    obtain ⟨var, hvar, _⟩ := hfirst
    exact List.forall_mem_cons.2 ⟨⟨var, hvar⟩, ih⟩

/-- The types of the formal parameters determine all offsets. -/
theorem FormalsPlaced.yields {receiverOffset : Int}
    (h : FormalsPlaced p L decl.formals tys receiverOffset) (hbelow : k.GrowsTo L)
    (hblank : Blank decl.formals k.vars) :
    Yields L (placeFormals p decl.formals) k receiverOffset := by
  have hreceiver : receiverOffset = p.receiverOffset decl := by
    rw [h.receiver, h.types.eq_map, Program.receiverOffset_eq]
  refine (succeeds_placeFormals h.types.exists_varAt hblank (hreceiver ▸ h.fits)).of_run ?_
  intro result l hrun _
  obtain ⟨hlays, tys', hplaced⟩ := placeFormals_run hrun
  have hplaced := hplaced (.refl l)
  have htys : tys' = tys := hplaced.types.eq_map.trans h.types.eq_map.symm
  have hresult : result = receiverOffset := by
    rw [hplaced.receiver, h.receiver, htys]
  refine ⟨hresult, hlays.growsTo_of hbelow (by simp) (by simp) fun x hx => ?_⟩
  obtain ⟨i, hi⟩ := List.mem_iff_getElem?.1 hx
  rw [hplaced.offset hi, h.offset hi, hresult, htys]

/-- The methods have layouts. -/
def Holds (k : Layout) (methods : List MethodId) : Prop :=
  ∀ m ∈ methods, ∃ ml, k.methodAt m = .ok ml

theorem Holds.mono (h : k.Holds ms) (hgrows : k.GrowsTo l) : l.Holds ms := by
  intro m hm
  obtain ⟨ml, hml⟩ := h m hm
  exact ⟨ml, hgrows.methods hml⟩

/-- An overridden method stands in the table, so its layout can be read. -/
theorem SlotAssigned.yields {slot : Nat} (h : SlotAssigned p L c m decl vtable slot vtable')
    (hbelow : k.GrowsTo L) (holds : k.Holds vtable) :
    Yields L (assignSlot p c m decl vtable) k (slot, vtable') := by
  unfold assignSlot
  cases h with
  | @override overridden ml hover hml hholder =>
    obtain ⟨ml', hml'⟩ := holds overridden (List.mem_of_getElem? hholder)
    obtain rfl : ml' = ml := Except.ok.inj ((hbelow.methods hml').symm.trans hml)
    simp only [hover]
    refine succeeds_bind_iff.2 (succeeds_get_iff.2 (Yields.liftM_bind hml' ?_))
    simp only [hholder, if_true]
    exact .pure hbelow
  | opened hover hinherited =>
    simp only [hover]
    exact .liftM_bind hinherited (.pure hbelow)

theorem MethodPlaced.yields (h : MethodPlaced p L c vtable m vtable') (slots : L.SlotsPositive)
    (hbelow : k.GrowsTo L) (holds : k.Holds vtable) (hmethod : Blank [m] k.methods)
    (hformals : Blank (formalsOf p m) k.vars) : Yields L (placeMethod p c vtable m) k vtable' := by
  obtain ⟨decl, ml, tys, hdecl, hml, hplaced, hassigned⟩ := h
  rw [formalsOf, hdecl] at hformals
  unfold placeMethod
  refine .liftM_bind hdecl ((hplaced.yields hbelow hformals).bind fun k₁ hrun hbelow => ?_)
  obtain ⟨hlays, _⟩ := placeFormals_run hrun
  refine (hassigned.yields hbelow (holds.mono hlays.growsTo)).bind fun k₂ hrun hbelow => ?_
  obtain ⟨rfl, _⟩ := assignSlot_run hrun
  have hfree := (hmethod.after_none hlays.methods).free List.mem_cons_self
  exact (yields_recordMethod hbelow hfree hml (slots hml)).bind fun _ _ hbelow => .pure hbelow

/-- Methods that were placed have layouts, and so has all that their table held before. -/
theorem holds_of_folds (h : Folds (MethodPlaced p k c) vtable ms vtable') (holds : k.Holds vtable) :
    k.Holds vtable' := by
  intro m hm
  rcases List.mem_append.1 (vtable_subset h hm) with hold | hnew
  · exact holds m hold
  · obtain ⟨_, _, _, ml, _, _, hml, _⟩ := h.exists_of_mem hnew
    exact ⟨ml, hml⟩

theorem yields_placeMethods (h : Folds (MethodPlaced p L c) vtable ms vtable')
    (slots : L.SlotsPositive) (hbelow : k.GrowsTo L) (holds : k.Holds vtable)
    (hmethods : Blank ms k.methods) (hformals : Blank (ms.flatMap (formalsOf p)) k.vars) :
    Yields L (ms.foldlM (placeMethod p c) vtable) k vtable' := by
  induction h generalizing k with
  | nil => exact .pure hbelow
  | @cons vtable vtable₁ vtable' m ms hfirst _ ih =>
    rw [List.flatMap_cons] at hformals
    rw [List.foldlM_cons]
    have hnew : Blank ([m] ++ ms) k.methods := hmethods
    refine (hfirst.yields slots hbelow holds hnew.left hformals.left).bind fun l hrun hbelow => ?_
    obtain ⟨hlays, hplaced⟩ := placeMethod_run hrun
    have holds₁ := holds_of_folds (.cons (hplaced (.refl l)) .nil) (holds.mono hlays.growsTo)
    exact ih hbelow holds₁ (hmethods.after_one hlays.methods) (hformals.after hlays.vars)

/-! ## Trees -/

section Trees

variable (fits : L.OffsetsFit) (slots : L.SlotsPositive)

theorem yields_visitAll {trees : List (Unit → ClassTree)}
    (htrees : ∀ tree ∈ trees, ∀ {k : Layout} {code : Code}, LaidOut p L cl (tree ()) code →
      k.GrowsTo L → k.Holds cl.vtable → AwaitsNodes p (tree ()).nodes k →
        Yields L (visit p cl (tree ())) k code)
    (h : LaidOutAll p L cl trees code) (hbelow : k.GrowsTo L) (holds : k.Holds cl.vtable)
    (hawaits : AwaitsNodes p (ClassTree.nodesAll trees) k) :
    Yields L (visitAll p cl trees) k code := by
  induction trees generalizing k code with
  | nil =>
    obtain rfl := h
    exact .pure hbelow
  | cons tree trees ih =>
    obtain ⟨first, rest, hfirst, hrest, rfl⟩ := h
    rw [List.forall_mem_cons] at htrees
    rw [visitAll]
    refine (htrees.1 hfirst hbelow holds hawaits.left).bind fun l hrun hbelow => ?_
    obtain ⟨hlays, _⟩ := visit_run hrun
    refine (ih htrees.2 hrest hbelow (holds.mono hlays.growsTo) (hawaits.after hlays)).bind ?_
    exact fun _ _ hbelow => .pure hbelow

include fits slots

/-- Where the rules hold for a tree, the walk over it succeeds and finds the same. -/
theorem LaidOut.yields {t : ClassTree} (h : LaidOut p L inherited t code) (hbelow : k.GrowsTo L)
    (holds : k.Holds inherited.vtable) (hawaits : AwaitsNodes p t.nodes k) :
    Yields L (visit p inherited t) k code := by
  induction t generalizing inherited k code with
  | broken id fault => exact h.elim
  | node id decl subclasses ih =>
    obtain ⟨cl, body, descendants, arrays, hplaced, hbody, hall, harrays, rfl⟩ := h
    obtain ⟨fields, hfields, hmethods, hcl⟩ := hplaced.exists_fields
    obtain ⟨blankClasses, blankMethods, blankVars⟩ := hawaits
    rw [ClassTree.nodes, methodsOf, List.flatMap_cons] at blankMethods
    rw [ClassTree.nodes, varsOf, List.flatMap_cons, List.append_assoc] at blankVars
    unfold visit
    -- The members of the class.
    refine (yields_placeFields hfields fits hbelow blankVars.left).bind fun k₁ hrun₁ hbelow₁ => ?_
    obtain ⟨hlays₁, hfolds⟩ := placeFields_run hrun₁
    have hinherited : fields.vtable = inherited.vtable :=
      FieldPlaced.vtable_eq (hfolds (.refl k₁))
    have holds₁ : k₁.Holds fields.vtable := hinherited ▸ holds.mono hlays₁.growsTo
    have blankVars₁ := blankVars.after hlays₁.vars
    have blankMethods₁ := blankMethods.after_none hlays₁.methods
    refine (yields_placeMethods hmethods slots hbelow₁ holds₁ blankMethods₁.left
      blankVars₁.left).bind fun k₂ hrun₂ hbelow₂ => ?_
    obtain ⟨hlays₂, hplacedAll⟩ := placeMethods_run hrun₂
    have holds₂ := holds_of_folds (hplacedAll (.refl k₂)) (holds₁.mono hlays₂.growsTo)
    rw [← hcl]
    refine .liftM_bind hbody ?_
    -- Its descendants.
    have blankClasses₂ := ((blankClasses.perm (List.perm_append_singleton _ _).symm).after_none
      hlays₁.classes).after_none hlays₂.classes
    have hawaits₂ : AwaitsNodes p (ClassTree.nodesAll subclasses) k₂ :=
      ⟨blankClasses₂.left, blankMethods₁.after hlays₂.methods, blankVars₁.after hlays₂.vars⟩
    refine (yields_visitAll (fun sub hsub _ _ hlaid hbelow holds hawaits =>
      ih sub hsub hlaid hbelow holds hawaits) hall hbelow₂ holds₂ hawaits₂).bind ?_
    intro k₃ hrun₃ hbelow₃
    obtain ⟨hlays₃, _⟩ := visitAll_run hrun₃
    have hfree := (blankClasses₂.after hlays₃.classes).free List.mem_cons_self
    have hend := yields_recordClass hbelow₃ hfree hplaced.layout
    -- The records of arrays, below a root.
    split
    · rename_i hroot
      rw [if_pos hroot] at harrays
      exact .liftM_bind harrays (hend.bind fun _ _ hbelow => .pure hbelow)
    · rename_i hroot
      rw [if_neg hroot] at harrays
      obtain rfl := Except.ok.inj harrays
      exact (Yields.pure hbelow₃).bind fun _ hrun _ => by
        obtain ⟨_, rfl⟩ := run_pure_eq_ok_iff.1 hrun
        exact hend.bind fun _ _ hbelow => .pure hbelow

end Trees

/-! ## The whole pass -/

/-- A layout that obeys the rules, with exactly the entries of the class tree, is what the walk from
the root finds. -/
theorem classRecords_of_laidOut {root : ClassId} {records : Code}
    (hroot : p.rootClass = .ok (some root)) (hlaid : LaidOut p L .root (p.classTree root) records)
    (hlays : LaysOutNodes p (p.classTree root).nodes (blank p) L) :
    (classRecords p).run (blank p) = .ok (records, L) := by
  have holds : (blank p).Holds ClassLayout.root.vtable := by simp [Holds, ClassLayout.root]
  obtain ⟨_, l, hrun, rfl, hbelow⟩ := hlaid.yields (hlays.offsets offsetsFit_blank)
    (hlays.slots slotsPositive_blank) hlays.growsTo holds hlays.awaits
  obtain rfl := (visit_run hrun).1.eq_of_growsTo hlays hbelow
  rw [classRecords, run_bind_eq_ok_iff]
  exact ⟨some root, blank p, run_liftM_eq_ok_iff.2 ⟨hroot, rfl⟩, hrun⟩

end Layout

end MipsBackend
