import MipsBackend.Proofs.Code.Progress
import MipsBackend.Proofs.Layout.Members
import MipsBackend.Proofs.Layout.Objects
import MipsBackend.Proofs.Layout.Protection

/-!
# Complete layouts cover the program

The code generator looks up classes, methods, instance variables and formal parameters.  A layout
pass that succeeds has visited every class, and on a well-formed program every method and variable
is listed by its owner.  So the layout has an entry for all that code may refer to, and formal
parameters lie between the frame and their receiver.

What the generator computes from an entry fits as well.  The number of scalar fields is bounded by
the offset of the last one (`FieldsTiled.numScalar_fits`), and a slot by the length of its table,
which grows by one with every method that overrides no other (`ClassPlaced.length_vtable`).
-/

namespace MipsBackend

namespace Layout

variable {p : Program} {L : Layout} {data : Code} {c : ClassId} {cdecl : ClassDecl} {m : MethodId}
  {decl : MethodDecl} {x : VarId} {cl inherited : ClassLayout} {vtable vtable' : List MethodId}

theorem VarTypes.eq_map {vars : List VarId} {tys : List Ty} (h : VarTypes p vars tys) :
    tys = vars.map p.varTy := by
  induction h with
  | nil => rfl
  | cons hfirst _ ih =>
    obtain ⟨var, hvar, hty⟩ := hfirst
    rw [List.map_cons, ih, Program.varTy_eq hvar, hty]

/-- A formal parameter lies between the frame and the receiver. -/
theorem FormalsPlaced.exists_offset {tys : List Ty} {receiverOffset : Int}
    (h : FormalsPlaced p L decl.formals tys receiverOffset) (hx : x ∈ decl.formals) :
    ∃ offset, L.varOffset x = .ok offset ∧ 0 ≤ offset ∧ offset ≤ receiverOffset := by
  obtain ⟨k, hk⟩ := List.mem_iff_getElem?.1 hx
  have hle := frameWords_take_le tys (k + 1)
  have hnonneg := frameWords_nonneg (tys.take (k + 1))
  have hreceiver := h.receiver
  refine ⟨_, h.offset hk, ?_, ?_⟩
  · rw [sum_stackBytes, hreceiver, wordSize]
    omega
  · rw [sum_stackBytes, wordSize]
    omega

/-! ## Tables -/

/-- A method adds a slot if it overrides no other. -/
theorem MethodPlaced.length_eq (h : MethodPlaced p L c vtable m vtable') :
    vtable'.length = vtable.length + if p.opensSlot m then 1 else 0 := by
  obtain ⟨decl, ml, _, hdecl, _, _, hassigned⟩ := h
  rw [Program.opensSlot, hdecl]
  generalize ml.slot = slot at hassigned
  cases hassigned with
  | override hover _ _ => simp [hover]
  | opened hover _ => simp [hover]

/-- The methods of a class add as many slots as override no other. -/
theorem ClassPlaced.length_vtable (h : ClassPlaced p L inherited c cdecl cl)
    (hc : p.classAt c = .ok cdecl) : cl.vtable.length =
      inherited.vtable.length + (p.listedMethods c).countP p.opensSlot := by
  have hplaced : ∀ {ms vtable vtable'}, Folds (MethodPlaced p L c) vtable ms vtable' →
      vtable'.length = vtable.length + ms.countP p.opensSlot := by
    intro ms vtable vtable' hfolds
    induction hfolds with
    | nil => rfl
    | cons hfirst _ ih =>
      rw [ih, hfirst.length_eq, List.countP_cons]
      omega
  obtain ⟨_, hfields, hmethods, _⟩ := h.exists_fields
  rw [FieldPlaced.vtable_eq hfields] at hmethods
  rw [Program.listedMethods, hc]
  exact hplaced hmethods

/-- A table has the slots that the methods of the class and of its ancestors open. -/
theorem Complete.exists_length_vtable (h : Complete p L data) (tree : p.IsClassTree)
    (hc : p.classAt c = .ok cdecl) : ∃ cl, L.classAt c = .ok cl ∧
      cl.vtable.length = p.slotCount (c :: (p.lineage c).ancestors) := by
  obtain ⟨root, hrec⟩ := h.exists_recorded tree hc
  refine tree.induction (motive := fun c => ∃ cl, L.classAt c = .ok cl ∧
    cl.vtable.length = p.slotCount (c :: (p.lineage c).ancestors)) ?_ ?_ hc
  · intro r hr
    obtain ⟨decl, hdecl, _⟩ := id hr
    obtain ⟨_, cl, hplaced, ⟨_, rfl⟩ | ⟨s, hs, _⟩⟩ := hrec.exists_classPlaced tree hdecl
    · refine ⟨cl, hplaced.layout, ?_⟩
      rw [hplaced.length_vtable hdecl, (Program.Ancestry.root hr).lineage_eq tree.acyclic]
      simp [Program.slotCount, ClassLayout.root]
    · exact absurd hs hr.not_extends
  · rintro c s hs ⟨scl, hscl, hlength⟩
    obtain ⟨decl, hdecl, _⟩ := id hs
    obtain ⟨sdecl, hsdecl⟩ := tree.superclass_exists hs
    obtain ⟨ancestors, has⟩ := tree.exists_ancestry hsdecl
    obtain ⟨inherited, cl, hplaced, ⟨hr, _⟩ | ⟨s', hs', hsl⟩⟩ := hrec.exists_classPlaced tree hdecl
    · exact absurd hs hr.not_extends
    · obtain rfl := hs.unique hs'
      obtain rfl : scl = inherited := Except.ok.inj (hscl.symm.trans hsl)
      rw [has.lineage_eq tree.acyclic] at hlength
      refine ⟨cl, hplaced.layout, ?_⟩
      rw [hplaced.length_vtable hdecl, hlength,
        (Program.Ancestry.link hs has).lineage_eq tree.acyclic]
      simp [Program.slotCount, Nat.add_comm]

section Covers

variable (wf : p.WellFormed) (h : Complete p L data)
include wf h

/-- The offset of a method's entry fits, since the whole table does. -/
theorem Complete.entryOffset_fits {ml : MethodLayout} (hdecl : p.methodAt m = .ok decl)
    (hml : L.methodAt m = .ok ml) : Offset.Fits ml.entryOffset := by
  obtain ⟨cdecl, hc, _⟩ := wf.methods.listed hdecl
  obtain ⟨cl, hsound⟩ := exists_tableSound wf.tree wf.methods h hc
  obtain ⟨ml', i, target, _, hml', hslot, htarget, _⟩ := hsound.reached hdecl .refl
  obtain rfl : ml = ml' := Except.ok.inj (hml.symm.trans hml')
  obtain ⟨cl', hcl', hlength⟩ := h.exists_length_vtable wf.tree hc
  obtain rfl : cl = cl' := Except.ok.inj (hsound.layout.symm.trans hcl')
  have hlt : i < cl.vtable.length := (List.getElem?_eq_some_iff.1 htarget).1
  have hsmall := (wf.tables_small _ _ hc).2
  have hfits : Offset.Fits (ml.slot * wordSize) := by
    rw [wordSize] at hsmall
    rw [Offset.Fits, wordSize]
    omega
  rw [MethodLayout.entryOffset_eq hfits]
  exact hfits

/-- Every method has a layout, with the receiver above its formal parameters. -/
theorem Complete.exists_formalsPlaced (hdecl : p.methodAt m = .ok decl) :
    ∃ ml, L.methodAt m = .ok ml ∧ ml.receiverOffset = p.receiverOffset decl ∧
      FormalsPlaced p L decl.formals (decl.formals.map p.varTy) ml.receiverOffset := by
  obtain ⟨cdecl, hc, hentry⟩ := wf.methods.listed hdecl
  obtain ⟨_, _, hplaced, _⟩ := h.exists_inherited hc
  obtain ⟨_, _, hmethods, _⟩ := hplaced.exists_fields
  have hmem : m ∈ cdecl.methods.methods := List.mem_map_of_mem (f := Prod.snd) hentry
  obtain ⟨_, _, decl', ml, tys, hdecl', hml, hformals, _⟩ := hmethods.exists_of_mem hmem
  obtain rfl : decl = decl' := Except.ok.inj (hdecl.symm.trans hdecl')
  obtain rfl := hformals.types.eq_map
  exact ⟨ml, hml, hformals.receiver.trans (p.receiverOffset_eq decl).symm, hformals⟩

/-- A complete layout of a well-formed program has all that code may refer to. -/
theorem Complete.covers : L.Covers p where
  classLayout {c} hc := by
    obtain ⟨decl, hdecl⟩ := Program.hasClass_iff.1 hc
    obtain ⟨root, hrooted⟩ := h.exists_rooted hdecl
    obtain ⟨path, hpath⟩ :=
      Program.exists_pathTo hrooted.rootClass hrooted.reflects (hrooted.mem hdecl)
    obtain ⟨cl, hcl, htiled⟩ := hrooted.exists_fieldsTiled hpath
    exact ⟨cl, hcl, htiled.numScalar_fits h.offsetsFit⟩
  methodLayout {m decl} hdecl := by
    obtain ⟨ml, hml, hreceiver, hformals⟩ := h.exists_formalsPlaced wf hdecl
    have hentry := h.entryOffset_fits wf hdecl hml
    have hbelow : Offset.Fits (ml.receiverOffset - wordSize) := by
      have hnonneg := p.receiverOffset_nonneg decl
      have hsmall := hformals.fits.2
      rw [Offset.Fits, wordSize]
      omega
    exact ⟨ml, _, hml, hreceiver, Gen.dispatch_eq_ok_iff.2 ⟨⟨hbelow, hentry⟩, rfl⟩⟩
  instVar {x c} hkind := by
    obtain ⟨var, hvar, hvarKind⟩ := Program.exists_varAt hkind
    have hlisted := wf.vars.listed x var hvar
    rw [hvarKind, Program.lists, decide_eq_true_iff, Program.instVarsOf] at hlisted
    split at hlisted
    · rename_i cdecl hc
      obtain ⟨_, _, hplaced, _⟩ := h.exists_inherited hc
      obtain ⟨_, hfields, _⟩ := hplaced.exists_fields
      obtain ⟨_, _, decl, _, hfield⟩ := hfields.exists_of_mem hlisted
      split at hfield
      · exact ⟨_, hfield.1⟩
      · exact ⟨_, hfield.1⟩
    · cases hlisted
  formal {x m} hkind := by
    obtain ⟨var, hvar, hvarKind⟩ := Program.exists_varAt hkind
    have hlisted := wf.vars.listed x var hvar
    rw [hvarKind, Program.lists, decide_eq_true_iff, formalsOf] at hlisted
    split at hlisted
    · rename_i decl hdecl
      obtain ⟨ml, _, hreceiver, hformals⟩ := h.exists_formalsPlaced wf hdecl
      obtain ⟨offset, hoffset, hlow, hhigh⟩ := hformals.exists_offset hlisted
      have hreach : p.varReach x = p.receiverOffset decl := by
        simp only [Program.varReach, hkind, hdecl]
      exact ⟨offset, hoffset, hlow, by rw [hreach, ← hreceiver]; exact hhigh⟩
    · cases hlisted

end Covers

end Layout

end MipsBackend
