import MipsBackend.Proofs.Layout.Members

/-!
# The layout pass does not fail

On a program that is `Layable` the walk down the class tree succeeds.  `Ready` collects what the
pass knows when it comes to a class.  A root is ready (`ready_root`), and the members of a class
make its subclasses ready (`ready_of_extends`), so that `succeeds_visit` can go by induction on the
tree.

An entry is recorded once, because nothing has two owners: a method is listed by its class only, and
a variable by its class or its method only.  `exists_compute` assembles the pass.
-/

namespace MipsBackend

variable {p : Program} {l l' : Layout} {c s : ClassId} {cdecl : ClassDecl} {m : MethodId}
  {x : VarId} {cl inherited : ClassLayout} {vtable : List MethodId}

namespace Layout

/-! ## Classes -/

/-- What the pass knows when it comes to a class: the table that the class starts from answers names
as its superclass does, and the fields that it inherits have been counted. -/
structure Ready (p : Program) (c : ClassId) (inherited : ClassLayout) (l : Layout) : Prop where
  slots : l.SlotsPositive
  answers : Answers p l c [] inherited.vtable
  counts : inherited.Counts (p.fieldTys (p.lineage c).ancestors) []

theorem Ready.mono {cs : List ClassId} {ms : List MethodId} {vs : List VarId}
    (h : Ready p c inherited l) (hlays : LaysOut cs ms vs l l') : Ready p c inherited l' :=
  ⟨hlays.slots h.slots, h.answers.mono hlays.growsTo, h.counts⟩

/-- A root class starts from nothing. -/
theorem ready_root (tree : p.IsClassTree) (hr : p.IsRoot c) (slots : l.SlotsPositive) :
    Ready p c .root l := by
  refine ⟨slots, answers_of_isRoot hr, ?_⟩
  rw [(Program.Ancestry.root hr).lineage_eq tree.acyclic]
  exact ⟨rfl, rfl⟩

/-- A subclass starts from its superclass, as soon as the members of that have been placed. -/
theorem ready_of_extends (wf : p.Layable) (hc : p.classAt c = .ok cdecl) (hs : p.Extends s c)
    (slots : l.SlotsPositive) (hanswers : Answers p l c cdecl.methods.methods cl.vtable)
    (hcounts : cl.Counts (p.fieldTys (c :: (p.lineage c).ancestors)) []) : Ready p s cl l := by
  obtain ⟨as, has⟩ := wf.tree.exists_ancestry hc
  refine ⟨slots, answers_of_extends wf.tree hs (hanswers.entry_lookup wf.methods hc)
    (hanswers.reached_descends wf.methods hc), ?_⟩
  rw [(Program.Ancestry.link hs has).lineage_eq wf.tree.acyclic]
  rwa [has.lineage_eq wf.tree.acyclic] at hcounts

theorem Answers.exists_decl {placed : List MethodId} (h : Answers p l c placed vtable)
    (hm : m ∈ vtable) : ∃ decl, p.methodAt m = .ok decl := by
  obtain ⟨i, hi⟩ := List.mem_iff_getElem?.1 hm
  obtain ⟨decl, _, hdecl, _⟩ := h.entry hi
  exact ⟨decl, hdecl⟩

/-- The record of a class can be written: its superclass has a name, and its methods have labels. -/
theorem exists_recordBody (methods : p.MethodsLinked) {superclass : Option ClassId}
    (hsuper : ∀ s ∈ superclass, p.hasClass s)
    (hvtable : ∀ m ∈ cl.vtable, ∃ decl, p.methodAt m = .ok decl) :
    ∃ body, recordBody p superclass cl = .ok body := by
  have htable : ∃ table, (cl.vtable.mapM fun m => do
      return Inst.word (.label (← p.methodLabel m)) : Except Fault (List Inst)) = .ok table := by
    refine exists_mapM_eq_ok fun m hm => ?_
    obtain ⟨decl, hdecl⟩ := hvtable m hm
    obtain ⟨label, hlabel⟩ := methods.exists_label hdecl
    exact exists_bind_eq_ok_iff.2 ⟨label, hlabel, exists_pure_eq_ok _⟩
  obtain ⟨table, htable⟩ := htable
  unfold recordBody
  cases superclass with
  | none =>
    refine exists_bind_eq_ok_iff.2 ⟨.int 0, rfl, ?_⟩
    exact exists_bind_eq_ok_iff.2 ⟨table, htable, exists_pure_eq_ok _⟩
  | some s =>
    obtain ⟨sdecl, hsdecl⟩ := Program.hasClass_iff.1 (hsuper s rfl)
    refine exists_bind_eq_ok_iff.2 ⟨sdecl, hsdecl, exists_bind_eq_ok_iff.2 ⟨_, rfl, ?_⟩⟩
    exact exists_bind_eq_ok_iff.2 ⟨table, htable, exists_pure_eq_ok _⟩

theorem exists_arrayRecords (methods : p.MethodsLinked) {root : Option ClassId}
    (hroot : ∀ r ∈ root, p.hasClass r)
    (hvtable : ∀ m ∈ cl.vtable, ∃ decl, p.methodAt m = .ok decl) :
    ∃ arrays, arrayRecords p root cl = .ok arrays := by
  obtain ⟨body, hbody⟩ := exists_recordBody methods hroot hvtable
  exact exists_bind_eq_ok_iff.2 ⟨body, hbody, exists_pure_eq_ok _⟩

/-- A class can be recorded if the methods of its table exist, and so can arrays be below it. -/
theorem exists_records (wf : p.Layable) (hc : p.classAt c = .ok cdecl) (cl : ClassLayout)
    (hvtable : ∀ m ∈ cl.vtable, ∃ decl, p.methodAt m = .ok decl) :
    (∃ body, recordBody p cdecl.superclass cl = .ok body) ∧
      ∃ arrays, arrayRecords p (some c) cl = .ok arrays := by
  refine ⟨exists_recordBody wf.methods (fun s hs => ?_) hvtable,
    exists_arrayRecords wf.methods (fun r hr => ?_) hvtable⟩
  · exact Program.hasClass_iff.2 (wf.tree.superclass_exists ⟨cdecl, hc, hs⟩)
  · cases hr
    exact Program.hasClass_iff.2 ⟨cdecl, hc⟩

/-! ## The class tree -/

/-- The given classes have yet to be visited. -/
abbrev AwaitsNodes (p : Program) (nodes : List (ClassId × ClassDecl)) : Layout → Prop :=
  Awaits (nodes.map Prod.fst) (methodsOf nodes) (varsOf p nodes)

section Tree

variable {nodes nodes' : List (ClassId × ClassDecl)}

theorem AwaitsNodes.left (h : AwaitsNodes p (nodes ++ nodes') l) : AwaitsNodes p nodes l := by
  simp only [AwaitsNodes, methodsOf, varsOf, List.map_append, List.flatMap_append] at h ⊢
  exact Awaits.left h

theorem AwaitsNodes.after (h : AwaitsNodes p (nodes ++ nodes') l)
    (hlays : LaysOutNodes p nodes l l') : AwaitsNodes p nodes' l' := by
  simp only [AwaitsNodes, methodsOf, varsOf, List.map_append, List.flatMap_append] at h ⊢
  exact Awaits.after h hlays

/-- Sibling trees can be visited one after the other, if each can be on its own. -/
theorem succeeds_visitAll {trees : List (Unit → ClassTree)}
    (htrees : ∀ tree ∈ trees, ∀ {l : Layout}, Ready p (tree ()).id cl l →
      AwaitsNodes p (tree ()).nodes l → Succeeds (visit p cl (tree ())) l fun _ _ => True)
    (hready : ∀ tree ∈ trees, Ready p (tree ()).id cl l)
    (hawaits : AwaitsNodes p (ClassTree.nodesAll trees) l) :
    Succeeds (visitAll p cl trees) l fun _ _ => True := by
  induction trees generalizing l with
  | nil => exact succeeds_pure_iff.2 trivial
  | cons tree trees ih =>
    rw [List.forall_mem_cons] at htrees hready
    rw [visitAll, succeeds_bind_iff]
    refine (htrees.1 hready.1 hawaits.left).of_run ?_
    intro code l₁ hrun _
    obtain ⟨hlays, _⟩ := visit_run hrun
    refine succeeds_bind_iff.2 ((ih htrees.2 (fun t ht => (hready.2 t ht).mono hlays)
      (hawaits.after hlays)).mono ?_)
    exact fun _ _ _ => succeeds_pure_iff.2 trivial

section Visit

variable (wf : p.Layable) (hc : p.classAt c = .ok cdecl) (hready : Ready p c inherited l)
include wf hc hready

/-- The fields of a class can be placed. -/
theorem Ready.succeeds_placeFields (hblank : Blank cdecl.instVars l.vars) :
    Succeeds (cdecl.instVars.foldlM (placeField p) inherited) l fun fields l' =>
      fields.Counts (p.fieldTys (c :: (p.lineage c).ancestors)) [] ∧
        fields.vtable = inherited.vtable ∧ LaysOut [] [] cdecl.instVars l l' := by
  have hvars : ∀ x ∈ cdecl.instVars, ∃ var, p.varAt x = .ok var := by
    intro x hx
    obtain ⟨var, hvar, _⟩ := Program.exists_varAt ((wf.vars.instVars c cdecl hc).2 x hx)
    exact ⟨var, hvar⟩
  have hown : p.instVarsOf c = cdecl.instVars := by
    rw [Program.instVarsOf, hc]
  have hcounts : inherited.Counts (p.fieldTys (c :: (p.lineage c).ancestors))
      (cdecl.instVars.map p.varTy) := by
    obtain ⟨hscalars, hreferences⟩ := hready.counts
    rw [List.countP_nil, Nat.add_zero] at hscalars hreferences
    constructor
    · rw [Program.fieldTys, List.flatMap_cons, hown, List.countP_append, hscalars]
      exact Nat.add_comm _ _
    · rw [Program.fieldTys, List.flatMap_cons, hown, List.countP_append, hreferences]
      exact Nat.add_comm _ _
  obtain ⟨hlow, hhigh⟩ := wf.objects_small c cdecl hc
  refine (Layout.succeeds_placeFields hvars hblank hcounts hlow hhigh).of_run ?_
  intro fields l' hrun hcounts'
  obtain ⟨hlays, hfolds⟩ := placeFields_run hrun
  exact ⟨hcounts', FieldPlaced.vtable_eq (hfolds ⟨id, id, id⟩), hlays⟩

end Visit

/-- A tree of classes can be visited as soon as its superclass is laid out. -/
theorem succeeds_visit (wf : p.Layable) {t : ClassTree} (hreflects : t.Reflects p)
    (hready : Ready p t.id inherited l) (hawaits : AwaitsNodes p t.nodes l) :
    Succeeds (visit p inherited t) l fun _ _ => True := by
  induction t generalizing inherited l with
  | broken id fault => exact hreflects.elim
  | node id decl subclasses ih =>
    obtain ⟨hdecl, hids, hwhole⟩ := hreflects
    rw [ClassTree.reflectsAll_iff] at hwhole
    obtain ⟨hclasses, hmethods, hvars⟩ := hawaits
    rw [ClassTree.nodes, methodsOf, List.flatMap_cons] at hmethods
    rw [ClassTree.nodes, varsOf, List.flatMap_cons, List.append_assoc] at hvars
    unfold visit
    -- The members of the class.
    refine succeeds_bind_iff.2 ((hready.succeeds_placeFields wf hdecl hvars.left).mono ?_)
    rintro fields l₁ ⟨hcounts, hinherited, hlays₁⟩
    have hvars₁ := hvars.after hlays₁.vars
    have hmethods₁ := hmethods.after_none hlays₁.methods
    have hanswers₁ := hready.answers.mono hlays₁.growsTo
    have slots₁ : l₁.SlotsPositive := hlays₁.slots hready.slots
    rw [← hinherited] at hanswers₁
    refine succeeds_bind_iff.2 ?_
    refine (succeeds_placeMethods wf hdecl hanswers₁ slots₁ hmethods₁.left hvars₁.left).of_run ?_
    intro vtable l₂ hrun₂ hanswers₂
    obtain ⟨hlays₂, _⟩ := placeMethods_run hrun₂
    have hvars₂ := hvars₁.after hlays₂.vars
    have hmethods₂ := hmethods₁.after hlays₂.methods
    have slots₂ : l₂.SlotsPositive := hlays₂.slots slots₁
    -- Its record.
    obtain ⟨⟨body, hbody⟩, arrays, harrays⟩ := exists_records wf hdecl { fields with vtable }
      fun m hm => hanswers₂.exists_decl hm
    refine succeeds_liftM_bind hbody ?_
    -- Its descendants.
    have hsub : ∀ sub ∈ subclasses, Ready p (sub ()).id { fields with vtable } l₂ := by
      intro sub hsub
      refine ready_of_extends wf hdecl ((wf.tree.mirror _ _).2 ⟨decl, hdecl, ?_⟩) slots₂ hanswers₂
        ⟨hcounts.scalars, hcounts.references⟩
      rw [hids]
      exact List.mem_map_of_mem hsub
    have hclasses₂ := ((hclasses.perm (List.perm_append_singleton _ _).symm).after_none
      hlays₁.classes).after_none hlays₂.classes
    have hawaits₂ : AwaitsNodes p (ClassTree.nodesAll subclasses) l₂ :=
      ⟨hclasses₂.left, hmethods₂, hvars₂⟩
    refine succeeds_bind_iff.2 ((succeeds_visitAll (fun sub hsub _ hready hawaits =>
      ih sub hsub (hwhole sub hsub) hready hawaits) hsub hawaits₂).of_run ?_)
    intro descendants l₃ hrun₃ _
    obtain ⟨hlays₃, _⟩ := visitAll_run hrun₃
    have hfree := (hclasses₂.after hlays₃.classes).free List.mem_cons_self
    have hend : Succeeds (LayoutM.recordClass id { fields with vtable }) l₃ fun _ _ => True :=
      succeeds_recordClass hfree
    -- The records of arrays, below a root.
    split
    · refine succeeds_liftM_bind harrays ?_
      exact succeeds_bind_iff.2 (hend.mono fun _ _ _ => succeeds_pure_iff.2 trivial)
    · refine succeeds_bind_iff.2 (succeeds_pure_iff.2 ?_)
      exact succeeds_bind_iff.2 (hend.mono fun _ _ _ => succeeds_pure_iff.2 trivial)

end Tree

/-! ## Owners -/

/-- The class that a variable belongs to, itself or through its method. -/
def homeOf (p : Program) (x : VarId) : Option ClassId :=
  match p.kindOf x with
  | some (.instVar c) => some c
  | some (.formal m) => (p.methodAt m).toOption.map MethodDecl.owner
  | _ => none

/-- The formal parameters of a method belong to it. -/
theorem kindOf_of_mem_formalsOf (vars : p.VarsLinked) (hx : x ∈ formalsOf p m) :
    p.kindOf x = some (.formal m) := by
  unfold formalsOf at hx
  split at hx
  · rename_i decl hdecl
    exact (vars.formals m decl hdecl).2 x hx
  · cases hx

/-- A class lists no method twice, since a method has one name. -/
theorem nodup_methods (methods : p.MethodsLinked) (hc : p.classAt c = .ok cdecl) :
    cdecl.methods.methods.Nodup := by
  refine List.pairwise_map.2 ((List.pairwise_map.1 cdecl.methods.nodup).imp_of_mem ?_)
  intro entry entry' hentry hentry' hne hsame
  obtain ⟨decl, hdecl, hname, _⟩ := methods.owned hc hentry
  obtain ⟨decl', hdecl', hname', _⟩ := methods.owned hc hentry'
  rw [hsame, hdecl'] at hdecl
  obtain rfl := Except.ok.inj hdecl
  exact hne (hname.symm.trans hname')

theorem getElem?_replicate_of_lookup {α β : Type} {sort : NodeSort} {arena : Array α}
    {id : NodeId sort} {node : α} (h : lookup arena id = .ok node) :
    (Array.replicate arena.size (none : Option β))[id.toNat]? = some none := by
  have hlt := (Array.getElem?_eq_some_iff.1 (lookup_eq_ok_iff.1 h)).1
  rw [Array.getElem?_replicate, if_pos hlt]

section Owners

variable (wf : p.Layable) {nodes : List (ClassId × ClassDecl)}
  (hnodes : ∀ node ∈ nodes, p.classAt node.1 = .ok node.2) (hnodup : (nodes.map Prod.fst).Nodup)
include wf hnodes hnodup

theorem nodup_methodsOf : (methodsOf nodes).Nodup := by
  refine List.nodup_flatMap.2 ⟨fun node hnode => nodup_methods wf.methods (hnodes node hnode), ?_⟩
  refine (List.pairwise_map.1 hnodup).imp_of_mem ?_
  intro node node' hnode hnode' hne m hm hm'
  obtain ⟨decl, hdecl, howner⟩ := wf.methods.exists_owned (hnodes node hnode) hm
  obtain ⟨decl', hdecl', howner'⟩ := wf.methods.exists_owned (hnodes node' hnode') hm'
  obtain rfl : decl = decl' := Except.ok.inj (hdecl.symm.trans hdecl')
  exact hne (howner.symm.trans howner')

omit hnodup in
theorem homeOf_of_mem {node : ClassId × ClassDecl} (hnode : node ∈ nodes)
    (hx : x ∈ node.2.instVars ++ node.2.methods.methods.flatMap (formalsOf p)) :
    homeOf p x = some node.1 := by
  rw [homeOf]
  rcases List.mem_append.1 hx with hx | hx
  · rw [(wf.vars.instVars node.1 node.2 (hnodes node hnode)).2 x hx]
  · obtain ⟨m, hm, hx⟩ := List.mem_flatMap.1 hx
    obtain ⟨decl, hdecl, howner⟩ := wf.methods.exists_owned (hnodes node hnode) hm
    simp only [kindOf_of_mem_formalsOf wf.vars hx, hdecl, ← howner]
    rfl

theorem nodup_varsOf : (varsOf p nodes).Nodup := by
  refine List.nodup_flatMap.2 ⟨fun node hnode => ?_, ?_⟩
  · have hinstVars := wf.vars.instVars node.1 node.2 (hnodes node hnode)
    refine List.nodup_append.2 ⟨hinstVars.1, List.nodup_flatMap.2 ⟨fun m hm => ?_, ?_⟩, ?_⟩
    · obtain ⟨decl, hdecl, _⟩ := wf.methods.exists_owned (hnodes node hnode) hm
      rw [formalsOf, hdecl]
      exact (wf.vars.formals m decl hdecl).1
    · refine (nodup_methods wf.methods (hnodes node hnode)).imp ?_
      intro m m' hne x hx hx'
      have hkind := kindOf_of_mem_formalsOf wf.vars hx
      rw [kindOf_of_mem_formalsOf wf.vars hx'] at hkind
      cases hkind
      exact hne rfl
    · rintro x hx _ hx' rfl
      obtain ⟨m, _, hx'⟩ := List.mem_flatMap.1 hx'
      have hkind := kindOf_of_mem_formalsOf wf.vars hx'
      rw [hinstVars.2 x hx] at hkind
      cases hkind
  · refine (List.pairwise_map.1 hnodup).imp_of_mem ?_
    intro node node' hnode hnode' hne x hx hx'
    have hhome := homeOf_of_mem wf hnodes hnode hx
    rw [homeOf_of_mem wf hnodes hnode' hx'] at hhome
    exact hne (Option.some.inj hhome).symm

/-- On an empty layout nothing was recorded. -/
theorem awaitsNodes_blank : AwaitsNodes p nodes (blank p) := by
  refine ⟨⟨fun {c} hc => ?_, hnodup⟩, ⟨fun {m} hm => ?_, nodup_methodsOf wf hnodes hnodup⟩,
    ⟨fun {x} hx => ?_, nodup_varsOf wf hnodes hnodup⟩⟩
  · obtain ⟨node, hnode, rfl⟩ := List.mem_map.1 hc
    exact getElem?_replicate_of_lookup (hnodes node hnode)
  · obtain ⟨node, hnode, hm⟩ := List.mem_flatMap.1 hm
    obtain ⟨decl, hdecl, _⟩ := wf.methods.exists_owned (hnodes node hnode) hm
    exact getElem?_replicate_of_lookup hdecl
  · obtain ⟨node, hnode, hx⟩ := List.mem_flatMap.1 hx
    have hhome := homeOf_of_mem wf hnodes hnode hx
    cases hkind : p.kindOf x with
    | none =>
      rw [homeOf, hkind] at hhome
      cases hhome
    | some kind =>
      obtain ⟨var, hvar, _⟩ := Program.exists_varAt hkind
      exact getElem?_replicate_of_lookup hvar

end Owners

/-! ## The whole pass -/

/-- A string literal can be written if a word more than its length fits. -/
theorem exists_stringLiteral (record : String) (id : ExprId) {text : String}
    (hfits : Offset.Fits (text.utf8ByteSize + wordSize)) :
    ∃ insts, stringLiteral record id text = .ok insts := by
  have hlength : (Int32.ofNat text.utf8ByteSize).toInt = text.utf8ByteSize := by
    refine Int32.toInt_ofNat_of_lt ?_
    have hsmall := hfits.2
    simp only [wordSize] at hsmall
    omega
  exact ⟨_, stringLiteral_eq_ok_iff.2 ⟨hlength ▸ hfits, rfl⟩⟩

/-- A word more than the length of a literal that was written fits. -/
theorem literals_fit {literals : Code} (h : stringLiterals p = .ok literals) :
    ∀ literal ∈ p.stringLiterals,
      Offset.Fits ((Int32.ofNat literal.2.2.utf8ByteSize).toInt + wordSize) := by
  intro literal hliteral
  obtain ⟨_, codes, _, hcodes, _⟩ := stringLiterals_eq_ok h
  obtain ⟨_, _, insts, _, hinsts⟩ := exists_of_mem_forall₂ hcodes.flip hliteral
  exact (stringLiteral_eq_ok_iff.1 hinsts).1

section Compute

variable (wf : p.Layable)
include wf

theorem exists_stringLiterals : ∃ literals, stringLiterals p = .ok literals := by
  have hliterals : ∀ record, ∃ literals, p.stringLiterals.mapM (fun literal => do
      return Code.of literal.2.1.span (← stringLiteral record literal.1 literal.2.2)) =
        .ok literals := by
    intro record
    refine exists_mapM_eq_ok fun literal hliteral => ?_
    obtain ⟨insts, hinsts⟩ :=
      exists_stringLiteral record literal.1 (wf.literals_small literal hliteral)
    exact exists_bind_eq_ok_iff.2 ⟨insts, hinsts, exists_pure_eq_ok _⟩
  unfold stringLiterals
  cases hstring : p.stringClass with
  | none =>
    obtain ⟨literals, hliterals⟩ := hliterals scalarArrayRecord
    refine exists_bind_eq_ok_iff.2 ⟨scalarArrayRecord, rfl, ?_⟩
    exact exists_bind_eq_ok_iff.2 ⟨literals, hliterals, exists_pure_eq_ok _⟩
  | some c =>
    have hclass := wf.stringClass
    rw [hstring, Option.all_some, Program.hasClass_iff] at hclass
    obtain ⟨decl, hdecl⟩ := hclass
    obtain ⟨literals, hliterals⟩ := hliterals decl.name
    refine exists_bind_eq_ok_iff.2 ⟨decl, hdecl, exists_bind_eq_ok_iff.2 ⟨decl.name, rfl, ?_⟩⟩
    exact exists_bind_eq_ok_iff.2 ⟨literals, hliterals, exists_pure_eq_ok _⟩

/-- The walk from the root succeeds and reaches every class. -/
theorem succeeds_classRecords : Succeeds (classRecords p) (blank p) fun _ l =>
    l.classes.size = p.classes.size ∧
      ∀ c decl, p.classAt c = .ok decl → ∃ cl, l.classAt c = .ok cl := by
  have hsize : (blank p).classes.size = p.classes.size := Array.size_replicate
  unfold classRecords
  rcases wf.tree.exists_rootClass with ⟨hnone, hempty⟩ | ⟨root, hroot, hisRoot⟩
  · refine succeeds_liftM_bind hnone ?_
    obtain ⟨arrays, harrays⟩ : ∃ arrays, arrayRecords p none .root = .ok arrays :=
      exists_arrayRecords wf.methods (by simp) (by simp [ClassLayout.root])
    refine succeeds_liftM_bind harrays ?_
    refine succeeds_pure_iff.2 ⟨hsize, fun c decl hc => ?_⟩
    have hlt := (Array.getElem?_eq_some_iff.1 (lookup_eq_ok_iff.1 hc)).1
    omega
  · have hreflects := wf.tree.reflects_classTree hisRoot
    have hnodup := hreflects.nodup_classes wf.tree.isForest wf.subclasses_nodup
    have hawaits := awaitsNodes_blank wf (fun _ hnode => hreflects.classAt_of_mem hnode) hnodup
    have hready : Ready p (p.classTree root).id .root (blank p) := by
      rw [Program.id_classTree]
      exact ready_root wf.tree hisRoot slotsPositive_blank
    refine succeeds_liftM_bind hroot ?_
    refine (succeeds_visit wf hreflects hready hawaits).of_run ?_
    intro code l hrun _
    obtain ⟨hlays, _⟩ := visit_run hrun
    refine ⟨hlays.classes.size.trans hsize, fun c decl hc => ?_⟩
    have hmem : c ∈ (p.classTree root).classes := by
      rw [hreflects.mem_classes_iff wf.tree.isForest, Program.id_classTree]
      exact wf.tree.descends_root hisRoot hc
    obtain ⟨cl, hcl⟩ := hlays.classes.written hmem
    exact ⟨cl, classAt_eq_ok_iff.2 hcl⟩

/-- A program with sound declarations of moderate size can be laid out. -/
theorem exists_compute_of_layable : ∃ L data, compute p = .ok (L, data) := by
  obtain ⟨records, L, hrun, hsize, hlayouts⟩ := succeeds_classRecords wf
  obtain ⟨literals, hliterals⟩ := exists_stringLiterals wf
  refine ⟨L, _, compute_eq_ok_iff.2 ⟨records, literals, hrun, hliterals, fun entry hentry => ?_,
    rfl⟩⟩
  obtain ⟨i, hi, rfl⟩ := List.mem_iff_getElem.1 hentry
  rw [List.length_zip, Array.length_toList, Array.length_toList, hsize, Nat.min_self] at hi
  -- Every position is an identifier.
  have hlt : i < 2 ^ 32 := Nat.lt_of_lt_of_le hi wf.classes_small
  have hid : (NodeId.ofNat i : ClassId).toNat = i := NodeId.toNat_ofNat hlt
  have hc : p.classAt (.ofNat i) = .ok p.classes[i] := by
    rw [Program.classAt, lookup_eq_ok_iff, hid]
    exact Array.getElem?_eq_getElem hi
  obtain ⟨cl, hcl⟩ := hlayouts _ _ hc
  rw [classAt_eq_ok_iff, hid] at hcl
  obtain ⟨_, hcl⟩ := Array.getElem?_eq_some_iff.1 hcl
  simp [hcl]

end Compute

/-- A well-formed program can be laid out. -/
theorem exists_compute (wf : p.WellFormed) : ∃ L data, compute p = .ok (L, data) :=
  exists_compute_of_layable wf.layable

end Layout

end MipsBackend
