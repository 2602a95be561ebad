import MipsBackend.Proofs.Hierarchy.Tree

/-!
# Walking down the class tree

`Program.classTree` unfolds the subclass lists into a tree.  `nodes` lists its classes, each before
its descendants, and `Reflects` says that the unfolding met no fault.  On a well-linked hierarchy
the classes of such a tree are the descendants of the class at its root (`mem_classes_iff`).
-/

namespace MipsBackend

@[simp] theorem Program.id_classTree (p : Program) (c : ClassId) : (p.classTree c).id = c :=
  p.id_unfoldClass _ c

/-- Different subclasses of a class have no descendant in common: one of them would be above the
other, hence above the class itself. -/
theorem Program.IsForest.eq_of_common_descendant {p : Program} {c d d' s : ClassId}
    (forest : p.IsForest) (hd : p.Extends d s) (hd' : p.Extends d' s) (hc : p.Descends c d)
    (hc' : p.Descends c d') : d = d' := by
  have hright : Relator.RightUnique p.Extends := fun _ _ _ h h' => h.unique h'
  have hbelow : ∀ {d d'}, p.Extends d s → p.Extends d' s → p.Descends d d' → d = d' := by
    intro d d' hd hd' hdesc
    rcases hdesc.cases_head with heq | ⟨t, ht, hrest⟩
    · exact heq
    · obtain rfl := ht.unique hd
      exact absurd (Relation.TransGen.tail' hrest hd') (forest.acyclic _)
  rcases Relation.ReflTransGen.total_of_right_unique hright hc hc' with hdesc | hdesc
  · exact hbelow hd hd' hdesc
  · exact (hbelow hd' hd hdesc).symm

namespace ClassTree

mutual

/-- The classes of a tree with their declarations, each before its descendants. -/
def nodes : ClassTree → List (ClassId × ClassDecl)
  | .broken _ _ => []
  | .node id decl subclasses => (id, decl) :: nodesAll subclasses

/-- The classes of some trees, one tree after the other. -/
def nodesAll : List (Unit → ClassTree) → List (ClassId × ClassDecl)
  | [] => []
  | tree :: trees => nodes (tree ()) ++ nodesAll trees

end

/-- The classes of a tree, each before its descendants. -/
def classes (t : ClassTree) : List ClassId :=
  t.nodes.map Prod.fst

mutual

/-- The tree is whole, and every node has the declaration and the subclasses that the program gives
it. -/
def Reflects (p : Program) : ClassTree → Prop
  | .broken _ _ => False
  | .node id decl subclasses => p.classAt id = .ok decl ∧
      decl.subclasses = subclasses.map (fun tree => (tree ()).id) ∧ ReflectsAll p subclasses

/-- The trees are all whole. -/
def ReflectsAll (p : Program) : List (Unit → ClassTree) → Prop
  | [] => True
  | tree :: trees => Reflects p (tree ()) ∧ ReflectsAll p trees

end

variable {p : Program} {c d : ClassId} {decl : ClassDecl}

theorem reflectsAll_iff {trees : List (Unit → ClassTree)} :
    ReflectsAll p trees ↔ ∀ tree ∈ trees, (tree ()).Reflects p := by
  induction trees with
  | nil => simp [ReflectsAll]
  | cons tree trees ih => simp [ReflectsAll, ih]

theorem mem_nodesAll {node : ClassId × ClassDecl} {trees : List (Unit → ClassTree)} :
    node ∈ nodesAll trees ↔ ∃ tree ∈ trees, node ∈ (tree ()).nodes := by
  induction trees with
  | nil => simp [nodesAll]
  | cons tree trees ih => simp [nodesAll, ih]

theorem mem_classes_node {id : ClassId} {subclasses : List (Unit → ClassTree)} :
    c ∈ (ClassTree.node id decl subclasses).classes ↔
      c = id ∨ ∃ tree ∈ subclasses, c ∈ (tree ()).classes := by
  simp only [classes, nodes, List.map_cons, List.mem_cons, List.mem_map, mem_nodesAll]
  constructor
  · rintro (rfl | ⟨node, ⟨tree, htree, hnode⟩, rfl⟩)
    · exact Or.inl rfl
    · exact Or.inr ⟨tree, htree, node, hnode, rfl⟩
  · rintro (rfl | ⟨tree, htree, node, hnode, rfl⟩)
    · exact Or.inl rfl
    · exact Or.inr ⟨node, ⟨tree, htree, hnode⟩, rfl⟩

theorem Reflects.id_mem_classes {t : ClassTree} (h : t.Reflects p) : t.id ∈ t.classes := by
  cases t with
  | broken id fault => exact h.elim
  | node id decl subclasses => simp [classes, nodes, ClassTree.id]

/-- The declarations in a whole tree are those of the program. -/
theorem Reflects.classAt_of_mem {t : ClassTree} (h : t.Reflects p) (hmem : (c, decl) ∈ t.nodes) :
    p.classAt c = .ok decl := by
  induction t with
  | broken id fault => exact h.elim
  | node id decl' subclasses ih =>
    obtain ⟨hdecl, _, hall⟩ := h
    rcases List.mem_cons.1 hmem with heq | hmem
    · obtain ⟨rfl, rfl⟩ := Prod.mk.inj heq
      exact hdecl
    · obtain ⟨tree, htree, hnode⟩ := mem_nodesAll.1 hmem
      exact ih tree htree (reflectsAll_iff.1 hall tree htree) hnode

theorem Reflects.exists_of_mem {t : ClassTree} (h : t.Reflects p) (hmem : c ∈ t.classes) :
    ∃ decl, (c, decl) ∈ t.nodes ∧ p.classAt c = .ok decl := by
  obtain ⟨⟨_, decl⟩, hnode, rfl⟩ := List.mem_map.1 hmem
  exact ⟨decl, hnode, h.classAt_of_mem hnode⟩

/-- A whole tree holds the subclasses of its classes. -/
theorem Reflects.subclass_mem {t : ClassTree} (h : t.Reflects p) (hmem : c ∈ t.classes)
    (hsub : p.HasSubclass c d) : d ∈ t.classes := by
  induction t with
  | broken id fault => exact h.elim
  | node id decl subclasses ih =>
    obtain ⟨hdecl, hids, hall⟩ := h
    rcases mem_classes_node.1 hmem with rfl | ⟨tree, htree, hc⟩
    · obtain ⟨decl', hdecl', hd⟩ := hsub
      obtain rfl : decl = decl' := Except.ok.inj (hdecl.symm.trans hdecl')
      rw [hids] at hd
      obtain ⟨tree, htree, rfl⟩ := List.mem_map.1 hd
      have hreflects := reflectsAll_iff.1 hall tree htree
      exact mem_classes_node.2 (Or.inr ⟨tree, htree, hreflects.id_mem_classes⟩)
    · exact mem_classes_node.2 (Or.inr ⟨tree, htree,
        ih tree htree (reflectsAll_iff.1 hall tree htree) hc⟩)

/-- A whole tree holds the descendants of the class at its root. -/
theorem Reflects.mem_classes_iff {t : ClassTree} (h : t.Reflects p) (forest : p.IsForest) :
    c ∈ t.classes ↔ p.Descends c t.id := by
  constructor
  · intro hmem
    induction t with
    | broken id fault => exact h.elim
    | node id decl subclasses ih =>
      obtain ⟨hdecl, hids, hall⟩ := h
      rcases mem_classes_node.1 hmem with rfl | ⟨sub, hsub, hc⟩
      · exact Relation.ReflTransGen.refl
      · have hup : p.Extends (sub ()).id id := by
          refine (forest.mirror _ _).2 ⟨decl, hdecl, ?_⟩
          rw [hids]
          exact List.mem_map_of_mem hsub
        exact (ih sub hsub (reflectsAll_iff.1 hall sub hsub) hc).tail hup
  · intro hdesc
    induction hdesc using Relation.ReflTransGen.head_induction_on with
    | refl => exact h.id_mem_classes
    | head hstep _ ih => exact h.subclass_mem ih ((forest.mirror _ _).1 hstep)

theorem nodesAll_eq_flatMap (trees : List (Unit → ClassTree)) :
    nodesAll trees = trees.flatMap fun tree => (tree ()).nodes := by
  induction trees with
  | nil => rfl
  | cons tree trees ih => rw [nodesAll, ih, List.flatMap_cons]

/-- The class at the root comes first, then come those of the subtrees. -/
theorem classes_node (id : ClassId) (decl : ClassDecl) (subclasses : List (Unit → ClassTree)) :
    (ClassTree.node id decl subclasses).classes =
      id :: subclasses.flatMap fun sub => (sub ()).classes := by
  rw [classes, nodes, nodesAll_eq_flatMap, List.map_cons, List.map_flatMap]
  rfl

/-- A whole tree can be walked. -/
theorem Reflects.preorder_eq {t : ClassTree} (h : t.Reflects p) : t.preorder = .ok t.classes := by
  induction t with
  | broken id fault => exact h.elim
  | node id decl subclasses ih =>
    have hall : preorderAll subclasses = .ok ((nodesAll subclasses).map Prod.fst) := by
      have hwhole := reflectsAll_iff.1 h.2.2
      clear h
      induction subclasses with
      | nil => rfl
      | cons tree trees ihs =>
        have hfirst := ih tree List.mem_cons_self (hwhole tree List.mem_cons_self)
        have hrest := ihs (fun t ht => ih t (List.mem_cons_of_mem tree ht))
          fun t ht => hwhole t (List.mem_cons_of_mem tree ht)
        rw [preorderAll, hfirst, hrest, nodesAll, List.map_append]
        rfl
    rw [preorder, hall]
    rfl

/-- A whole tree has every class once, if classes list each subclass once. -/
theorem Reflects.nodup_classes {t : ClassTree} (h : t.Reflects p) (forest : p.IsForest)
    (hnodup : ∀ c decl, p.classAt c = .ok decl → decl.subclasses.Nodup) : t.classes.Nodup := by
  induction t with
  | broken id fault => exact h.elim
  | node id decl subclasses ih =>
    obtain ⟨hdecl, hids, hall⟩ := h
    rw [reflectsAll_iff] at hall
    have hup : ∀ sub ∈ subclasses, p.Extends (sub ()).id id := by
      intro sub hsub
      refine (forest.mirror _ _).2 ⟨decl, hdecl, ?_⟩
      rw [hids]
      exact List.mem_map_of_mem hsub
    have hdesc : ∀ sub ∈ subclasses, ∀ c ∈ (sub ()).classes, p.Descends c (sub ()).id :=
      fun sub hsub c hc => ((hall sub hsub).mem_classes_iff forest).1 hc
    rw [classes_node, List.nodup_cons, List.nodup_flatMap]
    refine ⟨?_, fun sub hsub => ih sub hsub (hall sub hsub), ?_⟩
    · intro hmem
      obtain ⟨sub, hsub, hid⟩ := List.mem_flatMap.1 hmem
      exact forest.acyclic id (Relation.TransGen.tail' (hdesc sub hsub id hid) (hup sub hsub))
    · have hdistinct : subclasses.Pairwise fun sub sub' => (sub ()).id ≠ (sub' ()).id :=
        List.pairwise_map.1 (hids ▸ hnodup id decl hdecl)
      refine hdistinct.imp_of_mem ?_
      intro sub sub' hsub hsub' hne c hc hc'
      exact hne (forest.eq_of_common_descendant (hup sub hsub) (hup sub' hsub')
        (hdesc sub hsub c hc) (hdesc sub' hsub' c hc'))

end ClassTree

namespace Program

variable {p : Program} {c root : ClassId} {as : List ClassId}

/-! ## Walks on well-linked hierarchies -/

/-- On a well-linked hierarchy the bound of the walk down is not met: a class that is reached has
fewer strict ancestors than there are classes. -/
theorem Ancestry.reflects_unfoldClass (h : p.Ancestry c as) (forest : p.IsForest) {bound : Nat}
    (hbound : p.classes.size ≤ as.length + bound) : (p.unfoldClass bound c).Reflects p := by
  induction bound generalizing c as with
  | zero =>
    have hlength := h.length_lt_size forest.acyclic
    omega
  | succ bound ih =>
    obtain ⟨decl, hdecl⟩ := h.exists_decl
    unfold unfoldClass
    rw [hdecl]
    refine ⟨hdecl, by simp [Function.comp_def], ClassTree.reflectsAll_iff.2 fun sub hsub => ?_⟩
    obtain ⟨d, hd, rfl⟩ := List.mem_map.1 hsub
    refine ih (.link ((forest.mirror d c).2 ⟨decl, hdecl, hd⟩) h) ?_
    rw [List.length_cons]
    omega

theorem IsForest.reflects_classTree (forest : p.IsForest) {decl : ClassDecl}
    (hc : p.classAt c = .ok decl) : (p.classTree c).Reflects p := by
  obtain ⟨as, has⟩ := forest.exists_ancestry hc
  exact has.reflects_unfoldClass forest (Nat.le_add_left _ _)

theorem IsClassTree.reflects_classTree (tree : p.IsClassTree) (hroot : p.IsRoot root) :
    (p.classTree root).Reflects p :=
  tree.isForest.reflects_classTree hroot.choose_spec.1

/-- The last strict ancestor is a root. -/
theorem Ancestry.isRoot_getLast (h : p.Ancestry c as) : p.IsRoot (as.getLast?.getD c) := by
  induction h with
  | root hroot => exact hroot
  | link _ _ ih =>
    rw [List.getLast?_cons, Option.getD_some]
    exact ih

/-- A class tree has a root, unless there is no class at all. -/
theorem IsClassTree.exists_rootClass (tree : p.IsClassTree) :
    (p.rootClass = .ok none ∧ p.classes.size = 0) ∨
      ∃ root, p.rootClass = .ok (some root) ∧ p.IsRoot root := by
  unfold rootClass
  by_cases hempty : p.classes.isEmpty
  · rw [if_pos hempty]
    exact Or.inl ⟨rfl, Array.isEmpty_iff_size_eq_zero.1 hempty⟩
  · rw [if_neg hempty]
    have hsize : 0 < p.classes.size := by
      rw [Array.isEmpty_iff_size_eq_zero] at hempty
      omega
    have hfirst : p.classAt ⟨0⟩ = .ok p.classes[0] :=
      lookup_eq_ok_iff.2 (Array.getElem?_eq_getElem hsize)
    obtain ⟨as, has⟩ := tree.exists_ancestry hfirst
    have hup : p.superclasses ⟨0⟩ = .ok as := by
      rw [superclasses, has.lineage_eq tree.acyclic]
      rfl
    refine Or.inr ⟨_, bind_eq_ok_iff.2 ⟨as, hup, rfl⟩, has.isRoot_getLast⟩

/-- All classes hang below the root. -/
theorem IsClassTree.descends_root (tree : p.IsClassTree) (hroot : p.IsRoot root)
    {decl : ClassDecl} (hc : p.classAt c = .ok decl) : p.Descends c root := by
  refine tree.induction (motive := fun c => p.Descends c root) ?_ ?_ hc
  · intro r hr
    rw [tree.root_unique r root hr hroot]
    exact .refl
  · intro c s hs hdesc
    exact .head hs hdesc

end Program

end MipsBackend
