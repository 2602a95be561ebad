import MipsBackend.Proofs.Hierarchy.Subtyping
import MipsBackend.Proofs.Hierarchy.Worklist

/-!
# The preorder of a class

`Program.preorder` walks down the subclass lists, `Program.isSubclass` walks up the superclass
links.  Where the two records of the hierarchy agree, so do the walks: `PreorderOf` collects what a
preorder says about descent.  The main step is `ClassTree.Reflects.exists_blocks`.  In the classes
of a tree, each class is followed by those of its subtrees, in the order of the subclass list.
-/

namespace MipsBackend

variable {p : Program} {c d r s : ClassId} {order : List ClassId}

namespace ClassTree

/-- The classes of a subtree stand together. -/
theorem isInfix_classes {trees : List (Unit → ClassTree)} {tree : Unit → ClassTree}
    (h : tree ∈ trees) :
    (tree ()).classes <:+: trees.flatMap fun sub => (sub ()).classes := by
  obtain ⟨before, after, rfl⟩ := List.append_of_mem h
  exact ⟨before.flatMap fun sub => (sub ()).classes, after.flatMap fun sub => (sub ()).classes,
    by simp⟩

theorem Reflects.head?_classes {t : ClassTree} (h : t.Reflects p) :
    t.classes.head? = some t.id := by
  cases t with
  | broken id fault => exact h.elim
  | node id decl subclasses => rw [classes_node, List.head?_cons, ClassTree.id]

/-- What a whole tree lists depends on the class at its root only. -/
theorem Reflects.classes_eq {t : ClassTree} (h : t.Reflects p)
    (hwhole : (p.classTree t.id).Reflects p) : t.classes = (p.classTree t.id).classes := by
  refine (Program.turns_iff hwhole).1 ?_
  simpa using h.turns [] []

/-- Each class of a whole tree is followed by its subtrees, one for each subclass. -/
theorem Reflects.exists_blocks {t : ClassTree} (h : t.Reflects p) (hc : c ∈ t.classes)
    {decl : ClassDecl} (hdecl : p.classAt c = .ok decl) : ∃ trees : List (Unit → ClassTree),
      decl.subclasses = trees.map (fun tree => (tree ()).id) ∧
      (∀ tree ∈ trees, (tree ()).Reflects p) ∧
      c :: (trees.flatMap fun tree => (tree ()).classes) <:+: t.classes := by
  induction t with
  | broken id fault => exact h.elim
  | node id decl' subclasses ih =>
    obtain ⟨hdecl', hids, hall⟩ := h
    rw [reflectsAll_iff] at hall
    rcases mem_classes_node.1 hc with rfl | ⟨sub, hsub, hc⟩
    · obtain rfl : decl = decl' := Except.ok.inj (hdecl.symm.trans hdecl')
      exact ⟨subclasses, hids, hall, by rw [classes_node]⟩
    · obtain ⟨trees, htrees, hwhole, hwithin⟩ := ih sub hsub (hall sub hsub) hc
      refine ⟨trees, htrees, hwhole, hwithin.trans ?_⟩
      rw [classes_node]
      exact (isInfix_classes hsub).trans (List.suffix_cons _ _).isInfix

end ClassTree

open ClassTree

namespace Program

/-- The list holds the class and its descendants. -/
def HoldsBelow (p : Program) (c : ClassId) (cs : List ClassId) : Prop :=
  ∀ d, d ∈ cs ↔ p.isSubclass d c = .ok true

/-- The list is what walking down from `r` finds, and it agrees with walking up. -/
structure PreorderOf (p : Program) (r : ClassId) (order : List ClassId) : Prop where
  preorder_eq : p.preorder r = .ok order
  /-- The loop takes finitely many turns. -/
  ends : Acc (fun next state => p.Turn state next) ([r], [])
  /-- It ends with the list, and with no other. -/
  turns_iff : ∀ order', Relation.ReflTransGen p.Turn ([r], []) ([], order') ↔ order' = order
  nodup : order.Nodup
  holds : p.HoldsBelow r order
  /-- The walk up from a class finds whether it is listed. -/
  isSubclass_eq : ∀ c, p.hasClass c → p.isSubclass c r = .ok (decide (c ∈ order))
  head : order.head? = some r
  after_superclass : ∀ c ∈ order, c ≠ r → ∃ s, p.Extends c s ∧ [s, c].Sublist order
  /-- The descendants of a class follow it in one block, made up of a block for each subclass. -/
  blocks : ∀ c ∈ order, ∃ decl blocks, p.classAt c = .ok decl ∧
    List.Forall₂ (fun s block => p.preorder s = .ok block ∧ p.HoldsBelow s block)
      decl.subclasses blocks ∧
    c :: blocks.flatten <:+: order ∧ p.HoldsBelow c (c :: blocks.flatten)

/-- A loop that takes one turn at most from each state ends, if it comes to a state without any. -/
theorem acc_of_turns {start stop : List ClassId × List ClassId}
    (h : Relation.ReflTransGen p.Turn start stop) (hstop : ∀ state, ¬ p.Turn stop state) :
    Acc (fun next state => p.Turn state next) start := by
  induction h using Relation.ReflTransGen.head_induction_on with
  | refl => exact ⟨_, fun state hturn => absurd hturn (hstop state)⟩
  | head hturn _ ih =>
    refine ⟨_, fun state hturn' => ?_⟩
    rw [turn_rightUnique hturn' hturn]
    exact ih

/-- The classes of a whole tree are the class at its root and the descendants of this class. -/
theorem IsForest.holdsBelow (forest : p.IsForest) {t : ClassTree} (h : t.Reflects p) :
    p.HoldsBelow t.id t.classes := fun d => by
  obtain ⟨decl, _, hid⟩ := h.exists_of_mem h.id_mem_classes
  rw [h.mem_classes_iff forest, isSubclass_iff_descends forest.acyclic ⟨decl, hid⟩]

section

variable (forest : p.IsForest)
  (listed : ∀ c decl, p.classAt c = .ok decl → decl.subclasses.Nodup)
include forest

/-- In a preorder every class but the first has its superclass before it. -/
theorem IsForest.superclass_sublist {t : ClassTree} (h : t.Reflects p) (hc : c ∈ t.classes)
    (hne : c ≠ t.id) : ∃ s, p.Extends c s ∧ [s, c].Sublist t.classes := by
  have hdesc := (h.mem_classes_iff forest).1 hc
  obtain ⟨s, hs, hrest⟩ := (hdesc.cases_head).resolve_left hne
  have hmem := (h.mem_classes_iff forest).2 hrest
  obtain ⟨decl, hdecl, hlists⟩ := (forest.mirror c s).1 hs
  obtain ⟨trees, hids, hwhole, hwithin⟩ := h.exists_blocks hmem hdecl
  obtain ⟨tree, htree, rfl⟩ := List.mem_map.1 (hids ▸ hlists)
  have hbelow : (tree ()).id ∈ trees.flatMap fun tree => (tree ()).classes :=
    (isInfix_classes htree).subset (hwhole tree htree).id_mem_classes
  exact ⟨s, hs, ((List.singleton_sublist.2 hbelow).cons_cons s).trans hwithin.sublist⟩

/-- The block of a class is made up of the preorders of its subclasses. -/
theorem IsForest.exists_blocks {t : ClassTree} (h : t.Reflects p) (hc : c ∈ t.classes) :
    ∃ decl blocks, p.classAt c = .ok decl ∧
      List.Forall₂ (fun s block => p.preorder s = .ok block ∧ p.HoldsBelow s block)
        decl.subclasses blocks ∧
      c :: blocks.flatten <:+: t.classes ∧ p.HoldsBelow c (c :: blocks.flatten) := by
  obtain ⟨decl, _, hdecl⟩ := h.exists_of_mem hc
  obtain ⟨trees, hids, hwhole, hwithin⟩ := h.exists_blocks hc hdecl
  refine ⟨decl, trees.map fun tree => (tree ()).classes, hdecl, ?_, ?_⟩
  · rw [hids, List.forall₂_map_left_iff, List.forall₂_map_right_iff, List.forall₂_same]
    intro tree htree
    have hreflects := hwhole tree htree
    obtain ⟨_, _, hid⟩ := hreflects.exists_of_mem hreflects.id_mem_classes
    have hunfolded := forest.reflects_classTree hid
    refine ⟨?_, forest.holdsBelow hreflects⟩
    rw [preorder, hunfolded.preorder_eq, hreflects.classes_eq hunfolded]
  · have hnode : (ClassTree.node c decl trees).Reflects p :=
      ⟨hdecl, hids, reflectsAll_iff.2 hwhole⟩
    rw [← List.flatMap_def]
    refine ⟨hwithin, ?_⟩
    rw [← classes_node c decl trees]
    exact forest.holdsBelow hnode

include listed

theorem IsForest.preorderOf {decl : ClassDecl} (hr : p.classAt r = .ok decl) :
    p.PreorderOf r (p.classTree r).classes := by
  have hwhole := forest.reflects_classTree hr
  have hid := p.id_classTree r
  have hturns := (Program.turns_iff hwhole).2 rfl
  have hholds := forest.holdsBelow hwhole
  rw [hid] at hholds
  refine ⟨hwhole.preorder_eq, acc_of_turns hturns fun _ => not_turn_nil,
    fun _ => Program.turns_iff hwhole, hwhole.nodup_classes forest listed, hholds, ?_,
    hwhole.head?_classes.trans (congrArg some hid), ?_, fun c hc => forest.exists_blocks hwhole hc⟩
  · intro c hc
    obtain ⟨cdecl, hcdecl⟩ := hasClass_iff.1 hc
    obtain ⟨as, has⟩ := forest.exists_ancestry hcdecl
    rw [has.isSubclass_eq forest.acyclic]
    congr 2
    rw [hwhole.mem_classes_iff forest, hid]
  · intro c hc hne
    exact forest.superclass_sublist hwhole hc (hid.symm ▸ hne)

/-- The walk down from a class and the walk up to it find the same.  In a single tree, the walk down
from the root finds every class. -/
theorem preordersAgree : (∀ r, p.hasClass r → ∃ order, p.PreorderOf r order) ∧
    ((∀ c d, p.IsRoot c → p.IsRoot d → c = d) → 0 < p.classes.size → ∃ root order,
      p.rootClass = .ok (some root) ∧ p.PreorderOf root order ∧
      ∀ c, c ∈ order ↔ p.hasClass c) := by
  constructor
  · intro r hr
    obtain ⟨decl, hdecl⟩ := hasClass_iff.1 hr
    exact ⟨_, forest.preorderOf listed hdecl⟩
  · intro root_unique hsize
    have tree : p.IsClassTree := { forest with root_unique }
    obtain ⟨_, hempty⟩ | ⟨root, hroot, hisRoot⟩ := tree.exists_rootClass
    · omega
    obtain ⟨rdecl, hrdecl, _⟩ := id hisRoot
    refine ⟨root, _, hroot, forest.preorderOf listed hrdecl, fun c => ⟨fun hc => ?_, fun hc => ?_⟩⟩
    · obtain ⟨decl, _, hdecl⟩ := (forest.reflects_classTree hrdecl).exists_of_mem hc
      exact hasClass_iff.2 ⟨decl, hdecl⟩
    · obtain ⟨decl, hdecl⟩ := hasClass_iff.1 hc
      rw [(forest.reflects_classTree hrdecl).mem_classes_iff forest, id_classTree]
      exact tree.descends_root hisRoot hdecl

end

/-- Below the shapes there are squares and circles, and everything is below the objects. -/
theorem preordersAgree_shapes : shapes.PreorderOf ⟨1⟩ [⟨1⟩, ⟨2⟩, ⟨3⟩] ∧
    shapes.rootClass = .ok (some ⟨0⟩) ∧ shapes.PreorderOf ⟨0⟩ [⟨0⟩, ⟨1⟩, ⟨2⟩, ⟨3⟩] := by
  have tree := isClassTree_shapes
  obtain ⟨hall, hroot⟩ := preordersAgree tree.isForest wellFormed_shapes.subclasses_nodup
  obtain ⟨order, horder⟩ := hall ⟨1⟩ (by decide)
  obtain ⟨root, order', hrootClass, horder', _⟩ := hroot tree.root_unique (by decide)
  obtain rfl : order = [⟨1⟩, ⟨2⟩, ⟨3⟩] := Except.ok.inj (horder.preorder_eq.symm.trans rfl)
  obtain rfl : root = ⟨0⟩ := Option.some.inj (Except.ok.inj (hrootClass.symm.trans rfl))
  obtain rfl : order' = [⟨0⟩, ⟨1⟩, ⟨2⟩, ⟨3⟩] :=
    Except.ok.inj (horder'.preorder_eq.symm.trans rfl)
  exact ⟨horder, hrootClass, horder'⟩

end Program

end MipsBackend
