import MipsBackend.Proofs.Hierarchy.Walk

/-!
# Preorder with a stack

The classes below a class can be listed without recursion: take a class off a stack, list it, and
push its subclasses with the first one on top.  `Program.Turn` is one turn of this loop.  Whatever
lies below a class on the stack is left alone until the whole tree of the class has been listed
(`ClassTree.Reflects.turns`), so the loop ends, and it ends with the preorder of the class tree
(`Program.turns_iff`).
-/

namespace MipsBackend

variable {p : Program} {c : ClassId} {order order' : List ClassId}

namespace Program

/-- A turn of the loop, with the top of the stack at the end of its list.  The classes listed so far
come second. -/
inductive Turn (p : Program) :
    List ClassId × List ClassId → List ClassId × List ClassId → Prop where
  | visit {c : ClassId} {decl : ClassDecl} {stack order : List ClassId} : p.classAt c = .ok decl →
      Turn p (stack ++ [c], order) (stack ++ decl.subclasses.reverse, order ++ [c])

/-- The loop stops on an empty stack. -/
theorem not_turn_nil {state : List ClassId × List ClassId} : ¬ p.Turn ([], order) state := by
  generalize hstart : (([], order) : List ClassId × List ClassId) = start
  rintro ⟨_⟩
  simp at hstart

theorem turn_rightUnique : Relator.RightUnique p.Turn := by
  rintro start first second hfirst hsecond
  obtain ⟨hc⟩ := hfirst
  rename_i c decl stack order
  generalize hstart : (stack ++ [c], order) = start at hsecond
  obtain ⟨hc'⟩ := hsecond
  obtain ⟨hstack, rfl⟩ := Prod.mk.inj hstart
  obtain ⟨rfl, hcs⟩ := List.append_inj' hstack rfl
  obtain rfl := List.singleton_injective hcs
  obtain rfl := Except.ok.inj (hc.symm.trans hc')
  rfl

/-- Where the loop ends depends on where it starts only. -/
theorem turns_unique {start : List ClassId × List ClassId}
    (h : Relation.ReflTransGen p.Turn start ([], order))
    (h' : Relation.ReflTransGen p.Turn start ([], order')) : order = order' := by
  have hdone : ∀ {order order' : List ClassId},
      Relation.ReflTransGen p.Turn ([], order) ([], order') → order = order' := by
    intro order order' hturns
    obtain heq | ⟨_, hturn, _⟩ := hturns.cases_head
    · exact (Prod.mk.inj heq).2
    · exact absurd hturn not_turn_nil
  rcases Relation.ReflTransGen.total_of_right_unique turn_rightUnique h h' with hturns | hturns
  · exact hdone hturns
  · exact (hdone hturns).symm

end Program

/-- The loop lists the trees on top of the stack, one after the other. -/
theorem ClassTree.turns_of_trees {trees : List (Unit → ClassTree)}
    (htrees : ∀ tree ∈ trees, ∀ stack order, Relation.ReflTransGen p.Turn
      (stack ++ [(tree ()).id], order) (stack, order ++ (tree ()).classes))
    (stack order : List ClassId) :
    Relation.ReflTransGen p.Turn (stack ++ (trees.map fun tree => (tree ()).id).reverse, order)
      (stack, order ++ (nodesAll trees).map Prod.fst) := by
  induction trees generalizing order with
  | nil =>
    rw [nodesAll, List.map_nil, List.map_nil, List.reverse_nil, List.append_nil, List.append_nil]
  | cons tree trees ih =>
    rw [List.forall_mem_cons] at htrees
    have hfirst := htrees.1 (stack ++ (trees.map fun tree => (tree ()).id).reverse) order
    have hrest := ih htrees.2 (order ++ (tree ()).classes)
    rw [List.append_assoc] at hfirst hrest
    rw [List.map_cons, List.reverse_cons, nodesAll, List.map_append]
    exact hfirst.trans hrest

/-- A whole tree on top of the stack is listed in preorder before anything else is. -/
theorem ClassTree.Reflects.turns {t : ClassTree} (h : t.Reflects p) (stack order : List ClassId) :
    Relation.ReflTransGen p.Turn (stack ++ [t.id], order) (stack, order ++ t.classes) := by
  induction t generalizing stack order with
  | broken id fault => exact h.elim
  | node id decl subclasses ih =>
    obtain ⟨hdecl, hids, hall⟩ := h
    rw [reflectsAll_iff] at hall
    have hbelow := turns_of_trees (fun tree htree => ih tree htree (hall tree htree)) stack
      (order ++ [id])
    rw [← hids, List.append_assoc] at hbelow
    exact .head (.visit hdecl) hbelow

/-- Started on a class with a whole tree, the loop ends with the classes of the tree. -/
theorem Program.turns_iff (whole : (p.classTree c).Reflects p) :
    Relation.ReflTransGen p.Turn ([c], []) ([], order) ↔ order = (p.classTree c).classes := by
  have hturns := whole.turns [] []
  rw [id_classTree, List.nil_append, List.nil_append] at hturns
  constructor
  · exact fun h => turns_unique h hturns
  · rintro rfl
    exact hturns

end MipsBackend
