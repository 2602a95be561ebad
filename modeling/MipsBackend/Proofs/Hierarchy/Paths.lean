import Mathlib.Data.List.Flatten
import Mathlib.Data.List.Pairwise
import MipsBackend.Proofs.Hierarchy.Walk

/-!
# Paths from the root

The layout pass reaches a class from the root, through lists of subclasses that nobody has checked.
`Program.PathTo` is such a way down.  Without a well-linked hierarchy there might be several of them
or none; but in a whole tree the root and what its classes list are together just the classes of
the tree (`ClassTree.Reflects.perm_classes`), so if no class occurs twice, then every class but the
root is listed once.  Hence each class has exactly one path (`exists_pathTo`, `PathTo.unique`).
-/

namespace MipsBackend

variable {p : Program} {c d s s' root : ClassId} {path path' : List ClassId}

namespace ClassTree

variable {t : ClassTree}

/-- The root of a whole tree and what its classes list are its classes. -/
theorem Reflects.perm_classes (h : t.Reflects p) :
    (t.id :: t.nodes.flatMap fun node => node.2.subclasses).Perm t.classes := by
  induction t with
  | broken id fault => exact h.elim
  | node id decl subclasses ih =>
    obtain ⟨_, hids, hall⟩ := h
    rw [reflectsAll_iff] at hall
    rw [classes, nodes, nodesAll_eq_flatMap, List.flatMap_cons, List.map_cons, List.flatMap_assoc,
      List.map_flatMap, hids]
    refine List.Perm.cons id ((List.map_append_flatMap_perm subclasses _ _).trans ?_)
    exact List.Perm.flatMap_left _ fun sub hsub => ih sub hsub (hall sub hsub)

section Nodup

variable (whole : t.Reflects p) (hnodup : t.classes.Nodup)
include whole hnodup

/-- No class of the tree lists the root. -/
theorem Reflects.ne_id_of_hasSubclass (hs : s ∈ t.classes) (hsub : p.HasSubclass s c) :
    c ≠ t.id := by
  rintro rfl
  obtain ⟨decl, hnode, hdecl⟩ := whole.exists_of_mem hs
  obtain ⟨decl', hdecl', hmem⟩ := hsub
  obtain rfl : decl = decl' := Except.ok.inj (hdecl.symm.trans hdecl')
  have hlisted := (List.nodup_cons.1 (whole.perm_classes.nodup_iff.2 hnodup)).1
  exact hlisted (List.mem_flatMap.2 ⟨_, hnode, hmem⟩)

/-- No class is listed by two classes of the tree. -/
theorem Reflects.eq_of_hasSubclass (hs : s ∈ t.classes) (hs' : s' ∈ t.classes)
    (hsub : p.HasSubclass s c) (hsub' : p.HasSubclass s' c) : s = s' := by
  obtain ⟨decl, hnode, hdecl⟩ := whole.exists_of_mem hs
  obtain ⟨decl', hnode', hdecl'⟩ := whole.exists_of_mem hs'
  obtain ⟨_, hdeclₛ, hmem⟩ := hsub
  obtain rfl := Except.ok.inj (hdecl.symm.trans hdeclₛ)
  obtain ⟨_, hdeclₛ', hmem'⟩ := hsub'
  obtain rfl := Except.ok.inj (hdecl'.symm.trans hdeclₛ')
  have hlisted := (List.nodup_cons.1 (whole.perm_classes.nodup_iff.2 hnodup)).2
  have : Std.Symm (Function.onFun List.Disjoint fun node : ClassId × ClassDecl =>
      node.2.subclasses) := ⟨fun _ _ h => h.symm⟩
  by_contra hne
  have hdisjoint := (List.nodup_flatMap.1 hlisted).2.forall hnode hnode'
    fun heq => hne (congrArg Prod.fst heq)
  exact hdisjoint hmem hmem'

end Nodup

end ClassTree

namespace Program

/-- The classes on a way from the root down to a class, through the lists of subclasses. -/
inductive PathTo (p : Program) : ClassId → List ClassId → Prop where
  | root {root : ClassId} : p.rootClass = .ok (some root) → PathTo p root [root]
  | step {s c : ClassId} {path : List ClassId} : PathTo p s path → p.HasSubclass s c →
      PathTo p c (path ++ [c])

/-- A path can be followed further down. -/
theorem PathTo.exists_append (h : p.PathTo c path)
    (hdesc : Relation.ReflTransGen p.HasSubclass c d) : ∃ rest, p.PathTo d (path ++ rest) := by
  induction hdesc with
  | refl => exact ⟨[], by rwa [List.append_nil]⟩
  | tail _ hsub ih =>
    obtain ⟨rest, hrest⟩ := ih
    exact ⟨rest ++ [_], by simpa only [List.append_assoc] using hrest.step hsub⟩

/-- Paths lead to all classes below a class that has one. -/
theorem PathTo.exists_of_mem {t : ClassTree} (h : p.PathTo t.id path) (whole : t.Reflects p)
    (hc : c ∈ t.classes) : ∃ path', p.PathTo c path' := by
  induction t generalizing path with
  | broken id fault => exact whole.elim
  | node id decl subclasses ih =>
    obtain ⟨hdecl, hids, hall⟩ := whole
    rcases ClassTree.mem_classes_node.1 hc with rfl | ⟨sub, hsub, hmem⟩
    · exact ⟨path, h⟩
    · have hlisted : p.HasSubclass id (sub ()).id := ⟨decl, hdecl, hids ▸ List.mem_map_of_mem hsub⟩
      exact ih sub hsub (h.step hlisted) (ClassTree.reflectsAll_iff.1 hall sub hsub) hmem

section Root

variable (hroot : p.rootClass = .ok (some root)) (whole : (p.classTree root).Reflects p)
include hroot whole

theorem exists_pathTo (hc : c ∈ (p.classTree root).classes) : ∃ path, p.PathTo c path :=
  PathTo.exists_of_mem (by simpa using PathTo.root hroot) whole hc

/-- Paths stay in the tree below the root. -/
theorem PathTo.mem_classes (h : p.PathTo c path) : c ∈ (p.classTree root).classes := by
  induction h with
  | root hroot' =>
    obtain rfl := Option.some.inj (Except.ok.inj (hroot.symm.trans hroot'))
    simpa using whole.id_mem_classes
  | step _ hsub ih => exact whole.subclass_mem ih hsub

/-- There is one way down to a class, if the walk meets no class twice. -/
theorem PathTo.unique (hnodup : (p.classTree root).classes.Nodup) (h : p.PathTo c path)
    (h' : p.PathTo c path') : path = path' := by
  have hstep : ∀ {s c path}, p.PathTo s path → p.HasSubclass s c →
      p.rootClass ≠ .ok (some c) := by
    intro s c path hs hsub hroot'
    obtain rfl := Option.some.inj (Except.ok.inj (hroot.symm.trans hroot'))
    exact whole.ne_id_of_hasSubclass hnodup (hs.mem_classes hroot whole) hsub (by simp)
  induction h generalizing path' with
  | root hroot' =>
    cases h' with
    | root _ => rfl
    | step hs hsub => exact absurd hroot' (hstep hs hsub)
  | step hs hsub ih =>
    cases h' with
    | root hroot' => exact absurd hroot' (hstep hs hsub)
    | step hs' hsub' =>
      obtain rfl := whole.eq_of_hasSubclass hnodup (hs.mem_classes hroot whole)
        (hs'.mem_classes hroot whole) hsub hsub'
      rw [ih hs']

end Root

end Program

end MipsBackend
