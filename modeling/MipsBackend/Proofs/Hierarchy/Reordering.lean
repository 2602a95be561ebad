import Mathlib.Data.List.Forall2
import MipsBackend.Assembly.Symbol
import MipsBackend.Proofs.Hierarchy.Walk

/-!
# The order of siblings

`SiblingsReordered` relates programs that differ in the order only in which classes list their
subclasses.  All that is found by walking up the hierarchy is the same in both.  Walking down finds
the same classes, in another order (`perm_flatMap_nodes`).
-/

namespace MipsBackend

/-- The declarations differ in the order of the subclasses only. -/
def ClassDecl.Reordered (decl decl' : ClassDecl) : Prop :=
  ∃ subclasses, decl.subclasses.Perm subclasses ∧ decl' = { decl with subclasses }

namespace Program

/-- The programs differ only in the order in which classes list their subclasses. -/
structure SiblingsReordered (p p' : Program) : Prop where
  classes : List.Forall₂ ClassDecl.Reordered p.classes.toList p'.classes.toList
  others : p' = { p with classes := p'.classes }

namespace SiblingsReordered

variable {α : Type} {p p' : Program} {c : ClassId} {bound : Nat} (h : p.SiblingsReordered p')
include h

/-! ## Declarations -/

theorem methodAt_eq (m : MethodId) : p'.methodAt m = p.methodAt m := by
  rw [h.others]
  rfl

theorem varAt_eq (x : VarId) : p'.varAt x = p.varAt x := by
  rw [h.others]
  rfl

theorem stringClass_eq : p'.stringClass = p.stringClass := by
  rw [h.others]

theorem stringLiterals_eq : p'.stringLiterals = p.stringLiterals := by
  rw [h.others]
  rfl

theorem size_classes : p'.classes.size = p.classes.size := by
  simpa using h.classes.length_eq.symm

/-- Both programs declare a class, or neither does. -/
theorem classAt_cases (c : ClassId) :
    (∃ decl decl', p.classAt c = .ok decl ∧ p'.classAt c = .ok decl' ∧ decl.Reordered decl') ∨
      ∃ fault, p.classAt c = .error fault ∧ p'.classAt c = .error fault := by
  have hsize := h.size_classes
  unfold classAt lookup
  by_cases hc : c.toNat < p.classes.size
  · have hc' : c.toNat < p'.classes.size := hsize ▸ hc
    refine Or.inl ⟨p.classes[c.toNat], p'.classes[c.toNat], ?_, ?_, ?_⟩
    · rw [Array.getElem?_eq_getElem hc]
    · rw [Array.getElem?_eq_getElem hc']
    · exact h.classes.get (Array.length_toList ▸ hc) (Array.length_toList ▸ hc')
  · have hnone : p.classes[c.toNat]? = none := Array.getElem?_eq_none (Nat.le_of_not_lt hc)
    have hnone' : p'.classes[c.toNat]? = none := Array.getElem?_eq_none (by omega)
    rw [hnone, hnone', hsize]
    exact Or.inr ⟨_, rfl, rfl⟩

theorem exists_classAt {decl : ClassDecl} (hc : p.classAt c = .ok decl) :
    ∃ decl', p'.classAt c = .ok decl' ∧ decl.Reordered decl' := by
  obtain ⟨_, decl', hc', hdecl', hreordered⟩ | ⟨_, hc', _⟩ := h.classAt_cases c
  · obtain rfl := Except.ok.inj (hc.symm.trans hc')
    exact ⟨decl', hdecl', hreordered⟩
  · simp [hc] at hc'

/-- What is read from a declaration is the same unless it depends on the order of subclasses. -/
theorem classAt_bind_eq {next : ClassDecl → Except Fault α}
    (hnext : ∀ decl subclasses, next { decl with subclasses } = next decl) :
    p'.classAt c >>= next = p.classAt c >>= next := by
  obtain ⟨decl, _, hc, hc', subclasses, _, rfl⟩ | ⟨fault, hc, hc'⟩ := h.classAt_cases c
  · rw [hc, hc']
    exact hnext decl subclasses
  · rw [hc, hc']

/-! ## Walking up -/

theorem climb_eq (start : Option ClassId) : p'.climb bound start = p.climb bound start := by
  induction bound generalizing start with
  | zero =>
    cases start with
    | none => rfl
    | some c =>
      obtain ⟨_, _, hc, hc', _⟩ | ⟨_, hc, hc'⟩ := h.classAt_cases c
      · simp only [climb, hc, hc']
      · simp only [climb, hc, hc']
  | succ bound ih =>
    cases start with
    | none => rfl
    | some c =>
      obtain ⟨_, _, hc, hc', _, _, rfl⟩ | ⟨_, hc, hc'⟩ := h.classAt_cases c
      · simp only [climb, hc, hc', ih]
      · simp only [climb, hc, hc']

theorem lineage_eq (c : ClassId) : p'.lineage c = p.lineage c := by
  obtain ⟨_, _, hc, hc', _, _, rfl⟩ | ⟨_, hc, hc'⟩ := h.classAt_cases c
  · simp only [lineage, hc, hc', h.size_classes, h.climb_eq]
  · simp only [lineage, hc, hc']

theorem rootClass_eq : p'.rootClass = p.rootClass := by
  have hempty : p'.classes.isEmpty = p.classes.isEmpty := by
    rw [Array.isEmpty, Array.isEmpty, h.size_classes]
  simp only [rootClass, superclasses, h.lineage_eq, hempty]

theorem inheritedMethod_eq (c : ClassId) (name : String) :
    p'.inheritedMethod c name = p.inheritedMethod c name := by
  have hown : (fun d => p'.ownMethod d name) = fun d => p.ownMethod d name :=
    funext fun _ => h.classAt_bind_eq fun _ _ => rfl
  rw [inheritedMethod, inheritedMethod, h.lineage_eq, hown]

theorem methodLabel_eq (m : MethodId) : p'.methodLabel m = p.methodLabel m := by
  simp only [methodLabel, h.methodAt_eq]
  congr 1
  funext decl
  cases decl.origin with
  | runtime => exact h.classAt_bind_eq fun _ _ => rfl
  | user span => rfl

/-! ## Walking down -/

/-- The trees of a class have the same class at the root, with the same subclasses in some order. -/
theorem unfoldClass_cases (bound : Nat) (c : ClassId) :
    (∃ fault, p.unfoldClass bound c = .broken c fault ∧
        p'.unfoldClass bound c = .broken c fault) ∨
      ∃ below decl subclasses, bound = below + 1 ∧ decl.subclasses.Perm subclasses ∧
        p.unfoldClass bound c =
          .node c decl (decl.subclasses.map fun s _ => p.unfoldClass below s) ∧
        p'.unfoldClass bound c = .node c { decl with subclasses }
          (subclasses.map fun s _ => p'.unfoldClass below s) := by
  rw [unfoldClass, unfoldClass]
  obtain ⟨decl, _, hc, hc', subclasses, hperm, rfl⟩ | ⟨fault, hc, hc'⟩ := h.classAt_cases c
  · rw [hc, hc']
    cases bound with
    | zero => exact Or.inl ⟨_, rfl, rfl⟩
    | succ below => exact Or.inr ⟨below, decl, subclasses, rfl, hperm, rfl, rfl⟩
  · rw [hc, hc']
    exact Or.inl ⟨fault, rfl, rfl⟩

/-- The classes of a tree are the same in some order, and so is all that is collected from their
declarations, unless it depends on the order of subclasses itself. -/
theorem perm_flatMap_nodes {collect : ClassId × ClassDecl → List α}
    (hcollect : ∀ c decl subclasses, collect (c, { decl with subclasses }) = collect (c, decl)) :
    ((p.unfoldClass bound c).nodes.flatMap collect).Perm
      ((p'.unfoldClass bound c).nodes.flatMap collect) := by
  induction bound generalizing c with
  | zero =>
    obtain ⟨fault, ht, ht'⟩ | ⟨_, _, _, hbound, _⟩ := h.unfoldClass_cases 0 c
    · rw [ht, ht']
    · cases hbound
  | succ bound ih =>
    obtain ⟨fault, ht, ht'⟩ | ⟨_, decl, subclasses, hbound, hperm, ht, ht'⟩ :=
      h.unfoldClass_cases (bound + 1) c
    · rw [ht, ht']
    · obtain rfl := Nat.succ.inj hbound
      rw [ht, ht', ClassTree.nodes, ClassTree.nodes, List.flatMap_cons, List.flatMap_cons,
        hcollect c decl subclasses, ClassTree.nodesAll_eq_flatMap, ClassTree.nodesAll_eq_flatMap,
        List.flatMap_map, List.flatMap_map, List.flatMap_assoc, List.flatMap_assoc]
      refine List.Perm.append_left _ ?_
      exact (hperm.flatMap_right _).trans (List.Perm.flatMap_left _ fun s _ => ih)

end SiblingsReordered

end Program

end MipsBackend
