import Mathlib.Data.Fintype.EquivFin
import Mathlib.Data.List.Nodup
import Mathlib.Data.List.Perm.Subperm
import Mathlib.Logic.Relation
import Mathlib.Order.WellFounded
import MipsBackend.Program.Hierarchy

/-!
# Well-linked class hierarchies

`IsClassTree` says what a front end promises of the hierarchy: superclass links and subclass lists
mirror each other, no class is its own ancestor, and there is a single root.  The walks of
`Program.climb` trust none of this and carry a bound.  This module shows that on a class tree the
bound is never met, so that the queries built on the walk mean what their names say.

There are three groups.

* The relations.  `Extends` is one superclass link and `Descends` any number of them.  Without
  cycles the links are well founded, because there are finitely many identifiers.
* The ancestry.  `Ancestry c as` lists the strict ancestors of `c`.  Every class of a tree has one,
  it is no longer than the arena, and `Ancestry.lineage_eq` says that the walk finds it.
* The queries.  `IsClassTree.isSubclass_eq` and `IsClassTree.inheritedMethod_of_extends` are what
  the layout proofs use.

A single root is needed for little of this.  `IsForest` says the same without it.
-/

namespace MipsBackend

/-- Identifiers are words, so there are finitely many. -/
instance (sort : NodeSort) : Finite (NodeId sort) :=
  Finite.of_injective (fun id : NodeId sort => (⟨id.toNat, id.toNat_lt⟩ : Fin (2 ^ 32)))
    fun _ _ h => NodeId.toNat_inj.1 (Fin.mk.inj h)

namespace Program

variable {p : Program} {c d s r : ClassId}

/-! ## Superclass links -/

/-- `s` is the direct superclass of `c`. -/
def Extends (p : Program) (c s : ClassId) : Prop :=
  ∃ decl, p.classAt c = .ok decl ∧ decl.superclass = some s

/-- `s` lists `c` among its direct subclasses. -/
def HasSubclass (p : Program) (s c : ClassId) : Prop :=
  ∃ decl, p.classAt s = .ok decl ∧ c ∈ decl.subclasses

/-- `c` is a class of the program and has no superclass. -/
def IsRoot (p : Program) (c : ClassId) : Prop :=
  ∃ decl, p.classAt c = .ok decl ∧ decl.superclass = none

/-- `c` is `d` or one of its descendants. -/
def Descends (p : Program) : ClassId → ClassId → Prop :=
  Relation.ReflTransGen p.Extends

/-- The two records of the hierarchy agree and describe one tree of all classes. -/
structure IsClassTree (p : Program) : Prop where
  /-- A class is listed by its superclass and by no other. -/
  mirror : ∀ c s, p.Extends c s ↔ p.HasSubclass s c
  /-- No class is its own ancestor. -/
  acyclic : ∀ c, ¬ Relation.TransGen p.Extends c c
  /-- All classes hang together. -/
  root_unique : ∀ c d, p.IsRoot c → p.IsRoot d → c = d

theorem Extends.unique (h : p.Extends c s) (h' : p.Extends c d) : s = d := by
  obtain ⟨decl, hdecl, hs⟩ := h
  obtain ⟨decl', hdecl', hd⟩ := h'
  obtain rfl : decl = decl' := Except.ok.inj (hdecl.symm.trans hdecl')
  exact Option.some.inj (hs.symm.trans hd)

theorem IsRoot.not_extends (h : p.IsRoot c) : ¬ p.Extends c s := by
  rintro ⟨decl', hdecl', hs⟩
  obtain ⟨decl, hdecl, hnone⟩ := h
  obtain rfl : decl = decl' := Except.ok.inj (hdecl.symm.trans hdecl')
  rw [hnone] at hs
  simp at hs

theorem isRoot_or_extends {decl : ClassDecl} (h : p.classAt c = .ok decl) :
    p.IsRoot c ∨ ∃ s, p.Extends c s := by
  cases hs : decl.superclass with
  | none => exact Or.inl ⟨decl, h, hs⟩
  | some s => exact Or.inr ⟨s, decl, h, hs⟩

/-- Classes whose superclasses were all declared before them are no ancestors of themselves. -/
theorem acyclic_of_lt (h : ∀ c s, p.Extends c s → s.toNat < c.toNat) (c : ClassId) :
    ¬ Relation.TransGen p.Extends c c := by
  have hlt : ∀ {a b}, Relation.TransGen p.Extends a b → b.toNat < a.toNat := by
    intro a b hab
    induction hab with
    | single hstep => exact h _ _ hstep
    | tail _ hstep ih => exact Nat.lt_trans (h _ _ hstep) ih
  exact fun hcycle => Nat.lt_irrefl _ (hlt hcycle)

/-- The two records of the hierarchy agree.  There may be several trees, or none. -/
structure IsForest (p : Program) : Prop where
  mirror : ∀ c s, p.Extends c s ↔ p.HasSubclass s c
  acyclic : ∀ c, ¬ Relation.TransGen p.Extends c c

theorem IsClassTree.isForest (tree : p.IsClassTree) : p.IsForest :=
  ⟨tree.mirror, tree.acyclic⟩

theorem IsForest.superclass_exists (forest : p.IsForest) (h : p.Extends c s) :
    ∃ decl, p.classAt s = .ok decl := by
  obtain ⟨decl, hdecl, _⟩ := (forest.mirror c s).1 h
  exact ⟨decl, hdecl⟩

/-- Without cycles, going up from class to superclass ends. -/
theorem wellFounded_extends (acyclic : ∀ c, ¬ Relation.TransGen p.Extends c c) :
    WellFounded fun s c => p.Extends c s := by
  have hwf : WellFounded fun s c => Relation.TransGen p.Extends c s := by
    have : IsTrans ClassId fun s c => Relation.TransGen p.Extends c s :=
      ⟨fun _ _ _ hba hcb => hcb.trans hba⟩
    have : Std.Irrefl fun s c : ClassId => Relation.TransGen p.Extends c s :=
      ⟨fun c => acyclic c⟩
    exact Finite.wellFounded_of_trans_of_irrefl _
  exact Subrelation.wf (fun h => Relation.TransGen.single h) hwf

namespace IsClassTree

theorem superclass_exists (tree : p.IsClassTree) (h : p.Extends c s) :
    ∃ decl, p.classAt s = .ok decl :=
  tree.isForest.superclass_exists h

/-- What holds of the root, and of a class whenever it holds of the superclass, holds of all
classes. -/
theorem induction (tree : p.IsClassTree) {motive : ClassId → Prop}
    (root : ∀ r, p.IsRoot r → motive r)
    (subclass : ∀ c s, p.Extends c s → motive s → motive c)
    {decl : ClassDecl} (h : p.classAt c = .ok decl) : motive c := by
  induction c using (wellFounded_extends tree.acyclic).induction generalizing decl with
  | _ c ih =>
    rcases isRoot_or_extends h with hroot | ⟨s, hs⟩
    · exact root c hroot
    · obtain ⟨sdecl, hsdecl⟩ := tree.superclass_exists hs
      exact subclass c s hs (ih s hs hsdecl)

end IsClassTree

/-! ## A check -/

/-- The two records of the hierarchy agree, only the first class is a root, and every other class
comes after its superclass. -/
def linkedInOrder (p : Program) : Bool :=
  p.classes.toList.zipIdx.all fun (decl, i) =>
    (match decl.superclass with
      | none => i == 0
      | some s => s.toNat < i && p.classes[s.toNat]?.any (·.subclasses.contains (.ofNat i)))
    && decl.subclasses.all fun c => p.classes[c.toNat]?.any (·.superclass == some (.ofNat i))

/-- Hierarchies that pass the check are well linked. -/
theorem isClassTree_of_linkedInOrder (h : p.linkedInOrder) : p.IsClassTree := by
  have hentry : ∀ {c decl}, p.classAt c = .ok decl →
      (match decl.superclass with
        | none => c.toNat = 0
        | some s => s.toNat < c.toNat ∧ p.HasSubclass s c) ∧
      ∀ d ∈ decl.subclasses, p.Extends d c := by
    intro c decl hdecl
    have hmem : (decl, c.toNat) ∈ p.classes.toList.zipIdx := by
      rw [List.mk_mem_zipIdx_iff_getElem?, Array.getElem?_toList]
      exact lookup_eq_ok_iff.1 hdecl
    have hchecked := List.all_eq_true.1 h _ hmem
    rw [Bool.and_eq_true, NodeId.ofNat_toNat] at hchecked
    obtain ⟨hup, hdown⟩ := hchecked
    constructor
    · cases hs : decl.superclass with
      | none => simpa [hs] using hup
      | some s =>
        simp only [hs, Bool.and_eq_true, decide_eq_true_eq, Option.any_eq_true] at hup
        obtain ⟨hlt, sdecl, hsdecl, hcontains⟩ := hup
        exact ⟨hlt, sdecl, lookup_eq_ok_iff.2 hsdecl, by simpa using hcontains⟩
    · intro d hd
      have hlink := List.all_eq_true.1 hdown d hd
      rw [Option.any_eq_true] at hlink
      obtain ⟨ddecl, hddecl, hsuper⟩ := hlink
      exact ⟨ddecl, lookup_eq_ok_iff.2 hddecl, by simpa using hsuper⟩
  have hup : ∀ {c s}, p.Extends c s → s.toNat < c.toNat ∧ p.HasSubclass s c := by
    rintro c s ⟨decl, hdecl, hs⟩
    simpa only [hs] using (hentry hdecl).1
  have hroot : ∀ {c}, p.IsRoot c → c.toNat = 0 := by
    rintro c ⟨decl, hdecl, hnone⟩
    simpa only [hnone] using (hentry hdecl).1
  refine ⟨fun c s => ⟨fun hs => (hup hs).2, ?_⟩, acyclic_of_lt fun c s hs => (hup hs).1, ?_⟩
  · rintro ⟨decl, hdecl, hc⟩
    exact (hentry hdecl).2 c hc
  · intro c d hc hd
    exact NodeId.toNat_inj.1 ((hroot hc).trans (hroot hd).symm)

/-! ## Ancestries -/

/-- There are no more different classes than the arena holds. -/
theorem length_le_size_of_nodup {cs : List ClassId} (hnodup : cs.Nodup)
    (hcs : ∀ c ∈ cs, ∃ decl, p.classAt c = .ok decl) : cs.length ≤ p.classes.size := by
  have hpositions : (cs.map NodeId.toNat).Nodup := hnodup.map fun _ _ => NodeId.toNat_inj.1
  have hsubset : cs.map NodeId.toNat ⊆ List.range p.classes.size := by
    intro n hn
    obtain ⟨c, hc, rfl⟩ := List.mem_map.1 hn
    obtain ⟨decl, hdecl⟩ := hcs c hc
    exact List.mem_range.2 (Array.getElem?_eq_some_iff.1 (lookup_eq_ok_iff.1 hdecl)).1
  simpa using (List.subperm_of_subset hpositions hsubset).length_le

/-- `as` are the strict ancestors of `c`, nearest first, up to a root. -/
inductive Ancestry (p : Program) : ClassId → List ClassId → Prop where
  | root {c : ClassId} : p.IsRoot c → Ancestry p c []
  | link {c s : ClassId} {as : List ClassId} : p.Extends c s → Ancestry p s as →
      Ancestry p c (s :: as)

/-- Where superclasses are classes of the program and no class is its own ancestor, every walk up
comes to a root. -/
theorem exists_ancestry (closed : ∀ c s, p.Extends c s → ∃ decl, p.classAt s = .ok decl)
    (acyclic : ∀ c, ¬ Relation.TransGen p.Extends c c) {decl : ClassDecl}
    (h : p.classAt c = .ok decl) : ∃ as, p.Ancestry c as := by
  induction c using (wellFounded_extends acyclic).induction generalizing decl with
  | _ c ih =>
    rcases isRoot_or_extends h with hroot | ⟨s, hs⟩
    · exact ⟨[], .root hroot⟩
    · obtain ⟨sdecl, hsdecl⟩ := closed c s hs
      obtain ⟨as, has⟩ := ih s hs hsdecl
      exact ⟨s :: as, .link hs has⟩

theorem IsForest.exists_ancestry (forest : p.IsForest) {decl : ClassDecl}
    (h : p.classAt c = .ok decl) : ∃ as, p.Ancestry c as :=
  Program.exists_ancestry (fun _ _ => forest.superclass_exists) forest.acyclic h

theorem IsClassTree.exists_ancestry (tree : p.IsClassTree) {decl : ClassDecl}
    (h : p.classAt c = .ok decl) : ∃ as, p.Ancestry c as :=
  tree.isForest.exists_ancestry h

namespace Ancestry

variable {as : List ClassId}

theorem exists_decl (h : p.Ancestry c as) : ∃ decl, p.classAt c = .ok decl := by
  cases h with
  | root hr => exact ⟨hr.choose, hr.choose_spec.1⟩
  | link hs _ => exact ⟨hs.choose, hs.choose_spec.1⟩

/-- The ancestry lists the classes above. -/
theorem mem_iff (h : p.Ancestry c as) : d ∈ as ↔ Relation.TransGen p.Extends c d := by
  induction h with
  | root hr =>
    refine ⟨fun hd => absurd hd (by simp), fun hd => ?_⟩
    obtain ⟨_, hstep, _⟩ := Relation.TransGen.head'_iff.1 hd
    exact absurd hstep hr.not_extends
  | @link c s as hs _ ih =>
    rw [List.mem_cons, ih]
    constructor
    · rintro (rfl | hd)
      · exact .single hs
      · exact .head hs hd
    · intro hd
      obtain ⟨s', hstep, hrest⟩ := Relation.TransGen.head'_iff.1 hd
      obtain rfl := hs.unique hstep
      rcases Relation.reflTransGen_iff_eq_or_transGen.1 hrest with rfl | hrest
      · exact Or.inl rfl
      · exact Or.inr hrest

theorem mem_cons_iff (h : p.Ancestry c as) : d ∈ c :: as ↔ p.Descends c d := by
  rw [List.mem_cons, h.mem_iff, Descends, Relation.reflTransGen_iff_eq_or_transGen]

/-- No class occurs twice on the way to the root. -/
theorem nodup (h : p.Ancestry c as) (acyclic : ∀ c, ¬ Relation.TransGen p.Extends c c) :
    (c :: as).Nodup := by
  induction h with
  | root => simp
  | @link c s as hs has ih =>
    refine List.nodup_cons.2 ⟨fun hmem => acyclic c ?_, ih⟩
    exact (Ancestry.mem_iff (.link hs has)).1 hmem

/-- A class and its ancestors are classes of the program. -/
theorem classAt_of_mem (h : p.Ancestry c as) : ∀ d ∈ c :: as, ∃ decl, p.classAt d = .ok decl := by
  induction h with
  | root hr => simpa using (Ancestry.root hr).exists_decl
  | link hs has ih => exact List.forall_mem_cons.2 ⟨(Ancestry.link hs has).exists_decl, ih⟩

/-- A class has fewer strict ancestors than there are classes. -/
theorem length_lt_size (h : p.Ancestry c as)
    (acyclic : ∀ c, ¬ Relation.TransGen p.Extends c c) : as.length < p.classes.size :=
  length_le_size_of_nodup (h.nodup acyclic) h.classAt_of_mem

/-- A bound that reaches the root does not stop the walk. -/
theorem climb_eq (h : p.Ancestry c as) {decl : ClassDecl} (hdecl : p.classAt c = .ok decl)
    {bound : Nat} (hbound : as.length ≤ bound) :
    p.climb bound decl.superclass = ⟨as, none⟩ := by
  induction h generalizing decl bound with
  | root hr =>
    obtain ⟨decl', hdecl', hnone⟩ := hr
    obtain rfl : decl = decl' := Except.ok.inj (hdecl.symm.trans hdecl')
    rw [hnone, climb]
  | @link c s as hs has ih =>
    obtain ⟨decl', hdecl', hs⟩ := hs
    obtain rfl : decl = decl' := Except.ok.inj (hdecl.symm.trans hdecl')
    obtain ⟨sdecl, hsdecl⟩ := has.exists_decl
    cases bound with
    | zero => simp at hbound
    | succ bound =>
      have hrest := ih hsdecl (Nat.le_of_succ_le_succ hbound)
      rw [hs, climb, hsdecl]
      simp only [hrest]

/-- On a class tree the walk up finds the whole ancestry. -/
theorem lineage_eq (h : p.Ancestry c as)
    (acyclic : ∀ c, ¬ Relation.TransGen p.Extends c c) : p.lineage c = ⟨as, none⟩ := by
  obtain ⟨decl, hdecl⟩ := h.exists_decl
  rw [lineage, hdecl]
  exact h.climb_eq hdecl (Nat.le_of_lt (h.length_lt_size acyclic))

end Ancestry

/-! ## What a walk finds -/

/-- A walk finds classes of the program only, each by superclass links. -/
theorem descends_of_mem_climb {bound : Nat} {start : Option ClassId}
    (h : d ∈ (p.climb bound start).ancestors) :
    (∃ s, start = some s ∧ p.Descends s d) ∧ ∃ decl, p.classAt d = .ok decl := by
  induction bound generalizing start with
  | zero =>
    cases start with
    | none => simp [climb] at h
    | some s =>
      rw [climb] at h
      split at h <;> simp at h
  | succ bound ih =>
    cases start with
    | none => simp [climb] at h
    | some s =>
      rw [climb] at h
      split at h
      · simp at h
      · rename_i decl hdecl
        rcases List.mem_cons.1 h with rfl | h
        · exact ⟨⟨d, rfl, .refl⟩, decl, hdecl⟩
        · obtain ⟨⟨s', hs', hdesc⟩, hd⟩ := ih h
          exact ⟨⟨s, rfl, .head ⟨decl, hdecl, hs'⟩ hdesc⟩, hd⟩

theorem transGen_of_mem_lineage (h : d ∈ (p.lineage c).ancestors) :
    Relation.TransGen p.Extends c d ∧ ∃ decl, p.classAt d = .ok decl := by
  unfold lineage at h
  split at h
  · simp at h
  · rename_i decl hdecl
    obtain ⟨⟨s, hs, hdesc⟩, hd⟩ := descends_of_mem_climb h
    exact ⟨.head' ⟨decl, hdecl, hs⟩ hdesc, hd⟩

/-! ## Queries -/

/-- A search for one class comes to it if it is among the ancestors.  Otherwise it ends as the walk
did. -/
theorem search_class (l : Lineage) (d : ClassId) :
    (l.search fun c => .ok (if c = d then some c else none)) =
      if d ∈ l.ancestors then .ok (some d)
      else match l.stop with
        | some fault => .error fault
        | none => .ok none := by
  have hfind : ∀ as : List ClassId,
      as.findSomeM? (fun c => (.ok (if c = d then some c else none) : Except Fault _)) =
        .ok (if d ∈ as then some d else none) := by
    intro as
    induction as with
    | nil => rfl
    | cons a as ih =>
      rw [List.findSomeM?]
      by_cases ha : a = d
      · simp [ha, bind, Except.bind, pure, Except.pure]
      · simp [ha, Ne.symm ha, bind, Except.bind, ih]
  rw [Lineage.search, hfind]
  by_cases hd : d ∈ l.ancestors
  · simp [hd, bind, Except.bind, pure, Except.pure]
  · simp only [hd, if_false, bind, Except.bind]
    cases l.stop <;> rfl

open Classical in
/-- Where the walk up comes to a root, the query for subclasses decides descent. -/
theorem Ancestry.isSubclass_eq {as : List ClassId} (h : p.Ancestry c as)
    (acyclic : ∀ c, ¬ Relation.TransGen p.Extends c c) :
    p.isSubclass c d = .ok (decide (p.Descends c d)) := by
  have hmem := h.mem_cons_iff (d := d)
  rw [List.mem_cons] at hmem
  rw [isSubclass, h.lineage_eq acyclic, search_class]
  by_cases hcd : c = d
  · have hdesc : p.Descends c d := hmem.1 (Or.inl hcd.symm)
    simp [hcd, show p.Descends d d from Relation.ReflTransGen.refl]
  · by_cases hd : d ∈ as
    · simp [hcd, hd, hmem.1 (Or.inr hd), bind, Except.bind, pure, Except.pure]
    · have hnot : ¬ p.Descends c d := fun hdesc =>
        (hmem.2 hdesc).elim (fun e => hcd e.symm) hd
      simp [hcd, hd, hnot, bind, Except.bind, pure, Except.pure]

namespace IsClassTree

variable (tree : p.IsClassTree) {decl : ClassDecl}
include tree

open Classical in
/-- The query for subclasses decides descent. -/
theorem isSubclass_eq (h : p.classAt c = .ok decl) :
    p.isSubclass c d = .ok (decide (p.Descends c d)) := by
  obtain ⟨as, has⟩ := tree.exists_ancestry h
  exact has.isSubclass_eq tree.acyclic

/-- What a class inherits under a name is what its superclass answers the name with. -/
theorem inheritedMethod_of_extends (h : p.Extends c s) (name : String) :
    p.inheritedMethod c name = p.lookupMethod s name := by
  obtain ⟨sdecl, hsdecl⟩ := tree.superclass_exists h
  obtain ⟨as, has⟩ := tree.exists_ancestry hsdecl
  rw [inheritedMethod, (Ancestry.link h has).lineage_eq tree.acyclic, lookupMethod,
    inheritedMethod, has.lineage_eq tree.acyclic]
  simp only [Lineage.search, List.findSomeM?]
  cases p.ownMethod s name with
  | error fault => rfl
  | ok own => cases own <;> rfl

end IsClassTree

end Program

end MipsBackend
