import Mathlib.Data.List.Chain
import MipsBackend.Proofs.Layout.Ranges
import MipsBackend.Proofs.Source.WellFormed

/-!
# Subtyping

`Program.isSubtype` compares types by walking up from a class.  `Fits` states the rules that it
decides (`isSubtype_eq_true_iff`): a type fits itself, null fits every reference type, a class fits
its ancestors, and arrays fit the classes without a superclass.

All that is asked of the program is that no class is its own ancestor.  Superclass links may lead
out of the arena, where a walk fails: a class that is found on the way there was found before
(`mem_lineage_iff`).  `subtypingLaws` says that subtyping is a partial order, and that what fits has
the same width on the stack.
-/

namespace MipsBackend

namespace Program

variable {p : Program} {c d s : ClassId} {bound : Nat} {R S T : Ty}

/-! ## What a walk up finds -/

/-- A walk comes to the end of a chain of superclass links, if the bound is no shorter. -/
theorem mem_climb_of_chain {links : List ClassId} (hchain : (s :: links).IsChain p.Extends)
    (hlast : ∃ decl, p.classAt ((s :: links).getLast (List.cons_ne_nil _ _)) = .ok decl)
    (hbound : links.length < bound) :
    (s :: links).getLast (List.cons_ne_nil _ _) ∈ (p.climb bound (some s)).ancestors := by
  induction links generalizing s bound with
  | nil =>
    obtain ⟨decl, hdecl⟩ := hlast
    obtain ⟨bound, rfl⟩ := Nat.exists_eq_succ_of_ne_zero (Nat.ne_zero_of_lt hbound)
    rw [List.getLast_singleton] at hdecl ⊢
    rw [climb, hdecl]
    exact List.mem_cons_self
  | cons s' links ih =>
    obtain ⟨⟨decl, hdecl, hsuper⟩, hrest⟩ := List.isChain_cons_cons.1 hchain
    obtain ⟨bound, rfl⟩ := Nat.exists_eq_succ_of_ne_zero (Nat.ne_zero_of_lt hbound)
    rw [List.getLast_cons_cons] at hlast ⊢
    rw [climb, hdecl]
    refine List.mem_cons_of_mem _ ?_
    rw [hsuper]
    exact ih hrest hlast (Nat.lt_of_succ_lt_succ hbound)

/-- Without cycles, a chain of superclass links is no longer than there are classes. -/
theorem length_le_size_of_chain (acyclic : ∀ c, ¬ Relation.TransGen p.Extends c c)
    {links : List ClassId} (hchain : (s :: links).IsChain p.Extends)
    (hlast : ∃ decl, p.classAt ((s :: links).getLast (List.cons_ne_nil _ _)) = .ok decl) :
    (s :: links).length ≤ p.classes.size := by
  have hnodup : (s :: links).Nodup := by
    have : IsTrans ClassId (Relation.TransGen p.Extends) := ⟨fun _ _ _ => .trans⟩
    refine (hchain.imp fun _ _ => Relation.TransGen.single).pairwise.imp ?_
    rintro c _ hcd rfl
    exact acyclic c hcd
  refine length_le_size_of_nodup hnodup ?_
  exact hchain.backwards_cons_induction (fun c => ∃ decl, p.classAt c = .ok decl) _ rfl
    (fun _ _ ⟨decl, hdecl, _⟩ _ => ⟨decl, hdecl⟩) hlast

/-- The ancestors that are found are the ancestors that are classes of the program. -/
theorem mem_lineage_iff (acyclic : ∀ c, ¬ Relation.TransGen p.Extends c c) :
    d ∈ (p.lineage c).ancestors ↔
      Relation.TransGen p.Extends c d ∧ ∃ decl, p.classAt d = .ok decl := by
  refine ⟨transGen_of_mem_lineage, ?_⟩
  rintro ⟨h, hd⟩
  obtain ⟨s, ⟨decl, hdecl, hsuper⟩, hdesc⟩ := Relation.TransGen.head'_iff.1 h
  obtain ⟨links, hchain, rfl⟩ := List.exists_isChain_cons_of_relationReflTransGen hdesc
  rw [lineage, hdecl]
  simp only [hsuper]
  exact mem_climb_of_chain hchain hd (length_le_size_of_chain acyclic hchain hd)

theorem isSubclass_eq_true_iff :
    p.isSubclass c d = .ok true ↔ c = d ∨ d ∈ (p.lineage c).ancestors := by
  rw [isSubclass, search_class]
  by_cases hcd : c = d
  · simp [hcd, pure, Except.pure]
  · by_cases hd : d ∈ (p.lineage c).ancestors
    · simp [hcd, hd, bind, Except.bind, pure, Except.pure]
    · cases hstop : (p.lineage c).stop <;>
        simp [hcd, hd, bind, Except.bind, pure, Except.pure]

/-- A class of the program is found from all its descendants. -/
theorem isSubclass_iff_descends (acyclic : ∀ c, ¬ Relation.TransGen p.Extends c c)
    (hd : ∃ decl, p.classAt d = .ok decl) : p.isSubclass c d = .ok true ↔ p.Descends c d := by
  rw [isSubclass_eq_true_iff, mem_lineage_iff acyclic, Descends,
    Relation.reflTransGen_iff_eq_or_transGen, eq_comm (a := c), and_iff_left hd]

/-! ## The rules of subtyping -/

/-- When a value of one type is known to be usable as another. -/
inductive Fits (p : Program) : Ty → Ty → Prop where
  | refl (ty : Ty) : Fits p ty ty
  | null {ty : Ty} (h : ty.isReference) : Fits p .null ty
  | object {c d : ClassId} (h : Relation.TransGen p.Extends c d)
      (hd : ∃ decl, p.classAt d = .ok decl) : Fits p (.object c) (.object d)
  | array {elem : Ty} {c : ClassId} (h : p.IsRoot c) : Fits p (.array elem) (.object c)

namespace Fits

theorem width (h : p.Fits S T) :
    S.words = T.words ∧ S.isScalar = T.isScalar ∧ S.isVoid = T.isVoid ∧
      S.isReference = T.isReference := by
  cases h with
  | refl => exact ⟨rfl, rfl, rfl, rfl⟩
  | null h => cases T <;> first | exact absurd h Bool.false_ne_true | exact ⟨rfl, rfl, rfl, rfl⟩
  | object => exact ⟨rfl, rfl, rfl, rfl⟩
  | array => exact ⟨rfl, rfl, rfl, rfl⟩

theorem trans (hRS : p.Fits R S) (hST : p.Fits S T) : p.Fits R T := by
  cases hRS with
  | refl => exact hST
  | null h => exact .null (hST.width.2.2.2 ▸ h)
  | object h hd =>
    cases hST with
    | refl => exact .object h hd
    | object h' he => exact .object (h.trans h') he
  | array h =>
    cases hST with
    | refl => exact .array h
    | object h' =>
      -- Nothing is above a root.
      obtain ⟨_, hstep, _⟩ := Relation.TransGen.head'_iff.1 h'
      exact absurd hstep h.not_extends

theorem antisymm (acyclic : ∀ c, ¬ Relation.TransGen p.Extends c c) (hST : p.Fits S T)
    (hTS : p.Fits T S) : S = T := by
  cases hST with
  | refl => rfl
  | null => cases hTS <;> rfl
  | object h =>
    cases hTS with
    | refl => rfl
    | object h' => exact absurd (h.trans h') (acyclic _)
  | array => cases hTS

end Fits

/-- The query decides the rules. -/
theorem isSubtype_eq_true_iff (acyclic : ∀ c, ¬ Relation.TransGen p.Extends c c) :
    p.isSubtype S T = .ok true ↔ p.Fits S T := by
  by_cases hST : S = T
  · subst hST
    simp [isSubtype, Fits.refl]
  unfold isSubtype
  rw [if_neg hST]
  constructor
  · intro h
    split at h
    · exact .null (Except.ok.inj h)
    · rename_i c d
      obtain ⟨hdesc, hd⟩ := (mem_lineage_iff acyclic).1
        ((isSubclass_eq_true_iff.1 h).resolve_left fun hcd => hST (hcd ▸ rfl))
      exact .object hdesc hd
    · rename_i elem c
      cases hdecl : p.classAt c with
      | error fault => simp [hdecl, bind, Except.bind] at h
      | ok decl =>
        rw [hdecl] at h
        exact .array ⟨decl, hdecl, Option.isNone_iff_eq_none.1 (Except.ok.inj h)⟩
    · exact absurd (Except.ok.inj h) Bool.false_ne_true
  · intro h
    cases h with
    | refl => exact absurd rfl hST
    | null h => exact congrArg _ h
    | object h hd =>
      exact isSubclass_eq_true_iff.2 (Or.inr ((mem_lineage_iff acyclic).2 ⟨h, hd⟩))
    | array h =>
      obtain ⟨decl, hdecl, hnone⟩ := h
      simp [hdecl, hnone, bind, Except.bind, pure, Except.pure]

/-- Where superclasses are classes of the program, the query answers for types of the program. -/
theorem exists_isSubtype (closed : ∀ c s, p.Extends c s → ∃ decl, p.classAt s = .ok decl)
    (acyclic : ∀ c, ¬ Relation.TransGen p.Extends c c) (hS : S.isIn p) (hT : T.isIn p) :
    ∃ b, p.isSubtype S T = .ok b := by
  unfold isSubtype
  split
  · exact ⟨true, rfl⟩
  · split
    · exact ⟨_, rfl⟩
    · obtain ⟨decl, hdecl⟩ := hasClass_iff.1 hS
      obtain ⟨as, has⟩ := exists_ancestry closed acyclic hdecl
      exact ⟨_, has.isSubclass_eq acyclic⟩
    · obtain ⟨decl, hdecl⟩ := hasClass_iff.1 hT
      exact ⟨_, by rw [hdecl]; rfl⟩
    · exact ⟨false, rfl⟩

/-! ## The laws -/

/-- Subtyping is a partial order on all types, and what fits has the same width on the stack. -/
structure SubtypingLaws (p : Program) : Prop where
  refl : ∀ T, p.isSubtype T T = .ok true
  trans : ∀ R S T, p.isSubtype R S = .ok true → p.isSubtype S T = .ok true →
    p.isSubtype R T = .ok true
  antisymm : ∀ S T, p.isSubtype S T = .ok true → p.isSubtype T S = .ok true → S = T
  /-- Subtypes take as many words, and are of the same one of the three sorts. -/
  width : ∀ S T, p.isSubtype S T = .ok true →
    S.words = T.words ∧ S.isScalar = T.isScalar ∧ S.isVoid = T.isVoid ∧
      S.isReference = T.isReference
  /-- The query fails for no two types over the classes, unless a superclass link leads nowhere. -/
  answers : (∀ c s, p.Extends c s → p.hasClass s) → ∀ S T, S.isIn p → T.isIn p →
    ∃ b, p.isSubtype S T = .ok b

/-- Without cycles among the superclass links, subtyping obeys its laws. -/
theorem subtypingLaws (acyclic : ∀ c, ¬ Relation.TransGen p.Extends c c) : p.SubtypingLaws where
  refl _ := (isSubtype_eq_true_iff acyclic).2 (.refl _)
  trans R S T := by
    simp only [isSubtype_eq_true_iff acyclic]
    exact Fits.trans
  antisymm S T := by
    simp only [isSubtype_eq_true_iff acyclic]
    exact Fits.antisymm acyclic
  width S T := by
    rw [isSubtype_eq_true_iff acyclic]
    exact Fits.width
  answers closed _ _ := exists_isSubtype (fun c s h => hasClass_iff.1 (closed c s h)) acyclic

/-- Squares are shapes and shapes are objects, so squares are objects.  Each is one word. -/
theorem subtypingLaws_shapes : shapes.SubtypingLaws ∧
    shapes.isSubtype (.object ⟨2⟩) (.object ⟨0⟩) = .ok true ∧
    shapes.isSubtype (.array (.array .int)) (.object ⟨0⟩) = .ok true := by
  have laws := subtypingLaws isClassTree_shapes.acyclic
  exact ⟨laws, laws.trans _ (.object ⟨1⟩) _ rfl rfl, rfl⟩

end Program

end MipsBackend
