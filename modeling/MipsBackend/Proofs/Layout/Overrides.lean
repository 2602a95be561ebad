import MipsBackend.Proofs.Layout.Dispatch

/-!
# Overriding methods of a program that was laid out

Dispatch tables are built along the links between overriding methods, and the layout pass checks
every link against the table that it is about to change.  A link is right if it names what the class
inherits: the method of the nearest class above that declares the name (`Inherits`).  On a class
tree the walk of `Program.inheritedMethod` finds just this (`IsClassTree.inheritedMethod_eq_iff`).

The pass accepts no wrong link: on a program that can be laid out, every method overrides what its
class inherits (`overridden_of_compute`).
-/

namespace MipsBackend

namespace Program

variable {p : Program} {c s : ClassId} {cdecl : ClassDecl} {m : MethodId} {o o' : Option MethodId}
  {name : String}

/-- The class lists a method under a name. -/
def Declares (p : Program) (c : ClassId) (name : String) (m : MethodId) : Prop :=
  ∃ decl, p.classAt c = .ok decl ∧ (name, m) ∈ decl.methods.entries

/-- The second class is a strict ancestor of the first one. -/
def Below (p : Program) : ClassId → ClassId → Prop :=
  Relation.TransGen p.Extends

/-- What a class inherits under a name: the method of the nearest strict ancestor that declares the
name, or nothing if none does. -/
def Inherits (p : Program) (c : ClassId) (name : String) : Option MethodId → Prop
  | some m => ∃ s, p.Below c s ∧ p.Declares s name m ∧
      ∀ d, p.Below c d → p.Below d s → ∀ m', ¬ p.Declares d name m'
  | none => ∀ s, p.Below c s → ∀ m, ¬ p.Declares s name m

/-- A name is bound once in a class. -/
theorem Declares.unique {m' : MethodId} (h : p.Declares c name m) (h' : p.Declares c name m') :
    m = m' := by
  obtain ⟨decl, hdecl, hm⟩ := h
  obtain ⟨decl', hdecl', hm'⟩ := h'
  obtain rfl := Except.ok.inj (hdecl.symm.trans hdecl')
  rw [← MethodTable.find?_eq_some_iff] at hm hm'
  exact Option.some.inj (hm.symm.trans hm')

/-- Of two classes above one class, one is above the other. -/
theorem Below.trichotomy {d : ClassId} (hs : p.Below c s) (hd : p.Below c d) :
    s = d ∨ p.Below s d ∨ p.Below d s := by
  have hright : Relator.RightUnique p.Extends := fun _ _ _ h h' => h.unique h'
  rcases Relation.ReflTransGen.total_of_right_unique hright hs.to_reflTransGen
    hd.to_reflTransGen with hup | hup
  · rcases Relation.reflTransGen_iff_eq_or_transGen.1 hup with rfl | hup
    · exact .inl rfl
    · exact .inr (.inl hup)
  · rcases Relation.reflTransGen_iff_eq_or_transGen.1 hup with rfl | hup
    · exact .inl rfl
    · exact .inr (.inr hup)

theorem Inherits.unique (h : p.Inherits c name o) (h' : p.Inherits c name o') : o = o' := by
  cases o with
  | none =>
    cases o' with
    | none => rfl
    | some m' =>
      obtain ⟨s, hs, hm', _⟩ := h'
      exact absurd hm' (h s hs m')
  | some m =>
    obtain ⟨s, hs, hm, hnearest⟩ := h
    cases o' with
    | none => exact absurd hm (h' s hs m)
    | some m' =>
      obtain ⟨s', hs', hm', hnearest'⟩ := h'
      rcases hs.trichotomy hs' with rfl | hup | hup
      · rw [hm.unique hm']
      · exact absurd hm (hnearest' s hs hup m)
      · exact absurd hm' (hnearest s' hs' hup m')

/-- The first class on the way up decides if it declares the name. -/
theorem IsClassTree.inherits_of_declares (tree : p.IsClassTree) (hs : p.Extends c s)
    (hm : p.Declares s name m) : p.Inherits c name (some m) := by
  refine ⟨s, .single hs, hm, fun d hcd hds => ?_⟩
  obtain ⟨s', hs', hdesc⟩ := Relation.TransGen.head'_iff.1 hcd
  obtain rfl := hs.unique hs'
  exact absurd (Relation.TransGen.trans_right hdesc hds) (tree.acyclic s)

/-- Otherwise the class inherits what its superclass inherits. -/
theorem inherits_of_not_declares (hs : p.Extends c s) (hnone : ∀ m, ¬ p.Declares s name m)
    (h : p.Inherits s name o) : p.Inherits c name o := by
  have habove : ∀ {d}, p.Below c d → d = s ∨ p.Below s d := by
    intro d hd
    obtain ⟨s', hs', hdesc⟩ := Relation.TransGen.head'_iff.1 hd
    obtain rfl := hs.unique hs'
    rcases Relation.reflTransGen_iff_eq_or_transGen.1 hdesc with rfl | hup
    · exact .inl rfl
    · exact .inr hup
  cases o with
  | none =>
    intro d hd
    rcases habove hd with rfl | hup
    · exact hnone
    · exact h d hup
  | some m =>
    obtain ⟨d, hd, hm, hnearest⟩ := h
    refine ⟨d, .head hs hd, hm, fun e he hed => ?_⟩
    rcases habove he with rfl | hup
    · exact hnone
    · exact hnearest e hup hed

/-- The walk up finds what the class inherits. -/
theorem IsClassTree.exists_inherits (tree : p.IsClassTree) (name : String)
    (hc : p.classAt c = .ok cdecl) :
    ∃ o, p.inheritedMethod c name = .ok o ∧ p.Inherits c name o := by
  refine tree.induction
    (motive := fun c => ∃ o, p.inheritedMethod c name = .ok o ∧ p.Inherits c name o) ?_ ?_ hc
  · intro r hr
    refine ⟨none, ?_, fun s hs => ?_⟩
    · rw [inheritedMethod, (Ancestry.root hr).lineage_eq tree.acyclic]
      rfl
    · obtain ⟨_, hstep, _⟩ := Relation.TransGen.head'_iff.1 hs
      exact absurd hstep hr.not_extends
  · rintro c s hs ⟨o, ho, hinherits⟩
    obtain ⟨sdecl, hsdecl⟩ := tree.superclass_exists hs
    rw [tree.inheritedMethod_of_extends hs]
    by_cases hown : ∃ m, (name, m) ∈ sdecl.methods.entries
    · obtain ⟨m, hm⟩ := hown
      exact ⟨some m, lookupMethod_of_own hsdecl hm,
        tree.inherits_of_declares hs ⟨sdecl, hsdecl, hm⟩⟩
    · rw [lookupMethod_of_not_own hsdecl (not_exists.1 hown)]
      refine ⟨o, ho, inherits_of_not_declares hs ?_ hinherits⟩
      rintro m ⟨sdecl', hsdecl', hm⟩
      obtain rfl := Except.ok.inj (hsdecl.symm.trans hsdecl')
      exact hown ⟨m, hm⟩

theorem IsClassTree.inheritedMethod_eq_iff (tree : p.IsClassTree) (hc : p.classAt c = .ok cdecl) :
    p.inheritedMethod c name = .ok o ↔ p.Inherits c name o := by
  obtain ⟨o', ho', hinherits⟩ := tree.exists_inherits name hc
  rw [ho', Except.ok.injEq]
  constructor
  · rintro rfl
    exact hinherits
  · exact fun h => hinherits.unique h

end Program

namespace Layout

variable {p : Program} {L : Layout} {data : Code} {c : ClassId} {cdecl : ClassDecl}
  {added m : MethodId} {decl : MethodDecl} {vtable vtable' placed todo : List MethodId}

/-- A method finds a place in the table only if it overrides what the class inherits. -/
theorem Answers.overridden_of_place (h : Answers p L c placed vtable) (methods : p.MethodsLinked)
    (hid : p.methodAt added = .ok decl) (hplaced : MethodPlaced p L c vtable added vtable')
    (hfresh : ∀ m' ∈ placed, ∀ decl', p.methodAt m' = .ok decl' → decl'.name ≠ decl.name) :
    p.inheritedMethod c decl.name = .ok decl.overridden := by
  obtain ⟨decl', ml, _, hdecl', _, _, hassigned⟩ := hplaced
  obtain rfl : decl = decl' := Except.ok.inj (hid.symm.trans hdecl')
  generalize ml.slot = slot at hassigned
  cases hassigned with
  | override hover _ ho =>
    obtain ⟨odecl, hodecl, hname⟩ := methods.overridden hid hover
    rw [hover]
    exact (h.inherited_of_entry hfresh ho hodecl hname).1
  | opened hnone hinherited => rw [hnone, hinherited]

/-- All methods of a class that was laid out override what the class inherits. -/
theorem Answers.overridden_of_mem (h : Answers p L c placed vtable) (methods : p.MethodsLinked)
    (slots : L.SlotsPositive) (hc : p.classAt c = .ok cdecl)
    (hlist : placed ++ todo = cdecl.methods.methods)
    (hfolds : Folds (MethodPlaced p L c) vtable todo vtable') (hm : m ∈ todo)
    (hdecl : p.methodAt m = .ok decl) : p.inheritedMethod c decl.name = .ok decl.overridden := by
  induction hfolds generalizing placed with
  | nil => exact absurd hm List.not_mem_nil
  | @cons _ _ _ added todo hfirst _ ih =>
    obtain ⟨adecl, _, _, hadded, _⟩ := id hfirst
    have hfresh : ∀ m' ∈ placed, ∀ decl', p.methodAt m' = .ok decl' → decl'.name ≠ adecl.name :=
      fun m' hm' decl' hdecl' => name_ne_of_methods_eq methods hc hlist hm' hdecl' hadded
    rcases List.mem_cons.1 hm with rfl | hm
    · obtain rfl := Except.ok.inj (hadded.symm.trans hdecl)
      exact h.overridden_of_place methods hdecl hfirst hfresh
    · exact ih (h.place methods slots hadded hfirst hfresh) (by simpa using hlist) hm

/-- The layout pass accepts no method that overrides anything else than what its class inherits. -/
theorem overridden_of_compute (tree : p.IsClassTree) (methods : p.MethodsLinked)
    (h : compute p = .ok (L, data)) (hdecl : p.methodAt m = .ok decl) :
    p.inheritedMethod decl.owner decl.name = .ok decl.overridden := by
  have hcomplete := compute_eq_ok h
  obtain ⟨cdecl, hc, hentry⟩ := methods.listed hdecl
  have hm : m ∈ cdecl.methods.methods := List.mem_map_of_mem (f := Prod.snd) hentry
  obtain ⟨root, hrec⟩ := hcomplete.exists_recorded tree hc
  obtain ⟨inherited, cl, hplaced, hfrom⟩ := hrec.exists_classPlaced tree hc
  obtain ⟨fields, hfields, hmethods, _⟩ := hplaced.exists_fields
  rw [FieldPlaced.vtable_eq hfields] at hmethods
  have hanswers : Answers p L decl.owner [] inherited.vtable := by
    rcases hfrom with ⟨hr, rfl⟩ | ⟨s, hs, hsl⟩
    · exact answers_of_isRoot hr
    · obtain ⟨sdecl, hsdecl⟩ := tree.superclass_exists hs
      obtain ⟨scl, hsound⟩ := exists_tableSound tree methods hcomplete hsdecl
      obtain rfl : scl = inherited := Except.ok.inj (hsound.layout.symm.trans hsl)
      exact answers_of_extends tree hs hsound.entry hsound.reached
  exact hanswers.overridden_of_mem methods hcomplete.slots hc (List.nil_append _) hmethods hm hdecl

end Layout

end MipsBackend
