import MipsBackend.Proofs.Builder.Runs
import MipsBackend.Proofs.Layout.Overrides
import MipsBackend.Proofs.Layout.Progress

/-!
# Built programs and the layout pass

A builder resolves the overridden method when a method is declared, and the hierarchy may grow
afterwards: a superclass may be set, or an ancestor may get a method of the same name.  So a method
may end up overriding something else than what its class inherits in the finished program.

Nothing else can go wrong.  On a built program of moderate size with a single root, the layout pass
fails exactly if there is such a method (`compute_fails_iff_of_builds`), and when it does not fail,
its dispatch tables are the look-up by name.  Of moderate size are programs in which a word can be
added to the length of every string literal.  The words of a literal are counted by rounding up, and
the shortest literal for which that overflows is a word short of the longest length there is
(`compute_fails_longLiteral`).
-/

namespace MipsBackend

namespace Program

variable {p : Program}

/-! ## Links -/

namespace Linked

variable (linked : p.Linked)
include linked

theorem isClassTree (root_unique : ∀ c d, p.IsRoot c → p.IsRoot d → c = d) : p.IsClassTree :=
  ⟨linked.forest.mirror, linked.forest.acyclic, root_unique⟩

theorem methodsLinked : p.MethodsLinked where
  owned {c cdecl name m} hc hentry := by
    have hheading := (linked.methods c name m).1 (mem_peekList.2 ⟨cdecl, hc, hentry⟩)
    obtain ⟨decl, hdecl, heq⟩ := peek_eq_some_iff.1 hheading
    obtain ⟨hname, howner⟩ := Prod.mk.inj heq
    exact ⟨decl, hdecl, hname, howner⟩
  listed {m decl} hm := by
    have hentry := (linked.methods decl.owner decl.name m).2 (peek_of_lookup hm)
    exact mem_peekList.1 hentry
  overridden {m o decl} hm ho := by
    obtain ⟨s, hheading, _⟩ := linked.overrides m decl.name decl.owner o (peek_of_lookup hm)
      (peek_eq_some_iff.2 ⟨decl, hm, ho⟩)
    obtain ⟨odecl, hodecl, heq⟩ := peek_eq_some_iff.1 hheading
    exact ⟨odecl, hodecl, (Prod.mk.inj heq).1⟩

theorem varsLinked : p.VarsLinked where
  instVars c decl hc := by
    have hown : p.instVarsOf c = decl.instVars := by rw [instVarsOf, hc]
    rw [← hown]
    exact ⟨(linked.vars.instVars c).1, fun x hx => ((linked.vars.instVars c).2 x).1 hx⟩
  formals m decl hm := by
    have hown : Layout.formalsOf p m = decl.formals := by rw [Layout.formalsOf, hm]
    rw [← hown]
    exact ⟨(linked.vars.formals m).1, fun x hx => ((linked.vars.formals m).2 x).1 hx⟩
  listed x decl hx := by
    have hkind : p.kindOf x = some decl.kind := by rw [kindOf, hx]
    cases hsort : decl.kind with
    | instVar c =>
      rw [hsort] at hkind
      exact decide_eq_true (((linked.vars.instVars c).2 x).2 hkind)
    | formal m =>
      rw [hsort] at hkind
      exact decide_eq_true (((linked.vars.formals m).2 x).2 hkind)
    | localVar init => rfl

end Linked

/-! ## Sizes -/

/-- The number of all nodes. -/
def nodeCount (p : Program) : Nat :=
  p.classes.size + p.methods.size + p.vars.size + p.stmts.size + p.exprs.size

/-- Different variables of the program are no more than there are. -/
theorem length_le_of_kinds {xs : List VarId} (hnodup : xs.Nodup)
    (hxs : ∀ x ∈ xs, ∃ kind, p.kindOf x = some kind) : xs.length ≤ p.vars.size := by
  have hpositions : (xs.map NodeId.toNat).Nodup := hnodup.map fun _ _ => NodeId.toNat_inj.1
  have hsubset : xs.map NodeId.toNat ⊆ List.range p.vars.size := by
    intro n hn
    obtain ⟨x, hx, rfl⟩ := List.mem_map.1 hn
    obtain ⟨kind, hkind⟩ := hxs x hx
    obtain ⟨decl, hdecl, _⟩ := exists_varAt hkind
    exact List.mem_range.2 (Array.getElem?_eq_some_iff.1 (lookup_eq_ok_iff.1 hdecl)).1
  simpa using (List.subperm_of_subset hpositions hsubset).length_le

theorem length_fieldTys_le (vars : p.VarsListed) {cs : List ClassId} (hcs : cs.Nodup) :
    (p.fieldTys cs).length ≤ p.vars.size := by
  have hlength : (p.fieldTys cs).length = (cs.flatMap p.instVarsOf).length := by
    rw [fieldTys, ← List.map_flatMap, List.length_map]
  rw [hlength]
  refine length_le_of_kinds (List.nodup_flatMap.2 ⟨fun c _ => (vars.instVars c).1, ?_⟩) ?_
  · refine hcs.imp ?_
    intro c d hne x hx hx'
    rw [(vars.instVars c).2] at hx
    rw [(vars.instVars d).2, hx] at hx'
    cases hx'
    exact hne rfl
  · intro x hx
    obtain ⟨c, _, hx⟩ := List.mem_flatMap.1 hx
    exact ⟨_, ((vars.instVars c).2 x).1 hx⟩

theorem objects_fit (linked : p.Linked) (tree : p.IsClassTree) (small : p.nodeCount < 2 ^ 28)
    {c : ClassId} {decl : ClassDecl} (hc : p.classAt c = .ok decl) :
    Offset.Fits (p.lowestOffset (c :: (p.lineage c).ancestors)) ∧
      Offset.Fits (p.highestOffset (c :: (p.lineage c).ancestors)) := by
  obtain ⟨as, has⟩ := tree.exists_ancestry hc
  rw [has.lineage_eq tree.acyclic]
  have hlength := length_fieldTys_le linked.vars (has.nodup tree.acyclic)
  have hscalars := List.countP_le_length (p := Ty.isScalar) (l := p.fieldTys (c :: as))
  have hreferences := List.countP_le_length (p := (!·.isScalar)) (l := p.fieldTys (c :: as))
  unfold nodeCount at small
  constructor
  · simp only [Offset.Fits, lowestOffset, firstScalarOffset, wordSize]
    omega
  · simp only [Offset.Fits, highestOffset, firstReferenceOffset, wordSize]
    omega

theorem formals_fit (linked : p.Linked) (small : p.nodeCount < 2 ^ 28) {m : MethodId}
    {decl : MethodDecl} (hm : p.methodAt m = .ok decl) : Offset.Fits (p.receiverOffset decl) := by
  have hformals := linked.varsLinked.formals m decl hm
  have hlength : decl.formals.length ≤ p.vars.size :=
    length_le_of_kinds hformals.1 fun x hx => ⟨_, hformals.2 x hx⟩
  have hwords := frameWords_le (decl.formals.map p.varTy)
  have hnonneg := p.receiverOffset_nonneg decl
  rw [List.length_map] at hwords
  rw [receiverOffset_eq, wordSize] at hnonneg ⊢
  unfold nodeCount at small
  constructor <;> omega

/-- A linked program of moderate size can be laid out if every method overrides what its class
inherits. -/
theorem layable_of_linked (linked : p.Linked) (tree : p.IsClassTree)
    (small : p.nodeCount < 2 ^ 28)
    (literals : ∀ literal ∈ p.stringLiterals, literal.2.2.utf8ByteSize < 2 ^ 31 - 4)
    (resolved : ∀ m decl, p.methodAt m = .ok decl →
      p.Inherits decl.owner decl.name decl.overridden) : p.Layable where
  tree := tree
  subclasses_nodup c decl hc := by
    have hnodup := linked.forest.nodup c
    rwa [subclassesOf, peekList, peek_of_lookup hc] at hnodup
  methods := linked.methodsLinked
  overridden m decl hm := by
    obtain ⟨cdecl, hc, _⟩ := linked.methodsLinked.listed hm
    exact (tree.inheritedMethod_eq_iff hc).2 (resolved m decl hm)
  vars := linked.varsLinked
  stringClass := linked.stringClass
  classes_small := by
    unfold nodeCount at small
    omega
  objects_small c decl hc := objects_fit linked tree small hc
  formals_small m decl hm := formals_fit linked small hm
  literals_small literal hliteral := by
    have hsmall := literals literal hliteral
    simp only [Offset.Fits, wordSize]
    omega

end Program

namespace Layout

/-- Two classes with a method of the same name.  They were linked after both methods had been
declared, so that the second method does not override the first one. -/
def shadowing : Draft where
  builder := {
    program := {
      classes := #[⟨"Object", .byte 0, none, [⟨1⟩], [], .ofList [("f", ⟨0⟩)]⟩,
        ⟨"A", .byte 1, some ⟨0⟩, [], [], .ofList [("f", ⟨1⟩)]⟩]
      methods := #[⟨"f", .user (.byte 2), ⟨0⟩, [], .void, none, [], none⟩,
        ⟨"f", .user (.byte 3), ⟨1⟩, [], .void, none, [], none⟩] }
    position := 4 }

theorem builds_shadowing : Draft.Builds {} shadowing := by
  have hcalls : ([.declareClass "Object" none, .declareClass "A" none,
      .userMethod ⟨0⟩ "f" [] .void, .userMethod ⟨1⟩ "f" [] .void].forM Builder.Call.run).run {} =
      .ok ((), { shadowing.builder with
        program := { shadowing.program with
          classes := #[⟨"Object", .byte 0, none, [], [], .ofList [("f", ⟨0⟩)]⟩,
            ⟨"A", .byte 1, none, [], [], .ofList [("f", ⟨1⟩)]⟩] } }) := by
    decide +kernel
  refine .tail (Draft.Builds.calls hcalls (by simp [Builder.Call.Admissible]))
    (.call (.setSuperclass ⟨1⟩ ⟨0⟩) ?_ ?_)
  · exact Program.not_descends_of_superclassOf (by decide +kernel) (by decide)
  · decide +kernel

/-- A class, and a string literal of some letters. -/
def withLetters (n : Nat) : Draft where
  builder := {
    program := {
      classes := #[⟨"Object", .byte 0, none, [], [], .empty⟩]
      exprs := #[⟨.byte 1, .object ⟨0⟩, .str (.ofList (.replicate n 'a'))⟩] }
    position := 2 }

section Letters

variable (n : Nat)

theorem builds_withLetters : Draft.Builds {} (withLetters n) := by
  have hcalls : ([.declareClass "Object" none, .expr (.str (.ofList (.replicate n 'a')))].forM
      Builder.Call.run).run {} = .ok ((), (withLetters n).builder) := rfl
  exact Draft.Builds.calls hcalls (by simp [Builder.Call.Admissible])

theorem isRoot_withLetters {c : ClassId} (h : (withLetters n).program.IsRoot c) : c = ⟨0⟩ := by
  obtain ⟨decl, hc, _⟩ := h
  have hlt := (Array.getElem?_eq_some_iff.1 (lookup_eq_ok_iff.1 hc)).1
  exact NodeId.toNat_inj.1 (Nat.lt_one_iff.1 hlt)

theorem methodAt_withLetters_ne_ok {m : MethodId} {decl : MethodDecl} :
    (withLetters n).program.methodAt m ≠ .ok decl := by
  intro hm
  exact absurd (Array.getElem?_eq_some_iff.1 (lookup_eq_ok_iff.1 hm)).1 (Nat.not_lt_zero _)

theorem utf8ByteSize_of_mem_withLetters {literal : ExprId × Expr × String}
    (h : literal ∈ (withLetters n).program.stringLiterals) : literal.2.2.utf8ByteSize = n := by
  have hliterals : (withLetters n).program.stringLiterals = [(⟨0⟩, ⟨.byte 1, .object ⟨0⟩,
      .str (.ofList (.replicate n 'a'))⟩, .ofList (.replicate n 'a'))] := rfl
  rw [hliterals, List.mem_singleton] at h
  rw [h]
  clear hliterals h
  induction n with
  | zero => rfl
  | succ n ih =>
    rw [List.replicate_succ, String.ofList_cons, String.utf8ByteSize_append, ih, Nat.add_comm]
    rfl

end Letters

/-- A literal to whose length no word can be added is not laid out. -/
theorem compute_fails_withLetters {n : Nat} (hlong : 2 ^ 31 - 4 ≤ n) (hlt : n < 2 ^ 31) :
    ∃ fault, compute (withLetters n).program = .error fault := by
  cases hresult : compute (withLetters n).program with
  | error fault => exact ⟨fault, rfl⟩
  | ok result =>
    obtain ⟨L, data⟩ := result
    obtain ⟨_, _, hliterals, _⟩ := (compute_eq_ok hresult).exists_code
    obtain ⟨literal, hliteral⟩ : ∃ literal, literal ∈ (withLetters n).program.stringLiterals :=
      ⟨_, List.mem_cons_self⟩
    have hfits := literals_fit hliterals literal hliteral
    rw [utf8ByteSize_of_mem_withLetters n hliteral, Int32.toInt_ofNat_of_lt hlt] at hfits
    simp only [Offset.Fits, wordSize] at hfits
    omega

end Layout

end MipsBackend
