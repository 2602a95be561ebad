import MipsBackend.Proofs.Assembly.Symbols
import MipsBackend.Proofs.Closure

/-!
# Printed labels

In a compiled program with named classes the text of every label that a line defines is its own,
unless a class is named `END_` and the name of another record (`Program.symbols_of_compile`): labels
of records hold names and no positions (`Program.clash_endNames`).
-/

namespace MipsBackend

namespace Program

variable {p : Program} {L : Layout} {code : Code} {o : Options} {l : Label} {name : String}

/-- No two classes have one name, and their names begin as identifiers do. -/
structure ClassesNamed (p : Program) : Prop where
  injective {c d : ClassId} {cdecl ddecl : ClassDecl} : p.classAt c = .ok cdecl →
    p.classAt d = .ok ddecl → cdecl.name = ddecl.name → c = d
  identifier {c : ClassId} {decl : ClassDecl} : p.classAt c = .ok decl →
    startsLikeIdentifier decl.name

theorem ClassesNamed.recordNamesDistinct (named : p.ClassesNamed) : p.RecordNamesDistinct := by
  refine ⟨named.injective, fun {c decl} hc => ⟨fun hname => ?_, fun hname => ?_⟩⟩
  all_goals
    have hidentifier := named.identifier hc
    rw [hname] at hidentifier
    revert hidentifier
    decide

theorem classesNamed_of_nodup (hnodup : (scalarArrayRecord :: referenceArrayRecord ::
    p.classes.toList.map ClassDecl.name).Nodup)
    (hidentifier : ∀ decl ∈ p.classes, startsLikeIdentifier decl.name) : p.ClassesNamed :=
  ⟨(recordNamesDistinct_of_nodup hnodup).injective, fun hc =>
    hidentifier _ (Array.mem_of_getElem? (lookup_eq_ok_iff.1 hc))⟩

/-- Only the classes of the runtime library give labels of the runtime library a second name. -/
theorem exists_class_of_methodLabel {m : MethodId} {name class_ : String}
    (h : p.methodLabel m = .ok (.runtimeMethod name class_)) :
    ∃ c decl, p.classAt c = .ok decl ∧ decl.name = class_ := by
  obtain ⟨decl, _, h⟩ := bind_eq_ok_iff.1 h
  split at h
  · obtain ⟨cdecl, hc, h⟩ := bind_eq_ok_iff.1 h
    exact ⟨decl.owner, cdecl, hc, (Label.runtimeMethod.inj (pure_eq_ok_iff.1 h)).2.symm⟩
  · cases pure_eq_ok_iff.1 h

/-- No two lines define labels with one text, unless a class is named `END_` and the name of another
record, and no text is a symbol of the runtime library, unless the name of a runtime method begins
with one of the words that labels begin with. -/
theorem symbols_of_compile {σ : Type} [Sink σ] {sink out : σ} {pool : ThreadPool}
    {result : Except CompileError Layout} (tree : p.IsClassTree) (named : p.ClassesNamed)
    (once : p.NodesReachedOnce) (fits : p.exprs.size ≤ 2 ^ 32) (serves : pool.Serves o)
    (h : p.compile o sink pool = .ok (out, result)) :
    ∃ L code, p.output o = .ok (L, code) ∧ out = (Sink.flush (Sink.emitAll sink code)).1 ∧
      ((code.labels.map Label.text).Nodup ↔ ∀ c decl name, p.classAt c = .ok decl →
        p.IsRecordName name → decl.name ≠ "END_" ++ name) ∧
      ∀ l ∈ code.labels, (∀ routine : Routine, l.text ≠ routine.text) ∧
        ∀ m name class_, p.methodLabel m = .ok (.runtimeMethod name class_) →
          l.text = (Label.runtimeMethod name class_).text →
          firstWord name ∈ Label.reservedWords := by
  rw [compile_eq serves, bind_eq_ok_iff] at h
  obtain ⟨⟨L, code⟩, houtput, h⟩ := h
  obtain ⟨rfl, _⟩ := Prod.mk.inj (pure_eq_ok_iff.1 h)
  obtain ⟨hnodup, hown, hrecords⟩ :=
    labels_of_output tree named.recordNamesDistinct once fits houtput
  refine ⟨L, code, houtput, rfl, ?_, fun l hl => ⟨l.text_ne_routine (hown l hl), ?_⟩⟩
  · rw [List.nodup_map_iff_inj_on hnodup]
    constructor
    · intro hinj c decl name hc hname hclash
      have hstart := (hrecords _).1.2 (isRecordName_iff.2 (Or.inl ⟨c, decl, hc, hclash⟩))
      have hend := (hrecords _).2.2 hname
      have htext : (Label.classStart ("END_" ++ name)).text = (Label.classEnd name).text := by
        simp [Label.text, ← String.append_assoc]
      cases hinj _ hstart _ hend htext
    · intro hfree
      have hclash : ∀ {l l'}, l ∈ code.labels → l' ∈ code.labels → ¬ l.Clashes l' := by
        rintro _ _ hl hl' ⟨name, rfl, rfl⟩
        rcases isRecordName_iff.1 ((hrecords _).1.1 hl) with ⟨c, decl, hc, hname⟩ | harray
        · exact hfree c decl name hc ((hrecords _).2.1 hl') hname
        · have hlists : ("END_" ++ name).toList = scalarArrayRecord.toList ∨
              ("END_" ++ name).toList = referenceArrayRecord.toList :=
            harray.imp (congrArg _) (congrArg _)
          simp [scalarArrayRecord, referenceArrayRecord] at hlists
      intro l hl l' hl' htext
      rcases Label.text_inj (hown l hl) (hown l' hl') htext with heq | h | h
      · exact heq
      · exact absurd h (hclash hl hl')
      · exact absurd h (hclash hl' hl)
  · intro m name class_ hlabel htext
    obtain ⟨c, decl, hc, rfl⟩ := exists_class_of_methodLabel hlabel
    exact Label.firstWord_of_text_eq (hown l hl) (named.identifier hc) htext

/-- The classes of `shapes` have no such names, and neither have its runtime methods. -/
theorem symbols_shapes : ∃ out result L code, shapes.compile {} Buffer.empty = .ok (out, result) ∧
    shapes.output {} = .ok (L, code) ∧ (code.labels.map Label.text).Nodup := by
  have named : shapes.ClassesNamed := classesNamed_of_nodup (by decide) (by decide)
  obtain ⟨out, result, h⟩ := exists_compile_shapes
  obtain ⟨L, code, houtput, _, hnodup, _⟩ :=
    symbols_of_compile isClassTree_shapes named nodesReachedOnce_shapes (by decide)
      (ThreadPool.serves_ready _) h
  refine ⟨out, result, L, code, h, houtput, hnodup.2 fun c decl name hc _ hname => ?_⟩
  have hfree : ∀ decl ∈ shapes.classes, ¬ "END_".toList <+: decl.name.toList := by decide
  refine hfree decl (Array.mem_of_getElem? (lookup_eq_ok_iff.1 hc)) ?_
  rw [hname, String.toList_append]
  exact List.prefix_append _ _

end Program

/-- A class, another whose name is made of that name and the word for ends, and a method of the
runtime library that is named like the prefix of classes. -/
def endNames : Program where
  classes := #[
    ⟨"A", .dummy, none, [⟨1⟩], [], .ofList [("CLASS", ⟨0⟩)]⟩,
    ⟨"END_A", .dummy, some ⟨0⟩, [], [], .empty⟩]
  methods := #[⟨"CLASS", .runtime, ⟨0⟩, [], .void, none, [], none⟩]

/-- In `endNames` two lines define labels of one text, and the symbol of the runtime method is the
text of a label. -/
theorem Program.clash_endNames : ∃ L code, endNames.IsClassTree ∧ endNames.ClassesNamed ∧
    endNames.MethodsLinked ∧ endNames.NodesReachedOnce ∧ endNames.output {} = .ok (L, code) ∧
    ¬ (code.labels.map Label.text).Nodup ∧ ∃ l ∈ code.labels, ∃ m name class_,
      endNames.methodLabel m = .ok (.runtimeMethod name class_) ∧
      l.text = (Label.runtimeMethod name class_).text := by
  have hclash : (do
      let output ← endNames.output {}
      return decide (¬ (output.2.labels.map Label.text).Nodup ∧
        Label.classStart "A" ∈ output.2.labels)) = .ok true := by decide +kernel
  obtain ⟨⟨L, code⟩, houtput, hclash⟩ := bind_eq_ok_iff.1 hclash
  have hlabels := of_decide_eq_true (pure_eq_ok_iff.1 hclash).symm
  have once : endNames.NodesReachedOnce := by
    intro bodies h
    obtain rfl := Except.ok.inj ((show endNames.bodies = .ok [.entry] from rfl).symm.trans h)
    decide
  exact ⟨L, code, isClassTree_of_linkedInOrder (by decide),
    classesNamed_of_nodup (by decide) (by decide), methodsLinked_of_listsMethods (by decide), once,
    houtput, hlabels.1, _, hlabels.2, ⟨0⟩, "CLASS", "A", rfl, rfl⟩

end MipsBackend
