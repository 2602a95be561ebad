import MipsBackend.Proofs.Layout.Records

/-!
# The range test

An `instanceof` or cast checks whether the class record of an object lies between the two labels of
a class.  The layout walks subclass lists downward to emit the records; the type checker walks
superclass links upward.  `RangesDecide` says that the two agree, for classes and for arrays, and
`rangesDecide_of_compute` proves it for every well-linked hierarchy that could be laid out.

* `Recorded` collects what a successful pass says of the records: they are those of one whole tree.
* `encloses_start_iff` and `encloses_end_iff` say which labels lie in the range of a class.
* `encloses_mono` and `not_encloses_both` are about whole ranges: they nest, or they are disjoint.
-/

namespace MipsBackend

namespace Layout

variable {p : Program} {L : Layout} {data : Code} {root c d : ClassId} {cdecl ddecl : ClassDecl}
  {name : String} {i : Nat}

/-! ## The records of a program -/

/-- The data segment holds the records of the tree below `root`, which has every class once. -/
structure Recorded (p : Program) (L : Layout) (data : Code) (root : ClassId) : Prop where
  isRoot : p.IsRoot root
  reflects : (p.classTree root).Reflects p
  mem {c : ClassId} {decl : ClassDecl} : p.classAt c = .ok decl → c ∈ (p.classTree root).classes
  nodup : (p.classTree root).classes.Nodup
  exists_code : ∃ pre records post, data = pre ++ records ++ post ∧
    LaidOut p L .root (p.classTree root) records
  count {mark : String → Label} (name : String) : mark = .classStart ∨ mark = .classEnd →
    data.labels.count (mark name) = (p.classTree root).recordNames.count name

/-- The record of the class of strings or, without such a class, that of arrays. -/
def IsLiteralRecord (p : Program) (record : String) : Prop :=
  match p.stringClass with
  | some c => ∃ decl, p.classAt c = .ok decl ∧ decl.name = record
  | none => record = scalarArrayRecord

/-- The literals carry one record, and each is laid out on its own. -/
theorem stringLiterals_eq_ok {literals : Code} (h : stringLiterals p = .ok literals) :
    ∃ record codes, IsLiteralRecord p record ∧
      List.Forall₂ (fun literal code => ∃ insts, code = Code.of literal.2.1.span insts ∧
        stringLiteral record literal.1 literal.2.2 = .ok insts) p.stringLiterals codes ∧
      literals = codes.flatten := by
  have hcode : ∀ {record : String} {literal : ExprId × Expr × String} {code : Code},
      (do return Code.of literal.2.1.span (← stringLiteral record literal.1 literal.2.2)) =
        Except.ok code → ∃ insts, code = Code.of literal.2.1.span insts ∧
          stringLiteral record literal.1 literal.2.2 = .ok insts := by
    intro record literal code hliteral
    obtain ⟨insts, hinsts, hcode⟩ := bind_eq_ok_iff.1 hliteral
    exact ⟨insts, pure_eq_ok_iff.1 hcode, hinsts⟩
  unfold IsLiteralRecord
  rw [stringLiterals] at h
  cases hclass : p.stringClass with
  | some c =>
    simp only [hclass, bind_eq_ok_iff, pure_eq_ok_iff] at h
    obtain ⟨decl, hdecl, _, rfl, codes, hcodes, rfl⟩ := h
    exact ⟨_, codes, ⟨decl, hdecl, rfl⟩, (mapM_eq_ok_iff.1 hcodes).imp fun _ _ => hcode, rfl⟩
  | none =>
    simp only [hclass, bind_eq_ok_iff, pure_eq_ok_iff] at h
    obtain ⟨_, rfl, codes, hcodes, rfl⟩ := h
    exact ⟨_, codes, rfl, (mapM_eq_ok_iff.1 hcodes).imp fun _ _ => hcode, rfl⟩

/-- String literals define labels of their own only, one each. -/
theorem labels_stringLiterals {literals : Code} (h : stringLiterals p = .ok literals) :
    literals.labels = (p.stringLiterals.map Prod.fst).map .strLit := by
  obtain ⟨record, codes, _, hcodes, rfl⟩ := stringLiterals_eq_ok h
  clear h
  generalize p.stringLiterals = exprs at hcodes
  induction hcodes with
  | nil => rfl
  | cons hfirst _ ih =>
    obtain ⟨_, rfl, hliteral⟩ := hfirst
    obtain ⟨_, rfl⟩ := stringLiteral_eq_ok_iff.1 hliteral
    rw [List.flatten_cons, Code.labels_append, ih, List.map_cons, List.map_cons]
    rfl

/-- A program with a class has a root, and all records are in the tree below it. -/
theorem Complete.exists_recorded (h : Complete p L data) (tree : p.IsClassTree)
    (hc : p.classAt c = .ok cdecl) : ∃ root, Recorded p L data root := by
  obtain ⟨records, literals, hliterals, rfl, hrooted | ⟨_, _, rfl, _⟩⟩ := h.exists_code
  · obtain ⟨root, _, hlays, hlaid⟩ := hrooted
    have hreflects : (p.classTree root).Reflects p := LaidOut.reflects hlaid
    have hmem : ∀ {c decl}, p.classAt c = .ok decl → c ∈ (p.classTree root).classes := by
      intro c decl hdecl
      obtain ⟨cl, hcl⟩ := h.exists_layout hdecl
      rcases hlays.classes.new (classAt_eq_ok_iff.1 hcl) with hblank | hmem
      · exact absurd (classAt_eq_ok_iff.2 hblank) classAt_blank_ne_ok
      · exact hmem
    refine ⟨root, ?_, hreflects, hmem, hlays.classes.nodup,
      ⟨_, records, literals, rfl, hlaid⟩, fun {mark} name hmark => ?_⟩
    · -- A superclass of the root would be in the tree, hence below the root.
      obtain ⟨decl, hroot⟩ := (hreflects.exists_of_mem hreflects.id_mem_classes).imp fun _ h => h.2
      rw [Program.id_classTree] at hroot
      rcases Program.isRoot_or_extends hroot with hisRoot | ⟨s, hs⟩
      · exact hisRoot
      · obtain ⟨sdecl, hsdecl⟩ := tree.superclass_exists hs
        have hdesc := (hreflects.mem_classes_iff tree.isForest).1 (hmem hsdecl)
        rw [Program.id_classTree] at hdesc
        exact absurd (Relation.TransGen.head' hs hdesc) (tree.acyclic root)
    · have hnone : literals.labels.count (mark name) = 0 := by
        refine List.count_eq_zero_of_not_mem fun hmem => ?_
        rw [labels_stringLiterals hliterals] at hmem
        rcases hmark with rfl | rfl <;> simp at hmem
      rw [Code.labels_append, Code.labels_append, List.count_append, List.count_append, hnone,
        hlaid.labels_eq, ClassTree.count_labels _ _ hmark]
      simp [Inst.definedLabel, List.filterMap_cons]
  · obtain ⟨cl, hcl⟩ := h.exists_layout hc
    exact absurd hcl classAt_blank_ne_ok

/-! ## The range of a class -/

/-- The labels between which the records of a class and its descendants lie. -/
abbrev rangeOf (name : String) : Label × Label :=
  (.classStart name, .classEnd name)

section Stretch

variable (tree : p.IsClassTree) (names : p.RecordNamesDistinct) (h : Recorded p L data root)
include tree names h

theorem Recorded.count_le_one {mark : String → Label}
    (hmark : mark = .classStart ∨ mark = .classEnd) :
    data.labels.count (mark name) ≤ 1 := by
  rw [h.count name hmark]
  exact List.nodup_iff_count_le_one.1 (h.reflects.nodup_recordNames tree names h.nodup) name

theorem Recorded.count_eq_one {mark : String → Label}
    (hmark : mark = .classStart ∨ mark = .classEnd) (hname : p.RecordUnder root name) :
    data.labels.count (mark name) = 1 := by
  refine Nat.le_antisymm (h.count_le_one tree names hmark) ?_
  rw [h.count name hmark]
  refine List.count_pos_iff.2 ((h.reflects.mem_recordNames_iff tree).2 ?_)
  rwa [Program.id_classTree]

/-- All records belong to the root. -/
theorem Recorded.recordUnder (hc : p.classAt c = .ok cdecl) : p.RecordUnder root cdecl.name := by
  have hdesc := (h.reflects.mem_classes_iff tree.isForest).1 (h.mem hc)
  rw [Program.id_classTree] at hdesc
  exact (names.recordUnder_class_iff hc).2 hdesc

/-- The stretch of code from the start label of a class to its end label has the labels of the
class's tree. -/
theorem Recorded.exists_stretch (hc : p.classAt c = .ok cdecl) :
    ∃ (pre mid post : Code) (span : Span) (sub : ClassTree), data = pre ++
        (⟨span, .label (.classStart cdecl.name)⟩ :: mid ++
          ⟨span, .label (.classEnd cdecl.name)⟩ :: post) ∧
      sub.id = c ∧ sub.Reflects p ∧ sub.recordNames.Nodup ∧
      sub.labels = Code.labels (⟨span, .label (.classStart cdecl.name)⟩ :: mid) ++
        [.classEnd cdecl.name] := by
  obtain ⟨pre, records, post, rfl, hlaid⟩ := h.exists_code
  obtain ⟨sub, inherited, pre', code, post', hid, hreflects, hsub, rfl, _⟩ :=
    hlaid.exists_subtree h.reflects (h.mem hc)
  have hlabels := hsub.labels_eq
  have hnodup : sub.recordNames.Nodup := by
    refine List.nodup_iff_count_le_one.2 fun name => ?_
    have hle : (Code.labels _).count (Label.classStart name) ≤ 1 :=
      h.count_le_one tree names (Or.inl rfl)
    rw [← ClassTree.count_labels sub name (Or.inl rfl), ← hlabels]
    simp only [Code.labels_append, List.count_append] at hle
    omega
  cases sub with
  | broken id fault => exact hsub.elim
  | node id decl subclasses =>
    obtain rfl : id = c := hid
    obtain rfl : decl = cdecl := Except.ok.inj (hreflects.1.symm.trans hc)
    obtain ⟨cl, body, descendants, arrays, _, _, _, _, rfl⟩ := hsub
    refine ⟨pre ++ pre', Code.of decl.span body ++ descendants ++ Code.of decl.span arrays,
      post' ++ post, decl.span, _, ?_, rfl, hreflects, hnodup, ?_⟩
    · simp [Code.of]
    · rw [← hlabels]
      simp [Inst.definedLabel, Code.labels_append]

/-- The start label of a record lies in the range of a class iff the record belongs to it. -/
theorem encloses_start_iff (hc : p.classAt c = .ok cdecl)
    (hi : data.LabelAt (.classStart name) i) :
    data.Encloses (rangeOf cdecl.name) i ↔ p.RecordUnder c name := by
  obtain ⟨pre, mid, post, span, sub, hdata, rfl, hreflects, _, hlabels⟩ :=
    h.exists_stretch tree names hc
  rw [Code.encloses_label_iff hdata (h.count_le_one tree names (Or.inl rfl))
    (h.count_le_one tree names (Or.inr rfl)) (h.count_le_one tree names (Or.inl rfl)) hi,
    ← hreflects.mem_recordNames_iff tree, ← List.count_pos_iff (l := sub.recordNames),
    ← sub.count_labels name (Or.inl rfl), List.count_pos_iff, hlabels]
  simp

/-- So does the end label, unless it is that of the class itself. -/
theorem encloses_end_iff (hc : p.classAt c = .ok cdecl) (hi : data.LabelAt (.classEnd name) i) :
    data.Encloses (rangeOf cdecl.name) i ↔ p.RecordUnder c name ∧ name ≠ cdecl.name := by
  obtain ⟨pre, mid, post, span, sub, hdata, rfl, hreflects, hnodup, hlabels⟩ :=
    h.exists_stretch tree names hc
  have hcount : sub.labels.count (.classEnd name) = sub.recordNames.count name :=
    sub.count_labels name (Or.inr rfl)
  have hone := List.nodup_iff_count_le_one.1 hnodup name
  rw [hlabels, List.count_append] at hcount
  rw [Code.encloses_label_iff hdata (h.count_le_one tree names (Or.inl rfl))
    (h.count_le_one tree names (Or.inr rfl)) (h.count_le_one tree names (Or.inr rfl)) hi,
    ← hreflects.mem_recordNames_iff tree, ← List.count_pos_iff,
    ← List.count_pos_iff (l := sub.recordNames)]
  by_cases hname : name = cdecl.name
  · simp only [hname, List.count_singleton_self] at hcount hone ⊢
    simp only [ne_eq, not_true_eq_false, and_false, iff_false]
    omega
  · have hzero : [Label.classEnd cdecl.name].count (.classEnd name) = 0 :=
      List.count_eq_zero_of_not_mem (by simpa using hname)
    rw [hzero] at hcount
    simp only [hname, ne_eq, not_false_eq_true, and_true]
    omega

/-- The range of a class has all of the ranges of the records that belong to it. -/
theorem encloses_mono (hc : p.classAt c = .ok cdecl) (hunder : p.RecordUnder c name)
    (hi : data.Encloses (rangeOf name) i) : data.Encloses (rangeOf cdecl.name) i := by
  by_cases hname : name = cdecl.name
  · exact hname ▸ hi
  · obtain ⟨a, b, ha, hb, hai, hib⟩ := hi
    have hstart := (encloses_start_iff tree names h hc ha).2 hunder
    have hend := (encloses_end_iff tree names h hc hb).2 ⟨hunder, hname⟩
    exact hstart.of_between hend hai (Nat.le_of_lt hib)

/-- A record lies in the range of the classes that it belongs to, and in no other. -/
theorem encloses_inRecord_iff (hc : p.classAt c = .ok cdecl) (hi : data.InRecord name i) :
    data.Encloses (rangeOf cdecl.name) i ↔ p.RecordUnder c name := by
  obtain ⟨a, ha, hencloses⟩ := hi.exists_encloses_iff (rangeOf cdecl.name)
  rw [hencloses, encloses_start_iff tree names h hc ha]

/-- Of two classes that share a position, the one that starts later is a descendant. -/
theorem descends_of_encloses (hc : p.classAt c = .ok cdecl) (hd : p.classAt d = .ok ddecl)
    (hci : data.Encloses (rangeOf cdecl.name) i) (hdi : data.Encloses (rangeOf ddecl.name) i) :
    p.Descends c d ∨ p.Descends d c := by
  obtain ⟨a, b, ha, hb, hai, hib⟩ := hci
  obtain ⟨a', b', ha', hb', hai', hib'⟩ := hdi
  rcases Nat.le_total a a' with hle | hle
  · right
    rw [← names.recordUnder_class_iff hd, ← encloses_start_iff tree names h hc ha']
    exact ⟨a, b, ha, hb, hle, by omega⟩
  · left
    rw [← names.recordUnder_class_iff hc, ← encloses_start_iff tree names h hd ha]
    exact ⟨a', b', ha', hb', hle, by omega⟩

end Stretch

/-! ## Types -/

/-- Values of the type carry a class record: objects of a class of the program, and arrays. -/
inductive HasRecord (p : Program) : Ty → Prop where
  | object {c : ClassId} {decl : ClassDecl} : p.classAt c = .ok decl → HasRecord p (.object c)
  | array (elem : Ty) : HasRecord p (.array elem)

theorem HasRecord.exists_range {ty : Ty} (h : HasRecord p ty) :
    ∃ name, p.recordName ty = .ok name ∧ p.classRange ty = .ok (rangeOf name) := by
  cases h with
  | object hc => exact ⟨_, by rw [Program.recordName, hc]; rfl, by
      rw [Program.classRange, Program.recordName, hc]; rfl⟩
  | array elem => exact ⟨_, rfl, rfl⟩

theorem isSubtype_object_eq (hne : c ≠ d) :
    p.isSubtype (.object c) (.object d) = p.isSubclass c d := by
  simp [Program.isSubtype, hne]

/-- The query for subtypes answers for all types whose values carry a record.  Where it says yes, of
two different types the greater one is a class that the smaller one's record belongs to. -/
theorem HasRecord.isSubtype_eq (tree : p.IsClassTree) (names : p.RecordNamesDistinct) {ty ty' : Ty}
    (h : HasRecord p ty) (h' : HasRecord p ty') :
    ∃ b, p.isSubtype ty ty' = .ok b ∧ (b = true → ty = ty' ∨
      ∃ c decl name, ty' = .object c ∧ p.classAt c = .ok decl ∧ p.recordName ty = .ok name ∧
        p.RecordUnder c name) := by
  by_cases hne : ty = ty'
  · exact ⟨true, by simp [Program.isSubtype, hne], fun _ => Or.inl hne⟩
  cases h' with
  | array elem =>
    refine ⟨false, ?_, by simp⟩
    cases h <;> simp [Program.isSubtype, hne]
  | @object d ddecl hd =>
    cases h with
    | @object c cdecl hc =>
      refine ⟨_, (isSubtype_object_eq (by simpa using hne)).trans (tree.isSubclass_eq hc), ?_⟩
      intro hdesc
      refine Or.inr ⟨d, ddecl, cdecl.name, rfl, hd, by rw [Program.recordName, hc]; rfl, ?_⟩
      exact (names.recordUnder_class_iff hc).2 (by simpa using hdesc)
    | array elem =>
      refine ⟨ddecl.superclass.isNone, ?_, fun hnone => ?_⟩
      · simp [Program.isSubtype, hd, bind, Except.bind, pure, Except.pure]
      · refine Or.inr ⟨d, ddecl, _, rfl, hd, rfl, ?_⟩
        refine (names.recordUnder_array_iff ?_).2 ⟨ddecl, hd, by simpa using hnone⟩
        cases elem.isScalar <;> simp

/-! ## The range test decides subtyping -/

/-- The ranges in the data segment agree with the subclass and subtype relations. -/
structure RangesDecide (p : Program) (data : Code) : Prop where
  /-- Every class has one start label and one end label. -/
  labels {c : ClassId} {decl : ClassDecl} : p.classAt c = .ok decl →
    (∃! i, data.LabelAt (.classStart decl.name) i) ∧ ∃! i, data.LabelAt (.classEnd decl.name) i
  /-- A record lies in the range of a class iff it is that of a subclass. -/
  subclass {c d : ClassId} {cdecl ddecl : ClassDecl} {i : Nat} : p.classAt c = .ok cdecl →
    p.classAt d = .ok ddecl → data.InRecord cdecl.name i →
    ∃ b, p.isSubclass c d = .ok b ∧ (data.Encloses (rangeOf ddecl.name) i ↔ b = true)
  /-- Unrelated classes have disjoint ranges. -/
  disjoint {c d : ClassId} {cdecl ddecl : ClassDecl} {i : Nat} : p.classAt c = .ok cdecl →
    p.classAt d = .ok ddecl → p.isSubclass c d ≠ .ok true → p.isSubclass d c ≠ .ok true →
    data.Encloses (rangeOf cdecl.name) i → ¬ data.Encloses (rangeOf ddecl.name) i
  /-- The records of arrays stand once each, in the range of the root and of no other class. -/
  array {c : ClassId} {decl : ClassDecl} {name : String} : p.classAt c = .ok decl →
    name = scalarArrayRecord ∨ name = referenceArrayRecord →
    (∃! i, data.LabelAt (.classStart name) i) ∧ (∃! i, data.LabelAt (.classEnd name) i) ∧
      ∀ i, data.InRecord name i → (data.Encloses (rangeOf decl.name) i ↔ p.IsRoot c)
  /-- The range of a type lies in those of its supertypes. -/
  subtype {ty ty' : Ty} : HasRecord p ty → HasRecord p ty' → ∃ r r' b,
    p.classRange ty = .ok r ∧ p.classRange ty' = .ok r' ∧ p.isSubtype ty ty' = .ok b ∧
      (b = true → ∀ i, data.Encloses r i → data.Encloses r' i)
  /-- The record of a class lies outside the ranges of classes that are no supertypes. -/
  not_subtype {c d : ClassId} {cdecl ddecl : ClassDecl} {r : Label × Label} {i : Nat} :
    p.classAt c = .ok cdecl → p.classAt d = .ok ddecl → p.classRange (.object d) = .ok r →
    p.isSubtype (.object c) (.object d) ≠ .ok true → data.InRecord cdecl.name i →
    ¬ data.Encloses r i

/-- On a well-linked hierarchy the range test agrees with the static relations. -/
theorem rangesDecide_of_compute (tree : p.IsClassTree) (names : p.RecordNamesDistinct)
    (h : compute p = .ok (L, data)) : RangesDecide p data := by
  have hcomplete := compute_eq_ok h
  have hdescends : ∀ {c d cdecl}, p.classAt c = .ok cdecl →
      (p.isSubclass c d = .ok true ↔ p.Descends c d) := by
    intro c d cdecl hc
    rw [tree.isSubclass_eq hc]
    simp
  refine ⟨?_, ?_, ?_, ?_, ?_, ?_⟩
  · intro c decl hc
    obtain ⟨root, hrec⟩ := hcomplete.exists_recorded tree hc
    have hunder := hrec.recordUnder tree names hc
    exact ⟨Code.existsUnique_labelAt (hrec.count_eq_one tree names (Or.inl rfl) hunder),
      Code.existsUnique_labelAt (hrec.count_eq_one tree names (Or.inr rfl) hunder)⟩
  · intro c d cdecl ddecl i hc hd hi
    obtain ⟨root, hrec⟩ := hcomplete.exists_recorded tree hc
    refine ⟨_, tree.isSubclass_eq hc, ?_⟩
    rw [encloses_inRecord_iff tree names hrec hd hi, names.recordUnder_class_iff hc]
    simp
  · intro c d cdecl ddecl i hc hd hcd hdc hci hdi
    obtain ⟨root, hrec⟩ := hcomplete.exists_recorded tree hc
    rcases descends_of_encloses tree names hrec hc hd hci hdi with hdesc | hdesc
    · exact hcd ((hdescends hc).2 hdesc)
    · exact hdc ((hdescends hd).2 hdesc)
  · intro c decl name hc harray
    obtain ⟨root, hrec⟩ := hcomplete.exists_recorded tree hc
    have hunder := (names.recordUnder_array_iff harray).2 hrec.isRoot
    refine ⟨Code.existsUnique_labelAt (hrec.count_eq_one tree names (Or.inl rfl) hunder),
      Code.existsUnique_labelAt (hrec.count_eq_one tree names (Or.inr rfl) hunder), fun i hi => ?_⟩
    rw [encloses_inRecord_iff tree names hrec hc hi, names.recordUnder_array_iff harray]
  · intro ty ty' hty hty'
    obtain ⟨name, hname, hrange⟩ := hty.exists_range
    obtain ⟨name', hname', hrange'⟩ := hty'.exists_range
    obtain ⟨b, hb, himp⟩ := hty.isSubtype_eq tree names hty'
    refine ⟨_, _, b, hrange, hrange', hb, fun hyes i hi => ?_⟩
    rcases himp hyes with rfl | ⟨d, ddecl, name₁, rfl, hd, hname₁, hunder⟩
    · obtain rfl := Except.ok.inj (hname.symm.trans hname')
      exact hi
    · obtain ⟨root, hrec⟩ := hcomplete.exists_recorded tree hd
      obtain rfl := Except.ok.inj (hname.symm.trans hname₁)
      obtain rfl : ddecl.name = name' := by
        rw [Program.recordName, hd] at hname'
        exact Except.ok.inj hname'
      exact encloses_mono tree names hrec hd hunder hi
  · intro c d cdecl ddecl r i hc hd hr hnot hi hin
    obtain ⟨root, hrec⟩ := hcomplete.exists_recorded tree hc
    obtain rfl : rangeOf ddecl.name = r := by
      rw [Program.classRange, Program.recordName, hd] at hr
      exact Except.ok.inj hr
    rw [encloses_inRecord_iff tree names hrec hd hi, names.recordUnder_class_iff hc] at hin
    apply hnot
    by_cases hcd : c = d
    · simp [Program.isSubtype, hcd]
    · rw [isSubtype_object_eq hcd, (hdescends hc).2 hin]

end Layout

/-! ## A small program -/

/-- Shapes: squares override the area of a shape, circles the hash code of an object.  The entry
point scales a square; scaling has a parameter of each width, a loop and a way out of it. -/
def shapes : Program where
  classes := #[
    ⟨"Object", .dummy, none, [⟨1⟩], [], .ofList [("hash", ⟨0⟩)]⟩,
    ⟨"Shape", .dummy, some ⟨0⟩, [⟨2⟩, ⟨3⟩], [], .ofList [("area", ⟨1⟩), ("scale", ⟨2⟩)]⟩,
    ⟨"Square", .dummy, some ⟨1⟩, [], [⟨3⟩], .ofList [("area", ⟨3⟩)]⟩,
    ⟨"Circle", .dummy, some ⟨1⟩, [], [], .ofList [("hash", ⟨4⟩), ("radius", ⟨5⟩)]⟩]
  methods := #[
    ⟨"hash", .runtime, ⟨0⟩, [], .int, none, [], none⟩,
    ⟨"area", .user .dummy, ⟨1⟩, [], .int, none, [], some ⟨13⟩⟩,
    ⟨"scale", .user .dummy, ⟨1⟩, [⟨0⟩, ⟨1⟩], .int, none, [⟨0⟩, ⟨1⟩], some ⟨12⟩⟩,
    ⟨"area", .user .dummy, ⟨2⟩, [], .int, some ⟨1⟩, [], some ⟨14⟩⟩,
    ⟨"hash", .user .dummy, ⟨3⟩, [], .int, some ⟨0⟩, [], some ⟨16⟩⟩,
    ⟨"radius", .user .dummy, ⟨3⟩, [], .int, none, [], some ⟨17⟩⟩]
  vars := #[
    ⟨"by", .dummy, .int, .formal ⟨2⟩⟩,
    ⟨"other", .dummy, .object ⟨1⟩, .formal ⟨2⟩⟩,
    ⟨"n", .dummy, .int, .localVar ⟨0⟩⟩,
    ⟨"width", .dummy, .int, .instVar ⟨2⟩⟩]
  stmts := #[
    ⟨.dummy, .localVar ⟨2⟩⟩,
    ⟨.dummy, .whileLoop ⟨3⟩ ⟨2⟩⟩,
    ⟨.dummy, .block [⟨3⟩, ⟨4⟩]⟩,
    ⟨.dummy, .ifElse ⟨7⟩ ⟨6⟩ none⟩,
    ⟨.dummy, .assign ⟨8⟩ ⟨11⟩⟩,
    ⟨.dummy, .call ⟨18⟩⟩,
    ⟨.dummy, .breakFrom ⟨1⟩⟩]
  exprs := #[
    ⟨.dummy, .int, .ident ⟨0⟩⟩,
    ⟨.dummy, .int, .ident ⟨2⟩⟩,
    ⟨.dummy, .int, .int 0⟩,
    ⟨.dummy, .bool, .binary .gt ⟨1⟩ ⟨2⟩⟩,
    ⟨.dummy, .object ⟨1⟩, .ident ⟨1⟩⟩,
    ⟨.dummy, .int, .call ⟨4⟩ ⟨1⟩ []⟩,
    ⟨.dummy, .int, .ident ⟨2⟩⟩,
    ⟨.dummy, .bool, .binary .eq ⟨5⟩ ⟨6⟩⟩,
    ⟨.dummy, .int, .ident ⟨2⟩⟩,
    ⟨.dummy, .int, .ident ⟨2⟩⟩,
    ⟨.dummy, .int, .int 1⟩,
    ⟨.dummy, .int, .binary .sub ⟨9⟩ ⟨10⟩⟩,
    ⟨.dummy, .int, .ident ⟨2⟩⟩,
    ⟨.dummy, .int, .int 0⟩,
    ⟨.dummy, .int, .call ⟨15⟩ ⟨1⟩ []⟩,
    ⟨.dummy, .object ⟨1⟩, .super⟩,
    ⟨.dummy, .int, .int 7⟩,
    ⟨.dummy, .int, .int 2⟩,
    ⟨.dummy, .int, .call ⟨19⟩ ⟨2⟩ [⟨20⟩, ⟨21⟩]⟩,
    ⟨.dummy, .object ⟨2⟩, .new ⟨2⟩⟩,
    ⟨.dummy, .int, .int 5⟩,
    ⟨.dummy, .null, .null⟩]
  main := some ⟨5⟩

theorem isClassTree_shapes : shapes.IsClassTree :=
  Program.isClassTree_of_linkedInOrder (by decide)

theorem recordNamesDistinct_shapes : shapes.RecordNamesDistinct :=
  Program.recordNamesDistinct_of_nodup (by decide)

theorem exists_compute_shapes : ∃ L data, Layout.compute shapes = .ok (L, data) := by
  obtain ⟨⟨L, data⟩, h⟩ := exists_eq_ok_of_isSome
    (show (Layout.compute shapes).toOption.isSome by decide +kernel)
  exact ⟨L, data, h⟩

theorem Layout.rangesDecide_shapes : ∃ L data, shapes.IsClassTree ∧ shapes.RecordNamesDistinct ∧
    Layout.compute shapes = .ok (L, data) ∧ RangesDecide shapes data := by
  obtain ⟨L, data, h⟩ := exists_compute_shapes
  exact ⟨L, data, isClassTree_shapes, recordNamesDistinct_shapes, h,
    rangesDecide_of_compute isClassTree_shapes recordNamesDistinct_shapes h⟩

end MipsBackend
