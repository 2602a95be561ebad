import Mathlib.Algebra.Ring.Nat
import MipsBackend.Proofs.Assembly.Operands
import MipsBackend.Proofs.Layout.Dispatch

/-!
# What the data segment defines and refers to

The data segment defines the start and end labels of its records and one label for each string
literal (`Complete.exists_labelsData`).  Class records refer to superclasses and to methods,
literals to the record of their class.  A dispatch table holds methods that some class lists
(`vtable_subset`), so it is enough that the labels of those are known (`Complete.refersTo_data`).
-/

namespace MipsBackend

open Layout

variable {p : Program} {L : Layout} {data code : Code} {root c : ClassId} {known : Label → Prop}
  {l : Label} {name : String}

/-! ## Labels of data -/

/-- The code defines the start and end labels of records with the given names and the labels of the
given literals, each as often as it occurs in the lists. -/
def Code.LabelsData (code : Code) (names : List String) (literals : List ExprId) : Prop :=
  ∀ l, code.labels.count l =
    match l with
    | .classStart name | .classEnd name => names.count name
    | .strLit e => literals.count e
    | _ => 0

namespace Code.LabelsData

variable {code' : Code} {names names' : List String} {literals literals' : List ExprId}

theorem append (h : code.LabelsData names literals) (h' : code'.LabelsData names' literals') :
    (code ++ code').LabelsData (names ++ names') (literals ++ literals') := by
  intro l
  rw [labels_append, List.count_append, h l, h' l]
  split <;> simp [List.count_append]

theorem nodup (h : code.LabelsData names literals) (hnames : names.Nodup)
    (hliterals : literals.Nodup) : code.labels.Nodup := by
  refine List.nodup_iff_count_le_one.2 fun l => ?_
  rw [h l]
  split
  · exact List.nodup_iff_count_le_one.1 hnames _
  · exact List.nodup_iff_count_le_one.1 hnames _
  · exact List.nodup_iff_count_le_one.1 hliterals _
  · exact Nat.zero_le 1

theorem mem_record (h : code.LabelsData names literals) (hname : name ∈ names) :
    .classStart name ∈ code.labels ∧ .classEnd name ∈ code.labels := by
  have hpos : 0 < names.count name := List.count_pos_iff.2 hname
  exact ⟨List.count_pos_iff.1 (by rwa [h]), List.count_pos_iff.1 (by rwa [h])⟩

theorem mem_literal (h : code.LabelsData names literals) {e : ExprId} (he : e ∈ literals) :
    .strLit e ∈ code.labels := by
  have hpos : 0 < literals.count e := List.count_pos_iff.2 he
  exact List.count_pos_iff.1 (by rwa [h])

/-- Labels of code are defined elsewhere. -/
theorem isData_of_mem (h : code.LabelsData names literals) (hl : l ∈ code.labels) : l.isData := by
  have hpos := List.count_pos_iff.2 hl
  rw [h l] at hpos
  split at hpos
  · rfl
  · rfl
  · rfl
  · omega

end Code.LabelsData

namespace ClassTree

/-- The labels of a tree's records are start and end labels. -/
theorem exists_name_of_mem_labels {t : ClassTree} (h : l ∈ t.labels) :
    ∃ name, l = .classStart name ∨ l = .classEnd name := by
  induction t with
  | broken id fault => exact absurd h List.not_mem_nil
  | node id decl subclasses ih =>
    have hall : l ∈ labelsAll subclasses → ∃ name, l = .classStart name ∨ l = .classEnd name := by
      clear h
      intro h
      induction subclasses with
      | nil => exact absurd h List.not_mem_nil
      | cons tree trees ihs =>
        rw [labelsAll, List.mem_append] at h
        rcases h with h | h
        · exact ih tree List.mem_cons_self h
        · exact ihs (fun t ht => ih t (List.mem_cons_of_mem tree ht)) h
    rw [labels, List.mem_append, List.mem_append, List.mem_cons, List.mem_singleton] at h
    rcases h with ((rfl | h) | h) | rfl
    · exact ⟨_, Or.inl rfl⟩
    · exact hall h
    · split at h
      · obtain ⟨name, _, h⟩ := List.mem_flatMap.1 h
        exact ⟨name, by simpa using h⟩
      · exact absurd h List.not_mem_nil
    · exact ⟨_, Or.inr rfl⟩

end ClassTree

namespace Layout

theorem LaidOut.labelsData {tree : ClassTree} {inherited : ClassLayout}
    (h : LaidOut p L inherited tree code) : code.LabelsData tree.recordNames [] := by
  intro l
  rw [h.labels_eq]
  split
  · exact tree.count_labels _ (Or.inl rfl)
  · exact tree.count_labels _ (Or.inr rfl)
  all_goals
    refine List.count_eq_zero_of_not_mem fun hl => ?_
    obtain ⟨name, hname | hname⟩ := ClassTree.exists_name_of_mem_labels hl
    all_goals simp_all

theorem labelsData_arrayRecords {superclass : Option ClassId} {cl : ClassLayout}
    {arrays : List Inst} {span : Span} (h : arrayRecords p superclass cl = .ok arrays) :
    (Code.of span arrays).LabelsData [scalarArrayRecord, referenceArrayRecord] [] := by
  obtain ⟨body, hbody, harrays⟩ := bind_eq_ok_iff.1 h
  obtain rfl := pure_eq_ok_iff.1 harrays
  have hlabels : (Code.of span ([scalarArrayRecord, referenceArrayRecord].flatMap fun name =>
      .label (.classStart name) :: body ++ [.label (.classEnd name)])).labels =
      [.classStart scalarArrayRecord, .classEnd scalarArrayRecord,
        .classStart referenceArrayRecord, .classEnd referenceArrayRecord] := by
    simp [Inst.definedLabel, labels_recordBody hbody]
  intro l
  rw [hlabels]
  cases l <;> simp [List.count_cons]

end Layout

/-! ## Labels of string literals -/

namespace Program

/-- The literals are listed by their positions. -/
theorem mem_stringLiterals {e : ExprId} {expr : Expr} {text : String} (he : p.exprAt e = .ok expr)
    (hkind : expr.kind = .str text) : (e, expr, text) ∈ p.stringLiterals := by
  have hmem : (expr, e.toNat) ∈ p.exprs.toList.zipIdx := by
    rw [List.mk_mem_zipIdx_iff_getElem?, Array.getElem?_toList]
    exact lookup_eq_ok_iff.1 he
  exact List.mem_filterMap.2 ⟨_, hmem, by simp [hkind]⟩

/-- The literals are listed in order, as long as positions are 32-bit words. -/
theorem pairwise_stringLiterals (fits : p.exprs.size ≤ 2 ^ 32) :
    (p.stringLiterals.map Prod.fst).Pairwise fun e e' => e.toNat < e'.toNat := by
  have hpositions : (p.exprs.toList.zipIdx.map Prod.snd).Pairwise (· < ·) := by
    rw [List.zipIdx_map_snd]
    exact List.pairwise_lt_range'
  rw [stringLiterals, List.pairwise_map, List.pairwise_filterMap]
  refine (List.pairwise_map.1 hpositions).imp_of_mem ?_
  rintro ⟨expr, i⟩ ⟨expr', j⟩ hi hj hlt literal hliteral literal' hliteral'
  have hsize := (List.getElem?_eq_some_iff.1 (List.mk_mem_zipIdx_iff_getElem?.1 hi)).1
  have hsize' := (List.getElem?_eq_some_iff.1 (List.mk_mem_zipIdx_iff_getElem?.1 hj)).1
  rw [Array.length_toList] at hsize hsize'
  dsimp only at hliteral hliteral'
  split at hliteral
  · split at hliteral'
    · obtain rfl := Option.some.inj hliteral
      obtain rfl := Option.some.inj hliteral'
      rw [NodeId.toNat_ofNat (by omega), NodeId.toNat_ofNat (by omega)]
      exact hlt
    · cases hliteral'
  · cases hliteral

/-- No two literals have one position. -/
theorem nodup_stringLiterals (fits : p.exprs.size ≤ 2 ^ 32) :
    (p.stringLiterals.map Prod.fst).Nodup :=
  (pairwise_stringLiterals fits).imp fun hlt heq => Nat.ne_of_lt hlt (congrArg NodeId.toNat heq)

/-- Values of some type carry the record of this name. -/
def IsRecordName (p : Program) (name : String) : Prop :=
  ∃ ty, p.recordName ty = .ok name

/-- A record is that of a class or of arrays. -/
theorem isRecordName_iff : p.IsRecordName name ↔
    (∃ c decl, p.classAt c = .ok decl ∧ decl.name = name) ∨
      name = scalarArrayRecord ∨ name = referenceArrayRecord := by
  constructor
  · rintro ⟨ty, h⟩
    unfold Program.recordName at h
    split at h
    · simp only [bind_eq_ok_iff, pure_eq_ok_iff] at h
      obtain ⟨decl, hdecl, rfl⟩ := h
      exact Or.inl ⟨_, decl, hdecl, rfl⟩
    · obtain rfl := pure_eq_ok_iff.1 h
      split
      · exact Or.inr (Or.inl rfl)
      · exact Or.inr (Or.inr rfl)
    · exact absurd h defect_ne_ok
  · rintro (⟨c, decl, hdecl, rfl⟩ | rfl | rfl)
    · exact ⟨.object c, bind_eq_ok_iff.2 ⟨decl, hdecl, rfl⟩⟩
    · exact ⟨.array .int, rfl⟩
    · exact ⟨.array .null, rfl⟩

end Program

namespace Layout

theorem labelsData_stringLiterals {literals : Code} (h : stringLiterals p = .ok literals) :
    literals.LabelsData [] (p.stringLiterals.map Prod.fst) := by
  intro l
  rw [labels_stringLiterals h]
  cases l
  case strLit e => exact List.count_map_of_injective _ _ (fun _ _ => Label.strLit.inj) e
  all_goals simp [List.count_eq_zero]

/-! ## The whole data segment -/

/-- The data segment defines the labels of all records, which are those of classes and those of
arrays, and the labels of the string literals. -/
theorem Complete.exists_labelsData (h : Complete p L data) (tree : p.IsClassTree)
    (names : p.RecordNamesDistinct) : ∃ recordNames : List String,
    data.LabelsData recordNames (p.stringLiterals.map Prod.fst) ∧ recordNames.Nodup ∧
      ∀ {name}, name ∈ recordNames ↔ p.IsRecordName name := by
  have hsegment : (Code.of .dummy [.segment .data]).LabelsData [] [] := by
    intro l
    cases l <;> rfl
  obtain ⟨records, literals, hliterals, rfl, hrooted | ⟨arrays, hnone, rfl, harrays, rfl⟩⟩ :=
    h.exists_code
  · obtain ⟨root, hroot, hlays, hlaid⟩ := hrooted
    have hreflects : (p.classTree root).Reflects p := LaidOut.reflects hlaid
    have hisRoot : p.IsRoot root := by
      rcases tree.exists_rootClass with ⟨hnone, _⟩ | ⟨r, hr, hisRoot⟩
      · rw [hroot] at hnone
        cases hnone
      · rw [hroot] at hr
        cases hr
        exact hisRoot
    refine ⟨(p.classTree root).recordNames, ?_,
      hreflects.nodup_recordNames tree names hlays.classes.nodup, fun {name} => ?_⟩
    · simpa using (hsegment.append hlaid.labelsData).append (labelsData_stringLiterals hliterals)
    · rw [hreflects.mem_recordNames_iff tree, Program.id_classTree, Program.isRecordName_iff,
        Program.RecordUnder]
      have hdesc : ∀ {c decl}, p.classAt c = .ok decl → p.Descends c root :=
        fun hc => tree.descends_root hisRoot hc
      constructor
      · rintro (⟨c, decl, hc, _, hname⟩ | ⟨_, harray⟩)
        · exact Or.inl ⟨c, decl, hc, hname⟩
        · exact Or.inr harray
      · rintro (⟨c, decl, hc, hname⟩ | harray)
        · exact Or.inl ⟨c, decl, hc, hdesc hc, hname⟩
        · exact Or.inr ⟨hisRoot, harray⟩
  · refine ⟨[scalarArrayRecord, referenceArrayRecord], ?_, by decide, fun {name} => ?_⟩
    · simpa using (hsegment.append (labelsData_arrayRecords harrays)).append
        (labelsData_stringLiterals hliterals)
    · rw [Program.isRecordName_iff, List.mem_cons, List.mem_singleton]
      refine ⟨Or.inr, fun hname => hname.resolve_left ?_⟩
      rintro ⟨c, decl, hc, _⟩
      obtain ⟨cl, hcl⟩ := h.exists_layout hc
      exact absurd hcl classAt_blank_ne_ok

/-! ## References -/

/-- A dispatch table holds what it held before and methods placed in it. -/
theorem vtable_subset {methods vtable vtable' : List MethodId}
    (h : Folds (MethodPlaced p L c) vtable methods vtable') : vtable' ⊆ vtable ++ methods := by
  induction h with
  | nil => exact List.subset_append_left _ _
  | @cons vtable vtable₁ _ m methods hfirst _ ih =>
    have hplaced : vtable₁ ⊆ vtable ++ [m] := by
      obtain ⟨decl, ml, _, _, _, _, hslot⟩ := hfirst
      generalize ml.slot = slot at hslot
      cases hslot with
      | override _ _ _ =>
        intro m' hm'
        rcases List.mem_or_eq_of_mem_set hm' with hold | rfl
        · exact List.mem_append_left _ hold
        · exact List.mem_append_right _ List.mem_cons_self
      | opened _ _ => exact List.Subset.refl _
    intro m' hm'
    rcases List.mem_append.1 (ih hm') with hmem | hmem
    · rcases List.mem_append.1 (hplaced hmem) with hold | hnew
      · exact List.mem_append_left _ hold
      · rw [List.mem_singleton.1 hnew]
        exact List.mem_append_right _ List.mem_cons_self
    · exact List.mem_append_right _ (List.mem_cons_of_mem m hmem)

/-- The labels of a method are known. -/
def MethodKnown (p : Program) (known : Label → Prop) (m : MethodId) : Prop :=
  ∀ label, p.methodLabel m = .ok label → known label

section Known

variable (hclass : ∀ {c decl}, p.classAt c = .ok decl → known (.classStart decl.name))
include hclass

theorem refersTo_recordBody {superclass : Option ClassId} {cl : ClassLayout} {body : List Inst}
    {span : Span} (h : recordBody p superclass cl = .ok body)
    (hmethods : ∀ m ∈ cl.vtable, MethodKnown p known m) : (Code.of span body).RefersTo known := by
  obtain ⟨superWord, table, rfl, hsuper, htable⟩ := recordBody_eq_ok h
  have hword : ∀ l, (Inst.word superWord).operand? = some l → known l := by
    intro l hl
    cases superclass with
    | none =>
      obtain rfl := hsuper
      cases hl
    | some s =>
      obtain ⟨decl, hdecl, rfl⟩ := hsuper
      cases hl
      exact hclass hdecl
  rw [Code.refersTo_of, List.forall_mem_cons]
  refine ⟨⟨hword, by simp [Inst.written?]⟩, fun inst hinst => ?_⟩
  obtain ⟨m, hm, label, hlabel, rfl⟩ := exists_of_mem_forall₂ htable hinst
  refine ⟨fun l hl => ?_, by simp [Inst.written?]⟩
  cases hl
  exact hmethods m hm label hlabel

theorem refersTo_arrayRecords {superclass : Option ClassId} {cl : ClassLayout}
    {arrays : List Inst} {span : Span} (h : arrayRecords p superclass cl = .ok arrays)
    (hmethods : ∀ m ∈ cl.vtable, MethodKnown p known m) : (Code.of span arrays).RefersTo known := by
  obtain ⟨body, hbody, harrays⟩ := bind_eq_ok_iff.1 h
  obtain rfl := pure_eq_ok_iff.1 harrays
  have hrefers : (Code.of span body).RefersTo known :=
    refersTo_recordBody hclass hbody hmethods
  rw [Code.refersTo_of] at hrefers ⊢
  intro inst hinst
  obtain ⟨name, _, hinst⟩ := List.mem_flatMap.1 hinst
  rw [List.mem_append, List.mem_cons, List.mem_singleton] at hinst
  rcases hinst with (rfl | hinst) | rfl
  · simp [Inst.operand?, Inst.written?]
  · exact hrefers inst hinst
  · simp [Inst.operand?, Inst.written?]

/-- The records of a tree refer to classes and to methods of the tree, or to inherited ones. -/
theorem LaidOut.refersTo {tree : ClassTree} {inherited : ClassLayout}
    (h : LaidOut p L inherited tree code)
    (hinherited : ∀ m ∈ inherited.vtable, MethodKnown p known m)
    (hmethods : ∀ m ∈ methodsOf tree.nodes, MethodKnown p known m) : code.RefersTo known := by
  induction tree generalizing inherited code with
  | broken id fault => exact h.elim
  | node id decl subclasses ih =>
    obtain ⟨cl, body, descendants, arrays, hplaced, hbody, hall, harrays, rfl⟩ := h
    rw [ClassTree.nodes, methodsOf, List.flatMap_cons, List.forall_mem_append] at hmethods
    obtain ⟨hown, hbelow⟩ := hmethods
    have htable : ∀ m ∈ cl.vtable, MethodKnown p known m := by
      obtain ⟨fields, hfields, hplaced, _⟩ := hplaced.exists_fields
      intro m hm
      have hfrom := vtable_subset hplaced hm
      rw [FieldPlaced.vtable_eq hfields] at hfrom
      rcases List.mem_append.1 hfrom with hold | hnew
      · exact hinherited m hold
      · exact hown m hnew
    have hdescendants : descendants.RefersTo known := by
      clear hplaced hbody harrays
      induction subclasses generalizing descendants with
      | nil =>
        obtain rfl := hall
        exact Code.refersTo_nil
      | cons tree trees ihs =>
        obtain ⟨first, rest, hfirst, hrest, rfl⟩ := hall
        rw [ClassTree.nodesAll, List.flatMap_append, List.forall_mem_append] at hbelow
        exact Code.refersTo_append.2 ⟨ih tree List.mem_cons_self hfirst htable hbelow.1,
          ihs (fun t ht => ih t (List.mem_cons_of_mem tree ht)) _ hrest hbelow.2⟩
    have harrayRecords : (Code.of decl.span arrays).RefersTo known := by
      split at harrays
      · exact refersTo_arrayRecords hclass harrays htable
      · cases harrays
        exact Code.refersTo_nil
    have hrecord : (Code.of decl.span body).RefersTo known :=
      refersTo_recordBody hclass hbody htable
    rw [Code.refersTo_of] at hrecord harrayRecords
    simp only [Code.refersTo_append, Code.refersTo_of, List.forall_mem_cons, List.forall_mem_append]
    refine ⟨⟨⟨?_, hrecord⟩, hdescendants⟩, harrayRecords, ?_, by simp⟩
    · simp [Inst.operand?, Inst.written?]
    · simp [Inst.operand?, Inst.written?]

/-- Literals refer to the record of the class of strings, or to that of arrays. -/
theorem refersTo_stringLiterals {literals : Code} (h : stringLiterals p = .ok literals)
    (harray : known (.classStart scalarArrayRecord)) : literals.RefersTo known := by
  obtain ⟨record, codes, hrecord, hcodes, rfl⟩ := stringLiterals_eq_ok h
  have hknown : known (.classStart record) := by
    unfold IsLiteralRecord at hrecord
    split at hrecord
    · obtain ⟨decl, hc, rfl⟩ := hrecord
      exact hclass hc
    · exact hrecord ▸ harray
  refine Code.refersTo_flatten fun code hcode => ?_
  obtain ⟨literal, _, insts, rfl, hliteral⟩ := exists_of_mem_forall₂ hcodes hcode
  obtain ⟨_, rfl⟩ := stringLiteral_eq_ok_iff.1 hliteral
  simp [Inst.operand?, Inst.written?, hknown]

/-- The data segment refers to records and to methods of classes. -/
theorem Complete.refersTo_data (h : Complete p L data)
    (harray : known (.classStart scalarArrayRecord))
    (hmethods : ∀ {c decl}, p.classAt c = .ok decl →
      ∀ m ∈ decl.methods.methods, MethodKnown p known m) : data.RefersTo known := by
  have hsegment : (Code.of .dummy [.segment .data]).RefersTo known := by
    simp [Inst.operand?, Inst.written?]
  obtain ⟨records, literals, hliterals, rfl, hrooted | ⟨arrays, _, _, harrays, rfl⟩⟩ :=
    h.exists_code
  · obtain ⟨root, _, _, hlaid⟩ := hrooted
    have hreflects : (p.classTree root).Reflects p := LaidOut.reflects hlaid
    have hrecords : records.RefersTo known := by
      refine hlaid.refersTo hclass (by simp [ClassLayout.root]) fun m hm => ?_
      obtain ⟨⟨c, decl⟩, hnode, hm⟩ := List.mem_flatMap.1 hm
      exact hmethods (hreflects.classAt_of_mem hnode) m hm
    exact Code.refersTo_append.2 ⟨Code.refersTo_append.2 ⟨hsegment, hrecords⟩,
      refersTo_stringLiterals hclass hliterals harray⟩
  · have hrecords : (Code.of .dummy arrays).RefersTo known :=
      refersTo_arrayRecords hclass harrays (by simp [ClassLayout.root])
    exact Code.refersTo_append.2 ⟨Code.refersTo_append.2 ⟨hsegment, hrecords⟩,
      refersTo_stringLiterals hclass hliterals harray⟩

end Known

end Layout

end MipsBackend
