import Mathlib.Data.List.Count
import MipsBackend.Proofs.Assembly.Labels
import MipsBackend.Proofs.Layout.Pass

/-!
# Class records in the data segment

A class record is the label of the class, the superclass word and the words of its dispatch table.
The records of a class's descendants follow it, and then its end label.  So the labels of the data
segment are a bracketing of the class tree: `ClassTree.labels` reads it off the tree, and
`LaidOut.labels_eq` says that the code has those labels.

Each record has one start and one end label, provided that no two records have one name.
`count_labels` reduces that to the names of the tree's records, and `nodup_recordNames` derives it
from `RecordNamesDistinct`.

`LaidOut.exists_subtree` finds the code of any class inside the code of a tree.
-/

namespace MipsBackend

variable {p : Program} {L : Layout} {c : ClassId} {code data : Code}

namespace Layout

/-! ## The code of one class inside the code of a tree -/

theorem LaidOutAll.exists_of_mem {inherited : ClassLayout} {trees : List (Unit → ClassTree)}
    {tree : Unit → ClassTree} (h : LaidOutAll p L inherited trees code) (hmem : tree ∈ trees) :
    ∃ pre first post, LaidOut p L inherited (tree ()) first ∧ code = pre ++ first ++ post := by
  induction trees generalizing code with
  | nil => exact absurd hmem List.not_mem_nil
  | cons t ts ih =>
    obtain ⟨first, rest, hfirst, hrest, rfl⟩ := h
    rcases List.mem_cons.1 hmem with rfl | hmem
    · exact ⟨[], first, rest, hfirst, rfl⟩
    · obtain ⟨pre, code, post, hlaid, rfl⟩ := ih hrest hmem
      exact ⟨first ++ pre, code, post, hlaid, by simp⟩

/-- A tree that could be laid out was unfolded without a fault. -/
theorem LaidOut.reflects {bound : Nat} {inherited : ClassLayout}
    (h : LaidOut p L inherited (p.unfoldClass bound c) code) :
    (p.unfoldClass bound c).Reflects p := by
  induction bound generalizing c inherited code with
  | zero =>
    unfold Program.unfoldClass at h
    split at h <;> exact h.elim
  | succ bound ih =>
    unfold Program.unfoldClass at h ⊢
    split at h
    · exact h.elim
    · rename_i decl hdecl
      obtain ⟨cl, _, _, _, _, _, hall, _⟩ := h
      refine ⟨hdecl, by simp [Function.comp_def], ClassTree.reflectsAll_iff.2 fun tree htree => ?_⟩
      obtain ⟨_, _, _, hlaid, _⟩ := hall.exists_of_mem htree
      obtain ⟨d, _, rfl⟩ := List.mem_map.1 htree
      exact ih hlaid

/-- Every class of a tree has a subtree that was laid out from what its superclass passed down. -/
theorem LaidOut.exists_subtree {tree : ClassTree} {inherited : ClassLayout}
    (h : LaidOut p L inherited tree code) (hreflects : tree.Reflects p) (hmem : c ∈ tree.classes) :
    ∃ sub inherited' pre code' post, sub.id = c ∧ sub.Reflects p ∧
      LaidOut p L inherited' sub code' ∧ code = pre ++ code' ++ post ∧
      ((c = tree.id ∧ inherited' = inherited) ∨
        ∃ s, p.HasSubclass s c ∧ L.classAt s = .ok inherited') := by
  induction tree generalizing inherited code with
  | broken id fault => exact h.elim
  | node id decl subclasses ih =>
    rcases ClassTree.mem_classes_node.1 hmem with rfl | ⟨tree, htree, hc⟩
    · exact ⟨_, inherited, [], code, [], rfl, hreflects, h, by simp, Or.inl ⟨rfl, rfl⟩⟩
    · obtain ⟨cl, body, descendants, arrays, hplaced, _, hall, _, rfl⟩ := h
      obtain ⟨hdecl, hids, hwhole⟩ := hreflects
      obtain ⟨pre, first, post, hfirst, rfl⟩ := hall.exists_of_mem htree
      obtain ⟨sub, inherited', pre', code', post', hsub, hsubReflects, hsubLaid, rfl, hfrom⟩ :=
        ih tree htree hfirst (ClassTree.reflectsAll_iff.1 hwhole tree htree) hc
      refine ⟨sub, inherited',
        Code.of decl.span (.label (.classStart decl.name) :: body) ++ pre ++ pre', code',
        post' ++ post ++ Code.of decl.span (arrays ++ [.label (.classEnd decl.name)]), hsub,
        hsubReflects, hsubLaid, by simp only [List.append_assoc], Or.inr ?_⟩
      rcases hfrom with ⟨rfl, rfl⟩ | hfrom
      · refine ⟨id, ⟨decl, hdecl, ?_⟩, hplaced.layout⟩
        rw [hids]
        exact List.mem_map_of_mem htree
      · exact hfrom

/-- Every class of a tree is laid out from what its superclass passed down. -/
theorem LaidOut.exists_classPlaced {tree : ClassTree} {inherited : ClassLayout} {decl : ClassDecl}
    (h : LaidOut p L inherited tree code) (hreflects : tree.Reflects p) (hmem : c ∈ tree.classes)
    (hc : p.classAt c = .ok decl) :
    ∃ inherited' cl, ClassPlaced p L inherited' c decl cl ∧
      ((c = tree.id ∧ inherited' = inherited) ∨
        ∃ s, p.HasSubclass s c ∧ L.classAt s = .ok inherited') := by
  obtain ⟨sub, inherited', _, _, _, hid, hsubReflects, hsub, _, hfrom⟩ :=
    h.exists_subtree hreflects hmem
  cases sub with
  | broken id fault => exact hsub.elim
  | node id decl' subclasses =>
    obtain rfl : id = c := hid
    obtain rfl : decl' = decl := Except.ok.inj (hsubReflects.1.symm.trans hc)
    obtain ⟨cl, _, _, _, hplaced, _⟩ := hsub
    exact ⟨inherited', cl, hplaced, hfrom⟩

/-- Every method with a layout was placed with the methods of a class. -/
theorem Complete.exists_methodPlaced {id : MethodId} {m : MethodLayout} (h : Complete p L data)
    (hm : L.methodAt id = .ok m) :
    ∃ c vtable vtable', MethodPlaced p L c vtable id vtable' := by
  obtain ⟨records, literals, _, _, hrooted | ⟨_, _, rfl, _⟩⟩ := h.exists_code
  · obtain ⟨root, _, hlays, hlaid⟩ := hrooted
    have hreflects : (p.classTree root).Reflects p := LaidOut.reflects hlaid
    rcases hlays.methods.new (methodAt_eq_ok_iff.1 hm) with hblank | hmem
    · exact absurd (methodAt_eq_ok_iff.2 hblank) methodAt_blank_ne_ok
    · obtain ⟨⟨c, decl⟩, hnode, hid⟩ := List.mem_flatMap.1 hmem
      obtain ⟨_, cl, hplaced, _⟩ := hlaid.exists_classPlaced hreflects
        (List.mem_map_of_mem hnode) (hreflects.classAt_of_mem hnode)
      obtain ⟨_, _, hmethods, _⟩ := hplaced.exists_fields
      obtain ⟨vtable, vtable', hmethod⟩ := hmethods.exists_of_mem hid
      exact ⟨c, vtable, vtable', hmethod⟩
  · exact absurd hm methodAt_blank_ne_ok

/-! ## The words of a record -/

/-- The word that stands for a superclass in the records of its subclasses. -/
def IsSuperWord (p : Program) : Option ClassId → DataWord → Prop
  | none, word => word = .int 0
  | some s, word => ∃ decl, p.classAt s = .ok decl ∧ word = .label (.classStart decl.name)

/-- The superclass word is followed by the labels of the table's methods. -/
theorem recordBody_eq_ok {superclass : Option ClassId} {cl : ClassLayout} {body : List Inst}
    (h : recordBody p superclass cl = .ok body) :
    ∃ superWord table, body = .word superWord :: table ∧ IsSuperWord p superclass superWord ∧
      List.Forall₂ (fun m inst => ∃ label, p.methodLabel m = .ok label ∧
        inst = .word (.label label)) cl.vtable table := by
  unfold recordBody at h
  cases superclass with
  | none =>
    simp only [bind_eq_ok_iff, pure_eq_ok_iff, mapM_eq_ok_iff] at h
    obtain ⟨_, rfl, table, htable, rfl⟩ := h
    exact ⟨_, table, rfl, rfl, htable⟩
  | some s =>
    simp only [bind_eq_ok_iff, pure_eq_ok_iff, mapM_eq_ok_iff] at h
    obtain ⟨decl, hdecl, _, rfl, table, htable, rfl⟩ := h
    exact ⟨_, table, rfl, ⟨decl, hdecl, rfl⟩, htable⟩

theorem labels_recordBody {superclass : Option ClassId} {cl : ClassLayout}
    {body : List Inst} (h : recordBody p superclass cl = .ok body) :
    body.filterMap Inst.definedLabel = [] := by
  obtain ⟨superWord, table, rfl, _, htable⟩ := recordBody_eq_ok h
  refine List.filterMap_eq_nil_iff.2 fun inst hinst => ?_
  rcases List.mem_cons.1 hinst with rfl | hinst
  · rfl
  · obtain ⟨_, _, _, _, rfl⟩ := exists_of_mem_forall₂ htable hinst
    rfl

/-! ## The labels of the records -/

/-- The names of the records that go with a class: its own, and those of arrays if it is a root. -/
def recordNames (decl : ClassDecl) : List String :=
  decl.name :: if decl.superclass.isNone then [scalarArrayRecord, referenceArrayRecord] else []

end Layout

open Layout

namespace ClassTree

mutual

/-- The labels of the records of a tree, in order. -/
def labels : ClassTree → List Label
  | .broken _ _ => []
  | .node _ decl subclasses =>
    .classStart decl.name :: labelsAll subclasses
      ++ (if decl.superclass.isNone then
          [scalarArrayRecord, referenceArrayRecord].flatMap fun name =>
            [.classStart name, .classEnd name]
        else [])
      ++ [.classEnd decl.name]

/-- The labels of the records of some trees. -/
def labelsAll : List (Unit → ClassTree) → List Label
  | [] => []
  | tree :: trees => labels (tree ()) ++ labelsAll trees

end

/-- The names of the records of a tree. -/
def recordNames (t : ClassTree) : List String :=
  t.nodes.flatMap fun node => Layout.recordNames node.2

theorem recordNames_node {id : ClassId} {decl : ClassDecl} {subclasses : List (Unit → ClassTree)} :
    (ClassTree.node id decl subclasses).recordNames = Layout.recordNames decl ++
      (nodesAll subclasses).flatMap fun node => Layout.recordNames node.2 := by
  simp [recordNames, nodes]

/-- Each record of a tree has one start label and one end label. -/
theorem count_labels (t : ClassTree) (name : String) {mark : String → Label}
    (hmark : mark = .classStart ∨ mark = .classEnd) :
    t.labels.count (mark name) = t.recordNames.count name := by
  induction t with
  | broken id fault => rfl
  | node id decl subclasses ih =>
    have hall : (labelsAll subclasses).count (mark name) =
        ((nodesAll subclasses).flatMap fun node => Layout.recordNames node.2).count name := by
      clear id
      induction subclasses with
      | nil => rfl
      | cons tree trees ihs =>
        have hfirst := ih tree List.mem_cons_self
        have hrest := ihs fun t ht => ih t (List.mem_cons_of_mem tree ht)
        rw [labelsAll, nodesAll, List.flatMap_append, List.count_append, List.count_append, hfirst,
          hrest, recordNames]
    rw [recordNames_node, List.count_append, ← hall, Layout.recordNames, labels]
    rcases hmark with rfl | rfl
    · split <;> simp [List.count_cons] <;> omega
    · split <;> simp [List.count_cons] <;> omega

end ClassTree

/-- The labels of laid out classes are those of the tree. -/
theorem Layout.LaidOut.labels_eq {tree : ClassTree} {inherited : ClassLayout}
    (h : LaidOut p L inherited tree code) : code.labels = tree.labels := by
  induction tree generalizing inherited code with
  | broken id fault => exact h.elim
  | node id decl subclasses ih =>
    have hall : ∀ {cl : ClassLayout} {code : Code}, LaidOutAll p L cl subclasses code →
        code.labels = ClassTree.labelsAll subclasses := by
      clear h
      intro cl code h
      induction subclasses generalizing code with
      | nil =>
        obtain rfl := h
        rfl
      | cons tree trees ihs =>
        obtain ⟨first, rest, hfirst, hrest, rfl⟩ := h
        rw [Code.labels_append, ih tree List.mem_cons_self hfirst,
          ihs (fun t ht => ih t (List.mem_cons_of_mem tree ht)) hrest, ClassTree.labelsAll]
    obtain ⟨cl, body, descendants, arrays, _, hbody, hdescendants, harrays, rfl⟩ := h
    have harrayLabels : arrays.filterMap Inst.definedLabel =
        if decl.superclass.isNone then
          [scalarArrayRecord, referenceArrayRecord].flatMap fun name =>
            [.classStart name, .classEnd name]
        else [] := by
      split at harrays
      · rename_i hroot
        rw [arrayRecords, bind_eq_ok_iff] at harrays
        obtain ⟨arrayBody, harrayBody, harrays⟩ := harrays
        obtain rfl := pure_eq_ok_iff.1 harrays
        have hnone := labels_recordBody harrayBody
        simp [hroot, hnone, Inst.definedLabel]
      · rename_i hroot
        obtain rfl := Except.ok.inj harrays
        simp [hroot]
    rw [Code.labels_append, Code.labels_append, Code.labels_of, Code.labels_of,
      List.filterMap_append, harrayLabels, hall hdescendants, ClassTree.labels]
    simp [Inst.definedLabel, labels_recordBody hbody]

/-! ## Distinct records -/

/-- No two records have one name: class names differ from each other and from the names of the array
records. -/
structure Program.RecordNamesDistinct (p : Program) : Prop where
  injective {c d : ClassId} {cdecl ddecl : ClassDecl} : p.classAt c = .ok cdecl →
    p.classAt d = .ok ddecl → cdecl.name = ddecl.name → c = d
  not_array {c : ClassId} {decl : ClassDecl} : p.classAt c = .ok decl →
    decl.name ≠ scalarArrayRecord ∧ decl.name ≠ referenceArrayRecord

theorem Program.recordNamesDistinct_of_nodup
    (h : (scalarArrayRecord :: referenceArrayRecord ::
      p.classes.toList.map ClassDecl.name).Nodup) : p.RecordNamesDistinct := by
  obtain ⟨hscalar, h⟩ := List.nodup_cons.1 h
  obtain ⟨hreference, hnodup⟩ := List.nodup_cons.1 h
  have hget : ∀ {c decl}, p.classAt c = .ok decl →
      (p.classes.toList.map ClassDecl.name)[c.toNat]? = some decl.name := by
    intro c decl hdecl
    rw [List.getElem?_map, Array.getElem?_toList, lookup_eq_ok_iff.1 hdecl, Option.map_some]
  refine ⟨fun {c d cdecl ddecl} hc hd hname => ?_, fun {c decl} hc => ⟨?_, ?_⟩⟩
  · have hlt := (List.getElem?_eq_some_iff.1 (hget hc)).1
    exact NodeId.toNat_inj.1
      ((List.getElem?_inj hlt hnodup).1 (by rw [hget hc, hget hd, hname]))
  · rintro hname
    exact hscalar (List.mem_cons_of_mem _ (hname ▸ List.mem_of_getElem? (hget hc)))
  · rintro hname
    exact hreference (hname ▸ List.mem_of_getElem? (hget hc))

/-- The record of a name belongs to a class or to one of its descendants.  Array records belong to
the root class. -/
def Program.RecordUnder (p : Program) (c : ClassId) (name : String) : Prop :=
  (∃ d decl, p.classAt d = .ok decl ∧ p.Descends d c ∧ decl.name = name) ∨
    (p.IsRoot c ∧ (name = scalarArrayRecord ∨ name = referenceArrayRecord))

namespace Program.RecordNamesDistinct

variable {d : ClassId} {cdecl ddecl : ClassDecl}

theorem recordUnder_class_iff (names : p.RecordNamesDistinct) (hd : p.classAt d = .ok ddecl) :
    p.RecordUnder c ddecl.name ↔ p.Descends d c := by
  constructor
  · rintro (⟨d', decl, hd', hdesc, hname⟩ | ⟨_, harray⟩)
    · obtain rfl := names.injective hd' hd hname
      exact hdesc
    · exact absurd harray (not_or.2 (names.not_array hd))
  · exact fun hdesc => Or.inl ⟨d, ddecl, hd, hdesc, rfl⟩

theorem recordUnder_array_iff (names : p.RecordNamesDistinct) {name : String}
    (harray : name = scalarArrayRecord ∨ name = referenceArrayRecord) :
    p.RecordUnder c name ↔ p.IsRoot c := by
  constructor
  · rintro (⟨d, decl, hd, _, rfl⟩ | ⟨hroot, _⟩)
    · exact absurd harray (not_or.2 (names.not_array hd))
    · exact hroot
  · exact fun hroot => Or.inr ⟨hroot, harray⟩

end Program.RecordNamesDistinct

theorem Layout.mem_recordNames {decl : ClassDecl} {name : String} :
    name ∈ recordNames decl ↔ decl.name = name ∨ (decl.superclass = none ∧
      (name = scalarArrayRecord ∨ name = referenceArrayRecord)) := by
  rw [recordNames, List.mem_cons, @eq_comm _ name]
  split <;> simp_all

namespace ClassTree.Reflects

variable {t : ClassTree} (h : t.Reflects p) (tree : p.IsClassTree)
include h tree

theorem mem_recordNames_iff {name : String} : name ∈ t.recordNames ↔ p.RecordUnder t.id name := by
  rw [recordNames, List.mem_flatMap]
  constructor
  · rintro ⟨⟨c, decl⟩, hnode, hname⟩
    have hdecl := h.classAt_of_mem hnode
    have hdesc := (h.mem_classes_iff tree.isForest).1 (List.mem_map_of_mem (f := Prod.fst) hnode)
    rcases Layout.mem_recordNames.1 hname with rfl | ⟨hnone, harray⟩
    · exact Or.inl ⟨c, decl, hdecl, hdesc, rfl⟩
    · refine Or.inr ⟨?_, harray⟩
      rcases hdesc.cases_head with heq | ⟨s, hstep, _⟩
      · exact heq ▸ ⟨decl, hdecl, hnone⟩
      · exact absurd hstep (Program.IsRoot.not_extends ⟨decl, hdecl, hnone⟩)
  · rintro (⟨c, decl, hdecl, hdesc, hname⟩ | ⟨⟨decl, hdecl, hnone⟩, harray⟩)
    · obtain ⟨decl', hnode, hdecl'⟩ :=
        h.exists_of_mem ((h.mem_classes_iff tree.isForest).2 hdesc)
      obtain rfl : decl = decl' := Except.ok.inj (hdecl.symm.trans hdecl')
      exact ⟨(c, decl), hnode, Layout.mem_recordNames.2 (Or.inl hname)⟩
    · obtain ⟨decl', hnode, hdecl'⟩ := h.exists_of_mem h.id_mem_classes
      obtain rfl : decl = decl' := Except.ok.inj (hdecl.symm.trans hdecl')
      exact ⟨(t.id, decl), hnode, Layout.mem_recordNames.2 (Or.inr ⟨hnone, harray⟩)⟩

theorem nodup_recordNames (names : p.RecordNamesDistinct) (hnodup : t.classes.Nodup) :
    t.recordNames.Nodup := by
  refine List.nodup_flatMap.2 ⟨?_, ?_⟩
  · rintro ⟨c, decl⟩ hnode
    have hname := names.not_array (h.classAt_of_mem hnode)
    rw [Layout.recordNames]
    split
    · simp [hname.1, hname.2, show scalarArrayRecord ≠ referenceArrayRecord by decide]
    · simp
  · refine (List.pairwise_map.1 hnodup).imp_of_mem ?_
    rintro ⟨c, cdecl⟩ ⟨d, ddecl⟩ hc hd hne name hcname hdname
    have hcdecl := h.classAt_of_mem hc
    have hddecl := h.classAt_of_mem hd
    rcases Layout.mem_recordNames.1 hcname with rfl | ⟨hcnone, hcarray⟩
    · rcases Layout.mem_recordNames.1 hdname with hsame | ⟨_, hdarray⟩
      · exact hne (names.injective hcdecl hddecl hsame.symm)
      · exact hdarray.elim (names.not_array hcdecl).1 (names.not_array hcdecl).2
    · rcases Layout.mem_recordNames.1 hdname with rfl | ⟨hdnone, _⟩
      · exact hcarray.elim (names.not_array hddecl).1 (names.not_array hddecl).2
      · exact hne (tree.root_unique c d ⟨cdecl, hcdecl, hcnone⟩ ⟨ddecl, hddecl, hdnone⟩)

end ClassTree.Reflects

end MipsBackend
