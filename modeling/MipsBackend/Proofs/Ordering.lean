import MipsBackend.Proofs.Closure
import MipsBackend.Proofs.Hierarchy.Worklist
import MipsBackend.Proofs.Layout.Objects

/-!
# The order of what is generated

Class records are written by a recursion over the class tree, and method bodies are listed by a walk
of their own, which could be done with a stack as well.  This module shows that both follow the
preorder of the tree.  The names that start records are those of the classes in this order
(`ClassTree.records_labels`); the labels that bodies are entered by are those of the entry point and
of the methods, in order (`entries_flatten`).  `generatedInOrder_of_compile` puts the two side by
side.
-/

namespace MipsBackend

open Layout

variable {p : Program} {L : Layout} {data code text : Code} {c root : ClassId} {m : MethodId}

/-! ## Names of records -/

/-- The name of the record that starts at a label. -/
def Label.record? : Label → Option String
  | .classStart name => some name
  | _ => none

namespace ClassTree

theorem records_labelsAll {trees : List (Unit → ClassTree)}
    (h : ∀ tree ∈ trees, (tree ()).labels.filterMap Label.record? =
      (tree ()).nodes.map fun node => node.2.name) :
    (labelsAll trees).filterMap Label.record? =
      (nodesAll trees).map fun node => node.2.name := by
  induction trees with
  | nil => rfl
  | cons tree trees ih =>
    rw [List.forall_mem_cons] at h
    rw [labelsAll, nodesAll, List.filterMap_append, List.map_append, h.1, ih h.2]

/-- The records of subclasses start in preorder. -/
theorem records_labels {t : ClassTree} (h : ∀ node ∈ t.nodes, node.2.superclass.isSome) :
    t.labels.filterMap Label.record? = t.nodes.map fun node => node.2.name := by
  induction t with
  | broken id fault => rfl
  | node id decl subclasses ih =>
    obtain ⟨hsome, hbelow⟩ := List.forall_mem_cons.1 h
    have hall := records_labelsAll fun tree htree =>
      ih tree htree fun node hnode => hbelow node (mem_nodesAll.2 ⟨tree, htree, hnode⟩)
    have hnone : decl.superclass.isNone = false := Option.isNone_eq_false_iff.2 hsome
    simp [labels, nodes, hnone, hall, Label.record?, List.filterMap_cons]

/-- The records of all classes start in preorder, then come those of arrays. -/
theorem records_labels_root {id : ClassId} {decl : ClassDecl} {subclasses : List (Unit → ClassTree)}
    (hroot : decl.superclass = none)
    (h : ∀ node ∈ nodesAll subclasses, node.2.superclass.isSome) :
    (ClassTree.node id decl subclasses).labels.filterMap Label.record? =
      (ClassTree.node id decl subclasses).nodes.map (fun node => node.2.name) ++
        [scalarArrayRecord, referenceArrayRecord] := by
  have hall := records_labelsAll fun tree htree =>
    records_labels fun node hnode => h node (mem_nodesAll.2 ⟨tree, htree, hnode⟩)
  simp [labels, nodes, hroot, hall, Label.record?, List.filterMap_cons]

end ClassTree

/-- The start labels of a data segment are those of its records. -/
theorem records_data {records literals : Code} (hliterals : stringLiterals p = .ok literals) :
    (Code.of .dummy [.segment .data] ++ records ++ literals).labels.filterMap Label.record? =
      records.labels.filterMap Label.record? := by
  have hnone : literals.labels.filterMap Label.record? = [] := by
    rw [labels_stringLiterals hliterals, List.filterMap_eq_nil_iff]
    intro l hl
    obtain ⟨e, _, rfl⟩ := List.mem_map.1 hl
    rfl
  rw [Code.labels_append, Code.labels_append, List.filterMap_append, List.filterMap_append, hnone]
  simp [Inst.definedLabel, List.filterMap_cons]

theorem records_arrayRecords {superclass : Option ClassId} {cl : ClassLayout} {arrays : List Inst}
    {span : Span} (h : arrayRecords p superclass cl = .ok arrays) :
    (Code.of span arrays).labels.filterMap Label.record? =
      [scalarArrayRecord, referenceArrayRecord] := by
  obtain ⟨body, hbody, harrays⟩ := bind_eq_ok_iff.1 h
  obtain rfl := pure_eq_ok_iff.1 harrays
  simp [Inst.definedLabel, labels_recordBody hbody, Label.record?, List.filterMap_cons]

/-- On a class tree only the root lacks a superclass, so the records of arrays come last. -/
theorem Layout.Rooted.records_eq (h : Rooted p L root) (tree : p.IsClassTree)
    {inherited : ClassLayout} {records : Code}
    (hlaid : LaidOut p L inherited (p.classTree root) records) :
    records.labels.filterMap Label.record? =
      (p.classTree root).nodes.map (fun node => node.2.name) ++
        [scalarArrayRecord, referenceArrayRecord] := by
  have hisRoot : p.IsRoot root := by
    rcases tree.exists_rootClass with ⟨hnone, _⟩ | ⟨root', hroot', hisRoot⟩
    · exact absurd (h.rootClass.symm.trans hnone) (by simp)
    · obtain rfl := Option.some.inj (Except.ok.inj (h.rootClass.symm.trans hroot'))
      exact hisRoot
  have hid := p.id_classTree root
  have hreflects := h.reflects
  have hnodup := h.nodup
  rw [hlaid.labels_eq]
  generalize p.classTree root = t at hid hreflects hnodup
  cases t with
  | broken id fault => exact hreflects.elim
  | node id decl subclasses =>
    obtain rfl : id = root := hid
    have hsuperclass := hisRoot
    obtain ⟨decl', hdecl', hnone⟩ := hsuperclass
    obtain rfl : decl = decl' := Except.ok.inj (hreflects.1.symm.trans hdecl')
    refine ClassTree.records_labels_root hnone fun ⟨c, cdecl⟩ hnode => ?_
    have hc := hreflects.classAt_of_mem (List.mem_cons_of_mem _ hnode)
    refine Option.isSome_iff_ne_none.2 fun hsuper => ?_
    obtain rfl := tree.root_unique _ _ ⟨cdecl, hc, hsuper⟩ hisRoot
    exact (List.nodup_cons.1 hnodup).1 (List.mem_map.2 ⟨_, hnode, rfl⟩)

/-! ## Entries of bodies -/

/-- The label is one that control enters a body by. -/
def Label.entersBody : Label → Bool
  | .main | .method _ _ | .runtimeMethod _ _ => true
  | _ => false

/-- The code of a body has one entry. -/
theorem Body.entries_code {b : Body} (h : b.code p L = .ok code) :
    ∃ head, b.label p = .ok head ∧ head.body? = some b ∧
      code.labels.filter Label.entersBody = [head] := by
  obtain ⟨head, inner, hhead, hbody, hlabels, hinner⟩ := b.exists_labels h
  refine ⟨head, hhead, hbody, ?_⟩
  have henters : head.entersBody := by
    cases head <;> first | rfl | simp [Label.body?] at hbody
  have hnone : inner.labels.filter Label.entersBody = [] := by
    rw [List.filter_eq_nil_iff]
    intro l hl henters
    have hpos := Nat.lt_of_lt_of_le (List.count_pos_iff.2 hl) (hinner l)
    cases l <;> simp [Label.entersBody, Label.node?] at henters hpos
  rw [hlabels, List.filter_cons_of_pos henters, hnone]

/-- The entries of some bodies are their labels, in order. -/
theorem entries_flatten {bodies : List Body} {codes : List Code}
    (h : List.Forall₂ (fun b code => Body.code p L b = .ok code) bodies codes) :
    ∃ heads, List.Forall₂ (fun b head => b.label p = .ok head) bodies heads ∧
      heads.map Label.body? = bodies.map some ∧
      (Code.labels codes.flatten).filter Label.entersBody = heads := by
  induction h with
  | nil => exact ⟨[], .nil, rfl, rfl⟩
  | cons hfirst _ ih =>
    obtain ⟨head, hhead, hbody, hentry⟩ := Body.entries_code hfirst
    obtain ⟨heads, hheads, hbodies, hentries⟩ := ih
    refine ⟨head :: heads, .cons hhead hheads, by rw [List.map_cons, List.map_cons, hbody, hbodies],
      ?_⟩
    rw [List.flatten_cons, Code.labels_append, List.filter_append, hentry, hentries]
    rfl

/-! ## The whole output -/

namespace Program

/-- The program defines the method itself. -/
def definesMethod (p : Program) (m : MethodId) : Bool :=
  (p.methodAt m).toOption.any fun decl => decl.origin.isUser

theorem definesMethod_iff : p.definesMethod m ↔ p.DefinesMethod m := by
  unfold definesMethod DefinesMethod
  cases p.methodAt m <;> simp [Except.toOption]

/-- The records of a data segment follow the preorder of the classes. -/
structure RecordsInOrder (p : Program) (data : Code) (order : List ClassId)
    (decls : List ClassDecl) : Prop where
  /-- The order is that of the walk from the root, which can also be done with a stack. -/
  preorder : p.rootClass = .ok none ∧ order = [] ∨
    ∃ root, p.rootClass = .ok (some root) ∧ p.preorder root = .ok order ∧
      ∀ order', Relation.ReflTransGen p.Turn ([root], []) ([], order') ↔ order' = order
  nodup : order.Nodup
  mem_iff {c : ClassId} : c ∈ order ↔ ∃ decl, p.classAt c = .ok decl
  declared : List.Forall₂ (fun c decl => p.classAt c = .ok decl) order decls
  /-- The records of arrays come after those of classes. -/
  records : data.labels.filterMap Label.record? =
    decls.map ClassDecl.name ++ [scalarArrayRecord, referenceArrayRecord]

/-- The bodies in a text are those of the methods that the program defines, class by class. -/
structure BodiesInOrder (p : Program) (L : Layout) (text : Code) (decls : List ClassDecl)
    (methods : List MethodId) : Prop where
  methods_eq : methods = (decls.flatMap fun decl => decl.methods.methods).filter p.definesMethod
  nodup : methods.Nodup
  mem_iff {m : MethodId} : m ∈ methods ↔ p.ListsMethod m ∧ p.DefinesMethod m
  /-- The text is the code of the entry point and of the methods. -/
  text_eq : ∃ entry codes, p.entryCode L = .ok entry ∧
    List.Forall₂ (fun m code => p.methodCode L m = .ok code) methods codes ∧
    text = entry ++ codes.flatten
  /-- The labels that bodies are entered by come in order, each of them once. -/
  entries : ∃ labels, List.Forall₂ (fun m label => p.methodLabel m = .ok label) methods labels ∧
    text.labels.filter Label.entersBody = .main :: labels ∧ (Label.main :: labels).Nodup
  /-- Methods of the runtime library have no body. -/
  runtime {m : MethodId} {decl : MethodDecl} : p.methodAt m = .ok decl → decl.origin.isRuntime →
    m ∉ methods ∧ ∀ label, p.methodLabel m = .ok label → label ∉ text.labels

theorem exists_recordsInOrder (tree : p.IsClassTree) (complete : Complete p L data) :
    ∃ order decls, RecordsInOrder p data order decls ∧
      ∀ methods, p.userMethods = .ok methods →
        methods = (decls.flatMap fun decl => decl.methods.methods).filter p.definesMethod := by
  have hfilter : (fun m => (do return (← p.methodAt m).origin.isUser : Except Fault Bool).toOption
      == some true) = p.definesMethod := by
    funext m
    rw [Bool.eq_iff_iff, isUser_eq_true_iff, definesMethod_iff]
  obtain ⟨records, literals, hliterals, hdata, ⟨root, hroot, _, hlaid⟩ |
    ⟨arrays, hnone, _, harrays, hrecords⟩⟩ := complete.exists_code
  · have hrooted := complete.rooted hroot
    refine ⟨(p.classTree root).classes, (p.classTree root).nodes.map Prod.snd, ?_, ?_⟩
    · refine ⟨Or.inr ⟨root, hroot, hrooted.reflects.preorder_eq, fun _ =>
        turns_iff hrooted.reflects⟩, hrooted.nodup, ?_, ?_, ?_⟩
      · exact ⟨fun hc => (hrooted.reflects.exists_of_mem hc).imp fun _ h => h.2,
          fun ⟨_, hc⟩ => hrooted.mem hc⟩
      · rw [ClassTree.classes, List.forall₂_map_left_iff, List.forall₂_map_right_iff,
          List.forall₂_same]
        exact fun _ hnode => hrooted.reflects.classAt_of_mem hnode
      · rw [hdata, records_data hliterals, hrooted.records_eq tree hlaid, List.map_map]
        rfl
    · intro methods hmethods
      obtain ⟨hnone, _⟩ | ⟨root', hroot', _, _, hmethods⟩ := userMethods_eq_ok tree hmethods
      · exact absurd (hroot.symm.trans hnone) (by simp)
      · obtain rfl := Option.some.inj (Except.ok.inj (hroot.symm.trans hroot'))
        rw [hmethods, hfilter, List.flatMap_map, methodsOf]
  · refine ⟨[], [], ⟨Or.inl ⟨hnone, rfl⟩, .nil, ?_, .nil, ?_⟩, ?_⟩
    · refine ⟨fun hc => absurd hc List.not_mem_nil, fun ⟨_, hc⟩ => ?_⟩
      obtain ⟨root, hrooted⟩ := complete.exists_rooted hc
      exact absurd (hrooted.rootClass.symm.trans hnone) (by simp)
    · rw [hdata, records_data hliterals, hrecords, records_arrayRecords harrays]
      rfl
    · intro methods hmethods
      obtain ⟨_, rfl⟩ | ⟨root, hroot, _⟩ := userMethods_eq_ok tree hmethods
      · rfl
      · exact absurd (hroot.symm.trans hnone) (by simp)

variable {σ : Type} [Sink σ] {o : Options} {sink out : σ} {pool : ThreadPool}
  {result : Except CompileError Layout} {bodies : List Body} {codes : List Code}
  {methods : List MethodId} {decls : List ClassDecl}

/-- The code of all bodies, one after the other, is the text. -/
theorem bodiesInOrder_of_bodies (tree : p.IsClassTree) (complete : Complete p L data)
    (hmethods : p.userMethods = .ok methods)
    (horder : methods = (decls.flatMap fun decl => decl.methods.methods).filter p.definesMethod)
    (hcodes : List.Forall₂ (fun b code => Body.code p L b = .ok code)
      (.entry :: methods.map .method) codes) :
    BodiesInOrder p L codes.flatten decls methods := by
  have hnodup := nodup_userMethods tree hmethods complete
  have hmem : ∀ {m}, m ∈ methods ↔ p.ListsMethod m ∧ p.DefinesMethod m :=
    mem_userMethods_iff tree hmethods
  obtain ⟨heads, hheads, hbodies, hentries⟩ := entries_flatten hcodes
  have hheadsNodup : heads.Nodup := by
    refine List.Nodup.of_map Label.body? ?_
    rw [hbodies]
    refine List.Nodup.map (Option.some_injective _) (List.nodup_cons.2 ⟨by simp, ?_⟩)
    exact hnodup.map fun _ _ => Body.method.inj
  obtain ⟨first, labels, hfirst, hlabels, rfl⟩ := List.forall₂_cons_left_iff.1 hheads
  obtain rfl : Label.main = first := Except.ok.inj hfirst
  obtain ⟨entry, rest, hentry, hrest, rfl⟩ := List.forall₂_cons_left_iff.1 hcodes
  rw [List.forall₂_map_left_iff] at hlabels hrest
  refine ⟨horder, hnodup, hmem, ⟨entry, rest, hentry, hrest, rfl⟩,
    ⟨labels, hlabels, hentries, hheadsNodup⟩, fun {m decl} hdecl hruntime => ?_⟩
  have huser : ¬ p.DefinesMethod m := by
    rintro ⟨decl', hdecl', huser⟩
    obtain rfl := Except.ok.inj (hdecl.symm.trans hdecl')
    cases horigin : decl.origin <;> simp_all [MethodOrigin.isUser, MethodOrigin.isRuntime]
  refine ⟨fun hm => huser (hmem.1 hm).2, fun label hlabel hdefined => ?_⟩
  -- The label of a method of the library enters a body, but none that was generated.
  obtain ⟨name, className, rfl⟩ : ∃ name className, label = .runtimeMethod name className := by
    obtain ⟨_, hdecl', hlabel⟩ := bind_eq_ok_iff.1 hlabel
    obtain rfl := Except.ok.inj (hdecl.symm.trans hdecl')
    cases horigin : decl.origin with
    | user span => simp [horigin, MethodOrigin.isRuntime, MethodOrigin.isUser] at hruntime
    | runtime =>
      simp only [horigin, bind_eq_ok_iff, pure_eq_ok_iff] at hlabel
      obtain ⟨cdecl, _, rfl⟩ := hlabel
      exact ⟨_, _, rfl⟩
  have hhead := List.mem_filter.2 ⟨hdefined, (rfl : Label.entersBody _ = true)⟩
  rw [hentries] at hhead
  have hnone := List.mem_map_of_mem (f := Label.body?) hhead
  rw [hbodies] at hnone
  simp [Label.body?] at hnone

/-- Records and bodies follow one order of the classes. -/
structure GeneratedInOrder (p : Program) (L : Layout) (data text : Code) (order : List ClassId)
    (decls : List ClassDecl) (methods : List MethodId) : Prop where
  records : RecordsInOrder p data order decls
  bodies : BodiesInOrder p L text decls methods

/-- Compilation writes records and bodies in the preorder of the classes. -/
theorem generatedInOrder_of_compile (tree : p.IsClassTree) (run : o.runCodegen)
    (serves : pool.Serves o) (h : p.compile o sink pool = .ok (out, result)) :
    ∃ L data text order decls methods, Layout.compute p = .ok (L, data) ∧
      out = (Sink.flush (Sink.emitAll sink (data ++ text))).1 ∧
      GeneratedInOrder p L data text order decls methods := by
  rw [compile_eq serves] at h
  simp only [bind_eq_ok_iff, pure_eq_ok_iff, Prod.mk.injEq] at h
  obtain ⟨⟨L, code⟩, houtput, rfl, _⟩ := h
  obtain ⟨data, bodies, codes, hcompute, hbodies, hcodes, rfl⟩ := output_eq_ok run houtput
  obtain ⟨methods, hmethods, hbodies⟩ := bind_eq_ok_iff.1 hbodies
  obtain rfl := pure_eq_ok_iff.1 hbodies
  have complete := compute_eq_ok hcompute
  obtain ⟨order, decls, hrecords, horder⟩ := exists_recordsInOrder tree complete
  exact ⟨L, data, codes.flatten, order, decls, methods, hcompute, rfl, hrecords,
    bodiesInOrder_of_bodies tree complete hmethods (horder methods hmethods) hcodes⟩

theorem generatedInOrder_shapes : ∃ (out : Buffer) (result : Except CompileError Layout)
    (L : Layout) (data text : Code) (order : List ClassId) (decls : List ClassDecl)
    (methods : List MethodId),
    shapes.IsClassTree ∧ ({} : Options).runCodegen ∧
      shapes.compile {} Buffer.empty = .ok (out, result) ∧
      Layout.compute shapes = .ok (L, data) ∧
      out = (Sink.flush (Sink.emitAll Buffer.empty (data ++ text))).1 ∧
      GeneratedInOrder shapes L data text order decls methods := by
  obtain ⟨out, result, h⟩ := exists_compile_shapes
  obtain ⟨L, data, text, order, decls, methods, hgenerated⟩ :=
    generatedInOrder_of_compile isClassTree_shapes (o := {}) rfl (ThreadPool.serves_ready _) h
  exact ⟨out, result, L, data, text, order, decls, methods, isClassTree_shapes, rfl, h, hgenerated⟩

end Program

end MipsBackend
