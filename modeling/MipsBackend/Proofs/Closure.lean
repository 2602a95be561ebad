import MipsBackend.Proofs.Code.BodyLabels
import MipsBackend.Proofs.Layout.References
import MipsBackend.Proofs.Output

/-!
# The output is closed

Whatever label the lines of a compiled program refer to is defined once among them or belongs to the
runtime library, and no label is defined twice (`Program.isClosed_of_compile`).

The labels of bodies are counted by the bodies and nodes that they are made for
(`Code.LabelsBodies`), those of data by records and literals (`Code.LabelsData`).  A label is made
for one thing only, so in a program in which nothing is generated twice no label is defined twice.

Positions are 32-bit words, so no arena has more than `2 ^ 32` entries.  The size of the arena of
expressions is a hypothesis here, since literals are labelled by their positions.
-/

namespace MipsBackend

variable {p : Program} {L : Layout} {data code : Code} {l : Label} {bodies : List Body}
  {codes : List Code}

/-! ## Labels of bodies -/

/-- Every label of the code is made for one of the bodies or nodes, and defined no more often than
that occurs among them. -/
def Code.LabelsBodies (code : Code) (bodies : List Body) (nodes : List Node) : Prop :=
  ∀ l, code.labels.count l ≤ (bodies.countP fun b => l.body? == some b) +
    nodes.countP fun node => l.node? == some node

namespace Code.LabelsBodies

variable {code' : Code} {bodies' : List Body} {nodes nodes' : List Node}

theorem append (h : code.LabelsBodies bodies nodes) (h' : code'.LabelsBodies bodies' nodes') :
    (code ++ code').LabelsBodies (bodies ++ bodies') (nodes ++ nodes') := by
  intro l
  have hleft := h l
  have hright := h' l
  rw [labels_append, List.count_append, List.countP_append, List.countP_append]
  omega

/-- No label is made for both a body and a node, so if none of them occurs twice, no label does. -/
theorem nodup (h : code.LabelsBodies bodies nodes) (hbodies : bodies.Nodup)
    (hnodes : nodes.Nodup) : code.labels.Nodup := by
  refine List.nodup_iff_count.2 fun l => Nat.le_trans (h l) ?_
  have hbody := countP_le_one_of_nodup hbodies l.body?
  have hnode := countP_le_one_of_nodup hnodes l.node?
  have hone : l.body? = none ∨ l.node? = none := by
    cases l <;> first | exact Or.inl rfl | exact Or.inr rfl
  rcases hone with hnone | hnone
  · simpa [hnone] using hnode
  · simpa [hnone] using hbody

/-- Labels of data are defined elsewhere. -/
theorem not_isData_of_mem (h : code.LabelsBodies bodies nodes) (hl : l ∈ code.labels) :
    l.isData = false := by
  have hpos := Nat.lt_of_lt_of_le (List.count_pos_iff.2 hl) (h l)
  cases l
  case classStart | classEnd | strLit => simp [Label.body?, Label.node?] at hpos
  all_goals rfl

end Code.LabelsBodies

theorem Body.labelsBodies {b : Body} (h : b.code p L = .ok code) :
    code.LabelsBodies [b] (b.nodes p) := by
  obtain ⟨head, inner, _, hhead, hlabels, hinner⟩ := b.exists_labels h
  intro l
  have hle := hinner l
  rw [hlabels, List.count_cons, List.countP_singleton]
  by_cases hl : head = l
  · rw [← hl] at hle ⊢
    simp only [hhead, beq_self_eq_true, if_true]
    omega
  · simp only [beq_iff_eq, hl, if_false]
    omega

theorem labelsBodies_flatten
    (h : List.Forall₂ (fun b code => Body.code p L b = .ok code) bodies codes) :
    Code.LabelsBodies codes.flatten bodies (bodies.flatMap (Body.nodes p)) := by
  induction h with
  | nil => exact fun l => Nat.zero_le _
  | cons hfirst _ ih => exact (Body.labelsBodies hfirst).append ih

/-- Every body is entered by a label that its code defines. -/
theorem label_mem_flatten {b : Body}
    (h : List.Forall₂ (fun b code => Body.code p L b = .ok code) bodies codes) (hb : b ∈ bodies)
    (hlabel : b.label p = .ok l) : l ∈ Code.labels codes.flatten := by
  obtain ⟨code, hmem, hcode⟩ := exists_of_mem_forall₂ h.flip hb
  obtain ⟨head, inner, hhead, _, hlabels, _⟩ := b.exists_labels hcode
  obtain rfl := Except.ok.inj (hlabel.symm.trans hhead)
  refine Code.labels_subset_flatten hmem ?_
  rw [hlabels]
  exact List.mem_cons_self

/-! ## The whole output -/

namespace Program

/-- A method is provided by the runtime library or defined by the program. -/
theorem isRuntime_or_definesMethod {m : MethodId} (h : p.methodLabel m = .ok l) :
    l.isRuntime ∨ p.DefinesMethod m := by
  obtain ⟨decl, hdecl, h⟩ := bind_eq_ok_iff.1 h
  split at h
  · simp only [bind_eq_ok_iff, pure_eq_ok_iff] at h
    obtain ⟨_, _, rfl⟩ := h
    exact Or.inl rfl
  · rename_i horigin
    exact Or.inr ⟨decl, hdecl, by rw [horigin]; rfl⟩

/-- The lines of the output are the data segment and, where code is asked for, that of all
bodies. -/
theorem exists_bodies_of_output (h : p.output o = .ok (L, code)) : ∃ data bodies codes,
    Layout.compute p = .ok (L, data) ∧ (bodies = [] ∨ p.bodies = .ok bodies) ∧
      List.Forall₂ (fun b code => Body.code p L b = .ok code) bodies codes ∧
      code = data ++ codes.flatten := by
  by_cases hrun : o.runCodegen
  · obtain ⟨data, bodies, codes, hcompute, hbodies, hcodes, rfl⟩ := output_eq_ok hrun h
    exact ⟨data, bodies, codes, hcompute, Or.inr hbodies, hcodes, rfl⟩
  · obtain ⟨⟨_, data⟩, hcompute, h⟩ := bind_eq_ok_iff.1 h
    dsimp only at h
    rw [if_neg hrun] at h
    obtain ⟨rfl, rfl⟩ := Prod.mk.inj (pure_eq_ok_iff.1 h)
    exact ⟨code, [], [], hcompute, Or.inl rfl, .nil, (List.append_nil code).symm⟩

section Output

variable {o : Options} (tree : p.IsClassTree) (names : p.RecordNamesDistinct)
  (once : p.NodesReachedOnce) (called : p.CalleesListed) (fits : p.exprs.size ≤ 2 ^ 32)
  (run : o.runCodegen)

include tree names once fits in
/-- What the output defines: no label twice, none of the runtime library, and those of all
records. -/
theorem labels_of_output (h : p.output o = .ok (L, code)) : code.labels.Nodup ∧
    (∀ l ∈ code.labels, l.isRuntime = false) ∧
    ∀ name, (.classStart name ∈ code.labels ↔ p.IsRecordName name) ∧
      (.classEnd name ∈ code.labels ↔ p.IsRecordName name) := by
  obtain ⟨data, bodies, codes, hcompute, hbodies, hcodes, rfl⟩ := exists_bodies_of_output h
  have complete := Layout.compute_eq_ok hcompute
  obtain ⟨recordNames, hdata, hnames, hrecords⟩ := complete.exists_labelsData tree names
  have hlabels := labelsBodies_flatten hcodes
  have hnodup : bodies.Nodup ∧ (bodies.flatMap (Body.nodes p)).Nodup := by
    rcases hbodies with rfl | hbodies
    · exact ⟨.nil, .nil⟩
    · exact ⟨nodup_bodies tree hbodies complete, once bodies hbodies⟩
  have hcodeNodup : (Code.labels codes.flatten).Nodup := hlabels.nodup hnodup.1 hnodup.2
  have hrecord : ∀ {l name}, l = .classStart name ∨ l = .classEnd name →
      (l ∈ (data ++ codes.flatten).labels ↔ p.IsRecordName name) := by
    intro l name hl
    have hcount : data.labels.count l = recordNames.count name := by
      rw [hdata l]
      rcases hl with rfl | rfl <;> rfl
    have hcode : l ∉ Code.labels codes.flatten := by
      intro hmem
      have hkind := hlabels.not_isData_of_mem hmem
      rcases hl with rfl | rfl <;> cases hkind
    rw [Code.labels_append, List.mem_append, or_iff_left hcode, ← hrecords,
      ← List.count_pos_iff, ← List.count_pos_iff, hcount]
  refine ⟨?_, fun l hl => ?_, fun name => ⟨hrecord (Or.inl rfl), hrecord (Or.inr rfl)⟩⟩
  · rw [Code.labels_append, List.nodup_append]
    refine ⟨hdata.nodup hnames (nodup_stringLiterals fits), hcodeNodup, fun l hl l' hl' heq => ?_⟩
    have hkind := hlabels.not_isData_of_mem hl'
    rw [← heq, hdata.isData_of_mem hl] at hkind
    cases hkind
  · rw [Code.labels_append, List.mem_append] at hl
    rcases hl with hl | hl
    · have hkind := hdata.isData_of_mem hl
      cases l <;> first | rfl | cases hkind
    · have hpos := Nat.lt_of_lt_of_le (List.count_pos_iff.2 hl) (hlabels l)
      cases l with
      | runtimeMethod | runtime => simp [Label.body?, Label.node?] at hpos
      | _ => rfl

include tree names called run in
/-- Whatever is referred to is defined or belongs to the runtime library. -/
theorem refersTo_of_output (h : p.output o = .ok (L, code)) :
    code.RefersTo fun l => l.isRuntime ∨ l ∈ code.labels := by
  obtain ⟨data, bodies, codes, hcompute, hbodies, hcodes, rfl⟩ := output_eq_ok run h
  have complete := Layout.compute_eq_ok hcompute
  obtain ⟨recordNames, hdata, _, hrecords⟩ := complete.exists_labelsData tree names
  let known : Label → Prop := fun l => l.isRuntime ∨ l ∈ (data ++ codes.flatten).labels
  have hdataKnown : ∀ l ∈ data.labels, known l := by
    intro l hl
    refine Or.inr ?_
    rw [Code.labels_append]
    exact List.mem_append_left _ hl
  have hcodeKnown : ∀ l ∈ Code.labels codes.flatten, known l := by
    intro l hl
    refine Or.inr ?_
    rw [Code.labels_append]
    exact List.mem_append_right _ hl
  have hrecord : ∀ {ty name}, p.recordName ty = .ok name →
      known (.classStart name) ∧ known (.classEnd name) := by
    intro ty name hname
    obtain ⟨hstart, hend⟩ := hdata.mem_record (hrecords.2 ⟨_, hname⟩)
    exact ⟨hdataKnown _ hstart, hdataKnown _ hend⟩
  have hmethod : ∀ m, p.ListsMethod m → Layout.MethodKnown p known m := by
    intro m hlisted label hlabel
    rcases isRuntime_or_definesMethod hlabel with hruntime | huser
    · exact Or.inl hruntime
    · have hb := method_mem_bodies tree hbodies hlisted huser
      exact hcodeKnown label (label_mem_flatten hcodes hb hlabel)
  have hclass : ∀ {c decl}, p.classAt c = .ok decl → known (.classStart decl.name) := by
    intro c decl hc
    have hname : p.recordName (.object c) = .ok decl.name := by
      rw [recordName, hc]
      rfl
    exact (hrecord hname).1
  have hscalars : p.recordName (.array .int) = .ok scalarArrayRecord := rfl
  have harray : known (.classStart scalarArrayRecord) := (hrecord hscalars).1
  have hrefersData : data.RefersTo known :=
    complete.refersTo_data hclass harray fun {c decl} hc m hm => hmethod m ⟨c, decl, hc, hm⟩
  refine Code.refersTo_append.2 ⟨hrefersData, Code.refersTo_flatten fun code hcode => ?_⟩
  obtain ⟨b, hb, hbody⟩ := exists_of_mem_forall₂ hcodes hcode
  have links : Links p known (b.literals p) (b.callees p) := by
    refine ⟨fun r => Or.inl rfl, hrecord, fun e he => ?_, fun m hm => ?_⟩
    · obtain ⟨expr, text, hexpr, hkind⟩ := Body.isLiteral_of_mem he
      exact hdataKnown _
        (hdata.mem_literal (List.mem_map_of_mem (mem_stringLiterals hexpr hkind)))
    · exact hmethod m (called bodies hbodies b hb m hm)
  exact Body.refersTo_code hbody links fun label hlabel =>
    hcodeKnown label (Code.labels_subset_flatten hcode hlabel)

include tree names once called fits run

/-- What is handed to the sink is closed under its labels. -/
theorem isClosed_of_compile {σ : Type} [Sink σ] {sink out : σ} {pool : ThreadPool}
    {result : Except CompileError Layout} (serves : pool.Serves o)
    (h : p.compile o sink pool = .ok (out, result)) : ∃ L code, p.output o = .ok (L, code) ∧
      out = (Sink.flush (Sink.emitAll sink code)).1 ∧ code.IsClosed := by
  rw [compile_eq serves, bind_eq_ok_iff] at h
  obtain ⟨⟨L, code⟩, houtput, h⟩ := h
  obtain ⟨rfl, _⟩ := Prod.mk.inj (pure_eq_ok_iff.1 h)
  have hnodup := (labels_of_output tree names once fits houtput).1
  have hrefers := refersTo_of_output tree names called run houtput
  exact ⟨L, code, houtput, rfl, Code.isClosed_of_refersTo hnodup hrefers⟩

end Output

theorem bodies_shapes : shapes.bodies =
    .ok [.entry, .method ⟨1⟩, .method ⟨2⟩, .method ⟨3⟩, .method ⟨4⟩, .method ⟨5⟩] :=
  rfl

theorem nodesReachedOnce_shapes : shapes.NodesReachedOnce := by
  intro bodies h
  obtain rfl := Except.ok.inj (bodies_shapes.symm.trans h)
  decide +kernel

theorem exists_compile_shapes :
    ∃ out result, shapes.compile {} Buffer.empty = .ok (out, result) := by
  obtain ⟨⟨out, result⟩, h⟩ := exists_eq_ok_of_isSome
    (show (shapes.compile {} Buffer.empty).toOption.isSome by decide +kernel)
  exact ⟨out, result, h⟩

/-- In `shapes` methods call each other through tables and directly, and a loop has a way out. -/
theorem isClosed_shapes : ∃ out result, shapes.compile {} Buffer.empty = .ok (out, result) ∧
    ∃ L code, shapes.output {} = .ok (L, code) ∧
      out = (Sink.flush (Sink.emitAll Buffer.empty code)).1 ∧ code.IsClosed := by
  have methods : shapes.MethodsLinked := methodsLinked_of_listsMethods (by decide)
  have called : shapes.CalleesListed := by
    intro bodies h
    obtain rfl := Except.ok.inj (bodies_shapes.symm.trans h)
    have hfound : ∀ b ∈ [Body.entry, .method ⟨1⟩, .method ⟨2⟩, .method ⟨3⟩, .method ⟨4⟩,
        .method ⟨5⟩], ∀ m ∈ b.callees shapes, (shapes.methodAt m).toOption.isSome := by
      decide +kernel
    intro b hb m hm
    obtain ⟨decl, hdecl⟩ := exists_eq_ok_of_isSome (hfound b hb m hm)
    obtain ⟨cdecl, hc, hentry⟩ := methods.listed hdecl
    exact ⟨decl.owner, cdecl, hc, List.mem_map_of_mem hentry⟩
  obtain ⟨out, result, h⟩ := exists_compile_shapes
  exact ⟨out, result, h, isClosed_of_compile isClassTree_shapes recordNamesDistinct_shapes
    nodesReachedOnce_shapes called (by decide) rfl (ThreadPool.serves_ready _) h⟩

end Program

end MipsBackend
