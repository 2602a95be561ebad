import MipsBackend.Program.Compile
import MipsBackend.Proofs.Code.Bodies
import MipsBackend.Proofs.Layout.Pass

/-!
# What compilation writes

The lines that reach the sink do not depend on the sink or on whether methods are generated one
after the other or each into a buffer of its own (`Program.compile_eq`): they are the data segment,
the code of the entry point and the code of the program's own methods (`Program.output`), as long as
the threads that the options ask for start.  Where they do not, no method is generated
(`Program.emitCode_of_refused`).  The bodies to generate are `Program.bodies`; their methods are
those that some class lists and that the runtime library does not provide
(`mem_userMethods_iff`).
-/

namespace MipsBackend

namespace Program

variable {p : Program} {L : Layout} {σ : Type} [Sink σ]

/-- The layout of a program and all lines that are generated for it. -/
def output (p : Program) (o : Options) : Except Fault (Layout × Code) := do
  let (layout, data) ← Layout.compute p
  if o.runCodegen then
    let entry ← p.entryCode layout
    let methods ← p.userMethods
    let codes ← methods.mapM (p.methodCode layout)
    return (layout, data ++ entry ++ codes.flatten)
  else
    return (layout, data)

/-- The bodies that code is generated for, in order. -/
def bodies (p : Program) : Except Fault (List Body) := do
  return .entry :: (← p.userMethods).map .method

/-! ## Both ways to generate methods -/

theorem emitInTurn_eq (methods : List MethodId) (sink : σ) :
    p.emitInTurn L methods sink =
      (do return Sink.emitAll sink (← methods.mapM (p.methodCode L)).flatten) := by
  unfold emitInTurn
  induction methods generalizing sink with
  | nil => rfl
  | cons m methods ih =>
    simp only [List.foldlM_cons, List.mapM_cons, ih, bind_assoc, pure_bind, List.flatten_cons,
      Sink.emitAll_append]

theorem foldl_drainInto (codes : List Code) (sink : σ) :
    (codes.map (Sink.emitAll Buffer.empty)).foldl
      (fun sink buffer => (buffer.drainInto sink).2) sink = Sink.emitAll sink codes.flatten := by
  induction codes generalizing sink with
  | nil => rfl
  | cons code codes ih =>
    rw [List.map_cons, List.foldl_cons, ih, List.flatten_cons, Sink.emitAll_append,
      Buffer.drainInto, Buffer.toList_lines_emitAll]
    rfl

/-- Generating into buffers comes to the same. -/
theorem emitBuffered_eq (methods : List MethodId) (sink : σ) :
    p.emitBuffered L methods sink =
      (do return Sink.emitAll sink (← methods.mapM (p.methodCode L)).flatten) := by
  have hbuffers : methods.mapM (fun m => do
      return Sink.emitAll Buffer.empty (← p.methodCode L m) : MethodId → Except Fault Buffer) =
      (do return (← methods.mapM (p.methodCode L)).map (Sink.emitAll Buffer.empty)) := by
    induction methods with
    | nil => rfl
    | cons m methods ih =>
      simp only [List.mapM_cons, ih, bind_assoc, pure_bind, List.map_cons]
  unfold emitBuffered
  simp only [hbuffers, bind_assoc, pure_bind, foldl_drainInto]

section Pools

variable {pool : ThreadPool} {o : Options}

/-- Either way the sink receives the entry point and then the methods. -/
theorem emitCode_eq (serves : pool.Serves o) (sink : σ) :
    p.emitCode o pool L sink = (do
      let entry ← p.entryCode L
      let methods ← p.userMethods
      let codes ← methods.mapM (p.methodCode L)
      return (Sink.emitAll sink (entry ++ codes.flatten), .ok ())) := by
  unfold emitCode
  by_cases hturn : o.threads.count = 1 ∨ o.sequential
  · simp only [hturn, if_true, emitInTurn_eq, bind_assoc, pure_bind, Sink.emitAll_append]
  · simp only [hturn, if_false, serves.resolve_left hturn, emitBuffered_eq, bind_assoc, pure_bind,
      Sink.emitAll_append]

/-- Without threads the sink receives the entry point and nothing else, and the system's reason is
the result. -/
theorem emitCode_of_refused {reason : String} {entry : Code} {methods : List MethodId}
    (hthreads : ¬ (o.threads.count = 1 ∨ o.sequential))
    (hrefused : pool o.threads.count = .error reason) (hentry : p.entryCode L = .ok entry)
    (hmethods : p.userMethods = .ok methods) (sink : σ) :
    p.emitCode o pool L sink = .ok (Sink.emitAll sink entry, .error (.threadPool reason)) := by
  unfold emitCode
  rw [hentry, hmethods, hrefused]
  exact if_neg hthreads

/-- Compilation hands the sink all lines and flushes it. -/
theorem compile_eq (serves : pool.Serves o) (sink : σ) :
    p.compile o sink pool = (do
      let (layout, code) ← p.output o
      let (sink, written) := Sink.flush (Sink.emitAll sink code)
      return (sink, (written.mapError .emit).map fun _ => layout)) := by
  unfold compile output
  simp only [bind_assoc]
  congr 1
  funext result
  by_cases hrun : o.runCodegen
  · simp only [hrun, if_true, emitCode_eq serves, bind_assoc, pure_bind, List.append_assoc,
      Sink.emitAll_append]
  · simp only [hrun, pure_bind]
    rfl

end Pools

/-- What there is to generate was generated, body by body. -/
theorem output_eq_ok {o : Options} {code : Code} (run : o.runCodegen)
    (h : p.output o = .ok (L, code)) : ∃ data bodies codes, Layout.compute p = .ok (L, data) ∧
      p.bodies = .ok bodies ∧ List.Forall₂ (fun b code => Body.code p L b = .ok code) bodies codes ∧
      code = data ++ codes.flatten := by
  unfold output at h
  rw [bind_eq_ok_iff] at h
  obtain ⟨⟨layout, data⟩, hcompute, h⟩ := h
  simp only [run, if_true, bind_eq_ok_iff, pure_eq_ok_iff, Prod.mk.injEq] at h
  obtain ⟨entry, hentry, methods, hmethods, codes, hcodes, rfl, rfl⟩ := h
  refine ⟨data, _, entry :: codes, hcompute, bind_eq_ok_iff.2 ⟨methods, hmethods, rfl⟩, ?_, ?_⟩
  · exact .cons hentry (List.forall₂_map_left_iff.2 (mapM_eq_ok_iff.1 hcodes))
  · rw [List.flatten_cons, List.append_assoc]

/-! ## The bodies of a program -/

/-- A class of the program lists the method. -/
def ListsMethod (p : Program) (m : MethodId) : Prop :=
  ∃ c decl, p.classAt c = .ok decl ∧ m ∈ decl.methods.methods

/-- The program defines the method itself. -/
def DefinesMethod (p : Program) (m : MethodId) : Prop :=
  ∃ decl, p.methodAt m = .ok decl ∧ decl.origin.isUser

/-- The methods that the program defines are picked from those of all classes, in order. -/
theorem userMethods_eq_ok {methods : List MethodId} (tree : p.IsClassTree)
    (h : p.userMethods = .ok methods) : p.rootClass = .ok none ∧ methods = [] ∨
      ∃ root, p.rootClass = .ok (some root) ∧ (p.classTree root).Reflects p ∧ p.IsRoot root ∧
        methods = (Layout.methodsOf (p.classTree root).nodes).filter fun m =>
          (do return (← p.methodAt m).origin.isUser : Except Fault Bool).toOption == some true := by
  rcases tree.exists_rootClass with ⟨hnone, _⟩ | ⟨root, hroot, hisRoot⟩
  · unfold userMethods at h
    rw [hnone] at h
    exact Or.inl ⟨hnone, pure_eq_ok_iff.1 h⟩
  · have hreflects := tree.reflects_classTree hisRoot
    refine Or.inr ⟨root, hroot, hreflects, hisRoot, ?_⟩
    have hlists : ((p.classTree root).classes.mapM fun c => do
        return (← p.classAt c).methods.methods : Except Fault (List (List MethodId))) =
        .ok ((p.classTree root).nodes.map fun node => node.2.methods.methods) := by
      rw [mapM_eq_ok_iff, ClassTree.classes, List.forall₂_map_left_iff, List.forall₂_map_right_iff,
        List.forall₂_same]
      rintro ⟨c, decl⟩ hnode
      exact bind_eq_ok_iff.2 ⟨decl, hreflects.classAt_of_mem hnode, rfl⟩
    unfold userMethods at h
    obtain ⟨_, hroot', h⟩ := bind_eq_ok_iff.1 h
    obtain rfl := Except.ok.inj (hroot.symm.trans hroot')
    obtain ⟨order, horder, h⟩ := bind_eq_ok_iff.1 h
    obtain rfl := Except.ok.inj (hreflects.preorder_eq.symm.trans horder)
    obtain ⟨lists, hlists', h⟩ := bind_eq_ok_iff.1 h
    obtain rfl := Except.ok.inj (hlists.symm.trans hlists')
    exact filterM_eq_ok h

theorem isUser_eq_true_iff {m : MethodId} :
    ((do return (← p.methodAt m).origin.isUser : Except Fault Bool).toOption == some true) = true ↔
      p.DefinesMethod m := by
  unfold DefinesMethod
  cases p.methodAt m with
  | error fault => simp [bind, Except.bind, Except.toOption]
  | ok decl => simp [bind, Except.bind, pure, Except.pure, Except.toOption]

section UserMethods

variable {methods : List MethodId} {m : MethodId} (tree : p.IsClassTree)
  (h : p.userMethods = .ok methods)
include tree h

/-- The methods to generate are those that a class lists and the program defines. -/
theorem mem_userMethods_iff : m ∈ methods ↔ p.ListsMethod m ∧ p.DefinesMethod m := by
  rcases userMethods_eq_ok tree h with ⟨hnone, rfl⟩ | ⟨root, hroot, hreflects, hisRoot, rfl⟩
  · constructor
    · exact fun hm => absurd hm List.not_mem_nil
    · rintro ⟨⟨c, decl, hc, _⟩, _⟩
      rcases tree.exists_rootClass with ⟨_, hempty⟩ | ⟨root, hroot, _⟩
      · have hlt := (Array.getElem?_eq_some_iff.1 (lookup_eq_ok_iff.1 hc)).1
        omega
      · rw [hnone] at hroot
        cases hroot
  · rw [List.mem_filter, isUser_eq_true_iff]
    refine and_congr_left fun _ => ?_
    rw [Layout.methodsOf, List.mem_flatMap]
    constructor
    · rintro ⟨⟨c, decl⟩, hnode, hm⟩
      exact ⟨c, decl, hreflects.classAt_of_mem hnode, hm⟩
    · rintro ⟨c, decl, hc, hm⟩
      have hdesc := tree.descends_root hisRoot hc
      rw [← id_classTree p root] at hdesc
      obtain ⟨decl', hnode, hc'⟩ :=
        hreflects.exists_of_mem ((hreflects.mem_classes_iff tree.isForest).2 hdesc)
      obtain rfl := Except.ok.inj (hc.symm.trans hc')
      exact ⟨(c, decl), hnode, hm⟩

/-- In a program that could be laid out none of them is generated twice. -/
theorem nodup_userMethods {data : Code} (complete : Layout.Complete p L data) : methods.Nodup := by
  rcases userMethods_eq_ok tree h with ⟨_, rfl⟩ | ⟨root, hroot, _, _, rfl⟩
  · exact List.nodup_nil
  · obtain ⟨_, _, _, _, hrooted | ⟨_, hnone, _⟩⟩ := complete.exists_code
    · obtain ⟨root', hroot', hlays, _⟩ := hrooted
      obtain rfl := Option.some.inj (Except.ok.inj (hroot.symm.trans hroot'))
      exact hlays.methods.nodup.filter _
    · rw [hroot] at hnone
      cases hnone

end UserMethods

section Bodies

variable {bodies : List Body} (tree : p.IsClassTree) (h : p.bodies = .ok bodies)
include tree h

theorem method_mem_bodies {m : MethodId} (hlisted : p.ListsMethod m)
    (hdefined : p.DefinesMethod m) : Body.method m ∈ bodies := by
  obtain ⟨methods, hmethods, hlist⟩ := bind_eq_ok_iff.1 h
  rw [pure_eq_ok_iff.1 hlist]
  have hm : m ∈ methods := (mem_userMethods_iff tree hmethods).2 ⟨hlisted, hdefined⟩
  exact List.mem_cons_of_mem _ (List.mem_map_of_mem hm)

theorem nodup_bodies {data : Code} (complete : Layout.Complete p L data) : bodies.Nodup := by
  obtain ⟨methods, hmethods, hlist⟩ := bind_eq_ok_iff.1 h
  rw [pure_eq_ok_iff.1 hlist, List.nodup_cons]
  have hnodup := nodup_userMethods tree hmethods complete
  exact ⟨by simp, hnodup.map fun _ _ => Body.method.inj⟩

end Bodies

/-- No statement or expression is reached twice from the bodies of the program. -/
def NodesReachedOnce (p : Program) : Prop :=
  ∀ bodies, p.bodies = .ok bodies → (bodies.flatMap (Body.nodes p)).Nodup

/-- Every method that is called is listed by some class. -/
def CalleesListed (p : Program) : Prop :=
  ∀ bodies, p.bodies = .ok bodies → ∀ b ∈ bodies, ∀ m ∈ b.callees p, p.ListsMethod m

end Program

end MipsBackend
