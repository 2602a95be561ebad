import MipsBackend.Proofs.Code.BodyGeneration
import MipsBackend.Proofs.Layout.Coverage
import MipsBackend.Proofs.Layout.Progress
import MipsBackend.Proofs.Output

/-!
# Compilation does not fail

A well-formed program is compiled without a fault, whatever the options and the sink.  The layout
pass succeeds and its layout covers the program, so that the entry point and every method that the
program defines can be generated.  No defect is reported, no identifier is out of range and no
offset overflows.
-/

namespace MipsBackend

namespace Program

variable {p : Program} {l : Layout} {σ : Type} [Sink σ]

/-- The methods that the program defines itself can be picked from others. -/
theorem exists_filter_isUser {ms : List MethodId} (h : ∀ m ∈ ms, ∃ decl, p.methodAt m = .ok decl) :
    ∃ kept, (ms.filterM fun m => do
        return (← p.methodAt m).origin.isUser : Except Fault (List MethodId)) = .ok kept ∧
      ∀ m ∈ kept, ∃ decl, p.methodAt m = .ok decl ∧ decl.origin.isUser := by
  obtain ⟨kept, hkept, hmem⟩ := exists_filterM_eq_ok fun m hm => by
    obtain ⟨decl, hdecl⟩ := h m hm
    exact exists_bind_eq_ok_iff.2 ⟨decl, hdecl, exists_pure_eq_ok decl.origin.isUser⟩
  refine ⟨kept, hkept, fun m hm => ?_⟩
  obtain ⟨decl, hdecl, huser⟩ := bind_eq_ok_iff.1 (hmem m hm).2
  exact ⟨decl, hdecl, (pure_eq_ok_iff.1 huser).symm⟩

section WellFormed

variable (wf : p.WellFormed)
include wf

/-- Classes of a program list methods of the program. -/
theorem WellFormed.exists_methodLists {cs : List ClassId}
    (h : ∀ c ∈ cs, ∃ decl, p.classAt c = .ok decl) :
    ∃ lists, (cs.mapM fun c => do
        return (← p.classAt c).methods.methods : Except Fault (List (List MethodId))) = .ok lists ∧
      ∀ m ∈ lists.flatten, ∃ decl, p.methodAt m = .ok decl := by
  obtain ⟨lists, hlists⟩ := exists_mapM_eq_ok fun c hc => by
    obtain ⟨decl, hdecl⟩ := h c hc
    exact exists_bind_eq_ok_iff.2 ⟨decl, hdecl, exists_pure_eq_ok decl.methods.methods⟩
  refine ⟨lists, hlists, fun m hm => ?_⟩
  obtain ⟨methods, hmethods, hm⟩ := List.mem_flatten.1 hm
  obtain ⟨c, _, hlist⟩ := exists_of_mem_mapM hlists hmethods
  obtain ⟨cdecl, hc, hlist⟩ := bind_eq_ok_iff.1 hlist
  rw [pure_eq_ok_iff] at hlist
  obtain ⟨decl, hdecl, _⟩ := wf.methods.exists_owned hc (hlist ▸ hm)
  exact ⟨decl, hdecl⟩

/-- The methods to generate can be listed, and all of them are methods of the program. -/
theorem WellFormed.exists_userMethods : ∃ methods, p.userMethods = .ok methods ∧
    ∀ m ∈ methods, ∃ decl, p.methodAt m = .ok decl ∧ decl.origin.isUser := by
  unfold userMethods
  rcases wf.tree.exists_rootClass with ⟨hnone, _⟩ | ⟨root, hroot, hisRoot⟩
  · exact ⟨[], bind_eq_ok_iff.2 ⟨none, hnone, rfl⟩, by simp⟩
  · have hreflects := wf.tree.reflects_classTree hisRoot
    have hdecls : ∀ c ∈ (p.classTree root).classes, ∃ decl, p.classAt c = .ok decl := by
      intro c hc
      obtain ⟨decl, _, hdecl⟩ := hreflects.exists_of_mem hc
      exact ⟨decl, hdecl⟩
    obtain ⟨lists, hlists, hmethods⟩ := wf.exists_methodLists hdecls
    obtain ⟨kept, hkept, huser⟩ := exists_filter_isUser hmethods
    refine ⟨kept, ?_, huser⟩
    refine bind_eq_ok_iff.2 ⟨some root, hroot, ?_⟩
    refine bind_eq_ok_iff.2 ⟨_, hreflects.preorder_eq, ?_⟩
    exact bind_eq_ok_iff.2 ⟨lists, hlists, hkept⟩

/-- The code of a program can be generated, one method after the other or each into a buffer, unless
threads are refused. -/
theorem WellFormed.exists_emitCode (covers : l.Covers p) (o : Options) (pool : ThreadPool)
    (sink : σ) : ∃ result, p.emitCode o pool l sink = .ok result := by
  obtain ⟨entry, hentry⟩ := wf.exists_entryCode covers
  obtain ⟨methods, hmethods, huser⟩ := wf.exists_userMethods
  have hcode : ∀ m ∈ methods, ∃ code, p.methodCode l m = .ok code := by
    intro m hm
    obtain ⟨decl, hdecl, hisUser⟩ := huser m hm
    exact wf.exists_methodCode covers hdecl hisUser
  refine exists_bind_eq_ok_iff.2 ⟨entry, hentry, exists_bind_eq_ok_iff.2 ⟨methods, hmethods, ?_⟩⟩
  obtain ⟨codes, hcodes⟩ := exists_mapM_eq_ok hcode
  split
  · rw [emitInTurn_eq, hcodes]
    exact exists_pure_eq_ok _
  · split
    · rw [emitBuffered_eq, hcodes]
      exact exists_pure_eq_ok _
    · exact exists_pure_eq_ok _

/-- A well-formed program is compiled without a fault, whatever becomes of the threads. -/
theorem WellFormed.compiles (o : Options) (sink : σ) (pool : ThreadPool) :
    ∃ result, p.compile o sink pool = .ok result := by
  obtain ⟨L, data, hlayout⟩ := Layout.exists_compute wf
  have covers : L.Covers p := (Layout.compute_eq_ok hlayout).covers wf
  refine exists_bind_eq_ok_iff.2 ⟨(L, data), hlayout, ?_⟩
  dsimp only
  split
  · obtain ⟨⟨sink', generated⟩, hgenerated⟩ :=
      wf.exists_emitCode covers o pool (Sink.emitAll sink data)
    refine exists_bind_eq_ok_iff.2 ⟨_, hgenerated, ?_⟩
    cases generated with
    | ok => exact exists_pure_eq_ok _
    | error e => exact exists_pure_eq_ok _
  · exact exists_bind_eq_ok_iff.2 ⟨_, rfl, exists_pure_eq_ok _⟩

end WellFormed

theorem compiles_shapes : shapes.WellFormed ∧
    ∃ result, shapes.compile {} Buffer.empty = .ok result :=
  ⟨wellFormed_shapes, wellFormed_shapes.compiles {} Buffer.empty .ready⟩

end Program

end MipsBackend
