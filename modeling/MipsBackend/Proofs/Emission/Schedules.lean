import MipsBackend.Proofs.Emission.Emitter
import MipsBackend.Proofs.Output

/-!
# Generating methods on a schedule

The methods of a program can be generated straight into the sink, or each into a buffer of its own,
in any order, with the buffers moved to the sink in the order of the list.  `Program.emitMethod` is
one method with its lines handed over as they are found, and `emitMethod_eq` says that the sink
receives `Program.methodCode` behind what it holds.

A schedule is a list of places.  `fillBuffer_filled` is one step of it: one buffer more is filled,
the others stay.  `foldlM_fillBuffer` is the run, and once all places have had their turn the
buffers are those of the list (`emitScheduled_eq`).  `schedulesAgree_of_compile` says so of whole
programs.
-/

namespace MipsBackend

open Gen Emitter

variable {σ : Type} [Sink σ] {p : Program} {L : Layout}

/-! ## Methods and the entry point -/

/-- Emits the result of a method and tells the source of the epilogue. -/
def MethodDecl.emitResult (p : Program) (l : Layout) (decl : MethodDecl) : Emitter σ Span := do
  match decl.result, decl.isVoid with
  | some result, false =>
    let tree := p.exprTree result
    tree.emitTo p l
    return tree.span
  | none, true => return decl.span
  | _, _ => defect (.resultMismatch decl.name decl.returnType)

/-- Emits a method from its label to its return. -/
def MethodDecl.emitBody (p : Program) (l : Layout) (decl : MethodDecl) (label : Label)
    (receiverOffset : Int) : Emitter σ Unit := do
  emit decl.span [.globl label, .label label]
  emit decl.span (prologue receiverOffset)
  StmtTree.emitAllTo p l (decl.body.map fun s _ => p.stmtTree s)
  let span ← decl.emitResult p l
  let h ← height
  emit span (← epilogue receiverOffset h decl.returnType)

/-- The code of a method from its label to its return. -/
def MethodDecl.bodyCode (p : Program) (l : Layout) (decl : MethodDecl) (label : Label)
    (receiverOffset : Int) : Gen Code := do
  let body ← StmtTree.codeAll p l (decl.body.map fun s _ => p.stmtTree s)
  let (result, span) ← decl.resultCode p l
  let h ← height
  let leave ← epilogue receiverOffset h decl.returnType
  return Code.of decl.span ([.globl label, .label label] ++ prologue receiverOffset)
    ++ body ++ result ++ Code.of span leave

namespace Program

/-- Emits a method of the program. -/
def emitMethod (p : Program) (l : Layout) (id : MethodId) (sink : σ) : Except Fault σ := do
  let decl ← p.methodAt id
  if decl.origin.isRuntime then
    defect (.runtimeMethodBody decl.name)
  let label ← p.methodLabel id
  let receiverOffset := (← l.methodAt id).receiverOffset
  let (((), sink), _) ← ((decl.emitBody p l label receiverOffset).run sink).run .empty
  return sink

/-- Emits the entry point. -/
def emitEntry (p : Program) (l : Layout) (sink : σ) : Except Fault σ := do
  let span ←
    match p.main with
    | some main => do pure (← p.stmtAt main).span
    | none => pure .dummy
  let body : Emitter σ Unit := do
    emit .dummy [.segment .code]
    emit span [.globl .main, .label .main, .callRoutine .vmInit]
    match p.main with
    | some main =>
      let tree := p.stmtTree main
      Emitter.inScope tree.span (tree.emitTo p l)
    | none => pure ()
    emit span [.li .v0 10, .syscall]
  let (((), sink), _) ← (body.run sink).run .empty
  return sink

end Program

/-! ## What the sink receives -/

theorem MethodDecl.run_emitResult (decl : MethodDecl) (sink : σ) :
    (decl.emitResult p L).run sink =
      (fun out => (out.2, Sink.emitAll sink out.1)) <$> decl.resultCode p L := by
  cases hresult : decl.result <;> cases hvoid : decl.isVoid <;>
    simp [emitResult, resultCode, hresult, hvoid, ExprTree.run_emitTo, map_liftDefect]

theorem MethodDecl.run_emitBody (decl : MethodDecl) (label : Label) (receiverOffset : Int)
    (sink : σ) : (decl.emitBody p L label receiverOffset).run sink =
      (fun code => ((), Sink.emitAll sink code)) <$> decl.bodyCode p L label receiverOffset := by
  simp [emitBody, bodyCode, StmtTree.run_emitAllTo, MethodDecl.run_emitResult, Sink.emitAll_append]

namespace Program

theorem methodCode_eq_bodyCode (id : MethodId) :
    p.methodCode L id = do
      let decl ← p.methodAt id
      if decl.origin.isRuntime then
        defect (.runtimeMethodBody decl.name)
      let label ← p.methodLabel id
      let receiverOffset := (← L.methodAt id).receiverOffset
      let (code, _) ← (decl.bodyCode p L label receiverOffset).run .empty
      return code := by
  simp [methodCode, MethodDecl.bodyCode, Gen.height]

/-- The sink receives the code of the method, whatever it holds already. -/
theorem emitMethod_eq (id : MethodId) (sink : σ) :
    p.emitMethod L id sink = Sink.emitAll sink <$> p.methodCode L id := by
  simp only [methodCode_eq_bodyCode, emitMethod, MethodDecl.run_emitBody, map_bind]
  refine bind_congr fun decl => ?_
  by_cases hruntime : decl.origin.isRuntime <;> simp [hruntime]

theorem emitEntry_eq (sink : σ) :
    p.emitEntry L sink = Sink.emitAll sink <$> p.entryCode L := by
  cases hmain : p.main with
  | none => simp [emitEntry, entryCode, hmain, Sink.emitAll_append]
  | some main =>
    have hbody := run_inScope (fun sink : σ => (p.stmtTree main).run_emitTo p L sink)
      (p.stmtTree main).span
    simp [emitEntry, entryCode, hmain, hbody, StmtTree.scopedCode, Sink.emitAll_append]

/-- A method adds to a sink what it leaves in an empty buffer. -/
theorem emitMethod_eq_drain (id : MethodId) (sink : σ) :
    p.emitMethod L id sink =
      (fun buffer : Buffer => (buffer.drainInto sink).2) <$> p.emitMethod L id Buffer.empty := by
  rw [emitMethod_eq, emitMethod_eq, Functor.map_map]
  refine congrArg (· <$> p.methodCode L id) (funext fun code => ?_)
  rw [Buffer.drainInto, Buffer.toList_lines_emitAll]
  rfl

/-! ## Schedules -/

/-- Generates the method at a place of the list into the buffer at that place. -/
def fillBuffer (p : Program) (l : Layout) (methods : List MethodId) (buffers : List Buffer)
    (i : Nat) : Except Fault (List Buffer) :=
  match methods[i]? with
  | some m => do return buffers.set i (← p.emitMethod l m Buffer.empty)
  | none => .ok buffers

/-- Generates methods in the order of a schedule, each into a buffer of its own, and then moves the
buffers to a sink in the order of the list. -/
def emitScheduled (p : Program) (l : Layout) (methods : List MethodId) (schedule : List Nat)
    (sink : σ) : Except Fault σ := do
  let buffers ← schedule.foldlM (p.fillBuffer l methods) (methods.map fun _ => Buffer.empty)
  return buffers.foldl (fun sink buffer => (buffer.drainInto sink).2) sink

/-- The buffers when the methods at some places have been generated. -/
def filled (codes : List Code) (done : List Nat) : List Buffer :=
  codes.mapIdx fun i code => if i ∈ done then Sink.emitAll Buffer.empty code else Buffer.empty

variable {methods : List MethodId} {codes : List Code} {schedule done : List Nat}

/-- One more buffer is filled, and the others are left alone. -/
theorem fillBuffer_filled
    (h : List.Forall₂ (fun m code => p.methodCode L m = .ok code) methods codes) {i : Nat}
    (hi : i < methods.length) :
    p.fillBuffer L methods (filled codes done) i = .ok (filled codes (i :: done)) := by
  have hcode : i < codes.length := h.length_eq ▸ hi
  have hmethod : p.methodCode L methods[i] = .ok codes[i] :=
    (List.forall₂_iff_get.1 h).2 i hi hcode
  rw [fillBuffer, List.getElem?_eq_getElem hi]
  simp only [emitMethod_eq, hmethod]
  refine congrArg Except.ok (List.ext_getElem (by simp [filled]) fun j hj hj' => ?_)
  by_cases hij : i = j
  · subst hij
    simp [filled]
  · simp [filled, List.getElem_set_ne hij, Ne.symm hij]

/-- A schedule fills the buffers at its places. -/
theorem foldlM_fillBuffer
    (h : List.Forall₂ (fun m code => p.methodCode L m = .ok code) methods codes)
    (hschedule : ∀ i ∈ schedule, i < methods.length) :
    schedule.foldlM (p.fillBuffer L methods) (filled codes done) =
      .ok (filled codes (schedule.reverse ++ done)) := by
  induction schedule generalizing done with
  | nil => rfl
  | cons i schedule ih =>
    rw [List.forall_mem_cons] at hschedule
    rw [List.foldlM_cons, fillBuffer_filled h hschedule.1, List.reverse_cons, List.append_assoc,
      List.singleton_append]
    exact ih hschedule.2

/-- A schedule that has every place fills all buffers. -/
theorem filled_eq_map (h : ∀ i < codes.length, i ∈ done) :
    filled codes done = codes.map (Sink.emitAll Buffer.empty) := by
  refine List.ext_getElem (by simp [filled]) fun i hi hi' => ?_
  simp [filled, h i (by simpa using hi')]

/-- Whatever the schedule, the sink receives the methods in the order of the list. -/
theorem emitScheduled_eq
    (h : List.Forall₂ (fun m code => p.methodCode L m = .ok code) methods codes)
    (hschedule : schedule.Perm (List.range methods.length)) (sink : σ) :
    p.emitScheduled L methods schedule sink = .ok (Sink.emitAll sink codes.flatten) := by
  have hmem : ∀ i, i ∈ schedule ↔ i < methods.length := fun i => by
    rw [hschedule.mem_iff, List.mem_range]
  have hempty : (methods.map fun _ => Buffer.empty) = filled codes [] := by
    refine List.ext_getElem (by simp [filled, h.length_eq]) fun i hi hi' => ?_
    simp [filled]
  have hall : filled codes (schedule.reverse ++ []) = codes.map (Sink.emitAll Buffer.empty) := by
    refine filled_eq_map fun i hi => ?_
    simpa [hmem] using h.length_eq ▸ hi
  rw [emitScheduled, hempty, foldlM_fillBuffer h fun i hi => (hmem i).1 hi, hall]
  exact congrArg Except.ok (foldl_drainInto codes sink)

/-! ## Whole programs -/

/-- Compiles a program into a sink with a way to generate its methods.  Every line of the text goes
to a sink as soon as it is known. -/
def compileWith (p : Program) (o : Options)
    (emitMethods : Layout → List MethodId → σ → Except Fault σ) (sink : σ) :
    Except Fault (σ × Except CompileError Layout) := do
  let (layout, data) ← Layout.compute p
  let sink := Sink.emitAll sink data
  let sink ←
    if o.runCodegen then do
      let sink ← p.emitEntry layout sink
      emitMethods layout (← p.userMethods) sink
    else pure sink
  let (sink, written) := Sink.flush sink
  return (sink, (written.mapError .emit).map fun _ => layout)

/-- Generates methods one after the other into a sink. -/
def emitEach (p : Program) (l : Layout) (methods : List MethodId) (sink : σ) : Except Fault σ :=
  methods.foldlM (fun sink m => p.emitMethod l m sink) sink

theorem emitEach_eq
    (h : List.Forall₂ (fun m code => p.methodCode L m = .ok code) methods codes) (sink : σ) :
    p.emitEach L methods sink = .ok (Sink.emitAll sink codes.flatten) := by
  unfold emitEach
  induction h generalizing sink with
  | nil => rfl
  | cons hfirst _ ih =>
    rw [List.foldlM_cons, emitMethod_eq, hfirst, List.flatten_cons, Sink.emitAll_append]
    exact ih _

variable {o : Options} {sink : σ} {pool : ThreadPool} {result : σ × Except CompileError Layout}

/-- What a compilation that succeeds has done to the sink. -/
theorem compile_eq_ok (serves : pool.Serves o) (h : p.compile o sink pool = .ok result) :
    ∃ L code, p.output o = .ok (L, code) ∧
      result = ((Sink.flush (Sink.emitAll sink code)).1,
        ((Sink.flush (Sink.emitAll sink code)).2.mapError .emit).map fun _ => L) := by
  rw [compile_eq serves] at h
  obtain ⟨⟨L, code⟩, houtput, hflush⟩ := bind_eq_ok_iff.1 h
  exact ⟨L, code, houtput, pure_eq_ok_iff.1 hflush⟩

/-- Ways to generate methods that hand the sink the same lines make no difference. -/
theorem compileWith_eq_ok (serves : pool.Serves o)
    {emitMethods : Layout → List MethodId → σ → Except Fault σ}
    (hmethods : ∀ {L methods codes},
      List.Forall₂ (fun m code => p.methodCode L m = .ok code) methods codes →
      ∀ sink, emitMethods L methods sink = .ok (Sink.emitAll sink codes.flatten))
    (h : p.compile o sink pool = .ok result) : p.compileWith o emitMethods sink = .ok result := by
  obtain ⟨L, code, houtput, rfl⟩ := compile_eq_ok serves h
  obtain ⟨⟨_, data⟩, hcompute, houtput⟩ := bind_eq_ok_iff.1 houtput
  refine bind_eq_ok_iff.2 ⟨_, hcompute, ?_⟩
  by_cases hrun : o.runCodegen
  · simp only [hrun, if_true, bind_eq_ok_iff, pure_eq_ok_iff, Prod.mk.injEq] at houtput ⊢
    obtain ⟨entry, hentry, methods, hlist, codes, hcodes, rfl, rfl⟩ := houtput
    refine ⟨Sink.emitAll (Sink.emitAll sink data) entry, ?_, methods, hlist, _,
      hmethods (mapM_eq_ok_iff.1 hcodes) _, ?_⟩
    · rw [emitEntry_eq, hentry]
      rfl
    · rw [Sink.emitAll_append, Sink.emitAll_append]
      exact ⟨rfl, rfl⟩
  · simp only [hrun, Bool.false_eq_true, if_false, pure_eq_ok_iff, Prod.mk.injEq] at houtput ⊢
    obtain ⟨rfl, rfl⟩ := houtput
    rfl

/-- All ways to generate the methods of a program have one result. -/
structure SchedulesAgree (p : Program) (o : Options) (sink : σ)
    (result : σ × Except CompileError Layout) : Prop where
  /-- The sink has received the lines of the program and was flushed. -/
  lines : ∃ L code, p.output o = .ok (L, code) ∧
    result = ((Sink.flush (Sink.emitAll sink code)).1,
      ((Sink.flush (Sink.emitAll sink code)).2.mapError .emit).map fun _ => L)
  /-- Methods may be generated into the sink itself, one after the other. -/
  inTurn : p.compileWith o p.emitEach sink = .ok result
  /-- They may be generated in any order, each into a buffer of its own. -/
  scheduled {schedule : Nat → List Nat} : (∀ n, (schedule n).Perm (List.range n)) →
    p.compileWith o (fun L methods => p.emitScheduled L methods (schedule methods.length)) sink =
      .ok result
  /-- Neither the number of threads matters nor whether they are used, as long as they start. -/
  threads {o' : Options} {pool : ThreadPool} : o'.runCodegen = o.runCodegen → pool.Serves o' →
    p.compile o' sink pool = .ok result

/-- If the methods of a program can be generated in one way, every other way has the same result;
and a method adds the same lines to every sink. -/
theorem schedulesAgree_of_compile (serves : pool.Serves o)
    (h : p.compile o sink pool = .ok result) :
    p.SchedulesAgree o sink result ∧ ∀ (L : Layout) (m : MethodId) (sink : σ),
      p.emitMethod L m sink =
        (fun buffer : Buffer => Sink.emitAll sink buffer.lines.toList) <$>
          p.emitMethod L m Buffer.empty := by
  refine ⟨⟨compile_eq_ok serves h, ?_, ?_, ?_⟩, fun L m sink => emitMethod_eq_drain m sink⟩
  · exact compileWith_eq_ok serves emitEach_eq h
  · exact fun hschedule => compileWith_eq_ok serves
      (fun hcodes => emitScheduled_eq hcodes (hschedule _)) h
  · intro o' pool' hrun serves'
    rw [compile_eq serves] at h
    rw [compile_eq serves']
    simpa only [output, hrun] using h

theorem schedulesAgree_shapes :
    ∃ result : Buffer × Except CompileError Layout,
      shapes.compile { sequential := true } ⟨#[⟨.dummy, .syscall⟩]⟩ = .ok result ∧
      shapes.SchedulesAgree { sequential := true } ⟨#[⟨.dummy, .syscall⟩]⟩ result := by
  obtain ⟨result, h⟩ := exists_eq_ok_of_isSome
    (show (shapes.compile { sequential := true }
      (⟨#[⟨.dummy, .syscall⟩]⟩ : Buffer)).toOption.isSome by decide +kernel)
  exact ⟨result, h, (schedulesAgree_of_compile (ThreadPool.serves_ready _) h).1⟩

end Program

end MipsBackend
