import MipsBackend.Proofs.Code.BodyLabels
import MipsBackend.Proofs.Execution.Statements

/-!
# Breaks

The generator accepts a break out of a loop that its frame knows.  A frame knows every loop that it
has entered, whether the loop goes on or has ended, so a break may also stand behind its loop.  What
such a break drops is counted from the height at which the loop was entered, and the stack may be
lower by then (`Body.stray_break`).

`Departs` says with which frame the generator comes to which break, up to where it fails.
`Body.resolves_breaks` says what becomes of these breaks.
-/

namespace MipsBackend

open Gen

variable {p : Program} {l : Layout} {f f₁ f' : Frame} {code : Code} {span : Span} {loop : StmtId}
  {around entered : List StmtId}

/-- The loops that a frame knows, latest first. -/
def Frame.loops (f : Frame) : List StmtId :=
  f.loopExits.map Prod.fst

/-- A table has no entry for a loop that is none of its keys. -/
theorem lookup_eq_none_iff_notMem {table : List (StmtId × Int)} :
    table.lookup loop = none ↔ loop ∉ table.map Prod.fst := by
  simp only [List.lookup_eq_none_iff, bne_iff_ne, List.mem_map, not_exists, not_and]
  exact ⟨fun h entry hentry heq => h entry hentry heq.symm,
    fun h entry hentry heq => h entry hentry heq.symm⟩

/-- The frame has got to know some more loops, the latest of which is given first. -/
def Frame.Learns (f f' : Frame) (loops : List StmtId) : Prop :=
  ∃ added, f'.loopExits = added ++ f.loopExits ∧ added.map Prod.fst = loops

namespace Frame.Learns

variable {loops loops' : List StmtId}

theorem of_eq (h : f'.loopExits = f.loopExits) : f.Learns f' [] :=
  ⟨[], h, rfl⟩

theorem trans (h : f.Learns f₁ loops) (h' : f₁.Learns f' loops') :
    f.Learns f' (loops' ++ loops) := by
  obtain ⟨added, hadded, rfl⟩ := h
  obtain ⟨added', hadded', rfl⟩ := h'
  exact ⟨added' ++ added, by rw [hadded', hadded, List.append_assoc], List.map_append⟩

theorem enterLoop (f : Frame) (loop : StmtId) : f.Learns (f.enterLoop loop) [loop] :=
  ⟨[(loop, f.height)], rfl, rfl⟩

theorem loops_eq (h : f.Learns f' loops) : f'.loops = loops ++ f.loops := by
  obtain ⟨added, hadded, rfl⟩ := h
  rw [Frame.loops, hadded, List.map_append, Frame.loops]

/-- Nothing is forgotten of another loop. -/
theorem lookup_eq (h : f.Learns f' loops) (hloop : loop ∉ loops) :
    f'.loopExits.lookup loop = f.loopExits.lookup loop := by
  obtain ⟨added, hadded, rfl⟩ := h
  rw [hadded, List.lookup_append, lookup_eq_none_iff_notMem.2 hloop, Option.none_or]

end Frame.Learns

/-- The frame is no lower than where it entered each of the loops last. -/
def Frame.Above (f : Frame) (loops : List StmtId) : Prop :=
  ∀ loop ∈ loops, ∃ exit, f.loopExits.lookup loop = some exit ∧ exit ≤ f.height

namespace Frame.Above

variable {loops : List StmtId}

theorem of_learns (h : f.Above around) (hlearns : f.Learns f' loops)
    (hnew : ∀ loop ∈ around, loop ∉ loops) (hheight : f.height ≤ f'.height) : f'.Above around := by
  intro loop hloop
  obtain ⟨exit, hexit, hle⟩ := h loop hloop
  exact ⟨exit, by rw [hlearns.lookup_eq (hnew loop hloop), hexit], Int.le_trans hle hheight⟩

theorem enterLoop (h : f.Above around) (loop : StmtId) :
    (f.enterLoop loop).Above (loop :: around) := by
  intro other hother
  by_cases hsame : other = loop
  · exact ⟨f.height, by simp [Frame.enterLoop, hsame], Int.le_refl _⟩
  · obtain ⟨exit, hexit, hle⟩ := h other ((List.mem_cons.1 hother).resolve_left hsame)
    refine ⟨exit, ?_, hle⟩
    rw [Frame.enterLoop, List.lookup_cons, beq_eq_false_iff_ne.2 hsame, hexit]

end Frame.Above

/-! ## Loops and breaks of a statement -/

namespace StmtTree

/-- The statements that a statement consists of. -/
def parts : StmtTree → List (Unit → StmtTree)
  | .block _ stmts => stmts
  | .ifThen _ _ thenStmt => [thenStmt]
  | .ifElse _ _ thenStmt elseStmt => [thenStmt, elseStmt]
  | .whileLoop _ _ body => [body]
  | .broken _ _ | .localVar _ _ _ | .call _ _ | .assign _ _ _ | .breakFrom _ _ => []

mutual

/-- The loops in a statement, latest first. -/
def loops : StmtTree → List StmtId
  | .broken _ _ | .localVar _ _ _ | .call _ _ | .assign _ _ _ | .breakFrom _ _ => []
  | .block _ stmts => loopsAll stmts
  | .ifThen _ _ thenStmt => (thenStmt ()).loops
  | .ifElse _ _ thenStmt elseStmt => (elseStmt ()).loops ++ (thenStmt ()).loops
  | .whileLoop info _ body => (body ()).loops ++ [info.id]

/-- The loops in some statements, latest first. -/
def loopsAll : List (Unit → StmtTree) → List StmtId
  | [] => []
  | s :: ss => loopsAll ss ++ (s ()).loops

end

mutual

/-- The breaks in a statement, each with the loop that it leaves. -/
def breaks : StmtTree → List (StmtInfo × StmtId)
  | .broken _ _ | .localVar _ _ _ | .call _ _ | .assign _ _ _ => []
  | .block _ stmts => breaksAll stmts
  | .ifThen _ _ thenStmt => (thenStmt ()).breaks
  | .ifElse _ _ thenStmt elseStmt => (thenStmt ()).breaks ++ (elseStmt ()).breaks
  | .whileLoop _ _ body => (body ()).breaks
  | .breakFrom info loop => [(info, loop)]

/-- The breaks in some statements. -/
def breaksAll : List (Unit → StmtTree) → List (StmtInfo × StmtId)
  | [] => []
  | s :: ss => (s ()).breaks ++ breaksAll ss

end

mutual

/-- No loop of the statement stands in its own body. -/
def LoopsNest : StmtTree → Prop
  | .broken _ _ | .localVar _ _ _ | .call _ _ | .assign _ _ _ | .breakFrom _ _ => True
  | .block _ stmts => LoopsNestAll stmts
  | .ifThen _ _ thenStmt => (thenStmt ()).LoopsNest
  | .ifElse _ _ thenStmt elseStmt => (thenStmt ()).LoopsNest ∧ (elseStmt ()).LoopsNest
  | .whileLoop info _ body => info.id ∉ (body ()).loops ∧ (body ()).LoopsNest

/-- No loop of some statements stands in its own body. -/
def LoopsNestAll : List (Unit → StmtTree) → Prop
  | [] => True
  | s :: ss => (s ()).LoopsNest ∧ LoopsNestAll ss

end

theorem mem_loopsAll {ss : List (Unit → StmtTree)} :
    loop ∈ loopsAll ss ↔ ∃ s ∈ ss, loop ∈ (s ()).loops := by
  induction ss with
  | nil => simp [loopsAll]
  | cons s ss ih => simp [loopsAll, ih, or_comm]

theorem loopsNestAll_iff {ss : List (Unit → StmtTree)} :
    LoopsNestAll ss ↔ ∀ s ∈ ss, (s ()).LoopsNest := by
  induction ss with
  | nil => simp [LoopsNestAll]
  | cons s ss ih => simp [LoopsNestAll, ih]

/-- A loop of a statement is the statement itself or in a part of it. -/
theorem eq_or_mem_parts_of_mem_loops {s : StmtTree} (h : loop ∈ s.loops) :
    loop = s.id ∨ ∃ part ∈ s.parts, loop ∈ (part ()).loops := by
  cases s with
  | block info stmts => exact Or.inr (mem_loopsAll.1 h)
  | ifThen info cond thenStmt => exact Or.inr ⟨thenStmt, by simp [parts], h⟩
  | ifElse info cond thenStmt elseStmt =>
    rcases List.mem_append.1 h with h | h
    · exact Or.inr ⟨elseStmt, by simp [parts], h⟩
    · exact Or.inr ⟨thenStmt, by simp [parts], h⟩
  | whileLoop info cond body =>
    rcases List.mem_append.1 h with h | h
    · exact Or.inr ⟨body, by simp [parts], h⟩
    · exact Or.inl (List.mem_singleton.1 h)
  | _ => exact absurd h List.not_mem_nil

/-- Loops nest where no statement occurs as a loop in a part of its own. -/
theorem loopsNest_of_parts {s : StmtTree}
    (h : ∀ part ∈ s.parts, s.id ∉ (part ()).loops ∧ (part ()).LoopsNest) : s.LoopsNest := by
  cases s with
  | block info stmts => exact loopsNestAll_iff.2 fun part hpart => (h part hpart).2
  | ifThen info cond thenStmt => exact (h thenStmt (by simp [parts])).2
  | ifElse info cond thenStmt elseStmt =>
    exact ⟨(h thenStmt (by simp [parts])).2, (h elseStmt (by simp [parts])).2⟩
  | whileLoop info cond body => exact h body (by simp [parts])
  | _ => trivial

theorem exists_code_of_mem {ss : List (Unit → StmtTree)} {s : Unit → StmtTree}
    (h : (codeAll p l ss).run f = .ok (code, f')) (hs : s ∈ ss) :
    ∃ f₁ code₁ f₂, ((s ()).code p l).run f₁ = .ok (code₁, f₂) := by
  induction ss generalizing f code with
  | nil => exact absurd hs List.not_mem_nil
  | cons first ss ih =>
    simp only [codeAll, run_bind_eq_ok_iff, run_pure_eq_ok_iff] at h
    obtain ⟨_, f₁, hfirst, _, _, hrest, _, rfl⟩ := h
    rcases List.mem_cons.1 hs with rfl | hs
    · exact ⟨f, _, f₁, hfirst⟩
    · exact ih hrest hs

/-- The code of a statement is made from code of its parts. -/
theorem exists_code_of_mem_parts {s : StmtTree} {part : Unit → StmtTree}
    (h : (s.code p l).run f = .ok (code, f')) (hpart : part ∈ s.parts) :
    ∃ f₁ code₁ f₂, ((part ()).code p l).run f₁ = .ok (code₁, f₂) := by
  have hscope : ∀ {s : StmtTree} {f f' : Frame} {code : Code},
      (inScope s.span (s.code p l)).run f = .ok (code, f') →
      ∃ f₁ code₁ f₂, (s.code p l).run f₁ = .ok (code₁, f₂) := by
    intro s f f' code h
    obtain ⟨inner, f₁, hinner, _⟩ := inScope_run h
    exact ⟨f, inner, f₁, hinner⟩
  cases s with
  | block info stmts =>
    obtain ⟨_, _, hstmts, _⟩ := inScope_run h
    exact exists_code_of_mem hstmts hpart
  | ifThen info cond thenStmt =>
    obtain rfl := List.mem_singleton.1 hpart
    simp only [StmtTree.code, run_bind_eq_ok_iff, run_pure_eq_ok_iff] at h
    obtain ⟨_, _, _, _, _, hbody, _⟩ := h
    exact hscope hbody
  | ifElse info cond thenStmt elseStmt =>
    simp only [StmtTree.code, run_bind_eq_ok_iff, run_pure_eq_ok_iff] at h
    obtain ⟨_, _, _, _, _, hbody, _, _, hother, _⟩ := h
    simp only [parts, List.mem_cons, List.not_mem_nil, or_false] at hpart
    rcases hpart with rfl | rfl
    · exact hscope hbody
    · exact hscope hother
  | whileLoop info cond body =>
    obtain rfl := List.mem_singleton.1 hpart
    simp only [StmtTree.code, run_bind_eq_ok_iff, run_pure_eq_ok_iff] at h
    obtain ⟨_, _, _, _, _, hturn, _⟩ := h
    exact hscope hturn
  | _ => exact absurd hpart List.not_mem_nil

theorem learns_of_inScope {body : Gen Code} {loops : List StmtId}
    (h : (inScope span body).run f = .ok (code, f'))
    (hbody : ∀ {code f'}, body.run f = .ok (code, f') → f.Learns f' loops) :
    f.Learns f' loops := by
  obtain ⟨_, f₁, hinner, _, rfl⟩ := inScope_run h
  have hlearns : f.Learns f₁ loops := hbody hinner
  exact hlearns

theorem learns_of_condition {cond : ExprTree}
    (h : (condition p l span cond).run f = .ok (code, f')) : f.Learns f' [] := by
  have hkeeps : (condition p l span cond).KeepsLoops :=
    cond.keepsLoops_code.bind fun _ => (KeepsLoops.pop _ _).bind fun _ => .pure _
  exact .of_eq (hkeeps _ _ _ h)

theorem learns_of_codeAll {ss : List (Unit → StmtTree)}
    (h : (codeAll p l ss).run f = .ok (code, f'))
    (heach : ∀ s ∈ ss, ∀ {code f f'}, ((s ()).code p l).run f = .ok (code, f') →
      f.Learns f' (s ()).loops) : f.Learns f' (loopsAll ss) := by
  induction ss generalizing f code with
  | nil =>
    obtain ⟨_, rfl⟩ := run_pure_eq_ok_iff.1 h
    exact .of_eq rfl
  | cons s ss ih =>
    rw [List.forall_mem_cons] at heach
    simp only [codeAll, run_bind_eq_ok_iff, run_pure_eq_ok_iff] at h
    obtain ⟨_, f₁, hfirst, _, _, hrest, _, rfl⟩ := h
    exact (heach.1 hfirst).trans (ih hrest heach.2)

/-- The code of a statement makes the loops of the statement known, for good. -/
theorem learns_of_code {s : StmtTree} (h : (s.code p l).run f = .ok (code, f')) :
    f.Learns f' s.loops := by
  induction s generalizing f code f' with
  | broken id fault => exact absurd h run_throw_ne_ok
  | block info stmts ih =>
    exact learns_of_inScope h fun hrun => learns_of_codeAll hrun fun s hs _ _ _ => ih s hs
  | localVar info var init =>
    simp only [StmtTree.code, run_bind_eq_ok_iff, run_pure_eq_ok_iff] at h
    obtain ⟨value, _, hvalue, _, _, hdeclared, _, rfl⟩ := h
    exact .of_eq ((declared_run hdeclared).2.trans (init.keepsLoops_code _ _ _ hvalue))
  | call info expr =>
    simp only [StmtTree.code, run_bind_eq_ok_iff, run_pure_eq_ok_iff] at h
    obtain ⟨value, _, hvalue, drop, _, hdrop, _, rfl⟩ := h
    exact .of_eq ((KeepsLoops.pop _ _ _ _ _ hdrop).trans (expr.keepsLoops_code _ _ _ hvalue))
  | assign info target value => exact .of_eq (keepsLoops_assignment target value _ _ _ h)
  | ifThen info cond thenStmt ih =>
    simp only [StmtTree.code, run_bind_eq_ok_iff, run_pure_eq_ok_iff] at h
    obtain ⟨_, f₁, htest, _, _, hbody, _, rfl⟩ := h
    simpa [loops] using (learns_of_condition htest).trans (learns_of_inScope hbody ih)
  | ifElse info cond thenStmt elseStmt ihThen ihElse =>
    simp only [StmtTree.code, run_bind_eq_ok_iff, run_pure_eq_ok_iff] at h
    obtain ⟨_, f₁, htest, _, f₂, hbody, _, _, hother, _, rfl⟩ := h
    have hthen := (learns_of_condition htest).trans (learns_of_inScope hbody ihThen)
    simpa [loops] using hthen.trans (learns_of_inScope hother ihElse)
  | whileLoop info cond body ih =>
    simp only [StmtTree.code, run_bind_eq_ok_iff, run_pure_eq_ok_iff] at h
    obtain ⟨_, _, henter, _, f₁, hturn, _, _, htest, _, rfl⟩ := h
    obtain rfl := run_modify_eq_ok_iff.1 henter
    have hentered := (Frame.Learns.enterLoop f info.id).trans (learns_of_inScope hturn ih)
    exact hentered.trans (learns_of_condition htest)
  | breakFrom info loop =>
    obtain ⟨_, _, _, rfl⟩ := leaveLoop_run h
    exact .of_eq rfl

end StmtTree

/-! ## Statements that contain themselves -/

/-- The statements that a statement of this kind consists of. -/
def StmtKind.parts : StmtKind → List StmtId
  | .block stmts => stmts
  | .ifElse _ thenStmt elseStmt => thenStmt :: elseStmt.toList
  | .whileLoop _ body => [body]
  | .localVar _ | .call _ | .assign _ _ | .breakFrom _ => []

namespace Program

/-- The first statement is a direct part of the second. -/
def IsPartOf (p : Program) (part whole : StmtId) : Prop :=
  ∃ s, p.stmtAt whole = .ok s ∧ part ∈ s.kind.parts

variable {bound : Nat} {id : StmtId}

theorem parts_unfoldStmt {s : Stmt} (hs : p.stmtAt id = .ok s) :
    (p.unfoldStmt (bound + 1) id).parts =
      s.kind.parts.map fun part _ => p.unfoldStmt bound part := by
  obtain ⟨span, kind⟩ := s
  rw [unfoldStmt, hs]
  cases kind with
  | localVar var => cases hinit : p.localInit var <;> simp [StmtTree.parts, StmtKind.parts, hinit]
  | ifElse cond thenStmt elseStmt => cases elseStmt <;> simp [StmtTree.parts, StmtKind.parts]
  | _ => simp [StmtTree.parts, StmtKind.parts]

/-- The parts of an unfolded statement are unfolded parts. -/
theorem exists_isPartOf {branch : Unit → StmtTree}
    (h : branch ∈ (p.unfoldStmt bound id).parts) :
    ∃ bound' part, bound' < bound ∧ p.IsPartOf part id ∧
      branch () = p.unfoldStmt bound' part := by
  cases hs : p.stmtAt id with
  | error fault =>
    rw [unfoldStmt, hs] at h
    exact absurd h List.not_mem_nil
  | ok s =>
    cases bound with
    | zero =>
      rw [unfoldStmt, hs] at h
      exact absurd h List.not_mem_nil
    | succ bound =>
      rw [parts_unfoldStmt hs] at h
      obtain ⟨part, hpart, rfl⟩ := List.mem_map.1 h
      exact ⟨bound, part, Nat.lt_succ_self _, ⟨s, hs, hpart⟩, rfl⟩

/-- Going from a statement whose code is generated to parts of it comes to an end. -/
theorem acc_of_code (h : ((p.unfoldStmt bound id).code p l).run f = .ok (code, f')) :
    Acc p.IsPartOf id := by
  induction bound generalizing id f code f' with
  | zero =>
    rw [unfoldStmt] at h
    cases hs : p.stmtAt id <;> simp only [hs] at h <;> exact absurd h run_throw_ne_ok
  | succ bound ih =>
    refine .intro _ fun part hpart => ?_
    obtain ⟨s, hs, hpart⟩ := hpart
    have hbranch : (fun _ => p.unfoldStmt bound part) ∈ (p.unfoldStmt (bound + 1) id).parts := by
      rw [parts_unfoldStmt hs]
      exact List.mem_map_of_mem hpart
    obtain ⟨_, _, _, hcode⟩ := StmtTree.exists_code_of_mem_parts h hbranch
    exact ih hcode

theorem descends_of_mem_loops (h : loop ∈ (p.unfoldStmt bound id).loops) :
    Relation.ReflTransGen p.IsPartOf loop id := by
  induction bound using Nat.strong_induction_on generalizing id with
  | _ bound ih =>
    rcases StmtTree.eq_or_mem_parts_of_mem_loops h with rfl | ⟨branch, hbranch, hmem⟩
    · rw [id_unfoldStmt]
    · obtain ⟨bound', part, hlt, hpart, heq⟩ := exists_isPartOf hbranch
      rw [heq] at hmem
      exact (ih bound' hlt hmem).tail hpart

/-- A statement whose parts come to an end is no part of itself, and neither are those. -/
theorem loopsNest_of_acc (h : Acc p.IsPartOf id) : (p.unfoldStmt bound id).LoopsNest := by
  induction h generalizing bound with
  | intro id hacc ih =>
    refine StmtTree.loopsNest_of_parts fun branch hbranch => ?_
    obtain ⟨bound', part, hlt, hpart, heq⟩ := exists_isPartOf hbranch
    rw [heq, id_unfoldStmt]
    refine ⟨fun hmem => ?_, ih part hpart⟩
    -- The loop would be a part of its own part.
    have hcycle : Relation.TransGen p.IsPartOf id id :=
      .tail' (descends_of_mem_loops hmem) hpart
    have hirrefl : ∀ {a}, Acc (Relation.TransGen p.IsPartOf) a →
        ¬ Relation.TransGen p.IsPartOf a a := by
      intro a ha
      induction ha with
      | intro a _ ih => exact fun hself => ih a hself hself
    exact hirrefl (Acc.intro id hacc).transGen hcycle

end Program

/-! ## Departures -/

namespace Task

/-- The loops in a task, latest first. -/
def loops : Task → List StmtId
  | one s => s.loops
  | all ss => StmtTree.loopsAll ss

/-- Types and widths agree in a task. -/
def isWordTyped (p : Program) : Task → Bool
  | one s => s.isWordTyped p
  | all ss => StmtTree.isWordTypedAll p ss

/-- No loop of a task stands in its own body. -/
def LoopsNest : Task → Prop
  | one s => s.LoopsNest
  | all ss => StmtTree.LoopsNestAll ss

/-- The task is word-typed, and no loop in it is inside itself or around the task. -/
structure Nests (p : Program) (around : List StmtId) (t : Task) : Prop where
  typed : t.isWordTyped p
  nest : t.LoopsNest
  outside : ∀ loop ∈ around, loop ∉ t.loops

theorem Nests.part {t t' : Task} (h : t.Nests p around) (htyped : t'.isWordTyped p)
    (hnest : t'.LoopsNest) (hsub : t'.loops ⊆ t.loops) : t'.Nests p around :=
  ⟨htyped, hnest, fun loop hloop hmem => h.outside loop hloop (hsub hmem)⟩

end Task

/-- A break that the generator comes to. -/
structure Departure where
  info : StmtInfo
  /-- The loop to leave. -/
  loop : StmtId
  /-- The loops around the break, innermost first. -/
  around : List StmtId
  /-- The loops that the generator has entered by then, latest first. -/
  entered : List StmtId
  frame : Frame

/-- What is generated for the break. -/
def Departure.leave (d : Departure) : Except Fault (Code × Frame) :=
  (leaveLoop d.info.span d.loop).run d.frame

/-- A break out of a loop that the frame does not know is refused. -/
theorem Departure.leave_eq_error {d : Departure} (h : d.loop ∉ d.frame.loops) :
    d.leave = defect (.breakOutsideLoop d.loop) := by
  have hnone : d.frame.loopExits.lookup d.loop = none := lookup_eq_none_iff_notMem.2 h
  have hexit : d.frame.loopExit d.loop = defect (.breakOutsideLoop d.loop) := by
    rw [Frame.loopExit, hnone]
  change (d.frame.loopExit d.loop >>= fun exit => pure (exit, d.frame)) >>= _ = _
  rw [hexit]
  rfl

/-- Starting with a frame within some loops, and after some loops were entered, the generator comes
to a break in a task. -/
inductive Departs (p : Program) (l : Layout) :
    Task → List StmtId → List StmtId → Frame → Departure → Prop where
  | block {info stmts around entered f d} : Departs p l (.all stmts) around entered f d →
    Departs p l (.one (.block info stmts)) around entered f d
  | first {s ss around entered f d} : Departs p l (.one (s ())) around entered f d →
    Departs p l (.all (s :: ss)) around entered f d
  | later {s ss around entered f f₁ code d} : ((s ()).code p l).run f = .ok (code, f₁) →
    Departs p l (.all ss) around ((s ()).loops ++ entered) f₁ d →
    Departs p l (.all (s :: ss)) around entered f d
  | ifThen {info cond thenStmt around entered f f₁ code d} :
    (condition p l info.span cond).run f = .ok (code, f₁) →
    Departs p l (.one (thenStmt ())) around entered f₁ d →
    Departs p l (.one (.ifThen info cond thenStmt)) around entered f d
  | ifElseThen {info cond thenStmt elseStmt around entered f f₁ code d} :
    (condition p l info.span cond).run f = .ok (code, f₁) →
    Departs p l (.one (thenStmt ())) around entered f₁ d →
    Departs p l (.one (.ifElse info cond thenStmt elseStmt)) around entered f d
  | ifElseElse {info cond thenStmt elseStmt around entered f f₁ f₂ code code' d} :
    (condition p l info.span cond).run f = .ok (code, f₁) →
    (inScope (thenStmt ()).span ((thenStmt ()).code p l)).run f₁ = .ok (code', f₂) →
    Departs p l (.one (elseStmt ())) around ((thenStmt ()).loops ++ entered) f₂ d →
    Departs p l (.one (.ifElse info cond thenStmt elseStmt)) around entered f d
  | whileLoop {info cond body around entered f d} :
    Departs p l (.one (body ())) (info.id :: around) (info.id :: entered) (f.enterLoop info.id) d →
    Departs p l (.one (.whileLoop info cond body)) around entered f d
  | breakFrom {info loop around entered f} :
    Departs p l (.one (.breakFrom info loop)) around entered f ⟨info, loop, around, entered, f⟩

/-- The outcome of a part of a generation goes into that of the whole: a failure ends it, and code
becomes part of the code. -/
def Embeds (part whole : Except Fault (Code × Frame)) : Prop :=
  ∃ rest, whole = part >>= rest ∧ ∀ r r', rest r = .ok r' → r.1 <:+: r'.1

namespace Embeds

variable {part middle whole : Except Fault (Code × Frame)}

theorem refl (part : Except Fault (Code × Frame)) : Embeds part part :=
  ⟨pure, (bind_pure part).symm, fun r r' h => by rw [pure_eq_ok_iff.1 h]⟩

theorem trans (h : Embeds part middle) (h' : Embeds middle whole) : Embeds part whole := by
  obtain ⟨rest, rfl, hwithin⟩ := h
  obtain ⟨rest', rfl, hwithin'⟩ := h'
  refine ⟨fun r => rest r >>= rest', bind_assoc _ _ _, fun r r' h => ?_⟩
  obtain ⟨r₁, hrest, hrest'⟩ := bind_eq_ok_iff.1 h
  exact (hwithin r r₁ hrest).trans (hwithin' r₁ r' hrest')

theorem eq_error {fault : Fault} (h : Embeds part whole) (hpart : part = .error fault) :
    whole = .error fault := by
  obtain ⟨rest, rfl, _⟩ := h
  rw [hpart]
  rfl

theorem exists_part (h : Embeds part whole) (hwhole : whole = .ok (code, f')) :
    ∃ inner f₁, part = .ok (inner, f₁) ∧ inner <:+: code := by
  obtain ⟨rest, heq, hwithin⟩ := h
  obtain ⟨⟨inner, f₁⟩, hpart, hrest⟩ := bind_eq_ok_iff.1 (heq.symm.trans hwhole)
  exact ⟨inner, f₁, hpart, hwithin _ _ hrest⟩

/-- Something is generated next, and the code of both goes into the whole. -/
theorem of_next (next : Frame → Except Fault (Code × Frame)) (assemble : Code → Code → Code)
    (h : whole = part >>= fun r => next r.2 >>= fun r' => pure (assemble r.1 r'.1, r'.2))
    (hwithin : ∀ code code', code <:+: assemble code code') : Embeds part whole := by
  refine ⟨_, h, fun r r' hr => ?_⟩
  obtain ⟨r₁, _, hr'⟩ := bind_eq_ok_iff.1 hr
  rw [pure_eq_ok_iff.1 hr']
  exact hwithin r.1 r₁.1

/-- Nothing is generated any more. -/
theorem of_last (assemble : Code → Code)
    (h : whole = part >>= fun r => pure (assemble r.1, r.2))
    (hwithin : ∀ code, code <:+: assemble code) : Embeds part whole :=
  of_next (fun f => pure ([], f)) (fun code _ => assemble code) (by simpa using h)
    fun code _ => hwithin code

theorem inScope (span : Span) {body : Gen Code} :
    Embeds (body.run f) ((Gen.inScope span body).run f) :=
  of_next (popTo span f.height).run (· ++ ·) rfl
    fun code code' => (List.prefix_append code code').isInfix

end Embeds

namespace Departs

variable {t : Task} {d : Departure}

/-- What is generated for a break is part of what is generated. -/
theorem embeds (h : Departs p l t around entered f d) : Embeds d.leave ((t.code p l).run f) := by
  induction h with
  | @block info _ _ _ _ _ _ ih => exact ih.trans (.inScope info.span)
  | @first s ss _ _ _ _ _ ih =>
    exact ih.trans (.of_next (StmtTree.codeAll p l ss).run (· ++ ·) rfl
      fun code code' => (List.prefix_append code code').isInfix)
  | @later _ _ _ _ _ _ first _ hfirst _ ih =>
    refine ih.trans (.of_last (first ++ ·) ?_ fun code => (List.suffix_append first code).isInfix)
    rw [Task.code, StmtTree.codeAll, StateT.run_bind, hfirst]
    rfl
  | @ifThen info _ thenStmt _ _ _ _ test _ htest _ ih =>
    refine (ih.trans (.inScope (thenStmt ()).span)).trans (.of_last (fun body =>
      test ++ Code.of info.span [.branch .beq .t0 .zero (.ifElse info.id)] ++ body
        ++ Code.of info.span [.j (.ifDone info.id), .label (.ifElse info.id),
          .label (.ifDone info.id)]) ?_ fun body => List.infix_append _ _ _)
    rw [Task.code, StmtTree.code, StateT.run_bind, htest]
    rfl
  | @ifElseThen info _ thenStmt elseStmt _ _ _ _ test _ htest _ ih =>
    refine (ih.trans (.inScope (thenStmt ()).span)).trans (.of_next
      (inScope (elseStmt ()).span ((elseStmt ()).code p l)).run (fun body other =>
        test ++ Code.of info.span [.branch .beq .t0 .zero (.ifElse info.id)] ++ body
          ++ Code.of info.span [.j (.ifDone info.id), .label (.ifElse info.id)] ++ other
          ++ Code.of info.span [.label (.ifDone info.id)]) ?_ fun body other => ?_)
    · rw [Task.code, StmtTree.code, StateT.run_bind, htest]
      rfl
    · exact ((List.infix_append _ body _).trans (List.prefix_append _ other).isInfix).trans
        (List.prefix_append _ _).isInfix
  | @ifElseElse info _ thenStmt elseStmt _ _ _ _ _ test body _ htest hthen _ ih =>
    refine (ih.trans (.inScope (elseStmt ()).span)).trans (.of_last (fun other =>
      test ++ Code.of info.span [.branch .beq .t0 .zero (.ifElse info.id)] ++ body
        ++ Code.of info.span [.j (.ifDone info.id), .label (.ifElse info.id)] ++ other
        ++ Code.of info.span [.label (.ifDone info.id)]) ?_ fun other => List.infix_append _ _ _)
    rw [Task.code, StmtTree.code, StateT.run_bind, htest]
    change ((inScope (thenStmt ()).span ((thenStmt ()).code p l)).run _ >>= _) = _
    rw [hthen]
    rfl
  | @whileLoop info cond body _ _ f _ _ ih =>
    refine (ih.trans (.inScope (body ()).span)).trans (.of_next
      (condition p l info.span cond).run (fun turn test =>
        Code.of info.span [.j (.whileEnter info.id), .label (.whileTop info.id)] ++ turn
          ++ Code.of info.span [.label (.whileEnter info.id)] ++ test
          ++ Code.of info.span [.branch .bne .t0 .zero (.whileTop info.id),
            .label (.breakTarget info.id)]) rfl fun turn test => ?_)
    exact ((List.infix_append _ turn _).trans (List.prefix_append _ test).isInfix).trans
      (List.prefix_append _ _).isInfix
  | breakFrom => exact .refl _

/-- The frame at a break knows the loops entered by then. -/
theorem loops_eq (h : Departs p l t around entered f d) (hknown : f.loops = entered) :
    d.frame.loops = d.entered := by
  induction h with
  | block _ ih | first _ ih => exact ih hknown
  | later hfirst _ ih =>
    exact ih (by rw [(StmtTree.learns_of_code hfirst).loops_eq, hknown])
  | ifThen htest _ ih | ifElseThen htest _ ih =>
    exact ih ((StmtTree.learns_of_condition htest).loops_eq.trans hknown)
  | ifElseElse htest hthen _ ih =>
    have hlearns := (StmtTree.learns_of_condition htest).trans
      (StmtTree.learns_of_inScope hthen StmtTree.learns_of_code)
    exact ih (by rw [hlearns.loops_eq, hknown, List.append_nil])
  | whileLoop _ ih => exact ih (congrArg _ hknown)
  | breakFrom => exact hknown

/-- The loops around a break were entered before it. -/
theorem around_subset (h : Departs p l t around entered f d) (hsub : around ⊆ entered) :
    d.around ⊆ d.entered := by
  induction h with
  | block _ ih | first _ ih | ifThen _ _ ih | ifElseThen _ _ ih => exact ih hsub
  | later _ _ ih | ifElseElse _ _ _ ih =>
    exact ih (List.Subset.trans hsub (List.subset_append_right _ _))
  | whileLoop _ ih => exact ih (List.cons_subset_cons _ hsub)
  | breakFrom => exact hsub

/-- Inside a loop of a word-typed task the frame is no lower than where the loop was entered. -/
theorem above (h : Departs p l t around entered f d) (hnests : t.Nests p around)
    (habove : f.Above around) : d.frame.Above d.around := by
  induction h with
  | block _ ih => exact ih ⟨hnests.typed, hnests.nest, hnests.outside⟩ habove
  | first _ ih =>
    have htyped := hnests.typed
    simp only [Task.isWordTyped, StmtTree.isWordTypedAll, Bool.and_eq_true] at htyped
    exact ih (hnests.part htyped.1 hnests.nest.1 (List.subset_append_right _ _)) habove
  | @later s _ _ _ _ _ _ _ hfirst _ ih =>
    have htyped := hnests.typed
    simp only [Task.isWordTyped, StmtTree.isWordTypedAll, Bool.and_eq_true] at htyped
    have hheight := (StmtTree.frame_of_code htyped.1 hfirst).2
    have hleft := (s ()).leftBytes_nonneg
    refine ih (hnests.part htyped.2 hnests.nest.2 (List.subset_append_left _ _))
      (habove.of_learns (StmtTree.learns_of_code hfirst) ?_ (by omega))
    exact fun loop hloop hmem => hnests.outside loop hloop (List.mem_append_right _ hmem)
  | ifThen htest _ ih =>
    have htyped := hnests.typed
    simp only [Task.isWordTyped, StmtTree.isWordTyped, Bool.and_eq_true] at htyped
    obtain rfl := StmtTree.condition_frame htyped.1.1 htyped.1.2 htest
    exact ih (hnests.part htyped.2 hnests.nest (List.Subset.refl _)) habove
  | ifElseThen htest _ ih =>
    have htyped := hnests.typed
    simp only [Task.isWordTyped, StmtTree.isWordTyped, Bool.and_eq_true] at htyped
    obtain rfl := StmtTree.condition_frame htyped.1.1.1 htyped.1.1.2 htest
    exact ih (hnests.part htyped.1.2 hnests.nest.1 (List.subset_append_right _ _)) habove
  | ifElseElse htest hthen _ ih =>
    have htyped := hnests.typed
    simp only [Task.isWordTyped, StmtTree.isWordTyped, Bool.and_eq_true] at htyped
    obtain rfl := StmtTree.condition_frame htyped.1.1.1 htyped.1.1.2 htest
    have hlearns := StmtTree.learns_of_inScope hthen StmtTree.learns_of_code
    obtain ⟨_, _, _, _, rfl⟩ := inScope_run hthen
    refine ih (hnests.part htyped.2 hnests.nest.2 (List.subset_append_left _ _))
      (habove.of_learns hlearns ?_ (Int.le_refl _))
    exact fun loop hloop hmem => hnests.outside loop hloop (List.mem_append_right _ hmem)
  | @whileLoop info _ _ _ _ _ _ _ ih =>
    have htyped := hnests.typed
    simp only [Task.isWordTyped, StmtTree.isWordTyped, Bool.and_eq_true] at htyped
    refine ih ⟨htyped.2, hnests.nest.2, ?_⟩ (habove.enterLoop info.id)
    refine List.forall_mem_cons.2 ⟨hnests.nest.1, fun loop hloop hmem => ?_⟩
    exact hnests.outside loop hloop (List.mem_append_left _ hmem)
  | breakFrom => exact habove

theorem exists_of_mem_breaksAll {ss : List (Unit → StmtTree)} {brk : StmtInfo × StmtId}
    (h : (StmtTree.codeAll p l ss).run f = .ok (code, f')) (hbrk : brk ∈ StmtTree.breaksAll ss)
    (heach : ∀ s ∈ ss, ∀ {f code f' around entered}, ((s ()).code p l).run f = .ok (code, f') →
      brk ∈ (s ()).breaks →
      ∃ d, Departs p l (.one (s ())) around entered f d ∧ (d.info, d.loop) = brk) :
    ∃ d, Departs p l (.all ss) around entered f d ∧ (d.info, d.loop) = brk := by
  induction ss generalizing f code entered with
  | nil => exact absurd hbrk List.not_mem_nil
  | cons s ss ih =>
    rw [List.forall_mem_cons] at heach
    simp only [StmtTree.codeAll, run_bind_eq_ok_iff, run_pure_eq_ok_iff] at h
    obtain ⟨_, _, hfirst, _, _, hrest, _, rfl⟩ := h
    rcases List.mem_append.1 hbrk with hbrk | hbrk
    · obtain ⟨d, hd, hsame⟩ := heach.1 hfirst hbrk
      exact ⟨d, .first hd, hsame⟩
    · obtain ⟨d, hd, hsame⟩ := ih hrest hbrk heach.2
      exact ⟨d, .later hfirst hd, hsame⟩

/-- Where the code of a statement is generated the generator comes to every break in it. -/
theorem exists_of_mem_breaks {s : StmtTree} {brk : StmtInfo × StmtId}
    (h : (s.code p l).run f = .ok (code, f')) (hbrk : brk ∈ s.breaks) :
    ∃ d, Departs p l (.one s) around entered f d ∧ (d.info, d.loop) = brk := by
  induction s generalizing f code f' around entered with
  | block info stmts ih =>
    obtain ⟨_, _, hstmts, _⟩ := inScope_run h
    obtain ⟨d, hd, hsame⟩ :=
      exists_of_mem_breaksAll hstmts hbrk fun s hs _ _ _ _ _ hrun hmem => ih s hs hrun hmem
    exact ⟨d, .block hd, hsame⟩
  | ifThen info cond thenStmt ih =>
    simp only [StmtTree.code, run_bind_eq_ok_iff, run_pure_eq_ok_iff] at h
    obtain ⟨_, _, htest, _, _, hbody, _⟩ := h
    obtain ⟨_, _, hinner, _⟩ := inScope_run hbody
    obtain ⟨d, hd, hsame⟩ := ih hinner hbrk
    exact ⟨d, .ifThen htest hd, hsame⟩
  | ifElse info cond thenStmt elseStmt ihThen ihElse =>
    simp only [StmtTree.code, run_bind_eq_ok_iff, run_pure_eq_ok_iff] at h
    obtain ⟨_, _, htest, _, _, hbody, _, _, hother, _⟩ := h
    rcases List.mem_append.1 hbrk with hbrk | hbrk
    · obtain ⟨_, _, hinner, _⟩ := inScope_run hbody
      obtain ⟨d, hd, hsame⟩ := ihThen hinner hbrk
      exact ⟨d, .ifElseThen htest hd, hsame⟩
    · obtain ⟨_, _, hinner, _⟩ := inScope_run hother
      obtain ⟨d, hd, hsame⟩ := ihElse hinner hbrk
      exact ⟨d, .ifElseElse htest hbody hd, hsame⟩
  | whileLoop info cond body ih =>
    simp only [StmtTree.code, run_bind_eq_ok_iff, run_pure_eq_ok_iff] at h
    obtain ⟨_, _, henter, _, _, hturn, _⟩ := h
    obtain rfl := run_modify_eq_ok_iff.1 henter
    obtain ⟨_, _, hinner, _⟩ := inScope_run hturn
    obtain ⟨d, hd, hsame⟩ := ih hinner hbrk
    exact ⟨d, .whileLoop hd, hsame⟩
  | breakFrom info loop =>
    exact ⟨_, .breakFrom, (List.mem_singleton.1 hbrk).symm⟩
  | _ => exact absurd hbrk List.not_mem_nil

end Departs

/-! ## Bodies -/

namespace Body

variable {b : Body}

/-- The code of the statements of a body is part of the code of the body. -/
theorem exists_codeAll (h : b.code p l = .ok code) : ∃ inner f',
    (StmtTree.codeAll p l (b.stmts p)).run .empty = .ok (inner, f') ∧ inner <:+: code := by
  cases b with
  | entry =>
    obtain ⟨span, body, hbody, rfl⟩ := Program.entryCode_eq_ok h
    rcases hbody with ⟨hmain, rfl⟩ | ⟨main, f', hmain, hrun⟩
    · exact ⟨[], _, by rw [stmts, hmain]; rfl, List.nil_infix⟩
    · obtain ⟨inner, f₁, hinner, rfl, _⟩ := inScope_run hrun
      refine ⟨inner ++ [], f₁, ?_, ?_⟩
      · rw [stmts, hmain]
        simp only [Option.toList_some, List.map_cons, List.map_nil, StmtTree.codeAll,
          run_bind_eq_ok_iff, run_pure_eq_ok_iff]
        exact ⟨inner, f₁, hinner, [], f₁, ⟨rfl, rfl⟩, rfl, rfl⟩
      · rw [List.append_nil]
        exact ((List.prefix_append inner _).isInfix.trans (List.infix_append _ _ _))
  | method id =>
    obtain ⟨decl, _, _, body, f₁, result, span, _, leave, hdecl, _, _, _, hbody, _, _, rfl⟩ :=
      Program.methodCode_eq_ok h
    refine ⟨body, f₁, ?_, ?_⟩
    · simp only [stmts, hdecl]
      exact hbody
    · exact ((List.infix_append _ body _).trans (List.prefix_append _ _).isInfix)

/-- The generator comes to a break in a body. -/
def Departs (p : Program) (l : Layout) (b : Body) (d : Departure) : Prop :=
  MipsBackend.Departs p l (.all (b.stmts p)) [] [] .empty d

/-- In a body whose code is generated no loop contains itself. -/
theorem loopsNest_of_code (h : b.code p l = .ok code) : StmtTree.LoopsNestAll (b.stmts p) := by
  obtain ⟨_, _, hstmts, _⟩ := b.exists_codeAll h
  refine StmtTree.loopsNestAll_iff.2 fun s hs => ?_
  obtain ⟨id, hid⟩ : ∃ id, s () = p.stmtTree id := by
    cases b with
    | entry =>
      obtain ⟨main, _, rfl⟩ := List.mem_map.1 hs
      exact ⟨main, rfl⟩
    | method m =>
      rw [stmts] at hs
      split at hs
      · obtain ⟨id, _, rfl⟩ := List.mem_map.1 hs
        exact ⟨id, rfl⟩
      · exact absurd hs List.not_mem_nil
  obtain ⟨_, _, _, hcode⟩ := StmtTree.exists_code_of_mem hstmts hs
  rw [hid] at hcode ⊢
  exact Program.loopsNest_of_acc (Program.acc_of_code hcode)

/-- A frame knows the loops that its body has entered, those around the present place among them.  A
break out of any other loop is refused.  A break that is accepted drops what was pushed since its
loop was entered last, which is never less than nothing where types agree and the loop is around the
break. -/
theorem resolves_breaks (p : Program) (l : Layout) (b : Body) :
    (∀ d, b.Departs p l d → d.frame.loops = d.entered ∧ d.around ⊆ d.entered ∧
      (d.loop ∉ d.entered → (StmtTree.codeAll p l (b.stmts p)).run .empty =
        defect (.breakOutsideLoop d.loop))) ∧
    ∀ code, b.code p l = .ok code →
      (∀ brk ∈ StmtTree.breaksAll (b.stmts p), ∃ d, b.Departs p l d ∧ (d.info, d.loop) = brk) ∧
      ∀ d, b.Departs p l d → d.loop ∈ d.entered ∧ ∃ exit, d.frame.loopExit d.loop = .ok exit ∧
        dropCode d.info.span (d.frame.height - exit)
          ++ Code.of d.info.span [.j (.breakTarget d.loop)] <:+: code ∧
        (b.isWordTyped p → d.loop ∈ d.around → exit ≤ d.frame.height) := by
  have hloops : ∀ d, b.Departs p l d → d.frame.loops = d.entered := fun d hd => hd.loops_eq rfl
  refine ⟨fun d hd => ⟨hloops d hd, hd.around_subset (List.Subset.refl _), fun hloop => ?_⟩,
    fun code hcode => ⟨fun brk hbrk => ?_, fun d hd => ?_⟩⟩
  · rw [← hloops d hd] at hloop
    exact hd.embeds.eq_error (d.leave_eq_error hloop)
  · obtain ⟨_, _, hstmts, _⟩ := b.exists_codeAll hcode
    exact Departs.exists_of_mem_breaksAll hstmts hbrk fun s _ _ _ _ _ _ hrun hmem =>
      Departs.exists_of_mem_breaks hrun hmem
  · obtain ⟨inner, _, hstmts, hwithin⟩ := b.exists_codeAll hcode
    obtain ⟨leave, _, hleave, hwithinLeave⟩ := hd.embeds.exists_part hstmts
    obtain ⟨exit, hexit, rfl, _⟩ := leaveLoop_run hleave
    refine ⟨?_, exit, Frame.loopExit_eq_ok_iff.2 hexit, hwithinLeave.trans hwithin,
      fun htyped hloop => ?_⟩
    · rw [← hloops d hd]
      refine Decidable.not_not.1 fun hloop => ?_
      rw [lookup_eq_none_iff_notMem.2 hloop] at hexit
      cases hexit
    · simp only [isWordTyped, Bool.and_eq_true] at htyped
      have hnests : Task.Nests p [] (.all (b.stmts p)) :=
        ⟨htyped.1, loopsNest_of_code hcode, fun _ h => absurd h List.not_mem_nil⟩
      have habove : Frame.empty.Above [] := fun _ h => absurd h List.not_mem_nil
      obtain ⟨exit', hexit', hle⟩ := hd.above hnests habove d.loop hloop
      obtain rfl := Option.some.inj (hexit.symm.trans hexit')
      exact hle

end Body

/-- A loop in a block of its own, behind a variable, and a break out of it behind that block. -/
def strayBreak : Program where
  vars := #[⟨"x", .dummy, .int, .localVar ⟨0⟩⟩]
  stmts := #[
    ⟨.dummy, .localVar ⟨0⟩⟩,
    ⟨.dummy, .block []⟩,
    ⟨.dummy, .whileLoop ⟨1⟩ ⟨1⟩⟩,
    ⟨.dummy, .block [⟨0⟩, ⟨2⟩]⟩,
    ⟨.dummy, .breakFrom ⟨2⟩⟩,
    ⟨.dummy, .block [⟨3⟩, ⟨4⟩]⟩]
  exprs := #[
    ⟨.dummy, .int, .int 1⟩,
    ⟨.dummy, .bool, .bool false⟩]
  main := some ⟨5⟩

/-- The generator accepts the break of `strayBreak`, no loop being around it, and has it drop less
than nothing. -/
theorem Body.accepts_strayBreak : ∃ l data code d, Layout.compute strayBreak = .ok (l, data) ∧
    Body.entry.code strayBreak l = .ok code ∧ Body.entry.Departs strayBreak l d ∧
    d.loop ∉ d.around ∧ [Inst.adduImm .sp .sp (-8), .j (.breakTarget d.loop)] <:+: code.insts := by
  have hexit : (do
      let laid ← Layout.compute strayBreak
      let code ← Body.entry.code strayBreak laid.1
      return decide ([Inst.adduImm .sp .sp (-8), .j (.breakTarget ⟨2⟩)] <:+: code.insts)) =
        .ok true := by decide +kernel
  obtain ⟨⟨l, data⟩, hcompute, hexit⟩ := bind_eq_ok_iff.1 hexit
  obtain ⟨code, hcode, hexit⟩ := bind_eq_ok_iff.1 hexit
  obtain ⟨_, _, hstmts, _⟩ := Body.exists_codeAll hcode
  obtain ⟨_, _, hmain, _⟩ := run_bind_eq_ok_iff.1 hstmts
  obtain ⟨_, _, hparts, _⟩ := inScope_run hmain
  obtain ⟨_, f, hblock, _⟩ := run_bind_eq_ok_iff.1 hparts
  refine ⟨l, data, code, ⟨⟨⟨4⟩, .dummy⟩, ⟨2⟩, [], [⟨2⟩], f⟩, hcompute, hcode, ?_, List.not_mem_nil,
    by simpa using hexit⟩
  exact .first (.block (.later hblock (.first .breakFrom)))

end MipsBackend
