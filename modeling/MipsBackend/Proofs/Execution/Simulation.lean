import MipsBackend.Proofs.Execution.Statements

/-!
# Simulation of structured control flow

The proof goes by induction on the execution and not on the statement, since a loop is executed any
number of times.  Each rule of `Executes` has a lemma of its own, which says what the code of the
statement adds to the runs of its parts.

A loop begins with a jump to its condition.  What follows a turn is the execution of the loop from
its begin, according to the rule; the code does not go back there but stays behind that jump, which
comes to the same (`Completes.of_jump`).
-/

namespace MipsBackend

open Gen

variable {p : Program} {l : Layout} {f f₁ f' : Frame} {code : Code} {span : Span} {σ σ₁ σ' : Store}
  {x : VarId} {v : Value} {scope : List VarId} {loops : List StmtId} {base : Word}
  {exe : Executable} {i : Nat} {m : Machine} {c : Completion} {scratch : Nat}

namespace Task

/-! ## Sequences and scopes -/

section Sequences

variable {info : StmtInfo} {s : Unit → StmtTree} {ss : List (Unit → StmtTree)}

theorem WellFormed.cons (h : (all (s :: ss)).WellFormed p loops scope) :
    (one (s ())).WellFormed p loops scope ∧
      (all ss).WellFormed p loops ((s ()).scopeAfter scope) := by
  have htyped := h.typed
  have hscoping := h.scoping
  simp only [isScalarTyped, StmtTree.isScalarTypedAll, Bool.and_eq_true] at htyped
  simp only [isScoped, StmtTree.isScopedAll, Bool.and_eq_true] at hscoping
  exact ⟨h.part htyped.1 hscoping.1 (List.sublist_append_left _ _),
    h.part htyped.2 hscoping.2 (List.sublist_append_right _ _)⟩

theorem codeAll_cons_run
    (h : ((all (s :: ss)).code p l).run f = .ok (code, f')) :
    ∃ first rest f₁, ((one (s ())).code p l).run f = .ok (first, f₁) ∧
      ((all ss).code p l).run f₁ = .ok (rest, f') ∧ code = first ++ rest := by
  simp only [Task.code, StmtTree.codeAll, run_bind_eq_ok_iff, run_pure_eq_ok_iff] at h
  obtain ⟨first, f₁, hfirst, rest, _, hrest, rfl, rfl⟩ := h
  exact ⟨first, rest, f₁, hfirst, hrest, rfl⟩

theorem simulated_block (h : Simulated exe p l base scratch σ (all ss) σ' c) :
    Simulated exe p l base scratch σ (one (.block info ss)) σ' c := by
  intro loops scope f f' code i m hwf hcode hat hd
  have hpart : (all ss).WellFormed p loops scope :=
    hwf.part hwf.typed hwf.scoping (List.sublist_cons_self _ _)
  exact h.inScope hpart hcode hat hd

theorem simulated_nil : Simulated exe p l base scratch σ (all []) σ .normal := by
  intro loops scope f f' code i m _ hcode _ hd
  obtain ⟨rfl, rfl⟩ := run_pure_eq_ok_iff.1 hcode
  exact ⟨m, .refl, hd⟩

theorem simulated_cons (hfirst : Simulated exe p l base scratch σ (one (s ())) σ₁ .normal)
    (hrest : Simulated exe p l base scratch σ₁ (all ss) σ' c) (hexec : Executes σ₁ (all ss) σ' c) :
    Simulated exe p l base scratch σ (all (s :: ss)) σ' c := by
  intro loops scope f f' code i m hwf hcode hat hd
  obtain ⟨hwfFirst, hwfRest⟩ := hwf.cons
  obtain ⟨first, rest, f₁, hcodeFirst, hcodeRest, rfl⟩ := codeAll_cons_run hcode
  obtain ⟨m₁, hruns, hd₁⟩ := hfirst hwfFirst hcodeFirst hat.left hd
  have hcompletes := (hrest hwfRest hcodeRest hat.right hd₁).of_runs hruns
  rw [Executable.add_length_append]
  refine hcompletes.widen hd (extends_of_code hwfFirst hcodeFirst)
    (subset_scopeAfter (one (s ())) scope) fun loop hloop => ?_
  exact hwfFirst.around loop (hexec.mem_loops hloop hwfRest.scoping)

theorem simulated_abrupt (hfirst : Simulated exe p l base scratch σ (one (s ())) σ' c)
    (hc : c ≠ .normal) : Simulated exe p l base scratch σ (all (s :: ss)) σ' c := by
  intro loops scope f f' code i m hwf hcode hat hd
  obtain ⟨first, rest, f₁, hcodeFirst, _, rfl⟩ := codeAll_cons_run hcode
  exact (hfirst hwf.cons.1 hcodeFirst hat.left hd).of_abrupt hc

end Sequences

/-! ## Variables -/

section Assignments

variable {info : StmtInfo} {target : ExprInfo} {init value : ExprTree}

theorem simulated_localVar (hdiv : exe.runtime.Divides scratch) (hlabels : exe.code.labels.Nodup)
    (heval : init.eval σ = .ok v) :
    Simulated exe p l base scratch σ (one (.localVar info x init)) (σ.set x v) .normal := by
  intro loops scope f f' code i m hwf hcode hat hd
  obtain ⟨hextends, hheight⟩ :=
    StmtTree.frame_of_code (StmtTree.isWordTyped_of_isScalarTyped hwf.typed) hcode
  have htyped := hwf.typed
  simp only [isScalarTyped, StmtTree.isScalarTyped, Bool.and_eq_true, beq_iff_eq] at htyped
  obtain ⟨⟨hlocal, hinit⟩, hty⟩ := htyped
  simp only [Task.code, StmtTree.code, run_bind_eq_ok_iff, run_pure_eq_ok_iff] at hcode
  obtain ⟨value, f₁, hvalue, _, _, hdeclared, rfl, rfl⟩ := hcode
  have hmirrors := hd.mirrors hdiv hlabels hinit hwf.scoping hvalue hat
  rw [heval] at hmirrors
  obtain ⟨m', hruns, hpushed⟩ := hmirrors
  have hvty : v.ty = init.ty := ExprTree.ty_of_eval hinit
    (hd.holds.mono (ExprTree.reads_subset hwf.scoping)).typed heval
  have hbytes : init.ty.stackBytes = 8 :=
    Ty.stackBytes_of_isScalar (ExprTree.isScalar_ty hinit)
  refine ⟨m', hruns, hd.declare hpushed (ExprTree.fits_of_code hinit hvalue) hdiv.small
    hextends ?_ ?_ (hvty.trans hty)⟩
  · rw [hheight, StmtTree.leftBytes, hbytes]
  · obtain ⟨_, rfl⟩ := declared_frame hdeclared
    rw [Frame.stackOffset?_of_isLocal _ hlocal, List.lookup_cons_self]

theorem simulated_localVar_trapped (hdiv : exe.runtime.Divides scratch)
    (hlabels : exe.code.labels.Nodup) (heval : init.eval σ = .error .divisionByZero) :
    Simulated exe p l base scratch σ (one (.localVar info x init)) σ .trapped := by
  intro loops scope f f' code i m hwf hcode hat hd
  have htyped := hwf.typed
  simp only [isScalarTyped, StmtTree.isScalarTyped, Bool.and_eq_true] at htyped
  simp only [Task.code, StmtTree.code, run_bind_eq_ok_iff, run_pure_eq_ok_iff] at hcode
  obtain ⟨value, f₁, hvalue, _, _, _, rfl, _⟩ := hcode
  have hmirrors := hd.mirrors hdiv hlabels htyped.1.2 hwf.scoping hvalue hat
  rwa [heval] at hmirrors

theorem assignVar_run
    (h : ((one (.assign info (.ident target x) value)).code p l).run f = .ok (code, f')) :
    ∃ result f₁ address, (value.code p l).run f = .ok (result, f₁) ∧
      (varAddress p l x).run f₁ = .ok (address, f₁) ∧
      code = result ++ Code.of info.span [.lw .t0 0 .sp, .sw .t0 address.1 address.2]
        ++ dropCode info.span value.ty.stackBytes := by
  simp only [Task.code, StmtTree.code, assignment, run_bind_eq_ok_iff, run_pure_eq_ok_iff] at h
  obtain ⟨_, _, hkind, result, f₁, hresult, address, _, haddress, drop, _, hdrop, rfl, _⟩ := h
  obtain ⟨_, rfl⟩ := run_liftM_eq_ok_iff.1 hkind
  obtain rfl := varAddress_run haddress
  obtain ⟨rfl, _⟩ := pop_run hdrop
  exact ⟨result, f₁, address, hresult, haddress, rfl⟩

theorem simulated_assign (hdiv : exe.runtime.Divides scratch) (hlabels : exe.code.labels.Nodup)
    (heval : value.eval σ = .ok v) :
    Simulated exe p l base scratch σ (one (.assign info (.ident target x) value)) (σ.set x v)
      .normal := by
  intro loops scope f f' code i m hwf hcode hat hd
  have hword := StmtTree.isWordTyped_of_isScalarTyped hwf.typed
  simp only [StmtTree.isWordTyped, Bool.and_eq_true] at hword
  obtain rfl := StmtTree.assignment_frame hword.1.1 hword.1.2 hcode
  have htyped := hwf.typed
  simp only [isScalarTyped, StmtTree.isScalarTyped, ExprTree.isScalarTyped, Bool.and_eq_true,
    beq_iff_eq] at htyped
  obtain ⟨⟨⟨⟨hstack, hscalar⟩, htarget⟩, hvalue⟩, hty⟩ := htyped
  have hscoping := hwf.scoping
  simp only [isScoped, StmtTree.isScoped, Bool.and_eq_true] at hscoping
  obtain ⟨result, f₁, address, hresult, haddress, rfl⟩ := assignVar_run hcode
  have hx : x ∈ scope := ExprTree.reads_subset hscoping.1 (by simp [ExprTree.reads])
  have hfits := ExprTree.fits_of_code hvalue hresult
  have hvty : v.ty = value.ty := ExprTree.ty_of_eval hvalue
    (hd.holds.mono (ExprTree.reads_subset hscoping.2)).typed heval
  have hmirrors := hd.mirrors hdiv hlabels hvalue hscoping.2 hresult hat.left.left
  rw [heval] at hmirrors
  obtain ⟨m₁, hruns, hpushed⟩ := hmirrors
  -- The variable lies at the same place before and after the value is pushed.
  obtain rfl := ExprTree.frame_eq_of_code hvalue hresult
  obtain ⟨offset, hoffset, _, rfl⟩ := varAddress_stackVar_run haddress hstack
  have hplace : m₁.reg .sp + .ofInt (f.height + 8 + offset) = base + .ofInt offset := by
    rw [hpushed.sp, hd.sp, ← Word.sub_add_ofInt_add base (f.height + 8) offset,
      ← Word.sub_sub_ofInt]
    rfl
  have hstore : execFrom exe.image (i + result.length) m₁ (Code.of info.span
      [.lw .t0 0 .sp, .sw .t0 (f.height + 8 + offset) .sp]).insts =
      .next ((m₁.set .t0 v.word).store (base + .ofInt offset) v.word) := by
    simp [execFrom, Inst.exec, hpushed.data, hplace]
  have hdropped := hpushed.drop v.word
  have hd' := (hd.of_kept hdropped.sp hfits hdropped.kept).store (by omega) hoffset hx
    (hvty.trans (hty.trans htarget))
  refine ⟨_, ?_, hd'⟩
  rw [Executable.add_length_append, Executable.add_length_append]
  refine (hruns.trans (Executable.runs_block hat.left.right hstore)).trans ?_
  have hdrop := hat.right
  rw [Executable.add_length_append] at hdrop
  rw [Ty.stackBytes_of_isScalar (ExprTree.isScalar_ty hvalue)] at hdrop ⊢
  exact Executable.runs_block hdrop execFrom_dropScalar

theorem simulated_assign_trapped (hdiv : exe.runtime.Divides scratch)
    (hlabels : exe.code.labels.Nodup) (heval : value.eval σ = .error .divisionByZero) :
    Simulated exe p l base scratch σ (one (.assign info (.ident target x) value)) σ .trapped := by
  intro loops scope f f' code i m hwf hcode hat hd
  have htyped := hwf.typed
  simp only [isScalarTyped, StmtTree.isScalarTyped, Bool.and_eq_true] at htyped
  have hscoping := hwf.scoping
  simp only [isScoped, StmtTree.isScoped, Bool.and_eq_true] at hscoping
  obtain ⟨result, f₁, address, hresult, _, rfl⟩ := assignVar_run hcode
  have hmirrors := hd.mirrors hdiv hlabels htyped.1.2 hscoping.2 hresult hat.left.left
  rwa [heval] at hmirrors

end Assignments

/-! ## Choices -/

section Choices

variable {info : StmtInfo} {cond : ExprTree} {thenStmt elseStmt : Unit → StmtTree} {b : Bool}

theorem WellFormed.ifThen (h : (one (.ifThen info cond thenStmt)).WellFormed p loops scope) :
    (cond.isScalarTyped p ∧ cond.isScoped scope) ∧
      (one (thenStmt ())).WellFormed p loops scope := by
  have htyped := h.typed
  have hscoping := h.scoping
  simp only [isScalarTyped, StmtTree.isScalarTyped, Bool.and_eq_true] at htyped
  simp only [isScoped, StmtTree.isScoped, Bool.and_eq_true] at hscoping
  refine ⟨⟨htyped.1.1, hscoping.1⟩, h.part htyped.2 hscoping.2 ?_⟩
  exact (List.sublist_append_right _ _).cons _

theorem WellFormed.ifElse
    (h : (one (.ifElse info cond thenStmt elseStmt)).WellFormed p loops scope) :
    (cond.isScalarTyped p ∧ cond.isScoped scope) ∧
      (one (thenStmt ())).WellFormed p loops scope ∧
      (one (elseStmt ())).WellFormed p loops scope := by
  have htyped := h.typed
  have hscoping := h.scoping
  simp only [isScalarTyped, StmtTree.isScalarTyped, Bool.and_eq_true] at htyped
  simp only [isScoped, StmtTree.isScoped, Bool.and_eq_true] at hscoping
  refine ⟨⟨htyped.1.1.1, hscoping.1.1⟩, h.part htyped.1.2 hscoping.1.2 ?_,
    h.part htyped.2 hscoping.2 ?_⟩
  · exact ((List.sublist_append_right _ _).trans (List.sublist_append_left _ _)).cons _
  · exact (List.sublist_append_right _ _).cons _

/-- A condition leaves the frame as it was. -/
theorem frame_eq_of_condition (hcond : cond.isScalarTyped p)
    (h : (condition p l span cond).run f = .ok (code, f')) : f = f' :=
  StmtTree.condition_frame (ExprTree.isWordTyped_of_isScalarTyped hcond)
    (ExprTree.isScalar_ty hcond) h

theorem simulated_ifThen (hdiv : exe.runtime.Divides scratch) (hlabels : exe.code.labels.Nodup)
    (heval : cond.eval σ = .ok (.bool true))
    (hthen : Simulated exe p l base scratch σ (one (thenStmt ())) σ' c) :
    Simulated exe p l base scratch σ (one (.ifThen info cond thenStmt)) σ' c := by
  intro loops scope f f' code i m hwf hcode hat hd
  obtain ⟨⟨hcond, hscoped⟩, hwfThen⟩ := hwf.ifThen
  obtain ⟨test, body, f₁, htest, hbody, rfl⟩ := StmtTree.ifThen_run hcode
  obtain rfl := frame_eq_of_condition hcond htest
  have hchoice := Executable.hasChoice hlabels hat
  obtain ⟨m₁, hruns, hd₁, ht⟩ :=
    hd.runs_condition hdiv hlabels hcond hscoped htest hchoice.testAt heval
  have hcompletes := hthen.inScope hwfThen hbody hchoice.bodyAt hd₁
  exact (hcompletes.continue_at (fun _ => hchoice.fromBody) fun _ h => h).of_runs
    (hruns.trans (hchoice.toBody ht))

theorem simulated_ifThen_skip (hdiv : exe.runtime.Divides scratch) (hlabels : exe.code.labels.Nodup)
    (heval : cond.eval σ = .ok (.bool false)) :
    Simulated exe p l base scratch σ (one (.ifThen info cond thenStmt)) σ .normal := by
  intro loops scope f f' code i m hwf hcode hat hd
  obtain ⟨⟨hcond, hscoped⟩, hwfThen⟩ := hwf.ifThen
  obtain ⟨test, body, f₁, htest, hbody, rfl⟩ := StmtTree.ifThen_run hcode
  obtain rfl := frame_eq_of_condition hcond htest
  have hchoice := Executable.hasChoice hlabels hat
  obtain ⟨m₁, hruns, hd₁, ht⟩ :=
    hd.runs_condition hdiv hlabels hcond hscoped htest hchoice.testAt heval
  obtain ⟨hextends, hheight⟩ := extends_inScope hwfThen hbody
  exact ⟨m₁, (hruns.trans (hchoice.toOther ht)).trans hchoice.fromOther,
    hd₁.of_extends hextends hheight⟩

theorem simulated_ifThen_trapped (hdiv : exe.runtime.Divides scratch)
    (hlabels : exe.code.labels.Nodup) (heval : cond.eval σ = .error .divisionByZero) :
    Simulated exe p l base scratch σ (one (.ifThen info cond thenStmt)) σ .trapped := by
  intro loops scope f f' code i m hwf hcode hat hd
  obtain ⟨⟨hcond, hscoped⟩, _⟩ := hwf.ifThen
  obtain ⟨test, body, f₁, htest, _, rfl⟩ := StmtTree.ifThen_run hcode
  exact hd.runs_condition_trapped hdiv hlabels hcond hscoped htest
    (Executable.hasChoice hlabels hat).testAt heval

theorem simulated_ifElse_then (hdiv : exe.runtime.Divides scratch) (hlabels : exe.code.labels.Nodup)
    (heval : cond.eval σ = .ok (.bool true))
    (hthen : Simulated exe p l base scratch σ (one (thenStmt ())) σ' c) :
    Simulated exe p l base scratch σ (one (.ifElse info cond thenStmt elseStmt)) σ' c := by
  intro loops scope f f' code i m hwf hcode hat hd
  obtain ⟨⟨hcond, hscoped⟩, hwfThen, hwfElse⟩ := hwf.ifElse
  obtain ⟨test, body, other, f₁, f₂, htest, hbody, hother, rfl⟩ := StmtTree.ifElse_run hcode
  obtain rfl := frame_eq_of_condition hcond htest
  have hchoice := Executable.hasChoice hlabels hat
  obtain ⟨m₁, hruns, hd₁, ht⟩ :=
    hd.runs_condition hdiv hlabels hcond hscoped htest hchoice.testAt heval
  have hcompletes := hthen.inScope hwfThen hbody hchoice.bodyAt hd₁
  obtain ⟨hextends, hheight⟩ := extends_inScope hwfElse hother
  exact (hcompletes.continue_at (fun _ => hchoice.fromBody)
    fun _ h => h.of_extends hextends hheight).of_runs (hruns.trans (hchoice.toBody ht))

theorem simulated_ifElse_else (hdiv : exe.runtime.Divides scratch) (hlabels : exe.code.labels.Nodup)
    (heval : cond.eval σ = .ok (.bool false))
    (helse : Simulated exe p l base scratch σ (one (elseStmt ())) σ' c)
    (hexec : Executes σ (one (elseStmt ())) σ' c) :
    Simulated exe p l base scratch σ (one (.ifElse info cond thenStmt elseStmt)) σ' c := by
  intro loops scope f f' code i m hwf hcode hat hd
  obtain ⟨⟨hcond, hscoped⟩, hwfThen, hwfElse⟩ := hwf.ifElse
  obtain ⟨test, body, other, f₁, f₂, htest, hbody, hother, rfl⟩ := StmtTree.ifElse_run hcode
  obtain rfl := frame_eq_of_condition hcond htest
  have hchoice := Executable.hasChoice hlabels hat
  obtain ⟨m₁, hruns, hd₁, ht⟩ :=
    hd.runs_condition hdiv hlabels hcond hscoped htest hchoice.testAt heval
  obtain ⟨hextends, hheight⟩ := extends_inScope hwfThen hbody
  have hd₂ := hd₁.of_extends hextends hheight
  have hcompletes := (helse.inScope hwfElse hother hchoice.otherAt hd₂).continue_at
    (fun _ => hchoice.fromOther) fun _ h => h
  refine (hcompletes.widen hd hextends (List.Subset.refl _) fun loop hloop => ?_).of_runs
    (hruns.trans (hchoice.toOther ht))
  exact hwfThen.around loop (hexec.mem_loops hloop hwfElse.scoping)

theorem simulated_ifElse_trapped (hdiv : exe.runtime.Divides scratch)
    (hlabels : exe.code.labels.Nodup) (heval : cond.eval σ = .error .divisionByZero) :
    Simulated exe p l base scratch σ (one (.ifElse info cond thenStmt elseStmt)) σ .trapped := by
  intro loops scope f f' code i m hwf hcode hat hd
  obtain ⟨⟨hcond, hscoped⟩, _⟩ := hwf.ifElse
  obtain ⟨test, body, other, f₁, f₂, htest, _, _, rfl⟩ := StmtTree.ifElse_run hcode
  exact hd.runs_condition_trapped hdiv hlabels hcond hscoped htest
    (Executable.hasChoice hlabels hat).testAt heval

end Choices

/-! ## Loops -/

section Loops

variable {info : StmtInfo} {cond : ExprTree} {body : Unit → StmtTree}

theorem WellFormed.whileLoop (h : (one (.whileLoop info cond body)).WellFormed p loops scope) :
    (cond.isScalarTyped p ∧ cond.isScoped scope) ∧
      (one (body ())).WellFormed p (info.id :: loops) scope := by
  have htyped := h.typed
  have hscoping := h.scoping
  have hnodup : (Node.stmt info.id :: ((body ()).nodes ++ cond.nodes)).Nodup := h.nodup
  simp only [isScalarTyped, StmtTree.isScalarTyped, Bool.and_eq_true] at htyped
  simp only [isScoped, StmtTree.isScoped, Bool.and_eq_true] at hscoping
  rw [List.nodup_cons, List.mem_append, not_or] at hnodup
  refine ⟨⟨htyped.1.1, hscoping.1⟩, htyped.2, hscoping.2,
    hnodup.2.sublist (List.sublist_append_left _ _), fun loop hloop => ?_⟩
  rcases List.mem_cons.1 hloop with rfl | hloop
  · exact hnodup.1.1
  · exact fun hmem =>
      h.around loop hloop (List.mem_cons_of_mem _ (List.mem_append_left _ hmem))

/-- What is known of a loop before it is executed: its parts, and the frame behind it, which is also
that of the condition. -/
structure LoopAt (exe : Executable) (p : Program) (l : Layout) (loops : List StmtId)
    (scope : List VarId) (info : StmtInfo) (cond : ExprTree) (body : Unit → StmtTree) (f f' : Frame)
    (i stop : Nat) (turn test : Code) : Prop where
  code : exe.HasLoop i stop info.id turn test
  turnCode : (Gen.inScope (body ()).span ((body ()).code p l)).run (f.enterLoop info.id) =
    .ok (turn, f')
  testCode : (condition p l info.span cond).run f' = .ok (test, f')
  turnWellFormed : (one (body ())).WellFormed p (info.id :: loops) scope
  testTyped : cond.isScalarTyped p ∧ cond.isScoped scope
  entered : f.Extends (f.enterLoop info.id) [] [.stmt info.id]
  extends_ : f.Extends f' (body ()).declares (.stmt info.id :: (body ()).nodes)
  height : f'.height = f.height

theorem exists_loopAt (hlabels : exe.code.labels.Nodup)
    (hwf : (one (.whileLoop info cond body)).WellFormed p loops scope)
    (hcode : ((one (.whileLoop info cond body)).code p l).run f = .ok (code, f'))
    (hat : exe.HasAt i code) :
    ∃ turn test, LoopAt exe p l loops scope info cond body f f' i (i + code.length) turn test := by
  obtain ⟨hcond, hwfBody⟩ := hwf.whileLoop
  obtain ⟨turn, test, f₁, hturn, htest, rfl⟩ := StmtTree.whileLoop_run hcode
  obtain rfl := frame_eq_of_condition hcond.1 htest
  obtain ⟨hextends, hheight⟩ := extends_inScope hwfBody hturn
  have hentered : f.Extends (f.enterLoop info.id) [] [.stmt info.id] :=
    .enterLoop f (List.mem_singleton_self _)
  exact ⟨turn, test, Executable.hasLoop hlabels hat, hturn, htest, hwfBody, hcond, hentered,
    hentered.trans hextends, hheight⟩

namespace LoopAt

variable {stop : Nat} {turn test : Code} {b : Bool}

/-- From the begin of a loop control goes to the condition, and behind it. -/
theorem runs_test (h : LoopAt exe p l loops scope info cond body f f' i stop turn test)
    (hdiv : exe.runtime.Divides scratch) (hlabels : exe.code.labels.Nodup)
    (hd : f.Describes p l base scratch σ scope m) (heval : cond.eval σ = .ok (.bool b)) :
    ∃ m', exe.Runs (.line i m) (.line (i + 2 + turn.length + 1 + test.length) m') ∧
      f'.Describes p l base scratch σ scope m' ∧ m'.reg .t0 = .ofBool b := by
  obtain ⟨m', hruns, hd', ht⟩ := (hd.of_extends h.extends_ h.height).runs_condition hdiv hlabels
    h.testTyped.1 h.testTyped.2 h.testCode h.code.testAt heval
  exact ⟨m', (h.code.toEnter.trans h.code.toTest).trans hruns, hd', ht⟩

/-- The variables, and the height of the stack, as before the loop. -/
theorem describes_begin (h : LoopAt exe p l loops scope info cond body f f' i stop turn test)
    {m' : Machine} (hd : f.Describes p l base scratch σ scope m)
    (hd' : f'.Describes p l base scratch σ' scope m') : f.Describes p l base scratch σ' scope m' :=
  hd.leave h.extends_ hd'.holds (List.Subset.refl _) (by rw [hd'.sp, h.height])

/-- A turn of the loop. -/
theorem completes_turn (h : LoopAt exe p l loops scope info cond body f f' i stop turn test)
    (hdiv : exe.runtime.Divides scratch) (hlabels : exe.code.labels.Nodup)
    (hd : f.Describes p l base scratch σ scope m) (heval : cond.eval σ = .ok (.bool true))
    (hbody : Simulated exe p l base scratch σ (one (body ())) σ' c) :
    Completes exe p l base scratch (.line i m) (f.enterLoop info.id) scope (i + 2 + turn.length) f'
      scope σ' c := by
  obtain ⟨m₁, hruns, hd₁, ht⟩ := h.runs_test hdiv hlabels hd heval
  have hd₀ := (h.describes_begin hd hd₁).of_extends h.entered rfl
  exact (hbody.inScope h.turnWellFormed h.turnCode h.code.turnAt hd₀).of_runs
    (hruns.trans (h.code.again ht))

end LoopAt

theorem simulated_while_done (hdiv : exe.runtime.Divides scratch) (hlabels : exe.code.labels.Nodup)
    (heval : cond.eval σ = .ok (.bool false)) :
    Simulated exe p l base scratch σ (one (.whileLoop info cond body)) σ .normal := by
  intro loops scope f f' code i m hwf hcode hat hd
  obtain ⟨turn, test, hloop⟩ := exists_loopAt hlabels hwf hcode hat
  obtain ⟨m₁, hruns, hd₁, ht⟩ := hloop.runs_test hdiv hlabels hd heval
  exact ⟨m₁, hruns.trans (hloop.code.done ht), hd₁⟩

theorem simulated_while_turn (hdiv : exe.runtime.Divides scratch) (hlabels : exe.code.labels.Nodup)
    (heval : cond.eval σ = .ok (.bool true))
    (hbody : Simulated exe p l base scratch σ (one (body ())) σ₁ .normal)
    (hagain : Simulated exe p l base scratch σ₁ (one (.whileLoop info cond body)) σ' c) :
    Simulated exe p l base scratch σ (one (.whileLoop info cond body)) σ' c := by
  intro loops scope f f' code i m hwf hcode hat hd
  obtain ⟨turn, test, hloop⟩ := exists_loopAt hlabels hwf hcode hat
  obtain ⟨m₁, hruns, hd₁⟩ := hloop.completes_turn hdiv hlabels hd heval hbody
  have hcompletes := hagain hwf hcode hat (hloop.describes_begin hd hd₁)
  have hne : i ≠ i + code.length := by
    have hstop := hloop.code.stop_eq
    omega
  exact (hcompletes.of_jump hloop.code.enters hloop.code.line_eq hne nofun).of_runs hruns

theorem simulated_while_break (hdiv : exe.runtime.Divides scratch) (hlabels : exe.code.labels.Nodup)
    (heval : cond.eval σ = .ok (.bool true))
    (hbody : Simulated exe p l base scratch σ (one (body ())) σ' (.broke info.id)) :
    Simulated exe p l base scratch σ (one (.whileLoop info cond body)) σ' .normal := by
  intro loops scope f f' code i m hwf hcode hat hd
  obtain ⟨turn, test, hloop⟩ := exists_loopAt hlabels hwf hcode hat
  obtain ⟨j, m₁, exit, hruns, hj, hexit, hsp, hholds⟩ :=
    hloop.completes_turn hdiv hlabels hd heval hbody
  -- The loop has been entered at the height that it began with.
  have hheight : f.height = exit := by
    simpa [Frame.enterLoop] using hexit
  have hd₁ := hd.leave hloop.entered hholds (List.Subset.refl _) (by rw [hsp, hheight])
  exact ⟨m₁, hruns.trans (hloop.code.left hj), hd₁.of_extends hloop.extends_ hloop.height⟩

theorem simulated_while_abrupt (hdiv : exe.runtime.Divides scratch)
    (hlabels : exe.code.labels.Nodup) (heval : cond.eval σ = .ok (.bool true))
    (hbody : Simulated exe p l base scratch σ (one (body ())) σ' c) (hc : c ≠ .normal)
    (hloop : c ≠ .broke info.id) :
    Simulated exe p l base scratch σ (one (.whileLoop info cond body)) σ' c := by
  intro loops scope f f' code i m hwf hcode hat hd
  obtain ⟨turn, test, hat⟩ := exists_loopAt hlabels hwf hcode hat
  have hcompletes := hat.completes_turn hdiv hlabels hd heval hbody
  refine (hcompletes.widen hd hat.entered (List.Subset.refl _) fun loop hbroke hmem => ?_).of_abrupt
    hc
  rw [List.mem_singleton, Node.stmt.injEq] at hmem
  exact hloop (by rw [hbroke, hmem])

theorem simulated_while_trapped (hdiv : exe.runtime.Divides scratch)
    (hlabels : exe.code.labels.Nodup) (heval : cond.eval σ = .error .divisionByZero) :
    Simulated exe p l base scratch σ (one (.whileLoop info cond body)) σ .trapped := by
  intro loops scope f f' code i m hwf hcode hat hd
  obtain ⟨turn, test, hloop⟩ := exists_loopAt hlabels hwf hcode hat
  have htrapped := (hd.of_extends hloop.extends_ hloop.height).runs_condition_trapped hdiv hlabels
    hloop.testTyped.1 hloop.testTyped.2 hloop.testCode hloop.code.testAt heval
  exact (hloop.code.toEnter.trans hloop.code.toTest).trans htrapped

theorem simulated_break {loop : StmtId} :
    Simulated exe p l base scratch σ (one (.breakFrom info loop)) σ (.broke loop) := by
  intro loops scope f f' code i m hwf hcode hat hd
  obtain ⟨exit, hexit, rfl, rfl⟩ := leaveLoop_run hcode
  obtain ⟨m₁, hruns, hsp, hmem⟩ := Executable.exists_runs_drop (m := m) hat.left
  refine ⟨_, m₁, exit, hruns, hat.right.head, hexit, ?_, fun x hx => ?_⟩
  · rw [hsp, hd.sp, Word.ofInt_sub]
    abel
  · rw [hmem]
    exact hd.holds x hx

end Loops

/-! ## The simulation -/

/-- The code of a task does what an execution of the task does. -/
theorem simulated_of_executes {t : Task} (hdiv : exe.runtime.Divides scratch)
    (hlabels : exe.code.labels.Nodup) (h : Executes σ t σ' c) :
    Simulated exe p l base scratch σ t σ' c := by
  induction h with
  | block _ ih => exact simulated_block ih
  | nil => exact simulated_nil
  | cons _ hexec ihFirst ihRest => exact simulated_cons ihFirst ihRest hexec
  | abrupt _ hc ih => exact simulated_abrupt ih hc
  | localVar heval => exact simulated_localVar hdiv hlabels heval
  | localVarTrap heval => exact simulated_localVar_trapped hdiv hlabels heval
  | assign heval => exact simulated_assign hdiv hlabels heval
  | assignTrap heval => exact simulated_assign_trapped hdiv hlabels heval
  | ifThen heval _ ih => exact simulated_ifThen hdiv hlabels heval ih
  | ifThenSkip heval => exact simulated_ifThen_skip hdiv hlabels heval
  | ifThenTrap heval => exact simulated_ifThen_trapped hdiv hlabels heval
  | ifElseThen heval _ ih => exact simulated_ifElse_then hdiv hlabels heval ih
  | ifElseElse heval hexec ih => exact simulated_ifElse_else hdiv hlabels heval ih hexec
  | ifElseTrap heval => exact simulated_ifElse_trapped hdiv hlabels heval
  | whileDone heval => exact simulated_while_done hdiv hlabels heval
  | whileTurn heval _ _ ihBody ihAgain =>
    exact simulated_while_turn hdiv hlabels heval ihBody ihAgain
  | whileBreak heval _ ih => exact simulated_while_break hdiv hlabels heval ih
  | whileAbrupt heval _ hc hloop ih => exact simulated_while_abrupt hdiv hlabels heval ih hc hloop
  | whileTrap heval => exact simulated_while_trapped hdiv hlabels heval
  | breakFrom => exact simulated_break

end Task

/-! ## Statements on their own -/

namespace StmtTree

/-- The code of a statement does what an execution of the statement does.  A run from its start
comes to its end, with the new store on the stack and the stack pointer where it was, but for a
variable that the statement declares; or to the jump out of a loop around the statement, with the
stack as that loop's code expects it; or it traps.

Nothing is asked of the room below the stack: addresses are modulo 2^32, and the generator itself
takes care that a frame has less than half of them.  The other half is for the variables and the
scratch space of the division routines. -/
theorem completes_of_executes {s : StmtTree} {image : Image} {runtime : Runtime}
    (hcode : (s.code p l).run f = .ok (code, f')) (htyped : s.isScalarTyped p)
    (hscoped : s.isScoped loops scope) (hnodes : s.nodes.Nodup)
    (hloops : ∀ loop ∈ loops, .stmt loop ∉ s.nodes) (hdiv : runtime.Divides scratch)
    (hd : f.Describes p l base scratch σ scope m) (hexec : Executes σ (.one s) σ' c) :
    Completes ⟨code, image, runtime⟩ p l base scratch (.line 0 m) f scope code.length f'
        (s.scopeAfter scope) σ' c ∧
      f'.height = f.height + s.leftBytes := by
  have hwf : (Task.one s).WellFormed p loops scope := ⟨htyped, hscoped, hnodes, hloops⟩
  have hsimulated : Task.Simulated ⟨code, image, runtime⟩ p l base scratch σ (.one s) σ' c :=
    Task.simulated_of_executes hdiv ((labelledBy_code hcode).nodup hnodes) hexec
  have hcompletes := hsimulated hwf hcode (Executable.hasAt_self _) hd
  rw [Nat.zero_add] at hcompletes
  exact ⟨hcompletes, (frame_of_code (isWordTyped_of_isScalarTyped htyped) hcode).2⟩

/-- A search for a divisor: `while (0 < by) { int n = 7 / by; if (n == 3) break; by = by - 1; }`. -/
def divisorSearch : StmtTree :=
  .whileLoop ⟨⟨0⟩, .dummy⟩
    (.binary ⟨⟨0⟩, .dummy, .bool⟩ .lt (fun _ => .int ⟨⟨1⟩, .dummy, .int⟩ 0)
      fun _ => .ident ⟨⟨2⟩, .dummy, .int⟩ ⟨0⟩)
    fun _ => .block ⟨⟨1⟩, .dummy⟩ [
      fun _ => .localVar ⟨⟨2⟩, .dummy⟩ ⟨2⟩
        (.binary ⟨⟨3⟩, .dummy, .int⟩ .div (fun _ => .int ⟨⟨4⟩, .dummy, .int⟩ 7)
          fun _ => .ident ⟨⟨5⟩, .dummy, .int⟩ ⟨0⟩),
      fun _ => .ifThen ⟨⟨3⟩, .dummy⟩
        (.binary ⟨⟨6⟩, .dummy, .bool⟩ .eq (fun _ => .ident ⟨⟨7⟩, .dummy, .int⟩ ⟨2⟩)
          fun _ => .int ⟨⟨8⟩, .dummy, .int⟩ 3)
        fun _ => .breakFrom ⟨⟨4⟩, .dummy⟩ ⟨0⟩,
      fun _ => .assign ⟨⟨5⟩, .dummy⟩ (.ident ⟨⟨9⟩, .dummy, .int⟩ ⟨0⟩)
        (.binary ⟨⟨10⟩, .dummy, .int⟩ .sub (fun _ => .ident ⟨⟨11⟩, .dummy, .int⟩ ⟨0⟩)
          fun _ => .int ⟨⟨12⟩, .dummy, .int⟩ 1)]

theorem completes_divisorSearch : ∃ L data code f', Layout.compute shapes = .ok (L, data) ∧
    (divisorSearch.code shapes L).run .empty = .ok (code, f') ∧
    Completes ⟨code, ⟨fun _ => 0, fun _ => 0⟩, .dividing⟩ shapes L 0x7fff0000 4
        (.line 0 ⟨fun _ => 0x7fff0000, 0, fun _ => 2⟩) .empty [⟨0⟩] code.length f' [⟨0⟩]
        (Store.set (fun _ => .int 2) ⟨2⟩ (.int 3)) .normal ∧
      f'.height = 0 := by
  have hrun : (do
      let laid ← Layout.compute shapes
      let offset ← laid.1.varOffset ⟨0⟩
      let _ ← (divisorSearch.code shapes laid.1).run .empty
      return offset).toOption = some 8 := by decide +kernel
  obtain ⟨offset, hok⟩ := exists_eq_ok_of_isSome (Option.isSome_of_eq_some hrun)
  obtain rfl := Option.some.inj ((congrArg Except.toOption hok).symm.trans hrun)
  obtain ⟨⟨L, data⟩, hcompute, hok⟩ := bind_eq_ok_iff.1 hok
  obtain ⟨offset, hoffset, hok⟩ := bind_eq_ok_iff.1 hok
  obtain ⟨⟨code, f'⟩, hcode, hok⟩ := bind_eq_ok_iff.1 hok
  obtain rfl := pure_eq_ok_iff.1 hok
  have hplace : Frame.empty.stackOffset? shapes L ⟨0⟩ = some 8 :=
    congrArg Except.toOption hoffset
  have hd : Frame.empty.Describes shapes L 0x7fff0000 4 (fun _ => .int 2) [⟨0⟩]
      ⟨fun _ => 0x7fff0000, 0, fun _ => 2⟩ := by
    refine ⟨by decide, by decide, fun x hx => ?_, fun x hx y hy _ => ?_⟩
    · obtain rfl := List.mem_singleton.1 hx
      exact ⟨8, hplace, by decide, by decide, rfl, rfl⟩
    · rw [List.mem_singleton.1 hx, List.mem_singleton.1 hy]
  have hscoped : divisorSearch.isScoped [] [⟨0⟩] := by decide
  refine ⟨L, data, code, f', hcompute, hcode,
    completes_of_executes hcode (by decide) hscoped (by decide) (by simp)
      Runtime.divides_dividing hd ?_⟩
  exact .whileBreak rfl
    (.block (.cons (.localVar rfl) (.abrupt (.ifThen rfl .breakFrom) (by simp))))

end StmtTree

end MipsBackend
