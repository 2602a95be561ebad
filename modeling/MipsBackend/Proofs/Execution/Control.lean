import MipsBackend.Proofs.Code.Frames
import MipsBackend.Proofs.Machine.Runs

/-!
# The jumps of choices and loops

The code of a choice or a loop is that of its parts with branches, jumps and labels between.  Here
it is seen from outside: where the parts stand, and how control gets from one to the next and to the
end.  What the parts do is not looked at, nor is the stack; the lines between the parts change
nothing in the machine.

A choice without alternative has the code of one with an empty alternative.
-/

namespace MipsBackend

open Gen

variable {exe : Executable} {i j : Nat} {m : Machine} {p : Program} {l : Layout} {f f' : Frame}
  {code : Code}

/-! ## Choices -/

/-- The code of a choice. -/
def choiceCode (info : StmtInfo) (test body other : Code) : Code :=
  test ++ Code.of info.span [.branch .beq .t0 .zero (.ifElse info.id)] ++ body
    ++ Code.of info.span [.j (.ifDone info.id), .label (.ifElse info.id)] ++ other
    ++ Code.of info.span [.label (.ifDone info.id)]

/-- The code of a choice stands at line `i`, its parts behind. -/
structure Executable.HasChoice (exe : Executable) (i stop : Nat) (test body other : Code) :
    Prop where
  testAt : exe.HasAt i test
  bodyAt : exe.HasAt (i + test.length + 1) body
  otherAt : exe.HasAt (i + test.length + 1 + body.length + 2) other
  toBody {m : Machine} : m.reg .t0 = .ofBool true →
    exe.Runs (.line (i + test.length) m) (.line (i + test.length + 1) m)
  fromBody {m : Machine} :
    exe.Runs (.line (i + test.length + 1 + body.length) m) (.line stop m)
  toOther {m : Machine} : m.reg .t0 = .ofBool false →
    exe.Runs (.line (i + test.length) m) (.line (i + test.length + 1 + body.length + 2) m)
  fromOther {m : Machine} :
    exe.Runs (.line (i + test.length + 1 + body.length + 2 + other.length) m) (.line stop m)

theorem Executable.hasChoice {info : StmtInfo} {test body other : Code}
    (hlabels : exe.code.labels.Nodup) (hat : exe.HasAt i (choiceCode info test body other)) :
    exe.HasChoice i (i + (choiceCode info test body other).length) test body other := by
  have hstop : i + (choiceCode info test body other).length =
      i + test.length + 1 + body.length + 2 + other.length + 1 := by
    simp [choiceCode, Code.of]
    omega
  have hbranch := hat.left.left.left.left.right
  have hbody := hat.left.left.left.right
  have hjump := hat.left.left.right
  have hother := hat.left.right
  have hdone := hat.right
  simp only [add_length_append] at hbody hjump hother hdone
  have hjumpDone : exe.HasAt (i + test.length + 1 + body.length)
      (Code.of info.span [.j (.ifDone info.id)]) := hjump.left
  have helse : exe.HasAt (i + test.length + 1 + body.length + 1)
      (Code.of info.span [.label (.ifElse info.id)]) := hjump.tail
  have hlineElse := lineOf_eq hlabels helse.head
  have hlineDone := lineOf_eq hlabels hdone.head
  rw [hstop]
  refine ⟨hat.left.left.left.left.left, hbody, hother, fun ht => ?_, ?_, fun ht => ?_,
    runs_label hdone⟩
  · exact runs_branch_next hbranch (by rw [ht]; rfl)
  · exact (runs_j hjumpDone hlineDone).trans (runs_label hdone)
  · exact (runs_branch_taken hbranch hlineElse (by rw [ht]; rfl)).trans (runs_label helse)

namespace StmtTree

theorem ifThen_run {info : StmtInfo} {cond : ExprTree} {thenStmt : Unit → StmtTree}
    (h : ((StmtTree.ifThen info cond thenStmt).code p l).run f = .ok (code, f')) :
    ∃ test body f₁, (condition p l info.span cond).run f = .ok (test, f₁) ∧
      (inScope (thenStmt ()).span ((thenStmt ()).code p l)).run f₁ = .ok (body, f') ∧
      code = choiceCode info test body [] := by
  simp only [StmtTree.code, run_bind_eq_ok_iff, run_pure_eq_ok_iff] at h
  obtain ⟨test, f₁, htest, body, _, hbody, rfl, rfl⟩ := h
  refine ⟨test, body, f₁, htest, hbody, ?_⟩
  simp [choiceCode, Code.of]

theorem ifElse_run {info : StmtInfo} {cond : ExprTree} {thenStmt elseStmt : Unit → StmtTree}
    (h : ((StmtTree.ifElse info cond thenStmt elseStmt).code p l).run f = .ok (code, f')) :
    ∃ test body other f₁ f₂, (condition p l info.span cond).run f = .ok (test, f₁) ∧
      (inScope (thenStmt ()).span ((thenStmt ()).code p l)).run f₁ = .ok (body, f₂) ∧
      (inScope (elseStmt ()).span ((elseStmt ()).code p l)).run f₂ = .ok (other, f') ∧
      code = choiceCode info test body other := by
  simp only [StmtTree.code, run_bind_eq_ok_iff, run_pure_eq_ok_iff] at h
  obtain ⟨test, f₁, htest, body, f₂, hbody, other, _, hother, rfl, rfl⟩ := h
  exact ⟨test, body, other, f₁, f₂, htest, hbody, hother, rfl⟩

end StmtTree

/-! ## Loops -/

/-- The code of a loop.  The condition is tested at the bottom. -/
def loopCode (info : StmtInfo) (turn test : Code) : Code :=
  Code.of info.span [.j (.whileEnter info.id), .label (.whileTop info.id)] ++ turn
    ++ Code.of info.span [.label (.whileEnter info.id)] ++ test
    ++ Code.of info.span [.branch .bne .t0 .zero (.whileTop info.id),
      .label (.breakTarget info.id)]

/-- The code of a loop stands at line `i`, its parts behind. -/
structure Executable.HasLoop (exe : Executable) (i stop : Nat) (id : StmtId) (turn test : Code) :
    Prop where
  enters : exe.code.insts[i]? = some (.j (.whileEnter id))
  line_eq : exe.lineOf (.whileEnter id) = some (i + 2 + turn.length)
  turnAt : exe.HasAt (i + 2) turn
  testAt : exe.HasAt (i + 2 + turn.length + 1) test
  stop_eq : stop = i + 2 + turn.length + 1 + test.length + 2
  toEnter {m : Machine} : exe.Runs (.line i m) (.line (i + 2 + turn.length) m)
  toTest {m : Machine} :
    exe.Runs (.line (i + 2 + turn.length) m) (.line (i + 2 + turn.length + 1) m)
  again {m : Machine} : m.reg .t0 = .ofBool true →
    exe.Runs (.line (i + 2 + turn.length + 1 + test.length) m) (.line (i + 2) m)
  done {m : Machine} : m.reg .t0 = .ofBool false →
    exe.Runs (.line (i + 2 + turn.length + 1 + test.length) m) (.line stop m)
  left {j : Nat} {m : Machine} : exe.code.insts[j]? = some (.j (.breakTarget id)) →
    exe.Runs (.line j m) (.line stop m)

theorem Executable.hasLoop {info : StmtInfo} {turn test : Code}
    (hlabels : exe.code.labels.Nodup) (hat : exe.HasAt i (loopCode info turn test)) :
    exe.HasLoop i (i + (loopCode info turn test).length) info.id turn test := by
  have hstop : i + (loopCode info turn test).length =
      i + 2 + turn.length + 1 + test.length + 2 := by
    simp [loopCode, Code.of]
    omega
  have hstart := hat.left.left.left.left
  have hturn := hat.left.left.left.right
  have henter := hat.left.left.right
  have htest := hat.left.right
  have hend := hat.right
  simp only [add_length_append] at henter htest hend
  have htop : exe.HasAt (i + 1) (Code.of info.span [.label (.whileTop info.id)]) := hstart.tail
  have hbranch : exe.HasAt (i + 2 + turn.length + 1 + test.length)
      (Code.of info.span [.branch .bne .t0 .zero (.whileTop info.id)]) := hend.left
  have hbreak : exe.HasAt (i + 2 + turn.length + 1 + test.length + 1)
      (Code.of info.span [.label (.breakTarget info.id)]) := hend.tail
  have hjump : exe.HasAt i (Code.of info.span [.j (.whileEnter info.id)]) := hstart.left
  have hlineEnter := lineOf_eq hlabels henter.head
  have hlineTop := lineOf_eq hlabels htop.head
  have hlineBreak := lineOf_eq hlabels hbreak.head
  refine ⟨hstart.head, hlineEnter, hturn, htest, hstop, runs_j hjump hlineEnter,
    runs_label henter, fun ht => ?_, fun ht => ?_, fun hj => ?_⟩
  · exact (runs_branch_taken hbranch hlineTop (by rw [ht]; rfl)).trans (runs_label htop)
  · rw [hstop]
    exact (runs_branch_next hbranch (by rw [ht]; rfl)).trans (runs_label hbreak)
  · rw [hstop]
    refine Runs.trans (.single ?_) (runs_label hbreak)
    simp only [step_line hj (by simp), Inst.exec, resume, hlineBreak]

theorem StmtTree.whileLoop_run {info : StmtInfo} {cond : ExprTree} {body : Unit → StmtTree}
    (h : ((StmtTree.whileLoop info cond body).code p l).run f = .ok (code, f')) :
    ∃ turn test f₁,
      (inScope (body ()).span ((body ()).code p l)).run (f.enterLoop info.id) = .ok (turn, f₁) ∧
      (condition p l info.span cond).run f₁ = .ok (test, f') ∧
      code = loopCode info turn test := by
  simp only [StmtTree.code, run_bind_eq_ok_iff, run_pure_eq_ok_iff] at h
  obtain ⟨_, _, henter, turn, f₁, hturn, test, _, htest, rfl, rfl⟩ := h
  obtain rfl := run_modify_eq_ok_iff.1 henter
  exact ⟨turn, test, f₁, hturn, htest, rfl⟩

end MipsBackend
