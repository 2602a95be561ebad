import MipsBackend.Proofs.Execution.Expressions

/-!
# Where the code of an expression calls

The code of an expression leaves for a routine of the runtime library or a method at its calls and
at the branches that trap.  `ExprTree.calls` lists these points in order.  For each it tells the
line, the callee and the operands that are pending there: those whose values the code has pushed,
and has not used up yet.

Operands are pending behind their own code, so the points of an operator are those of its operands,
each behind the operands before it, and then its own (`Gen.behind`).  `ExprTree.hasCalls_code` shows
that no line of the code that leaves is missing in the list.
-/

namespace MipsBackend

open Gen

/-- What is called: a routine of the runtime library, or a method as it is declared, whichever
method overrides it. -/
inductive Callee where
  | routine (r : Routine)
  | method (id : MethodId)
deriving DecidableEq

/-- A line of code that calls, and the types of the operands that are pending there. -/
structure CallPoint where
  line : Nat
  callee : Callee
  pending : List Ty
deriving DecidableEq

/-- The point in code that stands behind other code, which has pushed operands. -/
def CallPoint.shift (lines : Nat) (tys : List Ty) (c : CallPoint) : CallPoint :=
  ⟨lines + c.line, c.callee, tys ++ c.pending⟩

/-- The instruction may lead to a routine of the runtime library or a method. -/
def Inst.leaves : Inst → Bool
  | .jal _ | .jalr _ | .branch _ _ _ (.runtime _) => true
  | _ => false

/-- The instruction calls a routine or a method.  A call through a table may be one of any
method. -/
inductive Inst.Calls (p : Program) : Inst → Callee → Prop where
  | routine (r : Routine) : Calls p (.callRoutine r) (.routine r)
  | trap (op : BranchOp) (rs rt : Reg) (r : Routine) :
    Calls p (.branch op rs rt (.runtime r)) (.routine r)
  | direct {id : MethodId} {label : Label} : p.methodLabel id = .ok label →
    Calls p (.jal label) (.method id)
  | table (rs : Reg) (id : MethodId) : Calls p (.jalr rs) (.method id)

variable {p : Program} {l : Layout} {f f' : Frame} {span : Span} {code code' : Code}
  {points points' : List CallPoint} {c c' : CallPoint} {inst : Inst} {insts : List Inst} {i : Nat}

theorem Inst.Calls.leaves {callee : Callee} (h : inst.Calls p callee) : inst.leaves := by
  cases h <;> rfl

/-! ## The points of an expression -/

/-- The points of what comes behind a generator, whose code pushes operands. -/
def Gen.behind (gen : Gen Code) (f : Frame) (tys : List Ty) (next : Frame → List CallPoint) :
    List CallPoint :=
  match gen.run f with
  | .ok (code, f') => (next f').map (.shift code.length tys)
  | .error _ => []

theorem Gen.behind_eq {gen : Gen Code} {tys : List Ty} {next : Frame → List CallPoint}
    (h : gen.run f = .ok (code, f')) :
    gen.behind f tys next = (next f').map (.shift code.length tys) := by
  simp only [behind, h]

/-- The points of an operator that evaluates both operands, behind these. -/
def BinOp.calls : BinOp → List CallPoint
  | .div => [⟨0, .routine .divide, []⟩]
  | .rem => [⟨0, .routine .remainder, []⟩]
  | _ => []

/-- The points of entering a method, behind the receiver and the arguments. -/
def enterCalls (isSuper : Bool) (method : MethodId) : List CallPoint :=
  if isSuper then [⟨0, .method method, []⟩]
  else [⟨1, .routine .nullPtrException, []⟩, ⟨4, .method method, []⟩]

namespace ExprTree

mutual

/-- The points of the code of an expression, in the order of their lines. -/
def calls (p : Program) (l : Layout) : ExprTree → Frame → List CallPoint
  | .broken _ _, _ | .int _ _, _ | .str _ _, _ | .bool _ _, _ | .null _, _ | .this _, _
  | .super _, _ | .ident _ _, _ => []
  | .not _ e, f => (e ()).calls p l f
  | .binary _ op lhs rhs, f =>
    (lhs ()).calls p l f ++
      if op.isShortCircuit then
        -- A test, a branch and a drop come before the right operand.
        behind ((lhs ()).code p l) f [] fun f =>
          ((rhs ()).calls p l { f with height := f.height - 2 * wordSize }).map (.shift 3 [])
      else
        behind ((lhs ()).code p l) f [(lhs ()).ty] fun f =>
          (rhs ()).calls p l f ++ behind ((rhs ()).code p l) f [(rhs ()).ty] fun _ => op.calls
  | .arrayLength _ e, f | .field _ e _, f =>
    (e ()).calls p l f ++ behind ((e ()).code p l) f [(e ()).ty] fun _ =>
      [⟨1, .routine .nullPtrException, []⟩]
  | .index _ array i, f =>
    (array ()).calls p l f ++ behind ((array ()).code p l) f [(array ()).ty] fun f =>
      (i ()).calls p l f ++ behind ((i ()).code p l) f [(i ()).ty] fun _ =>
        [⟨1, .routine .nullPtrException, []⟩, ⟨4, .routine .arrayIndexOutOfBounds, []⟩]
  | .instanceOf _ e _, f =>
    (e ()).calls p l f ++ behind ((e ()).code p l) f [(e ()).ty] fun _ =>
      [⟨2, .routine .instanceOf, []⟩]
  | .cast _ ty e, f =>
    (e ()).calls p l f ++ behind ((e ()).code p l) f [(e ()).ty] fun _ =>
      match p.isSubtype (e ()).ty ty with
      | .ok false => [⟨2, .routine .checkCast, []⟩]
      | _ => []
  | .new _ _, _ => [⟨2, .routine .newObject, []⟩]
  | .newArray _ _ size, f =>
    -- The length is in `$s7` by then, and no longer on the stack.
    (size ()).calls p l f ++ behind ((size ()).code p l) f [] fun _ =>
      [⟨3, .routine .newObject, []⟩]
  | .call _ receiver method args, f =>
    (receiver ()).calls p l f ++ behind ((receiver ()).code p l) f [(receiver ()).ty] fun f =>
      callsAll p l args f ++ behind (codeAll p l args) f (args.map fun arg => (arg ()).ty) fun _ =>
        enterCalls (receiver ()).isSuper method

/-- The points of the code of some expressions that are evaluated in order. -/
def callsAll (p : Program) (l : Layout) : List (Unit → ExprTree) → Frame → List CallPoint
  | [], _ => []
  | e :: es, f =>
    (e ()).calls p l f ++ behind ((e ()).code p l) f [(e ()).ty] (callsAll p l es)

end

end ExprTree

/-! ## The lines that leave -/

/-- The points are those of the lines that leave, in order.  The code starts at line `i`. -/
inductive Code.HasCalls (p : Program) : Nat → Code → List CallPoint → Prop where
  | nil {i : Nat} : HasCalls p i [] []
  | line {i : Nat} {span : Span} {inst : Inst} {code : Code} {points : List CallPoint} :
    inst.leaves = false → HasCalls p (i + 1) code points →
    HasCalls p i (⟨span, inst⟩ :: code) points
  | call {i : Nat} {span : Span} {inst : Inst} {callee : Callee} {pending : List Ty} {code : Code}
    {points : List CallPoint} : inst.Calls p callee → HasCalls p (i + 1) code points →
    HasCalls p i (⟨span, inst⟩ :: code) (⟨i, callee, pending⟩ :: points)

namespace Code.HasCalls

/-- Lines that do not leave are no points. -/
theorem of_all (h : code.insts.all fun inst => !inst.leaves) : HasCalls p i code [] := by
  induction code generalizing i with
  | nil => exact .nil
  | cons line code ih =>
    rw [insts, List.map_cons, List.all_cons, Bool.and_eq_true, Bool.not_eq_true'] at h
    exact .line h.1 (ih h.2)

theorem append (h : HasCalls p i code points) (h' : HasCalls p (i + code.length) code' points') :
    HasCalls p i (code ++ code') (points ++ points') := by
  induction h with
  | nil => exact h'
  | line hline _ ih =>
    refine .line hline (ih ?_)
    rwa [List.length_cons, Nat.add_comm _ 1, ← Nat.add_assoc] at h'
  | call hcalls _ ih =>
    refine .call hcalls (ih ?_)
    rwa [List.length_cons, Nat.add_comm _ 1, ← Nat.add_assoc] at h'

/-- Lines that do not leave are no points behind others. -/
theorem append_of_all (h : HasCalls p i code points)
    (hall : code'.insts.all fun inst => !inst.leaves) : HasCalls p i (code ++ code') points := by
  rw [← List.append_nil points]
  exact h.append (.of_all hall)

theorem shift (h : HasCalls p i code points) (lines : Nat) (tys : List Ty) :
    HasCalls p (lines + i) code (points.map (.shift lines tys)) := by
  induction h with
  | nil => exact .nil
  | line hline _ ih => exact .line hline ih
  | call hcalls _ ih => exact .call hcalls ih

/-- Code behind other code, which has pushed operands. -/
theorem behind (h : HasCalls p 0 code points) (h' : HasCalls p 0 code' points') (tys : List Ty) :
    HasCalls p 0 (code ++ code') (points ++ points'.map (.shift code.length tys)) := by
  refine h.append ?_
  rw [Nat.zero_add]
  exact h'.shift code.length tys

theorem le_line (h : HasCalls p i code points) (hc : c ∈ points) : i ≤ c.line := by
  induction h with
  | nil => cases hc
  | line _ _ ih => exact Nat.le_of_succ_le (ih hc)
  | call _ _ ih =>
    rcases List.mem_cons.1 hc with rfl | hc
    · exact Nat.le_refl _
    · exact Nat.le_of_succ_le (ih hc)

/-- There is one point at a line. -/
theorem eq_of_line_eq (h : HasCalls p i code points) (hc : c ∈ points) (hc' : c' ∈ points)
    (heq : c.line = c'.line) : c = c' := by
  induction h with
  | nil => cases hc
  | line _ _ ih => exact ih hc hc'
  | call _ hrest ih =>
    rcases List.mem_cons.1 hc with rfl | hc
    · rcases List.mem_cons.1 hc' with rfl | hc'
      · rfl
      · exact absurd (heq ▸ hrest.le_line hc') (Nat.not_succ_le_self _)
    · rcases List.mem_cons.1 hc' with rfl | hc'
      · exact absurd (heq ▸ hrest.le_line hc) (Nat.not_succ_le_self _)
      · exact ih hc hc'

/-- At every point the code leaves for the callee. -/
theorem exists_calls (h : HasCalls p i code points) (hc : c ∈ points) :
    ∃ j inst, c.line = i + j ∧ code.insts[j]? = some inst ∧ inst.Calls p c.callee := by
  induction h with
  | nil => cases hc
  | line _ _ ih =>
    obtain ⟨j, inst, hline, hinst, hcalls⟩ := ih hc
    exact ⟨j + 1, inst, by omega, hinst, hcalls⟩
  | call hcalls _ ih =>
    rcases List.mem_cons.1 hc with rfl | hc
    · exact ⟨0, _, rfl, rfl, hcalls⟩
    · obtain ⟨j, inst, hline, hinst, hcalls⟩ := ih hc
      exact ⟨j + 1, inst, by omega, hinst, hcalls⟩

/-- Wherever the code leaves, there is a point. -/
theorem exists_of_leaves (h : HasCalls p i code points) {j : Nat}
    (hinst : code.insts[j]? = some inst) (hleaves : inst.leaves) :
    ∃ c ∈ points, c.line = i + j ∧ inst.Calls p c.callee := by
  induction h generalizing j with
  | nil => cases hinst
  | line hline _ ih =>
    cases j with
    | zero =>
      obtain rfl := Option.some.inj hinst
      rw [hline] at hleaves
      cases hleaves
    | succ j =>
      obtain ⟨c, hc, hline, hcalls⟩ := ih hinst
      exact ⟨c, hc, by omega, hcalls⟩
  | call hcalls _ ih =>
    cases j with
    | zero =>
      obtain rfl := Option.some.inj hinst
      exact ⟨_, List.mem_cons_self, rfl, hcalls⟩
    | succ j =>
      obtain ⟨c, hc, hline, hcalls⟩ := ih hinst
      exact ⟨c, List.mem_cons_of_mem _ hc, by omega, hcalls⟩

end Code.HasCalls

/-! ## Expressions

Each operator is opened into the code of its operands and the instructions behind them. -/

/-- The code of an operator that compares two references, which have no tag words. -/
def comparisonCode (span : Span) (op : BinOp) : Code :=
  Code.of span ([.lw .t0 0 .sp, .lw .t1 wordSize .sp] ++ combine op
    ++ [.sw .s5 wordSize .sp, .sw .t0 0 .sp])

/-- The code of an operator behind its operands: a call of the library to divide, and the operator's
instruction else. -/
theorem Gen.applyOperator_run {op : BinOp} {onReferences : Bool}
    (h : (applyOperator span op onReferences).run f = .ok (code, f')) :
    (op = .div ∧ code = Code.of span [.callRoutine .divide]) ∨
      (op = .rem ∧ code = Code.of span [.callRoutine .remainder]) ∨
      op.calls = [] ∧ code =
        if op = .eq ∧ onReferences then comparisonCode span op else operatorCode span op := by
  cases op with
  | div => exact Or.inl ⟨rfl, (callDivision_run h).1⟩
  | rem => exact Or.inr (Or.inl ⟨rfl, (callDivision_run h).1⟩)
  | _ =>
    refine Or.inr (Or.inr ⟨rfl, ?_⟩)
    dsimp only [applyOperator] at h
    split at h
    · rename_i hcompares
      rw [if_pos hcompares]
      exact (run_pure_eq_ok_iff.1 h).1.symm
    · rename_i hcompares
      rw [if_neg hcompares]
      simp only [run_bind_eq_ok_iff, run_pure_eq_ok_iff] at h
      obtain ⟨drop, _, hdrop, rfl, _⟩ := h
      obtain ⟨rfl, _⟩ := pop_run hdrop
      rfl

theorem Code.hasCalls_applyOperator {op : BinOp} {onReferences : Bool}
    (h : (applyOperator span op onReferences).run f = .ok (code, f')) :
    HasCalls p 0 code op.calls := by
  rcases applyOperator_run h with ⟨rfl, rfl⟩ | ⟨rfl, rfl⟩ | ⟨hnone, rfl⟩
  · exact .call (.routine _) .nil
  · exact .call (.routine _) .nil
  · rw [hnone]
    split
    · cases op <;> exact .of_all rfl
    · cases op <;> exact .of_all rfl

theorem Code.hasCalls_loadElement {ty : Ty}
    (h : (loadElement span ty).run f = .ok (code, f')) :
    HasCalls p 0 code
      [⟨1, .routine .nullPtrException, []⟩, ⟨4, .routine .arrayIndexOutOfBounds, []⟩] := by
  have hfetch : HasCalls p 0 (Code.of span ([.lw .t0 (2 * wordSize) .sp, .nullCheck .t0,
      .lw .t1 arrayLengthOffset .t0, .lw .t2 0 .sp, .boundsCheck .t2 .t1]
        ++ Inst.elementAddress .t2 .t0 ++ [.lw .t0 0 .t2]))
      [⟨1, .routine .nullPtrException, []⟩, ⟨4, .routine .arrayIndexOutOfBounds, []⟩] :=
    .line rfl (.call (.trap _ _ _ _) (.line rfl (.line rfl (.call (.trap _ _ _ _) (.of_all rfl)))))
  simp only [loadElement] at h
  split at h
  all_goals
    simp only [run_bind_eq_ok_iff, run_pure_eq_ok_iff] at h
    obtain ⟨drop, _, hdrop, rfl, _⟩ := h
    obtain ⟨rfl, _⟩ := pop_run hdrop
    rw [List.append_assoc]
    exact hfetch.append_of_all rfl

theorem Code.hasCalls_enter {isSuper : Bool} {method : MethodId} {enter : List Inst}
    (h : Enters p l isSuper method enter) :
    HasCalls p 0 (.of span enter) (enterCalls isSuper method) := by
  cases isSuper with
  | true =>
    obtain ⟨label, hlabel, rfl⟩ := h
    exact .call (.direct hlabel) .nil
  | false =>
    obtain ⟨m, _, rfl⟩ := h.exists_loadEntry
    exact .line rfl (.call (.trap _ _ _ _) (.line rfl (.line rfl (.call (.table _ _) .nil))))

namespace ExprTree

variable {e : ExprTree} {es : List (Unit → ExprTree)}

theorem hasCalls_codeAll
    (heach : ∀ e ∈ es, ∀ {f f' code}, ((e ()).code p l).run f = .ok (code, f') →
      Code.HasCalls p 0 code ((e ()).calls p l f))
    (h : (codeAll p l es).run f = .ok (code, f')) :
    Code.HasCalls p 0 code (callsAll p l es f) := by
  induction es generalizing f f' code with
  | nil =>
    obtain ⟨rfl, _⟩ := run_pure_eq_ok_iff.1 h
    exact .nil
  | cons e es ih =>
    rw [List.forall_mem_cons] at heach
    simp only [codeAll, run_bind_eq_ok_iff, run_pure_eq_ok_iff] at h
    obtain ⟨first, f₁, hfirst, rest, _, hrest, rfl, _⟩ := h
    rw [callsAll, behind_eq hfirst]
    exact (heach.1 hfirst).behind (ih heach.2 hrest) _

/-- The points of an expression are those of the lines of its code that leave. -/
theorem hasCalls_code (h : (e.code p l).run f = .ok (code, f')) :
    Code.HasCalls p 0 code (e.calls p l f) := by
  induction e generalizing f f' code with
  | broken id fault => simp only [ExprTree.code, run_throw_ne_ok] at h
  | int info n =>
    simp only [ExprTree.code, run_bind_eq_ok_iff, run_pure_eq_ok_iff] at h
    obtain ⟨push, _, hpush, rfl, _⟩ := h
    obtain ⟨rfl, _⟩ := pushScalar_run hpush
    exact .of_all rfl
  | bool info b =>
    cases b with
    | true =>
      simp only [ExprTree.code, run_bind_eq_ok_iff, run_pure_eq_ok_iff] at h
      obtain ⟨push, _, hpush, rfl, _⟩ := h
      obtain ⟨rfl, _⟩ := pushScalar_run hpush
      exact .of_all rfl
    | false =>
      obtain ⟨rfl, _⟩ := pushScalar_run h
      exact .of_all rfl
  | str info text =>
    simp only [ExprTree.code, run_bind_eq_ok_iff, run_pure_eq_ok_iff] at h
    obtain ⟨push, _, hpush, rfl, _⟩ := h
    obtain ⟨rfl, _⟩ := pushReference_run hpush
    exact .of_all rfl
  | null | this | super =>
    obtain ⟨rfl, _⟩ := pushReference_run h
    exact .of_all rfl
  | ident info x =>
    simp only [ExprTree.code, run_bind_eq_ok_iff, run_pure_eq_ok_iff, pushValue] at h
    obtain ⟨⟨offset, base⟩, _, _, push, _, hpush, rfl, _⟩ := h
    split at hpush
    · obtain ⟨rfl, _⟩ := pushScalar_run hpush
      exact .of_all rfl
    · obtain ⟨rfl, _⟩ := pushReference_run hpush
      exact .of_all rfl
  | not info operand ih =>
    simp only [ExprTree.code, run_bind_eq_ok_iff, run_pure_eq_ok_iff] at h
    obtain ⟨value, _, hvalue, rfl, _⟩ := h
    exact (ih hvalue).append_of_all rfl
  | binary info op lhs rhs ihLeft ihRight =>
    obtain ⟨left, rest, f₁, hleft, rfl, hrest⟩ := binary_run h
    rw [calls, behind_eq hleft, behind_eq hleft]
    by_cases hop : op.isShortCircuit
    · rw [if_pos hop] at hrest ⊢
      obtain ⟨right, hright, rfl⟩ := hrest
      have htest : Code.HasCalls p 0 (Code.of info.span [.lw .t0 0 .sp] ++ Code.of info.span
          [.branch (if op = .and then .beq else .bne) .t0 .zero (.skip info.id)]
          ++ dropCode info.span (2 * wordSize)) [] := .of_all rfl
      exact (ihLeft hleft).behind ((htest.behind (ihRight hright) []).append_of_all rfl) _
    · rw [if_neg hop] at hrest ⊢
      obtain ⟨right, apply, f₂, hright, happly, rfl⟩ := hrest
      rw [behind_eq hright]
      exact (ihLeft hleft).behind ((ihRight hright).behind (Code.hasCalls_applyOperator happly) _) _
  | arrayLength info array ih =>
    simp only [ExprTree.code, run_bind_eq_ok_iff, run_pure_eq_ok_iff] at h
    obtain ⟨base, f₁, hbase, push, _, hpush, rfl, _⟩ := h
    obtain ⟨rfl, _⟩ := tagTop_run hpush
    rw [calls, behind_eq hbase, List.append_assoc]
    exact (ih hbase).behind (.line rfl (.call (.trap _ _ _ _) (.of_all rfl))) _
  | index info array i ihArray ihIndex =>
    simp only [ExprTree.code, run_bind_eq_ok_iff, run_pure_eq_ok_iff] at h
    obtain ⟨base, f₁, hbase, position, f₂, hposition, load, _, hload, rfl, _⟩ := h
    rw [calls, behind_eq hbase, behind_eq hposition, List.append_assoc]
    exact (ihArray hbase).behind ((ihIndex hposition).behind (Code.hasCalls_loadElement hload) _) _
  | field info object x ih =>
    simp only [ExprTree.code, run_bind_eq_ok_iff, run_pure_eq_ok_iff, run_liftM_eq_ok_iff,
      loadField] at h
    obtain ⟨base, f₁, hbase, offset, _, _, load, _, hload, rfl, _⟩ := h
    rw [calls, behind_eq hbase]
    refine (ih hbase).behind ?_ _
    split at hload
    · simp only [run_bind_eq_ok_iff, run_pure_eq_ok_iff] at hload
      obtain ⟨push, _, hpush, rfl, _⟩ := hload
      obtain ⟨rfl, _⟩ := tagTop_run hpush
      exact .line rfl (.call (.trap _ _ _ _) (.of_all rfl))
    · obtain ⟨rfl, _⟩ := run_pure_eq_ok_iff.1 hload
      exact .line rfl (.call (.trap _ _ _ _) (.of_all rfl))
  | instanceOf info operand ty ih =>
    simp only [ExprTree.code, run_bind_eq_ok_iff, run_pure_eq_ok_iff, run_liftM_eq_ok_iff] at h
    obtain ⟨value, f₁, hvalue, range, _, ⟨hrange, rfl⟩, push, _, hpush, rfl, _⟩ := h
    obtain ⟨start, stop, rfl⟩ := loadClassRange_eq_ok hrange
    obtain ⟨rfl, _⟩ := tagTop_run hpush
    rw [calls, behind_eq hvalue, List.append_assoc]
    exact (ih hvalue).behind (.line rfl (.line rfl (.call (.routine _) (.of_all rfl)))) _
  | cast info ty operand ih =>
    simp only [ExprTree.code, run_bind_eq_ok_iff, run_liftM_eq_ok_iff] at h
    obtain ⟨value, f₁, hvalue, narrows, _, ⟨hnarrows, rfl⟩, h⟩ := h
    rw [calls, behind_eq hvalue, hnarrows]
    cases narrows with
    | true =>
      obtain ⟨rfl, _⟩ := run_pure_eq_ok_iff.1 h
      simpa using ih hvalue
    | false =>
      simp only [Bool.false_eq_true, if_false, run_bind_eq_ok_iff, run_pure_eq_ok_iff,
        run_liftM_eq_ok_iff] at h
      obtain ⟨range, _, ⟨hrange, rfl⟩, rfl, _⟩ := h
      obtain ⟨start, stop, rfl⟩ := loadClassRange_eq_ok hrange
      exact (ih hvalue).behind (.line rfl (.line rfl (.call (.routine _) .nil))) _
  | new info c =>
    obtain ⟨_, _, _, _, _, _, rfl⟩ := new_run h
    exact .line rfl (.line rfl (.call (.routine _) (.of_all rfl)))
  | newArray info elem size ih =>
    simp only [ExprTree.code, run_bind_eq_ok_iff, run_pure_eq_ok_iff] at h
    obtain ⟨length, f₁, hlength, drop, _, hdrop, _, _, _, record, _, _, rfl, _⟩ := h
    obtain ⟨rfl, _⟩ := pop_run hdrop
    rw [calls, behind_eq hlength, List.append_assoc, List.append_assoc]
    exact (ih hlength).behind
      (.line rfl (.line rfl (.line rfl (.call (.routine _) (.of_all rfl))))) _
  | call info receiver method args ihReceiver ihArgs =>
    obtain ⟨decl, target, passed, enter, f₁, f₂, _, _, htarget, hpassed, henter, _, rfl⟩ :=
      call_run h
    have hargs := hasCalls_codeAll (fun arg harg _ _ _ => ihArgs arg harg) hpassed
    rw [calls, behind_eq htarget, behind_eq hpassed, List.append_assoc]
    exact (ihReceiver htarget).behind (hargs.behind (Code.hasCalls_enter henter) _) _

end ExprTree

end MipsBackend
