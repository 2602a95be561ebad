import MipsBackend.Proofs.Code.Frames
import MipsBackend.Proofs.Execution.Values

/-!
# Running the code of scalar expressions

The code of a typed scalar expression pushes the expression's value, and traps where the evaluation
divides by zero.  The proof is by induction on the expression.  It places the code anywhere in an
executable and lets variables lie anywhere below a fixed `base`: pushing temporaries moves the stack
pointer and the height of the frame together, so a variable's distance from `base` stays what it was
when the variable was declared (`Frame.stackOffset?`).  The scratch space of the division routines
moves along below the stack pointer; it must not reach around to the variables.

`ExprTree.mirrors_code` is that induction.  `ExprTree.computes_of_code` says of the code of an
expression alone what its runs do, in terms of the addresses that the generator computes.
-/

namespace MipsBackend

open Gen

variable {p : Program} {l : Layout} {f f' : Frame} {e : ExprTree} {code : Code} {span : Span}
  {σ : Store} {x : VarId} {vars : List VarId} {base : Word} {scratch : Nat}

/-! ## Variables -/

/-- Where a stack variable lies, counted from the stack pointer of the empty frame. -/
def Frame.stackOffset? (f : Frame) (p : Program) (l : Layout) (x : VarId) : Option Int :=
  match p.varAt x with
  | .ok ⟨_, _, _, .formal _⟩ => (l.varOffset x).toOption
  | .ok ⟨_, _, _, .localVar _⟩ => f.locals.lookup x
  | _ => none

/-- A stack variable is addressed from the stack pointer, by the height of the frame. -/
theorem Gen.varAddress_stackVar_run {address : Int × Reg}
    (h : (varAddress p l x).run f = .ok (address, f')) (hstack : p.isStackVar x) :
    ∃ offset, f.stackOffset? p l x = some offset ∧ Offset.Fits (f.height + offset) ∧
      address = (f.height + offset, .sp) := by
  rw [varAddress, run_bind_eq_ok_iff] at h
  obtain ⟨⟨name, span, ty, kind⟩, _, hfound, h⟩ := h
  obtain ⟨hdecl, rfl⟩ := run_liftM_eq_ok_iff.1 hfound
  rw [Frame.stackOffset?, hdecl]
  cases kind with
  | instVar c => simp [Program.isStackVar, hdecl] at hstack
  | formal method =>
    simp only [run_bind_eq_ok_iff, run_liftM_eq_ok_iff, run_pure_eq_ok_iff, height_run, Offset.add,
      Offset.checked_eq_ok_iff] at h
    obtain ⟨offset, _, ⟨hoffset, rfl⟩, _, _, ⟨rfl, rfl⟩, _, _, ⟨⟨hfits, rfl⟩, rfl⟩, rfl, _⟩ := h
    exact ⟨offset, by rw [hoffset]; rfl, hfits, rfl⟩
  | localVar init =>
    simp only [run_bind_eq_ok_iff, run_liftM_eq_ok_iff, run_pure_eq_ok_iff, run_get_eq_ok_iff,
      height_run, Offset.add, Offset.checked_eq_ok_iff] at h
    obtain ⟨_, _, ⟨rfl, rfl⟩, offset, _, ⟨hoffset, rfl⟩, _, _, ⟨rfl, rfl⟩, _, _,
      ⟨⟨hfits, rfl⟩, rfl⟩, rfl, _⟩ := h
    exact ⟨offset, Frame.localOffset_eq_ok_iff.1 hoffset, hfits, rfl⟩

/-- The machine holds the values of variables.  They lie at or above the stack pointer, which is as
far below `base` as the frame is high, and less than 2^31 bytes above `base` and the `scratch` bytes
that library routines use. -/
def Frame.Holds (f : Frame) (p : Program) (l : Layout) (base : Word) (scratch : Nat) (σ : Store)
    (vars : List VarId) (m : Machine) : Prop :=
  ∀ x ∈ vars, ∃ offset, f.stackOffset? p l x = some offset ∧ -f.height ≤ offset ∧
    offset + scratch < 2 ^ 31 ∧ (σ x).ty = p.varTy x ∧ m.mem (base + .ofInt offset) = (σ x).word

theorem Word.ofInt_neg (a : Int) : Word.ofInt (-a) = -.ofInt a :=
  BitVec.ofInt_neg

theorem Word.sub_add_ofInt_add (base : Word) (a b : Int) :
    base - .ofInt a + .ofInt (a + b) = base + .ofInt b := by
  rw [Word.ofInt_add]
  abel

/-- What lies at or above the stack pointer is out of reach of what is pushed and of the scratch
space below that. -/
theorem Word.above_of_le {base : Word} {height offset : Int} {room : Nat}
    (hoffset : -height ≤ offset) (hlt : offset + scratch < 2 ^ 31)
    (hroom : height + room < 2 ^ 31) :
    base - .ofInt height - (base + .ofInt offset) = 0 ∨
      room + scratch < (base - .ofInt height - (base + .ofInt offset)).toNat := by
  have hdistance : base - .ofInt height - (base + .ofInt offset) =
      Word.ofInt (-(height + offset)) := by
    rw [Int.neg_add, Word.ofInt_add, Word.ofInt_neg, Word.ofInt_neg]
    abel
  rw [hdistance, ← BitVec.toNat_inj, BitVec.toNat_ofInt]
  simp only [BitVec.ofNat_eq_ofNat, BitVec.toNat_ofNat]
  omega

/-- Pushing and popping temporaries does not change variables. -/
theorem Frame.Holds.of_kept {m m' : Machine} {room : Nat} (h : f.Holds p l base scratch σ vars m)
    (hsp : m.reg .sp = base - .ofInt f.height) (hroom : f.height + room < 2 ^ 31)
    (hkept : m.KeepsAbove m' (room + scratch)) :
    f.Holds p l base scratch σ vars m' := by
  intro x hx
  obtain ⟨offset, hoffset, hle, hlt, hty, hmem⟩ := h x hx
  refine ⟨offset, hoffset, hle, hlt, hty, ?_⟩
  rw [hkept _ (hsp ▸ Word.above_of_le hle hlt hroom), hmem]

/-- Variables stay in place when the frame grows. -/
theorem Frame.Holds.raise {m : Machine} (h : f.Holds p l base scratch σ vars m) {height : Int}
    (hle : f.height ≤ height) : Frame.Holds { f with height } p l base scratch σ vars m := by
  intro x hx
  obtain ⟨offset, hoffset, hle', hrest⟩ := h x hx
  exact ⟨offset, hoffset, by simp only; omega, hrest⟩

theorem Frame.Holds.typed {m : Machine} (h : f.Holds p l base scratch σ vars m) :
    ∀ x ∈ vars, (σ x).ty = p.varTy x := by
  intro x hx
  obtain ⟨_, _, _, _, hty, _⟩ := h x hx
  exact hty

theorem Frame.Holds.mono {m : Machine} {vars' : List VarId}
    (h : f.Holds p l base scratch σ vars m) (hsub : vars' ⊆ vars) :
    f.Holds p l base scratch σ vars' m :=
  fun x hx => h x (hsub hx)

/-- The generator checks that the height after a push is an offset. -/
theorem Gen.pushScalar_fits {reg : Reg} (h : (pushScalar span reg).run f = .ok (code, f')) :
    Offset.Fits (f.height + 2 * wordSize) := by
  simp only [pushScalar, pushed, run_bind_eq_ok_iff, run_get_eq_ok_iff, run_liftM_eq_ok_iff,
    run_set_eq_ok_iff] at h
  obtain ⟨_, _, ⟨_, _, ⟨rfl, rfl⟩, _, _, ⟨hpush, rfl⟩, _⟩, _⟩ := h
  exact (Frame.push_eq_ok_iff.1 hpush).1

namespace ExprTree

/-! ## Frames -/

/-- How many bytes below the stack pointer the code of a scalar expression uses. -/
def room : ExprTree → Nat
  | .not _ operand => (operand ()).room
  | .binary _ op lhs rhs =>
    if op.isShortCircuit then max (lhs ()).room (rhs ()).room
    else max (lhs ()).room (8 + (rhs ()).room)
  | _ => 8

theorem le_room (e : ExprTree) : 8 ≤ e.room := by
  induction e with
  | not info operand ih => exact ih
  | binary info op lhs rhs ihLeft ihRight =>
    rw [room]
    split <;> omega
  | _ => exact Nat.le_refl 8

/-- The code of a scalar expression leaves a scalar on the stack. -/
theorem frame_eq_of_code (htyped : e.isScalarTyped p) (h : (e.code p l).run f = .ok (code, f')) :
    f' = { f with height := f.height + 8 } := by
  rw [frame_of_code (isWordTyped_of_isScalarTyped htyped) h,
    Ty.stackBytes_of_isScalar (isScalar_ty htyped)]
  rfl

/-- The code of `&&` and `||` behind that of the left operand. -/
def shortCircuitCode (info : ExprInfo) (op : BinOp) (right : Code) : Code :=
  Code.of info.span [.lw .t0 0 .sp]
    ++ Code.of info.span
      [.branch (if op = .and then .beq else .bne) .t0 .zero (.skip info.id)]
    ++ dropCode info.span (2 * wordSize) ++ right ++ Code.of info.span [.label (.skip info.id)]

/-- The code of an operator is that of the left operand and then, where the operator may do without
the right operand, a branch around that, and else its code and the operation. -/
theorem binary_run {info : ExprInfo} {op : BinOp} {lhs rhs : Unit → ExprTree}
    (h : ((ExprTree.binary info op lhs rhs).code p l).run f = .ok (code, f')) :
    ∃ left rest f₁, ((lhs ()).code p l).run f = .ok (left, f₁) ∧ code = left ++ rest ∧
      if op.isShortCircuit then
        ∃ right, ((rhs ()).code p l).run { f₁ with height := f₁.height - 2 * wordSize } =
            .ok (right, f') ∧ rest = shortCircuitCode info op right
      else
        ∃ right apply f₂, ((rhs ()).code p l).run f₁ = .ok (right, f₂) ∧
          (applyOperator info.span op (lhs ()).ty.isReference).run f₂ = .ok (apply, f') ∧
          rest = right ++ apply := by
  simp only [ExprTree.code, run_bind_eq_ok_iff] at h
  obtain ⟨left, f₁, hleft, h⟩ := h
  by_cases hshort : op.isShortCircuit
  · simp only [hshort, if_true, run_bind_eq_ok_iff, run_pure_eq_ok_iff] at h
    obtain ⟨drop, f₂, hdrop, right, _, hright, rfl, rfl⟩ := h
    obtain ⟨rfl, rfl⟩ := pop_run hdrop
    refine ⟨left, shortCircuitCode info op right, f₁, hleft, ?_, ?_⟩
    · simp [shortCircuitCode, Code.of]
    · rw [if_pos hshort]
      exact ⟨right, hright, rfl⟩
  · rw [if_neg hshort] at h
    simp only [run_bind_eq_ok_iff, run_pure_eq_ok_iff] at h
    obtain ⟨right, f₂, hright, apply, _, happly, rfl, rfl⟩ := h
    refine ⟨left, right ++ apply, f₁, hleft, List.append_assoc _ _ _, ?_⟩
    rw [if_neg hshort]
    exact ⟨right, apply, f₂, hright, happly, rfl⟩

/-- The generator checks that the heights of all temporaries are offsets. -/
theorem fits_of_code (htyped : e.isScalarTyped p) (h : (e.code p l).run f = .ok (code, f')) :
    f.height + e.room < 2 ^ 31 := by
  induction e generalizing f f' code with
  | int info n =>
    simp only [ExprTree.code, run_bind_eq_ok_iff] at h
    obtain ⟨_, _, hpush, _⟩ := h
    exact (pushScalar_fits hpush).2
  | bool info b =>
    cases b with
    | true =>
      simp only [ExprTree.code, run_bind_eq_ok_iff] at h
      obtain ⟨_, _, hpush, _⟩ := h
      exact (pushScalar_fits hpush).2
    | false => exact (pushScalar_fits h).2
  | ident info x =>
    have hscalar : info.ty.isScalar := isScalar_ty htyped
    simp only [ExprTree.code, run_bind_eq_ok_iff, pushValue, hscalar, if_true] at h
    obtain ⟨_, _, haddress, _, _, hpush, _⟩ := h
    obtain rfl := varAddress_run haddress
    exact (pushScalar_fits hpush).2
  | not info operand ih =>
    simp only [isScalarTyped, Bool.and_eq_true] at htyped
    simp only [ExprTree.code, run_bind_eq_ok_iff] at h
    obtain ⟨_, _, hvalue, _⟩ := h
    exact ih htyped.2 hvalue
  | binary info op lhs rhs ihLeft ihRight =>
    simp only [isScalarTyped, Bool.and_eq_true] at htyped
    obtain ⟨⟨_, hlhs⟩, hrhs⟩ := htyped
    obtain ⟨left, rest, f₁, hleft, rfl, hrest⟩ := binary_run h
    have hfirst := ihLeft hlhs hleft
    obtain rfl := frame_eq_of_code hlhs hleft
    rw [room]
    split at hrest
    · rename_i hshort
      obtain ⟨right, hright, rfl⟩ := hrest
      have hsecond := ihRight hrhs hright
      simp only [wordSize] at hsecond
      rw [if_pos hshort]
      omega
    · rename_i hshort
      obtain ⟨right, apply, f₂, hright, _, rfl⟩ := hrest
      have hsecond := ihRight hrhs hright
      simp only at hsecond
      rw [if_neg hshort]
      omega
  | _ => simp [isScalarTyped] at htyped

/-! ## Runs -/

section Runs

variable {exe : Executable} {i : Nat} {m m' : Machine} {room : Nat} {v w : Value}

/-- A run mirrors an evaluation: it comes to line `stop` and since state `m` the value was pushed,
or it traps where the evaluation divides by zero. -/
def Mirrors (exe : Executable) (c : Control) (stop : Nat) (m : Machine) (room : Nat) :
    Except EvalFault Value → Prop
  | .ok v => ∃ m', exe.Runs c (.line stop m') ∧ m.HasPushed m' v.word room
  | .error .divisionByZero => exe.Runs c .trapped
  | .error .illTyped => False

theorem Mirrors.of_runs {c c' : Control} {stop : Nat} {result : Except EvalFault Value}
    (h : Mirrors exe c' stop m room result) (hruns : exe.Runs c c') :
    Mirrors exe c stop m room result := by
  match result, h with
  | .ok v, ⟨m', hruns', hpushed⟩ => exact ⟨m', hruns.trans hruns', hpushed⟩
  | .error .divisionByZero, h => exact hruns.trans h

/-- A leaf loads its value and pushes it. -/
theorem mirrors_load {inst : Inst} {push : Code} (hroom : 8 ≤ room)
    (hpush : (pushScalar span .t0).run f = .ok (push, f'))
    (hat : exe.HasAt i (Code.of span [inst] ++ push))
    (hexec : ∀ back, inst.exec exe.image back m = .next (m.set .t0 v.word)) :
    Mirrors exe (.line i m) (i + (Code.of span [inst] ++ push).length) m room (.ok v) := by
  obtain ⟨rfl, _⟩ := pushScalar_run hpush
  have hload : execFrom exe.image i m (Code.of span [inst]).insts =
      .next (m.set .t0 v.word) := by
    simp [Code.insts_of, execFrom, hexec]
  obtain ⟨m', hexec', hpushed⟩ :=
    exists_pushed exe.image (i + 1) (m.set .t0 v.word) (r := .t0) (by simp)
  refine ⟨m', (Executable.runs_block hat.left hload).trans ?_, ?_⟩
  · rw [List.length_append, ← Nat.add_assoc]
    refine Executable.runs_block hat.right ?_
    rw [Code.insts_of]
    exact hexec'
  · rw [Machine.reg_set_self _ _ _ (by simp)] at hpushed
    exact (hpushed.of_set (by simp) (by simp)).mono hroom

/-- The operand's value is negated in place. -/
theorem mirrors_not {b : Bool} (hroom : 8 ≤ room)
    (hat : exe.HasAt i (Code.of span [.lw .t0 0 .sp, .xorImm .t0 .t0 1, .sw .t0 0 .sp]))
    (h : m.HasPushed m' (Value.bool b).word room) :
    Mirrors exe (.line i m')
      (i + (Code.of span [.lw .t0 0 .sp, .xorImm .t0 .t0 1, .sw .t0 0 .sp]).length)
      m room (.ok (.bool !b)) := by
  have hword : m'.mem (m'.reg .sp) ^^^ 1 = (Value.bool !b).word := by
    rw [h.data]
    cases b <;> rfl
  have hexec : execFrom exe.image i m' [.lw .t0 0 .sp, .xorImm .t0 .t0 1, .sw .t0 0 .sp] =
      .next ((m'.set .t0 (Value.bool !b).word).store (m'.reg .sp) (Value.bool !b).word) := by
    simp [execFrom, Inst.exec, ← hword]
  have hset : m.HasPushed (m'.set .t0 (Value.bool !b).word) (Value.bool b).word room :=
    h.set (by simp) (by simp)
  have hstored := hset.store (x := (Value.bool !b).word) hroom
  rw [Machine.reg_set_of_ne _ _ _ _ (by simp)] at hstored
  exact ⟨_, Executable.runs_block hat (by rw [Code.insts_of]; exact hexec), hstored⟩

/-- A call of the runtime library that returns. -/
theorem runs_callRoutine {routine : Routine}
    (hat : exe.HasAt i (Code.of span [.callRoutine routine]))
    (h : exe.runtime routine (m.set .ra (exe.image.line (i + 1))) = some m') :
    exe.Runs (.line i m) (.line (i + 1) m') := by
  refine .single ?_
  have hinst : exe.code.insts[i]? = some (.jal (.runtime routine)) := hat.head
  simp only [Executable.step, hinst, h]

/-- A call of the runtime library that does not return. -/
theorem runs_callRoutine_trapped {routine : Routine}
    (hat : exe.HasAt i (Code.of span [.callRoutine routine]))
    (h : exe.runtime routine (m.set .ra (exe.image.line (i + 1))) = none) :
    exe.Runs (.line i m) .trapped := by
  refine .single ?_
  have hinst : exe.code.insts[i]? = some (.jal (.runtime routine)) := hat.head
  simp only [Executable.step, hinst, h]

/-- An operator other than `&&` and `||` combines its operands. -/
theorem mirrors_operator {apply : Code} {op : BinOp} {m₁ m₂ : Machine} {room₁ room₂ : Nat}
    (hdiv : exe.runtime.Divides scratch) (hop : op.isShortCircuit = false)
    (happly : (applyOperator span op false).run f = .ok (apply, f'))
    (hat : exe.HasAt i apply) (hleft : m.HasPushed m₁ v.word room₁)
    (hright : m₁.HasPushed m₂ w.word room₂) (hroom₁ : room₁ ≤ room) (hroom₂ : 8 + room₂ ≤ room)
    (hle : 16 + scratch ≤ room) (hlt : room < 2 ^ 32) (htakes : op.takesScalars v.ty w.ty) :
    Mirrors exe (.line i m₂) (i + apply.length) m room (op.apply v w) := by
  have hoperands := hleft.operands hright (by omega)
  have hcalled := fun back => hoperands.set (r := .ra) (x := back) (by simp) (by simp)
  have hcombined : ∀ {m' : Machine} {x : Word}, m₂.Combines m' x scratch →
      m.HasPushed m' x room :=
    fun h => hleft.combine hright h hroom₁ hroom₂ hle hlt
  rcases BinOp.apply_cases htakes with ⟨u, hu, _⟩ | hzero
  · rw [hu]
    have hword := BinOp.word_of_apply hu
    rcases applyOperator_cases happly hop with ⟨rfl, rfl⟩ | ⟨rfl, rfl⟩ | ⟨hinst, rfl⟩
    · obtain ⟨m', hroutine, hcombines⟩ :=
        hdiv.divide (hcalled _) (BinOp.word_ne_zero_of_apply (Or.inl rfl) hu)
      refine ⟨m', runs_callRoutine hat hroutine, ?_⟩
      rw [hword]
      exact hcombined (hcombines.of_set (by simp) (by simp))
    · obtain ⟨m', hroutine, hcombines⟩ :=
        hdiv.remainder (hcalled _) (BinOp.word_ne_zero_of_apply (Or.inr rfl) hu)
      refine ⟨m', runs_callRoutine hat hroutine, ?_⟩
      rw [hword]
      exact hcombined (hcombines.of_set (by simp) (by simp))
    · obtain ⟨m', hexec, hcombines⟩ := exists_combined exe.image i scratch hoperands hinst
      refine ⟨m', Executable.runs_block hat hexec, ?_⟩
      rw [hword]
      exact hcombined hcombines
  · rw [hzero]
    obtain ⟨hdivision, hword⟩ := BinOp.apply_eq_divisionByZero hzero
    rw [hword] at hcalled
    rcases applyOperator_cases happly hop with ⟨rfl, rfl⟩ | ⟨rfl, rfl⟩ | ⟨hinst, rfl⟩
    · exact runs_callRoutine_trapped hat (hdiv.divide_zero (hcalled _))
    · exact runs_callRoutine_trapped hat (hdiv.remainder_zero (hcalled _))
    · rcases hdivision with rfl | rfl
      · exact absurd rfl hinst
      · exact absurd rfl hinst

/-- Behind the left operand of another operator: the right one is evaluated, then they are
combined. -/
theorem mirrors_strict {right apply : Code} {op : BinOp} {m₁ : Machine} {room₁ room₂ : Nat}
    {result : Except EvalFault Value} (hdiv : exe.runtime.Divides scratch)
    (hop : op.isShortCircuit = false)
    (happly : (applyOperator span op false).run f = .ok (apply, f'))
    (hat : exe.HasAt i (right ++ apply)) (hleft : m.HasPushed m₁ v.word room₁)
    (hright : Mirrors exe (.line i m₁) (i + right.length) m₁ room₂ result) (hroom₁ : room₁ ≤ room)
    (hroom₂ : 8 + room₂ ≤ room) (hle : 16 + scratch ≤ room) (hlt : room < 2 ^ 32)
    (htakes : ∀ w, result = .ok w → op.takesScalars v.ty w.ty) :
    Mirrors exe (.line i m₁) (i + (right ++ apply).length) m room (result >>= op.apply v) := by
  match result, hright with
  | .ok w, ⟨m₂, hruns, hpushed⟩ =>
    refine Mirrors.of_runs ?_ hruns
    rw [Executable.add_length_append]
    exact mirrors_operator hdiv hop happly hat.right hleft hpushed hroom₁ hroom₂ hle hlt
      (htakes w rfl)
  | .error .divisionByZero, htrapped => exact htrapped

/-- The branch of a short-circuit operator is taken where the left operand decides. -/
theorem taken_eq_isDecidedBy {op : BinOp} (hop : op.isShortCircuit) (hv : v.ty = .bool) :
    (if op = .and then BranchOp.beq else BranchOp.bne).taken v.word 0 = op.isDecidedBy v := by
  obtain ⟨b, rfl⟩ := Value.exists_bool hv
  cases op with
  | and | or => cases b <;> rfl
  | _ => simp [BinOp.isShortCircuit] at hop

/-- Behind the left operand of `&&` or `||`: where it decides the result, control goes to the end
with its value on the stack.  Else it is dropped, and the value is that of the right operand. -/
theorem mirrors_shortCircuit {info : ExprInfo} {op : BinOp} {right : Code}
    {result : Except EvalFault Value} (hlabels : exe.code.labels.Nodup) (hop : op.isShortCircuit)
    (hv : v.ty = .bool) (hleft : m.HasPushed m' v.word room)
    (hat : exe.HasAt i (shortCircuitCode info op right))
    (hright : ∀ {k m₁}, exe.HasAt k right → m.Dropped m₁ room → ∃ room₁ ≤ room,
      Mirrors exe (.line k m₁) (k + right.length) m₁ room₁ result) :
    Mirrors exe (.line i m') (i + (shortCircuitCode info op right).length) m room
      (if op.isDecidedBy v then .ok v else result) := by
  -- The branch, with the operand in `$t0`.
  have hbranch : ∀ back, (Inst.branch (if op = .and then .beq else .bne) .t0 .zero
      (.skip info.id)).exec exe.image back (m'.set .t0 v.word) =
      if op.isDecidedBy v then .jump (.skip info.id) (m'.set .t0 v.word)
      else .next (m'.set .t0 v.word) := by
    intro back
    rw [← taken_eq_isDecidedBy hop hv, Inst.exec, Machine.reg_set_self _ _ _ (by simp),
      Machine.reg_zero]
  have hload : execFrom exe.image i m' (Code.of info.span [.lw .t0 0 .sp]).insts =
      .next (m'.set .t0 v.word) := by
    simp [execFrom, Inst.exec, hleft.data]
  have hend := hat.right
  -- Both ways meet at the label, which does nothing.
  have hlast : ∀ m₂, exe.Runs
      (.line (i + (Code.of info.span [.lw .t0 0 .sp] ++ Code.of info.span
        [.branch (if op = .and then .beq else .bne) .t0 .zero (.skip info.id)]
        ++ dropCode info.span (2 * wordSize) ++ right).length) m₂)
      (.line (i + (shortCircuitCode info op right).length) m₂) := by
    intro m₂
    rw [shortCircuitCode, Executable.add_length_append _ _ (Code.of info.span [.label _])]
    exact Executable.runs_block hend rfl
  have hskip := Executable.lineOf_eq hlabels hend.head
  by_cases hdecided : op.isDecidedBy v
  · rw [if_pos hdecided]
    refine ⟨m'.set .t0 v.word, ?_, hleft.set (by simp) (by simp)⟩
    refine (Executable.runs_jump hat.left.left.left hload (fun back => ?_) (by simp) hskip).trans
      (hlast _)
    rw [hbranch, if_pos hdecided]
  · rw [if_neg hdecided]
    have hdropped := hleft.drop v.word
    obtain ⟨room₁, hroom, hmirrors⟩ := hright hat.left.right hdropped
    have hnext : execFrom exe.image (i + 1) (m'.set .t0 v.word) [.branch
        (if op = .and then .beq else .bne) .t0 .zero (.skip info.id)] =
        .next (m'.set .t0 v.word) := by
      simp only [execFrom, hbranch, if_neg hdecided]
    have hbefore := ((Executable.runs_block hat.left.left.left.left hload).trans
      (Executable.runs_block hat.left.left.left.right (by rw [Code.insts_of]; exact hnext))).trans
        (Executable.runs_block hat.left.left.right execFrom_dropScalar)
    cases result with
    | ok w =>
      obtain ⟨m₁, hruns, hpushed⟩ := hmirrors
      refine ⟨m₁, (hbefore.trans hruns).trans ?_, hdropped.push (hpushed.mono hroom)⟩
      rw [← Executable.add_length_append _ _ right]
      exact hlast m₁
    | error fault =>
      cases fault with
      | divisionByZero => exact hbefore.trans hmirrors
      | illTyped => exact hmirrors.elim

/-- The code of a scalar expression mirrors its evaluation, wherever it stands. -/
theorem mirrors_code (hdiv : exe.runtime.Divides scratch) (hlabels : exe.code.labels.Nodup)
    (htyped : e.isScalarTyped p) (h : (e.code p l).run f = .ok (code, f'))
    (hat : exe.HasAt i code) (hheight : 0 ≤ f.height) (hsp : m.reg .sp = base - .ofInt f.height)
    (hvars : f.Holds p l base scratch σ e.reads m) :
    Mirrors exe (.line i m) (i + code.length) m (e.room + scratch) (e.eval σ) := by
  have hsmall := hdiv.small
  induction e generalizing f f' code i m with
  | int info n =>
    simp only [ExprTree.code, run_bind_eq_ok_iff, run_pure_eq_ok_iff] at h
    obtain ⟨push, _, hpush, rfl, _⟩ := h
    refine mirrors_load (Nat.le_add_right_of_le (le_room _)) hpush hat fun back => ?_
    simp [Inst.exec, Value.word]
  | bool info b =>
    cases b with
    | true =>
      simp only [ExprTree.code, run_bind_eq_ok_iff, run_pure_eq_ok_iff] at h
      obtain ⟨push, _, hpush, rfl, _⟩ := h
      refine mirrors_load (Nat.le_add_right_of_le (le_room _)) hpush hat fun back => ?_
      simp [Inst.exec, Value.word, Word.ofBool]
    | false =>
      obtain ⟨rfl, _⟩ := pushScalar_run h
      obtain ⟨m', hexec, hpushed⟩ := exists_pushed exe.image i m (r := .zero) (by simp)
      exact ⟨m', Executable.runs_block hat (by rw [Code.insts_of]; exact hexec),
        hpushed.mono (Nat.le_add_right_of_le (le_room _))⟩
  | ident info x =>
    have hscalar : info.ty.isScalar := isScalar_ty htyped
    simp only [isScalarTyped, Bool.and_eq_true] at htyped
    simp only [ExprTree.code, run_bind_eq_ok_iff, run_pure_eq_ok_iff, pushValue, hscalar,
      if_true] at h
    obtain ⟨_, _, haddress, push, _, hpush, rfl, _⟩ := h
    obtain ⟨offset, hoffset, _, rfl⟩ := varAddress_stackVar_run haddress htyped.1.1
    obtain ⟨offset', hoffset', _, _, _, hmem⟩ := hvars x (by simp [reads])
    obtain rfl := Option.some.inj (hoffset.symm.trans hoffset')
    refine mirrors_load (Nat.le_add_right_of_le (le_room _)) hpush hat fun back => ?_
    rw [Inst.exec, hsp, Word.sub_add_ofInt_add, hmem]
  | not info operand ih =>
    simp only [isScalarTyped, Bool.and_eq_true, beq_iff_eq] at htyped
    obtain ⟨⟨_, hty⟩, hoperand⟩ := htyped
    simp only [ExprTree.code, run_bind_eq_ok_iff, run_pure_eq_ok_iff] at h
    obtain ⟨value, f₁, hvalue, rfl, _⟩ := h
    have hmirrors := ih hoperand hvalue hat.left hheight hsp hvars
    rw [eval, room]
    rcases eval_cases hoperand hvars.typed with ⟨v, heval, hv⟩ | heval
    · obtain ⟨b, rfl⟩ := Value.exists_bool (hv.trans hty)
      rw [heval] at hmirrors ⊢
      obtain ⟨m', hruns, hpushed⟩ := hmirrors
      rw [Executable.add_length_append]
      exact (mirrors_not (Nat.le_add_right_of_le (le_room _)) hat.right hpushed).of_runs hruns
    · rw [heval] at hmirrors ⊢
      exact hmirrors
  | binary info op lhs rhs ihLeft ihRight =>
    have hfits := fits_of_code htyped h
    simp only [isScalarTyped, Bool.and_eq_true, beq_iff_eq] at htyped
    obtain ⟨⟨⟨_, htakes⟩, hlhs⟩, hrhs⟩ := htyped
    obtain ⟨left, rest, f₁, hleftCode, rfl, hrest⟩ := binary_run h
    obtain rfl := frame_eq_of_code hlhs hleftCode
    have hleftVars : f.Holds p l base scratch σ (lhs ()).reads m := hvars.mono (by simp [reads])
    have hrightVars : f.Holds p l base scratch σ (rhs ()).reads m := hvars.mono (by simp [reads])
    have hmirrors := ihLeft hlhs hleftCode hat.left hheight hsp hleftVars
    rcases eval_cases hlhs hleftVars.typed with ⟨v, hleft, hv⟩ | hleft
    case inr =>
      have heval : (ExprTree.binary info op lhs rhs).eval σ = .error .divisionByZero := by
        rw [eval, hleft]
        rfl
      rw [heval]
      rw [hleft] at hmirrors
      exact hmirrors
    rw [hleft] at hmirrors
    obtain ⟨m₁, hruns, hpushed⟩ := hmirrors
    rw [eval_binary hleft, Executable.add_length_append]
    have hle := le_room (rhs ())
    split at hrest
    · rename_i hshort
      rw [room, if_pos hshort] at hfits ⊢
      obtain ⟨right, hright, rfl⟩ := hrest
      obtain ⟨hlhsTy, hrhsTy⟩ := BinOp.eq_bool_of_isShortCircuit hshort htakes
      have hframe : f = { f with height := f.height + 8 - 2 * wordSize } :=
        f.eq_with_height (by simp only [wordSize]; omega)
      rw [← hframe] at hright
      rw [eval_shortCircuit hshort (hv.trans hlhsTy) hrhs hrhsTy hrightVars.typed]
      refine (mirrors_shortCircuit hlabels hshort (hv.trans hlhsTy)
        (hpushed.mono (by omega)) hat.right ?_).of_runs hruns
      intro k m₂ hrightAt hdropped
      have hsp₂ : m₂.reg .sp = base - .ofInt f.height := by rw [hdropped.sp, hsp]
      have hvars₂ := hrightVars.of_kept hsp hfits hdropped.kept
      exact ⟨(rhs ()).room + scratch, by omega,
        ihRight hrhs hright hrightAt hheight hsp₂ hvars₂⟩
    · rename_i hshort
      rw [room, if_neg hshort] at hfits ⊢
      obtain ⟨right, apply, f₂, hright, happly, rfl⟩ := hrest
      rw [Ty.not_isReference_of_isScalar (isScalar_ty hlhs)] at happly
      have hdecided := BinOp.isDecidedBy_of_not_isShortCircuit (a := v) (by simpa using hshort)
      rw [if_neg (by simp [hdecided])]
      have hsp₁ : m₁.reg .sp = base - .ofInt (f.height + 8) := by
        rw [hpushed.sp, hsp, ← Word.sub_sub_ofInt]
        rfl
      have hvars₁ := hrightVars.of_kept hsp (by omega) hpushed.kept
      have hsecond := ihRight hrhs hright hat.right.left (by simp only; omega) hsp₁
        (hvars₁.raise (by omega))
      refine Mirrors.of_runs ?_ hruns
      refine mirrors_strict hdiv (by simpa using hshort) happly hat.right hpushed hsecond
        (by omega) (by omega) (by omega) (by omega) fun w hw => ?_
      rw [hv, ty_of_eval hrhs hrightVars.typed hw]
      exact htakes
  | _ => simp [isScalarTyped] at htyped

end Runs

end ExprTree

/-! ## Expressions on their own -/

/-- What the runs of an executable do from its start: they compute `result`. -/
structure Executable.Computes (exe : Executable) (m : Machine) (result : Except EvalFault Value) :
    Prop where
  /-- A run comes to the end just if there is a value. -/
  ends_iff : (∃ m', exe.Runs (.line 0 m) (.line exe.code.length m')) ↔ ∃ v, result = .ok v
  /-- At the end the value is on the stack, and what was there before is unchanged. -/
  pushes {v : Value} {m' : Machine} : result = .ok v →
    exe.Runs (.line 0 m) (.line exe.code.length m') →
    m'.reg .sp = m.reg .sp - 8 ∧ m'.mem (m'.reg .sp) = v.word ∧
      m'.mem (m'.reg .sp + 4) = m'.reg .s5 ∧ m'.reg .s5 = m.reg .s5 ∧
      ∀ a, (m.reg .sp).toNat ≤ a.toNat → m'.mem a = m.mem a
  /-- A run traps just if a division by zero ends the evaluation. -/
  traps_iff : exe.Runs (.line 0 m) .trapped ↔ result = .error .divisionByZero

namespace ExprTree

/-- A variable of known address is held by the machine. -/
theorem holds_of_varAddress {m : Machine} (htyped : e.isScalarTyped p) (hheight : 0 ≤ f.height)
    (hvars : ∀ x ∈ e.reads, ∃ offset, (varAddress p l x).run f = .ok ((offset, .sp), f) ∧
      0 ≤ offset ∧ offset + scratch < 2 ^ 31 ∧ (σ x).ty = p.varTy x ∧
      m.mem (m.reg .sp + .ofInt offset) = (σ x).word) :
    f.Holds p l (m.reg .sp + .ofInt f.height) scratch σ e.reads m := by
  intro x hx
  obtain ⟨address, haddress, hnonneg, hlt, hty, hmem⟩ := hvars x hx
  obtain ⟨offset, hoffset, _, heq⟩ :=
    varAddress_stackVar_run haddress (isStackVar_of_mem_reads htyped x hx)
  obtain rfl : address = f.height + offset := (Prod.mk.inj heq).1
  refine ⟨offset, hoffset, by omega, by omega, hty, ?_⟩
  rw [BitVec.add_assoc, ← Word.ofInt_add, hmem]

/-- The code of a typed scalar expression computes the expression's value.  The variables must lie
at or above the stack pointer where the generator finds them, and there must be room below it, also
for what the division routines use there.  If they use nothing, the upper bound on a variable's
offset is the one that the generator checks (`Gen.varAddress_stackVar_run`). -/
theorem computes_of_code {image : Image} {runtime : Runtime} {m : Machine}
    (h : (e.code p l).run f = .ok (code, f')) (htyped : e.isScalarTyped p)
    (hnodes : e.nodes.Nodup) (hdiv : runtime.Divides scratch) (hheight : 0 ≤ f.height)
    (hroom : e.room + scratch ≤ (m.reg .sp).toNat)
    (hvars : ∀ x ∈ e.reads, ∃ offset, (varAddress p l x).run f = .ok ((offset, .sp), f) ∧
      0 ≤ offset ∧ offset + scratch < 2 ^ 31 ∧ (σ x).ty = p.varTy x ∧
      m.mem (m.reg .sp + .ofInt offset) = (σ x).word) :
    Executable.Computes ⟨code, image, runtime⟩ m (e.eval σ) := by
  have hholds := holds_of_varAddress htyped hheight hvars
  have hsp : m.reg .sp = m.reg .sp + .ofInt f.height - .ofInt f.height := by bv_omega
  have hmirrors : Mirrors ⟨code, image, runtime⟩ (.line 0 m) (0 + code.length) m
      (e.room + scratch) (e.eval σ) :=
    mirrors_code hdiv ((labelledBy_code h).nodup hnodes) htyped h (Executable.hasAt_self _)
      hheight hsp hholds
  rw [Nat.zero_add] at hmirrors
  rcases eval_cases htyped hholds.typed with ⟨v, heval, _⟩ | heval
  · rw [heval] at hmirrors ⊢
    obtain ⟨m₁, hruns, hpushed⟩ := hmirrors
    refine ⟨⟨fun _ => ⟨v, rfl⟩, fun _ => ⟨m₁, hruns⟩⟩, fun hv hruns' => ?_,
      fun htrapped => ?_, nofun⟩
    · obtain rfl := Except.ok.inj hv
      obtain rfl := (Control.line.inj
        (hruns.end_unique hruns' Executable.step_end Executable.step_end)).2
      refine ⟨hpushed.sp, hpushed.data, ?_, hpushed.marker, fun a ha => hpushed.kept a ?_⟩
      · rw [hpushed.tag, hpushed.marker]
      · bv_omega
    · exact absurd (hruns.end_unique htrapped Executable.step_end rfl) nofun
  · rw [heval] at hmirrors ⊢
    refine ⟨⟨fun ⟨m₁, hruns⟩ => ?_, nofun⟩, nofun, fun _ => rfl, fun _ => hmirrors⟩
    exact absurd (hruns.end_unique hmirrors Executable.step_end rfl) nofun

/-- Whether a positive number divides seven to another one: `0 < by && 7 / by == n`. -/
def quotientTest : ExprTree :=
  .binary ⟨⟨6⟩, .dummy, .bool⟩ .and
    (fun _ => .binary ⟨⟨2⟩, .dummy, .bool⟩ .lt (fun _ => .int ⟨⟨0⟩, .dummy, .int⟩ 0)
      (fun _ => .ident ⟨⟨1⟩, .dummy, .int⟩ ⟨0⟩))
    (fun _ => .binary ⟨⟨5⟩, .dummy, .bool⟩ .eq
      (fun _ => .binary ⟨⟨4⟩, .dummy, .int⟩ .div (fun _ => .int ⟨⟨3⟩, .dummy, .int⟩ 7)
        (fun _ => .ident ⟨⟨7⟩, .dummy, .int⟩ ⟨0⟩))
      (fun _ => .ident ⟨⟨8⟩, .dummy, .int⟩ ⟨2⟩))

theorem computes_quotientTest : ∃ L data code f', Layout.compute shapes = .ok (L, data) ∧
    (quotientTest.code shapes L).run ⟨8, [(⟨2⟩, -8)], []⟩ = .ok (code, f') ∧
    Executable.Computes ⟨code, ⟨fun _ => 0, fun _ => 0⟩, .dividing⟩
      ⟨fun _ => 0x7fff0000, 0, fun _ => 2⟩ (quotientTest.eval fun _ => .int 2) := by
  have haddresses : (do
      let laid ← Layout.compute shapes
      let divisor ← (varAddress shapes laid.1 ⟨0⟩).run ⟨8, [(⟨2⟩, -8)], []⟩
      let n ← (varAddress shapes laid.1 ⟨2⟩).run ⟨8, [(⟨2⟩, -8)], []⟩
      let _ ← (quotientTest.code shapes laid.1).run ⟨8, [(⟨2⟩, -8)], []⟩
      return (divisor.1, n.1)).toOption = some ((16, .sp), (0, .sp)) := by decide +kernel
  obtain ⟨addresses, hrun⟩ := exists_eq_ok_of_isSome (Option.isSome_of_eq_some haddresses)
  obtain rfl := Option.some.inj ((congrArg Except.toOption hrun).symm.trans haddresses)
  obtain ⟨⟨L, data⟩, hcompute, hrun⟩ := bind_eq_ok_iff.1 hrun
  obtain ⟨⟨divisor, f₁⟩, hdivisor, hrun⟩ := bind_eq_ok_iff.1 hrun
  obtain ⟨⟨n, f₂⟩, hn, hrun⟩ := bind_eq_ok_iff.1 hrun
  obtain ⟨⟨code, f'⟩, hcode, hrun⟩ := bind_eq_ok_iff.1 hrun
  obtain ⟨rfl, rfl⟩ := Prod.mk.inj (pure_eq_ok_iff.1 hrun)
  obtain rfl := varAddress_run hdivisor
  obtain rfl := varAddress_run hn
  refine ⟨L, data, code, f', hcompute, hcode, computes_of_code hcode (by decide) (by decide)
    Runtime.divides_dividing (by decide) (by decide) fun x hx => ?_⟩
  obtain rfl | rfl : x = ⟨0⟩ ∨ x = ⟨2⟩ := by simpa [quotientTest, reads] using hx
  · exact ⟨16, hdivisor, by decide, by decide, rfl, rfl⟩
  · exact ⟨0, hn, by decide, by decide, rfl, rfl⟩

end ExprTree

end MipsBackend
