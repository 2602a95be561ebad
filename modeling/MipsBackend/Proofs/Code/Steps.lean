import MipsBackend.Program.Code
import MipsBackend.Proofs.Stateful

/-!
# What a step of the generator returns

Each lemma opens one building block of the code generator: if it succeeds, this is the code it
returns and this is the frame it leaves.  Blocks that other proofs see only from outside, such as
the lookup of a variable, are summed up by what they do to the frame.
-/

namespace MipsBackend

variable {p : Program} {l : Layout} {f f' : Frame} {span : Span} {code : Code}

namespace Gen

theorem height_run {h : Int} : height.run f = .ok (h, f') ↔ h = f.height ∧ f = f' := by
  simp only [height, run_bind_eq_ok_iff, run_get_eq_ok_iff, run_pure_eq_ok_iff]
  constructor
  · rintro ⟨_, _, ⟨rfl, rfl⟩, rfl, rfl⟩
    exact ⟨rfl, rfl⟩
  · rintro ⟨rfl, rfl⟩
    exact ⟨f, f, ⟨rfl, rfl⟩, rfl, rfl⟩

theorem pushed_run {bytes : Int} {u : Unit} (h : (pushed bytes).run f = .ok (u, f')) :
    f' = { f with height := f.height + bytes } := by
  simp only [pushed, run_bind_eq_ok_iff, run_get_eq_ok_iff, run_liftM_eq_ok_iff,
    run_set_eq_ok_iff] at h
  obtain ⟨_, _, ⟨rfl, rfl⟩, _, _, ⟨hpush, rfl⟩, rfl⟩ := h
  exact (Frame.push_eq_ok_iff.1 hpush).2

theorem popped_run {bytes : Int} {u : Unit} (h : (popped bytes).run f = .ok (u, f')) :
    bytes ≤ f.height ∧ f' = { f with height := f.height - bytes } := by
  simp only [popped, run_bind_eq_ok_iff, run_get_eq_ok_iff, run_liftM_eq_ok_iff,
    run_set_eq_ok_iff] at h
  obtain ⟨_, _, ⟨rfl, rfl⟩, _, _, ⟨hpop, rfl⟩, rfl⟩ := h
  exact (Frame.pop_eq_ok_iff.1 hpop).2

theorem restored_run {height dropped : Int} (h : (restored height).run f = .ok (dropped, f')) :
    height ≤ f.height ∧ dropped = f.height - height ∧ f' = { f with height } := by
  simp only [restored, run_bind_eq_ok_iff, run_get_eq_ok_iff, run_liftM_eq_ok_iff,
    run_set_eq_ok_iff, run_pure_eq_ok_iff] at h
  obtain ⟨_, _, ⟨rfl, rfl⟩, ⟨_, _⟩, _, ⟨hrestore, rfl⟩, _, _, rfl, rfl, rfl⟩ := h
  exact (Frame.restore_eq_ok_iff.1 hrestore).2

/-- A variable is declared once, where the stack ends. -/
theorem declared_frame {var : VarId} {u : Unit} (h : (declared var).run f = .ok (u, f')) :
    f.locals.lookup var = none ∧ f' = { f with locals := (var, -f.height) :: f.locals } := by
  simp only [declared, run_bind_eq_ok_iff, run_get_eq_ok_iff, run_liftM_eq_ok_iff,
    run_set_eq_ok_iff] at h
  obtain ⟨_, _, ⟨rfl, rfl⟩, ⟨offset, frame⟩, _, ⟨hdeclare, rfl⟩, rfl⟩ := h
  simp only [Frame.declareLocal, bind_eq_ok_iff, Offset.neg, Offset.checked_eq_ok_iff] at hdeclare
  obtain ⟨_, ⟨_, rfl⟩, hdeclare⟩ := hdeclare
  split at hdeclare
  · exact absurd hdeclare defect_ne_ok
  · rename_i hnone
    obtain ⟨_, rfl⟩ := Prod.mk.inj (pure_eq_ok_iff.1 hdeclare)
    exact ⟨Option.not_isSome_iff_eq_none.1 hnone, rfl⟩

/-- A declaration changes neither the height nor the heights of loops. -/
theorem declared_run {var : VarId} {u : Unit} (h : (declared var).run f = .ok (u, f')) :
    f'.height = f.height ∧ f'.loopExits = f.loopExits := by
  obtain ⟨_, rfl⟩ := declared_frame h
  exact ⟨rfl, rfl⟩

theorem pushScalar_run {reg : Reg} (h : (pushScalar span reg).run f = .ok (code, f')) :
    code = Code.of span [.subuImm .sp .sp (2 * wordSize), .sw .s5 wordSize .sp, .sw reg 0 .sp] ∧
      f' = { f with height := f.height + 2 * wordSize } := by
  simp only [pushScalar, run_bind_eq_ok_iff, run_pure_eq_ok_iff] at h
  obtain ⟨_, _, hpushed, rfl, rfl⟩ := h
  exact ⟨rfl, pushed_run hpushed⟩

theorem pushReference_run {reg : Reg} (h : (pushReference span reg).run f = .ok (code, f')) :
    code = Code.of span [.subuImm .sp .sp wordSize, .sw reg 0 .sp] ∧
      f' = { f with height := f.height + wordSize } := by
  simp only [pushReference, run_bind_eq_ok_iff, run_pure_eq_ok_iff] at h
  obtain ⟨_, _, hpushed, rfl, rfl⟩ := h
  exact ⟨rfl, pushed_run hpushed⟩

theorem tagTop_run (h : (tagTop span).run f = .ok (code, f')) :
    code = Code.of span [.subuImm .sp .sp wordSize, .sw .s5 wordSize .sp, .sw .t0 0 .sp] ∧
      f' = { f with height := f.height + wordSize } := by
  simp only [tagTop, run_bind_eq_ok_iff, run_pure_eq_ok_iff] at h
  obtain ⟨_, _, hpushed, rfl, rfl⟩ := h
  exact ⟨rfl, pushed_run hpushed⟩

/-- The code that drops bytes; there is none where nothing is dropped. -/
def dropCode (span : Span) (bytes : Int) : Code :=
  if bytes = 0 then [] else Code.of span [.adduImm .sp .sp bytes]

theorem pop_run {bytes : Int} (h : (pop span bytes).run f = .ok (code, f')) :
    code = dropCode span bytes ∧ f' = { f with height := f.height - bytes } := by
  rw [pop] at h
  rw [dropCode]
  split at h
  · rename_i hzero
    obtain ⟨rfl, rfl⟩ := run_pure_eq_ok_iff.1 h
    simp [hzero]
  · rename_i hzero
    simp only [run_bind_eq_ok_iff, run_pure_eq_ok_iff] at h
    obtain ⟨_, _, hpopped, rfl, rfl⟩ := h
    rw [if_neg hzero]
    exact ⟨rfl, (popped_run hpopped).2⟩

theorem popTo_run {height : Int} (h : (popTo span height).run f = .ok (code, f')) :
    height ≤ f.height ∧ code = dropCode span (f.height - height) ∧
      f' = { f with height } := by
  simp only [popTo, run_bind_eq_ok_iff, run_pure_eq_ok_iff] at h
  obtain ⟨dropped, _, hrestored, rfl, rfl⟩ := h
  obtain ⟨hle, rfl, rfl⟩ := restored_run hrestored
  exact ⟨hle, rfl, rfl⟩

/-- A scope ends with a drop of what was left on the stack in it. -/
theorem inScope_run {body : Gen Code} (h : (inScope span body).run f = .ok (code, f')) :
    ∃ inner f₁, body.run f = .ok (inner, f₁) ∧
      code = inner ++ dropCode span (f₁.height - f.height) ∧
      f' = { f₁ with height := f.height } := by
  simp only [inScope, run_bind_eq_ok_iff, run_pure_eq_ok_iff, height_run] at h
  obtain ⟨_, _, ⟨rfl, rfl⟩, inner, f₁, hbody, drop, _, hdrop, rfl, rfl⟩ := h
  obtain ⟨_, rfl, rfl⟩ := popTo_run hdrop
  exact ⟨inner, f₁, hbody, rfl, rfl⟩

/-- A condition is evaluated on the stack and moved to `$t0`. -/
theorem condition_run {cond : ExprTree} (h : (condition p l span cond).run f = .ok (code, f')) :
    ∃ value f₁, (cond.code p l).run f = .ok (value, f₁) ∧
      code = value ++ Code.of span [.lw .t0 0 .sp] ++ dropCode span (2 * wordSize) ∧
      f' = { f₁ with height := f₁.height - 2 * wordSize } := by
  simp only [condition, run_bind_eq_ok_iff, run_pure_eq_ok_iff] at h
  obtain ⟨value, f₁, hvalue, drop, _, hdrop, rfl, rfl⟩ := h
  obtain ⟨rfl, rfl⟩ := pop_run hdrop
  exact ⟨value, f₁, hvalue, rfl, rfl⟩

/-- Finding a variable leaves the frame alone. -/
theorem varAddress_run {var : VarId} {address : Int × Reg}
    (h : (varAddress p l var).run f = .ok (address, f')) : f = f' := by
  rw [varAddress, run_bind_eq_ok_iff] at h
  obtain ⟨decl, _, hdecl, h⟩ := h
  obtain ⟨_, rfl⟩ := run_liftM_eq_ok_iff.1 hdecl
  split at h
  · simp only [run_bind_eq_ok_iff, run_liftM_eq_ok_iff, run_pure_eq_ok_iff] at h
    obtain ⟨_, _, ⟨_, rfl⟩, _, rfl⟩ := h
    rfl
  · simp only [run_bind_eq_ok_iff, run_liftM_eq_ok_iff, run_pure_eq_ok_iff, height_run] at h
    obtain ⟨_, _, ⟨_, rfl⟩, _, _, ⟨_, rfl⟩, _, _, ⟨_, rfl⟩, _, rfl⟩ := h
    rfl
  · simp only [run_bind_eq_ok_iff, run_liftM_eq_ok_iff, run_pure_eq_ok_iff, height_run,
      run_get_eq_ok_iff] at h
    obtain ⟨_, _, ⟨rfl, rfl⟩, _, _, ⟨_, rfl⟩, _, _, ⟨_, rfl⟩, _, _, ⟨_, rfl⟩, _, rfl⟩ := h
    rfl

/-- A formal parameter is found from the stack pointer, by its offset and the height. -/
theorem varAddress_formal_run {var : VarId} {decl : VarDecl} {method : MethodId} {offset : Int}
    {address : Int × Reg} (h : (varAddress p l var).run f = .ok (address, f'))
    (hdecl : p.varAt var = .ok decl) (hkind : decl.kind = .formal method)
    (hoffset : l.varOffset var = .ok offset) : address = (f.height + offset, .sp) := by
  rw [varAddress, hdecl] at h
  simp only [run_bind_eq_ok_iff, run_liftM_eq_ok_iff, Except.ok.injEq] at h
  obtain ⟨_, _, ⟨rfl, rfl⟩, h⟩ := h
  simp only [hkind, hoffset, run_bind_eq_ok_iff, run_liftM_eq_ok_iff, run_pure_eq_ok_iff,
    height_run, Except.ok.injEq, Offset.add, Offset.checked_eq_ok_iff] at h
  obtain ⟨_, _, ⟨rfl, rfl⟩, _, _, ⟨rfl, rfl⟩, _, _, ⟨⟨_, rfl⟩, rfl⟩, rfl, _⟩ := h
  rfl

/-- Leaving a loop drops what lies above the loop's height and jumps behind the loop. -/
theorem leaveLoop_run {loop : StmtId} (h : (leaveLoop span loop).run f = .ok (code, f')) :
    ∃ exit, f.loopExits.lookup loop = some exit ∧
      code = dropCode span (f.height - exit) ++ Code.of span [.j (.breakTarget loop)] ∧
      f = f' := by
  simp only [leaveLoop, run_bind_eq_ok_iff, run_get_eq_ok_iff, run_liftM_eq_ok_iff,
    run_pure_eq_ok_iff, height_run, Offset.sub, Offset.checked_eq_ok_iff] at h
  obtain ⟨_, _, ⟨rfl, rfl⟩, exit, _, ⟨hexit, rfl⟩, _, _, ⟨rfl, rfl⟩, _, _, ⟨⟨_, rfl⟩, rfl⟩, rfl,
    rfl⟩ := h
  exact ⟨exit, Frame.loopExit_eq_ok_iff.1 hexit, rfl, rfl⟩

end Gen

open Gen

/-- The code that enters a method: a call through the receiver's dispatch table, or straight to the
method's label where the receiver is `super`. -/
def Enters (p : Program) (l : Layout) (isSuper : Bool) (method : MethodId) (enter : List Inst) :
    Prop :=
  if isSuper then ∃ label, p.methodLabel method = .ok label ∧ enter = [.jal label]
  else ∃ m, l.methodAt method = .ok m ∧ dispatch m = .ok enter

/-- Through the table the method is entered at an address that was loaded from there. -/
theorem Enters.exists_loadEntry {method : MethodId} {enter : List Inst}
    (h : Enters p l false method enter) : ∃ m, l.methodAt method = .ok m ∧
      enter = loadEntry (m.receiverOffset - wordSize) m.entryOffset ++ [.jalr .t0] := by
  obtain ⟨m, hm, hdispatch⟩ := h
  exact ⟨m, hm, (dispatch_eq_ok_iff.1 hdispatch).2⟩

/-- A method's label tells the method or is one of the runtime library. -/
theorem Program.methodLabel_cases {method : MethodId} {label : Label}
    (h : p.methodLabel method = .ok label) :
    (∃ name, label = .method method name) ∨ ∃ name c, label = .runtimeMethod name c := by
  rw [methodLabel, bind_eq_ok_iff] at h
  obtain ⟨_, _, h⟩ := h
  split at h
  · simp only [bind_eq_ok_iff, pure_eq_ok_iff] at h
    obtain ⟨_, _, rfl⟩ := h
    exact Or.inr ⟨_, _, rfl⟩
  · obtain rfl := pure_eq_ok_iff.1 h
    exact Or.inl ⟨_, rfl⟩

/-- A call evaluates the receiver and the arguments, whatever the results of that are, and enters
the method.  Then the result stands in place of both. -/
theorem Gen.call_run {α β γ : Type} {isSuper : Bool} {method : MethodId} {argc : Nat}
    {receive : Gen α} {pass : Gen β} {next : α → β → List Inst → γ} {c : γ}
    (h : (do
      let decl ← p.methodAt method
      if argc ≠ decl.formals.length then
        defect (.argumentCount decl.name argc decl.formals.length)
      let bottom ← height
      let target ← receive
      let passed ← pass
      let enter ←
        if isSuper then do pure [Inst.jal (← p.methodLabel method)]
        else do dispatch (← l.methodAt method)
      let _ ← restored bottom
      pushed decl.returnType.stackBytes
      return next target passed enter : Gen γ).run f = .ok (c, f')) :
    ∃ decl target passed enter f₁ f₂, p.methodAt method = .ok decl ∧
      argc = decl.formals.length ∧ receive.run f = .ok (target, f₁) ∧
      pass.run f₁ = .ok (passed, f₂) ∧ Enters p l isSuper method enter ∧
      f' = { f₂ with height := f.height + decl.returnType.stackBytes } ∧
      c = next target passed enter := by
  rw [run_bind_eq_ok_iff] at h
  obtain ⟨decl, _, hfound, h⟩ := h
  obtain ⟨hdecl, rfl⟩ := run_liftM_eq_ok_iff.1 hfound
  by_cases hlength : argc = decl.formals.length
  · rw [if_neg (by simp [hlength]), run_bind_eq_ok_iff] at h
    obtain ⟨_, _, hheight, h⟩ := h
    obtain ⟨rfl, rfl⟩ := height_run.1 hheight
    rw [run_bind_eq_ok_iff] at h
    obtain ⟨target, f₁, htarget, h⟩ := h
    rw [run_bind_eq_ok_iff] at h
    obtain ⟨passed, f₂, hpassed, h⟩ := h
    refine ⟨decl, target, passed, ?_⟩
    split at h
    · rename_i hsuper
      simp only [run_bind_eq_ok_iff, run_liftM_eq_ok_iff, run_pure_eq_ok_iff] at h
      obtain ⟨label, _, ⟨hlabel, rfl⟩, _, _, ⟨rfl, rfl⟩, _, _, hrestored, _, _, hpushed, rfl,
        rfl⟩ := h
      obtain ⟨_, _, rfl⟩ := restored_run hrestored
      have henter : Enters p l isSuper method [.jal label] := by
        rw [Enters, if_pos hsuper]
        exact ⟨label, hlabel, rfl⟩
      exact ⟨_, f₁, f₂, hdecl, hlength, htarget, hpassed, henter, pushed_run hpushed, rfl⟩
    · rename_i hsuper
      simp only [run_bind_eq_ok_iff, run_liftM_eq_ok_iff, run_pure_eq_ok_iff] at h
      obtain ⟨m, _, ⟨hm, rfl⟩, enter, _, ⟨hdispatch, rfl⟩, _, _, hrestored, _, _, hpushed, rfl,
        rfl⟩ := h
      obtain ⟨_, _, rfl⟩ := restored_run hrestored
      have henter : Enters p l isSuper method enter := by
        rw [Enters, if_neg hsuper]
        exact ⟨m, hm, hdispatch⟩
      exact ⟨_, f₁, f₂, hdecl, hlength, htarget, hpassed, henter, pushed_run hpushed, rfl⟩
  · simp only [hlength, ne_eq, not_false_eq_true, if_true, run_bind_eq_ok_iff,
      run_liftM_eq_ok_iff, defect_ne_ok, false_and, exists_false] at h

/-- An object is allocated with the counters of its class, a scalar word more for the class record,
which is then written. -/
theorem ExprTree.new_run {info : ExprInfo} {c : ClassId}
    (h : ((ExprTree.new info c).code p l).run f = .ok (code, f')) :
    ∃ cl record, l.classAt c = .ok cl ∧ Offset.Fits (cl.numScalar + 1) ∧
      p.recordName (.object c) = .ok record ∧ f' = { f with height := f.height + wordSize } ∧
      code = Code.of info.span ([.li .s6 (cl.numScalar + 1), .li .s7 cl.numReference,
        .callRoutine .newObject] ++ storeClassRecord record) := by
  simp only [ExprTree.code, run_bind_eq_ok_iff, run_liftM_eq_ok_iff, run_pure_eq_ok_iff,
    Offset.add, Offset.checked_eq_ok_iff] at h
  obtain ⟨cl, _, ⟨hcl, rfl⟩, _, _, ⟨⟨hscalars, rfl⟩, rfl⟩, _, _, hpushed, record, _, ⟨hrecord, rfl⟩,
    rfl, rfl⟩ := h
  exact ⟨cl, record, hcl, hscalars, hrecord, pushed_run hpushed, rfl⟩

/-- The code of a call is that of the receiver and the arguments, and then enters the method. -/
theorem ExprTree.call_run {info : ExprInfo} {receiver : Unit → ExprTree} {method : MethodId}
    {args : List (Unit → ExprTree)}
    (h : ((ExprTree.call info receiver method args).code p l).run f = .ok (code, f')) :
    ∃ decl target passed enter f₁ f₂, p.methodAt method = .ok decl ∧
      args.length = decl.formals.length ∧
      ((receiver ()).code p l).run f = .ok (target, f₁) ∧
      (codeAll p l args).run f₁ = .ok (passed, f₂) ∧
      Enters p l (receiver ()).isSuper method enter ∧
      f' = { f₂ with height := f.height + decl.returnType.stackBytes } ∧
      code = target ++ passed ++ Code.of info.span enter := by
  rw [ExprTree.code] at h
  exact Gen.call_run h

/-- The code of a method: label, prologue, body, result and epilogue.  The epilogue is made for the
height that body and result leave. -/
theorem Program.methodCode_eq_ok {id : MethodId} (h : p.methodCode l id = .ok code) :
    ∃ decl label m body f₁ result span f₂ leave, p.methodAt id = .ok decl ∧
      decl.origin.isUser ∧ p.methodLabel id = .ok label ∧ l.methodAt id = .ok m ∧
      (StmtTree.codeAll p l (decl.body.map fun s _ => p.stmtTree s)).run .empty =
        .ok (body, f₁) ∧
      (decl.resultCode p l).run f₁ = .ok ((result, span), f₂) ∧
      epilogue m.receiverOffset f₂.height decl.returnType = .ok leave ∧
      code = Code.of decl.span ([.globl label, .label label] ++ prologue m.receiverOffset)
        ++ body ++ result ++ Code.of span leave := by
  rw [methodCode, bind_eq_ok_iff] at h
  obtain ⟨decl, hdecl, h⟩ := h
  split at h
  · simp only [bind_eq_ok_iff, defect_ne_ok, false_and, exists_false] at h
  · rename_i huser
    simp only [bind_eq_ok_iff, pure_eq_ok_iff] at h
    obtain ⟨label, hlabel, m, hm, ⟨⟨body, result, span⟩, f₂⟩, hgenerate, leave, hleave, rfl⟩ := h
    simp only [run_bind_eq_ok_iff, run_pure_eq_ok_iff, Prod.mk.injEq] at hgenerate
    obtain ⟨_, f₁, hbody, _, _, hresult, ⟨rfl, rfl⟩, rfl⟩ := hgenerate
    exact ⟨decl, label, m, _, f₁, _, _, _, leave, hdecl,
      by simpa [MethodOrigin.isRuntime] using huser, hlabel, hm, hbody, hresult, hleave, rfl⟩

end MipsBackend
