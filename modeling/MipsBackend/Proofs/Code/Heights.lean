import MipsBackend.Proofs.Code.Paths

/-!
# The height law

Between the operands of an expression stands code without labels and calls, which moves the stack
pointer as the frame says (`Code.Moves`).  So on word-typed expressions the generator keeps the
height law, `ExprTree.KeepsHeight`: the code of an expression leaves a value as wide as its type
says, nothing else changes in the frame, and the trace is balanced if nodes are given the heights at
which they start.

Almost all expressions evaluate their operands and then put their value in place of them
(`ExprTree.Replaces`), and for these the law follows from that of the operands.  The others are
short circuits: control comes to the label at their end with one operand evaluated or with both.
-/

namespace MipsBackend

open Gen

/-! ## Code that only moves the stack pointer -/

namespace Code

/-- Control goes through the code in order, without calls, and the stack pointer moves by a number
of bytes. -/
structure Moves (code : Code) (d : Int) : Prop where
  plain : ∀ inst ∈ code.insts, inst.isPlain
  sum : (code.insts.map Inst.displacement).sum = d

variable {code code' : Code} {d d' : Int}

theorem Moves.append (h : code.Moves d) (h' : code'.Moves d') : (code ++ code').Moves (d + d') := by
  constructor
  · intro inst hinst
    rw [insts_append, List.mem_append] at hinst
    exact hinst.elim (h.plain inst) (h'.plain inst)
  · rw [insts_append, List.map_append, List.sum_append, h.sum, h'.sum]

theorem moves_of {span : Span} {insts : List Inst} (hplain : insts.all Inst.isPlain)
    (hsum : (insts.map Inst.displacement).sum = d) : (Code.of span insts).Moves d := by
  constructor
  · rwa [insts_of, ← List.all_eq_true]
  · rwa [insts_of]

theorem moves_dropCode (span : Span) (bytes : Int) : (dropCode span bytes).Moves bytes := by
  rw [dropCode]
  split
  · rename_i hzero
    exact ⟨by simp [insts], by simp [insts, hzero]⟩
  · exact moves_of rfl (Int.add_zero bytes)

/-- Such code is balanced, from any height. -/
theorem Moves.balanced {p : Program} {env : Label → Int} {h h' : Int} (hmoves : code.Moves d)
    (hh' : h' = h - d) : Balanced p env [] (.ofCode code) h h' := by
  subst hh'
  induction code generalizing d h with
  | nil =>
    obtain rfl : 0 = d := hmoves.sum
    rw [Int.sub_zero]
    exact .nil
  | cons line code ih =>
    obtain ⟨span, inst⟩ := line
    have hplain : inst.isPlain := hmoves.plain inst (by simp [insts])
    have hsum : inst.displacement + ((insts code).map Inst.displacement).sum = d := hmoves.sum
    have hrest : Moves code (d - inst.displacement) := by
      refine ⟨fun i hi => hmoves.plain i ?_, by omega⟩
      exact List.mem_cons_of_mem _ hi
    simp only [Inst.isPlain, Bool.and_eq_true, Bool.not_eq_true', Option.isNone_iff_eq_none]
      at hplain
    have hcode := ih (h := h - inst.displacement) hrest
    rw [show h - inst.displacement - (d - inst.displacement) = h - d by omega] at hcode
    refine .line hplain.1.1 ⟨?_, ?_⟩ (fun _ => rfl) hcode
    · intro l hl
      rw [hplain.1.2] at hl
      cases hl
    · intro l hl
      rw [hplain.2] at hl
      cases hl

end Code

namespace Balanced

variable {p : Program} {env : Label → Int} {callees : List MethodId} {t u : Trace} {span : Span}
  {h h₁ h' : Int}

/-- A trace without calls may follow. -/
theorem follow (ht : Balanced p env callees t h h₁) (hu : Balanced p env [] u h₁ h') :
    Balanced p env callees (t ++ u) h h' := by
  have hall := ht.append hu
  rwa [List.append_nil] at hall

/-- Code that only moves the stack pointer may follow. -/
theorem moves {code : Code} {d : Int} (ht : Balanced p env callees t h h₁) (hmoves : code.Moves d)
    (hh' : h' = h₁ - d) : Balanced p env callees (t ++ .ofCode code) h h' :=
  ht.follow (hmoves.balanced hh')

/-- An instruction that leaves the stack pointer alone may come first. -/
theorem still {inst : Inst} (hplain : inst.isPlain) (hstill : inst.displacement = 0)
    (ht : Balanced p env callees t h h') :
    Balanced p env callees (.line ⟨span, inst⟩ :: t) h h' := by
  have hfirst : (Code.of span [inst]).Moves 0 :=
    Code.moves_of (by simp [hplain]) (by simp [hstill])
  exact (hfirst.balanced (Int.sub_zero h).symm).append ht

/-- A label may come first, at the height given for it. -/
theorem label {l : Label} (hl : env l = h) (ht : Balanced p env callees t h h') :
    Balanced p env callees (.line ⟨span, .label l⟩ :: t) h h' := by
  refine .line rfl ⟨?_, nofun⟩ (fun _ => (Int.sub_zero h).symm) ht
  intro l' hl'
  rw [← Option.some.inj hl', hl]

/-- An instruction that jumps to a label only agrees with the height of the label. -/
theorem agrees_of_target {inst : Inst} {l : Label} (hlabel : inst.definedLabel = none)
    (hstill : inst.displacement = 0) (htarget : ∀ l', inst.target? = some l' → l' = l)
    (hl : env l = h) : inst.Agrees env h (h - inst.displacement) := by
  constructor
  · intro l' hl'
    rw [hlabel] at hl'
    cases hl'
  · intro l' hl'
    rw [htarget l' hl', hl, hstill, Int.sub_zero]

/-- A jump may come first if its label has the height of the jump.  Where it ends is open. -/
theorem jump {l : Label} (hl : env l = h) (ht : Balanced p env callees t h₁ h') :
    Balanced p env callees (.line ⟨span, .j l⟩ :: t) h h' := by
  refine .line rfl (agrees_of_target rfl rfl ?_ hl) nofun ht
  intro l' hl'
  cases l <;> simp_all [Inst.target?]

/-- A branch may come first if its label has the height of the branch. -/
theorem branch {op : BranchOp} {rs rt : Reg} {l : Label} (hl : env l = h)
    (ht : Balanced p env callees t h h') :
    Balanced p env callees (.line ⟨span, .branch op rs rt l⟩ :: t) h h' := by
  refine .line rfl (agrees_of_target rfl rfl ?_ hl) (fun _ => (Int.sub_zero h).symm) ht
  intro l' hl'
  cases l <;> simp_all [Inst.target?]

end Balanced

/-! ## The blocks of expressions -/

namespace Gen

variable {p : Program} {span : Span} {code : Code} {f f' : Frame}

theorem pushScalar_moves {reg : Reg} (h : (pushScalar span reg).run f = .ok (code, f')) :
    code.Moves (-(2 * wordSize)) ∧ f' = { f with height := f.height + 2 * wordSize } := by
  obtain ⟨rfl, hf'⟩ := pushScalar_run h
  exact ⟨Code.moves_of rfl rfl, hf'⟩

theorem pushReference_moves {reg : Reg} (h : (pushReference span reg).run f = .ok (code, f')) :
    code.Moves (-wordSize) ∧ f' = { f with height := f.height + wordSize } := by
  obtain ⟨rfl, hf'⟩ := pushReference_run h
  exact ⟨Code.moves_of rfl rfl, hf'⟩

theorem tagTop_moves (h : (tagTop span).run f = .ok (code, f')) :
    code.Moves (-wordSize) ∧ f' = { f with height := f.height + wordSize } := by
  obtain ⟨rfl, hf'⟩ := tagTop_run h
  exact ⟨Code.moves_of rfl rfl, hf'⟩

theorem pop_moves {bytes : Int} (h : (pop span bytes).run f = .ok (code, f')) :
    code.Moves bytes ∧ f' = { f with height := f.height - bytes } := by
  obtain ⟨rfl, hf'⟩ := pop_run h
  exact ⟨Code.moves_dropCode span bytes, hf'⟩

theorem loadClassRange_eq_ok {ty : Ty} {range : List Inst} (h : loadClassRange p ty = .ok range) :
    ∃ start stop, range = [.la .t0 start, .la .t1 stop] := by
  simp only [loadClassRange, bind_eq_ok_iff, pure_eq_ok_iff] at h
  obtain ⟨⟨start, stop⟩, _, rfl⟩ := h
  exact ⟨start, stop, rfl⟩

/-- Two scalars in registers and on the stack become one. -/
theorem combineOperands_moves {op : BinOp} (h : (do
      let drop ← pop span (2 * wordSize)
      return Code.of span ([.lw .t0 0 .sp, .lw .t1 (2 * wordSize) .sp] ++ combine op)
        ++ drop ++ Code.of span [.sw .t0 0 .sp] : Gen Code).run f = .ok (code, f')) :
    code.Moves (2 * wordSize) ∧ f' = { f with height := f.height - 2 * wordSize } := by
  simp only [run_bind_eq_ok_iff, run_pure_eq_ok_iff] at h
  obtain ⟨drop, _, hdrop, rfl, rfl⟩ := h
  obtain ⟨hmoves, rfl⟩ := pop_moves hdrop
  have hcombine : (Code.of span ([.lw .t0 0 .sp, .lw .t1 (2 * wordSize) .sp] ++
      combine op)).Moves 0 := by
    cases op <;> exact Code.moves_of rfl rfl
  have hstore : (Code.of span [.sw .t0 0 .sp]).Moves 0 := Code.moves_of rfl rfl
  exact ⟨(hcombine.append hmoves).append hstore, rfl⟩

/-- A routine that pops a scalar is recorded in the frame alone. -/
theorem callDivision_run {routine : Routine} (h : (do
      popped (2 * wordSize)
      return Code.of span [.callRoutine routine] : Gen Code).run f = .ok (code, f')) :
    code = Code.of span [.callRoutine routine] ∧
      f' = { f with height := f.height - 2 * wordSize } := by
  simp only [run_bind_eq_ok_iff, run_pure_eq_ok_iff] at h
  obtain ⟨_, _, hpopped, rfl, rfl⟩ := h
  exact ⟨rfl, (popped_run hpopped).2⟩

/-- An operator pops one of two scalars, and none of two references. -/
theorem applyOperator_moves {op : BinOp} {onReferences : Bool}
    (h : (applyOperator span op onReferences).run f = .ok (code, f')) :
    ∃ d, d = (if op = .eq ∧ onReferences then 0 else 2 * wordSize) ∧ code.Moves d ∧
      f' = { f with height := f.height - d } := by
  refine ⟨_, rfl, ?_⟩
  cases op with
  | div =>
    obtain ⟨rfl, rfl⟩ := callDivision_run h
    exact ⟨Code.moves_of rfl rfl, rfl⟩
  | rem =>
    obtain ⟨rfl, rfl⟩ := callDivision_run h
    exact ⟨Code.moves_of rfl rfl, rfl⟩
  | eq =>
    cases onReferences with
    | true =>
      obtain ⟨rfl, rfl⟩ := run_pure_eq_ok_iff.1 h
      exact ⟨Code.moves_of rfl rfl, by simp⟩
    | false => exact combineOperands_moves h
  | _ => exact combineOperands_moves h

/-- An array and an index become the element. -/
theorem loadElement_moves {ty : Ty} (h : (loadElement span ty).run f = .ok (code, f')) :
    ∃ d, d = (if ty.isScalar then wordSize else 2 * wordSize) ∧ code.Moves d ∧
      f' = { f with height := f.height - d } := by
  refine ⟨_, rfl, ?_⟩
  rw [loadElement] at h
  split at h
  · rename_i hscalar
    rw [if_pos hscalar]
    simp only [run_bind_eq_ok_iff, run_pure_eq_ok_iff] at h
    obtain ⟨drop, _, hdrop, rfl, rfl⟩ := h
    obtain ⟨hmoves, rfl⟩ := pop_moves hdrop
    exact ⟨((Code.moves_of (d := 0) rfl rfl).append hmoves).append
      (Code.moves_of (d := 0) rfl rfl), rfl⟩
  · rename_i hscalar
    rw [if_neg hscalar]
    simp only [run_bind_eq_ok_iff, run_pure_eq_ok_iff] at h
    obtain ⟨drop, _, hdrop, rfl, rfl⟩ := h
    obtain ⟨hmoves, rfl⟩ := pop_moves hdrop
    exact ⟨((Code.moves_of (d := 0) rfl rfl).append hmoves).append
      (Code.moves_of (d := 0) rfl rfl), rfl⟩

/-- An object becomes one of its fields. -/
theorem loadField_moves {ty : Ty} {offset : Int}
    (h : (loadField span ty offset).run f = .ok (code, f')) :
    ∃ d, d = (if ty.isScalar then -wordSize else 0) ∧ code.Moves d ∧
      f' = { f with height := f.height - d } := by
  refine ⟨_, rfl, ?_⟩
  rw [loadField] at h
  split at h
  · rename_i hscalar
    rw [if_pos hscalar]
    simp only [run_bind_eq_ok_iff, run_pure_eq_ok_iff] at h
    obtain ⟨tag, _, htag, rfl, rfl⟩ := h
    obtain ⟨hmoves, rfl⟩ := tagTop_moves htag
    exact ⟨(Code.moves_of (d := 0) rfl rfl).append hmoves, by rw [Int.sub_neg]⟩
  · rename_i hscalar
    rw [if_neg hscalar]
    obtain ⟨rfl, rfl⟩ := run_pure_eq_ok_iff.1 h
    exact ⟨Code.moves_of rfl rfl, by rw [Int.sub_zero]⟩

end Gen

namespace ExprTree

variable {p : Program} {l : Layout} {e : ExprTree} {code : Code} {f f' : Frame}

/-- The expression has no operands. -/
def isLeaf : ExprTree → Bool
  | .broken _ _ | .int _ _ | .str _ _ | .bool _ _ | .null _ | .this _ | .super _ | .ident _ _
  | .new _ _ => true
  | _ => false

/-- Induction on a word-typed expression.  Its operands are word-typed, so each of them comes with
its type and its hypothesis. -/
@[elab_as_elim]
theorem isWordTyped_induct {motive : (e : ExprTree) → e.isWordTyped p → Prop}
    (leaf : ∀ (e : ExprTree) (htyped : e.isWordTyped p), e.isLeaf → motive e htyped)
    (not : ∀ (info : ExprInfo) (operand : Unit → ExprTree)
      (htyped : (ExprTree.not info operand).isWordTyped p)
      (hoperand : (operand ()).isWordTyped p), motive (operand ()) hoperand →
      motive (.not info operand) htyped)
    (binary : ∀ (info : ExprInfo) (op : BinOp) (lhs rhs : Unit → ExprTree)
      (htyped : (ExprTree.binary info op lhs rhs).isWordTyped p)
      (hlhs : (lhs ()).isWordTyped p) (hrhs : (rhs ()).isWordTyped p),
      motive (lhs ()) hlhs → motive (rhs ()) hrhs → motive (.binary info op lhs rhs) htyped)
    (arrayLength : ∀ (info : ExprInfo) (array : Unit → ExprTree)
      (htyped : (ExprTree.arrayLength info array).isWordTyped p)
      (harray : (array ()).isWordTyped p), motive (array ()) harray →
      motive (.arrayLength info array) htyped)
    (index : ∀ (info : ExprInfo) (array i : Unit → ExprTree)
      (htyped : (ExprTree.index info array i).isWordTyped p)
      (harray : (array ()).isWordTyped p) (hi : (i ()).isWordTyped p),
      motive (array ()) harray → motive (i ()) hi → motive (.index info array i) htyped)
    (field : ∀ (info : ExprInfo) (object : Unit → ExprTree) (x : VarId)
      (htyped : (ExprTree.field info object x).isWordTyped p)
      (hobject : (object ()).isWordTyped p), motive (object ()) hobject →
      motive (.field info object x) htyped)
    (instanceOf : ∀ (info : ExprInfo) (operand : Unit → ExprTree) (ty : Ty)
      (htyped : (ExprTree.instanceOf info operand ty).isWordTyped p)
      (hoperand : (operand ()).isWordTyped p), motive (operand ()) hoperand →
      motive (.instanceOf info operand ty) htyped)
    (cast : ∀ (info : ExprInfo) (ty : Ty) (operand : Unit → ExprTree)
      (htyped : (ExprTree.cast info ty operand).isWordTyped p)
      (hoperand : (operand ()).isWordTyped p), motive (operand ()) hoperand →
      motive (.cast info ty operand) htyped)
    (newArray : ∀ (info : ExprInfo) (elem : Ty) (size : Unit → ExprTree)
      (htyped : (ExprTree.newArray info elem size).isWordTyped p)
      (hsize : (size ()).isWordTyped p), motive (size ()) hsize →
      motive (.newArray info elem size) htyped)
    (call : ∀ (info : ExprInfo) (receiver : Unit → ExprTree) (method : MethodId)
      (args : List (Unit → ExprTree))
      (htyped : (ExprTree.call info receiver method args).isWordTyped p)
      (hreceiver : (receiver ()).isWordTyped p)
      (hargs : ∀ arg ∈ args, (arg ()).isWordTyped p), motive (receiver ()) hreceiver →
      (∀ arg harg, motive (arg ()) (hargs arg harg)) →
      motive (.call info receiver method args) htyped)
    (htyped : e.isWordTyped p) : motive e htyped := by
  induction e with
  | broken | int | str | bool | null | this | super | ident | new => exact leaf _ htyped rfl
  | not info operand ih =>
    have hparts := htyped
    simp only [isWordTyped, Bool.and_eq_true] at hparts
    exact not info operand htyped hparts.2 (ih hparts.2)
  | binary info op lhs rhs ihLeft ihRight =>
    have hparts := htyped
    simp only [isWordTyped, Bool.and_eq_true] at hparts
    obtain ⟨⟨_, hlhs⟩, hrhs⟩ := hparts
    exact binary info op lhs rhs htyped hlhs hrhs (ihLeft hlhs) (ihRight hrhs)
  | arrayLength info array ih =>
    have hparts := htyped
    simp only [isWordTyped, Bool.and_eq_true] at hparts
    exact arrayLength info array htyped hparts.2 (ih hparts.2)
  | index info array i ihArray ihIndex =>
    have hparts := htyped
    simp only [isWordTyped, Bool.and_eq_true] at hparts
    obtain ⟨⟨_, harray⟩, hi⟩ := hparts
    exact index info array i htyped harray hi (ihArray harray) (ihIndex hi)
  | field info object x ih =>
    have hparts := htyped
    simp only [isWordTyped, Bool.and_eq_true] at hparts
    exact field info object x htyped hparts.2 (ih hparts.2)
  | instanceOf info operand ty ih =>
    have hparts := htyped
    simp only [isWordTyped, Bool.and_eq_true] at hparts
    exact instanceOf info operand ty htyped hparts.2 (ih hparts.2)
  | cast info ty operand ih =>
    have hparts := htyped
    simp only [isWordTyped, Bool.and_eq_true] at hparts
    exact cast info ty operand htyped hparts.2 (ih hparts.2)
  | newArray info elem size ih =>
    have hparts := htyped
    simp only [isWordTyped, Bool.and_eq_true] at hparts
    exact newArray info elem size htyped hparts.2 (ih hparts.2)
  | call info receiver method args ihReceiver ihArgs =>
    cases hdecl : p.methodAt method with
    | error fault => simp [isWordTyped, hdecl] at htyped
    | ok decl =>
      have hparts := htyped
      simp only [isWordTyped, hdecl, Bool.and_eq_true, isWordTypedAll_iff] at hparts
      obtain ⟨⟨_, hreceiver⟩, hargs⟩ := hparts
      exact call info receiver method args htyped hreceiver hargs (ihReceiver hreceiver)
        fun arg harg => ihArgs arg harg (hargs arg harg)

/-- The code of a leaf pushes its value. -/
theorem leaf_moves (hleaf : e.isLeaf) (h : (e.code p l).run f = .ok (code, f'))
    (htyped : e.isWordTyped p) : code.Moves (-e.ty.stackBytes) ∧
      f' = { f with height := f.height + e.ty.stackBytes } := by
  cases e with
  | broken id fault => exact absurd h run_throw_ne_ok
  | int info value =>
    simp only [ExprTree.code, run_bind_eq_ok_iff, run_pure_eq_ok_iff] at h
    obtain ⟨push, _, hpush, rfl, rfl⟩ := h
    obtain ⟨hmoves, rfl⟩ := pushScalar_moves hpush
    rw [ty, Ty.stackBytes_of_isScalar htyped]
    exact ⟨(Code.moves_of (d := 0) rfl rfl).append hmoves, rfl⟩
  | bool info value =>
    rw [ty, Ty.stackBytes_of_isScalar htyped]
    cases value with
    | true =>
      simp only [ExprTree.code, run_bind_eq_ok_iff, run_pure_eq_ok_iff] at h
      obtain ⟨push, _, hpush, rfl, rfl⟩ := h
      obtain ⟨hmoves, rfl⟩ := pushScalar_moves hpush
      exact ⟨(Code.moves_of (d := 0) rfl rfl).append hmoves, rfl⟩
    | false => exact pushScalar_moves h
  | str info value =>
    simp only [ExprTree.code, run_bind_eq_ok_iff, run_pure_eq_ok_iff] at h
    obtain ⟨push, _, hpush, rfl, rfl⟩ := h
    obtain ⟨hmoves, rfl⟩ := pushReference_moves hpush
    rw [ty, Ty.stackBytes_of_isReference htyped]
    exact ⟨(Code.moves_of (d := 0) rfl rfl).append hmoves, rfl⟩
  | null info | this info | super info =>
    rw [ty, Ty.stackBytes_of_isReference htyped]
    exact pushReference_moves h
  | ident info var =>
    simp only [ExprTree.code, run_bind_eq_ok_iff, run_pure_eq_ok_iff, pushValue] at h
    obtain ⟨⟨offset, base⟩, _, haddress, push, _, hpush, rfl, rfl⟩ := h
    obtain rfl := varAddress_run haddress
    rw [isWordTyped, Ty.readsFrom, Bool.and_eq_true, Bool.not_eq_true'] at htyped
    rw [ty, Ty.stackBytes_of_not_isVoid htyped.1]
    split at hpush
    · rename_i hscalar
      obtain ⟨hmoves, rfl⟩ := pushScalar_moves hpush
      rw [if_pos hscalar]
      exact ⟨(Code.moves_of (d := 0) rfl rfl).append hmoves, rfl⟩
    · rename_i hscalar
      obtain ⟨hmoves, rfl⟩ := pushReference_moves hpush
      rw [if_neg hscalar]
      exact ⟨(Code.moves_of (d := 0) rfl rfl).append hmoves, rfl⟩
  | new info c =>
    obtain ⟨_, _, _, _, _, rfl, rfl⟩ := new_run h
    rw [ty, Ty.stackBytes_of_isReference htyped]
    exact ⟨Code.moves_of rfl rfl, rfl⟩
  | _ => simp [isLeaf] at hleaf

mutual

/-- The methods that the code of an expression calls, in order. -/
def callees : ExprTree → List MethodId
  | .not _ operand | .instanceOf _ operand _ | .cast _ _ operand => (operand ()).callees
  | .arrayLength _ array => (array ()).callees
  | .field _ object _ => (object ()).callees
  | .newArray _ _ size => (size ()).callees
  | .binary _ _ lhs rhs => (lhs ()).callees ++ (rhs ()).callees
  | .index _ array i => (array ()).callees ++ (i ()).callees
  | .call _ receiver method args => (receiver ()).callees ++ calleesAll args ++ [method]
  | _ => []

/-- The methods that the code of some expressions calls, in order. -/
def calleesAll : List (Unit → ExprTree) → List MethodId
  | [] => []
  | e :: es => (e ()).callees ++ calleesAll es

end

end ExprTree

/-- The heights of labels, from the heights at which nodes start.  The code behind a short circuit
finds a scalar above that, and that behind a statement finds nothing. -/
def labelHeight (bottom : Int) (heights : Node → Int) : Label → Int
  | .skip e => heights (.expr e) + 2 * wordSize
  | .ifElse s | .ifDone s | .whileTop s | .whileEnter s | .breakTarget s => heights (.stmt s)
  | _ => bottom

namespace ExprTree

section Law

variable {p : Program} {l : Layout} {bottom : Int} {heights : Node → Int} {e : ExprTree} {t : Trace}
  {f f' : Frame}

/-- The height law of an expression, and that the stack pointer moves by it. -/
structure KeepsHeight (p : Program) (l : Layout) (bottom : Int) (heights : Node → Int)
    (e : ExprTree) : Prop where
  run {t : Trace} {f f' : Frame} : (e.traced p l).run f = .ok (t, f') →
    f' = { f with height := f.height + e.ty.stackBytes } ∧ (t.StartsAt heights →
      Balanced p (labelHeight bottom heights) e.callees t f.height f'.height)

/-- How many bytes the values of expressions take on the stack. -/
def valueBytes (es : List (Unit → ExprTree)) : Int :=
  (es.map fun e => (e ()).ty.stackBytes).sum

@[simp] theorem valueBytes_nil : valueBytes [] = 0 :=
  rfl

@[simp] theorem valueBytes_cons (e : Unit → ExprTree) (es : List (Unit → ExprTree)) :
    valueBytes (e :: es) = (e ()).ty.stackBytes + valueBytes es := by
  rw [valueBytes, List.map_cons, List.sum_cons, valueBytes]

theorem KeepsHeight.tracedAll_run {es : List (Unit → ExprTree)}
    (heach : ∀ e ∈ es, KeepsHeight p l bottom heights (e ()))
    (h : (tracedAll p l es).run f = .ok (t, f')) :
    f' = { f with height := f.height + valueBytes es } ∧ (t.StartsAt heights →
      Balanced p (labelHeight bottom heights) (calleesAll es) t f.height f'.height) := by
  induction es generalizing t f f' with
  | nil =>
    obtain ⟨rfl, rfl⟩ := run_pure_eq_ok_iff.1 h
    rw [valueBytes_nil, Int.add_zero]
    exact ⟨rfl, fun _ => .nil⟩
  | cons e es ih =>
    rw [List.forall_mem_cons] at heach
    simp only [tracedAll, run_bind_eq_ok_iff, run_pure_eq_ok_iff] at h
    obtain ⟨value, _, hvalue, rest, _, hrest, rfl, rfl⟩ := h
    obtain ⟨rfl, hfirst⟩ := heach.1.run hvalue
    obtain ⟨rfl, htail⟩ := ih heach.2 hrest
    rw [valueBytes_cons, ← Int.add_assoc]
    refine ⟨rfl, fun hstarts => ?_⟩
    rw [Trace.startsAt_append] at hstarts
    exact (hfirst hstarts.1).append (htail hstarts.2)

/-! ## Expressions that evaluate all operands first -/

/-- The expression evaluates operands and then puts its value in their place.  The rest of its trace
starts no node and calls the given methods. -/
structure Replaces (p : Program) (l : Layout) (operands : List (Unit → ExprTree))
    (calls : List MethodId) (e : ExprTree) : Prop where
  run {t : Trace} {f f' : Frame} : (e.traced p l).run f = .ok (t, f') →
    ∃ values f₁ rest, (tracedAll p l operands).run f = .ok (values, f₁) ∧
      t = .starts (.expr e.id) f.height :: (values ++ rest) ++ [.ends (.expr e.id) f'.height] ∧
      (f₁ = { f with height := f.height + valueBytes operands } →
        f' = { f with height := f.height + e.ty.stackBytes } ∧
        ∀ env, Balanced p env calls rest f₁.height f'.height)

theorem Replaces.keepsHeight {operands : List (Unit → ExprTree)} {calls : List MethodId}
    (h : Replaces p l operands calls e) (hcallees : e.callees = calleesAll operands ++ calls)
    (heach : ∀ o ∈ operands, KeepsHeight p l bottom heights (o ())) :
    KeepsHeight p l bottom heights e := by
  constructor
  intro t f f' hrun
  obtain ⟨values, f₁, rest, hvalues, rfl, hrest⟩ := h.run hrun
  obtain ⟨hf₁, hbalanced⟩ := KeepsHeight.tracedAll_run heach hvalues
  obtain ⟨hf', htail⟩ := hrest hf₁
  refine ⟨hf', fun hstarts => ?_⟩
  simp only [List.cons_append, Trace.startsAt_starts, Trace.startsAt_append] at hstarts
  rw [hcallees]
  exact ((hbalanced hstarts.2.1.1).append (htail _)).visit

/-- Code that moves the stack pointer from the width of the operands to that of the expression
replaces the operands. -/
theorem replaces_of_moves {operands : List (Unit → ExprTree)}
    (h : ∀ {t f f'}, (e.traced p l).run f = .ok (t, f') →
      ∃ values f₁ code d, (tracedAll p l operands).run f = .ok (values, f₁) ∧
        Code.Moves code d ∧ valueBytes operands - d = e.ty.stackBytes ∧
        f' = { f₁ with height := f₁.height - d } ∧
        t = .starts (.expr e.id) f.height :: (values ++ .ofCode code)
          ++ [.ends (.expr e.id) f'.height]) :
    Replaces p l operands [] e := by
  constructor
  intro t f f' hrun
  obtain ⟨values, f₁, code, d, hvalues, hmoves, hbytes, rfl, rfl⟩ := h hrun
  refine ⟨values, f₁, .ofCode code, hvalues, rfl, ?_⟩
  rintro rfl
  refine ⟨?_, fun env => hmoves.balanced rfl⟩
  rw [← hbytes, ← Int.add_sub_assoc]

theorem tracedAll_singleton_run {e : Unit → ExprTree}
    (h : ((e ()).traced p l).run f = .ok (t, f')) :
    (tracedAll p l [e]).run f = .ok (t, f') := by
  simp only [tracedAll, run_bind_eq_ok_iff, run_pure_eq_ok_iff]
  exact ⟨t, f', h, [], f', ⟨rfl, rfl⟩, List.append_nil t, rfl⟩

theorem tracedAll_pair_run {e e' : Unit → ExprTree} {t' : Trace} {f₁ : Frame}
    (h : ((e ()).traced p l).run f = .ok (t, f₁))
    (h' : ((e' ()).traced p l).run f₁ = .ok (t', f')) :
    (tracedAll p l [e, e']).run f = .ok (t ++ t', f') := by
  rw [tracedAll, run_bind_eq_ok_iff]
  refine ⟨t, f₁, h, ?_⟩
  rw [run_bind_eq_ok_iff]
  exact ⟨t', f', tracedAll_singleton_run h', run_pure_eq_ok_iff.2 ⟨rfl, rfl⟩⟩

/-- A leaf calls nothing. -/
theorem callees_of_isLeaf (hleaf : e.isLeaf) : e.callees = [] := by
  cases e with
  | not | binary | arrayLength | index | field | instanceOf | cast | newArray | call =>
    simp [isLeaf] at hleaf
  | _ => rfl

/-- A leaf has no operands. -/
theorem replaces_leaf (hleaf : e.isLeaf) (htyped : e.isWordTyped p) : Replaces p l [] [] e := by
  apply replaces_of_moves
  intro t f f' h
  obtain ⟨code, hcode, rfl⟩ : ∃ code, (e.code p l).run f = .ok (code, f') ∧
      t = .starts (.expr e.id) f.height :: Trace.ofCode code ++ [.ends (.expr e.id) f'.height] := by
    cases e with
    | not | binary | arrayLength | index | field | instanceOf | cast | newArray | call =>
      simp [isLeaf] at hleaf
    | _ =>
      simp only [traced, visiting_run, unmarked, run_bind_eq_ok_iff, run_pure_eq_ok_iff] at h
      obtain ⟨_, ⟨code, _, hcode, rfl, rfl⟩, rfl⟩ := h
      exact ⟨code, hcode, rfl⟩
  obtain ⟨hmoves, rfl⟩ := leaf_moves hleaf hcode htyped
  refine ⟨[], f, code, -e.ty.stackBytes, run_pure_eq_ok_iff.2 ⟨rfl, rfl⟩, hmoves, ?_, ?_, rfl⟩
  · rw [valueBytes_nil, Int.zero_sub, Int.neg_neg]
  · rw [Int.sub_neg]

theorem replaces_not {info : ExprInfo} {operand : Unit → ExprTree}
    (htyped : (ExprTree.not info operand).isWordTyped p) :
    Replaces p l [operand] [] (.not info operand) := by
  simp only [isWordTyped, Bool.and_eq_true] at htyped
  obtain ⟨⟨hresult, hoperand⟩, _⟩ := htyped
  apply replaces_of_moves
  intro t f f' h
  simp only [traced, visiting_run, run_bind_eq_ok_iff, run_pure_eq_ok_iff] at h
  obtain ⟨_, ⟨value, f₁, hvalue, rfl, rfl⟩, rfl⟩ := h
  refine ⟨value, f₁, _, 0, tracedAll_singleton_run hvalue, Code.moves_of rfl rfl, ?_, ?_, rfl⟩
  · show _ = info.ty.stackBytes
    simp [Ty.stackBytes_of_isScalar hresult, Ty.stackBytes_of_isScalar hoperand]
  · rw [Int.sub_zero]

theorem replaces_arrayLength {info : ExprInfo} {array : Unit → ExprTree}
    (htyped : (ExprTree.arrayLength info array).isWordTyped p) :
    Replaces p l [array] [] (.arrayLength info array) := by
  simp only [isWordTyped, Bool.and_eq_true] at htyped
  obtain ⟨⟨hresult, harray⟩, _⟩ := htyped
  apply replaces_of_moves
  intro t f f' h
  simp only [traced, visiting_run, run_bind_eq_ok_iff, run_pure_eq_ok_iff] at h
  obtain ⟨_, ⟨base, f₁, hbase, tag, _, htag, rfl, rfl⟩, rfl⟩ := h
  obtain ⟨hmoves, rfl⟩ := tagTop_moves htag
  rw [List.append_assoc, Trace.of, ← Trace.ofCode_append]
  refine ⟨base, f₁, _, _, tracedAll_singleton_run hbase,
    (Code.moves_of (d := 0) rfl rfl).append hmoves, ?_, ?_, rfl⟩
  · show _ = info.ty.stackBytes
    simp only [valueBytes_cons, valueBytes_nil, Ty.stackBytes_of_isScalar hresult,
      Ty.stackBytes_of_isReference harray]
    omega
  · rw [Int.zero_add, Int.sub_neg]

theorem replaces_index {info : ExprInfo} {array i : Unit → ExprTree}
    (htyped : (ExprTree.index info array i).isWordTyped p) :
    Replaces p l [array, i] [] (.index info array i) := by
  simp only [isWordTyped, Bool.and_eq_true, Bool.not_eq_true'] at htyped
  obtain ⟨⟨⟨⟨⟨hvoid, _⟩, harray⟩, hi⟩, _⟩, _⟩ := htyped
  apply replaces_of_moves
  intro t f f' h
  simp only [traced, visiting_run, run_bind_eq_ok_iff, run_pure_eq_ok_iff] at h
  obtain ⟨_, ⟨base, _, hbase, position, f₁, hposition, load, _, hload, rfl, rfl⟩, rfl⟩ := h
  obtain ⟨d, hd, hmoves, rfl⟩ := loadElement_moves hload
  refine ⟨base ++ position, f₁, load, d, tracedAll_pair_run hbase hposition, hmoves, ?_, rfl, rfl⟩
  show _ = info.ty.stackBytes
  simp only [valueBytes_cons, valueBytes_nil, Ty.stackBytes_of_isReference harray,
    Ty.stackBytes_of_isScalar hi, Ty.stackBytes_of_not_isVoid hvoid, hd]
  split <;> omega

theorem replaces_field {info : ExprInfo} {object : Unit → ExprTree} {var : VarId}
    (htyped : (ExprTree.field info object var).isWordTyped p) :
    Replaces p l [object] [] (.field info object var) := by
  simp only [isWordTyped, Ty.readsFrom, Bool.and_eq_true, Bool.not_eq_true'] at htyped
  obtain ⟨⟨⟨hvoid, _⟩, hobject⟩, _⟩ := htyped
  apply replaces_of_moves
  intro t f f' h
  simp only [traced, visiting_run, run_bind_eq_ok_iff, run_liftM_eq_ok_iff,
    run_pure_eq_ok_iff] at h
  obtain ⟨_, ⟨base, f₁, hbase, offset, _, ⟨_, rfl⟩, load, _, hload, rfl, rfl⟩, rfl⟩ := h
  obtain ⟨d, hd, hmoves, rfl⟩ := loadField_moves hload
  refine ⟨base, f₁, load, d, tracedAll_singleton_run hbase, hmoves, ?_, rfl, rfl⟩
  show _ = info.ty.stackBytes
  simp only [valueBytes_cons, valueBytes_nil, Ty.stackBytes_of_isReference hobject,
    Ty.stackBytes_of_not_isVoid hvoid, hd]
  split <;> omega

theorem replaces_instanceOf {info : ExprInfo} {operand : Unit → ExprTree} {ty : Ty}
    (htyped : (ExprTree.instanceOf info operand ty).isWordTyped p) :
    Replaces p l [operand] [] (.instanceOf info operand ty) := by
  simp only [isWordTyped, Bool.and_eq_true] at htyped
  obtain ⟨⟨hresult, hoperand⟩, _⟩ := htyped
  apply replaces_of_moves
  intro t f f' h
  simp only [traced, visiting_run, run_bind_eq_ok_iff, run_liftM_eq_ok_iff,
    run_pure_eq_ok_iff] at h
  obtain ⟨_, ⟨value, f₁, hvalue, range, _, ⟨hrange, rfl⟩, tag, _, htag, rfl, rfl⟩, rfl⟩ := h
  obtain ⟨start, stop, rfl⟩ := loadClassRange_eq_ok hrange
  obtain ⟨hmoves, rfl⟩ := tagTop_moves htag
  rw [List.append_assoc, Trace.of, ← Trace.ofCode_append]
  refine ⟨value, f₁, _, _, tracedAll_singleton_run hvalue,
    (Code.moves_of (d := 0) rfl rfl).append hmoves, ?_, ?_, rfl⟩
  · show _ = info.ty.stackBytes
    simp only [valueBytes_cons, valueBytes_nil, Ty.stackBytes_of_isScalar hresult,
      Ty.stackBytes_of_isReference hoperand]
    omega
  · rw [Int.zero_add, Int.sub_neg]

theorem replaces_cast {info : ExprInfo} {ty : Ty} {operand : Unit → ExprTree}
    (htyped : (ExprTree.cast info ty operand).isWordTyped p) :
    Replaces p l [operand] [] (.cast info ty operand) := by
  simp only [isWordTyped, Bool.and_eq_true, beq_iff_eq] at htyped
  have hbytes : valueBytes [operand] - 0 = (ExprTree.cast info ty operand).ty.stackBytes := by
    show _ = info.ty.stackBytes
    simp [htyped.1]
  apply replaces_of_moves
  intro t f f' h
  simp only [traced, visiting_run, run_bind_eq_ok_iff, run_liftM_eq_ok_iff] at h
  obtain ⟨_, ⟨value, f₁, hvalue, isSubtype, _, ⟨_, rfl⟩, h⟩, rfl⟩ := h
  split at h
  · obtain ⟨rfl, rfl⟩ := run_pure_eq_ok_iff.1 h
    refine ⟨value, f₁, [], 0, tracedAll_singleton_run hvalue, ⟨by simp [Code.insts], rfl⟩,
      hbytes, by rw [Int.sub_zero], ?_⟩
    simp [Trace.ofCode, id]
  · simp only [run_bind_eq_ok_iff, run_liftM_eq_ok_iff, run_pure_eq_ok_iff] at h
    obtain ⟨range, _, ⟨hrange, rfl⟩, rfl, rfl⟩ := h
    obtain ⟨start, stop, rfl⟩ := loadClassRange_eq_ok hrange
    exact ⟨value, f₁, _, 0, tracedAll_singleton_run hvalue, Code.moves_of rfl rfl, hbytes,
      by rw [Int.sub_zero], rfl⟩

theorem replaces_newArray {info : ExprInfo} {elem : Ty} {size : Unit → ExprTree}
    (htyped : (ExprTree.newArray info elem size).isWordTyped p) :
    Replaces p l [size] [] (.newArray info elem size) := by
  simp only [isWordTyped, Bool.and_eq_true] at htyped
  obtain ⟨⟨hresult, hsize⟩, _⟩ := htyped
  apply replaces_of_moves
  intro t f f' h
  simp only [traced, visiting_run, run_bind_eq_ok_iff, run_liftM_eq_ok_iff,
    run_pure_eq_ok_iff] at h
  obtain ⟨_, ⟨length, f₁, hlength, drop, _, hdrop, _, _, hpushed, record, _, ⟨_, rfl⟩, rfl, rfl⟩,
    rfl⟩ := h
  obtain ⟨hmoves, rfl⟩ := pop_moves hdrop
  obtain rfl := pushed_run hpushed
  rw [List.append_assoc, List.append_assoc, Trace.of, Trace.of, ← Trace.ofCode_append,
    ← Trace.ofCode_append]
  refine ⟨length, f₁, _, _, tracedAll_singleton_run hlength, (Code.moves_of (d := 0) rfl rfl).append
    (hmoves.append (Code.moves_of (d := -wordSize) rfl rfl)), ?_, ?_, rfl⟩
  · show _ = info.ty.stackBytes
    simp only [valueBytes_cons, valueBytes_nil, Ty.stackBytes_of_isReference hresult,
      Ty.stackBytes_of_isScalar hsize]
    omega
  · simp only [Frame.mk.injEq, and_true]
    omega

theorem replaces_operator {info : ExprInfo} {op : BinOp} {lhs rhs : Unit → ExprTree}
    (hop : ¬ op.isShortCircuit) (htyped : (ExprTree.binary info op lhs rhs).isWordTyped p) :
    Replaces p l [lhs, rhs] [] (.binary info op lhs rhs) := by
  simp only [isWordTyped, Bool.and_eq_true] at htyped
  obtain ⟨⟨⟨hresult, htakes⟩, _⟩, _⟩ := htyped
  apply replaces_of_moves
  intro t f f' h
  simp only [traced, visiting_run, run_bind_eq_ok_iff, if_neg hop, run_pure_eq_ok_iff] at h
  obtain ⟨_, ⟨left, _, hleft, right, f₁, hright, apply, _, happly, rfl, rfl⟩, rfl⟩ := h
  obtain ⟨d, hd, hmoves, rfl⟩ := applyOperator_moves happly
  refine ⟨left ++ right, f₁, apply, d, tracedAll_pair_run hleft hright, hmoves, ?_, rfl, rfl⟩
  have hbytes := BinOp.stackBytes_of_takes htakes hd
  show _ = info.ty.stackBytes
  simp only [valueBytes_cons, valueBytes_nil, Ty.stackBytes_of_isScalar hresult]
  omega

/-- Entering a method replaces the receiver and the arguments by the result. -/
theorem balanced_enter {env : Label → Int} {isSuper : Bool} {method : MethodId}
    {decl : MethodDecl} {enter : List Inst} {span : Span} {h h' : Int}
    (hdecl : p.methodAt method = .ok decl) (henter : Enters p l isSuper method enter)
    (hh' : h' = h - (wordSize + p.argumentBytes decl - decl.returnType.stackBytes)) :
    Balanced p env [method] (.of span enter) h h' := by
  have hcall : h - p.callDisplacement method = h' := by
    rw [Program.callDisplacement, hdecl, hh']
  cases isSuper with
  | true =>
    obtain ⟨label, hlabel, rfl⟩ := henter
    refine .call ?_ (hcall ▸ .nil)
    rcases Program.methodLabel_cases hlabel with ⟨_, rfl⟩ | ⟨_, _, rfl⟩ <;> rfl
  | false =>
    obtain ⟨m, _, rfl⟩ := henter.exists_loadEntry
    have hload : (Code.of span (loadEntry (m.receiverOffset - wordSize) m.entryOffset)).Moves 0 :=
      Code.moves_of rfl rfl
    have hjump : Balanced p env [method] (.of span [.jalr .t0]) h h' :=
      .call rfl (hcall ▸ .nil)
    exact (hload.balanced (Int.sub_zero h).symm).append hjump

theorem replaces_call {info : ExprInfo} {receiver : Unit → ExprTree} {method : MethodId}
    {args : List (Unit → ExprTree)}
    (htyped : (ExprTree.call info receiver method args).isWordTyped p) :
    Replaces p l (receiver :: args) [method] (.call info receiver method args) := by
  constructor
  intro t f f' h
  obtain ⟨decl, target, passed, enter, f₁, f₂, hdecl, _, htarget, hpassed, henter, rfl, rfl⟩ :=
    call_traced_run h
  simp only [isWordTyped, hdecl, Bool.and_eq_true, beq_iff_eq] at htyped
  obtain ⟨⟨⟨⟨hresult, hreceiver⟩, hargs⟩, _⟩, _⟩ := htyped
  have hvalues : (tracedAll p l (receiver :: args)).run f = .ok (target ++ passed, f₂) := by
    simp only [tracedAll, run_bind_eq_ok_iff, run_pure_eq_ok_iff]
    exact ⟨target, f₁, htarget, passed, f₂, hpassed, rfl, rfl⟩
  refine ⟨target ++ passed, f₂, .of info.span enter, hvalues, rfl, ?_⟩
  rintro rfl
  refine ⟨by rw [ty, hresult], fun env => balanced_enter hdecl henter ?_⟩
  rw [valueBytes_cons, Ty.stackBytes_of_isReference hreceiver, valueBytes, hargs,
    Program.argumentBytes]
  dsimp only
  omega

/-! ## The height law -/

/-- A short circuit evaluates the right operand in place of the left one, or not at all. -/
theorem keepsHeight_shortCircuit {info : ExprInfo} {op : BinOp} {lhs rhs : Unit → ExprTree}
    (hop : op.isShortCircuit) (htyped : (ExprTree.binary info op lhs rhs).isWordTyped p)
    (hlhs : KeepsHeight p l bottom heights (lhs ()))
    (hrhs : KeepsHeight p l bottom heights (rhs ())) :
    KeepsHeight p l bottom heights (.binary info op lhs rhs) := by
  simp only [isWordTyped, Bool.and_eq_true] at htyped
  obtain ⟨⟨⟨hresult, htakes⟩, _⟩, _⟩ := htyped
  obtain ⟨hl, hr⟩ := BinOp.isScalar_of_isShortCircuit hop htakes
  constructor
  intro t f f' h
  simp only [traced, visiting_run, run_bind_eq_ok_iff, if_pos hop, run_pure_eq_ok_iff] at h
  obtain ⟨_, ⟨left, _, hleft, drop, _, hdrop, right, _, hright, rfl, rfl⟩, rfl⟩ := h
  obtain ⟨rfl, hfirst⟩ := hlhs.run hleft
  obtain ⟨hmoves, rfl⟩ := pop_moves hdrop
  obtain ⟨rfl, hsecond⟩ := hrhs.run hright
  rw [ty, Ty.stackBytes_of_isScalar hresult, Ty.stackBytes_of_isScalar hl,
    Ty.stackBytes_of_isScalar hr] at *
  refine ⟨by simp only [Frame.mk.injEq, and_true]; omega, fun hstarts => ?_⟩
  simp only [List.cons_append, Trace.startsAt_starts, Trace.startsAt_append] at hstarts
  obtain ⟨hnode, ⟨⟨⟨⟨hstartsLeft, _⟩, _⟩, hstartsRight⟩, _⟩, _⟩ := hstarts
  have hskip : labelHeight bottom heights (.skip info.id) = f.height + 2 * wordSize := by
    rw [labelHeight, hnode]
  -- The branch comes with the left operand on the stack, and so does the label with the right.
  refine (((((hfirst hstartsLeft).follow (.still rfl rfl (.branch hskip .nil))).moves hmoves
    rfl).append (hsecond hstartsRight)).follow (.label ?_ .nil)).visit
  rw [hskip]
  dsimp only
  omega

/-- The code of a word-typed expression leaves a value as wide as its type says. -/
theorem keepsHeight (htyped : e.isWordTyped p) : KeepsHeight p l bottom heights e := by
  induction htyped using isWordTyped_induct with
  | leaf e htyped hleaf =>
    exact (replaces_leaf hleaf htyped).keepsHeight (callees_of_isLeaf hleaf) (by simp)
  | not info operand htyped _ ih =>
    exact (replaces_not htyped).keepsHeight (by simp [callees, calleesAll]) (by simpa)
  | binary info op lhs rhs htyped _ _ ihLeft ihRight =>
    by_cases hop : op.isShortCircuit
    · exact keepsHeight_shortCircuit hop htyped ihLeft ihRight
    · exact (replaces_operator hop htyped).keepsHeight (by simp [callees, calleesAll])
        (by simp [ihLeft, ihRight])
  | arrayLength info array htyped _ ih =>
    exact (replaces_arrayLength htyped).keepsHeight (by simp [callees, calleesAll]) (by simpa)
  | index info array i htyped _ _ ihArray ihIndex =>
    exact (replaces_index htyped).keepsHeight (by simp [callees, calleesAll])
      (by simp [ihArray, ihIndex])
  | field info object var htyped _ ih =>
    exact (replaces_field htyped).keepsHeight (by simp [callees, calleesAll]) (by simpa)
  | instanceOf info operand ty htyped _ ih =>
    exact (replaces_instanceOf htyped).keepsHeight (by simp [callees, calleesAll]) (by simpa)
  | cast info ty operand htyped _ ih =>
    exact (replaces_cast htyped).keepsHeight (by simp [callees, calleesAll]) (by simpa)
  | newArray info elem size htyped _ ih =>
    exact (replaces_newArray htyped).keepsHeight (by simp [callees, calleesAll]) (by simpa)
  | call info receiver method args htyped _ _ ihReceiver ihArgs =>
    exact (replaces_call htyped).keepsHeight rfl (List.forall_mem_cons.2 ⟨ihReceiver, ihArgs⟩)

end Law

end ExprTree

end MipsBackend
