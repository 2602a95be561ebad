import MipsBackend.Proofs.Code.Peaks
import MipsBackend.Proofs.Collection.Operators

/-!
# Expressions in watched runs

The code of a word-typed expression carries any stack to one with the value of the expression on
top, if all is good at its points (`Watch.Pushes`).  There is one lemma for each form of expression:
the code of the operands pushes their values, and the operator of the previous module puts its own
value in their place.
-/

namespace MipsBackend

open Gen ExprTree

namespace Watch

variable {w : Watch} {p : Program} {l : Layout} {f f' : Frame} {code : Code} {i : Nat}
  {e : ExprTree} {es : List (Unit → ExprTree)} {slots : List Slot} {info : ExprInfo}

/-- The code of the expression pushes a value, wherever there is room for it and its points are
met. -/
def Pushes (w : Watch) (p : Program) (l : Layout) (e : ExprTree) : Prop :=
  ∀ ⦃f f' : Frame⦄ ⦃code : Code⦄ ⦃i : Nat⦄ ⦃slots : List Slot⦄,
    (e.code p l).run f = .ok (code, f') →
    e.peak + slots.length * wordSize ≤ w.base.toNat → (∀ c ∈ e.calls p l f, w.Meets p i slots c) →
    w.Carries i code slots (e.ty.slots ++ slots)

/-- There is room for the value if there is for all that the code pushes. -/
theorem room_of_peak {n : Int} {room : Nat} (h : e.peak + n ≤ room) : e.ty.stackBytes + n ≤ room :=
  Int.le_trans (Int.add_le_add_right e.stackBytes_le_peak n) h

/-- An operand is pushed, and the points behind it are met above its value. -/
theorem Pushes.operand {next : Frame → List CallPoint} (h : w.Pushes p l e)
    (hcode : (e.code p l).run f = .ok (code, f'))
    (hroom : e.peak + slots.length * wordSize ≤ w.base.toNat)
    (hmeets : ∀ c ∈ e.calls p l f ++ behind (e.code p l) f [e.ty] next, w.Meets p i slots c) :
    w.Carries i code slots (e.ty.slots ++ slots) ∧
      ∀ c ∈ next f', w.Meets p (i + code.length) (e.ty.slots ++ slots) c := by
  obtain ⟨hmeetsOperand, hmeetsNext⟩ := Meets.split hcode hmeets
  exact ⟨h hcode hroom hmeetsOperand, hmeetsNext⟩

theorem carries_codeAll (h : ∀ e ∈ es, w.Pushes p l (e ()))
    (hcode : (codeAll p l es).run f = .ok (code, f'))
    (hroom : peakAll es + slots.length * wordSize ≤ w.base.toNat)
    (hmeets : ∀ c ∈ callsAll p l es f, w.Meets p i slots c) :
    w.Carries i code slots (slotsAll (es.map fun e => (e ()).ty) ++ slots) := by
  induction es generalizing f f' code i slots with
  | nil =>
    obtain ⟨rfl, _⟩ := run_pure_eq_ok_iff.1 hcode
    exact .nil
  | cons e es ih =>
    rw [List.forall_mem_cons] at h
    simp only [codeAll, run_bind_eq_ok_iff, run_pure_eq_ok_iff] at hcode
    obtain ⟨first, f₁, hfirst, rest, _, hrest, rfl, _⟩ := hcode
    rw [callsAll] at hmeets
    rw [peakAll] at hroom
    have hlength := length_slots_append (e ()).ty slots
    obtain ⟨hpushed, hmeets⟩ := h.1.operand hfirst (by omega) hmeets
    rw [List.map_cons, slotsAll, List.append_assoc]
    exact hpushed.append (ih h.2 hrest (by omega) hmeets)

/-! ## Forms of expressions -/

theorem pushes_new {c : ClassId} (hw : w.Sound)
    (htyped : (ExprTree.new info c).isWordTyped p) : w.Pushes p l (.new info c) := by
  intro f f' code i slots hcode hroom hmeets
  have hreference : info.ty.isReference := htyped
  have hresult := room_of_peak hroom
  rw [ExprTree.ty, Ty.stackBytes_of_isReference hreference] at hresult
  obtain ⟨_, _, _, _, _, _, rfl⟩ := new_run hcode
  rw [ExprTree.ty, Ty.slots_of_isReference hreference]
  exact .cons (carries_quiet hw rfl) (.cons (carries_quiet hw rfl)
    (carries_newObject hw hresult fun _ hm => (hmeets _ List.mem_cons_self).good hm))

theorem pushes_leaf (hw : w.Sound) (hleaf : e.isLeaf) (htyped : e.isWordTyped p) :
    w.Pushes p l e := by
  intro f f' code i slots h hroom hmeets
  have hresult := room_of_peak hroom
  cases e with
  | broken => cases htyped
  | int | str =>
    simp only [ExprTree.code, run_bind_eq_ok_iff, run_pure_eq_ok_iff] at h
    obtain ⟨push, _, hpush, rfl, _⟩ := h
    first
      | exact (carries_quiet hw rfl).append (carries_pushScalar hw htyped hpush hresult)
      | exact (carries_quiet hw rfl).append (carries_pushReference hw htyped hpush hresult)
  | bool info b =>
    cases b with
    | true =>
      simp only [ExprTree.code, run_bind_eq_ok_iff, run_pure_eq_ok_iff] at h
      obtain ⟨push, _, hpush, rfl, _⟩ := h
      exact (carries_quiet hw rfl).append (carries_pushScalar hw htyped hpush hresult)
    | false => exact carries_pushScalar hw htyped h hresult
  | null | this | super => exact carries_pushReference hw htyped h hresult
  | ident info x =>
    simp only [ExprTree.code, run_bind_eq_ok_iff, run_pure_eq_ok_iff, pushValue] at h
    obtain ⟨⟨offset, base⟩, _, _, push, _, hpush, rfl, _⟩ := h
    refine (carries_quiet hw rfl).append ?_
    split at hpush
    · rename_i hscalar
      exact carries_pushScalar hw hscalar hpush hresult
    · rename_i hscalar
      have hreference : info.ty.isReference := by
        simp only [isWordTyped, Ty.readsFrom, Bool.and_eq_true] at htyped
        simp [Ty.isReference_eq, hscalar, htyped.1]
      exact carries_pushReference hw hreference hpush hresult
  | new => exact pushes_new hw htyped h hroom hmeets
  | _ => simp [isLeaf] at hleaf

theorem pushes_not {operand : Unit → ExprTree} (hw : w.Sound)
    (htyped : (ExprTree.not info operand).isWordTyped p) (h : w.Pushes p l (operand ())) :
    w.Pushes p l (.not info operand) := by
  intro f f' code i slots hcode hroom hmeets
  simp only [isWordTyped, Bool.and_eq_true] at htyped
  obtain ⟨⟨hscalar, hoperand⟩, _⟩ := htyped
  simp only [ExprTree.code, run_bind_eq_ok_iff, run_pure_eq_ok_iff] at hcode
  obtain ⟨value, _, hvalue, rfl, _⟩ := hcode
  rw [peak] at hroom
  have hpushed := h hvalue (by omega) hmeets
  rw [Ty.slots_of_isScalar hoperand] at hpushed
  rw [ExprTree.ty, Ty.slots_of_isScalar hscalar]
  exact hpushed.append (.cons (carries_quiet hw rfl) (.cons (carries_quiet hw rfl)
    (carries_word hw)))

theorem pushes_operator {op : BinOp} {lhs rhs : Unit → ExprTree} (hw : w.Sound)
    (hop : ¬ op.isShortCircuit) (htyped : (ExprTree.binary info op lhs rhs).isWordTyped p)
    (hlhs : w.Pushes p l (lhs ())) (hrhs : w.Pushes p l (rhs ())) :
    w.Pushes p l (.binary info op lhs rhs) := by
  intro f f' code i slots hcode hroom hmeets
  simp only [isWordTyped, Bool.and_eq_true] at htyped
  obtain ⟨⟨⟨hscalar, htakes⟩, _⟩, _⟩ := htyped
  have hresult := room_of_peak hroom
  rw [ExprTree.ty, Ty.stackBytes_of_isScalar hscalar] at hresult
  obtain ⟨left, rest, f₁, hleft, rfl, hrest⟩ := binary_run hcode
  rw [if_neg hop] at hrest
  obtain ⟨right, apply, f₂, hright, happly, rfl⟩ := hrest
  rw [calls, if_neg hop] at hmeets
  rw [peak, if_neg hop] at hroom
  have hlength := length_slots_append (lhs ()).ty slots
  obtain ⟨hfirst, hmeets⟩ := hlhs.operand hleft (by omega) hmeets
  obtain ⟨hsecond, hmeets⟩ := hrhs.operand hright (by omega) hmeets
  rw [ExprTree.ty, Ty.slots_of_isScalar hscalar]
  exact hfirst.append (hsecond.append (carries_applyOperator hw htakes happly hresult hmeets))

theorem pushes_shortCircuit {op : BinOp} {lhs rhs : Unit → ExprTree} (hw : w.Sound)
    (hop : op.isShortCircuit) (htyped : (ExprTree.binary info op lhs rhs).isWordTyped p)
    (hlhs : w.Pushes p l (lhs ())) (hrhs : w.Pushes p l (rhs ())) :
    w.Pushes p l (.binary info op lhs rhs) := by
  intro f f' code i slots hcode hroom hmeets
  simp only [isWordTyped, Bool.and_eq_true] at htyped
  obtain ⟨⟨⟨hscalar, htakes⟩, _⟩, _⟩ := htyped
  obtain ⟨hl, hr⟩ := BinOp.isScalar_of_isShortCircuit hop htakes
  obtain ⟨left, rest, f₁, hleft, rfl, hrest⟩ := binary_run hcode
  rw [if_pos hop] at hrest
  obtain ⟨right, hright, rfl⟩ := hrest
  rw [calls, if_pos hop] at hmeets
  rw [peak, if_pos hop] at hroom
  obtain ⟨hmeetsLeft, hmeets⟩ := Meets.split hleft hmeets
  have hfirst := hlhs hleft (by omega) hmeetsLeft
  -- The right operand is evaluated where the left one was dropped.
  have hsecond : w.Carries _ right slots _ := hrhs hright (by omega) (Meets.of_shift hmeets)
  rw [Ty.slots_of_isScalar hl] at hfirst
  rw [Ty.slots_of_isScalar hr] at hsecond
  rw [ExprTree.ty, Ty.slots_of_isScalar hscalar]
  exact hfirst.append (carries_shortCircuit hw hsecond)

theorem pushes_arrayLength {array : Unit → ExprTree} (hw : w.Sound)
    (htyped : (ExprTree.arrayLength info array).isWordTyped p) (h : w.Pushes p l (array ())) :
    w.Pushes p l (.arrayLength info array) := by
  intro f f' code i slots hcode hroom hmeets
  simp only [isWordTyped, Bool.and_eq_true] at htyped
  obtain ⟨⟨hscalar, hreference⟩, _⟩ := htyped
  have hresult := room_of_peak hroom
  simp only [ExprTree.code, run_bind_eq_ok_iff, run_pure_eq_ok_iff] at hcode
  obtain ⟨base, f₁, hbase, push, _, hpush, rfl, _⟩ := hcode
  rw [calls] at hmeets
  rw [peak] at hroom
  obtain ⟨hpushed, hmeets⟩ := h.operand hbase (by omega) hmeets
  rw [Ty.slots_of_isReference hreference] at hpushed hmeets
  rw [List.append_assoc]
  exact hpushed.append
    (carries_loadLength hw hscalar hpush hresult (hmeets _ List.mem_cons_self))

theorem pushes_index {array index : Unit → ExprTree} (hw : w.Sound)
    (htyped : (ExprTree.index info array index).isWordTyped p) (harray : w.Pushes p l (array ()))
    (hindex : w.Pushes p l (index ())) : w.Pushes p l (.index info array index) := by
  intro f f' code i slots hcode hroom hmeets
  simp only [isWordTyped, Bool.and_eq_true, Bool.not_eq_true'] at htyped
  obtain ⟨⟨⟨⟨⟨hvalue, _⟩, hreference⟩, hscalar⟩, _⟩, _⟩ := htyped
  simp only [ExprTree.code, run_bind_eq_ok_iff, run_pure_eq_ok_iff] at hcode
  obtain ⟨base, f₁, hbase, position, f₂, hposition, load, _, hload, rfl, _⟩ := hcode
  rw [calls] at hmeets
  rw [peak] at hroom
  have hlength := length_slots_append (array ()).ty slots
  obtain ⟨hfirst, hmeets⟩ := harray.operand hbase (by omega) hmeets
  obtain ⟨hsecond, hmeets⟩ := hindex.operand hposition (by omega) hmeets
  rw [Ty.slots_of_isReference hreference] at hfirst hsecond hmeets
  rw [Ty.slots_of_isScalar hscalar] at hsecond hmeets
  rw [List.append_assoc]
  exact hfirst.append (hsecond.append (carries_loadElement hw hvalue hload hmeets))

theorem pushes_field {object : Unit → ExprTree} {x : VarId} (hw : w.Sound)
    (htyped : (ExprTree.field info object x).isWordTyped p) (h : w.Pushes p l (object ())) :
    w.Pushes p l (.field info object x) := by
  intro f f' code i slots hcode hroom hmeets
  simp only [isWordTyped, Bool.and_eq_true, Ty.readsFrom, Bool.not_eq_true'] at htyped
  obtain ⟨⟨⟨hvalue, _⟩, hreference⟩, _⟩ := htyped
  have hresult := room_of_peak hroom
  simp only [ExprTree.code, run_bind_eq_ok_iff, run_pure_eq_ok_iff, run_liftM_eq_ok_iff] at hcode
  obtain ⟨base, f₁, hbase, offset, _, _, load, _, hload, rfl, _⟩ := hcode
  rw [calls] at hmeets
  rw [peak] at hroom
  obtain ⟨hpushed, hmeets⟩ := h.operand hbase (by omega) hmeets
  rw [Ty.slots_of_isReference hreference] at hpushed hmeets
  exact hpushed.append (carries_loadField hw hvalue hload hresult (hmeets _ List.mem_cons_self))

theorem pushes_instanceOf {operand : Unit → ExprTree} {ty : Ty} (hw : w.Sound)
    (htyped : (ExprTree.instanceOf info operand ty).isWordTyped p)
    (h : w.Pushes p l (operand ())) : w.Pushes p l (.instanceOf info operand ty) := by
  intro f f' code i slots hcode hroom hmeets
  simp only [isWordTyped, Bool.and_eq_true] at htyped
  obtain ⟨⟨hscalar, hreference⟩, _⟩ := htyped
  have hresult := room_of_peak hroom
  simp only [ExprTree.code, run_bind_eq_ok_iff, run_pure_eq_ok_iff, run_liftM_eq_ok_iff] at hcode
  obtain ⟨value, f₁, hvalue, range, _, ⟨hrange, rfl⟩, push, _, hpush, rfl, _⟩ := hcode
  rw [calls] at hmeets
  rw [peak] at hroom
  obtain ⟨hpushed, hmeets⟩ := h.operand hvalue (by omega) hmeets
  rw [Ty.slots_of_isReference hreference] at hpushed hmeets
  rw [List.append_assoc]
  exact hpushed.append
    (carries_testClass hw hscalar hrange hpush hresult (hmeets _ List.mem_cons_self))

theorem pushes_cast {operand : Unit → ExprTree} {ty : Ty} (hw : w.Sound)
    (htyped : (ExprTree.cast info ty operand).isWordTyped p) (h : w.Pushes p l (operand ())) :
    w.Pushes p l (.cast info ty operand) := by
  intro f f' code i slots hcode hroom hmeets
  simp only [isWordTyped, Bool.and_eq_true, beq_iff_eq] at htyped
  simp only [ExprTree.code, run_bind_eq_ok_iff, run_liftM_eq_ok_iff] at hcode
  obtain ⟨value, f₁, hvalue, narrows, _, ⟨hnarrows, rfl⟩, hcode⟩ := hcode
  rw [calls, hnarrows] at hmeets
  rw [peak] at hroom
  obtain ⟨hpushed, hmeets⟩ := h.operand hvalue (by omega) hmeets
  rw [ExprTree.ty, Ty.slots_congr htyped.1]
  cases narrows with
  | true =>
    obtain ⟨rfl, _⟩ := run_pure_eq_ok_iff.1 hcode
    exact hpushed
  | false =>
    simp only [Bool.false_eq_true, if_false, run_bind_eq_ok_iff, run_pure_eq_ok_iff,
      run_liftM_eq_ok_iff] at hcode
    obtain ⟨range, _, ⟨hrange, rfl⟩, rfl, _⟩ := hcode
    exact hpushed.append (carries_checkClass hw hrange (hmeets _ List.mem_cons_self))

theorem pushes_newArray {elem : Ty} {size : Unit → ExprTree} (hw : w.Sound)
    (htyped : (ExprTree.newArray info elem size).isWordTyped p) (h : w.Pushes p l (size ())) :
    w.Pushes p l (.newArray info elem size) := by
  intro f f' code i slots hcode hroom hmeets
  simp only [isWordTyped, Bool.and_eq_true] at htyped
  obtain ⟨⟨hreference, hscalar⟩, _⟩ := htyped
  have hresult := room_of_peak hroom
  rw [ExprTree.ty, Ty.stackBytes_of_isReference hreference] at hresult
  simp only [ExprTree.code, run_bind_eq_ok_iff, run_pure_eq_ok_iff] at hcode
  obtain ⟨length, f₁, hlength, drop, _, hdrop, _, _, _, record, _, _, rfl, _⟩ := hcode
  obtain ⟨rfl, _⟩ := pop_run hdrop
  rw [calls] at hmeets
  rw [peak] at hroom
  obtain ⟨hmeetsSize, hmeets⟩ := Meets.split hlength hmeets
  have hpushed := h hlength (by omega) hmeetsSize
  rw [Ty.slots_of_isScalar hscalar] at hpushed
  rw [ExprTree.ty, Ty.slots_of_isReference hreference, List.append_assoc, List.append_assoc,
    ← List.append_assoc (Code.of info.span _)]
  exact hpushed.append (carries_newArray hw hresult (hmeets _ List.mem_cons_self))

theorem pushes_call {receiver : Unit → ExprTree} {method : MethodId}
    {args : List (Unit → ExprTree)} (hw : w.Sound)
    (htyped : (ExprTree.call info receiver method args).isWordTyped p)
    (hreceiver : w.Pushes p l (receiver ())) (hargs : ∀ arg ∈ args, w.Pushes p l (arg ())) :
    w.Pushes p l (.call info receiver method args) := by
  intro f f' code i slots hcode hroom hmeets
  obtain ⟨decl, target, passed, enter, f₁, f₂, hdecl, _, htarget, hpassed, henter, _, rfl⟩ :=
    ExprTree.call_run hcode
  simp only [isWordTyped, hdecl, Bool.and_eq_true, beq_iff_eq] at htyped
  obtain ⟨⟨⟨⟨hwidth, hreference⟩, hwidths⟩, _⟩, _⟩ := htyped
  have hresult := room_of_peak hroom
  rw [ExprTree.ty, hwidth] at hresult
  rw [calls] at hmeets
  rw [peak] at hroom
  have hlength := length_slots_append (receiver ()).ty slots
  obtain ⟨hfirst, hmeets⟩ := hreceiver.operand htarget (by omega) hmeets
  obtain ⟨hmeetsArgs, hmeets⟩ := Meets.split hpassed hmeets
  have hsecond := carries_codeAll hargs hpassed (by omega) hmeetsArgs
  -- What is pending at the call is the receiver and the arguments.
  have hpending : ((receiver ()).ty :: args.map fun arg => (arg ()).ty).map Ty.stackBytes =
      wordSize :: decl.formals.map fun formal => (p.varTy formal).stackBytes := by
    rw [List.map_cons, Ty.stackBytes_of_isReference hreference, List.map_map]
    exact congrArg _ hwidths
  rw [← List.append_assoc, ← slotsAll] at hmeets hsecond
  rw [ExprTree.ty, Ty.slots_congr hwidth, List.append_assoc]
  exact hfirst.append (hsecond.append (carries_enter hw hdecl henter hpending hresult hmeets))

/-- The code of a word-typed expression pushes its value. -/
theorem pushes_of_isWordTyped (hw : w.Sound) (htyped : e.isWordTyped p) : w.Pushes p l e := by
  induction htyped using isWordTyped_induct with
  | leaf e htyped hleaf => exact pushes_leaf hw hleaf htyped
  | not _ _ htyped _ ih => exact pushes_not hw htyped ih
  | binary _ op _ _ htyped _ _ ihLeft ihRight =>
    by_cases hop : op.isShortCircuit
    · exact pushes_shortCircuit hw hop htyped ihLeft ihRight
    · exact pushes_operator hw hop htyped ihLeft ihRight
  | arrayLength _ _ htyped _ ih => exact pushes_arrayLength hw htyped ih
  | index _ _ _ htyped _ _ ihArray ihIndex => exact pushes_index hw htyped ihArray ihIndex
  | field _ _ _ htyped _ ih => exact pushes_field hw htyped ih
  | instanceOf _ _ _ htyped _ ih => exact pushes_instanceOf hw htyped ih
  | cast _ _ _ htyped _ ih => exact pushes_cast hw htyped ih
  | newArray _ _ _ htyped _ ih => exact pushes_newArray hw htyped ih
  | call _ _ _ _ htyped _ _ ihReceiver ihArgs => exact pushes_call hw htyped ihReceiver ihArgs

end Watch

end MipsBackend
