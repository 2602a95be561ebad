import MipsBackend.Proofs.Collection.Watch

/-!
# Operators on values

Behind its operands an operator puts its value in their place.  Here the instructions of each
operator are gone through once: whatever lies below the operands, they carry the words of the
operands to the words of the value, and wherever they leave, all words are where the types say.
-/

namespace MipsBackend

open Gen

namespace Watch

variable {w : Watch} {p : Program} {l : Layout} {i : Nat} {f f' : Frame} {code : Code}
  {span : Span} {slots : List Slot} {points : List CallPoint} {ty : Ty}

/-! ## Points -/

/-- What is to be known of a point of code that stands at line `i` and starts above the given words:
all is good there if the pending operands are on the stack, and the method that is called there
leaves its result. -/
structure Meets (w : Watch) (p : Program) (i : Nat) (slots : List Slot) (c : CallPoint) : Prop where
  good {m : Machine} : m.HasSlots w.base w.marker (slotsAll c.pending ++ slots) →
    w.good (i + c.line) m
  returns {id : MethodId} {decl : MethodDecl} {m m' : Machine} : c.callee = .method id →
    p.methodAt id = .ok decl → w.methods (i + c.line) m m' → decl.LeavesResult p w.top m m'

/-- The points of code that stands behind other code, which has pushed operands. -/
theorem Meets.of_shift {lines : Nat} {tys : List Ty}
    (h : ∀ c ∈ points.map (.shift lines tys), w.Meets p i slots c) :
    ∀ c ∈ points, w.Meets p (i + lines) (slotsAll tys ++ slots) c := by
  intro c hc
  have hshifted := h _ (List.mem_map_of_mem hc)
  refine ⟨fun hm => ?_, fun hcallee hdecl hmethod => ?_⟩
  · rw [Nat.add_assoc]
    refine hshifted.good ?_
    rw [CallPoint.shift, slotsAll_append, List.append_assoc]
    exact hm
  · rw [Nat.add_assoc] at hmethod
    exact hshifted.returns hcallee hdecl hmethod

/-- The points of some code and of what stands behind it. -/
theorem Meets.split {gen : Gen Code} {tys : List Ty} {next : Frame → List CallPoint}
    (hrun : gen.run f = .ok (code, f'))
    (h : ∀ c ∈ points ++ gen.behind f tys next, w.Meets p i slots c) :
    (∀ c ∈ points, w.Meets p i slots c) ∧
      ∀ c ∈ next f', w.Meets p (i + code.length) (slotsAll tys ++ slots) c := by
  rw [behind_eq hrun, List.forall_mem_append] at h
  exact ⟨h.1, .of_shift h.2⟩

theorem length_slots_append (ty : Ty) (slots : List Slot) :
    ((ty.slots ++ slots).length : Int) * wordSize = ty.stackBytes + slots.length * wordSize := by
  rw [List.length_append, Int.natCast_add, Int.add_mul, ty.length_slots]

/-! ## Operators behind their operands -/

/-- Two scalars become one, and two references that are compared become a scalar. -/
theorem carries_applyOperator (hw : w.Sound) {op : BinOp} {lhs rhs : Ty}
    (htakes : op.takes lhs rhs)
    (h : (applyOperator span op lhs.isReference).run f = .ok (code, f'))
    (hroom : 2 * wordSize + slots.length * wordSize ≤ w.base.toNat)
    (hmeets : ∀ c ∈ op.calls, w.Meets p i (rhs.slots ++ (lhs.slots ++ slots)) c) :
    w.Carries i code (rhs.slots ++ (lhs.slots ++ slots)) (.word :: .tag :: slots) := by
  simp only [BinOp.takes, Bool.or_eq_true, Bool.and_eq_true, beq_iff_eq] at htakes
  rcases htakes with ⟨hl, hr⟩ | ⟨⟨rfl, hl⟩, hr⟩
  · rw [Ty.slots_of_isScalar hl, Ty.slots_of_isScalar hr] at hmeets ⊢
    rw [Ty.not_isReference_of_isScalar hl] at h
    rcases applyOperator_run h with ⟨rfl, rfl⟩ | ⟨rfl, rfl⟩ | ⟨_, rfl⟩
    · have hpoint := hmeets _ List.mem_cons_self
      refine carries_callRoutine hw [.word, .tag, .word, .tag] .int
        (fun _ hm => hpoint.good hm) (fun m m' hm hruns => ?_) hroom
      obtain ⟨_, _, hoperands⟩ := hm.hasOperands
      exact hw.runtime.divide hoperands hruns
    · have hpoint := hmeets _ List.mem_cons_self
      refine carries_callRoutine hw [.word, .tag, .word, .tag] .int
        (fun _ hm => hpoint.good hm) (fun m m' hm hruns => ?_) hroom
      obtain ⟨_, _, hoperands⟩ := hm.hasOperands
      exact hw.runtime.remainder hoperands hruns
    · rw [if_neg (by simp), operatorCode]
      refine ((carries_quiet hw ?_).append (carries_drop hw [.word, .tag] rfl)).append
        (carries_word hw)
      cases op <;> rfl
  · rw [Ty.slots_of_isReference hl, Ty.slots_of_isReference hr]
    rcases applyOperator_run h with ⟨hop, _⟩ | ⟨hop, _⟩ | ⟨_, rfl⟩
    · cases hop
    · cases hop
    · rw [if_pos ⟨rfl, hl⟩, comparisonCode, Code.of_append]
      exact (carries_quiet hw rfl).append (.cons (carries_tag hw) (carries_word hw))

/-- An array and an index become the element. -/
theorem carries_loadElement (hw : w.Sound) (hvalue : ty.isVoid = false)
    (h : (loadElement span ty).run f = .ok (code, f'))
    (hmeets : ∀ c ∈ [(⟨1, .routine .nullPtrException, []⟩ : CallPoint),
      ⟨4, .routine .arrayIndexOutOfBounds, []⟩], w.Meets p i (.word :: .tag :: .word :: slots) c) :
    w.Carries i code (.word :: .tag :: .word :: slots) (ty.slots ++ slots) := by
  have hnull := hmeets _ List.mem_cons_self
  have hbounds := hmeets _ (List.mem_cons_of_mem _ List.mem_cons_self)
  have hfetch : w.Carries i (Code.of span ([.lw .t0 (2 * wordSize) .sp, .nullCheck .t0,
      .lw .t1 arrayLengthOffset .t0, .lw .t2 0 .sp, .boundsCheck .t2 .t1]
        ++ Inst.elementAddress .t2 .t0 ++ [.lw .t0 0 .t2]))
      (.word :: .tag :: .word :: slots) (.word :: .tag :: .word :: slots) :=
    .cons (carries_quiet hw rfl) (.cons (carries_trap hw fun _ hm => hnull.good hm)
      (.cons (carries_quiet hw rfl) (.cons (carries_quiet hw rfl)
        (.cons (carries_trap hw fun _ hm => hbounds.good hm) (carries_quiet hw rfl)))))
  simp only [loadElement] at h
  split at h
  · rename_i hscalar
    simp only [run_bind_eq_ok_iff, run_pure_eq_ok_iff] at h
    obtain ⟨drop, _, hdrop, rfl, _⟩ := h
    obtain ⟨rfl, _⟩ := pop_run hdrop
    rw [Ty.slots_of_isScalar hscalar]
    exact (hfetch.append (carries_drop hw [.word] rfl)).append
      (.cons (carries_tag hw) (carries_word hw))
  · rename_i hscalar
    simp only [run_bind_eq_ok_iff, run_pure_eq_ok_iff] at h
    obtain ⟨drop, _, hdrop, rfl, _⟩ := h
    obtain ⟨rfl, _⟩ := pop_run hdrop
    rw [Ty.slots, hvalue, if_neg (by decide), if_neg hscalar]
    exact (hfetch.append (carries_drop hw [.word, .tag] rfl)).append (carries_word hw)

/-- An object becomes the value of its field. -/
theorem carries_loadField (hw : w.Sound) (hvalue : ty.isVoid = false) {offset : Int}
    (h : (loadField span ty offset).run f = .ok (code, f'))
    (hroom : ty.stackBytes + slots.length * wordSize ≤ w.base.toNat)
    (hnull : w.Meets p i (.word :: slots) ⟨1, .routine .nullPtrException, []⟩) :
    w.Carries i code (.word :: slots) (ty.slots ++ slots) := by
  have hfetch : w.Carries i (Code.of span [.lw .t0 0 .sp, .nullCheck .t0, .lw .t0 offset .t0])
      (.word :: slots) (.word :: slots) :=
    .cons (carries_quiet hw rfl) (.cons (carries_trap hw fun _ hm => hnull.good hm)
      (carries_quiet hw rfl))
  simp only [loadField] at h
  split at h
  · rename_i hscalar
    simp only [run_bind_eq_ok_iff, run_pure_eq_ok_iff] at h
    obtain ⟨push, _, hpush, rfl, _⟩ := h
    exact hfetch.append (carries_tagTop hw hscalar hpush hroom)
  · rename_i hscalar
    obtain ⟨rfl, _⟩ := run_pure_eq_ok_iff.1 h
    rw [Ty.slots, hvalue, if_neg (by decide), if_neg hscalar, Code.of_append]
    exact hfetch.append (carries_word hw)

/-- An array becomes its length. -/
theorem carries_loadLength (hw : w.Sound) (hscalar : ty.isScalar) {push : Code}
    (hpush : (tagTop span).run f = .ok (push, f'))
    (hroom : ty.stackBytes + slots.length * wordSize ≤ w.base.toNat)
    (hnull : w.Meets p i (.word :: slots) ⟨1, .routine .nullPtrException, []⟩) :
    w.Carries i (Code.of span [.lw .t0 0 .sp, .nullCheck .t0, .lw .t0 arrayLengthOffset .t0]
      ++ push) (.word :: slots) (ty.slots ++ slots) := by
  have hfetch : w.Carries i
      (Code.of span [.lw .t0 0 .sp, .nullCheck .t0, .lw .t0 arrayLengthOffset .t0])
      (.word :: slots) (.word :: slots) :=
    .cons (carries_quiet hw rfl) (.cons (carries_trap hw fun _ hm => hnull.good hm)
      (carries_quiet hw rfl))
  exact hfetch.append (carries_tagTop hw hscalar hpush hroom)

/-- A reference becomes the scalar that tells whether it is of a class. -/
theorem carries_testClass (hw : w.Sound) (hscalar : ty.isScalar) {target : Ty} {range : List Inst}
    {push : Code} (hrange : loadClassRange p target = .ok range)
    (hpush : (tagTop span).run f = .ok (push, f'))
    (hroom : ty.stackBytes + slots.length * wordSize ≤ w.base.toNat)
    (hpoint : w.Meets p i (.word :: slots) ⟨2, .routine .instanceOf, []⟩) :
    w.Carries i (Code.of span (range ++ [.callRoutine .instanceOf, .lw .t0 0 .sp]) ++ push)
      (.word :: slots) (ty.slots ++ slots) := by
  obtain ⟨start, stop, rfl⟩ := loadClassRange_eq_ok hrange
  have hcalled : w.Carries (i + 2) (.of span [.callRoutine .instanceOf]) (.word :: slots)
      (.word :: slots) := by
    refine .of_room fun hoperand => carries_callRoutine hw [.word] .null
      (fun _ hm => hpoint.good hm) (fun m m' _ hruns => hw.runtime.instanceOf hruns) ?_
    rw [List.length_cons, wordSize] at hoperand
    rw [Ty.stackBytes_of_isReference rfl, wordSize]
    omega
  have htest : w.Carries i (Code.of span ([.la .t0 start, .la .t1 stop]
      ++ [.callRoutine .instanceOf, .lw .t0 0 .sp])) (.word :: slots) (.word :: slots) :=
    .cons (carries_quiet hw rfl) (.cons (carries_quiet hw rfl)
      (.cons hcalled (carries_quiet hw rfl)))
  exact htest.append (carries_tagTop hw hscalar hpush hroom)

/-- A reference is of a class, or control is gone. -/
theorem carries_checkClass (hw : w.Sound) {target : Ty} {range : List Inst}
    (hrange : loadClassRange p target = .ok range)
    (hpoint : w.Meets p i slots ⟨2, .routine .checkCast, []⟩) :
    w.Carries i (.of span (range ++ [.callRoutine .checkCast])) slots slots := by
  obtain ⟨start, stop, rfl⟩ := loadClassRange_eq_ok hrange
  have hcalled : w.Carries (i + 2) (.of span [.callRoutine .checkCast]) slots slots := by
    refine .of_room fun hroom => carries_callRoutine hw [] .void
      (fun _ hm => hpoint.good hm) (fun m m' _ hruns => hw.runtime.checkCast hruns) ?_
    rw [Ty.stackBytes, Ty.words, Int.zero_mul, Int.zero_add]
    exact hroom
  exact .cons (carries_quiet hw rfl) (.cons (carries_quiet hw rfl) hcalled)

/-- A new object is pushed, and its class record is written.  That is not on the stack. -/
theorem carries_newObject (hw : w.Sound) {record : String}
    (hroom : wordSize + slots.length * wordSize ≤ w.base.toNat)
    (hgood : ∀ m, m.HasSlots w.base w.marker slots → w.good i m) :
    w.Carries i (.of span (.callRoutine .newObject :: storeClassRecord record)) slots
      (.word :: slots) := by
  intro hat hend m hm
  have hcalled : (m.set .ra (w.exe.image.line (i + 1))).HasSlots w.base w.marker ([] ++ slots) :=
    hm.set (by decide) (by decide)
  have hspace : wordSize ≤ ((m.set .ra (w.exe.image.line (i + 1))).reg .sp).toNat := by
    rw [hcalled.sp_toNat, List.nil_append]
    omega
  refine safe_of_callRoutine hat.head (hgood m hm) fun m' hruns => ?_
  have hallocates := hw.runtime.newObject hspace hruns
  have hm' : m'.HasSlots w.base w.marker (Ty.null.slots ++ slots) :=
    hcalled.replace hallocates.pushes hw.base_le hroom
  have hloaded := hm'.set (r := .t0) (x := w.exe.image.label (.classStart record)) (by decide)
    (by decide)
  refine safe_of_step hat.tail.head rfl (hw.plain hat.tail.head rfl hm'.s5) rfl ?_
  refine safe_of_step hat.tail.tail.head rfl (hw.plain hat.tail.tail.head rfl hloaded.s5) rfl ?_
  refine hend _ (hloaded.store_outside ?_)
  rw [Machine.reg_set_of_ne _ _ _ _ (by decide), Machine.reg_set_of_ne _ _ _ _ (by decide)]
  exact hallocates.outside.imp_right (Nat.le_trans hw.base_le)

/-- A length becomes a new array. -/
theorem carries_newArray (hw : w.Sound) {flag : Int} {record : String}
    (hroom : wordSize + slots.length * wordSize ≤ w.base.toNat)
    (hpoint : w.Meets p i slots ⟨3, .routine .newObject, []⟩) :
    w.Carries i (Code.of span [.lw .s7 0 .sp] ++ dropCode span (2 * wordSize)
        ++ Code.of span ([.li .s6 flag, .callRoutine .newObject] ++ storeClassRecord record))
      (.word :: .tag :: slots) (.word :: slots) :=
  ((carries_quiet hw rfl).append (carries_drop hw [.word, .tag] rfl)).append
    (.cons (carries_quiet hw rfl) (carries_newObject hw hroom fun _ hm => hpoint.good hm))

/-- The receiver and the arguments become the result of the method. -/
theorem carries_enter (hw : w.Sound) {id : MethodId} {decl : MethodDecl} {isSuper : Bool}
    {enter : List Inst} {pending : List Ty} (hdecl : p.methodAt id = .ok decl)
    (henter : Enters p l isSuper id enter)
    (hpending : pending.map Ty.stackBytes =
      wordSize :: decl.formals.map fun formal => (p.varTy formal).stackBytes)
    (hroom : decl.returnType.stackBytes + slots.length * wordSize ≤ w.base.toNat)
    (hmeets : ∀ c ∈ enterCalls isSuper id, w.Meets p i (slotsAll pending ++ slots) c) :
    w.Carries i (.of span enter) (slotsAll pending ++ slots)
      (decl.returnType.slots ++ slots) := by
  cases isSuper with
  | true =>
    obtain ⟨label, hlabel, rfl⟩ := henter
    have hpoint := hmeets _ List.mem_cons_self
    have hlabels : (Inst.jal label).entersMethod ∧ label.node? = none := by
      rcases Program.methodLabel_cases hlabel with ⟨name, rfl⟩ | ⟨name, c, rfl⟩
      · exact ⟨rfl, rfl⟩
      · exact ⟨rfl, rfl⟩
    refine carries_method hw hlabels.1 (fun back m => ⟨.jump label (m.set .ra back), ?_⟩)
      (fun _ hm => hpoint.good hm) (fun m m' hm hmethod => ?_) hroom
    · simp only [Inst.exec, Executable.resume, hw.outside hlabels.2]
    · exact (hpoint.returns rfl hdecl hmethod).replaces hpending hm
  | false =>
    obtain ⟨_, _, rfl⟩ := henter.exists_loadEntry
    have hnull := hmeets _ List.mem_cons_self
    have hpoint := hmeets _ (List.mem_cons_of_mem _ List.mem_cons_self)
    refine .cons (carries_quiet hw rfl) (.cons (carries_trap hw fun _ hm => hnull.good hm)
      (.cons (carries_quiet hw rfl) (.cons (carries_quiet hw rfl) ?_)))
    refine carries_method hw rfl (fun back m => ⟨_, rfl⟩) (fun _ hm => hpoint.good hm)
      (fun m m' hm hmethod => ?_) hroom
    exact (hpoint.returns rfl hdecl hmethod).replaces hpending hm

/-- The left operand stays where it decides the result, and else the right one takes its place. -/
theorem carries_shortCircuit (hw : w.Sound) {info : ExprInfo} {op : BinOp} {right : Code}
    (hright : w.Carries (i + 3) right slots (.word :: .tag :: slots)) :
    w.Carries i (ExprTree.shortCircuitCode info op right) (.word :: .tag :: slots)
      (.word :: .tag :: slots) := by
  intro hat hend
  have hskip := Executable.lineOf_eq hw.nodup hat.right.head
  have htest := hat.left.left.left.right
  have hlast : ∀ m, m.HasSlots w.base w.marker (.word :: .tag :: slots) →
      w.Safe (.line (i + (Code.of info.span [.lw .t0 0 .sp] ++ Code.of info.span
        [.branch (if op = .and then .beq else .bne) .t0 .zero (.skip info.id)]
        ++ dropCode info.span (2 * wordSize) ++ right).length) m) := by
    refine carries_quiet hw rfl hat.right ?_
    rw [← Executable.add_length_append]
    exact hend
  have hother : ∀ m, m.HasSlots w.base w.marker (.word :: .tag :: slots) →
      w.Safe (.line (i + 2) m) := by
    have hbehind := hat.left
    rw [List.append_assoc] at hbehind
    refine ((carries_drop hw [.word, .tag] rfl).append hright) hbehind.right ?_
    rw [List.append_assoc, Executable.add_length_append] at hlast
    exact hlast
  refine carries_quiet hw rfl hat.left.left.left.left fun m hm => ?_
  have hgood := hw.plain htest.head rfl hm.s5
  by_cases htaken : (if op = .and then BranchOp.beq else .bne).taken (m.reg .t0) (m.reg .zero)
  · refine safe_of_step htest.head rfl hgood ?_ (hlast m hm)
    rw [Inst.exec, if_pos htaken, Executable.resume, hskip]
  · refine safe_of_step htest.head rfl hgood ?_ (hother m hm)
    rw [Inst.exec, if_neg htaken, Executable.resume]
    rfl

end Watch

end MipsBackend
