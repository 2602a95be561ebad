import MipsBackend.Proofs.Code.Labels
import MipsBackend.Proofs.Machine.Runs
import MipsBackend.Proofs.Machine.Stack
import MipsBackend.Proofs.Source.Expressions

/-!
# Scalars on the operand stack

The code of an expression is made of blocks that push a scalar or replace two scalars by one.
`Machine.HasPushed` and `Machine.Combines` say what such a block has done to the machine.  How far
below the stack pointer a word lies is a difference modulo 2^32, so no lemma asks where in memory
the stack is; all that counts is that a block works in less than half of it.

Division is done by the runtime library.  `Runtime.Divides` is the contract of its two routines.
They may use some bytes below the stack pointer, their scratch space.
-/

namespace MipsBackend

open Gen

/-! ## Machines before and after -/

namespace Machine

/-- All words are kept, but for those that lie up to `room` bytes below the stack pointer. -/
def KeepsAbove (m m' : Machine) (room : Nat) : Prop :=
  ∀ a, m.reg .sp - a = 0 ∨ room < (m.reg .sp - a).toNat → m'.mem a = m.mem a

/-- A scalar was pushed: its data word, below the tag word. -/
structure HasPushed (m m' : Machine) (w : Word) (room : Nat) : Prop where
  sp : m'.reg .sp = m.reg .sp - 8
  data : m'.mem (m'.reg .sp) = w
  tag : m'.mem (m'.reg .sp + 4) = m.reg .s5
  marker : m'.reg .s5 = m.reg .s5
  kept : m.KeepsAbove m' room

/-- Two scalars are on top of the stack. -/
structure HasOperands (m : Machine) (left right : Word) : Prop where
  right : m.mem (m.reg .sp) = right
  rightTag : m.mem (m.reg .sp + 4) = m.reg .s5
  left : m.mem (m.reg .sp + 8) = left
  leftTag : m.mem (m.reg .sp + 12) = m.reg .s5

/-- One scalar has taken the place of the two on top of the stack.  Nothing else in memory has
changed, but for up to `scratch` bytes below the stack pointer. -/
structure Combines (m m' : Machine) (w : Word) (scratch : Nat) : Prop where
  sp : m'.reg .sp = m.reg .sp + 8
  data : m'.mem (m'.reg .sp) = w
  tag : m'.mem (m'.reg .sp + 4) = m.reg .s5
  marker : m'.reg .s5 = m.reg .s5
  kept {a : Word} : 16 ≤ (a - m.reg .sp).toNat → scratch < (m.reg .sp - a).toNat →
    m'.mem a = m.mem a

/-- What was pushed has been dropped again. -/
structure Dropped (m m' : Machine) (room : Nat) : Prop where
  sp : m'.reg .sp = m.reg .sp
  marker : m'.reg .s5 = m.reg .s5
  kept : m.KeepsAbove m' room

variable {m m₁ m₂ m' : Machine} {w left right : Word} {room room₁ room₂ scratch : Nat}

theorem KeepsAbove.mono (h : m.KeepsAbove m' room) (hroom : room ≤ room₁) :
    m.KeepsAbove m' room₁ := by
  intro a ha
  exact h a (ha.imp_right fun hlt => by omega)

theorem HasPushed.mono (h : m.HasPushed m' w room) (hroom : room ≤ room₁) :
    m.HasPushed m' w room₁ :=
  ⟨h.sp, h.data, h.tag, h.marker, h.kept.mono hroom⟩

/-- What a scratch register held before does not matter. -/
theorem HasPushed.of_set {r : Reg} {x : Word} (h : (m.set r x).HasPushed m' w room)
    (hsp : Reg.sp ≠ r) (hmarker : Reg.s5 ≠ r) : m.HasPushed m' w room := by
  have hregs : (m.set r x).reg .sp = m.reg .sp ∧ (m.set r x).reg .s5 = m.reg .s5 :=
    ⟨Machine.reg_set_of_ne _ _ _ _ hsp, Machine.reg_set_of_ne _ _ _ _ hmarker⟩
  refine ⟨?_, h.data, ?_, ?_, fun a ha => ?_⟩
  · rw [h.sp, hregs.1]
  · rw [h.tag, hregs.2]
  · rw [h.marker, hregs.2]
  · rw [h.kept a (by rwa [hregs.1]), mem_set]

/-- What a scratch register holds afterwards does not matter either. -/
theorem HasPushed.set {r : Reg} {x : Word} (h : m.HasPushed m' w room) (hsp : Reg.sp ≠ r)
    (hmarker : Reg.s5 ≠ r) : m.HasPushed (m'.set r x) w room := by
  have hregs : (m'.set r x).reg .sp = m'.reg .sp ∧ (m'.set r x).reg .s5 = m'.reg .s5 :=
    ⟨Machine.reg_set_of_ne _ _ _ _ hsp, Machine.reg_set_of_ne _ _ _ _ hmarker⟩
  refine ⟨?_, ?_, ?_, ?_, fun a ha => ?_⟩
  · rw [hregs.1, h.sp]
  · rw [hregs.1, mem_set, h.data]
  · rw [hregs.1, mem_set, h.tag]
  · rw [hregs.2, h.marker]
  · rw [mem_set, h.kept a ha]

/-- The data word on top of the stack is replaced. -/
theorem HasPushed.store {x : Word} (h : m.HasPushed m' w room) (hle : 8 ≤ room) :
    m.HasPushed (m'.store (m'.reg .sp) x) x room := by
  have hsp := h.sp
  refine ⟨?_, ?_, ?_, ?_, fun a ha => ?_⟩
  · rw [reg_store, hsp]
  · rw [reg_store, mem_store_self]
  · rw [reg_store, mem_store_of_ne _ _ _ _ (by bv_omega), h.tag]
  · rw [reg_store, h.marker]
  · rw [mem_store_of_ne _ _ _ _ (by rw [hsp]; bv_omega), h.kept a ha]

theorem HasPushed.drop (h : m.HasPushed m₁ w room) (x : Word) :
    m.Dropped ((m₁.set .t0 x).set .sp (m₁.reg .sp + 8)) room := by
  refine ⟨?_, ?_, fun a ha => ?_⟩
  · rw [reg_set_self _ _ _ (by simp), h.sp]
    bv_omega
  · rw [reg_set_of_ne _ _ _ _ (by simp), reg_set_of_ne _ _ _ _ (by simp), h.marker]
  · rw [mem_set, mem_set, h.kept a ha]

/-- A scalar that takes the room of one that was dropped. -/
theorem Dropped.push (h : m.Dropped m₁ room) (h' : m₁.HasPushed m' w room) :
    m.HasPushed m' w room := by
  refine ⟨?_, h'.data, ?_, ?_, fun a ha => ?_⟩
  · rw [h'.sp, h.sp]
  · rw [h'.tag, h.marker]
  · rw [h'.marker, h.marker]
  · rw [h'.kept a (by rwa [h.sp]), h.kept a ha]

/-- Two scalars that were pushed one after the other are operands. -/
theorem HasPushed.operands (h : m.HasPushed m₁ left room₁) (h' : m₁.HasPushed m₂ right room₂)
    (hroom : room₂ < 2 ^ 32 - 4) : m₂.HasOperands left right := by
  have hsp : m₂.reg .sp + 8 = m₁.reg .sp := by
    rw [h'.sp]
    bv_omega
  have hsp' : m₂.reg .sp + 12 = m₁.reg .sp + 4 := by
    rw [h'.sp]
    bv_omega
  refine ⟨h'.data, by rw [h'.tag, h'.marker], ?_, ?_⟩
  · rw [hsp, h'.kept _ (Or.inl (by bv_omega)), h.data]
  · rw [hsp', h'.kept _ (Or.inr (by bv_omega)), h.tag, h'.marker, h.marker]

theorem HasOperands.set {r : Reg} {x : Word} (h : m.HasOperands left right) (hsp : Reg.sp ≠ r)
    (hmarker : Reg.s5 ≠ r) : (m.set r x).HasOperands left right := by
  have hregs : (m.set r x).reg .sp = m.reg .sp ∧ (m.set r x).reg .s5 = m.reg .s5 :=
    ⟨reg_set_of_ne _ _ _ _ hsp, reg_set_of_ne _ _ _ _ hmarker⟩
  refine ⟨?_, ?_, ?_, ?_⟩
  · rw [hregs.1, mem_set, h.right]
  · rw [hregs.1, hregs.2, mem_set, h.rightTag]
  · rw [hregs.1, mem_set, h.left]
  · rw [hregs.1, hregs.2, mem_set, h.leftTag]

theorem Combines.of_set {r : Reg} {x : Word} (h : (m.set r x).Combines m' w scratch)
    (hsp : Reg.sp ≠ r) (hmarker : Reg.s5 ≠ r) : m.Combines m' w scratch := by
  have hregs : (m.set r x).reg .sp = m.reg .sp ∧ (m.set r x).reg .s5 = m.reg .s5 :=
    ⟨reg_set_of_ne _ _ _ _ hsp, reg_set_of_ne _ _ _ _ hmarker⟩
  refine ⟨?_, h.data, ?_, ?_, fun ha hlt => ?_⟩
  · rw [h.sp, hregs.1]
  · rw [h.tag, hregs.2]
  · rw [h.marker, hregs.2]
  · rw [h.kept (by rwa [hregs.1]) (by rwa [hregs.1]), mem_set]

/-- What is left of two scalars that were pushed and combined is one scalar that was pushed. -/
theorem HasPushed.combine (h : m.HasPushed m₁ left room₁) (h' : m₁.HasPushed m₂ right room₂)
    (hcombines : m₂.Combines m' w scratch) (hroom₁ : room₁ ≤ room) (hroom₂ : 8 + room₂ ≤ room)
    (hle : 16 + scratch ≤ room) (hlt : room < 2 ^ 32) : m.HasPushed m' w room := by
  have hsp₁ := h.sp
  have hsp₂ := h'.sp
  have hsp := hcombines.sp
  refine ⟨?_, hcombines.data, ?_, ?_, fun a ha => ?_⟩
  · rw [hsp, hsp₂, hsp₁]
    bv_omega
  · rw [hcombines.tag, h'.marker, h.marker]
  · rw [hcombines.marker, h'.marker, h.marker]
  · rw [hcombines.kept (by rw [hsp₂, hsp₁]; bv_omega) (by rw [hsp₂, hsp₁]; bv_omega),
      h'.kept a (by rw [hsp₁]; bv_omega), h.kept a (ha.imp_right fun hlt => by omega)]

end Machine

/-! ## The contract of the division routines -/

/-- The division routines replace the two integers on top of the stack by the quotient and the
remainder, both rounded toward zero, and trap where the divisor is zero.  They use up to `scratch`
bytes below the stack pointer, which are less than half of the memory. -/
structure Runtime.Divides (runtime : Runtime) (scratch : Nat) : Prop where
  small : scratch < 2 ^ 31
  divide {m : Machine} {left right : Word} : m.HasOperands left right → right ≠ 0 →
    ∃ m', runtime .divide m = some m' ∧ m.Combines m' (left.sdiv right) scratch
  remainder {m : Machine} {left right : Word} : m.HasOperands left right → right ≠ 0 →
    ∃ m', runtime .remainder m = some m' ∧ m.Combines m' (left.srem right) scratch
  divide_zero {m : Machine} {left : Word} : m.HasOperands left 0 → runtime .divide m = none
  remainder_zero {m : Machine} {left : Word} : m.HasOperands left 0 → runtime .remainder m = none

/-- A library of the two division routines alone. -/
def Runtime.dividing : Runtime
  | .divide, m => divideBy BitVec.sdiv m
  | .remainder, m => divideBy BitVec.srem m
  | _, _ => none
where
  /-- Saves the return address below the stack and replaces two integers on it by one, unless the
  upper one is zero. -/
  divideBy (op : Word → Word → Word) (m : Machine) : Option Machine :=
    let sp := m.reg .sp
    if m.mem sp = 0 then none
    else some (((m.store (sp - 4) (m.reg .ra)).set .sp (sp + 8)).store (sp + 8)
      (op (m.mem (sp + 8)) (m.mem sp)))

theorem Runtime.divides_dividing : dividing.Divides 4 := by
  have hdivides : ∀ op {m left right}, m.HasOperands left right → right ≠ 0 →
      ∃ m', dividing.divideBy op m = some m' ∧ m.Combines m' (op left right) 4 := by
    intro op m left right h hne
    refine ⟨_, if_neg (by rw [h.right]; exact hne), ?_, ?_, ?_, ?_, fun {a} ha hlt => ?_⟩
    · simp
    · rw [Machine.reg_store, Machine.reg_set_self _ _ _ (by simp), Machine.mem_store_self, h.left,
        h.right]
    · have htag : m.reg .sp + 8 + 4 = m.reg .sp + 12 := by bv_omega
      have hother : m.reg .sp + 12 ≠ m.reg .sp + 8 := by bv_omega
      have hsaved : m.reg .sp + 12 ≠ m.reg .sp - 4 := by bv_omega
      rw [Machine.reg_store, Machine.reg_set_self _ _ _ (by simp), htag,
        Machine.mem_store_of_ne _ _ _ _ hother, Machine.mem_set,
        Machine.mem_store_of_ne _ _ _ _ hsaved, h.leftTag]
    · simp
    · have hother : a ≠ m.reg .sp + 8 := by bv_omega
      have hsaved : a ≠ m.reg .sp - 4 := by bv_omega
      rw [Machine.mem_store_of_ne _ _ _ _ hother, Machine.mem_set,
        Machine.mem_store_of_ne _ _ _ _ hsaved]
  exact ⟨by decide, hdivides _, hdivides _, fun h => if_pos h.right, fun h => if_pos h.right⟩

/-! ## Operators -/

namespace BinOp

/-- The result of an operator on the data words of its operands. -/
def onWords : BinOp → Word → Word → Word
  | .add, a, b => a + b
  | .sub, a, b => a - b
  | .mul, a, b => a * b
  | .div, a, b => a.sdiv b
  | .rem, a, b => a.srem b
  | .eq, a, b => .ofBool (a == b)
  | .lt, a, b => .ofBool (a.slt b)
  | .gt, a, b => .ofBool (b.slt a)
  | .and, a, b => a &&& b
  | .or, a, b => a ||| b

end BinOp

/-- Operators on values and on their data words agree. -/
theorem BinOp.word_of_apply {op : BinOp} {a b v : Value} (h : op.apply a b = .ok v) :
    v.word = op.onWords a.word b.word := by
  cases a with
  | int a =>
    cases b with
    | bool b => cases op <;> simp [apply] at h
    | int b =>
      cases op with
      | div | rem =>
        simp only [apply] at h
        split at h
        · simp at h
        · obtain rfl := Except.ok.inj h
          simp [Value.word, onWords]
      | and | or => simp [apply] at h
      | eq =>
        obtain rfl := Except.ok.inj h
        simp only [Value.word, onWords]
        congr 1
        rw [Bool.eq_iff_iff, beq_iff_eq, beq_iff_eq, Int32.toBitVec_inj]
      | lt | gt =>
        obtain rfl := Except.ok.inj h
        simp [Value.word, onWords, Int32.lt_iff_toBitVec_slt]
      | _ =>
        obtain rfl := Except.ok.inj h
        simp [Value.word, onWords]
  | bool a =>
    cases b with
    | int b => cases op <;> simp [apply] at h
    | bool b =>
      cases op with
      | eq | and | or =>
        obtain rfl := Except.ok.inj h
        cases a <;> cases b <;> rfl
      | _ => simp [apply] at h

/-- Only a division by zero has operands of the right types but no result. -/
theorem BinOp.apply_eq_divisionByZero {op : BinOp} {a b : Value}
    (h : op.apply a b = .error .divisionByZero) : (op = .div ∨ op = .rem) ∧ b.word = 0 := by
  cases a with
  | int a =>
    cases b with
    | bool b => cases op <;> simp [apply] at h
    | int b =>
      cases op with
      | div | rem =>
        simp only [apply] at h
        split at h
        · rename_i hzero
          exact ⟨by simp, by rw [hzero]; rfl⟩
        · simp at h
      | _ => simp [apply] at h
  | bool a =>
    cases b with
    | int b => cases op <;> simp [apply] at h
    | bool b => cases op <;> simp [apply] at h

/-- A division with a result has a divisor. -/
theorem BinOp.word_ne_zero_of_apply {op : BinOp} {a b v : Value} (hop : op = .div ∨ op = .rem)
    (h : op.apply a b = .ok v) : b.word ≠ 0 := by
  intro hzero
  cases a with
  | bool a => rcases hop with rfl | rfl <;> simp [apply] at h
  | int a =>
    cases b with
    | bool b => rcases hop with rfl | rfl <;> simp [apply] at h
    | int b =>
      have hb : b = 0 := Int32.toBitVec_inj.1 hzero
      rcases hop with rfl | rfl <;> simp [apply, hb] at h

/-! ## Blocks -/

section Blocks

variable {image : Image} {i : Nat} {m : Machine} {span : Span}

theorem Word.ofInt_wordSize : Word.ofInt wordSize = 4 :=
  rfl

theorem Word.ofInt_two_mul_wordSize : Word.ofInt (2 * wordSize) = 8 :=
  rfl

theorem Word.ofInt_zero : Word.ofInt 0 = 0 :=
  rfl

/-- Pushing a scalar from a register. -/
theorem exists_pushed (image : Image) (i : Nat) (m : Machine) {r : Reg} (hr : r ≠ .sp) :
    ∃ m', execFrom image i m
        [.subuImm .sp .sp (2 * wordSize), .sw .s5 wordSize .sp, .sw r 0 .sp] = .next m' ∧
      m.HasPushed m' (m.reg r) 8 := by
  refine ⟨_, rfl, ?_, ?_, ?_, ?_, fun a ha => ?_⟩
  · simp [Word.ofInt_two_mul_wordSize]
  · simp [hr]
  · simp only [Word.ofInt_wordSize, Word.ofInt_zero, Machine.reg_store]
    rw [Machine.mem_store_of_ne _ _ _ _ (by bv_omega), Machine.mem_store_self]
    simp
  · simp
  · simp only [Word.ofInt_wordSize, Word.ofInt_zero, Word.ofInt_two_mul_wordSize,
      Machine.reg_store, Machine.reg_set_self _ _ _ (show Reg.sp ≠ .zero by simp)]
    rw [Machine.mem_store_of_ne _ _ _ _ (by bv_omega),
      Machine.mem_store_of_ne _ _ _ _ (by bv_omega), Machine.mem_set]

/-- Dropping a scalar. -/
theorem execFrom_dropScalar : execFrom image i m (dropCode span (2 * wordSize)).insts =
    .next (m.set .sp (m.reg .sp + 8)) := by
  rw [dropCode, if_neg (by decide), Code.insts_of]
  rfl

/-- The code of an operator that has an instruction: both operands go to registers, one of them is
dropped, and the result takes the place of the other. -/
def operatorCode (span : Span) (op : BinOp) : Code :=
  Code.of span ([.lw .t0 0 .sp, .lw .t1 (2 * wordSize) .sp] ++ combine op)
    ++ dropCode span (2 * wordSize) ++ Code.of span [.sw .t0 0 .sp]

/-- The code of an operator other than `&&` and `||` on scalars: a call of the library to divide,
and the operator's instruction else. -/
theorem applyOperator_cases {op : BinOp} {code : Code} {f f' : Frame}
    (h : (applyOperator span op false).run f = .ok (code, f')) (hop : op.isShortCircuit = false) :
    (op = .div ∧ code = Code.of span [.callRoutine .divide]) ∨
      (op = .rem ∧ code = Code.of span [.callRoutine .remainder]) ∨
      (combine op ≠ [] ∧ code = operatorCode span op) := by
  have hinst : ∀ {op : BinOp}, (do
      let drop ← pop span (2 * wordSize)
      return Code.of span ([.lw .t0 0 .sp, .lw .t1 (2 * wordSize) .sp] ++ combine op)
        ++ drop ++ Code.of span [.sw .t0 0 .sp] : Gen Code).run f = .ok (code, f') →
      code = operatorCode span op := by
    intro op h
    simp only [run_bind_eq_ok_iff, run_pure_eq_ok_iff] at h
    obtain ⟨drop, _, hdrop, rfl, _⟩ := h
    obtain ⟨rfl, _⟩ := pop_run hdrop
    rfl
  cases op with
  | div => exact Or.inl ⟨rfl, (callDivision_run h).1⟩
  | rem => exact Or.inr (Or.inl ⟨rfl, (callDivision_run h).1⟩)
  | and | or => simp [BinOp.isShortCircuit] at hop
  | _ => exact Or.inr (Or.inr ⟨by simp [combine], hinst h⟩)

/-- The instruction of an operator combines `$t1` and `$t0` and changes nothing but `$t0`. -/
theorem exists_combine (image : Image) (i : Nat) (m : Machine) {op : BinOp}
    (hcombine : combine op ≠ []) :
    ∃ m', execFrom image i m (combine op) = .next m' ∧
      m'.reg .t0 = op.onWords (m.reg .t1) (m.reg .t0) ∧ m'.mem = m.mem ∧
      ∀ r, r ≠ .t0 → m'.reg r = m.reg r := by
  cases op with
  | div | rem | and | or => exact absurd rfl hcombine
  | mul =>
    refine ⟨_, rfl, ?_, rfl, fun r hr => ?_⟩
    · simp [BinOp.onWords]
    · rw [Machine.reg_set_of_ne _ _ _ _ hr]
      cases r <;> rfl
  | _ => exact ⟨_, rfl, by simp [AluOp.eval, BinOp.onWords], rfl, fun r hr => by simp [hr]⟩

/-- Combining two scalars by an instruction. -/
theorem exists_combined (image : Image) (i scratch : Nat) {op : BinOp} {left right : Word}
    (h : m.HasOperands left right) (hcombine : combine op ≠ []) :
    ∃ m', execFrom image i m (operatorCode span op).insts = .next m' ∧
      m.Combines m' (op.onWords left right) scratch := by
  have hinsts : (operatorCode span op).insts = [.lw .t0 0 .sp, .lw .t1 (2 * wordSize) .sp]
      ++ (combine op ++ [.adduImm .sp .sp (2 * wordSize), .sw .t0 0 .sp]) := by
    rw [operatorCode, dropCode, if_neg (by decide)]
    simp [Code.insts_append]
  have hload : execFrom image i m [.lw .t0 0 .sp, .lw .t1 (2 * wordSize) .sp] =
      .next ((m.set .t0 right).set .t1 left) := by
    simp [execFrom, Inst.exec, Word.ofInt_two_mul_wordSize, ← h.left, ← h.right]
  obtain ⟨m₁, hop, hresult, hmem, hregs⟩ :=
    exists_combine image (i + 2) ((m.set .t0 right).set .t1 left) hcombine
  have hsp : m₁.reg .sp = m.reg .sp := by simp [hregs]
  have hmarker : m₁.reg .s5 = m.reg .s5 := by simp [hregs]
  have hmem' : m₁.mem = m.mem := hmem
  have hword : m₁.reg .t0 = op.onWords left right := by simp [hresult]
  have hstore : execFrom image (i + 2 + (combine op).length) m₁
      [.adduImm .sp .sp (2 * wordSize), .sw .t0 0 .sp] =
      .next ((m₁.set .sp (m.reg .sp + 8)).store (m.reg .sp + 8) (op.onWords left right)) := by
    simp [execFrom, Inst.exec, Word.ofInt_two_mul_wordSize, hsp, hword]
  refine ⟨_, (by rw [hinsts, execFrom_append hload]; exact (execFrom_append hop).trans hstore),
    ?_, ?_, ?_, ?_, fun {a} ha _ => ?_⟩
  · simp
  · simp
  · have htag : m.reg .sp + 8 + 4 = m.reg .sp + 12 := by bv_omega
    have hne : m.reg .sp + 12 ≠ m.reg .sp + 8 := by bv_omega
    rw [Machine.reg_store, Machine.reg_set_self _ _ _ (by simp), htag,
      Machine.mem_store_of_ne _ _ _ _ hne, Machine.mem_set, hmem', h.leftTag]
  · simp [hmarker]
  · have hne : a ≠ m.reg .sp + 8 := by bv_omega
    rw [Machine.mem_store_of_ne _ _ _ _ hne, Machine.mem_set, hmem']

end Blocks

end MipsBackend
