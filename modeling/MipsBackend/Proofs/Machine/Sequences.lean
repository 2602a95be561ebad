import MipsBackend.Program.Code
import MipsBackend.Proofs.Machine.Basic

/-!
# Runs of fixed sequences

The generator has a few fixed sequences of instructions around a call: the one that enters a method
through the receiver's table, the prologue and the epilogue.  Here each is run once, from any state.
What the resulting state means for callers and callees is the subject of later modules.
-/

namespace MipsBackend

open Gen

variable {image : Image} {i : Nat} {m : Machine}

/-- A call through a table fetches the method's entry from the record of the receiver, which it
finds on the stack. -/
theorem execFrom_dispatch {ml : MethodLayout} {enter : List Inst} {receiver entry : Word}
    (h : dispatch ml = .ok enter)
    (hreceiver : m.mem (m.reg .sp + .ofInt (ml.receiverOffset - wordSize)) = receiver)
    (hnull : receiver ≠ 0)
    (hentry : m.mem (m.mem (receiver + .ofInt classRecordOffset) + .ofInt ml.entryOffset) = entry) :
    execFrom image i m enter = .goto entry ((m.set .t0 entry).set .ra (image.line (i + 5))) := by
  obtain ⟨_, rfl⟩ := dispatch_eq_ok_iff.1 h
  have hnull' : ¬ receiver = 0#32 := hnull
  simp [loadEntry, Inst.nullCheck, execFrom, Inst.exec, BranchOp.taken, hreceiver, hnull', hentry]

/-- The state after a prologue: the caller's receiver is saved below the arguments, and the return
address takes the place of the receiver, which is in `$s2` now. -/
def entered (m : Machine) (receiverOffset : Int) : Machine :=
  let sp := m.reg .sp - .ofInt wordSize
  let saved := (m.set .sp sp).store sp (m.reg .s2)
  (saved.set .s2 (saved.mem (sp + .ofInt receiverOffset))).store (sp + .ofInt receiverOffset)
    (m.reg .ra)

theorem execFrom_prologue {receiverOffset : Int} :
    execFrom image i m (prologue receiverOffset) = .next (entered m receiverOffset) := by
  simp [prologue, execFrom, Inst.exec, entered]

/-- Memory with the result of a method in its place: the data word from the top of the stack, below
a tag word if it is a scalar. -/
def withResult (m : Machine) (ty : Ty) (slot : Word) : Word → Word :=
  if ty.isVoid then m.mem
  else if ty.isScalar then
    Function.update (Function.update m.mem (slot - .ofInt wordSize) (m.mem (m.reg .sp))) slot
      (m.reg .s5)
  else Function.update m.mem slot (m.mem (m.reg .sp))

/-- The result is stored after everything that its place may overlap has been read. -/
theorem execFrom_epilogue (image : Image) (i : Nat) (m : Machine) {receiverOffset height : Int}
    {ty : Ty} {insts : List Inst} (h : epilogue receiverOffset height ty = .ok insts) :
    ∃ m', execFrom image i m insts =
        .goto (m.mem (m.reg .sp + .ofInt (receiverOffset + height))) m' ∧
      m'.reg .s2 = m.mem (m.reg .sp + .ofInt height) ∧
      m'.reg .sp = m.reg .sp + .ofInt (height + wordSize + receiverOffset - ty.stackBytes) ∧
      m'.mem = withResult m ty (m.reg .sp + .ofInt (receiverOffset + height)) ∧
      ∀ r, r ≠ .t0 → r ≠ .sp → r ≠ .s2 → r ≠ .ra → m'.reg r = m.reg r := by
  simp only [epilogue, bind_eq_ok_iff, Offset.add, Offset.sub, Offset.checked_eq_ok_iff,
    pure_eq_ok_iff] at h
  obtain ⟨_, ⟨_, rfl⟩, result, hresult, _, ⟨_, rfl⟩, _, ⟨_, rfl⟩, _, ⟨_, rfl⟩, rfl⟩ := h
  unfold storeResult at hresult
  split at hresult
  · rename_i hvoid
    obtain rfl := Except.ok.inj hresult
    refine ⟨_, rfl, ?_, ?_, ?_, fun r ht hsp hs hra => ?_⟩
    · simp
    · simp
    · simp [withResult, hvoid]
    · simp [hsp, hs, hra]
  · rename_i hvoid
    split at hresult
    · rename_i hscalar
      simp only [bind_eq_ok_iff, Offset.sub, Offset.checked_eq_ok_iff, pure_eq_ok_iff] at hresult
      obtain ⟨_, ⟨_, rfl⟩, rfl⟩ := hresult
      refine ⟨_, rfl, ?_, ?_, ?_, fun r ht hsp hs hra => ?_⟩
      · simp
      · simp
      · have hdata : m.reg .sp + .ofInt (receiverOffset + height - wordSize) =
            m.reg .sp + .ofInt (receiverOffset + height) - .ofInt wordSize := by
          rw [Word.ofInt_sub, BitVec.sub_eq_add_neg, BitVec.sub_eq_add_neg, BitVec.add_assoc]
        simp [withResult, hvoid, hscalar, Machine.mem_store, hdata]
      · simp [ht, hsp, hs, hra]
    · rename_i hscalar
      obtain rfl := Except.ok.inj hresult
      refine ⟨_, rfl, ?_, ?_, ?_, fun r ht hsp hs hra => ?_⟩
      · simp
      · simp
      · simp [withResult, hvoid, hscalar, Machine.mem_store]
      · simp [ht, hsp, hs, hra]

end MipsBackend
