import Mathlib.Data.List.Nodup
import MipsBackend.Proofs.Assembly.Labels

/-!
# Labels that are referred to

Code is *closed* under its labels if it defines no label twice and defines whatever it refers to, up
to the runtime library.  Parts of it refer to labels of other parts, so they are described by a set
of labels that are known to them (`Code.RefersTo`).
-/

namespace MipsBackend

/-- The label that an instruction refers to. -/
def Inst.operand? : Inst → Option Label
  | .globl l | .word (.label l) | .la _ l | .branch _ _ _ l | .j l | .jal l => some l
  | _ => none

/-- The register that an instruction writes.  Calls write the return address. -/
def Inst.written? : Inst → Option Reg
  | .li rd _ | .la rd _ | .lw rd _ _ | .adduImm rd _ _ | .subuImm rd _ _ | .xorImm rd _ _
  | .sll rd _ _ | .alu _ rd _ _ | .mflo rd => some rd
  | .jal _ | .jalr _ => some .ra
  | _ => none

/-- The label is defined by the runtime library. -/
def Label.isRuntime : Label → Bool
  | .runtime _ | .runtimeMethod _ _ => true
  | _ => false

/-- The label is one of the data segment. -/
def Label.isData : Label → Bool
  | .classStart _ | .classEnd _ | .strLit _ => true
  | _ => false

namespace Code

variable {code code' : Code} {known : Label → Prop} {l : Label}

/-- The labels that some code refers to, in order. -/
def operands (code : Code) : List Label :=
  code.insts.filterMap Inst.operand?

/-- No label is defined twice, and each one that is referred to is defined once or belongs to the
runtime library. -/
structure IsClosed (code : Code) : Prop where
  resolved {l : Label} : l ∈ code.operands → l.isRuntime ∨ code.labels.count l = 1
  nodup : code.labels.Nodup

/-- The code refers to known labels only, and it leaves the marker of scalars alone. -/
def RefersTo (code : Code) (known : Label → Prop) : Prop :=
  ∀ inst ∈ code.insts, (∀ l, inst.operand? = some l → known l) ∧ inst.written? ≠ some .s5

@[simp] theorem refersTo_nil : RefersTo [] known := by
  simp [RefersTo, insts]

@[simp] theorem refersTo_append :
    (code ++ code').RefersTo known ↔ code.RefersTo known ∧ code'.RefersTo known := by
  simp only [RefersTo, insts_append, List.forall_mem_append]

@[simp] theorem refersTo_of {span : Span} {is : List Inst} :
    (Code.of span is).RefersTo known ↔
      ∀ inst ∈ is, (∀ l, inst.operand? = some l → known l) ∧ inst.written? ≠ some .s5 := by
  rw [RefersTo, insts_of]

theorem refersTo_flatten {codes : List Code} (h : ∀ code ∈ codes, code.RefersTo known) :
    RefersTo codes.flatten known := by
  induction codes with
  | nil => exact refersTo_nil
  | cons code codes ih =>
    obtain ⟨first, rest⟩ := List.forall_mem_cons.1 h
    exact refersTo_append.2 ⟨first, ih rest⟩

/-- A part of the code defines labels of the whole. -/
theorem labels_subset_flatten {codes : List Code} (h : code ∈ codes) :
    code.labels ⊆ labels codes.flatten := by
  intro l hl
  obtain ⟨inst, hinst, hdefined⟩ := List.mem_filterMap.1 hl
  obtain ⟨line, hline, rfl⟩ := List.mem_map.1 hinst
  have hwhole : line ∈ codes.flatten := List.mem_flatten.2 ⟨code, h, hline⟩
  exact List.mem_filterMap.2 ⟨_, List.mem_map_of_mem hwhole, hdefined⟩

theorem RefersTo.known_of_mem (h : code.RefersTo known) (hl : l ∈ code.operands) : known l := by
  obtain ⟨inst, mem, refers⟩ := List.mem_filterMap.1 hl
  exact (h inst mem).1 l refers

theorem isClosed_of_refersTo (nodup : code.labels.Nodup)
    (h : code.RefersTo fun l => l.isRuntime ∨ l ∈ code.labels) : code.IsClosed where
  resolved hl := (h.known_of_mem hl).imp_right fun mem => List.count_eq_one_of_mem nodup mem
  nodup := nodup

end Code

end MipsBackend
