import Mathlib.Logic.Relation
import MipsBackend.Proofs.Machine.Basic

/-!
# Runs through labelled code

`execFrom` follows lines that stand one after the other.  Code with branches needs more: an
`Executable` is code in which jumps are resolved, a `Control` says where a run is, and
`Executable.step` is one instruction.  Routines of the runtime library are not part of the code.
What a call of one does to the machine is a parameter.

Code is executed in parts.  `HasAt` says that a part stands at a line of the whole, and the lemmas
below it find the parts of a part.  `runs_block` executes a part without labels, `runs_jump` follows
a jump that ends a part.
-/

namespace MipsBackend

/-- What the routines of the runtime library do when they are called.  A routine that does not
return traps. -/
abbrev Runtime :=
  Routine → Machine → Option Machine

/-- Code that is placed in memory, with the library that it calls. -/
structure Executable where
  code : Code
  image : Image
  runtime : Runtime

/-- Where a run is. -/
inductive Control where
  /-- About to execute a line; a line behind the last one is the end. -/
  | line (i : Nat) (m : Machine)
  /-- Control has left for a place outside the code. -/
  | outside (o : Outcome)
  /-- A routine of the library did not return. -/
  | trapped

namespace Executable

variable {exe : Executable} {code pre post : Code} {i j : Nat} {m m' : Machine} {l : Label}
  {c d d' : Control}

/-- The line that defines a label. -/
def lineOf (exe : Executable) (l : Label) : Option Nat :=
  exe.code.insts.findIdx? (· == .label l)

/-- Where control goes after line `i`. -/
def resume (exe : Executable) (i : Nat) : Outcome → Control
  | .next m => .line (i + 1) m
  | .jump l m =>
    match exe.lineOf l with
    | some j => .line j m
    | none => .outside (.jump l m)
  | o => .outside o

/-- One instruction.  The call of a library routine is one step too. -/
def step (exe : Executable) : Control → Option Control
  | .line i m =>
    match exe.code.insts[i]? with
    | some (.jal (.runtime routine)) =>
      match exe.runtime routine (m.set .ra (exe.image.line (i + 1))) with
      | some m' => some (.line (i + 1) m')
      | none => some .trapped
    | some inst => some (exe.resume i (inst.exec exe.image (exe.image.line (i + 1)) m))
    | none => none
  | .outside _ | .trapped => none

/-- Any number of instructions lead from one place to the other. -/
def Runs (exe : Executable) : Control → Control → Prop :=
  Relation.ReflTransGen fun c c' => exe.step c = some c'

theorem Runs.refl : exe.Runs c c :=
  Relation.ReflTransGen.refl

theorem Runs.trans (h : exe.Runs c d) (h' : exe.Runs d d') : exe.Runs c d' :=
  Relation.ReflTransGen.trans h h'

/-- A run that goes somewhere goes through the next step. -/
theorem Runs.of_step (h : exe.Runs c d) (hstep : exe.step c = some c') (hne : c ≠ d) :
    exe.Runs c' d := by
  rcases h.cases_head with rfl | ⟨c'', hstep', hrest⟩
  · exact absurd rfl hne
  · obtain rfl : c' = c'' := Option.some.inj (hstep.symm.trans hstep')
    exact hrest

/-- Two runs from one place end at the same place. -/
theorem Runs.end_unique (h : exe.Runs c d) (h' : exe.Runs c d') (hd : exe.step d = none)
    (hd' : exe.step d' = none) : d = d' := by
  induction h using Relation.ReflTransGen.head_induction_on with
  | refl =>
    rcases h'.cases_head with heq | ⟨_, hstep, _⟩
    · exact heq
    · simp [hd] at hstep
  | head hstep _ ih =>
    refine ih (h'.of_step hstep ?_)
    rintro rfl
    simp [hd'] at hstep

@[simp] theorem step_trapped : exe.step .trapped = none :=
  rfl

theorem step_end : exe.step (.line exe.code.length m) = none := by
  have hend : exe.code.insts[exe.code.length]? = none := by simp [Code.insts]
  simp only [step, hend]

/-! ## Parts of the code -/

/-- A part of the code stands at line `i`. -/
def HasAt (exe : Executable) (i : Nat) (part : Code) : Prop :=
  ∃ pre post, exe.code = pre ++ part ++ post ∧ pre.length = i

theorem hasAt_self (exe : Executable) : exe.HasAt 0 exe.code :=
  ⟨[], [], by simp, rfl⟩

theorem add_length_append (i : Nat) (pre post : Code) :
    i + (pre ++ post).length = i + pre.length + post.length := by
  rw [List.length_append, Nat.add_assoc]

theorem HasAt.left (h : exe.HasAt i (pre ++ post)) : exe.HasAt i pre := by
  obtain ⟨before, behind, hcode, hlength⟩ := h
  exact ⟨before, post ++ behind, by simp [hcode], hlength⟩

theorem HasAt.right (h : exe.HasAt i (pre ++ post)) : exe.HasAt (i + pre.length) post := by
  obtain ⟨before, behind, hcode, hlength⟩ := h
  exact ⟨before ++ pre, behind, by simp [hcode], by simp [hlength]⟩

theorem HasAt.getElem? (h : exe.HasAt i code) {k : Nat} (hk : k < code.length) :
    exe.code.insts[i + k]? = code.insts[k]? := by
  obtain ⟨before, behind, hcode, rfl⟩ := h
  rw [hcode, Code.insts_append, Code.insts_append, List.append_assoc,
    List.getElem?_append_right (by simp [Code.insts])]
  rw [List.getElem?_append_left (by simp [Code.insts]; omega)]
  simp [Code.insts]

theorem HasAt.head {line : Line} (h : exe.HasAt i (line :: code)) :
    exe.code.insts[i]? = some line.inst := by
  have hline := h.getElem? (k := 0) (by simp)
  simpa [Code.insts] using hline

theorem HasAt.tail {line : Line} (h : exe.HasAt i (line :: code)) : exe.HasAt (i + 1) code := by
  rw [← List.singleton_append] at h
  exact h.right

/-- A label that is defined once is found where it stands. -/
theorem lineOf_eq (hlabels : exe.code.labels.Nodup) (h : exe.code.LabelAt l i) :
    exe.lineOf l = some i := by
  have hfound : exe.lineOf l ≠ none := by
    intro hnone
    have hnot := List.findIdx?_eq_none_iff.1 hnone _ (List.mem_of_getElem? h)
    simp at hnot
  cases hline : exe.lineOf l with
  | none => exact absurd hline hfound
  | some j =>
    obtain ⟨hlt, hinst, _⟩ := List.findIdx?_eq_some_iff_getElem.1 hline
    have hj : exe.code.LabelAt l j := by
      rw [Code.LabelAt, List.getElem?_eq_getElem hlt]
      exact congrArg some (by simpa using hinst)
    rw [hj.unique h (List.nodup_iff_count.1 hlabels l)]

/-! ## Executing parts -/

/-- An instruction that is no call of the library does what `Inst.exec` says. -/
theorem step_line {inst : Inst} (hinst : exe.code.insts[i]? = some inst)
    (hcall : ∀ routine, inst ≠ .jal (.runtime routine)) :
    exe.step (.line i m) =
      some (exe.resume i (inst.exec exe.image (exe.image.line (i + 1)) m)) := by
  simp only [step, hinst]

theorem exec_jal_ne_next {back : Word} {image : Image} {routine : Routine} :
    (Inst.jal (.runtime routine)).exec image back m ≠ .next m' :=
  nofun

/-- Lines that lead one to the next are executed in order. -/
theorem runs_block (h : exe.HasAt i code) (hexec : execFrom exe.image i m code.insts = .next m') :
    exe.Runs (.line i m) (.line (i + code.length) m') := by
  induction code generalizing i m with
  | nil =>
    obtain rfl : m = m' := by simpa [Code.insts] using hexec
    exact .refl
  | cons line code ih =>
    change execFrom exe.image i m (line.inst :: Code.insts code) = .next m' at hexec
    rw [execFrom] at hexec
    cases hinst : line.inst.exec exe.image (exe.image.line (i + 1)) m with
    | next m₁ =>
      rw [hinst] at hexec
      have hstep : exe.step (.line i m) = some (.line (i + 1) m₁) := by
        rw [step_line h.head fun routine heq => exec_jal_ne_next (heq ▸ hinst), hinst, resume]
      rw [List.length_cons, Nat.add_comm code.length, ← Nat.add_assoc]
      exact .head hstep (ih h.tail hexec)
    | jump | goto | system =>
      rw [hinst] at hexec
      exact absurd hexec (by simp)

/-- Lines that lead one to the next, the last of which jumps to a label. -/
theorem runs_jump {inst : Inst} {span : Span} (h : exe.HasAt i (code ++ [⟨span, inst⟩]))
    (hexec : execFrom exe.image i m code.insts = .next m')
    (hjump : ∀ back, inst.exec exe.image back m' = .jump l m')
    (hcall : ∀ routine, inst ≠ .jal (.runtime routine)) (hl : exe.lineOf l = some j) :
    exe.Runs (.line i m) (.line j m') := by
  refine (runs_block h.left hexec).trans (.single ?_)
  simp only [step_line h.right.head hcall, hjump, resume, hl]

/-- Control goes through a label. -/
theorem runs_label {span : Span} (h : exe.HasAt i (Code.of span [.label l])) :
    exe.Runs (.line i m) (.line (i + 1) m) :=
  runs_block h rfl

theorem runs_j {span : Span} (h : exe.HasAt i (Code.of span [.j l]))
    (hl : exe.lineOf l = some j) : exe.Runs (.line i m) (.line j m) :=
  .single (by simp only [step_line h.head nofun, Inst.exec, resume, hl])

theorem runs_branch_taken {span : Span} {op : BranchOp} {rs rt : Reg}
    (h : exe.HasAt i (Code.of span [.branch op rs rt l])) (hl : exe.lineOf l = some j)
    (htaken : op.taken (m.reg rs) (m.reg rt)) : exe.Runs (.line i m) (.line j m) :=
  .single (by simp only [step_line h.head nofun, Inst.exec, htaken, if_true, resume, hl])

theorem runs_branch_next {span : Span} {op : BranchOp} {rs rt : Reg}
    (h : exe.HasAt i (Code.of span [.branch op rs rt l]))
    (hnot : op.taken (m.reg rs) (m.reg rt) = false) :
    exe.Runs (.line i m) (.line (i + 1) m) :=
  runs_block h (by simp [execFrom, Inst.exec, hnot])

end Executable

end MipsBackend
