import MipsBackend.Proofs.Execution.Control
import MipsBackend.Proofs.Execution.Expressions
import MipsBackend.Proofs.Source.Statements

/-!
# Running the code of structured control flow

The code of statements over scalar expressions simulates their execution.  What ties a store to a
machine is the frame of the generator (`Frame.Describes`): it tells how far the stack reaches and
where the variables in scope lie, and no two of them share a place.

`Completes` says where a run is when a task has completed, one case for each way to complete: at the
end of the code, at the jump out of a loop, or trapped.  That the code of a task does what an
execution of the task does is `Task.Simulated`.
-/

namespace MipsBackend

open Gen

namespace Task

/-- The nodes of a task. -/
def nodes : Task → List Node
  | one s => s.nodes
  | all ss => StmtTree.nodesAll ss

/-- The code of a task. -/
def code (p : Program) (l : Layout) : Task → Gen Code
  | one s => s.code p l
  | all ss => StmtTree.codeAll p l ss

/-- The variables declared in a task. -/
def declares : Task → List VarId
  | one s => s.declares
  | all ss => StmtTree.declaresAll ss

end Task

variable {p : Program} {l : Layout} {f f₁ f' : Frame} {code : Code} {span : Span} {σ σ' : Store}
  {x : VarId} {v : Value} {scope scope' : List VarId} {loops : List StmtId} {base : Word}
  {exe : Executable} {i j stop : Nat} {m m' : Machine} {c : Completion} {start : Control}
  {declared : List VarId} {nodes : List Node} {scratch : Nat}

/-! ## Frames and machines -/

/-- The frame describes the stack of a machine: the stack pointer is as far below `base` as the
frame is high, the variables have their values, and each has a place of its own. -/
structure Frame.Describes (f : Frame) (p : Program) (l : Layout) (base : Word) (scratch : Nat)
    (σ : Store) (scope : List VarId) (m : Machine) : Prop where
  sp : m.reg .sp = base - .ofInt f.height
  nonneg : 0 ≤ f.height
  holds : f.Holds p l base scratch σ scope m
  apart : ∀ x ∈ scope, ∀ y ∈ scope, f.stackOffset? p l x = f.stackOffset? p l y → x = y

/-- A local variable lies where it was declared. -/
theorem Frame.stackOffset?_of_isLocal (f : Frame) (h : p.isLocal x) :
    f.stackOffset? p l x = f.locals.lookup x := by
  rw [Program.isLocal] at h
  rw [Frame.stackOffset?]
  split at h
  · rename_i hdecl
    rw [hdecl]
  · cases h

/-- Places do not change when code is generated. -/
theorem Frame.Extends.stackOffset?_eq {offset : Int} (h : f.Extends f' declared nodes)
    (hx : f.stackOffset? p l x = some offset) : f'.stackOffset? p l x = some offset := by
  rw [Frame.stackOffset?] at hx ⊢
  split at hx
  · exact hx
  · exact h.kept hx
  · cases hx

namespace Frame.Describes

theorem exists_offset (h : f.Describes p l base scratch σ scope m) (hx : x ∈ scope) :
    ∃ offset, f.stackOffset? p l x = some offset ∧ -f.height ≤ offset ∧
      offset + scratch < 2 ^ 31 := by
  obtain ⟨offset, hoffset, hle, hlt, _⟩ := h.holds x hx
  exact ⟨offset, hoffset, hle, hlt⟩

/-- The stack as it was, but for what lies below the stack pointer. -/
theorem of_kept {room : Nat} (h : f.Describes p l base scratch σ scope m)
    (hsp : m'.reg .sp = m.reg .sp) (hroom : f.height + room < 2 ^ 31)
    (hkept : m.KeepsAbove m' (room + scratch)) :
    f.Describes p l base scratch σ scope m' :=
  ⟨hsp.trans h.sp, h.nonneg, h.holds.of_kept h.sp hroom hkept, h.apart⟩

/-- A frame that came out of one of the same height describes the same stack. -/
theorem of_extends (h : f.Describes p l base scratch σ scope m)
    (hextends : f.Extends f' declared nodes) (hheight : f'.height = f.height) :
    f'.Describes p l base scratch σ scope m := by
  refine ⟨by rw [h.sp, hheight], by rw [hheight]; exact h.nonneg, fun x hx => ?_,
    fun x hx y hy hxy => ?_⟩
  · obtain ⟨offset, hoffset, hle, hrest⟩ := h.holds x hx
    exact ⟨offset, hextends.stackOffset?_eq hoffset, by rw [hheight]; exact hle, hrest⟩
  · obtain ⟨a, ha, _⟩ := h.exists_offset hx
    obtain ⟨b, hb, _⟩ := h.exists_offset hy
    rw [hextends.stackOffset?_eq ha, hextends.stackOffset?_eq hb] at hxy
    exact h.apart x hx y hy (by rw [ha, hb, hxy])

/-- The variables of an outer scope, in the frame of that scope. -/
theorem holds_outer (h : f.Describes p l base scratch σ scope m)
    (hextends : f.Extends f' declared nodes) (hholds : f'.Holds p l base scratch σ' scope' m')
    (hsub : scope ⊆ scope') :
    f.Holds p l base scratch σ' scope m' := by
  intro x hx
  obtain ⟨offset, hoffset, hle, hlt⟩ := h.exists_offset hx
  obtain ⟨offset', hoffset', _, _, hty, hword⟩ := hholds x (hsub hx)
  obtain rfl := Option.some.inj ((hextends.stackOffset?_eq hoffset).symm.trans hoffset')
  exact ⟨offset, hoffset, hle, hlt, hty, hword⟩

/-- Back in an outer scope, with another store. -/
theorem leave (h : f.Describes p l base scratch σ scope m) (hextends : f.Extends f' declared nodes)
    (hholds : f'.Holds p l base scratch σ' scope' m') (hsub : scope ⊆ scope')
    (hsp : m'.reg .sp = base - .ofInt f.height) : f.Describes p l base scratch σ' scope m' :=
  ⟨hsp, h.nonneg, h.holds_outer hextends hholds hsub, h.apart⟩

/-- Different places are different words. -/
theorem word_ne {a b : Int} {height : Int} (hheight : height < 2 ^ 31) (ha : -height ≤ a)
    (ha' : a + scratch < 2 ^ 31) (hb : -height ≤ b) (hb' : b + scratch < 2 ^ 31) (hne : a ≠ b) :
    base + Word.ofInt a ≠ base + .ofInt b := by
  intro heq
  have hword : Word.ofInt a = .ofInt b := by
    simpa using heq
  rw [← BitVec.toNat_inj, BitVec.toNat_ofInt, BitVec.toNat_ofInt] at hword
  omega

/-- Writing a variable's word sets the variable and no other. -/
theorem store {offset : Int} (h : f.Describes p l base scratch σ scope m)
    (hheight : f.height < 2 ^ 31) (hoffset : f.stackOffset? p l x = some offset)
    (hx : x ∈ scope) (hty : v.ty = p.varTy x) :
    f.Describes p l base scratch (σ.set x v) scope (m.store (base + .ofInt offset) v.word) := by
  refine ⟨by rw [Machine.reg_store, h.sp], h.nonneg, fun y hy => ?_, h.apart⟩
  obtain ⟨offset', hoffset', hle', hlt', hty', hword'⟩ := h.holds y hy
  refine ⟨offset', hoffset', hle', hlt', ?_⟩
  by_cases hyx : y = x
  · subst hyx
    obtain rfl := Option.some.inj (hoffset'.symm.trans hoffset)
    rw [Store.set, Function.update_self, Machine.mem_store_self]
    exact ⟨hty, rfl⟩
  · obtain ⟨_, hfound, hle, hlt⟩ := h.exists_offset hx
    obtain rfl := Option.some.inj (hoffset.symm.trans hfound)
    have hne : offset' ≠ offset := by
      rintro rfl
      exact hyx (h.apart y hy x hx (hoffset'.trans hoffset.symm))
    rw [Store.set, Function.update_of_ne hyx,
      Machine.mem_store_of_ne _ _ _ _ (word_ne hheight hle' hlt' hle hlt hne)]
    exact ⟨hty', hword'⟩

/-- A value that was pushed becomes a variable. -/
theorem declare {room : Nat} (h : f.Describes p l base scratch σ scope m)
    (hpushed : m.HasPushed m' v.word (room + scratch)) (hroom : f.height + room < 2 ^ 31)
    (hscratch : scratch < 2 ^ 31)
    (hextends : f.Extends f' declared nodes) (hheight : f'.height = f.height + 8)
    (hplace : f'.stackOffset? p l x = some (-f'.height)) (hty : v.ty = p.varTy x) :
    f'.Describes p l base scratch (σ.set x v) (x :: scope) m' := by
  have hnonneg := h.nonneg
  have hsp : m'.reg .sp = base - .ofInt f'.height := by
    rw [hpushed.sp, h.sp, hheight, ← Word.sub_sub_ofInt]
    rfl
  -- The variable lies below those that were there before.
  have hbelow : ∀ y ∈ scope, f'.stackOffset? p l y ≠ some (-f'.height) := by
    intro y hy heq
    obtain ⟨offset, hoffset, hle, _⟩ := h.exists_offset hy
    have hsame := Option.some.inj ((hextends.stackOffset?_eq hoffset).symm.trans heq)
    omega
  have hne : ∀ y ∈ scope, y ≠ x := by
    intro y hy heq
    exact hbelow y hy (heq ▸ hplace)
  have hvars := h.holds.of_kept h.sp hroom hpushed.kept
  refine ⟨hsp, by omega, fun y hy => ?_, fun y hy z hz hyz => ?_⟩
  · rcases List.mem_cons.1 hy with rfl | hy
    · refine ⟨_, hplace, Int.le_refl _, by omega, ?_⟩
      rw [Store.set, Function.update_self, Word.ofInt_neg, ← BitVec.sub_eq_add_neg, ← hsp,
        hpushed.data]
      exact ⟨hty, rfl⟩
    · obtain ⟨offset, hoffset, hle, hlt, hrest⟩ := hvars y hy
      refine ⟨offset, hextends.stackOffset?_eq hoffset, by omega, hlt, ?_⟩
      rw [Store.set, Function.update_of_ne (hne y hy)]
      exact hrest
  · rcases List.mem_cons.1 hy with hyx | hyold
    · rcases List.mem_cons.1 hz with hzx | hzold
      · rw [hyx, hzx]
      · rw [hyx, hplace] at hyz
        exact absurd hyz.symm (hbelow z hzold)
    · rcases List.mem_cons.1 hz with hzx | hzold
      · rw [hzx, hplace] at hyz
        exact absurd hyz (hbelow y hyold)
      · obtain ⟨a, ha, _⟩ := h.exists_offset hyold
        obtain ⟨b, hb, _⟩ := h.exists_offset hzold
        rw [hextends.stackOffset?_eq ha, hextends.stackOffset?_eq hb] at hyz
        exact h.apart y hyold z hzold (by rw [ha, hb, hyz])

end Frame.Describes

/-! ## Parts of statements -/

/-- The code of an expression in scope mirrors its evaluation. -/
theorem Frame.Describes.mirrors {e : ExprTree} (h : f.Describes p l base scratch σ scope m)
    (hdiv : exe.runtime.Divides scratch) (hlabels : exe.code.labels.Nodup)
    (htyped : e.isScalarTyped p) (hscoped : e.isScoped scope)
    (hcode : (e.code p l).run f = .ok (code, f')) (hat : exe.HasAt i code) :
    ExprTree.Mirrors exe (.line i m) (i + code.length) m (e.room + scratch) (e.eval σ) :=
  ExprTree.mirrors_code hdiv hlabels htyped hcode hat h.nonneg h.sp
    (h.holds.mono (ExprTree.reads_subset hscoped))

/-- Code that drops bytes moves the stack pointer and nothing else. -/
theorem Executable.exists_runs_drop {bytes : Int} (hat : exe.HasAt i (dropCode span bytes)) :
    ∃ m', exe.Runs (.line i m) (.line (i + (dropCode span bytes).length) m') ∧
      m'.reg .sp = m.reg .sp + .ofInt bytes ∧ m'.mem = m.mem := by
  by_cases hbytes : bytes = 0
  · subst hbytes
    exact ⟨m, .refl, by simp, rfl⟩
  · refine ⟨m.set .sp (m.reg .sp + .ofInt bytes), Executable.runs_block hat ?_, by simp, rfl⟩
    rw [dropCode, if_neg hbytes, Code.insts_of]
    rfl

section Conditions

variable {cond : ExprTree}

/-- A condition goes to `$t0` and leaves the stack as it was. -/
theorem Frame.Describes.runs_condition {b : Bool} (h : f.Describes p l base scratch σ scope m)
    (hdiv : exe.runtime.Divides scratch) (hlabels : exe.code.labels.Nodup)
    (htyped : cond.isScalarTyped p) (hscoped : cond.isScoped scope)
    (hcode : (condition p l span cond).run f = .ok (code, f')) (hat : exe.HasAt i code)
    (heval : cond.eval σ = .ok (.bool b)) :
    ∃ m', exe.Runs (.line i m) (.line (i + code.length) m') ∧
      f.Describes p l base scratch σ scope m' ∧ m'.reg .t0 = .ofBool b := by
  obtain ⟨value, f₁, hvalue, rfl, rfl⟩ := condition_run hcode
  have hmirrors := h.mirrors hdiv hlabels htyped hscoped hvalue hat.left.left
  rw [heval] at hmirrors
  obtain ⟨m₁, hruns, hpushed⟩ := hmirrors
  have hdropped := hpushed.drop (Value.bool b).word
  have hload : execFrom exe.image (i + value.length) m₁ (Code.of span [.lw .t0 0 .sp]).insts =
      .next (m₁.set .t0 (Value.bool b).word) := by
    simp [execFrom, Inst.exec, hpushed.data]
  refine ⟨_, ?_, h.of_kept hdropped.sp (ExprTree.fits_of_code htyped hvalue) hdropped.kept, ?_⟩
  · rw [Executable.add_length_append, Executable.add_length_append]
    refine (hruns.trans (Executable.runs_block hat.left.right hload)).trans ?_
    have hdrop := hat.right
    rw [Executable.add_length_append] at hdrop
    exact Executable.runs_block hdrop execFrom_dropScalar
  · rw [Machine.reg_set_of_ne _ _ _ _ (by simp), Machine.reg_set_self _ _ _ (by simp)]
    rfl

theorem Frame.Describes.runs_condition_trapped (h : f.Describes p l base scratch σ scope m)
    (hdiv : exe.runtime.Divides scratch) (hlabels : exe.code.labels.Nodup)
    (htyped : cond.isScalarTyped p) (hscoped : cond.isScoped scope)
    (hcode : (condition p l span cond).run f = .ok (code, f')) (hat : exe.HasAt i code)
    (heval : cond.eval σ = .error .divisionByZero) : exe.Runs (.line i m) .trapped := by
  obtain ⟨value, f₁, hvalue, rfl, rfl⟩ := condition_run hcode
  have hmirrors := h.mirrors hdiv hlabels htyped hscoped hvalue hat.left.left
  rw [heval] at hmirrors
  exact hmirrors

end Conditions

/-! ## Where a run is when a task completes -/

/-- A run from `start` comes to where a task completes that began with frame `f` and scope `scope`:
normally to line `stop`, with frame `f'` and scope `scope'`.  Where the task breaks out of a loop
around it, that is the jump behind the loop, with the stack as high as at the loop's begin; the
variables have their values there too. -/
def Completes (exe : Executable) (p : Program) (l : Layout) (base : Word) (scratch : Nat)
    (start : Control) (f : Frame) (scope : List VarId) (stop : Nat) (f' : Frame)
    (scope' : List VarId) (σ' : Store) : Completion → Prop
  | .normal => ∃ m', exe.Runs start (.line stop m') ∧ f'.Describes p l base scratch σ' scope' m'
  | .broke loop => ∃ j m' exit, exe.Runs start (.line j m') ∧
      exe.code.insts[j]? = some (.j (.breakTarget loop)) ∧ f.loopExits.lookup loop = some exit ∧
      m'.reg .sp = base - .ofInt exit ∧ f.Holds p l base scratch σ' scope m'
  | .trapped => exe.Runs start .trapped

namespace Completes

variable {start' : Control} {stop' : Nat} {f₂ : Frame} {scope₁ : List VarId}

theorem of_runs (h : Completes exe p l base scratch start f scope stop f' scope' σ' c)
    (hruns : exe.Runs start' start) :
    Completes exe p l base scratch start' f scope stop f' scope' σ' c := by
  match c, h with
  | .normal, ⟨m', hruns', hd⟩ => exact ⟨m', hruns.trans hruns', hd⟩
  | .broke loop, ⟨j, m', exit, hruns', hrest⟩ =>
    exact ⟨j, m', exit, hruns.trans hruns', hrest⟩
  | .trapped, htrapped => exact hruns.trans htrapped

/-- Where a task would have completed normally makes no difference if it does not. -/
theorem of_abrupt (h : Completes exe p l base scratch start f scope stop f' scope' σ' c)
    (hc : c ≠ .normal) : Completes exe p l base scratch start f scope stop' f₂ scope₁ σ' c := by
  match c, h with
  | .normal, _ => exact absurd rfl hc
  | .broke loop, h => exact h
  | .trapped, h => exact h

/-- A task that is all of another one but for some code that control just runs through. -/
theorem continue_at (h : Completes exe p l base scratch start f scope stop f' scope' σ' c)
    (hruns : ∀ m, exe.Runs (.line stop m) (.line stop' m))
    (hframe : ∀ m, f'.Describes p l base scratch σ' scope' m →
      f₂.Describes p l base scratch σ' scope₁ m) :
    Completes exe p l base scratch start f scope stop' f₂ scope₁ σ' c := by
  match c, h with
  | .normal, ⟨m', hruns', hd⟩ => exact ⟨m', hruns'.trans (hruns m'), hframe m' hd⟩
  | .broke loop, h => exact h
  | .trapped, h => exact h

/-- A task that begins with another one.  What it breaks out of is around both. -/
theorem widen (hd : f.Describes p l base scratch σ scope m) (hextends : f.Extends f₁ declared nodes)
    (hsub : scope ⊆ scope₁)
    (hloops : ∀ loop, c = .broke loop → .stmt loop ∉ nodes)
    (h : Completes exe p l base scratch start f₁ scope₁ stop f' scope' σ' c) :
    Completes exe p l base scratch start f scope stop f' scope' σ' c := by
  match c, h with
  | .normal, h => exact h
  | .broke loop, ⟨j, m', exit, hruns, hj, hexit, hsp, hholds⟩ =>
    rw [hextends.exits (hloops loop rfl)] at hexit
    exact ⟨j, m', exit, hruns, hj, hexit, hsp, hd.holds_outer hextends hholds hsub⟩
  | .trapped, h => exact h

/-- Control that is behind a jump comes to the same place. -/
theorem of_jump {target : Label} {k : Nat}
    (h : Completes exe p l base scratch (.line i m) f scope stop f' scope' σ' c)
    (hinst : exe.code.insts[i]? = some (.j target)) (hline : exe.lineOf target = some k)
    (hstop : i ≠ stop) (htarget : ∀ loop, target ≠ .breakTarget loop) :
    Completes exe p l base scratch (.line k m) f scope stop f' scope' σ' c := by
  have hstep : exe.step (.line i m) = some (.line k m) := by
    simp only [Executable.step_line hinst (by simp), Inst.exec, Executable.resume, hline]
  cases c with
  | normal =>
    obtain ⟨m', hruns, hd⟩ := h
    exact ⟨m', hruns.of_step hstep (fun heq => hstop (Control.line.inj heq).1), hd⟩
  | broke loop =>
    obtain ⟨j, m', exit, hruns, hj, hrest⟩ := h
    refine ⟨j, m', exit, hruns.of_step hstep fun heq => htarget loop ?_, hj, hrest⟩
    obtain rfl := (Control.line.inj heq).1
    exact Inst.j.inj (Option.some.inj (hinst.symm.trans hj))
  | trapped => exact h.of_step hstep (by simp)

end Completes

/-! ## Tasks -/

namespace Task

/-- What is asked of a task: types, scopes, no node occurs twice in it, and none is a loop around
it. -/
structure WellFormed (p : Program) (loops : List StmtId) (scope : List VarId) (t : Task) :
    Prop where
  typed : t.isScalarTyped p
  scoping : t.isScoped loops scope
  nodup : t.nodes.Nodup
  around : ∀ loop ∈ loops, .stmt loop ∉ t.nodes

variable {t t' : Task}

theorem WellFormed.part (h : t.WellFormed p loops scope) (htyped : t'.isScalarTyped p)
    (hscoped : t'.isScoped loops scope') (hsub : t'.nodes.Sublist t.nodes) :
    t'.WellFormed p loops scope' :=
  ⟨htyped, hscoped, h.nodup.sublist hsub, fun loop hloop hmem =>
    h.around loop hloop (hsub.subset hmem)⟩

theorem subset_scopeAfter (t : Task) (scope : List VarId) : scope ⊆ t.scopeAfter scope := by
  have hone : ∀ (s : StmtTree) (scope : List VarId), scope ⊆ s.scopeAfter scope := by
    intro s scope
    cases s with
    | localVar info x init => exact List.subset_cons_self _ _
    | _ => exact List.Subset.refl _
  cases t with
  | one s => exact hone s scope
  | all ss =>
    induction ss generalizing scope with
    | nil => exact List.Subset.refl _
    | cons s ss ih => exact List.Subset.trans (hone _ _) (ih _)

/-- What the code of a task does to the frame. -/
theorem extends_of_code (h : t.WellFormed p loops scope)
    (hcode : (t.code p l).run f = .ok (code, f')) : f.Extends f' t.declares t.nodes := by
  cases t with
  | one s => exact (StmtTree.frame_of_code (StmtTree.isWordTyped_of_isScalarTyped h.typed) hcode).1
  | all ss =>
    refine (StmtTree.codeAll_frame hcode fun s hs _ _ _ => StmtTree.frame_of_code ?_).1
    exact StmtTree.isWordTyped_of_isScalarTyped (StmtTree.isScalarTypedAll_iff.1 h.typed s hs)

/-- The code of a task, wherever it stands, does what an execution of the task does. -/
def Simulated (exe : Executable) (p : Program) (l : Layout) (base : Word) (scratch : Nat)
    (σ : Store) (t : Task) (σ' : Store) (c : Completion) : Prop :=
  ∀ {loops scope f f' code i m}, t.WellFormed p loops scope →
    (t.code p l).run f = .ok (code, f') → exe.HasAt i code →
    f.Describes p l base scratch σ scope m →
    Completes exe p l base scratch (.line i m) f scope (i + code.length) f' (t.scopeAfter scope)
      σ' c

/-- A task in a scope of its own. -/
theorem Simulated.inScope (h : Simulated exe p l base scratch σ t σ' c)
    (hwf : t.WellFormed p loops scope)
    (hcode : (Gen.inScope span (t.code p l)).run f = .ok (code, f')) (hat : exe.HasAt i code)
    (hd : f.Describes p l base scratch σ scope m) :
    Completes exe p l base scratch (.line i m) f scope (i + code.length) f' scope σ' c := by
  obtain ⟨inner, f₁, hinner, rfl, rfl⟩ := inScope_run hcode
  have hextends := extends_of_code hwf hinner
  have hcompletes := h hwf hinner hat.left hd
  cases c with
  | normal =>
    obtain ⟨m₁, hruns, hd₁⟩ := hcompletes
    obtain ⟨m₂, hdrop, hsp, hmem⟩ := Executable.exists_runs_drop (m := m₁) hat.right
    refine ⟨m₂, ?_, ?_⟩
    · rw [Executable.add_length_append]
      exact hruns.trans hdrop
    · have hsp₂ : m₂.reg .sp = base - .ofInt f.height := by
        rw [hsp, hd₁.sp, Word.ofInt_sub]
        abel
      have hholds : f₁.Holds p l base scratch σ' (t.scopeAfter scope) m₂ := by
        intro x hx
        obtain ⟨offset, hoffset, hle, hlt, hty, hword⟩ := hd₁.holds x hx
        exact ⟨offset, hoffset, hle, hlt, hty, by rw [hmem, hword]⟩
      have houter := hd.leave hextends hholds (subset_scopeAfter t scope) hsp₂
      exact houter.of_extends hextends.with_height rfl
  | broke loop => exact hcompletes
  | trapped => exact hcompletes

theorem extends_inScope (h : t.WellFormed p loops scope)
    (hcode : (Gen.inScope span (t.code p l)).run f = .ok (code, f')) :
    f.Extends f' t.declares t.nodes ∧ f'.height = f.height :=
  StmtTree.scope_frame hcode (extends_of_code h)

end Task

end MipsBackend
