import MipsBackend.Proofs.Code.Frames

/-!
# Stores into what was pushed

The code of expressions has no jump but branches, so control may go through it in order.  On that
way `WritesPushed` counts the bytes that are on the stack and checks that each store into the stack
hits one of their words.  Whatever lay on the stack before is left alone.

Where all paths to a position move the stack pointer alike, going through the code in order tells
what is true on every path (`WritesPushed.storesBelow`).
-/

namespace MipsBackend

variable {p : Program} {callees callees' : List MethodId} {insts insts' : List Inst} {inst : Inst}
  {i : Nat} {bytes bytes' : Int}

namespace Program

/-- By how many bytes the instructions before a position move the stack pointer, if control goes
through all of them. -/
def movedBefore (p : Program) (callees : List MethodId) (insts : List Inst) (i : Nat) : Int :=
  ((p.displacements callees insts).take i).sum

@[simp] theorem movedBefore_zero (p : Program) (callees : List MethodId) (insts : List Inst) :
    p.movedBefore callees insts 0 = 0 :=
  rfl

theorem movedBefore_succ {d : Int}
    (h : p.displacements callees (inst :: insts) = d :: p.displacements callees' insts) (i : Nat) :
    p.movedBefore callees (inst :: insts) (i + 1) = d + p.movedBefore callees' insts i := by
  rw [movedBefore, h, List.take_succ_cons, List.sum_cons, movedBefore]

end Program

/-- Control may go through code in order. -/
theorem reaches_movedBefore (p : Program) (callees : List MethodId)
    (hfalls : ∀ inst ∈ insts, inst.fallsThrough) (hi : i ≤ insts.length) :
    Reaches p callees insts i (p.movedBefore callees insts i) := by
  induction i with
  | zero => exact .start
  | succ i ih =>
    have hdisp : i < (p.displacements callees insts).length := by
      rw [p.length_displacements]
      exact hi
    have hstep := Reaches.step (ih (Nat.le_of_lt hi)) (List.getElem?_eq_getElem hi)
      (List.getElem?_eq_getElem hdisp) (Or.inl ⟨hfalls _ (List.getElem_mem hi), rfl⟩)
    rw [Program.movedBefore, List.take_succ_eq_append_getElem hdisp, List.sum_append,
      List.sum_singleton]
    exact hstep

/-! ## Code that is gone through in order -/

/-- If the instruction is a store into the stack, it hits a word of so many bytes on top. -/
def Inst.writesTop (bytes : Int) : Inst → Bool
  | .sw _ offset .sp => 0 ≤ offset && offset + wordSize ≤ bytes
  | _ => true

/-- Control goes through the code in order, from some pushed bytes to others, and each store into
the stack hits a word of them.  The code calls the given methods. -/
inductive WritesPushed (p : Program) : List MethodId → List Inst → Int → Int → Prop where
  | nil {bytes : Int} : WritesPushed p [] [] bytes bytes
  | inst {callees : List MethodId} {inst : Inst} {insts : List Inst} {bytes bytes' : Int} :
      inst.isCall = false → inst.fallsThrough → inst.writesTop bytes →
      WritesPushed p callees insts (bytes - inst.displacement) bytes' →
      WritesPushed p callees (inst :: insts) bytes bytes'
  | call {callees : List MethodId} {callee : MethodId} {inst : Inst} {insts : List Inst}
      {bytes bytes' : Int} : inst.isCall →
      WritesPushed p callees insts (bytes - p.callDisplacement callee) bytes' →
      WritesPushed p (callee :: callees) (inst :: insts) bytes bytes'

theorem Inst.fallsThrough_of_isCall (h : inst.isCall) : inst.fallsThrough := by
  cases inst <;> first | rfl | cases h

theorem Inst.writesTop_of_isCall (h : inst.isCall) : inst.writesTop bytes := by
  cases inst <;> first | rfl | cases h

theorem Inst.writesTop_add {more : Int} (h : inst.writesTop bytes) (hmore : 0 ≤ more) :
    inst.writesTop (bytes + more) := by
  unfold writesTop at h ⊢
  split at h
  · simp only [Bool.and_eq_true, decide_eq_true_eq] at h ⊢
    omega
  · rfl

/-- What `WritesPushed` asks of code without calls. -/
def writesTopAll : Int → List Inst → Bool
  | _, [] => true
  | bytes, inst :: insts =>
    !inst.isCall && inst.fallsThrough && inst.writesTop bytes
      && writesTopAll (bytes - inst.displacement) insts

namespace WritesPushed

/-- Code without calls can be checked. -/
theorem of_all (h : writesTopAll bytes insts)
    (hsum : (insts.map Inst.displacement).sum = bytes - bytes') :
    WritesPushed p [] insts bytes bytes' := by
  induction insts generalizing bytes with
  | nil =>
    rw [List.map_nil, List.sum_nil] at hsum
    obtain rfl : bytes = bytes' := by omega
    exact .nil
  | cons inst insts ih =>
    simp only [writesTopAll, Bool.and_eq_true, Bool.not_eq_true'] at h
    rw [List.map_cons, List.sum_cons] at hsum
    exact .inst h.1.1.1 h.1.1.2 h.1.2 (ih h.2 (by omega))

theorem append {bytes₁ : Int} (h : WritesPushed p callees insts bytes bytes₁)
    (h' : WritesPushed p callees' insts' bytes₁ bytes') :
    WritesPushed p (callees ++ callees') (insts ++ insts') bytes bytes' := by
  induction h with
  | nil => exact h'
  | inst hcall hfalls hwrites _ ih => exact .inst hcall hfalls hwrites (ih h')
  | call hcall _ ih => exact .call hcall (ih h')

/-- Code without calls may follow. -/
theorem follow {bytes₁ : Int} (h : WritesPushed p callees insts bytes bytes₁)
    (h' : WritesPushed p [] insts' bytes₁ bytes') :
    WritesPushed p callees (insts ++ insts') bytes bytes' := by
  have hall := h.append h'
  rwa [List.append_nil] at hall

/-- Other bytes may have been pushed before. -/
theorem above {before : Int} (h : WritesPushed p callees insts bytes bytes')
    (hbefore : 0 ≤ before) :
    WritesPushed p callees insts (bytes + before) (bytes' + before) := by
  induction h with
  | nil => exact .nil
  | inst hcall hfalls hwrites _ ih =>
    refine .inst hcall hfalls (Inst.writesTop_add hwrites hbefore) ?_
    rwa [add_sub_right_comm]
  | call hcall _ ih =>
    refine .call hcall ?_
    rwa [add_sub_right_comm]

theorem displacements_append (h : WritesPushed p callees insts bytes bytes')
    (callees' : List MethodId) (insts' : List Inst) :
    p.displacements (callees ++ callees') (insts ++ insts') =
      p.displacements callees insts ++ p.displacements callees' insts' := by
  induction h with
  | nil => rfl
  | inst hcall _ _ _ ih =>
    rw [List.cons_append, Program.displacements_of_not_isCall hcall,
      Program.displacements_of_not_isCall hcall, ih, List.cons_append]
  | call hcall _ ih =>
    rw [List.cons_append, List.cons_append, Program.displacements_of_isCall hcall,
      Program.displacements_of_isCall hcall, ih, List.cons_append]

theorem sum_displacements (h : WritesPushed p callees insts bytes bytes') :
    (p.displacements callees insts).sum = bytes - bytes' := by
  induction h with
  | nil => exact (Int.sub_self _).symm
  | inst hcall _ _ _ ih =>
    rw [Program.displacements_of_not_isCall hcall, List.sum_cons, ih]
    omega
  | call hcall _ ih =>
    rw [Program.displacements_of_isCall hcall, List.sum_cons, ih]
    omega

theorem fallsThrough (h : WritesPushed p callees insts bytes bytes') :
    ∀ inst ∈ insts, inst.fallsThrough := by
  induction h with
  | nil => exact List.forall_mem_nil _
  | inst _ hfalls _ _ ih => exact List.forall_mem_cons.2 ⟨hfalls, ih⟩
  | call hcall _ ih => exact List.forall_mem_cons.2 ⟨Inst.fallsThrough_of_isCall hcall, ih⟩

/-- Each store hits a word of the bytes that are on the stack there. -/
theorem writesTop (h : WritesPushed p callees insts bytes bytes') (hi : insts[i]? = some inst) :
    inst.writesTop (bytes - p.movedBefore callees insts i) := by
  induction h generalizing i with
  | nil => cases hi
  | inst hcall _ hwrites _ ih =>
    cases i with
    | zero =>
      obtain rfl := Option.some.inj hi
      rw [Program.movedBefore_zero, Int.sub_zero]
      exact hwrites
    | succ i =>
      rw [Program.movedBefore_succ (Program.displacements_of_not_isCall hcall _ _), ← Int.sub_sub]
      exact ih hi
  | call hcall _ ih =>
    cases i with
    | zero =>
      obtain rfl := Option.some.inj hi
      exact Inst.writesTop_of_isCall hcall
    | succ i =>
      rw [Program.movedBefore_succ (Program.displacements_of_isCall hcall _ _ _), ← Int.sub_sub]
      exact ih hi

/-- What is moved before a position in the code, if other code follows. -/
theorem movedBefore_left (h : WritesPushed p callees insts bytes bytes') (insts' : List Inst)
    (hi : i ≤ insts.length) :
    p.movedBefore callees (insts ++ insts') i = p.movedBefore callees insts i := by
  have hsplit := h.displacements_append [] insts'
  rw [List.append_nil] at hsplit
  rw [Program.movedBefore, hsplit, List.take_append_of_le_length, Program.movedBefore]
  rwa [p.length_displacements]

/-- What is moved before a position behind the code. -/
theorem movedBefore_right (h : WritesPushed p callees insts bytes bytes') (insts' : List Inst)
    (i : Nat) : p.movedBefore callees (insts ++ insts') (insts.length + i) =
      bytes - bytes' + p.movedBefore [] insts' i := by
  have hsplit := h.displacements_append [] insts'
  rw [List.append_nil] at hsplit
  rw [Program.movedBefore, hsplit, ← p.length_displacements callees insts,
    List.take_length_add_append, List.sum_append, h.sum_displacements, Program.movedBefore]

/-- What has been pushed may be dropped. -/
theorem drop (p : Program) (span : Span) (bytes dropped : Int) :
    WritesPushed p [] (Gen.dropCode span dropped).insts bytes (bytes - dropped) := by
  rw [Gen.dropCode]
  split
  · rename_i hzero
    rw [hzero, Int.sub_zero]
    exact .nil
  · refine .of_all rfl ?_
    show dropped + 0 = bytes - (bytes - dropped)
    omega

end WritesPushed

/-! ## Stores on all paths -/

/-- A path leads to a store into the stack.  Its place is counted from where the stack pointer was
before the code. -/
def StoresAt (p : Program) (callees : List MethodId) (insts : List Inst) (i : Nat)
    (offset place : Int) : Prop :=
  ∃ rt d, insts[i]? = some (.sw rt offset .sp) ∧ Reaches p callees insts i d ∧ place = d + offset

/-- The store is not below the stack pointer, and the word that it hits is below where the stack
pointer was before the code. -/
def IsBelow (offset place : Int) : Prop :=
  0 ≤ offset ∧ place + wordSize ≤ 0

/-- All stores into the stack hit what the code has pushed itself. -/
def StoresBelow (p : Program) (callees : List MethodId) (insts : List Inst) : Prop :=
  ∀ i offset place, StoresAt p callees insts i offset place → IsBelow offset place

/-- All stores into the stack hit what the code has pushed itself, but for one that hits the word at
a place, if there is a place. -/
def StoresBelowBut (place? : Option Int) (p : Program) (callees : List MethodId)
    (insts : List Inst) : Prop :=
  match place? with
  | none => StoresBelow p callees insts
  | some place => ∃ k, (∃ offset, StoresAt p callees insts k offset place) ∧
    ∀ i offset place', StoresAt p callees insts i offset place' →
      i = k ∧ place' = place ∨ IsBelow offset place'

/-- All paths to a position move the stack pointer alike. -/
def PathsAgree (p : Program) (callees : List MethodId) (insts : List Inst) : Prop :=
  ∀ i d d', Reaches p callees insts i d → Reaches p callees insts i d' → d = d'

theorem Inst.isBelow_of_writesTop {rt : Reg} {offset d : Int}
    (h : (Inst.sw rt offset .sp).writesTop (0 - d)) : IsBelow offset (d + offset) := by
  simp only [writesTop, Bool.and_eq_true, decide_eq_true_eq] at h
  exact ⟨h.1, by omega⟩

namespace WritesPushed

/-- The stores of code that other code without calls follows. -/
theorem isBelow (h : WritesPushed p callees insts 0 bytes')
    (hfalls : ∀ inst ∈ insts', inst.fallsThrough) (hpaths : PathsAgree p callees (insts ++ insts'))
    {offset place : Int} (hi : i < insts.length)
    (hstores : StoresAt p callees (insts ++ insts') i offset place) : IsBelow offset place := by
  obtain ⟨rt, d, hinst, hreaches, rfl⟩ := hstores
  have hlength : i ≤ (insts ++ insts').length := by
    rw [List.length_append]
    omega
  have hmoved := reaches_movedBefore p callees
    (List.forall_mem_append.2 ⟨h.fallsThrough, hfalls⟩) hlength
  rw [h.movedBefore_left insts' hi.le] at hmoved
  obtain rfl := hpaths _ _ _ hreaches hmoved
  rw [List.getElem?_append_left hi] at hinst
  exact Inst.isBelow_of_writesTop (h.writesTop hinst)

theorem storesBelow (h : WritesPushed p callees insts 0 bytes')
    (hpaths : PathsAgree p callees insts) : StoresBelow p callees insts := by
  intro i offset place hstores
  obtain ⟨rt, d, hinst, _⟩ := id hstores
  have hi := (List.getElem?_eq_some_iff.1 hinst).1
  rw [← List.append_nil insts] at hpaths hstores
  exact h.isBelow (List.forall_mem_nil _) hpaths hi hstores

/-- Behind the code, the topmost word may be stored anywhere, and no other instruction stores. -/
theorem storesBelowBut {rest : List Inst} {rt : Reg} {offset : Int}
    (h : WritesPushed p callees insts 0 bytes') (hfalls : ∀ inst ∈ rest, inst.fallsThrough)
    (hrest : ∀ rt offset, .sw rt offset .sp ∉ rest)
    (hpaths : PathsAgree p callees (insts ++ ([.lw rt 0 .sp, .sw rt offset .sp] ++ rest))) :
    StoresBelowBut (some (offset - bytes')) p callees
      (insts ++ ([.lw rt 0 .sp, .sw rt offset .sp] ++ rest)) := by
  have hfallsAll : ∀ inst ∈ [.lw rt 0 .sp, .sw rt offset .sp] ++ rest, inst.fallsThrough :=
    List.forall_mem_append.2 ⟨by simp [Inst.fallsThrough], hfalls⟩
  have hinst : (insts ++ ([.lw rt 0 .sp, .sw rt offset .sp] ++ rest))[insts.length + 1]? =
      some (.sw rt offset .sp) := by
    rw [List.getElem?_append_right (Nat.le_add_right _ _), Nat.add_sub_cancel_left]
    rfl
  have hreaches := reaches_movedBefore p callees
    (List.forall_mem_append.2 ⟨h.fallsThrough, hfallsAll⟩)
    (List.getElem?_eq_some_iff.1 hinst).1.le
  rw [h.movedBefore_right] at hreaches
  have hplace : offset - bytes' =
      0 - bytes' + p.movedBefore [] ([.lw rt 0 .sp, .sw rt offset .sp] ++ rest) 1 + offset := by
    show _ = 0 - bytes' + (0 + 0) + offset
    omega
  refine ⟨_, ⟨offset, rt, _, hinst, hreaches, hplace⟩, fun i offset' place hstores => ?_⟩
  -- A store is one of the code before, or this one: nothing behind it stores into the stack.
  by_cases hi : i < insts.length
  · exact Or.inr (h.isBelow hfallsAll hpaths hi hstores)
  · obtain ⟨j, rfl⟩ := Nat.exists_eq_add_of_le (Nat.le_of_not_lt hi)
    obtain ⟨rt', d, hinst', hreaches', rfl⟩ := hstores
    rw [List.getElem?_append_right (Nat.le_add_right _ _), Nat.add_sub_cancel_left] at hinst'
    match j with
    | 0 => cases hinst'
    | 1 =>
      obtain ⟨rfl, rfl⟩ : rt = rt' ∧ offset = offset' := by simpa using hinst'
      rw [hpaths _ _ _ hreaches' hreaches, hplace]
      exact Or.inl ⟨rfl, rfl⟩
    | j + 2 =>
      have hmem : rest[j]? = some (.sw rt' offset' .sp) := hinst'
      exact absurd (List.mem_of_getElem? hmem) (hrest rt' offset')

end WritesPushed

end MipsBackend
