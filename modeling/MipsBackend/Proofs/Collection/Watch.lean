import MipsBackend.Proofs.Assembly.Operands
import MipsBackend.Proofs.Collection.CallPoints
import MipsBackend.Proofs.Collection.Contracts

/-!
# Runs that are watched

A run of the code of an expression goes on behind the calls of methods, if they return, and it may
branch: what a method does is a relation.  `Executable.Advances` is one step of such a run.  A
`Watch` says what is to hold wherever control gets, and a place is *safe* if it does hold there and
at all places that control may get to from it.

Safety is shown backwards.  A part of the code *carries* one stack to another if its start is safe
with the one as soon as its end is safe with the other (`Watch.Carries`).  Parts that stand one
behind the other carry on from each other (`Watch.Carries.append`), and the other lemmas are about
single instructions, one for each way to change the stack.
-/

namespace MipsBackend

open Gen

/-- The instruction enters a method. -/
def Inst.entersMethod : Inst → Bool
  | .jal (.runtime _) => false
  | .jal _ | .jalr _ => true
  | _ => false

theorem Inst.leaves_of_entersMethod {inst : Inst} (h : inst.entersMethod) : inst.leaves := by
  cases inst <;> first | rfl | cases h

/-- An instruction, the call of a routine, or the whole call of a method that returns.  A method
that is called at a line may lead from the first machine to the second. -/
inductive Executable.Advances (exe : Executable) (methods : Nat → Machine → Machine → Prop) :
    Control → Control → Prop where
  | step {c c' : Control} : exe.step c = some c' → Advances exe methods c c'
  | method {i : Nat} {inst : Inst} {m m' : Machine} : exe.code.insts[i]? = some inst →
    inst.entersMethod → methods i (m.set .ra (exe.image.line (i + 1))) m' →
    Advances exe methods (.line i m) (.line (i + 1) m')

/-- Control may get from one place to the other. -/
def Executable.Reaches (exe : Executable) (methods : Nat → Machine → Machine → Prop) :
    Control → Control → Prop :=
  Relation.ReflTransGen (exe.Advances methods)

/-- A run and what is to hold in it.  Values are pushed below `base` with `marker` as the tag word;
the stack ends at `top`. -/
structure Watch where
  exe : Executable
  methods : Nat → Machine → Machine → Prop
  /-- What is to hold of the machine at a line. -/
  good : Nat → Machine → Prop
  base : Word
  marker : Word
  top : Nat

namespace Watch

variable {w : Watch} {i : Nat} {m : Machine} {inst : Inst} {insts : List Inst} {code code' : Code}
  {span : Span} {slots before middle after : List Slot}

/-- All is good wherever control may get to. -/
def Safe (w : Watch) (c : Control) : Prop :=
  ∀ j m, w.exe.Reaches w.methods c (.line j m) → w.good j m

/-- What the lemmas about code need to know of the whole: labels of nodes are defined once and no
other labels are, all is good at the lines that do not leave, and the library keeps to its
contract. -/
structure Sound (w : Watch) : Prop where
  nodup : w.exe.code.labels.Nodup
  outside {l : Label} : l.node? = none → w.exe.lineOf l = none
  plain {i : Nat} {inst : Inst} {m : Machine} : w.exe.code.insts[i]? = some inst →
    inst.leaves = false → m.reg .s5 = w.marker → w.good i m
  base_le : w.base.toNat ≤ w.top
  runtime : w.exe.runtime.LeavesValues w.top

/-! ## Safe places -/

theorem safe_of_advances (hgood : w.good i m)
    (hnext : ∀ c, w.exe.Advances w.methods (.line i m) c → w.Safe c) : w.Safe (.line i m) := by
  intro j m' hreaches
  rcases hreaches.cases_head with heq | ⟨c, hadvances, hrest⟩
  · obtain ⟨rfl, rfl⟩ := Control.line.inj heq
    exact hgood
  · exact hnext c hadvances j m' hrest

/-- Control that has left for good does not come back. -/
theorem safe_of_stuck {c : Control} (hline : ∀ j m, c ≠ .line j m)
    (hstep : w.exe.step c = none) : w.Safe c := by
  intro j m hreaches
  rcases hreaches.cases_head with heq | ⟨c', hadvances, _⟩
  · exact absurd heq (hline j m)
  · cases hadvances with
    | step hsome =>
      rw [hstep] at hsome
      cases hsome
    | method => exact absurd rfl (hline _ _)

theorem safe_outside {o : Outcome} : w.Safe (.outside o) :=
  safe_of_stuck nofun rfl

theorem safe_trapped : w.Safe .trapped :=
  safe_of_stuck nofun rfl

/-- An instruction that does not leave is safe if all is good and it leads to a safe place. -/
theorem safe_of_step {c : Control} (hinst : w.exe.code.insts[i]? = some inst)
    (hplain : inst.leaves = false) (hgood : w.good i m)
    (hstep : w.exe.resume i (inst.exec w.exe.image (w.exe.image.line (i + 1)) m) = c)
    (hsafe : w.Safe c) : w.Safe (.line i m) := by
  refine safe_of_advances hgood fun c' hadvances => ?_
  cases hadvances with
  | step hsome =>
    rw [Executable.step_line hinst (by rintro r rfl; cases hplain), hstep] at hsome
    obtain rfl := Option.some.inj hsome
    exact hsafe
  | method hinst' henters =>
    obtain rfl := Option.some.inj (hinst.symm.trans hinst')
    rw [Inst.leaves_of_entersMethod henters] at hplain
    cases hplain

/-! ## Parts of the code -/

/-- If control is safe behind the code with the stack `after`, it is safe at the start of the code
with the stack `before`. -/
def Carries (w : Watch) (i : Nat) (code : Code) (before after : List Slot) : Prop :=
  w.exe.HasAt i code →
    (∀ m, m.HasSlots w.base w.marker after → w.Safe (.line (i + code.length) m)) →
    ∀ m, m.HasSlots w.base w.marker before → w.Safe (.line i m)

theorem Carries.nil : w.Carries i [] slots slots :=
  fun _ hend => hend

/-- There is room for what is on the stack at the start. -/
theorem Carries.of_room
    (h : before.length * wordSize ≤ w.base.toNat → w.Carries i code before after) :
    w.Carries i code before after :=
  fun hat hend m hm => h hm.room hat hend m hm

theorem Carries.append (h : w.Carries i code before middle)
    (h' : w.Carries (i + code.length) code' middle after) :
    w.Carries i (code ++ code') before after := by
  intro hat hend
  refine h hat.left (h' hat.right fun m hm => ?_)
  rw [← Executable.add_length_append]
  exact hend m hm

theorem Carries.cons (h : w.Carries i (.of span [inst]) before middle)
    (h' : w.Carries (i + 1) (.of span insts) middle after) :
    w.Carries i (.of span (inst :: insts)) before after :=
  h.append h'

/-- A line that does not leave does to the stack what the instruction does to the machine. -/
theorem carries_of_exec (hw : w.Sound) (hplain : inst.leaves = false)
    (hexec : ∀ back m, m.HasSlots w.base w.marker before →
      ∃ m', inst.exec w.exe.image back m = .next m' ∧ m'.HasSlots w.base w.marker after) :
    w.Carries i (.of span [inst]) before after := by
  intro hat hend m hm
  obtain ⟨m', hnext, hm'⟩ := hexec (w.exe.image.line (i + 1)) m hm
  refine safe_of_step hat.head hplain (hw.plain hat.head hplain hm.s5) ?_ (hend m' hm')
  rw [hnext]
  rfl

end Watch

/-! ## Instructions that leave the stack alone -/

/-- The instruction changes neither the stack nor `$s5`, and leads to the next line. -/
def Inst.isQuiet : Inst → Bool
  | .sw _ _ _ | .branch _ _ _ _ | .j _ | .jal _ | .jalr _ | .jr _ | .syscall => false
  | inst => inst.written? != some .sp && inst.written? != some .s5

theorem Machine.HasSlots.exec_of_isQuiet {m : Machine} {base marker : Word} {slots : List Slot}
    {inst : Inst} (h : m.HasSlots base marker slots) (hquiet : inst.isQuiet) (image : Image)
    (back : Word) :
    ∃ m', inst.exec image back m = .next m' ∧ m'.HasSlots base marker slots := by
  have hset : ∀ {r : Reg} {x : Word}, (some r != some .sp && some r != some Reg.s5) = true →
      (m.set r x).HasSlots base marker slots := by
    intro r x hr
    simp only [Bool.and_eq_true, bne_iff_ne, ne_eq, Option.some.injEq] at hr
    exact h.set (Ne.symm hr.1) (Ne.symm hr.2)
  cases inst
  case sw | branch | j | jal | jalr | jr | syscall => cases hquiet
  case label | segment | globl | word | ascii | align => exact ⟨m, rfl, h⟩
  case mult => exact ⟨_, rfl, ⟨h.room, h.sp, h.s5, h.tag⟩⟩
  all_goals exact ⟨_, rfl, hset hquiet⟩

namespace Watch

variable {w : Watch} {i : Nat} {m : Machine} {inst : Inst} {insts : List Inst} {code : Code}
  {span : Span} {slots popped : List Slot} {f f' : Frame}

theorem carries_quiet (hw : w.Sound) (hquiet : insts.all Inst.isQuiet) :
    w.Carries i (.of span insts) slots slots := by
  induction insts generalizing i with
  | nil => exact .nil
  | cons inst insts ih =>
    rw [List.all_cons, Bool.and_eq_true] at hquiet
    have hplain : inst.leaves = false := by
      cases inst <;> first | rfl | cases hquiet.1
    exact .cons (carries_of_exec hw hplain fun back m hm =>
      hm.exec_of_isQuiet hquiet.1 _ back) (ih hquiet.2)

/-! ## Instructions that change the stack -/

theorem carries_push (hw : w.Sound) {bytes : Int} {n : Nat} (hbytes : bytes = n * wordSize)
    (hroom : (n + slots.length) * wordSize ≤ w.base.toNat) :
    w.Carries i (.of span [.subuImm .sp .sp bytes]) slots
      (List.replicate n .word ++ slots) := by
  refine carries_of_exec hw rfl fun back m hm => ⟨_, rfl, ?_⟩
  rw [hbytes]
  exact hm.push hroom

theorem carries_drop (hw : w.Sound) (popped : List Slot) {bytes : Int}
    (hbytes : bytes = popped.length * wordSize) :
    w.Carries i (dropCode span bytes) (popped ++ slots) slots := by
  have hdrop : w.Carries i (.of span [.adduImm .sp .sp bytes]) (popped ++ slots) slots := by
    refine carries_of_exec hw rfl fun back m hm => ⟨_, rfl, ?_⟩
    rw [hbytes]
    exact hm.drop
  rw [dropCode]
  split
  · rename_i hzero
    have hnone : popped = [] := by
      rw [hbytes, wordSize] at hzero
      exact List.eq_nil_of_length_eq_zero (by omega)
    rw [hnone]
    exact .nil
  · exact hdrop

/-- A tag word is written above the top of the stack. -/
theorem carries_tag (hw : w.Sound) {top second : Slot} :
    w.Carries i (.of span [.sw .s5 wordSize .sp]) (top :: second :: slots)
      (top :: .tag :: slots) := by
  refine carries_of_exec hw rfl fun back m hm => ⟨_, rfl, ?_⟩
  exact hm.store (k := 1) (by simp) fun _ => hm.s5

/-- The top of the stack is written. -/
theorem carries_word (hw : w.Sound) {top : Slot} {r : Reg} :
    w.Carries i (.of span [.sw r 0 .sp]) (top :: slots) (.word :: slots) := by
  refine carries_of_exec hw rfl fun back m hm => ⟨_, rfl, ?_⟩
  exact hm.store (k := 0) (by simp) nofun

/-- A scalar is pushed from a register. -/
theorem carries_pushScalar (hw : w.Sound) {ty : Ty} {r : Reg} (hscalar : ty.isScalar)
    (h : (pushScalar span r).run f = .ok (code, f'))
    (hroom : ty.stackBytes + slots.length * wordSize ≤ w.base.toNat) :
    w.Carries i code slots (ty.slots ++ slots) := by
  obtain ⟨rfl, _⟩ := pushScalar_run h
  rw [Ty.slots_of_isScalar hscalar]
  refine .cons (carries_push (n := 2) hw rfl ?_) (.cons (carries_tag hw) (carries_word hw))
  rw [Ty.stackBytes_of_isScalar hscalar] at hroom
  push_cast
  rw [Int.add_mul]
  exact hroom

/-- A reference is pushed from a register. -/
theorem carries_pushReference (hw : w.Sound) {ty : Ty} {r : Reg} (hreference : ty.isReference)
    (h : (pushReference span r).run f = .ok (code, f'))
    (hroom : ty.stackBytes + slots.length * wordSize ≤ w.base.toNat) :
    w.Carries i code slots (ty.slots ++ slots) := by
  obtain ⟨rfl, _⟩ := pushReference_run h
  rw [Ty.slots_of_isReference hreference]
  refine .cons (carries_push (n := 1) hw rfl ?_) (carries_word hw)
  rw [Ty.stackBytes_of_isReference hreference] at hroom
  push_cast
  rw [Int.add_mul, Int.one_mul]
  exact hroom

/-- A word on top of the stack becomes a scalar. -/
theorem carries_tagTop (hw : w.Sound) {ty : Ty} (hscalar : ty.isScalar)
    (h : (tagTop span).run f = .ok (code, f'))
    (hroom : ty.stackBytes + slots.length * wordSize ≤ w.base.toNat) :
    w.Carries i code (.word :: slots) (ty.slots ++ slots) := by
  obtain ⟨rfl, _⟩ := tagTop_run h
  rw [Ty.slots_of_isScalar hscalar]
  refine .cons (carries_push (n := 1) hw rfl ?_) (.cons (carries_tag hw) (carries_word hw))
  rw [Ty.stackBytes_of_isScalar hscalar] at hroom
  rw [List.length_cons]
  rw [wordSize] at hroom ⊢
  omega

/-! ## Calls -/

/-- A routine is called.  If it does not return, nothing more happens. -/
theorem safe_of_callRoutine {r : Routine}
    (hinst : w.exe.code.insts[i]? = some (.jal (.runtime r))) (hgood : w.good i m)
    (hreturns : ∀ m', w.exe.runtime r (m.set .ra (w.exe.image.line (i + 1))) = some m' →
      w.Safe (.line (i + 1) m')) : w.Safe (.line i m) := by
  refine safe_of_advances hgood fun c hadvances => ?_
  cases hadvances with
  | step hsome =>
    simp only [Executable.step, hinst] at hsome
    split at hsome
    · rename_i m' hruns
      obtain rfl := Option.some.inj hsome
      exact hreturns m' hruns
    · obtain rfl := Option.some.inj hsome
      exact safe_trapped
  | method hinst' henters =>
    obtain rfl := Option.some.inj (hinst.symm.trans hinst')
    cases henters

/-- A routine replaces the top of the stack by a value. -/
theorem carries_callRoutine (hw : w.Sound) (popped : List Slot) (ty : Ty) {r : Routine}
    (hgood : ∀ m, m.HasSlots w.base w.marker (popped ++ slots) → w.good i m)
    (hreplaces : ∀ m m', m.HasSlots w.base w.marker (popped ++ slots) →
      w.exe.runtime r m = some m' → m.Replaces m' w.top (popped.length * wordSize) ty)
    (hroom : ty.stackBytes + slots.length * wordSize ≤ w.base.toNat) :
    w.Carries i (.of span [.callRoutine r]) (popped ++ slots) (ty.slots ++ slots) := by
  intro hat hend m hm
  refine safe_of_callRoutine hat.head (hgood m hm) fun m' hruns => hend m' ?_
  have hcalled := hm.set (r := .ra) (x := w.exe.image.line (i + 1)) (by decide) (by decide)
  exact hcalled.replace (hreplaces _ m' hcalled hruns) hw.base_le hroom

/-- A branch to a routine that does not return. -/
theorem carries_trap (hw : w.Sound) {op : BranchOp} {rs rt : Reg} {r : Routine}
    (hgood : ∀ m, m.HasSlots w.base w.marker slots → w.good i m) :
    w.Carries i (.of span [.branch op rs rt (.runtime r)]) slots slots := by
  intro hat hend m hm
  have hinst : w.exe.code.insts[i]? = some (.branch op rs rt (.runtime r)) := hat.head
  have houtside : w.exe.lineOf (.runtime r) = none := hw.outside rfl
  refine safe_of_advances (hgood m hm) fun c hadvances => ?_
  cases hadvances with
  | step hsome =>
    rw [Executable.step_line hinst nofun, Inst.exec] at hsome
    obtain rfl := Option.some.inj hsome
    split
    · simp only [Executable.resume, houtside]
      exact safe_outside
    · exact hend m hm
  | method hinst' henters =>
    obtain rfl := Option.some.inj (hinst.symm.trans hinst')
    cases henters

/-- A method is entered.  Control goes out of the code, or on behind the call if the method returns
and has replaced the top of the stack by its result. -/
theorem carries_method (hw : w.Sound) {ty : Ty} (henters : inst.entersMethod)
    (houtside : ∀ back m, ∃ o, w.exe.resume i (inst.exec w.exe.image back m) = .outside o)
    (hgood : ∀ m, m.HasSlots w.base w.marker (popped ++ slots) → w.good i m)
    (hreplaces : ∀ m m', m.HasSlots w.base w.marker (popped ++ slots) →
      w.methods i m m' → m.Replaces m' w.top (popped.length * wordSize) ty)
    (hroom : ty.stackBytes + slots.length * wordSize ≤ w.base.toNat) :
    w.Carries i (.of span [inst]) (popped ++ slots) (ty.slots ++ slots) := by
  intro hat hend m hm
  have hinst : w.exe.code.insts[i]? = some inst := hat.head
  refine safe_of_advances (hgood m hm) fun c hadvances => ?_
  cases hadvances with
  | step hsome =>
    rw [Executable.step_line hinst (by rintro r rfl; cases henters)] at hsome
    obtain rfl := Option.some.inj hsome
    obtain ⟨o, ho⟩ := houtside (w.exe.image.line (i + 1)) m
    rw [ho]
    exact safe_outside
  | method _ _ hmethod =>
    have hcalled := hm.set (r := .ra) (x := w.exe.image.line (i + 1)) (by decide) (by decide)
    exact hend _ (hcalled.replace (hreplaces _ _ hcalled hmethod) hw.base_le hroom)

end Watch

end MipsBackend
