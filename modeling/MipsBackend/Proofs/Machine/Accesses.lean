import MipsBackend.Proofs.Code.Typing
import MipsBackend.Proofs.Machine.Sequences
import MipsBackend.Proofs.Machine.Stack

/-!
# Checked accesses to the heap

Code that uses an object finds it on the operand stack and checks that it is not null, and where it
uses an element that the index is in range, before it goes to the object's memory.  Here each of
the sequences that do so is run from any state that has the operands on the stack.

* `heapEvents` lists what a run does on the heap, in order: accesses through other registers than
  the stack pointer, and in between the checks that were passed.
* `HeapAccess` is an access that is to be made, and `HeapAccess.Guarded` says of a sequence that it
  makes that access and no other, behind all checks, and that it traps exactly where a check is to
  fail.
* Checks and what comes behind them are run apart: `Passes` and `Traps` say how a run ends and what
  it has done, and both can be put together along the list.
-/

namespace MipsBackend

/-! ## What is done on the heap -/

/-- Something that a run does on the heap. -/
inductive HeapEvent where
  /-- A check did not trap. -/
  | passed (trap : Routine)
  | load (address : Word)
  | store (address word : Word)
deriving DecidableEq

/-- What a line does on the heap.  Addresses on the operand stack count from the stack pointer, all
others from another register. -/
def Inst.heapEvents (m : Machine) : Inst → List HeapEvent
  | .lw _ offset base => if base = .sp then [] else [.load (m.reg base + .ofInt offset)]
  | .sw rt offset base =>
    if base = .sp then [] else [.store (m.reg base + .ofInt offset) (m.reg rt)]
  | .branch op rs rt (.runtime trap) =>
    if op.taken (m.reg rs) (m.reg rt) then [] else [.passed trap]
  | _ => []

/-- What lines do on the heap that are executed as `execFrom` executes them. -/
def heapEvents (image : Image) (i : Nat) (m : Machine) : List Inst → List HeapEvent
  | [] => []
  | inst :: rest =>
    inst.heapEvents m ++
      match inst.exec image (image.line (i + 1)) m with
      | .next m => heapEvents image (i + 1) m rest
      | _ => []

/-- Control goes to a routine of the runtime library that traps. -/
def Outcome.TrapsAt (o : Outcome) (trap : Routine) : Prop :=
  ∃ m, o = .jump (.runtime trap) m

/-! ## Accesses -/

/-- What is done with an object. -/
inductive HeapAction where
  /-- The word at an offset is pushed as a value of a type. -/
  | load (offset : Int) (ty : Ty)
  /-- A word is written at an offset. -/
  | store (offset : Int) (word : Word)
  /-- A method is entered, whose address is an entry of the object's class record. -/
  | enter (entryOffset : Int)

/-- A use of an object. -/
structure HeapAccess where
  object : Word
  /-- The index, if an element of an array is used. -/
  index? : Option Word
  action : HeapAction

/-- What an action does on the heap. -/
def HeapAction.events (m : Machine) (object : Word) : HeapAction → List HeapEvent
  | load offset _ => [.load (object + .ofInt offset)]
  | store offset word => [.store (object + .ofInt offset) word]
  | enter entryOffset => [
    .load (object + .ofInt classRecordOffset),
    .load (m.mem (object + .ofInt classRecordOffset) + .ofInt entryOffset)]

/-- How code ends that has done what it was to do, with the operands above `base`.  They are gone,
unless they are the arguments of a method. -/
def HeapAction.Completes (m : Machine) (base object : Word) : HeapAction → Outcome → Prop
  | load offset ty, o => ∃ m', o = .next m' ∧
    m'.Pushed base (valueWords (m.reg .s5) ty (m.mem (object + .ofInt offset)))
  | store offset word, o => ∃ m', o = .next m' ∧ m'.reg .sp = base ∧
    m'.mem = Function.update m.mem (object + .ofInt offset) word
  | enter entryOffset, o => ∃ m',
    o = .goto (m.mem (m.mem (object + .ofInt classRecordOffset) + .ofInt entryOffset)) m' ∧
    m'.reg .sp = m.reg .sp ∧ m'.mem = m.mem

namespace HeapAccess

/-- The length of the array, as a signed number. -/
def length (a : HeapAccess) (m : Machine) : Int :=
  (m.mem (a.object + .ofInt arrayLengthOffset)).toInt

/-- The index, if there is one, is that of an element. -/
def InRange (a : HeapAccess) (m : Machine) : Prop :=
  ∀ index ∈ a.index?, 0 ≤ index.toInt ∧ index.toInt < a.length m

/-- What is done on the heap before the index is checked, if there is one. -/
def beforeBounds (a : HeapAccess) : List HeapEvent :=
  match a.index? with
  | some _ => [.passed .nullPtrException, .load (a.object + .ofInt arrayLengthOffset)]
  | none => [.passed .nullPtrException]

/-- All checks, with the load of the length that one of them takes. -/
def checks (a : HeapAccess) : List HeapEvent :=
  match a.index? with
  | some _ => a.beforeBounds ++ [.passed .arrayIndexOutOfBounds]
  | none => a.beforeBounds

/-- Lines make an access, checked: they trap exactly if the object is null or the index is out of
range, and what they do on the heap is the access, behind the checks. -/
structure Guarded (a : HeapAccess) (image : Image) (i : Nat) (m : Machine) (base : Word)
    (insts : List Inst) : Prop where
  traps_null : (execFrom image i m insts).TrapsAt .nullPtrException ↔ a.object = 0
  traps_bounds : (execFrom image i m insts).TrapsAt .arrayIndexOutOfBounds ↔
    a.object ≠ 0 ∧ ¬ a.InRange m
  completes : a.object ≠ 0 → a.InRange m →
    a.action.Completes m base a.object (execFrom image i m insts)
  events_null : a.object = 0 → heapEvents image i m insts = []
  events_bounds : a.object ≠ 0 → ¬ a.InRange m → heapEvents image i m insts = a.beforeBounds
  events : a.object ≠ 0 → a.InRange m →
    heapEvents image i m insts = a.checks ++ a.action.events m a.object

end HeapAccess

/-! ## Words -/

namespace Word

/-- Compared without signs, an index is at least a length exactly if it is out of range. -/
theorem ule_iff {index length : Word} (hlength : 0 ≤ length.toInt) :
    length.ule index ↔ ¬ (0 ≤ index.toInt ∧ index.toInt < length.toInt) := by
  have hindex := index.isLt
  have hlt := length.isLt
  rw [BitVec.ule_eq_decide, decide_eq_true_eq]
  rw [BitVec.toInt_eq_toNat_cond] at hlength ⊢
  rw [BitVec.toInt_eq_toNat_cond]
  split at hlength <;> split <;> omega

/-- Two bits to the left are four times as much. -/
theorem shiftLeft_add (index base : Word) :
    index <<< 2 + base = base + Word.ofInt (index.toInt * wordSize) := by
  have hshift : index <<< 2 = Word.ofInt (index.toInt * wordSize) := by
    rw [wordSize, BitVec.shiftLeft_eq_mul_twoPow, Word.ofInt, BitVec.ofInt_mul,
      BitVec.ofInt_toInt]
    rfl
  rw [hshift, BitVec.add_comm]

end Word

/-! ## Parts of a run -/

/-- Lines run through, and this is what they do on the heap. -/
def Passes (image : Image) (i : Nat) (m : Machine) (insts : List Inst) (m' : Machine)
    (events : List HeapEvent) : Prop :=
  execFrom image i m insts = .next m' ∧ heapEvents image i m insts = events

/-- Lines trap, and this is what they do on the heap before. -/
def Traps (image : Image) (i : Nat) (m : Machine) (insts : List Inst) (trap : Routine)
    (events : List HeapEvent) : Prop :=
  (execFrom image i m insts).TrapsAt trap ∧ heapEvents image i m insts = events

section Parts

variable {image : Image} {i : Nat} {m m' m₁ m₂ : Machine} {insts rest : List Inst}
  {trap : Routine} {events events' : List HeapEvent} {r ri rl : Reg}

theorem heapEvents_append (h : execFrom image i m insts = .next m') :
    heapEvents image i m (insts ++ rest) =
      heapEvents image i m insts ++ heapEvents image (i + insts.length) m' rest := by
  induction insts generalizing i m with
  | nil =>
    obtain rfl : m = m' := by simpa using h
    rfl
  | cons inst insts ih =>
    rw [List.cons_append, heapEvents, heapEvents, List.length_cons]
    rw [execFrom] at h
    cases hinst : inst.exec image (image.line (i + 1)) m with
    | next m₁ =>
      simp only [hinst] at h ⊢
      rw [ih h, List.append_assoc, Nat.add_comm insts.length, Nat.add_assoc]
    | jump | goto | system => simp [hinst] at h

theorem Passes.append (h : Passes image i m insts m₁ events)
    (h' : Passes image (i + insts.length) m₁ rest m₂ events') :
    Passes image i m (insts ++ rest) m₂ (events ++ events') := by
  refine ⟨?_, ?_⟩
  · rw [execFrom_append h.1, h'.1]
  · rw [heapEvents_append h.1, h.2, h'.2]

theorem Passes.traps (h : Passes image i m insts m₁ events)
    (h' : Traps image (i + insts.length) m₁ rest trap events') :
    Traps image i m (insts ++ rest) trap (events ++ events') := by
  refine ⟨?_, ?_⟩
  · rw [execFrom_append h.1]
    exact h'.1
  · rw [heapEvents_append h.1, h.2, h'.2]

/-- What comes behind a trap is not executed. -/
theorem Traps.append (h : Traps image i m insts trap events) (rest : List Inst) :
    Traps image i m (insts ++ rest) trap events := by
  obtain ⟨⟨m', hrun⟩, rfl⟩ := h
  induction insts generalizing i m with
  | nil => cases hrun
  | cons inst insts ih =>
    rw [execFrom] at hrun
    rw [List.cons_append, Traps, execFrom, heapEvents, heapEvents]
    cases hinst : inst.exec image (image.line (i + 1)) m with
    | next m₁ =>
      simp only [hinst] at hrun ⊢
      obtain ⟨htraps, hevents⟩ := ih hrun
      exact ⟨htraps, congrArg _ hevents⟩
    | jump l m₁ =>
      rw [hinst] at hrun
      exact ⟨⟨m', hrun⟩, rfl⟩
    | goto | system =>
      rw [hinst] at hrun
      cases hrun

theorem traps_branch {op : BranchOp} {rs rt : Reg} (h : op.taken (m.reg rs) (m.reg rt)) :
    Traps image i m [.branch op rs rt (.runtime trap)] trap [] := by
  simp [Traps, Outcome.TrapsAt, execFrom, heapEvents, Inst.exec, Inst.heapEvents, h]

theorem passes_branch {op : BranchOp} {rs rt : Reg} (h : ¬ op.taken (m.reg rs) (m.reg rt)) :
    Passes image i m [.branch op rs rt (.runtime trap)] m [.passed trap] := by
  simp [Passes, execFrom, heapEvents, Inst.exec, Inst.heapEvents, h]

theorem traps_nullCheck (h : m.reg r = 0) :
    Traps image i m [.nullCheck r] .nullPtrException [] :=
  traps_branch (beq_iff_eq.2 h)

theorem passes_nullCheck (h : m.reg r ≠ 0) :
    Passes image i m [.nullCheck r] m [.passed .nullPtrException] :=
  passes_branch (beq_iff_eq.not.2 h)

theorem traps_boundsCheck (h : (m.reg rl).ule (m.reg ri)) :
    Traps image i m [.boundsCheck ri rl] .arrayIndexOutOfBounds [] :=
  traps_branch h

theorem passes_boundsCheck (h : ¬ (m.reg rl).ule (m.reg ri)) :
    Passes image i m [.boundsCheck ri rl] m [.passed .arrayIndexOutOfBounds] :=
  passes_branch h

end Parts

/-! ## Checks -/

/-- Lines check an access.  They trap where a check fails, and lead to `m'` where all hold. -/
structure HeapAccess.Checked (a : HeapAccess) (image : Image) (i : Nat) (m : Machine)
    (insts : List Inst) (m' : Machine) : Prop where
  null : a.object = 0 → Traps image i m insts .nullPtrException []
  bounds : a.object ≠ 0 → ¬ a.InRange m →
    Traps image i m insts .arrayIndexOutOfBounds a.beforeBounds
  passed : a.object ≠ 0 → a.InRange m → Passes image i m insts m' a.checks

namespace HeapAccess

section Checks

variable {image : Image} {i : Nat} {m m' m₁ m₂ : Machine} {base object index : Word}
  {insts between rest : List Inst} {r : Reg} {trap trap' : Routine} {a : HeapAccess}
  {action : HeapAction} {o : Outcome}

theorem not_trapsAt_of_completes (h : action.Completes m base object o) : ¬ o.TrapsAt trap := by
  rintro ⟨m', rfl⟩
  cases action <;> obtain ⟨_, hne, _⟩ := h <;> cases hne

theorem not_trapsAt_of_ne (h : o.TrapsAt trap) (hne : trap ≠ trap') : ¬ o.TrapsAt trap' := by
  obtain ⟨m', rfl⟩ := h
  rintro ⟨m'', heq⟩
  cases heq
  exact hne rfl

/-- Behind its checks an access is guarded. -/
theorem Checked.guarded (h : a.Checked image i m insts m')
    (hdone : a.object ≠ 0 → a.InRange m →
      a.action.Completes m base a.object (execFrom image (i + insts.length) m' rest) ∧
        heapEvents image (i + insts.length) m' rest = a.action.events m a.object) :
    a.Guarded image i m base (insts ++ rest) := by
  have hnull := fun hobject => (h.null hobject).append rest
  have hbounds := fun hreal hout => (h.bounds hreal hout).append rest
  have hpassed : a.object ≠ 0 → a.InRange m →
      a.action.Completes m base a.object (execFrom image i m (insts ++ rest)) ∧
        heapEvents image i m (insts ++ rest) = a.checks ++ a.action.events m a.object := by
    intro hreal hin
    obtain ⟨hrun, hevents⟩ := h.passed hreal hin
    obtain ⟨hcompletes, hevents'⟩ := hdone hreal hin
    rw [execFrom_append hrun, heapEvents_append hrun, hevents, hevents']
    exact ⟨hcompletes, rfl⟩
  refine ⟨⟨fun htraps => ?_, fun hobject => (hnull hobject).1⟩,
    ⟨fun htraps => ?_, fun hout => (hbounds hout.1 hout.2).1⟩,
    fun hreal hin => (hpassed hreal hin).1, fun hobject => (hnull hobject).2,
    fun hreal hout => (hbounds hreal hout).2, fun hreal hin => (hpassed hreal hin).2⟩
  · by_contra hreal
    by_cases hin : a.InRange m
    · exact not_trapsAt_of_completes (hpassed hreal hin).1 htraps
    · exact not_trapsAt_of_ne (hbounds hreal hin).1 (by decide) htraps
  · by_cases hobject : a.object = 0
    · exact absurd htraps (not_trapsAt_of_ne (hnull hobject).1 (by decide))
    · exact ⟨hobject, fun hin => not_trapsAt_of_completes (hpassed hobject hin).1 htraps⟩

theorem inRange_none : InRange ⟨object, none, action⟩ m :=
  nofun

/-- One comparison without signs does for both bounds. -/
theorem inRange_some_iff (hlength : 0 ≤ (m.mem (object + .ofInt arrayLengthOffset)).toInt) :
    InRange ⟨object, some index, action⟩ m ↔
      ¬ (m.mem (object + .ofInt arrayLengthOffset)).ule index := by
  rw [Word.ule_iff hlength, not_not]
  simp [InRange, length]

/-- The object is checked in a register to which lines have brought it that leave the heap alone. -/
theorem checked_nullCheck (action : HeapAction) (h : Passes image i m insts m₁ [])
    (hobject : m₁.reg r = object) :
    Checked ⟨object, none, action⟩ image i m (insts ++ [.nullCheck r]) m₁ where
  null hnull := h.traps (traps_nullCheck (hobject.trans hnull))
  bounds _ hout := absurd inRange_none hout
  passed hreal _ := h.append (passes_nullCheck (hobject.trans_ne hreal))

/-- The index is checked behind the object, against the length that was loaded in between. -/
theorem Checked.boundsCheck (h : Checked ⟨object, none, action⟩ image i m insts m₁) (ri rl : Reg)
    (hbetween : Passes image (i + insts.length) m₁ between m₂
      [.load (object + .ofInt arrayLengthOffset)])
    (hindex : m₂.reg ri = index)
    (hlength : m₂.reg rl = m.mem (object + .ofInt arrayLengthOffset))
    (hnonneg : object ≠ 0 → 0 ≤ (m.mem (object + .ofInt arrayLengthOffset)).toInt) :
    Checked ⟨object, some index, action⟩ image i m (insts ++ between ++ [.boundsCheck ri rl])
      m₂ where
  null hnull := ((h.null hnull).append between).append _
  bounds hreal hout := by
    rw [inRange_some_iff (hnonneg hreal), not_not, ← hindex, ← hlength] at hout
    exact ((h.passed hreal inRange_none).append hbetween).traps (traps_boundsCheck hout)
  passed hreal hin := by
    rw [inRange_some_iff (hnonneg hreal), ← hindex, ← hlength] at hin
    exact ((h.passed hreal inRange_none).append hbetween).append (passes_boundsCheck hin)

end Checks

end HeapAccess

/-! ## Sequences -/

section Sequences

variable {image : Image} {i : Nat} {m m₁ m₂ : Machine} {base object index tag w : Word}
  {insts : List Inst} {a : HeapAccess} {ty : Ty} {offset : Int}

/-! ### Loads -/

/-- A word was loaded into `$t0`, and the stack pointer is `sp`. -/
structure Machine.Fetched (m m' : Machine) (sp w : Word) : Prop where
  t0 : m'.reg .t0 = w
  sp : m'.reg .sp = sp
  s5 : m'.reg .s5 = m.reg .s5

/-- The value in `$t0` is written to the stack, where there is room for it. -/
def writeValue (ty : Ty) : List Inst :=
  if ty.isScalar then [.sw .s5 wordSize .sp, .sw .t0 0 .sp] else [.sw .t0 0 .sp]

/-- A fetched word becomes a value, if the stack pointer leaves room for it above the base. -/
theorem exists_passes_writeValue (hvalue : ty.isVoid = false)
    (h : m.Fetched m₁ (base - .ofInt ty.stackBytes) w) :
    ∃ m', Passes image i m₁ (writeValue ty) m' [] ∧
      m'.Pushed base (valueWords (m.reg .s5) ty w) := by
  have hdata : m₁.reg .sp + .ofInt 0 = base - .ofInt ty.stackBytes := by
    rw [h.sp, Word.sub_add_ofInt, Int.sub_zero]
  simp only [writeValue, valueWords, hvalue, Bool.false_eq_true, if_false]
  split
  · rename_i hscalar
    rw [Ty.stackBytes_of_isScalar hscalar] at h hdata
    have htag : m₁.reg .sp + .ofInt wordSize = base - .ofInt (1 * wordSize) := by
      rw [h.sp, Word.sub_add_ofInt]
      rfl
    have hne : base - Word.ofInt (1 * wordSize) ≠ base - Word.ofInt (2 * wordSize) :=
      Word.sub_ofInt_ne (by decide) (by decide)
    refine ⟨_, ⟨rfl, rfl⟩, ?_, fun {k w'} hk => ?_⟩
    · simpa using h.sp
    · rw [Machine.reg_store, Machine.reg_store, hdata, htag]
      have hlt := (List.getElem?_eq_some_iff.1 hk).1
      obtain rfl | rfl : k = 0 ∨ k = 1 :=
        Nat.le_one_iff_eq_zero_or_eq_one.1 (Nat.le_of_lt_succ hlt)
      · obtain rfl := Option.some.inj hk
        exact (Machine.mem_store_of_ne _ _ _ _ hne).trans
          ((Machine.mem_store_self _ _ _).trans h.s5)
      · obtain rfl := Option.some.inj hk
        exact (Machine.mem_store_self _ _ _).trans h.t0
  · rename_i hscalar
    have hreference : ty.isReference := by simp [Ty.isReference_eq, hscalar, hvalue]
    rw [Ty.stackBytes_of_isReference hreference] at h hdata
    refine ⟨_, ⟨rfl, rfl⟩, ?_, fun {k w'} hk => ?_⟩
    · simpa using h.sp
    · obtain rfl : k = 0 := Nat.lt_one_iff.1 (List.getElem?_eq_some_iff.1 hk).1
      obtain rfl := Option.some.inj hk
      rw [hdata]
      exact (Machine.mem_store_self _ _ _).trans h.t0

/-- Checked, a word is fetched and becomes a value. -/
theorem HeapAccess.Checked.guarded_load (h : a.Checked image i m insts m₁) (fetch : List Inst)
    (haction : a.action = .load offset ty) (hvalue : ty.isVoid = false)
    (hfetch : Passes image (i + insts.length) m₁ fetch m₂ [.load (a.object + .ofInt offset)])
    (hfetched : m.Fetched m₂ (base - .ofInt ty.stackBytes) (m.mem (a.object + .ofInt offset))) :
    a.Guarded image i m base (insts ++ (fetch ++ writeValue ty)) := by
  obtain ⟨m', hwrite, hpushed⟩ := exists_passes_writeValue hvalue hfetched
  obtain ⟨hrun, hevents⟩ := hfetch.append hwrite
  refine h.guarded fun _ _ => ?_
  rw [haction]
  exact ⟨⟨m', hrun, hpushed⟩, hevents⟩

/-- The object on top of the stack is replaced by a word of it. -/
def loadWord (ty : Ty) (offset : Int) : List Inst :=
  [.lw .t0 0 .sp, .nullCheck .t0, .lw .t0 offset .t0]
    ++ (if ty.isScalar then [.subuImm .sp .sp wordSize] else []) ++ writeValue ty

theorem guarded_loadWord (hvalue : ty.isVoid = false) (hpushed : m.Pushed base [object]) :
    HeapAccess.Guarded ⟨object, none, .load offset ty⟩ image i m base (loadWord ty offset) := by
  have hobject : m.mem (m.reg .sp) = object := hpushed.mem_top rfl
  have hloaded : Passes image i m [.lw .t0 0 .sp] (m.set .t0 object) [] :=
    ⟨by simp [execFrom, Inst.exec, hobject], rfl⟩
  have ht0 : (m.set .t0 object).reg .t0 = object := by simp
  have hchecked := HeapAccess.checked_nullCheck (.load offset ty) hloaded ht0
  rw [loadWord]
  split
  · rename_i hscalar
    have hsp : m.reg .sp - .ofInt wordSize = base - .ofInt ty.stackBytes := by
      rw [Ty.stackBytes_of_isScalar hscalar, hpushed.sp, Word.sub_sub_ofInt]
      rfl
    exact hchecked.guarded_load [.lw .t0 offset .t0, .subuImm .sp .sp wordSize] rfl hvalue
      ⟨rfl, rfl⟩ ⟨by simp, by simpa using hsp, by simp⟩
  · rename_i hscalar
    have hreference : ty.isReference := by simp [Ty.isReference_eq, hscalar, hvalue]
    have hsp : m.reg .sp = base - .ofInt ty.stackBytes := by
      rw [Ty.stackBytes_of_isReference hreference, hpushed.sp]
      rfl
    exact hchecked.guarded_load [.lw .t0 offset .t0] rfl hvalue
      ⟨rfl, rfl⟩ ⟨by simp, by simpa using hsp, by simp⟩

/-- The array below an index on top of the stack is replaced, with the index, by an element. -/
def loadIndexed (ty : Ty) : List Inst :=
  [.lw .t0 (2 * wordSize) .sp, .nullCheck .t0, .lw .t1 arrayLengthOffset .t0, .lw .t2 0 .sp,
    .boundsCheck .t2 .t1]
    ++ Inst.elementAddress .t2 .t0
    ++ [.lw .t0 0 .t2, .adduImm .sp .sp (3 * wordSize - ty.stackBytes)] ++ writeValue ty

theorem guarded_loadIndexed (hvalue : ty.isVoid = false)
    (hpushed : m.Pushed base [object, tag, index])
    (hnonneg : object ≠ 0 → 0 ≤ (m.mem (object + .ofInt arrayLengthOffset)).toInt) :
    HeapAccess.Guarded ⟨object, some index, .load (index.toInt * wordSize) ty⟩ image i m base
      (loadIndexed ty) := by
  have hobject : m.mem (m.reg .sp + .ofInt (2 * wordSize)) = object :=
    hpushed.mem_sp (k := 0) rfl rfl
  have hindex : m.mem (m.reg .sp) = index := hpushed.mem_top rfl
  have hloaded : Passes image i m [.lw .t0 (2 * wordSize) .sp] (m.set .t0 object) [] :=
    ⟨by simp [execFrom, Inst.exec, hobject], rfl⟩
  have ht0 : (m.set .t0 object).reg .t0 = object := by simp
  have hbetween : Passes image (i + 2) (m.set .t0 object)
      [.lw .t1 arrayLengthOffset .t0, .lw .t2 0 .sp]
      (((m.set .t0 object).set .t1 (m.mem (object + .ofInt arrayLengthOffset))).set .t2 index)
      [.load (object + .ofInt arrayLengthOffset)] :=
    ⟨by simp [execFrom, Inst.exec, hindex], by simp [heapEvents, Inst.heapEvents, Inst.exec]⟩
  have hsp : m.reg .sp + .ofInt (3 * wordSize - ty.stackBytes) = base - .ofInt ty.stackBytes := by
    have hbase : m.reg .sp + .ofInt (3 * wordSize) = base := hpushed.sp_add rfl
    rw [← hbase, Word.ofInt_sub]
    abel
  have haddress := Word.shiftLeft_add index object
  have hchecked : HeapAccess.Checked ⟨object, some index, .load (index.toInt * wordSize) ty⟩
      image i m _ _ :=
    (HeapAccess.checked_nullCheck _ hloaded ht0).boundsCheck .t2 .t1 hbetween (by simp) (by simp)
      hnonneg
  refine hchecked.guarded_load (Inst.elementAddress .t2 .t0 ++
    [.lw .t0 0 .t2, .adduImm .sp .sp (3 * wordSize - ty.stackBytes)]) rfl hvalue ⟨rfl, ?_⟩
    ⟨?_, ?_, ?_⟩
  · simp [Inst.elementAddress, heapEvents, Inst.heapEvents, Inst.exec, AluOp.eval, haddress]
  · simp [AluOp.eval, haddress]
  · simpa using hsp
  · simp

/-! ### Stores -/

/-- The word on top of the stack is written at an offset of the object below the value. -/
def storeWord (width offset : Int) : List Inst :=
  [.lw .t0 0 .sp, .lw .t1 width .sp, .nullCheck .t1, .sw .t0 offset .t1]

theorem guarded_storeWord {width bytes : Int} (hword : m.mem (m.reg .sp) = w)
    (hobject : m.mem (m.reg .sp + .ofInt width) = object)
    (hbase : m.reg .sp + .ofInt bytes = base) :
    HeapAccess.Guarded ⟨object, none, .store offset w⟩ image i m base
      (storeWord width offset ++ [.adduImm .sp .sp bytes]) := by
  have hloaded : Passes image i m [.lw .t0 0 .sp, .lw .t1 width .sp]
      ((m.set .t0 w).set .t1 object) [] :=
    ⟨by simp [execFrom, Inst.exec, hword, hobject], rfl⟩
  have ht1 : ((m.set .t0 w).set .t1 object).reg .t1 = object := by simp
  refine (HeapAccess.checked_nullCheck (.store offset w) hloaded ht1).guarded
    fun _ _ => ⟨⟨_, rfl, ?_, ?_⟩, ?_⟩
  · simpa using hbase
  · simp [Machine.mem_store]
  · simp [heapEvents, Inst.heapEvents, Inst.exec, HeapAction.events]

theorem guarded_storeElement {width bytes : Int} (hword : m.mem (m.reg .sp) = w)
    (hindex : m.mem (m.reg .sp + .ofInt width) = index)
    (hobject : m.mem (m.reg .sp + .ofInt (width + 2 * wordSize)) = object)
    (hnonneg : object ≠ 0 → 0 ≤ (m.mem (object + .ofInt arrayLengthOffset)).toInt)
    (hbase : m.reg .sp + .ofInt bytes = base) :
    HeapAccess.Guarded ⟨object, some index, .store (index.toInt * wordSize) w⟩ image i m base
      (Gen.storeElement width ++ [.adduImm .sp .sp bytes]) := by
  have hloaded : Passes image i m [.lw .t0 0 .sp, .lw .t1 (width + 2 * wordSize) .sp]
      ((m.set .t0 w).set .t1 object) [] :=
    ⟨by simp [execFrom, Inst.exec, hword, hobject], rfl⟩
  have ht1 : ((m.set .t0 w).set .t1 object).reg .t1 = object := by simp
  have hbetween : Passes image (i + 3) ((m.set .t0 w).set .t1 object)
      [.lw .t2 width .sp, .lw .t3 arrayLengthOffset .t1]
      ((((m.set .t0 w).set .t1 object).set .t2 index).set .t3
        (m.mem (object + .ofInt arrayLengthOffset)))
      [.load (object + .ofInt arrayLengthOffset)] :=
    ⟨by simp [execFrom, Inst.exec, hindex], by simp [heapEvents, Inst.heapEvents, Inst.exec]⟩
  have haddress := Word.shiftLeft_add index object
  refine ((HeapAccess.checked_nullCheck _ hloaded ht1).boundsCheck .t2 .t3 hbetween (by simp)
    (by simp) hnonneg).guarded fun _ _ => ⟨⟨_, rfl, ?_, ?_⟩, ?_⟩
  · simpa using hbase
  · simp [Machine.mem_store, AluOp.eval, haddress]
  · simp [heapEvents, Inst.heapEvents, Inst.exec, AluOp.eval, HeapAction.events, haddress]

/-! ### Calls -/

theorem guarded_dispatch {ml : MethodLayout} {enter : List Inst}
    (h : Gen.dispatch ml = .ok enter)
    (hobject : m.mem (m.reg .sp + .ofInt (ml.receiverOffset - wordSize)) = object) :
    HeapAccess.Guarded ⟨object, none, .enter ml.entryOffset⟩ image i m base enter := by
  obtain ⟨_, rfl⟩ := Gen.dispatch_eq_ok_iff.1 h
  have hloaded : Passes image i m [.lw .t0 (ml.receiverOffset - wordSize) .sp]
      (m.set .t0 object) [] :=
    ⟨by simp [execFrom, Inst.exec, hobject], rfl⟩
  have ht0 : (m.set .t0 object).reg .t0 = object := by simp
  refine (HeapAccess.checked_nullCheck (.enter ml.entryOffset) hloaded ht0).guarded
    fun _ _ => ⟨⟨_, rfl, ?_, rfl⟩, ?_⟩
  · simp
  · simp [heapEvents, Inst.heapEvents, Inst.exec, HeapAction.events]

end Sequences

end MipsBackend
