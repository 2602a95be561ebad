import MipsBackend.Proofs.Assembly.Labels
import MipsBackend.Proofs.Code.Trace
import MipsBackend.Proofs.Code.Typing

/-!
# Control paths and the stack pointer

Every instruction moves the stack pointer by a fixed number of bytes, its *displacement*, if a call
is taken as one instruction that replaces receiver and arguments by the result.  `Reaches` says that
a path through some code leads to a position and by how much the stack pointer has moved then.

`Balanced` is the invariant of generated code: heights that can be given to the positions of a
trace so that they agree with the displacement of every instruction, with the height of every label
at all jumps to it, and with the frame at every mark.  It is closed under concatenation, and it
gives what is claimed of paths (`Balanced.heightsAgree`).
-/

namespace MipsBackend

/-! ## Displacements -/

namespace Inst

/-- By how much an instruction moves the stack pointer.  The allocator pushes the new object, and
the routines for division replace two scalars by one. -/
def displacement : Inst → Int
  | .adduImm .sp .sp bytes => bytes
  | .subuImm .sp .sp bytes => -bytes
  | .jal (.runtime .newObject) => -wordSize
  | .jal (.runtime .divide) | .jal (.runtime .remainder) => 2 * wordSize
  | _ => 0

/-- The instruction calls a method. -/
def isCall : Inst → Bool
  | .jalr _ | .jal (.method _ _) | .jal (.runtimeMethod _ _) => true
  | _ => false

/-- The label that the instruction may jump to.  A path ends where a routine traps. -/
def target? : Inst → Option Label
  | .j (.runtime _) | .branch _ _ _ (.runtime _) => none
  | .j l | .branch _ _ _ l => some l
  | _ => none

/-- A path may go on behind the instruction. -/
def fallsThrough : Inst → Bool
  | .j _ | .jr _ => false
  | _ => true

/-- The instruction is no call and paths go through it in order only. -/
def isPlain (inst : Inst) : Bool :=
  !inst.isCall && inst.definedLabel.isNone && inst.target?.isNone

end Inst

namespace Program

/-- A call pops the receiver and the arguments and pushes the result. -/
def callDisplacement (p : Program) (method : MethodId) : Int :=
  match p.methodAt method with
  | .ok decl => wordSize + p.argumentBytes decl - decl.returnType.stackBytes
  | .error _ => 0

/-- The displacements of instructions, of which those that call methods call the given ones in
order. -/
def displacements (p : Program) : List MethodId → List Inst → List Int
  | _, [] => []
  | callees, inst :: insts =>
    if inst.isCall then
      match callees with
      | callee :: callees => p.callDisplacement callee :: displacements p callees insts
      | [] => 0 :: displacements p [] insts
    else
      inst.displacement :: displacements p callees insts

theorem displacements_of_isCall {p : Program} {inst : Inst} (h : inst.isCall) (callee : MethodId)
    (callees : List MethodId) (insts : List Inst) :
    p.displacements (callee :: callees) (inst :: insts) =
      p.callDisplacement callee :: p.displacements callees insts := by
  simp [displacements, h]

theorem displacements_of_not_isCall {p : Program} {inst : Inst} (h : inst.isCall = false)
    (callees : List MethodId) (insts : List Inst) :
    p.displacements callees (inst :: insts) =
      inst.displacement :: p.displacements callees insts := by
  simp [displacements, h]

@[simp] theorem length_displacements (p : Program) (callees : List MethodId) (insts : List Inst) :
    (p.displacements callees insts).length = insts.length := by
  fun_induction displacements p callees insts with
  | case1 => rfl
  | case2 _ _ _ _ _ ih => simp [ih]
  | case3 _ _ _ ih => simp [ih]
  | case4 _ _ _ _ ih => simp [ih]

end Program

/-! ## Paths -/

/-- Control may pass from an instruction at position `i` to position `j`. -/
def Inst.Leads (insts : List Inst) (i : Nat) (inst : Inst) (j : Nat) : Prop :=
  inst.fallsThrough ∧ j = i + 1 ∨ ∃ l, inst.target? = some l ∧ insts[j]? = some (.label l)

/-- A path from the start of the code leads to a position and moves the stack pointer by a number of
bytes. -/
inductive Reaches (p : Program) (callees : List MethodId) (insts : List Inst) :
    Nat → Int → Prop where
  | start : Reaches p callees insts 0 0
  | step {i j : Nat} {inst : Inst} {d k : Int} : Reaches p callees insts i d →
      insts[i]? = some inst → (p.displacements callees insts)[i]? = some k →
      inst.Leads insts i j → Reaches p callees insts j (d + k)

/-- All paths to a position move the stack pointer alike, and where a generator starts or ends on a
node, the frame knows by how much.  Here `bottom` is the height before the first instruction. -/
structure HeightsAgree (p : Program) (callees : List MethodId) (t : Trace) (bottom : Int) :
    Prop where
  unique {i : Nat} {d d' : Int} : Reaches p callees t.code.insts i d →
    Reaches p callees t.code.insts i d' → d = d'
  mark {before after : Trace} {e : Event} {height d : Int} : t = before ++ e :: after →
    e.height? = some height → Reaches p callees t.code.insts before.code.length d →
    height = bottom - d

/-! ## Balanced traces -/

/-- Heights `env` of labels agree with an instruction that control reaches at one height and leaves
at another. -/
structure Inst.Agrees (env : Label → Int) (inst : Inst) (h h' : Int) : Prop where
  label {l : Label} : inst.definedLabel = some l → env l = h
  target {l : Label} : inst.target? = some l → env l = h'

/-- The trace leads from height `h` to height `h'`, if it calls the given methods in order and
`env` are the heights of labels.  Behind a jump the height may be any. -/
inductive Balanced (p : Program) (env : Label → Int) :
    List MethodId → Trace → Int → Int → Prop where
  | nil {h : Int} : Balanced p env [] [] h h
  | mark {callees : List MethodId} {e : Event} {t : Trace} {h h' : Int} :
      e.height? = some h → Balanced p env callees t h h' → Balanced p env callees (e :: t) h h'
  | line {callees : List MethodId} {span : Span} {inst : Inst} {t : Trace} {h next h' : Int} :
      inst.isCall = false → inst.Agrees env h (h - inst.displacement) →
      (inst.fallsThrough → next = h - inst.displacement) → Balanced p env callees t next h' →
      Balanced p env callees (.line ⟨span, inst⟩ :: t) h h'
  | call {callees : List MethodId} {callee : MethodId} {span : Span} {inst : Inst} {t : Trace}
      {h h' : Int} : inst.isCall →
      Balanced p env callees t (h - p.callDisplacement callee) h' →
      Balanced p env (callee :: callees) (.line ⟨span, inst⟩ :: t) h h'

namespace Balanced

variable {p : Program} {env : Label → Int} {callees callees' : List MethodId} {t u : Trace}
  {span : Span} {code : Code} {h h₁ h' : Int}

theorem append (ht : Balanced p env callees t h h₁) (hu : Balanced p env callees' u h₁ h') :
    Balanced p env (callees ++ callees') (t ++ u) h h' := by
  induction ht with
  | nil => exact hu
  | mark he _ ih => exact .mark he (ih hu)
  | line hcall hagrees hnext _ ih => exact .line hcall hagrees hnext (ih hu)
  | call hcall _ ih => exact .call hcall (ih hu)

/-- A trace stays balanced if it is closed by a mark. -/
theorem ended {node : Node} (ht : Balanced p env callees t h h') :
    Balanced p env callees (t ++ [.ends node h']) h h' := by
  have hend : Balanced p env [] [.ends node h'] h' h' := .mark rfl .nil
  simpa using ht.append hend

/-- A node's trace is balanced if the trace between its marks is. -/
theorem visit {node : Node} (ht : Balanced p env callees t h h') :
    Balanced p env callees (.starts node h :: t ++ [.ends node h']) h h' :=
  .mark rfl ht.ended

/-- Heights of the positions in some code agree with all of its instructions. -/
structure Consistent (p : Program) (env : Label → Int) (callees : List MethodId) (insts : List Inst)
    (H : Nat → Int) : Prop where
  agrees {i : Nat} {inst : Inst} {k : Int} : insts[i]? = some inst →
    (p.displacements callees insts)[i]? = some k → inst.Agrees env (H i) (H i - k)
  next {i : Nat} {inst : Inst} {k : Int} : insts[i]? = some inst →
    (p.displacements callees insts)[i]? = some k → inst.fallsThrough → H (i + 1) = H i - k

/-- Every mark has the height of the position in the code where it stands. -/
def Marked (t : Trace) (H : Nat → Int) : Prop :=
  ∀ {before after : Trace} {e : Event} {height : Int}, t = before ++ e :: after →
    e.height? = some height → H (Trace.code before).length = height

/-- The heights of positions, from the height of the first one and those behind it. -/
def consHeight (h : Int) (H : Nat → Int) : Nat → Int
  | 0 => h
  | i + 1 => H i

theorem agrees_of_isCall {inst : Inst} (hcall : inst.isCall) : inst.Agrees env h h' := by
  constructor
  · intro l hl
    cases inst <;> simp [Inst.isCall, Inst.definedLabel] at hcall hl
  · intro l hl
    cases inst <;> simp [Inst.isCall, Inst.target?] at hcall hl

theorem marked_mark {e : Event} {H : Nat → Int} (he : e.height? = some h) (hzero : H 0 = h)
    (ht : Marked t H) : Marked (e :: t) H := by
  intro before after e' height heq he'
  cases before with
  | nil =>
    obtain ⟨rfl, rfl⟩ := List.cons.inj heq
    rw [Trace.code_nil, List.length_nil, hzero]
    exact Option.some.inj (he.symm.trans he')
  | cons first before =>
    obtain ⟨rfl, rfl⟩ := List.cons.inj heq
    rw [Trace.code_mark he]
    exact ht rfl he'

theorem marked_line {line : Line} {H : Nat → Int} (ht : Marked t H) :
    Marked (.line line :: t) (consHeight h H) := by
  intro before after e' height heq he'
  cases before with
  | nil =>
    obtain ⟨rfl, rfl⟩ := List.cons.inj heq
    simp [Event.height?] at he'
  | cons first before =>
    obtain ⟨rfl, rfl⟩ := List.cons.inj heq
    rw [Trace.code_line, List.length_cons]
    exact ht rfl he'

theorem consistent_cons {inst : Inst} {insts : List Inst} {H : Nat → Int} {k : Int}
    (hdisp : p.displacements callees (inst :: insts) = k :: p.displacements callees' insts)
    (hagrees : inst.Agrees env h (h - k)) (hnext : inst.fallsThrough → H 0 = h - k)
    (hconsistent : Consistent p env callees' insts H) :
    Consistent p env callees (inst :: insts) (consHeight h H) := by
  constructor
  · intro i inst' k' hinst hk
    rw [hdisp] at hk
    cases i with
    | zero =>
      obtain rfl := Option.some.inj hinst
      obtain rfl := Option.some.inj hk
      exact hagrees
    | succ i => exact hconsistent.agrees hinst hk
  · intro i inst' k' hinst hk hfalls
    rw [hdisp] at hk
    cases i with
    | zero =>
      obtain rfl := Option.some.inj hinst
      obtain rfl := Option.some.inj hk
      exact hnext hfalls
    | succ i => exact hconsistent.next hinst hk hfalls

/-- The heights of a balanced trace, as heights of the positions in its code. -/
theorem exists_consistent (ht : Balanced p env callees t h h') :
    ∃ H : Nat → Int, H 0 = h ∧ Consistent p env callees t.code.insts H ∧ Marked t H := by
  induction ht with
  | @nil h =>
    refine ⟨fun _ => h, rfl, ⟨?_, ?_⟩, ?_⟩
    · intro i inst k hinst
      simp [Code.insts] at hinst
    · intro i inst k hinst
      simp [Code.insts] at hinst
    · intro before after e height heq
      simp at heq
  | @mark callees e t h h' he _ ih =>
    obtain ⟨H, hzero, hconsistent, hmarked⟩ := ih
    refine ⟨H, hzero, ?_, marked_mark he hzero hmarked⟩
    rw [Trace.code_mark he]
    exact hconsistent
  | @line callees span inst t h next h' hcall hagrees hnext _ ih =>
    obtain ⟨H, rfl, hconsistent, hmarked⟩ := ih
    refine ⟨consHeight h H, rfl, ?_, marked_line hmarked⟩
    exact consistent_cons (Program.displacements_of_not_isCall hcall _ _) hagrees hnext hconsistent
  | @call callees callee span inst t h h' hcall _ ih =>
    obtain ⟨H, hzero, hconsistent, hmarked⟩ := ih
    refine ⟨consHeight h H, rfl, ?_, marked_line hmarked⟩
    exact consistent_cons (Program.displacements_of_isCall hcall _ _ _) (agrees_of_isCall hcall)
      (fun _ => hzero) hconsistent

/-- A path that moves the stack pointer by some bytes leads to a position that much lower. -/
theorem Consistent.height_eq {insts : List Inst} {H : Nat → Int} {i : Nat} {d : Int}
    (hconsistent : Consistent p env callees insts H) (h : Reaches p callees insts i d) :
    H i = H 0 - d := by
  induction h with
  | start => omega
  | @step i j inst d k _ hinst hk hleads ih =>
    rcases hleads with ⟨hfalls, rfl⟩ | ⟨l, htarget, hlabel⟩
    · rw [hconsistent.next hinst hk hfalls, ih]
      omega
    · -- Both ends of a jump have the height of the label.
      have hj : j < (p.displacements callees insts).length := by
        rw [Program.length_displacements]
        exact (List.getElem?_eq_some_iff.1 hlabel).1
      have hfrom := (hconsistent.agrees hinst hk).target htarget
      have hto := (hconsistent.agrees hlabel (List.getElem?_eq_getElem hj)).label rfl
      omega

theorem heightsAgree (ht : Balanced p env callees t h h') : HeightsAgree p callees t h := by
  obtain ⟨H, hzero, hconsistent, hmarked⟩ := ht.exists_consistent
  constructor
  · intro i d d' hd hd'
    have := hconsistent.height_eq hd
    have := hconsistent.height_eq hd'
    omega
  · intro before after e height d heq he hd
    have := hconsistent.height_eq hd
    have := hmarked heq he
    omega

end Balanced

end MipsBackend
