import MipsBackend.Offset

/-!
# Frames

A frame models the activation that the generated code runs in: how many bytes it has pushed on the
operand stack, where its locals lie, and how high the stack was at each loop it entered.  A variable
at static offset `off` lies `height + off` bytes above the stack pointer.  Every push and pop of the
generated code is recorded here, since all later offsets depend on it.

The statements at the end say exactly when each operation succeeds and what it leaves.
-/

namespace MipsBackend

/-- The modelled state of an activation. -/
structure Frame where
  /-- The number of bytes pushed since the frame was entered. -/
  height : Int := 0
  /-- The static offsets of the locals declared so far, latest first. -/
  locals : List (VarId × Int) := []
  /-- The heights at which loops were entered, latest first. -/
  loopExits : List (StmtId × Int) := []
deriving DecidableEq

namespace Frame

/-- A frame with nothing pushed. -/
def empty : Frame :=
  {}

instance : Inhabited Frame :=
  ⟨empty⟩

/-- Records a push. -/
def push (f : Frame) (bytes : Int) : Except Fault Frame := do
  let height ← Offset.add f.height bytes
  return { f with height }

/-- Records a pop, which must not reach below the bottom of the frame. -/
def pop (f : Frame) (bytes : Int) : Except Fault Frame := do
  let height ← Offset.sub f.height bytes
  if height < 0 then
    defect (.stackUnderflow (← Offset.neg height))
  else
    return { f with height }

/-- Goes back to an earlier height.  The result tells how many bytes were dropped. -/
def restore (f : Frame) (height : Int) : Except Fault (Int × Frame) := do
  let dropped ← Offset.sub f.height height
  if dropped < 0 then
    defect (.stackRaised height f.height)
  else
    return (dropped, { f with height })

/-- Makes the value just pushed a local variable.  The result tells its static offset. -/
def declareLocal (f : Frame) (var : VarId) : Except Fault (Int × Frame) := do
  let offset ← Offset.neg f.height
  if (f.locals.lookup var).isSome then
    defect (.localRedeclared var)
  else
    return (offset, { f with locals := (var, offset) :: f.locals })

/-- The static offset of a local variable. -/
def localOffset (f : Frame) (var : VarId) : Except Fault Int :=
  match f.locals.lookup var with
  | some offset => .ok offset
  | none => defect (.localUndeclared var)

/-- Records the present height as the one to leave a loop at. -/
def enterLoop (f : Frame) (loop : StmtId) : Frame :=
  { f with loopExits := (loop, f.height) :: f.loopExits }

/-- The height to leave a loop at. -/
def loopExit (f : Frame) (loop : StmtId) : Except Fault Int :=
  match f.loopExits.lookup loop with
  | some height => .ok height
  | none => defect (.breakOutsideLoop loop)

/-! ## When an operation succeeds -/

theorem push_eq_ok_iff {f g : Frame} {bytes : Int} :
    f.push bytes = .ok g ↔
      Offset.Fits (f.height + bytes) ∧ g = { f with height := f.height + bytes } := by
  simp only [push, Offset.add, bind_eq_ok_iff, Offset.checked_eq_ok_iff, pure_eq_ok_iff]
  constructor
  · rintro ⟨_, ⟨fits, rfl⟩, rfl⟩
    exact ⟨fits, rfl⟩
  · rintro ⟨fits, rfl⟩
    exact ⟨_, ⟨fits, rfl⟩, rfl⟩

theorem pop_eq_ok_iff {f g : Frame} {bytes : Int} :
    f.pop bytes = .ok g ↔
      Offset.Fits (f.height - bytes) ∧ bytes ≤ f.height ∧
        g = { f with height := f.height - bytes } := by
  simp only [pop, Offset.sub, bind_eq_ok_iff, Offset.checked_eq_ok_iff]
  constructor
  · rintro ⟨_, ⟨fits, rfl⟩, result⟩
    split at result
    · simp [bind_eq_ok_iff] at result
    · exact ⟨fits, by omega, pure_eq_ok_iff.1 result⟩
  · rintro ⟨fits, below, rfl⟩
    exact ⟨_, ⟨fits, rfl⟩, by rw [if_neg (by omega)]; rfl⟩

theorem restore_eq_ok_iff {f g : Frame} {height dropped : Int} :
    f.restore height = .ok (dropped, g) ↔
      Offset.Fits (f.height - height) ∧ height ≤ f.height ∧ dropped = f.height - height ∧
        g = { f with height } := by
  simp only [restore, Offset.sub, bind_eq_ok_iff, Offset.checked_eq_ok_iff]
  constructor
  · rintro ⟨_, ⟨fits, rfl⟩, result⟩
    split at result
    · simp at result
    · obtain ⟨rfl, rfl⟩ := Prod.mk.inj (pure_eq_ok_iff.1 result)
      exact ⟨fits, by omega, rfl, rfl⟩
  · rintro ⟨fits, below, rfl, rfl⟩
    exact ⟨_, ⟨fits, rfl⟩, by rw [if_neg (by omega)]; rfl⟩

theorem localOffset_eq_ok_iff {f : Frame} {var : VarId} {offset : Int} :
    f.localOffset var = .ok offset ↔ f.locals.lookup var = some offset := by
  cases found : f.locals.lookup var <;> simp [localOffset, found]

theorem loopExit_eq_ok_iff {f : Frame} {loop : StmtId} {height : Int} :
    f.loopExit loop = .ok height ↔ f.loopExits.lookup loop = some height := by
  cases found : f.loopExits.lookup loop <;> simp [loopExit, found]

/-- A loop is left at the height at which it was entered last. -/
theorem loopExit_enterLoop (f : Frame) (loop : StmtId) :
    (f.enterLoop loop).loopExit loop = .ok f.height := by
  simp [loopExit_eq_ok_iff, enterLoop]

end Frame

end MipsBackend
