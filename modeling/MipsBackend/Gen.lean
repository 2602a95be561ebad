import MipsBackend.Assembly.Basic
import MipsBackend.Frame

/-!
# Generating stack code

Generated code keeps every value on the operand stack: a reference as one word, a scalar as a tag
word above its data word.  A generator returns the code for a node and changes the frame as that
code changes the stack.
-/

namespace MipsBackend

/-- A generator of code that knows the frame the code will run in. -/
abbrev Gen := StateT Frame (Except Fault)

namespace Gen

/-- The modelled stack height. -/
def height : Gen Int := do
  return (← get).height

/-- Records a push that the code performs. -/
def pushed (bytes : Int) : Gen Unit := do
  set (← (← get).push bytes)

/-- Records a pop that the code performs. -/
def popped (bytes : Int) : Gen Unit := do
  set (← (← get).pop bytes)

/-- Goes back to an earlier height and tells how many bytes that drops. -/
def restored (height : Int) : Gen Int := do
  let (dropped, frame) ← (← get).restore height
  set frame
  return dropped

/-- Takes the value on top of the stack as a local variable. -/
def declared (var : VarId) : Gen Unit := do
  let (_, frame) ← (← get).declareLocal var
  set frame

/-- Pushes the scalar in a register: the tag word, and below it the data word. -/
def pushScalar (span : Span) (reg : Reg) : Gen Code := do
  pushed (2 * wordSize)
  return Code.of span [
    .subuImm .sp .sp (2 * wordSize),
    .sw .s5 wordSize .sp,
    .sw reg 0 .sp]

/-- Pushes the reference in a register. -/
def pushReference (span : Span) (reg : Reg) : Gen Code := do
  pushed wordSize
  return Code.of span [.subuImm .sp .sp wordSize, .sw reg 0 .sp]

/-- Pushes the value of a type that a register holds. -/
def pushValue (span : Span) (ty : Ty) (reg : Reg) : Gen Code :=
  if ty.isScalar then pushScalar span reg else pushReference span reg

/-- Makes a scalar of the bare word on top of the stack, which `$t0` holds too. -/
def tagTop (span : Span) : Gen Code := do
  pushed wordSize
  return Code.of span [.subuImm .sp .sp wordSize, .sw .s5 wordSize .sp, .sw .t0 0 .sp]

/-- Pops bytes off the stack.  Nothing is generated where nothing is popped. -/
def pop (span : Span) (bytes : Int) : Gen Code := do
  if bytes = 0 then
    return []
  else
    popped bytes
    return Code.of span [.adduImm .sp .sp bytes]

/-- Pops down to an earlier height. -/
def popTo (span : Span) (height : Int) : Gen Code := do
  let dropped ← restored height
  return if dropped = 0 then [] else Code.of span [.adduImm .sp .sp dropped]

end Gen

namespace Inst

/-- Traps if a register holds null. -/
def nullCheck (reg : Reg) : Inst :=
  .branch .beq reg .zero (.runtime .nullPtrException)

/-- Traps unless an index is below a length.  As an unsigned word a negative index is above. -/
def boundsCheck (index length : Reg) : Inst :=
  .branch .bgeu index length (.runtime .arrayIndexOutOfBounds)

/-- Replaces an index by the address of that element of an array. -/
def elementAddress (index array : Reg) : List Inst :=
  [.sll index index 2, .alu .addu index index array]

/-- Calls a runtime routine. -/
def callRoutine (routine : Routine) : Inst :=
  .jal (.runtime routine)

end Inst

/-- The offset of the class record in the header of an object or array. -/
def classRecordOffset : Int := -12

/-- The offset of the length in the header of an array. -/
def arrayLengthOffset : Int := -4

end MipsBackend
