import MipsBackend.Program.Basic

/-!
# Assembly

Registers, labels and instructions.  The roles of the registers are fixed:

* `$sp` points at the top of the operand stack, which grows downward;
* `$s2` holds the receiver of the running method;
* `$s5` holds the marker that stands above every scalar as its tag word;
* `$s6` and `$s7` pass arguments to the allocator, and `$s7` receives the new object;
* `$t0` to `$t3` are scratch.
-/

namespace MipsBackend

/-- A machine register. -/
inductive Reg where
  | zero
  | v0
  | t0
  | t1
  | t2
  | t3
  | s2
  | s5
  | s6
  | s7
  | sp
  | ra
deriving DecidableEq

/-- A routine of the runtime library. -/
inductive Routine where
  /-- Starts the runtime; called once. -/
  | vmInit
  /-- Allocates a zeroed object.  `$s6` holds the number of scalar words, or `-1` or `1` for an
  array of scalars or references; `$s7` holds the number of reference words or of elements, and
  receives the object. -/
  | newObject
  /-- Replaces the two integers on top of the stack by their quotient. -/
  | divide
  /-- Replaces the two integers on top of the stack by their remainder. -/
  | remainder
  /-- Replaces the reference on top of the stack by `1` if its class record lies in the range from
  `$t0` up to `$t1`, else by `0`. -/
  | instanceOf
  /-- Traps unless the reference on top of the stack is null or its class record lies in the range
  from `$t0` up to `$t1`. -/
  | checkCast
  /-- Traps on a null reference. -/
  | nullPtrException
  /-- Traps on an index outside its array. -/
  | arrayIndexOutOfBounds
deriving DecidableEq

/-- A code or data label.  Labels of nodes hold the node's position, which tells them apart. -/
inductive Label where
  /-- The entry point. -/
  | main
  /-- The start of a class record. -/
  | classStart (name : String)
  /-- The end of the records of a class and its descendants. -/
  | classEnd (name : String)
  /-- The code of a method of the program. -/
  | method (id : MethodId) (name : String)
  /-- The code of a method of the runtime library. -/
  | runtimeMethod (name class_ : String)
  /-- The characters of a string literal. -/
  | strLit (e : ExprId)
  /-- The end of a short-circuit operation. -/
  | skip (e : ExprId)
  | ifElse (s : StmtId)
  | ifDone (s : StmtId)
  | whileTop (s : StmtId)
  | whileEnter (s : StmtId)
  | breakTarget (s : StmtId)
  | runtime (routine : Routine)
deriving DecidableEq

/-- A part of the program image. -/
inductive Segment where
  | data
  | code
deriving DecidableEq

/-- The value of a data word. -/
inductive DataWord where
  | int (n : Int)
  | label (l : Label)
deriving DecidableEq

/-- Operations on two registers that write a third. -/
inductive AluOp where
  | addu
  | subu
  | seq
  | slt
  | sgt
deriving DecidableEq

/-- Conditional branches on two registers. -/
inductive BranchOp where
  | beq
  | bne
  | bgeu
deriving DecidableEq

/-- One line of assembly.  Destinations come before sources. -/
inductive Inst where
  | label (l : Label)
  | segment (s : Segment)
  | globl (l : Label)
  | word (w : DataWord)
  | ascii (text : String)
  | align (n : Nat)
  | li (rd : Reg) (imm : Int)
  | la (rd : Reg) (l : Label)
  | lw (rt : Reg) (offset : Int) (base : Reg)
  | sw (rt : Reg) (offset : Int) (base : Reg)
  | adduImm (rd rs : Reg) (imm : Int)
  | subuImm (rd rs : Reg) (imm : Int)
  | xorImm (rd rs : Reg) (imm : Int)
  | sll (rd rs : Reg) (amount : Nat)
  | alu (op : AluOp) (rd rs rt : Reg)
  | mult (rs rt : Reg)
  | mflo (rd : Reg)
  | branch (op : BranchOp) (rs rt : Reg) (l : Label)
  | j (l : Label)
  | jal (l : Label)
  | jalr (rs : Reg)
  | jr (rs : Reg)
  | syscall
deriving DecidableEq

/-- Labels and segment switches are not indented. -/
def Inst.isFlushLeft : Inst → Bool
  | .label _ | .segment _ => true
  | _ => false

/-- An instruction with the source of the node it was generated for. -/
structure Line where
  span : Span
  inst : Inst
deriving DecidableEq

/-- Instructions in program order. -/
abbrev Code := List Line

/-- Instructions that are all generated for one node. -/
def Code.of (span : Span) (insts : List Inst) : Code :=
  insts.map (⟨span, ·⟩)

/-- The instructions of some code, without their sources. -/
def Code.insts (code : Code) : List Inst :=
  code.map Line.inst

theorem Code.of_append (span : Span) (xs ys : List Inst) :
    Code.of span (xs ++ ys) = Code.of span xs ++ Code.of span ys :=
  List.map_append

theorem Code.insts_append (c d : Code) : insts (c ++ d) = insts c ++ insts d :=
  List.map_append

@[simp] theorem Code.insts_of (span : Span) (xs : List Inst) : (Code.of span xs).insts = xs := by
  simp [of, insts, Function.comp_def]

end MipsBackend
