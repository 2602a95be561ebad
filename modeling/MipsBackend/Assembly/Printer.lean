import MipsBackend.Assembly.Basic

/-!
# The text of assembly

Every line ends in a newline.  Labels and segment switches stand at the left margin, all else is
indented by a tab.  An annotated line ends in a comment that names its source, unless it has none.
-/

namespace MipsBackend

/-- The register as the assembler writes it. -/
def Reg.text : Reg → String
  | .zero => "$zero"
  | .v0 => "$v0"
  | .t0 => "$t0"
  | .t1 => "$t1"
  | .t2 => "$t2"
  | .t3 => "$t3"
  | .s2 => "$s2"
  | .s5 => "$s5"
  | .s6 => "$s6"
  | .s7 => "$s7"
  | .sp => "$sp"
  | .ra => "$ra"

/-- The symbol under which a runtime routine is linked. -/
def Routine.text : Routine → String
  | .vmInit => "vm_init"
  | .newObject => "newObject"
  | .divide => "divide"
  | .remainder => "remainder"
  | .instanceOf => "instanceOf"
  | .checkCast => "checkCast"
  | .nullPtrException => "nullPtrException"
  | .arrayIndexOutOfBounds => "arrayIndexOutOfBounds"

/-- The symbol of a label. -/
def Label.text : Label → String
  | .main => "main"
  | .classStart name => "CLASS_" ++ name
  | .classEnd name => "CLASS_END_" ++ name
  | .method id name => "fcn_" ++ id.text ++ "_" ++ name
  | .runtimeMethod name class_ => name ++ "_" ++ class_
  | .strLit e => "strLit_" ++ e.text
  | .skip e => "skip_" ++ e.text
  | .ifElse s => "if_else_" ++ s.text
  | .ifDone s => "if_done_" ++ s.text
  | .whileTop s => "while_top_" ++ s.text
  | .whileEnter s => "while_enter_" ++ s.text
  | .breakTarget s => "break_target_" ++ s.text
  | .runtime routine => routine.text

/-- The directive that switches to a segment. -/
def Segment.text : Segment → String
  | .data => ".data"
  | .code => ".text"

/-- The operand of a data word. -/
def DataWord.text : DataWord → String
  | .int n => toString n
  | .label l => l.text

/-- The mnemonic of an operation. -/
def AluOp.text : AluOp → String
  | .addu => "addu"
  | .subu => "subu"
  | .seq => "seq"
  | .slt => "slt"
  | .sgt => "sgt"

/-- The mnemonic of a branch. -/
def BranchOp.text : BranchOp → String
  | .beq => "beq"
  | .bne => "bne"
  | .bgeu => "bgeu"

namespace Inst

/-- The three octal digits of a byte. -/
def octal (b : UInt8) : List Char :=
  [b.toNat / 64, b.toNat / 8 % 8, b.toNat % 8].map Nat.digitChar

/-- How one byte of a string literal is written.  Only printable ASCII stands for itself, and of
that the quote and the backslash do not. -/
def asciiByte (b : UInt8) : List Char :=
  if b = 0x22 then ['\\', '"']
  else if b = 0x5c then ['\\', '\\']
  else if b = 0x0a then ['\\', 'n']
  else if b = 0x09 then ['\\', 't']
  else if 0x20 ≤ b ∧ b ≤ 0x7e then [Char.ofNat b.toNat]
  else '\\' :: octal b

/-- The bytes of a string literal between its quotes. -/
def asciiText (text : String) : String :=
  String.ofList (text.toUTF8.data.toList.flatMap asciiByte)

/-- A memory operand; a zero offset is left out. -/
def memoryText (offset : Int) (base : Reg) : String :=
  (if offset = 0 then "" else toString offset) ++ "(" ++ base.text ++ ")"

/-- A mnemonic with its operands. -/
def form (mnemonic : String) (operands : List String) : String :=
  mnemonic ++ " " ++ String.intercalate ", " operands

/-- The instruction as the assembler reads it. -/
def text : Inst → String
  | .label l => l.text ++ ":"
  | .segment s => s.text
  | .globl l => form ".globl" [l.text]
  | .word w => form ".word" [w.text]
  | .ascii s => form ".ascii" ["\"" ++ asciiText s ++ "\""]
  | .align n => form ".align" [toString n]
  | .li rd imm => form "li" [rd.text, toString imm]
  | .la rd l => form "la" [rd.text, l.text]
  | .lw rt offset base => form "lw" [rt.text, memoryText offset base]
  | .sw rt offset base => form "sw" [rt.text, memoryText offset base]
  | .adduImm rd rs imm => form "addu" [rd.text, rs.text, toString imm]
  | .subuImm rd rs imm => form "subu" [rd.text, rs.text, toString imm]
  | .xorImm rd rs imm => form "xor" [rd.text, rs.text, toString imm]
  | .sll rd rs amount => form "sll" [rd.text, rs.text, toString amount]
  | .alu op rd rs rt => form op.text [rd.text, rs.text, rt.text]
  | .mult rs rt => form "mult" [rs.text, rt.text]
  | .mflo rd => form "mflo" [rd.text]
  | .branch op rs rt l => form op.text [rs.text, rt.text, l.text]
  | .j l => form "j" [l.text]
  | .jal l => form "jal" [l.text]
  | .jalr rs => form "jalr" [rs.text]
  | .jr rs => form "jr" [rs.text]
  | .syscall => "syscall"

end Inst

/-- A line without its newline, annotated with its source on demand. -/
def Line.text (annotate : Bool) (line : Line) : String :=
  (if line.inst.isFlushLeft then "" else "\t") ++ line.inst.text
    ++ (if annotate && !line.span.isDummy then "\t# " ++ line.span.text else "")

/-- The text of some code. -/
def Code.text (annotate : Bool) (code : Code) : String :=
  String.join (code.map fun line => line.text annotate ++ "\n")

theorem Code.text_append (annotate : Bool) (c d : Code) :
    text annotate (c ++ d) = text annotate c ++ text annotate d := by
  simp [text]

end MipsBackend
