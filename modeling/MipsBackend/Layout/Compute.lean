import MipsBackend.Assembly.Symbol
import MipsBackend.Layout.Basic
import MipsBackend.Program.Hierarchy

/-!
# The layout pass

Classes are laid out in preorder.  Each starts from its superclass's layout, so inherited offsets
and slots never move and siblings do not see each other.  A class's record is followed by those of
its descendants before its end label, so the labels of a class enclose exactly the records of its
subclasses.  After the records come the string literals.
-/

namespace MipsBackend

/-- A step of the pass, which records entries as it goes. -/
abbrev LayoutM := StateT Layout (Except Fault)

namespace LayoutM

/-- Writes the layout of a class. -/
def recordClass (id : ClassId) (cl : ClassLayout) : LayoutM Unit := do
  let l ← get
  set { l with classes := ← record l.classes id cl }

/-- Writes the layout of a method. -/
def recordMethod (id : MethodId) (m : MethodLayout) : LayoutM Unit := do
  let l ← get
  set { l with methods := ← record l.methods id m }

/-- Writes the offset of a variable. -/
def recordVar (id : VarId) (offset : Int) : LayoutM Unit := do
  let l ← get
  set { l with vars := ← record l.vars id offset }

end LayoutM

/-- The offset of the first scalar field; the words above it are the object's header. -/
def firstScalarOffset : Int := -16

/-- The offset of the first reference field. -/
def firstReferenceOffset : Int := 0

namespace Layout

/-- Gives an instance variable the next word of its region.  Scalars grow downward, references
upward. -/
def placeField (p : Program) (cl : ClassLayout) (var : VarId) : LayoutM ClassLayout := do
  let decl ← p.varAt var
  if decl.ty.isScalar then
    LayoutM.recordVar var
      (← Offset.sub firstScalarOffset (← Offset.mul cl.numScalar wordSize))
    return { cl with numScalar := cl.numScalar + 1 }
  else
    LayoutM.recordVar var
      (← Offset.add firstReferenceOffset (← Offset.mul cl.numReference wordSize))
    return { cl with numReference := cl.numReference + 1 }

/-- Gives the formal parameters their offsets, the first one highest, and returns the offset of the
receiver above them.  A scalar is addressed by its data word, the lower one of its two. -/
def placeFormals (p : Program) (formals : List VarId) : LayoutM Int := do
  let tys ← formals.mapM fun v => do return (← p.varAt v).ty
  let words ← Offset.sum (tys.map Ty.words)
  let receiverOffset ← Offset.mul (← Offset.add 1 words) wordSize
  let _ ← (formals.zip tys).foldlM
    (fun above (formal, ty) => do
      let offset ← Offset.sub above ty.stackBytes
      LayoutM.recordVar formal offset
      return offset)
    receiverOffset
  return receiverOffset

/-- The slot of a method and the dispatch table with the method in it.  An overriding method takes
the place of the overridden one, which must be there.  Any other method opens a new slot, and no
ancestor may declare its name. -/
def assignSlot (p : Program) (c : ClassId) (id : MethodId) (decl : MethodDecl)
    (vtable : List MethodId) : LayoutM (Nat × List MethodId) := do
  match decl.overridden with
  | some overridden =>
    let slot := (← (← get).methodAt overridden).slot
    let holder := vtable[slot - 1]?
    if holder = some overridden then
      return (slot, vtable.set (slot - 1) id)
    else
      let holderName ← holder.mapM fun m => do return (← p.methodAt m).name
      defect (.slotMismatch decl.name (← p.methodAt overridden).name slot (← p.classAt c).name
        holderName)
  | none =>
    match ← p.inheritedMethod c decl.name with
    | some shadowed =>
      let className := (← p.classAt c).name
      let owner := (← p.methodAt shadowed).owner
      defect (.missingOverride decl.name className (← p.classAt owner).name)
    | none => return (vtable.length + 1, vtable ++ [id])

/-- Lays out a method of a class and returns the class's dispatch table with the method in it. -/
def placeMethod (p : Program) (c : ClassId) (vtable : List MethodId) (id : MethodId) :
    LayoutM (List MethodId) := do
  let decl ← p.methodAt id
  let receiverOffset ← placeFormals p decl.formals
  let (slot, vtable) ← assignSlot p c id decl vtable
  LayoutM.recordMethod id { slot, receiverOffset }
  return vtable

/-- The superclass word and the dispatch table of a class record. -/
def recordBody (p : Program) (superclass : Option ClassId) (cl : ClassLayout) :
    Except Fault (List Inst) := do
  let superWord ←
    match superclass with
    | some s => do pure (DataWord.label (.classStart (← p.classAt s).name))
    | none => pure (DataWord.int 0)
  let table ← cl.vtable.mapM fun m => do return Inst.word (.label (← p.methodLabel m))
  return .word superWord :: table

/-- The records of the array classes, which are subclasses of the root class and share its
table. -/
def arrayRecords (p : Program) (root : Option ClassId) (cl : ClassLayout) :
    Except Fault (List Inst) := do
  let body ← recordBody p root cl
  return [scalarArrayRecord, referenceArrayRecord].flatMap fun name =>
    .label (.classStart name) :: body ++ [.label (.classEnd name)]

mutual

/-- Lays out a class and its descendants and returns their records. -/
def visit (p : Program) (inherited : ClassLayout) : ClassTree → LayoutM Code
  | .broken _ fault => throw fault
  | .node id decl subclasses => do
    let fields ← decl.instVars.foldlM (placeField p) inherited
    let vtable ← decl.methods.methods.foldlM (placeMethod p id) fields.vtable
    let cl := { fields with vtable }
    let body ← recordBody p decl.superclass cl
    let descendants ← visitAll p cl subclasses
    let arrays ← if decl.superclass.isNone then arrayRecords p (some id) cl else pure []
    LayoutM.recordClass id cl
    return Code.of decl.span (.label (.classStart decl.name) :: body)
      ++ descendants
      ++ Code.of decl.span (arrays ++ [.label (.classEnd decl.name)])

/-- Lays out sibling classes, all from the same inherited layout. -/
def visitAll (p : Program) (inherited : ClassLayout) : List (Unit → ClassTree) → LayoutM Code
  | [] => pure []
  | tree :: trees => do
    let code ← visit p inherited (tree ())
    return code ++ (← visitAll p inherited trees)

end

/-- A string literal as an array in the data segment: its class record, its size as the allocator
would write it, its length in bytes and the characters. -/
def stringLiteral (record : String) (id : ExprId) (text : String) : Except Fault (List Inst) := do
  let length := (Int32.ofNat text.utf8ByteSize).toInt
  let words := (← Offset.sub (← Offset.add length wordSize) 1).tdiv wordSize
  return [
    .word (.label (.classStart record)),
    .word (.int (← Offset.neg words)),
    .word (.int length),
    .label (.strLit id),
    .ascii text,
    .align 2]

/-- A literal can be written if a word more than its length fits: the other numbers are smaller. -/
theorem stringLiteral_eq_ok_iff {record text : String} {id : ExprId} {insts : List Inst} :
    stringLiteral record id text = .ok insts ↔
      Offset.Fits ((Int32.ofNat text.utf8ByteSize).toInt + wordSize) ∧ insts = [
        .word (.label (.classStart record)),
        .word (.int (-((Int32.ofNat text.utf8ByteSize).toInt + wordSize - 1).tdiv wordSize)),
        .word (.int (Int32.ofNat text.utf8ByteSize).toInt),
        .label (.strLit id),
        .ascii text,
        .align 2] := by
  generalize hlength : (Int32.ofNat text.utf8ByteSize).toInt = length
  have hlow : -0x80000000 ≤ length := hlength ▸ Int32.le_toInt _
  have hwords : ((length + wordSize - 1).tdiv wordSize).natAbs =
      (length + wordSize - 1).natAbs / 4 := Int.natAbs_tdiv _ _
  simp only [stringLiteral, hlength, bind_eq_ok_iff, pure_eq_ok_iff, Offset.add, Offset.sub,
    Offset.neg, Offset.checked_eq_ok_iff, Offset.Fits, wordSize] at hwords ⊢
  constructor
  · rintro ⟨_, ⟨hfits, rfl⟩, _, ⟨_, rfl⟩, _, ⟨_, rfl⟩, rfl⟩
    exact ⟨hfits, rfl⟩
  · rintro ⟨hfits, rfl⟩
    exact ⟨_, ⟨hfits, rfl⟩, _, ⟨by omega, rfl⟩, _, ⟨by omega, rfl⟩, rfl⟩

/-- The string literals of a program. -/
def stringLiterals (p : Program) : Except Fault Code := do
  let record ←
    match p.stringClass with
    | some c => do pure (← p.classAt c).name
    | none => pure scalarArrayRecord
  let literals ← p.stringLiterals.mapM fun (id, expr, text) => do
    return Code.of expr.span (← stringLiteral record id text)
  return literals.flatten

/-- The classes of a program, laid out from the root.  Without a class there are still the records
of arrays. -/
def classRecords (p : Program) : LayoutM Code := do
  match ← p.rootClass with
  | some root => visit p .root (p.classTree root)
  | none => return Code.of .dummy (← arrayRecords p none .root)

/-- Runs the layout pass.  The result is the layout and the data segment; it is a defect if a class
was not reached from the root. -/
def compute (p : Program) : Except Fault (Layout × Code) := do
  let (records, layout) ← (classRecords p).run (blank p)
  let literals ← stringLiterals p
  match p.classes.toList.zip layout.classes.toList |>.find? (·.2.isNone) with
  | some (decl, _) => defect (.detachedClass decl.name)
  | none => return (layout, Code.of .dummy [.segment .data] ++ records ++ literals)

end Layout

end MipsBackend
