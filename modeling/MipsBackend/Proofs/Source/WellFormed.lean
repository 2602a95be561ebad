import MipsBackend.Proofs.Code.Peaks
import MipsBackend.Proofs.Layout.Dispatch
import MipsBackend.Proofs.Machine.Stack
import MipsBackend.Proofs.Source.Statements

/-!
# Well-formed programs

A compiler that trusts its input needs to be told what it may trust.  `Program.WellFormed` collects
it: the two records of the hierarchy agree, declarations and their owners refer to each other, every
body is word-typed, resolved and well-scoped, and nothing is too large for the 32-bit words that
offsets are kept in.

All conditions can be evaluated on a program, by `Decidable` instances for statements about all
nodes of an arena.
-/

namespace MipsBackend

/-! ## Deciding statements about arenas -/

/-- A statement about all nodes of an arena can be checked position by position. -/
instance decidableForallLookup {α : Type} {sort : NodeSort} (arena : Array α)
    (P : NodeId sort → α → Prop) [∀ id node, Decidable (P id node)] :
    Decidable (∀ id node, lookup arena id = .ok node → P id node) :=
  decidable_of_iff
      (∀ entry ∈ arena.toList.zipIdx, entry.2 < 2 ^ 32 → P (.ofNat entry.2) entry.1) <| by
    constructor
    · intro h id node hnode
      have hmem : (node, id.toNat) ∈ arena.toList.zipIdx := by
        rw [List.mk_mem_zipIdx_iff_getElem?, Array.getElem?_toList]
        exact lookup_eq_ok_iff.1 hnode
      simpa using h _ hmem id.toNat_lt
    · rintro h ⟨node, i⟩ hmem hlt
      rw [List.mk_mem_zipIdx_iff_getElem?, Array.getElem?_toList] at hmem
      refine h _ node (lookup_eq_ok_iff.2 ?_)
      rw [NodeId.toNat_ofNat hlt]
      exact hmem

namespace Program

variable (p : Program)

instance (P : ClassId → ClassDecl → Prop) [∀ id decl, Decidable (P id decl)] :
    Decidable (∀ id decl, p.classAt id = .ok decl → P id decl) :=
  decidableForallLookup p.classes P

instance (P : MethodId → MethodDecl → Prop) [∀ id decl, Decidable (P id decl)] :
    Decidable (∀ id decl, p.methodAt id = .ok decl → P id decl) :=
  decidableForallLookup p.methods P

instance (P : VarId → VarDecl → Prop) [∀ id decl, Decidable (P id decl)] :
    Decidable (∀ id decl, p.varAt id = .ok decl → P id decl) :=
  decidableForallLookup p.vars P

/-! ## Declarations -/

end Program

/-- The variable belongs to the objects of a class. -/
def VarKind.isInstVar : VarKind → Bool
  | .instVar _ => true
  | _ => false

namespace Program

variable (p : Program)

/-- The class is one of the program. -/
def hasClass (c : ClassId) : Bool :=
  c.toNat < p.classes.size

variable {p} in
theorem hasClass_iff {c : ClassId} : p.hasClass c ↔ ∃ decl, p.classAt c = .ok decl := by
  rw [hasClass, decide_eq_true_iff]
  constructor
  · exact fun h => ⟨p.classes[c.toNat], lookup_eq_ok_iff.2 (Array.getElem?_eq_getElem h)⟩
  · rintro ⟨decl, hdecl⟩
    exact (Array.getElem?_eq_some_iff.1 (lookup_eq_ok_iff.1 hdecl)).1

/-- What a variable is, if there is such a variable. -/
def kindOf (x : VarId) : Option VarKind :=
  match p.varAt x with
  | .ok decl => some decl.kind
  | .error _ => none

variable {p} in
theorem exists_varAt {x : VarId} {kind : VarKind} (h : p.kindOf x = some kind) :
    ∃ decl, p.varAt x = .ok decl ∧ decl.kind = kind := by
  rw [kindOf] at h
  split at h
  · rename_i decl hdecl
    exact ⟨decl, hdecl, Option.some.inj h⟩
  · cases h

/-- The instance variables that a class declares; a class that does not exist has none. -/
def instVarsOf (c : ClassId) : List VarId :=
  match p.classAt c with
  | .ok decl => decl.instVars
  | .error _ => []

/-- A variable is listed by its owner; a local variable has none. -/
def lists (x : VarId) : VarKind → Bool
  | .instVar c => x ∈ p.instVarsOf c
  | .formal m => x ∈ Layout.formalsOf p m
  | .localVar _ => true

/-- Variables and their owners refer to each other: every instance variable and formal parameter is
listed by its owner, once, and owners list variables of their own only. -/
structure VarsLinked : Prop where
  instVars : ∀ c decl, p.classAt c = .ok decl →
    decl.instVars.Nodup ∧ ∀ x ∈ decl.instVars, p.kindOf x = some (.instVar c)
  formals : ∀ m decl, p.methodAt m = .ok decl →
    decl.formals.Nodup ∧ ∀ x ∈ decl.formals, p.kindOf x = some (.formal m)
  listed : ∀ x decl, p.varAt x = .ok decl → p.lists x decl.kind

/-- The variables that are not local to a block. -/
def globals : List VarId :=
  ((List.range p.vars.size).map NodeId.ofNat).filter fun x => !p.isLocal x

end Program

/-! ## Bodies -/

/-- The classes that the type names are classes of the program. -/
def Ty.isIn (p : Program) : Ty → Bool
  | .object c => p.hasClass c
  | .array elem => elem.isIn p
  | _ => true

/-- The class of a value can be tested against the type. -/
def Ty.isTestable : Ty → Bool
  | .object _ | .array _ => true
  | _ => false

namespace ExprTree

/-- The check that a cast makes is left out, since it never fails. -/
def isUpcast (p : Program) (ty : Ty) (operand : ExprTree) : Bool :=
  match p.isSubtype operand.ty ty with
  | .ok b => b
  | .error _ => false

mutual

/-- Whatever the expression refers to is there and of the right sort: fields are instance variables,
classes are classes of the program, and array types and testable types stand where their records are
needed. -/
def isResolved (p : Program) : ExprTree → Bool
  | .broken _ _ => false
  | .int _ _ | .str _ _ | .bool _ _ | .null _ | .this _ | .super _ | .ident _ _ => true
  | .not _ e | .arrayLength _ e => (e ()).isResolved p
  | .binary _ _ lhs rhs => (lhs ()).isResolved p && (rhs ()).isResolved p
  | .index _ array i => (array ()).isResolved p && (i ()).isResolved p
  | .field _ object x => (p.kindOf x).any VarKind.isInstVar && (object ()).isResolved p
  | .instanceOf _ e ty => ty.isIn p && ty.isTestable && (e ()).isResolved p
  | .cast _ ty e =>
    ty.isIn p && (e ()).ty.isIn p && (isUpcast p ty (e ()) || ty.isTestable)
      && (e ()).isResolved p
  | .new _ c => p.hasClass c
  | .newArray info _ size => info.ty.elem?.isSome && (size ()).isResolved p
  | .call _ receiver _ args => (receiver ()).isResolved p && isResolvedAll p args

/-- All of some expressions are resolved. -/
def isResolvedAll (p : Program) : List (Unit → ExprTree) → Bool
  | [] => true
  | e :: es => (e ()).isResolved p && isResolvedAll p es

end

theorem isResolvedAll_iff {p : Program} {es : List (Unit → ExprTree)} :
    isResolvedAll p es ↔ ∀ e ∈ es, (e ()).isResolved p := by
  induction es with
  | nil => simp [isResolvedAll]
  | cons e es ih => simp [isResolvedAll, ih]

/-- The expression stands for a place that can be assigned to. -/
def isAssignable : ExprTree → Bool
  | .ident _ _ | .field _ _ _ | .index _ _ _ => true
  | _ => false

end ExprTree

namespace StmtTree

mutual

/-- The expressions of the statement are resolved, declarations declare local variables, and
assignments have a target. -/
def isResolved (p : Program) : StmtTree → Bool
  | .broken _ _ => false
  | .block _ stmts => isResolvedAll p stmts
  | .localVar _ x init => p.isLocal x && init.isResolved p
  | .call _ expr => expr.isResolved p
  | .assign _ target value => target.isAssignable && target.isResolved p && value.isResolved p
  | .ifThen _ cond thenStmt => cond.isResolved p && (thenStmt ()).isResolved p
  | .ifElse _ cond thenStmt elseStmt =>
    cond.isResolved p && (thenStmt ()).isResolved p && (elseStmt ()).isResolved p
  | .whileLoop _ cond body => cond.isResolved p && (body ()).isResolved p
  | .breakFrom _ _ => true

/-- All of some statements are resolved. -/
def isResolvedAll (p : Program) : List (Unit → StmtTree) → Bool
  | [] => true
  | s :: ss => (s ()).isResolved p && isResolvedAll p ss

end

theorem isResolvedAll_iff {p : Program} {ss : List (Unit → StmtTree)} :
    isResolvedAll p ss ↔ ∀ s ∈ ss, (s ()).isResolved p := by
  induction ss with
  | nil => simp [isResolvedAll]
  | cons s ss ih => simp [isResolvedAll, ih]

end StmtTree

/-! ## Sizes -/

namespace Program

variable (p : Program)

/-- The types of the fields that some classes declare. -/
def fieldTys (cs : List ClassId) : List Ty :=
  cs.flatMap fun c => (p.instVarsOf c).map p.varTy

/-- The offset of the lowest word of an object with the fields of some classes.  Below the object
lie its header and its scalar fields. -/
def lowestOffset (cs : List ClassId) : Int :=
  firstScalarOffset + wordSize - (p.fieldTys cs).countP Ty.isScalar * wordSize

/-- The offset of the highest word of an object with the fields of some classes. -/
def highestOffset (cs : List ClassId) : Int :=
  firstReferenceOffset - wordSize + (p.fieldTys cs).countP (!·.isScalar) * wordSize

/-- The methods that a class lists; a class that does not exist lists none. -/
def listedMethods (c : ClassId) : List MethodId :=
  match p.classAt c with
  | .ok decl => decl.methods.methods
  | .error _ => []

/-- A method that overrides no other has a slot of its own. -/
def opensSlot (m : MethodId) : Bool :=
  match p.methodAt m with
  | .ok decl => decl.overridden.isNone
  | .error _ => false

/-- How many slots a dispatch table has for the methods that some classes list. -/
def slotCount (cs : List ClassId) : Nat :=
  (cs.flatMap p.listedMethods).countP p.opensSlot

/-- How far above the frame the receiver of a method lies. -/
def receiverOffset (decl : MethodDecl) : Int :=
  wordSize + p.argumentBytes decl

theorem receiverOffset_eq (decl : MethodDecl) :
    p.receiverOffset decl = (1 + Ty.frameWords (decl.formals.map p.varTy)) * wordSize := by
  have hbytes : p.argumentBytes decl = Ty.frameWords (decl.formals.map p.varTy) * wordSize := by
    rw [← sum_stackBytes, List.map_map]
    rfl
  rw [receiverOffset, hbytes, Int.add_mul, Int.one_mul]

theorem receiverOffset_nonneg (decl : MethodDecl) : 0 ≤ p.receiverOffset decl := by
  have hwords := frameWords_nonneg (decl.formals.map p.varTy)
  rw [receiverOffset_eq, wordSize]
  omega

/-- How far above the frame a variable may lie: formal parameters lie below the receiver of their
method. -/
def varReach (x : VarId) : Int :=
  match p.kindOf x with
  | some (.formal m) =>
    match p.methodAt m with
    | .ok decl => p.receiverOffset decl
    | .error _ => 0
  | _ => 0

end Program

namespace Body

/-- How much of the stack an activation has in use when the body starts: the receiver, the arguments
and the word that the prologue saves. -/
def base (p : Program) : Body → Int
  | .entry => 0
  | .method m =>
    match p.methodAt m with
    | .ok decl => p.receiverOffset decl + wordSize
    | .error _ => 0

/-- The variables that the body names. -/
def reads (p : Program) (b : Body) : List VarId :=
  StmtTree.readsAll (b.stmts p) ++ (b.result? p).elim [] ExprTree.reads

/-- Whatever the body refers to is there and of the right sort. -/
def isResolved (p : Program) (b : Body) : Bool :=
  StmtTree.isResolvedAll p (b.stmts p) && (b.result? p).all (·.isResolved p)

/-- Local variables are named in their block, behind the declaration, and loops are left from
inside.  The result of a method stands at the end of the outermost block. -/
def isScoped (p : Program) (b : Body) : Bool :=
  StmtTree.isScopedAll [] p.globals (b.stmts p) &&
    (b.result? p).all (·.isScoped (StmtTree.scopeAfterAll p.globals (b.stmts p)))

/-- The activation of the body is small enough for 32-bit offsets: the stack can be as high as it
gets, in the end all of the activation can be addressed, and the variables that the body names can
be addressed from everywhere in it.  The last is more than code generation asks for, which addresses
a variable only from the heights at which the body names it. -/
def FitsStack (p : Program) (b : Body) : Prop :=
  Offset.Fits (b.peak p) ∧ Offset.Fits (b.base p + b.leftBytes p) ∧
    ∀ x ∈ b.reads p, Offset.Fits (b.peak p + p.varReach x)

instance (p : Program) (b : Body) : Decidable (b.FitsStack p) :=
  inferInstanceAs (Decidable (_ ∧ _ ∧ _))

/-- Code can be generated for the body. -/
structure WellFormed (p : Program) (b : Body) : Prop where
  typed : b.isWordTyped p
  resolved : b.isResolved p
  inScope : b.isScoped p
  /-- Every local variable is declared once. -/
  declared_nodup : (StmtTree.declaresAll (b.stmts p)).Nodup
  nodes_nodup : (b.nodes p).Nodup
  small : b.FitsStack p

instance (p : Program) (b : Body) : Decidable (b.WellFormed p) :=
  decidable_of_iff (b.isWordTyped p ∧ b.isResolved p ∧ b.isScoped p ∧
      (StmtTree.declaresAll (b.stmts p)).Nodup ∧ (b.nodes p).Nodup ∧ b.FitsStack p)
    ⟨fun ⟨h, h', h'', h₁, h₂, h₃⟩ => ⟨h, h', h'', h₁, h₂, h₃⟩,
      fun ⟨h, h', h'', h₁, h₂, h₃⟩ => ⟨h, h', h'', h₁, h₂, h₃⟩⟩

end Body

/-! ## Programs -/

/-- A program that the compiler may trust. -/
structure Program.WellFormed (p : Program) : Prop where
  tree : p.IsClassTree
  /-- No class lists a subclass twice. -/
  subclasses_nodup : ∀ c decl, p.classAt c = .ok decl → decl.subclasses.Nodup
  methods : p.MethodsLinked
  /-- A method overrides the nearest method of its name that a strict ancestor declares. -/
  overridden : ∀ m decl, p.methodAt m = .ok decl →
    p.inheritedMethod decl.owner decl.name = .ok decl.overridden
  /-- Exactly the methods of the program that are not void have a result. -/
  results : ∀ m decl, p.methodAt m = .ok decl →
    decl.result.isSome = (decl.origin.isUser && !decl.isVoid)
  vars : p.VarsLinked
  entry : Body.entry.WellFormed p
  bodies : ∀ m decl, p.methodAt m = .ok decl → decl.origin.isUser →
    (Body.method m).WellFormed p
  stringClass : p.stringClass.all p.hasClass
  /-- Every position in the arenas of classes and of expressions is an identifier. -/
  classes_small : p.classes.size ≤ 2 ^ 32
  exprs_small : p.exprs.size ≤ 2 ^ 32
  objects_small : ∀ c decl, p.classAt c = .ok decl →
    Offset.Fits (p.lowestOffset (c :: (p.lineage c).ancestors)) ∧
      Offset.Fits (p.highestOffset (c :: (p.lineage c).ancestors))
  /-- Every slot of a dispatch table has an offset. -/
  tables_small : ∀ c decl, p.classAt c = .ok decl →
    Offset.Fits (p.slotCount (c :: (p.lineage c).ancestors) * wordSize)
  formals_small : ∀ m decl, p.methodAt m = .ok decl → Offset.Fits (p.receiverOffset decl)
  /-- A word can be added to the length of every string literal. -/
  literals_small : ∀ literal ∈ p.stringLiterals,
    Offset.Fits (literal.2.2.utf8ByteSize + wordSize)

theorem wellFormed_shapes : shapes.WellFormed where
  tree := isClassTree_shapes
  subclasses_nodup := by decide
  methods := Program.methodsLinked_of_listsMethods (by decide)
  overridden := by decide
  results := by decide
  vars := ⟨by decide, by decide, by decide⟩
  entry := by decide +kernel
  bodies := by decide +kernel
  stringClass := by decide
  classes_small := by decide
  exprs_small := by decide
  objects_small := by decide +kernel
  tables_small := by decide +kernel
  formals_small := by decide +kernel
  literals_small := by decide +kernel

end MipsBackend
