import MipsBackend.Program.Lookup

/-!
# Expression trees

Passes that follow an expression into its operands work on a tree, in which every operand stands in
place of its position.  `Program.exprTree` unfolds one from the arenas.  A position that cannot be
followed becomes a *broken* leaf that holds the fault; it does no harm unless a pass comes to it.

An expression that is reached twice is unfolded twice, so a few shared expressions can make a huge
tree.  Hence operands are functions of `Unit`: a tree is unfolded only as far as a pass follows it.

Induction on trees goes by `ExprTree.induct`, which gives the hypothesis for every argument of a
call.
-/

namespace MipsBackend

/-- What every expression has: its position, source and type. -/
structure ExprInfo where
  id : ExprId
  span : Span
  ty : Ty
deriving DecidableEq

/-- An expression with its operands in place. -/
inductive ExprTree where
  | broken (id : ExprId) (fault : Fault)
  | int (info : ExprInfo) (value : Int32)
  | str (info : ExprInfo) (value : String)
  | bool (info : ExprInfo) (value : Bool)
  | null (info : ExprInfo)
  | this (info : ExprInfo)
  | super (info : ExprInfo)
  | ident (info : ExprInfo) (var : VarId)
  | not (info : ExprInfo) (operand : Unit → ExprTree)
  | binary (info : ExprInfo) (op : BinOp) (lhs rhs : Unit → ExprTree)
  | arrayLength (info : ExprInfo) (array : Unit → ExprTree)
  | index (info : ExprInfo) (array index : Unit → ExprTree)
  | field (info : ExprInfo) (object : Unit → ExprTree) (field : VarId)
  | instanceOf (info : ExprInfo) (operand : Unit → ExprTree) (ty : Ty)
  | cast (info : ExprInfo) (ty : Ty) (operand : Unit → ExprTree)
  | new (info : ExprInfo) (class_ : ClassId)
  | newArray (info : ExprInfo) (elem : Ty) (size : Unit → ExprTree)
  | call (info : ExprInfo) (receiver : Unit → ExprTree) (method : MethodId)
    (args : List (Unit → ExprTree))

namespace ExprTree

/-- Structural induction, with the hypothesis for every argument of a call. -/
@[induction_eliminator]
theorem induct {motive : ExprTree → Prop}
    (broken : ∀ id fault, motive (.broken id fault))
    (int : ∀ info value, motive (.int info value))
    (str : ∀ info value, motive (.str info value))
    (bool : ∀ info value, motive (.bool info value))
    (null : ∀ info, motive (.null info))
    (this : ∀ info, motive (.this info))
    (super : ∀ info, motive (.super info))
    (ident : ∀ info var, motive (.ident info var))
    (not : ∀ info operand, motive (operand ()) → motive (.not info operand))
    (binary : ∀ info op lhs rhs, motive (lhs ()) → motive (rhs ()) →
      motive (.binary info op lhs rhs))
    (arrayLength : ∀ info array, motive (array ()) → motive (.arrayLength info array))
    (index : ∀ info array index, motive (array ()) → motive (index ()) →
      motive (.index info array index))
    (field : ∀ info object var, motive (object ()) → motive (.field info object var))
    (instanceOf : ∀ info operand ty, motive (operand ()) → motive (.instanceOf info operand ty))
    (cast : ∀ info ty operand, motive (operand ()) → motive (.cast info ty operand))
    (new : ∀ info c, motive (.new info c))
    (newArray : ∀ info elem size, motive (size ()) → motive (.newArray info elem size))
    (call : ∀ info receiver method args, motive (receiver ()) →
      (∀ arg ∈ args, motive (arg ())) → motive (.call info receiver method args)) :
    ∀ e, motive e :=
  ExprTree.rec (motive_1 := motive) (motive_2 := fun args => ∀ arg ∈ args, motive (arg ()))
    broken int str bool null this super ident
    (fun _ _ h => not _ _ (h ())) (fun _ _ _ _ h h' => binary _ _ _ _ (h ()) (h' ()))
    (fun _ _ h => arrayLength _ _ (h ())) (fun _ _ _ h h' => index _ _ _ (h ()) (h' ()))
    (fun _ _ _ h => field _ _ _ (h ())) (fun _ _ _ h => instanceOf _ _ _ (h ()))
    (fun _ _ _ h => cast _ _ _ (h ())) new (fun _ _ _ h => newArray _ _ _ (h ()))
    (fun _ _ _ _ h hs => call _ _ _ _ (h ()) hs)
    (by simp) (fun _ _ h hs => by simpa using ⟨h (), hs⟩)

/-- The position of the expression. -/
def id : ExprTree → ExprId
  | broken id _ => id
  | int info _ | str info _ | bool info _ | null info | this info | super info | ident info _
  | not info _ | binary info _ _ _ | arrayLength info _ | index info _ _ | field info _ _
  | instanceOf info _ _ | cast info _ _ | new info _ | newArray info _ _ | call info _ _ _ =>
    info.id

/-- The static type; a broken leaf has no value. -/
def ty : ExprTree → Ty
  | broken _ _ => .void
  | int info _ | str info _ | bool info _ | null info | this info | super info | ident info _
  | not info _ | binary info _ _ _ | arrayLength info _ | index info _ _ | field info _ _
  | instanceOf info _ _ | cast info _ _ | new info _ | newArray info _ _ | call info _ _ _ =>
    info.ty

/-- The source of the expression; a broken leaf has none. -/
def span : ExprTree → Span
  | broken _ _ => .dummy
  | int info _ | str info _ | bool info _ | null info | this info | super info | ident info _
  | not info _ | binary info _ _ _ | arrayLength info _ | index info _ _ | field info _ _
  | instanceOf info _ _ | cast info _ _ | new info _ | newArray info _ _ | call info _ _ _ =>
    info.span

/-- The form of the expression, children by position; a broken leaf has none. -/
def kind? : ExprTree → Except Fault ExprKind
  | broken _ fault => .error fault
  | int _ value => .ok (.int value)
  | str _ value => .ok (.str value)
  | bool _ value => .ok (.bool value)
  | null _ => .ok .null
  | this _ => .ok .this
  | super _ => .ok .super
  | ident _ var => .ok (.ident var)
  | not _ operand => .ok (.not (operand ()).id)
  | binary _ op lhs rhs => .ok (.binary op (lhs ()).id (rhs ()).id)
  | arrayLength _ array => .ok (.arrayLength (array ()).id)
  | index _ array i => .ok (.index (array ()).id (i ()).id)
  | field _ object var => .ok (.field (object ()).id var)
  | instanceOf _ operand ty => .ok (.instanceOf (operand ()).id ty)
  | cast _ ty operand => .ok (.cast ty (operand ()).id)
  | new _ c => .ok (.new c)
  | newArray _ elem size => .ok (.newArray elem (size ()).id)
  | call _ receiver method args =>
    .ok (.call (receiver ()).id method (args.map fun arg => (arg ()).id))

/-- The expression stands for the receiver and skips the overriding method. -/
def isSuper : ExprTree → Bool
  | super _ => true
  | _ => false

end ExprTree

namespace Program

/-- Unfolds an expression to a depth of `bound`. -/
def unfoldExpr (p : Program) (bound : Nat) (id : ExprId) : ExprTree :=
  match p.exprAt id with
  | .error fault => .broken id fault
  | .ok e =>
    match bound with
    | 0 => .broken id .cyclic
    | bound + 1 =>
      let info := ⟨id, e.span, e.ty⟩
      let go := fun operand (_ : Unit) => unfoldExpr p bound operand
      match e.kind with
      | .int value => .int info value
      | .str value => .str info value
      | .bool value => .bool info value
      | .null => .null info
      | .this => .this info
      | .super => .super info
      | .ident var => .ident info var
      | .not operand => .not info (go operand)
      | .binary op lhs rhs => .binary info op (go lhs) (go rhs)
      | .arrayLength array => .arrayLength info (go array)
      | .index array index => .index info (go array) (go index)
      | .field object var => .field info (go object) var
      | .instanceOf operand ty => .instanceOf info (go operand) ty
      | .cast ty operand => .cast info ty (go operand)
      | .new c => .new info c
      | .newArray elem size => .newArray info elem (go size)
      | .call receiver method args => .call info (go receiver) method (args.map go)

@[simp] theorem id_unfoldExpr (p : Program) (bound : Nat) (id : ExprId) :
    (p.unfoldExpr bound id).id = id := by
  unfold unfoldExpr
  split
  · rfl
  · split
    · rfl
    · dsimp only
      split <;> rfl

/-- An expression with its operands in place.  No expression is deeper than there are any. -/
def exprTree (p : Program) (id : ExprId) : ExprTree :=
  p.unfoldExpr p.exprs.size id

end Program

end MipsBackend
