import MipsBackend.Program.Lookup

/-!
# The class hierarchy

The hierarchy is recorded twice: every class names its superclass and lists its subclasses.  Walking
up gives the *lineage* of a class, walking down its *class tree*.  Neither walk trusts the links: a
position outside the arena, or a walk that is longer than there are classes, shows in the result.
-/

namespace MipsBackend

/-- A walk along superclass links. -/
structure Lineage where
  /-- The strict ancestors that were reached, nearest first. -/
  ancestors : List ClassId
  /-- What stopped the walk before a root was reached. -/
  stop : Option Fault

/-- The first result among the ancestors.  If there is none, a walk that was stopped fails. -/
def Lineage.search {α : Type} (l : Lineage) (f : ClassId → Except Fault (Option α)) :
    Except Fault (Option α) := do
  match ← l.ancestors.findSomeM? f with
  | some a => return some a
  | none =>
    match l.stop with
    | some fault => throw fault
    | none => return none

/-- All ancestors, if a root was reached. -/
def Lineage.toList (l : Lineage) : Except Fault (List ClassId) :=
  match l.stop with
  | some fault => .error fault
  | none => .ok l.ancestors

/-- A class with all its descendants.  Where a node cannot be followed, the tree says why.
Subclasses are functions of `Unit`, so a tree is unfolded only as far as a walk follows it. -/
inductive ClassTree where
  | broken (id : ClassId) (fault : Fault)
  | node (id : ClassId) (decl : ClassDecl) (subclasses : List (Unit → ClassTree))

/-- Structural induction, with the hypothesis for every direct subclass. -/
@[induction_eliminator]
theorem ClassTree.induct {motive : ClassTree → Prop}
    (broken : ∀ id fault, motive (.broken id fault))
    (node : ∀ id decl subclasses, (∀ t ∈ subclasses, motive (t ())) →
      motive (.node id decl subclasses)) :
    ∀ t, motive t :=
  ClassTree.rec (motive_1 := motive) (motive_2 := fun trees => ∀ t ∈ trees, motive (t ()))
    broken node (by simp) (fun _ _ h hs => by simpa using ⟨h (), hs⟩)

/-- The class at the root of a tree. -/
def ClassTree.id : ClassTree → ClassId
  | .broken id _ => id
  | .node id _ _ => id

mutual

/-- The classes of a tree, each before its descendants, subclasses in order. -/
def ClassTree.preorder : ClassTree → Except Fault (List ClassId)
  | .broken _ fault => .error fault
  | .node id _ subclasses => do return id :: (← preorderAll subclasses)

/-- The classes of some trees, one tree after the other. -/
def ClassTree.preorderAll : List (Unit → ClassTree) → Except Fault (List ClassId)
  | [] => .ok []
  | tree :: trees => do return (← preorder (tree ())) ++ (← preorderAll trees)

end

namespace Program

/-- Follows at most `bound` superclass links. -/
def climb (p : Program) (bound : Nat) : Option ClassId → Lineage
  | none => ⟨[], none⟩
  | some c =>
    match p.classAt c with
    | .error fault => ⟨[], some fault⟩
    | .ok decl =>
      match bound with
      | 0 => ⟨[], some .cyclic⟩
      | bound + 1 =>
        let rest := climb p bound decl.superclass
        { rest with ancestors := c :: rest.ancestors }

/-- The lineage of a class. -/
def lineage (p : Program) (c : ClassId) : Lineage :=
  match p.classAt c with
  | .error fault => ⟨[], some fault⟩
  | .ok decl => p.climb p.classes.size decl.superclass

/-- The strict ancestors of a class, nearest first. -/
def superclasses (p : Program) (c : ClassId) : Except Fault (List ClassId) :=
  (p.lineage c).toList

/-- The root of the hierarchy, as reached from the first class. -/
def rootClass (p : Program) : Except Fault (Option ClassId) := do
  if p.classes.isEmpty then
    return none
  let first : ClassId := ⟨0⟩
  return some ((← p.superclasses first).getLast?.getD first)

/-- Whether `sub` is `sup` or one of its descendants. -/
def isSubclass (p : Program) (sub sup : ClassId) : Except Fault Bool := do
  if sub = sup then
    return true
  let found ← (p.lineage sub).search fun c => .ok (if c = sup then some c else none)
  return found.isSome

/-- Whether every value of type `sub` is known to be usable as a `sup`.  Arrays are instances of
the root class. -/
def isSubtype (p : Program) (sub sup : Ty) : Except Fault Bool :=
  if sub = sup then .ok true
  else
    match sub, sup with
    | .null, sup => .ok sup.isReference
    | .object c, .object d => p.isSubclass c d
    | .array _, .object d => do return (← p.classAt d).superclass.isNone
    | _, _ => .ok false

/-- Follows subclass links to a depth of `bound`. -/
def unfoldClass (p : Program) (bound : Nat) (id : ClassId) : ClassTree :=
  match p.classAt id with
  | .error fault => .broken id fault
  | .ok decl =>
    match bound with
    | 0 => .broken id .cyclic
    | bound + 1 => .node id decl (decl.subclasses.map fun c _ => unfoldClass p bound c)

@[simp] theorem id_unfoldClass (p : Program) (bound : Nat) (id : ClassId) :
    (p.unfoldClass bound id).id = id := by
  unfold unfoldClass
  split
  · rfl
  · split <;> rfl

/-- A class with all its descendants. -/
def classTree (p : Program) (id : ClassId) : ClassTree :=
  p.unfoldClass p.classes.size id

/-- A class and its descendants, each before its own, subclasses in order. -/
def preorder (p : Program) (id : ClassId) : Except Fault (List ClassId) :=
  (p.classTree id).preorder

/-- The method that a class itself declares under a name. -/
def ownMethod (p : Program) (c : ClassId) (name : String) : Except Fault (Option MethodId) := do
  return (← p.classAt c).methods.find? name

/-- The nearest method that a strict ancestor declares under a name. -/
def inheritedMethod (p : Program) (c : ClassId) (name : String) :
    Except Fault (Option MethodId) :=
  (p.lineage c).search fun d => p.ownMethod d name

/-- The method that a class answers a name with: its own, or else the nearest inherited one. -/
def lookupMethod (p : Program) (c : ClassId) (name : String) :
    Except Fault (Option MethodId) := do
  match ← p.ownMethod c name with
  | some m => return some m
  | none => p.inheritedMethod c name

/-- The string literals of the program with their positions, in order.  A position is a word: an
arena holds at most 2^32 expressions (`Program.WellFormed.exprs_small`). -/
def stringLiterals (p : Program) : List (ExprId × Expr × String) :=
  p.exprs.toList.zipIdx.filterMap fun (expr, i) =>
    match expr.kind with
    | .str text => some (NodeId.ofNat i, expr, text)
    | _ => none

/-- The methods that the program itself defines: class by class in preorder, each class's methods
as declared. -/
def userMethods (p : Program) : Except Fault (List MethodId) := do
  match ← p.rootClass with
  | none => return []
  | some root =>
    let declared ← (← p.preorder root).mapM fun c => do return (← p.classAt c).methods.methods
    declared.flatten.filterM fun m => do return (← p.methodAt m).origin.isUser

end Program

end MipsBackend
