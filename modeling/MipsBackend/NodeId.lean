/-!
# Node identifiers

Every declaration, statement and expression of a program lives in an arena and is referred to by
its position there.  A position is a 32-bit word; the sort of node it belongs to is part of its
type, so a class cannot be looked up among the methods.
-/

namespace MipsBackend

/-- The sorts of node that have an arena of their own. -/
inductive NodeSort where
  | class_
  | method
  | var
  | stmt
  | expr
deriving DecidableEq

/-- The name that diagnostics give to identifiers of a sort. -/
def NodeSort.idName : NodeSort → String
  | .class_ => "ClassId"
  | .method => "MethodId"
  | .var => "VarId"
  | .stmt => "StmtId"
  | .expr => "ExprId"

/-- The position of a node in the arena of its sort. -/
structure NodeId (sort : NodeSort) where
  index : UInt32
deriving DecidableEq

instance {sort : NodeSort} : LawfulBEq (NodeId sort) :=
  inferInstance

/-- A class declaration. -/
abbrev ClassId := NodeId .class_
/-- A method declaration. -/
abbrev MethodId := NodeId .method
/-- A variable declaration. -/
abbrev VarId := NodeId .var
/-- A statement. -/
abbrev StmtId := NodeId .stmt
/-- An expression. -/
abbrev ExprId := NodeId .expr

namespace NodeId

variable {sort : NodeSort}

/-- The position as a number. -/
def toNat (id : NodeId sort) : Nat :=
  id.index.toNat

/-- The identifier of a position.  Positions beyond 32 bits have none; callers check first. -/
def ofNat (n : Nat) : NodeId sort :=
  ⟨UInt32.ofNat n⟩

theorem toNat_lt (id : NodeId sort) : id.toNat < 0x100000000 :=
  id.index.toNat_lt

theorem toNat_ofNat {n : Nat} (h : n < 0x100000000) : (ofNat n : NodeId sort).toNat = n := by
  simp [ofNat, toNat, UInt32.toNat_ofNat_of_lt' h]

theorem toNat_inj {a b : NodeId sort} : a.toNat = b.toNat ↔ a = b := by
  cases a
  cases b
  simp [toNat, UInt32.toNat_inj]

@[simp] theorem ofNat_toNat (id : NodeId sort) : ofNat id.toNat = id := by
  rw [← toNat_inj, toNat_ofNat id.toNat_lt]

/-- The position alone, in decimal. -/
def text (id : NodeId sort) : String :=
  toString id.toNat

/-- The position with the name of its sort, as in `ClassId(3)`. -/
def detail (id : NodeId sort) : String :=
  sort.idName ++ "(" ++ id.text ++ ")"

end NodeId

end MipsBackend
