import MipsBackend.NodeId

/-!
# Static types

A value is scalar, a reference, or absent.  A scalar takes two words on the operand stack, a tag
word above its data word, so that a collector can tell it from a reference, which takes one.
-/

namespace MipsBackend

/-- The size in bytes of a stack slot, an object field or an array element. -/
def wordSize : Int := 4

/-- A resolved static type. -/
inductive Ty where
  /-- 32-bit signed integers. -/
  | int
  /-- Truth values. -/
  | bool
  /-- The result of methods that return nothing. -/
  | void
  /-- The type of the null literal, which fits every reference type. -/
  | null
  /-- Instances of a class and of its descendants. -/
  | object (class_ : ClassId)
  /-- Arrays of an element type. -/
  | array (elem : Ty)
deriving DecidableEq

namespace Ty

/-- Integers and truth values. -/
def isScalar : Ty → Bool
  | int | bool => true
  | _ => false

/-- Objects, arrays and null. -/
def isReference : Ty → Bool
  | int | bool | void => false
  | _ => true

/-- The type has no value. -/
def isVoid : Ty → Bool
  | void => true
  | _ => false

theorem isReference_eq (ty : Ty) : ty.isReference = (!ty.isScalar && !ty.isVoid) := by
  cases ty <;> rfl

/-- How many words of the operand stack a value takes. -/
def words : Ty → Int
  | void => 0
  | int | bool => 2
  | null | object _ | array _ => 1

/-- How many bytes of the operand stack a value takes. -/
def stackBytes (ty : Ty) : Int :=
  ty.words * wordSize

/-- The class of an object type. -/
def class? : Ty → Option ClassId
  | object c => some c
  | _ => none

/-- The element type of an array type. -/
def elem? : Ty → Option Ty
  | array elem => some elem
  | _ => none

/-- The type as a programmer writes it; a class is known by its position only. -/
def text : Ty → String
  | int => "int"
  | bool => "boolean"
  | void => "void"
  | null => "null"
  | object c => "class#" ++ c.text
  | array elem => elem.text ++ "[]"

/-- The type spelled out by constructors, as in `Array(Class(ClassId(0)))`. -/
def detail : Ty → String
  | int => "Int"
  | bool => "Bool"
  | void => "Void"
  | null => "Null"
  | object c => "Class(" ++ c.detail ++ ")"
  | array elem => "Array(" ++ elem.detail ++ ")"

/-- How many stack words a list of parameters takes. -/
def frameWords (tys : List Ty) : Int :=
  (tys.map words).foldr (· + ·) 0

end Ty

end MipsBackend
