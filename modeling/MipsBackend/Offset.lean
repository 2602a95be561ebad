import MipsBackend.Fault

/-!
# Stack offsets

Offsets and heights are integers that fit in a signed 32-bit word.  Arithmetic on them is exact or
fails; it never wraps around.
-/

namespace MipsBackend.Offset

/-- The values of a signed 32-bit word. -/
def Fits (n : Int) : Prop :=
  -0x80000000 ≤ n ∧ n < 0x80000000

instance (n : Int) : Decidable (Fits n) :=
  inferInstanceAs (Decidable (_ ∧ _))

/-- An exact result, if it fits. -/
def checked (op : ArithmeticOp) (n : Int) : Except Fault Int :=
  if Fits n then .ok n else .error (.overflow op)

/-- The sum. -/
def add (a b : Int) : Except Fault Int :=
  checked .add (a + b)

/-- The difference. -/
def sub (a b : Int) : Except Fault Int :=
  checked .subtract (a - b)

/-- The product. -/
def mul (a b : Int) : Except Fault Int :=
  checked .multiply (a * b)

/-- The opposite. -/
def neg (a : Int) : Except Fault Int :=
  checked .negate (-a)

/-- The sum of a list, from left to right. -/
def sum (ns : List Int) : Except Fault Int :=
  ns.foldlM add 0

theorem checked_eq_ok_iff {op : ArithmeticOp} {n m : Int} :
    checked op n = .ok m ↔ Fits n ∧ m = n := by
  unfold checked
  split <;> simp_all [eq_comm]

theorem checked_of_fits {op : ArithmeticOp} {n : Int} (h : Fits n) : checked op n = .ok n := by
  simp [checked, h]

end MipsBackend.Offset
