import Mathlib.Algebra.Ring.Int.Defs
import MipsBackend.Offset
import MipsBackend.Ty

/-!
# Widths of parameter lists

The compiler sums the widths of parameters step by step and checks each result.  A sum that it
reaches is the sum of the list, and parts of a list are no wider than the list.
-/

namespace MipsBackend

/-- A list that could be summed has that sum. -/
theorem Offset.eq_sum_of_sum_eq_ok {ns : List Int} {n : Int} (h : sum ns = .ok n) : n = ns.sum := by
  have hfrom : ∀ {ns : List Int} {a n : Int}, ns.foldlM add a = .ok n → n = a + ns.sum := by
    intro ns
    induction ns with
    | nil =>
      intro a n h
      obtain rfl := pure_eq_ok_iff.1 h
      simp
    | cons b ns ih =>
      intro a n h
      rw [List.foldlM_cons, bind_eq_ok_iff] at h
      obtain ⟨c, hadd, hrest⟩ := h
      obtain ⟨_, rfl⟩ := checked_eq_ok_iff.1 hadd
      rw [ih hrest, List.sum_cons]
      omega
  have htotal := hfrom h
  omega

theorem frameWords_eq_sum (tys : List Ty) : Ty.frameWords tys = (tys.map Ty.words).sum :=
  rfl

theorem words_nonneg (ty : Ty) : 0 ≤ ty.words := by
  cases ty <;> simp [Ty.words]

theorem frameWords_cons (ty : Ty) (tys : List Ty) :
    Ty.frameWords (ty :: tys) = ty.words + Ty.frameWords tys := by
  rw [frameWords_eq_sum, frameWords_eq_sum, List.map_cons, List.sum_cons]

theorem frameWords_nonneg (tys : List Ty) : 0 ≤ Ty.frameWords tys := by
  induction tys with
  | nil => exact Int.le_refl 0
  | cons ty tys ih =>
    have hfirst := words_nonneg ty
    rw [frameWords_cons]
    omega

/-- No parameter is wider than two words. -/
theorem frameWords_le (tys : List Ty) : Ty.frameWords tys ≤ 2 * tys.length := by
  induction tys with
  | nil => exact Int.le_refl 0
  | cons ty tys ih =>
    have hfirst : ty.words ≤ 2 := by cases ty <;> simp [Ty.words]
    rw [frameWords_cons, List.length_cons]
    omega

/-- Some of the operands take no more room than all of them. -/
theorem frameWords_take_le (tys : List Ty) (n : Nat) :
    Ty.frameWords (tys.take n) ≤ Ty.frameWords tys := by
  induction tys generalizing n with
  | nil => exact Int.le_of_eq (congrArg _ List.take_nil)
  | cons ty tys ih =>
    cases n with
    | zero => exact frameWords_nonneg (ty :: tys)
    | succ n =>
      have hrest := ih n
      rw [List.take_succ_cons, frameWords_cons, frameWords_cons]
      omega

theorem sum_stackBytes (tys : List Ty) :
    (tys.map Ty.stackBytes).sum = Ty.frameWords tys * wordSize := by
  induction tys with
  | nil => rfl
  | cons ty tys ih =>
    rw [List.map_cons, List.sum_cons, ih, Ty.stackBytes, frameWords_cons, Int.add_mul]

theorem sum_stackBytes_nonneg (tys : List Ty) : 0 ≤ (tys.map Ty.stackBytes).sum := by
  have hwords := frameWords_nonneg tys
  rw [sum_stackBytes, wordSize]
  omega

end MipsBackend
