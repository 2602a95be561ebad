import Mathlib.Data.BitVec
import Mathlib.Tactic.Abel
import MipsBackend.Proofs.Machine.Basic
import MipsBackend.Proofs.Widths

/-!
# Values on the operand stack

The stack grows downward, so a word is best named by how far it lies below a fixed base.  `Pushed`
says which words lie below a base, first pushed first; `valueWords` are the words of one value and
`operandWords` those of several.

Addresses are computed modulo 2^32.  The lemmas at the start reduce all of them to the form
`base - .ofInt n`, in which two addresses are equal if the integers are and differ if the integers
differ by less than 2^32.
-/

namespace MipsBackend

/-! ## Addresses below a base -/

namespace Word

theorem sub_add_ofInt (base : Word) (a b : Int) :
    base - .ofInt a + .ofInt b = base - .ofInt (a - b) := by
  rw [Word.ofInt_sub]
  abel

theorem sub_sub_ofInt (base : Word) (a b : Int) :
    base - .ofInt a - .ofInt b = base - .ofInt (a + b) := by
  rw [Word.ofInt_add]
  abel

/-- Distances of less than the size of the memory lead to different addresses. -/
theorem sub_ofInt_ne {base : Word} {a b : Int} (hlt : a < b) (hnear : b - a < 2 ^ 32) :
    base - .ofInt a ≠ base - .ofInt b := by
  intro h
  have hwords : Word.ofInt a = Word.ofInt b := by
    have hneg : base - (base - Word.ofInt a) = base - (base - Word.ofInt b) := by rw [h]
    simpa only [sub_sub_cancel] using hneg
  have hnat := congrArg BitVec.toNat hwords
  rw [BitVec.toNat_ofInt, BitVec.toNat_ofInt] at hnat
  omega

end Word

/-! ## Words below a base -/

/-- The words that were pushed since the stack pointer was at `base`, first pushed first. -/
structure Machine.Pushed (m : Machine) (base : Word) (words : List Word) : Prop where
  sp : m.reg .sp = base - .ofInt (words.length * wordSize)
  mem {k : Nat} {w : Word} : words[k]? = some w → m.mem (base - .ofInt ((k + 1) * wordSize)) = w

/-- The words of a value with a given data word, in the order in which they are pushed.  A scalar
has the tag word above its data word. -/
def valueWords (tag : Word) (ty : Ty) (data : Word) : List Word :=
  if ty.isVoid then [] else if ty.isScalar then [tag, data] else [data]

/-- The words of several values, one after the other. -/
def operandWords (tag : Word) : List Ty → List Word → List Word
  | ty :: tys, data :: datas => valueWords tag ty data ++ operandWords tag tys datas
  | _, _ => []

theorem length_valueWords (tag : Word) (ty : Ty) (data : Word) :
    ((valueWords tag ty data).length : Int) = ty.words := by
  cases ty <;> rfl

theorem valueWords_of_isReference {ty : Ty} (h : ty.isReference) (tag data : Word) :
    valueWords tag ty data = [data] := by
  cases ty <;> first | rfl | simp [Ty.isReference] at h

theorem valueWords_of_isScalar {ty : Ty} (h : ty.isScalar) (tag data : Word) :
    valueWords tag ty data = [tag, data] := by
  cases ty <;> first | rfl | simp [Ty.isScalar] at h

/-- The data word of a value is pushed last. -/
theorem getLast?_valueWords {ty : Ty} (h : ty.isVoid = false) (tag data : Word) :
    (valueWords tag ty data).getLast? = some data := by
  cases ty <;> first | rfl | simp [Ty.isVoid] at h

/-- Values of types of one width look alike. -/
theorem valueWords_congr {ty ty' : Ty} (h : ty.stackBytes = ty'.stackBytes) (tag data : Word) :
    valueWords tag ty data = valueWords tag ty' data := by
  cases ty <;> cases ty' <;> first | rfl | simp [Ty.stackBytes, Ty.words, wordSize] at h

theorem operandWords_congr {tys tys' : List Ty}
    (h : List.Forall₂ (fun ty ty' => ty.stackBytes = ty'.stackBytes) tys tys') (tag : Word)
    (datas : List Word) : operandWords tag tys datas = operandWords tag tys' datas := by
  induction h generalizing datas with
  | nil => rfl
  | cons hty _ ih =>
    cases datas with
    | nil => rfl
    | cons data datas => rw [operandWords, operandWords, valueWords_congr hty, ih]

theorem length_operandWords (tag : Word) {tys : List Ty} {datas : List Word}
    (h : datas.length = tys.length) :
    ((operandWords tag tys datas).length : Int) = Ty.frameWords tys := by
  induction tys generalizing datas with
  | nil => simp [operandWords, Ty.frameWords]
  | cons ty tys ih =>
    cases datas with
    | nil => simp at h
    | cons data datas =>
      have hlength : datas.length = tys.length := by simpa using h
      have hrest := ih hlength
      have hfirst := length_valueWords tag ty data
      rw [operandWords, List.length_append, frameWords_cons]
      omega

/-- The data word of an operand is the last word of those up to it. -/
theorem getElem?_operandWords (tag : Word) {tys : List Ty} {datas : List Word} {k : Nat} {ty : Ty}
    {data : Word} (hty : tys[k]? = some ty) (hvalue : ty.isVoid = false)
    (hdata : datas[k]? = some data) :
    ∃ j, (operandWords tag tys datas)[j]? = some data ∧
      ((j + 1 : Nat) : Int) = Ty.frameWords (tys.take (k + 1)) := by
  induction tys generalizing datas k with
  | nil => simp at hty
  | cons ty' tys ih =>
    cases datas with
    | nil => simp at hdata
    | cons data' datas =>
      rw [operandWords]
      cases k with
      | zero =>
        obtain rfl : ty' = ty := by simpa using hty
        obtain rfl : data' = data := by simpa using hdata
        refine ⟨(valueWords tag ty' data').length - 1, ?_, ?_⟩
        · cases ty' <;> first | rfl | simp [Ty.isVoid] at hvalue
        · cases ty' <;> first | rfl | simp [Ty.isVoid] at hvalue
      | succ k =>
        have hty' : tys[k]? = some ty := by simpa using hty
        have hdata'' : datas[k]? = some data := by simpa using hdata
        obtain ⟨j, hj, hwords⟩ := ih hty' hdata''
        refine ⟨(valueWords tag ty' data').length + j, ?_, ?_⟩
        · rw [List.getElem?_append_right (Nat.le_add_right _ _), Nat.add_sub_cancel_left]
          exact hj
        · have hfirst := length_valueWords tag ty' data'
          rw [List.take_succ_cons, frameWords_cons]
          omega

/-! ## Words above the stack pointer -/

namespace Machine.Pushed

variable {m : Machine} {base tag data w : Word} {words : List Word} {ty : Ty} {k : Nat}
  {bytes offset : Int}

theorem sp_add (h : m.Pushed base words) (hbytes : bytes = words.length * wordSize) :
    m.reg .sp + .ofInt bytes = base := by
  rw [h.sp, hbytes]
  abel

/-- A word is found by its distance from the last word. -/
theorem mem_sp (h : m.Pushed base words) (hk : words[k]? = some w)
    (hoffset : offset = (words.length - (k + 1)) * wordSize) :
    m.mem (m.reg .sp + .ofInt offset) = w := by
  rw [h.sp, Word.sub_add_ofInt, hoffset, ← Int.sub_mul, Int.sub_sub_self]
  exact h.mem hk

/-- The stack pointer points at the last word. -/
theorem mem_top (h : m.Pushed base words) (hw : words.getLast? = some w) :
    m.mem (m.reg .sp) = w := by
  obtain ⟨init, rfl⟩ := List.getLast?_eq_some_iff.1 hw
  have hlast : (init ++ [w])[init.length]? = some w := by simp
  have hzero : (0 : Int) = ((init ++ [w]).length - (init.length + 1)) * wordSize := by simp
  simpa using h.mem_sp hlast hzero

/-- The data word of the value on top of the stack. -/
theorem mem_value (h : m.Pushed base (words ++ valueWords tag ty data))
    (hvalue : ty.isVoid = false) : m.mem (m.reg .sp) = data := by
  refine h.mem_top ?_
  rw [List.getLast?_append, getLast?_valueWords hvalue]
  rfl

/-- A word below a value on top of the stack. -/
theorem mem_below (h : m.Pushed base (words ++ valueWords tag ty data)) (hk : words[k]? = some w)
    (hoffset : offset = ty.stackBytes + (words.length - (k + 1)) * wordSize) :
    m.mem (m.reg .sp + .ofInt offset) = w := by
  have hlt := (List.getElem?_eq_some_iff.1 hk).1
  have hvalue := length_valueWords tag ty data
  refine h.mem_sp (k := k) ?_ ?_
  · rw [List.getElem?_append_left hlt, hk]
  · rw [hoffset, Ty.stackBytes, List.length_append, wordSize]
    omega

theorem sp_add_value (h : m.Pushed base (words ++ valueWords tag ty data))
    (hbytes : bytes = ty.stackBytes + words.length * wordSize) :
    m.reg .sp + .ofInt bytes = base := by
  have hvalue := length_valueWords tag ty data
  refine h.sp_add ?_
  rw [hbytes, Ty.stackBytes, List.length_append, wordSize]
  omega

end Machine.Pushed

end MipsBackend
