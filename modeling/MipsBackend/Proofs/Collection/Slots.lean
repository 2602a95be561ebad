import MipsBackend.Proofs.Code.Typing
import MipsBackend.Proofs.Execution.Values

/-!
# What a collector finds on the operand stack

A collector goes through the operand stack word by word.  It takes a word below a tag word for the
data word of a scalar, and any other word but the tag words for a reference.  So all it needs is
that the tag words are where the types say.  `Ty.slots` tells where that is in a value, and
`Machine.HasSlots` says of a machine that they are there, for the words that were pushed since the
stack pointer was at some base.

The slots of a stack are listed from its top on, so that what an instruction does to the stack it
does at the head of the list.  `Machine.HoldsValues` is the same in terms of whole values, first
pushed first.
-/

namespace MipsBackend

/-! ## Addresses above the stack pointer -/

namespace Word

theorem add_ofInt_add (a : Word) (m n : Int) : a + .ofInt m + .ofInt n = a + .ofInt (m + n) := by
  rw [Word.ofInt_add]
  abel

/-- Distances of less than the size of the memory lead to different addresses. -/
theorem add_ofInt_ne {a : Word} {m n : Int} (hne : m ≠ n) (hm : 0 ≤ m) (hm' : m < 2 ^ 32)
    (hn : 0 ≤ n) (hn' : n < 2 ^ 32) : a + .ofInt m ≠ a + .ofInt n := by
  intro h
  have hwords : Word.ofInt m = Word.ofInt n := add_left_cancel h
  have hnat := congrArg BitVec.toNat hwords
  rw [BitVec.toNat_ofInt, BitVec.toNat_ofInt] at hnat
  omega

theorem toNat_sub_ofInt {base : Word} {n : Int} (hn : 0 ≤ n) (hle : n ≤ base.toNat) :
    ((base - .ofInt n).toNat : Int) = base.toNat - n := by
  have hlt := base.isLt
  rw [BitVec.toNat_sub, BitVec.toNat_ofInt]
  omega

end Word

/-! ## Slots -/

/-- What is known of a word on the operand stack. -/
inductive Slot where
  /-- It is a tag word. -/
  | tag
  /-- It is the data word of a scalar or a reference. -/
  | word
deriving DecidableEq

/-- The words of a value, from the top of the stack on. -/
def Ty.slots (ty : Ty) : List Slot :=
  if ty.isVoid then [] else if ty.isScalar then [.word, .tag] else [.word]

/-- The words of several values, of which the first was pushed first. -/
def slotsAll : List Ty → List Slot
  | [] => []
  | ty :: tys => slotsAll tys ++ ty.slots

variable {ty ty' : Ty} {tys tys' : List Ty}

theorem Ty.slots_of_isScalar (h : ty.isScalar) : ty.slots = [.word, .tag] := by
  cases ty <;> first | rfl | cases h

theorem Ty.slots_of_isReference (h : ty.isReference) : ty.slots = [.word] := by
  cases ty <;> first | rfl | cases h

/-- Values of types of one width look alike. -/
theorem Ty.slots_congr (h : ty.stackBytes = ty'.stackBytes) : ty.slots = ty'.slots := by
  cases ty <;> cases ty' <;> first | rfl | simp [stackBytes, words, wordSize] at h

theorem Ty.length_slots (ty : Ty) : (ty.slots.length : Int) * wordSize = ty.stackBytes := by
  cases ty <;> rfl

/-- Only scalars have a tag word, above the data word. -/
theorem Ty.isScalar_of_slots {k : Nat} (h : ty.slots[k]? = some .tag) : ty.isScalar ∧ k = 1 := by
  cases ty
  case int | bool =>
    match k, h with
    | 1, _ => exact ⟨rfl, rfl⟩
  all_goals simp [slots, isVoid, isScalar, List.getElem?_cons] at h

@[simp] theorem slotsAll_append : slotsAll (tys ++ tys') = slotsAll tys' ++ slotsAll tys := by
  induction tys with
  | nil => simp [slotsAll]
  | cons ty tys ih => rw [List.cons_append, slotsAll, slotsAll, ih, List.append_assoc]

@[simp] theorem slotsAll_singleton : slotsAll [ty] = ty.slots :=
  rfl

theorem slotsAll_congr (h : tys.map Ty.stackBytes = tys'.map Ty.stackBytes) :
    slotsAll tys = slotsAll tys' := by
  induction tys generalizing tys' with
  | nil =>
    obtain rfl := List.map_eq_nil_iff.1 h.symm
    rfl
  | cons ty tys ih =>
    cases tys' with
    | nil => cases h
    | cons ty' tys' =>
      obtain ⟨hty, htys⟩ := List.cons.inj h
      rw [slotsAll, slotsAll, Ty.slots_congr hty, ih htys]

theorem length_slotsAll (tys : List Ty) :
    ((slotsAll tys).length : Int) * wordSize = (tys.map Ty.stackBytes).sum := by
  induction tys with
  | nil => rfl
  | cons ty tys ih =>
    rw [slotsAll, List.length_append, List.map_cons, List.sum_cons, ← ih, ← ty.length_slots]
    push_cast
    rw [Int.add_mul, Int.add_comm]

/-! ## Machines -/

namespace Machine

/-- The words that were pushed since the stack pointer was at `base` are what the slots say. -/
structure HasSlots (m : Machine) (base marker : Word) (slots : List Slot) : Prop where
  room : slots.length * wordSize ≤ base.toNat
  sp : m.reg .sp = base - .ofInt (slots.length * wordSize)
  s5 : m.reg .s5 = marker
  tag {k : Nat} : slots[k]? = some .tag → m.mem (m.reg .sp + .ofInt (k * wordSize)) = marker

namespace HasSlots

variable {m m' : Machine} {base marker : Word} {slots popped : List Slot}

/-- The stack pointer is far enough above zero. -/
theorem sp_toNat (h : m.HasSlots base marker slots) :
    ((m.reg .sp).toNat : Int) = base.toNat - slots.length * wordSize := by
  rw [h.sp]
  exact Word.toNat_sub_ofInt (by rw [wordSize]; omega) h.room

/-- The words lie below the base. -/
theorem slot_toNat (h : m.HasSlots base marker slots) {k : Nat} (hk : k < slots.length) :
    ((m.reg .sp + .ofInt (k * wordSize)).toNat : Int) =
      base.toNat - (slots.length - k) * wordSize := by
  have hroom := h.room
  rw [h.sp, Word.sub_add_ofInt, ← Int.sub_mul]
  rw [wordSize] at hroom ⊢
  exact Word.toNat_sub_ofInt (by omega) (by omega)

/-- What the other registers hold does not matter. -/
theorem set {r : Reg} {x : Word} (h : m.HasSlots base marker slots) (hsp : Reg.sp ≠ r)
    (hmarker : Reg.s5 ≠ r) : (m.set r x).HasSlots base marker slots := by
  refine ⟨h.room, ?_, ?_, fun {k} hk => ?_⟩
  · rw [reg_set_of_ne _ _ _ _ hsp, h.sp]
  · rw [reg_set_of_ne _ _ _ _ hmarker, h.s5]
  · rw [reg_set_of_ne _ _ _ _ hsp, mem_set, h.tag hk]

/-- A word outside the stack is written. -/
theorem store_outside {a x : Word} (h : m.HasSlots base marker slots)
    (ha : a.toNat < (m.reg .sp).toNat ∨ base.toNat ≤ a.toNat) :
    (m.store a x).HasSlots base marker slots := by
  refine ⟨h.room, ?_, ?_, fun {k} hk => ?_⟩
  · rw [reg_store, h.sp]
  · rw [reg_store, h.s5]
  · have hlt := (List.getElem?_eq_some_iff.1 hk).1
    have haddress := h.slot_toNat hlt
    have hsp := h.sp_toNat
    rw [wordSize] at haddress hsp
    rw [reg_store, mem_store_of_ne, h.tag hk]
    intro heq
    rw [← heq, wordSize] at ha
    omega

/-- A word on the stack is written, and from then on counts as what it was written for. -/
theorem store {k : Nat} {slot : Slot} {x : Word} (h : m.HasSlots base marker slots)
    (hk : k < slots.length) (hx : slot = .tag → x = marker) :
    (m.store (m.reg .sp + .ofInt (k * wordSize)) x).HasSlots base marker (slots.set k slot) := by
  have hroom := h.room
  have hbase := base.isLt
  rw [wordSize] at hroom
  refine ⟨?_, ?_, ?_, fun {j} hj => ?_⟩
  · rw [List.length_set, wordSize]
    exact hroom
  · rw [reg_store, List.length_set, h.sp]
  · rw [reg_store, h.s5]
  · rw [reg_store]
    by_cases heq : j = k
    · rw [heq, List.getElem?_set_self hk] at hj
      rw [heq, mem_store_self, hx (Option.some.inj hj)]
    · rw [List.getElem?_set_ne (Ne.symm heq)] at hj
      have hlt := (List.getElem?_eq_some_iff.1 hj).1
      rw [mem_store_of_ne, h.tag hj]
      refine Word.add_ofInt_ne ?_ ?_ ?_ ?_ ?_
      all_goals
        rw [wordSize]
        omega

/-- Room is made for words that are still to be written. -/
theorem push {n : Nat} (h : m.HasSlots base marker slots)
    (hroom : (n + slots.length) * wordSize ≤ base.toNat) :
    (m.set .sp (m.reg .sp - .ofInt (n * wordSize))).HasSlots base marker
      (List.replicate n .word ++ slots) := by
  have hlength : ((List.replicate n Slot.word ++ slots).length : Int) = n + slots.length := by
    simp
  refine ⟨?_, ?_, ?_, fun {k} hk => ?_⟩
  · rw [hlength]
    exact hroom
  · rw [reg_set_self _ _ _ (by decide), hlength, h.sp, Word.sub_sub_ofInt, ← Int.add_mul,
      Int.add_comm]
  · rw [reg_set_of_ne _ _ _ _ (by decide), h.s5]
  · by_cases hlt : k < n
    · rw [List.getElem?_append_left (by simpa using hlt), List.getElem?_replicate_of_lt hlt] at hk
      cases hk
    · rw [List.getElem?_append_right (by simpa using hlt), List.length_replicate] at hk
      have haddress : m.reg .sp - .ofInt (n * wordSize) + .ofInt (k * wordSize) =
          m.reg .sp + .ofInt ((k - n : Nat) * wordSize) := by
        have hle : n ≤ k := Nat.le_of_not_lt hlt
        rw [Int.ofNat_sub hle, Int.sub_mul, Word.ofInt_sub]
        abel
      rw [reg_set_self _ _ _ (by decide), mem_set, haddress, h.tag hk]

/-- The top of the stack is dropped. -/
theorem drop (h : m.HasSlots base marker (popped ++ slots)) :
    (m.set .sp (m.reg .sp + .ofInt (popped.length * wordSize))).HasSlots base marker slots := by
  have hroom := h.room
  rw [List.length_append, wordSize] at hroom
  refine ⟨?_, ?_, ?_, fun {k} hk => ?_⟩
  · rw [wordSize]
    omega
  · rw [reg_set_self _ _ _ (by decide), h.sp, Word.sub_add_ofInt, ← Int.sub_mul,
      List.length_append]
    congr 3
    omega
  · rw [reg_set_of_ne _ _ _ _ (by decide), h.s5]
  · have hk' : (popped ++ slots)[popped.length + k]? = some .tag := by
      rw [List.getElem?_append_right (Nat.le_add_right _ _), Nat.add_sub_cancel_left, hk]
    rw [reg_set_self _ _ _ (by decide), mem_set, Word.add_ofInt_add, ← Int.add_mul,
      ← Int.natCast_add, h.tag hk']

/-- Two scalars on top of the stack are operands. -/
theorem hasOperands
    (h : m.HasSlots base marker (.word :: .tag :: .word :: .tag :: slots)) :
    ∃ left right, m.HasOperands left right := by
  have hupper := h.tag (k := 1) rfl
  have hlower := h.tag (k := 3) rfl
  rw [← h.s5] at hupper hlower
  exact ⟨_, _, rfl, hupper, rfl, hlower⟩

end HasSlots

/-- The words that were pushed since the stack pointer was at `base` are values of the given types,
first pushed first: of a scalar a data word below a word that equals `$s5`, of a reference one
word. -/
def HoldsValues (m : Machine) (base : Word) (tys : List Ty) : Prop :=
  ∃ values : List Word, values.length = tys.length ∧
    m.Pushed base (operandWords (m.reg .s5) tys values)

end Machine

/-- Words with tag words in the right places are the words of some values. -/
theorem exists_operandWords {marker : Word} {words : List Word}
    (h : List.Forall₂ (fun slot w => slot = .tag → w = marker) (slotsAll tys).reverse words) :
    ∃ values : List Word, values.length = tys.length ∧ operandWords marker tys values = words := by
  induction tys generalizing words with
  | nil =>
    cases h
    exact ⟨[], rfl, rfl⟩
  | cons ty tys ih =>
    rw [slotsAll, List.reverse_append] at h
    by_cases hvoid : ty.isVoid
    · rw [Ty.slots, if_pos hvoid] at h
      obtain ⟨values, hlength, hwords⟩ := ih h
      refine ⟨0 :: values, congrArg Nat.succ hlength, ?_⟩
      rw [operandWords, valueWords, if_pos hvoid, hwords]
      rfl
    · by_cases hscalar : ty.isScalar
      · rw [Ty.slots_of_isScalar hscalar] at h
        cases h with
        | cons htag h =>
          cases h with
          | @cons _ data _ _ _ h =>
            obtain ⟨values, hlength, hwords⟩ := ih h
            refine ⟨data :: values, congrArg Nat.succ hlength, ?_⟩
            rw [operandWords, valueWords, if_neg hvoid, if_pos hscalar, hwords, htag rfl]
            rfl
      · rw [Ty.slots, if_neg hvoid, if_neg hscalar] at h
        cases h with
        | @cons _ data _ _ _ h =>
          obtain ⟨values, hlength, hwords⟩ := ih h
          refine ⟨data :: values, congrArg Nat.succ hlength, ?_⟩
          rw [operandWords, valueWords, if_neg hvoid, if_neg hscalar, hwords]
          rfl

namespace Machine

/-- A stack with tag words in the right places holds values. -/
theorem HasSlots.holdsValues {m : Machine} {base marker : Word} {slots : List Slot}
    (h : m.HasSlots base marker (slotsAll tys ++ slots)) :
    m.HoldsValues (m.reg .sp + .ofInt (tys.map Ty.stackBytes).sum) tys := by
  rw [← length_slotsAll]
  let n := (slotsAll tys).length
  let word (k : Nat) : Word := m.mem (m.reg .sp + .ofInt ((n - 1 - k : Nat) * wordSize))
  have hfits : List.Forall₂ (fun slot w => slot = .tag → w = marker) (slotsAll tys).reverse
      ((List.range n).map word) := by
    refine List.forall₂_iff_get.2 ⟨by simp [n], fun k hk hk' hslot => ?_⟩
    have hlt : k < n := by simpa using hk
    have hget : (slotsAll tys ++ slots)[n - 1 - k]? = some .tag := by
      rw [List.getElem?_append_left (show n - 1 - k < n by omega),
        List.getElem?_eq_getElem (show n - 1 - k < n by omega), ← hslot, List.get_eq_getElem,
        List.getElem_reverse]
    simpa [word] using h.tag hget
  obtain ⟨values, hlength, hwords⟩ := exists_operandWords hfits
  have hsp : m.reg .sp = m.reg .sp + .ofInt (n * wordSize) - .ofInt (n * wordSize) := by
    abel
  refine ⟨values, hlength, ?_, fun {k w} hk => ?_⟩
  · rw [h.s5, hwords, List.length_map, List.length_range]
    exact hsp
  · rw [h.s5, hwords, List.getElem?_map, Option.map_eq_some_iff] at hk
    obtain ⟨j, hj, rfl⟩ := hk
    obtain ⟨hlt, rfl⟩ := List.getElem?_eq_some_iff.1 hj
    have hlt' : k < n := by simpa using hlt
    rw [List.getElem_range]
    have hplace : m.reg .sp + .ofInt (n * wordSize) - .ofInt ((k + 1) * wordSize) =
        m.reg .sp + .ofInt ((n - 1 - k : Nat) * wordSize) := by
      have hbelow : ((n - 1 - k : Nat) : Int) = n - (k + 1) := by omega
      rw [hbelow, Int.sub_mul, Word.ofInt_sub]
      abel
    rw [hplace]

end Machine

end MipsBackend
