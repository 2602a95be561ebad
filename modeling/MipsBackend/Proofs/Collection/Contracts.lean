import MipsBackend.Proofs.Collection.Slots

/-!
# What calls do to the operand stack

The code of an expression leaves for routines of the runtime library and for methods, and any of
them may start a collection.  The contracts here say what is on the stack when they return.  They
leave open what happens to references, which a collector may move, and to what lies below the stack
pointer; all that they promise to keep is the marker and the tag words.

The stack ends at an address `top`.  Objects lie elsewhere, and so the header of a new object is not
on the stack.
-/

namespace MipsBackend

/-- A call has replaced bytes on top of the stack by a value of a type.  On the rest of the stack,
which ends at `top`, tag words are tag words still. -/
structure Machine.Replaces (m m' : Machine) (top : Nat) (popped : Int) (ty : Ty) : Prop where
  sp : m'.reg .sp = m.reg .sp + .ofInt (popped - ty.stackBytes)
  s5 : m'.reg .s5 = m.reg .s5
  tag : ty.isScalar → m'.mem (m'.reg .sp + .ofInt wordSize) = m.reg .s5
  kept {a : Word} : (m.reg .sp).toNat + popped ≤ a.toNat → a.toNat < top →
    m.mem a = m.reg .s5 → m'.mem a = m.reg .s5

/-- A call has pushed a new object and returned it in `$s7`.  The object is not on the stack. -/
structure Machine.Allocates (m m' : Machine) (top : Nat) : Prop where
  pushes : m.Replaces m' top 0 .null
  object : m'.mem (m'.reg .sp) = m'.reg .s7
  outside : (m'.reg .s7 + .ofInt classRecordOffset).toNat < (m'.reg .sp).toNat ∨
    top ≤ (m'.reg .s7 + .ofInt classRecordOffset).toNat

/-- What routines of the runtime library leave on the stack where they return.  The test for a class
leaves a bare word in place of the reference. -/
structure Runtime.LeavesValues (runtime : Runtime) (top : Nat) : Prop where
  divide {m m' : Machine} {left right : Word} : m.HasOperands left right →
    runtime .divide m = some m' → m.Replaces m' top (4 * wordSize) .int
  remainder {m m' : Machine} {left right : Word} : m.HasOperands left right →
    runtime .remainder m = some m' → m.Replaces m' top (4 * wordSize) .int
  instanceOf {m m' : Machine} : runtime .instanceOf m = some m' → m.Replaces m' top wordSize .null
  checkCast {m m' : Machine} : runtime .checkCast m = some m' → m.Replaces m' top 0 .void
  newObject {m m' : Machine} : wordSize ≤ (m.reg .sp).toNat →
    runtime .newObject m = some m' → m.Allocates m' top

/-- What a method leaves on the stack where it returns: if it found a receiver and arguments there,
it has replaced them by its result. -/
def MethodDecl.LeavesResult (p : Program) (decl : MethodDecl) (top : Nat) (m m' : Machine) :
    Prop :=
  m.HoldsValues (m.reg .sp + .ofInt (wordSize + p.argumentBytes decl))
      (.null :: decl.formals.map p.varTy) →
    m.Replaces m' top (wordSize + p.argumentBytes decl) decl.returnType

/-- A call that replaces the top of the stack by a value leaves tag words in the right places. -/
theorem Machine.HasSlots.replace {m m' : Machine} {base marker : Word} {popped slots : List Slot}
    {top : Nat} {ty : Ty} (h : m.HasSlots base marker (popped ++ slots))
    (hreplaces : m.Replaces m' top (popped.length * wordSize) ty) (htop : base.toNat ≤ top)
    (hroom : ty.stackBytes + slots.length * wordSize ≤ base.toNat) :
    m'.HasSlots base marker (ty.slots ++ slots) := by
  have hbytes := ty.length_slots
  have hsp : m'.reg .sp = base - .ofInt ((ty.slots ++ slots).length * wordSize) := by
    rw [hreplaces.sp, h.sp, Word.sub_add_ofInt, ← hbytes, List.length_append, List.length_append,
      wordSize]
    congr 2
    omega
  refine ⟨?_, hsp, ?_, fun {k} hk => ?_⟩
  · rw [List.length_append, Int.natCast_add, Int.add_mul, hbytes]
    exact hroom
  · rw [hreplaces.s5, h.s5]
  · by_cases hlt : k < ty.slots.length
    · rw [List.getElem?_append_left hlt] at hk
      obtain ⟨hscalar, rfl⟩ := Ty.isScalar_of_slots hk
      rw [← h.s5]
      exact hreplaces.tag hscalar
    · -- The word was there before, above what was popped.
      rw [List.getElem?_append_right (by omega)] at hk
      have hk' : (popped ++ slots)[popped.length + (k - ty.slots.length)]? = some .tag := by
        rw [List.getElem?_append_right (Nat.le_add_right _ _), Nat.add_sub_cancel_left, hk]
      have hinside := (List.getElem?_eq_some_iff.1 hk').1
      have haddress : m'.reg .sp + .ofInt (k * wordSize) = m.reg .sp +
          .ofInt ((popped.length + (k - ty.slots.length) : Nat) * wordSize) := by
        rw [hsp, h.sp, Word.sub_add_ofInt, Word.sub_add_ofInt, List.length_append,
          List.length_append, wordSize]
        congr 2
        omega
      have hplace := h.slot_toNat hinside
      have hstack := h.sp_toNat
      rw [List.length_append] at hplace hstack hinside
      rw [wordSize] at hplace hstack
      rw [haddress, ← h.s5]
      refine hreplaces.kept ?_ ?_ (by rw [h.tag hk', h.s5])
      · rw [wordSize]
        omega
      · rw [wordSize]
        omega

/-- A method finds the receiver and the arguments where a call left them. -/
theorem MethodDecl.LeavesResult.replaces {p : Program} {decl : MethodDecl} {m m' : Machine}
    {base marker : Word} {slots : List Slot} {top : Nat} {pending : List Ty}
    (h : decl.LeavesResult p top m m')
    (hpending : pending.map Ty.stackBytes =
      wordSize :: decl.formals.map fun formal => (p.varTy formal).stackBytes)
    (hm : m.HasSlots base marker (slotsAll pending ++ slots)) :
    m.Replaces m' top ((slotsAll pending).length * wordSize) decl.returnType := by
  have hbytes : ((slotsAll pending).length : Int) * wordSize = wordSize + p.argumentBytes decl := by
    rw [length_slotsAll, hpending, List.sum_cons]
    rfl
  have htys : pending.map Ty.stackBytes =
      (Ty.null :: decl.formals.map p.varTy).map Ty.stackBytes := by
    rw [hpending, List.map_cons, List.map_map]
    rfl
  have hslots := slotsAll_congr htys
  rw [hbytes]
  refine h ?_
  rw [← hbytes, hslots, length_slotsAll]
  rw [hslots] at hm
  exact hm.holdsValues

/-- The division routines keep to their contract.  The word that they save lies below the stack, or
at the end of memory if the stack pointer is almost zero. -/
theorem Runtime.leavesValues_dividing {top : Nat} (htop : top ≤ 2 ^ 32 - 4) :
    dividing.LeavesValues top := by
  have hdivides : ∀ op {m m' left right}, m.HasOperands left right →
      dividing.divideBy op m = some m' → m.Replaces m' top (4 * wordSize) .int := by
    intro op m m' left right h hreturns
    have htag : m.reg .sp + 8 + .ofInt wordSize = m.reg .sp + 12 := by
      rw [Word.ofInt_wordSize]
      bv_omega
    simp only [dividing.divideBy] at hreturns
    split at hreturns
    · cases hreturns
    · obtain rfl := Option.some.inj hreturns
      refine ⟨?_, ?_, fun _ => ?_, fun {a} ha hlt hmarked => ?_⟩
      · simp
        rfl
      · simp
      · have hother : m.reg .sp + 12 ≠ m.reg .sp + 8 := by bv_omega
        have hsaved : m.reg .sp + 12 ≠ m.reg .sp - 4 := by bv_omega
        rw [Machine.reg_store, Machine.reg_set_self _ _ _ (by decide), htag,
          Machine.mem_store_of_ne _ _ _ _ hother, Machine.mem_set,
          Machine.mem_store_of_ne _ _ _ _ hsaved, h.leftTag]
      · rw [wordSize] at ha
        have hother : a ≠ m.reg .sp + 8 := by bv_omega
        have hsaved : a ≠ m.reg .sp - 4 := by bv_omega
        rw [Machine.mem_store_of_ne _ _ _ _ hother, Machine.mem_set,
          Machine.mem_store_of_ne _ _ _ _ hsaved, hmarked]
  -- No other routine returns.
  refine ⟨hdivides _, hdivides _, fun hreturns => ?_, fun hreturns => ?_, fun _ hreturns => ?_⟩
  all_goals cases hreturns

/-- A library that divides, and that allocates all objects at one place. -/
def Runtime.allocating (object : Word) : Runtime
  | .newObject, m =>
    some (((m.set .sp (m.reg .sp - 4)).set .s7 object).store (m.reg .sp - 4) object)
  | r, m => dividing r m

theorem Runtime.leavesValues_allocating : (allocating 0x7fff0010).LeavesValues 0x7fff0000 := by
  have hdivides : dividing.LeavesValues 0x7fff0000 := leavesValues_dividing (by decide)
  refine ⟨hdivides.divide, hdivides.remainder, hdivides.instanceOf, hdivides.checkCast,
    fun {m m'} hspace hruns => ?_⟩
  obtain rfl := Option.some.inj hruns
  rw [wordSize] at hspace
  have hsp : m.reg .sp - 4 = m.reg .sp + .ofInt (0 - Ty.null.stackBytes) := by
    change m.reg .sp - 4 = m.reg .sp + 0xfffffffc
    bv_omega
  have hobject : (((m.set .sp (m.reg .sp - 4)).set .s7 0x7fff0010).store (m.reg .sp - 4)
      0x7fff0010).reg .s7 = 0x7fff0010 := by simp
  refine ⟨⟨?_, by simp, by simp [Ty.isScalar], fun {a} ha _ hmarked => ?_⟩, by simp, Or.inr ?_⟩
  · rw [← hsp]
    simp
  · have hother : a ≠ m.reg .sp - 4 := by bv_omega
    rw [Machine.mem_store_of_ne _ _ _ _ hother, Machine.mem_set, Machine.mem_set, hmarked]
  · rw [hobject]
    decide

end MipsBackend
