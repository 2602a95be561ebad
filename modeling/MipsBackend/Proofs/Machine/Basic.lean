import Mathlib.Logic.Function.Basic
import MipsBackend.Proofs.Assembly.Labels

/-!
# What instructions do

A machine has registers and a memory of 32-bit words.  `Inst.exec` says what one line of assembly
does to it, and `execFrom` runs lines that follow each other until one of them leaves the stretch.
The addresses that an assembler gives to labels and lines are parameters, collected in an `Image`.

Memory maps the address of a word to the word.  All offsets in generated code are whole words, so
two accesses of a run meet in all their bytes or in none.
-/

namespace MipsBackend

/-- The contents of a register or of a word of memory. -/
abbrev Word := BitVec 32

/-- The word that stands for an integer. -/
abbrev Word.ofInt (n : Int) : Word :=
  BitVec.ofInt 32 n

theorem Word.ofInt_add (a b : Int) : Word.ofInt (a + b) = .ofInt a + .ofInt b :=
  BitVec.ofInt_add a b

theorem Word.ofInt_sub (a b : Int) : Word.ofInt (a - b) = .ofInt a - .ofInt b := by
  rw [Int.sub_eq_add_neg, Word.ofInt_add, BitVec.sub_eq_add_neg, ← BitVec.ofInt_neg]

/-- The state of the processor and the memory. -/
structure Machine where
  regs : Reg → Word
  /-- The product of the last multiplication. -/
  lo : Word
  /-- The words of memory by address. -/
  mem : Word → Word

namespace Machine

/-- The contents of a register; `$zero` is always zero. -/
def reg (m : Machine) : Reg → Word
  | .zero => 0
  | r => m.regs r

/-- Writes a register. -/
def set (m : Machine) (r : Reg) (w : Word) : Machine :=
  { m with regs := Function.update m.regs r w }

/-- Writes a word of memory. -/
def store (m : Machine) (address w : Word) : Machine :=
  { m with mem := Function.update m.mem address w }

variable (m : Machine) (r r' : Reg) (w address address' : Word)

@[simp] theorem reg_zero : m.reg .zero = 0 :=
  rfl

theorem reg_set : (m.set r w).reg r' = if r' = r ∧ r' ≠ .zero then w else m.reg r' := by
  cases r' <;> simp [reg, set, Function.update_apply, eq_comm]

@[simp] theorem reg_set_self (h : r ≠ .zero) : (m.set r w).reg r = w := by
  simp [reg_set, h]

@[simp] theorem reg_set_of_ne (h : r' ≠ r) : (m.set r w).reg r' = m.reg r' := by
  simp [reg_set, h]

@[simp] theorem set_set (w' : Word) : (m.set r w).set r w' = m.set r w' := by
  simp [set]

@[simp] theorem mem_set : (m.set r w).mem = m.mem :=
  rfl

@[simp] theorem reg_store : (m.store address w).reg r = m.reg r := by
  cases r <;> rfl

theorem mem_store : (m.store address w).mem = Function.update m.mem address w :=
  rfl

@[simp] theorem mem_store_self : (m.store address w).mem address = w := by
  simp [store]

@[simp] theorem mem_store_of_ne (h : address' ≠ address) :
    (m.store address w).mem address' = m.mem address' := by
  simp [store, h]

end Machine

/-- Where the assembler put a program. -/
structure Image where
  /-- The address of a label. -/
  label : Label → Word
  /-- The address of a line of the code. -/
  line : Nat → Word

/-- How a line of code ends. -/
inductive Outcome where
  /-- The next line is executed. -/
  | next (m : Machine)
  /-- Control goes to a label. -/
  | jump (l : Label) (m : Machine)
  /-- Control goes to an address. -/
  | goto (address : Word) (m : Machine)
  /-- The operating system is called. -/
  | system (m : Machine)

/-- The truth value as a word. -/
def Word.ofBool (b : Bool) : Word :=
  if b then 1 else 0

/-- The result of an operation on two words. -/
def AluOp.eval (a b : Word) : AluOp → Word
  | .addu => a + b
  | .subu => a - b
  | .seq => .ofBool (a == b)
  | .slt => .ofBool (a.slt b)
  | .sgt => .ofBool (b.slt a)

/-- Whether a branch is taken. -/
def BranchOp.taken (a b : Word) : BranchOp → Bool
  | .beq => a == b
  | .bne => a != b
  | .bgeu => b.ule a

/-- What a data word is in memory. -/
def DataWord.value (image : Image) : DataWord → Word
  | .int n => .ofInt n
  | .label l => image.label l

/-- The memory holds a data segment: labels take no room, and words stand behind the line before
them. -/
def Image.Loads (image : Image) (data : Code) (mem : Word → Word) : Prop :=
  ∃ place : Nat → Word,
    (∀ i l, data.LabelAt l i → image.label l = place i ∧ place (i + 1) = place i) ∧
    ∀ i w, data.insts[i]? = some (.word w) →
      mem (place i) = w.value image ∧ place (i + 1) = place i + .ofInt wordSize

/-- In memory the words behind a label count from its address. -/
theorem Image.Loads.mem_eq {image : Image} {data : Code} {mem : Word → Word} {l : Label}
    {words : List DataWord} {k : Nat} {w : DataWord} (h : image.Loads data mem)
    (hwords : data.HoldsWords l words) (hk : words[k]? = some w) :
    mem (image.label l + .ofInt (k * wordSize)) = w.value image := by
  obtain ⟨place, hlabels, hplaces⟩ := h
  obtain ⟨_, pre, post, hdata⟩ := hwords
  have hget : ∀ {j v}, words[j]? = some v →
      data.insts[pre.length + 1 + j]? = some (.word v) := by
    intro j v hj
    have hlt := (List.getElem?_eq_some_iff.1 hj).1
    rw [hdata, Nat.add_assoc, List.getElem?_append_right (Nat.le_add_right _ _),
      Nat.add_sub_cancel_left, Nat.add_comm 1, List.getElem?_cons_succ,
      List.getElem?_append_left (by simpa using hlt), List.getElem?_map, hj]
    rfl
  -- The words before the one in question fill the room up to it.
  have hplace : ∀ j ≤ k, place (pre.length + 1 + j) = image.label l + .ofInt (j * wordSize) := by
    intro j hj
    induction j with
    | zero =>
      obtain ⟨hl, hnext⟩ := hlabels pre.length l (by
        rw [Code.LabelAt, hdata, List.getElem?_append_right (Nat.le_refl _), Nat.sub_self]
        rfl)
      simp [hl, hnext]
    | succ j ih =>
      obtain ⟨v, hv⟩ : ∃ v, words[j]? = some v := by
        have hlt := (List.getElem?_eq_some_iff.1 hk).1
        exact ⟨_, List.getElem?_eq_getElem (show j < words.length by omega)⟩
      rw [← Nat.add_assoc, (hplaces _ v (hget hv)).2, ih (by omega), BitVec.add_assoc,
        ← BitVec.ofInt_add]
      rw [Int.natCast_succ, Int.add_mul, Int.one_mul]
  rw [← hplace k (Nat.le_refl k)]
  exact (hplaces _ w (hget hk)).1

/-- Executes one line.  `back` is the address behind it, where a call returns to. -/
def Inst.exec (image : Image) (back : Word) (m : Machine) : Inst → Outcome
  | .label _ | .segment _ | .globl _ | .word _ | .ascii _ | .align _ => .next m
  | .li rd imm => .next (m.set rd (.ofInt imm))
  | .la rd l => .next (m.set rd (image.label l))
  | .lw rt offset base => .next (m.set rt (m.mem (m.reg base + .ofInt offset)))
  | .sw rt offset base => .next (m.store (m.reg base + .ofInt offset) (m.reg rt))
  | .adduImm rd rs imm => .next (m.set rd (m.reg rs + .ofInt imm))
  | .subuImm rd rs imm => .next (m.set rd (m.reg rs - .ofInt imm))
  | .xorImm rd rs imm => .next (m.set rd (m.reg rs ^^^ .ofInt imm))
  | .sll rd rs amount => .next (m.set rd (m.reg rs <<< amount))
  | .alu op rd rs rt => .next (m.set rd (op.eval (m.reg rs) (m.reg rt)))
  | .mult rs rt => .next { m with lo := m.reg rs * m.reg rt }
  | .mflo rd => .next (m.set rd m.lo)
  | .branch op rs rt l => if op.taken (m.reg rs) (m.reg rt) then .jump l m else .next m
  | .j l => .jump l m
  | .jal l => .jump l (m.set .ra back)
  | .jalr rs => .goto (m.reg rs) (m.set .ra back)
  | .jr rs => .goto (m.reg rs) m
  | .syscall => .system m

/-- Executes lines that stand one after the other from position `i` on, as long as each leads to
the next. -/
def execFrom (image : Image) (i : Nat) (m : Machine) : List Inst → Outcome
  | [] => .next m
  | inst :: rest =>
    match inst.exec image (image.line (i + 1)) m with
    | .next m => execFrom image (i + 1) m rest
    | outcome => outcome

section Runs

variable {image : Image} {i : Nat} {m : Machine}

@[simp] theorem execFrom_nil : execFrom image i m [] = .next m :=
  rfl

theorem execFrom_append {insts rest : List Inst} {m' : Machine}
    (h : execFrom image i m insts = .next m') :
    execFrom image i m (insts ++ rest) = execFrom image (i + insts.length) m' rest := by
  induction insts generalizing i m with
  | nil =>
    obtain rfl : m = m' := by simpa using h
    rfl
  | cons inst insts ih =>
    rw [List.cons_append, execFrom, List.length_cons]
    rw [execFrom] at h
    cases hinst : inst.exec image (image.line (i + 1)) m with
    | next m₁ =>
      simp only [hinst] at h ⊢
      rw [ih h]
      congr 1
      omega
    | jump | goto | system => simp [hinst] at h

end Runs

end MipsBackend
