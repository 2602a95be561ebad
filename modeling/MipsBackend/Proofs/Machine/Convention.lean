import MipsBackend.Proofs.Code.Steps
import MipsBackend.Proofs.Layout.Ranges
import MipsBackend.Proofs.Machine.Sequences
import MipsBackend.Proofs.Machine.Stack

/-!
# The calling convention

A caller pushes the receiver and the arguments and enters the method.  The layout pass chose the
offsets of the formal parameters, the generator of calls finds the receiver below them, and the
prologue and epilogue save, restore and return.  This module puts the pieces together.

All addresses are counted down from `base`, the stack pointer before the receiver was pushed.  With
`n` words of arguments the receiver is at 1 word below, the arguments at 2 to `n + 1`, and `$s2` is
saved at `n + 2`.  The return address takes the place of the receiver, and the result that of the
receiver and the word below it.

* `Called` is what entering a method changes, and `exists_called` that it changes no more.
* `Agreement` says what a callee finds and what it leaves, and `agreement` proves it.
* `CallAgrees` is about the code of a call and of a method, and `callAgrees_of_compute` shows that
  it holds of all that the generator makes.
-/

namespace MipsBackend

open Gen Layout

variable {p : Program} {L : Layout} {data : Code} {id : MethodId} {decl : MethodDecl}
  {ml : MethodLayout} {tys : List Ty} {image : Image} {m m₁ m₂ : Machine}
  {base receiver back : Word} {values : List Word}

/-! ## Entering a method -/

/-- A call changes the return address and a scratch register. -/
structure Called (back : Word) (m m₁ : Machine) : Prop where
  mem : m₁.mem = m.mem
  ra : m₁.reg .ra = back
  reg {r : Reg} : r ≠ .t0 → r ≠ .ra → m₁.reg r = m.reg r

/-- Entering a method calls it: at its label if the receiver is `super`, else at an address from
the receiver's table, unless the receiver is null. -/
theorem exists_called {isSuper : Bool} {enter : List Inst} {i : Nat}
    (henter : Enters p L isSuper id enter) (hml : L.methodAt id = .ok ml)
    (hreceiver : m.mem (m.reg .sp + .ofInt (ml.receiverOffset - wordSize)) = receiver)
    (hnull : isSuper ∨ receiver ≠ 0) :
    ∃ m₁, Called (image.line (i + enter.length)) m m₁ ∧
      if isSuper then ∃ label, p.methodLabel id = .ok label ∧
        execFrom image i m enter = .jump label m₁
      else ∃ entry, execFrom image i m enter = .goto entry m₁ := by
  cases isSuper with
  | true =>
    obtain ⟨label, hlabel, rfl⟩ := henter
    refine ⟨m.set .ra (image.line (i + 1)), ⟨rfl, by simp, ?_⟩, label, hlabel, rfl⟩
    intro r _ hra
    simp [hra]
  | false =>
    obtain ⟨ml', hml', hdispatch⟩ := henter
    obtain rfl : ml = ml' := Except.ok.inj (hml.symm.trans hml')
    have hreal : receiver ≠ 0 := by simpa using hnull
    refine ⟨_, ⟨?_, ?_, ?_⟩, _, execFrom_dispatch hdispatch hreceiver hreal rfl⟩
    · rfl
    · obtain ⟨_, rfl⟩ := dispatch_eq_ok_iff.1 hdispatch
      simp [loadEntry]
    · intro r ht0 hra
      simp [ht0, hra]

/-! ## What a callee finds and leaves -/

/-- A result that is stored at the first word below a base is pushed there. -/
theorem withResult_eq_of_getElem? {ty : Ty} {k : Nat} {w : Word}
    (h : (valueWords (m.reg .s5) ty (m.mem (m.reg .sp)))[k]? = some w) :
    withResult m ty (base - .ofInt wordSize) (base - .ofInt ((k + 1) * wordSize)) = w := by
  have hlast : base - .ofInt wordSize - .ofInt wordSize = base - .ofInt ((1 + 1) * wordSize) :=
    Word.sub_sub_ofInt base wordSize wordSize
  have hne : base - .ofInt wordSize ≠ base - .ofInt ((1 + 1) * wordSize) :=
    Word.sub_ofInt_ne (by decide) (by decide)
  rw [valueWords] at h
  rw [withResult]
  split at h
  · simp at h
  · rename_i hvoid
    rw [if_neg hvoid]
    split at h
    · rename_i hscalar
      rw [if_pos hscalar, hlast]
      have hlt := (List.getElem?_eq_some_iff.1 h).1
      obtain rfl | rfl : k = 0 ∨ k = 1 := Nat.le_one_iff_eq_zero_or_eq_one.1 (Nat.le_of_lt_succ hlt)
      · rw [show (((0 : Nat) : Int) + 1) * wordSize = wordSize from rfl, Function.update_self]
        simpa using h
      · rw [show (((1 : Nat) : Int) + 1) * wordSize = (1 + 1) * wordSize from rfl,
          Function.update_of_ne hne.symm, Function.update_self]
        simpa using h
    · rename_i hscalar
      rw [if_neg hscalar]
      obtain rfl : k = 0 := Nat.lt_one_iff.1 (List.getElem?_eq_some_iff.1 h).1
      · rw [show (((0 : Nat) : Int) + 1) * wordSize = wordSize from rfl, Function.update_self]
        simpa using h

/-- Storing a result touches no words but the two that it may take. -/
theorem withResult_of_ne {ty : Ty} {slot address : Word} (hslot : address ≠ slot)
    (hbelow : address ≠ slot - .ofInt wordSize) :
    withResult m ty slot address = m.mem address := by
  rw [withResult]
  split
  · rfl
  · split
    · rw [Function.update_of_ne hslot, Function.update_of_ne hbelow]
    · rw [Function.update_of_ne hslot]

/-- What holds between a caller's state `m` and the callee that was entered in state `m₁`. -/
structure Agreement (p : Program) (L : Layout) (decl : MethodDecl) (ml : MethodLayout)
    (tys : List Ty) (image : Image) (m m₁ : Machine) (base receiver back : Word)
    (values : List Word) : Prop where
  /-- The prologue runs through. -/
  prologue_run (j : Nat) : execFrom image j m₁ (prologue ml.receiverOffset) =
    .next (entered m₁ ml.receiverOffset)
  /-- It leaves the receiver in `$s2`. -/
  this : (entered m₁ ml.receiverOffset).reg .s2 = receiver
  /-- The data word of an argument is where the offset of its parameter leads, from any height. -/
  argument {k : Nat} {formal : VarId} {ty : Ty} {value : Word} {offset : Int} :
    decl.formals[k]? = some formal → tys[k]? = some ty → ty.isVoid = false →
    values[k]? = some value → L.varOffset formal = .ok offset →
    ∃ address, address = base - .ofInt ((1 + Ty.frameWords (tys.take (k + 1))) * wordSize) ∧
      m.mem address = value ∧ (entered m₁ ml.receiverOffset).mem address = value ∧
      (∀ height : Int, (entered m₁ ml.receiverOffset).reg .sp - .ofInt height
        + .ofInt (height + offset) = address) ∧
      ∀ {g g' : Frame} {a : Int × Reg} {v : VarDecl} {method : MethodId},
        p.varAt formal = .ok v → v.kind = .formal method →
        (varAddress p L formal).run g = .ok (a, g') → a = (g.height + offset, .sp)
  /-- If the saved words are intact and the stack has the height that the epilogue was made for,
  it returns to the caller with the caller's receiver, the result in place of receiver and
  arguments, and the rest of memory as it was. -/
  return_run {m₂ : Machine} {height : Int} {leave : List Inst} (j : Nat) :
    epilogue ml.receiverOffset height decl.returnType = .ok leave →
    m₂.reg .sp = (entered m₁ ml.receiverOffset).reg .sp - .ofInt height →
    (∀ address, address = (entered m₁ ml.receiverOffset).reg .sp ∨
        address = (entered m₁ ml.receiverOffset).reg .sp + .ofInt ml.receiverOffset →
      m₂.mem address = (entered m₁ ml.receiverOffset).mem address) →
    ∃ m₃, execFrom image j m₂ leave = .goto back m₃ ∧ m₃.reg .s2 = m.reg .s2 ∧
      m₃.Pushed base
        (valueWords (m₂.reg .s5) decl.returnType (m₂.mem (m₂.reg .sp))) ∧
      m₃.reg .s5 = m₂.reg .s5 ∧
      ∀ address, address ≠ base - .ofInt wordSize → address ≠ base - .ofInt (2 * wordSize) →
        m₃.mem address = m₂.mem address

section Callee

variable (hplaced : FormalsPlaced p L decl.formals tys ml.receiverOffset)
include hplaced

/-- The saved word lies below the one that takes the receiver and then the return address. -/
theorem savedWord_ne_receiverSlot (base : Word) :
    base - .ofInt (ml.receiverOffset + wordSize) ≠ base - .ofInt wordSize := by
  have hpositive := frameWords_nonneg tys
  have hreceiverOffset := hplaced.receiver
  have hfits := hplaced.fits.2
  refine (Word.sub_ofInt_ne ?_ ?_).symm
  · rw [wordSize] at hreceiverOffset ⊢
    omega
  · omega

/-- The offset of a parameter leaves room for the parameters from it on. -/
theorem formalOffset_eq {k : Nat} {formal : VarId} {offset : Int}
    (hformal : decl.formals[k]? = some formal) (hoffset : L.varOffset formal = .ok offset) :
    offset = ml.receiverOffset - Ty.frameWords (tys.take (k + 1)) * wordSize := by
  have hfound := hplaced.offset hformal
  rw [sum_stackBytes] at hfound
  exact Except.ok.inj (hoffset.symm.trans hfound)

variable (hlength : values.length = tys.length)
  (hpushed : m.Pushed base (receiver :: operandWords (m.reg .s5) tys values))
include hlength hpushed

/-- The stack pointer at the call is as far below the base as the receiver's slot is above the
callee's saved word. -/
theorem sp_eq_of_pushed : m.reg .sp = base - .ofInt ml.receiverOffset := by
  have hwords := length_operandWords (m.reg .s5) hlength
  rw [hpushed.sp, hplaced.receiver]
  congr 2
  rw [List.length_cons]
  push_cast
  rw [hwords, Int.add_comm]

/-- The receiver's slot is the first word below the base. -/
theorem receiver_of_pushed :
    m.mem (m.reg .sp + .ofInt (ml.receiverOffset - wordSize)) = receiver := by
  rw [sp_eq_of_pushed hplaced hlength hpushed, Word.sub_add_ofInt,
    show ml.receiverOffset - (ml.receiverOffset - wordSize) = ((0 : Nat) + 1) * wordSize by
      rw [wordSize]; omega]
  exact hpushed.mem rfl

variable (hcalled : Called back m m₁)
include hcalled

/-- The saved word lies behind the arguments, and the return address is where the receiver was. -/
theorem entered_of_pushed :
    (entered m₁ ml.receiverOffset).reg .sp = base - .ofInt (ml.receiverOffset + wordSize) ∧
      (entered m₁ ml.receiverOffset).reg .s2 = receiver ∧
      (entered m₁ ml.receiverOffset).mem =
        Function.update (Function.update m.mem (base - .ofInt (ml.receiverOffset + wordSize))
          (m.reg .s2)) (base - .ofInt wordSize) back := by
  have hsp : m₁.reg .sp - .ofInt wordSize = base - .ofInt (ml.receiverOffset + wordSize) := by
    rw [hcalled.reg (by decide) (by decide), sp_eq_of_pushed hplaced hlength hpushed,
      Word.sub_sub_ofInt]
  have hslot : base - .ofInt (ml.receiverOffset + wordSize) + .ofInt ml.receiverOffset =
      base - .ofInt wordSize := by
    rw [Word.sub_add_ofInt, show ml.receiverOffset + wordSize - ml.receiverOffset = wordSize by
      omega]
  have hs2 : m₁.reg .s2 = m.reg .s2 := hcalled.reg (by decide) (by decide)
  have hreceiver : m.mem (base - .ofInt wordSize) = receiver := hpushed.mem (k := 0) rfl
  have hne := (savedWord_ne_receiverSlot hplaced base).symm
  refine ⟨?_, ?_, ?_⟩
  · simp [entered, hsp]
  · simp [entered, hsp, hslot, hcalled.mem, hne, hreceiver]
  · simp [entered, hsp, hslot, hcalled.mem, hcalled.ra, hs2, Machine.mem_store]

/-- The prologue leaves the words between the two that it writes as they were. -/
theorem entered_mem_of_lt {n : Int} (hlow : wordSize < n)
    (hhigh : n < ml.receiverOffset + wordSize) :
    (entered m₁ ml.receiverOffset).mem (base - .ofInt n) = m.mem (base - .ofInt n) := by
  obtain ⟨_, _, hmem⟩ := entered_of_pushed hplaced hlength hpushed hcalled
  have hfits := hplaced.fits.2
  rw [wordSize] at hlow hhigh
  rw [hmem, Function.update_of_ne, Function.update_of_ne]
  · refine Word.sub_ofInt_ne ?_ ?_ <;> rw [wordSize] <;> omega
  · refine (Word.sub_ofInt_ne ?_ ?_).symm <;> rw [wordSize] <;> omega

/-- The data word of an argument was pushed behind those of the arguments before it, and the
prologue leaves it there. -/
theorem argument_of_pushed {k : Nat} {ty : Ty} {value : Word} (hty : tys[k]? = some ty)
    (hvalue : ty.isVoid = false) (hdata : values[k]? = some value) :
    m.mem (base - .ofInt ((1 + Ty.frameWords (tys.take (k + 1))) * wordSize)) = value ∧
      (entered m₁ ml.receiverOffset).mem
        (base - .ofInt ((1 + Ty.frameWords (tys.take (k + 1))) * wordSize)) = value := by
  obtain ⟨j, hj, hwords⟩ := getElem?_operandWords (m.reg .s5) hty hvalue hdata
  have hargument : m.mem (base - .ofInt ((1 + Ty.frameWords (tys.take (k + 1))) * wordSize)) =
      value := by
    have hword : (receiver :: operandWords (m.reg .s5) tys values)[j + 1]? = some value := hj
    rw [← hwords, Int.add_comm]
    exact hpushed.mem hword
  refine ⟨hargument, ?_⟩
  have hle := frameWords_take_le tys (k + 1)
  have hreceiverOffset := hplaced.receiver
  rw [entered_mem_of_lt hplaced hlength hpushed hcalled, hargument]
  · rw [wordSize]
    omega
  · rw [hreceiverOffset, wordSize]
    omega

variable {height : Int}
  (hsp₂ : m₂.reg .sp = (entered m₁ ml.receiverOffset).reg .sp - .ofInt height)
include hsp₂

/-- From any height, the epilogue finds the saved word and the return address where the prologue
left them. -/
theorem frame_of_entered :
    m₂.reg .sp + .ofInt height = (entered m₁ ml.receiverOffset).reg .sp ∧
      m₂.reg .sp + .ofInt (ml.receiverOffset + height) = base - .ofInt wordSize := by
  obtain ⟨hsp, _, _⟩ := entered_of_pushed hplaced hlength hpushed hcalled
  rw [hsp₂, hsp, Word.sub_sub_ofInt, Word.sub_add_ofInt, Word.sub_add_ofInt]
  constructor <;> congr 2 <;> omega

/-- If the two words are intact, the epilogue restores the caller's receiver and returns to the
caller. -/
theorem restored_of_intact
    (hintact : ∀ address, address = (entered m₁ ml.receiverOffset).reg .sp ∨
        address = (entered m₁ ml.receiverOffset).reg .sp + .ofInt ml.receiverOffset →
      m₂.mem address = (entered m₁ ml.receiverOffset).mem address) :
    m₂.mem (m₂.reg .sp + .ofInt height) = m.reg .s2 ∧
      m₂.mem (base - .ofInt wordSize) = back := by
  obtain ⟨hsp, _, hmem⟩ := entered_of_pushed hplaced hlength hpushed hcalled
  obtain ⟨hsaved, _⟩ := frame_of_entered hplaced hlength hpushed hcalled hsp₂
  constructor
  · rw [hsaved, hintact _ (Or.inl rfl), hmem, hsp,
      Function.update_of_ne (savedWord_ne_receiverSlot hplaced base), Function.update_self]
  · rw [hintact _ (Or.inr ?_), hmem, Function.update_self]
    rw [hsp, Word.sub_add_ofInt]
    congr 2
    omega

omit hsp₂

/-- Caller and callee agree on the receiver, the arguments, the return address and the result. -/
theorem agreement : Agreement p L decl ml tys image m m₁ base receiver back values := by
  obtain ⟨hsp, hthis, _⟩ := entered_of_pushed hplaced hlength hpushed hcalled
  refine ⟨fun _ => execFrom_prologue, hthis, ?_, ?_⟩
  · intro k formal ty value offset hformal hty hvalue hdata hoffset
    obtain ⟨hargument, hentered⟩ := argument_of_pushed hplaced hlength hpushed hcalled hty hvalue
      hdata
    refine ⟨_, rfl, hargument, hentered, ?_, ?_⟩
    · intro height
      rw [hsp, Word.sub_sub_ofInt, Word.sub_add_ofInt, formalOffset_eq hplaced hformal hoffset]
      congr 2
      rw [Int.add_mul]
      omega
    · intro g g' a v method hv hkind haddress
      exact varAddress_formal_run haddress hv hkind hoffset
  · intro m₂ height leave j hleave hsp₂ hintact
    obtain ⟨m₃, hrun, hs2, hsp₃, hmem₃, hreg⟩ := execFrom_epilogue image j m₂ hleave
    obtain ⟨_, hslot⟩ := frame_of_entered hplaced hlength hpushed hcalled hsp₂
    obtain ⟨hsaved, hback⟩ := restored_of_intact hplaced hlength hpushed hcalled hsp₂ hintact
    rw [hslot] at hrun hmem₃
    rw [hback] at hrun
    refine ⟨m₃, hrun, hs2.trans hsaved, ⟨?_, ?_⟩,
      hreg .s5 (by decide) (by decide) (by decide) (by decide), ?_⟩
    · rw [hsp₃, hsp₂, hsp, Word.sub_sub_ofInt, Word.sub_add_ofInt, length_valueWords]
      congr 2
      rw [Ty.stackBytes]
      omega
    · intro k w hk
      rw [hmem₃]
      exact withResult_eq_of_getElem? hk
    · intro address hfirst hsecond
      have hbelow : base - .ofInt wordSize - .ofInt wordSize = base - .ofInt (2 * wordSize) :=
        Word.sub_sub_ofInt base wordSize wordSize
      rw [hmem₃]
      exact withResult_of_ne hfirst (hbelow ▸ hsecond)

end Callee

/-! ## Calls and methods of a program -/

/-- Arguments that are as wide as the parameters are as wide as the parameters' types. -/
theorem stackBytes_of_varTypes {args : List (Unit → ExprTree)} {formals : List VarId}
    (hwidths : List.Forall₂ (fun arg formal => ∃ v, p.varAt formal = .ok v ∧
      (arg ()).ty.stackBytes = v.ty.stackBytes) args formals) (htypes : VarTypes p formals tys) :
    List.Forall₂ (fun ty ty' => ty.stackBytes = ty'.stackBytes)
      (args.map fun arg => (arg ()).ty) tys := by
  induction hwidths generalizing tys with
  | nil =>
    cases htypes
    exact .nil
  | cons hfirst _ ih =>
    obtain ⟨v, hv, hwidth⟩ := hfirst
    cases htypes with
    | cons hty htypes =>
      obtain ⟨v', hv', rfl⟩ := hty
      obtain rfl : v = v' := Except.ok.inj (hv.symm.trans hv')
      exact .cons hwidth (ih htypes)

/-- The code of a call of method `id` and the code of the method agree.  The call evaluates `target`
and the arguments and then enters the method.  Wherever the stack is and whatever was pushed for
the operands, the receiver is where the call looks for it, entering the method is a call, and the
method's prologue and epilogue are in `Agreement` with it. -/
def CallAgrees (p : Program) (L : Layout) (id : MethodId) (decl : MethodDecl) (info : ExprInfo)
    (target : Unit → ExprTree) (args : List (Unit → ExprTree)) (f : Frame) (code callee : Code) :
    Prop :=
  ∃ ml tys first passed f₁ f₂ enter label body height leave, L.methodAt id = .ok ml ∧
    VarTypes p decl.formals tys ∧
    ((target ()).code p L).run f = .ok (first, f₁) ∧
    (ExprTree.codeAll p L args).run f₁ = .ok (passed, f₂) ∧
    code = first ++ passed ++ Code.of info.span enter ∧
    p.methodLabel id = .ok label ∧
    callee.insts = [.globl label, .label label] ++ prologue ml.receiverOffset ++ body ++ leave ∧
    epilogue ml.receiverOffset height decl.returnType = .ok leave ∧
    ∀ (image : Image) (i : Nat) (m : Machine) (base receiver : Word) (values : List Word),
      values.length = args.length →
      m.Pushed base (valueWords (m.reg .s5) (target ()).ty receiver ++
        operandWords (m.reg .s5) (args.map fun arg => (arg ()).ty) values) →
      m.mem (m.reg .sp + .ofInt (ml.receiverOffset - wordSize)) = receiver ∧
        ((target ()).isSuper ∨ receiver ≠ 0 → ∃ m₁,
          Called (image.line (i + enter.length)) m m₁ ∧
            if (target ()).isSuper then execFrom image i m enter = .jump label m₁
            else ∃ entry, execFrom image i m enter = .goto entry m₁) ∧
        ∀ m₁, Called (image.line (i + enter.length)) m m₁ →
          Agreement p L decl ml tys image m m₁ base receiver (image.line (i + enter.length))
            values

/-- Every call of a method of the program whose receiver is a reference and whose arguments are as
wide as the parameters agrees with the method's code. -/
theorem callAgrees_of_compute {callee code : Code} {info : ExprInfo} {target : Unit → ExprTree}
    {args : List (Unit → ExprTree)} {f f' : Frame} (h : compute p = .ok (L, data))
    (hcallee : p.methodCode L id = .ok callee) (hdecl : p.methodAt id = .ok decl)
    (hcall : ((ExprTree.call info target id args).code p L).run f = .ok (code, f'))
    (hreference : (target ()).ty.isReference)
    (hwidths : List.Forall₂ (fun arg formal => ∃ v, p.varAt formal = .ok v ∧
      (arg ()).ty.stackBytes = v.ty.stackBytes) args decl.formals) :
    CallAgrees p L id decl info target args f code callee := by
  obtain ⟨decl', label, ml, body, _, result, span, f₃, leave, hdecl', _, hlabel, hml, _, _, hleave,
    rfl⟩ := Program.methodCode_eq_ok hcallee
  obtain rfl : decl = decl' := Except.ok.inj (hdecl.symm.trans hdecl')
  obtain ⟨_, _, _, hplaced⟩ := (compute_eq_ok h).exists_methodPlaced hml
  obtain ⟨decl', ml', tys, hdecl', hml', hformals, _⟩ := hplaced
  obtain rfl : decl = decl' := Except.ok.inj (hdecl.symm.trans hdecl')
  obtain rfl : ml = ml' := Except.ok.inj (hml.symm.trans hml')
  obtain ⟨_, first, passed, enter, f₁, f₂, _, _, hfirst, hpassed, henter, _, rfl⟩ :=
    ExprTree.call_run hcall
  have hargs := stackBytes_of_varTypes hwidths hformals.types
  have hinsts : Code.insts (Code.of decl.span ([.globl label, .label label]
      ++ prologue ml.receiverOffset) ++ body ++ result ++ Code.of span leave) =
      [.globl label, .label label] ++ prologue ml.receiverOffset ++ (body.insts ++ result.insts)
        ++ leave := by
    simp [Code.insts_append]
  refine ⟨ml, tys, first, passed, f₁, f₂, enter, label, body.insts ++ result.insts, f₃.height,
    leave, hml, hformals.types, hfirst, hpassed, rfl, hlabel, hinsts, hleave, ?_⟩
  intro image i m base receiver values hlength hpushed
  rw [valueWords_of_isReference hreference, operandWords_congr hargs] at hpushed
  have hlength' : values.length = tys.length := by
    rw [hlength, ← hargs.length_eq, List.length_map]
  have hreceiver := receiver_of_pushed hformals hlength' hpushed
  refine ⟨hreceiver, ?_, fun m₁ hcalled => agreement hformals hlength' hpushed hcalled⟩
  intro hnull
  obtain ⟨m₁, hcalled, hexec⟩ := exists_called henter hml hreceiver hnull
  refine ⟨m₁, hcalled, ?_⟩
  split
  · rename_i hsuper
    rw [if_pos hsuper] at hexec
    obtain ⟨label', hlabel', hexec⟩ := hexec
    obtain rfl : label = label' := Except.ok.inj (hlabel.symm.trans hlabel')
    exact hexec
  · rename_i hvirtual
    rw [if_neg hvirtual] at hexec
    exact hexec

/-- The entry point of `shapes` calls `scale`, which has a scalar and a reference parameter. -/
theorem callAgrees_scale : ∃ L data callee decl info target args code f',
    compute shapes = .ok (L, data) ∧ shapes.methodCode L ⟨2⟩ = .ok callee ∧
      shapes.methodAt ⟨2⟩ = .ok decl ∧
      ((ExprTree.call info target ⟨2⟩ args).code shapes L).run .empty = .ok (code, f') ∧
      CallAgrees shapes L ⟨2⟩ decl info target args .empty code callee := by
  obtain ⟨⟨code, f'⟩, hcode⟩ := exists_eq_ok_of_isSome
    (show (do
        let laid ← compute shapes
        let _ ← shapes.methodCode laid.1 ⟨2⟩
        ((shapes.exprTree ⟨18⟩).code shapes laid.1).run .empty).toOption.isSome by decide +kernel)
  obtain ⟨⟨L, data⟩, h, hcode⟩ := bind_eq_ok_iff.1 hcode
  obtain ⟨callee, hcallee, hcall⟩ := bind_eq_ok_iff.1 hcode
  exact ⟨L, data, callee, _, _, _, _, code, f', h, hcallee, rfl, hcall,
    callAgrees_of_compute h hcallee rfl hcall rfl
      (.cons ⟨_, rfl, rfl⟩ (.cons ⟨_, rfl, rfl⟩ .nil))⟩

end MipsBackend
