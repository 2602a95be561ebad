import MipsBackend.Proofs.Hierarchy.Subtyping
import MipsBackend.Proofs.Source.WellFormed

/-!
# The generator does not fail

On trees that are word-typed, resolved and well-scoped, every step of the code generator succeeds,
as long as no height or offset leaves the 32-bit words.  This module shows it from the inside out.

* `Gen.Raises` says of a part of the generator that it succeeds and by how much it changes the
  height.  Parts compose by adding up (`Gen.Raises.bind`).
* `Layout.Covers` is what the generator needs of a layout, `Addressable` what it needs of a variable
  and `Frame.HasRoom` what it needs of the frame: a height below the limit with the peak of the code
  to come on top.
* `ExprTree.CanGenerate` says that the code of an expression can be generated in any frame that is
  ready for it, and `ExprTree.canGenerate` proves it by induction on the expression.
-/

namespace MipsBackend

variable {p : Program} {l : Layout} {f f' : Frame} {top : Int} {span : Span}
  {locals : List (VarId × Int)}

namespace Gen

variable {α β : Type} {gen : Gen α} {next : α → Gen β} {n m k : Int}

/-- The generator succeeds, raises the height and leaves the rest of the frame alone. -/
def Raises (gen : Gen α) (f : Frame) (n : Int) : Prop :=
  Succeeds gen f fun _ f' => f' = { f with height := f.height + n }

/-! ## Steps of the generator -/

theorem raises_pure (a : α) : Raises (pure a) f 0 :=
  succeeds_pure_iff.2 (f.eq_with_height (Int.add_zero _))

theorem Raises.succeeds {post : β → Frame → Prop} (h : Raises gen f n)
    (hnext : ∀ a, Succeeds (next a) { f with height := f.height + n } post) :
    Succeeds (gen >>= next) f post := by
  refine succeeds_bind_iff.2 (h.mono ?_)
  intro a f' hf'
  rw [hf']
  exact hnext a

theorem Raises.bind (h : Raises gen f n)
    (hnext : ∀ a, Raises (next a) { f with height := f.height + n } m) (hsum : k = n + m) :
    Raises (gen >>= next) f k := by
  refine h.succeeds fun a => (hnext a).mono ?_
  intro b f' hf'
  rw [hf', hsum, Int.add_assoc]

/-- What is read from the program or the layout does not touch the frame. -/
theorem raises_liftM {op : Except Fault α} {next : α → Gen β} {a : α} (hop : op = .ok a)
    (hnext : Raises (next a) f k) : Raises (liftM op >>= next) f k :=
  succeeds_liftM_bind hop hnext

theorem raises_height {next : Int → Gen β} (hnext : Raises (next f.height) f k) :
    Raises (height >>= next) f k := by
  refine succeeds_bind_iff.2 ?_
  rw [height, succeeds_bind_iff, succeeds_get_iff, succeeds_pure_iff]
  exact hnext

theorem raises_pushed (h : Offset.Fits (f.height + n)) : Raises (pushed n) f n := by
  simp only [Raises, pushed, succeeds_bind_iff, succeeds_get_iff, succeeds_liftM_iff,
    succeeds_set_iff]
  exact ⟨_, Frame.push_eq_ok_iff.2 ⟨h, rfl⟩, rfl⟩

theorem raises_popped (h : Offset.Fits (f.height - n)) (hle : n ≤ f.height) :
    Raises (popped n) f (-n) := by
  simp only [Raises, popped, succeeds_bind_iff, succeeds_get_iff, succeeds_liftM_iff,
    succeeds_set_iff]
  exact ⟨_, Frame.pop_eq_ok_iff.2 ⟨h, hle, rfl⟩, rfl⟩

theorem raises_restored {bottom : Int} (h : Offset.Fits (f.height - bottom))
    (hle : bottom ≤ f.height) : Raises (restored bottom) f (bottom - f.height) := by
  simp only [Raises, restored, succeeds_bind_iff, succeeds_get_iff, succeeds_liftM_iff,
    succeeds_set_iff, succeeds_pure_iff]
  refine ⟨_, Frame.restore_eq_ok_iff.2 ⟨h, hle, rfl, rfl⟩, ?_⟩
  rw [Int.add_comm, Int.sub_add_cancel]

theorem raises_pushScalar {reg : Reg} (h : Offset.Fits (f.height + 2 * wordSize)) :
    Raises (pushScalar span reg) f (2 * wordSize) :=
  (raises_pushed h).bind (fun _ => raises_pure _) (Int.add_zero _).symm

theorem raises_pushReference {reg : Reg} (h : Offset.Fits (f.height + wordSize)) :
    Raises (pushReference span reg) f wordSize :=
  (raises_pushed h).bind (fun _ => raises_pure _) (Int.add_zero _).symm

theorem raises_tagTop (h : Offset.Fits (f.height + wordSize)) :
    Raises (tagTop span) f wordSize :=
  (raises_pushed h).bind (fun _ => raises_pure _) (Int.add_zero _).symm

theorem raises_pushValue {ty : Ty} {reg : Reg} (hty : ty.isVoid = false)
    (h : Offset.Fits (f.height + ty.stackBytes)) :
    Raises (pushValue span ty reg) f ty.stackBytes := by
  rw [Ty.stackBytes_of_not_isVoid hty] at h ⊢
  rw [pushValue]
  by_cases hscalar : ty.isScalar
  · simp only [hscalar, if_true] at h ⊢
    exact raises_pushScalar h
  · simp only [hscalar, Bool.false_eq_true, if_false] at h ⊢
    exact raises_pushReference h

theorem raises_pop (h : Offset.Fits (f.height - n)) (hle : n ≤ f.height) :
    Raises (pop span n) f (-n) := by
  rw [pop]
  by_cases hzero : n = 0
  · rw [if_pos hzero, hzero]
    exact raises_pure _
  · rw [if_neg hzero]
    exact (raises_popped h hle).bind (fun _ => raises_pure _) (Int.add_zero _).symm

end Gen

theorem wordSize_nonneg : 0 ≤ wordSize := by
  decide

/-- What an operator takes is at least a scalar's worth. -/
theorem BinOp.le_stackBytes_of_takes {op : BinOp} {lhs rhs : Ty} (h : op.takes lhs rhs) :
    2 * wordSize ≤ lhs.stackBytes + rhs.stackBytes := by
  have hresult := stackBytes_of_takes h rfl
  have hword := wordSize_nonneg
  split at hresult <;> omega

/-! ## Room -/

/-- The frame can take some more bytes before the stack gets too high. -/
structure Frame.HasRoom (f : Frame) (bytes top : Int) : Prop where
  bottom : 0 ≤ f.height
  below : f.height + bytes ≤ top
  small : top < 2 ^ 31

namespace Frame.HasRoom

variable {bytes bytes' : Int}

theorem fits (h : f.HasRoom bytes top) {n : Int} (hbottom : 0 ≤ n) (hn : n ≤ f.height + bytes) :
    Offset.Fits n := by
  have hbelow := h.below
  have hsmall := h.small
  constructor <;> omega

theorem mono (h : f.HasRoom bytes top) (hle : bytes' ≤ bytes) : f.HasRoom bytes' top :=
  ⟨h.bottom, Int.le_trans (Int.add_le_add_left hle _) h.below, h.small⟩

theorem of_height_eq (h : f.HasRoom bytes top) (hheight : f'.height = f.height) :
    f'.HasRoom bytes top :=
  ⟨hheight ▸ h.bottom, hheight ▸ h.below, h.small⟩

theorem raise (h : f.HasRoom bytes top) {n : Int} (hn : 0 ≤ n) (hle : n + bytes' ≤ bytes) :
    HasRoom { f with height := f.height + n } bytes' top := by
  have hbottom := h.bottom
  have hbelow := h.below
  refine ⟨?_, ?_, h.small⟩
  · change 0 ≤ f.height + n
    omega
  · change f.height + n + bytes' ≤ top
    omega

end Frame.HasRoom

namespace Gen

variable {bytes h n : Int}

/-- What was pushed can be dropped. -/
theorem raises_restored_of_room (hroom : f.HasRoom bytes top) (hn : 0 ≤ n) (hle : n ≤ bytes) :
    Raises (restored f.height) { f with height := f.height + n } (-n) := by
  have hbottom := hroom.bottom
  have hdrop : -n = f.height - (f.height + n) := by omega
  rw [hdrop]
  refine raises_restored (hroom.fits ?_ ?_) ?_
  · dsimp only
    omega
  · dsimp only
    omega
  · dsimp only
    omega

theorem raises_pop_of_room (hroom : f.HasRoom bytes top) (hn : 0 ≤ n) (hle : n ≤ h)
    (hh : h ≤ bytes) : Raises (pop span n) { f with height := f.height + h } (-n) := by
  have hbottom := hroom.bottom
  refine raises_pop (hroom.fits ?_ ?_) ?_
  · dsimp only
    omega
  · dsimp only
    omega
  · dsimp only
    omega

end Gen

/-! ## Variables -/

/-- A variable can be addressed from every height up to `top`: instance variables lie in the object,
formal parameters in the frame of the caller, and local variables below the height at which they
were declared. -/
inductive Addressable (p : Program) (l : Layout) (locals : List (VarId × Int)) (top : Int)
    (x : VarId) : Prop where
  | instVar {decl : VarDecl} {c : ClassId} {offset : Int} : p.varAt x = .ok decl →
      decl.kind = .instVar c → l.varOffset x = .ok offset → Addressable p l locals top x
  | formal {decl : VarDecl} {m : MethodId} {offset : Int} : p.varAt x = .ok decl →
      decl.kind = .formal m → l.varOffset x = .ok offset → -2 ^ 31 ≤ offset →
      top + offset < 2 ^ 31 → Addressable p l locals top x
  | localVar {decl : VarDecl} {init : ExprId} {offset : Int} : p.varAt x = .ok decl →
      decl.kind = .localVar init → locals.lookup x = some offset → -2 ^ 31 ≤ offset →
      top + offset < 2 ^ 31 → Addressable p l locals top x

theorem Addressable.raises {x : VarId} (h : Addressable p l f.locals top x) (hbottom : 0 ≤ f.height)
    (htop : f.height ≤ top) : Gen.Raises (Gen.varAddress p l x) f 0 := by
  have hfits : ∀ {offset : Int}, -2 ^ 31 ≤ offset → top + offset < 2 ^ 31 →
      Offset.add f.height offset = .ok (f.height + offset) := by
    intro offset hlow hhigh
    exact Offset.checked_of_fits (by constructor <;> omega)
  rw [Gen.varAddress]
  cases h with
  | instVar hdecl hkind hoffset =>
    refine Gen.raises_liftM hdecl ?_
    simp only [hkind]
    exact Gen.raises_liftM hoffset (Gen.raises_pure _)
  | formal hdecl hkind hoffset hlow hhigh =>
    refine Gen.raises_liftM hdecl ?_
    simp only [hkind]
    refine Gen.raises_liftM hoffset (Gen.raises_height ?_)
    exact Gen.raises_liftM (hfits hlow hhigh) (Gen.raises_pure _)
  | localVar hdecl hkind hoffset hlow hhigh =>
    refine Gen.raises_liftM hdecl ?_
    simp only [hkind]
    refine succeeds_bind_iff.2 (succeeds_get_iff.2 ?_)
    refine Gen.raises_liftM (Frame.localOffset_eq_ok_iff.2 hoffset) (Gen.raises_height ?_)
    exact Gen.raises_liftM (hfits hlow hhigh) (Gen.raises_pure _)

/-! ## Layouts -/

/-- The layout has an entry for everything that code may refer to, objects can be allocated, and
methods can be entered through their slots. -/
structure Layout.Covers (p : Program) (l : Layout) : Prop where
  classLayout {c : ClassId} : p.hasClass c →
    ∃ cl, l.classAt c = .ok cl ∧ Offset.Fits (cl.numScalar + 1)
  methodLayout {m : MethodId} {decl : MethodDecl} : p.methodAt m = .ok decl →
    ∃ ml enter, l.methodAt m = .ok ml ∧ ml.receiverOffset = p.receiverOffset decl ∧
      Gen.dispatch ml = .ok enter
  instVar {x : VarId} {c : ClassId} : p.kindOf x = some (.instVar c) →
    ∃ offset, l.varOffset x = .ok offset
  formal {x : VarId} {m : MethodId} : p.kindOf x = some (.formal m) →
    ∃ offset, l.varOffset x = .ok offset ∧ 0 ≤ offset ∧ offset ≤ p.varReach x

theorem Layout.Covers.exists_fieldOffset (covers : l.Covers p) {x : VarId} {kind : VarKind}
    (hkind : p.kindOf x = some kind) (hfield : kind.isInstVar) :
    ∃ offset, l.varOffset x = .ok offset := by
  cases kind with
  | instVar c => exact covers.instVar hkind
  | _ => exact absurd hfield Bool.false_ne_true

namespace Program

/-- The query for subtypes answers for types of the program. -/
theorem IsClassTree.exists_isSubtype (tree : p.IsClassTree) {ty ty' : Ty} (h : ty.isIn p)
    (h' : ty'.isIn p) : ∃ b, p.isSubtype ty ty' = .ok b :=
  Program.exists_isSubtype (fun _ _ => tree.superclass_exists) tree.acyclic h h'

end Program

theorem Ty.exists_range {ty : Ty} (hin : ty.isIn p) (htestable : ty.isTestable) :
    ∃ range, Gen.loadClassRange p ty = .ok range := by
  obtain ⟨name, _, hrange⟩ : ∃ name, p.recordName ty = .ok name ∧
      p.classRange ty = .ok (Layout.rangeOf name) := by
    cases ty with
    | object c =>
      obtain ⟨decl, hdecl⟩ := Program.hasClass_iff.1 hin
      exact (Layout.HasRecord.object hdecl).exists_range
    | array elem => exact (Layout.HasRecord.array elem).exists_range
    | _ => exact absurd htestable (by simp [isTestable])
  rw [Gen.loadClassRange, hrange]
  exact ⟨_, rfl⟩

/-! ## Expressions -/

namespace Gen

theorem raises_combine {op : BinOp} (h : Offset.Fits (f.height - 2 * wordSize))
    (hle : 2 * wordSize ≤ f.height) : Raises (do
      let drop ← pop span (2 * wordSize)
      return Code.of span ([.lw .t0 0 .sp, .lw .t1 (2 * wordSize) .sp] ++ combine op)
        ++ drop ++ Code.of span [.sw .t0 0 .sp]) f (-(2 * wordSize)) :=
  (raises_pop h hle).bind (fun _ => raises_pure _) (Int.add_zero _).symm

/-- An operator pops one of two scalars, and none of two references. -/
theorem raises_applyOperator {op : BinOp} {onReferences : Bool} {d : Int}
    (hd : d = if op = .eq ∧ onReferences then 0 else 2 * wordSize)
    (h : Offset.Fits (f.height - 2 * wordSize)) (hle : 2 * wordSize ≤ f.height) :
    Raises (applyOperator span op onReferences) f (-d) := by
  rw [hd]
  cases op with
  | div => exact (raises_popped h hle).bind (fun _ => raises_pure _) (Int.add_zero _).symm
  | rem => exact (raises_popped h hle).bind (fun _ => raises_pure _) (Int.add_zero _).symm
  | eq =>
    cases onReferences with
    | true => exact raises_pure _
    | false => exact raises_combine h hle
  | _ => exact raises_combine h hle

/-- An element takes the place of its array and index. -/
theorem raises_loadElement {ty : Ty} (hty : ty.isVoid = false)
    (hbottom : 3 * wordSize ≤ f.height) (hsmall : f.height < 2 ^ 31) :
    Raises (loadElement span ty) f (ty.stackBytes - 3 * wordSize) := by
  have hfits : ∀ {n : Int}, 0 ≤ n → n ≤ 3 * wordSize → Offset.Fits (f.height - n) := by
    intro n hn hle
    constructor <;> omega
  rw [Ty.stackBytes_of_not_isVoid hty, loadElement]
  by_cases hscalar : ty.isScalar
  · simp only [hscalar, if_true]
    refine (raises_pop (hfits ?_ ?_) ?_).bind (fun _ => raises_pure _) ?_ <;>
      simp only [wordSize] at hbottom ⊢ <;> omega
  · simp only [hscalar, Bool.false_eq_true, if_false]
    refine (raises_pop (hfits ?_ ?_) ?_).bind (fun _ => raises_pure _) ?_ <;>
      simp only [wordSize] at hbottom ⊢ <;> omega

/-- A field takes the place of its object. -/
theorem raises_loadField {ty : Ty} {offset : Int} (hty : ty.isVoid = false)
    (h : Offset.Fits (f.height - wordSize + ty.stackBytes)) :
    Raises (loadField span ty offset) f (ty.stackBytes - wordSize) := by
  rw [Ty.stackBytes_of_not_isVoid hty] at h ⊢
  rw [loadField]
  by_cases hscalar : ty.isScalar
  · simp only [hscalar, if_true] at h ⊢
    have hpush : Offset.Fits (f.height + wordSize) := by
      convert h using 1
      omega
    exact (raises_tagTop hpush).bind (fun _ => raises_pure _) (by omega)
  · simp only [hscalar, Bool.false_eq_true, if_false]
    exact raises_pure _

end Gen

namespace ExprTree

open Gen

variable {e : ExprTree}

/-- The code of an expression can be generated, wherever its variables can be addressed and there is
room for its peak. -/
def CanGenerate (p : Program) (l : Layout) (top : Int) (e : ExprTree) : Prop :=
  ∀ f : Frame, (∀ x ∈ e.reads, Addressable p l f.locals top x) → f.HasRoom e.peak top →
    Raises (e.code p l) f e.ty.stackBytes

theorem canGenerate_of_raises (h : ∀ f : Frame, Offset.Fits (f.height + e.ty.stackBytes) →
    Raises (e.code p l) f e.ty.stackBytes) : e.CanGenerate p l top := by
  intro f _ hroom
  have hbottom := hroom.bottom
  have hnonneg := e.ty.stackBytes_nonneg
  have hpeak := e.stackBytes_le_peak
  exact h f (hroom.fits (by omega) (by omega))

theorem valueBytes_nonneg (es : List (Unit → ExprTree)) : 0 ≤ valueBytes es := by
  induction es with
  | nil => exact Int.le_refl 0
  | cons e es ih =>
    rw [valueBytes_cons]
    exact Int.add_nonneg (e ()).ty.stackBytes_nonneg ih

theorem valueBytes_le_peakAll (es : List (Unit → ExprTree)) : valueBytes es ≤ peakAll es := by
  induction es with
  | nil => exact Int.le_refl 0
  | cons e es ih =>
    rw [valueBytes_cons, peakAll]
    exact Int.le_trans (Int.add_le_add_left ih _) (Int.le_max_right _ _)

/-- The operands of a call are evaluated one above the other. -/
theorem raises_codeAll {es : List (Unit → ExprTree)} (h : ∀ e ∈ es, (e ()).CanGenerate p l top)
    (hreads : ∀ x ∈ readsAll es, Addressable p l f.locals top x)
    (hroom : f.HasRoom (peakAll es) top) : Raises (codeAll p l es) f (valueBytes es) := by
  induction es generalizing f with
  | nil => exact raises_pure _
  | cons e es ih =>
    rw [List.forall_mem_cons] at h
    rw [readsAll, List.forall_mem_append] at hreads
    rw [peakAll] at hroom
    rw [codeAll]
    have hfirst := h.1 f hreads.1 (hroom.mono (Int.le_max_left _ _))
    have hrest := ih (f := { f with height := f.height + (e ()).ty.stackBytes }) h.2 hreads.2
      (hroom.raise (e ()).ty.stackBytes_nonneg (Int.le_max_right _ _))
    exact hfirst.bind (m := valueBytes es)
      (fun _ => hrest.bind (fun _ => raises_pure _) (Int.add_zero _).symm) (valueBytes_cons e es)

/-- Operands are evaluated from left to right, the right one above the value of the left one. -/
theorem CanGenerate.pair {lhs rhs : ExprTree} {next : Code → Code → Gen Code}
    {n k bytes : Int} (hlhs : lhs.CanGenerate p l top) (hrhs : rhs.CanGenerate p l top)
    (hreads : ∀ x ∈ lhs.reads ++ rhs.reads, Addressable p l f.locals top x)
    (hroom : f.HasRoom bytes top) (hleft : lhs.peak ≤ bytes)
    (hright : lhs.ty.stackBytes + rhs.peak ≤ bytes)
    (hnext : ∀ left right, Raises (next left right)
      { f with height := f.height + (lhs.ty.stackBytes + rhs.ty.stackBytes) } n)
    (hsum : k = lhs.ty.stackBytes + (rhs.ty.stackBytes + n)) :
    Raises (do
      let left ← lhs.code p l
      let right ← rhs.code p l
      next left right) f k := by
  rw [List.forall_mem_append] at hreads
  have hfirst := hlhs f hreads.1 (hroom.mono hleft)
  have hsecond := hrhs { f with height := f.height + lhs.ty.stackBytes } hreads.2
    (hroom.raise lhs.ty.stackBytes_nonneg hright)
  refine hfirst.bind (m := rhs.ty.stackBytes + n)
    (fun left => hsecond.bind (m := n) (fun right => ?_) rfl) hsum
  have hlast := hnext left right
  rw [← Int.add_assoc] at hlast
  exact hlast

section Forms

variable {info : ExprInfo}

theorem canGenerate_ident {x : VarId} (hvoid : info.ty.isVoid = false) :
    (ident info x).CanGenerate p l top := by
  intro f hreads hroom
  have hnonneg := info.ty.stackBytes_nonneg
  have hbottom := hroom.bottom
  have hbelow := hroom.below
  rw [peak] at hbelow
  have haddress := (hreads x (by simp [reads])).raises hbottom (by omega)
  refine haddress.bind (m := info.ty.stackBytes) (fun _ => ?_) (Int.zero_add _).symm
  refine (raises_pushValue hvoid ?_).bind (fun _ => raises_pure _) (Int.add_zero _).symm
  simp only [Int.add_zero]
  exact hroom.fits (by omega) (Int.le_refl _)

theorem canGenerate_not {operand : Unit → ExprTree} (hty : info.ty.isScalar)
    (hoperand : (operand ()).ty.isScalar) (h : (operand ()).CanGenerate p l top) :
    (not info operand).CanGenerate p l top := by
  intro f hreads hroom
  have hvalue := h f hreads (hroom.mono (Int.le_max_left _ _))
  refine hvalue.bind (fun _ => raises_pure _) ?_
  rw [Ty.stackBytes_of_isScalar hoperand, ty, Ty.stackBytes_of_isScalar hty]
  rfl

/-- The word that the operand leaves becomes a scalar. -/
theorem canGenerate_tagged {operand : Unit → ExprTree} {next : Code → Gen Code}
    (hcode : e.code p l = (operand ()).code p l >>= next)
    (hnext : ∀ (value : Code) (f : Frame), Offset.Fits (f.height + wordSize) →
      Raises (next value) f wordSize)
    (hty : e.ty.isScalar) (hoperand : (operand ()).ty.isReference)
    (hreads : e.reads = (operand ()).reads) (hpeak : (operand ()).peak ≤ e.peak)
    (h : (operand ()).CanGenerate p l top) : e.CanGenerate p l top := by
  intro f hvars hroom
  rw [hreads] at hvars
  have hvalue := h f hvars (hroom.mono hpeak)
  have hscalar := e.stackBytes_le_peak
  have hword := wordSize_nonneg
  have hbottom := hroom.bottom
  rw [Ty.stackBytes_of_isReference hoperand] at hvalue
  rw [Ty.stackBytes_of_isScalar hty] at hscalar ⊢
  rw [hcode]
  exact hvalue.bind (m := wordSize)
    (fun value => hnext value _ (hroom.fits (by dsimp only; omega) (by dsimp only; omega)))
    (by omega)

theorem canGenerate_operator {op : BinOp} {lhs rhs : Unit → ExprTree} (hty : info.ty.isScalar)
    (htakes : op.takes (lhs ()).ty (rhs ()).ty) (hop : op.isShortCircuit = false)
    (hlhs : (lhs ()).CanGenerate p l top) (hrhs : (rhs ()).CanGenerate p l top) :
    (binary info op lhs rhs).CanGenerate p l top := by
  intro f hreads hroom
  have hleft : (lhs ()).peak ≤ (binary info op lhs rhs).peak :=
    Int.le_trans (Int.le_max_left _ _) (Int.le_max_left _ _)
  have hright : (lhs ()).ty.stackBytes + (rhs ()).peak ≤ (binary info op lhs rhs).peak := by
    rw [peak, hop]
    exact Int.le_trans (Int.le_max_right _ _) (Int.le_max_left _ _)
  rw [ExprTree.code]
  simp only [hop, Bool.false_eq_true, if_false]
  obtain ⟨d, hd⟩ : ∃ d : Int, d = if op = .eq ∧ (lhs ()).ty.isReference then 0 else 2 * wordSize :=
    ⟨_, rfl⟩
  have hresult := BinOp.stackBytes_of_takes htakes hd
  have hbytes := BinOp.le_stackBytes_of_takes htakes
  have hpeak := (rhs ()).stackBytes_le_peak
  have hword := wordSize_nonneg
  have hbottom := hroom.bottom
  refine hlhs.pair (n := -d) hrhs hreads hroom hleft hright (fun left right => ?_) ?_
  · exact (raises_applyOperator hd
      (hroom.fits (by dsimp only; omega) (by dsimp only; omega)) (by dsimp only; omega)).bind
      (fun _ => raises_pure _) (Int.add_zero _).symm
  · rw [ty, Ty.stackBytes_of_isScalar hty]
    omega

theorem canGenerate_shortCircuit {op : BinOp} {lhs rhs : Unit → ExprTree} (hty : info.ty.isScalar)
    (htakes : op.takes (lhs ()).ty (rhs ()).ty) (hop : op.isShortCircuit)
    (hlhs : (lhs ()).CanGenerate p l top) (hrhs : (rhs ()).CanGenerate p l top) :
    (binary info op lhs rhs).CanGenerate p l top := by
  intro f hreads hroom
  obtain ⟨hlhsScalar, hrhsScalar⟩ := BinOp.isScalar_of_isShortCircuit hop htakes
  rw [reads, List.forall_mem_append] at hreads
  have hleft : (lhs ()).peak ≤ (binary info op lhs rhs).peak :=
    Int.le_trans (Int.le_max_left _ _) (Int.le_max_left _ _)
  have hright : 0 + (rhs ()).peak ≤ (binary info op lhs rhs).peak := by
    rw [peak, hop]
    exact Int.le_trans (Int.le_max_right _ _) (Int.le_max_left _ _)
  have hfirst := hlhs f hreads.1 (hroom.mono hleft)
  have hsecond := hrhs f hreads.2 (hroom.mono (by omega))
  have hpeak := (lhs ()).stackBytes_le_peak
  have hword := wordSize_nonneg
  have hbottom := hroom.bottom
  rw [Ty.stackBytes_of_isScalar hlhsScalar] at hfirst hpeak
  rw [Ty.stackBytes_of_isScalar hrhsScalar] at hsecond
  rw [ExprTree.code]
  simp only [hop, if_true]
  rw [ty, Ty.stackBytes_of_isScalar hty]
  refine hfirst.bind (m := 0) (fun left => ?_) rfl
  refine (raises_pop_of_room hroom (by omega) (Int.le_refl _) (by omega)).bind
    (m := 2 * wordSize) (fun drop => ?_) (by omega)
  -- The right operand starts at the height at which the left one did.
  rw [← f.eq_with_height (by dsimp only; omega)]
  exact hsecond.bind (fun _ => raises_pure _) (Int.add_zero _).symm

theorem canGenerate_index {array i : Unit → ExprTree} (hty : info.ty.isVoid = false)
    (harray : (array ()).ty.isReference) (hi : (i ()).ty.isScalar)
    (h : (array ()).CanGenerate p l top) (h' : (i ()).CanGenerate p l top) :
    (index info array i).CanGenerate p l top := by
  intro f hreads hroom
  have hleft : (array ()).peak ≤ (index info array i).peak :=
    Int.le_trans (Int.le_max_left _ _) (Int.le_max_left _ _)
  have hright : (array ()).ty.stackBytes + (i ()).peak ≤ (index info array i).peak :=
    Int.le_trans (Int.le_max_right _ _) (Int.le_max_left _ _)
  have hpeak := (i ()).stackBytes_le_peak
  have hbottom := hroom.bottom
  have hbelow := hroom.below
  have hsmall := hroom.small
  have hwidth := Ty.stackBytes_of_isReference harray
  have hwidth' := Ty.stackBytes_of_isScalar hi
  refine h.pair (n := info.ty.stackBytes - 3 * wordSize) h' hreads hroom hleft hright
    (fun base position => ?_) (by rw [ty]; omega)
  exact (raises_loadElement hty (by dsimp only; omega) (by dsimp only; omega)).bind
    (fun _ => raises_pure _) (Int.add_zero _).symm

theorem canGenerate_field {object : Unit → ExprTree} {x : VarId} {offset : Int}
    (hty : info.ty.isVoid = false) (hobject : (object ()).ty.isReference)
    (hoffset : l.varOffset x = .ok offset) (h : (object ()).CanGenerate p l top) :
    (field info object x).CanGenerate p l top := by
  intro f hreads hroom
  have hvalue := h f hreads (hroom.mono (Int.le_max_left _ _))
  have hpeak := (field info object x).stackBytes_le_peak
  have hnonneg := (field info object x).ty.stackBytes_nonneg
  have hbottom := hroom.bottom
  rw [Ty.stackBytes_of_isReference hobject] at hvalue
  refine hvalue.bind (m := info.ty.stackBytes - wordSize) (fun _ => ?_) (by rw [ty]; omega)
  refine raises_liftM hoffset ?_
  refine (raises_loadField hty ?_).bind (fun _ => raises_pure _) (Int.add_zero _).symm
  dsimp only
  rw [Int.add_sub_cancel]
  rw [ty] at hpeak hnonneg
  exact hroom.fits (by omega) (by omega)

theorem canGenerate_cast {operand : Unit → ExprTree} {target : Ty}
    (hwidth : info.ty.stackBytes = (operand ()).ty.stackBytes) {upcast : Bool}
    (hupcast : p.isSubtype (operand ()).ty target = .ok upcast)
    (hrange : upcast = false → ∃ range, loadClassRange p target = .ok range)
    (h : (operand ()).CanGenerate p l top) : (cast info target operand).CanGenerate p l top := by
  intro f hreads hroom
  have hvalue := h f hreads (hroom.mono (Int.le_max_left _ _))
  refine hvalue.bind (m := 0) (fun value => raises_liftM hupcast ?_) (by rw [ty, hwidth]; omega)
  cases upcast with
  | true => exact raises_pure _
  | false =>
    obtain ⟨range, hrange⟩ := hrange rfl
    exact raises_liftM hrange (raises_pure _)

theorem canGenerate_newArray {elem : Ty} {size : Unit → ExprTree} {record : String}
    (hty : info.ty.isReference) (hsize : (size ()).ty.isScalar)
    (hrecord : p.recordName info.ty = .ok record) (h : (size ()).CanGenerate p l top) :
    (newArray info elem size).CanGenerate p l top := by
  intro f hreads hroom
  have hvalue := h f hreads (hroom.mono (Int.le_max_left _ _))
  have hpeak : (size ()).ty.stackBytes ≤ (newArray info elem size).peak :=
    Int.le_trans (size ()).stackBytes_le_peak (Int.le_max_left _ _)
  have hword := wordSize_nonneg
  have hbottom := hroom.bottom
  rw [Ty.stackBytes_of_isScalar hsize] at hvalue hpeak
  rw [ty, Ty.stackBytes_of_isReference hty]
  refine hvalue.bind (m := -wordSize) (fun length => ?_) (by omega)
  refine (raises_pop_of_room hroom (by omega) (Int.le_refl _) (by omega)).bind (m := wordSize)
    (fun drop => ?_) (by omega)
  rw [← f.eq_with_height (by dsimp only; omega)]
  exact (raises_pushed (hroom.fits (by omega) (by omega))).bind (m := 0)
    (fun _ => raises_liftM hrecord (raises_pure _)) (Int.add_zero _).symm

theorem canGenerate_call {receiver : Unit → ExprTree} {method : MethodId}
    {args : List (Unit → ExprTree)} {decl : MethodDecl} {label : Label} {ml : MethodLayout}
    {enter : List Inst} (hdecl : p.methodAt method = .ok decl)
    (hlabel : p.methodLabel method = .ok label) (hml : l.methodAt method = .ok ml)
    (hdispatch : dispatch ml = .ok enter) (hlength : args.length = decl.formals.length)
    (hwidth : info.ty.stackBytes = decl.returnType.stackBytes)
    (h : (receiver ()).CanGenerate p l top) (hargs : ∀ arg ∈ args, (arg ()).CanGenerate p l top) :
    (call info receiver method args).CanGenerate p l top := by
  intro f hreads hroom
  rw [ExprTree.code]
  refine raises_liftM hdecl ?_
  rw [if_neg (by simp [hlength])]
  refine raises_height ?_
  rw [reads, List.forall_mem_append] at hreads
  have hfirst := h f hreads.1
    (hroom.mono (Int.le_trans (Int.le_max_left _ _) (Int.le_max_left _ _)))
  have hsecond := raises_codeAll (f := { f with height := f.height + (receiver ()).ty.stackBytes })
    hargs hreads.2 (hroom.raise (receiver ()).ty.stackBytes_nonneg
      (Int.le_trans (Int.le_max_right _ _) (Int.le_max_left _ _)))
  have hbelow := (receiver ()).ty.stackBytes_nonneg
  have hpassed := valueBytes_nonneg args
  have hpeak := valueBytes_le_peakAll args
  have htotal : (receiver ()).ty.stackBytes + peakAll args ≤
      (call info receiver method args).peak :=
    Int.le_trans (Int.le_max_right _ _) (Int.le_max_left _ _)
  have hresult : info.ty.stackBytes ≤ (call info receiver method args).peak := Int.le_max_right _ _
  have hnonneg := info.ty.stackBytes_nonneg
  have hbottom := hroom.bottom
  -- Receiver and arguments are dropped together, and the result is pushed in their place.
  have hleave : ∀ code : Code, Raises (do
      let _ ← restored f.height
      pushed decl.returnType.stackBytes
      return code) { f with
        height := f.height + (receiver ()).ty.stackBytes + valueBytes args }
      (info.ty.stackBytes - (receiver ()).ty.stackBytes - valueBytes args) := by
    intro code
    rw [Int.add_assoc, ← hwidth]
    refine (raises_restored_of_room hroom (by omega) (by omega)).bind (m := info.ty.stackBytes)
      (fun _ => ?_) (by omega)
    rw [← f.eq_with_height (by dsimp only; omega)]
    exact (raises_pushed (hroom.fits (by omega) (by omega))).bind (fun _ => raises_pure _)
      (Int.add_zero _).symm
  refine hfirst.bind (m := info.ty.stackBytes - (receiver ()).ty.stackBytes) (fun target => ?_)
    (by rw [ty]; omega)
  refine hsecond.bind (m := info.ty.stackBytes - (receiver ()).ty.stackBytes - valueBytes args)
    (fun passed => ?_) (by omega)
  split
  · refine raises_liftM hlabel ?_
    rw [pure_bind]
    exact hleave _
  · refine raises_liftM hml ?_
    exact raises_liftM hdispatch (hleave _)

end Forms

section Code

variable (tree : p.IsClassTree) (methods : p.MethodsLinked) (covers : l.Covers p)
include tree methods covers

/-- The code of a word-typed and resolved expression can be generated. -/
theorem canGenerate (htyped : e.isWordTyped p) (hresolved : e.isResolved p) :
    e.CanGenerate p l top := by
  induction e with
  | broken id fault => exact absurd htyped Bool.false_ne_true
  | int info n =>
    have hty : info.ty.stackBytes = 2 * wordSize := Ty.stackBytes_of_isScalar htyped
    refine canGenerate_of_raises fun f hfits => ?_
    rw [ty, hty] at hfits ⊢
    exact (raises_pushScalar hfits).bind (fun _ => raises_pure _) rfl
  | bool info b =>
    have hty : info.ty.stackBytes = 2 * wordSize := Ty.stackBytes_of_isScalar htyped
    refine canGenerate_of_raises fun f hfits => ?_
    rw [ty, hty] at hfits ⊢
    cases b with
    | true => exact (raises_pushScalar hfits).bind (fun _ => raises_pure _) rfl
    | false => exact raises_pushScalar hfits
  | str info text =>
    have hty : info.ty.stackBytes = wordSize := Ty.stackBytes_of_isReference htyped
    refine canGenerate_of_raises fun f hfits => ?_
    rw [ty, hty] at hfits ⊢
    exact (raises_pushReference hfits).bind (fun _ => raises_pure _) rfl
  | null info | this info | super info =>
    have hty : info.ty.stackBytes = wordSize := Ty.stackBytes_of_isReference htyped
    refine canGenerate_of_raises fun f hfits => ?_
    rw [ty, hty] at hfits ⊢
    exact raises_pushReference hfits
  | ident info x =>
    simp only [isWordTyped, Ty.readsFrom, Bool.and_eq_true, Bool.not_eq_true'] at htyped
    exact canGenerate_ident htyped.1
  | not info operand ih =>
    simp only [isWordTyped, Bool.and_eq_true] at htyped
    exact canGenerate_not htyped.1.1 htyped.1.2 (ih htyped.2 hresolved)
  | binary info op lhs rhs ihLeft ihRight =>
    simp only [isWordTyped, Bool.and_eq_true] at htyped
    simp only [isResolved, Bool.and_eq_true] at hresolved
    obtain ⟨⟨⟨hty, htakes⟩, hlhs⟩, hrhs⟩ := htyped
    have hleft := ihLeft hlhs hresolved.1
    have hright := ihRight hrhs hresolved.2
    cases hop : op.isShortCircuit with
    | false => exact canGenerate_operator hty htakes hop hleft hright
    | true => exact canGenerate_shortCircuit hty htakes hop hleft hright
  | arrayLength info array ih =>
    simp only [isWordTyped, Bool.and_eq_true] at htyped
    obtain ⟨⟨hty, harray⟩, htyped⟩ := htyped
    exact canGenerate_tagged rfl
      (fun _ _ hfits => (raises_tagTop hfits).bind (fun _ => raises_pure _) (Int.add_zero _).symm)
      hty harray rfl (Int.le_max_left _ _) (ih htyped hresolved)
  | index info array i ihArray ihIndex =>
    simp only [isWordTyped, Bool.and_eq_true, Bool.not_eq_true'] at htyped
    simp only [isResolved, Bool.and_eq_true] at hresolved
    obtain ⟨⟨⟨⟨⟨hty, _⟩, harray⟩, hi⟩, harrayTyped⟩, hiTyped⟩ := htyped
    exact canGenerate_index hty harray hi (ihArray harrayTyped hresolved.1)
      (ihIndex hiTyped hresolved.2)
  | field info object x ih =>
    simp only [isWordTyped, Ty.readsFrom, Bool.and_eq_true, Bool.not_eq_true'] at htyped
    simp only [isResolved, Bool.and_eq_true, Option.any_eq_true] at hresolved
    obtain ⟨⟨⟨hty, _⟩, hobject⟩, htyped⟩ := htyped
    obtain ⟨⟨kind, hkind, hinstVar⟩, hresolved⟩ := hresolved
    obtain ⟨offset, hoffset⟩ := covers.exists_fieldOffset hkind hinstVar
    exact canGenerate_field hty hobject hoffset (ih htyped hresolved)
  | instanceOf info operand target ih =>
    simp only [isWordTyped, Bool.and_eq_true] at htyped
    simp only [isResolved, Bool.and_eq_true] at hresolved
    obtain ⟨⟨hty, hoperand⟩, htyped⟩ := htyped
    obtain ⟨range, hrange⟩ := Ty.exists_range hresolved.1.1 hresolved.1.2
    exact canGenerate_tagged rfl
      (fun _ _ hfits => raises_liftM hrange
        ((raises_tagTop hfits).bind (fun _ => raises_pure _) (Int.add_zero _).symm))
      hty hoperand rfl (Int.le_max_left _ _) (ih htyped hresolved.2)
  | cast info target operand ih =>
    simp only [isWordTyped, Bool.and_eq_true, beq_iff_eq] at htyped
    simp only [isResolved, Bool.and_eq_true, Bool.or_eq_true] at hresolved
    obtain ⟨⟨⟨htarget, hoperand⟩, htest⟩, hresolved⟩ := hresolved
    obtain ⟨upcast, hupcast⟩ := tree.exists_isSubtype hoperand htarget
    refine canGenerate_cast htyped.1 hupcast (fun hno => ?_) (ih htyped.2 hresolved)
    refine Ty.exists_range htarget (htest.resolve_left ?_)
    simp [isUpcast, hupcast, hno]
  | new info c =>
    have hty : info.ty.stackBytes = wordSize := Ty.stackBytes_of_isReference htyped
    obtain ⟨cl, hcl, hscalars⟩ := covers.classLayout hresolved
    obtain ⟨decl, hdecl⟩ := Program.hasClass_iff.1 hresolved
    have hrecord : p.recordName (.object c) = .ok decl.name := by
      rw [Program.recordName, hdecl]
      rfl
    refine canGenerate_of_raises fun f hfits => ?_
    rw [ty, hty] at hfits ⊢
    refine raises_liftM hcl (raises_liftM (Offset.checked_of_fits hscalars) ?_)
    refine (raises_pushed hfits).bind (m := 0) (fun _ => ?_) rfl
    exact raises_liftM hrecord (raises_pure _)
  | newArray info elem size ih =>
    simp only [isWordTyped, Bool.and_eq_true] at htyped
    simp only [isResolved, Bool.and_eq_true] at hresolved
    obtain ⟨record, hrecord⟩ : ∃ record, p.recordName info.ty = .ok record := by
      cases hty : info.ty with
      | array elem => exact ⟨_, rfl⟩
      | _ => simp [hty, Ty.elem?] at hresolved
    exact canGenerate_newArray htyped.1.1 htyped.1.2 hrecord (ih htyped.2 hresolved.2)
  | call info receiver method args ihReceiver ihArgs =>
    simp only [isResolved, Bool.and_eq_true] at hresolved
    rw [isWordTyped] at htyped
    split at htyped
    · rename_i decl hdecl
      simp only [Bool.and_eq_true, beq_iff_eq] at htyped
      obtain ⟨⟨⟨⟨hwidth, _⟩, hwidths⟩, hreceiver⟩, hargs⟩ := htyped
      have hlength : args.length = decl.formals.length := by
        simpa using congrArg List.length hwidths
      obtain ⟨label, hlabel⟩ := methods.exists_label hdecl
      obtain ⟨ml, enter, hml, _, hdispatch⟩ := covers.methodLayout hdecl
      refine canGenerate_call hdecl hlabel hml hdispatch hlength hwidth
        (ihReceiver hreceiver hresolved.1) ?_
      intro arg harg
      exact ihArgs arg harg (isWordTypedAll_iff.1 hargs arg harg)
        (isResolvedAll_iff.1 hresolved.2 arg harg)
    · exact absurd htyped Bool.false_ne_true

end Code

end ExprTree

end MipsBackend
