import Mathlib.Data.Set.Lattice
import Mathlib.Order.CompletePartialOrder
import MipsBackend.Proofs.Layout.Coverage
import MipsBackend.Proofs.Variables.Tiling

/-!
# Variables do not alias

What the generator knows of a variable is an offset from the base of the frame, the stack pointer
behind the prologue.  Here the offsets become addresses.  Formal parameters fill the words between
the one that the prologue saved and the receiver's, local variables lie below the base, and since a
frame has less than 2^31 bytes no two of these addresses are the same word.
-/

namespace MipsBackend

open Gen

variable {p : Program} {l L : Layout} {data : Code} {f f' : Frame} {P Q : Point} {x y : VarId}
  {formals : List VarId} {receiver lo hi lo' hi' offset : Int} {base : Word}

/-! ## Ranges of addresses -/

/-- The addresses from `lo` up to `hi` bytes from a base. -/
def Word.range (base : Word) (lo hi : Int) : Set Word :=
  {w | ∃ offset, lo ≤ offset ∧ offset < hi ∧ w = base + .ofInt offset}

namespace Word

theorem range_subset (hlo : lo' ≤ lo) (hhi : hi ≤ hi') : base.range lo hi ⊆ base.range lo' hi' := by
  intro w hw
  obtain ⟨offset, hle, hlt, heq⟩ := hw
  exact ⟨offset, by omega, by omega, heq⟩

/-- Offsets less than 2^32 bytes apart are different addresses. -/
theorem disjoint_range (hapart : hi ≤ lo') (hwindow : hi' ≤ lo + 2 ^ 32) :
    Disjoint (base.range lo hi) (base.range lo' hi') := by
  refine Set.disjoint_left.2 fun w hw hw' => ?_
  obtain ⟨a, hlo, hhi, heq⟩ := hw
  obtain ⟨b, hlo', hhi', heq'⟩ := hw'
  have hsame : Word.ofInt a = .ofInt b := by
    rw [heq] at heq'
    exact (BitVec.add_right_inj _).1 heq'
  rw [← BitVec.toNat_inj, BitVec.toNat_ofInt, BitVec.toNat_ofInt] at hsame
  omega

end Word

/-! ## Addresses of variables -/

namespace Point

/-- The stack pointer at a point, counted from where it was in the empty frame. -/
def sp (P : Point) (base : Word) : Word :=
  base - .ofInt P.frame.height

/-- The addresses that belong to a variable: as many bytes as a value of its type has on the stack,
from the variable's place on. -/
def cells (P : Point) (p : Program) (l : Layout) (base : Word) (x : VarId) : Set Word :=
  {w | ∃ offset, P.frame.stackOffset? p l x = some offset ∧
    w ∈ base.range offset (offset + (p.varTy x).stackBytes)}

theorem cells_eq (h : P.frame.stackOffset? p l x = some offset) :
    P.cells p l base x = base.range offset (offset + (p.varTy x).stackBytes) := by
  ext w
  constructor
  · rintro ⟨offset', hoffset', hw⟩
    obtain rfl := Option.some.inj (h.symm.trans hoffset')
    exact hw
  · exact fun hw => ⟨offset, h, hw⟩

/-- No two variables in scope share a word, and none has a word that the method needs for something
else: for the receiver of its caller, which it saves at the base, for the return address, which it
keeps in its receiver's place, or for temporaries. -/
structure Unaliased (P : Point) (p : Program) (l : Layout) (base : Word) (formals : List VarId)
    (receiver : Int) : Prop where
  /-- A variable has a place, and there the generator finds it. -/
  found : ∀ x ∈ formals ++ P.locals, ∃ offset, P.frame.stackOffset? p l x = some offset ∧
    ∀ {address f'}, (varAddress p l x).run P.frame = .ok (address, f') →
      address.2 = .sp ∧ P.sp base + .ofInt address.1 = base + .ofInt offset
  apart : (formals ++ P.locals).Pairwise fun x y =>
    Disjoint (P.cells p l base x) (P.cells p l base y)
  formals_fill : ⋃ x ∈ formals, P.cells p l base x = base.range wordSize receiver
  locals_between : ∀ x ∈ P.locals, P.cells p l base x ⊆ base.range (-P.frame.height) 0
  /-- What else is on the stack lies below all local variables. -/
  temporaries_below : ∀ offset, -P.frame.height ≤ offset → offset < 0 →
    (∀ x ∈ P.locals, base + .ofInt offset ∉ P.cells p l base x) →
    ∀ x ∈ P.locals, ∀ place, P.frame.stackOffset? p l x = some place → offset < place
  saved : ∀ x ∈ formals ++ P.locals, Disjoint (P.cells p l base x) (base.range 0 wordSize) ∧
    Disjoint (P.cells p l base x) (base.range receiver (receiver + wordSize))

end Point

/-! ## Formal parameters -/

theorem Frame.stackOffset?_of_formal {method : MethodId} (f : Frame)
    (hkind : p.kindOf x = some (.formal method)) :
    f.stackOffset? p l x = (l.varOffset x).toOption := by
  obtain ⟨⟨_, _, _, kind⟩, hdecl, hformal⟩ := Program.exists_varAt hkind
  obtain rfl : kind = .formal method := hformal
  rw [Frame.stackOffset?, hdecl]

/-- Formal parameters fill the words between the saved one and the receiver's, the last lowest. -/
theorem Layout.FormalsPlaced.tiles {tys : List Ty} (h : FormalsPlaced p L formals tys receiver)
    (hkinds : ∀ x ∈ formals, ∃ m, p.kindOf x = some (.formal m)) (f : Frame) :
    f.Tiles p L formals.reverse wordSize receiver := by
  have htys : tys = formals.map p.varTy := h.types.eq_map
  -- By induction on how many of the parameters are taken, from the receiver down.
  have hprefix : ∀ k ≤ formals.length, f.Tiles p L (formals.take k).reverse
      (receiver - ((tys.take k).map Ty.stackBytes).sum) receiver := by
    intro k hk
    induction k with
    | zero => simp [Frame.Tiles]
    | succ k ih =>
      have hx := List.getElem?_eq_getElem hk
      obtain ⟨m, hkind⟩ := hkinds formals[k] (List.getElem_mem hk)
      have hbytes : (tys.take (k + 1)).map Ty.stackBytes =
          (tys.take k).map Ty.stackBytes ++ [(p.varTy formals[k]).stackBytes] := by
        rw [List.take_add_one, htys, List.getElem?_map, hx, Option.map_some, Option.toList_some,
          List.map_append, List.map_singleton]
      rw [List.take_add_one, hx, Option.toList_some, List.reverse_append, List.reverse_singleton,
        List.singleton_append]
      refine ⟨?_, ?_⟩
      · rw [Frame.stackOffset?_of_formal f hkind, h.offset hx]
        rfl
      · have hrest := ih (Nat.le_of_succ_le hk)
        rwa [hbytes, List.sum_append, List.sum_singleton, ← Int.sub_sub, Int.sub_add_cancel]
  have hall := hprefix formals.length (Nat.le_refl _)
  have hlength : tys.length = formals.length := by
    rw [htys, List.length_map]
  have hlowest : receiver - (tys.map Ty.stackBytes).sum = wordSize := by
    rw [sum_stackBytes, h.receiver, Int.add_mul]
    omega
  rwa [← hlength, List.take_length, hlength, List.take_length, hlowest] at hall

/-! ## What a tiling says of addresses -/

namespace Frame.Tiles

variable {xs : List VarId} (h : P.frame.Tiles p l xs lo hi)
include h

theorem cells_subset (base : Word) (hx : x ∈ xs) : P.cells p l base x ⊆ base.range lo hi := by
  obtain ⟨offset, hoffset, hlo, hhi⟩ := h.exists_place hx
  rw [Point.cells_eq hoffset]
  exact Word.range_subset hlo hhi

theorem iUnion_cells (base : Word) : ⋃ x ∈ xs, P.cells p l base x = base.range lo hi := by
  refine Set.Subset.antisymm (Set.iUnion₂_subset fun x hx => h.cells_subset base hx) ?_
  rintro w ⟨a, hlo, hhi, heq⟩
  obtain ⟨x, hx, offset, hoffset, hle, hlt⟩ := h.exists_covering hlo hhi
  refine Set.mem_iUnion₂.2 ⟨x, hx, ?_⟩
  rw [Point.cells_eq hoffset]
  exact ⟨a, hle, hlt, heq⟩

theorem pairwise_disjoint (base : Word) (hwindow : hi ≤ lo + 2 ^ 32) :
    xs.Pairwise fun x y => Disjoint (P.cells p l base x) (P.cells p l base y) := by
  refine h.pairwise.imp_of_mem fun {x y} hx hy hplaces => ?_
  obtain ⟨a, b, ha, hb, hle⟩ := hplaces
  obtain ⟨a', ha', hlo, _⟩ := h.exists_place hx
  obtain ⟨b', hb', _, hhi⟩ := h.exists_place hy
  obtain rfl := Option.some.inj (ha.symm.trans ha')
  obtain rfl := Option.some.inj (hb.symm.trans hb')
  rw [Point.cells_eq ha, Point.cells_eq hb]
  exact Word.disjoint_range hle (by omega)

end Frame.Tiles

/-- Only formal parameters and local variables have a place in the frame. -/
theorem Frame.isStackVar_of_stackOffset? (h : f.stackOffset? p l x = some offset) :
    p.isStackVar x := by
  cases hdecl : p.varAt x with
  | error fault => simp [Frame.stackOffset?, hdecl] at h
  | ok decl =>
    obtain ⟨name, span, ty, kind⟩ := decl
    cases kind with
    | instVar c => simp [Frame.stackOffset?, hdecl] at h
    | formal | localVar => simp [Program.isStackVar, hdecl]

/-- An access to a variable is an access to its place, however high the stack is. -/
theorem Point.address_eq {address : Int × Reg} (hoffset : P.frame.stackOffset? p l x = some offset)
    (h : (varAddress p l x).run P.frame = .ok (address, f')) :
    address.2 = .sp ∧ P.sp base + .ofInt address.1 = base + .ofInt offset := by
  obtain ⟨offset', hoffset', _, rfl⟩ :=
    varAddress_stackVar_run h (Frame.isStackVar_of_stackOffset? hoffset)
  obtain rfl := Option.some.inj (hoffset.symm.trans hoffset')
  exact ⟨rfl, Word.sub_add_ofInt_add base P.frame.height offset⟩

/-- Where formal parameters and local variables lie next to each other, none aliases another. -/
theorem Point.unaliased_of_tiled (hP : P.Tiled p l)
    (hformals : P.frame.Tiles p l formals.reverse wordSize receiver)
    (hfits : receiver + wordSize ≤ 2 ^ 31) : P.Unaliased p l base formals receiver := by
  obtain ⟨bottom, hlocals, ⟨hbottom, _⟩, hheight⟩ := hP
  have hfirst := hformals.le
  have hlast := hlocals.le
  have hword : wordSize = 4 := rfl
  have hformal {x} (hx : x ∈ formals) : P.cells p l base x ⊆ base.range wordSize receiver :=
    hformals.cells_subset base (List.mem_reverse.2 hx)
  have hlocal {x} (hx : x ∈ P.locals) : P.cells p l base x ⊆ base.range (-bottom) 0 :=
    hlocals.cells_subset base hx
  constructor
  case found =>
    intro x hx
    have hplace : ∃ offset, P.frame.stackOffset? p l x = some offset := by
      rcases List.mem_append.1 hx with hx | hx
      · obtain ⟨offset, hoffset, _⟩ := hformals.exists_place (List.mem_reverse.2 hx)
        exact ⟨offset, hoffset⟩
      · obtain ⟨offset, hoffset, _⟩ := hlocals.exists_place hx
        exact ⟨offset, hoffset⟩
    obtain ⟨offset, hoffset⟩ := hplace
    exact ⟨offset, hoffset, fun hrun => address_eq hoffset hrun⟩
  case apart =>
    refine List.pairwise_append.2
      ⟨?_, hlocals.pairwise_disjoint base (by omega), fun x hx y hy => ?_⟩
    · have hreversed := hformals.pairwise_disjoint base (by omega)
      rw [List.pairwise_reverse] at hreversed
      exact hreversed.imp fun hdisjoint => hdisjoint.symm
    · have hranges : Disjoint (base.range (-bottom) 0) (base.range wordSize receiver) :=
        Word.disjoint_range (by omega) (by omega)
      exact (hranges.mono (hlocal hy) (hformal hx)).symm
  case formals_fill =>
    rw [← hformals.iUnion_cells base]
    simp only [List.mem_reverse]
  case locals_between =>
    intro x hx
    exact (hlocal hx).trans (Word.range_subset (by omega) (Int.le_refl 0))
  case temporaries_below =>
    intro offset _ hneg hfree x hx place hplace
    obtain ⟨place', hplace', hle, _⟩ := hlocals.exists_place hx
    obtain rfl := Option.some.inj (hplace.symm.trans hplace')
    by_contra hnot
    obtain ⟨y, hy, a, ha, hbegin, hend⟩ := hlocals.exists_covering (by omega) hneg
    refine hfree y hy ?_
    rw [cells_eq ha]
    exact ⟨offset, hbegin, hend, rfl⟩
  case saved =>
    refine List.forall_mem_append.2 ⟨fun x hx => ⟨?_, ?_⟩, fun x hx => ⟨?_, ?_⟩⟩
    · have hranges : Disjoint (base.range 0 wordSize) (base.range wordSize receiver) :=
        Word.disjoint_range (Int.le_refl _) (by omega)
      exact hranges.symm.mono_left (hformal hx)
    · have hranges : Disjoint (base.range wordSize receiver)
          (base.range receiver (receiver + wordSize)) :=
        Word.disjoint_range (Int.le_refl _) (by omega)
      exact hranges.mono_left (hformal hx)
    · have hranges : Disjoint (base.range (-bottom) 0) (base.range 0 wordSize) :=
        Word.disjoint_range (Int.le_refl _) (by omega)
      exact hranges.mono_left (hlocal hx)
    · have hranges : Disjoint (base.range (-bottom) 0)
          (base.range receiver (receiver + wordSize)) :=
        Word.disjoint_range (by omega) (by omega)
      exact hranges.mono_left (hlocal hx)

/-! ## Methods -/

namespace MethodDecl

/-- At no point of a method do variables alias, and a variable has the same address at all of
them. -/
structure Unaliased (decl : MethodDecl) (p : Program) (l : Layout) (base : Word) (receiver : Int) :
    Prop where
  points : ∀ P ∈ decl.points p l, P.Unaliased p l base decl.formals receiver
  steady : ∀ P ∈ decl.points p l, ∀ Q ∈ decl.points p l, ∀ {x address address' f f'},
    p.isStackVar x → (varAddress p l x).run P.frame = .ok (address, f) →
    (varAddress p l x).run Q.frame = .ok (address', f') →
    P.sp base + .ofInt address.1 = Q.sp base + .ofInt address'.1

/-- In a word-typed method variables do not alias. -/
theorem unaliased_of_compute {id : MethodId} {decl : MethodDecl} {ml : MethodLayout}
    (h : Layout.compute p = .ok (L, data)) (hdecl : p.methodAt id = .ok decl)
    (hml : L.methodAt id = .ok ml)
    (hformals : ∀ x ∈ decl.formals, ∃ m, p.kindOf x = some (.formal m))
    (htyped : (Body.method id).isWordTyped p) (base : Word) :
    decl.Unaliased p L base ml.receiverOffset := by
  obtain ⟨_, _, _, decl', ml', tys, hdecl', hml', hplaced, _⟩ :=
    (Layout.compute_eq_ok h).exists_methodPlaced hml
  obtain rfl : decl = decl' := Except.ok.inj (hdecl.symm.trans hdecl')
  obtain rfl : ml = ml' := Except.ok.inj (hml.symm.trans hml')
  have hvisits := visits_points (l := L) hdecl htyped
  constructor
  case points =>
    intro P hP
    refine Point.unaliased_of_tiled (hvisits.tiled P hP) (hplaced.tiles hformals P.frame) ?_
    have hreceiver := hplaced.receiver
    have hlt := hplaced.fits.2
    rw [wordSize] at hreceiver ⊢
    omega
  case steady =>
    intro P hP Q hQ x address address' f f' hstack hrun hrun'
    obtain ⟨a, ha, _, rfl⟩ := varAddress_stackVar_run hrun hstack
    obtain ⟨b, hb, _, rfl⟩ := varAddress_stackVar_run hrun' hstack
    obtain rfl := hvisits.agree P hP Q hQ ha hb
    calc P.sp base + .ofInt (P.frame.height + a)
      _ = base + .ofInt a := Word.sub_add_ofInt_add base P.frame.height a
      _ = Q.sp base + .ofInt (Q.frame.height + a) :=
        (Word.sub_add_ofInt_add base Q.frame.height a).symm

/-- The method `scale` of `shapes` has two formal parameters, and a local variable that comes into
scope on the way. -/
theorem unaliased_scale : ∃ L data decl ml, Layout.compute shapes = .ok (L, data) ∧
    shapes.methodAt ⟨2⟩ = .ok decl ∧ L.methodAt ⟨2⟩ = .ok ml ∧ decl.formals = [⟨0⟩, ⟨1⟩] ∧
    (∃ P ∈ decl.points shapes L, P.locals = [⟨2⟩]) ∧
    ∀ base, decl.Unaliased shapes L base ml.receiverOffset := by
  have hrun : (do
      let laid ← Layout.compute shapes
      let _ ← laid.1.methodAt ⟨2⟩
      let decl ← shapes.methodAt ⟨2⟩
      return (decl.points shapes laid.1).any (·.locals == [(⟨2⟩ : VarId)])).toOption =
        some true := by
    decide +kernel
  obtain ⟨reached, hok⟩ := exists_eq_ok_of_isSome (Option.isSome_of_eq_some hrun)
  obtain rfl := Option.some.inj ((congrArg Except.toOption hok).symm.trans hrun)
  obtain ⟨⟨L, data⟩, hcompute, hok⟩ := bind_eq_ok_iff.1 hok
  obtain ⟨ml, hml, hok⟩ := bind_eq_ok_iff.1 hok
  obtain ⟨decl, hdecl, hok⟩ := bind_eq_ok_iff.1 hok
  obtain ⟨P, hP, hlocals⟩ := List.any_eq_true.1 (pure_eq_ok_iff.1 hok).symm
  have hformals : decl.formals = [⟨0⟩, ⟨1⟩] := by
    rw [← Except.ok.inj hdecl]
    rfl
  have hkinds : ∀ x ∈ decl.formals, ∃ m, shapes.kindOf x = some (.formal m) := by
    rw [hformals]
    exact List.forall_mem_cons.2 ⟨⟨_, rfl⟩, List.forall_mem_singleton.2 ⟨_, rfl⟩⟩
  exact ⟨L, data, decl, ml, hcompute, hdecl, hml, hformals, ⟨P, hP, eq_of_beq hlocals⟩,
    unaliased_of_compute hcompute hdecl hml hkinds (by decide +kernel)⟩

end MethodDecl

end MipsBackend
